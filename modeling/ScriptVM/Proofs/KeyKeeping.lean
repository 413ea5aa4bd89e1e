import ScriptVM.Proofs.Equality
import ScriptVM.Proofs.Indexing

/-!
# Keys on later heaps

The key of a value is made from the value and from the objects that are met on the way through its arrays. On another heap that has
these objects it is the same key (`Heap.KeepsKey.mapKey_eq`), whatever else the heap holds: texts, errors, ranges and arrays have to
be the same, and of an object that is a key by identity only the kind matters. So a map may be changed while it is a key, and a new
object changes no key.

Well-typed heaps stay well-typed when an object that is no array is placed, or put in the place of one of its kind.
-/

namespace ScriptVM

/-- A value resolves on every heap on which the handles do that resolve here. -/
theorem Value.Resolves.mono {h h' : Heap} {v : Value} (hv : v.Resolves h)
    (hkept : ∀ kind c, h.Resolves kind c → h'.Resolves kind c) : v.Resolves h' := by
  cases v with
  | ref kind a => exact hkept _ _ hv
  | _ => trivial

/-- An object resolves on every heap that has objects of the same kinds. -/
theorem Object.Resolves.mono {h h' : Heap} {o : Object} (ho : o.Resolves h)
    (hkept : ∀ kind c, h.Resolves kind c → h'.Resolves kind c) : o.Resolves h' := by
  cases o with
  | text s => trivial
  | array items => exact fun v hv => (ho v hv).mono hkept
  | map entries =>
    intro p hp
    obtain ⟨hhandles, hkey, hvalue⟩ := ho p hp
    refine ⟨fun c hc => ?_, hkey.mono hkept, hvalue.mono hkept⟩
    obtain ⟨kind, hkind⟩ := hhandles c hc
    exact ⟨kind, hkept _ _ hkind⟩
  | function f => exact hkept _ _ ho
  | native n => trivial
  | range r => trivial
  | iterator t => exact hkept _ _ ho
  | error e => exact fun v hv => (ho v hv).mono hkept
  | environment e => exact ⟨fun p hp => (ho.1 p hp).mono hkept, fun a ha => hkept _ _ (ho.2 a ha)⟩

/-- Whether a key is made from what an object of the kind holds; the others are keys by identity. -/
def RefKind.byContent : RefKind → Bool
  | .string | .error | .array | .range => true
  | _ => false

namespace Heap

variable {h h' : Heap} {v w : Value} {n m : Nat}

/-- What is met on the way through a value is there on the other heap, and is as it was unless it is a key by identity. -/
def KeepsKey (h h' : Heap) (v : Value) : Prop :=
  ∀ c o, h.Inside c v → h.get? c = some o → ∃ o', h'.get? c = some o' ∧ o'.kind? = o.kind? ∧ (o.kind?.any RefKind.byContent → o' = o)

/-- A heap with the same objects keeps every key. -/
theorem keepsKey_of_kept (hkept : ∀ c o, h.get? c = some o → h'.get? c = some o) : h.KeepsKey h' v :=
  fun c o _ ho => ⟨o, hkept c o ho, rfl, fun _ => rfl⟩

/-- An object that is a key by identity may be changed. -/
theorem keepsKey_update {a : Handle} {o : Object} {f : Object → Object} (ha : h.get? a = some o) (hkind : (f o).kind? = o.kind?)
    (hidentity : ¬o.kind?.any RefKind.byContent) : h.KeepsKey (h.update a f) v := by
  intro c p _ hp
  rw [get?_update]
  by_cases hca : c = a
  · subst hca
    cases ha.symm.trans hp
    exact ⟨f o, by rw [if_pos rfl, ha]; rfl, hkind, fun hcontent => absurd hcontent hidentity⟩
  · exact ⟨p, by rw [if_neg hca, hp], rfl, fun _ => rfl⟩

/-- A heap keeps the keys it has. -/
theorem KeepsKey.refl (h : Heap) (v : Value) : h.KeepsKey h v := keepsKey_of_kept fun _ _ ho => ho

/-- The items of an array that keeps its key keep theirs. -/
theorem KeepsKey.item {a : Handle} {items : Array Value} (hk : h.KeepsKey h' (.ref .array a)) (ha : h.get? a = some (.array items))
    (hv : v ∈ items.toList) : h.KeepsKey h' v := fun c o hc => hk c o (.item ha hv hc)

/-- An object whose key is made from its content is there on the other heap, unchanged. -/
theorem KeepsKey.get? {kind : RefKind} {a : Handle} {o : Object} (hk : h.KeepsKey h' (.ref kind a)) (ho : h.get? a = some o)
    (hcontent : o.kind?.any RefKind.byContent) : h'.get? a = some o := by
  obtain ⟨o', ho', -, hsame⟩ := hk a o .self ho
  rw [ho', hsame hcontent]

/-- A value that keeps its key resolves on the other heap. -/
theorem KeepsKey.resolves (hk : h.KeepsKey h' v) (hv : v.Resolves h) : v.Resolves h' := by
  cases v with
  | ref kind a =>
    obtain ⟨o, ho, hkind⟩ := hv
    obtain ⟨o', ho', hkind', -⟩ := hk a o .self ho
    exact ⟨o', ho', hkind'.trans hkind⟩
  | _ => trivial

/-! ## The same key -/

/-- The key of a value that is no array does not depend on the bound. -/
theorem KeepsKey.mapKeyWithin_plain (hk : h.KeepsKey h' v) (hv : v.Resolves h) (harr : ∀ a, v ≠ .ref .array a) :
    h'.mapKeyWithin m v = h.mapKeyWithin n v := by
  cases v with
  | null => rw [mapKeyWithin, mapKeyWithin]
  | bool b => rw [mapKeyWithin, mapKeyWithin]
  | num x => cases x <;> rw [mapKeyWithin, mapKeyWithin]
  | ref kind a =>
    obtain ⟨o, ho, hkind⟩ := hv
    cases kind with
    | array => exact absurd rfl (harr a)
    | string =>
      have ho' := hk.get? ho (by rw [hkind]; rfl)
      simp only [mapKeyWithin, text, ho, ho']
    | error =>
      have ho' := hk.get? ho (by rw [hkind]; rfl)
      simp only [mapKeyWithin, error, ho, ho']
    | range =>
      have ho' := hk.get? ho (by rw [hkind]; rfl)
      simp only [mapKeyWithin, range, ho, ho']
    | _ => simp only [mapKeyWithin]

/-- A walk along a list depends on its steps only. -/
theorem mapM_congr {α β ε : Type} {f g : α → Except ε β} {l : List α} (hfg : ∀ a ∈ l, f a = g a) : l.mapM f = l.mapM g := by
  induction l with
  | nil => rfl
  | cons a l ih => rw [List.mapM_cons, List.mapM_cons, hfg a List.mem_cons_self, ih fun b hb => hfg b (List.mem_cons_of_mem _ hb)]

/-- A walk that sees all of a value makes the same key on the other heap, with the same bound or with a larger one. -/
theorem Shallow.mapKeyWithin_eq (hv : h.Shallow n v) (hk : h.KeepsKey h' v) (hle : n ≤ m) :
    h'.mapKeyWithin m v = h.mapKeyWithin n v := by
  induction hv generalizing m with
  | plain hv harr => exact hk.mapKeyWithin_plain hv harr
  | @array n a items ha _ ih =>
    obtain ⟨m, rfl⟩ : ∃ k, m = k + 1 := ⟨m - 1, by omega⟩
    have ha' := hk.get? ha rfl
    have hitems : items.toList.mapM (h'.mapKeyWithin m) = items.toList.mapM (h.mapKeyWithin n) :=
      mapM_congr fun v hv => ih v hv (hk.item ha hv) (Nat.le_of_succ_le_succ hle)
    simp only [mapKeyWithin, Heap.array, ha, ha']
    exact congrArg (· >>= fun ks => pure (MapKey.array ks)) hitems

/-- A value that keeps its key is met within the same bound on the other heap. -/
theorem Shallow.transfer (hv : h.Shallow n v) (hk : h.KeepsKey h' v) : h'.Shallow n v := by
  induction hv with
  | plain hv harr => exact .plain (hk.resolves hv) harr
  | array ha _ ih => exact .array (hk.get? ha rfl) fun v hv => ih v hv (hk.item ha hv)

/-- Where the objects inside a value are kept, its key is kept. -/
theorem KeepsKey.mapKey_eq (hk : h.KeepsKey h' v) (hw : h.WellTyped) (hw' : h'.WellTyped) (hv : v.Resolves h) :
    h'.mapKey v = h.mapKey v := by
  have hold : h'.Shallow h.depthBound v := (hw.shallow hv).transfer hk
  have hnew : h'.Shallow h'.depthBound v := hw'.shallow (hk.resolves hv)
  have hsame : h'.mapKeyWithin h'.depthBound v = h'.mapKeyWithin h.depthBound v := by
    rcases Nat.le_total h.depthBound h'.depthBound with hle | hle
    · exact hold.mapKeyWithin_eq (.refl h' v) hle
    · exact (hnew.mapKeyWithin_eq (.refl h' v) hle).symm
  exact hsame.trans ((hw.shallow hv).mapKeyWithin_eq hk (Nat.le_refl _))

/-- A value that keeps its key comes by no NaN. -/
theorem Shallow.holdsNaN (hv : h.Shallow n v) (hk : h.KeepsKey h' v) (hnan : h'.HoldsNaN v) : h.HoldsNaN v := by
  induction hv with
  | plain hv harr =>
    cases hnan with
    | num hx => exact .num hx
    | item ha => exact absurd rfl (harr _)
  | @array n a items ha _ ih =>
    cases hnan with
    | @item _ items' v ha' hv hnan =>
      cases (hk.get? ha rfl).symm.trans ha'
      exact .item ha hv (ih v hv (hk.item ha hv) hnan)

/-! ## Well-typed heaps -/

/-- What is inside a value leads to an object. -/
theorem WellTyped.inside (hw : h.WellTyped) (hv : v.Resolves h) {c : Handle} (hc : h.Inside c v) :
    ∃ kind, h.Resolves (some kind) c := by
  induction hc with
  | @self kind => exact ⟨kind, hv⟩
  | item ha hmem _ ih => exact ih (hw.objects _ _ ha _ hmem)

/-- Placing an object that resolves and is no array. -/
theorem WellTyped.place (hw : h.WellTyped) (hs : h.Sparse) (hr : h.Room) {o : Object} (ho : o.Resolves h)
    (harr : ∀ items, o ≠ .array items) : (h.place o).2.WellTyped := by
  have hkept (kind : Option RefKind) (c : Handle) (hc : h.Resolves kind c) : (h.place o).2.Resolves kind c := by
    obtain ⟨p, hp, hkind⟩ := hc
    exact ⟨p, get?_place_of_live hs hp, hkind⟩
  have hcases (a : Handle) (p : Object) (hp : (h.place o).2.get? a = some p) : p = o ∨ h.get? a = some p := by
    by_cases ha : a = (h.place o).1
    · subst ha
      rw [get?_place_self hs hr] at hp
      exact .inl (Option.some.inj hp).symm
    · rw [get?_place_of_ne hs hr ha] at hp
      exact .inr hp
  refine ⟨fun a p hp => ?_, Subrelation.wf (fun {c a} hca => ?_) hw.nesting⟩
  · rcases hcases a p hp with rfl | hp
    · exact ho.mono hkept
    · exact (hw.objects a p hp).mono hkept
  · obtain ⟨items, hitems, hc⟩ := hca
    rcases hcases a _ hitems with heq | hitems
    · exact absurd heq.symm (harr items)
    · exact ⟨items, hitems, hc⟩

/-- Putting an object that resolves and is no array in the place of one of its kind. -/
theorem WellTyped.update (hw : h.WellTyped) {a : Handle} {o : Object} {f : Object → Object} (ha : h.get? a = some o)
    (ho : (f o).Resolves h) (hkind : (f o).kind? = o.kind?) (harr : ∀ items, f o ≠ .array items) : (h.update a f).WellTyped := by
  have hcases (c : Handle) (p : Object) (hp : (h.update a f).get? c = some p) : p = f o ∨ h.get? c = some p := by
    obtain ⟨q, hq, rfl⟩ := get?_update_eq_some hp
    by_cases hca : c = a
    · subst hca
      cases ha.symm.trans hq
      exact .inl (if_pos rfl)
    · rw [if_neg hca]
      exact .inr hq
  have hkept (kind : Option RefKind) (c : Handle) (hc : h.Resolves kind c) : (h.update a f).Resolves kind c := by
    obtain ⟨p, hp, hkind'⟩ := hc
    rw [Resolves, get?_update]
    by_cases hca : c = a
    · subst hca
      cases ha.symm.trans hp
      exact ⟨f o, by rw [if_pos rfl, ha]; rfl, hkind.trans hkind'⟩
    · exact ⟨p, by rw [if_neg hca, hp], hkind'⟩
  refine ⟨fun c p hp => ?_, Subrelation.wf (fun {d c} hdc => ?_) hw.nesting⟩
  · rcases hcases c p hp with rfl | hp
    · exact ho.mono hkept
    · exact (hw.objects c p hp).mono hkept
  · obtain ⟨items, hitems, hd⟩ := hdc
    rcases hcases c _ hitems with heq | hitems
    · exact absurd heq.symm (harr items)
    · exact ⟨items, hitems, hd⟩

end Heap

end ScriptVM
