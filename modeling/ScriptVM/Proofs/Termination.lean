import ScriptVM.Proofs.Bindings
import ScriptVM.Proofs.Integrity
import ScriptVM.Proofs.KeyKeeping

/-!
# Walks that end

A function refers to the environment it was made in, which may bind the function, so what refers to what may go in circles. But an
environment is inside an older one, and an array or a map holds what was there when it was made. So environments have chains, no
array or map is in itself, and each walk through environments, arrays or maps ends (`Machine.Session.walks_end`).

A slot is used again for newer objects, so the place of an object does not tell its age. The nesting is what the twins of a session
carry along (`Pairing.Sound.nestedLeft`); here it is made a statement about one heap (`Heap.Founded`) and the walks are bounded by it.
-/

namespace ScriptVM

namespace Heap

variable {h : Heap} {a c : Handle} {v w : Value} {m n : Nat}

/-! ## Containment -/

/-- An object is in an array or a map: an element refers to it, or the key or the value of an entry. -/
def ContainedIn (h : Heap) (c a : Handle) : Prop :=
  (∃ items, h.get? a = some (.array items) ∧ ∃ v ∈ items.toList, v.handle? = some c) ∨
    ∃ entries, h.get? a = some (.map entries) ∧ ∃ e ∈ entries.values, e.key.handle? = some c ∨ e.value.handle? = some c

/-- Every handle in an object leads to an object of the kind that it is taken for, and the objects of the heap are nested. -/
structure Founded (h : Heap) : Prop where
  objects : ∀ a o, h.get? a = some o → o.Resolves h
  nested : h.Nested fun a => (h.get? a).isSome

/-- Each object has a depth below the number of slots, greater than that of its parts. -/
theorem Founded.exists_depth (hf : h.Founded) : ∃ depth : Handle → Nat,
    (∀ a o, h.get? a = some o → depth a < h.slots.size) ∧ ∀ a o, h.get? a = some o → ∀ c ∈ o.parts, depth c < depth a := by
  obtain ⟨depth, hsize, hdepth⟩ := hf.nested.depth fun _ ha => ha
  exact ⟨depth, fun a o ho => hsize a (Option.isSome_of_eq_some ho),
    fun a o ho c hc => (hdepth a o (Option.isSome_of_eq_some ho) ho c hc).2⟩

/-- What is in an array or a map is part of it. -/
theorem ContainedIn.exists_parts (hca : h.ContainedIn c a) : ∃ o, h.get? a = some o ∧ c ∈ o.parts := by
  rcases hca with ⟨items, ha, v, hv, hc⟩ | ⟨entries, ha, e, he, hc⟩
  · exact ⟨_, ha, List.mem_filterMap.2 ⟨v, hv, hc⟩⟩
  · refine ⟨_, ha, List.mem_flatMap.2 ⟨e, he, ?_⟩⟩
    rcases hc with hc | hc <;> simp [hc]

/-- No object of a founded heap contains itself, however deep. -/
theorem Founded.wellFounded_containedIn (hf : h.Founded) : WellFounded h.ContainedIn := by
  obtain ⟨depth, -, hdepth⟩ := hf.exists_depth
  refine Subrelation.wf (fun {c a} hca => ?_) (measure depth).wf
  obtain ⟨o, ho, hc⟩ := hca.exists_parts
  exact hdepth a o ho c hc

theorem Founded.wellTyped (hf : h.Founded) : h.WellTyped := by
  refine ⟨hf.objects, Subrelation.wf (fun {c a} hca => ?_) hf.wellFounded_containedIn⟩
  obtain ⟨items, ha, hc⟩ := hca
  exact .inl ⟨items, ha, _, hc, rfl⟩

/-- Every environment has a chain. -/
theorem Founded.exists_chain (hf : h.Founded) {e : Environment} (he : h.get? a = some (.environment e)) : ∃ l, h.Chain a l := by
  obtain ⟨depth, -, hdepth⟩ := hf.exists_depth
  induction a using (measure depth).wf.induction generalizing e with
  | h a ih =>
    cases hparent : e.parent with
    | none => exact ⟨_, .outermost he hparent⟩
    | some b =>
      have hlt : depth b < depth a := hdepth a _ he b (Option.mem_toList.2 hparent)
      obtain ⟨o, ho, hkind⟩ := (hf.objects a _ he).2 b hparent
      cases o with
      | environment e' =>
        obtain ⟨l, hl⟩ := ih b hlt ho
        exact ⟨_, .inside he hparent hl⟩
      | _ => cases hkind

/-! ## Larger bounds -/

/-- Comparing two lists depends on how their elements are compared. -/
theorem allEqual_congr {f g : Value → Value → Except RuntimeError Bool} {xs ys : List Value}
    (hfg : ∀ x ∈ xs, ∀ y, f x y = g x y) : allEqual f xs ys = allEqual g xs ys := by
  induction xs generalizing ys with
  | nil => cases ys <;> rfl
  | cons x xs ih =>
    cases ys with
    | nil => rfl
    | cons y ys => rw [allEqual, allEqual, hfg x List.mem_cons_self, ih fun z hz => hfg z (List.mem_cons_of_mem _ hz)]

/-- A comparison that sees all of the value on the left comes to the same answer with a larger bound. -/
theorem Shallow.equalWithin_eq (hv : h.Shallow n v) (hle : n ≤ m) (w : Value) : h.equalWithin m v w = h.equalWithin n v w := by
  induction hv generalizing m w with
  | @plain n v _ harr =>
    unfold equalWithin
    split
    · exact absurd rfl (harr _)
    · rfl
    · rfl
  | @array n a items ha _ ih =>
    obtain ⟨m, rfl⟩ : ∃ k, m = k + 1 := ⟨m - 1, by omega⟩
    have hitems (ys : List Value) : allEqual (h.equalWithin m) items.toList ys = allEqual (h.equalWithin n) items.toList ys :=
      allEqual_congr fun x hx y => ih x hx (Nat.le_of_succ_le_succ hle) y
    by_cases hw : ∃ b, w = .ref .array b
    · obtain ⟨b, rfl⟩ := hw
      simp only [equalWithin, array_of_get? ha]
      split
      · rfl
      · change (h.array b >>= fun ys => if items.size ≠ ys.size then pure false else allEqual _ items.toList ys.toList) = _
        simp only [hitems]
        rfl
    · have hu : Unlike (.ref .array a) w := by
        refine ⟨fun _ b _ hb => hw ⟨b, hb⟩, fun c _ hc => ?_⟩
        cases hc
      rw [equalWithin_of_unlike hu, equalWithin_of_unlike hu]

/-- The displayed form depends on what is found only. -/
theorem textOr_congr {α : Type} {found : Except RuntimeError α} {f g : α → String} (hfg : ∀ x, found = .ok x → f x = g x) :
    textOr found f = textOr found g := by
  cases found with
  | ok x => exact hfg x rfl
  | error => rfl

/-- A handle that is read as an array resolves to it. -/
theorem get?_of_array {items : Array Value} (ha : h.array a = .ok items) : h.get? a = some (.array items) := by
  unfold array at ha
  split at ha
  · cases ha
    assumption
  · cases ha

/-- A handle that is read as a map resolves to it. -/
theorem get?_of_map {entries : Table MapKey MapEntry} (ha : h.map a = .ok entries) : h.get? a = some (.map entries) := by
  unfold map at ha
  split at ha
  · cases ha
    assumption
  · cases ha

/-- The displayed form of a value that is nested less deep than the bound is the same with a larger bound. -/
theorem describeWithin_eq {depth : Handle → Nat} (hdepth : ∀ a o, h.get? a = some o → ∀ c ∈ o.parts, depth c < depth a)
    (hv : ∀ a, v.handle? = some a → depth a < n) (hle : n ≤ m) (quoted : Bool) :
    h.describeWithin m quoted v = h.describeWithin n quoted v := by
  induction n generalizing m v quoted with
  | zero =>
    cases v with
    | ref kind a => exact absurd (hv a rfl) (Nat.not_lt_zero _)
    | _ => rw [describeWithin, describeWithin]
  | succ n ih =>
    obtain ⟨m, rfl⟩ : ∃ k, m = k + 1 := ⟨m - 1, by omega⟩
    cases v with
    | ref kind a =>
      have ha : depth a ≤ n := Nat.le_of_lt_succ (hv a rfl)
      -- What the object contains is nested less deep than the object.
      have hpart {o : Object} (ho : h.get? a = some o) {w : Value} (hw : ∀ c, w.handle? = some c → c ∈ o.parts) :
          h.describeWithin m true w = h.describeWithin n true w :=
        ih (fun c hc => Nat.lt_of_lt_of_le (hdepth a o ho c (hw c hc)) ha) (Nat.le_of_succ_le_succ hle) true
      cases kind with
      | array =>
        rw [describeWithin, describeWithin]
        refine textOr_congr fun items hitems => ?_
        have ho := get?_of_array hitems
        rw [List.map_congr_left fun w hw => hpart ho fun c hc => List.mem_filterMap.2 ⟨w, hw, hc⟩]
      | map =>
        rw [describeWithin, describeWithin]
        refine textOr_congr fun entries hentries => ?_
        have ho := get?_of_map hentries
        have hentry (e : MapEntry) (he : e ∈ entries.values) (w : Value) (hw : w = e.key ∨ w = e.value) :
            h.describeWithin m true w = h.describeWithin n true w := by
          refine hpart ho fun c hc => List.mem_flatMap.2 ⟨e, he, ?_⟩
          rcases hw with rfl | rfl <;> simp [hc]
        dsimp only
        rw [List.map_congr_left fun e he => ?_]
        rw [hentry e he _ (.inl rfl), hentry e he _ (.inr rfl)]
      | _ => rw [describeWithin, describeWithin]
    | _ => rw [describeWithin, describeWithin]

/-! ## Walks end -/

/-- The walks from an environment to the binding of a name end: a walk that may pass as many environments as there are slots comes to
its end, and an assignment fails for no other reason than that the name is not bound. -/
structure NameWalksEnd (h : Heap) (a : Handle) (name : String) : Prop where
  owner : ∃ r, ∀ fuel, h.slots.size ≤ fuel → h.ownerWithin name fuel a = .ok r
  lookup : ∃ r, h.lookup a name = .ok r
  assign : ∀ v, (∃ h', HeapM.assign a name v h = .ok () h') ∨ HeapM.assign a name v h = .error (.undefinedName name) h

/-- The walks into a value end: those that may pass more containers than there are slots come to one answer, however many they may
pass. -/
structure ValueWalksEnd (h : Heap) (v : Value) : Prop where
  key : ∃ k, ∀ fuel, h.depthBound ≤ fuel → h.mapKeyWithin fuel v = .ok k
  equal : ∀ w : Value, w.Resolves h → ∃ b, ∀ fuel, h.depthBound ≤ fuel → h.equalWithin fuel v w = .ok b
  text : ∀ quoted, ∃ s, ∀ fuel, h.depthBound ≤ fuel → h.describeWithin fuel quoted v = s

/-- The walks along a finite chain of environments end. -/
theorem Chain.nameWalksEnd {l : List Handle} (hc : h.Chain a l) (name : String) : h.NameWalksEnd a name := by
  refine ⟨⟨_, fun fuel hfuel => hc.ownerWithin name (hc.length_le.trans hfuel)⟩, ⟨_, hc.lookup name⟩, fun v => ?_⟩
  rcases hc.nearest_or_none name with ⟨c, howner, -⟩ | ⟨howner, -⟩
  · exact .inl ⟨_, assign_of_owner howner⟩
  · exact .inr (assign_of_no_owner howner)

/-- The walks into a value of a founded heap end. -/
theorem Founded.valueWalksEnd (hf : h.Founded) (hv : v.Resolves h) : h.ValueWalksEnd v := by
  have hshallow := hf.wellTyped.shallow hv
  constructor
  case key =>
    obtain ⟨k, hk⟩ := hshallow.exists_key
    exact ⟨k, fun fuel hfuel => (hshallow.mapKeyWithin_eq (.refl h v) hfuel).trans hk⟩
  case equal =>
    intro w hw
    obtain ⟨b, -, -, hb, -⟩ := hshallow.agree (hf.wellTyped.shallow hw)
    exact ⟨b, fun fuel hfuel => (hshallow.equalWithin_eq hfuel w).trans hb⟩
  case text =>
    intro quoted
    obtain ⟨depth, hsize, hdepth⟩ := hf.exists_depth
    refine ⟨_, fun fuel hfuel => describeWithin_eq hdepth (fun a ha => ?_) hfuel quoted⟩
    cases v with
    | ref kind a =>
      cases ha
      obtain ⟨o, ho, -⟩ := hv
      exact Nat.lt_succ_of_lt (hsize a o ho)
    | _ => cases ha

end Heap

/-! ## Sessions -/

/-- The values that an object holds. -/
def Object.values : Object → List Value
  | .array items => items.toList
  | .map entries => entries.values.flatMap fun e => [e.key, e.value]
  | .error e => e.payload.toList
  | .environment e => e.bindings.values
  | _ => []

/-- The values in an object whose handles do not dangle do not dangle. -/
theorem Object.Resolves.of_mem_values {h : Heap} {o : Object} {v : Value} (ho : o.Resolves h) (hv : v ∈ o.values) : v.Resolves h := by
  cases o with
  | array items => exact ho v hv
  | map entries =>
    obtain ⟨e, he, hv⟩ := List.mem_flatMap.1 hv
    obtain ⟨p, hp, rfl⟩ := List.mem_map.1 he
    rcases List.mem_pair.1 hv with rfl | rfl
    · exact (ho p hp).2.1
    · exact (ho p hp).2.2
  | error e => exact ho v (Option.mem_toList.1 hv)
  | environment e =>
    obtain ⟨p, hp, rfl⟩ := List.mem_map.1 hv
    exact ho.1 p hp
  | _ => cases hv

/-- The values of a machine: its operands, what was popped last, and what the objects of its heap hold. -/
inductive Machine.HasValue (m : Machine) (v : Value) : Prop where
  | stack : v ∈ m.stack.toList → HasValue m v
  | lastPopped : v = m.lastPopped → HasValue m v
  | object {slot : Slot} {o : Object} : slot ∈ m.heap.slots.toList → slot.object = some o → v ∈ o.values → HasValue m v

/-- The values of an intact machine do not dangle. -/
theorem Machine.Intact.resolves {m : Machine} {v : Value} (hm : m.Intact) (hv : m.HasValue v) : v.Resolves m.heap := by
  cases hv with
  | stack hv => exact hm.stack v hv
  | lastPopped hv => exact hv ▸ hm.lastPopped
  | object hslot ho hv => exact (hm.objects _ hslot _ ho).of_mem_values hv

/-- The heap of a machine that has all its objects in common with a twin is founded. -/
theorem Twins.founded {W : Pairing} {m n : Machine} (h : Twins W m n) (hwhole : W.Whole) : m.heap.Founded := by
  rw [h.left]
  refine ⟨fun a o ho => ?_, ?_⟩
  · obtain ⟨b, hab⟩ := hwhole a o ho
    exact h.sound.object_resolves hab ho
  · have hlive (a : Handle) (ha : (W.left.get? a).isSome) : W.LiveLeft a := by
      obtain ⟨o, ho⟩ := Option.isSome_iff_exists.1 ha
      exact ⟨_, hwhole a o ho⟩
    refine h.sound.nestedLeft.of_parts hlive (fun a o _ ho => ⟨o, ho, rfl⟩) fun a o ha ho c hc => ?_
    obtain ⟨_, _, hc'⟩ := h.sound.liveLeft_references (hlive a ha) ho (Object.parts_subset hc)
    exact hc'.2.1

namespace Machine

variable {s : Settings} {m : Machine}

/-- In each machine of a session every environment has a chain, on which none is twice, and no array or map is in itself. So the walks
from environments to names end, and the walks into the values of the machine. -/
theorem Session.walks_end (h : Session s m) (hb : m.Bounded) :
    (∀ a e, m.heap.get? a = some (.environment e) →
      (∃ l, m.heap.Chain a l ∧ l.Nodup) ∧ ∀ name, m.heap.NameWalksEnd a name) ∧
    WellFounded m.heap.ContainedIn ∧
    (∀ v, m.HasValue v → v.Resolves m.heap) ∧ ∀ v : Value, v.Resolves m.heap → m.heap.ValueWalksEnd v := by
  obtain ⟨W, htwins, hwhole⟩ := h.twins hb
  have hfounded := htwins.founded hwhole
  refine ⟨fun a e he => ?_, hfounded.wellFounded_containedIn, fun v hv => (htwins.intact hwhole hb).resolves hv,
    fun v hv => hfounded.valueWalksEnd hv⟩
  obtain ⟨l, hl⟩ := hfounded.exists_chain he
  exact ⟨⟨l, hl, hl.nodup⟩, hl.nameWalksEnd⟩

/-- A machine on which a module with an array in an array has run. -/
def nestedMachine : Machine :=
  match nestedSample.compile with
  | .ok image => (plainMachine.run 9 image.encode).2
  | .error _ => plainMachine

/-- The sample machine is one of a session. -/
theorem session_nestedMachine : Session {} nestedMachine := by
  unfold nestedMachine
  split
  · exact .run 9 _ (.new ofSettings_plain)
  · exact .new ofSettings_plain

/-- The sample machine has seven slots and no collection, and holds an array with an array in it. -/
theorem usage_nestedMachine : (nestedMachine.heap.slots.size, nestedMachine.heap.last.collections, nestedMachine.lastPopped,
    (nestedMachine.heap.array ⟨6, 0⟩).toOption) = (7, 0, .ref .array ⟨6, 0⟩, some #[.ref .array ⟨5, 0⟩]) := by
  decide +kernel

/-- The inner array of the sample is in the outer one, containment is well-founded there, and all walks into the outer one
end. -/
theorem Session.walks_end_nestedMachine : Session {} nestedMachine ∧ nestedMachine.Bounded ∧
    nestedMachine.heap.ContainedIn ⟨5, 0⟩ ⟨6, 0⟩ ∧ WellFounded nestedMachine.heap.ContainedIn ∧
    nestedMachine.HasValue (.ref .array ⟨6, 0⟩) ∧ nestedMachine.heap.ValueWalksEnd (.ref .array ⟨6, 0⟩) := by
  have husage := usage_nestedMachine
  simp only [Prod.mk.injEq] at husage
  obtain ⟨hsize, hcollections, hlast, hitems⟩ := husage
  have hbounded : nestedMachine.Bounded := by
    rw [Bounded, hsize, hcollections]
    decide
  have hcontained : nestedMachine.heap.ContainedIn ⟨5, 0⟩ ⟨6, 0⟩ := by
    cases harray : nestedMachine.heap.array ⟨6, 0⟩ with
    | error e =>
      rw [harray] at hitems
      cases hitems
    | ok items =>
      rw [harray] at hitems
      cases hitems
      exact .inl ⟨_, Heap.get?_of_array harray, _, List.mem_singleton_self _, rfl⟩
  have hvalue : nestedMachine.HasValue (.ref .array ⟨6, 0⟩) := .lastPopped hlast.symm
  obtain ⟨-, hfounded, hvalues, hwalks⟩ := session_nestedMachine.walks_end hbounded
  exact ⟨session_nestedMachine, hbounded, hcontained, hfounded, hvalue, hwalks _ (hvalues _ hvalue)⟩

end Machine

end ScriptVM
