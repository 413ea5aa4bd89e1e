import ScriptVM.Proofs.Integrity
import ScriptVM.Proofs.Magnitudes

/-!
# Keys agree with equality

Equality and the making of keys are two walks through the same arrays. On a heap whose references lead to objects of their kind, and
whose arrays do not contain themselves, both walks come to an end within their bounds. Equal values have one key, and values with
one key are equal unless a NaN is in them (`Heap.key_eq_iff_equal`); so equality is an equivalence on the values without a NaN.

The two walks are compared step by step with one bound (`Heap.Shallow.agree`). Values that are not both arrays or both ranges are
compared as operands, and what an operand shows of a value is what its key keeps of it (`Heap.Shows`).
-/

namespace ScriptVM

/-! ## Equality of keys -/

namespace MapKey

mutual

/-- Keys that are found equal are equal: their comparison blurs nothing. -/
theorem eq_of_beq_true : ∀ {a b : MapKey}, beq a b = true → a = b
  | .null, b, h => by
    cases b with
    | null => rfl
    | _ => cases h
  | .bool _, b, h => by
    cases b with
    | bool _ => rw [eq_of_beq h]
    | _ => cases h
  | .int _, b, h => by
    cases b with
    | int _ => rw [eq_of_beq h]
    | _ => cases h
  | .float _, b, h => by
    cases b with
    | float _ => rw [eq_of_beq h]
    | _ => cases h
  | .text _, b, h => by
    cases b with
    | text _ => rw [eq_of_beq h]
    | _ => cases h
  | .error _, b, h => by
    cases b with
    | error _ => rw [eq_of_beq h]
    | _ => cases h
  | .array _, b, h => by
    cases b with
    | array _ => rw [eq_of_beqList h]
    | _ => cases h
  | .range _ _ _, b, h => by
    cases b with
    | range _ _ _ =>
      simp only [beq, Bool.and_eq_true, beq_iff_eq] at h
      rw [h.1.1, h.1.2, h.2]
    | _ => cases h
  | .ref _, b, h => by
    cases b with
    | ref _ => rw [eq_of_beq h]
    | _ => cases h

/-- Lists of keys that are found equal are equal. -/
theorem eq_of_beqList : ∀ {as bs : List MapKey}, beqList as bs = true → as = bs
  | [], [], _ => rfl
  | [], _ :: _, h => nomatch h
  | _ :: _, [], h => nomatch h
  | _ :: _, _ :: _, h => by
    rw [beqList, Bool.and_eq_true] at h
    rw [eq_of_beq_true h.1, eq_of_beqList h.2]

end

mutual

/-- Every key is found equal to itself. -/
theorem beq_refl : ∀ a : MapKey, beq a a = true
  | .null => rfl
  | .bool _ => beq_self_eq_true _
  | .int _ => beq_self_eq_true _
  | .float _ => beq_self_eq_true _
  | .text _ => beq_self_eq_true _
  | .error _ => beq_self_eq_true _
  | .array items => beqList_refl items
  | .range _ _ _ => by simp [beq]
  | .ref _ => beq_self_eq_true _

/-- Every list of keys is found equal to itself. -/
theorem beqList_refl : ∀ as : List MapKey, beqList as as = true
  | [] => rfl
  | a :: as => by rw [beqList, beq_refl a, beqList_refl as]; rfl

end

/-- Maps tell keys apart exactly if they are different. -/
instance : LawfulBEq MapKey where
  eq_of_beq := eq_of_beq_true
  rfl := beq_refl _

end MapKey

/-- The key is that of a number. -/
def MapKey.isNumber : MapKey → Bool
  | .int _ | .float _ => true
  | _ => false

/-- A number has its key in common with numbers only. -/
theorem Num.key_ne {n : Num} {k : MapKey} (hk : k.isNumber = false) : n.key ≠ k := by
  rintro rfl
  rw [key] at hk
  split at hk
  · cases hk
  · rw [MapKey.ofDouble] at hk
    split at hk <;> cases hk

namespace Heap

variable {h : Heap}

/-! ## Well-typed heaps -/

/-- An array is an element of another. -/
def ElementOf (h : Heap) (c a : Handle) : Prop := ∃ items, h.get? a = some (.array items) ∧ Value.ref .array c ∈ items.toList

/-- Every handle in an object leads to an object of the kind that it is taken for, and arrays are nested only so deep. -/
structure WellTyped (h : Heap) : Prop where
  objects : ∀ a o, h.get? a = some o → o.Resolves h
  nesting : WellFounded h.ElementOf

/-- The value is a NaN, or an array that holds one. -/
inductive HoldsNaN (h : Heap) : Value → Prop where
  | num {n : Num} : n.isNaN = true → HoldsNaN h (.num n)
  | item {a : Handle} {items : Array Value} {v : Value} : h.get? a = some (.array items) → v ∈ items.toList → HoldsNaN h v →
      HoldsNaN h (.ref .array a)

/-- The value refers to an object of its kind, and a walk through at most so many arrays sees all that is in it. -/
inductive Shallow (h : Heap) : Nat → Value → Prop where
  | plain {n : Nat} {v : Value} : v.Resolves h → (∀ a, v ≠ .ref .array a) → Shallow h n v
  | array {n : Nat} {a : Handle} {items : Array Value} : h.get? a = some (.array items) → (∀ v ∈ items.toList, Shallow h n v) →
      Shallow h (n + 1) (.ref .array a)

/-- A handle of an array resolves to one. -/
theorem Resolves.exists_array {a : Handle} (hr : h.Resolves (some .array) a) : ∃ items, h.get? a = some (.array items) := by
  obtain ⟨o, ho, hkind⟩ := hr
  cases o with
  | array items => exact ⟨items, ho⟩
  | _ => cases hkind

/-- A handle of a range resolves to one. -/
theorem Resolves.exists_range {a : Handle} (hr : h.Resolves (some .range) a) : ∃ r, h.get? a = some (.range r) := by
  obtain ⟨o, ho, hkind⟩ := hr
  cases o with
  | range r => exact ⟨r, ho⟩
  | _ => cases hkind

/-- A handle resolves to an object of one kind only. -/
theorem Resolves.kind_eq {kind kind' : RefKind} {a : Handle} (hr : h.Resolves (some kind) a) (hr' : h.Resolves (some kind') a) :
    kind = kind' := by
  obtain ⟨o, ho, hkind⟩ := hr
  obtain ⟨o', ho', hkind'⟩ := hr'
  rw [ho] at ho'
  cases ho'
  exact Option.some.inj (hkind.symm.trans hkind')

/-- No array is nested deeper than there are slots. -/
theorem WellTyped.shallow (hw : h.WellTyped) {v : Value} (hv : v.Resolves h) : h.Shallow h.depthBound v := by
  obtain ⟨depth, hsize, hdepth⟩ := exists_depth (L := fun a => (h.get? a).isSome) (Relation.TransGen h.ElementOf) (fun a ha => ha)
    (fun a ha => hw.nesting.transGen.irrefl.irrefl a ha) (fun a c d hdc hca => hdc.trans hca)
  have hbelow (n : Nat) (v : Value) (hv : v.Resolves h) (hn : ∀ a, v = .ref .array a → depth a < n) : h.Shallow n v := by
    induction n generalizing v with
    | zero => exact .plain hv fun a ha => Nat.not_lt_zero _ (hn a ha)
    | succ n ih =>
      by_cases harr : ∃ a, v = .ref .array a
      · obtain ⟨a, rfl⟩ := harr
        obtain ⟨items, hitems⟩ := Resolves.exists_array hv
        refine .array hitems fun w hw' => ih w (hw.objects a _ hitems w hw') fun c hc => ?_
        subst hc
        have hlive : (h.get? c).isSome := by
          obtain ⟨o, ho, -⟩ := hw.objects a _ hitems _ hw'
          rw [ho]
          rfl
        exact Nat.lt_of_lt_of_le (hdepth a c hlive (.single ⟨items, hitems, hw'⟩)) (Nat.le_of_lt_succ (hn a rfl))
      · exact .plain hv fun a ha => harr ⟨a, ha⟩
  refine hbelow _ v hv fun a ha => ?_
  subst ha
  obtain ⟨o, ho, -⟩ := hv
  exact Nat.lt_succ_of_lt (hsize a (by rw [ho]; rfl))

/-! ## Operands and keys -/

/-- What a value is as an operand and as a key; the key of an array is left open. -/
inductive Shows (h : Heap) : Value → Operand → MapKey → Prop where
  | null : Shows h .null .null .null
  | bool (b : Bool) : Shows h (.bool b) (.bool b) (.bool b)
  | num (n : Num) : Shows h (.num n) (.num n) n.key
  | text {a : Handle} (s : String) : Shows h (.ref .string a) (.text s) (.text s)
  | error {a : Handle} (message : String) : Shows h (.ref .error a) (.error message) (.error message)
  | array {a : Handle} {empty : Bool} (items : List MapKey) : h.Resolves (some .array) a →
      Shows h (.ref .array a) (.ref .array a empty) (.array items)
  | range {a : Handle} {empty : Bool} (r : Progression) : h.get? a = some (.range r) →
      Shows h (.ref .range a) (.ref .range a empty) (.range r.start r.stop r.step)
  | identity {kind : RefKind} {a : Handle} {empty : Bool} : h.Resolves (some kind) a → kind ≠ .array → kind ≠ .range →
      Shows h (.ref kind a) (.ref kind a empty) (.ref a)

/-- A value that is not an array, as an operand and as a key. -/
theorem exists_shows {v : Value} (hv : v.Resolves h) (harr : ∀ a, v ≠ .ref .array a) (n : Nat) :
    ∃ o k, h.operand v = .ok o ∧ h.mapKeyWithin n v = .ok k ∧ h.Shows v o k := by
  cases v with
  | null => exact ⟨_, _, rfl, by rw [mapKeyWithin]; rfl, .null⟩
  | bool b => exact ⟨_, _, rfl, by rw [mapKeyWithin]; rfl, .bool b⟩
  | num m =>
    refine ⟨_, m.key, rfl, ?_, .num m⟩
    cases m <;> rw [mapKeyWithin] <;> rfl
  | ref kind a =>
    obtain ⟨o, ho, hkind⟩ := id hv
    cases kind with
    | array => exact absurd rfl (harr a)
    | string =>
      cases o with
      | text s =>
        refine ⟨.text s, .text s, ?_, ?_, .text s⟩
        · simp only [operand, text, ho]
          rfl
        · simp only [mapKeyWithin, text, ho]
          rfl
      | _ => cases hkind
    | error =>
      cases o with
      | error e =>
        refine ⟨.error e.message, .error e.message, ?_, ?_, .error e.message⟩
        · simp only [operand, error, ho]
          rfl
        · simp only [mapKeyWithin, error, ho]
          rfl
      | _ => cases hkind
    | range =>
      cases o with
      | range r =>
        refine ⟨.ref .range a r.isEmpty, .range r.start r.stop r.step, ?_, ?_, .range r ho⟩
        · simp only [operand, range, ho]
          rfl
        · simp only [mapKeyWithin, range, ho]
          rfl
      | _ => cases hkind
    | map =>
      cases o with
      | map entries =>
        refine ⟨.ref .map a entries.isEmpty, .ref a, ?_, ?_, .identity hv RefKind.noConfusion RefKind.noConfusion⟩
        · simp only [operand, map, ho]
          rfl
        · simp only [mapKeyWithin]
          rfl
      | _ => cases hkind
    | function => exact ⟨_, _, rfl, by simp only [mapKeyWithin]; rfl, .identity hv RefKind.noConfusion RefKind.noConfusion⟩
    | native => exact ⟨_, _, rfl, by simp only [mapKeyWithin]; rfl, .identity hv RefKind.noConfusion RefKind.noConfusion⟩
    | iterator => exact ⟨_, _, rfl, by simp only [mapKeyWithin]; rfl, .identity hv RefKind.noConfusion RefKind.noConfusion⟩

/-- Two values are not compared as lists of elements or of bounds. -/
structure Unlike (v w : Value) : Prop where
  array : ∀ a b, v = .ref .array a → w ≠ .ref .array b
  range : ∀ a b, v = .ref .range a → w ≠ .ref .range b

section Shows

variable {v w : Value} {o p : Operand} {k l : MapKey}

/-- References by identity are of one kind where their handles are equal. -/
theorem not_equal_ref {kind kind' : RefKind} {a b : Handle} (ha : h.Resolves (some kind) a) (hb : h.Resolves (some kind') b)
    (hne : kind ≠ kind') {empty empty' : Bool} : ¬(Operand.ref kind a empty).equal (.ref kind' b empty') = true := by
  intro he
  have hab : a = b := eq_of_beq he
  subst hab
  exact hne (ha.kind_eq hb)

/-- A handle of a range resolves to an object of the kind of ranges. -/
theorem resolves_range {a : Handle} {r : Progression} (ha : h.get? a = some (.range r)) : h.Resolves (some .range) a := ⟨_, ha, rfl⟩

/-- Values that are equal as operands have one key. -/
theorem Shows.key_eq (hv : h.Shows v o k) (hw : h.Shows w p l) (hu : Unlike v w) (he : o.equal p = true) : k = l := by
  cases hv with
  | null =>
    cases hw with
    | null => rfl
    | _ => cases he
  | bool b =>
    cases hw with
    | bool c => rw [eq_of_beq he]
    | _ => cases he
  | num m =>
    cases hw with
    | num n => exact Num.key_eq_of_numEq he
    | _ => cases he
  | text s =>
    cases hw with
    | text t => rw [eq_of_beq he]
    | _ => cases he
  | error s =>
    cases hw with
    | error t => rw [eq_of_beq he]
    | _ => cases he
  | array _ ha =>
    cases hw with
    | array _ hb => exact absurd rfl (hu.array _ _ rfl)
    | range _ hb => exact absurd he (not_equal_ref ha (resolves_range hb) RefKind.noConfusion)
    | identity hb hne _ => exact absurd he (not_equal_ref ha hb hne.symm)
    | _ => cases he
  | range _ ha =>
    cases hw with
    | array _ hb => exact absurd he (not_equal_ref (resolves_range ha) hb RefKind.noConfusion)
    | range _ hb => exact absurd rfl (hu.range _ _ rfl)
    | identity hb _ hne => exact absurd he (not_equal_ref (resolves_range ha) hb hne.symm)
    | _ => cases he
  | identity ha harr hrange =>
    cases hw with
    | array _ hb => exact absurd he (not_equal_ref ha hb harr)
    | range _ hb => exact absurd he (not_equal_ref ha (resolves_range hb) hrange)
    | identity hb _ _ => rw [show _ = _ from eq_of_beq he]
    | _ => cases he

/-- Values with one key are equal as operands, unless they are NaN. -/
theorem Shows.equal (hv : h.Shows v o k) (hw : h.Shows w p l) (hu : Unlike v w) (hnv : ¬h.HoldsNaN v) (hnw : ¬h.HoldsNaN w)
    (hk : k = l) : o.equal p = true := by
  cases hv with
  | null =>
    cases hw with
    | null => rfl
    | num n => exact absurd hk.symm (Num.key_ne rfl)
    | _ => cases hk
  | bool b =>
    cases hw with
    | bool c =>
      cases hk
      exact beq_self_eq_true b
    | num n => exact absurd hk.symm (Num.key_ne rfl)
    | _ => cases hk
  | num m =>
    cases hw with
    | num n => exact Num.numEq_of_key_eq (Bool.eq_false_iff.2 fun hm => hnv (.num hm)) (Bool.eq_false_iff.2 fun hn => hnw (.num hn)) hk
    | _ => exact absurd hk (Num.key_ne rfl)
  | text s =>
    cases hw with
    | text t =>
      cases hk
      exact beq_self_eq_true s
    | num n => exact absurd hk.symm (Num.key_ne rfl)
    | _ => cases hk
  | error s =>
    cases hw with
    | error t =>
      cases hk
      exact beq_self_eq_true s
    | num n => exact absurd hk.symm (Num.key_ne rfl)
    | _ => cases hk
  | array _ ha =>
    cases hw with
    | array _ hb => exact absurd rfl (hu.array _ _ rfl)
    | num n => exact absurd hk.symm (Num.key_ne rfl)
    | _ => cases hk
  | range _ ha =>
    cases hw with
    | range _ hb => exact absurd rfl (hu.range _ _ rfl)
    | num n => exact absurd hk.symm (Num.key_ne rfl)
    | _ => cases hk
  | identity ha _ _ =>
    cases hw with
    | identity hb _ _ =>
      cases hk
      exact beq_self_eq_true _
    | num n => exact absurd hk.symm (Num.key_ne rfl)
    | _ => cases hk

end Shows

/-! ## Both walks -/

/-- Equality and keys within one bound: both are found; equal values have one key, and values with one key are equal unless a NaN is
in them. -/
def Agree (h : Heap) (n : Nat) (v w : Value) : Prop :=
  ∃ e k l, h.equalWithin n v w = .ok e ∧ h.mapKeyWithin n v = .ok k ∧ h.mapKeyWithin n w = .ok l ∧
    (e = true → k = l) ∧ (¬h.HoldsNaN v → ¬h.HoldsNaN w → k = l → e = true)

/-- Two values that are not both arrays or both ranges are compared as operands. -/
theorem equalWithin_of_unlike {n : Nat} {v w : Value} (hu : Unlike v w) :
    h.equalWithin n v w = do return (← h.operand v).equal (← h.operand w) := by
  unfold equalWithin
  split
  · exact absurd rfl (hu.array _ _ rfl)
  · exact absurd rfl (hu.range _ _ rfl)
  · rfl

/-- Lists of one length agree if their elements do. -/
theorem agree_lists {n : Nat} {xs ys : List Value} (hlength : xs.length = ys.length) (h' : ∀ x ∈ xs, ∀ y ∈ ys, h.Agree n x y) :
    ∃ e ks ls, allEqual (h.equalWithin n) xs ys = .ok e ∧ xs.mapM (h.mapKeyWithin n) = .ok ks ∧
      ys.mapM (h.mapKeyWithin n) = .ok ls ∧ (e = true → ks = ls) ∧
      ((∀ x ∈ xs, ¬h.HoldsNaN x) → (∀ y ∈ ys, ¬h.HoldsNaN y) → ks = ls → e = true) := by
  induction xs generalizing ys with
  | nil =>
    cases List.length_eq_zero_iff.1 hlength.symm
    exact ⟨true, [], [], rfl, rfl, rfl, fun _ => rfl, fun _ _ _ => rfl⟩
  | cons x xs ih =>
    cases ys with
    | nil => cases hlength
    | cons y ys =>
      obtain ⟨e, k, l, he, hk, hl, hkey, heq⟩ := h' x List.mem_cons_self y List.mem_cons_self
      obtain ⟨e', ks, ls, he', hks, hls, hkeys, heqs⟩ := ih (Nat.succ.inj hlength) fun x hx y hy =>
        h' x (List.mem_cons_of_mem _ hx) y (List.mem_cons_of_mem _ hy)
      refine ⟨e && e', k :: ks, l :: ls, ?_, ?_, ?_, ?_, ?_⟩
      · rw [allEqual, he]
        cases e with
        | true => exact he'
        | false => rfl
      · rw [List.mapM_cons, hk, hks]
        rfl
      · rw [List.mapM_cons, hl, hls]
        rfl
      · intro hand
        obtain ⟨h₁, h₂⟩ := Bool.and_eq_true_iff.1 hand
        rw [hkey h₁, hkeys h₂]
      · intro hxs hys hcons
        obtain ⟨h₁, h₂⟩ := List.cons.inj hcons
        rw [List.forall_mem_cons] at hxs hys
        exact Bool.and_eq_true_iff.2 ⟨heq hxs.1 hys.1 h₁, heqs hxs.2 hys.2 h₂⟩

/-- A walk along a list succeeds when every step does, with a result for each. -/
theorem exists_mapM {α β ε : Type} {f : α → Except ε β} {l : List α} (hf : ∀ a ∈ l, ∃ b, f a = .ok b) :
    ∃ bs, l.mapM f = .ok bs ∧ bs.length = l.length := by
  induction l with
  | nil => exact ⟨[], rfl, rfl⟩
  | cons a l ih =>
    obtain ⟨b, hb⟩ := hf a List.mem_cons_self
    obtain ⟨bs, hbs, hlength⟩ := ih fun a ha => hf a (List.mem_cons_of_mem _ ha)
    refine ⟨b :: bs, ?_, by rw [List.length_cons, List.length_cons, hlength]⟩
    rw [List.mapM_cons, hb, hbs]
    rfl

/-- An array within the bound, with the keys of its elements. -/
theorem exists_arrayKey {n : Nat} {a : Handle} {items : Array Value} (ha : h.get? a = some (.array items))
    (hkeys : ∀ v ∈ items.toList, ∃ k, h.mapKeyWithin n v = .ok k) :
    ∃ ks, h.mapKeyWithin (n + 1) (.ref .array a) = .ok (.array ks) ∧ items.toList.mapM (h.mapKeyWithin n) = .ok ks ∧
      ks.length = items.size := by
  obtain ⟨ks, hks, hlength⟩ := exists_mapM hkeys
  refine ⟨ks, ?_, hks, hlength⟩
  simp only [mapKeyWithin, array, ha]
  change (do return MapKey.array (← items.toList.mapM (h.mapKeyWithin n))) = _
  rw [hks]
  rfl

/-- A value within the bound has an operand and a key. -/
theorem Shallow.shows {n : Nat} {v : Value} (hv : h.Shallow n v) :
    ∃ o k, h.operand v = .ok o ∧ h.mapKeyWithin n v = .ok k ∧ h.Shows v o k := by
  induction hv with
  | plain hv harr => exact exists_shows hv harr _
  | @array n a items ha _ ih =>
    obtain ⟨ks, hks, -⟩ := exists_arrayKey ha fun v hv => by
      obtain ⟨o, k, -, hk, -⟩ := ih v hv
      exact ⟨k, hk⟩
    refine ⟨.ref .array a items.isEmpty, .array ks, ?_, hks, .array ks ⟨_, ha, rfl⟩⟩
    simp only [operand, Heap.array, ha]
    rfl

/-- A value within the bound has a key. -/
theorem Shallow.exists_key {n : Nat} {v : Value} (hv : h.Shallow n v) : ∃ k, h.mapKeyWithin n v = .ok k := by
  obtain ⟨o, k, -, hk, -⟩ := hv.shows
  exact ⟨k, hk⟩

/-- Equality and keys agree on two values that are not both arrays or both ranges. -/
theorem Shallow.agree_of_unlike {n : Nat} {v w : Value} (hv : h.Shallow n v) (hw : h.Shallow n w) (hu : Unlike v w) :
    h.Agree n v w := by
  obtain ⟨o, k, hov, hkv, hsv⟩ := hv.shows
  obtain ⟨p, l, how, hkw, hsw⟩ := hw.shows
  refine ⟨o.equal p, k, l, ?_, hkv, hkw, hsv.key_eq hsw hu, hsv.equal hsw hu⟩
  rw [equalWithin_of_unlike hu, hov, how]
  rfl

/-- Equality and keys agree on two ranges: both go by their bounds and steps. -/
theorem agree_ranges {n : Nat} {a b : Handle} (ha : h.Resolves (some .range) a) (hb : h.Resolves (some .range) b) :
    h.Agree n (.ref .range a) (.ref .range b) := by
  obtain ⟨r, hr⟩ := ha.exists_range
  obtain ⟨q, hq⟩ := hb.exists_range
  refine ⟨r == q, .range r.start r.stop r.step, .range q.start q.stop q.step, ?_, ?_, ?_, fun he => ?_, fun _ _ hk => ?_⟩
  · simp only [equalWithin, range, hr, hq]
    rfl
  · simp only [mapKeyWithin, range, hr]
    rfl
  · simp only [mapKeyWithin, range, hq]
    rfl
  · rw [eq_of_beq he]
  · obtain ⟨hstart, hstop, hstep⟩ := MapKey.range.inj hk
    cases r
    cases q
    simp_all

/-- Two different arrays, whose elements agree. -/
theorem agree_arrays {n : Nat} {a b : Handle} {xs ys : Array Value} (hne : a ≠ b) (ha : h.get? a = some (.array xs))
    (hb : h.get? b = some (.array ys)) (hkx : ∀ x ∈ xs.toList, ∃ k, h.mapKeyWithin n x = .ok k)
    (hky : ∀ y ∈ ys.toList, ∃ k, h.mapKeyWithin n y = .ok k)
    (hitems : ∀ x ∈ xs.toList, ∀ y ∈ ys.toList, h.Agree n x y) : h.Agree (n + 1) (.ref .array a) (.ref .array b) := by
  obtain ⟨ks, hkeya, hks, hlengtha⟩ := exists_arrayKey ha hkx
  obtain ⟨ls, hkeyb, hls, hlengthb⟩ := exists_arrayKey hb hky
  by_cases hsize : xs.size = ys.size
  · obtain ⟨e, ks', ls', he, hks', hls', hkey, heq⟩ := agree_lists (by simpa using hsize) hitems
    rw [hks] at hks'
    rw [hls] at hls'
    cases hks'
    cases hls'
    refine ⟨e, .array ks, .array ls, ?_, hkeya, hkeyb, fun h₁ => by rw [hkey h₁], fun hnv hnw hk => ?_⟩
    · simp only [equalWithin, if_neg hne, array, ha, hb]
      exact (if_neg (not_not.2 hsize)).trans he
    · exact heq (fun x hx hn => hnv (.item ha hx hn)) (fun y hy hn => hnw (.item hb hy hn)) (MapKey.array.inj hk)
  · refine ⟨false, .array ks, .array ls, ?_, hkeya, hkeyb, Bool.noConfusion, fun _ _ hk => absurd ?_ hsize⟩
    · simp only [equalWithin, if_neg hne, array, ha, hb]
      exact if_pos hsize
    · rw [← hlengtha, ← hlengthb, MapKey.array.inj hk]

/-- Within the bound of both values, equality agrees with their keys. -/
theorem Shallow.agree {n : Nat} {v w : Value} (hv : h.Shallow n v) (hw : h.Shallow n w) : h.Agree n v w := by
  induction hv generalizing w with
  | @plain n v hr harr =>
    by_cases hranges : ∃ a b, v = .ref .range a ∧ w = .ref .range b
    · obtain ⟨a, b, rfl, rfl⟩ := hranges
      cases hw with
      | plain hr' _ => exact agree_ranges hr hr'
    · exact (Shallow.plain hr harr).agree_of_unlike hw ⟨fun a _ ha => absurd ha (harr a), fun a b ha hb => hranges ⟨a, b, ha, hb⟩⟩
  | @array n a xs ha hxs ih =>
    cases hw with
    | plain hr' harr' =>
      refine (Shallow.array ha hxs).agree_of_unlike (.plain hr' harr') ⟨fun _ b _ => harr' b, fun c _ hc => ?_⟩
      cases hc
    | @array _ b ys hb hys =>
      by_cases hab : a = b
      · -- An array is equal to itself without a look at its elements.
        subst hab
        obtain ⟨k, hk⟩ := (Shallow.array ha hxs).exists_key
        refine ⟨true, k, k, ?_, hk, hk, fun _ => rfl, fun _ _ _ => rfl⟩
        simp only [equalWithin, if_true]
        rfl
      · exact agree_arrays hab ha hb (fun x hx => (hxs x hx).exists_key) (fun y hy => (hys y hy).exists_key)
          fun x hx y hy => ih x hx (hys y hy)

/-- On a well-typed heap, equality and keys are found for all values; equal values have one key; and values with one key are equal
unless a NaN is in them. So equality is an equivalence of the values without a NaN. -/
theorem key_eq_iff_equal (hw : h.WellTyped) :
    (∀ v w : Value, v.Resolves h → w.Resolves h → ∃ e k l, h.equal v w = .ok e ∧ h.mapKey v = .ok k ∧ h.mapKey w = .ok l ∧
      (e = true → k = l) ∧ (¬h.HoldsNaN v → ¬h.HoldsNaN w → k = l → e = true)) ∧
    Equivalence fun v w : { v : Value // v.Resolves h ∧ ¬h.HoldsNaN v } => h.equal v w = .ok true := by
  have hagree (v w : Value) (hv : v.Resolves h) (hw' : w.Resolves h) : h.Agree h.depthBound v w :=
    (hw.shallow hv).agree (hw.shallow hw')
  -- Without a NaN, equality is having one key.
  have hiff (v w : { v : Value // v.Resolves h ∧ ¬h.HoldsNaN v }) : h.equal v w = .ok true ↔ h.mapKey v = h.mapKey w := by
    obtain ⟨e, k, l, he, hk, hl, hkey, heq⟩ := hagree v w v.2.1 w.2.1
    rw [equal, mapKey, mapKey, he, hk, hl, Except.ok.injEq, Except.ok.injEq]
    exact ⟨hkey, heq v.2.2 w.2.2⟩
  refine ⟨hagree, fun v => (hiff v v).2 rfl, fun {v w} hvw => (hiff w v).2 ((hiff v w).1 hvw).symm, fun {u v w} huv hvw => ?_⟩
  exact (hiff u w).2 (((hiff u v).1 huv).trans ((hiff v w).1 hvw))

/-- Two arrays of arrays: one holds a minus zero of 32 bits, the other an integer zero. -/
def zeroSample : Heap where
  slots := #[⟨0, false, some (.array #[.num (.float (.zero true))])⟩, ⟨0, false, some (.array #[.ref .array ⟨0, 0⟩])⟩,
    ⟨0, false, some (.array #[.num (.int64 0)])⟩, ⟨0, false, some (.array #[.ref .array ⟨2, 0⟩])⟩]
  live := 4
  threshold := 0
  limit := none

/-- Each array has one element: a number, or an array of a lower slot. -/
theorem get?_zeroSample {a : Handle} {o : Object} (ho : zeroSample.get? a = some o) : (∃ n, o = .array #[.num n]) ∨
    ∃ c, c.index.toNat < a.index.toNat ∧ zeroSample.Resolves (some .array) c ∧ o = .array #[.ref .array c] := by
  obtain ⟨s, hs, -, hobject⟩ := get?_eq_some.1 ho
  obtain ⟨hlt, hs⟩ := Array.getElem?_eq_some_iff.1 hs
  generalize a.index.toNat = i at *
  obtain rfl | rfl | rfl | rfl : i = 0 ∨ i = 1 ∨ i = 2 ∨ i = 3 := by
    change i < 4 at hlt
    omega
  all_goals
    subst hs
    cases hobject
  · exact .inl ⟨_, rfl⟩
  · exact .inr ⟨⟨0, 0⟩, by decide, ⟨_, rfl, rfl⟩, rfl⟩
  · exact .inl ⟨_, rfl⟩
  · exact .inr ⟨⟨2, 0⟩, by decide, ⟨_, rfl, rfl⟩, rfl⟩

theorem wellTyped_zeroSample : zeroSample.WellTyped := by
  refine ⟨fun a o ho => ?_, Subrelation.wf (fun {c a} hca => ?_) (measure fun c : Handle => c.index.toNat).wf⟩
  · rcases get?_zeroSample ho with ⟨n, rfl⟩ | ⟨c, -, hc, rfl⟩
    · intro v hv
      cases List.mem_singleton.1 hv
      trivial
    · intro v hv
      cases List.mem_singleton.1 hv
      exact hc
  · obtain ⟨items, hitems, hmem⟩ := hca
    rcases get?_zeroSample hitems with ⟨n, ho⟩ | ⟨d, hlt, -, ho⟩
    · cases ho
      cases List.mem_singleton.1 hmem
    · cases ho
      cases List.mem_singleton.1 hmem
      exact hlt

/-- The arrays are equal, and so they are one key. -/
theorem key_eq_iff_equal_zeroSample : zeroSample.WellTyped ∧
    zeroSample.equal (.ref .array ⟨1, 0⟩) (.ref .array ⟨3, 0⟩) = .ok true ∧
    zeroSample.mapKey (.ref .array ⟨1, 0⟩) = zeroSample.mapKey (.ref .array ⟨3, 0⟩) := by
  have hequal : zeroSample.equal (.ref .array ⟨1, 0⟩) (.ref .array ⟨3, 0⟩) = .ok true := by decide +kernel
  obtain ⟨e, k, l, he, hk, hl, hkey, -⟩ := (key_eq_iff_equal wellTyped_zeroSample).1 (.ref .array ⟨1, 0⟩) (.ref .array ⟨3, 0⟩)
    ⟨_, rfl, rfl⟩ ⟨_, rfl, rfl⟩
  rw [hequal] at he
  cases he
  exact ⟨wellTyped_zeroSample, hequal, by rw [hk, hl, hkey rfl]⟩

end Heap

end ScriptVM
