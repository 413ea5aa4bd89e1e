import ScriptVM.Proofs.Walks

/-!
# The size of a range

A range has at most `2 ^ 64 - 1` elements, and a walk yields them all. Its member `length`, the builtin `len` and the check of an
index take the number of elements for an integer of 64 bits, which is right below `2 ^ 63` and wraps around from there on. So the
views of a range agree exactly if it has fewer than `2 ^ 63` elements (`Heap.views_agree_iff`). A longer one is truthy, has a negative
length, and no index from the front selects any of its elements.
-/

namespace ScriptVM

/-- A count of `2 ^ 63` or more becomes a negative integer of 64 bits. -/
theorem toInt_wrapped {n : Nat} (hlow : 2 ^ 63 ≤ n) (hhigh : n < 2 ^ 64) : (Int64.ofNat n).toInt = n - 2 ^ 64 := by
  have hsize : Int64.size = 2 ^ 64 := rfl
  rw [Int64.toInt_ofNat', hsize, Int.bmod_def]
  omega

/-- A count that does not fit 64 signed bits is shown as the negative number it wraps to. -/
theorem Value.ofCount_wrapped {n : Nat} (hlow : 2 ^ 63 ≤ n) (hhigh : n < 2 ^ 64) : ofCount n = .num (.ofInt (n - 2 ^ 64)) := by
  rw [ofCount, ofInt64, toInt_wrapped hlow hhigh]

/-- With a length that does not fit, an index from the front is outside, whatever it is. -/
theorem indexPosition_wrapped {n : Num} {i : Int} {length : Nat} (hlow : 2 ^ 63 ≤ length) (hhigh : length < 2 ^ 64)
    (hn : n.toInt? = some i) (hi : 0 ≤ i) :
    ∃ j : Int64, j.toInt = i ∧ indexPosition (.num n) length = .error (.outOfBounds j length) := by
  obtain ⟨j, hj, rfl⟩ := Num.toInt64?_of_toInt? hn
  have hfront : ¬j < 0 := by
    rw [Int64.lt_iff_toInt_lt]
    exact Int.not_lt.2 hi
  refine ⟨j, rfl, ?_⟩
  simp only [indexPosition, hj, if_neg hfront]
  refine if_pos (.inr ?_)
  rw [Int64.le_iff_toInt_le, toInt_wrapped hlow hhigh]
  omega

/-- An integer of 64 bits is read back from its number. -/
theorem Num.toInt?_ofInt {i : Int} (hi : fits64 i = true) : (ofInt i).toInt? = some i := by
  rw [ofInt]
  split
  · rename_i hsmall
    rw [toInt?, toInt_ofInt_of_fits32 hsmall]
  · rw [toInt?, toInt_ofInt_of_fits64 hi]

/-- A number that is an integer is below `2 ^ 63`. -/
theorem Num.toInt?_lt {n : Num} {i : Int} (hn : n.toInt? = some i) : i < 2 ^ 63 := by
  obtain ⟨j, -, rfl⟩ := toInt64?_of_toInt? hn
  exact j.toInt_lt

namespace Heap

variable {h : Heap} {a : Handle} {r : Progression}

/-! ## The views -/

/-- The member `length` of a range is the count of its elements. -/
theorem member_length (ho : h.get? a = some (.range r)) :
    HeapM.member (.ref .range a) "length" h = .ok (.ofCount r.length) h :=
  HeapM.member_of_member? (HeapM.read_bind (range_of_get? ho))

/-- The builtin `len` answers the count of elements for a range. -/
theorem len_range (ho : h.get? a = some (.range r)) : Builtin.len.call [.ref .range a] h = .ok (.ofCount r.length) h :=
  HeapM.read_bind (range_of_get? ho)

/-- A range is truthy just if it has an element. -/
theorem truthy_range (ho : h.get? a = some (.range r)) : h.truthy (.ref .range a) = .ok (decide (0 < r.length)) := by
  simp only [truthy, operand, range_of_get? ho]
  change Except.ok (!r.isEmpty) = _
  rw [Progression.isEmpty]
  cases r.length <;> rfl

/-- An index at a position selects the element there. -/
theorem index_inside (ho : h.get? a = some (.range r)) {n : Num} {i : Nat} {x : Int64}
    (hposition : indexPosition (.num n) r.length = .ok i) (hx : r.get? i = some x) :
    HeapM.index (.ref .range a) (.num n) h = .ok (.ofInt64 x) h := by
  rw [HeapM.index_range ho rfl, HeapM.elementAt_ok hposition]
  simp only [hx]
  rfl

/-- An index without a position makes an error value that names it and the length. -/
theorem index_outside (hs : h.Sparse) (ho : h.get? a = some (.range r)) {n : Num} {i : Int}
    (hposition : ∃ j : Int64, j.toInt = i ∧ indexPosition (.num n) r.length = .error (.outOfBounds j r.length)) :
    (HeapM.index (.ref .range a) (.num n)).Makes h .error (.error ⟨s!"index {i} out of bounds for length {r.length}", none⟩) := by
  obtain ⟨j, rfl, hj⟩ := hposition
  refine (HeapM.makes_errorValue hs _).congr ?_
  rw [HeapM.index_range ho rfl, HeapM.elementAt_error hj]
  rfl

/-! ## Where they agree -/

/-- All views of a range agree with the values that a walk over it yields: the two lengths are their number, the range is truthy if
there is one, and an index that counts from the front selects its value or, behind the last, makes a new error value. -/
structure ViewsAgree (h : Heap) (a : Handle) (vs : List Value) : Prop where
  length : ∃ n : Num, n.toInt? = some (vs.length : Int) ∧ HeapM.member (.ref .range a) "length" h = .ok (.num n) h ∧
    Builtin.len.call [.ref .range a] h = .ok (.num n) h
  truthy : h.truthy (.ref .range a) = .ok (decide (0 < vs.length))
  inside : ∀ (n : Num) (i : Int), n.toInt? = some i → 0 ≤ i → i < vs.length →
    ∃ v, vs[i.toNat]? = some v ∧ HeapM.index (.ref .range a) (.num n) h = .ok v h
  outside : ∀ (n : Num) (i : Int), n.toInt? = some i → vs.length ≤ i →
    (HeapM.index (.ref .range a) (.num n)).Makes h .error (.error ⟨s!"index {i} out of bounds for length {vs.length}", none⟩)

/-- What the views of a range say when its length does not fit in 64 bits: the length is negative, and every index that counts from
the front is outside. -/
structure ViewsWrap (h : Heap) (a : Handle) (vs : List Value) : Prop where
  member : HeapM.member (.ref .range a) "length" h = .ok (.num (.ofInt (vs.length - 2 ^ 64))) h
  len : Builtin.len.call [.ref .range a] h = .ok (.num (.ofInt (vs.length - 2 ^ 64))) h
  outside : ∀ (n : Num) (i : Int), n.toInt? = some i → 0 ≤ i →
    (HeapM.index (.ref .range a) (.num n)).Makes h .error (.error ⟨s!"index {i} out of bounds for length {vs.length}", none⟩)

/-- The views of a range agree below `2 ^ 63` elements. -/
theorem viewsAgree_of_lt (hs : h.Sparse) (ho : h.get? a = some (.range r)) (hlength : r.length < 2 ^ 63) :
    h.ViewsAgree a (r.toList.map .ofInt64) := by
  have hcount : (r.toList.map Value.ofInt64).length = r.length := by rw [List.length_map, Progression.length_toList]
  have hfits : fits64 (r.length : Int) = true := by
    rw [fits64, decide_eq_true_eq]
    omega
  constructor
  · refine ⟨.ofInt r.length, ?_, ?_, ?_⟩
    · rw [hcount, Num.toInt?_ofInt hfits]
    · rw [member_length ho, Value.ofCount_eq hlength]
    · rw [len_range ho, Value.ofCount_eq hlength]
  · rw [hcount, truthy_range ho]
  · intro n i hn hpos hi
    rw [hcount] at hi
    have hget : r.get? i.toNat = some (r.element i.toNat) := Progression.get?_of_lt (by omega)
    refine ⟨.ofInt64 (r.element i.toNat), ?_, index_inside ho (indexPosition_front hlength hn hpos hi) hget⟩
    rw [List.getElem?_map, Progression.getElem?_toList, hget]
    rfl
  · intro n i hn hi
    rw [hcount] at hi ⊢
    exact index_outside hs ho (indexPosition_outside hlength hn (.inr hi))

/-- The views of a range wrap from `2 ^ 63` elements on. -/
theorem viewsWrap_of_le (hs : h.Sparse) (ho : h.get? a = some (.range r)) (hlength : 2 ^ 63 ≤ r.length) :
    h.ViewsWrap a (r.toList.map .ofInt64) := by
  have hcount : (r.toList.map Value.ofInt64).length = r.length := by rw [List.length_map, Progression.length_toList]
  constructor
  · rw [hcount, member_length ho, Value.ofCount_wrapped hlength r.length_lt]
  · rw [hcount, len_range ho, Value.ofCount_wrapped hlength r.length_lt]
  · intro n i hn hi
    rw [hcount]
    exact index_outside hs ho (indexPosition_wrapped hlength r.length_lt hn hi)

/-- A walk over a range yields its elements, and the range is truthy if there is one. The other views agree with that exactly if there
are fewer than `2 ^ 63` elements; otherwise they wrap around. -/
theorem views_agree_iff (hs : h.Sparse) (ho : h.get? a = some (.range r)) :
    ∃ vs : List Value, vs.length = r.length ∧
      (∀ arity < 2, ∃ t u, Traversal.start? (.ref .range a) = some t ∧ Traversal.Drains h arity t (vs.map .one) u) ∧
      h.truthy (.ref .range a) = .ok (decide (0 < vs.length)) ∧
      (h.ViewsAgree a vs ↔ vs.length < 2 ^ 63) ∧ (2 ^ 63 ≤ vs.length → h.ViewsWrap a vs) := by
  have hcount : (r.toList.map Value.ofInt64).length = r.length := by rw [List.length_map, Progression.length_toList]
  refine ⟨r.toList.map .ofInt64, hcount, fun arity harity => ?_, ?_, ⟨fun hagree => ?_, fun hlt => ?_⟩, fun hle => ?_⟩
  · rw [List.map_map]
    exact Traversal.drains_range ho harity
  · rw [hcount, truthy_range ho]
  · obtain ⟨n, hn, -⟩ := hagree.length
    have := Num.toInt?_lt hn
    omega
  · rw [hcount] at hlt
    exact viewsAgree_of_lt hs ho hlt
  · rw [hcount] at hle
    exact viewsWrap_of_le hs ho hle

/-- From the least integer of 64 bits to the greatest, which is left out. -/
def widest : Progression := ⟨.minValue, .maxValue, 1, by decide⟩

/-- A heap that holds the widest range. -/
def widestSample : Heap := { slots := #[⟨0, false, some (.range widest)⟩], live := 1, threshold := 0, limit := none }

theorem sparse_widestSample : widestSample.Sparse := .of_free_nil rfl (by decide) (by decide)

/-- The views of the widest range wrap around. -/
theorem views_agree_iff_widestSample : widestSample.Sparse ∧ widestSample.get? ⟨0, 0⟩ = some (.range widest) ∧
    ∃ vs : List Value, vs.length = 2 ^ 64 - 1 ∧ widestSample.truthy (.ref .range ⟨0, 0⟩) = .ok true ∧
      widestSample.ViewsWrap ⟨0, 0⟩ vs := by
  obtain ⟨vs, hcount, -, htruthy, -, hwrap⟩ := views_agree_iff (a := ⟨0, 0⟩) (r := widest) sparse_widestSample rfl
  have hlength : vs.length = 2 ^ 64 - 1 := hcount.trans (by decide)
  rw [hlength] at htruthy
  exact ⟨sparse_widestSample, rfl, vs, hlength, htruthy, hwrap (by omega)⟩

/-- The walk over the widest range yields the least integer first, but no index selects it: all that there are from the front are said
to be out of bounds. -/
theorem views_disagree_widestSample :
    ∃ vs : List Value, (∃ t u, Traversal.start? (.ref .range ⟨0, 0⟩) = some t ∧
        Traversal.Drains widestSample 1 t (vs.map .one) u) ∧
      vs[0]? = some (.num (.int64 .minValue)) ∧ ¬widestSample.ViewsAgree ⟨0, 0⟩ vs ∧
      HeapM.member (.ref .range ⟨0, 0⟩) "length" widestSample = .ok (.int (-1)) widestSample ∧
      (HeapM.index (.ref .range ⟨0, 0⟩) (.int 0)).Makes widestSample .error
        (.error ⟨"index 0 out of bounds for length 18446744073709551615", none⟩) := by
  have hcount : (widest.toList.map Value.ofInt64).length = 2 ^ 64 - 1 := by
    rw [List.length_map, Progression.length_toList]
    decide
  have hwrap := viewsWrap_of_le sparse_widestSample (a := ⟨0, 0⟩) (r := widest) rfl (by decide)
  refine ⟨widest.toList.map .ofInt64, ?_, ?_, fun hagree => ?_, ?_, ?_⟩
  · rw [List.map_map]
    exact Traversal.drains_range rfl (by decide)
  · rw [List.getElem?_map, Progression.getElem?_toList]
    decide
  · obtain ⟨n, hn, -⟩ := hagree.length
    have := Num.toInt?_lt hn
    omega
  · have hmember := hwrap.member
    rw [hcount] at hmember
    exact hmember
  · have hindex := hwrap.outside (.int 0) 0 rfl (Int.le_refl 0)
    have hmessage : s!"index {(0 : Int)} out of bounds for length {2 ^ 64 - 1}" =
        "index 0 out of bounds for length 18446744073709551615" := by decide +kernel
    rw [hcount, hmessage] at hindex
    exact hindex

end Heap

end ScriptVM
