import Mathlib.Data.Set.Card
import ScriptVM.Num
import ScriptVM.Progression

/-!
# Ranges are arithmetic progressions

A range computes its length with a division rounded up, and its elements in 64 bits that wrap around. Both are exact for all bounds
and all steps but zero (`Progression.denotes_exactly`): the indices below the length are those whose term `start + step * k` lies
before the end, each such term is an integer of 64 bits, and the element at an index is the term.

The product of step and index may lie beyond 64 bits, and the index itself may; only the term is known to fit. So the element is
compared with the term modulo `2 ^ 64` first.
-/

namespace ScriptVM.Progression

/-! ## Terms -/

/-- The first integer comes before the second in the direction of a step. -/
def Before (step v w : Int) : Prop := if 0 < step then v < w else w < v

variable (r : Progression) {i j k : Nat}

/-- The integer so many steps behind the start. -/
def term (k : Nat) : Int := r.start.toInt + r.step.toInt * k

/-- The step of a range is not zero. -/
theorem step_toInt_ne_zero : r.step.toInt ≠ 0 := by
  intro h
  exact r.step_ne_zero (Int64.toInt_inj.1 h)

variable {r}

/-- Terms go in the direction of the step. -/
theorem before_term (h : i < j) : Before r.step.toInt (r.term i) (r.term j) := by
  have hlt : (i : Int) < j := by exact_mod_cast h
  unfold Before term
  split
  · rename_i hpos
    exact Int.add_lt_add_left (Int.mul_lt_mul_of_pos_left hlt hpos) _
  · rename_i hneg
    have hstep : r.step.toInt < 0 := lt_of_le_of_ne (Int.not_lt.1 hneg) r.step_toInt_ne_zero
    exact Int.add_lt_add_left (Int.mul_lt_mul_of_neg_left hlt hstep) _

/-! ## The length -/

/-- The length is the least number of steps that cover the distance. -/
theorem lt_length_iff : k < r.length ↔ (k * r.step.toInt.natAbs : Int) < r.distance := by
  have hpos : 0 < r.step.toInt.natAbs := Int.natAbs_pos.2 r.step_toInt_ne_zero
  have hcast : (k * r.step.toInt.natAbs : Int) = (k * r.step.toInt.natAbs : Nat) := by push_cast; rfl
  rw [length, Nat.lt_iff_add_one_le, Nat.le_div_iff_mul_le hpos, Nat.add_one_mul, hcast]
  omega

/-- The indices below the length are those whose term lies before the end. -/
theorem lt_length_iff_before : k < r.length ↔ Before r.step.toInt (r.term k) r.stop.toInt := by
  rw [lt_length_iff]
  unfold distance Before term
  split
  · rename_i hpos
    rw [Int.natAbs_of_nonneg hpos.le, Int.mul_comm]
    omega
  · rename_i hneg
    rw [Int.ofNat_natAbs_of_nonpos (Int.not_lt.1 hneg), Int.mul_neg, Int.mul_comm]
    omega

/-- The length is the number of terms before the end. -/
theorem encard_terms : {k : Nat | Before r.step.toInt (r.term k) r.stop.toInt}.encard = r.length := by
  have hterms : {k : Nat | Before r.step.toInt (r.term k) r.stop.toInt} = Finset.range r.length := by
    ext k
    rw [Set.mem_ofPred_eq, ← lt_length_iff_before, Finset.coe_range, Set.mem_Iio]
  rw [hterms, Set.encard_coe_eq_coe_finsetCard, Finset.card_range]

/-- Between the least and the greatest integer of 64 bits there are fewer than `2 ^ 64` steps. -/
theorem length_lt : r.length < 2 ^ 64 := by
  by_contra hge
  have hlong : (2 ^ 64 - 1 : Nat) < r.length := by omega
  rw [lt_length_iff] at hlong
  have hstep : 1 ≤ r.step.toInt.natAbs := Int.natAbs_pos.2 r.step_toInt_ne_zero
  have hdistance : r.distance < 2 ^ 64 := by
    have := r.start.le_toInt
    have := r.start.toInt_lt
    have := r.stop.le_toInt
    have := r.stop.toInt_lt
    unfold distance
    split <;> omega
  have : ((2 ^ 64 - 1 : Nat) : Int) * 1 ≤ (2 ^ 64 - 1 : Nat) * r.step.toInt.natAbs :=
    Int.mul_le_mul_of_nonneg_left (by exact_mod_cast hstep) (by omega)
  omega

/-! ## The elements -/

/-- A term before the end lies between the bounds. -/
theorem fits64_term (h : i < r.length) : fits64 (r.term i) = true := by
  have := r.start.le_toInt
  have := r.start.toInt_lt
  have := r.stop.le_toInt
  have := r.stop.toInt_lt
  rw [lt_length_iff_before] at h
  unfold Before at h
  unfold fits64
  rw [decide_eq_true_eq]
  split at h
  · rename_i hpos
    have hstart : r.start.toInt ≤ r.term i := Int.le_add_of_nonneg_right (Int.mul_nonneg hpos.le (Int.natCast_nonneg i))
    omega
  · rename_i hneg
    have hstart : r.term i ≤ r.start.toInt := by
      have := Int.mul_nonpos_of_nonpos_of_nonneg (Int.not_lt.1 hneg) (Int.natCast_nonneg i)
      unfold term
      omega
    omega

/-- An element is its term modulo `2 ^ 64`. -/
theorem toInt_element_eq_bmod (i : Nat) : (r.element i).toInt = (r.term i).bmod (2 ^ 64) := by
  rw [element, term, Int64.toInt_add, Int64.toInt_mul, Int64.toInt_ofNat']
  simp

/-- An element below the length is its term: this one fits, whatever the product with the step does. -/
theorem toInt_element (h : i < r.length) : (r.element i).toInt = r.term i := by
  have hfits := fits64_term h
  unfold fits64 at hfits
  rw [decide_eq_true_eq] at hfits
  rw [toInt_element_eq_bmod]
  exact Int.bmod_eq_of_le (by omega) (by omega)

/-- Below the length an element is found. -/
theorem get?_of_lt (h : i < r.length) : r.get? i = some (r.element i) := if_pos h

/-- From the length on no element is found. -/
theorem get?_of_le (h : r.length ≤ i) : r.get? i = none := if_neg (Nat.not_lt.2 h)

/-- The listed elements are those that are found. -/
theorem getElem?_toList (i : Nat) : r.toList[i]? = r.get? i := by
  by_cases h : i < r.length <;> simp [toList, get?, h]

/-- As many elements are listed as the length says. -/
theorem length_toList : r.toList.length = r.length := by rw [toList, List.length_map, List.length_range]

/-- The listed elements go in the direction of the step. -/
theorem pairwise_toList : r.toList.Pairwise fun v w => Before r.step.toInt v.toInt w.toInt := by
  rw [toList, List.pairwise_map]
  refine List.pairwise_lt_range.imp_of_mem ?_
  intro i j hi hj hlt
  rw [List.mem_range] at hi hj
  rw [toInt_element hi, toInt_element hj]
  exact before_term hlt

/-! ## Ranges as progressions -/

/-- A range of the given bounds and step is the arithmetic progression from the start to before the end: it has as many elements as
there are terms before the end, a number of 64 bits; each element is its term, whether it is looked up or listed; and the elements
go strictly in the direction of the step. -/
structure Denotes (start stop step : Int) (r : Progression) : Prop where
  counts : {k : Nat | Before step (start + step * k) stop}.encard = r.length
  length_lt : r.length < 2 ^ 64
  fits : ∀ i < r.length, fits64 (start + step * i) = true
  exact : ∀ i < r.length, ∃ v : Int64, v.toInt = start + step * i ∧ r.get? i = some v ∧ r.toList[i]? = some v
  ends : ∀ i, r.length ≤ i → r.get? i = none ∧ r.toList[i]? = none
  ordered : r.toList.Pairwise fun v w => Before step v.toInt w.toInt

/-- Bounds and a step other than zero make a range. -/
theorem exists_ofBounds? (start stop : Int64) {step : Int64} (hstep : step ≠ 0) :
    ∃ r, ofBounds? start stop step = some r ∧ r.start = start ∧ r.stop = stop ∧ r.step = step :=
  ⟨⟨start, stop, step, hstep⟩, dif_pos hstep, rfl, rfl, rfl⟩

/-- Every range denotes the exact progression of its bounds and step. -/
theorem denotes_exactly {start stop step : Int64} (hstep : step ≠ 0) :
    ∃ r, ofBounds? start stop step = some r ∧ r.Denotes start.toInt stop.toInt step.toInt := by
  obtain ⟨r, hr, rfl, rfl, rfl⟩ := exists_ofBounds? start stop hstep
  refine ⟨r, hr, ?_⟩
  exact
    { counts := encard_terms
      length_lt := length_lt
      fits := fun i hi => fits64_term hi
      exact := fun i hi => ⟨_, toInt_element hi, get?_of_lt hi, (getElem?_toList i).trans (get?_of_lt hi)⟩
      ends := fun i hi => ⟨get?_of_le hi, (getElem?_toList i).trans (get?_of_le hi)⟩
      ordered := pairwise_toList }

/-- From the greatest integer to the least in steps of `-2 ^ 63`. -/
theorem denotes_exactly_widestSample : Int64.minValue ≠ 0 ∧
    ∃ r, ofBounds? .maxValue .minValue .minValue = some r ∧ r.Denotes (2 ^ 63 - 1) (-2 ^ 63) (-2 ^ 63) :=
  ⟨by decide, denotes_exactly (by decide)⟩

example : (ofBounds? .maxValue .minValue .minValue).map toList = some [.maxValue, -1] := by decide

end ScriptVM.Progression
