import ScriptVM.Proofs.Progressions
import ScriptVM.Proofs.RangeViews

/-!
# Where the elements of a range leave 64 bits

An element is the start plus the step times the index. The element itself always is an integer of 64 bits, but the product need not
be, and in a range of more than `2 ^ 63` elements the index need not be. A computation that wraps around is right all the same
(`Progression.toInt_element`); one with checks gives no element just where some step of it is not exact, which for a whole range is
decided by its last index (`Progression.exact_iff_last`). It takes bounds more than `2 ^ 63` apart.
-/

namespace ScriptVM.Progression

variable {r : Progression} {i j : Nat}

/-! ## Exact elements -/

/-- An element is computed in 64 bits and no step leaves them: the index, its product with the step, and the sum with the start. -/
structure Exact (r : Progression) (i : Nat) : Prop where
  index : (Int64.ofNat i).toInt = i
  product : fits64 (r.step.toInt * i) = true
  sum : fits64 (r.start.toInt + r.step.toInt * i) = true

/-- Of an element only the index and the product may leave the 64 bits. -/
theorem exact_iff (hi : i < r.length) : r.Exact i ↔ i < 2 ^ 63 ∧ fits64 (r.step.toInt * i) = true := by
  constructor
  · intro h
    refine ⟨?_, h.product⟩
    have hlt := (Int64.ofNat i).toInt_lt
    rw [h.index] at hlt
    exact_mod_cast hlt
  · rintro ⟨hindex, hproduct⟩
    exact ⟨toInt_length hindex, hproduct, fits64_term hi⟩

/-- Products with smaller indices lie between zero and the product. -/
theorem fits64_product (hij : i ≤ j) (hj : fits64 (r.step.toInt * j) = true) : fits64 (r.step.toInt * i) = true := by
  have hle : (i : Int) ≤ j := by exact_mod_cast hij
  rw [fits64_iff, Within] at hj ⊢
  rcases Int.le_total 0 r.step.toInt with hstep | hstep
  · have hlow := Int.mul_nonneg hstep (Int.natCast_nonneg i)
    have hhigh := Int.mul_le_mul_of_nonneg_left hle hstep
    omega
  · have hhigh := Int.mul_nonpos_of_nonpos_of_nonneg hstep (Int.natCast_nonneg i)
    have hlow := Int.mul_le_mul_of_nonpos_left hstep hle
    omega

/-- Where an element is exact, all elements before it are. -/
theorem Exact.mono (h : r.Exact j) (hj : j < r.length) (hij : i ≤ j) : r.Exact i := by
  obtain ⟨hindex, hproduct⟩ := (exact_iff hj).1 h
  exact (exact_iff (Nat.lt_of_le_of_lt hij hj)).2 ⟨Nat.lt_of_le_of_lt hij hindex, fits64_product hij hproduct⟩

/-- All elements are exact if the last one is. -/
theorem forall_exact_iff : (∀ i < r.length, r.Exact i) ↔ (0 < r.length → r.Exact (r.length - 1)) := by
  constructor
  · intro h hpos
    exact h _ (Nat.sub_lt hpos Nat.one_pos)
  · intro h i hi
    have hpos : 0 < r.length := Nat.zero_lt_of_lt hi
    exact (h hpos).mono (Nat.sub_lt hpos Nat.one_pos) (Nat.le_sub_one_of_lt hi)

/-- Between bounds that are at most `2 ^ 63` apart all elements are exact. -/
theorem exact_of_distance_le (hd : r.distance ≤ 2 ^ 63) (hi : i < r.length) : r.Exact i := by
  have hlt : (i * r.step.toInt.natAbs : Int) < 2 ^ 63 := Int.lt_of_lt_of_le (lt_length_iff.1 hi) hd
  have hstep : 1 ≤ r.step.toInt.natAbs := Int.natAbs_pos.2 r.step_toInt_ne_zero
  have hindex : (i * 1 : Int) ≤ i * r.step.toInt.natAbs :=
    Int.mul_le_mul_of_nonneg_left (by exact_mod_cast hstep) (Int.natCast_nonneg i)
  refine (exact_iff hi).2 ⟨by omega, ?_⟩
  have habs : ((r.step.toInt * i).natAbs : Int) = i * r.step.toInt.natAbs := by
    rw [Int.natAbs_mul, Int.natAbs_natCast, Int.natCast_mul, Int.mul_comm]
  rw [fits64_iff, Within]
  omega

/-! ## Elements with checks -/

/-- An exact element passes all checks, and is the element. -/
theorem checkedElement?_of_exact (h : r.Exact i) : r.checkedElement? i = some (r.element i) := by
  have helement : r.element i = .ofInt (r.start.toInt + r.step.toInt * i) := by
    refine Int64.toInt_inj.1 ?_
    rw [toInt_ofInt_of_fits64 h.sum, toInt_element_eq_bmod, term]
    have hfits := h.sum
    rw [fits64_iff, Within] at hfits
    exact Int.bmod_eq_of_le (by omega) (by omega)
  simp only [checkedElement?, h.index, h.product, h.sum, Bool.and_self, if_true, helement]

/-- An index of `2 ^ 63` or more is off by `2 ^ 64`, which the sum shows. -/
theorem checkedElement?_of_wide (hi : i < r.length) (hwide : 2 ^ 63 ≤ i) : r.checkedElement? i = none := by
  have hterm := fits64_term hi
  have hstep := r.step_toInt_ne_zero
  have hsum : fits64 (r.start.toInt + r.step.toInt * (i - 2 ^ 64)) = false := by
    rw [Bool.eq_false_iff, ne_eq, fits64_iff, Within]
    rw [fits64_iff, Within, term] at hterm
    rw [Int.mul_sub]
    omega
  rw [checkedElement?]
  simp only [toInt_wrapped hwide (Nat.lt_trans hi r.length_lt), hsum, Bool.and_false, Bool.false_eq_true, if_false]

/-- Some check of an element that is not exact fails. -/
theorem checkedElement?_of_not_exact (hi : i < r.length) (h : ¬r.Exact i) : r.checkedElement? i = none := by
  rcases Nat.lt_or_ge i (2 ^ 63) with hindex | hwide
  · have hproduct : fits64 (r.step.toInt * i) = false := by
      rw [Bool.eq_false_iff]
      intro hfits
      exact h ((exact_iff hi).2 ⟨hindex, hfits⟩)
    simp only [checkedElement?, toInt_length hindex, hproduct, Bool.false_and, Bool.false_eq_true, if_false]
  · exact checkedElement?_of_wide hi hwide

/-- A computation with checks gives an element just if no step of it leaves the 64 bits, and then it is the element of the
computation that wraps around. The sum never leaves them; the index and the product do not either, in the whole range, just if they do
not at the last index, and so in every range whose bounds are at most `2 ^ 63` apart. -/
theorem exact_iff_last (r : Progression) :
    (∀ i < r.length, fits64 (r.start.toInt + r.step.toInt * i) = true ∧
      (r.Exact i ↔ i < 2 ^ 63 ∧ fits64 (r.step.toInt * i) = true) ∧
      (r.Exact i → r.checkedElement? i = some (r.element i)) ∧ (¬r.Exact i → r.checkedElement? i = none)) ∧
    ((∀ i < r.length, r.Exact i) ↔ (0 < r.length → r.Exact (r.length - 1))) ∧
    (r.distance ≤ 2 ^ 63 → ∀ i < r.length, r.Exact i) := by
  refine ⟨fun i hi => ?_, forall_exact_iff, fun hd i hi => exact_of_distance_le hd hi⟩
  exact ⟨fits64_term hi, exact_iff hi, checkedElement?_of_exact, checkedElement?_of_not_exact hi⟩

/-- From the least integer of 64 bits up to the greatest in steps of `2 ^ 62`. -/
def quarters : Progression := ⟨.minValue, .maxValue, 0x4000000000000000, by decide⟩

/-- The second of the quarters is still computed exactly. -/
theorem exact_iff_last_quarters : 1 < quarters.length ∧ quarters.Exact 1 ∧ quarters.checkedElement? 1 = some (-0x4000000000000000) := by
  obtain ⟨hfits, hiff, hchecked, -⟩ := (exact_iff_last quarters).1 1 (by decide)
  have hexact : quarters.Exact 1 := hiff.2 (by decide)
  exact ⟨by decide, hexact, (hchecked hexact).trans (by decide)⟩

/-- The third of four elements is zero, but twice the step is no integer of 64 bits, so a computation with checks does not give it. -/
theorem not_exact_quarters : quarters.length = 4 ∧ quarters.element 2 = 0 ∧ ¬quarters.Exact 2 ∧
    fits64 (quarters.step.toInt * 2) = false ∧ quarters.checkedElement? 2 = none := by
  refine ⟨by decide, by decide, fun h => ?_, by decide, by decide⟩
  exact absurd h.product (by decide)

end ScriptVM.Progression
