import Mathlib.Tactic.SplitIfs
import ScriptVM.Proofs.Magnitudes

/-!
# Rounding to the nearest number

A whole count of units is rounded to the magnitude whose count is nearest. The rounding keeps the order (`Binary.nearest_mono`) and
keeps every count that a magnitude has (`Binary.nearest_unitsOf`). With signs the same holds of integers, so the conversion of an
integer never leads past a number that lies on its other side; and no integer of at most 53 bits is changed
(`Binary.toInt?_ofInt`).
-/

namespace ScriptVM

/-- Twice the hidden bit is the bound of the significand. -/
theorem FloatFormat.two_mul_hidden (f : FloatFormat) : 2 * f.hidden = 2 ^ f.precision := by
  cases f <;> rfl

/-! ## Halves to even -/

/-- The nearest quotient goes by twice the remainder, and by the parity of the quotient in the middle. -/
theorem roundHalfEven_eq (n d : Nat) : roundHalfEven n d =
    if 2 * (n % d) < d then n / d else if d < 2 * (n % d) then n / d + 1 else n / d + n / d % 2 := rfl

/-- Rounding to the nearest does not go below the quotient. -/
theorem le_roundHalfEven (n d : Nat) : n / d ≤ roundHalfEven n d := by
  rw [roundHalfEven_eq]
  split_ifs <;> omega

/-- Rounding to the nearest goes up by one at most. -/
theorem roundHalfEven_le (n d : Nat) : roundHalfEven n d ≤ n / d + 1 := by
  rw [roundHalfEven_eq]
  split_ifs <;> omega

/-- Rounding to the nearest keeps the order. -/
theorem roundHalfEven_mono {n m d : Nat} (h : n ≤ m) : roundHalfEven n d ≤ roundHalfEven m d := by
  rcases Nat.lt_or_eq_of_le (Nat.div_le_div_right (c := d) h) with hlt | heq
  · calc roundHalfEven n d ≤ n / d + 1 := roundHalfEven_le n d
      _ ≤ m / d := hlt
      _ ≤ roundHalfEven m d := le_roundHalfEven m d
  · -- Within one quotient it is the remainder that grows.
    have hmod : n % d ≤ m % d := by
      have hn := Nat.div_add_mod n d
      have hm := Nat.div_add_mod m d
      rw [heq] at hn
      omega
    rw [roundHalfEven_eq, roundHalfEven_eq, heq]
    split_ifs <;> omega

/-- A quotient without remainder is not rounded. -/
theorem roundHalfEven_of_dvd {n d : Nat} (hd : 0 < d) (h : d ∣ n) : roundHalfEven n d = n / d := by
  rw [roundHalfEven_eq, Nat.mod_eq_zero_of_dvd h, if_pos (by omega)]

namespace Binary

variable {f : FloatFormat} {n m e : Nat}

/-! ## Counts of units -/

/-- The power of two that one step of the significand is worth in a number of so many units. -/
def shiftOf (f : FloatFormat) (n : Nat) : Nat := Nat.log2 n + 1 - f.precision

/-- The magnitude nearest to a count of units. -/
def nearest (f : FloatFormat) (n : Nat) : Nat := shiftOf f n * f.hidden + roundHalfEven n (2 ^ shiftOf f n)

/-- A whole count is rounded to the nearest magnitude. -/
theorem round_whole (negative : Bool) (n : Nat) : (round negative n 1 : Binary f) = ofMagnitude negative (nearest f n) := by
  rw [round, Nat.div_one, Nat.one_shiftLeft]
  rfl

/-- A shift is large enough exactly if the significand stays within the precision. -/
theorem shiftOf_le_iff : shiftOf f n ≤ e ↔ n < 2 ^ (f.precision + e) := by
  by_cases hn : n = 0
  · subst hn
    have hzero : shiftOf f 0 = 0 := by cases f <;> rfl
    rw [hzero]
    exact iff_of_true (Nat.zero_le e) (Nat.two_pow_pos _)
  · rw [← Nat.log2_lt hn, shiftOf]
    omega

/-- A count fits the significand at its shift. -/
theorem lt_shiftOf (f : FloatFormat) (n : Nat) : n < 2 * f.hidden * 2 ^ shiftOf f n := by
  rw [f.two_mul_hidden, ← Nat.pow_add]
  exact shiftOf_le_iff.1 (Nat.le_refl _)

/-- The leading bit of a shifted significand is set. -/
theorem shiftOf_le (h : 0 < shiftOf f n) : f.hidden * 2 ^ shiftOf f n ≤ n := by
  obtain ⟨k, hk⟩ : ∃ k, shiftOf f n = k + 1 := ⟨shiftOf f n - 1, by omega⟩
  have hnot : ¬n < 2 ^ (f.precision + k) := by
    rw [← shiftOf_le_iff]
    omega
  rw [Nat.pow_add, ← f.two_mul_hidden] at hnot
  calc f.hidden * 2 ^ shiftOf f n = 2 * f.hidden * 2 ^ k := by rw [hk, Nat.pow_succ]; ring
    _ ≤ n := Nat.not_lt.1 hnot

/-- The nearest magnitude lies at most where the next binade begins. -/
theorem nearest_le (f : FloatFormat) (n : Nat) : nearest f n ≤ (shiftOf f n + 2) * f.hidden := by
  have hlt : n / 2 ^ shiftOf f n < 2 * f.hidden := (Nat.div_lt_iff_lt_mul (Nat.two_pow_pos _)).2 (lt_shiftOf f n)
  have hle := roundHalfEven_le n (2 ^ shiftOf f n)
  rw [nearest, Nat.add_mul]
  omega

/-- The nearest magnitude lies at least where the binade begins. -/
theorem le_nearest (h : 0 < shiftOf f n) : (shiftOf f n + 1) * f.hidden ≤ nearest f n := by
  have hge : f.hidden ≤ n / 2 ^ shiftOf f n := (Nat.le_div_iff_mul_le (Nat.two_pow_pos _)).2 (shiftOf_le h)
  have hle := le_roundHalfEven n (2 ^ shiftOf f n)
  rw [nearest, Nat.add_one_mul]
  omega

/-- A larger count has a larger shift. -/
theorem shiftOf_mono (h : n ≤ m) : shiftOf f n ≤ shiftOf f m := by
  rw [shiftOf_le_iff]
  exact Nat.lt_of_le_of_lt h (shiftOf_le_iff.1 (Nat.le_refl _))

/-- Rounding keeps the order. -/
theorem nearest_mono (f : FloatFormat) : Monotone (nearest f) := by
  intro n m h
  rcases Nat.lt_or_eq_of_le (shiftOf_mono (f := f) h) with hlt | heq
  · calc nearest f n ≤ (shiftOf f n + 2) * f.hidden := nearest_le f n
      _ ≤ (shiftOf f m + 1) * f.hidden := Nat.mul_le_mul_right _ (by omega)
      _ ≤ nearest f m := le_nearest (by omega)
  · rw [nearest, nearest, heq]
    exact Nat.add_le_add_left (roundHalfEven_mono h) _

/-- A count that has no bits below its significand is the count of a magnitude. -/
theorem unitsOf_nearest (h : 2 ^ shiftOf f n ∣ n) : unitsOf f (nearest f n) = n := by
  have hpos := f.hidden_pos
  have hexact := roundHalfEven_of_dvd (Nat.two_pow_pos _) h
  have hshift : nearest f n / f.hidden - 1 = shiftOf f n := by
    have hbelow : n / 2 ^ shiftOf f n / f.hidden < 2 :=
      (Nat.div_lt_iff_lt_mul hpos).2 ((Nat.div_lt_iff_lt_mul (Nat.two_pow_pos _)).2 (lt_shiftOf f n))
    have habove : 0 < shiftOf f n → 1 ≤ n / 2 ^ shiftOf f n / f.hidden := by
      intro hs
      rw [Nat.le_div_iff_mul_le hpos, Nat.one_mul]
      exact (Nat.le_div_iff_mul_le (Nat.two_pow_pos _)).2 (shiftOf_le hs)
    rw [nearest, hexact, Nat.mul_comm, Nat.mul_add_div hpos]
    omega
  rw [unitsOf, hshift, nearest, hexact, Nat.add_sub_cancel_left, Nat.div_mul_cancel h]

/-- The significand of a magnitude is below twice the hidden bit. -/
theorem significand_lt (f : FloatFormat) (m : Nat) : m - (m / f.hidden - 1) * f.hidden < 2 * f.hidden := by
  have hm := Nat.div_add_mod m f.hidden
  have hr := Nat.mod_lt m f.hidden_pos
  cases hs : m / f.hidden with
  | zero =>
    rw [hs] at hm
    omega
  | succ s =>
    rw [hs, Nat.mul_succ, Nat.mul_comm] at hm
    rw [Nat.add_sub_cancel]
    omega

/-- Every magnitude is the nearest to its own count. -/
theorem nearest_unitsOf (f : FloatFormat) (m : Nat) : nearest f (unitsOf f m) = m := by
  refine (unitsOf_strictMono f).injective (unitsOf_nearest ?_)
  have hshift : shiftOf f (unitsOf f m) ≤ m / f.hidden - 1 := by
    rw [shiftOf_le_iff, Nat.pow_add, ← f.two_mul_hidden, unitsOf]
    exact Nat.mul_lt_mul_of_pos_right (significand_lt f m) (Nat.two_pow_pos _)
  exact Nat.dvd_trans (Nat.pow_dvd_pow 2 hshift) (Nat.dvd_mul_left ..)

/-! ## Signed counts -/

/-- The signed magnitude nearest to a signed count of units. -/
def roundUnits (f : FloatFormat) (z : Int) : Int :=
  if z < 0 then -(min (nearest f z.natAbs) f.infinity : Nat) else (min (nearest f z.natAbs) f.infinity : Nat)

/-- Rounding keeps the order of signed counts. -/
theorem roundUnits_mono {w z : Int} (h : w ≤ z) : roundUnits f w ≤ roundUnits f z := by
  have hmono {i j : Int} (h : i.natAbs ≤ j.natAbs) : min (nearest f i.natAbs) f.infinity ≤ min (nearest f j.natAbs) f.infinity :=
    min_le_min_right _ (nearest_mono f h)
  unfold roundUnits
  split_ifs with hw hz hz
  · have := hmono (i := z) (j := w) (by omega)
    omega
  · omega
  · omega
  · have := hmono (i := w) (j := z) (by omega)
    omega

variable {x y : Binary f} {k : Int}

/-- A number that is not a NaN lies where its own count is rounded to. -/
theorem key_eq_roundUnits (h : x.isNaN = false) : x.key = roundUnits f x.signedUnits := by
  have hle : x.magnitude ≤ f.infinity := Nat.not_lt.1 (of_decide_eq_false h)
  have hnearest : min (nearest f x.units) f.infinity = x.magnitude := by
    rw [units_eq, nearest_unitsOf, Nat.min_eq_left hle]
  have habs : x.signedUnits.natAbs = x.units := by
    unfold signedUnits
    split <;> simp
  rw [key, roundUnits, habs, hnearest]
  by_cases hzero : x.units = 0
  · rw [magnitude_eq_zero hzero]
    simp
  · have hsign : x.signedUnits < 0 ↔ x.negative = true := by
      unfold signedUnits
      cases x.negative
      · simp
      · simp only [if_true, iff_true]
        omega
    simp only [hsign]

/-- An integer is converted to the number nearest to its units. -/
theorem key_ofInt (k : Int) : (ofInt k : Binary f).key = roundUnits f (k * f.one) := by
  have hpos : (0 : Int) < f.one := by exact_mod_cast f.one_pos
  have hsign : k * f.one < 0 ↔ k < 0 := by
    simpa using Int.mul_lt_mul_right (b := k) (c := 0) hpos
  rw [ofInt, round_whole, key, roundUnits, Int.natAbs_mul, Int.natAbs_natCast]
  simp only [hsign, ofMagnitude, decide_eq_true_eq]

/-- An integer that fits in the significand is a whole count that no bit is lost of. -/
theorem unitsOf_nearest_mul_one (h : n ≤ 2 ^ f.precision) : unitsOf f (nearest f (n * f.one)) = n * f.one := by
  refine unitsOf_nearest ?_
  rw [FloatFormat.one, Nat.one_shiftLeft]
  rcases Nat.lt_or_eq_of_le h with hlt | rfl
  · have hshift : shiftOf f (n * 2 ^ f.scale) ≤ f.scale := by
      rw [shiftOf_le_iff, Nat.pow_add]
      exact Nat.mul_lt_mul_of_pos_right hlt (Nat.two_pow_pos _)
    exact Nat.dvd_trans (Nat.pow_dvd_pow 2 hshift) (Nat.dvd_mul_left ..)
  · rw [← Nat.pow_add]
    refine Nat.pow_dvd_pow 2 (shiftOf_le_iff.2 (Nat.pow_lt_pow_right Nat.one_lt_two ?_))
    have hpos : 0 < f.precision := by cases f <;> decide
    omega

/-- Infinity lies beyond every integer that fits in the significand. -/
theorem mul_one_lt_infinity (f : FloatFormat) : 2 ^ f.precision * f.one < unitsOf f f.infinity := by
  cases f <;> decide +kernel

/-- No bit of an integer is lost that fits in the significand. -/
theorem toInt?_ofInt (h : k.natAbs ≤ 2 ^ f.precision) : (ofInt k : Binary f).toInt? = some k := by
  have hunits := unitsOf_nearest_mul_one h
  have hfinite : nearest f (k.natAbs * f.one) < f.infinity := by
    refine (unitsOf_strictMono f).lt_iff_lt.1 ?_
    rw [hunits]
    exact Nat.lt_of_le_of_lt (Nat.mul_le_mul_right _ h) (mul_one_lt_infinity f)
  have hmagnitude : (ofInt k : Binary f).magnitude = nearest f (k.natAbs * f.one) := by
    rw [ofInt, round_whole]
    exact Nat.min_eq_left (Nat.le_of_lt hfinite)
  refine toInt?_eq_some.2 ⟨?_, ?_⟩
  · rw [isFinite, hmagnitude]
    exact decide_eq_true hfinite
  · have hsign : (ofInt k : Binary f).negative = decide (k < 0) := rfl
    rw [signedUnits, units_eq, hmagnitude, hunits, hsign, Nat.cast_mul]
    by_cases hk : k < 0
    · rw [decide_eq_true hk, if_pos rfl, Int.ofNat_natAbs_of_nonpos hk.le, Int.neg_mul, Int.neg_neg]
    · rw [decide_eq_false hk, if_neg Bool.false_ne_true, Int.natAbs_of_nonneg (Int.not_lt.1 hk)]

end Binary

end ScriptVM
