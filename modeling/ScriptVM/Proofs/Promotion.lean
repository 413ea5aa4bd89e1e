import ScriptVM.Operand
import ScriptVM.Proofs.Magnitudes

/-!
# Integer arithmetic is exact

An operator on integers answers with the exact result, held by the narrowest kind that is at least as wide as its operands; only
a result beyond 64 bits becomes a floating point number (`Operand.integers_promote_minimally`). The remainder is the exception:
it is given up where the quotient does not fit, although the remainder itself always would
(`Operand.modulo_exact_unless_least`).

Both follow from one equation for all operators (`Num.arith_eq_promote`), which names the integer that is checked for its size apart
from the exact result.
-/

namespace ScriptVM

/-! ## Exact results -/

namespace ArithOp

/-- The exact result of an operator on integers. A quotient is cut off towards zero. -/
def exact : ArithOp → Int → Int → Int
  | add, x, y => x + y
  | subtract, x, y => x - y
  | multiply, x, y => x * y
  | divide, x, y => x.tdiv y
  | modulo, x, y => x - y * x.tdiv y

/-- The operator whose result has to fit: a remainder is only computed where the quotient fits. -/
def checkedBy : ArithOp → ArithOp
  | modulo => divide
  | op => op

/-- Only a remainder is checked by another operator. -/
theorem checkedBy_of_ne {op : ArithOp} (h : op ≠ modulo) : op.checkedBy = op := by
  cases op with
  | modulo => exact absurd rfl h
  | _ => rfl

/-- The remainder lies between zero and the dividend. -/
theorem exact_modulo_between (x y : Int) : min x 0 ≤ modulo.exact x y ∧ modulo.exact x y ≤ max x 0 := by
  have habs : (x.tmod y).natAbs ≤ x.natAbs := by
    rw [Int.natAbs_tmod]
    exact Nat.mod_le ..
  rw [exact, ← Int.tmod_def]
  rcases Int.le_total 0 x with hx | hx
  · have hsign : 0 ≤ x.tmod y := Int.tmod_nonneg y hx
    omega
  · have hsign : 0 ≤ -x.tmod y := by
      rw [← Int.neg_tmod]
      exact Int.tmod_nonneg y (Int.neg_nonneg_of_nonpos hx)
    omega

end ArithOp

/-! ## Widths -/

/-- The integers of a width whose sign bit weighs `m`. -/
def Within (m n : Int) : Prop := -m ≤ n ∧ n ≤ m - 1

section Widths

variable {m n x y : Int}

/-- An integer fits 32 bits just if it is within their width. -/
theorem fits32_iff : fits32 n = true ↔ Within 0x80000000 n := by
  simp only [fits32, decide_eq_true_eq, Within]
  omega

/-- An integer fits 64 bits just if it is within their width. -/
theorem fits64_iff : fits64 n = true ↔ Within 0x8000000000000000 n := by
  simp only [fits64, decide_eq_true_eq, Within]
  omega

/-- What fits 32 bits fits 64. -/
theorem fits64_of_fits32 (h : fits32 n = true) : fits64 n = true := by
  rw [fits32_iff, Within] at h
  rw [fits64_iff, Within]
  omega

/-- An integer that fits 32 bits is read back from them. -/
theorem toInt_ofInt_of_fits32 (h : fits32 n = true) : (Int32.ofInt n).toInt = n := by
  obtain ⟨hlow, hhigh⟩ := fits32_iff.1 h
  exact Int32.toInt_ofInt_of_le hlow (by omega)

/-- An integer that fits 64 bits is read back from them. -/
theorem toInt_ofInt_of_fits64 (h : fits64 n = true) : (Int64.ofInt n).toInt = n := by
  obtain ⟨hlow, hhigh⟩ := fits64_iff.1 h
  exact Int64.toInt_ofInt_of_le hlow (by omega)

/-- The remainder is as narrow as the dividend. -/
theorem Within.modulo (hx : Within m x) : Within m (ArithOp.modulo.exact x y) := by
  have hbetween := ArithOp.exact_modulo_between x y
  unfold Within at hx ⊢
  omega

/-- The quotient is as narrow as the dividend, unless it is that of the least integer by -1. -/
theorem Within.divide_iff (hx : Within m x) (hy : y ≠ 0) : Within m (ArithOp.divide.exact x y) ↔ ¬(x = -m ∧ y = -1) := by
  unfold Within at hx ⊢
  rw [ArithOp.exact]
  by_cases hunit : y.natAbs = 1
  · rcases Int.natAbs_eq_iff.1 hunit with rfl | rfl
    · rw [Int.ofNat_one, Int.tdiv_one]
      omega
    · rw [Int.tdiv_neg, Int.ofNat_one, Int.tdiv_one]
      omega
  · have hhalf : (x.tdiv y).natAbs ≤ x.natAbs / 2 := by
      rw [Int.natAbs_tdiv]
      exact Nat.div_le_div_left (by omega) (by decide)
    omega

end Widths

/-! ## The kind of a result -/

namespace Num

/-- Whether a number is an integer of 32 bits. -/
def isNarrow : Num → Bool
  | int _ => true
  | _ => false

/-- A number holds an exact result `r` as narrowly as it can: in 32 bits if all operands are as narrow and it fits, else in 64
bits if it fits, and otherwise it is what the operation comes to in floating point. -/
structure Promoted (narrow : Bool) (r : Int) (beyond : Double) (n : Num) : Prop where
  int : narrow = true → fits32 r = true → ∃ k : Int32, n = .int k ∧ k.toInt = r
  int64 : fits64 r = true → narrow = false ∨ fits32 r = false → ∃ k : Int64, n = .int64 k ∧ k.toInt = r
  double : ∀ d, n = .double d ↔ fits64 r = false ∧ d = beyond

/-- The number for a result `r` where it is `size` that has to fit; `beyond` is the result in floating point. -/
def promote (narrow : Bool) (size r : Int) (beyond : Double) : Num :=
  if narrow && fits32 size then int (.ofInt r) else if fits64 size then int64 (.ofInt r) else double beyond

/-- A result that is itself checked for its size is held as narrowly as it can be. -/
theorem promoted_promote (narrow : Bool) (r : Int) (beyond : Double) : Promoted narrow r beyond (promote narrow r r beyond) := by
  unfold promote
  refine ⟨?_, ?_, ?_⟩
  · intro hnarrow hfits
    rw [hnarrow, hfits]
    exact ⟨_, rfl, toInt_ofInt_of_fits32 hfits⟩
  · intro hfits hwide
    have hnot : (narrow && fits32 r) = false := by
      rcases hwide with h | h <;> simp [h]
    rw [hnot, hfits]
    exact ⟨_, rfl, toInt_ofInt_of_fits64 hfits⟩
  · intro d
    split
    · rename_i hfits
      rw [Bool.and_eq_true] at hfits
      simp [fits64_of_fits32 hfits.2]
    · cases fits64 r <;> simp [eq_comm]

variable {a b : Num} {x y : Int} {op : ArithOp}

/-- A checked operator answers the exact result, unless what is checked does not fit. -/
theorem checked_eq (fits : Int → Bool) :
    checked fits op x y = if fits (op.checkedBy.exact x y) then some (op.exact x y) else none := by
  cases op with
  | modulo =>
    rw [ArithOp.exact, ← Int.tmod_def]
    rfl
  | _ => rfl

/-- An operator on wide integers answers the exact result, held in 64 bits or in floating point. -/
theorem arith64_eq_promote (op : ArithOp) (x y : Int) :
    arith64 op x y = promote false (op.checkedBy.exact x y) (op.exact x y) (floating op (.ofInt x) (.ofInt y)) := by
  rw [arith64, checked_eq, promote]
  by_cases h : fits64 (op.checkedBy.exact x y) = true <;> simp [h]

/-- What arithmetic on integers gives, for all widths of the operands. -/
theorem arith_eq_promote (ha : a.toInt? = some x) (hb : b.toInt? = some y) :
    a.arith op b = promote (a.isNarrow && b.isNarrow) (op.checkedBy.exact x y) (op.exact x y) (floating op (.ofInt x) (.ofInt y)) := by
  cases a with
  | int m =>
    cases ha
    cases b with
    | int k =>
      cases hb
      simp only [arith, arith64, checked_eq, promote, isNarrow, Bool.true_and]
      by_cases h32 : fits32 (op.checkedBy.exact m.toInt k.toInt) = true
      · simp [h32]
      · by_cases h64 : fits64 (op.checkedBy.exact m.toInt k.toInt) = true <;> simp [h32, h64]
    | int64 k =>
      cases hb
      exact arith64_eq_promote ..
    | _ => cases hb
  | int64 m =>
    cases ha
    cases b with
    | int k =>
      cases hb
      exact arith64_eq_promote ..
    | int64 k =>
      cases hb
      exact arith64_eq_promote ..
    | _ => cases hb
  | _ => cases ha

/-- Negation answers the exact negative, held as narrowly as the operand was. -/
theorem negate_eq_promote (ha : a.toInt? = some x) : a.negate = promote a.isNarrow (-x) (-x) (Binary.ofInt x).neg := by
  cases a with
  | int m =>
    cases ha
    have hfits : fits64 (-m.toInt) = true := by
      have hle := m.toInt_lt
      have hge := m.le_toInt
      exact decide_eq_true (by omega)
    simp [negate, promote, isNarrow, hfits]
  | int64 m =>
    cases ha
    rfl
  | _ => cases ha

/-! ## Results of narrow operands -/

/-- A narrow integer fits 32 bits. -/
theorem fits32_of_toInt? (ha : a.toInt? = some x) (hnarrow : a.isNarrow = true) : fits32 x = true := by
  cases a with
  | int k =>
    cases ha
    have hle := k.toInt_lt
    have hge := k.le_toInt
    exact decide_eq_true (by omega)
  | _ => cases hnarrow

/-- No operator takes two integers of 32 bits beyond 64 bits. -/
theorem fits64_exact (hx : fits32 x = true) (hy : fits32 y = true) : fits64 (op.checkedBy.exact x y) = true := by
  rw [fits32_iff, Within] at hx hy
  rw [fits64_iff, Within]
  have hquotient : (x.tdiv y).natAbs ≤ x.natAbs := Int.natAbs_tdiv_le_natAbs x y
  have hproduct : (x * y).natAbs ≤ 0x80000000 * 0x80000000 := by
    rw [Int.natAbs_mul]
    exact Nat.mul_le_mul (by omega) (by omega)
  cases op <;> simp only [ArithOp.checkedBy, ArithOp.exact] <;> omega

/-- What fits 64 bits is held by an integer. -/
theorem promote_ne_double {narrow : Bool} {size r : Int} {beyond d : Double} (h : fits64 size = true) :
    promote narrow size r beyond ≠ double d := by
  unfold promote
  rw [h, if_pos rfl]
  split <;> simp

/-- Narrow operands never come to floating point: their results fit 64 bits. -/
theorem arith_ne_double (ha : a.toInt? = some x) (hb : b.toInt? = some y) (hna : a.isNarrow = true) (hnb : b.isNarrow = true)
    (d : Double) : a.arith op b ≠ double d := by
  rw [arith_eq_promote ha hb]
  exact promote_ne_double (fits64_exact (fits32_of_toInt? ha hna) (fits32_of_toInt? hb hnb))

/-- The negative of a narrow integer never comes to floating point. -/
theorem negate_ne_double (ha : a.toInt? = some x) (hna : a.isNarrow = true) (d : Double) : a.negate ≠ double d := by
  have hfits := fits32_iff.1 (fits32_of_toInt? ha hna)
  rw [negate_eq_promote ha]
  refine promote_ne_double (fits64_iff.2 ?_)
  unfold Within at hfits ⊢
  omega

/-- A number that is an integer is zero just if the integer is. -/
theorem isZero_iff (ha : a.toInt? = some x) : a.isZero = true ↔ x = 0 := by
  cases a with
  | int m =>
    cases ha
    rw [isZero, beq_iff_eq, ← Int32.toInt_inj]
    rfl
  | int64 m =>
    cases ha
    rw [isZero, beq_iff_eq, ← Int64.toInt_inj]
    rfl
  | _ => cases ha

end Num

namespace Operand

open ScriptVM.Num

variable {a b : Num} {x y : Int} {op : ArithOp}

/-- Arithmetic on numbers is done, unless it divides by zero. -/
theorem binary_arith_num (h : (divides op && b.isZero) = false) : binary (.arith op) (.num a) (.num b) = .num (a.arith op b) :=
  if_neg (Bool.eq_false_iff.1 h)

/-- Arithmetic on numbers answers with a number, or divides by zero. -/
theorem binary_arith_cases :
    binary (.arith op) (.num a) (.num b) = .fault (zeroDivisor op) ∨ binary (.arith op) (.num a) (.num b) = .num (a.arith op b) := by
  by_cases h : (divides op && b.isZero) = true
  · exact .inl (if_pos h)
  · exact .inr (if_neg h)

/-- A divisor that is no zero is none to the check. -/
theorem divides_isZero (hb : b.toInt? = some y) (hy : divides op = true → y ≠ 0) : (divides op && b.isZero) = false := by
  rw [Bool.eq_false_iff, Ne, Bool.and_eq_true, isZero_iff hb]
  rintro ⟨hdivides, hzero⟩
  exact hy hdivides hzero

/-- Arithmetic on integers is exact. With `r` the exact result, an answer is `r` in 32 bits if all operands are of 32 bits and `r`
fits, `r` in 64 bits if `r` fits and an operand is of 64 bits or `r` does not fit in 32 bits, and in floating point exactly if `r`
does not fit in 64 bits, which no operation on operands of 32 bits comes to. A divisor of zero, of any kind, is a fault. -/
theorem integers_promote_minimally (op : ArithOp) (ha : a.toInt? = some x) (hb : b.toInt? = some y) :
    (op ≠ .modulo → (op = .divide → y ≠ 0) → ∃ n, binary (.arith op) (.num a) (.num b) = .num n ∧
      n.Promoted (a.isNarrow && b.isNarrow) (op.exact x y) (floating op (.ofInt x) (.ofInt y))) ∧
    (∃ n, unary .negate (.num a) = .num n ∧ n.Promoted a.isNarrow (-x) (Binary.ofInt x).neg) ∧
    (a.isNarrow = true → b.isNarrow = true → ∀ d, binary (.arith op) (.num a) (.num b) ≠ .num (.double d) ∧
      unary .negate (.num a) ≠ .num (.double d)) ∧
    (∀ left right : Num, right.isZero = true → binary (.arith .divide) (.num left) (.num right) = .fault .divisionByZero ∧
      binary (.arith .modulo) (.num left) (.num right) = .fault .moduloByZero) := by
  refine ⟨?_, ?_, ?_, ?_⟩
  · intro hmod hzero
    refine ⟨_, binary_arith_num (divides_isZero hb ?_), ?_⟩
    · intro hdivides
      cases op with
      | divide => exact hzero rfl
      | modulo => exact absurd rfl hmod
      | _ => cases hdivides
    · rw [arith_eq_promote ha hb, ArithOp.checkedBy_of_ne hmod]
      exact promoted_promote ..
  · refine ⟨a.negate, rfl, ?_⟩
    rw [negate_eq_promote ha]
    exact promoted_promote ..
  · intro hna hnb d
    refine ⟨?_, ?_⟩
    · intro h
      rcases binary_arith_cases with hfault | hn
      · rw [hfault] at h
        cases h
      · rw [hn, Outcome.num.injEq] at h
        exact arith_ne_double ha hb hna hnb d h
    · intro h
      rw [unary, negate, Outcome.num.injEq] at h
      exact negate_ne_double ha hna d h
  · intro left right hzero
    constructor <;> exact if_pos (by rw [hzero]; rfl)

/-- The least integer of 32 bits divided by -1 needs 64 bits. -/
theorem integers_promote_minimally_leastSample : (Num.int .minValue).toInt? = some (-0x80000000) ∧ (Num.int (-1)).toInt? = some (-1) ∧
    ∃ n, binary (.arith .divide) (.num (.int .minValue)) (.num (.int (-1))) = .num n ∧
      n.Promoted true 0x80000000 (floating .divide (.ofInt (-0x80000000)) (.ofInt (-1))) :=
  ⟨rfl, rfl, (integers_promote_minimally .divide (x := -0x80000000) (y := -1) rfl rfl).1 (by decide) (by decide)⟩

example : binary (.arith .divide) (.num (.int .minValue)) (.num (.int (-1))) = .num (.int64 0x80000000) := by decide

/-! ## Remainders -/

/-- The least integer of 32 or 64 bits. -/
def least (narrow : Bool) : Int := if narrow then -0x80000000 else -0x8000000000000000

/-- A remainder is the exact one, held as narrowly as it can be where the quotient fits. -/
theorem binary_modulo (ha : a.toInt? = some x) (hb : b.toInt? = some y) (hy : y ≠ 0) :
    binary (.arith .modulo) (.num a) (.num b) = .num (promote (a.isNarrow && b.isNarrow) (ArithOp.divide.exact x y)
      (ArithOp.modulo.exact x y) (floating .modulo (.ofInt x) (.ofInt y))) := by
  rw [binary_arith_num (divides_isZero hb fun _ => hy), arith_eq_promote ha hb]
  rfl

/-- The remainder of the least integer by -1 comes to minus zero in floating point. -/
theorem floating_modulo_least : (floating .modulo (.ofInt (least false)) (.ofInt (-1)) : Double) = .zero true := by
  decide +kernel

/-- The remainder of integers is exact, in 32 bits if both operands are of 32 bits and else in 64 bits, except where the quotient
does not fit. There the remainder zero is not found: it gets 64 bits for operands of 32 bits, and otherwise becomes a negative zero
in floating point. -/
theorem modulo_exact_unless_least (ha : a.toInt? = some x) (hb : b.toInt? = some y) (hy : y ≠ 0) :
    ((a.isNarrow && b.isNarrow) = true → ¬(x = least true ∧ y = -1) →
      ∃ k : Int32, binary (.arith .modulo) (.num a) (.num b) = .num (.int k) ∧ k.toInt = ArithOp.modulo.exact x y) ∧
    ((a.isNarrow && b.isNarrow) = false → ¬(x = least false ∧ y = -1) →
      ∃ k : Int64, binary (.arith .modulo) (.num a) (.num b) = .num (.int64 k) ∧ k.toInt = ArithOp.modulo.exact x y) ∧
    ((a.isNarrow && b.isNarrow) = true → x = least true → y = -1 →
      binary (.arith .modulo) (.num a) (.num b) = .num (.int64 0)) ∧
    ((a.isNarrow && b.isNarrow) = false → x = least false → y = -1 →
      binary (.arith .modulo) (.num a) (.num b) = .num (.double (.zero true))) := by
  rw [binary_modulo ha hb hy]
  refine ⟨?_, ?_, ?_, ?_⟩
  · intro hnarrow hleast
    have hx : Within 0x80000000 x := fits32_iff.1 (fits32_of_toInt? ha (Bool.and_eq_true_iff.1 hnarrow).1)
    rw [hnarrow, promote, fits32_iff.2 ((hx.divide_iff hy).2 hleast)]
    exact ⟨_, rfl, toInt_ofInt_of_fits32 (fits32_iff.2 hx.modulo)⟩
  · intro hnarrow hleast
    have hx : Within 0x8000000000000000 x := fits64_iff.1 (fits64_of_toInt? ha)
    rw [hnarrow, promote, fits64_iff.2 ((hx.divide_iff hy).2 hleast)]
    exact ⟨_, rfl, toInt_ofInt_of_fits64 (fits64_iff.2 hx.modulo)⟩
  · rintro hnarrow rfl rfl
    rw [hnarrow]
    rfl
  · rintro hnarrow rfl rfl
    rw [hnarrow]
    exact congrArg (Outcome.num ∘ Num.double) floating_modulo_least

/-- The least integer of 64 bits has its exact remainder by -7. -/
theorem modulo_exact_unless_least_wideSample : (Num.int64 .minValue).toInt? = some (least false) ∧ (Num.int (-7)).toInt? = some (-7) ∧
    ((-7 : Int) ≠ 0) ∧ ¬(least false = least false ∧ (-7 : Int) = -1) ∧
    ∃ k : Int64, binary (.arith .modulo) (.num (.int64 .minValue)) (.num (.int (-7))) = .num (.int64 k) ∧
      k.toInt = ArithOp.modulo.exact (least false) (-7) :=
  ⟨rfl, rfl, by decide, by decide,
    (modulo_exact_unless_least (x := least false) (y := -7) rfl rfl (by decide)).2.1 rfl (by decide)⟩

/-- The remainder of the least integer by -1 is zero, but it is not found in the width of the operands, and in 64 bits it is not
even an integer. -/
theorem modulo_leastSample :
    ArithOp.modulo.exact (least true) (-1) = 0 ∧ binary (.arith .modulo) (.num (.int .minValue)) (.num (.int (-1))) ≠ .num (.int 0) ∧
    ArithOp.modulo.exact (least false) (-1) = 0 ∧
    binary (.arith .modulo) (.num (.int64 .minValue)) (.num (.int (-1))) = .num (.double (.zero true)) := by
  decide +kernel

end Operand

end ScriptVM
