import Mathlib.Order.Monotone.Basic
import Mathlib.Tactic.Ring
import ScriptVM.MapKey

/-!
# Magnitudes and what they stand for

A larger magnitude stands for a larger number (`Binary.unitsOf_strictMono`), so two numbers that are not NaN are equal exactly when
they stand for the same: the same integer, or the same bits where there is no integer. The key of a number under which maps find it
is made in this way, and so numbers are equal exactly when their keys are (`Num.key_eq_of_numEq`, `Num.numEq_of_key_eq`).
-/

namespace ScriptVM

namespace FloatFormat

/-- A format has a hidden bit. -/
theorem hidden_pos (f : FloatFormat) : 0 < f.hidden := by
  cases f <;> decide

theorem one_pos (f : FloatFormat) : 0 < f.one := by
  rw [one, Nat.one_shiftLeft]
  exact Nat.two_pow_pos _

theorem infinity_pos (f : FloatFormat) : 0 < f.infinity := by
  cases f <;> decide

end FloatFormat

namespace Binary

variable {f g : FloatFormat} {x y : Binary f} {n : Int}

/-! ## Units -/

/-- The number of units of a magnitude. -/
def unitsOf (f : FloatFormat) (m : Nat) : Nat := (m - (m / f.hidden - 1) * f.hidden) * 2 ^ (m / f.hidden - 1)

/-- The units of a number are those of its magnitude. -/
theorem units_eq (x : Binary f) : x.units = unitsOf f x.magnitude := Nat.shiftLeft_eq ..

theorem unitsOf_zero (f : FloatFormat) : unitsOf f 0 = 0 := by simp [unitsOf]

/-- The next magnitude has one more step of the same worth, or begins the steps of twice the worth. -/
theorem unitsOf_lt_succ (f : FloatFormat) (m : Nat) : unitsOf f m < unitsOf f (m + 1) := by
  have hpos := f.hidden_pos
  have hm := Nat.div_add_mod m f.hidden
  have hr := Nat.mod_lt m hpos
  rw [unitsOf, unitsOf]
  generalize f.hidden = hidden at *
  by_cases hsame : m % hidden + 1 < hidden
  · have hq : (m + 1) / hidden = m / hidden := by
      rw [Nat.div_eq_iff hpos, Nat.mul_comm]
      omega
    rw [hq]
    have hle : (m / hidden - 1) * hidden ≤ m := Nat.le_trans (Nat.mul_le_mul_right _ (Nat.sub_le ..)) (Nat.div_mul_le_self ..)
    exact Nat.mul_lt_mul_of_pos_right (by omega) (Nat.two_pow_pos _)
  · have hnext : m + 1 = (m / hidden + 1) * hidden := by
      rw [Nat.add_mul, Nat.one_mul, Nat.mul_comm]
      omega
    have hq : (m + 1) / hidden = m / hidden + 1 := by
      conv_lhs => rw [hnext, Nat.mul_div_cancel _ hpos]
    rw [hq]
    cases hs : m / hidden with
    | zero =>
      rw [hs] at hnext
      simp
    | succ s =>
      rw [hs] at hnext
      have hold : m - s * hidden < 2 * hidden := by
        have : m + 1 = s * hidden + 2 * hidden := by rw [hnext]; ring
        omega
      have hnew : m + 1 - (s + 1) * hidden = hidden := by
        have : m + 1 = (s + 1) * hidden + hidden := by rw [hnext]; ring
        omega
      calc (m - (s + 1 - 1) * hidden) * 2 ^ (s + 1 - 1) < 2 * hidden * 2 ^ s := Nat.mul_lt_mul_of_pos_right hold (Nat.two_pow_pos s)
        _ = (m + 1 - (s + 1 + 1 - 1) * hidden) * 2 ^ (s + 1 + 1 - 1) := by
          rw [Nat.add_sub_cancel, hnew]
          ring

/-- A larger magnitude stands for more units. -/
theorem unitsOf_strictMono (f : FloatFormat) : StrictMono (unitsOf f) := strictMono_nat_of_lt_succ (unitsOf_lt_succ f)

/-- Numbers with the same units have one magnitude. -/
theorem magnitude_eq_of_units (h : x.units = y.units) : x.magnitude = y.magnitude := by
  rw [units_eq, units_eq] at h
  exact (unitsOf_strictMono f).injective h

/-- A number without units is a zero. -/
theorem magnitude_eq_zero (h : x.units = 0) : x.magnitude = 0 := by
  rw [units_eq, ← unitsOf_zero f] at h
  exact (unitsOf_strictMono f).injective h

/-! ## Equal numbers -/

/-- A sign shows in every number but zero. -/
theorem eq_of_signed {s t : Bool} {m n : Nat} (h : (if s then -(m : Int) else m) = if t then -(n : Int) else n) :
    (s = t ∧ m = n) ∨ (m = 0 ∧ n = 0) := by
  cases s <;> cases t <;> simp only [if_true, Bool.false_eq_true, if_false] at h <;> grind

/-- Numbers with one signed magnitude are the same, or zeros of both signs. -/
theorem eq_or_zero_of_key (h : x.key = y.key) : x = y ∨ (x.magnitude = 0 ∧ y.magnitude = 0) :=
  (eq_of_signed h).imp_left fun ⟨hs, hm⟩ => Binary.ext hs hm

/-- Numbers that stand for the same have one key. -/
theorem key_eq_of_signedUnits (h : x.signedUnits = y.signedUnits) : x.key = y.key := by
  rw [key, key]
  rcases eq_of_signed h with ⟨hs, hunits⟩ | ⟨hx, hy⟩
  · rw [hs, magnitude_eq_of_units hunits]
  · rw [magnitude_eq_zero hx, magnitude_eq_zero hy]
    simp

/-- Numbers are equal just if neither is a NaN and both have one key. -/
theorem numEq_iff : x.numEq y = true ↔ x.isNaN = false ∧ y.isNaN = false ∧ x.key = y.key := by
  rw [numEq, compare?]
  cases x.isNaN <;> cases y.isNaN <;> simp

/-- A number stands for an integer exactly if it is so many ones. -/
theorem toInt?_eq_some : x.toInt? = some n ↔ x.isFinite = true ∧ x.signedUnits = n * f.one := by
  have hpos : (f.one : Int) ≠ 0 := by exact_mod_cast f.one_pos.ne'
  rw [toInt?, signedUnits]
  constructor
  · intro h
    split at h
    · rename_i hwhole
      rw [Bool.and_eq_true, beq_iff_eq] at hwhole
      obtain ⟨hfinite, hmod⟩ := hwhole
      have hunits : (x.units : Int) = (x.units / f.one : Nat) * f.one := by
        exact_mod_cast (Nat.div_mul_cancel (Nat.dvd_of_mod_eq_zero hmod)).symm
      cases h
      refine ⟨hfinite, ?_⟩
      split
      · rw [Int.neg_mul, ← hunits]
      · exact hunits
    · cases h
  · rintro ⟨hfinite, hunits⟩
    have habs : x.units = n.natAbs * f.one := by
      have := congrArg Int.natAbs hunits
      rw [Int.natAbs_mul, Int.natAbs_natCast] at this
      rw [← this]
      split <;> simp
    have hmod : x.units % f.one = 0 := by rw [habs, Nat.mul_mod_left]
    have hdiv : x.units / f.one = n.natAbs := by rw [habs, Nat.mul_div_cancel _ f.one_pos]
    rw [if_pos (by rw [hfinite, hmod]; rfl)]
    refine congrArg some (mul_right_cancel₀ hpos ?_)
    rw [← hunits, hdiv, habs, Nat.cast_mul]
    split
    · rw [Int.neg_mul]
    · rfl

/-- Numbers that stand for the same integer have one key. -/
theorem key_eq_of_toInt? (hx : x.toInt? = some n) (hy : y.toInt? = some n) : x.key = y.key :=
  key_eq_of_signedUnits ((toInt?_eq_some.1 hx).2.trans (toInt?_eq_some.1 hy).2.symm)

/-- A zero stands for the integer zero, whatever its sign. -/
theorem toInt?_zero (h : x.magnitude = 0) : x.toInt? = some 0 := by
  have hunits : x.units = 0 := by rw [units_eq, h, unitsOf_zero]
  refine toInt?_eq_some.2 ⟨?_, ?_⟩
  · rw [isFinite, h]
    exact decide_eq_true f.infinity_pos
  · rw [signedUnits, hunits]
    simp

/-- A finite magnitude makes no NaN. -/
theorem isNaN_ofMagnitude {negative : Bool} {m : Nat} : (ofMagnitude negative m : Binary f).isNaN = false :=
  decide_eq_false (Nat.not_lt.2 (Nat.min_le_right ..))

/-- Only a NaN becomes a NaN in another format. -/
theorem isNaN_convert (h : x.isNaN = false) : (x.convert g).isNaN = false := by
  rw [convert, h, if_neg Bool.false_ne_true]
  split
  · exact isNaN_ofMagnitude
  · exact isNaN_ofMagnitude

end Binary

/-! ## Keys of numbers -/

namespace MapKey

variable {x y : Double} {n : Int}

/-- A number has an integer as its key if it stands for one of 64 bits. -/
theorem ofDouble_eq_int : ofDouble x = .int n ↔ x.toInt? = some n ∧ fits64 n = true := by
  rw [ofDouble, ← Option.filter_eq_some_iff]
  cases x.toInt?.filter fits64 with
  | some k => simp
  | none => simp

/-- Equal doubles have one key in maps. -/
theorem ofDouble_eq_of_numEq (h : x.numEq y = true) : ofDouble x = ofDouble y := by
  obtain ⟨-, -, hkey⟩ := Binary.numEq_iff.1 h
  rcases Binary.eq_or_zero_of_key hkey with rfl | ⟨hx, hy⟩
  · rfl
  · rw [ofDouble_eq_int.2 ⟨Binary.toInt?_zero hx, by decide⟩, ofDouble_eq_int.2 ⟨Binary.toInt?_zero hy, by decide⟩]

/-- A number that stands for no integer of 64 bits is its own key, unless it is a NaN. -/
theorem ofDouble_eq_float (hx : x.isNaN = false) (h : x.toInt?.filter fits64 = none) : ofDouble x = .float x := by
  rw [ofDouble, h, hx]
  rfl

/-- Doubles with one key in maps are equal, unless one is a NaN. -/
theorem numEq_of_ofDouble_eq (hx : x.isNaN = false) (hy : y.isNaN = false) (h : ofDouble x = ofDouble y) : x.numEq y = true := by
  refine Binary.numEq_iff.2 ⟨hx, hy, ?_⟩
  cases hn : x.toInt?.filter fits64 with
  | some n =>
    have hkey : ofDouble x = .int n := ofDouble_eq_int.2 (Option.filter_eq_some_iff.1 hn)
    exact Binary.key_eq_of_toInt? (ofDouble_eq_int.1 hkey).1 (ofDouble_eq_int.1 (h.symm.trans hkey)).1
  | none =>
    rw [ofDouble_eq_float hx hn] at h
    cases hm : y.toInt?.filter fits64 with
    | some m =>
      rw [ofDouble_eq_int.2 (Option.filter_eq_some_iff.1 hm)] at h
      cases h
    | none =>
      rw [ofDouble_eq_float hy hm, float.injEq] at h
      rw [h]

end MapKey

namespace Num

/-- The key of a number. -/
def key (n : Num) : MapKey :=
  match n.toInt? with
  | some k => .int k
  | none => .ofDouble n.toDouble

/-- Whether the number is a NaN. -/
def isNaN : Num → Bool
  | float x => x.isNaN
  | double x => x.isNaN
  | _ => false

variable {a b : Num}

/-- A number that is an integer is one of 64 bits. -/
theorem fits64_of_toInt? {k : Int} (h : a.toInt? = some k) : fits64 k = true := by
  cases a with
  | int n =>
    cases h
    have hle := n.toInt_lt
    have hge := n.le_toInt
    exact decide_eq_true (by omega)
  | int64 n =>
    cases h
    have hle := n.toInt_lt
    have hge := n.le_toInt
    exact decide_eq_true (by omega)
  | _ => cases h

/-- A number that is no integer and no NaN makes a double that is no NaN. -/
theorem isNaN_toDouble (h : a.isNaN = false) (hint : a.toInt? = none) : a.toDouble.isNaN = false := by
  cases a with
  | float x => exact Binary.isNaN_convert h
  | double x => exact h
  | _ => cases hint

/-- Equal numbers have one key. -/
theorem key_eq_of_numEq (h : a.numEq b = true) : a.key = b.key := by
  rw [key, key]
  rw [numEq] at h
  cases ha : a.toInt? with
  | some x =>
    cases hb : b.toInt? with
    | some y =>
      simp only [ha, hb, beq_iff_eq] at h
      rw [h]
    | none =>
      simp only [ha, hb, beq_iff_eq] at h
      exact (MapKey.ofDouble_eq_int.2 ⟨h, fits64_of_toInt? ha⟩).symm
  | none =>
    cases hb : b.toInt? with
    | some y =>
      simp only [ha, hb, beq_iff_eq] at h
      exact MapKey.ofDouble_eq_int.2 ⟨h, fits64_of_toInt? hb⟩
    | none =>
      simp only [ha, hb] at h
      exact MapKey.ofDouble_eq_of_numEq h

/-- Numbers with one key are equal, unless they are NaN. -/
theorem numEq_of_key_eq (hna : a.isNaN = false) (hnb : b.isNaN = false) (h : a.key = b.key) : a.numEq b = true := by
  rw [key, key] at h
  rw [numEq]
  cases ha : a.toInt? with
  | some x =>
    cases hb : b.toInt? with
    | some y =>
      simp only [ha, hb, MapKey.int.injEq] at h
      simp [h]
    | none =>
      simp only [ha, hb] at h
      simp [(MapKey.ofDouble_eq_int.1 h.symm).1]
  | none =>
    cases hb : b.toInt? with
    | some y =>
      simp only [ha, hb] at h
      simp [(MapKey.ofDouble_eq_int.1 h).1]
    | none =>
      simp only [ha, hb] at h
      exact MapKey.numEq_of_ofDouble_eq (isNaN_toDouble hna ha) (isNaN_toDouble hnb hb) h

end Num

end ScriptVM
