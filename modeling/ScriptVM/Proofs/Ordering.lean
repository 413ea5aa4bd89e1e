import ScriptVM.Operand
import ScriptVM.Proofs.Rounding

/-!
# The order of numbers

Numbers of all kinds have exact values, which are counts of the least positive number of 64 floating bits (`Num.position`). Equality
compares these values. Order compares integers exactly as well, but an integer with a floating point number only after it has been
rounded, so that the two may lie level without being equal: the pair *blurs*.

Order is the order of the exact values wherever no pair blurs, and there it is total and agrees with equality; a pair that blurs is
neither ordered nor equal (`Num.order_total_unless_blurred`). The rounding keeps the order of integers, so it can only make numbers
level, never turn them around.
-/

namespace ScriptVM

namespace Binary

variable {x y : Double} {k : Int}

theorem isNaN_ofInt (k : Int) : (ofInt k : Double).isNaN = false := isNaN_ofMagnitude

/-- Numbers that lie level stand for the same integer, if for any. -/
theorem toInt?_congr (h : x.key = y.key) : x.toInt? = y.toInt? := by
  rcases eq_or_zero_of_key h with rfl | ⟨hx, hy⟩
  · rfl
  · rw [toInt?_zero hx, toInt?_zero hy]

/-- Doubles with one key stand for the same. -/
theorem signedUnits_congr (h : x.key = y.key) : x.signedUnits = y.signedUnits := by
  rcases eq_or_zero_of_key h with rfl | ⟨hx, hy⟩
  · rfl
  · rw [signedUnits, signedUnits, units_eq, units_eq, hx, hy]
    simp [unitsOf_zero]

/-- Infinity lies beyond all integers of 64 bits. -/
theorem int64_lt_infinity : 2 ^ 63 * FloatFormat.double.one < unitsOf .double FloatFormat.double.infinity := by
  decide +kernel

/-- A number stands for an integer of 64 bits exactly if it has its value. -/
theorem toInt?_eq_some_iff (hx : x.isNaN = false) (hk : fits64 k = true) :
    x.toInt? = some k ↔ x.signedUnits = k * FloatFormat.double.one := by
  rw [toInt?_eq_some, and_iff_right_iff_imp]
  intro hvalue
  have hle : x.magnitude ≤ FloatFormat.double.infinity := Nat.not_lt.1 (of_decide_eq_false hx)
  refine decide_eq_true (Nat.lt_of_le_of_ne hle ?_)
  intro hinfinite
  have habs : x.units = k.natAbs * FloatFormat.double.one := by
    have hcast := congrArg Int.natAbs hvalue
    rw [Int.natAbs_mul, Int.natAbs_natCast] at hcast
    rw [← hcast, signedUnits]
    split <;> simp
  rw [units_eq, hinfinite] at habs
  have hbound : k.natAbs ≤ 2 ^ 63 := by
    simp only [fits64, decide_eq_true_eq] at hk
    omega
  have := Nat.mul_le_mul_right FloatFormat.double.one hbound
  have := int64_lt_infinity
  omega

end Binary

namespace Num

variable {a b c : Num} {k l : Int}

/-! ## Exact values -/

/-- The exact value of a number, counted in the least positive number of 64 floating bits. Infinity has the value that would come
next behind the greatest finite number. -/
def position (n : Num) : Int :=
  match n.toInt? with
  | some k => k * FloatFormat.double.one
  | none => n.toDouble.signedUnits

/-- The exact value of an integer is the integer itself, in units. -/
theorem position_of_some (h : a.toInt? = some k) : a.position = k * FloatFormat.double.one := by
  rw [position, h]

/-- The exact value of any other number is that of its double. -/
theorem position_of_none (h : a.toInt? = none) : a.position = a.toDouble.signedUnits := by
  rw [position, h]

/-- The double of an integer is the integer rounded. -/
theorem toDouble_of_some (h : a.toInt? = some k) : a.toDouble = .ofInt k := by
  cases a with
  | int n =>
    cases h
    rfl
  | int64 n =>
    cases h
    rfl
  | _ => cases h

/-- The double of a number is a NaN only if the number is one. -/
theorem isNaN_toDouble_eq_false (h : a.isNaN = false) : a.toDouble.isNaN = false := by
  cases hint : a.toInt? with
  | some k =>
    rw [toDouble_of_some hint]
    exact Binary.isNaN_ofInt k
  | none => exact isNaN_toDouble h hint

/-- As a floating point number, a number lies where its value is rounded to. -/
theorem key_toDouble (h : a.isNaN = false) : a.toDouble.key = Binary.roundUnits .double a.position := by
  cases hint : a.toInt? with
  | some k => rw [toDouble_of_some hint, position_of_some hint, Binary.key_ofInt]
  | none => rw [position_of_none hint, Binary.key_eq_roundUnits (isNaN_toDouble h hint)]

/-- Equality is equality of values. -/
theorem numEq_iff_position (ha : a.isNaN = false) (hb : b.isNaN = false) : a.numEq b = true ↔ a.position = b.position := by
  have hone : (FloatFormat.double.one : Int) ≠ 0 := by exact_mod_cast FloatFormat.double.one_pos.ne'
  rw [numEq]
  cases hka : a.toInt? with
  | some k =>
    cases hkb : b.toInt? with
    | some l =>
      rw [position_of_some hka, position_of_some hkb, Int.mul_eq_mul_right_iff hone]
      exact beq_iff_eq
    | none =>
      rw [position_of_some hka, position_of_none hkb, eq_comm (a := k * _),
        ← Binary.toInt?_eq_some_iff (isNaN_toDouble hb hkb) (fits64_of_toInt? hka)]
      exact beq_iff_eq
  | none =>
    cases hkb : b.toInt? with
    | some l =>
      rw [position_of_none hka, position_of_some hkb,
        ← Binary.toInt?_eq_some_iff (isNaN_toDouble ha hka) (fits64_of_toInt? hkb)]
      exact beq_iff_eq
    | none =>
      rw [position_of_none hka, position_of_none hkb]
      refine Binary.numEq_iff.trans ⟨fun h => Binary.signedUnits_congr h.2.2, fun h => ?_⟩
      exact ⟨isNaN_toDouble ha hka, isNaN_toDouble hb hkb, Binary.key_eq_of_signedUnits h⟩

/-! ## Pairs that blur -/

/-- The first number is an integer that 64 floating bits do not hold, and the second is the number that it is rounded to. -/
def RoundsTo (a b : Num) : Prop :=
  ∃ k, a.toInt? = some k ∧ b.toInt? = none ∧ (Binary.ofInt k : Double).toInt? ≠ some k ∧
    (Binary.ofInt k : Double).numEq b.toDouble = true

/-- One of the numbers is an integer that is only rounded to the other. -/
def Blurs (a b : Num) : Prop := a.RoundsTo b ∨ b.RoundsTo a

/-- Blurring has no side. -/
theorem Blurs.symm (h : a.Blurs b) : b.Blurs a := Or.symm h

/-- A number that is no integer is not rounded to another. -/
theorem not_roundsTo_of_none (h : a.toInt? = none) : ¬a.RoundsTo b := by
  rintro ⟨k, hk, -⟩
  rw [h] at hk
  cases hk

/-- Two integers do not blur. -/
theorem Blurs.mixed (h : a.Blurs b) : a.toInt? = none ∨ b.toInt? = none := by
  rcases h with ⟨k, -, hkb, -⟩ | ⟨k, -, hka, -⟩
  · exact .inr hkb
  · exact .inl hka

/-- Of two numbers both are integers, or one is not. -/
theorem mixed_or_some (a b : Num) : (a.toInt? = none ∨ b.toInt? = none) ∨ ∃ k l, a.toInt? = some k ∧ b.toInt? = some l := by
  cases a.toInt? <;> cases b.toInt? <;> simp

/-- An integer is rounded to a number if both lie level with different values. -/
theorem roundsTo_iff (hb : b.isNaN = false) (hka : a.toInt? = some k) (hkb : b.toInt? = none) :
    a.RoundsTo b ↔ a.toDouble.key = b.toDouble.key ∧ a.position ≠ b.position := by
  have hnan := isNaN_toDouble hb hkb
  have hvalue (hkey : a.toDouble.key = b.toDouble.key) : (Binary.ofInt k : Double).toInt? = some k ↔ a.position = b.position := by
    rw [toDouble_of_some hka] at hkey
    rw [Binary.toInt?_congr hkey, position_of_some hka, position_of_none hkb, eq_comm (a := k * _)]
    exact Binary.toInt?_eq_some_iff hnan (fits64_of_toInt? hka)
  constructor
  · rintro ⟨l, hl, -, hne, hlevel⟩
    obtain rfl : k = l := Option.some.inj (hka.symm.trans hl)
    have hkey : a.toDouble.key = b.toDouble.key := by
      rw [toDouble_of_some hka]
      exact (Binary.numEq_iff.1 hlevel).2.2
    exact ⟨hkey, fun h => hne ((hvalue hkey).2 h)⟩
  · rintro ⟨hkey, hne⟩
    refine ⟨k, hka, hkb, fun h => hne ((hvalue hkey).1 h), Binary.numEq_iff.2 ⟨Binary.isNaN_ofInt k, hnan, ?_⟩⟩
    rw [← toDouble_of_some hka]
    exact hkey

/-- Where one of them is no integer, two numbers blur just if their doubles are level and their exact values are not. -/
theorem blurs_iff (ha : a.isNaN = false) (hb : b.isNaN = false) (hmixed : a.toInt? = none ∨ b.toInt? = none) :
    a.Blurs b ↔ a.toDouble.key = b.toDouble.key ∧ a.position ≠ b.position := by
  unfold Blurs
  cases hka : a.toInt? with
  | some k =>
    have hkb : b.toInt? = none := by
      rcases hmixed with h | h
      · rw [hka] at h
        cases h
      · exact h
    rw [or_iff_left (not_roundsTo_of_none hkb), roundsTo_iff hb hka hkb]
  | none =>
    rw [or_iff_right (not_roundsTo_of_none hka)]
    cases hkb : b.toInt? with
    | some k => rw [roundsTo_iff ha hkb hka, eq_comm, ne_comm]
    | none =>
      refine iff_of_false (not_roundsTo_of_none hkb) ?_
      rintro ⟨hkey, hne⟩
      rw [position_of_none hka, position_of_none hkb] at hne
      exact hne (Binary.signedUnits_congr hkey)

/-! ## Order -/

/-- A map that keeps the order keeps comparisons, if it makes only equal integers level. -/
theorem compare_map {g : Int → Int} (hg : ∀ {p q : Int}, p ≤ q → g p ≤ g q) {p q : Int} (h : g p = g q → p = q) :
    compare (g p) (g q) = compare p q := by
  rcases Int.lt_trichotomy p q with hlt | rfl | hgt
  · have himage : g p < g q := Int.lt_iff_le_and_ne.2 ⟨hg (Int.le_of_lt hlt), fun he => Int.ne_of_lt hlt (h he)⟩
    rw [Int.compare_eq_lt.2 hlt, Int.compare_eq_lt.2 himage]
  · simp
  · have himage : g q < g p := Int.lt_iff_le_and_ne.2 ⟨hg (Int.le_of_lt hgt), fun he => Int.ne_of_gt hgt (h he.symm)⟩
    rw [Int.compare_eq_gt.2 hgt, Int.compare_eq_gt.2 himage]

/-- Integers are compared by their exact values. -/
theorem compare?_of_some (hka : a.toInt? = some k) (hkb : b.toInt? = some l) : a.compare? b = some (compare a.position b.position) := by
  have hone : (0 : Int) < FloatFormat.double.one := by exact_mod_cast FloatFormat.double.one_pos
  rw [compare?, hka, hkb, position_of_some hka, position_of_some hkb]
  refine congrArg some (compare_map (g := fun p => p * FloatFormat.double.one) ?_ ?_).symm
  · intro p q h
    exact Int.mul_le_mul_of_nonneg_right h (Int.le_of_lt hone)
  · intro h
    exact Int.eq_of_mul_eq_mul_right (Int.ne_of_gt hone) h

/-- The operator answers yes. -/
def Holds (op : BinaryOp) (a b : Num) : Prop := Operand.binary op (.num a) (.num b) = .bool true

/-- An order operator answers yes just if it admits how the numbers lie. -/
theorem holds_order_iff {op : OrderOp} {o : Ordering} (h : a.compare? b = some o) :
    Holds (.order op) a b ↔ Operand.admits op o = true := by
  rw [Holds, Operand.binary, Operand.order, h, Outcome.bool.injEq]
  rfl

/-- The operator that says how numbers lie. -/
def relation : Ordering → BinaryOp
  | .lt => .order .less
  | .eq => .equal
  | .gt => .order .greater

section NotNaN

variable (ha : a.isNaN = false) (hb : b.isNaN = false)

include ha hb

/-- Other numbers than two integers are compared where they are rounded to. -/
theorem compare?_of_none (hmixed : a.toInt? = none ∨ b.toInt? = none) :
    a.compare? b = some (compare a.toDouble.key b.toDouble.key) := by
  have hcompare : a.toDouble.compare? b.toDouble = some (compare a.toDouble.key b.toDouble.key) := by
    rw [Binary.compare?, isNaN_toDouble_eq_false ha, isNaN_toDouble_eq_false hb]
    rfl
  rw [compare?, ← hcompare]
  rcases hmixed with h | h
  · rw [h]
  · rw [h]
    cases a.toInt? <;> rfl

/-- The order of numbers that do not blur is the order of their values. -/
theorem compare?_of_not_blurs (h : ¬a.Blurs b) : a.compare? b = some (compare a.position b.position) := by
  rcases mixed_or_some a b with hmixed | ⟨k, l, hka, hkb⟩
  · rw [compare?_of_none ha hb hmixed, key_toDouble ha, key_toDouble hb]
    refine congrArg some (compare_map Binary.roundUnits_mono fun hlevel => ?_)
    by_contra hne
    refine h ((blurs_iff ha hb hmixed).2 ⟨?_, hne⟩)
    rw [key_toDouble ha, key_toDouble hb, hlevel]
  · exact compare?_of_some hka hkb

/-- Numbers that blur lie level, though their values are different. -/
theorem compare?_of_blurs (h : a.Blurs b) : a.compare? b = some .eq ∧ a.position ≠ b.position := by
  obtain ⟨hkey, hne⟩ := (blurs_iff ha hb h.mixed).1 h
  rw [compare?_of_none ha hb h.mixed, hkey]
  exact ⟨by simp, hne⟩

/-- Numbers that are not NaN have an order, which turns around with them. -/
theorem exists_compare? : ∃ o, a.compare? b = some o ∧ b.compare? a = some o.swap := by
  by_cases h : a.Blurs b
  · exact ⟨.eq, (compare?_of_blurs ha hb h).1, (compare?_of_blurs hb ha h.symm).1⟩
  · refine ⟨_, compare?_of_not_blurs ha hb h, ?_⟩
    rw [compare?_of_not_blurs hb ha fun h' => h h'.symm, ← Std.OrientedCmp.eq_swap]

/-- Numbers are equal just if their exact values are. -/
theorem holds_equal_iff : Holds .equal a b ↔ a.position = b.position := by
  rw [Holds, Operand.binary, Outcome.bool.injEq, ← numEq_iff_position ha hb]
  rfl

/-- At least is at most, turned around. -/
theorem holds_greaterEqual_iff : Holds (.order .greaterEqual) a b ↔ Holds (.order .lessEqual) b a := by
  obtain ⟨o, ho, hswap⟩ := exists_compare? ha hb
  rw [holds_order_iff ho, holds_order_iff hswap]
  cases o <;> decide

section Sharp

variable (h : ¬a.Blurs b)

include h

/-- Where nothing blurs, less is less of the exact values. -/
theorem holds_less_iff : Holds (.order .less) a b ↔ a.position < b.position := by
  rw [holds_order_iff (compare?_of_not_blurs ha hb h), ← Int.compare_eq_lt]
  exact beq_iff_eq

/-- Where nothing blurs, greater is greater of the exact values. -/
theorem holds_greater_iff : Holds (.order .greater) a b ↔ b.position < a.position := by
  rw [holds_order_iff (compare?_of_not_blurs ha hb h), ← Int.compare_eq_gt]
  exact beq_iff_eq

/-- Where nothing blurs, at most is at most of the exact values. -/
theorem holds_lessEqual_iff : Holds (.order .lessEqual) a b ↔ a.position ≤ b.position := by
  rw [holds_order_iff (compare?_of_not_blurs ha hb h), ← Int.not_lt, ← Int.compare_eq_gt]
  exact bne_iff_ne

/-- Of the three operators only the one holds that says how the values lie. -/
theorem holds_iff_relation {op : BinaryOp} (hop : op ∈ [BinaryOp.order .less, .equal, .order .greater]) :
    Holds op a b ↔ op = relation (compare a.position b.position) := by
  simp only [List.mem_cons, List.not_mem_nil, or_false] at hop
  rcases hop with rfl | rfl | rfl
  · rw [holds_less_iff ha hb h, ← Int.compare_eq_lt]
    cases compare a.position b.position <;> decide
  · rw [holds_equal_iff ha hb, ← Int.compare_eq_eq]
    cases compare a.position b.position <;> decide
  · rw [holds_greater_iff ha hb h, ← Int.compare_eq_gt]
    cases compare a.position b.position <;> decide

/-- Where nothing blurs, just one of less, equal and greater holds. -/
theorem existsUnique_holds : ∃! op, op ∈ [BinaryOp.order .less, .equal, .order .greater] ∧ Holds op a b := by
  have hmem : relation (compare a.position b.position) ∈ [BinaryOp.order .less, .equal, .order .greater] := by
    cases compare a.position b.position <;> decide
  refine ⟨_, ⟨hmem, (holds_iff_relation ha hb h hmem).2 rfl⟩, ?_⟩
  rintro op ⟨hop, hholds⟩
  exact (holds_iff_relation ha hb h hop).1 hholds

end Sharp

/-- Numbers that blur are neither less nor equal nor greater. -/
theorem not_holds_of_blurs (h : a.Blurs b) {op : BinaryOp} (hop : op ∈ [BinaryOp.order .less, .equal, .order .greater]) :
    ¬Holds op a b := by
  obtain ⟨hcompare, hne⟩ := compare?_of_blurs ha hb h
  simp only [List.mem_cons, List.not_mem_nil, or_false] at hop
  rcases hop with rfl | rfl | rfl
  · rw [holds_order_iff hcompare]
    decide
  · rw [holds_equal_iff ha hb]
    exact hne
  · rw [holds_order_iff hcompare]
    decide

/-- Numbers that blur are at most each other. -/
theorem holds_lessEqual_of_blurs (h : a.Blurs b) : Holds (.order .lessEqual) a b :=
  (holds_order_iff (compare?_of_blurs ha hb h).1).2 rfl

/-- Blurred or not, a number is at most another if its value is. -/
theorem holds_lessEqual_of_le (h : a.position ≤ b.position) : Holds (.order .lessEqual) a b := by
  by_cases hblurs : a.Blurs b
  · exact holds_lessEqual_of_blurs ha hb hblurs
  · exact (holds_lessEqual_iff ha hb hblurs).2 h

end NotNaN

/-- Numbers that blur include an integer beyond `2 ^ 53`. -/
theorem natAbs_lt_of_blurs (h : a.Blurs b) : ∃ k, (a.toInt? = some k ∨ b.toInt? = some k) ∧ 2 ^ 53 < k.natAbs := by
  have hlarge {k : Int} (hk : (Binary.ofInt k : Double).toInt? ≠ some k) : 2 ^ 53 < k.natAbs := by
    by_contra hle
    exact hk (Binary.toInt?_ofInt (Nat.not_lt.1 hle))
  rcases h with ⟨k, hk, -, hne, -⟩ | ⟨k, hk, -, hne, -⟩
  · exact ⟨k, .inl hk, hlarge hne⟩
  · exact ⟨k, .inr hk, hlarge hne⟩

/-- Numbers that are not NaN are totally ordered by their values, in agreement with equality, as long as they do not blur. Exactly
the pairs that blur are neither ordered nor equal, and yet each is at most the other; such a pair has an integer in it that takes more
than 53 bits. -/
theorem order_total_unless_blurred (ha : a.isNaN = false) (hb : b.isNaN = false) (hc : c.isNaN = false) :
    ((∃! op, op ∈ [BinaryOp.order .less, .equal, .order .greater] ∧ Holds op a b) ↔ ¬a.Blurs b) ∧
    ((Holds (.order .lessEqual) a b ↔ Holds (.order .less) a b ∨ Holds .equal a b) ↔ ¬a.Blurs b) ∧
    (Holds (.order .greaterEqual) a b ↔ Holds (.order .lessEqual) b a) ∧
    (¬a.Blurs b → ¬b.Blurs c → Holds (.order .lessEqual) a b → Holds (.order .lessEqual) b c → Holds (.order .lessEqual) a c) ∧
    (Holds .equal a b ↔ a.position = b.position) ∧
    (¬a.Blurs b → (Holds (.order .less) a b ↔ a.position < b.position)) ∧
    (a.Blurs b → ∃ k, (a.toInt? = some k ∨ b.toInt? = some k) ∧ 2 ^ 53 < k.natAbs) := by
  refine ⟨⟨?_, existsUnique_holds ha hb⟩, ⟨?_, ?_⟩, holds_greaterEqual_iff ha hb, ?_, holds_equal_iff ha hb,
    holds_less_iff ha hb, natAbs_lt_of_blurs⟩
  · rintro ⟨op, ⟨hmem, hholds⟩, -⟩ hblurs
    exact not_holds_of_blurs ha hb hblurs hmem hholds
  · intro hiff hblurs
    rcases hiff.1 (holds_lessEqual_of_blurs ha hb hblurs) with hless | hequal
    · exact not_holds_of_blurs ha hb hblurs (by simp) hless
    · exact not_holds_of_blurs ha hb hblurs (by simp) hequal
  · intro h
    rw [holds_lessEqual_iff ha hb h, holds_less_iff ha hb h, holds_equal_iff ha hb]
    exact Int.le_iff_lt_or_eq
  · intro hab hbc hle hle'
    rw [holds_lessEqual_iff ha hb hab] at hle
    rw [holds_lessEqual_iff hb hc hbc] at hle'
    exact holds_lessEqual_of_le ha hc (hle.trans hle')

/-- The integer `2 ^ 53 + 1` is at most the floating point number `2 ^ 53 + 2`, and this at most the integer `2 ^ 53 + 2`. -/
theorem order_total_unless_blurred_evenSample :
    (Num.int64 0x20000000000001).isNaN = false ∧ (Num.double (.ofInt 0x20000000000002)).isNaN = false ∧
    (Num.int64 0x20000000000002).isNaN = false ∧
    ¬(Num.int64 0x20000000000001).Blurs (.double (.ofInt 0x20000000000002)) ∧
    ¬(Num.double (.ofInt 0x20000000000002)).Blurs (.int64 0x20000000000002) ∧
    Holds (.order .lessEqual) (.int64 0x20000000000001) (.int64 0x20000000000002) := by
  have hb : (Num.double (.ofInt 0x20000000000002)).isNaN = false := Binary.isNaN_ofInt _
  have hab : ¬(Num.int64 0x20000000000001).Blurs (.double (.ofInt 0x20000000000002)) := by
    rintro (⟨k, hk, -, -, hlevel⟩ | ⟨k, hk, -⟩)
    · cases hk
      revert hlevel
      decide +kernel
    · cases hk
  have hbc : ¬(Num.double (.ofInt 0x20000000000002)).Blurs (.int64 0x20000000000002) := by
    rintro (⟨k, hk, -⟩ | ⟨k, hk, -, hne, -⟩)
    · cases hk
    · cases hk
      revert hne
      decide +kernel
  have hle : Holds (.order .lessEqual) (.int64 0x20000000000001) (.double (.ofInt 0x20000000000002)) := by
    simp only [Holds]
    decide +kernel
  have hle' : Holds (.order .lessEqual) (.double (.ofInt 0x20000000000002)) (.int64 0x20000000000002) := by
    simp only [Holds]
    decide +kernel
  exact ⟨rfl, hb, rfl, hab, hbc, (order_total_unless_blurred rfl hb rfl).2.2.2.1 hab hbc hle hle'⟩

/-- The integer `2 ^ 53 + 1` and the floating point number `2 ^ 53`, to which it is rounded, are not in any order and not equal; and
the integer is at most the number, which is at most the integer `2 ^ 53`. -/
theorem order_blurredSample :
    ¬Holds (.order .less) (.int64 0x20000000000001) (.double (.ofInt 0x20000000000000)) ∧
    ¬Holds .equal (.int64 0x20000000000001) (.double (.ofInt 0x20000000000000)) ∧
    ¬Holds (.order .greater) (.int64 0x20000000000001) (.double (.ofInt 0x20000000000000)) ∧
    Holds (.order .lessEqual) (.int64 0x20000000000001) (.double (.ofInt 0x20000000000000)) ∧
    Holds (.order .lessEqual) (.double (.ofInt 0x20000000000000)) (.int64 0x20000000000000) ∧
    ¬Holds (.order .lessEqual) (.int64 0x20000000000001) (.int64 0x20000000000000) := by
  simp only [Holds]
  decide +kernel

end Num

end ScriptVM
