import ScriptVM.Binary.Basic

/-!
# Shortest decimals

The shortest decimal of a finite number is the decimal of fewest digits that reads back as that number; of two such
decimals the nearer one, of two equally near ones the larger. The search tries one digit, then two, and so on: at each
count only the two neighbours of the number on that decimal grid can be nearest, and both are tested against the interval
of reals that round to the number.
-/

namespace ScriptVM

/-- A positive decimal `digits * 10 ^ exponent`. -/
structure Decimal where
  digits : Nat
  exponent : Int
  deriving DecidableEq, Repr

namespace Decimal

/-- The number of decimal digits of `n`; zero has one. -/
def width (n : Nat) : Nat := (Nat.toDigits 10 n).length

/-- The exponent of the leading digit: the decimal lies in `[10 ^ d.leading, 10 ^ (d.leading + 1))`. -/
def leading (d : Decimal) : Int := d.exponent + width d.digits - 1

/-- The same decimal without trailing zeros, at most `fuel` of them removed. -/
def strip : Nat → Decimal → Decimal
  | 0, d => d
  | fuel + 1, d => if d.digits % 10 = 0 then strip fuel ⟨d.digits / 10, d.exponent + 1⟩ else d

/-- The exponent of the leading digit of the quotient `n / d` of positive numbers. -/
def leadingExponent (n d : Nat) : Int :=
  if d ≤ n then (width (n / d) : Int) - 1
  else
    let j := width (d / n)
    if d ≤ n * Nat.pow 10 (j - 1) then -((j : Int) - 1) else -(j : Int)

end Decimal

namespace Binary

variable {f : FloatFormat}

/-- The reals that round to a number, in quarter units: between `low` and `high`, the ends included where `closed`. -/
structure RoundingInterval where
  low : Nat
  high : Nat
  closed : Bool

/-- The interval of reals that round to a finite positive number. It is narrower below a power of two. -/
def roundingInterval (x : Binary f) : RoundingInterval :=
  let step := 1 <<< x.shift
  let narrow := x.significand == f.hidden && x.shift != 0
  ⟨4 * x.units - (if narrow then step else 2 * step), 4 * x.units + 2 * step, x.significand % 2 == 0⟩

/-- Whether `n / d` quarter units lie in the interval. -/
def RoundingInterval.contains (i : RoundingInterval) (n d : Nat) : Bool :=
  if i.closed then decide (i.low * d ≤ n ∧ n ≤ i.high * d) else decide (i.low * d < n ∧ n < i.high * d)

/-- The nearest decimal of `count` digits that reads back as `x`, if one does; `leading` is the exponent of its first digit. -/
def decimalOfCount? (x : Binary f) (leading : Int) (count : Nat) : Option Decimal :=
  let exponent := leading - count + 1
  -- A digit step is `num / den` quarter units.
  let num := 4 * f.one * Nat.pow 10 exponent.toNat
  let den := Nat.pow 10 (-exponent).toNat
  let value := 4 * x.units * den
  let below := value / num
  let lowHit := x.roundingInterval.contains (below * num) den
  let highHit := x.roundingInterval.contains ((below + 1) * num) den
  if lowHit && (!highHit || decide (2 * (value % num) < num)) then some ⟨below, exponent⟩
  else if highHit then some ⟨below + 1, exponent⟩
  else none

/-- The shortest decimal that reads back as the absolute value of a finite number; zero has the decimal zero. -/
def shortest (x : Binary f) : Decimal :=
  if x.isZero then ⟨0, 0⟩
  else
    let leading := Decimal.leadingExponent x.units f.one
    (((List.range 17).findSome? fun i => x.decimalOfCount? leading (i + 1)).getD ⟨0, 0⟩).strip 17

end Binary

end ScriptVM
