import ScriptVM.Binary.Basic

/-!
# Arithmetic of binary floating point numbers

Each operation computes the exact result on counts of units and rounds once. A NaN operand passes through, made quiet, the
left one before the right; an operation without a value gives `Binary.invalid`.
-/

namespace ScriptVM.Binary

variable {f : FloatFormat}

/-- The NaN operand that decides the result, or the result of `op` on numbers. -/
def propagate (x y : Binary f) (op : Binary f) : Binary f :=
  if x.isNaN then x.quieten else if y.isNaN then y.quieten else op

/-- The nearest number to a whole count of units; `zeroSign` is the sign that zero gets. -/
def ofSignedUnits (zeroSign : Bool) (n : Int) : Binary f :=
  if n = 0 then zero zeroSign else round (n < 0) n.natAbs 1

/-- The sum. Two zeros of one sign keep it; any other sum that vanishes is a positive zero. -/
def add (x y : Binary f) : Binary f :=
  propagate x y <|
    if x.isInfinite then
      if y.isInfinite && x.negative != y.negative then invalid else x
    else if y.isInfinite then y
    else ofSignedUnits (x.negative && y.negative) (x.signedUnits + y.signedUnits)

/-- The difference. -/
def sub (x y : Binary f) : Binary f :=
  propagate x y (add x y.neg)

/-- The product. -/
def mul (x y : Binary f) : Binary f :=
  propagate x y <|
    let negative := x.negative != y.negative
    if x.isInfinite then if y.isZero then invalid else infinite negative
    else if y.isInfinite then if x.isZero then invalid else infinite negative
    else round negative (x.units * y.units) (f.one)

/-- The quotient. -/
def div (x y : Binary f) : Binary f :=
  propagate x y <|
    let negative := x.negative != y.negative
    if x.isInfinite then if y.isInfinite then invalid else infinite negative
    else if y.isInfinite then zero negative
    else if y.isZero then if x.isZero then invalid else infinite negative
    else round negative (x.units * f.one) y.units

/-- The remainder of the division that truncates its quotient; it has the sign of the dividend and is exact. -/
def rem (x y : Binary f) : Binary f :=
  propagate x y <|
    if x.isInfinite || y.isZero then invalid
    else if y.isInfinite then x
    else round x.negative (x.units % y.units) 1

end ScriptVM.Binary
