import ScriptVM.Binary.Arith
import ScriptVM.Operator

/-!
# Numbers

The language has integers of 32 and 64 bits and floating point numbers of both widths. An operation on integers computes
the exact integer and takes the narrowest kind that is at least as wide as its operands and holds it; an integer beyond 64
bits becomes a floating point number. An operation on mixed kinds is done in the widest of them, in the order `Int`,
`Int64`, `Float`, `Double`.
-/

namespace ScriptVM

/-- The integers of 32 bits, as a range. -/
def fits32 (n : Int) : Bool := decide (-0x80000000 ≤ n ∧ n ≤ 0x7fffffff)

/-- The integers of 64 bits, as a range. -/
def fits64 (n : Int) : Bool := decide (-0x8000000000000000 ≤ n ∧ n ≤ 0x7fffffffffffffff)

/-- A number of the language. -/
inductive Num where
  | int (n : Int32)
  | int64 (n : Int64)
  | float (x : Single)
  | double (x : Double)
  deriving DecidableEq

namespace Num

/-- The name of a number's kind. -/
def kindName : Num → String
  | int _ => "Int"
  | int64 _ => "Int64"
  | float _ => "Float"
  | double _ => "Double"

/-- The number as one of 64 floating bits. -/
def toDouble : Num → Double
  | int n => .ofInt n.toInt
  | int64 n => .ofInt n.toInt
  | float x => x.convert .double
  | double x => x

/-- The integer of an integer number. -/
def toInt? : Num → Option Int
  | int n => some n.toInt
  | int64 n => some n.toInt
  | _ => none

/-- Whether the number is a zero of any kind. -/
def isZero : Num → Bool
  | int n => n == 0
  | int64 n => n == 0
  | float x => x.isZero
  | double x => x.isZero

/-- The narrowest integer number that holds an integer of at most 64 bits. -/
def ofInt (n : Int) : Num := if fits32 n then int (.ofInt n) else int64 (.ofInt n)

/-- A whole number of at most 32 bits becomes an integer, every other stays as it is. -/
def narrow (x : Double) : Num :=
  match x.toInt? with
  | some n => if fits32 n then int (.ofInt n) else double x
  | none => double x

/-- An arithmetic operator on integers, checked by `fits`; a quotient that does not fit leaves its remainder undefined. -/
def checked (fits : Int → Bool) (op : ArithOp) (x y : Int) : Option Int :=
  let exact :=
    match op with
    | .add => x + y
    | .subtract => x - y
    | .multiply => x * y
    | .divide | .modulo => x.tdiv y
  if fits exact then some (if op = .modulo then x.tmod y else exact) else none

/-- An arithmetic operator on floating point numbers. -/
def floating {f : FloatFormat} : ArithOp → Binary f → Binary f → Binary f
  | .add => .add
  | .subtract => .sub
  | .multiply => .mul
  | .divide => .div
  | .modulo => .rem

/-- An arithmetic operator on integers in 64 bits; a result beyond them is computed in floating point. -/
def arith64 (op : ArithOp) (x y : Int) : Num :=
  match checked fits64 op x y with
  | some n => int64 (.ofInt n)
  | none => double (floating op (.ofInt x) (.ofInt y))

/-- An arithmetic operator on two numbers, the divisor not zero. -/
def arith (op : ArithOp) : Num → Num → Num
  | int x, int y =>
    match checked fits32 op x.toInt y.toInt with
    | some n => int (.ofInt n)
    | none => arith64 op x.toInt y.toInt
  | int x, int64 y => arith64 op x.toInt y.toInt
  | int64 x, int y => arith64 op x.toInt y.toInt
  | int64 x, int64 y => arith64 op x.toInt y.toInt
  | double x, b => double (floating op x b.toDouble)
  | a, double y => double (floating op a.toDouble y)
  | a, b => float (floating op (a.toDouble.convert .single) (b.toDouble.convert .single))

/-- The number with the other sign. -/
def negate : Num → Num
  | int n => if fits32 (-n.toInt) then int (.ofInt (-n.toInt)) else int64 (.ofInt (-n.toInt))
  | int64 n => if fits64 (-n.toInt) then int64 (.ofInt (-n.toInt)) else double (Binary.ofInt n.toInt).neg
  | float x => float x.neg
  | double x => double x.neg

/-- The order of two numbers: integers exactly, all others as numbers of 64 floating bits. -/
def compare? (a b : Num) : Option Ordering :=
  match a.toInt?, b.toInt? with
  | some x, some y => some (compare x y)
  | _, _ => a.toDouble.compare? b.toDouble

/-- Equality of two numbers by value; an integer equals a floating point number only if that stands for it exactly. -/
def numEq (a b : Num) : Bool :=
  match a.toInt?, b.toInt? with
  | some x, some y => x == y
  | some x, none => b.toDouble.toInt? == some x
  | none, some y => a.toDouble.toInt? == some y
  | none, none => a.toDouble.numEq b.toDouble

end Num

end ScriptVM
