import ScriptVM.Decimal.Reader
import ScriptVM.Kind
import ScriptVM.Num

/-!
# What operators do

Operators see a value as an `Operand`: its content where operators look at content, and its identity otherwise. The answer
is an `Outcome`, which the caller turns into a value of its own. An operator that cannot be applied answers with a `Fault`,
which becomes an error value; an error operand passes through arithmetic and order unchanged, the left one before the right.
-/

namespace ScriptVM

/-- A value as operators see it. -/
inductive Operand where
  | num (n : Num)
  | text (s : String)
  | bool (b : Bool)
  | null
  /-- An error value, by its message. -/
  | error (message : String)
  /-- Any other object, by its identity. -/
  | ref (kind : RefKind) (handle : Handle) (empty : Bool)
  deriving DecidableEq

/-- Why an operator cannot be applied. -/
inductive Fault where
  | cannotAdd (left right : String)
  | unsupported (symbol left right : String)
  | divisionByZero
  | moduloByZero
  | negateText
  | cannotNegate (kind : String)
  deriving DecidableEq, Repr

/-- The message of the error value that a fault becomes. -/
def Fault.message : Fault → String
  | cannotAdd left right => s!"cannot add {left} and {right}"
  | unsupported symbol left right => s!"unsupported operand types for {symbol}: {left} and {right}"
  | divisionByZero => "division by zero"
  | moduloByZero => "modulo by zero"
  | negateText => "cannot negate a non-numeric String"
  | cannotNegate kind => s!"cannot negate {kind}"

/-- The left or the right operand. -/
inductive Side where
  | left
  | right
  deriving DecidableEq, Repr

/-- The answer of an operator. -/
inductive Outcome where
  | num (n : Num)
  | bool (b : Bool)
  | text (s : String)
  | fault (f : Fault)
  /-- The named operand, unchanged. -/
  | forward (side : Side)
  deriving DecidableEq

namespace Operand

/-- The name of an operand's kind. -/
def kindName : Operand → String
  | num n => n.kindName
  | text _ => "String"
  | bool _ => "Bool"
  | null => "Null"
  | error _ => "Error"
  | ref kind .. => kind.name

/-- The number of a number or of a text that writes one. -/
def coerce? : Operand → Option Double
  | num n => some n.toDouble
  | text s => readNumber? s
  | _ => none

/-- Null, false, zeros, errors and empty texts and containers are not truthy; every other operand is. -/
def truthy : Operand → Bool
  | num n => !n.isZero
  | text s => !s.isEmpty
  | bool b => b
  | null => false
  | error _ => false
  | ref _ _ empty => !empty

/-- Equality of scalars, texts and errors by content, of other objects by identity. -/
def equal : Operand → Operand → Bool
  | num a, num b => a.numEq b
  | text a, text b => a == b
  | bool a, bool b => a == b
  | null, null => true
  | error a, error b => a == b
  | ref _ a _, ref _ b _ => a == b
  | _, _ => false

/-- Whether an operator divides. -/
def divides : ArithOp → Bool
  | .divide | .modulo => true
  | _ => false

/-- The fault of dividing by zero. -/
def zeroDivisor : ArithOp → Fault
  | .modulo => .moduloByZero
  | _ => .divisionByZero

/-- Arithmetic on two numbers. -/
def numeric (op : ArithOp) (a b : Num) : Outcome :=
  if divides op && b.isZero then .fault (zeroDivisor op) else .num (a.arith op b)

/-- Arithmetic on numbers read from texts; a whole result becomes an integer where it fits. -/
def coerced (op : ArithOp) (a b : Double) : Outcome :=
  if divides op && b.isZero then .fault (zeroDivisor op) else .num (.narrow (Num.floating op a b))

/-- The fault of operands that do not go together. -/
def mismatch (op : BinaryOp) (left right : Operand) : Outcome :=
  .fault (.unsupported op.symbol left.kindName right.kindName)

/-- Whether an operand is a text. -/
def isText : Operand → Bool
  | text _ => true
  | _ => false

/-- Arithmetic. Texts are joined by addition; otherwise a text counts as the number it writes. -/
def arith (op : ArithOp) : Operand → Operand → Outcome
  | error _, _ => .forward .left
  | _, error _ => .forward .right
  | num a, num b => numeric op a b
  | left, right =>
    if left.isText || right.isText then
      if op = .add then
        match left, right with
        | text a, text b => .text (a ++ b)
        | _, _ => .fault (.cannotAdd left.kindName right.kindName)
      else
        match left.coerce?, right.coerce? with
        | some a, some b => coerced op a b
        | _, _ => mismatch (.arith op) left right
    else mismatch (.arith op) left right

/-- What an order operator asks of the order of its operands. -/
def admits : OrderOp → Ordering → Bool
  | .less, o => o == .lt
  | .lessEqual, o => o != .gt
  | .greater, o => o == .gt
  | .greaterEqual, o => o != .lt

/-- Order of numbers and of texts; a NaN stands in no order. -/
def order (op : OrderOp) : Operand → Operand → Outcome
  | error _, _ => .forward .left
  | _, error _ => .forward .right
  | num a, num b => .bool ((a.compare? b).any (admits op))
  | text a, text b => .bool (admits op (compare a b))
  | left, right => mismatch (.order op) left right

/-- The answer of an operator on two operands. -/
def binary : BinaryOp → Operand → Operand → Outcome
  | .arith op, left, right => arith op left right
  | .equal, left, right => .bool (left.equal right)
  | .notEqual, left, right => .bool (!left.equal right)
  | .order op, left, right => order op left right

/-- Negation. A text that writes a number is negated as one. -/
def negate : Operand → Outcome
  | num n => .num n.negate
  | error _ => .forward .left
  | text s =>
    match readNumber? s with
    | some x => .num (.narrow x.neg)
    | none => .fault .negateText
  | other => .fault (.cannotNegate other.kindName)

/-- The answer of an operator on one operand. -/
def unary : UnaryOp → Operand → Outcome
  | .negate, x => x.negate
  | .not, x => .bool (!x.truthy)

end Operand

end ScriptVM
