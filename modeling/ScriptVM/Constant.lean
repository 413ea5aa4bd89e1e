import ScriptVM.Operand
import ScriptVM.Tree

/-!
# Constants

The values that a single instruction loads: null, booleans, numbers, texts, and errors by their message. Operators on
constants are the operators of `Operand`, the very ones the machine applies.

An expression of literals and operators alone is evaluated before the program runs: `Expr.fold?` applies these operators, so
that a folded expression is the value the machine would have computed.
-/

namespace ScriptVM

/-- The value of a constant expression. -/
inductive Constant where
  | null
  | bool (b : Bool)
  | num (n : Num)
  | text (s : String)
  /-- An operation that could not be applied, by its message. -/
  | error (message : String)
  deriving DecidableEq

namespace Constant

/-- The value of a literal. -/
def ofLiteral : Literal → Constant
  | .null => null
  | .bool b => bool b
  | .int n => num (.int n)
  | .int64 n => num (.int64 n)
  | .float x => num (.float x)
  | .double x => num (.double x)
  | .string s => text s

/-- A constant as operators see it. -/
def operand : Constant → Operand
  | null => .null
  | bool b => .bool b
  | num n => .num n
  | text s => .text s
  | error m => .error m

/-- The constant that an operator's answer stands for. -/
def ofOutcome (left right : Constant) : Outcome → Constant
  | .num n => num n
  | .bool b => bool b
  | .text s => text s
  | .fault f => error f.message
  | .forward .left => left
  | .forward .right => right

/-- Whether a condition on the constant holds. -/
def truthy (c : Constant) : Bool := c.operand.truthy

/-- An operator on one constant. -/
def unary (op : UnaryOp) (c : Constant) : Constant := ofOutcome c c (c.operand.unary op)

/-- An operator on two constants. -/
def binary (op : BinaryOp) (left right : Constant) : Constant :=
  ofOutcome left right (Operand.binary op left.operand right.operand)

/-- A logical operator on two constants. -/
def logical (op : LogicalOp) (left right : Constant) : Constant :=
  match op with
  | .and => bool (left.truthy && right.truthy)
  | .or => bool (left.truthy || right.truthy)

end Constant

/-- The value of a constant expression; `none` for an expression that depends on the run. -/
def Expr.fold? : Expr → Option Constant
  | literal _ v => some (.ofLiteral v)
  | unary _ op e => return .unary op (← e.fold?)
  | binary _ op l r => do
    let left ← l.fold?
    let right ← r.fold?
    return .binary op left right
  | logical _ op l r => do
    let left ← l.fold?
    let right ← r.fold?
    return .logical op left right
  | _ => none

end ScriptVM
