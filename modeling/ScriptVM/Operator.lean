/-!
# Operators

The operators of the language. Arithmetic and comparisons are evaluated on both operands; the logical operators decide by
the left operand whether the right one is evaluated.
-/

namespace ScriptVM

/-- The operators of arithmetic. -/
inductive ArithOp where
  | add
  | subtract
  | multiply
  | divide
  | modulo
  deriving DecidableEq, Repr

/-- The operators of order. -/
inductive OrderOp where
  | less
  | lessEqual
  | greater
  | greaterEqual
  deriving DecidableEq, Repr

/-- The operators on two evaluated operands. -/
inductive BinaryOp where
  | arith (op : ArithOp)
  | equal
  | notEqual
  | order (op : OrderOp)
  deriving DecidableEq, Repr

/-- The operators on one operand. -/
inductive UnaryOp where
  | negate
  | not
  deriving DecidableEq, Repr

/-- The operators that may leave their right operand unevaluated. -/
inductive LogicalOp where
  | and
  | or
  deriving DecidableEq, Repr

/-- The sign of an arithmetic operator in source text. -/
def ArithOp.symbol : ArithOp → String
  | add => "+"
  | subtract => "-"
  | multiply => "*"
  | divide => "/"
  | modulo => "%"

/-- The sign of an order operator in source text. -/
def OrderOp.symbol : OrderOp → String
  | less => "<"
  | lessEqual => "<="
  | greater => ">"
  | greaterEqual => ">="

/-- The sign of an operator in source text. -/
def BinaryOp.symbol : BinaryOp → String
  | arith op => op.symbol
  | equal => "=="
  | notEqual => "!="
  | order op => op.symbol

namespace BinaryOp

/-- All operators on two operands, in the order of their instruction bytes. -/
def all : List BinaryOp :=
  [arith .add, arith .subtract, arith .multiply, arith .divide, arith .modulo, equal, notEqual,
    order .less, order .lessEqual, order .greater, order .greaterEqual]

/-- The operator with a given sign. -/
def ofSymbol? (s : String) : Option BinaryOp := all.find? fun op => op.symbol == s

end BinaryOp

end ScriptVM
