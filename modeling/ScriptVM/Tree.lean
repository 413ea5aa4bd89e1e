import ScriptVM.Binary.Basic
import ScriptVM.Operator

/-!
# Syntax trees

A program is a list of statements. Every node carries the span of source text it stands for, which errors report; a span
names its place by the line and the column of its start.
-/

namespace ScriptVM

/-- A stretch of source text: the offsets of its first byte and of the byte behind its last, and the line and column of its
start, both counted from one. -/
structure Span where
  start : Nat := 0
  stop : Nat := 0
  line : Nat := 0
  column : Nat := 0
  deriving DecidableEq, Repr, Inhabited

/-- The position as messages name it. -/
def Span.text (s : Span) : String := s!"line {s.line}, column {s.column}"

/-- The keywords that declare a variable. -/
inductive DeclKind where
  /-- A binding of the whole program. -/
  | var
  /-- A binding of a function, block or loop. -/
  | localVar
  /-- A binding that is never assigned, at either place. -/
  | const
  deriving DecidableEq, Repr

/-- The keyword in source text. -/
def DeclKind.keyword : DeclKind → String
  | var => "var"
  | localVar => "local"
  | const => "const"

/-- A literal of the language. -/
inductive Literal where
  | null
  | bool (b : Bool)
  | int (n : Int32)
  | int64 (n : Int64)
  | float (x : Single)
  | double (x : Double)
  | string (s : String)
  deriving DecidableEq

mutual

/-- An expression. -/
inductive Expr where
  | literal (span : Span) (value : Literal)
  | name (span : Span) (name : String)
  | unary (span : Span) (op : UnaryOp) (operand : Expr)
  | binary (span : Span) (op : BinaryOp) (left right : Expr)
  | logical (span : Span) (op : LogicalOp) (left right : Expr)
  | assign (span : Span) (target value : Expr)
  | call (span : Span) (callee : Expr) (arguments : List Expr)
  | member (span : Span) (object : Expr) (name : String)
  | index (span : Span) (object index : Expr)
  | array (span : Span) (elements : List Expr)
  | map (span : Span) (entries : List (Expr × Expr))
  | range (span : Span) (start stop : Expr) (step : Option Expr)
  | function (span : Span) (decl : FunctionDecl)
  /-- The place where an operand was expected and none was found. -/
  | missing (span : Span)

/-- A statement. -/
inductive Stmt where
  | expression (span : Span) (expr : Expr)
  | declaration (span : Span) (kind : DeclKind) (name : String) (initializer : Option Expr)
  | block (span : Span) (statements : List Stmt)
  | branch (span : Span) (condition : Expr) (thenBranch : Stmt) (elseBranch : Option Stmt)
  | whileLoop (span : Span) (condition : Expr) (body : Stmt)
  | forIn (span : Span) (key : Option String) (value : String) (iterable : Expr) (body : Stmt)
  | ret (span : Span) (value : Option Expr)
  | function (span : Span) (decl : FunctionDecl)

/-- A function with its name, if it has one, its parameters and its body. -/
inductive FunctionDecl where
  | mk (span : Span) (name : Option String) (params : List String) (isAsync : Bool) (body : List Stmt)

end

instance : Inhabited Expr := ⟨.missing {}⟩

instance : Inhabited Stmt := ⟨.block {} []⟩

instance : Inhabited FunctionDecl := ⟨.mk {} none [] false []⟩

namespace Expr

/-- The span of an expression. -/
def span : Expr → Span
  | literal s .. | name s .. | unary s .. | binary s .. | logical s .. | assign s .. | call s .. | member s ..
  | index s .. | array s .. | map s .. | range s .. | function s .. | missing s => s

/-- The expression at another span. -/
def withSpan (s : Span) : Expr → Expr
  | literal _ v => literal s v
  | name _ n => name s n
  | unary _ op e => unary s op e
  | binary _ op l r => binary s op l r
  | logical _ op l r => logical s op l r
  | assign _ t v => assign s t v
  | call _ c as => call s c as
  | member _ o n => member s o n
  | index _ o i => index s o i
  | array _ es => array s es
  | map _ ps => map s ps
  | range _ a b st => range s a b st
  | function _ d => function s d
  | missing _ => missing s

/-- The name of an expression's form in messages. -/
def describe : Expr → String
  | literal .. => "literal"
  | name .. => "name"
  | unary .. => "unary expression"
  | binary .. => "binary expression"
  | logical .. => "logical expression"
  | assign .. => "assignment"
  | call .. => "call"
  | member .. => "member access"
  | index .. => "index access"
  | array .. => "array literal"
  | map .. => "map literal"
  | range .. => "range"
  | function .. => "function expression"
  | missing .. => "missing expression"

end Expr

namespace Stmt

/-- The span of a statement. -/
def span : Stmt → Span
  | expression s .. | declaration s .. | block s .. | branch s .. | whileLoop s .. | forIn s .. | ret s ..
  | function s .. => s

/-- The statement at another span. -/
def withSpan (s : Span) : Stmt → Stmt
  | expression _ e => expression s e
  | declaration _ k n i => declaration s k n i
  | block _ b => block s b
  | branch _ c t e => branch s c t e
  | whileLoop _ c b => whileLoop s c b
  | forIn _ k v i b => forIn s k v i b
  | ret _ v => ret s v
  | function _ d => function s d

/-- Whether the statement is a return. -/
def isReturn : Stmt → Bool
  | ret .. => true
  | _ => false

end Stmt

/-- The name of a function, if it has one. -/
def FunctionDecl.name? : FunctionDecl → Option String
  | mk _ name .. => name

/-- A program: where its source lies, its name, and its statements. -/
structure Program where
  path : String
  name : String
  statements : List Stmt

end ScriptVM
