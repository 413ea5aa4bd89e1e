import ScriptVM.Compile

/-!
# The scope rules

What a program must obey, stated over its tree alone. Statements stand in scopes, which are nested as the tree is; a name is visible
from its declaration on, to the end of its scope. A `Context` is the scopes around a place in the tree with the names that are
declared in them so far. The rules of an expression or a statement are the conditions under which it may stand in a context
(`Expr.Obeys`, `Stmt.Obeys`), and `Context.after` is the context behind a statement.

Operands are limited besides. What a program may not exceed is bounded over its tree too (`Program.room`): no code of the program
has more bytes, and a count above its limit has no room.
-/

namespace ScriptVM

/-! ## Contexts -/

/-- A name that was declared, and whether as a constant. -/
structure DeclaredName where
  name : String
  isConst : Bool
  deriving DecidableEq

/-- A scope with the names that are declared in it so far, the last one first. -/
structure Level where
  kind : ScopeKind
  names : List DeclaredName
  deriving DecidableEq

/-- The scopes around a place in a program, the innermost first. -/
structure Context where
  innermost : Level
  outer : List Level
  deriving DecidableEq

namespace Context

variable (Γ : Context)

/-- The context of a program. -/
def global : Context := ⟨⟨.global, []⟩, []⟩

/-- All scopes around a place. -/
def levels : List Level := Γ.innermost :: Γ.outer

/-- The context inside a new scope. -/
def enter (kind : ScopeKind) : Context := ⟨⟨kind, []⟩, Γ.levels⟩

/-- The innermost scope declares a name. -/
def Declares (x : String) : Prop := ∃ d ∈ Γ.innermost.names, d.name = x

/-- The context behind a declaration. -/
def declare (x : String) (isConst : Bool) : Context := { Γ with innermost.names := ⟨x, isConst⟩ :: Γ.innermost.names }

/-- The context behind the declaration of variables. -/
def declareAll (xs : List String) : Context := xs.foldl (fun Γ x => Γ.declare x false) Γ

/-- The innermost visible declaration of a name. -/
def visible? (x : String) : Option DeclaredName := (Γ.levels.flatMap Level.names).find? (·.name == x)

/-- There is a function around the place. -/
def InFunction : Prop := ∃ l ∈ Γ.levels, l.kind = .function

/-- The context of a branch or of the body of a loop: one without braces has a scope of its own. -/
def around : Stmt → Context
  | .block .. => Γ
  | _ => Γ.enter .single

/-- The context behind a statement. -/
def after : Stmt → Context
  | .declaration _ kind x _ => Γ.declare x (kind = .const)
  | .function _ (.mk _ (some x) ..) => Γ.declare x false
  | _ => Γ

end Context

/-- Where a declaration may stand directly. -/
def DeclKind.MayStandIn : DeclKind → ScopeKind → Prop
  | .var, scope => scope = .global
  | .localVar, scope => scope = .function ∨ scope = .block ∨ scope = .loop
  | .const, scope => scope = .global ∨ scope = .function ∨ scope = .block ∨ scope = .loop

/-- A declaration may stand in a context, which does not declare the name in the same scope. -/
def Context.Admits (Γ : Context) (kind : DeclKind) (x : String) : Prop := kind.MayStandIn Γ.innermost.kind ∧ ¬Γ.Declares x

/-- What may be assigned: a name that is not visible as a constant. -/
def Expr.Assignable (Γ : Context) : Expr → Prop
  | .name _ x => ∀ d, Γ.visible? x = some d → d.isConst = false
  | _ => False

/-! ## Rules -/

mutual

/-- The rules of an expression in a context. -/
def Expr.Obeys (Γ : Context) : Expr → Prop
  | .literal .. | .name .. => True
  | .unary _ _ operand => operand.Obeys Γ
  | .binary _ _ left right | .logical _ _ left right => left.Obeys Γ ∧ right.Obeys Γ
  | .assign _ target value => target.Assignable Γ ∧ value.Obeys Γ
  | .call _ callee arguments => callee.Obeys Γ ∧ Expr.AllObey Γ arguments
  | .member _ object _ => object.Obeys Γ
  | .index _ object index => object.Obeys Γ ∧ index.Obeys Γ
  | .array _ elements => Expr.AllObey Γ elements
  | .map _ entries => Expr.PairsObey Γ entries
  | .range _ start stop none => start.Obeys Γ ∧ stop.Obeys Γ
  | .range _ start stop (some step) => start.Obeys Γ ∧ stop.Obeys Γ ∧ step.Obeys Γ
  | .function _ decl => decl.Obeys Γ
  | .missing _ => False

/-- The rules of expressions. -/
def Expr.AllObey (Γ : Context) : List Expr → Prop
  | [] => True
  | e :: rest => e.Obeys Γ ∧ Expr.AllObey Γ rest

/-- The rules of pairs of expressions. -/
def Expr.PairsObey (Γ : Context) : List (Expr × Expr) → Prop
  | [] => True
  | (key, value) :: rest => key.Obeys Γ ∧ value.Obeys Γ ∧ Expr.PairsObey Γ rest

/-- The rules of a function: its parameters are declared in its scope, each once. -/
def FunctionDecl.Obeys (Γ : Context) : FunctionDecl → Prop
  | .mk _ _ params _ body => params.Nodup ∧ Stmt.AllObey ((Γ.enter .function).declareAll params) body

/-- The rules of a statement in a context. A block opens a scope, unless it is the body of a loop and shares the scope of the loop.
A name is declared behind its initializer, but a function has its name declared before its body. -/
def Stmt.Obeys (isLoopBody : Bool) (Γ : Context) : Stmt → Prop
  | .expression _ e => e.Obeys Γ
  | .declaration _ kind x none => kind ≠ .const ∧ Γ.Admits kind x
  | .declaration _ kind x (some e) => e.Obeys Γ ∧ Γ.Admits kind x
  | .block _ body => Stmt.AllObey (if isLoopBody then Γ else Γ.enter .block) body
  | .branch _ condition thenBranch none => condition.Obeys Γ ∧ thenBranch.Obeys false (Γ.around thenBranch)
  | .branch _ condition thenBranch (some elseBranch) =>
    condition.Obeys Γ ∧ thenBranch.Obeys false (Γ.around thenBranch) ∧ elseBranch.Obeys false (Γ.around elseBranch)
  | .whileLoop _ condition body => condition.Obeys Γ ∧ body.Obeys true ((Γ.enter .loop).around body)
  | .forIn _ key value iterable body => iterable.Obeys Γ ∧ (value :: key.toList).Nodup ∧
    body.Obeys true (((Γ.enter .loop).declareAll (value :: key.toList)).around body)
  | .ret _ none => Γ.InFunction
  | .ret _ (some e) => Γ.InFunction ∧ e.Obeys Γ
  | .function _ decl => ∃ x, decl.name? = some x ∧ Γ.innermost.kind ≠ .single ∧ ¬Γ.Declares x ∧ decl.Obeys (Γ.declare x false)

/-- The rules of statements one behind the other. -/
def Stmt.AllObey (Γ : Context) : List Stmt → Prop
  | [] => True
  | s :: rest => s.Obeys false Γ ∧ Stmt.AllObey (Γ.after s) rest

end

/-- A program obeys the scope rules. -/
def Program.Obeys (p : Program) : Prop := Stmt.AllObey .global p.statements

/-! ## Texts -/

/-- The text of a literal. -/
def Literal.texts : Literal → List String
  | .string s => [s]
  | _ => []

mutual

/-- The texts in an expression: names, members and the texts of literals. -/
def Expr.texts : Expr → List String
  | .literal _ v => v.texts
  | .name _ x => [x]
  | .missing .. => []
  | .unary _ _ operand => operand.texts
  | .binary _ _ left right | .logical _ _ left right => left.texts ++ right.texts
  | .assign _ target value => target.texts ++ value.texts
  | .call _ callee arguments => callee.texts ++ Expr.allTexts arguments
  | .member _ object x => x :: object.texts
  | .index _ object index => object.texts ++ index.texts
  | .array _ elements => Expr.allTexts elements
  | .map _ entries => Expr.pairTexts entries
  | .range _ start stop none => start.texts ++ stop.texts
  | .range _ start stop (some step) => start.texts ++ stop.texts ++ step.texts
  | .function _ decl => decl.texts

/-- The texts in expressions. -/
def Expr.allTexts : List Expr → List String
  | [] => []
  | e :: rest => e.texts ++ Expr.allTexts rest

/-- The texts in pairs of expressions. -/
def Expr.pairTexts : List (Expr × Expr) → List String
  | [] => []
  | (key, value) :: rest => key.texts ++ value.texts ++ Expr.pairTexts rest

/-- The name, the parameters and the texts in the body of a function. -/
def FunctionDecl.texts : FunctionDecl → List String
  | .mk _ name params _ body => name.toList ++ params ++ Stmt.allTexts body

/-- The texts in a statement. -/
def Stmt.texts : Stmt → List String
  | .expression _ e => e.texts
  | .declaration _ _ x none => [x]
  | .declaration _ _ x (some e) => x :: e.texts
  | .ret _ none => []
  | .ret _ (some e) => e.texts
  | .block _ body => Stmt.allTexts body
  | .branch _ condition thenBranch none => condition.texts ++ thenBranch.texts
  | .branch _ condition thenBranch (some elseBranch) => condition.texts ++ thenBranch.texts ++ elseBranch.texts
  | .whileLoop _ condition body => condition.texts ++ body.texts
  | .forIn _ key value iterable body => value :: key.toList ++ iterable.texts ++ body.texts
  | .function _ decl => decl.texts

/-- The texts in statements. -/
def Stmt.allTexts : List Stmt → List String
  | [] => []
  | s :: rest => s.texts ++ Stmt.allTexts rest

end

/-- The texts in a program, with its path and its name. -/
def Program.texts (p : Program) : List String := p.path :: p.name :: Stmt.allTexts p.statements

/-! ## Operand limits -/

/-- What is counted in an operand, and the most that the operand holds. -/
def countLimits : List (String × Nat) :=
  [("call arguments", UInt8.size - 1), ("array elements", UInt32.size - 1), ("map entries", UInt32.size - 1),
    ("parameters", UInt8.size - 1), ("captures", UInt32.size - 1), ("function body bytes", UInt32.size - 1)]

/-- A count or a distance lies beyond the operand that it has to fit in. -/
def CompileCause.Oversized : CompileCause → Prop
  | .tooMany what count limit | .emit (.tooMany what count limit) => (what, limit) ∈ countLimits ∧ limit < count
  | .emit (.jumpTooFar distance) => fits32 distance = false
  | _ => False

/-! ## Sizes -/

/-- The bytes of texts. -/
def textRoom (ts : List String) : Nat := (ts.flatMap textBytes).length

/-- What a count adds to a size: nothing, or more than a jump reaches if it is above its limit. -/
def excess (limit count : Nat) : Nat := if count ≤ limit then 0 else 0x80000000

/-- The bytes of the value of a constant expression. -/
def Expr.foldedRoom (e : Expr) : Nat := (e.fold?.map fun k => (Instruction.load k).width).getD 0

mutual

/-- A bound for the bytes of the code of an expression, where the names that a function captures have at most so many bytes. -/
def Expr.room (captured : Nat) : Expr → Nat
  | .literal _ v => (Instruction.load (.ofLiteral v)).width
  | .name _ x => (Instruction.loadName x).width
  | .missing _ => 0
  | .unary s op operand => operand.room captured + 1 + (Expr.unary s op operand).foldedRoom
  | .binary s op left right => left.room captured + right.room captured + 1 + (Expr.binary s op left right).foldedRoom
  | .logical s op left right => left.room captured + right.room captured + 17 + (Expr.logical s op left right).foldedRoom
  | .assign _ target value => target.room captured + value.room captured
  | .call _ callee arguments =>
    callee.room captured + Expr.allRoom captured arguments + 2 + excess (UInt8.size - 1) arguments.length
  | .member _ object x => object.room captured + (Instruction.getMember x).width
  | .index _ object index => object.room captured + index.room captured + 1
  | .array _ elements => Expr.allRoom captured elements + 5 + excess (UInt32.size - 1) elements.length
  | .map _ entries => Expr.pairRoom captured entries + 5 + excess (UInt32.size - 1) entries.length
  | .range _ start stop none => start.room captured + stop.room captured + 6
  | .range _ start stop (some step) => start.room captured + stop.room captured + step.room captured + 1
  | .function _ decl => decl.room captured

/-- A bound for the bytes of the code of expressions. -/
def Expr.allRoom (captured : Nat) : List Expr → Nat
  | [] => 0
  | e :: rest => e.room captured + Expr.allRoom captured rest

/-- A bound for the bytes of the code of pairs of expressions. -/
def Expr.pairRoom (captured : Nat) : List (Expr × Expr) → Nat
  | [] => 0
  | (key, value) :: rest => key.room captured + value.room captured + Expr.pairRoom captured rest

/-- A bound for the bytes of the instruction that makes a function, which holds the code of its body. -/
def FunctionDecl.room (captured : Nat) : FunctionDecl → Nat
  | .mk _ name params _ body => textRoom [name.getD Compile.anonymous] + textRoom params + captured + Stmt.allRoom captured body + 13 +
    excess (UInt8.size - 1) params.length

/-- A bound for the bytes of the code of a statement. -/
def Stmt.room (captured : Nat) : Stmt → Nat
  | .expression _ e => e.room captured + 1
  | .declaration _ _ x none => 1 + (Instruction.storeName x).width
  | .declaration _ _ x (some e) => e.room captured + (Instruction.storeName x).width
  | .ret _ none => 2
  | .ret _ (some e) => e.room captured + 1
  | .block _ body => Stmt.allRoom captured body + 2
  | .branch _ condition thenBranch none => condition.room captured + 5 + thenBranch.room captured
  | .branch _ condition thenBranch (some elseBranch) =>
    condition.room captured + 5 + thenBranch.room captured + 5 + elseBranch.room captured
  | .whileLoop _ condition body => condition.room captured + 5 + body.room captured + 7
  | .forIn _ key value iterable body =>
    iterable.room captured + codeSize ((value :: key.toList).map Instruction.storeName) + body.room captured + 14
  | .function _ decl => decl.room captured + codeSize (decl.name?.toList.map Instruction.storeName)

/-- A bound for the bytes of the code of statements. -/
def Stmt.allRoom (captured : Nat) : List Stmt → Nat
  | [] => 0
  | s :: rest => s.room captured + Stmt.allRoom captured rest

end

/-- A bound for the bytes of the code of a program, where a function may capture every text of the program. -/
def Program.room (p : Program) : Nat := Stmt.allRoom (textRoom p.texts) p.statements

/-! ## Facts about contexts -/

namespace Context

variable {Γ : Context} {x y : String} {b : Bool}

/-- A declaration declares its name besides those that were declared. -/
theorem declares_declare : (Γ.declare x b).Declares y ↔ x = y ∨ Γ.Declares y := by simp [Declares, declare]

theorem not_declares_enter {kind : ScopeKind} : ¬(Γ.enter kind).Declares x := by simp [Declares, enter]

theorem outer_declareAll {xs : List String} : (Γ.declareAll xs).outer = Γ.outer := by
  induction xs generalizing Γ with
  | nil => rfl
  | cons x xs ih => exact ih

/-- A statement leaves the scopes around. -/
theorem outer_after (s : Stmt) : (Γ.after s).outer = Γ.outer := by
  unfold after
  split <;> rfl

/-- The context behind statements. -/
def afterAll (Γ : Context) (body : List Stmt) : Context := body.foldl after Γ

theorem outer_afterAll {body : List Stmt} : (Γ.afterAll body).outer = Γ.outer := by
  induction body generalizing Γ with
  | nil => rfl
  | cons s body ih => exact ih.trans (outer_after s)

end Context

/-- Only a block minds whether it is the body of a loop. -/
theorem Stmt.obeys_isLoopBody {s : Stmt} (hs : ∀ span body, s ≠ .block span body) {Γ : Context} {isLoopBody : Bool} :
    s.Obeys isLoopBody Γ ↔ s.Obeys false Γ := by
  cases s with
  | block span body => exact absurd rfl (hs span body)
  | declaration _ _ _ initializer => cases initializer <;> simp only [Stmt.Obeys]
  | branch _ _ _ elseBranch => cases elseBranch <;> simp only [Stmt.Obeys]
  | ret _ value => cases value <;> simp only [Stmt.Obeys]
  | _ => simp only [Stmt.Obeys]

/-- A branch that is no block stands in a scope of its own. -/
theorem Context.around_of_ne_block {s : Stmt} (hs : ∀ span body, s ≠ .block span body) (Γ : Context) :
    Γ.around s = Γ.enter .single := by
  cases s with
  | block span body => exact absurd rfl (hs span body)
  | _ => rfl

end ScriptVM
