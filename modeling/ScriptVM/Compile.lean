import ScriptVM.Constant
import ScriptVM.Fragment
import ScriptVM.Image
import ScriptVM.Scope

/-!
# Compilation

A program is compiled to instructions in one pass over its tree. Names stay names in the code; the scopes are followed only
to check declarations and to record captures.

An expression is compiled in one of two ways: for its value, which is left on the stack, or as a condition, which jumps when
the expression is as truthy as asked and falls through otherwise. Logical operators and negations in a condition become
jumps. A constant expression is loaded by one instruction, or decides a condition without being loaded.
-/

namespace ScriptVM

/-- A compilation: it follows the scopes, and fails with a cause at a span. -/
abbrev CompileM := StateT (List Scope) (Except (CompileCause × Span))

namespace Compile

/-- Fails with a cause at a span. -/
def fail {α : Type} (span : Span) (cause : CompileCause) : CompileM α := throw (cause, span)

/-- Turns an encoding error into a compile error at a span. -/
def encoding {α : Type} (span : Span) : Except EmitError α → CompileM α
  | .ok a => return a
  | .error e => fail span (.emit e)

/-- An instruction as code, its operands checked. -/
def emit (span : Span) (i : Instruction) : CompileM (List Instruction) := do
  encoding span i.check
  return [i]

/-- Refuses a count above a limit. -/
def checkCount (span : Span) (what : String) (count limit : Nat) : CompileM Unit :=
  if limit < count then fail span (.tooMany what count limit) else return ()

/-- Compiles inside a new scope, and returns the scope as it was left. -/
def inScope {α : Type} (kind : ScopeKind) (body : CompileM α) : CompileM (α × Scope) := do
  modify ({ kind } :: ·)
  let a ← body
  let scopes ← get
  set scopes.tail
  return (a, scopes.headD { kind })

/-- The kind of the innermost scope. -/
def currentKind (scopes : List Scope) : ScopeKind := (scopes.head?.map Scope.kind).getD .global

/-- Declares a name in the innermost scope; `none` declares a function. -/
def declare (span : Span) (kind : Option DeclKind) (name : String) : CompileM Unit := do
  let scopes ← get
  let scopeKind := currentKind scopes
  let allowed :=
    match kind with
    | some k => scopeKind.allows k
    | none => scopeKind.allowsFunction
  if !allowed then
    fail span (.misplacedDeclaration ((kind.map DeclKind.keyword).getD "function") scopeKind.name)
  else
    match scopes with
    | [] => fail span (.redeclaration name)
    | s :: outer =>
      match s.declare? ⟨name, kind = some .const, scopeKind = .global, span⟩ with
      | some s => set (s :: outer)
      | none => fail span (.redeclaration name)

/-- Declares a parameter in the scope of its function. -/
def declareParameter (span : Span) (name : String) : CompileM Unit := do
  let scopes ← get
  match scopes with
  | [] => fail span (.duplicateParameter name)
  | s :: outer =>
    match s.declare? ⟨name, false, false, span⟩ with
    | some s => set (s :: outer)
    | none => fail span (.duplicateParameter name)

/-- Resolves a name and records its captures; a name that is nowhere declared may be defined when the program runs. -/
def resolve (name : String) : CompileM (Option Symbol) := do
  match Scope.resolve name (← get) with
  | some (x, scopes) =>
    set scopes
    return some x
  | none => return none

/-- Records a return in the enclosing function. -/
def markReturned (span : Span) : CompileM Unit := do
  match Scope.markReturned (← get) with
  | some scopes => set scopes
  | none => fail span .returnOutsideFunction

/-- The code of a fragment in front of `beyond` bytes. -/
def place (span : Span) (beyond : Nat) (fragment : Fragment) : CompileM (List Instruction) :=
  encoding span (fragment.resolve beyond)

/-- A jump over a distance. -/
def jumpBy (span : Span) (kind : JumpKind) (distance : Int) : CompileM (List Instruction) := do
  return [.jump kind (← encoding span (jumpDistance distance))]

/-- The two ways to compile an expression: for its value, and as a condition that jumps when its truth is as asked. -/
structure Lowered where
  value : CompileM (List Instruction)
  jump : Bool → CompileM Fragment

namespace Lowered

/-- A condition that tests the value of the expression. -/
def ofValue (value : CompileM (List Instruction)) : Lowered where
  value := value
  jump sense := return Fragment.ofCode (← value) ++ [.pending (if sense then .ifTrue else .ifFalse)]

/-- A constant is loaded for its value, and decides a condition at once. -/
def ofConstant (span : Span) (c : Constant) : Lowered where
  value := emit span (.load c)
  jump sense := return if c.truthy = sense then [.pending .forward] else []

/-- A negated condition jumps on the opposite truth. -/
def not (span : Span) (operand : Lowered) : Lowered where
  value := return (← operand.value) ++ (← emit span (.unary .not))
  jump sense := operand.jump (!sense)

/-- Whether the left operand alone can decide that the truth of the whole is `sense`. -/
def decides : LogicalOp → Bool → Bool
  | .and, sense => !sense
  | .or, sense => sense

/-- A logical operator as a condition: where the left operand decides, both operands jump; otherwise the left one skips the
right one. -/
def logicalJump (span : Span) (op : LogicalOp) (left right : Lowered) (sense : Bool) : CompileM Fragment :=
  if decides op sense then do
    let first ← left.jump sense
    let second ← right.jump sense
    return first ++ second
  else do
    let skip ← left.jump (!sense)
    let second ← right.jump sense
    return Fragment.ofCode (← place span second.size skip) ++ second

/-- A logical operator for its value: a boolean that its jumps choose. -/
def logical (span : Span) (op : LogicalOp) (left right : Lowered) : Lowered where
  value := do
    let whenFalse : List Instruction := [.load (.bool false)]
    let falsy ← logicalJump span op left right false
    let whenTrue := .load (.bool true) :: (← jumpBy span .forward (codeSize whenFalse))
    return (← place span (codeSize whenTrue) falsy) ++ whenTrue ++ whenFalse
  jump := logicalJump span op left right

end Lowered

/-- A statement alone, in a scope that declares nothing. -/
def single (code : CompileM (List Instruction)) : CompileM (List Instruction) :=
  (·.1) <$> inScope .single code

/-- Statements in an environment of their own. -/
def inEnvironment (kind : ScopeKind) (statements : CompileM (List Instruction)) : CompileM (List Instruction) := do
  let (code, _) ← inScope kind statements
  return .enterScope :: code ++ [.exitScope]

/-- The three ways to compile a statement: in a list of statements, as a branch, and as the body of a loop. -/
structure LoweredStmt where
  code : CompileM (List Instruction)
  arm : CompileM (List Instruction)
  loopBody : CompileM (List Instruction)

namespace LoweredStmt

/-- A statement that is no block stands alone as a branch or body. -/
def ofCode (code : CompileM (List Instruction)) : LoweredStmt := ⟨code, single code, single code⟩

/-- A block has an environment of its own, but shares that of a loop as its body. -/
def block (statements : CompileM (List Instruction)) : LoweredStmt :=
  ⟨inEnvironment .block statements, inEnvironment .block statements, statements⟩

end LoweredStmt

/-- The instruction that binds a name in a new environment. -/
def bind (span : Span) (name : String) : CompileM (List Instruction) := do
  declare span (some .localVar) name
  emit span (.storeName name)

/-- A loop: its head decides whether to go on, its body ends with a jump back to the head. -/
def loop (span : Span) (head : Fragment) (body : List Instruction) : CompileM (List Instruction) := do
  let back ← jumpBy span .loop (-((head.size + codeSize body + Fragment.jumpWidth : Nat) : Int))
  return (← place span (codeSize body + Fragment.jumpWidth) head) ++ body ++ back

/-- A loop over an iterator on the stack. -/
def iterate (span : Span) (arity : UInt8) (body : List Instruction) : CompileM (List Instruction) := do
  let back ← jumpBy span .loop (-((Fragment.iterNextWidth + codeSize body + Fragment.jumpWidth : Nat) : Int))
  let exit ← encoding span (jumpDistance (codeSize body + Fragment.jumpWidth : Nat))
  return .iterNext arity exit :: body ++ back

/-- A choice between two codes by a condition that jumps when it does not hold. -/
def choose (span : Span) (condition : Fragment) (whenTrue whenFalse : List Instruction) : CompileM (List Instruction) := do
  let skip ← jumpBy span .forward (codeSize whenFalse)
  return (← place span (codeSize whenTrue + Fragment.jumpWidth) condition) ++ whenTrue ++ skip ++ whenFalse

/-- The name of a function without one. -/
def anonymous : String := "<anonymous>"

/-- The code that ends a function without a result. -/
def returnNull : List Instruction := [.load .null, .ret]

mutual

/-- Compiles an expression. -/
def expr (e : Expr) : Lowered :=
  match e.fold? with
  | some c => .ofConstant e.span c
  | none =>
    match e with
    | .literal span v => .ofConstant span (.ofLiteral v)
    | .name span name =>
      .ofValue do
        let _ ← resolve name
        emit span (.loadName name)
    | .unary span .not operand => .not span (expr operand)
    | .unary span .negate operand => .ofValue do return (← (expr operand).value) ++ (← emit span (.unary .negate))
    | .binary span op left right =>
      .ofValue do return (← (expr left).value) ++ (← (expr right).value) ++ (← emit span (.binary op))
    | .logical span op left right => .logical span op (expr left) (expr right)
    | .assign span (.name _ name) value =>
      .ofValue do
        match ← resolve name with
        | some x => if x.isConst then fail span (.constAssignment name)
        | none => pure ()
        return (← (expr value).value) ++ (← emit span (.setName name))
    | .assign _ target _ => .ofValue (fail target.span .invalidAssignmentTarget)
    | .call span callee arguments =>
      .ofValue do
        checkCount span "call arguments" arguments.length (UInt8.size - 1)
        let code ← (expr callee).value
        return code ++ (← values arguments) ++ (← emit span (.call (.ofNat arguments.length)))
    | .member span object name => .ofValue do return (← (expr object).value) ++ (← emit span (.getMember name))
    | .index span object index =>
      .ofValue do return (← (expr object).value) ++ (← (expr index).value) ++ (← emit span .index)
    | .array span elements =>
      .ofValue do
        checkCount span "array elements" elements.length (UInt32.size - 1)
        return (← values elements) ++ (← emit span (.buildArray (.ofNat elements.length)))
    | .map span entries =>
      .ofValue do
        checkCount span "map entries" entries.length (UInt32.size - 1)
        return (← pairs entries) ++ (← emit span (.buildMap (.ofNat entries.length)))
    | .range span start stop step =>
      .ofValue do
        let bounds := (← (expr start).value) ++ (← (expr stop).value)
        let stepCode ←
          match step with
          | some step => (expr step).value
          | none => emit span (.load (.num (.int 1)))
        return bounds ++ stepCode ++ (← emit span .buildRange)
    | .function _ decl => .ofValue (function decl)
    | .missing span => .ofValue (fail span .missingOperand)

/-- Compiles expressions for their values, from left to right. -/
def values : List Expr → CompileM (List Instruction)
  | [] => return []
  | e :: rest => return (← (expr e).value) ++ (← values rest)

/-- Compiles pairs of expressions for their values, from left to right. -/
def pairs : List (Expr × Expr) → CompileM (List Instruction)
  | [] => return []
  | (key, value) :: rest => return (← (expr key).value) ++ (← (expr value).value) ++ (← pairs rest)

/-- Compiles a function to code of its own, and the instruction that makes a closure of it. -/
def function : FunctionDecl → CompileM (List Instruction)
  | .mk span name params isAsync body => do
    let (code, scope) ← inScope .function do
      params.forM (declareParameter span)
      let code ← statements body
      return if body.getLast?.any Stmt.isReturn then code else code ++ returnNull
    emit span (.makeFunction ⟨name.getD anonymous, params, scope.captures, isAsync, encodeAll code⟩)

/-- Compiles a statement. -/
def statement : Stmt → LoweredStmt
  | .expression span e => .ofCode do return (← (expr e).value) ++ (← emit span .pop)
  | .declaration span kind name initializer =>
    .ofCode do
      let code ←
        match initializer with
        | some e => (expr e).value
        | none => if kind = .const then fail span (.missingInitializer name) else emit span (.load .null)
      declare span (some kind) name
      return code ++ (← emit span (.storeName name))
  | .block _ body => .block (statements body)
  | .branch span condition thenBranch elseBranch =>
    .ofCode do
      let test ← (expr condition).jump false
      let whenTrue ← (statement thenBranch).arm
      match elseBranch with
      | none => return (← place span (codeSize whenTrue) test) ++ whenTrue
      | some elseBranch => choose span test whenTrue (← (statement elseBranch).arm)
  | .whileLoop span condition body =>
    .ofCode do
      let test ← (expr condition).jump false
      loop span test (← inEnvironment .loop (statement body).loopBody)
  | .forIn span key value iterable body =>
    .ofCode do
      let source := (← (expr iterable).value) ++ (← emit span .getIter)
      let code ← inEnvironment .loop do
        let valueCode ← bind span value
        let keyCode ←
          match key with
          | some key => bind span key
          | none => pure []
        return valueCode ++ keyCode ++ (← (statement body).loopBody)
      return source ++ (← iterate span (if key.isSome then 2 else 1) code)
  | .ret span value =>
    .ofCode do
      markReturned span
      let code ←
        match value with
        | some e => (expr e).value
        | none => emit span (.load .null)
      return code ++ [.ret]
  | .function span decl =>
    .ofCode do
      match decl.name? with
      | none => fail span .unnamedFunction
      | some name =>
        declare span none name
        return (← function decl) ++ (← emit span (.storeName name))

/-- Compiles statements one behind the other. -/
def statements : List Stmt → CompileM (List Instruction)
  | [] => return []
  | s :: rest => return (← (statement s).code) ++ (← statements rest)

end

/-- Refuses a header text that holds a NUL. -/
def header (p : Program) : CompileM Unit := do
  encoding {} (Instruction.checkString p.path)
  encoding {} (Instruction.checkString p.name)

/-- Compiles a whole program, which ends with the result null. -/
def program (p : Program) : CompileM (List Instruction) := do
  header p
  return (← statements p.statements) ++ returnNull

end Compile

/-- The module of a program, or the first error found in it. -/
def Program.compile (p : Program) : Except CompileError Image :=
  match Compile.program p [{ kind := .global }] with
  | .ok (code, _) => .ok ⟨p.path, p.name, encodeAll code⟩
  | .error (cause, span) => .error ⟨cause, p.path, span⟩

end ScriptVM
