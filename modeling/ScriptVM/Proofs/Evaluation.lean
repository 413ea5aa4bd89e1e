import ScriptVM.Constant
import ScriptVM.Machine.Run
import ScriptVM.Proofs.Arena

/-!
# Evaluation of trees

A direct evaluation of a program, by recursion on its tree and without code, operand stack or frames. It works on the objects
of the heap as the machine does, and keeps the tree of each function body beside the closure that was made of it.

An expression has a value. As a condition it has only a truth: constants decide at once, and logical operators look at their
right operand only where the left one leaves the answer open. A statement ends by going on in an environment or by returning.
Blocks, loop passes and calls have an environment each, and a block or pass is left for the environment around its own.

The evaluation is given a depth, as it need not end. `Halt.unfinished` says that the depth was not enough; it is also the
answer for trees that no compiler accepts.
-/

namespace ScriptVM

/-- Why an evaluation has no answer: the program failed, or it goes on beyond the depth given. -/
inductive Halt where
  | failed (error : RuntimeError)
  | unfinished
  deriving DecidableEq, Repr

/-- What a program can see and change. -/
structure World where
  heap : Heap
  /-- The bodies of the functions made so far, each under the slot of its closure. -/
  bodies : Nat → Option (List Stmt)
  /-- The value of the last expression statement. -/
  lastPopped : Value

/-- A part of an evaluation. A failure keeps what was done before it. -/
abbrev EvalM := EStateM Halt World

/-- How a statement ends: the next one follows in an environment, or the function returns. -/
inductive Flow where
  | next (env : Handle)
  | returned (value : Value)
  deriving DecidableEq

namespace HeapM

/-- An operator on two values. Equality looks into arrays and ranges; all other operators do not. -/
def apply (op : BinaryOp) (left right : Value) : HeapM Value :=
  match op with
  | .equal => read fun h => return .bool (← h.equal left right)
  | .notEqual => read fun h => return .bool (!(← h.equal left right))
  | _ => binary op left right

/-- Binds names to values in an environment, one after the other. -/
def defineAll (env : Handle) : List (String × Value) → HeapM Unit
  | [] => return ()
  | (name, value) :: rest => do
    define env name value
    defineAll env rest

end HeapM

/-- A function as the heap holds it when only its tree is known: without code and captures. -/
def Code.ofDecl (file : String) : FunctionDecl → Code
  | .mk _ name params isAsync _ => ⟨file, name.getD Compile.anonymous, params, [], isAsync, #[]⟩

/-- The body of a function. -/
def FunctionDecl.body : FunctionDecl → List Stmt
  | .mk _ _ _ _ body => body

namespace EvalM

/-- Ends the evaluation with an error. -/
def fail {α : Type} (e : RuntimeError) : EvalM α := throw (.failed e)

/-- An operation on the heap. -/
def onHeap {α : Type} (x : HeapM α) : EvalM α := fun w =>
  match x w.heap with
  | .ok a heap => .ok a { w with heap }
  | .error e heap => .error (.failed e) { w with heap }

/-- The value of a constant; texts and errors are new objects. -/
def constant : Constant → EvalM Value
  | .null => return .null
  | .bool b => return .bool b
  | .num n => return .num n
  | .text s => onHeap (HeapM.allocText s)
  | .error message => onHeap (HeapM.allocError message none)

/-- The value of a name. -/
def lookup (env : Handle) (name : String) : EvalM Value := do
  match ← onHeap (HeapM.read (·.lookup env name)) with
  | some value => return value
  | none => fail (.undefinedName name)

/-- A new closure, with its body beside it. -/
def makeFunction (file : String) (env : Handle) (d : FunctionDecl) : EvalM Value := fun w =>
  match HeapM.allocRef .function (.function ⟨.ofDecl file d, env⟩) w.heap with
  | .ok v heap => .ok v { w with heap, bodies := fun i => if i = w.heap.nextSlot then some d.body else w.bodies i }
  | .error e heap => .error (.failed e) { w with heap }

/-- The body of a closure. -/
def bodyOf (closure : Handle) : EvalM (List Stmt) := fun w =>
  match w.bodies closure.index.toNat with
  | some body => .ok body w
  | none => .error .unfinished w

/-- A call of a function up to its body: the arguments are checked, and bound in an environment inside that of the closure. -/
def enter (f : Closure) (args : List Value) : EvalM Handle := do
  if f.code.isAsync then fail (.unsupported s!"async function '{f.code.name}' cannot be called")
  if args.length ≠ f.code.arity then fail (.wrongArity f.code.name f.code.arity args.length)
  let env ← onHeap (HeapM.allocEnvironment (some f.env))
  onHeap (HeapM.defineAll env (f.code.params.zip args))
  return env

/-- A call of a native function. -/
def callNative (n : Native) (args : List Value) : EvalM Value := do
  if n.arity.any (· ≠ args.length) then fail (.wrongArity n.name (n.arity.getD 0) args.length)
  onHeap (n.code.call args)

/-- An iterator over a value. -/
def iteratorOf (v : Value) : EvalM Value := do
  match ← onHeap (HeapM.allocIterator v) with
  | some iterator => return iterator
  | none => fail (.typeError s!"value of type {v.kindName} is not iterable")

/-- The next pair of key and value of an iterator, which moves on, or nothing at its end. -/
def draw (iterator : Value) : EvalM (Option (Value × Value)) :=
  match iterator with
  | .ref .iterator handle => do
    let (pair, t) ← onHeap (HeapM.read fun h => do (← h.iterator handle).nextPair h)
    match pair with
    | some pair =>
      onHeap (HeapM.setTraversal handle t)
      return some pair
    | none => return none
  | _ => fail (.typeError "IterNext without an iterator")

/-- A new environment inside another. -/
def inside (env : Handle) : EvalM Handle := onHeap (HeapM.allocEnvironment (some env))

/-- The environment around another. -/
def around (env : Handle) : EvalM Handle := do
  let e ← onHeap (HeapM.read (·.environment env))
  match e.parent with
  | some parent => return parent
  | none => fail (.typeError "exit from the outermost scope")

/-- The variables of a loop in the environment of a pass, the value before its key. -/
def bindPass (env : Handle) (key : Option String) (value : String) (pair : Value × Value) : EvalM Unit := do
  onHeap (HeapM.define env value pair.2)
  match key with
  | some key => onHeap (HeapM.define env key pair.1)
  | none => return ()

end EvalM

section

open EvalM

mutual

/-- The value of an expression in an environment. -/
def evalExpr (file : String) : Nat → Handle → Expr → EvalM Value
  | 0, _, _ => throw .unfinished
  | depth + 1, env, e =>
    match e.fold? with
    | some c => constant c
    | none =>
      match e with
      | .literal _ v => constant (.ofLiteral v)
      | .name _ name => lookup env name
      | .unary _ op e => do
        let v ← evalExpr file depth env e
        onHeap (HeapM.unary op v)
      | .binary _ op l r => do
        let left ← evalExpr file depth env l
        let right ← evalExpr file depth env r
        onHeap (HeapM.apply op left right)
      | .logical .. => return .bool (← evalTruth file depth env e)
      | .assign _ (.name _ name) e => do
        let v ← evalExpr file depth env e
        onHeap (HeapM.assign env name v)
        return v
      | .assign .. => throw .unfinished
      | .call _ callee arguments => do
        let f ← evalExpr file depth env callee
        let args ← evalExprs file depth env arguments
        evalCall file depth f args
      | .member _ e name => do
        let object ← evalExpr file depth env e
        onHeap (HeapM.member object name)
      | .index _ o i => do
        let object ← evalExpr file depth env o
        let index ← evalExpr file depth env i
        onHeap (HeapM.index object index)
      | .array _ es => do
        let items ← evalExprs file depth env es
        onHeap (HeapM.allocArray items.toArray)
      | .map _ ps => do
        let entries ← evalPairs file depth env ps
        onHeap (HeapM.allocMap entries)
      | .range _ a b c => do
        let start ← evalExpr file depth env a
        let stop ← evalExpr file depth env b
        let step ←
          match c with
          | some c => evalExpr file depth env c
          | none => pure (Value.int 1)
        onHeap (HeapM.buildRange start stop step)
      | .function _ d => makeFunction file env d
      | .missing _ => throw .unfinished

/-- The values of expressions, from left to right. -/
def evalExprs (file : String) : Nat → Handle → List Expr → EvalM (List Value)
  | 0, _, _ => throw .unfinished
  | _ + 1, _, [] => return []
  | depth + 1, env, e :: es => do
    let v ← evalExpr file depth env e
    let vs ← evalExprs file depth env es
    return v :: vs

/-- The values of pairs of expressions, from left to right. -/
def evalPairs (file : String) : Nat → Handle → List (Expr × Expr) → EvalM (List (Value × Value))
  | 0, _, _ => throw .unfinished
  | _ + 1, _, [] => return []
  | depth + 1, env, (k, v) :: ps => do
    let key ← evalExpr file depth env k
    let value ← evalExpr file depth env v
    let rest ← evalPairs file depth env ps
    return (key, value) :: rest

/-- Whether an expression holds as a condition. -/
def evalTruth (file : String) : Nat → Handle → Expr → EvalM Bool
  | 0, _, _ => throw .unfinished
  | depth + 1, env, e =>
    match e.fold? with
    | some c => return c.truthy
    | none =>
      match e with
      | .unary _ .not e => return !(← evalTruth file depth env e)
      | .logical _ .and l r => do
        if ← evalTruth file depth env l then evalTruth file depth env r else return false
      | .logical _ .or l r => do
        if ← evalTruth file depth env l then return true else evalTruth file depth env r
      | e => do
        let v ← evalExpr file depth env e
        onHeap (HeapM.read (·.truthy v))

/-- The result of calling a value. A body that does not return gives null. -/
def evalCall (file : String) : Nat → Value → List Value → EvalM Value
  | 0, _, _ => throw .unfinished
  | depth + 1, .ref .function handle, args => do
    let f ← onHeap (HeapM.read (·.function handle))
    let env ← enter f args
    let body ← bodyOf handle
    match ← evalStmts file depth env body with
    | .returned v => return v
    | .next _ => return .null
  | _ + 1, .ref .native handle, args => do
    let n ← onHeap (HeapM.read (·.native handle))
    EvalM.callNative n args
  | _ + 1, other, _ => fail (.notCallable other.kindName)

/-- A statement in an environment. -/
def evalStmt (file : String) : Nat → Handle → Stmt → EvalM Flow
  | 0, _, _ => throw .unfinished
  | depth + 1, env, .expression _ e => do
    let v ← evalExpr file depth env e
    modify fun w => { w with lastPopped := v }
    return .next env
  | depth + 1, env, .declaration _ _ name init => do
    let v ←
      match init with
      | some e => evalExpr file depth env e
      | none => pure Value.null
    onHeap (HeapM.define env name v)
    return .next env
  | depth + 1, env, .block _ body => do
    let scope ← inside env
    match ← evalStmts file depth scope body with
    | .next scope => return .next (← around scope)
    | .returned v => return .returned v
  | depth + 1, env, .branch _ c t e => do
    if ← evalTruth file depth env c then evalStmt file depth env t
    else
      match e with
      | some e => evalStmt file depth env e
      | none => return .next env
  | depth + 1, env, .whileLoop s c b => do
    if ← evalTruth file depth env c then
      let scope ← inside env
      match ← evalPass file depth scope b with
      | .next scope => do
        let outer ← around scope
        evalStmt file depth outer (.whileLoop s c b)
      | .returned v => return .returned v
    else return .next env
  | depth + 1, env, .forIn _ key value e b => do
    let v ← evalExpr file depth env e
    let iterator ← iteratorOf v
    evalLoop file depth env iterator key value b
  | depth + 1, env, .ret _ value => do
    let v ←
      match value with
      | some e => evalExpr file depth env e
      | none => pure Value.null
    return .returned v
  | _ + 1, env, .function _ d => do
    match d.name? with
    | some name =>
      let v ← makeFunction file env d
      onHeap (HeapM.define env name v)
      return .next env
    | none => throw .unfinished

/-- One pass of a loop, in the environment of the pass; a block shares it. -/
def evalPass (file : String) : Nat → Handle → Stmt → EvalM Flow
  | 0, _, _ => throw .unfinished
  | depth + 1, env, .block _ body => evalStmts file depth env body
  | depth + 1, env, b => evalStmt file depth env b

/-- The passes of a loop over an iterator, until it is exhausted. -/
def evalLoop (file : String) : Nat → Handle → Value → Option String → String → Stmt → EvalM Flow
  | 0, _, _, _, _, _ => throw .unfinished
  | depth + 1, env, iterator, key, value, b => do
    match ← draw iterator with
    | some pair =>
      let scope ← inside env
      match ← (do bindPass scope key value pair; evalPass file depth scope b) with
      | .next scope => do
        let outer ← around scope
        evalLoop file depth outer iterator key value b
      | .returned v => return .returned v
    | none => return .next env

/-- Statements in order, up to the first one that returns. -/
def evalStmts (file : String) : Nat → Handle → List Stmt → EvalM Flow
  | 0, _, _ => throw .unfinished
  | _ + 1, env, [] => return .next env
  | depth + 1, env, b :: bs => do
    match ← evalStmt file depth env b with
    | .next env => evalStmts file depth env bs
    | .returned v => return .returned v

end

/-- The result of a program in an environment; a program that does not return ends with null. -/
def Program.evaluate (p : Program) (depth : Nat) (globals : Handle) : EvalM Value := do
  match ← evalStmts p.path depth globals p.statements with
  | .returned v => return v
  | .next _ => return .null

end

end ScriptVM
