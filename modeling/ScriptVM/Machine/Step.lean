import ScriptVM.Instruction
import ScriptVM.Machine.Basic

/-!
# Steps of the machine

A step collects garbage if that is due, takes the next instruction of the innermost frame and executes it. The outermost
frame's return ends the run with its result.
-/

namespace ScriptVM

namespace MachineM

/-- Loads a constant; texts and errors become new objects. -/
def loadConstant : Constant → MachineM Unit
  | .null => push .null
  | .bool b => push (.bool b)
  | .num n => push (.num n)
  | .text s => do push (← onHeap (HeapM.allocText s))
  | .error message => do push (← onHeap (HeapM.allocError message none))

/-- Applies an operator to the two values on top. Equality looks into arrays and ranges; all other operators do not. -/
def binary (op : BinaryOp) : MachineM Unit := do
  let right ← pop
  let left ← pop
  let value ←
    match op with
    | .equal => onHeap (HeapM.read fun h => return .bool (← h.equal left right))
    | .notEqual => onHeap (HeapM.read fun h => return .bool (!(← h.equal left right)))
    | _ => onHeap (HeapM.binary op left right)
  push value

/-- Applies an operator to the value on top. -/
def unary (op : UnaryOp) : MachineM Unit := do
  let operand ← pop
  push (← onHeap (HeapM.unary op operand))

/-- Jumps by the kind of jump: always, or when the value popped is falsy or truthy. -/
def jumpBy (kind : JumpKind) (next : Nat) (offset : Int32) (length : Nat) : MachineM Unit :=
  match kind with
  | .forward | .loop => jump next offset length
  | .ifFalse => do
    let condition ← pop
    if ← onHeap (HeapM.read (·.truthy condition)) then return () else jump next offset length
  | .ifTrue => do
    let condition ← pop
    if ← onHeap (HeapM.read (·.truthy condition)) then jump next offset length else return ()

/-- Pairs up the values of a list, two by two. -/
def pairUp : List Value → List (Value × Value)
  | a :: b :: rest => (a, b) :: pairUp rest
  | _ => []

/-- Leaves the innermost environment for the one around it. -/
def exitScope (env : Handle) : MachineM Unit := do
  let e ← onHeap (HeapM.read (·.environment env))
  match e.parent with
  | some parent => modifyFrame fun f => { f with env := parent }
  | none => throw (.typeError "exit from the outermost scope")

/-- Replaces the value on top by an iterator over it. -/
def getIter : MachineM Unit := do
  let iterable ← pop
  match ← onHeap (HeapM.allocIterator iterable) with
  | some iterator => push iterator
  | none => throw (.typeError s!"value of type {iterable.kindName} is not iterable")

/-- Pushes what a step of an iterator yields. -/
def pushYield : Yield → MachineM Unit
  | .one value => push value
  | .two key value => do
    push key
    push value

/-- Pushes the next element of the iterator on top, or pops the iterator and jumps. -/
def iterNext (arity : UInt8) (next : Nat) (offset : Int32) (length : Nat) : MachineM Unit := do
  match ← peek with
  | .ref .iterator handle =>
    let (yielded, t) ← onHeap (HeapM.read fun h => do (← h.iterator handle).next h arity)
    match yielded with
    | some y =>
      onHeap (HeapM.setTraversal handle t)
      pushYield y
    | none =>
      let _ ← pop
      jump next offset length
  | _ => throw (.typeError "IterNext without an iterator")

/-- Binds parameters to arguments in an environment. -/
def bindParameters (env : Handle) : List (String × Value) → MachineM Unit
  | [] => return ()
  | (name, value) :: rest => do
    onHeap (HeapM.define env name value)
    bindParameters env rest

/-- Calls a function whose arguments stand above `callee`: its parameters live in an environment inside that of the
closure. -/
def callFunction (f : Closure) (callee argc : Nat) : MachineM Unit := do
  let m ← get
  if f.code.isAsync then throw (.unsupported s!"async function '{f.code.name}' cannot be called")
  if argc ≠ f.code.arity then throw (.wrongArity f.code.name f.code.arity argc)
  if m.settings.maxFrames ≤ m.frames.size then throw (.frameOverflow m.settings.maxFrames)
  let args := (m.stack.extract (callee + 1) m.stack.size).toList
  let env ← onHeap (HeapM.allocEnvironment (some f.env))
  bindParameters env (f.code.params.zip args)
  truncate (callee + 1)
  pushFrame ⟨f.code, 0, env, callee⟩

/-- Calls a native function whose arguments stand above `callee`. -/
def callNative (n : Native) (callee argc : Nat) : MachineM Unit := do
  if n.arity.any (· ≠ argc) then throw (.wrongArity n.name (n.arity.getD 0) argc)
  let args ← popMany argc
  let result ← onHeap (n.code.call args.toList)
  truncate callee
  push result

/-- Calls the value below so many arguments. -/
def callValue (argc : Nat) : MachineM Unit := do
  let m ← get
  if m.stack.size < argc + 1 then throw .stackUnderflow
  let callee := m.stack.size - (argc + 1)
  match m.stack.getD callee .null with
  | .ref .function handle => callFunction (← onHeap (HeapM.read (·.function handle))) callee argc
  | .ref .native handle => callNative (← onHeap (HeapM.read (·.native handle))) callee argc
  | other => throw (.notCallable other.kindName)

/-- Leaves the innermost frame with a result: the run ends with it, or the caller goes on with it. -/
def returnValue (result : Value) : MachineM (Option Value) := do
  let f ← frame
  modify fun m => { m with frames := m.frames.pop }
  truncate f.base
  if (← get).frames.isEmpty then return some result
  else
    push result
    return none

/-- Executes an instruction of a frame whose next instruction begins at `next`. A return leaves the frame, which is for
`step` to do. -/
def execute (f : Frame) (next : Nat) : Instruction → MachineM Unit
  | .load c => loadConstant c
  | .loadName name => do
    match ← read (·.resolve f.env name) with
    | some value => push value
    | none => throw (.undefinedName name)
  | .storeName name => do
    let value ← pop
    onHeap (HeapM.define f.env name value)
  | .setName name => do
    let value ← peek
    onHeap (HeapM.assign f.env name value)
  | .pop => do
    let value ← pop
    modify fun m => { m with lastPopped := value }
  | .binary op => binary op
  | .unary op => unary op
  | .jump kind offset => jumpBy kind next offset f.code.instructions.size
  | .enterScope => do
    let scope ← onHeap (HeapM.allocEnvironment (some f.env))
    modifyFrame fun f => { f with env := scope }
  | .exitScope => exitScope f.env
  | .buildArray count => do
    let items ← popMany count.toNat
    push (← onHeap (HeapM.allocArray items))
  | .buildMap pairs => do
    let items ← popMany (pairs.toNat * 2)
    push (← onHeap (HeapM.allocMap (pairUp items.toList)))
  | .buildRange => do
    let step ← pop
    let stop ← pop
    let start ← pop
    push (← onHeap (HeapM.buildRange start stop step))
  | .index => do
    let index ← pop
    let object ← pop
    push (← onHeap (HeapM.index object index))
  | .getMember name => do
    let object ← pop
    push (← onHeap (HeapM.member object name))
  | .getIter => getIter
  | .iterNext arity offset => iterNext arity next offset f.code.instructions.size
  | .call argc => callValue argc.toNat
  | .makeFunction p => do
    let code : Code := ⟨f.code.file, p.name, p.params, p.captures, p.isAsync, p.body.toArray⟩
    push (← onHeap (HeapM.allocRef .function (.function ⟨code, f.env⟩)))
  | .ret => return ()

/-- The instruction at the innermost frame's position, and the offset behind it. -/
def fetch (f : Frame) : MachineM (Instruction × Nat) :=
  match Instruction.decode f.code.instructions f.ip with
  | .ok (i, width) => return (i, f.ip + width)
  | .error e => throw (.bytecode e)

/-- Collects garbage if that is due. -/
def collectIfDue : MachineM Unit := modify fun m => if m.heap.shouldCollect then m.collectGarbage else m

/-- One instruction; the outermost frame's return gives the result of the run. -/
def step : MachineM (Option Value) := do
  collectIfDue
  let f ← frame
  let (i, next) ← fetch f
  modifyFrame fun f => { f with ip := next }
  match i with
  | .ret => returnValue (← pop)
  | i =>
    execute f next i
    return none

end MachineM

end ScriptVM
