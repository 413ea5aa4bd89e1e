import ScriptVM.Heap.Collect
import ScriptVM.Heap.Environment
import ScriptVM.Native

/-!
# The machine

A machine runs code on a stack of operands. Each call under way has a frame: its code, how far it has come, its innermost
environment, and where its operands begin. The machine's globals, frames, operands and the value last discarded are the
roots of a collection.
-/

namespace ScriptVM

/-- A call under way. -/
structure Frame where
  code : Code
  /-- The offset of the next instruction. -/
  ip : Nat
  /-- The innermost environment. -/
  env : Handle
  /-- The number of operands below the frame; the function called is the first one of the frame. -/
  base : Nat
  deriving DecidableEq, Repr

/-- A rule that looks names up in place of the environments. -/
abbrev Resolver := Heap → Handle → String → Option Value

/-- A machine between two instructions. -/
structure Machine where
  stack : Array Value := #[]
  /-- The calls under way, the innermost last. -/
  frames : Array Frame := #[]
  heap : Heap
  /-- The outermost environment. -/
  globals : Handle
  resolver : Option Resolver := none
  /-- The value that was discarded last. -/
  lastPopped : Value := .null
  settings : Settings

/-- A part of a machine's work. A failure ends the run, and keeps what was done before it. -/
abbrev MachineM := EStateM RuntimeError Machine

/-- A resolver that takes names from a list; a name that is not listed is looked up as usual, or is undefined. -/
def Resolver.ofList (bindings : List (String × Value)) (fallback : Bool) : Resolver := fun heap env name =>
  match bindings.lookup name with
  | some v => some v
  | none => if fallback then (heap.lookup env name).toOption.join else none

namespace Machine

/-- The handles from which a machine can still reach objects. -/
def roots (m : Machine) : List Handle :=
  m.stack.toList.filterMap Value.handle? ++ m.frames.toList.map Frame.env ++ m.globals :: m.lastPopped.handle?.toList

/-- The machine after a collection. -/
def collectGarbage (m : Machine) : Machine := { m with heap := m.heap.collect m.roots }

/-- The value of a global name. -/
def global? (m : Machine) (name : String) : Option Value := (m.heap.lookup m.globals name).toOption.join

/-- The value of a name in an environment, by the resolver if there is one. -/
def resolve (m : Machine) (env : Handle) (name : String) : Except RuntimeError (Option Value) :=
  match m.resolver with
  | some resolver => .ok (resolver m.heap env name)
  | none => m.heap.lookup env name

end Machine

namespace MachineM

/-- An operation on the machine's heap. -/
def onHeap {α : Type} (x : HeapM α) : MachineM α
  | ⟨stack, frames, heap, globals, resolver, lastPopped, settings⟩ =>
    match x heap with
    | .ok a heap => .ok a ⟨stack, frames, heap, globals, resolver, lastPopped, settings⟩
    | .error e heap => .error e ⟨stack, frames, heap, globals, resolver, lastPopped, settings⟩

/-- An operation that only looks at the machine. -/
def read {α : Type} (f : Machine → Except RuntimeError α) : MachineM α := fun m =>
  match f m with
  | .ok a => .ok a m
  | .error e => .error e m

/-- Pushes a value, unless the stack is full. -/
def push (v : Value) : MachineM Unit := fun m =>
  if m.settings.stackCapacity ≤ m.stack.size then .error (.stackOverflow m.settings.stackCapacity) m
  else .ok () { m with stack := m.stack.push v }

/-- Pops a value. -/
def pop : MachineM Value := fun m =>
  match m.stack.back? with
  | some v => .ok v { m with stack := m.stack.pop }
  | none => .error .stackUnderflow m

/-- The value on top. -/
def peek : MachineM Value := read fun m =>
  match m.stack.back? with
  | some v => .ok v
  | none => .error .stackUnderflow

/-- Pops so many values, and returns them in the order in which they were pushed. -/
def popMany (count : Nat) : MachineM (Array Value) := fun m =>
  if m.stack.size < count then .error .stackUnderflow m
  else
    let start := m.stack.size - count
    .ok (m.stack.extract start m.stack.size) { m with stack := m.stack.shrink start }

/-- Drops the values above a height. -/
def truncate (height : Nat) : MachineM Unit := modify fun m => { m with stack := m.stack.shrink height }

/-- The innermost frame. -/
def frame : MachineM Frame := read fun m =>
  match m.frames.back? with
  | some f => .ok f
  | none => .error .stackUnderflow

/-- Changes the innermost frame. -/
def modifyFrame (f : Frame → Frame) : MachineM Unit := modify fun m =>
  { m with frames := m.frames.modify (m.frames.size - 1) f }

/-- Pushes a frame. -/
def pushFrame (f : Frame) : MachineM Unit := modify fun m => { m with frames := m.frames.push f }

/-- Continues the innermost frame at an offset from `source`, which must lie in its code or at its end. -/
def jump (source : Nat) (offset : Int32) (length : Nat) : MachineM Unit :=
  let target : Int := source + offset.toInt
  if target < 0 ∨ (length : Int) < target then throw (.bytecode (.jumpOutOfBounds source target))
  else modifyFrame fun f => { f with ip := target.toNat }

end MachineM

end ScriptVM
