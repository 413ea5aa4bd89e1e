import ScriptVM.Instruction

/-!
# Code buffers

A buffer collects encoded instructions. A forward jump is written before its target is known: its distance field is
reserved as zero and filled in later, when the buffer has reached the target. A loop jumps back to a marked position.
-/

namespace ScriptVM

/-- Encoded instructions. -/
structure CodeBuffer where
  bytes : List UInt8 := []
  deriving DecidableEq, Repr

/-- The place of a reserved distance field. -/
structure PendingJump where
  field : Nat
  deriving DecidableEq, Repr

/-- A position to jump back to. -/
structure LoopLabel where
  position : Nat
  deriving DecidableEq, Repr

/-- A distance as an operand, if it fits. -/
def jumpDistance (distance : Int) : Except EmitError Int32 :=
  if fits32 distance then .ok (.ofInt distance) else .error (.jumpTooFar distance)

/-- An operation on a buffer. One that fails keeps what it did before it failed. -/
abbrev BufferM := EStateM EmitError CodeBuffer

namespace CodeBuffer

/-- The number of bytes. -/
def size (b : CodeBuffer) : Nat := b.bytes.length

/-- Whether the buffer is empty. -/
def isEmpty (b : CodeBuffer) : Bool := b.bytes.isEmpty

/-- The buffer with raw bytes behind it. -/
def append (b : CodeBuffer) (bytes : List UInt8) : CodeBuffer := ⟨b.bytes ++ bytes⟩

/-- The buffer with the bytes from a position on overwritten. -/
def overwrite (b : CodeBuffer) (position : Nat) (bytes : List UInt8) : CodeBuffer :=
  ⟨b.bytes.take position ++ bytes ++ b.bytes.drop (position + bytes.length)⟩

/-- The buffer with eight bytes from a position on overwritten by a number. -/
def overwriteNumber (b : CodeBuffer) (position value : Nat) : CodeBuffer := b.overwrite position (littleEndian 8 value)

/-- The position at the end of the buffer. -/
def label (b : CodeBuffer) : LoopLabel := ⟨b.size⟩

end CodeBuffer

namespace BufferM

/-- The outcome of a check that does not touch the buffer. -/
def check {α : Type} (x : Except EmitError α) : BufferM α := fun b =>
  match x with
  | .ok a => .ok a b
  | .error e => .error e b

/-- Appends raw bytes. -/
def append (bytes : List UInt8) : BufferM Unit := modify (·.append bytes)

/-- Appends a text and its closing NUL. -/
def appendText (s : String) : BufferM Unit := do
  check (Instruction.checkString s)
  append (textBytes s)

/-- Appends an instruction. -/
def emit (i : Instruction) : BufferM Unit := do
  check i.check
  append i.encode

/-- Appends an instruction whose last four bytes are a distance to be filled in, and returns their place. -/
def reserve (i : Instruction) : BufferM PendingJump := do
  append i.encode
  return ⟨(← get).size - 4⟩

/-- Appends a jump whose target is not yet known. -/
def emitJump (kind : JumpKind) : BufferM PendingJump := reserve (.jump kind 0)

/-- Appends an iterator step whose exit is not yet known. -/
def emitIterNext (arity : UInt8) : BufferM PendingJump := reserve (.iterNext arity 0)

/-- Leads a pending jump to the end of the buffer. -/
def patch (jump : PendingJump) : BufferM Unit := do
  let b ← get
  let distance ← check (jumpDistance ((b.size : Int) - (jump.field + 4)))
  set (b.overwrite jump.field (int32Bytes distance))

/-- Appends a jump back to a label. -/
def emitLoop (label : LoopLabel) : BufferM Unit := do
  let b ← get
  let distance ← check (jumpDistance ((label.position : Int) - (b.size + 5)))
  emit (.jump .loop distance)

end BufferM

end ScriptVM
