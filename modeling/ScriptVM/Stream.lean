import ScriptVM.Instruction

/-!
# Instruction streams

The code of a module or function is a run of instructions without gaps. `decodeStream` lists them with their offsets, and
refuses a jump that leaves the code.
-/

namespace ScriptVM

/-- An instruction and the offset where it begins. -/
structure Located where
  offset : Nat
  instruction : Instruction
  deriving DecidableEq

/-- Where the jump of an instruction lands that ends at `stop`, if it jumps. -/
def Instruction.target? (i : Instruction) (stop : Nat) : Option Int :=
  i.jumpOffset?.map fun offset => stop + offset.toInt

/-- Refuses a jump that lands before the code or behind its end. -/
def checkTarget (i : Instruction) (start stop length : Nat) : Except BytecodeError Unit :=
  match i.target? stop with
  | some target => if target < 0 || (length : Int) < target then .error (.jumpOutOfBounds start target) else .ok ()
  | none => .ok ()

/-- The instructions from a reader on, at most `fuel` of them. -/
def decodeFrom : Nat → ByteReader → Except BytecodeError (List Located)
  | 0, r => if r.atEnd then .ok [] else .error (.truncated r.position)
  | fuel + 1, r =>
    if r.atEnd then .ok []
    else do
      let (i, next) ← Instruction.read r
      checkTarget i r.position next.position r.source.size
      let rest ← decodeFrom fuel next
      return ⟨r.position, i⟩ :: rest

/-- All instructions of a code with their offsets. An instruction has at least one byte, so there are at most as many as
bytes. -/
def decodeStream (code : List UInt8) : Except BytecodeError (List Located) :=
  decodeFrom code.length ⟨code.toArray, 0⟩

end ScriptVM
