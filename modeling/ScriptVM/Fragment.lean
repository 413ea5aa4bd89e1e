import ScriptVM.CodeBuffer

/-!
# Code fragments

A fragment is code with jumps that lead behind its end, to a place not yet known. Code is placed by resolving its jumps
against the number of bytes that follow it. Since every jump has the same width, resolving changes no size.
-/

namespace ScriptVM

/-- The number of bytes of a list of instructions. -/
def codeSize : List Instruction → Nat
  | [] => 0
  | i :: rest => i.width + codeSize rest

/-- The bytes of a list of instructions. -/
def encodeAll (code : List Instruction) : List UInt8 := code.flatMap Instruction.encode

/-- An instruction, or a jump that leads behind the fragment. -/
inductive FragmentItem where
  | done (i : Instruction)
  | pending (kind : JumpKind)

/-- Code with jumps that lead behind its end. -/
abbrev Fragment := List FragmentItem

namespace Fragment

/-- The number of bytes of a jump. -/
def jumpWidth : Nat := 5

/-- The number of bytes of an iterator step. -/
def iterNextWidth : Nat := 6

/-- The number of bytes of a fragment. -/
def size : Fragment → Nat
  | [] => 0
  | .done i :: rest => i.width + size rest
  | .pending _ :: rest => jumpWidth + size rest

/-- The fragment of code without pending jumps. -/
def ofCode (code : List Instruction) : Fragment := code.map .done

/-- The code of a fragment whose pending jumps lead `beyond` bytes behind its end. -/
def resolve (beyond : Nat) : Fragment → Except EmitError (List Instruction)
  | [] => .ok []
  | .done i :: rest => do return i :: (← resolve beyond rest)
  | .pending kind :: rest => do
    let distance ← jumpDistance (size rest + beyond)
    return .jump kind distance :: (← resolve beyond rest)

end Fragment

end ScriptVM
