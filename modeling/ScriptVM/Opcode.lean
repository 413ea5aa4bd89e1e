/-!
# Opcodes

The first byte of an instruction is its opcode, which alone determines the layout of the operands behind it.
-/

namespace ScriptVM

/-- The operations of the machine. -/
inductive Opcode where
  | loadNull
  | loadTrue
  | loadFalse
  | loadInt
  | loadInt64
  | loadFloat
  | loadDouble
  | loadString
  | loadError
  | loadName
  | storeName
  | setName
  | pop
  | add
  | subtract
  | multiply
  | divide
  | modulo
  | negate
  | not
  | equal
  | notEqual
  | less
  | lessEqual
  | greater
  | greaterEqual
  | jumpForward
  | popJumpIfFalse
  | popJumpIfTrue
  | loop
  | enterScope
  | exitScope
  | buildArray
  | buildMap
  | buildRange
  | index
  | getMember
  | getIter
  | iterNext
  | call
  | makeFunction
  | ret
  deriving DecidableEq, Repr

namespace Opcode

/-- All opcodes, each at the position that is its byte. -/
def all : List Opcode :=
  [loadNull, loadTrue, loadFalse, loadInt, loadInt64, loadFloat, loadDouble, loadString, loadError, loadName, storeName,
    setName, pop, add, subtract, multiply, divide, modulo, negate, not, equal, notEqual, less, lessEqual, greater,
    greaterEqual, jumpForward, popJumpIfFalse, popJumpIfTrue, loop, enterScope, exitScope, buildArray, buildMap, buildRange,
    index, getMember, getIter, iterNext, call, makeFunction, ret]

/-- The byte of an opcode. -/
def toByte (op : Opcode) : UInt8 := UInt8.ofNat op.ctorIdx

/-- The opcode of a byte, if it is one. -/
def ofByte? (b : UInt8) : Option Opcode := all[b.toNat]?

/-- Every opcode is read back from its byte. -/
theorem ofByte?_toByte (op : Opcode) : ofByte? op.toByte = some op := by
  cases op <;> rfl

/-- The name of an opcode in listings. -/
def name : Opcode → String
  | loadNull => "LoadNull"
  | loadTrue => "LoadTrue"
  | loadFalse => "LoadFalse"
  | loadInt => "LoadInt"
  | loadInt64 => "LoadInt64"
  | loadFloat => "LoadFloat"
  | loadDouble => "LoadDouble"
  | loadString => "LoadString"
  | loadError => "LoadError"
  | loadName => "LoadName"
  | storeName => "StoreName"
  | setName => "SetName"
  | pop => "Pop"
  | add => "Add"
  | subtract => "Subtract"
  | multiply => "Multiply"
  | divide => "Divide"
  | modulo => "Modulo"
  | negate => "Negate"
  | not => "Not"
  | equal => "Equal"
  | notEqual => "NotEqual"
  | less => "Less"
  | lessEqual => "LessEqual"
  | greater => "Greater"
  | greaterEqual => "GreaterEqual"
  | jumpForward => "JumpForward"
  | popJumpIfFalse => "PopJumpIfFalse"
  | popJumpIfTrue => "PopJumpIfTrue"
  | loop => "Loop"
  | enterScope => "EnterScope"
  | exitScope => "ExitScope"
  | buildArray => "BuildArray"
  | buildMap => "BuildMap"
  | buildRange => "BuildRange"
  | index => "Index"
  | getMember => "GetMember"
  | getIter => "GetIter"
  | iterNext => "IterNext"
  | call => "Call"
  | makeFunction => "MakeFunction"
  | ret => "Return"

end Opcode

end ScriptVM
