import ScriptVM.ByteReader
import ScriptVM.Constant
import ScriptVM.Decimal.Layout
import ScriptVM.Opcode

/-!
# Instructions

An instruction is an opcode with its operands. `Instruction.encode` writes it as bytes, `Instruction.decode` reads it back
from a position of a byte string, and `Instruction.text` shows it in listings.
-/

namespace ScriptVM

/-- The jumps. Their distance is counted from the byte behind the instruction. -/
inductive JumpKind where
  | forward
  | ifFalse
  | ifTrue
  | loop
  deriving DecidableEq, Repr

/-- A function as an operand: its name, parameters and captured names, and its own instructions. -/
structure Prototype where
  name : String
  params : List String
  captures : List String
  isAsync : Bool
  body : List UInt8
  deriving DecidableEq, Repr

/-- An instruction of the machine. -/
inductive Instruction where
  /-- Push a constant. -/
  | load (c : Constant)
  /-- Push the value bound to a name. -/
  | loadName (name : String)
  /-- Pop a value and bind it in the current environment. -/
  | storeName (name : String)
  /-- Assign the top value to the nearest binding of a name, and leave it. -/
  | setName (name : String)
  | pop
  | binary (op : BinaryOp)
  | unary (op : UnaryOp)
  | jump (kind : JumpKind) (offset : Int32)
  | enterScope
  | exitScope
  | buildArray (count : UInt32)
  | buildMap (pairs : UInt32)
  | buildRange
  | index
  | getMember (name : String)
  | getIter
  /-- Push the next `arity` values of the iterator on top, or pop it and jump once it is exhausted. -/
  | iterNext (arity : UInt8) (offset : Int32)
  | call (argc : UInt8)
  | makeFunction (proto : Prototype)
  | ret
  deriving DecidableEq

/-- The opcode of a jump. -/
def JumpKind.opcode : JumpKind → Opcode
  | forward => .jumpForward
  | ifFalse => .popJumpIfFalse
  | ifTrue => .popJumpIfTrue
  | loop => .loop

/-- The opcode of an operator on two operands. -/
def BinaryOp.opcode : BinaryOp → Opcode
  | arith .add => .add
  | arith .subtract => .subtract
  | arith .multiply => .multiply
  | arith .divide => .divide
  | arith .modulo => .modulo
  | equal => .equal
  | notEqual => .notEqual
  | order .less => .less
  | order .lessEqual => .lessEqual
  | order .greater => .greater
  | order .greaterEqual => .greaterEqual

/-- The opcode of an operator on one operand. -/
def UnaryOp.opcode : UnaryOp → Opcode
  | negate => .negate
  | not => .not

/-- The opcode that loads a constant. -/
def Constant.opcode : Constant → Opcode
  | null => .loadNull
  | bool true => .loadTrue
  | bool false => .loadFalse
  | num (.int _) => .loadInt
  | num (.int64 _) => .loadInt64
  | num (.float _) => .loadFloat
  | num (.double _) => .loadDouble
  | text _ => .loadString
  | error _ => .loadError

/-- The bytes of a signed number of 32 bits. -/
def int32Bytes (n : Int32) : List UInt8 := littleEndian 4 n.toBitVec.toNat

/-- The bytes of a signed number of 64 bits. -/
def int64Bytes (n : Int64) : List UInt8 := littleEndian 8 n.toBitVec.toNat

/-- The operand bytes of a constant. -/
def Constant.operandBytes : Constant → List UInt8
  | null | bool _ => []
  | num (.int n) => int32Bytes n
  | num (.int64 n) => int64Bytes n
  | num (.float x) => littleEndian 4 x.toBits
  | num (.double x) => littleEndian 8 x.toBits
  | text s => textBytes s
  | error m => textBytes m

/-- The operand bytes of a function. -/
def Prototype.operandBytes (p : Prototype) : List UInt8 :=
  textBytes p.name ++ littleEndian 1 p.params.length ++ p.params.flatMap textBytes ++
    littleEndian 4 p.captures.length ++ p.captures.flatMap textBytes ++
    [if p.isAsync then 1 else 0] ++ littleEndian 4 p.body.length ++ p.body

namespace Instruction

/-- The opcode of an instruction. -/
def opcode : Instruction → Opcode
  | load c => c.opcode
  | loadName _ => .loadName
  | storeName _ => .storeName
  | setName _ => .setName
  | pop => .pop
  | binary op => op.opcode
  | unary op => op.opcode
  | jump kind _ => kind.opcode
  | enterScope => .enterScope
  | exitScope => .exitScope
  | buildArray _ => .buildArray
  | buildMap _ => .buildMap
  | buildRange => .buildRange
  | index => .index
  | getMember _ => .getMember
  | getIter => .getIter
  | iterNext .. => .iterNext
  | call _ => .call
  | makeFunction _ => .makeFunction
  | ret => .ret

/-- The operand bytes of an instruction. -/
def operandBytes : Instruction → List UInt8
  | load c => c.operandBytes
  | loadName s | storeName s | setName s | getMember s => textBytes s
  | jump _ offset => int32Bytes offset
  | buildArray n | buildMap n => littleEndian 4 n.toNat
  | iterNext arity offset => arity :: int32Bytes offset
  | call argc => [argc]
  | makeFunction p => p.operandBytes
  | pop | binary _ | unary _ | enterScope | exitScope | buildRange | index | getIter | ret => []

/-- The bytes of an instruction. -/
def encode (i : Instruction) : List UInt8 := i.opcode.toByte :: i.operandBytes

/-- The number of bytes of an instruction. -/
def width (i : Instruction) : Nat := i.encode.length

/-- The text operands of an instruction. -/
def strings : Instruction → List String
  | load (.text s) | load (.error s) => [s]
  | loadName s | storeName s | setName s | getMember s => [s]
  | makeFunction p => p.name :: p.params ++ p.captures
  | _ => []

/-- The distance of a jump. -/
def jumpOffset? : Instruction → Option Int32
  | jump _ offset => some offset
  | iterNext _ offset => some offset
  | _ => none

/-- Reads the operands of a function. -/
def readPrototype : ReadM Prototype := do
  let name ← ByteReader.text
  let paramCount ← ByteReader.u8
  let params ← ByteReader.texts paramCount.toNat
  let captureCount ← ByteReader.u32
  let captures ← ByteReader.texts captureCount.toNat
  let isAsync ← ByteReader.u8
  let bodyLength ← ByteReader.u32
  let body ← ByteReader.bytes bodyLength.toNat
  return ⟨name, params, captures, isAsync != 0, body⟩

/-- Reads the operands that belong to an opcode. -/
def readOperands : Opcode → ReadM Instruction
  | .loadNull => return load .null
  | .loadTrue => return load (.bool true)
  | .loadFalse => return load (.bool false)
  | .loadInt => return load (.num (.int (← ByteReader.i32)))
  | .loadInt64 => return load (.num (.int64 (← ByteReader.i64)))
  | .loadFloat => return load (.num (.float (← ByteReader.float .single)))
  | .loadDouble => return load (.num (.double (← ByteReader.float .double)))
  | .loadString => return load (.text (← ByteReader.text))
  | .loadError => return load (.error (← ByteReader.text))
  | .loadName => return loadName (← ByteReader.text)
  | .storeName => return storeName (← ByteReader.text)
  | .setName => return setName (← ByteReader.text)
  | .pop => return pop
  | .add => return binary (.arith .add)
  | .subtract => return binary (.arith .subtract)
  | .multiply => return binary (.arith .multiply)
  | .divide => return binary (.arith .divide)
  | .modulo => return binary (.arith .modulo)
  | .negate => return unary .negate
  | .not => return unary .not
  | .equal => return binary .equal
  | .notEqual => return binary .notEqual
  | .less => return binary (.order .less)
  | .lessEqual => return binary (.order .lessEqual)
  | .greater => return binary (.order .greater)
  | .greaterEqual => return binary (.order .greaterEqual)
  | .jumpForward => return jump .forward (← ByteReader.i32)
  | .popJumpIfFalse => return jump .ifFalse (← ByteReader.i32)
  | .popJumpIfTrue => return jump .ifTrue (← ByteReader.i32)
  | .loop => return jump .loop (← ByteReader.i32)
  | .enterScope => return enterScope
  | .exitScope => return exitScope
  | .buildArray => return buildArray (← ByteReader.u32)
  | .buildMap => return buildMap (← ByteReader.u32)
  | .buildRange => return buildRange
  | .index => return index
  | .getMember => return getMember (← ByteReader.text)
  | .getIter => return getIter
  | .iterNext => do
    let arity ← ByteReader.u8
    let offset ← ByteReader.i32
    return iterNext arity offset
  | .call => return call (← ByteReader.u8)
  | .makeFunction => return makeFunction (← readPrototype)
  | .ret => return ret

/-- Reads an instruction. -/
def read : ReadM Instruction := do
  let start := (← get).position
  let byte ← ByteReader.u8
  match Opcode.ofByte? byte with
  | some op => readOperands op
  | none => throw (.unknownOpcode byte start)

/-- The instruction at an offset of a byte string, and its width in bytes. -/
def decode (code : Array UInt8) (offset : Nat) : Except BytecodeError (Instruction × Nat) := do
  let (i, reader) ← read ⟨code, offset⟩
  return (i, reader.position - offset)

/-- A signed number, its sign always shown. -/
def signedText (n : Int) : String := if 0 ≤ n then s!"+{n}" else toString n

/-- The operand of a load in listings. -/
def constantText : Constant → String
  | .null | .bool _ => ""
  | .num (.int n) => " " ++ toString n.toInt
  | .num (.int64 n) => " " ++ toString n.toInt
  | .num (.float x) => " " ++ x.render .plain
  | .num (.double x) => " " ++ x.render .plain
  | .text s => " " ++ Text.quote s
  | .error m => " " ++ Text.quote m

/-- The operands of a function in listings. -/
def prototypeText (p : Prototype) : String :=
  s!" {p.name}(" ++ String.intercalate ", " p.params ++ ")" ++
    (if p.captures.isEmpty then "" else " captures [" ++ String.intercalate ", " p.captures ++ "]") ++
    (if p.isAsync then " async" else "") ++ s!" <{p.body.length} bytes>"

/-- The operands of an instruction in listings, behind a space each. -/
def operandText : Instruction → String
  | load c => constantText c
  | loadName s | storeName s | setName s | getMember s => " " ++ s
  | jump _ offset => " " ++ signedText offset.toInt
  | buildArray n | buildMap n => s!" {n.toNat}"
  | iterNext arity offset => s!" {arity.toNat} " ++ signedText offset.toInt
  | call argc => s!" {argc.toNat}"
  | makeFunction p => prototypeText p
  | pop | binary _ | unary _ | enterScope | exitScope | buildRange | index | getIter | ret => ""

/-- An instruction in listings. -/
def text (i : Instruction) : String := i.opcode.name ++ i.operandText

/-- Refuses a text operand that holds a NUL. -/
def checkString (s : String) : Except EmitError Unit :=
  if s.toList.contains '\x00' then .error (.nulInString s) else .ok ()

/-- Refuses a count above a limit. -/
def checkCount (what : String) (count limit : Nat) : Except EmitError Unit :=
  if limit < count then .error (.tooMany what count limit) else .ok ()

/-- Refuses an instruction whose operands cannot be encoded: a text with a NUL, or a count beyond its field. -/
def check (i : Instruction) : Except EmitError Unit := do
  i.strings.forM checkString
  match i with
  | makeFunction p =>
    checkCount "parameters" p.params.length (UInt8.size - 1)
    checkCount "captures" p.captures.length (UInt32.size - 1)
    checkCount "function body bytes" p.body.length (UInt32.size - 1)
  | _ => return ()

end Instruction

end ScriptVM
