import ScriptVM.CodeBuffer
import ScriptVM.Stream

/-!
# Module images

A compiled module is a header and code. The header is the magic number, the version and the size of the whole image, then
the path of the source and the name of the module, each with a closing NUL. A buffer that collects an image reserves the size
as zero and fills it in at the end.
-/

namespace ScriptVM

/-- A compiled module. -/
structure Image where
  path : String
  name : String
  code : List UInt8
  deriving DecidableEq, Repr

namespace Image

/-- The number that every image begins with: the letters `VSPR`. -/
def magic : Nat := 0x52505356

/-- The version of the format. -/
def version : Nat := 1

/-- The bytes of the two texts of the header and of the code. -/
def payload (m : Image) : List UInt8 := textBytes m.path ++ textBytes m.name ++ m.code

/-- The bytes of a module. -/
def encode (m : Image) : List UInt8 :=
  littleEndian 4 magic ++ littleEndian 4 version ++ littleEndian 8 (16 + m.payload.length) ++ m.payload

/-- Reads the header of an image of the given size, and takes the rest as its code. -/
def read (length : Nat) : ReadM Image := do
  let readMagic ← ByteReader.number 4
  if readMagic ≠ magic then throw (.badMagic readMagic)
  let readVersion ← ByteReader.number 4
  let size ← ByteReader.number 8
  if size = 0 then throw .zeroSize
  if size ≠ length then throw (.sizeMismatch size length)
  if readVersion ≠ version then throw (.unsupportedVersion readVersion)
  let path ← ByteReader.text
  let name ← ByteReader.text
  return ⟨path, name, (← get).rest⟩

/-- The module that bytes write. -/
def decode (bytes : List UInt8) : Except BytecodeError Image :=
  (·.1) <$> read bytes.length ⟨bytes.toArray, 0⟩

end Image

namespace CodeBuffer

/-- The place of the size in the header of an image. -/
def sizeField : Nat := 8

/-- The buffer with its number of bytes filled in as the size in the header that it begins with. -/
def patchSize (b : CodeBuffer) : CodeBuffer := b.overwriteNumber sizeField b.size

end CodeBuffer

/-- Appends a header whose size is to be filled in. -/
def BufferM.appendHeader (path name : String) : BufferM Unit := do
  append (littleEndian 4 Image.magic ++ littleEndian 4 Image.version ++ littleEndian 8 0)
  appendText path
  appendText name

end ScriptVM
