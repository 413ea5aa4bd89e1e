import ScriptVM.Binary.Basic
import ScriptVM.Error

/-!
# Bytes of operands

Numbers are written with the least significant byte first, texts in UTF-8 with a closing NUL. A `ByteReader` is a position
in a byte string, and `ByteReader.rest` the bytes from there on; each read returns its operand and the reader behind it, or
fails with the position where the operand begins.
-/

namespace ScriptVM

/-- The `count` lowest bytes of a number, the least significant first. -/
def littleEndian : Nat → Nat → List UInt8
  | 0, _ => []
  | count + 1, n => UInt8.ofNat n :: littleEndian count (n / 256)

/-- The number that bytes write, the least significant first. -/
def ofLittleEndian : List UInt8 → Nat
  | [] => 0
  | b :: bs => b.toNat + 256 * ofLittleEndian bs

/-- The bytes of a text with its closing NUL. -/
def textBytes (s : String) : List UInt8 := s.toUTF8.data.toList ++ [0]

/-- The index of the first NUL among the `count` bytes from an index on. -/
def findNul (source : Array UInt8) : Nat → Nat → Option Nat
  | 0, _ => none
  | count + 1, i => if source[i]? = some 0 then some i else findNul source count (i + 1)

/-- A position in a byte string; it may lie behind the end, where not even an empty operand is read. -/
structure ByteReader where
  source : Array UInt8
  position : Nat

/-- A read of an operand. -/
abbrev ReadM := StateT ByteReader (Except BytecodeError)

namespace ByteReader

/-- The bytes from the position on. -/
def rest (r : ByteReader) : List UInt8 := r.source.toList.drop r.position

/-- Whether no byte is left. -/
def atEnd (r : ByteReader) : Bool := decide (r.source.size ≤ r.position)

/-- A reader is at the end when no byte is left. -/
theorem atEnd_iff (r : ByteReader) : r.atEnd = true ↔ r.rest = [] := by
  simp [atEnd, rest]

/-- The bytes behind the first ones are the rest of a reader that many bytes further. -/
theorem rest_advance {r : ByteReader} {taken tail : List UInt8} (hr : r.rest = taken ++ tail) :
    ({ r with position := r.position + taken.length } : ByteReader).rest = tail := by
  simp only [rest, ← List.drop_drop]
  exact (congrArg (List.drop taken.length) hr).trans List.drop_left

/-- Reads so many bytes. -/
def bytes (count : Nat) : ReadM (List UInt8) := fun r =>
  let stop := r.position + count
  if stop ≤ r.source.size then .ok ((r.source.extract r.position stop).toList, { r with position := stop })
  else .error (.truncated r.position)

/-- A read returns the first bytes of the rest. -/
theorem bytes_of_rest {r : ByteReader} {taken tail : List UInt8} (h : r.position ≤ r.source.size)
    (hr : r.rest = taken ++ tail) :
    bytes taken.length r = .ok (taken, { r with position := r.position + taken.length }) := by
  have hlen : r.source.size - r.position = taken.length + tail.length := by
    simpa [rest] using congrArg List.length hr
  have htake : (r.source.extract r.position (r.position + taken.length)).toList = taken := by
    rw [Array.toList_extract, List.extract_eq_take_drop, Nat.add_sub_cancel_left]
    exact (congrArg (List.take taken.length) hr).trans List.take_left
  simp only [bytes, htake]
  rw [if_pos (by omega)]

/-- Reads a number of so many bytes. -/
def number (count : Nat) : ReadM Nat := return ofLittleEndian (← bytes count)

/-- Reads a number of 8 bits. -/
def u8 : ReadM UInt8 := return UInt8.ofNat (← number 1)

/-- Reads a number of 32 bits. -/
def u32 : ReadM UInt32 := return UInt32.ofNat (← number 4)

/-- Reads a number of 64 bits. -/
def u64 : ReadM UInt64 := return UInt64.ofNat (← number 8)

/-- Reads a signed number of 32 bits. -/
def i32 : ReadM Int32 := return Int32.ofNat (← number 4)

/-- Reads a signed number of 64 bits. -/
def i64 : ReadM Int64 := return Int64.ofNat (← number 8)

/-- Reads a floating point number. -/
def float (f : FloatFormat) : ReadM (Binary f) := return Binary.ofBits f (← number f.bytes)

/-- Reads a text with its closing NUL. -/
def text : ReadM String := fun r =>
  match findNul r.source (r.source.size - r.position) r.position with
  | none => .error (.unterminatedString r.position)
  | some stop =>
    match String.fromUTF8? ⟨r.source.extract r.position stop⟩ with
    | none => .error (.invalidUtf8 r.position)
    | some s => .ok (s, { r with position := stop + 1 })

/-- Reads so many texts, one behind the other. -/
def texts : Nat → ReadM (List String)
  | 0 => return []
  | count + 1 => do
    let s ← text
    return s :: (← texts count)

end ByteReader

end ScriptVM
