import ScriptVM.Image

/-!
# Listings

A listing shows a module line by line: the offset of each instruction, its text, and where it jumps to. The code of a
function is listed below the instruction that makes it, one level deeper.
-/

namespace ScriptVM

/-- Lines of a listing, and the error that ended it before its time, if there was one. -/
structure Listing where
  lines : List String
  failure : Option BytecodeError

namespace Listing

/-- The lines of both listings; nothing follows a failure. -/
def append (first : Listing) (second : Unit → Listing) : Listing :=
  match first.failure with
  | some _ => first
  | none =>
    let rest := second ()
    ⟨first.lines ++ rest.lines, rest.failure⟩

/-- The whole text of the lines. -/
def text (l : Listing) : String := String.join (l.lines.map (· ++ "\n"))

end Listing

/-- A number filled with zeros to four digits. -/
def paddedOffset (n : Nat) : String :=
  let ds := Nat.toDigits 10 n
  String.ofList (List.replicate (4 - ds.length) '0' ++ ds)

/-- Four blanks for each level. -/
def indentation (depth : Nat) : String := String.ofList (List.replicate (4 * depth) ' ')

namespace Located

/-- The line of an instruction. -/
def line (depth : Nat) (l : Located) : String :=
  indentation depth ++ paddedOffset l.offset ++ " " ++ l.instruction.text ++
    match l.instruction.target? (l.offset + l.instruction.width) with
    | some target => " (-> " ++ paddedOffset target.toNat ++ ")"
    | none => ""

end Located

/-- The lines of instructions; `nested` lists the code of a function one level deeper. -/
def listInstructions (depth : Nat) (nested : List UInt8 → Listing) : List Located → Listing
  | [] => ⟨[], none⟩
  | l :: rest =>
    let own : Listing :=
      match l.instruction with
      | .makeFunction p =>
        Listing.append ⟨[l.line depth, indentation (depth + 1) ++ s!"== {p.name} =="], none⟩ fun _ => nested p.body
      | _ => ⟨[l.line depth], none⟩
    own.append fun _ => listInstructions depth nested rest

/-- The lines of a code, functions listed through at most `fuel` levels. -/
def listLevels : Nat → Nat → List UInt8 → Listing
  | 0, _, _ => ⟨[], none⟩
  | fuel + 1, depth, code =>
    match decodeStream code with
    | .error e => ⟨[], some e⟩
    | .ok instructions => listInstructions depth (listLevels fuel (depth + 1)) instructions

/-- The lines of a code at a depth. A function's code is shorter than the code it stands in, so there are at most as many
levels as bytes. -/
def listCode (depth : Nat) (code : List UInt8) : Listing := listLevels (code.length + 1) depth code

/-- The listing of a module. -/
def listImage (bytes : List UInt8) : Except BytecodeError String := do
  let image ← Image.decode bytes
  let listing := listCode 0 image.code
  match listing.failure with
  | some e => throw e
  | none =>
    return s!"== {image.name} ({image.path}, v{Image.version}, {bytes.length} bytes) ==\n" ++ listing.text

end ScriptVM
