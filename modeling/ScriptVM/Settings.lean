/-!
# Settings of a machine

The limits of a machine have defaults, and are read from and written as JSON. Settings are read from a JSON object with a
member for each limit, in any order. A missing member leaves the default, an unknown one is skipped, and a known one may
stand once. A limit is a whole number of at most 64 bits, written without fraction and exponent; the limit of objects may
also be null. An array of the limits in order is read as well, and may end early. Writing gives an object of all members,
one on each line.
-/

namespace ScriptVM

/-- The limits of a machine, each a number of 64 bits. -/
structure Settings where
  /-- The number of values the operand stack holds. -/
  stackCapacity : Nat := 65536
  /-- The number of calls that may be under way at once. -/
  maxFrames : Nat := 256
  /-- The number of allocations between two collections; zero for no automatic collection. -/
  gcThreshold : Nat := 1024
  /-- The number of objects that may be alive at once. -/
  maxHeapObjects : Option Nat := none
  deriving DecidableEq, Repr

namespace Json

/-- Whether a character separates tokens. -/
def isSpace (c : Char) : Bool := c == ' ' || c == '\n' || c == '\t' || c == '\r'

/-- The text without the blanks at its start. -/
def skipSpaces (cs : List Char) : List Char := cs.dropWhile isSpace

/-- The text behind a token, blanks before it ignored. -/
def expect (c : Char) (cs : List Char) : Option (List Char) :=
  match skipSpaces cs with
  | d :: rest => if c = d then some rest else none
  | [] => none

/-- The value of a hexadecimal digit. -/
def hexValue? (c : Char) : Option Nat :=
  if '0' ≤ c ∧ c ≤ '9' then some (c.toNat - '0'.toNat)
  else if 'a' ≤ c ∧ c ≤ 'f' then some (c.toNat - 'a'.toNat + 10)
  else if 'A' ≤ c ∧ c ≤ 'F' then some (c.toNat - 'A'.toNat + 10)
  else none

/-- The number of four hexadecimal digits. -/
def hexNumber? (a b c d : Char) : Option Nat :=
  return (((← hexValue? a) * 16 + (← hexValue? b)) * 16 + (← hexValue? c)) * 16 + (← hexValue? d)

/-- The character of an escape by one letter. -/
def escapedChar? (c : Char) : Option Char :=
  match c with
  | '"' => some '"'
  | '\\' => some '\\'
  | '/' => some '/'
  | 'b' => some '\x08'
  | 'f' => some '\x0c'
  | 'n' => some '\n'
  | 'r' => some '\r'
  | 't' => some '\t'
  | _ => none

/-- The text behind a string whose opening quote was read; escapes are checked for their form only. -/
def skipString : List Char → Option (List Char)
  | [] => none
  | '"' :: rest => some rest
  | '\\' :: 'u' :: a :: b :: c :: d :: rest => if (hexNumber? a b c d).isSome then skipString rest else none
  | '\\' :: c :: rest => if (escapedChar? c).isSome then skipString rest else none
  | c :: rest => if c.toNat < 0x20 then none else skipString rest

/-- Puts a character before what is read next. -/
def consChar (c : Char) (r : Option (List Char × List Char)) : Option (List Char × List Char) := r.map fun (s, rest) => (c :: s, rest)

/-- Reads a string whose opening quote was read. A code point above 16 bits is escaped as a pair of surrogates, which do
not stand alone. -/
def readString : List Char → Option (List Char × List Char)
  | [] => none
  | '"' :: rest => some ([], rest)
  | '\\' :: 'u' :: a :: b :: c :: d :: '\\' :: 'u' :: a' :: b' :: c' :: d' :: rest =>
    match hexNumber? a b c d with
    | none => none
    | some n =>
      if 0xD800 ≤ n ∧ n ≤ 0xDBFF then
        match hexNumber? a' b' c' d' with
        | none => none
        | some m =>
          if 0xDC00 ≤ m ∧ m ≤ 0xDFFF then
            consChar (.ofNat (0x10000 + (n - 0xD800) * 0x400 + (m - 0xDC00))) (readString rest)
          else none
      else if 0xDC00 ≤ n ∧ n ≤ 0xDFFF then none
      else consChar (.ofNat n) (readString ('\\' :: 'u' :: a' :: b' :: c' :: d' :: rest))
  | '\\' :: 'u' :: a :: b :: c :: d :: rest =>
    match hexNumber? a b c d with
    | none => none
    | some n => if 0xD800 ≤ n ∧ n ≤ 0xDFFF then none else consChar (.ofNat n) (readString rest)
  | '\\' :: c :: rest =>
    match escapedChar? c with
    | some e => consChar e (readString rest)
    | none => none
  | c :: rest => if c.toNat < 0x20 then none else consChar c (readString rest)

/-- The text behind one or more digits. -/
def skipDigits (cs : List Char) : Option (List Char) :=
  match cs with
  | c :: rest => if c.isDigit then some (rest.dropWhile Char.isDigit) else none
  | [] => none

/-- The text behind the whole part of a number, which has no needless zero in front. -/
def skipWhole (cs : List Char) : Option (List Char) :=
  match cs with
  | '0' :: c :: rest => if c.isDigit then none else some (c :: rest)
  | cs => skipDigits cs

/-- The text behind an optional fraction. -/
def skipFraction (cs : List Char) : Option (List Char) :=
  match cs with
  | '.' :: rest => skipDigits rest
  | cs => some cs

/-- The text behind an optional exponent. -/
def skipExponent (cs : List Char) : Option (List Char) :=
  match cs with
  | c :: rest =>
    if c == 'e' || c == 'E' then
      match rest with
      | '+' :: rest => skipDigits rest
      | '-' :: rest => skipDigits rest
      | rest => skipDigits rest
    else some (c :: rest)
  | [] => some []

/-- The text behind a number without its sign. -/
def skipNumber (cs : List Char) : Option (List Char) := do skipExponent (← skipFraction (← skipWhole cs))

mutual

/-- The text behind a value, at most `fuel` values deep and long. -/
def skipValueWithin : Nat → List Char → Option (List Char)
  | 0, _ => none
  | fuel + 1, cs =>
    match skipSpaces cs with
    | '"' :: rest => skipString rest
    | '[' :: rest =>
      match expect ']' rest with
      | some rest => some rest
      | none => skipItemsWithin fuel rest
    | '{' :: rest =>
      match expect '}' rest with
      | some rest => some rest
      | none => skipMembersWithin fuel rest
    | '-' :: rest => skipNumber rest
    | 'n' :: 'u' :: 'l' :: 'l' :: rest => some rest
    | 't' :: 'r' :: 'u' :: 'e' :: rest => some rest
    | 'f' :: 'a' :: 'l' :: 's' :: 'e' :: rest => some rest
    | rest => skipNumber rest

/-- The text behind the items of an array and its closing bracket. -/
def skipItemsWithin : Nat → List Char → Option (List Char)
  | 0, _ => none
  | fuel + 1, cs => do
    let rest ← skipValueWithin fuel cs
    match expect ',' rest with
    | some rest => skipItemsWithin fuel rest
    | none => expect ']' rest

/-- The text behind the members of an object and its closing brace. -/
def skipMembersWithin : Nat → List Char → Option (List Char)
  | 0, _ => none
  | fuel + 1, cs => do
    let rest ← expect ':' (← skipString (← expect '"' cs))
    let rest ← skipValueWithin fuel rest
    match expect ',' rest with
    | some rest => skipMembersWithin fuel rest
    | none => expect '}' rest

end

/-- The text behind a value. -/
def skipValue (cs : List Char) : Option (List Char) := skipValueWithin (2 * cs.length + 1) cs

/-- Reads a whole number of at most 64 bits. -/
def readLimit (cs : List Char) : Option (Nat × List Char) :=
  let cs := skipSpaces cs
  let digits := cs.takeWhile Char.isDigit
  let rest := cs.dropWhile Char.isDigit
  let n := digits.foldl (fun acc c => 10 * acc + (c.toNat - '0'.toNat)) 0
  if digits.isEmpty then none
  else if digits.length ≠ 1 ∧ digits.head? = some '0' then none
  else if UInt64.size ≤ n then none
  else
    match rest with
    | c :: _ => if c == '.' || c == 'e' || c == 'E' then none else some (n, rest)
    | [] => some (n, rest)

/-- Reads a whole number of at most 64 bits, or null. -/
def readOptionalLimit (cs : List Char) : Option (Option Nat × List Char) :=
  match skipSpaces cs with
  | 'n' :: 'u' :: 'l' :: 'l' :: rest => some (none, rest)
  | cs => (readLimit cs).map fun (n, rest) => (some n, rest)

end Json

namespace Settings

open Json

/-- The members of the settings. -/
inductive Member where
  | stackCapacity
  | maxFrames
  | gcThreshold
  | maxHeapObjects
  deriving DecidableEq, Repr

namespace Member

/-- The members in their order. -/
def all : List Member := [stackCapacity, maxFrames, gcThreshold, maxHeapObjects]

/-- The name of a member. -/
def name : Member → String
  | stackCapacity => "stack_capacity"
  | maxFrames => "max_frames"
  | gcThreshold => "gc_threshold"
  | maxHeapObjects => "max_heap_objects"

/-- Reads the value of a member into settings. -/
def read (s : Settings) (cs : List Char) : Member → Option (Settings × List Char)
  | stackCapacity => (readLimit cs).map fun (n, rest) => ({ s with stackCapacity := n }, rest)
  | maxFrames => (readLimit cs).map fun (n, rest) => ({ s with maxFrames := n }, rest)
  | gcThreshold => (readLimit cs).map fun (n, rest) => ({ s with gcThreshold := n }, rest)
  | maxHeapObjects => (readOptionalLimit cs).map fun (n, rest) => ({ s with maxHeapObjects := n }, rest)

/-- The written value of a member. -/
def valueText (s : Settings) : Member → String
  | stackCapacity => toString s.stackCapacity
  | maxFrames => toString s.maxFrames
  | gcThreshold => toString s.gcThreshold
  | maxHeapObjects =>
    match s.maxHeapObjects with
    | some n => toString n
    | none => "null"

end Member

/-- Reads members and the closing brace; `allowed` are the members that may still stand. -/
def readMembers (s : Settings) (allowed : List Member) : Nat → List Char → Option (Settings × List Char)
  | 0, _ => none
  | fuel + 1, cs => do
    let (key, rest) ← readString (← expect '"' cs)
    let rest ← expect ':' rest
    let (s, allowed, rest) ←
      match Member.all.find? fun m => m.name.toList == key with
      | some m => if allowed.contains m then (m.read s rest).map fun (s, rest) => (s, allowed.erase m, rest) else none
      | none => (skipValue rest).map fun rest => (s, allowed, rest)
    match expect ',' rest with
    | some rest => readMembers s allowed fuel rest
    | none => (expect '}' rest).map fun rest => (s, rest)

/-- Reads items for the given members in order, and the closing bracket. -/
def readItems (s : Settings) : List Member → List Char → Option (Settings × List Char)
  | [], _ => none
  | m :: later, cs => do
    let (s, rest) ← m.read s cs
    match expect ',' rest with
    | some rest => readItems s later rest
    | none => (expect ']' rest).map fun rest => (s, rest)

/-- Reads an object or an array. -/
def readValue (cs : List Char) : Option (Settings × List Char) :=
  match skipSpaces cs with
  | '{' :: rest =>
    match expect '}' rest with
    | some rest => some ({}, rest)
    | none => readMembers {} Member.all rest.length rest
  | '[' :: rest =>
    match expect ']' rest with
    | some rest => some ({}, rest)
    | none => readItems {} Member.all rest
  | _ => none

/-- The settings that a JSON text writes. -/
def ofJson? (text : String) : Option Settings :=
  match readValue text.toList with
  | some (s, rest) => if (skipSpaces rest).isEmpty then some s else none
  | none => none

/-- The settings as a JSON text. -/
def toJson (s : Settings) : String :=
  let lines := Member.all.map fun m => s!"  \"{m.name}\": " ++ m.valueText s
  "\x7b\n" ++ String.intercalate ",\n" lines ++ "\n\x7d"

end Settings

end ScriptVM
