import ScriptVM.Binary.Basic

/-!
# Reading decimals

A numeral is an optional sign, digits with at most one point among or around them, and an optional power of ten:
`12`, `.5`, `5.`, `-1.25e-3`. At least one digit stands beside the point, and at least one in the power. A numeral is read
as the nearest finite number of 64 bits; a numeral beyond the largest one, and every other text, is not a number.
Blanks at both ends are ignored: the characters with the Unicode property White_Space.
-/

namespace ScriptVM

namespace Text

/-- Whether a character has the Unicode property White_Space. -/
def isBlank (c : Char) : Bool :=
  let n := c.toNat
  (0x9 ≤ n && n ≤ 0xD) || n == 0x20 || n == 0x85 || n == 0xA0 || n == 0x1680 || (0x2000 ≤ n && n ≤ 0x200A) ||
    n == 0x2028 || n == 0x2029 || n == 0x202F || n == 0x205F || n == 0x3000

/-- The characters without the blanks at both ends. -/
def trim (cs : List Char) : List Char :=
  ((cs.dropWhile isBlank).reverse.dropWhile isBlank).reverse

end Text

/-- A read numeral: `± digits * 10 ^ exponent`, the digits with the most significant first. -/
structure Numeral where
  negative : Bool
  digits : List Char
  exponent : Int
  deriving DecidableEq, Repr

namespace Numeral

/-- The value of a decimal digit. -/
def digitValue (c : Char) : Nat := c.toNat - '0'.toNat

/-- The number that a list of digits writes. -/
def digitsValue (ds : List Char) : Nat := ds.foldl (fun n c => 10 * n + digitValue c) 0

/-- An optional sign, and the rest. -/
def splitSign : List Char → Bool × List Char
  | '-' :: cs => (true, cs)
  | '+' :: cs => (false, cs)
  | cs => (false, cs)

/-- The size of a power of ten. Its digits count only until they write 65536 or more, which is far outside the format; all
digits behind are ignored. -/
def powerValue (ds : List Char) : Nat := ds.foldl (fun n c => if n < 65536 then 10 * n + digitValue c else n) 0

/-- The power of ten that ends a numeral: nothing, or `e` and a signed number. -/
def readPower : List Char → Option Int
  | [] => some 0
  | c :: cs =>
    if c == 'e' || c == 'E' then
      let (negative, ds) := splitSign cs
      if ds.isEmpty || !ds.all Char.isDigit then none
      else some (if negative then -(powerValue ds : Int) else powerValue ds)
    else none

/-- The fraction and power of a numeral whose whole part is `whole`. -/
def readFraction (negative : Bool) (whole cs : List Char) : Option Numeral :=
  let (fraction, rest) :=
    match cs with
    | '.' :: cs => (cs.takeWhile Char.isDigit, cs.dropWhile Char.isDigit)
    | cs => ([], cs)
  if whole.isEmpty && fraction.isEmpty then none
  else (readPower rest).map fun power => ⟨negative, whole ++ fraction, power - fraction.length⟩

/-- Reads a numeral; `none` if the text is not one. -/
def read? (cs : List Char) : Option Numeral :=
  let (negative, cs) := splitSign cs
  readFraction negative (cs.takeWhile Char.isDigit) (cs.dropWhile Char.isDigit)

/-- The digits of a number between 0 and 1, cut to 801 of them. A number of 64 bits, and a number halfway between two
neighbours, has at most 768 digits, so behind the first 800 digits it only matters whether a digit other than zero
follows: a single `1` stands for all of those. -/
def condense (ds : List Char) : List Char :=
  let (kept, cut) := ds.splitAt 800
  if cut.all (· == '0') then kept else kept ++ ['1']

/-- The nearest number of 64 bits. A power of ten far outside the format gives zero or infinity without being computed. -/
def toDouble (n : Numeral) : Double :=
  let significant := n.digits.dropWhile (· == '0')
  -- the number is `0.significant * 10 ^ top`
  let top := n.exponent + significant.length
  if significant.isEmpty || top < -400 then .zero n.negative
  else if 400 < top then .infinite n.negative
  else
    let digits := condense significant
    let exponent := top - digits.length
    .round n.negative (digitsValue digits * Nat.pow 10 exponent.toNat * FloatFormat.double.one) (Nat.pow 10 (-exponent).toNat)

end Numeral

/-- The finite number that a text writes, blanks around it ignored. -/
def readNumber? (s : String) : Option Double :=
  ((Numeral.read? (Text.trim s.toList)).map Numeral.toDouble).filter Binary.isFinite

end ScriptVM
