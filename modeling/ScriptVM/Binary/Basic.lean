/-!
# Binary floating point numbers

A number of a binary format is held as its sign and its magnitude, the bits below the sign bit read as a natural number.
The magnitudes are ordered as the numbers they stand for, so comparison is comparison of signed magnitudes.

A finite number is a whole count of *units*, the least positive number of its format: its value is `± units / one`, where
`one` is the count of the number one. Every exact result of an operation is a quotient of two such counts, and
`Binary.round` takes a quotient to the nearest number of the format, halves to the even neighbour.
-/

namespace ScriptVM

/-- The two binary formats of the language: 32 and 64 bits wide. -/
inductive FloatFormat where
  | single
  | double
  deriving DecidableEq, Repr

namespace FloatFormat

/-- The number of significant bits, the leading one included. -/
def precision : FloatFormat → Nat
  | single => 24
  | double => 53

/-- The weight of the sign bit, which all magnitudes lie below. -/
def signBit : FloatFormat → Nat
  | single => 0x80000000
  | double => 0x8000000000000000

/-- The number of bytes of a number. -/
def bytes : FloatFormat → Nat
  | single => 4
  | double => 8

/-- The binary places of the least positive number. -/
def scale : FloatFormat → Nat
  | single => 149
  | double => 1074

/-- The number one, counted in the least positive number. -/
def one (f : FloatFormat) : Nat := 1 <<< f.scale

/-- The weight of the lowest bit of the exponent field within a magnitude. -/
def hidden : FloatFormat → Nat
  | single => 0x800000
  | double => 0x10000000000000

/-- The magnitude of infinity: an exponent field of ones over an empty fraction. -/
def infinity (f : FloatFormat) : Nat := f.signBit - f.hidden

/-- The highest fraction bit, which tells a quiet NaN. -/
def quietBit (f : FloatFormat) : Nat := f.hidden / 2

/-- The sign bit is not zero. -/
theorem signBit_pos (f : FloatFormat) : 0 < f.signBit := by
  cases f <;> decide

/-- The pattern of infinity stays below the sign bit. -/
theorem infinity_lt (f : FloatFormat) : f.infinity < f.signBit := by
  cases f <;> decide

/-- The pattern of the quiet NaN stays below the sign bit too. -/
theorem infinity_add_quietBit_lt (f : FloatFormat) : f.infinity + f.quietBit < f.signBit := by
  cases f <;> decide

end FloatFormat

/-- A floating point number of format `f`: its sign and the bits below the sign. -/
@[ext]
structure Binary (f : FloatFormat) where
  negative : Bool
  magnitude : Nat
  magnitude_lt : magnitude < f.signBit
  deriving DecidableEq

/-- Numbers of 32 bits. -/
abbrev Single := Binary .single

/-- Numbers of 64 bits. -/
abbrev Double := Binary .double

/-- Rounds the quotient `n / d` to a natural number, halves to the even neighbour. -/
def roundHalfEven (n d : Nat) : Nat :=
  let q := n / d
  let r := n % d
  if 2 * r < d then q else if d < 2 * r then q + 1 else q + q % 2

namespace Binary

variable {f g : FloatFormat}

/-- The bit pattern as a natural number. -/
def toBits (x : Binary f) : Nat :=
  (if x.negative then f.signBit else 0) + x.magnitude

/-- The number with the given bit pattern; bits beyond the format's width are dropped. -/
def ofBits (f : FloatFormat) (n : Nat) : Binary f where
  negative := n / f.signBit % 2 == 1
  magnitude := n % f.signBit
  magnitude_lt := Nat.mod_lt _ f.signBit_pos

/-- The number of the given sign whose magnitude is `m`, or infinity where `m` lies beyond it. -/
def ofMagnitude (negative : Bool) (m : Nat) : Binary f where
  negative := negative
  magnitude := min m f.infinity
  magnitude_lt := Nat.lt_of_le_of_lt (Nat.min_le_right ..) f.infinity_lt

/-- Zero of the given sign. -/
def zero (negative : Bool) : Binary f := ofMagnitude negative 0

/-- Infinity of the given sign. -/
def infinite (negative : Bool) : Binary f := ofMagnitude negative f.infinity

/-- The NaN that an invalid operation gives: quiet, negative, with an empty payload. -/
def invalid : Binary f := ⟨true, f.infinity + f.quietBit, f.infinity_add_quietBit_lt⟩

/-- Whether the number is a NaN. -/
def isNaN (x : Binary f) : Bool := decide (f.infinity < x.magnitude)

/-- Whether the number is an infinity. -/
def isInfinite (x : Binary f) : Bool := x.magnitude == f.infinity

/-- Whether the number is neither a NaN nor an infinity. -/
def isFinite (x : Binary f) : Bool := decide (x.magnitude < f.infinity)

/-- Whether the number is a zero of either sign. -/
def isZero (x : Binary f) : Bool := x.magnitude == 0

/-- The number with the other sign; a NaN changes its sign as well. -/
def neg (x : Binary f) : Binary f := { x with negative := !x.negative }

/-- The power of two that one step of a finite number's significand is worth, in units. -/
def shift (x : Binary f) : Nat := x.magnitude / f.hidden - 1

/-- The significand of a finite number, the leading one included. -/
def significand (x : Binary f) : Nat := x.magnitude - x.shift * f.hidden

/-- The absolute value of a finite number, counted in the least positive number of its format. -/
def units (x : Binary f) : Nat := x.significand <<< x.shift

/-- The value of a finite number, counted in the least positive number of its format. -/
def signedUnits (x : Binary f) : Int := if x.negative then -(x.units : Int) else x.units

/-- The number nearest to `± n / d` units, halves to the even neighbour, infinity beyond the largest finite number. -/
def round (negative : Bool) (n d : Nat) : Binary f :=
  let k := Nat.log2 (n / d) + 1 - f.precision
  ofMagnitude negative (k * f.hidden + roundHalfEven n (d <<< k))

/-- The signed magnitude, which orders the numbers that are not NaN and makes the two zeros equal. -/
def key (x : Binary f) : Int := if x.negative then -(x.magnitude : Int) else x.magnitude

/-- The order of two numbers; a NaN has none. -/
def compare? (x y : Binary f) : Option Ordering :=
  if x.isNaN || y.isNaN then none else some (compare x.key y.key)

/-- Numeric equality: the zeros are equal and a NaN differs from every number. -/
def numEq (x y : Binary f) : Bool := x.compare? y == some .eq

/-- The number nearest to an integer. -/
def ofInt (n : Int) : Binary f := round (n < 0) (n.natAbs * f.one) 1

/-- The integer a number stands for, where it stands for one. -/
def toInt? (x : Binary f) : Option Int :=
  if x.isFinite && x.units % f.one == 0 then
    let n := x.units / f.one
    some (if x.negative then -(n : Int) else n)
  else none

/-- A NaN made quiet, its sign and payload kept. -/
def quieten (x : Binary f) : Binary f :=
  if h : x.magnitude + f.quietBit < f.signBit then
    if x.magnitude / f.quietBit % 2 = 0 then { x with magnitude := x.magnitude + f.quietBit, magnitude_lt := h } else x
  else x

/-- The nearest number of another format; the high bits of a NaN's payload are kept. -/
def convert (g : FloatFormat) (x : Binary f) : Binary g :=
  if x.isNaN then
    let payload := (x.magnitude - f.infinity) * g.hidden / f.hidden
    quieten (ofBits g ((if x.negative then g.signBit else 0) + g.infinity + payload))
  else if x.isInfinite then infinite x.negative
  else round x.negative (x.units * g.one) (f.one)

end Binary

end ScriptVM
