import ScriptVM.Decimal.Shortest

/-!
# Written forms of numbers

The digits of a number are its shortest decimal. Where the point stands, when a power of ten is split off, and whether a
whole number shows a fraction are the choices of a `NumberStyle`.
-/

namespace ScriptVM

/-- How a number is laid out. -/
structure NumberStyle where
  /-- Whether a number whose leading digit has this exponent is written with a power of ten. -/
  scientific : Int → Bool
  /-- Whether a whole number without a power of ten is written with one zero behind the point. -/
  wholeFraction : Bool

namespace NumberStyle

/-- The style of displayed numbers: always positional, whole numbers without a fraction. -/
def plain : NumberStyle := ⟨fun _ => false, false⟩

/-- The style of inspected numbers: positional from `10 ^ -4` up to `10 ^ 16`, and never mistaken for an integer. -/
def inspect : NumberStyle := ⟨fun e => decide (e < -4 ∨ 16 ≤ e), true⟩

end NumberStyle

namespace Decimal

/-- The digits of a natural number. -/
def digitText (n : Nat) : String := String.ofList (Nat.toDigits 10 n)

/-- So many zeros. -/
def zeros (n : Nat) : String := String.ofList (List.replicate n '0')

/-- The decimal written without a power of ten. -/
def positional (d : Decimal) (wholeFraction : Bool) : String :=
  let ds := Nat.toDigits 10 d.digits
  if 0 ≤ d.exponent then
    String.ofList ds ++ zeros d.exponent.toNat ++ (if wholeFraction then ".0" else "")
  else
    let places := (-d.exponent).toNat
    if ds.length ≤ places then "0." ++ zeros (places - ds.length) ++ String.ofList ds
    else String.ofList (ds.take (ds.length - places)) ++ "." ++ String.ofList (ds.drop (ds.length - places))

/-- The decimal written as a number from one up to ten and a power of ten. -/
def scientific (d : Decimal) : String :=
  let ds := Nat.toDigits 10 d.digits
  let tail := ds.drop 1
  String.ofList (ds.take 1) ++ (if tail.isEmpty then "" else "." ++ String.ofList tail) ++ "e" ++ toString d.leading

end Decimal

/-- The written form of a number in a style. -/
def Binary.render {f : FloatFormat} (style : NumberStyle) (x : Binary f) : String :=
  if x.isNaN then "NaN"
  else
    (if x.negative then "-" else "") ++
      (if x.isInfinite then "inf"
      else
        let d := x.shortest
        if !x.isZero && style.scientific d.leading then d.scientific else d.positional style.wholeFraction)

/-- The exact written form of a finite whole number: all its digits, and one zero behind the point. -/
def Binary.renderWhole {f : FloatFormat} (x : Binary f) : String :=
  (if x.negative then "-" else "") ++ Decimal.digitText (x.units / f.one) ++ ".0"

end ScriptVM
