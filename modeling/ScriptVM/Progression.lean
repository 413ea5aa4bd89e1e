import ScriptVM.Num

/-!
# Arithmetic progressions

A range of integers goes from its start towards its end in steps, the end excluded. It is never stored element by element:
its length and its elements are computed from the bounds. Elements are computed in 64 bits, which wrap around; a computation with
checks gives none where it would wrap.
-/

namespace ScriptVM

/-- A range of integers with a step that is not zero. -/
structure Progression where
  start : Int64
  stop : Int64
  step : Int64
  step_ne_zero : step ≠ 0
  deriving DecidableEq

namespace Progression

/-- The message for a step of zero. -/
def zeroStepMessage : String := "range step cannot be zero"

/-- The range with the given bounds and step, unless the step is zero. -/
def ofBounds? (start stop step : Int64) : Option Progression :=
  if h : step ≠ 0 then some ⟨start, stop, step, h⟩ else none

/-- The distance from start to end, in the direction of the step. -/
def distance (r : Progression) : Int :=
  if 0 < r.step.toInt then r.stop.toInt - r.start.toInt else r.start.toInt - r.stop.toInt

/-- The number of elements: the distance in steps, rounded up. -/
def length (r : Progression) : Nat :=
  (r.distance.toNat + r.step.toInt.natAbs - 1) / r.step.toInt.natAbs

/-- Whether there is no element. -/
def isEmpty (r : Progression) : Bool := r.length == 0

/-- The element so many steps behind the start, in 64 bits. -/
def element (r : Progression) (i : Nat) : Int64 := r.start + r.step * Int64.ofNat i

/-- The element so many steps behind the start, with checks: nothing if the product or the sum leaves the 64 bits. The index is
taken in 64 bits, unchecked. -/
def checkedElement? (r : Progression) (i : Nat) : Option Int64 :=
  let product := r.step.toInt * (Int64.ofNat i).toInt
  let sum := r.start.toInt + product
  if fits64 product && fits64 sum then some (.ofInt sum) else none

/-- The element at an index. -/
def get? (r : Progression) (i : Nat) : Option Int64 := if i < r.length then some (r.element i) else none

/-- All elements in order. -/
def toList (r : Progression) : List Int64 := (List.range r.length).map r.element

end Progression

end ScriptVM
