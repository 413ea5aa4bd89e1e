import ScriptVM.Heap.Map

/-!
# Indices, members and ranges

An index outside of its container, an unknown member and a bound that is no integer give error values; an error that is
indexed, or used as an index or bound, passes through.
-/

namespace ScriptVM

/-- Why an index does not select an element. -/
inductive IndexFault where
  | notInteger (kind : String)
  | outOfBounds (index : Int64) (length : Nat)
  deriving DecidableEq, Repr

/-- The message of the error value that a failed index becomes. -/
def IndexFault.message : IndexFault → String
  | notInteger kind => s!"index must be an integer, got {kind}"
  | outOfBounds index length => s!"index {index.toInt} out of bounds for length {length}"

/-- The position that an index selects in a container of the given length; a negative index counts from the end. The
computation is done in 64 bits. -/
def indexPosition (index : Value) (length : Nat) : Except IndexFault Nat :=
  match index.toInt64? with
  | none => .error (.notInteger index.kindName)
  | some i =>
    let size := Int64.ofNat length
    let resolved := if i < 0 then i + size else i
    if resolved < 0 ∨ size ≤ resolved then .error (.outOfBounds i length) else .ok resolved.toInt.toNat

/-- The integer that a number stands for, if it is one of 64 bits. -/
def integral? (x : Double) : Option Int64 := (x.toInt?.filter fits64).map Int64.ofInt

namespace Heap

/-- The integer of a bound: an integer, a whole number, or a text that writes one. -/
def bound? (h : Heap) : Value → Except RuntimeError (Option Int64)
  | .num (.int n) => return some (.ofInt n.toInt)
  | .num (.int64 n) => return some n
  | .num (.float x) => return integral? (x.convert .double)
  | .num (.double x) => return integral? x
  | .ref .string handle => return (readNumber? (← h.text handle)).bind integral?
  | _ => return none

end Heap

namespace HeapM

/-- Allocates an error value without a payload. -/
def errorValue (message : String) : HeapM Value := allocError message none

/-- The element of a container at an index, by the container's length and elements. -/
def elementAt (index : Value) (length : Nat) (element : Nat → HeapM Value) : HeapM Value :=
  match indexPosition index length with
  | .ok i => element i
  | .error f => errorValue f.message

/-- The element of a value at an index. -/
def index (object index : Value) : HeapM Value :=
  if object.isError then return object
  else if index.isError then return index
  else
    match object with
    | .ref .map handle => do
      match ← read (·.mapGet? handle index) with
      | some value => return value
      | none =>
        let key ← read fun h => return h.describe index
        errorValue s!"key {key} not found"
    | .ref .array handle => do
      let items ← read (·.array handle)
      elementAt index items.size fun i => return items.getD i .null
    | .ref .string handle => do
      let cs := (← read (·.text handle)).toList
      elementAt index cs.length fun i => allocText (String.ofList (cs[i]?).toList)
    | .ref .range handle => do
      let r ← read (·.range handle)
      elementAt index r.length fun i => return ((r.get? i).map Value.ofInt64).getD .null
    | other => errorValue s!"cannot index {other.kindName}"

/-- The member of a range. -/
def rangeMember (r : Progression) (name : String) : Option Value :=
  match name with
  | "length" => some (Value.ofCount r.length)
  | "start" => some (.ofInt64 r.start)
  | "end" => some (.ofInt64 r.stop)
  | "step" => some (.ofInt64 r.step)
  | _ => none

/-- The member of a map: the value under the name, or else its length. -/
def mapMember (entries : Table MapKey MapEntry) (name : String) : Option Value :=
  match entries.get? (.text name) with
  | some e => some e.value
  | none => if name = "length" then some (Value.ofCount entries.size) else none

/-- The named member of a value, if it has one. -/
def member? (object : Value) (name : String) : HeapM (Option Value) :=
  match object, name with
  | .ref .error handle, "message" => do return some (← allocText (← read (·.error handle)).message)
  | .ref .error handle, "payload" => do return some ((← read (·.error handle)).payload.getD .null)
  | .ref .error _, _ => return some object
  | .ref .string handle, "length" => do return some (Value.ofCount (← read (·.text handle)).length)
  | .ref .array handle, "length" => do return some (Value.ofCount (← read (·.array handle)).size)
  | .ref .range handle, _ => do return rangeMember (← read (·.range handle)) name
  | .ref .map handle, _ => do return mapMember (← read (·.map handle)) name
  | .ref .function handle, "name" => do return some (← allocText (← read (·.function handle)).code.name)
  | .ref .function handle, "arity" => do return some (Value.ofCount (← read (·.function handle)).code.arity)
  | .ref .native handle, "name" => do return some (← allocText (← read (·.native handle)).name)
  | _, _ => return none

/-- The named member of a value. -/
def member (object : Value) (name : String) : HeapM Value := do
  match ← member? object name with
  | some value => return value
  | none => errorValue s!"{object.kindName} has no member '{name}'"

/-- The range of three bounds. -/
def buildRange (start stop step : Value) : HeapM Value :=
  match [start, stop, step].find? Value.isError with
  | some e => return e
  | none => do
    let first ← read (·.bound? start)
    let last ← read (·.bound? stop)
    let stride ← read (·.bound? step)
    match first, last, stride with
    | some a, some b, some s => if s = 0 then errorValue Progression.zeroStepMessage else allocRange a b s
    | _, _, _ =>
      errorValue s!"range bounds must be integers, got {start.kindName}, {stop.kindName} and {step.kindName}"

end HeapM

end ScriptVM
