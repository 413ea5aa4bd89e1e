import ScriptVM.Decimal.Layout
import ScriptVM.Heap.Basic
import ScriptVM.Operand

/-!
# What values mean

A value means what its object holds: as an operand, as the key of a map, under equality, and in its displayed form. Arrays
and maps are looked into; an array or map that is nested deeper than there are slots would contain itself, so the number of
slots bounds every such walk.
-/

namespace ScriptVM

namespace Heap

/-- The depth that no walk through arrays and maps exceeds. -/
def depthBound (h : Heap) : Nat := h.slots.size + 1

/-- A value as operators see it. -/
def operand (h : Heap) : Value → Except RuntimeError Operand
  | .null => return .null
  | .bool b => return .bool b
  | .num n => return .num n
  | .ref .string handle => return .text (← h.text handle)
  | .ref .error handle => return .error (← h.error handle).message
  | .ref .array handle => return .ref .array handle (← h.array handle).isEmpty
  | .ref .map handle => return .ref .map handle (← h.map handle).isEmpty
  | .ref .range handle => return .ref .range handle (← h.range handle).isEmpty
  | .ref kind handle => return .ref kind handle false

/-- Whether a condition on a value holds. -/
def truthy (h : Heap) (v : Value) : Except RuntimeError Bool := return (← h.operand v).truthy

/-- The key of a value, looking through at most `fuel` arrays. -/
def mapKeyWithin (h : Heap) : Nat → Value → Except RuntimeError MapKey
  | _, .null => return .null
  | _, .bool b => return .bool b
  | _, .num (.int n) => return .int n.toInt
  | _, .num (.int64 n) => return .int n.toInt
  | _, .num (.float x) => return .ofDouble (x.convert .double)
  | _, .num (.double x) => return .ofDouble x
  | _, .ref .string handle => return .text (← h.text handle)
  | _, .ref .error handle => return .error (← h.error handle).message
  | 0, .ref .array _ => .error .invalidHandle
  | fuel + 1, .ref .array handle => do
    let items ← h.array handle
    return .array (← items.toList.mapM (h.mapKeyWithin fuel))
  | _, .ref .range handle => do
    let r ← h.range handle
    return .range r.start r.stop r.step
  | _, .ref _ handle => return .ref handle

/-- The key of a value. -/
def mapKey (h : Heap) (v : Value) : Except RuntimeError MapKey := h.mapKeyWithin h.depthBound v

/-- Whether two lists have the same length and agree element by element; the comparison ends at the first difference. -/
def allEqual (eq : Value → Value → Except RuntimeError Bool) : List Value → List Value → Except RuntimeError Bool
  | x :: xs, y :: ys => do if ← eq x y then allEqual eq xs ys else return false
  | _, _ => return true

/-- Equality of values, looking through at most `fuel` arrays. -/
def equalWithin (h : Heap) : Nat → Value → Value → Except RuntimeError Bool
  | fuel, .ref .array a, .ref .array b =>
    if a = b then return true
    else do
      let xs ← h.array a
      let ys ← h.array b
      if xs.size ≠ ys.size then return false
      else
        match fuel with
        | 0 => .error .invalidHandle
        | fuel + 1 => allEqual (h.equalWithin fuel) xs.toList ys.toList
  | _, .ref .range a, .ref .range b => return (← h.range a) == (← h.range b)
  | _, left, right => return (← h.operand left).equal (← h.operand right)

/-- Equality of values: arrays element by element, ranges by their bounds, all others as operands. -/
def equal (h : Heap) (left right : Value) : Except RuntimeError Bool := h.equalWithin h.depthBound left right

/-- The displayed form of a number: a whole number shows one zero behind the point, unless it is a `Double` of more than
sixteen digits. -/
def numText : Num → String
  | .int n => toString n.toInt
  | .int64 n => toString n.toInt
  | .float x => if x.toInt?.isSome then x.renderWhole else x.render .plain
  | .double x => if x.toInt?.any fun n => n.natAbs < 10000000000000000 then x.renderWhole else x.render .plain

/-- What stands for an object that is gone. -/
def freedText : String := "<freed>"

/-- The displayed form of what a look at the heap found. -/
def textOr {α : Type} (found : Except RuntimeError α) (f : α → String) : String :=
  match found with
  | .ok a => f a
  | .error _ => freedText

/-- The displayed form of a range. -/
def rangeText (r : Progression) : String :=
  let bounds := s!"{r.start.toInt}..{r.stop.toInt}"
  if r.step = 1 then bounds else bounds ++ s!" step {r.step.toInt}"

/-- The displayed form of a value, looking through at most `fuel` containers; texts inside of containers are quoted. -/
def describeWithin (h : Heap) : Nat → Bool → Value → String
  | _, _, .null => "null"
  | _, _, .bool b => if b then "true" else "false"
  | _, _, .num n => numText n
  | _, quoted, .ref .string handle => textOr (h.text handle) fun s => if quoted then Text.quote s else s
  | 0, _, .ref .array _ => freedText
  | fuel + 1, _, .ref .array handle =>
    textOr (h.array handle) fun items =>
      "[" ++ String.intercalate ", " (items.toList.map (h.describeWithin fuel true)) ++ "]"
  | 0, _, .ref .map _ => freedText
  | fuel + 1, _, .ref .map handle =>
    textOr (h.map handle) fun entries =>
      let entryText (e : MapEntry) : String := h.describeWithin fuel true e.key ++ ": " ++ h.describeWithin fuel true e.value
      "\x7b" ++ String.intercalate ", " (entries.values.map entryText) ++ "\x7d"
  | _, _, .ref .function handle => textOr (h.function handle) fun f => s!"<function {f.code.name}>"
  | _, _, .ref .native handle => textOr (h.native handle) fun n => s!"<native {n.name}>"
  | _, _, .ref .range handle => textOr (h.range handle) rangeText
  | _, _, .ref .iterator _ => "<iterator>"
  | _, _, .ref .error handle => textOr (h.error handle) fun e => s!"Error: {e.message}"

/-- The displayed form of a value. -/
def describe (h : Heap) (v : Value) : String := h.describeWithin h.depthBound false v

end Heap

namespace HeapM

/-- The value of an operator's answer; texts and errors are allocated. -/
def materialize (left right : Value) : Outcome → HeapM Value
  | .num n => return .num n
  | .bool b => return .bool b
  | .text s => allocText s
  | .fault f => allocError f.message none
  | .forward .left => return left
  | .forward .right => return right

/-- An operator on two values by their operands. -/
def binary (op : BinaryOp) (left right : Value) : HeapM Value := do
  let outcome ← read fun h => return Operand.binary op (← h.operand left) (← h.operand right)
  materialize left right outcome

/-- An operator on one value by its operand. -/
def unary (op : UnaryOp) (v : Value) : HeapM Value := do
  let outcome ← read fun h => return (← h.operand v).unary op
  materialize v v outcome

end HeapM

end ScriptVM
