import ScriptVM.Heap.Basic

/-!
# Walks over containers

A walk yields the elements of an array or range with their indices, or the entries of a map with their keys, one step at a
time. It holds only the container's handle and a position, so it sees changes of the container made between two steps.
-/

namespace ScriptVM

/-- What one step of a walk yields. -/
inductive Yield where
  | one (value : Value)
  | two (key value : Value)
  deriving DecidableEq

namespace Traversal

/-- A walk over a value, if it is a container. -/
def start? : Value → Option Traversal
  | .ref .array h => some (array h 0)
  | .ref .range h => some (range h 0)
  | .ref .map h => some (map h {})
  | _ => none

/-- Whether the walk yields another element. -/
def hasNext (heap : Heap) : Traversal → Except RuntimeError Bool
  | array h i => return decide (i < (← heap.array h).size)
  | range h i => return decide (i < (← heap.range h).length)
  | map h c => return (← heap.map h).hasNext c

/-- The next pair of key and value, if there is one, and the walk behind it. -/
def nextPair (heap : Heap) : Traversal → Except RuntimeError (Option (Value × Value) × Traversal)
  | array h i => do
    match (← heap.array h)[i]? with
    | some item => return (some (.ofCount i, item), array h (i + 1))
    | none => return (none, array h i)
  | range h i => do
    match (← heap.range h).get? i with
    | some item => return (some (.ofCount i, .ofInt64 item), range h (i + 1))
    | none => return (none, range h i)
  | map h c => do
    let (entry, c) := (← heap.map h).next c
    return (entry.map fun (_, e) => (e.key, e.value), map h c)

/-- What a step with the given number of variables yields, if anything, and the walk behind it. -/
def next (heap : Heap) (arity : UInt8) (t : Traversal) : Except RuntimeError (Option Yield × Traversal) := do
  let (pair, t) ← t.nextPair heap
  return (pair.map fun (key, value) => if 2 ≤ arity then .two key value else .one value, t)

end Traversal

/-- An iterator at another position; other objects stay as they are. -/
def Object.moveTo (t : Traversal) : Object → Object
  | .iterator _ => .iterator t
  | o => o

namespace HeapM

/-- Allocates an iterator over a value, if it is a container. -/
def allocIterator (v : Value) : HeapM (Option Value) :=
  match Traversal.start? v with
  | some t => return some (← allocRef .iterator (.iterator t))
  | none => return none

/-- Moves an iterator to another position. -/
def setTraversal (iterator : Handle) (t : Traversal) : HeapM Unit := do
  let _ ← read (·.iterator iterator)
  update iterator (Object.moveTo t)

end HeapM

end ScriptVM
