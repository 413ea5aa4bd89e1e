import ScriptVM.Heap.View

/-!
# Maps and arrays on the heap

A map finds its entries by the keys of values. An entry keeps the value it was stored under, and a later entry with an
equal key replaces both.
-/

namespace ScriptVM

namespace Heap

/-- The value under a key of a map. -/
def mapGet? (h : Heap) (map : Handle) (key : Value) : Except RuntimeError (Option Value) := do
  let k ← h.mapKey key
  return ((← h.map map).get? k).map MapEntry.value

/-- The table of a list of key and value pairs; the last of equal keys counts. -/
def entryTable (h : Heap) (pairs : List (Value × Value)) : Except RuntimeError (Table MapKey MapEntry) :=
  pairs.foldlM (fun table (key, value) => return table.insert (← h.mapKey key) ⟨key, value⟩)
    (Table.withChains (max pairs.length 4 * 2))

end Heap

namespace Object

/-- A map with an entry under a key; other objects stay as they are. -/
def insertEntry (key : MapKey) (entry : MapEntry) : Object → Object
  | .map entries => .map (entries.insert key entry)
  | o => o

/-- A map without a key; other objects stay as they are. -/
def eraseEntry (key : MapKey) : Object → Object
  | .map entries => .map (entries.erase key)
  | o => o

/-- An array with a value behind it; other objects stay as they are. -/
def pushItem (value : Value) : Object → Object
  | .array items => .array (items.push value)
  | o => o

/-- An array with one of its elements replaced; other objects stay as they are. -/
def setItem (index : Nat) (value : Value) : Object → Object
  | .array items => .array (items.setIfInBounds index value)
  | o => o

end Object

namespace HeapM

/-- Allocates a map of key and value pairs. -/
def allocMap (pairs : List (Value × Value)) : HeapM Value := do
  let table ← read (·.entryTable pairs)
  allocRef .map (.map table)

/-- Stores a value under a key of a map. -/
def mapInsert (map : Handle) (key value : Value) : HeapM Unit := do
  let k ← read (·.mapKey key)
  let _ ← read (·.map map)
  update map (Object.insertEntry k ⟨key, value⟩)

/-- Removes the entry under a key of a map, and returns it. -/
def mapRemove (map : Handle) (key : Value) : HeapM (Option MapEntry) := do
  let k ← read (·.mapKey key)
  let found ← read fun h => return (← h.map map).get? k
  update map (Object.eraseEntry k)
  return found

/-- Appends a value to an array. -/
def arrayPush (array : Handle) (value : Value) : HeapM Unit := do
  let _ ← read (·.array array)
  update array (Object.pushItem value)

/-- Replaces an element of an array, and returns whether there is one. -/
def arraySet (array : Handle) (index : Nat) (value : Value) : HeapM Bool := do
  let size ← read fun h => return (← h.array array).size
  update array (Object.setItem index value)
  return decide (index < size)

end HeapM

end ScriptVM
