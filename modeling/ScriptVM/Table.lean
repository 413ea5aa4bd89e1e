/-!
# Hash tables

A table is an array of chains. A key lives in the chain that its hash selects; a new key goes to the front of its chain, and
a known key keeps its place. When a new key brings the table above three quarters of a key per chain, the number of chains
doubles. `Table.toList` lists the entries chain by chain, and a `Cursor` walks them in that order, one at a time.
-/

namespace ScriptVM

/-- A hash table with keys of type `κ` and values of type `ν`. -/
structure Table (κ ν : Type) where
  chains : Array (List (κ × ν))
  size : Nat
  chains_pos : 0 < chains.size

/-- A position in a walk over a table: a chain, and how many of its entries were passed. -/
structure Cursor where
  chain : Nat := 0
  depth : Nat := 0
  deriving DecidableEq, Repr

namespace Table

variable {κ ν : Type}

/-- The number of chains of a new table. -/
def initialChains : Nat := 8

/-- An empty table with at least one chain, and with `count` where that is more. -/
def withChains (count : Nat) : Table κ ν where
  chains := Array.replicate (max count 1) []
  size := 0
  chains_pos := by simp only [Array.size_replicate]; omega

/-- An empty table. -/
def empty : Table κ ν := withChains initialChains

instance : EmptyCollection (Table κ ν) := ⟨empty⟩

instance : Inhabited (Table κ ν) := ⟨empty⟩

/-- Whether the table has no entry. -/
def isEmpty (t : Table κ ν) : Bool := t.size == 0

/-- The number of chains. -/
def chainCount (t : Table κ ν) : Nat := t.chains.size

/-- The entries, chain by chain. -/
def toList (t : Table κ ν) : List (κ × ν) := t.chains.toList.flatten

/-- The keys, chain by chain. -/
def keys (t : Table κ ν) : List κ := t.toList.map (·.1)

/-- The values, chain by chain. -/
def values (t : Table κ ν) : List ν := t.toList.map (·.2)

/-- The entry at a cursor and the cursor behind it, or the cursor at the end of the table. -/
def next (t : Table κ ν) (c : Cursor) : Option (κ × ν) × Cursor :=
  if h : c.chain < t.chains.size then
    match t.chains[c.chain][c.depth]? with
    | some entry => (some entry, { c with depth := c.depth + 1 })
    | none => t.next ⟨c.chain + 1, 0⟩
  else (none, c)
termination_by t.chains.size - c.chain

/-- Whether there is an entry at a cursor or behind it. -/
def hasNext (t : Table κ ν) (c : Cursor) : Bool := (t.next c).1.isSome

section Hashing

variable [Hashable κ]

/-- The chain of a key. -/
def slot (t : Table κ ν) (key : κ) : Nat := (hash key).toNat % t.chains.size

/-- The slot of a key is one of the chains of the table. -/
theorem slot_lt (t : Table κ ν) (key : κ) : t.slot key < t.chains.size := Nat.mod_lt _ t.chains_pos

/-- The entries of the chain of a key. -/
def chainOf (t : Table κ ν) (key : κ) : List (κ × ν) :=
  have := t.slot_lt key
  t.chains[t.slot key]

end Hashing

section Chains

variable [BEq κ]

/-- The value of a key in a chain. -/
def chainGet? (key : κ) : List (κ × ν) → Option ν
  | [] => none
  | (k, v) :: rest => if k == key then some v else chainGet? key rest

/-- The chain with the value of a key changed, the key kept. -/
def chainModify (key : κ) (f : ν → ν) : List (κ × ν) → List (κ × ν)
  | [] => []
  | (k, v) :: rest => if k == key then (k, f v) :: rest else (k, v) :: chainModify key f rest

/-- The chain without a key. -/
def chainErase (key : κ) : List (κ × ν) → List (κ × ν)
  | [] => []
  | (k, v) :: rest => if k == key then rest else (k, v) :: chainErase key rest

end Chains

variable [BEq κ] [Hashable κ]

/-- The value of a key. -/
def get? (t : Table κ ν) (key : κ) : Option ν := chainGet? key (t.chainOf key)

/-- Whether the table has a key. -/
def contains (t : Table κ ν) (key : κ) : Bool := (t.get? key).isSome

/-- The table with one of its chains changed. -/
def modifyChain (t : Table κ ν) (i : Nat) (f : List (κ × ν) → List (κ × ν)) : Table κ ν where
  chains := t.chains.modify i f
  size := t.size
  chains_pos := by rw [Array.size_modify]; exact t.chains_pos

/-- The table with the value of a key changed; nothing changes if the key is missing. -/
def modify (t : Table κ ν) (key : κ) (f : ν → ν) : Table κ ν := t.modifyChain (t.slot key) (chainModify key f)

/-- The table with an entry in front of the chain of its key; the size is not counted up. -/
def push (t : Table κ ν) (entry : κ × ν) : Table κ ν := t.modifyChain (t.slot entry.1) (entry :: ·)

/-- The same entries in another number of chains, moved one by one in the order of the walk. -/
def rehash (t : Table κ ν) (count : Nat) : Table κ ν :=
  let fresh : Table κ ν := { (withChains count : Table κ ν) with size := t.size }
  t.toList.foldl push fresh

/-- The table with twice the chains where it has more than three quarters of an entry per chain. -/
def grow (t : Table κ ν) : Table κ ν :=
  if t.chains.size * 3 < t.size * 4 then t.rehash (t.chains.size * 2) else t

/-- The table with the entry of a key that it does not have. -/
def insertNew (t : Table κ ν) (key : κ) (value : ν) : Table κ ν :=
  let t := { t with size := t.size + 1 }
  (t.push (key, value)).grow

/-- The table with a value for a key; a key that it has keeps its place. -/
def insert (t : Table κ ν) (key : κ) (value : ν) : Table κ ν :=
  if t.contains key then t.modify key fun _ => value else t.insertNew key value

/-- The table without a key. -/
def erase (t : Table κ ν) (key : κ) : Table κ ν :=
  if t.contains key then { t.modifyChain (t.slot key) (chainErase key) with size := t.size - 1 } else t

/-- The table without its entries, with as many chains as a new one. -/
def clear (_ : Table κ ν) : Table κ ν := empty

/-- The previous value of a key, and the table with the new one. -/
def exchange (t : Table κ ν) (key : κ) (value : ν) : Option ν × Table κ ν := (t.get? key, t.insert key value)

/-- The value of a key, and the table without it. -/
def take (t : Table κ ν) (key : κ) : Option ν × Table κ ν := (t.get? key, t.erase key)

/-- The table of a list of entries; the last entry of a key counts. -/
def ofList (entries : List (κ × ν)) : Table κ ν :=
  entries.foldl (fun t (k, v) => t.insert k v) empty

end Table

end ScriptVM
