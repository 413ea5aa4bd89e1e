import ScriptVM.Error
import ScriptVM.Object
import ScriptVM.Settings

/-!
# The heap

Objects live in slots. A slot that a collection frees changes its generation before it is used again, so that handles to
the old object no longer resolve. Freed slots are used before new ones, the last freed first.
-/

namespace ScriptVM

/-- A slot: its generation, whether a collection has marked it, and the object it holds. -/
structure Slot where
  generation : UInt32
  marked : Bool
  object : Option Object

instance : Inhabited Slot := ⟨⟨0, false, none⟩⟩

/-- What a collection did: objects reached and freed, objects alive after it, and collections so far. -/
structure CollectionStats where
  marked : Nat := 0
  freed : Nat := 0
  live : Nat := 0
  collections : Nat := 0
  deriving DecidableEq, Repr

/-- The objects of a machine. -/
structure Heap where
  slots : Array Slot := #[]
  /-- The slots without an object, the next one to be used first. -/
  free : List UInt32 := []
  /-- The number of objects. -/
  live : Nat := 0
  /-- The number of objects allocated since the last collection. -/
  recent : Nat := 0
  threshold : Nat
  limit : Option Nat
  last : CollectionStats := {}

instance : Inhabited Heap := ⟨{ threshold := 0, limit := none }⟩

/-- An operation on the heap. A failed operation keeps what it did before it failed. -/
abbrev HeapM := EStateM RuntimeError Heap

namespace Heap

/-- An empty heap. -/
def ofSettings (s : Settings) : Heap := { threshold := s.gcThreshold, limit := s.maxHeapObjects }

/-- Whether the heap holds as many objects as it may. -/
def atLimit (h : Heap) : Bool := h.limit.any fun limit => limit ≤ h.live

/-- Whether a collection is due: the threshold is reached, or the heap is full and something was allocated since the last
collection. -/
def shouldCollect (h : Heap) : Bool :=
  (decide (0 < h.threshold) && decide (h.threshold ≤ h.recent)) || (h.atLimit && decide (0 < h.recent))

/-- Puts an object into the next free slot, or into a new one. -/
def place (o : Object) (h : Heap) : Handle × Heap :=
  match h.free with
  | i :: rest =>
    let generation := ((h.slots[i.toNat]?).map Slot.generation).getD 0
    (⟨i, generation⟩,
      { h with
        slots := h.slots.modify i.toNat fun s => { s with object := some o, marked := false }
        free := rest
        live := h.live + 1
        recent := h.recent + 1 })
  | [] =>
    (⟨UInt32.ofNat h.slots.size, 0⟩,
      { h with slots := h.slots.push ⟨0, false, some o⟩, live := h.live + 1, recent := h.recent + 1 })

/-- Allocates an object, unless the heap is full. -/
def alloc (o : Object) : EStateM HeapError Heap Handle := fun h =>
  match h.limit with
  | some limit =>
    if limit ≤ h.live then .error (.exhausted limit) h
    else
      let (handle, h) := h.place o
      .ok handle h
  | none =>
    let (handle, h) := h.place o
    .ok handle h

/-- The object of a handle. -/
def get? (h : Heap) (handle : Handle) : Option Object :=
  match h.slots[handle.index.toNat]? with
  | some s => if s.generation = handle.generation then s.object else none
  | none => none

/-- Whether a handle still refers to the object it was issued for. -/
def contains (h : Heap) (handle : Handle) : Bool := (h.get? handle).isSome

/-- The heap with the object of a handle changed; nothing changes if the handle does not resolve. -/
def update (h : Heap) (handle : Handle) (f : Object → Object) : Heap :=
  { h with
    slots := h.slots.modify handle.index.toNat fun s =>
      if s.generation = handle.generation then { s with object := s.object.map f } else s }

/-- The text of a handle. -/
def text (h : Heap) (handle : Handle) : Except RuntimeError String :=
  match h.get? handle with
  | some (.text s) => .ok s
  | _ => .error .invalidHandle

/-- The elements of the array of a handle. -/
def array (h : Heap) (handle : Handle) : Except RuntimeError (Array Value) :=
  match h.get? handle with
  | some (.array items) => .ok items
  | _ => .error .invalidHandle

/-- The entries of the map of a handle. -/
def map (h : Heap) (handle : Handle) : Except RuntimeError (Table MapKey MapEntry) :=
  match h.get? handle with
  | some (.map entries) => .ok entries
  | _ => .error .invalidHandle

/-- The range of a handle. -/
def range (h : Heap) (handle : Handle) : Except RuntimeError Progression :=
  match h.get? handle with
  | some (.range r) => .ok r
  | _ => .error .invalidHandle

/-- The function of a handle. -/
def function (h : Heap) (handle : Handle) : Except RuntimeError Closure :=
  match h.get? handle with
  | some (.function f) => .ok f
  | _ => .error .invalidHandle

/-- The native function of a handle. -/
def native (h : Heap) (handle : Handle) : Except RuntimeError Native :=
  match h.get? handle with
  | some (.native n) => .ok n
  | _ => .error .invalidHandle

/-- The iterator of a handle. -/
def iterator (h : Heap) (handle : Handle) : Except RuntimeError Traversal :=
  match h.get? handle with
  | some (.iterator t) => .ok t
  | _ => .error .invalidHandle

/-- The error of a handle. -/
def error (h : Heap) (handle : Handle) : Except RuntimeError ErrorInfo :=
  match h.get? handle with
  | some (.error e) => .ok e
  | _ => .error .invalidHandle

/-- The environment of a handle. -/
def environment (h : Heap) (handle : Handle) : Except RuntimeError Environment :=
  match h.get? handle with
  | some (.environment e) => .ok e
  | _ => .error .invalidHandle

end Heap

namespace HeapM

/-- An operation that only looks at the heap. -/
def read {α : Type} (f : Heap → Except RuntimeError α) : HeapM α := fun h =>
  match f h with
  | .ok a => .ok a h
  | .error e => .error e h

/-- Allocates an object; a full heap ends the run. -/
def alloc (o : Object) : HeapM Handle := fun h =>
  match Heap.alloc o h with
  | .ok handle h => .ok handle h
  | .error e h => .error (.heap e) h

/-- Allocates an object and returns the value of the given kind that refers to it. -/
def allocRef (kind : RefKind) (o : Object) : HeapM Value := return .ref kind (← alloc o)

/-- Allocates a text. -/
def allocText (s : String) : HeapM Value := allocRef .string (.text s)

/-- Allocates an array. -/
def allocArray (items : Array Value) : HeapM Value := allocRef .array (.array items)

/-- Allocates an error. -/
def allocError (message : String) (payload : Option Value) : HeapM Value := allocRef .error (.error ⟨message, payload⟩)

/-- Allocates a range, whose step must not be zero. -/
def allocRange (start stop step : Int64) : HeapM Value :=
  match Progression.ofBounds? start stop step with
  | some r => allocRef .range (.range r)
  | none => throw (.typeError Progression.zeroStepMessage)

/-- Changes the object of a handle. -/
def update (handle : Handle) (f : Object → Object) : HeapM Unit := modify fun h => h.update handle f

end HeapM

end ScriptVM
