import ScriptVM.Heap.Basic

/-!
# Collection

A collection frees every object that the roots do not reach. Marking walks a list of handles to visit: a handle that
resolves to an object in a slot not yet marked marks the slot and adds the handles the object keeps alive; any other handle
is skipped. Sweeping takes the marks off again and frees the objects of the other slots in the order of their slots.
-/

namespace ScriptVM

/-- The slot with its mark set. -/
def Slot.mark (s : Slot) : Slot := { s with marked := true }

/-- The slot with its mark taken off. -/
def Slot.unmark (s : Slot) : Slot := { s with marked := false }

/-- The slot without its object, in the next generation if it held one. -/
def Slot.release (s : Slot) : Slot :=
  match s.object with
  | some _ => { s with generation := s.generation + 1, object := none }
  | none => s

/-- What a sweep leaves of a slot: a marked one loses its mark, any other one its object. -/
def Slot.sweep (s : Slot) : Slot := if s.marked then s.unmark else s.release

namespace Heap

/-- Whether a slot is there and is marked. -/
def markedAt (h : Heap) (i : Nat) : Bool := (h.slots[i]?).any Slot.marked

/-- The object of a handle, unless its slot is marked. -/
def unmarked? (h : Heap) (a : Handle) : Option Object := if h.markedAt a.index.toNat then none else h.get? a

/-- The heap with a slot marked. -/
def setMark (h : Heap) (i : Nat) : Heap := { h with slots := h.slots.modify i Slot.mark }

/-- An array changed in one place that it has is the array with that place set. -/
theorem modify_eq_set {slots : Array Slot} {i : Nat} {f : Slot → Slot} (hi : i < slots.size) :
    slots.modify i f = slots.set i (f slots[i]) := by
  apply Array.ext
  · simp
  · intro j h1 h2
    rw [Array.getElem_modify, Array.getElem_set]
    split
    · subst_vars
      rfl
    · rfl

/-- The slot of an object that is not marked. -/
theorem of_unmarked?_eq_some {h : Heap} {a : Handle} {o : Object} (ho : h.unmarked? a = some o) :
    ∃ hi : a.index.toNat < h.slots.size, (h.slots[a.index.toNat]).marked = false ∧ h.get? a = some o := by
  unfold unmarked? at ho
  split at ho
  · nomatch ho
  · rename_i hm
    by_cases hi : a.index.toNat < h.slots.size
    · refine ⟨hi, ?_, ho⟩
      simpa [markedAt, hi] using hm
    · rw [get?, Array.getElem?_eq_none (Nat.le_of_not_lt hi)] at ho
      nomatch ho

/-- Marking an object leaves fewer slots unmarked. -/
theorem countP_setMark_lt {h : Heap} {a : Handle} {o : Object} (ho : h.unmarked? a = some o) :
    (h.setMark a.index.toNat).slots.countP (!·.marked) < h.slots.countP (!·.marked) := by
  obtain ⟨hi, hm, -⟩ := of_unmarked?_eq_some ho
  have hpos : 0 < h.slots.countP (!·.marked) := Array.countP_pos_iff.2 ⟨_, Array.getElem_mem hi, by simp [hm]⟩
  simp only [setMark]
  rw [modify_eq_set hi, Array.countP_set hi, if_pos (by simp [hm]), if_neg (by simp [Slot.mark])]
  omega

/-- The heap after visiting the listed handles and everything they reach, with the number of slots marked on the way added to
`count`. -/
def mark (h : Heap) (count : Nat) : List Handle → Heap × Nat
  | [] => (h, count)
  | a :: rest =>
    match _ho : h.unmarked? a with
    | some o => (h.setMark a.index.toNat).mark (count + 1) (o.references ++ rest)
    | none => h.mark count rest
termination_by work => (h.slots.countP (!·.marked), work.length)
decreasing_by
  · exact Prod.Lex.left _ _ (countP_setMark_lt ‹_›)
  · exact Prod.Lex.right _ (by simp)

/-- The heap with everything marked that the roots reach. -/
def reached (h : Heap) (roots : List Handle) : Heap := (h.mark 0 roots).1

/-- The slots that a sweep frees, in ascending order: those with an object that are not marked. -/
def unreached (h : Heap) : List Nat :=
  (List.range h.slots.size).filter fun i => (h.slots[i]?).any fun s => !s.marked && s.object.isSome

/-- Frees every object that the roots do not reach. -/
def collect (h : Heap) (roots : List Handle) : Heap :=
  let freed := (h.reached roots).unreached
  let live := h.live - freed.length
  { h with
    slots := (h.reached roots).slots.map Slot.sweep
    free := (freed.map UInt32.ofNat).reverse ++ h.free
    live := live
    recent := 0
    last :=
      { marked := (h.mark 0 roots).2
        freed := freed.length
        live := live
        collections := h.last.collections + 1 } }

end Heap

end ScriptVM
