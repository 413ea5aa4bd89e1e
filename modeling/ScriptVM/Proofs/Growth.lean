import ScriptVM.Proofs.Collection
import ScriptVM.Proofs.Conduct

/-!
# What an instruction leaves alone

An instruction collects nothing, so the heap only grows between collections, and a collection keeps all slots. So a machine whose
heap has few slots and has seen few collections had no more of either at any time before (`Machine.ages_steps`). No instruction but
a return takes a frame away, so a run that has ended leaves neither operands nor frames (`Machine.emptied_steps`).
-/

namespace ScriptVM

/-- A later machine in the same calls: nothing was collected, and the outermost frame is where it was. -/
structure Machine.Continues (m m' : Machine) : Prop where
  heap : m.heap.Grows m'.heap
  outermost : m.frames ≠ #[] → (m'.frames[0]?).map Frame.base = (m.frames[0]?).map Frame.base

theorem Machine.Continues.refl (m : Machine) : m.Continues m := ⟨.refl _, fun _ => rfl⟩

/-- A machine with a call under way still has one later in the same calls. -/
theorem Machine.Continues.frames_ne {m m' : Machine} (h : m.Continues m') (hne : m.frames ≠ #[]) : m'.frames ≠ #[] := by
  intro hempty
  have hbase := h.outermost hne
  have hpos : 0 < m.frames.size := Nat.pos_of_ne_zero fun hsize => hne (Array.eq_empty_of_size_eq_zero hsize)
  rw [Array.getElem?_eq_getElem hpos, hempty] at hbase
  nomatch hbase

theorem Machine.Continues.trans {m m' m'' : Machine} (h : m.Continues m') (h' : m'.Continues m'') : m.Continues m'' :=
  ⟨h.heap.trans h'.heap, fun hne => (h'.outermost (h.frames_ne hne)).trans (h.outermost hne)⟩

/-- Later machines of the same calls are found along all that instructions do. -/
theorem Machine.stepwise_continues : Stepwise Continues where
  refl := .refl
  trans := .trans
  grown _ _ hgrows := ⟨hgrows, fun _ => rfl⟩
  pushed _ _ _ := ⟨.refl _, fun _ => rfl⟩
  taken _ _ _ := ⟨.refl _, fun _ => rfl⟩
  discarded _ _ := ⟨.refl _, fun _ => rfl⟩
  moved := by
    refine fun m f hf => ⟨.refl _, fun _ => ?_⟩
    change ((m.frames.modify (m.frames.size - 1) f)[0]?).map Frame.base = _
    rw [Array.getElem?_modify]
    split
    · cases m.frames[0]? with
      | none => rfl
      | some x => exact congrArg some (hf x)
    · rfl
  entered := by
    refine fun m f _ => ⟨.refl _, fun hne => ?_⟩
    have hpos : 0 < m.frames.size := Nat.pos_of_ne_zero fun hsize => hne (Array.eq_empty_of_size_eq_zero hsize)
    change ((m.frames.push f)[0]?).map Frame.base = _
    rw [Array.getElem?_push_lt hpos, Array.getElem?_eq_getElem hpos]

/-! ## Steps -/

namespace Machine

variable {m m' : Machine}

/-- What an instruction leaves behind. The run that it ends has no frame left, and no operand above those of the outermost frame. -/
def Leaves (m : Machine) : EStateM.Result RuntimeError Machine (Option Value) → Prop
  | .error _ m' => m.heap.Grows m'.heap
  | .ok none m' => m.Continues m'
  | .ok (some _) m' => m.heap.Grows m'.heap ∧ m'.frames = #[] ∧ ((m.frames[0]?).map Frame.base = some 0 → m'.stack = #[])

/-- Whatever an instruction leaves behind, the heap has only grown. -/
theorem Leaves.grows {r : EStateM.Result RuntimeError Machine (Option Value)} (h : m.Leaves r) :
    m.heap.Grows (machineAfter r).heap := by
  match r, h with
  | .error _ _, h => exact h
  | .ok none _, h => exact h.heap
  | .ok (some _) _, h => exact h.1

/-- What an instruction leaves is so from any earlier machine of the same calls. -/
theorem Continues.leaves (h : m.Continues m') (hne : m.frames ≠ #[]) {r : EStateM.Result RuntimeError Machine (Option Value)}
    (h' : m'.Leaves r) : m.Leaves r := by
  match r, h' with
  | .error _ _, h' => exact h.heap.trans h'
  | .ok none _, h' => exact h.trans h'
  | .ok (some _) _, h' => exact ⟨h.heap.trans h'.1, h'.2.1, fun hbase => h'.2.2 ((h.outermost hne).trans hbase)⟩

/-- Work that stays in the calls can be done before an instruction is finished. -/
theorem leaves_bind {α : Type} {x : MachineM α} {f : α → MachineM (Option Value)} (hx : Relates Continues x) (hne : m.frames ≠ #[])
    (hf : ∀ a (m' : Machine), m'.frames ≠ #[] → m'.Leaves (f a m')) : m.Leaves ((x >>= f) m) := by
  change m.Leaves (EStateM.bind x f m)
  have hm := hx m
  unfold EStateM.bind
  cases hr : x m with
  | ok a m' =>
    rw [hr] at hm
    exact hm.leaves hne (hf a m' (hm.frames_ne hne))
  | error e m' =>
    rw [hr] at hm
    exact hm.heap

/-- A return takes its frame away, and the operands of the call. -/
theorem leaves_returnValue (v : Value) (m : Machine) : m.Leaves (MachineM.returnValue v m) := by
  rw [MachineM.returnValue_eq]
  cases hback : m.frames.back? with
  | none => exact .refl _
  | some f =>
    have hlast : m.frames[m.frames.size - 1]? = some f := by rw [← Array.back?_eq_getElem?, hback]
    by_cases hlone : m.frames.pop.isEmpty = true
    · have hpop : m.frames.pop = #[] := Array.isEmpty_iff.1 hlone
      have hsize : m.frames.size - 1 = 0 := by rw [← Array.size_pop, hpop]; rfl
      simp only [if_pos hlone]
      refine ⟨.refl _, hpop, fun hbase => ?_⟩
      rw [hsize] at hlast
      rw [hlast] at hbase
      have hzero : f.base = 0 := Option.some.inj hbase
      simp [hzero]
    · have hmore : 0 < m.frames.size - 1 := by
        rw [← Array.size_pop]
        exact Nat.pos_of_ne_zero fun hsize => hlone (Array.isEmpty_iff_size_eq_zero.2 hsize)
      simp only [if_neg hlone]
      change m.Leaves (EStateM.bind (MachineM.push v) _ _)
      unfold EStateM.bind MachineM.push
      dsimp only
      split
      · rename_i heq
        split at heq
        · nomatch heq
        · cases heq
          refine ⟨.refl _, fun _ => ?_⟩
          change (m.frames.pop[0]?).map Frame.base = _
          rw [Array.getElem?_pop, if_pos hmore]
      · rename_i heq
        split at heq
        · cases heq
          exact .refl _
        · nomatch heq

/-- An instruction leaves what it should, a return or not. -/
theorem leaves_advance (m : Machine) : m.Leaves (MachineM.advance m) := by
  by_cases hempty : m.frames = #[]
  · have hback : m.frames.back? = none := by rw [hempty]; rfl
    change m.Leaves (EStateM.bind MachineM.frame _ m)
    simp only [EStateM.bind, MachineM.frame, MachineM.read, hback]
    exact .refl _
  · have hR := stepwise_continues
    refine leaves_bind hR.frame hempty fun f m₁ h₁ => leaves_bind (hR.fetch f) h₁ ?_
    rintro ⟨i, next⟩ m₂ h₂
    refine leaves_bind (hR.modifyFrame fun _ => rfl) h₂ fun _ m₃ h₃ => ?_
    cases i
    case ret => exact leaves_bind hR.pop h₃ fun v m₄ _ => leaves_returnValue v m₄
    all_goals exact leaves_bind (hR.execute f next _) h₃ fun _ m₄ _ => Continues.refl m₄

theorem frames_collected (m : Machine) : m.collected.frames = m.frames := by
  unfold collected
  split <;> rfl

/-- A run of a module that has ended leaves no operand and no frame. -/
theorem emptied_steps {fuel : Nat} (hbase : (m.frames[0]?).map Frame.base = some 0) (hend : (steps fuel m).1 ≠ .unfinished) :
    (steps fuel m).2.stack = #[] ∧ (steps fuel m).2.frames = #[] := by
  induction fuel generalizing m with
  | zero => exact absurd rfl hend
  | succ fuel ih =>
    have hleaves := leaves_advance m.collected
    rw [← MachineM.step_eq] at hleaves
    unfold steps at hend ⊢
    cases hs : MachineM.step m with
    | error e m' => exact ⟨rfl, rfl⟩
    | ok r m' =>
      rw [hs] at hleaves hend
      rw [← frames_collected] at hbase
      cases r with
      | some v => exact ⟨hleaves.2.2 hbase, hleaves.2.1⟩
      | none =>
        have hne : m.collected.frames ≠ #[] := by
          intro hempty
          rw [hempty] at hbase
          cases hbase
        exact ih ((hleaves.outermost hne).trans hbase) hend

end Machine

/-! ## Bounds -/

/-- Handles tell all slots apart, and generations have not wrapped around. -/
def Machine.Bounded (m : Machine) : Prop := m.heap.slots.size < Heap.maxSlots ∧ m.heap.last.collections < UInt32.size

/-- A later machine has at least the slots of an earlier one, and has seen at least its collections. -/
def Machine.Ages (m m' : Machine) : Prop :=
  m.heap.slots.size ≤ m'.heap.slots.size ∧ m.heap.last.collections ≤ m'.heap.last.collections

namespace Machine

variable {m m' : Machine}

theorem Ages.refl (m : Machine) : m.Ages m := ⟨Nat.le_refl _, Nat.le_refl _⟩

theorem Ages.trans {m'' : Machine} (h : m.Ages m') (h' : m'.Ages m'') : m.Ages m'' :=
  ⟨Nat.le_trans h.1 h'.1, Nat.le_trans h.2 h'.2⟩

/-- An earlier machine was within the bounds. -/
theorem Bounded.of_ages (hb : m'.Bounded) (h : m.Ages m') : m.Bounded :=
  ⟨Nat.lt_of_le_of_lt h.1 hb.1, Nat.lt_of_le_of_lt h.2 hb.2⟩

/-- A machine whose heap has grown has aged. -/
theorem ages_of_grows (h : m.heap.Grows m'.heap) : m.Ages m' := ⟨h.size, Nat.le_of_eq (by rw [h.last])⟩

theorem ages_collectGarbage (m : Machine) : m.Ages m.collectGarbage := ⟨Nat.le_of_eq Heap.size_collect.symm, Nat.le_succ _⟩

/-- The collection that may be due before a step ages the machine. -/
theorem ages_collected (m : Machine) : m.Ages m.collected := by
  unfold collected
  split
  · exact m.ages_collectGarbage
  · exact .refl m

/-- An instruction ages the machine, whether it fails or not. -/
theorem ages_step (m : Machine) : m.collected.Ages (machineAfter (MachineM.step m)) :=
  ages_of_grows (leaves_advance m.collected).grows

/-- A run that goes on after a step ages the machine, if what follows does. -/
theorem ages_steps_succ {fuel : Nat} (h : ∀ m : Machine, m.Ages (steps fuel m).2) (m : Machine) :
    m.collected.Ages (steps (fuel + 1) m).2 := by
  have hstep := m.ages_step
  unfold steps
  cases hs : MachineM.step m with
  | error e m' =>
    rw [hs] at hstep
    exact hstep
  | ok r m' =>
    rw [hs] at hstep
    cases r with
    | some v => exact hstep
    | none => exact hstep.trans (h m')

/-- A run of any length ages the machine. -/
theorem ages_steps (fuel : Nat) (m : Machine) : m.Ages (steps fuel m).2 := by
  induction fuel generalizing m with
  | zero => exact .refl m
  | succ fuel ih => exact m.ages_collected.trans (ages_steps_succ ih m)

/-- Loading and running a module ages the machine. -/
theorem ages_run (fuel : Nat) (bytes : List UInt8) (m : Machine) : m.Ages (m.run fuel bytes).2 := by
  unfold run
  cases Image.decode bytes with
  | ok image => exact ages_steps fuel (m.start image)
  | error e => exact .refl m

/-- A run that has ended, but for a module that could not be read, leaves no operand and no frame. -/
theorem emptied_run {fuel : Nat} {bytes : List UInt8} {image : Image} (hd : Image.decode bytes = .ok image)
    (hend : (m.run fuel bytes).1 ≠ .unfinished) : (m.run fuel bytes).2.stack = #[] ∧ (m.run fuel bytes).2.frames = #[] := by
  unfold run at hend ⊢
  rw [hd] at hend ⊢
  exact emptied_steps rfl hend

end Machine

end ScriptVM
