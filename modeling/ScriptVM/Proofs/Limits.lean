import ScriptVM.Proofs.Integrity
import ScriptVM.Proofs.Spending
import ScriptVM.Proofs.Startup

/-!
# Limits

Whatever bytes a machine runs, it stays within its settings: the operands within the capacity of the stack, the calls within the
frames allowed, of which the outermost call is always one, and the objects within the limit of the heap (`Machine.Within`). This holds
between any two instructions, and also where an instruction fails. An instruction allocates at most one object, so a heap that is
looked after before each instruction is never more than one object further (`Machine.Session.keeps_limits`).

Operands are pushed in one place, which looks at the capacity, and frames in one place, which looks at the frames. Everything else
takes operands and frames away or leaves them (`Machine.stepwise_staysFit`). What the heap holds is counted in `Charges`.
-/

namespace ScriptVM

/-- The operands and the calls of a machine are within its settings. -/
structure Machine.Fits (s : Settings) (m : Machine) : Prop where
  settings : m.settings = s
  stack : m.stack.size ≤ s.stackCapacity
  frames : m.frames.size ≤ max 1 s.maxFrames

/-- The later machine fits if the earlier one does. -/
def Machine.StaysFit (s : Settings) (m m' : Machine) : Prop := m.Fits s → m'.Fits s

namespace Machine

variable {s : Settings}

/-- Operands and frames are pushed only where there is room for them. -/
theorem stepwise_staysFit : Stepwise (StaysFit s) where
  refl _ := id
  trans h h' := h' ∘ h
  grown _ _ _ hm := ⟨hm.settings, hm.stack, hm.frames⟩
  pushed := by
    refine fun m v hroom hm => ⟨hm.settings, ?_, hm.frames⟩
    rw [hm.settings] at hroom
    change (m.stack.push v).size ≤ _
    rw [Array.size_push]
    exact hroom
  taken _ _ hprefix hm := ⟨hm.settings, Nat.le_trans hprefix.length_le hm.stack, hm.frames⟩
  discarded _ _ hm := ⟨hm.settings, hm.stack, hm.frames⟩
  moved := by
    refine fun m f _ hm => ⟨hm.settings, hm.stack, ?_⟩
    change (m.frames.modify _ f).size ≤ _
    rw [Array.size_modify]
    exact hm.frames
  entered := by
    refine fun m f hroom hm => ⟨hm.settings, hm.stack, ?_⟩
    rw [hm.settings] at hroom
    change (m.frames.push f).size ≤ _
    rw [Array.size_push]
    omega

/-- A return takes a frame and its operands away, before it pushes the result. -/
theorem relates_returnValue (v : Value) : Relates (StaysFit s) (MachineM.returnValue v) := by
  intro m hm
  rw [MachineM.returnValue_eq]
  split
  · exact hm
  · rename_i f _
    have hleft : Fits s { m with frames := m.frames.pop, stack := m.stack.shrink f.base } := by
      refine ⟨hm.settings, (stepwise_staysFit.truncate f.base m hm).stack, ?_⟩
      change m.frames.pop.size ≤ _
      rw [Array.size_pop]
      exact Nat.le_trans (Nat.sub_le _ _) hm.frames
    split
    · exact hleft
    · exact stepwise_staysFit.bind (stepwise_staysFit.push v) (fun _ => stepwise_staysFit.pure none) _ hleft

/-- Whatever the next instruction is, the machine stays within the capacity and the frames. -/
theorem relates_advance : Relates (StaysFit s) MachineM.advance := by
  have hR : Stepwise (StaysFit s) := stepwise_staysFit
  refine hR.bind hR.frame fun f => hR.bind (hR.fetch f) fun ⟨i, next⟩ => hR.bind (hR.modifyFrame fun _ => rfl) fun _ => ?_
  cases i
  case ret => exact hR.bind hR.pop relates_returnValue
  all_goals exact hR.bind (hR.execute f next _) fun _ => hR.pure none

end Machine

/-! ## Machines within their settings -/

namespace Machine

variable {s : Settings} {m m' : Machine}

/-- A machine is within its settings: its operands and its calls are, and so are the objects that its heap counts, which are all there
are. -/
structure Within (s : Settings) (m : Machine) : Prop extends Fits s m where
  limit : m.heap.limit = s.maxHeapObjects
  counted : m.heap.Counted

/-- Spending within the limit stays within the settings. -/
theorem Within.spends {count : Nat} (h : m.Within s) (hs : m.heap.Spends m'.heap count) (hfits : m'.Fits s) : m'.Within s :=
  ⟨hfits, hs.limit.trans h.limit, hs.counted h.counted⟩

/-- A collection stays within the settings. -/
theorem Within.collectGarbage (h : m.Within s) : m.collectGarbage.Within s :=
  ⟨⟨h.settings, h.stack, h.frames⟩, h.limit, h.counted.collect⟩

/-- The collection that may be due before a step stays within the settings. -/
theorem Within.collected (h : m.Within s) : m.collected.Within s := by
  unfold Machine.collected
  split
  · exact h.collectGarbage
  · exact h

/-- An instruction allocates at most one object, whether it fails or not. -/
theorem spends_step (m : Machine) : ∃ count ≤ 1, m.collected.heap.Spends (machineAfter (MachineM.step m)).heap count := by
  rw [MachineM.step_eq]
  cases hr : MachineM.advance m.collected with
  | ok r m' => exact Charges.advance.spends _ r m' hr
  | error e m' => exact Charges.advance.fails _ e m' hr

/-- A step stays within the settings, also where it fails. -/
theorem Within.step (h : m.Within s) : (machineAfter (MachineM.step m)).Within s := by
  obtain ⟨count, -, hs⟩ := m.spends_step
  exact h.collected.spends hs (relates_advance m.collected h.collected.toFits)

/-- An abandoned machine is within the settings. -/
theorem Within.abandon (h : m.Within s) : m.abandon.Within s :=
  ⟨⟨h.settings, Nat.zero_le _, Nat.zero_le _⟩, h.limit, h.counted⟩

/-- The one frame of a module that starts is allowed by all settings. -/
theorem Within.start (h : m.Within s) (image : Image) : (m.start image).Within s :=
  ⟨⟨h.settings, Nat.zero_le _, Nat.le_max_left _ _⟩, h.limit, h.counted⟩

/-- A run of any length stays within the settings. -/
theorem Within.steps (h : m.Within s) (fuel : Nat) : (steps fuel m).2.Within s := by
  induction fuel generalizing m with
  | zero => exact h
  | succ fuel ih =>
    have hstep := h.step
    unfold Machine.steps
    cases hr : MachineM.step m with
    | error e m' =>
      rw [hr] at hstep
      exact hstep.abandon
    | ok r m' =>
      rw [hr] at hstep
      cases r with
      | some v => exact hstep
      | none => exact ih hstep

/-- Loading and running a module stays within the settings. -/
theorem Within.run (h : m.Within s) (fuel : Nat) (bytes : List UInt8) : (m.run fuel bytes).2.Within s := by
  unfold Machine.run
  split
  · exact (h.start _).steps fuel
  · exact h

/-- Defining a global stays within the settings, also where there is no room for it. -/
theorem Within.define (h : m.Within s) (name : String) (v : Value) : (machineAfter (m.define name v)).Within s := by
  have hcharges : Charges 0 (MachineM.onHeap (HeapM.define m.globals name v)) := .onHeap (.define _ _ _)
  have hfits := stepwise_staysFit.plain (Plain.define m.globals name v) m h.toFits
  change (machineAfter (MachineM.onHeap (HeapM.define m.globals name v) m)).Within s
  cases hr : MachineM.onHeap (HeapM.define m.globals name v) m with
  | ok u m' =>
    rw [hr] at hfits
    obtain ⟨count, -, hs⟩ := hcharges.spends m u m' hr
    exact h.spends hs hfits
  | error e m' =>
    rw [hr] at hfits
    obtain ⟨count, -, hs⟩ := hcharges.fails m e m' hr
    exact h.spends hs hfits

/-- A new machine is within its settings. -/
theorem within_ofSettings (hm : ofSettings s = .ok m) : m.Within s := by
  refine of_ofSettings (P := Within s) hm (fun globals heap ha => ?_) fun n _ m v h₁ h₂ h ha hd => ?_
  · obtain ⟨count, -, hs⟩ := (Costs.alloc _).spends _ _ _ ha
    exact ⟨⟨rfl, Nat.zero_le _, Nat.zero_le _⟩, hs.limit, hs.counted (Heap.counted_ofSettings s)⟩
  · obtain ⟨count, -, hs⟩ := (Costs.allocRef _ _).spends _ _ _ ha
    obtain ⟨count', -, hs'⟩ := (Costs.define _ _ _).spends _ _ _ hd
    have hfits : ({ m with heap := h₂ } : Machine).Fits s := ⟨h.settings, h.stack, h.frames⟩
    exact h.spends (hs.trans hs') hfits

/-- Every machine of a session is within its settings. -/
theorem Session.within (h : Session s m) : m.Within s := by
  induction h with
  | new hm => exact within_ofSettings hm
  | run fuel bytes _ ih => exact ih.run fuel bytes
  | collect _ ih => exact ih.collectGarbage
  | define name _ _ ih => exact ih.define name _

/-- Whatever bytes a machine has run and however the runs ended, it is within its settings between any two instructions, and also behind
an instruction that fails. An instruction allocates at most one object: behind the collection that may be due before it, the counts
of the heap go up by one at most, and so does the number of its objects. -/
theorem Session.keeps_limits (h : Session s m) :
    m.Within s ∧ (machineAfter (MachineM.step m)).Within s ∧ ∃ count ≤ 1,
      (machineAfter (MachineM.step m)).heap.live = m.collected.heap.live + count ∧
      (machineAfter (MachineM.step m)).heap.recent = m.collected.heap.recent + count ∧
      (machineAfter (MachineM.step m)).heap.slots.countP (·.object.isSome) ≤
        m.collected.heap.slots.countP (·.object.isSome) + count := by
  obtain ⟨count, hcount, hs⟩ := m.spends_step
  exact ⟨h.within, h.within.step, count, hcount, hs.live, hs.recent, hs.objects⟩

/-- Room for one operand, for no call besides the outermost one, and for one object besides the builtins. -/
def tiny : Settings := { stackCapacity := 1, maxFrames := 0, gcThreshold := 0, maxHeapObjects := some 6 }

/-- A text that is made and dropped. -/
def droppedSample : Program := ⟨"m.vs", "m", [.expression {} (.literal {} (.string "b"))]⟩

/-- How many operands, frames and objects a new machine has after so many instructions of a program. -/
def countsAfter (p : Program) (fuel : Nat) (s : Settings) : Option (Nat × Nat × Nat) :=
  match ofSettings s, p.compile with
  | .ok m, .ok image =>
    let m := (m.run fuel image.encode).2
    some (m.stack.size, m.frames.size, m.heap.live)
  | _, _ => none

/-- All three limits are reached. -/
theorem Session.keeps_limits_droppedSample :
    ∃ m, Session tiny m ∧ m.stack.size = 1 ∧ m.frames.size = 1 ∧ m.heap.live = 6 ∧ m.Within tiny ∧
      (machineAfter (MachineM.step m)).Within tiny := by
  have hcounts : countsAfter droppedSample 1 tiny = some (1, 1, 6) := by decide +kernel
  unfold countsAfter at hcounts
  cases hm : ofSettings tiny with
  | error e =>
    rw [hm] at hcounts
    nomatch hcounts
  | ok m =>
    cases hp : droppedSample.compile with
    | error e =>
      rw [hm, hp] at hcounts
      nomatch hcounts
    | ok image =>
      rw [hm, hp] at hcounts
      have hsession : Session tiny (m.run 1 image.encode).2 := .run 1 image.encode (.new hm)
      obtain ⟨hwithin, hstep, -⟩ := hsession.keeps_limits
      simp only [Option.some.injEq, Prod.mk.injEq] at hcounts
      exact ⟨_, hsession, hcounts.1, hcounts.2.1, hcounts.2.2, hwithin, hstep⟩

end Machine

end ScriptVM
