import Mathlib.Tactic.IntervalCases
import ScriptVM.Proofs.Spending
import ScriptVM.Proofs.Startup
import ScriptVM.Proofs.Tables

/-!
# When a run ends for want of room

An instruction fails for want of room only where the heap holds as many objects as it may when the instruction begins. If anything
was allocated since the last collection, there is a collection before such an instruction, so all these objects are reachable and
no collection could have made room. If nothing was, there is none: the objects were all reachable at the last collection, and
those that were let go of since then are still counted (`Machine.exhausted_only_when_full`).
-/

namespace ScriptVM

namespace Machine

variable {m m' : Machine} {limit : Option Nat}

/-- How many objects a machine can still reach. -/
noncomputable def reachable (m : Machine) : Nat := {a | (m.heap.get? a).isSome ∧ m.heap.Reachable m.roots a}.ncard

/-- The slots are in order as long as handles tell them apart, and the heap has the given limit. -/
structure Accounted (limit : Option Nat) (m : Machine) : Prop where
  orderly : m.heap.slots.size < Heap.maxSlots → m.heap.Orderly
  limit : m.heap.limit = limit

/-- A collection leaves what is reachable, and nothing was allocated since. -/
theorem Accounted.collectGarbage (h : m.Accounted limit) : m.collectGarbage.Accounted limit := by
  refine ⟨fun hsize => ?_, h.limit⟩
  change (m.heap.collect m.roots).slots.size < Heap.maxSlots at hsize
  rw [Heap.size_collect] at hsize
  exact (h.orderly hsize).collect

/-- The collection that may be due before a step keeps the account. -/
theorem Accounted.collected (h : m.Accounted limit) : m.collected.Accounted limit := by
  unfold Machine.collected
  split
  · exact h.collectGarbage
  · exact h

/-- After a collection the live objects are those that were reachable. -/
theorem live_collectGarbage (h : m.heap.Orderly) : m.collectGarbage.heap.live = m.reachable := by
  have hc := h.collects m.roots
  exact hc.marked.symm.trans hc.reached

theorem Accounted.spends {count : Nat} (h : m.Accounted limit) (hs : m.heap.Spends m'.heap count) : m'.Accounted limit :=
  ⟨fun hsize => hs.orderly hsize (h.orderly (Nat.lt_of_le_of_lt hs.size hsize)), hs.limit.trans h.limit⟩

/-- A step collects, or does not, and then allocates at most one object. -/
theorem step_spends {r : Option Value} (hstep : MachineM.step m = .ok r m') :
    ∃ count ≤ 1, m.collected.heap.Spends m'.heap count := by
  rw [MachineM.step_eq] at hstep
  exact Charges.advance.spends m.collected r m' hstep

theorem Accounted.step {r : Option Value} (h : m.Accounted limit) (hstep : MachineM.step m = .ok r m') : m'.Accounted limit := by
  obtain ⟨count, -, hs⟩ := step_spends hstep
  exact h.collected.spends hs

/-- Since the machine was at `origin` something was allocated that no collection has seen; or nothing was allocated since a
collection, and all that was reachable then still counts. -/
def Recounts (origin m : Machine) : Prop :=
  0 < m.heap.recent ∨ ∃ m₀, origin.Reaches m₀ ∧ m₀.Reaches m ∧ m₀.heap.shouldCollect = true ∧
    (m.heap.slots.size < Heap.maxSlots → m.heap.live = m₀.reachable)

/-- A step keeps what is known of the allocations since a collection. -/
theorem Recounts.step {origin : Machine} (hr : origin.Reaches m) (h : m.Accounted limit) (hc : origin.Recounts m)
    (hstep : MachineM.step m = .ok none m') : origin.Recounts m' := by
  obtain ⟨count, -, hs⟩ := step_spends hstep
  rcases Nat.eq_zero_or_pos m'.heap.recent with hnone | hsome
  · refine .inr ?_
    have hrecent := hs.recent
    have hlive := hs.live
    obtain rfl : count = 0 := by omega
    by_cases hdue : m.heap.shouldCollect = true
    · refine ⟨m, hr, .single hstep, hdue, fun hsize => ?_⟩
      have hbefore : m.heap.slots.size < Heap.maxSlots := by
        have hages := m.ages_collected.1
        have hle := hs.size
        omega
      have hcollected : m.collected = m.collectGarbage := if_pos hdue
      rw [hlive, hcollected, live_collectGarbage (h.orderly hbefore), Nat.add_zero]
    · have hcollected : m.collected = m := if_neg hdue
      rw [hcollected] at hrecent hlive hs
      rcases hc with hpos | ⟨m₀, hr₀, hr₁, hdue₀, hcount⟩
      · omega
      · refine ⟨m₀, hr₀, hr₁.trans (.single hstep), hdue₀, fun hsize => ?_⟩
        rw [hlive, Nat.add_zero]
        exact hcount (Nat.lt_of_le_of_lt hs.size hsize)
  · exact .inl hsome

/-- The accounts stay right along a run. -/
theorem Reaches.recounts {origin : Machine} (h : m.Reaches m') (hr : origin.Reaches m) (ha : m.Accounted limit)
    (hc : origin.Recounts m) : m'.Accounted limit ∧ origin.Recounts m' := by
  induction h with
  | refl => exact ⟨ha, hc⟩
  | step hs _ ih => exact ih (hr.trans (.single hs)) (ha.step hs) (hc.step hr ha hs)

/-- A run that fails at run time comes to the step that fails. -/
theorem fails_of_steps {fuel : Nat} {e : RuntimeError} (h : (steps fuel m).1 = .failed (.runtime e)) :
    ∃ m₁ m₂, m.Reaches m₁ ∧ MachineM.step m₁ = .error e m₂ ∧ (steps fuel m).2 = m₂.abandon := by
  induction fuel generalizing m with
  | zero => cases h
  | succ fuel ih =>
    unfold steps at h ⊢
    cases hs : MachineM.step m with
    | error e' m' =>
      rw [hs] at h
      cases h
      exact ⟨m, m', .refl m, hs, rfl⟩
    | ok r m' =>
      rw [hs] at h
      cases r with
      | some v => cases h
      | none =>
        obtain ⟨m₁, m₂, hr, hfail, hend⟩ := ih h
        exact ⟨m₁, m₂, .step hs hr, hfail, hend⟩

/-- A new machine has allocated its globals, and has not collected. -/
theorem accounted_ofSettings {s : Settings} (h : ofSettings s = .ok m) : m.Accounted s.maxHeapObjects ∧ 0 < m.heap.recent := by
  refine of_ofSettings (P := fun m => m.Accounted s.maxHeapObjects ∧ 0 < m.heap.recent) h ?_ ?_
  · intro globals heap ha
    rw [HeapM.alloc_eq] at ha
    split at ha
    · nomatch ha
    · rename_i hfull
      cases ha
      have hs := Heap.Spends.place (.environment { parent := none }) (Bool.eq_false_iff.2 hfull)
      refine ⟨⟨fun hsize => hs.orderly hsize (Heap.orderly_ofSettings s), hs.limit⟩, ?_⟩
      rw [hs.recent]
      exact Nat.succ_pos _
  · intro n _ m v h₁ h₂ hm ha hd
    obtain ⟨count, -, hs⟩ := (Costs.allocRef _ _).spends _ _ _ ha
    obtain ⟨count', -, hs'⟩ := (Costs.define _ _ _).spends _ _ _ hd
    have hspends : m.heap.Spends ({ m with heap := h₂ } : Machine).heap (count + count') := hs.trans hs'
    refine ⟨hm.1.spends hspends, ?_⟩
    change 0 < h₂.recent
    rw [hspends.recent]
    exact Nat.add_pos_left hm.2 _

/-- A step that fails for want of room begins with a full heap, whatever was collected. -/
theorem full_of_exhausted {n : Nat} (h : MachineM.step m = .error (.heap (.exhausted n)) m') :
    m.collected.heap.limit = some n ∧ n ≤ m.collected.heap.live := by
  rw [MachineM.step_eq] at h
  obtain ⟨-, hlimit, hroom⟩ := Charges.advance.short m.collected n m' h
  exact ⟨hlimit, Nat.le_of_lt_succ hroom⟩

/-- What was allocated since the last collection is collected before a full heap fails. -/
theorem reachable_of_exhausted {n : Nat} (ho : m.heap.Orderly) (h : MachineM.step m = .error (.heap (.exhausted n)) m')
    (hrecent : 0 < m.heap.recent) : n ≤ m.reachable := by
  obtain ⟨hlimit, hfull⟩ := full_of_exhausted h
  by_cases hdue : m.heap.shouldCollect = true
  · have hcollected : m.collected = m.collectGarbage := if_pos hdue
    rwa [hcollected, live_collectGarbage ho] at hfull
  · have hcollected : m.collected = m := if_neg hdue
    rw [hcollected] at hlimit hfull
    have hatLimit : m.heap.atLimit = true := by simp [Heap.atLimit, hlimit, hfull]
    exact absurd (by simp [Heap.shouldCollect, hatLimit, hrecent]) hdue

/-- A run on a new machine that ends for want of room fails in a step with the limit of the settings. If anything was allocated since
the last collection before that step, at least as many objects as the limit are reachable when it begins. If nothing was, the
heap holds that many, and they were reachable when it was last collected. -/
theorem exhausted_only_when_full {s : Settings} {fuel n : Nat} {bytes : List UInt8} (hm : ofSettings s = .ok m)
    (hrun : (m.run fuel bytes).1 = .failed (.runtime (.heap (.exhausted n))))
    (hsize : (m.run fuel bytes).2.heap.slots.size < Heap.maxSlots) :
    s.maxHeapObjects = some n ∧ ∃ image m₁ m₂, Image.decode bytes = .ok image ∧ (m.start image).Reaches m₁ ∧
      MachineM.step m₁ = .error (.heap (.exhausted n)) m₂ ∧ (m.run fuel bytes).2 = m₂.abandon ∧
      (0 < m₁.heap.recent → n ≤ m₁.reachable) ∧
      (m₁.heap.recent = 0 → n ≤ m₁.heap.live ∧ ∃ m₀, (m.start image).Reaches m₀ ∧ m₀.Reaches m₁ ∧
        m₀.heap.shouldCollect = true ∧ n ≤ m₀.reachable) := by
  unfold run at hrun hsize ⊢
  cases hd : Image.decode bytes with
  | error e =>
    rw [hd] at hrun
    nomatch hrun
  | ok image =>
    rw [hd] at hrun hsize
    simp only at hrun hsize ⊢
    obtain ⟨m₁, m₂, hr, hfail, hend⟩ := fails_of_steps hrun
    obtain ⟨haccounted, hrecent⟩ := accounted_ofSettings hm
    have hstart : (m.start image).Accounted s.maxHeapObjects := ⟨haccounted.orderly, haccounted.limit⟩
    obtain ⟨h₁, hrecounts⟩ := hr.recounts (.refl _) hstart (.inl hrecent)
    have hsize₁ : m₁.heap.slots.size < Heap.maxSlots := by
      have hages := m₁.ages_collected.trans m₁.ages_step
      rw [hfail] at hages
      rw [hend] at hsize
      exact Nat.lt_of_le_of_lt hages.1 hsize
    obtain ⟨hlimit, hfull⟩ := full_of_exhausted hfail
    refine ⟨h₁.collected.limit.symm.trans hlimit, image, m₁, m₂, rfl, hr, hfail, hend, ?_, fun hnone => ?_⟩
    · exact reachable_of_exhausted (h₁.orderly hsize₁) hfail
    · have hquiet : m₁.collected = m₁ := by
        refine if_neg ?_
        simp only [Heap.shouldCollect, hnone, Nat.le_zero, Bool.or_eq_true, Bool.and_eq_true, decide_eq_true_eq]
        omega
      rw [hquiet] at hfull
      rcases hrecounts with hpos | ⟨m₀, hr₀, hr₁, hdue, hcount⟩
      · omega
      · exact ⟨hfull, m₀, hr₀, hr₁, hdue, hcount hsize₁ ▸ hfull⟩

/-! ## A heap without room for more than the builtins -/

/-- As many objects as a new machine has. -/
def tight : Settings := { maxHeapObjects := some 5 }

/-- The value of the builtin in a slot. -/
def builtinRef (slot : UInt32) : Value := .ref .native ⟨slot, 0⟩

/-- The globals of a new machine. -/
def builtinBindings : Table String Value :=
  (((Table.empty.insert "len" (builtinRef 1)).insert "type_of" (builtinRef 2)).insert "str" (builtinRef 3)).insert "range" (builtinRef 4)

/-- The heap of a new machine, with other bindings in the globals and so many objects allocated since the last collection. -/
def tightHeap (bindings : Table String Value) (recent : Nat) (last : CollectionStats) : Heap where
  slots := #[⟨0, false, some (.environment ⟨bindings, none⟩)⟩, ⟨0, false, some (.native ⟨"len", some 1, .builtin .len⟩)⟩,
    ⟨0, false, some (.native ⟨"type_of", some 1, .builtin .typeOf⟩)⟩, ⟨0, false, some (.native ⟨"str", some 1, .builtin .str⟩)⟩,
    ⟨0, false, some (.native ⟨"range", none, .builtin .range⟩)⟩]
  live := 5
  recent := recent
  threshold := tight.gcThreshold
  limit := some 5
  last := last

/-- A new machine with room for no other object. -/
def tightMachine : Machine where
  heap := tightHeap builtinBindings 5 {}
  globals := ⟨0, 0⟩
  settings := tight

/-- The tight settings make the tight machine. -/
theorem ofSettings_tight : ofSettings tight = .ok tightMachine := rfl

/-- The globals of a new machine are a valid table. -/
theorem valid_builtinBindings : builtinBindings.Valid := ((((Table.valid_withChains _).insert).insert).insert).insert

/-- The globals of a new machine are the four builtins. -/
theorem get?_builtinBindings (name : String) : builtinBindings.get? name =
    if "range" == name then some (builtinRef 4) else if "str" == name then some (builtinRef 3)
    else if "type_of" == name then some (builtinRef 2) else if "len" == name then some (builtinRef 1) else none := by
  have h₀ : (Table.empty : Table String Value).Valid := Table.valid_withChains _
  rw [builtinBindings, h₀.insert.insert.insert.get?_insert, h₀.insert.insert.get?_insert, h₀.insert.get?_insert, h₀.get?_insert]
  exact congrArg _ (congrArg _ (congrArg _ (congrArg _ (Table.get?_withChains _))))

/-- What an environment refers to. -/
theorem mem_references_environment {e : Environment} (hv : e.bindings.Valid) {a : Handle} :
    a ∈ (Object.environment e).references ↔ (∃ name v, e.bindings.get? name = some v ∧ v.handle? = some a) ∨ e.parent = some a := by
  simp only [Object.references, Table.values, List.mem_append, List.mem_filterMap, List.mem_map, Option.mem_toList]
  refine or_congr_left ⟨?_, ?_⟩
  · rintro ⟨v, ⟨⟨name, v'⟩, hmem, rfl⟩, ha⟩
    exact ⟨name, v', hv.get?_eq_some.2 hmem, ha⟩
  · rintro ⟨name, v, hget, ha⟩
    exact ⟨v, ⟨(name, v), hv.get?_eq_some.1 hget, rfl⟩, ha⟩

/-- Roots among which the globals are reach the builtins. -/
theorem reachable_builtin {h : Heap} (hglobals : h.get? ⟨0, 0⟩ = some (.environment ⟨builtinBindings, none⟩)) {roots : List Handle}
    (hroot : ⟨0, 0⟩ ∈ roots) : ∀ i < 5, h.Reachable roots ⟨.ofNat i, 0⟩ := by
  have hbound : ∀ (name : String) (slot : UInt32), builtinBindings.get? name = some (builtinRef slot) →
      h.Reachable roots ⟨slot, 0⟩ := by
    intro name slot hget
    refine .reference (.root hroot) hglobals ((mem_references_environment valid_builtinBindings).2 (.inl ⟨name, _, hget, rfl⟩))
  intro i hi
  interval_cases i
  · exact .root hroot
  · exact hbound "len" 1 (by rw [get?_builtinBindings]; rfl)
  · exact hbound "type_of" 2 (by rw [get?_builtinBindings]; rfl)
  · exact hbound "str" 3 (by rw [get?_builtinBindings]; rfl)
  · exact hbound "range" 4 (by rw [get?_builtinBindings]; rfl)

/-- Every object of a new machine is reachable. -/
theorem reached_tight (recent : Nat) (last : CollectionStats) {roots : List Handle} (hroot : ⟨0, 0⟩ ∈ roots) :
    ∀ i < 5, ∃ a : Handle, a.index.toNat = i ∧ ((tightHeap builtinBindings recent last).get? a).isSome ∧
      (tightHeap builtinBindings recent last).Reachable roots a := by
  intro i hi
  refine ⟨⟨.ofNat i, 0⟩, ?_, ?_, reachable_builtin rfl hroot i hi⟩
  · interval_cases i <;> rfl
  · interval_cases i <;> rfl

/-- The statistics of a collection that frees nothing. -/
def allKept : CollectionStats := { marked := 5, freed := 0, live := 5, collections := 1 }

/-- A collection of a new machine frees nothing. -/
theorem collected_tight {m : Machine} (hheap : m.heap = tightHeap builtinBindings 5 {}) (hglobals : m.globals = ⟨0, 0⟩) :
    m.collected = { m with heap := tightHeap builtinBindings 0 allKept } := by
  have hroot : (⟨0, 0⟩ : Handle) ∈ m.roots := by simp [roots, hglobals]
  have hdue : m.heap.shouldCollect = true := by rw [hheap]; rfl
  have hunmarked : (tightHeap builtinBindings 5 {}).Unmarked := by simp [Heap.Unmarked, tightHeap]
  have hcollect : m.heap.collect m.roots = tightHeap builtinBindings 0 allKept := by
    rw [hheap]
    exact Heap.collect_eq hunmarked (fun _ => true) fun i hi => iff_of_true rfl (reached_tight 5 {} hroot i hi)
  rw [collected, if_pos hdue, collectGarbage, hcollect]

/-- The call of a module on the machine without room. -/
def tightCall (image : Image) : Activation where
  code := ⟨image.path, image.name, [], [], false, image.code.toArray⟩
  base := 0
  outer := #[]
  globals := ⟨0, 0⟩
  settings := tight

/-- A text, which there is no room for. -/
def textSample : Program := ⟨"m.vs", "m", [.expression {} (.literal {} (.string "b"))]⟩

/-- The module of the text. -/
def textImage : Image := ⟨"m.vs", "m", encodeAll [.load (.text "b"), .pop, .load .null, .ret]⟩

/-- The first instruction of the text fails for want of room, after a collection that frees nothing. -/
theorem step_textImage : MachineM.step (tightMachine.start textImage) =
    .error (.heap (.exhausted 5)) ((tightCall textImage).at 3 ⟨0, 0⟩ [] (tightHeap builtinBindings 0 allKept) .null) := by
  rw [MachineM.step_eq, collected_tight rfl rfl]
  rfl

/-- The sample program fails for want of room on the tight machine, and all five objects are reachable then. -/
theorem exhausted_only_when_full_textSample :
    textSample.compile = .ok textImage ∧ (tightMachine.run 1 textImage.encode).1 = .failed (.runtime (.heap (.exhausted 5))) ∧
      5 ≤ (tightMachine.start textImage).reachable := by
  have hdecode : Image.decode textImage.encode = .ok textImage := rfl
  have hrun : tightMachine.run 1 textImage.encode = (.failed (.runtime (.heap (.exhausted 5))),
      ((tightCall textImage).at 3 ⟨0, 0⟩ [] (tightHeap builtinBindings 0 allKept) .null).abandon) := by
    rw [run, hdecode]
    simp only [steps, step_textImage]
  have hfailed : (tightMachine.run 1 textImage.encode).1 = .failed (.runtime (.heap (.exhausted 5))) := by rw [hrun]
  have hsize : (tightMachine.run 1 textImage.encode).2.heap.slots.size < Heap.maxSlots := by
    rw [hrun]
    decide
  obtain ⟨-, image, m₁, m₂, hd, hr, -, -, hfull, -⟩ := exhausted_only_when_full ofSettings_tight hfailed hsize
  obtain rfl := Except.ok.inj (hdecode.symm.trans hd)
  refine ⟨rfl, hfailed, ?_⟩
  -- The first step fails, so it is the one that the run ends with.
  cases hr with
  | refl => exact hfull (by decide)
  | step hs _ =>
    rw [step_textImage] at hs
    cases hs

/-- The text after a declaration that takes the place of a builtin. -/
def replacedSample : Program :=
  ⟨"m.vs", "m", [.declaration {} .var "len" (some (.literal {} (.int 1))), .expression {} (.literal {} (.string "b"))]⟩

/-- The module of the declaration and the text. -/
def replacedImage : Image :=
  ⟨"m.vs", "m", encodeAll [.load (.num (.int 1)), .storeName "len", .load (.text "b"), .pop, .load .null, .ret]⟩

/-- The globals after the declaration. -/
def replacedBindings : Table String Value := builtinBindings.insert "len" (.int 1)

/-- The machine before the text: nothing refers to the builtin any more. -/
def replacedMachine : Machine := (tightCall replacedImage).at 10 ⟨0, 0⟩ [] (tightHeap replacedBindings 0 allKept) .null

/-- The declaration is stored behind the collection. -/
theorem reaches_replacedMachine : (tightMachine.start replacedImage).Reaches replacedMachine := by
  have hload : MachineM.step (tightMachine.start replacedImage) =
      .ok none ((tightCall replacedImage).at 5 ⟨0, 0⟩ [.int 1] (tightHeap builtinBindings 0 allKept) .null) := by
    rw [MachineM.step_eq, collected_tight rfl rfl]
    rfl
  have hstore : MachineM.step ((tightCall replacedImage).at 5 ⟨0, 0⟩ [.int 1] (tightHeap builtinBindings 0 allKept) .null) =
      .ok none replacedMachine := rfl
  exact .step hload (.single hstore)

/-- The builtin that was replaced is not among what is reachable. -/
theorem reachable_replacedMachine : replacedMachine.reachable ≤ 4 := by
  have hvalid : replacedBindings.Valid := valid_builtinBindings.insert
  have hget : ∀ name v, replacedBindings.get? name = some v → v = .int 1 ∨ v = builtinRef 2 ∨ v = builtinRef 3 ∨ v = builtinRef 4 := by
    intro name v hname
    rw [replacedBindings, valid_builtinBindings.get?_insert, get?_builtinBindings] at hname
    by_cases hlen : ("len" == name) = true
    · rw [if_pos hlen] at hname
      exact .inl (Option.some.inj hname).symm
    · rw [if_neg hlen, if_neg hlen] at hname
      split at hname
      · exact .inr (.inr (.inr (Option.some.inj hname).symm))
      · split at hname
        · exact .inr (.inr (.inl (Option.some.inj hname).symm))
        · split at hname
          · exact .inr (.inl (Option.some.inj hname).symm)
          · nomatch hname
  have hclosed : ∀ a, replacedMachine.heap.Reachable replacedMachine.roots a →
      a ∈ ({⟨0, 0⟩, ⟨2, 0⟩, ⟨3, 0⟩, ⟨4, 0⟩} : Finset Handle) := by
    intro a ha
    induction ha with
    | @root a hroot =>
      have hroots : replacedMachine.roots = [⟨0, 0⟩, ⟨0, 0⟩] := rfl
      have hglobals : a = ⟨0, 0⟩ := by simpa [hroots] using hroot
      simp [hglobals]
    | @reference a c o _ ho hc ih =>
      simp only [Finset.mem_insert, Finset.mem_singleton] at ih ⊢
      rcases ih with rfl | rfl | rfl | rfl
      · cases ho
        rcases (mem_references_environment hvalid).1 hc with ⟨name, v, hname, hv⟩ | hparent
        · rcases hget name v hname with rfl | rfl | rfl | rfl
          · nomatch hv
          · exact .inr (.inl (Option.some.inj hv).symm)
          · exact .inr (.inr (.inl (Option.some.inj hv).symm))
          · exact .inr (.inr (.inr (Option.some.inj hv).symm))
        · nomatch hparent
      all_goals
        cases ho
        nomatch hc
  have hsub : {a | (replacedMachine.heap.get? a).isSome ∧ replacedMachine.heap.Reachable replacedMachine.roots a} ⊆
      ({⟨0, 0⟩, ⟨2, 0⟩, ⟨3, 0⟩, ⟨4, 0⟩} : Finset Handle) := fun a ha => hclosed a ha.2
  refine (Set.ncard_le_ncard hsub (Finset.finite_toSet _)).trans ?_
  rw [Set.ncard_coe_finset]
  exact Finset.card_le_four

/-- A heap for five objects is reported full where only four are reachable: nothing was allocated since the last collection. -/
theorem exhausted_replacedSample : ∃ m₁ m₂, ofSettings { maxHeapObjects := some 5 } = .ok tightMachine ∧
    replacedSample.compile = .ok replacedImage ∧ (tightMachine.start replacedImage).Reaches m₁ ∧
    MachineM.step m₁ = .error (.heap (.exhausted 5)) m₂ ∧ m₁.reachable < 5 :=
  ⟨replacedMachine, (tightCall replacedImage).at 13 ⟨0, 0⟩ [] (tightHeap replacedBindings 0 allKept) .null, rfl, rfl,
    reaches_replacedMachine, rfl, Nat.lt_succ_of_le reachable_replacedMachine⟩

end Machine

end ScriptVM
