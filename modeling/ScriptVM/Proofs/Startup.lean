import ScriptVM.Proofs.Erasure

/-!
# New machines

A new machine is made by allocating the globals and defining one builtin after the other. What holds of the empty globals and is
kept by each definition holds of every new machine (`Machine.of_ofSettings`).
-/

namespace ScriptVM

/-- The builtins as native functions. -/
def Builtin.natives : List Native := Builtin.all.map fun b => ⟨b.name, b.arity, .builtin b⟩

namespace Machine

/-- Defining a native function allocates it and binds it in the globals. -/
theorem defineNative_eq_ok {n : Native} {m m' : Machine} (h : defineNative n m = .ok () m') :
    ∃ v h₁ h₂, HeapM.allocRef .native (.native n) m.heap = .ok v h₁ ∧ HeapM.define m.globals n.name v h₁ = .ok () h₂ ∧
      m' = { m with heap := h₂ } := by
  unfold defineNative MachineM.onHeap at h
  cases ha : HeapM.allocRef .native (.native n) m.heap with
  | error e h₁ =>
    simp only [ha] at h
    cases e <;> nomatch h
  | ok v h₁ =>
    simp only [ha] at h
    cases hd : HeapM.define m.globals n.name v h₁ with
    | error e h₂ =>
      simp only [hd] at h
      nomatch h
    | ok u h₂ =>
      simp only [hd] at h
      cases h
      exact ⟨v, h₁, h₂, rfl, hd, rfl⟩

/-- Definitions in sequence are made one after the other. -/
theorem defineNatives_cons {n : Native} {ns : List Native} {m m' : Machine} (h : (n :: ns).forM defineNative m = .ok () m') :
    ∃ m₁, defineNative n m = .ok () m₁ ∧ ns.forM defineNative m₁ = .ok () m' := by
  change EStateM.bind (defineNative n) (fun _ => ns.forM defineNative) m = _ at h
  unfold EStateM.bind at h
  cases hd : defineNative n m with
  | error e m₁ =>
    rw [hd] at h
    nomatch h
  | ok u m₁ =>
    rw [hd] at h
    exact ⟨m₁, rfl, h⟩

/-- A new machine: its globals are allocated, and the builtins defined in them. -/
theorem ofSettings_eq_ok {s : Settings} {m : Machine} (h : ofSettings s = .ok m) :
    ∃ globals heap, HeapM.alloc (.environment { parent := none }) (.ofSettings s) = .ok globals heap ∧
      Builtin.natives.forM defineNative { heap, globals, settings := s } = .ok () m := by
  unfold ofSettings at h
  split at h
  · nomatch h
  · rename_i globals heap halloc
    simp only at h
    split at h
    · rename_i m' hm
      cases h
      exact ⟨globals, heap, by rw [HeapM.alloc, halloc], hm⟩
    · nomatch h

/-- What holds of a machine with empty globals, and is kept when a builtin is defined, holds of a new machine. -/
theorem of_ofSettings {s : Settings} {m : Machine} {P : Machine → Prop} (h : ofSettings s = .ok m)
    (hbase : ∀ globals heap, HeapM.alloc (.environment { parent := none }) (.ofSettings s) = .ok globals heap →
      P { heap, globals, settings := s })
    (hstep : ∀ n ∈ Builtin.natives, ∀ m v h₁ h₂, P m → HeapM.allocRef .native (.native n) m.heap = .ok v h₁ →
      HeapM.define m.globals n.name v h₁ = .ok () h₂ → P { m with heap := h₂ }) : P m := by
  have hall : ∀ (ns : List Native), (∀ n ∈ ns, n ∈ Builtin.natives) → ∀ m₀, P m₀ → ∀ m',
      ns.forM defineNative m₀ = .ok () m' → P m' := by
    intro ns
    induction ns with
    | nil =>
      intro _ m₀ hp m' hm
      cases hm
      exact hp
    | cons n ns ih =>
      intro hns m₀ hp m' hm
      obtain ⟨m₁, hd, hrest⟩ := defineNatives_cons hm
      obtain ⟨v, h₁, h₂, ha, hdef, rfl⟩ := defineNative_eq_ok hd
      exact ih (fun k hk => hns k (List.mem_cons_of_mem n hk)) _
        (hstep n (hns n List.mem_cons_self) m₀ v h₁ h₂ hp ha hdef) m' hrest
  obtain ⟨globals, heap, halloc, hm⟩ := ofSettings_eq_ok h
  exact hall Builtin.natives (fun _ hn => hn) _ (hbase globals heap halloc) m hm

end Machine

/-- A heap without closures has no code to lose. -/
theorem Heap.erase_of_closureAt {h : Heap} (hc : ∀ i, h.closureAt i = none) : h.erase = h := by
  have hslots : h.slots.map Slot.erase = h.slots := by
    apply Array.ext
    · simp
    · intro i h1 h2
      have hi := hc i
      rw [Heap.closureAt, Array.getElem?_eq_getElem h2] at hi
      rw [Array.getElem_map]
      cases hs : h.slots[i] with
      | mk generation marked object =>
        rw [hs] at hi
        cases object with
        | none => rfl
        | some o =>
          cases o with
          | function f => cases hi
          | _ => rfl
  rw [Heap.erase, hslots]

namespace Machine

/-- A machine whose heap is quiet and holds no closure, and which has not run yet. -/
structure Blank (m : Machine) : Prop where
  quiet : m.heap.Quiet
  closures : ∀ i, m.heap.closureAt i = none
  resolver : m.resolver = none
  lastPopped : m.lastPopped = .null

/-- What looks at no code keeps a heap without closures. -/
theorem Blank.plain {m : Machine} (hm : m.Blank) {α : Type} {x : HeapM α} (hx : Plain x) {a : α} {h : Heap}
    (he : x m.heap = .ok a h) : Blank { m with heap := h } := by
  have hafter : heapAfter (x m.heap) = h := by rw [he]; rfl
  refine ⟨?_, fun i => ?_, hm.resolver, hm.lastPopped⟩
  · rw [← hafter]
    exact (hx.grows m.heap).quiet hm.quiet
  · cases hi : h.closureAt i with
    | none => rfl
    | some f =>
      rw [← hafter] at hi
      have hold := hx.closures m.heap i f hi
      rw [hm.closures i] at hold
      nomatch hold

/-- A new machine without thresholds is quiet, holds no closure, and has not run. -/
theorem blank_ofSettings {s : Settings} {m : Machine} (ht : s.gcThreshold = 0) (hl : s.maxHeapObjects = none)
    (h : ofSettings s = .ok m) : m.Blank := by
  have hempty : Blank { heap := .ofSettings s, globals := ⟨0, 0⟩, settings := s } :=
    ⟨⟨ht, hl⟩, fun i => by simp [Heap.closureAt, Heap.ofSettings], rfl, rfl⟩
  refine of_ofSettings h (fun globals heap ha => ?_) fun n _ m v h₁ h₂ hm ha hd => ?_
  · have hb := hempty.plain (Plain.alloc rfl rfl) ha
    exact ⟨hb.quiet, hb.closures, rfl, rfl⟩
  · exact (hm.plain (Plain.allocRef rfl rfl) ha).plain (Plain.define m.globals n.name v) hd

end Machine

end ScriptVM
