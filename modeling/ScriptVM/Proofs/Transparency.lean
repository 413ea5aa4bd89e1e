import ScriptVM.Proofs.Constancy
import ScriptVM.Proofs.Lockstep

/-!
# Collections that nobody sees

Two machines that collect garbage at different times put their objects at different places, but a program cannot tell: after the
same number of instructions, what one machine still reaches is what the other reaches, up to the handles
(`Machine.run_ignores_threshold`).
-/

namespace ScriptVM

open Pairing

/-- The handle of the result of a run. -/
def RunResult.handle? : RunResult → Option Handle
  | finished v => v.handle?
  | _ => none

/-- The handles from which the objects of a machine can be reached after a run: its roots, and the result of the run. -/
def Machine.rootsAfter (r : RunResult × Machine) : List Handle := r.1.handle?.toList ++ r.2.roots

/-- Two runs have come to the same point, up to handles: `S` pairs the handles that are reached on one side with those that are
reached on the other, one to one, and all that the machines hold and reach is the same but for the handles that it pairs. -/
structure SameRun (S : Correspondence) (r q : RunResult × Machine) : Prop where
  oneToOne : S.OneToOne
  reachedLeft : ∀ a, r.2.heap.Reachable (Machine.rootsAfter r) a ↔ ∃ kind b, S kind a b
  reachedRight : ∀ b, q.2.heap.Reachable (Machine.rootsAfter q) b ↔ ∃ kind a, S kind a b
  result : ResultRel S r.1 q.1
  stack : List.Forall₂ (ValueRel S) r.2.stack.toList q.2.stack.toList
  frames : List.Forall₂ (FrameRel S) r.2.frames.toList q.2.frames.toList
  globals : S none r.2.globals q.2.globals
  lastPopped : ValueRel S r.2.lastPopped q.2.lastPopped
  objects : ∀ {kind a b}, S kind a b → ∃ o p, r.2.heap.get? a = some o ∧ q.2.heap.get? b = some p ∧ o.kind? = kind ∧ ObjectRel S S o p

/-! ## What is reached -/

namespace Pairing

variable {W : Pairing} {roots roots' : List Handle}

/-- The pairs of handles that are reached on the left. -/
def Reached (W : Pairing) (roots : List Handle) : Correspondence := fun kind a b => W.Live kind a b ∧ W.left.Reachable roots a

/-- The pairs of handles that are reached are one to one. -/
theorem Sound.reached_oneToOne (hW : W.Sound) : (W.Reached roots).OneToOne := fun h h' => hW.oneToOne h.1.1 h'.1.1

/-- They are all that is reached on the left. -/
theorem Sound.reachable_left_iff (hW : W.Sound) (hroots : List.Forall₂ (fun a b => ∃ kind, W.Live kind a b) roots roots') (a : Handle) :
    W.left.Reachable roots a ↔ ∃ kind b, W.Reached roots kind a b := by
  constructor
  · intro ha
    obtain ⟨b, ⟨kind, hab⟩, -⟩ := hW.reachable_left hroots ha
    exact ⟨kind, b, hab, ha⟩
  · rintro ⟨kind, b, -, ha⟩
    exact ha

/-- And all that is reached on the right. -/
theorem Sound.reachable_right_iff (hW : W.Sound) (hroots : List.Forall₂ (fun a b => ∃ kind, W.Live kind a b) roots roots')
    (b : Handle) : W.right.Reachable roots' b ↔ ∃ kind a, W.Reached roots kind a b := by
  constructor
  · intro hb
    obtain ⟨a, ⟨kind, hab⟩, ha⟩ := hW.reachable_right hroots hb
    exact ⟨kind, a, hab, ha⟩
  · rintro ⟨kind, a, hab, ha⟩
    obtain ⟨b', ⟨kind', hab'⟩, hb'⟩ := hW.reachable_left hroots ha
    obtain rfl : b = b' := (hW.oneToOne hab.1 hab'.1).1 rfl
    exact hb'

/-- What is inside a value whose handle is reached is reached too. -/
theorem reachable_inside {h : Heap} {c : Handle} {v : Value} (hc : h.Inside c v) (hv : ∀ a, v.handle? = some a → h.Reachable roots a) :
    h.Reachable roots c :=
  hc.mem (fun _ _ ha hget w hw _ he => ha.reference hget (List.mem_filterMap.2 ⟨w, hw, he⟩)) hv

/-- The keys of a map that is reached name objects that are reached. -/
theorem Sound.reachable_keyHandles (hW : W.Sound) {a c : Handle} {o : Object} (ha : W.LiveLeft a) (hreach : W.left.Reachable roots a)
    (ho : W.left.get? a = some o) (hc : c ∈ o.keyHandles) : W.left.Reachable roots c := by
  cases o with
  | map entries =>
    obtain ⟨k, hk, hck⟩ := List.mem_flatMap.1 hc
    obtain ⟨p, hp, rfl⟩ := List.mem_map.1 hk
    refine reachable_inside (hW.keyed ha ho p hp c hck) fun e he => hreach.reference ho ?_
    exact List.mem_flatMap.2 ⟨p.2, List.mem_map_of_mem hp, by simp [he]⟩
  | _ => nomatch hc

/-- Objects that are reached are the same up to handles that are reached. -/
theorem Sound.reached_objects (hW : W.Sound) (hroots : List.Forall₂ (fun a b => ∃ kind, W.Live kind a b) roots roots')
    {kind : Option RefKind} {a b : Handle} (h : W.Reached roots kind a b) : ∃ o p, W.left.get? a = some o ∧
      W.right.get? b = some p ∧ o.kind? = kind ∧ ObjectRel (W.Reached roots) (W.Reached roots) o p := by
  obtain ⟨hab, ha⟩ := h
  obtain ⟨o, p, ho, hp, hkind, hrel⟩ := hW.objects hab
  refine ⟨o, p, ho, hp, hkind, hrel.imp (fun k c hc d _ hcd => ?_) fun k c hc d _ hcd => ⟨hcd, ha.reference ho hc⟩⟩
  -- A handle in a key is reached through the key's value, so its partner still resolves.
  have hreach := hW.reachable_keyHandles ⟨kind, b, hab⟩ ha ho hc
  obtain ⟨d', ⟨k', hlive⟩, -⟩ := hW.reachable_left hroots hreach
  obtain rfl : d = d' := (hW.oneToOne hcd hlive.1).1 rfl
  exact ⟨⟨hcd, hlive.2⟩, hreach⟩

end Pairing

/-! ## Runs -/

variable {W : Pairing} {m n : Machine}

/-- Results that are the same up to handles hold handles that correspond. -/
theorem ResultRel.handle? {S : Correspondence} {r q : RunResult} (h : ResultRel S r q) :
    Option.Rel (fun a b => ∃ kind, S kind a b) r.handle? q.handle? := by
  cases h with
  | finished hvw => exact hvw.handle?
  | failed => exact .none
  | unfinished => exact .none

/-- Twins are the same up to what they reach. -/
theorem Twins.sameRun {r q : RunResult} (h : Twins W m n) (hres : ResultRel W.Live r q) :
    SameRun (W.Reached (Machine.rootsAfter (r, m))) (r, m) (q, n) := by
  have hroots : List.Forall₂ (fun a b => ∃ kind, W.Live kind a b) (Machine.rootsAfter (r, m)) (Machine.rootsAfter (q, n)) :=
    List.rel_append (Option.Rel.toList_forall₂ hres.handle?) h.roots
  have hroot : ∀ {kind a b}, W.Live kind a b → a ∈ m.roots → W.Reached (Machine.rootsAfter (r, m)) kind a b :=
    fun hab ha => ⟨hab, .root (List.mem_append_right _ ha)⟩
  constructor
  case oneToOne => exact h.sound.reached_oneToOne
  case reachedLeft =>
    change ∀ a, m.heap.Reachable _ a ↔ _
    rw [h.left]
    exact h.sound.reachable_left_iff hroots
  case reachedRight =>
    change ∀ b, n.heap.Reachable _ b ↔ _
    rw [h.right]
    exact h.sound.reachable_right_iff hroots
  case result =>
    cases hres with
    | finished hvw =>
      refine .finished (hvw.imp fun kind a b ha _ hab => ⟨hab, .root (List.mem_append_left _ ?_)⟩)
      exact Option.mem_toList.2 ha
    | failed he => exact .failed he
    | unfinished => exact .unfinished
  case stack =>
    refine forall₂_imp_mem h.stack fun v hv w _ hvw => hvw.imp fun kind a b ha _ hab => hroot hab ?_
    exact List.mem_append_left _ (List.mem_append_left _ (List.mem_filterMap.2 ⟨v, hv, ha⟩))
  case frames =>
    refine forall₂_imp_mem h.frames fun f hf g _ hfg => ⟨hfg.code, hfg.ip, hfg.base, hroot hfg.env ?_⟩
    exact List.mem_append_left _ (List.mem_append_right _ (List.mem_map_of_mem hf))
  case globals => exact hroot h.globals (List.mem_append_right _ List.mem_cons_self)
  case lastPopped =>
    refine h.lastPopped.imp fun kind a b ha _ hab => hroot hab ?_
    exact List.mem_append_right _ (List.mem_cons_of_mem _ (Option.mem_toList.2 ha))
  case objects =>
    intro kind a b hab
    change ∃ o p, m.heap.get? a = some o ∧ n.heap.get? b = some p ∧ _
    rw [h.left, h.right]
    exact h.sound.reached_objects hroots hab

namespace Machine

/-- When a machine collects garbage makes no difference to any module: on two new machines that differ in it, with heaps of any
size, runs come to the same point after the same number of instructions, as long as handles tell all slots apart. -/
theorem run_ignores_threshold {s : Settings} {threshold : Nat} (hlimit : s.maxHeapObjects = none) (hm : ofSettings s = .ok m)
    (hn : ofSettings { s with gcThreshold := threshold } = .ok n) (bytes : List UInt8) (fuel : Nat)
    (hbm : (m.run fuel bytes).2.Bounded) (hbn : (n.run fuel bytes).2.Bounded) :
    ∃ S, SameRun S (m.run fuel bytes) (n.run fuel bytes) := by
  have hages := hbm.of_ages (ages_run fuel bytes m)
  have hages' := hbn.of_ages (ages_run fuel bytes n)
  obtain ⟨W, h, -⟩ := Twins.ofSettings (s := s) (t := { s with gcThreshold := threshold }) rfl rfl rfl hm hn hages hages'
  have hfree : m.heap.limit = none := (Twins.limit_ofSettings hm).trans hlimit
  obtain ⟨W', h', hres, -⟩ := h.run fuel bytes hbm hbn (.inl hfree)
  exact ⟨_, h'.sameRun hres⟩

/-- Two texts are put together, which leaves them behind as garbage, and a third one is returned. -/
def wastefulCode : List Instruction := [.load (.text "a"), .load (.text "b"), .binary (.arith .add), .load (.text "c"), .ret]

/-- The module. -/
def wasteful : Image := ⟨"m.vs", "m", encodeAll wastefulCode⟩

/-- The call of the module on a new machine that collects garbage when so many objects were allocated. -/
def wastefulCall (threshold : Nat) : Activation where
  code := ⟨"m.vs", "m", [], [], false, wasteful.code.toArray⟩
  base := 0
  outer := #[]
  globals := ⟨0, 0⟩
  settings := { gcThreshold := threshold }

/-- The heap of a new machine with texts behind the builtins. -/
def textHeap (threshold : Nat) (texts : List String) : Heap :=
  { lateHeap builtinBindings (texts.map Object.text) with threshold := threshold }

/-- The module after some instructions. -/
def wastefulMachine (threshold done : Nat) (stack : List Value) (heap : Heap) : Machine :=
  (wastefulCall threshold).at (codeSize (wastefulCode.take done)) ⟨0, 0⟩ stack heap .null

/-- The heap after a collection that has freed the first two texts and kept the third. -/
def sweptHeap : Heap where
  slots := (tightHeap builtinBindings 0 {}).slots ++ #[⟨1, false, none⟩, ⟨1, false, none⟩, ⟨0, false, some (.text "ab")⟩]
  free := [6, 5]
  live := 6
  recent := 0
  threshold := 8
  limit := none
  last := ⟨6, 2, 6, 1⟩

/-- The globals refer to the builtins. -/
theorem index_of_mem_references {a : Handle} (ha : a ∈ (Object.environment ⟨builtinBindings, none⟩).references) :
    a ∈ [⟨1, 0⟩, ⟨2, 0⟩, ⟨3, 0⟩, (⟨4, 0⟩ : Handle)] := by
  rcases (mem_references_environment valid_builtinBindings).1 ha with ⟨name, v, hget, hv⟩ | hparent
  · rw [get?_builtinBindings] at hget
    split_ifs at hget
    all_goals
      cases hget
      cases hv
      decide
  · nomatch hparent

/-- What the globals and the third text reach. -/
theorem reachable_textHeap {a : Handle} (ha : (textHeap 8 ["a", "b", "ab"]).Reachable [⟨7, 0⟩, ⟨0, 0⟩, ⟨0, 0⟩] a) :
    a ∈ [⟨0, 0⟩, ⟨7, 0⟩, ⟨1, 0⟩, ⟨2, 0⟩, ⟨3, 0⟩, (⟨4, 0⟩ : Handle)] := by
  induction ha with
  | root ha =>
    have hroots : ∀ a ∈ [⟨7, 0⟩, ⟨0, 0⟩, ⟨0, 0⟩], a ∈ [⟨0, 0⟩, ⟨7, 0⟩, ⟨1, 0⟩, ⟨2, 0⟩, ⟨3, 0⟩, (⟨4, 0⟩ : Handle)] := by decide
    exact hroots _ ha
  | reference _ ho hc ih =>
    simp only [List.mem_cons, List.not_mem_nil, or_false] at ih
    rcases ih with rfl | rfl | rfl | rfl | rfl | rfl <;> cases ho
    · exact List.mem_cons_of_mem _ (List.mem_cons_of_mem _ (index_of_mem_references hc))
    all_goals nomatch hc

/-- The collection frees the texts that were put together. -/
theorem collect_textHeap : (textHeap 8 ["a", "b", "ab"]).collect [⟨7, 0⟩, ⟨0, 0⟩, ⟨0, 0⟩] = sweptHeap := by
  have hunmarked : (textHeap 8 ["a", "b", "ab"]).Unmarked := by decide
  rw [Heap.collect_eq hunmarked (fun i => i != 5 && i != 6)]
  · rfl
  · intro i hi
    constructor
    · intro hkept
      have hcases : i < 5 ∨ i = 7 := by
        have hi : i < 8 := hi
        simp only [Bool.and_eq_true, bne_iff_ne] at hkept
        omega
      rcases hcases with hbuiltin | rfl
      · refine ⟨⟨.ofNat i, 0⟩, ?_, ?_, reachable_builtin rfl (by simp) i hbuiltin⟩
        · interval_cases i <;> rfl
        · interval_cases i <;> rfl
      · exact ⟨⟨7, 0⟩, rfl, rfl, .root (by simp)⟩
    · rintro ⟨a, rfl, -, ha⟩
      have hmem := reachable_textHeap ha
      simp only [List.mem_cons, List.not_mem_nil, or_false] at hmem
      rcases hmem with rfl | rfl | rfl | rfl | rfl | rfl <;> rfl

/-- With either threshold the machine has done the same when the texts are put together. -/
theorem run_wasteful {threshold : Nat} (ht : threshold = 0 ∨ threshold = 8) :
    ∃ m, ofSettings { gcThreshold := threshold } = .ok m ∧ ∀ fuel, m.run (fuel + 3) wasteful.encode =
      steps fuel (wastefulMachine threshold 3 [.ref .string ⟨7, 0⟩] (textHeap threshold ["a", "b", "ab"])) := by
  have hdecode : Image.decode wasteful.encode = .ok wasteful := by decide +kernel
  have hfirst : MachineM.step (wastefulMachine threshold 0 [] (textHeap threshold [])) =
      .ok none (wastefulMachine threshold 1 [.ref .string ⟨5, 0⟩] (textHeap threshold ["a"])) := by
    rcases ht with rfl | rfl <;> rfl
  have hsecond : MachineM.step (wastefulMachine threshold 1 [.ref .string ⟨5, 0⟩] (textHeap threshold ["a"])) =
      .ok none (wastefulMachine threshold 2 [.ref .string ⟨5, 0⟩, .ref .string ⟨6, 0⟩] (textHeap threshold ["a", "b"])) := by
    rcases ht with rfl | rfl <;> rfl
  have hthird :
      MachineM.step (wastefulMachine threshold 2 [.ref .string ⟨5, 0⟩, .ref .string ⟨6, 0⟩] (textHeap threshold ["a", "b"])) =
        .ok none (wastefulMachine threshold 3 [.ref .string ⟨7, 0⟩] (textHeap threshold ["a", "b", "ab"])) := by
    rcases ht with rfl | rfl <;> rfl
  refine ⟨{ plainMachine with heap := textHeap threshold [], settings := { gcThreshold := threshold } }, ?_, fun fuel => ?_⟩
  · rcases ht with rfl | rfl <;> rfl
  · have hstart : ({ plainMachine with heap := textHeap threshold [], settings := { gcThreshold := threshold } } : Machine).start
        wasteful = wastefulMachine threshold 0 [] (textHeap threshold []) := rfl
    simp only [run, hdecode, hstart, steps, hfirst, hsecond, hthird]

/-- Without a collection the last text is put behind the others. -/
theorem steps_wasteful_kept : steps 2 (wastefulMachine 0 3 [.ref .string ⟨7, 0⟩] (textHeap 0 ["a", "b", "ab"])) =
    (.finished (.ref .string ⟨8, 0⟩),
      { wastefulMachine 0 5 [] (textHeap 0 ["a", "b", "ab", "c"]) with frames := #[] }) := rfl

/-- The heap after that, with the last text in one of the freed slots. -/
def reusedHeap : Heap := (sweptHeap.place (.text "c")).2

/-- With a collection it takes a slot that was freed. -/
theorem steps_wasteful_swept : steps 2 (wastefulMachine 8 3 [.ref .string ⟨7, 0⟩] (textHeap 8 ["a", "b", "ab"])) =
    (.finished (.ref .string ⟨6, 1⟩), { wastefulMachine 8 5 [] reusedHeap with frames := #[] }) := by
  have hcollect : (wastefulMachine 8 3 [.ref .string ⟨7, 0⟩] (textHeap 8 ["a", "b", "ab"])).collected =
      wastefulMachine 8 3 [.ref .string ⟨7, 0⟩] sweptHeap := by
    have hdue : (wastefulMachine 8 3 [.ref .string ⟨7, 0⟩] (textHeap 8 ["a", "b", "ab"])).heap.shouldCollect = true := rfl
    rw [collected, if_pos hdue]
    exact congrArg (wastefulMachine 8 3 [.ref .string ⟨7, 0⟩]) collect_textHeap
  have hload : MachineM.step (wastefulMachine 8 3 [.ref .string ⟨7, 0⟩] (textHeap 8 ["a", "b", "ab"])) =
      .ok none (wastefulMachine 8 4 [.ref .string ⟨7, 0⟩, .ref .string ⟨6, 1⟩] reusedHeap) := by
    rw [MachineM.step_eq, hcollect]
    rfl
  have hret : MachineM.step (wastefulMachine 8 4 [.ref .string ⟨7, 0⟩, .ref .string ⟨6, 1⟩] reusedHeap) =
      .ok (some (.ref .string ⟨6, 1⟩)) { wastefulMachine 8 5 [] reusedHeap with frames := #[] } := rfl
  simp only [steps, hload, hret]

/-- A run without a collection and one that frees two texts and uses a slot of them again return texts of different handles. -/
theorem run_ignores_threshold_wasteful : ∃ m n, ofSettings { gcThreshold := 0 } = .ok m ∧ ofSettings { gcThreshold := 8 } = .ok n ∧
    (m.run 5 wasteful.encode).1 = .finished (.ref .string ⟨8, 0⟩) ∧ (m.run 5 wasteful.encode).2.heap.last.collections = 0 ∧
    (n.run 5 wasteful.encode).1 = .finished (.ref .string ⟨6, 1⟩) ∧ (n.run 5 wasteful.encode).2.heap.last.freed = 2 ∧
    ∃ S, SameRun S (m.run 5 wasteful.encode) (n.run 5 wasteful.encode) := by
  obtain ⟨m, hm, hleft⟩ := run_wasteful (.inl rfl)
  obtain ⟨n, hn, hright⟩ := run_wasteful (.inr rfl)
  have hm₅ := (hleft 2).trans steps_wasteful_kept
  have hn₅ := (hright 2).trans steps_wasteful_swept
  have hbound : (m.run 5 wasteful.encode).2.Bounded := by
    rw [hm₅]
    exact ⟨(by decide : 9 < Heap.maxSlots), (by decide : 0 < UInt32.size)⟩
  have hbound' : (n.run 5 wasteful.encode).2.Bounded := by
    rw [hn₅]
    exact ⟨(by decide : 8 < Heap.maxSlots), (by decide : 1 < UInt32.size)⟩
  refine ⟨m, n, hm, hn, ?_, ?_, ?_, ?_, run_ignores_threshold (s := { gcThreshold := 0 }) rfl hm hn wasteful.encode 5 hbound hbound'⟩
  · rw [hm₅]
  · rw [hm₅]
    rfl
  · rw [hn₅]
  · rw [hn₅]
    rfl

end Machine

end ScriptVM
