import ScriptVM.Proofs.Frames
import ScriptVM.Proofs.Startup
import ScriptVM.Proofs.Streams

/-!
# Compiled programs do not go wrong

A step of a secure machine leaves it secure, ends its run, or fails for something that the code is not to blame for
(`Machine.Secure.step`). A machine that runs one compiled program after the other is secure whenever it has frames, whatever became
of the runs before (`Machine.Programs.secure`). So its frames always stand at instructions, no instruction touches operands from
before its frame was entered, and no run fails for code of the wrong shape.
-/

namespace ScriptVM

open Heap (maxSlots)

namespace Machine

/-- How many operands there were when the innermost frame was entered: none for a module, and for a call those up to the function
called. -/
def entryHeight (m : Machine) : Nat :=
  match m.frames.back? with
  | some f => if m.frames.size = 1 then 0 else f.base + 1
  | none => 0

/-- How many operands an instruction of the innermost frame must leave alone: all from before the frame was entered, but a return
drops the function called. -/
def sparedBy (m : Machine) (i : Instruction) : Nat := if i = .ret then m.entryHeight - 1 else m.entryHeight

/-- A machine whose heap verified code may run on. -/
structure Ready (m : Machine) : Prop where
  trusted : m.heap.Trusted
  sparse : m.heap.slots.size < maxSlots → m.heap.Sparse
  resolver : m.resolver = none

/-- An error that no code of the wrong shape brought about, unless handles cannot tell all slots apart. -/
def Excuses (m : Machine) (e : RuntimeError) : Prop := e.isFault = true → e = noScope ∧ maxSlots ≤ m.heap.slots.size

/-- What a step of the innermost frame with an instruction leads to. -/
structure StepsTo (m : Machine) (i : Instruction) (r : Option Value) (m' : Machine) : Prop where
  ready : m'.Ready
  spares : m'.stack.toList.take (m.sparedBy i) = m.stack.toList.take (m.sparedBy i)
  enters : m.frames.size < m'.frames.size → m'.stack.size = m'.entryHeight
  goesOn : r = none → m'.Secure
  ends : r ≠ none → m'.frames = #[]

end Machine

section

variable {h heap heap' : Heap} {c : Activation} {ip : Nat} {env : Handle} {stack below : List Value} {last : Value} {σ : Layout}

/-- The callers of a call have left at least the function called. -/
theorem Waits.entryHeight (hw : Waits h c.outer below) (hb : c.base = below.length - 1) :
    (c.at ip env stack heap last).entryHeight = below.length := by
  unfold Machine.entryHeight Activation.at
  simp only [Array.back?_push, Array.size_push]
  generalize c.outer = outer at hw
  cases hw with
  | none => rfl
  | call => simp [hb]

/-- A machine is ready for more on a heap that has evolved. -/
theorem Heap.Evolves.ready (hh : h.Evolves heap) (ht : h.Trusted) (hs : h.Surrounds 0 env) {m : Machine} (hm : m.heap = heap)
    (hr : m.resolver = none) : m.Ready := by
  refine ⟨?_, ?_, hr⟩
  · rw [hm]
    exact hh.trusted ht
  · rw [hm]
    exact fun hsize => (hs.grow hh.grows hsize).1

/-- An instruction that arrives where its layout says leaves the machine secure. -/
theorem stepsTo_of_arrives {i : Instruction} {paths : List (Nat × Layout)} {m : Machine} (ht : h.Trusted)
    (hw : Waits h c.outer below) (hb : c.base = below.length - 1) (hl : Laid below stack σ.operands)
    (hs : h.Surrounds σ.scopes env) (hi : i ≠ .ret)
    (hplaced : ∀ q ∈ paths, q.1 ≤ c.code.instructions.size ∧ Frame.Placed ⟨c.code, q.1, env, c.base⟩ q.2)
    (ha : Arrives c below h paths m) : (c.at ip env stack h last).StepsTo i none m := by
  obtain ⟨q, hq, env', stack', heap', last', rfl, hl', hh, hs'⟩ := ha
  have hspared : (c.at ip env stack h last).sparedBy i = below.length := by
    rw [Machine.sparedBy, if_neg hi, hw.entryHeight hb]
  refine ⟨hh.ready ht (hs.zero env) rfl rfl, ?_, ?_, fun _ => ?_, fun hr => absurd rfl hr⟩
  · rw [hspared]
    exact hl'.take.trans hl.take.symm
  · intro hmore
    simp [Activation.at] at hmore
  · exact .mk (hh.trusted ht) (hw.grow hh.grows) (hplaced q hq).2 hs' hb hl'

/-- A call that enters a function leaves the machine secure. -/
theorem stepsTo_of_enters {i : Instruction} {next : Nat} {τ : Layout} {m : Machine} (ht : h.Trusted) (hw : Waits h c.outer below)
    (hb : c.base = below.length - 1) (hl : Laid below stack σ.operands) (hs : h.Surrounds τ.scopes env) (hi : i ≠ .ret)
    (hplaced : Frame.Placed ⟨c.code, next, env, c.base⟩ (τ.push [.value])) (he : Enters c next env below h τ m) :
    (c.at ip env stack h last).StepsTo i none m := by
  obtain ⟨f, scope, rest, callee, heap', last', rfl, hf, hrest, hh⟩ := he
  have hspared : (c.at ip env stack h last).sparedBy i = below.length := by
    rw [Machine.sparedBy, if_neg hi, hw.entryHeight hb]
  have hwaits : Waits heap' (c.outer.push ⟨c.code, next, env, c.base⟩) (rest ++ [callee]) :=
    .call (hw.grow hh.grows) hplaced (hs.grow hh.grows) hb hrest
  have hbase : rest.length = (rest ++ [callee]).length - 1 := by simp
  obtain ⟨code, hvetted, hfits⟩ := (hf ht).vetted
  refine ⟨hh.ready ht (hs.zero env) rfl rfl, ?_, fun _ => ?_, fun _ => ?_, fun hr => absurd rfl hr⟩
  · rw [hspared]
    change (rest ++ [callee]).take below.length = _
    rw [List.take_append_of_le_length (by rw [hrest.length]; omega)]
    exact hrest.take.trans hl.take.symm
  · rw [Waits.entryHeight hwaits hbase]
    rfl
  · have hlaid : Laid (rest ++ [callee]) (rest ++ [callee]) (Layout.mk [] 0).operands := .base
    exact .mk (hh.trusted ht) hwaits ⟨code, hvetted, hfits⟩ ((hs.zero scope).grow hh.grows) hbase hlaid

/-- A return ends the run, or leaves the machine secure with the caller. -/
theorem safe_return {v : Value} {τ : Layout} (ht : h.Trusted) (hw : Waits h c.outer below) (hb : c.base = below.length - 1)
    (hs : h.Surrounds σ.scopes env) (hl : Laid below stack τ.operands) {next : Nat} :
    Safe h (MachineM.returnValue v (c.at next env stack h last)) ((c.at ip env (stack ++ [v]) h last).StepsTo .ret) := by
  have hspared : (c.at ip env (stack ++ [v]) h last).sparedBy .ret = c.base := by
    rw [Machine.sparedBy, if_pos rfl, hw.entryHeight hb, hb]
  have hkept : (stack ++ [v]).take c.base = stack.take c.base := by
    rw [List.take_append_of_le_length (by rw [hb, hl.length]; omega)]
  have hready : ∀ {m : Machine}, m.heap = h → m.resolver = none → m.Ready := (Heap.Evolves.refl h).ready ht (hs.zero env)
  rw [Activation.returnValue_at]
  generalize houter : c.outer = outer at hw
  cases hw with
  | none =>
    rw [if_pos (Array.isEmpty_iff.2 rfl)]
    refine ⟨hready rfl rfl, ?_, fun hmore => ?_, fun hr => (nomatch hr), fun _ => rfl⟩
    · rw [hspared]
      change (stack.take c.base).take c.base = (stack ++ [v]).take c.base
      rw [hkept, List.take_take, Nat.min_self]
    · simp [Activation.at] at hmore
  | @call outer f ρ below stack' callee hw hplaced hs' hb' hl' =>
    have hbase : c.base = stack'.length := by simp [hb]
    have htake : stack.take c.base = stack' := by
      have hbelow := congrArg (List.take c.base) hl.take
      rwa [List.take_take, Nat.min_eq_left (by simp [hbase]), hbase, List.take_left, ← hbase] at hbelow
    rw [if_neg (by simp), htake]
    change Safe h ((MachineM.push v >>= fun _ => pure none)
      (Activation.at ⟨f.code, f.base, outer, c.globals, c.settings⟩ f.ip f.env stack' h last)) _
    refine (Safe.push (.refl h)).bind ?_
    rintro _ _ rfl
    refine ⟨hready rfl rfl, ?_, fun hmore => ?_, fun _ => .mk ht hw hplaced hs' hb' (hl'.value v), fun hr => absurd rfl hr⟩
    · rw [hspared]
      change (stack' ++ [v]).take c.base = (stack ++ [v]).take c.base
      rw [hkept, htake, hbase, List.take_left]
    · simp only [Activation.at, houter, Array.size_push] at hmore
      omega

/-- What a frame at its position does next. -/
theorem safe_advance (ht : h.Trusted) (hw : Waits h c.outer below) (hp : Frame.Placed ⟨c.code, ip, env, c.base⟩ σ)
    (hs : h.Surrounds σ.scopes env) (hb : c.base = below.length - 1) (hl : Laid below stack σ.operands) :
    ∃ i, Instruction.decode c.code.instructions ip = .ok (i, i.width) ∧ below.length + i.takes ≤ stack.length ∧
      Safe h (MachineM.advance (c.at ip env stack h last)) ((c.at ip env stack h last).StepsTo i) := by
  obtain ⟨i, paths, hdecode, hafter, hpaths, hfunction⟩ := hp.next
  have htakes := Instruction.takes_le hafter
  refine ⟨i, hdecode, by rw [hl.length]; omega, ?_⟩
  by_cases hret : i = .ret
  · subst hret
    obtain ⟨rest, taken, rfl, htaken, hrest⟩ := hl.split htakes
    obtain ⟨v, rfl⟩ := List.length_eq_one_iff.1 htaken
    have hrest' : Laid below rest (σ.drop 1).operands := hrest
    rw [Activation.advance_ret_at hdecode]
    exact safe_return ht hw hb hs hrest'
  · rw [Activation.advance_at hdecode hret]
    change Safe h ((MachineM.execute ⟨c.code, ip, env, c.base⟩ (ip + i.width) i >>= fun _ => pure none) _) _
    by_cases hcall : ∃ argc, i = .call argc
    · obtain ⟨argc, rfl⟩ := hcall
      refine (safe_call htakes hl hs).bind fun _ m hm => ?_
      have hpaths' : paths = [(ip + (Instruction.call argc).width, (σ.drop (argc.toNat + 1)).push [.value])] := by
        rw [Instruction.after_of_combines rfl _ htakes] at hafter
        exact (Option.some.inj hafter).symm
      subst hpaths'
      rcases hm with ha | he
      · exact stepsTo_of_arrives ht hw hb hl hs hret hpaths ha
      · have hcaller : h.Surrounds (σ.drop (argc.toNat + 1)).scopes env := hs
        exact stepsTo_of_enters ht hw hb hl hcaller hret (hpaths _ (.head _)).2 he
    · have hnocall : ∀ argc, i ≠ .call argc := fun argc heq => hcall ⟨argc, heq⟩
      refine (safe_execute hafter (fun q hq => (hpaths q hq).1) hfunction hret hnocall hl hs).bind fun _ m ha => ?_
      exact stepsTo_of_arrives ht hw hb hl hs hret hpaths ha

end

namespace Machine

variable {m : Machine} {s : Settings}

/-- A collection keeps the environments of all frames. -/
theorem Secure.collected (h : m.Secure) : m.collected.Secure := by
  unfold Machine.collected
  split
  · cases h with
    | @mk c ip env stack below heap last σ ht hw hp hs hb hl =>
      have hroots : ∀ f ∈ (c.outer.push ⟨c.code, ip, env, c.base⟩), f.env ∈ (c.at ip env stack heap last).roots := by
        intro f hf
        have hmem : f.env ∈ (c.at ip env stack heap last).frames.toList.map Frame.env :=
          List.mem_map.2 ⟨f, Array.mem_toList_iff.2 hf, rfl⟩
        simp only [roots, List.mem_append]
        exact .inl (.inr hmem)
      exact .mk ht.collect (hw.collect fun f hf => hroots f (Array.mem_push_of_mem _ hf)) hp
        (hs.collect (hroots _ Array.mem_push_self)) hb hl
  · exact h

/-- What a step leads to: a machine as described, or an error that the code is not to blame for. -/
def StepEnds (m : Machine) (i : Instruction) : EStateM.Result RuntimeError Machine (Option Value) → Prop
  | .ok r m' => m.StepsTo i r m'
  | .error e m' => m'.Ready ∧ m'.Excuses e

/-- The innermost frame is at an instruction that finds its operands above the entry height, and a step of it ends as described. -/
def Steps (m : Machine) (r : EStateM.Result RuntimeError Machine (Option Value)) : Prop :=
  ∃ f i, m.frames.back? = some f ∧ Instruction.decode f.code.instructions f.ip = .ok (i, i.width) ∧
    m.entryHeight + i.takes ≤ m.stack.size ∧ m.StepEnds i r

/-- An instruction of a secure machine leads to what it should. -/
theorem Secure.advance (h : m.Secure) : m.Steps (MachineM.advance m) := by
  cases h with
  | @mk c ip env stack below heap last σ ht hw hp hs hb hl =>
    obtain ⟨i, hdecode, htakes, hsafe⟩ : ∃ i, _ ∧ _ ∧ Safe heap (MachineM.advance (c.at ip env stack heap last)) _ :=
      safe_advance ht hw hp hs hb hl
    refine ⟨⟨c.code, ip, env, c.base⟩, i, by simp [Activation.at], hdecode, ?_, ?_⟩
    · rw [hw.entryHeight hb]
      exact htakes
    · unfold Safe at hsafe
      split at hsafe
      · rename_i r m' hr
        rw [hr]
        exact hsafe
      · rename_i e m' hr
        rw [hr]
        exact ⟨hsafe.1.ready ht (hs.zero env) rfl hsafe.2.1, hsafe.2.2⟩

/-- A collection leaves operands and frames as they are. -/
theorem Steps.of_collected {r : EStateM.Result RuntimeError Machine (Option Value)} (h : m.collected.Steps r) : m.Steps r := by
  unfold Machine.collected at h
  split at h
  · obtain ⟨f, i, hf, hdecode, htakes, hends⟩ := h
    refine ⟨f, i, hf, hdecode, htakes, ?_⟩
    cases r with
    | ok r m' => exact ⟨hends.ready, hends.spares, hends.enters, hends.goesOn, hends.ends⟩
    | error e m' => exact hends
  · exact h

/-- A step of a secure machine leads to what it should, with the collection that may be due. -/
theorem Secure.step (h : m.Secure) : m.Steps (MachineM.step m) := h.collected.advance.of_collected

/-- The frames of a secure machine are at instructions that their code is listed with. -/
theorem Secure.listed (h : m.Secure) : ∀ f ∈ m.frames.toList,
    ∃ listed, decodeStream f.code.instructions.toList = .ok listed ∧ ∃ l ∈ listed, l.offset = f.ip := by
  cases h with
  | mk ht hw hp hs hb hl =>
    intro f hf
    rcases Array.mem_push.1 (Array.mem_toList_iff.1 hf) with hf | rfl
    · obtain ⟨σ, hplaced⟩ := hw.placed f hf
      exact hplaced.listed
    · exact hp.listed

/-! ## Runs -/

/-- A run ended with no error that code of the wrong shape brought about. -/
structure RunExcuses (m : Machine) (r : RunResult) : Prop where
  runtime : ∀ e, r = .failed (.runtime e) → m.Excuses e
  bytecode : ∀ e, r ≠ .failed (.bytecode e)

/-- A run that has not failed excuses itself. -/
theorem RunExcuses.of_ne_failed {r : RunResult} (h : ∀ e, r ≠ .failed e) : m.RunExcuses r :=
  ⟨fun _ he => absurd he (h _), fun _ => h _⟩

/-- A machine that is ready, and secure as long as it has frames. -/
def Settled (m : Machine) : Prop := m.Ready ∧ (m.frames = #[] ∨ m.Secure)

theorem Secure.ready (h : m.Secure) : m.Ready := by
  cases h with
  | mk ht hw hp hs hb hl => exact ⟨ht, fun hsize => (hs hsize).1, rfl⟩

/-- A run of a secure machine settles, and fails for nothing that the code is to blame for. -/
theorem Secure.steps (h : m.Secure) (fuel : Nat) : (steps fuel m).2.Settled ∧ (steps fuel m).2.RunExcuses (steps fuel m).1 := by
  induction fuel generalizing m with
  | zero => exact ⟨⟨h.ready, .inr h⟩, .of_ne_failed fun e he => by cases he⟩
  | succ fuel ih =>
    obtain ⟨f, i, -, -, -, hends⟩ := h.step
    unfold Machine.steps
    cases hr : MachineM.step m with
    | error e m' =>
      rw [hr] at hends
      refine ⟨⟨⟨hends.1.trusted, hends.1.sparse, hends.1.resolver⟩, .inl rfl⟩, fun e' he => ?_, fun e' he => ?_⟩
      · cases he
        exact hends.2
      · cases he
    | ok r m' =>
      rw [hr] at hends
      cases r with
      | some v => exact ⟨⟨hends.ready, .inl (hends.ends (Option.some_ne_none v))⟩, .of_ne_failed fun e he => by cases he⟩
      | none => exact ih (hends.goesOn rfl)

/-- A module of verified code starts with its first instruction. -/
theorem Ready.start (h : m.Ready) {image : Image} (hv : Verified image.code) : (m.start image).Secure := by
  obtain ⟨code, hvetted, hfits⟩ := hv.vetted
  have hstart : m.start image = Activation.at ⟨⟨image.path, image.name, [], [], false, image.code.toArray⟩, 0, #[], m.globals, m.settings⟩
      0 m.globals [] m.heap m.lastPopped := by
    rw [Machine.start, Activation.at, ← h.resolver]
    rfl
  rw [hstart]
  have hlaid : Laid [] [] (Layout.mk [] 0).operands := .base
  exact .mk h.trusted .none ⟨code, hvetted, hfits⟩ (fun hsize => ⟨h.sparse hsize, trivial⟩) rfl hlaid

/-- The machines of runs of one compiled program after the other. A run may stop after any number of instructions, so these are all
machines between two instructions. -/
inductive Programs (s : Settings) : Machine → Prop where
  | new {m : Machine} : Machine.ofSettings s = .ok m → Programs s m
  | run {m : Machine} (fuel : Nat) {p : Program} {image : Image} : p.compile = .ok image → image.encode.length < UInt64.size →
      Programs s m → Programs s (m.run fuel image.encode).2

/-- Running a compiled program on a ready machine settles it. -/
theorem Ready.run (h : m.Ready) (fuel : Nat) {p : Program} {image : Image} (hp : p.compile = .ok image)
    (hlen : image.encode.length < UInt64.size) :
    (m.run fuel image.encode).2.Settled ∧ (m.run fuel image.encode).2.RunExcuses (m.run fuel image.encode).1 := by
  obtain ⟨code, -, -, himage, hpath, hname⟩ := p.compile_code hp
  have hdecode : Image.decode image.encode = .ok image := by
    subst himage
    exact Image.decode_encode hpath hname hlen
  unfold Machine.run
  rw [hdecode]
  exact (h.start (p.compile_verified hp)).steps fuel

/-- A ready machine is ready on a heap that has evolved. -/
theorem Ready.evolve {heap : Heap} (h : m.Ready) (hh : m.heap.Evolves heap) : Ready { m with heap } :=
  ⟨hh.trusted h.trusted, fun hsize => (hh.grows.kept hsize (h.sparse (Nat.lt_of_le_of_lt hh.grows.size hsize))).1, h.resolver⟩

theorem settled_ofSettings (hm : ofSettings s = .ok m) : m.Settled := by
  have hready : m.Ready ∧ m.frames = #[] := by
    refine of_ofSettings (P := fun m => m.Ready ∧ m.frames = #[]) hm (fun globals heap halloc => ⟨?_, rfl⟩)
      fun n _ m v h₁ h₂ hm ha hd => ⟨?_, hm.2⟩
    · have hempty : Ready ⟨#[], #[], .ofSettings s, globals, none, .null, s⟩ :=
        ⟨fun i f hf => by simp [Heap.closureAt, Heap.ofSettings] at hf, fun _ => Heap.sparse_ofSettings s, rfl⟩
      have hevolves : Heap.Evolves (.ofSettings s) (heapAfter (HeapM.alloc (.environment { parent := none }) (.ofSettings s))) :=
        (Plain.alloc rfl rfl).tame.evolves _
      rw [halloc] at hevolves
      exact hempty.evolve hevolves
    · have hnative : m.heap.Evolves (heapAfter (HeapM.allocRef .native (.native n) m.heap)) :=
        (Plain.allocRef rfl rfl).tame.evolves _
      rw [ha] at hnative
      have hdefine := (Plain.define m.globals n.name v).tame.evolves h₁
      rw [hd] at hdefine
      exact hm.1.evolve (hnative.trans hdefine)
  exact ⟨hready.1, .inl hready.2⟩

/-- Every machine between compiled programs is settled. -/
theorem Programs.settled (h : Programs s m) : m.Settled := by
  induction h with
  | new hm => exact settled_ofSettings hm
  | run fuel hp hlen _ ih => exact (ih.1.run fuel hp hlen).1

/-- What holds between two instructions: every frame is at an instruction that its code is listed with. The next instruction of the
innermost frame finds its operands above those from before the frame was entered. A step leaves these alone, and where it enters a
frame, that begins with the operands there are. -/
structure Disciplined (m : Machine) : Prop where
  listed : ∀ f ∈ m.frames.toList,
    ∃ listed, decodeStream f.code.instructions.toList = .ok listed ∧ ∃ l ∈ listed, l.offset = f.ip
  innermost : ∀ f, m.frames.back? = some f → ∃ i, Instruction.decode f.code.instructions f.ip = .ok (i, i.width) ∧
    m.entryHeight + i.takes ≤ m.stack.size ∧ ∀ r m', MachineM.step m = .ok r m' →
      m'.stack.toList.take (m.sparedBy i) = m.stack.toList.take (m.sparedBy i) ∧
      (m.frames.size < m'.frames.size → m'.stack.size = m'.entryHeight)

theorem Settled.disciplined (h : m.Settled) : m.Disciplined := by
  rcases h.2 with hempty | hsecure
  · constructor
    · simp [hempty]
    · simp [hempty]
  · refine ⟨hsecure.listed, fun f hf => ?_⟩
    obtain ⟨f', i, hf', hdecode, htakes, hends⟩ := hsecure.step
    obtain rfl := Option.some.inj (hf.symm.trans hf')
    refine ⟨i, hdecode, htakes, fun r m' hr => ?_⟩
    rw [hr] at hends
    exact ⟨hends.spares, hends.enters⟩

/-- Whatever compiled programs a machine has run, with whatever settings and however their runs ended: between any two instructions
it is disciplined, and no run of a compiled program on it fails for want of an operand, for its bytes, for a step of what is no
iterator or, while handles tell all slots apart, for an exit from the outermost scope. -/
theorem Programs.never_goWrong (h : Programs s m) :
    m.Disciplined ∧ ∀ (fuel : Nat) (p : Program) (image : Image), p.compile = .ok image → image.encode.length < UInt64.size →
      (m.run fuel image.encode).1 ≠ .failed (.runtime .stackUnderflow) ∧
      (∀ e, (m.run fuel image.encode).1 ≠ .failed (.runtime (.bytecode e))) ∧
      (∀ e, (m.run fuel image.encode).1 ≠ .failed (.bytecode e)) ∧
      (m.run fuel image.encode).1 ≠ .failed (.runtime (.typeError "IterNext without an iterator")) ∧
      ((m.run fuel image.encode).2.heap.slots.size < maxSlots →
        (m.run fuel image.encode).1 ≠ .failed (.runtime (.typeError "exit from the outermost scope"))) := by
  refine ⟨h.settled.disciplined, fun fuel p image hp hlen => ?_⟩
  obtain ⟨-, hruntime, hbytecode⟩ := h.settled.1.run fuel hp hlen
  refine ⟨fun he => ?_, fun e he => ?_, hbytecode, fun he => ?_, fun hsize he => ?_⟩
  · nomatch (hruntime _ he rfl).1
  · nomatch (hruntime _ he rfl).1
  · exact noIterator_ne_noScope (hruntime _ he isFault_noIterator).1
  · exact Nat.not_lt.2 (hruntime _ he isFault_noScope).2 hsize

/-- A block that calls a function, which returns an array. -/
def callSample : Program :=
  let seven := Expr.array {} [.literal {} (.int 7)]
  ⟨"m.vs", "m", [.block {} [.expression {} (.call {} (.function {} (.mk {} none [] false [.ret {} (some seven)])) [])]]⟩

/-- How many frames a new machine has after so many instructions of a program. -/
def framesAfter (p : Program) (fuel : Nat) (s : Settings) : Option Nat :=
  match ofSettings s, p.compile with
  | .ok m, .ok image => some (m.run fuel image.encode).2.frames.size
  | _, _ => none

/-- Three instructions into the sample the machine is in a call, is disciplined, and no later run underflows the stack. -/
theorem Programs.never_goWrong_callSample :
    ∃ m image, Programs { gcThreshold := 0 } m ∧ callSample.compile = .ok image ∧ m.frames.size = 2 ∧ m.Disciplined ∧
      (m.run 30 image.encode).1 ≠ .failed (.runtime .stackUnderflow) := by
  have hframes : framesAfter callSample 3 { gcThreshold := 0 } = some 2 := by decide +kernel
  obtain ⟨image, hp, hlen⟩ : ∃ image, callSample.compile = .ok image ∧ image.encode.length < UInt64.size := ⟨_, rfl, by decide⟩
  unfold framesAfter at hframes
  rw [hp] at hframes
  cases hm : ofSettings { gcThreshold := 0 } with
  | error e =>
    rw [hm] at hframes
    nomatch hframes
  | ok m =>
    rw [hm] at hframes
    have hprograms : Programs { gcThreshold := 0 } (m.run 3 image.encode).2 := .run 3 hp hlen (.new hm)
    obtain ⟨hdisciplined, hruns⟩ := hprograms.never_goWrong
    exact ⟨_, image, hprograms, hp, Option.some.inj hframes, hdisciplined, (hruns 30 callSample image hp hlen).1⟩

end Machine

end ScriptVM
