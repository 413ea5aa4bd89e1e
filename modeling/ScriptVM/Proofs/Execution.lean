import ScriptVM.Machine.Run
import ScriptVM.Proofs.Arena
import ScriptVM.Proofs.Emission
import ScriptVM.Proofs.Evaluation

/-!
# Runs of emitted code

`Machine.Reaches`, `Machine.Fails` and `Machine.Finishes` are the runs of a machine without their fuel. An `Activation` is the
call under way with all that it does not change while it runs: its code, the frames below it, the globals and the settings.
`Activation.at` is the machine that has come to a position of its code, and the operations of the machine are computed on it.
-/

namespace ScriptVM

namespace Machine

/-- Some steps lead from one machine to the other. -/
inductive Reaches : Machine → Machine → Prop where
  | refl (m : Machine) : Reaches m m
  | step {m m₁ m₂ : Machine} : MachineM.step m = .ok none m₁ → Reaches m₁ m₂ → Reaches m m₂

/-- The run comes to a step that fails. -/
def Fails (m : Machine) (e : RuntimeError) (m' : Machine) : Prop := ∃ m₁, m.Reaches m₁ ∧ MachineM.step m₁ = .error e m'

/-- The run comes to a step that ends it with a result. -/
def Finishes (m : Machine) (v : Value) (m' : Machine) : Prop := ∃ m₁, m.Reaches m₁ ∧ MachineM.step m₁ = .ok (some v) m'

theorem Reaches.trans {m m₁ m₂ : Machine} (h : m.Reaches m₁) (h' : m₁.Reaches m₂) : m.Reaches m₂ := by
  induction h with
  | refl => exact h'
  | step hs _ ih => exact .step hs (ih h')

theorem Reaches.single {m m' : Machine} (h : MachineM.step m = .ok none m') : m.Reaches m' := .step h (.refl m')

/-- Steps before a failing run belong to it. -/
theorem Reaches.fails {m m₁ m' : Machine} {e : RuntimeError} (h : m.Reaches m₁) (h' : m₁.Fails e m') : m.Fails e m' := by
  obtain ⟨m₂, hr, hs⟩ := h'
  exact ⟨m₂, h.trans hr, hs⟩

/-- A run with enough fuel goes through every machine that is reached. -/
theorem Reaches.steps {m m' : Machine} (h : m.Reaches m') : ∃ n, ∀ fuel, steps (fuel + n) m = steps fuel m' := by
  induction h with
  | refl => exact ⟨0, fun _ => rfl⟩
  | step hs _ ih =>
    obtain ⟨n, hn⟩ := ih
    refine ⟨n + 1, fun fuel => ?_⟩
    rw [← Nat.add_assoc, Machine.steps, hs]
    exact hn fuel

/-- A run that fails does so with any fuel beyond some amount. -/
theorem Fails.steps {m m' : Machine} {e : RuntimeError} (h : m.Fails e m') :
    ∃ n, ∀ fuel, Machine.steps (fuel + n) m = (.failed (.runtime e), m'.abandon) := by
  obtain ⟨m₁, hr, hs⟩ := h
  obtain ⟨n, hn⟩ := hr.steps
  refine ⟨n + 1, fun fuel => ?_⟩
  rw [Nat.add_comm n 1, ← Nat.add_assoc, hn (fuel + 1), Machine.steps, hs]

/-- A run that finishes does so with any fuel beyond some amount. -/
theorem Finishes.steps {m m' : Machine} {v : Value} (h : m.Finishes v m') :
    ∃ n, ∀ fuel, Machine.steps (fuel + n) m = (.finished v, m') := by
  obtain ⟨m₁, hr, hs⟩ := h
  obtain ⟨n, hn⟩ := hr.steps
  refine ⟨n + 1, fun fuel => ?_⟩
  rw [Nat.add_comm n 1, ← Nat.add_assoc, hn (fuel + 1), Machine.steps, hs]

/-- A run that has ended is the same with more fuel. -/
theorem steps_add {fuel : Nat} {m : Machine} (hend : (steps fuel m).1 ≠ .unfinished) (more : Nat) :
    steps (fuel + more) m = steps fuel m := by
  induction fuel generalizing m with
  | zero => exact absurd rfl hend
  | succ fuel ih =>
    rw [Nat.add_right_comm]
    simp only [steps] at hend ⊢
    split
    · rfl
    · rename_i m₁ hs
      rw [hs] at hend
      exact ih hend
    · rfl

/-- A run that has ended is the same with more fuel. -/
theorem run_add {fuel : Nat} {bytes : List UInt8} {m : Machine} (hend : (m.run fuel bytes).1 ≠ .unfinished) (more : Nat) :
    m.run (fuel + more) bytes = m.run fuel bytes := by
  unfold run at hend ⊢
  split
  · rename_i image hdecode
    rw [hdecode] at hend
    exact steps_add hend more
  · rfl

end Machine

/-! ## Code at a position -/

/-- The bytes of checked instructions stand at a position of a code. -/
def Code.Has (c : Code) (ip : Nat) (code : List Instruction) : Prop :=
  Checked code ∧ ∃ pre post, c.instructions.toList = pre ++ (encodeAll code ++ post) ∧ pre.length = ip

namespace Code.Has

variable {c : Code} {ip : Nat} {a b : List Instruction} {i : Instruction}

/-- The front part of code at a position stands there. -/
theorem left (h : c.Has ip (a ++ b)) : c.Has ip a := by
  obtain ⟨hk, pre, post, hc, hp⟩ := h
  refine ⟨hk.left, pre, encodeAll b ++ post, ?_, hp⟩
  rw [hc, encodeAll_append, List.append_assoc]

/-- The back part of code at a position stands behind the front part. -/
theorem right (h : c.Has ip (a ++ b)) : c.Has (ip + codeSize a) b := by
  obtain ⟨hk, pre, post, hc, hp⟩ := h
  refine ⟨hk.right, pre ++ encodeAll a, post, ?_, ?_⟩
  · rw [hc, encodeAll_append]
    simp only [List.append_assoc]
  · rw [List.length_append, hp, length_encodeAll]

/-- An instruction at a position is decoded there. -/
theorem decode (h : c.Has ip [i]) : Instruction.decode c.instructions ip = .ok (i, i.width) := by
  obtain ⟨hk, pre, post, hc, hp⟩ := h
  rw [← hp]
  have hcode : c.instructions.toList = pre ++ (i.encode ++ post) := by
    rw [hc]
    simp [encodeAll]
  exact Instruction.decode_of_code (checked_singleton.1 hk) hcode

/-- Code at a position ends within the code. -/
theorem le_size (h : c.Has ip a) : ip + codeSize a ≤ c.instructions.size := by
  obtain ⟨_, pre, post, hc, hp⟩ := h
  have hlen := congrArg List.length hc
  simp only [Array.length_toList, List.length_append, length_encodeAll] at hlen
  omega

end Code.Has

/-- Work on the heap changes nothing else. -/
theorem MachineM.onHeap_eq {α : Type} (x : HeapM α) (m : Machine) : MachineM.onHeap x m =
    match x m.heap with
    | .ok a heap => .ok a { m with heap }
    | .error e heap => .error e { m with heap } := rfl

theorem MachineM.get_bind {α : Type} (f : Machine → MachineM α) (m : Machine) : (get >>= f) m = f m m := rfl

theorem MachineM.modify_bind {α : Type} (g : Machine → Machine) (f : Unit → MachineM α) (m : Machine) :
    (modify g >>= f) m = f () (g m) := rfl

/-- A change of the innermost frame changes nothing else. -/
theorem MachineM.modifyFrame_eq (f : Frame → Frame) (m : Machine) :
    MachineM.modifyFrame f m = .ok () { m with frames := m.frames.modify (m.frames.size - 1) f } := rfl

/-- A binary operator pops its operands, the right one first, and pushes its result. -/
theorem MachineM.binary_eq (op : BinaryOp) : MachineM.binary op =
    MachineM.pop >>= fun right => MachineM.pop >>= fun left =>
      MachineM.onHeap (HeapM.apply op left right) >>= MachineM.push := by
  cases op <;> rfl

/-! ## Calls -/

/-- Binding the parameters is defining them in the environment of the call. -/
theorem MachineM.bindParameters_eq (env : Handle) (bindings : List (String × Value)) :
    MachineM.bindParameters env bindings = MachineM.onHeap (HeapM.defineAll env bindings) := by
  induction bindings with
  | nil => rfl
  | cons b rest ih =>
    funext m
    change EStateM.bind (MachineM.onHeap (HeapM.define env b.1 b.2)) (fun _ => MachineM.bindParameters env rest) m = _
    rw [ih]
    simp only [EStateM.bind, MachineM.onHeap, HeapM.defineAll, bind]
    cases HeapM.define env b.1 b.2 m.heap <;> rfl

/-- A call of a function: what it checks, and how it enters the body. -/
theorem MachineM.callFunction_eq (f : Closure) (callee argc : Nat) (m : Machine) :
    MachineM.callFunction f callee argc m =
      if f.code.isAsync then .error (.unsupported s!"async function '{f.code.name}' cannot be called") m
      else if argc ≠ f.code.arity then .error (.wrongArity f.code.name f.code.arity argc) m
      else if m.settings.maxFrames ≤ m.frames.size then .error (.frameOverflow m.settings.maxFrames) m
      else (do
        let env ← MachineM.onHeap (HeapM.allocEnvironment (some f.env))
        MachineM.onHeap (HeapM.defineAll env (f.code.params.zip (m.stack.extract (callee + 1) m.stack.size).toList))
        MachineM.truncate (callee + 1)
        MachineM.pushFrame ⟨f.code, 0, env, callee⟩) m := by
  unfold MachineM.callFunction
  simp only [MachineM.bindParameters_eq]
  rw [MachineM.get_bind]
  split
  · rfl
  · split
    · rfl
    · split <;> rfl

/-- A call of a native function: what it checks, and what it does with the arguments. -/
theorem MachineM.callNative_eq (n : Native) (callee argc : Nat) (m : Machine) :
    MachineM.callNative n callee argc m =
      if n.arity.any (· ≠ argc) then .error (.wrongArity n.name (n.arity.getD 0) argc) m
      else (do
        let args ← MachineM.popMany argc
        let result ← MachineM.onHeap (n.code.call args.toList)
        MachineM.truncate callee
        MachineM.push result) m := by
  unfold MachineM.callNative
  split <;> rfl

/-- A call looks at the value below its arguments. -/
theorem MachineM.callValue_eq (argc : Nat) (m : Machine) :
    MachineM.callValue argc m =
      if m.stack.size < argc + 1 then .error .stackUnderflow m
      else (match m.stack.getD (m.stack.size - (argc + 1)) .null with
        | .ref .function a =>
          MachineM.onHeap (HeapM.read (·.function a)) >>= fun f => MachineM.callFunction f (m.stack.size - (argc + 1)) argc
        | .ref .native a =>
          MachineM.onHeap (HeapM.read (·.native a)) >>= fun n => MachineM.callNative n (m.stack.size - (argc + 1)) argc
        | other => throw (.notCallable other.kindName) : MachineM Unit) m := by
  unfold MachineM.callValue
  rw [MachineM.get_bind]
  split <;> rfl

/-! ## Steps -/

/-- A return ends the run with the outermost frame, and else pushes the result for the caller. -/
theorem MachineM.returnValue_eq (v : Value) (m : Machine) : MachineM.returnValue v m =
    match m.frames.back? with
    | none => .error .stackUnderflow m
    | some f =>
      if m.frames.pop.isEmpty then .ok (some v) { m with frames := m.frames.pop, stack := m.stack.shrink f.base }
      else (do
        MachineM.push v
        return none : MachineM (Option Value)) { m with frames := m.frames.pop, stack := m.stack.shrink f.base } := by
  unfold MachineM.returnValue
  change EStateM.bind MachineM.frame _ m = _
  unfold EStateM.bind MachineM.frame MachineM.read
  dsimp only
  cases m.frames.back? with
  | none => rfl
  | some f =>
    dsimp only
    unfold MachineM.truncate
    rw [MachineM.modify_bind, MachineM.modify_bind, MachineM.get_bind]
    split
    · rfl
    · rfl

/-- What a step does after the collection that may be due. -/
def MachineM.advance : MachineM (Option Value) := do
  let f ← frame
  let (i, next) ← fetch f
  modifyFrame fun f => { f with ip := next }
  match i with
  | .ret => returnValue (← pop)
  | i =>
    execute f next i
    return none

/-- The machine after the collection that may be due. -/
def Machine.collected (m : Machine) : Machine := if m.heap.shouldCollect then m.collectGarbage else m

/-- A step is the collection that may be due, and then an instruction. -/
theorem MachineM.step_eq (m : Machine) : MachineM.step m = MachineM.advance m.collected := rfl

/-! ## The machine at a position -/

/-- A call under way: what running its code does not change. -/
structure Activation where
  code : Code
  base : Nat
  /-- The frames of its callers. -/
  outer : Array Frame
  globals : Handle
  settings : Settings

/-- The machine that has come to a position of the code of an activation, in an environment. -/
def Activation.at (c : Activation) (ip : Nat) (env : Handle) (stack : List Value) (heap : Heap) (last : Value) : Machine where
  stack := stack.toArray
  frames := c.outer.push ⟨c.code, ip, env, c.base⟩
  heap := heap
  globals := c.globals
  resolver := none
  lastPopped := last
  settings := c.settings

namespace Activation

variable {c : Activation} {ip : Nat} {env : Handle} {stack : List Value} {heap : Heap} {last v : Value}

/-- A push succeeds below the capacity of the stack. -/
theorem push_at : MachineM.push v (c.at ip env stack heap last) =
    if c.settings.stackCapacity ≤ stack.length then
      .error (.stackOverflow c.settings.stackCapacity) (c.at ip env stack heap last)
    else .ok () (c.at ip env (stack ++ [v]) heap last) := by
  simp [MachineM.push, Activation.at]

/-- A pop takes the top operand. -/
theorem pop_at : MachineM.pop (c.at ip env (stack ++ [v]) heap last) = .ok v (c.at ip env stack heap last) := by
  simp [MachineM.pop, Activation.at]

/-- A look at the top operand leaves it. -/
theorem peek_at : MachineM.peek (c.at ip env (stack ++ [v]) heap last) = .ok v (c.at ip env (stack ++ [v]) heap last) := by
  simp [MachineM.peek, MachineM.read, Activation.at]

/-- Several pops take the operands on top, in their order. -/
theorem popMany_at {vs : List Value} : MachineM.popMany vs.length (c.at ip env (stack ++ vs) heap last) =
    .ok vs.toArray (c.at ip env stack heap last) := by
  have hlt : ¬stack.length + vs.length < vs.length := by omega
  simp [MachineM.popMany, Activation.at, hlt]

/-- Cutting the stack of the machine cuts that of the call. -/
theorem truncate_at {height : Nat} : MachineM.truncate height (c.at ip env stack heap last) =
    .ok () (c.at ip env (stack.take height) heap last) := by
  have hshrink : stack.toArray.shrink height = (stack.take height).toArray := by simp
  change EStateM.Result.ok () { c.at ip env stack heap last with stack := stack.toArray.shrink height } = _
  rw [hshrink]
  rfl

/-- A call depends on its callee: a closure is entered, native code is run, and nothing else can be called. -/
theorem callValue_at {callee : Value} {args : List Value} :
    MachineM.callValue args.length (c.at ip env (stack ++ [callee] ++ args) heap last) =
      (match callee with
      | .ref .function a =>
        MachineM.onHeap (HeapM.read (·.function a)) >>= fun f => MachineM.callFunction f stack.length args.length
      | .ref .native a =>
        MachineM.onHeap (HeapM.read (·.native a)) >>= fun n => MachineM.callNative n stack.length args.length
      | other => throw (.notCallable other.kindName) : MachineM Unit) (c.at ip env (stack ++ [callee] ++ args) heap last) := by
  have hsize : (c.at ip env (stack ++ [callee] ++ args) heap last).stack.size = stack.length + 1 + args.length := by
    simp [Activation.at]
    omega
  have henough : ¬stack.length + 1 + args.length < args.length + 1 := by omega
  have hbase : stack.length + 1 + args.length - (args.length + 1) = stack.length := by omega
  have hcallee : (c.at ip env (stack ++ [callee] ++ args) heap last).stack.getD stack.length .null = callee := by
    simp [Activation.at, Array.getD]
  rw [MachineM.callValue_eq, hsize, if_neg henough, hbase, hcallee]

/-- Work on the heap leaves the position. -/
theorem onHeap_at {α : Type} (x : HeapM α) : MachineM.onHeap x (c.at ip env stack heap last) =
    match x heap with
    | .ok a heap => .ok a (c.at ip env stack heap last)
    | .error e heap => .error e (c.at ip env stack heap last) := by
  cases hx : x heap <;> simp only [MachineM.onHeap, Activation.at, hx]

/-- The innermost frame is that of the call. -/
theorem frame_at : MachineM.frame (c.at ip env stack heap last) =
    .ok ⟨c.code, ip, env, c.base⟩ (c.at ip env stack heap last) := by
  simp [MachineM.frame, MachineM.read, Activation.at]

/-- A quiet heap is not collected before a step. -/
theorem collected_at (hq : heap.Quiet) : (c.at ip env stack heap last).collected = c.at ip env stack heap last :=
  if_neg (by simp [Activation.at, hq.shouldCollect])

/-- A change of the innermost frame changes that of the call. -/
theorem modifyFrame_at (f : Frame → Frame) : MachineM.modifyFrame f (c.at ip env stack heap last) =
    .ok () { c.at ip env stack heap last with frames := c.outer.push (f ⟨c.code, ip, env, c.base⟩) } := by
  have hmod : (c.outer.push ⟨c.code, ip, env, c.base⟩).modify ((c.outer.push ⟨c.code, ip, env, c.base⟩).size - 1) f =
      c.outer.push (f ⟨c.code, ip, env, c.base⟩) := by
    apply Array.ext
    · simp
    · intro j h1 h2
      simp only [Array.getElem_modify, Array.size_push, Nat.add_sub_cancel, Array.getElem_push]
      by_cases hj : c.outer.size = j
      · subst hj
        simp
      · have hlt : j < c.outer.size := by
          simp at h2
          omega
        simp [hj, hlt]
  rw [MachineM.modifyFrame_eq]
  simp only [Activation.at, hmod]

/-- A jump inside the code moves the position. -/
theorem jump_at {source : Nat} {offset : Int32} {length target : Nat} (ht : (source : Int) + offset.toInt = target)
    (hl : target ≤ length) :
    MachineM.jump source offset length (c.at ip env stack heap last) = .ok () (c.at target env stack heap last) := by
  have hcond : ¬((source : Int) + offset.toInt < 0 ∨ (length : Int) < (source : Int) + offset.toInt) := by omega
  simp only [MachineM.jump]
  rw [if_neg hcond, modifyFrame_at, ht]
  rfl

/-- The machine before it executes an instruction that does not return. -/
theorem advance_at {i : Instruction} (hd : Instruction.decode c.code.instructions ip = .ok (i, i.width)) (hi : i ≠ .ret) :
    MachineM.advance (c.at ip env stack heap last) =
      EStateM.bind (MachineM.execute ⟨c.code, ip, env, c.base⟩ (ip + i.width) i) (fun _ => EStateM.pure none)
        (c.at (ip + i.width) env stack heap last) := by
  have hmove : MachineM.modifyFrame (fun f => { f with ip := ip + i.width }) (c.at ip env stack heap last) =
      .ok () (c.at (ip + i.width) env stack heap last) := modifyFrame_at _
  simp only [MachineM.advance, bind, EStateM.bind, frame_at, MachineM.fetch, hd, pure, EStateM.pure, hmove]

/-- A step executes the instruction at the position, which has moved behind it. -/
theorem step_at {i : Instruction} (hq : heap.Quiet) (hc : c.code.Has ip [i]) (hi : i ≠ .ret) (env : Handle)
    (stack : List Value) (last : Value) :
    MachineM.step (c.at ip env stack heap last) =
      EStateM.bind (MachineM.execute ⟨c.code, ip, env, c.base⟩ (ip + i.width) i) (fun _ => EStateM.pure none)
        (c.at (ip + i.width) env stack heap last) := by
  rw [MachineM.step_eq, collected_at hq, advance_at hc.decode hi]

/-- A return leaves the frame: the caller goes on with the result, or the run ends with it. -/
theorem returnValue_at : MachineM.returnValue v (c.at ip env stack heap last) =
    if c.outer.isEmpty then
      .ok (some v) { c.at ip env (stack.take c.base) heap last with frames := c.outer }
    else EStateM.bind (MachineM.push v) (fun _ => EStateM.pure none)
      { c.at ip env (stack.take c.base) heap last with frames := c.outer } := by
  have hshrink : stack.toArray.shrink c.base = (stack.take c.base).toArray := by simp
  rw [MachineM.returnValue_eq]
  simp only [Activation.at, Array.back?_push, Array.pop_push, hshrink]
  rfl

/-- The machine before it returns. -/
theorem advance_ret_at (hd : Instruction.decode c.code.instructions ip = .ok (.ret, Instruction.width .ret)) :
    MachineM.advance (c.at ip env (stack ++ [v]) heap last) =
      MachineM.returnValue v (c.at (ip + Instruction.width .ret) env stack heap last) := by
  have hmove : MachineM.modifyFrame (fun f => { f with ip := ip + Instruction.width .ret })
      (c.at ip env (stack ++ [v]) heap last) = .ok () (c.at (ip + Instruction.width .ret) env (stack ++ [v]) heap last) :=
    modifyFrame_at _
  simp only [MachineM.advance, bind, EStateM.bind, frame_at, MachineM.fetch, hd, pure, EStateM.pure, hmove, pop_at]

/-- A step at a return returns the top operand. -/
theorem step_ret_at (hq : heap.Quiet) (hc : c.code.Has ip [.ret]) (env : Handle) (stack : List Value) (last v : Value) :
    MachineM.step (c.at ip env (stack ++ [v]) heap last) =
      MachineM.returnValue v (c.at (ip + Instruction.width .ret) env stack heap last) := by
  rw [MachineM.step_eq, collected_at hq, advance_ret_at hc.decode]

end Activation

end ScriptVM
