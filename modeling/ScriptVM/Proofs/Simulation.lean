import ScriptVM.Proofs.Erasure
import ScriptVM.Proofs.Execution

/-!
# Code that follows an evaluation

`Mirrors` relates the world of a tree evaluation to the heap of a machine: they hold the same objects, and each closure runs
the code of the body that the world keeps for it. `Runs` says that the machine, from a position of its code, follows an
evaluation: it comes to where the evaluation ends, or fails as it does. It may give up for want of stack or frames at any time.

There is one rule for each instruction, and the rules are put together by `Runs.bind`.
-/

namespace ScriptVM

/-- The machine's limits are errors of their own, which no evaluation of a tree has. -/
def RuntimeError.IsOverflow : RuntimeError → Prop
  | .stackOverflow _ | .frameOverflow _ => True
  | _ => False

/-- The run ends for want of stack or frames. -/
def Machine.Overflows (m : Machine) : Prop := ∃ e m', m.Fails e m' ∧ e.IsOverflow

/-- A run that overflows later overflows. -/
theorem Machine.Reaches.overflows {m m' : Machine} (h : m.Reaches m') (ho : m'.Overflows) : m.Overflows := by
  obtain ⟨e, m₁, hf, he⟩ := ho
  exact ⟨e, m₁, h.fails hf, he⟩

/-- A closure runs the code of a body. -/
def Closure.Executes (f : Closure) (file : String) (body : List Stmt) : Prop :=
  ∃ code, StmtsCode body code ∧ Checked (closeBody body code) ∧ f.code.file = file ∧
    f.code.instructions = (encodeAll (closeBody body code)).toArray

/-- The heap holds the objects of the world, and its closures run the bodies that the world keeps. -/
structure Mirrors (file : String) (w : World) (h : Heap) : Prop where
  heap : w.heap = h.erase
  quiet : h.Quiet
  bodies : ∀ i f, h.closureAt i = some f → ∃ body, w.bodies i = some body ∧ f.Executes file body

/-- An operation that looks at no code does the same on both sides. -/
theorem Mirrors.plain {file : String} {w : World} {h : Heap} {α : Type} {x : HeapM α} (hw : Mirrors file w h) (hx : Plain x) :
    x w.heap = eraseResult (x h) ∧ Mirrors file { w with heap := (heapAfter (x h)).erase } (heapAfter (x h)) := by
  refine ⟨?_, rfl, (hx.grows h).quiet hw.quiet, fun i f hf => hw.bodies i f (hx.closures h i f hf)⟩
  rw [hw.heap]
  exact hx.erase h

/-- A closure that runs the body of a declaration, made on both sides. -/
theorem Mirrors.makeFunction {file : String} {w : World} {h : Heap} {f : Closure} {d : FunctionDecl} {env : Handle}
    (hw : Mirrors file w h) (hf : f.erase = ⟨.ofDecl file d, env⟩) (he : f.Executes file d.body) :
    ∃ w', EvalM.makeFunction file env d w = .ok (.ref .function (h.place (.function f)).1) w' ∧
      w'.lastPopped = w.lastPopped ∧ Mirrors file w' (h.place (.function f)).2 := by
  have hplace : h.erase.place (.function ⟨.ofDecl file d, env⟩) =
      ((h.place (.function f)).1, (h.place (.function f)).2.erase) := by
    rw [← hf]
    exact h.place_erase (.function f)
  have hquiet : h.erase.Quiet := hw.quiet
  unfold EvalM.makeFunction
  rw [hw.heap, HeapM.allocRef_of_quiet hquiet, hplace]
  refine ⟨_, rfl, rfl, rfl, hw.quiet.place _, fun i g hg => ?_⟩
  rcases Heap.closureAt_place hg with ⟨hi, hc⟩ | ⟨hi, hc⟩
  · cases hc
    exact ⟨d.body, by simp [hi], he⟩
  · obtain ⟨body, hb, hx⟩ := hw.bodies i g hc
    exact ⟨body, by simp [hi, hb], hx⟩

/-- The machine has come to a position, in step with a world. -/
def Activation.Point (c : Activation) (ip : Nat) (env : Handle) (stack : List Value) (w : World) (m : Machine) : Prop :=
  ∃ h, Mirrors c.code.file w h ∧ m = c.at ip env stack h w.lastPopped

/-- What a failed run leaves: the globals, and all that the evaluation has done. -/
def Activation.Leaves (c : Activation) (w : World) (m : Machine) : Prop :=
  m.globals = c.globals ∧ m.lastPopped = w.lastPopped ∧ Mirrors c.code.file w m.heap

/-- The run of the machine follows an evaluation to its end: to a machine as described, or into the same error. -/
def Activation.Follows {α : Type} (c : Activation) (m : Machine) (r : EStateM.Result Halt World α)
    (post : α → World → Machine → Prop) : Prop :=
  m.Overflows ∨
    match r with
    | .ok a w => ∃ m', m.Reaches m' ∧ post a w m'
    | .error (.failed e) w => ∃ m', m.Fails e m' ∧ c.Leaves w m'
    | .error .unfinished _ => True

/-- The run from a position follows an evaluation, from every world. -/
def Activation.Runs {α : Type} (c : Activation) (ip : Nat) (env : Handle) (stack : List Value) (x : EvalM α)
    (post : α → World → Machine → Prop) : Prop :=
  ∀ w m, c.Point ip env stack w m → c.Follows m (x w) post

namespace Activation

variable {α β : Type} {c : Activation} {ip : Nat} {env : Handle} {stack : List Value} {w : World} {m : Machine}

/-- What is reached may be where the evaluation is followed from. -/
theorem Follows.of_reaches {m' : Machine} {r : EStateM.Result Halt World α} {Q : α → World → Machine → Prop}
    (hr : m.Reaches m') (h : c.Follows m' r Q) : c.Follows m r Q := by
  rcases h with h | h
  · exact .inl (hr.overflows h)
  · right
    cases r with
    | ok a w =>
      obtain ⟨m₁, h₁, hq⟩ := h
      exact ⟨m₁, hr.trans h₁, hq⟩
    | error e w =>
      cases e with
      | failed e =>
        obtain ⟨m₁, h₁, hl⟩ := h
        exact ⟨m₁, hr.fails h₁, hl⟩
      | unfinished => trivial

/-- Where an evaluation has ended, the run may go on. -/
theorem Follows.trans {r : EStateM.Result Halt World α} {P Q : α → World → Machine → Prop} (h : c.Follows m r P)
    (hpq : ∀ a w m, P a w m → c.Follows m (.ok a w) Q) : c.Follows m r Q := by
  rcases h with h | h
  · exact .inl h
  · cases r with
    | ok a w =>
      obtain ⟨m', hr, hp⟩ := h
      exact (hpq a w m' hp).of_reaches hr
    | error e w => cases e <;> exact .inr h

/-- A run follows an evaluation to a weaker end too. -/
theorem Follows.mono {r : EStateM.Result Halt World α} {P Q : α → World → Machine → Prop} (h : c.Follows m r P)
    (hpq : ∀ a w m, P a w m → Q a w m) : c.Follows m r Q :=
  h.trans fun a w m hp => .inr ⟨m, .refl m, hpq a w m hp⟩

/-- A run follows evaluations in sequence when it follows the first, and from its end the second. -/
theorem Follows.bind {x : EvalM α} {f : α → EvalM β} {P : α → World → Machine → Prop} {Q : β → World → Machine → Prop}
    (hx : c.Follows m (x w) P) (hf : ∀ a w m, P a w m → c.Follows m (f a w) Q) : c.Follows m ((x >>= f) w) Q := by
  change c.Follows m (EStateM.bind x f w) Q
  rcases hx with hx | hx
  · exact .inl hx
  · unfold EStateM.bind
    cases hr : x w with
    | ok a w' =>
      rw [hr] at hx
      obtain ⟨m', hm, hp⟩ := hx
      exact (hf a w' m' hp).of_reaches hm
    | error e w' =>
      rw [hr] at hx
      cases e <;> exact .inr hx

namespace Runs

variable {x : EvalM α} {f : α → EvalM β} {P : α → World → Machine → Prop} {Q : β → World → Machine → Prop}

/-- Two parts of an evaluation are followed one after the other. -/
theorem bind (hx : c.Runs ip env stack x P) (hf : ∀ a w m, P a w m → c.Follows m (f a w) Q) :
    c.Runs ip env stack (x >>= f) Q :=
  fun w m hp => (hx w m hp).bind hf

/-- Answering takes no step of the machine. -/
theorem pure {P : α → World → Machine → Prop} (a : α) (h : ∀ w m, c.Point ip env stack w m → P a w m) :
    c.Runs ip env stack (Pure.pure a) P :=
  fun w m hp => .inr ⟨m, .refl m, h w m hp⟩

/-- Every run follows an evaluation that is out of fuel. -/
theorem unfinished : c.Runs ip env stack (throw Halt.unfinished : EvalM α) P := fun _ _ _ => .inr trivial

/-- A run follows an evaluation to a weaker end too. -/
theorem mono {P' : α → World → Machine → Prop} (hx : c.Runs ip env stack x P) (h : ∀ a w m, P a w m → P' a w m) :
    c.Runs ip env stack x P' :=
  fun w m hp => (hx w m hp).mono h

/-- Where an evaluation has ended, the run may go on. -/
theorem trans {P' : α → World → Machine → Prop} (hx : c.Runs ip env stack x P)
    (h : ∀ a w m, P a w m → c.Follows m ((Pure.pure a : EvalM α) w) P') : c.Runs ip env stack x P' :=
  fun w m hp => (hx w m hp).trans h

/-- What is known of every answer of an evaluation is known where its run arrives. -/
theorem also {R : α → Prop} (hx : c.Runs ip env stack x P) (h : ∀ w a w', x w = .ok a w' → R a) :
    c.Runs ip env stack x fun a w m => R a ∧ P a w m := by
  intro w m hp
  rcases hx w m hp with ho | hx
  · exact .inl ho
  · right
    cases hr : x w with
    | ok a w' =>
      rw [hr] at hx
      obtain ⟨m', hm, hp'⟩ := hx
      exact ⟨m', hm, h w a w' hr, hp'⟩
    | error e w' =>
      rw [hr] at hx
      cases e <;> exact hx

end Runs

/-! ## One instruction -/

/-- What the machine does for one instruction agrees with an evaluation: it goes on to follow it, or fails as it does. -/
def Agrees (c : Activation) (s : EStateM.Result RuntimeError Machine Unit) (r : EStateM.Result Halt World α)
    (post : α → World → Machine → Prop) : Prop :=
  match s with
  | .ok _ m => c.Follows m r post
  | .error e m => e.IsOverflow ∨ ∃ w, r = .error (.failed e) w ∧ c.Leaves w m

/-- The instruction at a position is executed, and the run goes on behind it. -/
theorem Runs.instruction {i : Instruction} {x : EvalM α} {Q : α → World → Machine → Prop} (hc : c.code.Has ip [i])
    (hi : i ≠ .ret)
    (h : ∀ w heap, Mirrors c.code.file w heap →
      c.Agrees (MachineM.execute ⟨c.code, ip, env, c.base⟩ (ip + i.width) i (c.at (ip + i.width) env stack heap w.lastPopped))
        (x w) Q) :
    c.Runs ip env stack x Q := by
  rintro w m ⟨heap, hw, rfl⟩
  have hs := step_at hw.quiet hc hi env stack w.lastPopped
  have ha := h w heap hw
  unfold EStateM.bind at hs
  cases he : MachineM.execute ⟨c.code, ip, env, c.base⟩ (ip + i.width) i
      (c.at (ip + i.width) env stack heap w.lastPopped) with
  | ok u m' =>
    rw [he] at hs ha
    exact Follows.of_reaches (.single hs) ha
  | error e m' =>
    rw [he] at hs ha
    have hfail : (c.at ip env stack heap w.lastPopped).Fails e m' := ⟨_, .refl _, hs⟩
    rcases ha with ho | ⟨w', hr, hl⟩
    · exact .inl ⟨e, m', hfail, ho⟩
    · rw [hr]
      exact .inr ⟨m', hfail, hl⟩

section

variable {file : String} {h : Heap} {v : Value} {k : α → MachineM Unit} {Q : β → World → Machine → Prop}

/-- A machine at a position in step with a world leaves what the world has. -/
theorem leaves_at (hw : Mirrors c.code.file w h) : c.Leaves w (c.at ip env stack h w.lastPopped) := ⟨rfl, rfl, hw⟩

/-- A value that is pushed stands on the stack, unless that is full. -/
theorem agrees_push (hw : Mirrors c.code.file w h) :
    c.Agrees (MachineM.push v (c.at ip env stack h w.lastPopped)) ((Pure.pure v : EvalM Value) w)
      fun v => c.Point ip env (stack ++ [v]) := by
  rw [push_at]
  split
  · exact .inl trivial
  · exact .inr ⟨_, .refl _, h, hw, rfl⟩

/-- Failing agrees with an evaluation that fails for the same error. -/
theorem agrees_throw {e : RuntimeError} (hw : Mirrors c.code.file w h) :
    c.Agrees ((throw e : MachineM Unit) (c.at ip env stack h w.lastPopped)) ((EvalM.fail e : EvalM β) w) Q :=
  .inr ⟨w, rfl, leaves_at hw⟩

/-- A jump agrees with an evaluation that answers at once, as soon as the target does. -/
theorem agrees_jump {source length target : Nat} {d : Int32} {b : β} (ht : (source : Int) + d.toInt = target)
    (hl : target ≤ length) (hq : Q b w (c.at target env stack h w.lastPopped)) :
    c.Agrees (MachineM.jump source d length (c.at ip env stack h w.lastPopped)) ((Pure.pure b : EvalM β) w) Q := by
  rw [jump_at ht hl]
  exact .inr ⟨_, .refl _, hq⟩

/-- Moving the frame into an environment agrees with an evaluation that answers it. -/
theorem agrees_setEnv {scope : Handle} (hw : Mirrors c.code.file w h) :
    c.Agrees (MachineM.modifyFrame (fun f => { f with env := scope }) (c.at ip env stack h w.lastPopped))
      ((Pure.pure scope : EvalM Handle) w) fun scope => c.Point ip scope stack := by
  rw [modifyFrame_at]
  exact .inr ⟨_, .refl _, h, hw, rfl⟩

/-- An operation on the heap that looks at no code, and what follows it. -/
theorem agrees_onHeap {x : HeapM α} {f : α → EvalM β} (hx : Plain x) (hw : Mirrors c.code.file w h)
    (hk : ∀ a w' h', Mirrors c.code.file w' h' → w'.bodies = w.bodies →
      c.Agrees (k a (c.at ip env stack h' w'.lastPopped)) (f a w') Q) :
    c.Agrees ((MachineM.onHeap x >>= k) (c.at ip env stack h w.lastPopped)) ((EvalM.onHeap x >>= f) w) Q := by
  obtain ⟨hres, hw'⟩ := hw.plain hx
  change c.Agrees (EStateM.bind (MachineM.onHeap x) k _) (EStateM.bind (EvalM.onHeap x) f w) Q
  unfold EStateM.bind
  rw [onHeap_at, EvalM.onHeap, hres]
  cases hr : x h with
  | ok a h' =>
    rw [hr] at hw'
    exact hk a _ h' hw' rfl
  | error e h' =>
    rw [hr] at hw'
    exact .inr ⟨_, rfl, leaves_at hw'⟩

end

/-! ## Operands -/

/-- Keys and values as they stand on the stack. -/
def flattened (entries : List (Value × Value)) : List Value := entries.flatMap fun (key, value) => [key, value]

/-- Keys and values on the stack are two for each pair. -/
theorem length_flattened (entries : List (Value × Value)) : (flattened entries).length = entries.length * 2 := by
  induction entries with
  | nil => rfl
  | cons e rest ih =>
    simp only [flattened, List.flatMap_cons, List.length_append, List.length_cons, List.length_nil] at ih ⊢
    omega

/-- Pairing up keys and values gives the pairs back. -/
theorem pairUp_flattened (entries : List (Value × Value)) : MachineM.pairUp (flattened entries) = entries := by
  induction entries with
  | nil => rfl
  | cons e rest ih => exact congrArg (e :: ·) ih

section

variable {h : Heap} {last v : Value} {k : Value → MachineM β}

/-- Work on a popped operand is work on the top one. -/
theorem bind_pop_at : (MachineM.pop >>= k) (c.at ip env (stack ++ [v]) h last) = k v (c.at ip env stack h last) := by
  change EStateM.bind MachineM.pop k _ = _
  unfold EStateM.bind
  rw [pop_at]

/-- Work on the top operand leaves it there. -/
theorem bind_peek_at : (MachineM.peek >>= k) (c.at ip env (stack ++ [v]) h last) =
    k v (c.at ip env (stack ++ [v]) h last) := by
  change EStateM.bind MachineM.peek k _ = _
  unfold EStateM.bind
  rw [peek_at]

/-- Work on several popped operands is work on those on top. -/
theorem bind_popMany_at {vs : List Value} {k : Array Value → MachineM β} :
    (MachineM.popMany vs.length >>= k) (c.at ip env (stack ++ vs) h last) = k vs.toArray (c.at ip env stack h last) := by
  change EStateM.bind (MachineM.popMany vs.length) k _ = _
  unfold EStateM.bind
  rw [popMany_at]

/-- What a loop takes from its iterator, as it stands on the stack. -/
def yielded (arity : UInt8) (pair : Value × Value) : List Value := if 2 ≤ arity then [pair.1, pair.2] else [pair.2]

/-- The step of an iterator for a number of variables. -/
def yieldOf (arity : UInt8) (pair : Value × Value) : Yield := if 2 ≤ arity then .two pair.1 pair.2 else .one pair.2

/-- What a walk yields is its next pair, without the key for one variable. -/
theorem next_eq (t : Traversal) (h : Heap) (arity : UInt8) :
    t.next h arity = (t.nextPair h).map fun found => (found.1.map (yieldOf arity), found.2) := by
  unfold Traversal.next
  cases t.nextPair h <;> rfl

/-- A step of an iterator is the next pair of its walk, as the loop takes it. -/
theorem bind_next_at {k : Option Yield × Traversal → MachineM β} (a : Handle) (arity : UInt8) :
    (MachineM.onHeap (HeapM.read fun h => do (← h.iterator a).next h arity) >>= k) (c.at ip env stack h last) =
      (MachineM.onHeap (HeapM.read fun h => do (← h.iterator a).nextPair h) >>=
        fun found => k (found.1.map (yieldOf arity), found.2)) (c.at ip env stack h last) := by
  change EStateM.bind _ k _ = EStateM.bind _ _ _
  unfold EStateM.bind
  rw [onHeap_at, onHeap_at]
  simp only [HeapM.read, next_eq]
  cases h.iterator a with
  | error e => rfl
  | ok t =>
    simp only [bind, Except.bind]
    cases t.nextPair h <;> rfl

/-- Pushing what a walk yields agrees with an evaluation that answers at once. -/
theorem agrees_pushYield {γ : Type} {arity : UInt8} {pair : Value × Value} {w : World} {b : γ}
    {Q : γ → World → Machine → Prop} (hq : Q b w (c.at ip env (stack ++ yielded arity pair) h w.lastPopped)) :
    c.Agrees (MachineM.pushYield (yieldOf arity pair) (c.at ip env stack h w.lastPopped)) ((Pure.pure b : EvalM γ) w) Q := by
  unfold yieldOf
  unfold yielded at hq
  split at hq
  · rename_i harity
    rw [if_pos harity]
    change c.Agrees (EStateM.bind (MachineM.push pair.1) _ _) _ _
    rw [EStateM.bind, push_at]
    by_cases hfull : c.settings.stackCapacity ≤ stack.length
    · rw [if_pos hfull]
      exact .inl trivial
    · rw [if_neg hfull]
      simp only [push_at]
      split
      · exact .inl trivial
      · rw [List.append_assoc]
        exact .inr ⟨_, .refl _, hq⟩
  · rename_i harity
    rw [if_neg harity]
    change c.Agrees (MachineM.push pair.2 _) _ _
    rw [push_at]
    split
    · exact .inl trivial
    · exact .inr ⟨_, .refl _, hq⟩

/-- A name is looked up in the environments. -/
theorem bind_resolve_at {scope : Handle} {name : String} {k : Option Value → MachineM β} :
    (MachineM.read (·.resolve scope name) >>= k) (c.at ip env stack h last) =
      (MachineM.onHeap (HeapM.read (·.lookup scope name)) >>= k) (c.at ip env stack h last) := by
  change EStateM.bind _ k _ = EStateM.bind _ k _
  unfold EStateM.bind
  rw [onHeap_at]
  simp only [MachineM.read, HeapM.read, Machine.resolve, Activation.at]
  cases h.lookup scope name <;> rfl

end

namespace Runs

variable {i : Instruction} {before : List Value} {v : Value}

/-- An instruction that takes operands and pushes what an operation on the heap makes of them. -/
theorem result {x : HeapM Value} (hc : c.code.Has ip [i]) (hi : i ≠ .ret) (hx : Plain x)
    (he : ∀ heap last, MachineM.execute ⟨c.code, ip, env, c.base⟩ (ip + i.width) i
      (c.at (ip + i.width) env before heap last) =
        (MachineM.onHeap x >>= MachineM.push) (c.at (ip + i.width) env stack heap last)) :
    c.Runs ip env before (EvalM.onHeap x) fun v => c.Point (ip + i.width) env (stack ++ [v]) := by
  refine instruction hc hi fun w heap hw => ?_
  rw [he, ← bind_pure (EvalM.onHeap x)]
  exact agrees_onHeap hx hw fun v w' h' hw' _ => agrees_push hw'

/-- An instruction that takes operands and changes the heap. -/
theorem effect {x : HeapM Unit} (hc : c.code.Has ip [i]) (hi : i ≠ .ret) (hx : Plain x)
    (he : ∀ heap last, MachineM.execute ⟨c.code, ip, env, c.base⟩ (ip + i.width) i
      (c.at (ip + i.width) env before heap last) = MachineM.onHeap x (c.at (ip + i.width) env stack heap last)) :
    c.Runs ip env before (EvalM.onHeap x) fun _ => c.Point (ip + i.width) env stack := by
  refine instruction hc hi fun w heap hw => ?_
  rw [he, ← bind_pure (EvalM.onHeap x), ← bind_pure (MachineM.onHeap x)]
  exact agrees_onHeap hx hw fun _ w' h' hw' _ => .inr ⟨_, .refl _, h', hw', rfl⟩

/-- An instruction that takes no operand and pushes a value that needs no object. -/
theorem value (hc : c.code.Has ip [i]) (hi : i ≠ .ret)
    (he : MachineM.execute ⟨c.code, ip, env, c.base⟩ (ip + i.width) i = MachineM.push v) :
    c.Runs ip env stack (Pure.pure v) fun v => c.Point (ip + i.width) env (stack ++ [v]) := by
  refine instruction hc hi fun w heap hw => ?_
  rw [he]
  exact agrees_push hw

/-- A load follows the evaluation of its constant. -/
theorem constant {k : Constant} (hc : c.code.Has ip [.load k]) :
    c.Runs ip env stack (EvalM.constant k) fun v => c.Point (ip + (Instruction.load k).width) env (stack ++ [v]) := by
  cases k with
  | null => exact value hc nofun rfl
  | bool b => exact value hc nofun rfl
  | num n => exact value hc nofun rfl
  | text s => exact result hc nofun (Plain.allocText s) fun _ _ => rfl
  | error message => exact result hc nofun (Plain.allocError message none) fun _ _ => rfl

/-- A load of a name follows its lookup. -/
theorem loadName {name : String} (hc : c.code.Has ip [.loadName name]) :
    c.Runs ip env stack (EvalM.lookup env name)
      fun v => c.Point (ip + (Instruction.loadName name).width) env (stack ++ [v]) := by
  refine instruction hc nofun fun w heap hw => ?_
  rw [show MachineM.execute ⟨c.code, ip, env, c.base⟩ (ip + (Instruction.loadName name).width) (.loadName name)
      (c.at (ip + (Instruction.loadName name).width) env stack heap w.lastPopped) = _ from bind_resolve_at]
  refine agrees_onHeap (Plain.read (by simp)) hw fun found w' h' hw' _ => ?_
  cases found with
  | some v => exact agrees_push hw'
  | none => exact agrees_throw hw'

/-- A store follows the definition of its name. -/
theorem storeName {name : String} (hc : c.code.Has ip [.storeName name]) :
    c.Runs ip env (stack ++ [v]) (EvalM.onHeap (HeapM.define env name v))
      fun _ => c.Point (ip + (Instruction.storeName name).width) env stack :=
  effect hc nofun (Plain.define env name v) fun _ _ => bind_pop_at

/-- An assignment follows that of the evaluation, and leaves its value on the stack. -/
theorem setName {name : String} (hc : c.code.Has ip [.setName name]) :
    c.Runs ip env (stack ++ [v]) (EvalM.onHeap (HeapM.assign env name v))
      fun _ => c.Point (ip + (Instruction.setName name).width) env (stack ++ [v]) :=
  effect hc nofun (Plain.assign env name v) fun _ _ => bind_peek_at

/-- A pop discards the value that the evaluation discards. -/
theorem pop (hc : c.code.Has ip [.pop]) :
    c.Runs ip env (stack ++ [v]) (modify fun w => { w with lastPopped := v })
      fun _ => c.Point (ip + Instruction.width .pop) env stack := by
  refine instruction hc nofun fun w heap hw => ?_
  rw [show MachineM.execute ⟨c.code, ip, env, c.base⟩ (ip + Instruction.width .pop) .pop
      (c.at (ip + Instruction.width .pop) env (stack ++ [v]) heap w.lastPopped) = _ from bind_pop_at]
  exact .inr ⟨_, .refl _, heap, ⟨hw.heap, hw.quiet, hw.bodies⟩, rfl⟩

/-- A unary operator follows that of the evaluation. -/
theorem unary {op : UnaryOp} (hc : c.code.Has ip [.unary op]) :
    c.Runs ip env (stack ++ [v]) (EvalM.onHeap (HeapM.unary op v))
      fun v => c.Point (ip + (Instruction.unary op).width) env (stack ++ [v]) :=
  result hc nofun (Plain.unary op v) fun _ _ => bind_pop_at

/-- A binary operator follows that of the evaluation. -/
theorem binary {op : BinaryOp} {left right : Value} (hc : c.code.Has ip [.binary op]) :
    c.Runs ip env (stack ++ [left] ++ [right]) (EvalM.onHeap (HeapM.apply op left right))
      fun v => c.Point (ip + (Instruction.binary op).width) env (stack ++ [v]) := by
  refine result hc nofun (Plain.apply op left right) fun heap last => ?_
  change MachineM.binary op _ = _
  rw [MachineM.binary_eq, bind_pop_at, bind_pop_at]

/-- An index follows that of the evaluation. -/
theorem index {object index : Value} (hc : c.code.Has ip [.index]) :
    c.Runs ip env (stack ++ [object] ++ [index]) (EvalM.onHeap (HeapM.index object index))
      fun v => c.Point (ip + Instruction.width .index) env (stack ++ [v]) :=
  result hc nofun (Plain.index object index) fun _ _ => bind_pop_at.trans bind_pop_at

/-- A member access follows that of the evaluation. -/
theorem getMember {name : String} (hc : c.code.Has ip [.getMember name]) :
    c.Runs ip env (stack ++ [v]) (EvalM.onHeap (HeapM.member v name))
      fun v => c.Point (ip + (Instruction.getMember name).width) env (stack ++ [v]) :=
  result hc nofun (Plain.member v name) fun _ _ => bind_pop_at

/-- A range literal follows that of the evaluation. -/
theorem buildRange {start stop step : Value} (hc : c.code.Has ip [.buildRange]) :
    c.Runs ip env (stack ++ [start] ++ [stop] ++ [step]) (EvalM.onHeap (HeapM.buildRange start stop step))
      fun v => c.Point (ip + Instruction.width .buildRange) env (stack ++ [v]) :=
  result hc nofun (Plain.buildRange start stop step) fun _ _ => bind_pop_at.trans (bind_pop_at.trans bind_pop_at)

/-- An array literal follows that of the evaluation, with its items on the stack. -/
theorem buildArray {items : List Value} {count : UInt32} (hn : count.toNat = items.length)
    (hc : c.code.Has ip [.buildArray count]) :
    c.Runs ip env (stack ++ items) (EvalM.onHeap (HeapM.allocArray items.toArray))
      fun v => c.Point (ip + (Instruction.buildArray count).width) env (stack ++ [v]) := by
  refine result hc nofun (Plain.allocArray items.toArray) fun heap last => ?_
  simp only [MachineM.execute, hn]
  exact bind_popMany_at

/-- A map literal follows that of the evaluation, with its pairs on the stack. -/
theorem buildMap {entries : List (Value × Value)} {count : UInt32} (hn : count.toNat = entries.length)
    (hc : c.code.Has ip [.buildMap count]) :
    c.Runs ip env (stack ++ flattened entries) (EvalM.onHeap (HeapM.allocMap entries))
      fun v => c.Point (ip + (Instruction.buildMap count).width) env (stack ++ [v]) := by
  refine result hc nofun (Plain.allocMap entries) fun heap last => ?_
  have hlen : count.toNat * 2 = (flattened entries).length := by rw [hn, length_flattened]
  simp only [MachineM.execute, hlen]
  refine bind_popMany_at.trans ?_
  rw [pairUp_flattened]

/-! ### Jumps and environments -/

/-- A jump continues at its target. -/
theorem jump {kind : JumpKind} {d : Int32} {target : Nat} {x : EvalM α} {Q : α → World → Machine → Prop}
    (hc : c.code.Has ip [.jump kind d]) (hk : kind = .forward ∨ kind = .loop)
    (ht : ((ip + (Instruction.jump kind d).width : Nat) : Int) + d.toInt = target) (hl : target ≤ c.code.instructions.size)
    (hx : c.Runs target env stack x Q) : c.Runs ip env stack x Q := by
  refine instruction hc nofun fun w heap hw => ?_
  have he : MachineM.execute ⟨c.code, ip, env, c.base⟩ (ip + (Instruction.jump kind d).width) (.jump kind d) =
      MachineM.jump (ip + (Instruction.jump kind d).width) d c.code.instructions.size := by
    rcases hk with rfl | rfl <;> rfl
  rw [he, jump_at ht hl]
  exact hx w _ ⟨heap, hw, rfl⟩

/-- A conditional jump is taken when the truth of the value on top is as asked. -/
theorem branch {sense : Bool} {d : Int32} {target : Nat}
    (hc : c.code.Has ip [.jump (if sense then .ifTrue else .ifFalse) d])
    (ht : ((ip + Fragment.jumpWidth : Nat) : Int) + d.toInt = target) (hl : target ≤ c.code.instructions.size) :
    c.Runs ip env (stack ++ [v]) (EvalM.onHeap (HeapM.read (·.truthy v)))
      fun b => c.Point (if b = sense then target else ip + Fragment.jumpWidth) env stack := by
  refine instruction hc (by cases sense <;> nofun) fun w heap hw => ?_
  rw [← bind_pure (EvalM.onHeap _)]
  cases sense with
  | true =>
    refine (congrArg (c.Agrees · _ _) bind_pop_at).mpr (agrees_onHeap (Plain.read (by simp)) hw fun b w' h' hw' _ => ?_)
    cases b with
    | true =>
      exact agrees_jump ht hl ⟨h', hw', rfl⟩
    | false => exact .inr ⟨_, .refl _, h', hw', rfl⟩
  | false =>
    refine (congrArg (c.Agrees · _ _) bind_pop_at).mpr (agrees_onHeap (Plain.read (by simp)) hw fun b w' h' hw' _ => ?_)
    cases b with
    | true => exact .inr ⟨_, .refl _, h', hw', rfl⟩
    | false =>
      exact agrees_jump ht hl ⟨h', hw', rfl⟩

/-- Entering a scope follows the evaluation into an environment inside. -/
theorem enterScope (hc : c.code.Has ip [.enterScope]) :
    c.Runs ip env stack (EvalM.inside env) fun scope => c.Point (ip + Instruction.width .enterScope) scope stack := by
  refine instruction hc nofun fun w heap hw => ?_
  rw [EvalM.inside, ← bind_pure (EvalM.onHeap _)]
  exact agrees_onHeap (Plain.allocEnvironment (some env)) hw fun scope w' h' hw' _ => agrees_setEnv hw'

/-- Leaving a scope follows the evaluation to the environment around. -/
theorem exitScope (hc : c.code.Has ip [.exitScope]) :
    c.Runs ip env stack (EvalM.around env) fun outer => c.Point (ip + Instruction.width .exitScope) outer stack := by
  refine instruction hc nofun fun w heap hw => ?_
  refine agrees_onHeap (Plain.read (by simp)) hw fun e w' h' hw' _ => ?_
  cases e.parent with
  | some parent => exact agrees_setEnv hw'
  | none => exact agrees_throw hw'

/-! ### Iterators -/

/-- Making an iterator follows that of the evaluation. -/
theorem getIter (hc : c.code.Has ip [.getIter]) :
    c.Runs ip env (stack ++ [v]) (EvalM.iteratorOf v)
      fun iterator => c.Point (ip + Instruction.width .getIter) env (stack ++ [iterator]) := by
  refine instruction hc nofun fun w heap hw => ?_
  refine (congrArg (c.Agrees · _ _) bind_pop_at).mpr (agrees_onHeap (Plain.allocIterator v) hw fun found w' h' hw' _ => ?_)
  cases found with
  | some iterator => exact agrees_push hw'
  | none => exact agrees_throw hw'

/-- The next element is pushed above the iterator, or the exhausted iterator is dropped and the loop is left. -/
theorem iterNext {arity : UInt8} {d : Int32} {target : Nat} (hc : c.code.Has ip [.iterNext arity d])
    (ht : ((ip + (Instruction.iterNext arity d).width : Nat) : Int) + d.toInt = target)
    (hl : target ≤ c.code.instructions.size) :
    c.Runs ip env (stack ++ [v]) (EvalM.draw v) fun found w m =>
      match found with
      | some pair => c.Point (ip + (Instruction.iterNext arity d).width) env (stack ++ [v] ++ yielded arity pair) w m
      | none => c.Point target env stack w m := by
  refine instruction hc nofun fun w heap hw => ?_
  refine (congrArg (c.Agrees · _ _) bind_peek_at).mpr ?_
  cases v with
  | ref kind a =>
    cases kind with
    | iterator =>
      refine (congrArg (c.Agrees · _ _) (bind_next_at a arity)).mpr ?_
      refine agrees_onHeap (Plain.read (by simp)) hw fun found w' h' hw' _ => ?_
      obtain ⟨pair, t⟩ := found
      cases pair with
      | some pair =>
        refine agrees_onHeap (Plain.setTraversal a t) hw' fun _ w₁ h₁ hw₁ _ => ?_
        exact agrees_pushYield ⟨h₁, hw₁, rfl⟩
      | none =>
        refine (congrArg (c.Agrees · _ _) bind_pop_at).mpr ?_
        exact agrees_jump ht hl ⟨h', hw', rfl⟩
    | _ => exact agrees_throw hw
  | _ => exact agrees_throw hw

/-! ### Functions -/

/-- Making a function follows the evaluation, which keeps the body. -/
theorem makeFunction {d : FunctionDecl} {p : Prototype} (hp : PrototypeOf d p) (hc : c.code.Has ip [.makeFunction p]) :
    c.Runs ip env stack (EvalM.makeFunction c.code.file env d)
      fun v => c.Point (ip + (Instruction.makeFunction p).width) env (stack ++ [v]) := by
  obtain ⟨hs, hk⟩ := hp
  rename_i s n params captures isAsync body code
  refine instruction hc nofun fun w heap hw => ?_
  let f : Closure := ⟨⟨c.code.file, n.getD Compile.anonymous, params, captures, isAsync,
    (encodeAll (closeBody body code)).toArray⟩, env⟩
  obtain ⟨w', heval, hlast, hw'⟩ := hw.makeFunction (f := f) (d := .mk s n params isAsync body) rfl ⟨code, hs, hk, rfl, rfl⟩
  rw [heval, ← hlast]
  change c.Agrees (EStateM.bind (MachineM.onHeap (HeapM.allocRef .function (.function f))) MachineM.push _) _ _
  rw [EStateM.bind, onHeap_at, HeapM.allocRef_of_quiet hw.quiet]
  exact agrees_push hw'

end Runs

/-! ## Calls -/

/-- The activation of a function called at a position, with so many operands below it. -/
def calling (c : Activation) (ip : Nat) (env : Handle) (f : Code) (base : Nat) : Activation :=
  ⟨f, base, c.outer.push ⟨c.code, ip, env, c.base⟩, c.globals, c.settings⟩

/-- The machine has come to a return with its result on top, and with the operands it began with still below. -/
def Returning (c : Activation) (stack : List Value) (v : Value) (w : World) (m : Machine) : Prop :=
  ∃ ip env above, c.code.Has ip [.ret] ∧ c.Point ip env (stack ++ above ++ [v]) w m

/-- What returns above more operands returns above fewer. -/
theorem Returning.below {above : List Value} {v : Value} (h : c.Returning (stack ++ above) v w m) :
    c.Returning stack v w m := by
  obtain ⟨ip, env, more, hc, hp⟩ := h
  refine ⟨ip, env, above ++ more, hc, ?_⟩
  rwa [← List.append_assoc stack above more]

/-- What fails in a call fails in the caller. -/
theorem Follows.of_calling {f : Code} {base : Nat} {r : EStateM.Result Halt World α} {Q : α → World → Machine → Prop}
    (hf : f.file = c.code.file) (h : (c.calling ip env f base).Follows m r Q) : c.Follows m r Q := by
  rcases h with h | h
  · exact .inl h
  · right
    cases r with
    | ok a w => exact h
    | error e w =>
      cases e with
      | failed e =>
        obtain ⟨m', hm, hg, hl, hw⟩ := h
        refine ⟨m', hm, hg, hl, ?_⟩
        rw [← hf]
        exact hw
      | unfinished => trivial

/-- A call that returns leaves its result in place of the function and the arguments. -/
theorem Returning.follows {f : Code} {callee v : Value} (hf : f.file = c.code.file)
    (h : (c.calling ip env f stack.length).Returning (stack ++ [callee]) v w m) :
    c.Follows m (.ok v w) fun v => c.Point ip env (stack ++ [v]) := by
  obtain ⟨ip', env', above, hc, heap, hw, rfl⟩ := h
  have hs := step_ret_at hw.quiet hc env' (stack ++ [callee] ++ above) w.lastPopped v
  have htake : (stack ++ [callee] ++ above).take stack.length = stack := by simp
  have hpushed : (c.outer.push ⟨c.code, ip, env, c.base⟩).isEmpty = false := by simp
  have hw' : Mirrors c.code.file w heap := by
    rw [← hf]
    exact hw
  rw [returnValue_at] at hs
  simp only [calling, hpushed, htake, Bool.false_eq_true, if_false] at hs
  change _ = EStateM.bind (MachineM.push v) (fun _ => EStateM.pure none) (c.at ip env stack heap w.lastPopped) at hs
  rw [EStateM.bind, push_at] at hs
  by_cases hfull : c.settings.stackCapacity ≤ stack.length
  · rw [if_pos hfull] at hs
    exact .inl ⟨_, _, ⟨_, .refl _, hs⟩, trivial⟩
  · rw [if_neg hfull] at hs
    exact .inr ⟨_, .single hs, heap, hw', rfl⟩

section

variable {h : Heap} {callee : Value} {args : List Value} {Q : β → World → Machine → Prop}

/-- A call of a function comes to the start of its body. -/
theorem agrees_callFunction {f : Closure} {k : Handle → EvalM β} (hw : Mirrors c.code.file w h)
    (hk : ∀ scope w' h', Mirrors c.code.file w' h' → w'.bodies = w.bodies →
      c.Follows ((c.calling ip env f.code stack.length).at 0 scope (stack ++ [callee]) h' w'.lastPopped) (k scope w') Q) :
    c.Agrees (MachineM.callFunction f stack.length args.length (c.at ip env (stack ++ [callee] ++ args) h w.lastPopped))
      ((EvalM.enter f args >>= k) w) Q := by
  have hargs : ((c.at ip env (stack ++ [callee] ++ args) h w.lastPopped).stack.extract (stack.length + 1)
      (c.at ip env (stack ++ [callee] ++ args) h w.lastPopped).stack.size).toList = args := by
    have hrest : stack.length + (args.length + 1) - (stack.length + 1) = args.length := by omega
    simp [Activation.at, List.extract_toArray, hrest]
  rw [MachineM.callFunction_eq, hargs]
  change c.Agrees _ (EStateM.bind (EvalM.enter f args) k w) Q
  unfold EvalM.enter
  split
  · exact .inr ⟨w, rfl, leaves_at hw⟩
  · split
    · exact .inr ⟨w, rfl, leaves_at hw⟩
    · split
      · exact .inl trivial
      · change c.Agrees _ (((EvalM.onHeap (HeapM.allocEnvironment (some f.env)) >>= fun scope =>
          EvalM.onHeap (HeapM.defineAll scope (f.code.params.zip args)) >>= fun _ => Pure.pure scope) >>= k) w) Q
        rw [bind_assoc]
        refine agrees_onHeap (Plain.allocEnvironment (some f.env)) hw fun scope w₁ h₁ hw₁ hb₁ => ?_
        rw [bind_assoc]
        refine agrees_onHeap (Plain.defineAll scope _) hw₁ fun _ w₂ h₂ hw₂ hb₂ => ?_
        change c.Agrees (EStateM.bind (MachineM.truncate (stack.length + 1)) _ _) _ _
        rw [EStateM.bind, truncate_at]
        have htake : (stack ++ [callee] ++ args).take (stack.length + 1) = stack ++ [callee] :=
          List.take_left' (by simp)
        rw [htake]
        exact hk scope w₂ h₂ hw₂ (hb₂.trans hb₁)

/-- A call of a native function pushes its result in place of the function and the arguments. -/
theorem agrees_callNative {n : Native} (hw : Mirrors c.code.file w h) :
    c.Agrees (MachineM.callNative n stack.length args.length (c.at ip env (stack ++ [callee] ++ args) h w.lastPopped))
      (EvalM.callNative n args w) fun v => c.Point ip env (stack ++ [v]) := by
  unfold MachineM.callNative EvalM.callNative
  split
  · exact .inr ⟨w, rfl, leaves_at hw⟩
  · refine (congrArg (c.Agrees · _ _) bind_popMany_at).mpr ?_
    rw [← bind_pure (EvalM.onHeap _)]
    refine agrees_onHeap (Plain.native n.code args) hw fun v w' h' hw' _ => ?_
    change c.Agrees (EStateM.bind (MachineM.truncate stack.length) _ _) _ _
    rw [EStateM.bind, truncate_at]
    have htake : (stack ++ [callee]).take stack.length = stack := by simp
    rw [htake]
    exact agrees_push hw'

end

end Activation

end ScriptVM
