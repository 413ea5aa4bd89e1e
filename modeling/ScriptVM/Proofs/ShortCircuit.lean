import ScriptVM.Proofs.Effects
import ScriptVM.Proofs.Operations

/-!
# Conditions are evaluated with short circuit

`Expr.inquiry` is the evaluation of a condition from left to right as it depends on its leaves: which leaf is asked for its truth
first, and after each answer, which one is next or what the whole has come to. It follows `&&`, `||` and `!` in the tree and
knows nothing of code. `Machine.Serves` says that a run follows such an evaluation: between the leaves it executes jumps only, it
enters the code of a leaf when this leaf is asked, and takes the truth of the value that the leaf left on the stack for the answer.

What the leaves do is left open. They may call functions, fail or never end, and collections may happen at any time.
-/

namespace ScriptVM

/-- The evaluation of a condition as it depends on its leaves: it is decided, or asks for the truth of a leaf and goes on by it. -/
inductive Inquiry where
  | done (truth : Bool)
  | ask (leaf : Expr) (next : Bool → Inquiry)

/-- Goes on with another evaluation by what one has come to. -/
def Inquiry.bind : Inquiry → (Bool → Inquiry) → Inquiry
  | done b, k => k b
  | ask leaf next, k => ask leaf fun b => (next b).bind k

/-- Evaluates a condition from left to right: the right operand of a logical operator is looked at only where the left one leaves
the answer open, and a constant leaf is not asked for. -/
def Expr.inquiry : Expr → Inquiry
  | logical _ .and l r => l.inquiry.bind fun b => if b then r.inquiry else .done false
  | logical _ .or l r => l.inquiry.bind fun b => if b then .done true else r.inquiry
  | unary _ .not e => e.inquiry.bind fun b => .done !b
  | e =>
    match e.fold? with
    | some c => .done c.truthy
    | none => .ask e .done

namespace Expr

/-- The right side of a condition is looked at only if the left one does not decide it. -/
theorem inquiry_logical (s : Span) (op : LogicalOp) (l r : Expr) :
    (logical s op l r).inquiry = l.inquiry.bind fun b => if Compile.Lowered.decides op b then .done b else r.inquiry := by
  cases op with
  | and =>
    rw [inquiry]
    congr 1
    funext b
    cases b <;> rfl
  | or =>
    rw [inquiry]
    congr 1
    funext b
    cases b <;> rfl

/-- An expression that is no logical operator is a leaf, which is asked unless it is constant. -/
theorem inquiry_of_not_isLogic {e : Expr} (hl : e.isLogic = false) :
    e.inquiry = match e.fold? with
      | some c => .done c.truthy
      | none => .ask e .done := by
  cases e with
  | logical s op l r => nomatch hl
  | unary s op e =>
    cases op with
    | not => nomatch hl
    | negate => rw [inquiry] <;> nofun
  | _ => rw [inquiry] <;> nofun

/-- A leaf is asked, and its answer is the truth of the whole. -/
theorem inquiry_leaf {e : Expr} (hf : e.fold? = none) (hl : e.isLogic = false) : e.inquiry = .ask e .done := by
  rw [inquiry_of_not_isLogic hl, hf]

/-- A constant condition asks for nothing, and comes to the truth of the constant. -/
theorem inquiry_of_fold {e : Expr} {c : Constant} (hf : e.fold? = some c) : e.inquiry = .done c.truthy := by
  cases hl : e.isLogic with
  | false => rw [inquiry_of_not_isLogic hl, hf]
  | true =>
    cases e with
    | logical s op l r =>
      obtain ⟨a, ha, hrest⟩ := Option.bind_eq_some_iff.1 hf
      obtain ⟨b, hb, hlast⟩ := Option.bind_eq_some_iff.1 hrest
      cases hlast
      rw [inquiry_logical, inquiry_of_fold ha, Inquiry.bind, inquiry_of_fold hb, Constant.truthy_logical]
      split <;> rfl
    | unary s op e =>
      cases op with
      | not =>
        obtain ⟨a, ha, hlast⟩ := Option.bind_eq_some_iff.1 hf
        cases hlast
        rw [inquiry, inquiry_of_fold ha, Inquiry.bind, Constant.truthy_not]
      | negate => nomatch hl
    | _ => nomatch hl
termination_by e

end Expr

/-! ## Runs between the leaves -/

namespace Machine

/-- The innermost frame and the operands of a machine, and the frames of the callers. -/
structure IsAt (m : Machine) (outer : Array Frame) (f : Frame) (stack : Array Value) : Prop where
  frames : m.frames = outer.push f
  stack : m.stack = stack

/-- Some steps lead from one machine to the other, and each of them executes a jump. -/
inductive Jumps : Machine → Machine → Prop where
  | refl (m : Machine) : Jumps m m
  | step {m m₁ m₂ : Machine} {f : Frame} {kind : JumpKind} {offset : Int32} {width : Nat} : m.frames.back? = some f →
      Instruction.decode f.code.instructions f.ip = .ok (.jump kind offset, width) → MachineM.step m = .ok none m₁ →
      Jumps m₁ m₂ → Jumps m m₂

theorem Jumps.trans {m m₁ m₂ : Machine} (h : m.Jumps m₁) (h' : m₁.Jumps m₂) : m.Jumps m₂ := by
  induction h with
  | refl => exact h'
  | step hf hd hs _ ih => exact .step hf hd hs (ih h')

theorem Jumps.reaches {m m' : Machine} (h : m.Jumps m') : m.Reaches m' := by
  induction h with
  | refl => exact .refl _
  | step _ _ hs _ ih => exact .step hs ih

/-- The run of a machine follows the evaluation of a condition, by jumps between the codes of the leaves. Wherever the code of a
leaf comes to its end in the same frame, with one value more on the stack, the run goes on by the truth of that value. What the
whole has come to is known at the exit. -/
def Serves (outer : Array Frame) (f : Frame) (stack : Array Value) (exit : Bool → Machine → Prop) : Inquiry → Machine → Prop
  | .done b, m => ∃ m', m.Jumps m' ∧ exit b m'
  | .ask leaf next, m => ∃ code ip m₁, Emits (Compile.expr leaf).value code ∧ f.code.Has ip code ∧ m.Jumps m₁ ∧
      m₁.IsAt outer { f with ip } stack ∧
      ∀ v b m₂, m₁.Reaches m₂ → m₂.IsAt outer { f with ip := ip + codeSize code } (stack.push v) → m₂.heap.truthy v = .ok b →
        Serves outer f stack exit (next b) m₂

variable {m m' : Machine} {outer : Array Frame} {f : Frame} {stack : Array Value} {exit : Bool → Machine → Prop}

/-- A run that follows an evaluation does so with jumps before it too. -/
theorem Serves.of_jumps {q : Inquiry} (h : m.Jumps m') (hs : Serves outer f stack exit q m') : Serves outer f stack exit q m := by
  cases q with
  | done b =>
    obtain ⟨m₁, hj, he⟩ := hs
    exact ⟨m₁, h.trans hj, he⟩
  | ask leaf next =>
    obtain ⟨code, ip, m₁, hcode, hhas, hj, hrest⟩ := hs
    exact ⟨code, ip, m₁, hcode, hhas, h.trans hj, hrest⟩

/-- Where more counts as the exit, the run still follows the evaluation. -/
theorem Serves.mono {q : Inquiry} {exit' : Bool → Machine → Prop} (hs : Serves outer f stack exit q m)
    (he : ∀ b m', exit b m' → exit' b m') : Serves outer f stack exit' q m := by
  induction q generalizing m with
  | done b =>
    obtain ⟨m₁, hj, hexit⟩ := hs
    exact ⟨m₁, hj, he b m₁ hexit⟩
  | ask leaf next ih =>
    obtain ⟨code, ip, m₁, hcode, hhas, hj, hat, hrest⟩ := hs
    exact ⟨code, ip, m₁, hcode, hhas, hj, hat, fun v b m₂ hr hend ht => ih b (hrest v b m₂ hr hend ht)⟩

/-- One evaluation behind another. -/
theorem Serves.bind {q : Inquiry} {k : Bool → Inquiry} {exit' : Bool → Machine → Prop} (hs : Serves outer f stack exit q m)
    (hk : ∀ b m', exit b m' → Serves outer f stack exit' (k b) m') : Serves outer f stack exit' (q.bind k) m := by
  induction q generalizing m with
  | done b =>
    obtain ⟨m₁, hj, he⟩ := hs
    exact (hk b m₁ he).of_jumps hj
  | ask leaf next ih =>
    obtain ⟨code, ip, m₁, hcode, hhas, hj, hat, hrest⟩ := hs
    exact ⟨code, ip, m₁, hcode, hhas, hj, hat, fun v b m₂ hr he ht => ih b (hrest v b m₂ hr he ht)⟩

/-- A value on the stack is a root, so a collection leaves its truth as it is. -/
theorem truthy_collected {v : Value} (hv : v ∈ m.stack.toList) : m.collected.heap.truthy v = m.heap.truthy v := by
  have hkept : ∀ a, v.handle? = some a → (m.heap.collect m.roots).get? a = m.heap.get? a := by
    intro a ha
    have hroot : a ∈ m.roots :=
      List.mem_append_left _ (List.mem_append_left _ (List.mem_filterMap.2 ⟨v, hv, ha⟩))
    exact Option.ext fun o => Heap.get?_collect_of_root hroot
  unfold Machine.collected
  split
  · change (m.heap.collect m.roots).truthy v = _
    unfold Heap.truthy
    congr 1
    cases v with
    | ref kind a =>
      have hget := hkept a rfl
      cases kind <;> simp only [Heap.operand, Heap.text, Heap.error, Heap.array, Heap.map, Heap.range, hget]
    | _ => rfl
  · rfl

namespace IsAt

/-- The collection that may be due before a step leaves the place of the machine. -/
theorem collected (h : m.IsAt outer f stack) : m.collected.IsAt outer f stack := by
  unfold Machine.collected
  split
  · exact ⟨h.frames, h.stack⟩
  · exact h

/-- The instruction of the innermost frame is executed behind the collection that may be due, with the frame moved on. -/
theorem step_eq {i : Instruction} (h : m.IsAt outer f stack) (hc : f.code.Has f.ip [i]) (hi : i ≠ .ret) :
    MachineM.step m = EStateM.bind (MachineM.execute f (f.ip + i.width) i) (fun _ => EStateM.pure none)
      { m.collected with frames := outer.push { f with ip := f.ip + i.width } } := by
  have hframe : MachineM.frame m.collected = .ok f m.collected := by
    simp [MachineM.frame, MachineM.read, h.collected.frames]
  have hmove : MachineM.modifyFrame (fun g => { g with ip := f.ip + i.width }) m.collected =
      .ok () { m.collected with frames := outer.push { f with ip := f.ip + i.width } } := by
    rw [MachineM.modifyFrame_eq, h.collected.frames, modify_push]
  rw [MachineM.step_eq]
  simp only [MachineM.advance, bind, EStateM.bind, hframe, MachineM.fetch, hc.decode, pure, EStateM.pure, hmove]

/-- A step that executes a jump. -/
theorem jumps {kind : JumpKind} {d : Int32} (h : m.IsAt outer f stack) (hc : f.code.Has f.ip [.jump kind d])
    (hs : MachineM.step m = .ok none m') : m.Jumps m' :=
  .step (by rw [h.frames, Array.back?_push]) hc.decode hs (.refl m')

/-- A jump inside the code moves the innermost frame. -/
theorem moves {source : Nat} {offset : Int32} {length target : Nat} (h : m.IsAt outer f stack)
    (ht : (source : Int) + offset.toInt = target) (hl : target ≤ length) :
    MachineM.jump source offset length m = .ok () { m with frames := outer.push { f with ip := target } } := by
  have hinside : ¬((source : Int) + offset.toInt < 0 ∨ (length : Int) < (source : Int) + offset.toInt) := by omega
  simp only [MachineM.jump]
  rw [if_neg hinside, MachineM.modifyFrame_eq, h.frames, modify_push, ht]
  rfl

/-- A forward jump leads to its target, and executes nothing else. -/
theorem jump {d : Int32} {target : Nat} (h : m.IsAt outer f stack) (hc : f.code.Has f.ip [.jump .forward d])
    (ht : ((f.ip + Fragment.jumpWidth : Nat) : Int) + d.toInt = target) (hl : target ≤ f.code.instructions.size) :
    ∃ m', m.Jumps m' ∧ m'.IsAt outer { f with ip := target } stack := by
  have hmoved : MachineM.jump (f.ip + Fragment.jumpWidth) d f.code.instructions.size
      { m.collected with frames := outer.push { f with ip := f.ip + Fragment.jumpWidth } } =
      .ok () { m.collected with frames := outer.push { f with ip := target } } :=
    moves (f := { f with ip := f.ip + Fragment.jumpWidth }) ⟨rfl, h.collected.stack⟩ ht hl
  refine ⟨{ m.collected with frames := outer.push { f with ip := target } }, h.jumps hc ?_, rfl, h.collected.stack⟩
  rw [h.step_eq hc nofun]
  change EStateM.bind (MachineM.jump _ _ _) _ _ = _
  rw [EStateM.bind, width_jump, hmoved]
  rfl

/-- A conditional jump is taken when the truth of the value on top is as asked, and drops the value. -/
theorem branch {v : Value} {sense b : Bool} {d : Int32} {target : Nat} (h : m.IsAt outer f (stack.push v))
    (hc : f.code.Has f.ip [.jump (if sense then .ifTrue else .ifFalse) d]) (hb : m.heap.truthy v = .ok b)
    (ht : ((f.ip + Fragment.jumpWidth : Nat) : Int) + d.toInt = target) (hl : target ≤ f.code.instructions.size) :
    ∃ m', m.Jumps m' ∧ m'.IsAt outer { f with ip := if b = sense then target else f.ip + Fragment.jumpWidth } stack := by
  have htruth : m.collected.heap.truthy v = .ok b := by
    rw [truthy_collected (by simp [h.stack]), hb]
  let m₁ : Machine := { m.collected with stack, frames := outer.push { f with ip := f.ip + Fragment.jumpWidth } }
  have htest : ∀ k : Bool → MachineM Unit,
      (MachineM.pop >>= fun condition => MachineM.onHeap (HeapM.read (·.truthy condition)) >>= k)
        { m.collected with frames := outer.push { f with ip := f.ip + Fragment.jumpWidth } } = k b m₁ := by
    intro k
    simp only [bind, EStateM.bind, MachineM.pop, h.collected.stack, Array.back?_push, Array.pop_push, MachineM.onHeap_eq,
      HeapM.read, htruth, m₁]
  have hmoved : MachineM.jump (f.ip + Fragment.jumpWidth) d f.code.instructions.size m₁ =
      .ok () { m₁ with frames := outer.push { f with ip := target } } :=
    moves (f := { f with ip := f.ip + Fragment.jumpWidth }) ⟨rfl, rfl⟩ ht hl
  have hexecute : MachineM.execute f (f.ip + Fragment.jumpWidth) (.jump (if sense then .ifTrue else .ifFalse) d)
      { m.collected with frames := outer.push { f with ip := f.ip + Fragment.jumpWidth } } =
      .ok () { m₁ with frames := outer.push { f with ip := if b = sense then target else f.ip + Fragment.jumpWidth } } := by
    cases sense with
    | true =>
      refine (htest _).trans ?_
      cases b with
      | true => exact hmoved
      | false => rfl
    | false =>
      refine (htest _).trans ?_
      cases b with
      | true => rfl
      | false => exact hmoved
  refine ⟨{ m₁ with frames := outer.push { f with ip := if b = sense then target else f.ip + Fragment.jumpWidth } },
    h.jumps hc ?_, rfl, rfl⟩
  rw [h.step_eq hc (by simp), EStateM.bind, width_jump, hexecute]
  rfl

/-- A loaded truth is pushed, unless the stack is full. -/
theorem loads {b : Bool} (h : m.IsAt outer f stack) (hc : f.code.Has f.ip [.load (.bool b)]) :
    if m.settings.stackCapacity ≤ stack.size then ∃ m', m.Fails (.stackOverflow m.settings.stackCapacity) m'
    else ∃ m', m.Reaches m' ∧ m'.IsAt outer { f with ip := f.ip + (Instruction.load (.bool b)).width } (stack.push (.bool b)) := by
  have hsettings : m.collected.settings = m.settings := by
    unfold Machine.collected
    split <;> rfl
  have hstep := h.step_eq hc nofun
  simp only [MachineM.execute, MachineM.loadConstant, EStateM.bind, MachineM.push, hsettings, h.collected.stack] at hstep
  split
  · rename_i hfull
    rw [if_pos hfull] at hstep
    exact ⟨_, m, .refl m, hstep⟩
  · rename_i hroom
    rw [if_neg hroom] at hstep
    exact ⟨_, .single hstep, rfl, rfl⟩

end IsAt

/-! ## Conditions -/

open Compile

/-- The machine is at the target of a condition if the truth is as asked, and behind its code otherwise. -/
def Decided (outer : Array Frame) (f : Frame) (stack : Array Value) (sense : Bool) (target stop : Nat) (b : Bool) (m : Machine) :
    Prop :=
  m.IsAt outer { f with ip := if b = sense then target else stop } stack

/-- Wherever the code of a condition stands in a frame, the run follows the evaluation of the condition from the beginning of that
code on. -/
def Evaluates (outer : Array Frame) (f : Frame) (stack : Array Value) (e : Expr) : Prop :=
  ∀ ⦃sense : Bool⦄ ⦃fragment : Fragment⦄ ⦃beyond ip : Nat⦄ ⦃code : List Instruction⦄ ⦃m : Machine⦄,
    Emits ((expr e).jump sense) fragment → fragment.resolve beyond = .ok code → f.code.Has ip code →
    ip + codeSize code + beyond ≤ f.code.instructions.size → m.IsAt outer { f with ip } stack →
    Serves outer f stack (Decided outer f stack sense (ip + codeSize code + beyond) (ip + codeSize code)) e.inquiry m

/-- A condition that is not folded is lowered from both of its sides. -/
theorem expr_logical {s : Span} {op : LogicalOp} {l r : Expr} (hf : (Expr.logical s op l r).fold? = none) :
    expr (.logical s op l r) = .logical s op (expr l) (expr r) := by
  rw [expr, hf]

/-- A constant jumps at once, or has no code. -/
theorem evaluates_constant {e : Expr} {c : Constant} (hf : e.fold? = some c) : Evaluates outer f stack e := by
  intro sense fragment beyond ip code m h hr hc hl hm
  rw [Expr.inquiry_of_fold hf]
  rw [expr_of_fold hf] at h
  obtain rfl := h.pure
  split at hr
  · rename_i ht
    obtain ⟨d, hd, hlast⟩ := bind_eq_ok.1 hr
    cases hlast
    have htarget : ((ip + Fragment.jumpWidth : Nat) : Int) + d.toInt = (ip + codeSize [.jump .forward d] + beyond : Nat) := by
      rw [jumpDistance_eq_ok hd]
      simp only [codeSize, width_jump, Fragment.size]
      omega
    obtain ⟨m', hj, hat⟩ := hm.jump hc htarget hl
    refine ⟨m', hj, ?_⟩
    rw [Decided, if_pos ht]
    exact hat
  · rename_i ht
    cases hr
    refine ⟨m, .refl m, ?_⟩
    rw [Decided, if_neg ht]
    exact hm

/-- A leaf is asked for its value, which the test behind it drops. -/
theorem evaluates_leaf {e : Expr} (hf : e.fold? = none) (hlogic : e.isLogic = false) : Evaluates outer f stack e := by
  intro sense fragment beyond ip code m h hr hc hl hm
  rw [Expr.inquiry_leaf hf hlogic]
  rw [jump_of_not_isLogic hf hlogic] at h
  obtain ⟨value, hvalue, hlast⟩ := h.bind
  obtain rfl := hlast.pure
  obtain ⟨a, b, ha, hb, rfl⟩ := Fragment.resolve_append hr
  rw [Fragment.resolve_ofCode] at ha
  cases ha
  obtain ⟨d, hd, hb⟩ := bind_eq_ok.1 hb
  cases hb
  rw [codeSize_concat, width_jump, ← Nat.add_assoc] at hl ⊢
  refine ⟨value, ip, m, hvalue, hc.left, .refl m, hm, fun v b m₂ _ hend ht => ?_⟩
  refine hend.branch hc.right ht ?_ hl
  rw [jumpDistance_eq_ok hd]
  simp only [Fragment.size]
  omega

/-- A negation asks as its operand does, and exchanges the ways on. -/
theorem evaluates_not {s : Span} {e : Expr} (hf : (Expr.unary s .not e).fold? = none) (he : Evaluates outer f stack e) :
    Evaluates outer f stack (.unary s .not e) := by
  intro sense fragment beyond ip code m h hr hc hl hm
  unfold expr at h
  rw [hf] at h
  rw [Expr.inquiry]
  refine (he h hr hc hl hm).bind fun b m' hd => ⟨m', .refl m', ?_⟩
  rw [Decided] at hd ⊢
  cases b <;> cases sense <;> exact hd

/-- The left operand may decide; otherwise the right one does, behind the code of the left one. -/
theorem evaluates_logical {s : Span} {op : LogicalOp} {l r : Expr} (hf : (Expr.logical s op l r).fold? = none)
    (hleft : Evaluates outer f stack l) (hright : Evaluates outer f stack r) : Evaluates outer f stack (.logical s op l r) := by
  intro sense fragment beyond ip code m h hr hc hl hm
  rw [expr_logical hf] at h
  simp only [Lowered.logical, Lowered.logicalJump] at h
  rw [Expr.inquiry_logical]
  split at h
  -- Both operands jump to the target.
  · rename_i hdecides
    obtain ⟨first, h₁, h⟩ := h.bind
    obtain ⟨second, h₂, h⟩ := h.bind
    obtain rfl := h.pure
    obtain ⟨a, b, ha, hb, rfl⟩ := Fragment.resolve_append hr
    have hsize := Fragment.codeSize_of_resolve hb
    rw [codeSize_append, ← Nat.add_assoc] at hl ⊢
    refine (hleft h₁ ha hc.left (by omega) hm).bind fun t m' hd => ?_
    rw [Decided] at hd
    by_cases ht : t = sense
    · subst ht
      rw [if_pos hdecides]
      refine ⟨m', .refl m', ?_⟩
      rw [Decided, if_pos rfl, hsize, Nat.add_assoc _ _ beyond]
      rw [if_pos rfl] at hd
      exact hd
    · rw [if_neg ht] at hd
      rw [if_neg (by simp [decides_of_ne ht, hdecides])]
      exact hright h₂ hb hc.right hl hd
  -- The left operand jumps over the right one.
  · rename_i hdecides
    obtain ⟨skip, h₁, h⟩ := h.bind
    obtain ⟨second, h₂, h⟩ := h.bind
    obtain ⟨placed, h₃, h⟩ := h.bind
    obtain rfl := h.pure
    have hskip := h₃.place
    obtain ⟨a, b, ha, hb, rfl⟩ := Fragment.resolve_append hr
    rw [Fragment.resolve_ofCode] at ha
    cases ha
    have hsize := Fragment.codeSize_of_resolve hb
    rw [codeSize_append, ← Nat.add_assoc] at hl ⊢
    refine (hleft h₁ hskip hc.left (by omega) hm).bind fun t m' hd => ?_
    rw [Decided] at hd
    by_cases ht : t = sense
    · subst ht
      rw [if_neg (by simp)] at hd
      rw [if_neg hdecides]
      exact hright h₂ hb hc.right hl hd
    · have hopposite : t = !sense := by
        cases t <;> cases sense <;> simp_all
      rw [if_pos hopposite, ← hsize] at hd
      rw [if_pos (by simp [decides_of_ne ht, hdecides])]
      refine ⟨m', .refl m', ?_⟩
      rw [Decided, if_neg ht]
      exact hd

/-- Emitted as a condition, an expression is evaluated with short circuit. -/
theorem evaluates (outer : Array Frame) (f : Frame) (stack : Array Value) (e : Expr) : Evaluates outer f stack e := by
  cases hfold : e.fold? with
  | some c => exact evaluates_constant hfold
  | none =>
    cases hlogic : e.isLogic with
    | false => exact evaluates_leaf hfold hlogic
    | true =>
      match e, hlogic with
      | .unary s .not e, _ => exact evaluates_not hfold (evaluates outer f stack e)
      | .logical s op l r, _ => exact evaluates_logical hfold (evaluates outer f stack l) (evaluates outer f stack r)
termination_by e

/-- The machine comes to the end of a code with one truth more on the stack, unless the stack is full. -/
def Delivers (outer : Array Frame) (f : Frame) (stack : Array Value) (stop : Nat) (b : Bool) (m : Machine) : Prop :=
  if m.settings.stackCapacity ≤ stack.size then ∃ m', m.Fails (.stackOverflow m.settings.stackCapacity) m'
  else ∃ m', m.Reaches m' ∧ m'.IsAt outer { f with ip := stop } (stack.push (.bool b))

/-- Emitted for its value, a logical operator is evaluated as the condition that it is, and its truth is pushed. -/
theorem serves_value {s : Span} {op : LogicalOp} {l r : Expr} {ip : Nat} {code : List Instruction}
    (hf : (Expr.logical s op l r).fold? = none) (h : Emits (expr (.logical s op l r)).value code) (hc : f.code.Has ip code)
    (hm : m.IsAt outer { f with ip } stack) :
    Serves outer f stack (Delivers outer f stack (ip + codeSize code)) (Expr.logical s op l r).inquiry m := by
  have hjump : (expr (.logical s op l r)).jump false = Lowered.logicalJump s op (expr l) (expr r) false := by
    rw [expr_logical hf]
    rfl
  rw [expr_logical hf] at h
  obtain ⟨falsy, h₁, h⟩ := h.bind
  obtain ⟨skip, h₂, h⟩ := h.bind
  obtain ⟨test, h₃, h⟩ := h.bind
  obtain rfl := h.pure
  obtain ⟨d, hd, rfl⟩ := h₂.jumpBy
  rw [← hjump] at h₁
  have hfalse := hc.right
  have htrue := hc.left.right.left (a := [.load (.bool true)]) (b := [.jump .forward d])
  have hover := hc.left.right.right (a := [.load (.bool true)]) (b := [.jump .forward d])
  have hend := hc.le_size
  simp only [codeSize_append, ← Nat.add_assoc] at hfalse hend ⊢
  refine (evaluates outer f stack _ h₁ h₃.place hc.left.left (by omega) hm).mono fun b m' hdecided => ?_
  rw [Decided] at hdecided
  cases b with
  | false => exact hdecided.loads hfalse
  | true =>
    have hloads := hdecided.loads htrue
    rw [Delivers]
    split at hloads
    · rename_i hfull
      rw [if_pos hfull]
      exact hloads
    · rename_i hroom
      rw [if_neg hroom]
      obtain ⟨m₁, hr, hat⟩ := hloads
      have htarget : ((ip + codeSize test + (Instruction.load (.bool true)).width + Fragment.jumpWidth : Nat) : Int) + d.toInt =
          (ip + codeSize test + codeSize [.load (.bool true), .jump .forward d] + codeSize [.load (.bool false)] : Nat) := by
        rw [jumpDistance_eq_ok hd]
        simp only [codeSize, width_jump]
        omega
      obtain ⟨m₂, hj, hat₂⟩ := hat.jump hover htarget hend
      exact ⟨m₂, hr.trans hj.reaches, hat₂⟩

/-- Conditions are evaluated with short circuit, on any machine and with any leaves. Where the code of a condition stands in the
innermost frame, with its open jumps led `beyond` bytes behind it, the run follows `Expr.inquiry` and comes to the target if the
truth is as asked, and behind the code otherwise, with the operands it began with. A logical operator that is not constant is
evaluated in the same way for its value, which is its truth as a boolean. -/
theorem conditions_shortCircuit (outer : Array Frame) (f : Frame) (stack : Array Value) (e : Expr) {code : List Instruction}
    {pre post : List UInt8} (hcode : f.code.instructions.toList = pre ++ (encodeAll code ++ post))
    (hm : m.IsAt outer { f with ip := pre.length } stack) :
    (∀ sense fragment beyond, Emits ((expr e).jump sense) fragment → fragment.resolve beyond = .ok code → beyond ≤ post.length →
      Serves outer f stack
        (Decided outer f stack sense (pre.length + codeSize code + beyond) (pre.length + codeSize code)) e.inquiry m) ∧
    (∀ s op l r, e = .logical s op l r → e.fold? = none → Emits (expr e).value code →
      Serves outer f stack (Delivers outer f stack (pre.length + codeSize code)) e.inquiry m) := by
  refine ⟨fun sense fragment beyond h hr hbeyond => ?_, ?_⟩
  · have hsize : pre.length + codeSize code + post.length = f.code.instructions.size := by
      rw [← Array.length_toList, hcode, List.length_append, List.length_append, length_encodeAll, Nat.add_assoc]
    exact evaluates outer f stack e h hr ⟨(emits_jump e h).2.resolve hr, pre, post, hcode, rfl⟩ (by omega) hm
  · rintro s op l r rfl hf h
    exact serves_value hf h ⟨(emits_value _ h).2, pre, post, hcode, rfl⟩ hm

/-- Not an array, or another array and a constant. -/
def conditionSample : Expr :=
  .logical {} .or (.unary {} .not (.array {} [])) (.logical {} .and (.array {} [.literal {} (.int 1)]) (.literal {} (.bool true)))

/-- The code of the sample that jumps on truth, one byte behind its end. -/
def conditionCode : List Instruction :=
  [.buildArray 0, .jump .ifFalse 21, .load (.num (.int 1)), .buildArray 1, .jump .ifFalse 5, .jump .forward 1]

/-- A frame at the beginning of the code of the sample. -/
def conditionFrame : Frame :=
  ⟨⟨"m.vs", "m", [], [], false, (encodeAll conditionCode ++ encodeAll returnNull).toArray⟩, 0, default, 0⟩

/-- The machine at the beginning of the sample's code follows the evaluation of the sample. -/
theorem conditions_shortCircuit_conditionSample :
    ∃ m : Machine, m.IsAt #[] conditionFrame #[.null] ∧
      Serves #[] conditionFrame #[.null] (Decided #[] conditionFrame #[.null] true 31 30) conditionSample.inquiry m := by
  have hm : IsAt { stack := #[.null], frames := #[conditionFrame], heap := default, globals := default, settings := {} } #[]
      conditionFrame #[.null] := ⟨rfl, rfl⟩
  obtain ⟨fragment, hemits, hresolve⟩ : ∃ fragment, Emits ((expr conditionSample).jump true) fragment ∧
      fragment.resolve 1 = .ok conditionCode := ⟨_, ⟨[{ kind := .global }], _, rfl⟩, rfl⟩
  have hplaced : conditionFrame.code.instructions.toList = [] ++ (encodeAll conditionCode ++ encodeAll returnNull) := rfl
  exact ⟨_, hm, (conditions_shortCircuit #[] conditionFrame #[.null] conditionSample hplaced hm).1 true fragment 1 hemits hresolve
    (by decide)⟩

-- The second array is asked for only where the first one is truthy.
example : conditionSample.inquiry = .ask (.array {} []) fun b =>
    if !b then .done true
    else .ask (.array {} [.literal {} (.int 1)]) fun b => if b then .done true else .done false := rfl

end Machine

end ScriptVM
