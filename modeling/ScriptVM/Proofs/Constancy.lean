import ScriptVM.Proofs.Exhaustion
import ScriptVM.Proofs.Lawfulness

/-!
# Constants

A constant that a program binds stays as it is, in the whole run, as long as no closure that finds its name in the same environment
assigns it when it is bound (`Machine.constant_stays`). Closures that are made behind the store of the constant cannot: the compiler
has seen the declaration, and refuses to assign the name. But it knows nothing of declarations that stand behind a function, so a
closure that was made before the constant was bound may assign it when it is called (`Machine.constant_assigned_lateSample`).
-/

namespace ScriptVM

open Heap (Any)

section

variable {x : String} {known : List Stmt → Prop} {pin : Option (Handle × Value)} {m m' : Machine} {h : Heap} {outer : Array Frame}
  {f : Frame} {others : List Handle}

/-! ## A constant is pinned -/

/-- Frames that do not lead to an environment do not care whether it is pinned. -/
theorem Frame.Lawful.pinned {a : Handle} {v : Value} (hf : f.Lawful x known none h others) (hfree : ¬h.Leads f.env a) :
    f.Lawful x known (some (a, v)) h others := by
  obtain ⟨kinds, before, after, out, hstops, htrail, -⟩ := hf
  refine ⟨kinds, before, after, out, hstops, htrail.pinned hfree, fun o hout hthreatens => ?_⟩
  subst hout
  obtain ⟨b, w, hpin, hsees, -⟩ := hthreatens
  cases hpin
  obtain ⟨e, parent, he, hparent, hleads⟩ := htrail.leads
  exact hfree (.up he trivial hparent (hleads.trans hsees.leads))

/-- A name that no scope of the waiting calls finds in an environment can be pinned there. -/
theorem Calls.pinned {a : Handle} {v : Value} (hc : Calls x known none h outer) (hfree : ∀ b ∈ scopesOf outer, ¬h.Leads b a) :
    Calls x known (some (a, v)) h outer := by
  induction hc with
  | empty => exact .empty
  | call _ hf ih =>
    exact .call (ih fun b hb => hfree b (mem_scopesOf_push.2 (.inl hb))) (hf.pinned (hfree _ (mem_scopesOf_push.2 (.inr rfl))))

/-- The store of a constant pins its binding, if no closure threatens it. -/
theorem Machine.Comes.pins_constant {kinds : List Bool} {before rest : List Instruction} {out : Option Handle} {v : Value}
    (hm : m.Comes x known none outer f kinds before rest out (.storeName x)) (hconst : kinds[storeCount before]? = some true)
    (hfree : ∀ c g, m.heap.get? c = some (.function g) → ¬m.heap.Threatens x (some (f.env, v)) g)
    (hheap : m'.heap = m.heap.update f.env (Object.bind x v))
    (hframes : m'.frames = outer.push { f with ip := f.ip + (Instruction.storeName x).width }) :
    m'.Lawful x known (some (f.env, v)) := by
  have hm' : m'.Lawful x known none := hm.binds hheap hframes
  have hx : m.heap.Extends x Any m'.heap := by
    rw [hheap]
    exact .bind hm.heap f.env x v
  have htrail : m'.heap.Trail x (some (f.env, v)) (scopesOf outer) f.env
      (sight x (before ++ [.storeName x]) kinds (.entry x f.code.params)) out := by
    have hkind : (kinds.drop (storeCount before)).headD false = true := by
      rw [List.headD_eq_head?_getD, List.head?_drop, hconst]
      rfl
    obtain ⟨-, -, htrail⟩ := hm.bound hheap
    rw [sight_append, sight_singleton, hkind, Instruction.look, if_pos rfl] at htrail ⊢
    exact htrail.pinned_self
  refine ⟨hm'.heap, fun a w hpin => ?_, ?_, fun c g hg hthreatens => ?_⟩
  · cases hpin
    refine ⟨hx.issued _ hm.trail.issued, fun e' he' => ?_⟩
    rw [hheap] at he'
    obtain ⟨e, he, -⟩ := Heap.environment_of_bind he'
    rw [Heap.get?_bind_of_environment he, if_pos rfl] at he'
    cases he'
    rw [(hm.heap.tables f.env e he).get?_insert]
    simp
  · rw [hframes]
    refine .call ((hm.callers.transfer hm.heap hx fun _ _ _ _ => trivial).pinned htrail.apart) ?_
    refine ⟨kinds, before ++ [.storeName x], rest, out, hm.stops.advance f.env, htrail, fun o hout hthreatens => ?_⟩
    subst hout
    obtain ⟨b, w, hpin, hsees, -⟩ := hthreatens
    cases hpin
    exact htrail.outside_apart hsees.leads
  · rw [hheap] at hg
    have hold := Heap.function_of_bind hg
    exact absurd (hthreatens.of_extends hm.heap hx (hm.heap.closures c g hold).1) (hfree c g hold)

/-- A frame is about to bind a name as a constant: its next instruction stores the name, and in every body of the program with this
code the store is that of a constant. -/
def Program.BindsConstant (p : Program) (x : String) (f : Frame) : Prop :=
  ∃ before after, f.code.instructions.toList = encodeAll (before ++ .storeName x :: after) ∧
    Checked (before ++ .storeName x :: after) ∧ f.ip = codeSize before ∧
    ∀ body ∈ p.bodies, ∀ front, StmtsCode body front →
      (before ++ .storeName x :: after = front ∨ before ++ .storeName x :: after = front ++ Compile.returnNull) →
      (Stmt.allKinds body)[storeCount before]? = some true

/-- Two places of code at one offset are the same. -/
theorem eq_of_codeSize_eq {a b c d : List Instruction} (hcode : a ++ b = c ++ d) (hsize : codeSize a = codeSize c) : a = c ∧ b = d := by
  rcases List.append_eq_append_iff.1 hcode with ⟨more, rfl, rfl⟩ | ⟨more, rfl, rfl⟩
  · have hmore := length_le_codeSize more
    rw [codeSize_append] at hsize
    obtain rfl := List.length_eq_zero_iff.1 (Nat.eq_zero_of_le_zero (by omega : more.length ≤ 0))
    simp
  · have hmore := length_le_codeSize more
    rw [codeSize_append] at hsize
    obtain rfl := List.length_eq_zero_iff.1 (Nat.eq_zero_of_le_zero (by omega : more.length ≤ 0))
    simp

/-- A binding of a constant stays. In a run of a program that compiles, on a new machine, let a frame come to the store of a constant
while no closure on the heap that finds the name in this environment assigns it. Then the store binds the name, and at any time later
in the run, as long as the environment is there, the name is bound to the same value. -/
theorem Machine.constant_stays {s : Settings} {p : Program} {image : Image} {m₀ m₁ : Machine} {v : Value}
    (hp : p.compile = .ok image) (hm₀ : ofSettings s = .ok m₀) (hr : (m₀.start image).Reaches m) (hframes : m.frames = outer.push f)
    (hconst : p.BindsConstant x f) (hv : m.stack.back? = some v)
    (hfree : ∀ c g, m.heap.get? c = some (.function g) → m.heap.Sees x g.env f.env →
      ¬Assigns x g.code.params g.code.instructions.toList)
    (hstep : MachineM.step m = .ok none m₁) (hr' : m₁.Reaches m') (hb : m'.Bounded) :
    (∃ e, m₁.heap.get? f.env = some (.environment e)) ∧
      ∀ e, m'.heap.get? f.env = some (.environment e) → e.bindings.get? x = some v := by
  have hb₁ : m₁.Bounded := hb.of_ages hr'.ages
  have hages : m.collected.Ages m₁ := by
    have hages := m.ages_step
    rw [hstep] at hages
    exact hages
  have hbc : m.collected.Bounded := hb₁.of_ages hages
  have hbm : m.Bounded := hbc.of_ages m.ages_collected
  -- Up to the store nothing is pinned.
  have hm : m.Lawful x (· ∈ p.bodies) none := (lawful_start hp hm₀ (hbm.of_ages hr.ages).1).reaches hr hbm
  obtain ⟨before', after', hbytes, hchecked, hip, hkinds⟩ := hconst
  have hdecode : Instruction.decode f.code.instructions f.ip = .ok (.storeName x, (Instruction.storeName x).width) := by
    have hcode : f.code.instructions = (encodeAll (before' ++ .storeName x :: after')).toArray := by rw [← hbytes]
    rw [hcode]
    exact Stands.decode hchecked ⟨before', after', by simp, hip.symm⟩
  obtain ⟨-, kinds, before, rest, out, hcomes⟩ := (hm.collected hbc).comes ((frames_collected m).trans hframes) hdecode
  -- The code that the frame follows is the code that tells the store to be that of a constant.
  have hcode : before ++ .storeName x :: rest = before' ++ .storeName x :: after' :=
    encodeAll_inj hcomes.stops.compiled.checked hchecked (hcomes.stops.bytes.symm.trans hbytes)
  obtain ⟨rfl, -⟩ := eq_of_codeSize_eq hcode (hcomes.stops.ip.symm.trans hip)
  have hkind : kinds[storeCount before]? = some true := by
    obtain ⟨body, front, hbody, hfront, rfl, hwhole⟩ := hcomes.stops.compiled.source
    rw [hcode] at hwhole
    exact hkinds body hbody front hfront hwhole
  obtain ⟨outer', f', i, width, hframes', hd, hacts⟩ := step_cases hstep
  obtain ⟨rfl, rfl⟩ := Array.push_eq_push.1 (hframes.symm.trans hframes')
  cases hd.symm.trans hdecode
  rcases hacts with ⟨hret, -⟩ | hacts
  · cases hret
  · cases hacts with
    | passes hi => cases hi
    | jumps hi => cases hi
    | binds hv' _ hheap hframes₁ =>
      cases hv.symm.trans hv'
      have hharmless : ∀ c g, m.collected.heap.get? c = some (.function g) →
          ¬m.collected.heap.Threatens x (some (f.env, v)) g := by
        intro c g hg hthreatens
        obtain ⟨hold, a, w, hpin, hsees, hassigns⟩ := threatens_of_collected hm.heap hbc hg hthreatens
        cases hpin
        exact hfree c g hold hsees hassigns
      -- From the store on the binding is pinned, and stays so.
      have hpinned := hcomes.pins_constant hkind hharmless hheap hframes₁
      refine ⟨?_, ((hpinned.reaches hr' hb).pins f.env v rfl).2⟩
      obtain ⟨e, he⟩ := hcomes.trail.resolves
      rw [hheap]
      exact ⟨_, Heap.get?_bind_of_environment he⟩

end

/-! ## A constant that is declared after a function -/

namespace Heap

variable {x : String} {h : Heap} {a b : Handle} {e : Environment}

/-- A name that an environment binds is found there. -/
theorem ownerWithin_of_bound (he : h.get? a = some (.environment e)) (hbound : e.bindings.contains x = true) (fuel : Nat) :
    h.ownerWithin x (fuel + 1) a = .ok (some a) := by
  have henv : h.environment a = .ok e := by rw [environment, he]
  rw [ownerWithin, henv]
  change (if e.bindings.contains x = true then _ else _) = _
  rw [if_pos hbound]
  rfl

/-- A name that an environment does not bind is looked for outside it. -/
theorem ownerWithin_of_parent (he : h.get? a = some (.environment e)) (hfree : e.bindings.contains x = false)
    (hparent : e.parent = some b) (fuel : Nat) : h.ownerWithin x (fuel + 1) a = h.ownerWithin x fuel b := by
  have henv : h.environment a = .ok e := by rw [environment, he]
  rw [ownerWithin, henv]
  change (if e.bindings.contains x = true then _ else _) = _
  rw [hfree, hparent]
  rfl

/-- A name is found in the environment that binds it. -/
theorem lookup_of_bound {v : Value} (he : h.get? a = some (.environment e)) (hv : e.bindings.get? x = some v) :
    h.lookup a x = .ok (some v) := by
  have henv : h.environment a = .ok e := by rw [environment, he]
  have hbound : e.bindings.contains x = true := by rw [Table.contains, hv]; rfl
  rw [lookup, owner, ownerWithin_of_bound he hbound]
  change (do return (← h.environment a).bindings.get? x) = _
  rw [henv, ← hv]
  rfl

end Heap

namespace Activation

variable {c : Activation} {ip : Nat} {env nearest : Handle} {stack : List Value} {heap : Heap} {last v : Value} {name : String}

/-- A load of a bound name pushes its value. -/
theorem step_loadName (hquiet : heap.shouldCollect = false)
    (hd : Instruction.decode c.code.instructions ip = .ok (.loadName name, (Instruction.loadName name).width))
    (hl : heap.lookup env name = .ok (some v)) (hroom : stack.length < c.settings.stackCapacity) :
    MachineM.step (c.at ip env stack heap last) =
      .ok none (c.at (ip + (Instruction.loadName name).width) env (stack ++ [v]) heap last) := by
  have hkept : (c.at ip env stack heap last).collected = c.at ip env stack heap last := if_neg (by simp [Activation.at, hquiet])
  rw [MachineM.step_eq, hkept, advance_at hd Instruction.noConfusion]
  have hread : MachineM.read (·.resolve env name) (c.at (ip + (Instruction.loadName name).width) env stack heap last) =
      .ok (some v) (c.at (ip + (Instruction.loadName name).width) env stack heap last) := by
    simp only [MachineM.read, Machine.resolve, Activation.at, hl]
  simp only [MachineM.execute, bind, EStateM.bind, hread, push_at, if_neg (Nat.not_le.2 hroom)]
  rfl

/-- An assignment binds the name in the environment that owns it, and leaves the value on the stack. -/
theorem step_setName (hquiet : heap.shouldCollect = false)
    (hd : Instruction.decode c.code.instructions ip = .ok (.setName name, (Instruction.setName name).width))
    (howner : heap.owner env name = .ok (some nearest)) :
    MachineM.step (c.at ip env (stack ++ [v]) heap last) =
      .ok none (c.at (ip + (Instruction.setName name).width) env (stack ++ [v]) (heap.update nearest (Object.bind name v)) last) := by
  have hkept : (c.at ip env (stack ++ [v]) heap last).collected = c.at ip env (stack ++ [v]) heap last :=
    if_neg (by simp [Activation.at, hquiet])
  rw [MachineM.step_eq, hkept, advance_at hd Instruction.noConfusion]
  have hassign : HeapM.assign env name v heap = .ok () (heap.update nearest (Object.bind name v)) := by
    simp only [HeapM.assign, bind, EStateM.bind, HeapM.read, howner]
    rfl
  simp only [MachineM.execute, bind, EStateM.bind, peek_at, onHeap_at, hassign]
  rfl

end Activation

namespace Machine

/-- Assigns a name, or returns its value. -/
def lateStatement (assigns : Bool) : Stmt :=
  if assigns then .expression {} (.assign {} (.name {} "x") (.literal {} (.int 2))) else .ret {} (some (.name {} "x"))

/-- A function that assigns a name or reads it, a constant of this name, and a call of the function. -/
def lateSample (assigns : Bool) : Program :=
  ⟨"m.vs", "m", [.function {} (.mk {} (some "f") [] false [lateStatement assigns]),
    .declaration {} .const "x" (some (.literal {} (.int 1))), .expression {} (.call {} (.name {} "f") [])]⟩

/-- The code of the function. -/
def lateBody (assigns : Bool) : List Instruction :=
  if assigns then [.load (.num (.int 2)), .setName "x", .pop, .load .null, .ret] else [.loadName "x", .ret]

/-- The code of the module. -/
def lateCode (assigns : Bool) : List Instruction :=
  [.makeFunction ⟨"f", [], [], false, encodeAll (lateBody assigns)⟩, .storeName "f", .load (.num (.int 1)), .storeName "x",
    .loadName "f", .call 0, .pop, .load .null, .ret]

/-- The module. -/
def lateImage (assigns : Bool) : Image := ⟨"m.vs", "m", encodeAll (lateCode assigns)⟩

/-- The sample compiles to its code, in both versions. -/
theorem compile_lateSample (assigns : Bool) : (lateSample assigns).compile = .ok (lateImage assigns) := by
  cases assigns <;> rfl

/-- The heap of a new machine, with bindings in the globals and objects behind the builtins. -/
def lateHeap (bindings : Table String Value) (more : List Object) : Heap where
  slots := (tightHeap bindings 0 {}).slots ++ (more.map fun o => (⟨0, false, some o⟩ : Slot)).toArray
  live := 5 + more.length
  recent := 5 + more.length
  threshold := ({} : Settings).gcThreshold
  limit := none
  last := {}

/-- A new machine. -/
def plainMachine : Machine where
  heap := lateHeap builtinBindings []
  globals := ⟨0, 0⟩
  settings := {}

/-- Default settings make the plain machine. -/
theorem ofSettings_plain : ofSettings {} = .ok plainMachine := rfl

/-- The call of the module. -/
def lateCall (assigns : Bool) : Activation where
  code := ⟨"m.vs", "m", [], [], false, (encodeAll (lateCode assigns)).toArray⟩
  base := 0
  outer := #[]
  globals := ⟨0, 0⟩
  settings := {}

/-- The function. -/
def lateClosure (assigns : Bool) : Closure := ⟨⟨"m.vs", "f", [], [], false, (encodeAll (lateBody assigns)).toArray⟩, ⟨0, 0⟩⟩

/-- The globals with the function. -/
def functionBindings : Table String Value := builtinBindings.insert "f" (.ref .function ⟨5, 0⟩)

/-- The module after some instructions, none of them in a scope of its own. -/
def lateMachine (assigns : Bool) (done : Nat) (stack : List Value) (bindings : Table String Value) : Machine :=
  (lateCall assigns).at (codeSize ((lateCode assigns).take done)) ⟨0, 0⟩ stack
    (lateHeap bindings [.function (lateClosure assigns)]) .null

/-- The module runs up to the store of the constant, the function being bound. -/
theorem reaches_lateMachine (assigns : Bool) :
    (plainMachine.start (lateImage assigns)).Reaches (lateMachine assigns 3 [.int 1] functionBindings) := by
  have hmake : MachineM.step (plainMachine.start (lateImage assigns)) =
      .ok none (lateMachine assigns 1 [.ref .function ⟨5, 0⟩] builtinBindings) := by
    cases assigns <;> rfl
  have hstore : MachineM.step (lateMachine assigns 1 [.ref .function ⟨5, 0⟩] builtinBindings) =
      .ok none (lateMachine assigns 2 [] functionBindings) := by
    cases assigns <;> rfl
  have hload : MachineM.step (lateMachine assigns 2 [] functionBindings) =
      .ok none (lateMachine assigns 3 [.int 1] functionBindings) := by
    cases assigns <;> rfl
  exact .step hmake (.step hstore (.single hload))

/-- The globals with the constant. -/
def constantBindings (v : Value) : Table String Value := functionBindings.insert "x" v

/-- The store binds the constant. -/
theorem binds_lateMachine (assigns : Bool) : MachineM.step (lateMachine assigns 3 [.int 1] functionBindings) =
    .ok none (lateMachine assigns 4 [] (constantBindings (.int 1))) := by
  cases assigns <;> rfl

/-- The call of the function. -/
def lateInner (assigns : Bool) : Activation where
  code := (lateClosure assigns).code
  base := 0
  outer := #[⟨(lateCall assigns).code, codeSize ((lateCode assigns).take 6), ⟨0, 0⟩, 0⟩]
  globals := ⟨0, 0⟩
  settings := {}

/-- The heap while the function runs. -/
def callHeap (assigns : Bool) (bindings : Table String Value) : Heap :=
  lateHeap bindings [.function (lateClosure assigns), .environment { parent := some ⟨0, 0⟩ }]

/-- The function after some instructions. -/
def lateInnerMachine (assigns : Bool) (done : Nat) (stack : List Value) (bindings : Table String Value) : Machine :=
  (lateInner assigns).at (codeSize ((lateBody assigns).take done)) ⟨6, 0⟩ (.ref .function ⟨5, 0⟩ :: stack)
    (callHeap assigns bindings) .null

/-- The function is bound among the globals. -/
theorem get?_functionBindings : functionBindings.get? "f" = some (.ref .function ⟨5, 0⟩) := by
  rw [functionBindings, valid_builtinBindings.get?_insert]
  rfl

/-- Binding the constant leaves all other globals. -/
theorem get?_constantBindings (v : Value) (name : String) :
    (constantBindings v).get? name = if "x" == name then some v else functionBindings.get? name :=
  valid_builtinBindings.insert.get?_insert ..

/-- The closure is called with the constant bound. -/
theorem calls_lateMachine (assigns : Bool) : (lateMachine assigns 4 [] (constantBindings (.int 1))).Reaches
    (lateInnerMachine assigns 0 [] (constantBindings (.int 1))) := by
  have hf : (constantBindings (.int 1)).get? "f" = some (.ref .function ⟨5, 0⟩) := by
    rw [get?_constantBindings]
    exact get?_functionBindings
  have hload : MachineM.step (lateMachine assigns 4 [] (constantBindings (.int 1))) =
      .ok none (lateMachine assigns 5 [.ref .function ⟨5, 0⟩] (constantBindings (.int 1))) := by
    have hl : (lateHeap (constantBindings (.int 1)) [.function (lateClosure assigns)]).lookup ⟨0, 0⟩ "f" =
        .ok (some (.ref .function ⟨5, 0⟩)) :=
      Heap.lookup_of_bound (e := ⟨constantBindings (.int 1), none⟩) rfl hf
    cases assigns <;> exact Activation.step_loadName rfl rfl hl (Nat.zero_lt_succ _)
  have hcall : MachineM.step (lateMachine assigns 5 [.ref .function ⟨5, 0⟩] (constantBindings (.int 1))) =
      .ok none (lateInnerMachine assigns 0 [] (constantBindings (.int 1))) := by
    cases assigns <;> rfl
  exact .step hload (.single hcall)

/-- The function finds the constant outside its own environment, and assigns it. -/
theorem assigns_lateMachine : MachineM.step (lateInnerMachine true 1 [.int 2] (constantBindings (.int 1))) =
    .ok none (lateInnerMachine true 2 [.int 2] ((constantBindings (.int 1)).insert "x" (.int 2))) := by
  have hinner : (callHeap true (constantBindings (.int 1))).get? ⟨6, 0⟩ = some (.environment { parent := some ⟨0, 0⟩ }) := rfl
  have hglobals : (callHeap true (constantBindings (.int 1))).get? ⟨0, 0⟩ =
      some (.environment ⟨constantBindings (.int 1), none⟩) := rfl
  have hfree : ({ parent := some ⟨0, 0⟩ } : Environment).bindings.contains "x" = false :=
    congrArg Option.isSome (Table.get?_withChains _)
  have hbound : (constantBindings (.int 1)).contains "x" = true := by
    rw [Table.contains, get?_constantBindings]
    rfl
  have howner : (callHeap true (constantBindings (.int 1))).owner ⟨6, 0⟩ "x" = .ok (some ⟨0, 0⟩) := by
    rw [Heap.owner, Heap.ownerWithin_of_parent hinner hfree rfl]
    exact Heap.ownerWithin_of_bound hglobals hbound _
  change MachineM.step ((lateInner true).at _ _ ([.ref .function ⟨5, 0⟩] ++ [.int 2]) _ _) = _
  exact Activation.step_setName rfl rfl howner

/-- The frame of the module after some instructions. -/
def lateFrame (assigns : Bool) (done : Nat) : Frame := ⟨(lateCall assigns).code, codeSize ((lateCode assigns).take done), ⟨0, 0⟩, 0⟩

/-- The module is about to bind the constant. -/
theorem bindsConstant_lateSample (assigns : Bool) : (lateSample assigns).BindsConstant "x" (lateFrame assigns 3) := by
  have hchecked : Checked (lateCode assigns) := by
    intro i hi
    simp only [lateCode, List.mem_cons, List.not_mem_nil, or_false] at hi
    cases assigns <;> rcases hi with rfl | rfl | rfl | rfl | rfl | rfl | rfl | rfl | rfl <;> rfl
  refine ⟨(lateCode assigns).take 3, (lateCode assigns).drop 4, rfl, hchecked, rfl, fun body hbody front hfront hcode => ?_⟩
  have hbodies : (lateSample assigns).bodies = [(lateSample assigns).statements, [lateStatement assigns]] := by
    cases assigns <;> rfl
  rw [hbodies, List.mem_pair] at hbody
  rcases hbody with rfl | rfl
  · rfl
  · -- The body of the function has other code.
    cases hfront with | cons hb hnil
    cases hnil
    cases assigns with
    | false =>
      cases hb with | ret hx
      cases hx with
      | constant hfold => cases hfold
      | name => rcases hcode with h | h <;> cases h
    | true =>
      cases hb with | expression he
      cases he with
      | constant hfold => cases hfold
      | assign hv =>
        cases hv with | constant hfold
        cases hfold
        rcases hcode with h | h <;> cases h

/-- A closure that was made before the constant reads it when it is called. -/
theorem constant_stays_lateSample : (lateSample false).compile = .ok (lateImage false) ∧ ofSettings {} = .ok plainMachine ∧
    (plainMachine.start (lateImage false)).Reaches (lateInnerMachine false 0 [] (constantBindings (.int 1))) ∧
    ∀ e, (lateInnerMachine false 0 [] (constantBindings (.int 1))).heap.get? ⟨0, 0⟩ = some (.environment e) →
      e.bindings.get? "x" = some (.int 1) := by
  have hfree : ∀ c g, (lateMachine false 3 [.int 1] functionBindings).heap.get? c = some (.function g) →
      ¬Assigns "x" g.code.params g.code.instructions.toList := by
    intro c g hg
    obtain ⟨slot, hslot, -, ho⟩ := Heap.get?_eq_some.1 hg
    have hmem : slot ∈ (lateHeap functionBindings [.function (lateClosure false)]).slots.toList :=
      Array.mem_toList_iff.2 (Array.mem_of_getElem? hslot)
    obtain rfl : g = lateClosure false := by
      simp only [lateHeap, tightHeap, Array.toList_append, List.mem_append, List.mem_cons, List.map_cons, List.map_nil,
        List.not_mem_nil, or_false] at hmem
      rcases hmem with (rfl | rfl | rfl | rfl | rfl) | rfl <;> cases ho
      rfl
    have hreads : Tracks "x" true [] [] (.entry "x" []) (lateBody false) (.entry "x" []) :=
      .cons trivial rfl (.instruction trivial rfl)
    refine hreads.not_assigns fun i hi => ?_
    rcases List.mem_pair.1 hi with rfl | rfl <;> rfl
  have hb : (lateInnerMachine false 0 [] (constantBindings (.int 1))).Bounded := ⟨by decide, by decide⟩
  have hstays := constant_stays (compile_lateSample false) ofSettings_plain (reaches_lateMachine false) rfl
    (bindsConstant_lateSample false) rfl (fun c g hg _ => hfree c g hg) (binds_lateMachine false) (calls_lateMachine false) hb
  exact ⟨compile_lateSample false, ofSettings_plain,
    (reaches_lateMachine false).trans (.step (binds_lateMachine false) (calls_lateMachine false)), hstays.2⟩

/-- A closure that is made before a constant is declared assigns it when it is called later: the store binds the name to 1, and an
instruction that assigns the name binds it to 2 in the same environment. -/
theorem constant_assigned_lateSample : ∃ (m m₁ m₂ m' : Machine) (outer outer' : Array Frame) (f f' : Frame) (width : Nat),
    (lateSample true).compile = .ok (lateImage true) ∧ ofSettings {} = .ok plainMachine ∧
    (plainMachine.start (lateImage true)).Reaches m ∧ m.frames = outer.push f ∧ (lateSample true).BindsConstant "x" f ∧
    MachineM.step m = .ok none m₁ ∧ m₁.Reaches m₂ ∧ m₂.frames = outer'.push f' ∧
    Instruction.decode f'.code.instructions f'.ip = .ok (.setName "x", width) ∧ MachineM.step m₂ = .ok none m' ∧
    (∃ e, m₂.heap.get? f.env = some (.environment e) ∧ e.bindings.get? "x" = some (.int 1)) ∧
    ∃ e, m'.heap.get? f.env = some (.environment e) ∧ e.bindings.get? "x" = some (.int 2) := by
  have hload : MachineM.step (lateInnerMachine true 0 [] (constantBindings (.int 1))) =
      .ok none (lateInnerMachine true 1 [.int 2] (constantBindings (.int 1))) := rfl
  refine ⟨_, _, _, _, #[], (lateInner true).outer, lateFrame true 3, ⟨_, _, ⟨6, 0⟩, 0⟩, _, compile_lateSample true, ofSettings_plain,
    reaches_lateMachine true, rfl, bindsConstant_lateSample true, binds_lateMachine true,
    (calls_lateMachine true).trans (.single hload), rfl, rfl, assigns_lateMachine, ⟨⟨constantBindings (.int 1), none⟩, rfl, ?_⟩,
    ⟨(constantBindings (.int 1)).insert "x" (.int 2), none⟩, rfl, ?_⟩
  · exact valid_builtinBindings.insert.get?_insert ..
  · exact valid_builtinBindings.insert.insert.get?_insert ..

end Machine
end ScriptVM
