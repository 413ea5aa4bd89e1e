import ScriptVM.Proofs.Following
import ScriptVM.Proofs.Growth
import ScriptVM.Proofs.History
import ScriptVM.Proofs.Lineage
import ScriptVM.Proofs.RoundTrip
import ScriptVM.Proofs.Startup

/-!
# Machines on code that follows a name

A frame that has come to a place of its code stands in a row of environments that bind the name as it stands at that place
(`Frame.Lawful`). One binding may be pinned: then no closure that finds the name in its environment assigns it, and where the name is
found there from inside the function that bound it, it stands as a constant in the code. Every kind of instruction keeps this
(`Machine.Comes`), and so a whole run does (`Machine.Lawful.reaches`), whatever binding is pinned when it begins.
-/

namespace ScriptVM

open Heap (maxSlots Any)

variable {x : String} {known : List Stmt → Prop} {pin : Option (Handle × Value)}

/-! ## Frames -/

/-- A frame has come to a place of code that follows a name. -/
structure Frame.Stops (x : String) (known : List Stmt → Prop) (f : Frame) (kinds : List Bool) (before after : List Instruction) :
    Prop where
  bytes : f.code.instructions.toList = encodeAll (before ++ after)
  compiled : Compiled x known f.code.params kinds (before ++ after)
  functions : ∀ p, .makeFunction p ∈ before ++ after → Careful x known p.params p.body
  ip : f.ip = codeSize before

namespace Frame.Stops

variable {f : Frame} {kinds : List Bool} {before after rest : List Instruction} {i : Instruction} {width : Nat}

/-- The instruction that a frame has come to is the one that is decoded there. -/
theorem decode (h : f.Stops x known kinds before (i :: rest)) :
    Instruction.decode f.code.instructions f.ip = .ok (i, i.width) := by
  have hbytes : f.code.instructions = (encodeAll (before ++ i :: rest)).toArray := by rw [← h.bytes]
  rw [hbytes]
  exact Stands.decode h.compiled.checked ⟨before, rest, by simp, h.ip.symm⟩

/-- A frame that goes on has an instruction in front of it. -/
theorem next (h : f.Stops x known kinds before after) (hd : Instruction.decode f.code.instructions f.ip = .ok (i, width)) :
    ∃ rest, after = i :: rest ∧ width = i.width := by
  cases after with
  | nil =>
    obtain ⟨-, hread⟩ := Instruction.decode_eq_ok hd
    obtain ⟨taken, tail, hrest, hwidth, -⟩ := Instruction.read_eq_ok hread
    have hend : ByteReader.rest ⟨f.code.instructions, f.ip⟩ = [] := by
      rw [ByteReader.rest, h.bytes, h.ip, ← length_encodeAll, List.append_nil, List.drop_length]
    have hpos := i.width_pos
    rw [hend] at hrest
    rw [(List.append_eq_nil_iff.1 hrest.symm).1, List.length_nil] at hwidth
    omega
  | cons j rest =>
    cases hd.symm.trans h.decode
    exact ⟨rest, rfl, rfl⟩

/-- The frame behind an instruction. -/
theorem advance (h : f.Stops x known kinds before (i :: rest)) (env : Handle) :
    Stops x known { f with ip := f.ip + i.width, env } kinds (before ++ [i]) rest := by
  obtain ⟨hbytes, hcompiled, hfunctions, hip⟩ := h
  rw [List.append_cons] at hbytes hcompiled hfunctions
  exact ⟨hbytes, hcompiled, hfunctions, by rw [codeSize_concat, ← hip]⟩

/-- The instruction that a frame has come to is fair in what the code around it shows. -/
theorem fair (h : f.Stops x known kinds before (i :: rest)) :
    i.Fair x false (sight x before kinds (.entry x f.code.params)) rest := by
  obtain ⟨τ, htracks⟩ := h.compiled.tracks
  exact htracks.fair before i rest rfl

/-- Where a frame jumps to, the name stands as it does behind the jump. -/
theorem jump {offset : Int32} {target : Nat} (h : f.Stops x known kinds before (i :: rest)) (hi : i.jumpOffset? = some offset)
    (ht : (target : Int) = ((f.ip + i.width : Nat) : Int) + offset.toInt) :
    ∃ before' after', Stops x known { f with ip := target } kinds before' after' ∧
      sight x before' kinds (.entry x f.code.params) = sight x (before ++ [i]) kinds (.entry x f.code.params) := by
  obtain ⟨τ, htracks⟩ := h.compiled.tracks
  obtain ⟨before', after', hcode, hsize, hsame⟩ := htracks.level before i rest offset rfl hi
  rw [List.append_nil] at hcode
  refine ⟨before', after', ⟨?_, ?_, ?_, ?_⟩, hsame⟩
  · rw [← hcode]
    exact h.bytes
  · rw [← hcode]
    exact h.compiled
  · rw [← hcode]
    exact h.functions
  · have hip := h.ip
    rw [codeSize_concat] at hsize
    change target = codeSize before'
    omega

end Frame.Stops

/-- A function that sees the pinned environment, and assigns the name. -/
def Heap.Threatens (h : Heap) (x : String) (pin : Option (Handle × Value)) (g : Closure) : Prop :=
  ∃ a v, pin = some (a, v) ∧ h.Sees x g.env a ∧ Assigns x g.code.params g.code.instructions.toList

/-- No function begins to threaten the pinned environment later. -/
theorem Heap.Threatens.of_extends {h h' : Heap} {Q : Handle → Prop} {g : Closure} (hh : h.Lexical x known) (hx : h.Extends x Q h')
    (hg : h.Issued g.env) (ht : h'.Threatens x pin g) : h.Threatens x pin g := by
  obtain ⟨a, v, hpin, hsees, hassigns⟩ := ht
  exact ⟨a, v, hpin, hsees.of_extends hh hx hg, hassigns⟩

/-- A frame whose scopes are a trail of environments, and whose function does not threaten the pinned one. -/
def Frame.Lawful (x : String) (known : List Stmt → Prop) (pin : Option (Handle × Value)) (h : Heap) (others : List Handle)
    (f : Frame) : Prop :=
  ∃ kinds before after out, f.Stops x known kinds before after ∧
    h.Trail x pin others f.env (sight x before kinds (.entry x f.code.params)) out ∧
    ∀ o, out = some o → ¬h.Threatens x pin ⟨f.code, o⟩

/-- The environments of frames. -/
def scopesOf (frames : Array Frame) : List Handle := frames.toList.map Frame.env

/-- Frames one inside the other: the environments of the callers are inside no scope of a callee. -/
inductive Calls (x : String) (known : List Stmt → Prop) (pin : Option (Handle × Value)) (h : Heap) : Array Frame → Prop where
  | empty : Calls x known pin h #[]
  | call {outer : Array Frame} {f : Frame} : Calls x known pin h outer → f.Lawful x known pin h (scopesOf outer) →
      Calls x known pin h (outer.push f)

section

variable {h h' : Heap} {Q : Handle → Prop} {outer : Array Frame} {f : Frame} {others : List Handle}

/-- The last frame is lawful beside the frames of its callers, and these are lawful calls. -/
theorem Calls.of_push (hc : Calls x known pin h (outer.push f)) :
    Calls x known pin h outer ∧ f.Lawful x known pin h (scopesOf outer) := by
  generalize hframes : outer.push f = frames at hc
  cases hc with
  | empty => simp at hframes
  | call ho hf =>
    obtain ⟨rfl, rfl⟩ := Array.push_eq_push.1 hframes
    exact ⟨ho, hf⟩

/-- The environment of a lawful frame was given out. -/
theorem Frame.Lawful.issued (hf : f.Lawful x known pin h others) : h.Issued f.env := by
  obtain ⟨kinds, before, after, out, -, htrail, -⟩ := hf
  exact htrail.issued

/-- A call adds its environment to those of its callers. -/
theorem mem_scopesOf_push {b : Handle} : b ∈ scopesOf (outer.push f) ↔ b ∈ scopesOf outer ∨ b = f.env := by
  simp [scopesOf]

/-- The environments of lawful calls were given out. -/
theorem Calls.issued (hc : Calls x known pin h outer) : ∀ b ∈ scopesOf outer, h.Issued b := by
  induction hc with
  | empty => simp [scopesOf]
  | @call outer f _ hf ih =>
    intro b hb
    rcases mem_scopesOf_push.1 hb with hb | rfl
    · exact ih b hb
    · exact hf.issued

/-- What is outside a function was given out. -/
theorem Heap.Trail.outside_issued {a o : Handle} {σ : Sight} (ht : h.Trail x pin others a σ (some o)) (hh : h.Lexical x known) :
    h.Issued o := by
  obtain ⟨e, parent, he, hparent, hleads⟩ := ht.leads
  exact hleads.issued hh (hh.linked a e parent he hparent)

/-- Frames stay lawful on a later heap that has their environments. -/
theorem Frame.Lawful.transfer (hf : f.Lawful x known pin h others) (hh : h.Lexical x known) (hx : h.Extends x Q h')
    (ho : ∀ b ∈ others, h.Issued b) (hQ : ∀ b, h.Leads f.env b → Q b) : f.Lawful x known pin h' others := by
  obtain ⟨kinds, before, after, out, hstops, htrail, hfree⟩ := hf
  refine ⟨kinds, before, after, out, hstops, htrail.transfer hh hx ho hQ, fun o hout hthreatens => ?_⟩
  subst hout
  exact hfree o rfl (hthreatens.of_extends hh hx (htrail.outside_issued hh))

/-- Calls are lawful on a later heap that keeps the environments around their scopes. -/
theorem Calls.transfer (hc : Calls x known pin h outer) (hh : h.Lexical x known) (hx : h.Extends x Q h')
    (hQ : ∀ f ∈ outer, ∀ b, h.Leads f.env b → Q b) : Calls x known pin h' outer := by
  induction hc with
  | empty => exact .empty
  | @call outer f ho hf ih =>
    refine .call (ih fun g hg => hQ g (Array.mem_push_of_mem _ hg)) ?_
    exact hf.transfer hh hx ho.issued (hQ f Array.mem_push_self)

/-! ## Machines -/

/-- The next instruction of a machine binds a name in an environment. -/
def Machine.WillBind (m : Machine) (x : String) (env : Handle) : Prop :=
  ∃ (outer : Array Frame) (f : Frame) (width : Nat), m.frames = outer.push f ∧ f.env = env ∧
    Instruction.decode f.code.instructions f.ip = .ok (.storeName x, width)

/-- A machine whose frames are lawful, and whose closures do not threaten the pinned environment. One that does has just been made,
and is about to be bound to the name itself. -/
structure Machine.Lawful (x : String) (known : List Stmt → Prop) (pin : Option (Handle × Value)) (m : Machine) : Prop where
  heap : m.heap.Lexical x known
  pins : m.heap.Pins x pin
  frames : Calls x known pin m.heap m.frames
  closures : ∀ c g, m.heap.get? c = some (.function g) → m.heap.Threatens x pin g → m.WillBind x g.env

variable {m m' : Machine}

/-- A closure that threatens after a collection did so before. -/
theorem Machine.threatens_of_collectGarbage {c : Handle} {g : Closure} (hh : m.heap.Lexical x known) (hb : m.collectGarbage.Bounded)
    (hg : m.collectGarbage.heap.get? c = some (.function g)) (ht : m.collectGarbage.heap.Threatens x pin g) :
    m.heap.get? c = some (.function g) ∧ m.heap.Threatens x pin g := by
  have hold := Heap.get?_of_get?_collect hg
  exact ⟨hold, ht.of_extends hh (.collect hh hb.2) (hh.closures c g hold).1⟩

/-- A closure that threatens after the collection threatened before it. -/
theorem Machine.threatens_of_collected {c : Handle} {g : Closure} (hh : m.heap.Lexical x known) (hb : m.collected.Bounded)
    (hg : m.collected.heap.get? c = some (.function g)) (ht : m.collected.heap.Threatens x pin g) :
    m.heap.get? c = some (.function g) ∧ m.heap.Threatens x pin g := by
  unfold Machine.collected at hb hg ht
  split at hg
  · rename_i hdue
    rw [if_pos hdue] at hb ht
    exact threatens_of_collectGarbage hh hb hg ht
  · rename_i hdue
    rw [if_neg hdue] at ht
    exact ⟨hg, ht⟩

/-- A collection frees none of the environments of the frames. -/
theorem Machine.Lawful.collectGarbage (hm : m.Lawful x known pin) (hb : m.collectGarbage.Bounded) :
    m.collectGarbage.Lawful x known pin := by
  have hc : m.heap.last.collections + 1 < UInt32.size := hb.2
  have hx : m.heap.Extends x (m.heap.Reachable m.roots) (m.heap.collect m.roots) := .collect hm.heap hc
  refine ⟨hm.heap.collect hc, hm.pins.collect hm.heap.tidy hc, ?_, fun c g hg hthreatens => ?_⟩
  · refine hm.frames.transfer hm.heap hx fun f hf b hleads => hleads.reachable (.root ?_)
    simp only [roots, List.mem_append, List.mem_map]
    exact .inl (.inr ⟨f, Array.mem_toList_iff.2 hf, rfl⟩)
  · obtain ⟨hold, hbefore⟩ := threatens_of_collectGarbage hm.heap hb hg hthreatens
    have hbinds := hm.closures c g hold hbefore
    exact hbinds

/-- The collection that may be due before a step leaves the machine lawful. -/
theorem Machine.Lawful.collected (hm : m.Lawful x known pin) (hb : m.collected.Bounded) : m.collected.Lawful x known pin := by
  unfold Machine.collected at hb ⊢
  split
  · rename_i hdue
    rw [if_pos hdue] at hb
    exact hm.collectGarbage hb
  · exact hm

/-! ## Steps -/

/-- What is known when a lawful machine comes to an instruction of its innermost frame. -/
structure Machine.Comes (x : String) (known : List Stmt → Prop) (pin : Option (Handle × Value)) (m : Machine) (outer : Array Frame)
    (f : Frame) (kinds : List Bool) (before rest : List Instruction) (out : Option Handle) (i : Instruction) : Prop where
  heap : m.heap.Lexical x known
  pins : m.heap.Pins x pin
  callers : Calls x known pin m.heap outer
  stops : f.Stops x known kinds before (i :: rest)
  trail : m.heap.Trail x pin (scopesOf outer) f.env (sight x before kinds (.entry x f.code.params)) out
  free : ∀ o, out = some o → ¬m.heap.Threatens x pin ⟨f.code, o⟩
  closures : ∀ c g, m.heap.get? c = some (.function g) → m.heap.Threatens x pin g → i = .storeName x ∧ g.env = f.env

/-- A lawful machine comes to an instruction of its code, where all that is known of it applies. -/
theorem Machine.Lawful.comes {i : Instruction} {width : Nat} (hm : m.Lawful x known pin) (hframes : m.frames = outer.push f)
    (hd : Instruction.decode f.code.instructions f.ip = .ok (i, width)) :
    width = i.width ∧ ∃ kinds before rest out, m.Comes x known pin outer f kinds before rest out i := by
  have hcalls := hm.frames
  rw [hframes] at hcalls
  obtain ⟨houter, kinds, before, after, out, hstops, htrail, hfree⟩ := hcalls.of_push
  obtain ⟨rest, rfl, rfl⟩ := hstops.next hd
  refine ⟨rfl, kinds, before, rest, out, hm.heap, hm.pins, houter, hstops, htrail, hfree, fun c g hg hthreatens => ?_⟩
  obtain ⟨outer', f', width', hframes', henv, hd'⟩ := hm.closures c g hg hthreatens
  obtain ⟨rfl, rfl⟩ := Array.push_eq_push.1 (hframes.symm.trans hframes')
  cases hd.symm.trans hd'
  exact ⟨rfl, henv.symm⟩

namespace Machine.Comes

variable {kinds : List Bool} {before before' after rest : List Instruction} {out : Option Handle} {i : Instruction} {f' : Frame}

/-- The innermost frame at another place of its code, on a later heap. -/
theorem frame (hm : m.Comes x known pin outer f kinds before rest out i) {h' : Heap} (hx : m.heap.Extends x Any h')
    (hcode : f'.code = f.code) (hstops : f'.Stops x known kinds before' after)
    (htrail : h'.Trail x pin (scopesOf outer) f'.env (sight x before' kinds (.entry x f.code.params)) out) :
    f'.Lawful x known pin h' (scopesOf outer) := by
  refine ⟨kinds, before', after, out, hstops, by rw [hcode]; exact htrail, fun o hout => ?_⟩
  subst hout
  rw [hcode]
  exact fun hthreatens => hm.free o rfl (hthreatens.of_extends hm.heap hx (hm.trail.outside_issued hm.heap))

/-- The callers stay as they are, and the innermost frame goes on. -/
theorem goesOn (hm : m.Comes x known pin outer f kinds before rest out i) (hx : m.heap.Extends x Any m'.heap)
    (hheap : m'.heap.Lexical x known) (hpins : m'.heap.Pins x pin) (hframes : m'.frames = outer.push f')
    (hf : f'.Lawful x known pin m'.heap (scopesOf outer))
    (hclosures : ∀ c g, m'.heap.get? c = some (.function g) → m'.heap.Threatens x pin g → m'.WillBind x g.env) :
    m'.Lawful x known pin := by
  refine ⟨hheap, hpins, ?_, hclosures⟩
  rw [hframes]
  exact .call (hm.callers.transfer hm.heap hx fun _ _ _ _ => trivial) hf

/-- Where no name is bound, a closure of before does not threaten. -/
theorem harmless {c : Handle} {g : Closure} (hm : m.Comes x known pin outer f kinds before rest out i) (hi : i ≠ .storeName x)
    (hx : m.heap.Extends x Any m'.heap) (hg : m.heap.get? c = some (.function g)) : ¬m'.heap.Threatens x pin g := fun hthreatens =>
  hi (hm.closures c g hg (hthreatens.of_extends hm.heap hx (hm.heap.closures c g hg).1)).1

/-- Where the pinned environment can be seen, the name is a constant in the scopes of the function. -/
theorem nearest_eq {a : Handle} {v : Value} (hm : m.Comes x known pin outer f kinds before rest out i) (hpin : pin = some (a, v))
    (hsees : m.heap.Sees x f.env a)
    (hassigns : Unbound x f.code.params before → Assigns x f.code.params f.code.instructions.toList) :
    (sight x before kinds (.entry x f.code.params)).nearest = some true := by
  subst hpin
  rcases hm.trail.sees hsees with hconst | ⟨hnone, o, hout, hsees'⟩
  · exact hconst
  · have hunbound : Unbound x f.code.params before := (nearest_sight_eq_none before rfl).1 hnone
    exact absurd ⟨a, v, rfl, hsees', hassigns hunbound⟩ (hm.free o hout)

/-! ### One instruction -/

/-- An instruction that leaves scopes and bindings as they are. -/
theorem passes (hm : m.Comes x known pin outer f kinds before rest out i) (hi : i.isSilent = true) (hk : m.heap.Spares m'.heap)
    (hb : m'.heap.slots.size < maxSlots) (hframes : m'.frames = outer.push f') (hcode : f'.code = f.code) (henv : f'.env = f.env)
    (hstops : f'.Stops x known kinds before' after)
    (hsame : sight x before' kinds (.entry x f.code.params) = sight x (before ++ [i]) kinds (.entry x f.code.params)) :
    m'.Lawful x known pin := by
  have hx : m.heap.Extends x Any m'.heap := .of_spares hk hb hm.heap.tidy
  have hstill : i.isStill = true := by
    cases i <;> first | rfl | cases hi
  have hstore : i ≠ .storeName x := by
    rintro rfl
    cases hi
  have htrail : m'.heap.Trail x pin (scopesOf outer) f'.env (sight x before' kinds (.entry x f.code.params)) out := by
    rw [henv, hsame, sight_append, sight_singleton, Instruction.look_of_isStill hstill]
    exact hm.trail.transfer hm.heap hx hm.callers.issued fun _ _ => trivial
  obtain ⟨-, -, hobjects⟩ := hk.kept hb hm.heap.tidy
  exact hm.goesOn hx (hm.heap.of_spares hk hb) (hm.pins.of_spares hk hb hm.heap.tidy) hframes (hm.frame hx hcode hstops htrail)
    fun c g hg hthreatens => absurd hthreatens (hm.harmless hstore hx ((hobjects c _ rfl).1 hg))

/-- A new scope is entered. -/
theorem enters (hm : m.Comes x known pin outer f kinds before rest out .enterScope) (hheap : m'.heap = (m.heap.open f.env).2)
    (hb : m'.heap.slots.size < maxSlots)
    (hframes : m'.frames = outer.push { f with ip := f.ip + Instruction.enterScope.width, env := (m.heap.open f.env).1 }) :
    m'.Lawful x known pin := by
  rw [hheap] at hb
  have hroom : m.heap.Room := Nat.lt_of_le_of_lt Heap.size_place.1 hb
  have hx : m.heap.Extends x Any m'.heap := by
    rw [hheap]
    exact .place hm.heap.tidy hroom
  have htrail : m'.heap.Trail x pin (scopesOf outer) (m.heap.open f.env).1
      (sight x (before ++ [.enterScope]) kinds (.entry x f.code.params)) out := by
    have hlies : (m.heap.open f.env).2.Lies x pin (scopesOf outer) (m.heap.open f.env).1 { parent := some f.env } none := by
      refine Heap.lies_place hm.heap hroom (fun parent hparent => ?_) hm.callers.issued fun c v hpin => (hm.pins c v hpin).1
      cases hparent
      exact hm.trail.issued
    rw [← hheap] at hlies
    rw [sight_append]
    exact .inner hlies rfl (hm.trail.transfer hm.heap hx hm.callers.issued fun _ _ => trivial)
  refine hm.goesOn hx ?_ ?_ hframes (hm.frame hx rfl (hm.stops.advance _) htrail) fun c g hg hthreatens => ?_
  · rw [hheap]
    exact hm.heap.open hroom hm.trail.issued
  · rw [hheap]
    exact hm.pins.place hm.heap.tidy hroom
  · rw [hheap] at hg
    exact absurd hthreatens (hm.harmless (by simp) hx (Heap.function_of_open hm.heap.tidy hroom hg))

/-- A scope is left. -/
theorem leaves {e : Environment} {parent : Handle} (hm : m.Comes x known pin outer f kinds before rest out .exitScope)
    (he : m.heap.environment f.env = .ok e) (hparent : e.parent = some parent) (hheap : m'.heap = m.heap)
    (hframes : m'.frames = outer.push { f with ip := f.ip + Instruction.exitScope.width, env := parent }) :
    m'.Lawful x known pin := by
  have hx : m.heap.Extends x Any m'.heap := by
    rw [hheap]
    exact .refl _
  have htrail : m'.heap.Trail x pin (scopesOf outer) parent (sight x (before ++ [.exitScope]) kinds (.entry x f.code.params)) out := by
    have hinside : 2 ≤ (sight x before kinds (.entry x f.code.params)).length := hm.stops.fair
    have htrail := hm.trail
    rw [hheap, sight_append, sight_singleton, Instruction.look]
    generalize sight x before kinds (.entry x f.code.params) = σ at hinside htrail
    cases htrail with
    | last hl => simp at hinside
    | inner hl hparent' hrest =>
      cases (Heap.get?_of_environment he).symm.trans hl.resolves
      cases hparent.symm.trans hparent'
      exact hrest
  refine hm.goesOn hx (hheap ▸ hm.heap) (hheap ▸ hm.pins) hframes (hm.frame hx rfl (hm.stops.advance parent) htrail)
    fun c g hg hthreatens => ?_
  rw [hheap] at hg
  exact absurd hthreatens (hm.harmless (by simp) hx hg)

/-- The name itself is bound in the innermost scope, where it is not bound yet. -/
theorem bound {v : Value} (hm : m.Comes x known pin outer f kinds before rest out (.storeName x))
    (hheap : m'.heap = m.heap.update f.env (Object.bind x v)) :
    (∀ w, pin ≠ some (f.env, w)) ∧ (∀ e, m'.heap.get? f.env = some (.environment e) → e.bindings.contains x = true) ∧
      m'.heap.Trail x pin (scopesOf outer) f.env (sight x (before ++ [.storeName x]) kinds (.entry x f.code.params)) out := by
  have hx : m.heap.Extends x Any m'.heap := by
    rw [hheap]
    exact .bind hm.heap f.env x v
  have hbound : ∀ e, m'.heap.get? f.env = some (.environment e) → e.bindings.contains x = true := by
    intro e he
    rw [hheap] at he
    exact Heap.contains_of_bind hm.heap he
  have hfair : (sight x before kinds (.entry x f.code.params)).head? = some none := hm.stops.fair rfl
  obtain ⟨τ, hσ⟩ := List.head?_eq_some_iff.1 hfair
  have htrail := hm.trail.transfer hm.heap hx hm.callers.issued fun _ _ => trivial
  rw [hσ] at htrail
  have hpin : ∀ w, pin ≠ some (f.env, w) := fun w => htrail.not_pinned
  refine ⟨hpin, hbound, ?_⟩
  rw [sight_append, sight_singleton, hσ, Instruction.look, if_pos rfl]
  exact htrail.bound hbound fun w hw => absurd hw (hpin w)

/-- A name is bound in the innermost scope. -/
theorem binds {name : String} {v : Value} (hm : m.Comes x known pin outer f kinds before rest out (.storeName name))
    (hheap : m'.heap = m.heap.update f.env (Object.bind name v))
    (hframes : m'.frames = outer.push { f with ip := f.ip + (Instruction.storeName name).width }) : m'.Lawful x known pin := by
  have hx : m.heap.Extends x Any m'.heap := by
    rw [hheap]
    exact .bind hm.heap f.env name v
  have hheap' : m'.heap.Lexical x known := by
    rw [hheap]
    exact hm.heap.bind f.env name v
  by_cases hname : name = x
  · subst hname
    obtain ⟨hpin, hbound, hnext⟩ := hm.bound hheap
    refine hm.goesOn hx hheap' ?_ hframes (hm.frame hx rfl (hm.stops.advance f.env) hnext) fun c g hg hthreatens => ?_
    · rw [hheap]
      exact hm.pins.bind hm.heap v fun w hw => absurd hw (hpin w)
    · -- A closure that was about to be bound to the name finds itself under it now.
      rw [hheap] at hg
      have hold := Heap.function_of_bind hg
      obtain ⟨-, henv⟩ := hm.closures c g hold (hthreatens.of_extends hm.heap hx (hm.heap.closures c g hold).1)
      obtain ⟨a, w, hw, hsees, -⟩ := hthreatens
      rw [henv] at hsees
      cases hsees with
      | here => exact absurd hw (hpin w)
      | up he hfree _ _ =>
        rw [hbound _ he] at hfree
        cases hfree
  · have hnext : m'.heap.Trail x pin (scopesOf outer) f.env
        (sight x (before ++ [.storeName name]) kinds (.entry x f.code.params)) out := by
      rw [sight_append, sight_singleton, Instruction.look, if_neg hname]
      exact hm.trail.transfer hm.heap hx hm.callers.issued fun _ _ => trivial
    refine hm.goesOn hx hheap' ?_ hframes (hm.frame hx rfl (hm.stops.advance f.env) hnext) fun c g hg hthreatens => ?_
    · rw [hheap]
      exact hm.pins.bind hm.heap v fun w hw => hname
    · rw [hheap] at hg
      have hstore : Instruction.storeName name ≠ .storeName x := fun heq => hname (Instruction.storeName.inj heq)
      exact absurd hthreatens (hm.harmless hstore hx (Heap.function_of_bind hg))

/-- A name is assigned, but not the one that is pinned. -/
theorem assigns {name : String} {v : Value} {nearest : Handle}
    (hm : m.Comes x known pin outer f kinds before rest out (.setName name)) (howner : m.heap.owner f.env name = .ok (some nearest))
    (hheap : m'.heap = m.heap.update nearest (Object.bind name v))
    (hframes : m'.frames = outer.push { f with ip := f.ip + (Instruction.setName name).width }) : m'.Lawful x known pin := by
  have hx : m.heap.Extends x Any m'.heap := by
    rw [hheap]
    exact .bind hm.heap nearest name v
  have hnext : m'.heap.Trail x pin (scopesOf outer) f.env
      (sight x (before ++ [.setName name]) kinds (.entry x f.code.params)) out := by
    rw [sight_append]
    exact hm.trail.transfer hm.heap hx hm.callers.issued fun _ _ => trivial
  have hother : ∀ w, pin = some (nearest, w) → name ≠ x := by
    rintro w hw rfl
    have hassigns (hunbound : Unbound name f.code.params before) : Assigns name f.code.params f.code.instructions.toList := by
      rw [hm.stops.bytes]
      exact .here hm.stops.compiled.checked hunbound
    have hconst := hm.nearest_eq hw (Heap.sees_of_ownerWithin howner) hassigns
    have hfair : Sight.blocked _ false = false := hm.stops.fair rfl
    rw [Sight.blocked, hconst] at hfair
    cases hfair
  refine hm.goesOn hx ?_ ?_ hframes (hm.frame hx rfl (hm.stops.advance f.env) hnext) fun c g hg hthreatens => ?_
  · rw [hheap]
    exact hm.heap.bind nearest name v
  · rw [hheap]
    exact hm.pins.bind hm.heap v hother
  · rw [hheap] at hg
    exact absurd hthreatens (hm.harmless (by simp) hx (Heap.function_of_bind hg))

/-- A closure is made: it does not threaten the pinned environment, or is about to be bound to the name. -/
theorem makes {p : Prototype} (hm : m.Comes x known pin outer f kinds before rest out (.makeFunction p))
    (hheap : m'.heap = (m.heap.place (.function ⟨⟨f.code.file, p.name, p.params, p.captures, p.isAsync, p.body.toArray⟩, f.env⟩)).2)
    (hb : m'.heap.slots.size < maxSlots)
    (hframes : m'.frames = outer.push { f with ip := f.ip + (Instruction.makeFunction p).width }) : m'.Lawful x known pin := by
  rw [hheap] at hb
  have hroom : m.heap.Room := Nat.lt_of_le_of_lt Heap.size_place.1 hb
  have hx : m.heap.Extends x Any m'.heap := by
    rw [hheap]
    exact .place hm.heap.tidy hroom
  have hnext : m'.heap.Trail x pin (scopesOf outer) f.env
      (sight x (before ++ [.makeFunction p]) kinds (.entry x f.code.params)) out := by
    rw [sight_append]
    exact hm.trail.transfer hm.heap hx hm.callers.issued fun _ _ => trivial
  refine hm.goesOn hx ?_ ?_ hframes (hm.frame hx rfl (hm.stops.advance f.env) hnext) fun c g hg hthreatens => ?_
  · rw [hheap]
    refine hm.heap.place hroom (fun e he => ?_) fun g hg => ?_
    · cases he
    · cases hg
      exact ⟨hm.trail.issued, hm.stops.functions p (by simp)⟩
  · rw [hheap]
    exact hm.pins.place hm.heap.tidy hroom
  · rw [hheap] at hg
    rcases Heap.of_get?_place hm.heap.tidy hroom hg with hold | hnew
    · exact absurd hthreatens (hm.harmless (by simp) hx hold)
    · cases hnew
      obtain ⟨a, v, hpin, hsees, hassigns⟩ := hthreatens.of_extends hm.heap hx hm.trail.issued
      by_cases hbinds : Binds x rest
      · obtain ⟨rest', rfl⟩ := List.head?_eq_some_iff.1 hbinds
        exact ⟨outer, _, (Instruction.storeName x).width, hframes, rfl, (hm.stops.advance f.env).decode⟩
      · have hinside (hunbound : Unbound x f.code.params before) : Assigns x f.code.params f.code.instructions.toList := by
          rw [hm.stops.bytes]
          exact .inside hm.stops.compiled.checked hunbound hbinds hassigns
        have hblocked : Sight.blocked (sight x before kinds (.entry x f.code.params)) false = true := by
          rw [Sight.blocked, hm.nearest_eq hpin hsees hinside]
          rfl
        exact absurd hassigns (hm.stops.fair hblocked hbinds)

/-- A closure is called. -/
theorem calls {argc : UInt8} {callee : Handle} {g : Closure} {args : List Value} {base : Nat}
    (hm : m.Comes x known pin outer f kinds before rest out (.call argc)) (hg : m.heap.function callee = .ok g)
    (hargs : args.length = g.code.params.length)
    (hheap : HeapM.defineAll (m.heap.open g.env).1 (g.code.params.zip args) (m.heap.open g.env).2 = .ok () m'.heap)
    (hb : m'.heap.slots.size < maxSlots)
    (hframes : m'.frames = (outer.push { f with ip := f.ip + (Instruction.call argc).width }).push
      ⟨g.code, 0, (m.heap.open g.env).1, base⟩) : m'.Lawful x known pin := by
  obtain ⟨henv, hcareful⟩ := hm.heap.closures callee g (Heap.get?_of_function hg)
  have hgrown : (m.heap.open g.env).2.slots.size ≤ m'.heap.slots.size := by
    have hgrows := (Plain.defineAll (m.heap.open g.env).1 (g.code.params.zip args)).grows (m.heap.open g.env).2
    rw [hheap] at hgrows
    exact hgrows.size
  have hroom : m.heap.Room := Nat.lt_of_le_of_lt (Nat.le_trans Heap.size_place.1 hgrown) hb
  have hsparse := hm.heap.tidy.toSparse
  -- The environment of the call is a new one, so it is not the pinned one.
  have hfree : ∀ v, pin ≠ some ((m.heap.open g.env).1, v) := fun v hpin =>
    Heap.not_issued_place hsparse hroom (hm.pins _ v hpin).1
  have hopened : m.heap.Extends x Any (m.heap.open g.env).2 := .place hm.heap.tidy hroom
  have hheap₁ : (m.heap.open g.env).2.Lexical x known := hm.heap.open hroom henv
  obtain ⟨hheap', hpins', hbound, hclosures, hparams⟩ := Heap.of_defineAll hheap hheap₁ (hm.pins.place hm.heap.tidy hroom)
    (Heap.issued_place_self hsparse hroom) hfree
  have hx : m.heap.Extends x Any m'.heap := hopened.trans hbound
  have hcaller : m'.heap.Trail x pin (scopesOf outer) f.env
      (sight x (before ++ [.call argc]) kinds (.entry x f.code.params)) out := by
    rw [sight_append]
    exact hm.trail.transfer hm.heap hx hm.callers.issued fun _ _ => trivial
  have hothers : ∀ b ∈ scopesOf (outer.push { f with ip := f.ip + (Instruction.call argc).width }), m.heap.Issued b := by
    intro b hb
    rcases mem_scopesOf_push.1 hb with hb | rfl
    · exact hm.callers.issued b hb
    · exact hm.trail.issued
  have htrail : m'.heap.Trail x pin (scopesOf (outer.push { f with ip := f.ip + (Instruction.call argc).width }))
      (m.heap.open g.env).1 (.entry x g.code.params) (some g.env) := by
    have hlies := Heap.lies_place (e := { parent := some g.env }) hm.heap hroom (fun parent hparent => by cases hparent; exact henv)
      hothers fun c v hpin => (hm.pins c v hpin).1
    have hnew := (Heap.Trail.last hlies).transfer hheap₁ hbound (fun b hb => hopened.issued b (hothers b hb)) fun _ _ => trivial
    unfold Sight.entry
    split
    · rename_i hx
      refine hnew.bound (fun e he => hparams e ?_ he) fun v hpin => absurd hpin (hfree v)
      rw [List.map_fst_zip (Nat.le_of_eq hargs.symm)]
      exact hx
    · exact hnew
  refine ⟨hheap', hpins', ?_, fun c k hk hthreatens => ?_⟩
  · obtain ⟨kinds', code, hbytes, hcompiled, hfunctions⟩ := hcareful.compiled
    rw [hframes]
    refine .call (.call (hm.callers.transfer hm.heap hx fun _ _ _ _ => trivial) (hm.frame hx rfl (hm.stops.advance f.env) hcaller)) ?_
    refine ⟨kinds', [], code, some g.env, ⟨hbytes, hcompiled, hfunctions, rfl⟩, htrail, fun o ho => ?_⟩
    cases ho
    exact hm.harmless (by simp) hx (Heap.get?_of_function hg)
  · have hold := Heap.function_of_open hm.heap.tidy hroom (hclosures c k hk)
    exact absurd hthreatens (hm.harmless (by simp) hx hold)

/-- A function returns to its caller. -/
theorem returns (hm : m.Comes x known pin outer f kinds before rest out .ret) (hheap : m'.heap = m.heap)
    (hframes : m'.frames = outer) : m'.Lawful x known pin := by
  have hx : m.heap.Extends x Any m'.heap := by
    rw [hheap]
    exact .refl _
  refine ⟨hheap ▸ hm.heap, hheap ▸ hm.pins, ?_, fun c g hg hthreatens => ?_⟩
  · rw [hheap, hframes]
    exact hm.callers
  · rw [hheap] at hg
    exact absurd hthreatens (hm.harmless (by simp) hx hg)

end Machine.Comes

/-- A step keeps a machine lawful. -/
theorem Machine.Lawful.step (hm : m.Lawful x known pin) (hstep : MachineM.step m = .ok none m') (hb : m'.Bounded) :
    m'.Lawful x known pin := by
  have hages : m.collected.Ages m' := by
    have hages := m.ages_step
    rw [hstep] at hages
    exact hages
  have hc := hm.collected (hb.of_ages hages)
  -- The instruction is executed behind the collection, and does one of the things that `Acts` tells apart.
  obtain ⟨outer, f, i, width, hframes, hd, hacts⟩ := Machine.step_cases hstep
  rw [← frames_collected] at hframes
  obtain ⟨rfl, kinds, before, rest, out, hcomes⟩ := hc.comes hframes hd
  rcases hacts with ⟨rfl, hheap, houter⟩ | hacts
  · exact hcomes.returns hheap houter
  · cases hacts with
    | passes hi hk hframes' => exact hcomes.passes hi hk hb.1 hframes' rfl rfl (hcomes.stops.advance f.env) rfl
    | jumps hi htarget hk hframes' =>
      have hsilent : i.isSilent = true := by
        cases i <;> first | rfl | cases hi
      obtain ⟨before', after', hstops, hsame⟩ := hcomes.stops.jump hi htarget
      exact hcomes.passes hsilent hk hb.1 hframes' rfl rfl hstops hsame
    | binds _ _ hheap hframes' => exact hcomes.binds hheap hframes'
    | assigns howner hheap hframes' => exact hcomes.assigns howner hheap hframes'
    | enters hheap hframes' => exact hcomes.enters hheap hb.1 hframes'
    | leaves he hparent hheap hframes' => exact hcomes.leaves he hparent hheap hframes'
    | makes hheap hframes' => exact hcomes.makes hheap hb.1 hframes'
    | calls hg hargs hheap hframes' => exact hcomes.calls hg hargs hheap hb.1 hframes'

/-- The machines of a run age. -/
theorem Machine.Reaches.ages (h : m.Reaches m') : m.Ages m' := by
  induction h with
  | refl m => exact .refl m
  | @step m m₁ _ hs _ ih =>
    have hages := m.ages_step
    rw [hs] at hages
    exact m.ages_collected.trans (hages.trans ih)

/-- A run keeps a machine lawful. -/
theorem Machine.Lawful.reaches (hm : m.Lawful x known pin) (hr : m.Reaches m') (hb : m'.Bounded) : m'.Lawful x known pin := by
  induction hr with
  | refl => exact hm
  | step hs hrest ih => exact ih (hm.step hs (hb.of_ages hrest.ages)) hb

/-! ## The start of a run -/

/-- The heap of a new machine, with the globals inside no environment. -/
def Machine.Opens (x : String) (known : List Stmt → Prop) (m : Machine) : Prop :=
  m.heap.slots.size < maxSlots → m.heap.Lexical x known ∧ ∃ e, m.heap.get? m.globals = some (.environment e) ∧ e.parent = none

/-- A new machine has its globals inside no environment. -/
theorem Machine.opens_ofSettings {s : Settings} (h : ofSettings s = .ok m) : m.Opens x known := by
  refine of_ofSettings (P := Opens x known) h (fun globals heap halloc hsize => ?_) fun n _ m v h₁ h₂ hm halloc hdefine hsize => ?_
  · have hempty : (Heap.ofSettings s).Lexical x known :=
      ⟨Heap.tidy_ofSettings s, by simp [Heap.get?, Heap.ofSettings], by simp [Heap.get?, Heap.ofSettings],
        by simp [Heap.get?, Heap.ofSettings]⟩
    rw [HeapM.alloc_eq] at halloc
    split at halloc
    · cases halloc
    · cases halloc
      have hroom : (Heap.ofSettings s).Room := Nat.lt_of_le_of_lt Heap.size_place.1 hsize
      refine ⟨hempty.place hroom (fun e he => ?_) (fun f hf => ?_), _, Heap.get?_place_self hempty.tidy.toSparse hroom, rfl⟩
      · cases he
        refine ⟨fun parent hparent => ?_, Table.valid_withChains _⟩
        cases hparent
      · cases hf
  · rw [HeapM.allocRef_eq] at halloc
    split at halloc
    · cases halloc
    · cases halloc
      obtain rfl := Heap.define_ok hdefine
      have hsize₁ : (m.heap.place (.native n)).2.slots.size < maxSlots := by
        simpa [Heap.update] using hsize
      have hroom : m.heap.Room := Nat.lt_of_le_of_lt Heap.size_place.1 hsize₁
      obtain ⟨hheap, e, he, hparent⟩ := hm hroom
      have hplaced : (m.heap.place (.native n)).2.Lexical x known := hheap.place hroom (by simp) (by simp)
      refine ⟨hplaced.bind _ _ _, _, Heap.get?_bind_of_environment (Heap.get?_place_of_get? hheap.tidy.toSparse hroom he), ?_⟩
      rw [if_pos rfl]
      exact hparent

/-- A program that compiles starts lawfully. -/
theorem Machine.lawful_start {s : Settings} {p : Program} {image : Image} (hp : p.compile = .ok image) (hm : ofSettings s = .ok m)
    (hb : m.heap.slots.size < maxSlots) : (m.start image).Lawful x (· ∈ p.bodies) none := by
  obtain ⟨hheap, e, he, hparent⟩ := opens_ofSettings hm hb
  obtain ⟨kinds, code, hbytes, hcompiled, hfunctions⟩ := (p.compile_careful hp x).compiled
  refine ⟨hheap, fun a v hpin => ?_, ?_, fun c g _ hthreatens => ?_⟩
  · cases hpin
  · have hlies : m.heap.Lies x none [] m.globals e none :=
      ⟨he, by simp, by simp, by simp [hparent], by simp⟩
    have hframe : Frame.Lawful x (· ∈ p.bodies) none m.heap (scopesOf #[])
        ⟨⟨image.path, image.name, [], [], false, image.code.toArray⟩, 0, m.globals, 0⟩ :=
      ⟨kinds, [], code, e.parent, ⟨hbytes, hcompiled, hfunctions, rfl⟩, .last hlies, by simp [hparent]⟩
    exact Calls.call .empty hframe
  · obtain ⟨a, v, hpin, -⟩ := hthreatens
    cases hpin

end

end ScriptVM
