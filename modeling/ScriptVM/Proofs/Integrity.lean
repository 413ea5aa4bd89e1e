import ScriptVM.Proofs.Lockstep

/-!
# Handles that never dangle

A machine is `Intact` when every handle that it holds, and every handle in an object of its heap, leads to an object of the kind
that its holder takes it for. A session is any sequence of runs, of modules well-formed or not, of collections and of definitions
of scalars. Its machines are twins of themselves, and so they are intact at any time, and no run fails for a handle that does not
resolve (`Machine.Session.never_dangles`).
-/

namespace ScriptVM

open Pairing

/-! ## Holders of handles -/

/-- The handle leads to an object of a kind, or to an environment. -/
def Heap.Resolves (h : Heap) (kind : Option RefKind) (a : Handle) : Prop := ∃ o, h.get? a = some o ∧ o.kind? = kind

/-- A reference leads to an object of its kind. -/
def Value.Resolves (h : Heap) : Value → Prop
  | .ref kind a => h.Resolves (some kind) a
  | _ => True

/-- The kind of container that a walk is over. -/
def Traversal.kind : Traversal → RefKind
  | array _ _ => .array
  | range _ _ => .range
  | map _ _ => .map

/-- Every handle in an object leads to an object of the kind that it is taken for. -/
def Object.Resolves (h : Heap) : Object → Prop
  | .text _ => True
  | .array items => ∀ v ∈ items.toList, v.Resolves h
  | .map entries => ∀ p ∈ entries.toList, (∀ c ∈ p.1.handles, ∃ kind, h.Resolves (some kind) c) ∧
      p.2.key.Resolves h ∧ p.2.value.Resolves h
  | .function f => h.Resolves none f.env
  | .native _ => True
  | .range _ => True
  | .iterator t => h.Resolves (some t.kind) t.target
  | .error e => ∀ v ∈ e.payload, v.Resolves h
  | .environment e => (∀ p ∈ e.bindings.toList, p.2.Resolves h) ∧ ∀ a ∈ e.parent, h.Resolves none a

/-- No handle dangles: not among the operands, in the frames or the other roots, and not in the objects of the heap. -/
structure Machine.Intact (m : Machine) : Prop where
  stack : ∀ v ∈ m.stack.toList, v.Resolves m.heap
  frames : ∀ f ∈ m.frames.toList, m.heap.Resolves none f.env
  globals : m.heap.Resolves none m.globals
  lastPopped : m.lastPopped.Resolves m.heap
  objects : ∀ slot ∈ m.heap.slots.toList, ∀ o ∈ slot.object, o.Resolves m.heap

/-- What a host may do with a machine: run modules, collect garbage, and define scalars in the globals. A run may stop after any
number of instructions, so the machines of a session are all those between two instructions. -/
inductive Machine.Session (s : Settings) : Machine → Prop where
  | new {m : Machine} : Machine.ofSettings s = .ok m → Session s m
  | run {m : Machine} (fuel : Nat) (bytes : List UInt8) : Session s m → Session s (m.run fuel bytes).2
  | collect {m : Machine} : Session s m → Session s m.collectGarbage
  | define {m : Machine} (name : String) {v : Value} : v.handle? = none → Session s m → Session s (machineAfter (m.define name v))

/-! ## What lives on both sides -/

variable {W : Pairing} {m : Machine}

namespace Pairing

/-- A handle that lives on both sides resolves. -/
theorem Sound.resolves (hW : W.Sound) {kind : Option RefKind} {a b : Handle} (h : W.Live kind a b) : W.left.Resolves kind a := by
  obtain ⟨o, p, ho, -, hkind, -⟩ := hW.objects h
  exact ⟨o, ho, hkind⟩

/-- A value that lives on both sides resolves. -/
theorem Sound.value_resolves (hW : W.Sound) {v w : Value} (h : ValueRel W.Live v w) : v.Resolves W.left := by
  cases h with
  | plain hv =>
    cases v with
    | ref kind a => nomatch hv
    | _ => trivial
  | ref hab => exact hW.resolves hab

/-- Values that live on both sides resolve. -/
theorem Sound.values_resolve (hW : W.Sound) {vs ws : List Value} (h : List.Forall₂ (ValueRel W.Live) vs ws) :
    ∀ v ∈ vs, v.Resolves W.left := by
  intro v hv
  obtain ⟨w, -, hvw⟩ := forall₂_exists_right h hv
  exact hW.value_resolves hvw

/-- What is inside a value that lives on both sides is an object that values refer to. -/
theorem Sound.inside_resolves (hW : W.Sound) {c : Handle} {v w : Value} (hc : W.left.Inside c v) (h : ValueRel W.Live v w) :
    ∃ kind, W.left.Resolves (some kind) c := by
  induction hc generalizing w with
  | @self kind =>
    obtain ⟨b, -, hab⟩ := h.of_ref_left
    exact ⟨kind, hW.resolves hab⟩
  | item ha hmem _ ih =>
    obtain ⟨b, -, hab⟩ := h.of_ref_left
    obtain ⟨o, p, ho, -, -, hrel⟩ := hW.objects hab
    cases ha.symm.trans ho
    cases hrel with
    | array hitems =>
      obtain ⟨w, -, hvw⟩ := forall₂_exists_right hitems hmem
      exact ih hvw

/-- An object that lives on both sides holds no handle that dangles. -/
theorem Sound.object_resolves (hW : W.Sound) {kind : Option RefKind} {a b : Handle} {o : Object} (h : W.Live kind a b)
    (ho : W.left.get? a = some o) : o.Resolves W.left := by
  obtain ⟨o', p, ho', -, -, hrel⟩ := hW.objects h
  cases ho.symm.trans ho'
  have hkeyed := hW.keyed ⟨kind, b, h⟩ ho
  cases hrel with
  | text s => trivial
  | array hitems => exact hW.values_resolve hitems
  | map hentries =>
    intro p hp
    obtain ⟨q, -, -, hkey, hvalue⟩ := forall₂_exists_right hentries.toList hp
    refine ⟨fun c hc => hW.inside_resolves (hkeyed p hp c hc) hkey, hW.value_resolves hkey, hW.value_resolves hvalue⟩
  | function henv => exact hW.resolves henv
  | native => trivial
  | range => trivial
  | iterator ht => cases ht <;> exact hW.resolves ‹_›
  | error message hpayload =>
    intro v hv
    cases hpayload with
    | none => nomatch hv
    | some hvw =>
      cases hv
      exact hW.value_resolves hvw
  | environment hbindings hparent =>
    refine ⟨fun p hp => ?_, fun a ha => ?_⟩
    · obtain ⟨q, -, -, hvalue⟩ := forall₂_exists_right hbindings.toList hp
      exact hW.value_resolves hvalue
    · cases hparent with
      | none => nomatch ha
      | some hab =>
        cases ha
        exact hW.resolves hab

end Pairing

namespace Twins

/-- A machine all of whose objects live on both sides is intact. -/
theorem intact {n : Machine} (h : Twins W m n) (hwhole : W.Whole) (hb : m.Bounded) : m.Intact := by
  have hleft := h.left
  constructor
  case stack =>
    rw [hleft]
    exact h.sound.values_resolve h.stack
  case frames =>
    intro f hf
    obtain ⟨g, -, hfg⟩ := forall₂_exists_right h.frames hf
    rw [hleft]
    exact h.sound.resolves hfg.env
  case globals =>
    rw [hleft]
    exact h.sound.resolves h.globals
  case lastPopped =>
    rw [hleft]
    exact h.sound.value_resolves h.lastPopped
  case objects =>
    intro slot hslot o ho
    -- The slot's own handle leads to the object.
    obtain ⟨i, hi⟩ := List.mem_iff_getElem?.1 hslot
    rw [Array.getElem?_toList] at hi
    have hlt : i < UInt32.size := Nat.lt_trans (Array.getElem?_eq_some_iff.1 hi).1 hb.1
    have hget : m.heap.get? ⟨.ofNat i, slot.generation⟩ = some o := by
      refine Heap.get?_eq_some.2 ⟨slot, ?_, rfl, ho⟩
      rw [Heap.toNat_ofNat_of_lt hlt]
      exact hi
    rw [hleft] at hget ⊢
    obtain ⟨b, hab⟩ := hwhole _ o hget
    exact h.sound.object_resolves hab hget

/-- A collection keeps all that lives, on both sides. -/
theorem collectGarbage (h : Twins W m m) (hb : m.collectGarbage.Bounded) :
    ∃ W', Twins W' m.collectGarbage m.collectGarbage ∧ W'.Whole := by
  have htidy : m.heap.Tidy := h.left ▸ h.sound.tidyLeft
  have hshrinks : m.heap.Shrinks m.roots m.collectGarbage.heap := .collect htidy hb.2 _
  have htwins := h.shrink (h.left ▸ hshrinks) (h.right ▸ hshrinks) (.inr rfl)
  refine ⟨_, htwins, ?_⟩
  have hwhole := h.sound.whole_collect h.roots
  rw [← h.left, ← h.right] at hwhole
  exact hwhole

/-- A definition of a scalar on both sides. -/
theorem define (h : Twins W m m) (name : String) {v : Value} (hv : v.handle? = none) :
    ∃ W', Twins W' (machineAfter (m.define name v)) (machineAfter (m.define name v)) ∧ W.Extends W' := by
  have hgoes := h.onHeap (h.sound.define h.globals (.plain hv) name)
  change Goes W Done (m.define name v) (m.define name v) at hgoes
  cases hr : m.define name v with
  | ok u m' =>
    rw [hr] at hgoes
    cases hgoes with
    | ok hext h' _ => exact ⟨_, h', hext⟩
  | error e m' =>
    rw [hr] at hgoes
    cases hgoes with
    | error hext h' _ => exact ⟨_, h', hext⟩

end Twins

/-! ## Sessions -/

namespace Machine

variable {s : Settings}

/-- Defining a scalar among the globals ages the machine. -/
theorem ages_define (m : Machine) (name : String) (v : Value) : m.Ages (machineAfter (m.define name v)) :=
  ages_of_grows (stepwise_continues.plain (Plain.define m.globals name v) m).heap

/-- Every machine of a session is a twin of itself, with all its objects. -/
theorem Session.twins (h : Session s m) (hb : m.Bounded) : ∃ W, Twins W m m ∧ W.Whole := by
  induction h with
  | new hm => exact Twins.ofSettings rfl rfl rfl hm hm hb hb
  | @run m fuel bytes _ ih =>
    obtain ⟨W, h, hwhole⟩ := ih (hb.of_ages (ages_run fuel bytes m))
    obtain ⟨W', h', -, hwhole'⟩ := h.run fuel bytes hb hb (.inr rfl)
    exact ⟨W', h', hwhole' rfl hwhole⟩
  | @collect m _ ih =>
    obtain ⟨W, h, -⟩ := ih (hb.of_ages m.ages_collectGarbage)
    exact h.collectGarbage hb
  | @define m name v hv _ ih =>
    obtain ⟨W, h, hwhole⟩ := ih (hb.of_ages (ages_define m name v))
    obtain ⟨W', h', hext⟩ := h.define name hv
    exact ⟨W', h', hext.whole hwhole⟩

/-- As long as handles tell all slots apart, the machines of a session are intact. No run fails for a handle that does not resolve,
and a run that has ended, but for a module that could not be read, leaves no operand and no frame. -/
theorem Session.never_dangles (h : Session s m) (hb : m.Bounded) :
    m.Intact ∧ ∀ fuel bytes, (m.run fuel bytes).2.Bounded →
      (m.run fuel bytes).1 ≠ .failed (.runtime .invalidHandle) ∧
      ∀ image, Image.decode bytes = .ok image → (m.run fuel bytes).1 ≠ .unfinished →
        (m.run fuel bytes).2.stack = #[] ∧ (m.run fuel bytes).2.frames = #[] := by
  obtain ⟨W, htwins, hwhole⟩ := h.twins hb
  refine ⟨htwins.intact hwhole hb, fun fuel bytes hrun => ⟨fun hfailed => ?_, fun image hd hend => emptied_run hd hend⟩⟩
  obtain ⟨W', -, hresult, -⟩ := htwins.run fuel bytes hrun hrun (.inr rfl)
  rw [hfailed] at hresult
  cases hresult with
  | failed he => exact he rfl

/-- A module that makes an array with an array in it. -/
def nestedSample : Program :=
  ⟨"m.vs", "m", [.expression {} (.array {} [.array {} [.literal {} (.int 7)]])]⟩

/-- The slots of the heap and its collections after a program has run on a new machine. -/
def usageAfter (p : Program) (fuel : Nat) (s : Settings) : Option (Nat × Nat) :=
  match ofSettings s, p.compile with
  | .ok m, .ok image =>
    match m.run fuel image.encode with
    | (.finished _, m') => some (m'.heap.slots.size, m'.heap.last.collections)
    | _ => none
  | _, _ => none

/-- A new machine is intact, runs the sample to its end without a dangling handle, and leaves no operand. -/
theorem Session.never_dangles_nestedSample :
    ∃ m image, Session { gcThreshold := 0 } m ∧ nestedSample.compile = .ok image ∧ m.Intact ∧
      (m.run 9 image.encode).2.Bounded ∧ (m.run 9 image.encode).1 ≠ .unfinished ∧
      (m.run 9 image.encode).1 ≠ .failed (.runtime .invalidHandle) ∧ (m.run 9 image.encode).2.stack = #[] := by
  have husage : usageAfter nestedSample 9 { gcThreshold := 0 } = some (7, 0) := by decide +kernel
  obtain ⟨image, hp, hdecode⟩ : ∃ image, nestedSample.compile = .ok image ∧ Image.decode image.encode = .ok image :=
    ⟨_, rfl, by decide +kernel⟩
  unfold usageAfter at husage
  rw [hp] at husage
  cases hm : ofSettings { gcThreshold := 0 } with
  | error e =>
    rw [hm] at husage
    nomatch husage
  | ok m =>
    rw [hm] at husage
    simp only at husage
    cases hr : m.run 9 image.encode with
    | mk r m' =>
      rw [hr] at husage
      cases r with
      | failed e => nomatch husage
      | unfinished => nomatch husage
      | finished v =>
        have husage' := Prod.mk.inj (Option.some.inj husage)
        have hrun : (m.run 9 image.encode).2.Bounded := by
          rw [hr]
          exact ⟨husage'.1 ▸ by decide, husage'.2 ▸ by decide⟩
        have hend : (m.run 9 image.encode).1 ≠ .unfinished := by
          rw [hr]
          nofun
        have hsession : Session { gcThreshold := 0 } m := .new hm
        obtain ⟨hintact, hruns⟩ := hsession.never_dangles (hrun.of_ages (ages_run 9 image.encode m))
        obtain ⟨hresult, hempty⟩ := hruns 9 image.encode hrun
        exact ⟨m, image, hsession, hp, hintact, hrun, hend, hresult, (hempty image hdecode hend).1⟩

end Machine

end ScriptVM
