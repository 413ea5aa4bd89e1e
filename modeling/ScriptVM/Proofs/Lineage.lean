import ScriptVM.Proofs.Effects
import ScriptVM.Proofs.Sight
import ScriptVM.Proofs.Tables

/-!
# Environments around environments

An environment is inside another, and so on outwards. No operation moves an environment or takes a name out of it, and a new
environment is inside none that was there before it. So the way outwards from an environment never gets longer, and what it does not
see of a name it never sees later (`Heap.Path.of_extends`).

The scopes that are open at a place of a function are environments one inside the other. A `Trail` is such a row of environments, in
each of which a name is bound as it stands in the code.
-/

namespace ScriptVM

open Heap (maxSlots)

/-- An environment later on: it is inside the same one, and binds a name if it did. -/
structure Environment.Grows (x : String) (e e' : Environment) : Prop where
  parent : e'.parent = e.parent
  bound : e.bindings.contains x = true → e'.bindings.contains x = true

theorem Environment.Grows.refl (x : String) (e : Environment) : e.Grows x e := ⟨rfl, id⟩

theorem Environment.Grows.trans {x : String} {e e' e'' : Environment} (h : e.Grows x e') (h' : e'.Grows x e'') : e.Grows x e'' :=
  ⟨h'.parent.trans h.parent, h'.bound ∘ h.bound⟩

/-- A binding adds its name to those of the table. -/
theorem Table.Valid.contains_insert {t : Table String Value} (ht : t.Valid) (name x : String) (v : Value) :
    (t.insert name v).contains x = (decide (name = x) || t.contains x) := by
  unfold Table.contains
  rw [ht.get?_insert]
  by_cases hn : name = x
  · simp [hn]
  · simp [hn]

/-- An environment grows when a name is bound in it. -/
theorem Environment.grows_insert {x name : String} {v : Value} {e : Environment} (he : e.bindings.Valid) :
    e.Grows x { e with bindings := e.bindings.insert name v } := by
  refine ⟨rfl, fun hbound => ?_⟩
  rw [he.contains_insert, hbound, Bool.or_true]

namespace Heap

/-- The way outwards from an environment comes to one, past environments that are all as asked. -/
inductive Path (h : Heap) (P : Environment → Prop) (stop : Handle) : Handle → Prop where
  | here : Path h P stop stop
  | up {a parent : Handle} {e : Environment} : h.get? a = some (.environment e) → P e → e.parent = some parent →
      Path h P stop parent → Path h P stop a

/-- One environment is the other or inside it. -/
def Leads (h : Heap) (a b : Handle) : Prop := h.Path (fun _ => True) b a

/-- A name that is looked up in one environment is looked up in the other, if it is bound there. -/
def Sees (h : Heap) (x : String) (a b : Handle) : Prop := h.Path (fun e => e.bindings.contains x = false) b a

variable {h h' h'' : Heap} {x : String} {a b c : Handle} {known : List Stmt → Prop} {P : Environment → Prop} {Q : Handle → Prop}

/-- What an environment sees is around it. -/
theorem Sees.leads (hs : h.Sees x a b) : h.Leads a b := by
  induction hs with
  | here => exact .here
  | up he _ hp _ ih => exact .up he trivial hp ih

/-- What is around an environment around this one is around this one. -/
theorem Leads.trans (hab : h.Leads a b) (hbc : h.Leads b c) : h.Leads a c := by
  induction hab with
  | here => exact hbc
  | up he _ hp _ ih => exact .up he trivial hp ih

/-- An environment that is found is what the handle resolves to. -/
theorem get?_of_environment {e : Environment} (he : h.environment a = .ok e) : h.get? a = some (.environment e) := by
  unfold environment at he
  split at he
  · cases he
    assumption
  · cases he

/-- A closure that is found is what the handle resolves to. -/
theorem get?_of_function {f : Closure} (hf : h.function a = .ok f) : h.get? a = some (.function f) := by
  unfold function at hf
  split at hf
  · cases hf
    assumption
  · cases hf

/-- The nearest environment that binds a name is seen. -/
theorem sees_of_ownerWithin {fuel : Nat} (howner : h.ownerWithin x fuel a = .ok (some b)) : h.Sees x a b := by
  induction fuel generalizing a with
  | zero => cases howner
  | succ fuel ih =>
    obtain ⟨e, he, hrest⟩ := ScriptVM.bind_eq_ok.1 howner
    have hget := get?_of_environment he
    cases hbound : e.bindings.contains x with
    | true =>
      rw [hbound] at hrest
      cases hrest
      exact .here
    | false =>
      rw [hbound] at hrest
      cases hparent : e.parent with
      | none =>
        rw [hparent] at hrest
        cases hrest
      | some parent =>
        rw [hparent] at hrest
        exact .up hget hbound hparent (ih hrest)

/-! ## Heaps of code that follows a name -/

/-- Environments are inside environments that were given out, their names are in tables that can be trusted, and closures were made
in environments that were given out, with code that follows a name. -/
structure Lexical (x : String) (known : List Stmt → Prop) (h : Heap) : Prop where
  tidy : h.Tidy
  linked : ∀ a e parent, h.get? a = some (.environment e) → e.parent = some parent → h.Issued parent
  tables : ∀ a e, h.get? a = some (.environment e) → e.bindings.Valid
  closures : ∀ a f, h.get? a = some (.function f) → h.Issued f.env ∧ Careful x known f.code.params f.code.instructions.toList

/-- A later heap: what was given out stays so, an environment that was there before is where it was and binds a name if it did, and
the environments as asked are still there. -/
structure Extends (x : String) (Q : Handle → Prop) (h h' : Heap) : Prop where
  issued : ∀ a, h.Issued a → h'.Issued a
  older : ∀ a e', h.Issued a → h'.get? a = some (.environment e') → ∃ e, h.get? a = some (.environment e) ∧ e.Grows x e'
  kept : ∀ a e, Q a → h.get? a = some (.environment e) → ∃ e', h'.get? a = some (.environment e') ∧ e.Grows x e'

/-- Whatever environment. -/
abbrev Any : Handle → Prop := fun _ => True

/-- A heap is later than itself. -/
theorem Extends.refl (h : Heap) : h.Extends x Q h :=
  ⟨fun _ ha => ha, fun _ e _ he => ⟨e, he, .refl x e⟩, fun _ e _ he => ⟨e, he, .refl x e⟩⟩

/-- Later than a later heap is later. -/
theorem Extends.trans (hx : h.Extends x Any h') (hx' : h'.Extends x Any h'') : h.Extends x Any h'' := by
  refine ⟨fun a ha => hx'.issued a (hx.issued a ha), fun a e'' ha he'' => ?_, fun a e _ he => ?_⟩
  · obtain ⟨e', he', hgrows'⟩ := hx'.older a e'' (hx.issued a ha) he''
    obtain ⟨e, he, hgrows⟩ := hx.older a e' ha he'
    exact ⟨e, he, hgrows.trans hgrows'⟩
  · obtain ⟨e', he', hgrows⟩ := hx.kept a e trivial he
    obtain ⟨e'', he'', hgrows'⟩ := hx'.kept a e' trivial he'
    exact ⟨e'', he'', hgrows.trans hgrows'⟩

/-- The way outwards leads to environments that were given out. -/
theorem Path.issued (hp : h.Path P b a) (hh : h.Lexical x known) (ha : h.Issued a) : h.Issued b := by
  induction hp with
  | here => exact ha
  | up he _ hparent _ ih => exact ih (hh.linked _ _ _ he hparent)

/-- A way in a later heap was there before, if it starts in an environment that was. -/
theorem Path.of_extends (hh : h.Lexical x known) (hx : h.Extends x Q h') (hP : ∀ e e' : Environment, e.Grows x e' → P e' → P e)
    (ha : h.Issued a) (hp : h'.Path P b a) : h.Path P b a := by
  -- Along the way in the later heap: each environment on it was there before, since what it is inside of was.
  induction hp with
  | here => exact .here
  | up he' hpass hparent _ ih =>
    obtain ⟨e, he, hgrows⟩ := hx.older _ _ ha he'
    rw [hgrows.parent] at hparent
    exact .up he (hP _ _ hgrows hpass) hparent (ih (hh.linked _ _ _ he hparent))

/-- No environment comes around another one later. -/
theorem Leads.of_extends (hh : h.Lexical x known) (hx : h.Extends x Q h') (ha : h.Issued a) (hl : h'.Leads a b) : h.Leads a b :=
  Path.of_extends hh hx (fun _ _ _ _ => trivial) ha hl

/-- What an environment does not see of a name it does not see later. -/
theorem Sees.of_extends (hh : h.Lexical x known) (hx : h.Extends x Q h') (ha : h.Issued a) (hs : h'.Sees x a b) : h.Sees x a b := by
  refine Path.of_extends hh hx (fun e e' hgrows hfree => ?_) ha hs
  cases hbound : e.bindings.contains x with
  | false => rfl
  | true =>
    rw [hgrows.bound hbound] at hfree
    cases hfree

/-- What an environment leads to is reachable with it. -/
theorem Leads.reachable {roots : List Handle} (hl : h.Leads a b) (ha : h.Reachable roots a) : h.Reachable roots b := by
  induction hl with
  | here => exact ha
  | up he _ hparent _ ih => exact ih (.reference ha he (by simp [Object.references, hparent]))

/-! ### Nothing of it changes -/

/-- A heap whose environments and closures are spared is a later one. -/
theorem Extends.of_spares (hk : h.Spares h') (hsize : h'.slots.size < maxSlots) (ht : h.Tidy) : h.Extends x Any h' := by
  obtain ⟨-, hissued, hsame⟩ := hk.kept hsize ht
  refine ⟨hissued, fun a e' _ he' => ?_, fun a e _ he => ?_⟩
  · exact ⟨e', (hsame a _ rfl).1 he', .refl x e'⟩
  · exact ⟨e, (hsame a _ rfl).2 he, .refl x e⟩

/-- Sparing environments and closures keeps code that follows the name. -/
theorem Lexical.of_spares (hh : h.Lexical x known) (hk : h.Spares h') (hsize : h'.slots.size < maxSlots) : h'.Lexical x known := by
  obtain ⟨htidy, hissued, hsame⟩ := hk.kept hsize hh.tidy
  refine ⟨htidy, fun a e parent he hparent => ?_, fun a e he => ?_, fun a f hf => ?_⟩
  · exact hissued _ (hh.linked a e parent ((hsame a _ rfl).1 he) hparent)
  · exact hh.tables a e ((hsame a _ rfl).1 he)
  · obtain ⟨henv, hcareful⟩ := hh.closures a f ((hsame a _ rfl).1 hf)
    exact ⟨hissued _ henv, hcareful⟩

/-! ### A name is bound -/

/-- The environments after a name was bound in one of them. -/
theorem environment_of_bind {name : String} {v : Value} {e' : Environment}
    (he' : (h.update c (Object.bind name v)).get? a = some (.environment e')) :
    ∃ e, h.get? a = some (.environment e) ∧ (e' = e ∨ (a = c ∧ e' = { e with bindings := e.bindings.insert name v })) := by
  rw [get?_update] at he'
  split at he'
  · rename_i hac
    obtain ⟨o, ho, hbind⟩ := Option.map_eq_some_iff.1 he'
    cases o with
    | environment e =>
      cases hbind
      exact ⟨e, ho, .inr ⟨hac, rfl⟩⟩
    | _ => cases hbind
  · exact ⟨e', he', .inl rfl⟩

/-- A name that is bound in an environment shows in that environment alone. -/
theorem get?_bind_of_environment {name : String} {v : Value} {e : Environment} (he : h.get? a = some (.environment e)) :
    (h.update c (Object.bind name v)).get? a =
      some (.environment (if a = c then { e with bindings := e.bindings.insert name v } else e)) := by
  rw [get?_update, he]
  split <;> rfl

theorem function_of_bind {name : String} {v : Value} {f : Closure}
    (hf : (h.update c (Object.bind name v)).get? a = some (.function f)) : h.get? a = some (.function f) := by
  rw [get?_update] at hf
  split at hf
  · obtain ⟨o, ho, hbind⟩ := Option.map_eq_some_iff.1 hf
    cases o with
    | function g =>
      cases hbind
      exact ho
    | _ => cases hbind
  · exact hf

/-- A name that was bound in an environment is among its names. -/
theorem contains_of_bind {v : Value} {e' : Environment} (hh : h.Lexical x known)
    (he' : (h.update c (Object.bind x v)).get? c = some (.environment e')) : e'.bindings.contains x = true := by
  obtain ⟨e, he, -⟩ := environment_of_bind he'
  rw [get?_bind_of_environment he, if_pos rfl] at he'
  cases he'
  rw [(hh.tables c e he).contains_insert]
  simp

/-- A heap on which a name was bound is a later one. -/
theorem Extends.bind (hh : h.Lexical x known) (c : Handle) (name : String) (v : Value) :
    h.Extends x Any (h.update c (Object.bind name v)) := by
  refine ⟨fun a ha => issued_update ha, fun a e' _ he' => ?_, fun a e _ he => ?_⟩
  · obtain ⟨e, he, rfl | ⟨-, rfl⟩⟩ := environment_of_bind he'
    · exact ⟨_, he, .refl x _⟩
    · exact ⟨e, he, Environment.grows_insert (hh.tables a e he)⟩
  · refine ⟨_, get?_bind_of_environment he, ?_⟩
    split
    · exact Environment.grows_insert (hh.tables a e he)
    · exact .refl x e

/-- Binding a name keeps code that follows the name. -/
theorem Lexical.bind (hh : h.Lexical x known) (c : Handle) (name : String) (v : Value) :
    (h.update c (Object.bind name v)).Lexical x known := by
  refine ⟨hh.tidy.update, fun a e' parent he' hparent => ?_, fun a e' he' => ?_, fun a f hf => ?_⟩
  · obtain ⟨e, he, rfl | ⟨-, rfl⟩⟩ := environment_of_bind he'
    · exact issued_update (hh.linked a _ parent he hparent)
    · exact issued_update (hh.linked a e parent he hparent)
  · obtain ⟨e, he, rfl | ⟨-, rfl⟩⟩ := environment_of_bind he'
    · exact hh.tables a _ he
    · exact (hh.tables a e he).insert
  · obtain ⟨henv, hcareful⟩ := hh.closures a f (function_of_bind hf)
    exact ⟨issued_update henv, hcareful⟩

/-! ### An object is placed -/

/-- An object after another was placed is that one, or was there before. -/
theorem of_get?_place {o p : Object} (ht : h.Tidy) (hr : h.Room) (hp : (h.place o).2.get? a = some p) : h.get? a = some p ∨ p = o := by
  by_cases ha : a = (h.place o).1
  · rw [ha, get?_place_self ht.toSparse hr] at hp
    exact .inr (Option.some.inj hp).symm
  · rw [get?_place_of_ne ht.toSparse hr ha] at hp
    exact .inl hp

/-- Opening a scope makes no closure. -/
theorem function_of_open {f : Closure} (ht : h.Tidy) (hr : h.Room) (hf : (h.open b).2.get? a = some (.function f)) :
    h.get? a = some (.function f) := by
  rcases of_get?_place ht hr hf with hold | hnew
  · exact hold
  · cases hnew

/-- A heap with one more object is a later one. -/
theorem Extends.place {o : Object} (ht : h.Tidy) (hr : h.Room) : h.Extends x Any (h.place o).2 := by
  refine ⟨fun a ha => issued_place ht.toSparse hr ha, fun a e' ha he' => ?_, fun a e _ he => ?_⟩
  · have hne : a ≠ (h.place o).1 := by
      rintro rfl
      exact not_issued_place ht.toSparse hr ha
    rw [get?_place_of_ne ht.toSparse hr hne] at he'
    exact ⟨e', he', .refl x e'⟩
  · exact ⟨e, get?_place_of_get? ht.toSparse hr he, .refl x e⟩

/-- A new environment inside one that was given out, or a new closure with code that follows the name. -/
theorem Lexical.place {o : Object} (hh : h.Lexical x known) (hr : h.Room)
    (henv : ∀ e, o = .environment e → (∀ parent, e.parent = some parent → h.Issued parent) ∧ e.bindings.Valid)
    (hmade : ∀ f, o = .function f → h.Issued f.env ∧ Careful x known f.code.params f.code.instructions.toList) :
    (h.place o).2.Lexical x known := by
  have hsparse := hh.tidy.toSparse
  refine ⟨hh.tidy.place hr, fun a e parent he hparent => ?_, fun a e he => ?_, fun a f hf => ?_⟩
  · rcases of_get?_place hh.tidy hr he with hold | hnew
    · exact issued_place hsparse hr (hh.linked a e parent hold hparent)
    · exact issued_place hsparse hr ((henv e hnew.symm).1 parent hparent)
  · rcases of_get?_place hh.tidy hr he with hold | hnew
    · exact hh.tables a e hold
    · exact (henv e hnew.symm).2
  · rcases of_get?_place hh.tidy hr hf with hold | hnew
    · obtain ⟨henv', hcareful⟩ := hh.closures a f hold
      exact ⟨issued_place hsparse hr henv', hcareful⟩
    · obtain ⟨henv', hcareful⟩ := hmade f hnew.symm
      exact ⟨issued_place hsparse hr henv', hcareful⟩

/-- Opening a scope inside an environment that was given out keeps code that follows the name. -/
theorem Lexical.open (hh : h.Lexical x known) (hr : h.Room) (ha : h.Issued a) : (h.open a).2.Lexical x known := by
  refine hh.place hr (fun e he => ?_) fun f hf => ?_
  · cases he
    refine ⟨fun parent hparent => ?_, Table.valid_withChains _⟩
    cases hparent
    exact ha
  · cases hf

/-! ### Garbage is collected -/

section

variable {roots : List Handle}

/-- A collection leads to a later heap as far as the roots reach. -/
theorem Extends.collect (hh : h.Lexical x known) (hc : h.last.collections + 1 < UInt32.size) :
    h.Extends x (h.Reachable roots) (h.collect roots) := by
  refine ⟨fun a ha => issued_collect hh.tidy hc ha, fun a e' _ he' => ?_, fun a e ha he => ?_⟩
  · exact ⟨e', get?_of_get?_collect he', .refl x e'⟩
  · exact ⟨e, (get?_collect hh.tidy.unmarked).2 ⟨he, ha⟩, .refl x e⟩

/-- A collection keeps code that follows the name. -/
theorem Lexical.collect (hh : h.Lexical x known) (hc : h.last.collections + 1 < UInt32.size) :
    (h.collect roots).Lexical x known := by
  refine ⟨hh.tidy.collect hc, fun a e parent he hparent => ?_, fun a e he => ?_, fun a f hf => ?_⟩
  · exact issued_collect hh.tidy hc (hh.linked a e parent (get?_of_get?_collect he) hparent)
  · exact hh.tables a e (get?_of_get?_collect he)
  · obtain ⟨henv, hcareful⟩ := hh.closures a f (get?_of_get?_collect hf)
    exact ⟨issued_collect hh.tidy hc henv, hcareful⟩

end

/-! ## Trails -/

/-- The environment of a scope in which a name stands so. It is inside no scope of its own, nor is any of the other environments
inside it; if it is the one that is pinned, then the name is bound as a constant. -/
structure Lies (h : Heap) (x : String) (pin : Option (Handle × Value)) (others : List Handle) (a : Handle) (e : Environment)
    (s : Option Bool) : Prop where
  resolves : h.get? a = some (.environment e)
  bound : s.isSome = true → e.bindings.contains x = true
  constant : ∀ v, pin = some (a, v) → s = some true
  above : ∀ parent, e.parent = some parent → ¬h.Leads parent a
  apart : ∀ b ∈ others, ¬h.Leads b a

/-- The environments of the scopes that are open in a function, from the innermost one to the one around the function. -/
inductive Trail (h : Heap) (x : String) (pin : Option (Handle × Value)) (others : List Handle) :
    Handle → Sight → Option Handle → Prop where
  | last {a : Handle} {e : Environment} {s : Option Bool} : h.Lies x pin others a e s → Trail h x pin others a [s] e.parent
  | inner {a parent : Handle} {e : Environment} {s : Option Bool} {σ : Sight} {out : Option Handle} : h.Lies x pin others a e s →
      e.parent = some parent → Trail h x pin others parent σ out → Trail h x pin others a (s :: σ) out

variable {pin : Option (Handle × Value)} {others : List Handle} {σ : Sight} {out : Option Handle} {e : Environment}
  {s : Option Bool}

/-- The innermost environment of a trail is live. -/
theorem Trail.resolves (ht : h.Trail x pin others a σ out) : ∃ e, h.get? a = some (.environment e) := by
  cases ht with
  | last hl => exact ⟨_, hl.resolves⟩
  | inner hl _ _ => exact ⟨_, hl.resolves⟩

/-- The innermost environment of a trail was given out. -/
theorem Trail.issued (ht : h.Trail x pin others a σ out) : h.Issued a := by
  obtain ⟨e, he⟩ := ht.resolves
  exact issued_of_get? he

/-- A scope lies as it did on a later heap that keeps its environment. -/
theorem Lies.transfer (hh : h.Lexical x known) (hx : h.Extends x Q h') (ho : ∀ b ∈ others, h.Issued b) (ha : Q a)
    (hl : h.Lies x pin others a e s) : ∃ e', h'.Lies x pin others a e' s ∧ e'.parent = e.parent := by
  obtain ⟨e', he', hgrows⟩ := hx.kept a e ha hl.resolves
  refine ⟨e', ⟨he', fun hs => hgrows.bound (hl.bound hs), hl.constant, fun parent hparent hleads => ?_, fun b hb hleads => ?_⟩,
    hgrows.parent⟩
  · rw [hgrows.parent] at hparent
    exact hl.above parent hparent (hleads.of_extends hh hx (hh.linked a e parent hl.resolves hparent))
  · exact hl.apart b hb (hleads.of_extends hh hx (ho b hb))

/-- A trail stays on a later heap that has its environments. -/
theorem Trail.transfer (hh : h.Lexical x known) (hx : h.Extends x Q h') (ho : ∀ b ∈ others, h.Issued b)
    (hQ : ∀ b, h.Leads a b → Q b) (ht : h.Trail x pin others a σ out) : h'.Trail x pin others a σ out := by
  induction ht with
  | last hl =>
    obtain ⟨e', hl', hparent⟩ := hl.transfer hh hx ho (hQ _ .here)
    rw [← hparent]
    exact .last hl'
  | inner hl hparent _ ih =>
    obtain ⟨e', hl', hparent'⟩ := hl.transfer hh hx ho (hQ _ .here)
    exact .inner hl' (hparent'.trans hparent) (ih fun b hb => hQ b (.up hl.resolves trivial hparent hb))

/-- Where a name that is pinned can be seen, its nearest binding is that of a constant, or it is seen outside the function. -/
theorem Trail.sees {v : Value} (ht : h.Trail x (some (b, v)) others a σ out) (hs : h.Sees x a b) :
    σ.nearest = some true ∨ (σ.nearest = none ∧ ∃ o, out = some o ∧ h.Sees x o b) := by
  induction ht with
  | @last a e s hl =>
    cases hs with
    | here =>
      rw [hl.constant v rfl]
      exact .inl rfl
    | up he hfree hparent hrest =>
      cases he.symm.trans hl.resolves
      cases s with
      | none => exact .inr ⟨rfl, _, hparent, hrest⟩
      | some isConst =>
        rw [hl.bound rfl] at hfree
        cases hfree
  | @inner a parent e s σ out hl hparent _ ih =>
    cases hs with
    | here =>
      rw [hl.constant v rfl]
      exact .inl rfl
    | up he hfree hparent' hrest =>
      cases he.symm.trans hl.resolves
      cases hparent'.symm.trans hparent
      cases s with
      | none => exact ih hrest
      | some isConst =>
        rw [hl.bound rfl] at hfree
        cases hfree

/-- The innermost scope binds the name. -/
theorem Trail.bound {isConst : Bool} (ht : h.Trail x pin others a (s :: σ) out)
    (hbound : ∀ e, h.get? a = some (.environment e) → e.bindings.contains x = true) (hpin : ∀ v, pin = some (a, v) → isConst = true) :
    h.Trail x pin others a (some isConst :: σ) out := by
  have hlies : ∀ e, h.Lies x pin others a e s → h.Lies x pin others a e (some isConst) := fun e hl =>
    ⟨hl.resolves, fun _ => hbound e hl.resolves, fun v hv => by rw [hpin v hv], hl.above, hl.apart⟩
  cases ht with
  | last hl => exact .last (hlies _ hl)
  | inner hl hparent hrest => exact .inner (hlies _ hl) hparent hrest

/-- A scope in which the name is not bound is not the pinned one. -/
theorem Trail.not_pinned {v : Value} (ht : h.Trail x pin others a (none :: σ) out) : pin ≠ some (a, v) := by
  intro hpin
  cases ht with
  | last hl => cases hl.constant v hpin
  | inner hl _ _ => cases hl.constant v hpin

/-- Environments that do not lead to one are not the one that is pinned. -/
theorem Trail.pinned {v : Value} (ht : h.Trail x none others a σ out) (hfree : ¬h.Leads a b) :
    h.Trail x (some (b, v)) others a σ out := by
  have hlies : ∀ c e s, h.Lies x none others c e s → ¬h.Leads c b → h.Lies x (some (b, v)) others c e s := by
    intro c e s hl hfree
    refine ⟨hl.resolves, hl.bound, fun w hw => ?_, hl.above, hl.apart⟩
    cases hw
    exact absurd .here hfree
  induction ht with
  | last hl => exact .last (hlies _ _ _ hl hfree)
  | inner hl hparent _ ih =>
    exact .inner (hlies _ _ _ hl hfree) hparent (ih fun hleads => hfree (.up hl.resolves trivial hparent hleads))

/-- A scope with the constant itself. -/
theorem Trail.pinned_self {v : Value} (ht : h.Trail x none others a (some true :: σ) out) :
    h.Trail x (some (a, v)) others a (some true :: σ) out := by
  have hlies : ∀ e, h.Lies x none others a e (some true) → h.Lies x (some (a, v)) others a e (some true) := fun e hl =>
    ⟨hl.resolves, hl.bound, fun _ _ => rfl, hl.above, hl.apart⟩
  cases ht with
  | last hl => exact .last (hlies _ hl)
  | inner hl hparent hrest => exact .inner (hlies _ hl) hparent (hrest.pinned (hl.above _ hparent))

/-- The environment around the innermost one of a trail is not inside it. -/
theorem Trail.above {parent : Handle} (ht : h.Trail x pin others a σ out) (he : h.get? a = some (.environment e))
    (hparent : e.parent = some parent) : ¬h.Leads parent a := by
  cases ht with
  | last hl =>
    cases he.symm.trans hl.resolves
    exact hl.above parent hparent
  | inner hl _ _ =>
    cases he.symm.trans hl.resolves
    exact hl.above parent hparent

/-- No other environment is inside the innermost one of a trail. -/
theorem Trail.apart (ht : h.Trail x pin others a σ out) : ∀ b ∈ others, ¬h.Leads b a := by
  cases ht with
  | last hl => exact hl.apart
  | inner hl _ _ => exact hl.apart

/-- What is outside the function is outside its scopes. -/
theorem Trail.leads {o : Handle} (ht : h.Trail x pin others a σ (some o)) : ∃ e parent, h.get? a = some (.environment e) ∧
    e.parent = some parent ∧ h.Leads parent o := by
  generalize hout : some o = out at ht
  induction ht with
  | @last a e s hl => exact ⟨e, o, hl.resolves, hout.symm, .here⟩
  | @inner a parent e s σ out hl hparent _ ih =>
    obtain ⟨e', parent', he', hparent', hleads⟩ := ih hout
    exact ⟨e, parent, hl.resolves, hparent, .up he' trivial hparent' hleads⟩

/-- The environment around the function is not inside the innermost one of a trail. -/
theorem Trail.outside_apart {o : Handle} (ht : h.Trail x pin others a σ (some o)) : ¬h.Leads o a := by
  intro hback
  obtain ⟨e, parent, he, hparent, hleads⟩ := ht.leads
  exact ht.above he hparent (hleads.trans hback)

/-- A new environment is a scope without the name. -/
theorem lies_place {e : Environment} (hh : h.Lexical x known) (hr : h.Room)
    (hparent : ∀ parent, e.parent = some parent → h.Issued parent) (ho : ∀ b ∈ others, h.Issued b)
    (hpin : ∀ c v, pin = some (c, v) → h.Issued c) :
    (h.place (.environment e)).2.Lies x pin others (h.place (.environment e)).1 e none := by
  have hsparse := hh.tidy.toSparse
  have hnew : ¬h.Issued (h.place (.environment e)).1 := not_issued_place hsparse hr
  have hx : h.Extends x Any (h.place (.environment e)).2 := .place hh.tidy hr
  have hfree : ∀ b, h.Issued b → ¬(h.place (.environment e)).2.Leads b (h.place (.environment e)).1 := fun b hb hleads =>
    hnew (Path.issued (hleads.of_extends hh hx hb) hh hb)
  refine ⟨get?_place_self hsparse hr, fun hs => ?_, fun v hv => ?_, fun parent hp => hfree _ (hparent parent hp),
    fun b hb => hfree b (ho b hb)⟩
  · cases hs
  · exact absurd (hpin _ v hv) hnew

/-! ## The pinned binding -/

/-- The pinned environment was given out, and as long as it is there it binds the name to the pinned value. -/
def Pins (x : String) (pin : Option (Handle × Value)) (h : Heap) : Prop :=
  ∀ a v, pin = some (a, v) → h.Issued a ∧ ∀ e, h.get? a = some (.environment e) → e.bindings.get? x = some v

/-- Sparing environments keeps the pinned binding. -/
theorem Pins.of_spares (hp : h.Pins x pin) (hk : h.Spares h') (hsize : h'.slots.size < maxSlots) (ht : h.Tidy) : h'.Pins x pin := by
  obtain ⟨-, hissued, hsame⟩ := hk.kept hsize ht
  intro a v hv
  obtain ⟨ha, hbinding⟩ := hp a v hv
  exact ⟨hissued a ha, fun e he => hbinding e ((hsame a _ rfl).1 he)⟩

/-- Another name is bound, or another environment binds the name. -/
theorem Pins.bind (hp : h.Pins x pin) (hh : h.Lexical x known) {name : String} (v : Value)
    (hother : ∀ w, pin = some (c, w) → name ≠ x) : (h.update c (Object.bind name v)).Pins x pin := by
  intro a w hw
  obtain ⟨ha, hbinding⟩ := hp a w hw
  refine ⟨issued_update ha, fun e' he' => ?_⟩
  obtain ⟨e, he, rfl | ⟨rfl, rfl⟩⟩ := environment_of_bind he'
  · exact hbinding _ he
  · have hname := hother w hw
    rw [(hh.tables a e he).get?_insert]
    simp only [beq_iff_eq, hname, if_false]
    exact hbinding e he

/-- Placing an object keeps the pinned binding. -/
theorem Pins.place {o : Object} (hp : h.Pins x pin) (ht : h.Tidy) (hr : h.Room) : (h.place o).2.Pins x pin := by
  intro a v hv
  obtain ⟨ha, hbinding⟩ := hp a v hv
  refine ⟨issued_place ht.toSparse hr ha, fun e he => hbinding e ?_⟩
  have hne : a ≠ (h.place o).1 := by
    rintro rfl
    exact not_issued_place ht.toSparse hr ha
  rw [get?_place_of_ne ht.toSparse hr hne] at he
  exact he

/-- A collection keeps the pinned binding, as long as the environment is there. -/
theorem Pins.collect {roots : List Handle} (hp : h.Pins x pin) (ht : h.Tidy) (hc : h.last.collections + 1 < UInt32.size) :
    (h.collect roots).Pins x pin := by
  intro a v hv
  obtain ⟨ha, hbinding⟩ := hp a v hv
  exact ⟨issued_collect ht hc ha, fun e he => hbinding e (get?_of_get?_collect he)⟩

/-! ## The environment of a call -/

/-- A definition that succeeds binds the name in the environment. -/
theorem define_ok {name : String} {v : Value} (hd : HeapM.define c name v h = .ok () h') : h' = h.update c (Object.bind name v) := by
  obtain ⟨e, h₁, hread, hupdate⟩ := EStateM.bind_eq_ok hd
  obtain ⟨-, rfl⟩ := heapRead_ok hread
  cases hupdate
  rfl

/-- Names are bound in an environment that is not pinned. -/
theorem of_defineAll {bindings : List (String × Value)} (hd : HeapM.defineAll c bindings h = .ok () h') (hh : h.Lexical x known)
    (hp : h.Pins x pin) (hc : h.Issued c) (hfree : ∀ v, pin ≠ some (c, v)) :
    h'.Lexical x known ∧ h'.Pins x pin ∧ h.Extends x Any h' ∧
      (∀ a f, h'.get? a = some (.function f) → h.get? a = some (.function f)) ∧
      ∀ e', x ∈ bindings.map Prod.fst → h'.get? c = some (.environment e') → e'.bindings.contains x = true := by
  induction bindings generalizing h with
  | nil =>
    cases hd
    refine ⟨hh, hp, .refl _, fun _ _ hf => hf, fun _ hx => ?_⟩
    simp at hx
  | cons binding rest ih =>
    obtain ⟨name, v⟩ := binding
    obtain ⟨_, h₁, hfirst, hrest⟩ := EStateM.bind_eq_ok hd
    obtain rfl := define_ok hfirst
    obtain ⟨hh', hp', hx', hclosures, hbound⟩ := ih hrest (hh.bind c name v) (hp.bind hh v fun w hw => absurd hw (hfree w))
      (issued_update hc)
    refine ⟨hh', hp', (Extends.bind hh c name v).trans hx', fun a f hf => function_of_bind (hclosures a f hf), fun e' hx he' => ?_⟩
    rcases List.mem_cons.1 hx with rfl | hx
    · obtain ⟨e, he, hgrows⟩ := hx'.older c e' (issued_update hc) he'
      exact hgrows.bound (contains_of_bind hh he)
    · exact hbound e' hx he'

end Heap

end ScriptVM
