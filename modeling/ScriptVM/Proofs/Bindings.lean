import Mathlib.Data.List.Nodup
import ScriptVM.Proofs.Constancy
import ScriptVM.Proofs.Indexing

/-!
# Environments change one binding at a time

An environment is inside another, and so on up to one that is inside none: its chain. Where every environment has such a chain, a name
is found in the first environment of the chain that binds it. To bind a name in an environment changes what is found from those
environments alone that see it there, and to assign a name is to bind it where it is found (`Heap.bindings_change_one`). Many chains
go through one environment, so the change is seen from all those whose nearest binding it is, and from no other.

Lookups are compared along the chain, as the first of the values that its environments give to the name (`Heap.Chain.lookup`).
-/

namespace ScriptVM

namespace Heap

variable {h : Heap} {a b c : Handle} {l l' : List Handle} {e : Environment} {x name : String} {v : Value}

/-! ## Chains -/

/-- The environments from one outwards, up to one that is inside none. -/
inductive Chain (h : Heap) : Handle → List Handle → Prop where
  | outermost {a : Handle} {e : Environment} : h.get? a = some (.environment e) → e.parent = none → Chain h a [a]
  | inside {a b : Handle} {e : Environment} {l : List Handle} : h.get? a = some (.environment e) → e.parent = some b → Chain h b l →
      Chain h a (a :: l)

/-- Every environment has a chain, and its names are in a table that can be trusted. -/
structure Chained (h : Heap) : Prop where
  chains : ∀ a e, h.get? a = some (.environment e) → ∃ l, h.Chain a l
  tables : ∀ a e, h.get? a = some (.environment e) → e.bindings.Valid

/-- An environment has one chain only. -/
theorem Chain.eq (hc : h.Chain a l) (hc' : h.Chain a l') : l = l' := by
  induction hc generalizing l' with
  | outermost he hnone =>
    cases hc' with
    | outermost => rfl
    | inside he' hparent _ =>
      cases he.symm.trans he'
      cases hnone.symm.trans hparent
  | inside he hparent _ ih =>
    cases hc' with
    | outermost he' hnone =>
      cases he.symm.trans he'
      cases hnone.symm.trans hparent
    | inside he' hparent' hc' =>
      cases he.symm.trans he'
      cases hparent.symm.trans hparent'
      rw [ih hc']

/-- A chain goes on with the chains of its environments. -/
theorem Chain.of_mem (hc : h.Chain a l) (hb : b ∈ l) : ∃ l', h.Chain b l' ∧ l'.length ≤ l.length := by
  induction hc with
  | outermost he hnone =>
    cases List.mem_singleton.1 hb
    exact ⟨_, .outermost he hnone, Nat.le_refl _⟩
  | inside he hparent hc ih =>
    rcases List.mem_cons.1 hb with rfl | hb
    · exact ⟨_, .inside he hparent hc, Nat.le_refl _⟩
    · obtain ⟨l', hl', hle⟩ := ih hb
      exact ⟨l', hl', Nat.le_succ_of_le hle⟩

/-- No environment is on its way outwards twice. -/
theorem Chain.nodup (hc : h.Chain a l) : l.Nodup := by
  induction hc with
  | outermost => exact List.nodup_singleton _
  | inside he hparent hc ih =>
    refine List.nodup_cons.2 ⟨fun hmem => ?_, ih⟩
    -- The chain would be shorter than itself.
    obtain ⟨l', hl', hle⟩ := hc.of_mem hmem
    rw [← (Chain.inside he hparent hc).eq hl', List.length_cons] at hle
    exact Nat.not_succ_le_self _ hle

/-- Every link of a chain is a live environment. -/
theorem Chain.live (hc : h.Chain a l) (hb : b ∈ l) : ∃ e, h.get? b = some (.environment e) := by
  obtain ⟨l', hl', -⟩ := hc.of_mem hb
  cases hl' with
  | outermost he _ => exact ⟨_, he⟩
  | inside he _ _ => exact ⟨_, he⟩

/-- A chain is no longer than there are slots: no two of its environments are in one slot. -/
theorem Chain.length_le (hc : h.Chain a l) : l.length ≤ h.slots.size := by
  have hnodup : (l.map fun b => b.index.toNat).Nodup := by
    refine hc.nodup.map_on fun b hb c hc' hindex => ?_
    obtain ⟨e, he⟩ := hc.live hb
    obtain ⟨e', he'⟩ := hc.live hc'
    exact eq_of_get?_of_index he he' hindex
  have hsubset : (l.map fun b => b.index.toNat) ⊆ List.range h.slots.size := by
    intro i hi
    obtain ⟨b, hb, rfl⟩ := List.mem_map.1 hi
    obtain ⟨e, he⟩ := hc.live hb
    obtain ⟨s, hs, -⟩ := get?_eq_some.1 he
    exact List.mem_range.2 (Array.getElem?_eq_some_iff.1 hs).1
  have hlength := (hnodup.subperm hsubset).length_le
  rwa [List.length_map, List.length_range] at hlength

/-! ## Lookups along a chain -/

/-- The value that an environment itself gives to a name. -/
def ownValue? (h : Heap) (x : String) (a : Handle) : Option Value :=
  match h.get? a with
  | some (.environment e) => e.bindings.get? x
  | _ => none

/-- The own value of a name is what the bindings of the environment hold. -/
theorem ownValue?_eq (he : h.get? a = some (.environment e)) (x : String) : h.ownValue? x a = e.bindings.get? x := by
  rw [ownValue?, he]

/-- From an environment outwards, the first that binds a name. -/
def Nearest (h : Heap) (x : String) (a b : Handle) : Prop := h.Sees x a b ∧ (h.ownValue? x b).isSome

/-- A handle of an environment resolves to it as an environment. -/
theorem environment_of_get? (he : h.get? a = some (.environment e)) : h.environment a = .ok e := by rw [environment, he]

/-- With a bound as long as the chain, the first environment of the chain is found that binds the name. -/
theorem Chain.ownerWithin (hc : h.Chain a l) (x : String) {fuel : Nat} (hfuel : l.length ≤ fuel) :
    h.ownerWithin x fuel a = .ok (l.find? fun b => (h.ownValue? x b).isSome) := by
  induction hc generalizing fuel with
  | @outermost a e he hnone =>
    obtain ⟨fuel, rfl⟩ := Nat.exists_eq_succ_of_ne_zero (Nat.ne_zero_of_lt hfuel)
    rw [List.find?_cons, ownValue?_eq he]
    cases hbound : (e.bindings.get? x).isSome with
    | true => exact ownerWithin_of_bound he hbound fuel
    | false =>
      have hfree : e.bindings.contains x = false := hbound
      rw [Heap.ownerWithin, environment_of_get? he]
      change (if e.bindings.contains x = true then _ else _) = _
      rw [hfree, hnone]
      rfl
  | @inside a b e l he hparent hc ih =>
    obtain ⟨fuel, rfl⟩ := Nat.exists_eq_succ_of_ne_zero (Nat.ne_zero_of_lt hfuel)
    rw [List.find?_cons, ownValue?_eq he]
    cases hbound : (e.bindings.get? x).isSome with
    | true => exact ownerWithin_of_bound he hbound fuel
    | false =>
      rw [ownerWithin_of_parent he hbound hparent]
      exact ih (Nat.le_of_succ_le_succ hfuel)

/-- The owner of a name is the first environment of the chain that binds it. -/
theorem Chain.owner (hc : h.Chain a l) (x : String) : h.owner a x = .ok (l.find? fun b => (h.ownValue? x b).isSome) :=
  hc.ownerWithin x (Nat.le_succ_of_le hc.length_le)

/-- Finding the first hit and then mapping it is mapping and finding the first result. -/
theorem bind_find?_isSome {α β : Type} (f : α → Option β) (l : List α) :
    (l.find? fun a => (f a).isSome).bind f = l.findSome? f := by
  induction l with
  | nil => rfl
  | cons a l ih =>
    rw [List.find?_cons, List.findSome?_cons]
    cases hf : f a with
    | none => exact ih
    | some b => exact hf

/-- A name stands for the first of the values that the environments of the chain give to it. -/
theorem Chain.lookup (hc : h.Chain a l) (x : String) : h.lookup a x = .ok (l.findSome? (h.ownValue? x)) := by
  rw [Heap.lookup, hc.owner, ← bind_find?_isSome]
  cases hfind : l.find? fun b => (h.ownValue? x b).isSome with
  | none => rfl
  | some b =>
    obtain ⟨e, he⟩ := hc.live (List.mem_of_find?_eq_some hfind)
    change (do return (← h.environment b).bindings.get? x) = Except.ok (h.ownValue? x b)
    rw [environment_of_get? he, ownValue?_eq he]
    rfl

/-- An environment sees a name in itself, or else further out if it does not bind the name. -/
theorem sees_iff (he : h.get? a = some (.environment e)) :
    h.Sees x a c ↔ a = c ∨ (h.ownValue? x a = none ∧ ∃ b ∈ e.parent, h.Sees x b c) := by
  rw [ownValue?_eq he]
  constructor
  · intro hs
    cases hs with
    | here => exact .inl rfl
    | up he' hfree hparent hs =>
      cases he.symm.trans he'
      exact .inr ⟨Option.not_isSome_iff_eq_none.1 (Bool.eq_false_iff.1 hfree), _, hparent, hs⟩
  · rintro (rfl | ⟨hfree, b, hparent, hs⟩)
    · exact .here
    · refine .up he ?_ hparent hs
      rw [Table.contains, hfree]
      rfl

/-- The nearest binding of a name is the environment's own, or else the nearest one around the environment. -/
theorem nearest_iff (he : h.get? a = some (.environment e)) :
    h.Nearest x a c ↔ ((h.ownValue? x a).isSome ∧ a = c) ∨ (h.ownValue? x a = none ∧ ∃ b ∈ e.parent, h.Nearest x b c) := by
  rw [Nearest, sees_iff he]
  constructor
  · rintro ⟨rfl | ⟨hfree, b, hparent, hs⟩, hbound⟩
    · exact .inl ⟨hbound, rfl⟩
    · exact .inr ⟨hfree, b, hparent, hs, hbound⟩
  · rintro (⟨hbound, rfl⟩ | ⟨hfree, b, hparent, hs, hbound⟩)
    · exact ⟨.inl rfl, hbound⟩
    · exact ⟨.inr ⟨hfree, b, hparent, hs⟩, hbound⟩

/-- The nearest environment that binds a name is the first of the chain that does. -/
theorem Chain.nearest_iff (hc : h.Chain a l) : h.Nearest x a c ↔ l.find? (fun b => (h.ownValue? x b).isSome) = some c := by
  induction hc with
  | @outermost a e he hnone =>
    rw [Heap.nearest_iff he, List.find?_cons, hnone]
    cases h.ownValue? x a <;> simp
  | @inside a b e l he hparent hc ih =>
    rw [Heap.nearest_iff he, List.find?_cons, hparent]
    cases h.ownValue? x a <;> simp [ih]

/-! ## One name is bound -/

/-- Binding a name changes the own value of that name in that environment, and no other. -/
theorem ownValue?_bind (hc : h.get? c = some (.environment e)) (ht : e.bindings.Valid) (d : Handle) :
    (h.update c (Object.bind name v)).ownValue? x d = if d = c ∧ name = x then some v else h.ownValue? x d := by
  by_cases hd : d = c
  · subst hd
    rw [ownValue?_eq (get?_bind_of_environment hc), if_pos rfl, ht.get?_insert, ownValue?_eq hc]
    simp
  · rw [ownValue?, get?_update, if_neg hd, if_neg fun h => hd h.1, ownValue?]

/-- To bind a name leaves each environment inside the one that it is in. -/
theorem Chain.bind (hc : h.Chain a l) (c : Handle) (name : String) (v : Value) :
    (h.update c (Object.bind name v)).Chain a l := by
  induction hc with
  | outermost he hnone =>
    refine .outermost (get?_bind_of_environment he) ?_
    split <;> exact hnone
  | inside he hparent _ ih =>
    refine .inside (get?_bind_of_environment he) ?_ ih
    split <;> exact hparent

/-- Binding a name leaves every chain finite. -/
theorem Chained.bind (hh : h.Chained) (c : Handle) (name : String) (v : Value) : (h.update c (Object.bind name v)).Chained := by
  refine ⟨fun a e' he' => ?_, fun a e' he' => ?_⟩
  · obtain ⟨e, he, -⟩ := environment_of_bind he'
    obtain ⟨l, hl⟩ := hh.chains a e he
    exact ⟨l, hl.bind c name v⟩
  · obtain ⟨e, he, rfl | ⟨-, rfl⟩⟩ := environment_of_bind he'
    · exact hh.tables a _ he
    · exact (hh.tables a e he).insert

/-- From an environment that sees the name in the one where it is bound, it is found there. -/
theorem Chain.findSome?_bind_of_sees (hb : h.Chain b l) (hc : h.get? c = some (.environment e)) (ht : e.bindings.Valid)
    (hs : h.Sees name b c) : l.findSome? ((h.update c (Object.bind name v)).ownValue? name) = some v := by
  induction hb with
  | outermost he hnone =>
    rcases (sees_iff he).1 hs with rfl | ⟨-, b, hparent, -⟩
    · rw [List.findSome?_cons, ownValue?_bind hc ht, if_pos ⟨rfl, rfl⟩]
    · cases hnone.symm.trans hparent
  | @inside a b _ l he hparent _ ih =>
    rw [List.findSome?_cons, ownValue?_bind hc ht]
    by_cases hac : a = c
    · rw [if_pos ⟨hac, rfl⟩]
    · rcases (sees_iff he).1 hs with hac' | ⟨hfree, b', hparent', hs⟩
      · exact absurd hac' hac
      · cases hparent.symm.trans hparent'
        rw [if_neg fun h => hac h.1, hfree]
        exact ih hs

/-- From an environment that does not see the name there, the same is found as before. -/
theorem Chain.findSome?_bind_of_not_sees (hb : h.Chain b l) (hc : h.get? c = some (.environment e)) (ht : e.bindings.Valid)
    (hs : ¬h.Sees name b c) :
    l.findSome? ((h.update c (Object.bind name v)).ownValue? name) = l.findSome? (h.ownValue? name) := by
  induction hb with
  | outermost he hnone =>
    rw [List.findSome?_cons, List.findSome?_cons, ownValue?_bind hc ht, if_neg fun h => hs ((sees_iff he).2 (.inl h.1))]
    rfl
  | inside he hparent _ ih =>
    rw [List.findSome?_cons, List.findSome?_cons, ownValue?_bind hc ht, if_neg fun h => hs ((sees_iff he).2 (.inl h.1))]
    split
    · rfl
    · rename_i hfree
      exact ih fun hs' => hs ((sees_iff he).2 (.inr ⟨hfree, _, hparent, hs'⟩))

/-- Whoever sees a binding of an environment is an environment. -/
theorem Sees.environment (hs : h.Sees x b c) (hc : h.get? c = some (.environment e)) : ∃ e', h.get? b = some (.environment e') := by
  cases hs with
  | here => exact ⟨e, hc⟩
  | up he _ _ _ => exact ⟨_, he⟩

/-- A heap after a name got a value in an environment. The name is found with this value from the environments as asked, and what is
found is the same from others and by other names. The environment has its other names as before, no other object changed, and all
environments still have their chains. -/
structure Rebinds (h : Heap) (c : Handle) (name : String) (v : Value) (finds : Handle → Prop) (h' : Heap) : Prop where
  found : ∀ b, finds b → h'.lookup b name = .ok (some v)
  unchanged : ∀ b e x, h.get? b = some (.environment e) → ¬(x = name ∧ finds b) → h'.lookup b x = h.lookup b x
  environment : ∃ e e', h.get? c = some (.environment e) ∧ h'.get? c = some (.environment e') ∧ e'.parent = e.parent ∧
    e'.bindings.get? name = some v ∧ ∀ x, x ≠ name → e'.bindings.get? x = e.bindings.get? x
  others : ∀ d, d ≠ c → h'.get? d = h.get? d
  rest : { h' with slots := h.slots } = h
  chained : h'.Chained

/-- Binding a name in an environment changes what the environments see that find the name there, and nothing else. -/
theorem rebinds_bind (hh : h.Chained) (hc : h.get? c = some (.environment e)) (name : String) (v : Value) :
    h.Rebinds c name v (h.Sees name · c) (h.update c (Object.bind name v)) := by
  have ht := hh.tables c e hc
  refine ⟨fun b hs => ?_, fun b e' x he' hother => ?_, ?_, fun d hd => ?_, rfl, hh.bind c name v⟩
  · obtain ⟨e', he'⟩ := hs.environment hc
    obtain ⟨l, hb⟩ := hh.chains b e' he'
    rw [(hb.bind c name v).lookup, hb.findSome?_bind_of_sees hc ht hs]
  · obtain ⟨l, hb⟩ := hh.chains b e' he'
    rw [(hb.bind c name v).lookup, hb.lookup]
    by_cases hx : x = name
    · subst hx
      rw [hb.findSome?_bind_of_not_sees hc ht fun hs => hother ⟨rfl, hs⟩]
    · have hown : (h.update c (Object.bind name v)).ownValue? x = h.ownValue? x := by
        funext d
        rw [ownValue?_bind hc ht, if_neg fun h => hx h.2.symm]
      rw [hown]
  · refine ⟨e, _, hc, get?_bind_of_environment hc, ?_⟩
    rw [if_pos rfl]
    refine ⟨rfl, ?_, fun x hx => ?_⟩
    · rw [ht.get?_insert, if_pos (beq_self_eq_true name)]
    · rw [ht.get?_insert, if_neg (by simpa using Ne.symm hx)]
  · rw [get?_update, if_neg hd]

/-- A name that is bound there is seen there by those alone whose nearest binding it is. -/
theorem nearest_iff_sees (hbound : (h.ownValue? x c).isSome) : h.Nearest x b c ↔ h.Sees x b c :=
  ⟨fun hn => hn.1, fun hs => ⟨hs, hbound⟩⟩

/-- Assigning a name binds it in its owner. -/
theorem assign_of_owner (howner : h.owner a name = .ok (some c)) :
    HeapM.assign a name v h = .ok () (h.update c (Object.bind name v)) := by
  rw [HeapM.assign, HeapM.read_bind howner]
  rfl

/-- Assigning a name without an owner fails and leaves the heap. -/
theorem assign_of_no_owner (howner : h.owner a name = .ok none) : HeapM.assign a name v h = .error (.undefinedName name) h := by
  rw [HeapM.assign, HeapM.read_bind howner]
  rfl

/-- Defining a name binds it in the environment itself. -/
theorem define_of_environment (ha : h.get? a = some (.environment e)) :
    HeapM.define a name v h = .ok () (h.update a (Object.bind name v)) := by
  rw [HeapM.define, HeapM.read_bind (environment_of_get? ha)]
  rfl

/-- A name has a nearest binding, which is found, or none, and then nothing is found. -/
theorem Chain.nearest_or_none (hc : h.Chain a l) (x : String) :
    (∃ c, h.owner a x = .ok (some c) ∧ (∀ d, h.Nearest x a d ↔ d = c) ∧ ∃ w, h.lookup a x = .ok (some w)) ∨
      (h.owner a x = .ok none ∧ h.lookup a x = .ok none) := by
  rw [hc.owner, hc.lookup, ← bind_find?_isSome]
  cases hfind : l.find? fun b => (h.ownValue? x b).isSome with
  | none => exact .inr ⟨rfl, rfl⟩
  | some c =>
    refine .inl ⟨c, rfl, fun d => ?_, ?_⟩
    · rw [hc.nearest_iff, hfind, Option.some_inj, eq_comm]
    · have hbound : (h.ownValue? x c).isSome := List.find?_some (p := fun b => (h.ownValue? x b).isSome) hfind
      obtain ⟨w, hw⟩ := Option.isSome_iff_exists.1 hbound
      exact ⟨w, congrArg _ hw⟩

/-- An assignment of a name that is found binds it where it is found. -/
theorem Chained.rebinds_of_nearest (hh : h.Chained) (ha : h.get? a = some (.environment e)) (hc : h.Nearest name a c) (v : Value) :
    h.Rebinds c name v (h.Nearest name · c) (h.update c (Object.bind name v)) := by
  obtain ⟨l, hchain⟩ := hh.chains a e ha
  obtain ⟨e', he'⟩ := hchain.live (List.mem_of_find?_eq_some (hchain.nearest_iff.1 hc))
  simp only [nearest_iff_sees hc.2]
  exact rebinds_bind hh he' name v

/-- In a heap whose environments have chains, to assign a name succeeds just if it is found, and otherwise fails without a change.
An assignment binds the name in the nearest environment that binds it, and a definition in the environment itself: it is then found
with the new value from where it is found there, and no other name, environment or object changes. The heap is again one whose
environments have chains, so this goes for any sequence of definitions and assignments. -/
theorem bindings_change_one (hh : h.Chained) (ha : h.get? a = some (.environment e)) (name : String) (v : Value) :
    ((∃ h', HeapM.assign a name v h = .ok () h') ↔ ∃ w, h.lookup a name = .ok (some w)) ∧
    ((¬∃ w, h.lookup a name = .ok (some w)) →
      h.lookup a name = .ok none ∧ HeapM.assign a name v h = .error (.undefinedName name) h) ∧
    (∀ h', HeapM.assign a name v h = .ok () h' →
      ∃ c, (∀ d, h.Nearest name a d ↔ d = c) ∧ h.Rebinds c name v (h.Nearest name · c) h') ∧
    ∃ h', HeapM.define a name v h = .ok () h' ∧ h.Rebinds a name v (h.Sees name · a) h' := by
  obtain ⟨l, hchain⟩ := hh.chains a e ha
  have hdefine := rebinds_bind hh ha name v
  rcases hchain.nearest_or_none name with ⟨c, howner, hnearest, w, hlookup⟩ | ⟨howner, hlookup⟩
  · rw [assign_of_owner howner, hlookup]
    refine ⟨iff_of_true ⟨_, rfl⟩ ⟨w, rfl⟩, fun hnone => absurd ⟨w, rfl⟩ hnone, ?_, _, define_of_environment ha, hdefine⟩
    rintro h' ⟨rfl⟩
    exact ⟨c, hnearest, hh.rebinds_of_nearest ha ((hnearest c).2 rfl) v⟩
  · rw [assign_of_no_owner howner, hlookup]
    refine ⟨iff_of_false ?_ ?_, fun _ => ⟨rfl, rfl⟩, ?_, _, define_of_environment ha, hdefine⟩
    · rintro ⟨h', hok⟩
      cases hok
    · rintro ⟨w, hsome⟩
      cases hsome
    · intro h' hok
      cases hok

/-- An environment that binds one name. -/
def singleScope (v : Value) (parent : Option Handle) : Environment := ⟨Table.empty.insert "x" v, parent⟩

/-- An environment that binds a name, one inside it that binds the same name, and one inside the second that binds none. -/
def scopesSample : Heap where
  slots := #[⟨0, false, some (.environment (singleScope (.int 1) none))⟩,
    ⟨0, false, some (.environment (singleScope (.int 2) (some ⟨0, 0⟩)))⟩,
    ⟨0, false, some (.environment { parent := some ⟨1, 0⟩ })⟩]
  live := 3
  recent := 3
  threshold := 0
  limit := none

/-- The sample heap has three environments: two that bind the name, the second inside the first, and an empty one inside the
second. -/
theorem environment_of_scopesSample (he : scopesSample.get? a = some (.environment e)) :
    e = singleScope (.int 1) none ∨ e = singleScope (.int 2) (some ⟨0, 0⟩) ∨ e = { parent := some ⟨1, 0⟩ } := by
  obtain ⟨s, hs, -, ho⟩ := get?_eq_some.1 he
  have hmem := Array.mem_of_getElem? hs
  simp only [scopesSample, List.mem_toArray, List.mem_cons, List.not_mem_nil, or_false] at hmem
  rcases hmem with rfl | rfl | rfl <;> cases ho <;> simp

/-- Every chain of the sample heap ends. -/
theorem chained_scopesSample : scopesSample.Chained := by
  have houter : scopesSample.Chain ⟨0, 0⟩ [⟨0, 0⟩] := .outermost rfl rfl
  have hmiddle : scopesSample.Chain ⟨1, 0⟩ [⟨1, 0⟩, ⟨0, 0⟩] := .inside rfl rfl houter
  refine ⟨fun a e he => ?_, fun a e he => ?_⟩
  · rcases environment_of_scopesSample he with rfl | rfl | rfl
    · exact ⟨_, .outermost he rfl⟩
    · exact ⟨_, .inside he rfl houter⟩
    · exact ⟨_, .inside he rfl hmiddle⟩
  · have hempty : (Table.empty : Table String Value).Valid := Table.valid_withChains _
    rcases environment_of_scopesSample he with rfl | rfl | rfl
    · exact hempty.insert
    · exact hempty.insert
    · exact hempty

/-- From the innermost environment the assignment is made in the one around it, and the outermost keeps its own binding. -/
theorem bindings_change_one_scopesSample : scopesSample.Chained ∧
    scopesSample.get? ⟨2, 0⟩ = some (.environment { parent := some ⟨1, 0⟩ }) ∧
    ∃ h', HeapM.assign ⟨2, 0⟩ "x" (.int 3) scopesSample = .ok () h' ∧ h'.lookup ⟨1, 0⟩ "x" = .ok (some (.int 3)) ∧
      h'.lookup ⟨0, 0⟩ "x" = .ok (some (.int 1)) := by
  have hbound (v : Value) (parent : Option Handle) : (singleScope v parent).bindings.get? "x" = some v :=
    (Table.valid_withChains _).get?_insert ..
  have hinner : scopesSample.ownValue? "x" ⟨2, 0⟩ = none := Table.get?_withChains _
  have hmiddle : scopesSample.ownValue? "x" ⟨1, 0⟩ = some (.int 2) := hbound ..
  have hfound : scopesSample.lookup ⟨2, 0⟩ "x" = .ok (some (.int 2)) := by
    rw [Chain.lookup (.inside rfl rfl (.inside rfl rfl (.outermost rfl rfl)))]
    rw [List.findSome?_cons, hinner, List.findSome?_cons, hmiddle]
  have hnearest (b : Handle) (hs : scopesSample.Sees "x" b ⟨1, 0⟩) : scopesSample.Nearest "x" b ⟨1, 0⟩ :=
    ⟨hs, by rw [hmiddle]; rfl⟩
  obtain ⟨hassign, -, hchanged, -⟩ :=
    bindings_change_one chained_scopesSample (a := ⟨2, 0⟩) (e := { parent := some ⟨1, 0⟩ }) rfl "x" (.int 3)
  obtain ⟨h', hok⟩ := hassign.2 ⟨_, hfound⟩
  obtain ⟨c, hc, hrebinds⟩ := hchanged h' hok
  obtain rfl := (hc ⟨1, 0⟩).1 (hnearest _ ((sees_iff rfl).2 (.inr ⟨hinner, _, rfl, .here⟩)))
  refine ⟨chained_scopesSample, rfl, h', hok, hrebinds.found _ (hnearest _ .here), ?_⟩
  rw [hrebinds.unchanged ⟨0, 0⟩ _ "x" rfl]
  · exact lookup_of_bound rfl (hbound ..)
  · rintro ⟨-, hs, -⟩
    rcases (sees_iff rfl).1 hs with heq | ⟨-, b, hparent, -⟩
    · cases heq
    · cases hparent

end Heap

end ScriptVM
