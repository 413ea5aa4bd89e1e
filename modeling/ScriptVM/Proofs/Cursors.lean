import ScriptVM.Proofs.Tables
import ScriptVM.Proofs.Walks

/-!
# Cursors over tables that change

A cursor goes over a table step by step. Between two steps the value of a key may be changed where it stands, and a key that the table
has may be given a new value. The pass visits every key once, in the order in which the table listed its keys when the pass began, and
shows each key with the value that it has by then (`Table.pass_survives_changes`).

A cursor is a place in the table, and such changes leave every key at its place: the keys of all chains (`Table.layout`) are what they
were. So the keys that a cursor has before it are read off the layout alone (`Table.keys_rest`).
-/

namespace ScriptVM.Table

variable {κ ν : Type}

/-! ## Passes -/

/-- What may happen during a pass: a step of the cursor, a change of a value where it stands, and a new value for a key. -/
inductive Event (κ ν : Type) where
  | step
  | update (key : κ) (f : ν → ν)
  | insert (key : κ) (value : ν)

/-- Whether an event is a step of the cursor. -/
def Event.isStep : Event κ ν → Bool
  | step => true
  | _ => false

/-- The values of the keys after an event. -/
def Event.onValues [BEq κ] : Event κ ν → (κ → Option ν) → κ → Option ν
  | step, values => values
  | update k f, values => fun j => if k == j then (values j).map f else values j
  | insert k v, values => fun j => if k == j then some v else values j

/-- A table and a cursor that goes over it. -/
structure Pass (κ ν : Type) where
  table : Table κ ν
  cursor : Cursor := {}

namespace Pass

variable [BEq κ] [Hashable κ]

/-- The pass after an event. -/
def after (p : Pass κ ν) : Event κ ν → Pass κ ν
  | .step => { p with cursor := (p.table.next p.cursor).2 }
  | .update k f => { p with table := p.table.modify k f }
  | .insert k v => { p with table := p.table.insert k v }

/-- The pass after a list of events. -/
def afterAll (p : Pass κ ν) (events : List (Event κ ν)) : Pass κ ν := events.foldl after p

/-- What the steps among a list of events yield, each an entry or nothing. -/
def yields (p : Pass κ ν) : List (Event κ ν) → List (Option (κ × ν))
  | [] => []
  | .step :: events => (p.table.next p.cursor).1 :: (p.after .step).yields events
  | e :: events => (p.after e).yields events

end Pass

/-- What a pass has to yield: one key after the other with the value that it has by then, and nothing behind the last key. -/
def visits [BEq κ] (keys : List κ) (values : κ → Option ν) : List (Event κ ν) → List (Option (κ × ν))
  | [] => []
  | .step :: events => (keys.head?.bind fun k => (values k).map (k, ·)) :: visits keys.tail values events
  | e :: events => visits keys (e.onValues values) events

/-- If every key has a value, then none is left out. -/
theorem keys_visits [BEq κ] {keys : List κ} {values : κ → Option ν} (events : List (Event κ ν))
    (hvalues : ∀ k ∈ keys, (values k).isSome) :
    (visits keys values events).map (Option.map Prod.fst) =
      (List.range (events.countP Event.isStep)).map fun i => keys[i]? := by
  induction events generalizing keys values with
  | nil => rfl
  | cons e events ih =>
    cases e with
    | step =>
      have hcount : (Event.step :: events).countP Event.isStep = events.countP Event.isStep + 1 := List.countP_cons_of_pos rfl
      have hrest := ih fun k hk => hvalues k (List.mem_of_mem_tail hk)
      have hhead : (keys.head?.bind fun k => (values k).map (k, ·)).map Prod.fst = keys[0]? := by
        cases keys with
        | nil => rfl
        | cons k keys =>
          obtain ⟨v, hv⟩ := Option.isSome_iff_exists.1 (hvalues k List.mem_cons_self)
          simp [hv]
      rw [visits, List.map_cons, hrest, hhead, hcount, List.range_succ_eq_map, List.map_cons, List.map_map]
      refine congrArg _ (List.map_congr_left fun i _ => ?_)
      rw [Function.comp_apply, List.getElem?_tail]
    | update k f =>
      refine ih fun j hj => ?_
      have hsome := hvalues j hj
      simp only [Event.onValues]
      split
      · rwa [Option.isSome_map]
      · exact hsome
    | insert k v =>
      refine ih fun j hj => ?_
      simp only [Event.onValues]
      split
      · rfl
      · exact hvalues j hj

/-! ## Keys at their places -/

variable {t u : Table κ ν} {k : κ}

/-- The keys of each chain. -/
def layout (t : Table κ ν) : List (List κ) := t.chains.toList.map (·.map Prod.fst)

/-- The keys of a table are those of its chains, one chain behind the other. -/
theorem keys_eq_flatten_layout (t : Table κ ν) : t.keys = t.layout.flatten := by
  simp [keys, toList, layout, List.map_flatten]

/-- The keys from a cursor on, by the layout alone. -/
theorem keys_rest (t : Table κ ν) (c : Cursor) : (t.rest c).map Prod.fst =
    ((t.layout[c.chain]?).getD []).drop c.depth ++ (t.layout.drop (c.chain + 1)).flatten := by
  have hchain : ((t.chains[c.chain]?).getD []).map Prod.fst = (t.layout[c.chain]?).getD [] := by
    rw [layout, List.getElem?_map, Array.getElem?_toList]
    cases t.chains[c.chain]? <;> rfl
  rw [rest, List.map_append, List.map_drop, hchain, List.map_flatten, layout, List.map_drop]

/-- What a cursor has before it is in the table. -/
theorem mem_toList_of_mem_rest {c : Cursor} {entry : κ × ν} (h : entry ∈ t.rest c) : entry ∈ t.toList := by
  rw [toList, List.mem_flatten]
  rcases List.mem_append.1 h with h | h
  · have hchain := List.mem_of_mem_drop h
    cases hc : t.chains[c.chain]? with
    | none =>
      rw [hc] at hchain
      exact absurd hchain List.not_mem_nil
    | some chain =>
      rw [hc] at hchain
      exact ⟨chain, Array.mem_toList_iff.2 (Array.mem_of_getElem? hc), hchain⟩
  · obtain ⟨chain, hchain, hentry⟩ := List.mem_flatten.1 h
    exact ⟨chain, List.mem_of_mem_drop hchain, hentry⟩

section Changes

variable [BEq κ] [Hashable κ]

/-- Changing a value leaves all keys at their places. -/
theorem layout_modify (t : Table κ ν) (k : κ) (f : ν → ν) : (t.modify k f).layout = t.layout := by
  refine List.ext_getElem? fun i => ?_
  simp only [layout, modify, modifyChain, List.getElem?_map, Array.getElem?_toList, Array.getElem?_modify]
  split
  · rename_i hi
    subst hi
    rw [getElem?_slot, Option.map_some, Option.map_some, Option.map_some, keys_chainModify]
  · rfl

/-- Giving a key of the table a new value changes the value where it stands. -/
theorem insert_of_contains (hk : t.contains k = true) (v : ν) : t.insert k v = t.modify k fun _ => v := if_pos hk

/-! ## What a pass keeps -/

/-- A pass that has made `i` steps over a table: the keys are where they were, those that are left are the keys behind the first `i`,
and each key has its value. -/
structure Pass.At (t : Table κ ν) (values : κ → Option ν) (i : Nat) (p : Pass κ ν) : Prop where
  valid : p.table.Valid
  layout : p.table.layout = t.layout
  ahead : (p.table.rest p.cursor).map Prod.fst = t.keys.drop i
  current : ∀ k, p.table.get? k = values k

namespace Pass

variable {values : κ → Option ν} {i : Nat} {p : Pass κ ν} {e : Event κ ν} {events : List (Event κ ν)}

/-- A pass begins with no step made and with the values of the table. -/
theorem at_start (ht : t.Valid) : At t t.get? 0 { table := t } :=
  ⟨ht, rfl, by rw [rest_start, List.drop_zero, keys], fun _ => rfl⟩

/-- A change of the table that leaves the keys at their places leaves the cursor where it is. -/
theorem At.change (hp : p.At t values i) {u : Table κ ν} {values' : κ → Option ν} (hu : u.Valid) (hlayout : u.layout = p.table.layout)
    (hvalues : ∀ k, u.get? k = values' k) : At t values' i { p with table := u } := by
  refine ⟨hu, hlayout.trans hp.layout, ?_, hvalues⟩
  rw [keys_rest, hlayout, ← keys_rest]
  exact hp.ahead

end Pass

variable [EquivBEq κ] [LawfulHashable κ]

/-- A table contains a key just if one of its keys equals it. -/
theorem Valid.contains_iff (ht : t.Valid) : t.contains k = true ↔ ∃ i ∈ t.keys, (i == k) = true := by
  rw [contains, Option.isSome_iff_exists]
  constructor
  · rintro ⟨v, hv⟩
    obtain ⟨i, hik, hi⟩ := ht.get?_eq_some_iff.1 hv
    exact ⟨i, List.mem_map_of_mem hi, hik⟩
  · rintro ⟨i, hi, hik⟩
    obtain ⟨⟨j, v⟩, hp, rfl⟩ := List.mem_map.1 hi
    exact ⟨v, ht.get?_eq_some_iff.2 ⟨j, hik, hp⟩⟩

/-- Tables with the same keys at the same places have the same keys. -/
theorem Valid.contains_congr (ht : t.Valid) (hu : u.Valid) (hlayout : u.layout = t.layout) (hk : t.contains k = true) :
    u.contains k = true := by
  rw [hu.contains_iff, keys_eq_flatten_layout, hlayout, ← keys_eq_flatten_layout]
  exact ht.contains_iff.1 hk

namespace Pass

variable {values : κ → Option ν} {i : Nat} {p : Pass κ ν} {e : Event κ ν} {events : List (Event κ ν)}

/-- One event keeps a pass in step: a step takes one key more, and a change shows in the values. -/
theorem At.after (ht : t.Valid) (hp : p.At t values i) (he : ∀ k v, e = .insert k v → t.contains k = true) :
    At t (e.onValues values) (i + if e.isStep then 1 else 0) (p.after e) := by
  cases e with
  | step =>
    refine ⟨hp.valid, hp.layout, ?_, hp.current⟩
    change (p.table.rest (p.table.next p.cursor).2).map Prod.fst = t.keys.drop (i + 1)
    rw [(p.table.next_eq_head? p.cursor).2, List.map_tail, hp.ahead, List.tail_drop]
  | update k f =>
    refine hp.change hp.valid.modify (layout_modify _ _ _) fun j => ?_
    rw [get?_modify, hp.current]
    rfl
  | insert k v =>
    have hk := ht.contains_congr hp.valid hp.layout (he k v rfl)
    refine hp.change hp.valid.insert ?_ fun j => ?_
    · rw [insert_of_contains hk, layout_modify]
    · rw [hp.valid.get?_insert, hp.current]
      rfl

/-- A step yields the next key with its value, or nothing behind the last key. -/
theorem At.next (hp : p.At t values i) :
    (p.table.next p.cursor).1 = (t.keys[i]?.bind fun k => (values k).map (k, ·)) ∧
      (p.table.next p.cursor).1.map Prod.fst = t.keys[i]? := by
  have hkey : (p.table.rest p.cursor).head?.map Prod.fst = t.keys[i]? := by
    rw [← List.head?_map, hp.ahead, List.head?_drop]
  rw [(p.table.next_eq_head? p.cursor).1]
  refine ⟨?_, hkey⟩
  rw [← hkey]
  cases hrest : p.table.rest p.cursor with
  | nil => rfl
  | cons entry rest =>
    -- The entry is one of the table, so its value is what the table answers for its key.
    have hmem : entry ∈ p.table.toList := mem_toList_of_mem_rest (hrest ▸ List.mem_cons_self)
    have hvalue : p.table.get? entry.1 = some entry.2 := hp.valid.get?_eq_some_iff.2 ⟨entry.1, BEq.rfl, hmem⟩
    simp [← hp.current, hvalue]

/-- After any events a pass is as many keys further as there were steps. -/
theorem At.afterAll (ht : t.Valid) (hp : p.At t values i) (he : ∀ k v, .insert k v ∈ events → t.contains k = true) :
    ∃ values', At t values' (i + events.countP Event.isStep) (p.afterAll events) := by
  induction events generalizing p values i with
  | nil => exact ⟨values, hp⟩
  | cons e events ih =>
    have hafter := hp.after ht fun k v hkv => he k v (hkv ▸ List.mem_cons_self)
    obtain ⟨values', h⟩ := ih hafter fun k v hkv => he k v (List.mem_cons_of_mem _ hkv)
    refine ⟨values', ?_⟩
    rwa [List.countP_cons, Nat.add_comm (events.countP _), ← Nat.add_assoc]

/-- The steps yield the keys that are left, each with the value that it has by then. -/
theorem At.yields (ht : t.Valid) (hp : p.At t values i) (he : ∀ k v, .insert k v ∈ events → t.contains k = true) :
    p.yields events = visits (t.keys.drop i) values events := by
  induction events generalizing p values i with
  | nil => rfl
  | cons e events ih =>
    have hafter := hp.after ht fun k v hkv => he k v (hkv ▸ List.mem_cons_self)
    have hrest := ih hafter fun k v hkv => he k v (List.mem_cons_of_mem _ hkv)
    cases e with
    | step =>
      rw [Pass.yields, visits, hp.next.1, hrest, List.head?_drop, List.tail_drop]
      rfl
    | update k f => exact hrest
    | insert k v => exact hrest

end Pass

/-! ## A pass to the end -/

/-- A pass over a table, with values changed and keys given new values on the way, yields every key of the table once, in the order of
the table at the start, each with the value that it has by then, and nothing behind the last. At any time the keys are in that order,
and the look ahead says whether the next step yields. -/
theorem pass_survives_changes (ht : t.Valid) {events : List (Event κ ν)}
    (hevents : ∀ k v, .insert k v ∈ events → t.contains k = true) :
    t.keys.Pairwise (fun i j => (i == j) = false) ∧
    Pass.yields { table := t } events = visits t.keys t.get? events ∧
    (Pass.yields { table := t } events).map (Option.map Prod.fst) =
      (List.range (events.countP Event.isStep)).map (fun i => t.keys[i]?) ∧
    ∀ before, before <+: events → ∃ p, Pass.afterAll { table := t } before = p ∧ p.table.keys = t.keys ∧
      p.table.hasNext p.cursor = decide (before.countP Event.isStep < t.keys.length) ∧
      (p.table.next p.cursor).1.isSome = p.table.hasNext p.cursor := by
  have hstart := Pass.at_start ht
  refine ⟨distinct_iff_keys.1 ht.distinct_toList, hstart.yields ht hevents, ?_, fun before hbefore => ?_⟩
  · rw [hstart.yields ht hevents, List.drop_zero]
    exact keys_visits events fun k hk => ht.contains_iff.2 ⟨k, hk, BEq.rfl⟩
  · obtain ⟨values, h⟩ := hstart.afterAll ht fun k v hkv => hevents k v (hbefore.subset hkv)
    rw [Nat.zero_add] at h
    refine ⟨_, rfl, ?_, ?_, rfl⟩
    · rw [keys_eq_flatten_layout, h.layout, ← keys_eq_flatten_layout]
    · have hkey := congrArg Option.isSome h.next.2
      rw [Option.isSome_map] at hkey
      rw [hasNext, hkey]
      by_cases hleft : before.countP Event.isStep < t.keys.length
      · rw [List.getElem?_eq_getElem hleft, decide_eq_true hleft, Option.isSome_some]
      · rw [List.getElem?_eq_none (Nat.not_lt.1 hleft), decide_eq_false hleft, Option.isSome_none]

end Changes

/-- A table of three keys, two of them in one chain. -/
def passSample : Table Nat Nat := ((empty.insert 1 10).insert 9 20).insert 2 30

/-- A pass over it: a key that was visited and one that was not are changed, and one is given a new value. -/
def passEvents : List (Event Nat Nat) :=
  [.step, .update 9 (· + 1), .update 1 (· + 5), .insert 2 7, .step, .step, .insert 1 0, .step]

/-- The sample pass visits all three keys in order, two of them with the values given on the way. -/
theorem pass_survives_changes_chainSample : passSample.Valid ∧ (∀ k v, .insert k v ∈ passEvents → passSample.contains k = true) ∧
    passSample.keys = [9, 1, 2] ∧
    Pass.yields { table := passSample } passEvents = [some (9, 20), some (1, 15), some (2, 7), none] := by
  have hvalid : passSample.Valid := (valid_withChains initialChains).insert.insert.insert
  have hevents : ∀ k v, .insert k v ∈ passEvents → passSample.contains k = true := by
    intro k v h
    simp only [passEvents, List.mem_cons, List.not_mem_nil, or_false, reduceCtorEq, false_or, Event.insert.injEq] at h
    rcases h with ⟨rfl, -⟩ | ⟨rfl, -⟩ <;> decide
  obtain ⟨-, hyields, -⟩ := pass_survives_changes hvalid hevents
  exact ⟨hvalid, hevents, by decide, hyields.trans (by decide)⟩

end ScriptVM.Table
