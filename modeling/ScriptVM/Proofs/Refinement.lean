import ScriptVM.Proofs.Tables

/-!
# Tables refine maps

Many tables are made, copied and used side by side, and what they answer is what maps answer that are made, copied and used in the
same way (`Table.serveAll_refines`). A table that was made in this way lists every entry of its map once, in the chain of its key,
and has at most three quarters of an entry per chain. The number of its chains is changed by an insertion of a new key that would
break this bound, which doubles it, and by a clearing.

The proof keeps one invariant, `Table.Sound`, operation by operation, and with it one equation for what is found afterwards.
-/

namespace ScriptVM

namespace Table

variable {κ ν : Type} {t : Table κ ν} {k : κ} {v : ν}

/-! ## Requests -/

/-- What a map is asked to do. An update changes the value of a key where it stands. -/
inductive Operation (κ ν : Type) where
  | insert (key : κ) (value : ν)
  | get (key : κ)
  | update (key : κ) (f : ν → ν)
  | contains (key : κ)
  | remove (key : κ)
  | clear

/-- What a map answers. -/
inductive Answer (ν : Type) where
  | value (v : Option ν)
  | holds (b : Bool)
  | done

/-- What may be asked where there are many maps, which have numbers in the order in which they were made. -/
inductive Request (κ ν : Type) where
  | create (count : Option Nat)
  | collect (entries : List (κ × ν))
  | clone (i : Nat)
  | on (i : Nat) (op : Operation κ ν)

/-- How what stands for a map is made and used. -/
structure Service (σ κ ν : Type) where
  create : Option Nat → σ
  collect : List (κ × ν) → σ
  perform : Operation κ ν → σ → Answer ν × σ

section Serving

variable {σ : Type}

/-- The answer to a request, and what stands for the maps afterwards. -/
def serve (service : Service σ κ ν) : Request κ ν → List σ → Option (Answer ν) × List σ
  | .create count, pool => (none, pool ++ [service.create count])
  | .collect entries, pool => (none, pool ++ [service.collect entries])
  | .clone i, pool => (none, pool ++ pool[i]?.toList)
  | .on i op, pool =>
    match pool[i]? with
    | some s => (some (service.perform op s).1, pool.set i (service.perform op s).2)
    | none => (none, pool)

/-- The answers to a list of requests, and what stands for the maps afterwards. -/
def serveAll (service : Service σ κ ν) : List (Request κ ν) → List σ → List (Option (Answer ν)) × List σ
  | [], pool => ([], pool)
  | r :: rs, pool =>
    let first := serve service r pool
    let rest := serveAll service rs first.2
    (first.1 :: rest.1, rest.2)

/-- Requests in sequence are served one after the other. -/
theorem serveAll_append {service : Service σ κ ν} {rs more : List (Request κ ν)} {pool : List σ} :
    (serveAll service (rs ++ more) pool).2 = (serveAll service more (serveAll service rs pool).2).2 := by
  induction rs generalizing pool with
  | nil => rfl
  | cons q rs ih => exact ih

end Serving

section Services

variable [BEq κ]

/-- A map, as the value that it has for each key. -/
abbrev Contents (κ ν : Type) := κ → Option ν

/-- An operation on a map. -/
def Operation.onContents : Operation κ ν → Contents κ ν → Answer ν × Contents κ ν
  | .insert k v, m => (.value (m k), fun j => if k == j then some v else m j)
  | .get k, m => (.value (m k), m)
  | .update k f, m => (.value (m k), fun j => if k == j then (m j).map f else m j)
  | .contains k, m => (.holds (m k).isSome, m)
  | .remove k, m => (.value (m k), fun j => if k == j then none else m j)
  | .clear, _ => (.done, fun _ => none)

/-- Maps: a new one is empty, and of collected entries the last one of a key counts. -/
def contents : Service (Contents κ ν) κ ν where
  create _ := fun _ => none
  collect entries := fun k => (entries.reverse.find? (·.1 == k)).map Prod.snd
  perform := Operation.onContents

variable [Hashable κ]

/-- An operation on a table. -/
def Operation.onTable : Operation κ ν → Table κ ν → Answer ν × Table κ ν
  | .insert k v, t => (.value (t.exchange k v).1, (t.exchange k v).2)
  | .get k, t => (.value (t.get? k), t)
  | .update k f, t => (.value (t.get? k), t.modify k f)
  | .contains k, t => (.holds (t.contains k), t)
  | .remove k, t => (.value (t.take k).1, (t.take k).2)
  | .clear, t => (.done, t.clear)

/-- Tables: a new one has a number of chains that is asked for, or eight. -/
def tables : Service (Table κ ν) κ ν where
  create count := count.elim empty withChains
  collect := ofList
  perform := Operation.onTable

/-- The number of chains behind an operation. -/
def Operation.chainsAfter (t : Table κ ν) : Operation κ ν → Nat
  | .insert k _ => if t.contains k = false ∧ t.chainCount * 3 < (t.size + 1) * 4 then t.chainCount * 2 else t.chainCount
  | .clear => 8
  | _ => t.chainCount

/-- The number of chains of a table behind a request, which is an operation on this table or leaves it alone. -/
def Request.chainsAfter (t : Table κ ν) (i : Nat) : Request κ ν → Nat
  | .on n op => if n = i then op.chainsAfter t else t.chainCount
  | _ => t.chainCount

/-- A table answers like a map, lists the value of each key once and behind no other key, has every entry in the chain of its key,
counts its keys, and is not too full. -/
structure Represents (t : Table κ ν) (m : Contents κ ν) : Prop where
  answers : ∀ k, t.get? k = m k
  listed : ∀ k, (t.toList.filter (·.1 == k)).map Prod.snd = (m k).toList
  placed : ∀ (i : Nat) (c : List (κ × ν)), t.chains[i]? = some c → ∀ p ∈ c, (hash p.1).toNat % t.chainCount = i
  distinct : t.keys.Pairwise fun i j => (i == j) = false
  walks : t.keys.zip t.values = t.toList
  counted : t.size = t.keys.length
  load : t.size * 4 ≤ t.chainCount * 3

end Services

/-! ## Entries and chains -/

section Counting

/-- Changing a chain leaves the number of chains. -/
theorem chainCount_modifyChain {i : Nat} {f : List (κ × ν) → List (κ × ν)} : (t.modifyChain i f).chainCount = t.chainCount := by
  simp [chainCount, modifyChain]

/-- A new table has the chains asked for, but at least one. -/
theorem chainCount_withChains (count : Nat) : (withChains count : Table κ ν).chainCount = max count 1 := Array.size_replicate

variable [Hashable κ]

/-- Changing the chain of a key changes one part of the list of the entries. -/
theorem toList_modifyChain (t : Table κ ν) (k : κ) : ∃ before after, t.toList = before ++ t.chainOf k ++ after ∧
    ∀ f, (t.modifyChain (t.slot k) f).toList = before ++ f (t.chainOf k) ++ after := by
  have hlt : t.slot k < t.chains.toList.length := t.slot_lt k
  have hchain : t.chains.toList[t.slot k] = t.chainOf k := rfl
  refine ⟨(t.chains.toList.take (t.slot k)).flatten, (t.chains.toList.drop (t.slot k + 1)).flatten, ?_, fun f => ?_⟩
  · conv_lhs => rw [toList, ← List.take_append_drop (t.slot k) t.chains.toList, List.drop_eq_getElem_cons hlt]
    rw [List.flatten_append, List.flatten_cons, hchain, List.append_assoc]
  · rw [toList, modifyChain, Array.toList_modify, List.modify_eq_take_cons_drop hlt]
    rw [List.flatten_append, List.flatten_cons, hchain, List.append_assoc]

/-- A push adds one entry to those listed. -/
theorem length_push {p : κ × ν} : (t.push p).toList.length = t.toList.length + 1 := by
  obtain ⟨before, after, hlist, hpush⟩ := t.toList_modifyChain p.1
  rw [push, hpush, hlist]
  simp only [List.length_append, List.length_cons]
  omega

/-- Pushes leave the counter and the chains, and add one entry each to those listed. -/
theorem foldl_push_counts (l : List (κ × ν)) (t : Table κ ν) : (l.foldl push t).size = t.size ∧
    (l.foldl push t).chainCount = t.chainCount ∧ (l.foldl push t).toList.length = t.toList.length + l.length := by
  induction l generalizing t with
  | nil => exact ⟨rfl, rfl, rfl⟩
  | cons p l ih =>
    obtain ⟨hsize, hchains, hlength⟩ := ih (t.push p)
    refine ⟨hsize, hchains.trans chainCount_modifyChain, hlength.trans ?_⟩
    rw [length_push, List.length_cons]
    omega

/-- Spreading over new chains leaves the counter and the number of entries. -/
theorem rehash_counts (count : Nat) : (t.rehash count).size = t.size ∧ (t.rehash count).chainCount = max count 1 ∧
    (t.rehash count).toList.length = t.toList.length := by
  obtain ⟨hsize, hchains, hlength⟩ := foldl_push_counts t.toList { (withChains count : Table κ ν) with size := t.size }
  refine ⟨hsize, hchains.trans (chainCount_withChains count), hlength.trans ?_⟩
  change (withChains count : Table κ ν).toList.length + _ = _
  rw [toList_withChains, List.length_nil, Nat.zero_add]

/-- Growing leaves counter and entries, and doubles the chains of a table that is too full. -/
theorem grow_counts : t.grow.size = t.size ∧ t.grow.toList.length = t.toList.length ∧
    t.grow.chainCount = if t.chainCount * 3 < t.size * 4 then t.chainCount * 2 else t.chainCount := by
  rw [grow]
  split
  · rename_i hfull
    obtain ⟨hsize, hchains, hlength⟩ := t.rehash_counts (t.chains.size * 2)
    refine ⟨hsize, hlength, hchains.trans ?_⟩
    have hpos := t.chains_pos
    rw [chainCount, if_pos hfull]
    omega
  · rename_i hfull
    exact ⟨rfl, rfl, (if_neg hfull).symm⟩

/-- A new key is counted and listed, and doubles the chains where the table would be too full. -/
theorem insertNew_counts : (t.insertNew k v).size = t.size + 1 ∧ (t.insertNew k v).toList.length = t.toList.length + 1 ∧
    (t.insertNew k v).chainCount = if t.chainCount * 3 < (t.size + 1) * 4 then t.chainCount * 2 else t.chainCount := by
  have hchains : (push { t with size := t.size + 1 } (k, v)).chainCount = t.chainCount := chainCount_modifyChain
  obtain ⟨hsize, hlength, hcount⟩ := (push { t with size := t.size + 1 } (k, v)).grow_counts
  refine ⟨hsize, hlength.trans length_push, hcount.trans ?_⟩
  rw [hchains]
  rfl

end Counting

/-! ## Sound tables -/

section Sound

variable [BEq κ] [Hashable κ]

/-- An insertion doubles the chains just if the key is new and the table would be too full. -/
theorem chainCount_insert : (t.insert k v).chainCount =
    if t.contains k = false ∧ t.chainCount * 3 < (t.size + 1) * 4 then t.chainCount * 2 else t.chainCount := by
  rw [Table.insert]
  cases hk : t.contains k with
  | true => exact chainCount_modifyChain
  | false =>
    simp only [Bool.false_eq_true, if_false, true_and]
    exact insertNew_counts.2.2

/-- A valid table that counts its entries and is not too full. -/
structure Sound (t : Table κ ν) : Prop where
  valid : t.Valid
  counted : t.size = t.toList.length
  load : t.size * 4 ≤ t.chainCount * 3

theorem sound_withChains (count : Nat) : (withChains count : Table κ ν).Sound := by
  refine ⟨valid_withChains count, ?_, ?_⟩
  · rw [toList_withChains]
    rfl
  · change 0 * 4 ≤ _
    omega

/-- A change of a value leaves a table sound. -/
theorem Sound.modify (ht : t.Sound) {f : ν → ν} : (t.modify k f).Sound := by
  have hchains : (t.modify k f).chainCount = t.chainCount := chainCount_modifyChain
  refine ⟨ht.valid.modify, ?_, ?_⟩
  · obtain ⟨before, after, hlist, hmodify⟩ := t.toList_modifyChain k
    have hlength : (chainModify k f (t.chainOf k)).length = (t.chainOf k).length := by
      have hkeys := congrArg List.length (keys_chainModify (k := k) (f := f) (c := t.chainOf k))
      rwa [List.length_map, List.length_map] at hkeys
    change t.size = _
    rw [ht.counted, Table.modify, hmodify, hlist]
    simp only [List.length_append, hlength]
  · rw [hchains]
    exact ht.load

/-- Removing a key leaves a table sound. -/
theorem Sound.erase (ht : t.Sound) : (t.erase k).Sound := by
  refine ⟨ht.valid.erase, ?_, ?_⟩
  · rw [Table.erase]
    split
    · rename_i hk
      obtain ⟨before, after, hlist, herase⟩ := t.toList_modifyChain k
      have hlength := length_chainErase hk
      change t.size - 1 = (t.modifyChain (t.slot k) (chainErase k)).toList.length
      rw [ht.counted, herase, hlist]
      simp only [List.length_append]
      omega
    · exact ht.counted
  · have hload := ht.load
    rw [Table.erase]
    split
    · change (t.size - 1) * 4 ≤ (t.modifyChain (t.slot k) (chainErase k)).chainCount * 3
      rw [chainCount_modifyChain]
      omega
    · exact hload

/-! ## Chains behind requests -/

variable {pool : List (Table κ ν)} {maps : List (Contents κ ν)}

/-- An operation leaves as many chains as it should. -/
theorem chainCount_perform (op : Operation κ ν) : (op.onTable t).2.chainCount = op.chainsAfter t := by
  cases op with
  | insert k v => exact chainCount_insert
  | get k => rfl
  | update k f => exact chainCount_modifyChain
  | contains k => rfl
  | remove k =>
    change (t.erase k).chainCount = t.chainCount
    rw [Table.erase]
    split
    · exact chainCount_modifyChain
    · rfl
  | clear => exact chainCount_withChains initialChains

/-- A table keeps its number, and its chains are counted as the request says. -/
theorem chainCount_serve {i : Nat} (ht : pool[i]? = some t) (r : Request κ ν) :
    ∃ t', (serve tables r pool).2[i]? = some t' ∧ t'.chainCount = r.chainsAfter t i := by
  have hlt : i < pool.length := (List.getElem?_eq_some_iff.1 ht).1
  have happend (more : List (Table κ ν)) : (pool ++ more)[i]? = some t := by rw [List.getElem?_append_left hlt, ht]
  cases r with
  | create count => exact ⟨t, happend _, rfl⟩
  | collect entries => exact ⟨t, happend _, rfl⟩
  | clone n => exact ⟨t, happend _, rfl⟩
  | on n op =>
    by_cases hn : n = i
    · subst hn
      refine ⟨(op.onTable t).2, ?_, (chainCount_perform op).trans (if_pos rfl).symm⟩
      simp only [serve, ht]
      exact List.getElem?_set_self hlt
    · refine ⟨t, ?_, (if_neg hn).symm⟩
      simp only [serve]
      split
      · rw [List.getElem?_set_ne hn, ht]
      · exact ht

/-- Entries that are inserted into the last table one by one. -/
theorem serveAll_insertAll (entries : List (κ × ν)) (t : Table κ ν) :
    (serveAll tables (entries.map fun p => .on pool.length (.insert p.1 p.2)) (pool ++ [t])).2 =
      pool ++ [entries.foldl (fun t (k, v) => t.insert k v) t] := by
  induction entries generalizing t with
  | nil => rfl
  | cons p entries ih =>
    have hfirst : (serve tables (.on pool.length (.insert p.1 p.2)) (pool ++ [t])).2 = pool ++ [t.insert p.1 p.2] := by
      simp only [serve, List.getElem?_concat_length, List.set_append_right _ _ (Nat.le_refl _), Nat.sub_self]
      rfl
    rw [List.map_cons, serveAll, hfirst]
    exact ih _

/-! ## One operation -/

/-- A table that is sound and answers like a map. -/
structure Follows (t : Table κ ν) (m : Contents κ ν) : Prop where
  sound : t.Sound
  answers : ∀ k, t.get? k = m k

/-- The tables and maps of two pools have the same numbers, and a table follows the map of its number. -/
theorem follows_getElem? (h : List.Forall₂ Follows pool maps) (i : Nat) :
    (pool[i]? = none ∧ maps[i]? = none) ∨ ∃ t m, pool[i]? = some t ∧ maps[i]? = some m ∧ t.Follows m := by
  induction h generalizing i with
  | nil => exact .inl ⟨rfl, rfl⟩
  | cons ht _ ih =>
    cases i with
    | zero => exact .inr ⟨_, _, rfl, rfl, ht⟩
    | succ i => exact ih i

/-- Two pools stay in step when a table and the map that it follows take one number. -/
theorem follows_set (h : List.Forall₂ Follows pool maps) {t : Table κ ν} {m : Contents κ ν} (ht : t.Follows m) (i : Nat) :
    List.Forall₂ Follows (pool.set i t) (maps.set i m) := by
  induction h generalizing i with
  | nil => exact .nil
  | cons hhead hrest ih =>
    cases i with
    | zero => exact .cons ht hrest
    | succ i => exact .cons hhead (ih i)

variable [EquivBEq κ] [LawfulHashable κ]

/-- Doubling the chains makes room for one more entry, for a table with a single chain is empty. -/
theorem Sound.insert (ht : t.Sound) : (t.insert k v).Sound := by
  rw [Table.insert]
  split
  · exact ht.modify
  · rename_i hk
    obtain ⟨hsize, hlength, hchains⟩ := t.insertNew_counts (k := k) (v := v)
    have hvalid : (t.insertNew k v).Valid := by
      have hinsert := ht.valid.insert (k := k) (v := v)
      rwa [Table.insert, if_neg hk] at hinsert
    refine ⟨hvalid, ?_, ?_⟩
    · rw [hsize, hlength, ht.counted]
    · have hload := ht.load
      have hpos : 0 < t.chainCount := t.chains_pos
      rw [hsize, hchains]
      split <;> omega

/-- What a sound table shows. -/
theorem Sound.represents (ht : t.Sound) {m : Contents κ ν} (hm : ∀ k, t.get? k = m k) : t.Represents m where
  answers := hm
  listed k := by rw [filter_key ht.valid.distinct_toList, ← ht.valid.get?_eq_chainGet?, hm]
  placed := ht.valid.placed
  distinct := distinct_iff_keys.1 ht.valid.distinct_toList
  walks := by rw [keys, values, List.zip_map']; exact List.map_id _
  counted := by rw [keys, List.length_map, ht.counted]
  load := ht.load

/-- An empty table follows the empty map. -/
theorem follows_withChains (count : Nat) : (withChains count : Table κ ν).Follows fun _ => none :=
  ⟨sound_withChains count, fun _ => get?_withChains count⟩

/-- An operation gets the same answer from a table as from the map that it follows, and the table follows the map. -/
theorem Follows.perform {m : Contents κ ν} (ht : t.Follows m) (op : Operation κ ν) :
    (op.onTable t).1 = (op.onContents m).1 ∧ (op.onTable t).2.Follows (op.onContents m).2 := by
  obtain ⟨hs, hm⟩ := ht
  cases op with
  | insert k v =>
    refine ⟨congrArg Answer.value (hm k), hs.insert, fun j => ?_⟩
    change (t.insert k v).get? j = _
    rw [hs.valid.get?_insert, hm]
    rfl
  | get k => exact ⟨congrArg Answer.value (hm k), hs, hm⟩
  | update k f =>
    refine ⟨congrArg Answer.value (hm k), hs.modify, fun j => ?_⟩
    change (t.modify k f).get? j = _
    rw [get?_modify, hm]
    rfl
  | contains k =>
    refine ⟨?_, hs, hm⟩
    change Answer.holds (t.get? k).isSome = _
    rw [hm]
    rfl
  | remove k =>
    refine ⟨congrArg Answer.value (hm k), hs.erase, fun j => ?_⟩
    change (t.erase k).get? j = _
    rw [hs.valid.get?_erase, hm]
    rfl
  | clear => exact ⟨rfl, follows_withChains initialChains⟩

/-- Inserting a list of entries follows the map in which the last entry of each key counts. -/
theorem Follows.insertAll {m : Contents κ ν} (ht : t.Follows m) (entries : List (κ × ν)) :
    (entries.foldl (fun t (k, v) => t.insert k v) t).Follows fun k =>
      ((entries.reverse.find? (·.1 == k)).map Prod.snd).or (m k) := by
  induction entries generalizing t m with
  | nil => exact ht
  | cons p entries ih =>
    obtain ⟨hs, hm⟩ := ih (ht.perform (.insert p.1 p.2)).2
    refine ⟨hs, fun k => (hm k).trans ?_⟩
    rw [List.reverse_cons, List.find?_append]
    cases entries.reverse.find? (·.1 == k) with
    | some q => rfl
    | none =>
      rw [Option.none_or, List.find?_singleton]
      change (if p.1 == k then some p.2 else m k) = _
      split <;> rfl

/-- Of collected entries the last one of a key counts. -/
theorem follows_ofList (entries : List (κ × ν)) : (ofList entries).Follows (contents.collect entries) := by
  obtain ⟨hs, hm⟩ := (follows_withChains initialChains).insertAll entries
  exact ⟨hs, fun k => (hm k).trans (Option.or_none ..)⟩

/-! ## Many requests -/

/-- One request gets the same answer from tables as from maps, and leaves the pools in step. -/
theorem serve_follows (h : List.Forall₂ Follows pool maps) (r : Request κ ν) :
    (serve tables r pool).1 = (serve contents r maps).1 ∧
      List.Forall₂ Follows (serve tables r pool).2 (serve contents r maps).2 := by
  cases r with
  | create count =>
    refine ⟨rfl, List.rel_append h (.cons ?_ .nil)⟩
    cases count with
    | none => exact follows_withChains initialChains
    | some count => exact follows_withChains count
  | collect entries => exact ⟨rfl, List.rel_append h (.cons (follows_ofList entries) .nil)⟩
  | clone i =>
    refine ⟨rfl, List.rel_append h ?_⟩
    rcases follows_getElem? h i with ⟨ht, hm⟩ | ⟨t, m, ht, hm, hfollows⟩
    · rw [ht, hm]
      exact .nil
    · rw [ht, hm]
      exact .cons hfollows .nil
  | on i op =>
    rcases follows_getElem? h i with ⟨ht, hm⟩ | ⟨t, m, ht, hm, hfollows⟩
    · simp only [serve, ht, hm]
      exact ⟨trivial, h⟩
    · obtain ⟨hanswer, hafter⟩ := hfollows.perform op
      simp only [serve, ht, hm]
      exact ⟨congrArg some hanswer, follows_set h hafter i⟩

/-- All requests get the same answers from tables as from maps. -/
theorem serveAll_follows (rs : List (Request κ ν)) (h : List.Forall₂ Follows pool maps) :
    (serveAll tables rs pool).1 = (serveAll contents rs maps).1 ∧
      List.Forall₂ Follows (serveAll tables rs pool).2 (serveAll contents rs maps).2 := by
  induction rs generalizing pool maps with
  | nil => exact ⟨rfl, h⟩
  | cons r rs ih =>
    obtain ⟨hanswer, hpool⟩ := serve_follows h r
    obtain ⟨hanswers, hpools⟩ := ih hpool
    exact ⟨congrArg₂ List.cons hanswer hanswers, hpools⟩

/-- Whatever tables are made, copied and used, they answer like maps; afterwards each represents its map; and with every further
request the number of chains of a table is doubled by an insertion that would make it too full, reset by a clearing, and otherwise
kept. Collecting entries is inserting them into a new table. -/
theorem serveAll_refines (rs : List (Request κ ν)) :
    (serveAll tables rs []).1 = (serveAll contents rs []).1 ∧
      List.Forall₂ Represents (serveAll tables rs []).2 (serveAll contents rs []).2 ∧
      (∀ (r : Request κ ν) (i : Nat) (t : Table κ ν), (serveAll tables rs []).2[i]? = some t →
        ∃ t', (serveAll tables (rs ++ [r]) []).2[i]? = some t' ∧ t'.chainCount = r.chainsAfter t i) ∧
      ∀ entries : List (κ × ν), (serveAll tables (rs ++ [.collect entries]) []).2 =
        (serveAll tables (rs ++ .create none ::
          entries.map fun p => .on (serveAll tables rs []).2.length (.insert p.1 p.2)) []).2 := by
  obtain ⟨hanswers, hfollows⟩ := serveAll_follows rs (.nil : List.Forall₂ Follows ([] : List (Table κ ν)) [])
  refine ⟨hanswers, hfollows.imp fun t m h => h.sound.represents h.answers, fun r i t ht => ?_, fun entries => ?_⟩
  · rw [serveAll_append]
    exact chainCount_serve ht r
  · rw [serveAll_append, serveAll_append]
    exact (serveAll_insertAll entries empty).symm

end Sound

/-- Keys that collide in a table with a single chain, a chain that is split when it grows, and a copy that stays as it was. -/
theorem serveAll_refines_collisionSample :
    (serveAll (tables : Service (Table Nat Nat) Nat Nat) [.create (some 0), .on 0 (.insert 3 10), .on 0 (.insert 7 20),
      .on 0 (.insert 3 30), .clone 0, .on 0 (.remove 3), .on 0 (.contains 3), .on 1 (.update 3 (· + 1)), .on 1 (.get 3), .on 0 .clear,
      .on 0 (.get 7)] []).1 = [none, some (.value none), some (.value none), some (.value (some 10)), none, some (.value (some 30)),
        some (.holds false), some (.value (some 30)), some (.value (some 31)), some .done, some (.value none)] := by
  rw [(serveAll_refines _).1]
  rfl

end Table

end ScriptVM
