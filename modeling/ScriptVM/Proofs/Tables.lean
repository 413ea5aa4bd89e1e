import Mathlib.Data.List.Nodup
import ScriptVM.Table

/-!
# Tables as maps

A table is valid when every entry lies in the chain that its key selects and no chain has a key twice. Keys are compared by `==`,
an equivalence that need not be equality; all that is asked of the hash is that it does not tell equal keys apart. Looking a key up
in a valid table finds the entry of that key, wherever the walk over the table meets it (`Table.Valid.get?_eq_some_iff`). So moving
the entries to another number of chains changes no answer, and an insertion or a removal changes the answer for its own key alone
(`Table.Valid.get?_insert`, `Table.Valid.get?_erase`).
-/

namespace ScriptVM

namespace Table

variable {κ ν : Type} {t : Table κ ν} {i j k : κ} {v : ν}

/-! ## Chains -/

section Chains

variable [BEq κ] {c d : List (κ × ν)}

/-- No key stands twice in a list of entries. -/
def Distinct (c : List (κ × ν)) : Prop := c.Pairwise fun p q => (p.1 == q.1) = false

/-- A lookup in chains in sequence takes the first hit. -/
theorem chainGet?_append : chainGet? k (c ++ d) = (chainGet? k c).or (chainGet? k d) := by
  induction c with
  | nil => rfl
  | cons p c ih =>
    rw [List.cons_append, chainGet?, chainGet?]
    split
    · rfl
    · exact ih

/-- A lookup finds nothing just if no key of the chain equals the key. -/
theorem chainGet?_eq_none : chainGet? k c = none ↔ ∀ p ∈ c, (p.1 == k) = false := by
  induction c with
  | nil => simp [chainGet?]
  | cons p c ih =>
    rw [chainGet?, List.forall_mem_cons]
    by_cases hk : (p.1 == k) = true
    · simp [hk]
    · simp [hk, ih]

/-- What a lookup finds is the value of an equal key. -/
theorem mem_of_chainGet? (h : chainGet? k c = some v) : ∃ i, (i == k) = true ∧ (i, v) ∈ c := by
  induction c with
  | nil => cases h
  | cons p c ih =>
    obtain ⟨i, x⟩ := p
    rw [chainGet?] at h
    split at h
    · rename_i hk
      cases h
      exact ⟨i, hk, List.mem_cons_self⟩
    · obtain ⟨i, hk, hi⟩ := ih h
      exact ⟨i, hk, List.mem_cons_of_mem _ hi⟩

/-- Changing a value leaves the keys of a chain. -/
theorem keys_chainModify {f : ν → ν} : (chainModify k f c).map Prod.fst = c.map Prod.fst := by
  induction c with
  | nil => rfl
  | cons p c ih =>
    rw [chainModify]
    split
    · rfl
    · rw [List.map_cons, List.map_cons, ih]

/-- Removing a key leaves entries of the chain, in their order. -/
theorem sublist_chainErase : (chainErase k c).Sublist c := by
  induction c with
  | nil => exact .slnil
  | cons p c ih =>
    rw [chainErase]
    split
    · exact List.sublist_cons_self _ _
    · exact ih.cons_cons p

/-- Removing a key that is there removes one entry. -/
theorem length_chainErase (h : (chainGet? k c).isSome = true) : (chainErase k c).length + 1 = c.length := by
  induction c with
  | nil => cases h
  | cons p c ih =>
    rw [chainGet?] at h
    rw [chainErase]
    split at h
    · rename_i hk
      rw [if_pos hk, List.length_cons]
    · rename_i hk
      rw [if_neg hk, List.length_cons, List.length_cons, ih h]

/-- No key stands twice just if the keys say so. -/
theorem distinct_iff_keys : Distinct c ↔ (c.map Prod.fst).Pairwise fun i j => (i == j) = false := by
  rw [Distinct, List.pairwise_map]

variable [PartialEquivBEq κ]

/-- Equal keys are looked up alike. -/
theorem chainGet?_congr (h : (j == k) = true) : chainGet? j c = chainGet? k c := by
  induction c with
  | nil => rfl
  | cons p c ih => rw [chainGet?, chainGet?, BEq.congr_right h, ih]

/-- In a chain without repeated keys it does not matter where an entry stands. -/
theorem chainGet?_eq_some (hd : Distinct c) : chainGet? k c = some v ↔ ∃ i, (i == k) = true ∧ (i, v) ∈ c := by
  refine ⟨mem_of_chainGet?, ?_⟩
  rintro ⟨i, hik, h⟩
  induction c with
  | nil => cases h
  | cons p c ih =>
    obtain ⟨hp, hd⟩ := List.pairwise_cons.1 hd
    rw [chainGet?]
    rcases List.mem_cons.1 h with rfl | h
    · rw [if_pos hik]
    · have hpi : (p.1 == i) = false := hp _ h
      rw [if_neg (by rw [← BEq.congr_right hik, hpi]; exact Bool.false_ne_true)]
      exact ih hd h

/-- Changing the value of a key changes what is found for equal keys. -/
theorem chainGet?_chainModify {f : ν → ν} :
    chainGet? j (chainModify k f c) = if k == j then (chainGet? j c).map f else chainGet? j c := by
  induction c with
  | nil => simp [chainModify, chainGet?]
  | cons p c ih =>
    obtain ⟨i, x⟩ := p
    rw [chainModify]
    by_cases hi : (i == k) = true
    · rw [if_pos hi, chainGet?, chainGet?, BEq.congr_left hi]
      split <;> rfl
    · rw [if_neg hi, chainGet?, chainGet?, ih]
      by_cases hj : (i == j) = true
      · have hk : ¬(k == j) = true := fun hk => hi (by rw [BEq.congr_right hk]; exact hj)
        rw [if_pos hj, if_pos hj, if_neg hk]
      · rw [if_neg hj, if_neg hj]

/-- Removing a key leaves nothing to be found for equal keys. -/
theorem chainGet?_chainErase (hd : Distinct c) : chainGet? j (chainErase k c) = if k == j then none else chainGet? j c := by
  induction c with
  | nil => simp [chainErase, chainGet?]
  | cons p c ih =>
    obtain ⟨i, x⟩ := p
    obtain ⟨hp, hd⟩ := List.pairwise_cons.1 hd
    rw [chainErase]
    by_cases hi : (i == k) = true
    · rw [if_pos hi, chainGet?, BEq.congr_left hi]
      split
      · rename_i hk
        refine chainGet?_eq_none.2 fun q hq => ?_
        rw [BEq.comm, ← BEq.congr_left hk, ← BEq.congr_left hi]
        exact hp q hq
      · rfl
    · rw [if_neg hi, chainGet?, chainGet?, ih hd]
      by_cases hj : (i == j) = true
      · have hk : ¬(k == j) = true := fun hk => hi (by rw [BEq.congr_right hk]; exact hj)
        rw [if_pos hj, if_pos hj, if_neg hk]
      · rw [if_neg hj, if_neg hj]

/-- No key stands twice in a chain turned around. -/
theorem Distinct.reverse (hd : Distinct c) : Distinct c.reverse :=
  List.pairwise_reverse.2 (hd.imp fun h => by rw [BEq.comm]; exact h)

/-- What a list without repeated keys has for a key. -/
theorem filter_key (hd : Distinct c) : (c.filter (·.1 == k)).map Prod.snd = (chainGet? k c).toList := by
  induction c with
  | nil => rfl
  | cons p c ih =>
    obtain ⟨hp, hd⟩ := List.pairwise_cons.1 hd
    rw [chainGet?, List.filter_cons]
    by_cases hk : (p.1 == k) = true
    · have hrest : chainGet? k c = none := chainGet?_eq_none.2 fun q hq => by rw [BEq.comm, ← BEq.congr_left hk]; exact hp q hq
      rw [if_pos hk, if_pos hk, List.map_cons, ih hd, hrest]
      rfl
    · rw [if_neg hk, if_neg hk, ih hd]

end Chains

/-! ## Valid tables -/

/-- The entries of a table are those of its chains. -/
theorem mem_toList {p : κ × ν} : p ∈ t.toList ↔ ∃ (i : Nat) (c : List (κ × ν)), t.chains[i]? = some c ∧ p ∈ c := by
  rw [toList, List.mem_flatten]
  constructor
  · rintro ⟨c, hc, hp⟩
    obtain ⟨i, hi, rfl⟩ := Array.mem_iff_getElem.1 (Array.mem_toList_iff.1 hc)
    exact ⟨i, _, Array.getElem?_eq_getElem hi, hp⟩
  · rintro ⟨i, c, hc, hp⟩
    exact ⟨c, Array.mem_toList_iff.2 (Array.mem_of_getElem? hc), hp⟩

/-- A new table has no entries. -/
theorem toList_withChains (count : Nat) : (withChains count : Table κ ν).toList = [] := by simp [toList, withChains]

variable [Hashable κ]

/-- The chain of a key is the one in its slot. -/
theorem getElem?_slot (t : Table κ ν) (k : κ) : t.chains[t.slot k]? = some (t.chainOf k) :=
  Array.getElem?_eq_getElem (t.slot_lt k)

/-- Changing a chain moves no key. -/
theorem slot_modifyChain (n : Nat) (f : List (κ × ν) → List (κ × ν)) : (t.modifyChain n f).slot k = t.slot k := by
  simp [slot, Table.modifyChain]

/-- Changing a chain changes it for the keys of its slot. -/
theorem chainOf_modifyChain {i : Nat} {f : List (κ × ν) → List (κ × ν)} :
    (t.modifyChain i f).chainOf j = if i = t.slot j then f (t.chainOf j) else t.chainOf j := by
  have hget := (t.modifyChain i f).getElem?_slot j
  rw [slot_modifyChain] at hget
  simp only [Table.modifyChain, Array.getElem?_modify, getElem?_slot] at hget
  split at hget
  · rename_i hi
    rw [if_pos hi]
    exact (Option.some.inj hget).symm
  · rename_i hi
    rw [if_neg hi]
    exact (Option.some.inj hget).symm

variable [BEq κ]

/-- Every entry lies in the chain of its key, and no chain has a key twice. -/
structure Valid (t : Table κ ν) : Prop where
  placed : ∀ (i : Nat) (c : List (κ × ν)), t.chains[i]? = some c → ∀ p ∈ c, t.slot p.1 = i
  distinct : ∀ (i : Nat) (c : List (κ × ν)), t.chains[i]? = some c → Distinct c

theorem valid_withChains (count : Nat) : (withChains count : Table κ ν).Valid := by
  have hempty : ∀ (i : Nat) (c : List (κ × ν)), (withChains count : Table κ ν).chains[i]? = some c → c = [] := by
    intro i c hc
    simp only [withChains, Array.getElem?_replicate] at hc
    split at hc
    · cases hc
      rfl
    · cases hc
  refine ⟨fun i c hc => ?_, fun i c hc => ?_⟩
  · rw [hempty i c hc]
    exact fun p hp => nomatch hp
  · rw [hempty i c hc]
    exact .nil

/-- The counter of entries does not matter for what a table holds. -/
theorem Valid.withSize (ht : t.Valid) (n : Nat) : Valid { t with size := n } := ⟨ht.placed, ht.distinct⟩

/-- A change of the chain of a key that brings in no entry of another key and no key twice. -/
theorem Valid.modifyChain (ht : t.Valid) {f : List (κ × ν) → List (κ × ν)}
    (hplaced : ∀ p ∈ f (t.chainOf k), t.slot p.1 = t.slot k) (hdistinct : Distinct (f (t.chainOf k))) :
    (t.modifyChain (t.slot k) f).Valid := by
  have hchain : ∀ (i : Nat) (c : List (κ × ν)), (t.modifyChain (t.slot k) f).chains[i]? = some c →
      (i = t.slot k ∧ c = f (t.chainOf k)) ∨ t.chains[i]? = some c := by
    intro i c hc
    simp only [Table.modifyChain, Array.getElem?_modify] at hc
    split at hc
    · rename_i hi
      subst hi
      rw [getElem?_slot] at hc
      cases hc
      exact .inl ⟨rfl, rfl⟩
    · exact .inr hc
  refine ⟨fun i c hc p hp => ?_, fun i c hc => ?_⟩
  · rw [slot_modifyChain]
    rcases hchain i c hc with ⟨rfl, rfl⟩ | hold
    · exact hplaced p hp
    · exact ht.placed i c hold p hp
  · rcases hchain i c hc with ⟨rfl, rfl⟩ | hold
    · exact hdistinct
    · exact ht.distinct i c hold

/-- Changing a value leaves a table valid. -/
theorem Valid.modify (ht : t.Valid) {f : ν → ν} : (t.modify k f).Valid := by
  have hkeys : (chainModify k f (t.chainOf k)).map Prod.fst = (t.chainOf k).map Prod.fst := keys_chainModify
  refine ht.modifyChain (fun p hp => ?_) ?_
  · obtain ⟨q, hq, heq⟩ := List.mem_map.1 (hkeys ▸ List.mem_map_of_mem (f := Prod.fst) hp)
    rw [← heq]
    exact ht.placed _ _ (t.getElem?_slot k) q hq
  · rw [distinct_iff_keys, hkeys, ← distinct_iff_keys]
    exact ht.distinct _ _ (t.getElem?_slot k)

/-- Removing a key leaves a table valid. -/
theorem Valid.erase (ht : t.Valid) : (t.erase k).Valid := by
  rw [Table.erase]
  split
  · refine Valid.withSize (ht.modifyChain (fun p hp => ?_) ?_) _
    · exact ht.placed _ _ (t.getElem?_slot k) p (sublist_chainErase.subset hp)
    · exact (ht.distinct _ _ (t.getElem?_slot k)).sublist sublist_chainErase
  · exact ht

/-- Adding an entry for a new key leaves a table valid. -/
theorem Valid.push [PartialEquivBEq κ] (ht : t.Valid) {p : κ × ν} (hp : t.get? p.1 = none) : (t.push p).Valid := by
  refine ht.modifyChain (fun q hq => ?_) ?_
  · rcases List.mem_cons.1 hq with rfl | hq
    · rfl
    · exact ht.placed _ _ (t.getElem?_slot p.1) q hq
  · refine List.pairwise_cons.2 ⟨fun q hq => ?_, ht.distinct _ _ (t.getElem?_slot p.1)⟩
    rw [BEq.comm]
    exact chainGet?_eq_none.1 hp q hq

section Lookup

variable [LawfulHashable κ]

theorem slot_congr (h : (j == k) = true) : t.slot j = t.slot k := by rw [slot, slot, hash_eq h]

theorem chainOf_congr (h : (j == k) = true) : t.chainOf j = t.chainOf k :=
  Option.some.inj (by rw [← getElem?_slot, ← getElem?_slot, slot_congr h])

/-- An entry that is added is found for equal keys. -/
theorem get?_push {p : κ × ν} : (t.push p).get? k = if p.1 == k then some p.2 else t.get? k := by
  rw [get?, push, chainOf_modifyChain]
  by_cases hk : (p.1 == k) = true
  · rw [if_pos (slot_congr hk), chainGet?, if_pos hk, if_pos hk]
  · rw [if_neg hk]
    split
    · rw [chainGet?, if_neg hk]
      rfl
    · rfl

/-- No key stands twice in a valid table. -/
theorem Valid.distinct_toList (ht : t.Valid) : Distinct t.toList := by
  rw [Distinct, toList, List.pairwise_flatten]
  constructor
  · intro c hc
    obtain ⟨i, hi, rfl⟩ := Array.mem_iff_getElem.1 (Array.mem_toList_iff.1 hc)
    exact ht.distinct i _ (Array.getElem?_eq_getElem hi)
  · rw [List.pairwise_iff_getElem]
    intro i i' hi hi' hlt p hp q hq
    -- Equal keys select one chain.
    refine Bool.eq_false_iff.2 fun heq => ?_
    simp only [Array.length_toList, Array.getElem_toList] at hi hi' hp hq
    have hslot := ht.placed i _ (Array.getElem?_eq_getElem hi) p hp
    have hslot' := ht.placed i' _ (Array.getElem?_eq_getElem hi') q hq
    rw [← slot_congr heq, hslot] at hslot'
    omega

/-- Of the entries moved to a table, the last one of a key counts. -/
theorem get?_foldl_push (l : List (κ × ν)) (t : Table κ ν) :
    (l.foldl Table.push t).get? k = (chainGet? k l.reverse).or (t.get? k) := by
  induction l generalizing t with
  | nil => rfl
  | cons p l ih =>
    rw [List.foldl_cons, ih, List.reverse_cons, chainGet?_append, Option.or_assoc, get?_push, chainGet?, chainGet?]
    split <;> rfl

variable [EquivBEq κ]

theorem get?_congr (h : (j == k) = true) : t.get? j = t.get? k := by rw [get?, get?, chainOf_congr h, chainGet?_congr h]

/-- A valid table answers with the entry that it lists. -/
theorem Valid.get?_eq_some_iff (ht : t.Valid) : t.get? k = some v ↔ ∃ i, (i == k) = true ∧ (i, v) ∈ t.toList := by
  rw [get?, chainGet?_eq_some (ht.distinct _ _ (t.getElem?_slot k))]
  refine exists_congr fun i => and_congr_right fun hik => ?_
  rw [mem_toList, ← chainOf_congr hik]
  constructor
  · intro h
    exact ⟨_, _, t.getElem?_slot i, h⟩
  · rintro ⟨n, c, hc, hp⟩
    have hn := ht.placed n c hc _ hp
    subst hn
    rw [getElem?_slot] at hc
    cases hc
    exact hp

/-- Looking a key up is searching the list of the entries. -/
theorem Valid.get?_eq_chainGet? (ht : t.Valid) : t.get? k = chainGet? k t.toList := by
  ext v
  rw [ht.get?_eq_some_iff, chainGet?_eq_some ht.distinct_toList]

/-- Where keys are equal only if they are the same, a lookup finds just the entries. -/
theorem Valid.get?_eq_some {κ : Type} [BEq κ] [LawfulBEq κ] [Hashable κ] {t : Table κ ν} {k : κ} (ht : t.Valid) :
    t.get? k = some v ↔ (k, v) ∈ t.toList := by
  rw [ht.get?_eq_some_iff]
  constructor
  · rintro ⟨i, hik, h⟩
    rwa [← eq_of_beq hik]
  · exact fun h => ⟨k, beq_self_eq_true k, h⟩

/-- Nothing is found in a new table. -/
theorem get?_withChains (count : Nat) : (withChains count : Table κ ν).get? k = none := by
  rw [(valid_withChains count).get?_eq_chainGet?, toList_withChains, chainGet?]

/-- Changing the value of a key changes the answer for equal keys. -/
theorem get?_modify {f : ν → ν} : (t.modify k f).get? j = if k == j then (t.get? j).map f else t.get? j := by
  rw [get?, Table.modify, chainOf_modifyChain]
  split
  · exact chainGet?_chainModify
  · rename_i hslot
    rw [if_neg fun hk => hslot (slot_congr hk)]
    rfl

/-- A removal changes the answer for its own key alone. -/
theorem Valid.get?_erase (ht : t.Valid) : (t.erase k).get? j = if k == j then none else t.get? j := by
  rw [Table.erase]
  split
  · change chainGet? j (Table.chainOf (t.modifyChain (t.slot k) (chainErase k)) j) = _
    rw [chainOf_modifyChain]
    split
    · exact chainGet?_chainErase (ht.distinct _ _ (t.getElem?_slot j))
    · rename_i hslot
      rw [if_neg fun hk => hslot (slot_congr hk)]
      rfl
  · rename_i hnew
    split
    · rename_i hk
      rw [← get?_congr hk]
      exact Option.not_isSome_iff_eq_none.1 hnew
    · rfl

/-! ## Moving entries -/

/-- Adding entries with different new keys leaves a table valid. -/
theorem Valid.foldl_push {l : List (κ × ν)} (ht : t.Valid) (hd : Distinct l) (hnew : ∀ p ∈ l, t.get? p.1 = none) :
    (l.foldl Table.push t).Valid := by
  induction l generalizing t with
  | nil => exact ht
  | cons p l ih =>
    obtain ⟨hp, hd⟩ := List.pairwise_cons.1 hd
    refine ih (ht.push (hnew p List.mem_cons_self)) hd fun q hq => ?_
    rw [get?_push, hp q hq]
    exact hnew q (List.mem_cons_of_mem _ hq)

/-- Spreading over new chains leaves a table valid. -/
theorem Valid.rehash (ht : t.Valid) (count : Nat) : (t.rehash count).Valid :=
  ((valid_withChains count).withSize t.size).foldl_push ht.distinct_toList fun _ _ => get?_withChains count

/-- The number of chains does not show. -/
theorem Valid.get?_rehash (ht : t.Valid) (count : Nat) : (t.rehash count).get? k = t.get? k := by
  ext v
  have hempty : Table.get? { (withChains count : Table κ ν) with size := t.size } k = none := get?_withChains count
  rw [Table.rehash, get?_foldl_push, hempty, Option.or_none, ht.get?_eq_some_iff, chainGet?_eq_some ht.distinct_toList.reverse]
  simp only [List.mem_reverse]

theorem Valid.grow (ht : t.Valid) : t.grow.Valid := by
  rw [Table.grow]
  split
  · exact ht.rehash _
  · exact ht

/-- Growing changes no answer. -/
theorem Valid.get?_grow (ht : t.Valid) : t.grow.get? k = t.get? k := by
  rw [Table.grow]
  split
  · exact ht.get?_rehash _
  · rfl

/-! ## Insertion -/

/-- An insertion leaves a table valid. -/
theorem Valid.insert (ht : t.Valid) : (t.insert k v).Valid := by
  rw [Table.insert]
  split
  · exact ht.modify
  · rename_i hnew
    have hnone : t.get? k = none := Option.not_isSome_iff_eq_none.1 hnew
    exact Valid.grow ((ht.withSize (t.size + 1)).push hnone)

/-- An insertion changes the answer for its own key alone. -/
theorem Valid.get?_insert (ht : t.Valid) : (t.insert k v).get? j = if k == j then some v else t.get? j := by
  rw [Table.insert]
  split
  · rename_i hold
    rw [get?_modify]
    split
    · rename_i hk
      obtain ⟨x, hx⟩ := Option.isSome_iff_exists.1 hold
      rw [← get?_congr hk, hx, Option.map_some]
    · rfl
  · rename_i hnew
    have hnone : t.get? k = none := Option.not_isSome_iff_eq_none.1 hnew
    have hpush : (Table.push { t with size := t.size + 1 } (k, v)).Valid := (ht.withSize (t.size + 1)).push hnone
    exact hpush.get?_grow.trans get?_push

end Lookup

end Table

end ScriptVM
