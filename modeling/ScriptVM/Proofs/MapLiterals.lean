import Mathlib.Data.Finset.Card
import Mathlib.Data.Finset.Image
import Mathlib.Data.List.Find
import ScriptVM.Proofs.KeyKeeping
import ScriptVM.Proofs.Refinement

/-!
# Maps made of pairs

A map is made of a list of pairs, and pairs are stored in it later. What it shows is what the list of all these pairs says: of the
pairs whose keys are equal the last one counts, by its value and also by the key that is kept (`Heap.mapLiteral_lastWins`). The map
has one entry for each class of equal keys, whatever the keys are made of, as long as there is no NaN in them.

The table of the map is one that entries were collected in (`Heap.Collected`). Its keys stand for values, and two values have one
key if they are equal, so a search in the table is a search for the last pair with an equal key.
-/

namespace ScriptVM

namespace Heap

variable {h h' : Heap} {m : Handle} {v w k : Value} {p : Value × Value} {pairs : List (Value × Value)}
  {entries : Table MapKey MapEntry}

/-! ## Pairs -/

/-- A value that a map can find again: it leads to an object of its kind, and no NaN is in it. -/
structure IsKey (h : Heap) (v : Value) : Prop where
  resolves : v.Resolves h
  noNaN : ¬h.HoldsNaN v

/-- The last pair whose key equals a value. -/
def lastPair? (h : Heap) (pairs : List (Value × Value)) (k : Value) : Option (Value × Value) :=
  pairs.reverse.find? fun p => h.equal p.1 k = .ok true

/-- The classes of equal keys among the pairs. -/
def keyClasses (h : Heap) (pairs : List (Value × Value)) : Finset (Finset Value) :=
  let keys := (pairs.map Prod.fst).toFinset
  keys.image fun v => keys.filter fun w => h.equal v w = .ok true

/-- The map shows the pairs. It has an entry for each class of equal keys, which holds the last pair of the class; an index finds
the value of the last pair with an equal key, or else makes a new error value; and a member is what its name finds as an index. -/
structure Reflects (h : Heap) (m : Handle) (pairs : List (Value × Value)) : Prop where
  stored : ∃ entries, h.get? m = some (.map entries) ∧ entries.size = (h.keyClasses pairs).card ∧
    ∀ e, e ∈ entries.values ↔ h.lastPair? pairs e.key = some (e.key, e.value)
  found : ∀ k p, h.IsKey k → k.isError = false → h.lastPair? pairs k = some p → HeapM.index (.ref .map m) k h = .ok p.2 h
  missing : ∀ k, h.IsKey k → k.isError = false → h.lastPair? pairs k = none →
    (HeapM.index (.ref .map m) k).Makes h .error (.error ⟨s!"key {h.describe k} not found", none⟩)
  member : ∀ a name, h.get? a = some (.text name) → (h.lastPair? pairs (.ref .string a)).isSome →
    HeapM.member (.ref .map m) name h = HeapM.index (.ref .map m) (.ref .string a) h

/-- A map on a heap, with the pairs that it was made of and those that were stored in it later. A pair with an equal key behind it
may be forgotten; and the heap may be changed elsewhere, by a collection too, while the objects in the keys are kept. -/
inductive Built : Heap → Handle → List (Value × Value) → Prop where
  | literal {h h' : Heap} {m : Handle} {pairs : List (Value × Value)} : h.WellTyped → h.Sparse → h.Room →
      (∀ p ∈ pairs, h.IsKey p.1 ∧ p.2.Resolves h) → HeapM.allocMap pairs h = .ok (.ref .map m) h' → Built h' m pairs
  | insert {h h' : Heap} {m : Handle} {pairs : List (Value × Value)} {k v : Value} : Built h m pairs → h.IsKey k → v.Resolves h →
      HeapM.mapInsert m k v h = .ok () h' → Built h' m (pairs ++ [(k, v)])
  | forget {h : Heap} {m : Handle} {before after : List (Value × Value)} {p q : Value × Value} :
      Built h m (before ++ p :: after) → q ∈ after → h.equal p.1 q.1 = .ok true → Built h m (before ++ after)
  | elsewhere {h h' : Heap} {m : Handle} {pairs : List (Value × Value)} : Built h m pairs → h'.WellTyped → h'.Sparse →
      h'.get? m = h.get? m → (∀ p ∈ pairs, h.KeepsKey h' p.1) → Built h' m pairs

/-! ## Keys of values -/

/-- The key of a value that has one. -/
def keyOf (h : Heap) (v : Value) : MapKey := (h.mapKey v).toOption.getD .null

/-- What a table holds for a pair. -/
def entryOf (h : Heap) (p : Value × Value) : MapKey × MapEntry := (h.keyOf p.1, ⟨p.1, p.2⟩)

/-- On a well-typed heap every value has a key. -/
theorem WellTyped.mapKey_eq (hw : h.WellTyped) (hv : v.Resolves h) : h.mapKey v = .ok (h.keyOf v) := by
  obtain ⟨k, hk⟩ := (hw.shallow hv).exists_key
  rw [keyOf, mapKey, hk]
  rfl

/-- A value that keeps its key has it on the other heap. -/
theorem KeepsKey.keyOf_eq (hk : h.KeepsKey h' v) (hw : h.WellTyped) (hw' : h'.WellTyped) (hv : v.Resolves h) :
    h'.keyOf v = h.keyOf v := by
  rw [keyOf, keyOf, hk.mapKey_eq hw hw' hv]

/-- Keys are equal if they are one key of a table. -/
theorem IsKey.equal_iff (hv : h.IsKey v) (hv' : h.IsKey w) (hw : h.WellTyped) : h.equal v w = .ok true ↔ h.keyOf v = h.keyOf w := by
  obtain ⟨e, k, l, he, hk, hl, hkey, hequal⟩ := (hw.shallow hv.resolves).agree (hw.shallow hv'.resolves)
  rw [equal, keyOf, keyOf, mapKey, mapKey, he, hk, hl, Except.ok.injEq]
  exact ⟨hkey, hequal hv.noNaN hv'.noNaN⟩

/-- A number that is no NaN is a key. -/
theorem IsKey.num {n : Num} (hn : n.isNaN = false) : h.IsKey (.num n) where
  resolves := trivial
  noNaN hnan := by
    cases hnan with
    | num hnan => exact Bool.noConfusion (hn.symm.trans hnan)

theorem IsKey.text {a : Handle} {s : String} (ha : h.get? a = some (.text s)) : h.IsKey (.ref .string a) where
  resolves := ⟨_, ha, rfl⟩
  noNaN hnan := by cases hnan

/-- An array of keys is a key. -/
theorem IsKey.array {a : Handle} {items : Array Value} (ha : h.get? a = some (.array items)) (hitems : ∀ v ∈ items.toList, h.IsKey v) :
    h.IsKey (.ref .array a) where
  resolves := ⟨_, ha, rfl⟩
  noNaN hnan := by
    cases hnan with
    | item ha' hv hnan =>
      cases ha.symm.trans ha'
      exact (hitems _ hv).noNaN hnan

/-- A key that is kept is a key on the other heap. -/
theorem IsKey.transfer (hv : h.IsKey v) (hw : h.WellTyped) (hk : h.KeepsKey h' v) : h'.IsKey v where
  resolves := hk.resolves hv.resolves
  noNaN hnan := hv.noNaN ((hw.shallow hv.resolves).holdsNaN hk hnan)

/-- Keys that are equal stay so where the objects in them are kept. -/
theorem IsKey.equal_transfer (hv : h.IsKey v) (hv' : h.IsKey w) (hw : h.WellTyped) (hw' : h'.WellTyped) (hk : h.KeepsKey h' v)
    (hk' : h.KeepsKey h' w) : h'.equal v w = .ok true ↔ h.equal v w = .ok true := by
  rw [(hv.transfer hw hk).equal_iff (hv'.transfer hw hk') hw', hv.equal_iff hv' hw, hk.keyOf_eq hw hw' hv.resolves,
    hk'.keyOf_eq hw hw' hv'.resolves]

/-- The last pair of a key is one of the pairs. -/
theorem mem_of_lastPair? (hp : h.lastPair? pairs k = some p) : p ∈ pairs := List.mem_reverse.1 (List.mem_of_find?_eq_some hp)

/-- A pair behind the others is the last one of its key. -/
theorem lastPair?_concat (h : Heap) (pairs : List (Value × Value)) :
    h.lastPair? (pairs ++ [p]) k = if h.equal p.1 k = .ok true then some p else h.lastPair? pairs k := by
  rw [lastPair?, List.reverse_append, List.reverse_singleton, List.singleton_append, List.find?_cons]
  by_cases hk : h.equal p.1 k = .ok true
  · rw [if_pos hk, decide_eq_true hk]
  · rw [if_neg hk, decide_eq_false hk]
    rfl

/-! ## Tables of pairs -/

/-- The table is that of the pairs, each stored under the key of its first part. -/
structure Collected (h : Heap) (entries : Table MapKey MapEntry) (pairs : List (Value × Value)) : Prop where
  keys : ∀ p ∈ pairs, h.IsKey p.1
  follows : entries.Follows (Table.contents.collect (pairs.map h.entryOf))

/-- A table of pairs is made by inserting them one behind the other. -/
theorem entryTable_eq (hw : h.WellTyped) (hkeys : ∀ p ∈ pairs, p.1.Resolves h) : h.entryTable pairs =
    .ok ((pairs.map h.entryOf).foldl (fun t (k, e) => t.insert k e) (Table.withChains (max pairs.length 4 * 2))) := by
  rw [entryTable]
  generalize Table.withChains (max pairs.length 4 * 2) = t
  induction pairs generalizing t with
  | nil => rfl
  | cons p pairs ih =>
    obtain ⟨k, v⟩ := p
    simp only [List.foldlM_cons, hw.mapKey_eq (hkeys _ List.mem_cons_self)]
    exact ih (fun q hq => hkeys q (List.mem_cons_of_mem _ hq)) _

/-- Pairs whose keys can be found again make a table that is theirs. -/
theorem exists_entryTable (hw : h.WellTyped) (hkeys : ∀ p ∈ pairs, h.IsKey p.1) :
    ∃ entries, h.entryTable pairs = .ok entries ∧ h.Collected entries pairs := by
  obtain ⟨hsound, hanswers⟩ := (Table.follows_withChains (max pairs.length 4 * 2)).insertAll (pairs.map h.entryOf)
  exact ⟨_, entryTable_eq hw fun p hp => (hkeys p hp).resolves, hkeys, hsound, fun l => (hanswers l).trans (Option.or_none ..)⟩

namespace Collected

/-- One more pair that is stored makes the table that of one more pair. -/
theorem insert (hc : h.Collected entries pairs) (hk : h.IsKey k) :
    h.Collected (entries.insert (h.keyOf k) ⟨k, v⟩) (pairs ++ [(k, v)]) where
  keys := by
    intro p hp
    rcases List.mem_append.1 hp with hp | hp
    · exact hc.keys p hp
    · cases List.mem_singleton.1 hp
      exact hk
  follows := by
    obtain ⟨hsound, hanswers⟩ := hc.follows.insertAll [h.entryOf (k, v)]
    refine ⟨hsound, fun l => (hanswers l).trans ?_⟩
    change _ = (((pairs ++ [(k, v)]).map h.entryOf).reverse.find? (·.1 == l)).map Prod.snd
    rw [List.map_append, List.reverse_append, List.find?_append, Option.map_or]
    rfl

/-- A pair with an equal key behind it does not show. -/
theorem forget {before after : List (Value × Value)} {q : Value × Value} (hc : h.Collected entries (before ++ p :: after))
    (hq : q ∈ after) (hpq : h.keyOf p.1 = h.keyOf q.1) : h.Collected entries (before ++ after) where
  keys r hr := by
    refine hc.keys r (List.mem_append.2 ?_)
    exact (List.mem_append.1 hr).imp_right (List.mem_cons_of_mem p)
  follows := by
    refine ⟨hc.follows.sound, fun l => (hc.follows.answers l).trans (congrArg (Option.map Prod.snd) ?_)⟩
    simp only [List.map_append, List.map_cons, List.reverse_append, List.reverse_cons, List.find?_append]
    by_cases hl : ((h.entryOf p).1 == l) = true
    · -- The search ends in front of the pair.
      have hsome : ((after.map h.entryOf).reverse.find? (·.1 == l)).isSome := by
        refine List.find?_isSome.2 ⟨h.entryOf q, List.mem_reverse.2 (List.mem_map_of_mem hq), ?_⟩
        rw [entryOf, ← hpq]
        exact hl
      rw [Option.or_of_isSome hsome, Option.or_of_isSome hsome]
    · rw [List.find?_singleton, if_neg hl, Option.or_none]

/-- The table of the pairs is theirs on another heap that keeps their keys. -/
theorem transfer (hc : h.Collected entries pairs) (hw : h.WellTyped) (hw' : h'.WellTyped) (hk : ∀ p ∈ pairs, h.KeepsKey h' p.1) :
    h'.Collected entries pairs where
  keys p hp := (hc.keys p hp).transfer hw (hk p hp)
  follows := by
    have hsame : pairs.map h'.entryOf = pairs.map h.entryOf := by
      refine List.map_congr_left fun p hp => ?_
      rw [entryOf, entryOf, (hk p hp).keyOf_eq hw hw' (hc.keys p hp).resolves]
    rw [hsame]
    exact hc.follows

/-- A search in the table is a search for the last pair with an equal key. -/
theorem get?_keyOf (hc : h.Collected entries pairs) (hw : h.WellTyped) (hk : h.IsKey k) :
    entries.get? (h.keyOf k) = (h.lastPair? pairs k).map fun p => ⟨p.1, p.2⟩ := by
  refine (hc.follows.answers _).trans ?_
  change ((pairs.map h.entryOf).reverse.find? (·.1 == h.keyOf k)).map Prod.snd = _
  rw [← List.map_reverse, List.find?_map, Option.map_map]
  have hsame : pairs.reverse.find? ((·.1 == h.keyOf k) ∘ h.entryOf) = h.lastPair? pairs k := by
    refine List.find?_congr fun p hp => ?_
    have hp : h.IsKey p.1 := hc.keys p (List.mem_reverse.1 hp)
    rw [Bool.eq_iff_iff, decide_eq_true_iff, hp.equal_iff hk hw]
    exact beq_iff_eq
  rw [hsame]
  rfl

/-- The entries of the table are the last pairs of their keys. -/
theorem mem_iff (hc : h.Collected entries pairs) (hw : h.WellTyped) {l : MapKey} {e : MapEntry} :
    (l, e) ∈ entries.toList ↔ l = h.keyOf e.key ∧ h.lastPair? pairs e.key = some (e.key, e.value) := by
  have hlast (hkey : h.IsKey e.key) : entries.get? (h.keyOf e.key) = some e ↔ h.lastPair? pairs e.key = some (e.key, e.value) := by
    rw [hc.get?_keyOf hw hkey, Option.map_eq_some_iff]
    constructor
    · rintro ⟨p, hp, rfl⟩
      exact hp
    · exact fun hp => ⟨_, hp, rfl⟩
  rw [← hc.follows.sound.valid.get?_eq_some]
  constructor
  · intro hget
    obtain ⟨⟨j, e'⟩, hfind, he⟩ := Option.map_eq_some_iff.1 ((hc.follows.answers l).symm.trans hget)
    obtain ⟨p, hp, hpe⟩ := List.mem_map.1 (List.mem_reverse.1 (List.mem_of_find?_eq_some hfind))
    have hj : j = l := by simpa using List.find?_some hfind
    cases he
    cases hpe
    subst hj
    exact ⟨rfl, (hlast (hc.keys p hp)).1 hget⟩
  · rintro ⟨rfl, hp⟩
    exact (hlast (hc.keys _ (mem_of_lastPair? hp))).2 hp

/-- The keys of the table are those of the pairs. -/
theorem mem_keys (hc : h.Collected entries pairs) {l : MapKey} : l ∈ entries.keys ↔ ∃ p ∈ pairs, h.keyOf p.1 = l := by
  have hsome : l ∈ entries.keys ↔ (entries.get? l).isSome := by
    rw [Option.isSome_iff_exists, Table.keys, List.mem_map]
    constructor
    · rintro ⟨⟨l, e⟩, he, rfl⟩
      exact ⟨e, hc.follows.sound.valid.get?_eq_some.2 he⟩
    · rintro ⟨e, he⟩
      exact ⟨_, hc.follows.sound.valid.get?_eq_some.1 he, rfl⟩
  rw [hsome, hc.follows.answers]
  change (((pairs.map h.entryOf).reverse.find? (·.1 == l)).map Prod.snd).isSome ↔ _
  rw [Option.isSome_map, List.find?_isSome]
  simp only [List.mem_reverse, List.mem_map, beq_iff_eq]
  constructor
  · rintro ⟨e, ⟨p, hp, rfl⟩, hl⟩
    exact ⟨p, hp, hl⟩
  · rintro ⟨p, hp, hl⟩
    exact ⟨_, ⟨p, hp, rfl⟩, hl⟩

/-- The table holds each key once. -/
theorem nodup_keys (hc : h.Collected entries pairs) : entries.keys.Nodup := by
  refine (Table.distinct_iff_keys.1 hc.follows.sound.valid.distinct_toList).imp fun hne heq => ?_
  rw [heq, beq_self_eq_true] at hne
  nomatch hne

/-- There is one entry for each class of equal keys: that of the values whose key it has. -/
theorem size_eq (hc : h.Collected entries pairs) (hw : h.WellTyped) : entries.size = (h.keyClasses pairs).card := by
  classical
  let keys := (pairs.map Prod.fst).toFinset
  let classOf (l : MapKey) : Finset Value := keys.filter fun w => h.keyOf w = l
  have hkey {v : Value} : v ∈ keys ↔ ∃ p ∈ pairs, p.1 = v := List.mem_toFinset.trans List.mem_map
  have hclass {v : Value} (hv : v ∈ keys) : (keys.filter fun w => h.equal v w = .ok true) = classOf (h.keyOf v) := by
    obtain ⟨p, hp, rfl⟩ := hkey.1 hv
    refine Finset.filter_congr fun w hw' => ?_
    obtain ⟨q, hq, rfl⟩ := hkey.1 hw'
    rw [(hc.keys p hp).equal_iff (hc.keys q hq) hw]
    exact eq_comm
  have hclasses : h.keyClasses pairs = (entries.keys.map classOf).toFinset := by
    ext c
    rw [keyClasses, Finset.mem_image, List.mem_toFinset, List.mem_map]
    constructor
    · rintro ⟨v, hv, rfl⟩
      obtain ⟨p, hp, rfl⟩ := hkey.1 hv
      exact ⟨h.keyOf p.1, hc.mem_keys.2 ⟨p, hp, rfl⟩, (hclass hv).symm⟩
    · rintro ⟨l, hl, rfl⟩
      obtain ⟨p, hp, rfl⟩ := hc.mem_keys.1 hl
      exact ⟨p.1, hkey.2 ⟨p, hp, rfl⟩, hclass (hkey.2 ⟨p, hp, rfl⟩)⟩
  -- A class has a value in it, which tells its key.
  have hinj : ∀ l ∈ entries.keys, ∀ j ∈ entries.keys, classOf l = classOf j → l = j := by
    intro l hl j _ hlj
    obtain ⟨p, hp, rfl⟩ := hc.mem_keys.1 hl
    have hmem : p.1 ∈ classOf j := hlj ▸ Finset.mem_filter.2 ⟨hkey.2 ⟨p, hp, rfl⟩, rfl⟩
    exact (Finset.mem_filter.1 hmem).2
  rw [hclasses, List.toFinset_card_of_nodup (hc.nodup_keys.map_on hinj), List.length_map, hc.follows.sound.counted, Table.keys,
    List.length_map]

/-- The map of a table is an object that resolves if the values of the last pairs do. -/
theorem resolves (hc : h.Collected entries pairs) (hw : h.WellTyped)
    (hvalues : ∀ p, h.lastPair? pairs p.1 = some p → p.2.Resolves h) : (Object.map entries).Resolves h := by
  rintro ⟨l, e⟩ he
  obtain ⟨rfl, hp⟩ := (hc.mem_iff hw).1 he
  have hkey : e.key.Resolves h := (hc.keys _ (mem_of_lastPair? hp)).resolves
  refine ⟨fun c hmem => ?_, hkey, hvalues (e.key, e.value) hp⟩
  exact hw.inside hkey (Pairing.inside_of_mapKeyWithin (hw.mapKey_eq hkey) hmem)

end Collected

/-! ## Maps on the heap -/

/-- A map on a well-typed heap whose table is that of the pairs. -/
structure Holds (h : Heap) (m : Handle) (pairs : List (Value × Value)) : Prop where
  wellTyped : h.WellTyped
  sparse : h.Sparse
  table : ∃ entries, h.get? m = some (.map entries) ∧ h.Collected entries pairs

/-- A map is allocated with the table of its pairs. -/
theorem allocMap_eq (ht : h.entryTable pairs = .ok entries) : HeapM.allocMap pairs h = HeapM.allocRef .map (.map entries) h :=
  HeapM.read_bind ht

/-- Storing in a map inserts under the key of the value. -/
theorem mapInsert_eq (hw : h.WellTyped) (hm : h.get? m = some (.map entries)) (hk : k.Resolves h) :
    HeapM.mapInsert m k v h = .ok () (h.update m (Object.insertEntry (h.keyOf k) ⟨k, v⟩)) :=
  (HeapM.read_bind (hw.mapKey_eq hk)).trans (HeapM.read_bind (map_of_get? hm))

/-- A new map holds the pairs that it was made of. -/
theorem holds_place (hw : h.WellTyped) (hs : h.Sparse) (hr : h.Room) (hpairs : ∀ p ∈ pairs, p.2.Resolves h)
    (hc : h.Collected entries pairs) : (h.place (.map entries)).2.Holds (h.place (.map entries)).1 pairs := by
  have hobject : (Object.map entries).Resolves h := hc.resolves hw fun p hp => hpairs p (mem_of_lastPair? hp)
  have hw' := hw.place hs hr hobject (fun _ => nofun)
  exact ⟨hw', hs.place hr, entries, get?_place_self hs hr,
    hc.transfer hw hw' fun p _ => keepsKey_of_kept fun c o ho => get?_place_of_live hs ho⟩

/-- Storing a pair is appending it to the list of the pairs. -/
theorem Holds.insert (hb : h.Holds m pairs) (hk : h.IsKey k) (hv : v.Resolves h) :
    ∃ h', HeapM.mapInsert m k v h = .ok () h' ∧ h'.Holds m (pairs ++ [(k, v)]) := by
  obtain ⟨hw, hs, entries, hm, hc⟩ := hb
  have hc' := hc.insert (v := v) hk
  have hobject : (Object.insertEntry (h.keyOf k) ⟨k, v⟩ (.map entries)).Resolves h := by
    refine hc'.resolves hw fun p hp => ?_
    rw [lastPair?_concat] at hp
    split at hp
    · cases hp
      exact hv
    · exact (hw.objects m _ hm _ ((hc.mem_iff (e := ⟨p.1, p.2⟩) hw).2 ⟨rfl, hp⟩)).2.2
  have hw' := hw.update hm hobject rfl (fun _ => nofun)
  refine ⟨_, mapInsert_eq hw hm hk.resolves, hw', hs.update, _, ?_, hc'.transfer hw hw' fun p _ => keepsKey_update hm rfl nofun⟩
  rw [get?_update, if_pos rfl, hm]
  rfl

/-- However a map was built, it holds its pairs. -/
theorem Built.holds (hb : Built h m pairs) : h.Holds m pairs := by
  induction hb with
  | @literal h h' m pairs hw hs hr hpairs halloc =>
    obtain ⟨entries, ht, hc⟩ := exists_entryTable hw fun p hp => (hpairs p hp).1
    rw [allocMap_eq ht, HeapM.allocRef_eq] at halloc
    split at halloc
    · nomatch halloc
    · cases halloc
      exact holds_place hw hs hr (fun p hp => (hpairs p hp).2) hc
  | insert _ hk hv hinsert ih =>
    obtain ⟨h'', hinsert', hb⟩ := ih.insert hk hv
    cases hinsert.symm.trans hinsert'
    exact hb
  | @forget h m before after p q _ hq hpq ih =>
    obtain ⟨hw, hs, entries, hm, hc⟩ := ih
    refine ⟨hw, hs, entries, hm, hc.forget hq ?_⟩
    exact ((hc.keys p (by simp)).equal_iff (hc.keys q (by simp [hq])) hw).1 hpq
  | elsewhere _ hw' hs' hsame hkept ih =>
    obtain ⟨hw, -, entries, hm, hc⟩ := ih
    exact ⟨hw', hs', entries, hsame.trans hm, hc.transfer hw hw' hkept⟩

/-! ## What a map shows -/

/-- Indexing a map finds the value under the key, or else makes an error that shows the index. -/
theorem index_map {found : Option MapEntry} (hw : h.WellTyped) (hm : h.get? m = some (.map entries)) (hk : k.Resolves h)
    (herror : k.isError = false) (hfound : entries.get? (h.keyOf k) = found) : HeapM.index (.ref .map m) k h =
      found.elim (HeapM.errorValue s!"key {h.describe k} not found" h) fun e => .ok e.value h := by
  have hread : h.mapGet? m k = .ok (found.map MapEntry.value) := by
    simp only [mapGet?, hw.mapKey_eq hk, map_of_get? hm, ← hfound]
    rfl
  refine (congrFun ((if_neg Bool.false_ne_true).trans (if_neg (Bool.eq_false_iff.1 herror))) h).trans ?_
  refine (HeapM.read_bind hread).trans ?_
  cases found with
  | some e => rfl
  | none => rfl

/-- A member of a map is the value under its name. -/
theorem member_map {e : MapEntry} {name : String} (hm : h.get? m = some (.map entries)) (hfound : entries.get? (.text name) = some e) :
    HeapM.member (.ref .map m) name h = .ok e.value h := by
  refine HeapM.member_of_member? ((HeapM.read_bind (map_of_get? hm)).trans ?_)
  rw [HeapM.mapMember, hfound]
  rfl

/-- The key of a text is the text. -/
theorem keyOf_text {a : Handle} {s : String} (ha : h.get? a = some (.text s)) : h.keyOf (.ref .string a) = .text s := by
  simp only [keyOf, mapKey, mapKeyWithin, text, ha]
  rfl

/-- A map that holds pairs shows them. -/
theorem Holds.reflects (hb : h.Holds m pairs) : h.Reflects m pairs := by
  obtain ⟨hw, hs, entries, hm, hc⟩ := hb
  refine ⟨⟨entries, hm, hc.size_eq hw, fun e => ?_⟩, fun k p hk herror hp => ?_, fun k hk herror hp => ?_, fun a name ha hp => ?_⟩
  · rw [Table.values, List.mem_map]
    constructor
    · rintro ⟨⟨l, e⟩, he, rfl⟩
      exact ((hc.mem_iff hw).1 he).2
    · exact fun hp => ⟨_, (hc.mem_iff hw).2 ⟨rfl, hp⟩, rfl⟩
  · have hfound := hc.get?_keyOf hw hk
    rw [hp] at hfound
    exact index_map hw hm hk.resolves herror hfound
  · have hfound := hc.get?_keyOf hw hk
    rw [hp] at hfound
    exact (HeapM.makes_errorValue hs _).congr (index_map hw hm hk.resolves herror hfound)
  · obtain ⟨p, hp⟩ := Option.isSome_iff_exists.1 hp
    have hk := IsKey.text ha
    have hfound := hc.get?_keyOf hw hk
    rw [hp] at hfound
    rw [index_map hw hm hk.resolves rfl hfound]
    exact member_map hm (keyOf_text ha ▸ hfound)

/-- A list of pairs whose keys hold no NaN makes a new map, unless the heap is full. Such a map shows its pairs at any time: it has
an entry for each class of equal keys, which is the last pair of its class, and is found by every value that equals its key. A pair
can be stored in it, and is then the last pair of the list. -/
theorem mapLiteral_lastWins :
    (∀ (h : Heap) (pairs : List (Value × Value)), h.WellTyped → h.Sparse → h.Room →
      (∀ p ∈ pairs, h.IsKey p.1 ∧ p.2.Resolves h) →
      (h.atLimit = true → HeapM.allocMap pairs h = .error (.heap (.exhausted (h.limit.getD 0))) h) ∧
      (h.atLimit = false → ∃ m h', HeapM.allocMap pairs h = .ok (.ref .map m) h' ∧ ¬h.Issued m ∧
        (∀ c o, h.get? c = some o → h'.get? c = some o) ∧ Built h' m pairs)) ∧
    ∀ (h : Heap) (m : Handle) (pairs : List (Value × Value)), Built h m pairs → h.Reflects m pairs ∧
      ∀ k v, h.IsKey k → v.Resolves h → ∃ h', HeapM.mapInsert m k v h = .ok () h' ∧ Built h' m (pairs ++ [(k, v)]) := by
  refine ⟨fun h pairs hw hs hr hpairs => ?_, fun h m pairs hb => ⟨hb.holds.reflects, fun k v hk hv => ?_⟩⟩
  · obtain ⟨entries, ht, -⟩ := exists_entryTable hw fun p hp => (hpairs p hp).1
    have hmakes : (HeapM.allocMap pairs).Makes h .map (.map entries) := (HeapM.makes_allocRef hs).congr (allocMap_eq ht)
    refine ⟨hmakes.full, fun hlimit => ?_⟩
    obtain ⟨m, h', hok, hkept, hnew⟩ := hmakes.made hlimit
    exact ⟨m, h', hok, (hnew hr).1, hkept, .literal hw hs hr hpairs hok⟩
  · obtain ⟨h', hinsert, -⟩ := hb.holds.insert hk hv
    exact ⟨h', hinsert, hb.insert hk hv hinsert⟩

/-- Two arrays that are equal, though they hold different kinds of zero, are one key: the second pair counts. -/
theorem mapLiteral_lastWins_zeroSample : ∃ m h',
    HeapM.allocMap [(.ref .array ⟨1, 0⟩, .int 10), (.ref .array ⟨3, 0⟩, .int 20)] zeroSample = .ok (.ref .map m) h' ∧
    h'.Reflects m [(.ref .array ⟨1, 0⟩, .int 10), (.ref .array ⟨3, 0⟩, .int 20)] ∧
    HeapM.index (.ref .map m) (.ref .array ⟨1, 0⟩) h' = .ok (.int 20) h' := by
  have hminus : zeroSample.IsKey (.ref .array ⟨0, 0⟩) := .array rfl (List.forall_mem_singleton.2 (.num rfl))
  have hzero : zeroSample.IsKey (.ref .array ⟨2, 0⟩) := .array rfl (List.forall_mem_singleton.2 (.num rfl))
  have hfirst : zeroSample.IsKey (.ref .array ⟨1, 0⟩) := .array rfl (List.forall_mem_singleton.2 hminus)
  have hsecond : zeroSample.IsKey (.ref .array ⟨3, 0⟩) := .array rfl (List.forall_mem_singleton.2 hzero)
  obtain ⟨m, h', hok, -, hkept, hbuilt⟩ := (mapLiteral_lastWins.1 zeroSample
    [(.ref .array ⟨1, 0⟩, .int 10), (.ref .array ⟨3, 0⟩, .int 20)] wellTyped_zeroSample (.of_free_nil rfl (by decide) (by decide))
    (by decide : 4 < maxSlots) (by simp [hfirst, hsecond, Value.int, Value.Resolves])).2 rfl
  have hreflects := (mapLiteral_lastWins.2 h' m _ hbuilt).1
  have hequal : h'.equal (.ref .array ⟨3, 0⟩) (.ref .array ⟨1, 0⟩) = .ok true :=
    (hsecond.equal_transfer hfirst wellTyped_zeroSample hbuilt.holds.wellTyped (keepsKey_of_kept hkept) (keepsKey_of_kept hkept)).2
      (by decide +kernel)
  refine ⟨m, h', hok, hreflects, hreflects.found _ (.ref .array ⟨3, 0⟩, .int 20) ?_ rfl ?_⟩
  · exact hfirst.transfer wellTyped_zeroSample (keepsKey_of_kept hkept)
  · exact (h'.lastPair?_concat [_]).trans (if_pos hequal)

end Heap

end ScriptVM
