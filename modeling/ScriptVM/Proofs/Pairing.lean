import Mathlib.Data.Finset.Card
import Mathlib.Data.Finset.Lattice.Fold
import ScriptVM.Proofs.Collection
import ScriptVM.Proofs.Correspondence

/-!
# Two heaps that run side by side

A `Pairing` is two heaps with a correspondence between the handles that were issued on both of them at one time. It is `Sound` when
the handles of a pair that still resolve lead to objects that are the same up to their handles, and these handles resolve too. What
the operations on heaps do to a pairing is stated here: placing an object (`Sound.place`), changing one (`Sound.update`) and
collecting on either side (`Sound.shrink`).
-/

namespace ScriptVM

/-! ## Nesting -/

/-- The handles of the objects that an object contains: a walk through arrays, maps or environments goes on with them. -/
def Object.parts : Object → List Handle
  | .array items => (Object.array items).references
  | .map entries => (Object.map entries).references
  | .environment e => e.parent.toList
  | _ => []

/-- What an object contains it refers to. -/
theorem Object.parts_subset {o : Object} {c : Handle} (hc : c ∈ o.parts) : c ∈ o.references := by
  cases o with
  | array items => exact hc
  | map entries => exact hc
  | environment e => exact List.mem_append_right _ hc
  | _ => nomatch hc

/-- A change of an object that keeps its kind and what it contains, and that does not change arrays and maps. -/
structure Object.KeepsShape (f : Object → Object) : Prop where
  kind? : ∀ o, (f o).kind? = o.kind?
  parts : ∀ o, (f o).parts = o.parts
  array : ∀ items, f (.array items) = .array items
  map : ∀ {o entries}, f o = .map entries → o = .map entries

/-- A handle that is met on the way from a value through arrays; a key of the value may name it. -/
inductive Heap.Inside (h : Heap) (c : Handle) : Value → Prop where
  | self {kind : RefKind} : Heap.Inside h c (.ref kind c)
  | item {a : Handle} {items : Array Value} {v : Value} : h.get? a = some (.array items) → v ∈ items.toList → Heap.Inside h c v →
      Heap.Inside h c (.ref .array a)

/-- The keys of a map name what is inside the values they were made from. -/
def Object.Keyed (h : Heap) : Object → Prop
  | .map entries => ∀ p ∈ entries.toList, ∀ c ∈ p.1.handles, h.Inside c p.2.key
  | _ => True

namespace Heap

/-- What resolves after a change is what did before, changed if it is the object in question. -/
theorem get?_update_eq_some {h : Heap} {a c : Handle} {f : Object → Object} {o' : Object} (ho' : (h.update a f).get? c = some o') :
    ∃ o, h.get? c = some o ∧ o' = if c = a then f o else o := by
  rw [get?_update] at ho'
  by_cases hca : c = a
  · rw [if_pos hca] at ho'
    obtain ⟨o, ho, rfl⟩ := Option.map_eq_some_iff.1 ho'
    exact ⟨o, ho, by rw [if_pos hca]⟩
  · rw [if_neg hca] at ho'
    exact ⟨o', ho', by rw [if_neg hca]⟩

/-- The objects of a set contain objects of the set only, and none contains itself, however deep. -/
def Nested (h : Heap) (L : Handle → Prop) : Prop :=
  ∃ rank : Handle → Nat, ∀ a o, L a → h.get? a = some o → ∀ c ∈ o.parts, L c ∧ rank c < rank a

variable {h h' : Heap} {L L' : Handle → Prop}

/-- A change that keeps the shape leaves what an object contains. -/
theorem parts_of_get?_update {f : Object → Object} (hf : Object.KeepsShape f) {a c : Handle} {o' : Object}
    (ho' : (h.update a f).get? c = some o') : ∃ o, h.get? c = some o ∧ o.parts = o'.parts := by
  obtain ⟨o, ho, hoc⟩ := get?_update_eq_some ho'
  refine ⟨o, ho, ?_⟩
  rw [hoc]
  split
  · exact (hf.parts o).symm
  · rfl

/-- A set of objects that contain what they contained is nested as before. -/
theorem Nested.of_parts (hn : h.Nested L) (hL : ∀ a, L' a → L a)
    (hparts : ∀ a o', L' a → h'.get? a = some o' → ∃ o, h.get? a = some o ∧ o.parts = o'.parts)
    (hclosed : ∀ a o', L' a → h'.get? a = some o' → ∀ c ∈ o'.parts, L' c) : h'.Nested L' := by
  obtain ⟨rank, hrank⟩ := hn
  refine ⟨rank, fun a o' ha ho' c hc => ⟨hclosed a o' ha ho' c hc, ?_⟩⟩
  obtain ⟨o, ho, heq⟩ := hparts a o' ha ho'
  exact (hrank a o (hL a ha) ho c (heq ▸ hc)).2

/-- A new object contains older ones only. -/
theorem Nested.place {o : Object} (hn : h.Nested L) (ht : h.Sparse) (hr : h.Room) (hissued : ∀ a, L a → h.Issued a)
    (hL : ∀ a, L' a ↔ a = (h.place o).1 ∨ L a) (hparts : ∀ c ∈ o.parts, L c) : (h.place o).2.Nested L' := by
  obtain ⟨rank, hrank⟩ := hn
  have hne : ∀ c, L c → c ≠ (h.place o).1 := by
    rintro c hc rfl
    exact not_issued_place ht hr (hissued _ hc)
  have hsup : ∀ c ∈ o.parts, rank c < o.parts.toFinset.sup rank + 1 := by
    intro c hc
    exact Nat.lt_succ_of_le (Finset.le_sup (List.mem_toFinset.2 hc))
  refine ⟨fun c => if c = (h.place o).1 then o.parts.toFinset.sup rank + 1 else rank c, fun a o' ha ho' c hc => ?_⟩
  rcases (hL a).1 ha with rfl | hold
  · rw [get?_place_self ht hr] at ho'
    cases ho'
    have hlive := hparts c hc
    refine ⟨(hL c).2 (.inr hlive), ?_⟩
    simpa only [if_neg (hne c hlive), if_pos] using hsup c hc
  · rw [get?_place_of_ne ht hr (hne a hold)] at ho'
    obtain ⟨hlive, hlt⟩ := hrank a o' hold ho' c hc
    refine ⟨(hL c).2 (.inr hlive), ?_⟩
    simpa only [if_neg (hne c hlive), if_neg (hne a hold)] using hlt

/-- What is inside a value of a set stays inside it on a heap that has the arrays of the set. -/
theorem Inside.transfer (hL : ∀ a items, L a → h.get? a = some (.array items) → h'.get? a = some (.array items) ∧
      ∀ v ∈ items.toList, ∀ c, v.handle? = some c → L c) {c : Handle} {v : Value} (hc : h.Inside c v)
    (hv : ∀ a, v.handle? = some a → L a) : h'.Inside c v := by
  induction hc with
  | self => exact .self
  | item ha hmem _ ih =>
    obtain ⟨ha', hitems⟩ := hL _ _ (hv _ rfl) ha
    exact .item ha' hmem (ih (hitems _ hmem))

/-- What is inside a value of a closed set is in the set. -/
theorem Inside.mem (hL : ∀ a items, L a → h.get? a = some (.array items) → ∀ v ∈ items.toList, ∀ c, v.handle? = some c → L c)
    {c : Handle} {v : Value} (hc : h.Inside c v) (hv : ∀ a, v.handle? = some a → L a) : L c := by
  induction hc with
  | self => exact hv _ rfl
  | item ha hmem _ ih => exact ih (hL _ _ (hv _ rfl) ha _ hmem)

/-- The keys of an object of a set are as they were on a heap that has the arrays of the set. -/
theorem keyed_transfer {o : Object} (ho : o.Keyed h) (href : ∀ c ∈ o.references, L c)
    (hL : ∀ a items, L a → h.get? a = some (.array items) → h'.get? a = some (.array items) ∧
      ∀ v ∈ items.toList, ∀ c, v.handle? = some c → L c) : o.Keyed h' := by
  cases o with
  | map entries =>
    intro p hp c hc
    refine (ho p hp c hc).transfer hL fun a ha => href a ?_
    exact List.mem_flatMap.2 ⟨p.2, List.mem_map_of_mem hp, by simp [ha]⟩
  | _ => trivial

/-- Objects that are ordered have a depth below the number of slots: the number of slots with smaller objects. -/
theorem exists_depth (lt : Handle → Handle → Prop) (hlive : ∀ a, L a → (h.get? a).isSome) (hirrefl : ∀ a, ¬lt a a)
    (htrans : ∀ a c d, lt d c → lt c a → lt d a) :
    ∃ depth : Handle → Nat, (∀ a, L a → depth a < h.slots.size) ∧ ∀ a c, L c → lt c a → depth c < depth a := by
  classical
  let below (a : Handle) (i : Nat) : Prop := ∃ c, L c ∧ c.index.toNat = i ∧ lt c a
  let depth (a : Handle) : Nat := ((Finset.range h.slots.size).filter (below a)).card
  have hindex : ∀ a, L a → a.index.toNat ∈ Finset.range h.slots.size := by
    intro a ha
    obtain ⟨o, ho⟩ := Option.isSome_iff_exists.1 (hlive a ha)
    obtain ⟨s, hs, -⟩ := get?_eq_some.1 ho
    exact Finset.mem_range.2 (Array.getElem?_eq_some_iff.1 hs).1
  have hself : ∀ a, L a → ¬below a a.index.toNat := by
    rintro a ha ⟨c, hc, hi, hlt⟩
    obtain ⟨o, ho⟩ := Option.isSome_iff_exists.1 (hlive a ha)
    obtain ⟨p, hp⟩ := Option.isSome_iff_exists.1 (hlive c hc)
    rw [eq_of_get?_of_index hp ho hi] at hlt
    exact hirrefl _ hlt
  refine ⟨depth, fun a ha => ?_, fun a c hc hlt => Finset.card_lt_card ?_⟩
  · have hsub : (Finset.range h.slots.size).filter (below a) ⊂ Finset.range h.slots.size := by
      refine Finset.filter_ssubset.2 ⟨a.index.toNat, hindex a ha, hself a ha⟩
    calc depth a < (Finset.range h.slots.size).card := Finset.card_lt_card hsub
      _ = h.slots.size := Finset.card_range _
  · rw [Finset.ssubset_iff_of_subset]
    · refine ⟨c.index.toNat, Finset.mem_filter.2 ⟨hindex c hc, c, hc, rfl, hlt⟩, fun hmem => ?_⟩
      exact hself c hc (Finset.mem_filter.1 hmem).2
    · intro i hi
      obtain ⟨hrange, d, hd, hdi, hdlt⟩ := Finset.mem_filter.1 hi
      exact Finset.mem_filter.2 ⟨hrange, d, hd, hdi, htrans a c d hdlt hlt⟩

/-- Nested objects have a depth below the number of slots. -/
theorem Nested.depth (hn : h.Nested L) (hlive : ∀ a, L a → (h.get? a).isSome) : ∃ depth : Handle → Nat,
    (∀ a, L a → depth a < h.slots.size) ∧ ∀ a o, L a → h.get? a = some o → ∀ c ∈ o.parts, L c ∧ depth c < depth a := by
  obtain ⟨rank, hrank⟩ := hn
  obtain ⟨depth, hsize, hdepth⟩ := exists_depth (fun c a => rank c < rank a) hlive (fun a => Nat.lt_irrefl _)
    fun a c d => Nat.lt_trans
  refine ⟨depth, hsize, fun a o ha ho c hc => ?_⟩
  obtain ⟨hLc, hlt⟩ := hrank a o ha ho c hc
  exact ⟨hLc, hdepth a c hLc hlt⟩

/-! ## Collections on one side -/

/-- A heap after a collection from the given roots, or the heap as it was. -/
structure Shrinks (h : Heap) (roots : List Handle) (h' : Heap) : Prop where
  get? : ∀ {a o}, h'.get? a = some o → h.get? a = some o
  kept : ∀ {a o}, h.get? a = some o → h.Reachable roots a → h'.get? a = some o
  closed : ∀ {a c o p}, h'.get? a = some o → c ∈ o.references → h.get? c = some p → h'.get? c = some p
  issued : ∀ {a}, h.Issued a → h'.Issued a
  tidy : h'.Tidy
  limit : h'.limit = h.limit

/-- No collection at all is a collection to what a pairing knows of it. -/
theorem Shrinks.refl (ht : h.Tidy) (roots : List Handle) : h.Shrinks roots h :=
  ⟨fun ho => ho, fun ho _ => ho, fun _ _ hp => hp, fun ha => ha, ht, rfl⟩

/-- A collection shrinks the heap to what its roots reach. -/
theorem Shrinks.collect (ht : h.Tidy) (hc : h.last.collections + 1 < UInt32.size) (roots : List Handle) :
    h.Shrinks roots (h.collect roots) := by
  have hget : ∀ {a o}, (h.collect roots).get? a = some o ↔ h.get? a = some o ∧ h.Reachable roots a := get?_collect ht.unmarked
  refine ⟨get?_of_get?_collect, fun ho hr => hget.2 ⟨ho, hr⟩, fun ho hmem hp => ?_, issued_collect ht hc, ht.collect hc, rfl⟩
  obtain ⟨ho, hr⟩ := hget.1 ho
  exact hget.2 ⟨hp, .reference hr ho hmem⟩

/-- Reachability carries over along a relation that references keep. -/
theorem Reachable.transfer {roots roots' : List Handle} {T : Handle → Handle → Prop}
    (hroots : ∀ a ∈ roots, ∃ b ∈ roots', T a b)
    (href : ∀ {a b o}, T a b → h.get? a = some o → ∃ p, h'.get? b = some p ∧ ∀ c ∈ o.references, ∃ d ∈ p.references, T c d)
    {a : Handle} (ha : h.Reachable roots a) : ∃ b, T a b ∧ h'.Reachable roots' b := by
  induction ha with
  | root hmem =>
    obtain ⟨b, hb, hab⟩ := hroots _ hmem
    exact ⟨b, hab, .root hb⟩
  | reference _ ho hc ih =>
    obtain ⟨b, hab, hb⟩ := ih
    obtain ⟨p, hp, hrefs⟩ := href hab ho
    obtain ⟨d, hd, hcd⟩ := hrefs _ hc
    exact ⟨d, hcd, .reference hb hp hd⟩

end Heap

/-! ## Pairings -/

/-- A correspondence with one more pair. -/
def Correspondence.add (R : Correspondence) (kind : Option RefKind) (a b : Handle) : Correspondence :=
  fun k c d => R k c d ∨ (k = kind ∧ c = a ∧ d = b)

/-- Two heaps, and which of their handles were issued for one object. -/
structure Pairing where
  left : Heap
  right : Heap
  same : Correspondence

namespace Pairing

/-- The handles that were issued for one object and still resolve. -/
def Live (W : Pairing) : Correspondence :=
  fun kind a b => W.same kind a b ∧ (W.left.get? a).isSome ∧ (W.right.get? b).isSome

/-- The objects on the left that live on both sides. -/
def LiveLeft (W : Pairing) (a : Handle) : Prop := ∃ kind b, W.Live kind a b

/-- The objects on the right that live on both sides. -/
def LiveRight (W : Pairing) (b : Handle) : Prop := ∃ kind a, W.Live kind a b

/-- Every object on the left lives on both sides. -/
def Whole (W : Pairing) : Prop := ∀ a o, W.left.get? a = some o → ∃ b, W.Live o.kind? a b

/-- Both heaps have room for one more slot. -/
def Room (W : Pairing) : Prop := W.left.Room ∧ W.right.Room

/-- Pairs are one to one, what lives on both sides is the same up to the handles and refers to what lives on both sides, and the
heaps fill up at the same time, if at all. -/
structure Sound (W : Pairing) : Prop where
  oneToOne : W.same.OneToOne
  issued : ∀ {kind a b}, W.same kind a b → W.left.Issued a ∧ W.right.Issued b
  object : ∀ {kind a b o p}, W.same kind a b → W.left.get? a = some o → W.right.get? b = some p →
    o.kind? = kind ∧ ObjectRel W.same W.Live o p
  keyed : ∀ {a o}, W.LiveLeft a → W.left.get? a = some o → o.Keyed W.left
  nestedLeft : W.left.Nested W.LiveLeft
  nestedRight : W.right.Nested W.LiveRight
  tidyLeft : W.left.Tidy
  tidyRight : W.right.Tidy
  limit : W.left.limit = W.right.limit
  live : W.left.limit = none ∨ W.left.live = W.right.live

/-- A later pairing: what was paired is paired, and what lived on both sides still does. -/
structure Extends (W W' : Pairing) : Prop where
  same : ∀ {kind a b}, W.same kind a b → W'.same kind a b
  live : ∀ {kind a b}, W.Live kind a b → W'.Live kind a b
  whole : W.Whole → W'.Whole

theorem Extends.refl (W : Pairing) : W.Extends W := ⟨fun h => h, fun h => h, fun h => h⟩

/-- An extension of an extension extends the first pairing. -/
theorem Extends.trans {W W' W'' : Pairing} (h : W.Extends W') (h' : W'.Extends W'') : W.Extends W'' :=
  ⟨fun hs => h'.same (h.same hs), fun hl => h'.live (h.live hl), fun hw => h'.whole (h.whole hw)⟩

variable {W : Pairing}

/-- Handles that live on both sides are paired. -/
theorem Live.same {kind : Option RefKind} {a b : Handle} (h : W.Live kind a b) : W.same kind a b := h.1

/-- What lives on both sides leads to objects that are the same up to the handles. -/
theorem Sound.objects (hW : W.Sound) {kind : Option RefKind} {a b : Handle} (h : W.Live kind a b) :
    ∃ o p, W.left.get? a = some o ∧ W.right.get? b = some p ∧ o.kind? = kind ∧ ObjectRel W.same W.Live o p := by
  obtain ⟨hsame, hl, hr⟩ := h
  obtain ⟨o, ho⟩ := Option.isSome_iff_exists.1 hl
  obtain ⟨p, hp⟩ := Option.isSome_iff_exists.1 hr
  exact ⟨o, p, ho, hp, hW.object hsame ho hp⟩

/-- Handles that live on both sides do so one to one. -/
theorem Sound.live_oneToOne (hW : W.Sound) : W.Live.OneToOne := fun h h' => hW.oneToOne h.1 h'.1

/-- The objects on the left that live on both sides refer to such objects. -/
theorem Sound.liveLeft_references (hW : W.Sound) {a c : Handle} {o : Object} (ha : W.LiveLeft a) (ho : W.left.get? a = some o)
    (hc : c ∈ o.references) : W.LiveLeft c := by
  obtain ⟨kind, b, hab⟩ := ha
  obtain ⟨o', p, ho', -, -, hrel⟩ := hW.objects hab
  rw [ho] at ho'
  cases ho'
  obtain ⟨d, -, k, hcd⟩ := forall₂_exists_right hrel.references hc
  exact ⟨k, d, hcd⟩

/-- What an object on the right refers to lives on both sides with it. -/
theorem Sound.liveRight_references (hW : W.Sound) {b d : Handle} {p : Object} (hb : W.LiveRight b) (hp : W.right.get? b = some p)
    (hd : d ∈ p.references) : W.LiveRight d := by
  obtain ⟨kind, a, hab⟩ := hb
  obtain ⟨o, p', -, hp', -, hrel⟩ := hW.objects hab
  rw [hp] at hp'
  cases hp'
  obtain ⟨c, -, k, hcd⟩ := forall₂_exists_left hrel.references hd
  exact ⟨k, c, hcd⟩

/-- The items of an array on the left live on both sides with it. -/
theorem Sound.liveLeft_items (hW : W.Sound) {a : Handle} {items : Array Value} (ha : W.LiveLeft a)
    (ho : W.left.get? a = some (.array items)) : ∀ v ∈ items.toList, ∀ c, v.handle? = some c → W.LiveLeft c :=
  fun v hv _ hc => hW.liveLeft_references ha ho (List.mem_filterMap.2 ⟨v, hv, hc⟩)

/-! ### Placing an object on both sides -/

/-- An object placed on both sides. -/
def place (W : Pairing) (o p : Object) : Pairing where
  left := (W.left.place o).2
  right := (W.right.place p).2
  same := W.same.add o.kind? (W.left.place o).1 (W.right.place p).1

section Place

variable {o p : Object}

/-- What lived on both sides still does after an object is placed on both. -/
theorem live_place (hW : W.Sound) (hr : W.Room) {kind : Option RefKind} {a b : Handle} (h : W.Live kind a b) :
    (W.place o p).Live kind a b := by
  obtain ⟨hsame, hl, hr'⟩ := h
  obtain ⟨q, hq⟩ := Option.isSome_iff_exists.1 hl
  obtain ⟨q', hq'⟩ := Option.isSome_iff_exists.1 hr'
  refine ⟨.inl hsame, ?_, ?_⟩
  · exact Option.isSome_iff_exists.2 ⟨q, Heap.get?_place_of_get? hW.tidyLeft.toSparse hr.1 hq⟩
  · exact Option.isSome_iff_exists.2 ⟨q', Heap.get?_place_of_get? hW.tidyRight.toSparse hr.2 hq'⟩

/-- The objects placed live on both sides. -/
theorem live_place_self (hW : W.Sound) (hr : W.Room) : (W.place o p).Live o.kind? (W.left.place o).1 (W.right.place p).1 := by
  refine ⟨.inr ⟨rfl, rfl, rfl⟩, ?_, ?_⟩
  · exact Option.isSome_iff_exists.2 ⟨o, Heap.get?_place_self hW.tidyLeft.toSparse hr.1⟩
  · exact Option.isSome_iff_exists.2 ⟨p, Heap.get?_place_self hW.tidyRight.toSparse hr.2⟩

/-- The handles of an earlier pair are not those of the new object. -/
theorem Sound.ne_place (hW : W.Sound) (hr : W.Room) {kind : Option RefKind} {a b : Handle} (h : W.same kind a b) :
    a ≠ (W.left.place o).1 ∧ b ≠ (W.right.place p).1 := by
  obtain ⟨hl, hr'⟩ := hW.issued h
  constructor
  · rintro rfl
    exact Heap.not_issued_place hW.tidyLeft.toSparse hr.1 hl
  · rintro rfl
    exact Heap.not_issued_place hW.tidyRight.toSparse hr.2 hr'

/-- What lives on both sides after placing an object: the object, and what did before. -/
theorem live_place_iff (hW : W.Sound) (hr : W.Room) {kind : Option RefKind} {a b : Handle} :
    (W.place o p).Live kind a b ↔ (kind = o.kind? ∧ a = (W.left.place o).1 ∧ b = (W.right.place p).1) ∨ W.Live kind a b := by
  constructor
  · rintro ⟨hsame | hnew, hl, hr'⟩
    · right
      obtain ⟨ha, hb⟩ := hW.ne_place (o := o) (p := p) hr hsame
      refine ⟨hsame, ?_, ?_⟩
      · rwa [← Heap.get?_place_of_ne hW.tidyLeft.toSparse hr.1 ha]
      · rwa [← Heap.get?_place_of_ne hW.tidyRight.toSparse hr.2 hb]
    · exact .inl hnew
  · rintro (⟨rfl, rfl, rfl⟩ | h)
    · exact live_place_self hW hr
    · exact live_place hW hr h

/-- Placing objects that are the same up to handles on both sides keeps a pairing sound. -/
theorem Sound.place (hW : W.Sound) (hr : W.Room) (ho : ObjectRel W.same W.Live o p) (hkeyed : o.Keyed W.left) :
    (W.place o p).Sound := by
  have hold : ∀ {kind a b}, W.same kind a b → (W.place o p).same kind a b := fun h => .inl h
  have hlive : ∀ {kind a b}, W.Live kind a b → (W.place o p).Live kind a b := fun h => live_place hW hr h
  have hrel : ∀ {q q' : Object}, ObjectRel W.same W.Live q q' → ObjectRel (W.place o p).same (W.place o p).Live q q' :=
    fun h => h.imp (fun _ _ _ _ _ => hold) fun _ _ _ _ _ => hlive
  have hrefs : ∀ c ∈ o.references, W.LiveLeft c := by
    intro c hc
    obtain ⟨d, -, k, hcd⟩ := forall₂_exists_right ho.references hc
    exact ⟨k, d, hcd⟩
  have harrays : ∀ a items, W.LiveLeft a → W.left.get? a = some (.array items) →
      (W.left.place o).2.get? a = some (.array items) ∧ ∀ v ∈ items.toList, ∀ c, v.handle? = some c → W.LiveLeft c :=
    fun a items ha hitems => ⟨Heap.get?_place_of_get? hW.tidyLeft.toSparse hr.1 hitems, hW.liveLeft_items ha hitems⟩
  constructor
  case oneToOne =>
    rintro k k' a b a' b' (h | ⟨rfl, rfl, rfl⟩) (h' | ⟨rfl, rfl, rfl⟩)
    · exact hW.oneToOne h h'
    · obtain ⟨ha, hb⟩ := hW.ne_place (o := o) (p := p) hr h
      exact iff_of_false ha hb
    · obtain ⟨ha, hb⟩ := hW.ne_place (o := o) (p := p) hr h'
      exact iff_of_false (Ne.symm ha) (Ne.symm hb)
    · exact iff_of_true rfl rfl
  case issued =>
    rintro k a b (h | ⟨rfl, rfl, rfl⟩)
    · obtain ⟨hl, hr'⟩ := hW.issued h
      exact ⟨Heap.issued_place hW.tidyLeft.toSparse hr.1 hl, Heap.issued_place hW.tidyRight.toSparse hr.2 hr'⟩
    · exact ⟨Heap.issued_place_self hW.tidyLeft.toSparse hr.1, Heap.issued_place_self hW.tidyRight.toSparse hr.2⟩
  case object =>
    rintro k a b q q' (h | ⟨rfl, rfl, rfl⟩) hq hq'
    · obtain ⟨ha, hb⟩ := hW.ne_place (o := o) (p := p) hr h
      have hq₁ : W.left.get? a = some q := (Heap.get?_place_of_ne hW.tidyLeft.toSparse hr.1 ha).symm.trans hq
      have hq₂ : W.right.get? b = some q' := (Heap.get?_place_of_ne hW.tidyRight.toSparse hr.2 hb).symm.trans hq'
      obtain ⟨hkind, hobj⟩ := hW.object h hq₁ hq₂
      exact ⟨hkind, hrel hobj⟩
    · cases (Heap.get?_place_self hW.tidyLeft.toSparse hr.1).symm.trans hq
      cases (Heap.get?_place_self hW.tidyRight.toSparse hr.2).symm.trans hq'
      exact ⟨rfl, hrel ho⟩
  case keyed =>
    rintro a q ⟨k, b, h⟩ hq
    rcases (live_place_iff hW hr).1 h with ⟨-, rfl, -⟩ | h
    · cases (Heap.get?_place_self hW.tidyLeft.toSparse hr.1).symm.trans hq
      exact Heap.keyed_transfer hkeyed hrefs harrays
    · have hq' := (Heap.get?_place_of_ne hW.tidyLeft.toSparse hr.1 (hW.ne_place (p := p) hr h.1).1).symm.trans hq
      exact Heap.keyed_transfer (hW.keyed ⟨k, b, h⟩ hq') (fun c hc => hW.liveLeft_references ⟨k, b, h⟩ hq' hc) harrays
  case nestedLeft =>
    refine hW.nestedLeft.place hW.tidyLeft.toSparse hr.1 (fun a ⟨_, _, h⟩ => (hW.issued h.1).1) (fun a => ?_) fun c hc => ?_
    · constructor
      · rintro ⟨k, b, h⟩
        rcases (live_place_iff hW hr).1 h with ⟨-, ha, -⟩ | h
        · exact .inl ha
        · exact .inr ⟨k, b, h⟩
      · rintro (rfl | ⟨k, b, h⟩)
        · exact ⟨_, _, live_place_self hW hr⟩
        · exact ⟨k, b, hlive h⟩
    · exact hrefs c (Object.parts_subset hc)
  case nestedRight =>
    refine hW.nestedRight.place hW.tidyRight.toSparse hr.2 (fun b ⟨_, _, h⟩ => (hW.issued h.1).2) (fun b => ?_) fun d hd => ?_
    · constructor
      · rintro ⟨k, a, h⟩
        rcases (live_place_iff hW hr).1 h with ⟨-, -, hb⟩ | h
        · exact .inl hb
        · exact .inr ⟨k, a, h⟩
      · rintro (rfl | ⟨k, a, h⟩)
        · exact ⟨_, _, live_place_self hW hr⟩
        · exact ⟨k, a, hlive h⟩
    · obtain ⟨c, -, k, h⟩ := forall₂_exists_left ho.references (Object.parts_subset hd)
      exact ⟨k, c, h⟩
  case tidyLeft => exact hW.tidyLeft.place hr.1
  case tidyRight => exact hW.tidyRight.place hr.2
  case limit => exact (Heap.limit_place _ o).trans (hW.limit.trans (Heap.limit_place _ p).symm)
  case live =>
    rcases hW.live with hnone | hlive
    · exact .inl ((Heap.limit_place _ o).trans hnone)
    · exact .inr (Heap.live_place.trans ((congrArg (· + 1) hlive).trans Heap.live_place.symm))

theorem Sound.extends_place (hW : W.Sound) (hr : W.Room) : W.Extends (W.place o p) := by
  refine ⟨fun h => .inl h, fun h => live_place hW hr h, fun hwhole a q hq => ?_⟩
  by_cases ha : a = (W.left.place o).1
  · subst ha
    cases (Heap.get?_place_self hW.tidyLeft.toSparse hr.1).symm.trans hq
    exact ⟨_, live_place_self hW hr⟩
  · obtain ⟨b, hb⟩ := hwhole _ _ ((Heap.get?_place_of_ne hW.tidyLeft.toSparse hr.1 ha).symm.trans hq)
    exact ⟨b, live_place hW hr hb⟩

end Place

/-! ### Changing an object on both sides -/

/-- An object changed on both sides. -/
def update (W : Pairing) (a b : Handle) (f g : Object → Object) : Pairing where
  left := W.left.update a f
  right := W.right.update b g
  same := W.same

section Update

variable {kind : Option RefKind} {a b : Handle} {f g : Object → Object}

/-- A change on both sides leaves what lives there. -/
theorem live_update : (W.update a b f g).Live = W.Live := by
  funext kind c d
  simp only [Live, update, Heap.isSome_get?_update]

/-- A change on both sides leaves what lives on the left. -/
theorem liveLeft_update : (W.update a b f g).LiveLeft = W.LiveLeft := by
  funext c
  rw [LiveLeft, LiveLeft, live_update]

/-- Changing two objects alike on both sides keeps a pairing sound. -/
theorem Sound.update (hW : W.Sound) (hab : W.same kind a b) (hf : Object.KeepsShape f) (hg : Object.KeepsShape g)
    (hfg : ∀ {o p}, ObjectRel W.same W.Live o p → ObjectRel W.same W.Live (f o) (g p)) : (W.update a b f g).Sound := by
  constructor
  case oneToOne => exact hW.oneToOne
  case issued =>
    intro k c d h
    obtain ⟨hl, hr⟩ := hW.issued h
    exact ⟨Heap.issued_update hl, Heap.issued_update hr⟩
  case object =>
    intro k c d o' p' h ho' hp'
    obtain ⟨o, ho, hoc⟩ := Heap.get?_update_eq_some ho'
    obtain ⟨p, hp, hpd⟩ := Heap.get?_update_eq_some hp'
    obtain ⟨hkind, hrel⟩ := hW.object h ho hp
    rw [live_update]
    by_cases hca : c = a
    · rw [if_pos hca] at hoc
      rw [if_pos ((hW.oneToOne h hab).1 hca)] at hpd
      rw [hoc, hpd]
      exact ⟨(hf.kind? o).trans hkind, hfg hrel⟩
    · rw [if_neg hca] at hoc
      rw [if_neg fun hdb => hca ((hW.oneToOne h hab).2 hdb)] at hpd
      rw [hoc, hpd]
      exact ⟨hkind, hrel⟩
  case keyed =>
    intro c o' hc ho'
    rw [liveLeft_update] at hc
    obtain ⟨o, ho, hoc⟩ := Heap.get?_update_eq_some ho'
    cases o' with
    | map entries =>
      -- A map is not changed, and neither are the arrays it may look into.
      have hmap : o = .map entries := by
        split at hoc
        · exact hf.map hoc.symm
        · exact hoc.symm
      subst hmap
      refine Heap.keyed_transfer (hW.keyed hc ho) (fun d hd => hW.liveLeft_references hc ho hd) fun d items hd hitems => ?_
      refine ⟨?_, hW.liveLeft_items hd hitems⟩
      change (W.left.update a f).get? d = _
      rw [Heap.get?_update, hitems]
      split
      · rw [Option.map_some, hf.array]
      · rfl
    | _ => trivial
  case nestedLeft =>
    rw [liveLeft_update]
    refine hW.nestedLeft.of_parts (fun _ hc => hc) (fun c o' _ ho' => Heap.parts_of_get?_update hf ho') fun c o' hc ho' d hd => ?_
    obtain ⟨o, ho, heq⟩ := Heap.parts_of_get?_update hf ho'
    exact hW.liveLeft_references hc ho (Object.parts_subset (heq ▸ hd))
  case nestedRight =>
    have hL : (W.update a b f g).LiveRight = W.LiveRight := by
      funext c
      rw [LiveRight, LiveRight, live_update]
    rw [hL]
    refine hW.nestedRight.of_parts (fun _ hc => hc) (fun c o' _ ho' => Heap.parts_of_get?_update hg ho') fun c o' hc ho' d hd => ?_
    obtain ⟨o, ho, heq⟩ := Heap.parts_of_get?_update hg ho'
    exact hW.liveRight_references hc ho (Object.parts_subset (heq ▸ hd))
  case tidyLeft => exact hW.tidyLeft.update
  case tidyRight => exact hW.tidyRight.update
  case limit => exact hW.limit
  case live => exact hW.live

theorem extends_update (hf : Object.KeepsShape f) : W.Extends (W.update a b f g) := by
  refine ⟨fun h => h, fun h => by rw [live_update]; exact h, fun hwhole c o' ho' => ?_⟩
  obtain ⟨o, ho, hoc⟩ := Heap.get?_update_eq_some ho'
  obtain ⟨d, hd⟩ := hwhole _ _ ho
  have hkind : o'.kind? = o.kind? := by
    rw [hoc]
    split
    · exact hf.kind? o
    · rfl
  exact ⟨d, by rw [live_update, hkind]; exact hd⟩

end Update

/-! ### Collecting on either side -/

section Shrink

variable {roots roots' : List Handle} {l r : Heap}

/-- Collections on either side keep a pairing sound, as long as the heaps cannot fill up or stay equally full. -/
theorem Sound.shrink (hW : W.Sound) (hl : W.left.Shrinks roots l) (hr : W.right.Shrinks roots' r)
    (hlive : l.limit = none ∨ l.live = r.live) : (Pairing.mk l r W.same).Sound := by
  -- A pair that lives after the collections lived before, and so did what its objects refer to.
  have hold : ∀ {k c d}, (Pairing.mk l r W.same).Live k c d → W.Live k c d := by
    rintro k c d ⟨hs, hc, hd⟩
    obtain ⟨o, ho⟩ := Option.isSome_iff_exists.1 hc
    obtain ⟨p, hp⟩ := Option.isSome_iff_exists.1 hd
    exact ⟨hs, Option.isSome_iff_exists.2 ⟨o, hl.get? ho⟩, Option.isSome_iff_exists.2 ⟨p, hr.get? hp⟩⟩
  have hrefs : ∀ {k k' a b c d o p}, W.same k' a b → l.get? a = some o → r.get? b = some p → c ∈ o.references →
      d ∈ p.references → W.Live k c d → (Pairing.mk l r W.same).Live k c d := by
    rintro k k' a b c d o p - ho hp hc hd ⟨hs, hlc, hrd⟩
    obtain ⟨oc, hoc⟩ := Option.isSome_iff_exists.1 hlc
    obtain ⟨pd, hpd⟩ := Option.isSome_iff_exists.1 hrd
    exact ⟨hs, Option.isSome_iff_exists.2 ⟨oc, hl.closed ho hc hoc⟩, Option.isSome_iff_exists.2 ⟨pd, hr.closed hp hd hpd⟩⟩
  have hobject : ∀ {k a b o p}, W.same k a b → l.get? a = some o → r.get? b = some p →
      o.kind? = k ∧ ObjectRel W.same (Pairing.mk l r W.same).Live o p := by
    intro k a b o p h ho hp
    obtain ⟨hkind, hrel⟩ := hW.object h (hl.get? ho) (hr.get? hp)
    exact ⟨hkind, hrel.imp (fun _ _ _ _ _ h => h) fun _ c hc d hd => hrefs h ho hp hc hd⟩
  have hclosed : ∀ {a o c}, (Pairing.mk l r W.same).LiveLeft a → l.get? a = some o → c ∈ o.references →
      (Pairing.mk l r W.same).LiveLeft c := by
    rintro a o c ⟨k, b, h⟩ ho hc
    obtain ⟨p, hp⟩ := Option.isSome_iff_exists.1 h.2.2
    obtain ⟨d, -, k', hcd⟩ := forall₂_exists_right (hobject h.1 ho hp).2.references hc
    exact ⟨k', d, hcd⟩
  constructor
  case oneToOne => exact hW.oneToOne
  case issued =>
    intro k c d h
    obtain ⟨h₁, h₂⟩ := hW.issued h
    exact ⟨hl.issued h₁, hr.issued h₂⟩
  case object => exact hobject
  case keyed =>
    rintro a o ⟨k, b, h⟩ ho
    refine Heap.keyed_transfer (hW.keyed ⟨k, b, hold h⟩ (hl.get? ho)) (fun c hc => hclosed ⟨k, b, h⟩ ho hc) ?_
    rintro c items ⟨k', d, hcd⟩ hitems
    obtain ⟨q, hq⟩ := Option.isSome_iff_exists.1 hcd.2.1
    cases hitems.symm.trans (hl.get? hq)
    exact ⟨hq, fun v hv e he => hclosed ⟨k', d, hcd⟩ hq (List.mem_filterMap.2 ⟨v, hv, he⟩)⟩
  case nestedLeft =>
    refine hW.nestedLeft.of_parts ?_ (fun a o _ ho => ⟨o, hl.get? ho, rfl⟩) fun a o ha ho c hc => ?_
    · rintro a ⟨k, b, h⟩
      exact ⟨k, b, hold h⟩
    · exact hclosed ha ho (Object.parts_subset hc)
  case nestedRight =>
    refine hW.nestedRight.of_parts ?_ (fun b p _ hp => ⟨p, hr.get? hp, rfl⟩) ?_
    · rintro b ⟨k, a, h⟩
      exact ⟨k, a, hold h⟩
    · rintro b p ⟨k, a, h⟩ hp d hd
      obtain ⟨o, ho⟩ := Option.isSome_iff_exists.1 h.2.1
      obtain ⟨c, -, k', hcd⟩ := forall₂_exists_left (hobject h.1 ho hp).2.references (Object.parts_subset hd)
      exact ⟨k', c, hcd⟩
  case tidyLeft => exact hl.tidy
  case tidyRight => exact hr.tidy
  case limit => exact hl.limit.trans (hW.limit.trans hr.limit.symm)
  case live => exact hlive

/-- What both sides reach lives on. -/
theorem live_shrink (hl : W.left.Shrinks roots l) (hr : W.right.Shrinks roots' r) {kind : Option RefKind} {a b : Handle}
    (h : W.Live kind a b) (ha : W.left.Reachable roots a) (hb : W.right.Reachable roots' b) :
    (Pairing.mk l r W.same).Live kind a b := by
  obtain ⟨hs, hlive, hlive'⟩ := h
  obtain ⟨o, ho⟩ := Option.isSome_iff_exists.1 hlive
  obtain ⟨p, hp⟩ := Option.isSome_iff_exists.1 hlive'
  exact ⟨hs, Option.isSome_iff_exists.2 ⟨o, hl.kept ho ha⟩, Option.isSome_iff_exists.2 ⟨p, hr.kept hp hb⟩⟩

/-- What the left roots reach is paired with what the right roots reach. -/
theorem Sound.reachable_left (hW : W.Sound) (hroots : List.Forall₂ (fun a b => ∃ kind, W.Live kind a b) roots roots') {a : Handle}
    (ha : W.left.Reachable roots a) : ∃ b, (∃ kind, W.Live kind a b) ∧ W.right.Reachable roots' b := by
  refine ha.transfer (fun c hc => forall₂_exists_right hroots hc) ?_
  rintro c d o ⟨kind, hcd⟩ ho
  obtain ⟨o', p, ho', hp, -, hrel⟩ := hW.objects hcd
  cases ho.symm.trans ho'
  exact ⟨p, hp, fun e he => forall₂_exists_right hrel.references he⟩

/-- What the roots reach on the right lives on both sides, and is reached on the left. -/
theorem Sound.reachable_right (hW : W.Sound) (hroots : List.Forall₂ (fun a b => ∃ kind, W.Live kind a b) roots roots') {b : Handle}
    (hb : W.right.Reachable roots' b) : ∃ a, (∃ kind, W.Live kind a b) ∧ W.left.Reachable roots a := by
  refine hb.transfer (T := fun b a => ∃ kind, W.Live kind a b) (fun c hc => forall₂_exists_left hroots hc) ?_
  rintro d c p ⟨kind, hcd⟩ hp
  obtain ⟨o, p', ho, hp', -, hrel⟩ := hW.objects hcd
  cases hp.symm.trans hp'
  exact ⟨o, ho, fun e he => forall₂_exists_left hrel.references he⟩

/-- After collections from corresponding roots on both sides, every object on the left lives on both sides. -/
theorem Sound.whole_collect (hW : W.Sound) (hroots : List.Forall₂ (fun a b => ∃ kind, W.Live kind a b) roots roots') :
    (Pairing.mk (W.left.collect roots) (W.right.collect roots') W.same).Whole := by
  intro a o ho
  obtain ⟨hget, hreach⟩ := (Heap.get?_collect hW.tidyLeft.unmarked).1 ho
  obtain ⟨b, ⟨kind, hab⟩, hb⟩ := hW.reachable_left hroots hreach
  obtain ⟨o', p, ho', hp, hkind, -⟩ := hW.objects hab
  cases hget.symm.trans ho'
  refine ⟨b, hkind ▸ hab.1, ?_, ?_⟩
  · exact Option.isSome_iff_exists.2 ⟨o, ho⟩
  · exact Option.isSome_iff_exists.2 ⟨p, (Heap.get?_collect hW.tidyRight.unmarked).2 ⟨hp, hb⟩⟩

end Shrink

end Pairing

end ScriptVM
