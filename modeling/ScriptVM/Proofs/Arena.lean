import ScriptVM.Heap.Basic

/-!
# Slots and handles

What the two operations that write slots do: `Heap.place`, which puts an object into the next slot, and `Heap.update`, which
changes the object of a handle.
-/

namespace ScriptVM

/-- The environment around an environment, if there is one; other objects are no environments. -/
def Object.parent? : Object → Option (Option Handle)
  | .environment e => some e.parent
  | _ => none

namespace Heap

/-- The slot that the next object is put into. -/
def nextSlot (h : Heap) : Nat :=
  match h.free with
  | i :: _ => i.toNat
  | [] => h.slots.size

/-- A heap that neither collects by itself nor fills up. -/
def Quiet (h : Heap) : Prop := h.threshold = 0 ∧ h.limit = none

/-- A quiet heap never asks for a collection. -/
theorem Quiet.shouldCollect {h : Heap} (hq : h.Quiet) : h.shouldCollect = false := by
  obtain ⟨ht, hl⟩ := hq
  simp [Heap.shouldCollect, atLimit, ht, hl]

/-- Placing an object leaves the threshold. -/
theorem threshold_place (h : Heap) (o : Object) : (h.place o).2.threshold = h.threshold := by
  unfold place
  split <;> rfl

/-- Placing an object leaves the limit of objects. -/
theorem limit_place (h : Heap) (o : Object) : (h.place o).2.limit = h.limit := by
  unfold place
  split <;> rfl

/-! ### Issued handles -/

/-- A handle that was given out: its slot holds the object it was issued for, or has gone on to a later generation. -/
def Issued (h : Heap) (a : Handle) : Prop :=
  ∃ s, h.slots[a.index.toNat]? = some s ∧
    (a.generation.toNat < s.generation.toNat ∨ (a.generation = s.generation ∧ s.object.isSome))

/-- The number of slots that handles can tell apart. -/
def maxSlots : Nat := UInt32.size

/-- A heap with room for one more slot. -/
def Room (h : Heap) : Prop := h.slots.size < maxSlots

/-- No slot is marked. -/
def Unmarked (h : Heap) : Prop := ∀ s ∈ h.slots, s.marked = false

instance (h : Heap) : Decidable h.Unmarked := inferInstanceAs (Decidable (∀ s ∈ h.slots, s.marked = false))

/-- The free slots are there, are free and are listed once, handles tell all slots apart, and no slot is marked. -/
structure Sparse (h : Heap) : Prop where
  free : ∀ i ∈ h.free, ∃ s : Slot, h.slots[i.toNat]? = some s ∧ s.object = none
  nodup : h.free.Nodup
  size : h.slots.size ≤ maxSlots
  unmarked : h.Unmarked

/-- Besides, no slot has seen more generations than there were collections, and generations have not wrapped around. -/
structure Tidy (h : Heap) : Prop extends Sparse h where
  generation : ∀ (i : Nat) (s : Slot), h.slots[i]? = some s → s.generation.toNat ≤ h.last.collections
  collections : h.last.collections < UInt32.size

/-- A new heap is sparse: it has no slots. -/
theorem sparse_ofSettings (s : Settings) : (Heap.ofSettings s).Sparse where
  free := by simp [ofSettings]
  nodup := List.nodup_nil
  size := Nat.zero_le _
  unmarked := by simp [Unmarked, ofSettings]

/-- A later heap with no collection in between: it has at least the slots it had. While handles tell all slots apart, its objects
are still there, each environment inside the one it was in. -/
structure Grows (h h' : Heap) : Prop where
  threshold : h'.threshold = h.threshold
  limit : h'.limit = h.limit
  size : h.slots.size ≤ h'.slots.size
  last : h'.last = h.last
  kept : h'.slots.size < maxSlots → h.Sparse →
    h'.Sparse ∧ ∀ a o, h.get? a = some o → ∃ o', h'.get? a = some o' ∧ o'.parent? = o.parent?

/-- A heap is a later stage of itself. -/
theorem Grows.refl (h : Heap) : h.Grows h := ⟨rfl, rfl, Nat.le_refl _, rfl, fun _ ht => ⟨ht, fun _ o ho => ⟨o, ho, rfl⟩⟩⟩

theorem Grows.trans {h h' h'' : Heap} (hg : h.Grows h') (hg' : h'.Grows h'') : h.Grows h'' where
  threshold := hg'.threshold.trans hg.threshold
  limit := hg'.limit.trans hg.limit
  size := Nat.le_trans hg.size hg'.size
  last := hg'.last.trans hg.last
  kept := by
    intro hsize ht
    obtain ⟨ht', hkept⟩ := hg.kept (Nat.lt_of_le_of_lt hg'.size hsize) ht
    obtain ⟨ht'', hkept'⟩ := hg'.kept hsize ht'
    refine ⟨ht'', fun a o ho => ?_⟩
    obtain ⟨o', ho', hp⟩ := hkept a o ho
    obtain ⟨o'', ho'', hp'⟩ := hkept' a o' ho'
    exact ⟨o'', ho'', hp'.trans hp⟩

/-- A heap that grows out of a quiet one is quiet. -/
theorem Grows.quiet {h h' : Heap} (hg : h.Grows h') (hq : h.Quiet) : h'.Quiet := ⟨hg.threshold.trans hq.1, hg.limit.trans hq.2⟩

/-- A handle resolves to the object of its slot, as long as the slot is in the handle's generation. -/
theorem get?_eq_some {h : Heap} {a : Handle} {o : Object} :
    h.get? a = some o ↔ ∃ s, h.slots[a.index.toNat]? = some s ∧ s.generation = a.generation ∧ s.object = some o := by
  unfold get?
  cases h.slots[a.index.toNat]? with
  | none => simp
  | some s =>
    by_cases hg : s.generation = a.generation
    · simp [hg]
    · simp [hg]

/-- A handle that resolves was issued. -/
theorem issued_of_get? {h : Heap} {a : Handle} {o : Object} (ho : h.get? a = some o) : h.Issued a := by
  obtain ⟨s, hs, hg, hobj⟩ := get?_eq_some.1 ho
  exact ⟨s, hs, .inr ⟨hg.symm, by rw [hobj]; rfl⟩⟩

/-- Two handles of one slot and one generation are equal. -/
theorem Handle.ext_of_index {a b : Handle} (hi : a.index.toNat = b.index.toNat) (hg : a.generation = b.generation) : a = b := by
  cases a
  cases b
  simp only [Handle.mk.injEq]
  exact ⟨UInt32.toNat_inj.1 hi, hg⟩

/-! ### Placing an object -/

section

variable {h : Heap} {o : Object}

/-- The slot of a placed object: it was free or is new, and all other slots stay as they are. -/
theorem place_slots (ht : h.Sparse) (hr : h.Room) :
    ∃ i g, (h.place o).1 = ⟨UInt32.ofNat i, g⟩ ∧ i < maxSlots ∧ (h.place o).2.slots[i]? = some ⟨g, false, some o⟩ ∧
      (h.slots[i]? = some ⟨g, false, none⟩ ∨ (h.slots[i]? = none ∧ g = 0)) ∧
      (∀ j, j ≠ i → (h.place o).2.slots[j]? = h.slots[j]?) := by
  unfold place
  cases hf : h.free with
  | cons i rest =>
    obtain ⟨s, hs, hobj⟩ := ht.free i (by rw [hf]; exact List.mem_cons_self)
    have hm := ht.unmarked s (Array.mem_of_getElem? hs)
    refine ⟨i.toNat, s.generation, ?_, i.toNat_lt, ?_, ?_, ?_⟩
    · simp [hs]
    · simp [Array.getElem?_modify, hs]
    · left
      rw [hs, ← hobj, ← hm]
    · intro j hj
      simp only [Array.getElem?_modify]
      rw [if_neg (Ne.symm hj)]
  | nil =>
    refine ⟨h.slots.size, 0, rfl, hr, ?_, ?_, ?_⟩
    · simp
    · right
      simp
    · intro j hj
      simp only [Array.getElem?_push]
      rw [if_neg hj]

/-- The slot of the next object holds none. -/
theorem object_of_free_or_new {slots : Array Slot} {i : Nat} {g : UInt32}
    (hold : slots[i]? = some ⟨g, false, none⟩ ∨ (slots[i]? = none ∧ g = 0)) {s : Slot} (hs : slots[i]? = some s) :
    s = ⟨g, false, none⟩ := by
  rcases hold with hold | ⟨hold, _⟩
  · exact Option.some.inj (hs.symm.trans hold)
  · rw [hold] at hs
    nomatch hs

/-- The index of a slot that handles can name survives the way through 32 bits. -/
theorem toNat_ofNat_of_lt {i : Nat} (hi : i < maxSlots) : (UInt32.ofNat i).toNat = i := UInt32.toNat_ofNat_of_lt hi

/-- The handle of a placed object resolves to it. -/
theorem get?_place_self (ht : h.Sparse) (hr : h.Room) : (h.place o).2.get? (h.place o).1 = some o := by
  obtain ⟨i, g, hn, hi, hs, _, _⟩ := place_slots (o := o) ht hr
  rw [hn]
  refine get?_eq_some.2 ⟨⟨g, false, some o⟩, ?_, rfl, rfl⟩
  rw [toNat_ofNat_of_lt hi]
  exact hs

/-- The handle of a placed object is new. -/
theorem not_issued_place (ht : h.Sparse) (hr : h.Room) : ¬h.Issued (h.place o).1 := by
  obtain ⟨i, g, hn, hi, _, hold, _⟩ := place_slots (o := o) ht hr
  rw [hn]
  rintro ⟨s, hs, hcase⟩
  rw [toNat_ofNat_of_lt hi] at hs
  have hfree := object_of_free_or_new hold hs
  rw [hfree] at hcase
  rcases hcase with hlt | ⟨_, hobj⟩
  · exact absurd hlt (Nat.lt_irrefl _)
  · nomatch hobj

/-- All other handles resolve as before. -/
theorem get?_place_of_ne (ht : h.Sparse) (hr : h.Room) {a : Handle} (ha : a ≠ (h.place o).1) :
    (h.place o).2.get? a = h.get? a := by
  obtain ⟨i, g, hn, hi, hs, hold, hother⟩ := place_slots (o := o) ht hr
  by_cases hidx : a.index.toNat = i
  · have hgen : a.generation ≠ g := by
      intro hg
      apply ha
      rw [hn]
      exact Handle.ext_of_index (by rw [hidx, toNat_ofNat_of_lt hi]) hg
    have hnone : h.get? a = none := by
      cases ho : h.get? a with
      | none => rfl
      | some o' =>
        obtain ⟨s, hs', _, hobj⟩ := get?_eq_some.1 ho
        rw [hidx] at hs'
        rw [object_of_free_or_new hold hs'] at hobj
        nomatch hobj
    rw [hnone]
    unfold get?
    rw [hidx, hs]
    simp [Ne.symm hgen]
  · unfold get?
    rw [hother _ hidx]

/-- Placing an object leaves what every handle resolves to. -/
theorem get?_place_of_get? (ht : h.Sparse) (hr : h.Room) {a : Handle} {o' : Object} (ha : h.get? a = some o') :
    (h.place o).2.get? a = some o' := by
  rw [get?_place_of_ne ht hr, ha]
  rintro rfl
  exact not_issued_place ht hr (issued_of_get? ha)

/-- Placing an object keeps the handles that were issued. -/
theorem issued_place (ht : h.Sparse) (hr : h.Room) {a : Handle} (ha : h.Issued a) : (h.place o).2.Issued a := by
  obtain ⟨i, g, _, _, hs, hold, hother⟩ := place_slots (o := o) ht hr
  obtain ⟨s, hs', hcase⟩ := ha
  by_cases hidx : a.index.toNat = i
  · rw [hidx] at hs'
    rw [object_of_free_or_new hold hs'] at hcase
    refine ⟨_, hidx ▸ hs, ?_⟩
    rcases hcase with hlt | ⟨_, hobj⟩
    · exact .inl hlt
    · nomatch hobj
  · exact ⟨s, (hother _ hidx).trans hs', hcase⟩

/-- The handle of a placed object is issued. -/
theorem issued_place_self (ht : h.Sparse) (hr : h.Room) : (h.place o).2.Issued (h.place o).1 :=
  issued_of_get? (get?_place_self ht hr)

/-- Placing an object takes a free slot or adds one. -/
theorem size_place : h.slots.size ≤ (h.place o).2.slots.size ∧ (h.place o).2.slots.size ≤ h.slots.size + 1 := by
  unfold place
  cases h.free with
  | cons i rest => simp
  | nil => simp

/-- Placing an object makes one more live. -/
theorem live_place : (h.place o).2.live = h.live + 1 := by
  unfold place
  cases h.free <;> rfl

/-- Placing an object is no collection. -/
theorem last_place : (h.place o).2.last = h.last := by
  unfold place
  cases h.free <;> rfl

/-- The slot of a placed object is not marked, whatever it was before. -/
theorem Unmarked.place (hu : h.Unmarked) : (h.place o).2.Unmarked := by
  intro s hs
  unfold Heap.place at hs
  cases hf : h.free with
  | cons i rest =>
    rw [hf] at hs
    obtain ⟨j, hj⟩ := Array.getElem?_of_mem hs
    rw [Array.getElem?_modify] at hj
    split at hj
    · obtain ⟨s', -, rfl⟩ := Option.map_eq_some_iff.1 hj
      rfl
    · exact hu s (Array.mem_of_getElem? hj)
  | nil =>
    rw [hf] at hs
    rcases Array.mem_push.1 hs with hs | rfl
    · exact hu s hs
    · rfl

/-- A sparse heap with room is sparse after an object is placed: the slot it takes leaves the free list. -/
theorem Sparse.place (ht : h.Sparse) (hr : h.Room) : (h.place o).2.Sparse := by
  obtain ⟨i, g, hn, hi, hs, hold, hother⟩ := place_slots (o := o) ht hr
  have hfree : ∀ j ∈ (h.place o).2.free, j ∈ h.free ∧ j.toNat ≠ i := by
    intro j hj
    unfold Heap.place at hj hn
    cases hf : h.free with
    | nil =>
      rw [hf] at hj
      nomatch hj
    | cons k rest =>
      rw [hf] at hj hn
      simp only [Handle.mk.injEq] at hj hn
      refine ⟨List.mem_cons_of_mem k hj, fun hji => ?_⟩
      have hjk : j = k := by
        rw [hn.1, ← hji]
        simp
      have hnodup := ht.nodup
      rw [hf, List.nodup_cons] at hnodup
      exact hnodup.1 (hjk ▸ hj)
  refine ⟨?_, ?_, ?_, ht.unmarked.place⟩
  · intro j hj
    obtain ⟨hmem, hne⟩ := hfree j hj
    obtain ⟨s, hs', hobj⟩ := ht.free j hmem
    exact ⟨s, (hother _ hne).trans hs', hobj⟩
  · have hnodup := ht.nodup
    unfold Heap.place
    cases hf : h.free with
    | nil => exact List.nodup_nil
    | cons k rest =>
      rw [hf, List.nodup_cons] at hnodup
      exact hnodup.2
  · have hsize := (size_place (h := h) (o := o)).2
    have hroom : h.slots.size < maxSlots := hr
    omega

/-- A tidy heap with room is tidy after an object is placed: no slot changes its generation. -/
theorem Tidy.place (ht : h.Tidy) (hr : h.Room) : (h.place o).2.Tidy := by
  obtain ⟨i, g, hn, hi, hs, hold, hother⟩ := place_slots (o := o) ht.toSparse hr
  refine ⟨ht.toSparse.place hr, fun j s hj => ?_, ?_⟩
  · rw [last_place]
    by_cases hji : j = i
    · rw [hji, hs] at hj
      cases hj
      rcases hold with hold | ⟨_, rfl⟩
      · have hg := ht.generation i _ hold
        exact hg
      · exact Nat.zero_le _
    · rw [hother j hji] at hj
      exact ht.generation j s hj
  · rw [last_place]
    exact ht.collections

/-- Placing an object is growth. -/
theorem grows_place : h.Grows (h.place o).2 where
  threshold := h.threshold_place o
  limit := h.limit_place o
  size := size_place.1
  last := last_place
  kept := by
    intro hsize ht
    have hroom : h.Room := Nat.lt_of_le_of_lt size_place.1 hsize
    exact ⟨ht.place hroom, fun a o' ho' => ⟨o', get?_place_of_get? ht hroom ho', rfl⟩⟩

/-- Placing an object leaves a heap quiet. -/
theorem Quiet.place (hq : h.Quiet) (o : Object) : (h.place o).2.Quiet := grows_place.quiet hq

end

/-! ### Changing an object -/

section

variable {h : Heap} {a c : Handle} {f : Object → Object}

/-- A change reaches just the slot of the handle, and only in the handle's generation. -/
theorem slots_update (i : Nat) : (h.update a f).slots[i]? = (h.slots[i]?).map fun s =>
    if i = a.index.toNat ∧ s.generation = a.generation then { s with object := s.object.map f } else s := by
  simp only [update, Array.getElem?_modify]
  by_cases hi : a.index.toNat = i
  · simp [hi]
  · simp [hi, Ne.symm hi]

/-- Only the object of the handle changes. -/
theorem get?_update : (h.update a f).get? c = if c = a then (h.get? c).map f else h.get? c := by
  unfold get?
  rw [slots_update]
  cases hs : h.slots[c.index.toNat]? with
  | none => simp
  | some s =>
    by_cases hca : c = a
    · subst hca
      by_cases hg : s.generation = c.generation
      · simp [hg]
      · simp [hg]
    · have hne : ¬(c.index.toNat = a.index.toNat ∧ s.generation = a.generation ∧ s.generation = c.generation) := by
        rintro ⟨hi, hga, hgc⟩
        exact hca (Handle.ext_of_index hi (hgc.symm.trans hga))
      by_cases hg : s.generation = c.generation
      · have hcond : ¬(c.index.toNat = a.index.toNat ∧ s.generation = a.generation) := fun ⟨hi, hga⟩ => hne ⟨hi, hga, hg⟩
        simp [hca, hcond]
      · by_cases hcond : c.index.toNat = a.index.toNat ∧ s.generation = a.generation
        · simp [hca, hcond]
          rw [← hcond.2]
          simp [hg]
        · simp [hca, hcond]

/-- A change leaves which handles resolve. -/
theorem isSome_get?_update : ((h.update a f).get? c).isSome = (h.get? c).isSome := by
  rw [get?_update]
  by_cases hca : c = a
  · rw [if_pos hca, Option.isSome_map]
  · rw [if_neg hca]

/-- A change keeps the handles that were issued. -/
theorem issued_update (hc : h.Issued c) : (h.update a f).Issued c := by
  obtain ⟨s, hs, hcase⟩ := hc
  refine ⟨_, by rw [slots_update, hs]; rfl, ?_⟩
  by_cases hi : c.index.toNat = a.index.toNat ∧ s.generation = a.generation
  · simpa [hi] using hcase
  · simpa only [if_neg hi] using hcase

theorem Unmarked.update (hu : h.Unmarked) : (h.update a f).Unmarked := by
  intro s hs
  obtain ⟨i, hi⟩ := Array.getElem?_of_mem hs
  rw [slots_update] at hi
  obtain ⟨s', hs', rfl⟩ := Option.map_eq_some_iff.1 hi
  have hm := hu s' (Array.mem_of_getElem? hs')
  split
  · exact hm
  · exact hm

/-- A sparse heap is sparse after a change. -/
theorem Sparse.update (ht : h.Sparse) : (h.update a f).Sparse := by
  refine ⟨fun i hi => ?_, ht.nodup, ?_, ht.unmarked.update⟩
  · obtain ⟨s, hs, hobj⟩ := ht.free i hi
    refine ⟨_, by rw [slots_update, hs]; rfl, ?_⟩
    by_cases hi : i.toNat = a.index.toNat ∧ s.generation = a.generation
    · simp [hi, hobj]
    · simpa only [if_neg hi] using hobj
  · have hsize : (h.update a f).slots.size = h.slots.size := by simp [Heap.update]
    rw [hsize]
    exact ht.size

/-- A tidy heap is tidy after a change. -/
theorem Tidy.update (ht : h.Tidy) : (h.update a f).Tidy := by
  refine ⟨ht.toSparse.update, fun i s hs => ?_, ht.collections⟩
  rw [slots_update] at hs
  obtain ⟨s', hs', rfl⟩ := Option.map_eq_some_iff.1 hs
  have hg := ht.generation i s' hs'
  split
  · exact hg
  · exact hg

/-- So is changing an object, but for the environment around it. -/
theorem grows_update (hf : ∀ o, (f o).parent? = o.parent?) : h.Grows (h.update a f) where
  threshold := rfl
  limit := rfl
  size := by simp [update]
  last := rfl
  kept := by
    intro _ ht
    refine ⟨ht.update, fun c o ho => ?_⟩
    rw [get?_update, ho]
    by_cases hca : c = a
    · rw [if_pos hca]
      exact ⟨f o, rfl, hf o⟩
    · rw [if_neg hca]
      exact ⟨o, rfl, rfl⟩

end

end Heap

/-- An allocation places the object, or fails at the limit and changes nothing. -/
theorem HeapM.alloc_eq (o : Object) (h : Heap) :
    HeapM.alloc o h = if h.atLimit then .error (.heap (.exhausted (h.limit.getD 0))) h
      else .ok (h.place o).1 (h.place o).2 := by
  unfold HeapM.alloc Heap.alloc Heap.atLimit
  cases h.limit with
  | none => rfl
  | some limit =>
    by_cases hl : limit ≤ h.live
    · simp [hl]
    · simp [hl]

/-- Allocating fails with the heap as it is at the limit of objects, and places the object below it. -/
theorem HeapM.allocRef_eq (kind : RefKind) (o : Object) (h : Heap) :
    HeapM.allocRef kind o h = if h.atLimit then .error (.heap (.exhausted (h.limit.getD 0))) h
      else .ok (.ref kind (h.place o).1) (h.place o).2 := by
  change EStateM.bind (HeapM.alloc o) _ h = _
  rw [EStateM.bind, HeapM.alloc_eq]
  split
  · rename_i heq
    split at heq
    · nomatch heq
    · rename_i hroom
      cases heq
      rw [if_neg hroom]
      rfl
  · rename_i heq
    split at heq
    · rename_i hfull
      cases heq
      rw [if_pos hfull]
    · nomatch heq

/-- On a quiet heap an allocation always places its object. -/
theorem HeapM.allocRef_of_quiet {h : Heap} (hq : h.Quiet) (kind : RefKind) (o : Object) :
    HeapM.allocRef kind o h = .ok (.ref kind (h.place o).1) (h.place o).2 := by
  rw [HeapM.allocRef_eq, if_neg (by simp [Heap.atLimit, hq.2])]

end ScriptVM
