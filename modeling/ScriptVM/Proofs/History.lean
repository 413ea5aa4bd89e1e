import Mathlib.Data.List.Count
import Mathlib.Data.List.Permutation
import Mathlib.Data.Set.Card
import ScriptVM.Proofs.Collection
import ScriptVM.Proofs.Erasure

/-!
# Histories of a heap

A history is a list of operations on an empty heap: objects are allocated, changed in place and collected. Whatever the history,
each operation comes down to one of four effects on the slots (`Heap.perform_eq`), and each effect keeps the slots in order: the
free ones are just those without an object, and the count of objects is right (`Heap.Orderly`). A collection of such a heap keeps
just what the roots reach and counts it (`Heap.collects_performAll`).

A handle leads to the object it was issued for, as later operations change it, until a collection does not reach it; then it leads
nowhere, and it is never issued again (`Heap.alloc_never_recycles`).
-/

namespace ScriptVM

/-- What can be done to a heap. -/
inductive HeapOperation where
  | alloc (o : Object)
  | define (env : Handle) (name : String) (value : Value)
  | assign (env : Handle) (name : String) (value : Value)
  | mapInsert (map : Handle) (key value : Value)
  | update (a : Handle) (f : Object → Object)
  | collect (roots : List Handle)

/-- What an operation does to the slots. -/
inductive HeapEffect where
  | nothing
  | place (o : Object)
  | update (a : Handle) (f : Object → Object)
  | collect (roots : List Handle)

namespace Heap

/-- The heap after an operation, whether it fails or not. -/
def perform (h : Heap) : HeapOperation → Heap
  | .alloc o => heapAfter (HeapM.alloc o h)
  | .define env name value => heapAfter (HeapM.define env name value h)
  | .assign env name value => heapAfter (HeapM.assign env name value h)
  | .mapInsert map key value => heapAfter (HeapM.mapInsert map key value h)
  | .update a f => h.update a f
  | .collect roots => h.collect roots

/-- The heap after operations in order. -/
def performAll (h : Heap) : List HeapOperation → Heap
  | [] => h
  | op :: ops => (h.perform op).performAll ops

/-- The heap with an effect on its slots. -/
def apply (h : Heap) : HeapEffect → Heap
  | .nothing => h
  | .place o => (h.place o).2
  | .update a f => h.update a f
  | .collect roots => h.collect roots

end Heap

/-- The effect of an operation on a heap. -/
def HeapOperation.effect (h : Heap) : HeapOperation → HeapEffect
  | .alloc o => if h.atLimit then .nothing else .place o
  | .define env name value =>
    match h.environment env with
    | .ok _ => .update env (Object.bind name value)
    | .error _ => .nothing
  | .assign env name value =>
    match h.owner env name with
    | .ok (some nearest) => .update nearest (Object.bind name value)
    | _ => .nothing
  | .mapInsert map key value =>
    match h.mapKey key, h.map map with
    | .ok k, .ok _ => .update map (Object.insertEntry k ⟨key, value⟩)
    | _, _ => .nothing
  | .update a f => .update a f
  | .collect roots => .collect roots

namespace Heap

variable {h : Heap}

/-- Every operation comes down to its effect. -/
theorem perform_eq (h : Heap) (op : HeapOperation) : h.perform op = h.apply (op.effect h) := by
  cases op with
  | alloc o =>
    change heapAfter (HeapM.alloc o h) = h.apply (if h.atLimit then .nothing else .place o)
    rw [HeapM.alloc_eq]
    split <;> rfl
  | define env name value =>
    simp only [perform, HeapM.define, HeapM.read, bind, EStateM.bind, HeapOperation.effect]
    cases h.environment env <;> rfl
  | assign env name value =>
    simp only [perform, HeapM.assign, HeapM.read, bind, EStateM.bind, HeapOperation.effect]
    cases h.owner env name with
    | error e => rfl
    | ok found => cases found <;> rfl
  | mapInsert map key value =>
    simp only [perform, HeapM.mapInsert, HeapM.read, bind, EStateM.bind, HeapOperation.effect]
    cases h.mapKey key with
    | error e => rfl
    | ok k =>
      simp only
      cases h.map map <;> rfl
  | update a f => rfl
  | collect roots => rfl

/-- Only an allocation below the limit places an object. -/
theorem not_atLimit_of_effect {op : HeapOperation} {o : Object} (he : op.effect h = .place o) : h.atLimit = false := by
  cases op with
  | alloc o' =>
    simp only [HeapOperation.effect] at he
    split at he
    · nomatch he
    · rename_i hfull
      exact Bool.eq_false_iff.2 hfull
  | define env name value =>
    simp only [HeapOperation.effect] at he
    split at he <;> nomatch he
  | assign env name value =>
    simp only [HeapOperation.effect] at he
    split at he <;> nomatch he
  | mapInsert map key value =>
    simp only [HeapOperation.effect] at he
    split at he <;> nomatch he
  | update a f => nomatch he
  | collect roots => nomatch he

/-- A history can be cut in two anywhere. -/
theorem performAll_append (h : Heap) (before after : List HeapOperation) :
    h.performAll (before ++ after) = (h.performAll before).performAll after := by
  induction before generalizing h with
  | nil => rfl
  | cons op before ih => exact ih (h.perform op)

/-! ## Bounds of histories -/

theorem size_update {a : Handle} {f : Object → Object} : (h.update a f).slots.size = h.slots.size := by
  simp [update]

/-- Slots are never given up. -/
theorem size_apply (h : Heap) (effect : HeapEffect) : h.slots.size ≤ (h.apply effect).slots.size := by
  cases effect with
  | nothing => exact Nat.le_refl _
  | place o => exact size_place.1
  | update a f => exact Nat.le_of_eq size_update.symm
  | collect roots => exact Nat.le_of_eq size_collect.symm

/-- No effect takes back a collection. -/
theorem collections_apply (h : Heap) (effect : HeapEffect) : h.last.collections ≤ (h.apply effect).last.collections := by
  cases effect with
  | nothing => exact Nat.le_refl _
  | place o => exact Nat.le_of_eq (congrArg CollectionStats.collections last_place.symm)
  | update a f => exact Nat.le_refl _
  | collect roots => exact Nat.le_succ _

theorem size_performAll (h : Heap) (ops : List HeapOperation) : h.slots.size ≤ (h.performAll ops).slots.size := by
  induction ops generalizing h with
  | nil => exact Nat.le_refl _
  | cons op ops ih =>
    have hop := h.size_apply (op.effect h)
    rw [← perform_eq] at hop
    exact hop.trans (ih _)

/-- A history takes back no collection. -/
theorem collections_performAll (h : Heap) (ops : List HeapOperation) :
    h.last.collections ≤ (h.performAll ops).last.collections := by
  induction ops generalizing h with
  | nil => exact Nat.le_refl _
  | cons op ops ih =>
    have hop := h.collections_apply (op.effect h)
    rw [← perform_eq] at hop
    exact hop.trans (ih _)

/-! ## Slots in order -/

/-- Whether a slot holds an object. -/
def occupied (h : Heap) (i : Nat) : Bool := (h.slots[i]?).any (·.object.isSome)

/-- No slot is marked, and the free list names just the slots without an object, each once; the objects are counted, and are no more
than the limit. -/
structure Orderly (h : Heap) : Prop extends Sparse h where
  vacant : ∀ (i : Nat) (s : Slot), h.slots[i]? = some s → s.object = none → UInt32.ofNat i ∈ h.free
  live : h.live = h.slots.countP (·.object.isSome)
  limit : ∀ n ∈ h.limit, h.live ≤ n

/-- Counting the elements of a list is counting their positions. -/
theorem countP_range {α : Type} (p : α → Bool) (l : List α) : (List.range l.length).countP (fun i => (l[i]?).any p) = l.countP p := by
  induction l with
  | nil => rfl
  | cons a l ih =>
    rw [List.length_cons, List.range_succ_eq_map, List.countP_cons, List.countP_cons, List.countP_map]
    have hrest : ((fun i => ((a :: l)[i]?).any p) ∘ Nat.succ) = fun i => (l[i]?).any p := by
      funext i
      simp
    rw [hrest, ih]
    simp

/-- Slots are counted by their indices. -/
theorem countP_slots (h : Heap) (p : Slot → Bool) :
    h.slots.countP p = (List.range h.slots.size).countP fun i => (h.slots[i]?).any p := by
  rw [← Array.countP_toList, ← countP_range, Array.length_toList]
  simp only [Array.getElem?_toList]

/-- Occupied slots are counted by their indices. -/
theorem countP_occupied (h : Heap) : h.slots.countP (·.object.isSome) = (List.range h.slots.size).countP h.occupied :=
  h.countP_slots _

/-- A new heap is in order: it has no slots. -/
theorem orderly_ofSettings (s : Settings) : (ofSettings s).Orderly where
  toSparse := sparse_ofSettings s
  vacant := by simp [ofSettings]
  live := rfl
  limit := fun n _ => Nat.zero_le n

/-- With a free slot, an object is put into it. -/
theorem slots_place_of_free {i : UInt32} {rest : List UInt32} {o : Object} (hf : h.free = i :: rest) :
    (h.place o).2.slots = h.slots.modify i.toNat (fun s => { s with object := some o, marked := false }) ∧ (h.place o).2.free = rest := by
  unfold place
  rw [hf]
  exact ⟨rfl, rfl⟩

/-- Without a free slot, an object is put into a new one. -/
theorem slots_place_of_full {o : Object} (hf : h.free = []) :
    (h.place o).2.slots = h.slots.push ⟨0, false, some o⟩ ∧ (h.place o).2.free = [] := by
  unfold place
  rw [hf]
  exact ⟨rfl, rfl⟩

/-- A heap below its limit is in order after an object is placed. -/
theorem Orderly.place (ho : h.Orderly) {o : Object} (hlimit : h.atLimit = false) (hr : h.Room) : (h.place o).2.Orderly := by
  have hlive := ho.live
  constructor
  case toSparse => exact ho.toSparse.place hr
  case vacant =>
    intro j s hj hnone
    cases hf : h.free with
    | nil =>
      obtain ⟨hslots, -⟩ := slots_place_of_full (o := o) hf
      rw [hslots, Array.getElem?_push] at hj
      split at hj
      · cases hj
        nomatch hnone
      · have hold := ho.vacant j s hj hnone
        rw [hf] at hold
        nomatch hold
    | cons i rest =>
      obtain ⟨hslots, hfree⟩ := slots_place_of_free (o := o) hf
      rw [hslots, Array.getElem?_modify] at hj
      rw [hfree]
      split at hj
      · obtain ⟨s', -, rfl⟩ := Option.map_eq_some_iff.1 hj
        nomatch hnone
      · rename_i hne
        have hold := ho.vacant j s hj hnone
        rw [hf] at hold
        rcases List.mem_cons.1 hold with heq | hold
        · have hlt : j < maxSlots := Nat.lt_of_lt_of_le (Array.getElem?_eq_some_iff.1 hj).1 ho.size
          rw [← heq, toNat_ofNat_of_lt hlt] at hne
          exact absurd rfl hne
        · exact hold
  case live =>
    rw [live_place]
    cases hf : h.free with
    | nil =>
      rw [(slots_place_of_full (o := o) hf).1]
      simp [hlive]
    | cons i rest =>
      rw [(slots_place_of_free (o := o) hf).1]
      -- The slot held nothing before.
      obtain ⟨s, hs, hnone⟩ := ho.free i (by rw [hf]; exact List.mem_cons_self)
      obtain ⟨hi, hget⟩ := Array.getElem?_eq_some_iff.1 hs
      rw [modify_eq_set hi, Array.countP_set hi, hget, hnone, hlive]
      rfl
  case limit =>
    intro n hn
    have hroom : ¬n ≤ h.live := by
      rw [limit_place, Option.mem_def] at hn
      simpa [atLimit, hn] using hlimit
    rw [live_place]
    omega

/-- A change occupies and frees no slot. -/
theorem occupied_update {a : Handle} {f : Object → Object} : (h.update a f).occupied = h.occupied := by
  funext i
  unfold occupied
  rw [slots_update]
  cases h.slots[i]? with
  | none => rfl
  | some s =>
    simp only [Option.map_some, Option.any_some]
    split
    · exact Option.isSome_map
    · rfl

/-- A change leaves the number of occupied slots. -/
theorem countP_update {a : Handle} {f : Object → Object} :
    (h.update a f).slots.countP (·.object.isSome) = h.slots.countP (·.object.isSome) := by
  rw [countP_occupied, size_update, occupied_update, ← countP_occupied]

/-- A heap is in order after a change. -/
theorem Orderly.update (ho : h.Orderly) {a : Handle} {f : Object → Object} : (h.update a f).Orderly where
  toSparse := ho.toSparse.update
  vacant := by
    intro i s hs hnone
    rw [slots_update] at hs
    obtain ⟨s', hs', rfl⟩ := Option.map_eq_some_iff.1 hs
    refine ho.vacant i s' hs' ?_
    split at hnone
    · exact Option.map_eq_none_iff.1 hnone
    · exact hnone
  live := by
    rw [countP_update]
    exact ho.live
  limit := ho.limit

/-! ## What a collection counts -/

section

variable {roots : List Handle}

theorem occupied_of_markedAt (hu : h.Unmarked) {i : Nat} (hi : (h.reached roots).markedAt i = true) : h.occupied i = true := by
  obtain ⟨a, rfl, ha, -⟩ := (markedAt_reached hu).1 hi
  obtain ⟨o, ho⟩ := Option.isSome_iff_exists.1 ha
  obtain ⟨s, hs, -, hobj⟩ := get?_eq_some.1 ho
  simp [occupied, hs, hobj]

/-- After a collection the marked slots hold what they held, and no others hold anything. -/
theorem occupied_collect (i : Nat) : (h.collect roots).occupied i = (h.occupied i && (h.reached roots).markedAt i) := by
  unfold occupied
  rw [slots_collect]
  cases h.slots[i]? with
  | none => rfl
  | some s =>
    cases hm : (h.reached roots).markedAt i with
    | true => simp [Slot.unmark]
    | false => simp [object_release]

/-- What a sweep frees of a slot: what it holds, if it is not marked. -/
theorem any_unreached (i : Nat) : ((h.reached roots).slots[i]?).any (fun s => !s.marked && s.object.isSome) =
    (h.occupied i && !(h.reached roots).markedAt i) := by
  unfold occupied
  rw [slots_reached]
  cases h.slots[i]? <;> simp [Bool.and_comm]

/-- What is kept and what is freed are together the objects there were. -/
theorem countP_collect_add_unreached (h : Heap) (roots : List Handle) :
    (h.collect roots).slots.countP (·.object.isSome) + (h.reached roots).unreached.length = h.slots.countP (·.object.isSome) := by
  rw [countP_occupied, countP_occupied, size_collect, List.countP_eq_countP_filter_add _ h.occupied (h.reached roots).markedAt,
    List.countP_filter, List.countP_filter, unreached, ← List.countP_eq_length_filter, size_reached]
  congr 1
  · exact List.countP_congr fun i _ => by rw [occupied_collect]
  · exact List.countP_congr fun i _ => by rw [any_unreached]

/-- Marking one more slot makes one more marked. -/
theorem countP_setMark {a : Handle} {o : Object} (ho : h.unmarked? a = some o) :
    (h.setMark a.index.toNat).slots.countP Slot.marked = h.slots.countP Slot.marked + 1 := by
  obtain ⟨hi, hm, -⟩ := of_unmarked?_eq_some ho
  simp only [setMark]
  rw [modify_eq_set hi, Array.countP_set hi]
  simp [hm, Slot.mark]

/-- Marking counts the slots that it marks. -/
theorem count_mark (count : Nat) (work : List Handle) :
    (h.mark count work).2 + h.slots.countP Slot.marked = count + (h.mark count work).1.slots.countP Slot.marked := by
  fun_induction Heap.mark h count work with
  | case1 h count => rfl
  | case2 h count a rest o ho ih =>
    rw [countP_setMark ho] at ih
    omega
  | case3 h count a rest _ ih => exact ih

/-- A collection counts the slots that it marked. -/
theorem marked_collect (hu : h.Unmarked) (roots : List Handle) :
    (h.collect roots).last.marked = (List.range h.slots.size).countP (h.reached roots).markedAt := by
  have hcount := count_mark (h := h) 0 roots
  have hnone : h.slots.countP Slot.marked = 0 := Array.countP_eq_zero.2 fun s hs => by rw [hu s hs]; simp
  rw [hnone, countP_slots, Nat.zero_add, Nat.add_zero] at hcount
  have hsize : (h.reached roots).slots.size = h.slots.size := size_reached
  rw [← hsize]
  exact hcount

/-- When no slot was marked before, the objects that are kept are the marked ones. -/
theorem countP_collect (hu : h.Unmarked) : (h.collect roots).slots.countP (·.object.isSome) = (h.collect roots).last.marked := by
  rw [marked_collect hu, countP_occupied, size_collect]
  refine List.countP_congr fun i _ => ?_
  rw [occupied_collect, Bool.and_eq_true]
  exact ⟨fun hi => hi.2, fun hi => ⟨occupied_of_markedAt hu hi, hi⟩⟩

/-- A collection, given which slots hold what the roots reach. -/
theorem collect_eq (hu : h.Unmarked) (kept : Nat → Bool)
    (hkept : ∀ i < h.slots.size, kept i = true ↔ ∃ a : Handle, a.index.toNat = i ∧ (h.get? a).isSome ∧ h.Reachable roots a) :
    h.collect roots =
      let freed := (List.range h.slots.size).filter fun i => h.occupied i && !kept i
      { h with
        slots := h.slots.mapIdx fun i s => if kept i then s else s.release
        free := (freed.map UInt32.ofNat).reverse ++ h.free
        live := h.live - freed.length
        recent := 0
        last := ⟨(List.range h.slots.size).countP kept, freed.length, h.live - freed.length, h.last.collections + 1⟩ } := by
  have hmarked : ∀ i < h.slots.size, (h.reached roots).markedAt i = kept i := fun i hi =>
    Bool.eq_iff_iff.2 ((markedAt_reached hu).trans (hkept i hi).symm)
  have hslots : (h.reached roots).slots.map Slot.sweep = h.slots.mapIdx fun i s => if kept i then s else s.release := by
    refine Array.ext_getElem? fun i => ?_
    have hcollect : (h.collect roots).slots[i]? = _ := slots_collect i
    rw [collect] at hcollect
    rw [hcollect, Array.getElem?_mapIdx]
    cases hs : h.slots[i]? with
    | none => rfl
    | some s =>
      have hsame : s.unmark = s := by rw [Slot.unmark, ← hu s (Array.mem_of_getElem? hs)]
      rw [Option.map_some, Option.map_some, hsame, hmarked i (Array.getElem?_eq_some_iff.1 hs).1]
  have hfreed : (h.reached roots).unreached = (List.range h.slots.size).filter fun i => h.occupied i && !kept i := by
    rw [unreached, size_reached]
    refine List.filter_congr fun i hi => ?_
    rw [any_unreached, hmarked i (List.mem_range.1 hi)]
  have hcount : (h.mark 0 roots).2 = (List.range h.slots.size).countP kept := by
    have hlast := marked_collect hu roots
    rw [List.countP_congr (q := kept) fun i hi => by rw [hmarked i (List.mem_range.1 hi)]] at hlast
    exact hlast
  simp only [collect, hslots, hfreed, hcount]

/-- The objects that the roots reach are as many as a collection has marked. -/
theorem ncard_reachable (hu : h.Unmarked) :
    {a : Handle | (h.get? a).isSome ∧ h.Reachable roots a}.ncard = (h.collect roots).last.marked := by
  have hinj : Set.InjOn (fun a : Handle => a.index.toNat) {a | (h.get? a).isSome ∧ h.Reachable roots a} := by
    rintro a ⟨ha, -⟩ c ⟨hc, -⟩ hac
    obtain ⟨o, ho⟩ := Option.isSome_iff_exists.1 ha
    obtain ⟨p, hp⟩ := Option.isSome_iff_exists.1 hc
    exact eq_of_get?_of_index ho hp hac
  have himage : (fun a : Handle => a.index.toNat) '' {a | (h.get? a).isSome ∧ h.Reachable roots a} =
      ((List.range h.slots.size).filter (h.reached roots).markedAt).toFinset := by
    ext i
    simp only [Set.mem_image, Set.mem_ofPred_eq, List.coe_toFinset, List.mem_filter, List.mem_range]
    constructor
    · rintro ⟨a, ha, rfl⟩
      obtain ⟨o, ho⟩ := Option.isSome_iff_exists.1 ha.1
      obtain ⟨s, hs, -⟩ := get?_eq_some.1 ho
      exact ⟨(Array.getElem?_eq_some_iff.1 hs).1, (markedAt_reached hu).2 ⟨a, rfl, ha⟩⟩
    · rintro ⟨-, hm⟩
      obtain ⟨a, rfl, ha⟩ := (markedAt_reached hu).1 hm
      exact ⟨a, ha, rfl⟩
  rw [← hinj.ncard_image, himage, Set.ncard_coe_finset, List.toFinset_card_of_nodup (List.nodup_range.filter _),
    marked_collect hu, List.countP_eq_length_filter]

/-- What is freed is no longer counted. -/
theorem live_collect (ho : h.Orderly) : (h.collect roots).live = (h.collect roots).slots.countP (·.object.isSome) := by
  have hsum := h.countP_collect_add_unreached roots
  rw [← ho.live] at hsum
  change h.live - (h.reached roots).unreached.length = _
  omega

/-- A heap is in order after a collection. -/
theorem Orderly.collect (ho : h.Orderly) : (h.collect roots).Orderly where
  toSparse := ho.toSparse.collect
  vacant := by
    intro i s hs hnone
    rw [slots_collect] at hs
    obtain ⟨s', hs', rfl⟩ := Option.map_eq_some_iff.1 hs
    cases hobj : s'.object with
    | none => exact List.mem_append_right _ (ho.vacant i s' hs' hobj)
    | some o =>
      refine List.mem_append_left _ (List.mem_reverse.2 (List.mem_map.2 ⟨i, mem_unreached.2 ⟨?_, s', hs', by rw [hobj]; rfl⟩, rfl⟩))
      split at hnone
      · rw [Slot.unmark, hobj] at hnone
        cases hnone
      · rename_i hm
        exact Bool.eq_false_iff.2 hm
  live := live_collect ho
  limit := by
    intro n hn
    have hbefore := ho.limit n hn
    have hless : (h.collect roots).live ≤ h.live := Nat.sub_le _ _
    omega

end

/-- Every operation keeps the slots in order, as long as handles tell all slots apart. -/
theorem Orderly.perform (ho : h.Orderly) {op : HeapOperation} (hsize : (h.perform op).slots.size < maxSlots) :
    (h.perform op).Orderly := by
  have hle := h.size_apply (op.effect h)
  rw [perform_eq] at hsize ⊢
  cases he : op.effect h with
  | nothing => exact ho
  | place o =>
    rw [he] at hsize hle
    exact ho.place (not_atLimit_of_effect he) (Nat.lt_of_le_of_lt hle hsize)
  | update a f => exact ho.update
  | collect roots => exact ho.collect

/-- A heap is in order after any history that handles can tell its slots apart in. -/
theorem Orderly.performAll (ho : h.Orderly) {ops : List HeapOperation} (hsize : (h.performAll ops).slots.size < maxSlots) :
    (h.performAll ops).Orderly := by
  induction ops generalizing h with
  | nil => exact ho
  | cons op ops ih => exact ih (ho.perform (Nat.lt_of_le_of_lt (size_performAll _ ops) hsize)) hsize

/-- What a collection does: it marks just the slots of the objects that the roots reach, whatever earlier collections have marked,
keeps just these objects as they are, counts them, and takes all marks off again. -/
structure Collects (h : Heap) (roots : List Handle) (h' : Heap) : Prop where
  marks : ∀ i, (h.reached roots).markedAt i ↔ ∃ a : Handle, a.index.toNat = i ∧ (h.get? a).isSome ∧ h.Reachable roots a
  unmarked : h'.Unmarked
  objects : ∀ a o, h'.get? a = some o ↔ h.get? a = some o ∧ h.Reachable roots a
  reached : h'.last.marked = {a : Handle | (h.get? a).isSome ∧ h.Reachable roots a}.ncard
  marked : h'.last.marked = h'.live
  live : h'.last.live = h'.live
  freed : h'.last.marked + h'.last.freed = h.live
  collections : h'.last.collections = h.last.collections + 1

/-- A collection of a heap in order does what a collection has to. -/
theorem Orderly.collects (ho : h.Orderly) (roots : List Handle) : h.Collects roots (h.collect roots) where
  marks _ := markedAt_reached ho.unmarked
  unmarked := unmarked_collect
  objects _ _ := get?_collect ho.unmarked
  reached := (ncard_reachable ho.unmarked).symm
  marked := by rw [live_collect ho, countP_collect ho.unmarked]
  live := rfl
  freed := by
    rw [ho.live, ← countP_collect ho.unmarked]
    exact h.countP_collect_add_unreached roots
  collections := rfl

/-- After any history, as long as handles tell all slots apart, no slot is marked and the slots are in order, and a collection from any
roots keeps just what they reach and counts it. -/
theorem collects_performAll (s : Settings) (ops : List HeapOperation)
    (hsize : ((ofSettings s).performAll ops).slots.size < maxSlots) :
    (∀ slot ∈ ((ofSettings s).performAll ops).slots, slot.marked = false) ∧ ((ofSettings s).performAll ops).Orderly ∧
      ∀ roots, ((ofSettings s).performAll ops).Collects roots (((ofSettings s).performAll ops).collect roots) := by
  have ho := (orderly_ofSettings s).performAll hsize
  exact ⟨ho.unmarked, ho, ho.collects⟩

/-- Two environments inside each other and a text, collected from a handle that is named twice and one that leads nowhere. -/
def cycleSample : List HeapOperation :=
  [.alloc (.environment { parent := none }), .alloc (.environment { parent := some ⟨0, 0⟩ }), .alloc (.text "x"),
    .update ⟨0, 0⟩ (fun _ => .environment { parent := some ⟨1, 0⟩ }), .collect [⟨1, 0⟩, ⟨1, 0⟩, ⟨7, 3⟩]]

/-- The sample frees the text and keeps the two environments that refer to each other, and no slot stays marked. -/
theorem collects_performAll_cycleSample :
    ((ofSettings {}).performAll cycleSample).slots.size = 3 ∧ ((ofSettings {}).performAll cycleSample).live = 2 ∧
      (∀ slot ∈ ((ofSettings {}).performAll cycleSample).slots, slot.marked = false) ∧
      ((ofSettings {}).performAll cycleSample).Orderly ∧
      ((ofSettings {}).performAll cycleSample).Collects [⟨0, 0⟩] (((ofSettings {}).performAll cycleSample).collect [⟨0, 0⟩]) := by
  have hsize : ((ofSettings {}).performAll cycleSample).slots.size = 3 := by cbv
  have hlive : ((ofSettings {}).performAll cycleSample).live = 2 := by cbv
  obtain ⟨hm, ho, hc⟩ := collects_performAll {} cycleSample (by rw [hsize]; decide)
  exact ⟨hsize, hlive, hm, ho, hc [⟨0, 0⟩]⟩

/-! ## The life of a handle -/

end Heap

namespace HeapEffect

/-- An object as an effect leaves it, if its handle is `a` and the effect does not free it. -/
def change (a : Handle) (o : Object) : HeapEffect → Object
  | update c f => if c = a then f o else o
  | _ => o

/-- Whether an effect leaves the object of a handle where it is: only a collection that does not reach it frees it. -/
def Spares (h : Heap) (a : Handle) : HeapEffect → Prop
  | collect roots => h.Reachable roots a
  | _ => True

end HeapEffect

namespace Heap

variable {h : Heap}

/-- The handles that allocations return in the course of operations. -/
def issued (h : Heap) : List HeapOperation → List Handle
  | [] => []
  | .alloc o :: ops =>
    match HeapM.alloc o h with
    | .ok a h' => a :: h'.issued ops
    | .error _ h' => h'.issued ops
  | op :: ops => (h.perform op).issued ops

/-- Every collection in the course of operations reaches a handle. -/
def Survives (h : Heap) (a : Handle) : List HeapOperation → Prop
  | [] => True
  | op :: ops => (op.effect h).Spares h a ∧ (h.perform op).Survives a ops

/-- The object of a handle as operations on that handle change it. -/
def changed (h : Heap) (a : Handle) (o : Object) : List HeapOperation → Object
  | [] => o
  | op :: ops => (h.perform op).changed a ((op.effect h).change a o) ops

/-- The handles issued in a history are those of its first operation and those of the rest. -/
theorem issued_cons (h : Heap) (op : HeapOperation) (ops : List HeapOperation) :
    h.issued (op :: ops) = h.issued [op] ++ (h.perform op).issued ops := by
  cases op with
  | alloc o =>
    simp only [issued, perform]
    cases HeapM.alloc o h <;> rfl
  | _ => rfl

/-- A heap that will not have too many slots or collections, effect by effect. -/
theorem Tidy.apply (ht : h.Tidy) {effect : HeapEffect} (hsize : (h.apply effect).slots.size < maxSlots)
    (hcollections : (h.apply effect).last.collections < UInt32.size) : (h.apply effect).Tidy := by
  cases effect with
  | nothing => exact ht
  | place o => exact ht.place (Nat.lt_of_le_of_lt size_place.1 hsize)
  | update a f => exact ht.update
  | collect roots => exact ht.collect hcollections

/-- A handle that was issued stays issued. -/
theorem issued_apply (ht : h.Tidy) {effect : HeapEffect} (hsize : (h.apply effect).slots.size < maxSlots)
    (hcollections : (h.apply effect).last.collections < UInt32.size) {a : Handle} (ha : h.Issued a) : (h.apply effect).Issued a := by
  cases effect with
  | nothing => exact ha
  | place o => exact issued_place ht.toSparse (Nat.lt_of_le_of_lt size_place.1 hsize) ha
  | update c f => exact issued_update ha
  | collect roots => exact issued_collect ht hcollections ha

/-- What one effect does to the object of an issued handle. -/
theorem get?_apply (ht : h.Tidy) {effect : HeapEffect} (hsize : (h.apply effect).slots.size < maxSlots) {a : Handle}
    (ha : h.Issued a) :
    (effect.Spares h a → (h.apply effect).get? a = (h.get? a).map fun o => effect.change a o) ∧
      (¬effect.Spares h a → (h.apply effect).get? a = none) := by
  cases effect with
  | nothing => exact ⟨fun _ => by simp [apply, HeapEffect.change], fun hn => absurd trivial hn⟩
  | place o =>
    have hroom : h.Room := Nat.lt_of_le_of_lt size_place.1 hsize
    have hne : a ≠ (h.place o).1 := by
      rintro rfl
      exact not_issued_place ht.toSparse hroom ha
    refine ⟨fun _ => ?_, fun hn => absurd trivial hn⟩
    simp only [apply, HeapEffect.change, Option.map_id_fun']
    exact get?_place_of_ne ht.toSparse hroom hne
  | update c f =>
    refine ⟨fun _ => ?_, fun hn => absurd trivial hn⟩
    simp only [apply, HeapEffect.change, get?_update]
    by_cases hac : a = c
    · simp [hac]
    · simp [hac, Ne.symm hac]
  | collect roots =>
    constructor
    · intro hr
      simp only [apply, HeapEffect.change, Option.map_id_fun']
      refine Option.ext fun o => ?_
      rw [get?_collect ht.unmarked]
      exact ⟨fun h => h.1, fun h => ⟨h, hr⟩⟩
    · intro hr
      refine Option.eq_none_iff_forall_ne_some.2 fun o ho => hr ?_
      exact ((get?_collect ht.unmarked).1 ho).2

theorem tidy_ofSettings (s : Settings) : (ofSettings s).Tidy where
  toSparse := sparse_ofSettings s
  generation := by simp [ofSettings]
  collections := (by decide : 0 < UInt32.size)

section

variable {ops : List HeapOperation} {a : Handle}

/-- After operations all handles that were issued stay issued, and so are those that the operations issue. -/
theorem Tidy.performAll (ht : h.Tidy) (hsize : (h.performAll ops).slots.size < maxSlots)
    (hcollections : (h.performAll ops).last.collections < UInt32.size) :
    (h.performAll ops).Tidy ∧ (∀ a, h.Issued a → (h.performAll ops).Issued a) ∧ ∀ a ∈ h.issued ops, (h.performAll ops).Issued a := by
  induction ops generalizing h with
  | nil => exact ⟨ht, fun _ ha => ha, fun a ha => nomatch ha⟩
  | cons op ops ih =>
    have hsize₁ := Nat.lt_of_le_of_lt (size_performAll (h.perform op) ops) hsize
    have hcollections₁ := Nat.lt_of_le_of_lt (collections_performAll (h.perform op) ops) hcollections
    have hkeep : ∀ a, h.Issued a → (h.perform op).Issued a := by
      rw [perform_eq] at hsize₁ hcollections₁ ⊢
      exact fun a => issued_apply ht hsize₁ hcollections₁
    have ht₁ : (h.perform op).Tidy := by
      rw [perform_eq] at hsize₁ hcollections₁ ⊢
      exact ht.apply hsize₁ hcollections₁
    obtain ⟨ht₂, hold, hnew⟩ := ih ht₁ hsize hcollections
    refine ⟨ht₂, fun a ha => hold a (hkeep a ha), fun a ha => ?_⟩
    rw [issued_cons] at ha
    rcases List.mem_append.1 ha with ha | ha
    · refine hold a ?_
      cases op with
      | alloc o =>
        have hle := h.size_apply ((HeapOperation.alloc o).effect h)
        rw [← perform_eq] at hle
        have hroom : h.Room := Nat.lt_of_le_of_lt hle hsize₁
        simp only [issued, perform] at ha ⊢
        rw [HeapM.alloc_eq] at ha ⊢
        by_cases hfull : h.atLimit = true
        · rw [if_pos hfull] at ha
          nomatch ha
        · rw [if_neg hfull] at ha ⊢
          rw [List.mem_singleton.1 ha]
          exact issued_place_self ht.toSparse hroom
      | _ => nomatch ha
    · exact hnew a ha

/-- The object of an issued handle after operations. -/
theorem get?_performAll (ht : h.Tidy) (hsize : (h.performAll ops).slots.size < maxSlots)
    (hcollections : (h.performAll ops).last.collections < UInt32.size) (ha : h.Issued a) :
    (∀ o, h.get? a = some o → h.Survives a ops → (h.performAll ops).get? a = some (h.changed a o ops)) ∧
      (h.get? a = none ∨ ¬h.Survives a ops → (h.performAll ops).get? a = none) := by
  induction ops generalizing h with
  | nil =>
    refine ⟨fun o ho _ => ho, fun hn => ?_⟩
    rcases hn with hn | hn
    · exact hn
    · exact absurd trivial hn
  | cons op ops ih =>
    have hsize₁ := Nat.lt_of_le_of_lt (size_performAll (h.perform op) ops) hsize
    have hcollections₁ := Nat.lt_of_le_of_lt (collections_performAll (h.perform op) ops) hcollections
    rw [perform_eq] at hsize₁ hcollections₁
    have hget := get?_apply ht hsize₁ ha
    have hih := ih (h := h.perform op) (by rw [perform_eq]; exact ht.apply hsize₁ hcollections₁) hsize hcollections
      (by rw [perform_eq]; exact issued_apply ht hsize₁ hcollections₁ ha)
    rw [perform_eq] at hih
    constructor
    · intro o ho hs
      have hsurvives := hs.2
      rw [perform_eq] at hsurvives
      have hnow := hget.1 hs.1
      rw [ho] at hnow
      have hlater := hih.1 _ hnow hsurvives
      simp only [performAll, changed, perform_eq]
      exact hlater
    · intro hn
      simp only [performAll, perform_eq]
      refine hih.2 ?_
      by_cases hspare : (op.effect h).Spares h a
      · rcases hn with hn | hn
        · left
          rw [hget.1 hspare, hn]
          rfl
        · right
          intro hs
          refine hn ⟨hspare, ?_⟩
          rw [perform_eq]
          exact hs
      · exact .inl (hget.2 hspare)

end

/-- With fewer slots and collections than handles can tell apart, an allocation returns a handle that no earlier one returned. The
handle leads to its object, as the operations on it change that, for as long as every collection reaches it, and leads nowhere ever
after. An allocation that fails changes nothing. -/
theorem alloc_never_recycles (s : Settings) (before after : List HeapOperation) (o : Object)
    (hsize : ((ofSettings s).performAll (before ++ .alloc o :: after)).slots.size < maxSlots)
    (hcollections : ((ofSettings s).performAll (before ++ .alloc o :: after)).last.collections < UInt32.size) :
    match HeapM.alloc o ((ofSettings s).performAll before) with
    | .error _ h => h = (ofSettings s).performAll before
    | .ok a h =>
      a ∉ (ofSettings s).issued before ∧ (h.Survives a after → (h.performAll after).get? a = some (h.changed a o after)) ∧
        (¬h.Survives a after → (h.performAll after).get? a = none) := by
  rw [performAll_append] at hsize hcollections
  have hsize₀ : ((ofSettings s).performAll before).slots.size < maxSlots := Nat.lt_of_le_of_lt (size_performAll _ _) hsize
  have hcollections₀ : ((ofSettings s).performAll before).last.collections < UInt32.size :=
    Nat.lt_of_le_of_lt (collections_performAll _ _) hcollections
  obtain ⟨ht, -, hissued⟩ := (tidy_ofSettings s).performAll hsize₀ hcollections₀
  simp only [performAll, perform] at hsize hcollections
  rw [HeapM.alloc_eq] at hsize hcollections ⊢
  split at hsize
  · rename_i hfull
    rw [if_pos hfull]
  · rename_i hfull
    rw [if_neg hfull] at hcollections ⊢
    simp only [heapAfter] at hsize hcollections
    have hsize₁ := Nat.lt_of_le_of_lt (size_performAll _ after) hsize
    have hroom : ((ofSettings s).performAll before).Room := Nat.lt_of_le_of_lt size_place.1 hsize₁
    have hget := get?_performAll (ht.place hroom) hsize hcollections (issued_place_self ht.toSparse hroom)
    refine ⟨fun hold => not_issued_place ht.toSparse hroom (hissued _ hold), fun hs => ?_, fun hs => hget.2 (.inr hs)⟩
    exact hget.1 o (get?_place_self ht.toSparse hroom) hs

/-- A text is collected and another one takes its slot. -/
def reusedSample : List HeapOperation := [.collect [], .alloc (.text "new")]

/-- The text of the sample is freed and its slot is taken again, but its handle leads nowhere. -/
theorem alloc_never_recycles_reusedSample :
    ((ofSettings {}).performAll (.alloc (.text "old") :: reusedSample)).slots.size = 1 ∧
      ∃ a h, HeapM.alloc (.text "old") (ofSettings {}) = .ok a h ∧ (h.performAll reusedSample).live = 1 ∧
        (h.performAll reusedSample).get? a = none := by
  have hsize : ((ofSettings {}).performAll (.alloc (.text "old") :: reusedSample)).slots.size = 1 := by cbv
  have hcollections : ((ofSettings {}).performAll (.alloc (.text "old") :: reusedSample)).last.collections = 1 := by cbv
  have hlife := alloc_never_recycles {} [] reusedSample (.text "old") (by simp only [List.nil_append, hsize]; decide)
    (by simp only [List.nil_append, hcollections]; decide)
  have halloc : HeapM.alloc (.text "old") (ofSettings {}) = .ok ⟨0, 0⟩ ((ofSettings {}).place (.text "old")).2 := rfl
  have hlive : (((ofSettings {}).place (.text "old")).2.performAll reusedSample).live = 1 := by
    simp only [reusedSample, performAll, perform, collect, reached, mark]
    rfl
  refine ⟨hsize, _, _, halloc, hlive, ?_⟩
  simp only [performAll, halloc] at hlife
  refine hlife.2.2 fun hs => ?_
  have hnothing : ∀ {h : Heap} {a : Handle}, ¬h.Reachable [] a := by
    intro h a hr
    induction hr with
    | root ha => exact List.not_mem_nil ha
    | reference _ _ _ ih => exact ih
  exact hnothing hs.1

end Heap

end ScriptVM
