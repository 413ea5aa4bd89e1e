import Mathlib.Data.List.Nodup
import ScriptVM.Heap.Collect
import ScriptVM.Proofs.Arena

/-!
# What a collection keeps

`Heap.Reachable` is reachability along the references of objects. Marking marks just the objects that are reachable from the
handles to visit, when none was marked before, so a collection keeps just those that the roots reach (`Heap.get?_collect`) and
leaves no slot marked (`Heap.unmarked_collect`).
-/

namespace ScriptVM

namespace Heap

variable {h : Heap}

/-- The handles that are met on the way from the roots along the references of objects. -/
inductive Reachable (h : Heap) (roots : List Handle) : Handle → Prop where
  | root {a : Handle} : a ∈ roots → Reachable h roots a
  | reference {a c : Handle} {o : Object} : Reachable h roots a → h.get? a = some o → c ∈ o.references → Reachable h roots c

/-! ### Marks -/

/-- The objects of handles are the same while slots are marked. -/
@[simp] theorem get?_setMark {i : Nat} {a : Handle} : (h.setMark i).get? a = h.get? a := by
  simp only [get?, setMark, Array.getElem?_modify]
  by_cases hi : i = a.index.toNat
  · rw [if_pos hi]
    cases h.slots[a.index.toNat]? <;> rfl
  · rw [if_neg hi]

/-- Setting a mark marks that slot and no other. -/
theorem markedAt_setMark {i j : Nat} (hi : i < h.slots.size) : (h.setMark i).markedAt j = true ↔ j = i ∨ h.markedAt j = true := by
  unfold markedAt setMark
  rw [Array.getElem?_modify]
  by_cases hij : i = j
  · subst hij
    simp [hi, Slot.mark]
  · simp [hij, Ne.symm hij]

/-- An object that marking passes over is marked already. -/
theorem markedAt_of_unmarked?_eq_none {a : Handle} {o : Object} (hn : h.unmarked? a = none) (ho : h.get? a = some o) :
    h.markedAt a.index.toNat = true := by
  by_contra hm
  rw [unmarked?, if_neg hm, ho] at hn
  nomatch hn

/-- A slot that is marked stays marked. -/
theorem markedAt_mark (count : Nat) (work : List Handle) {i : Nat} (hi : h.markedAt i = true) :
    (h.mark count work).1.markedAt i = true := by
  fun_induction Heap.mark h count work with
  | case1 h count => exact hi
  | case2 h count a rest o ho ih =>
    obtain ⟨hlt, -, -⟩ := of_unmarked?_eq_some ho
    exact ih ((markedAt_setMark hlt).2 (.inr hi))
  | case3 h count a rest _ ih => exact ih hi

/-- Every handle to visit that resolves gets its slot marked. -/
theorem markedAt_mark_of_mem (count : Nat) (work : List Handle) {a : Handle} {o : Object} (ha : a ∈ work) (ho : h.get? a = some o) :
    (h.mark count work).1.markedAt a.index.toNat = true := by
  fun_induction Heap.mark h count work with
  | case1 h count => nomatch ha
  | case2 h count c rest p hp ih =>
    obtain ⟨hlt, -, -⟩ := of_unmarked?_eq_some hp
    rcases List.mem_cons.1 ha with rfl | ha
    · exact markedAt_mark _ _ ((markedAt_setMark hlt).2 (.inl rfl))
    · exact ih (List.mem_append_right _ ha) (get?_setMark.trans ho)
  | case3 h count c rest hnone ih =>
    rcases List.mem_cons.1 ha with rfl | ha
    · exact markedAt_mark _ _ (markedAt_of_unmarked?_eq_none hnone ho)
    · exact ih ha ho

/-- Handles that resolve in one slot are equal. -/
theorem eq_of_get?_of_index {a c : Handle} {o p : Object} (ha : h.get? a = some o) (hc : h.get? c = some p)
    (hi : a.index.toNat = c.index.toNat) : a = c := by
  obtain ⟨s, hs, hg, -⟩ := get?_eq_some.1 ha
  obtain ⟨s', hs', hg', -⟩ := get?_eq_some.1 hc
  rw [hi, hs'] at hs
  cases hs
  exact Handle.ext_of_index hi (hg.symm.trans hg')

/-- What an object refers to is marked with it, if the object was not marked before. -/
theorem markedAt_mark_references (count : Nat) (work : List Handle) {a c : Handle} {o p : Object} (ho : h.get? a = some o)
    (hnew : ¬h.markedAt a.index.toNat = true) (ha : (h.mark count work).1.markedAt a.index.toNat = true)
    (hc : c ∈ o.references) (hp : h.get? c = some p) : (h.mark count work).1.markedAt c.index.toNat = true := by
  fun_induction Heap.mark h count work with
  | case1 h count => exact absurd ha hnew
  | case2 h count d rest q hq ih =>
    obtain ⟨hlt, -, hd⟩ := of_unmarked?_eq_some hq
    by_cases hi : a.index.toNat = d.index.toNat
    · -- The object that is marked here: what it refers to is visited next.
      have had := eq_of_get?_of_index ho hd hi
      subst had
      rw [ho] at hd
      cases hd
      exact markedAt_mark_of_mem _ _ (List.mem_append_left _ hc) (get?_setMark.trans hp)
    · refine ih (get?_setMark.trans ho) (fun hm => ?_) ha (get?_setMark.trans hp)
      rcases (markedAt_setMark hlt).1 hm with heq | hold
      · exact hi heq
      · exact hnew hold
  | case3 h count d rest _ ih => exact ih ho hnew ha hp

/-- Marking marks nothing outside a closed set that holds the handles to visit, but for what was marked before. -/
theorem of_markedAt_mark {Q : Handle → Prop}
    (hclosed : ∀ {a c : Handle} {o : Object}, Q a → h.get? a = some o → c ∈ o.references → Q c)
    (count : Nat) (work : List Handle) (hwork : ∀ a ∈ work, Q a) {i : Nat} (hi : (h.mark count work).1.markedAt i = true) :
    h.markedAt i = true ∨ ∃ a, a.index.toNat = i ∧ (h.get? a).isSome ∧ Q a := by
  fun_induction Heap.mark h count work with
  | case1 h count => exact .inl hi
  | case2 h count d rest q hq ih =>
    obtain ⟨hlt, -, hd⟩ := of_unmarked?_eq_some hq
    have hnext : ∀ c ∈ q.references ++ rest, Q c := by
      intro c hc
      rcases List.mem_append.1 hc with hc | hc
      · exact hclosed (hwork d List.mem_cons_self) hd hc
      · exact hwork c (List.mem_cons_of_mem _ hc)
    rcases ih (fun hQ ho hc => hclosed hQ (get?_setMark.symm.trans ho) hc) hnext hi with hm | ⟨a, rfl, ha, hQ⟩
    · rcases (markedAt_setMark hlt).1 hm with rfl | hm
      · exact .inr ⟨d, rfl, by rw [hd]; rfl, hwork d List.mem_cons_self⟩
      · exact .inl hm
    · rw [get?_setMark] at ha
      exact .inr ⟨a, rfl, ha, hQ⟩
  | case3 h count d rest _ ih => exact ih hclosed (fun c hc => hwork c (List.mem_cons_of_mem _ hc)) hi

/-- Marking changes nothing but marks. -/
theorem slots_mark (count : Nat) (work : List Handle) (i : Nat) :
    (h.mark count work).1.slots[i]? = (h.slots[i]?).map fun s => { s with marked := (h.mark count work).1.markedAt i } := by
  fun_induction Heap.mark h count work with
  | case1 h count =>
    unfold markedAt
    cases h.slots[i]? <;> rfl
  | case2 h count a rest o ho ih =>
    rw [ih]
    simp only [setMark, Array.getElem?_modify]
    split
    · cases h.slots[i]? <;> rfl
    · rfl
  | case3 h count a rest _ ih => exact ih

/-- In a heap without marks no slot is marked. -/
theorem Unmarked.markedAt (hu : h.Unmarked) (i : Nat) : ¬h.markedAt i = true := by
  intro hm
  obtain ⟨s, hs, hmarked⟩ := (Option.any_eq_true _ _).1 hm
  rw [hu s (Array.mem_of_getElem? hs)] at hmarked
  nomatch hmarked

section

variable {roots : List Handle}

/-- Marking sets marks and changes nothing else in a slot. -/
theorem slots_reached (i : Nat) :
    (h.reached roots).slots[i]? = (h.slots[i]?).map fun s => { s with marked := (h.reached roots).markedAt i } :=
  slots_mark 0 roots i

theorem size_reached : (h.reached roots).slots.size = h.slots.size := by
  have hnone : ∀ i, (h.reached roots).slots.size ≤ i ↔ h.slots.size ≤ i := by
    intro i
    rw [← Array.getElem?_eq_none_iff, slots_reached, Option.map_eq_none_iff, Array.getElem?_eq_none_iff]
  exact Nat.le_antisymm ((hnone _).2 (Nat.le_refl _)) ((hnone _).1 (Nat.le_refl _))

/-- When no slot was marked before, the slots that are marked are those of the objects that the roots reach. -/
theorem markedAt_reached (hu : h.Unmarked) {i : Nat} :
    (h.reached roots).markedAt i = true ↔ ∃ a : Handle, a.index.toNat = i ∧ (h.get? a).isSome ∧ h.Reachable roots a := by
  constructor
  · intro hi
    rcases of_markedAt_mark (Q := h.Reachable roots) .reference 0 roots (fun _ => .root) hi with hold | hnew
    · exact absurd hold (hu.markedAt i)
    · exact hnew
  · rintro ⟨a, rfl, ha, hr⟩
    induction hr with
    | root ha' =>
      obtain ⟨o, ho⟩ := Option.isSome_iff_exists.1 ha
      exact markedAt_mark_of_mem _ _ ha' ho
    | reference _ hget hc ih =>
      obtain ⟨p, hp⟩ := Option.isSome_iff_exists.1 ha
      exact markedAt_mark_references _ _ hget (hu.markedAt _) (ih (by rw [hget]; rfl)) hc hp

/-! ### The heap after a collection -/

/-- After a collection a marked slot is as it was, and any other is free. -/
theorem slots_collect (i : Nat) : (h.collect roots).slots[i]? = (h.slots[i]?).map fun s =>
    if (h.reached roots).markedAt i then s.unmark else s.unmark.release := by
  simp only [collect, Array.getElem?_map, slots_reached]
  cases h.slots[i]? with
  | none => rfl
  | some s => cases (h.reached roots).markedAt i <;> rfl

theorem object_release (s : Slot) : s.release.object = none := by
  obtain ⟨g, m, o⟩ := s
  cases o <;> rfl

/-- Releasing a slot leaves its mark. -/
theorem marked_release (s : Slot) : s.release.marked = s.marked := by
  obtain ⟨g, m, o⟩ := s
  cases o <;> rfl

/-- Just the objects in marked slots are kept. -/
theorem get?_collect_iff_markedAt {a : Handle} {o : Object} :
    (h.collect roots).get? a = some o ↔ h.get? a = some o ∧ (h.reached roots).markedAt a.index.toNat = true := by
  rw [get?_eq_some, get?_eq_some, slots_collect]
  by_cases hm : (h.reached roots).markedAt a.index.toNat = true
  · simp [hm, Slot.unmark]
  · simp only [hm]
    constructor
    · rintro ⟨s, hs, -, hobj⟩
      obtain ⟨s', -, rfl⟩ := Option.map_eq_some_iff.1 hs
      rw [if_neg (by simp), object_release] at hobj
      nomatch hobj
    · rintro ⟨-, hmarked⟩
      nomatch hmarked

/-- A collection makes no object and changes none. -/
theorem get?_of_get?_collect {a : Handle} {o : Object} (ho : (h.collect roots).get? a = some o) : h.get? a = some o :=
  (get?_collect_iff_markedAt.1 ho).1

/-- A collection leaves the roots as they are. -/
theorem get?_collect_of_root {a : Handle} {o : Object} (ha : a ∈ roots) : (h.collect roots).get? a = some o ↔ h.get? a = some o :=
  ⟨get?_of_get?_collect, fun ho => get?_collect_iff_markedAt.2 ⟨ho, markedAt_mark_of_mem _ _ ha ho⟩⟩

/-- A collection keeps just the objects that the roots reach. -/
theorem get?_collect (hu : h.Unmarked) {a : Handle} {o : Object} :
    (h.collect roots).get? a = some o ↔ h.get? a = some o ∧ h.Reachable roots a := by
  rw [get?_collect_iff_markedAt, markedAt_reached hu]
  constructor
  · rintro ⟨ho, c, hi, hc, hr⟩
    obtain ⟨p, hp⟩ := Option.isSome_iff_exists.1 hc
    exact ⟨ho, eq_of_get?_of_index hp ho hi ▸ hr⟩
  · rintro ⟨ho, hr⟩
    exact ⟨ho, a, rfl, by rw [ho]; rfl, hr⟩

/-- A collection removes no slot and adds none. -/
theorem size_collect : (h.collect roots).slots.size = h.slots.size := by
  have hsize : (h.reached roots).slots.size = h.slots.size := size_reached
  rw [← hsize]
  exact Array.size_map

theorem collections_collect : (h.collect roots).last.collections = h.last.collections + 1 := rfl

/-- A released slot goes on to the next generation if it held an object. -/
theorem generation_release {s : Slot} (hs : s.generation.toNat + 1 < UInt32.size) :
    s.unmark.release.generation.toNat = s.generation.toNat + if s.object.isSome then 1 else 0 := by
  obtain ⟨g, m, o⟩ := s
  cases o with
  | none => rfl
  | some o =>
    simp only [Slot.unmark, Slot.release, UInt32.toNat_add, Option.isSome_some, if_true]
    exact Nat.mod_eq_of_lt hs

/-- A handle that was issued is so after a collection, as long as generations do not wrap around. -/
theorem issued_collect (ht : h.Tidy) (hc : h.last.collections + 1 < UInt32.size) {a : Handle} (ha : h.Issued a) :
    (h.collect roots).Issued a := by
  obtain ⟨s, hs, hcase⟩ := ha
  have hgen := ht.generation _ s hs
  by_cases hm : (h.reached roots).markedAt a.index.toNat = true
  · exact ⟨s.unmark, by rw [slots_collect, hs, Option.map_some, if_pos hm], hcase⟩
  · refine ⟨s.unmark.release, by rw [slots_collect, hs, Option.map_some, if_neg hm], .inl ?_⟩
    rw [generation_release (by omega)]
    rcases hcase with hlt | ⟨heq, hsome⟩
    · omega
    · rw [if_pos hsome, heq]
      omega

/-- A slot that a sweep frees holds an object and is not marked. -/
theorem mem_unreached {i : Nat} :
    i ∈ (h.reached roots).unreached ↔ (h.reached roots).markedAt i = false ∧ ∃ s, h.slots[i]? = some s ∧ s.object.isSome := by
  rw [unreached, List.mem_filter, List.mem_range, size_reached, slots_reached]
  cases hs : h.slots[i]? with
  | none => simp
  | some s =>
    have hi := (Array.getElem?_eq_some_iff.1 hs).1
    simp [hi]

/-- A collection leaves no slot marked, whatever was marked before. -/
theorem unmarked_collect : (h.collect roots).Unmarked := by
  intro s hs
  obtain ⟨i, hi⟩ := Array.getElem?_of_mem hs
  rw [slots_collect] at hi
  obtain ⟨s', -, rfl⟩ := Option.map_eq_some_iff.1 hi
  split
  · rfl
  · exact marked_release _

/-- A sparse heap is sparse after a collection: the slots that were freed join the free list, and no slot is marked. -/
theorem Sparse.collect (ht : h.Sparse) : (h.collect roots).Sparse := by
  have hsize := ht.size
  have hlt : ∀ {i : Nat} {s : Slot}, h.slots[i]? = some s → i < maxSlots := fun hs =>
    Nat.lt_of_lt_of_le (Array.getElem?_eq_some_iff.1 hs).1 hsize
  refine ⟨fun i hi => ?_, ?_, ?_, unmarked_collect⟩
  · rcases List.mem_append.1 hi with hi | hi
    · obtain ⟨j, hj, rfl⟩ := List.mem_map.1 (List.mem_reverse.1 hi)
      obtain ⟨hm, s, hs, -⟩ := mem_unreached.1 hj
      refine ⟨s.unmark.release, ?_, object_release _⟩
      rw [toNat_ofNat_of_lt (hlt hs), slots_collect, hs, Option.map_some, if_neg (by simp [hm])]
    · obtain ⟨s, hs, hobj⟩ := ht.free i hi
      rw [slots_collect, hs, Option.map_some]
      split
      · exact ⟨s.unmark, rfl, hobj⟩
      · exact ⟨s.unmark.release, rfl, object_release _⟩
  · refine List.nodup_append.2 ⟨?_, ht.nodup, ?_⟩
    · rw [List.nodup_reverse]
      refine List.Nodup.map_on (fun i hi j hj hij => ?_) (List.nodup_range.filter _)
      obtain ⟨-, s, hs, -⟩ := mem_unreached.1 hi
      obtain ⟨-, s', hs', -⟩ := mem_unreached.1 hj
      rw [← toNat_ofNat_of_lt (hlt hs), hij, toNat_ofNat_of_lt (hlt hs')]
    · rintro i hi _ hj rfl
      -- A freed slot held an object, a free one did not.
      obtain ⟨j, hj', rfl⟩ := List.mem_map.1 (List.mem_reverse.1 hi)
      obtain ⟨-, s, hs, hsome⟩ := mem_unreached.1 hj'
      obtain ⟨s', hs', hobj⟩ := ht.free _ hj
      rw [toNat_ofNat_of_lt (hlt hs), hs] at hs'
      cases hs'
      rw [hobj] at hsome
      nomatch hsome
  · rw [size_collect]
    exact hsize

/-- A tidy heap is tidy after a collection, as long as generations do not wrap around. -/
theorem Tidy.collect (ht : h.Tidy) (hc : h.last.collections + 1 < UInt32.size) : (h.collect roots).Tidy := by
  refine ⟨ht.toSparse.collect, fun i s hs => ?_, hc⟩
  rw [slots_collect] at hs
  obtain ⟨s', hs', rfl⟩ := Option.map_eq_some_iff.1 hs
  have hgen := ht.generation i s' hs'
  rw [collections_collect]
  split
  · exact Nat.le_succ_of_le hgen
  · rw [generation_release (by omega)]
    split <;> omega

end

end Heap

end ScriptVM
