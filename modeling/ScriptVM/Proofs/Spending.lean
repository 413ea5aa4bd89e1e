import ScriptVM.Proofs.Growth
import ScriptVM.Proofs.History

/-!
# What an instruction allocates

An operation that `Costs` a number of objects allocates no more than these, whether it succeeds or not, keeps the slots in order
and the counts of objects right, and fails for want of room only where the heap has no room for that many. Costs add up when
operations follow each other. One instruction of the machine costs at most one object (`Charges.advance`), so a heap that is not
full when an instruction begins has room for it.
-/

namespace ScriptVM

/-! ## Counts -/

namespace Heap

/-- The heap counts all its objects, and the count is within the limit. -/
structure Counted (h : Heap) : Prop where
  objects : h.slots.countP (·.object.isSome) ≤ h.live
  limit : ∀ n ∈ h.limit, h.live ≤ n

variable {h : Heap}

/-- A new heap counts its objects: there are none. -/
theorem counted_ofSettings (s : Settings) : (ofSettings s).Counted := ⟨Nat.le_refl _, fun n _ => Nat.zero_le n⟩

/-- An object takes one slot, whatever was in it. -/
theorem countP_place {o : Object} : (h.place o).2.slots.countP (·.object.isSome) ≤ h.slots.countP (·.object.isSome) + 1 := by
  cases hf : h.free with
  | nil =>
    rw [(slots_place_of_full (o := o) hf).1]
    simp
  | cons i rest =>
    rw [(slots_place_of_free (o := o) hf).1]
    by_cases hi : i.toNat < h.slots.size
    · rw [modify_eq_set hi, Array.countP_set hi]
      exact Nat.add_le_add (Nat.sub_le _ _) (by split <;> decide)
    · have hsame : h.slots.modify i.toNat (fun s => { s with object := some o, marked := false }) = h.slots :=
        Array.ext (by simp) fun j h1 h2 => by rw [Array.getElem_modify, if_neg (by omega)]
      rw [hsame]
      exact Nat.le_succ _

/-- Placing an object below the limit keeps the count right. -/
theorem Counted.place (hc : h.Counted) {o : Object} (hlimit : h.atLimit = false) : (h.place o).2.Counted where
  objects := by
    rw [live_place]
    exact Nat.le_trans countP_place (Nat.succ_le_succ hc.objects)
  limit := by
    intro n hn
    have hroom : ¬n ≤ h.live := by
      rw [limit_place, Option.mem_def] at hn
      simpa [atLimit, hn] using hlimit
    rw [live_place]
    omega

/-- A change keeps the count right. -/
theorem Counted.update (hc : h.Counted) {a : Handle} {f : Object → Object} : (h.update a f).Counted where
  objects := by
    rw [countP_update]
    exact hc.objects
  limit := hc.limit

/-- A collection takes as many objects off the count as it frees. -/
theorem Counted.collect (hc : h.Counted) {roots : List Handle} : (h.collect roots).Counted where
  objects := by
    have hsum := h.countP_collect_add_unreached roots
    have hobjects := hc.objects
    change _ ≤ h.live - (h.reached roots).unreached.length
    omega
  limit := fun n hn => Nat.le_trans (Nat.sub_le _ _) (hc.limit n hn)

end Heap

/-! ## Costs -/

/-- A later heap with no collection in between and so many objects more. -/
structure Heap.Spends (h h' : Heap) (count : Nat) : Prop where
  live : h'.live = h.live + count
  recent : h'.recent = h.recent + count
  limit : h'.limit = h.limit
  size : h.slots.size ≤ h'.slots.size
  orderly : h'.slots.size < Heap.maxSlots → h.Orderly → h'.Orderly
  objects : h'.slots.countP (·.object.isSome) ≤ h.slots.countP (·.object.isSome) + count
  counted : h.Counted → h'.Counted

namespace Heap.Spends

variable {h h' h'' : Heap} {a b : Nat}

theorem refl (h : Heap) : h.Spends h 0 := ⟨rfl, rfl, rfl, Nat.le_refl _, fun _ ho => ho, Nat.le_refl _, id⟩

/-- What is spent in two goes adds up. -/
theorem trans (hs : h.Spends h' a) (hs' : h'.Spends h'' b) : h.Spends h'' (a + b) where
  live := by rw [hs'.live, hs.live, Nat.add_assoc]
  recent := by rw [hs'.recent, hs.recent, Nat.add_assoc]
  limit := hs'.limit.trans hs.limit
  size := Nat.le_trans hs.size hs'.size
  orderly := fun hsize ho => hs'.orderly hsize (hs.orderly (Nat.lt_of_le_of_lt hs'.size hsize) ho)
  objects := by
    have hfirst := hs.objects
    have hsecond := hs'.objects
    omega
  counted := fun hc => hs'.counted (hs.counted hc)

theorem update (h : Heap) (c : Handle) (f : Object → Object) : h.Spends (h.update c f) 0 :=
  ⟨rfl, rfl, rfl, Nat.le_of_eq Heap.size_update.symm, fun _ ho => ho.update, Nat.le_of_eq Heap.countP_update, fun hc => hc.update⟩

theorem place (o : Object) (hlimit : h.atLimit = false) : h.Spends (h.place o).2 1 where
  live := Heap.live_place
  recent := by
    unfold Heap.place
    cases h.free <;> rfl
  limit := h.limit_place o
  size := Heap.size_place.1
  orderly := fun hsize ho => ho.place hlimit (Nat.lt_of_le_of_lt Heap.size_place.1 hsize)
  objects := Heap.countP_place
  counted := fun hc => hc.place hlimit

end Heap.Spends

/-- The heap has no room for so many objects, and its limit is the one reported. -/
def Heap.Short (h : Heap) (most limit : Nat) : Prop := 0 < most ∧ h.limit = some limit ∧ limit < h.live + most

/-- A heap without room for some objects has none for more. -/
theorem Heap.Short.mono {h : Heap} {a b limit : Nat} (hs : h.Short a limit) (hab : a ≤ b) : h.Short b limit :=
  ⟨Nat.lt_of_lt_of_le hs.1 hab, hs.2.1, Nat.lt_of_lt_of_le hs.2.2 (Nat.add_le_add_left hab _)⟩

/-- What was short of room after some objects was short of room for all of them. -/
theorem Heap.Spends.short {h h' : Heap} {count a b limit : Nat} (hs : h.Spends h' count) (hcount : count ≤ a) (hshort : h'.Short b limit) :
    h.Short (a + b) limit := by
  obtain ⟨hpos, hlimit, hroom⟩ := hshort
  refine ⟨Nat.add_pos_right _ hpos, by rw [← hs.limit, hlimit], ?_⟩
  rw [hs.live] at hroom
  omega

/-- Work on a state with a heap that allocates at most so many objects, also if it fails, and fails for want of room only where there
is none for them. -/
structure Spending {σ α : Type} (heap : σ → Heap) (most : Nat) (x : EStateM RuntimeError σ α) : Prop where
  spends : ∀ s v s', x s = .ok v s' → ∃ count ≤ most, (heap s).Spends (heap s') count
  fails : ∀ s e s', x s = .error e s' → ∃ count ≤ most, (heap s).Spends (heap s') count
  short : ∀ s limit s', x s = .error (.heap (.exhausted limit)) s' → (heap s).Short most limit

namespace Spending

variable {σ α β : Type} {heap : σ → Heap} {a b : Nat}

/-- What costs some objects costs at most more. -/
theorem mono {x : EStateM RuntimeError σ α} (hx : Spending heap a x) (hab : a ≤ b) : Spending heap b x where
  spends := by
    intro s v s' hr
    obtain ⟨count, hcount, hs⟩ := hx.spends s v s' hr
    exact ⟨count, Nat.le_trans hcount hab, hs⟩
  fails := by
    intro s e s' hr
    obtain ⟨count, hcount, hs⟩ := hx.fails s e s' hr
    exact ⟨count, Nat.le_trans hcount hab, hs⟩
  short := fun s limit s' hr => (hx.short s limit s' hr).mono hab

/-- The costs of two parts in sequence add up. -/
theorem bind {x : EStateM RuntimeError σ α} {f : α → EStateM RuntimeError σ β} (hx : Spending heap a x)
    (hf : ∀ v, Spending heap b (f v)) : Spending heap (a + b) (x >>= f) where
  spends := by
    intro s w s'' hr
    change EStateM.bind x f s = _ at hr
    unfold EStateM.bind at hr
    cases hfirst : x s with
    | error e s' =>
      rw [hfirst] at hr
      nomatch hr
    | ok v s' =>
      rw [hfirst] at hr
      obtain ⟨count, hcount, hs⟩ := hx.spends s v s' hfirst
      obtain ⟨count', hcount', hs'⟩ := (hf v).spends s' w s'' hr
      exact ⟨count + count', Nat.add_le_add hcount hcount', hs.trans hs'⟩
  fails := by
    intro s e s'' hr
    change EStateM.bind x f s = _ at hr
    unfold EStateM.bind at hr
    cases hfirst : x s with
    | error e' s' =>
      rw [hfirst] at hr
      cases hr
      obtain ⟨count, hcount, hs⟩ := hx.fails s e s'' hfirst
      exact ⟨count, Nat.le_trans hcount (Nat.le_add_right a b), hs⟩
    | ok v s' =>
      rw [hfirst] at hr
      obtain ⟨count, hcount, hs⟩ := hx.spends s v s' hfirst
      obtain ⟨count', hcount', hs'⟩ := (hf v).fails s' e s'' hr
      exact ⟨count + count', Nat.add_le_add hcount hcount', hs.trans hs'⟩
  short := by
    intro s limit s'' hr
    change EStateM.bind x f s = _ at hr
    unfold EStateM.bind at hr
    cases hfirst : x s with
    | error e s' =>
      rw [hfirst] at hr
      cases hr
      exact (hx.short s limit s'' hfirst).mono (Nat.le_add_right a b)
    | ok v s' =>
      rw [hfirst] at hr
      obtain ⟨count, hcount, hs⟩ := hx.spends s v s' hfirst
      exact hs.short hcount ((hf v).short s' limit s'' hr)

/-- What allocates nothing costs no more than an object. -/
theorem spare {x : EStateM RuntimeError σ α} (hx : Spending heap 0 x) : Spending heap 1 x := hx.mono (Nat.zero_le 1)

/-- What follows work that allocates nothing costs what it costs by itself. -/
theorem after {x : EStateM RuntimeError σ α} {f : α → EStateM RuntimeError σ β} (hx : Spending heap 0 x)
    (hf : ∀ v, Spending heap b (f v)) : Spending heap b (x >>= f) := by
  have hboth := hx.bind hf
  rwa [Nat.zero_add] at hboth

/-- Work that leaves the heap, and does not fail for want of room. -/
theorem idle {x : EStateM RuntimeError σ α} (hok : ∀ s v s', x s = .ok v s' → heap s' = heap s)
    (herror : ∀ s e s', x s = .error e s' → heap s' = heap s ∧ ∀ limit, e ≠ .heap (.exhausted limit)) : Spending heap 0 x where
  spends := by
    intro s v s' hr
    rw [hok s v s' hr]
    exact ⟨0, Nat.le_refl 0, .refl _⟩
  fails := by
    intro s e s' hr
    rw [(herror s e s' hr).1]
    exact ⟨0, Nat.le_refl 0, .refl _⟩
  short := fun s limit s' hr => absurd rfl ((herror s _ s' hr).2 limit)

theorem pure (v : α) : Spending heap 0 (Pure.pure v) := by
  refine idle (fun s w s' hr => ?_) fun s e s' hr => ?_
  · cases hr
    rfl
  · nomatch hr

/-- Failing costs nothing, unless it is for want of room. -/
theorem throw {e : RuntimeError} (he : ∀ limit, e ≠ .heap (.exhausted limit)) :
    Spending heap 0 (MonadExcept.throw e : EStateM RuntimeError σ α) := by
  refine idle (fun s w s' hr => ?_) fun s e' s' hr => ?_
  · nomatch hr
  · cases hr
    exact ⟨rfl, he⟩

/-- Work that is on every state like some that costs so much. -/
theorem pointwise {x : EStateM RuntimeError σ α} (h : ∀ s, ∃ y : EStateM RuntimeError σ α, Spending heap a y ∧ x s = y s) :
    Spending heap a x where
  spends := by
    intro s v s' hr
    obtain ⟨y, hy, hxy⟩ := h s
    exact hy.spends s v s' (hxy.symm.trans hr)
  fails := by
    intro s e s' hr
    obtain ⟨y, hy, hxy⟩ := h s
    exact hy.fails s e s' (hxy.symm.trans hr)
  short := by
    intro s limit s' hr
    obtain ⟨y, hy, hxy⟩ := h s
    exact hy.short s limit s' (hxy.symm.trans hr)

end Spending

/-! ## Operations on the heap -/

/-- An operation on the heap that allocates at most so many objects. -/
abbrev Costs {α : Type} (most : Nat) (x : HeapM α) : Prop := Spending id most x

namespace Costs

open Spending

variable {α : Type}

/-- A look at the heap. What looks fails for a handle that does not resolve, and for nothing else. -/
theorem read {g : Heap → Except RuntimeError α} (hg : ∀ h, Looks (g h)) : Costs 0 (HeapM.read g) := by
  refine idle (fun h w h' hr => ?_) fun h e h' hr => ?_
  · unfold HeapM.read at hr
    split at hr
    · cases hr
      rfl
    · nomatch hr
  · unfold HeapM.read at hr
    split at hr
    · nomatch hr
    · rename_i e he
      cases hr
      refine ⟨rfl, fun limit heq => ?_⟩
      subst heq
      nomatch hg h _ he

theorem alloc (o : Object) : Costs 1 (HeapM.alloc o) where
  spends := by
    intro h c h' hr
    rw [HeapM.alloc_eq] at hr
    split at hr
    · nomatch hr
    · rename_i hfull
      cases hr
      exact ⟨1, Nat.le_refl 1, .place o (Bool.eq_false_iff.2 hfull)⟩
  fails := by
    intro h e h' hr
    rw [HeapM.alloc_eq] at hr
    split at hr
    · cases hr
      exact ⟨0, Nat.zero_le 1, .refl _⟩
    · nomatch hr
  short := by
    intro h limit h' hr
    rw [HeapM.alloc_eq] at hr
    split at hr
    · rename_i hfull
      obtain ⟨n, hn, hle⟩ := (Option.any_eq_true _ _).1 hfull
      cases hr
      rw [hn]
      exact ⟨Nat.one_pos, hn, Nat.lt_succ_of_le (of_decide_eq_true hle)⟩
    · nomatch hr

/-- A reference to a new object costs one. -/
theorem allocRef (kind : RefKind) (o : Object) : Costs 1 (HeapM.allocRef kind o) := (alloc o).bind fun c => pure (Value.ref kind c)

theorem allocEnvironment (parent : Option Handle) : Costs 1 (HeapM.allocEnvironment parent) := alloc _

theorem update (c : Handle) (f : Object → Object) : Costs 0 (HeapM.update c f) where
  spends := by
    intro h w h' hr
    cases hr
    exact ⟨0, Nat.le_refl 0, .update h c f⟩
  fails := by
    intro h e h' hr
    nomatch hr
  short := by
    intro h limit h' hr
    nomatch hr

theorem define (env : Handle) (name : String) (value : Value) : Costs 0 (HeapM.define env name value) :=
  (read (by simp)).after fun _ => update _ _

theorem defineAll (env : Handle) (bindings : List (String × Value)) : Costs 0 (HeapM.defineAll env bindings) := by
  induction bindings with
  | nil => exact pure ()
  | cons b rest ih => exact (define env b.1 b.2).after fun _ => ih

theorem assign (env : Handle) (name : String) (value : Value) : Costs 0 (HeapM.assign env name value) := by
  refine (read (by simp)).after fun found => ?_
  cases found with
  | some nearest => exact update _ _
  | none => exact throw (by simp)

/-- Making the value of an outcome costs one object at most. -/
theorem materialize (left right : Value) (outcome : Outcome) : Costs 1 (HeapM.materialize left right outcome) := by
  cases outcome with
  | text s => exact allocRef _ _
  | fault f => exact allocRef _ _
  | forward side => cases side <;> exact spare (pure _)
  | num n => exact spare (pure _)
  | bool b => exact spare (pure _)

/-- A binary operator costs one object at most. -/
theorem binary (op : BinaryOp) (left right : Value) : Costs 1 (HeapM.binary op left right) :=
  (read (by simp)).after fun outcome => materialize left right outcome

/-- A unary operator costs one object at most. -/
theorem unary (op : UnaryOp) (v : Value) : Costs 1 (HeapM.unary op v) :=
  (read (by simp)).after fun outcome => materialize v v outcome

/-- A map literal costs its map. -/
theorem allocMap (pairs : List (Value × Value)) : Costs 1 (HeapM.allocMap pairs) := (read (by simp)).after fun _ => allocRef _ _

/-- A range literal costs its range, or an error. -/
theorem buildRange (start stop step : Value) : Costs 1 (HeapM.buildRange start stop step) := by
  unfold HeapM.buildRange
  split
  · exact spare (pure _)
  · refine (read (by simp)).after fun first => (read (by simp)).after fun last => (read (by simp)).after fun stride => ?_
    split
    · split
      · exact allocRef _ _
      · unfold HeapM.allocRange
        split
        · exact allocRef _ _
        · exact spare (throw (by simp))
    · exact allocRef _ _

/-- An access by index costs what picking the element does, or an error. -/
theorem elementAt (index : Value) (length : Nat) {element : Nat → HeapM Value} (he : ∀ i, Costs 1 (element i)) :
    Costs 1 (HeapM.elementAt index length element) := by
  unfold HeapM.elementAt
  split
  · exact he _
  · exact allocRef _ _

/-- Indexing costs one object at most: a text of one character, or an error. -/
theorem index (object index : Value) : Costs 1 (HeapM.index object index) := by
  unfold HeapM.index
  split
  · exact spare (pure _)
  · split
    · exact spare (pure _)
    · split
      · refine (read (by simp)).after fun found => ?_
        cases found with
        | some value => exact spare (pure _)
        | none => exact (read (by simp)).after fun _ => allocRef _ _
      · exact (read (by simp)).after fun _ => elementAt _ _ fun _ => spare (pure _)
      · exact (read (by simp)).after fun _ => elementAt _ _ fun _ => allocRef _ _
      · exact (read (by simp)).after fun _ => elementAt _ _ fun _ => spare (pure _)
      · exact allocRef _ _

/-- A member that is not there has cost nothing, so the error in its place may cost an object. -/
theorem member (object : Value) (name : String) : Costs 1 (HeapM.member object name) := by
  unfold HeapM.member HeapM.member?
  split <;> simp only [bind_assoc, pure_bind]
  · exact (read (by simp)).after fun _ => (allocRef _ _).bind fun _ => pure _
  · exact (read (by simp)).after fun _ => spare (pure _)
  · exact spare (pure _)
  · exact (read (by simp)).after fun _ => spare (pure _)
  · exact (read (by simp)).after fun _ => spare (pure _)
  · refine (read (by simp)).after fun r => ?_
    cases HeapM.rangeMember r name with
    | some value => exact spare (pure value)
    | none => exact allocRef _ _
  · refine (read (by simp)).after fun entries => ?_
    cases HeapM.mapMember entries name with
    | some value => exact spare (pure value)
    | none => exact allocRef _ _
  · exact (read (by simp)).after fun _ => (allocRef _ _).bind fun _ => pure _
  · exact (read (by simp)).after fun _ => spare (pure _)
  · exact (read (by simp)).after fun _ => (allocRef _ _).bind fun _ => pure _
  · exact allocRef _ _

/-- Making an iterator costs one object at most. -/
theorem allocIterator (v : Value) : Costs 1 (HeapM.allocIterator v) := by
  unfold HeapM.allocIterator
  split
  · exact (allocRef _ _).bind fun _ => pure _
  · exact spare (pure _)

/-- Moving a walk on costs nothing. -/
theorem setTraversal (c : Handle) (t : Traversal) : Costs 0 (HeapM.setTraversal c t) := (read (by simp)).after fun _ => update _ _

/-- Every builtin costs one object at most. -/
theorem builtin (b : Builtin) (args : List Value) : Costs 1 (b.call args) := by
  cases b with
  | len =>
    change Costs 1 (Builtin.lenOf (args.headD .null))
    unfold Builtin.lenOf
    split
    · exact (read (by simp)).after fun _ => spare (pure _)
    · exact (read (by simp)).after fun _ => spare (pure _)
    · exact (read (by simp)).after fun _ => spare (pure _)
    · exact (read (by simp)).after fun _ => spare (pure _)
    · exact spare (pure _)
    · exact allocRef _ _
  | typeOf => exact allocRef _ _
  | str =>
    change Costs 1 (Builtin.strOf (args.headD .null))
    unfold Builtin.strOf
    split
    · exact spare (pure _)
    · exact (read (by simp)).after fun _ => allocRef _ _
  | range =>
    have harray : ∀ a b c, Costs 1 (Builtin.rangeArray a b c) := by
      intro a b c
      unfold Builtin.rangeArray
      split
      · exact allocRef _ _
      · exact allocRef _ _
    change Costs 1 (Builtin.rangeOf args)
    unfold Builtin.rangeOf
    split
    · split
      · exact spare (pure _)
      · exact allocRef _ _
    · exact harray _ _ _
    · exact harray _ _ _
    · exact harray _ _ _
    · exact spare (throw (by simp))

/-- Every host function costs one object at most. -/
theorem host (f : HostFunction) (args : List Value) : Costs 1 (f.call args) := by
  cases f with
  | answer => exact spare (pure _)
  | count => exact spare (pure _)
  | half => exact spare (pure _)
  | yes => exact spare (pure _)
  | fail => exact spare (throw (by simp))
  | wrap => exact allocRef _ _
  | push =>
    simp only [HostFunction.call]
    split
    · exact spare (((read (by simp)).after fun _ => update _ _).after fun _ => pure _)
    · exact spare (throw (by simp))
  | put =>
    simp only [HostFunction.call]
    split
    · exact spare (((read (by simp)).after fun _ => (read (by simp)).after fun _ => update _ _).after fun _ => pure _)
    · exact spare (throw (by simp))
  | iter =>
    refine Spending.bind (b := 0) (allocIterator (args.headD .null)) fun found => ?_
    cases found <;> exact pure _

/-- Native code of either kind costs one object at most. -/
theorem native (n : NativeCode) (args : List Value) : Costs 1 (n.call args) := by
  cases n with
  | builtin b => exact builtin b args
  | host f => exact host f args

end Costs

/-! ## Work of the machine -/

/-- Work of the machine that allocates at most so many objects. -/
abbrev Charges {α : Type} (most : Nat) (x : MachineM α) : Prop := Spending Machine.heap most x

namespace Charges

open Spending

variable {α : Type} {most : Nat}

/-- Work of the machine on its heap charges what the work costs. -/
theorem onHeap {x : HeapM α} (hx : Costs most x) : Charges most (MachineM.onHeap x) where
  spends := by
    intro m v m' hr
    rw [MachineM.onHeap_eq] at hr
    split at hr
    · rename_i heap hheap
      cases hr
      exact hx.spends m.heap v heap hheap
    · nomatch hr
  fails := by
    intro m e m' hr
    rw [MachineM.onHeap_eq] at hr
    split at hr
    · nomatch hr
    · rename_i heap hheap
      cases hr
      exact hx.fails m.heap e heap hheap
  short := by
    intro m limit m' hr
    rw [MachineM.onHeap_eq] at hr
    split at hr
    · nomatch hr
    · rename_i heap hheap
      cases hr
      exact hx.short m.heap limit heap hheap

/-- A look at the heap charges nothing. -/
theorem look {g : Heap → Except RuntimeError α} (hg : ∀ h, Looks (g h)) : Charges 0 (MachineM.onHeap (HeapM.read g)) :=
  onHeap (Costs.read hg)

theorem read {g : Machine → Except RuntimeError α} (hg : ∀ m limit, g m ≠ .error (.heap (.exhausted limit))) :
    Charges 0 (MachineM.read g) := by
  refine idle (fun m w m' hr => ?_) fun m e m' hr => ?_
  · unfold MachineM.read at hr
    split at hr
    · cases hr
      rfl
    · nomatch hr
  · unfold MachineM.read at hr
    split at hr
    · nomatch hr
    · rename_i e he
      cases hr
      exact ⟨rfl, fun limit heq => hg m limit (heq ▸ he)⟩

theorem push (v : Value) : Charges 0 (MachineM.push v) := by
  refine idle (fun m w m' hr => ?_) fun m e m' hr => ?_
  · unfold MachineM.push at hr
    split at hr
    · nomatch hr
    · cases hr
      rfl
  · unfold MachineM.push at hr
    split at hr
    · cases hr
      exact ⟨rfl, nofun⟩
    · nomatch hr

theorem pop : Charges 0 MachineM.pop := by
  refine idle (fun m w m' hr => ?_) fun m e m' hr => ?_
  · unfold MachineM.pop at hr
    split at hr
    · cases hr
      rfl
    · nomatch hr
  · unfold MachineM.pop at hr
    split at hr
    · nomatch hr
    · cases hr
      exact ⟨rfl, nofun⟩

/-- A look at the top operand charges nothing. -/
theorem peek : Charges 0 MachineM.peek := by
  refine read fun m limit hr => ?_
  split at hr <;> nomatch hr

theorem popMany (count : Nat) : Charges 0 (MachineM.popMany count) := by
  refine idle (fun m w m' hr => ?_) fun m e m' hr => ?_
  · unfold MachineM.popMany at hr
    split at hr
    · nomatch hr
    · cases hr
      rfl
  · unfold MachineM.popMany at hr
    split at hr
    · cases hr
      exact ⟨rfl, nofun⟩
    · nomatch hr

/-- A change of the machine that leaves the heap. -/
theorem modify {g : Machine → Machine} (hg : ∀ m, (g m).heap = m.heap) : Charges 0 (modify g : MachineM Unit) := by
  refine idle (fun m w m' hr => ?_) fun m e m' hr => ?_
  · cases hr
    exact hg m
  · nomatch hr

theorem truncate (height : Nat) : Charges 0 (MachineM.truncate height) := modify fun _ => rfl

theorem modifyFrame (f : Frame → Frame) : Charges 0 (MachineM.modifyFrame f) := modify fun _ => rfl

theorem pushFrame (f : Frame) : Charges 0 (MachineM.pushFrame f) := modify fun _ => rfl

theorem jump (source : Nat) (offset : Int32) (length : Nat) : Charges 0 (MachineM.jump source offset length) := by
  unfold MachineM.jump
  by_cases hout : (source : Int) + offset.toInt < 0 ∨ (length : Int) < (source : Int) + offset.toInt
  · rw [if_pos hout]
    exact throw (by simp)
  · rw [if_neg hout]
    exact modifyFrame _

/-- The result of an operation on the heap is pushed. -/
theorem result {x : HeapM Value} (hx : Costs 1 x) : Charges 1 (do MachineM.push (← MachineM.onHeap x)) := (onHeap hx).bind push

theorem jumpBy (kind : JumpKind) (next : Nat) (offset : Int32) (length : Nat) :
    Charges 0 (MachineM.jumpBy kind next offset length) := by
  cases kind with
  | forward => exact jump _ _ _
  | loop => exact jump _ _ _
  | ifFalse =>
    refine pop.after fun v => (look (by simp)).after fun c => ?_
    cases c with
    | true => exact pure ()
    | false => exact jump _ _ _
  | ifTrue =>
    refine pop.after fun v => (look (by simp)).after fun c => ?_
    cases c with
    | true => exact jump _ _ _
    | false => exact pure ()

/-- An iteration step charges nothing: the walk is moved on in place. -/
theorem iterNext (arity : UInt8) (next : Nat) (offset : Int32) (length : Nat) :
    Charges 0 (MachineM.iterNext arity next offset length) := by
  refine peek.after fun v => ?_
  split
  · refine (look fun h => (h.looks_iterator _).bind fun t => t.looks_next h arity).after fun ⟨yielded, t⟩ => ?_
    cases yielded with
    | none => exact pop.after fun _ => jump _ _ _
    | some y =>
      refine (onHeap (Costs.setTraversal _ t)).after fun _ => ?_
      cases y with
      | one value => exact push value
      | two key value => exact (push key).after fun _ => push value
  · exact throw (by simp)

/-- Calling a closure charges its environment. -/
theorem callFunction (f : Closure) (callee argc : Nat) : Charges 1 (MachineM.callFunction f callee argc) := by
  refine pointwise fun m => ?_
  rw [MachineM.callFunction_eq]
  split
  · exact ⟨_, spare (throw (by simp)), rfl⟩
  · split
    · exact ⟨_, spare (throw (by simp)), rfl⟩
    · split
      · exact ⟨_, spare (throw (by simp)), rfl⟩
      · exact ⟨_, (onHeap (Costs.allocEnvironment (some f.env))).bind fun env => (onHeap (Costs.defineAll env _)).after fun _ =>
          (truncate (callee + 1)).after fun _ => pushFrame ⟨f.code, 0, env, callee⟩, rfl⟩

/-- A native call charges what the native code costs. -/
theorem callNative (n : Native) (callee argc : Nat) : Charges 1 (MachineM.callNative n callee argc) := by
  refine pointwise fun m => ?_
  rw [MachineM.callNative_eq]
  split
  · exact ⟨_, spare (throw (by simp)), rfl⟩
  · exact ⟨_, (popMany argc).after fun args => (onHeap (Costs.native n.code args.toList)).bind fun result =>
      (truncate callee).after fun _ => push result, rfl⟩

/-- A call charges one object at most. -/
theorem callValue (argc : Nat) : Charges 1 (MachineM.callValue argc) := by
  refine pointwise fun m => ?_
  rw [MachineM.callValue_eq]
  split
  · exact ⟨_, spare (throw (by simp)), rfl⟩
  · refine ⟨_, ?_, rfl⟩
    split
    · exact (look (by simp)).after fun f => callFunction f _ _
    · exact (look (by simp)).after fun n => callNative n _ _
    · exact spare (throw (by simp))

/-- Looking for a name charges nothing. -/
theorem resolve (env : Handle) (name : String) : Charges 0 (MachineM.read (·.resolve env name)) := by
  refine read fun m limit hr => ?_
  unfold Machine.resolve at hr
  split at hr
  · nomatch hr
  · nomatch m.heap.looks_lookup env name _ hr

/-- Every instruction but a return charges one object at most. -/
theorem execute (f : Frame) (next : Nat) (i : Instruction) : Charges 1 (MachineM.execute f next i) := by
  cases i with
  | load c =>
    cases c with
    | text s => exact result (Costs.allocRef _ _)
    | error message => exact result (Costs.allocRef _ _)
    | _ => exact spare (push _)
  | loadName name =>
    refine (resolve f.env name).after fun found => ?_
    cases found with
    | some value => exact spare (push value)
    | none => exact spare (throw (by simp))
  | storeName name => exact spare (pop.after fun v => onHeap (Costs.define f.env name v))
  | setName name => exact spare (peek.after fun v => onHeap (Costs.assign f.env name v))
  | pop => exact spare (pop.after fun v => modify fun _ => rfl)
  | binary op =>
    refine pop.after fun v => pop.after fun w => ?_
    cases op with
    | equal => exact spare ((look (by simp)).after push)
    | notEqual => exact spare ((look (by simp)).after push)
    | arith op => exact result (Costs.binary _ w v)
    | order op => exact result (Costs.binary _ w v)
  | unary op => exact pop.after fun v => result (Costs.unary op v)
  | jump kind offset => exact spare (jumpBy _ _ _ _)
  | enterScope => exact (onHeap (Costs.allocEnvironment (some f.env))).bind fun _ => modifyFrame _
  | exitScope =>
    refine spare ((look (by simp)).after fun e => ?_)
    split
    · exact modifyFrame _
    · exact throw (by simp)
  | buildArray count => exact (popMany _).after fun items => result (Costs.allocRef _ _)
  | buildMap pairs => exact (popMany _).after fun items => result (Costs.allocMap _)
  | buildRange => exact pop.after fun c => pop.after fun b => pop.after fun a => result (Costs.buildRange a b c)
  | index => exact pop.after fun b => pop.after fun a => result (Costs.index a b)
  | getMember name => exact pop.after fun a => result (Costs.member a name)
  | getIter =>
    refine pop.after fun v => Spending.bind (b := 0) (onHeap (Costs.allocIterator v)) fun found => ?_
    cases found with
    | some iterator => exact push iterator
    | none => exact throw (by simp)
  | iterNext arity offset => exact spare (iterNext _ _ _ _)
  | call argc => exact callValue _
  | makeFunction p => exact result (Costs.allocRef _ _)
  | ret => exact spare (pure ())

theorem fetch (f : Frame) : Charges 0 (MachineM.fetch f) := by
  unfold MachineM.fetch
  split
  · exact pure _
  · exact throw (by simp)

theorem frame : Charges 0 MachineM.frame := by
  refine read fun m limit hr => ?_
  split at hr <;> nomatch hr

theorem returnValue (v : Value) : Charges 0 (MachineM.returnValue v) := by
  refine frame.after fun f => ?_
  refine (modify (g := fun m => { m with frames := m.frames.pop }) fun _ => rfl).after fun _ => (truncate f.base).after fun _ => ?_
  refine pointwise fun m => ?_
  rw [MachineM.get_bind]
  split
  · exact ⟨_, pure (some v), rfl⟩
  · exact ⟨_, (push v).after fun _ => pure none, rfl⟩

/-- An instruction allocates at most one object. -/
theorem advance : Charges 1 MachineM.advance := by
  refine frame.after fun f => (fetch f).after fun ⟨i, next⟩ => (modifyFrame _).after fun _ => ?_
  cases i
  case ret => exact spare (pop.after returnValue)
  all_goals exact (execute f next _).bind fun _ => pure none

end Charges

end ScriptVM
