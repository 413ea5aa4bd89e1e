import Mathlib.Order.Defs.Unbundled
import ScriptVM.Proofs.Collection
import ScriptVM.Proofs.Erasure
import ScriptVM.Proofs.Execution

/-!
# What an instruction does to environments and closures

Names live in environments, and code lives in closures. Most instructions leave both alone: they allocate other objects, change
other objects or only look (`Heap.Spares`). The few that do not are told apart once and for all by `Acts`, which says what a machine
is after an instruction: it has moved on or jumped, bound a name, assigned one, entered or left a scope, made a closure or entered
one. Every successful step is of one of these kinds, or is a return (`Machine.step_cases`).
-/

namespace ScriptVM

open Heap (maxSlots)

/-- Whether an object takes part in finding names: an environment, or a closure with the environment it was made in. -/
def Object.isLexical : Object → Bool
  | .environment _ | .function _ => true
  | _ => false

namespace Heap

/-- A later heap with no collection in between. While handles tell all slots apart, its environments and closures are those of
before. -/
structure Spares (h h' : Heap) : Prop where
  size : h.slots.size ≤ h'.slots.size
  last : h'.last = h.last
  kept : h'.slots.size < maxSlots → h.Tidy → h'.Tidy ∧ (∀ a, h.Issued a → h'.Issued a) ∧
    ∀ a o, o.isLexical = true → (h'.get? a = some o ↔ h.get? a = some o)

instance : IsPreorder Heap Spares where
  refl h := ⟨Nat.le_refl _, rfl, fun _ ht => ⟨ht, fun _ ha => ha, fun _ _ _ => Iff.rfl⟩⟩
  trans h h' h'' hk hk' := by
    refine ⟨Nat.le_trans hk.size hk'.size, hk'.last.trans hk.last, fun hsize ht => ?_⟩
    obtain ⟨ht', hissued, hsame⟩ := hk.kept (Nat.lt_of_le_of_lt hk'.size hsize) ht
    obtain ⟨ht'', hissued', hsame'⟩ := hk'.kept hsize ht'
    exact ⟨ht'', fun a ha => hissued' a (hissued a ha), fun a o ho => (hsame' a o ho).trans (hsame a o ho)⟩

variable {h : Heap}

/-- Placing an object that is no environment and no closure spares both. -/
theorem Spares.place {o : Object} (ho : o.isLexical = false) : h.Spares (h.place o).2 := by
  refine ⟨size_place.1, last_place, fun hsize ht => ?_⟩
  have hroom : h.Room := Nat.lt_of_le_of_lt size_place.1 hsize
  refine ⟨ht.place hroom, fun a ha => issued_place ht.toSparse hroom ha, fun a p hp => ?_⟩
  by_cases ha : a = (h.place o).1
  · subst ha
    rw [get?_place_self ht.toSparse hroom]
    constructor
    · rintro heq
      cases heq
      rw [ho] at hp
      cases hp
    · exact fun hget => absurd (issued_of_get? hget) (not_issued_place ht.toSparse hroom)
  · rw [get?_place_of_ne ht.toSparse hroom ha]

/-- A change that leaves environments and closures as they are, and makes none of another object. -/
theorem Spares.update (a : Handle) {f : Object → Object} (hf : ∀ o, (f o).isLexical = o.isLexical)
    (hid : ∀ o, o.isLexical = true → f o = o) : h.Spares (h.update a f) := by
  have hsize : (h.update a f).slots.size = h.slots.size := by simp [Heap.update]
  refine ⟨Nat.le_of_eq hsize.symm, rfl, fun _ ht => ⟨ht.update, fun c hc => issued_update hc, fun c p hp => ?_⟩⟩
  rw [get?_update]
  split
  · constructor
    · intro hmap
      obtain ⟨o, ho, rfl⟩ := Option.map_eq_some_iff.1 hmap
      rw [hf] at hp
      rw [ho, hid o hp]
    · intro hget
      rw [hget, Option.map_some, hid p hp]
  · rfl

end Heap

/-! ## Work along a relation -/

/-- Work that leads, where it succeeds, from a state to one so related to it. -/
def Along {σ α : Type} (R : σ → σ → Prop) (x : EStateM RuntimeError σ α) : Prop := ∀ s v s', x s = .ok v s' → R s s'

namespace Along

variable {σ α β : Type} {R : σ → σ → Prop}

/-- Failing is no success, so it leads along any relation. -/
theorem throw (e : RuntimeError) : Along R (MonadExcept.throw e : EStateM RuntimeError σ α) := by
  intro s w s' hr
  cases hr

variable [IsPreorder σ R]

/-- Work that leaves the state as it is. -/
theorem idle {x : EStateM RuntimeError σ α} (hx : ∀ s v s', x s = .ok v s' → s' = s) : Along R x := by
  intro s v s' hr
  rw [hx s v s' hr]
  exact Std.Refl.refl s

theorem pure (v : α) : Along R (Pure.pure v) := by
  refine idle fun s w s' hr => ?_
  cases hr
  rfl

/-- Two parts in sequence lead along a relation when each of them does. -/
theorem bind {x : EStateM RuntimeError σ α} {f : α → EStateM RuntimeError σ β} (hx : Along R x) (hf : ∀ v, Along R (f v)) :
    Along R (x >>= f) := by
  intro s w s'' hr
  change EStateM.bind x f s = _ at hr
  unfold EStateM.bind at hr
  cases hfirst : x s with
  | error e s' =>
    rw [hfirst] at hr
    cases hr
  | ok v s' =>
    rw [hfirst] at hr
    exact IsTrans.trans s s' s'' (hx s v s' hfirst) (hf v s' w s'' hr)

end Along

/-- Parts of work that has succeeded have succeeded. -/
theorem EStateM.bind_eq_ok {σ α β : Type} {x : EStateM RuntimeError σ α} {f : α → EStateM RuntimeError σ β} {s s'' : σ} {w : β}
    (h : (x >>= f) s = .ok w s'') : ∃ v s', x s = .ok v s' ∧ f v s' = .ok w s'' := by
  change EStateM.bind x f s = _ at h
  unfold EStateM.bind at h
  cases hfirst : x s with
  | error e s' =>
    rw [hfirst] at h
    cases h
  | ok v s' =>
    rw [hfirst] at h
    exact ⟨v, s', rfl, h⟩

/-! ## Operations on the heap -/

/-- An operation on the heap that leaves environments and closures as they are. -/
abbrev Sparing {α : Type} (x : HeapM α) : Prop := Along Heap.Spares x

namespace Sparing

open Along

variable {α : Type}

/-- Reading the heap spares environments and closures. -/
theorem read (g : Heap → Except RuntimeError α) : Sparing (HeapM.read g) := by
  refine idle fun h v h' hr => ?_
  unfold HeapM.read at hr
  split at hr
  · cases hr
    rfl
  · cases hr

/-- Allocating another object spares environments and closures. -/
theorem allocRef {kind : RefKind} {o : Object} (ho : o.isLexical = false) : Sparing (HeapM.allocRef kind o) := by
  intro h v h' hr
  rw [HeapM.allocRef_eq] at hr
  split at hr
  · cases hr
  · cases hr
    exact .place ho

/-- A change of other objects only spares environments and closures. -/
theorem update (a : Handle) {f : Object → Object} (hf : ∀ o, (f o).isLexical = o.isLexical)
    (hid : ∀ o, o.isLexical = true → f o = o) : Sparing (HeapM.update a f) := by
  intro h v h' hr
  cases hr
  exact .update a hf hid

/-- An outcome allocates a text or an error at most. -/
theorem materialize (left right : Value) (outcome : Outcome) : Sparing (HeapM.materialize left right outcome) := by
  cases outcome with
  | text s => exact allocRef rfl
  | fault f => exact allocRef rfl
  | forward side => cases side <;> exact pure _
  | num n => exact pure _
  | bool b => exact pure _

/-- A binary operator allocates its outcome at most. -/
theorem binary (op : BinaryOp) (left right : Value) : Sparing (HeapM.binary op left right) :=
  (read _).bind fun outcome => materialize left right outcome

/-- A unary operator allocates its outcome at most. -/
theorem unary (op : UnaryOp) (v : Value) : Sparing (HeapM.unary op v) := (read _).bind fun outcome => materialize v v outcome

/-- A map literal allocates a map. -/
theorem allocMap (pairs : List (Value × Value)) : Sparing (HeapM.allocMap pairs) := (read _).bind fun _ => allocRef rfl

/-- A range literal allocates a range. -/
theorem buildRange (start stop step : Value) : Sparing (HeapM.buildRange start stop step) := by
  unfold HeapM.buildRange
  split
  · exact pure _
  · refine (read _).bind fun first => (read _).bind fun last => (read _).bind fun stride => ?_
    split
    · split
      · exact allocRef rfl
      · unfold HeapM.allocRange
        split
        · exact allocRef rfl
        · exact throw _
    · exact allocRef rfl

/-- An access by index looks at the object, and does what picking the element does. -/
theorem elementAt (index : Value) (length : Nat) {element : Nat → HeapM Value} (he : ∀ i, Sparing (element i)) :
    Sparing (HeapM.elementAt index length element) := by
  unfold HeapM.elementAt
  split
  · exact he _
  · exact allocRef rfl

/-- Indexing allocates a text, an error or nothing. -/
theorem index (object index : Value) : Sparing (HeapM.index object index) := by
  unfold HeapM.index
  split
  · exact pure _
  · split
    · exact pure _
    · split
      · refine (read _).bind fun found => ?_
        cases found with
        | some value => exact pure _
        | none => exact (read _).bind fun _ => allocRef rfl
      · exact (read _).bind fun _ => elementAt _ _ fun _ => pure _
      · exact (read _).bind fun _ => elementAt _ _ fun _ => allocRef rfl
      · exact (read _).bind fun _ => elementAt _ _ fun _ => pure _
      · exact allocRef rfl

/-- A member of a built-in kind allocates a bound function at most. -/
theorem member? (object : Value) (name : String) : Sparing (HeapM.member? object name) := by
  unfold HeapM.member?
  split
  · exact (read _).bind fun _ => (allocRef rfl).bind fun _ => pure _
  · exact (read _).bind fun _ => pure _
  · exact pure _
  · exact (read _).bind fun _ => pure _
  · exact (read _).bind fun _ => pure _
  · exact (read _).bind fun _ => pure _
  · exact (read _).bind fun _ => pure _
  · exact (read _).bind fun _ => (allocRef rfl).bind fun _ => pure _
  · exact (read _).bind fun _ => pure _
  · exact (read _).bind fun _ => (allocRef rfl).bind fun _ => pure _
  · exact pure _

/-- A member access allocates what the member does, or an error. -/
theorem member (object : Value) (name : String) : Sparing (HeapM.member object name) := by
  refine (member? object name).bind fun found => ?_
  cases found with
  | some value => exact pure _
  | none => exact allocRef rfl

theorem allocIterator (v : Value) : Sparing (HeapM.allocIterator v) := by
  unfold HeapM.allocIterator
  split
  · exact (allocRef rfl).bind fun _ => pure _
  · exact pure _

/-- Moving a walk on changes its iterator. -/
theorem setTraversal (a : Handle) (t : Traversal) : Sparing (HeapM.setTraversal a t) := by
  refine (read _).bind fun _ => update a (fun o => by cases o <;> rfl) fun o ho => ?_
  cases o <;> first | rfl | cases ho

/-- Every builtin leaves environments and closures as they are. -/
theorem builtin (b : Builtin) (args : List Value) : Sparing (b.call args) := by
  cases b with
  | len =>
    change Sparing (Builtin.lenOf (args.headD .null))
    unfold Builtin.lenOf
    split
    · exact (read _).bind fun _ => pure _
    · exact (read _).bind fun _ => pure _
    · exact (read _).bind fun _ => pure _
    · exact (read _).bind fun _ => pure _
    · exact pure _
    · exact allocRef rfl
  | typeOf => exact allocRef rfl
  | str =>
    change Sparing (Builtin.strOf (args.headD .null))
    unfold Builtin.strOf
    split
    · exact pure _
    · exact (read _).bind fun _ => allocRef rfl
  | range =>
    have harray : ∀ a b c, Sparing (Builtin.rangeArray a b c) := by
      intro a b c
      unfold Builtin.rangeArray
      split
      · exact allocRef rfl
      · exact allocRef rfl
    change Sparing (Builtin.rangeOf args)
    unfold Builtin.rangeOf
    split
    · split
      · exact pure _
      · exact allocRef rfl
    · exact harray _ _ _
    · exact harray _ _ _
    · exact harray _ _ _
    · exact throw _

/-- Every host function leaves environments and closures as they are. -/
theorem host (f : HostFunction) (args : List Value) : Sparing (f.call args) := by
  cases f with
  | answer => exact pure _
  | count => exact pure _
  | half => exact pure _
  | yes => exact pure _
  | fail => exact throw _
  | wrap => exact allocRef rfl
  | push =>
    simp only [HostFunction.call]
    split
    · refine ((read _).bind fun _ => update _ (fun o => by cases o <;> rfl) fun o ho => ?_).bind fun _ => pure _
      cases o <;> first | rfl | cases ho
    · exact throw _
  | put =>
    simp only [HostFunction.call]
    split
    · refine ((read _).bind fun _ => (read _).bind fun _ => update _ (fun o => by cases o <;> rfl) fun o ho => ?_).bind fun _ => pure _
      cases o <;> first | rfl | cases ho
    · exact throw _
  | iter =>
    refine (allocIterator (args.headD .null)).bind fun found => ?_
    cases found <;> exact pure _

/-- Native code of either kind leaves environments and closures as they are. -/
theorem native (n : NativeCode) (args : List Value) : Sparing (n.call args) := by
  cases n with
  | builtin b => exact builtin b args
  | host f => exact host f args

end Sparing

/-- Whether an instruction neither binds nor assigns a name, neither enters nor leaves a scope or frame, and makes no closure. -/
def Instruction.isSilent : Instruction → Bool
  | .storeName _ | .setName _ | .enterScope | .exitScope | .makeFunction _ | .ret => false
  | _ => true

/-! ## Instructions -/

/-- A later machine in the same frames, with the environments and closures of before. -/
structure Machine.Passes (m m' : Machine) : Prop where
  heap : m.heap.Spares m'.heap
  frames : m'.frames = m.frames

instance : IsPreorder Machine Machine.Passes where
  refl m := ⟨Std.Refl.refl m.heap, rfl⟩
  trans _ _ _ hp hp' := ⟨IsTrans.trans _ _ _ hp.heap hp'.heap, hp'.frames.trans hp.frames⟩

/-- A part of an instruction that stays in its frame and leaves environments and closures as they are. -/
abbrev Passing {α : Type} (x : MachineM α) : Prop := Along Machine.Passes x

namespace Passing

open Along

variable {α : Type}

/-- Work on the heap that spares environments and closures stays in the frame. -/
theorem onHeap {x : HeapM α} (hx : Sparing x) : Passing (MachineM.onHeap x) := by
  intro m v m' hr
  rw [MachineM.onHeap_eq] at hr
  split at hr
  · rename_i heap hheap
    cases hr
    exact ⟨hx m.heap v heap hheap, rfl⟩
  · cases hr

/-- A change of the machine that leaves its heap and its frames. -/
theorem modify {g : Machine → Machine} (hheap : ∀ m, (g m).heap = m.heap) (hframes : ∀ m, (g m).frames = m.frames) :
    Passing (modify g : MachineM Unit) := by
  intro m v m' hr
  cases hr
  exact ⟨by rw [hheap]; exact Std.Refl.refl m.heap, hframes m⟩

/-- Reading the machine stays in the frame. -/
theorem read (g : Machine → Except RuntimeError α) : Passing (MachineM.read g) := by
  refine idle fun m v m' hr => ?_
  unfold MachineM.read at hr
  split at hr
  · cases hr
    rfl
  · cases hr

/-- A push stays in the frame. -/
theorem push (v : Value) : Passing (MachineM.push v) := by
  intro m w m' hr
  unfold MachineM.push at hr
  split at hr
  · cases hr
  · cases hr
    exact ⟨Std.Refl.refl m.heap, rfl⟩

/-- A pop stays in the frame. -/
theorem pop : Passing MachineM.pop := by
  intro m v m' hr
  unfold MachineM.pop at hr
  split at hr
  · cases hr
    exact ⟨Std.Refl.refl m.heap, rfl⟩
  · cases hr

theorem popMany (count : Nat) : Passing (MachineM.popMany count) := by
  intro m v m' hr
  unfold MachineM.popMany at hr
  split at hr
  · cases hr
  · cases hr
    exact ⟨Std.Refl.refl m.heap, rfl⟩

/-- Cutting the stack stays in the frame. -/
theorem truncate (height : Nat) : Passing (MachineM.truncate height) := modify (fun _ => rfl) fun _ => rfl

/-- The result of an operation on the heap is pushed. -/
theorem result {x : HeapM Value} (hx : Sparing x) : Passing (do MachineM.push (← MachineM.onHeap x)) := (onHeap hx).bind push

/-- A native call stays in the frame. -/
theorem callNative (n : Native) (callee argc : Nat) : Passing (MachineM.callNative n callee argc) := by
  intro m v m' hr
  rw [MachineM.callNative_eq] at hr
  split at hr
  · cases hr
  · have hcall : Passing _ := (popMany argc).bind fun args => (onHeap (Sparing.native n.code args.toList)).bind fun result =>
      (truncate callee).bind fun _ => push result
    exact hcall m v m' hr

/-- The instructions that stay in their frame, go on to the next one and leave environments and closures as they are. -/
theorem execute (f : Frame) (next : Nat) {i : Instruction} (hi : i.isSilent = true) (hjump : i.jumpOffset? = none)
    (hcall : ∀ argc, i ≠ .call argc) : Passing (MachineM.execute f next i) := by
  cases i with
  | load c =>
    cases c with
    | text s => exact result (Sparing.allocRef rfl)
    | error message => exact result (Sparing.allocRef rfl)
    | _ => exact push _
  | loadName name =>
    refine (read _).bind fun found => ?_
    cases found with
    | some value => exact push value
    | none => exact throw _
  | pop => exact pop.bind fun v => modify (fun _ => rfl) fun _ => rfl
  | binary op =>
    refine pop.bind fun v => pop.bind fun w => ?_
    cases op with
    | equal => exact (onHeap (Sparing.read _)).bind push
    | notEqual => exact (onHeap (Sparing.read _)).bind push
    | arith op => exact result (Sparing.binary _ w v)
    | order op => exact result (Sparing.binary _ w v)
  | unary op => exact pop.bind fun v => result (Sparing.unary op v)
  | buildArray count => exact (popMany _).bind fun items => result (Sparing.allocRef rfl)
  | buildMap pairs => exact (popMany _).bind fun items => result (Sparing.allocMap _)
  | buildRange => exact pop.bind fun c => pop.bind fun b => pop.bind fun a => result (Sparing.buildRange a b c)
  | index => exact pop.bind fun b => pop.bind fun a => result (Sparing.index a b)
  | getMember name => exact pop.bind fun a => result (Sparing.member a name)
  | getIter =>
    refine pop.bind fun v => (onHeap (Sparing.allocIterator v)).bind fun found => ?_
    cases found with
    | some iterator => exact push iterator
    | none => exact throw _
  | call argc => exact absurd rfl (hcall argc)
  | jump kind offset => cases hjump
  | iterNext arity offset => cases hjump
  | _ => cases hi

end Passing

/-- A new environment inside another: its handle, and the heap with it. -/
def Heap.open (h : Heap) (parent : Handle) : Handle × Heap := h.place (.environment { parent := some parent })

/-- What a machine can be after an instruction of the frame `f`, from a heap and a stack on, if `next` is the offset behind the
instruction and `outer` are the frames of the callers. -/
inductive Acts (h : Heap) (stack : Array Value) (outer : Array Frame) (f : Frame) (next : Nat) : Instruction → Machine → Prop where
  | passes {i : Instruction} {m' : Machine} : i.isSilent = true → h.Spares m'.heap → m'.frames = outer.push { f with ip := next } →
      Acts h stack outer f next i m'
  | jumps {i : Instruction} {offset : Int32} {target : Nat} {m' : Machine} : i.jumpOffset? = some offset →
      (target : Int) = next + offset.toInt → h.Spares m'.heap → m'.frames = outer.push { f with ip := target } →
      Acts h stack outer f next i m'
  | binds {name : String} {v : Value} {e : Environment} {m' : Machine} : stack.back? = some v → h.environment f.env = .ok e →
      m'.heap = h.update f.env (Object.bind name v) → m'.frames = outer.push { f with ip := next } →
      Acts h stack outer f next (.storeName name) m'
  | assigns {name : String} {v : Value} {nearest : Handle} {m' : Machine} : h.owner f.env name = .ok (some nearest) →
      m'.heap = h.update nearest (Object.bind name v) → m'.frames = outer.push { f with ip := next } →
      Acts h stack outer f next (.setName name) m'
  | enters {m' : Machine} : m'.heap = (h.open f.env).2 → m'.frames = outer.push { f with ip := next, env := (h.open f.env).1 } →
      Acts h stack outer f next .enterScope m'
  | leaves {e : Environment} {parent : Handle} {m' : Machine} : h.environment f.env = .ok e → e.parent = some parent →
      m'.heap = h → m'.frames = outer.push { f with ip := next, env := parent } → Acts h stack outer f next .exitScope m'
  | makes {p : Prototype} {m' : Machine} :
      m'.heap = (h.place (.function ⟨⟨f.code.file, p.name, p.params, p.captures, p.isAsync, p.body.toArray⟩, f.env⟩)).2 →
      m'.frames = outer.push { f with ip := next } → Acts h stack outer f next (.makeFunction p) m'
  | calls {argc : UInt8} {callee : Handle} {g : Closure} {args : List Value} {base : Nat} {m' : Machine} :
      h.function callee = .ok g → args.length = g.code.params.length →
      HeapM.defineAll (h.open g.env).1 (g.code.params.zip args) (h.open g.env).2 = .ok () m'.heap →
      m'.frames = (outer.push { f with ip := next }).push ⟨g.code, 0, (h.open g.env).1, base⟩ →
      Acts h stack outer f next (.call argc) m'

section

variable {m m' : Machine} {outer : Array Frame} {f g : Frame} {next : Nat} {i : Instruction}

/-- A change of the last element leaves those in front of it. -/
theorem modify_push (outer : Array Frame) (g : Frame) (φ : Frame → Frame) :
    (outer.push g).modify ((outer.push g).size - 1) φ = outer.push (φ g) := by
  apply Array.ext
  · simp
  · intro j h1 h2
    have hj : j ≤ outer.size := by
      simp at h2
      omega
    rcases Nat.lt_or_eq_of_le hj with hlt | rfl
    · simp [Array.getElem_modify, Array.getElem_push, hlt, Nat.ne_of_gt hlt]
    · simp [Array.getElem_modify]

/-- A change of the innermost frame leaves the heap and the frames of the callers. -/
theorem modifyFrame_ok {φ : Frame → Frame} (hm : m.frames = outer.push g) (h : MachineM.modifyFrame φ m = .ok () m') :
    m'.heap = m.heap ∧ m'.frames = outer.push (φ g) := by
  rw [MachineM.modifyFrame_eq, hm, modify_push] at h
  cases h
  exact ⟨rfl, rfl⟩

/-- Work on the heap that succeeds changes nothing but the heap. -/
theorem onHeap_ok {α : Type} {x : HeapM α} {v : α} (h : MachineM.onHeap x m = .ok v m') :
    ∃ heap, x m.heap = .ok v heap ∧ m' = { m with heap } := by
  rw [MachineM.onHeap_eq] at h
  split at h
  · rename_i heap hx
    cases h
    exact ⟨heap, hx, rfl⟩
  · cases h

/-- A read that succeeds answers what is read, and leaves the heap. -/
theorem heapRead_ok {α : Type} {g : Heap → Except RuntimeError α} {heap heap' : Heap} {v : α}
    (h : HeapM.read g heap = .ok v heap') : g heap = .ok v ∧ heap' = heap := by
  unfold HeapM.read at h
  split at h
  · rename_i hg
    cases h
    exact ⟨hg, rfl⟩
  · cases h

/-- A look at the heap that succeeds answers what is read, and leaves the machine. -/
theorem look_ok {α : Type} {g : Heap → Except RuntimeError α} {v : α} (h : MachineM.onHeap (HeapM.read g) m = .ok v m') :
    g m.heap = .ok v ∧ m' = m := by
  obtain ⟨heap, hx, rfl⟩ := onHeap_ok h
  obtain ⟨hg, rfl⟩ := heapRead_ok hx
  exact ⟨hg, rfl⟩

/-- An environment that was allocated is a new one. -/
theorem allocEnvironment_ok {parent env : Handle} (h : MachineM.onHeap (HeapM.allocEnvironment (some parent)) m = .ok env m') :
    env = (m.heap.open parent).1 ∧ m' = { m with heap := (m.heap.open parent).2 } := by
  obtain ⟨heap, hx, rfl⟩ := onHeap_ok h
  change HeapM.alloc _ _ = _ at hx
  rw [HeapM.alloc_eq] at hx
  split at hx
  · cases hx
  · cases hx
    exact ⟨rfl, rfl⟩

/-- A jump that has succeeded has landed. -/
theorem jump_ok {source length : Nat} {offset : Int32} (hm : m.frames = outer.push g)
    (h : MachineM.jump source offset length m = .ok () m') :
    ∃ target : Nat, (target : Int) = source + offset.toInt ∧ m'.heap = m.heap ∧ m'.frames = outer.push { g with ip := target } := by
  unfold MachineM.jump at h
  by_cases hout : (source : Int) + offset.toInt < 0 ∨ (length : Int) < source + offset.toInt
  · rw [if_pos hout] at h
    cases h
  · rw [if_neg hout] at h
    obtain ⟨hheap, hframes⟩ := modifyFrame_ok hm h
    exact ⟨_, Int.toNat_of_nonneg (by omega), hheap, hframes⟩

/-- An instruction that binds nothing and stays in its frame moves on. -/
theorem Acts.of_passes (hi : i.isSilent = true) (hp : m.Passes m') (hm : m.frames = outer.push { f with ip := next }) :
    Acts m.heap m.stack outer f next i m' := .passes hi hp.heap (hp.frames.trans hm)

/-- Where an instruction may jump, it jumps last. -/
theorem Acts.of_jump {offset : Int32} {length : Nat} {m₁ : Machine} (hi : i.jumpOffset? = some offset) (hp : m.Passes m₁)
    (hm : m.frames = outer.push { f with ip := next }) (h : MachineM.jump next offset length m₁ = .ok () m') :
    Acts m.heap m.stack outer f next i m' := by
  obtain ⟨target, htarget, hheap, hframes⟩ := jump_ok (hp.frames.trans hm) h
  exact .jumps hi htarget (by rw [hheap]; exact hp.heap) hframes

/-- A conditional jump moves on or jumps. -/
theorem acts_jumpBy {kind : JumpKind} {offset : Int32} {length : Nat} (hm : m.frames = outer.push { f with ip := next })
    (h : MachineM.jumpBy kind next offset length m = .ok () m') : Acts m.heap m.stack outer f next (.jump kind offset) m' := by
  cases kind with
  | forward => exact .of_jump rfl (Std.Refl.refl m) hm h
  | loop => exact .of_jump rfl (Std.Refl.refl m) hm h
  | ifFalse =>
    obtain ⟨v, m₁, hpop, hrest⟩ := EStateM.bind_eq_ok h
    obtain ⟨c, m₂, hlook, hbranch⟩ := EStateM.bind_eq_ok hrest
    obtain ⟨-, rfl⟩ := look_ok hlook
    have hpass := Passing.pop m v m₂ hpop
    cases c with
    | true =>
      cases hbranch
      exact .of_passes rfl hpass hm
    | false => exact .of_jump rfl hpass hm hbranch
  | ifTrue =>
    obtain ⟨v, m₁, hpop, hrest⟩ := EStateM.bind_eq_ok h
    obtain ⟨c, m₂, hlook, hbranch⟩ := EStateM.bind_eq_ok hrest
    obtain ⟨-, rfl⟩ := look_ok hlook
    have hpass := Passing.pop m v m₂ hpop
    cases c with
    | true => exact .of_jump rfl hpass hm hbranch
    | false =>
      cases hbranch
      exact .of_passes rfl hpass hm

/-- An iteration step moves on or jumps. -/
theorem acts_iterNext {arity : UInt8} {offset : Int32} {length : Nat} (hm : m.frames = outer.push { f with ip := next })
    (h : MachineM.iterNext arity next offset length m = .ok () m') : Acts m.heap m.stack outer f next (.iterNext arity offset) m' := by
  obtain ⟨v, m₁, hpeek, hrest⟩ := EStateM.bind_eq_ok h
  have hpass : m.Passes m₁ := Passing.read _ m v m₁ hpeek
  split at hrest
  · rename_i a
    obtain ⟨⟨yielded, t⟩, m₂, hlook, hnext⟩ := EStateM.bind_eq_ok hrest
    obtain ⟨-, rfl⟩ := look_ok hlook
    cases yielded with
    | none =>
      obtain ⟨w, m₃, hpop, hjump⟩ := EStateM.bind_eq_ok hnext
      exact .of_jump rfl (IsTrans.trans m m₂ m₃ hpass (Passing.pop m₂ w m₃ hpop)) hm hjump
    | some y =>
      have hyield : Passing (MachineM.pushYield y) := by
        cases y with
        | one value => exact Passing.push value
        | two key value => exact (Passing.push key).bind fun _ => Passing.push value
      have hmove : Passing _ := (Passing.onHeap (Sparing.setTraversal a t)).bind fun _ => hyield
      exact .of_passes rfl (IsTrans.trans m m₂ m' hpass (hmove m₂ () m' hnext)) hm
  · cases hrest

/-- A call of a function enters its closure: a new environment inside the closure's own, which binds the parameters. -/
theorem acts_callFunction {argc : UInt8} {callee : Handle} {c : Closure} (hm : m.frames = outer.push { f with ip := next })
    (hc : m.heap.function callee = .ok c) (henough : argc.toNat + 1 ≤ m.stack.size)
    (h : MachineM.callFunction c (m.stack.size - (argc.toNat + 1)) argc.toNat m = .ok () m') :
    Acts m.heap m.stack outer f next (.call argc) m' := by
  rw [MachineM.callFunction_eq] at h
  split at h
  · cases h
  · split at h
    · cases h
    · rename_i harity
      split at h
      · cases h
      · obtain ⟨env, m₁, halloc, hrest⟩ := EStateM.bind_eq_ok h
        obtain ⟨_, m₂, hdefine, hlast⟩ := EStateM.bind_eq_ok hrest
        obtain ⟨rfl, rfl⟩ := allocEnvironment_ok halloc
        obtain ⟨heap, hdefined, rfl⟩ := onHeap_ok hdefine
        have hlength : (m.stack.extract (m.stack.size - (argc.toNat + 1) + 1) m.stack.size).toList.length = c.code.params.length := by
          simp only [Code.arity, ne_eq, Decidable.not_not] at harity
          rw [Array.length_toList, Array.size_extract]
          omega
        cases hlast
        have hframes : m.frames.push ⟨c.code, 0, (m.heap.open c.env).1, m.stack.size - (argc.toNat + 1)⟩ =
            (outer.push { f with ip := next }).push ⟨c.code, 0, (m.heap.open c.env).1, m.stack.size - (argc.toNat + 1)⟩ := by
          rw [hm]
        exact .calls hc hlength hdefined hframes

/-- A call enters a closure, or is that of a native function. -/
theorem acts_callValue {argc : UInt8} (hm : m.frames = outer.push { f with ip := next })
    (h : MachineM.callValue argc.toNat m = .ok () m') : Acts m.heap m.stack outer f next (.call argc) m' := by
  rw [MachineM.callValue_eq] at h
  by_cases hfew : m.stack.size < argc.toNat + 1
  · rw [if_pos hfew] at h
    cases h
  · rw [if_neg hfew] at h
    cases hcallee : m.stack.getD (m.stack.size - (argc.toNat + 1)) .null with
    | ref kind a =>
      rw [hcallee] at h
      cases kind with
      | function =>
        obtain ⟨c, m₁, hlook, hcall⟩ := EStateM.bind_eq_ok h
        obtain ⟨hc, rfl⟩ := look_ok hlook
        exact acts_callFunction hm hc (Nat.not_lt.1 hfew) hcall
      | native =>
        obtain ⟨n, m₁, hlook, hcall⟩ := EStateM.bind_eq_ok h
        obtain ⟨-, rfl⟩ := look_ok hlook
        exact .of_passes rfl (Passing.callNative n _ _ _ () m' hcall) hm
      | _ => cases h
    | _ =>
      rw [hcallee] at h
      cases h

/-- What an instruction does is one of the things listed. -/
theorem acts_execute (hm : m.frames = outer.push { f with ip := next }) (hret : i ≠ .ret)
    (h : MachineM.execute f next i m = .ok () m') : Acts m.heap m.stack outer f next i m' := by
  cases i with
  | ret => exact absurd rfl hret
  | jump kind offset => exact acts_jumpBy hm h
  | iterNext arity offset => exact acts_iterNext hm h
  | call argc => exact acts_callValue hm h
  | storeName name =>
    obtain ⟨v, m₁, hpop, hdefine⟩ := EStateM.bind_eq_ok h
    unfold MachineM.pop at hpop
    split at hpop
    · rename_i w hback
      cases hpop
      obtain ⟨heap, hdefined, rfl⟩ := onHeap_ok hdefine
      obtain ⟨e, heap₁, hread, hupdate⟩ := EStateM.bind_eq_ok hdefined
      obtain ⟨henv, rfl⟩ := heapRead_ok hread
      cases hupdate
      exact .binds hback henv rfl hm
    · cases hpop
  | setName name =>
    obtain ⟨v, m₁, hpeek, hassign⟩ := EStateM.bind_eq_ok h
    have hpass : m.Passes m₁ := Passing.read _ m v m₁ hpeek
    have hsame : m₁.heap = m.heap := by
      unfold MachineM.peek MachineM.read at hpeek
      split at hpeek
      · cases hpeek
        rfl
      · cases hpeek
    obtain ⟨heap, hassigned, rfl⟩ := onHeap_ok hassign
    obtain ⟨found, heap₁, hread, hupdate⟩ := EStateM.bind_eq_ok hassigned
    obtain ⟨howner, rfl⟩ := heapRead_ok hread
    rw [hsame] at howner hupdate
    cases found with
    | none => cases hupdate
    | some nearest =>
      cases hupdate
      exact .assigns howner rfl (hpass.frames.trans hm)
  | enterScope =>
    obtain ⟨env, m₁, halloc, hmove⟩ := EStateM.bind_eq_ok h
    obtain ⟨rfl, rfl⟩ := allocEnvironment_ok halloc
    have hframes : Machine.frames { m with heap := (m.heap.open f.env).2 } = outer.push { f with ip := next } := hm
    obtain ⟨hheap, hframes'⟩ := modifyFrame_ok hframes hmove
    exact .enters hheap hframes'
  | exitScope =>
    obtain ⟨e, m₁, hlook, hmove⟩ := EStateM.bind_eq_ok h
    obtain ⟨he, rfl⟩ := look_ok hlook
    cases hparent : e.parent with
    | none =>
      rw [hparent] at hmove
      cases hmove
    | some parent =>
      rw [hparent] at hmove
      obtain ⟨hheap, hframes⟩ := modifyFrame_ok hm hmove
      exact .leaves he hparent hheap hframes
  | makeFunction p =>
    obtain ⟨v, m₁, halloc, hpush⟩ := EStateM.bind_eq_ok h
    obtain ⟨heap, hplaced, rfl⟩ := onHeap_ok halloc
    rw [HeapM.allocRef_eq] at hplaced
    split at hplaced
    · cases hplaced
    · cases hplaced
      unfold MachineM.push at hpush
      split at hpush
      · cases hpush
      · cases hpush
        exact .makes rfl hm
  | _ => exact .of_passes rfl (Passing.execute f next rfl rfl (by simp) m () m' h) hm

/-- The innermost frame is the last one. -/
theorem frame_ok (h : MachineM.frame m = .ok f m') : (∃ outer : Array Frame, m.frames = outer.push f) ∧ m' = m := by
  unfold MachineM.frame MachineM.read at h
  cases hlast : m.frames.back? with
  | none =>
    simp only [hlast] at h
    cases h
  | some g =>
    simp only [hlast] at h
    cases h
    exact ⟨Array.back?_eq_some_iff.1 hlast, rfl⟩

/-- Fetching answers the instruction that is decoded at the frame's place, and the offset behind it. -/
theorem fetch_ok (h : MachineM.fetch f m = .ok (i, next) m') :
    ∃ width, Instruction.decode f.code.instructions f.ip = .ok (i, width) ∧ next = f.ip + width ∧ m' = m := by
  unfold MachineM.fetch at h
  cases hdecode : Instruction.decode f.code.instructions f.ip with
  | error e =>
    rw [hdecode] at h
    cases h
  | ok p =>
    rw [hdecode] at h
    cases h
    exact ⟨p.2, rfl, rfl, rfl⟩

/-- A return that does not end the run leaves the frame, and pushes the result. -/
theorem returnValue_ok {v : Value} (hm : m.frames = outer.push g) (h : MachineM.returnValue v m = .ok none m') :
    m'.heap = m.heap ∧ m'.frames = outer := by
  rw [MachineM.returnValue_eq, hm, Array.back?_push, Array.pop_push] at h
  dsimp only at h
  split at h
  · cases h
  · obtain ⟨_, m₁, hpush, hlast⟩ := EStateM.bind_eq_ok h
    cases hlast
    unfold MachineM.push at hpush
    split at hpush
    · cases hpush
    · cases hpush
      exact ⟨rfl, rfl⟩

/-- An instruction after which the run goes on does one of the things listed, or returns to the caller. -/
theorem MachineM.advance_cases (h : MachineM.advance m = .ok none m') :
    ∃ outer f i width, m.frames = outer.push f ∧ Instruction.decode f.code.instructions f.ip = .ok (i, width) ∧
      ((i = .ret ∧ m'.heap = m.heap ∧ m'.frames = outer) ∨ Acts m.heap m.stack outer f (f.ip + width) i m') := by
  obtain ⟨f, m₁, hframe, hfetching⟩ := EStateM.bind_eq_ok h
  obtain ⟨⟨outer, hframes⟩, rfl⟩ := frame_ok hframe
  obtain ⟨⟨i, next⟩, m₂, hfetch, hmoving⟩ := EStateM.bind_eq_ok hfetching
  obtain ⟨width, hdecode, rfl, rfl⟩ := fetch_ok hfetch
  obtain ⟨_, m₃, hmove, hexecuting⟩ := EStateM.bind_eq_ok hmoving
  rw [MachineM.modifyFrame_eq, hframes, modify_push] at hmove
  cases hmove
  refine ⟨outer, f, i, width, hframes, hdecode, ?_⟩
  by_cases hret : i = .ret
  · subst hret
    obtain ⟨v, m₄, hpop, hreturn⟩ := EStateM.bind_eq_ok hexecuting
    have hpass := Passing.pop _ v m₄ hpop
    obtain ⟨hheap, houter⟩ := returnValue_ok hpass.frames hreturn
    unfold MachineM.pop at hpop
    split at hpop
    · cases hpop
      exact .inl ⟨rfl, hheap, houter⟩
    · cases hpop
  · have hdone : MachineM.execute f (f.ip + width) i { m₂ with frames := outer.push { f with ip := f.ip + width } } = .ok () m' := by
      cases i
      case ret => exact absurd rfl hret
      all_goals
        obtain ⟨_, m₄, hdone, hlast⟩ := EStateM.bind_eq_ok hexecuting
        cases hlast
        exact hdone
    exact .inr (acts_execute (m := { m₂ with frames := outer.push { f with ip := f.ip + width } }) rfl hret hdone)

end

/-- A step after which the run goes on collects garbage if that is due, and does one of the things listed or returns to the caller. -/
theorem Machine.step_cases {m m' : Machine} (h : MachineM.step m = .ok none m') :
    ∃ outer f i width, m.frames = outer.push f ∧ Instruction.decode f.code.instructions f.ip = .ok (i, width) ∧
      ((i = .ret ∧ m'.heap = m.collected.heap ∧ m'.frames = outer) ∨
        Acts m.collected.heap m.stack outer f (f.ip + width) i m') := by
  rw [MachineM.step_eq] at h
  obtain ⟨outer, f, i, width, hframes, hdecode, hcases⟩ := MachineM.advance_cases h
  have hsame : m.collected.frames = m.frames ∧ m.collected.stack = m.stack := by
    unfold Machine.collected
    split <;> exact ⟨rfl, rfl⟩
  rw [hsame.1] at hframes
  rw [hsame.2] at hcases
  exact ⟨outer, f, i, width, hframes, hdecode, hcases⟩

end ScriptVM
