import ScriptVM.Proofs.Evaluation
import ScriptVM.Proofs.Faults

/-!
# Heaps without code

`Heap.erase` takes the instructions and captures out of the closures of a heap and leaves everything else. No operation on
objects looks at them: it does the same on the heap without code, and it neither makes nor changes a closure (`Plain`). What
the tree evaluation does on a heap without code is therefore what the machine does on its heap.
-/

namespace ScriptVM

/-- The code without instructions and captures. -/
def Code.erase (c : Code) : Code := { c with captures := [], instructions := #[] }

/-- The closure without instructions and captures. -/
def Closure.erase (f : Closure) : Closure := { f with code := f.code.erase }

/-- The object without instructions and captures. -/
def Object.erase : Object → Object
  | .function f => .function f.erase
  | o => o

/-- The slot without instructions and captures. -/
def Slot.erase (s : Slot) : Slot := { s with object := s.object.map Object.erase }

/-- The heap without instructions and captures. -/
def Heap.erase (h : Heap) : Heap := { h with slots := h.slots.map Slot.erase }

/-- The closure that an object is, if it is one. -/
def Object.closure? : Object → Option Closure
  | .function f => some f
  | _ => none

/-- The closure in a slot, if it holds one. -/
def Heap.closureAt (h : Heap) (i : Nat) : Option Closure := ((h.slots[i]?).bind Slot.object).bind Object.closure?

namespace Heap

/-- The heap without code has as many slots. -/
@[simp] theorem size_slots_erase (h : Heap) : h.erase.slots.size = h.slots.size := by
  simp [erase]

@[simp] theorem free_erase (h : Heap) : h.erase.free = h.free := rfl

/-- The next object goes to the same slot. -/
@[simp] theorem nextSlot_erase (h : Heap) : h.erase.nextSlot = h.nextSlot := by
  simp [nextSlot]

/-- A handle resolves to its object without code. -/
@[simp] theorem get?_erase (h : Heap) (a : Handle) : h.erase.get? a = (h.get? a).map Object.erase := by
  simp only [get?, erase, Array.getElem?_map]
  cases h.slots[a.index.toNat]? with
  | none => rfl
  | some s =>
    simp only [Option.map_some, Slot.erase]
    split <;> rfl

/-- The text of a handle does not depend on code; nor does any other object that is no closure. -/
@[simp] theorem text_erase (h : Heap) (a : Handle) : h.erase.text a = h.text a := by
  simp only [text, get?_erase]
  cases h.get? a with
  | none => rfl
  | some o => cases o <;> rfl

@[simp] theorem array_erase (h : Heap) (a : Handle) : h.erase.array a = h.array a := by
  simp only [array, get?_erase]
  cases h.get? a with
  | none => rfl
  | some o => cases o <;> rfl

@[simp] theorem map_erase (h : Heap) (a : Handle) : h.erase.map a = h.map a := by
  simp only [map, get?_erase]
  cases h.get? a with
  | none => rfl
  | some o => cases o <;> rfl

@[simp] theorem range_erase (h : Heap) (a : Handle) : h.erase.range a = h.range a := by
  simp only [range, get?_erase]
  cases h.get? a with
  | none => rfl
  | some o => cases o <;> rfl

@[simp] theorem native_erase (h : Heap) (a : Handle) : h.erase.native a = h.native a := by
  simp only [native, get?_erase]
  cases h.get? a with
  | none => rfl
  | some o => cases o <;> rfl

@[simp] theorem iterator_erase (h : Heap) (a : Handle) : h.erase.iterator a = h.iterator a := by
  simp only [iterator, get?_erase]
  cases h.get? a with
  | none => rfl
  | some o => cases o <;> rfl

@[simp] theorem error_erase (h : Heap) (a : Handle) : h.erase.error a = h.error a := by
  simp only [error, get?_erase]
  cases h.get? a with
  | none => rfl
  | some o => cases o <;> rfl

@[simp] theorem environment_erase (h : Heap) (a : Handle) : h.erase.environment a = h.environment a := by
  simp only [environment, get?_erase]
  cases h.get? a with
  | none => rfl
  | some o => cases o <;> rfl

/-- A handle of a closure resolves to the closure without code. -/
theorem function_erase (h : Heap) (a : Handle) : h.erase.function a = (h.function a).map Closure.erase := by
  simp only [function, get?_erase]
  cases h.get? a with
  | none => rfl
  | some o => cases o <;> rfl

/-- A closure that a handle leads to stands in its slot. -/
theorem closureAt_of_function {h : Heap} {a : Handle} {f : Closure} (hf : h.function a = .ok f) :
    h.closureAt a.index.toNat = some f := by
  unfold function get? at hf
  unfold closureAt
  cases hs : h.slots[a.index.toNat]? with
  | none =>
    rw [hs] at hf
    nomatch hf
  | some s =>
    rw [hs] at hf
    simp only at hf
    split at hf
    · rename_i f' hg
      split at hg
      · cases hf
        simp [hg, Object.closure?]
      · nomatch hg
    · nomatch hf

end Heap

/-! ## What looks at a heap -/

namespace Heap

/-- Looking for the owner of a name sees no code, however far it goes. -/
@[simp] theorem ownerWithin_erase (h : Heap) (name : String) (fuel : Nat) (env : Handle) :
    h.erase.ownerWithin name fuel env = h.ownerWithin name fuel env := by
  induction fuel generalizing env with
  | zero => rfl
  | succ fuel ih => simp only [ownerWithin, environment_erase, ih]

/-- The owner of a name does not depend on code. -/
@[simp] theorem owner_erase (h : Heap) (env : Handle) (name : String) : h.erase.owner env name = h.owner env name := by
  simp [owner]

/-- What a name is bound to does not depend on code. -/
@[simp] theorem lookup_erase (h : Heap) (env : Handle) (name : String) : h.erase.lookup env name = h.lookup env name := by
  simp [lookup]

/-- The operand of a value does not depend on code. -/
@[simp] theorem operand_erase (h : Heap) (v : Value) : h.erase.operand v = h.operand v := by
  cases v with
  | ref kind a => cases kind <;> simp [operand]
  | _ => rfl

/-- Truth does not depend on code. -/
@[simp] theorem truthy_erase (h : Heap) (v : Value) : h.erase.truthy v = h.truthy v := by
  simp [truthy]

/-- The bound of walks through nested arrays does not depend on code. -/
@[simp] theorem depthBound_erase (h : Heap) : h.erase.depthBound = h.depthBound := by
  simp [depthBound]

/-- Making a key sees no code, however far it goes. -/
theorem mapKeyWithin_erase (h : Heap) (fuel : Nat) : h.erase.mapKeyWithin fuel = h.mapKeyWithin fuel := by
  induction fuel with
  | zero =>
    funext v
    cases v with
    | num n => cases n <;> simp [mapKeyWithin]
    | ref kind a => cases kind <;> simp [mapKeyWithin]
    | _ => simp [mapKeyWithin]
  | succ fuel ih =>
    funext v
    cases v with
    | num n => cases n <;> simp [mapKeyWithin]
    | ref kind a => cases kind <;> simp [mapKeyWithin, ih]
    | _ => simp [mapKeyWithin]

/-- The key of a value does not depend on code. -/
@[simp] theorem mapKey_erase (h : Heap) (v : Value) : h.erase.mapKey v = h.mapKey v := by
  simp [mapKey, mapKeyWithin_erase]

/-- Comparing two values sees no code, however far it goes. -/
theorem equalWithin_erase (h : Heap) (fuel : Nat) : h.erase.equalWithin fuel = h.equalWithin fuel := by
  induction fuel with
  | zero =>
    funext v w
    unfold equalWithin
    split <;> simp only [array_erase, range_erase, operand_erase]
  | succ fuel ih =>
    funext v w
    unfold equalWithin
    split <;> simp only [array_erase, range_erase, operand_erase, ih]

/-- Equality does not depend on code. -/
@[simp] theorem equal_erase (h : Heap) (v w : Value) : h.erase.equal v w = h.equal v w := by
  simp [equal, equalWithin_erase]

/-- Describing a value sees no code, however far it goes. -/
theorem describeWithin_erase (h : Heap) (fuel : Nat) : h.erase.describeWithin fuel = h.describeWithin fuel := by
  have hfun : ∀ a, textOr (h.erase.function a) (fun f => s!"<function {f.code.name}>") =
      textOr (h.function a) (fun f => s!"<function {f.code.name}>") := by
    intro a
    rw [function_erase]
    cases h.function a <;> rfl
  induction fuel with
  | zero =>
    funext quoted v
    cases v with
    | ref kind a => cases kind <;> simp only [describeWithin, text_erase, native_erase, range_erase, error_erase, hfun]
    | _ => simp only [describeWithin]
  | succ fuel ih =>
    funext quoted v
    cases v with
    | ref kind a =>
      cases kind <;>
        simp only [describeWithin, text_erase, native_erase, range_erase, error_erase, array_erase, map_erase, hfun, ih]
    | _ => simp only [describeWithin]

/-- The text of a value does not depend on code. -/
@[simp] theorem describe_erase (h : Heap) (v : Value) : h.erase.describe v = h.describe v := by
  simp [describe, describeWithin_erase]

/-- A lookup in a map does not depend on code. -/
@[simp] theorem mapGet?_erase (h : Heap) (map : Handle) (key : Value) : h.erase.mapGet? map key = h.mapGet? map key := by
  simp [mapGet?]

/-- The table of a map literal does not depend on code. -/
@[simp] theorem entryTable_erase (h : Heap) (pairs : List (Value × Value)) :
    h.erase.entryTable pairs = h.entryTable pairs := by
  simp [entryTable]

/-- The bound of a range does not depend on code. -/
@[simp] theorem bound?_erase (h : Heap) (v : Value) : h.erase.bound? v = h.bound? v := by
  cases v with
  | num n => cases n <;> rfl
  | ref kind a => cases kind <;> simp [bound?]
  | _ => rfl

end Heap

/-- The next pair of a walk does not depend on code. -/
@[simp] theorem Traversal.nextPair_erase (h : Heap) (t : Traversal) : t.nextPair h.erase = t.nextPair h := by
  cases t <;> simp [Traversal.nextPair]

/-! ## What works on a heap -/

/-- The answer of an operation, with the heap it leaves without code. -/
def eraseResult {α : Type} : EStateM.Result RuntimeError Heap α → EStateM.Result RuntimeError Heap α
  | .ok a h => .ok a h.erase
  | .error e h => .error e h.erase

/-- The heap that an operation leaves, whether it fails or not. -/
def heapAfter {α : Type} : EStateM.Result RuntimeError Heap α → Heap
  | .ok _ h => h
  | .error _ h => h

/-- An operation that does the same on the heap without code, makes no closure, collects nothing, and is at no fault. -/
structure Plain {α : Type} (x : HeapM α) : Prop where
  erase : ∀ h, x h.erase = eraseResult (x h)
  closures : ∀ h i f, (heapAfter (x h)).closureAt i = some f → h.closureAt i = some f
  grows : ∀ h : Heap, h.Grows (heapAfter (x h))
  errors : ∀ h e h', x h = .error e h' → e.isFault = false

/-- What fails for a handle that does not resolve is at no fault. -/
theorem Looks.isFault {α : Type} {x : Except RuntimeError α} (hx : Looks x) {e : RuntimeError} (h : x = .error e) :
    e.isFault = false := by
  rw [hx e h]
  rfl

namespace Plain

variable {α β : Type}

theorem pure (a : α) : Plain (Pure.pure a) := by
  refine ⟨fun _ => rfl, fun _ _ _ h => h, fun h => .refl h, fun h e h' he => ?_⟩
  cases he

/-- Failing is plain, unless the code is to blame for the error. -/
theorem throw {e : RuntimeError} (hfault : e.isFault = false) : Plain (MonadExcept.throw e : HeapM α) := by
  refine ⟨fun _ => rfl, fun _ _ _ h => h, fun h => .refl h, fun h e' h' he => ?_⟩
  cases he
  exact hfault

/-- Two plain operations in sequence are plain. -/
theorem bind {x : HeapM α} {f : α → HeapM β} (hx : Plain x) (hf : ∀ a, Plain (f a)) : Plain (x >>= f) := by
  constructor
  · intro h
    change EStateM.bind x f h.erase = eraseResult (EStateM.bind x f h)
    simp only [EStateM.bind, hx.erase h]
    cases x h with
    | ok a h' => exact (hf a).erase h'
    | error e h' => rfl
  · intro h i c
    change (heapAfter (EStateM.bind x f h)).closureAt i = some c → _
    have hc := hx.closures h i c
    simp only [EStateM.bind]
    cases hr : x h with
    | ok a h' =>
      rw [hr] at hc
      exact fun h1 => hc ((hf a).closures h' i c h1)
    | error e h' =>
      rw [hr] at hc
      exact hc
  · intro h
    change h.Grows (heapAfter (EStateM.bind x f h))
    have hc := hx.grows h
    simp only [EStateM.bind]
    cases hr : x h with
    | ok a h' =>
      rw [hr] at hc
      exact hc.trans ((hf a).grows h')
    | error e h' =>
      rw [hr] at hc
      exact hc
  · intro h e h' he
    change EStateM.bind x f h = .error e h' at he
    unfold EStateM.bind at he
    cases hr : x h with
    | ok a h₁ =>
      rw [hr] at he
      exact (hf a).errors h₁ e h' he
    | error e₁ h₁ =>
      rw [hr] at he
      cases he
      exact hx.errors h _ _ hr

/-- A look at the heap, the answer of which may differ in what no later step sees. -/
theorem readBind {γ : Type} {g : Heap → Except RuntimeError γ} {φ : γ → γ} {f : γ → HeapM β}
    (hg : ∀ h, g h.erase = (g h).map φ) (hl : ∀ h, Looks (g h)) (hφ : ∀ c, f (φ c) = f c) (hf : ∀ c, Plain (f c)) :
    Plain (HeapM.read g >>= f) := by
  constructor
  · intro h
    change EStateM.bind (HeapM.read g) f h.erase = eraseResult (EStateM.bind (HeapM.read g) f h)
    simp only [EStateM.bind, HeapM.read, hg h]
    cases g h with
    | ok c => exact (congrFun (hφ c) h.erase).trans ((hf c).erase h)
    | error e => rfl
  · intro h i c
    change (heapAfter (EStateM.bind (HeapM.read g) f h)).closureAt i = some c → _
    simp only [EStateM.bind, HeapM.read]
    cases g h with
    | ok a => exact (hf a).closures h i c
    | error e => exact id
  · intro h
    change h.Grows (heapAfter (EStateM.bind (HeapM.read g) f h))
    simp only [EStateM.bind, HeapM.read]
    cases g h with
    | ok a => exact (hf a).grows h
    | error e => exact .refl h
  · intro h e h' he
    change EStateM.bind (HeapM.read g) f h = .error e h' at he
    simp only [EStateM.bind, HeapM.read] at he
    cases hr : g h with
    | ok a =>
      rw [hr] at he
      exact (hf a).errors h e h' he
    | error e₁ =>
      rw [hr] at he
      cases he
      exact (hl h).isFault hr

/-- A look at the heap that sees no code is plain. -/
theorem read {g : Heap → Except RuntimeError α} (hg : ∀ h, g h.erase = g h ∧ Looks (g h)) : Plain (HeapM.read g) := by
  constructor
  · intro h
    simp only [HeapM.read, (hg h).1]
    cases g h <;> rfl
  · intro h i c
    simp only [HeapM.read]
    cases g h <;> exact id
  · intro h
    simp only [HeapM.read]
    cases g h <;> exact .refl h
  · intro h e h' he
    simp only [HeapM.read] at he
    cases hr : g h with
    | ok a =>
      rw [hr] at he
      cases he
    | error e₁ =>
      rw [hr] at he
      cases he
      exact (hg h).2.isFault hr

end Plain

/-- Placing an object without code. -/
theorem Heap.place_erase (h : Heap) (o : Object) :
    h.erase.place o.erase = ((h.place o).1, (h.place o).2.erase) := by
  unfold Heap.place
  simp only [free_erase]
  cases h.free with
  | cons i rest =>
    simp only [erase, Array.getElem?_map]
    refine Prod.ext ?_ ?_
    · cases h.slots[i.toNat]? <;> rfl
    · simp only [Heap.mk.injEq, and_true]
      apply Array.ext
      · simp
      · intro j h1 h2
        simp only [Array.getElem_modify, Array.getElem_map]
        split <;> simp [Slot.erase]
  | nil => simp [erase, Slot.erase]

/-- Placing an object makes at most one closure, in the next slot. -/
theorem Heap.closureAt_place {h : Heap} {o : Object} {i : Nat} {f : Closure} (hf : (h.place o).2.closureAt i = some f) :
    (i = h.nextSlot ∧ o.closure? = some f) ∨ (i ≠ h.nextSlot ∧ h.closureAt i = some f) := by
  unfold Heap.place at hf
  unfold Heap.nextSlot
  cases hfree : h.free with
  | cons j rest =>
    rw [hfree] at hf
    simp only [closureAt, Array.getElem?_modify] at hf ⊢
    split at hf
    · rename_i hj
      cases hs : h.slots[i]? with
      | none => simp [hs] at hf
      | some s =>
        simp [hs] at hf
        exact .inl ⟨hj.symm, hf⟩
    · rename_i hj
      exact .inr ⟨Ne.symm hj, hf⟩
  | nil =>
    rw [hfree] at hf
    simp only [closureAt, Array.getElem?_push] at hf ⊢
    split at hf
    · rename_i hi
      exact .inl ⟨hi, hf⟩
    · rename_i hi
      exact .inr ⟨hi, hf⟩

namespace Plain

variable {α : Type}

/-- Allocating an object that is no closure. -/
theorem alloc {o : Object} (he : o.erase = o) (hc : o.closure? = none) : Plain (HeapM.alloc o) := by
  constructor
  · intro h
    have hp := h.place_erase o
    rw [he] at hp
    have hlimit : h.erase.atLimit = h.atLimit := rfl
    rw [HeapM.alloc_eq, HeapM.alloc_eq, hlimit, hp]
    split <;> rfl
  · intro h i f
    have hplace : (h.place o).2.closureAt i = some f → h.closureAt i = some f := by
      intro hf
      rcases Heap.closureAt_place hf with ⟨_, hf⟩ | ⟨_, hf⟩
      · rw [hc] at hf
        nomatch hf
      · exact hf
    rw [HeapM.alloc_eq]
    split
    · exact id
    · exact hplace
  · intro h
    rw [HeapM.alloc_eq]
    split
    · exact .refl h
    · exact Heap.grows_place
  · intro h e h' he
    rw [HeapM.alloc_eq] at he
    split at he
    · cases he
      rfl
    · cases he

/-- Allocating an object without code is plain. -/
theorem allocRef {kind : RefKind} {o : Object} (he : o.erase = o) (hc : o.closure? = none) :
    Plain (HeapM.allocRef kind o) :=
  (alloc he hc).bind fun a => pure (Value.ref kind a)

/-- Changing an object by what does not look at code. -/
theorem update (a : Handle) {g : Object → Object} (he : ∀ o, (g o).erase = g o.erase) (hc : ∀ o, (g o).closure? = o.closure?)
    (hp : ∀ o, (g o).parent? = o.parent?) : Plain (HeapM.update a g) := by
  constructor
  · intro h
    change EStateM.Result.ok () (h.erase.update a g) = .ok () (h.update a g).erase
    congr 1
    simp only [Heap.update, Heap.erase, Heap.mk.injEq, and_true]
    apply Array.ext
    · simp
    · intro j h1 h2
      simp only [Array.getElem_modify, Array.getElem_map]
      have hcomm : Object.erase ∘ g = g ∘ Object.erase := funext he
      have hj : j < h.slots.size := by simpa using h1
      split
      · by_cases hg : h.slots[j].generation = a.generation
        · simp [Slot.erase, hg, Option.map_map, hcomm]
        · simp [Slot.erase, hg]
      · rfl
  · intro h i f hf
    change (h.update a g).closureAt i = some f at hf
    simp only [Heap.update, Heap.closureAt, Array.getElem?_modify] at hf ⊢
    split at hf
    · cases hs : h.slots[i]? with
      | none => simp [hs] at hf
      | some s =>
        rw [hs] at hf
        simp only [Option.map_some, Option.bind_some] at hf ⊢
        split at hf
        · cases ho : s.object with
          | none => simp [ho] at hf
          | some o =>
            simp only [ho, Option.map_some, Option.bind_some, hc] at hf ⊢
            exact hf
        · exact hf
    · exact hf
  · intro h
    exact Heap.grows_update hp
  · intro h e h' he
    cases he

theorem bindName (a : Handle) (name : String) (value : Value) : Plain (HeapM.update a (Object.bind name value)) :=
  update a (fun o => by cases o <;> rfl) (fun o => by cases o <;> rfl) (fun o => by cases o <;> rfl)

/-- Allocating a text is plain, like any other object without code. -/
theorem allocText (s : String) : Plain (HeapM.allocText s) := allocRef rfl rfl

theorem allocArray (items : Array Value) : Plain (HeapM.allocArray items) := allocRef rfl rfl

theorem allocError (message : String) (payload : Option Value) : Plain (HeapM.allocError message payload) :=
  allocRef rfl rfl

theorem allocEnvironment (parent : Option Handle) : Plain (HeapM.allocEnvironment parent) := alloc rfl rfl

theorem define (env : Handle) (name : String) (value : Value) : Plain (HeapM.define env name value) :=
  (read (by simp)).bind fun _ => bindName env name value

theorem defineAll (env : Handle) (bindings : List (String × Value)) : Plain (HeapM.defineAll env bindings) := by
  induction bindings with
  | nil => exact pure ()
  | cons b rest ih => exact (define env b.1 b.2).bind fun _ => ih

theorem assign (env : Handle) (name : String) (value : Value) : Plain (HeapM.assign env name value) := by
  refine (read (by simp)).bind fun found => ?_
  cases found with
  | some nearest => exact bindName nearest name value
  | none => exact throw rfl

/-- Making the value of an outcome is plain. -/
theorem materialize (left right : Value) (outcome : Outcome) : Plain (HeapM.materialize left right outcome) := by
  cases outcome with
  | text s => exact allocText s
  | fault f => exact allocError f.message none
  | forward side => cases side <;> exact pure _
  | num n => exact pure _
  | bool b => exact pure _

theorem binary (op : BinaryOp) (left right : Value) : Plain (HeapM.binary op left right) :=
  (read (by simp)).bind fun outcome => materialize left right outcome

theorem unary (op : UnaryOp) (v : Value) : Plain (HeapM.unary op v) :=
  (read (by simp)).bind fun outcome => materialize v v outcome

/-- Equality, order and arithmetic are plain, however they look at their operands. -/
theorem apply (op : BinaryOp) (left right : Value) : Plain (HeapM.apply op left right) := by
  cases op with
  | equal => exact read (by simp)
  | notEqual => exact read (by simp)
  | arith op => exact binary _ left right
  | order op => exact binary _ left right

theorem allocMap (pairs : List (Value × Value)) : Plain (HeapM.allocMap pairs) :=
  (read (by simp)).bind fun _ => allocRef rfl rfl

theorem allocRange (start stop step : Int64) : Plain (HeapM.allocRange start stop step) := by
  unfold HeapM.allocRange
  split
  · exact allocRef rfl rfl
  · exact throw (by decide)

theorem buildRange (start stop step : Value) : Plain (HeapM.buildRange start stop step) := by
  unfold HeapM.buildRange
  split
  · exact pure _
  · refine (read (by simp)).bind fun first => (read (by simp)).bind fun last => (read (by simp)).bind fun stride => ?_
    split
    · split
      · exact allocError _ none
      · exact allocRange _ _ _
    · exact allocError _ none

/-- An access by index is plain when picking the element is. -/
theorem elementAt (index : Value) (length : Nat) {element : Nat → HeapM Value} (he : ∀ i, Plain (element i)) :
    Plain (HeapM.elementAt index length element) := by
  unfold HeapM.elementAt
  split
  · exact he _
  · exact allocError _ none

theorem index (object index : Value) : Plain (HeapM.index object index) := by
  unfold HeapM.index
  split
  · exact pure _
  · split
    · exact pure _
    · split
      · refine (read (by simp)).bind fun found => ?_
        cases found with
        | some value => exact pure _
        | none => exact (read (by simp)).bind fun _ => allocError _ none
      · exact (read (by simp)).bind fun _ => elementAt _ _ fun _ => pure _
      · exact (read (by simp)).bind fun _ => elementAt _ _ fun _ => allocText _
      · exact (read (by simp)).bind fun _ => elementAt _ _ fun _ => pure _
      · exact allocError _ none

/-- The name of a closure is no part of its code. -/
theorem functionName (a : Handle) {f : Closure → HeapM α} (hφ : ∀ c, f c.erase = f c) (hf : ∀ c, Plain (f c)) :
    Plain (HeapM.read (·.function a) >>= f) :=
  readBind (fun h => h.function_erase a) (fun h => h.looks_function a) hφ hf

/-- Looking for a member of a built-in kind is plain. -/
theorem member? (object : Value) (name : String) : Plain (HeapM.member? object name) := by
  unfold HeapM.member?
  split
  · exact (read (by simp)).bind fun _ => (allocText _).bind fun _ => pure _
  · exact (read (by simp)).bind fun _ => pure _
  · exact pure _
  · exact (read (by simp)).bind fun _ => pure _
  · exact (read (by simp)).bind fun _ => pure _
  · exact (read (by simp)).bind fun _ => pure _
  · exact (read (by simp)).bind fun _ => pure _
  · exact functionName _ (fun _ => rfl) fun _ => (allocText _).bind fun _ => pure _
  · exact functionName _ (fun _ => rfl) fun _ => pure _
  · exact (read (by simp)).bind fun _ => (allocText _).bind fun _ => pure _
  · exact pure _

theorem member (object : Value) (name : String) : Plain (HeapM.member object name) := by
  refine (member? object name).bind fun found => ?_
  cases found with
  | some value => exact pure _
  | none => exact allocError _ none

theorem allocIterator (v : Value) : Plain (HeapM.allocIterator v) := by
  unfold HeapM.allocIterator
  split
  · exact (allocRef rfl rfl).bind fun _ => pure _
  · exact pure _

/-- Moving a walk on is plain. -/
theorem setTraversal (a : Handle) (t : Traversal) : Plain (HeapM.setTraversal a t) :=
  (read (by simp)).bind fun _ => update a (fun o => by cases o <;> rfl) (fun o => by cases o <;> rfl) (fun o => by cases o <;> rfl)

/-- Every builtin is plain. -/
theorem builtin (b : Builtin) (args : List Value) : Plain (b.call args) := by
  cases b with
  | len =>
    change Plain (Builtin.lenOf (args.headD .null))
    unfold Builtin.lenOf
    split
    · exact (read (by simp)).bind fun _ => pure _
    · exact (read (by simp)).bind fun _ => pure _
    · exact (read (by simp)).bind fun _ => pure _
    · exact (read (by simp)).bind fun _ => pure _
    · exact pure _
    · exact allocError _ none
  | typeOf => exact allocText _
  | str =>
    change Plain (Builtin.strOf (args.headD .null))
    unfold Builtin.strOf
    split
    · exact pure _
    · exact (read (by simp)).bind fun _ => allocText _
  | range =>
    have harray : ∀ a b c, Plain (Builtin.rangeArray a b c) := by
      intro a b c
      unfold Builtin.rangeArray
      split
      · exact allocArray _
      · exact allocError _ none
    change Plain (Builtin.rangeOf args)
    unfold Builtin.rangeOf
    split
    · split
      · exact pure _
      · exact allocError _ none
    · exact harray _ _ _
    · exact harray _ _ _
    · exact harray _ _ _
    · exact throw (isFault_typeError (toString args.length) (by decide))

theorem host (f : HostFunction) (args : List Value) : Plain (f.call args) := by
  cases f with
  | answer => exact pure _
  | count => exact pure _
  | half => exact pure _
  | yes => exact pure _
  | fail => exact throw (by decide)
  | wrap => exact allocError _ _
  | push =>
    simp only [HostFunction.call]
    split
    · exact ((read (by simp)).bind fun _ =>
        update _ (fun o => by cases o <;> rfl) (fun o => by cases o <;> rfl) (fun o => by cases o <;> rfl)).bind fun _ => pure _
    · exact throw (by decide)
  | put =>
    simp only [HostFunction.call]
    split
    · exact ((read (by simp)).bind fun _ => (read (by simp)).bind fun _ =>
        update _ (fun o => by cases o <;> rfl) (fun o => by cases o <;> rfl) (fun o => by cases o <;> rfl)).bind fun _ => pure _
    · exact throw (by decide)
  | iter =>
    refine (allocIterator (args.headD .null)).bind fun found => ?_
    cases found <;> exact pure _

/-- Native code of either kind is plain. -/
theorem native (n : NativeCode) (args : List Value) : Plain (n.call args) := by
  cases n with
  | builtin b => exact builtin b args
  | host f => exact host f args

end Plain

end ScriptVM
