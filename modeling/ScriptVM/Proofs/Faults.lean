import ScriptVM.Heap.Environment
import ScriptVM.Native

/-!
# Errors that code is to blame for

`RuntimeError.isFault` marks the errors that only code of the wrong shape brings about: an operand that is not there, bytes that are
no instruction, a step of what is no iterator, an exit that no scope is left for. No look at the heap fails so (`Looks`): it fails
for a handle that does not resolve, and for nothing else.
-/

namespace ScriptVM

/-- What the machine says of a step of what is no iterator. -/
def noIterator : RuntimeError := .typeError "IterNext without an iterator"

/-- What the machine says of an exit that no scope is left for. -/
def noScope : RuntimeError := .typeError "exit from the outermost scope"

/-- The errors that only code of the wrong shape brings about. -/
def RuntimeError.isFault : RuntimeError → Bool
  | .stackUnderflow => true
  | .bytecode _ => true
  | e => e = noIterator || e = noScope

/-- A step of what is no iterator is a fault of the code. -/
theorem isFault_noIterator : noIterator.isFault = true := by simp [RuntimeError.isFault, noIterator]

/-- An exit that no scope is left for is a fault of the code. -/
theorem isFault_noScope : noScope.isFault = true := by simp [RuntimeError.isFault, noScope]

theorem noIterator_ne_noScope : noIterator ≠ noScope := by simp [noIterator, noScope]

/-- A type error is no fault when its message begins with another letter than those of the faults. -/
theorem isFault_typeError {first : String} (rest : String) (h : first.toList.head?.any (fun c => c ≠ 'I' && c ≠ 'e') = true) :
    (RuntimeError.typeError (first ++ rest)).isFault = false := by
  have hhead : (first ++ rest).toList.head? = first.toList.head? := by
    rw [String.toList_append, List.head?_append]
    cases hc : first.toList.head? with
    | none => simp [hc] at h
    | some c => rfl
  have hne : ∀ other : String, first.toList.head? ≠ other.toList.head? → first ++ rest ≠ other := by
    intro other hother heq
    rw [← heq, hhead] at hother
    exact hother rfl
  have hiter : first ++ rest ≠ "IterNext without an iterator" := by
    refine hne _ fun hc => ?_
    simp [hc] at h
  have hexit : first ++ rest ≠ "exit from the outermost scope" := by
    refine hne _ fun hc => ?_
    simp [hc] at h
  simp [RuntimeError.isFault, noIterator, noScope, hiter, hexit]

/-! ## Looks at the heap -/

/-- A look at the heap: all that can be wrong is a handle that does not resolve. -/
def Looks {α : Type} (x : Except RuntimeError α) : Prop := ∀ e, x = .error e → e = .invalidHandle

namespace Looks

variable {α β : Type}

@[simp] theorem ok (a : α) : Looks (.ok a) := by
  intro e h
  nomatch h

@[simp] theorem pure (a : α) : Looks (Pure.pure a) := ok a

/-- A dangling handle is all that a look fails for. -/
@[simp] theorem dangling : Looks (.error .invalidHandle : Except RuntimeError α) := by
  intro e h
  cases h
  rfl

/-- Two looks in sequence are a look. -/
@[simp] theorem bind {x : Except RuntimeError α} {f : α → Except RuntimeError β} (hx : Looks x) (hf : ∀ a, Looks (f a)) :
    Looks (x >>= f) := by
  cases x with
  | ok a => exact hf a
  | error e =>
    intro e' h
    cases h
    exact hx e rfl

/-- A look whose answer is changed is a look. -/
@[simp] theorem map {x : Except RuntimeError α} (f : α → β) (hx : Looks x) : Looks (f <$> x) := by
  cases x with
  | ok a => exact ok (f a)
  | error e =>
    intro e' h
    cases h
    exact hx e rfl

/-- Looks along a list are a look. -/
theorem mapM {f : α → Except RuntimeError β} (hf : ∀ a, Looks (f a)) (l : List α) : Looks (l.mapM f) := by
  induction l with
  | nil => exact pure []
  | cons a l ih =>
    rw [List.mapM_cons]
    exact (hf a).bind fun b => ih.bind fun bs => pure (b :: bs)

/-- Looks along a list that hand an answer on are a look. -/
theorem foldlM {f : β → α → Except RuntimeError β} (hf : ∀ b a, Looks (f b a)) (l : List α) (b : β) : Looks (l.foldlM f b) := by
  induction l generalizing b with
  | nil => exact pure b
  | cons a l ih =>
    rw [List.foldlM_cons]
    exact (hf b a).bind fun b' => ih b'

end Looks

namespace Heap

/-- Looking up a text fails for a dangling handle only; so does looking up any other kind of object. -/
@[simp] theorem looks_text (h : Heap) (a : Handle) : Looks (h.text a) := by
  unfold text
  split <;> simp

@[simp] theorem looks_array (h : Heap) (a : Handle) : Looks (h.array a) := by
  unfold array
  split <;> simp

@[simp] theorem looks_map (h : Heap) (a : Handle) : Looks (h.map a) := by
  unfold map
  split <;> simp

@[simp] theorem looks_range (h : Heap) (a : Handle) : Looks (h.range a) := by
  unfold range
  split <;> simp

@[simp] theorem looks_function (h : Heap) (a : Handle) : Looks (h.function a) := by
  unfold function
  split <;> simp

@[simp] theorem looks_native (h : Heap) (a : Handle) : Looks (h.native a) := by
  unfold native
  split <;> simp

@[simp] theorem looks_iterator (h : Heap) (a : Handle) : Looks (h.iterator a) := by
  unfold iterator
  split <;> simp

@[simp] theorem looks_error (h : Heap) (a : Handle) : Looks (h.error a) := by
  unfold error
  split <;> simp

@[simp] theorem looks_environment (h : Heap) (a : Handle) : Looks (h.environment a) := by
  unfold environment
  split <;> simp

/-- The operand of a value is a look. -/
@[simp] theorem looks_operand (h : Heap) (v : Value) : Looks (h.operand v) := by
  cases v with
  | ref kind a => cases kind <;> simp [operand]
  | _ => simp [operand]

@[simp] theorem looks_truthy (h : Heap) (v : Value) : Looks (h.truthy v) := by
  simp [truthy]

/-- Making a key is a look, however far it goes. -/
theorem looks_mapKeyWithin (h : Heap) (fuel : Nat) (v : Value) : Looks (h.mapKeyWithin fuel v) := by
  induction fuel generalizing v with
  | zero =>
    cases v with
    | num n => cases n <;> simp [mapKeyWithin]
    | ref kind a => cases kind <;> simp [mapKeyWithin]
    | _ => simp [mapKeyWithin]
  | succ fuel ih =>
    cases v with
    | num n => cases n <;> simp [mapKeyWithin]
    | ref kind a => cases kind <;> simp [mapKeyWithin, Looks.mapM ih]
    | _ => simp [mapKeyWithin]

/-- The key of a value is a look. -/
@[simp] theorem looks_mapKey (h : Heap) (v : Value) : Looks (h.mapKey v) := looks_mapKeyWithin h _ v

/-- A lookup in a map is a look. -/
@[simp] theorem looks_mapGet? (h : Heap) (a : Handle) (key : Value) : Looks (h.mapGet? a key) := by
  simp [mapGet?]

/-- Making the table of a map literal is a look. -/
@[simp] theorem looks_entryTable (h : Heap) (pairs : List (Value × Value)) : Looks (h.entryTable pairs) :=
  Looks.foldlM (by simp) pairs _

/-- Comparing two lists is a look when comparing their elements is. -/
theorem looks_allEqual {eq : Value → Value → Except RuntimeError Bool} (heq : ∀ v w, Looks (eq v w)) (xs ys : List Value) :
    Looks (allEqual eq xs ys) := by
  induction xs generalizing ys with
  | nil => simp [allEqual]
  | cons x xs ih =>
    cases ys with
    | nil => simp [allEqual]
    | cons y ys =>
      refine (heq x y).bind fun same => ?_
      cases same with
      | true => exact ih ys
      | false => exact Looks.pure false

/-- Comparing two values is a look, however far it goes. -/
theorem looks_equalWithin (h : Heap) (fuel : Nat) (v w : Value) : Looks (h.equalWithin fuel v w) := by
  induction fuel generalizing v w with
  | zero =>
    unfold equalWithin
    split
    · split
      · simp
      · refine (looks_array h _).bind fun xs => (looks_array h _).bind fun ys => ?_
        split <;> simp
    · simp
    · simp
  | succ fuel ih =>
    unfold equalWithin
    split
    · split
      · simp
      · refine (looks_array h _).bind fun xs => (looks_array h _).bind fun ys => ?_
        split
        · simp
        · exact looks_allEqual ih _ _
    · simp
    · simp

@[simp] theorem looks_equal (h : Heap) (v w : Value) : Looks (h.equal v w) := looks_equalWithin h _ v w

/-- The bound of a range is a look. -/
@[simp] theorem looks_bound? (h : Heap) (v : Value) : Looks (h.bound? v) := by
  cases v with
  | num n => cases n <;> simp [bound?]
  | ref kind a => cases kind <;> simp [bound?]
  | _ => simp [bound?]

/-- Looking for the owner of a name is a look, however far it goes. -/
theorem looks_ownerWithin (h : Heap) (name : String) (fuel : Nat) (env : Handle) : Looks (h.ownerWithin name fuel env) := by
  induction fuel generalizing env with
  | zero => exact Looks.dangling
  | succ fuel ih =>
    refine (looks_environment h env).bind fun e => ?_
    split
    · simp
    · cases e.parent with
      | some parent => exact ih parent
      | none => simp

/-- The owner of a name is a look. -/
@[simp] theorem looks_owner (h : Heap) (env : Handle) (name : String) : Looks (h.owner env name) := looks_ownerWithin h name _ env

/-- What a name is bound to is a look. -/
@[simp] theorem looks_lookup (h : Heap) (env : Handle) (name : String) : Looks (h.lookup env name) := by
  refine (looks_owner h env name).bind fun found => ?_
  cases found with
  | some nearest => simp
  | none => simp

end Heap

/-- The next pair of a walk is a look. -/
@[simp] theorem Traversal.looks_nextPair (h : Heap) (t : Traversal) : Looks (t.nextPair h) := by
  cases t with
  | array a i =>
    refine (h.looks_array a).bind fun items => ?_
    split <;> simp
  | range a i =>
    refine (h.looks_range a).bind fun r => ?_
    split <;> simp
  | map a c => exact (h.looks_map a).bind fun entries => Looks.pure _

/-- The next yield of a walk is a look. -/
@[simp] theorem Traversal.looks_next (h : Heap) (arity : UInt8) (t : Traversal) : Looks (t.next h arity) :=
  (t.looks_nextPair h).bind fun _ => Looks.pure _

end ScriptVM
