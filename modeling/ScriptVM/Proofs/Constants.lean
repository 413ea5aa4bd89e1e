import ScriptVM.Proofs.Collection
import ScriptVM.Proofs.Evaluation
import ScriptVM.Proofs.Tables

/-!
# Constants on the heap

A value denotes a constant when it is that scalar, or refers to an object with that text or message. The operators of the heap
do to values what the operators on constants do to the constants they denote (`Heap.Spacious.gives_unary`,
`Heap.Spacious.gives_apply`).

`Heap.Grounds` says that the globals bind names to values that denote constants. It survives allocations, and collections from
roots among which the globals are.
-/

namespace ScriptVM

/-- A value stands for a constant: texts and errors by the content of their objects. -/
inductive Heap.Denotes (h : Heap) : Value → Constant → Prop where
  | null : h.Denotes .null .null
  | bool (b : Bool) : h.Denotes (.bool b) (.bool b)
  | num (n : Num) : h.Denotes (.num n) (.num n)
  | text {a : Handle} {s : String} : h.get? a = some (.text s) → h.Denotes (.ref .string a) (.text s)
  | error {a : Handle} {message : String} :
      h.get? a = some (.error ⟨message, none⟩) → h.Denotes (.ref .error a) (.error message)

namespace Heap.Denotes

variable {h h' : Heap} {v w : Value} {k l : Constant}

/-- A value denotes the same where its object is kept. -/
theorem of_kept (hv : h.Denotes v k)
    (hkept : ∀ a o, v.handle? = some a → h.get? a = some o → o.parent? = none → h'.get? a = some o) : h'.Denotes v k := by
  cases hv with
  | null => exact .null
  | bool b => exact .bool b
  | num n => exact .num n
  | text ha => exact .text (hkept _ _ rfl ha rfl)
  | error ha => exact .error (hkept _ _ rfl ha rfl)

/-- The operand of a value is that of the constant it denotes. -/
theorem operand (hv : h.Denotes v k) : h.operand v = .ok k.operand := by
  cases hv with
  | null => rfl
  | bool b => rfl
  | num n => rfl
  | text ha =>
    rw [Heap.operand, Heap.text, ha]
    rfl
  | error ha =>
    rw [Heap.operand, Heap.error, ha]
    rfl

/-- A value is truthy just if the constant it denotes is. -/
theorem truthy (hv : h.Denotes v k) : h.truthy v = .ok k.truthy := by
  rw [Heap.truthy, hv.operand]
  rfl

/-- Constants are compared as operands: no array or range is looked into. -/
theorem equal (hv : h.Denotes v k) (hw : h.Denotes w l) : h.equal v w = .ok (k.operand.equal l.operand) := by
  have hcompare : h.equal v w = do return (← h.operand v).equal (← h.operand w) := by
    unfold Heap.equal
    cases hv <;> cases hw <;> rfl
  rw [hcompare, hv.operand, hw.operand]
  rfl

end Heap.Denotes

/-! ## Operations -/

/-- A heap without a limit that has slots left for so many more objects. -/
structure Heap.Spacious (h : Heap) (room : Nat) : Prop where
  sparse : h.Sparse
  limit : h.limit = none
  size : h.slots.size + room ≤ Heap.maxSlots

/-- All objects of a heap are objects of the other. -/
def Heap.Keeps (h h' : Heap) : Prop := ∀ a o, h.get? a = some o → h'.get? a = some o

/-- An operation answers with a value that denotes a constant, keeps all objects, and leaves room for so many more. -/
def Heap.Gives (h : Heap) (x : HeapM Value) (k : Constant) (room : Nat) : Prop :=
  ∃ v h', x h = .ok v h' ∧ h.Keeps h' ∧ h'.Denotes v k ∧ h'.Spacious room

/-- A new value of a constant; texts and errors are new objects. -/
def HeapM.constant : Constant → HeapM Value
  | .null => return .null
  | .bool b => return .bool b
  | .num n => return .num n
  | .text s => allocText s
  | .error message => allocError message none

/-- Loading a constant is making its value and pushing it. -/
theorem MachineM.loadConstant_eq (k : Constant) :
    MachineM.loadConstant k = MachineM.onHeap (HeapM.constant k) >>= MachineM.push := by
  cases k <;> rfl

namespace Heap.Spacious

variable {h : Heap} {room : Nat} {v w : Value} {k l : Constant}

/-- A heap with room for one more object has room without it. -/
theorem weaken (hs : h.Spacious (room + 1)) : h.Spacious room := ⟨hs.sparse, hs.limit, by have := hs.size; omega⟩

/-- A heap with room for one more object has room for the next. -/
theorem hasRoom (hs : h.Spacious (room + 1)) : h.Room := by
  have hsize := hs.size
  unfold Heap.Room
  omega

/-- Placing an object uses one place up. -/
theorem place (hs : h.Spacious (room + 1)) (o : Object) : (h.place o).2.Spacious room := by
  have hsize := hs.size
  have hgrown := (Heap.size_place (h := h) (o := o)).2
  exact ⟨hs.sparse.place hs.hasRoom, (h.limit_place o).trans hs.limit, by omega⟩

/-- Placing an object keeps all others. -/
theorem keeps_place (hs : h.Spacious (room + 1)) (o : Object) : h.Keeps (h.place o).2 :=
  fun _ _ ha => Heap.get?_place_of_get? hs.sparse hs.hasRoom ha

/-- A collection leaves the room there is. -/
theorem collect (hs : h.Spacious room) (roots : List Handle) :
    (h.collect roots).Spacious room :=
  ⟨hs.sparse.collect, hs.limit, by rw [Heap.size_collect]; exact hs.size⟩

/-- A change uses no room up. -/
theorem update (hs : h.Spacious room) (a : Handle) (f : Object → Object) :
    (h.update a f).Spacious room :=
  ⟨hs.sparse.update, hs.limit, by simpa [Heap.update] using hs.size⟩

/-- A heap with room never fails to allocate. -/
theorem allocRef (hs : h.Spacious room) (kind : RefKind) (o : Object) :
    HeapM.allocRef kind o h = .ok (.ref kind (h.place o).1) (h.place o).2 := by
  rw [HeapM.allocRef_eq, if_neg (by simp [Heap.atLimit, hs.limit])]

/-- A value that is there already is given at no cost. -/
theorem gives_pure (hs : h.Spacious (room + 1)) (hv : h.Denotes v k) : h.Gives (pure v) k room :=
  ⟨v, h, rfl, fun _ _ ha => ha, hv, hs.weaken⟩

/-- A new text denotes that text. -/
theorem gives_allocText (hs : h.Spacious (room + 1)) (s : String) : h.Gives (HeapM.allocText s) (.text s) room :=
  ⟨_, _, hs.allocRef _ _, hs.keeps_place _, .text (Heap.get?_place_self hs.sparse hs.hasRoom), hs.place _⟩

/-- A new error denotes that message. -/
theorem gives_allocError (hs : h.Spacious (room + 1)) (message : String) :
    h.Gives (HeapM.allocError message none) (.error message) room :=
  ⟨_, _, hs.allocRef _ _, hs.keeps_place _, .error (Heap.get?_place_self hs.sparse hs.hasRoom), hs.place _⟩

/-- A new value of a constant denotes it. -/
theorem gives_constant (hs : h.Spacious (room + 1)) (k : Constant) : h.Gives (HeapM.constant k) k room := by
  cases k with
  | null => exact gives_pure hs .null
  | bool b => exact gives_pure hs (.bool b)
  | num n => exact gives_pure hs (.num n)
  | text s => exact gives_allocText hs s
  | error message => exact gives_allocError hs message

/-- The outcome of an operator on values denotes the outcome on the constants they denote. -/
theorem gives_materialize (hs : h.Spacious (room + 1)) (hv : h.Denotes v k) (hw : h.Denotes w l) (o : Outcome) :
    h.Gives (HeapM.materialize v w o) (.ofOutcome k l o) room := by
  cases o with
  | num n => exact gives_pure hs (.num n)
  | bool b => exact gives_pure hs (.bool b)
  | text s => exact gives_allocText hs s
  | fault f => exact gives_allocError hs f.message
  | forward side =>
    cases side with
    | left => exact gives_pure hs hv
    | right => exact gives_pure hs hw

/-- What is given after the heap is read is given by the rest, at the value that was read. -/
theorem gives_read {α : Type} {f : Heap → Except RuntimeError α} {a : α} {x : α → HeapM Value} (hf : f h = .ok a)
    (hx : h.Gives (x a) k room) : h.Gives (HeapM.read f >>= x) k room := by
  obtain ⟨v, h', heq, hrest⟩ := hx
  refine ⟨v, h', ?_, hrest⟩
  change EStateM.bind (HeapM.read f) x h = _
  simp only [EStateM.bind, HeapM.read, hf, heq]

/-- A unary operator on a value gives what it gives on the constant that the value denotes. -/
theorem gives_unary (hs : h.Spacious (room + 1)) (op : UnaryOp) (hv : h.Denotes v k) :
    h.Gives (HeapM.unary op v) (.unary op k) room := by
  have hread : (do return (← h.operand v).unary op : Except RuntimeError Outcome) = .ok (k.operand.unary op) := by
    rw [hv.operand]
    rfl
  exact gives_read hread (gives_materialize hs hv hv _)

/-- A binary operator on values gives what it gives on the constants that they denote. -/
theorem gives_binary (hs : h.Spacious (room + 1)) (op : BinaryOp) (hv : h.Denotes v k) (hw : h.Denotes w l) :
    h.Gives (HeapM.binary op v w) (.binary op k l) room := by
  have hread : (do return Operand.binary op (← h.operand v) (← h.operand w) : Except RuntimeError Outcome) =
      .ok (Operand.binary op k.operand l.operand) := by
    rw [hv.operand, hw.operand]
    rfl
  exact gives_read hread (gives_materialize hs hv hw _)

/-- An operator on values gives the value of the operator on constants. -/
theorem gives_apply (hs : h.Spacious (room + 1)) (op : BinaryOp) (hv : h.Denotes v k) (hw : h.Denotes w l) :
    h.Gives (HeapM.apply op v w) (.binary op k l) room := by
  cases op with
  | arith op => exact gives_binary hs (.arith op) hv hw
  | order op => exact gives_binary hs (.order op) hv hw
  | equal =>
    refine ⟨.bool (k.operand.equal l.operand), h, ?_, fun _ _ ha => ha, .bool _, hs.weaken⟩
    simp only [HeapM.apply, HeapM.read, hv.equal hw]
    rfl
  | notEqual =>
    refine ⟨.bool (!k.operand.equal l.operand), h, ?_, fun _ _ ha => ha, .bool _, hs.weaken⟩
    simp only [HeapM.apply, HeapM.read, hv.equal hw]
    rfl

end Heap.Spacious

/-! ## Globals that are bound to constants -/

/-- The globals bind names to values that denote constants; they may bind other names too. -/
structure Heap.Grounds (h : Heap) (globals : Handle) (ρ : String → Option Constant) (e : Environment) : Prop where
  resolves : h.get? globals = some (.environment e)
  outermost : e.parent = none
  valid : e.bindings.Valid
  bound : ∀ n k, ρ n = some k → ∃ v, e.bindings.get? n = some v ∧ h.Denotes v k

namespace Heap.Grounds

variable {h h' : Heap} {globals : Handle} {ρ : String → Option Constant} {e : Environment}

/-- Globals keep what they bind in a heap with the same objects. -/
theorem of_keeps (hg : h.Grounds globals ρ e) (hk : h.Keeps h') : h'.Grounds globals ρ e := by
  refine ⟨hk _ _ hg.resolves, hg.outermost, hg.valid, fun n k hn => ?_⟩
  obtain ⟨v, hv, hd⟩ := hg.bound n k hn
  exact ⟨v, hv, hd.of_kept fun a o _ ha _ => hk a o ha⟩

theorem environment (hg : h.Grounds globals ρ e) : h.environment globals = .ok e := by
  rw [Heap.environment, hg.resolves]

/-- A name is found in the globals themselves. -/
theorem lookup (hg : h.Grounds globals ρ e) {n : String} {v : Value} (hv : e.bindings.get? n = some v) :
    h.lookup globals n = .ok (some v) := by
  have hcontains : e.bindings.contains n = true := by rw [Table.contains, hv]; rfl
  have howner : h.owner globals n = .ok (some globals) := by
    rw [Heap.owner, Heap.ownerWithin, hg.environment]
    change (if e.bindings.contains n = true then _ else _) = _
    rw [if_pos hcontains]
    rfl
  rw [Heap.lookup, howner]
  change (do return (← h.environment globals).bindings.get? n) = _
  rw [hg.environment, ← hv]
  rfl

/-- Defining a global binds it among the globals. -/
theorem define (hg : h.Grounds globals ρ e) (n : String) (v : Value) :
    HeapM.define globals n v h = .ok () (h.update globals (Object.bind n v)) := by
  change EStateM.bind (HeapM.read (·.environment globals)) _ h = _
  simp only [EStateM.bind, HeapM.read, hg.environment]
  rfl

/-- Changing the globals changes what no value denotes. -/
theorem denotes_bind {n : String} {v w : Value} {k : Constant} (hw : h.Denotes w k) :
    (h.update globals (Object.bind n v)).Denotes w k := by
  refine hw.of_kept fun a o _ ha hparent => ?_
  rw [Heap.get?_update, ha]
  split
  · cases o <;> first | rfl | nomatch hparent
  · rfl

/-- A name that is bound in the globals may denote a constant from then on. -/
theorem bind (hg : h.Grounds globals ρ e) {n : String} {v : Value} {ρ' : String → Option Constant}
    (hnew : ∀ k, ρ' n = some k → h.Denotes v k) (hold : ∀ m k, m ≠ n → ρ' m = some k → ρ m = some k) :
    (h.update globals (Object.bind n v)).Grounds globals ρ' { e with bindings := e.bindings.insert n v } := by
  refine ⟨?_, hg.outermost, hg.valid.insert, fun m k hm => ?_⟩
  · rw [Heap.get?_update, if_pos rfl, hg.resolves]
    rfl
  · rw [hg.valid.get?_insert]
    by_cases hnm : m = n
    · subst hnm
      exact ⟨v, if_pos (beq_self_eq_true m), denotes_bind (hnew k hm)⟩
    · obtain ⟨w, hw, hd⟩ := hg.bound m k (hold m k hnm hm)
      exact ⟨w, by rw [if_neg fun h => hnm (eq_of_beq h).symm, hw], denotes_bind hd⟩

/-- What the globals are bound to is kept by a collection from roots that the globals are among. -/
theorem collect (hg : h.Grounds globals ρ e) (hu : h.Unmarked) {roots : List Handle} (hr : globals ∈ roots) :
    (h.collect roots).Grounds globals ρ e := by
  refine ⟨(Heap.get?_collect_of_root hr).2 hg.resolves, hg.outermost, hg.valid, fun n k hn => ?_⟩
  obtain ⟨v, hv, hd⟩ := hg.bound n k hn
  refine ⟨v, hv, hd.of_kept fun a o ha ho _ => (Heap.get?_collect hu).2 ⟨ho, ?_⟩⟩
  refine .reference (.root hr) hg.resolves (List.mem_append_left _ (List.mem_filterMap.2 ⟨v, ?_, ha⟩))
  exact List.mem_map.2 ⟨(n, v), hg.valid.get?_eq_some.1 hv, rfl⟩

end Heap.Grounds

end ScriptVM
