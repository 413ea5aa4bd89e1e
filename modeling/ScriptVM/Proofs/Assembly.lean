import Mathlib.Data.List.Forall2
import ScriptVM.Proofs.RoundTrip

/-!
# Assembling code in a buffer

Instructions are emitted one behind the other, jumps among them whose distance is filled in when the buffer has come to their target.
Any number of handles may be open at a time, and they may be patched in any order. A `Draft` is a buffer with the handles and labels
made on it, and `Draft.recordAll` keeps book of what operations emit, of where they lead each handle, and of where the labels are.

Whatever the operations, the bytes of the buffer are at all times those of the instructions in the book, with the distances that lead
there (`Assembled`). An instruction behind the others keeps this, and so does a patch, since it writes over the distance of one
instruction and over nothing else. So the buffer is decoded to the book (`Draft.decode_performAll`).
-/

namespace ScriptVM

/-- What can be done to a buffer. Handles and labels are numbered in the order in which they are made. -/
inductive BufferOperation where
  | emit (i : Instruction)
  | emitJump (kind : JumpKind)
  | emitIterNext (arity : UInt8)
  | label
  | emitLoop (label : Nat)
  | patch (handle : Nat)

/-- An instruction that lacks its distance. -/
inductive Pending where
  | jump (kind : JumpKind)
  | iterNext (arity : UInt8)

/-- The instruction with a distance. -/
def Pending.instruction : Pending → Int32 → Instruction
  | jump kind, d => .jump kind d
  | iterNext arity, d => .iterNext arity d

/-- What was emitted: an instruction; one with a handle, and how many bytes the buffer had when the handle was patched, if it was; or a
jump back to a label. -/
inductive Emission where
  | whole (i : Instruction)
  | pending (p : Pending) (led : Option Nat)
  | loop (head : Nat)

/-- An instruction that begins at an offset is what was emitted: a distance counts from the end of its field, which is the end of the
instruction, and is zero for a handle that was not patched. -/
def Emission.IsAt (start : Nat) : Emission → Instruction → Prop
  | whole i, j => j = i
  | pending p none, j => j = p.instruction 0
  | pending p (some length), j => ∃ d, j = p.instruction d ∧ ((start + j.width : Nat) : Int) + d.toInt = length
  | loop head, j => ∃ d, j = .jump .loop d ∧ ((start + j.width : Nat) : Int) + d.toInt = head

/-- What was emitted, with the handle of a number led to where the buffer had so many bytes. -/
def Emission.lead (length : Nat) : Nat → List Emission → List Emission
  | _, [] => []
  | 0, .pending p _ :: es => .pending p (some length) :: es
  | k + 1, .pending p led :: es => .pending p led :: lead length k es
  | k, e :: es => e :: lead length k es

/-- What was emitted, and how many bytes the buffer had when each label was made. -/
structure Book where
  emitted : List Emission := []
  heads : List Nat := []

/-! ## Drafts -/

/-- A buffer with the handles and the labels that were made on it. -/
structure Draft where
  buffer : CodeBuffer := {}
  handles : List PendingJump := []
  labels : List LoopLabel := []

/-- An operation on a draft. One that fails keeps what it did before it failed. -/
abbrev DraftM := EStateM EmitError Draft

namespace Draft

/-- An operation on the buffer of a draft. -/
def onBuffer {α : Type} (x : BufferM α) : DraftM α := fun d =>
  match x d.buffer with
  | .ok a buffer => .ok a { d with buffer }
  | .error e buffer => .error e { d with buffer }

/-- An operation on the buffer that makes a handle. -/
def reserve (x : BufferM PendingJump) : DraftM Unit := do
  let handle ← onBuffer x
  modify fun d => { d with handles := d.handles ++ [handle] }

/-- An operation on a draft. A number that no handle or label has leaves the draft as it is. -/
def perform : BufferOperation → DraftM Unit
  | .emit i => onBuffer (BufferM.emit i)
  | .emitJump kind => reserve (BufferM.emitJump kind)
  | .emitIterNext arity => reserve (BufferM.emitIterNext arity)
  | .label => modify fun d => { d with labels := d.labels ++ [d.buffer.label] }
  | .emitLoop k => do
    match (← get).labels[k]? with
    | some label => onBuffer (BufferM.emitLoop label)
    | none => return ()
  | .patch k => do
    match (← get).handles[k]? with
    | some handle => onBuffer (BufferM.patch handle)
    | none => return ()

/-- The draft behind an operation, whether it fails or not. -/
def after (d : Draft) (op : BufferOperation) : Draft :=
  match perform op d with
  | .ok () d' => d'
  | .error _ d' => d'

/-- The draft behind operations one after the other. -/
def performAll (d : Draft) (ops : List BufferOperation) : Draft := ops.foldl after d

/-- What an operation asks of a draft: operands that fit their encoding, and of a jump whose distance is known that this is less than
2 ^ 31 forward and at most 2 ^ 31 back. -/
def Allows (d : Draft) : BufferOperation → Prop
  | .emit i => i.Encodable
  | .emitLoop k => ∀ label ∈ d.labels[k]?, d.buffer.size + Fragment.jumpWidth ≤ label.position + 2 ^ 31
  | .patch k => ∀ handle ∈ d.handles[k]?, d.buffer.size < handle.field + 4 + 2 ^ 31
  | _ => True

/-- The book behind an operation on a draft. Of the draft it takes only whether the operation fails, and how long the buffer is. -/
def record (d : Draft) (book : Book) (op : BufferOperation) : Book :=
  match perform op d with
  | .error _ _ => book
  | .ok () _ =>
    match op with
    | .emit i => { book with emitted := book.emitted ++ [.whole i] }
    | .emitJump kind => { book with emitted := book.emitted ++ [.pending (.jump kind) none] }
    | .emitIterNext arity => { book with emitted := book.emitted ++ [.pending (.iterNext arity) none] }
    | .label => { book with heads := book.heads ++ [d.buffer.size] }
    | .emitLoop k => { book with emitted := book.emitted ++ (book.heads[k]?.map .loop).toList }
    | .patch k => { book with emitted := Emission.lead d.buffer.size k book.emitted }

/-- The book behind operations one after the other. -/
def recordAll (d : Draft) (book : Book) : List BufferOperation → Book
  | [] => book
  | op :: ops => (d.after op).recordAll (d.record book op) ops

end Draft

/-! ## The bytes of a field -/

/-- The bytes in front of the distance. -/
def Pending.head : Pending → List UInt8
  | jump kind => [kind.opcode.toByte]
  | iterNext arity => [Opcode.iterNext.toByte, arity]

/-- A patched instruction is its head and the four bytes of its distance. -/
theorem Pending.encode_instruction (p : Pending) (d : Int32) : (p.instruction d).encode = p.head ++ int32Bytes d := by
  cases p <;> rfl

theorem length_int32Bytes (d : Int32) : (int32Bytes d).length = 4 := length_littleEndian 4 _

/-- The distance is in the last four bytes. -/
theorem Pending.width_instruction (p : Pending) (d : Int32) : (p.instruction d).width = p.head.length + 4 := by
  rw [Instruction.width, p.encode_instruction, List.length_append, length_int32Bytes]

/-- Patching needs no check: a jump and an iteration step are accepted with any distance. -/
theorem Pending.check_instruction (p : Pending) (d : Int32) : (p.instruction d).check = .ok () := by
  cases p <;> rfl

/-- Bytes are written over as many others. -/
theorem CodeBuffer.overwrite_append (pre new post : List UInt8) {old : List UInt8} (h : old.length = new.length) :
    (⟨pre ++ old ++ post⟩ : CodeBuffer).overwrite pre.length new = ⟨pre ++ new ++ post⟩ := by
  have htake : (pre ++ old ++ post).take pre.length = pre := by simp
  have hdrop : (pre ++ old ++ post).drop (pre.length + new.length) = post := by
    rw [← h, ← List.length_append, List.drop_left]
  rw [overwrite, htake, hdrop]

/-- Bytes that are written over leave the others where they are. -/
theorem CodeBuffer.overwrite_elsewhere {b : CodeBuffer} {position : Nat} {bytes : List UInt8} (h : position + bytes.length ≤ b.size) :
    (b.overwrite position bytes).size = b.size ∧ ∀ i, i < position ∨ position + bytes.length ≤ i →
      (b.overwrite position bytes).bytes[i]? = b.bytes[i]? := by
  rw [size] at h
  have htake : (b.bytes.take position).length = position := by
    rw [List.length_take]
    omega
  constructor
  · simp only [overwrite, size, List.length_append, List.length_drop, htake]
    omega
  · intro i hi
    rw [overwrite, List.append_assoc]
    rcases hi with hi | hi
    · rw [List.getElem?_append_left (by omega), List.getElem?_take_of_lt hi]
    · rw [List.getElem?_append_right (by omega), htake, List.getElem?_append_right (by omega), List.getElem?_drop]
      congr 1
      omega

/-- A distance is written over another one. -/
theorem CodeBuffer.overwrite_distance (before after : List Instruction) (p : Pending) (old d : Int32) :
    (⟨encodeAll (before ++ p.instruction old :: after)⟩ : CodeBuffer).overwrite (codeSize before + p.head.length) (int32Bytes d) =
      ⟨encodeAll (before ++ p.instruction d :: after)⟩ := by
  have hsplit : ∀ d, encodeAll (before ++ p.instruction d :: after) =
      (encodeAll before ++ p.head) ++ int32Bytes d ++ encodeAll after := by
    intro d
    simp [encodeAll, p.encode_instruction]
  have hfield : codeSize before + p.head.length = (encodeAll before ++ p.head).length := by
    rw [List.length_append, length_encodeAll]
  rw [hsplit, hsplit, hfield]
  exact overwrite_append _ _ _ (by rw [length_int32Bytes, length_int32Bytes])

/-! ## Code that is what was emitted -/

/-- Code that begins at an offset is what was emitted, and these are the handles of it. -/
inductive Assembled : Nat → List Emission → List Instruction → List PendingJump → Prop where
  | nil {start : Nat} : Assembled start [] [] []
  | whole {start : Nat} {e : Emission} {i : Instruction} {es : List Emission} {code : List Instruction} {handles : List PendingJump} :
      e.IsAt start i → (∀ p led, e ≠ .pending p led) → Assembled (start + i.width) es code handles →
      Assembled start (e :: es) (i :: code) handles
  | pending {start : Nat} {p : Pending} {led : Option Nat} {d : Int32} {es : List Emission} {code : List Instruction}
      {handles : List PendingJump} : (Emission.pending p led).IsAt start (p.instruction d) →
      Assembled (start + (p.instruction d).width) es code handles →
      Assembled start (.pending p led :: es) (p.instruction d :: code) (⟨start + p.head.length⟩ :: handles)

namespace Assembled

variable {start : Nat} {es es' : List Emission} {code code' : List Instruction} {handles handles' : List PendingJump}

/-- Code assembled in two parts is the code of the parts, the second one starting where the first ends. -/
theorem append (h : Assembled start es code handles) (h' : Assembled (start + codeSize code) es' code' handles') :
    Assembled start (es ++ es') (code ++ code') (handles ++ handles') := by
  induction h with
  | nil => simpa [codeSize] using h'
  | whole he hne _ ih =>
    rw [codeSize, ← Nat.add_assoc] at h'
    exact .whole he hne (ih h')
  | pending he _ ih =>
    rw [codeSize, ← Nat.add_assoc] at h'
    exact .pending he (ih h')

/-- One instruction is what was emitted at each offset. -/
theorem forall₂ (h : Assembled start es code handles) :
    List.Forall₂ (fun e l => e.IsAt l.offset l.instruction) es (locate start code) := by
  induction h with
  | nil => exact .nil
  | whole he _ _ ih => exact .cons he ih
  | pending he _ ih => exact .cons he ih

/-- A handle is that of one instruction. If it is patched, this instruction gets another distance, and all others stay where they are. -/
theorem lead (h : Assembled start es code handles) {k : Nat} {handle : PendingJump} (hk : handles[k]? = some handle) :
    ∃ (before : List Instruction) (p : Pending) (old : Int32) (after : List Instruction),
      code = before ++ p.instruction old :: after ∧ handle.field = start + codeSize before + p.head.length ∧
      ∀ (length : Nat) (d : Int32), ((handle.field + 4 : Nat) : Int) + d.toInt = length →
        Assembled start (Emission.lead length k es) (before ++ p.instruction d :: after) handles := by
  induction h generalizing k with
  | nil => nomatch hk
  | @whole start e i es code handles he hne _ ih =>
    obtain ⟨before, p, old, after, rfl, hfield, hrest⟩ := ih hk
    refine ⟨i :: before, p, old, after, rfl, ?_, fun length d hd => ?_⟩
    · rw [hfield, codeSize]
      omega
    · have hlead : Emission.lead length k (e :: es) = e :: Emission.lead length k es := by
        cases e with
        | pending p led => exact absurd rfl (hne p led)
        | _ => simp [Emission.lead]
      rw [hlead]
      exact .whole he hne (hrest length d hd)
  | @pending start p led old es code handles he hcode ih =>
    cases k with
    | zero =>
      obtain rfl : (⟨start + p.head.length⟩ : PendingJump) = handle := Option.some.inj hk
      refine ⟨[], p, old, code, rfl, rfl, fun length d hd => .pending ⟨d, rfl, ?_⟩ ?_⟩
      · rw [p.width_instruction, ← Nat.add_assoc]
        exact hd
      · rwa [p.width_instruction, ← p.width_instruction old]
    | succ k =>
      obtain ⟨before, p', old', after, rfl, hfield, hrest⟩ := ih hk
      refine ⟨p.instruction old :: before, p', old', after, rfl, ?_, fun length d hd => .pending he (hrest length d hd)⟩
      rw [hfield, codeSize]
      omega

/-- A number that no handle has leads nothing. -/
theorem lead_of_none (h : Assembled start es code handles) {k : Nat} (hk : handles[k]? = none) (length : Nat) :
    Emission.lead length k es = es := by
  induction h generalizing k with
  | nil => rw [Emission.lead]
  | @whole start e i es code handles he hne _ ih =>
    cases e with
    | pending p led => exact absurd rfl (hne p led)
    | _ =>
      simp only [Emission.lead]
      rw [ih hk]
  | pending _ _ ih =>
    cases k with
    | zero => nomatch hk
    | succ k => rw [Emission.lead, ih hk]

end Assembled

/-! ## Operations -/

namespace BufferM

variable {b : CodeBuffer}

/-- A jump back that is refused leaves the buffer as it is. -/
theorem emitLoop_eq (label : LoopLabel) (b : CodeBuffer) : emitLoop label b =
    match jumpDistance ((label.position : Int) - (b.size + 5)) with
    | .ok d => .ok () (b.append (Instruction.jump .loop d).encode)
    | .error e => .error e b := by
  change EStateM.bind (check (jumpDistance ((label.position : Int) - (b.size + 5)))) _ b = _
  cases jumpDistance ((label.position : Int) - (b.size + 5)) <;> rfl

/-- So does a patch. -/
theorem patch_eq (handle : PendingJump) (b : CodeBuffer) : patch handle b =
    match jumpDistance ((b.size : Int) - (handle.field + 4)) with
    | .ok d => .ok () (b.overwrite handle.field (int32Bytes d))
    | .error e => .error e b := by
  change EStateM.bind (check (jumpDistance ((b.size : Int) - (handle.field + 4)))) _ b = _
  cases jumpDistance ((b.size : Int) - (handle.field + 4)) <;> rfl

end BufferM

namespace Draft

variable {d d' : Draft} {book : Book} {k : Nat} {label : LoopLabel} {handle : PendingJump}

/-- The end of an operation that changes the draft if a check passes, and leaves it as it is otherwise. -/
def settle {α : Type} (d : Draft) (change : α → Draft) : Except EmitError α → EStateM.Result EmitError Draft Unit
  | .ok a => .ok () (change a)
  | .error e => .error e d

/-- The operation succeeds just if the check passes, with the draft changed. -/
theorem settle_eq_ok {α : Type} {change : α → Draft} {x : Except EmitError α} :
    d.settle change x = .ok () d' ↔ ∃ a, x = .ok a ∧ d' = change a := by
  cases x <;> simp [settle, eq_comm]

/-- It succeeds with some draft just if the check passes. -/
theorem exists_settle_eq_ok {α : Type} {change : α → Draft} {x : Except EmitError α} :
    (∃ d', d.settle change x = .ok () d') ↔ ∃ a, x = .ok a := by
  simp [settle_eq_ok]

/-- If the check fails, so does the operation, and the draft is left as it is. -/
theorem settle_eq_error {α : Type} {change : α → Draft} {x : Except EmitError α} {e : EmitError} :
    d.settle change x = .error e d' ↔ x = .error e ∧ d' = d := by
  cases x <;> simp [settle, eq_comm]

/-- Emitting an instruction checks its operands, and appends its bytes. -/
theorem perform_emit (i : Instruction) (d : Draft) :
    perform (.emit i) d = d.settle (fun _ => { d with buffer := d.buffer.append i.encode }) i.check := by
  simp only [perform, onBuffer, BufferM.emit_eq]
  cases i.check <;> rfl

/-- A backward jump looks for its label first. -/
theorem perform_emitLoop_eq (k : Nat) (d : Draft) : perform (.emitLoop k) d =
    (match d.labels[k]? with
      | some label => onBuffer (BufferM.emitLoop label)
      | none => return ()) d := rfl

/-- A backward jump checks its distance, and appends the jump over it. -/
theorem perform_emitLoop (hk : d.labels[k]? = some label) : perform (.emitLoop k) d =
    d.settle (fun distance => { d with buffer := d.buffer.append (Instruction.jump .loop distance).encode })
      (jumpDistance ((label.position : Int) - (d.buffer.size + 5))) := by
  rw [perform_emitLoop_eq, hk]
  simp only [onBuffer, BufferM.emitLoop_eq]
  cases jumpDistance ((label.position : Int) - (d.buffer.size + 5)) <;> rfl

/-- A backward jump to a label that was never taken does nothing. -/
theorem perform_emitLoop_of_none (hk : d.labels[k]? = none) : perform (.emitLoop k) d = .ok () d := by
  rw [perform_emitLoop_eq, hk]
  rfl

/-- A patch looks for its jump first. -/
theorem perform_patch_eq (k : Nat) (d : Draft) : perform (.patch k) d =
    (match d.handles[k]? with
      | some handle => onBuffer (BufferM.patch handle)
      | none => return ()) d := rfl

/-- A patch checks its distance, and writes it over the field of the handle. -/
theorem perform_patch (hk : d.handles[k]? = some handle) : perform (.patch k) d =
    d.settle (fun distance => { d with buffer := d.buffer.overwrite handle.field (int32Bytes distance) })
      (jumpDistance ((d.buffer.size : Int) - (handle.field + 4))) := by
  rw [perform_patch_eq, hk]
  simp only [onBuffer, BufferM.patch_eq]
  cases jumpDistance ((d.buffer.size : Int) - (handle.field + 4)) <;> rfl

/-- A patch of a jump that was never emitted does nothing. -/
theorem perform_patch_of_none (hk : d.handles[k]? = none) : perform (.patch k) d = .ok () d := by
  rw [perform_patch_eq, hk]
  rfl

/-- An operation that fails leaves the draft as it is. -/
theorem eq_of_perform_error {op : BufferOperation} {e : EmitError} (h : perform op d = .error e d') : d' = d := by
  cases op with
  | emit i =>
    rw [perform_emit] at h
    exact (settle_eq_error.1 h).2
  | emitJump kind => nomatch h
  | emitIterNext arity => nomatch h
  | label => nomatch h
  | emitLoop k =>
    cases hk : d.labels[k]? with
    | none =>
      rw [perform_emitLoop_of_none hk] at h
      nomatch h
    | some label =>
      rw [perform_emitLoop hk] at h
      exact (settle_eq_error.1 h).2
  | patch k =>
    cases hk : d.handles[k]? with
    | none =>
      rw [perform_patch_of_none hk] at h
      nomatch h
    | some handle =>
      rw [perform_patch hk] at h
      exact (settle_eq_error.1 h).2

/-- A draft is as its book says: its labels are where the book has them, none behind the end of the buffer, its bytes are those of code
that is what was emitted, and its handles are those of this code. -/
structure Keeps (d : Draft) (book : Book) : Prop where
  labels : d.labels = book.heads.map LoopLabel.mk
  inside : ∀ head ∈ book.heads, head ≤ d.buffer.size
  code : ∃ code, d.buffer = ⟨encodeAll code⟩ ∧ Checked code ∧ Assembled 0 book.emitted code d.handles

/-- A label lies within the code. -/
theorem Keeps.position_le (h : d.Keeps book) (hk : d.labels[k]? = some label) : label.position ≤ d.buffer.size := by
  rw [h.labels, List.getElem?_map] at hk
  obtain ⟨head, hhead, rfl⟩ := Option.map_eq_some_iff.1 hk
  exact h.inside head (List.mem_of_getElem? hhead)

/-- The field of a handle is in the buffer. -/
theorem Keeps.field_le (h : d.Keeps book) (hk : d.handles[k]? = some handle) : handle.field + 4 ≤ d.buffer.size := by
  obtain ⟨code, hbytes, -, hcode⟩ := h.code
  obtain ⟨before, p, old, after, rfl, hfield, -⟩ := hcode.lead hk
  rw [hbytes, CodeBuffer.size, length_encodeAll, codeSize_append, codeSize, p.width_instruction, hfield]
  omega

/-- The operations that succeed are those that the draft allows. -/
theorem Keeps.perform_iff (h : d.Keeps book) (op : BufferOperation) : (∃ d', perform op d = .ok () d') ↔ d.Allows op := by
  cases op with
  | emit i =>
    rw [perform_emit, exists_settle_eq_ok, Allows, ← Instruction.check_eq_ok]
    exact ⟨fun ⟨_, hok⟩ => hok, fun hok => ⟨(), hok⟩⟩
  | emitJump kind => exact ⟨fun _ => trivial, fun _ => ⟨_, rfl⟩⟩
  | emitIterNext arity => exact ⟨fun _ => trivial, fun _ => ⟨_, rfl⟩⟩
  | label => exact ⟨fun _ => trivial, fun _ => ⟨_, rfl⟩⟩
  | emitLoop k =>
    cases hk : d.labels[k]? with
    | none =>
      rw [perform_emitLoop_of_none hk]
      have hallows : d.Allows (.emitLoop k) := by simp [Allows, hk]
      exact ⟨fun _ => hallows, fun _ => ⟨_, rfl⟩⟩
    | some label =>
      have hposition := h.position_le hk
      have hallows : d.Allows (.emitLoop k) ↔ d.buffer.size + Fragment.jumpWidth ≤ label.position + 2 ^ 31 := by
        simp [Allows, hk]
      rw [hallows, perform_emitLoop hk, exists_settle_eq_ok, exists_jumpDistance_iff, Fragment.jumpWidth]
      omega
  | patch k =>
    cases hk : d.handles[k]? with
    | none =>
      rw [perform_patch_of_none hk]
      have hallows : d.Allows (.patch k) := by simp [Allows, hk]
      exact ⟨fun _ => hallows, fun _ => ⟨_, rfl⟩⟩
    | some handle =>
      have hfield := h.field_le hk
      have hallows : d.Allows (.patch k) ↔ d.buffer.size < handle.field + 4 + 2 ^ 31 := by
        simp [Allows, hk]
      rw [hallows, perform_patch hk, exists_settle_eq_ok, exists_jumpDistance_iff]
      omega

/-- An instruction is emitted behind the others. -/
theorem Keeps.append (h : d.Keeps book) {i : Instruction} (hi : i.check = .ok ()) {e : Emission} {handles : List PendingJump}
    (he : Assembled d.buffer.size [e] [i] handles) :
    Keeps { d with buffer := d.buffer.append i.encode, handles := d.handles ++ handles }
      { book with emitted := book.emitted ++ [e] } := by
  obtain ⟨hlabels, hinside, code, hbytes, hchecked, hcode⟩ := h
  refine ⟨hlabels, fun head hhead => ?_, code ++ [i], ?_, hchecked.append (checked_singleton.2 hi), hcode.append ?_⟩
  · have hle := hinside head hhead
    simp only [CodeBuffer.size, CodeBuffer.append, List.length_append] at hle ⊢
    omega
  · rw [hbytes]
    simp [CodeBuffer.append, encodeAll]
  · have hsize : d.buffer.size = codeSize code := by rw [hbytes, CodeBuffer.size, length_encodeAll]
    rwa [Nat.zero_add, ← hsize]

/-- An instruction without a handle is emitted behind the others. -/
theorem Keeps.appendWhole (h : d.Keeps book) {i : Instruction} (hi : i.check = .ok ()) {e : Emission} (he : e.IsAt d.buffer.size i)
    (hne : ∀ p led, e ≠ .pending p led) :
    Keeps { d with buffer := d.buffer.append i.encode } { book with emitted := book.emitted ++ [e] } := by
  have hkeeps := h.append hi (.whole he hne .nil)
  rwa [List.append_nil] at hkeeps

/-- An instruction that lacks its distance is emitted behind the others, and its handle is where the distance is. -/
theorem Keeps.reserve (h : d.Keeps book) (p : Pending) :
    Keeps { d with
        buffer := d.buffer.append (p.instruction 0).encode
        handles := d.handles ++ [⟨(d.buffer.append (p.instruction 0).encode).size - 4⟩] }
      { book with emitted := book.emitted ++ [.pending p none] } := by
  have hhandle : (d.buffer.append (p.instruction 0).encode).size - 4 = d.buffer.size + p.head.length := by
    have hwidth : (p.instruction 0).encode.length = p.head.length + 4 := p.width_instruction 0
    simp only [CodeBuffer.append, CodeBuffer.size, List.length_append]
    omega
  rw [hhandle]
  exact h.append (p.check_instruction 0) (.pending rfl .nil)

/-- The distance of one instruction is written over, and this leads its handle to the end of the buffer. -/
theorem Keeps.patch (h : d.Keeps book) (hk : d.handles[k]? = some handle) {distance : Int32}
    (hdistance : distance.toInt = (d.buffer.size : Int) - (handle.field + 4)) :
    Keeps { d with buffer := d.buffer.overwrite handle.field (int32Bytes distance) }
      { book with emitted := Emission.lead d.buffer.size k book.emitted } := by
  have hsize : (d.buffer.overwrite handle.field (int32Bytes distance)).size = d.buffer.size :=
    (CodeBuffer.overwrite_elsewhere (by rw [length_int32Bytes]; exact h.field_le hk)).1
  obtain ⟨hlabels, hinside, code, hbytes, hchecked, hcode⟩ := h
  obtain ⟨before, p, old, after, rfl, hfield, hrest⟩ := hcode.lead hk
  refine ⟨hlabels, fun head hhead => ?_, before ++ p.instruction distance :: after, ?_, ?_, hrest _ _ (by omega)⟩
  · exact hsize.symm ▸ hinside head hhead
  · rw [hbytes, hfield, Nat.zero_add, CodeBuffer.overwrite_distance]
  · intro i hi
    rcases List.mem_append.1 hi with hi | hi
    · exact hchecked i (List.mem_append_left _ hi)
    · rcases List.mem_cons.1 hi with rfl | hi
      · exact p.check_instruction distance
      · exact hchecked i (List.mem_append_right _ (List.mem_cons_of_mem _ hi))

/-- One successful operation keeps the draft and the book of what was emitted in step. -/
theorem Keeps.perform (h : d.Keeps book) {op : BufferOperation} (hop : perform op d = .ok () d') : d'.Keeps (d.record book op) := by
  unfold record
  rw [hop]
  cases op with
  | emit i =>
    rw [perform_emit] at hop
    obtain ⟨_, hi, rfl⟩ := settle_eq_ok.1 hop
    exact h.appendWhole hi (e := .whole i) rfl (by simp)
  | emitJump kind =>
    cases hop
    exact h.reserve (.jump kind)
  | emitIterNext arity =>
    cases hop
    exact h.reserve (.iterNext arity)
  | label =>
    cases hop
    refine ⟨?_, fun head hhead => ?_, h.code⟩
    · rw [List.map_append, ← h.labels]
      rfl
    · rcases List.mem_append.1 hhead with hold | hnew
      · exact h.inside head hold
      · exact Nat.le_of_eq (List.mem_singleton.1 hnew)
  | emitLoop k =>
    have hlabel : d.labels[k]? = book.heads[k]?.map LoopLabel.mk := by rw [h.labels, List.getElem?_map]
    cases hk : book.heads[k]? with
    | none =>
      rw [hk] at hlabel
      rw [perform_emitLoop_of_none hlabel] at hop
      cases hop
      simpa [hk] using h
    | some head =>
      rw [hk] at hlabel
      rw [perform_emitLoop hlabel] at hop
      obtain ⟨distance, hd, rfl⟩ := settle_eq_ok.1 hop
      have hat : ((d.buffer.size + Fragment.jumpWidth : Nat) : Int) + distance.toInt = head := by
        rw [jumpDistance_eq_ok hd, Fragment.jumpWidth]
        dsimp only
        omega
      have hkeeps := h.appendWhole (i := .jump .loop distance) rfl (e := .loop head) ⟨distance, rfl, hat⟩ (by simp)
      simpa [hk] using hkeeps
  | patch k =>
    cases hk : d.handles[k]? with
    | none =>
      rw [perform_patch_of_none hk] at hop
      cases hop
      obtain ⟨hlabels, hinside, code, hbytes, hchecked, hcode⟩ := h
      refine ⟨hlabels, hinside, code, hbytes, hchecked, ?_⟩
      dsimp only
      rwa [hcode.lead_of_none hk]
    | some handle =>
      rw [perform_patch hk] at hop
      obtain ⟨distance, hd, rfl⟩ := settle_eq_ok.1 hop
      exact h.patch hk (jumpDistance_eq_ok hd)

/-- One operation keeps draft and book in step, whether it succeeds or fails. -/
theorem Keeps.after (h : d.Keeps book) (op : BufferOperation) : (d.after op).Keeps (d.record book op) := by
  cases hop : Draft.perform op d with
  | ok u d' =>
    have hkeeps := h.perform hop
    rwa [Draft.after, hop]
  | error e d' =>
    simp only [Draft.after, record, hop]
    rw [eq_of_perform_error hop]
    exact h

/-- Any sequence of operations keeps draft and book in step. -/
theorem Keeps.performAll (h : d.Keeps book) (ops : List BufferOperation) : (d.performAll ops).Keeps (d.recordAll book ops) := by
  induction ops generalizing d book with
  | nil => exact h
  | cons op ops ih => exact ih (h.after op)

/-- An empty draft is in step with an empty book. -/
theorem keeps_empty : Keeps {} {} := ⟨rfl, nofun, [], rfl, checked_nil, .nil⟩

/-- A patch writes over the field of its handle and over nothing else. -/
theorem Keeps.patch_elsewhere (h : d.Keeps book) (hk : d.handles[k]? = some handle) :
    handle.field + 4 ≤ d.buffer.size ∧ (d.after (.patch k)).buffer.size = d.buffer.size ∧
      ∀ i, i < handle.field ∨ handle.field + 4 ≤ i → (d.after (.patch k)).buffer.bytes[i]? = d.buffer.bytes[i]? := by
  have hinside := h.field_le hk
  refine ⟨hinside, ?_⟩
  rw [Draft.after, perform_patch hk]
  cases jumpDistance ((d.buffer.size : Int) - (handle.field + 4)) with
  | error e => exact ⟨rfl, fun _ _ => rfl⟩
  | ok distance =>
    rw [← length_int32Bytes distance]
    exact CodeBuffer.overwrite_elsewhere (by rwa [length_int32Bytes])

/-- Whatever is done to an empty buffer: the next operation succeeds when the draft allows it, and one that fails leaves the draft as it
is; a patch changes no bytes but the four of its handle's field; and the buffer is decoded, instruction by instruction and to its end,
to what was emitted. The jump of a handle leads to where the buffer ended when the handle was patched, and over nothing if it was not;
a jump back leads to its label. -/
theorem decode_performAll (ops : List BufferOperation) :
    let d := performAll {} ops
    (∀ op, (∃ d', perform op d = .ok () d') ↔ d.Allows op) ∧
    (∀ op e d', perform op d = .error e d' → d' = d) ∧
    (∀ k handle, d.handles[k]? = some handle →
      handle.field + 4 ≤ d.buffer.size ∧ (d.after (.patch k)).buffer.size = d.buffer.size ∧
      ∀ i, i < handle.field ∨ handle.field + 4 ≤ i → (d.after (.patch k)).buffer.bytes[i]? = d.buffer.bytes[i]?) ∧
    ∃ code, Instruction.decodeMany d.buffer.bytes.toArray code.length 0 = .ok (code.map fun i => (i, i.width)) ∧
      d.buffer.size = codeSize code ∧
      List.Forall₂ (fun e l => e.IsAt l.offset l.instruction) (recordAll {} {} ops).emitted (locate 0 code) := by
  intro d
  have hkeeps : d.Keeps (recordAll {} {} ops) := keeps_empty.performAll ops
  refine ⟨hkeeps.perform_iff, fun op e d' => eq_of_perform_error, fun k handle hk => hkeeps.patch_elsewhere hk, ?_⟩
  obtain ⟨code, hbytes, hchecked, hcode⟩ := hkeeps.code
  refine ⟨code, ?_, ?_, hcode.forall₂⟩
  · have hdecode := Instruction.decodeMany_encodeAll hchecked [] []
    rw [hbytes]
    simpa using hdecode
  · rw [hbytes, CodeBuffer.size, length_encodeAll]

/-- Two handles are open at a time, and the one made first is patched last. A name with a NUL is refused in between. -/
def openSample : List BufferOperation :=
  [.label, .emitJump .ifFalse, .emitIterNext 1, .emit (.loadName "\x00"), .emit .pop, .patch 1, .emitLoop 0, .patch 0]

/-- The code that this comes to. -/
def openCode : List Instruction := [.jump .ifFalse 12, .iterNext 1 1, .pop, .jump .loop (-17)]

/-- The sample loop: its bytes are those of its code, a name with NUL is refused, its open jump can be patched, and the bytes
decode to what was emitted with all distances leading where they should. -/
theorem decode_performAll_openSample :
    (performAll {} openSample).buffer.bytes = encodeAll openCode ∧
    (∃ e, perform (.emit (.loadName "\x00")) (performAll {} openSample) = .error e (performAll {} openSample)) ∧
    (∃ d', perform (.patch 0) (performAll {} openSample) = .ok () d') ∧
    Instruction.decodeMany (performAll {} openSample).buffer.bytes.toArray 4 0 = .ok (openCode.map fun i => (i, i.width)) ∧
    List.Forall₂ (fun e l => e.IsAt l.offset l.instruction)
      [Emission.pending (.jump .ifFalse) (some 17), .pending (.iterNext 1) (some 12), .whole .pop, .loop 0] (locate 0 openCode) := by
  obtain ⟨hallows, hfails, -, code, hdecode, -, hcode⟩ := decode_performAll openSample
  have hrefused : ¬(performAll {} openSample).Allows (.emit (.loadName "\x00")) := fun h => h.1 "\x00" (by decide) (by decide)
  have hpatched : (performAll {} openSample).Allows (.patch 0) := by
    intro handle hhandle
    cases hhandle
    decide
  have hemitted : (recordAll {} {} openSample).emitted =
      [.pending (.jump .ifFalse) (some 17), .pending (.iterNext 1) (some 12), .whole .pop, .loop 0] := rfl
  have hmany : Instruction.decodeMany (performAll {} openSample).buffer.bytes.toArray 4 0 =
      .ok (openCode.map fun i => (i, i.width)) := by decide +kernel
  rw [hemitted] at hcode
  have hlength : code.length = 4 := by rw [← length_locate 0 code, ← hcode.length_eq]; rfl
  rw [hlength, hmany] at hdecode
  have hsame : openCode = code := by
    have hmap := congrArg (List.map Prod.fst) (Except.ok.inj hdecode)
    simpa [Function.comp_def] using hmap
  refine ⟨by decide, ?_, (hallows _).2 hpatched, hmany, hsame ▸ hcode⟩
  cases hop : perform (.emit (.loadName "\x00")) (performAll {} openSample) with
  | ok u d' => exact absurd ((hallows _).1 ⟨d', hop⟩) hrefused
  | error e d' =>
    rw [hfails _ _ _ hop]
    exact ⟨e, rfl⟩

end Draft

end ScriptVM
