import ScriptVM.Proofs.Erasure
import ScriptVM.Proofs.Execution

/-!
# What instructions do to a machine

An instruction that is not a return does few things to a machine: the heap grows, operands are pushed within the capacity of the stack or
taken away, a value is discarded, the innermost frame moves on, and a frame is pushed within the frames allowed. A relation that holds
along each of these (`Machine.Stepwise`) holds between the machine before any such instruction and the one behind it, whether the
instruction fails or not (`Machine.Stepwise.execute`).
-/

namespace ScriptVM

/-- The machine that a part of its work leaves, whether it fails or not. -/
def machineAfter {α : Type} : EStateM.Result RuntimeError Machine α → Machine
  | .ok _ m => m
  | .error _ m => m

/-- Work that leads each machine to a related one, whether it fails or not. -/
def Relates {α : Type} (R : Machine → Machine → Prop) (x : MachineM α) : Prop := ∀ m : Machine, R m (machineAfter (x m))

/-- An operation on the heap changes nothing else. -/
theorem MachineM.exists_heap {α : Type} {x : HeapM α} {m m' : Machine} {a : α} (h : MachineM.onHeap x m = .ok a m') :
    ∃ heap, m' = { m with heap } := by
  rw [MachineM.onHeap_eq] at h
  split at h
  · cases h
    exact ⟨_, rfl⟩
  · cases h

namespace Machine

/-- A relation between machines that holds along all that instructions do to one. -/
structure Stepwise (R : Machine → Machine → Prop) : Prop where
  refl : ∀ m, R m m
  trans : ∀ {m m' m''}, R m m' → R m' m'' → R m m''
  grown : ∀ (m : Machine) {heap : Heap}, m.heap.Grows heap → R m { m with heap }
  pushed : ∀ (m : Machine) (v : Value), m.stack.size < m.settings.stackCapacity → R m { m with stack := m.stack.push v }
  taken : ∀ (m : Machine) {stack : Array Value}, stack.toList <+: m.stack.toList → R m { m with stack }
  discarded : ∀ (m : Machine) (v : Value), R m { m with lastPopped := v }
  moved : ∀ (m : Machine) {f : Frame → Frame}, (∀ x, (f x).base = x.base) →
    R m { m with frames := m.frames.modify (m.frames.size - 1) f }
  entered : ∀ (m : Machine) (f : Frame), m.frames.size < m.settings.maxFrames → R m { m with frames := m.frames.push f }

namespace Stepwise

variable {α β : Type} {R : Machine → Machine → Prop}

theorem pure (hR : Stepwise R) (a : α) : Relates R (Pure.pure a) := fun m => hR.refl m

theorem throw (hR : Stepwise R) (e : RuntimeError) : Relates R (MonadExcept.throw e : MachineM α) := fun m => hR.refl m

/-- What follows work on a machine is related where the work succeeds. -/
theorem follow (hR : Stepwise R) {x : MachineM α} {f : α → MachineM β} {m : Machine} (hx : R m (machineAfter (x m)))
    (hf : ∀ a m', x m = .ok a m' → R m' (machineAfter (f a m'))) : R m (machineAfter ((x >>= f) m)) := by
  change R m (machineAfter (EStateM.bind x f m))
  unfold EStateM.bind
  cases hr : x m with
  | ok a m' =>
    rw [hr] at hx
    exact hR.trans hx (hf a m' hr)
  | error e m' =>
    rw [hr] at hx
    exact hx

/-- Two parts in sequence relate machines when each of them does. -/
theorem bind (hR : Stepwise R) {x : MachineM α} {f : α → MachineM β} (hx : Relates R x) (hf : ∀ a, Relates R (f a)) :
    Relates R (x >>= f) := fun m => hR.follow (hx m) fun a m' _ => hf a m'

/-- Work on the heap by which the heap grows relates machines. -/
theorem onHeap (hR : Stepwise R) {x : HeapM α} (hx : ∀ h : Heap, h.Grows (heapAfter (x h))) : Relates R (MachineM.onHeap x) := by
  intro m
  rw [MachineM.onHeap_eq]
  have hm := hx m.heap
  cases hr : x m.heap with
  | ok a h =>
    rw [hr] at hm
    exact hR.grown m hm
  | error e h =>
    rw [hr] at hm
    exact hR.grown m hm

/-- Work on the heap that allocates at most relates machines. -/
theorem plain (hR : Stepwise R) {x : HeapM α} (hx : Plain x) : Relates R (MachineM.onHeap x) := hR.onHeap hx.grows

theorem read (hR : Stepwise R) (g : Machine → Except RuntimeError α) : Relates R (MachineM.read g) := by
  intro m
  unfold MachineM.read
  cases g m <;> exact hR.refl m

theorem look (hR : Stepwise R) (g : Heap → Except RuntimeError α) : Relates R (MachineM.onHeap (HeapM.read g)) := by
  refine hR.onHeap fun h => ?_
  unfold HeapM.read
  cases g h <;> exact .refl _

/-- A push stays within the capacity, or fails with the machine as it is. -/
theorem push (hR : Stepwise R) (v : Value) : Relates R (MachineM.push v) := by
  intro m
  unfold MachineM.push
  split
  · exact hR.refl m
  · exact hR.pushed m v (by omega)

theorem truncate (hR : Stepwise R) (height : Nat) : Relates R (MachineM.truncate height) := by
  intro m
  refine hR.taken m ?_
  rw [Array.toList_shrink]
  exact List.take_prefix _ _

/-- A pop takes one operand away, or fails with the machine as it is. -/
theorem pop (hR : Stepwise R) : Relates R MachineM.pop := by
  intro m
  unfold MachineM.pop
  split
  · refine hR.taken m ?_
    rw [Array.toList_pop]
    exact List.dropLast_prefix _
  · exact hR.refl m

/-- Looking at the top operand changes nothing. -/
theorem peek (hR : Stepwise R) : Relates R MachineM.peek := hR.read _

theorem popMany (hR : Stepwise R) (count : Nat) : Relates R (MachineM.popMany count) := by
  intro m
  unfold MachineM.popMany
  split
  · exact hR.refl m
  · exact hR.truncate _ m

/-- A change of the innermost frame that leaves its base moves the frame on. -/
theorem modifyFrame (hR : Stepwise R) {f : Frame → Frame} (hf : ∀ x, (f x).base = x.base) : Relates R (MachineM.modifyFrame f) :=
  fun m => hR.moved m hf

/-- A jump moves the innermost frame on. -/
theorem jump (hR : Stepwise R) (source : Nat) (offset : Int32) (length : Nat) : Relates R (MachineM.jump source offset length) := by
  unfold MachineM.jump
  by_cases hout : (source : Int) + offset.toInt < 0 ∨ (length : Int) < (source : Int) + offset.toInt
  · rw [if_pos hout]
    exact hR.throw _
  · rw [if_neg hout]
    exact hR.modifyFrame fun _ => rfl

/-- The result of an operation on the heap is pushed. -/
theorem result (hR : Stepwise R) {x : HeapM Value} (hx : Plain x) : Relates R (do MachineM.push (← MachineM.onHeap x)) :=
  hR.bind (hR.plain hx) hR.push

/-- A condition is taken from the stack, and decides what follows. -/
theorem condition (hR : Stepwise R) {k : Bool → MachineM Unit} (hk : ∀ b, Relates R (k b)) :
    Relates R (do
      let condition ← MachineM.pop
      k (← MachineM.onHeap (HeapM.read (·.truthy condition)))) := hR.bind hR.pop fun _ => hR.bind (hR.look _) hk

/-- A conditional jump pops or looks at its condition, and moves the frame on. -/
theorem jumpBy (hR : Stepwise R) (kind : JumpKind) (next : Nat) (offset : Int32) (length : Nat) :
    Relates R (MachineM.jumpBy kind next offset length) := by
  cases kind with
  | forward => exact hR.jump _ _ _
  | loop => exact hR.jump _ _ _
  | ifFalse =>
    refine hR.condition fun b => ?_
    cases b with
    | true => exact hR.pure ()
    | false => exact hR.jump _ _ _
  | ifTrue =>
    refine hR.condition fun b => ?_
    cases b with
    | true => exact hR.jump _ _ _
    | false => exact hR.pure ()

/-- An iteration step advances the walk, and pushes what it yields or jumps behind the loop. -/
theorem iterNext (hR : Stepwise R) (arity : UInt8) (next : Nat) (offset : Int32) (length : Nat) :
    Relates R (MachineM.iterNext arity next offset length) := by
  refine hR.bind hR.peek fun v => ?_
  split
  · refine hR.bind (hR.look _) fun ⟨yielded, t⟩ => ?_
    cases yielded with
    | none => exact hR.bind hR.pop fun _ => hR.jump _ _ _
    | some y =>
      refine hR.bind (hR.plain (Plain.setTraversal _ t)) fun _ => ?_
      cases y with
      | one value => exact hR.push value
      | two key value => exact hR.bind (hR.push key) fun _ => hR.push value
  · exact hR.throw _

/-- What comes between the check for room and the frame leaves the frames as they are. -/
theorem callFunction (hR : Stepwise R) (f : Closure) (callee argc : Nat) : Relates R (MachineM.callFunction f callee argc) := by
  intro m
  rw [MachineM.callFunction_eq]
  split
  · exact hR.refl m
  · split
    · exact hR.refl m
    · split
      · exact hR.refl m
      · rename_i hroom
        refine hR.follow (hR.plain (Plain.allocEnvironment _) m) fun env m₁ h₁ => ?_
        refine hR.follow (hR.plain (Plain.defineAll _ _) m₁) fun _ m₂ h₂ => ?_
        obtain ⟨heap₁, rfl⟩ := MachineM.exists_heap h₁
        obtain ⟨heap₂, rfl⟩ := MachineM.exists_heap h₂
        exact hR.trans (hR.truncate (callee + 1) _) (hR.entered _ ⟨f.code, 0, env, callee⟩ (Nat.lt_of_not_le hroom))

/-- A native call works on the heap alone, and replaces callee and arguments by its result. -/
theorem callNative (hR : Stepwise R) (n : Native) (callee argc : Nat) : Relates R (MachineM.callNative n callee argc) := by
  intro m
  rw [MachineM.callNative_eq]
  split
  · exact hR.refl m
  · have hcall := hR.bind (hR.popMany argc) fun args => hR.bind (hR.plain (Plain.native n.code args.toList)) fun result =>
      hR.bind (hR.truncate callee) fun _ => hR.push result
    exact hcall m

/-- A call replaces callee and arguments by a result, or pushes a frame within the frames allowed. -/
theorem callValue (hR : Stepwise R) (argc : Nat) : Relates R (MachineM.callValue argc) := by
  intro m
  rw [MachineM.callValue_eq]
  split
  · exact hR.refl m
  · refine (?_ : Relates R _) m
    split
    · exact hR.bind (hR.look _) fun f => hR.callFunction f _ _
    · exact hR.bind (hR.look _) fun n => hR.callNative n _ _
    · exact hR.throw _

/-- A function is allocated and pushed. -/
theorem makeFunction (hR : Stepwise R) (f : Closure) :
    Relates R (do MachineM.push (← MachineM.onHeap (HeapM.allocRef .function (.function f)))) := by
  refine hR.bind (hR.onHeap fun h => ?_) hR.push
  rw [HeapM.allocRef_eq]
  split
  · exact .refl h
  · exact Heap.grows_place

/-- Every instruction but a return relates the machine before it to the one after it. -/
theorem execute (hR : Stepwise R) (f : Frame) (next : Nat) (i : Instruction) : Relates R (MachineM.execute f next i) := by
  cases i with
  | load c =>
    cases c with
    | text s => exact hR.result (Plain.allocText s)
    | error message => exact hR.result (Plain.allocError message none)
    | _ => exact hR.push _
  | loadName name =>
    refine hR.bind (hR.read _) fun found => ?_
    cases found with
    | some value => exact hR.push value
    | none => exact hR.throw _
  | storeName name => exact hR.bind hR.pop fun v => hR.plain (Plain.define f.env name v)
  | setName name => exact hR.bind hR.peek fun v => hR.plain (Plain.assign f.env name v)
  | pop => exact hR.bind hR.pop fun v m => hR.discarded m v
  | binary op =>
    change Relates R (MachineM.binary op)
    rw [MachineM.binary_eq]
    exact hR.bind hR.pop fun v => hR.bind hR.pop fun w => hR.result (Plain.apply op w v)
  | unary op => exact hR.bind hR.pop fun v => hR.result (Plain.unary op v)
  | jump kind offset => exact hR.jumpBy _ _ _ _
  | enterScope => exact hR.bind (hR.plain (Plain.allocEnvironment (some f.env))) fun _ => hR.modifyFrame fun _ => rfl
  | exitScope =>
    refine hR.bind (hR.look _) fun e => ?_
    split
    · exact hR.modifyFrame fun _ => rfl
    · exact hR.throw _
  | buildArray count => exact hR.bind (hR.popMany _) fun items => hR.result (Plain.allocArray items)
  | buildMap pairs => exact hR.bind (hR.popMany _) fun items => hR.result (Plain.allocMap _)
  | buildRange =>
    exact hR.bind hR.pop fun c => hR.bind hR.pop fun b => hR.bind hR.pop fun a => hR.result (Plain.buildRange a b c)
  | index => exact hR.bind hR.pop fun b => hR.bind hR.pop fun a => hR.result (Plain.index a b)
  | getMember name => exact hR.bind hR.pop fun a => hR.result (Plain.member a name)
  | getIter =>
    refine hR.bind hR.pop fun v => hR.bind (hR.plain (Plain.allocIterator v)) fun found => ?_
    cases found with
    | some iterator => exact hR.push iterator
    | none => exact hR.throw _
  | iterNext arity offset => exact hR.iterNext _ _ _ _
  | call argc => exact hR.callValue _
  | makeFunction p => exact hR.makeFunction _
  | ret => exact hR.pure ()

theorem fetch (hR : Stepwise R) (f : Frame) : Relates R (MachineM.fetch f) := by
  unfold MachineM.fetch
  split
  · exact hR.pure _
  · exact hR.throw _

/-- Looking up the innermost frame changes nothing. -/
theorem frame (hR : Stepwise R) : Relates R MachineM.frame := hR.read _

end Stepwise

end Machine

end ScriptVM
