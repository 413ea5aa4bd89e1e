import ScriptVM.Proofs.Growth
import ScriptVM.Proofs.Parallel
import ScriptVM.Proofs.Startup

/-!
# Machines in lock step

Two machines are `Twins` when their operands, frames and roots are the same up to handles that live on both sides of a pairing of
their heaps. A step of one is a step of the other with the same outcome (`Twins.step`), whether or not either machine collects
garbage before it.
-/

namespace ScriptVM

open Pairing

/-- Frames at one place of one code, in environments that live on both sides. -/
structure FrameRel (S : Correspondence) (f g : Frame) : Prop where
  code : f.code = g.code
  ip : f.ip = g.ip
  base : f.base = g.base
  env : S none f.env g.env

/-- Machines that are the same up to handles. -/
structure Twins (W : Pairing) (m n : Machine) : Prop where
  left : m.heap = W.left
  right : n.heap = W.right
  sound : W.Sound
  stack : List.Forall₂ (ValueRel W.Live) m.stack.toList n.stack.toList
  frames : List.Forall₂ (FrameRel W.Live) m.frames.toList n.frames.toList
  globals : W.Live none m.globals n.globals
  lastPopped : ValueRel W.Live m.lastPopped n.lastPopped
  resolvers : m.resolver = none ∧ n.resolver = none
  capacity : m.settings.stackCapacity = n.settings.stackCapacity
  maxFrames : m.settings.maxFrames = n.settings.maxFrames

/-- Results that are the same up to handles; none tells of a handle that does not resolve. -/
inductive ResultRel (S : Correspondence) : RunResult → RunResult → Prop where
  | finished {v w : Value} : ValueRel S v w → ResultRel S (.finished v) (.finished w)
  | failed {e : ScriptError} : e ≠ .runtime .invalidHandle → ResultRel S (.failed e) (.failed e)
  | unfinished : ResultRel S .unfinished .unfinished

/-- Frames stay in step when the pairing is extended. -/
theorem FrameRel.extend {W W' : Pairing} {f g : Frame} (h : FrameRel W.Live f g) (hext : W.Extends W') : FrameRel W'.Live f g :=
  ⟨h.code, h.ip, h.base, hext.live h.env⟩

/-- Values stay the same up to handles when the pairing is extended. -/
theorem ValueRel.extend {W W' : Pairing} {v w : Value} (h : ValueRel W.Live v w) (hext : W.Extends W') : ValueRel W'.Live v w :=
  h.imp fun _ _ _ _ _ => hext.live

namespace Twins

variable {W W' : Pairing} {m n : Machine}

/-- Twins on later heaps. -/
theorem extend (h : Twins W m n) (hext : W.Extends W') (hW' : W'.Sound) :
    Twins W' { m with heap := W'.left } { n with heap := W'.right } where
  left := rfl
  right := rfl
  sound := hW'
  stack := h.stack.imp fun _ _ hvw => hvw.extend hext
  frames := h.frames.imp fun _ _ hfg => hfg.extend hext
  globals := hext.live h.globals
  lastPopped := h.lastPopped.extend hext
  resolvers := h.resolvers
  capacity := h.capacity
  maxFrames := h.maxFrames

/-- Twins with stacks that are the same up to handles are twins. -/
theorem withStack (h : Twins W m n) {s t : Array Value} (hst : List.Forall₂ (ValueRel W.Live) s.toList t.toList) :
    Twins W { m with stack := s } { n with stack := t } :=
  ⟨h.left, h.right, h.sound, hst, h.frames, h.globals, h.lastPopped, h.resolvers, h.capacity, h.maxFrames⟩

/-- Twins with frames that are in step are twins. -/
theorem withFrames (h : Twins W m n) {s t : Array Frame} (hst : List.Forall₂ (FrameRel W.Live) s.toList t.toList) :
    Twins W { m with frames := s } { n with frames := t } :=
  ⟨h.left, h.right, h.sound, h.stack, hst, h.globals, h.lastPopped, h.resolvers, h.capacity, h.maxFrames⟩

/-- Twins with discarded values that are the same up to handles are twins. -/
theorem withLastPopped (h : Twins W m n) {v w : Value} (hvw : ValueRel W.Live v w) :
    Twins W { m with lastPopped := v } { n with lastPopped := w } :=
  ⟨h.left, h.right, h.sound, h.stack, h.frames, h.globals, hvw, h.resolvers, h.capacity, h.maxFrames⟩

/-- Twins have stacks of one height. -/
theorem stack_size (h : Twins W m n) : m.stack.size = n.stack.size := by
  have hlen := h.stack.length_eq
  rwa [Array.length_toList, Array.length_toList] at hlen

theorem frames_size (h : Twins W m n) : m.frames.size = n.frames.size := by
  have hlen := h.frames.length_eq
  rwa [Array.length_toList, Array.length_toList] at hlen

end Twins

/-! ## Judgements -/

section Judgement

variable {α β γ δ : Type}

/-- How a part of a machine's work goes on both machines. -/
inductive Goes (W : Pairing) (P : Pairing → α → β → Prop) :
    EStateM.Result RuntimeError Machine α → EStateM.Result RuntimeError Machine β → Prop where
  | ok {W' : Pairing} {a : α} {b : β} {m n : Machine} : W.Extends W' → Twins W' m n → P W' a b → Goes W P (.ok a m) (.ok b n)
  | error {W' : Pairing} {e : RuntimeError} {m n : Machine} : W.Extends W' → Twins W' m n → e ≠ .invalidHandle →
      Goes W P (.error e m) (.error e n)

variable {W : Pairing} {P : Pairing → α → β → Prop} {Q : Pairing → γ → δ → Prop} {m n : Machine}

namespace Goes

theorem pure (h : Twins W m n) {a : α} {b : β} (hab : P W a b) : Goes W P (.ok a m) (.ok b n) := .ok (.refl W) h hab

/-- Failing goes on as on twins, unless a handle dangles. -/
theorem throw (h : Twins W m n) {e : RuntimeError} (he : e ≠ .invalidHandle) : Goes W P (.error e m) (.error e n) :=
  .error (.refl W) h he

/-- What goes on over an extended pairing goes on over the pairing. -/
theorem of_extends {W' : Pairing} (hext : W.Extends W') {r : EStateM.Result RuntimeError Machine α}
    {s : EStateM.Result RuntimeError Machine β} (h : Goes W' P r s) : Goes W P r s := by
  cases h with
  | ok hext' h hab => exact .ok (hext.trans hext') h hab
  | error hext' h he => exact .error (hext.trans hext') h he

/-- Parts in sequence go on when the first does, and the second does from where the first leaves the machines. -/
theorem bind {x : MachineM α} {y : MachineM β} {f : α → MachineM γ} {g : β → MachineM δ} (h : Goes W P (x m) (y n))
    (hfg : ∀ W' a b m' n', W.Extends W' → Twins W' m' n' → P W' a b → Goes W' Q (f a m') (g b n')) :
    Goes W Q ((x >>= f) m) ((y >>= g) n) := by
  change Goes W Q (EStateM.bind x f m) (EStateM.bind y g n)
  unfold EStateM.bind
  generalize x m = r at h
  generalize y n = s at h
  cases h with
  | ok hext h hab => exact (hfg _ _ _ _ _ hext h hab).of_extends hext
  | error hext h he => exact .error hext h he

end Goes

namespace Twins

/-- An operation on the heaps. -/
theorem onHeap {x : HeapM α} {y : HeapM β} (h : Twins W m n) (hxy : Ends W P (x W.left) (y W.right)) :
    Goes W P (MachineM.onHeap x m) (MachineM.onHeap y n) := by
  rw [MachineM.onHeap_eq, MachineM.onHeap_eq, h.left, h.right]
  generalize x W.left = r at hxy
  generalize y W.right = s at hxy
  cases hxy with
  | ok hext hW' hab => exact .ok hext (h.extend hext hW') hab
  | error hext hW' he => exact .error hext (h.extend hext hW') he

/-- A look at the heaps leaves the machines as they are. -/
theorem look_bind {R : α → β → Prop} {x : Heap → Except RuntimeError α} {y : Heap → Except RuntimeError β} {f : α → MachineM γ}
    {g : β → MachineM δ} (h : Twins W m n) (hxy : BothOk R (x W.left) (y W.right))
    (hfg : ∀ a b, R a b → Goes W Q (f a m) (g b n)) :
    Goes W Q ((MachineM.onHeap (HeapM.read x) >>= f) m) ((MachineM.onHeap (HeapM.read y) >>= g) n) := by
  obtain ⟨a, b, hx, hy, hab⟩ := hxy
  rw [← h.left] at hx
  rw [← h.right] at hy
  change Goes W Q (EStateM.bind (MachineM.onHeap (HeapM.read x)) f m) (EStateM.bind (MachineM.onHeap (HeapM.read y)) g n)
  unfold EStateM.bind
  rw [MachineM.onHeap_eq, MachineM.onHeap_eq, HeapM.read, HeapM.read, hx, hy]
  exact hfg a b hab

/-! ## Operands -/

/-- A push goes on as on twins. -/
theorem push (h : Twins W m n) {v w : Value} (hvw : ValueRel W.Live v w) : Goes W Done (MachineM.push v m) (MachineM.push w n) := by
  unfold MachineM.push
  rw [h.capacity, h.stack_size]
  split
  · exact .throw h (by simp)
  · refine .pure (h.withStack ?_) trivial
    rw [Array.toList_push, Array.toList_push]
    exact List.rel_append h.stack (.cons hvw .nil)

/-- The values on top are the same, and so is the rest. -/
theorem back? (h : Twins W m n) : Option.Rel (ValueRel W.Live) m.stack.back? n.stack.back? := by
  rw [Array.back?_eq_getElem?, Array.back?_eq_getElem?, h.stack_size, ← Array.getElem?_toList, ← Array.getElem?_toList]
  exact getElem?_rel h.stack _

/-- Work on a popped operand goes on when it does for every pair of operands. -/
theorem pop_bind {f : Value → MachineM γ} {g : Value → MachineM δ} (h : Twins W m n)
    (hfg : ∀ v w m' n', Twins W m' n' → ValueRel W.Live v w → Goes W Q (f v m') (g w n')) :
    Goes W Q ((MachineM.pop >>= f) m) ((MachineM.pop >>= g) n) := by
  change Goes W Q (EStateM.bind MachineM.pop f m) (EStateM.bind MachineM.pop g n)
  have hback := h.back?
  unfold EStateM.bind MachineM.pop
  generalize m.stack.back? = x at hback
  generalize n.stack.back? = y at hback
  cases hback with
  | none => exact .throw h (by simp)
  | some hvw =>
    refine hfg _ _ _ _ (h.withStack ?_) hvw
    rw [Array.toList_pop, Array.toList_pop, List.dropLast_eq_take, List.dropLast_eq_take, h.stack.length_eq]
    exact List.forall₂_take _ h.stack

/-- Work on the top operand goes on when it does for every pair of operands. -/
theorem peek_bind {f : Value → MachineM γ} {g : Value → MachineM δ} (h : Twins W m n)
    (hfg : ∀ v w, ValueRel W.Live v w → Goes W Q (f v m) (g w n)) :
    Goes W Q ((MachineM.peek >>= f) m) ((MachineM.peek >>= g) n) := by
  change Goes W Q (EStateM.bind MachineM.peek f m) (EStateM.bind MachineM.peek g n)
  have hback := h.back?
  unfold EStateM.bind MachineM.peek MachineM.read
  dsimp only
  generalize m.stack.back? = x at hback
  generalize n.stack.back? = y at hback
  cases hback with
  | none => exact .throw h (by simp)
  | some hvw => exact hfg _ _ hvw

/-- Work on several operands goes on when it does for all of them in pairs. -/
theorem popMany_bind {f : Array Value → MachineM γ} {g : Array Value → MachineM δ} (h : Twins W m n) (count : Nat)
    (hfg : ∀ s t m' n', Twins W m' n' → List.Forall₂ (ValueRel W.Live) s.toList t.toList → Goes W Q (f s m') (g t n')) :
    Goes W Q ((MachineM.popMany count >>= f) m) ((MachineM.popMany count >>= g) n) := by
  change Goes W Q (EStateM.bind (MachineM.popMany count) f m) (EStateM.bind (MachineM.popMany count) g n)
  unfold EStateM.bind MachineM.popMany
  rw [h.stack_size]
  by_cases hfew : n.stack.size < count
  · rw [if_pos hfew, if_pos hfew]
    exact .throw h (by simp)
  · rw [if_neg hfew, if_neg hfew]
    dsimp only
    refine hfg _ _ _ _ (h.withStack ?_) ?_
    · rw [Array.toList_shrink, Array.toList_shrink]
      exact List.forall₂_take _ h.stack
    · rw [Array.toList_extract, Array.toList_extract]
      exact List.forall₂_take _ (List.forall₂_drop _ h.stack)

/-- Cutting the stack goes on as on twins. -/
theorem truncate (h : Twins W m n) (height : Nat) : Goes W Done (MachineM.truncate height m) (MachineM.truncate height n) := by
  refine Goes.pure (h.withStack ?_) trivial
  rw [Array.toList_shrink, Array.toList_shrink]
  exact List.forall₂_take _ h.stack

/-! ## Frames -/

/-- Twins whose innermost frames are changed in the same way. -/
theorem withFrame (h : Twins W m n) {f g : Frame → Frame} (hfg : ∀ {x y}, FrameRel W.Live x y → FrameRel W.Live (f x) (g y)) :
    Twins W { m with frames := m.frames.modify (m.frames.size - 1) f }
      { n with frames := n.frames.modify (n.frames.size - 1) g } := by
  refine h.withFrames ?_
  rw [Array.toList_modify, Array.toList_modify, h.frames_size]
  exact modify_rel h.frames fun _ _ hxy => hfg hxy

/-- A change of the innermost frame goes on as on twins. -/
theorem modifyFrame (h : Twins W m n) {f g : Frame → Frame} (hfg : ∀ {x y}, FrameRel W.Live x y → FrameRel W.Live (f x) (g y)) :
    Goes W Done (MachineM.modifyFrame f m) (MachineM.modifyFrame g n) := .pure (h.withFrame hfg) trivial

/-- The innermost frames of twins are in step. -/
theorem innermost (h : Twins W m n) : Option.Rel (FrameRel W.Live) m.frames.back? n.frames.back? := by
  rw [Array.back?_eq_getElem?, Array.back?_eq_getElem?, h.frames_size, ← Array.getElem?_toList, ← Array.getElem?_toList]
  exact getElem?_rel h.frames _

/-- Work on the innermost frame goes on when it does for every pair of frames. -/
theorem frame_bind {f : Frame → MachineM γ} {g : Frame → MachineM δ} (h : Twins W m n)
    (hfg : ∀ x y, FrameRel W.Live x y → Goes W Q (f x m) (g y n)) :
    Goes W Q ((MachineM.frame >>= f) m) ((MachineM.frame >>= g) n) := by
  change Goes W Q (EStateM.bind MachineM.frame f m) (EStateM.bind MachineM.frame g n)
  have hback := h.innermost
  unfold EStateM.bind MachineM.frame MachineM.read
  dsimp only
  generalize m.frames.back? = x at hback
  generalize n.frames.back? = y at hback
  cases hback with
  | none => exact .throw h (by simp)
  | some hfg' => exact hfg _ _ hfg'

/-- A jump goes on as on twins. -/
theorem jump (h : Twins W m n) (source : Nat) (offset : Int32) (length : Nat) :
    Goes W Done (MachineM.jump source offset length m) (MachineM.jump source offset length n) := by
  unfold MachineM.jump
  by_cases hout : (source : Int) + offset.toInt < 0 ∨ (length : Int) < (source : Int) + offset.toInt
  · rw [if_pos hout]
    exact .throw h (by simp)
  · rw [if_neg hout]
    exact h.modifyFrame fun hxy => ⟨hxy.code, rfl, hxy.base, hxy.env⟩

/-! ## Instructions -/

/-- Loading a constant goes on as on twins. -/
theorem loadConstant (h : Twins W m n) (hr : W.Room) (c : Constant) :
    Goes W Done (MachineM.loadConstant c m) (MachineM.loadConstant c n) := by
  cases c with
  | null => exact h.push (.plain rfl)
  | bool x => exact h.push (.plain rfl)
  | num x => exact h.push (.plain rfl)
  | text s => exact (h.onHeap (h.sound.allocText hr s)).bind fun _ _ _ _ _ _ h' hvw => h'.push hvw
  | error message => exact (h.onHeap (h.sound.errorValue hr message)).bind fun _ _ _ _ _ _ h' hvw => h'.push hvw

/-- Loading a name goes on as on twins: the name is found on both sides, or on neither. -/
theorem loadName (h : Twins W m n) {a b : Handle} (hab : W.Live none a b) (name : String) :
    Goes W Done ((do match ← MachineM.read (·.resolve a name) with
      | some value => MachineM.push value
      | none => throw (.undefinedName name) : MachineM Unit) m)
      ((do match ← MachineM.read (·.resolve b name) with
      | some value => MachineM.push value
      | none => throw (.undefinedName name) : MachineM Unit) n) := by
  have hlookup := h.sound.lookup hab name
  rw [← h.left, ← h.right] at hlookup
  obtain ⟨x, y, hx, hy, hxy⟩ := hlookup
  have hm : MachineM.read (·.resolve a name) m = .ok x m := by
    simp only [MachineM.read, Machine.resolve, h.resolvers.1, hx]
  have hn : MachineM.read (·.resolve b name) n = .ok y n := by
    simp only [MachineM.read, Machine.resolve, h.resolvers.2, hy]
  refine Goes.bind (P := fun W' x y => SameValue? W' x y) ?_ fun W' x y m' n' _ h' hxy => ?_
  · rw [hm, hn]
    exact .pure h hxy
  · cases hxy with
    | none => exact .throw h' (by simp)
    | some hvw => exact h'.push hvw

/-- A binary operator goes on as on twins. -/
theorem binary (h : Twins W m n) (hr : W.Room) (op : BinaryOp) : Goes W Done (MachineM.binary op m) (MachineM.binary op n) := by
  refine h.pop_bind fun v w m₁ n₁ h₁ hvw => h₁.pop_bind fun v' w' m₂ n₂ h₂ hvw' => ?_
  have hpush : ∀ W' a b m' n', W.Extends W' → Twins W' m' n' → SameValue W' a b → Goes W' Done (MachineM.push a m') (MachineM.push b n') :=
    fun _ _ _ _ _ _ h' hab => h'.push hab
  have hequal (f : Bool → Bool) : Ends W SameValue
      (HeapM.read (fun h => return .bool (f (← h.equal v' v))) W.left)
      (HeapM.read (fun h => return .bool (f (← h.equal w' w))) W.right) := by
    refine (Ends.read (R := fun x y => ∃ c, x = Value.bool c ∧ y = .bool c) h.sound ?_).imp ?_
    · refine (h.sound.equal hvw' hvw).bind ?_
      rintro c _ rfl
      exact .pure ⟨f c, rfl, rfl⟩
    · rintro W' _ _ _ ⟨c, rfl, rfl⟩
      exact .plain rfl
  cases op with
  | equal => exact (h₂.onHeap (hequal id)).bind hpush
  | notEqual => exact (h₂.onHeap (hequal not)).bind hpush
  | arith op => exact (h₂.onHeap (h.sound.binary hr hvw' hvw _)).bind hpush
  | order op => exact (h₂.onHeap (h.sound.binary hr hvw' hvw _)).bind hpush

/-- A unary operator goes on as on twins. -/
theorem unary (h : Twins W m n) (hr : W.Room) (op : UnaryOp) : Goes W Done (MachineM.unary op m) (MachineM.unary op n) := by
  refine h.pop_bind fun v w m₁ n₁ h₁ hvw => ?_
  exact (h₁.onHeap (h.sound.unary hr hvw op)).bind fun _ _ _ _ _ _ h' hab => h'.push hab

/-- A conditional jump goes on as on twins: truth is the same on both sides. -/
theorem jumpBy (h : Twins W m n) (kind : JumpKind) (next : Nat) (offset : Int32) (length : Nat) :
    Goes W Done (MachineM.jumpBy kind next offset length m) (MachineM.jumpBy kind next offset length n) := by
  cases kind with
  | forward => exact h.jump next offset length
  | loop => exact h.jump next offset length
  | ifFalse =>
    refine h.pop_bind fun v w m₁ n₁ h₁ hvw => h₁.look_bind (h.sound.truthy hvw) ?_
    rintro c _ rfl
    cases c with
    | true => exact .pure h₁ trivial
    | false => exact h₁.jump next offset length
  | ifTrue =>
    refine h.pop_bind fun v w m₁ n₁ h₁ hvw => h₁.look_bind (h.sound.truthy hvw) ?_
    rintro c _ rfl
    cases c with
    | true => exact h₁.jump next offset length
    | false => exact .pure h₁ trivial

/-- Entering a scope goes on as on twins. -/
theorem enterScope (h : Twins W m n) (hr : W.Room) {a b : Handle} (hab : W.Live none a b) :
    Goes W Done ((do
      let scope ← MachineM.onHeap (HeapM.allocEnvironment (some a))
      MachineM.modifyFrame fun f => { f with env := scope } : MachineM Unit) m)
      ((do
      let scope ← MachineM.onHeap (HeapM.allocEnvironment (some b))
      MachineM.modifyFrame fun f => { f with env := scope } : MachineM Unit) n) := by
  refine (h.onHeap (h.sound.allocEnvironment hr hab)).bind fun W' c d m₁ n₁ _ h₁ hcd => ?_
  exact h₁.modifyFrame fun hxy => ⟨hxy.code, hxy.ip, hxy.base, hcd⟩

/-- Leaving a scope goes on as on twins. -/
theorem exitScope (h : Twins W m n) {a b : Handle} (hab : W.Live none a b) :
    Goes W Done (MachineM.exitScope a m) (MachineM.exitScope b n) := by
  refine h.look_bind (h.sound.environment hab) ?_
  rintro ⟨t, p⟩ ⟨u, q⟩ ⟨-, hpq⟩
  cases hpq with
  | none => exact .throw h (by simp)
  | some hcd => exact h.modifyFrame fun hxy => ⟨hxy.code, hxy.ip, hxy.base, hcd⟩

/-- Operands that are the same up to handles make such pairs. -/
theorem pairUp_rel {S : Correspondence} {l k : List Value} (h : List.Forall₂ (ValueRel S) l k) :
    List.Forall₂ (PairRel (ValueRel S) (ValueRel S)) (MachineM.pairUp l) (MachineM.pairUp k) := by
  induction l using MachineM.pairUp.induct generalizing k with
  | case1 a b rest ih =>
    cases h with
    | cons h₁ h =>
      cases h with
      | cons h₂ h => exact .cons ⟨h₁, h₂⟩ (ih h)
  | case2 l hl =>
    cases h with
    | nil => exact .nil
    | cons h₁ h =>
      cases h with
      | nil => exact .nil
      | cons h₂ h => exact absurd rfl (hl _ _ _)

/-- Making an iterator goes on as on twins. -/
theorem getIter (h : Twins W m n) (hr : W.Room) : Goes W Done (MachineM.getIter m) (MachineM.getIter n) := by
  refine h.pop_bind fun v w m₁ n₁ h₁ hvw => ?_
  refine (h₁.onHeap (h.sound.allocIterator hr hvw)).bind fun W' x y m₂ n₂ _ h₂ hxy => ?_
  cases hxy with
  | some hit => exact h₂.push hit
  | none =>
    dsimp only
    rw [hvw.kindName]
    exact .throw h₂ (by simp)

/-- Pushing what a walk yields goes on as on twins. -/
theorem pushYield (h : Twins W m n) {x y : Yield} (hxy : YieldRel W.Live x y) :
    Goes W Done (MachineM.pushYield x m) (MachineM.pushYield y n) := by
  cases hxy with
  | one hvw => exact h.push hvw
  | two hvw hvw' =>
    exact (h.push hvw).bind fun W' _ _ m' n' hext h' _ => h'.push (hvw'.extend hext)

/-- An iteration step goes on as on twins. -/
theorem iterNext (h : Twins W m n) (arity : UInt8) (next : Nat) (offset : Int32) (length : Nat) :
    Goes W Done (MachineM.iterNext arity next offset length m) (MachineM.iterNext arity next offset length n) := by
  refine h.peek_bind fun v w hvw => ?_
  cases hvw with
  | plain hv =>
    cases v with
    | ref kind a => nomatch hv
    | _ => exact .throw h (by simp)
  | @ref kind a b hab =>
    cases kind with
    | iterator =>
      refine h.look_bind ((h.sound.iterator hab).bind fun t u htu => h.sound.next htu arity) ?_
      rintro ⟨x, t⟩ ⟨y, u⟩ ⟨hxy, htu⟩
      cases hxy with
      | none => exact h.pop_bind fun _ _ m' n' h' _ => h'.jump next offset length
      | some hyield =>
        refine (h.onHeap (h.sound.setTraversal hab htu)).bind fun W' _ _ m' n' hext h' _ => h'.pushYield ?_
        cases hyield with
        | one hvw => exact .one (hvw.extend hext)
        | two hvw hvw' => exact .two (hvw.extend hext) (hvw'.extend hext)
    | _ => exact .throw h (by simp)

/-! ## Calls -/

/-- Defining several names ends the same way on both sides. -/
theorem defineAll {a b : Handle} {l k : List (String × Value)} (hW : W.Sound) (hab : W.Live none a b)
    (h : List.Forall₂ (fun x y => x.1 = y.1 ∧ ValueRel W.Live x.2 y.2) l k) :
    Ends W Done (HeapM.defineAll a l W.left) (HeapM.defineAll b k W.right) := by
  induction l generalizing W k with
  | nil =>
    cases h
    exact .pure hW trivial
  | cons x l ih =>
    cases h with
    | @cons _ y _ _ hxy hrest =>
      obtain ⟨name, v⟩ := x
      obtain ⟨_, w⟩ := y
      obtain ⟨rfl, hvw⟩ := hxy
      refine (hW.define hab hvw name).bind fun W' _ _ hext hW' _ => ?_
      exact ih hW' (hext.live hab) (hrest.imp fun _ _ hxy => ⟨hxy.1, hxy.2.extend hext⟩)

/-- Calling a closure goes on as on twins. -/
theorem callFunction (h : Twins W m n) (hr : W.Room) {f g : Closure} (hfg : ClosureRel W.Live f g) (callee argc : Nat) :
    Goes W Done (MachineM.callFunction f callee argc m) (MachineM.callFunction g callee argc n) := by
  obtain ⟨code, env⟩ := f
  obtain ⟨_, env'⟩ := g
  obtain ⟨rfl, henv⟩ := hfg
  rw [MachineM.callFunction_eq, MachineM.callFunction_eq, h.maxFrames, h.frames_size]
  dsimp only
  split
  · exact .throw h (by simp)
  · split
    · exact .throw h (by simp)
    · split
      · exact .throw h (by simp)
      · refine (h.onHeap (h.sound.allocEnvironment hr henv)).bind fun W₁ c d m₁ n₁ hext₁ h₁ hcd => ?_
        have hargs : List.Forall₂ (ValueRel W₁.Live) (m.stack.extract (callee + 1) m.stack.size).toList
            (n.stack.extract (callee + 1) n.stack.size).toList := by
          rw [Array.toList_extract, Array.toList_extract, h.stack_size]
          exact List.forall₂_take _ (List.forall₂_drop _ (h.stack.imp fun _ _ hvw => hvw.extend hext₁))
        refine (h₁.onHeap (defineAll h₁.sound hcd (zip_rel code.params hargs))).bind fun W₂ _ _ m₂ n₂ hext₂ h₂ _ => ?_
        refine (h₂.truncate (callee + 1)).bind fun W₃ _ _ m₃ n₃ hext₃ h₃ _ => ?_
        refine .pure (h₃.withFrames ?_) trivial
        rw [Array.toList_push, Array.toList_push]
        exact List.rel_append h₃.frames (.cons ⟨rfl, rfl, rfl, hext₃.live (hext₂.live hcd)⟩ .nil)

/-- Calling native code goes on as on twins. -/
theorem callNative (h : Twins W m n) (hr : W.Room) {f g : Native} (hfg : BuiltinRel f g) (callee argc : Nat) :
    Goes W Done (MachineM.callNative f callee argc m) (MachineM.callNative g callee argc n) := by
  obtain ⟨rfl, c, hc⟩ := hfg
  rw [MachineM.callNative_eq, MachineM.callNative_eq]
  split
  · exact .throw h (by simp)
  · refine h.popMany_bind argc fun s t m₁ n₁ h₁ hst => ?_
    rw [hc]
    refine (h₁.onHeap (h.sound.callBuiltin hr c hst)).bind fun W₂ v w m₂ n₂ _ h₂ hvw => ?_
    exact (h₂.truncate callee).bind fun W₃ _ _ m₃ n₃ hext₃ h₃ _ => h₃.push (ValueRel.extend hvw hext₃)

/-- A call goes on as on twins: the callee is of one kind on both sides. -/
theorem callValue (h : Twins W m n) (hr : W.Room) (argc : Nat) :
    Goes W Done (MachineM.callValue argc m) (MachineM.callValue argc n) := by
  rw [MachineM.callValue_eq, MachineM.callValue_eq, h.stack_size]
  split
  · exact .throw h (by simp)
  · have hcallee := getD_rel h.stack (n.stack.size - (argc + 1))
    generalize m.stack.getD (n.stack.size - (argc + 1)) .null = v at hcallee
    generalize n.stack.getD (n.stack.size - (argc + 1)) .null = w at hcallee
    cases hcallee with
    | plain hv =>
      cases v with
      | ref kind a => nomatch hv
      | _ => exact .throw h (by simp)
    | @ref kind a b hab =>
      cases kind with
      | function => exact h.look_bind (h.sound.function hab) fun f g hfg => h.callFunction hr hfg _ _
      | native => exact h.look_bind (h.sound.native hab) fun f g hfg => h.callNative hr hfg _ _
      | _ => exact .throw h (by simp)

/-- A return goes on as on twins. -/
theorem returnValue (h : Twins W m n) {v w : Value} (hvw : ValueRel W.Live v w) :
    Goes W SameValue? (MachineM.returnValue v m) (MachineM.returnValue w n) := by
  have hback := h.innermost
  rw [MachineM.returnValue_eq, MachineM.returnValue_eq]
  generalize m.frames.back? = x at hback
  generalize n.frames.back? = y at hback
  cases hback with
  | none => exact .throw h (by simp)
  | @some f g hfg =>
    have hframes : List.Forall₂ (FrameRel W.Live) m.frames.pop.toList n.frames.pop.toList := by
      rw [Array.toList_pop, Array.toList_pop, List.dropLast_eq_take, List.dropLast_eq_take, h.frames.length_eq]
      exact List.forall₂_take _ h.frames
    have hstack : List.Forall₂ (ValueRel W.Live) (m.stack.shrink g.base).toList (n.stack.shrink g.base).toList := by
      rw [Array.toList_shrink, Array.toList_shrink]
      exact List.forall₂_take _ h.stack
    have h₁ := (h.withFrames hframes).withStack hstack
    have hempty : m.frames.pop.isEmpty = n.frames.pop.isEmpty := by
      rw [Array.isEmpty, Array.isEmpty, Array.size_pop, Array.size_pop, h.frames_size]
    dsimp only
    rw [hempty, hfg.base]
    by_cases hlast : n.frames.pop.isEmpty = true
    · rw [if_pos hlast, if_pos hlast]
      exact .pure h₁ (.some hvw)
    · rw [if_neg hlast, if_neg hlast]
      exact (h₁.push hvw).bind fun W' _ _ m' n' _ h' _ => .pure h' .none

/-- Every instruction but a return goes on as on twins. -/
theorem execute (h : Twins W m n) (hr : W.Room) {f g : Frame} (hfg : FrameRel W.Live f g) (next : Nat) (i : Instruction) :
    Goes W Done (MachineM.execute f next i m) (MachineM.execute g next i n) := by
  cases i with
  | load c => exact h.loadConstant hr c
  | loadName name => exact h.loadName hfg.env name
  | storeName name => exact h.pop_bind fun v w m₁ n₁ h₁ hvw => h₁.onHeap (h.sound.define hfg.env hvw name)
  | setName name => exact h.peek_bind fun v w hvw => h.onHeap (h.sound.assign hfg.env hvw name)
  | pop => exact h.pop_bind fun v w m₁ n₁ h₁ hvw => .pure (h₁.withLastPopped hvw) trivial
  | binary op => exact h.binary hr op
  | unary op => exact h.unary hr op
  | jump kind offset =>
    unfold MachineM.execute
    rw [hfg.code]
    exact h.jumpBy kind next offset _
  | enterScope => exact h.enterScope hr hfg.env
  | exitScope => exact h.exitScope hfg.env
  | buildArray count =>
    refine h.popMany_bind _ fun s t m₁ n₁ h₁ hst => ?_
    exact (h₁.onHeap (h.sound.allocRef hr (.array hst) rfl trivial)).bind fun _ _ _ _ _ _ h' hvw => h'.push hvw
  | buildMap pairs =>
    refine h.popMany_bind _ fun s t m₁ n₁ h₁ hst => ?_
    exact (h₁.onHeap (h.sound.allocMap hr (pairUp_rel hst))).bind fun _ _ _ _ _ _ h' hvw => h'.push hvw
  | buildRange =>
    refine h.pop_bind fun v w m₁ n₁ h₁ hvw => h₁.pop_bind fun v' w' m₂ n₂ h₂ hvw' => ?_
    refine h₂.pop_bind fun v'' w'' m₃ n₃ h₃ hvw'' => ?_
    exact (h₃.onHeap (h.sound.buildRange hr hvw'' hvw' hvw)).bind fun _ _ _ _ _ _ h' hab => h'.push hab
  | index =>
    refine h.pop_bind fun v w m₁ n₁ h₁ hvw => h₁.pop_bind fun v' w' m₂ n₂ h₂ hvw' => ?_
    exact (h₂.onHeap (h.sound.index hr hvw' hvw)).bind fun _ _ _ _ _ _ h' hab => h'.push hab
  | getMember name =>
    refine h.pop_bind fun v w m₁ n₁ h₁ hvw => ?_
    exact (h₁.onHeap (h.sound.member hr hvw name)).bind fun _ _ _ _ _ _ h' hab => h'.push hab
  | getIter => exact h.getIter hr
  | iterNext arity offset =>
    unfold MachineM.execute
    rw [hfg.code]
    exact h.iterNext arity next offset _
  | call argc => exact h.callValue hr argc.toNat
  | makeFunction p =>
    unfold MachineM.execute
    rw [hfg.code]
    refine (h.onHeap (h.sound.allocRef hr (.function hfg.env) rfl trivial)).bind fun _ _ _ _ _ _ h' hab => h'.push hab
  | ret => exact .pure h trivial

/-! ## Steps -/

/-- A step goes on as on twins, once collections are out of the way. -/
theorem advance (h : Twins W m n) (hr : W.Room) : Goes W SameValue? (MachineM.advance m) (MachineM.advance n) := by
  refine h.frame_bind fun f g hfg => ?_
  have hfetch : MachineM.fetch f = MachineM.fetch g := by
    unfold MachineM.fetch
    rw [hfg.code, hfg.ip]
  rw [hfetch]
  change Goes W SameValue? (EStateM.bind (MachineM.fetch g) _ m) (EStateM.bind (MachineM.fetch g) _ n)
  unfold EStateM.bind MachineM.fetch
  cases Instruction.decode g.code.instructions g.ip with
  | error e => exact .throw h (by simp)
  | ok iw =>
    obtain ⟨i, width⟩ := iw
    have h₁ := h.withFrame (f := fun f => { f with ip := g.ip + width }) (g := fun f => { f with ip := g.ip + width })
      fun hxy => ⟨hxy.code, rfl, hxy.base, hxy.env⟩
    have hexec := (h₁.execute hr hfg (g.ip + width) i).bind (f := fun _ => pure none) (g := fun _ => pure none)
      fun W' _ _ m' n' _ h' _ => Goes.pure (P := SameValue?) h' .none
    have hret := h₁.pop_bind (f := MachineM.returnValue) (g := MachineM.returnValue) fun v w m' n' h' hvw => h'.returnValue hvw
    cases i
    case ret => exact hret
    all_goals exact hexec

end Twins

end Judgement

/-! ## Collections -/

namespace Twins

variable {W : Pairing} {m n : Machine}

/-- The roots correspond. -/
theorem roots (h : Twins W m n) : List.Forall₂ (fun a b => ∃ kind, W.Live kind a b) m.roots n.roots := by
  refine List.rel_append (List.rel_append ?_ ?_) (.cons ⟨_, h.globals⟩ ?_)
  · exact List.rel_filterMap (fun _ _ hvw => hvw.handle?) h.stack
  · rw [List.forall₂_map_left_iff, List.forall₂_map_right_iff]
    exact h.frames.imp fun _ _ hfg => ⟨_, hfg.env⟩
  · exact Option.Rel.toList_forall₂ h.lastPopped.handle?

/-- Twins after a collection on either side, or on none. -/
theorem shrink (h : Twins W m n) {l r : Heap} (hl : W.left.Shrinks m.roots l) (hr : W.right.Shrinks n.roots r)
    (hlive : l.limit = none ∨ l.live = r.live) :
    Twins (Pairing.mk l r W.same) { m with heap := l } { n with heap := r } := by
  have hroot : ∀ {kind a b}, W.Live kind a b → a ∈ m.roots → b ∈ n.roots → (Pairing.mk l r W.same).Live kind a b :=
    fun hab ha hb => live_shrink hl hr hab (.root ha) (.root hb)
  constructor
  case left => rfl
  case right => rfl
  case sound => exact h.sound.shrink hl hr hlive
  case stack =>
    refine forall₂_imp_mem h.stack fun v hv w hw hvw => hvw.imp fun kind a b ha hb hab => hroot hab ?_ ?_
    · exact List.mem_append_left _ (List.mem_append_left _ (List.mem_filterMap.2 ⟨v, hv, ha⟩))
    · exact List.mem_append_left _ (List.mem_append_left _ (List.mem_filterMap.2 ⟨w, hw, hb⟩))
  case frames =>
    refine forall₂_imp_mem h.frames fun f hf g hg hfg => ⟨hfg.code, hfg.ip, hfg.base, hroot hfg.env ?_ ?_⟩
    · exact List.mem_append_left _ (List.mem_append_right _ (List.mem_map_of_mem hf))
    · exact List.mem_append_left _ (List.mem_append_right _ (List.mem_map_of_mem hg))
  case globals => exact hroot h.globals (List.mem_append_right _ List.mem_cons_self) (List.mem_append_right _ List.mem_cons_self)
  case lastPopped =>
    refine h.lastPopped.imp fun kind a b ha hb hab => hroot hab ?_ ?_
    · exact List.mem_append_right _ (List.mem_cons_of_mem _ (Option.mem_toList.2 ha))
    · exact List.mem_append_right _ (List.mem_cons_of_mem _ (Option.mem_toList.2 hb))
  case resolvers => exact h.resolvers
  case capacity => exact h.capacity
  case maxFrames => exact h.maxFrames

/-- Either nothing bounds the heaps, or the machines are one and the same. -/
def Synced (m n : Machine) : Prop := m.heap.limit = none ∨ m = n

/-- Collections on one and the same machine keep all its objects on both sides. -/
theorem whole_collected (h : Twins W m m) (hwhole : W.Whole) :
    (Pairing.mk m.collected.heap m.collected.heap W.same).Whole := by
  obtain ⟨l, r, same⟩ := W
  obtain rfl : m.heap = l := h.left
  obtain rfl : m.heap = r := h.right
  unfold Machine.collected
  by_cases hdue : m.heap.shouldCollect = true
  · rw [if_pos hdue]
    exact h.sound.whole_collect h.roots
  · rw [if_neg hdue]
    exact hwhole

/-- Twins after the collections that may be due, each on its own. -/
theorem collected (h : Twins W m n) (hm : m.collected.Bounded) (hn : n.collected.Bounded) (hsync : Synced m n) :
    ∃ W', Twins W' m.collected n.collected ∧ (m = n → W.Whole → W'.Whole) := by
  have hshrink : ∀ {k : Machine}, k.heap.Tidy → k.collected.Bounded →
      k.heap.Shrinks k.roots k.collected.heap ∧ { k with heap := k.collected.heap } = k.collected := by
    intro k ht hb
    unfold Machine.collected at hb ⊢
    by_cases hdue : k.heap.shouldCollect = true
    · rw [if_pos hdue] at hb ⊢
      exact ⟨.collect ht hb.2 _, rfl⟩
    · rw [if_neg hdue] at hb ⊢
      exact ⟨.refl ht _, rfl⟩
  obtain ⟨hl, heql⟩ := hshrink (h.left ▸ h.sound.tidyLeft) hm
  obtain ⟨hr, heqr⟩ := hshrink (h.right ▸ h.sound.tidyRight) hn
  have hlive : m.collected.heap.limit = none ∨ m.collected.heap.live = n.collected.heap.live := by
    rcases hsync with hnone | rfl
    · exact .inl (hl.limit.trans hnone)
    · exact .inr rfl
  rw [h.left] at hl
  rw [h.right] at hr
  have htwins := h.shrink hl hr hlive
  rw [heql, heqr] at htwins
  refine ⟨_, htwins, ?_⟩
  rintro rfl hwhole
  exact h.whole_collected hwhole

/-! ## Runs -/

theorem abandon (h : Twins W m n) : Twins W m.abandon n.abandon := (h.withStack .nil).withFrames .nil

/-- A step goes in the same way on both machines. -/
theorem step (h : Twins W m n) (hm : m.collected.Bounded) (hn : n.collected.Bounded) (hsync : Synced m n) :
    ∃ W', Goes W' SameValue? (MachineM.step m) (MachineM.step n) ∧ (m = n → W.Whole → W'.Whole) := by
  obtain ⟨W', h', hwhole⟩ := h.collected hm hn hsync
  rw [MachineM.step_eq, MachineM.step_eq]
  refine ⟨W', h'.advance ⟨?_, ?_⟩, hwhole⟩
  · rw [← h'.left]
    exact hm.1
  · rw [← h'.right]
    exact hn.1

/-- A step leaves the limit of objects. -/
theorem limit_step (m : Machine) : (machineAfter (MachineM.step m)).heap.limit = m.heap.limit := by
  rw [MachineM.step_eq]
  refine (Machine.leaves_advance m.collected).grows.limit.trans ?_
  unfold Machine.collected
  split <;> rfl

/-- So does a run, for as long as handles tell all slots apart. -/
theorem steps (fuel : Nat) (h : Twins W m n) (hm : (Machine.steps fuel m).2.Bounded) (hn : (Machine.steps fuel n).2.Bounded)
    (hsync : Synced m n) : ∃ W', Twins W' (Machine.steps fuel m).2 (Machine.steps fuel n).2 ∧
      ResultRel W'.Live (Machine.steps fuel m).1 (Machine.steps fuel n).1 ∧ (m = n → W.Whole → W'.Whole) := by
  induction fuel generalizing W m n with
  | zero => exact ⟨W, h, .unfinished, fun _ hwhole => hwhole⟩
  | succ fuel ih =>
    have hages : ∀ k : Machine, k.collected.Ages (Machine.steps (fuel + 1) k).2 := Machine.ages_steps_succ (Machine.ages_steps fuel)
    obtain ⟨W₁, hgoes, hwhole₁⟩ := h.step (hm.of_ages (hages m)) (hn.of_ages (hages n)) hsync
    have hlimit := limit_step m
    unfold Machine.steps at hm hn ⊢
    cases hs : MachineM.step m with
    | error e m' =>
      cases hs' : MachineM.step n with
      | error e' n' =>
        rw [hs, hs'] at hgoes
        cases hgoes with
        | error hext h' he =>
          exact ⟨_, h'.abandon, .failed (by simpa using he), fun heq hwhole => hext.whole (hwhole₁ heq hwhole)⟩
      | ok r n' =>
        rw [hs, hs'] at hgoes
        cases hgoes
    | ok r m' =>
      cases hs' : MachineM.step n with
      | error e' n' =>
        rw [hs, hs'] at hgoes
        cases hgoes
      | ok r' n' =>
        rw [hs, hs'] at hgoes
        rw [hs] at hm hlimit
        rw [hs'] at hn
        cases hgoes with
        | ok hext h' hr =>
          cases hr with
          | some hvw => exact ⟨_, h', .finished hvw, fun heq hwhole => hext.whole (hwhole₁ heq hwhole)⟩
          | none =>
            have hsync' : Synced m' n' := by
              rcases hsync with hnone | rfl
              · exact .inl (hlimit.trans hnone)
              · rw [hs] at hs'
                cases hs'
                exact .inr rfl
            obtain ⟨W₂, h₂, hres, hwhole₂⟩ := ih h' hm hn hsync'
            refine ⟨W₂, h₂, hres, fun heq hwhole => hwhole₂ ?_ (hext.whole (hwhole₁ heq hwhole))⟩
            subst heq
            rw [hs] at hs'
            cases hs'
            rfl

/-- Twins that start one module are twins. -/
theorem start (h : Twins W m n) (image : Image) : Twins W (m.start image) (n.start image) :=
  (h.withStack .nil).withFrames (.cons ⟨rfl, rfl, rfl, h.globals⟩ .nil)

/-- A module runs in the same way on both machines. -/
theorem run (fuel : Nat) (bytes : List UInt8) (h : Twins W m n) (hm : (m.run fuel bytes).2.Bounded)
    (hn : (n.run fuel bytes).2.Bounded) (hsync : Synced m n) : ∃ W', Twins W' (m.run fuel bytes).2 (n.run fuel bytes).2 ∧
      ResultRel W'.Live (m.run fuel bytes).1 (n.run fuel bytes).1 ∧ (m = n → W.Whole → W'.Whole) := by
  unfold Machine.run at hm hn ⊢
  cases hd : Image.decode bytes with
  | error e => exact ⟨W, h, .failed (by simp), fun _ hwhole => hwhole⟩
  | ok image =>
    rw [hd] at hm hn
    have hsync' : Synced (m.start image) (n.start image) := by
      rcases hsync with hnone | rfl
      · exact .inl hnone
      · exact .inr rfl
    obtain ⟨W', h', hres, hwhole⟩ := (h.start image).steps fuel hm hn hsync'
    refine ⟨W', h', hres, ?_⟩
    rintro rfl
    exact hwhole rfl

end Twins

/-! ## New machines -/

/-- Two empty heaps. -/
theorem Pairing.sound_empty {s t : Settings} (hlimit : s.maxHeapObjects = t.maxHeapObjects) :
    (Pairing.mk (.ofSettings s) (.ofSettings t) fun _ _ _ => False).Sound := by
  have htidy : ∀ s : Settings, (Heap.ofSettings s).Tidy := by
    intro s
    constructor
    case toSparse => exact Heap.sparse_ofSettings s
    case generation =>
      intro i slot hslot
      simp [Heap.ofSettings] at hslot
    case collections => exact (by decide : 0 < UInt32.size)
  constructor
  case oneToOne => exact fun h => h.elim
  case issued => exact fun h => h.elim
  case object => exact fun h => h.elim
  case keyed =>
    rintro a o ⟨kind, b, h⟩
    exact h.1.elim
  case nestedLeft =>
    refine ⟨fun _ => 0, ?_⟩
    rintro a o ⟨kind, b, h⟩
    exact h.1.elim
  case nestedRight =>
    refine ⟨fun _ => 0, ?_⟩
    rintro a o ⟨kind, b, h⟩
    exact h.1.elim
  case tidyLeft => exact htidy s
  case tidyRight => exact htidy t
  case limit => exact hlimit
  case live => exact .inr rfl

namespace Twins

variable {W : Pairing} {m n m' n' : Machine}

/-- Defining a native lets the heap grow. -/
theorem grows_defineNative {k : Native} (h : Machine.defineNative k m = .ok () m') : m.heap.Grows m'.heap := by
  obtain ⟨v, h₁, h₂, ha, hd, rfl⟩ := Machine.defineNative_eq_ok h
  have halloc : Plain (HeapM.allocRef .native (.native k)) := Plain.allocRef rfl rfl
  have hgrows := halloc.grows m.heap
  have hgrows' := (Plain.define m.globals k.name v).grows h₁
  rw [ha] at hgrows
  rw [hd] at hgrows'
  exact hgrows.trans hgrows'

/-- A builtin defined on both sides. -/
theorem defineNative (h : Twins W m n) (hr : W.Room) {k : Native} (hk : ∃ b, k.code = .builtin b)
    (hm : Machine.defineNative k m = .ok () m') (hn : Machine.defineNative k n = .ok () n') :
    ∃ W', Twins W' m' n' ∧ W.Extends W' := by
  obtain ⟨v, l, l', ha, hd, rfl⟩ := Machine.defineNative_eq_ok hm
  obtain ⟨w, r, r', ha', hd', rfl⟩ := Machine.defineNative_eq_ok hn
  obtain ⟨b, hb⟩ := hk
  have hrel : ObjectRel W.same W.Live (.native k) (.native k) := by
    obtain ⟨name, arity, code⟩ := k
    obtain rfl : code = .builtin b := hb
    exact .native name arity b
  have halloc := h.sound.allocRef hr hrel rfl trivial
  rw [← h.left, ← h.right, ha, ha'] at halloc
  cases halloc with
  | @ok W₁ _ _ hext₁ hW₁ hvw =>
    have hdefine := hW₁.define (hext₁.live h.globals) hvw k.name
    rw [hd, hd'] at hdefine
    cases hdefine with
    | ok hext₂ hW₂ _ => exact ⟨_, h.extend (hext₁.trans hext₂) hW₂, hext₁.trans hext₂⟩

theorem grows_defineNatives {ks : List Native} (h : ks.forM Machine.defineNative m = .ok () m') : m.heap.Grows m'.heap := by
  induction ks generalizing m with
  | nil =>
    cases h
    exact .refl _
  | cons k ks ih =>
    obtain ⟨m₁, hd, hrest⟩ := Machine.defineNatives_cons h
    exact (grows_defineNative hd).trans (ih hrest)

/-- A new machine has the limit of its settings. -/
theorem limit_ofSettings {s : Settings} (h : Machine.ofSettings s = .ok m) : m.heap.limit = s.maxHeapObjects := by
  obtain ⟨globals, heap, ha, hdefs⟩ := Machine.ofSettings_eq_ok h
  have hgrows := (Plain.alloc (o := .environment { parent := none }) rfl rfl).grows (.ofSettings s)
  rw [ha] at hgrows
  exact (grows_defineNatives hdefs).limit.trans hgrows.limit

/-- Twins stay twins when the builtins are defined on both, with all their objects. -/
theorem defineNatives {ks : List Native} (hks : ∀ k ∈ ks, ∃ b, k.code = .builtin b) (h : Twins W m n) (hwhole : W.Whole)
    (hm : ks.forM Machine.defineNative m = .ok () m') (hn : ks.forM Machine.defineNative n = .ok () n') (hbm : m'.Bounded)
    (hbn : n'.Bounded) : ∃ W', Twins W' m' n' ∧ W'.Whole := by
  induction ks generalizing W m n with
  | nil =>
    cases hm
    cases hn
    exact ⟨W, h, hwhole⟩
  | cons k ks ih =>
    have hroom : W.Room := by
      rw [Pairing.Room, ← h.left, ← h.right]
      exact ⟨(hbm.of_ages (Machine.ages_of_grows (grows_defineNatives hm))).1,
        (hbn.of_ages (Machine.ages_of_grows (grows_defineNatives hn))).1⟩
    obtain ⟨m₁, hd, hrest⟩ := Machine.defineNatives_cons hm
    obtain ⟨n₁, hd', hrest'⟩ := Machine.defineNatives_cons hn
    obtain ⟨W₁, h₁, hext⟩ := h.defineNative hroom (hks k List.mem_cons_self) hd hd'
    exact ih (fun k hk => hks k (List.mem_cons_of_mem _ hk)) h₁ (hext.whole hwhole) hrest hrest'

/-- New machines are twins, whatever their thresholds. -/
theorem ofSettings {s t : Settings} (hcapacity : s.stackCapacity = t.stackCapacity) (hframes : s.maxFrames = t.maxFrames)
    (hlimit : s.maxHeapObjects = t.maxHeapObjects) (hm : Machine.ofSettings s = .ok m) (hn : Machine.ofSettings t = .ok n)
    (hbm : m.Bounded) (hbn : n.Bounded) : ∃ W, Twins W m n ∧ W.Whole := by
  obtain ⟨globals, l, ha, hdefs⟩ := Machine.ofSettings_eq_ok hm
  obtain ⟨globals', r, ha', hdefs'⟩ := Machine.ofSettings_eq_ok hn
  have hroom : ∀ s : Settings, (Heap.ofSettings s).Room := fun _ => (by decide : 0 < UInt32.size)
  have halloc := (Pairing.sound_empty hlimit).alloc ⟨hroom s, hroom t⟩
    (.environment (p := none) (q := none) (.withChains Table.initialChains) .none) trivial
  have hbuiltin : ∀ k ∈ Builtin.natives, ∃ b, k.code = .builtin b := by
    intro k hk
    obtain ⟨b, -, rfl⟩ := List.mem_map.1 hk
    exact ⟨b, rfl⟩
  change Ends _ _ (HeapM.alloc (.environment { parent := none }) (.ofSettings s))
    (HeapM.alloc (.environment { parent := none }) (.ofSettings t)) at halloc
  rw [ha, ha'] at halloc
  cases halloc with
  | ok hext hW hglobals =>
    have htwins : Twins _ { heap := _, globals, settings := s } { heap := _, globals := globals', settings := t } :=
      ⟨rfl, rfl, hW, .nil, .nil, hglobals, .plain rfl, ⟨rfl, rfl⟩, hcapacity, hframes⟩
    refine defineNatives hbuiltin htwins (hext.whole fun a o ho => ?_) hdefs hdefs' hbm hbn
    obtain ⟨slot, hslot, -⟩ := Heap.get?_eq_some.1 ho
    simp [Heap.ofSettings] at hslot

end Twins

end ScriptVM
