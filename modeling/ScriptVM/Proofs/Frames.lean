import ScriptVM.Proofs.Collection
import ScriptVM.Proofs.Discipline
import ScriptVM.Proofs.Simulation

/-!
# Frames of verified code

A machine is `Secure` when every closure on its heap has verified code, and each of its frames has come to a position where its code
fits the operands and scopes the frame has. The innermost frame goes on from there, its callers wait for a value. An instruction
does what its layout says (`safe_execute`), enters a function (`safe_call`) or leaves one, and the machine stays secure.

The operands of the callers are never touched: all of an instruction's work is described above those `below` the frame.
-/

namespace ScriptVM

open Heap (maxSlots)

/-! ## Heaps of verified closures -/

namespace Heap

/-- Every closure on the heap has verified code. -/
def Trusted (h : Heap) : Prop := ∀ i f, h.closureAt i = some f → Verified f.code.instructions.toList

/-- A later heap with no collection in between, on which no closure is worse than those before. -/
structure Evolves (h h' : Heap) : Prop where
  grows : h.Grows h'
  trusted : h.Trusted → h'.Trusted

theorem Evolves.refl (h : Heap) : h.Evolves h := ⟨.refl h, id⟩

theorem Evolves.trans {h h' h'' : Heap} (e : h.Evolves h') (e' : h'.Evolves h'') : h.Evolves h'' :=
  ⟨e.grows.trans e'.grows, e'.trusted ∘ e.trusted⟩

/-- An environment has so many environments around it. -/
def Deep (h : Heap) : Nat → Handle → Prop
  | 0, _ => True
  | n + 1, a => ∃ e parent, h.get? a = some (.environment e) ∧ e.parent = some parent ∧ h.Deep n parent

/-- While handles tell all slots apart, the heap is sparse, and an environment has so many environments around it. -/
def Surrounds (h : Heap) (n : Nat) (a : Handle) : Prop := h.slots.size < maxSlots → h.Sparse ∧ h.Deep n a

variable {h h' : Heap} {n : Nat} {a : Handle}

/-- An environment is as deep in every heap that keeps objects and their parents. -/
theorem Deep.transfer (hkept : ∀ a o, h.get? a = some o → ∃ o', h'.get? a = some o' ∧ o'.parent? = o.parent?)
    (hd : h.Deep n a) : h'.Deep n a := by
  induction n generalizing a with
  | zero => trivial
  | succ n ih =>
    obtain ⟨e, parent, he, hp, hd⟩ := hd
    obtain ⟨o', ho', hparent⟩ := hkept a _ he
    cases o' with
    | environment e' =>
      refine ⟨e', parent, ho', ?_, ih hd⟩
      rw [← hp]
      exact Option.some.inj hparent
    | _ => nomatch hparent

/-- An environment keeps those around it while the heap grows. -/
theorem Surrounds.grow (hs : h.Surrounds n a) (hg : h.Grows h') : h'.Surrounds n a := by
  intro hsize
  obtain ⟨hsparse, hdeep⟩ := hs (Nat.lt_of_le_of_lt hg.size hsize)
  obtain ⟨hsparse', hkept⟩ := hg.kept hsize hsparse
  exact ⟨hsparse', hdeep.transfer hkept⟩

/-- A collection keeps an environment that it reaches, and those around it. -/
theorem Deep.collect {roots : List Handle} (hd : h.Deep n a) (hu : h.Unmarked) (ha : h.Reachable roots a) :
    (h.collect roots).Deep n a := by
  induction n generalizing a with
  | zero => trivial
  | succ n ih =>
    obtain ⟨e, parent, he, hp, hd⟩ := hd
    have hparent : h.Reachable roots parent := .reference ha he (by simp [Object.references, hp])
    exact ⟨e, parent, (get?_collect hu).2 ⟨he, ha⟩, hp, ih hd hparent⟩

/-- An environment that is a root keeps those around it through a collection. -/
theorem Surrounds.collect {roots : List Handle} (hs : h.Surrounds n a) (ha : a ∈ roots) : (h.collect roots).Surrounds n a := by
  intro hsize
  rw [size_collect] at hsize
  obtain ⟨hsparse, hdeep⟩ := hs hsize
  exact ⟨hsparse.collect, hdeep.collect hsparse.unmarked (.root ha)⟩

theorem Trusted.collect {roots : List Handle} (ht : h.Trusted) : (h.collect roots).Trusted := by
  intro i f hf
  refine ht i f ?_
  unfold closureAt at hf ⊢
  rw [slots_collect] at hf
  cases hs : h.slots[i]? with
  | none => simp [hs] at hf
  | some s =>
    rw [hs] at hf
    simp only [Option.map_some, Option.bind_some] at hf ⊢
    split at hf
    · exact hf
    · simp [object_release] at hf

/-- Without frames, all there is to say is that the heap is sparse. -/
theorem Surrounds.zero (hs : h.Surrounds n a) (b : Handle) : h.Surrounds 0 b := fun hsize => ⟨(hs hsize).1, trivial⟩

end Heap

/-- An operation on the heap that leaves it as trusted as it was, and is at no fault. -/
structure Tame {α : Type} (x : HeapM α) : Prop where
  evolves : ∀ h : Heap, h.Evolves (heapAfter (x h))
  errors : ∀ h e h', x h = .error e h' → e.isFault = false

/-- A plain operation makes no closure, so it is tame. -/
theorem Plain.tame {α : Type} {x : HeapM α} (hx : Plain x) : Tame x :=
  ⟨fun h => ⟨hx.grows h, fun ht i f hf => ht i f (hx.closures h i f hf)⟩, hx.errors⟩

/-- A look at the heap is tame. -/
theorem tame_read {α : Type} {g : Heap → Except RuntimeError α} (hg : ∀ h, Looks (g h)) : Tame (HeapM.read g) := by
  constructor
  · intro h
    unfold HeapM.read
    cases g h <;> exact .refl h
  · intro h e h' hr
    unfold HeapM.read at hr
    cases hl : g h with
    | ok a =>
      rw [hl] at hr
      nomatch hr
    | error e' =>
      rw [hl] at hr
      cases hr
      exact (hg h).isFault hl

/-- A closure of verified code may be made. -/
theorem tame_function {f : Closure} (hf : Verified f.code.instructions.toList) : Tame (HeapM.allocRef .function (.function f)) := by
  constructor
  · intro h
    rw [HeapM.allocRef_eq]
    split
    · exact .refl h
    · refine ⟨Heap.grows_place, fun ht i g hg => ?_⟩
      rcases Heap.closureAt_place hg with ⟨-, hnew⟩ | ⟨-, hold⟩
      · cases hnew
        exact hf
      · exact ht i g hold
  · intro h e h' hr
    rw [HeapM.allocRef_eq] at hr
    split at hr
    · cases hr
      rfl
    · nomatch hr

/-! ## Operands -/

/-- A value is what a layout says of an operand. -/
def Value.HasKind (v : Value) : OperandKind → Prop
  | .value => True
  | .iterator => ∃ a, v = .ref .iterator a

/-- Above the operands `below`, the stack has operands as a layout lists them, the top one first. -/
inductive Laid (below : List Value) : List Value → List OperandKind → Prop where
  | base : Laid below below []
  | push {v : Value} {k : OperandKind} {stack : List Value} {ks : List OperandKind} :
      v.HasKind k → Laid below stack ks → Laid below (stack ++ [v]) (k :: ks)

namespace Laid

variable {below stack : List Value} {ks : List OperandKind} {n : Nat}

/-- A value pushed on top is laid out as one. -/
theorem value (h : Laid below stack ks) (v : Value) : Laid below (stack ++ [v]) (.value :: ks) := .push trivial h

/-- As many operands as the layout has may be taken. -/
theorem split (h : Laid below stack ks) (hn : n ≤ ks.length) :
    ∃ rest taken, stack = rest ++ taken ∧ taken.length = n ∧ Laid below rest (ks.drop n) := by
  induction n generalizing stack ks with
  | zero => exact ⟨stack, [], by simp, rfl, h⟩
  | succ n ih =>
    cases h with
    | base => simp at hn
    | @push v k stack ks hv h =>
      obtain ⟨rest, taken, rfl, ht, hrest⟩ := ih h (by simpa using hn)
      exact ⟨rest, taken ++ [v], by simp, by simp [ht], hrest⟩

/-- The stack holds the operands below and as many as the layout lists. -/
theorem length (h : Laid below stack ks) : stack.length = below.length + ks.length := by
  induction h with
  | base => simp
  | push _ _ ih => simp [ih, Nat.add_assoc]

/-- Under what the layout lists are the operands below. -/
theorem take (h : Laid below stack ks) : stack.take below.length = below := by
  induction h with
  | base => exact List.take_length
  | push _ h ih =>
    rw [List.take_append_of_le_length (by rw [h.length]; omega)]
    exact ih

end Laid

/-! ## Positions -/

/-- The bytes of closed code whose functions are verified. -/
structure Vetted (bytes : List UInt8) (code : List Instruction) : Prop where
  bytes_eq : bytes = encodeAll code
  checked : Checked code
  closed : Closed 0 code
  functions : ∀ p, .makeFunction p ∈ code → Verified p.body

/-- Verified bytes are those of closed code that fits the empty layout, for any number of instructions. -/
theorem Verified.vetted {bytes : List UInt8} (h : Verified bytes) : ∃ code, Vetted bytes code ∧ ∀ n, Fits code n 0 {} := by
  cases h with
  | @mk front hc hclosed hfits hfunctions =>
    refine ⟨front ++ [.ret], ⟨rfl, hc, hclosed.followed (.singleton rfl), fun p hp => hfunctions p ?_⟩, hfits⟩
    simpa using hp

/-- The code of a frame fits a layout from its position on. -/
def Frame.Placed (f : Frame) (σ : Layout) : Prop := ∃ code, Vetted f.code.instructions.toList code ∧ ∀ n, Fits code n f.ip σ

/-- What a frame finds at its position: an instruction that finds the operands it needs, and leads to positions of the frame. -/
theorem Frame.Placed.next {f : Frame} {σ : Layout} (h : f.Placed σ) :
    ∃ i paths, Instruction.decode f.code.instructions f.ip = .ok (i, i.width) ∧ i.after (f.ip + i.width) σ = some paths ∧
      (∀ q ∈ paths, q.1 ≤ f.code.instructions.size ∧ Placed { f with ip := q.1 } q.2) ∧
      ∀ p, i = .makeFunction p → Verified p.body := by
  obtain ⟨code, hv, hfits⟩ := h
  obtain ⟨i, paths, hi, hafter, hpaths⟩ := Fits.next hfits
  have hbytes : f.code.instructions = (encodeAll code).toArray := by rw [← hv.bytes_eq]
  refine ⟨i, paths, by rw [hbytes]; exact hi.decode hv.checked, hafter, fun q hq => ⟨?_, code, hv, hpaths q hq⟩, ?_⟩
  · obtain ⟨j, _, hj, -⟩ := Fits.next (hpaths q hq)
    rw [hbytes, List.size_toArray, length_encodeAll]
    exact hj.le
  · rintro p rfl
    exact hv.functions p hi.mem

/-- The position of a frame is one of those that its code is listed with. -/
theorem Frame.Placed.listed {f : Frame} {σ : Layout} (h : f.Placed σ) :
    ∃ listed, decodeStream f.code.instructions.toList = .ok listed ∧ ∃ l ∈ listed, l.offset = f.ip := by
  obtain ⟨code, hv, hfits⟩ := h
  obtain ⟨i, _, hi, -⟩ := Fits.next hfits
  refine ⟨locate 0 code, ?_, ⟨0 + f.ip, i⟩, mem_locate hi 0, Nat.zero_add _⟩
  rw [hv.bytes_eq]
  exact decodeStream_encodeAll hv.checked hv.closed.inside

/-- The callers of a call under way, the innermost last, and the operands up to the function called: each caller waits for a value
in the place of the function it has called. -/
inductive Waits (h : Heap) : Array Frame → List Value → Prop where
  | none : Waits h #[] []
  | call {outer : Array Frame} {f : Frame} {σ : Layout} {below stack : List Value} {callee : Value} : Waits h outer below →
      f.Placed (σ.push [.value]) → h.Surrounds σ.scopes f.env → f.base = below.length - 1 → Laid below stack σ.operands →
      Waits h (outer.push f) (stack ++ [callee])

/-- Callers wait on while the heap grows. -/
theorem Waits.grow {h h' : Heap} {outer : Array Frame} {below : List Value} (hw : Waits h outer below) (hg : h.Grows h') :
    Waits h' outer below := by
  induction hw with
  | none => exact .none
  | call _ hp hs hb hl ih => exact .call ih hp (hs.grow hg) hb hl

/-- Callers wait on through a collection from roots among which their environments are. -/
theorem Waits.collect {h : Heap} {roots : List Handle} {outer : Array Frame} {below : List Value} (hw : Waits h outer below)
    (hroots : ∀ f ∈ outer, f.env ∈ roots) : Waits (h.collect roots) outer below := by
  induction hw with
  | none => exact .none
  | call _ hp hs hb hl ih =>
    exact .call (ih fun f hf => hroots f (Array.mem_push_of_mem _ hf)) hp (hs.collect (hroots _ Array.mem_push_self)) hb hl

/-- Every caller is placed at a layout of its code. -/
theorem Waits.placed {h : Heap} {outer : Array Frame} {below : List Value} (hw : Waits h outer below) :
    ∀ f ∈ outer, ∃ σ, f.Placed σ := by
  induction hw with
  | none => simp
  | call _ hp _ _ _ ih =>
    intro f hf
    rcases Array.mem_push.1 hf with hf | rfl
    · exact ih f hf
    · exact ⟨_, hp⟩

/-- A machine that runs verified code: its innermost frame has what its code needs above the operands `below`, and its callers wait
for it. -/
inductive Machine.Secure : Machine → Prop where
  | mk {c : Activation} {ip : Nat} {env : Handle} {stack below : List Value} {heap : Heap} {last : Value} {σ : Layout} :
      heap.Trusted → Waits heap c.outer below → Frame.Placed ⟨c.code, ip, env, c.base⟩ σ → heap.Surrounds σ.scopes env →
      c.base = below.length - 1 → Laid below stack σ.operands → Secure (c.at ip env stack heap last)

/-! ## Safe work -/

/-- From a heap on, a part of a machine's work ends as described, or with an error that is no fault. An exit that no scope is left
for takes more slots than handles can tell apart. -/
def Safe {α : Type} (h : Heap) (r : EStateM.Result RuntimeError Machine α) (post : α → Machine → Prop) : Prop :=
  match r with
  | .ok a m => post a m
  | .error e m => h.Evolves m.heap ∧ m.resolver = none ∧ (e.isFault = true → e = noScope ∧ maxSlots ≤ m.heap.slots.size)

namespace Safe

variable {α β : Type} {h heap : Heap} {c : Activation} {ip : Nat} {env : Handle} {stack : List Value} {last : Value}

/-- What is safe is so with weaker ends. -/
theorem imp {r : EStateM.Result RuntimeError Machine α} {P Q : α → Machine → Prop} (hr : Safe h r P) (hPQ : ∀ a m, P a m → Q a m) :
    Safe h r Q := by
  cases r with
  | ok a m => exact hPQ a m hr
  | error e m => exact hr

/-- Two safe parts in sequence are safe. -/
theorem bind {x : MachineM α} {k : α → MachineM β} {m : Machine} {P : α → Machine → Prop} {Q : β → Machine → Prop}
    (hx : Safe h (x m) P) (hk : ∀ a m', P a m' → Safe h (k a m') Q) : Safe h ((x >>= k) m) Q := by
  change Safe h (EStateM.bind x k m) Q
  unfold EStateM.bind
  cases hr : x m with
  | ok a m' =>
    rw [hr] at hx
    exact hk a m' hx
  | error e m' =>
    rw [hr] at hx
    exact hx

/-- Failing is safe, unless the code is to blame for the error. -/
theorem throw {e : RuntimeError} {Q : α → Machine → Prop} (hh : h.Evolves heap) (he : e.isFault = false) :
    Safe h ((MonadExcept.throw e : MachineM α) (c.at ip env stack heap last)) Q :=
  ⟨hh, rfl, fun hfault => by simp [he] at hfault⟩

theorem push {v : Value} (hh : h.Evolves heap) : Safe h (MachineM.push v (c.at ip env stack heap last))
    fun _ m => m = c.at ip env (stack ++ [v]) heap last := by
  rw [Activation.push_at]
  split
  · exact ⟨hh, rfl, fun hfault => nomatch hfault⟩
  · exact rfl

/-- Tame work on the heap is safe. -/
theorem onHeap {x : HeapM α} (hx : Tame x) (hh : h.Evolves heap) : Safe h (MachineM.onHeap x (c.at ip env stack heap last))
    fun a m => ∃ heap', x heap = .ok a heap' ∧ h.Evolves heap' ∧ m = c.at ip env stack heap' last := by
  have hevolves := hh.trans (hx.evolves heap)
  rw [Activation.onHeap_at]
  cases hr : x heap with
  | ok a heap' =>
    rw [hr] at hevolves
    exact ⟨heap', rfl, hevolves, rfl⟩
  | error e heap' =>
    rw [hr] at hevolves
    refine ⟨hevolves, rfl, fun hfault => ?_⟩
    rw [hx.errors heap e heap' hr] at hfault
    nomatch hfault

/-- A look at the heap, which stays as it is. -/
theorem look {g : Heap → Except RuntimeError α} (hg : ∀ h, Looks (g h)) (hh : h.Evolves heap) :
    Safe h (MachineM.onHeap (HeapM.read g) (c.at ip env stack heap last))
      fun a m => g heap = .ok a ∧ m = c.at ip env stack heap last := by
  refine (onHeap (tame_read hg) hh).imp ?_
  rintro a m ⟨heap', hr, -, rfl⟩
  unfold HeapM.read at hr
  cases hl : g heap with
  | ok b =>
    rw [hl] at hr
    cases hr
    exact ⟨rfl, rfl⟩
  | error e =>
    rw [hl] at hr
    nomatch hr

end Safe

/-! ## Instructions -/

/-- The machine is at one of the positions that an instruction leads to, with the operands and scopes of the layout there. -/
def Arrives (c : Activation) (below : List Value) (h : Heap) (paths : List (Nat × Layout)) (m : Machine) : Prop :=
  ∃ q ∈ paths, ∃ env stack heap last, m = c.at q.1 env stack heap last ∧ Laid below stack q.2.operands ∧ h.Evolves heap ∧
    heap.Surrounds q.2.scopes env

section

variable {h heap : Heap} {c : Activation} {ip next : Nat} {env : Handle} {stack below : List Value} {last : Value} {σ : Layout}
  {paths : List (Nat × Layout)}

/-- The machine arrives where it is, if that is one of the positions. -/
theorem Arrives.here (hq : (ip, σ) ∈ paths) (hl : Laid below stack σ.operands) (hh : h.Evolves heap)
    (hs : h.Surrounds σ.scopes env) : Arrives c below h paths (c.at ip env stack heap last) :=
  ⟨(ip, σ), hq, env, stack, heap, last, rfl, hl, hh, hs.grow hh.grows⟩

/-- A value is pushed. -/
theorem safe_push {v : Value} (hl : Laid below stack σ.operands) (hh : h.Evolves heap) (hs : h.Surrounds σ.scopes env) :
    Safe h (MachineM.push v (c.at ip env stack heap last)) fun _ => Arrives c below h [(ip, σ.push [.value])] := by
  refine (Safe.push hh).imp ?_
  rintro _ _ rfl
  exact .here (List.mem_singleton_self _) (hl.value v) hh hs

/-- The result of an operation on the heap is pushed. -/
theorem safe_result {x : HeapM Value} (hx : Tame x) (hl : Laid below stack σ.operands) (hh : h.Evolves heap)
    (hs : h.Surrounds σ.scopes env) : Safe h ((do MachineM.push (← MachineM.onHeap x)) (c.at ip env stack heap last))
      fun _ => Arrives c below h [(ip, σ.push [.value])] := by
  refine (Safe.onHeap hx hh).bind ?_
  rintro v _ ⟨heap', -, hh', rfl⟩
  exact safe_push hl hh' hs

/-- A jump to a position inside the code. -/
theorem safe_jump {target : Nat} {offset : Int32} (hlands : landing? next offset = some target) {length : Nat}
    (hle : target ≤ length) (hq : (target, σ) ∈ paths) (hl : Laid below stack σ.operands) (hh : h.Evolves heap)
    (hs : h.Surrounds σ.scopes env) :
    Safe h (MachineM.jump next offset length (c.at ip env stack heap last)) fun _ => Arrives c below h paths := by
  rw [Activation.jump_at (landing?_eq_some.1 hlands) hle]
  exact Arrives.here hq hl hh hs

/-- What does not find its operands leads nowhere. -/
theorem Instruction.takes_le {i : Instruction} (h : i.after next σ = some paths) : i.takes ≤ σ.operands.length := by
  unfold after at h
  split at h
  · nomatch h
  · omega

/-- An operator takes its two operands and pushes a value. -/
theorem safe_binary (op : BinaryOp) {v w : Value} (hl : Laid below stack σ.operands) (hs : h.Surrounds σ.scopes env) :
    Safe h (MachineM.binary op (c.at ip env (stack ++ [v] ++ [w]) h last)) fun _ => Arrives c below h [(ip, σ.push [.value])] := by
  unfold MachineM.binary
  rw [Activation.bind_pop_at, Activation.bind_pop_at]
  have hlook : ∀ g : Bool → Bool, ∀ g' : Heap, Looks (do return Value.bool (g (← g'.equal v w)) : Except RuntimeError Value) :=
    fun g g' => (g'.looks_equal v w).bind fun b => Looks.pure _
  cases op with
  | equal => exact safe_result (tame_read (hlook id)) hl (.refl h) hs
  | notEqual => exact safe_result (tame_read (hlook not)) hl (.refl h) hs
  | arith op => exact safe_result (Plain.binary _ v w).tame hl (.refl h) hs
  | order op => exact safe_result (Plain.binary _ v w).tame hl (.refl h) hs

/-- A condition is taken from the stack, and decides what follows. -/
theorem safe_condition {k : Bool → MachineM Unit} {post : Unit → Machine → Prop} (hone : 1 ≤ σ.operands.length)
    (hl : Laid below stack σ.operands)
    (hk : ∀ b rest, Laid below rest (σ.drop 1).operands → Safe h (k b (c.at next env rest h last)) post) :
    Safe h ((do
      let condition ← MachineM.pop
      k (← MachineM.onHeap (HeapM.read (·.truthy condition)))) (c.at next env stack h last)) post := by
  obtain ⟨rest, taken, rfl, htaken, hrest⟩ := hl.split hone
  obtain ⟨v, rfl⟩ := List.length_eq_one_iff.1 htaken
  rw [Activation.bind_pop_at]
  refine (Safe.look (fun g => g.looks_truthy v) (.refl h)).bind ?_
  rintro b _ ⟨-, rfl⟩
  exact hk b rest hrest

/-- A jump goes where its layout says, or on. -/
theorem safe_jumpBy {kind : JumpKind} {offset : Int32} (hafter : (Instruction.jump kind offset).after next σ = some paths)
    (hin : ∀ q ∈ paths, q.1 ≤ c.code.instructions.size) (hl : Laid below stack σ.operands) (hs : h.Surrounds σ.scopes env) :
    Safe h (MachineM.jumpBy kind next offset c.code.instructions.size (c.at next env stack h last))
      fun _ => Arrives c below h paths := by
  have htakes := Instruction.takes_le hafter
  unfold Instruction.after at hafter
  rw [if_neg (Nat.not_lt.2 htakes)] at hafter
  cases kind with
  | forward =>
    obtain ⟨target, hlands, rfl⟩ := Option.map_eq_some_iff.1 hafter
    exact safe_jump hlands (hin (target, σ) (by simp)) (by simp) hl (.refl h) hs
  | loop =>
    obtain ⟨target, hlands, rfl⟩ := Option.map_eq_some_iff.1 hafter
    exact safe_jump hlands (hin (target, σ) (by simp)) (by simp) hl (.refl h) hs
  | ifFalse =>
    obtain ⟨target, hlands, rfl⟩ := Option.map_eq_some_iff.1 hafter
    refine safe_condition htakes hl fun b rest hrest => ?_
    cases b with
    | true => exact Arrives.here List.mem_cons_self hrest (.refl h) hs
    | false => exact safe_jump hlands (hin (target, σ.drop 1) (by simp)) (by simp) hrest (.refl h) hs
  | ifTrue =>
    obtain ⟨target, hlands, rfl⟩ := Option.map_eq_some_iff.1 hafter
    refine safe_condition htakes hl fun b rest hrest => ?_
    cases b with
    | true => exact safe_jump hlands (hin (target, σ.drop 1) (by simp)) (by simp) hrest (.refl h) hs
    | false => exact Arrives.here List.mem_cons_self hrest (.refl h) hs

/-- What is allocated to walk over a value is an iterator. -/
theorem hasKind_allocIterator {v w : Value} {h h' : Heap} (hr : HeapM.allocIterator v h = .ok (some w) h') : w.HasKind .iterator := by
  unfold HeapM.allocIterator at hr
  cases ht : Traversal.start? v with
  | none =>
    rw [ht] at hr
    nomatch hr
  | some t =>
    rw [ht] at hr
    change EStateM.bind (HeapM.allocRef .iterator (.iterator t)) _ h = _ at hr
    rw [EStateM.bind, HeapM.allocRef_eq] at hr
    split at hr
    · rename_i heq
      split at heq
      · nomatch heq
      · cases heq
        cases hr
        exact ⟨_, rfl⟩
    · nomatch hr

/-- What a step of an iterator yields is as many values as it is asked for. -/
theorem safe_pushYield {arity : UInt8} {t t' : Traversal} {g : Heap} {y : Yield} (hy : t.next g arity = .ok (some y, t'))
    (hl : Laid below stack σ.operands) (hh : h.Evolves heap) (hs : h.Surrounds σ.scopes env) :
    Safe h (MachineM.pushYield y (c.at ip env stack heap last))
      fun _ => Arrives c below h [(ip, σ.push (if 2 ≤ arity then [.value, .value] else [.value]))] := by
  rw [Activation.next_eq] at hy
  cases hp : t.nextPair g with
  | error e =>
    rw [hp] at hy
    nomatch hy
  | ok found =>
    rw [hp] at hy
    obtain ⟨pair, t''⟩ := found
    cases pair with
    | none => nomatch hy
    | some pair =>
      obtain rfl : Activation.yieldOf arity pair = y := by
        cases hy
        rfl
      unfold Activation.yieldOf
      by_cases htwo : 2 ≤ arity
      · rw [if_pos htwo, if_pos htwo]
        refine (Safe.push hh).bind ?_
        rintro _ _ rfl
        have hkey : Laid below (stack ++ [pair.1]) (σ.push [.value]).operands := hl.value pair.1
        exact safe_push hkey hh hs
      · rw [if_neg htwo, if_neg htwo]
        exact safe_push hl hh hs

/-- A step of the iterator on top goes on with what it yields, or jumps. -/
theorem safe_iterNext {arity : UInt8} {offset : Int32} (hafter : (Instruction.iterNext arity offset).after next σ = some paths)
    (hin : ∀ q ∈ paths, q.1 ≤ c.code.instructions.size) (hl : Laid below stack σ.operands) (hs : h.Surrounds σ.scopes env) :
    Safe h (MachineM.iterNext arity next offset c.code.instructions.size (c.at next env stack h last))
      fun _ => Arrives c below h paths := by
  have htakes := Instruction.takes_le hafter
  unfold Instruction.after at hafter
  rw [if_neg (Nat.not_lt.2 htakes)] at hafter
  obtain ⟨ks, scopes⟩ := σ
  cases hl with
  | base => simp [Instruction.takes] at htakes
  | @push v k rest ks hv hrest =>
    cases k with
    | value => nomatch hafter
    | iterator =>
      obtain ⟨target, hlands, rfl⟩ := Option.map_eq_some_iff.1 hafter
      obtain ⟨a, rfl⟩ := hv
      unfold MachineM.iterNext
      rw [Activation.bind_peek_at]
      have hlook : ∀ g : Heap, Looks (do (← g.iterator a).next g arity) := fun g =>
        (g.looks_iterator a).bind fun t => t.looks_next g arity
      refine (Safe.look hlook (.refl h)).bind ?_
      rintro ⟨yielded, t⟩ _ ⟨hnext, rfl⟩
      obtain ⟨t₀, -, hnext⟩ := bind_eq_ok.1 hnext
      cases yielded with
      | none =>
        simp only
        rw [Activation.bind_pop_at]
        have hexit : Laid below rest (Layout.drop ⟨.iterator :: ks, scopes⟩ 1).operands := hrest
        exact safe_jump hlands (hin _ (.tail _ (.head _))) (.tail _ (.head _)) hexit (.refl h) hs
      | some y =>
        have hagain : Laid below (rest ++ [.ref .iterator a]) (Layout.mk (.iterator :: ks) scopes).operands := .push ⟨a, rfl⟩ hrest
        refine (Safe.onHeap (Plain.setTraversal a t).tame (.refl h)).bind ?_
        rintro _ _ ⟨heap', -, hh, rfl⟩
        refine (safe_pushYield hnext hagain hh hs).imp fun _ m hm => ?_
        obtain ⟨q, hq, harrives⟩ := hm
        exact ⟨q, List.mem_cons.2 (.inl (List.mem_singleton.1 hq)), harrives⟩

/-- An environment inside another one has one more around it. -/
theorem surrounds_allocEnvironment {a : Handle} {h' : Heap} {n : Nat} (hs : h.Surrounds n env)
    (hr : HeapM.allocEnvironment (some env) h = .ok a h') : h'.Surrounds (n + 1) a := by
  intro hsize
  unfold HeapM.allocEnvironment at hr
  rw [HeapM.alloc_eq] at hr
  split at hr
  · nomatch hr
  · cases hr
    obtain ⟨hsparse, hdeep⟩ := hs (Nat.lt_of_le_of_lt Heap.size_place.1 hsize)
    have hroom : h.Room := Nat.lt_of_le_of_lt Heap.size_place.1 hsize
    obtain ⟨hsparse', hkept⟩ := Heap.grows_place.kept hsize hsparse
    exact ⟨hsparse', _, env, Heap.get?_place_self hsparse hroom, rfl, hdeep.transfer hkept⟩

/-- An environment with another one around it can be left for that one. -/
theorem safe_exitScope {n : Nat} (hl : Laid below stack σ.operands) (hs : h.Surrounds (n + 1) env) :
    Safe h (MachineM.exitScope env (c.at next env stack h last)) fun _ => Arrives c below h [(next, { σ with scopes := n })] := by
  unfold MachineM.exitScope
  refine (Safe.look (fun g => g.looks_environment env) (.refl h)).bind ?_
  rintro e _ ⟨he, rfl⟩
  have hdeep : h.slots.size < maxSlots → ∃ parent, e.parent = some parent ∧ h.Sparse ∧ h.Deep n parent := by
    intro hsize
    obtain ⟨hsparse, e', parent, hget, hp, hdeep⟩ := hs hsize
    simp only [Heap.environment, hget, Except.ok.injEq] at he
    exact ⟨parent, by rw [← he, hp], hsparse, hdeep⟩
  cases hp : e.parent with
  | none =>
    refine ⟨.refl h, rfl, fun _ => ⟨rfl, Nat.le_of_not_lt fun hsize => ?_⟩⟩
    obtain ⟨parent, hp', -⟩ := hdeep hsize
    rw [hp] at hp'
    cases hp'
  | some parent =>
    simp only
    rw [Activation.modifyFrame_at]
    refine ⟨_, .head _, parent, stack, h, last, rfl, hl, .refl h, fun hsize => ?_⟩
    obtain ⟨parent', hp', hsurrounds⟩ := hdeep hsize
    rw [hp] at hp'
    cases hp'
    exact hsurrounds

/-- Every instruction but a call and a return does what its layout says. -/
theorem safe_execute {i : Instruction} (hafter : i.after next σ = some paths)
    (hin : ∀ q ∈ paths, q.1 ≤ c.code.instructions.size) (hfunction : ∀ p, i = .makeFunction p → Verified p.body)
    (hret : i ≠ .ret) (hcall : ∀ argc, i ≠ .call argc) (hl : Laid below stack σ.operands) (hs : h.Surrounds σ.scopes env) :
    Safe h (MachineM.execute ⟨c.code, ip, env, c.base⟩ next i (c.at next env stack h last)) fun _ => Arrives c below h paths := by
  have hpaths := hafter
  have htakes := Instruction.takes_le hafter
  obtain ⟨rest, taken, hstack, htaken, hrest⟩ := hl.split htakes
  have hrest' : Laid below rest (σ.drop i.takes).operands := hrest
  unfold Instruction.after at hafter
  rw [if_neg (Nat.not_lt.2 htakes)] at hafter
  cases i with
  | load k =>
    cases hafter
    cases k with
    | text t => exact safe_result (Plain.allocText t).tame hl (.refl h) hs
    | error message => exact safe_result (Plain.allocError message none).tame hl (.refl h) hs
    | _ => exact safe_push hl (.refl h) hs
  | loadName name =>
    cases hafter
    simp only [MachineM.execute]
    rw [Activation.bind_resolve_at]
    refine (Safe.look (fun g => g.looks_lookup env name) (.refl h)).bind ?_
    rintro found _ ⟨-, rfl⟩
    cases found with
    | some v => exact safe_push hl (.refl h) hs
    | none => exact Safe.throw (.refl h) rfl
  | storeName name =>
    cases hafter
    obtain ⟨v, rfl⟩ := List.length_eq_one_iff.1 htaken
    subst hstack
    simp only [MachineM.execute]
    rw [Activation.bind_pop_at]
    refine (Safe.onHeap (Plain.define env name v).tame (.refl h)).imp ?_
    rintro _ _ ⟨heap', -, hh, rfl⟩
    exact .here (.head _) hrest' hh hs
  | setName name =>
    cases hafter
    obtain ⟨v, rfl⟩ := List.length_eq_one_iff.1 htaken
    subst hstack
    simp only [MachineM.execute]
    rw [Activation.bind_peek_at]
    refine (Safe.onHeap (Plain.assign env name v).tame (.refl h)).imp ?_
    rintro _ _ ⟨heap', -, hh, rfl⟩
    exact .here (.head _) hl hh hs
  | pop =>
    cases hafter
    obtain ⟨v, rfl⟩ := List.length_eq_one_iff.1 htaken
    subst hstack
    simp only [MachineM.execute]
    rw [Activation.bind_pop_at]
    exact ⟨_, .head _, env, rest, h, v, rfl, hrest', .refl h, hs⟩
  | binary op =>
    cases hafter
    obtain ⟨v, w, rfl⟩ := List.length_eq_two.1 htaken
    subst hstack
    rw [List.append_cons]
    exact safe_binary op hrest' hs
  | unary op =>
    cases hafter
    obtain ⟨v, rfl⟩ := List.length_eq_one_iff.1 htaken
    subst hstack
    simp only [MachineM.execute, MachineM.unary]
    rw [Activation.bind_pop_at]
    exact safe_result (Plain.unary op v).tame hrest' (.refl h) hs
  | jump kind offset => exact safe_jumpBy hpaths hin hl hs
  | enterScope =>
    cases hafter
    refine (Safe.onHeap (Plain.allocEnvironment (some env)).tame (.refl h)).bind ?_
    rintro a _ ⟨heap', hr, hh, rfl⟩
    rw [Activation.modifyFrame_at]
    exact ⟨_, .head _, a, stack, heap', last, rfl, hl, hh, surrounds_allocEnvironment hs hr⟩
  | exitScope =>
    obtain ⟨ks, n⟩ := σ
    cases n with
    | zero => cases hafter
    | succ n =>
      cases hafter
      exact safe_exitScope hl hs
  | buildArray count =>
    cases hafter
    subst hstack
    simp only [MachineM.execute]
    have hcount : count.toNat = taken.length := htaken.symm
    rw [hcount, Activation.bind_popMany_at]
    exact safe_result (Plain.allocArray taken.toArray).tame hrest' (.refl h) hs
  | buildMap pairs =>
    cases hafter
    subst hstack
    simp only [MachineM.execute]
    have hcount : pairs.toNat * 2 = taken.length := htaken.symm
    rw [hcount, Activation.bind_popMany_at]
    exact safe_result (Plain.allocMap _).tame hrest' (.refl h) hs
  | buildRange =>
    cases hafter
    obtain ⟨u, v, w, rfl⟩ := List.length_eq_three.1 htaken
    subst hstack
    simp only [MachineM.execute]
    rw [List.append_cons, List.append_cons, Activation.bind_pop_at, Activation.bind_pop_at, Activation.bind_pop_at]
    exact safe_result (Plain.buildRange u v w).tame hrest' (.refl h) hs
  | index =>
    cases hafter
    obtain ⟨v, w, rfl⟩ := List.length_eq_two.1 htaken
    subst hstack
    simp only [MachineM.execute]
    rw [List.append_cons, Activation.bind_pop_at, Activation.bind_pop_at]
    exact safe_result (Plain.index v w).tame hrest' (.refl h) hs
  | getMember name =>
    cases hafter
    obtain ⟨v, rfl⟩ := List.length_eq_one_iff.1 htaken
    subst hstack
    simp only [MachineM.execute]
    rw [Activation.bind_pop_at]
    exact safe_result (Plain.member v name).tame hrest' (.refl h) hs
  | getIter =>
    cases hafter
    obtain ⟨v, rfl⟩ := List.length_eq_one_iff.1 htaken
    subst hstack
    simp only [MachineM.execute, MachineM.getIter]
    rw [Activation.bind_pop_at]
    refine (Safe.onHeap (Plain.allocIterator v).tame (.refl h)).bind ?_
    rintro found _ ⟨heap', hr, hh, rfl⟩
    cases found with
    | none =>
      refine Safe.throw hh ?_
      rw [String.append_assoc]
      exact isFault_typeError _ (by decide)
    | some w =>
      refine (Safe.push hh).imp ?_
      rintro _ _ rfl
      have hpush : Laid below (rest ++ [w]) ((σ.drop 1).push [.iterator]).operands := .push (hasKind_allocIterator hr) hrest
      exact .here (.head _) hpush hh hs
  | iterNext arity offset => exact safe_iterNext hpaths hin hl hs
  | call argc => exact absurd rfl (hcall argc)
  | makeFunction p =>
    cases hafter
    have hverified : Verified p.body := hfunction p rfl
    exact safe_result (tame_function (by simpa using hverified)) hl (.refl h) hs
  | ret => exact absurd rfl hret

/-! ## Calls -/

/-- A call has entered a function: its frame begins above the function called, and the caller waits behind the call. -/
def Enters (c : Activation) (next : Nat) (env : Handle) (below : List Value) (h : Heap) (σ : Layout) (m : Machine) : Prop :=
  ∃ (f : Closure) (scope : Handle) (rest : List Value) (callee : Value) (heap : Heap) (last : Value),
    m = Activation.at ⟨f.code, rest.length, c.outer.push ⟨c.code, next, env, c.base⟩, c.globals, c.settings⟩ 0 scope (rest ++ [callee])
      heap last ∧
    (h.Trusted → Verified f.code.instructions.toList) ∧ Laid below rest σ.operands ∧ h.Evolves heap

/-- A call of a closure enters its code. -/
theorem safe_callFunction {f : Closure} {a : Handle} {rest args : List Value} {callee : Value} (hf : h.function a = .ok f)
    (hl : Laid below rest σ.operands) :
    Safe h (MachineM.callFunction f rest.length args.length (c.at next env (rest ++ [callee] ++ args) h last))
      fun _ => Enters c next env below h σ := by
  rw [MachineM.callFunction_eq]
  split
  · exact Safe.throw (.refl h) rfl
  · split
    · exact Safe.throw (.refl h) rfl
    · split
      · exact Safe.throw (.refl h) rfl
      · refine (Safe.onHeap (Plain.allocEnvironment (some f.env)).tame (.refl h)).bind ?_
        rintro scope _ ⟨heap₁, -, hh₁, rfl⟩
        refine (Safe.onHeap (Plain.defineAll scope _).tame hh₁).bind ?_
        rintro _ _ ⟨heap₂, -, hh₂, rfl⟩
        change Safe h (EStateM.bind (MachineM.truncate (rest.length + 1)) _ _) _
        have htake : (rest ++ [callee] ++ args).take (rest.length + 1) = rest ++ [callee] := by
          rw [List.take_append_of_le_length (by simp), List.take_of_length_le (by simp)]
        rw [EStateM.bind, Activation.truncate_at, htake]
        exact ⟨f, scope, rest, callee, heap₂, last, rfl, fun ht => ht _ f (Heap.closureAt_of_function hf), hl, hh₂⟩

/-- A call of a native function pushes its result in place of the function and the arguments. -/
theorem safe_callNative {n : Native} {rest args : List Value} {callee : Value} (hl : Laid below rest σ.operands)
    (hs : h.Surrounds σ.scopes env) :
    Safe h (MachineM.callNative n rest.length args.length (c.at next env (rest ++ [callee] ++ args) h last))
      fun _ => Arrives c below h [(next, σ.push [.value])] := by
  rw [MachineM.callNative_eq]
  split
  · exact Safe.throw (.refl h) rfl
  · rw [Activation.bind_popMany_at]
    refine (Safe.onHeap (Plain.native n.code _).tame (.refl h)).bind ?_
    rintro v _ ⟨heap', -, hh, rfl⟩
    change Safe h (EStateM.bind (MachineM.truncate rest.length) _ _) _
    have htake : (rest ++ [callee]).take rest.length = rest := by
      rw [List.take_append_of_le_length (Nat.le_refl _), List.take_length]
    rw [EStateM.bind, Activation.truncate_at, htake]
    exact safe_push hl hh hs

/-- A call takes the function and its arguments, and goes on with a value or enters the function. -/
theorem safe_call {argc : UInt8} (htakes : (Instruction.call argc).takes ≤ σ.operands.length) (hl : Laid below stack σ.operands)
    (hs : h.Surrounds σ.scopes env) :
    Safe h (MachineM.callValue argc.toNat (c.at next env stack h last)) fun _ m =>
      Arrives c below h [(next, (σ.drop (argc.toNat + 1)).push [.value])] m ∨
        Enters c next env below h (σ.drop (argc.toNat + 1)) m := by
  obtain ⟨rest, taken, rfl, htaken, hrest⟩ := hl.split htakes
  have hrest' : Laid below rest (σ.drop (argc.toNat + 1)).operands := hrest
  cases taken with
  | nil => nomatch htaken
  | cons callee args =>
    obtain hargs : args.length = argc.toNat := Nat.succ.inj htaken
    rw [List.append_cons, ← hargs, Activation.callValue_at]
    have hnotCallable : ∀ kind, Safe h ((throw (.notCallable kind) : MachineM Unit) (c.at next env (rest ++ [callee] ++ args) h last))
        fun _ m => Arrives c below h [(next, (σ.drop (args.length + 1)).push [.value])] m ∨
          Enters c next env below h (σ.drop (args.length + 1)) m := fun _ => Safe.throw (.refl h) rfl
    rw [← hargs] at hrest'
    cases callee with
    | ref kind a =>
      cases kind with
      | function =>
        refine (Safe.look (fun g => g.looks_function a) (.refl h)).bind ?_
        rintro f _ ⟨hf, rfl⟩
        exact (safe_callFunction hf hrest').imp fun _ _ => .inr
      | native =>
        refine (Safe.look (fun g => g.looks_native a) (.refl h)).bind ?_
        rintro n _ ⟨-, rfl⟩
        exact (safe_callNative hrest' hs).imp fun _ _ => .inl
      | _ => exact hnotCallable _
    | _ => exact hnotCallable _

end

end ScriptVM
