import ScriptVM.Proofs.Constants
import ScriptVM.Proofs.Translation

/-!
# Operators on constants

An expression of operators over names means a constant as soon as its names do (`Expr.Means`). Its code, on a machine whose
globals bind the names to such constants, comes to its end with that constant on the stack, and as a condition it jumps by the
truth of that constant (`Activation.computes_of_means`). Collections may happen on the way. The run wants no more
operands on the stack than `Expr.operands`, and no more slots than its code has bytes.
-/

namespace ScriptVM

/-- The constant that operators over names give, when the names stand for constants. -/
inductive Expr.Means (ρ : String → Option Constant) : Expr → Constant → Prop where
  | name {s : Span} {n : String} {k : Constant} : ρ n = some k → Means ρ (.name s n) k
  | unary {s : Span} {op : UnaryOp} {e : Expr} {k : Constant} : Means ρ e k → Means ρ (.unary s op e) (.unary op k)
  | binary {s : Span} {op : BinaryOp} {l r : Expr} {a b : Constant} :
      Means ρ l a → Means ρ r b → Means ρ (.binary s op l r) (.binary op a b)
  | logical {s : Span} {op : LogicalOp} {l r : Expr} {a b : Constant} :
      Means ρ l a → Means ρ r b → Means ρ (.logical s op l r) (.logical op a b)

/-- The most operands that an expression of operators has on the stack at a time. -/
def Expr.operands : Expr → Nat
  | unary _ _ e => e.operands
  | binary _ _ l r => max l.operands (1 + r.operands)
  | logical _ _ l r => max l.operands r.operands
  | _ => 1

/-- More bytes than the code of an expression of operators over names has: each logical operator adds two jumps for its
operands, one more over a load, and the loads of its two answers. -/
def Expr.codeBound : Expr → Nat
  | name _ n => (Instruction.loadName n).width
  | unary _ _ e => e.codeBound + 1
  | binary _ _ l r => l.codeBound + r.codeBound + 1
  | logical _ _ l r => l.codeBound + r.codeBound + 17
  | _ => 0

namespace Expr.Means

variable {ρ : String → Option Constant} {e : Expr} {k : Constant}

/-- Names are not folded. -/
theorem fold?_eq_none (h : e.Means ρ k) : e.fold? = none := by
  induction h with
  | name _ => rfl
  | unary _ ih => simp [Expr.fold?, ih]
  | binary _ _ ih _ => simp [Expr.fold?, ih]
  | logical _ _ ih _ => simp [Expr.fold?, ih]

/-- An expression with a meaning needs an operand for it. -/
theorem one_le_operands (h : e.Means ρ k) : 1 ≤ e.operands := by
  induction h with
  | name _ => exact Nat.le_refl 1
  | unary _ ih => exact ih
  | binary _ _ ih _ => exact Nat.le_trans ih (Nat.le_max_left _ _)
  | logical _ _ ih _ => exact Nat.le_trans ih (Nat.le_max_left _ _)

end Expr.Means

/-- Negation turns truth around. -/
theorem Constant.truthy_not (k : Constant) : (Constant.unary .not k).truthy = !k.truthy := rfl

/-- The left operand may decide; otherwise the right one does. -/
theorem Constant.truthy_logical (op : LogicalOp) (a b : Constant) :
    (Constant.logical op a b).truthy = if Compile.Lowered.decides op a.truthy then a.truthy else b.truthy := by
  cases op with
  | and =>
    change (a.truthy && b.truthy) = if !a.truthy then a.truthy else b.truthy
    cases a.truthy <;> rfl
  | or =>
    change (a.truthy || b.truthy) = if a.truthy then a.truthy else b.truthy
    cases a.truthy <;> rfl

/-! ## Machines that hold constants -/

/-- From every machine of one kind the run comes to one of the other. -/
def Machine.Leads (P Q : Machine → Prop) : Prop := ∀ m, P m → ∃ m', m.Reaches m' ∧ Q m'

namespace Machine.Leads

variable {P Q R : Machine → Prop}

/-- Runs that lead on to each other lead from the first to the last. -/
theorem trans (h : Machine.Leads P Q) (h' : Machine.Leads Q R) : Machine.Leads P R := by
  intro m hp
  obtain ⟨m₁, hr₁, hq⟩ := h m hp
  obtain ⟨m₂, hr₂, hr⟩ := h' m₁ hq
  exact ⟨m₂, hr₁.trans hr₂, hr⟩

/-- What is of one kind as well as of another leads there without a step. -/
theorem of_imp (h : ∀ m, P m → Q m) : Machine.Leads P Q := fun m hp => ⟨m, .refl m, h m hp⟩

end Machine.Leads

/-- The machine has come to a position of its code in the globals: its operands denote constants, its globals bind names to
constants, and its heap has room for so many more objects. -/
def Activation.Holds (c : Activation) (ρ : String → Option Constant) (room ip : Nat) (ks : List Constant) (m : Machine) : Prop :=
  ∃ stack heap last e, m = c.at ip c.globals stack heap last ∧ List.Forall₂ heap.Denotes stack ks ∧
    heap.Grounds c.globals ρ e ∧ heap.Spacious room

namespace Activation

variable {c : Activation} {ρ ρ' : String → Option Constant} {room ip : Nat} {ks : List Constant} {k l : Constant} {m : Machine}
  {Q : Machine → Prop}

/-- A machine with more room has less room too. -/
theorem Holds.weaken (h : c.Holds ρ room ip ks m) {room' : Nat} (hr : room' ≤ room) : c.Holds ρ room' ip ks m := by
  obtain ⟨stack, heap, last, e, hm, hstack, hg, hs⟩ := h
  exact ⟨stack, heap, last, e, hm, hstack, hg, hs.sparse, hs.limit, Nat.le_trans (by omega) hs.size⟩

/-- The operands and the globals are roots, so a collection keeps what they denote. -/
theorem Holds.collected (h : c.Holds ρ room ip ks m) : c.Holds ρ room ip ks m.collected := by
  obtain ⟨stack, heap, last, e, rfl, hstack, hg, hs⟩ := h
  unfold Machine.collected
  split
  · refine ⟨stack, heap.collect (c.at ip c.globals stack heap last).roots, last, e, rfl, ?_, ?_, hs.collect _⟩
    · refine ((List.forall₂_and_left _ _).2 ⟨fun v hv => hv, hstack⟩).imp ?_
      rintro v k ⟨hv, hd⟩
      refine hd.of_kept fun a o ha ho _ => (Heap.get?_collect_of_root ?_).2 ho
      exact List.mem_append_left _ (List.mem_append_left _ (List.mem_filterMap.2 ⟨v, by simpa [Activation.at] using hv, ha⟩))
    · exact hg.collect hs.sparse.unmarked (List.mem_append_right _ List.mem_cons_self)
  · exact ⟨stack, heap, last, e, rfl, hstack, hg, hs⟩

/-- The instruction at a position is executed behind the collection that may be due. -/
theorem leads_instruction {i : Instruction} (hc : c.code.Has ip [i]) (hi : i ≠ .ret)
    (h : ∀ m, c.Holds ρ room (ip + i.width) ks m →
      ∃ m', MachineM.execute ⟨c.code, ip, c.globals, c.base⟩ (ip + i.width) i m = .ok () m' ∧ Q m') :
    Machine.Leads (c.Holds ρ room ip ks) Q := by
  intro m hm
  obtain ⟨stack, heap, last, e, heq, hrest⟩ := hm.collected
  obtain ⟨m', he, hq⟩ := h _ ⟨stack, heap, last, e, rfl, hrest⟩
  refine ⟨m', .single ?_, hq⟩
  rw [MachineM.step_eq, heq, advance_at hc.decode hi, EStateM.bind, he]
  rfl

/-- The operand on top. -/
theorem exists_top {heap : Heap} {stack : List Value} (h : List.Forall₂ heap.Denotes stack (ks ++ [k])) :
    ∃ below v, stack = below ++ [v] ∧ List.Forall₂ heap.Denotes below ks ∧ heap.Denotes v k := by
  have hbelow := List.forall₂_take_append _ _ _ h
  have htop := List.forall₂_drop_append _ _ _ h
  obtain ⟨v, rest, hv, hrest, hdrop⟩ := List.forall₂_cons_right_iff.1 htop
  cases hrest
  refine ⟨stack.take ks.length, v, ?_, hbelow, hv⟩
  rw [← hdrop, List.take_append_drop]

section

variable {stack : List Value} {heap : Heap} {last : Value} {e : Environment}

/-- What an operation on the heap gives is pushed, where the stack has room. -/
theorem holds_pushed {x : HeapM Value} (hstack : List.Forall₂ heap.Denotes stack ks) (hg : heap.Grounds c.globals ρ e)
    (hx : heap.Gives x k room) (hcap : ks.length + 1 ≤ c.settings.stackCapacity) :
    ∃ m', (MachineM.onHeap x >>= MachineM.push) (c.at ip c.globals stack heap last) = .ok () m' ∧
      c.Holds ρ room ip (ks ++ [k]) m' := by
  obtain ⟨v, heap', hok, hkeeps, hv, hs⟩ := hx
  have hlen := hstack.length_eq
  refine ⟨c.at ip c.globals (stack ++ [v]) heap' last, ?_, ⟨_, _, _, _, rfl, ?_, hg.of_keeps hkeeps, hs⟩⟩
  · change EStateM.bind (MachineM.onHeap x) MachineM.push _ = _
    rw [EStateM.bind, onHeap_at, hok]
    simp only [push_at]
    rw [if_neg (by omega)]
  · exact List.rel_append (hstack.imp fun _ _ hd => hd.of_kept fun a o _ ha _ => hkeeps a o ha) (.cons hv .nil)

end

/-! ## Instructions -/

/-- A load leads on with its constant, and uses one place up. -/
theorem leads_load (hc : c.code.Has ip [.load k]) (hcap : ks.length + 1 ≤ c.settings.stackCapacity) :
    Machine.Leads (c.Holds ρ (room + 1) ip ks) (c.Holds ρ room (ip + (Instruction.load k).width) (ks ++ [k])) := by
  refine leads_instruction hc nofun fun m hm => ?_
  obtain ⟨stack, heap, last, e, rfl, hstack, hg, hs⟩ := hm
  change ∃ m', MachineM.loadConstant k _ = _ ∧ _
  rw [MachineM.loadConstant_eq]
  exact holds_pushed hstack hg (hs.gives_constant k) hcap

/-- A load of a name leads on with the constant that it is bound to. -/
theorem leads_loadName {n : String} (hc : c.code.Has ip [.loadName n]) (hn : ρ n = some k)
    (hcap : ks.length + 1 ≤ c.settings.stackCapacity) :
    Machine.Leads (c.Holds ρ (room + 1) ip ks) (c.Holds ρ room (ip + (Instruction.loadName n).width) (ks ++ [k])) := by
  refine leads_instruction hc nofun fun m hm => ?_
  obtain ⟨stack, heap, last, e, rfl, hstack, hg, hs⟩ := hm
  obtain ⟨v, hv, hd⟩ := hg.bound n k hn
  have hlookup := hg.lookup hv
  obtain ⟨m', hpush, hm'⟩ := holds_pushed hstack hg (hs.gives_pure hd) hcap
  refine ⟨m', (Eq.trans ?_ hpush), hm'⟩
  refine bind_resolve_at.trans ?_
  change EStateM.bind (MachineM.onHeap _) _ _ = EStateM.bind (MachineM.onHeap _) _ _
  simp only [EStateM.bind, onHeap_at, HeapM.read, hlookup]
  rfl

/-- A unary operator leads on with its outcome. -/
theorem leads_unary {op : UnaryOp} (hc : c.code.Has ip [.unary op]) (hcap : ks.length + 1 ≤ c.settings.stackCapacity) :
    Machine.Leads (c.Holds ρ (room + 1) ip (ks ++ [k]))
      (c.Holds ρ room (ip + (Instruction.unary op).width) (ks ++ [.unary op k])) := by
  refine leads_instruction hc nofun fun m hm => ?_
  obtain ⟨stack, heap, last, e, rfl, hstack, hg, hs⟩ := hm
  obtain ⟨below, v, rfl, hbelow, hv⟩ := exists_top hstack
  obtain ⟨m', hpush, hm'⟩ := holds_pushed hbelow hg (hs.gives_unary op hv) hcap
  exact ⟨m', bind_pop_at.trans hpush, hm'⟩

/-- A binary operator leads on with its outcome. -/
theorem leads_binary {op : BinaryOp} (hc : c.code.Has ip [.binary op]) (hcap : ks.length + 1 ≤ c.settings.stackCapacity) :
    Machine.Leads (c.Holds ρ (room + 1) ip (ks ++ [k] ++ [l]))
      (c.Holds ρ room (ip + (Instruction.binary op).width) (ks ++ [.binary op k l])) := by
  refine leads_instruction hc nofun fun m hm => ?_
  obtain ⟨stack, heap, last, e, rfl, hstack, hg, hs⟩ := hm
  obtain ⟨stack, w, rfl, hstack, hw⟩ := exists_top hstack
  obtain ⟨below, v, rfl, hbelow, hv⟩ := exists_top hstack
  obtain ⟨m', hpush, hm'⟩ := holds_pushed hbelow hg (hs.gives_apply op hv hw) hcap
  refine ⟨m', ?_, hm'⟩
  change MachineM.binary op _ = _
  rw [MachineM.binary_eq, bind_pop_at, bind_pop_at, hpush]

/-- A store leads on without its operand, which the name is bound to from then on. -/
theorem leads_storeName {n : String} (hc : c.code.Has ip [.storeName n]) :
    Machine.Leads (c.Holds ρ room ip (ks ++ [k]))
      (c.Holds (Function.update ρ n (some k)) room (ip + (Instruction.storeName n).width) ks) := by
  refine leads_instruction hc nofun fun m hm => ?_
  obtain ⟨stack, heap, last, e, rfl, hstack, hg, hs⟩ := hm
  obtain ⟨below, v, rfl, hbelow, hv⟩ := exists_top hstack
  refine ⟨_, ?_, below, heap.update c.globals (Object.bind n v), last, _, rfl, ?_, hg.bind ?_ ?_, hs.update _ _⟩
  · refine bind_pop_at.trans ?_
    rw [onHeap_at, hg.define]
  · exact hbelow.imp fun _ _ hd => Heap.Grounds.denotes_bind hd
  · intro k' hk'
    rw [Function.update_self] at hk'
    cases hk'
    exact hv
  · intro m k' hm hk'
    rwa [Function.update_of_ne hm] at hk'

/-- A forward jump leads to its target. -/
theorem leads_jump {d : Int32} {target : Nat} (hc : c.code.Has ip [.jump .forward d])
    (ht : ((ip + Fragment.jumpWidth : Nat) : Int) + d.toInt = target) (hl : target ≤ c.code.instructions.size) :
    Machine.Leads (c.Holds ρ room ip ks) (c.Holds ρ room target ks) := by
  refine leads_instruction hc nofun fun m hm => ?_
  obtain ⟨stack, heap, last, e, rfl, hrest⟩ := hm
  exact ⟨_, jump_at ht hl, stack, heap, last, e, rfl, hrest⟩

/-- A conditional jump is taken when the truth of the operand on top is as asked. -/
theorem leads_branch {sense : Bool} {d : Int32} {target : Nat}
    (hc : c.code.Has ip [.jump (if sense then .ifTrue else .ifFalse) d])
    (ht : ((ip + Fragment.jumpWidth : Nat) : Int) + d.toInt = target) (hl : target ≤ c.code.instructions.size) :
    Machine.Leads (c.Holds ρ room ip (ks ++ [k]))
      (c.Holds ρ room (if k.truthy = sense then target else ip + Fragment.jumpWidth) ks) := by
  refine leads_instruction hc (by cases sense <;> nofun) fun m hm => ?_
  obtain ⟨stack, heap, last, e, rfl, hstack, hg, hs⟩ := hm
  obtain ⟨below, v, rfl, hbelow, hv⟩ := exists_top hstack
  have hread : ∀ {ip : Nat} (k' : Bool → MachineM Unit),
      (MachineM.onHeap (HeapM.read (·.truthy v)) >>= k') (c.at ip c.globals below heap last) =
        k' k.truthy (c.at ip c.globals below heap last) := by
    intro ip k'
    change EStateM.bind (MachineM.onHeap _) k' _ = _
    simp only [EStateM.bind, onHeap_at, HeapM.read, hv.truthy]
  refine ⟨c.at (if k.truthy = sense then target else ip + Fragment.jumpWidth) c.globals below heap last, ?_,
    below, heap, last, e, rfl, hbelow, hg, hs⟩
  cases sense with
  | true =>
    refine bind_pop_at.trans ((hread _).trans ?_)
    cases k.truthy with
    | true => exact jump_at ht hl
    | false => rfl
  | false =>
    refine bind_pop_at.trans ((hread _).trans ?_)
    cases k.truthy with
    | true => rfl
    | false => exact jump_at ht hl

/-! ## Expressions -/

/-- The code of an expression leaves its constant on the stack, and as a condition jumps by the truth of the constant. -/
structure Computes (c : Activation) (ρ : String → Option Constant) (e : Expr) (k : Constant) : Prop where
  value : ∀ {code : List Instruction} {ip room : Nat} {ks : List Constant}, ValueCode e code → c.code.Has ip code →
    ks.length + e.operands ≤ c.settings.stackCapacity →
    Machine.Leads (c.Holds ρ (room + e.codeBound) ip ks) (c.Holds ρ room (ip + codeSize code) (ks ++ [k]))
  condition : ∀ {sense : Bool} {f : Fragment} {beyond : Nat} {code : List Instruction} {ip room : Nat} {ks : List Constant},
    JumpCode e sense f → f.resolve beyond = .ok code → c.code.Has ip code →
    ip + codeSize code + beyond ≤ c.code.instructions.size → ks.length + e.operands ≤ c.settings.stackCapacity →
    Machine.Leads (c.Holds ρ (room + e.codeBound) ip ks)
      (c.Holds ρ room (if k.truthy = sense then ip + codeSize code + beyond else ip + codeSize code) ks)

/-- A condition without logic tests its value. -/
theorem computes_of_value {e : Expr} (hf : e.fold? = none) (hlogic : e.isLogic = false)
    (hvalue : ∀ {code : List Instruction} {ip room : Nat} {ks : List Constant}, ValueCode e code → c.code.Has ip code →
      ks.length + e.operands ≤ c.settings.stackCapacity →
      Machine.Leads (c.Holds ρ (room + e.codeBound) ip ks) (c.Holds ρ room (ip + codeSize code) (ks ++ [k]))) :
    c.Computes ρ e k where
  value := hvalue
  condition := by
    intro sense f beyond code ip room ks hj hr hc hl hcap
    cases hj with
    | constant hfold => rw [hf] at hfold; nomatch hfold
    | not hfold hj => nomatch hlogic
    | both hfold hd hleft hright => nomatch hlogic
    | skip hfold hd hleft hright hs => nomatch hlogic
    | test hfold hnot hv =>
      rename_i value
      obtain ⟨a, b, ha, hb, rfl⟩ := Fragment.resolve_append hr
      rw [Fragment.resolve_ofCode] at ha
      cases ha
      obtain ⟨d, hd, hb⟩ := bind_eq_ok.1 hb
      cases hb
      have hsize : ip + codeSize (value ++ [.jump (if sense then .ifTrue else .ifFalse) d]) =
          ip + codeSize value + Fragment.jumpWidth := by
        rw [codeSize_concat, ← Nat.add_assoc]
        rfl
      rw [hsize] at hl ⊢
      refine (hvalue hv hc.left hcap).trans (leads_branch hc.right ?_ hl)
      rw [jumpDistance_eq_ok hd]
      simp only [Fragment.size]
      omega

/-- A name computes the constant that it is bound to. -/
theorem computes_name {s : Span} {n : String} (hn : ρ n = some k) : c.Computes ρ (.name s n) k := by
  refine computes_of_value rfl rfl fun hv hc hcap => ?_
  cases hv with
  | constant hf => nomatch hf
  | name =>
    have hwidth := Instruction.width_pos (.loadName n)
    refine .trans (.of_imp fun m hm => hm.weaken ?_) (leads_loadName hc hn hcap)
    simp only [Expr.codeBound]
    omega

/-- A unary operation that is not folded computes its outcome from that of its operand. -/
theorem computes_unary {s : Span} {op : UnaryOp} {e : Expr} (hf : (Expr.unary s op e).fold? = none) (ho : 1 ≤ e.operands)
    (he : c.Computes ρ e k) : c.Computes ρ (.unary s op e) (.unary op k) := by
  have hvalue : ∀ {code : List Instruction} {ip room : Nat} {ks : List Constant}, ValueCode (.unary s op e) code →
      c.code.Has ip code → ks.length + e.operands ≤ c.settings.stackCapacity →
      Machine.Leads (c.Holds ρ (room + (e.codeBound + 1)) ip ks) (c.Holds ρ room (ip + codeSize code) (ks ++ [.unary op k])) := by
    intro code ip room ks hv hc hcap
    cases hv with
    | constant hfold => rw [hf] at hfold; nomatch hfold
    | unary hfold hv =>
      rw [codeSize_concat, ← Nat.add_assoc ip, Nat.add_comm e.codeBound 1, ← Nat.add_assoc room]
      exact (he.value hv hc.left hcap).trans (leads_unary hc.right (by omega))
  cases op with
  | negate => exact computes_of_value hf rfl hvalue
  | not =>
    refine ⟨hvalue, ?_⟩
    intro sense f beyond code ip room ks hj hr hc hl hcap
    cases hj with
    | constant hfold => rw [hf] at hfold; nomatch hfold
    | test _ hlogic _ => nomatch hlogic
    | not _ hj =>
      refine .trans (.of_imp fun m hm => hm.weaken (Nat.add_le_add_left (Nat.le_succ _) room)) ?_
      have hcond : Machine.Leads (c.Holds ρ (room + e.codeBound) ip ks) (c.Holds ρ room
          (if k.truthy = !sense then ip + codeSize code + beyond else ip + codeSize code) ks) :=
        he.condition hj hr hc hl hcap
      rw [Constant.truthy_not]
      cases hk : k.truthy <;> cases sense <;> simpa [hk] using hcond

/-- A binary operation that is not folded computes its outcome from those of its operands. -/
theorem computes_binary {s : Span} {op : BinaryOp} {x y : Expr} (hf : (Expr.binary s op x y).fold? = none)
    (ho : 1 ≤ x.operands) (hx : c.Computes ρ x k) (hy : c.Computes ρ y l) :
    c.Computes ρ (.binary s op x y) (.binary op k l) := by
  refine computes_of_value hf rfl fun {code ip room ks} hv hc hcap => ?_
  have hoperands : (Expr.binary s op x y).operands = max x.operands (1 + y.operands) := rfl
  cases hv with
  | constant hfold => rw [hf] at hfold; nomatch hfold
  | binary hfold hleft hright =>
    have hop := hc.right
    rw [codeSize_append, ← Nat.add_assoc] at hop
    have hcap' : (ks ++ [k]).length + y.operands ≤ c.settings.stackCapacity := by
      rw [List.length_append, List.length_singleton]
      omega
    rw [codeSize_concat, codeSize_append, ← Nat.add_assoc, ← Nat.add_assoc]
    have hbudget : room + (Expr.binary s op x y).codeBound = room + 1 + y.codeBound + x.codeBound := by
      simp only [Expr.codeBound]
      omega
    rw [hbudget]
    refine (hx.value hleft hc.left.left (by omega)).trans ?_
    exact (hy.value hright hc.left.right hcap').trans (leads_binary hop (by omega))

/-- A logical operator as a condition: the left operand may decide, otherwise the right one does. -/
theorem leads_logical {s : Span} {op : LogicalOp} {x y : Expr} (hf : (Expr.logical s op x y).fold? = none)
    (hx : c.Computes ρ x k) (hy : c.Computes ρ y l) {sense : Bool} {f : Fragment} {beyond : Nat} {code : List Instruction}
    (hj : JumpCode (.logical s op x y) sense f) (hr : f.resolve beyond = .ok code) (hc : c.code.Has ip code)
    (hl : ip + codeSize code + beyond ≤ c.code.instructions.size)
    (hcap : ks.length + max x.operands y.operands ≤ c.settings.stackCapacity) :
    Machine.Leads (c.Holds ρ (room + y.codeBound + x.codeBound) ip ks)
      (c.Holds ρ room (if (Constant.logical op k l).truthy = sense then ip + codeSize code + beyond else ip + codeSize code)
        ks) := by
  have hspare : ∀ {ip : Nat}, Machine.Leads (c.Holds ρ (room + y.codeBound) ip ks) (c.Holds ρ room ip ks) :=
    .of_imp fun m hm => hm.weaken (Nat.le_add_right _ _)
  have hleftDecides : Compile.Lowered.decides op k.truthy = true → (Constant.logical op k l).truthy = k.truthy := by
    intro hd
    rw [Constant.truthy_logical, if_pos hd]
  have hrightDecides : ¬Compile.Lowered.decides op k.truthy = true → (Constant.logical op k l).truthy = l.truthy := by
    intro hd
    rw [Constant.truthy_logical, if_neg hd]
  cases hj with
  | constant hfold => rw [hf] at hfold; nomatch hfold
  | test _ hlogic _ => nomatch hlogic
  | both _ hd hleft hright =>
    obtain ⟨a, b, ha, hb, rfl⟩ := Fragment.resolve_append hr
    have hgsize := Fragment.codeSize_of_resolve hb
    rw [codeSize_append, ← Nat.add_assoc] at hl ⊢
    refine (hx.condition hleft ha hc.left (by omega) (by omega)).trans ?_
    by_cases ht : k.truthy = sense
    · rw [hleftDecides (by rw [ht, hd]), if_pos ht, if_pos ht, hgsize, Nat.add_assoc _ _ beyond]
      exact hspare
    · rw [hrightDecides (by simp [decides_of_ne ht, hd]), if_neg ht]
      exact hy.condition hright hb hc.right hl (by omega)
  | skip _ hd hleft hright hs =>
    obtain ⟨a, b, ha, hb, rfl⟩ := Fragment.resolve_append hr
    rw [Fragment.resolve_ofCode] at ha
    cases ha
    have hgsize := Fragment.codeSize_of_resolve hb
    rw [codeSize_append, ← Nat.add_assoc] at hl ⊢
    refine (hx.condition hleft hs hc.left (by omega) (by omega)).trans ?_
    by_cases ht : k.truthy = sense
    · rw [hrightDecides (by simp [ht, hd]), if_neg (by cases sense <;> simp [ht])]
      exact hy.condition hright hb hc.right hl (by omega)
    · have hopposite : k.truthy = !sense := by
        cases hk : k.truthy <;> cases sense <;> simp_all
      rw [hleftDecides (by rw [decides_of_ne ht, hd]; rfl), if_pos hopposite, if_neg ht, hgsize]
      exact hspare

/-- A condition computes the value of the side that decides it. -/
theorem computes_logical {s : Span} {op : LogicalOp} {x y : Expr} (hf : (Expr.logical s op x y).fold? = none)
    (ho : 1 ≤ x.operands) (hx : c.Computes ρ x k) (hy : c.Computes ρ y l) :
    c.Computes ρ (.logical s op x y) (.logical op k l) := by
  have hoperands : (Expr.logical s op x y).operands = max x.operands y.operands := rfl
  have hbudget : ∀ room, room + (Expr.logical s op x y).codeBound = room + 17 + y.codeBound + x.codeBound := by
    intro room
    simp only [Expr.codeBound]
    omega
  refine ⟨fun {code ip room ks} hv hc hcap => ?_, fun {sense f beyond code ip room ks} hj hr hc hl hcap => ?_⟩
  · cases hv with
    | constant hfold => rw [hf] at hfold; nomatch hfold
    | logical hfold hj hd hr =>
      rename_i f test d
      have hfalse := hc.right
      have htrue := hc.left.right.left (a := [.load (.bool true)]) (b := [.jump .forward d])
      have hjump := hc.left.right.right (a := [.load (.bool true)]) (b := [.jump .forward d])
      have hend := hc.le_size
      simp only [codeSize_append, ← Nat.add_assoc] at hfalse hend ⊢
      rw [hbudget]
      refine (leads_logical hf hx hy hj hr hc.left.left (by omega) (by omega)).trans ?_
      refine .trans (.of_imp fun m hm => hm.weaken (by omega : room + 1 ≤ room + 17)) ?_
      have hboolean : ∃ b, Constant.logical op k l = .bool b ∧ (Constant.logical op k l).truthy = b := by
        cases op <;> exact ⟨_, rfl, rfl⟩
      obtain ⟨b, hb, ht⟩ := hboolean
      rw [ht, hb]
      cases b with
      | false => exact leads_load hfalse (by omega)
      | true =>
        refine (leads_load htrue (by omega)).trans (leads_jump hjump ?_ hend)
        rw [jumpDistance_eq_ok hd]
        simp only [codeSize, width_jump]
        omega
  · rw [hbudget]
    refine (leads_logical hf hx hy hj hr hc hl (by omega)).trans ?_
    exact .of_imp fun m hm => hm.weaken (Nat.le_add_right _ _)

/-- Code computes what its expression means. -/
theorem computes_of_means {e : Expr} (h : e.Means ρ k) : c.Computes ρ e k := by
  induction h with
  | name hn => exact computes_name hn
  | unary he ih => exact computes_unary (Expr.Means.unary he).fold?_eq_none he.one_le_operands ih
  | binary hx hy ihx ihy => exact computes_binary (Expr.Means.binary hx hy).fold?_eq_none hx.one_le_operands ihx ihy
  | logical hx hy ihx ihy => exact computes_logical (Expr.Means.logical hx hy).fold?_eq_none hx.one_le_operands ihx ihy

end Activation

end ScriptVM
