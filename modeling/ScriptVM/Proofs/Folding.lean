import ScriptVM.Proofs.Acceptance
import ScriptVM.Proofs.Startup

/-!
# Folding equals running

A constant expression is loaded by one instruction. Where its literals are bound to names first, the machine applies the
operators itself. Both programs compile, run to their end and bind their variable to the same constant
(`Program.folding_eq_running`): a folded expression is what the machine would have computed.
-/

namespace ScriptVM

/-! ## Texts without NUL -/

/-- Two texts in sequence hold no NUL just if neither does. -/
theorem nulFree_append {a b : String} : '\x00' ∉ (a ++ b).toList ↔ '\x00' ∉ a.toList ∧ '\x00' ∉ b.toList := by
  rw [String.toList_append, List.mem_append, not_or]

/-- The names of kinds hold no NUL. -/
theorem Operand.nulFree_kindName (x : Operand) : '\x00' ∉ x.kindName.toList := by
  cases x with
  | num n =>
    cases n <;>
    · dsimp only [Operand.kindName, Num.kindName]
      decide
  | ref kind a empty =>
    cases kind <;>
    · dsimp only [Operand.kindName, RefKind.name]
      decide
  | _ =>
    dsimp only [Operand.kindName]
    decide

/-- The signs of operators hold no NUL. -/
theorem BinaryOp.nulFree_symbol (op : BinaryOp) : '\x00' ∉ op.symbol.toList := by
  cases op with
  | arith op => cases op <;> decide
  | order op => cases op <;> decide
  | _ => decide

/-- The kinds and signs that a fault names. -/
def Fault.names : Fault → List String
  | cannotAdd left right => [left, right]
  | unsupported symbol left right => [symbol, left, right]
  | cannotNegate kind => [kind]
  | _ => []

/-- The message of a fault holds no NUL but in what it names. -/
theorem Fault.nulFree_message {f : Fault} (h : ∀ s ∈ f.names, '\x00' ∉ s.toList) : '\x00' ∉ f.message.toList := by
  unfold Fault.message
  cases f with
  | cannotAdd left right =>
    have hleft := h left (by simp [Fault.names])
    have hright := h right (by simp [Fault.names])
    simp only [ToString.toString, nulFree_append, hleft, hright, not_false_eq_true, and_true]
    decide +kernel
  | unsupported symbol left right =>
    have hsymbol := h symbol (by simp [Fault.names])
    have hleft := h left (by simp [Fault.names])
    have hright := h right (by simp [Fault.names])
    simp only [ToString.toString, nulFree_append, hsymbol, hleft, hright, not_false_eq_true, and_true]
    decide +kernel
  | cannotNegate kind =>
    have hkind := h kind (by simp [Fault.names])
    simp only [ToString.toString, nulFree_append, hkind, not_false_eq_true, and_true]
    decide +kernel
  | _ => decide +kernel

/-- The text of an answer, and what its fault names, hold no NUL. -/
def Outcome.NulFree : Outcome → Prop
  | .text s => '\x00' ∉ s.toList
  | .fault f => ∀ s ∈ f.names, '\x00' ∉ s.toList
  | _ => True

/-- The text of an operand holds no NUL. -/
def Operand.NulFree : Operand → Prop
  | .text s => '\x00' ∉ s.toList
  | _ => True

namespace Operand

/-- A complaint about the kinds of operands names kinds and a sign, so it holds no NUL. -/
theorem nulFree_mismatch (op : BinaryOp) (x y : Operand) : (mismatch op x y).NulFree := by
  intro s hs
  simp only [Fault.names, List.mem_cons, List.not_mem_nil, or_false] at hs
  rcases hs with rfl | rfl | rfl
  · exact op.nulFree_symbol
  · exact x.nulFree_kindName
  · exact y.nulFree_kindName

/-- A complaint about a zero divisor holds no NUL. -/
theorem nulFree_zeroDivisor (op : ArithOp) : (Outcome.fault (zeroDivisor op)).NulFree := by
  intro s hs
  cases op <;> nomatch hs

/-- Arithmetic answers texts without NUL for operands without NUL. -/
theorem nulFree_arith (op : ArithOp) {x y : Operand} (hx : x.NulFree) (hy : y.NulFree) : (arith op x y).NulFree := by
  unfold arith
  split
  · trivial
  · trivial
  · unfold numeric
    split
    · exact nulFree_zeroDivisor op
    · trivial
  · split
    · split
      · split
        · exact nulFree_append.2 ⟨hx, hy⟩
        · intro s hs
          simp only [Fault.names, List.mem_cons, List.not_mem_nil, or_false] at hs
          rcases hs with rfl | rfl <;> exact nulFree_kindName _
      · split
        · unfold coerced
          split
          · exact nulFree_zeroDivisor op
          · trivial
        · exact nulFree_mismatch _ _ _
    · exact nulFree_mismatch _ _ _

/-- Order answers no text, and complains without NUL. -/
theorem nulFree_order (op : OrderOp) (x y : Operand) : (order op x y).NulFree := by
  unfold order
  split <;> first | trivial | exact nulFree_mismatch _ _ _

/-- A binary operator answers without NUL for operands without NUL. -/
theorem nulFree_binary (op : BinaryOp) {x y : Operand} (hx : x.NulFree) (hy : y.NulFree) : (binary op x y).NulFree := by
  cases op with
  | arith op => exact nulFree_arith op hx hy
  | order op => exact nulFree_order op x y
  | equal => trivial
  | notEqual => trivial

/-- A unary operator answers no text, and complains without NUL. -/
theorem nulFree_unary (op : UnaryOp) (x : Operand) : (x.unary op).NulFree := by
  cases op with
  | not => trivial
  | negate =>
    rw [unary]
    unfold negate
    split
    · trivial
    · trivial
    · split
      · trivial
      · exact fun s hs => nomatch hs
    · intro s hs
      rw [List.mem_singleton.1 hs]
      exact nulFree_kindName _

end Operand

/-- The text or message of a constant holds no NUL. -/
def Constant.NulFree (k : Constant) : Prop := ∀ s ∈ (Instruction.load k).strings, '\x00' ∉ s.toList

/-- The operand of a constant without NUL holds none. -/
theorem Constant.NulFree.operand {k : Constant} (h : k.NulFree) : k.operand.NulFree := by
  cases k with
  | text s => exact h s List.mem_cons_self
  | _ => trivial

/-- The constant of an answer without NUL holds none. -/
theorem Constant.nulFree_ofOutcome {a b : Constant} (ha : a.NulFree) (hb : b.NulFree) {o : Outcome} (ho : o.NulFree) :
    (Constant.ofOutcome a b o).NulFree := by
  cases o with
  | forward side => cases side <;> assumption
  | text s =>
    intro t ht
    cases List.mem_singleton.1 ht
    exact ho
  | fault f =>
    intro t ht
    cases List.mem_singleton.1 ht
    exact Fault.nulFree_message ho
  | _ => exact fun t ht => nomatch ht

/-- A constant without NUL can be loaded. -/
theorem Constant.NulFree.check {k : Constant} (h : k.NulFree) : (Instruction.load k).check = .ok () := by
  cases k with
  | text s => simp [Instruction.check, Instruction.strings, Instruction.checkString_eq_ok.2 (h s List.mem_cons_self)]
  | error s => simp [Instruction.check, Instruction.strings, Instruction.checkString_eq_ok.2 (h s List.mem_cons_self)]
  | _ => rfl

/-! ## Constant expressions -/

/-- A tree of literals and operators, whose texts hold no NUL. -/
inductive Expr.IsConstant : Expr → Prop where
  | literal {s : Span} {v : Literal} : (∀ t, v = .string t → '\x00' ∉ t.toList) → IsConstant (.literal s v)
  | unary {s : Span} {op : UnaryOp} {e : Expr} : IsConstant e → IsConstant (.unary s op e)
  | binary {s : Span} {op : BinaryOp} {l r : Expr} : IsConstant l → IsConstant r → IsConstant (.binary s op l r)
  | logical {s : Span} {op : LogicalOp} {l r : Expr} : IsConstant l → IsConstant r → IsConstant (.logical s op l r)

/-- The literals of a tree of operators, from left to right. -/
def Expr.leaves : Expr → List Literal
  | literal _ v => [v]
  | unary _ _ e => e.leaves
  | binary _ _ l r => l.leaves ++ r.leaves
  | logical _ _ l r => l.leaves ++ r.leaves
  | _ => []

/-- The tree with each literal replaced by a name of its own, the names in the order of the literals. -/
def Expr.named : Expr → (Nat → String) → Expr
  | literal s _, label => .name s (label 0)
  | unary s op e, label => .unary s op (e.named label)
  | binary s op l r, label => .binary s op (l.named label) (r.named fun i => label (l.leaves.length + i))
  | logical s op l r, label => .logical s op (l.named label) (r.named fun i => label (l.leaves.length + i))
  | e, _ => e

/-- A literal whose text holds no NUL is a constant that holds none. -/
theorem Constant.nulFree_ofLiteral {v : Literal} (h : ∀ t, v = .string t → '\x00' ∉ t.toList) :
    (Constant.ofLiteral v).NulFree := by
  intro t ht
  cases v with
  | string s =>
    cases List.mem_singleton.1 ht
    exact h t rfl
  | bool b => cases b <;> nomatch ht
  | _ => nomatch ht

/-- The names of a sequence are bound to literals, in their order. -/
def NamesLiterals (ρ : String → Option Constant) (vs : List Literal) (label : Nat → String) : Prop :=
  ∀ i v, vs[i]? = some v → ρ (label i) = some (.ofLiteral v)

namespace NamesLiterals

variable {ρ : String → Option Constant} {vs ws : List Literal} {label : Nat → String}

/-- The names of literals in sequence name those in front. -/
theorem left (h : NamesLiterals ρ (vs ++ ws) label) : NamesLiterals ρ vs label := by
  intro i v hv
  have hi : i < vs.length := (List.getElem?_eq_some_iff.1 hv).1
  exact h i v (by rw [List.getElem?_append_left hi, hv])

/-- The names of literals in sequence name those behind, counted on from there. -/
theorem right (h : NamesLiterals ρ (vs ++ ws) label) : NamesLiterals ρ ws fun i => label (vs.length + i) := by
  intro i v hv
  exact h _ v (by rw [List.getElem?_append_right (Nat.le_add_right _ _), Nat.add_sub_cancel_left, hv])

end NamesLiterals

namespace Expr.IsConstant

variable {e : Expr}

/-- Every constant expression folds. -/
theorem exists_fold (h : e.IsConstant) : ∃ k, e.fold? = some k ∧ k.NulFree := by
  induction h with
  | literal hv => exact ⟨_, rfl, Constant.nulFree_ofLiteral hv⟩
  | unary _ ih =>
    obtain ⟨k, hk, hn⟩ := ih
    exact ⟨_, by rw [Expr.fold?, hk]; rfl, Constant.nulFree_ofOutcome hn hn (Operand.nulFree_unary _ _)⟩
  | binary _ _ ihl ihr =>
    obtain ⟨a, ha, hna⟩ := ihl
    obtain ⟨b, hb, hnb⟩ := ihr
    exact ⟨_, by rw [Expr.fold?, ha, hb]; rfl,
      Constant.nulFree_ofOutcome hna hnb (Operand.nulFree_binary _ hna.operand hnb.operand)⟩
  | logical _ _ ihl ihr =>
    rename_i s op l r _ _
    obtain ⟨a, ha, _⟩ := ihl
    obtain ⟨b, hb, _⟩ := ihr
    refine ⟨_, by rw [Expr.fold?, ha, hb]; rfl, fun t ht => ?_⟩
    cases op <;> nomatch ht

/-- The literals of a constant expression hold no NUL. -/
theorem nulFree_leaves (h : e.IsConstant) : ∀ v ∈ e.leaves, (Constant.ofLiteral v).NulFree := by
  induction h with
  | literal hv =>
    intro v hv'
    cases List.mem_singleton.1 hv'
    exact Constant.nulFree_ofLiteral hv
  | unary _ ih => exact ih
  | binary _ _ ihl ihr => exact fun v hv => (List.mem_append.1 hv).elim (ihl v) (ihr v)
  | logical _ _ ihl ihr => exact fun v hv => (List.mem_append.1 hv).elim (ihl v) (ihr v)

/-- What a constant expression folds to is what its named tree means. -/
theorem means_named (h : e.IsConstant) {ρ : String → Option Constant} {label : Nat → String} {k : Constant}
    (hk : e.fold? = some k) (hρ : NamesLiterals ρ e.leaves label) : (e.named label).Means ρ k := by
  induction h generalizing label k with
  | literal _ =>
    cases hk
    exact .name (hρ 0 _ rfl)
  | unary he ih =>
    obtain ⟨a, ha, _⟩ := he.exists_fold
    rw [Expr.fold?, ha] at hk
    cases hk
    exact .unary (ih ha hρ)
  | binary hl hr ihl ihr =>
    obtain ⟨a, ha, _⟩ := hl.exists_fold
    obtain ⟨b, hb, _⟩ := hr.exists_fold
    rw [Expr.fold?, ha, hb] at hk
    cases hk
    exact .binary (ihl ha hρ.left) (ihr hb hρ.right)
  | logical hl hr ihl ihr =>
    obtain ⟨a, ha, _⟩ := hl.exists_fold
    obtain ⟨b, hb, _⟩ := hr.exists_fold
    rw [Expr.fold?, ha, hb] at hk
    cases hk
    exact .logical (ihl ha hρ.left) (ihr hb hρ.right)

/-- The code that loads a name has two bytes at least. -/
theorem leaves_le_codeBound (h : e.IsConstant) (label : Nat → String) : 2 * e.leaves.length ≤ (e.named label).codeBound := by
  induction h generalizing label with
  | literal _ =>
    simp only [Expr.leaves, Expr.named, Expr.codeBound, Instruction.width, Instruction.encode,
      Instruction.operandBytes, textBytes, List.length_cons, List.length_append, List.length_nil]
    omega
  | unary _ ih =>
    simp only [Expr.leaves, Expr.named, Expr.codeBound]
    exact Nat.le_succ_of_le (ih label)
  | binary _ _ ihl ihr =>
    rename_i l r _ _
    have hl := ihl label
    have hr := ihr fun i => label (l.leaves.length + i)
    simp only [Expr.leaves, Expr.named, Expr.codeBound, List.length_append]
    omega
  | logical _ _ ihl ihr =>
    rename_i l r _ _
    have hl := ihl label
    have hr := ihr fun i => label (l.leaves.length + i)
    simp only [Expr.leaves, Expr.named, Expr.codeBound, List.length_append]
    omega

/-- Naming the literals leaves the number of operands that the tree needs. -/
theorem operands_named (h : e.IsConstant) (label : Nat → String) : (e.named label).operands = e.operands := by
  induction h generalizing label with
  | literal _ => rfl
  | unary _ ih => exact ih label
  | binary _ _ ihl ihr => rw [Expr.named, Expr.operands, Expr.operands, ihl, ihr]
  | logical _ _ ihl ihr => rw [Expr.named, Expr.operands, Expr.operands, ihl, ihr]

end Expr.IsConstant

/-! ## Variables for literals -/

/-- The code that binds names to literals, the names in order. -/
def literalCode : List Literal → (Nat → String) → List Instruction
  | [], _ => []
  | v :: vs, label => [.load (.ofLiteral v)] ++ [.storeName (label 0)] ++ literalCode vs fun i => label (i + 1)

/-- The statements that bind names to literals, the names in order. -/
def literalDeclarations (vs : List Literal) (label : Nat → String) : List Stmt :=
  vs.mapIdx fun i v => .declaration {} .var (label i) (some (.literal {} v))

/-- The constants of names, when names are bound to literals in order. -/
def withLiterals (ρ : String → Option Constant) : List Literal → (Nat → String) → String → Option Constant
  | [], _ => ρ
  | v :: vs, label => withLiterals (Function.update ρ (label 0) (some (.ofLiteral v))) vs fun i => label (i + 1)

/-- The first names of a sequence are distinct and hold no NUL. -/
structure DistinctLabels (count : Nat) (label : Nat → String) : Prop where
  distinct : ∀ i < count, ∀ j < count, label i = label j → i = j
  nulFree : ∀ i < count, '\x00' ∉ (label i).toList

/-- The names behind the first are distinct. -/
theorem DistinctLabels.tail {count : Nat} {label : Nat → String} (h : DistinctLabels (count + 1) label) :
    DistinctLabels count fun i => label (i + 1) where
  distinct i hi j hj heq := Nat.succ.inj (h.distinct (i + 1) (by omega) (j + 1) (by omega) heq)
  nulFree i hi := h.nulFree (i + 1) (by omega)

/-- The first name is none of the others. -/
theorem DistinctLabels.head_ne {count : Nat} {label : Nat → String} (h : DistinctLabels (count + 1) label) {i : Nat}
    (hi : i < count) : label 0 ≠ label (i + 1) := fun heq => nomatch h.distinct 0 (by omega) (i + 1) (by omega) heq

section

variable {ρ : String → Option Constant} {vs : List Literal} {label : Nat → String}

/-- Binding literals leaves all other names. -/
theorem withLiterals_of_ne {n : String} (hn : ∀ i < vs.length, label i ≠ n) : withLiterals ρ vs label n = ρ n := by
  induction vs generalizing ρ label with
  | nil => rfl
  | cons v vs ih =>
    rw [withLiterals, ih fun i hi => hn (i + 1) (Nat.succ_lt_succ hi)]
    exact Function.update_of_ne (hn 0 (Nat.succ_pos _)).symm _ _

/-- After literals were bound to distinct names, the names are bound to them. -/
theorem namesLiterals_withLiterals (hl : DistinctLabels vs.length label) : NamesLiterals (withLiterals ρ vs label) vs label := by
  induction vs generalizing ρ label with
  | nil => exact nofun
  | cons w vs ih =>
    intro i v hv
    rw [withLiterals]
    cases i with
    | zero =>
      cases hv
      rw [withLiterals_of_ne fun i hi => (hl.head_ne hi).symm]
      exact Function.update_self _ _ _
    | succ i => exact ih hl.tail i v hv

/-- Literals are bound to names in the outermost scope. -/
theorem statements_literals {g : Scope} (hg : g.kind = .global) (hl : DistinctLabels vs.length label)
    (hvs : ∀ v ∈ vs, (Constant.ofLiteral v).NulFree) (hnew : ∀ i < vs.length, g.lookup? (label i) = none) :
    ∃ g' : Scope, g'.kind = .global ∧ (∀ n, (∀ i < vs.length, label i ≠ n) → g'.lookup? n = g.lookup? n) ∧
      ∀ {rest : List Stmt} {code : List Instruction} {s : List Scope}, Compile.statements rest [g'] = .ok (code, s) →
        Compile.statements (literalDeclarations vs label ++ rest) [g] = .ok (literalCode vs label ++ code, s) := by
  induction vs generalizing g label with
  | nil => exact ⟨g, hg, fun _ _ => rfl, fun h => h⟩
  | cons v vs ih =>
    have hvalue : (Compile.expr (.literal {} v)).value [g] = .ok ([.load (.ofLiteral v)], [g]) := by
      rw [expr_of_fold rfl]
      exact Compile.emit_ok (hvs v List.mem_cons_self).check
    have hfirst := code_variable {} hg (hnew 0 (Nat.succ_pos _)) (hl.nulFree 0 (Nat.succ_pos _)) hvalue
    have hnew' : ∀ i < vs.length, (g.withVariable {} (label 0)).lookup? (label (i + 1)) = none := by
      intro i hi
      rw [Scope.lookup?_withVariable (hl.head_ne hi)]
      exact hnew (i + 1) (Nat.succ_lt_succ hi)
    have hg₁ : (g.withVariable {} (label 0)).kind = .global := hg
    obtain ⟨g', hg', hkeep, hrest⟩ := ih hg₁ hl.tail (fun w hw => hvs w (List.mem_cons_of_mem _ hw)) hnew'
    refine ⟨g', hg', fun n hn => ?_, fun {rest code s} h => ?_⟩
    · rw [hkeep n fun i hi => hn (i + 1) (Nat.succ_lt_succ hi), Scope.lookup?_withVariable (hn 0 (Nat.succ_pos _))]
    · rw [literalDeclarations, List.mapIdx_cons, literalCode, List.append_assoc]
      exact statements_cons hfirst (hrest h)

/-- The machine binds names to literals. -/
theorem Activation.leads_literals {c : Activation} {ip room : Nat} {ks : List Constant}
    (hc : c.code.Has ip (literalCode vs label)) (hcap : ks.length + 1 ≤ c.settings.stackCapacity) :
    Machine.Leads (c.Holds ρ (room + vs.length) ip ks)
      (c.Holds (withLiterals ρ vs label) room (ip + codeSize (literalCode vs label)) ks) := by
  induction vs generalizing ρ label ip with
  | nil => exact .of_imp fun m hm => hm
  | cons v vs ih =>
    have hload := hc.left.left
    have hstore := hc.left.right
    have hrest := hc.right
    rw [literalCode] at hc ⊢
    rw [codeSize_append, codeSize_append, ← Nat.add_assoc, ← Nat.add_assoc]
    rw [codeSize_append, ← Nat.add_assoc] at hrest
    exact (leads_load hload hcap).trans ((leads_storeName hstore).trans (ih hrest))

end

/-! ## New machines -/

/-- Defining the natives takes one object for each, and grounds the globals, in which nothing denotes a constant. -/
theorem Machine.exists_defineNatives {ns : List Native} {m : Machine} {room : Nat} {e : Environment}
    (hg : m.heap.Grounds m.globals (fun _ => none) e) (hs : m.heap.Spacious (room + ns.length)) :
    ∃ heap e', ns.forM defineNative m = .ok () { m with heap } ∧ heap.Grounds m.globals (fun _ => none) e' ∧
      heap.Spacious room := by
  induction ns generalizing m e with
  | nil => exact ⟨m.heap, e, rfl, hg, hs⟩
  | cons n ns ih =>
    have hplaced := hg.of_keeps (hs.keeps_place (.native n))
    let v : Value := .ref .native (m.heap.place (.native n)).1
    let heap := (m.heap.place (.native n)).2.update m.globals (Object.bind n.name v)
    have hdefine : defineNative n m = .ok () { m with heap } := by
      unfold defineNative
      rw [MachineM.onHeap_eq, hs.allocRef]
      dsimp only
      rw [MachineM.onHeap_eq]
      dsimp only
      rw [hplaced.define]
    obtain ⟨heap', e', hrest, hg', hs'⟩ := ih (m := { m with heap }) (hplaced.bind nofun nofun) ((hs.place _).update _ _)
    refine ⟨heap', e', ?_, hg', hs'⟩
    change EStateM.bind (defineNative n) (fun _ => ns.forM defineNative) m = _
    rw [EStateM.bind, hdefine]
    exact hrest

/-- A machine without a limit on its objects can be made, and has room. -/
theorem Machine.exists_ofSettings {s : Settings} (hl : s.maxHeapObjects = none) {room : Nat}
    (hroom : room + Builtin.natives.length + 1 ≤ Heap.maxSlots) :
    ∃ m e, ofSettings s = .ok m ∧ m.settings = s ∧ m.resolver = none ∧ m.heap.Grounds m.globals (fun _ => none) e ∧
      m.heap.Spacious room := by
  have hempty : (Heap.ofSettings s).Spacious (room + Builtin.natives.length + 1) :=
    ⟨Heap.sparse_ofSettings s, hl, by simpa [Heap.ofSettings] using hroom⟩
  let globals := (Heap.ofSettings s).place (.environment { parent := none })
  have hg : globals.2.Grounds globals.1 (fun _ => none) { parent := none } :=
    ⟨Heap.get?_place_self hempty.sparse hempty.hasRoom, rfl, Table.valid_withChains _, fun _ _ h => by cases h⟩
  have halloc : Heap.alloc (.environment { parent := none }) (.ofSettings s) = .ok globals.1 globals.2 := by
    have hlimit : (Heap.ofSettings s).limit = none := hl
    rw [Heap.alloc, hlimit]
  let m : Machine := { heap := globals.2, globals := globals.1, settings := s }
  obtain ⟨heap, e, hdefine, hg', hs'⟩ : ∃ heap e, Builtin.natives.forM defineNative m = .ok () { m with heap } ∧
      heap.Grounds globals.1 (fun _ => none) e ∧ heap.Spacious room := exists_defineNatives hg (hempty.place _)
  refine ⟨{ m with heap }, e, ?_, rfl, rfl, hg', hs'⟩
  unfold Builtin.natives at hdefine
  simp only [ofSettings, halloc]
  rw [hdefine]

/-! ## Programs -/

/-- The run of a program on a new machine ends with null, given enough fuel, and a global name denotes a constant then. -/
def Program.Binds (p : Program) (s : Settings) (r : String) (k : Constant) : Prop :=
  ∃ n m v, (∀ fuel, p.run (fuel + n) s = .ok (.finished .null, m)) ∧ m.global? r = some v ∧ m.heap.Denotes v k

/-- A program compiles when its statements do. -/
theorem Program.compile_of_statements {p : Program} (hpath : '\x00' ∉ p.path.toList) (hname : '\x00' ∉ p.name.toList)
    {body : List Instruction} {s : List Scope} (h : Compile.statements p.statements [{ kind := .global }] = .ok (body, s)) :
    p.compile = .ok ⟨p.path, p.name, encodeAll (body ++ Compile.returnNull)⟩ := by
  have hheader : Compile.header p [{ kind := .global }] = .ok ((), [{ kind := .global }]) := by
    rw [Compile.header, Compile.bind_ok (Compile.encoding_ok (Instruction.checkString_eq_ok.2 hpath))]
    exact Compile.encoding_ok (Instruction.checkString_eq_ok.2 hname)
  have hprogram : Compile.program p [{ kind := .global }] = .ok (body ++ Compile.returnNull, s) := by
    rw [Compile.program, Compile.bind_ok hheader, Compile.bind_ok h]
    rfl
  rw [Program.compile, hprogram]

/-- A return of the outermost frame ends the run, and keeps what the globals are bound to. -/
theorem Activation.Holds.finishes {c : Activation} {ρ : String → Option Constant} {room ip : Nat} {m : Machine}
    (h : c.Holds ρ room ip [.null] m) (ho : c.outer = #[]) (hc : c.code.Has ip [.ret]) :
    ∃ m' e, MachineM.step m = .ok (some .null) m' ∧ m'.globals = c.globals ∧ m'.heap.Grounds c.globals ρ e := by
  obtain ⟨stack, heap, last, e, heq, hstack, hg, hs⟩ := h.collected
  obtain ⟨v, rest, hv, hrest, rfl⟩ := List.forall₂_cons_right_iff.1 hstack
  cases hrest
  cases hv
  have hreturn : MachineM.advance (c.at ip c.globals ([] ++ [.null]) heap last) =
      MachineM.returnValue .null (c.at (ip + Instruction.width .ret) c.globals [] heap last) := advance_ret_at hc.decode
  refine ⟨{ c.at (ip + Instruction.width .ret) c.globals (([] : List Value).take c.base) heap last with frames := c.outer },
    e, ?_, rfl, hg⟩
  rw [MachineM.step_eq, heq]
  refine hreturn.trans ?_
  rw [returnValue_at, if_pos (by rw [ho]; rfl)]

/-- A program binds a name to a constant when its code, on a machine with room, comes to its end with that binding. -/
theorem Program.binds_of_leads (ρ : String → Option Constant) {p : Program} (hpath : '\x00' ∉ p.path.toList)
    (hname : '\x00' ∉ p.name.toList) {body : List Instruction} {scopes : List Scope}
    (hp : Compile.statements p.statements [{ kind := .global }] = .ok (body, scopes))
    (hsize : (Image.mk p.path p.name (encodeAll (body ++ Compile.returnNull))).encode.length < UInt64.size) {s : Settings}
    (hl : s.maxHeapObjects = none) (hcap : 1 ≤ s.stackCapacity) {room : Nat}
    (hroom : room + Builtin.natives.length + 1 ≤ Heap.maxSlots) {r : String} {k : Constant}
    (hruns : ∀ c : Activation, c.settings = s → c.code.Has 0 body →
      Machine.Leads (c.Holds (fun _ => none) room 0 []) (c.Holds (Function.update ρ r (some k)) 1 (0 + codeSize body) [])) :
    p.Binds s r k := by
  obtain ⟨m, e, hm, hsettings, hresolver, hg, hs⟩ := Machine.exists_ofSettings hl hroom
  let image : Image := ⟨p.path, p.name, encodeAll (body ++ Compile.returnNull)⟩
  let c := m.activation image
  have hchecked : Checked (body ++ Compile.returnNull) := (emits_stmts _ ⟨_, _, hp⟩).2.append checked_returnNull
  have hhas : c.code.Has 0 (body ++ Compile.returnNull) := ⟨hchecked, [], [], by simp [c, image, Machine.activation], rfl⟩
  have hload := hhas.right.left (a := [.load .null]) (b := [.ret])
  have hret := hhas.right.right (a := [.load .null]) (b := [.ret])
  have hstart : c.Holds (fun _ => none) room 0 [] (m.start image) := by
    refine ⟨[], m.heap, m.lastPopped, e, ?_, .nil, hg, hs⟩
    rw [Machine.start, Activation.at, ← hresolver]
    rfl
  obtain ⟨m₁, hreach, hholds⟩ := ((hruns c hsettings hhas.left).trans (Activation.leads_load hload (by
    rw [← hsettings] at hcap
    exact hcap))) _ hstart
  obtain ⟨m₂, e', hstep, hglobals, hg'⟩ := hholds.finishes rfl hret
  obtain ⟨n, hn⟩ := Machine.Finishes.steps ⟨m₁, hreach, hstep⟩
  obtain ⟨v, hv, hd⟩ := hg'.bound r k (Function.update_self _ _ _)
  refine ⟨n, m₂, v, fun fuel => ?_, ?_, hd⟩
  · rw [Program.run, Program.compile_of_statements hpath hname hp, hm]
    change Except.ok (m.run (fuel + n) image.encode) = _
    rw [Machine.run, Image.decode_encode hpath hname hsize]
    exact congrArg Except.ok (hn fuel)
  · rw [Machine.global?, hglobals, hg'.lookup hv]
    rfl

/-- The program that declares a variable by an expression. -/
def Program.direct (path name r : String) (e : Expr) : Program := ⟨path, name, [.declaration {} .var r (some e)]⟩

/-- The program that declares a variable for each literal of an expression, and then one by the expression over their names. -/
def Program.staged (path name r : String) (e : Expr) (label : Nat → String) : Program :=
  ⟨path, name, literalDeclarations e.leaves label ++ [.declaration {} .var r (some (e.named label))]⟩

/-- The last declaration of a program, in the outermost scope. -/
theorem statements_last {g : Scope} {r : String} {e : Expr} {code : List Instruction} (hg : g.kind = .global)
    (hnew : g.lookup? r = none) (hr : '\x00' ∉ r.toList) (he : (Compile.expr e).value [g] = .ok (code, [g])) :
    ∃ s, Compile.statements [.declaration {} .var r (some e)] [g] = .ok (code ++ [.storeName r], s) := by
  refine ⟨[g.withVariable {} r], ?_⟩
  have hall := statements_cons (code_variable {} hg hnew hr he) (by rw [Compile.statements]; rfl)
  rwa [List.append_nil] at hall

/-- A constant fresh from one load is bound to a name. -/
theorem Activation.leads_direct {c : Activation} {ρ : String → Option Constant} {room ip : Nat} {k : Constant} {r : String}
    (hc : c.code.Has ip ([.load k] ++ [.storeName r])) (hcap : 1 ≤ c.settings.stackCapacity) :
    Machine.Leads (c.Holds ρ (room + 1) ip [])
      (c.Holds (Function.update ρ r (some k)) room (ip + codeSize ([.load k] ++ [.storeName r])) []) := by
  rw [codeSize_append, ← Nat.add_assoc]
  have hload : Machine.Leads (c.Holds ρ (room + 1) ip []) (c.Holds ρ room (ip + codeSize [.load k]) ([] ++ [k])) :=
    leads_load hc.left hcap
  exact hload.trans (leads_storeName hc.right)

/-- The literals are bound to names, the operators are applied to what the names are bound to, and the result is bound. -/
theorem Activation.leads_staged {c : Activation} {ρ : String → Option Constant} {room ip : Nat} {vs : List Literal}
    {label : Nat → String} {e : Expr} {k : Constant} {code : List Instruction} {r : String}
    (he : e.Means (withLiterals ρ vs label) k) (hcode : ValueCode e code)
    (hc : c.code.Has ip (literalCode vs label ++ (code ++ [.storeName r]))) (hcap : e.operands ≤ c.settings.stackCapacity) :
    Machine.Leads (c.Holds ρ (room + e.codeBound + vs.length) ip [])
      (c.Holds (Function.update (withLiterals ρ vs label) r (some k)) room
        (ip + codeSize (literalCode vs label ++ (code ++ [.storeName r]))) []) := by
  have hone := he.one_le_operands
  have hcap₁ : ([] : List Constant).length + 1 ≤ c.settings.stackCapacity := by
    rw [List.length_nil]
    omega
  have hcap₂ : ([] : List Constant).length + e.operands ≤ c.settings.stackCapacity := by
    rw [List.length_nil]
    omega
  rw [codeSize_append, codeSize_append, ← Nat.add_assoc, ← Nat.add_assoc]
  refine (leads_literals hc.left hcap₁).trans ?_
  exact ((computes_of_means he).value hcode hc.right.left hcap₂).trans (leads_storeName hc.right.right)

section

variable {e : Expr} {k : Constant} {r : String} {label : Nat → String}

/-- Every name that is bound to a literal holds no NUL. -/
theorem nulFree_of_withLiterals {vs : List Literal} (hl : DistinctLabels vs.length label) {n : String}
    (hn : withLiterals (fun _ => none) vs label n = some k) : '\x00' ∉ n.toList := by
  intro hmem
  have hother : ∀ i < vs.length, label i ≠ n := fun i hi heq => hl.nulFree i hi (heq ▸ hmem)
  rw [withLiterals_of_ne hother] at hn
  nomatch hn

/-- A folded expression is loaded by one instruction. -/
theorem statements_direct (hk : e.fold? = some k) (hn : k.NulFree) (hr : '\x00' ∉ r.toList) :
    ∃ s, Compile.statements [.declaration {} .var r (some e)] [{ kind := .global }] = .ok ([.load k] ++ [.storeName r], s) := by
  refine statements_last rfl rfl hr ?_
  rw [expr_of_fold hk]
  exact Compile.emit_ok hn.check

/-- The operators over the names of literals are compiled behind the declarations of these names. -/
theorem statements_staged (he : e.IsConstant) (hk : (e.named label).Means (withLiterals (fun _ => none) e.leaves label) k)
    (hlabels : DistinctLabels e.leaves.length label) (hfresh : ∀ i < e.leaves.length, label i ≠ r) (hr : '\x00' ∉ r.toList)
    (hbound : (e.named label).codeBound < 2 ^ 31) :
    ∃ code s, ValueCode (e.named label) code ∧
      Compile.statements (literalDeclarations e.leaves label ++ [.declaration {} .var r (some (e.named label))])
        [{ kind := .global }] = .ok (literalCode e.leaves label ++ (code ++ [.storeName r]), s) := by
  have hnew : ∀ i < e.leaves.length, Scope.lookup? { kind := .global } (label i) = none := fun _ _ => rfl
  obtain ⟨g, hg, hkeep, hrest⟩ := statements_literals rfl hlabels he.nulFree_leaves hnew
  have hcompiles : Compiles g (e.named label) :=
    compiles_of_means (fun _ _ hn => nulFree_of_withLiterals hlabels hn) hk hbound
  obtain ⟨code, hcode, -⟩ := hcompiles.value
  obtain ⟨s, hlast⟩ := statements_last hg (hkeep r hfresh) hr hcode
  exact ⟨code, s, (emits_value _ ⟨_, _, hcode⟩).1, hrest hlast⟩

end

/-- Folding equals running. For a constant expression and distinct names for its literals, the program that declares a variable
by the expression loads it by one instruction; it and the program that applies the operators to the names both compile, run to
their end and bind the variable to the same constant. The code over the names must be in the reach of a jump, and the modules
no longer than their headers can say. -/
theorem Program.folding_eq_running {e : Expr} {r path name : String} {label : Nat → String} (he : e.IsConstant)
    (hlabels : DistinctLabels e.leaves.length label) (hfresh : ∀ i < e.leaves.length, label i ≠ r) (hr : '\x00' ∉ r.toList)
    (hpath : '\x00' ∉ path.toList) (hname : '\x00' ∉ name.toList) (hbound : (e.named label).codeBound < 2 ^ 31) :
    ∃ k direct staged, e.fold? = some k ∧ (Program.direct path name r e).compile = .ok direct ∧
      (Program.staged path name r e label).compile = .ok staged ∧
      direct.code = encodeAll ([.load k] ++ [.storeName r] ++ Compile.returnNull) ∧
      (direct.encode.length < UInt64.size → staged.encode.length < UInt64.size →
        ∀ s : Settings, s.maxHeapObjects = none → e.operands ≤ s.stackCapacity →
          (Program.direct path name r e).Binds s r k ∧ (Program.staged path name r e label).Binds s r k) := by
  obtain ⟨k, hk, hn⟩ := he.exists_fold
  have hmeans : (e.named label).Means (withLiterals (fun _ => none) e.leaves label) k :=
    he.means_named hk (namesLiterals_withLiterals hlabels)
  obtain ⟨s₁, h₁⟩ := statements_direct hk hn hr
  obtain ⟨code, s₂, hcode, h₂⟩ := statements_staged he hmeans hlabels hfresh hr hbound
  refine ⟨k, _, _, hk, Program.compile_of_statements hpath hname h₁, Program.compile_of_statements hpath hname h₂, rfl, ?_⟩
  intro hsize₁ hsize₂ s hl hcap
  have hone := hmeans.one_le_operands
  rw [← he.operands_named label] at hcap
  -- Each load of a literal and each operator takes at most one slot.
  have hslots := he.leaves_le_codeBound label
  have hroom₁ : 1 + 1 + Builtin.natives.length + 1 ≤ Heap.maxSlots := by decide
  have hroom₂ : 1 + (e.named label).codeBound + e.leaves.length + Builtin.natives.length + 1 ≤ Heap.maxSlots := by
    have hnatives : Builtin.natives.length = 4 := rfl
    have hmax : Heap.maxSlots = 2 ^ 32 := rfl
    omega
  constructor
  · refine Program.binds_of_leads (fun _ => none) hpath hname h₁ hsize₁ hl (Nat.le_trans hone hcap) hroom₁ fun c hs hc => ?_
    exact Activation.leads_direct hc (hs ▸ Nat.le_trans hone hcap)
  · refine Program.binds_of_leads (withLiterals (fun _ => none) e.leaves label) hpath hname h₂ hsize₂ hl (Nat.le_trans hone hcap) hroom₂
      fun c hs hc => ?_
    exact Activation.leads_staged hmeans hcode hc (hs ▸ hcap)

/-- A division by zero, and a conjunction with a text: `(1 / 0) + (true && "x")`. -/
def Expr.divisionSample : Expr :=
  .binary {} (.arith .add) (.binary {} (.arith .divide) (.literal {} (.int 1)) (.literal {} (.int 0)))
    (.logical {} .and (.literal {} (.bool true)) (.literal {} (.string "x")))

/-- Names for its four literals. -/
def Expr.sampleLabel (i : Nat) : String := ["a", "b", "c", "d"].getD i ""

/-- The sample expression divides by zero, and so both of its programs bind their variable to that error. -/
theorem Program.folding_eq_running_divisionSample :
    Expr.divisionSample.IsConstant ∧ DistinctLabels Expr.divisionSample.leaves.length Expr.sampleLabel ∧
      ∀ s : Settings, s.maxHeapObjects = none → 2 ≤ s.stackCapacity →
        (Program.direct "m.vs" "m" "r" Expr.divisionSample).Binds s "r" (.error "division by zero") ∧
          (Program.staged "m.vs" "m" "r" Expr.divisionSample Expr.sampleLabel).Binds s "r" (.error "division by zero") := by
  have hconstant : Expr.divisionSample.IsConstant :=
    .binary (.binary (.literal nofun) (.literal nofun)) (.logical (.literal nofun) (.literal fun t ht => by cases ht; decide))
  have hlabels : DistinctLabels Expr.divisionSample.leaves.length Expr.sampleLabel := ⟨by decide, by decide⟩
  refine ⟨hconstant, hlabels, ?_⟩
  obtain ⟨k, direct, staged, hk, hdirect, hstaged, -, hruns⟩ :=
    @Program.folding_eq_running Expr.divisionSample "r" "m.vs" "m" Expr.sampleLabel hconstant hlabels (by decide) (by decide)
      (by decide) (by decide) (by decide)
  have hvalue : Expr.divisionSample.fold? = some (.error "division by zero") := by decide
  rw [hvalue] at hk
  cases hk
  obtain ⟨image, himage, hsize⟩ : ∃ image, (Program.direct "m.vs" "m" "r" Expr.divisionSample).compile = .ok image ∧
      image.encode.length < UInt64.size := ⟨_, rfl, by decide⟩
  obtain ⟨image', himage', hsize'⟩ : ∃ image,
      (Program.staged "m.vs" "m" "r" Expr.divisionSample Expr.sampleLabel).compile = .ok image ∧
      image.encode.length < UInt64.size := ⟨_, rfl, by decide⟩
  rw [hdirect] at himage
  rw [hstaged] at himage'
  cases himage
  cases himage'
  exact hruns hsize hsize'

end ScriptVM
