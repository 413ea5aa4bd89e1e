import Mathlib.Data.List.Flatten
import Mathlib.Data.List.Perm.Subperm
import ScriptVM.Proofs.Folding
import ScriptVM.Proofs.Judging

/-!
# The compiler accepts what the scope rules allow

Along the tree, expressions, statements and functions are judged against their rules and the bounds of their sizes, from the parts
that they are compiled to. Constant expressions, which the folder takes instead, break no rule. A program without a NUL that meets
no operand limit is compiled exactly if it obeys the scope rules, and a program of bounded size meets none
(`Program.compile_iff_obeys`).
-/

namespace ScriptVM

open Compile

/-! ## Constants -/

/-- An expression that folds is a tree of literals and operators. -/
theorem Expr.isConstant_of_fold {e : Expr} {k : Constant} (h : e.fold? = some k) (he : ∀ s ∈ e.texts, '\x00' ∉ s.toList) :
    e.IsConstant := by
  induction e using Expr.fold?.induct generalizing k with
  | case1 span v =>
    refine .literal fun t ht => he t ?_
    rw [ht]
    exact List.mem_cons_self
  | case2 span op e ih =>
    obtain ⟨a, ha, -⟩ := Option.bind_eq_some_iff.1 h
    exact .unary (ih ha he)
  | case3 span op l r ihl ihr =>
    obtain ⟨a, ha, hrest⟩ := Option.bind_eq_some_iff.1 h
    obtain ⟨b, hb, -⟩ := Option.bind_eq_some_iff.1 hrest
    exact .binary (ihl ha fun s hs => he s (List.mem_append_left _ hs)) (ihr hb fun s hs => he s (List.mem_append_right _ hs))
  | case4 span op l r ihl ihr =>
    obtain ⟨a, ha, hrest⟩ := Option.bind_eq_some_iff.1 h
    obtain ⟨b, hb, -⟩ := Option.bind_eq_some_iff.1 hrest
    exact .logical (ihl ha fun s hs => he s (List.mem_append_left _ hs)) (ihr hb fun s hs => he s (List.mem_append_right _ hs))
  | case5 e _ _ _ _ => simp [Expr.fold?] at h

/-- A constant expression obeys the scope rules in every context. -/
theorem Expr.IsConstant.obeys {e : Expr} (h : e.IsConstant) (Γ : Context) : e.Obeys Γ := by
  induction h with
  | literal _ => trivial
  | unary _ ih => exact ih
  | binary _ _ ihl ihr => exact ⟨ihl, ihr⟩
  | logical _ _ ihl ihr => exact ⟨ihl, ihr⟩

/-! ## Functions -/

/-- The room of a list of texts is that of its first and that of the others. -/
theorem textRoom_cons (t : String) (ts : List String) : textRoom (t :: ts) = (textBytes t).length + textRoom ts := by
  rw [textRoom, List.flatMap_cons, List.length_append]
  rfl

/-- Every text has a byte that ends it. -/
theorem length_le_textRoom (ts : List String) : ts.length ≤ textRoom ts := by
  induction ts with
  | nil => exact Nat.zero_le _
  | cons t ts ih =>
    rw [textRoom_cons, List.length_cons, textBytes, List.length_append, List.length_singleton]
    omega

/-- Captured names are no larger than the vocabulary. -/
theorem Captures.textRoom_le {V : Vocabulary} {names : List String} (h : Captures V names) : textRoom names ≤ textRoom V.texts := by
  obtain ⟨l, hperm, hsub⟩ := List.subperm_of_subset h.nodup h.subset
  calc textRoom names = textRoom l := ((hperm.flatMap_right textBytes).length_eq).symm
    _ ≤ textRoom V.texts := (hsub.flatMap textBytes).length_le

/-- The width of a function instruction: its texts, its body, and what does not depend on them. -/
theorem width_makeFunction (p : Prototype) : (Instruction.makeFunction p).width =
    textRoom [p.name] + textRoom p.params + textRoom p.captures + p.body.length + 11 := by
  simp only [Instruction.width, Instruction.encode, Instruction.operandBytes, Prototype.operandBytes, textRoom, List.length_cons,
    List.length_append, length_littleEndian, List.flatMap_cons, List.flatMap_nil, List.length_nil]
  omega

/-- A function without a NUL in its texts is refused for one of its counts. -/
theorem check_makeFunction_eq_error {p : Prototype} (hp : ∀ s ∈ (Instruction.makeFunction p).strings, '\x00' ∉ s.toList) {e : EmitError}
    (h : (Instruction.makeFunction p).check = .error e) : (CompileCause.emit e).Oversized ∧
      (UInt8.size - 1 < p.params.length ∨ UInt32.size - 1 < p.captures.length ∨ UInt32.size - 1 < p.body.length) := by
  rcases bind_eq_error h with hstrings | ⟨_, _, h⟩
  · rw [Instruction.forM_checkString_eq_ok.2 hp] at hstrings
    cases hstrings
  · rcases bind_eq_error h with hparams | ⟨_, _, h⟩
    · exact (checkCount_eq_error (by simp [countLimits]) hparams).imp_right .inl
    · rcases bind_eq_error h with hcaptures | ⟨_, _, hbody⟩
      · exact (checkCount_eq_error (by simp [countLimits]) hcaptures).imp_right fun hlt => .inr (.inl hlt)
      · exact (checkCount_eq_error (by simp [countLimits]) hbody).imp_right fun hlt => .inr (.inr hlt)

section

variable {V : Vocabulary}

namespace Judges

variable {size : Nat} {Γ : Context} {span : Span} {code : List Instruction} {i : Instruction}

/-- A function without NUL is emitted, unless it has too many parameters or too much code. -/
theorem makeFunction {p : Prototype} (hp : ∀ s ∈ (Instruction.makeFunction p).strings, '\x00' ∉ s.toList)
    (hsize : (Instruction.makeFunction p).width + excess (UInt8.size - 1) p.params.length ≤ size) :
    Builds V size Γ (Compile.emit span (.makeFunction p)) True Γ := by
  have hcheck (e : EmitError) (he : (Instruction.makeFunction p).check = .error e) : (CompileCause.emit e).Exceeds size := by
    obtain ⟨hoversized, hcount⟩ := check_makeFunction_eq_error hp he
    refine ⟨hoversized, ?_⟩
    have hcaptures := length_le_textRoom p.captures
    rw [width_makeFunction] at hsize
    rcases hcount with hparams | hcount
    · have hexcess := le_excess hparams
      omega
    · have hlimit : UInt32.size - 1 = 4294967295 := rfl
      omega
  refine (encoding hcheck).andThen fun _ _ => pure ?_
  rw [codeSize_singleton]
  exact Nat.le_trans (Nat.le_add_right _ _) hsize

/-! ## Code -/

/-- An instruction behind code. -/
theorem behind (width : Nat) (hi : i.check = .ok ()) (hwidth : i.width = width) (hsize : codeSize code + width ≤ size) :
    Builds V size Γ (do return code ++ (← Compile.emit span i)) True Γ := by
  refine (emit hi).andThen fun last hlast => pure ?_
  rwa [hlast, codeSize_concat, hwidth]

/-- A loop is built unless its code is beyond the reach of a jump. -/
theorem loop {head : Fragment} {body : List Instruction} (h : head.size + codeSize body + Fragment.jumpWidth ≤ size) :
    Builds V size Γ (Compile.loop span head body) True Γ := by
  refine (jumpBy (by rwa [Int.natAbs_neg, Int.natAbs_natCast])).andThen fun back hback => ?_
  refine (place (by rwa [← Nat.add_assoc])).andThen fun test htest => pure ?_
  rwa [codeSize_append, codeSize_append, htest, hback]

/-- An iteration is built unless its body is beyond the reach of a jump. -/
theorem iterate {arity : UInt8} {body : List Instruction}
    (h : Fragment.iterNextWidth + codeSize body + Fragment.jumpWidth ≤ size) :
    Builds V size Γ (Compile.iterate span arity body) True Γ := by
  refine (jumpBy (by rwa [Int.natAbs_neg, Int.natAbs_natCast])).andThen fun back hback => ?_
  have hexit (e : EmitError) (he : jumpDistance (codeSize body + Fragment.jumpWidth : Nat) = .error e) :
      (CompileCause.emit e).Exceeds size := by
    obtain ⟨hoversized, hle⟩ := jumpDistance_eq_error he
    rw [Int.natAbs_natCast] at hle
    exact ⟨hoversized, by omega⟩
  refine (encoding hexit).andThen fun exit _ => pure ?_
  rwa [← List.singleton_append, codeSize_append, codeSize_append, codeSize_singleton, width_iterNext, hback]

/-- A choice is built unless its parts are beyond the reach of a jump. -/
theorem choose {condition : Fragment} {whenTrue whenFalse : List Instruction}
    (h : condition.size + codeSize whenTrue + Fragment.jumpWidth + codeSize whenFalse ≤ size) :
    Builds V size Γ (Compile.choose span condition whenTrue whenFalse) True Γ := by
  refine (jumpBy (by rw [Int.natAbs_natCast]; omega)).andThen fun skip hskip => ?_
  refine (place (by omega)).andThen fun test htest => pure ?_
  rw [codeSize_append, codeSize_append, codeSize_append, htest, hskip]
  omega

/-- A variable is declared behind the code of its value, and stored. -/
theorem declared {kind : DeclKind} {x : String} (hx : '\x00' ∉ x.toList)
    (hsize : codeSize code + (Instruction.storeName x).width ≤ size) :
    Builds V size Γ (do Compile.declare span (some kind) x; return code ++ (← Compile.emit span (.storeName x)))
      (Γ.Admits kind x) (Γ.declare x (kind = .const)) := by
  have hdeclare : Decides V size Γ (Compile.declare span (some kind) x) (Γ.Admits kind x) (Γ.declare x (kind = .const)) := by
    have hconst : decide (kind = .const) = decide (some kind = some .const) := by simp
    rw [hconst]
    exact declare
  exact hdeclare.andThen fun _ _ => behind _ (check_text rfl (by simp) hx) rfl hsize

/-- A variable of a loop is declared in the scope of the loop. -/
theorem bindName {x : String} (hΓ : Γ.innermost.kind = .loop) (hx : '\x00' ∉ x.toList) :
    Judges V size Γ (Compile.bind span x) (¬Γ.Declares x) (Γ.declare x false) (· = [.storeName x]) := by
  have hdeclare : Decides V size Γ (Compile.declare span (some .localVar) x) (¬Γ.Declares x) (Γ.declare x false) :=
    declare.congr (by simp [Allowed, DeclKind.MayStandIn, hΓ])
  exact hdeclare.andThen fun _ _ => emit (check_text rfl (by simp) hx)

/-- One pass of a loop binds the value and the key, and runs the body. -/
theorem pass (span : Span) {key : Option String} {value : String} {c : CompileM (List Instruction)} {rule : Prop} {Γ' : Context} {n : Nat}
    (hnul : ∀ x ∈ value :: key.toList, '\x00' ∉ x.toList)
    (hsize : codeSize ((value :: key.toList).map Instruction.storeName) + n ≤ size)
    (hc : Builds V n ((Γ.enter .loop).declareAll (value :: key.toList)) c rule Γ') :
    Builds V size (Γ.enter .loop) (do
      let valueCode ← Compile.bind span value
      let keyCode ←
        match key with
        | some key => Compile.bind span key
        | none => Pure.pure []
      return valueCode ++ keyCode ++ (← c)) ((value :: key.toList).Nodup ∧ rule) Γ' := by
  have hvalue : Judges V size (Γ.enter .loop) (Compile.bind span value) (¬(Γ.enter .loop).Declares value)
    ((Γ.enter .loop).declare value false) (· = [.storeName value]) := bindName rfl (hnul value List.mem_cons_self)
  have hbody : Judges V size ((Γ.enter .loop).declareAll (value :: key.toList)) c rule Γ' (codeSize · ≤ n) :=
    hc.within (by omega)
  cases key with
  | none =>
    have hnone : Judges V size ((Γ.enter .loop).declare value false) (Pure.pure ([] : List Instruction)) True _ (· = []) := pure rfl
    refine (hvalue.bind fun v hv => hnone.before fun k hk => hbody.andThen fun code hcode => pure ?_).congr ?_
    · rw [codeSize_append, hv, hk]
      exact Nat.le_trans (Nat.add_le_add_left hcode _) hsize
    · simp [Context.not_declares_enter]
  | some key =>
    have hkey : Judges V size ((Γ.enter .loop).declare value false) (Compile.bind span key)
      (¬((Γ.enter .loop).declare value false).Declares key) _ (· = [.storeName key]) := bindName rfl (hnul key (by simp))
    refine (hvalue.bind fun v hv => hkey.bind fun k hk => hbody.andThen fun code hcode => pure ?_).congr ?_
    · rw [codeSize_append, hv, hk]
      exact Nat.le_trans (Nat.add_le_add_left hcode _) hsize
    · simp [Context.declares_declare, Context.not_declares_enter]

/-- Code in an environment of its own is built by the rule of the code one level deeper, with two instructions more. -/
theorem inEnvironment {Γ' : Context} {kind : ScopeKind} {c : CompileM (List Instruction)} {rule : Prop} {n : Nat}
    (hc : Builds V n (Γ.enter kind) c rule Γ') (houter : Γ'.outer = Γ.levels) (hsize : n + 2 ≤ size) :
    Builds V size Γ (Compile.inEnvironment kind c) rule Γ := by
  refine ((hc.within (by omega)).inScope houter).andThen fun r hr => pure ?_
  rw [codeSize_concat, ← List.singleton_append, codeSize_append]
  have hcode : codeSize r.1 ≤ n := hr.1
  have hwidths : codeSize [.enterScope] = 1 ∧ Instruction.width .exitScope = 1 := ⟨rfl, rfl⟩
  omega

/-- A single statement is built by the rule it has in a scope of its own. -/
theorem single {Γ' : Context} {c : CompileM (List Instruction)} {rule : Prop} (hc : Builds V size (Γ.enter .single) c rule Γ')
    (houter : Γ'.outer = Γ.levels) : Builds V size Γ (Compile.single c) rule Γ := by
  rw [Compile.single, map_eq_pure_bind]
  exact (hc.inScope houter).andThen fun _ hr => pure hr.1

end Judges

/-! ## Expressions -/

/-- Both ways to compile an expression are judged by one rule, declare nothing, and emit code of bounded size. -/
structure Compile.Lowered.Decides (V : Vocabulary) (size : Nat) (Γ : Context) (rule : Prop) (l : Lowered) : Prop where
  value : Builds V size Γ l.value rule Γ
  jump : ∀ sense, Judges V size Γ (l.jump sense) rule Γ (Fragment.size · ≤ size + Fragment.jumpWidth)

namespace Compile.Lowered.Decides

variable {size m n : Nat} {Γ : Context} {rule rule' : Prop} {l r : Lowered} {value : CompileM (List Instruction)} {span : Span}

theorem congr (h : l.Decides V size Γ rule) (hrule : rule ↔ rule') : l.Decides V size Γ rule' :=
  ⟨h.value.congr hrule, fun sense => (h.jump sense).congr hrule⟩

/-- An expression lowered from its value is judged as its value is. -/
theorem ofValue (h : Builds V size Γ value rule Γ) : (Lowered.ofValue value).Decides V size Γ rule := by
  refine ⟨h, fun _ => h.andThen fun code hcode => .pure ?_⟩
  rw [Fragment.size_append, Fragment.size_ofCode]
  exact Nat.add_le_add_right hcode _

/-- A constant without NUL is always accepted. -/
theorem ofConstant {c : Constant} (hc : c.NulFree) (hsize : (Instruction.load c).width ≤ size) :
    (Lowered.ofConstant span c).Decides V size Γ True := by
  refine ⟨(Judges.emit hc.check).imp fun code hcode => ?_, fun sense => .pure ?_⟩
  · rwa [hcode, codeSize_singleton]
  · split
    · exact Nat.le_add_left _ _
    · exact Nat.zero_le _

/-- A negation is judged as its operand is. -/
theorem not (h : l.Decides V n Γ rule) (hsize : n + 1 ≤ size) : (Lowered.not span l).Decides V size Γ rule := by
  refine ⟨?_, fun sense => ((h.jump (!sense)).within (by omega)).imp fun f hf => by omega⟩
  exact (h.value.within (by omega)).andThen fun code hcode => .behind 1 rfl rfl (by omega)

/-- The jumps of a condition are judged by the rules of both sides. -/
theorem logicalJump {op : LogicalOp} (hl : l.Decides V m Γ rule) (hr : r.Decides V n Γ rule') (hsize : m + n + 17 ≤ size)
    (sense : Bool) : Judges V size Γ (Lowered.logicalJump span op l r sense) (rule ∧ rule') Γ (Fragment.size · ≤ m + n + 10) := by
  have hjump (b : Bool) := ((hl.jump b).within (by omega : m ≤ size))
  have hsecond := ((hr.jump sense).within (by omega : n ≤ size))
  simp only [Fragment.jumpWidth] at hjump hsecond
  unfold Lowered.logicalJump
  split
  · refine (hjump sense).bind fun f hf => hsecond.andThen fun g hg => .pure ?_
    rw [Fragment.size_append]
    omega
  · refine (hjump (!sense)).bind fun f hf => hsecond.andThen fun g hg => ?_
    refine (Judges.place (by omega)).andThen fun skip hskip => .pure ?_
    rw [Fragment.size_append, Fragment.size_ofCode, hskip]
    omega

/-- A condition is judged by the rules of both sides. -/
theorem logical {op : LogicalOp} (hl : l.Decides V m Γ rule) (hr : r.Decides V n Γ rule') (hsize : m + n + 17 ≤ size) :
    (Lowered.logical span op l r).Decides V size Γ (rule ∧ rule') := by
  refine ⟨?_, fun sense => (logicalJump hl hr hsize sense).imp fun f hf => by omega⟩
  have hwidths : codeSize [.load (.bool false)] = 1 ∧ Instruction.width (.load (.bool true)) = 1 ∧ Fragment.jumpWidth = 5 :=
    ⟨rfl, rfl, rfl⟩
  refine (logicalJump hl hr hsize false).andThen fun f hf => ?_
  refine (Judges.jumpBy (by rw [Int.natAbs_natCast]; omega)).andThen fun skip hskip => ?_
  have htrue : codeSize (.load (.bool true) :: skip) = 6 := by
    rw [codeSize, hskip]
    rfl
  refine (Judges.place (by omega)).andThen fun test htest => .pure ?_
  rw [codeSize_append, codeSize_append, htest, htrue]
  omega

end Compile.Lowered.Decides

/-! ## Statements -/

/-- The ways to compile a statement are judged by its rules: in a list of statements, as a branch and as the body of a loop. -/
structure Compile.LoweredStmt.Decides (V : Vocabulary) (size : Nat) (b : Stmt) (l : LoweredStmt) : Prop where
  code : ∀ Γ, Builds V size Γ l.code (b.Obeys false Γ) (Γ.after b)
  arm : ∀ Γ, Builds V size Γ l.arm (b.Obeys false (Γ.around b)) Γ
  loopBody : ∀ Γ, ∃ Γ', Γ'.outer = Γ.outer ∧ Builds V size Γ l.loopBody (b.Obeys true (Γ.around b)) Γ'

namespace Compile.LoweredStmt.Decides

variable {size n : Nat} {b : Stmt} {c : CompileM (List Instruction)}

/-- A statement that is no block stands in a scope of its own where it is a branch or a body. -/
theorem ofCode (hb : ∀ span body, b ≠ .block span body) (h : ∀ Γ, Builds V size Γ c (b.Obeys false Γ) (Γ.after b)) :
    (LoweredStmt.ofCode c).Decides V size b := by
  have hsingle (Γ : Context) : Builds V size Γ (single c) (b.Obeys false (Γ.around b)) Γ := by
    rw [Γ.around_of_ne_block hb]
    exact .single (h _) (Context.outer_after b)
  refine ⟨h, hsingle, fun Γ => ⟨Γ, rfl, (hsingle Γ).congr ?_⟩⟩
  exact (Stmt.obeys_isLoopBody hb).symm

/-- A block opens a scope, but shares that of a loop as its body. -/
theorem block {span : Span} {body : List Stmt} (h : ∀ Γ, Builds V n Γ c (Stmt.AllObey Γ body) (Γ.afterAll body))
    (hsize : n + 2 ≤ size) : (LoweredStmt.block c).Decides V size (.block span body) := by
  have hbraced (Γ : Context) : Builds V size Γ (inEnvironment .block c) ((Stmt.block span body).Obeys false Γ) Γ :=
    (Judges.inEnvironment (h _) Context.outer_afterAll hsize).congr (by rw [Stmt.Obeys]; rfl)
  refine ⟨hbraced, hbraced, fun Γ => ⟨Γ.afterAll body, Context.outer_afterAll, ?_⟩⟩
  have hshared := ((h Γ).within (by omega : n ≤ size)).imp fun code hcode => (by omega : codeSize code ≤ size)
  refine hshared.congr ?_
  rw [Stmt.Obeys]
  rfl

end Compile.LoweredStmt.Decides

/-! ## Along the tree -/

/-- An assigned name is not resolved to a constant. -/
theorem Expr.assignable_name {Γ : Context} {span : Span} {x : String} :
    (Expr.name span x).Assignable Γ ↔ (Γ.visible? x).any DeclaredName.isConst = false := by
  cases h : Γ.visible? x <;> simp [Expr.Assignable, h]

/-- What a constant expression is folded to has room in the bound of the expression. -/
theorem Expr.IsConstant.width_le_room {e : Expr} (h : e.IsConstant) {k : Constant} (hk : e.fold? = some k) (captured : Nat) :
    (Instruction.load k).width ≤ e.room captured := by
  have hfolded : e.foldedRoom = (Instruction.load k).width := by rw [Expr.foldedRoom, hk]; rfl
  cases h with
  | literal _ =>
    cases hk
    exact Nat.le_of_eq (by rw [Expr.room])
  | unary _ | binary _ _ | logical _ _ =>
    rw [← hfolded, Expr.room]
    exact Nat.le_add_left _ _

/-- A function, given what its body is compiled to. -/
theorem builds_function {s : Span} {name : Option String} {params : List String} {isAsync : Bool} {body : List Stmt}
    (hd : ∀ t ∈ (FunctionDecl.mk s name params isAsync body).texts, t ∈ V.texts)
    (hbody : ∀ Γ, Builds V (Stmt.allRoom (textRoom V.texts) body) Γ (statements body) (Stmt.AllObey Γ body) (Γ.afterAll body))
    (Γ : Context) : Builds V ((FunctionDecl.mk s name params isAsync body).room (textRoom V.texts)) Γ
      (function (.mk s name params isAsync body)) ((FunctionDecl.mk s name params isAsync body).Obeys Γ) Γ := by
  rw [function, FunctionDecl.Obeys, FunctionDecl.room]
  have hinside : Judges V (Stmt.allRoom (textRoom V.texts) body) (Γ.enter .function)
      (do params.forM (declareParameter s); let code ← statements body; return closeBody body code)
      ((params.Nodup ∧ ∀ x ∈ params, ¬(Γ.enter .function).Declares x) ∧ Stmt.AllObey ((Γ.enter .function).declareAll params) body)
      (((Γ.enter .function).declareAll params).afterAll body)
      (codeSize · ≤ Stmt.allRoom (textRoom V.texts) body + 2) := by
    refine Judges.declareParameters.bind fun _ _ => (hbody _).andThen fun code hcode => .pure ?_
    rcases closeBody_cases body code with hclose | hclose
    · rw [hclose]
      omega
    · rw [hclose, codeSize_append]
      exact Nat.add_le_add_right hcode _
  have houter : (((Γ.enter .function).declareAll params).afterAll body).outer = Γ.levels :=
    Context.outer_afterAll.trans Context.outer_declareAll
  have hscope := ((hinside.inScope houter).within
    (by omega : _ ≤ textRoom [name.getD anonymous] + textRoom params + textRoom V.texts + Stmt.allRoom (textRoom V.texts) body + 13 +
      excess (UInt8.size - 1) params.length))
  refine (hscope.andThen fun r ⟨hcode, hcaptures⟩ => .makeFunction (fun t ht => ?_) ?_).congr (by simp [Context.not_declares_enter])
  · rcases List.mem_append.1 ht with ht | ht
    · rcases List.mem_cons.1 ht with rfl | ht
      · cases name with
        | none => exact (by decide : '\x00' ∉ anonymous.toList)
        | some x => exact V.nulFree x (hd x (by simp [FunctionDecl.texts]))
      · exact V.nulFree t (hd t (by simp [FunctionDecl.texts, ht]))
    · exact V.nulFree t (hcaptures.subset t ht)
  · have hnames := hcaptures.textRoom_le
    rw [width_makeFunction, length_encodeAll]
    dsimp only
    omega

mutual

/-- An expression compiles just if it obeys the scope rules, unless an operand is too large. -/
theorem decides_expr (e : Expr) (he : ∀ t ∈ e.texts, t ∈ V.texts) (Γ : Context) :
    (expr e).Decides V (e.room (textRoom V.texts)) Γ (e.Obeys Γ) := by
  cases hf : e.fold? with
  | some k =>
    -- The folder skips the tree, which holds neither names nor functions.
    have hconstant := Expr.isConstant_of_fold hf fun t ht => V.nulFree t (he t ht)
    obtain ⟨_, hk, hnul⟩ := hconstant.exists_fold
    cases hf.symm.trans hk
    rw [expr_of_fold hf]
    exact (Lowered.Decides.ofConstant hnul (hconstant.width_le_room hf _)).congr (iff_of_true trivial (hconstant.obeys Γ))
  | none =>
    unfold expr
    rw [hf]
    cases e with
    | literal s v => cases hf
    | name s x =>
      have hx := he x (by simp [Expr.texts])
      rw [Expr.Obeys, Expr.room]
      refine .ofValue ((Judges.resolve hx).before fun _ _ => ?_)
      exact (Judges.emit (check_text rfl (by simp) (V.nulFree x hx))).imp fun code hcode => by rw [hcode]; exact Nat.le_refl _
    | unary s op e =>
      have hoperand := decides_expr e he Γ
      have hroom : e.room (textRoom V.texts) + 1 ≤ (Expr.unary s op e).room (textRoom V.texts) := by
        rw [Expr.room]
        omega
      rw [Expr.Obeys]
      cases op with
      | not => exact .not hoperand hroom
      | negate =>
        exact .ofValue ((hoperand.value.within (by omega)).andThen fun a ha => .behind 1 rfl rfl (by omega))
    | binary s op l r =>
      have hleft := decides_expr l (fun t ht => he t (by simp [Expr.texts, ht])) Γ
      have hright := decides_expr r (fun t ht => he t (by simp [Expr.texts, ht])) Γ
      have hroom : l.room (textRoom V.texts) + r.room (textRoom V.texts) + 1 ≤ (Expr.binary s op l r).room (textRoom V.texts) := by
        rw [Expr.room]
        omega
      rw [Expr.Obeys]
      refine .ofValue ((hleft.value.within (by omega)).bind fun a ha => (hright.value.within (by omega)).andThen fun b hb => ?_)
      exact .behind 1 rfl rfl (by rw [codeSize_append]; omega)
    | logical s op l r =>
      have hleft := decides_expr l (fun t ht => he t (by simp [Expr.texts, ht])) Γ
      have hright := decides_expr r (fun t ht => he t (by simp [Expr.texts, ht])) Γ
      have hroom : l.room (textRoom V.texts) + r.room (textRoom V.texts) + 17 ≤ (Expr.logical s op l r).room (textRoom V.texts) := by
        rw [Expr.room]
        omega
      rw [Expr.Obeys]
      exact .logical hleft hright hroom
    | assign s target value =>
      have hvalue := decides_expr value (fun t ht => he t (by simp [Expr.texts, ht])) Γ
      rw [Expr.Obeys, Expr.room]
      cases target with
      | name s' x =>
        have hx := he x (by simp [Expr.texts])
        rw [Expr.assignable_name, Expr.room]
        have hassign : Builds V ((Instruction.loadName x).width + value.room (textRoom V.texts)) Γ
            (do return (← (expr value).value) ++ (← emit s (.setName x))) (value.Obeys Γ) Γ :=
          (hvalue.value.within (by omega)).andThen fun a ha =>
            .behind (Instruction.loadName x).width (check_text rfl (by simp) (V.nulFree x hx)) rfl (by omega)
        refine .ofValue ((Judges.resolve hx).before fun found hfound => ?_)
        rw [hfound]
        cases found with
        | none => exact hassign.congr (by simp)
        | some y =>
          dsimp only
          split
          · rename_i hconst
            exact .fail_bind id (by simp [hconst])
          · rename_i hconst
            exact hassign.congr (by simp [hconst])
      | _ => exact .ofValue (.fail id fun hrule => hrule.1)
    | call s callee args =>
      have hcallee := decides_expr callee (fun t ht => he t (by simp [Expr.texts, ht])) Γ
      have hargs := decides_values args (fun t ht => he t (by simp [Expr.texts, ht])) Γ
      rw [Expr.Obeys, Expr.room]
      refine .ofValue ((Judges.checkCount (by simp [countLimits]) (by omega)).before fun _ _ => ?_)
      refine (hcallee.value.within (by omega)).bind fun a ha => (hargs.within (by omega)).andThen fun b hb => ?_
      exact .behind 2 rfl rfl (by rw [codeSize_append]; omega)
    | member s e x =>
      have hobject := decides_expr e (fun t ht => he t (by simp [Expr.texts, ht])) Γ
      have hx := V.nulFree x (he x (by simp [Expr.texts]))
      rw [Expr.Obeys, Expr.room]
      refine .ofValue ((hobject.value.within (by omega)).andThen fun a ha => ?_)
      exact .behind _ (check_text rfl (by simp) hx) rfl (by omega)
    | index s o i =>
      have hobject := decides_expr o (fun t ht => he t (by simp [Expr.texts, ht])) Γ
      have hindex := decides_expr i (fun t ht => he t (by simp [Expr.texts, ht])) Γ
      rw [Expr.Obeys, Expr.room]
      refine .ofValue ((hobject.value.within (by omega)).bind fun a ha => (hindex.value.within (by omega)).andThen fun b hb => ?_)
      exact .behind 1 rfl rfl (by rw [codeSize_append]; omega)
    | array s es =>
      have hitems := decides_values es he Γ
      rw [Expr.Obeys, Expr.room]
      refine .ofValue ((Judges.checkCount (by simp [countLimits]) (by omega)).before fun _ _ => ?_)
      exact (hitems.within (by omega)).andThen fun a ha => .behind 5 rfl rfl (by omega)
    | map s ps =>
      have hitems := decides_pairs ps he Γ
      rw [Expr.Obeys, Expr.room]
      refine .ofValue ((Judges.checkCount (by simp [countLimits]) (by omega)).before fun _ _ => ?_)
      exact (hitems.within (by omega)).andThen fun a ha => .behind 5 rfl rfl (by omega)
    | range s a b c =>
      cases c with
      | some c =>
        have hstart := decides_expr a (fun t ht => he t (by simp [Expr.texts, ht])) Γ
        have hstop := decides_expr b (fun t ht => he t (by simp [Expr.texts, ht])) Γ
        have hstep := decides_expr c (fun t ht => he t (by simp [Expr.texts, ht])) Γ
        rw [Expr.Obeys, Expr.room]
        refine .ofValue ((hstart.value.within (by omega)).bind fun x hx => (hstop.value.within (by omega)).bind fun y hy => ?_)
        refine (hstep.value.within (by omega)).andThen fun z hz => ?_
        exact .behind 1 rfl rfl (by rw [codeSize_append, codeSize_append]; omega)
      | none =>
        have hstart := decides_expr a (fun t ht => he t (by simp [Expr.texts, ht])) Γ
        have hstop := decides_expr b (fun t ht => he t (by simp [Expr.texts, ht])) Γ
        have hone : codeSize [.load (.num (.int 1))] = 5 := rfl
        rw [Expr.Obeys, Expr.room]
        refine .ofValue ((hstart.value.within (by omega)).bind fun x hx => (hstop.value.within (by omega)).andThen fun y hy => ?_)
        refine (Judges.emit rfl).andThen fun z hz => ?_
        exact .behind 1 rfl rfl (by rw [codeSize_append, codeSize_append, hz]; omega)
    | function s d =>
      have hfunction := decides_function d he Γ
      rw [Expr.Obeys, Expr.room]
      exact .ofValue hfunction
    | missing s =>
      rw [Expr.Obeys]
      exact .ofValue (.fail id id)
termination_by sizeOf e
decreasing_by all_goals (subst_vars; simp +arith)

/-- A list of expressions compiles just if all of them obey the scope rules. -/
theorem decides_values (es : List Expr) (hes : ∀ t ∈ Expr.allTexts es, t ∈ V.texts) (Γ : Context) :
    Builds V (Expr.allRoom (textRoom V.texts) es) Γ (values es) (Expr.AllObey Γ es) Γ := by
  cases es with
  | nil =>
    rw [values, Expr.AllObey]
    exact .pure (Nat.zero_le _)
  | cons e es =>
    have hfirst := decides_expr e (fun t ht => hes t (by simp [Expr.allTexts, ht])) Γ
    have hrest := decides_values es (fun t ht => hes t (by simp [Expr.allTexts, ht])) Γ
    rw [values, Expr.AllObey, Expr.allRoom]
    refine (hfirst.value.within (by omega)).bind fun a ha => (hrest.within (by omega)).andThen fun b hb => .pure ?_
    rw [codeSize_append]
    omega
termination_by sizeOf es
decreasing_by all_goals (subst_vars; simp +arith)

/-- The pairs of a map compile just if all keys and values obey the scope rules. -/
theorem decides_pairs (ps : List (Expr × Expr)) (hps : ∀ t ∈ Expr.pairTexts ps, t ∈ V.texts) (Γ : Context) :
    Builds V (Expr.pairRoom (textRoom V.texts) ps) Γ (pairs ps) (Expr.PairsObey Γ ps) Γ := by
  match ps with
  | [] =>
    rw [pairs, Expr.PairsObey]
    exact .pure (Nat.zero_le _)
  | (k, v) :: ps =>
    have hkey := decides_expr k (fun t ht => hps t (by simp [Expr.pairTexts, ht])) Γ
    have hvalue := decides_expr v (fun t ht => hps t (by simp [Expr.pairTexts, ht])) Γ
    have hrest := decides_pairs ps (fun t ht => hps t (by simp [Expr.pairTexts, ht])) Γ
    rw [pairs, Expr.PairsObey, Expr.pairRoom]
    refine (hkey.value.within (by omega)).bind fun a ha => (hvalue.value.within (by omega)).bind fun b hb => ?_
    refine (hrest.within (by omega)).andThen fun c hc => .pure ?_
    rw [codeSize_append, codeSize_append]
    omega
termination_by sizeOf ps
decreasing_by all_goals (simp +arith)

/-- A function declaration compiles just if its parameters and its body obey the scope rules. -/
theorem decides_function (d : FunctionDecl) (hd : ∀ t ∈ d.texts, t ∈ V.texts) (Γ : Context) :
    Builds V (d.room (textRoom V.texts)) Γ (function d) (d.Obeys Γ) Γ := by
  cases d with
  | mk s name params isAsync body =>
    have hbody := decides_statements body fun t ht => hd t (by simp [FunctionDecl.texts, ht])
    exact builds_function hd hbody Γ
termination_by sizeOf d
decreasing_by all_goals (subst_vars; simp)

/-- A statement compiles just if it obeys the scope rules, in each of the places where it can stand. -/
theorem decides_statement (b : Stmt) (hb : ∀ t ∈ b.texts, t ∈ V.texts) : (statement b).Decides V (b.room (textRoom V.texts)) b := by
  cases b with
  | expression s e =>
    rw [statement, Stmt.room]
    refine .ofCode (by simp) fun Γ => ?_
    have hvalue := decides_expr e hb Γ
    rw [Stmt.Obeys]
    exact (hvalue.value.within (by omega)).andThen fun a ha => .behind 1 rfl rfl (by omega)
  | declaration s kind x init =>
    rw [statement]
    refine .ofCode (by simp) fun Γ => ?_
    cases init with
    | some e =>
      have hvalue := decides_expr e (fun t ht => hb t (by simp [Stmt.texts, ht])) Γ
      have hx := V.nulFree x (hb x (by simp [Stmt.texts]))
      rw [Stmt.Obeys, Stmt.room]
      exact (hvalue.value.within (by omega)).bind fun a ha => .declared hx (by omega)
    | none =>
      have hx := V.nulFree x (hb x (by simp [Stmt.texts]))
      rw [Stmt.Obeys, Stmt.room]
      dsimp only
      split
      · rename_i hconst
        exact .fail_bind id fun hrule => hrule.1 hconst
      · rename_i hconst
        refine ((Judges.emit rfl).before fun a ha => .declared hx ?_).congr (by simp [hconst])
        rw [ha]
        exact Nat.le_refl _
  | block s body =>
    rw [statement, Stmt.room]
    exact .block (decides_statements body hb) (Nat.le_refl _)
  | branch s c t e =>
    rw [statement]
    refine .ofCode (by simp) fun Γ => ?_
    have hwidth : Fragment.jumpWidth = 5 := rfl
    cases e with
    | none =>
      have hcondition := decides_expr c (fun t ht => hb t (by simp [Stmt.texts, ht])) Γ
      have hthen := decides_statement t (fun t ht => hb t (by simp [Stmt.texts, ht]))
      rw [Stmt.Obeys, Stmt.room]
      refine ((hcondition.jump false).within (by omega)).bind fun f hf => ((hthen.arm Γ).within (by omega)).andThen fun a ha => ?_
      refine (Judges.place (by omega)).andThen fun test htest => .pure ?_
      rw [codeSize_append, htest]
      omega
    | some e =>
      have hcondition := decides_expr c (fun t ht => hb t (by simp [Stmt.texts, ht])) Γ
      have hthen := decides_statement t (fun t ht => hb t (by simp [Stmt.texts, ht]))
      have helse := decides_statement e (fun t ht => hb t (by simp [Stmt.texts, ht]))
      rw [Stmt.Obeys, Stmt.room]
      refine ((hcondition.jump false).within (by omega)).bind fun f hf => ((hthen.arm Γ).within (by omega)).bind fun a ha => ?_
      exact ((helse.arm Γ).within (by omega)).andThen fun b hb => .choose (by omega)
  | whileLoop s c b =>
    rw [statement]
    refine .ofCode (by simp) fun Γ => ?_
    have hwidth : Fragment.jumpWidth = 5 := rfl
    have hcondition := decides_expr c (fun t ht => hb t (by simp [Stmt.texts, ht])) Γ
    have hbody := decides_statement b (fun t ht => hb t (by simp [Stmt.texts, ht]))
    obtain ⟨Γ', houter, hpass⟩ := hbody.loopBody (Γ.enter .loop)
    rw [Stmt.Obeys, Stmt.room]
    refine ((hcondition.jump false).within (by omega)).bind fun f hf => ?_
    refine ((Judges.inEnvironment hpass houter (Nat.le_refl _)).within (by omega)).andThen fun a ha => .loop (by omega)
  | forIn s key value e b =>
    rw [statement]
    refine .ofCode (by simp) fun Γ => ?_
    have hwidths : Instruction.width .getIter = 1 ∧ Fragment.jumpWidth = 5 ∧ Fragment.iterNextWidth = 6 := ⟨rfl, rfl, rfl⟩
    have hsource := decides_expr e (fun t ht => hb t (by simp [Stmt.texts, ht])) Γ
    have hbody := decides_statement b (fun t ht => hb t (by simp [Stmt.texts, ht]))
    obtain ⟨Γ', houter, hpass⟩ := hbody.loopBody ((Γ.enter .loop).declareAll (value :: key.toList))
    have hnul : ∀ x ∈ value :: key.toList, '\x00' ∉ x.toList := fun x hx => V.nulFree x (hb x (by simp [Stmt.texts] at hx ⊢; tauto))
    rw [Stmt.Obeys, Stmt.room]
    refine (hsource.value.within (by omega)).bind fun a ha => (Judges.emit rfl).before fun i hi => ?_
    have hloop := Judges.inEnvironment (.pass s hnul (Nat.le_refl _) hpass) (houter.trans Context.outer_declareAll) (Nat.le_refl _)
    refine (hloop.within (by omega)).andThen fun code hcode => ?_
    refine ((Judges.iterate (Nat.le_refl _)).within (by omega)).andThen fun rest hrest => .pure ?_
    rw [codeSize_append, codeSize_append, hi, codeSize_singleton]
    omega
  | ret s value =>
    rw [statement]
    refine .ofCode (by simp) fun Γ => ?_
    have hwidth : Instruction.width .ret = 1 := rfl
    cases value with
    | some e =>
      have hvalue := decides_expr e (fun t ht => hb t (by simp [Stmt.texts, ht])) Γ
      rw [Stmt.Obeys, Stmt.room]
      refine Judges.markReturned.bind fun _ _ => (hvalue.value.within (by omega)).andThen fun a ha => .pure ?_
      rw [codeSize_concat]
      omega
    | none =>
      rw [Stmt.Obeys, Stmt.room]
      refine Judges.markReturned.andThen fun _ _ => (Judges.emit rfl).andThen fun a ha => .pure ?_
      rw [ha]
      exact Nat.le_refl _
  | function s d =>
    rw [statement]
    refine .ofCode (by simp) fun Γ => ?_
    rw [Stmt.Obeys, Stmt.room]
    have hfunction := decides_function d hb
    cases d with
    | mk s' name params isAsync body =>
      cases name with
      | none => exact .fail id fun ⟨_, hname, _⟩ => by cases hname
      | some x =>
        have hx := V.nulFree x (hb x (by simp [Stmt.texts, FunctionDecl.texts]))
        have hdeclare (size : Nat) : Decides V size Γ (declare s none x) _ (Γ.declare x false) := .declare
        refine ((hdeclare _).bind fun _ _ => ((hfunction _).within (Nat.le_add_right _ _)).andThen fun a ha => ?_).congr ?_
        · exact .behind _ (check_text rfl (by simp) hx) rfl (Nat.add_le_add_right ha _)
        · simp [FunctionDecl.name?, Judges.Allowed, and_assoc]
termination_by sizeOf b
decreasing_by all_goals (subst_vars; simp +arith)

/-- A list of statements compiles just if each obeys the scope rules in the context its predecessors leave. -/
theorem decides_statements (bs : List Stmt) (hbs : ∀ t ∈ Stmt.allTexts bs, t ∈ V.texts) (Γ : Context) :
    Builds V (Stmt.allRoom (textRoom V.texts) bs) Γ (statements bs) (Stmt.AllObey Γ bs) (Γ.afterAll bs) := by
  cases bs with
  | nil =>
    rw [statements, Stmt.AllObey]
    exact .pure (Nat.zero_le _)
  | cons b bs =>
    have hfirst := decides_statement b (fun t ht => hbs t (by simp [Stmt.allTexts, ht]))
    have hrest := decides_statements bs (fun t ht => hbs t (by simp [Stmt.allTexts, ht])) (Γ.after b)
    rw [statements, Stmt.AllObey, Stmt.allRoom]
    refine ((hfirst.code Γ).within (by omega)).bind fun a ha => (hrest.within (by omega)).andThen fun b hb => .pure ?_
    rw [codeSize_append]
    omega
termination_by sizeOf bs
decreasing_by all_goals (subst_vars; simp +arith)

end

end

/-- A text without a NUL may stand in the header. -/
theorem Judges.checkString {V : Vocabulary} {size : Nat} {Γ : Context} {t : String} (ht : t ∈ V.texts) :
    Decides V size Γ (Compile.encoding {} (Instruction.checkString t)) True Γ := by
  rw [Instruction.checkString_eq_ok.2 (V.nulFree t ht)]
  exact .pure trivial

/-- Let the texts of a program hold no NUL. If it meets no operand limit when it is compiled, then it is accepted exactly if it obeys
the scope rules; and if its size is bounded by the reach of a jump, then it meets none. -/
theorem Program.compile_iff_obeys {p : Program} (hnul : ∀ t ∈ p.texts, '\x00' ∉ t.toList) :
    ((∀ e, p.compile = .error e → ¬e.cause.Oversized) → ((∃ image, p.compile = .ok image) ↔ p.Obeys)) ∧
      (p.room < 2 ^ 31 → ∀ e, p.compile = .error e → ¬e.cause.Oversized) := by
  let V : Vocabulary := ⟨p.texts, hnul⟩
  have hheader : Decides V p.room .global (header p) True .global :=
    (Judges.checkString List.mem_cons_self).before fun _ _ => .checkString (List.mem_cons_of_mem _ List.mem_cons_self)
  have hbody : Builds V p.room .global (Compile.statements p.statements) p.Obeys _ :=
    decides_statements p.statements (fun t ht => List.mem_cons_of_mem _ (List.mem_cons_of_mem _ ht)) .global
  have hprogram : Decides V p.room .global (program p) p.Obeys _ :=
    hheader.before fun _ _ => hbody.andThen fun _ _ => .pure trivial
  have hglobal : Context.global.Describes V [{ kind := .global }] := by
    refine ⟨rfl, fun s hs => ?_⟩
    rw [List.mem_singleton.1 hs]
    exact ⟨List.nodup_nil, by simp⟩
  unfold Program.compile
  cases hcompiled : program p [{ kind := .global }] with
  | ok r =>
    obtain ⟨hobeys, -⟩ := hprogram.accepts _ r.1 r.2 hglobal hcompiled
    exact ⟨fun _ => iff_of_true ⟨_, rfl⟩ hobeys, fun _ e he => by cases he⟩
  | error e =>
    rcases hprogram.refuses _ e hglobal hcompiled with ⟨hoversized, hlarge⟩ | ⟨hfits, hbroken⟩
    · exact ⟨fun hsize => absurd hoversized (hsize _ rfl), fun hsmall => absurd hlarge (Nat.not_le.2 hsmall)⟩
    · refine ⟨fun _ => iff_of_false (fun ⟨_, himage⟩ => by cases himage) hbroken, fun _ e' he => ?_⟩
      cases he
      exact hfits

/-- A constant, and a function with these parameters that declares a local of its own in a loop, and assigns the constant's name in
the body of the loop. -/
def Program.shadowSample (params : List String) : Program :=
  ⟨"m.vs", "m", [.declaration {} .const "limit" (some (.literal {} (.int 3))),
    .function {} (.mk {} (some "f") params false [
      .forIn {} none "x" (.name {} "xs") (.block {} [
        .declaration {} .localVar "y" (some (.name {} "x")),
        .expression {} (.assign {} (.name {} "limit") (.name {} "y"))]),
      .ret {} (some (.name {} "limit"))])]⟩

/-- The constant may not be assigned, but a parameter of the same name may. -/
theorem Program.compile_iff_obeys_shadowSample :
    (Program.shadowSample ["xs", "limit"]).room < 2 ^ 31 ∧ (Program.shadowSample ["xs", "limit"]).Obeys ∧
      (Program.shadowSample ["xs"]).room < 2 ^ 31 ∧ ¬(Program.shadowSample ["xs"]).Obeys := by
  have hsmall : (Program.shadowSample ["xs", "limit"]).room < 2 ^ 31 := by decide +kernel
  have hsmall' : (Program.shadowSample ["xs"]).room < 2 ^ 31 := by decide +kernel
  obtain ⟨haccepts, hlimits⟩ := Program.compile_iff_obeys (p := Program.shadowSample ["xs", "limit"]) (by decide)
  obtain ⟨haccepts', hlimits'⟩ := Program.compile_iff_obeys (p := Program.shadowSample ["xs"]) (by decide)
  have hrefused : (Program.shadowSample ["xs"]).compile = .error ⟨.constAssignment "limit", "m.vs", {}⟩ := rfl
  refine ⟨hsmall, (haccepts (hlimits hsmall)).1 ⟨_, rfl⟩, hsmall', fun hobeys => ?_⟩
  obtain ⟨image, himage⟩ := (haccepts' (hlimits' hsmall')).2 hobeys
  rw [hrefused] at himage
  cases himage

end ScriptVM
