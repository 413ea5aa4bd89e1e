import ScriptVM.Proofs.Operations

/-!
# Programs that compile

What a compilation answers is followed step by step from scopes to scopes (`Compile.bind_ok`). In the outermost scope, operators
over names compile unless a jump is too far (`compiles_of_means`), and a variable is declared there unless its name is taken
(`code_variable`).
-/

namespace ScriptVM

/-! ## Jumps -/

/-- A distance of less than 2^31 bytes fits. -/
theorem exists_jumpDistance {n : Nat} (h : n < 2 ^ 31) : ∃ d, jumpDistance n = .ok d :=
  exists_jumpDistance_iff.2 ⟨by omega, by omega⟩

/-- A fragment resolves when all of its jumps are within reach. -/
theorem Fragment.exists_resolve {f : Fragment} {beyond : Nat} (h : f.size + beyond < 2 ^ 31) :
    ∃ code, f.resolve beyond = .ok code := by
  induction f with
  | nil => exact ⟨[], rfl⟩
  | cons item f ih =>
    cases item with
    | done i =>
      obtain ⟨code, hcode⟩ := ih (by rw [Fragment.size] at h; omega)
      exact ⟨i :: code, by rw [Fragment.resolve, hcode]; rfl⟩
    | pending kind =>
      rw [Fragment.size] at h
      obtain ⟨code, hcode⟩ := ih (by omega)
      obtain ⟨d, hd⟩ := exists_jumpDistance (n := Fragment.size f + beyond) (by omega)
      refine ⟨.jump kind d :: code, ?_⟩
      rw [Fragment.resolve, hcode, show (Fragment.size f : Int) + beyond = ((Fragment.size f + beyond : Nat) : Int) from rfl, hd]
      rfl

/-! ## Steps of a compilation -/

namespace Compile

variable {α β : Type} {s : List Scope}

/-- A step that succeeds hands its value and its scopes to the next one. -/
theorem bind_ok {x : CompileM α} {f : α → CompileM β} {a : α} {s' : List Scope} (h : x s = .ok (a, s')) :
    (x >>= f) s = f a s' := by
  change (x s >>= fun p => f p.1 p.2) = _
  rw [h]
  rfl

/-- An emission that succeeds is a step that succeeds and leaves the scopes. -/
theorem encoding_ok {span : Span} {x : Except EmitError α} {a : α} (h : x = .ok a) :
    encoding span x s = .ok (a, s) := encoding_eq_ok.2 ⟨h, rfl⟩

/-- An instruction that passes its check is emitted. -/
theorem emit_ok {span : Span} {i : Instruction} (h : i.check = .ok ()) : emit span i s = .ok ([i], s) :=
  emit_eq_ok.2 ⟨h, rfl, rfl⟩

/-- A fragment that resolves is placed. -/
theorem place_ok {span : Span} {beyond : Nat} {f : Fragment} {code : List Instruction} (h : f.resolve beyond = .ok code) :
    place span beyond f s = .ok (code, s) :=
  encoding_ok h

/-- A jump over a distance in range is emitted. -/
theorem jumpBy_ok {span : Span} {kind : JumpKind} {distance : Int} {d : Int32} (h : jumpDistance distance = .ok d) :
    jumpBy span kind distance s = .ok ([.jump kind d], s) := jumpBy_eq_ok.2 ⟨⟨d, h, rfl⟩, rfl⟩

/-- An instruction that passes its check is emitted behind the code before it. -/
theorem emit_behind {span : Span} {i : Instruction} (h : i.check = .ok ()) (before : List Instruction) :
    (do return before ++ (← emit span i) : CompileM (List Instruction)) s = .ok (before ++ [i], s) := by
  rw [bind_ok (emit_ok h)]
  rfl

/-- In one scope a name is resolved without a trace. -/
theorem resolve_single (n : String) (g : Scope) : ∃ x, resolve n [g] = .ok (x, [g]) := by
  have hget : (get : CompileM (List Scope)) [g] = .ok ([g], [g]) := rfl
  unfold resolve
  rw [bind_ok hget, Scope.resolve]
  cases g.lookup? n with
  | some x => exact ⟨_, rfl⟩
  | none => exact ⟨_, rfl⟩

end Compile

/-! ## Expressions -/

section

open Compile

/-- An expression compiles in a single scope, to code of bounded size. -/
structure Compiles (g : Scope) (e : Expr) : Prop where
  value : ∃ code, (expr e).value [g] = .ok (code, [g]) ∧ codeSize code ≤ e.codeBound
  jump : ∀ sense, ∃ f, (expr e).jump sense [g] = .ok (f, [g]) ∧ f.size ≤ e.codeBound + Fragment.jumpWidth

variable {g : Scope}

/-- An expression that is neither folded nor a condition compiles when its value does, within the bound of its size. -/
theorem compiles_of_value {e : Expr} (hf : e.fold? = none) (hl : e.isLogic = false)
    (h : ∃ code, (expr e).value [g] = .ok (code, [g]) ∧ codeSize code ≤ e.codeBound) : Compiles g e := by
  refine ⟨h, fun sense => ?_⟩
  obtain ⟨code, hcode, hsize⟩ := h
  refine ⟨Fragment.ofCode code ++ [.pending (if sense then .ifTrue else .ifFalse)], ?_, ?_⟩
  · rw [jump_of_not_isLogic hf hl]
    exact bind_ok hcode
  · rw [Fragment.size_append, Fragment.size_ofCode]
    exact Nat.add_le_add_right hsize _

theorem compiles_name {s : Span} {n : String} (hn : '\x00' ∉ n.toList) : Compiles g (.name s n) := by
  refine compiles_of_value rfl rfl ⟨[.loadName n], ?_, Nat.le_refl _⟩
  obtain ⟨x, hx⟩ := resolve_single n g
  rw [expr]
  simp only [Expr.fold?, Lowered.ofValue]
  rw [bind_ok hx]
  exact emit_ok (by simp [Instruction.check, Instruction.strings, Instruction.checkString_eq_ok.2 hn])

/-- A unary operation that is not folded compiles when its operand does. -/
theorem compiles_unary {s : Span} {op : UnaryOp} {e : Expr} (hf : (Expr.unary s op e).fold? = none) (he : Compiles g e) :
    Compiles g (.unary s op e) := by
  obtain ⟨code, hcode, hsize⟩ := he.value
  have hvalue : ∃ code, (expr (.unary s op e)).value [g] = .ok (code, [g]) ∧ codeSize code ≤ (Expr.unary s op e).codeBound := by
    refine ⟨code ++ [.unary op], ?_, ?_⟩
    · unfold expr
      rw [hf]
      cases op <;> exact (bind_ok hcode).trans (emit_behind rfl code)
    · rw [codeSize_concat]
      exact Nat.add_le_add_right hsize 1
  cases op with
  | negate => exact compiles_of_value hf rfl hvalue
  | not =>
    refine ⟨hvalue, fun sense => ?_⟩
    obtain ⟨f, hjump, hfsize⟩ := he.jump (!sense)
    refine ⟨f, ?_, ?_⟩
    · rw [expr, hf]
      exact hjump
    · simp only [Expr.codeBound]
      omega

/-- A binary operation that is not folded compiles when both operands do. -/
theorem compiles_binary {s : Span} {op : BinaryOp} {l r : Expr} (hf : (Expr.binary s op l r).fold? = none) (hl : Compiles g l)
    (hr : Compiles g r) : Compiles g (.binary s op l r) := by
  obtain ⟨left, hleft, hlsize⟩ := hl.value
  obtain ⟨right, hright, hrsize⟩ := hr.value
  refine compiles_of_value hf rfl ⟨left ++ right ++ [.binary op], ?_, ?_⟩
  · rw [expr, hf]
    dsimp only [Lowered.ofValue]
    rw [bind_ok hleft, bind_ok hright, emit_behind rfl]
  · rw [codeSize_concat, codeSize_append]
    exact Nat.add_le_add_right (Nat.add_le_add hlsize hrsize) 1

/-- The jumps of a condition can be placed when both sides compile and are within reach. -/
theorem logicalJump_ok (s : Span) (op : LogicalOp) {l r : Expr} (hl : Compiles g l) (hr : Compiles g r)
    (hbound : l.codeBound + r.codeBound + 10 < 2 ^ 31) (sense : Bool) :
    ∃ f, Lowered.logicalJump s op (expr l) (expr r) sense [g] = .ok (f, [g]) ∧ f.size ≤ l.codeBound + r.codeBound + 10 := by
  obtain ⟨second, hsecond, hsize₂⟩ := hr.jump sense
  unfold Lowered.logicalJump
  split
  · obtain ⟨first, hfirst, hsize₁⟩ := hl.jump sense
    refine ⟨first ++ second, ?_, ?_⟩
    · rw [bind_ok hfirst, bind_ok hsecond]
      rfl
    · rw [Fragment.size_append]
      simp only [Fragment.jumpWidth] at hsize₁ hsize₂
      omega
  · obtain ⟨first, hfirst, hsize₁⟩ := hl.jump (!sense)
    simp only [Fragment.jumpWidth] at hsize₁ hsize₂
    obtain ⟨skip, hskip⟩ : ∃ skip, first.resolve second.size = .ok skip := Fragment.exists_resolve (by omega)
    refine ⟨Fragment.ofCode skip ++ second, ?_, ?_⟩
    · rw [bind_ok hfirst, bind_ok hsecond, bind_ok (place_ok hskip)]
      rfl
    · rw [Fragment.size_append, Fragment.size_ofCode, Fragment.codeSize_of_resolve hskip]
      omega

/-- A condition that is not folded compiles when both sides do and are within reach. -/
theorem compiles_logical {s : Span} {op : LogicalOp} {l r : Expr} (hf : (Expr.logical s op l r).fold? = none)
    (hl : Compiles g l) (hr : Compiles g r) (hbound : (Expr.logical s op l r).codeBound < 2 ^ 31) :
    Compiles g (.logical s op l r) := by
  simp only [Expr.codeBound] at hbound
  have hsize : l.codeBound + r.codeBound + 10 < 2 ^ 31 := by omega
  refine ⟨?_, fun sense => ?_⟩
  · obtain ⟨f, hfalsy, hfsize⟩ := logicalJump_ok s op hl hr hsize false
    obtain ⟨d, hd⟩ := exists_jumpDistance (n := codeSize [.load (.bool false)]) (by decide)
    have htail : codeSize [.load (.bool true), .jump .forward d] = 6 := rfl
    obtain ⟨test, htest⟩ : ∃ test, f.resolve (codeSize [.load (.bool true), .jump .forward d]) = .ok test :=
      Fragment.exists_resolve (by omega)
    refine ⟨test ++ [.load (.bool true), .jump .forward d] ++ [.load (.bool false)], ?_, ?_⟩
    · rw [expr, hf]
      dsimp only [Lowered.logical]
      rw [bind_ok hfalsy, bind_ok (jumpBy_ok hd), bind_ok (place_ok htest)]
      rfl
    · rw [codeSize_append, codeSize_append, Fragment.codeSize_of_resolve htest, htail]
      have hlast : codeSize [.load (.bool false)] = 1 := rfl
      simp only [Expr.codeBound]
      omega
  · obtain ⟨f, hjump, hfsize⟩ := logicalJump_ok s op hl hr hsize sense
    refine ⟨f, ?_, ?_⟩
    · rw [expr, hf]
      exact hjump
    · simp only [Expr.codeBound, Fragment.jumpWidth]
      omega

/-- Operators over names compile. -/
theorem compiles_of_means {ρ : String → Option Constant} (hρ : ∀ n k, ρ n = some k → '\x00' ∉ n.toList) {e : Expr}
    {k : Constant} (h : e.Means ρ k) (hbound : e.codeBound < 2 ^ 31) : Compiles g e := by
  induction h with
  | name hn => exact compiles_name (hρ _ _ hn)
  | unary he ih =>
    simp only [Expr.codeBound] at hbound
    exact compiles_unary (Expr.Means.unary he).fold?_eq_none (ih (by omega))
  | binary hl hr ihl ihr =>
    simp only [Expr.codeBound] at hbound
    exact compiles_binary (Expr.Means.binary hl hr).fold?_eq_none (ihl (by omega)) (ihr (by omega))
  | logical hl hr ihl ihr =>
    have hparts := hbound
    simp only [Expr.codeBound] at hparts
    exact compiles_logical (Expr.Means.logical hl hr).fold?_eq_none (ihl (by omega)) (ihr (by omega)) hbound

/-! ## Declarations -/

/-- The outermost scope with a variable declared in it. -/
def Scope.withVariable (g : Scope) (span : Span) (n : String) : Scope := { g with symbols := ⟨n, false, true, span⟩ :: g.symbols }

/-- Declaring one name leaves what every other name resolves to. -/
theorem Scope.lookup?_withVariable {span : Span} {m n : String} (hm : n ≠ m) :
    (g.withVariable span n).lookup? m = g.lookup? m := by
  simp [Scope.lookup?, Scope.withVariable, hm]

/-- A declaration of a new global name compiles to its value and a store. -/
theorem code_variable (span : Span) {n : String} {e : Expr} {code : List Instruction} (hg : g.kind = .global)
    (hnew : g.lookup? n = none) (hn : '\x00' ∉ n.toList) (he : (expr e).value [g] = .ok (code, [g])) :
    (statement (.declaration span .var n (some e))).code [g] = .ok (code ++ [.storeName n], [g.withVariable span n]) := by
  have hdeclare : declare span (some .var) n [g] = .ok ((), [g.withVariable span n]) := by
    have hkind : currentKind [g] = .global := hg
    have hsymbol : g.declare? ⟨n, false, true, span⟩ = some (g.withVariable span n) := by
      rw [Scope.declare?, hnew]
      rfl
    have hget : (get : CompileM (List Scope)) [g] = .ok ([g], [g]) := rfl
    rw [declare, bind_ok hget]
    simp only [hkind, ScopeKind.allows, Bool.not_true, Bool.false_eq_true, if_false]
    simp only [decide_false, decide_true, reduceCtorEq, Option.some.injEq, hsymbol]
    rfl
  rw [statement]
  dsimp only [LoweredStmt.ofCode]
  rw [bind_ok he, bind_ok hdeclare]
  exact emit_behind (by simp [Instruction.check, Instruction.strings, Instruction.checkString_eq_ok.2 hn]) code

/-- A list of statements compiles when its head does and its tail does in the scopes the head leaves. -/
theorem statements_cons {b : Stmt} {bs : List Stmt} {code rest : List Instruction} {s₁ s₂ s₃ : List Scope}
    (hb : (statement b).code s₁ = .ok (code, s₂)) (hbs : statements bs s₂ = .ok (rest, s₃)) :
    statements (b :: bs) s₁ = .ok (code ++ rest, s₃) := by
  rw [statements, bind_ok hb, bind_ok hbs]
  rfl

end

end ScriptVM
