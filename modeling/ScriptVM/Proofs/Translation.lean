import ScriptVM.Proofs.Simulation
import ScriptVM.Proofs.Startup

/-!
# Code follows its tree

The code of an expression, a condition or a statement follows the evaluation of its tree (`FollowsTree`). The induction is on
the depth of the evaluation: each evaluation is of smaller depth in its parts, and the code of a part stands inside the code of
the whole.
-/

namespace ScriptVM

/-- Where the code of a statement leads: behind its end, or to a return. -/
def Activation.Ends (c : Activation) (ip : Nat) (stack : List Value) : Flow → World → Machine → Prop
  | .next env => c.Point ip env stack
  | .returned v => c.Returning stack v

/-- At a depth of evaluation, all code follows its tree. -/
structure FollowsTree (depth : Nat) : Prop where
  value : ∀ {e : Expr} {code : List Instruction}, ValueCode e code → ∀ (c : Activation) (ip : Nat) (env : Handle)
    (stack : List Value), c.code.Has ip code →
    c.Runs ip env stack (evalExpr c.code.file depth env e) fun v => c.Point (ip + codeSize code) env (stack ++ [v])
  values : ∀ {es : List Expr} {code : List Instruction}, ValuesCode es code → ∀ (c : Activation) (ip : Nat) (env : Handle)
    (stack : List Value), c.code.Has ip code →
    c.Runs ip env stack (evalExprs c.code.file depth env es) fun vs w m =>
      vs.length = es.length ∧ c.Point (ip + codeSize code) env (stack ++ vs) w m
  pairs : ∀ {ps : List (Expr × Expr)} {code : List Instruction}, PairsCode ps code → ∀ (c : Activation) (ip : Nat)
    (env : Handle) (stack : List Value), c.code.Has ip code →
    c.Runs ip env stack (evalPairs c.code.file depth env ps) fun vs w m =>
      vs.length = ps.length ∧ c.Point (ip + codeSize code) env (stack ++ Activation.flattened vs) w m
  condition : ∀ {e : Expr} {sense : Bool} {f : Fragment}, JumpCode e sense f → ∀ (c : Activation) (ip : Nat) (env : Handle)
    (stack : List Value) (beyond : Nat) (code : List Instruction), f.resolve beyond = .ok code → c.code.Has ip code →
    ip + codeSize code + beyond ≤ c.code.instructions.size →
    c.Runs ip env stack (evalTruth c.code.file depth env e) fun b =>
      c.Point (if b = sense then ip + codeSize code + beyond else ip + codeSize code) env stack
  call : ∀ (c : Activation) (ip : Nat) (env : Handle) (stack : List Value) (callee : Value) (args : List Value)
    (argc : UInt8), argc.toNat = args.length → c.code.Has ip [.call argc] →
    c.Runs ip env (stack ++ [callee] ++ args) (evalCall c.code.file depth callee args) fun v =>
      c.Point (ip + (Instruction.call argc).width) env (stack ++ [v])
  statement : ∀ {b : Stmt} {code : List Instruction}, StmtCode b code → ∀ (c : Activation) (ip : Nat) (env : Handle)
    (stack : List Value), c.code.Has ip code →
    c.Runs ip env stack (evalStmt c.code.file depth env b) (c.Ends (ip + codeSize code) stack)
  pass : ∀ {b : Stmt} {code : List Instruction}, LoopCode b code → ∀ (c : Activation) (ip : Nat) (env : Handle)
    (stack : List Value), c.code.Has ip code →
    c.Runs ip env stack (evalPass c.code.file depth env b) (c.Ends (ip + codeSize code) stack)
  loop : ∀ {b : Stmt} {body : List Instruction}, LoopCode b body → ∀ {key : Option String} {value : String}
    {back exit : Int32},
    jumpDistance (-((Fragment.iterNextWidth + codeSize (enclosed (bindCode key value ++ body)) + Fragment.jumpWidth : Nat)
      : Int)) = .ok back →
    jumpDistance ((codeSize (enclosed (bindCode key value ++ body)) + Fragment.jumpWidth : Nat) : Int) = .ok exit →
    ∀ (c : Activation) (ip : Nat) (env : Handle) (stack : List Value) (iterator : Value),
    c.code.Has ip (.iterNext (yieldArity key) exit :: enclosed (bindCode key value ++ body) ++ [.jump .loop back]) →
    c.Runs ip env (stack ++ [iterator]) (evalLoop c.code.file depth env iterator key value b)
      (c.Ends (ip + codeSize (.iterNext (yieldArity key) exit :: enclosed (bindCode key value ++ body) ++
        [.jump .loop back])) stack)
  statements : ∀ {bs : List Stmt} {code : List Instruction}, StmtsCode bs code → ∀ (c : Activation) (ip : Nat)
    (env : Handle) (stack : List Value), c.code.Has ip code →
    c.Runs ip env stack (evalStmts c.code.file depth env bs) (c.Ends (ip + codeSize code) stack)

/-- An expression that is folded evaluates to its constant. -/
theorem evalExpr_of_fold {file : String} {depth : Nat} {env : Handle} {e : Expr} {k : Constant} (hf : e.fold? = some k) :
    evalExpr file (depth + 1) env e = EvalM.constant k := by
  rw [evalExpr.eq_def]
  simp only [hf]

/-- A condition that is folded evaluates to the truth of its constant. -/
theorem evalTruth_of_fold {file : String} {depth : Nat} {env : Handle} {e : Expr} {k : Constant} (hf : e.fold? = some k) :
    evalTruth file (depth + 1) env e = Pure.pure k.truthy := by
  rw [evalTruth.eq_def]
  simp only [hf]

/-- A condition without logic has the truth of its value. -/
theorem evalTruth_of_not_isLogic {file : String} {depth : Nat} {env : Handle} {e : Expr} (hf : e.fold? = none)
    (hl : e.isLogic = false) :
    evalTruth file (depth + 1) env e = evalExpr file depth env e >>= fun v => EvalM.onHeap (HeapM.read (·.truthy v)) := by
  cases e with
  | unary s op e =>
    cases op with
    | not => nomatch hl
    | _ => rw [evalTruth, hf] <;> nofun
  | logical s op l r => nomatch hl
  | _ => rw [evalTruth, hf] <;> nofun

/-- The left operand may decide; otherwise the right one does. -/
theorem evalTruth_logical {file : String} {depth : Nat} {env : Handle} {s : Span} {op : LogicalOp} {l r : Expr}
    (hf : (Expr.logical s op l r).fold? = none) :
    evalTruth file (depth + 1) env (.logical s op l r) = evalTruth file depth env l >>= fun b =>
      if Compile.Lowered.decides op b then Pure.pure b else evalTruth file depth env r := by
  cases op with
  | and =>
    rw [evalTruth, hf]
    refine congrArg (evalTruth file depth env l >>= ·) (funext fun b => ?_)
    cases b <;> rfl
  | or =>
    rw [evalTruth, hf]
    refine congrArg (evalTruth file depth env l >>= ·) (funext fun b => ?_)
    cases b <;> rfl

/-- An operator is decided by one of the two truths only. -/
theorem decides_of_ne {op : LogicalOp} {sense b : Bool} (h : b ≠ sense) :
    Compile.Lowered.decides op b = !Compile.Lowered.decides op sense := by
  cases op <;> cases sense <;> cases b <;> first | rfl | contradiction

/-- A part of an evaluation that succeeds does so in both of its parts. -/
theorem EvalM.bind_eq_ok {α β : Type} {x : EvalM α} {f : α → EvalM β} {w w' : World} {b : β} (h : (x >>= f) w = .ok b w') :
    ∃ a w₁, x w = .ok a w₁ ∧ f a w₁ = .ok b w' := by
  change EStateM.bind x f w = _ at h
  unfold EStateM.bind at h
  cases hx : x w with
  | ok a w₁ =>
    rw [hx] at h
    exact ⟨a, w₁, rfl, h⟩
  | error e w₁ =>
    rw [hx] at h
    nomatch h

/-- Nothing is run behind a return. -/
theorem not_isReturn_of_next {file : String} {depth : Nat} {env env' : Handle} {b : Stmt} {w w' : World}
    (h : evalStmt file depth env b w = .ok (.next env') w') : b.isReturn = false := by
  cases b with
  | ret s value =>
    cases depth with
    | zero =>
      rw [evalStmt] at h
      nomatch h
    | succ depth =>
      cases value <;>
      · rw [evalStmt] at h
        obtain ⟨v, w₁, _, h⟩ := EvalM.bind_eq_ok h
        nomatch h
  | _ => rfl

/-- Statements that end with a return do return. -/
theorem not_isReturn_getLast_of_next {file : String} {depth : Nat} {env env' : Handle} {bs : List Stmt} {w w' : World}
    (h : evalStmts file depth env bs w = .ok (.next env') w') : bs.getLast?.any Stmt.isReturn = false := by
  induction depth generalizing env bs w with
  | zero =>
    rw [evalStmts] at h
    nomatch h
  | succ depth ih =>
    cases bs with
    | nil => rfl
    | cons b bs =>
      rw [evalStmts] at h
      obtain ⟨flow, w₁, hb, h⟩ := EvalM.bind_eq_ok h
      cases flow with
      | returned v => nomatch h
      | next env₁ =>
        have hrest := ih h
        cases bs with
        | nil => simp [not_isReturn_of_next hb]
        | cons b' bs => rwa [List.getLast?_cons_cons]

namespace FollowsTree

variable {depth : Nat} {c : Activation} {ip : Nat} {env : Handle} {stack : List Value} {code : List Instruction}

open Activation

/-- A depth of nothing is enough for nothing. -/
theorem zero : FollowsTree 0 where
  value _ _ _ _ _ _ := by rw [evalExpr]; exact Runs.unfinished
  values _ _ _ _ _ _ := by rw [evalExprs]; exact Runs.unfinished
  pairs _ _ _ _ _ _ := by rw [evalPairs]; exact Runs.unfinished
  condition _ _ _ _ _ _ _ _ _ _ := by rw [evalTruth]; exact Runs.unfinished
  call _ _ _ _ _ _ _ _ _ := by rw [evalCall]; exact Runs.unfinished
  statement _ _ _ _ _ _ := by rw [evalStmt]; exact Runs.unfinished
  pass _ _ _ _ _ _ := by rw [evalPass]; exact Runs.unfinished
  loop _ _ _ _ _ _ _ _ _ _ _ _ _ := by rw [evalLoop]; exact Runs.unfinished
  statements _ _ _ _ _ _ := by rw [evalStmts]; exact Runs.unfinished

/-- The code of an expression follows its tree one level deeper. -/
theorem value_succ (ih : FollowsTree depth) {e : Expr} (he : ValueCode e code) (hc : c.code.Has ip code) :
    c.Runs ip env stack (evalExpr c.code.file (depth + 1) env e) fun v =>
      c.Point (ip + codeSize code) env (stack ++ [v]) := by
  cases he with
  | constant hf =>
    rw [evalExpr_of_fold hf]
    exact Runs.constant hc
  | name =>
    rw [evalExpr]
    exact Runs.loadName hc
  | unary hf he =>
    rw [evalExpr, hf, codeSize_concat, ← Nat.add_assoc]
    exact (ih.value he c ip env stack hc.left).bind fun v => Runs.unary hc.right
  | binary hf hl hr =>
    rw [evalExpr, hf, codeSize_concat, codeSize_append, ← Nat.add_assoc, ← Nat.add_assoc]
    have hop := hc.right
    rw [codeSize_append, ← Nat.add_assoc] at hop
    exact (ih.value hl c ip env stack hc.left.left).bind fun left =>
      (ih.value hr c _ env (stack ++ [left]) hc.left.right).bind fun right => Runs.binary hop
  | logical hf hj hd hr =>
    rename_i s op l r f test d
    rw [evalExpr, hf]
    have hfalse := hc.right
    have htrue := hc.left.right.left (a := [.load (.bool true)]) (b := [.jump .forward d])
    have hjump := hc.left.right.right (a := [.load (.bool true)]) (b := [.jump .forward d])
    have hend := hc.le_size
    simp only [codeSize_append, ← Nat.add_assoc] at hfalse hend ⊢
    refine (ih.condition hj c ip env stack _ test hr hc.left.left (by omega)).bind fun b => ?_
    cases b with
    | false => exact Runs.value hfalse (by simp) rfl
    | true =>
      have hpushed : c.Runs (ip + codeSize test) env stack (Pure.pure (Value.bool true))
          fun v => c.Point (ip + codeSize test + (Instruction.load (.bool true)).width) env (stack ++ [v]) :=
        Runs.value htrue (by simp) rfl
      rw [← bind_pure (Pure.pure (Value.bool true) : EvalM Value)]
      refine hpushed.bind fun v => Runs.jump hjump (.inl rfl) ?_ hend (Runs.pure v fun _ _ hp => hp)
      rw [jumpDistance_eq_ok hd]
      simp only [codeSize]
      omega
  | assign he =>
    rw [evalExpr, codeSize_concat, ← Nat.add_assoc]
    refine (ih.value he c ip env stack hc.left).bind fun v => ?_
    exact (Runs.setName hc.right).bind fun _ => Runs.pure v fun _ _ hp => hp
  | call hn hf hargs =>
    rw [evalExpr, codeSize_concat, codeSize_append, ← Nat.add_assoc, ← Nat.add_assoc]
    have hop := hc.right
    rw [codeSize_append, ← Nat.add_assoc] at hop
    refine (ih.value hf c ip env stack hc.left.left).bind fun callee => ?_
    refine (ih.values hargs c _ env (stack ++ [callee]) hc.left.right).bind ?_
    rintro args w m ⟨hlen, hp⟩
    exact ih.call c _ env stack callee args _ (by rw [hlen]; exact UInt8.toNat_ofNat_of_lt hn) hop w m hp
  | member he =>
    rw [evalExpr, codeSize_concat, ← Nat.add_assoc]
    exact (ih.value he c ip env stack hc.left).bind fun v => Runs.getMember hc.right
  | index ho hi =>
    rw [evalExpr, codeSize_concat, codeSize_append, ← Nat.add_assoc, ← Nat.add_assoc]
    have hop := hc.right
    rw [codeSize_append, ← Nat.add_assoc] at hop
    exact (ih.value ho c ip env stack hc.left.left).bind fun object =>
      (ih.value hi c _ env (stack ++ [object]) hc.left.right).bind fun index => Runs.index hop
  | array hn hes =>
    rw [evalExpr, codeSize_concat, ← Nat.add_assoc]
    refine (ih.values hes c ip env stack hc.left).bind ?_
    rintro items w m ⟨hlen, hp⟩
    exact Runs.buildArray (by rw [hlen]; exact UInt32.toNat_ofNat_of_lt hn) hc.right w m hp
  | map hn hps =>
    rw [evalExpr, codeSize_concat, ← Nat.add_assoc]
    refine (ih.pairs hps c ip env stack hc.left).bind ?_
    rintro entries w m ⟨hlen, hp⟩
    exact Runs.buildMap (by rw [hlen]; exact UInt32.toNat_ofNat_of_lt hn) hc.right w m hp
  | range ha hb hs =>
    rw [evalExpr, codeSize_concat, codeSize_append, codeSize_append, ← Nat.add_assoc, ← Nat.add_assoc, ← Nat.add_assoc]
    have hop := hc.right
    have hstep := hc.left.right
    rw [codeSize_append, codeSize_append, ← Nat.add_assoc, ← Nat.add_assoc] at hop
    rw [codeSize_append, ← Nat.add_assoc] at hstep
    exact (ih.value ha c ip env stack hc.left.left.left).bind fun start =>
      (ih.value hb c _ env (stack ++ [start]) hc.left.left.right).bind fun stop =>
        (ih.value hs c _ env (stack ++ [start] ++ [stop]) hstep).bind fun step => Runs.buildRange hop
  | rangeByOne ha hb =>
    rw [evalExpr, codeSize_concat, codeSize_append, codeSize_append, ← Nat.add_assoc, ← Nat.add_assoc, ← Nat.add_assoc]
    have hop := hc.right
    have hstep := hc.left.right
    rw [codeSize_append, codeSize_append, ← Nat.add_assoc, ← Nat.add_assoc] at hop
    rw [codeSize_append, ← Nat.add_assoc] at hstep
    exact (ih.value ha c ip env stack hc.left.left.left).bind fun start =>
      (ih.value hb c _ env (stack ++ [start]) hc.left.left.right).bind fun stop =>
        (Runs.constant hstep).bind fun step => Runs.buildRange hop
  | function hp =>
    rw [evalExpr]
    exact Runs.makeFunction hp hc

/-- The codes of a list of expressions follow the list one level deeper. -/
theorem values_succ (ih : FollowsTree depth) {es : List Expr} (hes : ValuesCode es code) (hc : c.code.Has ip code) :
    c.Runs ip env stack (evalExprs c.code.file (depth + 1) env es) fun vs w m =>
      vs.length = es.length ∧ c.Point (ip + codeSize code) env (stack ++ vs) w m := by
  cases hes with
  | nil =>
    rw [evalExprs]
    refine Runs.pure [] fun w m hp => ⟨rfl, ?_⟩
    rwa [List.append_nil]
  | cons he hes =>
    rw [evalExprs, codeSize_append, ← Nat.add_assoc]
    refine (ih.value he c ip env stack hc.left).bind fun v => ?_
    refine (ih.values hes c _ env (stack ++ [v]) hc.right).bind ?_
    rintro vs w m ⟨hlen, hp⟩
    refine Runs.pure (v :: vs) (fun w m hp => ⟨congrArg (· + 1) hlen, ?_⟩) w m hp
    rwa [List.append_assoc] at hp

/-- The codes of the pairs of a map follow the pairs one level deeper. -/
theorem pairs_succ (ih : FollowsTree depth) {ps : List (Expr × Expr)} (hps : PairsCode ps code) (hc : c.code.Has ip code) :
    c.Runs ip env stack (evalPairs c.code.file (depth + 1) env ps) fun vs w m =>
      vs.length = ps.length ∧ c.Point (ip + codeSize code) env (stack ++ flattened vs) w m := by
  cases hps with
  | nil =>
    rw [evalPairs]
    refine Runs.pure [] fun w m hp => ⟨rfl, ?_⟩
    change c.Point _ env (stack ++ []) w m
    rwa [List.append_nil]
  | cons hk hv hps =>
    rw [evalPairs, codeSize_append, codeSize_append, ← Nat.add_assoc, ← Nat.add_assoc]
    have hrest := hc.right
    rw [codeSize_append, ← Nat.add_assoc] at hrest
    refine (ih.value hk c ip env stack hc.left.left).bind fun k => ?_
    refine (ih.value hv c _ env (stack ++ [k]) hc.left.right).bind fun v => ?_
    refine (ih.pairs hps c _ env (stack ++ [k] ++ [v]) hrest).bind ?_
    rintro vs w m ⟨hlen, hp⟩
    refine Runs.pure ((k, v) :: vs) (fun w m hp => ⟨congrArg (· + 1) hlen, ?_⟩) w m hp
    rwa [List.append_assoc, List.append_assoc] at hp

/-- The jumps of a condition follow its truth one level deeper. -/
theorem condition_succ (ih : FollowsTree depth) {e : Expr} {sense : Bool} {f : Fragment} (he : JumpCode e sense f)
    {beyond : Nat} (hr : f.resolve beyond = .ok code) (hc : c.code.Has ip code)
    (hl : ip + codeSize code + beyond ≤ c.code.instructions.size) :
    c.Runs ip env stack (evalTruth c.code.file (depth + 1) env e) fun b =>
      c.Point (if b = sense then ip + codeSize code + beyond else ip + codeSize code) env stack := by
  cases he with
  | constant hf =>
    rename_i k
    rw [evalTruth_of_fold hf]
    split at hr
    · rename_i ht
      obtain ⟨d, hd, hr⟩ := bind_eq_ok.1 hr
      cases hr
      refine Runs.jump hc (.inl rfl) ?_ hl (Runs.pure _ fun w m hp => ?_)
      · rw [jumpDistance_eq_ok hd]
        simp only [codeSize, Fragment.size]
        omega
      · rwa [if_pos ht]
    · rename_i ht
      cases hr
      refine Runs.pure _ fun w m hp => ?_
      rwa [if_neg ht]
  | test hf hlogic hv =>
    rename_i value
    obtain ⟨a, b, ha, hb, rfl⟩ := Fragment.resolve_append hr
    rw [Fragment.resolve_ofCode] at ha
    cases ha
    obtain ⟨d, hd, hb⟩ := bind_eq_ok.1 hb
    cases hb
    rw [evalTruth_of_not_isLogic hf hlogic]
    have hsize : ip + codeSize (value ++ [.jump (if sense then .ifTrue else .ifFalse) d]) =
        ip + codeSize value + Fragment.jumpWidth := by
      rw [codeSize_concat, ← Nat.add_assoc]
      rfl
    rw [hsize] at hl ⊢
    refine (ih.value hv c ip env stack hc.left).bind fun v => Runs.branch hc.right ?_ hl
    rw [jumpDistance_eq_ok hd]
    simp only [Fragment.size]
    omega
  | not hf he =>
    rw [evalTruth, hf]
    refine (ih.condition he c ip env stack beyond code hr hc hl).bind fun b => Runs.pure (!b) fun w m hp => ?_
    cases b <;> cases sense <;> exact hp
  | both hf hd hleft hright =>
    obtain ⟨a, b, ha, hb, rfl⟩ := Fragment.resolve_append hr
    have hgsize := Fragment.codeSize_of_resolve hb
    rw [codeSize_append, ← Nat.add_assoc] at hl ⊢
    rw [evalTruth_logical hf]
    refine (ih.condition hleft c ip env stack _ a ha hc.left (by omega)).bind fun t => ?_
    by_cases ht : t = sense
    · rw [if_pos ht, if_pos (by rw [ht, hd])]
      refine Runs.pure t fun w m hp => ?_
      rwa [if_pos ht, hgsize, Nat.add_assoc _ _ beyond]
    · rw [if_neg ht, if_neg (by simp [decides_of_ne ht, hd])]
      exact ih.condition hright c _ env stack beyond b hb hc.right hl
  | skip hf hd hleft hright hs =>
    obtain ⟨a, b, ha, hb, rfl⟩ := Fragment.resolve_append hr
    rw [Fragment.resolve_ofCode] at ha
    cases ha
    have hgsize := Fragment.codeSize_of_resolve hb
    rw [codeSize_append, ← Nat.add_assoc] at hl ⊢
    rw [evalTruth_logical hf]
    refine (ih.condition hleft c ip env stack _ _ hs hc.left (by omega)).bind fun t => ?_
    by_cases ht : t = sense
    · rw [if_neg (by cases sense <;> simp [ht]), if_neg (by simp [ht, hd])]
      exact ih.condition hright c _ env stack beyond b hb hc.right hl
    · rw [if_pos (by cases t <;> cases sense <;> first | rfl | contradiction), if_pos (by rw [decides_of_ne ht, hd]; rfl)]
      refine Runs.pure t fun w m hp => ?_
      rwa [if_neg ht, hgsize]

/-- The body of a function, or a program, comes to a return with its result. -/
theorem body (ih : FollowsTree depth) {bs : List Stmt} (hs : StmtsCode bs code) (c : Activation) (env : Handle)
    (stack : List Value) (hc : c.code.Has 0 (closeBody bs code)) :
    c.Runs 0 env stack (evalStmts c.code.file depth env bs >>= fun flow =>
      match flow with
      | .returned v => Pure.pure v
      | .next _ => Pure.pure .null) fun v => c.Returning stack v := by
  have hcode : c.code.Has 0 code := by
    unfold closeBody at hc
    split at hc
    · exact hc
    · exact hc.left
  have hruns := (ih.statements hs c 0 env stack hcode).also
    (R := fun flow => ∀ env', flow = .next env' → bs.getLast?.any Stmt.isReturn = false)
    fun w flow w' he env' hn => not_isReturn_getLast_of_next (hn ▸ he)
  refine hruns.bind fun flow w m ⟨hlast, hp⟩ => ?_
  cases flow with
  | returned v => exact .inr ⟨m, .refl m, hp⟩
  | next env' =>
    unfold closeBody at hc
    rw [hlast env' rfl] at hc
    have hnull := hc.right.left (a := [.load .null]) (b := [.ret])
    have hret := hc.right.right (a := [.load .null]) (b := [.ret])
    refine ((Runs.constant (k := .null) hnull).mono fun v w m hp => ?_) w m hp
    exact ⟨_, env', [], hret, by rwa [List.append_nil]⟩

/-- A call of a closure follows the evaluation of its body. -/
theorem call_function (ih : FollowsTree depth) {a : Handle} {args : List Value} {w : World} {heap : Heap}
    (hw : Mirrors c.code.file w heap) :
    c.Agrees ((MachineM.onHeap (HeapM.read (·.function a)) >>= fun f =>
        MachineM.callFunction f stack.length args.length)
        (c.at ip env (stack ++ [.ref .function a] ++ args) heap w.lastPopped))
      ((do
        let f ← EvalM.onHeap (HeapM.read (·.function a))
        let scope ← EvalM.enter f args
        let body ← EvalM.bodyOf a
        match ← evalStmts c.code.file depth scope body with
        | .returned v => return v
        | .next _ => return .null) w) fun v => c.Point ip env (stack ++ [v]) := by
  change c.Agrees (EStateM.bind (MachineM.onHeap _) _ _) (EStateM.bind (EvalM.onHeap _) _ w) _
  unfold EStateM.bind
  have hread : HeapM.read (·.function a) w.heap = match heap.function a with
      | .ok f => .ok f.erase w.heap
      | .error e => .error e w.heap := by
    rw [hw.heap, HeapM.read, Heap.function_erase]
    cases heap.function a <;> rfl
  rw [onHeap_at, EvalM.onHeap, hread, HeapM.read]
  cases hf : heap.function a with
  | error e => exact .inr ⟨w, rfl, leaves_at hw⟩
  | ok f =>
    obtain ⟨body, hb, code, hs, hk, hfile, hcode⟩ := hw.bodies _ f (Heap.closureAt_of_function hf)
    have henter : EvalM.enter f.erase args = EvalM.enter f args := rfl
    simp only [henter]
    refine agrees_callFunction hw fun scope w' h' hw' hbodies => ?_
    have hbody : EvalM.bodyOf a w' = .ok body w' := by
      simp only [EvalM.bodyOf, hbodies, hb]
    have hhas : f.code.Has 0 (closeBody body code) := ⟨hk, [], [], by simp [hcode], rfl⟩
    rw [← hfile] at hw'
    have hruns := ih.body hs (c.calling ip env f.code stack.length) scope (stack ++ [.ref .function a]) hhas w' _
      ⟨h', hw', rfl⟩
    change c.Follows _ (EStateM.bind (EvalM.bodyOf a) _ w') _
    rw [EStateM.bind, hbody]
    rw [show (c.calling ip env f.code stack.length).code.file = c.code.file from hfile] at hruns
    exact (hruns.of_calling hfile).trans fun v w m hret => hret.follows hfile

/-- A call follows that of the evaluation one level deeper. -/
theorem call_succ (ih : FollowsTree depth) {callee : Value} {args : List Value} {argc : UInt8}
    (hn : argc.toNat = args.length) (hc : c.code.Has ip [.call argc]) :
    c.Runs ip env (stack ++ [callee] ++ args) (evalCall c.code.file (depth + 1) callee args) fun v =>
      c.Point (ip + (Instruction.call argc).width) env (stack ++ [v]) := by
  refine Runs.instruction hc nofun fun w heap hw => ?_
  have hexec : MachineM.execute ⟨c.code, ip, env, c.base⟩ (ip + (Instruction.call argc).width) (.call argc) =
      MachineM.callValue args.length := by
    rw [← hn]
    rfl
  rw [hexec, callValue_at]
  cases callee with
  | ref kind a =>
    cases kind with
    | function =>
      rw [evalCall]
      exact ih.call_function hw
    | native =>
      rw [evalCall]
      exact agrees_onHeap (Plain.read (by simp)) hw fun n w' h' hw' _ => agrees_callNative hw'
    | _ =>
      rw [evalCall] <;> first | exact agrees_throw hw | nofun
  | _ =>
    rw [evalCall] <;> first | exact agrees_throw hw | nofun

/-- Code in an environment of its own: it is entered, and left for the environment around it unless the code returns. -/
theorem enclosed_runs {before : List Value} {x : Handle → EvalM Flow} {k : Handle → EvalM Flow}
    {Q : Flow → World → Machine → Prop} (hc : c.code.Has ip (enclosed code))
    (hx : ∀ scope, c.code.Has (ip + 1) code → c.Runs (ip + 1) scope before (x scope) (c.Ends (ip + 1 + codeSize code) stack))
    (hk : ∀ outer, c.Runs (ip + codeSize (enclosed code)) outer stack (k outer) Q)
    (hret : ∀ v w m, c.Returning stack v w m → Q (.returned v) w m) :
    c.Runs ip env before (EvalM.inside env >>= fun scope => x scope >>= fun flow =>
      match flow with
      | .next scope => EvalM.around scope >>= k
      | .returned v => Pure.pure (.returned v)) Q := by
  have henter := hc.left.left (a := [.enterScope]) (b := code)
  have hcode := hc.left.right (a := [.enterScope]) (b := code)
  have hexit := hc.right
  have hsize : ip + codeSize (enclosed code) = ip + 1 + codeSize code + 1 := by
    simp only [enclosed, codeSize_concat]
    rw [← Nat.add_assoc, codeSize, ← Nat.add_assoc]
    rfl
  rw [codeSize, ← Nat.add_assoc] at hexit
  rw [hsize] at hk
  refine (Runs.enterScope henter).bind fun scope => (hx scope hcode).bind fun flow w m hp => ?_
  cases flow with
  | next scope => exact ((Runs.exitScope hexit).bind hk) w m hp
  | returned v => exact .inr ⟨m, .refl m, hret v w m hp⟩

/-- The codes of a list of statements follow the list one level deeper. -/
theorem statements_succ (ih : FollowsTree depth) {bs : List Stmt} (hs : StmtsCode bs code) (hc : c.code.Has ip code) :
    c.Runs ip env stack (evalStmts c.code.file (depth + 1) env bs) (c.Ends (ip + codeSize code) stack) := by
  cases hs with
  | nil =>
    rw [evalStmts]
    exact Runs.pure _ fun _ _ hp => hp
  | cons hb hs =>
    rw [evalStmts, codeSize_append, ← Nat.add_assoc]
    refine (ih.statement hb c ip env stack hc.left).bind fun flow w m hp => ?_
    cases flow with
    | next env' => exact ih.statements hs c _ env' stack hc.right w m hp
    | returned v => exact .inr ⟨m, .refl m, hp⟩

/-- The code of the body of a loop follows one pass one level deeper. -/
theorem pass_succ (ih : FollowsTree depth) {b : Stmt} (hb : LoopCode b code) (hc : c.code.Has ip code) :
    c.Runs ip env stack (evalPass c.code.file (depth + 1) env b) (c.Ends (ip + codeSize code) stack) := by
  cases hb with
  | block hs =>
    rw [evalPass]
    exact ih.statements hs c ip env stack hc
  | single hblock hb =>
    cases b with
    | block s body => nomatch hblock
    | _ =>
      rw [evalPass] <;> first | exact ih.statement hb c ip env stack hc | nofun

/-- The code of a statement follows its tree one level deeper. -/
theorem statement_succ (ih : FollowsTree depth) {b : Stmt} (hb : StmtCode b code) (hc : c.code.Has ip code) :
    c.Runs ip env stack (evalStmt c.code.file (depth + 1) env b) (c.Ends (ip + codeSize code) stack) := by
  cases hb with
  | expression he =>
    rw [evalStmt, codeSize_concat, ← Nat.add_assoc]
    refine (ih.value he c ip env stack hc.left).bind fun v => ?_
    exact (Runs.pop hc.right).bind fun _ => Runs.pure _ fun _ _ hp => hp
  | declaration he =>
    rw [evalStmt, codeSize_concat, ← Nat.add_assoc]
    refine (ih.value he c ip env stack hc.left).bind fun v => ?_
    exact (Runs.storeName hc.right).bind fun _ => Runs.pure _ fun _ _ hp => hp
  | declarationOfNull =>
    rw [evalStmt, codeSize_concat, ← Nat.add_assoc]
    refine (Runs.constant (k := .null) hc.left).bind fun v => ?_
    exact (Runs.storeName hc.right).bind fun _ => Runs.pure _ fun _ _ hp => hp
  | block hs =>
    rw [evalStmt]
    refine enclosed_runs hc (fun scope hcode => ih.statements hs c _ scope stack hcode) (fun outer => ?_) fun _ _ _ h => h
    exact Runs.pure _ fun _ _ hp => hp
  | ret he =>
    rw [evalStmt]
    refine (ih.value he c ip env stack hc.left).bind fun v => Runs.pure _ fun w m hp => ?_
    exact ⟨_, env, [], hc.right, by rwa [List.append_nil]⟩
  | retNull =>
    rw [evalStmt]
    refine (Runs.constant (k := .null) hc.left).bind fun v => Runs.pure _ fun w m hp => ?_
    exact ⟨_, env, [], hc.right, by rwa [List.append_nil]⟩
  | function hn hp =>
    rw [evalStmt, hn, codeSize_concat, ← Nat.add_assoc]
    refine (Runs.makeFunction hp hc.left).bind fun v => ?_
    exact (Runs.storeName hc.right).bind fun _ => Runs.pure _ fun _ _ hp => hp
  | branch hj ht hr =>
    have hend := hc.le_size
    rw [evalStmt]
    rw [codeSize_append, ← Nat.add_assoc] at hend ⊢
    refine (ih.condition hj c ip env stack _ _ hr hc.left hend).bind fun b => ?_
    cases b with
    | true => exact ih.statement ht c _ env stack hc.right
    | false => exact Runs.pure _ fun _ _ hp => hp
  | branchElse hj ht he hd hr =>
    rename_i s cond t e f test whenTrue whenFalse d
    have hend := hc.le_size
    have htrue := hc.left.left.right
    have hjump := hc.left.right
    have hfalse := hc.right
    rw [evalStmt]
    simp only [codeSize_append, codeSize_singleton, width_jump, ← Nat.add_assoc] at hend hjump hfalse ⊢
    refine (ih.condition hj c ip env stack _ _ hr hc.left.left.left (by omega)).bind fun b => ?_
    cases b with
    | true =>
      refine (ih.statement ht c _ env stack htrue).trans fun flow w m hp => ?_
      cases flow with
      | returned v => exact .inr ⟨m, .refl m, hp⟩
      | next env' =>
        refine Runs.jump hjump (.inl rfl) ?_ hend (Runs.pure (Flow.next env') fun _ _ hp => hp) w m hp
        rw [jumpDistance_eq_ok hd, width_jump]
        omega
    | false =>
      rw [if_pos rfl, ← Nat.add_assoc]
      exact ih.statement he c _ env stack hfalse
  | whileLoop hj hb hd hr =>
    rename_i s cond b f test body d
    have hcode := StmtCode.whileLoop (s := s) hj hb hd hr
    have hend := hc.le_size
    have hbody := hc.left.right
    have hjump := hc.right
    have hsize := Fragment.codeSize_of_resolve hr
    rw [evalStmt]
    simp only [codeSize_append, codeSize_singleton, width_jump, ← Nat.add_assoc] at hend hjump ⊢
    refine (ih.condition hj c ip env stack _ _ hr hc.left.left (by omega)).bind fun t => ?_
    cases t with
    | true =>
      rw [if_neg nofun]
      refine enclosed_runs hbody (fun scope hcode => ih.pass hb c _ scope stack hcode) (fun outer => ?_) fun _ _ _ h => h
      have hagain := ih.statement hcode c ip outer stack hc
      simp only [codeSize_append, codeSize_singleton, width_jump, ← Nat.add_assoc] at hagain
      refine Runs.jump hjump (.inr rfl) ?_ (by omega) hagain
      rw [jumpDistance_eq_ok hd, width_jump]
      omega
    | false =>
      refine Runs.pure _ fun w m hp => ?_
      rwa [if_pos rfl, ← Nat.add_assoc] at hp
  | forIn he hb hback hexit =>
    have hiter := hc.left.right
    have hloop := hc.right
    rw [evalStmt]
    rw [codeSize_append, codeSize_concat, ← Nat.add_assoc, ← Nat.add_assoc]
    rw [codeSize_concat, ← Nat.add_assoc] at hloop
    refine (ih.value he c ip env stack hc.left.left).bind fun v => ?_
    refine (Runs.getIter hiter).bind fun iterator => ?_
    exact ih.loop hb hback hexit c _ env stack iterator hloop

/-- The variables of a loop are bound to what the iterator yields. -/
theorem bindPass_runs {key : Option String} {value : String} {pair : Value × Value} (hc : c.code.Has ip (bindCode key value)) :
    c.Runs ip env (stack ++ yielded (yieldArity key) pair) (EvalM.bindPass env key value pair)
      fun _ => c.Point (ip + codeSize (bindCode key value)) env stack := by
  cases key with
  | none => exact (Runs.storeName hc).bind fun _ => Runs.pure () fun _ _ hp => hp
  | some key =>
    have hvalue := hc.left (a := [.storeName value]) (b := [.storeName key])
    have hkey := hc.right (a := [.storeName value]) (b := [.storeName key])
    have hstack : stack ++ yielded (yieldArity (some key)) pair = stack ++ [pair.1] ++ [pair.2] := by
      simp [yielded, yieldArity]
    have hsize : ip + codeSize (bindCode (some key) value) =
        ip + codeSize [.storeName value] + (Instruction.storeName key).width := by
      rw [Nat.add_assoc]
      rfl
    rw [hstack, hsize]
    exact (Runs.storeName hvalue).bind fun _ => Runs.storeName hkey

/-- The code of a loop follows the loop one level deeper: a pass and the jump back, or the exit. -/
theorem loop_succ (ih : FollowsTree depth) {b : Stmt} {body : List Instruction} (hb : LoopCode b body)
    {key : Option String} {value : String} {back exit : Int32}
    (hback : jumpDistance (-((Fragment.iterNextWidth + codeSize (enclosed (bindCode key value ++ body)) +
      Fragment.jumpWidth : Nat) : Int)) = .ok back)
    (hexit : jumpDistance ((codeSize (enclosed (bindCode key value ++ body)) + Fragment.jumpWidth : Nat) : Int) = .ok exit)
    {iterator : Value}
    (hc : c.code.Has ip (.iterNext (yieldArity key) exit :: enclosed (bindCode key value ++ body) ++ [.jump .loop back])) :
    c.Runs ip env (stack ++ [iterator]) (evalLoop c.code.file (depth + 1) env iterator key value b)
      (c.Ends (ip + codeSize (.iterNext (yieldArity key) exit :: enclosed (bindCode key value ++ body) ++
        [.jump .loop back])) stack) := by
  have hend := hc.le_size
  have hnext := hc.left.left (a := [.iterNext (yieldArity key) exit])
  have hpass := hc.left.right (a := [.iterNext (yieldArity key) exit])
  have hjump := hc.right
  have hagain := fun outer => ih.loop hb hback hexit c ip outer stack iterator hc
  rw [evalLoop]
  simp only [codeSize_concat, codeSize, width_jump, width_iterNext, ← Nat.add_assoc] at hend hjump hagain hpass ⊢
  refine (Runs.iterNext hnext ?_ hend).bind fun found w m hp => ?_
  · rw [jumpDistance_eq_ok hexit, width_iterNext]
    omega
  cases found with
  | none => exact .inr ⟨m, .refl m, hp⟩
  | some pair =>
    have hbody : ∀ scope, c.code.Has (ip + Fragment.iterNextWidth + 1) (bindCode key value ++ body) →
        c.Runs (ip + Fragment.iterNextWidth + 1) scope (stack ++ [iterator] ++ yielded (yieldArity key) pair)
          (do EvalM.bindPass scope key value pair; evalPass c.code.file depth scope b)
          (c.Ends (ip + Fragment.iterNextWidth + 1 + codeSize (bindCode key value ++ body)) (stack ++ [iterator])) := by
      intro scope hcode
      rw [codeSize_append, ← Nat.add_assoc]
      exact (bindPass_runs hcode.left).bind fun _ => ih.pass hb c _ scope (stack ++ [iterator]) hcode.right
    refine enclosed_runs hpass hbody (fun outer => ?_) (fun _ _ _ h => h.below) w m hp
    refine Runs.jump hjump (.inr rfl) ?_ (by omega) (hagain outer)
    rw [jumpDistance_eq_ok hback, width_jump]
    omega

/-- All code follows its tree one level deeper. -/
theorem succ (ih : FollowsTree depth) : FollowsTree (depth + 1) where
  value he _ _ _ _ hc := ih.value_succ he hc
  values hes _ _ _ _ hc := ih.values_succ hes hc
  pairs hps _ _ _ _ hc := ih.pairs_succ hps hc
  condition he _ _ _ _ _ _ hr hc hl := ih.condition_succ he hr hc hl
  call _ _ _ _ _ _ _ hn hc := ih.call_succ hn hc
  statement hb _ _ _ _ hc := ih.statement_succ hb hc
  pass hb _ _ _ _ hc := ih.pass_succ hb hc
  loop hb _ _ _ _ hback hexit _ _ _ _ _ hc := ih.loop_succ hb hback hexit hc
  statements hs _ _ _ _ hc := ih.statements_succ hs hc

end FollowsTree

/-- Code follows its tree to every depth. -/
theorem followsTree (depth : Nat) : FollowsTree depth := by
  induction depth with
  | zero => exact .zero
  | succ depth ih => exact ih.succ

/-! ## Programs -/

/-- A machine shows what an evaluation in its globals has done. -/
structure Machine.Shows (m : Machine) (env : Handle) (w : World) : Prop where
  lastPopped : m.lastPopped = w.lastPopped
  /-- The objects are the same, but for the code in closures. -/
  heap : m.heap.erase = w.heap
  globals : m.globals = env
  bindings : ∀ name, m.global? name = (w.heap.lookup env name).toOption.join

/-- A machine that mirrors a world shows what the evaluation has done. -/
theorem Machine.Shows.of_mirrors {m : Machine} {globals : Handle} {file : String} {w : World} (hg : m.globals = globals)
    (hl : m.lastPopped = w.lastPopped) (hw : Mirrors file w m.heap) : m.Shows globals w := by
  refine ⟨hl, hw.heap.symm, hg, fun name => ?_⟩
  rw [hw.heap, Heap.lookup_erase, Machine.global?, hg]

/-- The activation of a module. -/
def Machine.activation (m : Machine) (image : Image) : Activation :=
  ⟨⟨image.path, image.name, [], [], false, image.code.toArray⟩, 0, #[], m.globals, m.settings⟩

/-- A new machine starts a module at the beginning of its code, in its globals. -/
theorem Machine.Blank.start_eq {m : Machine} (hm : m.Blank) (image : Image) :
    m.start image = (m.activation image).at 0 m.globals [] m.heap .null := by
  rw [← hm.lastPopped, Machine.start, Activation.at, ← hm.resolver]
  rfl

/-- The return of a module ends the run. -/
theorem Activation.Returning.finishes {m m' : Machine} {image : Image} {v : Value} {w : World}
    (h : (m.activation image).Returning [] v w m') :
    ∃ m₁, m'.Finishes v m₁ ∧ m₁.globals = m.globals ∧ m₁.lastPopped = w.lastPopped ∧ Mirrors image.path w m₁.heap := by
  obtain ⟨ip, env, above, hc, heap, hw, rfl⟩ := h
  have hs := step_ret_at hw.quiet hc env ([] ++ above) w.lastPopped v
  rw [returnValue_at] at hs
  exact ⟨_, ⟨_, .refl _, hs⟩, rfl, rfl, hw⟩

/-- A module follows the evaluation of its program from a new machine. -/
theorem Machine.Blank.follows {m : Machine} (hm : m.Blank) {p : Program} {image : Image} (hp : p.compile = .ok image)
    (depth : Nat) :
    (m.activation image).Follows (m.start image) (p.evaluate depth m.globals ⟨m.heap, fun _ => none, .null⟩)
      fun v => (m.activation image).Returning [] v := by
  obtain ⟨code, ⟨inner, hs, rfl⟩, hk, rfl, _, _⟩ := p.compile_code hp
  have hw : Mirrors p.path ⟨m.heap, fun _ => none, .null⟩ m.heap := by
    refine ⟨(Heap.erase_of_closureAt hm.closures).symm, hm.quiet, fun i f hf => ?_⟩
    rw [hm.closures i] at hf
    nomatch hf
  have hhas : Code.Has ⟨p.path, p.name, [], [], false, (encodeAll (inner ++ Compile.returnNull)).toArray⟩ 0
      (inner ++ Compile.returnNull) := ⟨hk, [], [], by simp, rfl⟩
  have hload := hhas.right.left (a := [.load .null]) (b := [.ret])
  have hret := hhas.right.right (a := [.load .null]) (b := [.ret])
  rw [hm.start_eq]
  refine ((followsTree depth).statements hs (m.activation ⟨p.path, p.name, _⟩) 0 m.globals [] hhas.left).bind
    (fun flow w m' hp => ?_) _ _ ⟨m.heap, hw, rfl⟩
  cases flow with
  | returned v => exact .inr ⟨m', .refl m', hp⟩
  | next env =>
    refine ((Activation.Runs.constant (k := .null) hload).mono fun v w m hp => ?_) w m' hp
    exact ⟨_, env, [], hret, hp⟩

/-- A compiled program runs as its tree is evaluated. Whenever the evaluation in the globals of a new machine ends, with a value
or with an error, every run of the module with enough fuel ends in the same way and shows what the evaluation has done, unless
it ends for want of stack or frames. -/
theorem Program.run_follows_evaluation {p : Program} {image : Image} {s : Settings} {m : Machine}
    (hp : p.compile = .ok image) (hsize : image.encode.length < UInt64.size) (ht : s.gcThreshold = 0)
    (hl : s.maxHeapObjects = none) (hm : Machine.ofSettings s = .ok m) (depth : Nat) :
    (∃ n e m', e.IsOverflow ∧ ∀ fuel, m.run (fuel + n) image.encode = (.failed (.runtime e), m')) ∨
      match p.evaluate depth m.globals ⟨m.heap, fun _ => none, .null⟩ with
      | .ok v w => ∃ n m', m'.Shows m.globals w ∧ ∀ fuel, m.run (fuel + n) image.encode = (.finished v, m')
      | .error (.failed e) w =>
        ∃ n m', m'.Shows m.globals w ∧ ∀ fuel, m.run (fuel + n) image.encode = (.failed (.runtime e), m')
      | .error .unfinished _ => True := by
  have hblank := Machine.blank_ofSettings ht hl hm
  have hrun : ∀ fuel, m.run fuel image.encode = Machine.steps fuel (m.start image) := by
    obtain ⟨code, _, _, rfl, hpath, hname⟩ := p.compile_code hp
    intro fuel
    rw [Machine.run, Image.decode_encode hpath hname hsize]
  simp only [hrun]
  rcases hblank.follows hp depth with ⟨e, m', hf, ho⟩ | hfollows
  · obtain ⟨n, hn⟩ := hf.steps
    exact .inl ⟨n, e, _, ho, hn⟩
  · right
    cases hr : p.evaluate depth m.globals ⟨m.heap, fun _ => none, .null⟩ with
    | ok v w =>
      rw [hr] at hfollows
      obtain ⟨m₁, hreach, hret⟩ := hfollows
      obtain ⟨m₂, ⟨m₃, h₃, hlast⟩, hg, hlp, hw⟩ := hret.finishes
      obtain ⟨n, hn⟩ := Machine.Finishes.steps ⟨m₃, hreach.trans h₃, hlast⟩
      exact ⟨n, m₂, .of_mirrors hg hlp hw, hn⟩
    | error e w =>
      rw [hr] at hfollows
      cases e with
      | unfinished => trivial
      | failed e =>
        obtain ⟨m', hf, hg, hlp, hw⟩ := hfollows
        obtain ⟨n, hn⟩ := hf.steps
        exact ⟨n, m'.abandon, .of_mirrors hg hlp hw, hn⟩

/-- A loop over two elements, the body of which is an index into an array. -/
def Program.loopSample : Program :=
  let seven := Expr.array {} [.literal {} (.int 7)]
  ⟨"m.vs", "m", [.forIn {} none "x" (.array {} [.literal {} (.int 1), .literal {} (.int 2)])
    (.block {} [.expression {} (.index {} seven (.literal {} (.int 0)))])]⟩

/-- How the evaluation of a program ends on a new machine, and the value it discards last. -/
def Program.outcome (p : Program) (depth : Nat) (s : Settings) : Option (Value × Value) :=
  match Machine.ofSettings s with
  | .ok m =>
    match p.evaluate depth m.globals ⟨m.heap, fun _ => none, .null⟩ with
    | .ok v w => some (v, w.lastPopped)
    | .error _ _ => none
  | .error _ => none

/-- The result of a program's module on a new machine. -/
def Program.result (p : Program) (fuel : Nat) (s : Settings) : Option Value :=
  match Machine.ofSettings s with
  | .ok m =>
    match m.runProgram fuel p with
    | (.finished v, _) => some v
    | _ => none
  | .error _ => none

/-- The loop ends within the stack and the frames, so its run and its evaluation come to the same. -/
theorem Program.run_follows_evaluation_loopSample :
    ∃ image m w, Program.loopSample.compile = .ok image ∧ image.encode.length < UInt64.size ∧
      Machine.ofSettings { gcThreshold := 0 } = .ok m ∧
      Program.loopSample.evaluate 12 m.globals ⟨m.heap, fun _ => none, .null⟩ = .ok .null w ∧ w.lastPopped = .int 7 ∧
      ∃ n m', m'.Shows m.globals w ∧ ∀ fuel, m.run (fuel + n) image.encode = (.finished .null, m') := by
  have hvalue : Program.loopSample.outcome 12 { gcThreshold := 0 } = some (.null, .int 7) := by decide +kernel
  have hresult : Program.loopSample.result 40 { gcThreshold := 0 } = some .null := by decide +kernel
  obtain ⟨image, hp, hsize⟩ : ∃ image, Program.loopSample.compile = .ok image ∧ image.encode.length < UInt64.size :=
    ⟨_, rfl, by decide⟩
  unfold Program.outcome at hvalue
  unfold Program.result at hresult
  cases hm : Machine.ofSettings { gcThreshold := 0 } with
  | error e =>
    rw [hm] at hvalue
    nomatch hvalue
  | ok m =>
    rw [hm] at hvalue hresult
    simp only [Machine.runProgram, hp] at hvalue hresult
    rcases Program.run_follows_evaluation hp hsize rfl rfl hm 12 with ⟨n, e, m', -, hoverflow⟩ | hruns
    · -- The run has ended well, so it does not end in an overflow.
      have hend : (m.run 40 image.encode).1 ≠ .unfinished := by
        intro hunfinished
        split at hresult
        · rename_i hrun
          rw [hrun] at hunfinished
          nomatch hunfinished
        · nomatch hresult
      rw [← Machine.run_add hend n, hoverflow 40] at hresult
      nomatch hresult
    · cases hr : Program.loopSample.evaluate 12 m.globals ⟨m.heap, fun _ => none, .null⟩ with
      | error e w =>
        rw [hr] at hvalue
        nomatch hvalue
      | ok v w =>
        rw [hr] at hvalue hruns
        obtain ⟨rfl, hlast⟩ := Prod.mk.inj (Option.some.inj hvalue)
        exact ⟨image, m, w, hp, hsize, rfl, hr, hlast, hruns⟩

end ScriptVM
