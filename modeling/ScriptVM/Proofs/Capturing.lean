import ScriptVM.Proofs.Discipline
import ScriptVM.Proofs.Recording

/-!
# Capture lists are exact

Each part of the compiler is followed against what its part of the tree mentions (`Tells`): the uses are recorded in the scopes, and
the code makes the functions of the part. Along the tree this gives, for every function of a program that compiles, that its
instruction lists exactly the names that the function takes from outside (`Program.captures_exact`).
-/

namespace ScriptVM

open Compile

/-! ## Functions of code -/

/-- Code makes the functions of sites, one behind the other. -/
def Yields (sites : List Site) (code : List Instruction) : Prop := List.Forall₂ Site.Makes sites (made code)

/-- The functions that the finished instructions of a fragment make. -/
def Fragment.made (f : Fragment) : List Prototype :=
  f.filterMap fun
    | .done i => i.prototype?
    | .pending _ => none

/-- A fragment makes the functions of sites. -/
def Fragment.Yields (sites : List Site) (f : Fragment) : Prop := List.Forall₂ Site.Makes sites f.made

/-- The code of a fragment makes the functions that the code makes. -/
theorem Fragment.made_ofCode (code : List Instruction) : (Fragment.ofCode code).made = ScriptVM.made code := by
  rw [Fragment.made, Fragment.ofCode, List.filterMap_map]
  rfl

/-- Resolving a fragment leaves the functions it makes. -/
theorem Fragment.made_of_resolve {f : Fragment} {beyond : Nat} {code : List Instruction} (h : f.resolve beyond = .ok code) :
    ScriptVM.made code = f.made := by
  induction f generalizing code with
  | nil =>
    cases h
    rfl
  | cons item f ih =>
    cases item with
    | done i =>
      obtain ⟨rest, hrest, hlast⟩ := bind_eq_ok.1 h
      cases hlast
      simp only [ScriptVM.made, Fragment.made, List.filterMap_cons] at ih ⊢
      rw [ih hrest]
    | pending kind =>
      obtain ⟨d, _, hplaced⟩ := bind_eq_ok.1 h
      obtain ⟨rest, hrest, hlast⟩ := bind_eq_ok.1 hplaced
      cases hlast
      simp only [ScriptVM.made, Fragment.made, List.filterMap_cons, Instruction.prototype?] at ih ⊢
      exact ih hrest

/-- The code of a fragment yields what the fragment yields. -/
theorem Fragment.Yields.code {sites : List Site} {f : Fragment} (h : f.Yields sites) {beyond : Nat} {code : List Instruction}
    (hcode : f.resolve beyond = .ok code) : ScriptVM.Yields sites code := by
  rw [ScriptVM.Yields, Fragment.made_of_resolve hcode]
  exact h

/-- Two fragments in sequence yield what they yield, in sequence. -/
theorem Fragment.Yields.append {fs gs : List Site} {f g : Fragment} (hf : f.Yields fs) (hg : g.Yields gs) :
    Fragment.Yields (fs ++ gs) (f ++ g) := by
  rw [Fragment.Yields, Fragment.made, List.filterMap_append]
  exact List.rel_append hf hg

namespace Yields

variable {fs gs : List Site} {a b code : List Instruction} {i : Instruction}

/-- Code without instructions yields no function. -/
theorem nil : Yields [] [] := List.Forall₂.nil

/-- Two pieces of code in sequence yield what they yield, in sequence. -/
theorem append (ha : Yields fs a) (hb : Yields gs b) : Yields (fs ++ gs) (a ++ b) := by
  rw [Yields, made, List.filterMap_append]
  exact List.rel_append ha hb

/-- An instruction without a prototype yields no function. -/
theorem plain (hi : i.prototype? = none) : Yields [] [i] := by
  rw [Yields, made, List.filterMap_cons, hi]
  exact .nil

/-- An instruction without a prototype behind the code adds no function. -/
theorem concat (ha : Yields fs a) (hi : i.prototype? = none) : Yields fs (a ++ [i]) := by
  rw [← List.append_nil fs]
  exact ha.append (.plain hi)

/-- An instruction without a prototype in front of the code adds no function. -/
theorem cons (hi : i.prototype? = none) (ha : Yields fs a) : Yields fs (i :: a) := (plain hi).append ha

/-- The fragment of a piece of code yields what the code yields. -/
theorem ofCode (ha : Yields fs a) : (Fragment.ofCode a).Yields fs := by
  rw [Fragment.Yields, Fragment.made_ofCode]
  exact ha

end Yields

/-- A compilation records the uses of a part of a tree, and its code makes the functions of the part. -/
abbrev Tells (Γ : Context) (c : CompileM (List Instruction)) (w : Mentions) (Γ' : Context) : Prop :=
  Records Γ c w.uses Γ' (Yields w.functions)

namespace Records

variable {Γ Γ' : Context} {span : Span} {fs gs : List Site} {code body whenTrue whenFalse : List Instruction} {head : Fragment}
  {i : Instruction}

/-- An instruction that makes no function, behind code. -/
theorem behind (hi : i.prototype? = none) (hcode : Yields fs code) :
    Records Γ (do return code ++ (← Compile.emit span i)) [] Γ (Yields fs) := by
  refine (emit i).andThen fun last hlast => pure ?_
  rw [hlast]
  exact hcode.concat hi

/-- A loop yields the functions of its head and those of its body, and records no use of its own. -/
theorem loop (hhead : head.Yields fs) (hbody : Yields gs body) :
    Records Γ (Compile.loop span head body) [] Γ (Yields (fs ++ gs)) := by
  refine (jumpBy _ _).andThen fun back ⟨d, hback⟩ => (place _ _).andThen fun test htest => pure ?_
  rw [hback]
  exact ((hhead.code htest).append hbody).concat rfl

/-- An iteration yields the functions of its body. -/
theorem iterate {arity : UInt8} (hbody : Yields fs body) : Records Γ (Compile.iterate span arity body) [] Γ (Yields fs) := by
  refine (jumpBy _ _).andThen fun back ⟨d, hback⟩ => (encoding _).andThen fun exit _ => pure ?_
  rw [hback]
  exact (hbody.cons rfl).concat rfl

/-- A choice yields the functions of its head, of the code taken when true and of the code taken otherwise. -/
theorem choose {hs : List Site} (hhead : head.Yields fs) (htrue : Yields gs whenTrue) (hfalse : Yields hs whenFalse) :
    Records Γ (Compile.choose span head whenTrue whenFalse) [] Γ (Yields (fs ++ gs ++ hs)) := by
  refine (jumpBy _ _).andThen fun skip ⟨d, hskip⟩ => (place _ _).andThen fun test htest => pure ?_
  rw [hskip]
  exact (((hhead.code htest).append htrue).concat rfl).append hfalse

/-- Code in an environment of its own tells what it tells one level deeper, and leaves the context. -/
theorem inEnvironment {kind : ScopeKind} {c : CompileM (List Instruction)} {w : Mentions} (hc : Tells (Γ.enter kind) c w Γ')
    (houter : Γ'.outer = Γ.levels) : Tells Γ (Compile.inEnvironment kind c) w Γ :=
  (hc.inScope houter).andThen fun _ hr => pure ((hr.1.cons rfl).concat rfl)

/-- A single statement tells what it tells in a scope of its own, and leaves the context. -/
theorem single {c : CompileM (List Instruction)} {w : Mentions} (hc : Tells (Γ.enter .single) c w Γ')
    (houter : Γ'.outer = Γ.levels) : Tells Γ (Compile.single c) w Γ := by
  rw [Compile.single, map_eq_pure_bind]
  exact (hc.inScope houter).andThen fun _ hr => pure hr.1

/-- A variable is declared behind the code of its value, and stored. -/
theorem declared {kind : Option DeclKind} {x : String} (hcode : Yields fs code) :
    Records Γ (do Compile.declare span kind x; return code ++ (← Compile.emit span (.storeName x))) []
      (Γ.declare x (kind = some .const)) (Yields fs) :=
  declare.andThen fun _ _ => behind rfl hcode

/-- One pass of a loop binds the value and the key, and runs the body. -/
theorem pass (span : Span) {key : Option String} {value : String} {c : CompileM (List Instruction)} {w : Mentions}
    (hc : Tells ((Γ.enter .loop).declareAll (value :: key.toList)) c w Γ') :
    Tells (Γ.enter .loop) (do
      let valueCode ← Compile.bind span value
      let keyCode ←
        match key with
        | some key => Compile.bind span key
        | none => Pure.pure []
      return valueCode ++ keyCode ++ (← c)) w Γ' := by
  have hbind (Γ : Context) (x : String) : Records Γ (Compile.bind span x) [] (Γ.declare x false) (Yields []) :=
    declare.andThen fun _ _ => (emit _).imp fun code hcode => by rw [hcode]; exact .plain rfl
  refine (hbind _ value).before fun a ha => ?_
  cases key with
  | none =>
    have hnone : Records ((Γ.enter .loop).declare value false) (Pure.pure ([] : List Instruction)) [] _ (Yields []) := pure .nil
    exact hnone.before fun b hb => hc.andThen fun code hcode => pure ((ha.append hb).append hcode)
  | some key =>
    exact (hbind _ key).before fun b hb => hc.andThen fun code hcode => pure ((ha.append hb).append hcode)

end Records

/-! ## Expressions and statements -/

/-- Both ways to compile an expression tell what it mentions, and declare nothing. -/
structure Compile.Lowered.Tells (Γ : Context) (w : Mentions) (l : Lowered) : Prop where
  value : ScriptVM.Tells Γ l.value w Γ
  jump : ∀ sense, Records Γ (l.jump sense) w.uses Γ (Fragment.Yields w.functions)

namespace Compile.Lowered.Tells

variable {Γ : Context} {w w' : Mentions} {l r : Lowered} {value : CompileM (List Instruction)} {span : Span}

/-- An expression lowered from its value tells what its value tells. -/
theorem ofValue (h : ScriptVM.Tells Γ value w Γ) : (Lowered.ofValue value).Tells Γ w := by
  refine ⟨h, fun _ => h.andThen fun code hcode => .pure ?_⟩
  rw [← List.append_nil w.functions]
  exact hcode.ofCode.append .nil

theorem ofConstant {c : Constant} : (Lowered.ofConstant span c).Tells Γ {} := by
  refine ⟨(Records.emit _).imp fun code hcode => ?_, fun sense => .pure ?_⟩
  · rw [hcode]
    exact .plain rfl
  · split
    · exact .nil
    · exact .nil

/-- A negated expression tells what the expression tells. -/
theorem not (h : l.Tells Γ w) : (Lowered.not span l).Tells Γ w :=
  ⟨h.value.andThen fun _ hcode => .behind rfl hcode, fun sense => h.jump (!sense)⟩

/-- The jumps of a condition record the uses of both sides from left to right and yield their functions. -/
theorem logicalJump {op : LogicalOp} (hl : l.Tells Γ w) (hr : r.Tells Γ w') (sense : Bool) :
    Records Γ (Lowered.logicalJump span op l r sense) (w ++ w').uses Γ (Fragment.Yields (w ++ w').functions) := by
  unfold Lowered.logicalJump
  split
  · exact (hl.jump sense).bind fun f hf => (hr.jump sense).andThen fun g hg => .pure (hf.append hg)
  · refine (hl.jump (!sense)).bind fun f hf => (hr.jump sense).andThen fun g hg => ?_
    exact (Records.place _ _).andThen fun skip hskip => .pure ((hf.code hskip).ofCode.append hg)

/-- A condition tells what both sides tell, from left to right. -/
theorem logical {op : LogicalOp} (hl : l.Tells Γ w) (hr : r.Tells Γ w') : (Lowered.logical span op l r).Tells Γ (w ++ w') := by
  refine ⟨?_, logicalJump hl hr⟩
  refine (logicalJump hl hr false).andThen fun f hf => (Records.jumpBy _ _).andThen fun skip ⟨d, hskip⟩ => ?_
  refine (Records.place _ _).andThen fun test htest => .pure ?_
  rw [hskip]
  have hchosen := (hf.code htest).append (.append (.plain rfl : Yields [] [.load (.bool true)]) (.plain rfl : Yields [] [.jump .forward d]))
  rw [List.append_nil, List.append_nil] at hchosen
  exact hchosen.concat rfl

end Compile.Lowered.Tells

/-- Only a block minds whether it is the body of a loop. -/
theorem Stmt.mentions_isLoopBody {b : Stmt} (hb : ∀ span body, b ≠ .block span body) {Γ : Context} {isLoopBody : Bool} :
    b.mentions isLoopBody Γ = b.mentions false Γ := by
  cases b with
  | block span body => exact absurd rfl (hb span body)
  | declaration _ _ _ initializer => cases initializer <;> simp only [Stmt.mentions]
  | branch _ _ _ elseBranch => cases elseBranch <;> simp only [Stmt.mentions]
  | ret _ value => cases value <;> simp only [Stmt.mentions]
  | _ => simp only [Stmt.mentions]

/-- The ways to compile a statement tell what it mentions: in a list of statements, as a branch and as the body of a loop. -/
structure Compile.LoweredStmt.Tells (b : Stmt) (l : LoweredStmt) : Prop where
  code : ∀ Γ, ScriptVM.Tells Γ l.code (b.mentions false Γ) (Γ.after b)
  arm : ∀ Γ, ScriptVM.Tells Γ l.arm (b.mentions false (Γ.around b)) Γ
  loopBody : ∀ Γ, ∃ Γ', Γ'.outer = Γ.outer ∧ ScriptVM.Tells Γ l.loopBody (b.mentions true (Γ.around b)) Γ'

namespace Compile.LoweredStmt.Tells

variable {b : Stmt} {c : CompileM (List Instruction)}

/-- A statement that is no block stands in a scope of its own where it is a branch or a body. -/
theorem ofCode (hb : ∀ span body, b ≠ .block span body) (h : ∀ Γ, ScriptVM.Tells Γ c (b.mentions false Γ) (Γ.after b)) :
    (LoweredStmt.ofCode c).Tells b := by
  have hsingle (Γ : Context) : ScriptVM.Tells Γ (single c) (b.mentions false (Γ.around b)) Γ := by
    rw [Γ.around_of_ne_block hb]
    exact .single (h _) (Context.outer_after b)
  refine ⟨h, hsingle, fun Γ => ⟨Γ, rfl, ?_⟩⟩
  rw [Stmt.mentions_isLoopBody hb]
  exact hsingle Γ

/-- A block opens a scope, but shares that of a loop as its body. -/
theorem block {span : Span} {body : List Stmt} (h : ∀ Γ, ScriptVM.Tells Γ c (Stmt.allMentions Γ body) (Γ.afterAll body)) :
    (LoweredStmt.block c).Tells (.block span body) := by
  have hbraced (Γ : Context) : ScriptVM.Tells Γ (inEnvironment .block c) ((Stmt.block span body).mentions false Γ) Γ := by
    rw [Stmt.mentions]
    exact .inEnvironment (h _) Context.outer_afterAll
  refine ⟨hbraced, hbraced, fun Γ => ⟨Γ.afterAll body, Context.outer_afterAll, ?_⟩⟩
  rw [Stmt.mentions]
  exact h Γ

end Compile.LoweredStmt.Tells

/-! ## Along the tree -/

/-- Constant expressions mention nothing. -/
theorem Expr.mentions_of_fold {e : Expr} {k : Constant} (h : e.fold? = some k) (Γ : Context) : e.mentions Γ = {} := by
  induction e using Expr.fold?.induct generalizing k with
  | case1 span v => rw [Expr.mentions]
  | case2 span op e ih =>
    obtain ⟨a, ha, -⟩ := Option.bind_eq_some_iff.1 h
    rw [Expr.mentions, ih ha]
  | case3 span op l r ihl ihr =>
    obtain ⟨a, ha, hrest⟩ := Option.bind_eq_some_iff.1 h
    obtain ⟨b, hb, -⟩ := Option.bind_eq_some_iff.1 hrest
    rw [Expr.mentions, ihl ha, ihr hb]
    rfl
  | case4 span op l r ihl ihr =>
    obtain ⟨a, ha, hrest⟩ := Option.bind_eq_some_iff.1 h
    obtain ⟨b, hb, -⟩ := Option.bind_eq_some_iff.1 hrest
    rw [Expr.mentions, ihl ha, ihr hb]
    rfl
  | case5 e _ _ _ _ => simp [Expr.fold?] at h

/-- Located instructions are those of the code. -/
theorem map_instruction_locate (offset : Nat) (code : List Instruction) : (locate offset code).map Located.instruction = code := by
  induction code generalizing offset with
  | nil => rfl
  | cons i code ih => rw [locate, List.map_cons, ih]

/-- Code with the result null behind it is read back, and makes the same functions. -/
theorem exists_decodeStream_returnNull {body : List Stmt} {code : List Instruction} (h : Emits (statements body) code) :
    ∃ listed, decodeStream (encodeAll (code ++ returnNull)) = .ok listed ∧ made (listed.map Located.instruction) = made code := by
  obtain ⟨hcode, hchecked⟩ := emits_stmts body h
  have hclosed := (turns_stmts body hcode).returnNull.turns.closed
  refine ⟨_, decodeStream_encodeAll (hchecked.append checked_returnNull) hclosed.inside, ?_⟩
  rw [map_instruction_locate, made, List.filterMap_append]
  exact List.append_nil _

/-- The code of a body is read back, and makes what the statements make. -/
theorem exists_decodeStream_closeBody {body : List Stmt} {code : List Instruction} (h : Emits (statements body) code) :
    ∃ listed, decodeStream (encodeAll (closeBody body code)) = .ok listed ∧
      made (listed.map Located.instruction) = made code := by
  rcases closeBody_cases body code with hclose | hclose
  · obtain ⟨hcode, hchecked⟩ := emits_stmts body h
    rw [hclose]
    refine ⟨_, decodeStream_encodeAll hchecked (turns_stmts body hcode).closed.inside, ?_⟩
    rw [map_instruction_locate]
  · rw [hclose]
    exact exists_decodeStream_returnNull h

/-- A function, given what its body is compiled to. -/
theorem records_function {s : Span} {name : Option String} {params : List String} {isAsync : Bool} {body : List Stmt}
    (hbody : ∀ Γ, Tells Γ (statements body) (Stmt.allMentions Γ body) (Γ.afterAll body)) (Γ : Context) :
    Records Γ (function (.mk s name params isAsync body)) ((FunctionDecl.mk s name params isAsync body).mentions Γ).uses Γ
      (Yields [⟨Γ, .mk s name params isAsync body⟩]) := by
  rw [function, FunctionDecl.mentions]
  have hinside : Records (Γ.enter .function)
      (do params.forM (declareParameter s); let code ← statements body; return closeBody body code)
      (Stmt.allMentions ((Γ.enter .function).declareAll params) body).uses
      (((Γ.enter .function).declareAll params).afterAll body)
      (fun whole => ∃ code, whole = closeBody body code ∧
        Yields (Stmt.allMentions ((Γ.enter .function).declareAll params) body).functions code ∧ Emits (statements body) code) :=
    (Records.declareParameters rfl).before fun _ _ => (hbody _).emits.andThen fun code hcode => .pure ⟨code, rfl, hcode⟩
  have houter : (((Γ.enter .function).declareAll params).afterAll body).outer = Γ.levels :=
    Context.outer_afterAll.trans Context.outer_declareAll
  refine (hinside.inScope houter).andThen fun r ⟨⟨code, hwhole, hyields, hemits⟩, hcaptures⟩ => ?_
  refine (Records.emit _).imp fun making hmaking => ?_
  obtain ⟨listed, hlisted, hsame⟩ := exists_decodeStream_closeBody hemits
  have hexact := Site.capturesExactly ⟨Γ, .mk s name params isAsync body⟩
  have hmentions : Site.mentions ⟨Γ, .mk s name params isAsync body⟩ =
      Stmt.allMentions ((Γ.enter .function).declareAll params) body := by
    rw [Site.mentions, FunctionDecl.mentions]
  rw [hmaking, hwhole, hcaptures rfl]
  refine List.Forall₂.cons (.mk ?_ hlisted ?_) .nil
  · rw [hmentions] at hexact
    exact hexact
  · rw [hsame, hmentions]
    exact hyields

mutual

/-- The code of an expression records its mentions in their order and yields its functions. -/
theorem tells_expr (e : Expr) (Γ : Context) : (expr e).Tells Γ (e.mentions Γ) := by
  cases hf : e.fold? with
  | some k =>
    rw [expr_of_fold hf, Expr.mentions_of_fold hf]
    exact .ofConstant
  | none =>
    unfold expr
    rw [hf]
    cases e with
    | literal s v => cases hf
    | name s x =>
      rw [Expr.mentions]
      refine .ofValue ((Records.resolve Γ x).andThen fun _ _ => (Records.emit _).imp fun code hcode => ?_)
      rw [hcode]
      exact .plain rfl
    | unary s op e =>
      have hoperand := tells_expr e Γ
      rw [Expr.mentions]
      cases op with
      | not => exact .not hoperand
      | negate => exact .ofValue (hoperand.value.andThen fun _ ha => .behind rfl ha)
    | binary s op l r =>
      have hleft := tells_expr l Γ
      have hright := tells_expr r Γ
      rw [Expr.mentions]
      exact .ofValue (hleft.value.bind fun _ ha => hright.value.andThen fun _ hb => .behind rfl (ha.append hb))
    | logical s op l r =>
      have hleft := tells_expr l Γ
      have hright := tells_expr r Γ
      rw [Expr.mentions]
      exact .logical hleft hright
    | assign s target value =>
      have hvalue := tells_expr value Γ
      rw [Expr.mentions]
      cases target with
      | name s' x =>
        have hassign : Records Γ (do return (← (expr value).value) ++ (← emit s (.setName x))) (value.mentions Γ).uses Γ
            (Yields (value.mentions Γ).functions) := hvalue.value.andThen fun _ ha => .behind rfl ha
        rw [Expr.mentions]
        refine .ofValue ((Records.resolve Γ x).bind fun found _ => ?_)
        cases found with
        | none => exact hassign
        | some y =>
          dsimp only
          split
          · exact .fail_bind
          · exact hassign
      | _ => exact .ofValue .fail
    | call s callee args =>
      have hcallee := tells_expr callee Γ
      have hargs := tells_values args Γ
      rw [Expr.mentions]
      refine .ofValue ((Records.checkCount _ _ _).before fun _ _ => ?_)
      exact hcallee.value.bind fun _ ha => hargs.andThen fun _ hb => .behind rfl (ha.append hb)
    | member s e x =>
      have hobject := tells_expr e Γ
      rw [Expr.mentions]
      exact .ofValue (hobject.value.andThen fun _ ha => .behind rfl ha)
    | index s o i =>
      have hobject := tells_expr o Γ
      have hindex := tells_expr i Γ
      rw [Expr.mentions]
      exact .ofValue (hobject.value.bind fun _ ha => hindex.value.andThen fun _ hb => .behind rfl (ha.append hb))
    | array s es =>
      have hitems := tells_values es Γ
      rw [Expr.mentions]
      exact .ofValue ((Records.checkCount _ _ _).before fun _ _ => hitems.andThen fun _ ha => .behind rfl ha)
    | map s ps =>
      have hitems := tells_pairs ps Γ
      rw [Expr.mentions]
      exact .ofValue ((Records.checkCount _ _ _).before fun _ _ => hitems.andThen fun _ ha => .behind rfl ha)
    | range s a b c =>
      have hstart := tells_expr a Γ
      have hstop := tells_expr b Γ
      cases c with
      | some c =>
        have hstep := tells_expr c Γ
        rw [Expr.mentions, Mentions.append_assoc]
        refine .ofValue (hstart.value.bind fun x hx => hstop.value.bind fun y hy => hstep.value.andThen fun z hz => ?_)
        refine .behind rfl ?_
        rw [List.append_assoc]
        exact hx.append (hy.append hz)
      | none =>
        rw [Expr.mentions]
        refine .ofValue (hstart.value.bind fun x hx => hstop.value.andThen fun y hy => ?_)
        refine (Records.emit _).andThen fun one hone => .behind rfl ?_
        rw [hone]
        exact (hx.append hy).concat rfl
    | function s d =>
      have hfunction := records_ofDecl d Γ
      rw [Expr.mentions]
      exact .ofValue hfunction
    | missing s => exact .ofValue .fail
termination_by sizeOf e
decreasing_by all_goals (subst_vars; simp +arith)

/-- The code of a list of expressions tells their mentions from left to right. -/
theorem tells_values (es : List Expr) (Γ : Context) : Tells Γ (values es) (Expr.allMentions Γ es) Γ := by
  cases es with
  | nil =>
    rw [values, Expr.allMentions]
    exact .pure .nil
  | cons e es =>
    have hfirst := tells_expr e Γ
    have hrest := tells_values es Γ
    rw [values, Expr.allMentions]
    exact hfirst.value.bind fun _ ha => hrest.andThen fun _ hb => .pure (ha.append hb)
termination_by sizeOf es
decreasing_by all_goals (subst_vars; simp +arith)

/-- The code of the pairs of a map tells the mentions of keys and values from left to right. -/
theorem tells_pairs (ps : List (Expr × Expr)) (Γ : Context) : Tells Γ (pairs ps) (Expr.pairMentions Γ ps) Γ := by
  match ps with
  | [] =>
    rw [pairs, Expr.pairMentions]
    exact .pure .nil
  | (k, v) :: ps =>
    have hkey := tells_expr k Γ
    have hvalue := tells_expr v Γ
    have hrest := tells_pairs ps Γ
    rw [pairs, Expr.pairMentions, Mentions.append_assoc]
    refine hkey.value.bind fun a ha => hvalue.value.bind fun b hb => hrest.andThen fun c hc => .pure ?_
    rw [List.append_assoc]
    exact ha.append (hb.append hc)
termination_by sizeOf ps
decreasing_by all_goals (simp +arith)

/-- A function declaration records the names its body takes from outside, and yields itself as its one function. -/
theorem records_ofDecl (d : FunctionDecl) (Γ : Context) : Records Γ (function d) (d.mentions Γ).uses Γ (Yields [⟨Γ, d⟩]) := by
  cases d with
  | mk s name params isAsync body => exact records_function (tells_statements body) Γ
termination_by sizeOf d
decreasing_by all_goals (subst_vars; simp)

/-- The code of a statement records its mentions in their order and yields its functions. -/
theorem tells_statement (b : Stmt) : (statement b).Tells b := by
  cases b with
  | expression s e =>
    rw [statement]
    refine .ofCode (by simp) fun Γ => ?_
    have hvalue := tells_expr e Γ
    rw [Stmt.mentions]
    exact hvalue.value.andThen fun _ ha => .behind rfl ha
  | declaration s kind x init =>
    rw [statement]
    refine .ofCode (by simp) fun Γ => ?_
    have hconst : decide (kind = .const) = decide (some kind = some .const) := by simp
    rw [Context.after, hconst]
    cases init with
    | some e =>
      have hvalue := tells_expr e Γ
      rw [Stmt.mentions]
      exact hvalue.value.andThen fun _ ha => .declared ha
    | none =>
      rw [Stmt.mentions]
      dsimp only
      split
      · exact .fail_bind
      · refine (Records.emit _).andThen fun a ha => .declared ?_
        rw [ha]
        exact .plain rfl
  | block s body =>
    rw [statement]
    exact .block (tells_statements body)
  | branch s c t e =>
    rw [statement]
    refine .ofCode (by simp) fun Γ => ?_
    have hcondition := tells_expr c Γ
    have hthen := tells_statement t
    cases e with
    | none =>
      rw [Stmt.mentions]
      refine (hcondition.jump false).bind fun f hf => (hthen.arm Γ).andThen fun a ha => ?_
      exact (Records.place _ _).andThen fun test htest => .pure ((hf.code htest).append ha)
    | some e =>
      have helse := tells_statement e
      rw [Stmt.mentions, Mentions.append_assoc]
      refine (hcondition.jump false).bind fun f hf => (hthen.arm Γ).bind fun a ha => (helse.arm Γ).andThen fun b hb => ?_
      exact (Records.choose hf ha hb).imp fun code hcode => by rwa [List.append_assoc] at hcode
  | whileLoop s c b =>
    rw [statement]
    refine .ofCode (by simp) fun Γ => ?_
    have hcondition := tells_expr c Γ
    have hbody := tells_statement b
    obtain ⟨Γ', houter, hpass⟩ := hbody.loopBody (Γ.enter .loop)
    rw [Stmt.mentions]
    exact (hcondition.jump false).bind fun f hf => (Records.inEnvironment hpass houter).andThen fun a ha => .loop hf ha
  | forIn s key value e b =>
    rw [statement]
    refine .ofCode (by simp) fun Γ => ?_
    have hsource := tells_expr e Γ
    have hbody := tells_statement b
    obtain ⟨Γ', houter, hpass⟩ := hbody.loopBody ((Γ.enter .loop).declareAll (value :: key.toList))
    have hloop := Records.inEnvironment (.pass s hpass) (houter.trans Context.outer_declareAll)
    rw [Stmt.mentions]
    refine hsource.value.bind fun a ha => (Records.emit _).before fun i hi => hloop.andThen fun code hcode => ?_
    refine (Records.iterate hcode).andThen fun rest hrest => .pure ?_
    rw [hi]
    exact (ha.concat rfl).append hrest
  | ret s value =>
    rw [statement]
    refine .ofCode (by simp) fun Γ => ?_
    cases value with
    | some e =>
      have hvalue := tells_expr e Γ
      rw [Stmt.mentions]
      exact Records.markReturned.before fun _ _ => hvalue.value.andThen fun _ ha => .pure (ha.concat rfl)
    | none =>
      rw [Stmt.mentions]
      refine Records.markReturned.before fun _ _ => (Records.emit _).andThen fun a ha => .pure ?_
      rw [ha]
      exact .cons rfl (.plain rfl)
  | function s d =>
    rw [statement]
    refine .ofCode (by simp) fun Γ => ?_
    have hfunction := records_ofDecl d
    rw [Stmt.mentions]
    cases d with
    | mk s' name params isAsync body =>
      cases name with
      | none => exact .fail
      | some x =>
        have hdeclare : Records Γ (declare s none x) [] (Γ.declare x false) fun _ => True := .declare
        exact hdeclare.before fun _ _ => (hfunction _).andThen fun _ ha => .behind rfl ha
termination_by sizeOf b
decreasing_by all_goals (subst_vars; simp +arith)

/-- The code of a list of statements tells their mentions, each in the context its predecessors leave. -/
theorem tells_statements (bs : List Stmt) (Γ : Context) : Tells Γ (statements bs) (Stmt.allMentions Γ bs) (Γ.afterAll bs) := by
  cases bs with
  | nil =>
    rw [statements, Stmt.allMentions]
    exact .pure .nil
  | cons b bs =>
    have hfirst := tells_statement b
    have hrest := tells_statements bs (Γ.after b)
    rw [statements, Stmt.allMentions]
    exact (hfirst.code Γ).bind fun _ ha => hrest.andThen fun _ hb => .pure (ha.append hb)
termination_by sizeOf bs
decreasing_by all_goals (subst_vars; simp +arith)

end

/-- Capture lists are exact: the code of a program that compiles makes the functions of the program, one instruction for each, and so
does the code of every function for those inside of it. Each of these instructions lists the names that its function or one inside
of it uses where the innermost scope that has declared the name is outside of the function and not global, each once and in the
order of their first such use. -/
theorem Program.captures_exact {p : Program} {image : Image} (h : p.compile = .ok image) :
    ∃ listed, decodeStream image.code = .ok listed ∧
      List.Forall₂ Site.Makes (Stmt.allMentions .global p.statements).functions (made (listed.map Located.instruction)) := by
  have hheader : Records .global (header p) [] .global fun _ => True :=
    (Records.encoding _).andThen fun _ _ => (Records.encoding _).imp fun _ _ => trivial
  have hprogram : Records .global (program p) (Stmt.allMentions .global p.statements).uses _ fun whole =>
      ∃ code, whole = code ++ returnNull ∧ Yields (Stmt.allMentions .global p.statements).functions code ∧
        Emits (Compile.statements p.statements) code :=
    hheader.before fun _ _ => (tells_statements p.statements .global).emits.andThen fun code hcode => .pure ⟨code, rfl, hcode⟩
  have hglobal : Context.global.Spans [{ kind := .global }] := by
    refine ⟨rfl, fun s hs y hy => ?_⟩
    rw [List.mem_singleton.1 hs] at hy
    cases hy
  unfold Program.compile at h
  cases hcompiled : program p [{ kind := .global }] with
  | error e =>
    rw [hcompiled] at h
    cases h
  | ok r =>
    rw [hcompiled] at h
    cases h
    obtain ⟨-, -, code, hwhole, hyields, hemits⟩ := hprogram _ r.1 r.2 hglobal hcompiled
    obtain ⟨listed, hlisted, hsame⟩ := exists_decodeStream_returnNull hemits
    refine ⟨listed, ?_, ?_⟩
    · rw [hwhole]
      exact hlisted
    · rw [hsame]
      exact hyields

/-- A function in a block that assigns a variable of the block, and makes a function that reads this variable, a parameter and a
global. -/
def Program.captureSample : Program :=
  ⟨"m.vs", "m", [.declaration {} .var "g" none, .block {} [
    .declaration {} .localVar "base" none,
    .function {} (.mk {} (some "f") ["x"] false [
      .expression {} (.assign {} (.name {} "base") (.name {} "x")),
      .ret {} (some (.function {} (.mk {} none [] false [
        .ret {} (some (.array {} [.name {} "x", .name {} "base", .name {} "g", .name {} "x"]))])))])]]⟩

/-- The sample compiles, and its one function captures just the name it uses from outside. -/
theorem Program.captures_exact_captureSample :
    ∃ image listed, Program.captureSample.compile = .ok image ∧ decodeStream image.code = .ok listed ∧
      List.Forall₂ Site.Makes (Stmt.allMentions .global Program.captureSample.statements).functions
        (made (listed.map Located.instruction)) ∧
      (made (listed.map Located.instruction)).map Prototype.captures = [["base"]] := by
  obtain ⟨image, himage, hcaptures⟩ : ∃ image, Program.captureSample.compile = .ok image ∧
      (decodeStream image.code).map (fun listed => (made (listed.map Located.instruction)).map Prototype.captures) =
        .ok [["base"]] := ⟨_, rfl, by decide +kernel⟩
  obtain ⟨listed, hlisted, hmakes⟩ := Program.captures_exact himage
  rw [hlisted] at hcaptures
  exact ⟨image, listed, himage, hlisted, hmakes, Except.ok.inj hcaptures⟩

-- The inner function takes the parameter and the variable of the block, but not the global.
example : (Stmt.allMentions .global Program.captureSample.statements).functions.map (fun site =>
    site.mentions.functions.map fun inner => taken inner.depth inner.mentions.uses) = [[["x", "base", "x"]]] := by decide

end ScriptVM
