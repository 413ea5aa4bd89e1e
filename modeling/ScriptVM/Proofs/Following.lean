import ScriptVM.Proofs.Scoping

/-!
# Compilations that follow a name

Every compilation of a tree emits code in which a name stands as the scopes of the compiler say (`Follows`), and so the code of every
program that compiles is careful with every name (`Program.compile_careful`). The induction is along the tree: an expression declares
nothing, a statement may declare a name in the innermost scope, and the body of a function is followed from its parameters on.
-/

namespace ScriptVM

open Compile

section

variable {x : String} {known : List Stmt → Prop} {Γ Γ' Γ'' : Shape} {kinds ks : List Bool} {a b code test body : List Instruction}

/-! ## Compilations that follow a name -/

/-- In scopes of this shape, a compilation emits code that follows the name from them to the scopes it leaves. -/
def Follows (x : String) (known : List Stmt → Prop) (Γ : Shape) (kinds : List Bool) (c : CompileM (List Instruction)) : Prop :=
  ∀ s code s', shape s = Γ → c s = .ok (code, s') → Declares x known Γ (shape s') kinds code

namespace Follows

variable {α : Type} {c d : CompileM (List Instruction)}

/-- What steers through the scopes and declares nothing but what the code says follows the name. -/
theorem of_steers (h : Steers Γ c (Declares x known Γ Γ kinds)) : Follows x known Γ kinds c := by
  intro s code s' hs hr
  obtain ⟨hs', hcode⟩ := h s code s' hs hr
  rw [hs']
  exact hcode

/-- Code behind a compilation that declares nothing. -/
theorem after {b : CompileM α} {f : α → CompileM (List Instruction)} {post : α → Prop} (hb : Steers Γ b post)
    (hf : ∀ a, post a → Follows x known Γ kinds (f a)) : Follows x known Γ kinds (b >>= f) := by
  intro s code s'' hs hr
  obtain ⟨a, s', hfirst, hrest⟩ := Compile.bind_eq_ok hr
  obtain ⟨hs', ha⟩ := hb s a s' hs hfirst
  exact hf a ha s' code s'' hs' hrest

/-- Code one behind the other. -/
theorem seq (hΓ : Γ.Open x) (hc : Follows x known Γ kinds c) (hd : ∀ Γ', Γ'.Open x → Follows x known Γ' ks d) :
    Follows x known Γ (kinds ++ ks) (do return (← c) ++ (← d)) := by
  intro s code s₃ hs hr
  obtain ⟨first, s₁, hfirst, hrest⟩ := Compile.bind_eq_ok hr
  obtain ⟨second, s₂, hsecond, hlast⟩ := Compile.bind_eq_ok hrest
  cases hlast
  have hdeclares := hc s first s₁ hs hfirst
  exact hdeclares.append (hd _ (hdeclares.opened hΓ) s₁ second _ rfl hsecond)

/-- Answering code that declares nothing follows the name. -/
theorem pure (h : Declares x known Γ Γ kinds code) : Follows x known Γ kinds (Pure.pure code) := of_steers (.pure h)

end Follows

/-- Statements in an environment of their own declare nothing outside. -/
theorem Steers.inEnvironment {kind : ScopeKind} {c : CompileM (List Instruction)} (hkind : kind = .block ∨ kind = .loop)
    (hΓ : Γ.Open x) (hc : Follows x known ((kind, []) :: Γ) kinds c) :
    Steers Γ (inEnvironment kind c) (Declares x known Γ Γ kinds) := by
  intro s code s'' hs hr
  obtain ⟨⟨inner, scope⟩, s₁, hscope, hlast⟩ := Compile.bind_eq_ok hr
  cases hlast
  obtain ⟨s', hinner, rfl, -⟩ := inScope_eq_ok hscope
  have hentered : shape ({ kind } :: s) = (kind, []) :: Γ := by
    rw [← hs]
    rfl
  obtain ⟨htail, hdeclares⟩ := (hc _ inner s' hentered hinner).enclosed hkind hΓ
  exact ⟨by rw [← htail, shape, shape, List.map_tail], hdeclares⟩

/-- A statement alone declares nothing. -/
theorem Steers.single {c : CompileM (List Instruction)} (hΓ : Γ.Open x) (hc : Follows x known ((.single, []) :: Γ) kinds c) :
    Steers Γ (single c) (Declares x known Γ Γ kinds) := by
  intro s code s'' hs hr
  have hscoped : (inScope .single c >>= fun r => Pure.pure r.1) s = .ok (code, s'') := hr
  obtain ⟨⟨inner, scope⟩, s₁, hscope, hlast⟩ := Compile.bind_eq_ok hscoped
  cases hlast
  obtain ⟨s', hinner, rfl, -⟩ := inScope_eq_ok hscope
  have hentered : shape ({ kind := .single } :: s) = (.single, []) :: Γ := by
    rw [← hs]
    rfl
  obtain ⟨htail, hdeclares⟩ := (hc _ inner s' hentered hinner).alone hΓ
  exact ⟨by rw [← htail, shape, shape, List.map_tail], hdeclares⟩

/-- All ways to compile a statement follow the name; as a branch it declares nothing outside. -/
structure Compile.LoweredStmt.Follows (x : String) (known : List Stmt → Prop) (Γ : Shape) (kinds : List Bool) (l : LoweredStmt) :
    Prop where
  code : ScriptVM.Follows x known Γ kinds l.code
  arm : Steers Γ l.arm (Declares x known Γ Γ kinds)
  loopBody : ScriptVM.Follows x known Γ kinds l.loopBody

namespace Compile.LoweredStmt.Follows

variable {c : CompileM (List Instruction)}

/-- A statement that is code follows the name in each of its places when the code does. -/
theorem ofCode (hΓ : Γ.Open x) (h : ∀ Γ', Γ'.Open x → ScriptVM.Follows x known Γ' kinds c) :
    (LoweredStmt.ofCode c).Follows x known Γ kinds := by
  have halone : Steers Γ (single c) (Declares x known Γ Γ kinds) := .single hΓ (h _ ⟨⟨rfl, hΓ.clear⟩, hΓ.inside⟩)
  exact ⟨h Γ hΓ, halone, .of_steers halone⟩

/-- A block follows the name in each of its places when its code does. -/
theorem block (hΓ : Γ.Open x) (h : ∀ Γ', Γ'.Open x → ScriptVM.Follows x known Γ' kinds c) :
    (LoweredStmt.block c).Follows x known Γ kinds := by
  have hinside : Steers Γ (inEnvironment .block c) (Declares x known Γ Γ kinds) :=
    .inEnvironment (.inl rfl) hΓ (h _ ⟨hΓ.clear, by simp [Shape.sight]⟩)
  exact ⟨.of_steers hinside, hinside, h Γ hΓ⟩

end Compile.LoweredStmt.Follows

/-- A declaration that is accepted adds the symbol to the scope. -/
theorem Scope.declare?_eq_some {s s' : Scope} {y : Symbol} (h : s.declare? y = some s') :
    s' = { s with symbols := y :: s.symbols } ∧ Shape.standing y.name s.symbols = none := by
  unfold Scope.declare? at h
  split at h
  · cases h
  · rename_i hfree
    cases h
    refine ⟨rfl, ?_⟩
    rw [Shape.standing, Option.map_eq_none_iff]
    simpa [Scope.lookup?] using hfree

/-- A declaration that succeeds adds a symbol. -/
theorem Shape.adds_of_declare {span : Span} {kind : Option DeclKind} {name : String} {s s' : List Scope}
    (h : declare span kind name s = .ok ((), s')) :
    ∃ y : Symbol, y.name = name ∧ y.isConst = decide (kind = some .const) ∧ (shape s).Adds y (shape s') := by
  obtain ⟨sc, outer, sc', rfl, rfl, hkind, hdeclared⟩ := Compile.declare_eq_ok h
  obtain ⟨rfl, hfree⟩ := Scope.declare?_eq_some hdeclared
  exact ⟨_, rfl, rfl, sc.kind, sc.symbols, shape outer, rfl, rfl, hkind, hfree⟩

/-- A declared name that is stored behind the code of its value. -/
theorem Follows.declared {span : Span} {kind : Option DeclKind} {name : String} {value : List Instruction}
    (hΓ : Γ.Open x) (hvalue : CalmCode x known (Γ.isConst x) value) (hclosed : Closed 0 value) :
    Follows x known Γ [decide (kind = some .const)]
      (do declare span kind name; return value ++ (← emit span (.storeName name))) := by
  intro s code s₂ hs hr
  obtain ⟨_, s₁, hdeclare, hrest⟩ := Compile.bind_eq_ok hr
  obtain ⟨y, rfl, hy, hadds⟩ := Shape.adds_of_declare hdeclare
  obtain ⟨last, s₂', hemit, hlast⟩ := Compile.bind_eq_ok hrest
  obtain ⟨hs₂, rfl⟩ := Steers.emit span _ s₁ last s₂' rfl hemit
  cases hlast
  rw [hs] at hadds
  rw [hs₂, ← hy]
  exact (Declares.expression hΓ hvalue hclosed).append (.store hadds)

/-- A declared function that is stored under its name. -/
theorem Follows.defined {span : Span} {name : String} {make : CompileM (List Instruction)} (hΓ : Γ.Open x)
    (hmake : ∀ Γ', Steers Γ' make fun code => ∃ p, code = [.makeFunction p] ∧ CalmCode x known (Γ'.isConst x) code) :
    Follows x known Γ [false] (do declare span none name; return (← make) ++ (← emit span (.storeName name))) := by
  intro s code s₃ hs hr
  obtain ⟨_, s₁, hdeclare, hrest⟩ := Compile.bind_eq_ok hr
  obtain ⟨y, rfl, hy, hadds⟩ := Shape.adds_of_declare hdeclare
  obtain ⟨front, s₂, hfront, hstoring⟩ := Compile.bind_eq_ok hrest
  obtain ⟨hs₂, p, rfl, hcalm⟩ := hmake _ s₁ front s₂ rfl hfront
  obtain ⟨last, s₃', hemit, hlast⟩ := Compile.bind_eq_ok hstoring
  obtain ⟨hs₃, rfl⟩ := Steers.emit span _ s₂ last s₃' rfl hemit
  cases hlast
  rw [hs] at hadds
  rw [hs₃, hs₂]
  have hdefine := Declares.define hΓ hadds hcalm
  rw [hy] at hdefine
  exact hdefine

/-- The variable of a loop. -/
theorem Follows.bind {span : Span} {name : String} : Follows x known Γ [false] (Compile.bind span name) := by
  intro s code s' hs hr
  obtain ⟨_, s₁, hdeclare, hemit⟩ := Compile.bind_eq_ok hr
  obtain ⟨y, rfl, hy, hadds⟩ := Shape.adds_of_declare hdeclare
  obtain ⟨hs', rfl⟩ := Steers.emit span _ s₁ code s' rfl hemit
  rw [hs] at hadds
  rw [hs']
  have hstore : Declares x known Γ (shape s₁) [y.isConst] [.storeName y.name] := .store hadds
  rw [hy] at hstore
  exact hstore

/-- One pass of a loop binds the value and the key, and runs the body. -/
theorem Follows.pass {span : Span} {key : Option String} {value : String} {c : CompileM (List Instruction)} (hΓ : Γ.Open x)
    (hc : ∀ Γ', Γ'.Open x → Follows x known Γ' ks c) :
    Follows x known Γ (false :: ((key.map fun _ => false).toList ++ ks)) (do
      let valueCode ← Compile.bind span value
      let keyCode ←
        match key with
        | some key => Compile.bind span key
        | none => Pure.pure []
      return valueCode ++ keyCode ++ (← c)) := by
  intro s code s₄ hs hr
  obtain ⟨valueCode, s₁, hvalue, hrest⟩ := Compile.bind_eq_ok hr
  have hfirst : Declares x known Γ (shape s₁) [false] valueCode := Follows.bind s valueCode s₁ hs hvalue
  cases key with
  | none =>
    obtain ⟨keyCode, s₂, hkey, hlast⟩ := Compile.bind_eq_ok hrest
    obtain ⟨rfl, rfl⟩ := Compile.pure_eq_ok hkey
    obtain ⟨body, s₃, hbody, hpure⟩ := Compile.bind_eq_ok hlast
    cases hpure
    rw [List.append_nil]
    exact hfirst.append (hc _ (hfirst.opened hΓ) _ body _ rfl hbody)
  | some key =>
    obtain ⟨keyCode, s₂, hkey, hlast⟩ := Compile.bind_eq_ok hrest
    obtain ⟨body, s₃, hbody, hpure⟩ := Compile.bind_eq_ok hlast
    cases hpure
    have hboth := hfirst.append (Follows.bind s₁ keyCode s₂ rfl hkey)
    exact hboth.append (hc _ (hboth.opened hΓ) s₂ body _ rfl hbody)

/-- A loop over an iterator. -/
theorem Steers.iterate {span : Span} {arity : UInt8} (hΓ : Γ.Open x) (hbody : Declares x known Γ Γ kinds body) :
    Steers Γ (Compile.iterate span arity body) (Declares x known Γ Γ kinds) := by
  refine (Steers.jumpBy span .loop _).bind fun back ⟨d, hd, hback⟩ => ?_
  refine (Steers.encoding span _).bind fun exit hexit => .pure ?_
  rw [hback]
  have hleave := jumpDistance_eq_ok hexit
  have hhead : Closed (codeSize body + Fragment.jumpWidth) [.iterNext arity exit] :=
    .forward rfl (by simp only [Instruction.Directed, hleave]; omega) hleave
  have hcalm : CalmCode x known (Γ.isConst x) [.iterNext arity exit] := .singleton trivial
  refine Declares.cycle hΓ hcalm hhead hbody ?_
  rw [hd, codeSize_singleton, width_iterNext]

/-- A parameter that is accepted is added to the function's scope. -/
theorem shape_of_declareParameter {span : Span} {name : String} {s s' : List Scope} {symbols : List Symbol}
    (hs : shape s = (.function, symbols) :: Γ) (h : declareParameter span name s = .ok ((), s')) :
    shape s' = (.function, ⟨name, false, false, span⟩ :: symbols) :: Γ := by
  obtain ⟨sc, outer, sc', rfl, rfl, hdeclared⟩ := Compile.declareParameter_eq_ok h
  obtain ⟨rfl, -⟩ := Scope.declare?_eq_some hdeclared
  simp only [shape, List.map_cons, List.cons.injEq, Prod.mk.injEq] at hs
  obtain ⟨⟨hkind, rfl⟩, rfl⟩ := hs
  rw [← hkind]
  rfl

/-- At the start of a function, its parameters are declared and nothing else. -/
theorem shape_of_declareParameters (x : String) {span : Span} {params : List String} {s s' : List Scope} {symbols : List Symbol}
    (hs : shape s = (.function, symbols) :: Γ) (h : params.forM (declareParameter span) s = .ok ((), s')) :
    ∃ symbols', shape s' = (.function, symbols') :: Γ ∧
      Shape.standing x symbols' = if x ∈ params then some false else Shape.standing x symbols := by
  induction params generalizing s symbols with
  | nil =>
    cases h
    exact ⟨symbols, hs, rfl⟩
  | cons name params ih =>
    obtain ⟨_, s₁, hfirst, hrest⟩ := Compile.bind_eq_ok h
    obtain ⟨symbols', hs', hstanding⟩ := ih (shape_of_declareParameter hs hfirst) hrest
    refine ⟨symbols', hs', ?_⟩
    rw [hstanding, Shape.standing_cons]
    by_cases hx : x = name
    · simp [hx]
    · simp [hx, Ne.symm hx]

/-- Code that ends with the result null. -/
theorem Declares.thenNull (h : Declares x known Γ Γ' kinds code) (hΓ : Γ.Open x) :
    Declares x known Γ Γ' kinds (code ++ returnNull) := by
  have hnull : CalmCode x known (Γ'.isConst x) returnNull := by
    intro i hi
    simp only [returnNull, List.mem_cons, List.not_mem_nil, or_false] at hi
    rcases hi with rfl | rfl <;> trivial
  have hload : Closed 0 [.load .null] := .singleton rfl
  have hwhole := h.append (.expression (h.opened hΓ) hnull (hload.followed (.singleton rfl)))
  rw [List.append_nil] at hwhole
  exact hwhole

/-- The code of a function's body, which ends with a return of its own or with one of null. -/
theorem Declares.closeBody (body : List Stmt) (hΓ : Γ.Open x) (h : Declares x known Γ Γ' kinds code) :
    Declares x known Γ Γ' kinds (closeBody body code) := by
  unfold ScriptVM.closeBody
  split
  · exact h
  · exact h.thenNull hΓ

/-- Code that follows a name from the start of a function is the code of a careful function. -/
theorem Declares.careful {params : List String} {body : List Stmt} {front whole : List Instruction}
    (h : Declares x known Γ Γ' (Stmt.allKinds body) whole) (hentry : Γ.sight x = .entry x params) (hbody : known body)
    (hfront : StmtsCode body front) (hwhole : whole = front ∨ whole = front ++ returnNull) (hchecked : Checked whole) :
    Careful x known params (encodeAll whole) ∧ (Γ.outside.isConst x = true → ¬Assigns x params (encodeAll whole)) := by
  have htracks := h.tracks []
  rw [List.append_nil, hentry] at htracks
  refine ⟨.mk ⟨hchecked, ⟨body, front, hbody, hfront, rfl, hwhole⟩, _, htracks.anywhere⟩ h.functions, fun houtside => ?_⟩
  rw [houtside] at htracks
  exact htracks.not_assigns hchecked

/-- Closing the code of a body leaves it checked. -/
theorem checked_closeBody {body : List Stmt} (h : Checked code) : Checked (closeBody body code) := by
  unfold closeBody
  split
  · exact h
  · exact h.append checked_returnNull

/-- Closing the code of a body adds a return of null, if anything. -/
theorem closeBody_cases (body : List Stmt) (code : List Instruction) :
    closeBody body code = code ∨ closeBody body code = code ++ returnNull := by
  unfold closeBody
  split
  · exact .inl rfl
  · exact .inr rfl

/-- A function, given what its body is compiled to. -/
theorem calm_function {span : Span} {name : Option String} {params : List String} {isAsync : Bool} {body : List Stmt}
    (hknown : known body) (hbody : ∀ Γ', Γ'.Open x → Follows x known Γ' (Stmt.allKinds body) (statements body)) :
    Steers Γ (function (.mk span name params isAsync body)) fun code => ∃ p, code = [.makeFunction p] ∧
      CalmCode x known (Γ.isConst x) code := by
  rw [function]
  intro s code s₃ hs hr
  obtain ⟨⟨whole, scope⟩, s₂, hscope, hemit⟩ := Compile.bind_eq_ok hr
  obtain ⟨s₁, hinside, rfl, -⟩ := inScope_eq_ok hscope
  obtain ⟨_, t, hparams, hrest⟩ := Compile.bind_eq_ok hinside
  obtain ⟨front, t', hstatements, hlast⟩ := Compile.bind_eq_ok hrest
  have hentered : shape ({ kind := .function } :: s) = (.function, []) :: Γ := by
    rw [← hs]
    rfl
  obtain ⟨symbols, ht, hstanding⟩ := shape_of_declareParameters x hentered hparams
  have hopen : Shape.Open x ((.function, symbols) :: Γ) := ⟨trivial, by simp [Shape.sight]⟩
  have hfollowed := hbody _ hopen t front t' ht hstatements
  obtain ⟨hfront, hchecked⟩ := emits_stmts body ⟨t, t', hstatements⟩
  obtain ⟨hwhole, rfl⟩ := Compile.pure_eq_ok hlast
  have hclose : whole = closeBody body front := hwhole
  have hentry : Shape.sight x ((.function, symbols) :: Γ) = .entry x params := by
    rw [Shape.sight, hstanding]
    rfl
  have hcareful := (Declares.closeBody body hopen hfollowed).careful hentry hknown hfront (closeBody_cases body front)
    (checked_closeBody hchecked)
  obtain ⟨hs', rfl⟩ := Steers.emit span _ s₁.tail code s₃ rfl hemit
  refine ⟨?_, _, rfl, .singleton ?_⟩
  · obtain ⟨kind, symbols₀, symbols', outer, heq, hshape, -⟩ := hfollowed.scopes
    cases heq
    rw [hs', shape, List.map_tail]
    exact congrArg List.tail hshape
  · rw [hclose]
    exact hcareful

/-! ## Along the tree -/

/-- The code of a calm expression is calm, and closed. -/
theorem Compile.Lowered.Calm.closed {e : Expr} (h : (expr e).Calm x known Γ) :
    Steers Γ (expr e).value fun code => CalmCode x known (Γ.isConst x) code ∧ Closed 0 code :=
  h.value.emits fun _ hcode => (turns_value e (emits_value e hcode).1).closed

/-- The jumps of a calm condition are calm, and stay in reach. -/
theorem Compile.Lowered.Calm.condition {e : Expr} (h : (expr e).Calm x known Γ) (sense : Bool) :
    Steers Γ ((expr e).jump sense) fun f => CalmFragment x known (Γ.isConst x) f ∧ Branches f :=
  (h.jump sense).emits fun _ hf => branches_jump e (emits_jump e hf).1

mutual

/-- The code of an expression binds nothing, and assigns the name only where it resolves to no constant. -/
theorem calm_expr (e : Expr) (he : ∀ body ∈ e.bodies, known body) (Γ : Shape) : (expr e).Calm x known Γ := by
  cases hf : e.fold? with
  | some c =>
    rw [expr_of_fold hf]
    exact .ofConstant e.span c
  | none =>
    unfold expr
    rw [hf]
    cases e with
    | literal s v => exact .ofConstant s _
    | name s n => exact .ofValue ((Steers.resolve n).bind fun _ _ => .emitCalm s trivial)
    | unary s op e =>
      have hoperand := calm_expr e he Γ
      cases op with
      | not => exact .not s hoperand
      | negate => exact .ofValue (hoperand.value.bind fun _ hcode => .behind s hcode trivial)
    | binary s op l r =>
      have hleft := calm_expr l (fun b hb => he b (by simp [Expr.bodies, hb])) Γ
      have hright := calm_expr r (fun b hb => he b (by simp [Expr.bodies, hb])) Γ
      exact .ofValue (hleft.value.bind fun _ hl => hright.value.bind fun _ hr => .behind s (hl.append hr) trivial)
    | logical s op l r =>
      have hleft := calm_expr l (fun b hb => he b (by simp [Expr.bodies, hb])) Γ
      have hright := calm_expr r (fun b hb => he b (by simp [Expr.bodies, hb])) Γ
      exact .logical s op hleft hright
    | assign s target value =>
      have hvalue := calm_expr value (fun b hb => he b (by simp [Expr.bodies, hb])) Γ
      cases target with
      | name s' n =>
        refine .ofValue ((Steers.resolve n).bind fun found hfound => ?_)
        -- The name is not resolved to a constant, or the assignment is refused.
        have hassign (hfree : Γ.isConst n = false) :
            Steers Γ (do return (← (expr value).value) ++ (← emit s (.setName n))) (CalmCode x known (Γ.isConst x)) :=
          hvalue.value.bind fun _ hcode => .behind s hcode (by rintro rfl; exact hfree)
        cases found with
        | none => exact hassign hfound
        | some y =>
          dsimp only
          split
          · exact (Steers.fail s _).bind fun _ (hnone : False) => hnone.elim
          · rename_i hy
            exact hassign (hfound.trans (by simpa using hy))
      | _ => exact .ofValue (.fail _ _)
    | call s callee args =>
      have hcallee := calm_expr callee (fun b hb => he b (by simp [Expr.bodies, hb])) Γ
      have hargs := calm_values args (fun b hb => he b (by simp [Expr.bodies, hb])) Γ
      refine .ofValue ((Steers.checkCount s _ _ _).bind fun _ _ => ?_)
      exact hcallee.value.bind fun _ hc => hargs.bind fun _ ha => .behind s (hc.append ha) trivial
    | member s e n => exact .ofValue ((calm_expr e he Γ).value.bind fun _ hcode => .behind s hcode trivial)
    | index s o i =>
      have hobject := calm_expr o (fun b hb => he b (by simp [Expr.bodies, hb])) Γ
      have hindex := calm_expr i (fun b hb => he b (by simp [Expr.bodies, hb])) Γ
      exact .ofValue (hobject.value.bind fun _ ho => hindex.value.bind fun _ hi => .behind s (ho.append hi) trivial)
    | array s es =>
      have hitems := calm_values es he Γ
      exact .ofValue ((Steers.checkCount s _ _ _).bind fun _ _ => hitems.bind fun _ hcode => .behind s hcode trivial)
    | map s ps =>
      have hitems := calm_pairs ps he Γ
      exact .ofValue ((Steers.checkCount s _ _ _).bind fun _ _ => hitems.bind fun _ hcode => .behind s hcode trivial)
    | range s a b c =>
      cases c with
      | some c =>
        have hstart := calm_expr a (fun body hb => he body (by simp [Expr.bodies, hb])) Γ
        have hstop := calm_expr b (fun body hb => he body (by simp [Expr.bodies, hb])) Γ
        have hstep := calm_expr c (fun body hb => he body (by simp [Expr.bodies, hb])) Γ
        exact .ofValue (hstart.value.bind fun _ ha => hstop.value.bind fun _ hb => hstep.value.bind fun _ hc =>
          .behind s ((ha.append hb).append hc) trivial)
      | none =>
        have hstart := calm_expr a (fun body hb => he body (by simp [Expr.bodies, hb])) Γ
        have hstop := calm_expr b (fun body hb => he body (by simp [Expr.bodies, hb])) Γ
        have hone : Steers Γ (emit s (.load (.num (.int 1)))) (CalmCode x known (Γ.isConst x)) := .emitCalm s trivial
        exact .ofValue (hstart.value.bind fun _ ha => hstop.value.bind fun _ hb => hone.bind fun _ hc =>
          .behind s ((ha.append hb).append hc) trivial)
    | function s d => exact .ofValue ((calm_declaration d he Γ).imp fun _ ⟨_, _, hcalm⟩ => hcalm)
    | missing s => exact .ofValue (.fail s _)
termination_by sizeOf e
decreasing_by all_goals (subst_vars; simp <;> omega)

/-- The codes of a list of expressions are calm. -/
theorem calm_values (es : List Expr) (hes : ∀ body ∈ Expr.allBodies es, known body) (Γ : Shape) :
    Steers Γ (values es) (CalmCode x known (Γ.isConst x)) := by
  cases es with
  | nil =>
    rw [values]
    exact .pure .nil
  | cons e es =>
    rw [values]
    have hfirst := calm_expr e (fun b hb => hes b (by simp [Expr.allBodies, hb])) Γ
    have hrest := calm_values es (fun b hb => hes b (by simp [Expr.allBodies, hb])) Γ
    exact hfirst.value.bind fun _ ha => hrest.bind fun _ hb => .pure (ha.append hb)
termination_by sizeOf es
decreasing_by all_goals (subst_vars; simp <;> omega)

/-- The codes of the pairs of a map are calm. -/
theorem calm_pairs (ps : List (Expr × Expr)) (hps : ∀ body ∈ Expr.pairBodies ps, known body) (Γ : Shape) :
    Steers Γ (pairs ps) (CalmCode x known (Γ.isConst x)) := by
  match ps with
  | [] =>
    rw [pairs]
    exact .pure .nil
  | (k, v) :: ps =>
    rw [pairs]
    have hkey := calm_expr k (fun b hb => hps b (by simp [Expr.pairBodies, hb])) Γ
    have hvalue := calm_expr v (fun b hb => hps b (by simp [Expr.pairBodies, hb])) Γ
    have hrest := calm_pairs ps (fun b hb => hps b (by simp [Expr.pairBodies, hb])) Γ
    exact hkey.value.bind fun _ hk => hvalue.value.bind fun _ hv => hrest.bind fun _ hr => .pure ((hk.append hv).append hr)
termination_by sizeOf ps
decreasing_by all_goals (simp <;> omega)

/-- A function declaration makes a function whose code is calm. -/
theorem calm_declaration (d : FunctionDecl) (hd : ∀ body ∈ d.bodies, known body) (Γ : Shape) :
    Steers Γ (function d) fun code => ∃ p, code = [.makeFunction p] ∧ CalmCode x known (Γ.isConst x) code := by
  cases d with
  | mk s n params isAsync body =>
    have hinside := follows_statements body fun b hb => hd b (by simp [FunctionDecl.bodies, hb])
    exact calm_function (hd body (by simp [FunctionDecl.bodies])) hinside
termination_by sizeOf d
decreasing_by all_goals (subst_vars; simp)

/-- The code of a statement follows the name through the scopes that the statement opens and leaves. -/
theorem follows_statement (b : Stmt) (hb : ∀ body ∈ b.bodies, known body) {Γ : Shape} (hΓ : Γ.Open x) :
    (statement b).Follows x known Γ b.kinds := by
  cases b with
  | expression s e =>
    rw [statement]
    refine .ofCode hΓ fun Γ' hΓ' => .after (calm_expr e hb Γ').closed fun code ⟨hcalm, hclosed⟩ => ?_
    refine .after (Steers.emit s .pop) fun last hlast => .pure ?_
    rw [hlast]
    exact .expression hΓ' (hcalm.append (.singleton trivial)) (hclosed.followed (.singleton rfl))
  | declaration s kind n init =>
    rw [statement]
    have hkinds : (Stmt.declaration s kind n init).kinds = [decide (some kind = some DeclKind.const)] := by simp [Stmt.kinds]
    rw [hkinds]
    refine .ofCode hΓ fun Γ' hΓ' => ?_
    cases init with
    | some e => exact .after (calm_expr e hb Γ').closed fun code ⟨hcalm, hclosed⟩ => .declared hΓ' hcalm hclosed
    | none =>
      dsimp only
      split
      · exact .after (Steers.fail s _) fun _ (hnone : False) => hnone.elim
      · refine .after (Steers.emit s (.load .null)) fun code hcode => ?_
        rw [hcode]
        exact .declared hΓ' (.singleton trivial) (.singleton rfl)
  | block s body =>
    rw [statement]
    exact .block hΓ fun Γ' hΓ' => follows_statements body hb Γ' hΓ'
  | branch s c t e =>
    rw [statement]
    refine .ofCode hΓ fun Γ' hΓ' => .of_steers ?_
    cases e with
    | none =>
      have hcondition := calm_expr c (fun body h => hb body (by simp [Stmt.bodies, h])) Γ'
      have hthen := follows_statement t (fun body h => hb body (by simp [Stmt.bodies, h])) hΓ'
      refine (hcondition.condition false).bind fun f ⟨hcalm, hbranches⟩ => hthen.arm.bind fun whenTrue ht => ?_
      refine (Steers.encoding s _).bind fun test htest => .pure ?_
      exact .guarded hΓ' (hcalm.resolve htest) (hbranches.closed htest) ht
    | some e =>
      have hcondition := calm_expr c (fun body h => hb body (by simp [Stmt.bodies, h])) Γ'
      have hthen := follows_statement t (fun body h => hb body (by simp [Stmt.bodies, h])) hΓ'
      have helse := follows_statement e (fun body h => hb body (by simp [Stmt.bodies, h])) hΓ'
      refine (hcondition.condition false).bind fun f ⟨hcalm, hbranches⟩ => hthen.arm.bind fun whenTrue ht => ?_
      refine helse.arm.bind fun whenFalse hf => ?_
      refine (Steers.jumpBy s .forward _).bind fun skip ⟨d, hd, hskip⟩ => ?_
      refine (Steers.encoding s _).bind fun test htest => .pure ?_
      rw [hskip]
      exact .either hΓ' (hcalm.resolve htest) (hbranches.closed htest) ht hf hd
  | whileLoop s c b =>
    rw [statement]
    refine .ofCode hΓ fun Γ' hΓ' => .of_steers ?_
    have hcondition := calm_expr c (fun body h => hb body (by simp [Stmt.bodies, h])) Γ'
    have hbody := follows_statement b (fun body h => hb body (by simp [Stmt.bodies, h])) (hΓ'.entered (.inr rfl))
    refine (hcondition.condition false).bind fun f ⟨hcalm, hbranches⟩ => ?_
    refine (Steers.inEnvironment (.inr rfl) hΓ' hbody.loopBody).bind fun body hpass => ?_
    refine (Steers.jumpBy s .loop _).bind fun back ⟨d, hd, hback⟩ => ?_
    refine (Steers.encoding s _).bind fun test htest => .pure ?_
    rw [hback]
    refine .cycle hΓ' (hcalm.resolve htest) (hbranches.closed htest) hpass ?_
    rw [hd, Fragment.codeSize_of_resolve htest]
  | forIn s key value e b =>
    rw [statement]
    refine .ofCode hΓ fun Γ' hΓ' => .of_steers ?_
    have hsource := calm_expr e (fun body h => hb body (by simp [Stmt.bodies, h])) Γ'
    have hbody (Γ₁ : Shape) (hΓ₁ : Γ₁.Open x) :=
      (follows_statement b (fun body h => hb body (by simp [Stmt.bodies, h])) hΓ₁).loopBody
    have hiter : CalmCode x known (Γ'.isConst x) [.getIter] := .singleton trivial
    refine hsource.closed.bind fun source ⟨hcalm, hclosed⟩ => (Steers.emit s .getIter).bind fun last hlast => ?_
    refine (Steers.inEnvironment (.inr rfl) hΓ' (Follows.pass (hΓ'.entered (.inr rfl)) hbody)).bind fun body hpass => ?_
    refine (Steers.iterate hΓ' hpass).bind fun rest hrest => .pure ?_
    rw [hlast]
    exact (Declares.expression hΓ' (hcalm.append hiter) (hclosed.followed (.singleton rfl))).append hrest
  | ret s value =>
    rw [statement]
    refine .ofCode hΓ fun Γ' hΓ' => .of_steers ((Steers.markReturned s).bind fun _ _ => ?_)
    have hreturn {code : List Instruction} (hcalm : CalmCode x known (Γ'.isConst x) code) (hclosed : Closed 0 code) :
        Declares x known Γ' Γ' [] (code ++ [.ret]) :=
      .expression hΓ' (hcalm.append (.singleton trivial)) (hclosed.followed (.singleton rfl))
    cases value with
    | some e => exact (calm_expr e hb Γ').closed.bind fun code ⟨hcalm, hclosed⟩ => .pure (hreturn hcalm hclosed)
    | none =>
      refine (Steers.emit s (.load .null)).bind fun code hcode => .pure ?_
      rw [hcode]
      exact hreturn (.singleton trivial) (.singleton rfl)
  | function s d =>
    rw [statement]
    refine .ofCode hΓ fun Γ' hΓ' => ?_
    cases hn : d.name? with
    | none => exact .of_steers (.fail s _)
    | some n => exact .defined hΓ' (calm_declaration d hb)
termination_by sizeOf b
decreasing_by all_goals (subst_vars; simp <;> omega)

/-- The codes of a list of statements follow the name, each from where its predecessors leave it. -/
theorem follows_statements (bs : List Stmt) (hbs : ∀ body ∈ Stmt.allBodies bs, known body) (Γ : Shape) (hΓ : Γ.Open x) :
    Follows x known Γ (Stmt.allKinds bs) (statements bs) := by
  cases bs with
  | nil =>
    rw [statements]
    exact .pure (.expression hΓ .nil .nil)
  | cons b bs =>
    rw [statements]
    have hfirst := follows_statement b (fun body hb => hbs body (by simp [Stmt.allBodies, hb])) hΓ
    exact .seq hΓ hfirst.code fun Γ' hΓ' => follows_statements bs (fun body hb => hbs body (by simp [Stmt.allBodies, hb])) Γ' hΓ'
termination_by sizeOf bs
decreasing_by all_goals (subst_vars; simp <;> omega)

end

end

/-- The code of a program that compiles follows every name, as do the functions inside it. -/
theorem Program.compile_careful {p : Program} {image : Image} (h : p.compile = .ok image) (x : String) :
    Careful x (· ∈ p.bodies) [] image.code := by
  unfold Program.compile at h
  split at h
  · rename_i code s' hprogram
    cases h
    obtain ⟨_, s₁, hheader, hrest⟩ := Compile.bind_eq_ok hprogram
    have hsteers : Steers [(.global, [])] (header p) fun _ => True :=
      (Steers.encoding {} _).bind fun _ _ => (Steers.encoding {} _).imp fun _ _ => trivial
    obtain ⟨hs₁, -⟩ := hsteers _ _ s₁ rfl hheader
    obtain ⟨front, s₂, hstatements, hlast⟩ := Compile.bind_eq_ok hrest
    cases hlast
    have hopen : Shape.Open x [(.global, [])] := ⟨trivial, by simp [Shape.sight]⟩
    have hknown : ∀ body ∈ Stmt.allBodies p.statements, body ∈ p.bodies := fun body hb => List.mem_cons_of_mem _ hb
    have hfollowed := follows_statements p.statements hknown _ hopen s₁ front _ hs₁ hstatements
    obtain ⟨hfront, hchecked⟩ := emits_stmts p.statements ⟨s₁, _, hstatements⟩
    exact ((hfollowed.thenNull hopen).careful rfl List.mem_cons_self hfront (.inr rfl) (hchecked.append checked_returnNull)).1
  · cases h

end ScriptVM
