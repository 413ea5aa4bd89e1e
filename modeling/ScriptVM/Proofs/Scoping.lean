import ScriptVM.Proofs.Sight

/-!
# Scopes while compiling, and names in the code

The compiler refuses to assign a name that it resolves to a constant. What it emits for an expression or a condition declares nothing,
and where the name is resolved to a constant it does not assign it (`CalmCode`). Behind each instruction the compiler emits for a
statement, its scopes say the same of a name as the instructions do (`Declares`): the symbols of the function's own scopes are how the
name stands there. Both are put together piece by piece, as the compiler puts its code together.
-/

namespace ScriptVM

open Compile

/-! ## The shape of scopes -/

/-- Scopes without the captures and returns they record. -/
abbrev Shape := List (ScopeKind × List Symbol)

/-- What scopes declare. -/
def shape (scopes : List Scope) : Shape := scopes.map fun s => (s.kind, s.symbols)

namespace Shape

/-- How a name is declared in a scope: not at all, or whether as a constant. -/
def standing (x : String) (symbols : List Symbol) : Option Bool := (symbols.find? fun y => y.name == x).map Symbol.isConst

/-- Whether a name is resolved to a constant. -/
def isConst (x : String) : Shape → Bool
  | [] => false
  | (_, symbols) :: outer => (standing x symbols).getD (isConst x outer)

/-- How a name stands in the scopes of the innermost function that have an environment. -/
def sight (x : String) : Shape → Sight
  | [] => []
  | (.single, _) :: outer => sight x outer
  | (.function, symbols) :: _ | (.global, symbols) :: _ => [standing x symbols]
  | (.block, symbols) :: outer | (.loop, symbols) :: outer => standing x symbols :: sight x outer

/-- The scopes around the innermost function. -/
def outside : Shape → Shape
  | [] => []
  | (.function, _) :: outer | (.global, _) :: outer => outer
  | (.single, _) :: outer | (.block, _) :: outer | (.loop, _) :: outer => outside outer

/-- A scope without an environment declares nothing. -/
def Clear : Shape → Prop
  | [] | (.function, _) :: _ | (.global, _) :: _ => True
  | (.single, symbols) :: outer => symbols = [] ∧ Clear outer
  | (.block, _) :: outer | (.loop, _) :: outer => Clear outer

variable {x : String}

/-- The first declaration of a name is the one that counts. -/
theorem standing_cons (y : Symbol) (symbols : List Symbol) :
    standing x (y :: symbols) = if y.name = x then some y.isConst else standing x symbols := by
  unfold standing
  by_cases hy : y.name = x
  · simp [hy]
  · simp [hy]

/-- A name is a constant just if its nearest binding is, in the function's own scopes or else outside. -/
theorem isConst_eq {Γ : Shape} (h : Γ.Clear) : Γ.isConst x = (Γ.sight x).blocked (Γ.outside.isConst x) := by
  induction Γ with
  | nil => rfl
  | cons s outer ih =>
    obtain ⟨kind, symbols⟩ := s
    have hhere : ∀ (o : Option Bool) (τ : Sight) (b : Bool), Sight.blocked (o :: τ) b = o.getD (τ.blocked b) := by
      intro o τ b
      cases o <;> rfl
    cases kind with
    | single =>
      obtain ⟨rfl, hclear⟩ := h
      exact ih hclear
    | function => exact (hhere _ [] _).symm
    | global => exact (hhere _ [] _).symm
    | block => rw [isConst, ih h, sight, hhere, outside]
    | loop => rw [isConst, ih h, sight, hhere, outside]

end Shape

/-- A name that is nowhere declared is not resolved to a constant. -/
theorem isConst_of_resolve_eq_none {x : String} {scopes : List Scope} (h : Scope.resolve x scopes = none) :
    (shape scopes).isConst x = false := by
  induction scopes with
  | nil => rfl
  | cons s outer ih =>
    unfold Scope.resolve Scope.lookup? at h
    change (Shape.standing x s.symbols).getD _ = _
    cases hfind : s.symbols.find? (fun z => z.name == x) with
    | some z =>
      rw [hfind] at h
      cases h
    | none =>
      rw [hfind] at h
      rw [Shape.standing, hfind]
      exact ih (Option.map_eq_none_iff.1 h)

/-- Resolving a name leaves the shape, and finds the symbol that decides whether it is a constant. -/
theorem shape_of_resolve {x : String} {scopes scopes' : List Scope} {y : Symbol} (h : Scope.resolve x scopes = some (y, scopes')) :
    shape scopes' = shape scopes ∧ (shape scopes).isConst x = y.isConst := by
  induction scopes generalizing y scopes' with
  | nil => cases h
  | cons s outer ih =>
    unfold Scope.resolve Scope.lookup? at h
    have hstanding : Shape.standing x s.symbols = (s.symbols.find? fun z => z.name == x).map Symbol.isConst := rfl
    cases hfind : s.symbols.find? (fun z => z.name == x) with
    | some z =>
      rw [hfind] at h hstanding
      cases h
      refine ⟨rfl, ?_⟩
      change (Shape.standing x s.symbols).getD _ = _
      rw [hstanding]
      rfl
    | none =>
      rw [hfind] at h hstanding
      obtain ⟨⟨z, outer'⟩, hrest, heq⟩ := Option.map_eq_some_iff.1 h
      obtain ⟨hshape, hconst⟩ := ih hrest
      cases heq
      constructor
      · change _ :: shape outer' = _ :: shape outer
        rw [hshape]
        split
        · unfold Scope.capture
          split <;> rfl
        · rfl
      · change (Shape.standing x s.symbols).getD _ = _
        rw [hstanding, ← hconst]
        rfl

/-- Marking a return leaves what the scopes declare. -/
theorem shape_of_markReturned {scopes scopes' : List Scope} (h : Scope.markReturned scopes = some scopes') :
    shape scopes' = shape scopes := by
  induction scopes generalizing scopes' with
  | nil => cases h
  | cons s outer ih =>
    unfold Scope.markReturned at h
    split at h
    · cases h
      rfl
    · obtain ⟨outer', hrest, rfl⟩ := Option.map_eq_some_iff.1 h
      change _ :: shape outer' = _ :: shape outer
      rw [ih hrest]

/-! ## Compilations that declare nothing -/

/-- In scopes of this shape, a compilation that succeeds leaves the shape as it is, and answers as described. -/
def Steers {α : Type} (Γ : Shape) (c : CompileM α) (post : α → Prop) : Prop :=
  ∀ s a s', shape s = Γ → c s = .ok (a, s') → shape s' = Γ ∧ post a

namespace Steers

variable {α β : Type} {Γ : Shape} {post : α → Prop} {post' : β → Prop}

theorem pure {a : α} (h : post a) : Steers Γ (Pure.pure a) post := by
  intro s b s' hs hr
  cases hr
  exact ⟨hs, h⟩

/-- Two compilations in sequence declare nothing when neither does. -/
theorem bind {c : CompileM α} {f : α → CompileM β} (hc : Steers Γ c post) (hf : ∀ a, post a → Steers Γ (f a) post') :
    Steers Γ (c >>= f) post' := by
  intro s b s'' hs hr
  obtain ⟨a, s', hfirst, hrest⟩ := Compile.bind_eq_ok hr
  obtain ⟨hs', ha⟩ := hc s a s' hs hfirst
  exact hf a ha s' b s'' hs' hrest

/-- A weaker description of the answer is true as well. -/
theorem imp {c : CompileM α} {weaker : α → Prop} (hc : Steers Γ c post) (h : ∀ a, post a → weaker a) : Steers Γ c weaker := by
  intro s a s' hs hr
  obtain ⟨hs', ha⟩ := hc s a s' hs hr
  exact ⟨hs', h a ha⟩

theorem fail (span : Span) (cause : CompileCause) : Steers Γ (Compile.fail span cause : CompileM α) post := by
  intro s a s' _ hr
  cases hr

theorem encoding (span : Span) (e : Except EmitError α) : Steers Γ (Compile.encoding span e) fun a => e = .ok a := by
  cases e with
  | ok a => exact pure rfl
  | error e => exact fail span _

theorem emit (span : Span) (i : Instruction) : Steers Γ (Compile.emit span i) fun code => code = [i] :=
  (encoding span _).bind fun _ _ => pure rfl

theorem jumpBy (span : Span) (kind : JumpKind) (distance : Int) :
    Steers Γ (Compile.jumpBy span kind distance) fun code => ∃ d : Int32, d.toInt = distance ∧ code = [.jump kind d] :=
  (encoding span _).bind fun d hd => pure ⟨d, jumpDistance_eq_ok hd, rfl⟩

theorem checkCount (span : Span) (what : String) (count limit : Nat) :
    Steers Γ (Compile.checkCount span what count limit) fun _ => True := by
  unfold Compile.checkCount
  split
  · exact fail span _
  · exact pure trivial

/-- Resolving a name declares nothing, and finds a constant just where the scopes have one. -/
theorem resolve (x : String) : Steers Γ (Compile.resolve x) fun y => Γ.isConst x = y.any Symbol.isConst := by
  intro s y s' hs hr
  rw [← hs]
  rcases Compile.resolve_eq_ok hr with ⟨hnone, rfl, rfl⟩ | ⟨z, hfound, rfl⟩
  · exact ⟨rfl, isConst_of_resolve_eq_none hnone⟩
  · exact shape_of_resolve hfound

theorem markReturned (span : Span) : Steers Γ (Compile.markReturned span) fun _ => True := by
  intro s u s' hs hr
  exact ⟨(shape_of_markReturned (Compile.markReturned_eq_ok hr)).trans hs, trivial⟩

/-- What is known of everything that a compilation emits is known of its answer. -/
theorem emits {c : CompileM α} {more : α → Prop} (hc : Steers Γ c post) (h : ∀ a, Emits c a → more a) :
    Steers Γ c fun a => post a ∧ more a := by
  intro s a s' hs hr
  obtain ⟨hs', ha⟩ := hc s a s' hs hr
  exact ⟨hs', ha, h a ⟨s, s', hr⟩⟩

end Steers

/-- An instruction of an expression, where a name is resolved to a constant or not: it binds nothing, and assigns no constant. -/
def Instruction.Calm (x : String) (known : List Stmt → Prop) (blocked : Bool) : Instruction → Prop
  | .storeName _ | .enterScope | .exitScope => False
  | .setName n => n = x → blocked = false
  | .makeFunction p => Careful x known p.params p.body ∧ (blocked = true → ¬Assigns x p.params p.body)
  | _ => True

/-- Code of calm instructions. -/
def CalmCode (x : String) (known : List Stmt → Prop) (blocked : Bool) (code : List Instruction) : Prop :=
  ∀ i ∈ code, i.Calm x known blocked

/-- A fragment of calm instructions. -/
def CalmFragment (x : String) (known : List Stmt → Prop) (blocked : Bool) (f : Fragment) : Prop :=
  ∀ i, .done i ∈ f → i.Calm x known blocked

section

variable {x : String} {known : List Stmt → Prop} {blocked : Bool} {a b code : List Instruction} {f g : Fragment} {i : Instruction}

theorem CalmCode.nil : CalmCode x known blocked [] := by simp [CalmCode]

/-- Calm code in sequence is calm. -/
theorem CalmCode.append (ha : CalmCode x known blocked a) (hb : CalmCode x known blocked b) : CalmCode x known blocked (a ++ b) := by
  intro i hi
  rcases List.mem_append.1 hi with hi | hi
  · exact ha i hi
  · exact hb i hi

/-- A calm instruction is calm code. -/
theorem CalmCode.singleton (hi : i.Calm x known blocked) : CalmCode x known blocked [i] := by
  intro j hj
  rw [List.mem_singleton.1 hj]
  exact hi

/-- Calm fragments in sequence are calm. -/
theorem CalmFragment.append (hf : CalmFragment x known blocked f) (hg : CalmFragment x known blocked g) :
    CalmFragment x known blocked (f ++ g) := by
  intro i hi
  rcases List.mem_append.1 hi with hi | hi
  · exact hf i hi
  · exact hg i hi

theorem CalmFragment.pending (kind : JumpKind) : CalmFragment x known blocked [.pending kind] := by
  intro i hi
  simp at hi

/-- The fragment of calm code is calm. -/
theorem CalmCode.fragment (h : CalmCode x known blocked code) : CalmFragment x known blocked (Fragment.ofCode code) := by
  intro i hi
  obtain ⟨j, hj, heq⟩ := List.mem_map.1 hi
  cases heq
  exact h i hj

/-- Resolving a fragment adds jumps only. -/
theorem CalmFragment.resolve (hf : CalmFragment x known blocked f) {beyond : Nat} (h : f.resolve beyond = .ok code) :
    CalmCode x known blocked code := by
  induction f generalizing code with
  | nil =>
    cases h
    exact .nil
  | cons item f ih =>
    have hrest : CalmFragment x known blocked f := fun i hi => hf i (List.mem_cons_of_mem _ hi)
    cases item with
    | done j =>
      obtain ⟨rest, hr, hlast⟩ := ScriptVM.bind_eq_ok.1 h
      cases hlast
      exact (CalmCode.singleton (hf j List.mem_cons_self)).append (ih hrest hr)
    | pending kind =>
      obtain ⟨d, _, hmore⟩ := ScriptVM.bind_eq_ok.1 h
      obtain ⟨rest, hr, hlast⟩ := ScriptVM.bind_eq_ok.1 hmore
      cases hlast
      have hjump : CalmCode x known blocked [.jump kind d] := .singleton trivial
      exact hjump.append (ih hrest hr)

/-- Emitting a calm instruction declares nothing, and emits calm code. -/
theorem Steers.emitCalm {Γ : Shape} (span : Span) (hi : i.Calm x known blocked) :
    Steers Γ (Compile.emit span i) (CalmCode x known blocked) := by
  refine (Steers.emit span i).imp fun code hcode => ?_
  rw [hcode]
  exact .singleton hi

/-- An instruction behind the code of its operands. -/
theorem Steers.behind {Γ : Shape} (span : Span) (hcode : CalmCode x known blocked code) (hi : i.Calm x known blocked) :
    Steers Γ (do return code ++ (← Compile.emit span i)) (CalmCode x known blocked) :=
  (Steers.emitCalm span hi).bind fun _ hlast => .pure (hcode.append hlast)

/-- Both ways to compile an expression declare nothing, and emit calm code. -/
structure Compile.Lowered.Calm (x : String) (known : List Stmt → Prop) (Γ : Shape) (l : Lowered) : Prop where
  value : Steers Γ l.value (CalmCode x known (Γ.isConst x))
  jump : ∀ sense, Steers Γ (l.jump sense) (CalmFragment x known (Γ.isConst x))

namespace Compile.Lowered.Calm

variable {Γ : Shape} {l r : Lowered} {value : CompileM (List Instruction)}

/-- An expression lowered from its value is calm when its value is. -/
theorem ofValue (h : Steers Γ value (CalmCode x known (Γ.isConst x))) : (Lowered.ofValue value).Calm x known Γ :=
  ⟨h, fun _ => h.bind fun _ hcode => .pure (hcode.fragment.append (.pending _))⟩

theorem ofConstant (span : Span) (c : Constant) : (Lowered.ofConstant span c).Calm x known Γ := by
  refine ⟨.emitCalm span trivial, fun sense => .pure ?_⟩
  split
  · exact .pending _
  · intro i hi
    simp at hi

/-- A negation is calm when its operand is. -/
theorem not (span : Span) (h : l.Calm x known Γ) : (Lowered.not span l).Calm x known Γ :=
  ⟨h.value.bind fun _ hcode => .behind span hcode trivial, fun sense => h.jump (!sense)⟩

/-- The jumps of a condition are calm when both sides are. -/
theorem logicalJump (span : Span) (op : LogicalOp) (hl : l.Calm x known Γ) (hr : r.Calm x known Γ) (sense : Bool) :
    Steers Γ (Lowered.logicalJump span op l r sense) (CalmFragment x known (Γ.isConst x)) := by
  unfold Lowered.logicalJump
  split
  · exact (hl.jump sense).bind fun _ hfirst => (hr.jump sense).bind fun _ hsecond => .pure (hfirst.append hsecond)
  · refine (hl.jump (!sense)).bind fun skip hskip => (hr.jump sense).bind fun second hsecond => ?_
    refine (Steers.encoding span _).bind fun code hcode => .pure ?_
    exact (hskip.resolve hcode).fragment.append hsecond

/-- A condition is calm when both sides are. -/
theorem logical (span : Span) (op : LogicalOp) (hl : l.Calm x known Γ) (hr : r.Calm x known Γ) :
    (Lowered.logical span op l r).Calm x known Γ := by
  refine ⟨?_, logicalJump span op hl hr⟩
  refine (logicalJump span op hl hr false).bind fun falsy hfalsy => ?_
  have hskip : ∀ distance, Steers Γ (jumpBy span .forward distance) (CalmCode x known (Γ.isConst x)) := fun distance =>
    (Steers.encoding span _).bind fun d _ => .pure (.singleton trivial)
  refine (hskip _).bind fun jump hjump => (Steers.encoding span _).bind fun test htest => .pure ?_
  have htrue : CalmCode x known (Γ.isConst x) [.load (.bool true)] := .singleton trivial
  exact ((hfalsy.resolve htest).append (htrue.append hjump)).append (.singleton trivial)

end Compile.Lowered.Calm

end

/-! ## Compilations that declare names -/

/-- The innermost scope, which has an environment, declares one more name. -/
def Shape.Adds (y : Symbol) (Γ Γ' : Shape) : Prop :=
  ∃ kind symbols outer, Γ = (kind, symbols) :: outer ∧ Γ' = (kind, y :: symbols) :: outer ∧ kind ≠ .single ∧
    standing y.name symbols = none

namespace Shape.Adds

variable {y : Symbol} {Γ Γ' : Shape}

/-- A declaration shows in how the name stands innermost, where it was not bound before, and nowhere else. -/
theorem sight_eq (h : Γ.Adds y Γ') (x : String) : ∃ here τ, Γ.sight x = here :: τ ∧
    Γ'.sight x = (if y.name = x then some y.isConst else here) :: τ ∧ (y.name = x → here = none) := by
  obtain ⟨kind, symbols, outer, rfl, rfl, hkind, hnew⟩ := h
  have hsight : ∃ τ, ∀ symbols, sight x ((kind, symbols) :: outer) = standing x symbols :: τ := by
    cases kind with
    | single => exact absurd rfl hkind
    | function => exact ⟨[], fun _ => rfl⟩
    | global => exact ⟨[], fun _ => rfl⟩
    | block => exact ⟨_, fun _ => rfl⟩
    | loop => exact ⟨_, fun _ => rfl⟩
  obtain ⟨τ, hsight⟩ := hsight
  refine ⟨standing x symbols, τ, hsight symbols, ?_, ?_⟩
  · rw [hsight, standing_cons]
  · rintro rfl
    exact hnew

/-- What a name is resolved to changes with its own declarations only. -/
theorem isConst_eq {x : String} (h : Γ.Adds y Γ') (hname : y.name ≠ x) : Γ'.isConst x = Γ.isConst x := by
  obtain ⟨kind, symbols, outer, rfl, rfl, -, -⟩ := h
  rw [isConst, isConst, standing_cons, if_neg hname]

end Shape.Adds

/-- Scopes in which code can be emitted: those without an environment declare nothing, and some scope has an environment. -/
structure Shape.Open (x : String) (Γ : Shape) : Prop where
  clear : Γ.Clear
  inside : Γ.sight x ≠ []

/-- From scopes of one shape to scopes of another, code follows a name: only the innermost scope may declare more, and the name stands
in the code as the scopes say. -/
structure Declares (x : String) (known : List Stmt → Prop) (Γ Γ' : Shape) (kinds : List Bool) (code : List Instruction) : Prop where
  scopes : ∃ kind symbols symbols' outer, Γ = (kind, symbols) :: outer ∧ Γ' = (kind, symbols') :: outer ∧
    (kind = .single → symbols' = symbols)
  count : storeCount code = kinds.length
  functions : ∀ p, .makeFunction p ∈ code → Careful x known p.params p.body
  tracks : ∀ more, Tracks x (Γ.outside.isConst x) [] (kinds ++ more) (Γ.sight x) code (Γ'.sight x)

section

variable {x : String} {known : List Stmt → Prop} {Γ Γ' Γ'' : Shape} {kinds ks : List Bool} {a b code test body : List Instruction}

/-- The innermost scope of open scopes can take a declaration, unless it has no environment. -/
theorem Shape.Open.scopes (h : Γ.Open x) : ∃ kind symbols symbols' outer, Γ = (kind, symbols) :: outer ∧
    Γ = (kind, symbols') :: outer ∧ (kind = .single → symbols' = symbols) := by
  cases Γ with
  | nil => exact absurd rfl h.inside
  | cons s outer => exact ⟨s.1, s.2, s.2, outer, rfl, rfl, fun _ => rfl⟩

/-- Open scopes stay open inside a block or a loop. -/
theorem Shape.Open.entered {kind : ScopeKind} (hkind : kind = .block ∨ kind = .loop) (h : Γ.Open x) :
    Shape.Open x ((kind, []) :: Γ) := by
  rcases hkind with rfl | rfl
  · exact ⟨h.clear, by simp [sight]⟩
  · exact ⟨h.clear, by simp [sight]⟩

/-- Calm code leaves scopes and bindings as they are. -/
theorem CalmCode.still {blocked : Bool} (h : CalmCode x known blocked code) : Still code := by
  intro i hi
  have hcalm := h i hi
  cases i <;> first | rfl | exact hcalm.elim

/-- The functions that calm code makes are careful. -/
theorem CalmCode.functions {blocked : Bool} (h : CalmCode x known blocked code) (p : Prototype) (hp : .makeFunction p ∈ code) :
    Careful x known p.params p.body := (h _ hp).1

/-- The code of an expression leaves the name as it stands. Its jumps may skip code that does so too. -/
theorem CalmCode.tracks (skipped beyond : List Instruction) (hΓ : Γ.Open x) (h : CalmCode x known (Γ.isConst x) code)
    (hclosed : Closed (codeSize skipped) code) (hskipped : sight x skipped kinds (Γ.sight x) = Γ.sight x) :
    Tracks x (Γ.outside.isConst x) (skipped ++ beyond) kinds (Γ.sight x) code (Γ.sight x) := by
  refine .still h.still (fun i hi => ?_) hclosed hskipped
  have hcalm := h i hi
  rw [Shape.isConst_eq hΓ.clear] at hcalm
  cases i with
  | storeName n => exact hcalm.elim
  | exitScope => exact hcalm.elim
  | setName n => exact hcalm
  | makeFunction p => exact fun hblocked _ => hcalm.2 hblocked
  | _ => trivial

namespace Declares

/-- Declarations leave the scopes outside of the function. -/
theorem outside_eq (h : Declares x known Γ Γ' kinds code) : Γ'.outside = Γ.outside := by
  obtain ⟨kind, symbols, symbols', outer, rfl, rfl, -⟩ := h.scopes
  cases kind <;> rfl

theorem opened (h : Declares x known Γ Γ' kinds code) (hΓ : Γ.Open x) : Γ'.Open x := by
  obtain ⟨kind, symbols, symbols', outer, rfl, rfl, hsingle⟩ := h.scopes
  obtain ⟨hclear, hinside⟩ := hΓ
  cases kind with
  | single =>
    rw [hsingle rfl]
    exact ⟨hclear, hinside⟩
  | function => exact ⟨trivial, by simp [Shape.sight]⟩
  | global => exact ⟨trivial, by simp [Shape.sight]⟩
  | block => exact ⟨hclear, by simp [Shape.sight]⟩
  | loop => exact ⟨hclear, by simp [Shape.sight]⟩

/-- Code in sequence follows a name from scope to scope. -/
theorem append (ha : Declares x known Γ Γ' kinds a) (hb : Declares x known Γ' Γ'' ks b) :
    Declares x known Γ Γ'' (kinds ++ ks) (a ++ b) := by
  constructor
  case scopes =>
    obtain ⟨kind, symbols, symbols', outer, rfl, rfl, hsingle⟩ := ha.scopes
    obtain ⟨kind', symbols₁, symbols₂, outer', heq, rfl, hsingle'⟩ := hb.scopes
    cases heq
    exact ⟨kind, symbols, symbols₂, outer, rfl, rfl, fun hk => (hsingle' hk).trans (hsingle hk)⟩
  case count => rw [storeCount_append, ha.count, hb.count, List.length_append]
  case functions =>
    intro p hp
    rcases List.mem_append.1 hp with hp | hp
    · exact ha.functions p hp
    · exact hb.functions p hp
  case tracks =>
    intro more
    have hfirst := ha.tracks (ks ++ more)
    have hsecond := hb.tracks more
    rw [ha.outside_eq] at hsecond
    rw [← List.append_assoc] at hfirst
    refine hfirst.seq ?_
    rw [ha.count, List.append_assoc, List.drop_left]
    exact hsecond

/-- The code of an expression. -/
theorem expression (hΓ : Γ.Open x) (h : CalmCode x known (Γ.isConst x) code) (hclosed : Closed 0 code) :
    Declares x known Γ Γ [] code := by
  refine ⟨hΓ.scopes, h.still.storeCount_eq, h.functions, fun more => ?_⟩
  exact h.tracks [] [] hΓ hclosed rfl

/-- Code under a condition. -/
theorem guarded (hΓ : Γ.Open x) (htest : CalmCode x known (Γ.isConst x) test) (hclosed : Closed (codeSize a) test)
    (ha : Declares x known Γ Γ kinds a) : Declares x known Γ Γ kinds (test ++ a) := by
  refine ⟨hΓ.scopes, ?_, ?_, fun more => ?_⟩
  · rw [storeCount_append, htest.still.storeCount_eq, ha.count, Nat.zero_add]
  · intro p hp
    rcases List.mem_append.1 hp with hp | hp
    · exact htest.functions p hp
    · exact ha.functions p hp
  · refine (htest.tracks a [] hΓ hclosed (ha.tracks more).sight_eq).append ?_
    rw [htest.still.storeCount_eq]
    exact ha.tracks more

/-- A loop: its head decides whether to go on, and its body ends with a jump back. -/
theorem cycle {d : Int32} (hΓ : Γ.Open x) (htest : CalmCode x known (Γ.isConst x) test)
    (hclosed : Closed (codeSize body + Fragment.jumpWidth) test) (hbody : Declares x known Γ Γ kinds body)
    (hd : d.toInt = -((codeSize test + codeSize body + Fragment.jumpWidth : Nat) : Int)) :
    Declares x known Γ Γ kinds (test ++ body ++ [.jump .loop d]) := by
  refine ⟨hΓ.scopes, ?_, ?_, fun more => ?_⟩
  · rw [storeCount_append, storeCount_append, htest.still.storeCount_eq, hbody.count, Nat.zero_add]
    rfl
  · intro p hp
    simp only [List.mem_append, List.mem_singleton, reduceCtorEq, or_false] at hp
    rcases hp with hp | hp
    · exact htest.functions p hp
    · exact hbody.functions p hp
  · have hskipped : sight x (body ++ [.jump .loop d]) (kinds ++ more) (Γ.sight x) = Γ.sight x := by
      rw [sight_append, (hbody.tracks more).sight_eq]
      rfl
    have hsize : codeSize (body ++ [.jump .loop d]) = codeSize body + Fragment.jumpWidth := by
      rw [codeSize_concat, width_jump]
    have hhead := htest.tracks _ [] hΓ (by rw [hsize]; exact hclosed) hskipped
    rw [List.append_nil] at hhead
    have hrest := (hbody.tracks more).followed [.jump .loop d]
    refine Tracks.loop (hhead.append ?_) (by rw [hd, codeSize_append])
    rw [htest.still.storeCount_eq]
    exact hrest

/-- A choice between two codes. -/
theorem either {d : Int32} (hΓ : Γ.Open x) (htest : CalmCode x known (Γ.isConst x) test)
    (hclosed : Closed (codeSize a + Fragment.jumpWidth) test) (ha : Declares x known Γ Γ kinds a) (hb : Declares x known Γ Γ ks b)
    (hd : d.toInt = codeSize b) : Declares x known Γ Γ (kinds ++ ks) (test ++ a ++ [.jump .forward d] ++ b) := by
  have hjump : CalmCode x known (Γ.isConst x) [.jump .forward d] := .singleton trivial
  have hskip : Closed (codeSize b) [.jump .forward d] := .forward rfl (by simp [Instruction.Directed, hd]) hd
  have hrest : Declares x known Γ Γ (kinds ++ ks) (a ++ ([.jump .forward d] ++ b)) := ha.append (guarded hΓ hjump hskip hb)
  rw [List.append_assoc, List.append_assoc]
  refine ⟨hΓ.scopes, ?_, ?_, fun more => ?_⟩
  · rw [storeCount_append, htest.still.storeCount_eq, hrest.count, Nat.zero_add]
  · intro p hp
    rcases List.mem_append.1 hp with hp | hp
    · exact htest.functions p hp
    · exact hrest.functions p hp
  · have hskipped : sight x (a ++ [.jump .forward d]) (kinds ++ ks ++ more) (Γ.sight x) = Γ.sight x := by
      rw [sight_append, List.append_assoc, (ha.tracks (ks ++ more)).sight_eq]
      rfl
    have hsize : codeSize (a ++ [.jump .forward d]) = codeSize a + Fragment.jumpWidth := by
      rw [codeSize_concat, width_jump]
    have hhead := htest.tracks _ b hΓ (by rw [hsize]; exact hclosed) hskipped
    rw [List.append_assoc] at hhead
    refine Tracks.append (by rw [List.append_nil]; exact hhead) ?_
    rw [htest.still.storeCount_eq]
    exact hrest.tracks more

/-- Code in a scope of its own. -/
theorem enclosed {kind : ScopeKind} (hkind : kind = .block ∨ kind = .loop) (hΓ : Γ.Open x)
    (h : Declares x known ((kind, []) :: Γ) Γ' kinds code) : Γ'.tail = Γ ∧ Declares x known Γ Γ kinds (enclosed code) := by
  obtain ⟨kind', symbols, symbols', outer, heq, rfl, -⟩ := h.scopes
  cases heq
  have hsight : ∀ symbols, Shape.sight x ((kind, symbols) :: Γ) = Shape.standing x symbols :: Γ.sight x := by
    intro symbols
    rcases hkind with rfl | rfl <;> rfl
  have houtside : Shape.outside ((kind, []) :: Γ) = Γ.outside := by
    rcases hkind with rfl | rfl <;> rfl
  refine ⟨rfl, hΓ.scopes, ?_, ?_, fun more => ?_⟩
  · have hcount := h.count
    change storeCount ([.enterScope] ++ code ++ [.exitScope]) = _
    rw [storeCount_append, storeCount_append, hcount]
    exact Nat.zero_add _
  · intro p hp
    simp only [ScriptVM.enclosed, List.cons_append, List.mem_cons, List.mem_append, reduceCtorEq, List.not_mem_nil, false_or,
      or_false] at hp
    exact h.functions p hp
  · have hinner := h.tracks more
    rw [hsight, hsight, houtside] at hinner
    exact .enclosed hΓ.inside hinner

/-- A statement alone declares nothing. -/
theorem alone (hΓ : Γ.Open x) (h : Declares x known ((.single, []) :: Γ) Γ' kinds code) :
    Γ'.tail = Γ ∧ Declares x known Γ Γ kinds code := by
  obtain ⟨kind', symbols, symbols', outer, heq, rfl, hsingle⟩ := h.scopes
  cases heq
  exact ⟨rfl, hΓ.scopes, h.count, h.functions, h.tracks⟩

/-- The store of a name that the innermost scope does not have yet. -/
theorem store {y : Symbol} (h : Γ.Adds y Γ') : Declares x known Γ Γ' [y.isConst] [.storeName y.name] := by
  obtain ⟨here, τ, hbefore, hafter, hfresh⟩ := h.sight_eq x
  obtain ⟨kind, symbols, outer, rfl, rfl, hkind, hnew⟩ := h
  refine ⟨⟨kind, symbols, y :: symbols, outer, rfl, rfl, fun hk => absurd hk hkind⟩, rfl, by simp, fun more => ?_⟩
  have hlook : (Instruction.storeName y.name).look x y.isConst (here :: τ) = (if y.name = x then some y.isConst else here) :: τ := by
    rw [Instruction.look]
    split <;> rfl
  rw [hbefore, hafter, ← hlook]
  refine Tracks.instruction (fun hname => ?_) rfl
  rw [hfresh hname]
  rfl

/-- A function that is bound to a name of its own: it is compiled where the name is declared, and made before the name is bound. -/
theorem define {y : Symbol} {p : Prototype} (hΓ : Γ.Open x) (h : Γ.Adds y Γ')
    (hp : CalmCode x known (Γ'.isConst x) [.makeFunction p]) :
    Declares x known Γ Γ' [y.isConst] ([.makeFunction p] ++ [.storeName y.name]) := by
  have hstore : Declares x known Γ Γ' [y.isConst] [.storeName y.name] := store h
  have hcalm := hp _ (List.mem_singleton_self _)
  refine ⟨hstore.scopes, rfl, ?_, fun more => ?_⟩
  · intro q hq
    simp only [List.singleton_append, List.mem_cons, Instruction.makeFunction.injEq, reduceCtorEq, List.not_mem_nil, or_false] at hq
    rw [hq]
    exact hcalm.1
  · -- The function is compiled where the name it is bound to is declared already, and made where it is not bound yet. This makes a
    -- difference for this name only, which `Fair` leaves out.
    refine Tracks.cons (fun hblocked hfree => hcalm.2 ?_) rfl (hstore.tracks more)
    have hname : y.name ≠ x := by
      rintro rfl
      exact hfree rfl
    rw [h.isConst_eq hname, Shape.isConst_eq hΓ.clear, hblocked]

end Declares

end

end ScriptVM
