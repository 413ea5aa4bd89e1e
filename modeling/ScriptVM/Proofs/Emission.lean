import ScriptVM.Compile
import ScriptVM.Proofs.Codec

/-!
# The code of a tree

`ValueCode`, `JumpCode` and `StmtCode` say which code stands for an expression, a condition and a statement. They follow the
tree and leave out what the compiler does besides: the scopes, the captures and the checks of declarations. That the compiler
emits such code (`Program.compile_code`) is proved once; what is then said of the code of a tree holds of everything that
compiles.

All instructions of emitted code pass `Instruction.check`, so that the machine reads them back.
-/

namespace ScriptVM

/-- Code whose instructions can all be written as bytes. -/
def Checked (code : List Instruction) : Prop := ∀ i ∈ code, i.check = .ok ()

/-- Two pieces of checked code make checked code. -/
theorem Checked.append {a b : List Instruction} (ha : Checked a) (hb : Checked b) : Checked (a ++ b) := by
  intro i hi
  rcases List.mem_append.1 hi with hi | hi
  · exact ha i hi
  · exact hb i hi

/-- The front part of checked code is checked. -/
theorem Checked.left {a b : List Instruction} (h : Checked (a ++ b)) : Checked a :=
  fun i hi => h i (List.mem_append_left b hi)

/-- The back part of checked code is checked. -/
theorem Checked.right {a b : List Instruction} (h : Checked (a ++ b)) : Checked b :=
  fun i hi => h i (List.mem_append_right a hi)

theorem checked_nil : Checked [] := by
  intro i hi
  nomatch hi

/-- One instruction is checked code just if it passes the check. -/
theorem checked_singleton {i : Instruction} : Checked [i] ↔ i.check = .ok () := by
  simp [Checked]

/-- Whether the compiler turns an expression into jumps where it stands as a condition. -/
def Expr.isLogic : Expr → Bool
  | .logical .. | .unary _ .not _ => true
  | _ => false

/-- Whether a statement has braces. -/
def Stmt.isBlock : Stmt → Bool
  | .block .. => true
  | _ => false

/-- Code in an environment of its own. -/
def enclosed (code : List Instruction) : List Instruction := .enterScope :: code ++ [.exitScope]

/-- The code of a body, which ends with a return of its own or with one of null. -/
def closeBody (body : List Stmt) (code : List Instruction) : List Instruction :=
  if body.getLast?.any Stmt.isReturn then code else code ++ Compile.returnNull

/-- The code that binds the variables of a loop to what an iterator yields, the value before its key. -/
def bindCode (key : Option String) (value : String) : List Instruction :=
  .storeName value :: (key.map Instruction.storeName).toList

/-- How many values a loop takes from its iterator. -/
def yieldArity (key : Option String) : UInt8 := if key.isSome then 2 else 1

mutual

/-- The code that leaves the value of an expression on the stack. -/
inductive ValueCode : Expr → List Instruction → Prop where
  | constant {e : Expr} {c : Constant} : e.fold? = some c → ValueCode e [.load c]
  | name {s : Span} {n : String} : ValueCode (.name s n) [.loadName n]
  | unary {s : Span} {op : UnaryOp} {e : Expr} {code : List Instruction} :
      (Expr.unary s op e).fold? = none → ValueCode e code → ValueCode (.unary s op e) (code ++ [.unary op])
  | binary {s : Span} {op : BinaryOp} {l r : Expr} {left right : List Instruction} :
      (Expr.binary s op l r).fold? = none → ValueCode l left → ValueCode r right →
      ValueCode (.binary s op l r) (left ++ right ++ [.binary op])
  | logical {s : Span} {op : LogicalOp} {l r : Expr} {f : Fragment} {test : List Instruction} {d : Int32} :
      (Expr.logical s op l r).fold? = none → JumpCode (.logical s op l r) false f →
      jumpDistance (codeSize [.load (.bool false)]) = .ok d →
      f.resolve (codeSize [.load (.bool true), .jump .forward d]) = .ok test →
      ValueCode (.logical s op l r) (test ++ [.load (.bool true), .jump .forward d] ++ [.load (.bool false)])
  | assign {s s' : Span} {n : String} {e : Expr} {code : List Instruction} :
      ValueCode e code → ValueCode (.assign s (.name s' n) e) (code ++ [.setName n])
  | call {s : Span} {callee : Expr} {args : List Expr} {code argCode : List Instruction} :
      args.length < UInt8.size → ValueCode callee code → ValuesCode args argCode →
      ValueCode (.call s callee args) (code ++ argCode ++ [.call (.ofNat args.length)])
  | member {s : Span} {e : Expr} {n : String} {code : List Instruction} :
      ValueCode e code → ValueCode (.member s e n) (code ++ [.getMember n])
  | index {s : Span} {o i : Expr} {object index : List Instruction} :
      ValueCode o object → ValueCode i index → ValueCode (.index s o i) (object ++ index ++ [.index])
  | array {s : Span} {es : List Expr} {code : List Instruction} :
      es.length < UInt32.size → ValuesCode es code → ValueCode (.array s es) (code ++ [.buildArray (.ofNat es.length)])
  | map {s : Span} {ps : List (Expr × Expr)} {code : List Instruction} :
      ps.length < UInt32.size → PairsCode ps code → ValueCode (.map s ps) (code ++ [.buildMap (.ofNat ps.length)])
  | range {s : Span} {a b c : Expr} {start stop step : List Instruction} :
      ValueCode a start → ValueCode b stop → ValueCode c step →
      ValueCode (.range s a b (some c)) (start ++ stop ++ step ++ [.buildRange])
  | rangeByOne {s : Span} {a b : Expr} {start stop : List Instruction} :
      ValueCode a start → ValueCode b stop →
      ValueCode (.range s a b none) (start ++ stop ++ [.load (.num (.int 1))] ++ [.buildRange])
  | function {s : Span} {d : FunctionDecl} {p : Prototype} :
      PrototypeOf d p → ValueCode (.function s d) [.makeFunction p]

/-- The codes of expressions, one behind the other. -/
inductive ValuesCode : List Expr → List Instruction → Prop where
  | nil : ValuesCode [] []
  | cons {e : Expr} {es : List Expr} {code rest : List Instruction} :
      ValueCode e code → ValuesCode es rest → ValuesCode (e :: es) (code ++ rest)

/-- The codes of pairs of expressions, one behind the other. -/
inductive PairsCode : List (Expr × Expr) → List Instruction → Prop where
  | nil : PairsCode [] []
  | cons {k v : Expr} {ps : List (Expr × Expr)} {key value rest : List Instruction} :
      ValueCode k key → ValueCode v value → PairsCode ps rest → PairsCode ((k, v) :: ps) (key ++ value ++ rest)

/-- The code that jumps behind its end when the truth of an expression is as asked, and falls through otherwise. -/
inductive JumpCode : Expr → Bool → Fragment → Prop where
  | constant {e : Expr} {c : Constant} {sense : Bool} :
      e.fold? = some c → JumpCode e sense (if c.truthy = sense then [.pending .forward] else [])
  | test {e : Expr} {sense : Bool} {code : List Instruction} :
      e.fold? = none → e.isLogic = false → ValueCode e code →
      JumpCode e sense (Fragment.ofCode code ++ [.pending (if sense then .ifTrue else .ifFalse)])
  | not {s : Span} {e : Expr} {sense : Bool} {f : Fragment} :
      (Expr.unary s .not e).fold? = none → JumpCode e (!sense) f → JumpCode (.unary s .not e) sense f
  | both {s : Span} {op : LogicalOp} {l r : Expr} {sense : Bool} {f g : Fragment} :
      (Expr.logical s op l r).fold? = none → Compile.Lowered.decides op sense = true → JumpCode l sense f →
      JumpCode r sense g → JumpCode (.logical s op l r) sense (f ++ g)
  | skip {s : Span} {op : LogicalOp} {l r : Expr} {sense : Bool} {f g : Fragment} {skip : List Instruction} :
      (Expr.logical s op l r).fold? = none → Compile.Lowered.decides op sense = false → JumpCode l (!sense) f →
      JumpCode r sense g → f.resolve g.size = .ok skip →
      JumpCode (.logical s op l r) sense (Fragment.ofCode skip ++ g)

/-- The function that a declaration makes. -/
inductive PrototypeOf : FunctionDecl → Prototype → Prop where
  | mk {s : Span} {n : Option String} {params captures : List String} {isAsync : Bool} {body : List Stmt}
      {code : List Instruction} : StmtsCode body code → Checked (closeBody body code) →
      PrototypeOf (.mk s n params isAsync body)
        ⟨n.getD Compile.anonymous, params, captures, isAsync, encodeAll (closeBody body code)⟩

/-- The code of a statement. -/
inductive StmtCode : Stmt → List Instruction → Prop where
  | expression {s : Span} {e : Expr} {code : List Instruction} :
      ValueCode e code → StmtCode (.expression s e) (code ++ [.pop])
  | declaration {s : Span} {k : DeclKind} {n : String} {e : Expr} {code : List Instruction} :
      ValueCode e code → StmtCode (.declaration s k n (some e)) (code ++ [.storeName n])
  | declarationOfNull {s : Span} {k : DeclKind} {n : String} :
      StmtCode (.declaration s k n none) ([.load .null] ++ [.storeName n])
  | block {s : Span} {body : List Stmt} {code : List Instruction} :
      StmtsCode body code → StmtCode (.block s body) (enclosed code)
  | branch {s : Span} {c : Expr} {t : Stmt} {f : Fragment} {test whenTrue : List Instruction} :
      JumpCode c false f → StmtCode t whenTrue → f.resolve (codeSize whenTrue) = .ok test →
      StmtCode (.branch s c t none) (test ++ whenTrue)
  | branchElse {s : Span} {c : Expr} {t e : Stmt} {f : Fragment} {test whenTrue whenFalse : List Instruction} {d : Int32} :
      JumpCode c false f → StmtCode t whenTrue → StmtCode e whenFalse → jumpDistance (codeSize whenFalse) = .ok d →
      f.resolve (codeSize whenTrue + Fragment.jumpWidth) = .ok test →
      StmtCode (.branch s c t (some e)) (test ++ whenTrue ++ [.jump .forward d] ++ whenFalse)
  | whileLoop {s : Span} {c : Expr} {b : Stmt} {f : Fragment} {test body : List Instruction} {d : Int32} :
      JumpCode c false f → LoopCode b body →
      jumpDistance (-((f.size + codeSize (enclosed body) + Fragment.jumpWidth : Nat) : Int)) = .ok d →
      f.resolve (codeSize (enclosed body) + Fragment.jumpWidth) = .ok test →
      StmtCode (.whileLoop s c b) (test ++ enclosed body ++ [.jump .loop d])
  | forIn {s : Span} {key : Option String} {value : String} {e : Expr} {b : Stmt} {source body : List Instruction}
      {back exit : Int32} : ValueCode e source → LoopCode b body →
      jumpDistance (-((Fragment.iterNextWidth + codeSize (enclosed (bindCode key value ++ body)) + Fragment.jumpWidth : Nat)
        : Int)) = .ok back →
      jumpDistance ((codeSize (enclosed (bindCode key value ++ body)) + Fragment.jumpWidth : Nat) : Int) = .ok exit →
      StmtCode (.forIn s key value e b) (source ++ [.getIter] ++
        (.iterNext (yieldArity key) exit :: enclosed (bindCode key value ++ body) ++ [.jump .loop back]))
  | ret {s : Span} {e : Expr} {code : List Instruction} : ValueCode e code → StmtCode (.ret s (some e)) (code ++ [.ret])
  | retNull {s : Span} : StmtCode (.ret s none) ([.load .null] ++ [.ret])
  | function {s : Span} {d : FunctionDecl} {n : String} {p : Prototype} :
      d.name? = some n → PrototypeOf d p → StmtCode (.function s d) ([.makeFunction p] ++ [.storeName n])

/-- The code of the body of a loop: a block shares the environment of the pass. -/
inductive LoopCode : Stmt → List Instruction → Prop where
  | block {s : Span} {body : List Stmt} {code : List Instruction} : StmtsCode body code → LoopCode (.block s body) code
  | single {b : Stmt} {code : List Instruction} : b.isBlock = false → StmtCode b code → LoopCode b code

/-- The codes of statements, one behind the other. -/
inductive StmtsCode : List Stmt → List Instruction → Prop where
  | nil : StmtsCode [] []
  | cons {b : Stmt} {bs : List Stmt} {code rest : List Instruction} :
      StmtCode b code → StmtsCode bs rest → StmtsCode (b :: bs) (code ++ rest)

end


/-! ## What the steps of a compilation answer -/

namespace Compile

variable {α β : Type} {span : Span} {x : String} {s s' : List Scope}

/-- Parts of a compilation that has succeeded have succeeded. -/
theorem bind_eq_ok {c : CompileM α} {f : α → CompileM β} {b : β} (h : (c >>= f) s = .ok (b, s')) :
    ∃ a t, c s = .ok (a, t) ∧ f a t = .ok (b, s') := by
  obtain ⟨⟨a, t⟩, hc, hf⟩ := ScriptVM.bind_eq_ok.1 h
  exact ⟨a, t, hc, hf⟩

/-- Answering succeeds with the answer, and leaves the scopes. -/
theorem pure_eq_ok {a b : α} (h : (Pure.pure a : CompileM α) s = .ok (b, s')) : b = a ∧ s' = s := by
  cases h
  exact ⟨rfl, rfl⟩

/-- A step that looks at the scopes goes on with them. -/
theorem get_bind (f : List Scope → CompileM α) (s : List Scope) : (get >>= f) s = f s s := rfl

/-- A guarded step that succeeds has passed its guard. -/
theorem guard_eq_ok {P : Prop} [Decidable P] {cause : CompileCause} {c : CompileM α} {r : α × List Scope}
    (h : (if P then fail span cause else c) s = .ok r) : ¬P ∧ c s = .ok r := by
  split at h
  · cases h
  · exact ⟨by assumption, h⟩

/-- An encoding succeeds just if what it wraps does. -/
theorem encoding_eq_ok {e : Except EmitError α} {a : α} : encoding span e s = .ok (a, s') ↔ e = .ok a ∧ s' = s := by
  constructor
  · intro h
    cases e with
    | ok b =>
      obtain ⟨rfl, hs⟩ := pure_eq_ok h
      exact ⟨rfl, hs⟩
    | error e => cases h
  · rintro ⟨rfl, rfl⟩
    rfl

/-- An emission succeeds just if its instruction passes the check. -/
theorem emit_eq_ok {i : Instruction} {code : List Instruction} :
    emit span i s = .ok (code, s') ↔ i.check = .ok () ∧ code = [i] ∧ s' = s := by
  constructor
  · intro h
    obtain ⟨_, _, hfirst, hlast⟩ := bind_eq_ok h
    obtain ⟨hcheck, rfl⟩ := encoding_eq_ok.1 hfirst
    exact ⟨hcheck, pure_eq_ok hlast⟩
  · rintro ⟨hcheck, rfl, rfl⟩
    rw [emit, hcheck]
    rfl

/-- A jump is emitted just if its distance is in range. -/
theorem jumpBy_eq_ok {kind : JumpKind} {distance : Int} {code : List Instruction} :
    jumpBy span kind distance s = .ok (code, s') ↔ (∃ d, jumpDistance distance = .ok d ∧ code = [.jump kind d]) ∧ s' = s := by
  constructor
  · intro h
    obtain ⟨d, _, hfirst, hlast⟩ := bind_eq_ok h
    obtain ⟨hd, rfl⟩ := encoding_eq_ok.1 hfirst
    obtain ⟨hcode, hs⟩ := pure_eq_ok hlast
    exact ⟨⟨d, hd, hcode⟩, hs⟩
  · rintro ⟨⟨d, hd, rfl⟩, rfl⟩
    rw [jumpBy, hd]
    rfl

/-- A count that is accepted is within the limit. -/
theorem checkCount_eq_ok {what : String} {count limit : Nat} {u : Unit} (h : checkCount span what count limit s = .ok (u, s')) :
    count ≤ limit ∧ s' = s := by
  obtain ⟨hle, h⟩ := guard_eq_ok h
  exact ⟨Nat.le_of_not_lt hle, (pure_eq_ok h).2⟩

/-- A name that is found is answered with the scopes that have captured it, and a name that is not leaves them. -/
theorem resolve_eq_ok {y : Option Symbol} (h : resolve x s = .ok (y, s')) :
    Scope.resolve x s = none ∧ y = none ∧ s' = s ∨ ∃ z, Scope.resolve x s = some (z, s') ∧ y = some z := by
  rw [resolve, get_bind] at h
  cases hfound : Scope.resolve x s with
  | none =>
    rw [hfound] at h
    exact .inl ⟨rfl, pure_eq_ok h⟩
  | some found =>
    rw [hfound] at h
    cases h
    exact .inr ⟨_, rfl, rfl⟩

/-- What succeeds in marking a return has found a function to mark. -/
theorem markReturned_eq_ok {u : Unit} (h : markReturned span s = .ok (u, s')) : Scope.markReturned s = some s' := by
  rw [markReturned, get_bind] at h
  cases hmarked : Scope.markReturned s with
  | none =>
    rw [hmarked] at h
    cases h
  | some marked =>
    rw [hmarked] at h
    cases h
    rfl

/-- A declaration adds a symbol to the innermost scope. A scope of one statement refuses every kind of declaration. -/
theorem declare_eq_ok {kind : Option DeclKind} {u : Unit} (h : declare span kind x s = .ok (u, s')) :
    ∃ sc outer sc', s = sc :: outer ∧ s' = sc' :: outer ∧ sc.kind ≠ .single ∧
      sc.declare? ⟨x, kind = some .const, sc.kind = .global, span⟩ = some sc' := by
  rw [declare, get_bind] at h
  obtain ⟨hallowed, h⟩ := guard_eq_ok h
  cases s with
  | nil => cases h
  | cons sc outer =>
    have hcurrent : currentKind (sc :: outer) = sc.kind := rfl
    rw [hcurrent] at hallowed h
    cases hdeclared : sc.declare? ⟨x, kind = some .const, sc.kind = .global, span⟩ with
    | none =>
      simp only [hdeclared] at h
      cases h
    | some sc' =>
      simp only [hdeclared] at h
      cases h
      refine ⟨sc, outer, sc', rfl, rfl, fun hsingle => hallowed ?_, hdeclared⟩
      rw [hsingle]
      cases kind with
      | none => rfl
      | some k => cases k <;> rfl

/-- A parameter that is accepted is new in the innermost scope, and is added to it. -/
theorem declareParameter_eq_ok {u : Unit} (h : declareParameter span x s = .ok (u, s')) :
    ∃ sc outer sc', s = sc :: outer ∧ s' = sc' :: outer ∧ sc.declare? ⟨x, false, false, span⟩ = some sc' := by
  rw [declareParameter, get_bind] at h
  cases s with
  | nil => cases h
  | cons sc outer =>
    cases hdeclared : sc.declare? ⟨x, false, false, span⟩ with
    | none =>
      simp only [hdeclared] at h
      cases h
    | some sc' =>
      simp only [hdeclared] at h
      cases h
      exact ⟨sc, outer, sc', rfl, rfl, hdeclared⟩

/-- What is left of a scope that was entered and left again. -/
theorem inScope_eq_ok {kind : ScopeKind} {body : CompileM α} {r : α × Scope} (h : inScope kind body s = .ok (r, s')) :
    ∃ t, body ({ kind } :: s) = .ok (r.1, t) ∧ s' = t.tail ∧ r.2 = t.headD { kind } := by
  obtain ⟨_, _, hmodify, h⟩ := bind_eq_ok h
  cases hmodify
  obtain ⟨a, t, hbody, hlast⟩ := bind_eq_ok h
  cases hlast
  exact ⟨t, hbody, rfl, rfl⟩

end Compile

/-! ## What a compilation emits -/

/-- A compilation that succeeds with an answer, in some scopes. -/
def Emits {α : Type} (x : CompileM α) (a : α) : Prop := ∃ s s', x s = .ok (a, s')

namespace Emits

variable {α β : Type}

theorem pure {a b : α} (h : Emits (Pure.pure a) b) : b = a := by
  obtain ⟨_, _, h⟩ := h
  exact (Compile.pure_eq_ok h).1

/-- A compilation in two parts succeeds when both do. -/
theorem bind {x : CompileM α} {f : α → CompileM β} {b : β} (h : Emits (x >>= f) b) : ∃ a, Emits x a ∧ Emits (f a) b := by
  obtain ⟨s, s', h⟩ := h
  obtain ⟨a, t, hx, hf⟩ := Compile.bind_eq_ok h
  exact ⟨a, ⟨s, t, hx⟩, ⟨t, s', hf⟩⟩

theorem not_fail {span : Span} {cause : CompileCause} {a : α} : ¬Emits (Compile.fail span cause) a := by
  rintro ⟨s, s', h⟩
  nomatch h

/-- A wrapped encoding emits what it encodes. -/
theorem encoding {span : Span} {x : Except EmitError α} {a : α} (h : Emits (Compile.encoding span x) a) : x = .ok a := by
  obtain ⟨_, _, h⟩ := h
  exact (Compile.encoding_eq_ok.1 h).1

/-- An emitted instruction is the one that was asked for, and is checked. -/
theorem emit {span : Span} {i : Instruction} {code : List Instruction} (h : Emits (Compile.emit span i) code) :
    code = [i] ∧ Checked [i] := by
  obtain ⟨_, _, h⟩ := h
  obtain ⟨hcheck, hcode, -⟩ := Compile.emit_eq_ok.1 h
  exact ⟨hcode, checked_singleton.2 hcheck⟩

/-- A count that is accepted is within the limit. -/
theorem checkCount {span : Span} {what : String} {count limit : Nat} {u : Unit}
    (h : Emits (Compile.checkCount span what count limit) u) : count ≤ limit := by
  obtain ⟨_, _, h⟩ := h
  exact (Compile.checkCount_eq_ok h).1

theorem place {span : Span} {beyond : Nat} {f : Fragment} {code : List Instruction}
    (h : Emits (Compile.place span beyond f) code) : f.resolve beyond = .ok code :=
  encoding h

/-- An emitted jump has a distance in range. -/
theorem jumpBy {span : Span} {kind : JumpKind} {distance : Int} {code : List Instruction}
    (h : Emits (Compile.jumpBy span kind distance) code) : ∃ d, jumpDistance distance = .ok d ∧ code = [.jump kind d] := by
  obtain ⟨_, _, h⟩ := h
  exact (Compile.jumpBy_eq_ok.1 h).1

/-- Code in a scope is emitted by its body. -/
theorem inScope {kind : ScopeKind} {body : CompileM α} {r : α × Scope} (h : Emits (Compile.inScope kind body) r) :
    Emits body r.1 := by
  obtain ⟨_, _, h⟩ := h
  obtain ⟨t, hbody, -⟩ := Compile.inScope_eq_ok h
  exact ⟨_, t, hbody⟩

/-- A single statement is emitted by its body. -/
theorem single {body : CompileM (List Instruction)} {code : List Instruction} (h : Emits (Compile.single body) code) :
    Emits body code := by
  obtain ⟨s, s', h⟩ := h
  have h' : (Compile.inScope .single body >>= fun r => Pure.pure r.1) s = .ok (code, s') := h
  obtain ⟨r, hr, hp⟩ := bind ⟨s, s', h'⟩
  rw [pure hp]
  exact inScope hr

/-- Code in an environment of its own is the code of its body, between entering and leaving. -/
theorem inEnvironment {kind : ScopeKind} {body : CompileM (List Instruction)} {code : List Instruction}
    (h : Emits (Compile.inEnvironment kind body) code) : ∃ inner, Emits body inner ∧ code = enclosed inner := by
  obtain ⟨r, hr, h⟩ := bind h
  exact ⟨r.1, inScope hr, pure h⟩

end Emits

/-- Jumps always pass the check: they have no text and no count. -/
theorem checked_jump (kind : JumpKind) (d : Int32) : Checked [.jump kind d] := checked_singleton.2 rfl

/-- Checked code in an environment of its own is checked. -/
theorem checked_enclosed {code : List Instruction} (h : Checked code) : Checked (enclosed code) :=
  ((checked_singleton (i := .enterScope)).2 rfl |>.append h).append ((checked_singleton (i := .exitScope)).2 rfl)

theorem checked_returnNull : Checked Compile.returnNull := by
  intro i hi
  simp only [Compile.returnNull, List.mem_cons, List.not_mem_nil, or_false] at hi
  rcases hi with rfl | rfl <;> rfl

/-- The finished instructions of a fragment pass the check. -/
def Fragment.Checked (f : Fragment) : Prop := ∀ i, .done i ∈ f → i.check = .ok ()

/-- Two checked fragments make a checked one. -/
theorem Fragment.Checked.append {f g : Fragment} (hf : f.Checked) (hg : g.Checked) : Fragment.Checked (f ++ g) := by
  intro i hi
  rcases List.mem_append.1 hi with hi | hi
  · exact hf i hi
  · exact hg i hi

/-- The fragment of checked code is checked. -/
theorem Fragment.checked_ofCode {code : List Instruction} (h : ScriptVM.Checked code) : (Fragment.ofCode code).Checked := by
  intro i hi
  obtain ⟨j, hj, he⟩ := List.mem_map.1 hi
  cases he
  exact h i hj

/-- A pending jump is nothing to check yet. -/
theorem Fragment.checked_pending (kind : JumpKind) : Fragment.Checked [.pending kind] := by
  intro i hi
  simp at hi

/-- The code of a checked fragment is checked. -/
theorem Fragment.Checked.resolve {f : Fragment} (hf : f.Checked) {beyond : Nat} {code : List Instruction}
    (h : f.resolve beyond = .ok code) : ScriptVM.Checked code := by
  induction f generalizing code with
  | nil =>
    cases h
    exact checked_nil
  | cons item f ih =>
    have hrest : Fragment.Checked f := fun i hi => hf i (List.mem_cons_of_mem _ hi)
    cases item with
    | done j =>
      obtain ⟨rest, hr, h⟩ := bind_eq_ok.1 h
      cases h
      exact (checked_singleton.2 (hf j List.mem_cons_self)).append (ih hrest hr)
    | pending kind =>
      obtain ⟨d, _, h⟩ := bind_eq_ok.1 h
      obtain ⟨rest, hr, h⟩ := bind_eq_ok.1 h
      cases h
      exact (checked_jump kind d).append (ih hrest hr)


/-! ## The compiler emits the code of the tree -/

section

open Compile

/-- An expression that is folded compiles to its constant. -/
theorem expr_of_fold {e : Expr} {c : Constant} (h : e.fold? = some c) : expr e = .ofConstant e.span c := by
  unfold expr
  rw [h]

/-- A condition without logic is tested by its value. -/
theorem jump_of_not_isLogic {e : Expr} (hf : e.fold? = none) (hl : e.isLogic = false) (sense : Bool) :
    (expr e).jump sense = (Lowered.ofValue (expr e).value).jump sense := by
  unfold expr
  rw [hf]
  cases e with
  | literal s v => simp [Expr.fold?] at hf
  | logical s op l r => simp [Expr.isLogic] at hl
  | unary s op e =>
    cases op with
    | not => simp [Expr.isLogic] at hl
    | negate => rfl
  | assign s target value => cases target <;> rfl
  | _ => rfl

/-- A logical operator as a condition, given the conditions of its operands. -/
theorem emits_logicalJump {s : Span} {op : LogicalOp} {l r : Expr} (hf : (Expr.logical s op l r).fold? = none)
    (hl : ∀ sense f, Emits ((expr l).jump sense) f → JumpCode l sense f ∧ f.Checked)
    (hr : ∀ sense f, Emits ((expr r).jump sense) f → JumpCode r sense f ∧ f.Checked) {sense : Bool} {f : Fragment}
    (h : Emits (Lowered.logicalJump s op (expr l) (expr r) sense) f) :
    JumpCode (.logical s op l r) sense f ∧ f.Checked := by
  unfold Lowered.logicalJump at h
  split at h
  · rename_i hd
    obtain ⟨first, h1, h⟩ := h.bind
    obtain ⟨second, h2, h⟩ := h.bind
    obtain ⟨hc1, hk1⟩ := hl _ _ h1
    obtain ⟨hc2, hk2⟩ := hr _ _ h2
    rw [h.pure]
    exact ⟨.both hf hd hc1 hc2, hk1.append hk2⟩
  · rename_i hd
    obtain ⟨skip, h1, h⟩ := h.bind
    obtain ⟨second, h2, h⟩ := h.bind
    obtain ⟨code, h3, h⟩ := h.bind
    obtain ⟨hc1, hk1⟩ := hl _ _ h1
    obtain ⟨hc2, hk2⟩ := hr _ _ h2
    rw [h.pure]
    exact ⟨.skip hf (by simpa using hd) hc1 hc2 h3.place, (Fragment.checked_ofCode (hk1.resolve h3.place)).append hk2⟩

/-- An instruction behind the code of its operands. -/
theorem emits_behind {span : Span} {i : Instruction} {before code : List Instruction} (hb : Checked before)
    (h : Emits (do return before ++ (← emit span i)) code) : code = before ++ [i] ∧ Checked code := by
  obtain ⟨last, h1, h⟩ := h.bind
  obtain ⟨rfl, hi⟩ := h1.emit
  rw [h.pure]
  exact ⟨rfl, hb.append hi⟩

mutual

/-- The compiler emits the code of an expression, all of it checked. -/
theorem emits_value (e : Expr) {code : List Instruction} (h : Emits (expr e).value code) :
    ValueCode e code ∧ Checked code := by
  cases hf : e.fold? with
  | some c =>
    rw [expr_of_fold hf] at h
    obtain ⟨rfl, hc⟩ := h.emit
    exact ⟨.constant hf, hc⟩
  | none =>
    unfold expr at h
    rw [hf] at h
    cases e with
    | literal s v => simp [Expr.fold?] at hf
    | name s n =>
      obtain ⟨_, _, h⟩ := h.bind
      obtain ⟨rfl, hc⟩ := h.emit
      exact ⟨.name, hc⟩
    | unary s op e =>
      cases op with
      | not =>
        obtain ⟨operand, h1, h⟩ := h.bind
        obtain ⟨hv, hk⟩ := emits_value e h1
        obtain ⟨rfl, hc⟩ := emits_behind hk h
        exact ⟨.unary hf hv, hc⟩
      | negate =>
        obtain ⟨operand, h1, h⟩ := h.bind
        obtain ⟨hv, hk⟩ := emits_value e h1
        obtain ⟨rfl, hc⟩ := emits_behind hk h
        exact ⟨.unary hf hv, hc⟩
    | binary s op l r =>
      obtain ⟨left, h1, h⟩ := h.bind
      obtain ⟨right, h2, h⟩ := h.bind
      obtain ⟨hl, hkl⟩ := emits_value l h1
      obtain ⟨hr, hkr⟩ := emits_value r h2
      obtain ⟨rfl, hc⟩ := emits_behind (hkl.append hkr) h
      exact ⟨.binary hf hl hr, hc⟩
    | logical s op l r =>
      obtain ⟨falsy, h1, h⟩ := h.bind
      obtain ⟨jump, h2, h⟩ := h.bind
      obtain ⟨test, h3, h⟩ := h.bind
      obtain ⟨hj, hk⟩ := emits_logicalJump hf (fun _ _ => emits_jump l) (fun _ _ => emits_jump r) h1
      obtain ⟨d, hd, rfl⟩ := h2.jumpBy
      have hload : ∀ b : Bool, Checked [.load (.bool b)] := fun b => checked_singleton.2 (by cases b <;> rfl)
      rw [h.pure]
      exact ⟨.logical hf hj hd h3.place,
        ((hk.resolve h3.place).append ((hload true).append (checked_jump .forward d))).append (hload false)⟩
    | assign s target value =>
      cases target with
      | name s' n =>
        obtain ⟨found, _, h⟩ := h.bind
        have hrest : Emits (do return (← (expr value).value) ++ (← emit s (.setName n))) code := by
          cases found with
          | none => exact h
          | some x =>
            simp only at h
            split at h
            · obtain ⟨_, hfail, _⟩ := h.bind
              exact absurd hfail Emits.not_fail
            · exact h
        obtain ⟨operand, h1, h⟩ := hrest.bind
        obtain ⟨hv, hk⟩ := emits_value value h1
        obtain ⟨rfl, hc⟩ := emits_behind hk h
        exact ⟨.assign hv, hc⟩
      | _ => exact absurd h Emits.not_fail
    | call s callee args =>
      obtain ⟨_, h0, h⟩ := h.bind
      obtain ⟨calleeCode, h1, h⟩ := h.bind
      obtain ⟨argCode, h2, h⟩ := h.bind
      obtain ⟨hv, hkv⟩ := emits_value callee h1
      obtain ⟨ha, hka⟩ := emits_values args h2
      obtain ⟨rfl, hc⟩ := emits_behind (hkv.append hka) h
      exact ⟨.call (Nat.lt_of_le_of_lt h0.checkCount (by decide)) hv ha, hc⟩
    | member s e n =>
      obtain ⟨operand, h1, h⟩ := h.bind
      obtain ⟨hv, hk⟩ := emits_value e h1
      obtain ⟨rfl, hc⟩ := emits_behind hk h
      exact ⟨.member hv, hc⟩
    | index s o i =>
      obtain ⟨object, h1, h⟩ := h.bind
      obtain ⟨index, h2, h⟩ := h.bind
      obtain ⟨ho, hko⟩ := emits_value o h1
      obtain ⟨hi, hki⟩ := emits_value i h2
      obtain ⟨rfl, hc⟩ := emits_behind (hko.append hki) h
      exact ⟨.index ho hi, hc⟩
    | array s es =>
      obtain ⟨_, h0, h⟩ := h.bind
      obtain ⟨items, h1, h⟩ := h.bind
      obtain ⟨hv, hk⟩ := emits_values es h1
      obtain ⟨rfl, hc⟩ := emits_behind hk h
      exact ⟨.array (Nat.lt_of_le_of_lt h0.checkCount (by decide)) hv, hc⟩
    | map s ps =>
      obtain ⟨_, h0, h⟩ := h.bind
      obtain ⟨items, h1, h⟩ := h.bind
      obtain ⟨hv, hk⟩ := emits_pairs ps h1
      obtain ⟨rfl, hc⟩ := emits_behind hk h
      exact ⟨.map (Nat.lt_of_le_of_lt h0.checkCount (by decide)) hv, hc⟩
    | range s a b c =>
      obtain ⟨start, h1, h⟩ := h.bind
      obtain ⟨stop, h2, h⟩ := h.bind
      obtain ⟨ha, hka⟩ := emits_value a h1
      obtain ⟨hb, hkb⟩ := emits_value b h2
      cases c with
      | some c =>
        obtain ⟨step, h3, h⟩ := h.bind
        obtain ⟨hv, hk⟩ := emits_value c h3
        obtain ⟨rfl, hc⟩ := emits_behind ((hka.append hkb).append hk) h
        exact ⟨.range ha hb hv, hc⟩
      | none =>
        obtain ⟨step, h3, h⟩ := h.bind
        obtain ⟨rfl, hk⟩ := h3.emit
        obtain ⟨rfl, hc⟩ := emits_behind ((hka.append hkb).append hk) h
        exact ⟨.rangeByOne ha hb, hc⟩
    | function s d =>
      obtain ⟨p, hp, rfl, hc⟩ := emits_function d h
      exact ⟨.function hp, hc⟩
    | missing s => exact absurd h Emits.not_fail
termination_by (sizeOf e, 0)
decreasing_by all_goals (subst_vars; exact Prod.Lex.left _ _ (by simp <;> omega))

/-- The compiler emits the jumps of a condition, all of them checked. -/
theorem emits_jump (e : Expr) {sense : Bool} {f : Fragment} (h : Emits ((expr e).jump sense) f) :
    JumpCode e sense f ∧ f.Checked := by
  cases hf : e.fold? with
  | some c =>
    rw [expr_of_fold hf] at h
    rw [h.pure]
    refine ⟨.constant hf, ?_⟩
    split
    · exact Fragment.checked_pending .forward
    · intro i hi
      simp at hi
  | none =>
    cases hl : e.isLogic with
    | false =>
      rw [jump_of_not_isLogic hf hl] at h
      obtain ⟨value, h1, h⟩ := h.bind
      obtain ⟨hv, hk⟩ := emits_value e h1
      rw [h.pure]
      exact ⟨.test hf hl hv, (Fragment.checked_ofCode hk).append (Fragment.checked_pending _)⟩
    | true =>
      unfold expr at h
      rw [hf] at h
      cases e with
      | unary s op e =>
        cases op with
        | not =>
          obtain ⟨hj, hk⟩ := emits_jump e h
          exact ⟨.not hf hj, hk⟩
        | negate => simp [Expr.isLogic] at hl
      | logical s op l r => exact emits_logicalJump hf (fun _ _ => emits_jump l) (fun _ _ => emits_jump r) h
      | _ => simp [Expr.isLogic] at hl
termination_by (sizeOf e, 1)
decreasing_by all_goals (subst_vars; first | exact Prod.Lex.right _ Nat.one_pos | exact Prod.Lex.left _ _ (by simp <;> omega))

/-- The compiler emits the codes of a list of expressions, all of them checked. -/
theorem emits_values (es : List Expr) {code : List Instruction} (h : Emits (values es) code) :
    ValuesCode es code ∧ Checked code := by
  cases es with
  | nil =>
    rw [values] at h
    rw [h.pure]
    exact ⟨.nil, checked_nil⟩
  | cons e es =>
    rw [values] at h
    obtain ⟨first, h1, h⟩ := h.bind
    obtain ⟨rest, h2, h⟩ := h.bind
    obtain ⟨hv, hk⟩ := emits_value e h1
    obtain ⟨hvs, hks⟩ := emits_values es h2
    rw [h.pure]
    exact ⟨.cons hv hvs, hk.append hks⟩
termination_by (sizeOf es, 0)
decreasing_by all_goals (subst_vars; exact Prod.Lex.left _ _ (by simp <;> omega))

/-- The compiler emits the codes of the pairs of a map, all of them checked. -/
theorem emits_pairs (ps : List (Expr × Expr)) {code : List Instruction} (h : Emits (pairs ps) code) :
    PairsCode ps code ∧ Checked code := by
  match ps, h with
  | [], h =>
    rw [pairs] at h
    rw [h.pure]
    exact ⟨.nil, checked_nil⟩
  | (k, v) :: ps, h =>
    rw [pairs] at h
    obtain ⟨key, h1, h⟩ := h.bind
    obtain ⟨value, h2, h⟩ := h.bind
    obtain ⟨rest, h3, h⟩ := h.bind
    obtain ⟨hk, hkk⟩ := emits_value k h1
    obtain ⟨hv, hkv⟩ := emits_value v h2
    obtain ⟨hp, hkp⟩ := emits_pairs ps h3
    rw [h.pure]
    exact ⟨.cons hk hv hp, (hkk.append hkv).append hkp⟩
termination_by (sizeOf ps, 0)
decreasing_by all_goals exact Prod.Lex.left _ _ (by simp <;> omega)

/-- The compiler emits the prototype of a function declaration, and it is checked. -/
theorem emits_function (d : FunctionDecl) {code : List Instruction} (h : Emits (function d) code) :
    ∃ p, PrototypeOf d p ∧ code = [.makeFunction p] ∧ Checked code := by
  cases d with
  | mk s n params isAsync body =>
    rw [function] at h
    obtain ⟨r, h1, h⟩ := h.bind
    obtain ⟨rfl, hc⟩ := h.emit
    obtain ⟨_, _, h1⟩ := h1.inScope.bind
    obtain ⟨inner, h2, h1⟩ := h1.bind
    obtain ⟨hs, hk⟩ := emits_stmts body h2
    have hclose : Checked (closeBody body inner) := by
      unfold closeBody
      split
      · exact hk
      · exact hk.append checked_returnNull
    have hr : r.1 = closeBody body inner := h1.pure
    rw [hr] at hc ⊢
    exact ⟨_, .mk hs hclose, rfl, hc⟩
termination_by (sizeOf d, 0)
decreasing_by all_goals (subst_vars; exact Prod.Lex.left _ _ (by simp))

/-- The compiler emits the code of a statement, all of it checked. -/
theorem emits_code (b : Stmt) {code : List Instruction} (h : Emits (statement b).code code) :
    StmtCode b code ∧ Checked code := by
  cases b with
  | expression s e =>
    rw [statement] at h
    obtain ⟨value, h1, h⟩ := h.bind
    obtain ⟨hv, hk⟩ := emits_value e h1
    obtain ⟨rfl, hc⟩ := emits_behind hk h
    exact ⟨.expression hv, hc⟩
  | declaration s k n init =>
    rw [statement] at h
    cases init with
    | some e =>
      obtain ⟨value, h1, h⟩ := h.bind
      obtain ⟨_, _, h⟩ := h.bind
      obtain ⟨hv, hk⟩ := emits_value e h1
      obtain ⟨rfl, hc⟩ := emits_behind hk h
      exact ⟨.declaration hv, hc⟩
    | none =>
      simp only at h
      split at h
      · obtain ⟨_, hfail, _⟩ := h.bind
        exact absurd hfail Emits.not_fail
      · obtain ⟨value, h1, h⟩ := h.bind
        obtain ⟨_, _, h⟩ := h.bind
        obtain ⟨rfl, hk⟩ := h1.emit
        obtain ⟨rfl, hc⟩ := emits_behind hk h
        exact ⟨.declarationOfNull, hc⟩
  | block s body =>
    rw [statement] at h
    obtain ⟨inner, h1, rfl⟩ := h.inEnvironment
    obtain ⟨hs, hk⟩ := emits_stmts body h1
    exact ⟨.block hs, checked_enclosed hk⟩
  | branch s c t e =>
    rw [statement] at h
    obtain ⟨f, h1, h⟩ := h.bind
    obtain ⟨whenTrue, h2, h⟩ := h.bind
    obtain ⟨hj, hkj⟩ := emits_jump c h1
    obtain ⟨ht, hkt⟩ := emits_arm t h2
    cases e with
    | none =>
      obtain ⟨test, h3, h⟩ := h.bind
      rw [h.pure]
      exact ⟨.branch hj ht h3.place, (hkj.resolve h3.place).append hkt⟩
    | some e =>
      obtain ⟨whenFalse, h3, h⟩ := h.bind
      obtain ⟨he, hke⟩ := emits_arm e h3
      obtain ⟨skip, h4, h⟩ := h.bind
      obtain ⟨d, hd, rfl⟩ := h4.jumpBy
      obtain ⟨test, h5, h⟩ := h.bind
      rw [h.pure]
      exact ⟨.branchElse hj ht he hd h5.place,
        (((hkj.resolve h5.place).append hkt).append (checked_jump .forward d)).append hke⟩
  | whileLoop s c b =>
    rw [statement] at h
    obtain ⟨f, h1, h⟩ := h.bind
    obtain ⟨hj, hkj⟩ := emits_jump c h1
    obtain ⟨body, h2, h⟩ := h.bind
    obtain ⟨inner, h3, rfl⟩ := h2.inEnvironment
    obtain ⟨hb, hkb⟩ := emits_loopBody b h3
    obtain ⟨back, h4, h⟩ := h.bind
    obtain ⟨d, hd, rfl⟩ := h4.jumpBy
    obtain ⟨test, h5, h⟩ := h.bind
    rw [h.pure]
    exact ⟨.whileLoop hj hb hd h5.place,
      ((hkj.resolve h5.place).append (checked_enclosed hkb)).append (checked_jump .loop d)⟩
  | forIn s key value e b =>
    rw [statement] at h
    obtain ⟨source, h1, h⟩ := h.bind
    obtain ⟨hv, hkv⟩ := emits_value e h1
    obtain ⟨getIter, h2, h⟩ := h.bind
    obtain ⟨rfl, hki⟩ := h2.emit
    obtain ⟨whole, h3, h⟩ := h.bind
    obtain ⟨inner, h4, rfl⟩ := h3.inEnvironment
    obtain ⟨valueCode, h5, h4⟩ := h4.bind
    obtain ⟨_, _, h5⟩ := h5.bind
    obtain ⟨rfl, hks⟩ := h5.emit
    have hinner : ∃ body, LoopCode b body ∧ inner = bindCode key value ++ body ∧ Checked inner := by
      cases key with
      | none =>
        obtain ⟨keyCode, h6, h4⟩ := h4.bind
        obtain ⟨body, h7, h4⟩ := h4.bind
        obtain ⟨hb, hkb⟩ := emits_loopBody b h7
        rw [h4.pure, h6.pure]
        exact ⟨body, hb, rfl, (hks.append checked_nil).append hkb⟩
      | some key =>
        obtain ⟨keyCode, h6, h4⟩ := h4.bind
        obtain ⟨_, _, h6⟩ := h6.bind
        obtain ⟨rfl, hkk⟩ := h6.emit
        obtain ⟨body, h7, h4⟩ := h4.bind
        obtain ⟨hb, hkb⟩ := emits_loopBody b h7
        rw [h4.pure]
        exact ⟨body, hb, rfl, (hks.append hkk).append hkb⟩
    obtain ⟨body, hb, rfl, hkin⟩ := hinner
    obtain ⟨code', h7, h⟩ := h.bind
    obtain ⟨back, h8, h7⟩ := h7.bind
    obtain ⟨d, hd, rfl⟩ := h8.jumpBy
    obtain ⟨exit, h9, h7⟩ := h7.bind
    rw [h.pure, h7.pure]
    refine ⟨.forIn hv hb hd h9.encoding, (hkv.append hki).append ?_⟩
    exact ((checked_singleton (i := .iterNext _ _)).2 rfl |>.append (checked_enclosed hkin)).append (checked_jump .loop d)
  | ret s value =>
    rw [statement] at h
    obtain ⟨_, _, h⟩ := h.bind
    have hret : Checked [.ret] := checked_singleton.2 rfl
    cases value with
    | some e =>
      obtain ⟨value, h1, h⟩ := h.bind
      obtain ⟨hv, hk⟩ := emits_value e h1
      rw [h.pure]
      exact ⟨.ret hv, hk.append hret⟩
    | none =>
      obtain ⟨value, h1, h⟩ := h.bind
      obtain ⟨rfl, hk⟩ := h1.emit
      rw [h.pure]
      exact ⟨.retNull, hk.append hret⟩
  | function s d =>
    rw [statement] at h
    cases hn : d.name? with
    | none =>
      rw [hn] at h
      exact absurd h Emits.not_fail
    | some n =>
      rw [hn] at h
      obtain ⟨_, _, h⟩ := h.bind
      obtain ⟨make, h1, h⟩ := h.bind
      obtain ⟨p, hp, rfl, hk⟩ := emits_function d h1
      obtain ⟨rfl, hc⟩ := emits_behind hk h
      exact ⟨.function hn hp, hc⟩
termination_by (sizeOf b, 0)
decreasing_by all_goals (subst_vars; exact Prod.Lex.left _ _ (by simp <;> omega))

/-- The compiler emits the same code for a statement that is a branch. -/
theorem emits_arm (b : Stmt) {code : List Instruction} (h : Emits (statement b).arm code) :
    StmtCode b code ∧ Checked code := by
  have h' : Emits (statement b).code code := by
    cases b with
    | block s body => rw [statement] at h ⊢; exact h
    | _ => rw [statement] at h ⊢; exact h.single
  exact emits_code b h'
termination_by (sizeOf b, 1)
decreasing_by all_goals exact Prod.Lex.right _ Nat.one_pos

/-- The compiler emits the code of a statement as the body of a loop, all of it checked. -/
theorem emits_loopBody (b : Stmt) {code : List Instruction} (h : Emits (statement b).loopBody code) :
    LoopCode b code ∧ Checked code := by
  cases hb : b.isBlock with
  | true =>
    cases b with
    | block s body =>
      rw [statement] at h
      obtain ⟨hs, hk⟩ := emits_stmts body h
      exact ⟨.block hs, hk⟩
    | _ => simp [Stmt.isBlock] at hb
  | false =>
    have h' : Emits (statement b).code code := by
      cases b with
      | block s body => simp [Stmt.isBlock] at hb
      | _ => rw [statement] at h ⊢; exact h.single
    obtain ⟨hs, hk⟩ := emits_code b h'
    exact ⟨.single hb hs, hk⟩
termination_by (sizeOf b, 1)
decreasing_by
  all_goals subst_vars
  all_goals first
    | exact Prod.Lex.right _ Nat.one_pos
    | exact Prod.Lex.left _ _ (by rw [Stmt.block.sizeOf_spec]; omega)

/-- The compiler emits the codes of a list of statements, all of them checked. -/
theorem emits_stmts (bs : List Stmt) {code : List Instruction} (h : Emits (statements bs) code) :
    StmtsCode bs code ∧ Checked code := by
  cases bs with
  | nil =>
    rw [statements] at h
    rw [h.pure]
    exact ⟨.nil, checked_nil⟩
  | cons b bs =>
    rw [statements] at h
    obtain ⟨first, h1, h⟩ := h.bind
    obtain ⟨rest, h2, h⟩ := h.bind
    obtain ⟨hv, hk⟩ := emits_code b h1
    obtain ⟨hvs, hks⟩ := emits_stmts bs h2
    rw [h.pure]
    exact ⟨.cons hv hvs, hk.append hks⟩
termination_by (sizeOf bs, 0)
decreasing_by all_goals (subst_vars; exact Prod.Lex.left _ _ (by simp <;> omega))

end

end

/-! ## Programs -/

/-- The code of a program, which ends with the result null. -/
def ProgramCode (p : Program) (code : List Instruction) : Prop :=
  ∃ inner, StmtsCode p.statements inner ∧ code = inner ++ Compile.returnNull

/-- A program that compiles becomes a module with its code; the texts of the header hold no NUL. -/
theorem Program.compile_code {p : Program} {image : Image} (h : p.compile = .ok image) :
    ∃ code, ProgramCode p code ∧ Checked code ∧ image = ⟨p.path, p.name, encodeAll code⟩ ∧
      '\x00' ∉ p.path.toList ∧ '\x00' ∉ p.name.toList := by
  unfold Program.compile at h
  split at h
  · rename_i code s' hc
    cases h
    have hemits : Emits (Compile.program p) code := ⟨_, _, hc⟩
    obtain ⟨_, h1, h2⟩ := hemits.bind
    obtain ⟨_, hpath, hname⟩ := h1.bind
    obtain ⟨inner, h3, h2⟩ := h2.bind
    obtain ⟨hs, hk⟩ := emits_stmts _ h3
    have hcode : code = inner ++ Compile.returnNull := h2.pure
    refine ⟨code, ⟨inner, hs, hcode⟩, ?_, rfl, Instruction.checkString_eq_ok.1 hpath.encoding,
      Instruction.checkString_eq_ok.1 hname.encoding⟩
    rw [hcode]
    exact hk.append checked_returnNull
  · nomatch h

end ScriptVM
