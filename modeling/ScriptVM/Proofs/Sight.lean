import ScriptVM.Proofs.Discipline

/-!
# How a name stands in code

Follow one name through code from its start on: in each scope that is open at a place, the name is not bound yet, or it is bound as a
constant, or it is bound otherwise. This is read off the instructions in front of the place (`sight`), since no jump leads to a place
where the name stands differently. The bytes do not say which stores are those of constants; the tree does (`Stmt.kinds`).

`Tracks` says of code that it binds the name once in each scope, assigns it nowhere where its nearest binding is a constant, and makes
no function there that assigns it. Such code is put together piece by piece. `Careful` says it of all functions of a program.
-/

namespace ScriptVM

/-! ## What a tree binds -/

mutual

/-- For each name that a statement binds, in the order of its code, whether it is a constant. -/
def Stmt.kinds : Stmt → List Bool
  | .expression .. | .ret .. => []
  | .declaration _ kind _ _ => [decide (kind = .const)]
  | .block _ body => Stmt.allKinds body
  | .branch _ _ thenBranch none => thenBranch.kinds
  | .branch _ _ thenBranch (some elseBranch) => thenBranch.kinds ++ elseBranch.kinds
  | .whileLoop _ _ body => body.kinds
  | .forIn _ key _ _ body => false :: ((key.map fun _ => false).toList ++ body.kinds)
  | .function .. => [false]

/-- The same for statements one behind the other. -/
def Stmt.allKinds : List Stmt → List Bool
  | [] => []
  | b :: rest => b.kinds ++ Stmt.allKinds rest

end

mutual

/-- The bodies of the functions in an expression, and of those inside them. -/
def Expr.bodies : Expr → List (List Stmt)
  | .literal .. | .name .. | .missing .. => []
  | .unary _ _ operand => operand.bodies
  | .binary _ _ left right | .logical _ _ left right => left.bodies ++ right.bodies
  | .assign _ target value => target.bodies ++ value.bodies
  | .call _ callee arguments => callee.bodies ++ Expr.allBodies arguments
  | .member _ object _ => object.bodies
  | .index _ object index => object.bodies ++ index.bodies
  | .array _ elements => Expr.allBodies elements
  | .map _ entries => Expr.pairBodies entries
  | .range _ start stop none => start.bodies ++ stop.bodies
  | .range _ start stop (some step) => start.bodies ++ stop.bodies ++ step.bodies
  | .function _ decl => decl.bodies

/-- The bodies of the functions in expressions. -/
def Expr.allBodies : List Expr → List (List Stmt)
  | [] => []
  | e :: rest => e.bodies ++ Expr.allBodies rest

/-- The bodies of the functions in pairs of expressions. -/
def Expr.pairBodies : List (Expr × Expr) → List (List Stmt)
  | [] => []
  | (key, value) :: rest => key.bodies ++ value.bodies ++ Expr.pairBodies rest

/-- The body of a function, and those of the functions inside it. -/
def FunctionDecl.bodies : FunctionDecl → List (List Stmt)
  | .mk _ _ _ _ body => body :: Stmt.allBodies body

/-- The bodies of the functions in a statement. -/
def Stmt.bodies : Stmt → List (List Stmt)
  | .expression _ e => e.bodies
  | .declaration _ _ _ none | .ret _ none => []
  | .declaration _ _ _ (some e) | .ret _ (some e) => e.bodies
  | .block _ body => Stmt.allBodies body
  | .branch _ condition thenBranch none => condition.bodies ++ thenBranch.bodies
  | .branch _ condition thenBranch (some elseBranch) => condition.bodies ++ thenBranch.bodies ++ elseBranch.bodies
  | .whileLoop _ condition body => condition.bodies ++ body.bodies
  | .forIn _ _ _ iterable body => iterable.bodies ++ body.bodies
  | .function _ decl => decl.bodies

/-- The bodies of the functions in statements. -/
def Stmt.allBodies : List Stmt → List (List Stmt)
  | [] => []
  | b :: rest => b.bodies ++ Stmt.allBodies rest

end

/-- The bodies of a program: its statements, and the bodies of all its functions. -/
def Program.bodies (p : Program) : List (List Stmt) := p.statements :: Stmt.allBodies p.statements

/-! ## Following a name -/

/-- How a name stands in the scopes that are open at a place, the innermost first: not bound, or bound and whether as a constant. -/
abbrev Sight := List (Option Bool)

namespace Sight

/-- How a name is bound nearest. -/
def nearest (σ : Sight) : Option Bool := σ.findSome? id

/-- Whether the nearest binding of a name is a constant, given that for the scopes outside. -/
def blocked (σ : Sight) (outside : Bool) : Bool := σ.nearest.getD outside

/-- How a name stands at the start of a function with parameters. -/
def entry (x : String) (params : List String) : Sight := [if x ∈ params then some false else none]

/-- A name has no nearest binding just if no scope binds it. -/
theorem nearest_eq_none {σ : Sight} : σ.nearest = none ↔ ∀ s ∈ σ, s = none := by
  simp [nearest, List.findSome?_eq_none_iff]

end Sight

/-- Whether an instruction binds a name. -/
def Instruction.isStore : Instruction → Bool
  | .storeName _ => true
  | _ => false

/-- How many names code binds. -/
def storeCount (code : List Instruction) : Nat := code.countP Instruction.isStore

/-- The stores of code in sequence add up. -/
@[simp] theorem storeCount_append (a b : List Instruction) : storeCount (a ++ b) = storeCount a + storeCount b :=
  List.countP_append

/-- How a name stands behind an instruction, which binds a constant or not if it binds a name. -/
def Instruction.look (x : String) (isConst : Bool) (σ : Sight) : Instruction → Sight
  | .enterScope => none :: σ
  | .exitScope => σ.tail
  | .storeName n => if n = x then some isConst :: σ.tail else σ
  | _ => σ

/-- How a name stands behind code, given for each name that the code binds whether it is a constant. -/
def sight (x : String) : List Instruction → List Bool → Sight → Sight
  | [], _, σ => σ
  | i :: code, kinds, σ => sight x code (kinds.drop (storeCount [i])) (i.look x (kinds.headD false) σ)

variable {x : String} {kinds : List Bool} {σ τ υ : Sight}

@[simp] theorem sight_nil : sight x [] kinds σ = σ := rfl

/-- How a name stands behind code in sequence is read off part by part. -/
theorem sight_append (a b : List Instruction) :
    sight x (a ++ b) kinds σ = sight x b (kinds.drop (storeCount a)) (sight x a kinds σ) := by
  induction a generalizing kinds σ with
  | nil => rfl
  | cons i a ih =>
    have hcount : storeCount (i :: a) = storeCount [i] + storeCount a := storeCount_append [i] a
    rw [List.cons_append, sight, sight, ih, List.drop_drop, hcount]

/-- How a name stands behind one instruction is what the instruction makes of it. -/
theorem sight_singleton (i : Instruction) : sight x [i] kinds σ = i.look x (kinds.headD false) σ := rfl

/-- Whether an instruction leaves scopes and bindings as they are. -/
def Instruction.isStill : Instruction → Bool
  | .storeName _ | .enterScope | .exitScope => false
  | _ => true

/-- A still instruction leaves how a name stands. -/
theorem Instruction.look_of_isStill {i : Instruction} (h : i.isStill = true) (isConst : Bool) : i.look x isConst σ = σ := by
  cases i <;> first | rfl | cases h

/-- A still instruction binds no name. -/
theorem Instruction.not_isStore_of_isStill {i : Instruction} (h : i.isStill = true) : i.isStore = false := by
  cases i <;> first | rfl | cases h

/-- Code that leaves scopes and bindings as they are. -/
def Still (code : List Instruction) : Prop := ∀ i ∈ code, i.isStill = true

namespace Still

variable {a b code : List Instruction}

/-- The front part of still code is still. -/
theorem left (h : Still (a ++ b)) : Still a := fun i hi => h i (List.mem_append_left b hi)

theorem storeCount_eq (h : Still code) : storeCount code = 0 := by
  refine List.countP_eq_zero.2 fun i hi => ?_
  rw [Instruction.not_isStore_of_isStill (h i hi)]
  exact Bool.false_ne_true

/-- Still code leaves how a name stands. -/
theorem sight_eq (h : Still code) : sight x code kinds σ = σ := by
  induction code generalizing kinds σ with
  | nil => rfl
  | cons i code ih =>
    rw [sight, Instruction.look_of_isStill (h i List.mem_cons_self), ih fun j hj => h j (List.mem_cons_of_mem i hj)]

end Still

/-- In which scopes a name is bound does not depend on which names are constants. -/
theorem nearest_sight_eq_none {kinds' : List Bool} (code : List Instruction) {σ' : Sight}
    (h : σ.map Option.isSome = σ'.map Option.isSome) :
    (sight x code kinds σ).nearest = none ↔ (sight x code kinds' σ').nearest = none := by
  induction code generalizing kinds kinds' σ σ' with
  | nil =>
    have hall : ∀ τ : Sight, (∀ s ∈ τ, s = none) ↔ ∀ b ∈ τ.map Option.isSome, b = false := by simp
    rw [sight_nil, sight_nil, Sight.nearest_eq_none, Sight.nearest_eq_none, hall, hall, h]
  | cons i code ih =>
    refine ih ?_
    cases i with
    | enterScope => simp [Instruction.look, h]
    | exitScope => simp [Instruction.look, List.map_tail, h]
    | storeName n =>
      simp only [Instruction.look]
      split
      · simp [List.map_tail, h]
      · exact h
    | _ => exact h

/-! ## Code that assigns a name -/

/-- At a place of a function none of the function's own scopes binds a name. -/
def Unbound (x : String) (params : List String) (before : List Instruction) : Prop :=
  (sight x before [] (.entry x params)).nearest = none

/-- The next instruction binds a name. A function that is made there and bound to the name finds itself under it. -/
def Binds (x : String) (after : List Instruction) : Prop := after.head? = some (.storeName x)

/-- The next instruction is the same with more code behind it. -/
theorem Binds.append {after : List Instruction} (h : Binds x after) (more : List Instruction) : Binds x (after ++ more) := by
  unfold Binds at h ⊢
  rw [List.head?_append, h, Option.some_or]

/-- The code of a function, or of a function inside it, assigns a name that is not bound in its own scopes. -/
inductive Assigns (x : String) : List String → List UInt8 → Prop where
  | here {params : List String} {before after : List Instruction} : Checked (before ++ .setName x :: after) →
      Unbound x params before → Assigns x params (encodeAll (before ++ .setName x :: after))
  | inside {params : List String} {before after : List Instruction} {p : Prototype} : Checked (before ++ .makeFunction p :: after) →
      Unbound x params before → ¬Binds x after → Assigns x p.params p.body →
      Assigns x params (encodeAll (before ++ .makeFunction p :: after))

/-- The bytes of checked code tell what code it is. -/
theorem encodeAll_inj {a b : List Instruction} (ha : Checked a) (hb : Checked b) (h : encodeAll a = encodeAll b) : a = b := by
  induction a generalizing b with
  | nil =>
    cases b with
    | nil => rfl
    | cons j b =>
      have hlength := congrArg List.length h
      have hpos := j.width_pos
      rw [length_encodeAll, length_encodeAll, codeSize, codeSize] at hlength
      omega
  | cons i a ih =>
    cases b with
    | nil =>
      have hlength := congrArg List.length h
      have hpos := i.width_pos
      rw [length_encodeAll, length_encodeAll, codeSize, codeSize] at hlength
      omega
    | cons j b =>
      have hi : Instruction.decode (encodeAll (i :: a)).toArray 0 = .ok (i, i.width) := Stands.decode ha ⟨[], a, rfl, rfl⟩
      have hj : Instruction.decode (encodeAll (j :: b)).toArray 0 = .ok (j, j.width) := Stands.decode hb ⟨[], b, rfl, rfl⟩
      rw [h, hj] at hi
      cases hi
      have hrest : encodeAll a = encodeAll b := by
        have happ : i.encode ++ encodeAll a = i.encode ++ encodeAll b := h
        exact List.append_cancel_left happ
      rw [ih (fun k hk => ha k (List.mem_cons_of_mem _ hk)) (fun k hk => hb k (List.mem_cons_of_mem _ hk)) hrest]

/-! ## Code that keeps to what is bound -/

/-- An instruction is right where a name stands so: it binds the name in no scope twice, leaves no scope that it has not entered, and
where the nearest binding of the name is a constant it does not assign it, nor make a function that does and is not bound to it. -/
def Instruction.Fair (x : String) (outside : Bool) (σ : Sight) (after : List Instruction) : Instruction → Prop
  | .setName n => n = x → σ.blocked outside = false
  | .makeFunction p => σ.blocked outside = true → ¬Binds x after → ¬Assigns x p.params p.body
  | .storeName n => n = x → σ.head? = some none
  | .exitScope => 2 ≤ σ.length
  | _ => True

/-- An instruction stays fair with more code behind it. -/
theorem Instruction.Fair.append {outside : Bool} {after : List Instruction} {i : Instruction} (h : i.Fair x outside σ after)
    (more : List Instruction) : i.Fair x outside σ (after ++ more) := by
  cases i with
  | makeFunction p => exact fun hblocked hfree => h hblocked fun hbinds => hfree (hbinds.append more)
  | _ => exact h

/-- Code in front of other code follows a name from how it stands before to how it stands behind: every instruction is right, and
every jump leads to a place where the name stands as it does behind the jump. -/
structure Tracks (x : String) (outside : Bool) (beyond : List Instruction) (kinds : List Bool) (σ : Sight) (code : List Instruction)
    (τ : Sight) : Prop where
  sight_eq : sight x code kinds σ = τ
  fair : ∀ before i after, code = before ++ i :: after → i.Fair x outside (sight x before kinds σ) after
  level : ∀ before i after offset, code = before ++ i :: after → i.jumpOffset? = some offset →
    ∃ before' after', code ++ beyond = before' ++ after' ∧ (codeSize before' : Int) = codeSize (before ++ [i]) + offset.toInt ∧
      sight x before' kinds σ = sight x (before ++ [i]) kinds σ

/-- An instruction of two codes is one of the first or of the second. -/
theorem append_eq_cons_cases {a b before after : List Instruction} {i : Instruction} (h : a ++ b = before ++ i :: after) :
    (∃ rest, a = before ++ i :: rest ∧ after = rest ++ b) ∨ ∃ rest, before = a ++ rest ∧ b = rest ++ i :: after := by
  rcases List.append_eq_append_iff.1 h with ⟨more, rfl, hb⟩ | ⟨more, rfl, hafter⟩
  · exact .inr ⟨more, rfl, hb⟩
  · cases more with
    | nil => exact .inr ⟨[], by simp, by simpa using hafter.symm⟩
    | cons j more =>
      simp only [List.cons_append, List.cons.injEq] at hafter
      obtain ⟨rfl, rfl⟩ := hafter
      exact .inl ⟨more, rfl, rfl⟩

namespace Tracks

variable {outside : Bool} {a b beyond code : List Instruction}

/-- Code without instructions follows every name. -/
theorem nil : Tracks x outside beyond kinds σ [] σ := by
  refine ⟨rfl, fun before i after h => ?_, fun before i after offset h => ?_⟩
  · simp at h
  · simp at h

/-- Code in sequence follows a name through both parts. -/
theorem append (ha : Tracks x outside (b ++ beyond) kinds σ a τ)
    (hb : Tracks x outside beyond (kinds.drop (storeCount a)) τ b υ) : Tracks x outside beyond kinds σ (a ++ b) υ := by
  have hshift : ∀ part, sight x (a ++ part) kinds σ = sight x part (kinds.drop (storeCount a)) τ := by
    intro part
    rw [sight_append, ha.sight_eq]
  constructor
  case sight_eq => rw [hshift, hb.sight_eq]
  case fair =>
    intro before i after h
    rcases append_eq_cons_cases h with ⟨rest, rfl, rfl⟩ | ⟨rest, rfl, rfl⟩
    · exact (ha.fair before i rest rfl).append b
    · rw [hshift]
      exact hb.fair rest i after rfl
  case level =>
    intro before i after offset h hi
    rcases append_eq_cons_cases h with ⟨rest, rfl, -⟩ | ⟨rest, rfl, rfl⟩
    · obtain ⟨before', after', hwhole, hsize, hsame⟩ := ha.level before i rest offset rfl hi
      exact ⟨before', after', by rw [← hwhole, List.append_assoc], hsize, hsame⟩
    · obtain ⟨before', after', hwhole, hsize, hsame⟩ := hb.level rest i after offset rfl hi
      refine ⟨a ++ before', after', by rw [List.append_assoc, hwhole, List.append_assoc], ?_, ?_⟩
      · rw [List.append_assoc, codeSize_append, codeSize_append]
        omega
      · rw [List.append_assoc, hshift, hshift, hsame]

/-- What stands behind code whose jumps stay inside does not matter. -/
theorem followed (h : Tracks x outside [] kinds σ code τ) (beyond : List Instruction) : Tracks x outside beyond kinds σ code τ := by
  refine ⟨h.sight_eq, h.fair, fun before i after offset hcode hi => ?_⟩
  obtain ⟨before', after', hwhole, hsize, hsame⟩ := h.level before i after offset hcode hi
  rw [List.append_nil] at hwhole
  exact ⟨before', after' ++ beyond, by rw [hwhole, List.append_assoc], hsize, hsame⟩

/-- Code one behind the other. -/
theorem seq (ha : Tracks x outside [] kinds σ a τ) (hb : Tracks x outside beyond (kinds.drop (storeCount a)) τ b υ) :
    Tracks x outside beyond kinds σ (a ++ b) υ := (ha.followed _).append hb

/-- An instruction that does not jump, in front of code. -/
theorem cons {i : Instruction} (hi : i.Fair x outside σ code) (hjump : i.jumpOffset? = none)
    (hcode : Tracks x outside beyond (kinds.drop (storeCount [i])) (i.look x (kinds.headD false) σ) code τ) :
    Tracks x outside beyond kinds σ (i :: code) τ := by
  constructor
  case sight_eq => exact hcode.sight_eq
  case fair =>
    intro before j after h
    cases before with
    | nil =>
      cases h
      exact hi
    | cons k before =>
      cases h
      exact hcode.fair before j after rfl
  case level =>
    intro before j after offset h hj
    cases before with
    | nil =>
      cases h
      rw [hjump] at hj
      cases hj
    | cons k before =>
      cases h
      obtain ⟨before', after', hwhole, hsize, hsame⟩ := hcode.level before j after offset rfl hj
      refine ⟨i :: before', after', by rw [List.cons_append, hwhole]; rfl, ?_, hsame⟩
      rw [List.cons_append, codeSize, codeSize]
      omega

/-- An instruction that does not jump. -/
theorem instruction {i : Instruction} (hi : i.Fair x outside σ []) (hjump : i.jumpOffset? = none) :
    Tracks x outside beyond kinds σ [i] (i.look x (kinds.headD false) σ) := cons hi hjump nil

/-- Code that leaves scopes and bindings as they are, in front of code that its jumps skip. -/
theorem still {skipped : List Instruction} (hstill : Still code) (hfair : ∀ i ∈ code, i.Fair x outside σ [])
    (hclosed : Closed (codeSize skipped) code) (hskipped : sight x skipped kinds σ = σ) :
    Tracks x outside (skipped ++ beyond) kinds σ code σ := by
  have hhere : ∀ before after, code = before ++ after → sight x before kinds σ = σ := by
    rintro before after rfl
    exact hstill.left.sight_eq
  refine ⟨hstill.sight_eq, fun before i after h => ?_, fun before i after offset h hi => ?_⟩
  · rw [hhere before _ h]
    exact (hfair i (by rw [h]; simp)).append after
  · obtain ⟨-, target, hlands, htarget⟩ := hclosed (codeSize before) i offset ⟨before, after, by simpa using h, rfl⟩ hi
    have hsource : sight x (before ++ [i]) kinds σ = σ := hhere _ after (by simpa using h)
    rw [landing?_eq_some] at hlands
    have hsize : codeSize (before ++ [i]) = codeSize before + i.width := codeSize_concat before i
    rcases htarget with ⟨before', after', hcode, hbefore⟩ | rfl
    · rw [List.nil_append] at hcode
      refine ⟨before', after' ++ (skipped ++ beyond), by rw [hcode, List.append_assoc], by omega, ?_⟩
      rw [hhere before' after' hcode, hsource]
    · refine ⟨code ++ skipped, beyond, by rw [List.append_assoc], ?_, ?_⟩
      · rw [codeSize_append]
        omega
      · rw [sight_append, hstill.sight_eq, hstill.storeCount_eq, List.drop_zero, hskipped, hsource]

/-- Code in a scope of its own. -/
theorem enclosed {s : Option Bool} (hσ : σ ≠ []) (h : Tracks x outside [] kinds (none :: σ) code (s :: σ)) :
    Tracks x outside [] kinds σ (enclosed code) σ := by
  have henter : Tracks x outside [] kinds σ [.enterScope] (none :: σ) := instruction trivial rfl
  have hexit : Tracks x outside [] ((kinds.drop 0).drop (storeCount code)) (s :: σ) [.exitScope] σ := by
    refine instruction ?_ rfl
    have hpos : 0 < σ.length := List.length_pos_iff.2 hσ
    change 2 ≤ (s :: σ).length
    rw [List.length_cons]
    omega
  have hbody : Tracks x outside [] (kinds.drop 0) (none :: σ) code (s :: σ) := h
  exact henter.seq (hbody.seq hexit)

/-- Code with a jump back to its start. -/
theorem loop {d : Int32} (h : Tracks x outside [.jump .loop d] kinds σ code σ)
    (hd : d.toInt = -((codeSize code + Fragment.jumpWidth : Nat) : Int)) :
    Tracks x outside [] kinds σ (code ++ [.jump .loop d]) σ := by
  have hwhole : sight x (code ++ [.jump .loop d]) kinds σ = σ := by
    rw [sight_append, h.sight_eq]
    rfl
  refine ⟨hwhole, fun before i after hcode => ?_, fun before i after offset hcode hi => ?_⟩
  · rcases append_eq_cons_cases hcode with ⟨rest, hleft, rfl⟩ | ⟨rest, rfl, hright⟩
    · exact (h.fair before i rest hleft).append _
    · cases rest with
      | nil =>
        simp only [List.nil_append, List.cons.injEq] at hright
        rw [← hright.1]
        trivial
      | cons k rest => simp at hright
  · rcases append_eq_cons_cases hcode with ⟨rest, hleft, -⟩ | ⟨rest, rfl, hright⟩
    · obtain ⟨before', after', hall, hsize, hsame⟩ := h.level before i rest offset hleft hi
      exact ⟨before', after', by rw [List.append_nil, hall], hsize, hsame⟩
    · cases rest with
      | nil =>
        simp only [List.nil_append, List.cons.injEq] at hright
        obtain ⟨rfl, rfl⟩ := hright
        cases hi
        refine ⟨[], code ++ [.jump .loop d], by simp, ?_, ?_⟩
        · rw [List.append_nil, codeSize_concat, width_jump, hd]
          simp only [codeSize]
          omega
        · rw [List.append_nil, hwhole, sight_nil]
      | cons k rest => simp at hright

/-- What is right where the name is bound as a constant outside is right anywhere. -/
theorem anywhere (h : Tracks x outside beyond kinds σ code τ) : Tracks x false beyond kinds σ code τ := by
  refine ⟨h.sight_eq, fun before i after hcode => ?_, h.level⟩
  have hfair := h.fair before i after hcode
  generalize sight x before kinds σ = υ at hfair
  cases i with
  | setName n =>
    intro hn
    have hblocked := hfair hn
    unfold Sight.blocked at hblocked ⊢
    cases hnear : υ.nearest with
    | none => rfl
    | some b =>
      rw [hnear] at hblocked
      exact hblocked
  | makeFunction p =>
    intro hblocked
    apply hfair
    unfold Sight.blocked at hblocked ⊢
    cases hnear : υ.nearest with
    | none =>
      rw [hnear] at hblocked
      cases hblocked
    | some b =>
      rw [hnear] at hblocked
      exact hblocked
  | _ => exact hfair

/-- Code that is right where the name is bound as a constant outside does not assign it. -/
theorem not_assigns {params : List String} (hcode : Checked code) (h : Tracks x true beyond kinds (.entry x params) code τ) :
    ¬Assigns x params (encodeAll code) := by
  have hblocked : ∀ before, Unbound x params before → (sight x before kinds (.entry x params)).blocked true = true := by
    intro before hopen
    have hnone : (sight x before kinds (.entry x params)).nearest = none := (nearest_sight_eq_none before rfl).1 hopen
    rw [Sight.blocked, hnone]
    rfl
  intro hassigns
  -- The constructors of `Assigns` speak of the bytes of some code, which can only be this code.
  generalize hbytes : encodeAll code = bytes at hassigns
  cases hassigns with
  | @here _ before after hchecked hopen =>
    obtain rfl := encodeAll_inj hcode hchecked hbytes
    have hfree := h.fair before _ after rfl rfl
    rw [hblocked before hopen] at hfree
    cases hfree
  | @inside _ before after p hchecked hopen hfree hinside =>
    obtain rfl := encodeAll_inj hcode hchecked hbytes
    exact h.fair before _ after rfl (hblocked before hopen) hfree hinside

end Tracks

/-! ## Careful functions -/

/-- The code of a function or module that follows a name, and what it was compiled from. -/
structure Compiled (x : String) (known : List Stmt → Prop) (params : List String) (kinds : List Bool) (code : List Instruction) :
    Prop where
  checked : Checked code
  source : ∃ body front, known body ∧ StmtsCode body front ∧ kinds = Stmt.allKinds body ∧
    (code = front ∨ code = front ++ Compile.returnNull)
  tracks : ∃ τ, Tracks x false [] kinds (.entry x params) code τ

/-- The bytes of a function that follows a name, as do the functions inside it. -/
inductive Careful (x : String) (known : List Stmt → Prop) : List String → List UInt8 → Prop where
  | mk {params : List String} {kinds : List Bool} {code : List Instruction} : Compiled x known params kinds code →
      (∀ p, .makeFunction p ∈ code → Careful x known p.params p.body) → Careful x known params (encodeAll code)

/-- Careful bytes are those of code that was compiled to follow the name, as are the functions in it. -/
theorem Careful.compiled {known : List Stmt → Prop} {params : List String} {bytes : List UInt8} (h : Careful x known params bytes) :
    ∃ kinds code, bytes = encodeAll code ∧ Compiled x known params kinds code ∧
      ∀ p, .makeFunction p ∈ code → Careful x known p.params p.body := by
  cases h with
  | mk hcompiled hfunctions => exact ⟨_, _, rfl, hcompiled, hfunctions⟩

end ScriptVM
