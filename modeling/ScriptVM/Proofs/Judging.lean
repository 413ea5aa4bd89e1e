import ScriptVM.Proofs.Following
import ScriptVM.Proofs.Rules

/-!
# Compilations against rules

While the compiler walks over a tree, its scopes are the context of the place that it has reached. Each of its parts is judged
against one rule and one size (`Judges`): it succeeds only if the rule holds, and then leaves the scopes of the context behind it;
and it fails only if the rule is broken or an operand is too large, for which the size must be large too. Parts are judged one
behind the other.
-/

namespace ScriptVM

open Compile

/-! ## Scopes as contexts -/

/-- What scopes declare, as the rules see it. -/
def outline (scopes : List Scope) : List Level := scopes.map fun s => ⟨s.kind, s.symbols.map fun y => ⟨y.name, y.isConst⟩⟩

/-- Texts that can be written, among them all that a program holds. -/
structure Vocabulary where
  texts : List String
  nulFree : ∀ t ∈ texts, '\x00' ∉ t.toList

/-- Names of a vocabulary, each listed once. -/
structure Captures (V : Vocabulary) (names : List String) : Prop where
  nodup : names.Nodup
  subset : ∀ x ∈ names, x ∈ V.texts

/-- The scopes of the compiler are those of a context, and capture names of a vocabulary. -/
structure Context.Describes (V : Vocabulary) (Γ : Context) (scopes : List Scope) : Prop where
  outline_eq : outline scopes = Γ.levels
  captures : ∀ s ∈ scopes, Captures V s.captures

/-- Scopes of one shape declare the same. -/
theorem outline_eq_of_shape {s s' : List Scope} (h : shape s' = shape s) : outline s' = outline s := by
  have hshape (s : List Scope) : outline s =
      (shape s).map fun p => ⟨p.1, p.2.map fun y => ⟨y.name, y.isConst⟩⟩ := by simp [outline, shape]
  rw [hshape, hshape, h]

section

variable {V : Vocabulary}

/-- There is an innermost scope. -/
theorem Context.Describes.exists_cons {Γ : Context} {s : List Scope} (h : Γ.Describes V s) :
    ∃ sc outer, s = sc :: outer ∧ sc.kind = Γ.innermost.kind ∧
      (sc.symbols.map fun y => ⟨y.name, y.isConst⟩) = Γ.innermost.names ∧ outline outer = Γ.outer := by
  obtain ⟨houtline, -⟩ := h
  cases s with
  | nil => cases houtline
  | cons sc outer =>
    obtain ⟨hhead, htail⟩ := List.cons.inj houtline
    exact ⟨sc, outer, rfl, by rw [← hhead], by rw [← hhead], htail⟩

/-! ## Judging -/

/-- An operand is too large, where the size of the code is beyond the reach of a jump. -/
def CompileCause.Exceeds (size : Nat) (cause : CompileCause) : Prop := cause.Oversized ∧ 2 ^ 31 ≤ size

/-- In the scopes of a context, a compilation succeeds only if a rule holds, and then it leaves the scopes of another context and
answers as described; and it fails because the rule is broken, or because an operand and this size are too large. -/
structure Judges {α : Type} (V : Vocabulary) (size : Nat) (Γ : Context) (c : CompileM α) (rule : Prop) (Γ' : Context)
    (post : α → Prop) : Prop where
  accepts : ∀ s a s', Γ.Describes V s → c s = .ok (a, s') → rule ∧ Γ'.Describes V s' ∧ post a
  refuses : ∀ s e, Γ.Describes V s → c s = .error e → e.1.Exceeds size ∨ ¬e.1.Oversized ∧ ¬rule

/-- A compilation that is judged and whose answer does not matter. -/
abbrev Decides {α : Type} (V : Vocabulary) (size : Nat) (Γ : Context) (c : CompileM α) (rule : Prop) (Γ' : Context) : Prop :=
  Judges V size Γ c rule Γ' fun _ => True

/-- A compilation that is judged and emits code of at most this size. -/
abbrev Builds (V : Vocabulary) (size : Nat) (Γ : Context) (c : CompileM (List Instruction)) (rule : Prop) (Γ' : Context) : Prop :=
  Judges V size Γ c rule Γ' (codeSize · ≤ size)

/-- The first failure of two computations. -/
theorem bind_eq_error {ε α β : Type} {x : Except ε α} {f : α → Except ε β} {e : ε} (h : (x >>= f) = .error e) :
    x = .error e ∨ ∃ a, x = .ok a ∧ f a = .error e := by
  cases x with
  | error e' =>
    cases h
    exact .inl rfl
  | ok a => exact .inr ⟨a, rfl, h⟩

/-- A failure of two steps in sequence is one of the first, or of the second after the first succeeded. -/
theorem Compile.bind_eq_error {α β : Type} {c : CompileM α} {f : α → CompileM β} {s : List Scope} {e : CompileCause × Span}
    (h : (c >>= f) s = .error e) : c s = .error e ∨ ∃ a s', c s = .ok (a, s') ∧ f a s' = .error e := by
  rcases ScriptVM.bind_eq_error (x := c s) (f := fun p => f p.1 p.2) h with hc | ⟨⟨a, s'⟩, hc, hf⟩
  · exact .inl hc
  · exact .inr ⟨a, s', hc, hf⟩

namespace Judges

variable {α β : Type} {size size' : Nat} {Γ Γ' Γ'' : Context} {c : CompileM α} {f : α → CompileM β} {rule rule' : Prop}
  {post : α → Prop} {post' : β → Prop}

theorem congr (h : Judges V size Γ c rule Γ' post) (hrule : rule ↔ rule') : Judges V size Γ c rule' Γ' post := by
  rwa [propext hrule] at h

/-- A weaker description of the answer is true as well. -/
theorem imp {weaker : α → Prop} (h : Judges V size Γ c rule Γ' post) (hpost : ∀ a, post a → weaker a) :
    Judges V size Γ c rule Γ' weaker := by
  refine ⟨fun s a s' hs hr => ?_, h.refuses⟩
  obtain ⟨hrule, hs', ha⟩ := h.accepts s a s' hs hr
  exact ⟨hrule, hs', hpost a ha⟩

/-- A part of a larger whole. -/
theorem within (h : Judges V size Γ c rule Γ' post) (hle : size ≤ size') : Judges V size' Γ c rule Γ' post :=
  ⟨h.accepts, fun s e hs hr => (h.refuses s e hs hr).imp_left fun hexceeds => ⟨hexceeds.1, Nat.le_trans hexceeds.2 hle⟩⟩

/-- A compilation is judged by what it answers in each state. -/
theorem of_answers (h : ∀ s, Γ.Describes V s → (∃ a s', c s = .ok (a, s') ∧ rule ∧ Γ'.Describes V s' ∧ post a) ∨
    ∃ e, c s = .error e ∧ (e.1.Exceeds size ∨ ¬e.1.Oversized ∧ ¬rule)) : Judges V size Γ c rule Γ' post := by
  constructor
  · intro s a s' hs hr
    rcases h s hs with ⟨b, s'', hok, hafter⟩ | ⟨e, herror, -⟩
    · rw [hr] at hok
      cases hok
      exact hafter
    · rw [hr] at herror
      cases herror
  · intro s e hs hr
    rcases h s hs with ⟨b, s'', hok, -⟩ | ⟨e', herror, hwhy⟩
    · rw [hr] at hok
      cases hok
    · rw [hr] at herror
      cases herror
      exact hwhy

theorem pure {a : α} (h : post a) : Judges V size Γ (Pure.pure a) True Γ post :=
  of_answers fun s hs => .inl ⟨a, s, rfl, trivial, hs, h⟩

/-- The second compilation is judged where the first one succeeded. -/
theorem bind (hc : Judges V size Γ c rule Γ' post) (hf : ∀ a, post a → Judges V size Γ' (f a) rule' Γ'' post') :
    Judges V size Γ (c >>= f) (rule ∧ rule') Γ'' post' := by
  constructor
  · intro s b s'' hs hr
    obtain ⟨a, s', hfirst, hrest⟩ := Compile.bind_eq_ok hr
    obtain ⟨hrule, hs', ha⟩ := hc.accepts s a s' hs hfirst
    obtain ⟨hrule', hs'', hb⟩ := (hf a ha).accepts s' b s'' hs' hrest
    exact ⟨⟨hrule, hrule'⟩, hs'', hb⟩
  · intro s e hs hr
    rcases Compile.bind_eq_error hr with hfirst | ⟨a, s', hfirst, hrest⟩
    · exact (hc.refuses s e hs hfirst).imp_right fun hnot => ⟨hnot.1, fun hand => hnot.2 hand.1⟩
    · obtain ⟨-, hs', ha⟩ := hc.accepts s a s' hs hfirst
      exact ((hf a ha).refuses s' e hs' hrest).imp_right fun hnot => ⟨hnot.1, fun hand => hnot.2 hand.2⟩

/-- What is done behind a compilation without a rule of its own. -/
theorem andThen (hc : Judges V size Γ c rule Γ' post) (hf : ∀ a, post a → Judges V size Γ' (f a) True Γ'' post') :
    Judges V size Γ (c >>= f) rule Γ'' post' := (hc.bind hf).congr (by rw [and_true])

/-- What is done before a compilation without a rule of its own. -/
theorem before (hc : Judges V size Γ c True Γ' post) (hf : ∀ a, post a → Judges V size Γ' (f a) rule Γ'' post') :
    Judges V size Γ (c >>= f) rule Γ'' post' := (hc.bind hf).congr (by rw [true_and])

/-- A failure for another reason than size is right where the rule is broken. -/
theorem fail {span : Span} {cause : CompileCause} (hcause : ¬cause.Oversized) (h : ¬rule) :
    Judges V size Γ (Compile.fail span cause : CompileM α) rule Γ' post :=
  of_answers fun _ _ => .inr ⟨_, rfl, .inr ⟨hcause, h⟩⟩

/-- Such a failure is right whatever would come after it. -/
theorem fail_bind {span : Span} {cause : CompileCause} (hcause : ¬cause.Oversized) (h : ¬rule) :
    Judges V size Γ (Compile.fail span cause >>= f) rule Γ' post' := of_answers fun _ _ => .inr ⟨_, rfl, .inr ⟨hcause, h⟩⟩

end Judges

/-! ## Operands -/

/-- A distance is refused only when it is beyond the reach of a jump. -/
theorem jumpDistance_eq_error {distance : Int} {e : EmitError} (h : jumpDistance distance = .error e) :
    (CompileCause.emit e).Exceeds distance.natAbs := by
  unfold jumpDistance at h
  split at h
  · cases h
  · rename_i hfits
    cases h
    refine ⟨Bool.eq_false_iff.2 hfits, ?_⟩
    rw [fits32, decide_eq_true_eq] at hfits
    omega

/-- A fragment is not resolved only when it is beyond the reach of a jump. -/
theorem resolve_eq_error {f : Fragment} {beyond : Nat} {e : EmitError} (h : f.resolve beyond = .error e) :
    (CompileCause.emit e).Exceeds (f.size + beyond) := by
  induction f with
  | nil => cases h
  | cons item f ih =>
    cases item with
    | done i =>
      rcases bind_eq_error h with hrest | ⟨_, _, hlast⟩
      · obtain ⟨hoversized, hle⟩ := ih hrest
        exact ⟨hoversized, by rw [Fragment.size]; omega⟩
      · cases hlast
    | pending kind =>
      rcases bind_eq_error h with hjump | ⟨_, _, hrest⟩
      · obtain ⟨hoversized, hle⟩ := jumpDistance_eq_error hjump
        exact ⟨hoversized, by rw [Fragment.size]; omega⟩
      · rcases bind_eq_error hrest with hrest | ⟨_, _, hlast⟩
        · obtain ⟨hoversized, hle⟩ := ih hrest
          exact ⟨hoversized, by rw [Fragment.size]; omega⟩
        · cases hlast

/-- A count is refused only when it is above its limit. -/
theorem checkCount_eq_error {what : String} {count limit : Nat} (hlimit : (what, limit) ∈ countLimits) {e : EmitError}
    (h : Instruction.checkCount what count limit = .error e) : (CompileCause.emit e).Oversized ∧ limit < count := by
  unfold Instruction.checkCount at h
  split at h
  · rename_i hlt
    cases h
    exact ⟨⟨hlimit, hlt⟩, hlt⟩
  · cases h

/-- A text without a NUL can be written. -/
theorem check_text {i : Instruction} {x : String} (hi : i.strings = [x]) (hne : ∀ p, i ≠ .makeFunction p) (hx : '\x00' ∉ x.toList) :
    i.check = .ok () := by
  have hstrings : i.strings.forM Instruction.checkString = .ok () := Instruction.forM_checkString_eq_ok.2 (by simpa [hi] using hx)
  unfold Instruction.check
  rw [hstrings]
  cases i with
  | makeFunction p => exact absurd rfl (hne p)
  | _ => rfl

/-- A count above its limit has an excess. -/
theorem le_excess {limit count : Nat} (h : limit < count) : 2 ^ 31 ≤ excess limit count :=
  Nat.le_of_eq (if_neg (Nat.not_le.2 h)).symm

namespace Judges

variable {α : Type} {size : Nat} {Γ : Context} {span : Span}

/-- An encoding breaks no rule when it fails for size only. -/
theorem encoding {x : Except EmitError α} (h : ∀ e, x = .error e → (CompileCause.emit e).Exceeds size) :
    Judges V size Γ (Compile.encoding span x) True Γ fun a => x = .ok a := by
  cases x with
  | ok a => exact pure rfl
  | error e => exact of_answers fun _ _ => .inr ⟨_, rfl, .inl (h e rfl)⟩

/-- An instruction whose operands can be written. -/
theorem emit {i : Instruction} (hi : i.check = .ok ()) : Judges V size Γ (Compile.emit span i) True Γ (· = [i]) := by
  rw [Compile.emit, hi]
  exact pure rfl

theorem place {beyond : Nat} {f : Fragment} (h : f.size + beyond ≤ size) :
    Judges V size Γ (Compile.place span beyond f) True Γ (codeSize · = f.size) := by
  have hplaced : Judges V (f.size + beyond) Γ (Compile.place span beyond f) True Γ fun code => f.resolve beyond = .ok code :=
    encoding fun _ => resolve_eq_error
  exact (hplaced.within h).imp fun _ => Fragment.codeSize_of_resolve

theorem jumpBy {kind : JumpKind} {distance : Int} (h : distance.natAbs ≤ size) :
    Judges V size Γ (Compile.jumpBy span kind distance) True Γ (codeSize · = Fragment.jumpWidth) := by
  have hjump : Judges V distance.natAbs Γ (Compile.encoding span (jumpDistance distance)) True Γ fun d =>
      jumpDistance distance = .ok d := encoding fun _ => jumpDistance_eq_error
  exact (hjump.within h).andThen fun _ _ => pure rfl

/-- A count breaks no rule, as long as each excess takes code too. -/
theorem checkCount {what : String} {count limit : Nat} (hlimit : (what, limit) ∈ countLimits) (h : excess limit count ≤ size) :
    Decides V size Γ (Compile.checkCount span what count limit) True Γ := by
  unfold Compile.checkCount
  split
  · rename_i hlt
    exact of_answers fun _ _ => .inr ⟨_, rfl, .inl ⟨⟨hlimit, hlt⟩, Nat.le_trans (le_excess hlt) h⟩⟩
  · exact pure trivial

end Judges

/-! ## Names -/

/-- Names are resolved as the rules see them. -/
theorem isConst_shape (x : String) (s : List Scope) :
    (shape s).isConst x = (((outline s).flatMap Level.names).find? (·.name == x)).any DeclaredName.isConst := by
  induction s with
  | nil => rfl
  | cons sc outer ih =>
    have houtline : outline (sc :: outer) =
        ⟨sc.kind, sc.symbols.map fun y => ⟨y.name, y.isConst⟩⟩ :: outline outer := rfl
    change (Shape.standing x sc.symbols).getD ((shape outer).isConst x) = _
    rw [ih, houtline, List.flatMap_cons, List.find?_append, List.find?_map, Shape.standing]
    change _ = Option.any DeclaredName.isConst (((sc.symbols.find? fun y => y.name == x).map _).or _)
    cases sc.symbols.find? fun y => y.name == x with
    | none => rfl
    | some y => rfl

/-- A scope captures a name that is resolved, and no other. -/
theorem captures_of_resolve {x : String} {s s' : List Scope} {y : Symbol} (h : Scope.resolve x s = some (y, s')) :
    ∀ sc' ∈ s', ∃ sc ∈ s, sc'.captures = sc.captures ∨ x ∉ sc.captures ∧ sc'.captures = sc.captures ++ [x] := by
  induction s generalizing y s' with
  | nil => cases h
  | cons sc outer ih =>
    unfold Scope.resolve at h
    split at h
    · cases h
      exact fun sc' hsc => ⟨sc', hsc, .inl rfl⟩
    · obtain ⟨⟨y', outer'⟩, hrest, heq⟩ := Option.map_eq_some_iff.1 h
      cases heq
      intro sc' hsc
      rcases List.mem_cons.1 hsc with rfl | hsc
      · refine ⟨sc, List.mem_cons_self, ?_⟩
        split
        · unfold Scope.capture
          split
          · exact .inl rfl
          · rename_i hnew
            exact .inr ⟨fun hx => hnew (List.contains_iff_mem.2 hx), rfl⟩
        · exact .inl rfl
      · obtain ⟨sc₀, hmem, hcaptures⟩ := ih hrest sc' hsc
        exact ⟨sc₀, List.mem_cons_of_mem _ hmem, hcaptures⟩

theorem captures_of_markReturned {s s' : List Scope} (h : Scope.markReturned s = some s') :
    s'.map Scope.captures = s.map Scope.captures := by
  induction s generalizing s' with
  | nil => cases h
  | cons sc outer ih =>
    unfold Scope.markReturned at h
    split at h
    · cases h
      rfl
    · obtain ⟨outer', hrest, rfl⟩ := Option.map_eq_some_iff.1 h
      rw [List.map_cons, List.map_cons, ih hrest]

/-- A return can be marked just if a function is around it. -/
theorem isSome_markReturned {s : List Scope} : (Scope.markReturned s).isSome = true ↔ ∃ l ∈ outline s, l.kind = .function := by
  induction s with
  | nil => simp [Scope.markReturned, outline]
  | cons sc outer ih =>
    unfold Scope.markReturned
    split
    · rename_i hkind
      simp [outline, hkind]
    · rename_i hkind
      rw [Option.isSome_map, ih]
      simp [outline, hkind]

/-- A new name of the vocabulary can be captured. -/
theorem Captures.concat {names : List String} {x : String} (h : Captures V names) (hnew : x ∉ names) (hx : x ∈ V.texts) :
    Captures V (names ++ [x]) := by
  refine ⟨?_, fun z hz => ?_⟩
  · rw [List.nodup_append]
    refine ⟨h.nodup, by simp, fun a ha b hb => ?_⟩
    rw [List.mem_singleton.1 hb]
    exact fun heq => hnew (heq ▸ ha)
  · rcases List.mem_append.1 hz with hz | hz
    · exact h.subset z hz
    · rw [List.mem_singleton.1 hz]
      exact hx

/-- A further symbol in the innermost scope is refused exactly if its name is declared there. -/
theorem Context.Describes.declare? {Γ : Context} {sc : Scope} {outer : List Scope} (h : Γ.Describes V (sc :: outer)) (y : Symbol) :
    (sc.declare? y = none ∧ Γ.Declares y.name) ∨
      ∃ sc', sc.declare? y = some sc' ∧ ¬Γ.Declares y.name ∧ (Γ.declare y.name y.isConst).Describes V (sc' :: outer) := by
  obtain ⟨hhead, htail⟩ := List.cons.inj h.outline_eq
  have hdeclares : Γ.Declares y.name ↔ (sc.lookup? y.name).isSome = true := by
    rw [Context.Declares, ← hhead, Scope.lookup?, List.find?_isSome]
    constructor
    · rintro ⟨_, hd, hname⟩
      obtain ⟨z, hz, rfl⟩ := List.mem_map.1 hd
      exact ⟨z, hz, beq_iff_eq.2 hname⟩
    · rintro ⟨z, hz, hname⟩
      exact ⟨_, List.mem_map_of_mem hz, beq_iff_eq.1 hname⟩
  by_cases hfound : (sc.lookup? y.name).isSome = true
  · exact .inl ⟨if_pos hfound, hdeclares.2 hfound⟩
  · refine .inr ⟨_, if_neg hfound, fun hd => hfound (hdeclares.1 hd), List.cons_eq_cons.2 ⟨?_, htail⟩, fun s hs => ?_⟩
    · rw [Context.declare, ← hhead]
      rfl
    · rcases List.mem_cons.1 hs with rfl | hs
      · exact h.captures sc List.mem_cons_self
      · exact h.captures s (List.mem_cons_of_mem _ hs)

/-- A declaration is refused where it is not allowed and where its name is taken. -/
theorem Context.Describes.declare_allowed {Γ : Context} {sc : Scope} {outer : List Scope} (h : Γ.Describes V (sc :: outer))
    {y : Symbol} {span : Span} {misplaced taken : CompileCause} {allowed : Bool} {rule : Prop} {size : Nat}
    (hmisplaced : ¬misplaced.Oversized) (htaken : ¬taken.Oversized) (hallowed : allowed = true ↔ rule) :
    let c : CompileM Unit := if !allowed then fail span misplaced else
      match sc.declare? y with
      | some sc => set (sc :: outer)
      | none => fail span taken
    (∃ a s', c (sc :: outer) = .ok (a, s') ∧ (rule ∧ ¬Γ.Declares y.name) ∧ (Γ.declare y.name y.isConst).Describes V s' ∧
        True) ∨
      ∃ e, c (sc :: outer) = .error e ∧ (e.1.Exceeds size ∨ ¬e.1.Oversized ∧ ¬(rule ∧ ¬Γ.Declares y.name)) := by
  intro c
  cases allowed with
  | false => exact .inr ⟨_, rfl, .inr ⟨hmisplaced, fun hrule => Bool.false_ne_true (hallowed.2 hrule.1)⟩⟩
  | true =>
    rcases h.declare? y with ⟨hnone, hold⟩ | ⟨sc', hsome, hnew, hs'⟩
    · simp only [c, hnone]
      exact .inr ⟨_, rfl, .inr ⟨htaken, fun hrule => hrule.2 hold⟩⟩
    · simp only [c, hsome]
      exact .inl ⟨(), sc' :: outer, rfl, ⟨hallowed.1 rfl, hnew⟩, hs', trivial⟩

/-- A scope allows what the rules let stand in it. -/
theorem ScopeKind.allows_iff {scope : ScopeKind} {k : DeclKind} : scope.allows k = true ↔ k.MayStandIn scope := by
  cases scope <;> cases k <;> simp [ScopeKind.allows, DeclKind.MayStandIn]

namespace Judges

variable {size : Nat} {Γ : Context} {span : Span} {x : String}

/-- A name is resolved to its innermost visible declaration. -/
theorem resolve (hx : x ∈ V.texts) :
    Judges V size Γ (Compile.resolve x) True Γ fun y => (Γ.visible? x).any DeclaredName.isConst = y.any Symbol.isConst := by
  refine of_answers fun s hs => .inl ?_
  have hconst : (Γ.visible? x).any DeclaredName.isConst = (shape s).isConst x := by
    rw [isConst_shape, hs.outline_eq]
    rfl
  rw [Compile.resolve, Compile.get_bind, hconst]
  cases hfound : Scope.resolve x s with
  | none => exact ⟨none, s, rfl, trivial, hs, isConst_of_resolve_eq_none hfound⟩
  | some found =>
    obtain ⟨y, s'⟩ := found
    obtain ⟨hshape, hy⟩ := shape_of_resolve hfound
    refine ⟨some y, s', rfl, trivial, ⟨(outline_eq_of_shape hshape).trans hs.outline_eq, fun sc hsc => ?_⟩, hy⟩
    obtain ⟨sc', hsc', heq | ⟨hnew, heq⟩⟩ := captures_of_resolve hfound sc hsc
    · rw [heq]
      exact hs.captures sc' hsc'
    · rw [heq]
      exact (hs.captures sc' hsc').concat hnew hx

/-- A return is allowed just inside a function. -/
theorem markReturned : Decides V size Γ (Compile.markReturned span) Γ.InFunction Γ := by
  refine of_answers fun s hs => ?_
  have hfound : (Scope.markReturned s).isSome = true ↔ Γ.InFunction := by
    rw [isSome_markReturned, hs.outline_eq]
    rfl
  rw [Compile.markReturned, Compile.get_bind]
  cases hmarked : Scope.markReturned s with
  | none =>
    rw [hmarked] at hfound
    exact .inr ⟨_, rfl, .inr ⟨id, fun hin => Bool.false_ne_true (hfound.2 hin)⟩⟩
  | some s' =>
    rw [hmarked] at hfound
    refine .inl ⟨(), s', rfl, hfound.1 rfl, ⟨(outline_eq_of_shape (shape_of_markReturned hmarked)).trans hs.outline_eq, ?_⟩, trivial⟩
    intro sc hsc
    have hmem : sc.captures ∈ s.map Scope.captures := captures_of_markReturned hmarked ▸ List.mem_map_of_mem hsc
    obtain ⟨sc', hsc', heq⟩ := List.mem_map.1 hmem
    rw [← heq]
    exact hs.captures sc' hsc'

/-- What a declaration asks of its scope, where `none` declares a function. -/
def Allowed (Γ : Context) : Option DeclKind → Prop
  | some k => k.MayStandIn Γ.innermost.kind
  | none => Γ.innermost.kind ≠ .single

/-- A declaration is allowed just if its kind may stand there and the innermost scope does not declare the name yet. -/
theorem declare {kind : Option DeclKind} :
    Decides V size Γ (Compile.declare span kind x) (Allowed Γ kind ∧ ¬Γ.Declares x) (Γ.declare x (kind = some .const)) := by
  refine of_answers fun s hs => ?_
  obtain ⟨sc, outer, rfl, hkind, -⟩ := hs.exists_cons
  have hcurrent : currentKind (sc :: outer) = Γ.innermost.kind := hkind
  rw [Compile.declare, Compile.get_bind, hcurrent]
  cases kind with
  | some k => exact hs.declare_allowed id id ScopeKind.allows_iff
  | none => exact hs.declare_allowed id id (by simp [ScopeKind.allowsFunction, Allowed])

/-- A parameter is allowed just if its name is new. -/
theorem declareParameter : Decides V size Γ (Compile.declareParameter span x) (¬Γ.Declares x) (Γ.declare x false) := by
  refine of_answers fun s hs => ?_
  obtain ⟨sc, outer, rfl, -⟩ := hs.exists_cons
  rw [Compile.declareParameter, Compile.get_bind]
  rcases hs.declare? ⟨x, false, false, span⟩ with ⟨hnone, hold⟩ | ⟨sc', hsome, hnew, hs'⟩
  · simp only [hnone]
    exact .inr ⟨_, rfl, .inr ⟨id, fun hrule => hrule hold⟩⟩
  · simp only [hsome]
    exact .inl ⟨(), sc' :: outer, rfl, hnew, hs', trivial⟩

/-- Parameters are declared one behind the other, each once. -/
theorem declareParameters {params : List String} : Decides V size Γ (params.forM (Compile.declareParameter span))
    (params.Nodup ∧ ∀ x ∈ params, ¬Γ.Declares x) (Γ.declareAll params) := by
  induction params generalizing Γ with
  | nil => exact (pure trivial).congr (by simp)
  | cons x params ih =>
    refine (declareParameter.bind fun _ _ => ih).congr ?_
    simp only [Context.declares_declare, List.nodup_cons, List.forall_mem_cons, not_or]
    grind

/-- What is compiled in a new scope, which is left again. -/
theorem inScope {α : Type} {kind : ScopeKind} {c : CompileM α} {rule : Prop} {Γ' : Context} {post : α → Prop}
    (hc : Judges V size (Γ.enter kind) c rule Γ' post) (houter : Γ'.outer = Γ.levels) :
    Judges V size Γ (Compile.inScope kind c) rule Γ fun r => post r.1 ∧ Captures V r.2.captures := by
  have henter {s : List Scope} (hs : Γ.Describes V s) : (Γ.enter kind).Describes V ({ kind } :: s) := by
    refine ⟨List.cons_eq_cons.2 ⟨rfl, hs.outline_eq⟩, fun sc hsc => ?_⟩
    rcases List.mem_cons.1 hsc with rfl | hsc
    · exact ⟨List.nodup_nil, by simp⟩
    · exact hs.captures sc hsc
  constructor
  · intro s r s'' hs hr
    obtain ⟨s', hbody, rfl, hscope⟩ := inScope_eq_ok hr
    obtain ⟨hrule, hs', ha⟩ := hc.accepts _ _ s' (henter hs) hbody
    obtain ⟨sc, outer, rfl, -, -, htail⟩ := hs'.exists_cons
    refine ⟨hrule, ⟨htail.trans houter, fun sc' hsc' => hs'.captures sc' (List.mem_cons_of_mem _ hsc')⟩, ha, ?_⟩
    rw [hscope]
    exact hs'.captures sc List.mem_cons_self
  · intro s e hs hr
    obtain hmodify | ⟨_, s₀, hmodify, hrest⟩ := Compile.bind_eq_error hr
    · cases hmodify
    · cases hmodify
      obtain hbody | ⟨a, s', hbody, hlast⟩ := Compile.bind_eq_error hrest
      · exact hc.refuses _ e (henter hs) hbody
      · cases hlast

end Judges

end

end ScriptVM
