import ScriptVM.Proofs.Judging
import ScriptVM.Proofs.Mentions

/-!
# Uses recorded in scopes

The scopes of the compiler keep the capture lists of the functions around a place. `Ledger.record` is what uses add to all of them at
once: each function that takes a name from outside notes it. A compilation `Records` uses when it adds just that, and leaves the
scopes of the context behind it. Parts are followed one behind the other, and a scope that is left hands over what it has noted.
-/

namespace ScriptVM

open Compile

/-! ## What uses add to the captures of all scopes -/

/-- The kinds of scopes and the names they capture, the innermost scope first. -/
abbrev Ledger := List (ScopeKind × List String)

/-- The ledger of the scopes of the compiler. -/
def ledger (scopes : List Scope) : Ledger := scopes.map fun s => (s.kind, s.captures)

/-- The ledger of one scope more has one line more. -/
theorem ledger_cons (s : Scope) (outer : List Scope) : ledger (s :: outer) = (s.kind, s.captures) :: ledger outer := rfl

/-- The ledger has a line for each scope. -/
theorem length_ledger (scopes : List Scope) : (ledger scopes).length = scopes.length := List.length_map _

namespace Ledger

/-- Uses add to each function what it takes from outside. -/
def record (us : List Use) : Ledger → Ledger
  | [] => []
  | (kind, names) :: outer =>
    (kind, if kind = .function then (taken outer.length us).foldl note names else names) :: record us outer

variable {us vs : List Use} {L : Ledger}

theorem length_record : (L.record us).length = L.length := by
  induction L with
  | nil => rfl
  | cons _ outer ih => rw [record, List.length_cons, List.length_cons, ih]

theorem record_nil : L.record [] = L := by
  induction L with
  | nil => rfl
  | cons _ outer ih => rw [record, ih, taken, List.filter_nil, List.map_nil, List.foldl_nil, ite_self]

/-- Uses in sequence are recorded one after the other. -/
theorem record_append : L.record (us ++ vs) = (L.record us).record vs := by
  induction L with
  | nil => rfl
  | cons _ outer ih =>
    rw [record, record, record, ih, length_record, taken, List.filter_append, List.map_append, List.foldl_append]
    split <;> rfl

/-- Uses that no function takes from outside add nothing. -/
theorem record_of_taken (h : ∀ depth < L.length, taken depth us = []) : L.record us = L := by
  induction L with
  | nil => rfl
  | cons _ outer ih =>
    rw [record, ih fun depth hlt => h depth (Nat.lt_succ_of_lt hlt), h _ (Nat.lt_succ_self _), List.foldl_nil, ite_self]

end Ledger

/-- The symbols of scopes are global in global scopes. -/
def GlobalsAreGlobal (scopes : List Scope) : Prop := ∀ s ∈ scopes, ∀ y ∈ s.symbols, y.isGlobal = decide (s.kind = .global)

/-- A scope as the rules see it. -/
def Scope.level (s : Scope) : Level := ⟨s.kind, s.symbols.map fun y => ⟨y.name, y.isConst⟩⟩

/-- The outline of one scope more has one level more. -/
theorem outline_cons (s : Scope) (outer : List Scope) : outline (s :: outer) = s.level :: outline outer := rfl

/-- A level declares just the names that are found in its scope. -/
theorem Scope.declares_level (s : Scope) (x : String) : s.level.declares x = (s.lookup? x).isSome := by
  rw [Level.declares, Scope.level, Scope.lookup?, List.isSome_find?, List.any_map]
  rfl

/-- A name that is not resolved has no home. -/
theorem dropWhile_of_resolve_eq_none {x : String} {s : List Scope} (h : Scope.resolve x s = none) :
    (outline s).dropWhile (!·.declares x) = [] := by
  induction s with
  | nil => rfl
  | cons sc outer ih =>
    unfold Scope.resolve at h
    split at h
    · cases h
    · rename_i hnone
      rw [outline_cons, List.dropWhile_cons_of_pos (by simp [sc.declares_level, hnone])]
      exact ih (Option.map_eq_none_iff.1 h)

/-- A name that is resolved is recorded where it is taken from outside. -/
theorem ledger_of_resolve {u : Use} {s s' : List Scope} {y : Symbol} (hs : GlobalsAreGlobal s)
    (hhome : u.context.home u.name = (outline s).dropWhile (!·.declares u.name)) (h : Scope.resolve u.name s = some (y, s')) :
    ledger s' = (ledger s).record [u] ∧
      ∃ l around, u.context.home u.name = l :: around ∧ around.length < s.length ∧ y.isGlobal = decide (l.kind = .global) := by
  -- The scopes are followed outward, up to the one that declares the name.
  induction s generalizing s' y with
  | nil => cases h
  | cons sc outer ih =>
    have hdeclares := sc.declares_level u.name
    unfold Scope.resolve at h
    split at h
    · rename_i hfound
      cases h
      rw [outline_cons, List.dropWhile_cons_of_neg (by simp [hdeclares, hfound])] at hhome
      have hlength : (outline outer).length = outer.length := List.length_map _
      refine ⟨(Ledger.record_of_taken fun depth hlt => ?_).symm, sc.level, outline outer, hhome, ?_, ?_⟩
      · have hle : depth ≤ outer.length := by simpa [ledger] using Nat.lt_succ_iff.1 hlt
        simp [taken, Use.isTaken, hhome, hlength, hle]
      · simp [hlength]
      · exact hs sc List.mem_cons_self y (List.mem_of_find?_eq_some hfound)
    · rename_i hnone
      obtain ⟨⟨y', outer'⟩, hrest, heq⟩ := Option.map_eq_some_iff.1 h
      cases heq
      rw [outline_cons, List.dropWhile_cons_of_pos (by simp [hdeclares, hnone])] at hhome
      obtain ⟨hledger, l, around, hl, hlt, hglobal⟩ := ih (fun sc' hsc' => hs sc' (List.mem_cons_of_mem _ hsc')) hhome hrest
      refine ⟨?_, l, around, hl, Nat.lt_succ_of_lt hlt, hglobal⟩
      have htaken : taken outer.length [u] = if y.isGlobal then [] else [u.name] := by
        simp only [taken, List.filter_cons, List.filter_nil, Use.isTaken, hl, hglobal]
        cases hkind : decide (l.kind = .global) <;> simp_all
      rw [ledger_cons, ledger_cons, Ledger.record, length_ledger, htaken, hledger]
      congr 1
      by_cases hkind : sc.kind = .function
      · cases hy : y.isGlobal with
        | false => simp [hkind, captures_capture, kind_capture]
        | true => simp [hkind]
      · simp [hkind]

/-! ## Compilations that record uses -/

/-- The scopes of the compiler are those of a context. -/
structure Context.Spans (Γ : Context) (scopes : List Scope) : Prop where
  outline_eq : outline scopes = Γ.levels
  isGlobal : GlobalsAreGlobal scopes

/-- What scopes declare says whether they are those of a context. -/
theorem Context.Spans.of_shape {Γ : Context} {s s' : List Scope} (h : Γ.Spans s) (hshape : shape s' = shape s) : Γ.Spans s' := by
  refine ⟨(outline_eq_of_shape hshape).trans h.outline_eq, fun sc' hsc' y hy => ?_⟩
  have hmem : (sc'.kind, sc'.symbols) ∈ shape s := hshape ▸ List.mem_map_of_mem hsc'
  obtain ⟨sc, hsc, heq⟩ := List.mem_map.1 hmem
  obtain ⟨hkind, hsymbols⟩ := Prod.mk.inj heq
  rw [← hkind]
  exact h.isGlobal sc hsc y (hsymbols ▸ hy)

/-- A further symbol of the innermost scope, which is global if the scope is. -/
theorem Context.Spans.declare {Γ : Context} {sc sc' : Scope} {outer : List Scope} (h : Γ.Spans (sc :: outer)) {y : Symbol}
    (hy : y.isGlobal = decide (Γ.innermost.kind = .global)) (hdeclare : sc.declare? y = some sc') :
    (Γ.declare y.name y.isConst).Spans (sc' :: outer) ∧ ledger (sc' :: outer) = ledger (sc :: outer) := by
  obtain ⟨hhead, htail⟩ := List.cons.inj h.outline_eq
  obtain ⟨rfl, -⟩ := Scope.declare?_eq_some hdeclare
  refine ⟨⟨List.cons_eq_cons.2 ⟨?_, htail⟩, fun s hs z hz => ?_⟩, rfl⟩
  · rw [Context.declare, ← hhead]
    rfl
  · rcases List.mem_cons.1 hs with rfl | hs
    · rcases List.mem_cons.1 hz with rfl | hz
      · rw [hy, ← hhead]
      · exact h.isGlobal sc List.mem_cons_self z hz
    · exact h.isGlobal s (List.mem_cons_of_mem _ hs) z hz

theorem ledger_of_markReturned {s s' : List Scope} (h : Scope.markReturned s = some s') : ledger s' = ledger s := by
  induction s generalizing s' with
  | nil => cases h
  | cons sc outer ih =>
    unfold Scope.markReturned at h
    split at h
    · cases h
      rfl
    · obtain ⟨outer', hrest, rfl⟩ := Option.map_eq_some_iff.1 h
      rw [ledger_cons, ledger_cons, ih hrest]

/-- In the scopes of a context, a compilation that succeeds leaves the scopes of another context, with these uses recorded, and
answers as described. -/
def Records {α : Type} (Γ : Context) (c : CompileM α) (us : List Use) (Γ' : Context) (post : α → Prop) : Prop :=
  ∀ s a s', Γ.Spans s → c s = .ok (a, s') → Γ'.Spans s' ∧ ledger s' = (ledger s).record us ∧ post a

namespace Records

variable {α β : Type} {Γ Γ' Γ'' : Context} {c : CompileM α} {f : α → CompileM β} {us vs : List Use} {post : α → Prop}
  {post' : β → Prop} {span : Span} {x : String}

theorem pure {a : α} (h : post a) : Records Γ (Pure.pure a) [] Γ post := by
  intro s b s' hs hr
  cases hr
  exact ⟨hs, Ledger.record_nil.symm, h⟩

/-- A weaker description of the answer is true as well. -/
theorem imp {weaker : α → Prop} (h : Records Γ c us Γ' post) (hpost : ∀ a, post a → weaker a) : Records Γ c us Γ' weaker := by
  intro s a s' hs hr
  obtain ⟨hs', hledger, ha⟩ := h s a s' hs hr
  exact ⟨hs', hledger, hpost a ha⟩

/-- Uses are recorded one behind the other. -/
theorem bind (hc : Records Γ c us Γ' post) (hf : ∀ a, post a → Records Γ' (f a) vs Γ'' post') :
    Records Γ (c >>= f) (us ++ vs) Γ'' post' := by
  intro s b s'' hs hr
  obtain ⟨a, s', hfirst, hrest⟩ := Compile.bind_eq_ok hr
  obtain ⟨hs', hledger, ha⟩ := hc s a s' hs hfirst
  obtain ⟨hs'', hledger', hb⟩ := hf a ha s' b s'' hs' hrest
  exact ⟨hs'', by rw [hledger', hledger, Ledger.record_append], hb⟩

/-- What is done behind a compilation without uses of its own. -/
theorem andThen (hc : Records Γ c us Γ' post) (hf : ∀ a, post a → Records Γ' (f a) [] Γ'' post') :
    Records Γ (c >>= f) us Γ'' post' := by
  rw [← List.append_nil us]
  exact hc.bind hf

/-- What is done before a compilation without uses of its own. -/
theorem before (hc : Records Γ c [] Γ' post) (hf : ∀ a, post a → Records Γ' (f a) us Γ'' post') :
    Records Γ (c >>= f) us Γ'' post' := hc.bind hf

/-- What fails records whatever it is to record. -/
theorem fail {cause : CompileCause} : Records Γ (Compile.fail span cause : CompileM α) us Γ' post := by
  intro s a s' _ hr
  cases hr

/-- What fails at its beginning records whatever it is to record. -/
theorem fail_bind {cause : CompileCause} : Records Γ (Compile.fail span cause >>= f) us Γ' post' := by
  intro s a s' _ hr
  cases hr

/-- What is known of everything that a compilation emits is known of its answer. -/
theorem emits (hc : Records Γ c us Γ' post) : Records Γ c us Γ' fun a => post a ∧ Emits c a := by
  intro s a s' hs hr
  obtain ⟨hs', hledger, ha⟩ := hc s a s' hs hr
  exact ⟨hs', hledger, ha, s, s', hr⟩

theorem encoding (e : Except EmitError α) : Records Γ (Compile.encoding span e) [] Γ fun a => e = .ok a := by
  cases e with
  | ok a => exact pure rfl
  | error e => exact fail

theorem emit (i : Instruction) : Records Γ (Compile.emit span i) [] Γ (· = [i]) :=
  (encoding _).andThen fun _ _ => pure rfl

theorem place (beyond : Nat) (f : Fragment) :
    Records Γ (Compile.place span beyond f) [] Γ fun code => f.resolve beyond = .ok code := encoding _

theorem jumpBy (kind : JumpKind) (distance : Int) :
    Records Γ (Compile.jumpBy span kind distance) [] Γ fun code => ∃ d, code = [.jump kind d] :=
  (encoding _).andThen fun d _ => pure ⟨d, rfl⟩

theorem checkCount (what : String) (count limit : Nat) :
    Records Γ (Compile.checkCount span what count limit) [] Γ fun _ => True := by
  unfold Compile.checkCount
  split
  · exact fail
  · exact pure trivial

/-- A name is recorded where it is resolved. -/
theorem resolve (Γ : Context) (x : String) : Records Γ (Compile.resolve x) [⟨x, Γ⟩] Γ fun _ => True := by
  intro s y s' hs hr
  have hhome : Γ.home x = (outline s).dropWhile (!·.declares x) := by rw [Context.home, hs.outline_eq]
  rcases Compile.resolve_eq_ok hr with ⟨hnone, rfl, rfl⟩ | ⟨z, hfound, rfl⟩
  · refine ⟨hs, (Ledger.record_of_taken fun depth _ => ?_).symm, trivial⟩
    rw [dropWhile_of_resolve_eq_none hnone] at hhome
    simp [taken, Use.isTaken, hhome]
  · obtain ⟨hshape, -⟩ := shape_of_resolve hfound
    obtain ⟨hledger, -⟩ := ledger_of_resolve (u := ⟨x, Γ⟩) hs.isGlobal hhome hfound
    exact ⟨hs.of_shape hshape, hledger, trivial⟩

theorem markReturned : Records Γ (Compile.markReturned span) [] Γ fun _ => True := by
  intro s u s' hs hr
  have hmarked := Compile.markReturned_eq_ok hr
  have hledger := (ledger_of_markReturned hmarked).trans Ledger.record_nil.symm
  exact ⟨hs.of_shape (shape_of_markReturned hmarked), hledger, trivial⟩

/-- A declaration records nothing, and adds its name to the context. -/
theorem declare {kind : Option DeclKind} :
    Records Γ (Compile.declare span kind x) [] (Γ.declare x (kind = some .const)) fun _ => True := by
  intro s u s' hs hr
  obtain ⟨sc, outer, sc', rfl, rfl, -, hdeclare⟩ := Compile.declare_eq_ok hr
  have hkind : sc.kind = Γ.innermost.kind := congrArg Level.kind (List.cons.inj hs.outline_eq).1
  obtain ⟨hs', hledger⟩ := hs.declare (by rw [hkind]) hdeclare
  exact ⟨hs', hledger.trans Ledger.record_nil.symm, trivial⟩

/-- A parameter records nothing, and adds its name to the context. -/
theorem declareParameter (hΓ : Γ.innermost.kind = .function) :
    Records Γ (Compile.declareParameter span x) [] (Γ.declare x false) fun _ => True := by
  intro s u s' hs hr
  obtain ⟨sc, outer, sc', rfl, rfl, hdeclare⟩ := Compile.declareParameter_eq_ok hr
  obtain ⟨hs', hledger⟩ := hs.declare (by rw [hΓ]; rfl) hdeclare
  exact ⟨hs', hledger.trans Ledger.record_nil.symm, trivial⟩

/-- Parameters record nothing, and add their names to the context. -/
theorem declareParameters {params : List String} (hΓ : Γ.innermost.kind = .function) :
    Records Γ (params.forM (Compile.declareParameter span)) [] (Γ.declareAll params) fun _ => True := by
  induction params generalizing Γ with
  | nil => exact pure trivial
  | cons x params ih => exact (declareParameter hΓ).andThen fun _ _ => ih hΓ

/-- What is compiled in a new scope, which is left again. The scope of a function has noted what the function takes from outside. -/
theorem inScope {kind : ScopeKind} (hc : Records (Γ.enter kind) c us Γ' post) (houter : Γ'.outer = Γ.levels) :
    Records Γ (Compile.inScope kind c) us Γ fun r =>
      post r.1 ∧ (kind = .function → r.2.captures = (taken Γ.levels.length us).foldl note []) := by
  intro s r s'' hs hr
  obtain ⟨s', hbody, rfl, hscope⟩ := Compile.inScope_eq_ok hr
  have henter : (Γ.enter kind).Spans ({ kind } :: s) := by
    refine ⟨List.cons_eq_cons.2 ⟨rfl, hs.outline_eq⟩, fun sc hsc y hy => ?_⟩
    rcases List.mem_cons.1 hsc with rfl | hsc
    · cases hy
    · exact hs.isGlobal sc hsc y hy
  obtain ⟨hs', hledger, ha⟩ := hc _ _ s' henter hbody
  cases s' with
  | nil => cases hledger
  | cons sc outer =>
    rw [ledger_cons, ledger_cons, Ledger.record] at hledger
    obtain ⟨hhead, htail⟩ := List.cons.inj hledger
    obtain ⟨-, htail'⟩ := List.cons.inj hs'.outline_eq
    refine ⟨⟨htail'.trans houter, fun sc' hsc' => hs'.isGlobal sc' (List.mem_cons_of_mem _ hsc')⟩, htail, ha, fun hkind => ?_⟩
    obtain ⟨-, hcaptures⟩ := Prod.mk.inj hhead
    have hlength : s.length = Γ.levels.length := by rw [← hs.outline_eq, outline, List.length_map]
    rw [if_pos hkind, length_ledger, hlength] at hcaptures
    rw [hscope]
    exact hcaptures

end Records

end ScriptVM
