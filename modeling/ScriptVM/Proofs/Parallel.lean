import ScriptVM.Native
import ScriptVM.Proofs.Views

/-!
# Operations on both heaps of a pairing

An operation that is given what lives on both sides ends in the same way on both: with results that are the same in a later
pairing, or with one error, and never because a handle does not resolve (`Pairing.Ends`). Each operation allocates at most one
object, so room for one is all it needs.
-/

namespace ScriptVM

namespace Pairing

variable {α β γ δ : Type}

/-- How an operation ends on both sides of a pairing. -/
inductive Ends (W : Pairing) (P : Pairing → α → β → Prop) :
    EStateM.Result RuntimeError Heap α → EStateM.Result RuntimeError Heap β → Prop where
  | ok {W' : Pairing} {a : α} {b : β} : W.Extends W' → W'.Sound → P W' a b → Ends W P (.ok a W'.left) (.ok b W'.right)
  | error {W' : Pairing} {e : RuntimeError} : W.Extends W' → W'.Sound → e ≠ .invalidHandle →
      Ends W P (.error e W'.left) (.error e W'.right)

/-- Values that are the same up to handles that live on both sides. -/
def SameValue (W : Pairing) (v w : Value) : Prop := ValueRel W.Live v w

/-- Optional values that are the same up to handles that live on both sides. -/
def SameValue? (W : Pairing) (x y : Option Value) : Prop := Option.Rel (ValueRel W.Live) x y

/-- Environments that live on both sides. -/
def SameScope (W : Pairing) (a b : Handle) : Prop := W.Live none a b

/-- No result. -/
def Done (_ : Pairing) (_ _ : Unit) : Prop := True

variable {W : Pairing} {P P' : Pairing → α → β → Prop} {Q : Pairing → γ → δ → Prop}

namespace Ends

theorem pure (hW : W.Sound) {a : α} {b : β} (h : P W a b) : Ends W P (.ok a W.left) (.ok b W.right) := .ok (.refl W) hW h

/-- Failing ends the same way, unless a handle dangles. -/
theorem throw (hW : W.Sound) {e : RuntimeError} (he : e ≠ .invalidHandle) : Ends W P (.error e W.left) (.error e W.right) :=
  .error (.refl W) hW he

/-- What is the same in one sense is the same in a weaker one. -/
theorem imp {r : EStateM.Result RuntimeError Heap α} {r' : EStateM.Result RuntimeError Heap β} (h : Ends W P r r')
    (hP : ∀ W' a b, W'.Sound → P W' a b → P' W' a b) : Ends W P' r r' := by
  cases h with
  | ok hext hW' hab => exact .ok hext hW' (hP _ _ _ hW' hab)
  | error hext hW' he => exact .error hext hW' he

/-- What ends over an extended pairing ends over the pairing. -/
theorem of_extends {W' : Pairing} (hext : W.Extends W') {r : EStateM.Result RuntimeError Heap α}
    {r' : EStateM.Result RuntimeError Heap β} (h : Ends W' P r r') : Ends W P r r' := by
  cases h with
  | ok hext' hW'' hab => exact .ok (hext.trans hext') hW'' hab
  | error hext' hW'' he => exact .error (hext.trans hext') hW'' he

/-- Parts in sequence end the same way when the first does, and the second does from where the first ends. -/
theorem bind {x : HeapM α} {y : HeapM β} {f : α → HeapM γ} {g : β → HeapM δ} (h : Ends W P (x W.left) (y W.right))
    (hfg : ∀ W' a b, W.Extends W' → W'.Sound → P W' a b → Ends W' Q (f a W'.left) (g b W'.right)) :
    Ends W Q ((x >>= f) W.left) ((y >>= g) W.right) := by
  change Ends W Q (EStateM.bind x f W.left) (EStateM.bind y g W.right)
  unfold EStateM.bind
  generalize x W.left = r at h
  generalize y W.right = r' at h
  cases h with
  | ok hext hW' hab => exact (hfg _ _ _ hext hW' hab).of_extends hext
  | error hext hW' he => exact .error hext hW' he

/-- After a look at the heap an operation goes on with the same pairing. -/
theorem read_bind {R : α → β → Prop} {x : Heap → Except RuntimeError α} {y : Heap → Except RuntimeError β} {f : α → HeapM γ}
    {g : β → HeapM δ} (h : BothOk R (x W.left) (y W.right)) (hfg : ∀ a b, R a b → Ends W Q (f a W.left) (g b W.right)) :
    Ends W Q ((HeapM.read x >>= f) W.left) ((HeapM.read y >>= g) W.right) := by
  change Ends W Q (EStateM.bind (HeapM.read x) f W.left) (EStateM.bind (HeapM.read y) g W.right)
  obtain ⟨a, b, hx, hy, hab⟩ := h
  unfold EStateM.bind HeapM.read
  rw [hx, hy]
  exact hfg a b hab

/-- A look ends the same way when what is seen is the same. -/
theorem read {R : α → β → Prop} {x : Heap → Except RuntimeError α} {y : Heap → Except RuntimeError β} (hW : W.Sound)
    (h : BothOk R (x W.left) (y W.right)) : Ends W (fun _ => R) (HeapM.read x W.left) (HeapM.read y W.right) := by
  obtain ⟨a, b, hx, hy, hab⟩ := h
  unfold HeapM.read
  rw [hx, hy]
  exact .pure hW hab

end Ends

/-! ## Allocation -/

variable {o p : Object} {kind : RefKind}

/-- The heaps are full at the same time. -/
theorem Sound.atLimit (hW : W.Sound) : W.left.atLimit = W.right.atLimit := by
  rcases hW.live with hnone | hlive
  · rw [Heap.atLimit, Heap.atLimit, ← hW.limit, hnone]
    rfl
  · rw [Heap.atLimit, Heap.atLimit, hW.limit, hlive]

/-- An allocation ends the same way on both sides: the heaps are full together, or the new objects correspond. -/
theorem Sound.alloc (hW : W.Sound) (hr : W.Room) (h : ObjectRel W.same W.Live o p) (hkeyed : o.Keyed W.left) :
    Ends W (fun W' a b => W'.Live o.kind? a b) (HeapM.alloc o W.left) (HeapM.alloc p W.right) := by
  rw [HeapM.alloc_eq, HeapM.alloc_eq, hW.atLimit, hW.limit]
  by_cases hfull : W.right.atLimit = true
  · rw [if_pos hfull, if_pos hfull]
    exact .throw hW (by simp)
  · rw [if_neg hfull, if_neg hfull]
    exact .ok (hW.extends_place hr) (hW.place hr h hkeyed) (live_place_self hW hr)

/-- An allocation of objects that correspond answers values that do. -/
theorem Sound.allocRef (hW : W.Sound) (hr : W.Room) (h : ObjectRel W.same W.Live o p) (hkind : o.kind? = some kind)
    (hkeyed : o.Keyed W.left) : Ends W SameValue (HeapM.allocRef kind o W.left) (HeapM.allocRef kind p W.right) := by
  refine (hW.alloc hr h hkeyed).bind fun W' a b _ hW' hab => .pure hW' ?_
  rw [hkind] at hab
  exact .ref hab

/-- A new text ends the same way. -/
theorem Sound.allocText (hW : W.Sound) (hr : W.Room) (s : String) :
    Ends W SameValue (HeapM.allocText s W.left) (HeapM.allocText s W.right) := hW.allocRef hr (.text s) rfl trivial

/-- A new error value ends the same way. -/
theorem Sound.errorValue (hW : W.Sound) (hr : W.Room) (message : String) :
    Ends W SameValue (HeapM.errorValue message W.left) (HeapM.errorValue message W.right) :=
  hW.allocRef hr (.error message .none) rfl trivial

/-- A new environment ends the same way. -/
theorem Sound.allocEnvironment (hW : W.Sound) (hr : W.Room) {a b : Handle} (h : W.Live none a b) :
    Ends W SameScope (HeapM.allocEnvironment (some a) W.left) (HeapM.allocEnvironment (some b) W.right) :=
  hW.alloc hr (.environment (.withChains _) (.some h)) trivial

/-! ## Operators -/

variable {v w v' w' : Value}

/-- Making the value of an outcome ends the same way. -/
theorem Sound.materialize (hW : W.Sound) (hr : W.Room) (h : ValueRel W.Live v w) (h' : ValueRel W.Live v' w') (x : Outcome) :
    Ends W SameValue (HeapM.materialize v v' x W.left) (HeapM.materialize w w' x W.right) := by
  cases x with
  | num n => exact .pure hW (.plain rfl)
  | bool x => exact .pure hW (.plain rfl)
  | text s => exact hW.allocText hr s
  | fault f => exact hW.errorValue hr f.message
  | forward side =>
    cases side with
    | left => exact .pure hW h
    | right => exact .pure hW h'

/-- A binary operator ends the same way. -/
theorem Sound.binary (hW : W.Sound) (hr : W.Room) (h : ValueRel W.Live v w) (h' : ValueRel W.Live v' w') (op : BinaryOp) :
    Ends W SameValue (HeapM.binary op v v' W.left) (HeapM.binary op w w' W.right) := by
  refine Ends.read_bind (R := Eq) ?_ ?_
  · refine (hW.operand h).bind fun x y hxy => (hW.operand h').bind fun x' y' hxy' => ?_
    exact .pure (hxy.binary hW.live_oneToOne hxy' op)
  · rintro x _ rfl
    exact hW.materialize hr h h' x

/-- A unary operator ends the same way. -/
theorem Sound.unary (hW : W.Sound) (hr : W.Room) (h : ValueRel W.Live v w) (op : UnaryOp) :
    Ends W SameValue (HeapM.unary op v W.left) (HeapM.unary op w W.right) := by
  refine Ends.read_bind (R := Eq) ?_ ?_
  · exact (hW.operand h).bind fun x y hxy => .pure (hxy.unary op)
  · rintro x _ rfl
    exact hW.materialize hr h h x

/-! ## Environments -/

variable {a b : Handle}

/-- Binding a name keeps the shape of an object. -/
theorem keepsShape_bind (name : String) (v : Value) : Object.KeepsShape (Object.bind name v) := by
  constructor
  case kind? =>
    intro o
    cases o <;> rfl
  case parts =>
    intro o
    cases o <;> rfl
  case array => exact fun _ => rfl
  case map =>
    intro o entries ho
    cases o with
    | environment e => nomatch ho
    | _ => exact ho

/-- Binding a name to corresponding values keeps objects the same up to handles. -/
theorem bind_rel {R S : Correspondence} (h : ObjectRel R S o p) (hv : ValueRel S v w) (name : String) :
    ObjectRel R S (o.bind name v) (p.bind name w) := by
  cases h with
  | environment ht hparent => exact .environment (TableRel.insert .eq rfl ht hv) hparent
  | text s => exact .text s
  | array h => exact .array h
  | map h => exact .map h
  | function h => exact .function h
  | native name arity b => exact .native name arity b
  | range r => exact .range r
  | iterator h => exact .iterator h
  | error m h => exact .error m h

/-- Binding a name in environments that live on both sides ends the same way. -/
theorem Sound.bindName (hW : W.Sound) (h : W.Live none a b) (hv : ValueRel W.Live v w) (name : String) :
    Ends W Done (HeapM.update a (Object.bind name v) W.left) (HeapM.update b (Object.bind name w) W.right) := by
  have hshape := keepsShape_bind name v
  exact .ok (extends_update hshape) (hW.update h.same hshape (keepsShape_bind name w) fun hop => bind_rel hop hv name) trivial

/-- Defining a name ends the same way. -/
theorem Sound.define (hW : W.Sound) (h : W.Live none a b) (hv : ValueRel W.Live v w) (name : String) :
    Ends W Done (HeapM.define a name v W.left) (HeapM.define b name w W.right) :=
  Ends.read_bind (hW.environment h) fun _ _ _ => hW.bindName h hv name

/-- Assigning a name ends the same way: the owner is found on both sides, or on neither. -/
theorem Sound.assign (hW : W.Sound) (h : W.Live none a b) (hv : ValueRel W.Live v w) (name : String) :
    Ends W Done (HeapM.assign a name v W.left) (HeapM.assign b name w W.right) := by
  refine Ends.read_bind (hW.owner h name) fun x y hxy => ?_
  cases hxy with
  | none => exact .throw hW (by simp)
  | some hcd => exact hW.bindName hcd hv name

/-! ## Containers -/

/-- A lookup in maps that live on both sides finds the same. -/
theorem Sound.mapGet? (hW : W.Sound) (h : W.Live (some .map) a b) (hv : ValueRel W.Live v w) :
    BothOk (SameValue? W) (W.left.mapGet? a v) (W.right.mapGet? b w) := by
  refine (hW.mapKey hv).bind fun j k ⟨hjk, _⟩ => (hW.map h).bind fun t u htu => .pure ?_
  have hget := TableRel.get? (KeyRel.congruence hW.oneToOne) hjk htu
  unfold SameValue?
  generalize t.get? j = x at hget
  generalize u.get? k = y at hget
  cases hget with
  | none => exact .none
  | some hef => exact .some hef.2

/-- Tables of entries that are the same up to their handles, with keys that were made from them. -/
def SameEntries (W : Pairing) (t u : Table MapKey MapEntry) : Prop :=
  TableRel (KeyRel W.same) (EntryRel W.Live) t u ∧ (Object.map t).Keyed W.left

/-- Pairs that correspond make tables that do. -/
theorem Sound.entryTable (hW : W.Sound) {l m : List (Value × Value)}
    (h : List.Forall₂ (PairRel (ValueRel W.Live) (ValueRel W.Live)) l m) :
    BothOk W.SameEntries (W.left.entryTable l) (W.right.entryTable m) := by
  have hfold : ∀ {t u : Table MapKey MapEntry}, W.SameEntries t u → BothOk W.SameEntries
        (l.foldlM (fun table p => return table.insert (← W.left.mapKey p.1) ⟨p.1, p.2⟩) t)
        (m.foldlM (fun table p => return table.insert (← W.right.mapKey p.1) ⟨p.1, p.2⟩) u) := by
    induction h with
    | nil => exact fun htu => .pure htu
    | cons hp _ ih =>
      rintro t u ⟨htu, hkeyed⟩
      rw [List.foldlM_cons, List.foldlM_cons]
      refine BothOk.bind (P := W.SameEntries) ?_ fun t' u' htu' => ih htu'
      refine (hW.mapKey hp.1).bind ?_
      rintro j k ⟨hjk, hinside⟩
      refine .pure ⟨?_, ?_⟩
      · exact TableRel.insert (KeyRel.congruence hW.oneToOne) hjk htu hp
      · intro q hq c hc
        rcases Table.mem_toList_insert hq with hq | ⟨hkey, hentry⟩
        · exact hkeyed q hq c hc
        · -- A key that is there already stays, but it names what the new one does.
          have hhandles : q.1.handles = j.handles := by
            rcases hkey with hkey | hkey
            · rw [hkey]
            · exact MapKey.handles_eq_of_beq hkey
          rw [hentry]
          exact hinside c (hhandles ▸ hc)
  unfold Heap.entryTable
  rw [h.length_eq]
  refine hfold ⟨.withChains _, fun q hq => ?_⟩
  simp [Table.toList, Table.withChains] at hq

/-- A map literal ends the same way. -/
theorem Sound.allocMap (hW : W.Sound) (hr : W.Room) {l m : List (Value × Value)}
    (h : List.Forall₂ (PairRel (ValueRel W.Live) (ValueRel W.Live)) l m) :
    Ends W SameValue (HeapM.allocMap l W.left) (HeapM.allocMap m W.right) :=
  Ends.read_bind (hW.entryTable h) fun _ _ ⟨htu, hkeyed⟩ => hW.allocRef hr (.map htu) rfl hkeyed

/-- An index that corresponds selects the same position. -/
theorem indexPosition_eq {S : Correspondence} (h : ValueRel S v w) (length : Nat) :
    indexPosition v length = indexPosition w length := by
  rw [indexPosition, indexPosition, h.toInt64?, h.kindName]

/-- An access by index ends the same way when picking the element does. -/
theorem Sound.elementAt (hW : W.Sound) (hr : W.Room) (h : ValueRel W.Live v w) (length : Nat) {f g : Nat → HeapM Value}
    (hfg : ∀ i, Ends W SameValue (f i W.left) (g i W.right)) :
    Ends W SameValue (HeapM.elementAt v length f W.left) (HeapM.elementAt w length g W.right) := by
  unfold HeapM.elementAt
  rw [indexPosition_eq h]
  cases indexPosition w length with
  | ok i => exact hfg i
  | error f => exact hW.errorValue hr f.message

theorem getD_rel {S : Correspondence} {xs ys : Array Value} (h : List.Forall₂ (ValueRel S) xs.toList ys.toList) (i : Nat) :
    ValueRel S (xs.getD i .null) (ys.getD i .null) := by
  have hget := getElem?_rel h i
  rw [Array.getElem?_toList, Array.getElem?_toList] at hget
  rw [Array.getD_eq_getD_getElem?, Array.getD_eq_getD_getElem?]
  generalize xs[i]? = x at hget
  generalize ys[i]? = y at hget
  cases hget with
  | none => exact .plain rfl
  | some hvw => exact hvw

theorem Sound.index (hW : W.Sound) (hr : W.Room) (h : ValueRel W.Live v w) (h' : ValueRel W.Live v' w') :
    Ends W SameValue (HeapM.index v v' W.left) (HeapM.index w w' W.right) := by
  unfold HeapM.index
  rw [h.isError, h'.isError]
  by_cases he : w.isError = true
  · rw [if_pos he, if_pos he]
    exact .pure hW h
  · rw [if_neg he, if_neg he]
    by_cases he' : w'.isError = true
    · rw [if_pos he', if_pos he']
      exact .pure hW h'
    · rw [if_neg he', if_neg he']
      cases h with
      | plain hv =>
        cases v with
        | ref kind a => nomatch hv
        | _ => exact hW.errorValue hr _
      | @ref kind a b h =>
        cases kind with
        | map =>
          refine Ends.read_bind (hW.mapGet? h h') fun x y hxy => ?_
          cases hxy with
          | some hval => exact .pure hW hval
          | none =>
            refine Ends.read_bind (.pure (hW.describe h')) ?_
            rintro key _ rfl
            exact hW.errorValue hr _
        | array =>
          refine Ends.read_bind (hW.array h) fun xs ys hxy => ?_
          have hlen := hxy.length_eq
          rw [Array.length_toList, Array.length_toList] at hlen
          rw [hlen]
          exact hW.elementAt hr h' _ fun i => .pure hW (getD_rel hxy i)
        | string =>
          refine Ends.read_bind (hW.text h) ?_
          rintro s _ rfl
          exact hW.elementAt hr h' _ fun i => hW.allocText hr _
        | range =>
          refine Ends.read_bind (hW.range h) ?_
          rintro r _ rfl
          refine hW.elementAt hr h' _ fun i => .pure hW ?_
          cases r.get? i <;> exact .plain rfl
        | function | native | iterator | error => exact hW.errorValue hr _

/-! ## Members -/

/-- What `member?` finds; where it finds nothing, nothing was allocated. -/
def Found (W W' : Pairing) (x y : Option Value) : Prop := W'.SameValue? x y ∧ (x = none → W' = W)

/-- A member that is made is found on both sides. -/
theorem Ends.found {x : HeapM Value} {y : HeapM Value} (h : Ends W SameValue (x W.left) (y W.right)) :
    Ends W (Found W) ((do return some (← x) : HeapM (Option Value)) W.left)
      ((do return some (← y) : HeapM (Option Value)) W.right) :=
  h.bind fun _ _ _ _ hW' hvw => .pure hW' ⟨.some hvw, nofun⟩

/-- A member that is there is found on both sides. -/
theorem Ends.pure_found (hW : W.Sound) (h : ValueRel W.Live v w) :
    Ends W (Found W) (.ok (some v) W.left) (.ok (some w) W.right) := .pure hW ⟨.some h, nofun⟩

/-- A member that is not there is found on neither side. -/
theorem Ends.not_found (hW : W.Sound) : Ends W (Found W) (.ok none W.left) (.ok none W.right) := .pure hW ⟨.none, fun _ => rfl⟩

/-- The members of a range are scalars. -/
theorem plain_rangeMember (r : Progression) (name : String) {x : Value} (hx : HeapM.rangeMember r name = some x) :
    x.handle? = none := by
  unfold HeapM.rangeMember at hx
  split at hx <;> cases hx <;> rfl

/-- A member of corresponding maps is the same. -/
theorem Sound.mapMember (hW : W.Sound) {t u : Table MapKey MapEntry} (h : TableRel (KeyRel W.same) (EntryRel W.Live) t u)
    (name : String) : SameValue? W (HeapM.mapMember t name) (HeapM.mapMember u name) := by
  have hget := TableRel.get? (KeyRel.congruence hW.oneToOne) (.text name) h
  unfold HeapM.mapMember
  generalize t.get? (.text name) = x at hget
  generalize u.get? (.text name) = y at hget
  cases hget with
  | some hef => exact .some hef.2
  | none =>
    dsimp only
    rw [h.size]
    split
    · exact .some (.plain rfl)
    · exact .none

/-- Apart from errors, ranges and maps a value has the listed members only. -/
theorem member?_eq_none {kind : RefKind} {name : String} (hkind : kind ∉ [RefKind.error, .range, .map])
    (hname : (kind, name) ∉ [(RefKind.string, "length"), (.array, "length"), (.function, "name"), (.function, "arity"),
      (.native, "name")]) (c : Handle) : HeapM.member? (.ref kind c) name = pure none := by
  unfold HeapM.member?
  split <;> simp_all

/-- Looking for a member ends the same way. -/
theorem Sound.member? (hW : W.Sound) (hr : W.Room) (h : ValueRel W.Live v w) (name : String) :
    Ends W (Found W) (HeapM.member? v name W.left) (HeapM.member? w name W.right) := by
  cases h with
  | plain hv =>
    cases v with
    | ref kind a => nomatch hv
    | _ => exact .not_found hW
  | @ref kind a b h =>
    cases kind with
    | error =>
      by_cases hm : name = "message"
      · subst hm
        refine Ends.read_bind (hW.error h) ?_
        rintro ⟨m, p⟩ ⟨_, q⟩ ⟨rfl, -⟩
        exact (hW.allocText hr m).found
      · by_cases hp : name = "payload"
        · subst hp
          refine Ends.read_bind (hW.error h) ?_
          rintro ⟨m, p⟩ ⟨_, q⟩ ⟨-, hpq⟩
          refine .pure_found hW ?_
          cases hpq with
          | none => exact .plain rfl
          | some hval => exact hval
        · rw [HeapM.member?, HeapM.member?]
          · exact .pure_found hW (.ref h)
          all_goals assumption
    | string =>
      by_cases hl : name = "length"
      · subst hl
        refine Ends.read_bind (hW.text h) ?_
        rintro s _ rfl
        exact .pure_found hW (.plain rfl)
      · rw [member?_eq_none (by simp) (by simp [hl]), member?_eq_none (by simp) (by simp [hl])]
        exact .not_found hW
    | array =>
      by_cases hl : name = "length"
      · subst hl
        refine Ends.read_bind (hW.array h) fun xs ys hxy => ?_
        have hlen := hxy.length_eq
        rw [Array.length_toList, Array.length_toList] at hlen
        rw [hlen]
        exact .pure_found hW (.plain rfl)
      · rw [member?_eq_none (by simp) (by simp [hl]), member?_eq_none (by simp) (by simp [hl])]
        exact .not_found hW
    | range =>
      rw [HeapM.member?, HeapM.member?]
      refine Ends.read_bind (hW.range h) ?_
      rintro r _ rfl
      cases hx : HeapM.rangeMember r name with
      | none => exact .not_found hW
      | some x => exact .pure_found hW (.plain (plain_rangeMember r name hx))
    | map =>
      rw [HeapM.member?, HeapM.member?]
      exact Ends.read_bind (hW.map h) fun t u htu => .pure hW ⟨hW.mapMember htu name, fun _ => rfl⟩
    | function =>
      by_cases hn : name = "name"
      · subst hn
        refine Ends.read_bind (hW.function h) ?_
        rintro ⟨code, env⟩ ⟨_, env'⟩ ⟨rfl, -⟩
        exact (hW.allocText hr _).found
      · by_cases ha : name = "arity"
        · subst ha
          refine Ends.read_bind (hW.function h) ?_
          rintro ⟨code, env⟩ ⟨_, env'⟩ ⟨rfl, -⟩
          exact .pure_found hW (.plain rfl)
        · rw [member?_eq_none (by simp) (by simp [hn, ha]), member?_eq_none (by simp) (by simp [hn, ha])]
          exact .not_found hW
    | native =>
      by_cases hn : name = "name"
      · subst hn
        refine Ends.read_bind (hW.native h) ?_
        rintro n _ ⟨rfl, -⟩
        exact (hW.allocText hr _).found
      · rw [member?_eq_none (by simp) (by simp [hn]), member?_eq_none (by simp) (by simp [hn])]
        exact .not_found hW
    | iterator => exact .not_found hW

/-- A member access ends the same way. -/
theorem Sound.member (hW : W.Sound) (hr : W.Room) (h : ValueRel W.Live v w) (name : String) :
    Ends W SameValue (HeapM.member v name W.left) (HeapM.member w name W.right) := by
  refine (hW.member? hr h name).bind fun W' x y _ hW' ⟨hxy, hnone⟩ => ?_
  cases hxy with
  | some hval => exact .pure hW' hval
  | none =>
    obtain rfl := hnone rfl
    dsimp only
    rw [h.kindName]
    exact hW'.errorValue hr _

/-! ## Ranges -/

/-- The bound of a range is the same. -/
theorem Sound.bound? (hW : W.Sound) (h : ValueRel W.Live v w) : BothOk Eq (W.left.bound? v) (W.right.bound? w) := by
  cases h with
  | plain hv =>
    cases v with
    | null => exact .pure rfl
    | bool x => exact .pure rfl
    | num n => cases n <;> exact .pure rfl
    | ref kind a => nomatch hv
  | @ref kind a b h =>
    cases kind with
    | string =>
      refine (hW.text h).bind ?_
      rintro s _ rfl
      exact .pure rfl
    | _ => exact .pure rfl

/-- The first error among corresponding values corresponds. -/
theorem find?_isError_rel {S : Correspondence} {l m : List Value} (h : List.Forall₂ (ValueRel S) l m) :
    Option.Rel (ValueRel S) (l.find? Value.isError) (m.find? Value.isError) := by
  induction h with
  | nil => exact .none
  | cons hvw _ ih =>
    rw [List.find?_cons, List.find?_cons, hvw.isError]
    split
    · exact .some hvw
    · exact ih

/-- A new range ends the same way. -/
theorem Sound.allocRange (hW : W.Sound) (hr : W.Room) (start stop step : Int64) :
    Ends W SameValue (HeapM.allocRange start stop step W.left) (HeapM.allocRange start stop step W.right) := by
  unfold HeapM.allocRange
  cases Progression.ofBounds? start stop step with
  | none => exact .throw hW (by simp)
  | some r => exact hW.allocRef hr (.range r) rfl trivial

variable {v'' w'' : Value}

/-- A range literal ends the same way. -/
theorem Sound.buildRange (hW : W.Sound) (hr : W.Room) (h : ValueRel W.Live v w) (h' : ValueRel W.Live v' w')
    (h'' : ValueRel W.Live v'' w'') :
    Ends W SameValue (HeapM.buildRange v v' v'' W.left) (HeapM.buildRange w w' w'' W.right) := by
  have hfind := find?_isError_rel (.cons h (.cons h' (.cons h'' .nil)))
  unfold HeapM.buildRange
  generalize [v, v', v''].find? Value.isError = x at hfind
  generalize [w, w', w''].find? Value.isError = y at hfind
  cases hfind with
  | some he => exact .pure hW he
  | none =>
    refine Ends.read_bind (hW.bound? h) ?_
    rintro first _ rfl
    refine Ends.read_bind (hW.bound? h') ?_
    rintro last _ rfl
    refine Ends.read_bind (hW.bound? h'') ?_
    rintro stride _ rfl
    rw [h.kindName, h'.kindName, h''.kindName]
    split
    · split
      · exact hW.errorValue hr _
      · exact hW.allocRange hr _ _ _
    · exact hW.errorValue hr _

/-! ## Walks over containers -/

/-- Walks over corresponding values start alike. -/
theorem start?_rel {S : Correspondence} (h : ValueRel S v w) : Option.Rel (TraversalRel S) (Traversal.start? v) (Traversal.start? w) := by
  cases h with
  | plain hv =>
    cases v with
    | ref kind a => nomatch hv
    | _ => exact .none
  | @ref kind a b h =>
    cases kind with
    | array => exact .some (.array 0 h)
    | range => exact .some (.range 0 h)
    | map => exact .some (.map {} h)
    | _ => exact .none

/-- Making an iterator ends the same way. -/
theorem Sound.allocIterator (hW : W.Sound) (hr : W.Room) (h : ValueRel W.Live v w) :
    Ends W SameValue? (HeapM.allocIterator v W.left) (HeapM.allocIterator w W.right) := by
  have hstart := start?_rel h
  unfold HeapM.allocIterator
  generalize Traversal.start? v = x at hstart
  generalize Traversal.start? w = y at hstart
  cases hstart with
  | none => exact .pure hW .none
  | some htu => exact (hW.allocRef hr (.iterator htu) rfl trivial).bind fun _ _ _ _ hW' hvw => .pure hW' (.some hvw)

/-- What a step of a walk yields and the walk behind it. -/
def SameStep (S : Correspondence) (x y : Option (Value × Value) × Traversal) : Prop :=
  Option.Rel (PairRel (ValueRel S) (ValueRel S)) x.1 y.1 ∧ TraversalRel S x.2 y.2

/-- The next pair of corresponding walks is the same. -/
theorem Sound.nextPair (hW : W.Sound) {t u : Traversal} (h : TraversalRel W.Live t u) :
    BothOk (SameStep W.Live) (t.nextPair W.left) (u.nextPair W.right) := by
  cases h with
  | array i h =>
    refine (hW.array h).bind fun xs ys hxy => ?_
    have hget : Option.Rel (ValueRel W.Live) xs[i]? ys[i]? := by
      rw [← Array.getElem?_toList, ← Array.getElem?_toList]
      exact getElem?_rel hxy i
    generalize xs[i]? = x at hget
    generalize ys[i]? = y at hget
    cases hget with
    | none => exact .pure ⟨.none, .array i h⟩
    | some hvw => exact .pure ⟨.some ⟨.plain rfl, hvw⟩, .array (i + 1) h⟩
  | range i h =>
    refine (hW.range h).bind ?_
    rintro r _ rfl
    cases r.get? i with
    | none => exact .pure ⟨.none, .range i h⟩
    | some n => exact .pure ⟨.some ⟨.plain rfl, .plain rfl⟩, .range (i + 1) h⟩
  | map c h =>
    refine (hW.map h).bind fun t u htu => ?_
    obtain ⟨hentry, hcursor⟩ := htu.next c
    generalize hx : t.next c = x at hentry hcursor
    generalize hy : u.next c = y at hentry hcursor
    obtain ⟨e, c'⟩ := x
    obtain ⟨f, d'⟩ := y
    obtain rfl : c' = d' := hcursor
    cases hentry with
    | none => exact .pure ⟨.none, .map c' h⟩
    | some hef => exact .pure ⟨.some hef.2, .map c' h⟩

/-- What a step of a loop yields. -/
inductive YieldRel (S : Correspondence) : Yield → Yield → Prop where
  | one {v w : Value} : ValueRel S v w → YieldRel S (.one v) (.one w)
  | two {v w v' w' : Value} : ValueRel S v w → ValueRel S v' w' → YieldRel S (.two v v') (.two w w')

/-- The next yield of corresponding walks is the same, and so are the walks behind it. -/
theorem Sound.next (hW : W.Sound) {t u : Traversal} (h : TraversalRel W.Live t u) (arity : UInt8) :
    BothOk (fun x y => Option.Rel (YieldRel W.Live) x.1 y.1 ∧ TraversalRel W.Live x.2 y.2) (t.next W.left arity)
      (u.next W.right arity) := by
  refine (hW.nextPair h).bind ?_
  rintro ⟨x, t'⟩ ⟨y, u'⟩ ⟨hxy, htu⟩
  refine .pure ⟨?_, htu⟩
  cases hxy with
  | none => exact .none
  | some hkv =>
    refine .some ?_
    dsimp only
    split
    · exact .two hkv.1 hkv.2
    · exact .one hkv.2

/-- Moving a walk on keeps the shape of an object. -/
theorem keepsShape_moveTo (t : Traversal) : Object.KeepsShape (Object.moveTo t) := by
  constructor
  case kind? =>
    intro o
    cases o <;> rfl
  case parts =>
    intro o
    cases o <;> rfl
  case array => exact fun _ => rfl
  case map =>
    intro o entries ho
    cases o with
    | iterator t => nomatch ho
    | _ => exact ho

/-- Moving corresponding walks on keeps objects the same up to handles. -/
theorem moveTo_rel {R S : Correspondence} (h : ObjectRel R S o p) {t u : Traversal} (htu : TraversalRel S t u) :
    ObjectRel R S (o.moveTo t) (p.moveTo u) := by
  cases h with
  | iterator _ => exact .iterator htu
  | text s => exact .text s
  | array h => exact .array h
  | map h => exact .map h
  | function h => exact .function h
  | native name arity b => exact .native name arity b
  | range r => exact .range r
  | error m h => exact .error m h
  | environment ht hparent => exact .environment ht hparent

/-- Moving iterators that live on both sides ends the same way. -/
theorem Sound.setTraversal (hW : W.Sound) (h : W.Live (some .iterator) a b) {t u : Traversal} (htu : TraversalRel W.Live t u) :
    Ends W Done (HeapM.setTraversal a t W.left) (HeapM.setTraversal b u W.right) := by
  refine Ends.read_bind (hW.iterator h) fun _ _ _ => ?_
  have hshape := keepsShape_moveTo t
  exact .ok (extends_update hshape) (hW.update h.same hshape (keepsShape_moveTo u) fun hop => moveTo_rel hop htu) trivial

/-! ## Builtins -/

/-- The length of corresponding values ends the same way. -/
theorem Sound.lenOf (hW : W.Sound) (hr : W.Room) (h : ValueRel W.Live v w) :
    Ends W SameValue (Builtin.lenOf v W.left) (Builtin.lenOf w W.right) := by
  cases h with
  | plain hv =>
    cases v with
    | ref kind a => nomatch hv
    | _ => exact hW.errorValue hr _
  | @ref kind a b h =>
    cases kind with
    | string =>
      refine Ends.read_bind (hW.text h) ?_
      rintro s _ rfl
      exact .pure hW (.plain rfl)
    | array =>
      refine Ends.read_bind (hW.array h) fun xs ys hxy => ?_
      have hlen := hxy.length_eq
      rw [Array.length_toList, Array.length_toList] at hlen
      rw [hlen]
      exact .pure hW (.plain rfl)
    | map =>
      refine Ends.read_bind (hW.map h) fun t u htu => ?_
      rw [htu.size]
      exact .pure hW (.plain rfl)
    | range =>
      refine Ends.read_bind (hW.range h) ?_
      rintro r _ rfl
      exact .pure hW (.plain rfl)
    | error => exact .pure hW (.ref h)
    | function | native | iterator => exact hW.errorValue hr _

/-- The text of corresponding values ends the same way. -/
theorem Sound.strOf (hW : W.Sound) (hr : W.Room) (h : ValueRel W.Live v w) :
    Ends W SameValue (Builtin.strOf v W.left) (Builtin.strOf w W.right) := by
  have hdescribe : Ends W SameValue ((HeapM.read (fun h => return h.describe v) >>= HeapM.allocText) W.left)
      ((HeapM.read (fun h => return h.describe w) >>= HeapM.allocText) W.right) := by
    refine Ends.read_bind (.pure (hW.describe h)) ?_
    rintro s _ rfl
    exact hW.allocText hr s
  cases h with
  | plain hv =>
    cases v with
    | ref kind a => nomatch hv
    | _ => exact hdescribe
  | @ref kind a b h =>
    cases kind with
    | string => exact .pure hW (.ref h)
    | _ => exact hdescribe

/-- Corresponding arguments are the same integers, or the first that is none corresponds. -/
theorem integers_rel {S : Correspondence} {l m : List Value} (h : List.Forall₂ (ValueRel S) l m) :
    (∃ ns, Builtin.integers l = .ok ns ∧ Builtin.integers m = .ok ns) ∨
      ∃ v w, Builtin.integers l = .error v ∧ Builtin.integers m = .error w ∧ ValueRel S v w := by
  induction h with
  | nil => exact .inl ⟨[], rfl, rfl⟩
  | @cons v w _ _ hvw _ ih =>
    rw [Builtin.integers, Builtin.integers, hvw.toInt64?]
    cases w.toInt64? with
    | none => exact .inr ⟨v, w, rfl, rfl, hvw⟩
    | some n =>
      rcases ih with ⟨ns, hl, hm⟩ | ⟨x, y, hl, hm, hxy⟩
      · rw [hl, hm]
        exact .inl ⟨n :: ns, rfl, rfl⟩
      · rw [hl, hm]
        exact .inr ⟨x, y, rfl, rfl, hxy⟩

/-- An array of integers ends the same way. -/
theorem Sound.rangeArray (hW : W.Sound) (hr : W.Room) (start stop step : Int64) :
    Ends W SameValue (Builtin.rangeArray start stop step W.left) (Builtin.rangeArray start stop step W.right) := by
  unfold Builtin.rangeArray
  cases Progression.ofBounds? start stop step with
  | none => exact hW.errorValue hr _
  | some r =>
    refine hW.allocRef hr (.array (List.forall₂_same.2 fun v hv => ?_)) rfl trivial
    obtain ⟨n, -, rfl⟩ := List.mem_map.1 hv
    exact .plain rfl

/-- The builtin that makes ranges ends the same way. -/
theorem Sound.rangeOf (hW : W.Sound) (hr : W.Room) {l m : List Value} (h : List.Forall₂ (ValueRel W.Live) l m) :
    Ends W SameValue (Builtin.rangeOf l W.left) (Builtin.rangeOf m W.right) := by
  unfold Builtin.rangeOf
  rw [h.length_eq]
  rcases integers_rel h with ⟨ns, hl, hm⟩ | ⟨v, w, hl, hm, hvw⟩
  · rw [hl, hm]
    match ns with
    | [stop] => exact hW.rangeArray hr _ _ _
    | [start, stop] => exact hW.rangeArray hr _ _ _
    | [start, stop, step] => exact hW.rangeArray hr _ _ _
    | [] => exact .throw hW (by simp)
    | _ :: _ :: _ :: _ :: _ => exact .throw hW (by simp)
  · rw [hl, hm]
    dsimp only
    rw [hvw.isError, hvw.kindName]
    split
    · exact .pure hW hvw
    · exact hW.errorValue hr _

/-- Every builtin ends the same way. -/
theorem Sound.callBuiltin (hW : W.Sound) (hr : W.Room) (c : Builtin) {l m : List Value} (h : List.Forall₂ (ValueRel W.Live) l m) :
    Ends W SameValue (c.call l W.left) (c.call m W.right) := by
  have hfirst : ValueRel W.Live (l.headD .null) (m.headD .null) := by
    cases h with
    | nil => exact .plain rfl
    | cons hvw _ => exact hvw
  cases c with
  | len => exact hW.lenOf hr hfirst
  | typeOf =>
    unfold Builtin.call
    dsimp only
    rw [hfirst.kindName]
    exact hW.allocText hr _
  | str => exact hW.strOf hr hfirst
  | range => exact hW.rangeOf hr h

end Pairing

end ScriptVM
