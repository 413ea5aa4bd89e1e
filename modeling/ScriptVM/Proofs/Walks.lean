import Mathlib.Logic.Relation
import ScriptVM.Native
import ScriptVM.Proofs.Codec
import ScriptVM.Proofs.Indexing
import ScriptVM.Proofs.Promotion

/-!
# Walks visit everything once

A walk over an array, a range or a map is started, and then advanced until it yields nothing. It comes to an end, and by then it has
yielded every element with its index, or every entry with its key, once and in order (`Traversal.iteration_exact`). At any time the
look ahead says whether the next step yields, and behind the end every step yields nothing.

A walk holds only a position. What it has yet to visit is read off the container and the position (`Traversal.Rests`); a step takes
the first of it and leaves the others (`Traversal.Rests.nextPair`), and everything else follows from that.
-/

namespace ScriptVM

/-! ## Cursors -/

namespace Table

variable {κ ν : Type} {t : Table κ ν} {c : Cursor}

/-- The entries from a cursor on. -/
def rest (t : Table κ ν) (c : Cursor) : List (κ × ν) :=
  ((t.chains[c.chain]?).getD []).drop c.depth ++ (t.chains.toList.drop (c.chain + 1)).flatten

/-- All entries of the table lie behind the first cursor. -/
theorem rest_start : t.rest {} = t.toList := by
  have hpos : 0 < t.chains.toList.length := t.chains_pos
  have hchains : t.chains.toList = t.chains.toList[0] :: t.chains.toList.drop 1 := List.drop_eq_getElem_cons hpos
  rw [toList, hchains]
  simp [rest, t.chains_pos]

/-- A cursor takes the first of the entries from it on and leaves the others. -/
theorem next_eq_head? (t : Table κ ν) (c : Cursor) : (t.next c).1 = (t.rest c).head? ∧ t.rest (t.next c).2 = (t.rest c).tail := by
  fun_induction Table.next t c with
  | case1 c hc entry hentry =>
    obtain ⟨hdepth, rfl⟩ := List.getElem?_eq_some_iff.1 hentry
    have hrest : t.rest c = t.chains[c.chain][c.depth] :: t.rest { c with depth := c.depth + 1 } := by
      simp only [rest, Array.getElem?_eq_getElem hc, Option.getD_some, List.drop_eq_getElem_cons hdepth, List.cons_append]
    rw [hrest]
    exact ⟨rfl, rfl⟩
  | case2 c hc hnone ih =>
    have hrest : t.rest c = t.rest ⟨c.chain + 1, 0⟩ := by
      have hdepth := List.getElem?_eq_none_iff.1 hnone
      simp only [rest, Array.getElem?_eq_getElem hc, Option.getD_some, List.drop_of_length_le hdepth, List.nil_append, List.drop_zero]
      by_cases hlast : c.chain + 1 < t.chains.size
      · have hlast' : c.chain + 1 < t.chains.toList.length := hlast
        rw [List.drop_eq_getElem_cons hlast', Array.getElem?_eq_getElem hlast]
        rfl
      · rw [Array.getElem?_eq_none (Nat.not_lt.1 hlast), List.drop_of_length_le (Nat.not_lt.1 hlast),
          List.drop_of_length_le (by rw [Array.length_toList]; omega)]
        rfl
    rw [hrest]
    exact ih
  | case3 c hc =>
    have hrest : t.rest c = [] := by
      have hlast : t.chains.toList.length ≤ c.chain + 1 := Nat.le_succ_of_le (Nat.not_lt.1 hc)
      rw [rest, Array.getElem?_eq_none (Nat.not_lt.1 hc), List.drop_of_length_le hlast]
      simp
    rw [hrest]
    exact ⟨rfl, rfl⟩

/-- A cursor that found no entry stays where it is. -/
theorem next_of_none (hc : (t.next c).1 = none) : t.next (t.next c).2 = (none, (t.next c).2) := by
  fun_induction Table.next t c with
  | case1 => nomatch hc
  | case2 c _ _ ih => exact ih hc
  | case3 c hend => rw [Table.next, dif_neg hend]

end Table

/-! ## What is left of a walk -/

/-- The steps of a full walk over a container: indices and elements of an array or a range, keys and values of a map. An index is
counted in 64 bits, which wrap around. -/
def Object.visits? : Object → Option (List (Value × Value))
  | .array items => some (items.toList.mapIdx fun i v => (.ofCount i, v))
  | .range r => some ((List.range r.length).map fun i => (.ofCount i, .ofInt64 (r.element i)))
  | .map entries => some (entries.toList.map fun p => (p.2.key, p.2.value))
  | _ => none

/-- What a step yields for a pair of key and value: both for two variables or more, and else the value. -/
def Yield.ofPair (arity : UInt8) (p : Value × Value) : Yield := if 2 ≤ arity then .two p.1 p.2 else .one p.2

namespace Traversal

variable {h : Heap} {arity : UInt8} {t u : Traversal} {ps : List (Value × Value)}

/-- What a walk has yet to visit. -/
inductive Rests (h : Heap) : Traversal → List (Value × Value) → Prop where
  | array {a : Handle} {items : Array Value} (i : Nat) : h.get? a = some (.array items) →
      Rests h (.array a i) ((items.toList.mapIdx fun i v => (.ofCount i, v)).drop i)
  | range {a : Handle} {r : Progression} (i : Nat) : h.get? a = some (.range r) →
      Rests h (.range a i) (((List.range r.length).map fun i => (.ofCount i, .ofInt64 (r.element i))).drop i)
  | map {a : Handle} {entries : Table MapKey MapEntry} (c : Cursor) : h.get? a = some (.map entries) →
      Rests h (.map a c) ((entries.rest c).map fun p => (p.2.key, p.2.value))

/-- A walk over a container begins with all of it to visit. -/
theorem exists_start {a : Handle} {o : Object} {kind : RefKind} (ho : h.get? a = some o) (hkind : o.kind? = some kind)
    (hps : o.visits? = some ps) : ∃ t, start? (.ref kind a) = some t ∧ Rests h t ps := by
  cases o with
  | array items =>
    cases hkind
    cases hps
    exact ⟨_, rfl, .array 0 ho⟩
  | range r =>
    cases hkind
    cases hps
    exact ⟨_, rfl, .range 0 ho⟩
  | map entries =>
    cases hkind
    cases hps
    refine ⟨_, rfl, ?_⟩
    rw [← Table.rest_start]
    exact .map {} ho
  | _ => nomatch hps

/-- Nothing is left behind the end of a list. -/
theorem tail_drop_of_le {α : Type} {l : List α} {i : Nat} (hi : l.length ≤ i) : (l.drop i).tail = l.drop i := by
  rw [List.drop_of_length_le hi, List.tail_nil]

/-- A step takes the first pair that is left, and the look ahead says whether there is one. -/
theorem Rests.nextPair (ht : Rests h t ps) :
    ∃ t', t.nextPair h = .ok (ps.head?, t') ∧ Rests h t' ps.tail ∧ t.hasNext h = .ok ps.head?.isSome := by
  cases ht with
  | @array a items i ho =>
    have hread := Heap.array_of_get? ho
    rw [List.head?_drop, List.getElem?_mapIdx, Array.getElem?_toList]
    cases hitem : items[i]? with
    | some item =>
      have hi := (Array.getElem?_eq_some_iff.1 hitem).1
      refine ⟨.array a (i + 1), ?_, ?_, ?_⟩
      · simp [Traversal.nextPair, hread, hitem, bind, Except.bind, pure, Except.pure]
      · rw [List.tail_drop]
        exact .array (i + 1) ho
      · simp [hasNext, hread, hi, bind, Except.bind, pure, Except.pure]
    | none =>
      have hi := Array.getElem?_eq_none_iff.1 hitem
      refine ⟨.array a i, ?_, ?_, ?_⟩
      · simp [Traversal.nextPair, hread, hitem, bind, Except.bind, pure, Except.pure]
      · rw [tail_drop_of_le (by simpa using hi)]
        exact .array i ho
      · simp [hasNext, hread, hi, bind, Except.bind, pure, Except.pure]
  | @range a r i ho =>
    have hread := Heap.range_of_get? ho
    rw [List.head?_drop, List.getElem?_map]
    by_cases hi : i < r.length
    · refine ⟨.range a (i + 1), ?_, ?_, ?_⟩
      · simp [Traversal.nextPair, hread, Progression.get?, hi, bind, Except.bind, pure, Except.pure]
      · rw [List.tail_drop]
        exact .range (i + 1) ho
      · simp [hasNext, hread, hi, bind, Except.bind, pure, Except.pure]
    · refine ⟨.range a i, ?_, ?_, ?_⟩
      · simp [Traversal.nextPair, hread, Progression.get?, hi, bind, Except.bind, pure, Except.pure]
      · rw [tail_drop_of_le (by simpa using hi)]
        exact .range i ho
      · simp [hasNext, hread, hi, bind, Except.bind, pure, Except.pure]
  | @map a entries c ho =>
    have hread := Heap.map_of_get? ho
    obtain ⟨hhead, htail⟩ := entries.next_eq_head? c
    refine ⟨.map a (entries.next c).2, ?_, ?_, ?_⟩
    · simp only [Traversal.nextPair, hread, List.head?_map, ← hhead]
      rfl
    · rw [← List.map_tail, ← htail]
      exact .map _ ho
    · simp only [hasNext, hread, List.head?_map, Option.isSome_map, ← hhead]
      rfl

/-- A step takes the first of what a walk has left, in the form asked for. -/
theorem Rests.next (ht : Rests h t ps) (arity : UInt8) :
    ∃ t', t.next h arity = .ok (ps.head?.map (Yield.ofPair arity), t') ∧ Rests h t' ps.tail := by
  obtain ⟨t', hnext, ht', -⟩ := ht.nextPair
  refine ⟨t', ?_, ht'⟩
  rw [Traversal.next, hnext]
  rfl

/-! ## Walks to the end -/

/-- What the steps of a walk yield up to the first that yields nothing, and the walk behind that step. -/
inductive Drains (h : Heap) (arity : UInt8) : Traversal → List Yield → Traversal → Prop where
  | done {t t' : Traversal} : t.next h arity = .ok (none, t') → Drains h arity t [] t'
  | step {t t' t'' : Traversal} {y : Yield} {ys : List Yield} : t.next h arity = .ok (some y, t') → Drains h arity t' ys t'' →
      Drains h arity t (y :: ys) t''

/-- A step leads from one walk to the other, whatever it yields. -/
def Advances (h : Heap) (arity : UInt8) (t u : Traversal) : Prop := ∃ y, t.next h arity = .ok (y, u)

/-- The walk takes a step, the look ahead says whether that yields, and if it does not, then neither does any later one. -/
def Coherent (h : Heap) (arity : UInt8) (t : Traversal) : Prop :=
  ∃ y u, t.next h arity = .ok (y, u) ∧ t.hasNext h = .ok y.isSome ∧ (y = none → u.next h arity = .ok (none, u))

/-- A walk drains what is left of it. -/
theorem Rests.drains (ht : Rests h t ps) (arity : UInt8) : ∃ u, Drains h arity t (ps.map (Yield.ofPair arity)) u := by
  induction ps generalizing t with
  | nil =>
    obtain ⟨u, hnext, -⟩ := ht.next arity
    exact ⟨u, .done hnext⟩
  | cons p ps ih =>
    obtain ⟨t', hnext, ht'⟩ := ht.next arity
    obtain ⟨u, hu⟩ := ih ht'
    exact ⟨u, .step hnext hu⟩

/-- A walk that advances has the others left. -/
theorem Rests.advances (ht : Rests h t ps) (htu : Advances h arity t u) : Rests h u ps.tail := by
  obtain ⟨y, hu⟩ := htu
  obtain ⟨t', hnext, ht'⟩ := ht.next arity
  cases hu.symm.trans hnext
  exact ht'

/-- A walk that has advanced some steps has something left, if only nothing. -/
theorem Rests.passes (ht : Rests h t ps) (htu : Relation.ReflTransGen (Advances h arity) t u) : ∃ qs, Rests h u qs := by
  induction htu with
  | refl => exact ⟨ps, ht⟩
  | tail _ hstep ih =>
    obtain ⟨qs, hqs⟩ := ih
    exact ⟨_, hqs.advances hstep⟩

/-- A step that yields nothing is followed by others that yield nothing and go nowhere. -/
theorem nextPair_of_none (ht : t.nextPair h = .ok (none, u)) : u.nextPair h = .ok (none, u) := by
  cases t with
  | array a i =>
    obtain ⟨items, -, hnext⟩ := bind_eq_ok.1 (id ht)
    split at hnext
    · nomatch hnext
    · cases hnext
      exact ht
  | range a i =>
    obtain ⟨r, -, hnext⟩ := bind_eq_ok.1 (id ht)
    split at hnext
    · nomatch hnext
    · cases hnext
      exact ht
  | map a c =>
    obtain ⟨entries, hread, hnext⟩ := bind_eq_ok.1 ht
    obtain ⟨hnone, rfl⟩ := Prod.mk.inj (Except.ok.inj hnext)
    refine bind_eq_ok.2 ⟨entries, hread, ?_⟩
    rw [Table.next_of_none (Option.map_eq_none_iff.1 hnone)]
    rfl

/-- A walk that yields nothing yields nothing again. -/
theorem next_of_none (ht : t.next h arity = .ok (none, u)) : u.next h arity = .ok (none, u) := by
  obtain ⟨⟨pair, t'⟩, hpair, hyield⟩ := bind_eq_ok.1 ht
  obtain ⟨hnone, rfl⟩ := Prod.mk.inj (Except.ok.inj hyield)
  cases Option.map_eq_none_iff.1 hnone
  rw [Traversal.next, nextPair_of_none hpair]
  rfl

/-- A walk with something known to be left is coherent. -/
theorem Rests.coherent (ht : Rests h t ps) (arity : UInt8) : Coherent h arity t := by
  obtain ⟨u, hnext, -⟩ := ht.next arity
  obtain ⟨-, -, -, hlook⟩ := ht.nextPair
  refine ⟨_, u, hnext, by rw [hlook, Option.isSome_map], fun hnone => ?_⟩
  rw [hnone] at hnext
  exact next_of_none hnext

/-- A walk over a range yields its elements, however many there are. -/
theorem drains_range {a : Handle} {r : Progression} (ho : h.get? a = some (.range r)) (harity : arity < 2) :
    ∃ t u, start? (.ref .range a) = some t ∧ Drains h arity t (r.toList.map fun n => .one (.ofInt64 n)) u := by
  obtain ⟨t, hstart, hrests⟩ := exists_start ho rfl rfl
  obtain ⟨u, hu⟩ := hrests.drains arity
  refine ⟨t, u, hstart, ?_⟩
  have hone : ¬2 ≤ arity := UInt8.not_le.2 harity
  have hvalues : ((List.range r.length).map fun i => (Value.ofCount i, Value.ofInt64 (r.element i))).map (Yield.ofPair arity) =
      r.toList.map fun n => .one (.ofInt64 n) := by
    simp only [Progression.toList, List.map_map, Function.comp_def, Yield.ofPair, if_neg hone]
  rwa [hvalues] at hu

end Traversal

/-! ## Exact indices -/

/-- The pairs of a container: an array's elements and a range's terms, each with its index, and a map's values, each with the key it
was stored under. -/
def Object.pairs? : Object → Option (List (Value × Value))
  | .array items => some (items.toList.mapIdx fun i v => (.num (.ofInt i), v))
  | .range r =>
    some ((List.range r.length).map fun i : Nat => (.num (.ofInt i), .num (.ofInt (r.start.toInt + r.step.toInt * i))))
  | .map entries => some (entries.toList.map fun p => (p.2.key, p.2.value))
  | _ => none

/-- A count below `2 ^ 63` is shown as itself. -/
theorem Value.ofCount_eq {n : Nat} (hn : n < 2 ^ 63) : ofCount n = .num (.ofInt n) := by rw [ofCount, ofInt64, toInt_length hn]

/-- An element below the length is shown as its term. -/
theorem Progression.ofInt64_element {r : Progression} {i : Nat} (hi : i < r.length) :
    Value.ofInt64 (r.element i) = .num (.ofInt (r.start.toInt + r.step.toInt * i)) := by
  rw [Value.ofInt64, toInt_element hi, term]

/-- With fewer than `2 ^ 63` pairs no index wraps around. -/
theorem Object.visits?_of_pairs? {o : Object} {ps : List (Value × Value)} (hps : o.pairs? = some ps) (hlength : ps.length < 2 ^ 63) :
    o.visits? = some ps := by
  cases o with
  | array items =>
    cases hps
    rw [List.length_mapIdx] at hlength
    refine congrArg some (List.ext_getElem? fun i => ?_)
    rw [List.getElem?_mapIdx, List.getElem?_mapIdx]
    cases hitem : items.toList[i]? with
    | none => rfl
    | some v =>
      have hi := (List.getElem?_eq_some_iff.1 hitem).1
      rw [Option.map_some, Value.ofCount_eq (Nat.lt_trans hi hlength)]
      rfl
  | range r =>
    cases hps
    rw [List.length_map, List.length_range] at hlength
    refine congrArg some (List.map_congr_left fun i hi => ?_)
    have hi := List.mem_range.1 hi
    rw [Value.ofCount_eq (Nat.lt_trans hi hlength), Progression.ofInt64_element hi]
  | map entries => exact hps
  | _ => nomatch hps

/-! ## Ranges, and arrays of their elements -/

section Ranges

variable {h : Heap} {m n k : Num} {x y z : Int}

/-- A number that is an integer is the bound it stands for. -/
theorem Num.bound? (hn : n.toInt? = some x) : h.bound? (.num n) = .ok (Value.num n).toInt64? := by
  cases n with
  | int n => rfl
  | int64 n => rfl
  | float n => nomatch hn
  | double n => nomatch hn

/-- From the same three integers a range and an array are made; the array holds the elements of the range. -/
theorem makes_range_and_array (hs : h.Sparse) (hm : m.toInt? = some x) (hn : n.toInt? = some y) (hk : k.toInt? = some z)
    (hz : z ≠ 0) : ∃ r : Progression, (HeapM.buildRange (.num m) (.num n) (.num k)).Makes h .range (.range r) ∧
      (Builtin.range.call [.num m, .num n, .num k]).Makes h .array (.array (r.toList.map Value.ofInt64).toArray) := by
  obtain ⟨start, hstart, rfl⟩ := Num.toInt64?_of_toInt? hm
  obtain ⟨stop, hstop, rfl⟩ := Num.toInt64?_of_toInt? hn
  obtain ⟨step, hstep, rfl⟩ := Num.toInt64?_of_toInt? hk
  have hne : step ≠ 0 := by
    rintro rfl
    exact hz rfl
  have hbounds : Progression.ofBounds? start stop step = some ⟨start, stop, step, hne⟩ := dif_pos hne
  refine ⟨⟨start, stop, step, hne⟩, (HeapM.makes_allocRef hs).congr ?_, (HeapM.makes_allocRef hs).congr ?_⟩
  · have hm' := (Num.bound? (h := h) hm).trans (congrArg Except.ok hstart)
    have hn' := (Num.bound? (h := h) hn).trans (congrArg Except.ok hstop)
    have hk' := (Num.bound? (h := h) hk).trans (congrArg Except.ok hstep)
    refine (HeapM.read_bind hm').trans ((HeapM.read_bind hn').trans ((HeapM.read_bind hk').trans ?_))
    simp only [if_neg hne, HeapM.allocRange, hbounds]
  · have hintegers : Builtin.integers [.num m, .num n, .num k] = .ok [start, stop, step] := by
      simp only [Builtin.integers, hstart, hstop, hstep]
      rfl
    simp only [Builtin.call, Builtin.rangeOf, hintegers, Builtin.rangeArray, hbounds]
    rfl

end Ranges

/-! ## One exact pass -/

namespace Traversal

/-- A walk over an array, a range or a map with fewer than `2 ^ 63` elements comes to its end and yields the pairs of the container,
each once and in order; at any time the look ahead is right, and a step that yields nothing is the last that could. The elements that
a range yields are those of the array that is made from the same three integers. -/
theorem iteration_exact :
    (∀ {h : Heap} {a : Handle} {o : Object} {kind : RefKind} {ps : List (Value × Value)}, h.get? a = some o → o.kind? = some kind →
      o.pairs? = some ps → ps.length < 2 ^ 63 → ∀ arity : UInt8, ∃ t u, start? (.ref kind a) = some t ∧
        Drains h arity t (ps.map fun p => if 2 ≤ arity then .two p.1 p.2 else .one p.2) u ∧
        ∀ t', Relation.ReflTransGen (Advances h arity) t t' → t'.Coherent h arity) ∧
    ∀ {h : Heap} {m n k : Num} {x y z : Int}, h.Sparse → m.toInt? = some x → n.toInt? = some y → k.toInt? = some z → z ≠ 0 →
      ∃ (r : Progression) (items : Array Value), (HeapM.buildRange (.num m) (.num n) (.num k)).Makes h .range (.range r) ∧
        (Builtin.range.call [.num m, .num n, .num k]).Makes h .array (.array items) ∧
        ∀ (h' : Heap) (b : Handle), h'.get? b = some (.range r) → ∀ arity < 2, ∃ t u, start? (.ref .range b) = some t ∧
          Drains h' arity t (items.toList.map .one) u := by
  refine ⟨?_, ?_⟩
  · intro h a o kind ps ho hkind hps hlength arity
    obtain ⟨t, hstart, hrests⟩ := exists_start ho hkind (Object.visits?_of_pairs? hps hlength)
    obtain ⟨u, hu⟩ := hrests.drains arity
    refine ⟨t, u, hstart, hu, fun t' ht' => ?_⟩
    obtain ⟨qs, hqs⟩ := hrests.passes ht'
    exact hqs.coherent arity
  · intro h m n k x y z hs hm hn hk hz
    obtain ⟨r, hrange, harray⟩ := makes_range_and_array hs hm hn hk hz
    refine ⟨r, _, hrange, harray, fun h' b hb arity harity => ?_⟩
    obtain ⟨t, u, hstart, hu⟩ := drains_range hb harity
    refine ⟨t, u, hstart, ?_⟩
    rw [List.map_map]
    exact hu

/-- A table with an empty chain, a chain of two entries and a chain of one. -/
def chainTable : Table MapKey MapEntry :=
  ⟨#[[], [(.int 2, ⟨.int 2, .bool true⟩), (.int 1, ⟨.int 1, .null⟩)], [(.null, ⟨.null, .int 7⟩)]], 3, by decide⟩

/-- A heap that holds a map. -/
def chainSample : Heap := { slots := #[⟨0, false, some (.map chainTable)⟩], live := 1, threshold := 0, limit := none }

theorem sparse_chainSample : chainSample.Sparse := .of_free_nil rfl (by decide) (by decide)

/-- All entries of the map are visited, and `5..0 step -2` yields what `range(5, 0, -2)` holds. -/
theorem iteration_exact_chainSample :
    (∃ t u, start? (.ref .map ⟨0, 0⟩) = some t ∧
      Drains chainSample 2 t [.two (.int 2) (.bool true), .two (.int 1) .null, .two .null (.int 7)] u ∧
      ∀ t', Relation.ReflTransGen (Advances chainSample 2) t t' → t'.Coherent chainSample 2) ∧
    chainSample.Sparse ∧
    ∃ (r : Progression) (items : Array Value), (HeapM.buildRange (.int 5) (.int 0) (.int (-2))).Makes chainSample .range (.range r) ∧
      (Builtin.range.call [.int 5, .int 0, .int (-2)]).Makes chainSample .array (.array items) ∧
      ∀ (h' : Heap) (b : Handle), h'.get? b = some (.range r) → ∀ arity < 2, ∃ t u, start? (.ref .range b) = some t ∧
        Drains h' arity t (items.toList.map .one) u := by
  have hpairs : (Object.map chainTable).pairs? = some [(.int 2, .bool true), (.int 1, .null), (.null, .int 7)] := rfl
  exact ⟨iteration_exact.1 rfl rfl hpairs (by decide) 2, sparse_chainSample,
    iteration_exact.2 (z := -2) sparse_chainSample rfl rfl rfl (by decide)⟩

end Traversal

end ScriptVM
