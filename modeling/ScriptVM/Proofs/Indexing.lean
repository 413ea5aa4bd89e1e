import ScriptVM.Heap.Access
import ScriptVM.Proofs.Arena
import ScriptVM.Proofs.Progressions

/-!
# Indices

Arrays, texts and ranges are indexed by position, from the start or, with a negative index, from the end. The position is computed
in 64 bits, and for fewer than `2 ^ 63` elements it is exact: an index inside of the container selects its element, and every other
index makes a new error value and changes nothing else (`HeapM.index_lawful`).

The three containers share one computation of the position, so the law is proved of that (`indexPosition_front`,
`indexPosition_back`, `indexPosition_outside`) and then carried to each by what its elements are.
-/

namespace ScriptVM

/-! ## Looking at objects -/

namespace Heap

variable {h : Heap} {a : Handle}

/-- A handle of a text is read as the text; those of other containers are read likewise. -/
theorem text_of_get? {s : String} (ho : h.get? a = some (.text s)) : h.text a = .ok s := by simp only [text, ho]

theorem array_of_get? {items : Array Value} (ho : h.get? a = some (.array items)) : h.array a = .ok items := by simp only [array, ho]

theorem map_of_get? {entries : Table MapKey MapEntry} (ho : h.get? a = some (.map entries)) : h.map a = .ok entries := by
  simp only [map, ho]

theorem range_of_get? {r : Progression} (ho : h.get? a = some (.range r)) : h.range a = .ok r := by simp only [range, ho]

end Heap

namespace HeapM

variable {α β : Type} {h : Heap}

/-- A read that succeeds hands its answer on. -/
theorem read_bind {f : Heap → Except RuntimeError α} {g : α → HeapM β} {a : α} (hf : f h = .ok a) : (read f >>= g) h = g a h := by
  change EStateM.bind (read f) g h = _
  simp only [EStateM.bind, read, hf]

/-- A member of a built-in kind is what a member access answers. -/
theorem member_of_member? {object v : Value} {name : String} (hv : member? object name h = .ok (some v) h) :
    member object name h = .ok v h := by
  change EStateM.bind (member? object name) _ h = _
  rw [EStateM.bind, hv]
  rfl

end HeapM

/-! ## New objects -/

/-- A heap without free slots is sparse, if it is unmarked. -/
theorem Heap.Sparse.of_free_nil {h : Heap} (hfree : h.free = []) (hsize : h.slots.size ≤ maxSlots) (hu : h.Unmarked) : h.Sparse where
  free i hi := by
    rw [hfree] at hi
    nomatch hi
  nodup := by
    rw [hfree]
    exact .nil
  size := hsize
  unmarked := hu

/-- A new object takes the place of no other, however many slots there are. -/
theorem Heap.get?_place_of_live {h : Heap} {o p : Object} {a : Handle} (hs : h.Sparse) (ha : h.get? a = some p) :
    (h.place o).2.get? a = some p := by
  obtain ⟨s, hslot, hgeneration, hobject⟩ := get?_eq_some.1 ha
  refine get?_eq_some.2 ⟨s, ?_, hgeneration, hobject⟩
  unfold place
  cases hf : h.free with
  | nil =>
    have hlt := (Array.getElem?_eq_some_iff.1 hslot).1
    rw [Array.getElem?_push, if_neg (Nat.ne_of_lt hlt), hslot]
  | cons i rest =>
    obtain ⟨t, ht, hfree⟩ := hs.free i (by rw [hf]; exact List.mem_cons_self)
    have hne : i.toNat ≠ a.index.toNat := by
      intro heq
      rw [heq, hslot] at ht
      cases ht
      rw [hobject] at hfree
      nomatch hfree
    simp only [Array.getElem?_modify, if_neg hne, hslot]

namespace HeapM

variable {h : Heap} {kind : RefKind} {o : Object} {x y : HeapM Value}

/-- The operation answers with a reference to a new object and leaves all others as they are; or the heap is full, and the operation
fails and leaves the heap as it is. The handle of the new object is its own while there are fewer slots than handles tell apart. -/
structure Makes (x : HeapM Value) (h : Heap) (kind : RefKind) (o : Object) : Prop where
  full : h.atLimit = true → x h = .error (.heap (.exhausted (h.limit.getD 0))) h
  made : h.atLimit = false → ∃ a h', x h = .ok (.ref kind a) h' ∧ (∀ c p, h.get? c = some p → h'.get? c = some p) ∧
    (h.Room → ¬h.Issued a ∧ h'.get? a = some o)

/-- What an operation makes depends on what it does to this heap only. -/
theorem Makes.congr (hm : y.Makes h kind o) (heq : x h = y h) : x.Makes h kind o where
  full := by rw [heq]; exact hm.full
  made := by rw [heq]; exact hm.made

theorem makes_allocRef (hs : h.Sparse) : (allocRef kind o).Makes h kind o where
  full hfull := by rw [allocRef_eq, if_pos hfull]
  made hroom := by
    refine ⟨(h.place o).1, (h.place o).2, ?_, fun c p hp => Heap.get?_place_of_live hs hp, fun hr => ?_⟩
    · rw [allocRef_eq, hroom]
      rfl
    · exact ⟨Heap.not_issued_place hs hr, Heap.get?_place_self hs hr⟩

/-- An error value is a new error. -/
theorem makes_errorValue (hs : h.Sparse) (message : String) : (errorValue message).Makes h .error (.error ⟨message, none⟩) :=
  makes_allocRef hs

end HeapM

/-! ## Positions -/

/-- A number that is an integer within 64 bits is one as an index. -/
theorem Num.toInt64?_of_toInt? {n : Num} {i : Int} (hn : n.toInt? = some i) :
    ∃ j : Int64, (Value.num n).toInt64? = some j ∧ j.toInt = i := by
  cases n with
  | int n =>
    cases hn
    refine ⟨_, rfl, Int64.toInt_ofInt_of_le ?_ ?_⟩
    · have := n.le_toInt
      omega
    · have := n.toInt_lt
      omega
  | int64 n =>
    cases hn
    exact ⟨n, rfl, rfl⟩
  | float x => nomatch hn
  | double x => nomatch hn

section Position

variable {n : Num} {i : Int} {length : Nat}

/-- A length below `2 ^ 63` is an integer of 64 bits. -/
theorem toInt_length (hl : length < 2 ^ 63) : (Int64.ofNat length).toInt = length := Int64.toInt_ofNat_of_lt hl

/-- A negative index is added to such a length without an overflow. -/
theorem toInt_fromEnd (hl : length < 2 ^ 63) {j : Int64} (hj : j < 0) : (j + Int64.ofNat length).toInt = j.toInt + length := by
  have hneg : j.toInt < 0 := Int64.lt_iff_toInt_lt.1 hj
  have hleast := j.le_toInt
  rw [Int64.toInt_add, toInt_length hl]
  exact Int.bmod_eq_of_le (by omega) (by omega)

/-- An index inside from the front is its own position. -/
theorem indexPosition_front (hl : length < 2 ^ 63) (hn : n.toInt? = some i) (hpos : 0 ≤ i) (hi : i < length) :
    indexPosition (.num n) length = .ok i.toNat := by
  obtain ⟨j, hj, rfl⟩ := Num.toInt64?_of_toInt? hn
  have hfront : ¬j < 0 := by
    rw [Int64.lt_iff_toInt_lt]
    exact Int.not_lt.2 hpos
  have hinside : ¬Int64.ofNat length ≤ j := by
    rw [Int64.le_iff_toInt_le, toInt_length hl]
    exact Int.not_le.2 hi
  simp only [indexPosition, hj, if_neg hfront]
  exact if_neg (not_or.2 ⟨hfront, hinside⟩)

/-- An index inside from the back counts from the end. -/
theorem indexPosition_back (hl : length < 2 ^ 63) (hn : n.toInt? = some i) (hneg : i < 0) (hi : -length ≤ i) :
    indexPosition (.num n) length = .ok (length + i).toNat := by
  obtain ⟨j, hj, rfl⟩ := Num.toInt64?_of_toInt? hn
  have hback : j < 0 := Int64.lt_iff_toInt_lt.2 hneg
  have hsum := toInt_fromEnd hl hback
  have hfront : ¬j + Int64.ofNat length < 0 := by
    rw [Int64.lt_iff_toInt_lt, hsum, Int64.toInt_zero]
    omega
  have hinside : ¬Int64.ofNat length ≤ j + Int64.ofNat length := by
    rw [Int64.le_iff_toInt_le, hsum, toInt_length hl]
    omega
  simp only [indexPosition, hj, if_pos hback]
  rw [if_neg (not_or.2 ⟨hfront, hinside⟩), hsum, Int.add_comm]

/-- An integer index outside is reported with its value and the length. -/
theorem indexPosition_outside (hl : length < 2 ^ 63) (hn : n.toInt? = some i) (hi : i < -length ∨ length ≤ i) :
    ∃ j : Int64, j.toInt = i ∧ indexPosition (.num n) length = .error (.outOfBounds j length) := by
  obtain ⟨j, hj, rfl⟩ := Num.toInt64?_of_toInt? hn
  refine ⟨j, rfl, ?_⟩
  simp only [indexPosition, hj]
  by_cases hback : j < 0
  · have hneg : j.toInt < 0 := Int64.lt_iff_toInt_lt.1 hback
    have hsum := toInt_fromEnd hl hback
    rw [if_pos hback]
    refine if_pos (.inl ?_)
    rw [Int64.lt_iff_toInt_lt, hsum, Int64.toInt_zero]
    omega
  · have hpos : ¬j.toInt < 0 := fun hneg => hback (Int64.lt_iff_toInt_lt.2 hneg)
    rw [if_neg hback]
    refine if_pos (.inr ?_)
    rw [Int64.le_iff_toInt_le, toInt_length hl]
    omega

/-- A value that is no integer is reported with its kind. -/
theorem indexPosition_other {v : Value} (hv : ∀ n : Num, v = .num n → n.toInt? = none) :
    indexPosition v length = .error (.notInteger v.kindName) := by
  have hnone : v.toInt64? = none := by
    cases v with
    | num n =>
      cases n with
      | int n => nomatch hv _ rfl
      | int64 n => nomatch hv _ rfl
      | _ => rfl
    | _ => rfl
  simp only [indexPosition, hnone]

end Position

/-! ## Elements -/

/-- What stands at a position of a container: a value, or a character of a text. -/
inductive Element where
  | value (v : Value)
  | character (c : Char)

/-- The elements of an array, a text or a range in order. -/
def Object.elements? : Object → Option (List Element)
  | .array items => some (items.toList.map .value)
  | .text s => some (s.toList.map .character)
  | .range r => some (r.toList.map fun n => .value (.ofInt64 n))
  | _ => none

namespace HeapM

variable {h : Heap} {kind : RefKind} {a : Handle} {o : Object} {es : List Element} {v : Value}

/-- The operation answers with an element: a value that the container holds, or a new text of one character. -/
def Selects (x : HeapM Value) (h : Heap) : Element → Prop
  | .value v => x h = .ok v h
  | .character c => x.Makes h .string (.text (String.ofList [c]))

/-- An access at a position picks the element there. -/
theorem elementAt_ok {length k : Nat} {f : Nat → HeapM Value} (hk : indexPosition v length = .ok k) : elementAt v length f = f k := by
  rw [elementAt, hk]

/-- An access without a position makes an error value. -/
theorem elementAt_error {length : Nat} {f : Nat → HeapM Value} {e : IndexFault} (he : indexPosition v length = .error e) :
    elementAt v length f = errorValue e.message := by
  rw [elementAt, he]

/-- Indexing an array picks the value at the position. -/
theorem index_array {items : Array Value} (ho : h.get? a = some (.array items)) (hv : v.isError = false) :
    index (.ref .array a) v h = elementAt v items.size (fun i => return items.getD i .null) h := by
  exact (congrFun ((if_neg Bool.false_ne_true).trans (if_neg (Bool.eq_false_iff.1 hv))) h).trans (read_bind (Heap.array_of_get? ho))

/-- Indexing a text makes a text of the character at the position. -/
theorem index_text {s : String} (ho : h.get? a = some (.text s)) (hv : v.isError = false) :
    index (.ref .string a) v h =
      elementAt v s.toList.length (fun i => allocText (String.ofList (s.toList[i]?).toList)) h := by
  exact (congrFun ((if_neg Bool.false_ne_true).trans (if_neg (Bool.eq_false_iff.1 hv))) h).trans (read_bind (Heap.text_of_get? ho))

/-- Indexing a range picks the integer at the position. -/
theorem index_range {r : Progression} (ho : h.get? a = some (.range r)) (hv : v.isError = false) :
    index (.ref .range a) v h =
      elementAt v r.length (fun i => return ((r.get? i).map Value.ofInt64).getD .null) h := by
  exact (congrFun ((if_neg Bool.false_ne_true).trans (if_neg (Bool.eq_false_iff.1 hv))) h).trans (read_bind (Heap.range_of_get? ho))

/-- An index is answered by the position that it selects: with the element there, or with an error value if there is none. -/
theorem index_elements (hs : h.Sparse) (ho : h.get? a = some o) (hkind : o.kind? = some kind) (hes : o.elements? = some es)
    (hv : v.isError = false) :
    (∀ k e, indexPosition v es.length = .ok k → es[k]? = some e → (index (.ref kind a) v).Selects h e) ∧
    ∀ f, indexPosition v es.length = .error f → index (.ref kind a) v h = errorValue f.message h := by
  cases o with
  | array items =>
    cases hkind
    cases hes
    rw [List.length_map, Array.length_toList]
    refine ⟨fun k e hk he => ?_, fun f hf => ?_⟩
    · rw [List.getElem?_map, Array.getElem?_toList] at he
      obtain ⟨w, hw, rfl⟩ := Option.map_eq_some_iff.1 he
      change index _ v h = _
      rw [index_array ho hv, elementAt_ok hk]
      simp only [Array.getD_eq_getD_getElem?, hw]
      rfl
    · rw [index_array ho hv, elementAt_error hf]
  | text s =>
    cases hkind
    cases hes
    rw [List.length_map]
    refine ⟨fun k e hk he => ?_, fun f hf => ?_⟩
    · rw [List.getElem?_map] at he
      obtain ⟨c, hc, rfl⟩ := Option.map_eq_some_iff.1 he
      refine (makes_allocRef hs).congr ?_
      rw [index_text ho hv, elementAt_ok hk, hc]
      rfl
    · rw [index_text ho hv, elementAt_error hf]
  | range r =>
    cases hkind
    cases hes
    rw [List.length_map, Progression.length_toList]
    refine ⟨fun k e hk he => ?_, fun f hf => ?_⟩
    · rw [List.getElem?_map, Progression.getElem?_toList] at he
      obtain ⟨n, hn, rfl⟩ := Option.map_eq_some_iff.1 he
      change index _ v h = _
      rw [index_range ho hv, elementAt_ok hk]
      simp only [hn]
      rfl
    · rw [index_range ho hv, elementAt_error hf]
  | _ => nomatch hes

/-! ## The law of indices -/

/-- Indexing follows the law for a container with the given elements: an integer from the front or from the back selects its
element, and every other index makes a new error value. The length and the position from the back are computed exactly. -/
structure Indexes (index : Value → HeapM Value) (h : Heap) (es : List Element) : Prop where
  front : ∀ (n : Num) (i : Int), n.toInt? = some i → 0 ≤ i → i < es.length →
    ∃ e, es[i.toNat]? = some e ∧ (index (.num n)).Selects h e
  back : ∀ (n : Num) (i : Int), n.toInt? = some i → i < 0 → -es.length ≤ i →
    ∃ e, es[(es.length + i).toNat]? = some e ∧ (index (.num n)).Selects h e
  outside : ∀ (n : Num) (i : Int), n.toInt? = some i → i < -es.length ∨ es.length ≤ i →
    (index (.num n)).Makes h .error (.error ⟨s!"index {i} out of bounds for length {es.length}", none⟩)
  other : ∀ v : Value, (∀ n : Num, v = .num n → n.toInt? = none) → v.isError = false →
    (index v).Makes h .error (.error ⟨s!"index must be an integer, got {v.kindName}", none⟩)
  exact : (Int64.ofNat es.length).toInt = es.length ∧
    ∀ j : Int64, j < 0 → (j + Int64.ofNat es.length).toInt = j.toInt + es.length

/-- Arrays, texts and ranges of fewer than `2 ^ 63` elements follow the law of indices. -/
theorem index_lawful (hs : h.Sparse) (ho : h.get? a = some o) (hkind : o.kind? = some kind) (hes : o.elements? = some es)
    (hlength : es.length < 2 ^ 63) : Indexes (index (.ref kind a)) h es where
  front n i hn hpos hi := by
    have hlt : i.toNat < es.length := by omega
    refine ⟨es[i.toNat], List.getElem?_eq_getElem hlt, ?_⟩
    exact (index_elements hs ho hkind hes rfl).1 _ _ (indexPosition_front hlength hn hpos hi) (List.getElem?_eq_getElem hlt)
  back n i hn hneg hi := by
    have hlt : (es.length + i).toNat < es.length := by omega
    refine ⟨es[(es.length + i).toNat], List.getElem?_eq_getElem hlt, ?_⟩
    exact (index_elements hs ho hkind hes rfl).1 _ _ (indexPosition_back hlength hn hneg hi) (List.getElem?_eq_getElem hlt)
  outside n i hn hi := by
    obtain ⟨j, rfl, hj⟩ := indexPosition_outside hlength hn hi
    have hfault := (index_elements hs ho hkind hes rfl).2 _ hj
    exact (makes_errorValue hs _).congr hfault
  other v hv herror := by
    have hfault := (index_elements hs ho hkind hes herror).2 _ (indexPosition_other hv)
    exact (makes_errorValue hs _).congr hfault
  exact := ⟨toInt_length hlength, fun _ hj => toInt_fromEnd hlength hj⟩

/-- A heap that holds a text, one of whose characters takes two bytes. -/
def accentSample : Heap := { slots := #[⟨0, false, some (.text "né")⟩], live := 1, threshold := 0, limit := none }

theorem sparse_accentSample : accentSample.Sparse := .of_free_nil rfl (by decide) (by decide)

/-- The last character is selected by `-1`. -/
theorem index_lawful_accentSample : accentSample.Sparse ∧ accentSample.get? ⟨0, 0⟩ = some (.text "né") ∧
    Indexes (index (.ref .string ⟨0, 0⟩)) accentSample [.character 'n', .character 'é'] ∧
    (index (.ref .string ⟨0, 0⟩) (.int (-1))).Makes accentSample .string (.text "é") := by
  have hlaw : Indexes (index (.ref .string ⟨0, 0⟩)) accentSample [.character 'n', .character 'é'] :=
    index_lawful sparse_accentSample rfl rfl rfl (by decide)
  obtain ⟨e, he, hselects⟩ := hlaw.back (.int (-1)) (-1) rfl (by decide) (by decide)
  cases he
  exact ⟨sparse_accentSample, rfl, hlaw, hselects⟩

end HeapM

end ScriptVM
