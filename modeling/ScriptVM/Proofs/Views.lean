import ScriptVM.Heap.Environment
import ScriptVM.Proofs.Pairing

/-!
# What values mean on both sides of a pairing

Every look at the heap by a value that lives on both sides succeeds, and finds the same on both: as an operand, as the key of a
map, under equality, in its displayed form, and along environments. The walks through containers and environments are bounded by
the number of slots; they end before that, as what lives on both sides is nested.
-/

namespace ScriptVM

/-- Both looks at a heap succeed, and find related things. -/
def BothOk {α β : Type} (P : α → β → Prop) (x : Except RuntimeError α) (y : Except RuntimeError β) : Prop :=
  ∃ a b, x = .ok a ∧ y = .ok b ∧ P a b

namespace BothOk

variable {α β γ δ : Type} {P : α → β → Prop} {Q : γ → δ → Prop}

/-- Two answers that are related are found on both sides. -/
theorem pure {a : α} {b : β} (h : P a b) : BothOk P (.ok a) (.ok b) := ⟨a, b, rfl, rfl, h⟩

/-- Looks in sequence succeed on both sides when their parts do. -/
theorem bind {x : Except RuntimeError α} {y : Except RuntimeError β} (h : BothOk P x y) {f : α → Except RuntimeError γ}
    {g : β → Except RuntimeError δ} (hfg : ∀ a b, P a b → BothOk Q (f a) (g b)) : BothOk Q (x >>= f) (y >>= g) := by
  obtain ⟨a, b, rfl, rfl, hab⟩ := h
  exact hfg a b hab

/-- Looks along related lists succeed on both sides when each does. -/
theorem mapM {f : α → Except RuntimeError γ} {g : β → Except RuntimeError δ} {l : List α} {m : List β}
    (h : List.Forall₂ (fun a b => BothOk Q (f a) (g b)) l m) : BothOk (List.Forall₂ Q) (l.mapM f) (m.mapM g) := by
  induction h with
  | nil => exact pure .nil
  | cons hab _ ih =>
    rw [List.mapM_cons, List.mapM_cons]
    exact hab.bind fun c d hcd => ih.bind fun cs ds hcs => pure (.cons hcd hcs)

end BothOk

namespace Pairing

variable {W : Pairing} {a b : Handle}

/-! ## Objects by their kind -/

/-- A text that lives on both sides is the same text; the other kinds of objects are the same up to handles. -/
theorem Sound.text (hW : W.Sound) (h : W.Live (some .string) a b) : BothOk Eq (W.left.text a) (W.right.text b) := by
  obtain ⟨o, p, ho, hp, hkind, hrel⟩ := hW.objects h
  unfold Heap.text
  rw [ho, hp]
  cases hrel with
  | text s => exact .pure rfl
  | _ => nomatch hkind

theorem Sound.array (hW : W.Sound) (h : W.Live (some .array) a b) :
    BothOk (fun xs ys => List.Forall₂ (ValueRel W.Live) xs.toList ys.toList) (W.left.array a) (W.right.array b) := by
  obtain ⟨o, p, ho, hp, hkind, hrel⟩ := hW.objects h
  unfold Heap.array
  rw [ho, hp]
  cases hrel with
  | array h => exact .pure h
  | _ => nomatch hkind

theorem Sound.map (hW : W.Sound) (h : W.Live (some .map) a b) :
    BothOk (TableRel (KeyRel W.same) (EntryRel W.Live)) (W.left.map a) (W.right.map b) := by
  obtain ⟨o, p, ho, hp, hkind, hrel⟩ := hW.objects h
  unfold Heap.map
  rw [ho, hp]
  cases hrel with
  | map h => exact .pure h
  | _ => nomatch hkind

theorem Sound.range (hW : W.Sound) (h : W.Live (some .range) a b) : BothOk Eq (W.left.range a) (W.right.range b) := by
  obtain ⟨o, p, ho, hp, hkind, hrel⟩ := hW.objects h
  unfold Heap.range
  rw [ho, hp]
  cases hrel with
  | range r => exact .pure rfl
  | _ => nomatch hkind

/-- Closures of one code in environments that live on both sides. -/
def ClosureRel (S : Correspondence) (f g : Closure) : Prop := f.code = g.code ∧ S none f.env g.env

theorem Sound.function (hW : W.Sound) (h : W.Live (some .function) a b) :
    BothOk (ClosureRel W.Live) (W.left.function a) (W.right.function b) := by
  obtain ⟨o, p, ho, hp, hkind, hrel⟩ := hW.objects h
  unfold Heap.function
  rw [ho, hp]
  cases hrel with
  | function h => exact .pure ⟨rfl, h⟩
  | _ => nomatch hkind

/-- One and the same builtin. -/
def BuiltinRel (m n : Native) : Prop := m = n ∧ ∃ b, n.code = .builtin b

theorem Sound.native (hW : W.Sound) (h : W.Live (some .native) a b) :
    BothOk BuiltinRel (W.left.native a) (W.right.native b) := by
  obtain ⟨o, p, ho, hp, hkind, hrel⟩ := hW.objects h
  unfold Heap.native
  rw [ho, hp]
  cases hrel with
  | native name arity c => exact .pure ⟨rfl, c, rfl⟩
  | _ => nomatch hkind

theorem Sound.iterator (hW : W.Sound) (h : W.Live (some .iterator) a b) :
    BothOk (TraversalRel W.Live) (W.left.iterator a) (W.right.iterator b) := by
  obtain ⟨o, p, ho, hp, hkind, hrel⟩ := hW.objects h
  unfold Heap.iterator
  rw [ho, hp]
  cases hrel with
  | iterator h => exact .pure h
  | _ => nomatch hkind

/-- Errors of one message whose payloads are the same up to their handles. -/
def ErrorRel (S : Correspondence) (e f : ErrorInfo) : Prop := e.message = f.message ∧ Option.Rel (ValueRel S) e.payload f.payload

theorem Sound.error (hW : W.Sound) (h : W.Live (some .error) a b) :
    BothOk (ErrorRel W.Live) (W.left.error a) (W.right.error b) := by
  obtain ⟨o, p, ho, hp, hkind, hrel⟩ := hW.objects h
  unfold Heap.error
  rw [ho, hp]
  cases hrel with
  | error m h => exact .pure ⟨rfl, h⟩
  | _ => nomatch hkind

/-- Environments with the same bindings up to their handles. -/
def EnvironmentRel (S : Correspondence) (e f : Environment) : Prop :=
  TableRel Eq (ValueRel S) e.bindings f.bindings ∧ Option.Rel (S none) e.parent f.parent

theorem Sound.environment (hW : W.Sound) (h : W.Live none a b) :
    BothOk (EnvironmentRel W.Live) (W.left.environment a) (W.right.environment b) := by
  obtain ⟨o, p, ho, hp, hkind, hrel⟩ := hW.objects h
  unfold Heap.environment
  rw [ho, hp]
  cases hrel with
  | environment ht hparent => exact .pure ⟨ht, hparent⟩
  | _ => nomatch hkind

/-! ## Operands -/

variable {v w v' w' : Value}

/-- The operand of a value is the same on both sides, up to handles. -/
theorem Sound.operand (hW : W.Sound) (h : ValueRel W.Live v w) :
    BothOk (OperandRel W.Live) (W.left.operand v) (W.right.operand w) := by
  cases h with
  | plain hv =>
    cases v with
    | null => exact .pure .null
    | bool x => exact .pure (.bool x)
    | num n => exact .pure (.num n)
    | ref kind a => nomatch hv
  | @ref kind a b h =>
    cases kind with
    | string =>
      refine (hW.text h).bind ?_
      rintro s _ rfl
      exact .pure (.text s)
    | error =>
      refine (hW.error h).bind ?_
      rintro ⟨m, p⟩ ⟨_, q⟩ ⟨rfl, -⟩
      exact .pure (.error m)
    | array =>
      refine (hW.array h).bind fun xs ys hxy => ?_
      have hempty : xs.isEmpty = ys.isEmpty := by
        have hlen := hxy.length_eq
        rw [Array.length_toList, Array.length_toList] at hlen
        rw [Array.isEmpty, Array.isEmpty, hlen]
      rw [hempty]
      exact .pure (.ref _ h)
    | map =>
      refine (hW.map h).bind fun t u htu => ?_
      rw [htu.isEmpty]
      exact .pure (.ref _ h)
    | range =>
      refine (hW.range h).bind ?_
      rintro r _ rfl
      exact .pure (.ref _ h)
    | function => exact .pure (.ref _ h)
    | native => exact .pure (.ref _ h)
    | iterator => exact .pure (.ref _ h)

/-- Truth is the same on both sides. -/
theorem Sound.truthy (hW : W.Sound) (h : ValueRel W.Live v w) : BothOk Eq (W.left.truthy v) (W.right.truthy w) :=
  (hW.operand h).bind fun _ _ hxy => .pure hxy.truthy

/-! ## Walks -/

/-- How deep objects are nested on either side. -/
structure Depths (W : Pairing) (dl dr : Handle → Nat) : Prop where
  left : ∀ {a c o}, W.LiveLeft a → W.left.get? a = some o → c ∈ o.parts → dl c < dl a
  right : ∀ {b d p}, W.LiveRight b → W.right.get? b = some p → d ∈ p.parts → dr d < dr b
  size_left : ∀ {a}, W.LiveLeft a → dl a < W.left.slots.size
  size_right : ∀ {b}, W.LiveRight b → dr b < W.right.slots.size

/-- On both sides of a sound pairing objects are nested to some depth. -/
theorem Sound.depths (hW : W.Sound) : ∃ dl dr, W.Depths dl dr := by
  obtain ⟨dl, hsizel, hl⟩ := hW.nestedLeft.depth fun a ⟨_, _, h⟩ => h.2.1
  obtain ⟨dr, hsizer, hr⟩ := hW.nestedRight.depth fun b ⟨_, _, h⟩ => h.2.2
  exact ⟨dl, dr, fun ha ho hc => (hl _ _ ha ho _ hc).2, fun hb hp hd => (hr _ _ hb hp _ hd).2, fun ha => hsizel _ ha,
    fun hb => hsizer _ hb⟩

/-- A value whose object is nested less deep than `n`. -/
def Below (d : Handle → Nat) (n : Nat) (v : Value) : Prop := ∀ a, v.handle? = some a → d a < n

/-- What is nested less deep than some bound is so for every larger one. -/
theorem Below.mono {d : Handle → Nat} {m n : Nat} (h : Below d m v) (hmn : m ≤ n) : Below d n v :=
  fun a ha => Nat.lt_of_lt_of_le (h a ha) hmn

/-- Values that live on both sides, nested less deep than `m` on the left and `n` on the right. -/
structure ValueBelow (W : Pairing) (dl dr : Handle → Nat) (m n : Nat) (v w : Value) : Prop where
  rel : ValueRel W.Live v w
  left : Below dl m v
  right : Below dr n w

/-- Values nested less deep than some bounds are so for larger ones. -/
theorem ValueBelow.mono {dl dr : Handle → Nat} {m n m' n' : Nat} (h : W.ValueBelow dl dr m n v w) (hm : m ≤ m') (hn : n ≤ n') :
    W.ValueBelow dl dr m' n' v w := ⟨h.rel, h.left.mono hm, h.right.mono hn⟩

variable {dl dr : Handle → Nat}

/-- Every value that lives on both sides is nested less deep than the bounds of walks. -/
theorem Depths.valueBelow (hd : W.Depths dl dr) (h : ValueRel W.Live v w) :
    W.ValueBelow dl dr W.left.depthBound W.right.depthBound v w := by
  refine ⟨h, fun a ha => ?_, fun b hb => ?_⟩
  · cases h with
    | plain hv =>
      rw [hv] at ha
      nomatch ha
    | ref h =>
      cases ha
      exact Nat.lt_succ_of_lt (hd.size_left ⟨_, _, h⟩)
  · cases h with
    | plain hv =>
      rw [hv] at hb
      nomatch hb
    | ref h =>
      cases hb
      exact Nat.lt_succ_of_lt (hd.size_right ⟨_, _, h⟩)

/-- The elements of an array are nested less deep than the array. -/
theorem Sound.array_below (hW : W.Sound) (hd : W.Depths dl dr) (h : W.Live (some .array) a b) :
    BothOk (fun xs ys => List.Forall₂ (W.ValueBelow dl dr (dl a) (dr b)) xs.toList ys.toList) (W.left.array a)
      (W.right.array b) := by
  obtain ⟨o, p, ho, hp, hkind, hrel⟩ := hW.objects h
  have ha : W.LiveLeft a := ⟨_, _, h⟩
  have hb : W.LiveRight b := ⟨_, _, h⟩
  unfold Heap.array
  rw [ho, hp]
  cases hrel with
  | array hxy =>
    refine .pure (forall₂_imp_mem hxy fun v hv w hw hvw => ⟨hvw, fun c hc => ?_, fun d hd' => ?_⟩)
    · exact hd.left ha ho (List.mem_filterMap.2 ⟨v, hv, hc⟩)
    · exact hd.right hb hp (List.mem_filterMap.2 ⟨w, hw, hd'⟩)
  | _ => nomatch hkind

/-- The entries of a map are nested less deep than the map. -/
theorem Sound.map_below (hW : W.Sound) (hd : W.Depths dl dr) (h : W.Live (some .map) a b) :
    BothOk (fun t u => List.Forall₂ (fun e f => W.ValueBelow dl dr (dl a) (dr b) e.key f.key ∧
      W.ValueBelow dl dr (dl a) (dr b) e.value f.value) t.values u.values) (W.left.map a) (W.right.map b) := by
  obtain ⟨o, p, ho, hp, hkind, hrel⟩ := hW.objects h
  have ha : W.LiveLeft a := ⟨_, _, h⟩
  have hb : W.LiveRight b := ⟨_, _, h⟩
  unfold Heap.map
  rw [ho, hp]
  cases hrel with
  | map htu =>
    refine .pure (forall₂_imp_mem htu.values fun e he f hf hef => ⟨⟨hef.1, fun c hc => ?_, fun d hd' => ?_⟩,
      ⟨hef.2, fun c hc => ?_, fun d hd' => ?_⟩⟩)
    · exact hd.left ha ho (List.mem_flatMap.2 ⟨e, he, by simp [hc]⟩)
    · exact hd.right hb hp (List.mem_flatMap.2 ⟨f, hf, by simp [hd']⟩)
    · exact hd.left ha ho (List.mem_flatMap.2 ⟨e, he, by simp [hc]⟩)
    · exact hd.right hb hp (List.mem_flatMap.2 ⟨f, hf, by simp [hd']⟩)
  | _ => nomatch hkind

/-- The environment around another is nested less deep. -/
theorem Sound.environment_below (hW : W.Sound) (hd : W.Depths dl dr) (h : W.Live none a b) :
    BothOk (fun e f => TableRel Eq (ValueRel W.Live) e.bindings f.bindings ∧
      Option.Rel (fun c d => W.Live none c d ∧ dl c < dl a ∧ dr d < dr b) e.parent f.parent) (W.left.environment a)
      (W.right.environment b) := by
  obtain ⟨o, p, ho, hp, hkind, hrel⟩ := hW.objects h
  have ha : W.LiveLeft a := ⟨_, _, h⟩
  have hb : W.LiveRight b := ⟨_, _, h⟩
  unfold Heap.environment
  rw [ho, hp]
  cases hrel with
  | environment ht hparent =>
    refine .pure ⟨ht, ?_⟩
    cases hparent with
    | none => exact .none
    | some hcd =>
      refine .some ⟨hcd, ?_, ?_⟩
      · exact hd.left ha ho (List.mem_singleton_self _)
      · exact hd.right hb hp (List.mem_singleton_self _)
  | _ => nomatch hkind

/-- The key of a value that is no array takes no walk. -/
theorem Sound.mapKeyWithin_of_ne (hW : W.Sound) (h : ValueRel W.Live v w) (hv : ∀ c, v ≠ .ref .array c) (m n : Nat) :
    BothOk (KeyRel W.same) (W.left.mapKeyWithin m v) (W.right.mapKeyWithin n w) := by
  cases h with
  | plain hplain =>
    cases v with
    | null =>
      rw [Heap.mapKeyWithin, Heap.mapKeyWithin]
      exact .pure .null
    | bool x =>
      rw [Heap.mapKeyWithin, Heap.mapKeyWithin]
      exact .pure (.bool x)
    | num x =>
      cases x <;> rw [Heap.mapKeyWithin, Heap.mapKeyWithin]
      · exact .pure (.int _)
      · exact .pure (.int _)
      · exact .pure (.ofDouble _ _)
      · exact .pure (.ofDouble _ _)
    | ref kind a => nomatch hplain
  | @ref kind a b h =>
    cases kind with
    | array => exact absurd rfl (hv a)
    | string =>
      rw [Heap.mapKeyWithin, Heap.mapKeyWithin]
      refine (hW.text h).bind ?_
      rintro s _ rfl
      exact .pure (.text s)
    | error =>
      rw [Heap.mapKeyWithin, Heap.mapKeyWithin]
      refine (hW.error h).bind ?_
      rintro ⟨message, p⟩ ⟨_, q⟩ ⟨rfl, -⟩
      exact .pure (.error message)
    | range =>
      rw [Heap.mapKeyWithin, Heap.mapKeyWithin]
      refine (hW.range h).bind ?_
      rintro r _ rfl
      exact .pure (.range _ _ _)
    | map | function | native | iterator =>
      simp only [Heap.mapKeyWithin]
      exact .pure (.ref h.same)

/-- The key of a value is the same on both sides, up to handles, once the bounds exceed its depth. -/
theorem Sound.mapKeyWithin (hW : W.Sound) (hd : W.Depths dl dr) {m n : Nat} (h : W.ValueBelow dl dr m n v w) :
    BothOk (KeyRel W.same) (W.left.mapKeyWithin m v) (W.right.mapKeyWithin n w) := by
  induction m generalizing n v w with
  | zero =>
    refine hW.mapKeyWithin_of_ne h.rel (fun c hc => ?_) _ _
    subst hc
    nomatch h.left c rfl
  | succ m ih =>
    obtain ⟨hrel, hbelow, hbelow'⟩ := h
    by_cases hv : ∃ c, v = .ref .array c
    · obtain ⟨a, rfl⟩ := hv
      cases hrel with
      | plain hplain => nomatch hplain
      | @ref _ _ b h =>
        have ha : dl a < m + 1 := hbelow a rfl
        have hb : dr b < n := hbelow' b rfl
        obtain ⟨n, rfl⟩ := Nat.exists_eq_succ_of_ne_zero (Nat.ne_zero_of_lt hb)
        rw [Heap.mapKeyWithin, Heap.mapKeyWithin]
        refine (hW.array_below hd h).bind fun xs ys hxy => ?_
        have hkeys := hxy.imp fun x y hval => ih (hval.mono (Nat.le_of_lt_succ ha) (Nat.le_of_lt_succ hb))
        exact (BothOk.mapM hkeys).bind fun js ks hjk => .pure (.array (.of_forall₂ hjk))
    · exact hW.mapKeyWithin_of_ne hrel (fun c hc => hv ⟨c, hc⟩) _ _

/-- The handles that the keys of a list of values name are among those that the keys of the values name. -/
theorem exists_of_mem_handlesOf {f : Value → Except RuntimeError MapKey} {l : List Value} {ks : List MapKey}
    (h : l.mapM f = .ok ks) {c : Handle} (hc : c ∈ MapKey.handlesOf ks) : ∃ v ∈ l, ∃ k, f v = .ok k ∧ c ∈ k.handles := by
  induction l generalizing ks with
  | nil =>
    cases h
    nomatch hc
  | cons v l ih =>
    rw [List.mapM_cons] at h
    cases hv : f v with
    | error e =>
      rw [hv] at h
      nomatch h
    | ok k =>
      rw [hv] at h
      cases hl : l.mapM f with
      | error e =>
        rw [hl] at h
        nomatch h
      | ok ks' =>
        rw [hl] at h
        cases h
        rw [MapKey.handlesOf] at hc
        rcases List.mem_append.1 hc with hc | hc
        · exact ⟨v, List.mem_cons_self, k, hv, hc⟩
        · obtain ⟨w, hw, j, hj, hcj⟩ := ih hl hc
          exact ⟨w, List.mem_cons_of_mem _ hw, j, hj, hcj⟩

/-- The key of a double names no handle. -/
theorem handles_ofDouble (x : Double) : (MapKey.ofDouble x).handles = [] := by
  unfold MapKey.ofDouble
  split <;> rw [MapKey.handles] <;> nofun

/-- The key of a value that is no array names at most the value's own object. -/
theorem inside_of_mapKeyWithin_of_ne {h : Heap} {m : Nat} {k : MapKey} (hv : ∀ c, v ≠ .ref .array c)
    (hk : h.mapKeyWithin m v = .ok k) {c : Handle} (hc : c ∈ k.handles) : h.Inside c v := by
  have hnone : k.handles = [] → h.Inside c v := by
    intro hnil
    rw [hnil] at hc
    nomatch hc
  cases v with
  | null =>
    rw [Heap.mapKeyWithin] at hk
    cases hk
    exact hnone (by simp [MapKey.handles])
  | bool x =>
    rw [Heap.mapKeyWithin] at hk
    cases hk
    exact hnone (by simp [MapKey.handles])
  | num x =>
    cases x <;> rw [Heap.mapKeyWithin] at hk <;> cases hk
    · exact hnone (by simp [MapKey.handles])
    · exact hnone (by simp [MapKey.handles])
    · exact hnone (handles_ofDouble _)
    · exact hnone (handles_ofDouble _)
  | ref kind a =>
    cases kind with
    | array => exact absurd rfl (hv a)
    | string =>
      rw [Heap.mapKeyWithin] at hk
      cases ht : h.text a with
      | error e =>
        rw [ht] at hk
        nomatch hk
      | ok s =>
        rw [ht] at hk
        cases hk
        exact hnone (by simp [MapKey.handles])
    | error =>
      rw [Heap.mapKeyWithin] at hk
      cases ht : h.error a with
      | error e =>
        rw [ht] at hk
        nomatch hk
      | ok e =>
        rw [ht] at hk
        cases hk
        exact hnone (by simp [MapKey.handles])
    | range =>
      rw [Heap.mapKeyWithin] at hk
      cases ht : h.range a with
      | error e =>
        rw [ht] at hk
        nomatch hk
      | ok r =>
        rw [ht] at hk
        cases hk
        exact hnone (by simp [MapKey.handles])
    | map | function | native | iterator =>
      simp only [Heap.mapKeyWithin] at hk
      cases hk
      simp only [MapKey.handles, List.mem_singleton] at hc
      subst hc
      exact .self

/-- The key of a value names what is inside the value. -/
theorem inside_of_mapKeyWithin {h : Heap} {m : Nat} {k : MapKey} (hk : h.mapKeyWithin m v = .ok k) {c : Handle}
    (hc : c ∈ k.handles) : h.Inside c v := by
  induction m generalizing v k with
  | zero =>
    refine inside_of_mapKeyWithin_of_ne (fun a ha => ?_) hk hc
    subst ha
    rw [Heap.mapKeyWithin] at hk
    nomatch hk
  | succ m ih =>
    by_cases hv : ∃ a, v = .ref .array a
    · obtain ⟨a, rfl⟩ := hv
      rw [Heap.mapKeyWithin, Heap.array] at hk
      split at hk
      · rename_i items hitems
        change (items.toList.mapM (h.mapKeyWithin m) >>= fun ks => Except.ok (MapKey.array ks)) = _ at hk
        cases hks : items.toList.mapM (h.mapKeyWithin m) with
        | error e =>
          rw [hks] at hk
          nomatch hk
        | ok ks =>
          rw [hks] at hk
          cases hk
          rw [MapKey.handles] at hc
          obtain ⟨w, hw, j, hj, hcj⟩ := exists_of_mem_handlesOf hks hc
          exact .item hitems hw (ih hj hcj)
      · nomatch hk
    · exact inside_of_mapKeyWithin_of_ne (fun a ha => hv ⟨a, ha⟩) hk hc

/-- The keys of a value are the same on both sides, and name what is inside the value. -/
theorem Sound.mapKey (hW : W.Sound) (h : ValueRel W.Live v w) :
    BothOk (fun j k => KeyRel W.same j k ∧ ∀ c ∈ j.handles, W.left.Inside c v) (W.left.mapKey v) (W.right.mapKey w) := by
  obtain ⟨dl, dr, hd⟩ := hW.depths
  obtain ⟨j, k, hj, hk, hjk⟩ := hW.mapKeyWithin hd (hd.valueBelow h)
  exact ⟨j, k, hj, hk, hjk, fun c hc => inside_of_mapKeyWithin hj hc⟩

/-! ### Equality -/

/-- Lists are compared alike when their elements are. -/
theorem allEqual_eq {eq eq' : Value → Value → Except RuntimeError Bool} {P Q : Value → Value → Prop}
    (heq : ∀ {x y x' y'}, P x y → Q x' y' → BothOk Eq (eq x x') (eq' y y')) {xs ys xs' ys' : List Value}
    (hxy : List.Forall₂ P xs ys) (hxy' : List.Forall₂ Q xs' ys') :
    BothOk Eq (Heap.allEqual eq xs xs') (Heap.allEqual eq' ys ys') := by
  induction hxy generalizing xs' ys' with
  | nil => exact .pure rfl
  | cons h _ ih =>
    cases hxy' with
    | nil => exact .pure rfl
    | cons h' hrest' =>
      refine (heq h h').bind ?_
      rintro r _ rfl
      cases r with
      | true => exact ih hrest'
      | false => exact .pure rfl

/-- Equality of values that are neither both arrays nor both ranges is that of operands. -/
theorem equalWithin_eq_operands {h : Heap} (m : Nat) (harray : ∀ c c', v = .ref .array c → v' = .ref .array c' → False)
    (hrange : ∀ c c', v = .ref .range c → v' = .ref .range c' → False) :
    h.equalWithin m v v' = do return (← h.operand v).equal (← h.operand v') := by
  rw [Heap.equalWithin]
  · exact harray
  · exact hrange

/-- A pair of values on the right refers to two objects of a kind only if the pair on the left does. -/
theorem refs_of_right {kind : RefKind} {P : Prop} (h : ValueRel W.Live v w) (h' : ValueRel W.Live v' w')
    (hleft : ∀ c c', v = .ref kind c → v' = .ref kind c' → P) (d d' : Handle) (hw : w = .ref kind d) (hw' : w' = .ref kind d') :
    P := by
  subst hw
  subst hw'
  obtain ⟨c, rfl, -⟩ := h.of_ref_right
  obtain ⟨c', rfl, -⟩ := h'.of_ref_right
  exact hleft c c' rfl rfl

/-- Equality of values that are not both arrays takes no walk. -/
theorem Sound.equalWithin_of_ne (hW : W.Sound) (h : ValueRel W.Live v w) (h' : ValueRel W.Live v' w')
    (harray : ∀ c c', v = .ref .array c → v' = .ref .array c' → False) (m n : Nat) :
    BothOk Eq (W.left.equalWithin m v v') (W.right.equalWithin n w w') := by
  by_cases hrange : ∃ c c', v = .ref .range c ∧ v' = .ref .range c'
  · obtain ⟨a, a', rfl, rfl⟩ := hrange
    obtain ⟨b, rfl, hab⟩ := h.of_ref_left
    obtain ⟨b', rfl, hab'⟩ := h'.of_ref_left
    rw [Heap.equalWithin, Heap.equalWithin]
    refine (hW.range hab).bind ?_
    rintro r _ rfl
    refine (hW.range hab').bind ?_
    rintro r' _ rfl
    exact .pure rfl
  · have hrange' : ∀ c c', v = .ref .range c → v' = .ref .range c' → False := fun c c' hc hc' => hrange ⟨c, c', hc, hc'⟩
    rw [equalWithin_eq_operands m harray hrange',
      equalWithin_eq_operands n (refs_of_right h h' harray) (refs_of_right h h' hrange')]
    refine (hW.operand h).bind fun x y hxy => (hW.operand h').bind fun x' y' hxy' => ?_
    exact .pure (hxy.equal hW.live_oneToOne hxy')

/-- Equality is the same on both sides, once the bounds exceed the depth of a value. -/
theorem Sound.equalWithin (hW : W.Sound) (hd : W.Depths dl dr) {m n : Nat} (h : W.ValueBelow dl dr m n v w)
    (h' : ValueRel W.Live v' w') : BothOk Eq (W.left.equalWithin m v v') (W.right.equalWithin n w w') := by
  induction m generalizing n v w v' w' with
  | zero =>
    refine hW.equalWithin_of_ne h.rel h' (fun c c' hc _ => ?_) _ _
    subst hc
    nomatch h.left c rfl
  | succ m ih =>
    obtain ⟨hrel, hbelow, hbelow'⟩ := h
    by_cases harray : ∃ c c', v = .ref .array c ∧ v' = .ref .array c'
    · obtain ⟨a, a', rfl, rfl⟩ := harray
      obtain ⟨b, rfl, hab⟩ := hrel.of_ref_left
      obtain ⟨b', rfl, hab'⟩ := h'.of_ref_left
      have ha : dl a ≤ m := Nat.le_of_lt_succ (hbelow a rfl)
      have hb : dr b < n := hbelow' b rfl
      obtain ⟨n, rfl⟩ := Nat.exists_eq_succ_of_ne_zero (Nat.ne_zero_of_lt hb)
      rw [Heap.equalWithin, Heap.equalWithin]
      -- The handles are equal on the left just if they are on the right.
      have hsame : a = a' ↔ b = b' := hW.live_oneToOne hab hab'
      by_cases heq : a = a'
      · rw [if_pos heq, if_pos (hsame.1 heq)]
        exact .pure rfl
      · rw [if_neg heq, if_neg fun hb' => heq (hsame.2 hb')]
        refine (hW.array_below hd hab).bind fun xs ys hxy => (hW.array hab').bind fun xs' ys' hxy' => ?_
        have hlen := hxy.length_eq
        have hlen' := hxy'.length_eq
        rw [Array.length_toList, Array.length_toList] at hlen hlen'
        rw [hlen, hlen']
        by_cases hsize : ys.size ≠ ys'.size
        · rw [if_pos hsize, if_pos hsize]
          exact .pure rfl
        · rw [if_neg hsize, if_neg hsize]
          refine allEqual_eq (P := W.ValueBelow dl dr (dl a) (dr b)) (Q := ValueRel W.Live) (fun hx hx' => ?_) hxy hxy'
          exact ih (hx.mono ha (Nat.le_of_lt_succ hb)) hx'
    · exact hW.equalWithin_of_ne hrel h' (fun c c' hc hc' => harray ⟨c, c', hc, hc'⟩) _ _

/-- Values are equal on one side just if they are on the other. -/
theorem Sound.equal (hW : W.Sound) (h : ValueRel W.Live v w) (h' : ValueRel W.Live v' w') :
    BothOk Eq (W.left.equal v v') (W.right.equal w w') := by
  obtain ⟨dl, dr, hd⟩ := hW.depths
  exact hW.equalWithin hd (hd.valueBelow h) h'

/-! ### Displayed forms -/

/-- The displayed form is the same when what is found is shown alike. -/
theorem textOr_eq {α β : Type} {P : α → β → Prop} {x : Except RuntimeError α} {y : Except RuntimeError β} (h : BothOk P x y)
    {f : α → String} {g : β → String} (hfg : ∀ a b, P a b → f a = g b) : Heap.textOr x f = Heap.textOr y g := by
  obtain ⟨a, b, rfl, rfl, hab⟩ := h
  exact hfg a b hab

/-- Related lists have one image under functions that agree on related members. -/
theorem map_eq_map_of_forall₂ {α β γ : Type} {P : α → β → Prop} {f : α → γ} {g : β → γ} {l : List α} {m : List β}
    (h : List.Forall₂ P l m) (hfg : ∀ a b, P a b → f a = g b) : l.map f = m.map g := by
  induction h with
  | nil => rfl
  | cons hab _ ih => rw [List.map_cons, List.map_cons, hfg _ _ hab, ih]

/-- The displayed form of a value that is neither an array nor a map takes no walk. -/
theorem Sound.describeWithin_of_ne (hW : W.Sound) (h : ValueRel W.Live v w) (harray : ∀ c, v ≠ .ref .array c)
    (hmap : ∀ c, v ≠ .ref .map c) (m n : Nat) (quoted : Bool) :
    W.left.describeWithin m quoted v = W.right.describeWithin n quoted w := by
  cases h with
  | plain hplain =>
    cases v with
    | ref kind a => nomatch hplain
    | _ => rw [Heap.describeWithin, Heap.describeWithin]
  | @ref kind a b h =>
    cases kind with
    | array => exact absurd rfl (harray a)
    | map => exact absurd rfl (hmap a)
    | string =>
      rw [Heap.describeWithin, Heap.describeWithin]
      refine textOr_eq (hW.text h) ?_
      rintro s _ rfl
      rfl
    | function =>
      rw [Heap.describeWithin, Heap.describeWithin]
      refine textOr_eq (hW.function h) fun f g hfg => ?_
      rw [hfg.1]
    | native =>
      rw [Heap.describeWithin, Heap.describeWithin]
      refine textOr_eq (hW.native h) fun f g hfg => ?_
      rw [hfg.1]
    | range =>
      rw [Heap.describeWithin, Heap.describeWithin]
      refine textOr_eq (hW.range h) ?_
      rintro r _ rfl
      rfl
    | iterator => rw [Heap.describeWithin, Heap.describeWithin]
    | error =>
      rw [Heap.describeWithin, Heap.describeWithin]
      refine textOr_eq (hW.error h) fun e f hef => ?_
      rw [hef.1]

/-- The text of a value is the same on both sides, once the bounds exceed its depth. -/
theorem Sound.describeWithin (hW : W.Sound) (hd : W.Depths dl dr) {m n : Nat} (h : W.ValueBelow dl dr m n v w) (quoted : Bool) :
    W.left.describeWithin m quoted v = W.right.describeWithin n quoted w := by
  induction m generalizing n v w quoted with
  | zero =>
    refine hW.describeWithin_of_ne h.rel (fun c hc => ?_) (fun c hc => ?_) _ _ _ <;> subst hc <;> nomatch h.left c rfl
  | succ m ih =>
    obtain ⟨hrel, hbelow, hbelow'⟩ := h
    by_cases hv : ∃ kind c, (kind = .array ∨ kind = .map) ∧ v = .ref kind c
    · obtain ⟨kind, a, hkind, rfl⟩ := hv
      obtain ⟨b, rfl, hab⟩ := hrel.of_ref_left
      have ha : dl a ≤ m := Nat.le_of_lt_succ (hbelow a rfl)
      have hb : dr b < n := hbelow' b rfl
      obtain ⟨n, rfl⟩ := Nat.exists_eq_succ_of_ne_zero (Nat.ne_zero_of_lt hb)
      have hb' : dr b ≤ n := Nat.le_of_lt_succ hb
      rcases hkind with rfl | rfl
      · rw [Heap.describeWithin, Heap.describeWithin]
        refine textOr_eq (hW.array_below hd hab) fun xs ys hxy => ?_
        rw [map_eq_map_of_forall₂ hxy fun x y hval => ih (hval.mono ha hb') true]
      · rw [Heap.describeWithin, Heap.describeWithin]
        refine textOr_eq (hW.map_below hd hab) fun t u htu => ?_
        dsimp only
        rw [map_eq_map_of_forall₂ htu fun e f hef => ?_]
        rw [ih (hef.1.mono ha hb') true, ih (hef.2.mono ha hb') true]
    · refine hW.describeWithin_of_ne hrel (fun c hc => ?_) (fun c hc => ?_) _ _ _
      · exact hv ⟨.array, c, .inl rfl, hc⟩
      · exact hv ⟨.map, c, .inr rfl, hc⟩

/-- The displayed forms of a value are the same on both sides. -/
theorem Sound.describe (hW : W.Sound) (h : ValueRel W.Live v w) : W.left.describe v = W.right.describe w := by
  obtain ⟨dl, dr, hd⟩ := hW.depths
  exact hW.describeWithin hd (hd.valueBelow h) false

/-! ### Environments -/

/-- The owner of a name is found on both sides, or on neither, once the bounds exceed the depth of the environment. -/
theorem Sound.ownerWithin (hW : W.Sound) (hd : W.Depths dl dr) {m n : Nat} (h : W.Live none a b) (ha : dl a < m) (hb : dr b < n)
    (name : String) : BothOk (Option.Rel (W.Live none)) (W.left.ownerWithin name m a) (W.right.ownerWithin name n b) := by
  induction m generalizing n a b with
  | zero => nomatch ha
  | succ m ih =>
    obtain ⟨n, rfl⟩ := Nat.exists_eq_succ_of_ne_zero (Nat.ne_zero_of_lt hb)
    rw [Heap.ownerWithin, Heap.ownerWithin]
    refine (hW.environment_below hd h).bind ?_
    rintro ⟨t, p⟩ ⟨u, q⟩ ⟨htu, hpq⟩
    rw [TableRel.contains .eq rfl htu]
    by_cases hfound : u.contains name = true
    · rw [if_pos hfound, if_pos hfound]
      exact .pure (.some h)
    · rw [if_neg hfound, if_neg hfound]
      cases hpq with
      | none => exact .pure .none
      | some hcd =>
        obtain ⟨hlive, hl, hr⟩ := hcd
        exact ih hlive (by omega) (by omega)

/-- A name has its nearest binding in environments that live on both sides. -/
theorem Sound.owner (hW : W.Sound) (h : W.Live none a b) (name : String) :
    BothOk (Option.Rel (W.Live none)) (W.left.owner a name) (W.right.owner b name) := by
  obtain ⟨dl, dr, hd⟩ := hW.depths
  have ha := hd.size_left ⟨_, _, h⟩
  have hb := hd.size_right ⟨_, _, h⟩
  exact hW.ownerWithin hd h (Nat.lt_succ_of_lt ha) (Nat.lt_succ_of_lt hb) name

/-- A name stands for the same value on both sides. -/
theorem Sound.lookup (hW : W.Sound) (h : W.Live none a b) (name : String) :
    BothOk (Option.Rel (ValueRel W.Live)) (W.left.lookup a name) (W.right.lookup b name) := by
  refine (hW.owner h name).bind fun x y hxy => ?_
  cases hxy with
  | none => exact .pure .none
  | some hcd => exact (hW.environment hcd).bind fun e f hef => .pure (TableRel.get? .eq rfl hef.1)

end Pairing

end ScriptVM
