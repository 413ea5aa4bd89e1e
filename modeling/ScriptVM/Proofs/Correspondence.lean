import Mathlib.Data.List.Forall2
import ScriptVM.Native

/-!
# Values up to the choice of handles

A `Correspondence` says which handles of two heaps stand for one object. Under it values, keys, operands, tables and objects
are the same when they differ in corresponding handles only. Nothing a program can do with them tells them apart, as long as the
correspondence is one to one.
-/

namespace ScriptVM

/-- What holds of the related members of two lists holds of the lists. -/
theorem forall₂_imp_mem {α β : Type} {P Q : α → β → Prop} {l : List α} {m : List β} (h : List.Forall₂ P l m)
    (hpq : ∀ a ∈ l, ∀ b ∈ m, P a b → Q a b) : List.Forall₂ Q l m := by
  induction h with
  | nil => exact .nil
  | cons hp _ ih =>
    refine .cons (hpq _ List.mem_cons_self _ List.mem_cons_self hp) (ih fun a ha b hb => ?_)
    exact hpq a (List.mem_cons_of_mem _ ha) b (List.mem_cons_of_mem _ hb)

/-- Every member of the first of two related lists has a related one in the second. -/
theorem forall₂_exists_right {α β : Type} {P : α → β → Prop} {l : List α} {m : List β} (h : List.Forall₂ P l m) {a : α}
    (ha : a ∈ l) : ∃ b ∈ m, P a b := by
  induction h with
  | nil => nomatch ha
  | cons hp _ ih =>
    rcases List.mem_cons.1 ha with rfl | ha
    · exact ⟨_, List.mem_cons_self, hp⟩
    · obtain ⟨b, hb, hab⟩ := ih ha
      exact ⟨b, List.mem_cons_of_mem _ hb, hab⟩

/-- Every member of the second of two related lists has a related one in the first. -/
theorem forall₂_exists_left {α β : Type} {P : α → β → Prop} {l : List α} {m : List β} (h : List.Forall₂ P l m) {b : β}
    (hb : b ∈ m) : ∃ a ∈ l, P a b := forall₂_exists_right h.flip hb

/-- Related lists are related place by place. -/
theorem getElem?_rel {α β : Type} {P : α → β → Prop} {l : List α} {m : List β} (h : List.Forall₂ P l m) (i : Nat) :
    Option.Rel P l[i]? m[i]? := by
  induction h generalizing i with
  | nil => exact .none
  | cons hp _ ih =>
    cases i with
    | zero => exact .some hp
    | succ i => exact ih i

/-- Related lists stay related when one place of both changes alike. -/
theorem modify_rel {α β : Type} {P : α → β → Prop} {l : List α} {m : List β} (h : List.Forall₂ P l m) {i : Nat} {f : α → α}
    {g : β → β} (hfg : ∀ a b, P a b → P (f a) (g b)) : List.Forall₂ P (l.modify i f) (m.modify i g) := by
  induction h generalizing i with
  | nil => simp
  | cons hp hrest ih =>
    cases i with
    | zero => exact .cons (hfg _ _ hp) hrest
    | succ i => exact .cons hp ih

/-! ## Tables -/

section Tables

variable {κ ν : Type}

/-- Entries with the same key and the same value. -/
def PairRel (K : κ → κ → Prop) (V : ν → ν → Prop) (p q : κ × ν) : Prop := K p.1 q.1 ∧ V p.2 q.2

/-- Tables with the same entries at the same places. -/
structure TableRel (K : κ → κ → Prop) (V : ν → ν → Prop) (t u : Table κ ν) : Prop where
  size : t.size = u.size
  chains : List.Forall₂ (List.Forall₂ (PairRel K V)) t.chains.toList u.chains.toList

/-- Keys that are the same have one hash, and equality does not tell them apart. -/
structure KeyCongruence [BEq κ] [Hashable κ] (K : κ → κ → Prop) : Prop where
  hash_eq : ∀ {j k}, K j k → hash j = hash k
  beq_eq : ∀ {j k j' k'}, K j k → K j' k' → (j == j') = (k == k')

namespace TableRel

variable {K : κ → κ → Prop} {V : ν → ν → Prop} {t u : Table κ ν}

/-- Entries of related tables may be related otherwise. -/
theorem imp {K' : κ → κ → Prop} {V' : ν → ν → Prop} (h : TableRel K V t u) (hk : ∀ j ∈ t.keys, ∀ k ∈ u.keys, K j k → K' j k)
    (hv : ∀ x ∈ t.values, ∀ y ∈ u.values, V x y → V' x y) : TableRel K' V' t u := by
  refine ⟨h.size, forall₂_imp_mem h.chains fun c hc d hd hcd => forall₂_imp_mem hcd fun p hp q hq hpq => ?_⟩
  have hp' : p ∈ t.toList := List.mem_flatten.2 ⟨c, hc, hp⟩
  have hq' : q ∈ u.toList := List.mem_flatten.2 ⟨d, hd, hq⟩
  constructor
  · exact hk p.1 (List.mem_map_of_mem hp') q.1 (List.mem_map_of_mem hq') hpq.1
  · exact hv p.2 (List.mem_map_of_mem hp') q.2 (List.mem_map_of_mem hq') hpq.2

/-- Related tables have the same number of chains. -/
theorem chains_size (h : TableRel K V t u) : t.chains.size = u.chains.size := by
  have hlen := h.chains.length_eq
  simpa using hlen

theorem withChains (count : Nat) : TableRel K V (Table.withChains count) (Table.withChains count) := by
  refine ⟨rfl, ?_⟩
  rw [List.forall₂_same]
  intro chain hchain
  have hnil : chain = [] := by
    simp only [Table.withChains, Array.toList_replicate, List.mem_replicate] at hchain
    exact hchain.2
  rw [hnil]
  exact .nil

theorem toList (h : TableRel K V t u) : List.Forall₂ (PairRel K V) t.toList u.toList := List.rel_flatten h.chains

theorem values (h : TableRel K V t u) : List.Forall₂ V t.values u.values := by
  unfold Table.values
  rw [List.forall₂_map_left_iff, List.forall₂_map_right_iff]
  exact h.toList.imp fun _ _ hp => hp.2

theorem isEmpty (h : TableRel K V t u) : t.isEmpty = u.isEmpty := by
  rw [Table.isEmpty, Table.isEmpty, h.size]

/-- Chains at one index of related tables are related. -/
theorem chain (h : TableRel K V t u) {i i' : Nat} (hi : i = i') (ht : i < t.chains.size) (hu : i' < u.chains.size) :
    List.Forall₂ (PairRel K V) t.chains[i] u.chains[i'] := by
  subst hi
  have ht' : i < t.chains.toList.length := by simpa using ht
  have hu' : i < u.chains.toList.length := by simpa using hu
  exact h.chains.get ht' hu'

/-- A walk comes to the same entries at the same cursors. -/
theorem next (h : TableRel K V t u) (c : Cursor) :
    Option.Rel (PairRel K V) (t.next c).1 (u.next c).1 ∧ (t.next c).2 = (u.next c).2 := by
  fun_induction Table.next t c with
  | case1 c hc entry hget =>
    have hc' : c.chain < u.chains.size := by rwa [← h.chains_size]
    have hchain := h.chain rfl hc hc'
    have hlen := hchain.length_eq
    rw [List.getElem?_eq_some_iff] at hget
    obtain ⟨hd, rfl⟩ := hget
    have hd' : c.depth < u.chains[c.chain].length := by omega
    rw [Table.next, dif_pos hc', List.getElem?_eq_getElem hd']
    exact ⟨.some (hchain.get hd hd'), rfl⟩
  | case2 c hc hget ih =>
    have hc' : c.chain < u.chains.size := by rwa [← h.chains_size]
    have hlen := (h.chain rfl hc hc').length_eq
    rw [List.getElem?_eq_none_iff] at hget
    have hnone : u.chains[c.chain][c.depth]? = none := List.getElem?_eq_none_iff.2 (by omega)
    rw [Table.next.eq_def u c, dif_pos hc', hnone]
    exact ih
  | case3 c hc =>
    have hc' : ¬c.chain < u.chains.size := by rwa [← h.chains_size]
    rw [Table.next, dif_neg hc']
    exact ⟨.none, rfl⟩

/-- Changing one chain of both alike leaves tables related. -/
theorem modifyChain (h : TableRel K V t u) (i : Nat) {f g : List (κ × ν) → List (κ × ν)}
    (hf : ∀ c d, List.Forall₂ (PairRel K V) c d → List.Forall₂ (PairRel K V) (f c) (g d)) :
    TableRel K V (t.modifyChain i f) (u.modifyChain i g) := by
  refine ⟨h.size, ?_⟩
  simp only [Table.modifyChain, Array.toList_modify]
  exact modify_rel h.chains hf

/-- Setting the counter of both leaves tables related. -/
theorem withSize (h : TableRel K V t u) {n : Nat} : TableRel K V { t with size := n } { u with size := n } := ⟨rfl, h.chains⟩

section Hashing

variable [BEq κ] [Hashable κ] {j k : κ}

/-- A lookup in related chains finds related values. -/
theorem chainGet? (hK : KeyCongruence K) (hk : K j k) {c d : List (κ × ν)} (h : List.Forall₂ (PairRel K V) c d) :
    Option.Rel V (Table.chainGet? j c) (Table.chainGet? k d) := by
  induction h with
  | nil => exact .none
  | cons hp _ ih =>
    simp only [Table.chainGet?, hK.beq_eq hp.1 hk]
    split
    · exact .some hp.2
    · exact ih

/-- A change of the value of a key leaves chains related. -/
theorem chainModify (hK : KeyCongruence K) (hk : K j k) {f g : ν → ν} (hf : ∀ x y, V x y → V (f x) (g y))
    {c d : List (κ × ν)} (h : List.Forall₂ (PairRel K V) c d) :
    List.Forall₂ (PairRel K V) (Table.chainModify j f c) (Table.chainModify k g d) := by
  induction h with
  | nil => exact .nil
  | cons hp hrest ih =>
    simp only [Table.chainModify, hK.beq_eq hp.1 hk]
    split
    · exact .cons ⟨hp.1, hf _ _ hp.2⟩ hrest
    · exact .cons hp ih

theorem slot (hK : KeyCongruence K) (hk : K j k) (h : TableRel K V t u) : t.slot j = u.slot k := by
  rw [Table.slot, Table.slot, hK.hash_eq hk, h.chains_size]

/-- A lookup in related tables finds related values. -/
theorem get? (hK : KeyCongruence K) (hk : K j k) (h : TableRel K V t u) : Option.Rel V (t.get? j) (u.get? k) :=
  chainGet? hK hk (h.chain (slot hK hk h) (t.slot_lt j) (u.slot_lt k))

/-- Related tables contain related keys together. -/
theorem contains (hK : KeyCongruence K) (hk : K j k) (h : TableRel K V t u) : t.contains j = u.contains k := by
  have hget := get? hK hk h
  unfold Table.contains
  generalize t.get? j = x at hget
  generalize u.get? k = y at hget
  cases hget <;> rfl

/-- Tables stay related when a related entry is added to both. -/
theorem push (hK : KeyCongruence K) (h : TableRel K V t u) {p q : κ × ν} (hp : PairRel K V p q) :
    TableRel K V (t.push p) (u.push q) := by
  unfold Table.push
  rw [slot hK hp.1 h]
  exact h.modifyChain _ fun c d hcd => .cons hp hcd

/-- Tables stay related when both are spread over a new number of chains. -/
theorem rehash (hK : KeyCongruence K) (h : TableRel K V t u) (count : Nat) :
    TableRel K V (t.rehash count) (u.rehash count) := by
  have hfold : ∀ {l m : List (κ × ν)}, List.Forall₂ (PairRel K V) l m → ∀ {t u : Table κ ν}, TableRel K V t u →
      TableRel K V (l.foldl Table.push t) (m.foldl Table.push u) := by
    intro l m hlm
    induction hlm with
    | nil => exact fun h => h
    | cons hp _ ih => exact fun h => ih (h.push hK hp)
  unfold Table.rehash
  rw [h.size]
  exact hfold h.toList (withChains count).withSize

/-- Tables stay related when related entries are inserted. -/
theorem insert (hK : KeyCongruence K) (hk : K j k) (h : TableRel K V t u) {x y : ν} (hv : V x y) :
    TableRel K V (t.insert j x) (u.insert k y) := by
  have hmodify : TableRel K V (t.modify j fun _ => x) (u.modify k fun _ => y) := by
    unfold Table.modify
    rw [slot hK hk h]
    exact h.modifyChain _ fun c d hcd => chainModify hK hk (fun _ _ _ => hv) hcd
  have hnew : TableRel K V (t.insertNew j x) (u.insertNew k y) := by
    have hpush : TableRel K V (Table.push { t with size := t.size + 1 } (j, x))
        (Table.push { u with size := u.size + 1 } (k, y)) := by
      rw [h.size]
      exact push hK h.withSize ⟨hk, hv⟩
    change TableRel K V (Table.grow _) (Table.grow _)
    unfold Table.grow
    rw [hpush.chains_size, hpush.size]
    split
    · exact hpush.rehash hK _
    · exact hpush
  unfold Table.insert
  rw [contains hK hk h]
  split
  · exact hmodify
  · exact hnew

end Hashing

end TableRel

namespace Table

variable {t : Table κ ν} {k : κ} {x : ν} {p : κ × ν}

/-- An entry of a table with one chain changed is an entry of the table, or one of the chain as changed. -/
theorem mem_toList_modifyChain {i : Nat} {f : List (κ × ν) → List (κ × ν)} (h : p ∈ (t.modifyChain i f).toList) :
    p ∈ t.toList ∨ ∃ c ∈ t.chains.toList, p ∈ f c := by
  obtain ⟨d, hd, hp⟩ := List.mem_flatten.1 h
  rw [modifyChain, Array.toList_modify] at hd
  obtain ⟨j, hj, rfl⟩ := List.mem_iff_getElem.1 hd
  rw [List.getElem_modify] at hp
  rw [List.length_modify] at hj
  split at hp
  · exact .inr ⟨_, List.getElem_mem hj, hp⟩
  · exact .inl (List.mem_flatten.2 ⟨_, List.getElem_mem hj, hp⟩)

/-- A chain with one value replaced has old entries and the new value only. -/
theorem mem_chainModify [BEq κ] {c : List (κ × ν)} (h : p ∈ chainModify k (fun _ => x) c) : p ∈ c ∨ ((p.1 == k) = true ∧ p.2 = x) := by
  induction c with
  | nil => nomatch h
  | cons q c ih =>
    rw [chainModify] at h
    by_cases hq : (q.1 == k) = true
    · rw [if_pos hq] at h
      rcases List.mem_cons.1 h with rfl | h
      · exact .inr ⟨hq, rfl⟩
      · exact .inl (List.mem_cons_of_mem _ h)
    · rw [if_neg hq] at h
      rcases List.mem_cons.1 h with rfl | h
      · exact .inl List.mem_cons_self
      · rcases ih h with h | h
        · exact .inl (List.mem_cons_of_mem _ h)
        · exact .inr h

variable [Hashable κ]

/-- A push adds its entry and no other. -/
theorem mem_toList_push {q : κ × ν} (h : p ∈ (t.push q).toList) : p ∈ t.toList ∨ p = q := by
  rcases mem_toList_modifyChain h with h | ⟨c, hc, h⟩
  · exact .inl h
  · rcases List.mem_cons.1 h with h | h
    · exact .inr h
    · exact .inl (List.mem_flatten.2 ⟨c, hc, h⟩)

/-- Spreading a table over new chains adds no entry. -/
theorem mem_toList_rehash {n : Nat} (h : p ∈ (t.rehash n).toList) : p ∈ t.toList := by
  have hfold : ∀ (l : List (κ × ν)) (u : Table κ ν), p ∈ (l.foldl push u).toList → p ∈ u.toList ∨ p ∈ l := by
    intro l
    induction l with
    | nil => exact fun u h => .inl h
    | cons q l ih =>
      intro u h
      rcases ih (u.push q) h with h | h
      · rcases mem_toList_push h with h | rfl
        · exact .inl h
        · exact .inr List.mem_cons_self
      · exact .inr (List.mem_cons_of_mem _ h)
  rcases hfold _ _ h with h | h
  · simp [toList, withChains] at h
  · exact h

/-- An entry of a table after an insertion was there before, or holds the value under a key that equals the given one. -/
theorem mem_toList_insert [BEq κ] (h : p ∈ (t.insert k x).toList) : p ∈ t.toList ∨ ((p.1 = k ∨ (p.1 == k) = true) ∧ p.2 = x) := by
  unfold insert at h
  split at h
  · rcases mem_toList_modifyChain h with h | ⟨c, hc, h⟩
    · exact .inl h
    · rcases mem_chainModify h with h | ⟨hk, hx⟩
      · exact .inl (List.mem_flatten.2 ⟨c, hc, h⟩)
      · exact .inr ⟨.inr hk, hx⟩
  · have hpush : p ∈ (push { t with size := t.size + 1 } (k, x)).toList := by
      change p ∈ (grow _).toList at h
      unfold grow at h
      split at h
      · exact mem_toList_rehash h
      · exact h
    rcases mem_toList_push hpush with h | rfl
    · exact .inl h
    · exact .inr ⟨.inl rfl, rfl⟩

end Table

end Tables

/-- Lists paired with the same keys are related when they are. -/
theorem zip_rel {κ α β : Type} {P : α → β → Prop} (ks : List κ) {l : List α} {m : List β} (h : List.Forall₂ P l m) :
    List.Forall₂ (fun x y => x.1 = y.1 ∧ P x.2 y.2) (ks.zip l) (ks.zip m) := by
  induction ks generalizing l m with
  | nil => exact .nil
  | cons k ks ih =>
    cases h with
    | nil => exact .nil
    | cons hp hrest => exact .cons ⟨rfl, hp⟩ (ih hrest)

/-! ## Handles, values and operands -/

/-- Which handles of two heaps stand for one object, and the kind of value that refers to it; an environment has none. -/
abbrev Correspondence := Option RefKind → Handle → Handle → Prop

/-- Every handle stands for one object only. -/
def Correspondence.OneToOne (R : Correspondence) : Prop :=
  ∀ {k k' a b a' b'}, R k a b → R k' a' b' → (a = a' ↔ b = b')

/-- Values that are the same up to their handles. -/
inductive ValueRel (S : Correspondence) : Value → Value → Prop where
  | plain {v : Value} : v.handle? = none → ValueRel S v v
  | ref {kind : RefKind} {a b : Handle} : S (some kind) a b → ValueRel S (.ref kind a) (.ref kind b)

namespace ValueRel

variable {S S' : Correspondence} {v w : Value}

/-- Related handles of a value may be related otherwise. -/
theorem imp (h : ValueRel S v w)
    (hs : ∀ kind a b, v.handle? = some a → w.handle? = some b → S (some kind) a b → S' (some kind) a b) :
    ValueRel S' v w := by
  cases h with
  | plain hv => exact .plain hv
  | ref h => exact .ref (hs _ _ _ rfl rfl h)

/-- What corresponds to a reference is a reference of the same kind. -/
theorem of_ref_left {kind : RefKind} {a : Handle} (h : ValueRel S (.ref kind a) w) : ∃ b, w = .ref kind b ∧ S (some kind) a b := by
  cases h with
  | plain hv => nomatch hv
  | ref h => exact ⟨_, rfl, h⟩

/-- Only a reference of the same kind corresponds to a reference. -/
theorem of_ref_right {kind : RefKind} {b : Handle} (h : ValueRel S v (.ref kind b)) : ∃ a, v = .ref kind a ∧ S (some kind) a b := by
  cases h with
  | plain hv => nomatch hv
  | ref h => exact ⟨_, rfl, h⟩

/-- Corresponding values are of one kind. -/
theorem kindName (h : ValueRel S v w) : v.kindName = w.kindName := by
  cases h <;> rfl

theorem isError (h : ValueRel S v w) : v.isError = w.isError := by
  cases h with
  | plain _ => rfl
  | ref h =>
    rename_i kind a b
    cases kind <;> rfl

/-- Corresponding values are the same integer, or both are none. -/
theorem toInt64? (h : ValueRel S v w) : v.toInt64? = w.toInt64? := by
  cases h <;> rfl

end ValueRel

/-- Operands that are the same up to their handles. -/
inductive OperandRel (S : Correspondence) : Operand → Operand → Prop where
  | num (n : Num) : OperandRel S (.num n) (.num n)
  | text (s : String) : OperandRel S (.text s) (.text s)
  | bool (b : Bool) : OperandRel S (.bool b) (.bool b)
  | null : OperandRel S .null .null
  | error (message : String) : OperandRel S (.error message) (.error message)
  | ref {kind : RefKind} {a b : Handle} (empty : Bool) : S (some kind) a b →
      OperandRel S (.ref kind a empty) (.ref kind b empty)

namespace OperandRel

variable {S : Correspondence} {x y x' y' : Operand}

theorem truthy (h : OperandRel S x y) : x.truthy = y.truthy := by
  cases h <;> rfl

/-- Equality does not tell corresponding operands apart, as handles correspond one to one. -/
theorem equal (hS : S.OneToOne) (h : OperandRel S x y) (h' : OperandRel S x' y') : x.equal x' = y.equal y' := by
  cases h with
  | ref e hr =>
    cases h' with
    | ref e' hr' =>
      simp only [Operand.equal, beq_eq_decide]
      exact decide_eq_decide.2 (hS hr hr')
    | _ => rfl
  | _ => cases h' <;> rfl

/-- A unary operator has one outcome on corresponding operands. -/
theorem unary (h : OperandRel S x y) (op : UnaryOp) : x.unary op = y.unary op := by
  cases op with
  | not =>
    simp only [Operand.unary]
    rw [h.truthy]
  | negate => cases h <;> rfl

/-- A binary operator has one outcome on corresponding operands. -/
theorem binary (hS : S.OneToOne) (h : OperandRel S x y) (h' : OperandRel S x' y') (op : BinaryOp) :
    Operand.binary op x x' = Operand.binary op y y' := by
  cases op with
  | equal => simp only [Operand.binary, equal hS h h']
  | notEqual => simp only [Operand.binary, equal hS h h']
  | arith op => cases h <;> cases h' <;> rfl
  | order op => cases h <;> cases h' <;> rfl

end OperandRel

/-! ## Keys -/

mutual

/-- Keys that are the same up to their handles. -/
inductive KeyRel (R : Correspondence) : MapKey → MapKey → Prop where
  | null : KeyRel R .null .null
  | bool (b : Bool) : KeyRel R (.bool b) (.bool b)
  | int (n : Int) : KeyRel R (.int n) (.int n)
  | float (x : Double) : KeyRel R (.float x) (.float x)
  | text (s : String) : KeyRel R (.text s) (.text s)
  | error (message : String) : KeyRel R (.error message) (.error message)
  | range (start stop step : Int64) : KeyRel R (.range start stop step) (.range start stop step)
  | array {js ks : List MapKey} : KeysRel R js ks → KeyRel R (.array js) (.array ks)
  | ref {kind : Option RefKind} {a b : Handle} : R kind a b → KeyRel R (.ref a) (.ref b)

/-- Lists of such keys. -/
inductive KeysRel (R : Correspondence) : List MapKey → List MapKey → Prop where
  | nil : KeysRel R [] []
  | cons {j k : MapKey} {js ks : List MapKey} : KeyRel R j k → KeysRel R js ks → KeysRel R (j :: js) (k :: ks)

end

mutual

/-- The handles that a key names. -/
def MapKey.handles : MapKey → List Handle
  | .array items => handlesOf items
  | .ref a => [a]
  | _ => []

/-- The handles that the keys of a list name. -/
def MapKey.handlesOf : List MapKey → List Handle
  | [] => []
  | k :: ks => k.handles ++ handlesOf ks

end

mutual

/-- Handles that related keys name may be related otherwise. -/
theorem KeyRel.imp {R R' : Correspondence} : ∀ {j k : MapKey},
    KeyRel R j k → (∀ kind, ∀ a ∈ j.handles, ∀ b ∈ k.handles, R kind a b → R' kind a b) → KeyRel R' j k
  | _, _, .null, _ => .null
  | _, _, .bool b, _ => .bool b
  | _, _, .int n, _ => .int n
  | _, _, .float x, _ => .float x
  | _, _, .text s, _ => .text s
  | _, _, .error m, _ => .error m
  | _, _, .range a b c, _ => .range a b c
  | _, _, .array h, hR => .array (h.imp fun kind a ha b hb => hR kind a (by rwa [MapKey.handles]) b (by rwa [MapKey.handles]))
  | _, _, .ref h, hR => .ref (hR _ _ (by simp [MapKey.handles]) _ (by simp [MapKey.handles]) h)

/-- Lists of keys correspond in any way in which their handles do. -/
theorem KeysRel.imp {R R' : Correspondence} : ∀ {js ks : List MapKey}, KeysRel R js ks →
    (∀ kind, ∀ a ∈ MapKey.handlesOf js, ∀ b ∈ MapKey.handlesOf ks, R kind a b → R' kind a b) → KeysRel R' js ks
  | _, _, .nil, _ => .nil
  | _, _, .cons h hs, hR => by
    simp only [MapKey.handlesOf, List.mem_append] at hR
    exact .cons (h.imp fun kind a ha b hb => hR kind a (.inl ha) b (.inl hb))
      (hs.imp fun kind a ha b hb => hR kind a (.inr ha) b (.inr hb))

end

mutual

/-- Equal keys name the same handles. -/
theorem MapKey.handles_eq_of_beq : ∀ {j k : MapKey}, j.beq k = true → j.handles = k.handles
  | .array js, .array ks, h => by
    rw [beq] at h
    rw [handles, handles]
    exact handlesOf_eq_of_beqList h
  | .ref a, .ref b, h => by
    rw [beq, beq_iff_eq] at h
    rw [h]
  | .null, k, h => by cases k <;> simp_all [beq, handles]
  | .bool _, k, h => by cases k <;> simp_all [beq, handles]
  | .int _, k, h => by cases k <;> simp_all [beq, handles]
  | .float _, k, h => by cases k <;> simp_all [beq, handles]
  | .text _, k, h => by cases k <;> simp_all [beq, handles]
  | .error _, k, h => by cases k <;> simp_all [beq, handles]
  | .range .., k, h => by cases k <;> simp_all [beq, handles]

/-- Lists of equal keys name the same handles. -/
theorem MapKey.handlesOf_eq_of_beqList : ∀ {js ks : List MapKey}, beqList js ks = true → handlesOf js = handlesOf ks
  | [], [], _ => rfl
  | j :: js, k :: ks, h => by
    rw [beqList, Bool.and_eq_true] at h
    rw [handlesOf, handlesOf, handles_eq_of_beq h.1, handlesOf_eq_of_beqList h.2]
  | [], _ :: _, h => by simp [beqList] at h
  | _ :: _, [], h => by simp [beqList] at h

end

mutual

theorem KeyRel.hashKey {R : Correspondence} : ∀ {j k : MapKey}, KeyRel R j k → j.hashKey = k.hashKey
  | _, _, .array h => by
    rw [MapKey.hashKey, MapKey.hashKey]
    exact h.hashKeys 31
  | _, _, .ref _ => by rw [MapKey.hashKey, MapKey.hashKey]
  | _, _, .null => rfl
  | _, _, .bool _ => rfl
  | _, _, .int _ => rfl
  | _, _, .float _ => rfl
  | _, _, .text _ => rfl
  | _, _, .error _ => rfl
  | _, _, .range .. => rfl

/-- Lists of corresponding keys have one hash. -/
theorem KeysRel.hashKeys {R : Correspondence} : ∀ {js ks : List MapKey}, KeysRel R js ks → ∀ seed,
    MapKey.hashKeys seed js = MapKey.hashKeys seed ks
  | _, _, .nil, _ => rfl
  | _, _, .cons h hs, seed => by
    rw [MapKey.hashKeys, MapKey.hashKeys, h.hashKey]
    exact hs.hashKeys _

end

mutual

/-- Equality does not tell corresponding keys apart. -/
theorem KeyRel.beq {R : Correspondence} (hR : R.OneToOne) : ∀ {j k j' k' : MapKey}, KeyRel R j k → KeyRel R j' k' →
    j.beq j' = k.beq k'
  | _, _, _, _, .array h, h' => by
    cases h' with
    | array h' =>
      rw [MapKey.beq, MapKey.beq]
      exact h.beqList hR h'
    | _ => simp only [MapKey.beq]
  | _, _, _, _, .ref h, h' => by
    cases h' with
    | ref h' =>
      simp only [MapKey.beq, beq_eq_decide]
      exact decide_eq_decide.2 (hR h h')
    | _ => simp only [MapKey.beq]
  | _, _, _, _, .null, h' => by cases h' <;> simp only [MapKey.beq]
  | _, _, _, _, .bool _, h' => by cases h' <;> simp only [MapKey.beq]
  | _, _, _, _, .int _, h' => by cases h' <;> simp only [MapKey.beq]
  | _, _, _, _, .float _, h' => by cases h' <;> simp only [MapKey.beq]
  | _, _, _, _, .text _, h' => by cases h' <;> simp only [MapKey.beq]
  | _, _, _, _, .error _, h' => by cases h' <;> simp only [MapKey.beq]
  | _, _, _, _, .range .., h' => by cases h' <;> simp only [MapKey.beq]

/-- Equality does not tell lists of corresponding keys apart. -/
theorem KeysRel.beqList {R : Correspondence} (hR : R.OneToOne) : ∀ {js ks js' ks' : List MapKey}, KeysRel R js ks →
    KeysRel R js' ks' → MapKey.beqList js js' = MapKey.beqList ks ks'
  | _, _, _, _, .nil, h' => by cases h' <;> simp only [MapKey.beqList]
  | _, _, _, _, .cons h hs, h' => by
    cases h' with
    | nil => simp only [MapKey.beqList]
    | cons h' hs' => rw [MapKey.beqList, MapKey.beqList, h.beq hR h', hs.beqList hR hs']

end

/-- The key of a double corresponds to itself. -/
theorem KeyRel.ofDouble (R : Correspondence) (x : Double) : KeyRel R (.ofDouble x) (.ofDouble x) := by
  unfold MapKey.ofDouble
  split
  · exact .int _
  · exact .float _

/-- Lists correspond when their members do. -/
theorem KeysRel.of_forall₂ {R : Correspondence} {js ks : List MapKey} (h : List.Forall₂ (KeyRel R) js ks) : KeysRel R js ks := by
  induction h with
  | nil => exact .nil
  | cons hjk _ ih => exact .cons hjk ih

/-- Neither hashes nor equality tell keys apart that are the same up to their handles. -/
theorem KeyRel.congruence {R : Correspondence} (hR : R.OneToOne) : KeyCongruence (KeyRel R) :=
  ⟨fun h => h.hashKey, fun h h' => h.beq hR h'⟩

theorem KeyCongruence.eq {κ : Type} [BEq κ] [Hashable κ] : KeyCongruence (κ := κ) Eq := by
  constructor
  · rintro j k rfl
    rfl
  · rintro j k j' k' rfl rfl
    rfl

/-! ## Objects -/

/-- Entries of maps that are the same up to their handles. -/
def EntryRel (S : Correspondence) (e f : MapEntry) : Prop := ValueRel S e.key f.key ∧ ValueRel S e.value f.value

/-- The handles that the keys of a map name. -/
def Object.keyHandles : Object → List Handle
  | .map entries => entries.keys.flatMap MapKey.handles
  | _ => []

/-- Walks that are the same up to the handle of the container. -/
inductive TraversalRel (S : Correspondence) : Traversal → Traversal → Prop where
  | array {a b : Handle} (i : Nat) : S (some .array) a b → TraversalRel S (.array a i) (.array b i)
  | range {a b : Handle} (i : Nat) : S (some .range) a b → TraversalRel S (.range a i) (.range b i)
  | map {a b : Handle} (c : Cursor) : S (some .map) a b → TraversalRel S (.map a c) (.map b c)

/-- Objects that are the same up to their handles. The handles in the keys of a map need not be in use any more: `R` relates
them, and `S` relates those that are held. -/
inductive ObjectRel (R S : Correspondence) : Object → Object → Prop where
  | text (s : String) : ObjectRel R S (.text s) (.text s)
  | array {xs ys : Array Value} : List.Forall₂ (ValueRel S) xs.toList ys.toList → ObjectRel R S (.array xs) (.array ys)
  | map {t u : Table MapKey MapEntry} : TableRel (KeyRel R) (EntryRel S) t u → ObjectRel R S (.map t) (.map u)
  | function {code : Code} {a b : Handle} : S none a b → ObjectRel R S (.function ⟨code, a⟩) (.function ⟨code, b⟩)
  | native (name : String) (arity : Option Nat) (b : Builtin) :
      ObjectRel R S (.native ⟨name, arity, .builtin b⟩) (.native ⟨name, arity, .builtin b⟩)
  | range (r : Progression) : ObjectRel R S (.range r) (.range r)
  | iterator {t u : Traversal} : TraversalRel S t u → ObjectRel R S (.iterator t) (.iterator u)
  | error {p q : Option Value} (message : String) : Option.Rel (ValueRel S) p q →
      ObjectRel R S (.error ⟨message, p⟩) (.error ⟨message, q⟩)
  | environment {t u : Table String Value} {p q : Option Handle} : TableRel Eq (ValueRel S) t u →
      Option.Rel (S none) p q → ObjectRel R S (.environment ⟨t, p⟩) (.environment ⟨u, q⟩)

/-- The handle of a value, related to that of a value that is the same up to it. -/
theorem ValueRel.handle? {S : Correspondence} {v w : Value} (h : ValueRel S v w) :
    Option.Rel (fun a b => ∃ kind, S kind a b) v.handle? w.handle? := by
  cases h with
  | plain hv =>
    rw [hv]
    exact .none
  | ref h => exact .some ⟨_, h⟩

/-- Related options are related as lists. -/
theorem Option.Rel.toList_forall₂ {α β : Type} {P : α → β → Prop} {x : Option α} {y : Option β} (h : Option.Rel P x y) :
    List.Forall₂ P x.toList y.toList := by
  cases h with
  | none => exact .nil
  | some h => exact .cons h .nil

namespace ObjectRel

variable {R R' S S' : Correspondence} {o p : Object}

/-- The objects keep alive what corresponds. -/
theorem references (h : ObjectRel R S o p) : List.Forall₂ (fun a b => ∃ kind, S kind a b) o.references p.references := by
  have hfilter : ∀ {l m : List Value}, List.Forall₂ (ValueRel S) l m →
      List.Forall₂ (fun a b => ∃ kind, S kind a b) (l.filterMap Value.handle?) (m.filterMap Value.handle?) :=
    fun h => List.rel_filterMap (fun _ _ hv => hv.handle?) h
  cases h with
  | text s => exact .nil
  | array h => exact hfilter h
  | map h =>
    refine List.rel_flatMap h.values fun e f he => ?_
    exact List.rel_append (Option.Rel.toList_forall₂ he.1.handle?) (Option.Rel.toList_forall₂ he.2.handle?)
  | function h => exact .cons ⟨_, h⟩ .nil
  | native => exact .nil
  | range r => exact .nil
  | iterator h => cases h <;> exact .cons ⟨_, ‹_›⟩ .nil
  | error m h =>
    cases h with
    | none => exact .nil
    | some h => exact Option.Rel.toList_forall₂ h.handle?
  | environment h hp =>
    refine List.rel_append (hfilter h.values) ?_
    cases hp with
    | none => exact .nil
    | some h => exact .cons ⟨_, h⟩ .nil

/-- Handles that related objects hold may be related otherwise. -/
theorem imp (h : ObjectRel R S o p) (hR : ∀ kind, ∀ a ∈ o.keyHandles, ∀ b ∈ p.keyHandles, R kind a b → R' kind a b)
    (hS : ∀ kind, ∀ a ∈ o.references, ∀ b ∈ p.references, S kind a b → S' kind a b) : ObjectRel R' S' o p := by
  cases h with
  | text s => exact .text s
  | array h =>
    refine .array (forall₂_imp_mem h fun v hv w hw hvw => hvw.imp fun kind a b ha hb => hS _ a ?_ b ?_)
    · exact List.mem_filterMap.2 ⟨v, hv, ha⟩
    · exact List.mem_filterMap.2 ⟨w, hw, hb⟩
  | map h =>
    refine .map (h.imp (fun j hj k hk hjk => hjk.imp fun kind a ha b hb => hR kind a ?_ b ?_) fun e he f hf hef => ⟨?_, ?_⟩)
    · exact List.mem_flatMap.2 ⟨j, hj, ha⟩
    · exact List.mem_flatMap.2 ⟨k, hk, hb⟩
    · refine hef.1.imp fun kind a b ha hb => hS _ a (List.mem_flatMap.2 ⟨e, he, ?_⟩) b (List.mem_flatMap.2 ⟨f, hf, ?_⟩)
      · simp [ha]
      · simp [hb]
    · refine hef.2.imp fun kind a b ha hb => hS _ a (List.mem_flatMap.2 ⟨e, he, ?_⟩) b (List.mem_flatMap.2 ⟨f, hf, ?_⟩)
      · simp [ha]
      · simp [hb]
  | function h => exact .function (hS _ _ (by simp [Object.references]) _ (by simp [Object.references]) h)
  | native name arity b => exact .native name arity b
  | range r => exact .range r
  | iterator h =>
    refine .iterator ?_
    cases h with
    | array i h =>
      exact .array i
        (hS _ _ (by simp [Object.references, Traversal.target]) _ (by simp [Object.references, Traversal.target]) h)
    | range i h =>
      exact .range i
        (hS _ _ (by simp [Object.references, Traversal.target]) _ (by simp [Object.references, Traversal.target]) h)
    | map i h =>
      exact .map i
        (hS _ _ (by simp [Object.references, Traversal.target]) _ (by simp [Object.references, Traversal.target]) h)
  | error m h =>
    cases h with
    | none => exact .error m .none
    | some h =>
      refine .error m (.some (h.imp fun kind a b ha hb => hS _ a ?_ b ?_))
      · simp [Object.references, ha]
      · simp [Object.references, hb]
  | environment h hp =>
    refine .environment (h.imp (fun _ _ _ _ h => h) fun v hv w hw hvw => hvw.imp fun kind a b ha hb => hS _ a ?_ b ?_) ?_
    · exact List.mem_append_left _ (List.mem_filterMap.2 ⟨v, hv, ha⟩)
    · exact List.mem_append_left _ (List.mem_filterMap.2 ⟨w, hw, hb⟩)
    · cases hp with
      | none => exact .none
      | some h => exact .some (hS _ _ (by simp [Object.references]) _ (by simp [Object.references]) h)

end ObjectRel

end ScriptVM
