import ScriptVM.Proofs.Emission

/-!
# Layouts of the operands

A layout says what code finds at a position: which operands its frame has, and how many scopes it has entered. `Instruction.after`
runs an instruction on layouts instead of operands. Code `Fits` a layout for a number of instructions when all of them, along every
path, find what they need. Since every jump takes one of these instructions, code with a jump back fits for any number of them by
induction on the number.
-/

namespace ScriptVM

/-- What a layout says of an operand: that it is a value, or that it is an iterator. -/
inductive OperandKind where
  | value
  | iterator
  deriving DecidableEq, Repr

/-- What code finds at a position: the operands of its frame, the top one first, and the number of scopes it has entered. -/
structure Layout where
  operands : List OperandKind := []
  scopes : Nat := 0
  deriving DecidableEq, Repr

namespace Layout

/-- The layout with operands pushed, the first of them on top. -/
def push (σ : Layout) (ks : List OperandKind) : Layout := { σ with operands := ks ++ σ.operands }

/-- The layout without so many operands. -/
def drop (σ : Layout) (count : Nat) : Layout := { σ with operands := σ.operands.drop count }

@[simp] theorem push_nil (σ : Layout) : σ.push [] = σ := rfl

/-- Operands pushed one after the other are pushed at once. -/
@[simp] theorem push_push (σ : Layout) (ks ls : List OperandKind) : (σ.push ks).push ls = σ.push (ls ++ ks) := by
  simp [push]

@[simp] theorem operands_push (σ : Layout) (ks : List OperandKind) : (σ.push ks).operands = ks ++ σ.operands := rfl

@[simp] theorem scopes_push (σ : Layout) (ks : List OperandKind) : (σ.push ks).scopes = σ.scopes := rfl

/-- Dropping what was pushed gives the layout back. -/
@[simp] theorem drop_push (σ : Layout) (ks : List OperandKind) : (σ.push ks).drop ks.length = σ := by
  simp [push, drop]

end Layout

/-- How many operands an instruction takes or looks at. -/
def Instruction.takes : Instruction → Nat
  | .load _ | .loadName _ | .makeFunction _ | .enterScope | .exitScope => 0
  | .jump .forward _ | .jump .loop _ => 0
  | .jump .ifFalse _ | .jump .ifTrue _ => 1
  | .storeName _ | .setName _ | .pop | .unary _ | .getMember _ | .getIter | .iterNext .. | .ret => 1
  | .binary _ | .index => 2
  | .buildRange => 3
  | .buildArray count => count.toNat
  | .buildMap pairs => pairs.toNat * 2
  | .call argc => argc.toNat + 1

/-- Where a jump lands that is counted from an offset, unless that is before the code. -/
def landing? (next : Nat) (offset : Int32) : Option Nat :=
  let target : Int := next + offset.toInt
  if target < 0 then none else some target.toNat

/-- A jump lands where its offset leads from the instruction behind it. -/
theorem landing?_eq_some {next target : Nat} {offset : Int32} :
    landing? next offset = some target ↔ (next : Int) + offset.toInt = target := by
  simp only [landing?]
  split
  · simp
    omega
  · simp
    omega

/-- The positions that an instruction leads to, and the layouts it leaves there; none if it does not find what it needs. -/
def Instruction.after (i : Instruction) (next : Nat) (σ : Layout) : Option (List (Nat × Layout)) :=
  if σ.operands.length < i.takes then none
  else
    match i with
    | .load _ | .loadName _ | .makeFunction _ | .unary _ | .binary _ | .buildArray _ | .buildMap _ | .buildRange | .index
    | .getMember _ | .call _ => some [(next, (σ.drop i.takes).push [.value])]
    | .storeName _ | .pop => some [(next, σ.drop 1)]
    | .setName _ => some [(next, σ)]
    | .jump .forward offset | .jump .loop offset => (landing? next offset).map fun target => [(target, σ)]
    | .jump .ifFalse offset | .jump .ifTrue offset =>
      (landing? next offset).map fun target => [(next, σ.drop 1), (target, σ.drop 1)]
    | .enterScope => some [(next, { σ with scopes := σ.scopes + 1 })]
    | .exitScope => if σ.scopes = 0 then none else some [(next, { σ with scopes := σ.scopes - 1 })]
    | .getIter => some [(next, (σ.drop 1).push [.iterator])]
    | .iterNext arity offset =>
      if σ.operands.head? = some .iterator then
        (landing? next offset).map fun target =>
          [(next, σ.push (if 2 ≤ arity then [.value, .value] else [.value])), (target, σ.drop 1)]
      else none
    | .ret => some []

/-- Whether an instruction replaces its operands by a value, and does nothing else to the layout. -/
def Instruction.combines : Instruction → Bool
  | .load _ | .loadName _ | .makeFunction _ | .unary _ | .binary _ | .buildArray _ | .buildMap _ | .buildRange | .index
  | .getMember _ | .call _ => true
  | _ => false

/-- An instruction that combines its operands leads to the next one, with one value in their place. -/
theorem Instruction.after_of_combines {i : Instruction} (hi : i.combines = true) (next : Nat) {σ : Layout}
    (hσ : i.takes ≤ σ.operands.length) : i.after next σ = some [(next, (σ.drop i.takes).push [.value])] := by
  have henough : ¬σ.operands.length < i.takes := Nat.not_lt.2 hσ
  unfold after
  rw [if_neg henough]
  cases i <;> first | rfl | nomatch hi

/-! ## Positions -/

/-- Instructions stand at an offset of a code. -/
def Stands (code : List Instruction) (ip : Nat) (part : List Instruction) : Prop :=
  ∃ pre post, code = pre ++ (part ++ post) ∧ codeSize pre = ip

namespace Stands

variable {code a b : List Instruction} {ip : Nat} {i j : Instruction}

/-- A code stands at its own start. -/
theorem self (code : List Instruction) : Stands code 0 code := ⟨[], [], by simp, rfl⟩

/-- The front part of what stands at an offset stands there. -/
theorem left (h : Stands code ip (a ++ b)) : Stands code ip a := by
  obtain ⟨pre, post, rfl, hp⟩ := h
  exact ⟨pre, b ++ post, by simp, hp⟩

/-- The back part of what stands at an offset stands behind the front part. -/
theorem right (h : Stands code ip (a ++ b)) : Stands code (ip + codeSize a) b := by
  obtain ⟨pre, post, rfl, hp⟩ := h
  exact ⟨pre ++ a, post, by simp, by rw [codeSize_append, hp]⟩

/-- An instruction that stands in a code is one of its instructions. -/
theorem mem (h : Stands code ip [i]) : i ∈ code := by
  obtain ⟨pre, post, rfl, -⟩ := h
  simp

/-- Instructions have bytes, so only one of them stands at an offset. -/
theorem unique (hi : Stands code ip [i]) (hj : Stands code ip [j]) : i = j := by
  obtain ⟨pre, post, rfl, rfl⟩ := hi
  obtain ⟨pre', post', heq, hp'⟩ := hj
  induction pre generalizing pre' with
  | nil =>
    cases pre' with
    | nil =>
      simp only [List.nil_append, List.cons_append, List.cons.injEq] at heq
      exact heq.1
    | cons k pre' =>
      have hpos := Instruction.width_pos k
      simp only [codeSize] at hp'
      omega
  | cons k pre ih =>
    cases pre' with
    | nil =>
      have hpos := Instruction.width_pos k
      simp only [codeSize] at hp'
      omega
    | cons k' pre' =>
      simp only [List.cons_append, List.cons.injEq] at heq
      obtain ⟨rfl, heq⟩ := heq
      simp only [codeSize] at hp'
      exact ih pre' heq (by omega)

/-- The machine reads the instruction from the bytes of the code. -/
theorem decode (hc : Checked code) (h : Stands code ip [i]) :
    Instruction.decode (encodeAll code).toArray ip = .ok (i, i.width) := by
  have hi := hc i h.mem
  obtain ⟨pre, post, rfl, rfl⟩ := h
  have hcode : (encodeAll (pre ++ ([i] ++ post))).toArray.toList = encodeAll pre ++ (i.encode ++ encodeAll post) := by
    simp [encodeAll]
  rw [← length_encodeAll]
  exact Instruction.decode_of_code hi hcode

end Stands

/-! ## Code that fits -/

/-- The next `n` instructions from an offset on, along every path, find what they need. -/
def Fits (code : List Instruction) : Nat → Nat → Layout → Prop
  | 0, _, _ => True
  | n + 1, ip, σ => ∃ i paths, Stands code ip [i] ∧ i.after (ip + i.width) σ = some paths ∧ ∀ q ∈ paths, Fits code n q.1 q.2

namespace Fits

variable {code : List Instruction} {n ip : Nat} {σ : Layout} {i : Instruction} {paths : List (Nat × Layout)}

/-- What fits for some instructions fits for fewer. -/
theorem pred (h : Fits code (n + 1) ip σ) : Fits code n ip σ := by
  induction n generalizing ip σ with
  | zero => trivial
  | succ n ih =>
    obtain ⟨i, paths, hi, hafter, hpaths⟩ := h
    exact ⟨i, paths, hi, hafter, fun q hq => ih (hpaths q hq)⟩

/-- An instruction makes one step more. -/
theorem step (hi : Stands code ip [i]) (hafter : i.after (ip + i.width) σ = some paths) (h : ∀ q ∈ paths, Fits code n q.1 q.2) :
    Fits code (n + 1) ip σ := ⟨i, paths, hi, hafter, h⟩

/-- A code fits at an instruction when it does wherever the instruction leads. -/
theorem instruction (hi : Stands code ip [i]) (hafter : i.after (ip + i.width) σ = some paths)
    (h : ∀ q ∈ paths, Fits code n q.1 q.2) : Fits code n ip σ := (step hi hafter h).pred

/-- A code fits at an instruction that leads to one place when it fits there. -/
theorem follow {target : Nat} {τ : Layout} (hi : Stands code ip [i]) (hafter : i.after (ip + i.width) σ = some [(target, τ)])
    (h : Fits code n target τ) : Fits code n ip σ := by
  refine instruction hi hafter fun q hq => ?_
  rw [List.mem_singleton.1 hq]
  exact h

/-- Code that fits for any number of instructions finds one, and fits behind it. -/
theorem next (h : ∀ n, Fits code n ip σ) :
    ∃ i paths, Stands code ip [i] ∧ i.after (ip + i.width) σ = some paths ∧ ∀ q ∈ paths, ∀ n, Fits code n q.1 q.2 := by
  obtain ⟨i, paths, hi, hafter, -⟩ := h 1
  refine ⟨i, paths, hi, hafter, fun q hq n => ?_⟩
  obtain ⟨j, paths', hj, hafter', hpaths⟩ := h (n + 1)
  obtain rfl := hi.unique hj
  obtain rfl := Option.some.inj (hafter.symm.trans hafter')
  exact hpaths q hq

end Fits

end ScriptVM
