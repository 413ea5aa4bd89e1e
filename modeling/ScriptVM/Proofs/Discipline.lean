import ScriptVM.Proofs.Layout

/-!
# The discipline of emitted code

The code of an expression leaves one operand more, that of a statement leaves operands and scopes as they were (`Turns`). Its jumps
land at instructions of the code or at its end (`Closed`), and the functions in it are such code themselves, with a return at the
end (`Verified`). This is proved along the tree, once for each construct. For the code of a module or function it means that
`decodeStream` lists it, and that it fits the empty layout for any number of instructions.
-/

namespace ScriptVM

namespace Stands

variable {code a b part : List Instruction} {ip : Nat} {i : Instruction}

/-- What stands in the front part stands in the whole. -/
theorem inLeft (h : Stands a ip part) : Stands (a ++ b) ip part := by
  obtain ⟨pre, post, rfl, hp⟩ := h
  exact ⟨pre, post ++ b, by simp, hp⟩

/-- What stands in the back part stands in the whole, behind the front part. -/
theorem inRight (h : Stands b ip part) : Stands (a ++ b) (codeSize a + ip) part := by
  obtain ⟨pre, post, rfl, hp⟩ := h
  exact ⟨a ++ pre, post, by simp, by rw [codeSize_append, hp]⟩

/-- An instruction of two codes stands in the one or in the other. -/
theorem append_cases (h : Stands (a ++ b) ip [i]) : Stands a ip [i] ∨ ∃ start, ip = codeSize a + start ∧ Stands b start [i] := by
  obtain ⟨pre, post, heq, hp⟩ := h
  rcases List.append_eq_append_iff.1 heq with ⟨more, rfl, hb⟩ | ⟨more, rfl, hpost⟩
  · exact .inr ⟨codeSize more, by rw [← hp, codeSize_append], more, post, hb, rfl⟩
  · cases more with
    | nil => exact .inr ⟨0, by simp [← hp], [], post, by simpa using hpost.symm, rfl⟩
    | cons j more =>
      simp only [List.cons_append, List.nil_append, List.cons.injEq] at hpost
      obtain ⟨rfl, -⟩ := hpost
      exact .inl ⟨pre, more, rfl, hp⟩

/-- Only the instruction itself stands in a code of one, at its start. -/
theorem singleton {j : Instruction} (h : Stands [j] ip [i]) : ip = 0 ∧ i = j := by
  obtain ⟨pre, post, heq, hp⟩ := h
  cases pre with
  | nil =>
    simp only [List.nil_append, List.cons_append, List.cons.injEq] at heq
    exact ⟨hp.symm, heq.1.symm⟩
  | cons k pre => simp at heq

theorem start (code : List Instruction) : Stands code 0 [] := ⟨[], code, rfl, rfl⟩

theorem stop (code : List Instruction) : Stands code (codeSize code) [] := ⟨code, [], by simp, rfl⟩

/-- With one more instruction behind it, there is an instruction at every place of a code and at its end. -/
theorem concat (h : Stands code ip []) (i : Instruction) : ∃ j, Stands (code ++ [i]) ip [j] := by
  obtain ⟨pre, post, rfl, hp⟩ := h
  cases post with
  | nil => exact ⟨i, pre, [], by simp, hp⟩
  | cons j post => exact ⟨j, pre, post ++ [i], by simp, hp⟩

end Stands

/-! ## Jumps that stay inside -/

/-- A loop jumps back; every other jump goes forward. -/
def Instruction.Directed : Instruction → Prop
  | .jump .loop offset => offset.toInt < 0
  | .jump _ offset | .iterNext _ offset => 0 ≤ offset.toInt
  | _ => True

/-- Every jump has the direction of its kind, and lands at an instruction, at the end of the code or `beyond` bytes behind it. -/
def Closed (beyond : Nat) (code : List Instruction) : Prop :=
  ∀ ip i offset, Stands code ip [i] → i.jumpOffset? = some offset →
    i.Directed ∧ ∃ target, landing? (ip + i.width) offset = some target ∧ (Stands code target [] ∨ target = codeSize code + beyond)

/-- A jump that lands in a code lands in a longer one too, moved by what was put in front. -/
theorem landing?_add {next target : Nat} {offset : Int32} (h : landing? next offset = some target) (before : Nat) :
    landing? (before + next) offset = some (before + target) := by
  rw [landing?_eq_some] at h ⊢
  omega

namespace Closed

variable {beyond n : Nat} {a b code : List Instruction} {i : Instruction}

theorem nil : Closed beyond [] := by
  intro ip i offset hs
  exact absurd hs.mem (by simp)

/-- Jumps that leave the first code land in the second, or where the jumps that leave the second land. -/
theorem append (ha : Closed n a) (hb : Closed beyond b) (hn : Stands b n [] ∨ n = codeSize b + beyond) :
    Closed beyond (a ++ b) := by
  intro ip i offset hs ho
  rcases hs.append_cases with hleft | ⟨start, rfl, hright⟩
  · obtain ⟨hd, target, ht, hin | rfl⟩ := ha ip i offset hleft ho
    · exact ⟨hd, target, ht, .inl hin.inLeft⟩
    · refine ⟨hd, _, ht, ?_⟩
      rcases hn with hn | rfl
      · exact .inl hn.inRight
      · exact .inr (by rw [codeSize_append, Nat.add_assoc])
  · obtain ⟨hd, target, ht, hin⟩ := hb start i offset hright ho
    refine ⟨hd, codeSize a + target, by rw [Nat.add_assoc]; exact landing?_add ht _, ?_⟩
    rcases hin with hin | rfl
    · exact .inl hin.inRight
    · exact .inr (by rw [codeSize_append, Nat.add_assoc])

/-- Code that is closed by itself may stand in front of any other. -/
theorem followed (ha : Closed 0 a) (hb : Closed beyond b) : Closed beyond (a ++ b) := ha.append hb (.inl (.start b))

/-- Code whose jumps stay inside is closed whatever lies behind it. -/
theorem whole (h : Closed 0 code) (beyond : Nat) : Closed beyond code := by
  have hnil : Closed beyond [] := nil
  simpa using h.followed hnil

/-- An instruction that does not jump is closed. -/
theorem singleton (h : i.jumpOffset? = none) : Closed beyond [i] := by
  intro ip j offset hs ho
  obtain ⟨-, rfl⟩ := hs.singleton
  rw [h] at ho
  nomatch ho

/-- A jump forward. -/
theorem forward {offset : Int32} (hi : i.jumpOffset? = some offset) (hd : i.Directed) (ho : offset.toInt = n) : Closed n [i] := by
  intro ip j offset' hs ho'
  obtain ⟨rfl, rfl⟩ := hs.singleton
  obtain rfl := Option.some.inj (hi.symm.trans ho')
  refine ⟨hd, j.width + n, ?_, .inr rfl⟩
  rw [landing?_eq_some, ho]
  omega

/-- Code with a jump back to its start, which its other jumps may skip. -/
theorem loop {d : Int32} (ha : Closed Fragment.jumpWidth a) (hd : d.toInt = -((codeSize a + Fragment.jumpWidth : Nat) : Int)) :
    Closed 0 (a ++ [.jump .loop d]) := by
  intro ip i offset hs ho
  rcases hs.append_cases with hleft | ⟨start, rfl, hright⟩
  · obtain ⟨hdir, target, ht, hin | rfl⟩ := ha ip i offset hleft ho
    · exact ⟨hdir, target, ht, .inl hin.inLeft⟩
    · exact ⟨hdir, _, ht, .inr (by rw [codeSize_concat, width_jump, Nat.add_zero])⟩
  · obtain ⟨rfl, rfl⟩ := hright.singleton
    cases ho
    refine ⟨?_, 0, ?_, .inl (.start _)⟩
    · simp only [Instruction.Directed, hd, Fragment.jumpWidth]
      omega
    · rw [landing?_eq_some, hd, width_jump]
      omega

end Closed

/-! ## Listings of code -/

/-- The instructions of a code with their offsets, the first of them at `offset`. -/
def locate : Nat → List Instruction → List Located
  | _, [] => []
  | offset, i :: rest => ⟨offset, i⟩ :: locate (offset + i.width) rest

/-- A listing has an entry for each instruction. -/
theorem length_locate (offset : Nat) (code : List Instruction) : (locate offset code).length = code.length := by
  induction code generalizing offset with
  | nil => rfl
  | cons i code ih => exact congrArg (· + 1) (ih _)

/-- An instruction that stands in a code is listed at its offset. -/
theorem mem_locate {code : List Instruction} {i : Instruction} {ip : Nat} (h : Stands code ip [i]) (offset : Nat) :
    ⟨offset + ip, i⟩ ∈ locate offset code := by
  obtain ⟨pre, post, rfl, rfl⟩ := h
  induction pre generalizing offset with
  | nil => exact List.mem_cons_self
  | cons k pre ih =>
    refine List.mem_cons_of_mem _ ?_
    have hmem := ih (offset + k.width)
    rwa [Nat.add_assoc] at hmem

/-- Every listed instruction stands where the listing says. -/
theorem stands_of_mem_locate {code : List Instruction} {offset : Nat} {l : Located} (h : l ∈ locate offset code) :
    ∃ ip, l.offset = offset + ip ∧ Stands code ip [l.instruction] := by
  induction code generalizing offset with
  | nil => simp [locate] at h
  | cons i code ih =>
    rcases List.mem_cons.1 h with rfl | h
    · exact ⟨0, rfl, [], code, rfl, rfl⟩
    · obtain ⟨ip, hip, hs⟩ := ih h
      exact ⟨i.width + ip, by rw [hip, Nat.add_assoc], hs.inRight (a := [i])⟩

/-- A jump that lands within the length passes the check of its target. -/
theorem checkTarget_eq_ok {i : Instruction} {start stop length : Nat}
    (h : ∀ offset, i.jumpOffset? = some offset → ∃ target, landing? stop offset = some target ∧ target ≤ length) :
    checkTarget i start stop length = .ok () := by
  unfold checkTarget Instruction.target?
  cases ho : i.jumpOffset? with
  | none => rfl
  | some offset =>
    obtain ⟨target, ht, hle⟩ := h offset ho
    rw [landing?_eq_some] at ht
    have hlow : ¬(stop : Int) + offset.toInt < 0 := by omega
    have hhigh : ¬(length : Int) < (stop : Int) + offset.toInt := by omega
    simp [hlow, hhigh]

/-- What stands in a code stands no further than its end. -/
theorem Stands.le {code part : List Instruction} {ip : Nat} (h : Stands code ip part) : ip ≤ codeSize code := by
  obtain ⟨pre, post, rfl, rfl⟩ := h
  rw [codeSize_append]
  exact Nat.le_add_right _ _

/-- Every jump lands in the code or at its end. -/
def Inside (code : List Instruction) : Prop :=
  ∀ ip i offset, Stands code ip [i] → i.jumpOffset? = some offset →
    ∃ target, landing? (ip + i.width) offset = some target ∧ target ≤ codeSize code

/-- The jumps of closed code land in it or at its end. -/
theorem Closed.inside {code : List Instruction} (h : Closed 0 code) : Inside code := by
  intro ip i offset hs ho
  obtain ⟨-, target, ht, hin⟩ := h ip i offset hs ho
  refine ⟨target, ht, ?_⟩
  rcases hin with hin | rfl
  · exact hin.le
  · exact Nat.le_refl _

/-- What follows a place of a code whose jumps stay inside is read instruction by instruction. -/
theorem decodeFrom_encodeAll {code tail : List Instruction} (hc : Checked code) (hin : Inside code) {fuel : Nat} {r : ByteReader}
    (hsource : r.source = (encodeAll code).toArray) (hs : ∃ pre, code = pre ++ tail ∧ codeSize pre = r.position)
    (hfuel : tail.length ≤ fuel) : decodeFrom fuel r = .ok (locate r.position tail) := by
  induction tail generalizing fuel r with
  | nil =>
    obtain ⟨pre, hcode, hp⟩ := hs
    have hend : r.atEnd = true := by
      rw [r.atEnd_iff, ByteReader.rest, hsource, ← hp, hcode]
      simp [length_encodeAll]
    cases fuel <;> simp [decodeFrom, hend, locate]
  | cons i tail ih =>
    obtain ⟨pre, rfl, hp⟩ := hs
    have hsize : r.source.size = codeSize (pre ++ i :: tail) := by rw [hsource, List.size_toArray, length_encodeAll]
    have hsplit : r.rest = i.encode ++ encodeAll tail := by
      rw [ByteReader.rest, hsource, ← hp, ← length_encodeAll, encodeAll_append]
      simp [encodeAll]
    have hmore : r.atEnd = false := by
      rw [← Bool.not_eq_true, r.atEnd_iff, hsplit]
      simp [Instruction.encode]
    have hpos : r.position ≤ r.source.size := by
      rw [hsize, codeSize_append, hp]
      exact Nat.le_add_right _ _
    have hread := Instruction.reads_encode (hc i (by simp)) r (encodeAll tail) hpos hsplit
    obtain ⟨fuel, rfl⟩ : ∃ k, fuel = k + 1 := ⟨fuel - 1, by simp at hfuel; omega⟩
    have htarget : checkTarget i r.position (r.position + i.width) r.source.size = .ok () := by
      refine checkTarget_eq_ok fun offset ho => ?_
      rw [hsize]
      exact hin r.position i offset ⟨pre, tail, rfl, hp⟩ ho
    have hnext := @ih fuel { r with position := r.position + i.width } hsource ⟨pre ++ [i], by simp, by rw [codeSize_concat, hp]⟩
      (by simpa using hfuel)
    simp only [decodeFrom, hmore, Bool.false_eq_true, if_false, hread]
    change (do
      checkTarget i r.position (r.position + i.width) r.source.size
      let rest ← decodeFrom fuel { r with position := r.position + i.width }
      return (⟨r.position, i⟩ : Located) :: rest) = _
    rw [htarget, hnext]
    rfl

/-- There are no more instructions than bytes. -/
theorem length_le_codeSize (code : List Instruction) : code.length ≤ codeSize code := by
  induction code with
  | nil => exact Nat.le_refl 0
  | cons i code ih =>
    have hpos := i.width_pos
    simp only [List.length_cons, codeSize]
    omega

/-- Code whose jumps stay inside is listed instruction by instruction. -/
theorem decodeStream_encodeAll {code : List Instruction} (hc : Checked code) (hin : Inside code) :
    decodeStream (encodeAll code) = .ok (locate 0 code) := by
  refine decodeFrom_encodeAll hc hin rfl ⟨[], rfl, rfl⟩ ?_
  rw [length_encodeAll]
  exact length_le_codeSize code

/-! ## Code that turns operands into others -/

/-- The bytes of a module or function: closed code and a return, which fit the empty layout for any number of instructions, and make
only functions with such bytes. -/
inductive Verified : List UInt8 → Prop where
  | mk {front : List Instruction} : Checked (front ++ [.ret]) → Closed 0 front → (∀ n, Fits (front ++ [.ret]) n 0 {}) →
      (∀ p, .makeFunction p ∈ front → Verified p.body) → Verified (encodeAll (front ++ [.ret]))

/-- Code that can stand anywhere, and turns the operands `ks` on top into `ls`. -/
structure Turns (ks : List OperandKind) (code : List Instruction) (ls : List OperandKind) : Prop where
  fits : ∀ {whole ip n} {σ : Layout}, Stands whole ip code → Fits whole n (ip + codeSize code) (σ.push ls) →
    Fits whole n ip (σ.push ks)
  closed : Closed 0 code
  functions : ∀ p, .makeFunction p ∈ code → Verified p.body

/-- A condition that can stand anywhere: it falls through or jumps behind its end, and leaves the operands as they are. -/
structure Branches (f : Fragment) : Prop where
  fits : ∀ {whole ip n σ beyond code}, f.resolve beyond = .ok code → Stands whole ip code →
    Fits whole n (ip + codeSize code) σ → Fits whole n (ip + codeSize code + beyond) σ → Fits whole n ip σ
  closed : ∀ {beyond code}, f.resolve beyond = .ok code → Closed beyond code
  functions : ∀ p, .done (.makeFunction p) ∈ f → Verified p.body

namespace Turns

variable {a b code : List Instruction} {ks ls ms : List OperandKind} {i : Instruction}

/-- No code turns operands into themselves. -/
theorem nil : Turns ks [] ks := by
  refine ⟨fun _ h => h, .nil, fun p hp => ?_⟩
  simp at hp

/-- Code in sequence turns operands step by step. -/
theorem append (ha : Turns ks a ls) (hb : Turns ls b ms) : Turns ks (a ++ b) ms := by
  constructor
  case fits =>
    intro whole ip n σ hs h
    rw [codeSize_append, ← Nat.add_assoc] at h
    exact ha.fits hs.left (hb.fits hs.right h)
  case closed => exact ha.closed.followed hb.closed
  case functions =>
    intro p hp
    rcases List.mem_append.1 hp with hp | hp
    · exact ha.functions p hp
    · exact hb.functions p hp

/-- The operands below stay. -/
theorem frame (h : Turns ks code ls) (ms : List OperandKind) : Turns (ks ++ ms) code (ls ++ ms) := by
  refine ⟨fun {whole ip n σ} hs hnext => ?_, h.closed, h.functions⟩
  rw [← Layout.push_push] at hnext ⊢
  exact h.fits hs hnext

/-- Code that pushes operands onto those that are there. -/
theorem pushes (ha : Turns ks a ls) (hb : Turns [] b ms) : Turns ks (a ++ b) (ms ++ ls) := ha.append (hb.frame ls)

/-- An instruction that goes on to the next. -/
theorem instruction (hafter : ∀ (next : Nat) (σ : Layout), i.after next (σ.push ks) = some [(next, σ.push ls)])
    (hjump : i.jumpOffset? = none) (hfunction : ∀ p, i = .makeFunction p → Verified p.body) : Turns ks [i] ls := by
  constructor
  case fits =>
    intro whole ip n σ hs hnext
    exact .follow hs (hafter _ σ) hnext
  case closed => exact .singleton hjump
  case functions =>
    intro p hp
    exact hfunction p (List.mem_singleton.1 hp).symm

/-- An instruction that combines operands into a value. -/
theorem combine (hi : i.combines = true) (ht : i.takes = ks.length) (hfunction : ∀ p, i = .makeFunction p → Verified p.body) :
    Turns ks [i] [.value] := by
  refine instruction (fun next σ => ?_) ?_ hfunction
  · rw [Instruction.after_of_combines hi next (by simp [ht]), ht, Layout.drop_push]
  · cases i <;> first | rfl | nomatch hi

/-- Code in an environment of its own. -/
theorem enclosed (h : Turns ks code ls) : Turns ks (enclosed code) ls := by
  have hparts : ScriptVM.enclosed code = [.enterScope] ++ code ++ [.exitScope] := rfl
  rw [hparts]
  constructor
  case fits =>
    intro whole ip n σ hs hend
    rw [codeSize_concat, codeSize_append, ← Nat.add_assoc, ← Nat.add_assoc] at hend
    have hexit := hs.right
    rw [codeSize_append, ← Nat.add_assoc] at hexit
    have hinner : Fits whole n _ (Layout.push ⟨σ.operands, σ.scopes + 1⟩ ks) := h.fits hs.left.right (.follow hexit rfl hend)
    exact .follow hs.left.left rfl hinner
  case closed =>
    exact ((Closed.singleton rfl).followed h.closed).followed (.singleton rfl)
  case functions =>
    intro p hp
    simp only [List.mem_append, List.mem_singleton, reduceCtorEq, false_or, or_false] at hp
    exact h.functions p hp

end Turns

/-! ## Conditions -/

/-- Resolving a fragment makes jumps only. -/
theorem Fragment.mem_of_resolve {f : Fragment} {beyond : Nat} {code : List Instruction} (h : f.resolve beyond = .ok code)
    {p : Prototype} (hp : .makeFunction p ∈ code) : .done (.makeFunction p) ∈ f := by
  induction f generalizing code with
  | nil =>
    cases h
    simp at hp
  | cons item f ih =>
    cases item with
    | done i =>
      obtain ⟨rest, hr, h⟩ := bind_eq_ok.1 h
      cases h
      rcases List.mem_cons.1 hp with rfl | hp
      · exact List.mem_cons_self
      · exact List.mem_cons_of_mem _ (ih hr hp)
    | pending kind =>
      obtain ⟨d, _, h⟩ := bind_eq_ok.1 h
      obtain ⟨rest, hr, h⟩ := bind_eq_ok.1 h
      cases h
      rcases List.mem_cons.1 hp with hp | hp
      · nomatch hp
      · exact List.mem_cons_of_mem _ (ih hr hp)

/-- A pending jump alone, resolved. -/
theorem Fragment.resolve_pending {kind : JumpKind} {beyond : Nat} {code : List Instruction}
    (h : Fragment.resolve beyond [.pending kind] = .ok code) : ∃ d : Int32, d.toInt = beyond ∧ code = [.jump kind d] := by
  obtain ⟨d, hd, h⟩ := bind_eq_ok.1 h
  obtain ⟨rest, hr, h⟩ := bind_eq_ok.1 h
  cases hr
  cases h
  have hdistance := jumpDistance_eq_ok hd
  simp only [Fragment.size] at hdistance
  exact ⟨d, by omega, rfl⟩

namespace Branches

variable {f g : Fragment} {code : List Instruction}

/-- A condition that never jumps. -/
theorem never : Branches [] := by
  constructor
  case fits =>
    intro whole ip n σ beyond code hr _ h _
    cases hr
    exact h
  case closed =>
    intro beyond code hr
    cases hr
    exact .nil
  case functions =>
    intro p hp
    simp at hp

/-- The last jump of a condition, which takes the operands that its kind asks for. -/
theorem pending {kind : JumpKind} {ks : List OperandKind} (hkind : kind ≠ .loop) (h : Turns [] code ks)
    (hafter : ∀ (d : Int32) (next target : Nat) (σ : Layout), landing? next d = some target →
      ∃ paths, (Instruction.jump kind d).after next (σ.push ks) = some paths ∧ ∀ q ∈ paths, q = (next, σ) ∨ q = (target, σ)) :
    Branches (Fragment.ofCode code ++ [.pending kind]) := by
  constructor
  case fits =>
    intro whole ip n σ beyond placed hr hs hnext htarget
    obtain ⟨a, b, ha, hb, rfl⟩ := Fragment.resolve_append hr
    rw [Fragment.resolve_ofCode] at ha
    cases ha
    obtain ⟨d, hd, rfl⟩ := Fragment.resolve_pending hb
    rw [codeSize_concat, ← Nat.add_assoc] at hnext htarget
    have hlands : landing? (ip + codeSize code + (Instruction.jump kind d).width) d =
        some (ip + codeSize code + (Instruction.jump kind d).width + beyond) := by
      rw [landing?_eq_some, hd]
      omega
    obtain ⟨paths, hpaths, hq⟩ := hafter d _ _ σ hlands
    refine h.fits hs.left (.instruction hs.right hpaths fun q hmem => ?_)
    rcases hq q hmem with rfl | rfl
    · exact hnext
    · exact htarget
  case closed =>
    intro beyond placed hr
    obtain ⟨a, b, ha, hb, rfl⟩ := Fragment.resolve_append hr
    rw [Fragment.resolve_ofCode] at ha
    cases ha
    obtain ⟨d, hd, rfl⟩ := Fragment.resolve_pending hb
    refine h.closed.followed (.forward rfl ?_ hd)
    cases kind <;> simp only [Instruction.Directed, hd] <;> first | contradiction | omega
  case functions =>
    intro p hp
    rcases List.mem_append.1 hp with hp | hp
    · obtain ⟨i, hi, heq⟩ := List.mem_map.1 hp
      cases heq
      exact h.functions p hi
    · simp at hp

/-- A condition that always jumps. -/
theorem always : Branches [.pending .forward] := by
  refine pending (by simp) Turns.nil fun d next target σ hlands => ⟨[(target, σ)], ?_, ?_⟩
  · simp [Instruction.after, Instruction.takes, hlands]
  · simp

/-- A condition that tests a value. -/
theorem test (h : Turns [] code [.value]) (sense : Bool) :
    Branches (Fragment.ofCode code ++ [.pending (if sense then .ifTrue else .ifFalse)]) := by
  refine pending (by cases sense <;> simp) h fun d next target σ hlands => ⟨[(next, σ), (target, σ)], ?_, by simp⟩
  have hdrop : (σ.push [.value]).drop 1 = σ := σ.drop_push [.value]
  cases sense <;> simp [Instruction.after, Instruction.takes, hlands, hdrop]

/-- Two conditions, either of which may jump. -/
theorem both (hf : Branches f) (hg : Branches g) : Branches (f ++ g) := by
  constructor
  case fits =>
    intro whole ip n σ beyond code hr hs hnext htarget
    obtain ⟨a, b, ha, hb, rfl⟩ := Fragment.resolve_append hr
    rw [codeSize_append, ← Nat.add_assoc] at hnext htarget
    refine hf.fits ha hs.left (hg.fits hb hs.right hnext htarget) ?_
    rwa [← Fragment.codeSize_of_resolve hb, ← Nat.add_assoc]
  case closed =>
    intro beyond code hr
    obtain ⟨a, b, ha, hb, rfl⟩ := Fragment.resolve_append hr
    exact (hf.closed ha).append (hg.closed hb) (.inr (by rw [Fragment.codeSize_of_resolve hb]))
  case functions =>
    intro p hp
    rcases List.mem_append.1 hp with hp | hp
    · exact hf.functions p hp
    · exact hg.functions p hp

/-- Two conditions, the first of which skips the second. -/
theorem skip {first : List Instruction} (hf : Branches f) (hg : Branches g) (hr : f.resolve g.size = .ok first) :
    Branches (Fragment.ofCode first ++ g) := by
  constructor
  case fits =>
    intro whole ip n σ beyond code hr' hs hnext htarget
    obtain ⟨a, b, ha, hb, rfl⟩ := Fragment.resolve_append hr'
    rw [Fragment.resolve_ofCode] at ha
    cases ha
    rw [codeSize_append, ← Nat.add_assoc] at hnext htarget
    refine hf.fits hr hs.left (hg.fits hb hs.right hnext htarget) ?_
    rwa [← Fragment.codeSize_of_resolve hb]
  case closed =>
    intro beyond code hr'
    obtain ⟨a, b, ha, hb, rfl⟩ := Fragment.resolve_append hr'
    rw [Fragment.resolve_ofCode] at ha
    cases ha
    refine (hf.closed hr).append (hg.closed hb) (.inl ?_)
    rw [← Fragment.codeSize_of_resolve hb]
    exact .stop b
  case functions =>
    intro p hp
    rcases List.mem_append.1 hp with hp | hp
    · obtain ⟨i, hi, heq⟩ := List.mem_map.1 hp
      cases heq
      exact hf.functions p (Fragment.mem_of_resolve hr hi)
    · exact hg.functions p hp

end Branches

/-! ## Loops and choices -/

/-- Code with a jump back to its head fits for any number of instructions, if what stands between fits by itself. -/
theorem Fits.loop {whole : List Instruction} {head back exit : Nat} {d : Int32} {σ τ : Layout}
    (hback : Stands whole back [.jump .loop d]) (hlands : landing? (back + Fragment.jumpWidth) d = some head)
    (hbody : ∀ n, Fits whole n back σ → Fits whole n exit τ → Fits whole n head σ) (n : Nat) (hexit : Fits whole n exit τ) :
    Fits whole n head σ := by
  induction n with
  | zero => trivial
  | succ n ih =>
    have hafter : (Instruction.jump .loop d).after (back + (Instruction.jump .loop d).width) σ = some [(head, σ)] := by
      rw [width_jump]
      simp [Instruction.after, Instruction.takes, hlands]
    refine hbody (n + 1) (.step hback hafter fun q hq => ?_) hexit
    rw [List.mem_singleton.1 hq]
    exact ih hexit.pred

namespace Turns

variable {a b body code test : List Instruction} {ks : List OperandKind} {f : Fragment} {d : Int32}

/-- Code that a condition may skip. -/
theorem guarded (hf : Branches f) (ha : Turns [] a []) (hr : f.resolve (codeSize a) = .ok test) : Turns [] (test ++ a) [] := by
  constructor
  case fits =>
    intro whole ip n σ hs hend
    rw [codeSize_append, ← Nat.add_assoc] at hend
    exact hf.fits hr hs.left (ha.fits hs.right hend) hend
  case closed => exact (hf.closed hr).append ha.closed (.inl (.stop a))
  case functions =>
    intro p hp
    rcases List.mem_append.1 hp with hp | hp
    · exact hf.functions p (Fragment.mem_of_resolve hr hp)
    · exact ha.functions p hp

/-- A choice between two codes. -/
theorem either (hf : Branches f) (ha : Turns [] a ks) (hb : Turns [] b ks) (hd : jumpDistance (codeSize b) = .ok d)
    (hr : f.resolve (codeSize a + Fragment.jumpWidth) = .ok test) : Turns [] (test ++ a ++ [.jump .forward d] ++ b) ks := by
  have hdistance : d.toInt = codeSize b := jumpDistance_eq_ok hd
  have hwidth : (Instruction.jump .forward d).width = Fragment.jumpWidth := rfl
  constructor
  case fits =>
    intro whole ip n σ hs hend
    have hjump := hs.left.right
    have helse := hs.right
    simp only [codeSize_append, codeSize_singleton, ← Nat.add_assoc] at hjump helse hend
    have hlands : landing? (ip + codeSize test + codeSize a + (Instruction.jump .forward d).width) d =
        some (ip + codeSize test + codeSize a + (Instruction.jump .forward d).width + codeSize b) := by
      rw [landing?_eq_some, hdistance]
      omega
    have hafter : (Instruction.jump .forward d).after (ip + codeSize test + codeSize a + (Instruction.jump .forward d).width)
        (σ.push ks) = some [(ip + codeSize test + codeSize a + (Instruction.jump .forward d).width + codeSize b, σ.push ks)] := by
      simp [Instruction.after, Instruction.takes, hlands]
    refine hf.fits hr hs.left.left.left (ha.fits hs.left.left.right (.follow hjump hafter hend)) ?_
    rw [← Nat.add_assoc, ← hwidth]
    exact hb.fits helse hend
  case closed =>
    have hskip : Closed (codeSize b) [.jump .forward d] := .forward rfl (by simp [Instruction.Directed, hdistance]) hdistance
    have hrest : Closed 0 (a ++ ([.jump .forward d] ++ b)) := ha.closed.followed (hskip.append hb.closed (.inl (.stop b)))
    have hpast : Stands (a ++ ([.jump .forward d] ++ b)) (codeSize a + Fragment.jumpWidth) [] := ((Stands.start b).inRight).inRight
    rw [List.append_assoc, List.append_assoc]
    exact (hf.closed hr).append hrest (.inl hpast)
  case functions =>
    intro p hp
    simp only [List.mem_append, List.mem_singleton, reduceCtorEq, or_false] at hp
    rcases hp with (hp | hp) | hp
    · exact hf.functions p (Fragment.mem_of_resolve hr hp)
    · exact ha.functions p hp
    · exact hb.functions p hp

/-- A loop that a condition ends. -/
theorem whileLoop (hf : Branches f) (hbody : Turns [] body [])
    (hd : jumpDistance (-((f.size + codeSize body + Fragment.jumpWidth : Nat) : Int)) = .ok d)
    (hr : f.resolve (codeSize body + Fragment.jumpWidth) = .ok test) : Turns [] (test ++ body ++ [.jump .loop d]) [] := by
  have hdistance := jumpDistance_eq_ok hd
  rw [← Fragment.codeSize_of_resolve hr] at hdistance
  constructor
  case fits =>
    intro whole ip n σ hs hend
    have hback := hs.right
    simp only [codeSize_append, codeSize_singleton, width_jump, ← Nat.add_assoc] at hback hend
    refine Fits.loop hback ?_ (fun n hnext hexit => ?_) n hend
    · rw [landing?_eq_some, hdistance]
      omega
    · refine hf.fits hr hs.left.left (hbody.fits hs.left.right hnext) ?_
      rw [← Nat.add_assoc]
      exact hexit
  case closed =>
    refine ((hf.closed hr).append (hbody.closed.whole _) (.inr rfl)).loop ?_
    rw [hdistance, codeSize_append]
  case functions =>
    intro p hp
    simp only [List.mem_append, List.mem_singleton, reduceCtorEq, or_false] at hp
    rcases hp with hp | hp
    · exact hf.functions p (Fragment.mem_of_resolve hr hp)
    · exact hbody.functions p hp

/-- A loop over an iterator: its body takes what the iterator yields. -/
theorem iterate {arity : UInt8} {back exit : Int32} (hcode : Turns [] code [.iterator])
    (hbody : Turns (if 2 ≤ arity then [.value, .value] else [.value]) body [])
    (hback : jumpDistance (-((Fragment.iterNextWidth + codeSize body + Fragment.jumpWidth : Nat) : Int)) = .ok back)
    (hexit : jumpDistance ((codeSize body + Fragment.jumpWidth : Nat) : Int) = .ok exit) :
    Turns [] (code ++ (.iterNext arity exit :: body ++ [.jump .loop back])) [] := by
  have hleave := jumpDistance_eq_ok hexit
  have hreturn := jumpDistance_eq_ok hback
  have hparts : Instruction.iterNext arity exit :: body ++ [.jump .loop back] = [.iterNext arity exit] ++ body ++ [.jump .loop back] := rfl
  rw [hparts]
  constructor
  case fits =>
    intro whole ip n σ hs hend
    have hnext := hs.right.left.left
    have hinner := hs.right.left.right
    have hjump := hs.right.right
    simp only [codeSize_append, codeSize_singleton, width_iterNext, width_jump, ← Nat.add_assoc] at hinner hjump hend
    refine hcode.fits hs.left ?_
    refine Fits.loop hjump ?_ (fun n hagain hexit' => ?_) n hend
    · rw [landing?_eq_some, hreturn]
      omega
    · have hlands : landing? (ip + codeSize code + Fragment.iterNextWidth) exit =
          some (ip + codeSize code + Fragment.iterNextWidth + codeSize body + Fragment.jumpWidth) := by
        rw [landing?_eq_some, hleave]
        omega
      have hdrop : (σ.push [.iterator]).drop 1 = σ := σ.drop_push [.iterator]
      have hafter : (Instruction.iterNext arity exit).after (ip + codeSize code + Fragment.iterNextWidth) (σ.push [.iterator]) =
          some [(ip + codeSize code + Fragment.iterNextWidth,
              (σ.push [.iterator]).push (if 2 ≤ arity then [.value, .value] else [.value])),
            (ip + codeSize code + Fragment.iterNextWidth + codeSize body + Fragment.jumpWidth, σ)] := by
        simp [Instruction.after, Instruction.takes, hlands, hdrop]
      refine .instruction hnext hafter fun q hq => ?_
      rcases List.mem_cons.1 hq with rfl | hq
      · exact hbody.fits hinner hagain
      · rw [List.mem_singleton.1 hq]
        exact hexit'
  case closed =>
    have hstep : Closed (codeSize body + Fragment.jumpWidth) [.iterNext arity exit] :=
      .forward rfl (by simp only [Instruction.Directed, hleave]; omega) hleave
    refine hcode.closed.followed ((hstep.append (hbody.closed.whole _) (.inr rfl)).loop ?_)
    rw [hreturn, codeSize_append, codeSize_singleton, width_iterNext]
  case functions =>
    intro p hp
    simp only [List.mem_append, List.mem_singleton, reduceCtorEq, or_false, false_or] at hp
    rcases hp with hp | hp
    · exact hcode.functions p hp
    · exact hbody.functions p hp

end Turns

/-! ## The code of a tree -/

/-- A logical operator as a condition, if its operands are conditions. -/
theorem branches_logical {s : Span} {op : LogicalOp} {l r : Expr} {sense : Bool} {f : Fragment}
    (hf : (Expr.logical s op l r).fold? = none) (hl : ∀ sense f, JumpCode l sense f → Branches f)
    (hr : ∀ sense f, JumpCode r sense f → Branches f) (h : JumpCode (.logical s op l r) sense f) : Branches f := by
  cases h with
  | constant hc =>
    rw [hf] at hc
    nomatch hc
  | test _ hlogic => nomatch hlogic
  | both _ _ hleft hright => exact (hl _ _ hleft).both (hr _ _ hright)
  | skip _ _ hleft hright hs => exact (hl _ _ hleft).skip (hr _ _ hright) hs

/-- The end of a function or module: what stands behind it does not matter. -/
theorem Fits.ret {code whole : List Instruction} {ip n : Nat} {σ : Layout} (h : Turns [] code [.value])
    (hs : Stands whole ip (code ++ [.ret])) : Fits whole n ip σ :=
  h.fits hs.left (.instruction hs.right rfl (by simp))

/-- Loading a constant leaves its value. -/
theorem turns_load (c : Constant) : Turns [] [.load c] [.value] := .combine rfl rfl (by simp)

/-- Storing a name takes the value away. -/
theorem turns_storeName (name : String) : Turns [.value] [.storeName name] [] :=
  .instruction (fun next σ => by simp [Instruction.after, Instruction.takes, Layout.push, Layout.drop]) rfl (by simp)

/-- A return takes the value in front of it away. -/
theorem turns_ret {code : List Instruction} (h : Turns [] code [.value]) : Turns [] (code ++ [.ret]) [] := by
  refine ⟨fun hs _ => .ret h hs, h.closed.followed (.singleton rfl), fun p hp => ?_⟩
  simp only [List.mem_append, List.mem_singleton, reduceCtorEq, or_false] at hp
  exact h.functions p hp

/-- What binds the variables of a loop takes what the iterator yields. -/
theorem turns_bindCode (key : Option String) (value : String) :
    Turns (if 2 ≤ yieldArity key then [.value, .value] else [.value]) (bindCode key value) [] := by
  cases key with
  | none => exact turns_storeName value
  | some key => exact ((turns_storeName value).frame [.value]).append (turns_storeName key)

/-- Code that ends with a return of the value in front of it. -/
def Returns (code : List Instruction) : Prop := ∃ front, code = front ++ [.ret] ∧ Turns [] front [.value]

/-- The code of a value with a return behind it returns. -/
theorem Turns.returns {code : List Instruction} (h : Turns [] code [.value]) : Returns (code ++ [.ret]) := ⟨code, rfl, h⟩

/-- A statement in front of code that returns leaves it such code. -/
theorem Turns.returns_append {a b : List Instruction} (ha : Turns [] a []) : Returns b → Returns (a ++ b) := by
  rintro ⟨front, rfl, hb⟩
  exact ⟨a ++ front, by simp, ha.append hb⟩

/-- A statement with a return of null behind it returns. -/
theorem Turns.returnNull {code : List Instruction} (h : Turns [] code []) : Returns (code ++ Compile.returnNull) :=
  h.returns_append (turns_load .null).returns

/-- Code that returns leaves the operands as they were. -/
theorem Returns.turns {code : List Instruction} : Returns code → Turns [] code [] := by
  rintro ⟨front, rfl, h⟩
  exact turns_ret h

/-- Checked code that returns is verified once it is encoded. -/
theorem Returns.verified {code : List Instruction} (hc : Checked code) : Returns code → Verified (encodeAll code) := by
  rintro ⟨front, rfl, h⟩
  exact .mk hc h.closed (fun n => .ret h (.self _)) h.functions

mutual

/-- The code of an expression leaves its value. -/
theorem turns_value (e : Expr) {code : List Instruction} (h : ValueCode e code) : Turns [] code [.value] := by
  cases h with
  | constant _ => exact turns_load _
  | name => exact .combine rfl rfl (by simp)
  | unary _ he => exact (turns_value _ he).append (.combine rfl rfl (by simp))
  | binary _ hl hr => exact ((turns_value _ hl).pushes (turns_value _ hr)).append (.combine rfl rfl (by simp))
  | logical hf hj hd hr =>
    have hbranch := branches_logical hf (fun _ _ => branches_jump _) (fun _ _ => branches_jump _) hj
    have heither := Turns.either hbranch (turns_load (.bool true)) (turns_load (.bool false)) hd hr
    rwa [List.append_assoc _ [Instruction.load (.bool true)]] at heither
  | assign he =>
    refine (turns_value _ he).append (.instruction (fun next σ => ?_) rfl (by simp))
    simp [Instruction.after, Instruction.takes]
  | call hn hcallee hargs =>
    refine ((turns_value _ hcallee).pushes (turns_values _ hargs)).append (.combine rfl ?_ (by simp))
    simp [Instruction.takes, UInt8.toNat_ofNat_of_lt' hn]
  | member he => exact (turns_value _ he).append (.combine rfl rfl (by simp))
  | index ho hi => exact ((turns_value _ ho).pushes (turns_value _ hi)).append (.combine rfl rfl (by simp))
  | array hn hes =>
    refine (turns_values _ hes).append (.combine rfl ?_ (by simp))
    simp [Instruction.takes, UInt32.toNat_ofNat_of_lt' hn]
  | map hn hps =>
    refine (turns_pairs _ hps).append (.combine rfl ?_ (by simp))
    simp [Instruction.takes, UInt32.toNat_ofNat_of_lt' hn]
  | range ha hb hc =>
    exact (((turns_value _ ha).pushes (turns_value _ hb)).pushes (turns_value _ hc)).append (.combine rfl rfl (by simp))
  | rangeByOne ha hb =>
    exact (((turns_value _ ha).pushes (turns_value _ hb)).pushes (turns_load _)).append (.combine rfl rfl (by simp))
  | function hp =>
    refine .combine rfl rfl fun p heq => ?_
    cases heq
    exact verified_prototype _ hp
termination_by (sizeOf e, 0)
decreasing_by all_goals exact Prod.Lex.left _ _ (by simp <;> omega)

/-- The codes of a list of expressions leave as many values. -/
theorem turns_values (es : List Expr) {code : List Instruction} (h : ValuesCode es code) :
    Turns [] code (List.replicate es.length .value) := by
  cases h with
  | nil => exact .nil
  | cons he hes =>
    have hall := (turns_value _ he).pushes (turns_values _ hes)
    rwa [List.length_cons, List.replicate_succ']
termination_by (sizeOf es, 0)
decreasing_by all_goals exact Prod.Lex.left _ _ (by simp <;> omega)

/-- The codes of the pairs of a map leave a key and a value for each. -/
theorem turns_pairs (ps : List (Expr × Expr)) {code : List Instruction} (h : PairsCode ps code) :
    Turns [] code (List.replicate (ps.length * 2) .value) := by
  cases h with
  | nil => exact .nil
  | cons hk hv hps =>
    have hall := ((turns_value _ hk).pushes (turns_value _ hv)).pushes (turns_pairs _ hps)
    rwa [List.length_cons, Nat.succ_mul, ← List.replicate_append_replicate]
termination_by (sizeOf ps, 0)
decreasing_by all_goals exact Prod.Lex.left _ _ (by simp <;> omega)

/-- The jumps of a condition leave the operands as they were, on both ways. -/
theorem branches_jump (e : Expr) {sense : Bool} {f : Fragment} (h : JumpCode e sense f) : Branches f := by
  cases h with
  | constant _ =>
    split
    · exact .always
    · exact .never
  | test _ _ he => exact .test (turns_value _ he) sense
  | not _ he => exact branches_jump _ he
  | both _ _ hl hr => exact (branches_jump _ hl).both (branches_jump _ hr)
  | skip _ _ hl hr hs => exact (branches_jump _ hl).skip (branches_jump _ hr) hs
termination_by (sizeOf e, 1)
decreasing_by all_goals (subst_vars; first | exact Prod.Lex.right _ Nat.one_pos | exact Prod.Lex.left _ _ (by simp <;> omega))

/-- The body of a function is verified code. -/
theorem verified_prototype (d : FunctionDecl) {p : Prototype} (h : PrototypeOf d p) : Verified p.body := by
  cases h with
  | mk hs hc =>
    refine Returns.verified hc ?_
    unfold closeBody
    split
    · exact returns_stmts _ hs ‹_›
    · exact (turns_stmts _ hs).returnNull
termination_by (sizeOf d, 0)
decreasing_by all_goals exact Prod.Lex.left _ _ (by simp)

/-- The code of a statement leaves the operands as they were. -/
theorem turns_stmt (b : Stmt) {code : List Instruction} (h : StmtCode b code) : Turns [] code [] := by
  cases h with
  | expression he =>
    refine (turns_value _ he).append (.instruction (fun next σ => ?_) rfl (by simp))
    simp [Instruction.after, Instruction.takes, Layout.push, Layout.drop]
  | declaration he => exact (turns_value _ he).append (turns_storeName _)
  | declarationOfNull => exact (turns_load _).append (turns_storeName _)
  | block hs => exact (turns_stmts _ hs).enclosed
  | branch hj ht hr => exact .guarded (branches_jump _ hj) (turns_stmt _ ht) hr
  | branchElse hj ht he hd hr => exact .either (branches_jump _ hj) (turns_stmt _ ht) (turns_stmt _ he) hd hr
  | whileLoop hj hb hd hr => 
    have hbody := (turns_loop _ hb).enclosed
    exact Turns.whileLoop (branches_jump _ hj) hbody hd hr
  | forIn he hb hback hexit =>
    have hiter : Turns [.value] [.getIter] [.iterator] := by
      refine .instruction (fun next σ => ?_) rfl (by simp)
      simp [Instruction.after, Instruction.takes, Layout.push, Layout.drop]
    have hbody := turns_loop _ hb
    exact Turns.iterate ((turns_value _ he).append hiter) ((turns_bindCode _ _).append hbody).enclosed hback hexit
  | ret he => exact (turns_value _ he).returns.turns
  | retNull => exact (turns_load _).returns.turns
  | function _ hp =>
    refine Turns.append (.combine rfl rfl fun p heq => ?_) (turns_storeName _)
    cases heq
    exact verified_prototype _ hp
termination_by (sizeOf b, 0)
decreasing_by all_goals exact Prod.Lex.left _ _ (by simp <;> omega)

/-- The code of the body of a loop leaves the operands as they were. -/
theorem turns_loop (b : Stmt) {code : List Instruction} (h : LoopCode b code) : Turns [] code [] := by
  cases h with
  | block hs => exact turns_stmts _ hs
  | single _ hb => exact turns_stmt _ hb
termination_by (sizeOf b, 1)
decreasing_by
  all_goals subst_vars
  all_goals first
    | exact Prod.Lex.right _ Nat.one_pos
    | exact Prod.Lex.left _ _ (by rw [Stmt.block.sizeOf_spec]; omega)

/-- The codes of a list of statements leave the operands as they were. -/
theorem turns_stmts (bs : List Stmt) {code : List Instruction} (h : StmtsCode bs code) : Turns [] code [] := by
  cases h with
  | nil => exact .nil
  | cons hb hbs => exact (turns_stmt _ hb).append (turns_stmts _ hbs)
termination_by (sizeOf bs, 0)
decreasing_by all_goals exact Prod.Lex.left _ _ (by simp <;> omega)

/-- Statements end with a return when the last of them is one. -/
theorem returns_stmts (bs : List Stmt) {code : List Instruction} (h : StmtsCode bs code)
    (hlast : bs.getLast?.any Stmt.isReturn = true) : Returns code := by
  match bs, h with
  | [], _ => simp at hlast
  | [b], .cons hb .nil =>
    rw [List.append_nil]
    cases hb with
    | ret he => exact (turns_value _ he).returns
    | retNull => exact (turns_load _).returns
    | _ => simp [Stmt.isReturn] at hlast
  | b :: b' :: bs, .cons hb hbs =>
    rw [List.getLast?_cons_cons] at hlast
    exact (turns_stmt b hb).returns_append (returns_stmts (b' :: bs) hbs hlast)
termination_by (sizeOf bs, 0)
decreasing_by all_goals (subst_vars; exact Prod.Lex.left _ _ (by simp <;> omega))

end

end ScriptVM
