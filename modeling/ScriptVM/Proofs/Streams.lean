import ScriptVM.Listing
import ScriptVM.Proofs.Discipline

/-!
# Well-formed streams

A stream is well formed when it can be listed, ends with a return, jumps only to its own instructions, and makes only functions with
well-formed streams. Verified code is a well-formed stream, so everything that compiles is one, and it has a listing.
-/

namespace ScriptVM

/-- Where the jump of a listed instruction lands, if it jumps. -/
def Located.target? (l : Located) : Option Int := l.instruction.target? (l.offset + l.instruction.width)

/-- A stream that `decodeStream` lists, with a return at its end: every jump has the direction of its kind and lands at an
instruction of the stream, and so it is in the streams of the functions made in it. -/
inductive WellFormed : List UInt8 → Prop where
  | mk {code : List UInt8} {listed : List Located} {last : Nat} : decodeStream code = .ok listed →
      listed.getLast? = some ⟨last, .ret⟩ →
      (∀ l ∈ listed, ∀ target, l.target? = some target → ∃ l' ∈ listed, (l'.offset : Int) = target) →
      (∀ l ∈ listed, l.instruction.Directed) →
      (∀ l ∈ listed, ∀ p, l.instruction = .makeFunction p → WellFormed p.body) → WellFormed code

/-- The listing of code in sequence is that of its parts, the second from where the first ends. -/
theorem locate_append (offset : Nat) (a b : List Instruction) :
    locate offset (a ++ b) = locate offset a ++ locate (offset + codeSize a) b := by
  induction a generalizing offset with
  | nil => rfl
  | cons i a ih => simp [locate, codeSize, ih, Nat.add_assoc]

/-- The jump of a listed instruction lands where its offset leads from the next instruction. -/
theorem Located.target?_eq_some {l : Located} {target : Int} (h : l.target? = some target) :
    ∃ offset, l.instruction.jumpOffset? = some offset ∧ ((l.offset + l.instruction.width : Nat) : Int) + offset.toInt = target := by
  obtain ⟨offset, ho, rfl⟩ := Option.map_eq_some_iff.1 h
  exact ⟨offset, ho, rfl⟩

/-- What does not jump has every direction. -/
theorem Instruction.directed_of_jumpOffset? {i : Instruction} (h : i.jumpOffset? = none) : i.Directed := by
  unfold Directed
  split
  · nomatch h
  · nomatch h
  · nomatch h
  · trivial

/-- With a return behind it, every jump of closed code lands at an instruction. -/
theorem Closed.lands {front : List Instruction} (h : Closed 0 front) {ip : Nat} {i : Instruction} {offset : Int32}
    (hs : Stands (front ++ [.ret]) ip [i]) (ho : i.jumpOffset? = some offset) :
    i.Directed ∧ ∃ target j, landing? (ip + i.width) offset = some target ∧ Stands (front ++ [.ret]) target [j] := by
  rcases hs.append_cases with hleft | ⟨start, -, hright⟩
  · obtain ⟨hd, target, ht, hin⟩ := h ip i offset hleft ho
    have hplace : Stands front target [] := by
      rcases hin with hin | rfl
      · exact hin
      · exact .stop front
    obtain ⟨j, hj⟩ := hplace.concat .ret
    exact ⟨hd, target, j, ht, hj⟩
  · obtain ⟨-, rfl⟩ := hright.singleton
    nomatch ho

/-- Verified code can be listed. -/
theorem Closed.decodeStream_concat {front : List Instruction} (hc : Checked (front ++ [.ret])) (h : Closed 0 front) :
    decodeStream (encodeAll (front ++ [.ret])) = .ok (locate 0 (front ++ [.ret])) :=
  decodeStream_encodeAll hc (h.followed (.singleton rfl)).inside

/-- Verified code is a well-formed stream. -/
theorem Verified.wellFormed {code : List UInt8} (h : Verified code) : WellFormed code := by
  induction h with
  | @mk front hc hclosed hfits hfunctions ih =>
    have hstands : ∀ l ∈ locate 0 (front ++ [.ret]), Stands (front ++ [.ret]) l.offset [l.instruction] := by
      intro l hl
      obtain ⟨ip, hip, hs⟩ := stands_of_mem_locate hl
      rwa [hip, Nat.zero_add]
    have hlast : (locate 0 (front ++ [.ret])).getLast? = some ⟨0 + codeSize front, .ret⟩ := by
      rw [locate_append, locate, locate, List.getLast?_concat]
    refine .mk (hclosed.decodeStream_concat hc) hlast ?_ ?_ ?_
    · intro l hl target ht
      obtain ⟨offset, ho, hoffset⟩ := l.target?_eq_some ht
      obtain ⟨-, landed, j, hlands, hj⟩ := hclosed.lands (hstands l hl) ho
      rw [landing?_eq_some] at hlands
      refine ⟨⟨0 + landed, j⟩, mem_locate hj 0, ?_⟩
      simp only
      omega
    · intro l hl
      cases ho : l.instruction.jumpOffset? with
      | none => exact Instruction.directed_of_jumpOffset? ho
      | some offset => exact (hclosed.lands (hstands l hl) ho).1
    · intro l hl p hp
      have hmem := (hstands l hl).mem
      rw [hp] at hmem
      refine ih p ?_
      simpa using hmem

/-! ## Listings -/

/-- A listing fails for one of its functions only. -/
theorem listInstructions_failure {nested : List UInt8 → Listing} {depth : Nat} {listed : List Located}
    (h : ∀ l ∈ listed, ∀ p, l.instruction = .makeFunction p → (nested p.body).failure = none) :
    (listInstructions depth nested listed).failure = none := by
  induction listed with
  | nil => rfl
  | cons l listed ih =>
    have hrest := ih fun l' hl' => h l' (List.mem_cons_of_mem l hl')
    rw [listInstructions]
    split
    · rename_i p hp
      have hbody := h l List.mem_cons_self p hp
      simp [Listing.append, hbody, hrest]
    · simp [Listing.append, hrest]

/-- A well-formed stream is listed without failure, whatever the nesting. -/
theorem WellFormed.listLevels_failure {code : List UInt8} (h : WellFormed code) (levels depth : Nat) :
    (listLevels levels depth code).failure = none := by
  induction h generalizing levels depth with
  | mk hlisted _ _ _ _ ih =>
    cases levels with
    | zero => rfl
    | succ levels =>
      rw [listLevels, hlisted]
      exact listInstructions_failure fun l hl p hp => ih l hl p hp levels (depth + 1)

/-- A module with a well-formed stream has a listing. -/
theorem WellFormed.listImage_eq_ok {image : Image} (h : WellFormed image.code) (hd : Image.decode image.encode = .ok image) :
    ∃ text, listImage image.encode = .ok text := by
  have hl := h.listLevels_failure (image.code.length + 1) 0
  have hlist : (listCode 0 image.code).failure = none := hl
  refine ⟨s!"== {image.name} ({image.path}, v{Image.version}, {image.encode.length} bytes) ==\n" ++ (listCode 0 image.code).text, ?_⟩
  simp only [listImage, hd, hlist, bind, Except.bind]
  rfl

/-! ## Compiled programs -/

/-- The version of an image stands behind its magic number. -/
theorem Image.version_encode (m : Image) : ofLittleEndian ((m.encode.drop 4).take 4) = Image.version := by
  have hfield : (m.encode.drop 4).take 4 = littleEndian 4 Image.version := by
    simp [Image.encode, length_littleEndian]
  rw [hfield]
  exact ofLittleEndian_littleEndian (by decide)

/-- The size of an image stands behind its version. -/
theorem Image.size_encode {m : Image} (h : m.encode.length < UInt64.size) :
    ofLittleEndian ((m.encode.drop 8).take 8) = m.encode.length := by
  have hlen := m.length_encode
  have hfield : (m.encode.drop 8).take 8 = littleEndian 8 (16 + m.payload.length) := by
    simp [Image.encode, List.drop_append, List.take_append, length_littleEndian]
  rw [hfield, hlen]
  exact ofLittleEndian_littleEndian (by rw [← hlen]; exact h)

/-- The code of a program is verified. -/
theorem Program.compile_verified {p : Program} {image : Image} (h : p.compile = .ok image) : Verified image.code := by
  obtain ⟨code, ⟨inner, hs, rfl⟩, hc, rfl, -, -⟩ := p.compile_code h
  exact (turns_stmts _ hs).returnNull.verified hc

/-- What compiles is read back as a module with the path and name of the program, the version and its own size, its code is a
well-formed stream, and it has a listing. -/
theorem Program.compile_wellFormed {p : Program} {image : Image} (h : p.compile = .ok image)
    (hlen : image.encode.length < UInt64.size) :
    Image.decode image.encode = .ok image ∧ image.path = p.path ∧ image.name = p.name ∧
      ofLittleEndian ((image.encode.drop 4).take 4) = 1 ∧
      ofLittleEndian ((image.encode.drop 8).take 8) = image.encode.length ∧
      WellFormed image.code ∧ ∃ text, listImage image.encode = .ok text := by
  have hwell := (p.compile_verified h).wellFormed
  obtain ⟨code, -, -, rfl, hpath, hname⟩ := p.compile_code h
  have hdecode := Image.decode_encode hpath hname hlen
  exact ⟨hdecode, rfl, rfl, Image.version_encode _, Image.size_encode hlen, hwell, hwell.listImage_eq_ok hdecode⟩

/-- A function with a loop that its return leaves, and a condition with a logical operator. -/
def Program.searchSample : Program :=
  let found := Expr.logical {} .and (.name {} "x") (.binary {} .equal (.name {} "x") (.name {} "wanted"))
  ⟨"m.vs", "m", [.function {} (.mk {} (some "search") ["items", "wanted"] false
    [.forIn {} none "x" (.name {} "items") (.branch {} found (.ret {} (some (.name {} "x"))) none)])]⟩

/-- The sample compiles to a well-formed stream, and is decoded and listed. -/
theorem Program.compile_wellFormed_searchSample :
    ∃ image, Program.searchSample.compile = .ok image ∧ Image.decode image.encode = .ok image ∧ WellFormed image.code ∧
      ∃ text, listImage image.encode = .ok text := by
  obtain ⟨image, hp, hlen⟩ : ∃ image, Program.searchSample.compile = .ok image ∧ image.encode.length < UInt64.size :=
    ⟨_, rfl, by decide⟩
  obtain ⟨hdecode, -, -, -, -, hwell, hlist⟩ := Program.compile_wellFormed hp hlen
  exact ⟨image, hp, hdecode, hwell, hlist⟩

end ScriptVM
