import ScriptVM.CodeBuffer
import ScriptVM.Proofs.Streams

/-!
# Encoding and decoding undo each other

A list of instructions that a buffer accepts is decoded from its bytes, whatever stands before and behind them
(`CodeBuffer.decode_undoes_emit`). The other way round, `Takes x R` says that whenever the read `x` succeeds, the bytes it went over
and its answer are related by `R`. Every read goes over the bytes that the encoder writes for its answer, except that any byte other
than zero is read as the mark of an asynchronous function, which the encoder writes as one. So what is decoded from any bytes at all
is encoded to these bytes up to such marks (`decode_undone_by_encode`).
-/

namespace ScriptVM

/-! ## Decoding undoes encoding -/

/-- The operands fit their encoding: no text holds a NUL, and no count of a function lies beyond its field. -/
def Instruction.Encodable (i : Instruction) : Prop :=
  (∀ s ∈ i.strings, '\x00' ∉ s.toList) ∧
    ∀ p, i = .makeFunction p → p.params.length ≤ 255 ∧ p.captures.length < 2 ^ 32 ∧ p.body.length < 2 ^ 32

/-- Appends instructions one after the other. -/
def BufferM.emitAll (code : List Instruction) : BufferM Unit := code.forM emit

/-- So many instructions from an offset on, one behind the other, each with its width. -/
def Instruction.decodeMany (code : Array UInt8) : Nat → Nat → Except BytecodeError (List (Instruction × Nat))
  | 0, _ => .ok []
  | count + 1, offset => do
    let (i, width) ← decode code offset
    let rest ← decodeMany code count (offset + width)
    return (i, width) :: rest

/-- An instruction is accepted exactly when its operands fit. -/
theorem Instruction.check_eq_ok {i : Instruction} : i.check = .ok () ↔ i.Encodable := by
  constructor
  · intro h
    refine ⟨strings_of_check h, ?_⟩
    rintro p rfl
    obtain ⟨hparams, hcaptures, hbody⟩ := counts_of_check h
    exact ⟨Nat.le_of_lt_succ hparams, hcaptures, hbody⟩
  · rintro ⟨hs, hp⟩
    refine bind_eq_ok.2 ⟨(), forM_checkString_eq_ok.2 hs, ?_⟩
    cases i with
    | makeFunction p =>
      obtain ⟨hparams, hcaptures, hbody⟩ := hp p rfl
      have hcaptures' : p.captures.length ≤ UInt32.size - 1 := Nat.le_of_lt_succ hcaptures
      have hbody' : p.body.length ≤ UInt32.size - 1 := Nat.le_of_lt_succ hbody
      exact bind_eq_ok.2 ⟨(), checkCount_eq_ok.2 hparams, bind_eq_ok.2 ⟨(), checkCount_eq_ok.2 hcaptures', checkCount_eq_ok.2 hbody'⟩⟩
    | _ => rfl

namespace BufferM

variable {b b' : CodeBuffer} {i : Instruction} {code : List Instruction}

/-- An instruction that is refused leaves the buffer as it is. -/
theorem emit_eq (i : Instruction) (b : CodeBuffer) : emit i b =
    match i.check with
    | .ok () => .ok () (b.append i.encode)
    | .error e => .error e b := by
  simp only [emit, check, bind, EStateM.bind]
  cases i.check <;> rfl

/-- An emission succeeds just if the instruction passes its check, and then appends its bytes. -/
theorem emit_eq_ok : emit i b = .ok () b' ↔ i.check = .ok () ∧ b' = b.append i.encode := by
  rw [emit_eq]
  constructor
  · intro h
    split at h
    · rename_i hi
      cases h
      exact ⟨hi, rfl⟩
    · nomatch h
  · rintro ⟨hi, rfl⟩
    rw [hi]

/-- A buffer accepts a list when it accepts each of its instructions, and their bytes follow its own. -/
theorem emitAll_eq_ok : emitAll code b = .ok () b' ↔ Checked code ∧ b' = b.append (encodeAll code) := by
  induction code generalizing b with
  | nil =>
    have hnil : b.append (encodeAll []) = b := by simp [CodeBuffer.append, encodeAll]
    constructor
    · intro h
      cases h
      exact ⟨checked_nil, hnil.symm⟩
    · rintro ⟨-, rfl⟩
      rw [hnil]
      rfl
  | cons i code ih =>
    have hcons : b.append (encodeAll (i :: code)) = (b.append i.encode).append (encodeAll code) := by
      simp [CodeBuffer.append, encodeAll]
    have hstep : emitAll (i :: code) b = EStateM.bind (emit i) (fun _ => emitAll code) b := rfl
    rw [hstep, hcons, EStateM.bind]
    constructor
    · intro h
      split at h
      · rename_i b₁ hemit
        obtain ⟨hi, rfl⟩ := emit_eq_ok.1 hemit
        obtain ⟨hcode, rfl⟩ := ih.1 h
        exact ⟨(checked_singleton.2 hi).append hcode, rfl⟩
      · cases h
    · rintro ⟨hc, rfl⟩
      rw [emit_eq_ok.2 ⟨hc i (by simp), rfl⟩]
      exact ih.2 ⟨hc.right (a := [i]), rfl⟩

end BufferM

/-- Instructions are decoded one behind the other from their bytes. -/
theorem Instruction.decodeMany_encodeAll {code : List Instruction} (hc : Checked code) (before after : List UInt8) :
    decodeMany (before ++ encodeAll code ++ after).toArray code.length before.length = .ok (code.map fun i => (i, i.width)) := by
  induction code generalizing before with
  | nil => rfl
  | cons i code ih =>
    have hparts : before ++ encodeAll (i :: code) ++ after = before ++ i.encode ++ encodeAll code ++ after := by simp [encodeAll]
    have hcode : (before ++ encodeAll (i :: code) ++ after).toArray.toList = before ++ (i.encode ++ (encodeAll code ++ after)) := by
      simp [encodeAll]
    have hi := decode_of_code (hc i (by simp)) hcode
    have hrest := ih (hc.right (a := [i])) (before ++ i.encode)
    rw [List.length_append, ← hparts] at hrest
    exact bind_eq_ok.2 ⟨_, hi, bind_eq_ok.2 ⟨_, hrest, rfl⟩⟩

/-- Code whose listed jumps land in it or at its end. -/
theorem inside_of_locate {code : List Instruction}
    (h : ∀ l ∈ locate 0 code, ∀ target, l.target? = some target → 0 ≤ target ∧ target ≤ (encodeAll code).length) : Inside code := by
  intro ip i offset hs ho
  have htarget : (⟨0 + ip, i⟩ : Located).target? = some (((0 + ip + i.width : Nat) : Int) + offset.toInt) := by
    simp [Located.target?, Instruction.target?, ho]
  obtain ⟨hlow, hhigh⟩ := h _ (mem_locate hs 0) _ htarget
  rw [length_encodeAll] at hhigh
  refine ⟨(((0 + ip + i.width : Nat) : Int) + offset.toInt).toNat, ?_, by omega⟩
  rw [landing?_eq_some]
  omega

/-- A buffer accepts the lists of instructions that fit their encoding. What it has accepted is decoded instruction by instruction
from where the buffer ended, each with the width of its encoding, and listed with its offsets when no jump leaves it. -/
theorem CodeBuffer.decode_undoes_emit (b : CodeBuffer) (code : List Instruction) :
    ((∃ b', BufferM.emitAll code b = .ok () b') ↔ ∀ i ∈ code, i.Encodable) ∧
      ∀ b', BufferM.emitAll code b = .ok () b' →
        b'.bytes = b.bytes ++ encodeAll code ∧
        (∀ after : List UInt8, Instruction.decodeMany (b'.bytes ++ after).toArray code.length b.size =
          .ok (code.map fun i => (i, i.encode.length))) ∧
        ((∀ l ∈ locate 0 code, ∀ target, l.target? = some target → 0 ≤ target ∧ target ≤ (encodeAll code).length) →
          decodeStream (encodeAll code) = .ok (locate 0 code)) := by
  constructor
  · constructor
    · rintro ⟨b', h⟩ i hi
      exact Instruction.check_eq_ok.1 ((BufferM.emitAll_eq_ok.1 h).1 i hi)
    · intro h
      exact ⟨_, BufferM.emitAll_eq_ok.2 ⟨fun i hi => Instruction.check_eq_ok.2 (h i hi), rfl⟩⟩
  · intro b' h
    obtain ⟨hc, rfl⟩ := BufferM.emitAll_eq_ok.1 h
    refine ⟨rfl, fun after => ?_, fun hjumps => ?_⟩
    · exact Instruction.decodeMany_encodeAll hc b.bytes after
    · exact decodeStream_encodeAll hc (inside_of_locate hjumps)

/-- A function with a parameter, a text, a number and a jump over the text. -/
def codeSample : List Instruction :=
  [.makeFunction ⟨"f", ["x"], [], true, (Instruction.ret).encode⟩, .jump .forward 3, .load (.text "a"), .load (.num (.int 7)), .ret]

/-- The sample code is accepted behind two bytes, and is decoded from there with a byte behind it. -/
theorem CodeBuffer.decode_undoes_emit_codeSample :
    ∃ b', BufferM.emitAll codeSample ⟨[1, 2]⟩ = .ok () b' ∧
      Instruction.decodeMany (b'.bytes ++ [3]).toArray 5 2 = .ok (codeSample.map fun i => (i, i.encode.length)) ∧
      decodeStream (encodeAll codeSample) = .ok (locate 0 codeSample) := by
  obtain ⟨haccepts, hdecodes⟩ := CodeBuffer.decode_undoes_emit ⟨[1, 2]⟩ codeSample
  obtain ⟨b', hb⟩ : ∃ b', BufferM.emitAll codeSample ⟨[1, 2]⟩ = .ok () b' := ⟨_, rfl⟩
  obtain ⟨-, hmany, hstream⟩ := hdecodes b' hb
  refine ⟨b', hb, hmany [3], hstream ?_⟩
  decide

/-! ## What a read goes over -/

/-- Whenever the read succeeds, it goes over some bytes, and these and its answer are related. -/
def Takes {α : Type} (x : ReadM α) (R : List UInt8 → α → Prop) : Prop :=
  ∀ r a r', x r = .ok (a, r') →
    ∃ taken tail, r.rest = taken ++ tail ∧ r' = { r with position := r.position + taken.length } ∧ R taken a

namespace Takes

variable {α β : Type} {x : ReadM α} {R : List UInt8 → α → Prop}

theorem pure (a : α) : Takes (Pure.pure a) fun taken b => taken = [] ∧ b = a := by
  intro r b r' h
  cases h
  exact ⟨[], r.rest, rfl, rfl, rfl, rfl⟩

/-- One read behind the other goes over the bytes of both. -/
theorem bind {f : α → ReadM β} {S : α → List UInt8 → β → Prop} (hx : Takes x R) (hf : ∀ a, Takes (f a) (S a)) :
    Takes (x >>= f) fun taken b => ∃ first second a, taken = first ++ second ∧ R first a ∧ S a second b := by
  intro r b r' h
  have hparts : (x r >>= fun q => f q.1 q.2) = .ok (b, r') := h
  obtain ⟨⟨a, r₁⟩, h₁, h₂⟩ := bind_eq_ok.1 hparts
  obtain ⟨first, tail, hrest, rfl, hR⟩ := hx r a r₁ h₁
  obtain ⟨second, tail', hrest', rfl, hS⟩ := hf a _ b r' h₂
  rw [ByteReader.rest_advance hrest] at hrest'
  refine ⟨first ++ second, tail', ?_, ?_, first, second, a, rfl, hR, hS⟩
  · rw [hrest, hrest', List.append_assoc]
  · simp [Nat.add_assoc]

/-- What a read goes over may be described more weakly. -/
theorem mono {S : List UInt8 → α → Prop} (hx : Takes x R) (h : ∀ taken a, R taken a → S taken a) : Takes x S := by
  intro r a r' hr
  obtain ⟨taken, tail, hrest, hr', hR⟩ := hx r a r' hr
  exact ⟨taken, tail, hrest, hr', h taken a hR⟩

/-- A read whose answer is taken further goes over the same bytes. -/
theorem map (hx : Takes x R) (g : α → β) : Takes (do return g (← x)) fun taken b => ∃ a, b = g a ∧ R taken a := by
  refine (hx.bind fun a => pure (g a)).mono ?_
  rintro taken b ⟨first, second, a, rfl, hR, rfl, rfl⟩
  exact ⟨a, rfl, by rwa [List.append_nil]⟩

end Takes

/-- A read of bytes goes over just these. -/
theorem takes_bytes (count : Nat) : Takes (ByteReader.bytes count) fun taken bs => taken = bs ∧ bs.length = count := by
  intro r bs r' h
  simp only [ByteReader.bytes] at h
  split at h
  · rename_i hstop
    cases h
    have htake : (r.source.extract r.position (r.position + count)).toList = r.rest.take count := by
      rw [Array.toList_extract, List.extract_eq_take_drop, Nat.add_sub_cancel_left]
      rfl
    have hlen : (r.rest.take count).length = count := by
      simp [ByteReader.rest]
      omega
    rw [htake]
    exact ⟨_, r.rest.drop count, (List.take_append_drop count r.rest).symm, by rw [hlen], rfl, hlen⟩
  · cases h

/-! ## Numbers -/

/-- Bytes are those of the number they write. -/
theorem littleEndian_ofLittleEndian (bs : List UInt8) : littleEndian bs.length (ofLittleEndian bs) = bs := by
  induction bs with
  | nil => rfl
  | cons b bs ih =>
    have hb := b.toNat_lt
    have hlow : UInt8.ofNat (b.toNat + 256 * ofLittleEndian bs) = b := by
      apply UInt8.toNat_inj.1
      rw [UInt8.toNat_ofNat']
      omega
    have hhigh : (b.toNat + 256 * ofLittleEndian bs) / 256 = ofLittleEndian bs := by omega
    rw [List.length_cons, ofLittleEndian, littleEndian, hlow, hhigh, ih]

/-- A number read from bytes fits into as many. -/
theorem ofLittleEndian_lt (bs : List UInt8) : ofLittleEndian bs < 256 ^ bs.length := by
  induction bs with
  | nil => simp [ofLittleEndian]
  | cons b bs ih =>
    have hb := b.toNat_lt
    rw [ofLittleEndian, List.length_cons, Nat.pow_succ]
    omega

/-- A read of a number goes over its bytes. -/
theorem takes_number (count : Nat) :
    Takes (ByteReader.number count) fun taken n => taken = littleEndian count n ∧ n < 256 ^ count := by
  refine ((takes_bytes count).map ofLittleEndian).mono ?_
  rintro taken n ⟨bs, rfl, rfl, rfl⟩
  exact ⟨(littleEndian_ofLittleEndian taken).symm, ofLittleEndian_lt taken⟩

/-- A read of a byte goes over it. -/
theorem takes_u8 : Takes ByteReader.u8 fun taken b => taken = [b] := by
  refine ((takes_number 1).map UInt8.ofNat).mono ?_
  rintro taken b ⟨n, rfl, rfl, -⟩
  rfl

/-- A read of a word goes over its four bytes. -/
theorem takes_u32 : Takes ByteReader.u32 fun taken n => taken = littleEndian 4 n.toNat := by
  refine ((takes_number 4).map UInt32.ofNat).mono ?_
  rintro taken b ⟨n, rfl, rfl, hn⟩
  have hmod : n % 2 ^ 32 = n := Nat.mod_eq_of_lt hn
  rw [UInt32.toNat_ofNat', hmod]

/-- A read of a distance goes over its four bytes. -/
theorem takes_i32 : Takes ByteReader.i32 fun taken n => taken = int32Bytes n := by
  refine ((takes_number 4).map Int32.ofNat).mono ?_
  rintro taken b ⟨n, rfl, rfl, hn⟩
  have hbits : (Int32.ofNat n).toBitVec.toNat = n := Nat.mod_eq_of_lt hn
  rw [int32Bytes, hbits]

/-- A read of an integer of 64 bits goes over its eight bytes. -/
theorem takes_i64 : Takes ByteReader.i64 fun taken n => taken = int64Bytes n := by
  refine ((takes_number 8).map Int64.ofNat).mono ?_
  rintro taken b ⟨n, rfl, rfl, hn⟩
  have hbits : (Int64.ofNat n).toBitVec.toNat = n := Nat.mod_eq_of_lt hn
  rw [int64Bytes, hbits]

/-- A bit pattern is that of the number it stands for. -/
theorem Binary.toBits_ofBits {f : FloatFormat} {n : Nat} (h : n < 256 ^ f.bytes) : (Binary.ofBits f n).toBits = n := by
  have hwidth : 2 * f.signBit = 256 ^ f.bytes := by cases f <;> decide
  have hpos := f.signBit_pos
  have hsplit := Nat.div_add_mod n f.signBit
  rw [← hwidth, Nat.mul_comm] at h
  have hsign : n / f.signBit < 2 := Nat.div_lt_of_lt_mul h
  have hcases : n / f.signBit = 0 ∨ n / f.signBit = 1 := Nat.le_one_iff_eq_zero_or_eq_one.1 (Nat.le_of_lt_succ hsign)
  unfold Binary.toBits Binary.ofBits
  rcases hcases with hzero | hone
  · rw [hzero] at hsplit ⊢
    simpa using hsplit
  · rw [hone] at hsplit ⊢
    simpa using hsplit

/-- A read of a float goes over the bytes of its pattern, whatever NaN it is. -/
theorem takes_float (f : FloatFormat) : Takes (ByteReader.float f) fun taken x => taken = littleEndian f.bytes x.toBits := by
  refine ((takes_number f.bytes).map (Binary.ofBits f)).mono ?_
  rintro taken x ⟨n, rfl, rfl, hn⟩
  rw [Binary.toBits_ofBits hn]

/-! ## Texts -/

/-- The NUL that is found is one, and lies from the index on. -/
theorem findNul_eq_some {source : Array UInt8} {count i stop : Nat} (h : findNul source count i = some stop) :
    i ≤ stop ∧ source[stop]? = some 0 := by
  induction count generalizing i with
  | zero => nomatch h
  | succ count ih =>
    rw [findNul] at h
    split at h
    · rename_i hzero
      cases h
      exact ⟨Nat.le_refl _, hzero⟩
    · obtain ⟨hle, hzero⟩ := ih h
      exact ⟨Nat.le_of_succ_le hle, hzero⟩

/-- Bytes that are read as a text are the bytes of that text. -/
theorem toUTF8_of_fromUTF8? {bytes : ByteArray} {s : String} (h : String.fromUTF8? bytes = some s) : s.toUTF8 = bytes := by
  unfold String.fromUTF8? at h
  split at h
  · cases h
    rfl
  · nomatch h

/-- A read of a text goes over its bytes and a NUL. -/
theorem takes_text : Takes ByteReader.text fun taken s => taken = textBytes s := by
  intro r s r' h
  unfold ByteReader.text at h
  split at h
  · cases h
  · rename_i stop hfind
    split at h
    · cases h
    · rename_i hutf8
      cases h
      obtain ⟨hle, hzero⟩ := findNul_eq_some hfind
      have hbytes : s.toUTF8.data.toList = (r.source.extract r.position stop).toList := by rw [toUTF8_of_fromUTF8? hutf8]
      have hstop : stop < r.source.size := (Array.getElem?_eq_some_iff.1 hzero).1
      have htake : (r.source.extract r.position stop).toList = r.rest.take (stop - r.position) := by
        rw [Array.toList_extract, List.extract_eq_take_drop]
        rfl
      have hnul : r.rest.drop (stop - r.position) = 0 :: r.rest.drop (stop - r.position + 1) := by
        have hget : r.rest[stop - r.position]? = some 0 := by
          rw [ByteReader.rest, List.getElem?_drop, Nat.add_sub_cancel' hle, Array.getElem?_toList, hzero]
        obtain ⟨hlt, heq⟩ := List.getElem?_eq_some_iff.1 hget
        rw [List.drop_eq_getElem_cons hlt, heq]
      have hlen : (textBytes s).length = stop + 1 - r.position := by
        rw [textBytes, hbytes]
        simp
        omega
      refine ⟨textBytes s, r.rest.drop (stop - r.position + 1), ?_, ?_, rfl⟩
      · rw [textBytes, hbytes, htake, List.append_assoc, List.singleton_append, ← hnul, List.take_append_drop]
      · rw [hlen]
        congr 1
        omega

/-- A read of several texts goes over each of them. -/
theorem takes_texts (count : Nat) :
    Takes (ByteReader.texts count) fun taken ss => taken = ss.flatMap textBytes ∧ ss.length = count := by
  induction count with
  | zero =>
    refine (Takes.pure []).mono ?_
    rintro taken ss ⟨rfl, rfl⟩
    exact ⟨rfl, rfl⟩
  | succ count ih =>
    refine (takes_text.bind fun s => ih.map (s :: ·)).mono ?_
    rintro taken ss ⟨first, second, s, rfl, rfl, ss, rfl, rfl, rfl⟩
    exact ⟨rfl, rfl⟩

/-! ## The marks of asynchronous functions -/

/-- A mark as the encoder writes it. -/
def normalMark (mark : UInt8) : UInt8 := if mark = 0 then 0 else 1

/-- The bytes with normal marks at some places. -/
def normalize (places : List Nat) (bytes : List UInt8) : List UInt8 := places.foldl (fun bs place => bs.modify place normalMark) bytes

/-- The operand bytes of a function before its mark. -/
def Prototype.headBytes (p : Prototype) : List UInt8 :=
  textBytes p.name ++ littleEndian 1 p.params.length ++ p.params.flatMap textBytes ++ littleEndian 4 p.captures.length ++
    p.captures.flatMap textBytes

/-- Where the mark stands in the bytes of an instruction, if it makes a function. -/
def Instruction.marks : Instruction → List Nat
  | .makeFunction p => [p.headBytes.length + 1]
  | _ => []

/-- Where the marks stand in the bytes of a listed code. -/
def Located.marks (l : Located) : List Nat := l.instruction.marks.map (l.offset + ·)

/-- A change at a place of the front part leaves the back part. -/
theorem modify_append_left {α : Type} (f : α → α) {a : List α} (b : List α) {place : Nat} (h : place < a.length) :
    (a ++ b).modify place f = a.modify place f ++ b := by
  obtain ⟨x, more, hdrop⟩ : ∃ x more, a.drop place = x :: more := ⟨_, _, List.drop_eq_getElem_cons h⟩
  simp only [List.modify_eq_take_drop, List.take_append_of_le_length (Nat.le_of_lt h),
    List.drop_append_of_le_length (Nat.le_of_lt h), hdrop, List.cons_append, List.modifyHead_cons, List.append_assoc]

/-- A change behind the front part leaves the front part. -/
theorem modify_append_right {α : Type} (f : α → α) (a b : List α) (place : Nat) :
    (a ++ b).modify (a.length + place) f = a ++ b.modify place f := by
  simp only [List.modify_eq_take_drop, List.take_length_add_append, List.drop_length_add_append, List.append_assoc]

/-- Marks in the front part leave the back part. -/
theorem normalize_append (places : List Nat) {a : List UInt8} (b : List UInt8) (h : ∀ place ∈ places, place < a.length) :
    normalize places (a ++ b) = normalize places a ++ b := by
  induction places generalizing a with
  | nil => rfl
  | cons place places ih =>
    have hplace := h place List.mem_cons_self
    have hrest : ∀ p ∈ places, p < (a.modify place normalMark).length := by
      intro p hp
      rw [List.length_modify]
      exact h p (List.mem_cons_of_mem _ hp)
    have hstep := ih hrest
    simp only [normalize, List.foldl_cons] at hstep ⊢
    rw [modify_append_left _ _ hplace, hstep]

/-- Marks behind the front part leave the front part. -/
theorem normalize_shift (places : List Nat) (a b : List UInt8) :
    normalize (places.map (a.length + ·)) (a ++ b) = a ++ normalize places b := by
  induction places generalizing b with
  | nil => rfl
  | cons place places ih =>
    have hstep := ih (b.modify place normalMark)
    simp only [normalize, List.map_cons, List.foldl_cons] at hstep ⊢
    rw [modify_append_right, hstep]

theorem length_normalize (places : List Nat) (bytes : List UInt8) : (normalize places bytes).length = bytes.length := by
  induction places generalizing bytes with
  | nil => rfl
  | cons place places ih => exact (ih _).trans (List.length_modify _ _ _)

/-! ## Instructions -/

/-- The operand bytes of a function, with any mark. -/
def Prototype.markedBytes (p : Prototype) (mark : UInt8) : List UInt8 :=
  p.headBytes ++ mark :: (littleEndian 4 p.body.length ++ p.body)

/-- With its mark made normal, the bytes of a function are those that the encoder writes. -/
theorem Prototype.modify_markedBytes {p : Prototype} {mark : UInt8} (h : p.isAsync = (mark != 0)) :
    (p.markedBytes mark).modify p.headBytes.length normalMark = p.operandBytes := by
  have hmark : normalMark mark = if p.isAsync then 1 else 0 := by
    rw [h, normalMark]
    by_cases hzero : mark = 0 <;> simp [hzero]
  have hmodify := modify_append_right normalMark p.headBytes (mark :: (littleEndian 4 p.body.length ++ p.body)) 0
  rw [Nat.add_zero, List.modify_zero_cons, hmark] at hmodify
  rw [markedBytes, hmodify]
  simp [headBytes, operandBytes]

/-- An opcode has the byte that it is read from. -/
theorem Opcode.toByte_of_ofByte? {byte : UInt8} {op : Opcode} (h : ofByte? byte = some op) : op.toByte = byte := by
  have hindex : ∀ n (hn : n < all.length), all[n].ctorIdx = n := by decide
  obtain ⟨hlt, heq⟩ := List.getElem?_eq_some_iff.1 h
  rw [toByte, ← heq, hindex _ hlt, UInt8.ofNat_toNat]

namespace Instruction

/-- A read of a function goes over its operands, with some byte for the mark. -/
theorem takes_prototype : Takes readPrototype fun taken p => ∃ mark, p.isAsync = (mark != 0) ∧ taken = p.markedBytes mark := by
  refine (takes_text.bind fun name => takes_u8.bind fun paramCount => (takes_texts _).bind fun params => takes_u32.bind fun captureCount =>
    (takes_texts _).bind fun captures => takes_u8.bind fun mark => takes_u32.bind fun bodyLength =>
    (takes_bytes _).bind fun body => Takes.pure _).mono ?_
  rintro taken p ⟨_, _, name, rfl, rfl, _, _, paramCount, rfl, rfl, _, _, params, rfl, ⟨rfl, hparams⟩, _, _, captureCount, rfl, rfl,
    _, _, captures, rfl, ⟨rfl, hcaptures⟩, _, _, mark, rfl, rfl, _, _, bodyLength, rfl, rfl, _, _, body, rfl, ⟨rfl, hbody⟩, rfl, rfl⟩
  refine ⟨mark, rfl, ?_⟩
  have hcount : littleEndian 1 params.length = [paramCount] := by simp [littleEndian, hparams]
  simp [Prototype.markedBytes, Prototype.headBytes, hcount, hcaptures, hbody]

/-- The operands of an instruction that makes no function are those that the encoder writes. -/
theorem takes_map {α : Type} {x : ReadM α} {bytes : α → List UInt8} (hx : Takes x fun taken a => taken = bytes a) {make : α → Instruction}
    {op : Opcode} (hop : ∀ a, (make a).opcode = op) (hbytes : ∀ a, (make a).operandBytes = bytes a) (hmarks : ∀ a, (make a).marks = []) :
    Takes (do return make (← x)) fun taken i => i.opcode = op ∧ i.encode = normalize i.marks (op.toByte :: taken) := by
  refine (hx.map make).mono ?_
  rintro taken i ⟨a, rfl, rfl⟩
  refine ⟨hop a, ?_⟩
  rw [hmarks, encode, hop, hbytes]
  rfl

/-- An instruction without operands is encoded as its opcode. -/
theorem takes_pure {i : Instruction} {op : Opcode} (hop : i.opcode = op) (hbytes : i.operandBytes = []) (hmarks : i.marks = []) :
    Takes (Pure.pure i) fun taken i => i.opcode = op ∧ i.encode = normalize i.marks (op.toByte :: taken) := by
  refine (Takes.pure i).mono ?_
  rintro taken _ ⟨rfl, rfl⟩
  refine ⟨hop, ?_⟩
  rw [hmarks, encode, hop, hbytes]
  rfl

/-- With normal marks, the operands that are read for an opcode are those that the encoder writes behind it. -/
theorem takes_operands (op : Opcode) :
    Takes (readOperands op) fun taken i => i.opcode = op ∧ i.encode = normalize i.marks (op.toByte :: taken) := by
  cases op with
  | loadInt => exact takes_map takes_i32 (fun _ => rfl) (fun _ => rfl) fun _ => rfl
  | loadInt64 => exact takes_map takes_i64 (fun _ => rfl) (fun _ => rfl) fun _ => rfl
  | loadFloat => exact takes_map (takes_float _) (fun _ => rfl) (fun _ => rfl) fun _ => rfl
  | loadDouble => exact takes_map (takes_float _) (fun _ => rfl) (fun _ => rfl) fun _ => rfl
  | loadString | loadError | loadName | storeName | setName | getMember =>
    exact takes_map takes_text (fun _ => rfl) (fun _ => rfl) fun _ => rfl
  | jumpForward | popJumpIfFalse | popJumpIfTrue | loop => exact takes_map takes_i32 (fun _ => rfl) (fun _ => rfl) fun _ => rfl
  | buildArray | buildMap => exact takes_map takes_u32 (fun _ => rfl) (fun _ => rfl) fun _ => rfl
  | call => exact takes_map takes_u8 (fun _ => rfl) (fun _ => rfl) fun _ => rfl
  | iterNext =>
    refine (takes_u8.bind fun arity => takes_i32.map (iterNext arity)).mono ?_
    rintro taken i ⟨_, _, arity, rfl, rfl, offset, rfl, rfl⟩
    exact ⟨rfl, rfl⟩
  | makeFunction =>
    refine (takes_prototype.map makeFunction).mono ?_
    rintro taken i ⟨p, rfl, mark, hmark, rfl⟩
    refine ⟨rfl, ?_⟩
    have hplace : normalize (makeFunction p).marks (Opcode.makeFunction.toByte :: p.markedBytes mark) =
        Opcode.makeFunction.toByte :: (p.markedBytes mark).modify p.headBytes.length normalMark := List.modify_succ_cons _ _ _ _
    rw [hplace, p.modify_markedBytes hmark]
    rfl
  | _ => exact takes_pure rfl rfl rfl

/-- What is read is encoded to the bytes gone over, with normal marks. -/
theorem takes_read : Takes read fun taken i => taken ≠ [] ∧ i.encode = normalize i.marks taken := by
  intro r i r' h
  simp only [read, bind, StateT.bind, get, getThe, MonadStateOf.get, StateT.get, pure, Except.pure, Except.bind] at h
  cases hbyte : ByteReader.u8 r with
  | error e =>
    rw [hbyte] at h
    cases h
  | ok q =>
    obtain ⟨byte, r₁⟩ := q
    rw [hbyte] at h
    obtain ⟨_, tail, hrest, rfl, rfl⟩ := takes_u8 r byte r₁ hbyte
    cases hop : Opcode.ofByte? byte with
    | none =>
      simp only [hop] at h
      cases h
    | some op =>
      simp only [hop] at h
      obtain ⟨taken, tail', hrest', rfl, -, hencode⟩ := takes_operands op _ i r' h
      rw [ByteReader.rest_advance hrest] at hrest'
      rw [Opcode.toByte_of_ofByte? hop] at hencode
      refine ⟨byte :: taken, tail', ?_, ?_, by simp, hencode⟩
      · rw [hrest, hrest']
        rfl
      · simp only [List.length_cons, List.length_nil]
        congr 1
        omega

/-- The mark of an instruction stands within its bytes. -/
theorem marks_lt (i : Instruction) : ∀ place ∈ i.marks, place < i.width := by
  intro place hplace
  cases i with
  | makeFunction p =>
    obtain rfl : place = p.headBytes.length + 1 := by simpa [marks] using hplace
    simp [width, encode, operandBytes, Prototype.operandBytes, Prototype.headBytes]
  | _ => simp [marks] at hplace

/-- A read goes over as many bytes as the instruction has, and these are its own but for the marks. -/
theorem read_eq_ok {r r' : ByteReader} {i : Instruction} (h : read r = .ok (i, r')) :
    ∃ taken tail, r.rest = taken ++ tail ∧ taken.length = i.width ∧ r' = { r with position := r.position + i.width } ∧
      i.encode = normalize i.marks taken := by
  obtain ⟨taken, tail, hrest, hr', -, hencode⟩ := takes_read r i r' h
  have hwidth : taken.length = i.width := by rw [width, hencode, length_normalize]
  exact ⟨taken, tail, hrest, hwidth, by rw [hr', hwidth], hencode⟩

/-- Decoding succeeds by a read that goes over the width of the instruction. -/
theorem decode_eq_ok {code : Array UInt8} {offset w : Nat} {i : Instruction} (h : decode code offset = .ok (i, w)) :
    w = i.width ∧ read ⟨code, offset⟩ = .ok (i, ⟨code, offset + i.width⟩) := by
  obtain ⟨⟨j, r'⟩, hread, hresult⟩ := bind_eq_ok.1 h
  obtain ⟨taken, tail, -, -, rfl, -⟩ := read_eq_ok hread
  cases hresult
  exact ⟨Nat.add_sub_cancel_left .., hread⟩

/-- A read that succeeds decodes its instruction. -/
theorem decode_of_read {code : Array UInt8} {offset : Nat} {i : Instruction} {r' : ByteReader} (h : read ⟨code, offset⟩ = .ok (i, r')) :
    decode code offset = .ok (i, i.width) := by
  obtain ⟨taken, tail, -, -, rfl, -⟩ := read_eq_ok h
  refine bind_eq_ok.2 ⟨_, h, ?_⟩
  simp only [Nat.add_sub_cancel_left]
  rfl

end Instruction

/-! ## Streams -/

/-- One instruction of a stream that can be listed. -/
theorem decodeFrom_eq_ok {fuel : Nat} {r : ByteReader} {listed : List Located} (h : decodeFrom fuel r = .ok listed) :
    (r.rest = [] ∧ listed = []) ∨ ∃ fuel' i rest, fuel = fuel' + 1 ∧ listed = ⟨r.position, i⟩ :: rest ∧
      Instruction.read r = .ok (i, { r with position := r.position + i.width }) ∧
      decodeFrom fuel' { r with position := r.position + i.width } = .ok rest := by
  cases hend : r.atEnd with
  | true =>
    refine .inl ⟨r.atEnd_iff.1 hend, ?_⟩
    cases fuel <;> simpa [decodeFrom, hend] using h.symm
  | false =>
    cases fuel with
    | zero => simp [decodeFrom, hend] at h
    | succ fuel =>
      simp only [decodeFrom, hend, Bool.false_eq_true, if_false] at h
      obtain ⟨⟨i, next⟩, hread, h⟩ := bind_eq_ok.1 h
      obtain ⟨_, -, h⟩ := bind_eq_ok.1 h
      obtain ⟨rest, hrest, h⟩ := bind_eq_ok.1 h
      cases h
      obtain ⟨taken, tail, -, -, rfl, -⟩ := Instruction.read_eq_ok hread
      exact .inr ⟨fuel, i, rest, rfl, rfl, hread, hrest⟩

/-- Enough fuel for the bytes that are left is enough. -/
theorem decodeFrom_fuel {fuel fuel' : Nat} {r : ByteReader} (h : r.rest.length ≤ fuel) (h' : r.rest.length ≤ fuel') :
    decodeFrom fuel r = decodeFrom fuel' r := by
  induction fuel generalizing fuel' r with
  | zero =>
    have hend : r.atEnd = true := r.atEnd_iff.2 (List.length_eq_zero_iff.1 (Nat.le_zero.1 h))
    cases fuel' <;> simp [decodeFrom, hend]
  | succ fuel ih =>
    cases fuel' with
    | zero =>
      have hend : r.atEnd = true := r.atEnd_iff.2 (List.length_eq_zero_iff.1 (Nat.le_zero.1 h'))
      simp [decodeFrom, hend]
    | succ fuel' =>
      rw [decodeFrom, decodeFrom]
      cases hread : Instruction.read r with
      | error e => rfl
      | ok q =>
        obtain ⟨i, next⟩ := q
        obtain ⟨taken, tail, hrest, hwidth, rfl, -⟩ := Instruction.read_eq_ok hread
        have hpos := i.width_pos
        have hnext : ({ r with position := r.position + i.width } : ByteReader).rest = tail := by
          rw [← hwidth]
          exact ByteReader.rest_advance hrest
        have hlen : r.rest.length = i.width + tail.length := by rw [hrest, List.length_append, hwidth]
        have hsame := @ih fuel' { r with position := r.position + i.width } (by rw [hnext]; omega) (by rw [hnext]; omega)
        simp only [bind, Except.bind, hsame]

/-- Marks made normal in two goes are made normal in one. -/
theorem normalize_normalize (places places' : List Nat) (bytes : List UInt8) :
    normalize places' (normalize places bytes) = normalize (places ++ places') bytes := List.foldl_append.symm

/-- What is listed from a reader on stands without gaps up to the end, each instruction is decoded where it is listed, and with
normal marks the bytes are those of the instructions. -/
theorem encodeAll_of_decodeFrom {fuel : Nat} {r : ByteReader} {listed : List Located} {before : List UInt8}
    (h : decodeFrom fuel r = .ok listed) (hbefore : before.length = r.position) :
    listed = locate r.position (listed.map Located.instruction) ∧
      (∀ l ∈ listed, Instruction.decode r.source l.offset = .ok (l.instruction, l.instruction.width)) ∧
      before ++ encodeAll (listed.map Located.instruction) = normalize (listed.flatMap Located.marks) (before ++ r.rest) := by
  induction fuel generalizing r listed before with
  | zero =>
    rcases decodeFrom_eq_ok h with ⟨hend, rfl⟩ | ⟨_, _, _, hfuel, -⟩
    · exact ⟨rfl, by simp, by rw [hend]; rfl⟩
    · nomatch hfuel
  | succ fuel ih =>
    rcases decodeFrom_eq_ok h with ⟨hend, rfl⟩ | ⟨_, i, listed, hfuel, rfl, hread, hmore⟩
    · exact ⟨rfl, by simp, by rw [hend]; rfl⟩
    · obtain rfl := Nat.succ.inj hfuel
      obtain ⟨taken, tail, hrest, hwidth, -, hencode⟩ := Instruction.read_eq_ok hread
      have hnext : ({ r with position := r.position + i.width } : ByteReader).rest = tail := by
        rw [← hwidth]
        exact ByteReader.rest_advance hrest
      obtain ⟨hlocate, hdecode, hbytes⟩ := @ih { r with position := r.position + i.width } listed (before ++ i.encode) hmore
        (by rw [List.length_append, hbefore]; rfl)
      refine ⟨congrArg _ hlocate, ?_, ?_⟩
      · intro l hl
        rcases List.mem_cons.1 hl with rfl | hl
        · exact Instruction.decode_of_read hread
        · exact hdecode l hl
      · have hmarks : (⟨r.position, i⟩ : Located).marks = i.marks.map (before.length + ·) := by rw [hbefore]; rfl
        have hfirst : normalize (i.marks.map (before.length + ·)) (before ++ r.rest) = before ++ i.encode ++ tail := by
          rw [normalize_shift, hrest, normalize_append _ _ (by rw [hwidth]; exact i.marks_lt), ← hencode, List.append_assoc]
        rw [List.flatMap_cons, ← normalize_normalize, hmarks, hfirst, ← hnext, ← hbytes]
        simp [encodeAll]

/-- What is decoded from any bytes is encoded to the bytes it stands in, but for the marks of asynchronous functions, and `decodeStream`
gets through every byte string: what it lists begins at the first byte, goes on where the instruction before it ends, and ends with
the last byte. -/
theorem Instruction.encode_undoes_decode (code : List UInt8) :
    (∀ offset i w, decode code.toArray offset = .ok (i, w) →
      1 ≤ w ∧ offset + w ≤ code.length ∧ i.encode.length = w ∧ i.encode = normalize i.marks ((code.drop offset).take w)) ∧
    (∀ fuel, code.length ≤ fuel → decodeFrom fuel ⟨code.toArray, 0⟩ = decodeStream code) ∧
    ∀ listed, decodeStream code = .ok listed →
      listed = locate 0 (listed.map Located.instruction) ∧ codeSize (listed.map Located.instruction) = code.length ∧
      (∀ l ∈ listed, decode code.toArray l.offset = .ok (l.instruction, l.instruction.width)) ∧
      encodeAll (listed.map Located.instruction) = normalize (listed.flatMap Located.marks) code := by
  refine ⟨?_, ?_, ?_⟩
  · intro offset i w h
    obtain ⟨rfl, hread⟩ := decode_eq_ok h
    obtain ⟨taken, tail, hrest, hwidth, -, hencode⟩ := read_eq_ok hread
    have hdrop : code.drop offset = taken ++ tail := by simpa [ByteReader.rest] using hrest
    have hlen : code.length - offset = i.width + tail.length := by
      simpa [hwidth] using congrArg List.length hdrop
    have hpos := i.width_pos
    refine ⟨hpos, by omega, rfl, ?_⟩
    rw [hdrop, ← hwidth, List.take_left, hencode]
  · intro fuel hfuel
    exact decodeFrom_fuel hfuel (Nat.le_refl _)
  · intro listed h
    obtain ⟨hlocate, hdecode, hbytes⟩ := @encodeAll_of_decodeFrom _ _ _ [] h rfl
    have hbytes' : encodeAll (listed.map Located.instruction) = normalize (listed.flatMap Located.marks) code := hbytes
    refine ⟨hlocate, ?_, hdecode, hbytes'⟩
    rw [← length_encodeAll, hbytes', length_normalize]

/-- A jump to the end, and behind it a function with the mark 7 whose body is a return. -/
def markedSample : List UInt8 :=
  (Instruction.jump .forward 14).encode ++
    Opcode.makeFunction.toByte :: (⟨"f", [], [], true, Instruction.ret.encode⟩ : Prototype).markedBytes 7

/-- In the sample a mark other than one is read, and written as one, both alone and in the stream. -/
theorem Instruction.encode_undoes_decode_markedSample :
    markedSample[13]? = some 7 ∧ ∃ i listed, decode markedSample.toArray 5 = .ok (i, 14) ∧
      i.encode = normalize i.marks ((markedSample.drop 5).take 14) ∧ decodeStream markedSample = .ok listed ∧
      encodeAll (listed.map Located.instruction) = normalize (listed.flatMap Located.marks) markedSample := by
  obtain ⟨hdecode, -, hstream⟩ := encode_undoes_decode markedSample
  obtain ⟨i, hi⟩ : ∃ i, decode markedSample.toArray 5 = .ok (i, 14) := ⟨_, rfl⟩
  obtain ⟨listed, hlisted⟩ : ∃ listed, decodeStream markedSample = .ok listed := ⟨_, rfl⟩
  obtain ⟨-, -, -, hencode⟩ := hdecode 5 i 14 hi
  obtain ⟨-, -, -, hencodeAll⟩ := hstream listed hlisted
  exact ⟨rfl, i, listed, hi, hencode, hlisted, hencodeAll⟩

end ScriptVM
