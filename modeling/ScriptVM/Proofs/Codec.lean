import Mathlib.Algebra.Group.Nat.Defs
import ScriptVM.Fragment
import ScriptVM.Image

/-!
# Instructions are read back from their bytes

`Reads x bytes a` says that the read `x` takes exactly `bytes` from any reader that stands in front of them, and answers `a`.
Reads compose, so every operand that passes `Instruction.check` is read back from its bytes, and so is the instruction
(`Instruction.decode_of_code`): wherever the bytes of a checked instruction stand in a code, the machine decodes them to it.
-/

namespace ScriptVM

/-- A computation that may fail succeeds exactly when both of its parts do. -/
theorem bind_eq_ok {ε α β : Type} {x : Except ε α} {f : α → Except ε β} {b : β} :
    x >>= f = .ok b ↔ ∃ a, x = .ok a ∧ f a = .ok b := by
  cases x with
  | error e =>
    constructor
    · intro h
      nomatch h
    · rintro ⟨_, h, _⟩
      nomatch h
  | ok a =>
    constructor
    · intro h
      exact ⟨a, rfl, h⟩
    · rintro ⟨_, ha, hf⟩
      cases ha
      exact hf

/-- A read that takes exactly `bytes` from a reader in front of them, whatever follows, and answers `a`. -/
def Reads {α : Type} (x : ReadM α) (bytes : List UInt8) (a : α) : Prop :=
  ∀ (r : ByteReader) (tail : List UInt8), r.position ≤ r.source.size → r.rest = bytes ++ tail →
    x r = .ok (a, { r with position := r.position + bytes.length })

namespace Reads

variable {α β : Type}

/-- A read that takes nothing. -/
theorem pure (a : α) : Reads (Pure.pure a) [] a := by
  intro r tail _ _
  rfl

/-- The bytes of a reader that advances over some of them lie inside the source. -/
theorem advance_le {r : ByteReader} {taken tail : List UInt8} (h : r.position ≤ r.source.size)
    (hr : r.rest = taken ++ tail) : r.position + taken.length ≤ r.source.size := by
  have hlen : r.source.size - r.position = taken.length + tail.length := by
    simpa [ByteReader.rest] using congrArg List.length hr
  omega

/-- One read behind the other takes the bytes of both. -/
theorem bind {x : ReadM α} {f : α → ReadM β} {first second : List UInt8} {a : α} {b : β} (hx : Reads x first a)
    (hf : Reads (f a) second b) : Reads (x >>= f) (first ++ second) b := by
  intro r tail hpos hr
  have hr1 : r.rest = first ++ (second ++ tail) := by rw [hr, List.append_assoc]
  have hx' := hx r _ hpos hr1
  have hf' := hf _ tail (advance_le hpos hr1) (ByteReader.rest_advance hr1)
  change (x r >>= fun p => f p.1 p.2) = _
  rw [hx']
  change f a _ = _
  rw [hf']
  simp [Nat.add_assoc]

/-- A read whose answer is taken further takes the same bytes. -/
theorem map {x : ReadM α} {bytes : List UInt8} {a : α} (hx : Reads x bytes a) (g : α → β) :
    Reads (do return g (← x)) bytes (g a) := by
  have h := hx.bind (f := fun a => Pure.pure (g a)) (pure (g a))
  rwa [List.append_nil] at h

/-- What follows a read goes on behind its bytes. -/
theorem bind_apply {x : ReadM α} {f : α → ReadM β} {first tail : List UInt8} {a : α} {r : ByteReader}
    (hx : Reads x first a) (hpos : r.position ≤ r.source.size) (hr : r.rest = first ++ tail) :
    ∃ r', (x >>= f) r = f a r' ∧ r'.position ≤ r'.source.size ∧ r'.rest = tail := by
  refine ⟨_, ?_, advance_le hpos hr, ByteReader.rest_advance hr⟩
  change (x r >>= fun p => f p.1 p.2) = _
  rw [hx r tail hpos hr]
  rfl

/-- The bytes themselves. -/
theorem bytes (l : List UInt8) : Reads (ByteReader.bytes l.length) l l :=
  fun _ _ hpos hr => ByteReader.bytes_of_rest hpos hr

end Reads

/-! ## Numbers -/

/-- A number written in so many bytes takes so many bytes. -/
theorem length_littleEndian (count n : Nat) : (littleEndian count n).length = count := by
  induction count generalizing n with
  | zero => rfl
  | succ count ih => rw [littleEndian, List.length_cons, ih]

/-- A number is what its bytes write, if it has no more of them. -/
theorem ofLittleEndian_littleEndian {count n : Nat} (h : n < 256 ^ count) : ofLittleEndian (littleEndian count n) = n := by
  induction count generalizing n with
  | zero =>
    have hn : n = 0 := by simpa using h
    rw [hn]
    rfl
  | succ count ih =>
    have hdiv : n / 256 < 256 ^ count := Nat.div_lt_of_lt_mul (by rwa [Nat.pow_succ, Nat.mul_comm] at h)
    have hbyte : (UInt8.ofNat n).toNat = n % 256 := UInt8.toNat_ofNat'
    rw [littleEndian, ofLittleEndian, ih hdiv, hbyte]
    exact Nat.mod_add_div n 256

/-- A number that fits is read back from its bytes, the least significant one first. -/
theorem reads_number (count : Nat) {n : Nat} (h : n < 256 ^ count) : Reads (ByteReader.number count) (littleEndian count n) n := by
  have hb := (Reads.bytes (littleEndian count n)).map ofLittleEndian
  rw [length_littleEndian, ofLittleEndian_littleEndian h] at hb
  exact hb

theorem reads_u8 (b : UInt8) : Reads ByteReader.u8 [b] b := by
  have h := (reads_number 1 (n := b.toNat) b.toNat_lt).map UInt8.ofNat
  have hb : littleEndian 1 b.toNat = [b] := by simp [littleEndian]
  rw [hb, UInt8.ofNat_toNat] at h
  exact h

/-- A word of 32 bits is read back from its four bytes. -/
theorem reads_u32 (n : UInt32) : Reads ByteReader.u32 (littleEndian 4 n.toNat) n := by
  have h := (reads_number 4 (n := n.toNat) n.toNat_lt).map UInt32.ofNat
  rw [UInt32.ofNat_toNat] at h
  exact h

/-- A distance is read back from its four bytes, negative ones included. -/
theorem reads_i32 (n : Int32) : Reads ByteReader.i32 (int32Bytes n) n := by
  have h := (reads_number 4 (n := n.toBitVec.toNat) n.toBitVec.isLt).map Int32.ofNat
  have hn : Int32.ofNat n.toBitVec.toNat = n := by
    apply Int32.toBitVec_inj.1
    simp
  rw [hn] at h
  exact h

/-- An integer of 64 bits is read back from its eight bytes. -/
theorem reads_i64 (n : Int64) : Reads ByteReader.i64 (int64Bytes n) n := by
  have h := (reads_number 8 (n := n.toBitVec.toNat) n.toBitVec.isLt).map Int64.ofNat
  have hn : Int64.ofNat n.toBitVec.toNat = n := by
    apply Int64.toBitVec_inj.1
    simp
  rw [hn] at h
  exact h

/-- A floating point number is the one with its bit pattern. -/
theorem Binary.ofBits_toBits {f : FloatFormat} (x : Binary f) : Binary.ofBits f x.toBits = x := by
  have hlt := x.magnitude_lt
  have hpos := f.signBit_pos
  ext
  · cases hneg : x.negative
    · simp [Binary.ofBits, Binary.toBits, hneg, Nat.div_eq_of_lt hlt]
    · simp [Binary.ofBits, Binary.toBits, hneg, Nat.add_div_left, hpos, Nat.div_eq_of_lt hlt]
  · cases hneg : x.negative
    · simp [Binary.ofBits, Binary.toBits, hneg, Nat.mod_eq_of_lt hlt]
    · simp [Binary.ofBits, Binary.toBits, hneg, Nat.mod_eq_of_lt hlt]

/-- The pattern of a float fits into the bytes of its format. -/
theorem Binary.toBits_lt {f : FloatFormat} (x : Binary f) : x.toBits < 256 ^ f.bytes := by
  have hlt := x.magnitude_lt
  have hbits : x.toBits ≤ f.signBit + x.magnitude := by
    unfold Binary.toBits
    split <;> omega
  have hwidth : 2 * f.signBit = 256 ^ f.bytes := by cases f <;> decide
  omega

/-- A float is read back bit by bit, NaN included. -/
theorem reads_float {f : FloatFormat} (x : Binary f) : Reads (ByteReader.float f) (littleEndian f.bytes x.toBits) x := by
  have h := (reads_number f.bytes x.toBits_lt).map (Binary.ofBits f)
  rw [Binary.ofBits_toBits] at h
  exact h


/-! ## Texts -/

/-- Only a NUL has a zero among its bytes. -/
theorem zero_not_mem_utf8EncodeChar {c : Char} (hc : c ≠ '\x00') : (0 : UInt8) ∉ String.utf8EncodeChar c := by
  have hval : c.val.toNat ≠ 0 := fun h => hc (Char.ext (UInt32.toNat_inj.1 h))
  have hzero : ∀ n : Nat, (0 : UInt8) = UInt8.ofNat n → n % 256 = 0 := by
    intro n h
    have h0 := congrArg UInt8.toNat h
    rw [UInt8.toNat_ofNat'] at h0
    exact h0.symm
  intro hmem
  -- Every byte is the character itself below 128, and at least 128 in the longer forms.
  simp only [String.utf8EncodeChar] at hmem
  split at hmem
  · rw [List.mem_singleton] at hmem
    have := hzero _ hmem
    omega
  · split at hmem
    · simp only [List.mem_cons, List.not_mem_nil, or_false] at hmem
      rcases hmem with h | h <;> (have h0 := hzero _ h; omega)
    · split at hmem
      · simp only [List.mem_cons, List.not_mem_nil, or_false] at hmem
        rcases hmem with h | h | h <;> (have h0 := hzero _ h; omega)
      · simp only [List.mem_cons, List.not_mem_nil, or_false] at hmem
        rcases hmem with h | h | h | h <;> (have h0 := hzero _ h; omega)

/-- A text without a NUL has no zero among its bytes. -/
theorem zero_not_mem_toUTF8 {s : String} (hs : '\x00' ∉ s.toList) : (0 : UInt8) ∉ s.toUTF8.data.toList := by
  have hbytes : s.toUTF8.data.toList = s.toList.flatMap String.utf8EncodeChar := by
    rw [String.toUTF8_eq_toByteArray, ← String.utf8Encode_toList]
    simp [List.utf8Encode]
  rw [hbytes, List.mem_flatMap]
  rintro ⟨c, hc, h0⟩
  exact zero_not_mem_utf8EncodeChar (fun h => hs (h ▸ hc)) h0

/-- The bytes of a text are valid UTF-8 for this text. -/
theorem fromUTF8?_toUTF8 (s : String) : String.fromUTF8? s.toUTF8 = some s := by
  unfold String.fromUTF8?
  rw [String.toUTF8_eq_toByteArray, dif_pos s.isValidUTF8]
  rfl

/-- The first NUL behind bytes that are not zero. -/
theorem findNul_of_rest {source : Array UInt8} {body tail : List UInt8} {i : Nat} (h0 : (0 : UInt8) ∉ body)
    (h : source.toList.drop i = body ++ 0 :: tail) :
    ∀ count, body.length < count → findNul source count i = some (i + body.length) := by
  induction body generalizing i with
  | nil =>
    intro count hcount
    obtain ⟨count, rfl⟩ : ∃ n, count = n + 1 := ⟨count - 1, by simp at hcount; omega⟩
    have hi : source[i]? = some 0 := by
      rw [← Array.getElem?_toList, ← List.head?_drop, h]
      rfl
    rw [findNul, if_pos hi]
    rfl
  | cons b body ih =>
    intro count hcount
    obtain ⟨count, rfl⟩ : ∃ n, count = n + 1 := ⟨count - 1, by simp at hcount; omega⟩
    have hi : source[i]? = some b := by
      rw [← Array.getElem?_toList, ← List.head?_drop, h]
      rfl
    have hb : b ≠ 0 := fun hb => h0 (hb ▸ List.mem_cons_self)
    have htail : source.toList.drop (i + 1) = body ++ 0 :: tail := by
      rw [← List.tail_drop, h]
      rfl
    rw [findNul, hi, if_neg (by simpa using hb), ih (fun hm => h0 (List.mem_cons_of_mem _ hm)) htail]
    · simp only [List.length_cons]
      congr 1
      omega
    · simpa using hcount

/-- A text without a NUL is read back from its bytes. -/
theorem reads_text {s : String} (hs : '\x00' ∉ s.toList) : Reads ByteReader.text (textBytes s) s := by
  intro r tail hpos hr
  have hr' : r.source.toList.drop r.position = s.toUTF8.data.toList ++ 0 :: tail := by
    have : r.rest = s.toUTF8.data.toList ++ 0 :: tail := by rw [hr, textBytes, List.append_assoc]; rfl
    exact this
  have hlen : r.source.size - r.position = s.toUTF8.data.toList.length + (tail.length + 1) := by
    simpa using congrArg List.length hr'
  have hfind := findNul_of_rest (zero_not_mem_toUTF8 hs) hr' (r.source.size - r.position) (by omega)
  have hextract : r.source.extract r.position (r.position + s.toUTF8.data.toList.length) = s.toUTF8.data := by
    apply Array.toList_inj.1
    rw [Array.toList_extract, List.extract_eq_take_drop, Nat.add_sub_cancel_left]
    exact (congrArg (List.take s.toUTF8.data.toList.length) hr').trans List.take_left
  simp only [ByteReader.text, hfind, hextract]
  have hutf8 : String.fromUTF8? ⟨s.toUTF8.data⟩ = some s := fromUTF8?_toUTF8 s
  rw [hutf8]
  simp [textBytes, Nat.add_assoc]

/-- A list of texts without NUL is read back when its length is known. -/
theorem reads_texts {ss : List String} (hs : ∀ s ∈ ss, '\x00' ∉ s.toList) :
    Reads (ByteReader.texts ss.length) (ss.flatMap textBytes) ss := by
  induction ss with
  | nil => exact Reads.pure []
  | cons s ss ih =>
    have hrest := (ih fun t ht => hs t (List.mem_cons_of_mem _ ht)).map (s :: ·)
    exact (reads_text (hs s List.mem_cons_self)).bind hrest


/-! ## Instructions -/

namespace Instruction

/-- A text passes its check just if it has no NUL. -/
theorem checkString_eq_ok {s : String} : checkString s = .ok () ↔ '\x00' ∉ s.toList := by
  unfold checkString
  split <;> simp_all

/-- A list of texts passes its check just if none has a NUL. -/
theorem forM_checkString_eq_ok {ss : List String} : ss.forM checkString = .ok () ↔ ∀ s ∈ ss, '\x00' ∉ s.toList := by
  induction ss with
  | nil => exact iff_of_true rfl (by simp)
  | cons s ss ih =>
    rw [List.forall_mem_cons, ← checkString_eq_ok, ← ih]
    exact bind_eq_ok.trans ⟨fun ⟨_, hs, hrest⟩ => ⟨hs, hrest⟩, fun ⟨hs, hrest⟩ => ⟨(), hs, hrest⟩⟩

/-- A count passes its check just if it is within the limit. -/
theorem checkCount_eq_ok {what : String} {count limit : Nat} : checkCount what count limit = .ok () ↔ count ≤ limit := by
  unfold checkCount
  split <;> simp_all

/-- The texts of a checked instruction hold no NUL. -/
theorem strings_of_check {i : Instruction} (h : i.check = .ok ()) : ∀ s ∈ i.strings, '\x00' ∉ s.toList := by
  obtain ⟨_, hs, _⟩ := bind_eq_ok.1 h
  exact forM_checkString_eq_ok.1 hs

/-- The counts of a checked function fit their fields. -/
theorem counts_of_check {p : Prototype} (h : (makeFunction p).check = .ok ()) :
    p.params.length < UInt8.size ∧ p.captures.length < UInt32.size ∧ p.body.length < UInt32.size := by
  obtain ⟨_, _, h⟩ := bind_eq_ok.1 h
  obtain ⟨_, h1, h⟩ := bind_eq_ok.1 h
  obtain ⟨_, h2, h3⟩ := bind_eq_ok.1 h
  have b1 := checkCount_eq_ok.1 h1
  have b2 := checkCount_eq_ok.1 h2
  have b3 := checkCount_eq_ok.1 h3
  have e8 : UInt8.size = 256 := rfl
  have e32 : UInt32.size = 4294967296 := rfl
  omega

/-- The operands of a checked function are read back. -/
theorem reads_prototype {p : Prototype} (h : (makeFunction p).check = .ok ()) : Reads readPrototype p.operandBytes p := by
  have hs := strings_of_check h
  obtain ⟨hparams, hcaptures, hbody⟩ := counts_of_check h
  have hname : '\x00' ∉ p.name.toList := hs _ (by simp [strings])
  have hp : ∀ s ∈ p.params, '\x00' ∉ s.toList := fun s hm => hs s (by simp [strings, hm])
  have hc : ∀ s ∈ p.captures, '\x00' ∉ s.toList := fun s hm => hs s (by simp [strings, hm])
  have hu8 : Reads ByteReader.u8 (littleEndian 1 p.params.length) (UInt8.ofNat p.params.length) := by
    have h := reads_u8 (UInt8.ofNat p.params.length)
    have hb : littleEndian 1 p.params.length = [UInt8.ofNat p.params.length] := rfl
    rw [hb]
    exact h
  have hu32 : ∀ {n : Nat}, n < UInt32.size → Reads ByteReader.u32 (littleEndian 4 n) (UInt32.ofNat n) := by
    intro n hn
    have h := reads_u32 (UInt32.ofNat n)
    rw [UInt32.toNat_ofNat', Nat.mod_eq_of_lt hn] at h
    exact h
  have hasync : ((if p.isAsync then 1 else 0 : UInt8) != 0) = p.isAsync := by
    cases p.isAsync <;> rfl
  have hparams' : (UInt8.ofNat p.params.length).toNat = p.params.length := by
    rw [UInt8.toNat_ofNat', Nat.mod_eq_of_lt hparams]
  have hcaptures' : (UInt32.ofNat p.captures.length).toNat = p.captures.length := by
    rw [UInt32.toNat_ofNat', Nat.mod_eq_of_lt hcaptures]
  have hbody' : (UInt32.ofNat p.body.length).toNat = p.body.length := by
    rw [UInt32.toNat_ofNat', Nat.mod_eq_of_lt hbody]
  have hall := (reads_text hname).bind (f := fun name => do
      let paramCount ← ByteReader.u8
      let params ← ByteReader.texts paramCount.toNat
      let captureCount ← ByteReader.u32
      let captures ← ByteReader.texts captureCount.toNat
      let isAsync ← ByteReader.u8
      let bodyLength ← ByteReader.u32
      let body ← ByteReader.bytes bodyLength.toNat
      return (⟨name, params, captures, isAsync != 0, body⟩ : Prototype)) <|
    hu8.bind <| (hparams'.symm ▸ reads_texts hp).bind <| (hu32 hcaptures).bind <|
    (hcaptures'.symm ▸ reads_texts hc).bind <| (reads_u8 (if p.isAsync then 1 else 0)).bind <|
    (hu32 hbody).bind <| (hbody'.symm ▸ Reads.bytes p.body).bind <| Reads.pure _
  rw [hasync] at hall
  have hbytes : p.operandBytes = textBytes p.name ++ (littleEndian 1 p.params.length ++ (p.params.flatMap textBytes ++
      (littleEndian 4 p.captures.length ++ (p.captures.flatMap textBytes ++ ([if p.isAsync then 1 else 0] ++
      (littleEndian 4 p.body.length ++ (p.body ++ []))))))) := by
    simp [Prototype.operandBytes]
  rw [hbytes]
  exact hall

/-- The operands of a checked instruction are read back. -/
theorem reads_operands {i : Instruction} (h : i.check = .ok ()) : Reads (readOperands i.opcode) i.operandBytes i := by
  have hs := strings_of_check h
  cases i with
  | load c =>
    cases c with
    | null => exact Reads.pure _
    | bool b => cases b <;> exact Reads.pure _
    | num n =>
      cases n with
      | int n => exact (reads_i32 n).map _
      | int64 n => exact (reads_i64 n).map _
      | float x => exact (reads_float x).map _
      | double x => exact (reads_float x).map _
    | text s => exact (reads_text (hs s (by simp [strings]))).map _
    | error m => exact (reads_text (hs m (by simp [strings]))).map _
  | loadName s => exact (reads_text (hs s (by simp [strings]))).map _
  | storeName s => exact (reads_text (hs s (by simp [strings]))).map _
  | setName s => exact (reads_text (hs s (by simp [strings]))).map _
  | getMember s => exact (reads_text (hs s (by simp [strings]))).map _
  | binary op =>
    cases op with
    | arith op => cases op <;> exact Reads.pure _
    | order op => cases op <;> exact Reads.pure _
    | equal => exact Reads.pure _
    | notEqual => exact Reads.pure _
  | unary op => cases op <;> exact Reads.pure _
  | jump kind offset => cases kind <;> exact (reads_i32 offset).map _
  | buildArray n => exact (reads_u32 n).map _
  | buildMap n => exact (reads_u32 n).map _
  | iterNext arity offset => exact (reads_u8 arity).bind ((reads_i32 offset).map _)
  | call argc => exact (reads_u8 argc).map _
  | makeFunction p => exact (reads_prototype h).map _
  | pop => exact Reads.pure _
  | enterScope => exact Reads.pure _
  | exitScope => exact Reads.pure _
  | buildRange => exact Reads.pure _
  | index => exact Reads.pure _
  | getIter => exact Reads.pure _
  | ret => exact Reads.pure _

/-- A checked instruction is read back from its bytes. -/
theorem reads_encode {i : Instruction} (h : i.check = .ok ()) : Reads read i.encode i := by
  intro r tail hpos hr
  have hr' : r.rest = [i.opcode.toByte] ++ (i.operandBytes ++ tail) := hr
  have hbyte := reads_u8 i.opcode.toByte r _ hpos hr'
  have hop := reads_operands h _ tail (Reads.advance_le hpos hr') (ByteReader.rest_advance hr')
  have hread : read r = readOperands i.opcode { r with position := r.position + [i.opcode.toByte].length } := by
    simp only [read, bind, StateT.bind, get, getThe, MonadStateOf.get, StateT.get, pure, Except.pure, Except.bind, hbyte,
      Opcode.ofByte?_toByte]
  rw [hread, hop]
  simp only [encode, List.length_cons, List.length_nil]
  congr 3
  omega

/-- Where the bytes of a checked instruction stand in a code, they decode to it. -/
theorem decode_of_code {i : Instruction} (h : i.check = .ok ()) {code : Array UInt8} {pre post : List UInt8}
    (hcode : code.toList = pre ++ (i.encode ++ post)) : decode code pre.length = .ok (i, i.width) := by
  have hsize : pre.length ≤ code.size := by
    have := congrArg List.length hcode
    simp only [Array.length_toList, List.length_append] at this
    omega
  have hrest : (⟨code, pre.length⟩ : ByteReader).rest = i.encode ++ post := by
    rw [ByteReader.rest, hcode, List.drop_left]
  have hread := reads_encode h ⟨code, pre.length⟩ post hsize hrest
  change (read ⟨code, pre.length⟩ >>= fun p => Except.ok (p.1, p.2.position - pre.length)) = _
  rw [hread]
  change Except.ok (i, pre.length + i.encode.length - pre.length) = _
  rw [Nat.add_sub_cancel_left, width]

/-- An instruction has at least its opcode. -/
theorem width_pos (i : Instruction) : 0 < i.width := by
  simp [width, encode]

end Instruction

/-! ## Code -/

/-- The sizes of two pieces of code add up. -/
theorem codeSize_append (a b : List Instruction) : codeSize (a ++ b) = codeSize a + codeSize b := by
  induction a with
  | nil => simp [codeSize]
  | cons i a ih => simp [codeSize, ih, Nat.add_assoc]

theorem codeSize_singleton (i : Instruction) : codeSize [i] = i.width := rfl

/-- One more instruction takes its width more. -/
theorem codeSize_concat (code : List Instruction) (i : Instruction) : codeSize (code ++ [i]) = codeSize code + i.width :=
  codeSize_append code [i]

/-- Every kind of jump takes the same number of bytes. -/
theorem width_jump (kind : JumpKind) (d : Int32) : (Instruction.jump kind d).width = Fragment.jumpWidth := rfl

/-- An iteration step takes the same number of bytes, whatever its arity and distance. -/
theorem width_iterNext (arity : UInt8) (d : Int32) : (Instruction.iterNext arity d).width = Fragment.iterNextWidth := rfl

/-- The bytes of two pieces of code stand in sequence. -/
theorem encodeAll_append (a b : List Instruction) : encodeAll (a ++ b) = encodeAll a ++ encodeAll b :=
  List.flatMap_append

/-- The bytes of a piece of code are as many as its size. -/
theorem length_encodeAll (code : List Instruction) : (encodeAll code).length = codeSize code := by
  induction code with
  | nil => rfl
  | cons i code ih =>
    have h : encodeAll (i :: code) = i.encode ++ encodeAll code := List.flatMap_cons
    rw [h, List.length_append, ih, codeSize, Instruction.width]

/-! ## Fragments -/

/-- A distance that is in range is the number it stands for. -/
theorem jumpDistance_eq_ok {distance : Int} {d : Int32} (h : jumpDistance distance = .ok d) : d.toInt = distance := by
  unfold jumpDistance at h
  split at h
  · rename_i hf
    cases h
    have hb : -2 ^ 31 ≤ distance ∧ distance ≤ 2 ^ 31 - 1 := by simpa [fits32] using hf
    exact Int32.toInt_ofInt_of_le hb.1 (by omega)
  · nomatch h

/-- A distance fits its operand when it is one of 32 bits. -/
theorem exists_jumpDistance_iff {distance : Int} :
    (∃ d, jumpDistance distance = .ok d) ↔ -0x80000000 ≤ distance ∧ distance < 0x80000000 := by
  have hfits : fits32 distance = true ↔ -0x80000000 ≤ distance ∧ distance < 0x80000000 := by
    simp only [fits32, decide_eq_true_eq]
    omega
  unfold jumpDistance
  by_cases hf : fits32 distance = true
  · rw [if_pos hf]
    exact ⟨fun _ => hfits.1 hf, fun _ => ⟨_, rfl⟩⟩
  · rw [if_neg hf]
    exact ⟨fun ⟨_, h⟩ => (nomatch h), fun h => absurd (hfits.2 h) hf⟩

namespace Fragment

/-- The sizes of two fragments add up. -/
theorem size_append (f g : Fragment) : Fragment.size (f ++ g) = f.size + g.size := by
  induction f with
  | nil => simp [size]
  | cons item f ih => cases item <;> simp [size, ih, Nat.add_assoc]

/-- The fragment of a piece of code has the size of the code. -/
theorem size_ofCode (code : List Instruction) : (ofCode code).size = codeSize code := by
  induction code with
  | nil => rfl
  | cons i code ih =>
    rw [codeSize, ← ih]
    rfl

/-- Resolving changes no size. -/
theorem codeSize_of_resolve {f : Fragment} {beyond : Nat} {code : List Instruction} (h : f.resolve beyond = .ok code) :
    codeSize code = f.size := by
  induction f generalizing code with
  | nil =>
    cases h
    rfl
  | cons item f ih =>
    cases item with
    | done i =>
      obtain ⟨rest, hr, h⟩ := bind_eq_ok.1 h
      cases h
      rw [codeSize, size, ih hr]
    | pending kind =>
      obtain ⟨d, _, h⟩ := bind_eq_ok.1 h
      obtain ⟨rest, hr, h⟩ := bind_eq_ok.1 h
      cases h
      rw [codeSize, size, ih hr]
      rfl

/-- The first part of a fragment jumps over the second one. -/
theorem resolve_append {f g : Fragment} {beyond : Nat} {code : List Instruction} (h : resolve beyond (f ++ g) = .ok code) :
    ∃ a b, f.resolve (g.size + beyond) = .ok a ∧ g.resolve beyond = .ok b ∧ code = a ++ b := by
  induction f generalizing code with
  | nil => exact ⟨[], code, rfl, h, rfl⟩
  | cons item f ih =>
    cases item with
    | done i =>
      obtain ⟨rest, hr, h⟩ := bind_eq_ok.1 h
      obtain ⟨a, b, ha, hb, rfl⟩ := ih hr
      cases h
      exact ⟨i :: a, b, by rw [resolve, ha]; rfl, hb, rfl⟩
    | pending kind =>
      obtain ⟨d, hd, h⟩ := bind_eq_ok.1 h
      obtain ⟨rest, hr, h⟩ := bind_eq_ok.1 h
      obtain ⟨a, b, ha, hb, rfl⟩ := ih hr
      cases h
      refine ⟨.jump kind d :: a, b, ?_, hb, rfl⟩
      have hsize : ((size (f ++ g) : Nat) : Int) + beyond = (size f : Nat) + ((g.size + beyond : Nat) : Int) := by
        rw [size_append]
        omega
      change jumpDistance ((size (f ++ g) : Nat) + beyond) = .ok d at hd
      rw [hsize] at hd
      rw [resolve, hd, ha]
      rfl

/-- A fragment without open jumps resolves to its code. -/
theorem resolve_ofCode (code : List Instruction) (beyond : Nat) : (ofCode code).resolve beyond = .ok code := by
  induction code with
  | nil => rfl
  | cons i code ih =>
    change (do return i :: (← resolve beyond (ofCode code))) = _
    rw [ih]
    rfl

end Fragment

/-! ## Modules -/

/-- An encoded module is its header of sixteen bytes and the payload. -/
theorem Image.length_encode (m : Image) : m.encode.length = 16 + m.payload.length := by
  simp only [Image.encode, List.length_append, length_littleEndian]

/-- A module is read back from its bytes. -/
theorem Image.decode_encode {m : Image} (hp : '\x00' ∉ m.path.toList) (hn : '\x00' ∉ m.name.toList)
    (hl : m.encode.length < UInt64.size) : Image.decode m.encode = .ok m := by
  have hlen := m.length_encode
  have hsize : 16 + m.payload.length < 256 ^ 8 := by
    rw [← hlen]
    exact hl
  have hrest : (⟨m.encode.toArray, 0⟩ : ByteReader).rest = littleEndian 4 magic ++ (littleEndian 4 version ++
      (littleEndian 8 (16 + m.payload.length) ++ (textBytes m.path ++ (textBytes m.name ++ m.code)))) := by
    simp [ByteReader.rest, Image.encode, Image.payload]
  have hread : ∃ r', Image.read m.encode.length ⟨m.encode.toArray, 0⟩ = .ok (m, r') := by
    unfold Image.read
    obtain ⟨r₁, he₁, hp₁, hr₁⟩ := (reads_number 4 (n := magic) (by decide)).bind_apply (Nat.zero_le _) hrest
    rw [he₁]
    obtain ⟨r₂, he₂, hp₂, hr₂⟩ := (reads_number 4 (n := version) (by decide)).bind_apply hp₁ hr₁
    simp only [ne_eq, not_true_eq_false, if_false]
    rw [he₂]
    obtain ⟨r₃, he₃, hp₃, hr₃⟩ := (reads_number 8 hsize).bind_apply hp₂ hr₂
    rw [he₃]
    have h0 : ¬16 + m.payload.length = 0 := by omega
    simp only [h0, hlen, not_true_eq_false, if_false]
    obtain ⟨r₄, he₄, hp₄, hr₄⟩ := (reads_text hp).bind_apply hp₃ hr₃
    rw [he₄]
    obtain ⟨r₅, he₅, hp₅, hr₅⟩ := (reads_text hn).bind_apply hp₄ hr₄
    rw [he₅]
    refine ⟨r₅, ?_⟩
    change Except.ok ((⟨m.path, m.name, r₅.rest⟩ : Image), r₅) = _
    rw [hr₅]
  obtain ⟨r', hr⟩ := hread
  rw [Image.decode, hr]
  rfl

end ScriptVM
