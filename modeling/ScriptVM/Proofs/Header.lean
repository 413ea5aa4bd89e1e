import ScriptVM.Proofs.RoundTrip

/-!
# The grammar of images

The bytes that are read as an image are exactly those that its grammar writes (`Image.Written`): the magic number, the version, the
number of all bytes, the two texts with their closing NULs, and the code. So different bytes are never read as the same image, and
an image that a buffer has collected, its size filled in at the end, is read back (`Image.decode_iff_written`).
-/

namespace ScriptVM

/-- The bytes of an image: the magic number, the version 1, a field of eight bytes with the number of all bytes, the path and the
name, both without a NUL and with one behind them, and then the code. -/
def Image.Written (m : Image) (bytes : List UInt8) : Prop :=
  ∃ size : List UInt8, size.length = 8 ∧ ofLittleEndian size = bytes.length ∧ '\x00' ∉ m.path.toList ∧ '\x00' ∉ m.name.toList ∧
    bytes = littleEndian 4 magic ++ littleEndian 4 1 ++ size ++ (m.path.toUTF8.data.toList ++ [0]) ++
      (m.name.toUTF8.data.toList ++ [0]) ++ m.code

/-! ## Texts that are read -/

/-- The NUL that is found is the first one. -/
theorem findNul_first {source : Array UInt8} {count i stop : Nat} (h : findNul source count i = some stop) :
    ∀ j, i ≤ j → j < stop → source[j]? ≠ some 0 := by
  induction count generalizing i with
  | zero => cases h
  | succ count ih =>
    rw [findNul] at h
    split at h
    · cases h
      intro j hij hji
      omega
    · rename_i hne
      intro j hij hjs
      rcases Nat.eq_or_lt_of_le hij with rfl | hlt
      · exact hne
      · exact ih h j hlt hjs

/-- The NUL is written as a zero. -/
theorem zero_mem_toUTF8 {s : String} (hs : '\x00' ∈ s.toList) : (0 : UInt8) ∈ s.toUTF8.data.toList := by
  have hbytes : s.toUTF8.data.toList = s.toList.flatMap String.utf8EncodeChar := by
    rw [String.toUTF8_eq_toByteArray, ← String.utf8Encode_toList]
    simp [List.utf8Encode]
  rw [hbytes, List.mem_flatMap]
  exact ⟨'\x00', hs, by decide⟩

/-- A text that is read ends before its closing NUL. -/
theorem nul_not_mem_of_text {r r' : ByteReader} {s : String} (h : ByteReader.text r = .ok (s, r')) : '\x00' ∉ s.toList := by
  unfold ByteReader.text at h
  split at h
  · cases h
  · rename_i stop hfind
    split at h
    · cases h
    · rename_i hutf8
      cases h
      intro hnul
      have hzero := zero_mem_toUTF8 hnul
      rw [toUTF8_of_fromUTF8? hutf8] at hzero
      obtain ⟨i, hi, heq⟩ := Array.mem_iff_getElem.1 (Array.mem_toList_iff.1 hzero)
      rw [Array.size_extract] at hi
      refine findNul_first hfind (r.position + i) (Nat.le_add_right _ _) (by omega) ?_
      rw [Array.getElem_extract] at heq
      rw [Array.getElem?_eq_getElem (by omega), heq]

/-! ## Images that are read -/

/-- What a read leaves is behind the bytes that it went over. -/
theorem Takes.rest {α : Type} {x : ReadM α} {R : List UInt8 → α → Prop} (hx : Takes x R) {r r' : ByteReader} {a : α}
    (h : x r = .ok (a, r')) : ∃ taken, R taken a ∧ r.rest = taken ++ r'.rest := by
  obtain ⟨taken, tail, hrest, rfl, hR⟩ := hx r a r' h
  exact ⟨taken, hR, by rw [ByteReader.rest_advance hrest, hrest]⟩

namespace ByteReader

variable {α β : Type} {r r' : ByteReader} {b : β}

/-- Two reads in sequence succeed just if both do. -/
theorem bind_eq_ok {x : ReadM α} {f : α → ReadM β} :
    (x >>= f) r = .ok (b, r') ↔ ∃ a r₁, x r = .ok (a, r₁) ∧ f a r₁ = .ok (b, r') := by
  have hparts : (x >>= f) r = (x r >>= fun q => f q.1 q.2) := rfl
  rw [hparts, ScriptVM.bind_eq_ok, Prod.exists]

/-- A read behind a check succeeds when nothing is found wrong. -/
theorem guard_eq_ok {wrong : Prop} [Decidable wrong] {e : BytecodeError} {f : Unit → ReadM β} :
    (if wrong then throw e >>= f else f ()) r = .ok (b, r') ↔ ¬wrong ∧ f () r = .ok (b, r') := by
  by_cases h : wrong
  · rw [if_pos h]
    exact ⟨nofun, fun hn => absurd h hn.1⟩
  · rw [if_neg h]
    exact ⟨fun hf => ⟨h, hf⟩, And.right⟩

end ByteReader

namespace Image

/-- What is read as an image is its header with the size that was expected, and then its code. -/
theorem rest_of_read {length : Nat} {r r' : ByteReader} {m : Image} (h : read length r = .ok (m, r')) :
    '\x00' ∉ m.path.toList ∧ '\x00' ∉ m.name.toList ∧ length < 256 ^ 8 ∧
      r.rest = littleEndian 4 magic ++ (littleEndian 4 version ++ (littleEndian 8 length ++
        (textBytes m.path ++ (textBytes m.name ++ m.code)))) := by
  unfold read at h
  obtain ⟨readMagic, r₁, h₁, h⟩ := ByteReader.bind_eq_ok.1 h
  obtain ⟨hmagic, h⟩ := ByteReader.guard_eq_ok.1 h
  obtain ⟨readVersion, r₂, h₂, h⟩ := ByteReader.bind_eq_ok.1 h
  obtain ⟨size, r₃, h₃, h⟩ := ByteReader.bind_eq_ok.1 h
  obtain ⟨-, h⟩ := ByteReader.guard_eq_ok.1 h
  obtain ⟨hsize, h⟩ := ByteReader.guard_eq_ok.1 h
  obtain ⟨hversion, h⟩ := ByteReader.guard_eq_ok.1 h
  obtain ⟨path, r₄, h₄, h⟩ := ByteReader.bind_eq_ok.1 h
  obtain ⟨name, r₅, h₅, h⟩ := ByteReader.bind_eq_ok.1 h
  cases h
  obtain ⟨_, ⟨rfl, -⟩, hrest₁⟩ := (takes_number 4).rest h₁
  obtain ⟨_, ⟨rfl, -⟩, hrest₂⟩ := (takes_number 4).rest h₂
  obtain ⟨_, ⟨rfl, hlt⟩, hrest₃⟩ := (takes_number 8).rest h₃
  obtain ⟨_, rfl, hrest₄⟩ := takes_text.rest h₄
  obtain ⟨_, rfl, hrest₅⟩ := takes_text.rest h₅
  obtain rfl : readMagic = magic := Decidable.not_not.1 hmagic
  obtain rfl : size = length := Decidable.not_not.1 hsize
  obtain rfl : readVersion = version := Decidable.not_not.1 hversion
  exact ⟨nul_not_mem_of_text h₄, nul_not_mem_of_text h₅, hlt, by rw [hrest₁, hrest₂, hrest₃, hrest₄, hrest₅]⟩

/-- The bytes of the grammar are those of `Image.encode`. -/
theorem written_iff {m : Image} {bytes : List UInt8} :
    m.Written bytes ↔ '\x00' ∉ m.path.toList ∧ '\x00' ∉ m.name.toList ∧ m.encode.length < UInt64.size ∧ bytes = m.encode := by
  have hlen := m.length_encode
  constructor
  · rintro ⟨size, hsize, hcount, hpath, hname, hbytes⟩
    have hwhole : bytes.length = 16 + m.payload.length := by
      simp only [hbytes, List.length_append, length_littleEndian, hsize, payload, textBytes]
      omega
    have hbound := ofLittleEndian_lt size
    have hfield := littleEndian_ofLittleEndian size
    rw [hsize, hcount, hwhole] at hbound hfield
    refine ⟨hpath, hname, hlen ▸ hbound, ?_⟩
    rw [encode, hfield, hbytes]
    simp only [payload, textBytes, version, List.append_assoc]
  · rintro ⟨hpath, hname, hbound, rfl⟩
    refine ⟨littleEndian 8 (16 + m.payload.length), length_littleEndian _ _, ?_, hpath, hname, ?_⟩
    · rw [hlen] at hbound ⊢
      exact ofLittleEndian_littleEndian hbound
    · simp only [encode, payload, textBytes, version, List.append_assoc]

/-- An image is read from its own bytes only. -/
theorem decode_eq_ok {m : Image} {bytes : List UInt8} :
    decode bytes = .ok m ↔ '\x00' ∉ m.path.toList ∧ '\x00' ∉ m.name.toList ∧ m.encode.length < UInt64.size ∧ bytes = m.encode := by
  constructor
  · intro h
    obtain ⟨r', hread⟩ : ∃ r', read bytes.length ⟨bytes.toArray, 0⟩ = .ok (m, r') := by
      unfold decode at h
      cases hread : read bytes.length ⟨bytes.toArray, 0⟩ with
      | error e => rw [hread] at h; nomatch h
      | ok q =>
        rw [hread] at h
        cases h
        exact ⟨q.2, rfl⟩
    obtain ⟨hpath, hname, hbound, hrest⟩ := rest_of_read hread
    have hbytes : bytes = littleEndian 4 magic ++ (littleEndian 4 version ++ (littleEndian 8 bytes.length ++ m.payload)) := by
      simpa [ByteReader.rest, payload] using hrest
    have hlen : bytes.length = 16 + m.payload.length := by
      have hcount := congrArg List.length hbytes
      simp only [List.length_append, length_littleEndian] at hcount
      omega
    have hencode : bytes = m.encode := by
      rw [encode, ← hlen, List.append_assoc, List.append_assoc]
      exact hbytes
    exact ⟨hpath, hname, hencode ▸ hbound, hencode⟩
  · rintro ⟨hpath, hname, hbound, rfl⟩
    exact decode_encode hpath hname hbound

end Image

/-! ## Images that a buffer collects -/

/-- What stands in front of the texts of an image before its size is known. -/
def Image.reservedHead : List UInt8 := littleEndian 4 magic ++ littleEndian 4 version ++ littleEndian 8 0

/-- What is reserved ends where the field of the size does. -/
theorem Image.length_reservedHead : reservedHead.length = CodeBuffer.sizeField + 8 := by decide

/-- A text without a NUL is appended. -/
theorem BufferM.appendText_eq_ok {t : String} (ht : '\x00' ∉ t.toList) (b : CodeBuffer) :
    appendText t b = .ok () (b.append (textBytes t)) := by
  simp only [appendText, Instruction.checkString_eq_ok.2 ht]
  rfl

/-- A header of texts without a NUL is appended, with zero for the size. -/
theorem BufferM.appendHeader_eq_ok {path name : String} (hpath : '\x00' ∉ path.toList) (hname : '\x00' ∉ name.toList) (b : CodeBuffer) :
    appendHeader path name b = .ok () ⟨b.bytes ++ Image.reservedHead ++ textBytes path ++ textBytes name⟩ := by
  change EStateM.bind (appendText path) (fun _ => appendText name) _ = _
  rw [EStateM.bind, appendText_eq_ok hpath]
  exact appendText_eq_ok hname _

namespace CodeBuffer

/-- A collected image has as many bytes as the encoded one. -/
theorem size_reserved (m : Image) : (⟨Image.reservedHead ++ m.payload⟩ : CodeBuffer).size = m.encode.length := by
  rw [size, List.length_append, Image.length_reservedHead, Image.length_encode]
  rfl

/-- A buffer that began with a header holds an image once its size is filled in. -/
theorem bytes_patchSize (m : Image) : (patchSize ⟨Image.reservedHead ++ m.payload⟩).bytes = m.encode := by
  have hfront : (Image.reservedHead ++ m.payload).take sizeField = littleEndian 4 Image.magic ++ littleEndian 4 Image.version := by
    rw [List.take_append_of_le_length (by rw [Image.length_reservedHead]; omega)]
    decide
  have hback : (Image.reservedHead ++ m.payload).drop (sizeField + 8) = m.payload := by
    rw [← Image.length_reservedHead]
    exact List.drop_left
  rw [patchSize, size_reserved, Image.length_encode, overwriteNumber, overwrite, length_littleEndian, hfront, hback]
  rfl

end CodeBuffer

/-- An image is read exactly from the bytes that the grammar writes, so from one byte string alone; and a buffer that began with a
header, with code behind it and its size filled in, holds an image of these texts and this code. -/
theorem Image.decode_iff_written :
    (∀ (bytes : List UInt8) (path name : String) (code : List UInt8),
      Image.decode bytes = .ok ⟨path, name, code⟩ ↔ Image.Written ⟨path, name, code⟩ bytes) ∧
    (∀ (bytes bytes' : List UInt8) (m : Image), Image.decode bytes = .ok m → Image.decode bytes' = .ok m → bytes = bytes') ∧
    ∀ (path name : String) (code : List UInt8), '\x00' ∉ path.toList → '\x00' ∉ name.toList →
      ∃ header, BufferM.appendHeader path name {} = .ok () header ∧
        ((header.append code).size < UInt64.size →
          Image.decode (header.append code).patchSize.bytes = .ok ⟨path, name, code⟩) := by
  refine ⟨fun bytes path name code => Image.decode_eq_ok.trans Image.written_iff.symm, fun bytes bytes' m h h' => ?_, ?_⟩
  · obtain ⟨-, -, -, rfl⟩ := Image.decode_eq_ok.1 h
    obtain ⟨-, -, -, rfl⟩ := Image.decode_eq_ok.1 h'
    rfl
  · intro path name code hpath hname
    refine ⟨_, BufferM.appendHeader_eq_ok hpath hname {}, fun hbound => ?_⟩
    have hcollected : (⟨[] ++ reservedHead ++ textBytes path ++ textBytes name⟩ : CodeBuffer).append code =
        ⟨reservedHead ++ payload ⟨path, name, code⟩⟩ := by
      simp only [CodeBuffer.append, payload, List.nil_append, List.append_assoc]
    rw [hcollected] at hbound ⊢
    rw [CodeBuffer.bytes_patchSize]
    rw [CodeBuffer.size_reserved] at hbound
    exact decode_encode hpath hname hbound

/-- The header of the module `main` in a file with an accent, and code that returns null. -/
theorem Image.decode_iff_written_accentSample :
    '\x00' ∉ "café.vs".toList ∧ '\x00' ∉ "main".toList ∧
      ∃ header, BufferM.appendHeader "café.vs" "main" {} = .ok () header ∧
        (header.append (encodeAll Compile.returnNull)).size < UInt64.size ∧
        Image.decode (header.append (encodeAll Compile.returnNull)).patchSize.bytes =
          .ok ⟨"café.vs", "main", encodeAll Compile.returnNull⟩ := by
  have hpath : '\x00' ∉ "café.vs".toList := by decide
  have hname : '\x00' ∉ "main".toList := by decide
  obtain ⟨header, hheader, hdecode⟩ := Image.decode_iff_written.2.2 "café.vs" "main" (encodeAll Compile.returnNull) hpath hname
  have hbound : (header.append (encodeAll Compile.returnNull)).size < UInt64.size := by
    rw [BufferM.appendHeader_eq_ok hpath hname] at hheader
    cases hheader
    decide
  exact ⟨hpath, hname, header, hheader, hbound, hdecode hbound⟩

end ScriptVM
