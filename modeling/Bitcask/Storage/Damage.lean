import Bitcask.Storage.Crc32
import Bitcask.Storage.IndexValue

/-!
# Damaged records

What the two decoders make of bytes that are no record.

1. `bit_flip_rejected`: a record with one bit flipped decodes to nothing, whatever follows it. In the
   checksum field and in the body the checksum tells; in the length field it covers other bytes than
   it did, and the end of the fields tells (`framed_flip`).
2. `eof_means_incomplete`: an unexpected end means that bytes are missing exactly if the lengths
   inside a record do not point past the end of the buffer. If they do, a complete record is taken
   for one that is cut off (`complete_record_ends_early`).
-/

namespace Bitcask

open LittleEndian BytesUtil

/-! ## One bit flipped -/

/-- The bytes with bit `n` flipped: bit `n % 8` of byte `n / 8`. -/
def flipBit (b : Bytes) (n : ℕ) : Bytes :=
  b.modify (n / 8) fun x => x ^^^ (1 <<< UInt8.ofNat (n % 8))

theorem xor_bit_ne (x : UInt8) {k : ℕ} (h : k < 8) : x ≠ x ^^^ (1 <<< UInt8.ofNat k) := by
  have hne : ∀ k < 8, (1 : UInt8) <<< UInt8.ofNat k ≠ 0 := by decide
  intro he
  have hzero : (1 : UInt8) <<< UInt8.ofNat k = 0 := by
    calc (1 : UInt8) <<< UInt8.ofNat k = x ^^^ (x ^^^ (1 <<< UInt8.ofNat k)) := by
          rw [← UInt8.xor_assoc, UInt8.xor_self, UInt8.zero_xor]
      _ = 0 := by rw [← he, UInt8.xor_self]
  exact hne k h hzero

/-- A flip changes one byte. -/
theorem flipBit_eq {b : Bytes} {n : ℕ} (h : n < 8 * b.length) :
    ∃ x y a a', a ≠ a' ∧ b = x ++ a :: y ∧ flipBit b n = x ++ a' :: y := by
  have hlt : n / 8 < b.length := by omega
  refine ⟨b.take (n / 8), b.drop (n / 8 + 1), b[n / 8], _, xor_bit_ne _ (Nat.mod_lt n (by decide)),
    ?_, ?_⟩
  · rw [List.getElem_cons_drop, List.take_append_drop]
  · exact List.modify_eq_take_cons_drop hlt

/-! ## Records of both kinds -/

/-- A record: the checksum of the length field and the body, the length field, and the body. -/
def framed (crc : Bytes → UInt32) (body : Bytes) : Bytes :=
  toLe 4 (crc (toLe 4 body.length ++ body)).toNat ++ (toLe 4 body.length ++ body)

theorem Command.serialize_eq_framed (crc : Bytes → UInt32) (c : Command) :
    c.serialize crc = framed crc c.writeBody := by
  unfold framed Command.serialize Command.checked
  rw [Command.length_writeBody]

/-- The body of a hint record. -/
def IndexValue.body (iv : IndexValue) (key : Bytes) : Bytes :=
  toLe 4 key.length ++ key ++ iv.position

theorem IndexValue.length_body (iv : IndexValue) (key : Bytes) :
    (iv.body key).length = encodedBodyLen key := by
  unfold IndexValue.body encodedBodyLen keyLenLen
  rw [List.length_append, List.length_append, length_toLe, length_position]

theorem IndexValue.serialize_eq_framed (crc : Bytes → UInt32) (iv : IndexValue) (key : Bytes) :
    iv.serialize crc key = framed crc (iv.body key) := by
  unfold framed IndexValue.serialize IndexValue.checked
  rw [IndexValue.length_body]
  rfl

theorem length_framed (crc : Bytes → UInt32) (body : Bytes) :
    (framed crc body).length = 8 + body.length := by
  unfold framed
  rw [List.length_append, List.length_append, length_toLe, length_toLe]
  omega

theorem take_framed (crc : Bytes → UInt32) (body rest : Bytes) :
    (framed crc body ++ rest).take 8 =
      toLe 4 (crc (toLe 4 body.length ++ body)).toNat ++ toLe 4 body.length := by
  unfold framed
  rw [← List.append_assoc, List.append_assoc]
  exact List.take_left' (by simp)

theorem drop_framed (crc : Bytes → UInt32) (body : Bytes) : (framed crc body).drop 8 = body := by
  unfold framed
  rw [← List.append_assoc]
  exact List.drop_left' (by simp)

theorem toLe_crc_inj {a b : UInt32} (h : toLe 4 a.toNat = toLe 4 b.toNat) : a = b :=
  UInt32.toNat_inj.mp (toLe_inj a.toNat_lt b.toNat_lt h)

section Flip

variable {body body' rest x y : Bytes} {a a' : UInt8}

theorem take_of_le {k : ℕ} (h : k ≤ x.length) (z z' : Bytes) : (x ++ z).take k = (x ++ z').take k := by
  rw [List.take_append_of_le_length h, List.take_append_of_le_length h]

theorem drop_of_lt {k : ℕ} (h : x.length < k) (b b' : UInt8) (z : Bytes) :
    (x ++ b :: z).drop k = (x ++ b' :: z).drop k := by
  obtain ⟨j, rfl⟩ := Nat.exists_eq_add_of_lt h
  rw [Nat.add_assoc, List.drop_append, List.drop_append]
  simp

/-- A record and one with a byte changed have different lengths or are no record. -/
theorem framed_ne (hne : a ≠ a') (hlen : body'.length = body.length)
    (h : framed crc32 body = x ++ a :: y) : framed crc32 body' ≠ x ++ a' :: y := by
  intro h'
  unfold framed at h h'
  rw [hlen] at h'
  by_cases hx : x.length < 4
  · -- the rest of the record is the same, so the checksum is
    have hrest := drop_of_lt hx a a' y
    rw [← h, ← h', List.drop_left' (length_toLe ..), List.drop_left' (length_toLe ..)] at hrest
    rw [← hrest, h] at h'
    exact hne (List.cons.inj (List.append_cancel_left h')).1
  · -- the checksum is the same, though a byte that it covers is not
    obtain ⟨z, hz, w, rfl⟩ : ∃ z, z.length = 4 ∧ ∃ w, x = z ++ w :=
      ⟨x.take 4, by simp; omega, x.drop 4, (List.take_append_drop 4 x).symm⟩
    rw [List.append_assoc] at h h'
    obtain ⟨h1, h2⟩ := List.append_inj h (by rw [length_toLe, hz])
    obtain ⟨h1', h2'⟩ := List.append_inj h' (by rw [length_toLe, hz])
    have hcrc := toLe_crc_inj (h1.trans h1'.symm)
    rw [h2, h2'] at hcrc
    exact crc32_ne hne w y hcrc

/-- What decodes at the front of a record with a byte changed has another length, and its fields are
those of the record. -/
theorem framed_flip (hne : a ≠ a') (hb : body.length < 2 ^ 32) (hb' : body'.length < 2 ^ 32)
    (h : framed crc32 body = x ++ a :: y) (h' : framed crc32 body' <+: x ++ a' :: y ++ rest) :
    body'.length ≠ body.length ∧ body' <+: body ++ rest := by
  have hlens : (x ++ a' :: y).length = (framed crc32 body).length := by rw [h]; simp
  have hlen : body'.length ≠ body.length := by
    intro hlen
    refine framed_ne hne hlen h (List.IsPrefix.eq_of_length_le
      (List.prefix_of_prefix_length_le h' (List.prefix_append ..) ?_) ?_)
    all_goals rw [hlens, length_framed, length_framed, hlen]
  refine ⟨hlen, ?_⟩
  have hx : x.length < 8 := by
    -- otherwise the length fields are the same
    by_contra hx
    obtain ⟨t, ht⟩ := h'
    have htake := take_of_le (Nat.not_lt.mp hx) (a :: y ++ rest) (a' :: y ++ rest)
    rw [← List.append_assoc, ← List.append_assoc, ← h, ← ht, take_framed, take_framed] at htake
    have hfield := (List.append_inj htake (by simp)).2
    exact hlen (toLe_inj hb' hb hfield.symm)
  have hdrop : (x ++ a' :: y ++ rest).drop 8 = body ++ rest := by
    rw [List.drop_append_of_le_length (by rw [hlens, length_framed]; omega), drop_of_lt hx a' a y, ← h,
      drop_framed]
  have := h'.drop 8
  rwa [drop_framed, hdrop] at this

end Flip

/-- A body tells where it ends: no two commands have bodies at the front of the same bytes. -/
theorem Command.eq_of_writeBody_prefix {c c' : Command} {buf : Bytes} (hc : c.FieldsFit)
    (hc' : c'.FieldsFit) (h : c.writeBody <+: buf) (h' : c'.writeBody <+: buf) : c = c' := by
  have hread : ∀ {d : Command}, d.FieldsFit → d.writeBody <+: buf →
      Command.readBody buf 0 = .ok (d, d.encodedBodyLen) := by
    intro d hd hp
    have hlen := hp.length_le
    rw [Command.length_writeBody] at hlen
    rw [Command.readBody_eq_ok (by decide), Nat.zero_add]
    refine ⟨hd, rfl, hlen, ?_⟩
    rw [slice, List.drop_zero, ← Command.length_writeBody]
    exact (List.prefix_iff_eq_take.mp hp).symm
  have := (hread hc h).symm.trans (hread hc' h')
  simp only [Except.ok.injEq, Prod.mk.injEq] at this
  exact this.1

theorem Command.flip_rejected {c : Command} (hc : c.Fits) (rest : Bytes) {n : ℕ}
    (hn : n < 8 * (c.serialize crc32).length) :
    ∃ e, Command.deserialize crc32 (flipBit (c.serialize crc32) n ++ rest) = .error e := by
  obtain ⟨x, y, a, a', hne, hrec, hflip⟩ := flipBit_eq hn
  rw [hflip]
  apply exists_error
  rintro ⟨c', m⟩ hd
  obtain ⟨hc', -, -, htake⟩ := (Command.deserialize_eq_ok crc32).mp hd
  have hpre : c'.serialize crc32 <+: x ++ a' :: y ++ rest := htake ▸ List.take_prefix ..
  rw [Command.serialize_eq_framed] at hrec hpre
  obtain ⟨hlen, hbody⟩ := framed_flip hne (by rwa [Command.length_writeBody])
    (by rwa [Command.length_writeBody]) hrec hpre
  have hcc : c = c' := Command.eq_of_writeBody_prefix hc.fields hc'.fields (List.prefix_append ..) hbody
  exact hlen (by rw [hcc])

theorem IndexValue.flip_rejected (iv : IndexValue) {key : Bytes} (hk : encodedBodyLen key < 2 ^ 32)
    (f : ℕ) (rest : Bytes) {n : ℕ} (hn : n < 8 * (iv.serialize crc32 key).length) :
    ∃ e, IndexValue.deserialize crc32 (flipBit (iv.serialize crc32 key) n ++ rest) f = .error e := by
  obtain ⟨x, y, a, a', hne, hrec, hflip⟩ := flipBit_eq hn
  rw [hflip]
  apply exists_error
  rintro ⟨key', iv', m⟩ hd
  obtain ⟨-, -, hk', -, -, htake⟩ := (IndexValue.deserialize_eq_ok crc32).mp hd
  have hpre : iv'.serialize crc32 key' <+: x ++ a' :: y ++ rest := htake ▸ List.take_prefix ..
  rw [IndexValue.serialize_eq_framed] at hrec hpre
  obtain ⟨hlen, hbody⟩ := framed_flip hne (by rwa [IndexValue.length_body])
    (by rwa [IndexValue.length_body]) hrec hpre
  -- both bodies start with the length of the key, and that is all their length depends on
  have hkeys : toLe 4 key'.length = toLe 4 key.length := by
    obtain ⟨t, ht⟩ := hbody
    unfold IndexValue.body at ht
    simp only [List.append_assoc] at ht
    exact (List.append_inj ht (by simp)).1
  unfold encodedBodyLen keyLenLen indexValueLen at hk hk'
  have hkey : key'.length = key.length := toLe_inj (by omega) (by omega) hkeys
  rw [IndexValue.length_body, IndexValue.length_body] at hlen
  exact hlen (by unfold encodedBodyLen; rw [hkey])

/-- Every flip of one bit of a record is rejected, whatever follows the record: in the log records of
all commands and in the hint records of all entries. -/
theorem bit_flip_rejected :
    (∀ c : Command, c.Fits → ∀ rest n, n < 8 * (c.serialize crc32).length →
      ∃ e, Command.deserialize crc32 (flipBit (c.serialize crc32) n ++ rest) = .error e) ∧
    ∀ (iv : IndexValue) (key : Bytes), IndexValue.encodedBodyLen key < 2 ^ 32 → ∀ f rest n,
      n < 8 * (iv.serialize crc32 key).length →
      ∃ e, IndexValue.deserialize crc32 (flipBit (iv.serialize crc32 key) n ++ rest) f = .error e :=
  ⟨fun _ hc rest _ hn => Command.flip_rejected hc rest hn,
    fun iv _ hk f rest _ hn => IndexValue.flip_rejected iv hk f rest hn⟩

/-! ## What an unexpected end means -/

/-- The record at the front of the buffer is not there as a whole. -/
def Incomplete (buf : Bytes) : Prop :=
  buf.length < headerLen ∨ buf.length < headerLen + Command.bodyLen buf

instance : DecidablePred Incomplete := fun buf => inferInstanceAs
  (Decidable (buf.length < headerLen ∨ buf.length < headerLen + Command.bodyLen buf))

/-- The stored checksum is that of the bytes it covers. -/
def CrcMatches (crc : Bytes → UInt32) (buf : Bytes) : Prop :=
  crc (slice buf crcLen (headerLen + Command.bodyLen buf)) = UInt32.ofNat (ofLe (slice buf 0 crcLen))

instance (crc : Bytes → UInt32) : DecidablePred (CrcMatches crc) := fun buf => inferInstanceAs
  (Decidable (crc (slice buf crcLen (headerLen + Command.bodyLen buf)) =
    UInt32.ofNat (ofLe (slice buf 0 crcLen))))

/-- The result is an `Io` error of the kind `UnexpectedEof`. -/
def IsEof {α : Type} (r : Except KvsError α) : Prop := ∃ msg, r = .error (.io ⟨.unexpectedEof, msg⟩)

/-- The length field at a position. -/
def lenAt (buf : Bytes) (i : ℕ) : ℕ := ofLe (slice buf i (i + 4))

/-- The type that the type byte of a log record stands for. -/
def Command.typeOf (buf : Bytes) : Except KvsError CommandType :=
  CommandType.tryFrom (buf.getD 16 0)

/-- Where the fields of a log record end, by the lengths inside it. -/
def Command.fieldsEnd (buf : Bytes) : CommandType → ℕ
  | .set => 25 + lenAt buf 17 + lenAt buf (21 + lenAt buf 17)
  | .rm => 21 + lenAt buf 17

/-- The fields of a log record lie inside the buffer. -/
def Command.FieldsInside (buf : Bytes) : Prop :=
  17 ≤ buf.length ∧ ∀ t, Command.typeOf buf = .ok t → Command.fieldsEnd buf t ≤ buf.length

/-- Where the fields of a hint record end, by the key length inside it. -/
def IndexValue.fieldsEnd (buf : Bytes) : ℕ := 12 + lenAt buf 8 + indexValueLen

section Readers

variable {buf : Bytes} {cursor : ℕ}

theorem lenAt_lt (buf : Bytes) (i : ℕ) : lenAt buf i < 2 ^ 32 := by
  have hlen : (slice buf i (i + 4)).length ≤ 4 := by
    unfold slice
    rw [List.length_drop, List.length_take]
    omega
  calc lenAt buf i < 256 ^ (slice buf i (i + 4)).length := ofLe_lt _
    _ ≤ 256 ^ 4 := Nat.pow_le_pow_right (by decide) hlen
    _ = 2 ^ 32 := by norm_num

theorem readSlice_of_le {msg : String} {len : ℕ} (hc : cursor + len < 2 ^ 64)
    (h : cursor + len ≤ buf.length) :
    readSlice msg buf cursor len = .ok (slice buf cursor (cursor + len), cursor + len) :=
  readSlice_eq_ok.mpr ⟨hc, h, rfl⟩

theorem readSlice_of_lt {msg : String} {len : ℕ} (hc : cursor + len < 2 ^ 64)
    (h : buf.length < cursor + len) :
    readSlice msg buf cursor len = .error ⟨.unexpectedEof, "unexpected end of buffer"⟩ := by
  unfold readSlice checkedAdd
  rw [if_pos hc]
  exact if_pos h

theorem readU32_of_le (hc : cursor < 2 ^ 62) (h : cursor + 4 ≤ buf.length) :
    readU32 buf cursor = .ok (UInt32.ofNat (lenAt buf cursor), cursor + 4) := by
  unfold readU32 readLe
  rw [readSlice_of_le (by omega) h]
  rfl

theorem readU32_of_lt (hc : cursor < 2 ^ 62) (h : buf.length < cursor + 4) :
    readU32 buf cursor = .error ⟨.unexpectedEof, "unexpected end of buffer"⟩ := by
  unfold readU32 readLe
  rw [readSlice_of_lt (by omega) h]
  rfl

theorem readU64_of_le (hc : cursor < 2 ^ 62) (h : cursor + 8 ≤ buf.length) :
    ∃ v, readU64 buf cursor = .ok (v, cursor + 8) := by
  unfold readU64 readLe
  rw [readSlice_of_le (by omega) h]
  exact ⟨_, rfl⟩

/-- A field that lies inside the buffer is read. -/
theorem readField_at (buf : Bytes) (cursor : ℕ) (hc : cursor < 2 ^ 40)
    (h : cursor + 4 + lenAt buf cursor ≤ buf.length) :
    ∃ x, Command.readField buf cursor = .ok (x, cursor + 4 + lenAt buf cursor) := by
  have hlt := lenAt_lt buf cursor
  have hn : (UInt32.ofNat (lenAt buf cursor)).toNat = lenAt buf cursor := by
    rw [UInt32.toNat_ofNat', Nat.mod_eq_of_lt hlt]
  unfold Command.readField readBytes
  rw [readU32_of_le (by omega) (by omega)]
  simp only [ofIo, bind, Except.bind, hn]
  rw [readSlice_of_le (by omega) h]
  exact ⟨_, rfl⟩

theorem readU64_of_lt (hc : cursor < 2 ^ 62) (h : buf.length < cursor + 8) :
    readU64 buf cursor = .error ⟨.unexpectedEof, "unexpected end of buffer"⟩ := by
  unfold readU64 readLe
  rw [readSlice_of_lt (by omega) h]
  rfl

/-- A field that reaches past the end of the buffer is an unexpected end. -/
theorem readField_of_lt (buf : Bytes) (cursor : ℕ) (hc : cursor < 2 ^ 40)
    (h : buf.length < cursor + 4 + lenAt buf cursor) :
    Command.readField buf cursor =
      .error (.io ⟨.unexpectedEof, "unexpected end of buffer"⟩) := by
  have hlt := lenAt_lt buf cursor
  have hn : (UInt32.ofNat (lenAt buf cursor)).toNat = lenAt buf cursor := by
    rw [UInt32.toNat_ofNat', Nat.mod_eq_of_lt hlt]
  unfold Command.readField readBytes
  by_cases h4 : buf.length < cursor + 4
  · rw [readU32_of_lt (by omega) h4]
    rfl
  · rw [readU32_of_le (by omega) (by omega)]
    simp only [ofIo, bind, Except.bind, hn]
    rw [readSlice_of_lt (by omega) h]

end Readers

section Decoders

variable {crc : Bytes → UInt32} {buf : Bytes}

theorem bodyLen_toNat (buf : Bytes) : (UInt32.ofNat (lenAt buf 4)).toNat = Command.bodyLen buf := by
  rw [UInt32.toNat_ofNat', Nat.mod_eq_of_lt (lenAt_lt buf 4)]
  rfl

/-- The two fields of a header, with which both decoders start. -/
theorem readHeader_cases (buf : Bytes) :
    (buf.length < headerLen ∧
      (readU32 buf 0 = .error ⟨.unexpectedEof, "unexpected end of buffer"⟩ ∨
        readU32 buf 0 = .ok (UInt32.ofNat (lenAt buf 0), 4) ∧
          readU32 buf 4 = .error ⟨.unexpectedEof, "unexpected end of buffer"⟩)) ∨
      (¬ buf.length < headerLen ∧ readU32 buf 0 = .ok (UInt32.ofNat (lenAt buf 0), 4) ∧
        readU32 buf 4 = .ok (UInt32.ofNat (lenAt buf 4), headerLen)) := by
  unfold headerLen
  by_cases h4 : buf.length < 4
  · exact Or.inl ⟨by omega, Or.inl (readU32_of_lt (by decide) h4)⟩
  have h0 := readU32_of_le (show 0 < 2 ^ 62 by decide) (show 0 + 4 ≤ buf.length by omega)
  by_cases h8 : buf.length < 8
  · exact Or.inl ⟨h8, Or.inr ⟨h0, readU32_of_lt (by decide) h8⟩⟩
  · exact Or.inr ⟨h8, h0, readU32_of_le (by decide) (by omega)⟩

/-- A buffer too short for a header, and one with a header: the length, the checksum, the fields and
their end are checked in this order. -/
theorem Command.deserialize_checks (crc : Bytes → UInt32) (buf : Bytes) :
    Command.deserialize crc buf =
      if buf.length < headerLen then .error (.io ⟨.unexpectedEof, "unexpected end of buffer"⟩)
      else if buf.length < headerLen + Command.bodyLen buf then
        .error (.io ⟨.unexpectedEof, "incomplete command"⟩)
      else if ¬ CrcMatches crc buf then .error .corruption
      else (Command.readBody buf headerLen).bind fun r =>
        if r.2 ≠ headerLen + Command.bodyLen buf then .error .corruption
        else .ok (r.1, headerLen + Command.bodyLen buf) := by
  unfold deserialize
  rcases readHeader_cases buf with ⟨hlt, h0 | ⟨h0, h4⟩⟩ | ⟨hle, h0, h4⟩
  · rw [h0, if_pos hlt]
    rfl
  · rw [h0, if_pos hlt]
    simp only [ofIo, bind, Except.bind, h4]
  · rw [h0, if_neg hle]
    simp only [ofIo, bind, Except.bind, h4, bodyLen_toNat]
    rfl

theorem IndexValue.deserialize_checks (crc : Bytes → UInt32) (buf : Bytes) (f : ℕ) :
    IndexValue.deserialize crc buf f =
      if buf.length < headerLen then .error (.io ⟨.unexpectedEof, "unexpected end of buffer"⟩)
      else if buf.length < headerLen + Command.bodyLen buf then
        .error (.io ⟨.unexpectedEof, "incomplete index value"⟩)
      else if ¬ CrcMatches crc buf then .error .corruption
      else (Command.readField buf headerLen).bind fun r =>
        (IndexValue.readPosition buf r.2 f).bind fun p =>
          if p.2 ≠ headerLen + Command.bodyLen buf then .error .corruption
          else .ok (r.1, p.1, headerLen + Command.bodyLen buf) := by
  unfold deserialize
  rcases readHeader_cases buf with ⟨hlt, h0 | ⟨h0, h4⟩⟩ | ⟨hle, h0, h4⟩
  · rw [h0, if_pos hlt]
    rfl
  · rw [h0, if_pos hlt]
    simp only [ofIo, bind, Except.bind, h4]
  · rw [h0, if_neg hle]
    simp only [ofIo, bind, Except.bind, h4, bodyLen_toNat]
    rfl

/-- A body whose fields lie inside the buffer is read, unless its type byte stands for nothing. -/
theorem Command.readBody_inside (h : Command.FieldsInside buf) :
    (∃ e, Command.typeOf buf = .error e ∧
        Command.readBody buf headerLen = .error .unexpectedCommandType) ∨
      ∃ t c, Command.typeOf buf = .ok t ∧
        Command.readBody buf headerLen = .ok (c, Command.fieldsEnd buf t) := by
  obtain ⟨h17, hfields⟩ := h
  have hk := lenAt_lt buf 17
  obtain ⟨ts, hts⟩ : ∃ ts, readU64 buf headerLen = .ok (ts, 16) :=
    readU64_of_le (by decide) (by unfold headerLen; omega)
  have hbyte : readU8 buf 16 = .ok (buf.getD 16 0, 17) := by
    have hsome : buf[16]? = some buf[16] := List.getElem?_eq_getElem _
    rw [readU8_eq_ok, List.getD_eq_getElem?_getD, hsome]
    exact ⟨rfl, rfl⟩
  unfold Command.readBody
  rw [hts]
  simp only [ofIo, bind, Except.bind, hbyte]
  unfold Command.typeOf at hfields ⊢
  cases htype : CommandType.tryFrom (buf.getD 16 0) with
  | error e =>
    left
    unfold CommandType.tryFrom at htype
    split at htype
    · cases htype
    · split at htype
      · cases htype
      · cases htype
        exact ⟨_, rfl, rfl⟩
  | ok t =>
    right
    cases t with
    | set =>
      have hend : 25 + lenAt buf 17 + lenAt buf (21 + lenAt buf 17) ≤ buf.length := hfields _ htype
      obtain ⟨key, hkey⟩ := readField_at buf 17 (by decide) (by omega)
      obtain ⟨value, hvalue⟩ := readField_at buf (21 + lenAt buf 17) (by omega) (by omega)
      refine ⟨.set, .set ts key value, rfl, ?_⟩
      simp only [hkey, show 17 + 4 + lenAt buf 17 = 21 + lenAt buf 17 by omega, hvalue]
      show _ = Except.ok (_, 25 + lenAt buf 17 + lenAt buf (21 + lenAt buf 17))
      rw [show 21 + lenAt buf 17 + 4 = 25 + lenAt buf 17 by omega]
    | rm =>
      have hend : 21 + lenAt buf 17 ≤ buf.length := hfields _ htype
      obtain ⟨key, hkey⟩ := readField_at buf 17 (by decide) hend
      refine ⟨.rm, .rm ts key, rfl, ?_⟩
      simp only [hkey]
      rfl

theorem IndexValue.readPosition_inside {cursor : ℕ} (f : ℕ) (hc : cursor < 2 ^ 40)
    (h : cursor + indexValueLen ≤ buf.length) :
    ∃ iv, IndexValue.readPosition buf cursor f = .ok (iv, cursor + indexValueLen) := by
  unfold indexValueLen at h
  obtain ⟨ts, hts⟩ := readU64_of_le (show cursor < 2 ^ 62 by omega) (by omega : cursor + 8 ≤ buf.length)
  obtain ⟨offset, hoffset⟩ := readU64_of_le (show cursor + 8 < 2 ^ 62 by omega)
    (by omega : cursor + 8 + 8 ≤ buf.length)
  obtain ⟨len, hlen⟩ := readU64_of_le (show cursor + 8 + 8 < 2 ^ 62 by omega)
    (by omega : cursor + 8 + 8 + 8 ≤ buf.length)
  refine ⟨⟨f, ts, offset.toNat, len.toNat⟩, ?_⟩
  unfold IndexValue.readPosition
  rw [hts]
  simp only [ofIo, bind, Except.bind, hoffset, hlen]
  rfl

/-- A complete log record with the right checksum whose fields lie inside the buffer. -/
theorem Command.deserialize_inside (hc : ¬ Incomplete buf) (hcrc : CrcMatches crc buf)
    (h : Command.FieldsInside buf) :
    (∃ e, Command.typeOf buf = .error e ∧
        Command.deserialize crc buf = .error .unexpectedCommandType) ∨
      ∃ t c, Command.typeOf buf = .ok t ∧ Command.deserialize crc buf =
        if Command.fieldsEnd buf t ≠ headerLen + Command.bodyLen buf then .error .corruption
        else .ok (c, headerLen + Command.bodyLen buf) := by
  unfold Incomplete at hc
  rw [not_or] at hc
  rw [Command.deserialize_checks, if_neg hc.1, if_neg hc.2, if_neg (not_not.mpr hcrc)]
  rcases Command.readBody_inside h with ⟨e, ht, hbody⟩ | ⟨t, c, ht, hbody⟩
  · rw [hbody]
    exact Or.inl ⟨e, ht, rfl⟩
  · rw [hbody]
    exact Or.inr ⟨t, c, ht, rfl⟩

/-- A complete hint record with the right checksum whose fields lie inside the buffer. -/
theorem IndexValue.deserialize_inside (f : ℕ) (hc : ¬ Incomplete buf) (hcrc : CrcMatches crc buf)
    (h : IndexValue.fieldsEnd buf ≤ buf.length) : ∃ key iv, IndexValue.deserialize crc buf f =
      if IndexValue.fieldsEnd buf ≠ headerLen + Command.bodyLen buf then .error .corruption
      else .ok (key, iv, headerLen + Command.bodyLen buf) := by
  have hk := lenAt_lt buf 8
  unfold IndexValue.fieldsEnd at h ⊢
  unfold Incomplete at hc
  rw [not_or] at hc
  obtain ⟨key, hkey⟩ := readField_at buf 8 (by decide) (by omega)
  obtain ⟨iv, hiv⟩ := IndexValue.readPosition_inside f (show 12 + lenAt buf 8 < 2 ^ 40 by omega) h
  refine ⟨key, iv, ?_⟩
  rw [IndexValue.deserialize_checks, if_neg hc.1, if_neg hc.2, if_neg (not_not.mpr hcrc)]
  unfold headerLen at *
  rw [hkey, show 8 + 4 + lenAt buf 8 = 12 + lenAt buf 8 by omega]
  simp only [Except.bind, hiv]

theorem not_isEof_ite {α : Type} {p : Prop} [Decidable p] {a : α} :
    ¬ IsEof (if p then (.error .corruption : Except KvsError α) else .ok a) := by
  rintro ⟨msg, h⟩
  split at h <;> cases h

/-- A decoder that checks the header, the length and the checksum first ends early on an incomplete
record only, unless its fields do. -/
theorem isEof_of_checks {α : Type} {d fields : Except KvsError α} {msg msg' : String}
    (hd : d = if buf.length < headerLen then .error (.io ⟨.unexpectedEof, msg⟩)
      else if buf.length < headerLen + Command.bodyLen buf then .error (.io ⟨.unexpectedEof, msg'⟩)
      else if ¬ CrcMatches crc buf then .error .corruption else fields)
    (hfields : ¬ Incomplete buf → CrcMatches crc buf → ¬ IsEof d) : IsEof d ↔ Incomplete buf := by
  by_cases hshort : buf.length < headerLen
  · rw [if_pos hshort] at hd
    exact iff_of_true ⟨msg, hd⟩ (Or.inl hshort)
  rw [if_neg hshort] at hd
  by_cases hlen : buf.length < headerLen + Command.bodyLen buf
  · rw [if_pos hlen] at hd
    exact iff_of_true ⟨msg', hd⟩ (Or.inr hlen)
  rw [if_neg hlen] at hd
  have hc : ¬ Incomplete buf := not_or.mpr ⟨hshort, hlen⟩
  refine iff_of_false ?_ hc
  by_cases hcrc : CrcMatches crc buf
  · exact hfields hc hcrc
  · rw [hd, if_pos hcrc]
    rintro ⟨m, hm⟩
    cases hm

theorem Command.isEof_iff (h : ¬ Incomplete buf → CrcMatches crc buf → Command.FieldsInside buf) :
    IsEof (Command.deserialize crc buf) ↔ Incomplete buf := by
  refine isEof_of_checks (Command.deserialize_checks crc buf) fun hc hcrc => ?_
  rcases Command.deserialize_inside hc hcrc (h hc hcrc) with ⟨e, -, hd⟩ | ⟨t, c, -, hd⟩
  · rw [hd]
    rintro ⟨msg, hmsg⟩
    cases hmsg
  · rw [hd]
    exact not_isEof_ite

theorem IndexValue.isEof_iff (f : ℕ)
    (h : ¬ Incomplete buf → CrcMatches crc buf → IndexValue.fieldsEnd buf ≤ buf.length) :
    IsEof (IndexValue.deserialize crc buf f) ↔ Incomplete buf := by
  refine isEof_of_checks (IndexValue.deserialize_checks crc buf f) fun hc hcrc => ?_
  obtain ⟨key, iv, hd⟩ := IndexValue.deserialize_inside f hc hcrc (h hc hcrc)
  rw [hd]
  exact not_isEof_ite

/-- A body with a field that reaches past the end of the buffer is an unexpected end. -/
theorem Command.readBody_outside (h : ¬ Command.FieldsInside buf) :
    Command.readBody buf headerLen =
      .error (.io ⟨.unexpectedEof, "unexpected end of buffer"⟩) := by
  have hk := lenAt_lt buf 17
  unfold Command.readBody
  by_cases h16 : buf.length < 16
  · rw [readU64_of_lt (by decide) (by unfold headerLen; omega)]
    rfl
  obtain ⟨ts, hts⟩ : ∃ ts, readU64 buf headerLen = .ok (ts, 16) :=
    readU64_of_le (by decide) (by unfold headerLen; omega)
  rw [hts]
  by_cases h17 : buf.length < 17
  · have hnone : buf[16]? = none := List.getElem?_eq_none (by omega)
    have hbyte : readU8 buf 16 = .error ⟨.unexpectedEof, "unexpected end of buffer"⟩ := by
      unfold readU8
      rw [hnone]
    simp only [ofIo, bind, Except.bind, hbyte]
  have hbyte : readU8 buf 16 = .ok (buf.getD 16 0, 17) := by
    have hsome : buf[16]? = some buf[16] := List.getElem?_eq_getElem _
    rw [readU8_eq_ok, List.getD_eq_getElem?_getD, hsome]
    exact ⟨rfl, rfl⟩
  simp only [ofIo, bind, Except.bind, hbyte]
  -- with the type byte there, it is the fields of that type that reach past the end
  obtain ⟨t, ht, hend⟩ : ∃ t, Command.typeOf buf = .ok t ∧ buf.length < Command.fieldsEnd buf t := by
    by_contra hne
    push Not at hne
    exact h ⟨by omega, hne⟩
  unfold Command.typeOf at ht
  rw [ht]
  cases t with
  | set =>
    replace hend : buf.length < 25 + lenAt buf 17 + lenAt buf (21 + lenAt buf 17) := hend
    by_cases hkey : buf.length < 17 + 4 + lenAt buf 17
    · simp only [readField_of_lt buf 17 (by decide) hkey]
    · obtain ⟨key, hread⟩ := readField_at buf 17 (by decide) (by omega)
      simp only [hread, show 17 + 4 + lenAt buf 17 = 21 + lenAt buf 17 by omega,
        readField_of_lt buf (21 + lenAt buf 17) (by omega) (by omega)]
  | rm =>
    replace hend : buf.length < 21 + lenAt buf 17 := hend
    simp only [readField_of_lt buf 17 (by decide) hend]

/-- The three numbers of a hint record that reach past the end of the buffer. -/
theorem IndexValue.readPosition_outside {cursor : ℕ} (f : ℕ) (hc : cursor < 2 ^ 40)
    (h : buf.length < cursor + indexValueLen) :
    IndexValue.readPosition buf cursor f =
      .error (.io ⟨.unexpectedEof, "unexpected end of buffer"⟩) := by
  unfold indexValueLen at h
  unfold IndexValue.readPosition
  by_cases h8 : buf.length < cursor + 8
  · rw [readU64_of_lt (by omega) h8]
    rfl
  obtain ⟨ts, hts⟩ := readU64_of_le (show cursor < 2 ^ 62 by omega) (by omega : cursor + 8 ≤ buf.length)
  rw [hts]
  by_cases h16 : buf.length < cursor + 8 + 8
  · simp only [ofIo, bind, Except.bind, readU64_of_lt (by omega : cursor + 8 < 2 ^ 62) h16]
  obtain ⟨offset, hoffset⟩ := readU64_of_le (show cursor + 8 < 2 ^ 62 by omega)
    (by omega : cursor + 8 + 8 ≤ buf.length)
  simp only [ofIo, bind, Except.bind, hoffset,
    readU64_of_lt (by omega : cursor + 8 + 8 < 2 ^ 62) (by omega : buf.length < cursor + 8 + 8 + 8)]

/-- A complete log record with the right checksum and a field that reaches past the end. -/
theorem Command.isEof_outside (hc : ¬ Incomplete buf) (hcrc : CrcMatches crc buf)
    (h : ¬ Command.FieldsInside buf) : IsEof (Command.deserialize crc buf) := by
  unfold Incomplete at hc
  rw [not_or] at hc
  rw [Command.deserialize_checks, if_neg hc.1, if_neg hc.2, if_neg (not_not.mpr hcrc),
    Command.readBody_outside h]
  exact ⟨_, rfl⟩

/-- A complete hint record with the right checksum and a field that reaches past the end. -/
theorem IndexValue.isEof_outside (f : ℕ) (hc : ¬ Incomplete buf) (hcrc : CrcMatches crc buf)
    (h : buf.length < IndexValue.fieldsEnd buf) : IsEof (IndexValue.deserialize crc buf f) := by
  have hk := lenAt_lt buf 8
  unfold IndexValue.fieldsEnd at h
  unfold Incomplete at hc
  rw [not_or] at hc
  rw [IndexValue.deserialize_checks, if_neg hc.1, if_neg hc.2, if_neg (not_not.mpr hcrc)]
  unfold headerLen
  by_cases hkey : buf.length < 8 + 4 + lenAt buf 8
  · rw [readField_of_lt buf 8 (by decide) hkey]
    exact ⟨_, rfl⟩
  · obtain ⟨key, hread⟩ := readField_at buf 8 (by decide) (by omega)
    rw [hread, show 8 + 4 + lenAt buf 8 = 12 + lenAt buf 8 by omega]
    simp only [Except.bind, IndexValue.readPosition_outside f (by omega : 12 + lenAt buf 8 < 2 ^ 40) h]
    exact ⟨_, rfl⟩

end Decoders

/-- The decoder of log records tells the kinds of damage of `buf` apart: an unexpected end means that
the record is incomplete, and a complete record with the right checksum whose lengths do not fit its
body is corrupt, or of no type. -/
structure Command.ToldApart (crc : Bytes → UInt32) (buf : Bytes) : Prop where
  eof : IsEof (Command.deserialize crc buf) ↔ Incomplete buf
  noType : ¬ Incomplete buf → CrcMatches crc buf → ∀ e, Command.typeOf buf = .error e →
    Command.deserialize crc buf = .error .unexpectedCommandType
  misfit : ¬ Incomplete buf → CrcMatches crc buf → ∀ t, Command.typeOf buf = .ok t →
    Command.fieldsEnd buf t ≠ headerLen + Command.bodyLen buf →
    Command.deserialize crc buf = .error .corruption

/-- The decoder of hint records tells the kinds of damage of `buf` apart. -/
structure IndexValue.ToldApart (crc : Bytes → UInt32) (buf : Bytes) (f : ℕ) : Prop where
  eof : IsEof (IndexValue.deserialize crc buf f) ↔ Incomplete buf
  misfit : ¬ Incomplete buf → CrcMatches crc buf →
    IndexValue.fieldsEnd buf ≠ headerLen + Command.bodyLen buf →
    IndexValue.deserialize crc buf f = .error .corruption

theorem Command.toldApart_of_inside {crc : Bytes → UInt32} {buf : Bytes}
    (h : ¬ Incomplete buf → CrcMatches crc buf → Command.FieldsInside buf) :
    Command.ToldApart crc buf where
  eof := Command.isEof_iff h
  noType hc hcrc e he := by
    rcases Command.deserialize_inside hc hcrc (h hc hcrc) with ⟨e', -, hd⟩ | ⟨t, c, ht, -⟩
    · exact hd
    · rw [ht] at he
      cases he
  misfit hc hcrc t ht hend := by
    rcases Command.deserialize_inside hc hcrc (h hc hcrc) with ⟨e, he, -⟩ | ⟨t', c, ht', hd⟩
    · rw [he] at ht
      cases ht
    · rw [ht'] at ht
      cases ht
      rw [hd, if_pos hend]

theorem IndexValue.toldApart_of_inside {crc : Bytes → UInt32} {buf : Bytes} {f : ℕ}
    (h : ¬ Incomplete buf → CrcMatches crc buf → IndexValue.fieldsEnd buf ≤ buf.length) :
    IndexValue.ToldApart crc buf f where
  eof := IndexValue.isEof_iff f h
  misfit hc hcrc hend := by
    obtain ⟨key, iv, hd⟩ := IndexValue.deserialize_inside f hc hcrc (h hc hcrc)
    rw [hd, if_pos hend]

/-- The decoders tell the kinds of damage apart exactly on the buffers whose fields, if the record is
complete and has the right checksum, lie inside the buffer. -/
theorem eof_means_incomplete (crc : Bytes → UInt32) (log hint : Bytes) (f : ℕ) :
    (Command.ToldApart crc log ↔
      (¬ Incomplete log → CrcMatches crc log → Command.FieldsInside log)) ∧
    (IndexValue.ToldApart crc hint f ↔
      (¬ Incomplete hint → CrcMatches crc hint → IndexValue.fieldsEnd hint ≤ hint.length)) := by
  refine ⟨⟨fun h hc hcrc => ?_, Command.toldApart_of_inside⟩, fun h hc hcrc => ?_,
    IndexValue.toldApart_of_inside⟩
  · by_contra hout
    exact hc (h.eof.mp (Command.isEof_outside hc hcrc hout))
  · by_contra hout
    exact hc (h.eof.mp (IndexValue.isEof_outside f hc hcrc (by omega)))

/-- A complete remove with the right checksum whose key length points past the end of the buffer, and
a complete hint record of that kind: both are taken for records that are cut off. -/
theorem complete_record_ends_early :
    (∃ buf, ¬ Incomplete buf ∧ CrcMatches crc32 buf ∧ IsEof (Command.deserialize crc32 buf)) ∧
      ∃ buf, ¬ Incomplete buf ∧ CrcMatches crc32 buf ∧ IsEof (IndexValue.deserialize crc32 buf 1) :=
  ⟨⟨framed crc32 (toLe 8 0 ++ [1] ++ toLe 4 5), by decide +kernel, by decide +kernel,
      "unexpected end of buffer", by decide +kernel⟩,
    framed crc32 (toLe 4 5 ++ toLe 8 0 ++ toLe 8 0 ++ toLe 8 0), by decide +kernel,
    by decide +kernel, "unexpected end of buffer", by decide +kernel⟩

end Bitcask
