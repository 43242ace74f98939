import Bitcask.Storage.Command

/-!
# Index entries and hint records

An index entry says where the latest record of a key stands. A hint file holds one record
`[u32 crc][u32 body_len][u32 key_len][key][u64 ts][u64 offset][u64 len]` for each record of the
data file of the same id; the file id is not stored and is supplied by the caller.

`deserialize_eq_ok` says what decodes and to what; `hint_codec_exact` is the codec as a whole.
-/

namespace Bitcask

open LittleEndian BytesUtil

structure IndexValue where
  fileId : ℕ
  ts : UInt64
  offset : ℕ
  len : ℕ
  deriving DecidableEq, Repr

namespace IndexValue

def keyLenLen : ℕ := 4

/-- `ts + offset + len`. -/
def indexValueLen : ℕ := 24

/-- The offset and the length fit the `u64` fields they are written to. -/
def Fits (iv : IndexValue) : Prop := iv.offset < 2 ^ 64 ∧ iv.len < 2 ^ 64

/-- The body length of the hint record of `key`. -/
def encodedBodyLen (key : Bytes) : ℕ := keyLenLen + key.length + indexValueLen

/-- The three fixed-width fields at the end of a hint record. -/
def position (iv : IndexValue) : Bytes :=
  toLe 8 iv.ts.toNat ++ toLe 8 iv.offset ++ toLe 8 iv.len

/-- The part of a hint record the checksum covers. -/
def checked (iv : IndexValue) (key : Bytes) : Bytes :=
  toLe 4 (encodedBodyLen key) ++ (toLe 4 key.length ++ key ++ iv.position)

variable (crc : Bytes → UInt32)

def serialize (iv : IndexValue) (key : Bytes) : Bytes :=
  toLe 4 (crc (iv.checked key)).toNat ++ iv.checked key

/-- The fixed-width fields, read from `cursor`. `usize::try_from` of the length cannot fail on a
64-bit target. -/
def readPosition (buf : Bytes) (cursor fileId : ℕ) : Except KvsError (IndexValue × ℕ) := do
  let (ts, cursor) ← ofIo (readU64 buf cursor)
  let (offset, cursor) ← ofIo (readU64 buf cursor)
  let (len, cursor) ← ofIo (readU64 buf cursor)
  .ok (⟨fileId, ts, offset.toNat, len.toNat⟩, cursor)

def deserialize (buf : Bytes) (fileId : ℕ) : Except KvsError (Bytes × IndexValue × ℕ) := do
  let (storedCrc, cursor) ← ofIo (readU32 buf 0)
  let (bodyLen, cursor) ← ofIo (readU32 buf cursor)
  if buf.length < headerLen + bodyLen.toNat then
    .error (.io ⟨.unexpectedEof, "incomplete index value"⟩)
  else
    let recordEnd := headerLen + bodyLen.toNat
    if crc (slice buf crcLen recordEnd) ≠ storedCrc then .error .corruption
    else
      let (key, cursor) ← Command.readField buf cursor
      let (iv, cursor) ← readPosition buf cursor fileId
      if cursor ≠ recordEnd then .error .corruption
      else .ok (key, iv, recordEnd)

@[simp] theorem length_position (iv : IndexValue) : iv.position.length = indexValueLen := by
  simp [position, indexValueLen]

@[simp] theorem length_serialize (iv : IndexValue) (key : Bytes) :
    (iv.serialize crc key).length = headerLen + encodedBodyLen key := by
  simp only [serialize, checked, List.length_append, length_toLe, length_position, headerLen,
    encodedBodyLen, keyLenLen]
  omega

/-- The stored record does not depend on the file id. -/
theorem serialize_fileId (iv : IndexValue) (f : ℕ) (key : Bytes) :
    ({ iv with fileId := f } : IndexValue).serialize crc key = iv.serialize crc key := rfl

/-- The fixed-width fields are read exactly where their encoding stands. -/
theorem readPosition_eq_ok {buf : Bytes} {cursor fileId stop : ℕ} {iv : IndexValue}
    (hc : cursor < 2 ^ 62) :
    readPosition buf cursor fileId = .ok (iv, stop) ↔
      iv.fileId = fileId ∧ iv.Fits ∧ stop = cursor + indexValueLen ∧ stop ≤ buf.length ∧
        slice buf cursor stop = iv.position := by
  unfold readPosition indexValueLen
  constructor
  · intro h
    obtain ⟨⟨ts, c0⟩, h0, hrest⟩ := bind_eq_ok.mp h
    obtain ⟨⟨off, c1⟩, h1, hrest'⟩ := bind_eq_ok.mp hrest
    obtain ⟨⟨len, c2⟩, h2, hend⟩ := bind_eq_ok.mp hrest'
    obtain ⟨-, hl0, hv0, rfl⟩ := readU64_eq_ok.mp (ofIo_eq_ok.mp h0)
    obtain ⟨-, hl1, hv1, rfl⟩ := readU64_eq_ok.mp (ofIo_eq_ok.mp h1)
    obtain ⟨-, hl2, hv2, rfl⟩ := readU64_eq_ok.mp (ofIo_eq_ok.mp h2)
    simp only [Except.ok.injEq, Prod.mk.injEq] at hend
    obtain ⟨rfl, rfl⟩ := hend
    simp only at hl2 hv0 hv1 hv2
    refine ⟨rfl, ⟨off.toNat_lt, len.toNat_lt⟩, rfl, hl2, ?_⟩
    unfold position
    rw [hv0, hv1, hv2, slice_join (by omega) (by omega), slice_join (by omega) (by omega)]
  · rintro ⟨rfl, ⟨hoff, hlen⟩, rfl, hl, hs⟩
    unfold position at hs
    obtain ⟨hs01, hs2, -⟩ := slice_of_append (by omega) hl hs
    simp only [List.length_append, length_toLe] at hs01 hs2
    obtain ⟨hs0, hs1, -⟩ := slice_of_append (by omega) (by omega) hs01
    simp only [length_toLe] at hs0 hs1
    have ho : (UInt64.ofNat iv.offset).toNat = iv.offset := by
      rw [UInt64.toNat_ofNat', Nat.mod_eq_of_lt hoff]
    have hn : (UInt64.ofNat iv.len).toNat = iv.len := by
      rw [UInt64.toNat_ofNat', Nat.mod_eq_of_lt hlen]
    refine bind_eq_ok.mpr ⟨(iv.ts, cursor + 8), ?_, ?_⟩
    · rw [ofIo_eq_ok, readU64_eq_ok]
      exact ⟨by omega, by omega, hs0.symm, rfl⟩
    refine bind_eq_ok.mpr ⟨(UInt64.ofNat iv.offset, cursor + 16), ?_, ?_⟩
    · rw [ofIo_eq_ok, readU64_eq_ok]
      exact ⟨by omega, by omega, by rw [ho]; exact hs1.symm, rfl⟩
    refine bind_eq_ok.mpr ⟨(UInt64.ofNat iv.len, cursor + 24), ?_, ?_⟩
    · rw [ofIo_eq_ok, readU64_eq_ok]
      exact ⟨by omega, by omega, by rw [hn]; exact hs2.symm, rfl⟩
    · simp [ho, hn]

/-- A buffer decodes to `key` and `iv` exactly when it starts with their
encoding, their lengths fit and `iv` carries the caller's file id. -/
theorem deserialize_eq_ok {buf key : Bytes} {fileId n : ℕ} {iv : IndexValue} :
    deserialize crc buf fileId = .ok (key, iv, n) ↔
      iv.fileId = fileId ∧ iv.Fits ∧ encodedBodyLen key < 2 ^ 32 ∧
        n = (iv.serialize crc key).length ∧ n ≤ buf.length ∧ buf.take n = iv.serialize crc key := by
  have htake : buf.take n = slice buf 0 n := by simp [slice]
  rw [htake]
  unfold deserialize
  constructor
  · intro h
    obtain ⟨⟨stored, c0⟩, h0, hrest⟩ := bind_eq_ok.mp h
    obtain ⟨⟨bl, c1⟩, h1, hbody⟩ := bind_eq_ok.mp hrest
    obtain ⟨-, hl0, hv0, rfl⟩ := readU32_eq_ok.mp (ofIo_eq_ok.mp h0)
    obtain ⟨-, hl1, hv1, rfl⟩ := readU32_eq_ok.mp (ofIo_eq_ok.mp h1)
    simp only at hl1 hv1 hbody
    by_cases hlen : buf.length < headerLen + bl.toNat
    · rw [if_pos hlen] at hbody; cases hbody
    rw [if_neg hlen] at hbody
    by_cases hcrc : crc (slice buf crcLen (headerLen + bl.toNat)) ≠ stored
    · rw [if_pos hcrc] at hbody; cases hbody
    rw [if_neg hcrc] at hbody
    obtain ⟨⟨k, c2⟩, h2, hbody'⟩ := bind_eq_ok.mp hbody
    obtain ⟨⟨p, c3⟩, h3, hend⟩ := bind_eq_ok.mp hbody'
    by_cases hstop : c3 ≠ headerLen + bl.toNat
    · simp only [if_pos hstop] at hend; cases hend
    simp only [if_neg hstop, Except.ok.injEq, Prod.mk.injEq] at hend
    obtain ⟨rfl, rfl, rfl⟩ := hend
    obtain ⟨hk, hc2, hl2, hs2⟩ := (Command.readField_eq_ok (by omega)).mp h2
    simp only at h3
    obtain ⟨hf, hfit, hc3, hl3, hs3⟩ := (readPosition_eq_ok (by omega)).mp h3
    unfold headerLen at *
    unfold indexValueLen at hc3
    have hbl : bl.toNat = encodedBodyLen k := by
      unfold encodedBodyLen keyLenLen indexValueLen; omega
    have hchk : slice buf 4 (8 + bl.toNat) = p.checked k := by
      rw [← slice_join (i := 4) (j := 8) (by omega) (by omega),
        ← slice_join (i := 8) (j := c2) (by omega) (by omega)]
      unfold checked
      rw [← hbl, hv1, ← hs3, ← hs2, show 8 + bl.toNat = c3 by omega]
    refine ⟨hf, hfit, by rw [← hbl]; exact bl.toNat_lt, by rw [length_serialize, hbl]; rfl,
      by omega, ?_⟩
    unfold crcLen at hcrc
    rw [hchk] at hcrc
    unfold serialize
    rw [not_not.mp hcrc, hv0, ← hchk]
    exact (slice_join (by omega) (by omega)).symm
  · rintro ⟨rfl, hfit, hbl, rfl, hl, hs⟩
    rw [length_serialize] at hl hs ⊢
    unfold headerLen at *
    have hn : (UInt32.ofNat (encodedBodyLen key)).toNat = encodedBodyLen key := by
      rw [UInt32.toNat_ofNat', Nat.mod_eq_of_lt hbl]
    have hebl : encodedBodyLen key = 4 + key.length + 24 := rfl
    obtain ⟨hs0, hs1, -⟩ := slice_of_append (by omega) hl hs
    simp only [length_toLe, Nat.zero_add] at hs0 hs1
    obtain ⟨hs2, hs3, -⟩ := slice_of_append (by omega) hl hs1
    simp only [length_toLe] at hs2 hs3
    obtain ⟨hs4, hs5, -⟩ := slice_of_append (by omega) hl hs3
    simp only [List.length_append, length_toLe] at hs4 hs5
    refine bind_eq_ok.mpr ⟨(crc (iv.checked key), 4), ?_, ?_⟩
    · rw [ofIo_eq_ok, readU32_eq_ok]
      exact ⟨by omega, by omega, hs0.symm, rfl⟩
    refine bind_eq_ok.mpr ⟨(UInt32.ofNat (encodedBodyLen key), 8), ?_, ?_⟩
    · rw [ofIo_eq_ok, readU32_eq_ok]
      exact ⟨by omega, by omega, by rw [hn]; exact hs2.symm, rfl⟩
    simp only [hn]
    rw [if_neg (by omega), if_neg (by unfold crcLen; rw [hs1]; simp)]
    refine bind_eq_ok.mpr ⟨(key, 8 + 4 + key.length), ?_, ?_⟩
    · rw [Command.readField_eq_ok (by omega)]
      exact ⟨by omega, rfl, by omega, by rw [← hs4]; congr 1; omega⟩
    refine bind_eq_ok.mpr ⟨(iv, 8 + encodedBodyLen key), ?_, by simp⟩
    rw [readPosition_eq_ok (by omega)]
    refine ⟨rfl, hfit, by unfold indexValueLen; omega, hl, ?_⟩
    rw [← hs5]
    congr 1
    omega

/-- An encoded hint record decodes to itself under the caller's file id. -/
theorem deserialize_serialize {iv : IndexValue} {key : Bytes} (hiv : iv.Fits)
    (hk : encodedBodyLen key < 2 ^ 32) (f : ℕ) (rest : Bytes) :
    deserialize crc (iv.serialize crc key ++ rest) f =
      .ok (key, { iv with fileId := f }, (iv.serialize crc key).length) := by
  rw [deserialize_eq_ok]
  refine ⟨rfl, hiv, hk, rfl, by simp, ?_⟩
  rw [List.take_left]
  exact (serialize_fileId crc iv f key).symm

/-- The hint codec is exact in both directions: the hint record of an entry decodes to its key and
to the entry under the caller's file id, whatever follows it, and what decodes starts with the one
hint record of its key and entry. -/
theorem hint_codec_exact :
    (∀ (iv : IndexValue) (key : Bytes), iv.Fits → encodedBodyLen key < 2 ^ 32 → ∀ f rest,
      deserialize crc (iv.serialize crc key ++ rest) f =
        .ok (key, { iv with fileId := f }, (iv.serialize crc key).length)) ∧
    ∀ buf f key iv n, deserialize crc buf f = .ok (key, iv, n) →
      iv.fileId = f ∧ n ≤ buf.length ∧ iv.serialize crc key = buf.take n := by
  refine ⟨fun iv key hiv hk f rest => deserialize_serialize crc hiv hk f rest, ?_⟩
  intro buf f key iv n h
  obtain ⟨hf, -, -, -, hle, htake⟩ := (deserialize_eq_ok crc).mp h
  exact ⟨hf, hle, htake.symm⟩

/-- The header of a hint record carries its body length. -/
theorem bodyLen_serialize (iv : IndexValue) {key : Bytes} (h : encodedBodyLen key < 2 ^ 32)
    (rest : Bytes) :
    Command.bodyLen ((iv.serialize crc key ++ rest).take headerLen) = encodedBodyLen key := by
  have hs : slice ((iv.serialize crc key ++ rest).take headerLen) crcLen headerLen =
      toLe 4 (encodedBodyLen key) := by
    unfold serialize checked slice crcLen headerLen
    simp [List.take_append]
  rw [Command.bodyLen, hs, ofLe_toLe_of_lt (lt_of_lt_of_eq h (by norm_num))]

end IndexValue

end Bitcask
