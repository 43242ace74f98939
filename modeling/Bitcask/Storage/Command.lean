import Bitcask.Storage.BytesUtil

/-!
# Log records

A log record is `[u32 crc][u32 body_len][body]` in little-endian, the checksum covering `body_len`
and the body. `crc32fast::hash` is a parameter `crc`: nothing here uses more of it than that it is
a function with a 32-bit result.

1. `deserialize_serialize`: a record whose body length fits in a `u32` decodes to its command,
   whatever follows it.
2. `deserialize_eq_ok`: what decodes is the encoding of the command it decodes to, so a command has
   one accepted encoding (`record_codec_exact`).
-/

namespace Bitcask

open LittleEndian BytesUtil

/-- `[u32 crc][u32 body_len]`. -/
def headerLen : ℕ := 8

def crcLen : ℕ := 4

inductive Command
  | set (ts : UInt64) (key value : Bytes)
  | rm (ts : UInt64) (key : Bytes)
  deriving DecidableEq, Repr

inductive CommandType
  | set
  | rm
  deriving DecidableEq, Repr

/-- `CommandType as u8`. -/
def CommandType.code : CommandType → UInt8
  | .set => 0
  | .rm => 1

/-- `CommandType::try_from`. -/
def CommandType.tryFrom (value : UInt8) : Except KvsError CommandType :=
  if value = 0 then .ok .set
  else if value = 1 then .ok .rm
  else .error .unexpectedCommandType

namespace Command

/-- The `body_len` field of a record header. -/
def bodyLen (header : Bytes) : ℕ := ofLe (slice header crcLen headerLen)

def getTimestamp : Command → UInt64
  | set ts _ _ => ts
  | rm ts _ => ts

def getKey : Command → Bytes
  | set _ key _ => key
  | rm _ key => key

def getValue : Command → Option Bytes
  | set _ _ value => some value
  | rm _ _ => none

def encodedBodyLen : Command → ℕ
  | set _ key value => 8 + 1 + 4 + key.length + 4 + value.length
  | rm _ key => 8 + 1 + 4 + key.length

/-- The body; lengths are cast to `u32`, which `toLe 4` does by keeping four bytes. -/
def writeBody : Command → Bytes
  | set ts key value =>
    toLe 8 ts.toNat ++ [CommandType.code .set] ++ toLe 4 key.length ++ key ++
      toLe 4 value.length ++ value
  | rm ts key => toLe 8 ts.toNat ++ [CommandType.code .rm] ++ toLe 4 key.length ++ key

/-- The part of a record the checksum covers. -/
def checked (c : Command) : Bytes := toLe 4 c.encodedBodyLen ++ c.writeBody

variable (crc : Bytes → UInt32)

def serialize (c : Command) : Bytes := toLe 4 (crc c.checked).toNat ++ c.checked

/-- A `u32` length at the cursor and that many bytes after it. -/
def readField (buf : Bytes) (cursor : ℕ) : Except KvsError (Bytes × ℕ) := do
  let (len, cursor) ← ofIo (readU32 buf cursor)
  ofIo (readBytes buf cursor len.toNat)

/-- The body of a record, read from `cursor`, and the cursor after it. -/
def readBody (buf : Bytes) (cursor : ℕ) : Except KvsError (Command × ℕ) := do
  let (ts, cursor) ← ofIo (readU64 buf cursor)
  let (type, cursor) ← ofIo (readU8 buf cursor)
  match ← CommandType.tryFrom type with
  | .set =>
    let (key, cursor) ← readField buf cursor
    let (value, cursor) ← readField buf cursor
    .ok (set ts key value, cursor)
  | .rm =>
    let (key, cursor) ← readField buf cursor
    .ok (rm ts key, cursor)

def deserialize (buf : Bytes) : Except KvsError (Command × ℕ) := do
  let (storedCrc, cursor) ← ofIo (readU32 buf 0)
  let (bodyLen, cursor) ← ofIo (readU32 buf cursor)
  if buf.length < headerLen + bodyLen.toNat then
    .error (.io ⟨.unexpectedEof, "incomplete command"⟩)
  else
    let commandEnd := headerLen + bodyLen.toNat
    if crc (slice buf crcLen commandEnd) ≠ storedCrc then .error .corruption
    else
      let (command, cursor) ← readBody buf cursor
      if cursor ≠ commandEnd then .error .corruption
      else .ok (command, commandEnd)

/-- The record's lengths fit the `u32` fields they are written to. -/
def Fits (c : Command) : Prop := c.encodedBodyLen < 2 ^ 32

instance : DecidablePred Fits := fun c => inferInstanceAs (Decidable (c.encodedBodyLen < 2 ^ 32))

/-! ## Lengths -/

@[simp] theorem length_writeBody (c : Command) : c.writeBody.length = c.encodedBodyLen := by
  cases c <;> simp [writeBody, encodedBodyLen] <;> omega

@[simp] theorem length_serialize (c : Command) :
    (c.serialize crc).length = headerLen + c.encodedBodyLen := by
  simp only [serialize, checked, List.length_append, length_toLe, length_writeBody, headerLen]
  omega

theorem serialize_pos (c : Command) : 0 < (c.serialize crc).length := by
  rw [length_serialize]
  simp [headerLen]

/-! ## The body -/

/-- The lengths of key and value fit a `u32`. -/
def FieldsFit : Command → Prop
  | set _ key value => key.length < 2 ^ 32 ∧ value.length < 2 ^ 32
  | rm _ key => key.length < 2 ^ 32

theorem Fits.fields {c : Command} (h : c.Fits) : c.FieldsFit := by
  cases c <;> simp only [Fits, encodedBodyLen, FieldsFit] at h ⊢ <;> omega

@[simp] theorem tryFrom_code (t : CommandType) : CommandType.tryFrom t.code = .ok t := by
  cases t <;> rfl

theorem tryFrom_eq_ok {b : UInt8} {t : CommandType} :
    CommandType.tryFrom b = .ok t ↔ b = t.code := by
  unfold CommandType.tryFrom
  by_cases h0 : b = 0
  · subst h0
    cases t <;> simp [CommandType.code]
  · by_cases h1 : b = 1
    · subst h1
      cases t <;> simp [CommandType.code]
    · cases t <;> simp [h0, h1, CommandType.code]

/-- The length field and the bytes it counts. -/
theorem readField_eq_ok {buf x : Bytes} {cursor stop : ℕ} (hc : cursor < 2 ^ 62) :
    readField buf cursor = .ok (x, stop) ↔
      x.length < 2 ^ 32 ∧ stop = cursor + 4 + x.length ∧ stop ≤ buf.length ∧
        slice buf cursor stop = toLe 4 x.length ++ x := by
  unfold readField
  rw [bind_eq_ok]
  constructor
  · rintro ⟨⟨n, c1⟩, h1, h2⟩
    obtain ⟨-, hl1, hv1, hc1⟩ := readU32_eq_ok.mp (ofIo_eq_ok.mp h1)
    obtain ⟨-, hl2, h2⟩ := readBytes_eq_ok.mp (ofIo_eq_ok.mp h2)
    simp only at hv1 hc1 hl2 h2
    subst hc1
    obtain ⟨rfl, rfl⟩ := Prod.mk.inj h2
    have hlen : (slice buf (cursor + 4) (cursor + 4 + n.toNat)).length = n.toNat := by
      rw [length_slice hl2]; omega
    refine ⟨by rw [hlen]; exact n.toNat_lt, by rw [hlen], hl2, ?_⟩
    rw [hlen, hv1, slice_join (by omega) (by omega)]
  · rintro ⟨hx, rfl, hl, hs⟩
    have hsplit := slice_of_append (by omega) hl hs
    rw [length_toLe] at hsplit
    obtain ⟨hs1, hs2, -⟩ := hsplit
    have hn : (UInt32.ofNat x.length).toNat = x.length := by
      rw [UInt32.toNat_ofNat', Nat.mod_eq_of_lt hx]
    refine ⟨(UInt32.ofNat x.length, cursor + 4), ?_, ?_⟩
    · rw [ofIo_eq_ok, readU32_eq_ok]
      exact ⟨by omega, by omega, by rw [hn]; exact hs1.symm, rfl⟩
    · rw [ofIo_eq_ok, readBytes_eq_ok]
      simp only [hn]
      exact ⟨by omega, hl, by rw [hs2]⟩

theorem readU8_eq_ok_slice {buf : Bytes} {cursor : ℕ} {b : UInt8} {stop : ℕ} :
    readU8 buf cursor = .ok (b, stop) ↔
      stop = cursor + 1 ∧ stop ≤ buf.length ∧ slice buf cursor stop = [b] := by
  rw [readU8_eq_ok]
  constructor
  · rintro ⟨hb, rfl⟩
    obtain ⟨hlt, hb⟩ := List.getElem?_eq_some_iff.mp hb
    refine ⟨rfl, hlt, ?_⟩
    rw [slice, List.drop_take, Nat.add_sub_cancel_left, List.take_one_drop_eq_of_lt_length hlt]
    simpa using hb
  · rintro ⟨rfl, hle, hs⟩
    refine ⟨?_, rfl⟩
    have h0 : (slice buf cursor (cursor + 1))[0]? = some b := by rw [hs]; rfl
    simpa [slice] using h0

/-- The fixed part of a body: timestamp and type byte. -/
theorem readHead_eq_ok {buf : Bytes} {cursor stop : ℕ} {c : Command} (hc : cursor < 2 ^ 32) :
    readBody buf cursor = .ok (c, stop) ↔
      ∃ ts t, cursor + 9 ≤ buf.length ∧
        slice buf cursor (cursor + 9) = toLe 8 ts.toNat ++ [CommandType.code t] ∧
        (match t with
          | .set => do
            let (key, cursor) ← readField buf (cursor + 9)
            let (value, cursor) ← readField buf cursor
            .ok (set ts key value, cursor)
          | .rm => do
            let (key, cursor) ← readField buf (cursor + 9)
            .ok (rm ts key, cursor)) = (.ok (c, stop) : Except KvsError (Command × ℕ)) := by
  unfold readBody
  constructor
  · intro h
    obtain ⟨⟨ts, c1⟩, h1, hrest⟩ := bind_eq_ok.mp h
    obtain ⟨⟨b, c2⟩, h2, hrest'⟩ := bind_eq_ok.mp hrest
    obtain ⟨t, h3, hfields⟩ := bind_eq_ok.mp hrest'
    obtain ⟨-, hl1, hv1, rfl⟩ := readU64_eq_ok.mp (ofIo_eq_ok.mp h1)
    obtain ⟨rfl, hl2, hv2⟩ := readU8_eq_ok_slice.mp (ofIo_eq_ok.mp h2)
    obtain rfl := tryFrom_eq_ok.mp h3
    refine ⟨ts, t, hl2, ?_, hfields⟩
    rw [hv1, ← hv2]
    exact (slice_join (by omega) (by omega)).symm
  · rintro ⟨ts, t, hl, hs, h⟩
    have hsplit := slice_of_append (by omega) hl hs
    rw [length_toLe] at hsplit
    obtain ⟨hs1, hs2, -⟩ := hsplit
    refine bind_eq_ok.mpr ⟨(ts, cursor + 8), ?_, ?_⟩
    · rw [ofIo_eq_ok, readU64_eq_ok]
      exact ⟨by omega, by omega, hs1.symm, rfl⟩
    · refine bind_eq_ok.mpr ⟨(t.code, cursor + 9), ?_, ?_⟩
      · rw [ofIo_eq_ok, readU8_eq_ok_slice]
        exact ⟨rfl, hl, hs2⟩
      · exact bind_eq_ok.mpr ⟨t, tryFrom_code t, h⟩

/-- A body is read exactly where the bytes of its encoding stand. -/
theorem readBody_eq_ok {buf : Bytes} {cursor stop : ℕ} {c : Command} (hc : cursor < 2 ^ 32) :
    readBody buf cursor = .ok (c, stop) ↔
      c.FieldsFit ∧ stop = cursor + c.encodedBodyLen ∧ stop ≤ buf.length ∧
        slice buf cursor stop = c.writeBody := by
  rw [readHead_eq_ok hc]
  constructor
  · rintro ⟨ts, t, hl, hs, h⟩
    cases t with
    | set =>
      obtain ⟨⟨key, c1⟩, h1, h⟩ := bind_eq_ok.mp h
      obtain ⟨⟨value, c2⟩, h2, h⟩ := bind_eq_ok.mp h
      obtain ⟨hk, rfl, hl1, hs1⟩ := (readField_eq_ok (by omega)).mp h1
      obtain ⟨hv, rfl, hl2, hs2⟩ := (readField_eq_ok (by omega)).mp h2
      simp only [Except.ok.injEq, Prod.mk.injEq] at h
      obtain ⟨rfl, rfl⟩ := h
      refine ⟨⟨hk, hv⟩, ?_, hl2, ?_⟩
      · simp only [encodedBodyLen]; omega
      · rw [← slice_join (i := cursor) (j := cursor + 9) (by omega) (by omega), hs,
          ← slice_join (i := cursor + 9) (j := cursor + 9 + 4 + key.length) (by omega) (by omega),
          hs1, hs2]
        simp [writeBody]
    | rm =>
      obtain ⟨⟨key, c1⟩, h1, h⟩ := bind_eq_ok.mp h
      obtain ⟨hk, rfl, hl1, hs1⟩ := (readField_eq_ok (by omega)).mp h1
      simp only [Except.ok.injEq, Prod.mk.injEq] at h
      obtain ⟨rfl, rfl⟩ := h
      refine ⟨hk, ?_, hl1, ?_⟩
      · simp only [encodedBodyLen]; omega
      · rw [← slice_join (i := cursor) (j := cursor + 9) (by omega) (by omega), hs, hs1]
        simp [writeBody]
  · rintro ⟨hf, rfl, hl, hs⟩
    cases c with
    | set ts key value =>
      obtain ⟨hk, hv⟩ := hf
      simp only [encodedBodyLen] at hl hs ⊢
      rw [show writeBody (set ts key value) = (toLe 8 ts.toNat ++ [CommandType.code .set]) ++
        ((toLe 4 key.length ++ key) ++ (toLe 4 value.length ++ value)) by simp [writeBody]] at hs
      obtain ⟨hs0, hs, -⟩ := slice_of_append (by omega) hl hs
      obtain ⟨hs1, hs2, -⟩ := slice_of_append (by simp; omega) hl hs
      simp only [List.length_append, length_toLe, List.length_singleton] at hs0 hs1 hs2
      refine ⟨ts, .set, by omega, hs0, ?_⟩
      refine bind_eq_ok.mpr ⟨(key, cursor + 9 + 4 + key.length), ?_, ?_⟩
      · rw [readField_eq_ok (by omega)]
        exact ⟨hk, rfl, by omega, by rw [← hs1]; congr 1; omega⟩
      · refine bind_eq_ok.mpr ⟨(value, cursor + 9 + 4 + key.length + 4 + value.length), ?_, ?_⟩
        · rw [readField_eq_ok (by omega)]
          exact ⟨hv, rfl, by omega, by rw [← hs2]; congr 1 <;> omega⟩
        · simp only [Except.ok.injEq, Prod.mk.injEq, true_and]; omega
    | rm ts key =>
      simp only [encodedBodyLen] at hl hs ⊢
      rw [show writeBody (rm ts key) = (toLe 8 ts.toNat ++ [CommandType.code .rm]) ++
        (toLe 4 key.length ++ key) by simp [writeBody]] at hs
      obtain ⟨hs0, hs1, -⟩ := slice_of_append (by omega) hl hs
      simp only [List.length_append, length_toLe, List.length_singleton] at hs0 hs1
      refine ⟨ts, .rm, by omega, hs0, ?_⟩
      refine bind_eq_ok.mpr ⟨(key, cursor + 9 + 4 + key.length), ?_, ?_⟩
      · rw [readField_eq_ok (by omega)]
        exact ⟨hf, rfl, by omega, by rw [← hs1]; congr 1; omega⟩
      · simp only [Except.ok.injEq, Prod.mk.injEq, true_and]; omega

/-! ## The record -/

/-- A buffer decodes to `c` exactly when it starts with the encoding of `c`
and the lengths of `c` fit their fields. -/
theorem deserialize_eq_ok {buf : Bytes} {c : Command} {n : ℕ} :
    deserialize crc buf = .ok (c, n) ↔
      c.Fits ∧ n = (c.serialize crc).length ∧ n ≤ buf.length ∧ buf.take n = c.serialize crc := by
  have htake : buf.take n = slice buf 0 n := by simp [slice]
  rw [htake]
  unfold deserialize
  constructor
  · intro h
    obtain ⟨⟨stored, c0⟩, h0, hrest⟩ := bind_eq_ok.mp h
    obtain ⟨⟨bl, c1⟩, h1, hbody⟩ := bind_eq_ok.mp hrest
    obtain ⟨-, hl0, hv0, rfl⟩ := readU32_eq_ok.mp (ofIo_eq_ok.mp h0)
    obtain ⟨-, hl1, hv1, rfl⟩ := readU32_eq_ok.mp (ofIo_eq_ok.mp h1)
    simp only at hl1 hv1 hbody
    by_cases hlen : buf.length < headerLen + bl.toNat
    · rw [if_pos hlen] at hbody; cases hbody
    rw [if_neg hlen] at hbody
    by_cases hcrc : crc (slice buf crcLen (headerLen + bl.toNat)) ≠ stored
    · rw [if_pos hcrc] at hbody; cases hbody
    rw [if_neg hcrc] at hbody
    obtain ⟨⟨d, stop⟩, h2, hend⟩ := bind_eq_ok.mp hbody
    by_cases hstop : stop ≠ headerLen + bl.toNat
    · simp only [if_pos hstop] at hend; cases hend
    simp only [if_neg hstop, Except.ok.injEq, Prod.mk.injEq] at hend
    obtain ⟨rfl, rfl⟩ := hend
    obtain ⟨-, hstop', -, hs⟩ := (readBody_eq_ok (by omega)).mp h2
    -- the body length field is the real one, so the checksum covers `checked d`
    have hbl : bl.toNat = d.encodedBodyLen := by unfold headerLen at hstop; omega
    have hfit : d.Fits := by rw [Fits, ← hbl]; exact bl.toNat_lt
    have hchk : slice buf 4 (8 + bl.toNat) = d.checked := by
      rw [← slice_join (i := 4) (j := 8) (by omega) (by omega)]
      unfold checked
      rw [← hbl, hv1, ← hs]
      simp only [headerLen] at hstop ⊢
      rw [show stop = 8 + bl.toNat by omega]
    refine ⟨hfit, by rw [length_serialize, hbl], by omega, ?_⟩
    unfold serialize
    unfold crcLen headerLen at hcrc
    rw [hchk] at hcrc
    rw [not_not.mp hcrc, hv0, ← hchk]
    exact (slice_join (by omega) (by unfold headerLen; omega)).symm
  · rintro ⟨hfit, rfl, hl, hs⟩
    rw [length_serialize] at hl hs ⊢
    unfold headerLen at *
    have hn : (UInt32.ofNat c.encodedBodyLen).toNat = c.encodedBodyLen := by
      rw [UInt32.toNat_ofNat', Nat.mod_eq_of_lt hfit]
    obtain ⟨hs0, hs1, -⟩ := slice_of_append (by omega) hl hs
    simp only [length_toLe, Nat.zero_add] at hs0 hs1
    obtain ⟨hs2, hs3, -⟩ := slice_of_append (by omega) hl hs1
    simp only [length_toLe] at hs2 hs3
    refine bind_eq_ok.mpr ⟨(crc c.checked, 4), ?_, ?_⟩
    · rw [ofIo_eq_ok, readU32_eq_ok]
      exact ⟨by omega, by omega, hs0.symm, rfl⟩
    refine bind_eq_ok.mpr ⟨(UInt32.ofNat c.encodedBodyLen, 8), ?_, ?_⟩
    · rw [ofIo_eq_ok, readU32_eq_ok]
      exact ⟨by omega, by omega, by rw [hn]; exact hs2.symm, rfl⟩
    simp only [hn]
    rw [if_neg (by omega), if_neg (by unfold crcLen; rw [hs1]; simp)]
    refine bind_eq_ok.mpr ⟨(c, 8 + c.encodedBodyLen), ?_, by simp⟩
    rw [readBody_eq_ok (by omega)]
    exact ⟨hfit.fields, rfl, hl, hs3⟩

/-- An encoded command decodes to itself, whatever follows. -/
theorem deserialize_serialize {c : Command} (h : c.Fits) (rest : Bytes) :
    deserialize crc (c.serialize crc ++ rest) = .ok (c, (c.serialize crc).length) := by
  rw [deserialize_eq_ok]
  exact ⟨h, rfl, by simp, by simp⟩

/-- The record codec is exact in both directions: an encoded command decodes to itself whatever
follows it, and what decodes starts with the one encoding of its command and may be followed by
anything. -/
theorem record_codec_exact :
    (∀ c : Command, c.Fits → ∀ rest,
      deserialize crc (c.serialize crc ++ rest) = .ok (c, (c.serialize crc).length)) ∧
    ∀ buf c n, deserialize crc buf = .ok (c, n) →
      n ≤ buf.length ∧ c.serialize crc = buf.take n ∧
        ∀ rest, deserialize crc (buf.take n ++ rest) = .ok (c, n) := by
  refine ⟨fun c hc rest => deserialize_serialize crc hc rest, fun buf c n h => ?_⟩
  obtain ⟨hfit, hn, hle, htake⟩ := (deserialize_eq_ok crc).mp h
  refine ⟨hle, htake.symm, fun rest => ?_⟩
  rw [htake, hn]
  exact deserialize_serialize crc hfit rest

/-- The header of an encoding carries its body length. -/
theorem bodyLen_serialize {c : Command} (h : c.Fits) (rest : Bytes) :
    bodyLen ((c.serialize crc ++ rest).take headerLen) = c.encodedBodyLen := by
  have hs : slice ((c.serialize crc ++ rest).take headerLen) crcLen headerLen =
      toLe 4 c.encodedBodyLen := by
    unfold serialize checked slice crcLen headerLen
    simp [List.take_append]
  rw [bodyLen, hs, ofLe_toLe_of_lt (lt_of_lt_of_eq h (by norm_num))]

end Command

end Bitcask
