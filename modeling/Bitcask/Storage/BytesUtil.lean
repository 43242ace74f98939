import Bitcask.Lib.LittleEndian
import Bitcask.Storage.Error

/-!
# Bytes of text, and reading fields at a cursor

`asBytes` is the UTF-8 encoding of a string, which `from_utf8` inverts exactly.

`BytesUtil`: the readers of fixed-width little-endian fields and of byte strings at a cursor. The
three multi-byte readers share one check, `readSlice`, which differs only in the width and in the
message of an overflowing cursor. A read succeeds exactly when its bytes lie inside the buffer
(`readSlice_eq_ok`).
-/

namespace Bitcask

open LittleEndian

/-! ## Text -/

/-- `str::as_bytes`. -/
def asBytes (s : String) : Bytes := s.toByteArray.data.toList

theorem fromUTF8_asBytes (text : String) :
    String.fromUTF8? ⟨(asBytes text).toArray⟩ = some text := by
  have hb : (⟨(asBytes text).toArray⟩ : ByteArray) = text.toByteArray := by
    unfold asBytes
    rw [Array.toArray_toList]
  rw [hb, String.fromUTF8?, dif_pos text.isValidUTF8]
  rfl

theorem asBytes_of_fromUTF8 {b : Bytes} {text : String}
    (h : String.fromUTF8? ⟨b.toArray⟩ = some text) : asBytes text = b := by
  unfold String.fromUTF8? at h
  split at h
  · obtain rfl := Option.some.inj h
    rfl
  · cases h

theorem asBytes_injective : Function.Injective asBytes := by
  intro x y h
  have hx := fromUTF8_asBytes x
  rw [h, fromUTF8_asBytes y] at hx
  exact (Option.some.inj hx).symm

theorem asBytes_append (s t : String) : asBytes (s ++ t) = asBytes s ++ asBytes t := by
  unfold asBytes
  rw [String.toByteArray_append, ByteArray.data_append, Array.toList_append]

theorem asBytes_eq (s : String) : asBytes s = s.toList.flatMap String.utf8EncodeChar := by
  rw [asBytes, ← String.utf8Encode_toList, List.utf8Encode, List.data_toByteArray]

/-- A byte below 128 is a character of its own. -/
theorem char_of_low_byte {c : Char} {b : UInt8} (hb : b < 128) (h : b ∈ String.utf8EncodeChar c) :
    c.toNat = b.toNat := by
  have hb : b.toNat < 128 := hb
  have hhigh : ∀ n, 128 ≤ n → n < 256 → b ≠ UInt8.ofNat n := by
    rintro n h1 h2 rfl
    rw [UInt8.toNat_ofNat', Nat.mod_eq_of_lt h2] at hb
    omega
  unfold String.utf8EncodeChar at h
  dsimp only at h
  split at h
  · rename_i hv
    rw [List.mem_singleton.mp h, UInt8.toNat_ofNat', Nat.mod_eq_of_lt (by omega)]
    rfl
  · -- all bytes of the longer encodings are at least 128
    exfalso
    split at h
    · simp only [List.mem_cons, List.not_mem_nil, or_false] at h
      rcases h with h | h
      all_goals exact hhigh _ (by omega) (by omega) h
    split at h
    · simp only [List.mem_cons, List.not_mem_nil, or_false] at h
      rcases h with h | h | h
      all_goals exact hhigh _ (by omega) (by omega) h
    · simp only [List.mem_cons, List.not_mem_nil, or_false] at h
      rcases h with h | h | h | h
      all_goals exact hhigh _ (by omega) (by omega) h

theorem mem_asBytes_low {s : String} {b : UInt8} (hb : b < 128) (h : b ∈ asBytes s) :
    ∃ c ∈ s.toList, c.toNat = b.toNat := by
  rw [asBytes_eq] at h
  obtain ⟨c, hc, hbc⟩ := List.mem_flatMap.mp h
  exact ⟨c, hc, char_of_low_byte hb hbc⟩

/-- There are texts of every length. -/
theorem length_asBytes_replicate (n : ℕ) :
    (asBytes (String.ofList (List.replicate n 'a'))).length = n := by
  have ha : 'a'.utf8Size = 1 := rfl
  rw [asBytes_eq, String.toList_ofList, List.length_flatMap]
  simp [ha]

/-! ## Fields -/

namespace BytesUtil

/-- `usize::checked_add` on a 64-bit target. -/
def checkedAdd (a b : ℕ) : Option ℕ := if a + b < 2 ^ 64 then some (a + b) else none

/-- The bytes `cursor, …, cursor + len - 1` of `buf` and the cursor after them. -/
def readSlice (overflow : String) (buf : Bytes) (cursor len : ℕ) : Except IoError (Bytes × ℕ) :=
  match checkedAdd cursor len with
  | none => .error ⟨.invalidData, overflow⟩
  | some stop =>
    if stop > buf.length then .error ⟨.unexpectedEof, "unexpected end of buffer"⟩
    else .ok (slice buf cursor stop, stop)

def readU8 (buf : Bytes) (cursor : ℕ) : Except IoError (UInt8 × ℕ) :=
  match buf[cursor]? with
  | none => .error ⟨.unexpectedEof, "unexpected end of buffer"⟩
  | some value => .ok (value, cursor + 1)

/-- The `w`-byte little-endian number at the cursor. -/
def readLe (w : ℕ) (buf : Bytes) (cursor : ℕ) : Except IoError (ℕ × ℕ) :=
  (readSlice "cursor overflow" buf cursor w).map fun r => (ofLe r.1, r.2)

def readU32 (buf : Bytes) (cursor : ℕ) : Except IoError (UInt32 × ℕ) :=
  (readLe 4 buf cursor).map fun r => (UInt32.ofNat r.1, r.2)

def readU64 (buf : Bytes) (cursor : ℕ) : Except IoError (UInt64 × ℕ) :=
  (readLe 8 buf cursor).map fun r => (UInt64.ofNat r.1, r.2)

def readBytes (buf : Bytes) (cursor len : ℕ) : Except IoError (Bytes × ℕ) :=
  readSlice "length overflow" buf cursor len

/-! ## When a read succeeds -/

/-- A read returns the next `len` bytes, and only when they are there. -/
theorem readSlice_eq_ok {overflow : String} {buf : Bytes} {cursor len : ℕ} {r : Bytes × ℕ} :
    readSlice overflow buf cursor len = .ok r ↔
      cursor + len < 2 ^ 64 ∧ cursor + len ≤ buf.length ∧
        r = (slice buf cursor (cursor + len), cursor + len) := by
  unfold readSlice checkedAdd
  by_cases h64 : cursor + len < 2 ^ 64
  · rw [if_pos h64]
    by_cases hlen : cursor + len ≤ buf.length
    · simp only [gt_iff_lt, Nat.not_lt.mpr hlen, if_false, Except.ok.injEq, h64, hlen, true_and]
      exact eq_comm
    · simp [hlen, Nat.lt_of_not_le hlen]
  · rw [if_neg h64]
    simp only [reduceCtorEq, h64, false_and]

theorem readU8_eq_ok {buf : Bytes} {cursor : ℕ} {r : UInt8 × ℕ} :
    readU8 buf cursor = .ok r ↔ buf[cursor]? = some r.1 ∧ r.2 = cursor + 1 := by
  unfold readU8
  cases h : buf[cursor]? with
  | none => simp
  | some b =>
    obtain ⟨r1, r2⟩ := r
    simp [eq_comm]

theorem map_eq_ok {ε α β : Type} {x : Except ε α} {f : α → β} {b : β} :
    x.map f = .ok b ↔ ∃ a, x = .ok a ∧ f a = b := by
  cases x <;> simp [Except.map]

theorem readLe_eq_ok {w : ℕ} {buf : Bytes} {cursor : ℕ} {r : ℕ × ℕ} :
    readLe w buf cursor = .ok r ↔
      cursor + w < 2 ^ 64 ∧ cursor + w ≤ buf.length ∧ r.1 < 256 ^ w ∧
        toLe w r.1 = slice buf cursor (cursor + w) ∧ r.2 = cursor + w := by
  obtain ⟨n, stop⟩ := r
  unfold readLe
  rw [map_eq_ok]
  constructor
  · rintro ⟨p, hp, heq⟩
    obtain ⟨h64, hlen, rfl⟩ := readSlice_eq_ok.mp hp
    obtain ⟨rfl, rfl⟩ := Prod.mk.inj heq
    have hl : (slice buf cursor (cursor + w)).length = w := by rw [length_slice hlen]; omega
    have hlt := ofLe_lt (slice buf cursor (cursor + w))
    rw [hl] at hlt
    exact ⟨h64, hlen, hlt, toLe_ofLe_of_length hl, rfl⟩
  · rintro ⟨h64, hlen, hlt, hv, rfl⟩
    refine ⟨_, readSlice_eq_ok.mpr ⟨h64, hlen, rfl⟩, ?_⟩
    rw [← hv, ofLe_toLe_of_lt hlt]

theorem readU32_eq_ok {buf : Bytes} {cursor : ℕ} {r : UInt32 × ℕ} :
    readU32 buf cursor = .ok r ↔
      cursor + 4 < 2 ^ 64 ∧ cursor + 4 ≤ buf.length ∧
        toLe 4 r.1.toNat = slice buf cursor (cursor + 4) ∧ r.2 = cursor + 4 := by
  obtain ⟨v, stop⟩ := r
  unfold readU32
  rw [map_eq_ok]
  constructor
  · rintro ⟨⟨n, c⟩, hp, heq⟩
    obtain ⟨h64, hlen, hlt, hv, hc⟩ := readLe_eq_ok.mp hp
    obtain ⟨rfl, rfl⟩ := Prod.mk.inj heq
    refine ⟨h64, hlen, ?_, hc⟩
    rw [UInt32.toNat_ofNat', Nat.mod_eq_of_lt (lt_of_lt_of_eq hlt (by norm_num))]
    exact hv
  · rintro ⟨h64, hlen, hv, hc⟩
    exact ⟨(v.toNat, stop), readLe_eq_ok.mpr ⟨h64, hlen, v.toNat_lt, hv, hc⟩,
      by rw [UInt32.ofNat_toNat]⟩

theorem readU64_eq_ok {buf : Bytes} {cursor : ℕ} {r : UInt64 × ℕ} :
    readU64 buf cursor = .ok r ↔
      cursor + 8 < 2 ^ 64 ∧ cursor + 8 ≤ buf.length ∧
        toLe 8 r.1.toNat = slice buf cursor (cursor + 8) ∧ r.2 = cursor + 8 := by
  obtain ⟨v, stop⟩ := r
  unfold readU64
  rw [map_eq_ok]
  constructor
  · rintro ⟨⟨n, c⟩, hp, heq⟩
    obtain ⟨h64, hlen, hlt, hv, hc⟩ := readLe_eq_ok.mp hp
    obtain ⟨rfl, rfl⟩ := Prod.mk.inj heq
    refine ⟨h64, hlen, ?_, hc⟩
    rw [UInt64.toNat_ofNat', Nat.mod_eq_of_lt (lt_of_lt_of_eq hlt (by norm_num))]
    exact hv
  · rintro ⟨h64, hlen, hv, hc⟩
    exact ⟨(v.toNat, stop), readLe_eq_ok.mpr ⟨h64, hlen, v.toNat_lt, hv, hc⟩,
      by rw [UInt64.ofNat_toNat]⟩

theorem readBytes_eq_ok {buf : Bytes} {cursor len : ℕ} {r : Bytes × ℕ} :
    readBytes buf cursor len = .ok r ↔
      cursor + len < 2 ^ 64 ∧ cursor + len ≤ buf.length ∧
        r = (slice buf cursor (cursor + len), cursor + len) :=
  readSlice_eq_ok

end BytesUtil

end Bitcask
