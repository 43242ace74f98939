import Bitcask.Lib.LittleEndian

/-!
# CRC-32

The checksum of `crc32fast`: CRC-32 with the reflected polynomial `0xEDB88320`, bit by bit. The
development is generic in the checksum; this one is used where a run is evaluated, and where it
matters that a damaged record has another checksum.

A byte of the message is eight bits of the division (`crcByte_eq`), and a bit of the division loses
nothing (`crcBit_injective`). So a message with one byte changed has another checksum (`crc32_ne`).
-/

namespace Bitcask

open LittleEndian

/-- One bit of the division. -/
def crcBit (c : UInt32) : UInt32 := if c &&& 1 = 1 then (c >>> 1) ^^^ 0xEDB88320 else c >>> 1

/-- One byte of the message. -/
def crcByte (c : UInt32) (b : UInt8) : UInt32 :=
  crcBit^[8] ((c ^^^ b.toUInt32) &&& 0xff) ^^^ (c >>> 8)

/-- `crc32fast::hash`. -/
def crc32 (message : Bytes) : UInt32 := message.foldl crcByte 0xFFFFFFFF ^^^ 0xFFFFFFFF

-- the check value of the algorithm, for the message "123456789"
example : crc32 [0x31, 0x32, 0x33, 0x34, 0x35, 0x36, 0x37, 0x38, 0x39] = 0xCBF43926 := by
  decide +kernel

/-! ## A changed byte changes the checksum -/

theorem crcBit_low (c : UInt32) : c &&& 1 = 1 ↔ c.toBitVec.getLsbD 0 = true := by
  have h : (c &&& 1).toBitVec = BitVec.setWidth 32 (BitVec.ofBool (c.toBitVec.getLsbD 0)) := by
    rw [UInt32.toBitVec_and]
    exact BitVec.and_one_eq_setWidth_ofBool_getLsbD
  rw [← UInt32.toBitVec_inj, h]
  cases c.toBitVec.getLsbD 0 <;> decide

/-- One bit of the division: the bit that is shifted out decides whether the polynomial is
subtracted. -/
theorem crcBit_toBitVec (c : UInt32) : (crcBit c).toBitVec =
    (c.toBitVec >>> 1) ^^^ bif c.toBitVec.getLsbD 0 then 0xEDB88320#32 else 0#32 := by
  unfold crcBit
  simp only [crcBit_low]
  cases c.toBitVec.getLsbD 0 <;> simp

/-- The polynomial has its top bit set, so the bit that was shifted out can be read off. -/
theorem crcBit_top (c : UInt32) : (crcBit c).toBitVec.getLsbD 31 = c.toBitVec.getLsbD 0 := by
  rw [crcBit_toBitVec, BitVec.getLsbD_xor, BitVec.getLsbD_ushiftRight,
    BitVec.getLsbD_of_ge _ _ (by decide), Bool.false_xor]
  cases c.toBitVec.getLsbD 0 <;> rfl

theorem crcBit_injective : Function.Injective crcBit := by
  intro c d h
  have hlow : c.toBitVec.getLsbD 0 = d.toBitVec.getLsbD 0 := by
    rw [← crcBit_top, ← crcBit_top, h]
  have hshift : c.toBitVec >>> 1 = d.toBitVec >>> 1 := by
    have hb := congrArg UInt32.toBitVec h
    rw [crcBit_toBitVec, crcBit_toBitVec, hlow] at hb
    simpa using hb
  apply UInt32.toBitVec_inj.mp
  apply BitVec.eq_of_getLsbD_eq
  intro i hi
  cases i with
  | zero => exact hlow
  | succ i =>
    have hi := congrArg (fun x => x.getLsbD i) hshift
    simpa [BitVec.getLsbD_ushiftRight, Nat.add_comm] using hi

/-- The division is linear. -/
theorem crcBit_xor (c d : UInt32) : crcBit (c ^^^ d) = crcBit c ^^^ crcBit d := by
  apply UInt32.toBitVec_inj.mp
  rw [UInt32.toBitVec_xor, crcBit_toBitVec, crcBit_toBitVec, crcBit_toBitVec, UInt32.toBitVec_xor,
    BitVec.getLsbD_xor, BitVec.ushiftRight_xor_distrib]
  apply BitVec.eq_of_getLsbD_eq
  intro i hi
  cases c.toBitVec.getLsbD 0 <;> cases d.toBitVec.getLsbD 0 <;>
    simp [-Bool.bne_assoc, Bool.xor_assoc, Bool.xor_comm, Bool.xor_left_comm]

/-- A remainder whose low bits are clear only moves down. -/
theorem crcBit_high {c : UInt32} {n : ℕ} (h : ∀ i < n, c.toBitVec.getLsbD i = false) :
    (crcBit^[n] c).toBitVec = c.toBitVec >>> n := by
  induction n with
  | zero => simp
  | succ n ih =>
    have ih := ih fun i hi => h i (Nat.lt_succ_of_lt hi)
    have hlow : (c.toBitVec >>> n).getLsbD 0 = false := by
      rw [BitVec.getLsbD_ushiftRight, Nat.add_zero]
      exact h n (Nat.lt_succ_self n)
    rw [Function.iterate_succ_apply', crcBit_toBitVec, ih, hlow, BitVec.shiftRight_add]
    exact BitVec.xor_zero

theorem crcBit_iterate_xor (n : ℕ) (c d : UInt32) :
    crcBit^[n] (c ^^^ d) = crcBit^[n] c ^^^ crcBit^[n] d := by
  induction n with
  | zero => rfl
  | succ n ih => rw [Function.iterate_succ_apply', Function.iterate_succ_apply', ih, crcBit_xor,
      Function.iterate_succ_apply']

/-- The bits of a remainder above its low byte. -/
theorem getLsbD_high (x : UInt32) (i : ℕ) :
    (x &&& ~~~0xff).toBitVec.getLsbD i = (decide (8 ≤ i) && x.toBitVec.getLsbD i) := by
  have hmask : (0xff#32).getLsbD i = decide (i < 8) := by
    rw [BitVec.getLsbD_ofNat, show 0xff = 2 ^ 8 - 1 from rfl, Nat.testBit_two_pow_sub_one]
    by_cases h : i < 8
    · simp [h, show i < 32 by omega]
    · simp [h]
  rw [UInt32.toBitVec_and, UInt32.toBitVec_not, BitVec.getLsbD_and, BitVec.getLsbD_not]
  show (x.toBitVec.getLsbD i && (decide (i < 32) && !(0xff#32).getLsbD i)) = _
  rw [hmask]
  by_cases h : i < 32
  · by_cases h8 : 8 ≤ i
    · simp [h, h8, Nat.not_lt.mpr h8]
    · simp [h8, Nat.not_le.mp h8]
  · simp [BitVec.getLsbD_of_ge x.toBitVec i (by omega)]

theorem xor_low_high (x : UInt32) : (x &&& 0xff) ^^^ (x &&& ~~~0xff) = x := by
  apply UInt32.toBitVec_inj.mp
  apply BitVec.eq_of_getElem_eq
  intro i hi
  rw [UInt32.toBitVec_xor, UInt32.toBitVec_and, UInt32.toBitVec_and, UInt32.toBitVec_not]
  simp only [BitVec.getElem_xor, BitVec.getElem_and, BitVec.getElem_not]
  cases x.toBitVec[i] <;> simp

/-- A byte of the message is eight bits of the division: the low byte of the remainder is divided,
and the rest of it moves down. -/
theorem crcByte_eq (c : UInt32) (b : UInt8) : crcByte c b = crcBit^[8] (c ^^^ b.toUInt32) := by
  have hhigh : crcBit^[8] ((c ^^^ b.toUInt32) &&& ~~~0xff) = c >>> 8 := by
    apply UInt32.toBitVec_inj.mp
    rw [crcBit_high fun i hi => by rw [getLsbD_high, decide_eq_false (by omega)]; rfl]
    apply BitVec.eq_of_getLsbD_eq
    intro i hi
    have hb : b.toUInt32.toBitVec.getLsbD (8 + i) = false := by
      rw [UInt8.toBitVec_toUInt32, BitVec.getLsbD_setWidth, BitVec.getLsbD_of_ge _ _ (by omega),
        Bool.and_false]
    rw [BitVec.getLsbD_ushiftRight, getLsbD_high, decide_eq_true (by omega), Bool.true_and,
      UInt32.toBitVec_xor, BitVec.getLsbD_xor, hb, Bool.xor_false, UInt32.toBitVec_shiftRight]
    exact (BitVec.getLsbD_ushiftRight ..).symm
  unfold crcByte
  conv_rhs => rw [← xor_low_high (c ^^^ b.toUInt32), crcBit_iterate_xor, hhigh]

theorem xor_left_injective (d : UInt32) : Function.Injective fun c => c ^^^ d := by
  intro a b h
  have h := congrArg (fun c => c ^^^ d) h
  simpa [UInt32.xor_assoc] using h

theorem crcByte_injective_left (b : UInt8) : Function.Injective fun c => crcByte c b := by
  intro c d h
  simp only [crcByte_eq] at h
  exact xor_left_injective _ (crcBit_injective.iterate 8 h)

theorem crcByte_injective_right (c : UInt32) : Function.Injective (crcByte c) := by
  intro a b h
  rw [crcByte_eq, crcByte_eq, UInt32.xor_comm c, UInt32.xor_comm c] at h
  have h := xor_left_injective _ (crcBit_injective.iterate 8 h)
  have h := congrArg UInt32.toNat h
  rw [UInt8.toNat_toUInt32, UInt8.toNat_toUInt32] at h
  exact UInt8.toNat_inj.mp h

/-- Different remainders stay different. -/
theorem foldl_crcByte_injective (m : Bytes) : Function.Injective fun c => m.foldl crcByte c := by
  intro c d h
  induction m generalizing c d with
  | nil => exact h
  | cons b m ih => exact crcByte_injective_left b (ih h)

/-- A message with one byte changed has another checksum. -/
theorem crc32_ne {a b : UInt8} (h : a ≠ b) (x y : Bytes) :
    crc32 (x ++ a :: y) ≠ crc32 (x ++ b :: y) := by
  intro he
  unfold crc32 at he
  have he := xor_left_injective _ he
  rw [List.foldl_append, List.foldl_append, List.foldl_cons, List.foldl_cons] at he
  exact h (crcByte_injective_right _ (foldl_crcByte_injective y he))

end Bitcask
