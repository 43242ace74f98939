import Mathlib.Data.Nat.ModEq
import Mathlib.Tactic

/-!
# Little-endian words in byte strings

A byte string is a list of bytes. `toLe w n` is the `w`-byte little-endian encoding of `n`,
truncated to `w` bytes, and `ofLe` reads a little-endian number back; they are inverse on the
numbers that fit (`ofLe_toLe`) and on all byte strings (`toLe_ofLe`). `slice b i j` is the bytes
`i, …, j - 1` of `b`.
-/

namespace LittleEndian

/-- Byte strings. -/
abbrev Bytes := List UInt8

/-- The `w` low bytes of `n`, least significant first. -/
def toLe : ℕ → ℕ → Bytes
  | 0, _ => []
  | w + 1, n => UInt8.ofNat n :: toLe w (n / 256)

/-- The number a little-endian byte string stands for. -/
def ofLe : Bytes → ℕ
  | [] => 0
  | b :: bs => b.toNat + 256 * ofLe bs

@[simp] theorem length_toLe (w n : ℕ) : (toLe w n).length = w := by
  induction w generalizing n with
  | zero => rfl
  | succ w ih => simp [toLe, ih]

theorem ofLe_toLe (w n : ℕ) : ofLe (toLe w n) = n % 256 ^ w := by
  induction w generalizing n with
  | zero => simp [toLe, ofLe, Nat.mod_one]
  | succ w ih =>
    rw [toLe, ofLe, ih, UInt8.toNat_ofNat', show (256 : ℕ) ^ (w + 1) = 256 * 256 ^ w from pow_succ' _ _,
      Nat.mod_mul]

theorem ofLe_toLe_of_lt {w n : ℕ} (h : n < 256 ^ w) : ofLe (toLe w n) = n := by
  rw [ofLe_toLe, Nat.mod_eq_of_lt h]

theorem toLe_inj {w n m : ℕ} (hn : n < 256 ^ w) (hm : m < 256 ^ w) (h : toLe w n = toLe w m) :
    n = m := by
  rw [← ofLe_toLe_of_lt hn, h, ofLe_toLe_of_lt hm]

theorem toLe_ofLe (bs : Bytes) : toLe bs.length (ofLe bs) = bs := by
  induction bs with
  | nil => rfl
  | cons b bs ih =>
    have hb := b.toNat_lt
    have hdiv : (b.toNat + 256 * ofLe bs) / 256 = ofLe bs := by omega
    have hhead : UInt8.ofNat (b.toNat + 256 * ofLe bs) = b := by
      apply UInt8.toNat_inj.mp
      rw [UInt8.toNat_ofNat']
      omega
    rw [List.length_cons, ofLe, toLe, hdiv, hhead, ih]

theorem toLe_ofLe_of_length {bs : Bytes} {w : ℕ} (h : bs.length = w) : toLe w (ofLe bs) = bs := by
  rw [← h]; exact toLe_ofLe bs

theorem ofLe_lt (bs : Bytes) : ofLe bs < 256 ^ bs.length := by
  induction bs with
  | nil => simp [ofLe]
  | cons b bs ih =>
    have hb := b.toNat_lt
    rw [List.length_cons, ofLe, pow_succ']
    omega

/-- The bytes `i, …, j - 1` of `b`. -/
def slice (b : Bytes) (i j : ℕ) : Bytes := (b.take j).drop i

theorem length_slice {b : Bytes} {i j : ℕ} (hj : j ≤ b.length) : (slice b i j).length = j - i := by
  simp [slice, Nat.min_eq_left hj]

/-- A slice of an append that lies past the first part. -/
theorem slice_append_right (a b : Bytes) (i j : ℕ) :
    slice (a ++ b) (a.length + i) (a.length + j) = slice b i j := by
  simp [slice, List.take_append, List.drop_append]

/-- The slice that covers exactly the middle part. -/
theorem slice_middle (a m b : Bytes) : slice (a ++ (m ++ b)) a.length (a.length + m.length) = m := by
  rw [← Nat.add_zero a.length, Nat.add_assoc, slice_append_right, Nat.zero_add]
  simp [slice]

/-- A slice that ends inside the first part does not see the second. -/
theorem slice_append_left {a : Bytes} (b : Bytes) {i j : ℕ} (hj : j ≤ a.length) :
    slice (a ++ b) i j = slice a i j := by
  rw [slice, slice, List.take_append_of_le_length hj]

theorem slice_full (b : Bytes) : slice b 0 b.length = b := by simp [slice]

/-- Adjacent slices join. -/
theorem slice_join {b : Bytes} {i j k : ℕ} (hij : i ≤ j) (hjk : j ≤ k) :
    slice b i j ++ slice b j k = slice b i k := by
  have h : (b.take k).take j = b.take j := by rw [List.take_take, Nat.min_eq_left hjk]
  unfold slice
  calc (b.take j).drop i ++ (b.take k).drop j
      = ((b.take k).take j).drop i ++ (b.take k).drop j := by rw [h]
    _ = (b.take k).drop i := by
        conv_rhs => rw [← List.take_append_drop j (b.take k)]
        rw [List.drop_append]
        by_cases hl : i ≤ ((b.take k).take j).length
        · rw [Nat.sub_eq_zero_of_le hl, List.drop_zero]
        · have hlen : ((b.take k).take j).length < i := Nat.lt_of_not_le hl
          have hk : (b.take k).length < j := by
            rw [List.length_take] at hlen
            omega
          have hnil : (b.take k).drop j = [] := List.drop_eq_nil_of_le (by omega)
          rw [hnil, List.drop_nil]

/-- A slice that is an append splits at the boundary. -/
theorem slice_of_append {b x y : Bytes} {i k : ℕ} (hik : i ≤ k) (hk : k ≤ b.length)
    (h : slice b i k = x ++ y) :
    slice b i (i + x.length) = x ∧ slice b (i + x.length) k = y ∧ i + x.length ≤ k := by
  have hlen := congrArg List.length h
  rw [length_slice hk, List.length_append] at hlen
  have hjoin := slice_join (b := b) (i := i) (j := i + x.length) (k := k) (by omega) (by omega)
  rw [h] at hjoin
  have hx : (slice b i (i + x.length)).length = x.length := by
    rw [length_slice (by omega)]; omega
  obtain ⟨h1, h2⟩ := List.append_inj hjoin hx
  exact ⟨h1, h2, by omega⟩

end LittleEndian
