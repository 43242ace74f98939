import Bitcask.Storage.BytesUtil

/-!
# Decimal numbers as text

Numbers as the protocol and the names of the files spell them. `decimal` is what `write!` shows of an
unsigned number, `SpellsNat n digits` is any spelling of `n`, with as many leading zeros as one
likes, and `boundedDigits` is what the parsers of the standard library accept of it.
-/

namespace Bitcask

open LittleEndian

/-- `u8::is_ascii_digit`. -/
def isDigit (d : UInt8) : Bool := 48 ≤ d && d ≤ 57

/-- The number that a string of digits stands for. -/
def digitsToNat (digits : Bytes) : ℕ := digits.foldl (fun n d => n * 10 + (d.toNat - 48)) 0

/-- Digits of a number at most `max`. -/
def boundedDigits (max : ℕ) (digits : Bytes) : Option ℕ :=
  if digits ≠ [] ∧ digits.all isDigit ∧ digitsToNat digits ≤ max then some (digitsToNat digits)
  else none

/-- A `usize` as `write!` shows it. -/
def decimal (n : ℕ) : Bytes :=
  if n < 10 then [UInt8.ofNat (48 + n)] else decimal (n / 10) ++ [UInt8.ofNat (48 + n % 10)]

/-- Digits of the number `n`. -/
def SpellsNat (n : ℕ) (digits : Bytes) : Prop :=
  digits ≠ [] ∧ digits.all isDigit ∧ digitsToNat digits = n

theorem digitsToNat_append (a : Bytes) (d : UInt8) :
    digitsToNat (a ++ [d]) = digitsToNat a * 10 + (d.toNat - 48) := by
  unfold digitsToNat
  rw [List.foldl_append]
  rfl

/-- The digits of a number, and the number they stand for. -/
theorem decimal_spec (n : ℕ) :
    decimal n ≠ [] ∧ (decimal n).all isDigit ∧ digitsToNat (decimal n) = n := by
  induction n using Nat.strong_induction_on with
  | _ n ih =>
  have hdigit : ∀ d < 10, (UInt8.ofNat (48 + d)).toNat = 48 + d ∧ isDigit (UInt8.ofNat (48 + d)) := by
    decide
  rw [decimal]
  split
  · rename_i hn
    obtain ⟨h1, h2⟩ := hdigit n hn
    refine ⟨List.cons_ne_nil _ _, by rw [List.all_cons, h2]; rfl, ?_⟩
    show 0 * 10 + ((UInt8.ofNat (48 + n)).toNat - 48) = n
    rw [h1]
    omega
  · rename_i hn
    obtain ⟨-, ih2, ih3⟩ := ih (n / 10) (by omega)
    obtain ⟨h1, h2⟩ := hdigit (n % 10) (Nat.mod_lt _ (by decide))
    refine ⟨by simp, by rw [List.all_append, ih2, List.all_cons, h2]; rfl, ?_⟩
    rw [digitsToNat_append, ih3, h1]
    omega

theorem length_decimal {n k : ℕ} (h : n < 10 ^ (k + 1)) : (decimal n).length ≤ k + 1 := by
  induction k generalizing n with
  | zero => rw [decimal, if_pos (by omega)]; rfl
  | succ k ih =>
    rw [decimal]
    split
    · simp
    · rw [List.length_append, List.length_singleton]
      exact Nat.add_le_add_right (ih (by rw [pow_succ] at h; omega)) 1

theorem spellsNat_decimal (n : ℕ) : SpellsNat n (decimal n) := decimal_spec n

theorem SpellsNat.head {n : ℕ} {c : UInt8} {digits : Bytes} (h : SpellsNat n (c :: digits)) :
    c ≠ 45 ∧ c ≠ 43 := by
  have hc : isDigit c := by
    have := h.2.1
    rw [List.all_cons, Bool.and_eq_true] at this
    exact this.1
  constructor
  · rintro rfl
    exact absurd hc (by decide)
  · rintro rfl
    exact absurd hc (by decide)

theorem SpellsNat.ascii {n : ℕ} {digits : Bytes} (h : SpellsNat n digits) :
    ∀ x ∈ digits, x < 128 := by
  intro x hx
  have := List.all_eq_true.mp h.2.1 x hx
  unfold isDigit at this
  simp only [Bool.and_eq_true, decide_eq_true_eq] at this
  exact UInt8.lt_of_le_of_lt this.2 (by decide)

theorem boundedDigits_iff {max n : ℕ} {digits : Bytes} :
    boundedDigits max digits = some n ↔ SpellsNat n digits ∧ n ≤ max := by
  unfold boundedDigits
  constructor
  · intro h
    split at h
    · rename_i hd
      cases h
      exact ⟨⟨hd.1, hd.2.1, rfl⟩, hd.2.2⟩
    · cases h
  · rintro ⟨⟨hne, hall, rfl⟩, hmax⟩
    rw [if_pos ⟨hne, hall, hmax⟩]

theorem digitsToNat_lt {digits : Bytes} (h : digits.all isDigit) :
    digitsToNat digits < 10 ^ digits.length := by
  induction digits using List.reverseRecOn with
  | nil => exact Nat.one_pos
  | append_singleton ds d ih =>
    rw [List.all_append, Bool.and_eq_true] at h
    have hd : d.toNat - 48 < 10 := by
      have hd := h.2
      simp only [List.all_cons, List.all_nil, Bool.and_true] at hd
      unfold isDigit at hd
      simp only [Bool.and_eq_true, decide_eq_true_eq] at hd
      have := UInt8.le_iff_toNat_le.mp hd.2
      have : (57 : UInt8).toNat = 57 := rfl
      omega
    have := ih h.1
    rw [digitsToNat_append, List.length_append, List.length_singleton, pow_succ]
    omega

theorem digitsToNat_append_digits (a b : Bytes) :
    digitsToNat (a ++ b) = digitsToNat a * 10 ^ b.length + digitsToNat b := by
  induction b using List.reverseRecOn with
  | nil => simp [digitsToNat]
  | append_singleton b d ih =>
    rw [← List.append_assoc, digitsToNat_append, ih, digitsToNat_append, List.length_append,
      List.length_singleton, pow_succ]
    ring

/-- Digits of the same number are the same if there are as many of them. -/
theorem digits_eq_of_length_eq {a b : Bytes} (ha : a.all isDigit) (hb : b.all isDigit)
    (hlen : a.length = b.length) (h : digitsToNat a = digitsToNat b) : a = b := by
  have hval : ∀ d : UInt8, isDigit d → d.toNat - 48 < 10 ∧ 48 ≤ d.toNat := by
    intro d hd
    have hall : [d].all isDigit := by simpa using hd
    have hlt := digitsToNat_lt hall
    unfold isDigit at hd
    simp only [Bool.and_eq_true, decide_eq_true_eq] at hd
    have h48 := UInt8.le_iff_toNat_le.mp hd.1
    exact ⟨by simpa [digitsToNat] using hlt, h48⟩
  induction a using List.reverseRecOn generalizing b with
  | nil => exact (List.length_eq_zero_iff.mp hlen.symm).symm
  | append_singleton a x ih =>
    obtain rfl | ⟨b, y, rfl⟩ := List.eq_nil_or_concat' b
    · simp at hlen
    rw [List.all_append, Bool.and_eq_true] at ha hb
    obtain ⟨hx, hx'⟩ := hval x (by simpa using ha.2)
    obtain ⟨hy, hy'⟩ := hval y (by simpa using hb.2)
    rw [digitsToNat_append, digitsToNat_append] at h
    have hxy : x = y := UInt8.toNat_inj.mp (by omega)
    rw [hxy, ih ha.1 hb.1 (by simpa using hlen) (by omega)]

/-- Bytes below 128 are the UTF-8 encoding of a string. -/
theorem fromUTF8_ascii {b : Bytes} (h : ∀ x ∈ b, x < 128) :
    ∃ text, String.fromUTF8? ⟨b.toArray⟩ = some text := by
  have hnat : ∀ n < 128, String.utf8EncodeChar (Char.ofNat n) = [UInt8.ofNat n] := by
    decide +kernel
  have hchar : ∀ x : UInt8, x < 128 → String.utf8EncodeChar (Char.ofNat x.toNat) = [x] := by
    intro x hx
    rw [hnat x.toNat (UInt8.lt_iff_toNat_lt.mp hx), UInt8.ofNat_toNat]
  refine ⟨String.ofList (b.map fun x => Char.ofNat x.toNat), ?_⟩
  have hb : asBytes (String.ofList (b.map fun x => Char.ofNat x.toNat)) = b := by
    rw [asBytes_eq, String.toList_ofList, List.flatMap_map]
    induction b with
    | nil => rfl
    | cons x b ih =>
      rw [List.flatMap_cons, hchar x (h x List.mem_cons_self),
        ih fun y hy => h y (List.mem_cons_of_mem _ hy)]
      rfl
  conv_lhs => rw [← hb]
  exact fromUTF8_asBytes _

end Bitcask
