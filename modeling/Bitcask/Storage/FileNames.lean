import Bitcask.Storage.Decimal
import Bitcask.Storage.Store

/-!
# The names of the files

The names the store gives to its files, and what the walk of `open` makes of any name. A `&str` is
its UTF-8 bytes.

1. `u64FromStr_iff`: `parse::<u64>` takes an optional plus sign and any number of leading zeros.
2. `FileName.text` is injective, and the walk sees each name as what it is (`classify_text`).
3. Many names are read as one file id. `Plain` is the one the store writes (`plain_iff`).
-/

namespace Bitcask

open LittleEndian

/-- `u64::from_str`: an optional plus sign, and digits of a number in range. -/
def u64FromStr : Bytes → Option ℕ
  | [] => none
  | c :: digits =>
    if c = 43 then boundedDigits (2 ^ 64 - 1) digits else boundedDigits (2 ^ 64 - 1) (c :: digits)

/-- `str::strip_suffix`. -/
def stripSuffix (s suffix : Bytes) : Option Bytes :=
  if suffix <:+ s then some (s.take (s.length - suffix.length)) else none

/-- `{:06}`. -/
def padded (id : ℕ) : Bytes := List.replicate (6 - (decimal id).length) 48 ++ decimal id

def dataFileName (id : ℕ) : Bytes := padded id ++ asBytes ".data"

def dataFileNameCompaction (id : ℕ) : Bytes := dataFileName id ++ asBytes ".compact"

def hintFileName (id : ℕ) : Bytes := padded id ++ asBytes ".hint"

/-- `LOCK_FILE_NAME`. -/
def lockFileName : Bytes := asBytes "kvs.lock"

def getFileId (fileName : Bytes) : Option ℕ :=
  (stripSuffix fileName (asBytes ".data")).bind u64FromStr

/-- What the walk of `open` makes of a file by its name. -/
inductive DirEntry
  | data (id : ℕ)
  | leftover
  | hint (id : ℕ)
  | other
  deriving DecidableEq, Repr

/-- The tests of the walk, in their order. A name that is no UTF-8 is passed over. -/
def classify (fileName : Bytes) : DirEntry :=
  if (String.fromUTF8? ⟨fileName.toArray⟩).isNone then .other
  else
    match getFileId fileName with
    | some id => .data id
    | none =>
      if asBytes ".data.compact" <:+ fileName then .leftover
      else
        match (stripSuffix fileName (asBytes ".hint")).bind u64FromStr with
        | some id => .hint id
        | none => .other

/-- The text of a name. -/
def FileName.text : FileName → Bytes
  | .data id => dataFileName id
  | .compact id => dataFileNameCompaction id
  | .hint id => hintFileName id
  | .lock => lockFileName

/-! ## Reading a number -/

/-- The spellings of `n` that `parse` takes. -/
def SpellsId (n : ℕ) (stem : Bytes) : Prop :=
  SpellsNat n stem ∨ ∃ digits, stem = 43 :: digits ∧ SpellsNat n digits

theorem u64FromStr_iff {n : ℕ} {b : Bytes} :
    u64FromStr b = some n ↔ SpellsId n b ∧ n < 2 ^ 64 := by
  cases b with
  | nil =>
    refine iff_of_false (by simp [u64FromStr]) ?_
    rintro ⟨h | ⟨digits, h, -⟩, -⟩
    · exact h.1 rfl
    · cases h
  | cons c digits =>
    rw [u64FromStr]
    by_cases hc : c = 43
    · rw [if_pos hc, boundedDigits_iff, hc]
      constructor
      · rintro ⟨hs, hn⟩
        exact ⟨Or.inr ⟨digits, rfl, hs⟩, by omega⟩
      · rintro ⟨hs | ⟨digits', he, hs⟩, hn⟩
        · exact absurd rfl hs.head.2
        · rw [List.cons.inj he |>.2]
          exact ⟨hs, by omega⟩
    · rw [if_neg hc, boundedDigits_iff]
      constructor
      · rintro ⟨hs, hn⟩
        exact ⟨Or.inl hs, by omega⟩
      · rintro ⟨hs | ⟨digits', he, -⟩, hn⟩
        · exact ⟨hs, by omega⟩
        · exact absurd (List.cons.inj he).1 hc

theorem stripSuffix_eq_some {s suffix stem : Bytes} :
    stripSuffix s suffix = some stem ↔ s = stem ++ suffix := by
  unfold stripSuffix
  constructor
  · intro h
    split at h
    · rename_i hs
      obtain rfl := Option.some.inj h
      obtain ⟨t, rfl⟩ := hs
      simp
    · cases h
  · rintro rfl
    rw [if_pos (List.suffix_append ..)]
    simp

theorem getFileId_eq_some {s : Bytes} {id : ℕ} :
    getFileId s = some id ↔ ∃ stem, s = stem ++ asBytes ".data" ∧ SpellsId id stem ∧ id < 2 ^ 64 := by
  unfold getFileId
  simp only [Option.bind_eq_some_iff, stripSuffix_eq_some, u64FromStr_iff]

theorem SpellsId.ascii {n : ℕ} {stem : Bytes} (h : SpellsId n stem) : ∀ x ∈ stem, x < 128 := by
  rcases h with hs | ⟨digits, rfl, hs⟩
  · exact hs.ascii
  · intro x hx
    rcases List.mem_cons.mp hx with rfl | hx
    · decide
    · exact hs.ascii x hx

/-! ## Padded numbers -/

/-- Six digits, or more without a leading zero. -/
def Padded (stem : Bytes) : Prop :=
  stem.all isDigit ∧ (stem.length = 6 ∨ 6 < stem.length ∧ stem.head? ≠ some 48)

instance : DecidablePred Padded := fun _ => inferInstanceAs (Decidable (_ ∧ _))

theorem digitsToNat_zeros (k : ℕ) : digitsToNat (List.replicate k 48) = 0 := by
  induction k with
  | zero => rfl
  | succ k ih =>
    rw [List.replicate_succ', digitsToNat_append, ih]
    rfl

theorem spellsNat_padded (id : ℕ) : SpellsNat id (padded id) := by
  obtain ⟨hne, hall, hval⟩ := decimal_spec id
  refine ⟨fun h => hne (List.append_eq_nil_iff.mp h).2, ?_, ?_⟩
  · unfold padded
    rw [List.all_append, hall, Bool.and_true, List.all_replicate]
    simp [isDigit]
  · unfold padded
    rw [digitsToNat_append_digits, digitsToNat_zeros, hval, Nat.zero_mul, Nat.zero_add]

theorem length_padded (id : ℕ) : (padded id).length = max 6 (decimal id).length := by
  unfold padded
  rw [List.length_append, List.length_replicate]
  omega

/-- Digits without a leading zero are at least the power of ten of their length. -/
theorem le_digitsToNat {digits : Bytes} (hall : digits.all isDigit) (hne : digits ≠ [])
    (hhead : digits.head? ≠ some 48) : 10 ^ (digits.length - 1) ≤ digitsToNat digits := by
  cases digits with
  | nil => exact absurd rfl hne
  | cons d ds =>
    have hd : 1 ≤ d.toNat - 48 := by
      have h48 : d ≠ 48 := fun h => hhead (by rw [h]; rfl)
      rw [List.all_cons, Bool.and_eq_true] at hall
      have hdigit := hall.1
      unfold isDigit at hdigit
      simp only [Bool.and_eq_true, decide_eq_true_eq] at hdigit
      have hle := UInt8.le_iff_toNat_le.mp hdigit.1
      have hne48 : d.toNat ≠ (48 : UInt8).toNat := fun h => h48 (UInt8.toNat_inj.mp h)
      have : (48 : UInt8).toNat = 48 := rfl
      omega
    have hcons : digitsToNat (d :: ds) = (d.toNat - 48) * 10 ^ ds.length + digitsToNat ds := by
      rw [show d :: ds = [d] ++ ds from rfl, digitsToNat_append_digits]
      simp [digitsToNat]
    rw [hcons, List.length_cons, Nat.add_sub_cancel]
    exact (Nat.le_mul_of_pos_left _ hd).trans (Nat.le_add_right ..)

/-- The number of digits of a number from above and from below. -/
theorem length_decimal_eq {n k : ℕ} (hlt : n < 10 ^ (k + 1)) (hle : 10 ^ k ≤ n) :
    (decimal n).length = k + 1 := by
  refine Nat.le_antisymm (length_decimal hlt) ?_
  obtain ⟨-, hall, hval⟩ := decimal_spec n
  have hpow := digitsToNat_lt hall
  rw [hval] at hpow
  exact (Nat.pow_lt_pow_iff_right (by decide)).mp (hle.trans_lt hpow)

theorem padded_padded (id : ℕ) : Padded (padded id) := by
  refine ⟨(spellsNat_padded id).2.1, ?_⟩
  by_cases hlen : (padded id).length = 6
  · exact Or.inl hlen
  -- more than six digits: they are those of `decimal`
  have hmax := length_padded id
  have hdec : padded id = decimal id := by
    unfold padded
    rw [Nat.sub_eq_zero_of_le (by omega)]
    rfl
  refine Or.inr ⟨by omega, fun hhead => ?_⟩
  -- a leading zero would make the number shorter
  obtain ⟨hne, hall, hval⟩ := decimal_spec id
  rw [hdec] at hhead hlen hmax
  cases hd : decimal id with
  | nil => exact hne hd
  | cons d ds =>
    rw [hd] at hhead hall hval hlen hmax
    obtain rfl : d = 48 := Option.some.inj hhead
    rw [List.all_cons, Bool.and_eq_true] at hall
    have hzero : digitsToNat (48 :: ds) = digitsToNat ds := by
      rw [show (48 : UInt8) :: ds = [48] ++ ds from rfl, digitsToNat_append_digits]
      simp [digitsToNat]
    have hlt := digitsToNat_lt hall.2
    rw [← hzero, hval] at hlt
    rw [List.length_cons] at hlen hmax
    have hshort := length_decimal (n := id) (k := ds.length - 1)
      (by rwa [Nat.sub_add_cancel (by omega)])
    rw [hd, List.length_cons] at hshort
    omega

/-- The padded spelling of a number is unique. -/
theorem Padded.eq_padded {stem : Bytes} {id : ℕ} (h : Padded stem) (hs : SpellsNat id stem) :
    stem = padded id := by
  have hval := hs.2.2
  have hlt := digitsToNat_lt h.1
  rw [hval] at hlt
  refine digits_eq_of_length_eq h.1 (spellsNat_padded id).2.1 ?_
    (hval.trans (spellsNat_padded id).2.2.symm)
  rw [length_padded]
  rcases h.2 with h6 | ⟨h6, hhead⟩
  · have := length_decimal (n := id) (k := 5) (by rwa [h6] at hlt)
    omega
  · have hle := le_digitsToNat h.1 hs.1 hhead
    rw [hval] at hle
    have := length_decimal_eq (n := id) (k := stem.length - 1)
      (by rwa [Nat.sub_add_cancel (by omega)]) hle
    omega

/-! ## The names of the store -/

theorem getFileId_dataFileName {id : ℕ} (h : id < 2 ^ 64) : getFileId (dataFileName id) = some id :=
  getFileId_eq_some.mpr ⟨padded id, rfl, Or.inl (spellsNat_padded id), h⟩

theorem padded_injective : Function.Injective padded := by
  intro i j h
  rw [← (spellsNat_padded i).2.2, h, (spellsNat_padded j).2.2]

/-- A name with one ending has no other one. -/
theorem suffix_clash {a b x y : Bytes} (h : a ++ x = b ++ y) (hxy : ¬ x <:+ y) (hyx : ¬ y <:+ x) :
    False := by
  have hx : x <:+ b ++ y := h ▸ List.suffix_append a x
  have hy : y <:+ b ++ y := List.suffix_append b y
  rcases Nat.le_total x.length y.length with hle | hle
  · exact hxy (List.suffix_of_suffix_length_le hx hy hle)
  · exact hyx (List.suffix_of_suffix_length_le hy hx hle)

/-- The names of all files of all ids are distinct. -/
theorem FileName.text_injective : Function.Injective FileName.text := by
  have hlock : lockFileName = [] ++ asBytes "kvs.lock" := rfl
  intro m n h
  cases m <;> cases n <;>
    simp only [FileName.text, dataFileName, dataFileNameCompaction, hintFileName, hlock] at h
  case data.data i j => rw [padded_injective (List.append_cancel_right h)]
  case compact.compact i j =>
    rw [padded_injective (List.append_cancel_right (List.append_cancel_right h))]
  case hint.hint i j => rw [padded_injective (List.append_cancel_right h)]
  case lock.lock => rfl
  all_goals exact (suffix_clash h (by decide) (by decide)).elim

/-! ## What the walk sees -/

/-- What the walk should make of a file of the store. -/
def FileName.entry : FileName → DirEntry
  | .data id => .data id
  | .compact _ => .leftover
  | .hint id => .hint id
  | .lock => .other

/-- The id is a `u64`. -/
def FileName.Valid : FileName → Prop
  | .data id | .compact id | .hint id => id < 2 ^ 64
  | .lock => True

instance : DecidablePred FileName.Valid := fun n =>
  match n with
  | .data id | .compact id | .hint id => inferInstanceAs (Decidable (id < 2 ^ 64))
  | .lock => inferInstanceAs (Decidable True)

/-- The tests of the walk on a name that is text. -/
theorem classify_of_ascii {s : Bytes} (h : ∀ x ∈ s, x < 128) :
    classify s =
      match getFileId s with
      | some id => .data id
      | none =>
        if asBytes ".data.compact" <:+ s then .leftover
        else
          match (stripSuffix s (asBytes ".hint")).bind u64FromStr with
          | some id => .hint id
          | none => .other := by
  obtain ⟨text, htext⟩ := fromUTF8_ascii h
  unfold classify
  rw [htext, Option.isNone_some, if_neg (by simp)]

theorem SpellsId.ascii_append {n : ℕ} {stem suffix : Bytes} (h : SpellsId n stem)
    (hs : suffix.all (· < 128)) : ∀ x ∈ stem ++ suffix, x < 128 := by
  intro x hx
  rcases List.mem_append.mp hx with hx | hx
  · exact h.ascii x hx
  · exact of_decide_eq_true (List.all_eq_true.mp hs x hx)

/-- A name is a data file to the walk exactly if it has a file id. -/
theorem classify_eq_data {s : Bytes} {id : ℕ} : classify s = .data id ↔ getFileId s = some id := by
  constructor
  · intro h
    unfold classify at h
    split at h
    · cases h
    · cases hid : getFileId s with
      | some id' =>
        rw [hid] at h
        rw [DirEntry.data.inj h]
      | none =>
        rw [hid] at h
        simp only at h
        split at h
        · cases h
        · split at h <;> cases h
  · intro h
    obtain ⟨stem, rfl, hs, -⟩ := getFileId_eq_some.mp h
    rw [classify_of_ascii (hs.ascii_append (by decide)), h]

/-- The id in the name of a hint is a `u64`. -/
theorem classify_hint_lt {s : Bytes} {id : ℕ} (h : classify s = .hint id) : id < 2 ^ 64 := by
  unfold classify at h
  split at h
  · cases h
  · split at h
    · cases h
    · split at h
      · cases h
      · split at h
        · rename_i id' hid
          obtain ⟨stem, -, hstem⟩ := Option.bind_eq_some_iff.mp hid
          rw [← DirEntry.hint.inj h]
          exact (u64FromStr_iff.mp hstem).2
        · cases h

theorem getFileId_of_clash {a x : Bytes} (h1 : ¬ asBytes ".data" <:+ x)
    (h2 : ¬ x <:+ asBytes ".data") :
    getFileId (a ++ x) = none := by
  by_contra hne
  obtain ⟨id, hid⟩ := Option.ne_none_iff_exists'.mp hne
  obtain ⟨stem, he, -⟩ := getFileId_eq_some.mp hid
  exact suffix_clash he h2 h1

/-- The walk sees every file of the store as what it is. -/
theorem classify_text {n : FileName} (h : n.Valid) : classify n.text = n.entry := by
  cases n with
  | data id => exact classify_eq_data.mpr (getFileId_dataFileName h)
  | compact id =>
    have hs : SpellsId id (padded id) := Or.inl (spellsNat_padded id)
    have hname : dataFileNameCompaction id = padded id ++ asBytes ".data.compact" := by
      unfold dataFileNameCompaction dataFileName
      rw [List.append_assoc, ← asBytes_append]
      rfl
    show classify (dataFileNameCompaction id) = .leftover
    rw [hname, classify_of_ascii (hs.ascii_append (by decide)),
      getFileId_of_clash (by decide) (by decide)]
    simp only
    rw [if_pos (List.suffix_append ..)]
  | hint id =>
    have hs : SpellsId id (padded id) := Or.inl (spellsNat_padded id)
    have hcompact : ¬ asBytes ".data.compact" <:+ hintFileName id := by
      rintro ⟨t, ht⟩
      exact suffix_clash ht (by decide) (by decide)
    have hstem : (stripSuffix (hintFileName id) (asBytes ".hint")).bind u64FromStr = some id := by
      rw [hintFileName, stripSuffix_eq_some.mpr rfl, Option.bind_some]
      exact u64FromStr_iff.mpr ⟨hs, h⟩
    show classify (hintFileName id) = .hint id
    rw [hintFileName, classify_of_ascii (hs.ascii_append (by decide)),
      getFileId_of_clash (by decide) (by decide), ← hintFileName]
    simp only
    rw [if_neg hcompact, hstem]
  | lock => decide

/-! ## Other spellings of a file id -/

/-- The name has the ending of a data file and the spelling the store gives its number. -/
def Plain (fileName : Bytes) : Prop :=
  ∃ stem ∈ stripSuffix fileName (asBytes ".data"), Padded stem

instance : DecidablePred Plain := fun _ => inferInstanceAs (Decidable (∃ _ ∈ _, _))

/-- Of the names that are read as a file id, the one the store writes is the plain one. -/
theorem plain_iff {s : Bytes} {id : ℕ} (h : getFileId s = some id) :
    Plain s ↔ s = dataFileName id := by
  obtain ⟨stem, rfl, hs, -⟩ := getFileId_eq_some.mp h
  constructor
  · rintro ⟨stem', hstem', hp⟩
    obtain rfl := List.append_cancel_right (stripSuffix_eq_some.mp hstem')
    rcases hs with hs | ⟨digits, rfl, -⟩
    · rw [dataFileName, ← hp.eq_padded hs]
    · have hplus := hp.1
      rw [List.all_cons] at hplus
      cases hplus
  · intro he
    rw [he]
    exact ⟨padded id, stripSuffix_eq_some.mpr rfl, padded_padded id⟩

end Bitcask
