import Bitcask.Network.RespReplies

/-!
# The grammar of RESP2

`Encodes v w` is the grammar: `w` is an encoding of the value `v`, in any spelling of its numbers.
`parse_resp` accepts exactly this language, up to the nesting depth (`parseResp_iff`).

1. `parseI64_iff`: the spellings of integers; those of lengths are in `RespReplies`.
2. `encodes_of_parse`: what parses is an encoding of at least three bytes inside the buffer.
3. `parse_of_encodes`: every encoding parses, whatever follows it.
4. `parseLevelsIndexed` is `parse_value` with the indexing, slicing and additions that can panic; none
   does (`parseLevelsIndexed_eq`).
-/

namespace Bitcask

open LittleEndian StreamCodec

/-! ## Numbers -/

/-- The spellings of an integer: an optional sign and digits. -/
inductive SpellsInt : ℤ → Bytes → Prop
  | plain {n : ℕ} {digits : Bytes} (h : SpellsNat n digits) : SpellsInt n digits
  | plus {n : ℕ} {digits : Bytes} (h : SpellsNat n digits) : SpellsInt n (43 :: digits)
  | minus {n : ℕ} {digits : Bytes} (h : SpellsNat n digits) : SpellsInt (-n) (45 :: digits)

/-- The `i64` numbers. -/
def IsI64 (i : ℤ) : Prop := -2 ^ 63 ≤ i ∧ i < 2 ^ 63

theorem parseLen_null {body : Bytes} : parseLen body = .ok none ↔ body = [45, 49] := by
  unfold parseLen
  constructor
  · intro h
    split at h
    · assumption
    · split at h <;> cases h
  · rintro rfl
    rfl

/-- The sign tells the three spellings apart. -/
theorem i64FromStr_iff {i : ℤ} {body : Bytes} :
    i64FromStr body = some i ↔ SpellsInt i body ∧ IsI64 i := by
  constructor
  · intro h
    cases body with
    | nil => cases h
    | cons c digits =>
      rw [i64FromStr] at h
      split at h
      · rename_i hc
        obtain ⟨n, hn, rfl⟩ := Option.map_eq_some_iff.mp h
        obtain ⟨hs, hmax⟩ := boundedDigits_iff.mp hn
        refine ⟨hc ▸ .minus hs, ?_⟩
        unfold IsI64
        omega
      · split at h
        · rename_i hc
          obtain ⟨n, hn, rfl⟩ := Option.map_eq_some_iff.mp h
          obtain ⟨hs, hmax⟩ := boundedDigits_iff.mp hn
          refine ⟨hc ▸ .plus hs, ?_⟩
          unfold IsI64
          omega
        · obtain ⟨n, hn, rfl⟩ := Option.map_eq_some_iff.mp h
          obtain ⟨hs, hmax⟩ := boundedDigits_iff.mp hn
          refine ⟨.plain hs, ?_⟩
          unfold IsI64
          omega
  · rintro ⟨hs, hi⟩
    unfold IsI64 at hi
    cases hs with
    | @plain n _ hs =>
      cases body with
      | nil => exact absurd rfl hs.1
      | cons c digits =>
        obtain ⟨h1, h2⟩ := hs.head
        rw [i64FromStr, if_neg h1, if_neg h2, boundedDigits_iff.mpr ⟨hs, by omega⟩]
        rfl
    | @plus n digits hs =>
      rw [i64FromStr, if_neg (by decide), if_pos rfl, boundedDigits_iff.mpr ⟨hs, by omega⟩]
      rfl
    | @minus n digits hs =>
      rw [i64FromStr, if_pos rfl, boundedDigits_iff.mpr ⟨hs, by omega⟩]
      rfl

theorem SpellsInt.ascii {i : ℤ} {body : Bytes} (h : SpellsInt i body) : ∀ x ∈ body, x < 128 := by
  cases h with
  | plain hs => exact hs.ascii
  | plus hs | minus hs =>
    intro x hx
    rcases List.mem_cons.mp hx with rfl | hx
    · decide
    · exact hs.ascii x hx

theorem parseI64_iff {i : ℤ} {body : Bytes} :
    parseI64 body = .ok i ↔ SpellsInt i body ∧ IsI64 i := by
  unfold parseI64
  constructor
  · intro h
    split at h
    · rename_i j hj
      cases h
      obtain ⟨-, -, hj⟩ := Option.bind_eq_some_iff.mp hj
      exact i64FromStr_iff.mp hj
    · cases h
  · intro h
    obtain ⟨text, htext⟩ := fromUTF8_ascii h.1.ascii
    rw [htext, Option.bind_some, i64FromStr_iff.mpr h]

/-! ## The grammar -/

/-- `w` is an encoding of the value `v`. -/
inductive Encodes : RespValue → Bytes → Prop
  | simpleString {body : Bytes} (hb : ¬ crlf <:+: body) :
      Encodes (.simpleString body) (line simpleByte body)
  | error {body : Bytes} (hb : ¬ crlf <:+: body) : Encodes (.error body) (line errorByte body)
  | integer {i : ℤ} {body : Bytes} (hi : IsI64 i) (h : SpellsInt i body) :
      Encodes (.integer i) (line integerByte body)
  | nullBulk : Encodes (.bulkString none) (line bulkByte [45, 49])
  | bulk {data body : Bytes} (h : SpellsLen data.length body) :
      Encodes (.bulkString (some data)) (line bulkByte body ++ (data ++ crlf))
  | nullArray : Encodes .nullArray (line arrayByte [45, 49])
  | array {items : List RespValue} {words : List Bytes} {body : Bytes}
      (h : SpellsLen items.length body) (hitems : List.Forall₂ Encodes items words) :
      Encodes (.array items) (line arrayByte body ++ words.flatten)

mutual

/-- The depth of the deepest value inside a value. -/
def RespValue.height : RespValue → ℕ
  | .array items => heightAll items
  | .simpleString _ | .error _ | .integer _ | .bulkString _ | .nullArray => 0

def heightAll : List RespValue → ℕ
  | [] => 0
  | v :: vs => max (v.height + 1) (heightAll vs)

end

/-- What `item` reads are encodings of values with fewer than `levels` levels. -/
def ReadsEncodings (item : Bytes → Except KvsError (RespValue × ℕ)) (levels : ℕ) : Prop :=
  ∀ {buf v n}, item buf = .ok (v, n) →
    ∃ w rest, buf = w ++ rest ∧ w.length = n ∧ Encodes v w ∧ v.height < levels

section Sound

variable {item : Bytes → Except KvsError (RespValue × ℕ)} {levels len n : ℕ} {buf : Bytes}
  {v : RespValue} {vs : List RespValue}

theorem Encodes.length_ge {w : Bytes} (h : Encodes v w) : 3 ≤ w.length := by
  cases h <;> simp only [List.length_append, length_line] <;> omega

theorem ReadsEncodings.items (hitem : ReadsEncodings item levels)
    (h : parseItems item len buf = .ok (vs, n)) : ∃ words rest, buf = words.flatten ++ rest ∧
      words.flatten.length = n ∧ List.Forall₂ Encodes vs words ∧ heightAll vs ≤ levels := by
  induction len generalizing buf vs n with
  | zero =>
    cases h
    exact ⟨[], buf, rfl, rfl, .nil, Nat.zero_le _⟩
  | succ len ih =>
    obtain ⟨v, vs', m, k, hv, hvs, rfl, rfl⟩ := parseItems_succ h
    obtain ⟨w, rest, rfl, rfl, hw, hheight⟩ := hitem hv
    rw [List.drop_left] at hvs
    obtain ⟨words, rest', rfl, rfl, hwords, hheights⟩ := ih hvs
    refine ⟨w :: words, rest', by simp, by simp, .cons hw hwords, ?_⟩
    exact Nat.max_le.mpr ⟨hheight, hheights⟩

/-- What parses is an encoding. -/
theorem encodes_of_parse (levels : ℕ) : ReadsEncodings (parseLevels levels) levels := by
  induction levels with
  | zero =>
    intro buf v n h
    cases h
  | succ levels ih =>
    intro buf v n h
    cases parseStep_of_ok h with
    | simpleString body rest hb =>
      exact ⟨_, rest, rfl, length_line .., .simpleString hb, Nat.succ_pos _⟩
    | error body rest hb => exact ⟨_, rest, rfl, length_line .., .error hb, Nat.succ_pos _⟩
    | integer body rest i hi =>
      obtain ⟨hs, hr⟩ := parseI64_iff.mp hi
      exact ⟨_, rest, rfl, length_line .., .integer hr hs, Nat.succ_pos _⟩
    | nullBulk body rest hl =>
      rw [parseLen_null.mp hl]
      exact ⟨_, rest, rfl, length_line .., .nullBulk, Nat.succ_pos _⟩
    | nullArray body rest hl =>
      rw [parseLen_null.mp hl]
      exact ⟨_, rest, rfl, length_line .., .nullArray, Nat.succ_pos _⟩
    | bulk body data rest hl =>
      refine ⟨_, rest, (List.append_assoc ..).symm, ?_, .bulk (parseLen_iff.mp hl), Nat.succ_pos _⟩
      rw [List.length_append, length_line, List.length_append]
      rfl
    | array body rest len m items hl hitems =>
      obtain ⟨words, rest', rfl, rfl, hwords, hheight⟩ := ih.items hitems
      have hlen := length_parseItems hitems
      subst hlen
      refine ⟨_, rest', (List.append_assoc ..).symm, ?_, .array (parseLen_iff.mp hl) hwords,
        Nat.lt_succ_of_le hheight⟩
      rw [List.length_append, length_line]

/-- The bytes a value takes. -/
theorem used_of_parse (h : parseLevels levels buf = .ok (v, n)) : 3 ≤ n ∧ n ≤ buf.length := by
  obtain ⟨w, rest, rfl, rfl, hw, -⟩ := encodes_of_parse levels h
  exact ⟨hw.length_ge, by simp⟩

end Sound

section Complete

variable {item : Bytes → Except KvsError (RespValue × ℕ)} {levels : ℕ} {v : RespValue} {w rest : Bytes}
  {vs : List RespValue} {words : List Bytes}

theorem SpellsInt.no_lf {i : ℤ} (h : SpellsInt i w) (hi : IsI64 i) : 10 ∉ w :=
  parseI64_no_lf (parseI64_iff.mpr ⟨h, hi⟩)

/-- Items that are read one by one are read as an array. -/
theorem parseItems_of_encodes (hitem : ∀ {v w}, Encodes v w → v.height < levels → ∀ rest,
      item (w ++ rest) = .ok (v, w.length)) (h : List.Forall₂ Encodes vs words)
    (hheight : heightAll vs ≤ levels) (rest : Bytes) :
    parseItems item vs.length (words.flatten ++ rest) = .ok (vs, words.flatten.length) := by
  induction h with
  | nil => rfl
  | @cons v w vs words hw _ ih =>
    obtain ⟨h1, h2⟩ := Nat.max_le.mp hheight
    rw [List.flatten_cons, List.append_assoc, List.length_cons, parseItems, hitem hw h1]
    simp only [bind, Except.bind, List.drop_left, ih h2, List.length_append]

/-- Every encoding parses, whatever follows it. -/
theorem parse_of_encodes (levels : ℕ) : ∀ {v w}, Encodes v w → v.height < levels → ∀ rest,
    parseLevels levels (w ++ rest) = .ok (v, w.length) := by
  induction levels with
  | zero =>
    intro v w _ hheight
    exact absurd hheight (Nat.not_lt_zero _)
  | succ levels ih =>
    intro v w h hheight rest
    cases h with
    | simpleString hb => rw [parse_simpleString hb, length_line]
    | error hb => rw [parse_error hb, length_line]
    | integer hi hs =>
      rw [parse_integer (hs.no_lf hi), parseI64_iff.mpr ⟨hs, hi⟩, length_line]
      rfl
    | nullBulk => rw [parse_null (Or.inl rfl) (by decide) (parseLen_null.mpr rfl)]; rfl
    | nullArray => rw [parse_null (Or.inr rfl) (by decide) (parseLen_null.mpr rfl)]; rfl
    | @bulk data body hl =>
      have hl := parseLen_iff.mpr hl
      rw [List.append_assoc, parse_bulk (parseLen_no_lf hl) hl, List.length_append, length_line,
        List.length_append]
      rfl
    | array hl hitems =>
      have hl := parseLen_iff.mpr hl
      rw [List.append_assoc, parse_array (parseLen_no_lf hl) hl,
        parseItems_of_encodes ih hitems (Nat.le_of_lt_succ hheight), List.length_append, length_line]
      rfl

/-- `parse_resp` accepts exactly the grammar, up to the depth. -/
theorem parseResp_iff : parseResp w = .ok v ↔ Encodes v w ∧ v.height ≤ maxDepth := by
  constructor
  · intro h
    unfold parseResp parseValue at h
    obtain ⟨⟨v', n⟩, hparse, h⟩ := bind_eq_ok.mp h
    obtain ⟨w', rest, rfl, rfl, hw, hheight⟩ := encodes_of_parse _ hparse
    dsimp only at h
    split at h
    · cases h
    · rename_i hused
      cases h
      have hnil : rest = [] := by
        rw [not_not, List.length_append] at hused
        exact List.length_eq_zero_iff.mp (by omega)
      rw [hnil, List.append_nil]
      exact ⟨hw, Nat.le_of_lt_succ hheight⟩
  · rintro ⟨hw, hheight⟩
    exact parseResp_word (parse_of_encodes _ hw (Nat.lt_succ_of_le hheight))

end Complete

/-! ## The encoding of a value -/

/-- An integer as `write!` shows it. -/
def decimalInt (i : ℤ) : Bytes := if i < 0 then 45 :: decimal i.natAbs else decimal i.natAbs

mutual

/-- The RESP encoding of a value, with all numbers in their shortest form. -/
def RespValue.encode : RespValue → Bytes
  | .simpleString body => line simpleByte body
  | .error body => line errorByte body
  | .integer i => line integerByte (decimalInt i)
  | .bulkString none => line bulkByte [45, 49]
  | .bulkString (some data) => writeBulk data
  | .nullArray => line arrayByte [45, 49]
  | .array items => line arrayByte (decimal items.length) ++ encodeItems items

def encodeItems : List RespValue → Bytes
  | [] => []
  | v :: vs => v.encode ++ encodeItems vs

end

mutual

/-- The values that have an encoding: no line end in a simple string or an error, integers of 64
bits, and lengths of at most ten digits. -/
def RespValue.Encodable : RespValue → Prop
  | .simpleString body | .error body => ¬ crlf <:+: body
  | .integer i => IsI64 i
  | .bulkString none | .nullArray => True
  | .bulkString (some data) => data.length < 10 ^ 10
  | .array items => items.length < 10 ^ 10 ∧ EncodableAll items

def EncodableAll : List RespValue → Prop
  | [] => True
  | v :: vs => v.Encodable ∧ EncodableAll vs

end

theorem spellsInt_decimalInt (i : ℤ) : SpellsInt i (decimalInt i) := by
  unfold decimalInt
  split
  · rename_i hi
    have hneg : i = -(i.natAbs : ℤ) := by omega
    conv => arg 1; rw [hneg]
    exact .minus (spellsNat_decimal _)
  · rename_i hi
    have hpos : i = (i.natAbs : ℤ) := by omega
    conv => arg 1; rw [hpos]
    exact .plain (spellsNat_decimal _)

mutual

/-- The encoding of a value is one of its encodings. -/
theorem RespValue.encodes_encode : ∀ v : RespValue, v.Encodable → Encodes v v.encode
  | .simpleString _, h => .simpleString h
  | .error _, h => .error h
  | .integer i, h => .integer h (spellsInt_decimalInt i)
  | .bulkString none, _ => .nullBulk
  | .bulkString (some data), h => by
    have heq := writeBulk_eq data []
    rw [List.append_nil, List.append_nil] at heq
    rw [RespValue.encode, heq]
    exact .bulk (spellsLen_decimal h)
  | .nullArray, _ => .nullArray
  | .array items, h => by
    obtain ⟨words, hwords, hflat⟩ := encodes_encodeItems items h.2
    rw [RespValue.encode, ← hflat]
    exact .array (spellsLen_decimal h.1) hwords

theorem encodes_encodeItems : ∀ vs : List RespValue, EncodableAll vs →
    ∃ words, List.Forall₂ Encodes vs words ∧ words.flatten = encodeItems vs
  | [], _ => ⟨[], .nil, rfl⟩
  | v :: vs, h => by
    obtain ⟨words, hwords, hflat⟩ := encodes_encodeItems vs h.2
    refine ⟨v.encode :: words, .cons (v.encodes_encode h.1) hwords, ?_⟩
    rw [List.flatten_cons, hflat, encodeItems]

end

/-! ## Indexing -/

/-- `buf[i]`. -/
def byteAt (buf : Bytes) (i : ℕ) : Except Fault UInt8 :=
  match buf[i]? with
  | some b => .ok b
  | none => .error .panic

/-- `&buf[i..]`. -/
def sliceFrom (buf : Bytes) (i : ℕ) : Except Fault Bytes :=
  if i ≤ buf.length then .ok (buf.drop i) else .error .panic

/-- `buf.get(i..j)`. -/
def getRange (buf : Bytes) (i j : ℕ) : Option Bytes :=
  if i ≤ j ∧ j ≤ buf.length then some (slice buf i j) else none

/-- `&buf[i..j]`. -/
def sliceRange (buf : Bytes) (i j : ℕ) : Except Fault Bytes :=
  match getRange buf i j with
  | some b => .ok b
  | none => .error .panic

/-- The sum of two `usize`. -/
def addUsize (a b : ℕ) : Except Fault ℕ := if a + b < 2 ^ 64 then .ok (a + b) else .error .panic

/-- `take_line` with its indexing. -/
def takeLineIndexed (buf : Bytes) : Except Fault (UInt8 × Bytes × ℕ) :=
  match findCrlf buf with
  | none => .error (.error (protocolError "expected CRLF-terminated line"))
  | some stop =>
    if stop = 0 then .error (.error (protocolError "empty line"))
    else do
      let kind ← byteAt buf 0
      let body ← sliceRange buf 1 stop
      let used ← addUsize stop 2
      .ok (kind, body, used)

/-- The loop over the items of an array, with its counter `used`. -/
def parseItemsIndexed (item : Bytes → Except Fault (RespValue × ℕ)) (buf : Bytes) :
    ℕ → ℕ → Except Fault (List RespValue × ℕ)
  | 0, used => .ok ([], used)
  | len + 1, used => do
    let rest ← sliceFrom buf used
    let (v, n) ← item rest
    let used ← addUsize used n
    let (vs, used) ← parseItemsIndexed item buf len used
    .ok (v :: vs, used)

/-- `parse_value` with its indexing, when `levels` more levels are allowed. -/
def parseLevelsIndexed : ℕ → Bytes → Except Fault (RespValue × ℕ)
  | 0, _ => .error (.error (protocolError "nesting too deep"))
  | levels + 1, buf => do
    let (kind, body, used) ← takeLineIndexed buf
    if kind = simpleByte then .ok (.simpleString body, used)
    else if kind = errorByte then .ok (.error body, used)
    else if kind = integerByte then do
      let i ← ofKvs (parseI64 body)
      .ok (.integer i, used)
    else if kind = bulkByte then do
      match ← ofKvs (parseLen body) with
      | none => .ok (.bulkString none, used)
      | some len =>
        let stop ← addUsize used len
        match getRange buf used stop with
        | none => .error (.error (protocolError "short bulk string"))
        | some data =>
          let stop' ← addUsize stop 2
          if getRange buf stop stop' ≠ some crlf then
            .error (.error (protocolError "bulk string not CRLF-terminated"))
          else
            let used ← addUsize used (len + 2)
            .ok (.bulkString (some data), used)
    else if kind = arrayByte then do
      match ← ofKvs (parseLen body) with
      | none => .ok (.nullArray, used)
      | some len =>
        let (items, used) ← parseItemsIndexed (parseLevelsIndexed levels) buf len used
        .ok (.array items, used)
    else .error (.error (protocolError "unknown type byte"))

def parseValueIndexed (buf : Bytes) (depth : ℕ) : Except Fault (RespValue × ℕ) :=
  parseLevelsIndexed (maxDepth + 1 - depth) buf

section Indexed

variable {buf : Bytes} {used n : ℕ}

theorem addUsize_eq {a b : ℕ} (h : a + b < 2 ^ 64) : addUsize a b = .ok (a + b) := if_pos h

theorem getRange_eq {i j : ℕ} (hij : i ≤ j) (hj : j ≤ buf.length) :
    getRange buf i j = some (slice buf i j) := if_pos ⟨hij, hj⟩

/-- Two bytes that are not all there are no line end. -/
theorem getRange_crlf (i : ℕ) : getRange buf i (i + 2) = some crlf ↔ slice buf i (i + 2) = crlf := by
  unfold getRange
  split
  · simp
  · rename_i h
    refine iff_of_false (by simp) fun hs => ?_
    have hlen := congrArg List.length hs
    unfold slice at hlen
    rw [List.length_drop, List.length_take] at hlen
    have : crlf.length = 2 := rfl
    omega

theorem SpellsLen.lt {body : Bytes} (h : SpellsLen n body) : n < 10 ^ 10 := by
  obtain ⟨⟨-, hall, rfl⟩, hlen⟩ := h
  exact (digitsToNat_lt hall).trans_le (Nat.pow_le_pow_right (by decide) hlen)

theorem takeLineIndexed_eq (h : buf.length < 2 ^ 63) : takeLineIndexed buf = ofKvs (takeLine buf) := by
  unfold takeLineIndexed takeLine
  cases hfind : findCrlf buf with
  | none => rfl
  | some stop =>
    cases stop with
    | zero => rfl
    | succ stop =>
      have hsplit := congrArg List.length (findCrlf_eq_some hfind)
      simp only [List.length_append, List.length_take, List.length_cons, List.length_drop] at hsplit
      cases buf with
      | nil => cases hfind
      | cons b buf =>
        have hbyte : byteAt (b :: buf) 0 = .ok b := rfl
        simp only [Nat.succ_ne_zero, if_false, hbyte]
        unfold sliceRange
        rw [getRange_eq (by omega) (by omega), addUsize_eq (by omega)]
        rfl

/-- The loop over the items with its counter, and without. -/
theorem parseItemsIndexed_eq {item : Bytes → Except KvsError (RespValue × ℕ)}
    {item' : Bytes → Except Fault (RespValue × ℕ)}
    (hitem : ∀ b : Bytes, b.length < 2 ^ 63 → item' b = ofKvs (item b))
    (hbound : ∀ b v n, item b = .ok (v, n) → n ≤ b.length) (h : buf.length < 2 ^ 63) (len : ℕ)
    (hused : used ≤ buf.length) : parseItemsIndexed item' buf len used =
      ofKvs ((parseItems item len (buf.drop used)).map fun r => (r.1, used + r.2)) := by
  induction len generalizing used with
  | zero => rfl
  | succ len ih =>
    have hslice : sliceFrom buf used = .ok (buf.drop used) := if_pos hused
    have hdrop : (buf.drop used).length = buf.length - used := List.length_drop
    rw [parseItemsIndexed, parseItems, hslice]
    simp only [bind, Except.bind]
    rw [hitem _ (by omega)]
    cases hv : item (buf.drop used) with
    | error e => rfl
    | ok r =>
      obtain ⟨v, n⟩ := r
      have hn := hbound _ _ _ hv
      simp only [ofKvs]
      rw [addUsize_eq (by omega)]
      simp only
      rw [ih (by omega), List.drop_drop]
      cases parseItems item len (buf.drop (used + n)) with
      | error e => rfl
      | ok r => simp [Except.map, ofKvs, Nat.add_assoc]

/-- No indexing of `parse_value` is out of bounds, and no sum overflows. -/
theorem parseLevelsIndexed_eq (levels : ℕ) {buf : Bytes} (h : buf.length < 2 ^ 63) :
    parseLevelsIndexed levels buf = ofKvs (parseLevels levels buf) := by
  induction levels generalizing buf with
  | zero => rfl
  | succ levels ih =>
    rw [parseLevelsIndexed, parseLevels, takeLineIndexed_eq h, ofKvs_bind]
    cases hline : takeLine buf with
    | error e => rfl
    | ok r =>
      obtain ⟨kind, body, used⟩ := r
      obtain ⟨hu, -, rest, hbuf⟩ := takeLine_eq_ok hline
      have hused : used ≤ buf.length := by
        rw [hbuf, List.length_append, length_line]
        omega
      simp only [ofKvs_ok, bind, Except.bind, ofKvs_ite]
      refine ite_congr rfl (fun _ => rfl) fun _ => ?_
      refine ite_congr rfl (fun _ => rfl) fun _ => ?_
      refine ite_congr rfl (fun _ => ?integer) fun _ => ?_
      case integer => cases parseI64 body <;> rfl
      refine ite_congr rfl (fun _ => ?bulk) fun _ => ?_
      case bulk =>
        cases hl : parseLen body with
        | error e => rfl
        | ok len =>
          cases len with
          | none => rfl
          | some len =>
            have hlt := (parseLen_iff.mp hl).lt
            simp only [ofKvs_ok]
            rw [addUsize_eq (by omega)]
            by_cases hshort : buf.length < used + len
            · have hnone : getRange buf used (used + len) = none := if_neg (by omega)
              simp only [hnone, if_pos hshort]
              rfl
            · simp only [getRange_eq (Nat.le_add_right used len) (not_lt.mp hshort), if_neg hshort]
              rw [addUsize_eq (by omega)]
              by_cases hend : slice buf (used + len) (used + len + 2) = crlf
              · simp only [(getRange_crlf _).mpr hend, hend, ne_eq, not_true, if_false]
                rw [addUsize_eq (by omega)]
                rfl
              · have hend' : getRange buf (used + len) (used + len + 2) ≠ some crlf :=
                  fun hs => hend ((getRange_crlf _).mp hs)
                simp only [ne_eq, hend, hend', not_false_eq_true, if_true]
                rfl
      refine ite_congr rfl (fun _ => ?array) fun _ => rfl
      case array =>
        cases hl : parseLen body with
        | error e => rfl
        | ok len =>
          cases len with
          | none => rfl
          | some len =>
            simp only [ofKvs_ok]
            rw [parseItemsIndexed_eq (fun b hb => ih hb)
              (fun b v n hb => (used_of_parse hb).2) h len hused]
            cases parseItems (parseLevels levels) len (buf.drop used) <;> rfl

end Indexed

/-- `parse_resp` accepts exactly RESP2. The encoding of a value whose nesting is within the depth is
parsed to the value; what is parsed is an encoding of its value, in some spelling of the numbers; and
on every buffer that fits in memory `parse_value` indexes no byte out of bounds, adds up without
overflow, and reports a length from three to that of the buffer. -/
theorem resp_grammar_exact :
    (∀ v : RespValue, v.Encodable → v.height ≤ maxDepth → parseResp v.encode = .ok v) ∧
    (∀ b v, parseResp b = .ok v → Encodes v b) ∧
    ∀ (buf : Bytes) (depth : ℕ), buf.length < 2 ^ 63 →
      parseValueIndexed buf depth = ofKvs (parseValue buf depth) ∧
      ∀ v n, parseValue buf depth = .ok (v, n) → 3 ≤ n ∧ n ≤ buf.length := by
  refine ⟨fun v hv hheight => ?_, fun b v h => ?_, fun buf depth hbuf => ⟨?_, fun v n h => ?_⟩⟩
  · exact parseResp_iff.mpr ⟨v.encodes_encode hv, hheight⟩
  · exact (parseResp_iff.mp h).1
  · exact parseLevelsIndexed_eq _ hbuf
  · exact used_of_parse h

end Bitcask
