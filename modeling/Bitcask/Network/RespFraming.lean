import Bitcask.Network.Resp

/-!
# RESP framing and RESP parsing agree

`read_frame_resp` and `parse_value` find the same end of a value.

1. `frameRound_eq_ok`, `parseStep_of_ok`: what one round of the loop does, and what parsing does, by
   the line at the front.
2. `follows_parseLevels`: where parsing succeeds within the limits, the loop goes on behind the value.
3. `frameLoop_items`: where the loop succeeds, parsing fails only on an integer or on the depth.
-/

namespace Bitcask

open LittleEndian StreamCodec

/-! ## Lines -/

theorem readUntil_append {stop : UInt8} (s : Bytes) :
    (readUntil stop s).1 ++ (readUntil stop s).2 = s := by
  induction s with
  | nil => rfl
  | cons b s ih =>
    rw [readUntil]
    split
    · rfl
    · rw [List.cons_append, ih]

/-- A line without a line feed inside. -/
theorem readUntil_line {stop : UInt8} {a : Bytes} (h : stop ∉ a) (rest : Bytes) :
    readUntil stop (a ++ stop :: rest) = (a ++ [stop], rest) := by
  induction a with
  | nil => rw [List.nil_append, readUntil, if_pos rfl]; rfl
  | cons b a ih =>
    rw [List.mem_cons, not_or] at h
    rw [List.cons_append, readUntil, if_neg (Ne.symm h.1), ih h.2]
    rfl

/-- What ends with the stop byte has it only there. -/
theorem not_mem_of_readUntil {stop : UInt8} {s a r : Bytes}
    (h : readUntil stop s = (a ++ [stop], r)) : stop ∉ a := by
  induction s generalizing a with
  | nil =>
    have := (Prod.mk.inj h).1
    simp at this
  | cons b s ih =>
    rw [readUntil] at h
    split at h
    · rename_i hb
      have hl := congrArg List.length (Prod.mk.inj h).1
      rw [List.length_append, List.length_singleton, List.length_singleton] at hl
      have ha : a = [] := List.length_eq_zero_iff.mp (by omega)
      simp [ha]
    · rename_i hb
      obtain ⟨h1, h2⟩ := Prod.mk.inj h
      cases a with
      | nil => exact absurd (List.cons.inj h1).1 hb
      | cons c a =>
        obtain ⟨hc, h1⟩ := List.cons.inj h1
        have hno : stop ∉ a := ih (Prod.ext h1 h2)
        rw [List.mem_cons, not_or, ← hc]
        exact ⟨Ne.symm hb, hno⟩

theorem no_crlf {body : Bytes} (h : 10 ∉ body) : ¬ crlf <:+: body :=
  fun hi => h (hi.subset (by decide))

/-- The first `\r\n` behind bytes without one. -/
theorem findCrlf_line {a : Bytes} (h : ¬ crlf <:+: a) (rest : Bytes) :
    findCrlf (a ++ 13 :: 10 :: rest) = some a.length := by
  induction a with
  | nil => rfl
  | cons b a ih =>
    have ih := ih fun hi => h (List.infix_cons hi)
    -- `b` and the byte behind it are no line end
    obtain ⟨c, s, hs, hc⟩ : ∃ c s, a ++ 13 :: 10 :: rest = c :: s ∧ ¬ (b = 13 ∧ c = 10) := by
      cases a with
      | nil => exact ⟨13, _, rfl, fun hbc => absurd hbc.2 (by decide)⟩
      | cons c a =>
        refine ⟨c, _, rfl, ?_⟩
        rintro ⟨rfl, rfl⟩
        exact h ⟨[], a, rfl⟩
    rw [List.cons_append, hs, findCrlf, if_neg hc, ← hs, ih]
    rfl

theorem findCrlf_eq_some {s : Bytes} {n : ℕ} (h : findCrlf s = some n) :
    s = s.take n ++ 13 :: 10 :: s.drop (n + 2) := by
  induction s generalizing n with
  | nil => cases h
  | cons a s ih =>
    cases s with
    | nil => cases h
    | cons b s =>
      rw [findCrlf] at h
      split at h
      · rename_i hab
        cases h
        rw [hab.1, hab.2]
        rfl
      · obtain ⟨m, hm, rfl⟩ := Option.map_eq_some_iff.mp h
        rw [List.take_succ_cons, List.cons_append, List.drop_succ_cons]
        exact congrArg (a :: ·) (ih hm)

theorem findCrlf_first {s : Bytes} {n : ℕ} (h : findCrlf s = some n) : ¬ crlf <:+: s.take n := by
  induction s generalizing n with
  | nil => cases h
  | cons a s ih =>
    cases s with
    | nil => cases h
    | cons b s =>
      rw [findCrlf] at h
      split at h
      · cases h
        rw [List.take_zero, List.infix_nil]
        exact List.cons_ne_nil _ _
      · rename_i hab
        obtain ⟨m, hm, rfl⟩ := Option.map_eq_some_iff.mp h
        rw [List.take_succ_cons, List.infix_cons_iff, not_or]
        refine ⟨?_, ih hm⟩
        rintro ⟨t, ht⟩
        obtain ⟨ha, ht⟩ := List.cons.inj ht
        cases m with
        | zero => cases ht
        | succ m => exact hab ⟨ha.symm, (List.cons.inj ht).1.symm⟩

/-- A line: its kind, its body and its end. -/
def line (kind : UInt8) (body : Bytes) : Bytes := kind :: (body ++ crlf)

theorem length_line (kind : UInt8) (body : Bytes) : (line kind body).length = body.length + 3 := by
  simp [line, crlf]

theorem slice_line (kind : UInt8) (body rest : Bytes) :
    slice (line kind body ++ rest) 1 (body.length + 1) = body := by
  simp [line, slice]

/-- `take_line` on a line without a line end in its body. -/
theorem takeLine_line {kind : UInt8} {body : Bytes} (hk : kind ≠ 13) (hb : ¬ crlf <:+: body)
    (rest : Bytes) : takeLine (line kind body ++ rest) = .ok (kind, body, body.length + 3) := by
  have hno : ¬ crlf <:+: kind :: body := by
    rw [List.infix_cons_iff, not_or]
    refine ⟨?_, hb⟩
    rintro ⟨t, ht⟩
    exact hk (List.cons.inj ht).1.symm
  have hfind : findCrlf (line kind body ++ rest) = some (body.length + 1) := by
    simpa [line, crlf] using findCrlf_line hno rest
  rw [takeLine, hfind]
  simp only [slice_line]
  rfl

/-- What `take_line` returns is at the front of the buffer. -/
theorem takeLine_eq_ok {buf body : Bytes} {kind : UInt8} {used : ℕ}
    (h : takeLine buf = .ok (kind, body, used)) :
    used = body.length + 3 ∧ ¬ crlf <:+: body ∧ ∃ rest, buf = line kind body ++ rest := by
  unfold takeLine at h
  split at h
  · cases h
  · cases h
  · rename_i stop hs
    have hsplit := findCrlf_eq_some hs
    have hle : stop + 1 ≤ buf.length := by
      have := congrArg List.length hsplit
      simp only [List.length_append, List.length_take, List.length_cons] at this
      omega
    cases buf with
    | nil => cases hs
    | cons b buf =>
      cases h
      have hlen : (slice (b :: buf) 1 (stop + 1)).length = stop := by
        rw [length_slice hle, Nat.add_sub_cancel]
      have hno : ¬ crlf <:+: slice (b :: buf) 1 (stop + 1) := by
        intro hi
        apply findCrlf_first hs
        exact hi.trans (List.drop_suffix 1 _).isInfix
      refine ⟨by rw [hlen], hno, (b :: buf).drop (stop + 3), ?_⟩
      conv_lhs => rw [hsplit]
      simp [line, slice, crlf]

/-- `read_until` on a line without a line feed in its body. -/
theorem readUntil_crlf {kind : UInt8} {body : Bytes} (hk : kind ≠ 10) (hb : 10 ∉ body)
    (rest : Bytes) : readUntil 10 (line kind body ++ rest) = (line kind body, rest) := by
  have hno : (10 : UInt8) ∉ kind :: (body ++ [13]) := by simp [hb, Ne.symm hk]
  simpa [line, crlf] using readUntil_line hno rest

/-- What passes the checks of the loop is a line. -/
theorem readUntil_eq_line {s : Bytes} (h3 : ¬ (readUntil 10 s).1.length < 3)
    (hend : crlf.isSuffixOf (readUntil 10 s).1) : ∃ kind body, kind ≠ 10 ∧ 10 ∉ body ∧
      (readUntil 10 s).1 = line kind body ∧ s = line kind body ++ (readUntil 10 s).2 := by
  obtain ⟨front, hf⟩ := List.isSuffixOf_iff_suffix.mp hend
  have hno : (10 : UInt8) ∉ front ++ [13] := by
    refine not_mem_of_readUntil (r := (readUntil 10 s).2) (s := s) (Prod.ext ?_ rfl)
    rw [← hf]
    simp [crlf]
  cases front with
  | nil =>
    rw [← hf] at h3
    exact absurd (by decide) h3
  | cons kind body =>
    have hno : kind ≠ 10 ∧ (10 : UInt8) ∉ body := by
      simp only [List.cons_append, List.mem_cons, List.mem_append, not_or] at hno
      exact ⟨Ne.symm hno.1, hno.2.1⟩
    have hl : (readUntil 10 s).1 = line kind body := by rw [← hf]; rfl
    refine ⟨kind, body, hno.1, hno.2, hl, ?_⟩
    have happ : (readUntil 10 s).1 ++ (readUntil 10 s).2 = s := readUntil_append s
    rw [← hl, happ]

/-! ## One round of the loop -/

/-- What reading the value behind a line does to the frame, the count and the stream. -/
inductive FrameStep (kind : UInt8) (body frame : Bytes) (pending : ℕ) :
    Bytes → Bytes → ℕ → Bytes → Prop
  | simple (stream : Bytes) (hk : kind = simpleByte ∨ kind = errorByte ∨ kind = integerByte) :
      FrameStep kind body frame pending stream frame pending stream
  | null (stream : Bytes) (hk : kind = bulkByte ∨ kind = arrayByte) (hl : parseLen body = .ok none) :
      FrameStep kind body frame pending stream frame pending stream
  | bulk (data stream : Bytes) (hk : kind = bulkByte) (hl : parseLen body = .ok (some data.length))
      (hmax : data.length ≤ maxPayload) :
      FrameStep kind body frame pending (data ++ crlf ++ stream) (frame ++ (data ++ crlf)) pending
        stream
  | array (len : ℕ) (stream : Bytes) (hk : kind = arrayByte) (hl : parseLen body = .ok (some len))
      (hmax : len ≤ maxArrayLen) (hsum : pending + len ≤ maxArrayLen) :
      FrameStep kind body frame pending stream frame (pending + len) stream

section Round

variable {kind : UInt8} {body frame frame' stream stream' : Bytes} {pending pending' : ℕ}

/-- The last two bytes of the data of a bulk string. -/
theorem split_data {data : Bytes} {len : ℕ} (hlen : data.length = len + 2)
    (h : crlf.isSuffixOf (frame ++ data)) : ∃ d, d.length = len ∧ data = d ++ crlf := by
  have hsuf : crlf <:+ data := by
    have h1 := List.isSuffixOf_iff_suffix.mp h
    exact List.suffix_of_suffix_length_le h1 (List.suffix_append _ _) (by rw [hlen]; simp [crlf])
  obtain ⟨d, hd⟩ := hsuf
  refine ⟨d, ?_, hd.symm⟩
  have := congrArg List.length hd
  rw [List.length_append, hlen] at this
  simpa [crlf] using this

theorem frameValue_eq_ok :
    frameValue kind body frame pending stream = .ok (frame', pending', stream') ↔
      FrameStep kind body frame pending stream frame' pending' stream' := by
  constructor
  · intro h
    unfold frameValue at h
    split at h
    · rename_i hk
      cases h
      exact .simple _ hk
    split at h
    · rename_i hk
      obtain ⟨len, hl, h⟩ := bind_eq_ok.mp h
      cases len with
      | none =>
        cases h
        exact .null _ (Or.inl hk) hl
      | some len =>
        dsimp only at h
        split at h
        · cases h
        · rename_i hmax
          obtain ⟨⟨data, rest⟩, hr, h⟩ := bind_eq_ok.mp h
          dsimp only at h
          split at h
          · cases h
          · rename_i hend
            cases h
            unfold readExact at hr
            split at hr
            · rename_i hle
              cases hr
              obtain ⟨d, rfl, hd⟩ := split_data (by rw [List.length_take, Nat.min_eq_left hle])
                (not_not.mp hend)
              have hs : stream = d ++ crlf ++ stream.drop (d.length + 2) := by
                rw [← hd, List.take_append_drop]
              rw [hd]
              conv => arg 5; rw [hs]
              exact .bulk d _ hk hl (not_lt.mp hmax)
            · cases hr
    split at h
    · rename_i hk
      obtain ⟨len, hl, h⟩ := bind_eq_ok.mp h
      cases len with
      | none =>
        cases h
        exact .null _ (Or.inr hk) hl
      | some len =>
        dsimp only at h
        split at h
        · cases h
        · rename_i hmax
          cases h
          rw [not_or, gt_iff_lt, gt_iff_lt, not_lt, not_lt] at hmax
          exact .array len _ hk hl hmax.1 hmax.2
    · cases h
  · intro h
    cases h with
    | simple _ hk => rw [frameValue, if_pos hk]
    | null _ hk hl =>
      rcases hk with rfl | rfl
      · rw [frameValue, if_neg (by decide), if_pos rfl, hl]; rfl
      · rw [frameValue, if_neg (by decide), if_neg (by decide), if_pos rfl, hl]; rfl
    | bulk data _ hk hl hmax =>
      have hread := readExact_append (data ++ crlf) stream'
      rw [List.length_append] at hread
      have hread : readExact (data.length + 2) (data ++ crlf ++ stream') =
          .ok (data ++ crlf, stream') := hread
      have hend : crlf.isSuffixOf (frame ++ (data ++ crlf)) := by
        rw [List.isSuffixOf_iff_suffix, ← List.append_assoc]
        exact List.suffix_append _ _
      subst hk
      rw [frameValue, if_neg (by decide), if_pos rfl, hl]
      simp only [bind, Except.bind, gt_iff_lt, not_lt.mpr hmax, if_false, hread, hend, not_true]
    | array len _ hk hl hmax hsum =>
      subst hk
      rw [frameValue, if_neg (by decide), if_neg (by decide), if_pos rfl, hl]
      simp only [bind, Except.bind, gt_iff_lt, not_lt.mpr hmax, not_lt.mpr hsum, or_self, if_false]

/-- A round that reads a line. -/
theorem frameRound_line (hk : kind ≠ 10) (hb : 10 ∉ body) (rest : Bytes) :
    frameRound frame pending (line kind body ++ rest) =
      (frameValue kind body (frame ++ line kind body) pending rest).map some := by
  have hend : crlf.isSuffixOf (line kind body) := by
    rw [List.isSuffixOf_iff_suffix]
    exact ⟨kind :: body, rfl⟩
  have hbody : slice (line kind body) 1 ((line kind body).length - 2) = body := by
    have := slice_line kind body []
    rwa [List.append_nil, ← Nat.add_sub_cancel (body.length + 1) 2, ← length_line kind body] at this
  have hlen := length_line kind body
  rw [frameRound, readUntil_crlf hk hb]
  simp only [hbody]
  rw [if_neg (by simp [line]), if_neg (by simp only [hend, not_true, or_false]; omega)]
  rfl

/-- A round that goes on has read a line. -/
theorem frameRound_eq_ok {r : Bytes × ℕ × Bytes}
    (h : frameRound frame pending stream = .ok (some r)) : ∃ kind body rest,
      kind ≠ 10 ∧ 10 ∉ body ∧ stream = line kind body ++ rest ∧
        FrameStep kind body (frame ++ line kind body) pending rest r.1 r.2.1 r.2.2 := by
  have hcopy := h
  rw [frameRound] at h
  dsimp only at h
  split at h
  · split at h <;> cases h
  · split at h
    · cases h
    · rename_i hcheck
      rw [not_or, not_not] at hcheck
      obtain ⟨kind, body, hk, hb, -, hs⟩ := readUntil_eq_line hcheck.1 hcheck.2
      refine ⟨kind, body, _, hk, hb, hs, frameValue_eq_ok.mp ?_⟩
      rw [hs, frameRound_line hk hb] at hcopy
      obtain ⟨r', hr, he⟩ := BytesUtil.map_eq_ok.mp hcopy
      cases he
      exact hr

theorem FrameStep.length_le (h : FrameStep kind body frame pending stream frame' pending' stream') :
    stream'.length ≤ stream.length := by
  cases h with
  | bulk data _ hk hl hmax =>
    rw [List.length_append]
    exact Nat.le_add_left _ _
  | _ => exact le_rfl

theorem frameRound_progress
    (h : frameRound frame pending stream = .ok (some (frame', pending', stream'))) :
    stream'.length < stream.length := by
  obtain ⟨kind, body, rest, -, -, rfl, hstep⟩ := frameRound_eq_ok h
  have hle : stream'.length ≤ rest.length := hstep.length_le
  rw [List.length_append, length_line]
  omega

end Round

/-- The loop of `read_frame_resp`. -/
def frameLoop (frame : Bytes) (pending : ℕ) (stream : Bytes) :
    Except KvsError (Option (Bytes × Bytes)) :=
  match pending with
  | 0 => .ok (some (frame, stream))
  | pending + 1 =>
    match _h : frameRound frame pending stream with
    | .error e => .error e
    | .ok none => .ok none
    | .ok (some (frame', pending', stream')) => frameLoop frame' pending' stream'
termination_by stream.length
decreasing_by exact frameRound_progress _h

/-- The frame at the front of a stream, and the rest of the stream. -/
def readFrameResp (stream : Bytes) : Except KvsError (Option (Bytes × Bytes)) :=
  frameLoop [] 1 stream

section Loop

variable {frame frame' stream stream' : Bytes} {pending pending' : ℕ}

@[simp] theorem frameLoop_zero : frameLoop frame 0 stream = .ok (some (frame, stream)) := by
  rw [frameLoop]

/-- A round of the loop that reads the value behind a line. -/
theorem frameLoop_step {kind : UInt8} {body rest : Bytes} (hk : kind ≠ 10) (hb : 10 ∉ body)
    (h : FrameStep kind body (frame ++ line kind body) pending rest frame' pending' stream') :
    frameLoop frame (pending + 1) (line kind body ++ rest) = frameLoop frame' pending' stream' := by
  have hround : frameRound frame pending (line kind body ++ rest) =
      .ok (some (frame', pending', stream')) := by
    rw [frameRound_line hk hb, frameValue_eq_ok.mpr h]
    rfl
  rw [frameLoop]
  split <;> rename_i hr <;> rw [hround] at hr <;> cases hr
  rfl

/-- If the loop returns a frame, its first round has read a line. -/
theorem frameLoop_succ {r : Bytes × Bytes} (h : frameLoop frame (pending + 1) stream = .ok (some r)) :
    ∃ kind body rest frame' pending' stream', kind ≠ 10 ∧ 10 ∉ body ∧
      stream = line kind body ++ rest ∧
      FrameStep kind body (frame ++ line kind body) pending rest frame' pending' stream' ∧
      frameLoop frame' pending' stream' = .ok (some r) := by
  rw [frameLoop] at h
  split at h
  · cases h
  · cases h
  · rename_i frame' pending' stream' hr
    obtain ⟨kind, body, rest, hk, hb, hs, hstep⟩ := frameRound_eq_ok hr
    exact ⟨kind, body, rest, frame', pending', stream', hk, hb, hs, hstep, h⟩

end Loop

/-! ## Parsing, by the line at the front -/

/-- The values of a buffer, with the line they start with and the bytes they take. -/
inductive ParseStep (levels : ℕ) : Bytes → RespValue → ℕ → Prop
  | simpleString (body rest : Bytes) (hb : ¬ crlf <:+: body) :
      ParseStep levels (line simpleByte body ++ rest) (.simpleString body) (body.length + 3)
  | error (body rest : Bytes) (hb : ¬ crlf <:+: body) :
      ParseStep levels (line errorByte body ++ rest) (.error body) (body.length + 3)
  | integer (body rest : Bytes) (i : ℤ) (hi : parseI64 body = .ok i) :
      ParseStep levels (line integerByte body ++ rest) (.integer i) (body.length + 3)
  | nullBulk (body rest : Bytes) (hl : parseLen body = .ok none) :
      ParseStep levels (line bulkByte body ++ rest) (.bulkString none) (body.length + 3)
  | bulk (body data rest : Bytes) (hl : parseLen body = .ok (some data.length)) :
      ParseStep levels (line bulkByte body ++ (data ++ crlf ++ rest)) (.bulkString (some data))
        (body.length + 3 + (data.length + 2))
  | nullArray (body rest : Bytes) (hl : parseLen body = .ok none) :
      ParseStep levels (line arrayByte body ++ rest) .nullArray (body.length + 3)
  | array (body rest : Bytes) (len n : ℕ) (items : List RespValue)
      (hl : parseLen body = .ok (some len))
      (hitems : parseItems (parseLevels levels) len rest = .ok (items, n)) :
      ParseStep levels (line arrayByte body ++ rest) (.array items) (body.length + 3 + n)

section Parse

variable {levels : ℕ} {buf body rest : Bytes} {kind : UInt8} {v : RespValue} {n : ℕ}

theorem drop_line (kind : UInt8) (body rest : Bytes) :
    (line kind body ++ rest).drop (body.length + 3) = rest := by
  rw [← length_line kind body, List.drop_left]

theorem slice_behind_line (kind : UInt8) (body rest : Bytes) (i j : ℕ) :
    slice (line kind body ++ rest) (body.length + 3 + i) (body.length + 3 + j) = slice rest i j := by
  rw [← length_line kind body]
  exact slice_append_right ..

/-- The data of a bulk string that is long enough and ends with `\r\n`. -/
theorem split_bulk {len : ℕ} (hlen : len ≤ rest.length) (hend : slice rest len (len + 2) = crlf) :
    ∃ data tail, data.length = len ∧ rest = data ++ crlf ++ tail := by
  refine ⟨slice rest 0 len, rest.drop (len + 2), by rw [length_slice hlen, Nat.sub_zero], ?_⟩
  rw [← hend, slice_join (Nat.zero_le _) (Nat.le_add_right _ _), slice, List.drop_zero,
    List.take_append_drop]

/-- A value that parses is one of these. -/
theorem parseStep_of_ok (h : parseLevels (levels + 1) buf = .ok (v, n)) :
    ParseStep levels buf v n := by
  rw [parseLevels] at h
  obtain ⟨⟨kind, body, used⟩, hline, h⟩ := bind_eq_ok.mp h
  obtain ⟨rfl, hb, rest, rfl⟩ := takeLine_eq_ok hline
  dsimp only at h
  split at h
  · rename_i hk
    cases h
    exact hk ▸ .simpleString body rest hb
  split at h
  · rename_i hk
    cases h
    exact hk ▸ .error body rest hb
  split at h
  · rename_i hk
    obtain ⟨i, hi, h⟩ := bind_eq_ok.mp h
    cases h
    exact hk ▸ .integer body rest i hi
  split at h
  · rename_i hk
    obtain ⟨len, hl, h⟩ := bind_eq_ok.mp h
    cases len with
    | none =>
      cases h
      exact hk ▸ .nullBulk body rest hl
    | some len =>
      dsimp only at h
      split at h
      · cases h
      · rename_i hshort
        split at h
        · cases h
        · rename_i hend
          cases h
          rw [List.length_append, length_line, not_lt, Nat.add_le_add_iff_left] at hshort
          rw [not_not, Nat.add_assoc _ len 2, slice_behind_line] at hend
          obtain ⟨data, tail, rfl, rfl⟩ := split_bulk hshort hend
          have hdata : slice (line kind body ++ (data ++ crlf ++ tail)) (body.length + 3)
              (body.length + 3 + data.length) = data := by
            rw [← Nat.add_zero (body.length + 3), slice_behind_line, List.append_assoc,
              slice_append_left _ le_rfl, slice_full]
          rw [hdata]
          exact hk ▸ .bulk body data tail hl
  split at h
  · rename_i hk
    obtain ⟨len, hl, h⟩ := bind_eq_ok.mp h
    cases len with
    | none =>
      cases h
      exact hk ▸ .nullArray body rest hl
    | some len =>
      obtain ⟨⟨items, m⟩, hitems, h⟩ := bind_eq_ok.mp h
      cases h
      rw [drop_line] at hitems
      exact hk ▸ .array body rest len m items hl hitems
  · cases h

theorem parse_simpleString (hb : ¬ crlf <:+: body) :
    parseLevels (levels + 1) (line simpleByte body ++ rest) =
      .ok (.simpleString body, body.length + 3) := by
  rw [parseLevels, takeLine_line (by decide) hb]
  rfl

theorem parse_error (hb : ¬ crlf <:+: body) :
    parseLevels (levels + 1) (line errorByte body ++ rest) = .ok (.error body, body.length + 3) := by
  rw [parseLevels, takeLine_line (by decide) hb]
  rfl

theorem parse_integer (hb : 10 ∉ body) :
    parseLevels (levels + 1) (line integerByte body ++ rest) =
      (parseI64 body).map fun i => (.integer i, body.length + 3) := by
  rw [parseLevels, takeLine_line (by decide) (no_crlf hb)]
  cases hi : parseI64 body <;> simp [bind, Except.bind, hi, Except.map] <;> rfl

theorem parse_null (hk : kind = bulkByte ∨ kind = arrayByte) (hb : 10 ∉ body)
    (hl : parseLen body = .ok none) : parseLevels (levels + 1) (line kind body ++ rest) =
      .ok (if kind = bulkByte then .bulkString none else .nullArray, body.length + 3) := by
  rcases hk with rfl | rfl
  · rw [parseLevels, takeLine_line (by decide) (no_crlf hb)]
    simp only [bind, Except.bind, hl]
    rfl
  · rw [parseLevels, takeLine_line (by decide) (no_crlf hb)]
    simp only [bind, Except.bind, hl]
    rfl

theorem parse_bulk {data : Bytes} (hb : 10 ∉ body) (hl : parseLen body = .ok (some data.length)) :
    parseLevels (levels + 1) (line bulkByte body ++ (data ++ crlf ++ rest)) =
      .ok (.bulkString (some data), body.length + 3 + (data.length + 2)) := by
  have hdata : slice (line bulkByte body ++ (data ++ crlf ++ rest)) (body.length + 3)
      (body.length + 3 + data.length) = data := by
    rw [← Nat.add_zero (body.length + 3), slice_behind_line, List.append_assoc,
      slice_append_left _ le_rfl, slice_full]
  have hend : slice (line bulkByte body ++ (data ++ crlf ++ rest)) (body.length + 3 + data.length)
      (body.length + 3 + data.length + 2) = crlf := by
    rw [Nat.add_assoc _ data.length, slice_behind_line, List.append_assoc]
    exact slice_middle data crlf rest
  have hlen : ¬ (line bulkByte body ++ (data ++ crlf ++ rest)).length <
      body.length + 3 + data.length := by
    rw [List.length_append, length_line, List.append_assoc, List.length_append]
    omega
  rw [parseLevels, takeLine_line (by decide) (no_crlf hb)]
  simp only [bind, Except.bind, hl, hlen, hend, hdata]
  rfl

theorem parse_array {len : ℕ} (hb : 10 ∉ body) (hl : parseLen body = .ok (some len)) :
    parseLevels (levels + 1) (line arrayByte body ++ rest) =
      (parseItems (parseLevels levels) len rest).map fun r => (.array r.1, body.length + 3 + r.2) := by
  rw [parseLevels, takeLine_line (by decide) (no_crlf hb)]
  simp only [bind, Except.bind, hl, drop_line]
  cases parseItems (parseLevels levels) len rest <;> rfl

end Parse

/-! ## Lengths and integers have no line feed -/

theorem not_mem_of_digits {b : Bytes} (h : b.all isDigit) : 10 ∉ b := by
  intro hm
  have := List.all_eq_true.mp h 10 hm
  exact absurd this (by decide)

theorem parseLen_no_lf {body : Bytes} {o : Option ℕ} (h : parseLen body = .ok o) : 10 ∉ body := by
  unfold parseLen at h
  split at h
  · rename_i hb
    rw [hb]
    decide
  · split at h
    · cases h
    · rename_i hb
      simp only [not_or, not_not] at hb
      exact not_mem_of_digits hb.2.2

theorem boundedDigits_no_lf {max : ℕ} {b : Bytes} {n : ℕ} (h : boundedDigits max b = some n) :
    10 ∉ b := by
  unfold boundedDigits at h
  split at h
  · rename_i hb
    exact not_mem_of_digits hb.2.1
  · cases h

theorem parseI64_no_lf {body : Bytes} {i : ℤ} (h : parseI64 body = .ok i) : 10 ∉ body := by
  unfold parseI64 at h
  split at h
  · rename_i j hj
    obtain ⟨-, -, hj⟩ := Option.bind_eq_some_iff.mp hj
    cases body with
    | nil => simp
    | cons c digits =>
      rw [i64FromStr] at hj
      split at hj
      · rename_i hc
        obtain ⟨n, hn, -⟩ := Option.map_eq_some_iff.mp hj
        simp [hc, boundedDigits_no_lf hn]
      · split at hj
        · rename_i hc
          obtain ⟨n, hn, -⟩ := Option.map_eq_some_iff.mp hj
          simp [hc, boundedDigits_no_lf hn]
        · obtain ⟨n, hn, -⟩ := Option.map_eq_some_iff.mp hj
          exact boundedDigits_no_lf hn
  · cases h

/-! ## Where parsing succeeds, framing finds the same end -/

mutual

/-- A value within the limits of framing when `pending` values are still to come behind it. -/
def RespValue.Framable (pending : ℕ) : RespValue → Prop
  | .simpleString body | .error body => 10 ∉ body
  | .integer _ | .bulkString none | .nullArray => True
  | .bulkString (some data) => data.length ≤ maxPayload
  | .array items => items.length ≤ maxArrayLen ∧ pending + items.length ≤ maxArrayLen ∧
      FramableAll pending items

/-- The items of an array: behind each, the rest of the array is still to come. -/
def FramableAll (pending : ℕ) : List RespValue → Prop
  | [] => True
  | v :: vs => v.Framable (pending + vs.length) ∧ FramableAll pending vs

end

section Converse

variable {item : Bytes → Except KvsError (RespValue × ℕ)} {levels len n pending : ℕ}
  {buf frame : Bytes} {v : RespValue} {vs : List RespValue}

theorem parseItems_succ (h : parseItems item (len + 1) buf = .ok (vs, n)) :
    ∃ v vs' m k, item buf = .ok (v, m) ∧ parseItems item len (buf.drop m) = .ok (vs', k) ∧
      vs = v :: vs' ∧ n = m + k := by
  rw [parseItems] at h
  obtain ⟨⟨v, m⟩, hv, h⟩ := bind_eq_ok.mp h
  obtain ⟨⟨vs', k⟩, hvs, h⟩ := bind_eq_ok.mp h
  cases h
  exact ⟨v, vs', m, k, hv, hvs, rfl, rfl⟩

theorem length_parseItems (h : parseItems item len buf = .ok (vs, n)) : vs.length = len := by
  induction len generalizing buf vs n with
  | zero => cases h; rfl
  | succ len ih =>
    obtain ⟨v, vs', m, k, -, hvs, rfl, -⟩ := parseItems_succ h
    rw [List.length_cons, ih hvs]

/-- The loop goes on behind the values that `item` reads. -/
def Follows (item : Bytes → Except KvsError (RespValue × ℕ)) : Prop :=
  ∀ {buf v n pending} frame, item buf = .ok (v, n) → v.Framable pending →
    n ≤ buf.length ∧
      frameLoop frame (pending + 1) buf = frameLoop (frame ++ buf.take n) pending (buf.drop n)

theorem Follows.items (hitem : Follows item) (frame : Bytes)
    (h : parseItems item len buf = .ok (vs, n)) (hvs : FramableAll pending vs) : n ≤ buf.length ∧
      frameLoop frame (pending + len) buf = frameLoop (frame ++ buf.take n) pending (buf.drop n) := by
  induction len generalizing buf vs n frame with
  | zero =>
    cases h
    simp
  | succ len ih =>
    obtain ⟨v, vs', m, k, hv, hrest, rfl, rfl⟩ := parseItems_succ h
    rw [FramableAll, length_parseItems hrest] at hvs
    obtain ⟨hm, hloop⟩ := hitem frame hv hvs.1
    obtain ⟨hk, hloops⟩ := ih (frame ++ buf.take m) hrest hvs.2
    rw [List.length_drop] at hk
    refine ⟨by omega, ?_⟩
    rw [← Nat.add_assoc, hloop, hloops, List.append_assoc, ← List.take_add, List.drop_drop]

/-- The loop goes on behind a word. -/
theorem follows_word {w rest : Bytes} (hn : n = w.length)
    (h : frameLoop frame (pending + 1) (w ++ rest) = frameLoop (frame ++ w) pending rest) :
    n ≤ (w ++ rest).length ∧ frameLoop frame (pending + 1) (w ++ rest) =
      frameLoop (frame ++ (w ++ rest).take n) pending ((w ++ rest).drop n) := by
  rw [hn, List.take_left, List.drop_left]
  exact ⟨by simp, h⟩

/-- Parsing at any depth. -/
theorem follows_parseLevels (levels : ℕ) : Follows (parseLevels levels) := by
  induction levels with
  | zero =>
    intro buf v n pending frame h
    cases h
  | succ levels ih =>
    intro buf v n pending frame h hv
    cases parseStep_of_ok h with
    | simpleString body rest hb | error body rest hb =>
      exact follows_word (length_line ..).symm (frameLoop_step (by decide) hv (.simple _ (by decide)))
    | integer body rest i hi =>
      exact follows_word (length_line ..).symm
        (frameLoop_step (by decide) (parseI64_no_lf hi) (.simple _ (by decide)))
    | nullBulk body rest hl | nullArray body rest hl =>
      exact follows_word (length_line ..).symm
        (frameLoop_step (by decide) (parseLen_no_lf hl) (.null _ (by decide) hl))
    | bulk body data rest hl =>
      have hstep : frameLoop frame (pending + 1) (line bulkByte body ++ (data ++ crlf ++ rest)) =
          frameLoop (frame ++ line bulkByte body ++ (data ++ crlf)) pending rest :=
        frameLoop_step (by decide) (parseLen_no_lf hl) (.bulk data rest rfl hl hv)
      rw [← List.append_assoc] at hstep ⊢
      refine follows_word ?_ (hstep.trans (by rw [List.append_assoc]))
      rw [List.length_append, length_line, List.length_append]
      rfl
    | array body rest len m items hl hitems =>
      rw [RespValue.Framable, length_parseItems hitems] at hv
      obtain ⟨hmax, hsum, hall⟩ := hv
      have hstep : frameLoop frame (pending + 1) (line arrayByte body ++ rest) =
          frameLoop (frame ++ line arrayByte body) (pending + len) rest :=
        frameLoop_step (by decide) (parseLen_no_lf hl) (.array len rest rfl hl hmax hsum)
      obtain ⟨hm, hloop⟩ := ih.items (frame ++ line arrayByte body) hitems hall
      rw [← length_line arrayByte body, List.length_append, List.take_length_add_append,
        List.drop_length_add_append, hstep, hloop, List.append_assoc]
      exact ⟨by omega, rfl⟩

end Converse

/-! ## Where framing succeeds, parsing finds the same end -/

/-- The errors that framing does not look for. -/
def InnerError (e : KvsError) : Prop :=
  e = protocolError "invalid integer" ∨ e = protocolError "nesting too deep"

/-- `parse` takes the word `w` and leaves what follows it, or finds an inner error in it. -/
def Delimits {α : Type} (parse : Bytes → Except KvsError (α × ℕ)) (w : Bytes) : Prop :=
  (∃ v, ∀ rest, parse (w ++ rest) = .ok (v, w.length)) ∨
    ∃ e, InnerError e ∧ ∀ rest, parse (w ++ rest) = .error e

section Forward

variable {item : Bytes → Except KvsError (RespValue × ℕ)} {w w' frame stream : Bytes} {a b : ℕ}

theorem Delimits.cons (h : Delimits item w) (h' : Delimits (parseItems item a) w') :
    Delimits (parseItems item (a + 1)) (w ++ w') := by
  rcases h with ⟨v, hv⟩ | ⟨e, he, hw⟩
  · have hdrop : ∀ rest, (w ++ (w' ++ rest)).drop w.length = w' ++ rest := fun rest => List.drop_left
    rcases h' with ⟨vs, hvs⟩ | ⟨e, he, hw'⟩
    · refine Or.inl ⟨v :: vs, fun rest => ?_⟩
      rw [List.append_assoc, parseItems, hv]
      simp only [bind, Except.bind, hdrop, hvs, List.length_append]
    · refine Or.inr ⟨e, he, fun rest => ?_⟩
      rw [List.append_assoc, parseItems, hv]
      simp only [bind, Except.bind, hdrop, hw']
  · refine Or.inr ⟨e, he, fun rest => ?_⟩
    rw [List.append_assoc, parseItems, hw]
    rfl

theorem delimits_integer {levels : ℕ} {body : Bytes} (hb : 10 ∉ body) :
    Delimits (parseLevels (levels + 1)) (line integerByte body) := by
  unfold Delimits
  simp only [parse_integer hb, length_line]
  unfold parseI64
  split
  · rename_i i hi
    exact Or.inl ⟨.integer i, fun _ => rfl⟩
  · exact Or.inr ⟨_, Or.inl rfl, fun _ => rfl⟩

theorem delimits_array {levels len : ℕ} {body : Bytes} (hb : 10 ∉ body)
    (hl : parseLen body = .ok (some len)) (h : Delimits (parseItems (parseLevels levels) len) w) :
    Delimits (parseLevels (levels + 1)) (line arrayByte body ++ w) := by
  rcases h with ⟨vs, hvs⟩ | ⟨e, he, hw⟩
  · refine Or.inl ⟨.array vs, fun rest => ?_⟩
    rw [List.append_assoc, parse_array hb hl, hvs, List.length_append, length_line]
    rfl
  · refine Or.inr ⟨e, he, fun rest => ?_⟩
    rw [List.append_assoc, parse_array hb hl, hw]
    rfl

/-- What a round reads, if it is no array, is one value. -/
theorem FrameStep.delimits {kind : UInt8} {body frame' rest stream' : Bytes} {pending pending' : ℕ}
    (h : FrameStep kind body frame pending rest frame' pending' stream') (hb : 10 ∉ body)
    (levels : ℕ) :
    (∃ w, line kind body ++ rest = line kind body ++ w ++ stream' ∧ frame' = frame ++ w ∧
        pending' = pending ∧ Delimits (parseLevels (levels + 1)) (line kind body ++ w)) ∨
      ∃ len, kind = arrayByte ∧ parseLen body = .ok (some len) ∧ frame' = frame ∧
        pending' = pending + len ∧ stream' = rest := by
  cases h with
  | simple _ hk =>
    refine Or.inl ⟨[], by simp, by simp, rfl, ?_⟩
    rw [List.append_nil]
    rcases hk with rfl | rfl | rfl
    · exact Or.inl ⟨_, fun rest => by rw [parse_simpleString (no_crlf hb), length_line]⟩
    · exact Or.inl ⟨_, fun rest => by rw [parse_error (no_crlf hb), length_line]⟩
    · exact delimits_integer hb
  | null _ hk hl =>
    refine Or.inl ⟨[], by simp, by simp, rfl, ?_⟩
    rw [List.append_nil]
    exact Or.inl ⟨_, fun rest => by rw [parse_null hk hb hl, length_line]⟩
  | bulk data _ hk hl hmax =>
    subst hk
    refine Or.inl ⟨data ++ crlf, by simp, rfl, rfl, Or.inl ⟨.bulkString (some data), fun rest => ?_⟩⟩
    rw [List.append_assoc, parse_bulk hb hl, List.length_append, length_line, List.length_append]
    rfl
  | array len _ hk hl hmax hsum => exact Or.inr ⟨len, hk, hl, rfl, rfl, rfl⟩

/-- The values the loop still has to read are words that parsing delimits, at any depth. By strong
induction on the length of the stream: an array moves its items in front of the values to come. -/
theorem frameLoop_items {r : Bytes × Bytes} (h : frameLoop frame (a + b) stream = .ok (some r))
    (levels : ℕ) : ∃ w rest, stream = w ++ rest ∧ frameLoop (frame ++ w) b rest = .ok (some r) ∧
      Delimits (parseItems (parseLevels levels) a) w := by
  induction hn : stream.length using Nat.strong_induction_on generalizing frame a b stream levels with
  | _ n ih =>
  subst hn
  cases a with
  | zero =>
    rw [Nat.zero_add] at h
    exact ⟨[], stream, rfl, by rwa [List.append_nil], Or.inl ⟨[], fun _ => rfl⟩⟩
  | succ a =>
    rw [Nat.add_right_comm] at h
    -- the first value
    obtain ⟨w₁, rest₁, hs, hlt, hloop, hw₁⟩ : ∃ w₁ rest₁, stream = w₁ ++ rest₁ ∧
        rest₁.length < stream.length ∧ frameLoop (frame ++ w₁) (a + b) rest₁ = .ok (some r) ∧
        Delimits (parseLevels levels) w₁ := by
      obtain ⟨kind, body, rest, frame', pending', stream', hk, hb, rfl, hstep, hloop⟩ := frameLoop_succ h
      have hlen : stream'.length < (line kind body ++ rest).length := by
        have := hstep.length_le
        rw [List.length_append, length_line]
        omega
      have hdeep : ∀ {w}, Delimits (parseLevels 0) w := Or.inr ⟨_, Or.inr rfl, fun _ => rfl⟩
      rcases hstep.delimits hb (levels - 1) with ⟨w, hsplit, rfl, rfl, hw⟩ |
        ⟨len, rfl, hl, rfl, rfl, rfl⟩
      · refine ⟨line kind body ++ w, stream', hsplit, hlen, by rwa [← List.append_assoc], ?_⟩
        cases levels with
        | zero => exact hdeep
        | succ levels => exact hw
      · rw [Nat.add_comm] at hloop
        obtain ⟨w, rest', rfl, hloop', hw⟩ := ih _ hlen hloop (levels - 1) rfl
        refine ⟨line arrayByte body ++ w, rest', by rw [List.append_assoc], ?_,
          by rwa [← List.append_assoc], ?_⟩
        · simp only [List.length_append, length_line]
          omega
        · cases levels with
          | zero => exact hdeep
          | succ levels => exact delimits_array hb hl hw
    -- the other ones
    obtain ⟨w₂, rest₂, rfl, hloop₂, hw₂⟩ := ih _ hlt hloop levels rfl
    exact ⟨w₁ ++ w₂, rest₂, by rw [hs, List.append_assoc], by rwa [← List.append_assoc], hw₁.cons hw₂⟩

theorem Delimits.one (h : Delimits (parseItems item 1) w) : Delimits item w := by
  have heq : ∀ buf, parseItems item 1 buf = (item buf).map fun r => ([r.1], r.2) := by
    intro buf
    rw [parseItems]
    cases item buf <;> rfl
  simp only [Delimits, heq] at h
  rcases h with ⟨vs, hvs⟩ | ⟨e, he, hw⟩
  · -- the value does not depend on what follows the word
    obtain ⟨⟨v, n⟩, hv, heq⟩ := BytesUtil.map_eq_ok.mp (hvs [])
    obtain ⟨hv', -⟩ := Prod.mk.inj heq
    refine Or.inl ⟨v, fun rest => ?_⟩
    obtain ⟨⟨v', n'⟩, hr, heq⟩ := BytesUtil.map_eq_ok.mp (hvs rest)
    obtain ⟨hv'', hn⟩ := Prod.mk.inj heq
    have hvv : v' = v := (List.cons.inj (hv''.trans hv'.symm)).1
    rw [hr, hvv, ← hn]
  · refine Or.inr ⟨e, he, fun rest => ?_⟩
    have := hw rest
    cases hi : item (w ++ rest) with
    | ok r => rw [hi] at this; cases this
    | error e' => rw [hi] at this; cases this; rfl

theorem parseResp_of_delimits (h : Delimits (parseLevels (maxDepth + 1)) w) :
    (∃ v, parseResp w = .ok v) ∨ ∃ e, InnerError e ∧ parseResp w = .error e := by
  rcases h with ⟨v, hv⟩ | ⟨e, he, hw⟩
  · have hv := hv []
    rw [List.append_nil] at hv
    refine Or.inl ⟨v, ?_⟩
    rw [parseResp, parseValue, Nat.sub_zero, hv]
    simp [bind, Except.bind]
  · have hw := hw []
    rw [List.append_nil] at hw
    refine Or.inr ⟨e, he, ?_⟩
    rw [parseResp, parseValue, Nat.sub_zero, hw]
    rfl

/-- A frame is at the front of the stream, and parsing delimits it. -/
theorem readFrameResp_delimits {frame rest : Bytes}
    (h : readFrameResp stream = .ok (some (frame, rest))) :
    stream = frame ++ rest ∧ Delimits (parseLevels (maxDepth + 1)) frame := by
  obtain ⟨w, rest', rfl, hloop, hw⟩ := frameLoop_items (a := 1) (b := 0) h (maxDepth + 1)
  rw [frameLoop_zero, List.nil_append] at hloop
  cases hloop
  exact ⟨rfl, hw.one⟩

end Forward

/-- The loop does not go on for ever. -/
theorem frameRound_ends (run : ℕ → Bytes × ℕ × Bytes) : ¬ ∀ i, ∃ pending,
    (run i).2.1 = pending + 1 ∧ frameRound (run i).1 pending (run i).2.2 = .ok (some (run (i + 1))) := by
  intro h
  have hlt : ∀ i, (run (i + 1)).2.2.length < (run i).2.2.length := by
    intro i
    obtain ⟨pending, -, hr⟩ := h i
    exact frameRound_progress hr
  have hle : ∀ i, (run i).2.2.length + i ≤ (run 0).2.2.length := by
    intro i
    induction i with
    | zero => exact le_rfl
    | succ i ih =>
      have := hlt i
      omega
  have := hle ((run 0).2.2.length + 1)
  omega

/-- On every stream: a frame that `read_frame_resp` returns parses as a whole, except for integers
out of range and too deep nesting; a value that parses within the limits of framing is returned
exactly; and the loop of `read_frame_resp` ends. -/
theorem resp_framing_agrees (stream : Bytes) :
    (∀ frame rest, readFrameResp stream = .ok (some (frame, rest)) → stream = frame ++ rest ∧
        ((∃ v, parseResp frame = .ok v) ∨ ∃ e, InnerError e ∧ parseResp frame = .error e)) ∧
      (∀ v n, parseValue stream 0 = .ok (v, n) → v.Framable 0 →
        n ≤ stream.length ∧ readFrameResp stream = .ok (some (stream.take n, stream.drop n))) ∧
      ∀ run : ℕ → Bytes × ℕ × Bytes, run 0 = ([], 1, stream) → ¬ ∀ i, ∃ pending,
        (run i).2.1 = pending + 1 ∧
          frameRound (run i).1 pending (run i).2.2 = .ok (some (run (i + 1))) := by
  refine ⟨fun frame rest h => ?_, fun v n h hv => ?_, fun run _ => frameRound_ends run⟩
  · obtain ⟨hs, hw⟩ := readFrameResp_delimits h
    exact ⟨hs, parseResp_of_delimits hw⟩
  · obtain ⟨hn, hloop⟩ := follows_parseLevels (maxDepth + 1) [] h hv
    refine ⟨hn, ?_⟩
    rw [readFrameResp, hloop, frameLoop_zero, List.nil_append]

end Bitcask
