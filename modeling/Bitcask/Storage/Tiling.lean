import Bitcask.Storage.RecordReader

/-!
# Calls of `next_record` in a row

`RecordReader` with the buffer it reuses, called any number of times on any bytes.

1. `BufRecordReader.nextRecord`: a call with its buffer, which is resized, gets the header copied in
   and the body read into the rest of it; the bytes of a record are the whole buffer. The ranges taken
   of the buffer are inside it and nothing of an earlier record is left in it, so a call is
   `RecordReader.nextRecord` (`nextRecord_forget`).
2. `reader_tiles`: with the true length of the stream the calls cut it into frames and a rest.
3. `Roomy B L`: no record of `B` that starts inside the claimed length `L` has its header across
   `L`. Then calls under the wrong length are safe as long as none follows a torn tail that leaves
   a header to read (`reader_tolerates`); without it some call underflows (`not_roomy_underflows`).
-/

namespace Bitcask

open LittleEndian

/-! ## Calls in a row -/

section Calls

variable {α σ τ : Type}

/-- The results of `n` calls in a row and the state after them; `none` if one of them panics. -/
def calls (step : σ → Option (α × σ)) : ℕ → σ → Option (List α × σ)
  | 0, s => some ([], s)
  | n + 1, s => (step s).bind fun x => (calls step n x.2).map fun y => (x.1 :: y.1, y.2)

variable {step : σ → Option (α × σ)} {step' : τ → Option (α × τ)}

theorem calls_succ {s s' : σ} {a : α} (h : step s = some (a, s')) (n : ℕ) :
    calls step (n + 1) s = (calls step n s').map fun y => (a :: y.1, y.2) := by
  rw [calls, h, Option.bind_some]

theorem calls_one {s s' : σ} {a : α} (h : step s = some (a, s')) :
    calls step 1 s = some ([a], s') := by
  rw [calls_succ h, calls, Option.map_some]

theorem calls_add (m n : ℕ) (s : σ) :
    calls step (m + n) s =
      (calls step m s).bind fun x => (calls step n x.2).map fun y => (x.1 ++ y.1, y.2) := by
  induction m generalizing s with
  | zero => simp [calls]
  | succ m ih =>
    rw [Nat.succ_add, calls, calls, Option.bind_assoc]
    congr 1
    funext x
    rw [ih, Option.map_bind, Option.bind_map]
    congr 1
    funext y
    simp [Option.map_map, Function.comp_def]

/-- Calls of a machine that shows the steps of another one. -/
theorem calls_forget {f : σ → τ} (h : ∀ s, (step s).map (Prod.map id f) = step' (f s)) (n : ℕ)
    (s : σ) : (calls step n s).map (Prod.map id f) = calls step' n (f s) := by
  induction n generalizing s with
  | zero => rfl
  | succ n ih =>
    rw [calls, calls, ← h, Option.map_bind, Option.bind_map]
    congr 1
    funext x
    show _ = (calls step' n (f x.2)).map _
    rw [← ih, Function.comp_apply, Option.map_map, Option.map_map]
    rfl

end Calls

/-! ## The reader with its buffer -/

/-- `read_exact` of `n` bytes: the bytes, or `none` at the end of the stream, and what is left of
the stream. A read that meets the end has consumed what was left. -/
def BufRecordReader.readExact (stream : Bytes) (n : ℕ) : Option Bytes × Bytes :=
  if stream.length < n then (none, []) else (some (stream.take n), stream.drop n)

/-- `Vec::resize`: the buffer cut to `n` bytes or filled up with `x`. -/
def resize (buf : Bytes) (n : ℕ) (x : UInt8) : Bytes :=
  buf.take n ++ List.replicate (n - buf.length) x

/-- `buf[..src.len()].copy_from_slice(src)`; `none` is the panic of a range past the end. -/
def copyFront (buf src : Bytes) : Option Bytes :=
  if buf.length < src.length then none else some (src ++ buf.drop src.length)

/-- `RecordReader` with the buffer it reuses. -/
structure BufRecordReader extends RecordReader where
  buf : Bytes
  deriving DecidableEq, Repr

namespace BufRecordReader

def new (reader : Bytes) (fileLen : ℕ) : BufRecordReader := ⟨RecordReader.new reader fileLen, []⟩

/-- The end of `next_record`, once the header is copied to the front of the buffer: the body is read
into `buf[HEADER_LEN..]`. A read that meets the end leaves what it got in the buffer. -/
def readBody (r : BufRecordReader) (rest buf : Bytes) (bodyLen : ℕ) :
    Option (RecordRead × BufRecordReader) :=
  if buf.length < headerLen then none
  else
    match readExact rest (buf.length - headerLen) with
    | (none, left) =>
      some (.tornTail r.position,
        ⟨{ r.toRecordReader with reader := left },
          buf.take headerLen ++ (rest ++ buf.drop (headerLen + rest.length))⟩)
    | (some body, left) =>
      some (.record r.position (buf.take headerLen ++ body),
        ⟨⟨left, r.position + headerLen + bodyLen, r.fileLen⟩, buf.take headerLen ++ body⟩)

/-- `next_record`; `none` is a panic: of the subtraction `file_len - start - HEADER_LEN`, or of a
range of the buffer that is not inside it. -/
def nextRecord (r : BufRecordReader) : Option (RecordRead × BufRecordReader) :=
  match readExact r.reader headerLen with
  | (none, left) =>
    some (if r.position = r.fileLen then .cleanEof else .tornTail r.position,
      { r with reader := left })
  | (some header, rest) =>
    let bodyLen := Command.bodyLen header
    if r.fileLen < r.position + headerLen then none
    else if bodyLen > r.fileLen - r.position - headerLen then
      some (.tornTail r.position, { r with reader := rest })
    else
      (copyFront (resize r.buf (headerLen + bodyLen) 0) header).bind fun buf =>
        r.readBody rest buf bodyLen

end BufRecordReader

theorem length_resize (buf : Bytes) (n : ℕ) (x : UInt8) : (resize buf n x).length = n := by
  unfold resize
  rw [List.length_append, List.length_take, List.length_replicate]
  omega

/-- The header fits into the resized buffer and the body takes the rest of it. -/
theorem copyFront_resize (buf header : Bytes) (x : UInt8) (n : ℕ) :
    ∃ tail, tail.length = n ∧
      copyFront (resize buf (header.length + n) x) header = some (header ++ tail) := by
  have hlen := length_resize buf (header.length + n) x
  refine ⟨(resize buf (header.length + n) x).drop header.length, ?_, ?_⟩
  · rw [List.length_drop, hlen]
    omega
  · unfold copyFront
    rw [if_neg (by omega)]

namespace BufRecordReader

/-- The body read over whatever the resized buffer holds after the header. -/
theorem readBody_forget (r : BufRecordReader) {rest header tail : Bytes}
    (hh : header.length = headerLen) :
    (r.readBody rest (header ++ tail) tail.length).map (Prod.map id toRecordReader) =
      some (if rest.length < tail.length then
          (.tornTail r.position, { r.toRecordReader with reader := [] })
        else (.record r.position (header ++ rest.take tail.length),
          ⟨rest.drop tail.length, r.position + headerLen + tail.length, r.fileLen⟩)) := by
  have hlen : (header ++ tail).length - headerLen = tail.length := by
    rw [List.length_append, hh]
    omega
  have htake : (header ++ tail).take headerLen = header := List.take_left' hh
  unfold readBody readExact
  rw [if_neg (by rw [List.length_append]; omega), hlen, htake]
  by_cases hshort : rest.length < tail.length
  · rw [if_pos hshort, if_pos hshort]
    rfl
  · rw [if_neg hshort, if_neg hshort]
    rfl

/-- A call does not depend on what the buffer held, and takes no range outside of it. -/
theorem nextRecord_forget (r : BufRecordReader) :
    r.nextRecord.map (Prod.map id toRecordReader) = r.toRecordReader.nextRecord := by
  unfold nextRecord RecordReader.nextRecord readExact
  by_cases hshort : r.reader.length < headerLen
  · rw [if_pos hshort, if_pos hshort]
    by_cases heof : r.position = r.fileLen
    · rw [if_pos heof]
      simp [heof]
    · rw [if_neg heof]
      simp [heof]
  rw [if_neg hshort, if_neg hshort]
  simp only
  by_cases hunder : r.fileLen < r.position + headerLen
  · rw [if_pos hunder, if_pos hunder]
    rfl
  rw [if_neg hunder, if_neg hunder]
  by_cases hbody : Command.bodyLen (r.reader.take headerLen) > r.fileLen - r.position - headerLen
  · rw [if_pos hbody, if_pos hbody]
    rfl
  rw [if_neg hbody, if_neg hbody]
  have hh : (r.reader.take headerLen).length = headerLen := by
    rw [List.length_take]
    omega
  obtain ⟨tail, htail, hcopy⟩ := copyFront_resize r.buf (r.reader.take headerLen) 0
    (Command.bodyLen (r.reader.take headerLen))
  rw [hh] at hcopy
  rw [hcopy, Option.bind_some, ← htail, readBody_forget r hh, htail, ← List.take_add]
  split_ifs <;> rfl

theorem nextRecord_eq {r : BufRecordReader} {x : RecordRead} {s : RecordReader}
    (h : r.toRecordReader.nextRecord = some (x, s)) :
    ∃ r', r.nextRecord = some (x, r') ∧ r'.toRecordReader = s := by
  rw [← nextRecord_forget] at h
  obtain ⟨⟨x', r'⟩, hnext, he⟩ := Option.map_eq_some_iff.mp h
  obtain ⟨rfl, rfl⟩ := Prod.mk.inj he
  exact ⟨r', hnext, rfl⟩

/-- Calls with the buffer are calls without it. -/
theorem calls_eq {r : BufRecordReader} {n : ℕ} {out : List RecordRead} {s : RecordReader}
    (h : calls RecordReader.nextRecord n r.toRecordReader = some (out, s)) :
    ∃ r', calls nextRecord n r = some (out, r') ∧ r'.toRecordReader = s := by
  rw [← calls_forget nextRecord_forget] at h
  obtain ⟨⟨out', r'⟩, hcalls, he⟩ := Option.map_eq_some_iff.mp h
  obtain ⟨rfl, rfl⟩ := Prod.mk.inj he
  exact ⟨r', hcalls, rfl⟩

theorem calls_eq_none {r : BufRecordReader} {n : ℕ}
    (h : calls RecordReader.nextRecord n r.toRecordReader = none) : calls nextRecord n r = none := by
  rw [← calls_forget nextRecord_forget] at h
  exact Option.map_eq_none_iff.mp h

end BufRecordReader

/-! ## The true length -/

/-- The results of the calls that return the records `bs`, the first of them at `p`. -/
def recordsAt : ℕ → List Bytes → List RecordRead
  | _, [] => []
  | p, b :: bs => .record p b :: recordsAt (p + b.length) bs

/-- Every byte string is a sequence of frames and a rest without one. -/
theorem exists_frames (b : Bytes) :
    ∃ (bs : List Bytes) (rest : Bytes), b = bs.flatten ++ rest ∧ (∀ f ∈ bs, IsFrame f) ∧
      (rest = [] ∨ Torn rest) := by
  induction hn : b.length using Nat.strong_induction_on generalizing b with
  | _ n ih =>
    rcases frame_cases b with hnil | htorn | ⟨f, tail, rfl, hf⟩
    · exact ⟨[], b, rfl, by simp, Or.inl hnil⟩
    · exact ⟨[], b, rfl, by simp, Or.inr htorn⟩
    · have hpos := List.length_pos_iff.mpr hf.ne_nil
      have hlt : tail.length < n := by
        rw [← hn, List.length_append]
        omega
      obtain ⟨bs, rest, rfl, hbs, hrest⟩ := ih tail.length hlt tail rfl
      refine ⟨f :: bs, rest, by simp, ?_, hrest⟩
      intro g hg
      rcases List.mem_cons.mp hg with rfl | hg
      · exact hf
      · exact hbs g hg

/-- A frame that starts with a frame is that frame. -/
theorem IsFrame.eq_of_take {b f : Bytes} (hb : IsFrame b) (hf : IsFrame f)
    (h : b.take f.length = f) : b = f := by
  have hsplit : b ++ [] = f ++ b.drop f.length := by
    conv_rhs => lhs; rw [← h]
    rw [List.take_append_drop, List.append_nil]
  exact (hb.eq_of_append hf hsplit).1

/-- A frame is all that its decoding takes. -/
theorem IsFrame.deserialize {crc : Bytes → UInt32} {b : Bytes} (hb : IsFrame b) {c : Command} {n : ℕ}
    (h : Command.deserialize crc b = .ok (c, n)) : n = b.length := by
  obtain ⟨hfit, rfl, -, htake⟩ := (Command.deserialize_eq_ok crc).mp h
  rw [hb.eq_of_take (IsFrame.serialize crc hfit) htake]

theorem IsFrame.deserialize_hint {crc : Bytes → UInt32} {b : Bytes} (hb : IsFrame b) {key : Bytes}
    {iv : IndexValue} {f n : ℕ} (h : IndexValue.deserialize crc b f = .ok (key, iv, n)) :
    n = b.length := by
  obtain ⟨-, -, hfit, rfl, -, htake⟩ := (IndexValue.deserialize_eq_ok crc).mp h
  rw [hb.eq_of_take (IsFrame.hint crc hfit) htake]

namespace RecordReader

/-- The frames at the front of a stream are read one by one, if they end inside the claimed
length. -/
theorem calls_frames {bs : List Bytes} (hbs : ∀ b ∈ bs, IsFrame b) (rest : Bytes) {p fileLen : ℕ}
    (hle : p + bs.flatten.length ≤ fileLen) :
    calls nextRecord bs.length ⟨bs.flatten ++ rest, p, fileLen⟩ =
      some (recordsAt p bs, ⟨rest, p + bs.flatten.length, fileLen⟩) := by
  induction bs generalizing p with
  | nil => rfl
  | cons b bs ih =>
    rw [List.flatten_cons, List.length_append, ← Nat.add_assoc] at hle
    have hle' : p + b.length ≤ fileLen := by omega
    have hread := nextRecord_frame_le (hbs b List.mem_cons_self) (bs.flatten ++ rest) hle'
    rw [List.flatten_cons, List.append_assoc, List.length_cons, calls_succ hread,
      ih (fun x hx => hbs x (List.mem_cons_of_mem _ hx)) hle, List.length_append, ← Nat.add_assoc]
    rfl

theorem calls_eof (p n : ℕ) :
    calls nextRecord n ⟨[], p, p⟩ = some (List.replicate n .cleanEof, ⟨[], p, p⟩) := by
  induction n with
  | zero => rfl
  | succ n ih =>
    rw [calls_succ (nextRecord_nil p), ih]
    rfl

end RecordReader

/-- The reader tiles its input: the calls on `B` return its frames at contiguous positions and
then stop: at the end of `B`, where they stay, or at a rest that is no whole record. A frame has the
length its header says, and a decoding of it takes all of it. -/
theorem reader_tiles (B : Bytes) :
    ∃ (bs : List Bytes) (rest : Bytes) (r : BufRecordReader), B = bs.flatten ++ rest ∧
      calls BufRecordReader.nextRecord bs.length (BufRecordReader.new B B.length) =
        some (recordsAt 0 bs, r) ∧
      r.reader = rest ∧
      (∀ b ∈ bs, b.length = headerLen + Command.bodyLen (b.take headerLen) ∧
        (∀ crc c n, Command.deserialize crc b = .ok (c, n) → n = b.length) ∧
        ∀ crc f key iv n, IndexValue.deserialize crc b f = .ok (key, iv, n) → n = b.length) ∧
      ∃ last r', r.nextRecord = some (last, r') ∧
        (last = .cleanEof ↔ rest = []) ∧
        (last = .tornTail bs.flatten.length ↔ rest ≠ []) ∧
        (rest ≠ [] → rest.length < headerLen ∨
          rest.length < headerLen + Command.bodyLen (rest.take headerLen)) ∧
        (last = .cleanEof → ∀ n, ∃ r'',
          calls BufRecordReader.nextRecord n r' = some (List.replicate n .cleanEof, r'')) := by
  obtain ⟨bs, rest, rfl, hbs, hrest⟩ := exists_frames B
  have hle : 0 + bs.flatten.length ≤ (bs.flatten ++ rest).length := by
    rw [List.length_append]
    omega
  have hframes := RecordReader.calls_frames hbs rest hle
  obtain ⟨r, hcalls, hr⟩ := BufRecordReader.calls_eq
    (r := BufRecordReader.new (bs.flatten ++ rest) (bs.flatten ++ rest).length) hframes
  rw [Nat.zero_add, List.length_append] at hr
  refine ⟨bs, rest, r, rfl, hcalls, by rw [hr], ?_, ?_⟩
  · intro b hb
    exact ⟨(hbs b hb).2, fun crc c n h => (hbs b hb).deserialize h,
      fun crc f key iv n h => (hbs b hb).deserialize_hint h⟩
  -- the call after the frames
  rcases hrest with rfl | htorn
  · rw [List.length_nil, Nat.add_zero] at hr
    have hend := RecordReader.nextRecord_nil bs.flatten.length
    obtain ⟨r', hlast, hr'⟩ := BufRecordReader.nextRecord_eq (hr ▸ hend)
    refine ⟨.cleanEof, r', hlast, by simp, by simp, by simp, fun _ n => ?_⟩
    have hstay := RecordReader.calls_eof bs.flatten.length n
    rw [← hr, ← hr'] at hstay
    obtain ⟨r'', hstable, -⟩ := BufRecordReader.calls_eq hstay
    exact ⟨r'', hstable⟩
  · obtain ⟨left, htail⟩ := RecordReader.nextRecord_torn htorn bs.flatten.length
    rw [← hr] at htail
    obtain ⟨r', hlast, -⟩ := BufRecordReader.nextRecord_eq htail
    exact ⟨.tornTail bs.flatten.length, r', hlast, by simp [htorn.1], by simp [htorn.1],
      fun _ => htorn.2, by simp⟩

/-! ## Any claimed length -/

/-- What a call does under any claimed length: with no header left it gives no record and drains
the stream; it underflows; it reports a torn tail and has taken at least the header; or it returns
the frame at the front, which ends inside the claimed length. -/
theorem RecordReader.nextRecord_cases (r : RecordReader) :
    (r.reader.length < headerLen ∧ ∃ x, (∀ p b, x ≠ .record p b) ∧
      r.nextRecord = some (x, { r with reader := [] })) ∨
    (headerLen ≤ r.reader.length ∧ r.fileLen < r.position + headerLen ∧ r.nextRecord = none) ∨
    (∃ left, left.length + headerLen ≤ r.reader.length ∧
      r.nextRecord = some (.tornTail r.position, { r with reader := left })) ∨
    ∃ f rest, r.reader = f ++ rest ∧ IsFrame f ∧ r.position + f.length ≤ r.fileLen ∧
      r.nextRecord = some (.record r.position f, ⟨rest, r.position + f.length, r.fileLen⟩) := by
  obtain ⟨reader, p, fileLen⟩ := r
  by_cases hshort : reader.length < headerLen
  · refine Or.inl ⟨hshort, if p = fileLen then .cleanEof else .tornTail p, ?_, ?_⟩
    · intro q b
      split_ifs <;> simp
    · simp only [nextRecord, hshort, if_true]
      split_ifs <;> rfl
  by_cases hunder : fileLen < p + headerLen
  · exact Or.inr (Or.inl ⟨Nat.not_lt.mp hshort, hunder, by simp only [nextRecord, hshort, hunder,
      if_true, if_false]⟩)
  refine Or.inr (Or.inr ?_)
  rcases frame_cases reader with rfl | htorn | ⟨f, rest, rfl, hf⟩
  · exact absurd hshort (by simp [headerLen])
  · left
    have hbody := htorn.2.resolve_left hshort
    by_cases hclaim : Command.bodyLen (reader.take headerLen) > fileLen - p - headerLen
    · refine ⟨reader.drop headerLen, by simp only [List.length_drop]; omega, ?_⟩
      simp only [nextRecord, hshort, hunder, hclaim, if_true, if_false]
    · refine ⟨[], by simp only [List.length_nil]; omega, ?_⟩
      simp only [nextRecord, hshort, hunder, hclaim, if_false]
      rw [if_pos (by rw [List.length_drop]; omega)]
  · by_cases hle : p + f.length ≤ fileLen
    · exact Or.inr ⟨f, rest, rfl, hf, hle, nextRecord_frame_le hf rest hle⟩
    · left
      have hclaim : Command.bodyLen ((f ++ rest).take headerLen) > fileLen - p - headerLen := by
        have h8 := hf.1
        have hlen := hf.2
        rw [hf.take_header]
        omega
      refine ⟨(f ++ rest).drop headerLen, by simp only [List.length_drop]; omega, ?_⟩
      simp only [nextRecord, hshort, hunder, hclaim, if_true, if_false]

/-- The first `p` bytes of `B` are whole records. -/
def Boundary (B : Bytes) (p : ℕ) : Prop :=
  ∃ (bs : List Bytes) (rest : Bytes), B = bs.flatten ++ rest ∧ (∀ b ∈ bs, IsFrame b) ∧
    p = bs.flatten.length

/-- Where a record may start inside the claimed length and its header is in `B`, the header ends
inside the claimed length. -/
def Roomy (B : Bytes) (fileLen : ℕ) : Prop :=
  ∀ p, Boundary B p → p ≤ fileLen → p + headerLen ≤ B.length → p + headerLen ≤ fileLen

/-- A claimed length past the end leaves room. -/
theorem Roomy.of_length_le {B : Bytes} {fileLen : ℕ} (h : B.length ≤ fileLen) : Roomy B fileLen :=
  fun _ _ _ hp => hp.trans h

/-- Where a reader of `B` stands that was called with `fileLen` as its length. -/
inductive Reading (B : Bytes) (fileLen : ℕ) : RecordReader → Prop
  | behind {bs : List Bytes} {rest : Bytes} (hB : B = bs.flatten ++ rest)
    (hbs : ∀ b ∈ bs, IsFrame b) (hle : bs.flatten.length ≤ fileLen) :
    Reading B fileLen ⟨rest, bs.flatten.length, fileLen⟩
  | drained {r : RecordReader} (hr : r.reader.length < headerLen) : Reading B fileLen r

/-- The bytes of a record are those of `B` at its position. -/
def RecordRead.From (B : Bytes) : RecordRead → Prop
  | .record p b => slice B p (p + b.length) = b
  | _ => True

variable {B : Bytes} {fileLen : ℕ}

/-- One call: it returns, a record comes from `B`, and the reader is where it should be unless it
reported a torn tail and left a header to read. -/
theorem Reading.step (hroom : Roomy B fileLen) {r : RecordReader} (h : Reading B fileLen r) :
    ∃ x r', r.nextRecord = some (x, r') ∧ x.From B ∧
      (Reading B fileLen r' ∨ ∃ p, x = .tornTail p) := by
  rcases r.nextRecord_cases with
    ⟨-, x, hx, hnext⟩ | ⟨h8, hunder, -⟩ | ⟨left, -, hnext⟩ | ⟨f, rest, hr, hf, hle, hnext⟩
  · refine ⟨x, _, hnext, ?_, Or.inl (.drained (by simp [headerLen]))⟩
    cases x with
    | record p b => exact absurd rfl (hx p b)
    | cleanEof => trivial
    | tornTail p => trivial
  · cases h with
    | drained hr => omega
    | behind hB hbs hle =>
      have hlen := congrArg List.length hB
      rw [List.length_append] at hlen
      have := hroom _ ⟨_, _, hB, hbs, rfl⟩ hle (by simp only at h8; omega)
      simp only at hunder
      omega
  · exact ⟨_, _, hnext, trivial, Or.inr ⟨_, rfl⟩⟩
  · cases h with
    | drained hd =>
      have h8 := hf.1
      rw [hr, List.length_append] at hd
      omega
    | @behind bs rest' hB hbs hle' =>
      simp only at hr hle hnext
      subst hr
      have hflat : (bs ++ [f]).flatten = bs.flatten ++ f := by simp
      have hlen : (bs ++ [f]).flatten.length = bs.flatten.length + f.length := by
        rw [hflat, List.length_append]
      refine ⟨_, _, hnext, ?_, Or.inl ?_⟩
      · show slice B bs.flatten.length (bs.flatten.length + f.length) = f
        rw [hB]
        exact slice_middle _ _ _
      · rw [← hlen]
        refine .behind (by rw [hB, hflat, List.append_assoc]) ?_ (by rw [hlen]; exact hle)
        intro b hb
        rcases List.mem_append.mp hb with hb | hb
        · exact hbs b hb
        · exact List.mem_singleton.mp hb ▸ hf

/-- After a torn tail among the first `n` calls no header is left to read. -/
def SpentAfterTorn (r : BufRecordReader) (n : ℕ) : Prop :=
  ∀ out r', calls BufRecordReader.nextRecord n r = some (out, r') → ∀ p, .tornTail p ∈ out →
    r'.reader.length < headerLen

/-- A sequence of calls, by induction on its length: each call is a step of `Reading`. -/
theorem Reading.run (hroom : Roomy B fileLen) {n : ℕ} {r : BufRecordReader}
    (h : Reading B fileLen r.toRecordReader) (hn : ∀ m < n, SpentAfterTorn r m) :
    ∃ out r', calls BufRecordReader.nextRecord n r = some (out, r') ∧ ∀ x ∈ out, x.From B := by
  induction n generalizing r with
  | zero => exact ⟨[], r, rfl, by simp⟩
  | succ n ih =>
    obtain ⟨x, s, hstep, hx, hreading⟩ := h.step hroom
    obtain ⟨r₁, hnext, rfl⟩ := BufRecordReader.nextRecord_eq hstep
    -- what holds of the calls before the last one holds of those after the first
    have hn₁ : ∀ m < n, SpentAfterTorn r₁ m := by
      intro m hm out r' hcalls p hp
      have hcalls' : calls BufRecordReader.nextRecord (m + 1) r = some (x :: out, r') := by
        rw [calls_succ hnext, hcalls]
        rfl
      exact hn (m + 1) (by omega) _ _ hcalls' p (List.mem_cons_of_mem _ hp)
    have hrest : ∃ out r', calls BufRecordReader.nextRecord n r₁ = some (out, r') ∧
        ∀ x ∈ out, x.From B := by
      rcases hreading with hreading | ⟨p, rfl⟩
      · exact ih hreading hn₁
      · cases n with
        | zero => exact ⟨[], r₁, rfl, by simp⟩
        | succ n =>
          have hspent := hn 1 (by omega) _ _ (calls_one hnext) p List.mem_cons_self
          exact ih (.drained hspent) hn₁
    obtain ⟨out, r', hcalls, hout⟩ := hrest
    refine ⟨x :: out, r', by rw [calls_succ hnext, hcalls]; rfl, ?_⟩
    intro y hy
    rcases List.mem_cons.mp hy with rfl | hy
    · exact hx
    · exact hout y hy

/-- The reader under a wrong length: with room for the headers, a sequence of calls that makes
none after a torn tail which leaves a header to read completes, and a record it returns is made of
the bytes of `B` at its position. -/
theorem reader_tolerates (B : Bytes) (fileLen n : ℕ) (hroom : Roomy B fileLen)
    (hn : ∀ m < n, SpentAfterTorn (BufRecordReader.new B fileLen) m) :
    ∃ out r, calls BufRecordReader.nextRecord n (BufRecordReader.new B fileLen) = some (out, r) ∧
      ∀ p b, .record p b ∈ out → slice B p (p + b.length) = b := by
  have hstart : Reading B fileLen (BufRecordReader.new B fileLen).toRecordReader :=
    @Reading.behind B fileLen [] B rfl (by simp) (Nat.zero_le _)
  obtain ⟨out, r, hcalls, hout⟩ := hstart.run hroom hn
  exact ⟨out, r, hcalls, fun p b hb => hout _ hb⟩

/-- A file that lost the end of its second record after its length was taken. -/
theorem reader_tolerates_shrunk :
    ∃ out r, calls BufRecordReader.nextRecord 3
        (BufRecordReader.new (List.replicate 8 0 ++ [0, 0, 0, 0, 8, 0, 0, 0, 1, 2]) 24) =
          some (out, r) ∧
      ∀ p b, .record p b ∈ out →
        slice (List.replicate 8 0 ++ [0, 0, 0, 0, 8, 0, 0, 0, 1, 2]) p (p + b.length) = b := by
  refine reader_tolerates _ 24 3 (Roomy.of_length_le (by decide)) ?_
  intro m hm out r' hcalls p hp
  interval_cases m
  · cases hcalls
    simp at hp
  · cases hcalls
    simp at hp
  · cases hcalls
    decide

/-- The reader is misled by a length that is too small, and by a record that does not fit: a file
that has grown by a record makes the subtraction underflow, and a call after a torn tail returns
bytes that are not at the position it reports. -/
theorem reader_misled :
    calls BufRecordReader.nextRecord 2 (BufRecordReader.new (List.replicate 16 0) 8) = none ∧
    (∃ r, calls BufRecordReader.nextRecord 2
        (BufRecordReader.new ([0, 0, 0, 0, 100, 0, 0, 0] ++ List.replicate 8 0) 16) =
      some ([.tornTail 0, .record 0 (List.replicate 8 0)], r)) ∧
    slice ([0, 0, 0, 0, 100, 0, 0, 0] ++ List.replicate 8 0) 0 8 ≠ List.replicate 8 0 := by
  exact ⟨by decide, ⟨_, rfl⟩, by decide⟩

/-- Without the room some call underflows. -/
theorem not_roomy_underflows (h : ¬ Roomy B fileLen) :
    ∃ n, calls BufRecordReader.nextRecord n (BufRecordReader.new B fileLen) = none := by
  unfold Roomy at h
  push Not at h
  obtain ⟨p, ⟨bs, rest, rfl, hbs, rfl⟩, hle, hin, hout⟩ := h
  rw [List.length_append] at hin
  have hle' : 0 + bs.flatten.length ≤ fileLen := by omega
  have hread := RecordReader.calls_frames hbs rest hle'
  have hunder : calls RecordReader.nextRecord 1 ⟨rest, bs.flatten.length, fileLen⟩ = none := by
    have hshort : ¬ rest.length < headerLen := by omega
    simp only [calls, RecordReader.nextRecord, hshort, hout, if_true, if_false, Option.bind_none]
  refine ⟨bs.length + 1, BufRecordReader.calls_eq_none ?_⟩
  show calls RecordReader.nextRecord (bs.length + 1) ⟨bs.flatten ++ rest, 0, fileLen⟩ = none
  rw [calls_add, hread, Option.bind_some, Nat.zero_add, hunder, Option.map_none]

/-- The reader has taken at least as many bytes as its position says, so with a claimed length that
is not too small it never underflows. -/
theorem RecordReader.calls_total {r : RecordReader} (h : r.position + r.reader.length ≤ r.fileLen)
    (n : ℕ) : ∃ out r', calls nextRecord n r = some (out, r') := by
  induction n generalizing r with
  | zero => exact ⟨[], r, rfl⟩
  | succ n ih =>
    obtain ⟨x, r', hnext, hr'⟩ : ∃ x r', r.nextRecord = some (x, r') ∧
        r'.position + r'.reader.length ≤ r'.fileLen := by
      rcases r.nextRecord_cases with
        ⟨-, x, -, hnext⟩ | ⟨h8, hunder, -⟩ | ⟨left, hleft, hnext⟩ | ⟨f, rest, hread, hf, hle, hnext⟩
      · exact ⟨x, _, hnext, by simp only [List.length_nil]; omega⟩
      · omega
      · exact ⟨_, _, hnext, by simp only; omega⟩
      · refine ⟨_, _, hnext, ?_⟩
        rw [hread, List.length_append] at h
        simp only
        omega
    obtain ⟨out, r'', hcalls⟩ := ih hr'
    exact ⟨x :: out, r'', by rw [calls_succ hnext, hcalls]; rfl⟩

/-- With a length that is not too small every sequence of calls completes, those after a torn tail
included. -/
theorem reader_never_underflows (h : B.length ≤ fileLen) (n : ℕ) :
    ∃ out r, calls BufRecordReader.nextRecord n (BufRecordReader.new B fileLen) = some (out, r) := by
  have hnew : 0 + B.length ≤ fileLen := by omega
  obtain ⟨out, s, hcalls⟩ := RecordReader.calls_total (r := RecordReader.new B fileLen) hnew n
  obtain ⟨r, hcalls', -⟩ := BufRecordReader.calls_eq (r := BufRecordReader.new B fileLen) hcalls
  exact ⟨out, r, hcalls'⟩

end Bitcask
