import Bitcask.Lib.BufferedIo
import Bitcask.Network.Server

/-!
# When replies are sent

`handle_resp` with its buffers: the bytes of the client arrive in chunks and are read through a
`BufReader`, and replies go to a `BufWriter` that is flushed when the read buffer is empty after a
request, and at the end. A chunk is what the socket holds when it is read, so each list of chunks
stands for one timing of the client. The loop waits when a read needs bytes that have not arrived.

1. `frameLoopBuffered_some`, `frameLoopBuffered_none`: chunks and buffers make no difference to the
   frames, and the loop waits only where no frame is complete.
2. `handleRespBuffered_closed`: when the client closes the stream, it has got what `handleResp` writes.
3. `no_reply_withheld`: if every chunk in which a request ends also ends with a request, nothing is
   held back while the loop waits. A chunk that goes on with a part of the next request is a
   different matter (`reply_withheld`).
-/

namespace Bitcask

open LittleEndian StreamCodec BufferedIo

/-! ## One round of `read_frame_resp` -/

/-- The bytes that `read_exact` asks for behind a line. -/
def dataLen (line : Bytes) : ℕ :=
  if line.length < 3 ∨ ¬ crlf.isSuffixOf line then 0
  else if line.headD 0 = bulkByte then
    match parseLen (slice line 1 (line.length - 2)) with
    | .ok (some len) => if len > maxPayload then 0 else len + 2
    | _ => 0
  else 0

/-- A round reads a line and the data behind it, and looks at nothing else. `none` waits. -/
def frameRoundBuffered (frame : Bytes) (pending : ℕ) (r : BufReader UInt8) :
    Option (Except KvsError (Option (Bytes × ℕ)) × BufReader UInt8) :=
  (r.readUntil 10).bind fun line => (line.2.readExact (dataLen line.1)).map fun data =>
    ((frameRound frame pending (line.1 ++ data.1)).map (Option.map fun x => (x.1, x.2.1)), data.2)

section Round

variable {frame stream : Bytes} {pending : ℕ}

theorem drop_of_take {s a t : Bytes} {n : ℕ} (h : s = a ++ t) (ha : a = s.take n) : s.drop n = t := by
  have hs := List.take_append_drop n s
  rw [← ha] at hs
  exact List.append_cancel_left (hs.trans h)

theorem readUntil_eq_take (stop : UInt8) (stream : Bytes) : readUntil stop stream =
    (stream.take (stream.idxOf stop + 1), stream.drop (stream.idxOf stop + 1)) := by
  induction stream with
  | nil => rfl
  | cons b s ih =>
    unfold readUntil
    by_cases hb : b = stop
    · rw [if_pos hb, hb, List.idxOf_cons_self]
      rfl
    · rw [if_neg hb, ih, List.idxOf_cons_ne _ hb]
      rfl

/-- A line that does not end in `\n` is no line. -/
theorem frameRound_no_lf (h : 10 ∉ stream) (r : Bytes × ℕ × Bytes) :
    frameRound frame pending stream ≠ .ok (some r) := by
  intro hr
  obtain ⟨kind, body, rest, -, -, hs, -⟩ := frameRound_eq_ok hr
  apply h
  rw [hs]
  unfold line crlf
  simp

/-- The value behind a line takes the data from the front of the stream. -/
theorem frameValue_take {line : Bytes} (hline : ¬ (line.length < 3 ∨ ¬ crlf.isSuffixOf line)) :
    frameValue (line.headD 0) (slice line 1 (line.length - 2)) frame pending stream =
      (frameValue (line.headD 0) (slice line 1 (line.length - 2)) frame pending
        (stream.take (dataLen line))).map fun x => (x.1, x.2.1, stream.drop (dataLen line)) := by
  unfold dataLen
  rw [if_neg hline]
  generalize line.headD 0 = kind
  generalize slice line 1 (line.length - 2) = body
  unfold frameValue
  by_cases hsimple : kind = simpleByte ∨ kind = errorByte ∨ kind = integerByte
  · have hbulk : kind ≠ bulkByte := by
      rintro rfl
      revert hsimple
      decide
    rw [if_pos hsimple, if_pos hsimple, if_neg hbulk]
    rfl
  rw [if_neg hsimple, if_neg hsimple]
  by_cases hbulk : kind = bulkByte
  · rw [if_pos hbulk, if_pos hbulk, if_pos hbulk]
    cases hl : parseLen body with
    | error e => rfl
    | ok len =>
      cases len with
      | none => rfl
      | some len =>
        simp only [bind, Except.bind]
        by_cases hmax : len > maxPayload
        · rw [if_pos hmax, if_pos hmax, if_pos hmax]
          rfl
        · rw [if_neg hmax, if_neg hmax, if_neg hmax]
          unfold readExact
          by_cases hlen : len + 2 ≤ stream.length
          · rw [if_pos hlen, if_pos (by rw [List.length_take]; omega), List.take_take, Nat.min_self]
            dsimp only
            split <;> rfl
          · rw [if_neg hlen, if_neg (by rw [List.length_take]; omega)]
            rfl
  · rw [if_neg hbulk, if_neg hbulk, if_neg hbulk]
    split
    · cases hl : parseLen body with
      | error e => rfl
      | ok len =>
        cases len with
        | none => rfl
        | some len =>
          simp only [bind, Except.bind]
          split <;> rfl
    · rfl

/-- A value whose data has not arrived is not read. -/
theorem frameValue_short {line : Bytes} (h : stream.length < dataLen line) (r : Bytes × ℕ × Bytes) :
    frameValue (line.headD 0) (slice line 1 (line.length - 2)) frame pending stream ≠ .ok r := by
  unfold dataLen at h
  split at h
  · cases h
  split at h
  · rename_i hbulk
    split at h
    · rename_i len hl
      split at h
      · cases h
      · rename_i hmax
        intro hr
        unfold frameValue at hr
        rw [hbulk, if_neg (by decide), if_pos rfl, hl] at hr
        simp only [bind, Except.bind] at hr
        rw [if_neg hmax, readExact, if_neg (by omega)] at hr
        cases hr
    · cases h
  · cases h

/-- A round depends on its line and the data behind it only. -/
theorem frameRound_take (h : 10 ∈ stream) :
    frameRound frame pending stream =
      (frameRound frame pending ((readUntil 10 stream).1 ++
        (readUntil 10 stream).2.take (dataLen (readUntil 10 stream).1))).map
        (Option.map fun x => (x.1, x.2.1, (readUntil 10 stream).2.drop (dataLen (readUntil 10 stream).1))) := by
  have hlt : stream.idxOf 10 < stream.length := List.idxOf_lt_length_iff.mpr h
  obtain ⟨line, rest, hread⟩ : ∃ line rest, readUntil 10 stream = (line, rest) := ⟨_, _, rfl⟩
  have hline : line = stream.take (stream.idxOf 10 + 1) := by
    rw [readUntil_eq_take] at hread
    exact (Prod.mk.inj hread).1.symm
  have hagain : ∀ data, readUntil 10 (line ++ data) = (line, data) := by
    intro data
    have hlen : line.length = stream.idxOf 10 + 1 := by
      rw [hline, List.length_take]
      omega
    have hidx : (line ++ data).idxOf 10 + 1 = line.length := by
      have hin : 10 ∈ line := by
        rw [hline, List.mem_take_iff_getElem]
        exact ⟨_, by omega, List.getElem_idxOf hlt⟩
      have hsame : (line ++ stream.drop (stream.idxOf 10 + 1)).idxOf 10 = line.idxOf 10 :=
        List.idxOf_append_of_mem hin
      conv at hsame => lhs; rw [hline, List.take_append_drop]
      rw [List.idxOf_append_of_mem hin, ← hsame, hlen]
    rw [readUntil_eq_take, hidx, List.take_left, List.drop_left]
  unfold frameRound
  rw [hread]
  simp only [hagain]
  by_cases hnil : line = []
  · rw [if_pos hnil, if_pos hnil]
    split <;> rfl
  · rw [if_neg hnil, if_neg hnil]
    by_cases hbad : line.length < 3 ∨ ¬ crlf.isSuffixOf line
    · rw [if_pos hbad, if_pos hbad]
      rfl
    · rw [if_neg hbad, if_neg hbad, frameValue_take hbad]
      cases frameValue (line.headD 0) (slice line 1 (line.length - 2)) (frame ++ line) pending
        (rest.take (dataLen line)) <;> rfl

variable {r r' : BufReader UInt8}

theorem readUntil_buffered {stop : UInt8} {line : Bytes} (h : r.readUntil stop = some (line, r')) :
    readUntil stop r.rest = (line, r'.rest) := by
  obtain ⟨hafter, htake, -⟩ := BufReader.readUntil_some h
  rw [readUntil_eq_take, ← htake, drop_of_take hafter.rest htake]

theorem frameRoundBuffered_some {res : Except KvsError (Option (Bytes × ℕ))}
    (h : frameRoundBuffered frame pending r = some (res, r')) :
    frameRound frame pending r.rest = res.map (Option.map fun x => (x.1, x.2, r'.rest)) ∧
      ∃ w, After r w r' := by
  obtain ⟨⟨line, r₁⟩, hline, h⟩ := Option.bind_eq_some_iff.mp h
  obtain ⟨⟨data, r₂⟩, hdata, he⟩ := Option.map_eq_some_iff.mp h
  obtain ⟨hafter, -, hend⟩ := BufReader.readUntil_some hline
  obtain ⟨hafter', htake'⟩ := BufReader.readExact_some hdata
  cases he
  refine ⟨?_, _, hafter.trans hafter'⟩
  by_cases hlf : 10 ∈ r.rest
  · have hdrop : r₁.rest.drop (dataLen line) = r₂.rest := drop_of_take hafter'.rest htake'
    rw [frameRound_take hlf, readUntil_buffered hline]
    dsimp only at htake' ⊢
    rw [← htake', hdrop]
    cases hr : frameRound frame pending (line ++ data) with
    | error e => rfl
    | ok x => cases x <;> rfl
  · have hrest : r₁.rest = [] := by
      apply hend
      intro hin
      apply hlf
      rw [hafter.rest]
      exact List.mem_append_left _ hin
    have hall : line ++ data = r.rest := by
      rw [hafter.rest, hrest, htake', hrest, List.take_nil]
    dsimp only
    rw [hall]
    cases hr : frameRound frame pending r.rest with
    | error e => rfl
    | ok x =>
      cases x with
      | none => rfl
      | some x => exact absurd hr (frameRound_no_lf hlf x)

theorem frameRoundBuffered_none (h : frameRoundBuffered frame pending r = none) :
    r.closed = false ∧ ∀ x, frameRound frame pending r.rest ≠ .ok (some x) := by
  cases hline : r.readUntil 10 with
  | none =>
    obtain ⟨hlf, hc⟩ := BufReader.readUntil_none hline
    exact ⟨hc, frameRound_no_lf hlf⟩
  | some l =>
    obtain ⟨line, r₁⟩ := l
    unfold frameRoundBuffered at h
    rw [hline, Option.bind_some, Option.map_eq_none_iff] at h
    obtain ⟨hshort, hc⟩ := BufReader.readExact_none h
    refine ⟨(BufReader.readUntil_some hline).1.closed ▸ hc, ?_⟩
    intro x hx
    unfold frameRound at hx
    rw [readUntil_buffered hline] at hx
    dsimp only at hx hshort
    split at hx
    · split at hx <;> cases hx
    · split at hx
      · cases hx
      · obtain ⟨y, hy, -⟩ := BytesUtil.map_eq_ok.mp hx
        exact frameValue_short hshort y hy

theorem frameRoundBuffered_progress {x : Bytes × ℕ}
    (h : frameRoundBuffered frame pending r = some (.ok (some x), r')) :
    r'.rest.length < r.rest.length :=
  frameRound_progress (frameRoundBuffered_some h).1

end Round

/-! ## `read_frame_resp` -/

/-- The loop of `read_frame_resp`. -/
def frameLoopBuffered (frame : Bytes) (pending : ℕ) (r : BufReader UInt8) :
    Option (Except KvsError (Option Bytes) × BufReader UInt8) :=
  match pending with
  | 0 => some (.ok (some frame), r)
  | pending + 1 =>
    match _h : frameRoundBuffered frame pending r with
    | none => none
    | some (.error e, r') => some (.error e, r')
    | some (.ok none, r') => some (.ok none, r')
    | some (.ok (some (frame', pending')), r') => frameLoopBuffered frame' pending' r'
termination_by r.rest.length
decreasing_by exact frameRoundBuffered_progress _h

def readFrameRespBuffered (r : BufReader UInt8) :
    Option (Except KvsError (Option Bytes) × BufReader UInt8) :=
  frameLoopBuffered [] 1 r

section Loop

variable {frame : Bytes} {pending : ℕ} {r r' : BufReader UInt8}

/-- The buffered loop reads what the loop reads. -/
theorem frameLoopBuffered_some {res : Except KvsError (Option Bytes)}
    (h : frameLoopBuffered frame pending r = some (res, r')) :
    frameLoop frame pending r.rest = res.map (Option.map fun f => (f, r'.rest)) ∧
      ∃ w, After r w r' := by
  fun_induction frameLoopBuffered frame pending r with
  | case1 =>
    cases h
    exact ⟨frameLoop_zero, [], .refl _⟩
  | case2 => cases h
  | case3 frame r pending e r₁ hr =>
    cases h
    obtain ⟨hround, hafter⟩ := frameRoundBuffered_some hr
    refine ⟨?_, hafter⟩
    rw [frameLoop, hround]
    rfl
  | case4 frame r pending r₁ hr =>
    cases h
    obtain ⟨hround, hafter⟩ := frameRoundBuffered_some hr
    refine ⟨?_, hafter⟩
    rw [frameLoop, hround]
    rfl
  | case5 frame r pending frame' pending' r₁ hr ih =>
    obtain ⟨hround, w, hafter⟩ := frameRoundBuffered_some hr
    obtain ⟨hloop, w', hafter'⟩ := ih h
    refine ⟨?_, _, hafter.trans hafter'⟩
    rw [frameLoop, hround]
    exact hloop

/-- The buffered loop waits only if no frame is complete. -/
theorem frameLoopBuffered_none (h : frameLoopBuffered frame pending r = none) :
    r.closed = false ∧ ∀ x, frameLoop frame pending r.rest ≠ .ok (some x) := by
  fun_induction frameLoopBuffered frame pending r with
  | case1 => cases h
  | case2 frame r pending hr =>
    obtain ⟨hc, hround⟩ := frameRoundBuffered_none hr
    refine ⟨hc, ?_⟩
    intro x hx
    obtain ⟨kind, body, rest, frame', pending', stream', hk, hb, hs, hstep, -⟩ := frameLoop_succ hx
    apply hround (frame', pending', stream')
    rw [hs, frameRound_line hk hb, frameValue_eq_ok.mpr hstep]
    rfl
  | case3 => cases h
  | case4 => cases h
  | case5 frame r pending frame' pending' r₁ hr ih =>
    obtain ⟨hround, w, hafter⟩ := frameRoundBuffered_some hr
    obtain ⟨hc, hloop⟩ := ih h
    refine ⟨hafter.closed ▸ hc, ?_⟩
    intro x hx
    rw [frameLoop, hround] at hx
    exact hloop x hx

theorem readFrameRespBuffered_progress {f : Bytes}
    (h : readFrameRespBuffered r = some (.ok (some f), r')) : r'.rest.length < r.rest.length :=
  readFrameResp_progress (frameLoopBuffered_some h).1

end Loop

/-! ## `handle_resp` -/

/-- The capacity of `BufReader::new` and `BufWriter::new`. -/
def bufCapacity : ℕ := 8192

/-- The reader of a connection whose bytes arrive in `chunks`. -/
def newReader (chunks : List Bytes) (closed : Bool) : BufReader UInt8 where
  capacity := bufCapacity
  capacity_pos := by decide
  buffer := []
  arriving := chunks
  closed := closed

def newWriter : BufWriter UInt8 := ⟨bufCapacity, [], []⟩

/-- How a reply is cut into the calls of `write_all` that write it. -/
def Writes : Type := { cut : Bytes → List Bytes // ∀ reply, (cut reply).flatten = reply }

def Writes.write (writes : Writes) (w : BufWriter UInt8) (reply : Bytes) : BufWriter UInt8 :=
  (writes.1 reply).foldl BufWriter.writeAll w

section Server

variable {σ : Type} (fromUtf8Lossy : Bytes → String) (display : KvsError → String)

/-- `handle_resp`: the store and the writer, and how the loop ended. `none`: it waits for bytes that
have not arrived. A writer that is dropped flushes. -/
def handleRespBuffered (writes : Writes) (store : KvStore σ) (x : σ × BufWriter UInt8)
    (r : BufReader UInt8) : (σ × BufWriter UInt8) × Option (Except KvsError Unit) :=
  match _h : readFrameRespBuffered r with
  | none => (x, none)
  | some (.error e, _) => ((x.1, x.2.flush), some (.error e))
  | some (.ok none, _) => ((x.1, x.2.flush), some (.ok ()))
  | some (.ok (some frame), r') =>
    let (s, reply) := (handleRespFrame fromUtf8Lossy display store (x.1, []) frame).1
    let writer := writes.write x.2 reply
    handleRespBuffered writes store (s, if r'.buffer = [] then writer.flush else writer) r'
termination_by r.rest.length
decreasing_by exact readFrameRespBuffered_progress _h

variable {fromUtf8Lossy display} {writes : Writes} {store : KvStore σ} {s s' : σ}
  {r r' : BufReader UInt8}

theorem Writes.written (writes : Writes) (w : BufWriter UInt8) (reply : Bytes) :
    (writes.write w reply).written = w.written ++ reply := by
  have hfold : ∀ (parts : List Bytes) (w : BufWriter UInt8),
      (parts.foldl BufWriter.writeAll w).written = w.written ++ parts.flatten := by
    intro parts
    induction parts with
    | nil => exact fun w => (List.append_nil _).symm
    | cons part parts ih =>
      intro w
      rw [List.foldl_cons, ih, BufWriter.writeAll_written, List.append_assoc, List.flatten_cons]
  rw [Writes.write, hfold, writes.2]

/-- A reply does not depend on what was written before. -/
theorem handleRespFrame_reply (s : σ) (out frame : Bytes) :
    handleRespFrame fromUtf8Lossy display store (s, out) frame =
      (((handleRespFrame fromUtf8Lossy display store (s, []) frame).1.1,
        out ++ (handleRespFrame fromUtf8Lossy display store (s, []) frame).1.2), .ok ()) := by
  unfold handleRespFrame
  split <;> rfl

end Server

/-! ## Whole requests -/

/-- Nothing but complete requests. -/
def Requests (s : Bytes) : Prop := ∃ frames : List Bytes, s = frames.flatten ∧ ∀ f ∈ frames, IsRequest f

section Requests

/-- The loop needs no more than the frame it returns. -/
theorem frameLoop_front {frame stream f rest : Bytes} {pending : ℕ}
    (h : frameLoop frame pending stream = .ok (some (f, rest))) :
    ∃ w, stream = w ++ rest ∧ frameLoop frame pending w = .ok (some (f, [])) := by
  induction hn : stream.length using Nat.strong_induction_on generalizing frame pending stream with
  | _ n ih =>
  subst hn
  cases pending with
  | zero =>
    rw [frameLoop_zero] at h
    cases h
    exact ⟨[], rfl, frameLoop_zero⟩
  | succ pending =>
    obtain ⟨kind, body, rest₁, frame', pending', stream', hk, hb, rfl, hstep, hloop⟩ := frameLoop_succ h
    have hle := hstep.length_le
    obtain ⟨w, hw, hfront⟩ := ih _ (by rw [List.length_append, length_line]; omega) hloop rfl
    subst hw
    obtain ⟨w₁, hw₁, hstep₁⟩ : ∃ w₁, rest₁ = w₁ ++ rest ∧
        FrameStep kind body (frame ++ line kind body) pending w₁ frame' pending' w := by
      cases hstep with
      | simple _ hk => exact ⟨w, rfl, .simple _ hk⟩
      | null _ hk hl => exact ⟨w, rfl, .null _ hk hl⟩
      | bulk data _ hk hl hmax =>
        exact ⟨data ++ crlf ++ w, (List.append_assoc _ _ _).symm, .bulk data _ hk hl hmax⟩
      | array len _ hk hl hmax hsum => exact ⟨w, rfl, .array len _ hk hl hmax hsum⟩
    refine ⟨line kind body ++ w₁, by rw [hw₁, List.append_assoc], ?_⟩
    rw [frameLoop_step hk hb hstep₁, hfront]

theorem isRequest_of_read {stream f rest : Bytes}
    (h : readFrameResp stream = .ok (some (f, rest))) : stream = f ++ rest ∧ IsRequest f := by
  obtain ⟨hs, -⟩ := readFrameResp_delimits h
  obtain ⟨w, hw, hloop⟩ := frameLoop_front h
  have hwf : w = f := List.append_cancel_right (hw.symm.trans hs)
  subst hwf
  exact ⟨hs, hloop⟩

theorem IsRequest.ne_nil {f : Bytes} (h : IsRequest f) : f ≠ [] := by
  rintro rfl
  rw [IsRequest, readFrameResp_nil] at h
  cases h

theorem Requests.snoc {s f : Bytes} (h : Requests s) (hf : IsRequest f) : Requests (s ++ f) := by
  obtain ⟨frames, rfl, hall⟩ := h
  refine ⟨frames ++ [f], by rw [List.flatten_append, List.flatten_singleton], ?_⟩
  intro g hg
  rcases List.mem_append.mp hg with hg | hg
  · exact hall g hg
  · rw [List.mem_singleton.mp hg]
    exact hf

/-- Complete requests can be taken off the front in one way only. -/
theorem Requests.cancel {s t : Bytes} (hs : Requests s) (h : Requests (s ++ t)) : Requests t := by
  obtain ⟨frames, rfl, hall⟩ := hs
  induction frames with
  | nil => exact h
  | cons f frames ih =>
    obtain ⟨frames', he, hall'⟩ := h
    rw [List.flatten_cons, List.append_assoc] at he
    have hf := reads_of_frame (hall f List.mem_cons_self) (frames.flatten ++ t)
    cases frames' with
    | nil => exact absurd (List.append_eq_nil_iff.mp he).1 (hall f List.mem_cons_self).ne_nil
    | cons g frames' =>
      -- both sides are read as one frame and a rest
      rw [List.flatten_cons] at he
      have hg := reads_of_frame (hall' g List.mem_cons_self) frames'.flatten
      rw [he, hg] at hf
      obtain ⟨-, hrest⟩ := Prod.mk.inj (Option.some.inj (Except.ok.inj hf))
      apply ih (fun f hf => hall f (List.mem_cons_of_mem _ hf))
      exact ⟨frames', hrest.symm, fun f hf => hall' f (List.mem_cons_of_mem _ hf)⟩

/-- No complete request is a proper front of another. -/
theorem Requests.not_front {s t : Bytes} (h : Requests s) (hne : s ≠ []) (hst : IsRequest (s ++ t)) :
    t = [] := by
  obtain ⟨frames, rfl, hall⟩ := h
  cases frames with
  | nil => exact absurd rfl hne
  | cons f frames =>
    have hf := reads_of_frame (hall f List.mem_cons_self) (frames.flatten ++ t)
    rw [← List.append_assoc, ← List.flatten_cons] at hf
    obtain ⟨-, hrest⟩ := Prod.mk.inj (Option.some.inj (Except.ok.inj (hst.symm.trans hf)))
    exact (List.append_eq_nil_iff.mp hrest.symm).2

/-- A stream that starts with complete requests has one at its front. -/
theorem Requests.read {s t : Bytes} (h : Requests s) (hne : s ≠ []) :
    ∃ x, readFrameResp (s ++ t) = .ok (some x) := by
  obtain ⟨frames, rfl, hall⟩ := h
  cases frames with
  | nil => exact absurd rfl hne
  | cons f frames =>
    refine ⟨(f, frames.flatten ++ t), ?_⟩
    rw [List.flatten_cons, List.append_assoc]
    exact reads_of_frame (hall f List.mem_cons_self) _

end Requests

/-! ## Runs of `handle_resp` -/

section Runs

variable {σ : Type} {fromUtf8Lossy : Bytes → String} {display : KvsError → String} {writes : Writes}
  {store : KvStore σ} {r : BufReader UInt8} {x y : σ × BufWriter UInt8}

/-- One round of the loop, as a round of `handleResp`. -/
theorem handleRespFrame_written {s : σ} {frame reply : Bytes} (w : BufWriter UInt8) (x : σ)
    (hreply : (handleRespFrame fromUtf8Lossy display store (x, []) frame).1 = (s, reply))
    (flushes : Prop) [Decidable flushes] :
    handleRespFrame fromUtf8Lossy display store (x, w.written) frame =
      ((s, (if flushes then (writes.write w reply).flush else writes.write w reply).written), .ok ()) := by
  rw [handleRespFrame_reply, hreply]
  split
  · rw [BufWriter.flush_written, Writes.written]
  · rw [Writes.written]

/-- When the client closes the stream, the loop ends as `handleResp` does, and all is sent. -/
theorem handleRespBuffered_closed (hc : r.closed = true) : ∃ res,
    (handleRespBuffered fromUtf8Lossy display writes store x r).2 = some res ∧
      (handleRespBuffered fromUtf8Lossy display writes store x r).1.2.buffer = [] ∧
      respReader.run (handleRespFrame fromUtf8Lossy display store) (x.1, x.2.written) r.rest =
        (((handleRespBuffered fromUtf8Lossy display writes store x r).1.1,
          (handleRespBuffered fromUtf8Lossy display writes store x r).1.2.sent), res) := by
  fun_induction handleRespBuffered fromUtf8Lossy display writes store x r with
  | case1 x r hr =>
    rw [(frameLoopBuffered_none hr).1] at hc
    cases hc
  | case2 x r e r₁ hr =>
    exact ⟨.error e, rfl, rfl, Reader.run_error (frameLoopBuffered_some hr).1⟩
  | case3 x r r₁ hr =>
    exact ⟨.ok (), rfl, rfl, Reader.run_done (frameLoopBuffered_some hr).1⟩
  | case4 x r frame r' hr s reply hreply writer ih =>
    obtain ⟨hread, w, hafter⟩ := frameLoopBuffered_some hr
    obtain ⟨res, hres, hbuf, hrun⟩ := ih (hafter.closed.trans hc)
    refine ⟨res, hres, hbuf, ?_⟩
    rw [Reader.run_item hread (handleRespFrame_written x.2 x.1 hreply (r'.buffer = []))]
    exact hrun

/-- While the loop waits, nothing is held back. -/
theorem handleRespBuffered_waits {v : Bytes} (hv : Requests v) (hf : Filled Requests v r)
    (hflush : x.2.buffer = [] ∨ r.buffer ≠ [] ∧ Lined Requests v r)
    (hwait : handleRespBuffered fromUtf8Lossy display writes store x r = (y, none)) :
    y.2.buffer = [] ∧ ∃ frames part, r.rest = frames.flatten ++ part ∧ (∀ f ∈ frames, IsRequest f) ∧
      (∀ f rest, readFrameResp part ≠ .ok (some (f, rest))) ∧
      Reader.Rounds (handleRespFrame fromUtf8Lossy display store) (x.1, x.2.written) frames
        (y.1, y.2.sent) := by
  fun_induction handleRespBuffered fromUtf8Lossy display writes store x r generalizing v with
  | case1 x r hr =>
    cases hwait
    have hno := (frameLoopBuffered_none hr).2
    have hbuf : y.2.buffer = [] := by
      rcases hflush with hb | ⟨hb, hlined⟩
      · exact hb
      -- the buffer goes on to the end of another request, which has arrived
      obtain ⟨z, ⟨rest, hz⟩, hend⟩ := hlined.here hb hv
      rw [List.append_assoc] at hend
      have hne : r.buffer ++ z ≠ [] := fun hnil => hb (List.append_eq_nil_iff.mp hnil).1
      obtain ⟨f, hread⟩ := (hv.cancel hend).read (t := rest) hne
      rw [List.append_assoc, hz] at hread
      exact absurd hread (hno f)
    refine ⟨hbuf, [], r.rest, rfl, fun f hf => absurd hf List.not_mem_nil, fun f rest => hno _, ?_⟩
    rw [BufWriter.written, hbuf, List.append_nil]
    exact .nil _
  | case2 => cases hwait
  | case3 => cases hwait
  | case4 x r frame r' hr s reply hreply writer =>
    rename_i ih
    simp only [dite_eq_ite] at ih
    obtain ⟨hread, w, hafter⟩ := frameLoopBuffered_some hr
    obtain ⟨hrest, hframe⟩ := isRequest_of_read hread
    have hw : w = frame := List.append_cancel_right (hafter.rest.symm.trans hrest)
    subst hw
    have hlined := hafter.lined hf (Or.inl hframe.ne_nil)
    have hnext : (if r'.buffer = [] then writer.flush else writer).buffer = [] ∨
        r'.buffer ≠ [] ∧ Lined Requests (v ++ w) r' := by
      by_cases hempty : r'.buffer = []
      · rw [if_pos hempty]
        exact Or.inl rfl
      · exact Or.inr ⟨hempty, hlined⟩
    obtain ⟨hbuf, frames, part, hsplit, hall, hpart, hrounds⟩ :=
      ih (hv.snoc hframe) hlined.toFilled hnext hwait
    refine ⟨hbuf, w :: frames, part, ?_, List.forall_mem_cons.mpr ⟨hframe, hall⟩, hpart, ?_⟩
    · rw [hrest, hsplit, List.flatten_cons, List.append_assoc]
    · exact .cons (handleRespFrame_written x.2 x.1 hreply (r'.buffer = [])) hrounds

/-- No reply is withheld while `handle_resp` waits, if every chunk in which a request ends also ends
with a request. The requests that have arrived completely are answered, in order, and the client has
got all the replies. -/
theorem no_reply_withheld (fromUtf8Lossy : Bytes → String) (display : KvsError → String)
    (writes : Writes) (store : KvStore σ) (s : σ) {chunks : List Bytes} {closed : Bool}
    (hchunks : EndWith Requests [] chunks) (hfill : (newReader chunks closed).fillBuf = some r)
    (hwait : handleRespBuffered fromUtf8Lossy display writes store (s, newWriter) r = (y, none)) :
    y.2.buffer = [] ∧ ∃ frames part, chunks.flatten = frames.flatten ++ part ∧
      (∀ f ∈ frames, IsRequest f) ∧ (∀ f rest, readFrameResp part ≠ .ok (some (f, rest))) ∧
      Reader.Rounds (handleRespFrame fromUtf8Lossy display store) (s, []) frames (y.1, y.2.sent) := by
  have hnil : Requests [] := ⟨[], rfl, fun f hf => absurd hf List.not_mem_nil⟩
  have hlined : Lined Requests [] (newReader chunks closed) := .of_empty rfl hchunks
  have hrest : r.rest = chunks.flatten := BufReader.fillBuf_rest hfill
  rw [← hrest]
  exact handleRespBuffered_waits hnil (hlined.toFilled.fillBuf hfill) (Or.inl rfl) hwait

/-- A reply in one call of `write_all`. -/
def oneWrite : Writes := ⟨fun reply => [reply], fun _ => List.flatten_singleton⟩

/-- `GET a` on the wire. -/
def getA : Bytes := writeBulks [asBytes "GET", asBytes "a"]

theorem isRequest_getA : IsRequest getA := by
  unfold IsRequest
  decide +kernel

/-- A request in two chunks, and another one behind it: both replies are sent. -/
theorem no_reply_withheld_two : ∃ x, (∃ r, (newReader [getA.take 7, getA.drop 7 ++ getA] false).fillBuf =
      some r ∧ handleRespBuffered (fun _ => "?") (fun _ => "?") oneWrite assocStore ([], newWriter) r =
        (x, none)) ∧ x.2.buffer = [] ∧ x.2.sent = asBytes "$-1\r\n$-1\r\n" := by
  have hrun : ((newReader [getA.take 7, getA.drop 7 ++ getA] false).fillBuf.any fun r =>
      let y := handleRespBuffered (fun _ => "?") (fun _ => "?") oneWrite assocStore ([], newWriter) r
      decide (y.2.isNone ∧ y.1.2.sent = asBytes "$-1\r\n$-1\r\n")) := by decide +kernel
  obtain ⟨r, hfill, hy⟩ := (Option.any_eq_true ..).mp hrun
  obtain ⟨hnone, hsent⟩ := of_decide_eq_true hy
  have hchunks : EndWith Requests [] [getA.take 7, getA.drop 7 ++ getA] := by
    refine ⟨?_, ?_, trivial⟩
    · intro c₁ c₂ hc hne hreq
      have hwhole : IsRequest (c₁ ++ (c₂ ++ getA.drop 7)) := by
        rw [← List.append_assoc, ← hc, List.take_append_drop]
        exact isRequest_getA
      have hnil := hreq.not_front hne hwhole
      exact absurd (List.append_eq_nil_iff.mp hnil).2 (by decide +kernel)
    · intro c₁ c₂ _ _ _
      refine ⟨[getA, getA], by decide +kernel, ?_⟩
      simp only [List.forall_mem_cons, List.not_mem_nil, IsEmpty.forall_iff, implies_true, and_true,
        isRequest_getA]
  have hwait : handleRespBuffered (fun _ => "?") (fun _ => "?") oneWrite assocStore ([], newWriter) r =
      (_, none) := Prod.ext rfl (Option.isNone_iff_eq_none.mp hnone)
  exact ⟨_, ⟨r, hfill, hwait⟩, (no_reply_withheld _ _ oneWrite assocStore [] hchunks hfill hwait).1, hsent⟩

/-- A request and the first byte of the next one in a chunk: the loop waits for the rest of the second
request, and the reply to the first one is in the buffer. -/
theorem reply_withheld : ∃ r x, (newReader [getA ++ [arrayByte]] false).fillBuf = some r ∧
    handleRespBuffered (fun _ => "?") (fun _ => "?") oneWrite assocStore ([], newWriter) r = (x, none) ∧
    x.2.buffer = asBytes "$-1\r\n" ∧ x.2.sent = [] := by
  have hrun : ((newReader [getA ++ [arrayByte]] false).fillBuf.any fun r =>
      let y := handleRespBuffered (fun _ => "?") (fun _ => "?") oneWrite assocStore ([], newWriter) r
      decide (y.2.isNone ∧ y.1.2.buffer = asBytes "$-1\r\n" ∧ y.1.2.sent = [])) := by decide +kernel
  obtain ⟨r, hfill, hy⟩ := (Option.any_eq_true ..).mp hrun
  obtain ⟨hnone, hbuf, hsent⟩ := of_decide_eq_true hy
  exact ⟨r, _, hfill, Prod.ext rfl (Option.isNone_iff_eq_none.mp hnone), hbuf, hsent⟩

end Runs

end Bitcask
