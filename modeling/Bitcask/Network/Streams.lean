import Bitcask.Network.Client
import Bitcask.Network.Flush

/-!
# Any bytes

A connection of `kvs-server` on any stream of bytes, in the protocol that its first byte selects. The
stream is complete frames and a rest that does not start with one (`Wire.split`). The server executes
the requests the frames decode to, in order, and answers every frame once; the rest is not executed
(`any_stream_served`). Where the bytes that have arrived end makes no difference to what was done with
the frames before.
-/

namespace Bitcask

open LittleEndian StreamCodec

/-! ## Frames are words -/

theorem framed_frameReader : frameReader.Framed := fun h =>
  ⟨_, frame_of_readFrame h, readFrame_frame (readFrame_payload h)⟩

theorem framed_respReader : respReader.Framed := fun h => by
  obtain ⟨hs, hw⟩ := isRequest_of_read h
  exact ⟨_, hs, reads_of_frame hw⟩

theorem frame_of_reads {w : Bytes} {m : UInt8 × Bytes} (h : frameReader.Reads w m) :
    m.2.length ≤ maxPayload ∧ w = frame m.1 m.2 := by
  have hread := h []
  have heq := frame_of_readFrame hread
  rw [List.append_nil, List.append_nil] at heq
  exact ⟨readFrame_payload hread, heq⟩

theorem isRequest_of_reads {w f : Bytes} (h : respReader.Reads w f) : IsRequest w := by
  obtain ⟨heq, hrequest⟩ := isRequest_of_read (h [])
  rw [List.append_nil, List.append_nil] at heq
  rwa [heq]

/-- `read_frame` finds the end of the stream only where it ends. -/
theorem readFrame_eq_none {s : Bytes} : readFrame s = .ok none ↔ s = [] := by
  constructor
  · intro h
    cases s with
    | nil => rfl
    | cons t s =>
      rw [readFrame] at h
      obtain ⟨⟨len, s₁⟩, -, h⟩ := bind_eq_ok.mp h
      dsimp only at h
      split at h
      · cases h
      · obtain ⟨⟨p, s₂⟩, -, h⟩ := bind_eq_ok.mp h
        cases h
  · rintro rfl
    rfl

theorem frameRound_eq_none {frame stream : Bytes} {pending : ℕ}
    (h : frameRound frame pending stream = .ok none) : frame = [] ∧ stream = [] := by
  rw [frameRound] at h
  dsimp only at h
  split at h
  · rename_i hline
    split at h
    · rename_i hframe
      refine ⟨hframe, ?_⟩
      cases stream with
      | nil => rfl
      | cons b stream =>
        rw [readUntil] at hline
        split at hline <;> cases hline
    · cases h
  · split at h
    · cases h
    · obtain ⟨r, -, he⟩ := BytesUtil.map_eq_ok.mp h
      cases he

theorem FrameStep.ne_nil {kind : UInt8} {body frame frame' stream stream' : Bytes} {pending pending' : ℕ}
    (h : FrameStep kind body frame pending stream frame' pending' stream') (hne : frame ≠ []) :
    frame' ≠ [] := by
  cases h with
  | bulk data => exact List.append_ne_nil_of_left_ne_nil hne _
  | _ => exact hne

/-- The loop finds the end of the stream only before the first byte of a frame. -/
theorem frameLoop_eq_none {frame stream : Bytes} {pending : ℕ}
    (h : frameLoop frame pending stream = .ok none) : frame = [] ∧ stream = [] := by
  induction hn : stream.length using Nat.strong_induction_on generalizing frame pending stream with
  | _ n ih =>
  subst hn
  cases pending with
  | zero => rw [frameLoop_zero] at h; cases h
  | succ pending =>
    rw [frameLoop] at h
    split at h
    · cases h
    · rename_i hr
      exact frameRound_eq_none hr
    · rename_i frame' pending' stream' hr
      exfalso
      obtain ⟨hnil, -⟩ := ih _ (frameRound_progress hr) h rfl
      obtain ⟨kind, body, rest, -, -, -, hstep⟩ := frameRound_eq_ok hr
      exact hstep.ne_nil (by simp [line]) hnil

theorem readFrameResp_eq_none {s : Bytes} : readFrameResp s = .ok none ↔ s = [] := by
  constructor
  · exact fun h => (frameLoop_eq_none h).2
  · rintro rfl
    exact readFrameResp_nil

/-! ## Values that can be sent -/

section Frames

variable {σ : Type} {store : KvStore σ} {I : σ → Prop} {s s' : σ}

/-- Requests that fit a frame keep the values of the store short enough to be sent. -/
theorem ValuesFit.sends (h : ValuesFit store I) (hs : I s) {reqs : List Request}
    {resps : List Response} (hreqs : ∀ req ∈ reqs, req.payload.length ≤ maxPayload)
    (hexec : executeAll store reqs s = (resps, s')) :
    (∀ r ∈ resps, Wire.binary.Sends r) ∧ I s' := by
  induction reqs generalizing s resps with
  | nil =>
    cases hexec
    exact ⟨by simp, hs⟩
  | cons req reqs ih =>
    obtain ⟨r, s₁, resps', hx, hexec', rfl⟩ := executeAll_cons hexec
    have hs₁ := h.step req s hs (hreqs req List.mem_cons_self)
    rw [hx] at hs₁
    obtain ⟨hrest, hs'⟩ := ih hs₁ (fun q hq => hreqs q (List.mem_cons_of_mem _ hq)) hexec'
    refine ⟨fun r' hr => ?_, hs'⟩
    rcases List.mem_cons.mp hr with rfl | hr
    · intro v hv
      exact h.value hs v (by rw [hx]; exact hv)
    · exact hrest r' hr

end Frames

/-! ## Streams -/

section Streams

variable {σ : Type} {fromUtf8Lossy : Bytes → String} {display : KvsError → String}
  {store : KvStore σ} {I : σ → Prop} {s s' : σ} {wire : Wire} {ws : List Bytes}
  {items : List (Except KvsError RespRequest)} {resps : List Response}

theorem handle_cons (s : σ) (first : UInt8) (tail : Bytes) :
    handle fromUtf8Lossy display store s (first :: tail) =
      (Wire.of first).run fromUtf8Lossy display store (s, []) (first :: tail) := by
  rw [handle, Wire.of]
  split <;> rfl

/-- A stream is complete frames and a rest that does not start with one, at which the loop stops. -/
theorem Wire.split (fromUtf8Lossy : Bytes → String) (display : KvsError → String)
    (store : KvStore σ) (wire : Wire) (stream : Bytes) :
    ∃ ws items rest, stream = ws.flatten ++ rest ∧
      List.Forall₂ (wire.Word fromUtf8Lossy) ws items ∧
      (∀ w item more, wire.Word fromUtf8Lossy w item → rest ≠ w ++ more) ∧
      ∀ x, ∃ res, wire.run fromUtf8Lossy display store x rest = (x, res) ∧
        (res = .ok () ↔ rest = []) := by
  cases wire with
  | binary =>
    obtain ⟨ws, ms, rest, hs, hws, hstuck⟩ := framed_frameReader.split stream
    refine ⟨ws, ms.map fun m => (decodeRequest m.1 m.2).map .kv, rest, hs, ?_, ?_,
      fun x => hstuck.run_eq readFrame_eq_none _ x⟩
    · rw [List.forall₂_map_right_iff]
      refine hws.imp fun w m hw => ?_
      obtain ⟨hp, heq⟩ := frame_of_reads hw
      exact ⟨m.1, m.2, hp, heq, rfl⟩
    · rintro w item more ⟨t, p, hp, rfl, -⟩
      exact hstuck.no_word (readFrame_frame hp)
  | resp =>
    obtain ⟨ws, fs, rest, hs, hws, hstuck⟩ := framed_respReader.split stream
    refine ⟨ws, ws.map (decodeRequestResp fromUtf8Lossy), rest, hs, ?_, ?_,
      fun x => hstuck.run_eq readFrameResp_eq_none _ x⟩
    · obtain ⟨hrequests, -⟩ :=
        (List.forall₂_and_left _ _).mp (hws.imp fun w f hw => ⟨isRequest_of_reads hw, hw⟩)
      rw [List.forall₂_map_right_iff, List.forall₂_same]
      exact fun w hw => ⟨hrequests w hw, rfl⟩
    · rintro w item more ⟨hw, -⟩
      exact hstuck.no_word (reads_of_frame hw)

/-- A request of a binary frame fits the frame. -/
theorem Wire.Word.payload_le (h : List.Forall₂ (Wire.binary.Word fromUtf8Lossy) ws items) :
    ∀ req ∈ requests items, req.payload.length ≤ maxPayload := by
  intro req hreq
  obtain ⟨item, hitem, he⟩ := List.mem_filterMap.mp hreq
  obtain ⟨i, hi, rfl⟩ := List.getElem_of_mem hitem
  obtain ⟨t, p, hp, -, hd⟩ := h.get (h.length_eq ▸ hi) hi
  rw [show items[i] = _ from hd] at he
  cases hdecode : decodeRequest t p with
  | error e => rw [hdecode] at he; cases he
  | ok req' =>
    rw [hdecode] at he
    obtain rfl : req' = req := Option.some.inj he
    obtain ⟨-, rfl⟩ := (decodeRequest_iff hp).mp hdecode
    exact hp

/-- Every response to the frames of a stream can be sent. -/
theorem Wire.sends (hfit : ValuesFit store I) (hs : wire = .binary → I s)
    (h : List.Forall₂ (wire.Word fromUtf8Lossy) ws items)
    (hexec : executeAll store (requests items) s = (resps, s')) :
    (∀ r ∈ resps, wire.Sends r) ∧ (wire = .binary → I s') := by
  cases wire with
  | binary =>
    obtain ⟨hsend, hs'⟩ := hfit.sends (hs rfl) (Wire.Word.payload_le h) hexec
    exact ⟨hsend, fun _ => hs'⟩
  | resp => exact ⟨fun _ _ => trivial, by simp⟩

/-- What the server does with the stream, from the state `s` of the store: the store goes through the
requests that the frames decode to, every frame gets one reply, and the connection ends in order if
nothing is left. -/
structure Served (fromUtf8Lossy : Bytes → String) (display : KvsError → String) (store : KvStore σ)
    (s : σ) (wire : Wire) (stream : Bytes) (ws : List Bytes)
    (items : List (Except KvsError RespRequest)) (rest : Bytes) (resps : List Response) (s' : σ) :
    Prop where
  stream_eq : stream = ws.flatten ++ rest
  words : List.Forall₂ (wire.Word fromUtf8Lossy) ws items
  no_word : ∀ w item more, wire.Word fromUtf8Lossy w item → rest ≠ w ++ more
  executed : executeAll store (Wire.requests items) s = (resps, s')
  one_reply : (wire.replies display items resps).length = ws.length
  ends : ∃ res, handle fromUtf8Lossy display store s stream =
    ((s', (wire.replies display items resps).flatten), res) ∧ (res = .ok () ↔ rest = [])
  /-- What was executed and written stays when more bytes arrive. -/
  goes_on : ∀ more, ∃ items' resps' s'' res',
    executeAll store (Wire.requests items') s' = (resps', s'') ∧
    handle fromUtf8Lossy display store s (stream ++ more) =
      ((s'', (wire.replies display items resps).flatten ++
        (wire.replies display items' resps').flatten), res')

/-- The server on any bytes. What a client sends is complete frames and a rest that does not start
with one, and the server does to the store what the frames say and nothing else. -/
theorem any_stream_served (fromUtf8Lossy : Bytes → String) (display : KvsError → String)
    (hfit : ValuesFit store I) (hs : I s) (first : UInt8) (tail : Bytes) :
    ∃ ws items rest resps s', Served fromUtf8Lossy display store s (Wire.of first) (first :: tail)
      ws items rest resps s' := by
  generalize hw : Wire.of first = wire
  have hhandle : ∀ more, handle fromUtf8Lossy display store s (first :: tail ++ more) =
      wire.run fromUtf8Lossy display store (s, []) (first :: tail ++ more) := by
    intro more
    rw [← hw]
    exact handle_cons s first (tail ++ more)
  obtain ⟨ws, items, rest, hstream, hwords, hnone, hstop⟩ :=
    Wire.split fromUtf8Lossy display store wire (first :: tail)
  obtain ⟨resps, s', hexec⟩ : ∃ resps s', executeAll store (Wire.requests items) s = (resps, s') :=
    ⟨_, _, rfl⟩
  obtain ⟨hsend, hs'⟩ := Wire.sends hfit (fun _ => hs) hwords hexec
  have hlen : resps.length = (Wire.requests items).length := by
    rw [← length_executeAll store _ s, hexec]
  obtain ⟨res, hres, hend⟩ := hstop (s', (wire.replies display items resps).flatten)
  refine ⟨ws, items, rest, resps, s', hstream, hwords, hnone, hexec, ?_, ⟨res, ?_, hend⟩, fun more => ?_⟩
  · rw [Wire.length_replies hlen, hwords.length_eq]
  · have hrun := hhandle []
    rw [List.append_nil] at hrun
    rw [hrun, hstream, Wire.run_words hwords [] rest hexec hsend, List.nil_append, hres]
  · obtain ⟨ws', items', rest', hstream', hwords', -, hstop'⟩ :=
      Wire.split fromUtf8Lossy display store wire (rest ++ more)
    obtain ⟨resps', s'', hexec'⟩ :
        ∃ resps s'', executeAll store (Wire.requests items') s' = (resps, s'') := ⟨_, _, rfl⟩
    obtain ⟨hsend', -⟩ := Wire.sends hfit hs' hwords' hexec'
    obtain ⟨res', hres', -⟩ := hstop' (s'', (wire.replies display items resps).flatten ++
      (wire.replies display items' resps').flatten)
    refine ⟨items', resps', s'', res', hexec', ?_⟩
    rw [hhandle more, hstream, List.append_assoc, Wire.run_words hwords [] _ hexec hsend, hstream',
      Wire.run_words hwords' _ rest' hexec' hsend', List.nil_append, hres']

end Streams

/-- A set, a `CONFIG GET`, an unknown command, and a get that is cut off. -/
def cutStream : Bytes :=
  writeBulks [asBytes "SET", asBytes "a", asBytes "1"] ++
    writeBulks [asBytes "CONFIG", asBytes "GET", asBytes "x"] ++ writeBulks [asBytes "PING"] ++
    asBytes "*2\r\n$3\r\nGET\r\n$1"

theorem any_stream_served_cut : ∃ ws items rest resps,
    Served (fun _ => "?") (fun _ => "?") assocStore [] .resp cutStream ws items rest resps
      [("a", "1")] ∧ rest ≠ [] ∧ (Wire.resp.replies (fun _ => "?") items resps).flatten =
        asBytes "+OK\r\n*2\r\n$1\r\nx\r\n$0\r\n\r\n-ERR unknown command '?'\r\n" := by
  have hrun : handle (fun _ => "?") (fun _ => "?") assocStore [] cutStream =
      (([("a", "1")], asBytes "+OK\r\n*2\r\n$1\r\nx\r\n$0\r\n\r\n-ERR unknown command '?'\r\n"),
        .error (protocolError "expected CRLF-terminated line")) := by decide +kernel
  obtain ⟨ws, items, rest, resps, s', hserved⟩ : ∃ ws items rest resps s',
      Served (fun _ => "?") (fun _ => "?") assocStore [] .resp cutStream ws items rest resps s' :=
    any_stream_served (fun _ => "?") (fun _ => "?") assocStore_fits (by simp) 42 cutStream.tail
  obtain ⟨res, hhandle, hend⟩ := hserved.ends
  rw [hrun] at hhandle
  obtain ⟨hstate, hres⟩ := Prod.mk.inj hhandle
  obtain ⟨rfl, hout⟩ := Prod.mk.inj hstate
  refine ⟨ws, items, rest, resps, hserved, fun hnil => ?_, hout.symm⟩
  have hok := hend.mpr hnil
  rw [← hres] at hok
  cases hok

end Bitcask
