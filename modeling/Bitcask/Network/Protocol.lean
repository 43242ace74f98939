import Bitcask.Lib.StreamCodec
import Bitcask.Storage.BytesUtil

/-!
# The binary protocol

Frames `[u8 msg_type][u32 payload_len][payload]`, and the requests and responses they carry. A
connection is the bytes that arrive until the peer closes it, and a writer returns the bytes it
sends.

1. `readFrame_frame`, `torn_frame`: a frame is read back whatever follows it, and a part of one is an
   unexpected end of the stream.
2. `decodeRequest_iff`, `decodeResponse_payload`: what decodes, and to what. A request has one
   accepted encoding.
3. `binary_codec_exact`: both codecs on streams of any number of frames, whole and cut.
4. `binary_frames_read_back`: the limits of the writer and the reader. They differ, so that a frame
   between them is written and refused (`oversized_frame_refused`).
-/

namespace Bitcask

open LittleEndian StreamCodec

/-! ## Messages -/

def maxPayload : ℕ := 16 * 2 ^ 20

inductive Request
  | get (key : String)
  | set (key value : String)
  | rm (key : String)
  deriving DecidableEq, Repr

inductive ErrorCode
  | keyNotFound
  | internal
  | invalidRequest
  deriving DecidableEq, Repr

/-- `ErrorCode as u8`. -/
def ErrorCode.code : ErrorCode → UInt8
  | .keyNotFound => 1
  | .internal => 2
  | .invalidRequest => 3

/-- `ErrorCode::try_from`. -/
def ErrorCode.tryFrom (b : UInt8) : Except KvsError ErrorCode :=
  if b = 1 then .ok .keyNotFound
  else if b = 2 then .ok .internal
  else if b = 3 then .ok .invalidRequest
  else .error .unexpectedCommandType

inductive Response
  | ok
  | value (v : String)
  | error (code : ErrorCode)
  deriving DecidableEq, Repr

/-! ## Frames -/

/-- `Read::read_exact` for `n` bytes: they and the rest of the stream. -/
def readExact (n : ℕ) (stream : Bytes) : Except KvsError (Bytes × Bytes) :=
  if n ≤ stream.length then .ok (stream.take n, stream.drop n)
  else .error (.io ⟨.unexpectedEof, "failed to fill whole buffer"⟩)

/-- The stream ends before the first byte of a frame: a clean close. -/
def readFrame : Bytes → Except KvsError (Option ((UInt8 × Bytes) × Bytes))
  | [] => .ok none
  | msgType :: stream => do
    let (len, stream) ← readExact 4 stream
    let len := ofLe len
    if len > maxPayload then .error (.invalidData "payload too large")
    else
      let (payload, stream) ← readExact len stream
      .ok (some ((msgType, payload), stream))

/-- `write_frame` on a writer that has got the bytes `sent`. The length is checked before the first
`write_all`. -/
def sendFrame (msgType : UInt8) (payload sent : Bytes) : Except KvsError Unit × Bytes :=
  if payload.length < 2 ^ 32 then
    let sent := sent ++ [msgType]
    let sent := sent ++ toLe 4 payload.length
    let sent := sent ++ payload
    (.ok (), sent)
  else (.error (.invalidData "payload too large"), sent)

/-- What a writer was given, if the call returned `Ok`. -/
def written : Except KvsError Unit × Bytes → Except KvsError Bytes
  | (.ok (), sent) => .ok sent
  | (.error e, _) => .error e

/-- The frame that `write_frame` writes to a fresh buffer. -/
def writeFrame (msgType : UInt8) (payload : Bytes) : Except KvsError Bytes :=
  written (sendFrame msgType payload [])

theorem writeFrame_ite (msgType : UInt8) (payload : Bytes) : writeFrame msgType payload =
    if payload.length < 2 ^ 32 then .ok ([msgType] ++ toLe 4 payload.length ++ payload)
    else .error (.invalidData "payload too large") := by
  unfold writeFrame sendFrame
  split <;> rfl

def utf8 (b : Bytes) : Except KvsError String :=
  match String.fromUTF8? ⟨b.toArray⟩ with
  | some text => .ok text
  | none => .error (.invalidData "invalid utf-8")

/-! ## Requests and responses -/

def reqGet : UInt8 := 0

def reqSet : UInt8 := 1

def reqRm : UInt8 := 2

def respOk : UInt8 := 0

def respValue : UInt8 := 1

def respError : UInt8 := 2

/-- `write_request` on a writer. The key length is cast to `u32`, which `toLe 4` does by keeping four
bytes. -/
def sendRequest (sent : Bytes) : Request → Except KvsError Unit × Bytes
  | .get key => sendFrame reqGet (asBytes key) sent
  | .rm key => sendFrame reqRm (asBytes key) sent
  | .set key value =>
    sendFrame reqSet (toLe 4 (asBytes key).length ++ asBytes key ++ asBytes value) sent

def writeRequest (req : Request) : Except KvsError Bytes := written (sendRequest [] req)

def decodeRequest (msgType : UInt8) (payload : Bytes) : Except KvsError Request :=
  if msgType = reqGet then do
    let key ← utf8 payload
    .ok (.get key)
  else if msgType = reqRm then do
    let key ← utf8 payload
    .ok (.rm key)
  else if msgType = reqSet then
    if payload.length < 4 then .error (.invalidData "short set payload")
    else
      let keyLen := ofLe (payload.take 4)
      let rest := payload.drop 4
      if rest.length < keyLen then .error (.invalidData "short set payload")
      else do
        let key ← utf8 (rest.take keyLen)
        let value ← utf8 (rest.drop keyLen)
        .ok (.set key value)
  else .error .unexpectedCommandType

/-- `write_response` on a writer. -/
def sendResponse (sent : Bytes) : Response → Except KvsError Unit × Bytes
  | .ok => sendFrame respOk [] sent
  | .value v => sendFrame respValue (asBytes v) sent
  | .error code => sendFrame respError [code.code] sent

def writeResponse (resp : Response) : Except KvsError Bytes := written (sendResponse [] resp)

def decodeResponse (msgType : UInt8) (payload : Bytes) : Except KvsError Response :=
  if msgType = respOk then .ok .ok
  else if msgType = respValue then
    match String.fromUTF8? ⟨payload.toArray⟩ with
    | some v => .ok (.value v)
    | none => .error .utf8
  else if msgType = respError then
    match payload with
    | [] => .error (.invalidData "missing error code")
    | code :: _ => (ErrorCode.tryFrom code).map .error
  else .error .unexpectedCommandType

/-! ## Frames are read back -/

/-- The bytes of a frame. -/
def frame (msgType : UInt8) (payload : Bytes) : Bytes :=
  [msgType] ++ toLe 4 payload.length ++ payload

theorem length_frame (t : UInt8) (p : Bytes) : (frame t p).length = 5 + p.length := by
  simp [frame]
  omega

theorem writeFrame_eq {t : UInt8} {p : Bytes} (h : p.length ≤ maxPayload) :
    writeFrame t p = .ok (frame t p) := by
  unfold maxPayload at h
  rw [writeFrame_ite, if_pos (by omega)]
  rfl

theorem readExact_append (a b : Bytes) : readExact a.length (a ++ b) = .ok (a, b) := by
  rw [readExact, if_pos (by simp), List.take_left, List.drop_left]

theorem readExact_short {n : ℕ} {s : Bytes} (h : s.length < n) :
    readExact n s = .error (.io ⟨.unexpectedEof, "failed to fill whole buffer"⟩) := by
  rw [readExact, if_neg (by omega)]

/-- The header of a frame gives its length. -/
theorem readFrame_header {t : UInt8} {p : Bytes} (h : p.length ≤ maxPayload) (rest : Bytes) :
    readFrame ([t] ++ toLe 4 p.length ++ rest) =
      (readExact p.length rest).map fun r => some ((t, r.1), r.2) := by
  have hlen : ofLe (toLe 4 p.length) = p.length := by
    unfold maxPayload at h
    exact ofLe_toLe_of_lt (by omega)
  have hread := readExact_append (toLe 4 p.length) rest
  rw [length_toLe] at hread
  rw [List.append_assoc, List.singleton_append, readFrame]
  simp only [hread, bind, Except.bind, hlen, gt_iff_lt, Nat.not_lt.mpr h, if_false]
  cases readExact p.length rest <;> rfl

theorem readFrame_frame {t : UInt8} {p : Bytes} (h : p.length ≤ maxPayload) (rest : Bytes) :
    readFrame (frame t p ++ rest) = .ok (some ((t, p), rest)) := by
  rw [frame, List.append_assoc, readFrame_header h, readExact_append]
  rfl

/-- The frame a reader returns is at the front of the stream. -/
theorem frame_of_readFrame {s s' : Bytes} {m : UInt8 × Bytes}
    (h : readFrame s = .ok (some (m, s'))) : s = frame m.1 m.2 ++ s' := by
  cases s with
  | nil => cases h
  | cons t s =>
    rw [readFrame] at h
    obtain ⟨⟨len, s₁⟩, h4, h⟩ := bind_eq_ok.mp h
    unfold readExact at h4
    split at h4
    case isFalse => cases h4
    case isTrue hle =>
      cases h4
      dsimp only at h
      split at h
      · cases h
      · obtain ⟨⟨p, s₂⟩, hp, h⟩ := bind_eq_ok.mp h
        cases h
        unfold readExact at hp
        split at hp
        case isFalse => cases hp
        case isTrue hle' =>
          cases hp
          have hp : ((s.drop 4).take (ofLe (s.take 4))).length = ofLe (s.take 4) := by
            rw [List.length_take, Nat.min_eq_left hle']
          rw [frame, hp, toLe_ofLe_of_length (by rw [List.length_take, Nat.min_eq_left hle]),
            List.append_assoc, List.append_assoc, List.take_append_drop, List.take_append_drop,
            List.singleton_append]

/-- `read_frame` as a reader of streams. -/
def frameReader : Reader KvsError UInt8 (UInt8 × Bytes) where
  read := readFrame
  progress := by
    intro s s' m h
    have := congrArg List.length (frame_of_readFrame h)
    rw [List.length_append, length_frame] at this
    omega

/-- Every proper part of a frame is an unexpected end of the stream. -/
theorem torn_frame {t : UInt8} {p : Bytes} (h : p.length ≤ maxPayload) :
    frameReader.Torn (frame t p) (.io ⟨.unexpectedEof, "failed to fill whole buffer"⟩) := by
  intro n hpos hn
  rw [length_frame] at hn
  show readFrame _ = _
  by_cases h5 : n < 5
  · -- the cut is in the header
    obtain ⟨m, rfl⟩ := Nat.exists_eq_succ_of_ne_zero hpos.ne'
    rw [frame, List.append_assoc, List.singleton_append, List.take_succ_cons, readFrame,
      readExact_short (by rw [List.length_take]; omega)]
    rfl
  · obtain ⟨m, rfl⟩ := Nat.exists_eq_add_of_le (Nat.not_lt.mp h5)
    have hhead : ([t] ++ toLe 4 p.length).length = 5 := by simp
    rw [frame, ← hhead, List.take_length_add_append, readFrame_header h,
      readExact_short (by rw [List.length_take]; omega)]
    rfl

/-! ## Requests -/

theorem utf8_asBytes (text : String) : utf8 (asBytes text) = .ok text := by
  rw [utf8, fromUTF8_asBytes]

theorem utf8_eq_ok {b : Bytes} {text : String} : utf8 b = .ok text ↔ b = asBytes text := by
  constructor
  · intro h
    unfold utf8 at h
    split at h
    · rename_i text' ht
      cases h
      exact (asBytes_of_fromUTF8 ht).symm
    · cases h
  · rintro rfl
    exact utf8_asBytes text

def Request.msgType : Request → UInt8
  | .get _ => reqGet
  | .set _ _ => reqSet
  | .rm _ => reqRm

def Request.payload : Request → Bytes
  | .get key | .rm key => asBytes key
  | .set key value => toLe 4 (asBytes key).length ++ asBytes key ++ asBytes value

theorem writeRequest_eq (r : Request) : writeRequest r = writeFrame r.msgType r.payload := by
  cases r <;> rfl

/-- A request has one accepted encoding. -/
theorem decodeRequest_iff {t : UInt8} {p : Bytes} {r : Request} (h : p.length ≤ maxPayload) :
    decodeRequest t p = .ok r ↔ t = r.msgType ∧ p = r.payload := by
  constructor
  · intro hd
    unfold decodeRequest at hd
    split at hd
    · rename_i ht
      obtain ⟨key, hk, hd⟩ := bind_eq_ok.mp hd
      cases hd
      exact ⟨ht, utf8_eq_ok.mp hk⟩
    split at hd
    · rename_i ht
      obtain ⟨key, hk, hd⟩ := bind_eq_ok.mp hd
      cases hd
      exact ⟨ht, utf8_eq_ok.mp hk⟩
    split at hd
    · rename_i ht
      split at hd
      · cases hd
      · rename_i h4
        dsimp only at hd
        split at hd
        · cases hd
        · rename_i hlen
          obtain ⟨key, hk, hd⟩ := bind_eq_ok.mp hd
          obtain ⟨value, hv, hd⟩ := bind_eq_ok.mp hd
          cases hd
          refine ⟨ht, ?_⟩
          have hkey : ((p.drop 4).take (ofLe (p.take 4))).length = ofLe (p.take 4) := by
            rw [List.length_take]; omega
          rw [Request.payload, ← utf8_eq_ok.mp hk, ← utf8_eq_ok.mp hv, hkey,
            toLe_ofLe_of_length (by rw [List.length_take]; omega), List.append_assoc,
            List.take_append_drop, List.take_append_drop]
    · cases hd
  · rintro ⟨rfl, rfl⟩
    cases r with
    | get key =>
      show decodeRequest reqGet (asBytes key) = _
      rw [decodeRequest, if_pos rfl, utf8_asBytes]
      rfl
    | rm key =>
      show decodeRequest reqRm (asBytes key) = _
      rw [decodeRequest, if_neg (by decide), if_pos rfl, utf8_asBytes]
      rfl
    | set key value =>
      have hk : (asBytes key).length < 256 ^ 4 := by
        simp only [Request.payload, List.length_append, length_toLe, maxPayload] at h
        omega
      have h4 : (toLe 4 (asBytes key).length ++ (asBytes key ++ asBytes value)).take 4 =
          toLe 4 (asBytes key).length := List.take_left' (length_toLe ..)
      have hrest : (toLe 4 (asBytes key).length ++ (asBytes key ++ asBytes value)).drop 4 =
          asBytes key ++ asBytes value := List.drop_left' (length_toLe ..)
      show decodeRequest reqSet (toLe 4 (asBytes key).length ++ asBytes key ++ asBytes value) = _
      rw [decodeRequest, if_neg (by decide), if_neg (by decide), if_pos rfl, List.append_assoc,
        if_neg (by simp)]
      simp only [h4, hrest, ofLe_toLe_of_lt hk]
      rw [if_neg (by simp), List.take_left, List.drop_left, utf8_asBytes, utf8_asBytes]
      rfl

/-! ## Responses -/

def Response.msgType : Response → UInt8
  | .ok => respOk
  | .value _ => respValue
  | .error _ => respError

def Response.payload : Response → Bytes
  | .ok => []
  | .value v => asBytes v
  | .error code => [code.code]

theorem writeResponse_eq (r : Response) : writeResponse r = writeFrame r.msgType r.payload := by
  cases r <;> rfl

theorem decodeResponse_payload (r : Response) : decodeResponse r.msgType r.payload = .ok r := by
  cases r with
  | ok => rfl
  | value v =>
    show decodeResponse respValue (asBytes v) = _
    unfold decodeResponse
    rw [if_neg (by decide), if_pos rfl, fromUTF8_asBytes]
  | error code => cases code <;> rfl

/-! ## Streams -/

/-- Repeated `read_frame` and `decode_request`. -/
def requestReader : Reader KvsError UInt8 Request := frameReader.decode fun m => decodeRequest m.1 m.2

/-- Repeated `read_frame` and `decode_response`. -/
def responseReader : Reader KvsError UInt8 Response :=
  frameReader.decode fun m => decodeResponse m.1 m.2

/-- What a stream codec has to do: the messages that were written are read back, and a stream that is
cut inside a frame yields the messages before it and then an unexpected end. -/
def StreamExact {μ : Type} (write : μ → Except KvsError Bytes) (reader : Reader KvsError UInt8 μ)
    (msgs : List μ) : Prop :=
  ∃ frames, msgs.mapM write = .ok frames ∧ reader.readAll frames.flatten = (msgs, .ok ()) ∧
    ∀ i (hi : i < frames.length) n, 0 < n → n < frames[i].length →
      reader.readAll (frames.flatten.take ((frames.take i).flatten.length + n)) =
        (msgs.take i, .error (.io ⟨.unexpectedEof, "failed to fill whole buffer"⟩))

/-- A codec that is exact on each message is exact on streams. -/
theorem StreamExact.of_frames {μ : Type} {write : μ → Except KvsError Bytes} {msgType : μ → UInt8}
    {payload : μ → Bytes} {decode : UInt8 × Bytes → Except KvsError μ} {msgs : List μ}
    (hwrite : ∀ m, write m = writeFrame (msgType m) (payload m))
    (hdecode : ∀ m ∈ msgs, decode (msgType m, payload m) = .ok m)
    (hfit : ∀ m ∈ msgs, (payload m).length ≤ maxPayload) :
    StreamExact write (frameReader.decode decode) msgs := by
  have hmap : msgs.mapM write = .ok (msgs.map fun m => frame (msgType m) (payload m)) := by
    induction msgs with
    | nil => rfl
    | cons m ms ih =>
      rw [List.mapM_cons, hwrite, writeFrame_eq (hfit m List.mem_cons_self),
        ih (fun m' hm => hdecode m' (List.mem_cons_of_mem _ hm))
          (fun m' hm => hfit m' (List.mem_cons_of_mem _ hm))]
      rfl
  have hreads : List.Forall₂ (frameReader.decode decode).Reads
      (msgs.map fun m => frame (msgType m) (payload m)) msgs := by
    rw [List.forall₂_map_left_iff, List.forall₂_same]
    intro m hm
    exact Reader.Reads.decode (readFrame_frame (hfit m hm)) (hdecode m hm)
  refine ⟨_, hmap, Reader.readAll_words hreads (Reader.decode_nil rfl), fun i hi n hpos hn => ?_⟩
  refine Reader.readAll_cut hreads hi ?_ hpos hn
  rw [List.getElem_map]
  exact Reader.Torn.decode (torn_frame (hfit _ (List.getElem_mem _)))

/-- The codec of the binary protocol is exact: on streams of requests and of responses, and in that
whatever decodes to a request is what `write_request` writes for it. -/
theorem binary_codec_exact (reqs : List Request) (resps : List Response)
    (hreqs : ∀ r ∈ reqs, r.payload.length ≤ maxPayload)
    (hresps : ∀ r ∈ resps, r.payload.length ≤ maxPayload) :
    StreamExact writeRequest requestReader reqs ∧ StreamExact writeResponse responseReader resps ∧
      ∀ msgType payload r, payload.length ≤ maxPayload → decodeRequest msgType payload = .ok r →
        ∃ bytes, writeFrame msgType payload = .ok bytes ∧ writeRequest r = .ok bytes := by
  refine ⟨.of_frames writeRequest_eq (fun r hr => (decodeRequest_iff (hreqs r hr)).mpr ⟨rfl, rfl⟩) hreqs,
    .of_frames writeResponse_eq (fun r _ => decodeResponse_payload r) hresps, ?_⟩
  intro t p r hp hd
  obtain ⟨rfl, rfl⟩ := (decodeRequest_iff hp).mp hd
  exact ⟨_, writeFrame_eq hp, (writeRequest_eq r).trans (writeFrame_eq hp)⟩

/-- A value that holds the key and looks like a frame, and an empty key. -/
theorem binary_codec_exact_lookalikes :
    StreamExact writeRequest requestReader
        [.set "k" "k\x01\x00\x00\x00k", .get "", .rm "k", .set "" ""] ∧
      StreamExact writeResponse responseReader [.value "\x00", .ok, .error .internal] :=
  have h := binary_codec_exact [.set "k" "k\x01\x00\x00\x00k", .get "", .rm "k", .set "" ""]
    [.value "\x00", .ok, .error .internal] (by decide) (by decide)
  ⟨h.1, h.2.1⟩

/-! ## Frames of any size -/

theorem sendRequest_eq (sent : Bytes) (r : Request) :
    sendRequest sent r = sendFrame r.msgType r.payload sent := by
  cases r <;> rfl

theorem sendResponse_eq (sent : Bytes) (r : Response) :
    sendResponse sent r = sendFrame r.msgType r.payload sent := by
  cases r <;> rfl

/-- A payload the reader takes, or one the writer refuses. -/
def SizeAgreed (payload : Bytes) : Prop := payload.length ≤ maxPayload ∨ 2 ^ 32 ≤ payload.length

/-- What a codec does with one message: an `Ok` of the writer means that `read_frame` and `decode`
give the message back from the bytes written, and an error means that no byte was written. -/
def ReadBack {μ : Type} (send : Bytes → μ → Except KvsError Unit × Bytes)
    (decode : UInt8 → Bytes → Except KvsError μ) (m : μ) : Prop :=
  ∀ sent, (∃ bytes f, send sent m = (.ok (), sent ++ bytes) ∧ readFrame bytes = .ok (some (f, [])) ∧
      decode f.1 f.2 = .ok m) ∨
    send sent m = (.error (.invalidData "payload too large"), sent)

theorem sendFrame_small {t : UInt8} {p : Bytes} (h : p.length < 2 ^ 32) (sent : Bytes) :
    sendFrame t p sent = (.ok (), sent ++ frame t p) := by
  unfold sendFrame frame
  rw [if_pos h]
  simp

theorem sendFrame_large {t : UInt8} {p : Bytes} (h : 2 ^ 32 ≤ p.length) (sent : Bytes) :
    sendFrame t p sent = (.error (.invalidData "payload too large"), sent) :=
  if_neg (by omega)

/-- A length that is too large is refused before the payload is read. -/
theorem readFrame_refused {t : UInt8} {len : ℕ} (h : maxPayload < len) (h32 : len < 2 ^ 32)
    (rest : Bytes) :
    readFrame (t :: (toLe 4 len ++ rest)) = .error (.invalidData "payload too large") := by
  have hread := readExact_append (toLe 4 len) rest
  rw [length_toLe] at hread
  rw [readFrame]
  simp only [hread, bind, Except.bind]
  rw [if_pos (by rwa [ofLe_toLe_of_lt h32])]

/-- Between the two limits the writer sends what the reader refuses. -/
theorem readFrame_oversized {t : UInt8} {p : Bytes} (h : maxPayload < p.length)
    (h32 : p.length < 2 ^ 32) (rest : Bytes) :
    readFrame (frame t p ++ rest) = .error (.invalidData "payload too large") := by
  rw [frame, List.append_assoc, List.append_assoc, List.singleton_append]
  exact readFrame_refused h h32 _

/-- A length that is refused is refused whatever follows it. -/
theorem readFrame_refused_append {s : Bytes} {msg : String}
    (h : readFrame s = .error (.invalidData msg)) (more : Bytes) :
    5 ≤ s.length ∧ readFrame (s ++ more) = .error (.invalidData msg) := by
  cases s with
  | nil => cases h
  | cons t s =>
    rw [readFrame] at h
    rw [List.cons_append, readFrame]
    by_cases h4 : 4 ≤ s.length
    · have hmore : readExact 4 (s ++ more) = .ok (s.take 4, s.drop 4 ++ more) := by
        rw [readExact, if_pos (by rw [List.length_append]; omega), List.take_append_of_le_length h4,
          List.drop_append_of_le_length h4]
      rw [readExact, if_pos h4] at h
      simp only [hmore, bind, Except.bind] at h ⊢
      refine ⟨by rw [List.length_cons]; omega, ?_⟩
      split at h
      · rename_i hlarge
        rwa [if_pos hlarge]
      · unfold readExact at h
        split_ifs at h
        cases h
    · rw [readExact_short (by omega)] at h
      cases h

theorem ReadBack.of_frame {μ : Type} {send : Bytes → μ → Except KvsError Unit × Bytes}
    {decode : UInt8 → Bytes → Except KvsError μ} {m : μ} {t : UInt8} {p : Bytes}
    (hsend : ∀ sent, send sent m = sendFrame t p sent) (hsize : SizeAgreed p)
    (hdecode : p.length ≤ maxPayload → decode t p = .ok m) : ReadBack send decode m := by
  intro sent
  rw [hsend]
  rcases hsize with hsmall | hlarge
  · left
    have hread := readFrame_frame (t := t) hsmall []
    rw [List.append_nil] at hread
    have h32 : p.length < 2 ^ 32 := hsmall.trans_lt (by decide)
    exact ⟨frame t p, (t, p), sendFrame_small h32 sent, hread, hdecode hsmall⟩
  · right
    exact sendFrame_large hlarge sent

/-- A message that is read back has a payload of which both ends say the same: between the two limits
the writer sends a frame, and the reader refuses it. -/
theorem ReadBack.sizeAgreed {μ : Type} {send : Bytes → μ → Except KvsError Unit × Bytes}
    {decode : UInt8 → Bytes → Except KvsError μ} {m : μ} {t : UInt8} {p : Bytes}
    (h : ReadBack send decode m) (hsend : ∀ sent, send sent m = sendFrame t p sent) :
    SizeAgreed p := by
  unfold SizeAgreed
  by_contra hsize
  push Not at hsize
  have hsent : send [] m = (.ok (), [] ++ frame t p) := (hsend []).trans (sendFrame_small hsize.2 [])
  rcases h [] with ⟨bytes, f, hbytes, hread, -⟩ | herror
  · rw [hsent, Prod.mk.injEq, List.nil_append, List.nil_append] at hbytes
    have hrefused := readFrame_oversized (t := t) hsize.1 hsize.2 []
    rw [List.append_nil, hbytes.2, hread] at hrefused
    cases hrefused
  · rw [hsent] at herror
    cases herror

/-- A request or a response of any size is read back, or refused before the first byte, exactly if
both ends of the connection agree on its size. -/
theorem binary_frames_read_back (req : Request) (resp : Response) :
    (ReadBack sendRequest decodeRequest req ↔ SizeAgreed req.payload) ∧
      (ReadBack sendResponse decodeResponse resp ↔ SizeAgreed resp.payload) := by
  have hreq := fun sent => sendRequest_eq sent req
  have hresp := fun sent => sendResponse_eq sent resp
  refine ⟨⟨fun h => h.sizeAgreed hreq, fun h => .of_frame hreq h fun hle => ?_⟩,
    fun h => h.sizeAgreed hresp, fun h => .of_frame hresp h fun _ => decodeResponse_payload resp⟩
  exact (decodeRequest_iff hle).mpr ⟨rfl, rfl⟩

/-- A request and a response of one byte more than the reader takes are written and refused. -/
theorem oversized_frame_refused : ∃ req resp breq bresp,
    sendRequest [] req = (.ok (), breq) ∧
    readFrame breq = .error (.invalidData "payload too large") ∧
    sendResponse [] resp = (.ok (), bresp) ∧
    readFrame bresp = .error (.invalidData "payload too large") := by
  obtain ⟨v, hv⟩ : ∃ v, (asBytes v).length = maxPayload + 1 :=
    ⟨_, length_asBytes_replicate (maxPayload + 1)⟩
  have h32 : maxPayload + 1 < 2 ^ 32 := by decide
  have hsend : ∀ t, sendFrame t (asBytes v) [] = (.ok (), frame t (asBytes v)) :=
    fun t => sendFrame_small (by omega) []
  have hread : ∀ t, readFrame (frame t (asBytes v)) = .error (.invalidData "payload too large") := by
    intro t
    have h := readFrame_oversized (t := t) (p := asBytes v) (by omega) (by omega) []
    rwa [List.append_nil] at h
  exact ⟨.get v, .value v, _, _, hsend _, hread _, hsend _, hread _⟩

end Bitcask
