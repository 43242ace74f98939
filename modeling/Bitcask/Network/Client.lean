import Bitcask.Network.Server

/-!
# The client

`call` of `kvs-client` and the server loop at the other end of its connection, for any `KvStore`. The
client makes one call at a time and reads the whole response, so the server has at most one request to
read and can always write. What happens when a part of a response is left unread is a matter of both
ends and of the bytes between them (`Remote`).

The client learns what the store has answered (`line_calls`), as long as no value has more than
`maxPayload` bytes.
-/

namespace Bitcask

open LittleEndian StreamCodec

/-- A payload that is read has a length the reader accepts. -/
theorem readFrame_payload {s rest : Bytes} {m : UInt8 × Bytes}
    (h : readFrame s = .ok (some (m, rest))) : m.2.length ≤ maxPayload := by
  cases s with
  | nil => cases h
  | cons t s =>
    rw [readFrame] at h
    obtain ⟨⟨len, s₁⟩, -, h⟩ := bind_eq_ok.mp h
    dsimp only at h
    split at h
    · cases h
    · obtain ⟨⟨p, s₂⟩, hp, h⟩ := bind_eq_ok.mp h
      cases h
      unfold readExact at hp
      split at hp
      · cases hp
        rw [List.length_take]
        omega
      · cases hp

/-! ## One call -/

/-- `KvsError::from` an error code. -/
def ErrorCode.toError : ErrorCode → KvsError
  | .keyNotFound => .keyNotFound
  | .invalidRequest => .invalidData "rejected by server"
  | .internal => .serverInternal

/-- What `call` returns for a response. -/
def Response.result : Response → Except KvsError Response
  | .error code => .error code.toError
  | resp => .ok resp

/-- The error of a call whose server has gone. -/
def serverClosed : KvsError := .io ⟨.unexpectedEof, "server closed the connection"⟩

/-- `call` after `write_request`: the response and the bytes it leaves, from the bytes received so
far. It is `none` as long as `read_frame` waits for more; `closed` says that no more will come. -/
def receive (closed : Bool) (stream : Bytes) : Option (Except KvsError Response × Bytes) :=
  match readFrame stream with
  | .ok (some (m, rest)) => some (decodeResponse m.1 m.2, rest)
  | .ok none => if closed then some (.error serverClosed, []) else none
  -- the length was refused, so only the header was read
  | .error (.invalidData msg) => some (.error (.invalidData msg), stream.drop 5)
  | .error e => if closed then some (.error e, []) else none

section Receive

variable {resp : Response} {closed : Bool} {rest : Bytes}

theorem receive_response (h : resp.payload.length ≤ maxPayload) :
    receive closed (responseFrame resp ++ rest) = some (.ok resp, rest) := by
  rw [receive, responseFrame, readFrame_frame h]
  simp only [decodeResponse_payload]

/-- A response that is still on its way. -/
theorem receive_waits (h : resp.payload.length ≤ maxPayload) {n : ℕ}
    (hn : n < (responseFrame resp).length) : receive false ((responseFrame resp).take n) = none := by
  rcases Nat.eq_zero_or_pos n with rfl | hpos
  · rfl
  · have hread : readFrame ((responseFrame resp).take n) = _ := torn_frame h n hpos hn
    rw [receive, hread]
    rfl

/-- What a call has made of the bytes so far, it makes of them when there are more. -/
theorem receive_append {s : Bytes} {r : Except KvsError Response} (h : receive false s = some (r, rest))
    (closed : Bool) (more : Bytes) : receive closed (s ++ more) = some (r, rest ++ more) := by
  rw [receive] at h
  split at h
  · rename_i m rest' hread
    cases h
    have hmore : readFrame (s ++ more) = .ok (some (m, rest ++ more)) := by
      rw [frame_of_readFrame hread, List.append_assoc]
      exact readFrame_frame (readFrame_payload hread) _
    rw [receive, hmore]
  · cases h
  · rename_i msg hread
    cases h
    obtain ⟨h5, hmore⟩ := readFrame_refused_append hread more
    rw [receive, hmore]
    simp only [List.drop_append_of_le_length h5]
  · cases h

end Receive

/-! ## One connection -/

variable {σ : Type} {store : KvStore σ} {I : σ → Prop} {s : σ} {req : Request}

/-- A connection between two calls: the store, and whether the server still reads. -/
structure Line (σ : Type) where
  store : σ
  alive : Bool

/-- The server loop with one request to read, and the bytes it writes. -/
def serveRequest (store : KvStore σ) (s : σ) (bytes : Bytes) : (σ × Bytes) × Bool :=
  match readFrame bytes with
  | .ok (some (m, _)) =>
    match handleFrame store (s, []) m with
    | (x, .ok ()) => (x, true)
    | (x, .error _) => (x, false)
  | _ => ((s, []), false)

/-- `call`, with the error that the socket gives if the server has closed the connection. It is `none`
if the call never returns, or leaves bytes of the response behind. -/
def Line.call (store : KvStore σ) (l : Line σ) (req : Request) (lost : KvsError) :
    Option (Except KvsError Response × Line σ) :=
  match writeRequest req with
  | .error e => some (.error e, l)
  | .ok bytes =>
    if l.alive then
      match serveRequest store l.store bytes with
      | ((s, out), true) =>
        match receive false out with
        | some (r, []) => some (r.bind Response.result, ⟨s, true⟩)
        | _ => none
      | ((s, _), false) => some (.error lost, ⟨s, false⟩)
    else some (.error lost, l)

/-- The calls of a client, one after the other. -/
def Line.calls (store : KvStore σ) : Line σ → List (Request × KvsError) →
    Option (List (Except KvsError Response) × Line σ)
  | l, [] => some ([], l)
  | l, (req, lost) :: reqs =>
    (l.call store req lost).bind fun r =>
      (Line.calls store r.2 reqs).map fun r' => (r.1 :: r'.1, r'.2)

/-- What a client should get, for requests of any size: a request the server refuses ends the
connection, and one that has no frame is not sent at all. -/
def expectedResults (store : KvStore σ) :
    Bool → List (Request × KvsError) → σ → List (Except KvsError Response) × σ × Bool
  | alive, [], s => ([], s, alive)
  | alive, (req, lost) :: reqs, s =>
    if 2 ^ 32 ≤ req.payload.length then
      let (rs, x) := expectedResults store alive reqs s
      (.error (.invalidData "payload too large") :: rs, x)
    else if alive && req.payload.length ≤ maxPayload then
      let (resp, s) := execute store req s
      let (rs, x) := expectedResults store true reqs s
      (resp.result :: rs, x)
    else
      let (rs, x) := expectedResults store false reqs s
      (.error lost :: rs, x)

/-- In the states `I`, which requests of at most `maxPayload` bytes do not leave, the values of the
store can be sent. -/
structure ValuesFit (store : KvStore σ) (I : σ → Prop) : Prop where
  step : ∀ req s, I s → req.payload.length ≤ maxPayload → I (execute store req s).2
  get : ∀ key s v, I s → (store.get key s).1 = .ok (some v) → (asBytes v).length ≤ maxPayload

theorem writeRequest_sent (h : req.payload.length < 2 ^ 32) :
    writeRequest req = .ok (frame req.msgType req.payload) := by
  rw [writeRequest_eq, writeFrame_ite, if_pos h]
  rfl

/-- The server executes a request and writes its response. -/
theorem serveRequest_frame (h : req.payload.length ≤ maxPayload)
    (hresp : ∀ v, (execute store req s).1 = .value v → (asBytes v).length < 2 ^ 32) :
    serveRequest store s (frame req.msgType req.payload) =
      (((execute store req s).2, responseFrame (execute store req s).1), true) := by
  have hread := readFrame_frame (t := req.msgType) h []
  rw [List.append_nil] at hread
  have hdecode := (decodeRequest_iff (t := req.msgType) (r := req) h).mpr ⟨rfl, rfl⟩
  rw [serveRequest, hread]
  simp only [handleFrame, hdecode, writeResponse_ok hresp, List.nil_append]

/-- The server refuses a request that is too large. -/
theorem serveRequest_refused (h : maxPayload < req.payload.length)
    (h32 : req.payload.length < 2 ^ 32) (s : σ) :
    serveRequest store s (frame req.msgType req.payload) = ((s, []), false) := by
  have hread := readFrame_oversized (t := req.msgType) h h32 []
  rw [List.append_nil] at hread
  rw [serveRequest, hread]

/-- The response of a store whose values fit. -/
theorem ValuesFit.payload (h : ValuesFit store I) (hs : I s) (req : Request) :
    (execute store req s).1.payload.length ≤ maxPayload := by
  have hcode : ∀ code : ErrorCode, (Response.error code).payload.length ≤ maxPayload :=
    fun code => by cases code <;> decide
  have hok : Response.ok.payload.length ≤ maxPayload := by decide
  cases req with
  | get key =>
    have hget := h.get key s
    unfold execute
    simp only
    split
    · rename_i v s' he
      exact hget v hs (by rw [he])
    · exact hcode _
    · exact hcode _
  | set key value | rm key =>
    unfold execute
    simp only
    split
    · exact hok
    · exact hcode _

theorem ValuesFit.value (h : ValuesFit store I) (hs : I s) (v : String)
    (hv : (execute store req s).1 = .value v) : (asBytes v).length < 2 ^ 32 := by
  have hfit := h.payload hs req
  rw [hv] at hfit
  exact hfit.trans_lt (by decide)

/-- One call on a connection that the server reads from. -/
theorem Line.call_executed (hfit : ValuesFit store I) (hs : I s)
    (h : req.payload.length ≤ maxPayload) (lost : KvsError) :
    Line.call store ⟨s, true⟩ req lost =
      some ((execute store req s).1.result, ⟨(execute store req s).2, true⟩) := by
  have h32 : req.payload.length < 2 ^ 32 := h.trans_lt (by decide)
  have hrecv : receive false (responseFrame _ ++ []) = _ := receive_response (hfit.payload hs req)
  rw [List.append_nil] at hrecv
  rw [Line.call, writeRequest_sent h32]
  simp only [if_true, serveRequest_frame h (hfit.value hs), hrecv]
  rfl

/-- One call that ends the connection, or comes after it has ended. -/
theorem Line.call_closed {alive : Bool} (h32 : req.payload.length < 2 ^ 32)
    (h : ¬ (alive && req.payload.length ≤ maxPayload)) (lost : KvsError) :
    Line.call store ⟨s, alive⟩ req lost = some (.error lost, ⟨s, false⟩) := by
  rw [Line.call, writeRequest_sent h32]
  cases alive with
  | false => rfl
  | true =>
    have hlarge : maxPayload < req.payload.length := by simpa using h
    simp only [if_true, serveRequest_refused hlarge h32]

/-- The client gets what the store answers, call by call. A request of more than `maxPayload` bytes
is not executed, and neither is any later one on the same connection, and these calls fail with an
error of the socket; a request of `2 ^ 32` bytes or more is not sent and changes nothing. -/
theorem line_calls (hfit : ValuesFit store I) (reqs : List (Request × KvsError)) (s : σ) (hs : I s)
    (alive : Bool) :
    Line.calls store ⟨s, alive⟩ reqs =
      some ((expectedResults store alive reqs s).1,
        ⟨(expectedResults store alive reqs s).2.1, (expectedResults store alive reqs s).2.2⟩) := by
  induction reqs generalizing s alive with
  | nil => rfl
  | cons r reqs ih =>
    obtain ⟨req, lost⟩ := r
    rw [Line.calls, expectedResults]
    by_cases h32 : 2 ^ 32 ≤ req.payload.length
    · have hcall : Line.call store ⟨s, alive⟩ req lost =
          some (.error (.invalidData "payload too large"), ⟨s, alive⟩) := by
        rw [Line.call, writeRequest_eq, writeFrame_ite, if_neg (by omega)]
      rw [if_pos h32, hcall, Option.bind_some, ih s hs]
      rfl
    · rw [if_neg h32]
      by_cases hok : (alive && req.payload.length ≤ maxPayload) = true
      · obtain ⟨rfl, hle⟩ : alive = true ∧ req.payload.length ≤ maxPayload := by simpa using hok
        rw [if_pos hok, Line.call_executed hfit hs hle, Option.bind_some,
          ih _ (hfit.step req s hs hle)]
        rfl
      · rw [if_neg hok, Line.call_closed (by omega) hok, Option.bind_some, ih s hs]
        rfl

theorem assocStore_fits :
    ValuesFit assocStore fun s => ∀ p ∈ s, (asBytes p.2).length ≤ maxPayload where
  step req s hs hreq := by
    cases req with
    | get key =>
      have hstate : (execute assocStore (.get key) s).2 = s := by
        simp only [execute, assocStore]
        cases s.lookup key <;> rfl
      rwa [hstate]
    | set key value =>
      have hvalue : (asBytes value).length ≤ maxPayload := by
        simp only [Request.payload, List.length_append] at hreq
        omega
      intro p hp
      rcases List.mem_cons.mp hp with rfl | hp
      · exact hvalue
      · exact hs p hp
    | rm key =>
      intro p hp
      refine hs p ?_
      simp only [execute, assocStore] at hp
      cases hl : s.lookup key with
      | none => simpa only [hl] using hp
      | some v =>
        simp only [hl] at hp
        exact (List.mem_filter.mp hp).1
  get key s v hs hv := by
    have hl : s.lookup key = some v := by
      simp only [assocStore, Except.ok.injEq] at hv
      exact hv
    obtain ⟨l₁, l₂, rfl, -⟩ := List.lookup_eq_some_iff.mp hl
    exact hs (key, v) (List.mem_append_right _ List.mem_cons_self)

/-- A key that is too long ends the connection. The next call finds it reset. -/
theorem line_calls_oversized : ∃ key, maxPayload < (asBytes key).length ∧
    Line.calls assocStore ⟨[], true⟩ [(.set "a" "1", serverClosed), (.get "b", serverClosed),
      (.get key, serverClosed), (.get "a", .io ⟨.other, "Connection reset by peer"⟩)] =
      some ([.ok .ok, .error .keyNotFound, .error serverClosed,
        .error (.io ⟨.other, "Connection reset by peer"⟩)], ⟨[("a", "1")], false⟩) := by
  obtain ⟨key, hkey⟩ : ∃ key, (asBytes key).length = maxPayload + 1 :=
    ⟨_, length_asBytes_replicate (maxPayload + 1)⟩
  refine ⟨key, by omega, (line_calls assocStore_fits _ [] (by simp) true).trans ?_⟩
  have hlarge : (Request.get key).payload.length = maxPayload + 1 := hkey
  have hexpect : ∀ (s : List (String × String)) (e e' : KvsError),
      expectedResults assocStore true [(.get key, e), (.get "a", e')] s =
        ([.error e, .error e'], s, false) := by
    intro s e e'
    rw [expectedResults, if_neg (by rw [hlarge]; decide), if_neg (by rw [hlarge]; decide)]
    rfl
  have hone : execute assocStore (.set "a" "1") [] = (.ok, [("a", "1")]) := rfl
  have htwo : execute assocStore (.get "b") [("a", "1")] = (.error .keyNotFound, [("a", "1")]) := by
    decide
  rw [expectedResults, if_neg (by decide), if_pos (by decide), hone]
  dsimp only
  rw [expectedResults, if_neg (by decide), if_pos (by decide), htwo]
  simp only [hexpect]
  rfl

end Bitcask
