import Bitcask.Network.RespReplies

/-!
# The server

`handle` of `kvs-server`: one connection, in the binary protocol or in RESP. The store is any
`KvStore`, in state-passing style, and the state of a connection is the state of the store and the
bytes written so far. When the writer is flushed makes no difference to these bytes.

Both loops run the same requests the same way (`protocols_agree`): the valid requests of a stream
decide the state of the store and their replies, and each invalid one adds one error reply.
-/

namespace Bitcask

open LittleEndian StreamCodec

/-! ## Executing requests -/

/-- The trait `KvStore`, on states `σ`. -/
structure KvStore (σ : Type) where
  get : String → σ → Except KvsError (Option String) × σ
  set : String → String → σ → Except KvsError Unit × σ
  remove : String → σ → Except KvsError Unit × σ

/-- `ErrorCode::from`. -/
def ErrorCode.ofError : KvsError → ErrorCode
  | .keyNotFound => .keyNotFound
  | .invalidData _ => .invalidRequest
  | _ => .internal

variable {σ : Type}

def execute (store : KvStore σ) (req : Request) (s : σ) : Response × σ :=
  match req with
  | .get key =>
    match store.get key s with
    | (.ok (some v), s) => (.value v, s)
    | (.ok none, s) => (.error .keyNotFound, s)
    | (.error e, s) => (.error (.ofError e), s)
  | .set key value =>
    match store.set key value s with
    | (.ok (), s) => (.ok, s)
    | (.error e, s) => (.error (.ofError e), s)
  | .rm key =>
    match store.remove key s with
    | (.ok (), s) => (.ok, s)
    | (.error e, s) => (.error (.ofError e), s)

/-- Requests one after the other. -/
def executeAll (store : KvStore σ) : List Request → σ → List Response × σ
  | [], s => ([], s)
  | req :: reqs, s =>
    let (resp, s) := execute store req s
    let (resps, s) := executeAll store reqs s
    (resp :: resps, s)

/-! ## Connections -/

/-- One round of the binary loop. -/
def handleFrame (store : KvStore σ) (x : σ × Bytes) (m : UInt8 × Bytes) :
    (σ × Bytes) × Except KvsError Unit :=
  let (resp, s) := match decodeRequest m.1 m.2 with
    | .ok req => execute store req x.1
    | .error _ => (.error .invalidRequest, x.1)
  match writeResponse resp with
  | .ok bytes => ((s, x.2 ++ bytes), .ok ())
  | .error e => ((s, x.2), .error e)

/-- The binary loop of `handle`. -/
def handleBinary (store : KvStore σ) (s : σ) (stream : Bytes) : (σ × Bytes) × Except KvsError Unit :=
  frameReader.run (handleFrame store) (s, []) stream

/-- The message of an error; `display` shows the errors that are not `InvalidData`. -/
def decodeErrorMessage (display : KvsError → String) : KvsError → String
  | .invalidData msg => msg
  | other => display other

section Resp

variable (fromUtf8Lossy : Bytes → String) (display : KvsError → String)

/-- One round of the RESP loop. -/
def handleRespFrame (store : KvStore σ) (x : σ × Bytes) (frame : Bytes) :
    (σ × Bytes) × Except KvsError Unit :=
  match decodeRequestResp fromUtf8Lossy frame with
  | .ok (.kv req) =>
    let (resp, s) := execute store req x.1
    ((s, x.2 ++ writeResponseResp (.ofRequest req) resp), .ok ())
  | .ok (.configGet names) => ((x.1, x.2 ++ writeConfigGet names), .ok ())
  | .error e => ((x.1, x.2 ++ writeError (decodeErrorMessage display e)), .ok ())

def handleResp (store : KvStore σ) (s : σ) (stream : Bytes) : (σ × Bytes) × Except KvsError Unit :=
  respReader.run (handleRespFrame fromUtf8Lossy display store) (s, []) stream

/-- A connection: its first byte tells the protocol. -/
def handle (store : KvStore σ) (s : σ) (stream : Bytes) : (σ × Bytes) × Except KvsError Unit :=
  match stream with
  | [] => ((s, []), .ok ())
  | first :: _ =>
    if isResp first then handleResp fromUtf8Lossy display store s stream
    else handleBinary store s stream

end Resp

/-! ## The words of a stream -/

/-- One complete request on the wire, also one that does not decode. -/
def IsRequest (f : Bytes) : Prop := readFrameResp f = .ok (some (f, []))

instance : DecidablePred IsRequest := fun f =>
  inferInstanceAs (Decidable (readFrameResp f = .ok (some (f, []))))

/-- The bytes of a response. -/
def responseFrame (resp : Response) : Bytes := frame resp.msgType resp.payload

/-- The two protocols. -/
inductive Wire
  | binary
  | resp

namespace Wire

/-- The protocol of a connection that starts with this byte. -/
def of (first : UInt8) : Wire := if isResp first then .resp else .binary

/-- A complete frame, and what it decodes to. -/
def Word (fromUtf8Lossy : Bytes → String) : Wire → Bytes → Except KvsError RespRequest → Prop
  | .binary, w, item =>
    ∃ t p, p.length ≤ maxPayload ∧ w = frame t p ∧ item = (decodeRequest t p).map .kv
  | .resp, w, item => IsRequest w ∧ item = decodeRequestResp fromUtf8Lossy w

/-- The requests for the store. -/
def requests (items : List (Except KvsError RespRequest)) : List Request :=
  items.filterMap fun
    | .ok (.kv req) => some req
    | _ => none

/-- The reply to a request for the store. -/
def reply : Wire → Request → Response → Bytes
  | .binary, _, r => responseFrame r
  | .resp, req, r => writeResponseResp (.ofRequest req) r

/-- The reply to a frame that does not decode. -/
def refuse (display : KvsError → String) : Wire → KvsError → Bytes
  | .binary, _ => responseFrame (.error .invalidRequest)
  | .resp, e => writeError (decodeErrorMessage display e)

/-- One reply for each frame: `resps` are the responses to the requests for the store. -/
def replies (display : KvsError → String) (wire : Wire) :
    List (Except KvsError RespRequest) → List Response → List Bytes
  | [], _ => []
  | .error e :: items, resps => wire.refuse display e :: replies display wire items resps
  | .ok (.configGet names) :: items, resps =>
    writeConfigGet names :: replies display wire items resps
  | .ok (.kv req) :: items, r :: resps => wire.reply req r :: replies display wire items resps
  | .ok (.kv _) :: items, [] => replies display wire items []

/-- The response has a reply in the protocol. -/
def Sends : Wire → Response → Prop
  | .binary, r => ∀ v, r = .value v → (asBytes v).length < 2 ^ 32
  | .resp, _ => True

/-- The loop of a protocol. -/
def run (fromUtf8Lossy : Bytes → String) (display : KvsError → String) (store : KvStore σ)
    (x : σ × Bytes) (stream : Bytes) : Wire → (σ × Bytes) × Except KvsError Unit
  | .binary => frameReader.run (handleFrame store) x stream
  | .resp => respReader.run (handleRespFrame fromUtf8Lossy display store) x stream

end Wire

/-- The name of the command of a request. -/
def Request.name : Request → String
  | .get _ => "GET"
  | .set _ _ => "SET"
  | .rm _ => "DEL"

def Request.args : Request → List Bytes
  | .get key | .rm key => [asBytes key]
  | .set key value => [asBytes key, asBytes value]

/-- A binary frame of a request, or of something that does not decode. -/
def BinaryWord (w : Bytes) : Except KvsError RespRequest → Prop
  | .ok (.kv req) => req.payload.length ≤ maxPayload ∧ writeRequest req = .ok w
  | .ok (.configGet _) => False
  | .error e => ∃ t p, p.length ≤ maxPayload ∧ writeFrame t p = .ok w ∧ decodeRequest t p = .error e

/-- A RESP array of bulk strings of a request, with the command name in any letter case, or a frame
that asks for the configuration or does not decode. -/
def RespWord (fromUtf8Lossy : Bytes → String) (w : Bytes) : Except KvsError RespRequest → Prop
  | .ok (.kv req) => ∃ name, eqIgnoreCase name (asBytes req.name) ∧ w = writeBulks (name :: req.args) ∧
      ∀ arg ∈ req.args, arg.length ≤ maxPayload
  | item => IsRequest w ∧ decodeRequestResp fromUtf8Lossy w = item

theorem length_executeAll (store : KvStore σ) (reqs : List Request) (s : σ) :
    (executeAll store reqs s).1.length = reqs.length := by
  induction reqs generalizing s with
  | nil => rfl
  | cons req reqs ih => rw [executeAll, List.length_cons, List.length_cons, ih]

/-! ## Words are read and decoded -/

section Words

variable {w : Bytes} {item : Except KvsError RespRequest}

theorem BinaryWord.word (fromUtf8Lossy : Bytes → String) (h : BinaryWord w item) :
    Wire.binary.Word fromUtf8Lossy w item := by
  rcases item with e | req | names
  · obtain ⟨t, p, hp, hw, hd⟩ := h
    rw [writeFrame_eq hp] at hw
    exact ⟨t, p, hp, (Except.ok.inj hw).symm, by rw [hd]; rfl⟩
  · obtain ⟨hp, hw⟩ := h
    rw [writeRequest_eq, writeFrame_eq hp] at hw
    refine ⟨req.msgType, req.payload, hp, (Except.ok.inj hw).symm, ?_⟩
    rw [(decodeRequest_iff hp).mpr ⟨rfl, rfl⟩]
    rfl
  · exact h.elim

/-- The arguments of a request decode to it. -/
theorem decodeCommand_args (fromUtf8Lossy : Bytes → String) {req : Request} {name : Bytes}
    (h : eqIgnoreCase name (asBytes req.name)) :
    decodeCommand fromUtf8Lossy name req.args = .ok (.kv req) := by
  have hcase : ∀ other, eqIgnoreCase name other = eqIgnoreCase (asBytes req.name) other := by
    intro other
    unfold eqIgnoreCase at h ⊢
    rw [of_decide_eq_true h]
  unfold decodeCommand
  cases req with
  | get key =>
    simp only [hcase, Request.name]
    rw [if_pos (by decide)]
    simp [checkArgs, Request.args, bind, Except.bind, utf8_asBytes]
  | set key value =>
    simp only [hcase, Request.name]
    rw [if_neg (by decide), if_pos (by decide)]
    simp [checkArgs, Request.args, bind, Except.bind, utf8_asBytes]
  | rm key =>
    simp only [hcase, Request.name]
    rw [if_neg (by decide), if_neg (by decide), if_pos (by decide)]
    simp [checkArgs, Request.args, bind, Except.bind, utf8_asBytes]

theorem mapM_bulkArg (args : List Bytes) :
    (args.map fun d => RespValue.bulkString (some d)).mapM bulkArg = .ok args := by
  induction args with
  | nil => rfl
  | cons d args ih =>
    rw [List.map_cons, List.mapM_cons, ih]
    rfl

/-- The frame of a request is read whole, and decodes to it. -/
theorem request_word (fromUtf8Lossy : Bytes → String) {req : Request} {name : Bytes}
    (hname : eqIgnoreCase name (asBytes req.name)) (hargs : ∀ arg ∈ req.args, arg.length ≤ maxPayload) :
    IsRequest (writeBulks (name :: req.args)) ∧
      decodeRequestResp fromUtf8Lossy (writeBulks (name :: req.args)) = .ok (.kv req) := by
  have hlen : name.length = (asBytes req.name).length := by
    have := congrArg List.length (of_decide_eq_true hname)
    rwa [List.length_map, List.length_map] at this
  have hall : ∀ d ∈ name :: req.args, d.length ≤ maxPayload := by
    intro d hd
    rcases List.mem_cons.mp hd with rfl | hd
    · rw [hlen]
      cases req <;> dsimp only [Request.name] <;> decide
    · exact hargs d hd
  have hcount : (name :: req.args).length ≤ maxArrayLen := by
    cases req <;> dsimp only [Request.args, List.length_cons, List.length_nil] <;> decide
  have hparse : ∀ rest, parseLevels (maxDepth + 1) (writeBulks (name :: req.args) ++ rest) =
      .ok (.array ((name :: req.args).map fun d => .bulkString (some d)),
        (writeBulks (name :: req.args)).length) := fun rest => parse_writeBulks hcount hall
  have hframable : (RespValue.array ((name :: req.args).map fun d => .bulkString (some d))).Framable 0 := by
    rw [RespValue.Framable, List.length_map, Nat.zero_add]
    exact ⟨hcount, hcount, framable_bulks hall⟩
  constructor
  · have hread := reads_of_parse hframable hparse []
    rwa [List.append_nil] at hread
  · rw [decodeRequestResp, parseResp_word hparse]
    have hmap := mapM_bulkArg (name :: req.args)
    simp only [List.map_cons] at hmap ⊢
    simp only [bind, Except.bind, hmap]
    exact decodeCommand_args fromUtf8Lossy hname

theorem RespWord.word {fromUtf8Lossy : Bytes → String} (h : RespWord fromUtf8Lossy w item) :
    Wire.resp.Word fromUtf8Lossy w item := by
  rcases item with e | req | names
  · exact ⟨h.1, h.2.symm⟩
  · obtain ⟨name, hname, rfl, hargs⟩ := h
    obtain ⟨hrequest, hdecode⟩ := request_word fromUtf8Lossy hname hargs
    exact ⟨hrequest, hdecode.symm⟩
  · exact ⟨h.1, h.2.symm⟩

end Words

/-! ## Both loops -/

section Loops

variable {fromUtf8Lossy : Bytes → String} {display : KvsError → String} {store : KvStore σ}
  {s s' : σ} {wire : Wire} {ws : List Bytes} {items : List (Except KvsError RespRequest)}
  {resps : List Response}

theorem executeAll_cons {req : Request} {reqs : List Request}
    (h : executeAll store (req :: reqs) s = (resps, s')) : ∃ resp s₁ resps',
      execute store req s = (resp, s₁) ∧ executeAll store reqs s₁ = (resps', s') ∧
        resps = resp :: resps' := by
  rw [executeAll] at h
  obtain ⟨rfl, rfl⟩ := Prod.mk.inj h
  exact ⟨_, _, _, rfl, rfl, rfl⟩

theorem writeResponse_ok {resp : Response}
    (h : ∀ v, resp = .value v → (asBytes v).length < 2 ^ 32) :
    writeResponse resp = .ok (responseFrame resp) := by
  rw [writeResponse_eq, writeFrame_ite, if_pos]
  · rfl
  · cases resp with
    | ok => decide
    | value v => exact h v rfl
    | error code => exact Nat.one_lt_two_pow (by decide)

/-- A round of the loop does what the item asks for. -/
def Wire.Serves {α : Type} (display : KvsError → String) (store : KvStore σ) (wire : Wire)
    (body : σ × Bytes → α → (σ × Bytes) × Except KvsError Unit) (a : α) :
    Except KvsError RespRequest → Prop
  | .error e => ∀ s out, body (s, out) a = ((s, out ++ wire.refuse display e), .ok ())
  | .ok (.configGet names) => ∀ s out, body (s, out) a = ((s, out ++ writeConfigGet names), .ok ())
  | .ok (.kv req) => ∀ s out, wire.Sends (execute store req s).1 →
      body (s, out) a =
        (((execute store req s).2, out ++ wire.reply req (execute store req s).1), .ok ())

theorem serves_frame {t : UInt8} {p : Bytes} :
    Wire.binary.Serves display store (handleFrame store) (t, p) ((decodeRequest t p).map .kv) := by
  cases hd : decodeRequest t p with
  | error e =>
    intro s out
    rw [handleFrame, hd]
    rfl
  | ok req =>
    intro s out hsend
    rw [handleFrame, hd]
    simp only [writeResponse_ok hsend]
    rfl

theorem serves_resp {w : Bytes} :
    Wire.resp.Serves display store (handleRespFrame fromUtf8Lossy display store) w
      (decodeRequestResp fromUtf8Lossy w) := by
  cases hd : decodeRequestResp fromUtf8Lossy w with
  | error e =>
    intro s out
    rw [handleRespFrame, hd]
    rfl
  | ok r =>
    cases r with
    | configGet names =>
      intro s out
      rw [handleRespFrame, hd]
    | kv req =>
      intro s out _
      rw [handleRespFrame, hd]
      rfl

theorem Wire.length_replies {items : List (Except KvsError RespRequest)} {resps : List Response}
    (h : resps.length = (requests items).length) :
    (wire.replies display items resps).length = items.length := by
  induction items generalizing resps with
  | nil => rfl
  | cons item items ih =>
    rcases item with e | req | names
    · rw [replies, List.length_cons, List.length_cons, ih h]
    · cases resps with
      | nil => cases h
      | cons r resps => rw [replies, List.length_cons, List.length_cons, ih (Nat.succ.inj h)]
    · rw [replies, List.length_cons, List.length_cons, ih h]

/-- The rounds of either loop. -/
theorem Wire.rounds {α : Type} {body : σ × Bytes → α → (σ × Bytes) × Except KvsError Unit}
    {as : List α} {items : List (Except KvsError RespRequest)} {resps : List Response}
    (h : List.Forall₂ (wire.Serves display store body) as items) (out : Bytes)
    (hexec : executeAll store (requests items) s = (resps, s')) (hsend : ∀ r ∈ resps, wire.Sends r) :
    Reader.Rounds body (s, out) as (s', out ++ (wire.replies display items resps).flatten) := by
  induction h generalizing s out resps with
  | nil =>
    cases hexec
    rw [replies, List.flatten_nil, List.append_nil]
    exact .nil _
  | @cons a item as items ha _ ih =>
    rcases item with e | req | names
    · have hrest := ih (out ++ wire.refuse display e) hexec hsend
      rw [List.append_assoc] at hrest
      exact .cons (ha s out) hrest
    · obtain ⟨r, s₁, resps', hx, hexec', rfl⟩ := executeAll_cons hexec
      have hround := ha s out (by rw [hx]; exact hsend r List.mem_cons_self)
      rw [hx] at hround
      have hrest := ih (out ++ wire.reply req r) hexec' fun r' hr => hsend r' (List.mem_cons_of_mem _ hr)
      rw [List.append_assoc] at hrest
      exact .cons hround hrest
    · have hrest := ih (out ++ writeConfigGet names) hexec hsend
      rw [List.append_assoc] at hrest
      exact .cons (ha s out) hrest

/-- The loop over complete frames. -/
theorem Wire.run_words (h : List.Forall₂ (wire.Word fromUtf8Lossy) ws items) (out rest : Bytes)
    (hexec : executeAll store (requests items) s = (resps, s')) (hsend : ∀ r ∈ resps, wire.Sends r) :
    wire.run fromUtf8Lossy display store (s, out) (ws.flatten ++ rest) =
      wire.run fromUtf8Lossy display store
        (s', out ++ (wire.replies display items resps).flatten) rest := by
  cases wire with
  | binary =>
    obtain ⟨ms, hreads, hserves⟩ : ∃ ms, List.Forall₂ frameReader.Reads ws ms ∧
        List.Forall₂ (Wire.binary.Serves display store (handleFrame store)) ms items := by
      clear hexec hsend
      induction h with
      | nil => exact ⟨[], .nil, .nil⟩
      | cons hw _ ih =>
        obtain ⟨t, p, hp, rfl, rfl⟩ := hw
        obtain ⟨ms, hreads, hserves⟩ := ih
        exact ⟨(t, p) :: ms, .cons (readFrame_frame hp) hreads, .cons serves_frame hserves⟩
    exact Reader.run_flatten hreads (Wire.rounds hserves out hexec hsend) rest
  | resp =>
    obtain ⟨hrequests, -⟩ := (List.forall₂_and_left _ _).mp h
    have hreads : List.Forall₂ respReader.Reads ws ws := by
      rw [List.forall₂_same]
      exact fun w hw => reads_of_frame (hrequests w hw)
    have hserves := h.imp fun w item hw => (show Wire.resp.Serves display store
      (handleRespFrame fromUtf8Lossy display store) w item by rw [hw.2]; exact serves_resp)
    exact Reader.run_flatten hreads (Wire.rounds hserves out hexec hsend) rest

theorem Wire.run_nil (x : σ × Bytes) :
    wire.run fromUtf8Lossy display store x [] = (x, .ok ()) := by
  cases wire with
  | binary => exact Reader.run_done rfl
  | resp => exact Reader.run_done readFrameResp_nil

/-- The loop over a stream that ends with a frame. -/
theorem Wire.run_all (h : List.Forall₂ (wire.Word fromUtf8Lossy) ws items)
    (hexec : executeAll store (requests items) s = (resps, s')) (hsend : ∀ r ∈ resps, wire.Sends r) :
    wire.run fromUtf8Lossy display store (s, []) ws.flatten =
      ((s', (wire.replies display items resps).flatten), .ok ()) := by
  have hrun : wire.run fromUtf8Lossy display store (s, []) (ws.flatten ++ []) = _ :=
    Wire.run_words h [] [] hexec hsend
  rwa [List.append_nil, List.nil_append, run_nil] at hrun

end Loops

/-- Both protocols run the same requests the same way. Two streams of words, one for each protocol,
that have the same requests for the store among any invalid ones: both loops read them to the end and
leave the store in the state after these requests, and each word gets one reply. The reply to a valid
request is the frame of its response in one protocol and `write_response_resp` of the same response
in the other, and an invalid word gets an error. -/
theorem protocols_agree (fromUtf8Lossy : Bytes → String) (display : KvsError → String)
    (store : KvStore σ) (s : σ) (reqs : List Request) {bws rws : List Bytes}
    {bitems ritems : List (Except KvsError RespRequest)} (hb : List.Forall₂ BinaryWord bws bitems)
    (hr : List.Forall₂ (RespWord fromUtf8Lossy) rws ritems) (hbv : Wire.requests bitems = reqs)
    (hrv : Wire.requests ritems = reqs)
    (hfit : ∀ v, .value v ∈ (executeAll store reqs s).1 → (asBytes v).length < 2 ^ 32) :
    ∃ resps s', executeAll store reqs s = (resps, s') ∧ resps.length = reqs.length ∧
      (∀ resp ∈ resps, writeResponse resp = .ok (responseFrame resp)) ∧
      handleBinary store s bws.flatten =
        ((s', (Wire.binary.replies display bitems resps).flatten), .ok ()) ∧
      (Wire.binary.replies display bitems resps).length = bws.length ∧
      handleResp fromUtf8Lossy display store s rws.flatten =
        ((s', (Wire.resp.replies display ritems resps).flatten), .ok ()) ∧
      (Wire.resp.replies display ritems resps).length = rws.length := by
  subst hbv
  have hlen := length_executeAll store (Wire.requests bitems) s
  have hsend : ∀ r ∈ (executeAll store (Wire.requests bitems) s).1, Wire.binary.Sends r := by
    rintro r hmem v rfl
    exact hfit v hmem
  have hbin := hb.imp fun w item hw => hw.word fromUtf8Lossy
  have hresp := hr.imp fun w item hw => hw.word
  refine ⟨_, _, rfl, hlen, ?_, Wire.run_all hbin rfl hsend, ?_,
    Wire.run_all hresp (by rw [hrv]) fun _ _ => trivial, ?_⟩
  · exact fun resp hmem => writeResponse_ok (hsend resp hmem)
  · rw [hb.length_eq]
    exact Wire.length_replies hlen
  · rw [hr.length_eq]
    exact Wire.length_replies (by rw [hlen, hrv])

/-- A store that keeps its pairs in a list. -/
def assocStore : KvStore (List (String × String)) where
  get key s := (.ok (s.lookup key), s)
  set key value s := (.ok (), (key, value) :: s)
  remove key s :=
    match s.lookup key with
    | some _ => (.ok (), s.filter fun p => p.1 ≠ key)
    | none => (.error .keyNotFound, s)

/-- An invalid word between a set, a get and two removes. -/
theorem protocols_agree_mixed : ∃ bws rws : List Bytes,
    handleBinary assocStore [] bws.flatten =
      (([], ([.ok, .error .invalidRequest, .value "1", .ok, .error .keyNotFound].map
        responseFrame).flatten), .ok ()) ∧
    handleResp (fun _ => "?") (fun _ => "?") assocStore [] rws.flatten =
      (([], asBytes "-ERR unknown command '?'\r\n+OK\r\n$1\r\n1\r\n:1\r\n:0\r\n"), .ok ()) := by
  have hexec : executeAll assocStore [.set "a" "1", .get "a", .rm "a", .rm "a"] [] =
      ([.ok, .value "1", .ok, .error .keyNotFound], []) := by decide +kernel
  have hb : List.Forall₂ BinaryWord
      [frame 1 (toLe 4 1 ++ asBytes "a1"), frame 9 [], frame 0 (asBytes "a"), frame 2 (asBytes "a"),
        frame 2 (asBytes "a")]
      [.ok (.kv (.set "a" "1")), .error .unexpectedCommandType, .ok (.kv (.get "a")),
        .ok (.kv (.rm "a")), .ok (.kv (.rm "a"))] :=
    .cons ⟨by decide, rfl⟩ (.cons ⟨9, [], by decide, rfl, rfl⟩ (.cons ⟨by decide, rfl⟩
      (.cons ⟨by decide, rfl⟩ (.cons ⟨by decide, rfl⟩ .nil))))
  have hr : List.Forall₂ (RespWord fun _ => "?")
      [asBytes "*1\r\n$4\r\nPING\r\n", writeBulks [asBytes "sEt", asBytes "a", asBytes "1"],
        writeBulks [asBytes "get", asBytes "a"], writeBulks [asBytes "DEL", asBytes "a"],
        writeBulks [asBytes "Del", asBytes "a"]]
      [.error (.invalidData "unknown command '?'"), .ok (.kv (.set "a" "1")), .ok (.kv (.get "a")),
        .ok (.kv (.rm "a")), .ok (.kv (.rm "a"))] :=
    .cons ⟨by decide +kernel, by decide +kernel⟩
      (.cons ⟨asBytes "sEt", by decide, rfl, by decide⟩
      (.cons ⟨asBytes "get", by decide, rfl, by decide⟩
      (.cons ⟨asBytes "DEL", by decide, rfl, by decide⟩
      (.cons ⟨asBytes "Del", by decide, rfl, by decide⟩ .nil))))
  obtain ⟨resps, s', hrun, -, -, hbin, -, hresp, -⟩ := protocols_agree (fun _ => "?") (fun _ => "?")
    assocStore [] [.set "a" "1", .get "a", .rm "a", .rm "a"] hb hr rfl rfl (by
      intro v hv
      rw [hexec] at hv
      obtain rfl : v = "1" := by simpa using hv
      decide)
  obtain ⟨rfl, rfl⟩ := Prod.mk.inj (hexec.symm.trans hrun)
  exact ⟨_, _, hbin, hresp.trans (by decide +kernel)⟩

/-- A store that has the same value for all keys. -/
def constStore (v : String) : KvStore Unit where
  get _ s := (.ok (some v), s)
  set _ _ s := (.ok (), s)
  remove _ s := (.ok (), s)

/-- A value of `2 ^ 32` bytes has no binary response: the loop stops without a reply, and the RESP
loop goes on. -/
theorem long_value_splits_protocols : ∃ v,
    handleBinary (constStore v) () (frame reqGet []) =
      (((), []), .error (.invalidData "payload too large")) ∧
    handleResp (fun _ => "?") (fun _ => "?") (constStore v) () (writeBulks [asBytes "GET", []]) =
      (((), writeBulk (asBytes v)), .ok ()) := by
  obtain ⟨v, hv⟩ : ∃ v, (asBytes v).length = 2 ^ 32 := ⟨_, length_asBytes_replicate (2 ^ 32)⟩
  refine ⟨v, ?_, ?_⟩
  · have hread : frameReader.read (frame reqGet []) = .ok (some ((reqGet, []), [])) := rfl
    have hwrite : writeResponse (.value v) = .error (.invalidData "payload too large") := by
      rw [writeResponse_eq, writeFrame_ite, show (Response.value v).payload = asBytes v from rfl, hv,
        if_neg (lt_irrefl _)]
    refine Reader.run_stop hread ?_
    have hdecode : decodeRequest reqGet [] = .ok (.get "") := rfl
    rw [handleFrame, hdecode]
    simp only [execute, constStore, hwrite]
  · have hword : RespWord (fun _ => "?") (writeBulks [asBytes "GET", []]) (.ok (.kv (.get ""))) :=
      ⟨asBytes "GET", by decide, rfl, by decide⟩
    have hexec : executeAll (constStore v) (Wire.requests [.ok (.kv (.get ""))]) () =
        ([.value v], ()) := rfl
    have hrun : handleResp (fun _ => "?") (fun _ => "?") (constStore v) ()
        [writeBulks [asBytes "GET", []]].flatten = (((), [writeBulk (asBytes v)].flatten), .ok ()) :=
      Wire.run_all (.cons hword.word .nil) hexec fun _ _ => trivial
    rwa [List.flatten_singleton, List.flatten_singleton] at hrun

end Bitcask
