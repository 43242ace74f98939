import Bitcask.Network.RespFraming

/-!
# RESP replies are read back

A client that reads the replies of the server with `read_frame_resp` and `parse_resp` sees one value
for each reply, whatever bytes the values, names and messages are made of. Each reply parses to its
value with whatever follows it (`Reply.parse`), and framing follows parsing (`follows_parseLevels`).
-/

namespace Bitcask

open LittleEndian StreamCodec

/-! ## Lengths -/

/-- The spellings of a length: at most ten digits. -/
def SpellsLen (n : ℕ) (body : Bytes) : Prop := SpellsNat n body ∧ body.length ≤ 10

theorem parseLen_iff {n : ℕ} {body : Bytes} : parseLen body = .ok (some n) ↔ SpellsLen n body := by
  unfold parseLen
  constructor
  · intro h
    split at h
    · cases h
    · split at h
      · cases h
      · rename_i hbody
        cases h
        simp only [not_or, not_not, not_lt] at hbody
        exact ⟨⟨hbody.1, hbody.2.2, rfl⟩, hbody.2.1⟩
  · rintro ⟨⟨hne, hall, hn⟩, hlen⟩
    have hminus : body ≠ [45, 49] := by
      rintro rfl
      exact absurd hall (by decide)
    rw [if_neg hminus, if_neg, hn]
    rw [not_or, not_or, not_not]
    exact ⟨hne, Nat.not_lt.mpr hlen, hall⟩

theorem spellsLen_decimal {n : ℕ} (h : n < 10 ^ 10) : SpellsLen n (decimal n) :=
  ⟨spellsNat_decimal n, length_decimal h⟩

/-- A length is read back. -/
theorem parseLen_decimal {n : ℕ} (h : n < 10 ^ 10) : parseLen (decimal n) = .ok (some n) :=
  parseLen_iff.mpr (spellsLen_decimal h)

/-! ## Bulk strings and arrays of them -/

section Bulks

variable {levels : ℕ} {data rest : Bytes}

theorem writeBulk_eq (data rest : Bytes) : writeBulk data ++ rest =
    line bulkByte (decimal data.length) ++ (data ++ crlf ++ rest) := by
  simp [writeBulk, line]

theorem length_writeBulk (data : Bytes) :
    (writeBulk data).length = (decimal data.length).length + 3 + (data.length + 2) := by
  have := congrArg List.length (writeBulk_eq data [])
  simpa [length_line, crlf] using this

theorem maxPayload_lt : maxPayload < 10 ^ 10 := by decide

/-- A bulk string is read back. -/
theorem parse_writeBulk (h : data.length ≤ maxPayload) :
    parseLevels (levels + 1) (writeBulk data ++ rest) =
      .ok (.bulkString (some data), (writeBulk data).length) := by
  have hl := parseLen_decimal (h.trans_lt maxPayload_lt)
  rw [writeBulk_eq, parse_bulk (parseLen_no_lf hl) hl, length_writeBulk]

theorem parseItems_writeBulk {items : List Bytes} (h : ∀ d ∈ items, d.length ≤ maxPayload)
    (rest : Bytes) : parseItems (parseLevels (levels + 1)) items.length (items.flatMap writeBulk ++ rest) =
      .ok (items.map fun d => .bulkString (some d), (items.flatMap writeBulk).length) := by
  induction items with
  | nil => rfl
  | cons d ds ih =>
    rw [List.flatMap_cons, List.append_assoc, List.length_cons, parseItems,
      parse_writeBulk (h d List.mem_cons_self)]
    simp only [bind, Except.bind, List.drop_left, ih fun d hd => h d (List.mem_cons_of_mem _ hd),
      List.length_append, List.map_cons]

/-- An array of bulk strings on the wire. -/
def writeBulks (items : List Bytes) : Bytes :=
  line arrayByte (decimal items.length) ++ items.flatMap writeBulk

theorem parse_writeBulks {items : List Bytes} (hlen : items.length ≤ maxArrayLen)
    (h : ∀ d ∈ items, d.length ≤ maxPayload) :
    parseLevels (levels + 2) (writeBulks items ++ rest) =
      .ok (.array (items.map fun d => .bulkString (some d)), (writeBulks items).length) := by
  have hl := parseLen_decimal (n := items.length) (hlen.trans_lt (by decide))
  rw [writeBulks, List.append_assoc, parse_array (parseLen_no_lf hl) hl, parseItems_writeBulk h,
    List.length_append, length_line]
  rfl

theorem framable_bulks {items : List Bytes} {pending : ℕ} (h : ∀ d ∈ items, d.length ≤ maxPayload) :
    FramableAll pending (items.map fun d => .bulkString (some d)) := by
  induction items with
  | nil => trivial
  | cons d ds ih =>
    exact ⟨h d List.mem_cons_self, ih fun d hd => h d (List.mem_cons_of_mem _ hd)⟩

end Bulks

/-! ## Streams of values -/

theorem readFrameResp_progress {stream frame rest : Bytes}
    (h : readFrameResp stream = .ok (some (frame, rest))) : rest.length < stream.length := by
  obtain ⟨kind, body, rest₁, frame', pending', stream', -, -, rfl, hstep, hloop⟩ := frameLoop_succ h
  obtain ⟨w, rest₂, rfl, hend, -⟩ := frameLoop_items (a := pending') (b := 0) hloop 0
  rw [frameLoop_zero] at hend
  cases hend
  have hle := hstep.length_le
  rw [List.length_append] at hle ⊢
  rw [length_line]
  omega

theorem readFrameResp_nil : readFrameResp [] = .ok none := by
  have hround : frameRound [] 0 [] = .ok none := rfl
  rw [readFrameResp, frameLoop]
  split <;> rename_i hr <;> rw [hround] at hr <;> cases hr

/-- `read_frame_resp` as a reader of streams. -/
def respReader : Reader KvsError UInt8 Bytes := ⟨readFrameResp, readFrameResp_progress⟩

/-- Repeated `read_frame_resp` and `parse_resp`. -/
def valueReader : Reader KvsError UInt8 RespValue := respReader.decode parseResp

theorem FrameStep.append {kind : UInt8} {body frame frame' rest stream : Bytes} {pending pending' : ℕ}
    (h : FrameStep kind body frame pending rest frame' pending' stream) (t : Bytes) :
    FrameStep kind body frame pending (rest ++ t) frame' pending' (stream ++ t) := by
  cases h with
  | simple _ hk => exact .simple _ hk
  | null _ hk hl => exact .null _ hk hl
  | bulk data _ hk hl hmax =>
    rw [List.append_assoc]
    exact .bulk data _ hk hl hmax
  | array len _ hk hl hmax hsum => exact .array len _ hk hl hmax hsum

/-- The loop does not look behind the frame it returns. -/
theorem frameLoop_append {frame stream f rest : Bytes} {pending : ℕ}
    (h : frameLoop frame pending stream = .ok (some (f, rest))) (t : Bytes) :
    frameLoop frame pending (stream ++ t) = .ok (some (f, rest ++ t)) := by
  induction hn : stream.length using Nat.strong_induction_on generalizing frame pending stream with
  | _ n ih =>
  subst hn
  cases pending with
  | zero =>
    rw [frameLoop_zero] at h ⊢
    cases h
    rfl
  | succ pending =>
    obtain ⟨kind, body, rest₁, frame', pending', stream', hk, hb, rfl, hstep, hloop⟩ := frameLoop_succ h
    have hle := hstep.length_le
    rw [List.append_assoc, frameLoop_step hk hb (hstep.append t)]
    exact ih _ (by rw [List.length_append, length_line]; omega) hloop rfl

/-- A word that is one frame on its own is one frame in any stream. -/
theorem reads_of_frame {w : Bytes} (h : readFrameResp w = .ok (some (w, []))) :
    respReader.Reads w w := fun rest => frameLoop_append h rest

/-- A word that parses to a value, whatever follows it, is one frame. -/
theorem reads_of_parse {w : Bytes} {v : RespValue} (hv : v.Framable 0)
    (h : ∀ rest, parseLevels (maxDepth + 1) (w ++ rest) = .ok (v, w.length)) :
    respReader.Reads w w := by
  intro rest
  obtain ⟨-, hloop⟩ := follows_parseLevels (maxDepth + 1) [] (h rest) hv
  show readFrameResp (w ++ rest) = _
  rw [readFrameResp, hloop, frameLoop_zero, List.nil_append, List.take_left, List.drop_left]

theorem parseResp_word {w : Bytes} {v : RespValue}
    (h : ∀ rest, parseLevels (maxDepth + 1) (w ++ rest) = .ok (v, w.length)) :
    parseResp w = .ok v := by
  have h := h []
  rw [List.append_nil] at h
  rw [parseResp, parseValue, Nat.sub_zero, h]
  simp [bind, Except.bind]

theorem valueReader_reads {w : Bytes} {v : RespValue} (hv : v.Framable 0)
    (h : ∀ rest, parseLevels (maxDepth + 1) (w ++ rest) = .ok (v, w.length)) :
    valueReader.Reads w v :=
  (reads_of_parse hv h).decode (parseResp_word h)

/-! ## Replies -/

/-- A message on one line. -/
theorem oneLine_no_lf (msg : String) : 10 ∉ asBytes (oneLine msg) := by
  intro h
  obtain ⟨c, hc, hcb⟩ := mem_asBytes_low (by decide) h
  rw [oneLine, String.toList_map] at hc
  obtain ⟨d, -, rfl⟩ := List.mem_map.mp hc
  split at hcb
  · cases hcb
  · rename_i hd
    exact hd (Or.inr (Char.toNat_inj.mp hcb))

/-- What the server writes back. -/
inductive Reply
  | response (cmd : RespCommand) (resp : Response)
  | configGet (names : List Bytes)
  | error (msg : String)

namespace Reply

/-- The bytes of a reply. -/
def bytes : Reply → Bytes
  | response cmd resp => writeResponseResp cmd resp
  | configGet names => writeConfigGet names
  | error msg => writeError msg

/-- The value a reply is meant to be. An error has the code `ERR`. -/
def value : Reply → RespValue
  | response _ (.value v) => .bulkString (some (asBytes v))
  | response .del .ok => .integer 1
  | response .del (.error .keyNotFound) => .integer 0
  | response .get (.error .keyNotFound) => .bulkString none
  | response _ .ok => .simpleString (asBytes "OK")
  | response _ (.error code) => .error (asBytes ("ERR " ++ oneLine code.display))
  | configGet names =>
    .array (names.flatMap fun name => [.bulkString (some name), .bulkString (some [])])
  | error msg => .error (asBytes ("ERR " ++ oneLine msg))

/-- The sizes within which a reply can be read back. -/
def Fits : Reply → Prop
  | response _ (.value v) => (asBytes v).length ≤ maxPayload
  | response _ _ | error _ => True
  | configGet names => names.length ≤ maxArrayLen / 2 ∧ ∀ name ∈ names, name.length ≤ maxPayload

instance : DecidablePred Fits := fun r =>
  match r with
  | response _ (.value v) => inferInstanceAs (Decidable ((asBytes v).length ≤ maxPayload))
  | response _ .ok | response _ (.error _) | error _ => .isTrue trivial
  | configGet names => inferInstanceAs (Decidable (names.length ≤ maxArrayLen / 2 ∧
      ∀ name ∈ names, name.length ≤ maxPayload))

end Reply

/-- The bytes of a message without a line feed, and the value they are read as. -/
theorem parse_writeError {levels : ℕ} (msg : String) (rest : Bytes) :
    parseLevels (levels + 1) (writeError msg ++ rest) =
      .ok (.error (asBytes ("ERR " ++ oneLine msg)), (writeError msg).length) := by
  have hno : 10 ∉ asBytes ("ERR " ++ oneLine msg) := by
    rw [asBytes_append, List.mem_append, not_or]
    exact ⟨by decide, oneLine_no_lf msg⟩
  have hline : writeError msg = line errorByte (asBytes ("ERR " ++ oneLine msg)) := by
    rw [writeError, asBytes_append, asBytes_append]
    rfl
  rw [hline, parse_error (no_crlf hno), length_line]

/-- The pairs of `CONFIG GET`. -/
def configPairs (names : List Bytes) : List Bytes := names.flatMap fun name => [name, []]

theorem length_configPairs (names : List Bytes) : (configPairs names).length = names.length * 2 := by
  rw [configPairs, List.length_flatMap]
  simp

theorem writeConfigGet_eq (names : List Bytes) :
    writeConfigGet names = writeBulks (configPairs names) := by
  rw [writeConfigGet, writeBulks, length_configPairs, configPairs, List.flatMap_assoc]
  simp [line]

theorem configPairs_le {names : List Bytes} (h : ∀ name ∈ names, name.length ≤ maxPayload) :
    ∀ d ∈ configPairs names, d.length ≤ maxPayload := by
  intro d hd
  obtain ⟨name, hname, hd⟩ := List.mem_flatMap.mp hd
  rcases List.mem_cons.mp hd with rfl | hd
  · exact h _ hname
  · rw [List.mem_singleton.mp hd]
    exact Nat.zero_le _

theorem length_configPairs_le {names : List Bytes} (h : names.length ≤ maxArrayLen / 2) :
    (configPairs names).length ≤ maxArrayLen := by
  rw [length_configPairs]
  omega

theorem value_configGet (names : List Bytes) : (Reply.configGet names).value =
    .array ((configPairs names).map fun d => .bulkString (some d)) := by
  rw [configPairs, List.map_flatMap]
  rfl

/-- The replies that are a fixed line. -/
theorem parse_line {bytes : Bytes} (kind : UInt8) (body : Bytes) {v : RespValue} {levels : ℕ}
    (hbytes : bytes = line kind body) (h : ∀ rest, parseLevels (levels + 1) (line kind body ++ rest) =
      .ok (v, body.length + 3)) (rest : Bytes) :
    parseLevels (levels + 1) (bytes ++ rest) = .ok (v, bytes.length) := by
  rw [hbytes, h, length_line]

/-- Every reply parses to its value, whatever follows it. -/
theorem Reply.parse {r : Reply} (h : r.Fits) (rest : Bytes) :
    parseLevels (maxDepth + 1) (r.bytes ++ rest) = .ok (r.value, r.bytes.length) := by
  cases r with
  | configGet names =>
    rw [value_configGet, bytes, writeConfigGet_eq]
    exact parse_writeBulks (length_configPairs_le h.1) (configPairs_le h.2)
  | error msg => exact parse_writeError msg rest
  | response cmd resp =>
    cases resp with
    | value v => cases cmd <;> exact parse_writeBulk h
    | ok =>
      cases cmd with
      | get | set =>
        exact parse_line simpleByte (asBytes "OK") rfl (fun _ => parse_simpleString (no_crlf (by decide)))
          rest
      | del =>
        exact parse_line integerByte [49] rfl (fun _ => parse_integer (by decide)) rest
    | error code =>
      cases code with
      | internal | invalidRequest => cases cmd <;> exact parse_writeError _ rest
      | keyNotFound =>
        cases cmd with
        | set => exact parse_writeError _ rest
        | del => exact parse_line integerByte [48] rfl (fun _ => parse_integer (by decide)) rest
        | get =>
          exact parse_line bulkByte [45, 49] rfl
            (fun _ => parse_null (Or.inl rfl) (by decide) (by decide)) rest

theorem Reply.framable {r : Reply} (h : r.Fits) : r.value.Framable 0 := by
  have hmsg : ∀ msg, (RespValue.error (asBytes ("ERR " ++ oneLine msg))).Framable 0 := by
    intro msg
    rw [RespValue.Framable, asBytes_append, List.mem_append, not_or]
    exact ⟨by decide, oneLine_no_lf msg⟩
  have hok : (RespValue.simpleString (asBytes "OK")).Framable 0 := by
    rw [RespValue.Framable]
    decide
  cases r with
  | configGet names =>
    have hlen := length_configPairs_le h.1
    rw [value_configGet, RespValue.Framable, List.length_map, Nat.zero_add]
    exact ⟨hlen, hlen, framable_bulks (configPairs_le h.2)⟩
  | error msg => exact hmsg msg
  | response cmd resp =>
    cases resp with
    | value v => cases cmd <;> exact h
    | ok =>
      cases cmd with
      | get | set => exact hok
      | del => trivial
    | error code =>
      cases code with
      | internal | invalidRequest => cases cmd <;> exact hmsg _
      | keyNotFound =>
        cases cmd with
        | set => exact hmsg _
        | del | get => trivial

/-- The replies of a server are read back one by one, each as the value it is meant to be. -/
theorem resp_replies_unforgeable (replies : List Reply) (h : ∀ r ∈ replies, r.Fits) :
    valueReader.readAll (replies.flatMap Reply.bytes) = (replies.map Reply.value, .ok ()) := by
  rw [List.flatMap_def]
  refine Reader.readAll_words ?_ (Reader.decode_nil readFrameResp_nil)
  rw [List.forall₂_map_left_iff, List.forall₂_map_right_iff, List.forall₂_same]
  intro r hr
  exact valueReader_reads (Reply.framable (h r hr)) (Reply.parse (h r hr))

/-- Replies whose content looks like other replies. -/
theorem resp_replies_unforgeable_lookalikes :
    valueReader.readAll ([.error "unknown command 'x'\r\n+OK\r\n'",
        .response .get (.value "\r\n$-1\r\n"), .configGet [asBytes "*1\r\n", []],
        .response .del (.error .keyNotFound)].flatMap Reply.bytes) =
      ([.error (asBytes "ERR unknown command 'x'  +OK  '"),
        .bulkString (some (asBytes "\r\n$-1\r\n")),
        .array [.bulkString (some (asBytes "*1\r\n")), .bulkString (some []), .bulkString (some []),
          .bulkString (some [])],
        .integer 0], .ok ()) := by
  have hmsg : oneLine "unknown command 'x'\r\n+OK\r\n'" = "unknown command 'x'  +OK  '" := by
    decide +kernel
  have herr : asBytes "ERR unknown command 'x'  +OK  '" =
      asBytes ("ERR " ++ oneLine "unknown command 'x'\r\n+OK\r\n'") := by
    rw [hmsg]
    decide +kernel
  rw [herr]
  exact resp_replies_unforgeable _ (by decide)

end Bitcask
