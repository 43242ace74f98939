import Bitcask.Network.Protocol
import Bitcask.Storage.Decimal

/-!
# RESP2

The subset of the Redis protocol the server speaks: framing (`read_frame_resp`), parsing
(`parse_resp`), decoding of requests and writing of replies. Framing reads line by line with a count
of the values still to come, and parsing is a recursion over the values. `String::from_utf8_lossy`,
which only shows a client its own command name, is a parameter.
-/

namespace Bitcask

open LittleEndian StreamCodec

def maxArrayLen : ℕ := 2 ^ 20

def maxDepth : ℕ := 32

/-- `nullArray` is `Array(None)`. -/
inductive RespValue
  | simpleString (body : Bytes)
  | error (body : Bytes)
  | integer (i : ℤ)
  | bulkString (data : Option Bytes)
  | nullArray
  | array (items : List RespValue)
  deriving Repr

inductive RespCommand
  | get
  | set
  | del
  deriving DecidableEq, Repr

inductive RespRequest
  | kv (req : Request)
  | configGet (names : List Bytes)
  deriving DecidableEq, Repr

/-- `RespCommand::from`. -/
def RespCommand.ofRequest : Request → RespCommand
  | .get _ => .get
  | .set _ _ => .set
  | .rm _ => .del

def protocolError (msg : String) : KvsError := .invalidData ("Protocol error: " ++ msg)

def unexpectedEof : KvsError := .io ⟨.unexpectedEof, "torn RESP frame"⟩

def crlf : Bytes := [13, 10]

/-- The bytes `+`, `-`, `:`, `$` and `*` that start a value. -/
def simpleByte : UInt8 := 43

def errorByte : UInt8 := 45

def integerByte : UInt8 := 58

def bulkByte : UInt8 := 36

def arrayByte : UInt8 := 42

def isResp (msgType : UInt8) : Bool :=
  msgType = simpleByte || msgType = errorByte || msgType = integerByte || msgType = bulkByte ||
    msgType = arrayByte

/-! ## Numbers -/

/-- The length after `$` or `*`; `-1` is null. -/
def parseLen (body : Bytes) : Except KvsError (Option ℕ) :=
  if body = [45, 49] then .ok none
  else if body = [] ∨ body.length > 10 ∨ ¬ body.all isDigit then
    .error (protocolError "invalid length")
  else .ok (some (digitsToNat body))

/-- `i64::from_str`: an optional sign, and digits of a number in range. -/
def i64FromStr : Bytes → Option ℤ
  | [] => none
  | c :: digits =>
    if c = 45 then (boundedDigits (2 ^ 63) digits).map fun (n : ℕ) => -(n : ℤ)
    else if c = 43 then (boundedDigits (2 ^ 63 - 1) digits).map fun (n : ℕ) => (n : ℤ)
    else (boundedDigits (2 ^ 63 - 1) (c :: digits)).map fun (n : ℕ) => (n : ℤ)

def parseI64 (body : Bytes) : Except KvsError ℤ :=
  match (String.fromUTF8? ⟨body.toArray⟩).bind fun _ => i64FromStr body with
  | some i => .ok i
  | none => .error (protocolError "invalid integer")

/-! ## Framing -/

/-- `BufRead::read_until`: the bytes up to and including `stop`, or all, and the rest. -/
def readUntil (stop : UInt8) : Bytes → Bytes × Bytes
  | [] => ([], [])
  | b :: s => if b = stop then ([b], s) else (b :: (readUntil stop s).1, (readUntil stop s).2)

/-- The `match kind` of `read_frame_resp`, when the line is read: the frame so far, the values still
to come and the rest of the stream. -/
def frameValue (kind : UInt8) (body frame : Bytes) (pending : ℕ) (stream : Bytes) :
    Except KvsError (Bytes × ℕ × Bytes) :=
  if kind = simpleByte ∨ kind = errorByte ∨ kind = integerByte then .ok (frame, pending, stream)
  else if kind = bulkByte then do
    match ← parseLen body with
    | none => .ok (frame, pending, stream)
    | some len =>
      if len > maxPayload then .error (protocolError "bulk string too large")
      else
        let (data, stream) ← readExact (len + 2) stream
        if ¬ crlf.isSuffixOf (frame ++ data) then
          .error (protocolError "bulk string not CRLF-terminated")
        else .ok (frame ++ data, pending, stream)
  else if kind = arrayByte then do
    match ← parseLen body with
    | none => .ok (frame, pending, stream)
    | some len =>
      if len > maxArrayLen ∨ pending + len > maxArrayLen then
        .error (protocolError "array too large")
      else .ok (frame, pending + len, stream)
  else .error (protocolError "unknown type byte")

/-- One round of the loop of `read_frame_resp`, after `pending -= 1`. `none` is a clean end of the
stream. -/
def frameRound (frame : Bytes) (pending : ℕ) (stream : Bytes) :
    Except KvsError (Option (Bytes × ℕ × Bytes)) :=
  let (line, stream) := readUntil 10 stream
  if line = [] then if frame = [] then .ok none else .error unexpectedEof
  else if line.length < 3 ∨ ¬ crlf.isSuffixOf line then
    .error (protocolError "expected CRLF-terminated line")
  else
    (frameValue (line.headD 0) (slice line 1 (line.length - 2)) (frame ++ line) pending stream).map
      some

/-! ## Parsing -/

/-- The position of the first `\r\n`. -/
def findCrlf : Bytes → Option ℕ
  | [] | [_] => none
  | a :: b :: s => if a = 13 ∧ b = 10 then some 0 else (findCrlf (b :: s)).map (· + 1)

/-- `<kind><body>\r\n`, and the bytes consumed. -/
def takeLine (buf : Bytes) : Except KvsError (UInt8 × Bytes × ℕ) :=
  match findCrlf buf with
  | none => .error (protocolError "expected CRLF-terminated line")
  | some 0 => .error (protocolError "empty line")
  | some (stop + 1) => .ok (buf.headD 0, slice buf 1 (stop + 1), stop + 3)

/-- The loop over the items of an array, each read by `item`. -/
def parseItems (item : Bytes → Except KvsError (RespValue × ℕ)) :
    ℕ → Bytes → Except KvsError (List RespValue × ℕ)
  | 0, _ => .ok ([], 0)
  | len + 1, buf => do
    let (v, n) ← item buf
    let (vs, m) ← parseItems item len (buf.drop n)
    .ok (v :: vs, n + m)

/-- `parse_value` when `levels` more levels are allowed. -/
def parseLevels : ℕ → Bytes → Except KvsError (RespValue × ℕ)
  | 0, _ => .error (protocolError "nesting too deep")
  | levels + 1, buf => do
    let (kind, body, used) ← takeLine buf
    if kind = simpleByte then .ok (.simpleString body, used)
    else if kind = errorByte then .ok (.error body, used)
    else if kind = integerByte then do
      let i ← parseI64 body
      .ok (.integer i, used)
    else if kind = bulkByte then do
      match ← parseLen body with
      | none => .ok (.bulkString none, used)
      | some len =>
        if buf.length < used + len then .error (protocolError "short bulk string")
        else if slice buf (used + len) (used + len + 2) ≠ crlf then
          .error (protocolError "bulk string not CRLF-terminated")
        else .ok (.bulkString (some (slice buf used (used + len))), used + (len + 2))
    else if kind = arrayByte then do
      match ← parseLen body with
      | none => .ok (.nullArray, used)
      | some len =>
        let (items, n) ← parseItems (parseLevels levels) len (buf.drop used)
        .ok (.array items, used + n)
    else .error (protocolError "unknown type byte")

def parseValue (buf : Bytes) (depth : ℕ) : Except KvsError (RespValue × ℕ) :=
  parseLevels (maxDepth + 1 - depth) buf

def parseResp (buf : Bytes) : Except KvsError RespValue := do
  let (value, used) ← parseValue buf 0
  if used ≠ buf.length then .error (protocolError "trailing bytes after value")
  else .ok value

/-! ## Requests and replies -/

/-- `u8::to_ascii_uppercase`. -/
def toUpper (b : UInt8) : UInt8 := if 97 ≤ b ∧ b ≤ 122 then b - 32 else b

/-- `eq_ignore_ascii_case`. -/
def eqIgnoreCase (a b : Bytes) : Bool := a.map toUpper = b.map toUpper

/-- The data of a bulk string. -/
def bulkArg : RespValue → Except KvsError Bytes
  | .bulkString (some b) => .ok b
  | _ => .error (protocolError "expected bulk string")

section Requests

variable (fromUtf8Lossy : Bytes → String)

/-- The check of the number of arguments. -/
def checkArgs (name : Bytes) (args : List Bytes) (expected : ℕ) : Except KvsError Unit :=
  if args.length = expected then .ok ()
  else .error (.invalidData ("wrong number of arguments for '" ++ (fromUtf8Lossy name).toLower ++
    "' command"))

/-- The command `name` with its arguments. -/
def decodeCommand (name : Bytes) (args : List Bytes) : Except KvsError RespRequest :=
  if eqIgnoreCase name (asBytes "GET") then do
    checkArgs fromUtf8Lossy name args 1
    let key ← utf8 (args.getD 0 [])
    .ok (.kv (.get key))
  else if eqIgnoreCase name (asBytes "SET") then do
    checkArgs fromUtf8Lossy name args 2
    let key ← utf8 (args.getD 0 [])
    let value ← utf8 (args.getD 1 [])
    .ok (.kv (.set key value))
  else if eqIgnoreCase name (asBytes "DEL") then do
    checkArgs fromUtf8Lossy name args 1
    let key ← utf8 (args.getD 0 [])
    .ok (.kv (.rm key))
  else if eqIgnoreCase name (asBytes "CONFIG") then
    match args with
    | sub :: names =>
      if eqIgnoreCase sub (asBytes "GET") then .ok (.configGet names)
      else .error (.invalidData "unknown subcommand for 'config' command")
    | [] => .error (.invalidData "unknown subcommand for 'config' command")
  else .error (.invalidData ("unknown command '" ++ fromUtf8Lossy name ++ "'"))

def decodeRequestResp (frame : Bytes) : Except KvsError RespRequest := do
  let value ← parseResp frame
  match value with
  | .array (item :: items) => do
    let args ← (item :: items).mapM bulkArg
    decodeCommand fromUtf8Lossy (args.headD []) args.tail
  | _ => .error (protocolError "expected non-empty array")

end Requests

/-- `ErrorCode` as it is shown. -/
def ErrorCode.display : ErrorCode → String
  | .keyNotFound => "Key not found"
  | .internal => "Internal server error"
  | .invalidRequest => "Invalid request"

/-- A bulk string on the wire. -/
def writeBulk (data : Bytes) : Bytes := [bulkByte] ++ decimal data.length ++ crlf ++ data ++ crlf

/-- `msg.replace(['\r', '\n'], " ")`. -/
def oneLine (msg : String) : String := msg.map fun c => if c = '\r' ∨ c = '\n' then ' ' else c

def writeError (msg : String) : Bytes := asBytes ("-ERR " ++ oneLine msg) ++ crlf

def writeResponseResp (cmd : RespCommand) (resp : Response) : Bytes :=
  match cmd, resp with
  | _, .value v => writeBulk (asBytes v)
  | .del, .ok => asBytes ":1\r\n"
  | .del, .error .keyNotFound => asBytes ":0\r\n"
  | .get, .error .keyNotFound => asBytes "$-1\r\n"
  | _, .ok => asBytes "+OK\r\n"
  | _, .error code => writeError code.display

/-- The array `[name, "", name, "", …]`. -/
def writeConfigGet (names : List Bytes) : Bytes :=
  [arrayByte] ++ decimal (names.length * 2) ++ crlf ++
    names.flatMap fun name => writeBulk name ++ writeBulk []

end Bitcask
