import Bitcask.Storage.Writer

/-!
# Reading

`get` takes the lock of one bucket to copy the entry of the key, then loads the readers map, then
reads the record. Other threads may act between the three.
-/

namespace Bitcask

open LittleEndian FileSystem

/-- `read_exact_at`, decode the record, keep its last `value_len` bytes and check that they are
UTF-8. -/
def readValue (crc : Bytes → UInt32) (file : Bytes) (entry : IndexValue) :
    Except KvsError (Option String) :=
  if file.length < entry.offset + entry.len then
    .error (.io ⟨.unexpectedEof, "failed to fill whole buffer"⟩)
  else do
    let buf := slice file entry.offset (entry.offset + entry.len)
    let (deserialized, _) ← Command.deserialize crc buf
    match deserialized.getValue with
    | none => .ok none
    | some value =>
      match String.fromUTF8? ⟨(buf.drop (buf.length - value.length)).toArray⟩ with
      | none => .error .utf8
      | some text => .ok (some text)

/-- One round of the loop of `get` that no other thread interrupts; `none` is the `continue` that
looks the key up again. -/
def Sys.get (crc : Bytes → UInt32) (s : Sys) (key : String) :
    Option (Except KvsError (Option String)) :=
  match s.index.get (asBytes key) with
  | none => some (.ok none)
  | some entry =>
    match s.readers[entry.fileId]? with
    | none => none
    | some i => some (readValue crc (s.fs.bytes i) entry)

end Bitcask
