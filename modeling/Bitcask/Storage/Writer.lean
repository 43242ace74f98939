import Bitcask.Storage.Store

/-!
# The holder of the writer lock

`append`, `handle_policy`, `rotate_if_full` and `rotate_to`, one step of the lock holder at a
time. A step that reads the clock takes its value as an argument. `compaction_trigger` only wakes
the compaction thread; it is in `Lifecycle`.
-/

namespace Bitcask

open LittleEndian FileSystem

/-- The calls that append to the log. -/
inductive Call
  | set (key value : String)
  | remove (key : String)
  deriving DecidableEq, Repr

/-- The command a call appends at the time `ts`. -/
def Call.command (ts : UInt64) : Call → Command
  | .set key value => .set ts (asBytes key) (asBytes value)
  | .remove key => .rm ts (asBytes key)

namespace Sys

variable (crc : Bytes → UInt32) (cfg : Config)

/-- `Shared::sync`. -/
def sync (s : Sys) : Sys :=
  { s with
    fs := s.fs.sync s.writer.file
    writer := { s.writer with flushedOffset := s.writer.offset } }

/-- `readers_update` with an insertion. -/
def readersUpdate (s : Sys) (id : ℕ) (i : Inode) : Sys :=
  { s with readers := s.readers.insert id i }

/-- The next `n` bytes of `write_all`. The active file is in append mode, so they land at its
end. -/
def writeAll (s : Sys) (c : Command) (done n : ℕ) : Option Sys :=
  if done + n ≤ (c.serialize crc).length ∧ (s.fs.bytes s.writer.file).length + n < maxFileLen then
    some { s with
      fs := s.fs.append s.writer.file (((c.serialize crc).drop done).take n)
      lock := .writing c (done + n) }
  else none

/-- The index after an append whose record stands at the writer's offset. -/
def indexed (s : Sys) (c : Command) : Index :=
  match c with
  | .set _ _ _ =>
    s.index.insert c.getKey
      ⟨s.writer.currentFileId, c.getTimestamp, s.writer.offset, (c.serialize crc).length⟩
  | .rm _ _ => s.index.remove c.getKey

/-- The part of `append` after `write_all`: the index update, which counts the bytes of the entry
it replaces as stale, and the new offset. -/
def publish (s : Sys) (c : Command) : Sys :=
  { s with
    index := s.indexed crc c
    writer := { s.writer with
      offset := s.writer.offset + (c.serialize crc).length
      staleBytesCount :=
        s.writer.staleBytesCount + ((s.index.get c.getKey).map IndexValue.len).getD 0 }
    lock := .policy c }

/-- `handle_policy`. A clock behind `last_ts_flushed` makes the unsigned subtraction panic. -/
def handlePolicy (s : Sys) (now : ℕ) (c : Command) : Sys :=
  match cfg.durabilityPolicy with
  | .syncOnEveryPut => { s.sync with lock := .rotateIfFull c }
  | .syncOnInterval =>
    if now < s.writer.lastTsFlushed then { s with lock := .poisoned }
    else if cfg.flushThresholdMillis ≤ now - s.writer.lastTsFlushed then
      { s.sync with
        writer := { s.sync.writer with lastTsFlushed := now }
        lock := .rotateIfFull c }
    else { s with lock := .rotateIfFull c }
  | .osDecides => { s with lock := .rotateIfFull c }

def rotateIfFull (s : Sys) (c : Command) : Sys :=
  if s.writer.offset < cfg.fileSizeThreshold then { s with lock := .free }
  else { s with lock := .rotateTo .sync (s.writer.currentFileId + 1) (.append c) }

/-- The lock is released; a merge that rotated goes on to its loop. -/
def endRotate (s : Sys) (caller : Caller) : Sys :=
  match caller, s.merge with
  | .compaction, .rotating r => { s with lock := .free, merge := .nextFile r none }
  | _, _ => { s with lock := .free }

/-- `rotate_to` returned an error; a merge that rotated returns it. -/
def failRotate (s : Sys) (caller : Caller) (e : KvsError) : Sys :=
  match caller with
  | .append _ => { s with lock := .free }
  | .compaction => { s with lock := .free, merge := .idle (some (.error e)) }

/-- The next call of `rotate_to`. -/
def rotateTo (s : Sys) (now : ℕ) (step : RotateStep) (nextFileId : ℕ) (caller : Caller) : Sys :=
  match step with
  | .sync => { s.sync with lock := .rotateTo .create nextFileId caller }
  | .create =>
    { s with
      fs := s.fs.create (.data nextFileId)
      writer := { s.writer with
        file := s.fs.handle (.data nextFileId)
        currentFileId := nextFileId
        flushedOffset := 0
        offset := 0 }
      lock := .rotateTo .clock nextFileId caller }
  | .clock =>
    { s with
      writer := { s.writer with lastTsFlushed := now }
      lock := .rotateTo .reader nextFileId caller }
  | .reader =>
    match s.fs.lookup (.data nextFileId) with
    | none => s.failRotate caller (.io fileNotFound)
    | some i => (s.readersUpdate nextFileId i).endRotate caller

/-- The next step of the lock holder after `write_all`. -/
def writerStep (s : Sys) (now : ℕ) : Option Sys :=
  match s.lock with
  | .free => none
  | .writing c done => if done = (c.serialize crc).length then some (s.publish crc c) else none
  | .policy c => some (s.handlePolicy cfg now c)
  | .rotateIfFull c => some (s.rotateIfFull cfg c)
  | .rotateTo step next caller => some (s.rotateTo now step next caller)
  | .poisoned => none

/-- The call the lock holder is in fails with `e`; its error is returned and the lock released.
What `write_all` has written stays in the file. -/
def writerErr (s : Sys) (e : KvsError) : Option Sys :=
  match s.lock with
  | .writing c done => if done < (c.serialize crc).length then some { s with lock := .free } else none
  | .policy _ => if cfg.durabilityPolicy = .osDecides then none else some { s with lock := .free }
  | .rotateTo _ _ caller => some (s.failRotate caller e)
  | .free | .rotateIfFull _ | .poisoned => none

end Sys

end Bitcask
