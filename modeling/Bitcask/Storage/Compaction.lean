import Bitcask.Storage.Writer

/-!
# The compaction thread

`run_compaction` and `finish_output`, one step at a time. The compaction thread takes the writer
lock twice: to take its snapshot and rotate the active file, and to subtract the stale bytes.
In between, every filesystem call, every liveness check and every pending index update is a step
of its own.

A source is read as it is when its turn comes. It is sealed, so it stays that way.

`stepAny` is a step of a store as the source has it: `append` takes records of any length. `step` is
one in which they fit their length fields.
-/

namespace Bitcask

open LittleEndian FileSystem

namespace Sys

variable (crc : Bytes → UInt32) (cfg : Config)

/-- The sealed files in the readers map, in ascending order of their ids. -/
def snapshot (s : Sys) : List (ℕ × Inode) :=
  s.readers.toList.filter fun f => f.1 ≠ s.writer.currentFileId

/-- The bytes of the files of the snapshot. -/
def totalBytes (s : Sys) : ℕ := (s.snapshot.map fun f => (s.fs.bytes f.2).length).sum

/-- `run_compaction` up to its rotation; `none` while someone else holds the writer lock. The
division by a zero threshold panics with the lock held. -/
def runCompaction (s : Sys) : Option Sys :=
  match s.lock with
  | .poisoned => some { s with merge := .idle (some (.error .lockPoisoned)) }
  | .free =>
    if s.writer.staleBytesCount < cfg.compactionThreshold then
      some { s with merge := .idle (some (.ok ())) }
    else if s.snapshot = [] then some { s with merge := .idle (some (.ok ())) }
    else if cfg.fileSizeThreshold = 0 then some { s with lock := .poisoned, merge := .dead }
    else
      let current := s.writer.currentFileId
      let reserve := s.totalBytes / cfg.fileSizeThreshold + 2
      some { s with
        lock := .rotateTo .sync (current + reserve + 1) .compaction
        merge := .rotating ⟨current, s.writer.staleBytesCount, s.snapshot, [], current, []⟩ }
  | _ => none

/-- The output's handles write bytes at the end of its two files. -/
def writeOutput (s : Sys) (out : MergeOutput) (data hint : Bytes) : Sys :=
  { s with fs := (s.fs.append out.data data).append out.hint hint }

/-- `run_compaction` returns an error. -/
def failMerge (s : Sys) (e : KvsError) : Sys := { s with merge := .idle (some (.error e)) }

/-- `run_compaction` returns an error while it holds an output: a dropped `BufWriter` flushes. -/
def failOutput (s : Sys) (out : MergeOutput) (e : KvsError) : Sys :=
  (s.writeOutput out out.dataBuf out.hintBuf).failMerge e

/-- The head of the loop over the snapshot; after the last file, the last output is finished and
the sources are removed. -/
def nextFile (s : Sys) (r : MergeRun) (output : Option MergeOutput) : Sys :=
  match r.todo, output with
  | [], some out => { s with merge := .finish .syncData r out }
  | [], none => { s with merge := .removeData r.idsToRemove r.initStaleBytes }
  | (fileId, i) :: rest, some out =>
    { s with
      merge := .records { r with todo := rest } out fileId
        (RecordReader.new (s.fs.bytes i) (s.fs.bytes i).length) }
  | _ :: _, none =>
    let id := r.nextCompactionFileId + 1
    { s with
      fs := s.fs.create (.compact id)
      merge := .openHint { r with nextCompactionFileId := id } id (s.fs.handle (.compact id)) }

/-- The second half of `MergeOutput::open`. -/
def openHint (s : Sys) (r : MergeRun) (id : ℕ) (data : Inode) : Sys :=
  { s with
    fs := s.fs.create (.hint id)
    merge := .nextFile r (some ⟨id, data, [], s.fs.handle (.hint id), [], 0⟩) }

/-- The index entry of `key` is at this position. -/
def sitsInIndex (s : Sys) (key : Bytes) (fileId position : ℕ) : Bool :=
  match s.index.get key with
  | some e => e.fileId = fileId ∧ e.offset = position
  | none => false

/-- A record of a source: a live one is copied, the rest is skipped. -/
def mergeRecord (s : Sys) (r : MergeRun) (out : MergeOutput) (fileId position : ℕ) (bytes : Bytes)
    (reader : RecordReader) : Sys :=
  match Command.deserialize crc bytes with
  | .error e => s.failOutput out e
  | .ok (.rm _ _, _) => { s with merge := .records r out fileId reader }
  | .ok (.set ts key _, _) =>
    if s.sitsInIndex key fileId position then
      let (out, new) := out.append crc bytes key ts
      let pending : PendingUpdate := ⟨key, ⟨fileId, ts, position, bytes.length⟩, new⟩
      { s with
        merge := .records { r with pendingRecords := r.pendingRecords ++ [pending] } out fileId
          reader }
    else { s with merge := .records r out fileId reader }

/-- One round of the loop over the records of a source. -/
def mergeRecords (s : Sys) (r : MergeRun) (out : MergeOutput) (fileId : ℕ)
    (reader : RecordReader) : Sys :=
  match reader.nextRecord with
  | none => { s with merge := .dead }
  | some (.tornTail _, _) => s.failOutput out .corruption
  | some (.cleanEof, _) =>
    let r := { r with idsToRemove := r.idsToRemove ++ [fileId] }
    if out.isFull cfg.fileSizeThreshold then { s with merge := .finish .syncData r out }
    else { s with merge := .nextFile r (some out) }
  | some (.record position bytes, reader) => s.mergeRecord crc r out fileId position bytes reader

/-- One pending update: the entry moves to its copy if it is still where it was. -/
def applyPending (index : Index) (p : PendingUpdate) : Index :=
  match index.get p.key with
  | some e =>
    if e.fileId = p.previousValue.fileId ∧ e.offset = p.previousValue.offset then
      index.insert p.key p.new
    else index
  | none => index

/-- The next step of `finish_output`; `none` when a flush would make the file too long. -/
def finishOutput (s : Sys) (step : FinishStep) (r : MergeRun) (out : MergeOutput) : Option Sys :=
  match step with
  | .syncData =>
    if (s.fs.bytes out.data).length + out.dataBuf.length < maxFileLen then
      some { s with
        fs := (s.fs.append out.data out.dataBuf).sync out.data
        merge := .finish .syncHint r { out with dataBuf := [] } }
    else none
  | .syncHint =>
    some { s with
      fs := (s.fs.append out.hint out.hintBuf).sync out.hint
      merge := .finish .rename r { out with hintBuf := [] } }
  | .rename =>
    match s.fs.lookup (.compact out.id) with
    | none => some (s.failOutput out (.io fileNotFound))
    | some _ =>
      some { s with
        fs := s.fs.rename (.compact out.id) (.data out.id)
        merge := .finish .reader r out }
  | .reader =>
    match s.fs.lookup (.data out.id) with
    | none => some (s.failOutput out (.io fileNotFound))
    | some i => some { s.readersUpdate out.id i with merge := .finish .updates r out }
  | .updates =>
    match r.pendingRecords with
    | [] => some { s with merge := .nextFile r none }
    | p :: ps =>
      some { s with
        index := applyPending s.index p
        merge := .finish .updates { r with pendingRecords := ps } out }

/-- Remove the next source. -/
def removeData (s : Sys) (ids : List ℕ) (initStaleBytes : ℕ) : Sys :=
  match ids with
  | [] => { s with merge := .subtract initStaleBytes }
  | id :: ids =>
    match s.fs.lookup (.data id) with
    | none => s.failMerge (.io fileNotFound)
    | some _ =>
      { s with fs := s.fs.unlink (.data id), merge := .removeHint id ids initStaleBytes }

/-- Remove the hint of a source, if it has one. -/
def removeHint (s : Sys) (id : ℕ) (ids : List ℕ) (initStaleBytes : ℕ) : Sys :=
  { s with fs := s.fs.unlink (.hint id), merge := .removeData ids initStaleBytes }

/-- The last step of `run_compaction`; `none` while someone else holds the writer lock. -/
def subtractStale (s : Sys) (initStaleBytes : ℕ) : Option Sys :=
  match s.lock with
  | .poisoned => some (s.failMerge .lockPoisoned)
  | .free =>
    if s.writer.staleBytesCount < initStaleBytes then
      some { s with lock := .poisoned, merge := .dead }
    else
      some { s with
        writer := { s.writer with staleBytesCount := s.writer.staleBytesCount - initStaleBytes }
        merge := .idle (some (.ok ())) }
  | _ => none

/-- The next step of the compaction thread inside `run_compaction`. -/
def mergeStep (s : Sys) : Option Sys :=
  match s.merge with
  | .idle _ | .rotating _ | .dead => none
  | .nextFile r output => some (s.nextFile r output)
  | .openHint r id data => some (s.openHint r id data)
  | .records r out fileId reader => some (s.mergeRecords crc cfg r out fileId reader)
  | .finish step r out => s.finishOutput step r out
  | .removeData ids stale => some (s.removeData ids stale)
  | .removeHint id ids stale => some (s.removeHint id ids stale)
  | .subtract stale => s.subtractStale stale

/-- The output the compaction thread holds. -/
def heldOutput : Merge → Option MergeOutput
  | .nextFile _ output => output
  | .records _ out _ _ => some out
  | .finish _ _ out => some out
  | _ => none

/-- The same point of `run_compaction` with another state of its output. -/
def withOutput (out : MergeOutput) : Merge → Merge
  | .nextFile r (some _) => .nextFile r (some out)
  | .records r _ fileId reader => .records r out fileId reader
  | .finish step r _ => .finish step r out
  | m => m

/-- The `BufWriter`s of the output write `n` and `m` of their bytes to the files. -/
def spill (s : Sys) (n m : ℕ) : Option Sys :=
  match heldOutput s.merge with
  | none => none
  | some out =>
    if (s.fs.bytes out.data).length + n < maxFileLen then
      some { s.writeOutput out (out.dataBuf.take n) (out.hintBuf.take m) with
        merge := withOutput
          { out with dataBuf := out.dataBuf.drop n, hintBuf := out.hintBuf.drop m } s.merge }
    else none

/-- The points of `run_compaction` whose next call is on the filesystem. -/
def callsFs : Merge → Bool
  | .nextFile r _ => r.todo ≠ []
  | .openHint _ _ _ | .records _ _ _ _ => true
  | .finish step _ _ => step ≠ .updates
  | .removeData ids _ => ids ≠ []
  | .removeHint _ _ _ => true
  | .idle _ | .rotating _ | .subtract _ | .dead => false

/-- The filesystem call the compaction thread is in fails, and `run_compaction` returns its error.
If it holds an output, its handles may have written more bytes to the two files: what the failed
call and the flush of the dropped buffers got through. -/
def mergeErr (s : Sys) (e : IoError) (data hint : Bytes) : Option Sys :=
  if callsFs s.merge then
    match heldOutput s.merge with
    | some out => some ((s.writeOutput out data hint).failMerge (.io e))
    | none => some (s.failMerge (.io e))
  else none

end Sys

/-! ## One step of a running store -/

/-- What can happen next in a running store. -/
inductive Act
  /-- A call takes the writer lock. -/
  | begin (call : Call) (ts : UInt64)
  /-- The lock holder writes `n` more bytes of its record. -/
  | write (n : ℕ)
  /-- The lock holder does its next step, at the time `now`. -/
  | writer (now : ℕ)
  /-- The compaction thread enters `run_compaction`. -/
  | start
  | merge
  | spill (n m : ℕ)
  | writerErr (e : KvsError)
  | mergeErr (e : IoError) (data hint : Bytes)
  deriving DecidableEq, Repr

/-- One step; `none` when the action is not possible in the state. `append` takes the lock whatever
the length of its record. -/
def stepAny (crc : Bytes → UInt32) (cfg : Config) (s : Sys) : Act → Option Sys
  | .begin call ts =>
    if s.lock = .free then some { s with lock := .writing (call.command ts) 0 } else none
  | .write n =>
    match s.lock with
    | .writing c done => s.writeAll crc c done n
    | _ => none
  | .writer now => s.writerStep crc cfg now
  | .start =>
    match s.merge with
    | .idle _ => s.runCompaction cfg
    | _ => none
  | .merge => s.mergeStep crc cfg
  | .spill n m => s.spill n m
  | .writerErr e => s.writerErr crc cfg e
  | .mergeErr e data hint => s.mergeErr e data hint

/-- The record of an append that begins has a body below 4 GiB. -/
def Act.Fits : Act → Prop
  | .begin call ts => (call.command ts).Fits
  | _ => True

instance : DecidablePred Act.Fits
  | .begin call ts => inferInstanceAs (Decidable (call.command ts).Fits)
  | .write _ | .writer _ | .start | .merge | .spill _ _ | .writerErr _ | .mergeErr _ _ _ =>
    .isTrue trivial

theorem Act.fits_of_ne {a : Act} (h : ∀ call ts, a ≠ .begin call ts) : a.Fits := by
  cases a with
  | begin call ts => exact absurd rfl (h call ts)
  | _ => trivial

/-- One step in which only appends begin whose records fit their length fields. -/
def step (crc : Bytes → UInt32) (cfg : Config) (s : Sys) (a : Act) : Option Sys :=
  if a.Fits then stepAny crc cfg s a else none

theorem step_eq_some {crc : Bytes → UInt32} {cfg : Config} {s s' : Sys} {a : Act} :
    step crc cfg s a = some s' ↔ a.Fits ∧ stepAny crc cfg s a = some s' := by
  rw [step]
  split
  · simp only [*, true_and]
  · simp only [*, false_and, reduceCtorEq]

theorem step_of_fits {crc : Bytes → UInt32} {cfg : Config} {s : Sys} {a : Act} (h : a.Fits) :
    step crc cfg s a = stepAny crc cfg s a := if_pos h

end Bitcask
