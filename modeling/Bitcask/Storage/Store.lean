import Std.Data.TreeMap
import Bitcask.Lib.FileSystem
import Bitcask.Storage.Index
import Bitcask.Storage.RecordReader

/-!
# The state of an open store

A running store is a directory, the shared structures (`Shared`: the index, the readers map and
the writer state behind its mutex) and two threads of control that change them: whoever holds the
writer lock, and the compaction thread. The programs of both are cut at the points where the
other may observe them, so `Lock` says how far the lock holder is and `Merge` how far
`run_compaction` is.

The channel that wakes the compaction thread is in `Lifecycle`. Here `run_compaction` may be entered
at any time, which is more than the channel allows. Counters and file ids are natural numbers.
-/

namespace Bitcask

open LittleEndian FileSystem

/-- The names in the store directory that `open` gives a meaning: `000001.data`,
`000001.data.compact`, `000001.hint` and `kvs.lock`. -/
inductive FileName
  | data (id : ℕ)
  | compact (id : ℕ)
  | hint (id : ℕ)
  | lock
  deriving DecidableEq, Repr

inductive DurabilityPolicy
  | syncOnEveryPut
  | syncOnInterval
  | osDecides
  deriving DecidableEq, Repr

/-- `Config` without the directory and the engine. -/
structure Config where
  durabilityPolicy : DurabilityPolicy
  fileSizeThreshold : ℕ
  compactionThreshold : ℕ
  flushThresholdMillis : ℕ
  deriving DecidableEq, Repr

/-- `Config::new`. -/
def Config.new : Config where
  durabilityPolicy := .osDecides
  fileSizeThreshold := 2 ^ 20
  compactionThreshold := 2 ^ 20
  flushThresholdMillis := 1000

/-- A write that would make a file this long fails. -/
def maxFileLen : ℕ := 2 ^ 63

structure WriterState where
  currentFileId : ℕ
  file : Inode
  offset : ℕ
  flushedOffset : ℕ
  lastTsFlushed : ℕ
  staleBytesCount : ℕ
  deriving DecidableEq, Repr

structure PendingUpdate where
  key : Bytes
  previousValue : IndexValue
  new : IndexValue
  deriving DecidableEq, Repr

/-- `MergeOutput`; a `BufWriter` is a handle and the bytes it has not written yet. -/
structure MergeOutput where
  id : ℕ
  data : Inode
  dataBuf : Bytes
  hint : Inode
  hintBuf : Bytes
  written : ℕ
  deriving DecidableEq, Repr

namespace MergeOutput

/-- `MergeOutput::append`: the output with the record in its buffers, and where the record will
stand. -/
def append (crc : Bytes → UInt32) (out : MergeOutput) (record key : Bytes) (ts : UInt64) :
    MergeOutput × IndexValue :=
  let indexValue : IndexValue := ⟨out.id, ts, out.written, record.length⟩
  ({ out with
      dataBuf := out.dataBuf ++ record
      hintBuf := out.hintBuf ++ indexValue.serialize crc key
      written := out.written + record.length },
    indexValue)

def isFull (out : MergeOutput) (threshold : ℕ) : Bool := threshold ≤ out.written

end MergeOutput

/-- The local variables of `run_compaction` that live across its loop over the snapshot. `todo`
is the part of the snapshot not walked yet. -/
structure MergeRun where
  firstCompactedFileId : ℕ
  initStaleBytes : ℕ
  todo : List (ℕ × Inode)
  idsToRemove : List ℕ
  nextCompactionFileId : ℕ
  pendingRecords : List PendingUpdate
  deriving DecidableEq, Repr

/-- Who called `rotate_to`: `rotate_if_full` at the end of an append, or `run_compaction`. -/
inductive Caller
  | append (c : Command)
  | compaction
  deriving DecidableEq, Repr

/-- The calls of `rotate_to`, in order: sync the file that is sealed, create the next one, read
the clock, open the next file for reading. -/
inductive RotateStep
  | sync
  | create
  | clock
  | reader
  deriving DecidableEq, Repr

/-- How far the holder of the writer lock is. -/
inductive Lock
  | free
  /-- `write_all` has put `done` bytes of the record into the active file. -/
  | writing (c : Command) (done : ℕ)
  /-- The index has been updated; `handle_policy` is next. -/
  | policy (c : Command)
  | rotateIfFull (c : Command)
  | rotateTo (step : RotateStep) (nextFileId : ℕ) (caller : Caller)
  /-- A thread panicked while it held the lock. -/
  | poisoned
  deriving DecidableEq, Repr

/-- The steps of `finish_output`, in order; `updates` applies one pending index update after
another. -/
inductive FinishStep
  | syncData
  | syncHint
  | rename
  | reader
  | updates
  deriving DecidableEq, Repr

/-- How far the compaction thread is. -/
inductive Merge
  /-- Not in `run_compaction`; the result of the last call is kept. -/
  | idle (last : Option (Except KvsError Unit))
  /-- The snapshot is taken and the lock holder rotates the active file. -/
  | rotating (r : MergeRun)
  /-- At the head of the loop over the snapshot, or at its end. -/
  | nextFile (r : MergeRun) (output : Option MergeOutput)
  /-- `MergeOutput::open` has created the data file. -/
  | openHint (r : MergeRun) (id : ℕ) (data : Inode)
  /-- In the loop over the records of `fileId`. -/
  | records (r : MergeRun) (out : MergeOutput) (fileId : ℕ) (reader : RecordReader)
  | finish (step : FinishStep) (r : MergeRun) (out : MergeOutput)
  | removeData (ids : List ℕ) (initStaleBytes : ℕ)
  | removeHint (id : ℕ) (ids : List ℕ) (initStaleBytes : ℕ)
  /-- All sources are gone; the stale counter is left. -/
  | subtract (initStaleBytes : ℕ)
  /-- The compaction thread panicked. -/
  | dead

/-- A running store. -/
structure Sys where
  fs : Fs FileName
  index : Index
  readers : Std.TreeMap ℕ Inode
  writer : WriterState
  lock : Lock
  merge : Merge

/-! ## The readers map -/

section Readers

variable {readers : Std.TreeMap ℕ Inode} {id id' : ℕ} {i : Inode}

theorem readers_insert_self : (readers.insert id i)[id]? = some i := by
  rw [Std.TreeMap.getElem?_insert]; simp

theorem readers_insert_ne (h : id' ≠ id) : (readers.insert id i)[id']? = readers[id']? := by
  rw [Std.TreeMap.getElem?_insert, if_neg]
  simpa [Nat.compare_eq_eq] using h.symm

end Readers

end Bitcask
