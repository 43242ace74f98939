import Bitcask.Storage.World

/-!
# Failing filesystem calls

A `write_all` that fails leaves the bytes it has written at the end of the active file, and the
writer's offset behind them. A merge whose last `open` fails leaves an output that no readers map
knows. Both break the store later on. The theorems of this file say that nothing else does: if no
call begins on a file with leftover bytes (`append_failure_harmless`), and if no file is left without
a handle (`merge_failure_harmless`), every `get` and every recovery agrees with a plain map.

A `rotate_to` that fails once the next file is the active one leaves that file without a handle, and
a `get` of a key written to it retries forever. One that fails before does no harm
(`rotation_failure_harmless`).
-/

namespace Bitcask

open LittleEndian FileSystem

variable {crc : Bytes → UInt32} {ops : List Command} {w : World}

/-- A full disk. -/
def noSpace : IoError := ⟨.other, "No space left on device (os error 28)"⟩

/-! ## Failing appends -/

/-- No call fails but `write_all` in an append. -/
def onlyWritesFail (s : Sys) : Act → Bool
  | .writerErr _ => s.lock.isWriting
  | .mergeErr _ _ _ => false
  | _ => true

/-- A call begins, or a merge starts, only when the active file ends at the writer's offset. -/
def BeginsAtEnd (s : Sys) : Act → Prop
  | .begin _ _ | .start => (s.fs.bytes s.writer.file).length = s.writer.offset
  | _ => True

instance (s : Sys) (a : Act) : Decidable (BeginsAtEnd s a) :=
  match a with
  | .begin _ _ | .start => inferInstanceAs (Decidable (_ = _))
  | .write _ | .writer _ | .merge | .spill _ _ | .writerErr _ | .mergeErr _ _ _ => .isTrue trivial

theorem stepOk_of_beginsAtEnd {s : Sys} {a : Act} (hw : onlyWritesFail s a) (hb : BeginsAtEnd s a)
    (hf : a.Fits) : StepOk s a := by
  cases a with
  | begin call ts => exact ⟨⟨hb, hf⟩, trivial⟩
  | start => exact ⟨trivial, hb⟩
  | writerErr e =>
    refine ⟨?_, trivial⟩
    show s.lock.opening = false
    have hw : s.lock.isWriting := hw
    cases hl : s.lock with
    | writing c done => rfl
    | _ => rw [hl] at hw; cases hw
  | mergeErr e data hint => cases hw
  | write | writer | merge | spill => exact ⟨trivial, trivial⟩

/-- As long as every call begins on a file without leftover bytes, failed appends do no harm. -/
theorem append_failure_harmless
    (h : Reach crc (fun s a => onlyWritesFail s a ∧ BeginsAtEnd s a) w ops) : w.Sound crc ops :=
  (reach_inv (h.mono fun hf hp => stepOk_of_beginsAtEnd hp.1 hp.2 hf)).sound

/-- A set that fails before its first byte, and one that succeeds. -/
def failedEarly : List Act :=
  [.begin (.set "a" "1") 0, .writerErr (.io noSpace)] ++ Call.acts crc32 (.set "b" "2") 3

theorem append_failure_harmless_early : ∃ s,
    steps crc32 Config.new (fun s a => onlyWritesFail s a ∧ BeginsAtEnd s a) failedEarly
      (emptyStore crc32) = some s ∧
    World.Sound crc32 (finishedBy crc32 Config.new failedEarly (emptyStore crc32))
      (.running Config.new s) := by
  have hsome : (steps crc32 Config.new (fun s a => onlyWritesFail s a ∧ BeginsAtEnd s a) failedEarly
      (emptyStore crc32)).isSome := by decide +kernel
  obtain ⟨s, hs⟩ := Option.isSome_iff_exists.mp hsome
  exact ⟨s, hs, append_failure_harmless (Reach.firstSession hs)⟩

/-- A set that fails after five bytes, and one that succeeds. -/
def failedLate : List Act :=
  [.begin (.set "a" "1") 0, .write 5, .writerErr (.io noSpace)] ++ Call.acts crc32 (.set "b" "2") 3

/-- After a `write_all` that failed midway, a successful set cannot be read, and the next `open` drops
it without an error. -/
theorem failed_write_loses_set : ∃ s s',
    steps crc32 Config.new (fun s a => onlyWritesFail s a) failedLate (emptyStore crc32) = some s ∧
    finishedBy crc32 Config.new failedLate (emptyStore crc32) = [.set 0 (asBytes "b") (asBytes "2")] ∧
    s.lock = .free ∧
    s.get crc32 "b" = some (.error (.io ⟨.unexpectedEof, "incomplete command"⟩)) ∧
    (s.fs.create .lock).Lists [.lock, .data 1] ∧
    reopen crc32 [.lock, .data 1] s.fs = some s' ∧ s'.get crc32 "b" = some (.ok none) := by
  have hrun : ((steps crc32 Config.new (fun s a => onlyWritesFail s a) failedLate
      (emptyStore crc32)).any fun s => s.lock = .free ∧
        s.get crc32 "b" = some (.error (.io ⟨.unexpectedEof, "incomplete command"⟩)) ∧
        [.lock, .data 1].toFinset = (s.fs.create .lock).dir.keys ∧
        (reopen crc32 [.lock, .data 1] s.fs).any fun s' => s'.get crc32 "b" = some (.ok none)) := by
    decide +kernel
  obtain ⟨s, hs, hc⟩ := (Option.any_eq_true ..).mp hrun
  obtain ⟨hl, hget, hkeys, hre⟩ := of_decide_eq_true hc
  obtain ⟨s', hs', hget'⟩ := (Option.any_eq_true ..).mp hre
  exact ⟨s, s', hs, by decide +kernel, hl, hget, Fs.lists_of_keys (by decide) hkeys, hs',
    of_decide_eq_true hget'⟩

/-! ## Failing merges -/

def Lock.forMerge : Lock → Bool
  | .rotateTo _ _ .compaction => true
  | _ => false

/-- No call fails but those of merges. -/
def onlyMergesFail (s : Sys) : Act → Bool
  | .writerErr _ => s.lock.forMerge
  | _ => true

/-- The call that fails opens neither the renamed output nor the new active file. -/
def KeepsHandles (s : Sys) : Act → Prop
  | .writerErr _ => s.lock.opening = false
  | .mergeErr _ _ _ => s.merge.renamed = none
  | _ => True

instance (s : Sys) (a : Act) : Decidable (KeepsHandles s a) :=
  match a with
  | .writerErr _ | .mergeErr _ _ _ => inferInstanceAs (Decidable (_ = _))
  | .begin _ _ | .start | .write _ | .writer _ | .merge | .spill _ _ => .isTrue trivial

theorem tidy_of_keepsHandles {s : Sys} {a : Act} (hm : onlyMergesFail s a) (hk : KeepsHandles s a) :
    Tidy s a := by
  cases a with
  | writerErr e =>
    refine ⟨hk, fun c done hl => ?_⟩
    have hm : s.lock.forMerge := hm
    rw [hl] at hm; cases hm
  | mergeErr e data hint => exact hk
  | _ => trivial

/-- As long as no file is left without a handle, failed merges do no harm. -/
theorem merge_failure_harmless
    (h : Reach crc (fun s a => onlyMergesFail s a ∧ KeepsHandles s a) w ops) : w.Sound crc ops :=
  (reach_inv (h.benign fun hp => tidy_of_keepsHandles hp.1 hp.2).1).sound

/-- A merge that fails to create its first output, and one more set. -/
def mergeFailedEarly : List Act :=
  Call.acts crc32 (.set "a" "1") 7 ++ Call.acts crc32 (.set "a" "2") 7 ++ mergeActs 0 ++
    [.mergeErr noSpace [] []] ++ Call.acts crc32 (.set "b" "3") 7

theorem merge_failure_harmless_early : ∃ s,
    steps crc32 smallFiles (fun s a => onlyMergesFail s a ∧ KeepsHandles s a) mergeFailedEarly
      (emptyStore crc32) = some s ∧
    World.Sound crc32 (finishedBy crc32 smallFiles mergeFailedEarly (emptyStore crc32))
      (.running smallFiles s) := by
  have hsome : (steps crc32 smallFiles (fun s a => onlyMergesFail s a ∧ KeepsHandles s a)
      mergeFailedEarly (emptyStore crc32)).isSome := by decide +kernel
  obtain ⟨s, hs⟩ := Option.isSome_iff_exists.mp hsome
  exact ⟨s, hs, merge_failure_harmless (Reach.firstSession hs)⟩

/-- A merge that renames its output and fails to open it, a remove, and a second merge that
succeeds. -/
def mergeFailedLate : List Act :=
  Call.acts crc32 (.set "a" "1") 7 ++ Call.acts crc32 (.set "a" "2") 7 ++ mergeActs 11 ++
    [.mergeErr ⟨.other, "Too many open files (os error 24)"⟩ [] []] ++
    Call.acts crc32 (.remove "a") 7 ++ mergeActs 30

/-- The output left behind by the failed merge brings the removed key back. -/
theorem failed_merge_resurrects_key : ∃ s fs s',
    steps crc32 smallFiles (fun s a => onlyMergesFail s a) mergeFailedLate (emptyStore crc32) = some s ∧
    s.merge.result = some (.ok ()) ∧ s.close = some fs ∧
    plainMap (finishedBy crc32 smallFiles mergeFailedLate (emptyStore crc32)) (asBytes "a") = none ∧
    s.get crc32 "a" = some (.ok none) ∧
    (fs.create .lock).Lists [.lock, .data 4, .hint 4, .data 61, .data 62, .hint 62, .data 140] ∧
    reopen crc32 [.lock, .data 4, .hint 4, .data 61, .data 62, .hint 62, .data 140] fs = some s' ∧
    s'.get crc32 "a" = some (.ok (some "2")) := by
  have hrun : ((steps crc32 smallFiles (fun s a => onlyMergesFail s a) mergeFailedLate
      (emptyStore crc32)).any fun s => s.merge.result = some (.ok ()) ∧
        s.get crc32 "a" = some (.ok none) ∧ s.close.any fun fs =>
          [.lock, .data 4, .hint 4, .data 61, .data 62, .hint 62, .data 140].toFinset =
            (fs.create .lock).dir.keys ∧
          (reopen crc32 [.lock, .data 4, .hint 4, .data 61, .data 62, .hint 62, .data 140] fs).any
            fun s' => s'.get crc32 "a" = some (.ok (some "2"))) := by
    decide +kernel
  obtain ⟨s, hs, hc⟩ := (Option.any_eq_true ..).mp hrun
  obtain ⟨hm, hget, hclose⟩ := of_decide_eq_true hc
  obtain ⟨fs, hfs, hc⟩ := (Option.any_eq_true ..).mp hclose
  obtain ⟨hkeys, hre⟩ := of_decide_eq_true hc
  obtain ⟨s', hs', hget'⟩ := (Option.any_eq_true ..).mp hre
  exact ⟨s, fs, s', hs, hm, hfs, by decide +kernel, hget, Fs.lists_of_keys (by decide) hkeys, hs',
    of_decide_eq_true hget'⟩

/-! ## Failing rotations -/

def Lock.rotating : Lock → Bool
  | .rotateTo _ _ _ => true
  | _ => false

/-- No call fails but those of `rotate_to`. -/
def onlyRotationsFail (s : Sys) : Act → Bool
  | .writerErr _ => s.lock.rotating
  | .mergeErr _ _ _ => false
  | _ => true

/-- A call of `rotate_to` that fails is the sync of the old file or the creation of the next one; no
other failing call leaves a part of a record or a renamed output without a handle. -/
def FailsInTime (s : Sys) : Act → Prop
  | .writerErr _ => s.lock.opening = false ∧ s.lock.isWriting = false
  | .mergeErr _ _ _ => s.merge.renamed = none
  | _ => True

instance (s : Sys) (a : Act) : Decidable (FailsInTime s a) :=
  match a with
  | .writerErr _ => inferInstanceAs (Decidable (_ ∧ _))
  | .mergeErr _ _ _ => inferInstanceAs (Decidable (_ = _))
  | .begin _ _ | .start | .write _ | .writer _ | .merge | .spill _ _ => .isTrue trivial

theorem FailsInTime.tidy {s : Sys} {a : Act} (h : FailsInTime s a) : Tidy s a := by
  cases a with
  | writerErr e =>
    refine ⟨h.1, fun c done hl => ?_⟩
    have hw : s.lock.isWriting = false := h.2
    rw [hl] at hw; cases hw
  | mergeErr e data hint => exact h
  | _ => trivial

/-- The active file has a handle, except while `rotate_to` is between creating it and opening it
for reading. -/
theorem Rep.current_handle {cfg : Config} {recs : Inode → List Command} {s : Sys}
    (h : Rep crc cfg recs s) (ho : s.lock.opening = false) :
    s.readers[s.writer.currentFileId]? = some s.writer.file := by
  have hcur := h.core.rd_cur
  unfold Sys.handles at hcur
  rw [if_neg (by simp [ho])] at hcur
  have hmr := h.merge
  cases hm : s.merge with
  | finish st r out =>
    rw [hm] at hcur hmr
    cases st with
    | reader =>
      -- the id of an output is below the one the merge rotated to
      obtain ⟨hout, -, -, bar, hrun⟩ := hmr
      have hne : s.writer.currentFileId ≠ out.id := (hrun.output_lt hout).ne'
      simp only [Merge.renamed, if_neg hne] at hcur
      exact hcur
    | _ => exact hcur
  | _ =>
    rw [hm] at hcur
    exact hcur

/-- As long as a failing `rotate_to` fails before the next file is the active one, every `get`
terminates and agrees with the plain map, and the active file has a handle whenever an append can
record it in the index. -/
theorem rotation_failure_harmless (h : Reach crc FailsInTime w ops) :
    w.Sound crc ops ∧ ∀ cfg s, w = .running cfg s → s.lock.opening = false →
      s.readers[s.writer.currentFileId]? = some s.writer.file := by
  have hinv := reach_inv (h.benign FailsInTime.tidy).1
  refine ⟨hinv.sound, ?_⟩
  rintro cfg s rfl ho
  obtain ⟨-, recs, pub, a, hl, -⟩ := hinv
  exact hl.rep.current_handle ho

/-- A set whose `rotate_to` fails to create the next file, and one that succeeds. -/
def rotationFailedEarly : List Act :=
  [.begin (.set "a" "1") 0, .write 27] ++ List.replicate 4 (.writer 0) ++
    [.writerErr (.io noSpace)] ++ Call.acts crc32 (.set "b" "2") 7

theorem rotation_failure_harmless_create : ∃ s,
    steps crc32 smallFiles FailsInTime rotationFailedEarly (emptyStore crc32) = some s ∧
    World.Sound crc32 (finishedBy crc32 smallFiles rotationFailedEarly (emptyStore crc32))
      (.running smallFiles s) ∧
    s.readers[s.writer.currentFileId]? = some s.writer.file := by
  have hrun : (steps crc32 smallFiles FailsInTime rotationFailedEarly (emptyStore crc32)).any
      fun s => s.lock.opening = false := by decide +kernel
  obtain ⟨s, hs, ho⟩ := (Option.any_eq_true ..).mp hrun
  obtain ⟨hsound, hhandle⟩ := rotation_failure_harmless (Reach.firstSession hs)
  exact ⟨s, hs, hsound, hhandle smallFiles s rfl (of_decide_eq_true ho)⟩

/-- A set whose `rotate_to` fails to open the next file for reading, and one that succeeds. -/
def rotationFailedLate : List Act :=
  [.begin (.set "a" "1") 0, .write 27] ++ List.replicate 6 (.writer 0) ++
    [.writerErr (.io ⟨.other, "Too many open files (os error 24)"⟩)] ++
    Call.acts crc32 (.set "b" "2") 7

/-- The key of the successful set cannot be read: `get` looks for a handle that is never there. -/
theorem failed_rotation_loses_handle : ∃ s,
    steps crc32 smallFiles (fun s a => onlyRotationsFail s a) rotationFailedLate
      (emptyStore crc32) = some s ∧
    finishedBy crc32 smallFiles rotationFailedLate (emptyStore crc32) =
      [.set 0 (asBytes "a") (asBytes "1"), .set 0 (asBytes "b") (asBytes "2")] ∧
    s.lock = .free ∧ s.merge.result = none ∧ s.readers[2]? = none ∧
    (s.index.get (asBytes "b")).map IndexValue.fileId = some 2 ∧ s.get crc32 "b" = none := by
  have hrun : (steps crc32 smallFiles (fun s a => onlyRotationsFail s a) rotationFailedLate
      (emptyStore crc32)).any fun s => s.lock = .free ∧ s.merge.result = none ∧
        s.readers[2]? = none ∧ (s.index.get (asBytes "b")).map IndexValue.fileId = some 2 ∧
        s.get crc32 "b" = none := by decide +kernel
  obtain ⟨s, hs, hc⟩ := (Option.any_eq_true ..).mp hrun
  exact ⟨s, hs, by decide +kernel, of_decide_eq_true hc⟩

end Bitcask
