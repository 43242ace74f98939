import Bitcask.Storage.Compaction
import Bitcask.Storage.Records

/-!
# What a step can do

`Step` lists the transitions of a running store, one constructor for each way a step function can
return. `stepAny_cases` is the only place that takes the step functions apart; the invariants are
proved by cases on `Step`.
-/

namespace Bitcask

open LittleEndian FileSystem

variable (crc : Bytes → UInt32) (cfg : Config)

/-- The transitions of the holder of the writer lock. -/
inductive WriterStep (s : Sys) : Act → Sys → Prop
  | begin (call : Call) (ts : UInt64) (hl : s.lock = .free) :
    WriterStep s (.begin call ts) { s with lock := .writing (call.command ts) 0 }
  | write (c : Command) (done n : ℕ) (hl : s.lock = .writing c done)
      (hn : done + n ≤ (c.serialize crc).length)
      (hm : (s.fs.bytes s.writer.file).length + n < maxFileLen) :
    WriterStep s (.write n)
      { s with
        fs := s.fs.append s.writer.file (((c.serialize crc).drop done).take n)
        lock := .writing c (done + n) }
  | publish (c : Command) (now : ℕ) (hl : s.lock = .writing c (c.serialize crc).length) :
    WriterStep s (.writer now) (s.publish crc c)
  | policySkip (c : Command) (now : ℕ) (hl : s.lock = .policy c)
      (hp : cfg.durabilityPolicy ≠ .syncOnEveryPut) :
    WriterStep s (.writer now) { s with lock := .rotateIfFull c }
  | policySync (c : Command) (now last : ℕ) (hl : s.lock = .policy c)
      (hp : cfg.durabilityPolicy ≠ .osDecides) :
    WriterStep s (.writer now)
      { s.sync with
        writer := { s.sync.writer with lastTsFlushed := last }
        lock := .rotateIfFull c }
  | policyPanic (c : Command) (now : ℕ) (hl : s.lock = .policy c)
      (hp : cfg.durabilityPolicy = .syncOnInterval) (hn : now < s.writer.lastTsFlushed) :
    WriterStep s (.writer now) { s with lock := .poisoned }
  | notFull (c : Command) (now : ℕ) (hl : s.lock = .rotateIfFull c)
      (ho : s.writer.offset < cfg.fileSizeThreshold) :
    WriterStep s (.writer now) { s with lock := .free }
  | full (c : Command) (now : ℕ) (hl : s.lock = .rotateIfFull c)
      (ho : cfg.fileSizeThreshold ≤ s.writer.offset) :
    WriterStep s (.writer now)
      { s with lock := .rotateTo .sync (s.writer.currentFileId + 1) (.append c) }
  | rotateSync (next now : ℕ) (caller : Caller) (hl : s.lock = .rotateTo .sync next caller) :
    WriterStep s (.writer now) { s.sync with lock := .rotateTo .create next caller }
  | rotateCreate (next now : ℕ) (caller : Caller) (hl : s.lock = .rotateTo .create next caller) :
    WriterStep s (.writer now) (s.rotateTo now .create next caller)
  | rotateClock (next now : ℕ) (caller : Caller) (hl : s.lock = .rotateTo .clock next caller) :
    WriterStep s (.writer now)
      { s with
        writer := { s.writer with lastTsFlushed := now }
        lock := .rotateTo .reader next caller }
  | rotateReader (next now : ℕ) (caller : Caller) (i : Inode)
      (hl : s.lock = .rotateTo .reader next caller) (hi : s.fs.lookup (.data next) = some i) :
    WriterStep s (.writer now) ((s.readersUpdate next i).endRotate caller)
  | rotateMissing (next now : ℕ) (caller : Caller)
      (hl : s.lock = .rotateTo .reader next caller) (hi : s.fs.lookup (.data next) = none) :
    WriterStep s (.writer now) (s.failRotate caller (.io fileNotFound))
  | failWrite (c : Command) (done : ℕ) (e : KvsError) (hl : s.lock = .writing c done)
      (hn : done < (c.serialize crc).length) :
    WriterStep s (.writerErr e) { s with lock := .free }
  | failPolicy (c : Command) (e : KvsError) (hl : s.lock = .policy c) :
    WriterStep s (.writerErr e) { s with lock := .free }
  | failRotate (st : RotateStep) (next : ℕ) (caller : Caller) (e : KvsError)
      (hl : s.lock = .rotateTo st next caller) :
    WriterStep s (.writerErr e) (s.failRotate caller e)

/-- The transitions of the compaction thread at the head of the loop over the snapshot, in the
loop over the records of a source, and in the removal of the sources. -/
inductive MergeStep (s : Sys) : Sys → Prop
  | lastOutput (r : MergeRun) (out : MergeOutput) (hm : s.merge = .nextFile r (some out))
      (ht : r.todo = []) : MergeStep s { s with merge := .finish .syncData r out }
  | scanned (r : MergeRun) (hm : s.merge = .nextFile r none) (ht : r.todo = []) :
    MergeStep s { s with merge := .removeData r.idsToRemove r.initStaleBytes }
  | source (r : MergeRun) (out : MergeOutput) (fileId : ℕ) (i : Inode) (rest : List (ℕ × Inode))
      (hm : s.merge = .nextFile r (some out)) (ht : r.todo = (fileId, i) :: rest) :
    MergeStep s
      { s with
        merge := .records { r with todo := rest } out fileId
          (RecordReader.new (s.fs.bytes i) (s.fs.bytes i).length) }
  | openData (r : MergeRun) (f : ℕ × Inode) (rest : List (ℕ × Inode))
      (hm : s.merge = .nextFile r none) (ht : r.todo = f :: rest) :
    MergeStep s
      { s with
        fs := s.fs.create (.compact (r.nextCompactionFileId + 1))
        merge := .openHint { r with nextCompactionFileId := r.nextCompactionFileId + 1 }
          (r.nextCompactionFileId + 1) (s.fs.handle (.compact (r.nextCompactionFileId + 1))) }
  | openHint (r : MergeRun) (id : ℕ) (data : Inode) (hm : s.merge = .openHint r id data) :
    MergeStep s (s.openHint r id data)
  | framePanic (r : MergeRun) (out : MergeOutput) (fileId : ℕ) (rd : RecordReader)
      (hm : s.merge = .records r out fileId rd) (hr : rd.nextRecord = none) :
    MergeStep s { s with merge := .dead }
  | torn (r : MergeRun) (out : MergeOutput) (fileId p : ℕ) (rd rd' : RecordReader)
      (hm : s.merge = .records r out fileId rd) (hr : rd.nextRecord = some (.tornTail p, rd')) :
    MergeStep s (s.failOutput out .corruption)
  | eof (r : MergeRun) (out : MergeOutput) (fileId : ℕ) (rd rd' : RecordReader)
      (hm : s.merge = .records r out fileId rd) (hr : rd.nextRecord = some (.cleanEof, rd'))
      (hw : out.written < cfg.fileSizeThreshold) :
    MergeStep s
      { s with
        merge := .nextFile { r with idsToRemove := r.idsToRemove ++ [fileId] } (some out) }
  | eofFull (r : MergeRun) (out : MergeOutput) (fileId : ℕ) (rd rd' : RecordReader)
      (hm : s.merge = .records r out fileId rd) (hr : rd.nextRecord = some (.cleanEof, rd'))
      (hw : cfg.fileSizeThreshold ≤ out.written) :
    MergeStep s
      { s with
        merge := .finish .syncData { r with idsToRemove := r.idsToRemove ++ [fileId] } out }
  | undecodable (r : MergeRun) (out : MergeOutput) (fileId p : ℕ) (b : Bytes)
      (rd rd' : RecordReader) (e : KvsError) (hm : s.merge = .records r out fileId rd)
      (hr : rd.nextRecord = some (.record p b, rd')) (hd : Command.deserialize crc b = .error e) :
    MergeStep s (s.failOutput out e)
  | skip (r : MergeRun) (out : MergeOutput) (fileId p n : ℕ) (b : Bytes) (rd rd' : RecordReader)
      (c : Command) (hm : s.merge = .records r out fileId rd)
      (hr : rd.nextRecord = some (.record p b, rd')) (hd : Command.deserialize crc b = .ok (c, n))
      (hs : c.IsSet → s.sitsInIndex c.getKey fileId p = false) :
    MergeStep s { s with merge := .records r out fileId rd' }
  | copy (r : MergeRun) (out : MergeOutput) (fileId p n : ℕ) (b : Bytes) (rd rd' : RecordReader)
      (ts : UInt64) (key v : Bytes) (hm : s.merge = .records r out fileId rd)
      (hr : rd.nextRecord = some (.record p b, rd'))
      (hd : Command.deserialize crc b = .ok (.set ts key v, n))
      (hs : s.sitsInIndex key fileId p = true) :
    MergeStep s
      { s with
        merge := .records
          { r with pendingRecords := r.pendingRecords ++
              [⟨key, ⟨fileId, ts, p, b.length⟩, (out.append crc b key ts).2⟩] }
          (out.append crc b key ts).1 fileId rd' }
  | syncData (r : MergeRun) (out : MergeOutput) (hm : s.merge = .finish .syncData r out)
      (hn : (s.fs.bytes out.data).length + out.dataBuf.length < maxFileLen) :
    MergeStep s
      { s with
        fs := (s.fs.append out.data out.dataBuf).sync out.data
        merge := .finish .syncHint r { out with dataBuf := [] } }
  | syncHint (r : MergeRun) (out : MergeOutput) (hm : s.merge = .finish .syncHint r out) :
    MergeStep s
      { s with
        fs := (s.fs.append out.hint out.hintBuf).sync out.hint
        merge := .finish .rename r { out with hintBuf := [] } }
  | rename (r : MergeRun) (out : MergeOutput) (i : Inode) (hm : s.merge = .finish .rename r out)
      (hi : s.fs.lookup (.compact out.id) = some i) :
    MergeStep s
      { s with
        fs := s.fs.rename (.compact out.id) (.data out.id)
        merge := .finish .reader r out }
  | renameMissing (r : MergeRun) (out : MergeOutput) (hm : s.merge = .finish .rename r out)
      (hi : s.fs.lookup (.compact out.id) = none) :
    MergeStep s (s.failOutput out (.io fileNotFound))
  | reader (r : MergeRun) (out : MergeOutput) (i : Inode) (hm : s.merge = .finish .reader r out)
      (hi : s.fs.lookup (.data out.id) = some i) :
    MergeStep s { s.readersUpdate out.id i with merge := .finish .updates r out }
  | readerMissing (r : MergeRun) (out : MergeOutput) (hm : s.merge = .finish .reader r out)
      (hi : s.fs.lookup (.data out.id) = none) :
    MergeStep s (s.failOutput out (.io fileNotFound))
  | update (r : MergeRun) (out : MergeOutput) (p : PendingUpdate) (ps : List PendingUpdate)
      (hm : s.merge = .finish .updates r out) (hp : r.pendingRecords = p :: ps) :
    MergeStep s
      { s with
        index := Sys.applyPending s.index p
        merge := .finish .updates { r with pendingRecords := ps } out }
  | updated (r : MergeRun) (out : MergeOutput) (hm : s.merge = .finish .updates r out)
      (hp : r.pendingRecords = []) : MergeStep s { s with merge := .nextFile r none }
  | remove (id : ℕ) (ids : List ℕ) (stale : ℕ) (i : Inode)
      (hm : s.merge = .removeData (id :: ids) stale) (hi : s.fs.lookup (.data id) = some i) :
    MergeStep s { s with fs := s.fs.unlink (.data id), merge := .removeHint id ids stale }
  | removeMissing (id : ℕ) (ids : List ℕ) (stale : ℕ)
      (hm : s.merge = .removeData (id :: ids) stale) (hi : s.fs.lookup (.data id) = none) :
    MergeStep s (s.failMerge (.io fileNotFound))
  | removed (stale : ℕ) (hm : s.merge = .removeData [] stale) :
    MergeStep s { s with merge := .subtract stale }
  | removeHint (id : ℕ) (ids : List ℕ) (stale : ℕ) (hm : s.merge = .removeHint id ids stale) :
    MergeStep s { s with fs := s.fs.unlink (.hint id), merge := .removeData ids stale }
  | subtract (stale : ℕ) (hm : s.merge = .subtract stale) (hl : s.lock = .free)
      (hs : stale ≤ s.writer.staleBytesCount) :
    MergeStep s
      { s with
        writer := { s.writer with staleBytesCount := s.writer.staleBytesCount - stale }
        merge := .idle (some (.ok ())) }
  | subtractPoisoned (stale : ℕ) (hm : s.merge = .subtract stale) (hl : s.lock = .poisoned) :
    MergeStep s (s.failMerge .lockPoisoned)
  | subtractPanic (stale : ℕ) (hm : s.merge = .subtract stale) (hl : s.lock = .free)
      (hs : s.writer.staleBytesCount < stale) :
    MergeStep s { s with lock := .poisoned, merge := .dead }

/-- The transitions of a running store. -/
inductive Step (s : Sys) : Act → Sys → Prop
  | writer {a : Act} {s' : Sys} (h : WriterStep crc cfg s a s') : Step s a s'
  | merge {s' : Sys} (h : MergeStep crc cfg s s') : Step s .merge s'
  | startNot (last : Option (Except KvsError Unit)) (res : Except KvsError Unit)
      (hm : s.merge = .idle last) (hl : s.lock = .free ∨ s.lock = .poisoned)
      (hres : res = if s.lock = .free then .ok () else .error .lockPoisoned)
      (hn : s.lock = .free →
        s.writer.staleBytesCount < cfg.compactionThreshold ∨ s.snapshot = []) :
    Step s .start { s with merge := .idle (some res) }
  | startPanic (last : Option (Except KvsError Unit)) (hm : s.merge = .idle last)
      (hl : s.lock = .free) (hs : cfg.compactionThreshold ≤ s.writer.staleBytesCount)
      (hn : s.snapshot ≠ []) (hz : cfg.fileSizeThreshold = 0) :
    Step s .start { s with lock := .poisoned, merge := .dead }
  | start (last : Option (Except KvsError Unit)) (hm : s.merge = .idle last)
      (hl : s.lock = .free) (hs : cfg.compactionThreshold ≤ s.writer.staleBytesCount)
      (hn : s.snapshot ≠ []) (hz : cfg.fileSizeThreshold ≠ 0) :
    Step s .start
      { s with
        lock := .rotateTo .sync
          (s.writer.currentFileId + (s.totalBytes / cfg.fileSizeThreshold + 2) + 1) .compaction
        merge := .rotating ⟨s.writer.currentFileId, s.writer.staleBytesCount, s.snapshot, [],
          s.writer.currentFileId, []⟩ }
  | spill (out : MergeOutput) (n m : ℕ) (ho : Sys.heldOutput s.merge = some out) :
    Step s (.spill n m)
      { s.writeOutput out (out.dataBuf.take n) (out.hintBuf.take m) with
        merge := Sys.withOutput
          { out with dataBuf := out.dataBuf.drop n, hintBuf := out.hintBuf.drop m } s.merge }
  | mergeErr (e : IoError) (data hint : Bytes) (hc : Sys.callsFs s.merge = true)
      (ho : Sys.heldOutput s.merge = none) :
    Step s (.mergeErr e data hint) (s.failMerge (.io e))
  | outputErr (out : MergeOutput) (e : IoError) (data hint : Bytes)
      (hc : Sys.callsFs s.merge = true) (ho : Sys.heldOutput s.merge = some out) :
    Step s (.mergeErr e data hint) ((s.writeOutput out data hint).failMerge (.io e))

section Cases

variable {crc cfg} {s s' : Sys}

theorem writerStep_cases {now : ℕ} (h : s.writerStep crc cfg now = some s') :
    WriterStep crc cfg s (.writer now) s' := by
  unfold Sys.writerStep at h
  cases hl : s.lock with
  | free => rw [hl] at h; cases h
  | poisoned => rw [hl] at h; cases h
  | writing c done =>
    rw [hl] at h
    simp only at h
    split at h
    · rename_i hd
      obtain rfl := Option.some.inj h
      exact .publish c now (by rw [hl, hd])
    · cases h
  | policy c =>
    rw [hl] at h
    obtain rfl := Option.some.inj h
    unfold Sys.handlePolicy
    cases hp : cfg.durabilityPolicy with
    | syncOnEveryPut =>
      exact .policySync c now s.writer.lastTsFlushed hl (by rw [hp]; decide)
    | osDecides => exact .policySkip c now hl (by rw [hp]; decide)
    | syncOnInterval =>
      simp only
      split
      · exact .policyPanic c now hl hp (by assumption)
      · split
        · exact .policySync c now now hl (by rw [hp]; decide)
        · exact .policySkip c now hl (by rw [hp]; decide)
  | rotateIfFull c =>
    rw [hl] at h
    obtain rfl := Option.some.inj h
    unfold Sys.rotateIfFull
    split
    · exact .notFull c now hl (by assumption)
    · exact .full c now hl (by omega)
  | rotateTo st next caller =>
    rw [hl] at h
    obtain rfl := Option.some.inj h
    cases st with
    | sync => exact .rotateSync next now caller hl
    | create => exact .rotateCreate next now caller hl
    | clock => exact .rotateClock next now caller hl
    | reader =>
      simp only [Sys.rotateTo]
      cases hi : s.fs.lookup (.data next) with
      | none => exact .rotateMissing next now caller hl hi
      | some i => exact .rotateReader next now caller i hl hi

theorem writerErr_cases {e : KvsError} (h : s.writerErr crc cfg e = some s') :
    WriterStep crc cfg s (.writerErr e) s' := by
  unfold Sys.writerErr at h
  cases hl : s.lock with
  | free | rotateIfFull | poisoned => rw [hl] at h; cases h
  | writing c done =>
    rw [hl] at h
    simp only at h
    split at h
    · obtain rfl := Option.some.inj h
      exact .failWrite c done e hl (by assumption)
    · cases h
  | policy c =>
    rw [hl] at h
    simp only at h
    split at h
    · cases h
    · obtain rfl := Option.some.inj h
      exact .failPolicy c e hl
  | rotateTo st next caller =>
    rw [hl] at h
    obtain rfl := Option.some.inj h
    exact .failRotate st next caller e hl

theorem mergeRecords_cases {r : MergeRun} {out : MergeOutput} {fileId : ℕ} {rd : RecordReader}
    (hm : s.merge = .records r out fileId rd) :
    MergeStep crc cfg s (s.mergeRecords crc cfg r out fileId rd) := by
  unfold Sys.mergeRecords
  cases hr : rd.nextRecord with
  | none => exact .framePanic r out fileId rd hm hr
  | some x =>
    obtain ⟨x, rd'⟩ := x
    cases x with
    | tornTail p => exact .torn r out fileId p rd rd' hm hr
    | cleanEof =>
      simp only [MergeOutput.isFull, decide_eq_true_eq]
      split
      · exact .eofFull r out fileId rd rd' hm hr (by assumption)
      · exact .eof r out fileId rd rd' hm hr (by omega)
    | record p b =>
      simp only [Sys.mergeRecord]
      cases hd : Command.deserialize crc b with
      | error e => exact .undecodable r out fileId p b rd rd' e hm hr hd
      | ok x =>
        obtain ⟨c, n⟩ := x
        cases c with
        | rm ts key => exact .skip r out fileId p n b rd rd' _ hm hr hd False.elim
        | set ts key v =>
          simp only
          split
          · exact .copy r out fileId p n b rd rd' ts key v hm hr hd (by assumption)
          · rename_i hs
            exact .skip r out fileId p n b rd rd' _ hm hr hd fun _ => Bool.eq_false_iff.mpr hs

theorem finishOutput_cases {st : FinishStep} {r : MergeRun} {out : MergeOutput}
    (hm : s.merge = .finish st r out) (h : s.finishOutput st r out = some s') :
    MergeStep crc cfg s s' := by
  unfold Sys.finishOutput at h
  cases st with
  | syncData =>
    simp only at h
    split at h
    · obtain rfl := Option.some.inj h
      exact .syncData r out hm (by assumption)
    · cases h
  | syncHint =>
    obtain rfl := Option.some.inj h
    exact .syncHint r out hm
  | rename =>
    cases hi : s.fs.lookup (.compact out.id) with
    | none =>
      simp only [hi, Option.some.injEq] at h
      obtain rfl := h
      exact .renameMissing r out hm hi
    | some i =>
      simp only [hi, Option.some.injEq] at h
      obtain rfl := h
      exact .rename r out i hm hi
  | reader =>
    cases hi : s.fs.lookup (.data out.id) with
    | none =>
      simp only [hi, Option.some.injEq] at h
      obtain rfl := h
      exact .readerMissing r out hm hi
    | some i =>
      simp only [hi, Option.some.injEq] at h
      obtain rfl := h
      exact .reader r out i hm hi
  | updates =>
    cases hp : r.pendingRecords with
    | nil =>
      simp only [hp, Option.some.injEq] at h
      obtain rfl := h
      exact .updated r out hm hp
    | cons p ps =>
      simp only [hp, Option.some.injEq] at h
      obtain rfl := h
      exact .update r out p ps hm hp

theorem nextFile_cases {r : MergeRun} {output : Option MergeOutput}
    (hm : s.merge = .nextFile r output) : MergeStep crc cfg s (s.nextFile r output) := by
  unfold Sys.nextFile
  split
  · exact .lastOutput r _ hm (by assumption)
  · exact .scanned r hm (by assumption)
  · exact .source r _ _ _ _ hm (by assumption)
  · exact .openData r _ _ hm (by assumption)

theorem removeData_cases {ids : List ℕ} {stale : ℕ} (hm : s.merge = .removeData ids stale) :
    MergeStep crc cfg s (s.removeData ids stale) := by
  unfold Sys.removeData
  cases ids with
  | nil => exact .removed stale hm
  | cons id ids =>
    cases hi : s.fs.lookup (.data id) with
    | none => simp only [hi]; exact .removeMissing id ids stale hm hi
    | some i => simp only [hi]; exact .remove id ids stale i hm hi

theorem subtractStale_cases {stale : ℕ} (hm : s.merge = .subtract stale)
    (h : s.subtractStale stale = some s') : MergeStep crc cfg s s' := by
  unfold Sys.subtractStale at h
  split at h
  · obtain rfl := Option.some.inj h
    exact .subtractPoisoned stale hm (by assumption)
  · split at h
    · obtain rfl := Option.some.inj h
      exact .subtractPanic stale hm (by assumption) (by assumption)
    · obtain rfl := Option.some.inj h
      exact .subtract stale hm (by assumption) (by omega)
  · cases h

theorem mergeStep_cases (h : s.mergeStep crc cfg = some s') : MergeStep crc cfg s s' := by
  unfold Sys.mergeStep at h
  cases hm : s.merge with
  | idle | rotating | dead => simp only [hm] at h; cases h
  | nextFile r output =>
    simp only [hm, Option.some.injEq] at h
    exact h ▸ nextFile_cases hm
  | openHint r id data =>
    simp only [hm, Option.some.injEq] at h
    exact h ▸ .openHint r id data hm
  | records r out fileId rd =>
    simp only [hm, Option.some.injEq] at h
    exact h ▸ mergeRecords_cases hm
  | finish st r out =>
    simp only [hm] at h
    exact finishOutput_cases hm h
  | removeData ids stale =>
    simp only [hm, Option.some.injEq] at h
    exact h ▸ removeData_cases hm
  | removeHint id ids stale =>
    simp only [hm, Option.some.injEq] at h
    exact h ▸ .removeHint id ids stale hm
  | subtract stale =>
    simp only [hm] at h
    exact subtractStale_cases hm h

theorem runCompaction_cases {last : Option (Except KvsError Unit)} (hm : s.merge = .idle last)
    (h : s.runCompaction cfg = some s') : Step crc cfg s .start s' := by
  unfold Sys.runCompaction at h
  split at h
  · rename_i hl
    obtain rfl := Option.some.inj h
    exact .startNot last _ hm (Or.inr hl) (by rw [if_neg (by rw [hl]; decide)])
      (fun hf => by rw [hl] at hf; cases hf)
  · rename_i hl
    split at h
    · obtain rfl := Option.some.inj h
      exact .startNot last _ hm (Or.inl hl) (by rw [if_pos hl]) (fun _ => Or.inl (by assumption))
    split at h
    · obtain rfl := Option.some.inj h
      exact .startNot last _ hm (Or.inl hl) (by rw [if_pos hl]) (fun _ => Or.inr (by assumption))
    split at h
    · obtain rfl := Option.some.inj h
      exact .startPanic last hm hl (by omega) (by assumption) (by assumption)
    · obtain rfl := Option.some.inj h
      exact .start last hm hl (by omega) (by assumption) (by assumption)
  · cases h

/-- Every step of a running store is one of the listed transitions. -/
theorem stepAny_cases {a : Act} (h : stepAny crc cfg s a = some s') : Step crc cfg s a s' := by
  cases a with
  | begin call ts =>
    simp only [stepAny] at h
    split at h
    · rename_i hl
      obtain rfl := Option.some.inj h
      exact .writer (.begin call ts hl)
    · cases h
  | write n =>
    simp only [stepAny] at h
    split at h
    · rename_i c done hl
      unfold Sys.writeAll at h
      split at h
      · rename_i hw
        obtain rfl := Option.some.inj h
        exact .writer (.write c done n hl hw.1 hw.2)
      · cases h
    · cases h
  | writer now => exact .writer (writerStep_cases h)
  | start =>
    simp only [stepAny] at h
    split at h
    · exact runCompaction_cases (by assumption) h
    · cases h
  | merge => exact .merge (mergeStep_cases h)
  | spill n m =>
    simp only [stepAny, Sys.spill] at h
    split at h
    · cases h
    · split at h
      · obtain rfl := Option.some.inj h
        exact .spill _ n m (by assumption)
      · cases h
  | writerErr e => exact .writer (writerErr_cases h)
  | mergeErr e data hint =>
    simp only [stepAny, Sys.mergeErr] at h
    split at h
    · split at h
      · obtain rfl := Option.some.inj h
        exact .outputErr _ e data hint (by assumption) (by assumption)
      · obtain rfl := Option.some.inj h
        exact .mergeErr e data hint (by assumption) (by assumption)
    · cases h

theorem step_fits {a : Act} (h : step crc cfg s a = some s') : a.Fits := (step_eq_some.mp h).1

theorem stepAny_of_step {a : Act} (h : step crc cfg s a = some s') : stepAny crc cfg s a = some s' :=
  (step_eq_some.mp h).2

theorem step_cases {a : Act} (h : step crc cfg s a = some s') : Step crc cfg s a s' :=
  stepAny_cases (stepAny_of_step h)

theorem Step.of_begin {call : Call} {ts : UInt64} (hs : Step crc cfg s (.begin call ts) s') :
    s.lock = .free ∧ s' = { s with lock := .writing (call.command ts) 0 } := by
  cases hs with
  | writer hw => cases hw with | begin _ _ hl => exact ⟨hl, rfl⟩

end Cases

end Bitcask
