import Bitcask.Storage.Session

/-!
# A running merge

`Merging` follows one `run_compaction` from the state in which it takes its snapshot, through any
interleaving with the writers. It counts the steps of the compaction thread and keeps the records
the thread has looked at, with the answer of the liveness check.

`MergeInv` relates such a state to the one the merge started in: what it has copied, what is left to
copy and remove, and how many steps of its own that takes. The second half says what the steps of
both threads leave alone.
-/

namespace Bitcask

open LittleEndian FileSystem

/-! ## Records and their positions -/

/-- A record of a source: its file, its position and its bytes. -/
structure Placed where
  fileId : ℕ
  position : ℕ
  bytes : Bytes
  deriving DecidableEq, Repr

/-- The records from `position` on. -/
def placed (crc : Bytes → UInt32) (fileId : ℕ) : ℕ → List Command → List Placed
  | _, [] => []
  | position, c :: cs =>
    ⟨fileId, position, c.serialize crc⟩ :: placed crc fileId (position + (c.serialize crc).length) cs

/-- The records of some files, in order. -/
def sourceRecords (crc : Bytes → UInt32) (fs : Fs FileName) (files : List (ℕ × Inode)) :
    List Placed :=
  files.flatMap fun f => placed crc f.1 0 (recordsIn crc fs f.2)

/-- The liveness check of a record. -/
def Sys.isLive (crc : Bytes → UInt32) (s : Sys) (x : Placed) : Bool :=
  match Command.deserialize crc x.bytes with
  | .ok (.set _ key _, _) => s.sitsInIndex key x.fileId x.position
  | _ => false

/-- The record a step of the compaction thread looks at, and whether it is live. -/
def examined (crc : Bytes → UInt32) (s : Sys) : Act → List (Placed × Bool)
  | .merge =>
    match s.merge with
    | .records _ _ fileId reader =>
      match reader.nextRecord with
      | some (.record position bytes, _) =>
        [(⟨fileId, position, bytes⟩, s.isLive crc ⟨fileId, position, bytes⟩)]
      | _ => []
    | _ => []
  | _ => []

/-! ## A merge -/

/-- `run_compaction` has not returned. -/
def Merge.Running : Merge → Prop
  | .idle _ | .dead => False
  | _ => True

/-- No filesystem call fails, and the clock does not go back before a sync by interval. -/
def Calm (cfg : Config) (s : Sys) (a : Act) : Prop :=
  a.Nominal ∧ ∀ now c, a = .writer now → s.lock = .policy c →
    cfg.durabilityPolicy = .syncOnInterval → s.writer.lastTsFlushed ≤ now

/-- A step of the compaction thread, which rotates the active file itself. -/
def Sys.ownStep (s : Sys) : Act → Bool
  | .merge => true
  | .writer _ => s.lock.rotates.isSome
  | _ => false

/-- A merge that entered `run_compaction` in `s₀` is now in `s`: it has taken `n` steps of its own
and looked at the records `walked`. -/
inductive Merging (crc : Bytes → UInt32) (cfg : Config) (s₀ : Sys) :
    ℕ → List (Placed × Bool) → Sys → Prop
  | start {s : Sys} (hs : step crc cfg s₀ .start = some s) : Merging crc cfg s₀ 0 [] s
  | step {n : ℕ} {walked : List (Placed × Bool)} {s s' : Sys} {a : Act}
      (h : Merging crc cfg s₀ n walked s) (hr : s.merge.Running) (ha : Calm cfg s a)
      (hs : step crc cfg s a = some s') :
      Merging crc cfg s₀ (n + (s.ownStep a).toNat) (walked ++ examined crc s a) s'

/-- The bytes of the records that were live. -/
def liveBytes (walked : List (Placed × Bool)) : Bytes :=
  walked.flatMap fun x => if x.2 then x.1.bytes else []

/-- The data files with the ids above `first` and up to `top`, one after another. -/
def outputBytes (fs : Fs FileName) (first top : ℕ) : Bytes :=
  (List.range' (first + 1) (top - first)).flatMap fun id => (fs.read (.data id)).getD []

/-! ## What is left to do -/

/-- The sources that are still to be removed. -/
def Merge.sources : Merge → List ℕ
  | .rotating r | .nextFile r _ | .openHint r _ _ | .finish _ r _ =>
    r.idsToRemove ++ r.todo.map Prod.fst
  | .records r _ fileId _ => r.idsToRemove ++ fileId :: r.todo.map Prod.fst
  | .removeData ids _ | .removeHint _ ids _ => ids
  | .idle _ | .subtract _ | .dead => []

/-- The source whose data file is gone and whose hint is not. -/
def Merge.hintLeft : Merge → Option ℕ
  | .removeHint id _ _ => some id
  | _ => none

/-- The records the merge has not looked at. -/
def Merge.remaining (crc : Bytes → UInt32) (fs : Fs FileName) : Merge → List Placed
  | .rotating r | .nextFile r _ | .openHint r _ _ | .finish _ r _ => sourceRecords crc fs r.todo
  | .records r _ fileId reader =>
    placed crc fileId reader.position (recordsOf crc reader.reader) ++ sourceRecords crc fs r.todo
  | _ => []

/-- The bytes in the output that has no data name yet. -/
def Merge.openBytes (fs : Fs FileName) : Merge → Bytes
  | .openHint _ _ data => fs.bytes data
  | .nextFile _ (some out) | .records _ out _ _ => fs.bytes out.data ++ out.dataBuf
  | .finish st _ out => if st.unnamed then fs.bytes out.data ++ out.dataBuf else []
  | _ => []

/-- What the loop over the snapshot has still to pay for, when `n` records are left: a record is read
and perhaps moved, a source is opened, walked and removed. -/
def MergeRun.cost (r : MergeRun) (n : ℕ) : ℕ :=
  2 * n + 20 * r.todo.length + 2 * r.idsToRemove.length + r.pendingRecords.length

/-- The steps `finish_output` has left, and the one after it. -/
def FinishStep.cost : FinishStep → ℕ
  | .syncData => 8
  | .syncHint => 7
  | .rename => 6
  | .reader => 5
  | .updates => 4

/-- The steps left of the rotation of a merge. -/
def Lock.rotationLeft : Lock → ℕ
  | .rotateTo .sync _ .compaction => 4
  | .rotateTo .create _ .compaction => 3
  | .rotateTo .clock _ .compaction => 2
  | .rotateTo .reader _ .compaction => 1
  | _ => 0

/-- A bound on the steps of the compaction thread that are left after its rotation. -/
def Merge.cost (n : ℕ) : Merge → ℕ
  | .rotating r | .nextFile r none => r.cost n + 3
  | .openHint r _ _ => r.cost n + 2
  | .nextFile r (some _) => r.cost n + if r.todo = [] then 9 else 1
  | .records r _ _ _ => r.cost n + 12
  | .finish st r _ => r.cost n + st.cost
  | .removeData ids _ => 2 * ids.length + 2
  | .removeHint _ ids _ => 2 * ids.length + 3
  | .subtract _ => 1
  | .idle _ | .dead => 0

/-! ## The invariant of a merge -/

/-- The constants of the merge: its last sealed file, the stale bytes it has read, and the id of its
last output that has a data name. -/
def MergeRun.Of (r : MergeRun) (first stale top isOpen : ℕ) : Prop :=
  r.firstCompactedFileId = first ∧ r.initStaleBytes = stale ∧ r.nextCompactionFileId = top + isOpen

/-- The merge is in no error state. -/
def Merge.Of (first stale top : ℕ) : Merge → Prop
  | .rotating r | .nextFile r none => r.Of first stale top 0
  | .openHint r _ _ => r.Of first stale top 1 ∧ r.todo ≠ []
  | .nextFile r (some _) | .records r _ _ _ => r.Of first stale top 1
  | .finish st r _ => r.Of first stale top st.unnamed.toNat
  | .removeData _ n | .removeHint _ _ n | .subtract n => n = stale
  | .idle last => last = some (.ok ())
  | .dead => False

/-- The id that a merge rotates the writer to, above the ids it reserves for its outputs. -/
def Sys.nextActive (cfg : Config) (s : Sys) : ℕ :=
  s.writer.currentFileId + (s.totalBytes / cfg.fileSizeThreshold + 2) + 1

theorem Sys.lt_nextActive (cfg : Config) (s : Sys) : s.writer.currentFileId < s.nextActive cfg :=
  Nat.lt_succ_of_le (Nat.le_add_right _ _)

/-- The writer is at the rotation of a merge to the file `bar`, or past it. -/
def Sys.Reserves (bar : ℕ) (s : Sys) : Prop :=
  s.lock.rotates = some bar ∨ bar ≤ s.writer.currentFileId ∧ s.fs.lookup (.data bar) ≠ none

/-- What holds in the states of a merge that started in `s₀` and rotates to `bar`. -/
structure MergeInv (crc : Bytes → UInt32) (s₀ : Sys) (bar n : ℕ) (walked : List (Placed × Bool))
    (top : ℕ) (s : Sys) : Prop where
  phase : s.merge.Of s₀.writer.currentFileId s₀.writer.staleBytesCount top
  lock : s.lock ≠ .poisoned
  stale : s.merge.Running → s₀.writer.staleBytesCount ≤ s.writer.staleBytesCount
  below : ∀ id ∈ s₀.snapshot.map Prod.fst, id < s₀.writer.currentFileId
  first_le : s₀.writer.currentFileId ≤ s.writer.currentFileId
  first_top : s₀.writer.currentFileId ≤ top
  top_lt : s₀.writer.currentFileId < top → top < s.writer.currentFileId
  reserves : s.Reserves bar
  top_bar : top < bar
  unused : ∀ id, top < id → id < bar → s.fs.lookup (.data id) = none
  suffix : s.merge.sources <:+ s₀.snapshot.map Prod.fst
  left : ∀ id ∈ s.merge.sources, s.fs.lookup (.data id) ≠ none
  gone : ∀ id ∈ s₀.snapshot.map Prod.fst, id ∉ s.merge.sources →
    s.fs.lookup (.data id) = none ∧ (s.merge.hintLeft = some id ∨ s.fs.lookup (.hint id) = none)
  walk : walked.map Prod.fst ++ s.merge.remaining crc s.fs = sourceRecords crc s₀.fs s₀.snapshot
  outputs : outputBytes s.fs s₀.writer.currentFileId top ++ s.merge.openBytes s.fs = liveBytes walked
  count : n + s.lock.rotationLeft + s.merge.cost (s.merge.remaining crc s.fs).length ≤
    2 * (sourceRecords crc s₀.fs s₀.snapshot).length + 20 * s₀.snapshot.length + 7

/-! ## What steps leave alone -/

section Frames

variable {crc : Bytes → UInt32} {cfg : Config} {recs : Inode → List Command} {s s' : Sys} {a : Act}
  {id : ℕ} {i : Inode}

/-- The lock holder writes to the active file only. -/
theorem WriterStep.bytes (hs : WriterStep crc cfg s a s') (hi : i < s.fs.next)
    (hne : i ≠ s.writer.file) : s'.fs.bytes i = s.fs.bytes i := by
  have hgrows : s.fs.Grows {s.writer.file} s'.fs := hs.grows fun _ _ => rfl
  exact (hgrows.2 i hi).2 hne

/-- Once the output has its data name, `finish_output` writes nothing more. -/
theorem MergeStep.fs_named (hs : MergeStep crc cfg s s') {st : FinishStep} {r : MergeRun}
    {out : MergeOutput} (hm : s.merge = .finish st r out) (hst : st.unnamed = false)
    (hd : out.dataBuf = []) (hh : out.hintBuf = []) : s'.fs = s.fs := by
  have hcases : st = .reader ∨ st = .updates := by
    cases st with
    | syncData | syncHint | rename => cases hst
    | reader => exact Or.inl rfl
    | updates => exact Or.inr rfl
  cases hs
  case reader => rfl
  case update => rfl
  case updated => rfl
  case readerMissing r' out' hm' hi =>
    rw [hm] at hm'
    obtain ⟨-, -, rfl⟩ := Merge.finish.inj hm'
    simp [Sys.failOutput, Sys.failMerge, Sys.writeOutput, hd, hh, Fs.append_nil]
  all_goals
    exfalso
    rcases hcases with rfl | rfl <;> simp_all

/-- A step without an error changes no file behind a handle but the active one. -/
theorem Rep.handle_bytes (h : Rep crc cfg recs s) (hn : a.Nominal) (hs : Step crc cfg s a s')
    (hi : s.handles id = some i) (hne : id ≠ s.writer.currentFileId) :
    s'.fs.bytes i = s.fs.bytes i := by
  have hlt := h.core.rd_lt hi
  have hfile : i ≠ s.writer.file := fun he => hne (h.core.rd_inj (he ▸ hi) h.core.rd_cur)
  by_cases hheld : ∃ out, Sys.heldOutput s.merge = some out ∧ (i = out.data ∨ i = out.hint)
  · obtain ⟨out, ho, hio⟩ := hheld
    have hmr := h.merge
    -- the output has its data name, so its buffers are empty
    rcases h.held_cases ho with ⟨r, hout, hc, -⟩ | ⟨⟨hd, hh⟩, st, r, hm, hst⟩
    · rcases hio with rfl | rfl
      · cases h.core.rd_name hi hc
      · cases h.core.rd_name hi hout.hint_name
    · cases hs with
      | writer hw => exact hw.bytes hlt hfile
      | merge hm' => rw [hm'.fs_named hm hst hd hh]
      | spill out' n m ho' =>
        obtain rfl := Option.some.inj (ho.symm.trans ho')
        simp [Sys.writeOutput, hd, hh, Fs.append_nil]
      | startNot | startPanic | start => rfl
      | mergeErr | outputErr => exact hn.elim
  · refine (hs.grows.2 i hlt).2 ?_
    rintro (⟨-, hf⟩ | hh)
    · exact hfile hf
    · exact hheld hh

/-- A data file that keeps its name keeps its contents. -/
theorem Rep.read_step (h : Rep crc cfg recs s) (hn : a.Nominal) (hs : Step crc cfg s a s')
    (hid : id ≠ s.writer.currentFileId)
    (hl : s'.fs.lookup (.data id) = s.fs.lookup (.data id)) :
    s'.fs.read (.data id) = s.fs.read (.data id) := by
  rw [Fs.read, Fs.read, hl]
  cases hi : s.fs.lookup (.data id) with
  | none => rfl
  | some i => exact congrArg some (h.handle_bytes hn hs (h.core.dir_rd hi) hid)

theorem sourceRecords_congr {fs fs' : Fs FileName} {files : List (ℕ × Inode)}
    (h : ∀ f ∈ files, fs'.bytes f.2 = fs.bytes f.2) :
    sourceRecords crc fs' files = sourceRecords crc fs files :=
  List.flatMap_congr fun f hf => by rw [recordsIn, recordsIn, h f hf]

theorem outputBytes_congr {fs fs' : Fs FileName} {first top : ℕ}
    (h : ∀ id, first < id → id ≤ top → fs'.read (.data id) = fs.read (.data id)) :
    outputBytes fs' first top = outputBytes fs first top :=
  List.flatMap_congr fun id hid => by
    rw [List.mem_range'_1] at hid
    rw [h id (by omega) (by omega)]

theorem outputBytes_succ {fs : Fs FileName} {first top : ℕ} (h : first ≤ top) :
    outputBytes fs first (top + 1) =
      outputBytes fs first top ++ (fs.read (.data (top + 1))).getD [] := by
  unfold outputBytes
  rw [Nat.succ_sub h, List.range'_1_concat, List.flatMap_append, List.flatMap_singleton,
    show first + 1 + (top - first) = top + 1 by omega]

/-- The files the merge has still to walk keep their records. -/
theorem Rep.remaining_step (h : Rep crc cfg recs s) (hn : a.Nominal) (hs : Step crc cfg s a s')
    {first stale top : ℕ} (hphase : s.merge.Of first stale top)
    (hfirst : first ≤ s.writer.currentFileId) :
    s.merge.remaining crc s'.fs = s.merge.remaining crc s.fs := by
  have htodo : ∀ r : MergeRun, r.firstCompactedFileId = first →
      (∀ f ∈ r.todo, s.handles f.1 = some f.2 ∧ f.1 < r.firstCompactedFileId) →
      sourceRecords crc s'.fs r.todo = sourceRecords crc s.fs r.todo := by
    intro r hr ht
    refine sourceRecords_congr fun f hf => ?_
    obtain ⟨hf, hlt⟩ := ht f hf
    exact h.handle_bytes hn hs hf (by omega)
  have hmr := h.merge
  cases hm : s.merge with
  | idle | removeData | removeHint | subtract | dead => rfl
  | rotating r =>
    rw [hm] at hmr hphase
    obtain ⟨-, -, -, bar, -, -, hrun⟩ := hmr
    exact htodo r hphase.1 hrun.todo
  | nextFile r output =>
    rw [hm] at hmr hphase
    cases output with
    | none =>
      obtain ⟨-, bar, hrun⟩ := hmr
      exact htodo r hphase.1 hrun.todo
    | some out =>
      obtain ⟨-, -, bar, hrun⟩ := hmr
      exact htodo r hphase.1 hrun.todo
  | openHint r id data =>
    rw [hm] at hmr hphase
    obtain ⟨-, -, -, -, -, -, bar, hrun⟩ := hmr
    exact htodo r hphase.1.1 hrun.todo
  | records r out fileId reader =>
    rw [hm] at hmr hphase
    obtain ⟨-, -, i, done, rest, -, -, -, -, bar, hrun⟩ := hmr
    exact congrArg _ (htodo r hphase.1 hrun.todo)
  | finish st r out =>
    rw [hm] at hmr hphase
    obtain ⟨-, -, -, bar, hrun⟩ := hmr
    exact htodo r hphase.1 hrun.todo

/-! ### The lock holder -/

theorem Rep.openBytes_writer (h : Rep crc cfg recs s) (hs : WriterStep crc cfg s a s') :
    s.merge.openBytes s'.fs = s.merge.openBytes s.fs := by
  have hheld : ∀ out, Sys.heldOutput s.merge = some out →
      s'.fs.bytes out.data = s.fs.bytes out.data := by
    intro out ho
    obtain ⟨n, hn⟩ := h.held_name ho
    exact hs.bytes (s.fs.dir_lt _ _ hn) (Ne.symm (h.file_not_held ho).1)
  have hmr := h.merge
  cases hm : s.merge with
  | idle | rotating | removeData | removeHint | subtract | dead => rfl
  | nextFile r output =>
    cases output with
    | none => rfl
    | some out => exact congrArg (· ++ _) (hheld out (by rw [hm]; rfl))
  | records r out fileId reader => exact congrArg (· ++ _) (hheld out (by rw [hm]; rfl))
  | finish st r out =>
    show (if st.unnamed then _ else _) = if st.unnamed then _ else _
    rw [hheld out (by rw [hm]; rfl)]
  | openHint r id data =>
    rw [hm] at hmr
    obtain ⟨-, -, hn, -⟩ := hmr
    refine hs.bytes (s.fs.dir_lt _ _ hn) fun he => ?_
    cases s.fs.dir_inj _ _ _ (he ▸ hn) h.core.cur_dir

/-- The merge does not notice the lock holder, but for the end of its own rotation. -/
theorem Rep.merge_writer (h : Rep crc cfg recs s) (hn : a.Nominal) (hs : WriterStep crc cfg s a s') :
    s'.merge = s.merge ∨ ∃ r, s.merge = .rotating r ∧ s'.merge = .nextFile r none := by
  cases h.writerMove hs with
  | begin | write | publish | rotateCreate => exact Or.inl rfl
  | rotateReader next now caller i hl hi =>
    unfold Sys.endRotate
    split
    · rename_i r hm
      exact Or.inr ⟨r, hm, rfl⟩
    · exact Or.inl rfl
  | failRotate => exact hn.elim
  | quiet _ _ _ _ _ _ _ _ hm => exact Or.inl hm

theorem endRotate_fs (caller : Caller) : (s.endRotate caller).fs = s.fs := by
  unfold Sys.endRotate
  split <;> rfl

theorem endRotate_lock (caller : Caller) : (s.endRotate caller).lock = .free := by
  unfold Sys.endRotate
  split <;> rfl

theorem WriterStep.not_poisoned (ha : Calm cfg s a) (hs : WriterStep crc cfg s a s') :
    s'.lock ≠ .poisoned := by
  cases hs with
  | policyPanic c now hl hp hlt => exact absurd (ha.2 now c rfl hl hp) (Nat.not_le_of_lt hlt)
  | rotateReader next now caller i hl hi => simp [endRotate_lock]
  | rotateMissing next now caller hl hi | failRotate st next caller e hl =>
    cases caller <;> simp [Sys.failRotate]
  | publish => simp [Sys.publish]
  | rotateCreate => simp [Sys.rotateTo]
  | _ => simp

theorem Rep.writer_mono (h : Rep crc cfg recs s) (hs : WriterStep crc cfg s a s') :
    s.writer.staleBytesCount ≤ s'.writer.staleBytesCount ∧
      s.writer.currentFileId ≤ s'.writer.currentFileId ∧
      ∀ n, s'.fs.lookup n = s.fs.lookup n ∨ ∃ next, n = .data next ∧ s.writer.currentFileId < next := by
  cases hs with
  | publish c now hl => exact ⟨Nat.le_add_right _ _, le_rfl, fun _ => Or.inl rfl⟩
  | rotateCreate next now caller hl =>
    have hlr := h.lock
    rw [hl] at hlr
    refine ⟨le_rfl, hlr.2.le, fun n => ?_⟩
    by_cases hnn : n = .data next
    · exact Or.inr ⟨next, hnn, hlr.2⟩
    · exact Or.inl (Fs.lookup_create_ne hnn)
  | rotateReader next now caller i hl hi =>
    unfold Sys.endRotate
    split <;> exact ⟨le_rfl, le_rfl, fun _ => Or.inl rfl⟩
  | rotateMissing next now caller hl hi | failRotate st next caller e hl =>
    cases caller <;> exact ⟨le_rfl, le_rfl, fun _ => Or.inl rfl⟩
  | _ => exact ⟨le_rfl, le_rfl, fun _ => Or.inl rfl⟩

/-- The rotation of the merge goes on, or the writer is past it. -/
theorem Rep.reserves_writer (h : Rep crc cfg recs s) (hn : a.Nominal)
    (hs : WriterStep crc cfg s a s') {bar : ℕ} (hbar : s.Reserves bar) : s'.Reserves bar := by
  obtain ⟨-, hcur, hnames⟩ := h.writer_mono hs
  rcases hbar with hbar | ⟨hle, hname⟩
  · have hlr := h.lock
    unfold Lock.rotates at hbar
    split at hbar
    · rename_i st next hl
      obtain rfl := Option.some.inj hbar
      rw [hl] at hlr
      cases hs with
      | rotateSync next' now caller hl' | rotateClock next' now caller hl' =>
        obtain ⟨-, rfl, rfl⟩ := Lock.rotateTo.inj (hl.symm.trans hl')
        exact Or.inl rfl
      | rotateCreate next' now caller hl' =>
        obtain ⟨-, rfl, -⟩ := Lock.rotateTo.inj (hl.symm.trans hl')
        refine Or.inr ⟨le_rfl, ?_⟩
        show (s.fs.create _).lookup _ ≠ none
        rw [Fs.lookup_create_self]
        exact Option.some_ne_none _
      | rotateReader next' now caller i hl' hi =>
        obtain ⟨rfl, rfl, -⟩ := Lock.rotateTo.inj (hl.symm.trans hl')
        refine Or.inr ⟨hlr.2.2 ▸ hcur, ?_⟩
        rw [endRotate_fs, show (s.readersUpdate next i).fs = s.fs from rfl, hi]
        exact Option.some_ne_none _
      | rotateMissing next' now caller hl' hi =>
        obtain ⟨rfl, rfl, -⟩ := Lock.rotateTo.inj (hl.symm.trans hl')
        have hdir := h.core.cur_dir
        rw [← hlr.2.2, hi] at hdir
        cases hdir
      | failRotate => exact hn.elim
      | _ => simp_all
    · cases hbar
  · refine Or.inr ⟨hle.trans hcur, ?_⟩
    rcases hnames (.data bar) with hsame | ⟨next, he, hlt⟩
    · rwa [hsame]
    · cases he
      omega

/-- The writer names no file with a reserved id. -/
theorem Rep.reserved_writer (h : Rep crc cfg recs s) (hs : WriterStep crc cfg s a s') {bar : ℕ}
    (hbar : s.Reserves bar) (hid : id < bar) :
    s'.fs.lookup (.data id) = s.fs.lookup (.data id) := by
  cases hs with
  | rotateCreate next now caller hl =>
    have hlr := h.lock
    rw [hl] at hlr
    have hlt : s.writer.currentFileId < next := hlr.2
    have hle : bar ≤ next := by
      rcases hbar with hbar | ⟨hbar, -⟩
      · rw [hl] at hbar
        cases caller with
        | append c => cases hbar
        | compaction => exact (Option.some.inj hbar).ge
      · exact hbar.trans hlt.le
    exact Fs.lookup_create_ne (by simpa using (hid.trans_le hle).ne)
  | rotateReader next now caller i hl hi =>
    unfold Sys.endRotate
    split <;> rfl
  | rotateMissing next now caller hl hi | failRotate st next caller e hl => cases caller <;> rfl
  | _ => rfl

/-- The outputs keep to the reserved ids: the file the merge has rotated to is above them. -/
theorem Rep.output_lt (h : Rep crc cfg recs s) {bar top : ℕ} {st : FinishStep} {r : MergeRun}
    {out : MergeOutput} (hm : s.merge = .finish st r out) (hst : st.unnamed = true)
    (hnext : r.nextCompactionFileId = top + 1) (hbar : s.Reserves bar) (htop : top < bar) :
    top + 1 < bar := by
  have hmr := h.merge
  rw [hm] at hmr
  obtain ⟨-, -, -, bar', hrun⟩ := hmr
  rcases hbar with hbar | ⟨-, hname⟩
  · obtain ⟨r', hm'⟩ := h.rotates (by rw [hbar]; exact Option.some_ne_none _)
    rw [hm] at hm'
    cases hm'
  · obtain ⟨i, hi⟩ := Option.ne_none_iff_exists'.mp hname
    have hids := hrun.ids (h.core.dir_rd hi)
    have hlt := hrun.next_lt
    rw [hst, Bool.toNat_true] at hids
    omega

/-- A step of the merge's rotation is one less to do; no other step begins such a rotation. -/
theorem WriterStep.rotationLeft (hn : a.Nominal) (hs : WriterStep crc cfg s a s') :
    (s.ownStep a).toNat + s'.lock.rotationLeft ≤ s.lock.rotationLeft := by
  cases hs with
  | begin | write | publish | policySkip | policySync | policyPanic | notFull | full =>
    simp_all [Sys.ownStep, Lock.rotates, Lock.rotationLeft, Sys.publish]
  | rotateSync next now caller hl | rotateCreate next now caller hl
  | rotateClock next now caller hl =>
    cases caller <;> simp [hl, Sys.ownStep, Lock.rotates, Lock.rotationLeft, Sys.rotateTo]
  | rotateReader next now caller i hl hi =>
    rw [endRotate_lock, hl]
    cases caller <;> simp [hl, Sys.ownStep, Lock.rotates, Lock.rotationLeft]
  | rotateMissing next now caller hl hi =>
    cases caller <;> simp [hl, Sys.ownStep, Lock.rotates, Lock.rotationLeft, Sys.failRotate]
  | failWrite | failPolicy | failRotate => exact hn.elim

end Frames

end Bitcask
