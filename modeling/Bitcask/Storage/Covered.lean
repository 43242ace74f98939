import Bitcask.Storage.Durable
import Bitcask.Storage.IdHistory

/-!
# Files that are covered by a sync

Which files are covered by a completed `sync_all`, in any session without I/O errors, on any
directory and under every durability policy.

1. `Sited`: the active file and the files of an output have their own names.
2. `Sited.data_bytes`, `Step.synced`: a data file that is not written to stays synced.
3. `Covered` and its steps: a file is synced before it is sealed or gets its data name.
-/

namespace Bitcask

open LittleEndian FileSystem CrashHoare

/-! ## Names -/

/-- The name of the data file of an output. -/
def Merge.outputName : Merge → ℕ → FileName
  | .finish st _ _, id => st.name id
  | _, id => .compact id

/-- An output has its data name only after its rename. -/
theorem Merge.outputName_cases (m : Merge) (id : ℕ) : m.outputName id = .compact id ∨
    m.outputName id = .data id ∧ ∃ st r out, m = .finish st r out ∧ st.unnamed = false := by
  cases m with
  | finish st r out =>
    by_cases hst : st.unnamed = true
    · exact Or.inl (if_pos hst)
    · exact Or.inr ⟨if_neg hst, st, r, out, rfl, Bool.eq_false_iff.mpr hst⟩
  | _ => exact Or.inl rfl

/-- The names of the active file and of an output. -/
structure Sited (s : Sys) : Prop where
  current : s.fs.lookup (.data s.writer.currentFileId) = some s.writer.file
  fresh : ∀ next caller, s.lock = .rotateTo .create next caller → s.fs.lookup (.data next) = none
  output : ∀ out, Sys.heldOutput s.merge = some out →
    s.fs.lookup (s.merge.outputName out.id) = some out.data
  hint : ∀ out, Sys.heldOutput s.merge = some out → s.fs.lookup (.hint out.id) = some out.hint
  below : ∀ out, Sys.heldOutput s.merge = some out → out.id ≠ s.writer.currentFileId

/-- A store whose configuration lets no merge run. -/
structure Unmerged (ever : Set ℕ) (s : Sys) : Prop where
  named : Named ever s.fs s.readers s.writer.currentFileId s.writer.file
  lock : LockIds s.writer.currentFileId s.lock
  merge : (∃ res, s.merge = .idle res) ∨ s.merge = .dead

section Names

variable {crc : Bytes → UInt32} {cfg : Config} {tr : Trace} {ever : Set ℕ} {fs₀ : Fs FileName}
  {s s' : Sys} {a : Act}

theorem MergeIds.output {fs : Fs FileName} {cur : ℕ} {lock : Lock} {m : Merge} {out : MergeOutput}
    (h : MergeIds cfg tr fs cur lock m) (ho : Sys.heldOutput m = some out) :
    fs.lookup (m.outputName out.id) = some out.data ∧ out.id < cur := by
  refine ⟨?_, h.out_lt ho⟩
  cases m with
  | nextFile r output =>
    obtain rfl : output = some out := ho
    exact h.2.1
  | records r out' fileId reader =>
    obtain rfl := Option.some.inj ho
    exact h.2.1
  | finish st r out' =>
    obtain rfl := Option.some.inj ho
    exact h.2.1
  | _ => cases ho

/-- The next active file is a new one. -/
theorem Named.fresh (h : Named ever s.fs s.readers s.writer.currentFileId s.writer.file)
    (hlock : LockIds s.writer.currentFileId s.lock) (next : ℕ) (caller : Caller)
    (hl : s.lock = .rotateTo .create next caller) : s.fs.lookup (.data next) = none := by
  rw [hl] at hlock
  by_contra hne
  exact absurd (h.ever_le (h.ever_name hne)) (Nat.not_le_of_lt hlock)

theorem Ids.sited (h : Ids cfg tr s) : Sited s where
  current := h.named.current
  fresh := h.named.fresh h.lock
  output out ho := (h.merge.output ho).1
  hint out ho := by
    obtain ⟨⟨r, -, hout⟩, -⟩ := h.merge.held ho
    exact hout.2.2
  below out ho := (h.merge.output ho).2.ne

theorem Unmerged.held (h : Unmerged ever s) : Sys.heldOutput s.merge = none := by
  rcases h.merge with ⟨res, hm⟩ | hm <;> rw [hm] <;> rfl

theorem Unmerged.sited (h : Unmerged ever s) : Sited s where
  current := h.named.current
  fresh := h.named.fresh h.lock
  output out ho := by rw [h.held] at ho; cases ho
  hint out ho := by rw [h.held] at ho; cases ho
  below out ho := by rw [h.held] at ho; cases ho

/-- The division by a file size threshold of zero panics before a merge has done anything. -/
theorem Unmerged.step (h : Unmerged ever s) (hz : cfg.fileSizeThreshold = 0)
    (hs : Step crc cfg s a s') : Unmerged (ever ∪ dataIds s'.fs) s' := by
  cases hs with
  | writer hw =>
    refine ⟨h.named.writerStep h.lock hw, h.lock.writerStep hw, ?_⟩
    have hrot : ∀ r, s.merge ≠ .rotating r := by
      intro r hm
      rcases h.merge with ⟨res, hm'⟩ | hm' <;> rw [hm] at hm' <;> cases hm'
    rcases hw.merge_eq hrot with hm | ⟨res, hm⟩
    · rw [hm]
      exact h.merge
    · exact Or.inl ⟨res, hm⟩
  | merge hm =>
    exfalso
    rcases h.merge with ⟨res, hidle⟩ | hidle <;> cases hm <;> simp_all
  | startNot last res hm hl hres hn => exact ⟨h.named.remember, h.lock, Or.inl ⟨_, rfl⟩⟩
  | startPanic last hm hl hs hn hz => exact ⟨h.named.remember, trivial, Or.inr rfl⟩
  | start last hm hl hs hn hne => exact absurd hz hne
  | spill out n m ho | outputErr out e data hint hc ho => rw [h.held] at ho; cases ho
  | mergeErr e data hint hc ho => exact ⟨h.named.remember, h.lock, Or.inl ⟨_, rfl⟩⟩

/-- In every session, on any directory. -/
theorem Unchecked.sited {P : Sys → Act → Prop} (h : Unchecked crc cfg P fs₀ s) : Sited s := by
  have hids : (∃ tr, Ids cfg tr s) ∨ cfg.fileSizeThreshold = 0 ∧ ∃ ever, Unmerged ever s := by
    induction h with
    | opened hlist hopen =>
      obtain ⟨-, ho⟩ := (openStore_any crc _ hlist).ok rfl hopen
      have hdir : DirIds (dataIds fs₀) fs₀ := ⟨subset_rfl, fun id hid => ⟨id, hid, le_rfl⟩⟩
      rcases Nat.eq_zero_or_pos cfg.fileSizeThreshold with hz | hpos
      · refine Or.inr ⟨hz, _, hdir.named ho, ?_, Or.inl ⟨none, ho.idle⟩⟩
        rw [ho.free]
        trivial
      · have hfirst : DirIds (Trace.mk (dataIds fs₀) 0 0).ever fs₀ := hdir
        exact Or.inl ⟨_, hfirst.opened ho hpos⟩
    | step _ _ hs ih =>
      rcases ih with ⟨tr, ih⟩ | ⟨hz, ever, ih⟩
      · exact Or.inl ⟨_, ids_step ih (stepAny_cases hs)⟩
      · exact Or.inr ⟨hz, _, ih.step hz (stepAny_cases hs)⟩
  rcases hids with ⟨tr, h⟩ | ⟨-, ever, h⟩
  · exact h.sited
  · exact h.sited

end Names

/-! ## What a step writes and syncs -/

/-- From its `sync_all` on, nothing is left in the buffer of an output's data file, and the file is
synced. -/
def OutputCovered (fs : Fs FileName) : Merge → Prop
  | .finish .syncData _ _ => True
  | .finish _ _ out => out.dataBuf = [] ∧ Synced fs out.data
  | _ => True

section Writes

variable {crc : Bytes → UInt32} {cfg : Config} {s s' : Sys} {a : Act} {id : ℕ} {i : Inode}

/-- What is synced of a file changes only by a `sync_all`. -/
theorem WriterStep.synced_cases (hs : WriterStep crc cfg s a s') (hi : i < s.fs.next) :
    s'.fs.synced i = s.fs.synced i ∨ s'.fs.synced i = (s'.fs.bytes i).length := by
  have hsync : (s.fs.sync s.writer.file).synced i = s.fs.synced i ∨
      (s.fs.sync s.writer.file).synced i = (s.fs.bytes i).length := by
    by_cases hf : i = s.writer.file
    · rw [hf]
      exact Or.inr (Fs.synced_sync_self ..)
    · exact Or.inl (Fs.synced_sync_ne hf)
  cases hs with
  | policySync c now last hl hp => exact hsync
  | rotateSync next now caller hl => exact hsync
  | rotateCreate next now caller hl => exact Or.inl (Fs.synced_create_of_lt hi)
  | rotateReader next now caller j hl hj =>
    unfold Sys.endRotate
    split <;> exact Or.inl rfl
  | rotateMissing next now caller hl hj | failRotate st next caller e hl =>
    cases caller <;> exact Or.inl rfl
  | _ => exact Or.inl rfl

theorem MergeStep.synced_cases (hs : MergeStep crc cfg s s') (hi : i < s.fs.next) :
    s'.fs.synced i = s.fs.synced i ∨ s'.fs.synced i = (s'.fs.bytes i).length := by
  have hsync : ∀ (j : Inode) (b : Bytes),
      ((s.fs.append j b).sync j).synced i = s.fs.synced i ∨
        ((s.fs.append j b).sync j).synced i = (((s.fs.append j b).sync j).bytes i).length := by
    intro j b
    by_cases hj : i = j
    · rw [hj]
      exact Or.inr (Fs.synced_sync_self ..)
    · exact Or.inl (Fs.synced_sync_ne hj)
  cases hs with
  | openData r f rest hm ht => exact Or.inl (Fs.synced_create_of_lt hi)
  | openHint r id data hm => exact Or.inl (Fs.synced_create_of_lt hi)
  | syncData r out hm hn => exact hsync out.data out.dataBuf
  | syncHint r out hm => exact hsync out.hint out.hintBuf
  | rename r out j hm hj => exact Or.inl (by rw [Fs.synced_rename])
  | _ => exact Or.inl rfl

/-- A synced file that is not written to stays synced. -/
theorem Step.synced (hs : Step crc cfg s a s') (hi : i < s.fs.next)
    (hb : s'.fs.bytes i = s.fs.bytes i) (h : Synced s.fs i) : Synced s'.fs i := by
  have hcases : s'.fs.synced i = s.fs.synced i ∨ s'.fs.synced i = (s'.fs.bytes i).length := by
    cases hs with
    | writer hw => exact hw.synced_cases hi
    | merge hm => exact hm.synced_cases hi
    | _ => exact Or.inl rfl
  unfold Synced at h ⊢
  rcases hcases with hsame | hlen
  · rw [hsame, hb]
    exact h
  · exact hlen.ge

/-- The files of an output are not the active file. -/
theorem Sited.apart (h : Sited s) {out : MergeOutput} (ho : Sys.heldOutput s.merge = some out) :
    out.data ≠ s.writer.file ∧ out.hint ≠ s.writer.file ∧ out.data ≠ out.hint := by
  have hname := h.output out ho
  have hhint := h.hint out ho
  refine ⟨fun he => ?_, fun he => ?_, fun he => ?_⟩
  · rw [he] at hname
    have hn := s.fs.dir_inj _ _ _ hname h.current
    rcases s.merge.outputName_cases out.id with hc | ⟨hd, -⟩
    · rw [hc] at hn; cases hn
    · rw [hd] at hn
      exact h.below out ho (FileName.data.inj hn)
  · rw [he] at hhint
    cases s.fs.dir_inj _ _ _ hhint h.current
  · rw [he] at hname
    have hn := s.fs.dir_inj _ _ _ hname hhint
    rcases s.merge.outputName_cases out.id with hc | ⟨hd, -⟩
    · rw [hc] at hn; cases hn
    · rw [hd] at hn; cases hn

theorem Sited.output_lt (h : Sited s) {out : MergeOutput} (ho : Sys.heldOutput s.merge = some out) :
    out.data < s.fs.next := s.fs.dir_lt _ _ (h.output out ho)

/-- Nothing is written to the data file of an output after its last flush. -/
theorem Sited.output_bytes (h : Sited s) (hs : Step crc cfg s a s') (hn : a.Nominal)
    {st : FinishStep} {r : MergeRun} {out : MergeOutput} (hm : s.merge = .finish st r out)
    (hst : st ≠ .syncData) (hbuf : out.dataBuf = []) :
    s'.fs.bytes out.data = s.fs.bytes out.data := by
  have ho : Sys.heldOutput s.merge = some out := by rw [hm]; rfl
  obtain ⟨hfile, -, hhint⟩ := h.apart ho
  have hlt := h.output_lt ho
  have hfail : ∀ b, ((s.fs.append out.data []).append out.hint b).bytes out.data =
      s.fs.bytes out.data := by
    intro b
    rw [Fs.bytes_append_ne hhint, Fs.append_nil]
  cases hs with
  | writer hw =>
    have hgrows : s.fs.Grows {s.writer.file} s'.fs := hw.grows fun _ _ => rfl
    exact (hgrows.2 _ hlt).2 hfile
  | merge hms =>
    cases hms with
    | openData r' f rest hm' ht | openHint r' id data hm' => rw [hm] at hm'; cases hm'
    | torn r' out' fileId p rd rd' hm' hr => rw [hm] at hm'; cases hm'
    | undecodable r' out' fileId p b rd rd' e hm' hr hd => rw [hm] at hm'; cases hm'
    | syncData r' out' hm' hl =>
      rw [hm] at hm'
      cases hm'
      exact absurd rfl hst
    | syncHint r' out' hm' =>
      rw [hm] at hm'
      cases hm'
      exact Fs.bytes_append_ne hhint _
    | rename r' out' i hm' hi => rw [Fs.bytes_rename]
    | renameMissing r' out' hm' hi | readerMissing r' out' hm' hi =>
      rw [hm] at hm'
      cases hm'
      unfold Sys.failOutput
      rw [hbuf]
      exact hfail _
    | _ => rfl
  | spill out' n m ho' =>
    rw [ho] at ho'
    cases ho'
    show ((s.fs.append out.data (out.dataBuf.take n)).append out.hint _).bytes out.data = _
    rw [hbuf, List.take_nil]
    exact hfail _
  | mergeErr | outputErr => exact hn.elim
  | _ => rfl

/-- Only a write of the lock holder changes a file with a data name. -/
theorem Sited.data_bytes (h : Sited s) (hout : OutputCovered s.fs s.merge)
    (hs : Step crc cfg s a s') (hn : a.Nominal) (hi : s.fs.lookup (.data id) = some i)
    (hw : (∀ n, a ≠ .write n) ∨ i ≠ s.writer.file) : s'.fs.bytes i = s.fs.bytes i := by
  by_cases hT : i ∈ touched s a
  swap
  · exact (hs.grows.2 i (s.fs.dir_lt _ _ hi)).2 hT
  rcases hT with ⟨⟨n, ha⟩, hfile⟩ | ⟨out, ho, hdata | hhint⟩
  · exact absurd hfile (hw.resolve_left fun hno => hno n ha)
  · -- an output with a data name
    have hname := h.output out ho
    rw [← hdata] at hname
    have he := s.fs.dir_inj _ _ _ hname hi
    rcases s.merge.outputName_cases out.id with hc | ⟨-, st, r, out', hm, hst⟩
    · rw [hc] at he; cases he
    · rw [hm] at ho hout
      obtain rfl := Option.some.inj ho
      have hne : st ≠ .syncData := by
        rintro rfl
        cases hst
      have hbuf : out'.dataBuf = [] := by
        cases st with
        | syncData => exact absurd rfl hne
        | _ => exact hout.1
      rw [hdata]
      exact h.output_bytes hs hn hm hne hbuf
  · have hh := h.hint out ho
    rw [← hhint] at hh
    cases s.fs.dir_inj _ _ _ hh hi

end Writes

/-! ## Sealed files and the active file -/

/-- A data file that was sealed when the directory was opened, with the bytes it had then. -/
def SealedBefore (fs₀ fs : Fs FileName) (id : ℕ) (i : Inode) : Prop :=
  fs₀.lookup (.data id) = some i ∧ fs.bytes i = fs₀.bytes i ∧
    ∃ id', id < id' ∧ fs₀.lookup (.data id') ≠ none

/-- The lock holder is past a `sync_all` of the active file, or past the creation of a new one. -/
def Lock.PastSync (cfg : Config) : Lock → Prop
  | .rotateIfFull _ => cfg.durabilityPolicy = .syncOnEveryPut
  | .rotateTo .create _ _ | .rotateTo .clock _ _ | .rotateTo .reader _ _ => True
  | .rotateTo .sync _ _ | .free | .poisoned | .writing _ _ | .policy _ => False

/-- The active file has no byte that is not synced, and the writer knows. -/
def Sys.Flushed (s : Sys) : Prop :=
  s.writer.flushedOffset = s.writer.offset ∧ Synced s.fs s.writer.file

/-- What is synced in a session on the directory `fs₀`. -/
structure Covered (cfg : Config) (fs₀ : Fs FileName) (s : Sys) : Prop where
  sealed : ∀ {id i}, s.fs.lookup (.data id) = some i → id ≠ s.writer.currentFileId →
    Synced s.fs i ∨ SealedBefore fs₀ s.fs id i
  active : s.lock.PastSync cfg → s.Flushed
  output : OutputCovered s.fs s.merge

section Covered

variable {crc : Bytes → UInt32} {cfg : Config} {fs₀ : Fs FileName} {s s' : Sys} {a : Act}

theorem OutputCovered.step (h : OutputCovered s.fs s.merge) (hsite : Sited s)
    (hs : Step crc cfg s a s') (hn : a.Nominal) {st : FinishStep} {r : MergeRun} {out : MergeOutput}
    (hm : s.merge = .finish st r out) (hst : st ≠ .syncData) :
    out.dataBuf = [] ∧ Synced s'.fs out.data := by
  rw [hm] at h
  obtain ⟨hbuf, hsynced⟩ : out.dataBuf = [] ∧ Synced s.fs out.data := by
    cases st with
    | syncData => exact absurd rfl hst
    | _ => exact h
  have ho : Sys.heldOutput s.merge = some out := by rw [hm]; rfl
  exact ⟨hbuf, hs.synced (hsite.output_lt ho) (hsite.output_bytes hs hn hm hst hbuf) hsynced⟩

/-- The lock holder leaves an output alone. -/
theorem WriterStep.merge_cases (hs : WriterStep crc cfg s a s') :
    s'.merge = s.merge ∨ ∀ fs, OutputCovered fs s'.merge := by
  cases hs with
  | rotateReader next now caller i hl hi =>
    unfold Sys.endRotate
    split
    · exact Or.inr fun _ => trivial
    · exact Or.inl rfl
  | rotateMissing next now caller hl hi | failRotate st next caller e hl =>
    cases caller with
    | append c => exact Or.inl rfl
    | compaction => exact Or.inr fun _ => trivial
  | _ => exact Or.inl rfl

theorem Covered.output_step (h : Covered cfg fs₀ s) (hsite : Sited s) (hs : Step crc cfg s a s')
    (hn : a.Nominal) : OutputCovered s'.fs s'.merge := by
  have hkeep : ∀ {st r out}, s.merge = .finish st r out → st ≠ .syncData →
      out.dataBuf = [] ∧ Synced s'.fs out.data := fun hm hst => h.output.step hsite hs hn hm hst
  have hsame : OutputCovered s'.fs s.merge := by
    cases hm : s.merge with
    | finish st r out =>
      cases st with
      | syncData => trivial
      | _ => exact hkeep hm (by simp)
    | _ => trivial
  cases hs with
  | writer hw =>
    rcases hw.merge_cases with hm | hm
    · rw [hm]
      exact hsame
    · exact hm _
  | merge hms =>
    cases hms with
    | syncData r out hm hl => exact ⟨rfl, Synced.sync_self ..⟩
    | syncHint r out hm =>
      have hk := hkeep hm (by simp)
      exact hk
    | rename r out i hm hi => exact hkeep hm (by simp)
    | reader r out i hm hi => exact hkeep hm (by simp)
    | update r out p ps hm hp => exact hkeep hm (by simp)
    | _ => trivial
  | spill out n m ho =>
    cases hm : s.merge with
    | finish st r out' =>
      rw [hm] at ho
      obtain rfl := Option.some.inj ho
      cases st with
      | syncData => trivial
      | _ =>
        obtain ⟨hbuf, hsynced⟩ := hkeep hm (by simp)
        refine ⟨?_, hsynced⟩
        show out'.dataBuf.drop n = []
        rw [hbuf, List.drop_nil]
    | nextFile r output => cases output <;> trivial
    | _ => trivial
  | mergeErr | outputErr => exact hn.elim
  | startNot | startPanic | start => trivial

/-- The compaction thread gives a data name to an output that is synced, and to nothing else. -/
theorem MergeStep.data_cases (hs : MergeStep crc cfg s s') {id : ℕ} {i : Inode}
    (hi : s'.fs.lookup (.data id) = some i) : s.fs.lookup (.data id) = some i ∨
      ∃ r out, s.merge = .finish .rename r out ∧ s.fs.lookup (.compact out.id) = some i := by
  cases hs with
  | openData r f rest hm ht =>
    rw [Fs.lookup_create_ne (by simp)] at hi
    exact Or.inl hi
  | openHint r id data hm =>
    rw [show (s.openHint r id data).fs = s.fs.create (.hint id) from rfl,
      Fs.lookup_create_ne (by simp)] at hi
    exact Or.inl hi
  | rename r out j hm hj =>
    rcases lookup_of_rename hj hi with ⟨-, rfl⟩ | ⟨-, hi⟩
    · exact Or.inr ⟨r, out, hm, hj⟩
    · exact Or.inl hi
  | remove id' ids stale j hm hj =>
    by_cases hid : FileName.data id = .data id'
    · rw [hid, Fs.lookup_unlink_self] at hi; cases hi
    · rw [Fs.lookup_unlink_ne s.fs hid] at hi
      exact Or.inl hi
  | removeHint id' ids stale hm =>
    rw [Fs.lookup_unlink_ne s.fs (by simp)] at hi
    exact Or.inl hi
  | _ => exact Or.inl hi

theorem Covered.sealed_step (h : Covered cfg fs₀ s) (hsite : Sited s) (hs : Step crc cfg s a s')
    (hn : a.Nominal) {id : ℕ} {i : Inode} (hi : s'.fs.lookup (.data id) = some i)
    (hid : id ≠ s'.writer.currentFileId) : Synced s'.fs i ∨ SealedBefore fs₀ s'.fs id i := by
  have hold : s.fs.lookup (.data id) = some i → id ≠ s.writer.currentFileId →
      Synced s'.fs i ∨ SealedBefore fs₀ s'.fs id i := by
    intro hi hid
    have hne : i ≠ s.writer.file := by
      rintro rfl
      exact hid (FileName.data.inj (s.fs.dir_inj _ _ _ hi hsite.current))
    have hb := hsite.data_bytes h.output hs hn hi (Or.inr hne)
    rcases h.sealed hi hid with hsynced | ⟨hi₀, hb₀, hlater⟩
    · exact Or.inl (hs.synced (s.fs.dir_lt _ _ hi) hb hsynced)
    · exact Or.inr ⟨hi₀, hb.trans hb₀, hlater⟩
  have hs' := hs
  cases hs with
  | writer hw =>
    rcases hw.fs_cases with ⟨hl, -, hcur, -, -⟩ | ⟨next, caller, hlock, hfs, hcur, -, -⟩
    · rw [hl] at hi
      rw [hcur] at hid
      exact hold hi hid
    · rw [hcur] at hid
      rw [hfs, Fs.lookup_create_ne (by simpa using hid)] at hi
      by_cases hcur₀ : id = s.writer.currentFileId
      · -- the file that is sealed has been synced
        obtain rfl : i = s.writer.file := by
          rw [hcur₀, hsite.current] at hi
          exact (Option.some.inj hi).symm
        refine Or.inl ?_
        rw [hfs]
        exact (h.active (by rw [hlock]; trivial)).2.create _
      · exact hold hi hcur₀
  | merge hm =>
    have hcur : s'.writer.currentFileId = s.writer.currentFileId := by cases hm <;> rfl
    rw [hcur] at hid
    rcases hm.data_cases hi with hi | ⟨r, out, hmerge, hi⟩
    · exact hold hi hid
    · have hdata := hsite.output out (by rw [hmerge]; rfl)
      rw [hmerge, show Merge.outputName (.finish .rename r out) out.id = .compact out.id from rfl,
        hi] at hdata
      obtain rfl := Option.some.inj hdata
      exact Or.inl (h.output.step hsite hs' hn hmerge (by simp)).2
  | spill out n m ho => exact hold hi hid
  | mergeErr | outputErr => exact hn.elim
  | startNot | startPanic | start => exact hold hi hid

theorem Covered.active_step (h : Covered cfg fs₀ s) (hsite : Sited s) (hs : Step crc cfg s a s')
    (hn : a.Nominal) (hl' : s'.lock.PastSync cfg) : s'.Flushed := by
  -- the lock holder waits while another thread takes its step
  have hother : (∀ n, a ≠ .write n) → s'.lock = s.lock → s'.writer.file = s.writer.file →
      s'.writer.offset = s.writer.offset → s'.writer.flushedOffset = s.writer.flushedOffset →
      s'.Flushed := by
    intro ha hlock hfile hoff hflushed
    rw [hlock] at hl'
    obtain ⟨heq, hsynced⟩ := h.active hl'
    have hb := hsite.data_bytes h.output hs hn hsite.current (Or.inl ha)
    unfold Sys.Flushed
    rw [hfile, hoff, hflushed]
    exact ⟨heq, hs.synced (s.fs.dir_lt _ _ hsite.current) hb hsynced⟩
  cases hs with
  | writer hw =>
    cases hw with
    | begin | write | publish | policyPanic | notFull | full => exact hl'.elim
    | policySkip c now hl hp => exact absurd hl' hp
    | policySync c now last hl hp => exact ⟨rfl, Synced.sync_self ..⟩
    | rotateSync next now caller hl => exact ⟨rfl, Synced.sync_self ..⟩
    | rotateCreate next now caller hl =>
      have hnone := hsite.fresh next caller hl
      refine ⟨rfl, ?_⟩
      show ((s.fs.create (.data next)).bytes (s.fs.handle (.data next))).length ≤ _
      rw [Fs.handle_of_none hnone, Fs.bytes_create_next hnone]
      exact Nat.zero_le _
    | rotateClock next now caller hl => exact h.active (by rw [hl]; trivial)
    | rotateReader next now caller i hl hi =>
      unfold Sys.endRotate at hl'
      split at hl' <;> exact hl'.elim
    | rotateMissing next now caller hl hi => cases caller <;> exact hl'.elim
    | failWrite | failPolicy | failRotate => exact hn.elim
  | merge hm =>
    rcases hm.lock_eq with hlock | ⟨-, hlock⟩
    · exact hother (by simp) hlock (by cases hm <;> rfl) (by cases hm <;> rfl) (by cases hm <;> rfl)
    · rw [hlock] at hl'
      exact hl'.elim
  | startNot last res hm hl hres hn => exact hother (by simp) rfl rfl rfl rfl
  | startPanic | start => exact hl'.elim
  | spill out n m ho => exact hother (by simp) rfl rfl rfl rfl
  | mergeErr | outputErr => exact hn.elim

/-- A store just opened has sealed nothing. -/
theorem OpenedAny.covered (ho : OpenedAny crc fs₀ s) (cfg : Config) : Covered cfg fs₀ s := by
  refine ⟨fun {id i} hi hid => Or.inr ?_, ?_, ?_⟩
  · have hcur := ho.fresh ho.current
    have hi₀ : fs₀.lookup (.data id) = some i := by
      refine (ho.fresh hi).resolve_right ?_
      rintro ⟨rfl, hnone⟩
      rcases hcur with hcur | ⟨hcur, -⟩
      · rw [hnone] at hcur; cases hcur
      · exact hid hcur.symm
    refine ⟨hi₀, (ho.data hi₀).2.1 hid, s.writer.currentFileId,
      lt_of_le_of_ne (ho.le_current hi) hid, ?_⟩
    rcases hcur with hcur | ⟨-, hnone⟩
    · rw [hcur]
      simp
    · rw [hnone] at hi₀; cases hi₀
  · rw [ho.free]
    exact False.elim
  · rw [ho.idle]
    trivial

/-- In every session without I/O errors. -/
theorem Unchecked.covered (h : Unchecked crc cfg (fun _ a => a.Nominal) fs₀ s) :
    Covered cfg fs₀ s := by
  induction h with
  | opened hlist hopen =>
    obtain ⟨-, ho⟩ := (openStore_any crc _ hlist).ok rfl hopen
    exact ho.covered cfg
  | step hsession hn hs ih =>
    have hsite := hsession.sited
    have hstep := stepAny_cases hs
    exact ⟨fun hi hid => ih.sealed_step hsite hstep hn hi hid, ih.active_step hsite hstep hn,
      ih.output_step hsite hstep hn⟩

end Covered

end Bitcask
