import Bitcask.Storage.Ids

/-!
# The ids of a history

Over any number of sessions on any directory, every reached state has the names and ids of `Ids`
(`traced_ids`). `merge_ids_in_range` draws the conclusions.
-/

namespace Bitcask

open LittleEndian FileSystem CrashHoare

/-! ## Histories -/

/-- The worlds reached from any directory, by any steps, with what is remembered of the way. A
process may die at any moment, and `open` may fail or die. -/
inductive Traced (crc : Bytes → UInt32) : World → Trace → Prop
  | dir (fs : Fs FileName) : Traced crc (.closed fs) ⟨dataIds fs, 0, 0⟩
  | opened {fs : Fs FileName} {tr : Trace} {listing : List FileName} {now : ℕ} {s : Sys}
      (cfg : Config) (hpos : 0 < cfg.fileSizeThreshold) (h : Traced crc (.closed fs) tr)
      (hlist : (fs.create .lock).Lists listing)
      (hopen : (openStore crc listing now fs).result = .ok s) :
      Traced crc (.running cfg s) { tr with ever := tr.ever ∪ dataIds s.fs }
  | openFailed {fs : Fs FileName} {tr : Trace} {listing : List FileName} {now : ℕ} {e : Fault}
      (h : Traced crc (.closed fs) tr) (hlist : (fs.create .lock).Lists listing)
      (hopen : (openStore crc listing now fs).result = .error e) :
      Traced crc (.closed (openStore crc listing now fs).after)
        { tr with ever := tr.ever ∪ dataIds (openStore crc listing now fs).after }
  | openCrash {fs fs' : Fs FileName} {tr : Trace} {listing : List FileName} {now : ℕ}
      (h : Traced crc (.closed fs) tr) (hlist : (fs.create .lock).Lists listing)
      (hcrash : (openStore crc listing now).Crashes fs fs') :
      Traced crc (.closed fs') { tr with ever := tr.ever ∪ dataIds fs' }
  | act {cfg : Config} {s s' : Sys} {tr : Trace} {a : Act} (h : Traced crc (.running cfg s) tr)
      (hs : stepAny crc cfg s a = some s') : Traced crc (.running cfg s') (tr.step s a s')
  | crash {cfg : Config} {s : Sys} {tr : Trace} (h : Traced crc (.running cfg s) tr) :
      Traced crc (.closed s.fs) tr
  | close {cfg : Config} {s : Sys} {tr : Trace} {fs : Fs FileName}
      (h : Traced crc (.running cfg s) tr) (hc : s.close = some fs) : Traced crc (.closed fs) tr

/-- The ids ever used, in a directory no process has open: none is above all data files there. -/
def DirIds (ever : Set ℕ) (fs : Fs FileName) : Prop :=
  dataIds fs ⊆ ever ∧ ∀ id ∈ ever, ∃ id' ∈ dataIds fs, id ≤ id'

def World.Ids (tr : Trace) : World → Prop
  | .closed fs => DirIds tr.ever fs
  | .running cfg s => Bitcask.Ids cfg tr s

section History

variable {crc : Bytes → UInt32} {cfg : Config} {tr : Trace} {s : Sys} {fs fs' : Fs FileName}
  {ever : Set ℕ}

theorem DirIds.opening (h : DirIds ever fs) (ho : Opening fs fs') :
    DirIds (ever ∪ dataIds fs') fs' := by
  refine ⟨Set.subset_union_right, ?_⟩
  rintro id (hid | hid)
  · obtain ⟨id', hid', hle⟩ := h.2 id hid
    obtain ⟨i, hi⟩ := Option.ne_none_iff_exists'.mp hid'
    refine ⟨id', ?_, hle⟩
    show fs'.lookup (.data id') ≠ none
    rw [(ho.data hi).1]
    simp
  · exact ⟨id, hid, le_rfl⟩

/-- The names of a store just opened. -/
theorem DirIds.named (h : DirIds ever fs) (ho : OpenedAny crc fs s) :
    Named (ever ∪ dataIds s.fs) s.fs s.readers s.writer.currentFileId s.writer.file := by
  have hle : ∀ {id}, s.fs.lookup (.data id) ≠ none → id ≤ s.writer.currentFileId := by
    intro id hid
    obtain ⟨i, hi⟩ := Option.ne_none_iff_exists'.mp hid
    exact ho.le_current hi
  refine ⟨Or.inr, ?_, ho.current, fun {id i} hi => ?_, fun id hid => ?_⟩
  · rintro id (hid | hid)
    · obtain ⟨id', hid', hle'⟩ := h.2 id hid
      obtain ⟨i, hi⟩ := Option.ne_none_iff_exists'.mp hid'
      exact hle'.trans (ho.le_current (ho.data hi).1)
    · exact hle hid
  · have hi' := (ho.readers id i).mp hi
    exact ⟨Or.inr (by show s.fs.lookup _ ≠ none; rw [hi']; simp), s.fs.dir_lt _ _ hi',
      fun n hn => s.fs.dir_inj _ _ _ hn hi'⟩
  · rcases hid with hid | hid
    · exact absurd (ho.compact id) hid
    · exact hle (ho.orphan id hid)

/-- A store just opened. -/
theorem DirIds.opened (h : DirIds tr.ever fs) (ho : OpenedAny crc fs s)
    (hpos : 0 < cfg.fileSizeThreshold) :
    Ids cfg { tr with ever := tr.ever ∪ dataIds s.fs } s := by
  refine ⟨hpos, h.named ho, ?_, ?_⟩
  · rw [ho.free]; trivial
  · rw [ho.idle]; trivial

theorem Ids.dir (h : Ids cfg tr s) (hl : fs.lookup = s.fs.lookup) : DirIds tr.ever fs := by
  constructor
  · intro id hid
    have hid : fs.lookup (.data id) ≠ none := hid
    rw [hl] at hid
    exact h.named.ever_name hid
  · intro id hid
    refine ⟨s.writer.currentFileId, ?_, h.named.ever_le hid⟩
    show fs.lookup _ ≠ none
    rw [hl, h.named.current]
    simp

/-- Every reached world has the invariant. -/
theorem traced_ids {w : World} (h : Traced crc w tr) : w.Ids tr := by
  induction h with
  | dir fs => exact ⟨subset_rfl, fun id hid => ⟨id, hid, le_rfl⟩⟩
  | @opened fs tr listing now s cfg hpos _ hlist hopen ih =>
    obtain ⟨-, ho⟩ := (openStore_any crc now hlist).ok rfl hopen
    exact DirIds.opened ih ho hpos
  | @openFailed fs tr listing now e _ hlist hopen ih =>
    have hrun := (openStore_any crc now hlist fs rfl).2
    rw [hopen] at hrun
    exact DirIds.opening ih hrun.2
  | openCrash _ hlist hcrash ih =>
    exact DirIds.opening ih ((openStore_any crc _ hlist).crashes rfl hcrash)
  | act _ hs ih => exact ids_step ih (stepAny_cases hs)
  | crash _ ih => exact Ids.dir ih rfl
  | @close cfg s tr fs _ hc ih =>
    refine Ids.dir ih ?_
    unfold Sys.close at hc
    split at hc
    case h_5 => cases hc
    all_goals
      obtain rfl := Option.some.inj hc
      rfl

theorem Traced.of_steps {P : Sys → Act → Prop} [∀ s a, Decidable (P s a)] {acts : List Act}
    {s' : Sys} (h : Traced crc (.running cfg s) tr) (hs : steps crc cfg P acts s = some s') :
    ∃ tr', Traced crc (.running cfg s') tr' := by
  induction acts generalizing s tr with
  | nil =>
    obtain rfl := Option.some.inj hs
    exact ⟨tr, h⟩
  | cons a acts ih =>
    obtain ⟨s₁, -, hs₁, hs⟩ := steps_cons hs
    exact ih (.act h (stepAny_of_step hs₁)) hs

/-- The steps that give a data file its name. -/
theorem Step.new_name {s' : Sys} {a : Act} (hs : Step crc cfg s a s') {id : ℕ}
    (hold : s.fs.lookup (.data id) = none) (hnew : s'.fs.lookup (.data id) ≠ none) :
    (∃ caller, s.lock = .rotateTo .create id caller) ∨
      ∃ r out, s.merge = .finish .rename r out ∧ out.id = id := by
  have hsame : s'.fs.lookup (.data id) ≠ s.fs.lookup (.data id) := by rwa [hold]
  cases hs with
  | writer hw =>
    rcases hw.fs_cases with ⟨hl, -⟩ | ⟨next, caller, hlock, hfs, -⟩
    · exact absurd (congrFun hl _) hsame
    · by_cases hid : id = next
      · subst hid
        exact Or.inl ⟨caller, hlock⟩
      · rw [hfs, Fs.lookup_create_ne (by simpa using hid)] at hsame
        exact absurd rfl hsame
  | merge hm =>
    cases hm with
    | openData r f rest hm ht => exact absurd (Fs.lookup_create_ne (by simp)) hsame
    | openHint r id' data hm => exact absurd (Fs.lookup_create_ne (by simp)) hsame
    | rename r out i hm hi =>
      rcases Option.ne_none_iff_exists'.mp hnew with ⟨j, hj⟩
      rcases lookup_of_rename hi hj with ⟨he, -⟩ | ⟨-, hj'⟩
      · exact Or.inr ⟨r, out, hm, (FileName.data.inj he).symm⟩
      · rw [hold] at hj'; cases hj'
    | remove id' ids stale i hm hi =>
      by_cases hid : FileName.data id = .data id'
      · rw [hid, Fs.lookup_unlink_self] at hnew
        exact absurd rfl hnew
      · exact absurd (Fs.lookup_unlink_ne _ hid) hsame
    | removeHint id' ids stale hm => exact absurd (Fs.lookup_unlink_ne _ (by simp)) hsame
    | _ => exact absurd rfl hsame
  | _ => exact absurd rfl hsame

/-- The ids of a running store. A merge numbers its outputs one after the other, starting above the
active id of its snapshot: `nextCompactionFileId` is the id of the last one. -/
structure IdsInRange (crc : Bytes → UInt32) (cfg : Config) (tr : Trace) (s : Sys) : Prop where
  run : ∀ {r}, s.merge.run = some r → r.firstCompactedFileId = tr.first ∧
    tr.first ≤ r.nextCompactionFileId ∧
    r.nextCompactionFileId - tr.first ≤ tr.total / cfg.fileSizeThreshold + 1
  output : ∀ {out}, Sys.heldOutput s.merge = some out →
    tr.first < out.id ∧ out.id - tr.first ≤ tr.total / cfg.fileSizeThreshold + 1 ∧
      out.id < s.writer.currentFileId
  /-- The writer never goes back. -/
  later : ∀ {a s'}, stepAny crc cfg s a = some s' →
    s.writer.currentFileId ≤ s'.writer.currentFileId
  rotation : ∀ {id caller}, s.lock = .rotateTo .create id caller → id ∉ tr.ever
  rename : ∀ {r out}, s.merge = .finish .rename r out → out.id ∉ tr.ever
  /-- A step names no file by an id that was in use before. -/
  named : ∀ {a s' id}, stepAny crc cfg s a = some s' → s.fs.lookup (.data id) = none →
    s'.fs.lookup (.data id) ≠ none → id ∉ tr.ever

theorem Ids.rotation (h : Ids cfg tr s) {id : ℕ} {caller : Caller}
    (hl : s.lock = .rotateTo .create id caller) : id ∉ tr.ever := by
  intro hid
  have hlt := h.lock
  rw [hl] at hlt
  exact absurd (h.named.ever_le hid) (Nat.not_le.mpr hlt)

theorem Ids.renamed (h : Ids cfg tr s) {r : MergeRun} {out : MergeOutput}
    (hm : s.merge = .finish .rename r out) : out.id ∉ tr.ever := by
  intro hid
  have hmi := h.merge
  rw [hm] at hmi
  obtain ⟨hout, -, -, hrun⟩ := hmi
  have hlt := hrun.next_lt
  rw [hout.1] at hid
  rcases hrun.ids _ hid with hle | hle
  · exact absurd hle (Nat.not_succ_le_self _)
  · exact absurd hle (Nat.not_le.mpr hlt)

theorem Ids.current_le (h : Ids cfg tr s) {a : Act} {s' : Sys} (hs : Step crc cfg s a s') :
    s.writer.currentFileId ≤ s'.writer.currentFileId := by
  have hmem : s.writer.currentFileId ∈ (tr.step s a s').ever :=
    Or.inl (h.named.ever_name (by rw [h.named.current]; simp))
  exact (ids_step h hs).named.ever_le hmem

/-- An output is numbered below the id that the writer went on to. -/
theorem MergeIds.out_lt {fs : Fs FileName} {cur : ℕ} {lock : Lock} {m : Merge}
    (h : MergeIds cfg tr fs cur lock m) {out : MergeOutput} (ho : Sys.heldOutput m = some out) :
    out.id < cur := by
  have hlt : ∀ {r isOpen used}, OutIds tr fs r out → RunIds cfg tr fs cur r isOpen used →
      out.id < cur := by
    intro r isOpen used hout hrun
    rw [hout.1]
    exact hrun.next_lt.trans_le hrun.bar_le
  cases m with
  | nextFile r output =>
    obtain rfl : output = some out := ho
    exact hlt h.1 h.2.2
  | records r out' fileId reader =>
    obtain rfl := Option.some.inj ho
    exact hlt h.1 h.2.2.2
  | finish st r out' =>
    obtain rfl := Option.some.inj ho
    exact hlt h.1 h.2.2.2
  | _ => cases ho

/-- In every reached state: a merge opens at most `total_bytes / file_size_threshold + 1` outputs,
their ids are above the active id of its snapshot and below all ids the writer has afterwards, and
no rotation or rename uses an id that names a data file, or has done so at any earlier time. -/
theorem merge_ids_in_range (h : Traced crc (.running cfg s) tr) : IdsInRange crc cfg tr s := by
  have hids : Ids cfg tr s := traced_ids h
  have hrun : ∀ {r}, s.merge.run = some r → r.firstCompactedFileId = tr.first ∧
      tr.first ≤ r.nextCompactionFileId ∧
      r.nextCompactionFileId - tr.first ≤ tr.total / cfg.fileSizeThreshold + 1 := by
    intro r hr
    obtain ⟨-, cur', isOpen, used, hrun⟩ := hids.merge.run hr
    exact ⟨hrun.first_eq, (Nat.le_add_right _ _).trans hrun.first_le,
      Nat.sub_le_iff_le_add'.mpr hrun.next_le⟩
  refine ⟨hrun, fun {out} ho => ?_, fun hs => hids.current_le (stepAny_cases hs), hids.rotation,
    hids.renamed, fun hs hold hnew => ?_⟩
  · obtain ⟨⟨r, hr, hout⟩, -⟩ := hids.merge.held ho
    refine ⟨hout.2.1, ?_, hids.merge.out_lt ho⟩
    rw [hout.1]
    exact (hrun hr).2.2
  · rcases (stepAny_cases hs).new_name hold hnew with ⟨caller, hl⟩ | ⟨r, out, hm, rfl⟩
    · exact hids.rotation hl
    · exact hids.renamed hm

/-- A merge that is about to rename its first output, while a remove is being written. -/
theorem merge_ids_in_range_renaming : ∃ s tr r out,
    steps crc32 smallFiles (fun _ a => a.Nominal) (interrupted 10) (emptyStore crc32) = some s ∧
      Traced crc32 (.running smallFiles s) tr ∧ s.merge = .finish .rename r out ∧
      IdsInRange crc32 smallFiles tr s := by
  have hrun : ((steps crc32 smallFiles (fun _ a => a.Nominal) (interrupted 10)
      (emptyStore crc32)).any fun s => s.merge.renaming.isSome) := by decide +kernel
  obtain ⟨s, hs, hm⟩ := (Option.any_eq_true ..).mp hrun
  obtain ⟨⟨r, out⟩, hm⟩ := Option.isSome_iff_exists.mp hm
  obtain ⟨tr, htr⟩ := (Traced.opened smallFiles (by decide) (.dir Fs.empty) lists_empty
    (emptyStore_opened crc32)).of_steps hs
  exact ⟨s, tr, r, out, hs, htr, Merge.renaming_eq hm, merge_ids_in_range htr⟩

end History

end Bitcask
