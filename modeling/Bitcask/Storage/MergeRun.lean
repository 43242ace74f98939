import Bitcask.Storage.MergeSteps

/-!
# A merge from its start to its end

`merge_completes` says that a merge returns `Ok` after a bounded number of its own steps, provided the
directory still has every file of the snapshot. A second merge of the same session does not meet this
condition: the readers map still has the files the first one removed (`second_merge_fails`).
-/

namespace Bitcask

open LittleEndian FileSystem

/-! ## A whole merge -/

section Whole

variable {crc : Bytes → UInt32} {cfg : Config} {recs : Inode → List Command} {s₀ s s' : Sys}
  {a : Act} {bar n top : ℕ} {walked : List (Placed × Bool)}

theorem snapshot_nodup (s : Sys) : (s.snapshot.map Prod.fst).Nodup := by
  have hsorted : (s.readers.toList.map Prod.fst).Pairwise (· < ·) := by
    rw [List.pairwise_map]
    exact s.readers.ordered_keys_toList.imp fun hlt => Nat.compare_eq_lt.mp hlt
  exact (hsorted.imp Nat.ne_of_lt).sublist (List.filter_sublist.map _)

theorem Rep.snapshot_lt (h : Rep crc cfg recs s) (hl : s.lock.opening = false)
    (hm : s.merge.renamed = none) :
    ∀ id ∈ s.snapshot.map Prod.fst, id < s.writer.currentFileId := by
  intro id hid
  obtain ⟨f, hf, rfl⟩ := List.mem_map.mp hid
  obtain ⟨hf, hne⟩ := mem_snapshot hf
  exact Nat.lt_of_le_of_ne (h.core.rd_le ((handles_eq hl hm _).trans hf)) hne

/-- A merge begins. -/
theorem MergeInv.start (hbelow : ∀ id ∈ s₀.snapshot.map Prod.fst, id < s₀.writer.currentFileId)
    (hdir : ∀ f ∈ s₀.snapshot, s₀.fs.lookup (.data f.1) ≠ none)
    (hnew : ∀ id, s₀.writer.currentFileId < id → s₀.fs.lookup (.data id) = none)
    (hbar : s₀.writer.currentFileId < bar) :
    MergeInv crc s₀ bar 0 [] s₀.writer.currentFileId
      { s₀ with
        lock := .rotateTo .sync bar .compaction
        merge := .rotating ⟨s₀.writer.currentFileId, s₀.writer.staleBytesCount, s₀.snapshot, [],
          s₀.writer.currentFileId, []⟩ } where
  phase := ⟨rfl, rfl, rfl⟩
  lock := by simp
  stale _ := le_rfl
  below := hbelow
  first_le := le_rfl
  first_top := le_rfl
  top_lt h := absurd h (lt_irrefl _)
  reserves := Or.inl rfl
  top_bar := hbar
  unused id htop _ := hnew id htop
  suffix := List.suffix_refl _
  left id hid := by
    obtain ⟨f, hf, rfl⟩ := List.mem_map.mp hid
    exact hdir f hf
  gone id hid hns := absurd hid hns
  walk := rfl
  outputs := by simp [outputBytes, Merge.openBytes, liveBytes]
  count := by
    simp only [Lock.rotationLeft, Merge.cost, MergeRun.cost, Merge.remaining, List.length_nil]
    omega

/-- The conditions under which `run_compaction` enters its loop, and the files it will remove are
there. -/
structure Due (cfg : Config) (s : Sys) : Prop where
  stale : cfg.compactionThreshold ≤ s.writer.staleBytesCount
  snapshot : s.snapshot ≠ []
  threshold : 0 < cfg.fileSizeThreshold
  lock : s.lock ≠ .poisoned
  files : ∀ f ∈ s.snapshot, s.fs.lookup (.data f.1) ≠ none

/-- The invariant of a merge holds in all its states. -/
theorem Merging.inv (hr₀ : Rep crc cfg recs s₀) (ht₀ : Tight s₀) (hdue : Due cfg s₀)
    (h : Merging crc cfg s₀ n walked s) :
    Tight s ∧ ∃ recs top, Rep crc cfg recs s ∧
      MergeInv crc s₀ (s₀.nextActive cfg) n walked top s := by
  induction h with
  | start hs =>
    have hs := step_cases hs
    have htidy : Tidy s₀ .start := trivial
    have ht := tight_step hr₀ ht₀ htidy hs
    obtain ⟨recs', hr⟩ := rep_step hr₀ (ht₀.stepOk htidy trivial hs) hs
    cases hs with
    | writer hw => cases hw
    | startNot last res hm hl hres hn =>
      exfalso
      rcases hn (hl.resolve_right hdue.lock) with hlt | hnil
      · exact absurd hdue.stale (Nat.not_le_of_lt hlt)
      · exact hdue.snapshot hnil
    | startPanic last hm hl hs hn hz => exact absurd hz (Nat.ne_of_gt hdue.threshold)
    | start last hm hl hs hn hz =>
      refine ⟨ht, recs', _, hr, .start (hr₀.snapshot_lt (by rw [hl]; rfl) (by rw [hm]; rfl)) hdue.files
        (fun id hlt => ?_) (s₀.lt_nextActive cfg)⟩
      by_contra hne
      obtain ⟨i, hi⟩ := Option.ne_none_iff_exists'.mp hne
      exact absurd (hr₀.core.rd_le (hr₀.core.dir_rd hi)) (Nat.not_le_of_lt hlt)
  | @step n walked s s' a _ hrun ha hs ih =>
    obtain ⟨ht, recs', top, hr, hinv⟩ := ih
    have hfits := step_fits hs
    have hs := step_cases hs
    obtain ⟨recs'', hr'⟩ := rep_step hr (ht.stepOk ha.1.tidy hfits hs) hs
    refine ⟨tight_step hr ht ha.1.tidy hs, recs'', ?_⟩
    have hidle : ∀ last, s.merge ≠ .idle last := fun last hm => by rw [hm] at hrun; exact hrun
    cases hs with
    | writer hw =>
      have hnil : examined crc s a = [] := by cases hw <;> rfl
      rw [hnil, List.append_nil]
      exact ⟨top, hr', hinv.writer hr hrun ha hw⟩
    | merge hm =>
      obtain ⟨top', hinv'⟩ := hinv.mergeStep hr (snapshot_nodup s₀) hm
      exact ⟨top', hr', hinv'⟩
    | spill out k l ho => exact ⟨top, hr', hinv.spill hr (.spill out k l ho)⟩
    | startNot last res hm | startPanic last hm | start last hm => exact absurd hm (hidle last)
    | mergeErr | outputErr => exact ha.1.elim

/-- While a merge runs, its thread can take a step, unless it waits for the writer lock, or its
output would be too long for a file. -/
theorem MergeInv.progress (hr : Rep crc cfg recs s) (h : MergeInv crc s₀ bar n walked top s)
    (hrun : s.merge.Running) :
    (∃ a s', s.ownStep a = true ∧ Calm cfg s a ∧ step crc cfg s a = some s') ∨
      (∃ stale, s.merge = .subtract stale ∧ s.lock ≠ .free) ∨
      ∃ r out, s.merge = .finish .syncData r out ∧
        maxFileLen ≤ (s.fs.bytes out.data).length + out.dataBuf.length := by
  have hmerge : ∀ {s'}, s.mergeStep crc cfg = some s' →
      ∃ a s', s.ownStep a = true ∧ Calm cfg s a ∧ step crc cfg s a = some s' := fun hs =>
    ⟨.merge, _, rfl, ⟨trivial, by simp⟩, hs⟩
  have hlock := h.lock
  cases hm : s.merge with
  | idle | dead => rw [hm] at hrun; exact hrun.elim
  | rotating r =>
    have hmr := hr.merge
    rw [hm] at hmr
    obtain ⟨-, -, -, bar, hrot, -⟩ := hmr
    unfold Lock.rotates at hrot
    split at hrot
    · rename_i st next hl
      refine Or.inl ⟨.writer 0, s.rotateTo 0 st next .compaction, ?_, ⟨trivial, ?_⟩, ?_⟩
      · simp [Sys.ownStep, hl, Lock.rotates]
      · rintro now c - hp
        rw [hl] at hp; cases hp
      · show s.writerStep crc cfg 0 = _
        rw [Sys.writerStep, hl]
    · cases hrot
  | nextFile | openHint | records | removeData | removeHint =>
    exact Or.inl (hmerge (by rw [Sys.mergeStep, hm]))
  | finish st r out =>
    by_cases hlong : st = .syncData ∧
        maxFileLen ≤ (s.fs.bytes out.data).length + out.dataBuf.length
    · exact Or.inr (Or.inr ⟨r, out, by rw [hlong.1], hlong.2⟩)
    · refine Or.inl ?_
      have hsome : (s.mergeStep crc cfg).isSome := by
        rw [Sys.mergeStep, hm]
        unfold Sys.finishOutput
        cases st with
        | syncData =>
          simp only
          rw [if_pos (by simpa using hlong)]
          rfl
        | syncHint => rfl
        | rename | reader | updates => simp only; split <;> rfl
      obtain ⟨s', hs'⟩ := Option.isSome_iff_exists.mp hsome
      exact hmerge hs'
  | subtract stale =>
    by_cases hfree : s.lock = .free
    · refine Or.inl ?_
      have hsome : (s.mergeStep crc cfg).isSome := by
        rw [Sys.mergeStep, hm]
        simp only [Sys.subtractStale, hfree]
        split <;> rfl
      obtain ⟨s', hs'⟩ := Option.isSome_iff_exists.mp hsome
      exact hmerge hs'
    · exact Or.inr (Or.inl ⟨stale, rfl, hfree⟩)

/-- The last step of a merge takes from the stale bytes what the merge read at its start. -/
theorem MergeInv.last (hr : Rep crc cfg recs s) (h : MergeInv crc s₀ bar n walked top s)
    (hrun : s.merge.Running) (ha : a.Nominal) (hs : Step crc cfg s a s')
    (hidle : s'.merge = .idle (some (.ok ()))) :
    s₀.writer.staleBytesCount ≤ s.writer.staleBytesCount ∧
      s'.writer.staleBytesCount = s.writer.staleBytesCount - s₀.writer.staleBytesCount := by
  have hphase := h.phase
  cases hs with
  | writer hw =>
    exfalso
    rcases hr.merge_writer ha hw with hm | ⟨r, -, hm⟩
    · rw [hm] at hidle
      rw [hidle] at hrun
      exact hrun
    · rw [hm] at hidle; cases hidle
  | merge hm =>
    cases hm with
    | subtract stale hm hl hle =>
      have hstale := h.stale hrun
      rw [hm] at hphase
      obtain rfl : stale = s₀.writer.staleBytesCount := hphase
      exact ⟨hstale, rfl⟩
    | _ => simp [Sys.failOutput, Sys.failMerge, Sys.openHint] at hidle
  | startNot last res hm | startPanic last hm | start last hm => rw [hm] at hrun; exact hrun.elim
  | spill out k l ho =>
    exfalso
    cases hm : s.merge with
    | idle | dead => rw [hm] at hrun; exact hrun
    | nextFile r output => cases output <;> simp [hm, Sys.withOutput] at hidle
    | _ => simp [hm, Sys.withOutput] at hidle
  | mergeErr | outputErr => exact ha.elim

/-- What is known of a merge that entered `run_compaction` in `s₀`, has taken `n` steps of its own,
has looked at the records `walked` and is now in `s`. -/
structure MergeOutcome (crc : Bytes → UInt32) (cfg : Config) (s₀ : Sys) (n : ℕ)
    (walked : List (Placed × Bool)) (s : Sys) : Prop where
  bounded : n ≤ 2 * (sourceRecords crc s₀.fs s₀.snapshot).length + 20 * s₀.snapshot.length + 7
  /-- It never returns an error. -/
  result : s.merge.Running ∨ s.merge = .idle (some (.ok ()))
  /-- It waits for nothing but the writer lock; the filesystem takes files up to `maxFileLen`. -/
  progress : s.merge.Running →
    (∃ a s', s.ownStep a = true ∧ Calm cfg s a ∧ step crc cfg s a = some s') ∨
      (∃ stale, s.merge = .subtract stale ∧ s.lock ≠ .free) ∨
      ∃ r out, s.merge = .finish .syncData r out ∧
        maxFileLen ≤ (s.fs.bytes out.data).length + out.dataBuf.length
  removed : ¬ s.merge.Running → ∀ f ∈ s₀.snapshot,
    s.fs.lookup (.data f.1) = none ∧ s.fs.lookup (.hint f.1) = none
  /-- It has looked at every record of its sources, and its outputs are those that were live then. The
  last output is `top`: there is no other file among the ids the merge has reserved. -/
  copied : ¬ s.merge.Running → walked.map Prod.fst = sourceRecords crc s₀.fs s₀.snapshot ∧
    ∃ top, s₀.writer.currentFileId ≤ top ∧ top < s₀.nextActive cfg ∧
      outputBytes s.fs s₀.writer.currentFileId top = liveBytes walked ∧
      ∀ id, top < id → id < s₀.nextActive cfg → s.fs.lookup (.data id) = none
  /-- Its last step takes from the stale bytes what it read at its start. -/
  last : s.merge.Running → ∀ a s', Calm cfg s a → step crc cfg s a = some s' →
    ¬ s'.merge.Running → s₀.writer.staleBytesCount ≤ s.writer.staleBytesCount ∧
      s'.writer.staleBytesCount = s.writer.staleBytesCount - s₀.writer.staleBytesCount

theorem MergeInv.idle (h : MergeInv crc s₀ bar n walked top s) (hrun : ¬ s.merge.Running) :
    s.merge = .idle (some (.ok ())) := by
  have hphase := h.phase
  cases hm : s.merge with
  | idle last =>
    rw [hm] at hphase
    exact congrArg Merge.idle hphase
  | dead => rw [hm] at hphase; exact hphase.elim
  | _ => rw [hm] at hrun; exact absurd trivial hrun

/-- In a session without a failing filesystem call, a merge that is due and finds every file of its
snapshot in the directory returns `Ok` after a bounded number of its own steps, whatever the writers
do meanwhile. Then its sources and their hints are gone, and its outputs hold the records that were
live when it looked at them. -/
theorem merge_completes {fs₀ : Fs FileName} (hf : Faithful crc fs₀) (hb : Bounded fs₀)
    (h₀ : Session crc cfg (fun _ a => a.Nominal) fs₀ s₀) (hdue : Due cfg s₀)
    (h : Merging crc cfg s₀ n walked s) : MergeOutcome crc cfg s₀ n walked s := by
  obtain ⟨⟨recs₀, hr₀⟩, ht₀⟩ := h₀.rep hf hb
  obtain ⟨-, recs, top, hr, hinv⟩ := h.inv hr₀ ht₀ hdue
  constructor
  case bounded =>
    have := hinv.count
    omega
  case result => exact (Classical.em _).imp_right hinv.idle
  case progress => exact hinv.progress hr
  case removed =>
    intro hrun f hf
    obtain ⟨hd, hh⟩ := hinv.gone f.1 (List.mem_map_of_mem hf) (by rw [hinv.idle hrun]; simp [Merge.sources])
    rw [hinv.idle hrun] at hh
    exact ⟨hd, hh.resolve_left (by simp [Merge.hintLeft])⟩
  case copied =>
    intro hrun
    have hwalk := hinv.walk
    have houtputs := hinv.outputs
    rw [hinv.idle hrun] at hwalk houtputs
    exact ⟨by simpa [Merge.remaining] using hwalk, top, hinv.first_top,
      hinv.top_bar, by simpa [Merge.openBytes] using houtputs, hinv.unused⟩
  case last =>
    intro hrun a s' ha hs hidle
    obtain ⟨-, recs', top', -, hinv'⟩ := (Merging.step h hrun ha hs).inv hr₀ ht₀ hdue
    exact hinv.last hr hrun ha.1 (step_cases hs) (hinv'.idle hidle)

end Whole

instance : DecidablePred Merge.Running
  | .idle _ | .dead => isFalse fun h => h
  | .rotating _ | .nextFile _ _ | .openHint _ _ _ | .records _ _ _ _ | .finish _ _ _
  | .removeData _ _ | .removeHint _ _ _ | .subtract _ => isTrue trivial

/-- The steps of a merge in a run. -/
theorem Merging.of_steps {crc : Bytes → UInt32} {cfg : Config} {s₀ s s' : Sys} {n : ℕ}
    {walked : List (Placed × Bool)} {acts : List Act}
    (hcfg : cfg.durabilityPolicy ≠ .syncOnInterval) (h : Merging crc cfg s₀ n walked s)
    (hs : steps crc cfg (fun s a => a.Nominal ∧ s.merge.Running) acts s = some s') :
    ∃ n' walked', Merging crc cfg s₀ n' walked' s' := by
  induction acts generalizing n walked s with
  | nil =>
    obtain rfl := Option.some.inj hs
    exact ⟨n, walked, h⟩
  | cons a acts ih =>
    obtain ⟨s₁, ⟨hn, hrun⟩, hs₁, hs⟩ := steps_cons hs
    exact ih (.step h hrun ⟨hn, fun _ _ _ _ hp => absurd hp hcfg⟩ hs₁) hs

/-- One key set twice. -/
def twoSets : List Act := Call.acts crc32 (.set "a" "1") 7 ++ Call.acts crc32 (.set "a" "2") 7

/-- A merge during which another key is set. -/
theorem merge_completes_under_set : ∃ s₀ s₁ s n walked,
    steps crc32 smallFiles (fun _ a => a.Nominal) twoSets (emptyStore crc32) = some s₀ ∧
    step crc32 smallFiles s₀ .start = some s₁ ∧
    steps crc32 smallFiles (fun s a => a.Nominal ∧ s.merge.Running)
      (List.replicate 4 (.writer 0) ++ List.replicate 5 .merge ++
        Call.acts crc32 (.set "b" "3") 7 ++ List.replicate 16 .merge) s₁ = some s ∧
    s.merge.result = some (.ok ()) ∧ MergeOutcome crc32 smallFiles s₀ n walked s := by
  have hrun : ((steps crc32 smallFiles (fun _ a => a.Nominal) twoSets (emptyStore crc32)).any fun s₀ =>
      (1 ≤ s₀.writer.staleBytesCount ∧ s₀.snapshot ≠ [] ∧ s₀.lock ≠ .poisoned ∧
        ∀ f ∈ s₀.snapshot, s₀.fs.lookup (.data f.1) ≠ none) ∧
      (step crc32 smallFiles s₀ .start).any fun s₁ =>
        (steps crc32 smallFiles (fun s a => a.Nominal ∧ s.merge.Running)
          (List.replicate 4 (.writer 0) ++ List.replicate 5 .merge ++
            Call.acts crc32 (.set "b" "3") 7 ++ List.replicate 16 .merge) s₁).any
          fun s => s.merge.result = some (.ok ())) := by decide +kernel
  obtain ⟨s₀, hs₀, hc⟩ := (Option.any_eq_true ..).mp hrun
  obtain ⟨⟨hstale, hsnap, hlock, hfiles⟩, hc⟩ := of_decide_eq_true hc
  obtain ⟨s₁, hs₁, hc⟩ := (Option.any_eq_true ..).mp hc
  obtain ⟨s, hs, hidle⟩ := (Option.any_eq_true ..).mp hc
  obtain ⟨n, walked, hm⟩ := (Merging.start hs₁).of_steps (by decide) hs
  have hsession : Session crc32 smallFiles (fun _ a => a.Nominal) Fs.empty (emptyStore crc32) :=
    .opened lists_empty (emptyStore_opened crc32)
  exact ⟨s₀, s₁, s, n, walked, hs₀, hs₁, hs, of_decide_eq_true hidle,
    merge_completes faithful_empty bounded_empty (hsession.of_steps hs₀)
      ⟨hstale, hsnap, by decide, hlock, hfiles⟩ hm⟩

/-- The second merge of a session is due and has sealed files, and returns the error of an unlink:
its snapshot has the file the first merge has removed. -/
theorem second_merge_fails : ∃ s₀ s₁ s n walked,
    steps crc32 smallFiles (fun _ a => a.Nominal)
      (twoSets ++ mergeActs 21 ++ Call.acts crc32 (.set "a" "3") 7) (emptyStore crc32) = some s₀ ∧
    s₀.merge.result = some (.ok ()) ∧ s₀.lock = .free ∧
    smallFiles.compactionThreshold ≤ s₀.writer.staleBytesCount ∧
    (∃ f ∈ s₀.snapshot, s₀.fs.lookup (.data f.1) ≠ none) ∧
    step crc32 smallFiles s₀ .start = some s₁ ∧
    steps crc32 smallFiles (fun s a => a.Nominal ∧ s.merge.Running)
      (List.replicate 4 (.writer 0) ++ List.replicate 24 .merge) s₁ = some s ∧
    Merging crc32 smallFiles s₀ n walked s ∧
    s.merge.result = some (.error (.io fileNotFound)) ∧
    (∃ f ∈ s₀.snapshot, s.fs.lookup (.data f.1) ≠ none) ∧
    s.writer.staleBytesCount = s₀.writer.staleBytesCount := by
  have hrun : ((steps crc32 smallFiles (fun _ a => a.Nominal)
      (twoSets ++ mergeActs 21 ++ Call.acts crc32 (.set "a" "3") 7) (emptyStore crc32)).any fun s₀ =>
      (s₀.merge.result = some (.ok ()) ∧ s₀.lock = .free ∧
        smallFiles.compactionThreshold ≤ s₀.writer.staleBytesCount ∧
        ∃ f ∈ s₀.snapshot, s₀.fs.lookup (.data f.1) ≠ none) ∧
      (step crc32 smallFiles s₀ .start).any fun s₁ =>
        (steps crc32 smallFiles (fun s a => a.Nominal ∧ s.merge.Running)
          (List.replicate 4 (.writer 0) ++ List.replicate 24 .merge) s₁).any fun s =>
            s.merge.result = some (.error (.io fileNotFound)) ∧
            (∃ f ∈ s₀.snapshot, s.fs.lookup (.data f.1) ≠ none) ∧
            s.writer.staleBytesCount = s₀.writer.staleBytesCount) := by decide +kernel
  obtain ⟨s₀, hs₀, hc⟩ := (Option.any_eq_true ..).mp hrun
  obtain ⟨⟨hres, hlock, hstale, hfile⟩, hc⟩ := of_decide_eq_true hc
  obtain ⟨s₁, hs₁, hc⟩ := (Option.any_eq_true ..).mp hc
  obtain ⟨s, hs, hc⟩ := (Option.any_eq_true ..).mp hc
  obtain ⟨herr, hleft, hsame⟩ := of_decide_eq_true hc
  obtain ⟨n, walked, hm⟩ := (Merging.start hs₁).of_steps (by decide) hs
  exact ⟨s₀, s₁, s, n, walked, hs₀, hres, hlock, hstale, hfile, hs₁, hs, hm, herr, hleft, hsame⟩

end Bitcask
