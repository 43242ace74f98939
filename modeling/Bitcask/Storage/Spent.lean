import Mathlib.Logic.Relation
import Bitcask.Storage.MergeRun

/-!
# One merge for each session

The readers map keeps the files a merge has removed, and `run_compaction` walks and removes the files
of that map in the order of their ids. So the lowest id of the map (`Sys.Lowest`) is the first file a
merge removes, and once it is gone, every later merge of the session fails at that file, after it has
written its outputs (`one_merge_per_session`).

`Ordered` holds in every state of a session: a running merge has removed nothing, and the lowest id is
the first of its sources, or it has removed that file.
-/

namespace Bitcask

open LittleEndian FileSystem

/-- `m` is the lowest id of the readers map. -/
structure Sys.Lowest (s : Sys) (m : ℕ) : Prop where
  reader : s.readers[m]? ≠ none
  le : ∀ {id i}, s.readers[id]? = some i → m ≤ id

/-- The merge has removed nothing, and `m` is the first of its sources. -/
def Merge.Intact (m : ℕ) (mg : Merge) : Prop := mg.sources.head? = some m ∧ mg.hintLeft = none

/-- The merge has walked its snapshot. -/
def Merge.Removing : Merge → Prop
  | .removeData _ _ | .removeHint _ _ _ | .subtract _ => True
  | _ => False

/-- The order in which a merge removes its sources. -/
structure Ordered (m : ℕ) (s : Sys) : Prop where
  lowest : s.Lowest m
  merge : s.merge.Running →
    s.merge.Intact m ∨ s.merge.Removing ∧ s.fs.lookup (.data m) = none

/-- The states a session reaches from `s` without a failing filesystem call. -/
def Onward (crc : Bytes → UInt32) (cfg : Config) : Sys → Sys → Prop :=
  Relation.ReflTransGen fun s s' => ∃ a : Act, a.Nominal ∧ step crc cfg s a = some s'

section Steps

variable {crc : Bytes → UInt32} {cfg : Config} {recs : Inode → List Command} {s s' : Sys} {a : Act}
  {m id : ℕ}

/-! ## The lowest id -/

theorem Sys.Lowest.congr (h : s.Lowest m) (hr : s'.readers = s.readers) : s'.Lowest m :=
  ⟨hr ▸ h.reader, fun hi => h.le (hr ▸ hi)⟩

/-- A new handle above the lowest id. -/
theorem Sys.Lowest.insert (h : s.Lowest m) {i : Inode} (hle : m ≤ id)
    (hr : s'.readers = s.readers.insert id i) : s'.Lowest m := by
  constructor
  · rw [hr, Std.TreeMap.getElem?_insert]
    split
    · exact Option.some_ne_none _
    · exact h.reader
  · intro id' i' hi
    rw [hr, Std.TreeMap.getElem?_insert] at hi
    split at hi
    · rename_i he
      exact hle.trans (Nat.le_of_eq (Nat.compare_eq_eq.mp he))
    · exact h.le hi

/-- An id of the readers map has a handle, which may be about to be put there again. -/
theorem handles_ne_none (h : s.readers[id]? ≠ none) : s.handles id ≠ none := by
  unfold Sys.handles
  split
  · exact Option.some_ne_none _
  · split
    · split
      · exact Option.some_ne_none _
      · exact h
    · exact h

theorem Rep.lowest_le (hr : Rep crc cfg recs s) (h : s.Lowest m) : m ≤ s.writer.currentFileId := by
  obtain ⟨i, hi⟩ := Option.ne_none_iff_exists'.mp (handles_ne_none h.reader)
  exact hr.core.rd_le hi

/-- The first source is below the outputs. -/
theorem Rep.lowest_lt_output (hr : Rep crc cfg recs s) (h : Ordered m s) {st : FinishStep}
    {r : MergeRun} {out : MergeOutput} (hm : s.merge = .finish st r out) : m < out.id := by
  have hintact := h.merge (by rw [hm]; trivial)
  have hmr := hr.merge
  rw [hm] at hintact hmr
  obtain ⟨hout, -, -, bar, hrun⟩ := hmr
  have hmem : m ∈ r.idsToRemove ++ r.todo.map Prod.fst :=
    List.mem_of_mem_head? (hintact.resolve_right And.left).1
  have hlt : m < r.firstCompactedFileId := by
    rcases List.mem_append.mp hmem with hid | hid
    · exact hrun.removed m hid
    · obtain ⟨f, hf, rfl⟩ := List.mem_map.mp hid
      exact (hrun.todo f hf).2
  have := hrun.first_le
  rw [hout.id_eq]
  omega

/-- The files of a snapshot are those of the readers map in the order of their ids. -/
theorem Sys.Lowest.snapshot_head (h : s.Lowest m) (hne : m ≠ s.writer.currentFileId) :
    (s.snapshot.map Prod.fst).head? = some m := by
  obtain ⟨i, hi⟩ := Option.ne_none_iff_exists'.mp h.reader
  have hmem : (m, i) ∈ s.snapshot :=
    List.mem_filter.mpr ⟨Std.TreeMap.mem_toList_iff_getElem?_eq_some.mpr hi, by simpa using hne⟩
  have hsorted : s.snapshot.Pairwise fun f f' => f.1 < f'.1 :=
    (s.readers.ordered_keys_toList.imp fun hlt => Nat.compare_eq_lt.mp hlt).sublist
      List.filter_sublist
  cases hs : s.snapshot with
  | nil => rw [hs] at hmem; cases hmem
  | cons f fs =>
    have hf : s.readers[f.1]? = some f.2 := (mem_snapshot (hs ▸ List.mem_cons_self)).1
    rw [hs] at hmem hsorted
    rcases List.mem_cons.mp hmem with rfl | hmem
    · rfl
    · have hlt : f.1 < m := List.rel_of_pairwise_cons hsorted hmem
      exact absurd (h.le hf) (Nat.not_le_of_lt hlt)

/-! ## What one step does to the directory and the merge -/

/-- Only an output that is renamed and a file that a merge removes lose their names. -/
theorem Step.name_kept (hs : Step crc cfg s a s') {n : FileName} (hc : ∀ id, n ≠ .compact id)
    (hrem : ∀ id ids stale, s.merge = .removeData (id :: ids) stale → n ≠ .data id)
    (hrem' : ∀ id ids stale, s.merge = .removeHint id ids stale → n ≠ .hint id)
    (hi : s.fs.lookup n ≠ none) : s'.fs.lookup n ≠ none := by
  have hcreate : ∀ n', (s.fs.create n').lookup n ≠ none := by
    intro n'
    by_cases hn : n = n'
    · rw [hn, Fs.lookup_create_self]
      exact Option.some_ne_none _
    · rwa [Fs.lookup_create_ne hn]
  cases hs with
  | writer hw =>
    cases hw with
    | rotateCreate next now caller hl => exact hcreate _
    | rotateReader next now caller j hl hj =>
      unfold Sys.endRotate
      split <;> exact hi
    | rotateMissing next now caller hl hj | failRotate st next caller e hl => cases caller <;> exact hi
    | _ => exact hi
  | merge hm =>
    cases hm with
    | openData r f rest hm ht => exact hcreate _
    | openHint r id data hm => exact hcreate _
    | remove id ids stale j hm hj => rwa [Fs.lookup_unlink_ne _ (hrem id ids stale hm)]
    | removeHint id ids stale hm => rwa [Fs.lookup_unlink_ne _ (hrem' id ids stale hm)]
    | rename r out j hm hj =>
      by_cases hid : n = .data out.id
      · rw [hid, Fs.lookup_rename_new hj]
        exact Option.some_ne_none _
      · rwa [Fs.lookup_rename_ne (hc out.id) hid]
    | _ => exact hi
  | _ => exact hi

/-- The lowest file does not come back. -/
theorem Rep.lowest_gone (hr : Rep crc cfg recs s) (h : Ordered m s) (hs : Step crc cfg s a s')
    (hg : s.fs.lookup (.data m) = none) : s'.fs.lookup (.data m) = none := by
  cases hs with
  | writer hw =>
    rcases (hr.writer_mono hw).2.2 (.data m) with he | ⟨next, he, hlt⟩
    · exact he.trans hg
    · cases he
      exact absurd (hr.lowest_le h.lowest) (Nat.not_le_of_lt hlt)
  | merge hm =>
    cases hm with
    | openData r f rest hm ht => exact (Fs.lookup_create_ne (by simp)).trans hg
    | openHint r id data hm => exact (Fs.lookup_create_ne (by simp)).trans hg
    | remove id' ids stale j hm hj =>
      by_cases hid : FileName.data m = .data id'
      · rw [hid]
        exact Fs.lookup_unlink_self ..
      · exact (Fs.lookup_unlink_ne _ hid).trans hg
    | removeHint id' ids stale hm => exact (Fs.lookup_unlink_ne _ (by simp)).trans hg
    | rename r out j hm hj =>
      have hlt := hr.lowest_lt_output h hm
      exact (Fs.lookup_rename_ne (by simp) (by simpa using hlt.ne)).trans hg
    | _ => exact hg
  | _ => exact hg

/-- The readers map gets the ids of new files only. -/
theorem Rep.lowest_step (hr : Rep crc cfg recs s) (h : Ordered m s) (hs : Step crc cfg s a s') :
    s'.Lowest m := by
  cases hs with
  | writer hw =>
    cases hw with
    | rotateReader next now caller i hl hi =>
      have hlr := hr.lock
      rw [hl] at hlr
      have hle : m ≤ next := hlr.2.2 ▸ hr.lowest_le h.lowest
      refine h.lowest.insert (i := i) hle ?_
      unfold Sys.endRotate
      split <;> rfl
    | rotateMissing next now caller hl hj | failRotate st next caller e hl =>
      exact h.lowest.congr (by cases caller <;> rfl)
    | _ => exact h.lowest.congr rfl
  | merge hm =>
    cases hm with
    | reader r out i hm hi => exact h.lowest.insert (hr.lowest_lt_output h hm).le rfl
    | _ => exact h.lowest.congr rfl
  | _ => exact h.lowest.congr rfl

/-- A merge that has removed nothing goes on, returns, or removes its first source. -/
theorem MergeStep.intact (hs : MergeStep crc cfg s s') (hi : s.merge.Intact m) :
    ¬ s'.merge.Running ∨ s'.merge.Intact m ∨
      s.fs.lookup (.data m) ≠ none ∧ s'.merge.Removing ∧ s'.fs.lookup (.data m) = none := by
  obtain ⟨hsrc, hhint⟩ := hi
  cases hs with
  | remove id ids stale i hm hl =>
    rw [hm] at hsrc
    obtain rfl : id = m := Option.some.inj hsrc
    exact Or.inr (Or.inr ⟨by rw [hl]; exact Option.some_ne_none _, trivial,
      Fs.lookup_unlink_self ..⟩)
  | removed stale hm | subtract stale hm hl hle | subtractPoisoned stale hm hl
  | subtractPanic stale hm hl hlt => rw [hm] at hsrc; cases hsrc
  | removeHint id ids stale hm => rw [hm] at hhint; cases hhint
  | framePanic | torn | undecodable | renameMissing | readerMissing | removeMissing =>
    exact Or.inl fun h => h
  | lastOutput r out hm ht | openData r f rest hm ht | openHint r id data hm
  | skip r out fileId p n b rd rd' c hm hr hd hs
  | copy r out fileId p n b rd rd' ts key v hm hr hd hs | syncData r out hm hn | syncHint r out hm
  | rename r out i hm hi | reader r out i hm hi | update r out p ps hm hp | updated r out hm hp =>
    rw [hm] at hsrc
    exact Or.inr (Or.inl ⟨hsrc, rfl⟩)
  | scanned r hm ht =>
    rw [hm] at hsrc
    refine Or.inr (Or.inl ⟨?_, rfl⟩)
    simpa [Merge.sources, ht] using hsrc
  | source r out fileId i rest hm ht =>
    rw [hm] at hsrc
    refine Or.inr (Or.inl ⟨?_, rfl⟩)
    simpa only [Merge.sources, ht, List.map_cons] using hsrc
  | eof r out fileId rd rd' hm hr hw | eofFull r out fileId rd rd' hm hr hw =>
    rw [hm] at hsrc
    refine Or.inr (Or.inl ⟨?_, rfl⟩)
    simpa only [Merge.sources, List.append_assoc, List.singleton_append] using hsrc

theorem MergeStep.removing (hs : MergeStep crc cfg s s') (hr : s.merge.Removing) :
    s'.merge.Running → s'.merge.Removing := by
  cases hs with
  | remove | removed | removeHint => exact fun _ => trivial
  | removeMissing | subtract | subtractPoisoned | subtractPanic => exact fun h => h.elim
  | _ => simp_all [Merge.Removing]

theorem Merge.Intact.withOutput {mg : Merge} (h : mg.Intact m) (out : MergeOutput) :
    (Sys.withOutput out mg).Intact m := by
  cases mg with
  | nextFile r output => cases output <;> exact h
  | _ => exact h

theorem Merge.Removing.withOutput {mg : Merge} (h : mg.Removing) (out : MergeOutput) :
    (Sys.withOutput out mg).Removing := by
  cases mg with
  | removeData | removeHint | subtract => trivial
  | _ => exact h.elim

theorem running_withOutput {mg : Merge} {out : MergeOutput} (h : (Sys.withOutput out mg).Running) :
    mg.Running := by
  cases mg with
  | idle | dead => exact h
  | _ => trivial

/-- The merge that begins walks the readers map from its lowest id on. -/
theorem Rep.start_intact (hr : Rep crc cfg recs s) (h : s.Lowest m)
    {last : Option (Except KvsError Unit)} (hm : s.merge = .idle last) (hl : s.lock = .free)
    (hn : s.snapshot ≠ []) : (s.snapshot.map Prod.fst).head? = some m := by
  obtain ⟨f, hf⟩ := List.exists_mem_of_ne_nil _ hn
  have hlt := hr.snapshot_lt (by rw [hl]; rfl) (by rw [hm]; rfl) f.1 (List.mem_map_of_mem hf)
  exact h.snapshot_head (Nat.ne_of_lt ((h.le (mem_snapshot hf).1).trans_lt hlt))

theorem MergeStep.running (hs : MergeStep crc cfg s s') : s.merge.Running := by
  cases hs <;> simp [*, Merge.Running]

/-- A merge that has removed nothing, or a step that starts one. -/
theorem Rep.intact_step (hr : Rep crc cfg recs s) (hlow : s.Lowest m) (hn : a.Nominal)
    (hs : Step crc cfg s a s') (hintact : s.merge.Running → s.merge.Intact m) :
    (s'.merge.Running → s'.merge.Intact m) ∨
      s.fs.lookup (.data m) ≠ none ∧ s'.merge.Removing ∧ s'.fs.lookup (.data m) = none := by
  cases hs with
  | writer hw =>
    left
    rcases hr.merge_writer hn hw with he | ⟨r, hm, he⟩
    · rwa [he]
    · rw [hm] at hintact
      rw [he]
      exact hintact
  | merge hm =>
    rcases hm.intact (hintact hm.running) with hstop | hintact | hremoved
    · exact Or.inl fun hrun => absurd hrun hstop
    · exact Or.inl fun _ => hintact
    · exact Or.inr hremoved
  | startNot | startPanic => exact Or.inl fun hrun => hrun.elim
  | start last hm hl hs hn' hz => exact Or.inl fun _ => ⟨hr.start_intact hlow hm hl hn', rfl⟩
  | spill out k l ho =>
    exact Or.inl fun hrun => (hintact (running_withOutput hrun)).withOutput _
  | mergeErr | outputErr => exact hn.elim

theorem Rep.removing_step (hr : Rep crc cfg recs s) (hn : a.Nominal) (hs : Step crc cfg s a s')
    (hrem : s.merge.Removing) (hrun : s'.merge.Running) : s'.merge.Removing := by
  cases hs with
  | writer hw =>
    rcases hr.merge_writer hn hw with he | ⟨r, hm, he⟩
    · rwa [he]
    · rw [hm] at hrem
      exact hrem.elim
  | merge hm => exact hm.removing hrem hrun
  | startNot last res hm | startPanic last hm | start last hm => rw [hm] at hrem; exact hrem.elim
  | spill out k l ho => exact hrem.withOutput _
  | mergeErr | outputErr => exact hn.elim

/-- Every step of a session keeps the order. -/
theorem Ordered.step (hr : Rep crc cfg recs s) (h : Ordered m s) (hn : a.Nominal)
    (hs : Step crc cfg s a s') : Ordered m s' := by
  refine ⟨hr.lowest_step h hs, fun hrun => ?_⟩
  by_cases hrem : s.merge.Removing ∧ s.fs.lookup (.data m) = none
  · exact Or.inr ⟨hr.removing_step hn hs hrem.1 hrun, hr.lowest_gone h hs hrem.2⟩
  · have hintact : s.merge.Running → s.merge.Intact m := fun hr => (h.merge hr).resolve_right hrem
    exact (hr.intact_step h.lowest hn hs hintact).imp (fun hi => hi hrun) And.right

/-- A step that removes a data file leaves the lowest one removed. -/
theorem Ordered.lost (hr : Rep crc cfg recs s) (h : Ordered m s) (hs : Step crc cfg s a s')
    (hi : s.fs.lookup (.data id) ≠ none) (hi' : s'.fs.lookup (.data id) = none) :
    s'.fs.lookup (.data m) = none := by
  by_cases hrem : ∃ ids stale, s.merge = .removeData (id :: ids) stale
  · obtain ⟨ids, stale, hm⟩ := hrem
    have hmerge := h.merge (by rw [hm]; trivial)
    rw [hm] at hmerge
    rcases hmerge with ⟨hsrc, -⟩ | ⟨-, hg⟩
    · obtain rfl : id = m := Option.some.inj hsrc
      exact hi'
    · exact hr.lowest_gone h hs hg
  · refine absurd hi' (hs.name_kept (by simp) (fun id' ids stale hm he => ?_) (by simp) hi)
    cases he
    exact hrem ⟨ids, stale, hm⟩

/-! ## After the first merge -/

/-- The lowest file is gone, and it is the first source of a running merge. -/
structure Doomed (m : ℕ) (s : Sys) : Prop where
  lowest : s.Lowest m
  gone : s.fs.lookup (.data m) = none
  merge : s.merge.Running → s.merge.Intact m

theorem Doomed.ordered (h : Doomed m s) : Ordered m s := ⟨h.lowest, fun hrun => Or.inl (h.merge hrun)⟩

theorem Doomed.step (hr : Rep crc cfg recs s) (h : Doomed m s) (hn : a.Nominal)
    (hs : Step crc cfg s a s') : Doomed m s' := by
  refine ⟨hr.lowest_step h.ordered hs, hr.lowest_gone h.ordered hs h.gone, ?_⟩
  rcases hr.intact_step h.lowest hn hs h.merge with hintact | ⟨hi, -⟩
  · exact hintact
  · exact absurd h.gone hi

/-- A merge fails before it removes anything. -/
theorem Doomed.name_kept (h : Doomed m s) (hs : Step crc cfg s a s') {n : FileName}
    (hc : ∀ id, n ≠ .compact id) (hi : s.fs.lookup n ≠ none) : s'.fs.lookup n ≠ none := by
  refine hs.name_kept hc (fun id ids stale hm he => ?_) (fun id ids stale hm => ?_) hi
  · have hsrc := (h.merge (by rw [hm]; trivial)).1
    rw [hm] at hsrc
    obtain rfl : id = m := Option.some.inj hsrc
    rw [he] at hi
    exact hi h.gone
  · have hhint := (h.merge (by rw [hm]; trivial)).2
    rw [hm] at hhint
    cases hhint

/-- No merge gets to the subtraction. -/
theorem Doomed.stale_le (hr : Rep crc cfg recs s) (h : Doomed m s) (hs : Step crc cfg s a s') :
    s.writer.staleBytesCount ≤ s'.writer.staleBytesCount := by
  cases hs with
  | writer hw => exact (hr.writer_mono hw).1
  | merge hm =>
    have hsrc := (h.merge hm.running).1
    cases hm with
    | subtract stale hm hl hle => rw [hm] at hsrc; cases hsrc
    | _ => exact le_rfl
  | _ => exact le_rfl

/-- A merge ends with the error of its first unlink. -/
theorem Doomed.fails (hr : Rep crc cfg recs s) (h : Doomed m s) (hn : a.Nominal)
    (hrun : s.merge.Running) (hs : Step crc cfg s a s') (hstop : ¬ s'.merge.Running) :
    (∃ ids stale, s.merge = .removeData (m :: ids) stale) ∧
      s'.merge = .idle (some (.error (.io fileNotFound))) := by
  have hsrc := (h.merge hrun).1
  cases hs with
  | writer hw =>
    rcases hr.merge_writer hn hw with he | ⟨r, hm, he⟩
    · rw [he] at hstop
      exact absurd hrun hstop
    · rw [he] at hstop
      exact absurd trivial hstop
  | merge hm =>
    cases hm with
    | removeMissing id ids stale hm hi =>
      rw [hm] at hsrc ⊢
      obtain rfl : id = m := Option.some.inj hsrc
      exact ⟨⟨ids, stale, rfl⟩, rfl⟩
    | framePanic r out fileId rd hm hx => exact absurd hx (hr.record_ok hm).1
    | torn r out fileId p rd rd' hm hx => exact absurd hx ((hr.record_ok hm).2.1 p rd')
    | undecodable r out fileId p b rd rd' e hm hx hd => exact absurd hd (hr.record_decodes hm hx e)
    | renameMissing r out hm hi => exact absurd hi (hr.rename_found hm)
    | readerMissing r out hm hi => exact absurd hi (hr.reader_found hm)
    | subtract stale hm | subtractPoisoned stale hm | subtractPanic stale hm =>
      rw [hm] at hsrc; cases hsrc
    | _ => exact absurd trivial hstop
  | startNot last res hm | startPanic last hm | start last hm => rw [hm] at hrun; exact hrun.elim
  | spill out k l ho =>
    cases hm : s.merge with
    | idle | dead => rw [hm] at hrun; exact hrun.elim
    | nextFile r output => rw [hm] at hstop; cases output <;> exact absurd trivial hstop
    | _ => rw [hm] at hstop; exact absurd trivial hstop
  | mergeErr | outputErr => exact hn.elim

end Steps

/-! ## Sessions -/

section Sessions

variable {crc : Bytes → UInt32} {cfg : Config} {fs₀ : Fs FileName} {s₀ s₁ s : Sys} {m id : ℕ}

theorem Session.onward (h₀ : Session crc cfg (fun _ a => a.Nominal) fs₀ s₀)
    (h : Onward crc cfg s₀ s) : Session crc cfg (fun _ a => a.Nominal) fs₀ s := by
  induction h with
  | refl => exact h₀
  | tail _ hs ih =>
    obtain ⟨a, hn, hs⟩ := hs
    exact .step ih hn hs

theorem Session.ordered (hf : Faithful crc fs₀) (hb : Bounded fs₀)
    (h : Session crc cfg (fun _ a => a.Nominal) fs₀ s) : ∃ m, Ordered m s := by
  induction h with
  | @opened listing now s hlist hopen =>
    obtain ⟨-, ho⟩ := (openStore_spec hlist (Faithful.sealed hf) hb).ok rfl hopen
    have hex : ∃ id, s.readers[id]? ≠ none :=
      ⟨_, by rw [(ho.readers _ _).mpr ho.current]; exact Option.some_ne_none _⟩
    classical
    refine ⟨Nat.find hex, ⟨Nat.find_spec hex, fun hi => Nat.find_min' hex ?_⟩, fun hrun => ?_⟩
    · rw [hi]
      exact Option.some_ne_none _
    · rw [ho.idle] at hrun
      exact hrun.elim
  | step h hn hs ih =>
    obtain ⟨m, hm⟩ := ih
    obtain ⟨⟨recs, hr⟩, -⟩ := h.rep hf hb
    exact ⟨m, hm.step hr hn (step_cases hs)⟩

/-- Once a data file has gone, the lowest one has. -/
theorem Session.lost (hf : Faithful crc fs₀) (hb : Bounded fs₀)
    (h₀ : Session crc cfg (fun _ a => a.Nominal) fs₀ s₀) (ho : Ordered m s₀)
    (h : Onward crc cfg s₀ s) : Ordered m s ∧ ∀ id, s₀.fs.lookup (.data id) ≠ none →
      s.fs.lookup (.data id) = none → s.fs.lookup (.data m) = none := by
  induction h with
  | refl => exact ⟨ho, fun id hi hi' => absurd hi' hi⟩
  | @tail s s' h hs ih =>
    obtain ⟨a, hn, hs⟩ := hs
    obtain ⟨ho, hlost⟩ := ih
    obtain ⟨⟨recs, hr⟩, -⟩ := (h₀.onward h).rep hf hb
    have hs := step_cases hs
    refine ⟨ho.step hr hn hs, fun id hi hi' => ?_⟩
    by_cases hmid : s.fs.lookup (.data id) = none
    · exact hr.lowest_gone ho hs (hlost id hi hmid)
    · exact ho.lost hr hs hmid hi'

/-- The steps of a run lead onward. -/
theorem Onward.of_steps {acts : List Act}
    (hs : steps crc cfg (fun _ a => a.Nominal) acts s₀ = some s) : Onward crc cfg s₀ s := by
  induction acts generalizing s₀ with
  | nil =>
    obtain rfl := Option.some.inj hs
    exact .refl
  | cons a acts ih =>
    obtain ⟨s₁, hn, hs₁, hs⟩ := steps_cons hs
    exact .head ⟨a, hn, hs₁⟩ (ih hs)

/-- What is known of a session that goes on from `s₁` to `s`, after a merge has removed a file. -/
structure Spent (crc : Bytes → UInt32) (cfg : Config) (s₁ s : Sys) : Prop where
  /-- No data file and no hint is removed. -/
  kept : ∀ n, (∀ id, n ≠ .compact id) → s₁.fs.lookup n ≠ none → s.fs.lookup n ≠ none
  stale : s₁.writer.staleBytesCount ≤ s.writer.staleBytesCount
  /-- A merge that has entered its loop returns the error of its first unlink, that of the lowest id of
  the readers map. -/
  fails : ∀ a s', a.Nominal → s.merge.Running → step crc cfg s a = some s' → ¬ s'.merge.Running →
    (∃ m ids stale, s.Lowest m ∧ s.merge = .removeData (m :: ids) stale) ∧
      s'.merge = .idle (some (.error (.io fileNotFound)))

theorem Doomed.onward (hf : Faithful crc fs₀) (hb : Bounded fs₀)
    (h₁ : Session crc cfg (fun _ a => a.Nominal) fs₀ s₁) (hd : Doomed m s₁)
    (h : Onward crc cfg s₁ s) : Doomed m s ∧ (∀ n, (∀ id, n ≠ .compact id) →
      s₁.fs.lookup n ≠ none → s.fs.lookup n ≠ none) ∧
        s₁.writer.staleBytesCount ≤ s.writer.staleBytesCount := by
  induction h with
  | refl => exact ⟨hd, fun _ _ hi => hi, le_rfl⟩
  | @tail s s' h hs ih =>
    obtain ⟨a, hn, hs⟩ := hs
    obtain ⟨hd, hkept, hstale⟩ := ih
    obtain ⟨⟨recs, hr⟩, -⟩ := (h₁.onward h).rep hf hb
    have hs := step_cases hs
    exact ⟨hd.step hr hn hs, fun n hc hi => hd.name_kept hs hc (hkept n hc hi),
      hstale.trans (hd.stale_le hr hs)⟩

/-- In a session without a failing filesystem call, only one merge removes files: once a data file is
gone and that merge is over, no later one removes a data file or a hint, takes anything from the stale
bytes or returns `Ok` from its loop. Each returns the `NotFound` of its first unlink. -/
theorem one_merge_per_session (hf : Faithful crc fs₀) (hb : Bounded fs₀)
    (h₀ : Session crc cfg (fun _ a => a.Nominal) fs₀ s₀) (h₁ : Onward crc cfg s₀ s₁)
    (hid : s₀.fs.lookup (.data id) ≠ none) (hgone : s₁.fs.lookup (.data id) = none)
    (hidle : ¬ s₁.merge.Running) (h : Onward crc cfg s₁ s) : Spent crc cfg s₁ s := by
  obtain ⟨m, ho⟩ := h₀.ordered hf hb
  obtain ⟨ho, hlost⟩ := h₀.lost hf hb ho h₁
  have hd : Doomed m s₁ := ⟨ho.lowest, hlost id hid hgone, fun hrun => absurd hrun hidle⟩
  obtain ⟨hd, hkept, hstale⟩ := hd.onward hf hb (h₀.onward h₁) h
  obtain ⟨⟨recs, hr⟩, -⟩ := ((h₀.onward h₁).onward h).rep hf hb
  refine ⟨hkept, hstale, fun a s' hn hrun hs hstop => ?_⟩
  obtain ⟨⟨ids, stale, hm⟩, hres⟩ := hd.fails hr hn hrun (step_cases hs) hstop
  exact ⟨⟨m, ids, stale, hd.lowest, hm⟩, hres⟩

end Sessions

/-- The merge after the one that has removed the first file. -/
theorem one_merge_per_session_second : ∃ s₀ s₁ s,
    steps crc32 smallFiles (fun _ a => a.Nominal) twoSets (emptyStore crc32) = some s₀ ∧
    steps crc32 smallFiles (fun _ a => a.Nominal)
      (mergeActs 21 ++ Call.acts crc32 (.set "a" "3") 7) s₀ = some s₁ ∧
    s₁.merge.result = some (.ok ()) ∧
    steps crc32 smallFiles (fun _ a => a.Nominal) (mergeActs 24) s₁ = some s ∧
    s.merge.result = some (.error (.io fileNotFound)) ∧ Spent crc32 smallFiles s₁ s := by
  have hrun : (steps crc32 smallFiles (fun _ a => a.Nominal) twoSets (emptyStore crc32)).any fun s₀ =>
      s₀.fs.lookup (.data 1) ≠ none ∧ (steps crc32 smallFiles (fun _ a => a.Nominal)
        (mergeActs 21 ++ Call.acts crc32 (.set "a" "3") 7) s₀).any fun s₁ =>
      (s₁.merge.result = some (.ok ()) ∧ s₁.fs.lookup (.data 1) = none ∧ ¬ s₁.merge.Running) ∧
        (steps crc32 smallFiles (fun _ a => a.Nominal) (mergeActs 24) s₁).any fun s =>
          s.merge.result = some (.error (.io fileNotFound)) := by decide +kernel
  obtain ⟨s₀, hs₀, hc⟩ := (Option.any_eq_true ..).mp hrun
  obtain ⟨hfile, hc⟩ := of_decide_eq_true hc
  obtain ⟨s₁, hs₁, hc⟩ := (Option.any_eq_true ..).mp hc
  obtain ⟨⟨hok, hgone, hidle⟩, hc⟩ := of_decide_eq_true hc
  obtain ⟨s, hs, herr⟩ := (Option.any_eq_true ..).mp hc
  have hsession : Session crc32 smallFiles (fun _ a => a.Nominal) Fs.empty (emptyStore crc32) :=
    .opened lists_empty (emptyStore_opened crc32)
  exact ⟨s₀, s₁, s, hs₀, hs₁, hok, hs, of_decide_eq_true herr,
    one_merge_per_session faithful_empty bounded_empty (hsession.of_steps hs₀) (.of_steps hs₁) hfile
      hgone hidle (.of_steps hs)⟩

end Bitcask
