import Bitcask.Storage.OpenAny
import Bitcask.Storage.World

/-!
# The names of data files

A `Trace` remembers the ids that named a data file at some time, and the active id and the number of
bytes that the last merge saw when it took its snapshot. `Named` says that the active file of a running
store has its name and that no id that was ever used is above its id. Creating, renaming and removing
files keeps it.
-/

namespace Bitcask

open LittleEndian FileSystem CrashHoare

/-- The ids of the data files in a directory. -/
def dataIds (fs : Fs FileName) : Set ℕ := {id | fs.lookup (.data id) ≠ none}

/-- What is remembered of a history. -/
structure Trace where
  ever : Set ℕ
  first : ℕ
  total : ℕ

/-- One more step: the names it gives are remembered, and so is what a merge sees when it starts. -/
def Trace.step (tr : Trace) (s : Sys) (a : Act) (s' : Sys) : Trace where
  ever := tr.ever ∪ dataIds s'.fs
  first := if a = .start then s.writer.currentFileId else tr.first
  total := if a = .start then s.totalBytes else tr.total

/-- The id a merge rotates the writer to. -/
def Trace.bar (tr : Trace) (cfg : Config) : ℕ :=
  tr.first + (tr.total / cfg.fileSizeThreshold + 2) + 1

theorem Trace.first_lt_bar (tr : Trace) (cfg : Config) : tr.first < tr.bar cfg := by
  unfold Trace.bar
  generalize tr.total / cfg.fileSizeThreshold = q
  omega

/-- The run of a merge, from its snapshot to the last record. -/
def Merge.run : Merge → Option MergeRun
  | .rotating r | .nextFile r _ | .openHint r _ _ | .records r _ _ _ | .finish _ r _ => some r
  | .idle _ | .removeData _ _ | .removeHint _ _ _ | .subtract _ | .dead => none

/-- An output that is about to be renamed, with its run. -/
def Merge.renaming : Merge → Option (MergeRun × MergeOutput)
  | .finish .rename r out => some (r, out)
  | _ => none

theorem Merge.renaming_eq {m : Merge} {r : MergeRun} {out : MergeOutput}
    (h : m.renaming = some (r, out)) : m = .finish .rename r out := by
  unfold Merge.renaming at h
  split at h
  · cases h; rfl
  · cases h

/-! ## Names -/

/-- The data names of a running store. -/
structure Named (ever : Set ℕ) (fs : Fs FileName) (readers : Std.TreeMap ℕ Inode) (cur : ℕ)
    (file : Inode) : Prop where
  ever_name : ∀ {id}, fs.lookup (.data id) ≠ none → id ∈ ever
  ever_le : ∀ {id}, id ∈ ever → id ≤ cur
  current : fs.lookup (.data cur) = some file
  /-- A file behind a handle has no name but the one it was opened by. -/
  reader : ∀ {id i}, readers[id]? = some i →
    id ∈ ever ∧ i < fs.next ∧ ∀ n, fs.lookup n = some i → n = .data id
  names : NamesLe fs cur

/-- A new name stands for a new file. -/
theorem lookup_of_create {fs : Fs FileName} {n m : FileName} {i : Inode} (hi : i < fs.next)
    (h : (fs.create n).lookup m = some i) : fs.lookup m = some i := by
  by_cases hmn : m = n
  · subst hmn
    cases hm : fs.lookup m with
    | some j => rwa [Fs.create_of_some hm, hm] at h
    | none =>
      rw [Fs.lookup_create_self_of_none hm, Option.some.injEq] at h
      exact absurd h (Nat.ne_of_gt hi)
  · rwa [Fs.lookup_create_ne hmn] at h

section Named

variable {ever : Set ℕ} {fs fs' : Fs FileName} {readers : Std.TreeMap ℕ Inode} {cur id : ℕ}
  {file i : Inode}

theorem Named.same (h : Named ever fs readers cur file) (hl : ∀ n, fs'.lookup n = fs.lookup n)
    (hn : fs'.next = fs.next) : Named ever fs' readers cur file where
  ever_name {id} hid := h.ever_name (by rwa [hl] at hid)
  ever_le := h.ever_le
  current := by rw [hl]; exact h.current
  reader {id i} hi := by
    obtain ⟨h1, h2, h3⟩ := h.reader hi
    exact ⟨h1, by rw [hn]; exact h2, fun n hn => h3 n (by rwa [hl] at hn)⟩
  names := h.names.congr fun n _ => hl n

/-- Remembering names that are remembered already. -/
theorem Named.ever_eq (h : Named ever fs readers cur file) : ever ∪ dataIds fs = ever :=
  Set.union_eq_left.mpr fun _ hid => h.ever_name hid

theorem Named.insert (h : Named ever fs readers cur file) (hi : fs.lookup (.data id) = some i) :
    Named ever fs (readers.insert id i) cur file where
  ever_name := h.ever_name
  ever_le := h.ever_le
  current := h.current
  reader {id' j} hj := by
    by_cases hid : id' = id
    · subst hid
      rw [readers_insert_self, Option.some.injEq] at hj
      subst hj
      exact ⟨h.ever_name (by rw [hi]; simp), fs.dir_lt _ _ hi, fun n hn => fs.dir_inj _ _ _ hn hi⟩
    · rw [readers_insert_ne hid] at hj
      exact h.reader hj
  names := h.names

/-- An output or a hint is created. -/
theorem Named.create (h : Named ever fs readers cur file) {n : FileName} (hn : ∀ id, n ≠ .data id)
    (hle : ∀ id, n = .compact id ∨ n = .hint id → id ≤ cur) :
    Named ever (fs.create n) readers cur file where
  ever_name {id} hid := h.ever_name (by rwa [Fs.lookup_create_ne (hn id).symm] at hid)
  ever_le := h.ever_le
  current := by rw [Fs.lookup_create_ne (hn cur).symm]; exact h.current
  reader {id i} hi := by
    obtain ⟨h1, h2, h3⟩ := h.reader hi
    exact ⟨h1, h2.trans_le Fs.next_le_create, fun m hm => h3 m (lookup_of_create h2 hm)⟩
  names id hid := by
    rcases hid with hid | hid
    · by_cases hnid : n = .compact id
      · exact hle id (Or.inl hnid)
      · exact h.names id (Or.inl (by rwa [Fs.lookup_create_ne (Ne.symm hnid)] at hid))
    · by_cases hnid : n = .hint id
      · exact hle id (Or.inr hnid)
      · exact h.names id (Or.inr (by rwa [Fs.lookup_create_ne (Ne.symm hnid)] at hid))

/-- The writer moves on to an id above its own. -/
theorem Named.rotate (h : Named ever fs readers cur file) {next : ℕ} (hlt : cur < next) :
    Named (ever ∪ dataIds (fs.create (.data next))) (fs.create (.data next)) readers next
      (fs.handle (.data next)) where
  ever_name hid := Or.inr hid
  ever_le {id} hid := by
    rcases hid with hid | hid
    · exact (h.ever_le hid).trans hlt.le
    · by_cases hne : id = next
      · exact hne.le
      · have hid : (fs.create (.data next)).lookup (.data id) ≠ none := hid
        rw [Fs.lookup_create_ne (by simpa using hne)] at hid
        exact (h.ever_le (h.ever_name hid)).trans hlt.le
  current := Fs.lookup_create_self
  reader {id i} hi := by
    obtain ⟨h1, h2, h3⟩ := h.reader hi
    exact ⟨Or.inl h1, h2.trans_le Fs.next_le_create, fun m hm => h3 m (lookup_of_create h2 hm)⟩
  names := (h.names.congr fun n hn => Fs.lookup_create_ne (hn next)).mono hlt.le

theorem Named.unlink (h : Named ever fs readers cur file) {n : FileName} (hn : n ≠ .data cur) :
    Named ever (fs.unlink n) readers cur file := by
  have hlook : ∀ {m i}, (fs.unlink n).lookup m = some i → fs.lookup m = some i := by
    intro m i hm
    by_cases hmn : m = n
    · rw [hmn, Fs.lookup_unlink_self] at hm; cases hm
    · rwa [Fs.lookup_unlink_ne fs hmn] at hm
  have hsome : ∀ {m}, (fs.unlink n).lookup m ≠ none → fs.lookup m ≠ none := by
    intro m hm
    obtain ⟨i, hi⟩ := Option.ne_none_iff_exists'.mp hm
    rw [hlook hi]
    simp
  exact {
    ever_name := fun hid => h.ever_name (hsome hid)
    ever_le := h.ever_le
    current := by rw [Fs.lookup_unlink_ne fs (Ne.symm hn)]; exact h.current
    reader := fun hi => ⟨(h.reader hi).1, (h.reader hi).2.1, fun m hm => (h.reader hi).2.2 m (hlook hm)⟩
    names := fun id hid => h.names id (hid.imp hsome hsome) }

/-- The names after an output got its data name. -/
theorem lookup_of_rename {n : FileName} {j : Inode} (hi : fs.lookup (.compact id) = some i)
    (h : (fs.rename (.compact id) (.data id)).lookup n = some j) :
    n = .data id ∧ j = i ∨ n ≠ .data id ∧ fs.lookup n = some j := by
  by_cases hn : n = .data id
  · rw [hn, Fs.lookup_rename_new hi, Option.some.injEq] at h
    exact Or.inl ⟨hn, h.symm⟩
  · refine Or.inr ⟨hn, ?_⟩
    by_cases hn' : n = .compact id
    · rw [hn', Fs.lookup_rename_old hi (by simp)] at h; cases h
    · rwa [Fs.lookup_rename_ne hn' hn] at h

/-- An output gets its data name. -/
theorem Named.rename (h : Named ever fs readers cur file) (hi : fs.lookup (.compact id) = some i)
    (hlt : id < cur) : Named (ever ∪ dataIds (fs.rename (.compact id) (.data id)))
      (fs.rename (.compact id) (.data id)) readers cur file := by
  have hsome : ∀ {n}, (fs.rename (.compact id) (.data id)).lookup n ≠ none →
      n = .data id ∨ fs.lookup n ≠ none := by
    intro n hn
    obtain ⟨j, hj⟩ := Option.ne_none_iff_exists'.mp hn
    exact (lookup_of_rename hi hj).imp And.left fun h => by rw [h.2]; simp
  refine ⟨fun hid => Or.inr hid, fun {id'} hid => ?_, ?_, fun {id' j} hj => ?_, fun id' hid => ?_⟩
  · rcases hid with hid | hid
    · exact h.ever_le hid
    · rcases hsome hid with he | he
      · exact (FileName.data.inj he).le.trans hlt.le
      · exact h.ever_le (h.ever_name he)
  · rw [Fs.lookup_rename_ne (by simp) (by simpa using hlt.ne')]
    exact h.current
  · obtain ⟨h1, h2, h3⟩ := h.reader hj
    refine ⟨Or.inl h1, by rw [Fs.next_rename]; exact h2, fun n hn => ?_⟩
    rcases lookup_of_rename hi hn with ⟨-, rfl⟩ | ⟨-, hn'⟩
    · exact absurd (h3 _ hi) (by simp)
    · exact h3 n hn'
  · refine h.names id' (hid.imp (fun he => ?_) fun he => ?_)
    · exact (hsome he).resolve_left (by simp)
    · exact (hsome he).resolve_left (by simp)

end Named

end Bitcask
