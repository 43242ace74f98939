import Bitcask.Storage.Named

/-!
# The ids of data files

Which ids the writer and the merges give to data files, on any directory, whatever the files hold and
whichever calls fail.

1. `RunIds`: a merge opens ids between the active id of its snapshot and the id it rotated to. The
   full outputs are paid for by the bytes of the snapshot, each of which is copied at most once.
2. `ids_step`: every step keeps the names and the ids.
-/

namespace Bitcask

open LittleEndian FileSystem CrashHoare

/-! ## The ids of a merge -/

/-- The bytes of the files of the snapshot not walked yet. -/
def todoBytes (fs : Fs FileName) (todo : List (ℕ × Inode)) : ℕ :=
  (todo.map fun f => (fs.bytes f.2).length).sum

/-- A merge that walks its snapshot. Ids below the one it rotated to are up to its last output, or
below it while that one has no data name. `full` outputs are full, and the bytes `used` may still
go into others. -/
structure RunIds (cfg : Config) (tr : Trace) (fs : Fs FileName) (cur : ℕ) (r : MergeRun)
    (isOpen : Bool) (used : ℕ) : Prop where
  first_eq : r.firstCompactedFileId = tr.first
  bar_le : tr.bar cfg ≤ cur
  first_le : tr.first + isOpen.toNat ≤ r.nextCompactionFileId
  next_le : r.nextCompactionFileId ≤ tr.first + (tr.total / cfg.fileSizeThreshold + 1)
  todo : ∀ f ∈ r.todo, f.1 < tr.first ∧ f.2 < fs.next ∧ ∀ n, fs.lookup n = some f.2 → n = .data f.1
  removed : ∀ id ∈ r.idsToRemove, id < tr.first
  ids : ∀ id ∈ tr.ever, id + isOpen.toNat ≤ r.nextCompactionFileId ∨ tr.bar cfg ≤ id
  names : NamesLe fs r.nextCompactionFileId
  budget : r.todo = [] ∨ ∃ full, r.nextCompactionFileId = tr.first + full + isOpen.toNat ∧
    full * cfg.fileSizeThreshold + used ≤ tr.total

/-- An open output has the last id, and its hint has its name. -/
def OutIds (tr : Trace) (fs : Fs FileName) (r : MergeRun) (out : MergeOutput) : Prop :=
  out.id = r.nextCompactionFileId ∧ tr.first < out.id ∧ fs.lookup (.hint out.id) = some out.hint

/-- The name of the data file of an output. -/
def FinishStep.name (st : FinishStep) (id : ℕ) : FileName :=
  if st.unnamed then .compact id else .data id

/-- The ids and names of each point of a merge. -/
def MergeIds (cfg : Config) (tr : Trace) (fs : Fs FileName) (cur : ℕ) (lock : Lock) : Merge → Prop
  | .idle _ | .subtract _ | .dead => True
  | .rotating r =>
    r.nextCompactionFileId = tr.first ∧ lock.rotates = some (tr.bar cfg) ∧
      cur = (if lock.opening then tr.bar cfg else tr.first) ∧
      RunIds cfg tr fs (tr.bar cfg) r false (todoBytes fs r.todo)
  | .nextFile r none => RunIds cfg tr fs cur r false (todoBytes fs r.todo)
  | .openHint r id data =>
    id = r.nextCompactionFileId ∧ fs.lookup (.compact id) = some data ∧
      RunIds cfg tr fs cur r true (todoBytes fs r.todo)
  | .nextFile r (some out) =>
    OutIds tr fs r out ∧ fs.lookup (.compact out.id) = some out.data ∧
      RunIds cfg tr fs cur r true (out.written + todoBytes fs r.todo)
  | .records r out fileId reader =>
    OutIds tr fs r out ∧ fs.lookup (.compact out.id) = some out.data ∧ fileId < tr.first ∧
      RunIds cfg tr fs cur r true (out.written + reader.reader.length + todoBytes fs r.todo)
  | .finish st r out =>
    OutIds tr fs r out ∧ fs.lookup (st.name out.id) = some out.data ∧
      (r.todo = [] ∨ cfg.fileSizeThreshold ≤ out.written) ∧
      RunIds cfg tr fs cur r st.unnamed
        ((if st.unnamed then out.written else 0) + todoBytes fs r.todo)
  | .removeData ids _ | .removeHint _ ids _ => ∀ id ∈ ids, id < cur

/-- `rotate_to` goes to an id above the active one. -/
def LockIds (cur : ℕ) : Lock → Prop
  | .rotateTo .sync next _ | .rotateTo .create next _ => cur < next
  | .rotateTo .clock next _ | .rotateTo .reader next _ => next = cur
  | .free | .poisoned | .writing _ _ | .policy _ | .rotateIfFull _ => True

/-- The invariant of a running store. -/
structure Ids (cfg : Config) (tr : Trace) (s : Sys) : Prop where
  threshold_pos : 0 < cfg.fileSizeThreshold
  named : Named tr.ever s.fs s.readers s.writer.currentFileId s.writer.file
  lock : LockIds s.writer.currentFileId s.lock
  merge : MergeIds cfg tr s.fs s.writer.currentFileId s.lock s.merge

section Run

variable {cfg : Config} {tr tr' : Trace} {fs fs' : Fs FileName} {cur cur' : ℕ} {r : MergeRun}
  {isOpen : Bool} {used used' : ℕ}

theorem RunIds.next_lt (h : RunIds cfg tr fs cur r isOpen used) :
    r.nextCompactionFileId < tr.bar cfg := by
  have := h.next_le
  unfold Trace.bar
  generalize tr.total / cfg.fileSizeThreshold = q at *
  omega

theorem RunIds.mono (h : RunIds cfg tr fs cur r isOpen used) (hle : used' ≤ used) :
    RunIds cfg tr fs cur r isOpen used' :=
  { h with
    budget := h.budget.imp_right fun hb => by
      obtain ⟨full, hnext, hsum⟩ := hb
      exact ⟨full, hnext, by omega⟩ }

/-- The directory and the writer move on, and the merge stays where it is. -/
theorem RunIds.frame (h : RunIds cfg tr fs cur r isOpen used) (hbar : tr.bar cfg ≤ cur')
    (hfirst : tr'.first = tr.first) (htotal : tr'.total = tr.total)
    (hever : ∀ id ∈ tr'.ever, id ∈ tr.ever ∨ tr.bar cfg ≤ id) (hnext : fs.next ≤ fs'.next)
    (hold : ∀ f ∈ r.todo, ∀ n, fs'.lookup n = some f.2 → fs.lookup n = some f.2)
    (hnames : NamesLe fs' r.nextCompactionFileId) : RunIds cfg tr' fs' cur' r isOpen used := by
  have hb : tr'.bar cfg = tr.bar cfg := by rw [Trace.bar, Trace.bar, hfirst, htotal]
  refine ⟨by rw [hfirst]; exact h.first_eq, by rw [hb]; exact hbar, by rw [hfirst]; exact h.first_le,
    by rw [hfirst, htotal]; exact h.next_le, fun f hf => ?_, by rw [hfirst]; exact h.removed,
    fun id hid => ?_, hnames, by rw [hfirst, htotal]; exact h.budget⟩
  · obtain ⟨h1, h2, h3⟩ := h.todo f hf
    exact ⟨by rw [hfirst]; exact h1, h2.trans_le hnext, fun n hn => h3 n (hold f hf n hn)⟩
  · rw [hb]
    exact (hever id hid).elim (h.ids id) Or.inr

theorem todoBytes_congr {todo : List (ℕ × Inode)} (h : ∀ f ∈ todo, fs'.bytes f.2 = fs.bytes f.2) :
    todoBytes fs' todo = todoBytes fs todo := by
  unfold todoBytes
  rw [List.map_congr_left fun f hf => by rw [h f hf]]

theorem todoBytes_cons (f : ℕ × Inode) (todo : List (ℕ × Inode)) :
    todoBytes fs (f :: todo) = (fs.bytes f.2).length + todoBytes fs todo := rfl

/-- Every point of a run has its ids. -/
theorem MergeIds.run {lock : Lock} {m : Merge} (h : MergeIds cfg tr fs cur lock m)
    (hr : m.run = some r) :
    tr.first ≤ cur ∧ ∃ cur' isOpen used, RunIds cfg tr fs cur' r isOpen used := by
  have hcur : ∀ {isOpen used}, RunIds cfg tr fs cur r isOpen used → tr.first ≤ cur := by
    intro isOpen used hrun
    exact (tr.first_lt_bar cfg).le.trans hrun.bar_le
  cases m with
  | rotating r' =>
    obtain rfl := Option.some.inj hr
    obtain ⟨-, -, hc, hrun⟩ := h
    refine ⟨?_, _, _, _, hrun⟩
    rw [hc]
    split
    · exact (tr.first_lt_bar cfg).le
    · exact le_rfl
  | nextFile r' output =>
    obtain rfl := Option.some.inj hr
    cases output with
    | none => exact ⟨hcur h, _, _, _, h⟩
    | some out => exact ⟨hcur h.2.2, _, _, _, h.2.2⟩
  | openHint r' id data =>
    obtain rfl := Option.some.inj hr
    exact ⟨hcur h.2.2, _, _, _, h.2.2⟩
  | records r' out fileId reader =>
    obtain rfl := Option.some.inj hr
    exact ⟨hcur h.2.2.2, _, _, _, h.2.2.2⟩
  | finish st r' out =>
    obtain rfl := Option.some.inj hr
    exact ⟨hcur h.2.2.2, _, _, _, h.2.2.2⟩
  | idle | removeData | removeHint | subtract | dead => cases hr

/-- A record takes its bytes off the stream. -/
theorem RecordReader.nextRecord_length {rd rd' : RecordReader} {p : ℕ} {b : Bytes}
    (h : rd.nextRecord = some (.record p b, rd')) :
    b.length + rd'.reader.length = rd.reader.length := by
  unfold RecordReader.nextRecord at h
  split at h
  · split at h <;> cases h
  · split at h
    · cases h
    · simp only at h
      split at h
      · cases h
      · split at h
        · cases h
        · rename_i hshort hlen
          obtain ⟨hb, rfl⟩ := Prod.mk.inj (Option.some.inj h)
          obtain ⟨-, rfl⟩ := RecordRead.record.inj hb
          rw [List.length_drop] at hlen
          simp only [List.length_take, List.length_drop]
          omega

end Run

/-! ## One step -/

section Step

variable {crc : Bytes → UInt32} {cfg : Config} {tr : Trace} {s s' : Sys} {a : Act}

/-- An open output and its names. -/
theorem MergeIds.held {fs : Fs FileName} {cur : ℕ} {lock : Lock} {m : Merge}
    (h : MergeIds cfg tr fs cur lock m) {out : MergeOutput} (ho : Sys.heldOutput m = some out) :
    (∃ r, m.run = some r ∧ OutIds tr fs r out) ∧
      (fs.lookup (.compact out.id) = some out.data ∨ fs.lookup (.data out.id) = some out.data) := by
  cases m with
  | nextFile r output =>
    obtain rfl : output = some out := ho
    exact ⟨⟨r, rfl, h.1⟩, Or.inl h.2.1⟩
  | records r out' fileId reader =>
    obtain rfl := Option.some.inj ho
    exact ⟨⟨r, rfl, h.1⟩, Or.inl h.2.1⟩
  | finish st r out' =>
    obtain rfl := Option.some.inj ho
    refine ⟨⟨r, rfl, h.1⟩, ?_⟩
    have hd := h.2.1
    unfold FinishStep.name at hd
    split at hd
    · exact Or.inl hd
    · exact Or.inr hd
  | _ => cases ho

/-- A file of the snapshot is written to by no step. -/
theorem Ids.todo_untouched (h : Ids cfg tr s) {r : MergeRun} (hr : s.merge.run = some r)
    {f : ℕ × Inode} (hf : f ∈ r.todo) : f.2 ∉ touched s a := by
  obtain ⟨hcur, cur', isOpen, used, hrun⟩ := h.merge.run hr
  obtain ⟨hlt, -, hname⟩ := hrun.todo f hf
  rintro (⟨-, hw⟩ | ⟨out, ho, hi⟩)
  · have := FileName.data.inj (hname _ (by rw [hw]; exact h.named.current))
    omega
  · -- the output has names that no source has
    obtain ⟨⟨-, -, -, hfirst, hh⟩, hd⟩ := h.merge.held ho
    rcases hi with hi | hi
    · rw [← hi] at hd
      rcases hd with hd | hd
      · cases hname _ hd
      · have := FileName.data.inj (hname _ hd)
        omega
    · rw [← hi] at hh
      cases hname _ hh

/-- So its bytes stay. -/
theorem Ids.todo_bytes (h : Ids cfg tr s) (hs : Step crc cfg s a s') {r : MergeRun}
    (hr : s.merge.run = some r) : ∀ f ∈ r.todo, s'.fs.bytes f.2 = s.fs.bytes f.2 := by
  intro f hf
  obtain ⟨-, cur', isOpen, used, hrun⟩ := h.merge.run hr
  exact (hs.grows.2 _ (hrun.todo f hf).2.1).2 (h.todo_untouched hr hf)

theorem Named.remember {ever : Set ℕ} {fs : Fs FileName} {readers : Std.TreeMap ℕ Inode} {cur : ℕ}
    {file : Inode} (h : Named ever fs readers cur file) :
    Named (ever ∪ dataIds fs) fs readers cur file := by
  rw [h.ever_eq]
  exact h

/-- An id whose name was there before the step was noted before it. -/
theorem Named.mem_ever {ever : Set ℕ} {fs fs' : Fs FileName} {readers : Std.TreeMap ℕ Inode}
    {cur id : ℕ} {file : Inode} (h : Named ever fs readers cur file)
    (hl : fs'.lookup (.data id) = fs.lookup (.data id)) (hid : id ∈ ever ∪ dataIds fs') :
    id ∈ ever := by
  rcases hid with hid | hid
  · exact hid
  · have hid : fs'.lookup (.data id) ≠ none := hid
    rw [hl] at hid
    exact h.ever_name hid

/-- A step that leaves the names alone. -/
theorem RunIds.sameNames {fs fs' : Fs FileName} {readers : Std.TreeMap ℕ Inode} {cur cur' used : ℕ}
    {file : Inode} {r : MergeRun} {isOpen : Bool} (h : RunIds cfg tr fs cur r isOpen used)
    (hnamed : Named tr.ever fs readers cur' file) (hl : fs'.lookup = fs.lookup)
    (hn : fs'.next = fs.next) :
    RunIds cfg { tr with ever := tr.ever ∪ dataIds fs' } fs' cur r isOpen used :=
  h.frame h.bar_le rfl rfl (fun _ hid => Or.inl (hnamed.mem_ever (congrFun hl _) hid)) hn.ge
    (fun f _ n hf => by rwa [hl] at hf) (h.names.congr fun n _ => congrFun hl n)

/-- The lock holder moves on, and a merge that is past its rotation stays where it is. -/
theorem MergeIds.frame {fs fs' : Fs FileName} {cur cur' : ℕ} {lock lock' : Lock} {m : Merge}
    {ever : Set ℕ} (h : MergeIds cfg tr fs cur lock m) (hrot : ∀ r, m ≠ .rotating r)
    (hcur : cur ≤ cur') (hever : ∀ id ∈ ever, id ∈ tr.ever ∨ cur < id) (hnext : fs.next ≤ fs'.next)
    (hold : ∀ n i, i < fs.next → fs'.lookup n = some i → fs.lookup n = some i)
    (hlook : ∀ n, (∀ id, n ≠ .data id) → fs'.lookup n = fs.lookup n)
    (hdata : ∀ id i, fs.lookup (.data id) = some i → fs'.lookup (.data id) = some i)
    (hbytes : ∀ r, m.run = some r → ∀ f ∈ r.todo, fs'.bytes f.2 = fs.bytes f.2) :
    MergeIds cfg { tr with ever } fs' cur' lock' m := by
  have hrun : ∀ {r isOpen used}, RunIds cfg tr fs cur r isOpen used →
      RunIds cfg { tr with ever } fs' cur' r isOpen used := by
    intro r isOpen used hr
    exact hr.frame (hr.bar_le.trans hcur) rfl rfl
      (fun id hid => (hever id hid).imp_right fun hlt => hr.bar_le.trans hlt.le) hnext
      (fun f hf n hn => hold n f.2 (hr.todo f hf).2.1 hn) (hr.names.congr hlook)
  have hout : ∀ {r out}, OutIds tr fs r out → OutIds { tr with ever } fs' r out := fun ho =>
    ⟨ho.1, ho.2.1, by rw [hlook _ (by simp)]; exact ho.2.2⟩
  have htodo : ∀ {r}, m.run = some r → todoBytes fs' r.todo = todoBytes fs r.todo := fun hr =>
    todoBytes_congr (hbytes _ hr)
  cases m with
  | idle | subtract | dead => trivial
  | rotating r => exact absurd rfl (hrot r)
  | nextFile r output =>
    cases output with
    | none =>
      show RunIds _ _ _ _ _ _ _
      rw [htodo rfl]
      exact hrun h
    | some out =>
      refine ⟨hout h.1, by rw [hlook _ (by simp)]; exact h.2.1, ?_⟩
      rw [htodo rfl]
      exact hrun h.2.2
  | openHint r id data =>
    refine ⟨h.1, by rw [hlook _ (by simp)]; exact h.2.1, ?_⟩
    rw [htodo rfl]
    exact hrun h.2.2
  | records r out fileId reader =>
    refine ⟨hout h.1, by rw [hlook _ (by simp)]; exact h.2.1, h.2.2.1, ?_⟩
    rw [htodo rfl]
    exact hrun h.2.2.2
  | finish st r out =>
    refine ⟨hout h.1, ?_, h.2.2.1, ?_⟩
    · have hd := h.2.1
      unfold FinishStep.name at hd ⊢
      by_cases hst : st.unnamed = true
      · rw [if_pos hst] at hd ⊢
        rw [hlook _ (by simp)]
        exact hd
      · rw [if_neg hst] at hd ⊢
        exact hdata _ _ hd
    · rw [htodo rfl]
      exact hrun h.2.2.2
  | removeData ids stale => exact fun id hid => (h id hid).trans_le hcur
  | removeHint id ids stale => exact fun id hid => (h id hid).trans_le hcur

/-- What a step of the lock holder does to the names. -/
theorem WriterStep.fs_cases (hs : WriterStep crc cfg s a s') :
    (s'.fs.lookup = s.fs.lookup ∧ s'.fs.next = s.fs.next ∧
        s'.writer.currentFileId = s.writer.currentFileId ∧ s'.writer.file = s.writer.file ∧
        (s'.readers = s.readers ∨ ∃ next i, s'.readers = s.readers.insert next i ∧
          s.fs.lookup (.data next) = some i)) ∨
      ∃ next caller, s.lock = .rotateTo .create next caller ∧
        s'.fs = s.fs.create (.data next) ∧ s'.writer.currentFileId = next ∧
        s'.writer.file = s.fs.handle (.data next) ∧ s'.readers = s.readers := by
  cases hs with
  | rotateCreate next now caller hl => exact Or.inr ⟨next, caller, hl, rfl, rfl, rfl, rfl⟩
  | rotateReader next now caller i hl hi =>
    refine Or.inl ?_
    cases caller with
    | append c => exact ⟨rfl, rfl, rfl, rfl, Or.inr ⟨next, i, rfl, hi⟩⟩
    | compaction =>
      unfold Sys.endRotate
      split <;> exact ⟨rfl, rfl, rfl, rfl, Or.inr ⟨next, i, rfl, hi⟩⟩
  | rotateMissing next now caller hl hi | failRotate st next caller e hl =>
    cases caller <;> exact Or.inl ⟨rfl, rfl, rfl, rfl, Or.inl rfl⟩
  | _ => exact Or.inl ⟨rfl, rfl, rfl, rfl, Or.inl rfl⟩

theorem Named.writerStep {ever : Set ℕ}
    (h : Named ever s.fs s.readers s.writer.currentFileId s.writer.file)
    (hlock : LockIds s.writer.currentFileId s.lock) (hs : WriterStep crc cfg s a s') :
    Named (ever ∪ dataIds s'.fs) s'.fs s'.readers s'.writer.currentFileId s'.writer.file := by
  rcases hs.fs_cases with ⟨hl, hn, hcur, hfile, hreaders⟩ | ⟨next, caller, hl, hfs, hcur, hfile, hr⟩
  · rw [hcur, hfile]
    have hnamed := h.same (fun n => congrFun hl n) hn
    rcases hreaders with hr | ⟨next, i, hr, hi⟩
    · rw [hr]
      exact hnamed.remember
    · rw [hr]
      exact (hnamed.insert (by rw [hl]; exact hi)).remember
  · rw [hl] at hlock
    rw [hfs, hcur, hfile, hr]
    exact h.rotate hlock

theorem LockIds.writerStep (h : LockIds s.writer.currentFileId s.lock)
    (hs : WriterStep crc cfg s a s') : LockIds s'.writer.currentFileId s'.lock := by
  cases hs with
  | full c now hl ho => exact Nat.lt_succ_self _
  | rotateSync next now caller hl | rotateClock next now caller hl =>
    rw [hl] at h
    exact h
  | rotateCreate next now caller hl => rfl
  | rotateReader next now caller i hl hi =>
    cases caller with
    | append c => trivial
    | compaction =>
      unfold Sys.endRotate
      split <;> trivial
  | rotateMissing next now caller hl hi | failRotate st next caller e hl =>
    cases caller <;> trivial
  | _ => trivial

/-- What a step of the lock holder does to a merge that does not wait for its rotation. -/
theorem WriterStep.merge_eq (hs : WriterStep crc cfg s a s') (hrot : ∀ r, s.merge ≠ .rotating r) :
    s'.merge = s.merge ∨ ∃ res, s'.merge = .idle res := by
  cases hs with
  | rotateReader next now caller i hl hi =>
    cases caller with
    | append c => exact Or.inl rfl
    | compaction =>
      unfold Sys.endRotate
      split
      · rename_i hm
        exact absurd hm (hrot _)
      · exact Or.inl rfl
  | rotateMissing next now caller hl hi | failRotate st next caller e hl =>
    cases caller with
    | append c => exact Or.inl rfl
    | compaction => exact Or.inr ⟨_, rfl⟩
  | _ => exact Or.inl rfl

theorem Ids.merge_writer (h : Ids cfg tr s) (hs : WriterStep crc cfg s a s')
    (hrot : ∀ r, s.merge ≠ .rotating r) :
    MergeIds cfg { tr with ever := tr.ever ∪ dataIds s'.fs } s'.fs s'.writer.currentFileId s'.lock
      s'.merge := by
  rcases hs.merge_eq hrot with hm | ⟨res, hm⟩
  swap
  · rw [hm]
    trivial
  rw [hm]
  have hbytes := fun r hr => h.todo_bytes (.writer hs) (r := r) hr
  rcases hs.fs_cases with ⟨hl, hn, hcur, -, -⟩ | ⟨next, caller, hlock, hfs, hcur, -, -⟩
  · rw [hcur]
    exact h.merge.frame hrot le_rfl (fun _ hid => Or.inl (h.named.mem_ever (congrFun hl _) hid)) hn.ge
      (fun n i _ hi => by rwa [hl] at hi) (fun n _ => congrFun hl n) (fun id i hi => by rwa [hl]) hbytes
  · have hlt := h.lock
    rw [hlock] at hlt
    have hlt : s.writer.currentFileId < next := hlt
    have hnone : s.fs.lookup (.data next) = none := by
      by_contra hne
      have := h.named.ever_le (h.named.ever_name hne)
      omega
    rw [hcur]
    rw [hfs] at hbytes ⊢
    refine h.merge.frame hrot hlt.le (fun id hid => ?_) Fs.next_le_create
      (fun n i hi hn => lookup_of_create hi hn) (fun n hn => Fs.lookup_create_ne (hn next))
      (fun id i hi => ?_) hbytes
    · by_cases hne : id = next
      · exact Or.inr (by omega)
      · exact Or.inl (h.named.mem_ever (Fs.lookup_create_ne (by simpa using hne)) hid)
    · rw [Fs.lookup_create_ne]
      · exact hi
      · intro he
        rw [he, hnone] at hi; cases hi

/-- The rotation of a merge. -/
theorem Ids.merge_rotating (h : Ids cfg tr s) (hs : WriterStep crc cfg s a s') {r : MergeRun}
    (hm : s.merge = .rotating r) :
    MergeIds cfg { tr with ever := tr.ever ∪ dataIds s'.fs } s'.fs s'.writer.currentFileId s'.lock
      s'.merge := by
  have hmi := h.merge
  rw [hm] at hmi
  obtain ⟨hnext, hrotates, hcur, hrun⟩ := hmi
  have hbytes : todoBytes s'.fs r.todo = todoBytes s.fs r.todo :=
    todoBytes_congr (h.todo_bytes (.writer hs) (by rw [hm]; rfl))
  have hsame : s'.fs.lookup = s.fs.lookup → s'.fs.next = s.fs.next →
      RunIds cfg { tr with ever := tr.ever ∪ dataIds s'.fs } s'.fs (tr.bar cfg) r false
        (todoBytes s'.fs r.todo) := by
    intro hl hn
    rw [hbytes]
    exact hrun.sameNames h.named hl hn
  have hlock := h.lock
  cases hs with
  | rotateSync next now caller hl =>
    rw [hl] at hrotates hcur
    cases caller with
    | append c => cases hrotates
    | compaction =>
      rw [show ({ s.sync with lock := .rotateTo .create next .compaction } : Sys).merge = .rotating r
        from hm]
      exact ⟨hnext, hrotates, hcur, hsame rfl rfl⟩
  | rotateClock next now caller hl =>
    rw [hl] at hrotates hcur
    cases caller with
    | append c => cases hrotates
    | compaction =>
      simp only [hm]
      exact ⟨hnext, hrotates, hcur, hsame rfl rfl⟩
  | rotateCreate next now caller hl =>
    rw [hl] at hrotates hcur hlock
    cases caller with
    | append c => cases hrotates
    | compaction =>
      obtain rfl : next = tr.bar cfg := Option.some.inj hrotates
      simp only [Sys.rotateTo, hm] at hbytes ⊢
      refine ⟨hnext, rfl, rfl, ?_⟩
      rw [hbytes]
      refine hrun.frame le_rfl rfl rfl (fun id hid => ?_) Fs.next_le_create
        (fun f hf n hn => lookup_of_create (hrun.todo f hf).2.1 hn)
        (hrun.names.congr fun n hn => Fs.lookup_create_ne (hn _))
      by_cases hne : id = tr.bar cfg
      · exact Or.inr hne.ge
      · exact Or.inl (h.named.mem_ever (Fs.lookup_create_ne (by simpa using hne)) hid)
  | rotateReader next now caller i hl hi =>
    rw [hl] at hrotates hcur
    cases caller with
    | append c => cases hrotates
    | compaction =>
      have hcur : s.writer.currentFileId = tr.bar cfg := hcur
      simp only [Sys.endRotate, Sys.readersUpdate, hm] at hsame ⊢
      show RunIds _ _ _ s.writer.currentFileId _ _ _
      rw [hcur]
      exact hsame trivial trivial
  | rotateMissing next now caller hl hi | failRotate st next caller e hl =>
    rw [hl] at hrotates
    cases caller with
    | append c => cases hrotates
    | compaction => trivial
  | begin call ts hl | write c done n hl | publish c now hl | policySkip c now hl
  | policySync c now last hl | policyPanic c now hl | notFull c now hl | full c now hl
  | failWrite c done e hl | failPolicy c e hl => rw [hl] at hrotates; cases hrotates

/-- The names after a step of the compaction thread. -/
theorem Ids.named_merge (h : Ids cfg tr s) (hs : MergeStep crc cfg s s') :
    Named (tr.ever ∪ dataIds s'.fs) s'.fs s'.readers s'.writer.currentFileId s'.writer.file := by
  have hmi := h.merge
  cases hs with
  | openData r f rest hm ht =>
    rw [hm] at hmi
    have hlt := hmi.next_lt
    have hle := hmi.bar_le
    refine (h.named.create (by simp) fun id hid => ?_).remember
    have hid : r.nextCompactionFileId + 1 = id := by simpa using hid
    omega
  | openHint r id data hm =>
    rw [hm] at hmi
    have hlt := hmi.2.2.next_lt
    have hle := hmi.2.2.bar_le
    refine (h.named.create (by simp) fun id' hid => ?_).remember
    have hid : id = id' := by simpa using hid
    rw [← hid, hmi.1]
    omega
  | rename r out i hm hi =>
    rw [hm] at hmi
    have hlt := hmi.2.2.2.next_lt
    have hle := hmi.2.2.2.bar_le
    refine h.named.rename hi ?_
    rw [hmi.1.1]
    omega
  | reader r out i hm hi => exact (h.named.insert hi).remember
  | remove id ids stale i hm hi =>
    rw [hm] at hmi
    refine (h.named.unlink fun he => ?_).remember
    have := hmi id List.mem_cons_self
    have := FileName.data.inj he
    omega
  | removeHint id ids stale hm => exact (h.named.unlink (by simp)).remember
  | _ =>
    refine Named.remember ?_
    exact h.named.same (fun _ => rfl) rfl

/-- The compaction thread leaves the lock alone, or panics with it. -/
theorem Ids.lock_merge (h : Ids cfg tr s) (hs : MergeStep crc cfg s s') :
    LockIds s'.writer.currentFileId s'.lock := by
  have hcur : s'.writer.currentFileId = s.writer.currentFileId := by cases hs <;> rfl
  rw [hcur]
  rcases hs.lock_eq with hl | ⟨-, hl⟩
  · rw [hl]; exact h.lock
  · rw [hl]; trivial

/-- A merge opens one more output: an id is left, since full outputs hold bytes of the snapshot. -/
theorem RunIds.openOutput {fs : Fs FileName} {readers : Std.TreeMap ℕ Inode} {cur : ℕ}
    {file : Inode} {r : MergeRun} {lock : Lock}
    (h : RunIds cfg tr fs cur r false (todoBytes fs r.todo)) (hpos : 0 < cfg.fileSizeThreshold)
    (hnamed : Named tr.ever fs readers cur file) (htodo : r.todo ≠ [])
    (hbytes : todoBytes (fs.create (.compact (r.nextCompactionFileId + 1))) r.todo =
      todoBytes fs r.todo) :
    MergeIds cfg
      { tr with ever := tr.ever ∪ dataIds (fs.create (.compact (r.nextCompactionFileId + 1))) }
      (fs.create (.compact (r.nextCompactionFileId + 1))) cur lock
      (.openHint { r with nextCompactionFileId := r.nextCompactionFileId + 1 }
        (r.nextCompactionFileId + 1) (fs.handle (.compact (r.nextCompactionFileId + 1)))) := by
  obtain ⟨full, hnext, hsum⟩ := h.budget.resolve_left htodo
  have hdiv : full ≤ tr.total / cfg.fileSizeThreshold :=
    (Nat.le_div_iff_mul_le hpos).mpr (by omega)
  have hnext : r.nextCompactionFileId = tr.first + full := hnext
  refine ⟨rfl, Fs.lookup_create_self, ?_⟩
  show RunIds _ _ _ _ _ _ (todoBytes (fs.create _) r.todo)
  rw [hbytes]
  exact {
    first_eq := h.first_eq
    bar_le := h.bar_le
    first_le := by
      show tr.first + 1 ≤ r.nextCompactionFileId + 1
      omega
    next_le := by
      show r.nextCompactionFileId + 1 ≤ tr.first + (tr.total / cfg.fileSizeThreshold + 1)
      omega
    todo := fun f hf => by
      obtain ⟨h1, h2, h3⟩ := h.todo f hf
      exact ⟨h1, h2.trans_le Fs.next_le_create, fun n hn => h3 n (lookup_of_create h2 hn)⟩
    removed := h.removed
    ids := fun id hid => by
      have hever : id ∈ tr.ever := hnamed.mem_ever (Fs.lookup_create_ne (by simp)) hid
      exact (h.ids id hever).imp_left fun hle => Nat.succ_le_succ hle
    names := fun id hid => by
      show id ≤ r.nextCompactionFileId + 1
      by_cases hne : id = r.nextCompactionFileId + 1
      · exact hne.le
      · refine (h.names id (hid.imp (fun he => ?_) fun he => ?_)).trans (Nat.le_succ _)
        · rwa [Fs.lookup_create_ne (by simpa using hne)] at he
        · rwa [Fs.lookup_create_ne (by simp)] at he
    budget := Or.inr ⟨full, by rw [hnext]; rfl, hsum⟩ }

/-- The output gets its data name; if there are files left to walk, it is full. -/
theorem RunIds.named {fs : Fs FileName} {readers : Std.TreeMap ℕ Inode} {cur : ℕ} {file : Inode}
    {r : MergeRun} {out : MergeOutput}
    (h : RunIds cfg tr fs cur r true (out.written + todoBytes fs r.todo))
    (hnamed : Named tr.ever fs readers cur file) (hid : out.id = r.nextCompactionFileId)
    (hd : fs.lookup (.compact out.id) = some out.data)
    (hfull : r.todo = [] ∨ cfg.fileSizeThreshold ≤ out.written) :
    RunIds cfg { tr with ever := tr.ever ∪ dataIds (fs.rename (.compact out.id) (.data out.id)) }
      (fs.rename (.compact out.id) (.data out.id)) cur r false (0 + todoBytes fs r.todo) where
  first_eq := h.first_eq
  bar_le := h.bar_le
  first_le := by
    have := h.first_le
    show tr.first ≤ _
    exact (Nat.le_succ _).trans this
  next_le := h.next_le
  todo f hf := by
    obtain ⟨h1, h2, h3⟩ := h.todo f hf
    refine ⟨h1, by rw [Fs.next_rename]; exact h2, fun n hn => ?_⟩
    rcases lookup_of_rename hd hn with ⟨-, hf2⟩ | ⟨-, hn⟩
    · rw [← hf2] at hd
      cases h3 _ hd
    · exact h3 n hn
  removed := h.removed
  ids id hmem := by
    rcases hmem with hmem | hmem
    · exact (h.ids id hmem).imp_left fun hle => (Nat.le_succ _).trans hle
    · obtain ⟨j, hj⟩ := Option.ne_none_iff_exists'.mp hmem
      rcases lookup_of_rename hd hj with ⟨he, -⟩ | ⟨-, hj⟩
      · left
        rw [FileName.data.inj he, hid]
        exact le_rfl
      · exact (h.ids id (hnamed.ever_name (by rw [hj]; simp))).imp_left fun hle =>
          (Nat.le_succ _).trans hle
  names id hname := by
    have hsome : ∀ {n}, (∀ id, n ≠ .data id) →
        (fs.rename (.compact out.id) (.data out.id)).lookup n ≠ none → fs.lookup n ≠ none := by
      intro n hn hl
      obtain ⟨j, hj⟩ := Option.ne_none_iff_exists'.mp hl
      rcases lookup_of_rename hd hj with ⟨he, -⟩ | ⟨-, hj⟩
      · exact absurd he (hn out.id)
      · rw [hj]
        simp
    exact h.names id (hname.imp (hsome (by simp)) (hsome (by simp)))
  budget := by
    refine (em (r.todo = [])).imp_right fun hne => ?_
    obtain ⟨full, hnext, hsum⟩ := h.budget.resolve_left hne
    have hw := hfull.resolve_left hne
    refine ⟨full + 1, by rw [hnext]; rfl, ?_⟩
    rw [Nat.add_one_mul, Nat.zero_add]
    show full * cfg.fileSizeThreshold + cfg.fileSizeThreshold + todoBytes fs r.todo ≤ tr.total
    omega

/-- The hint file of the output gets the id the output has. -/
theorem RunIds.createHint {fs : Fs FileName} {readers : Std.TreeMap ℕ Inode} {cur used : ℕ}
    {file : Inode} {r : MergeRun} {isOpen : Bool} (h : RunIds cfg tr fs cur r isOpen used)
    (hnamed : Named tr.ever fs readers cur file) :
    RunIds cfg { tr with ever := tr.ever ∪ dataIds (fs.create (.hint r.nextCompactionFileId)) }
      (fs.create (.hint r.nextCompactionFileId)) cur r isOpen used := by
  refine h.frame h.bar_le rfl rfl
    (fun _ hid => Or.inl (hnamed.mem_ever (Fs.lookup_create_ne (by simp)) hid)) Fs.next_le_create
    (fun f hf n hn => lookup_of_create (h.todo f hf).2.1 hn) fun id hid => ?_
  by_cases hne : id = r.nextCompactionFileId
  · exact hne.le
  · refine h.names id (hid.imp (fun he => ?_) fun he => ?_)
    · rwa [Fs.lookup_create_ne (by simp)] at he
    · rwa [Fs.lookup_create_ne (by simpa using hne)] at he

/-- The file that has been walked is one the merge will remove. -/
theorem RunIds.walked {fs : Fs FileName} {cur used fileId : ℕ} {r : MergeRun} {isOpen : Bool}
    (h : RunIds cfg tr fs cur r isOpen used) (hid : fileId < tr.first) :
    RunIds cfg tr fs cur { r with idsToRemove := r.idsToRemove ++ [fileId] } isOpen used :=
  { h with
    removed := fun id hmem => by
      rcases List.mem_append.mp hmem with hmem | hmem
      · exact h.removed id hmem
      · rwa [List.mem_singleton.mp hmem] }

/-- The next file of the snapshot is opened, and its bytes are now those of the reader. -/
theorem RunIds.source {fs : Fs FileName} {cur used : ℕ} {r : MergeRun} {isOpen : Bool}
    {f : ℕ × Inode} {rest : List (ℕ × Inode)}
    (h : RunIds cfg tr fs cur r isOpen (used + todoBytes fs r.todo)) (ht : r.todo = f :: rest) :
    RunIds cfg tr fs cur { r with todo := rest } isOpen
      (used + (fs.bytes f.2).length + todoBytes fs rest) := by
  rw [ht, todoBytes_cons, ← Nat.add_assoc] at h
  exact {
    h with
    todo := fun f' hf' => h.todo f' (by rw [ht]; exact List.mem_cons_of_mem _ hf')
    budget := Or.inr (h.budget.resolve_left (by rw [ht]; simp)) }

/-! ### From one point of a merge to the next -/

section Points

variable {fs : Fs FileName} {cur fileId p n : ℕ} {lock : Lock} {r : MergeRun} {out : MergeOutput}
  {rd rd' : RecordReader} {b : Bytes}

theorem MergeIds.lastOutput (h : MergeIds cfg tr fs cur lock (.nextFile r (some out)))
    (ht : r.todo = []) : MergeIds cfg tr fs cur lock (.finish .syncData r out) :=
  ⟨h.1, h.2.1, Or.inl ht, h.2.2⟩

theorem MergeIds.scanned (h : MergeIds cfg tr fs cur lock (.nextFile r none)) (stale : ℕ) :
    MergeIds cfg tr fs cur lock (.removeData r.idsToRemove stale) := by
  intro id hid
  have hrun : RunIds cfg tr fs cur r false (todoBytes fs r.todo) := h
  exact (hrun.removed id hid).trans ((tr.first_lt_bar cfg).trans_le hrun.bar_le)

theorem MergeIds.source (h : MergeIds cfg tr fs cur lock (.nextFile r (some out))) {i : Inode}
    {rest : List (ℕ × Inode)} (ht : r.todo = (fileId, i) :: rest) :
    MergeIds cfg tr fs cur lock (.records { r with todo := rest } out fileId
      (RecordReader.new (fs.bytes i) (fs.bytes i).length)) := by
  obtain ⟨hout, hd, hrun⟩ := h
  have hf : (fileId, i) ∈ r.todo := by rw [ht]; exact List.mem_cons_self
  exact ⟨hout, hd, (hrun.todo _ hf).1, hrun.source ht⟩

/-- The source has been read to its end. -/
theorem MergeIds.eof (h : MergeIds cfg tr fs cur lock (.records r out fileId rd)) :
    MergeIds cfg tr fs cur lock
      (.nextFile { r with idsToRemove := r.idsToRemove ++ [fileId] } (some out)) := by
  obtain ⟨hout, hd, hid, hrun⟩ := h
  have hrun' := hrun.mono (show out.written + todoBytes fs r.todo ≤ _ by omega)
  exact ⟨hout, hd, hrun'.walked hid⟩

theorem MergeIds.eofFull (h : MergeIds cfg tr fs cur lock (.records r out fileId rd))
    (hw : cfg.fileSizeThreshold ≤ out.written) :
    MergeIds cfg tr fs cur lock
      (.finish .syncData { r with idsToRemove := r.idsToRemove ++ [fileId] } out) := by
  obtain ⟨hout, hd, hrun⟩ := h.eof
  exact ⟨hout, hd, Or.inr hw, hrun⟩

theorem MergeIds.skip (h : MergeIds cfg tr fs cur lock (.records r out fileId rd))
    (hr : rd.nextRecord = some (.record p b, rd')) :
    MergeIds cfg tr fs cur lock (.records r out fileId rd') := by
  obtain ⟨hout, hd, hid, hrun⟩ := h
  have hlen := RecordReader.nextRecord_length hr
  exact ⟨hout, hd, hid, hrun.mono (by omega)⟩

/-- The bytes of a record go from the source to the output. -/
theorem MergeIds.copy (h : MergeIds cfg tr fs cur lock (.records r out fileId rd))
    (hr : rd.nextRecord = some (.record p b, rd')) (crc : Bytes → UInt32) (key : Bytes) (ts : UInt64)
    (pending : List PendingUpdate) :
    MergeIds cfg tr fs cur lock (.records { r with pendingRecords := pending }
      (out.append crc b key ts).1 fileId rd') := by
  obtain ⟨hout, hd, hid, hrun⟩ := h
  have hlen := RecordReader.nextRecord_length hr
  have hrun' := hrun.mono (show out.written + b.length + rd'.reader.length + todoBytes fs r.todo ≤ _ by
    omega)
  exact ⟨hout, hd, hid, { hrun' with }⟩

theorem MergeIds.update (h : MergeIds cfg tr fs cur lock (.finish .updates r out))
    (pending : List PendingUpdate) :
    MergeIds cfg tr fs cur lock (.finish .updates { r with pendingRecords := pending } out) := by
  obtain ⟨hout, hd, hfull, hrun⟩ := h
  exact ⟨hout, hd, hfull, { hrun with }⟩

theorem MergeIds.updated (h : MergeIds cfg tr fs cur lock (.finish .updates r out)) :
    MergeIds cfg tr fs cur lock (.nextFile r none) := by
  have hrun := h.2.2.2
  rwa [show (if FinishStep.updates.unnamed = true then out.written else 0) = 0 from rfl,
    Nat.zero_add] at hrun

end Points

/-- A step that changes no name, and no file the merge has still to walk. -/
theorem Ids.same_names (h : Ids cfg tr s) {fs' : Fs FileName} {lock : Lock} {m : Merge}
    (hm : s.merge = m) (hrot : ∀ r, m ≠ .rotating r) (hl : fs'.lookup = s.fs.lookup)
    (hn : fs'.next = s.fs.next)
    (hbytes : ∀ r, s.merge.run = some r → ∀ f ∈ r.todo, fs'.bytes f.2 = s.fs.bytes f.2) :
    MergeIds cfg { tr with ever := tr.ever ∪ dataIds fs' } fs' s.writer.currentFileId lock m := by
  subst hm
  exact h.merge.frame hrot le_rfl (fun _ hid => Or.inl (h.named.mem_ever (congrFun hl _) hid)) hn.ge
    (fun n i _ hi => by rwa [hl] at hi) (fun n _ => congrFun hl n) (fun id i hi => by rwa [hl]) hbytes

/-- The hint file of an output is created. -/
theorem Ids.openHint (h : Ids cfg tr s) {r : MergeRun} {id : ℕ} {data : Inode}
    (hm : s.merge = .openHint r id data)
    (hbytes : todoBytes (s.fs.create (.hint id)) r.todo = todoBytes s.fs r.todo) :
    MergeIds cfg { tr with ever := tr.ever ∪ dataIds (s.openHint r id data).fs }
      (s.openHint r id data).fs s.writer.currentFileId s.lock (s.openHint r id data).merge := by
  have hmi := h.merge
  rw [hm] at hmi
  obtain ⟨rfl, hd, hrun⟩ := hmi
  refine ⟨⟨rfl, hrun.first_le, Fs.lookup_create_self⟩, ?_, ?_⟩
  · rw [← hd]
    exact Fs.lookup_create_ne (by simp)
  · show RunIds _ _ _ _ _ _ (0 + todoBytes (s.fs.create _) _)
    rw [Nat.zero_add, hbytes]
    exact hrun.createHint h.named

/-- An output gets its data name. -/
theorem Ids.rename (h : Ids cfg tr s) {r : MergeRun} {out : MergeOutput}
    (hm : s.merge = .finish .rename r out)
    (hbytes : todoBytes (s.fs.rename (.compact out.id) (.data out.id)) r.todo = todoBytes s.fs r.todo) :
    MergeIds cfg { tr with ever := tr.ever ∪ dataIds (s.fs.rename (.compact out.id) (.data out.id)) }
      (s.fs.rename (.compact out.id) (.data out.id)) s.writer.currentFileId s.lock
      (.finish .reader r out) := by
  have hmi := h.merge
  rw [hm] at hmi
  obtain ⟨hout, hd, hfull, hrun⟩ := hmi
  refine ⟨⟨hout.1, hout.2.1, ?_⟩, Fs.lookup_rename_new hd, hfull, ?_⟩
  · rw [← hout.2.2]
    exact Fs.lookup_rename_ne (by simp) (by simp)
  · rw [hbytes]
    exact hrun.named h.named hout.1 hd hfull

/-- A step of the compaction thread. -/
theorem Ids.merge_step (h : Ids cfg tr s) (hs : MergeStep crc cfg s s') :
    MergeIds cfg { tr with ever := tr.ever ∪ dataIds s'.fs } s'.fs s'.writer.currentFileId s'.lock
      s'.merge := by
  have hmi := h.merge
  have hbytes : ∀ r, s.merge.run = some r → ∀ f ∈ r.todo, s'.fs.bytes f.2 = s.fs.bytes f.2 :=
    fun r hr => h.todo_bytes (.merge hs) hr
  have htodo : ∀ {r}, s.merge.run = some r → todoBytes s'.fs r.todo = todoBytes s.fs r.todo :=
    fun hr => todoBytes_congr (hbytes _ hr)
  have hsame : ∀ {m}, s.merge = m → (∀ r, m ≠ .rotating r) → s'.fs.lookup = s.fs.lookup →
      s'.fs.next = s.fs.next → MergeIds cfg { tr with ever := tr.ever ∪ dataIds s'.fs } s'.fs
        s.writer.currentFileId s.lock m :=
    fun hm hrot hl hn => h.same_names hm hrot hl hn hbytes
  cases hs with
  | lastOutput r out hm ht => exact (hsame hm (by simp) rfl rfl).lastOutput ht
  | scanned r hm ht => exact (hsame hm (by simp) rfl rfl).scanned _
  | source r out fileId i rest hm ht => exact (hsame hm (by simp) rfl rfl).source ht
  | openData r f rest hm ht =>
    rw [hm] at hmi
    exact hmi.openOutput h.threshold_pos h.named (by rw [ht]; simp) (htodo (by rw [hm]; rfl))
  | openHint r id data hm => exact h.openHint hm (htodo (by rw [hm]; rfl))
  | eof r out fileId rd rd' hm hr hw => exact (hsame hm (by simp) rfl rfl).eof
  | eofFull r out fileId rd rd' hm hr hw => exact (hsame hm (by simp) rfl rfl).eofFull hw
  | skip r out fileId p n b rd rd' c hm hr hd hsits => exact (hsame hm (by simp) rfl rfl).skip hr
  | copy r out fileId p n b rd rd' ts key v hm hr hd hsits =>
    exact (hsame hm (by simp) rfl rfl).copy hr crc key ts _
  | syncData r out hm | syncHint r out hm | reader r out i hm =>
    have hmi := hsame hm (by simp) rfl rfl
    exact hmi
  | rename r out i hm hi => exact h.rename hm (htodo (by rw [hm]; rfl))
  | update r out p ps hm hp => exact (hsame hm (by simp) rfl rfl).update ps
  | updated r out hm hp => exact (hsame hm (by simp) rfl rfl).updated
  | remove id ids stale i hm hi =>
    rw [hm] at hmi
    exact fun id' hid' => hmi id' (List.mem_cons_of_mem _ hid')
  | removeHint id ids stale hm =>
    rw [hm] at hmi
    exact hmi
  | removed | subtract | subtractPoisoned | subtractPanic => trivial
  | framePanic | torn | undecodable | renameMissing | readerMissing | removeMissing => trivial

/-- A merge takes its snapshot. -/
theorem Ids.start (h : Ids cfg tr s) :
    MergeIds cfg ⟨tr.ever ∪ dataIds s.fs, s.writer.currentFileId, s.totalBytes⟩ s.fs
      s.writer.currentFileId
      (.rotateTo .sync
        (s.writer.currentFileId + (s.totalBytes / cfg.fileSizeThreshold + 2) + 1) .compaction)
      (.rotating ⟨s.writer.currentFileId, s.writer.staleBytesCount, s.snapshot, [],
        s.writer.currentFileId, []⟩) := by
  refine ⟨rfl, rfl, rfl, rfl, le_rfl, le_rfl, Nat.le_add_right _ _, fun f hf => ?_, by simp,
    fun id hid => Or.inl ?_, h.named.names, Or.inr ⟨0, rfl, ?_⟩⟩
  · obtain ⟨hmem, hne⟩ := List.mem_filter.mp hf
    obtain ⟨hever, hlt, hname⟩ := h.named.reader
      (Std.TreeMap.mem_toList_iff_getElem?_eq_some.mp hmem)
    exact ⟨lt_of_le_of_ne (h.named.ever_le hever) (by simpa using hne), hlt, hname⟩
  · rw [h.named.ever_eq] at hid
    exact h.named.ever_le hid
  · rw [Nat.zero_mul, Nat.zero_add]
    exact le_rfl

/-- The buffers of the output are written out in part. -/
theorem Ids.spill (h : Ids cfg tr s) {out : MergeOutput} (ho : Sys.heldOutput s.merge = some out)
    (out' : MergeOutput) (hid : out'.id = out.id) (hdata : out'.data = out.data) (hhint : out'.hint = out.hint)
    (hwritten : out'.written = out.written) (fs' : Fs FileName) (hl : fs'.lookup = s.fs.lookup)
    (hn : fs'.next = s.fs.next)
    (hbytes : ∀ r, s.merge.run = some r → ∀ f ∈ r.todo, fs'.bytes f.2 = s.fs.bytes f.2) :
    MergeIds cfg { tr with ever := tr.ever ∪ dataIds fs' } fs' s.writer.currentFileId s.lock
      (Sys.withOutput out' s.merge) := by
  have hframe : ∀ m, s.merge = m → (∀ r, m ≠ .rotating r) →
      MergeIds cfg { tr with ever := tr.ever ∪ dataIds fs' } fs' s.writer.currentFileId s.lock m :=
    fun m hm hrot => h.same_names hm hrot hl hn hbytes
  cases hm : s.merge with
  | nextFile r output =>
    rw [hm] at ho
    obtain rfl : output = some out := ho
    have hmi := hframe _ hm (by simp)
    refine ⟨⟨hid.trans hmi.1.1, by rw [hid]; exact hmi.1.2.1, by rw [hid, hhint]; exact hmi.1.2.2⟩,
      by rw [hid, hdata]; exact hmi.2.1, by rw [hwritten]; exact hmi.2.2⟩
  | records r out₁ fileId reader =>
    rw [hm] at ho
    obtain rfl := Option.some.inj ho
    have hmi := hframe _ hm (by simp)
    refine ⟨⟨hid.trans hmi.1.1, by rw [hid]; exact hmi.1.2.1, by rw [hid, hhint]; exact hmi.1.2.2⟩,
      by rw [hid, hdata]; exact hmi.2.1, hmi.2.2.1, by rw [hwritten]; exact hmi.2.2.2⟩
  | finish st r out₁ =>
    rw [hm] at ho
    obtain rfl := Option.some.inj ho
    have hmi := hframe _ hm (by simp)
    refine ⟨⟨hid.trans hmi.1.1, by rw [hid]; exact hmi.1.2.1, by rw [hid, hhint]; exact hmi.1.2.2⟩,
      by rw [hid, hdata]; exact hmi.2.1, by rw [hwritten]; exact hmi.2.2.1,
      by rw [hwritten]; exact hmi.2.2.2⟩
  | _ => rw [hm] at ho; cases ho

/-- Every step of a running store keeps the invariant, whether its calls succeed or fail. -/
theorem ids_step (h : Ids cfg tr s) (hs : Step crc cfg s a s') : Ids cfg (tr.step s a s') s' := by
  have hnot : ∀ {b : Act}, b ≠ .start → tr.step s b s' = { tr with ever := tr.ever ∪ dataIds s'.fs } := by
    intro b hb
    rw [Trace.step, if_neg hb, if_neg hb]
  have hbytes : ∀ r, s.merge.run = some r → ∀ f ∈ r.todo, s'.fs.bytes f.2 = s.fs.bytes f.2 :=
    fun r hr => h.todo_bytes hs hr
  cases hs with
  | @writer a _ hw =>
    have ha : a ≠ .start := by cases hw <;> simp
    rw [hnot ha]
    refine ⟨h.threshold_pos, h.named.writerStep h.lock hw, h.lock.writerStep hw, ?_⟩
    by_cases hrot : ∃ r, s.merge = .rotating r
    · obtain ⟨r, hm⟩ := hrot
      exact h.merge_rotating hw hm
    · exact h.merge_writer hw fun r hm => hrot ⟨r, hm⟩
  | merge hm =>
    rw [hnot (by simp)]
    exact ⟨h.threshold_pos, h.named_merge hm, h.lock_merge hm, h.merge_step hm⟩
  | startNot last res hm hl hres hn => exact ⟨h.threshold_pos, h.named.remember, h.lock, trivial⟩
  | startPanic last hm hl hs hn hz => exact absurd hz h.threshold_pos.ne'
  | start last hm hl hs hn hz =>
    refine ⟨h.threshold_pos, h.named.remember, ?_, h.start⟩
    show s.writer.currentFileId < s.writer.currentFileId + _ + 1
    exact Nat.lt_succ_of_le (Nat.le_add_right _ _)
  | spill out n m ho =>
    rw [hnot (by simp)]
    refine ⟨h.threshold_pos, Named.remember (h.named.same (fun _ => rfl) rfl), h.lock, ?_⟩
    exact h.spill ho { out with dataBuf := out.dataBuf.drop n, hintBuf := out.hintBuf.drop m }
      rfl rfl rfl rfl (s.writeOutput out _ _).fs rfl rfl hbytes
  | mergeErr e data hint hc ho =>
    rw [hnot (by simp)]
    exact ⟨h.threshold_pos, h.named.remember, h.lock, trivial⟩
  | outputErr out e data hint hc ho =>
    rw [hnot (by simp)]
    exact ⟨h.threshold_pos, Named.remember (h.named.same (fun _ => rfl) rfl), h.lock, trivial⟩

end Step

end Bitcask
