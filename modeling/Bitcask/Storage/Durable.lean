import Bitcask.Storage.World

/-!
# What is synced

Appends are synced by the durability policy, or when their file is full. `Durable` says which bytes
of a running store a power loss cannot take: all files that `open` will read are synced to their
end, but for the active one, of which the first `n` records are (`durable_step`).

1. A file of records that is cut somewhere is a file of fewer records with at most a torn tail
   (`take_encodeAll`).
2. `Synced`, `Kept`: the files that matter, and which of them are synced.
3. `Durable` and what each step does to it.
-/

namespace Bitcask

open LittleEndian FileSystem SegmentedLog

/-! ## Files that are cut -/

section Cut

variable {crc : Bytes → UInt32} {cs : List Command} {t : Bytes} {m n : ℕ}

/-- What is left of a torn tail is empty or torn. -/
theorem torn_take (ht : t = [] ∨ Torn t) (m : ℕ) : t.take m = [] ∨ Torn (t.take m) := by
  rcases frame_cases (t.take m) with h | h | ⟨f, rest, heq, hf⟩
  · exact Or.inl h
  · exact Or.inr h
  · have ht' : t = f ++ (rest ++ t.drop m) := by
      rw [← List.append_assoc, ← heq, List.take_append_drop]
    rw [ht'] at ht
    exact absurd ht (hf.not_torn _)

/-- A file that is cut has the records before the cut. -/
theorem take_encodeAll (crc : Bytes → UInt32) (hfits : ∀ c ∈ cs, c.Fits) (ht : t = [] ∨ Torn t) (m : ℕ) :
    ∃ n t', (encodeAll crc cs ++ t).take m = encodeAll crc (cs.take n) ++ t' ∧
      (t' = [] ∨ Torn t') ∧ n ≤ cs.length ∧
      ∀ j ≤ cs.length, (encodeAll crc (cs.take j)).length ≤ m → j ≤ n := by
  induction cs generalizing m with
  | nil => exact ⟨0, t.take m, by simp, torn_take ht m, le_rfl, fun j hj _ => hj⟩
  | cons c cs ih =>
    rcases Nat.lt_or_ge m (c.serialize crc).length with hlt | hge
    · -- the cut is in the first record
      refine ⟨0, (c.serialize crc).take m, ?_, ?_, Nat.zero_le _, fun j hj hle => ?_⟩
      · rw [encodeAll_cons, List.append_assoc, List.take_append_of_le_length hlt.le]
        rfl
      · rcases Nat.eq_zero_or_pos m with rfl | hpos
        · exact Or.inl rfl
        · exact Or.inr ((IsFrame.serialize crc (hfits c List.mem_cons_self)).take_torn hpos hlt)
      · cases j with
        | zero => exact le_rfl
        | succ j =>
          rw [List.take_succ_cons, encodeAll_cons, List.length_append] at hle
          omega
    · obtain ⟨n, t', heq, ht', hn, hmax⟩ :=
        ih (fun d hd => hfits d (List.mem_cons_of_mem _ hd)) (m - (c.serialize crc).length)
      refine ⟨n + 1, t', ?_, ht', Nat.succ_le_succ hn, fun j hj hle => ?_⟩
      · rw [encodeAll_cons, List.append_assoc, List.take_append, List.take_of_length_le hge, heq,
          List.take_succ_cons, encodeAll_cons, List.append_assoc]
      · cases j with
        | zero => exact Nat.zero_le _
        | succ j =>
          rw [List.take_succ_cons, encodeAll_cons, List.length_append] at hle
          exact Nat.succ_le_succ (hmax j (Nat.le_of_succ_le_succ hj) (by omega))

theorem encodeAll_take_le (crc : Bytes → UInt32) (cs : List Command) (n : ℕ) :
    (encodeAll crc (cs.take n)).length ≤ (encodeAll crc cs).length := by
  conv_rhs => rw [← List.take_append_drop n cs, encodeAll_append, List.length_append]
  exact Nat.le_add_right ..

/-- Every record has bytes. -/
theorem encodeAll_take_lt (hn : n < cs.length) :
    (encodeAll crc (cs.take n)).length < (encodeAll crc cs).length := by
  have hsplit : cs = cs.take n ++ cs[n] :: cs.drop (n + 1) := by
    rw [List.getElem_cons_drop, List.take_append_drop]
  have hpos := Command.serialize_pos crc cs[n]
  conv_rhs => rw [hsplit, encodeAll_append, encodeAll_cons, List.length_append, List.length_append]
  omega

end Cut

/-! ## Synced files -/

/-- The whole file is synced. -/
def Synced (fs : Fs FileName) (i : Inode) : Prop := (fs.bytes i).length ≤ fs.synced i

/-- The names of a directory that `open` does not remove. -/
def Kept (fs : Fs FileName) : FileName → Prop
  | .data _ | .lock => True
  | .hint id => fs.lookup (.data id) ≠ none
  | .compact _ => False

section Synced

variable {fs : Fs FileName} {i j : Inode}

theorem kept_data (fs : Fs FileName) (id : ℕ) : Kept fs (.data id) := trivial

theorem kept_lock (fs : Fs FileName) : Kept fs .lock := trivial

theorem kept_hint {id : ℕ} (h : fs.lookup (.data id) = some i) : Kept fs (.hint id) := by
  show fs.lookup (.data id) ≠ none
  rw [h]
  simp

theorem Synced.append (h : Synced fs i) (hne : i ≠ j) (b : Bytes) : Synced (fs.append j b) i := by
  unfold Synced
  rw [Fs.bytes_append_ne hne]
  exact h

theorem Synced.sync_self (fs : Fs FileName) (i : Inode) : Synced (fs.sync i) i := by
  unfold Synced
  rw [Fs.synced_sync_self]
  exact le_rfl

theorem Synced.sync (h : Synced fs i) (j : Inode) : Synced (fs.sync j) i := by
  by_cases hij : i = j
  · rw [hij]
    exact Synced.sync_self fs j
  · unfold Synced
    rw [Fs.synced_sync_ne hij]
    exact h

theorem Synced.create (h : Synced fs i) (n : FileName) : Synced (fs.create n) i := by
  unfold Fs.create Synced
  split
  · exact h
  · show (Function.update fs.bytes fs.next [] i).length ≤ Function.update fs.synced fs.next 0 i
    by_cases hi : i = fs.next
    · rw [hi, Function.update_self]
      exact Nat.zero_le _
    · rw [Function.update_of_ne hi, Function.update_of_ne hi]
      exact h

theorem Synced.rename (h : Synced fs i) (old new : FileName) : Synced (fs.rename old new) i := by
  unfold Synced
  rw [Fs.bytes_rename, Fs.synced_rename]
  exact h

end Synced

/-- An output is synced before it gets its name. -/
def OutputSynced (fs : Fs FileName) : Merge → Prop
  | .finish .syncHint _ out => Synced fs out.data
  | .finish .rename _ out => Synced fs out.data ∧ Synced fs out.hint
  | _ => True

/-- The first `n` records of the active file are synced, and the other files that matter. -/
structure Durable (crc : Bytes → UInt32) (recs : Inode → List Command) (s : Sys) (n : ℕ) : Prop where
  le : n ≤ (recs s.writer.file).length
  active : s.fs.synced s.writer.file = (encodeAll crc ((recs s.writer.file).take n)).length
  others : ∀ {m i}, Kept s.fs m → s.fs.lookup m = some i → i ≠ s.writer.file → Synced s.fs i
  /-- A file is synced before the next one is created. -/
  rotating : ∀ next caller, s.lock = .rotateTo .create next caller → Synced s.fs s.writer.file
  output : OutputSynced s.fs s.merge

section Steps

variable {crc : Bytes → UInt32} {cfg : Config} {recs recs' : Inode → List Command} {s s' : Sys}
  {a : Act} {n : ℕ}

/-- A step that keeps the active file. -/
theorem Durable.move (h : Durable crc recs s n) (hfile : s'.writer.file = s.writer.file)
    (hrecs : recs s.writer.file <+: recs' s.writer.file)
    (hsync : s'.fs.synced s.writer.file = s.fs.synced s.writer.file)
    (hothers : ∀ {m i}, Kept s'.fs m → s'.fs.lookup m = some i → i ≠ s.writer.file → Synced s'.fs i)
    (hrot : ∀ next caller, s'.lock = .rotateTo .create next caller → Synced s'.fs s.writer.file)
    (hout : OutputSynced s'.fs s'.merge) : Durable crc recs' s' n where
  le := by
    rw [hfile]
    exact h.le.trans hrecs.length_le
  active := by
    obtain ⟨rest, hrest⟩ := hrecs
    rw [hfile, hsync, ← hrest, List.take_append_of_le_length h.le]
    exact h.active
  others hk hi hne := hothers hk hi (by rwa [hfile] at hne)
  rotating next caller hl := by
    rw [hfile]
    exact hrot next caller hl
  output := hout

/-- A step that leaves the directory and the active file alone. -/
theorem Durable.same (h : Durable crc recs s n) (hfs : s'.fs = s.fs)
    (hfile : s'.writer.file = s.writer.file) (hrecs : recs s.writer.file <+: recs' s.writer.file)
    (hlock : ∀ next caller, s'.lock = .rotateTo .create next caller →
      s.lock = .rotateTo .create next caller)
    (hout : OutputSynced s.fs s'.merge) : Durable crc recs' s' n := by
  apply h.move hfile hrecs
  · rw [hfs]
  · intro m i hk hi hne
    rw [hfs] at hk hi ⊢
    exact h.others hk hi hne
  · intro next caller hl
    rw [hfs]
    exact h.rotating next caller (hlock next caller hl)
  · rw [hfs]
    exact hout

/-- A store whose active file is synced to its end. -/
theorem Durable.full (h : Durable crc recs s n) (hrep : Rep crc cfg recs s)
    (hs : Synced s.fs s.writer.file) : n = (recs s.writer.file).length := by
  by_contra hne
  have hlt : n < (recs s.writer.file).length := lt_of_le_of_ne h.le hne
  obtain ⟨t, hb, -⟩ := hrep.active_bytes
  have hlen : (encodeAll crc ((recs s.writer.file).take n)).length <
      (encodeAll crc (recs s.writer.file)).length := encodeAll_take_lt hlt
  unfold Synced at hs
  rw [h.active, hb, List.length_append] at hs
  omega

/-- An output that the compaction thread holds has no data name yet, or it is flushed. -/
theorem Rep.held_unnamed (h : Rep crc cfg recs s) {out : MergeOutput}
    (ho : Sys.heldOutput s.merge = some out) :
    (s.fs.lookup (.compact out.id) = some out.data ∧ s.fs.lookup (.hint out.id) = some out.hint ∧
      s.fs.lookup (.data out.id) = none) ∨ (out.dataBuf = [] ∧ out.hintBuf = []) := by
  have hmr := h.merge
  cases hm : s.merge with
  | idle | rotating | openHint | removeData | removeHint | subtract | dead => rw [hm] at ho; cases ho
  | nextFile r output =>
    rw [hm] at ho hmr
    obtain rfl : output = some out := ho
    obtain ⟨hout, hn, bar, hrun⟩ := hmr
    exact Or.inl ⟨hn, hout.hint_name, h.output_no_data hrun hout.id_eq⟩
  | records r o fileId rd =>
    rw [hm] at ho hmr
    obtain rfl := Option.some.inj ho
    obtain ⟨hout, hn, i, done, rest, -, -, -, -, bar, hrun⟩ := hmr
    exact Or.inl ⟨hn, hout.hint_name, h.output_no_data hrun hout.id_eq⟩
  | finish st r o =>
    rw [hm] at ho hmr
    obtain rfl := Option.some.inj ho
    obtain ⟨hout, hfin, -, bar, hrun⟩ := hmr
    cases st with
    | syncData => exact Or.inl ⟨hfin, hout.hint_name, h.output_no_data hrun hout.id_eq⟩
    | syncHint | rename => exact Or.inl ⟨hfin.1, hout.hint_name, h.output_no_data hrun hout.id_eq⟩
    | reader | updates => exact Or.inr hfin.2.1

/-- The files of an output that has no data name are none that matter. -/
theorem Kept.apart {fs : Fs FileName} {out : MergeOutput} {m : FileName} {i : Inode} (hk : Kept fs m)
    (hi : fs.lookup m = some i) (hdata : fs.lookup (.compact out.id) = some out.data)
    (hhint : fs.lookup (.hint out.id) = some out.hint) (hfree : fs.lookup (.data out.id) = none) :
    i ≠ out.data ∧ i ≠ out.hint := by
  constructor
  · rintro rfl
    obtain rfl := fs.dir_inj _ _ _ hi hdata
    exact hk
  · rintro rfl
    obtain rfl := fs.dir_inj _ _ _ hi hhint
    exact hk hfree

/-- The files of an output are not the active file. -/
theorem Durable.output_kept (h : Durable crc recs s n) (hrep : Rep crc cfg recs s)
    {fs : Fs FileName} (hk : ∀ i, i ≠ s.writer.file → Synced s.fs i → Synced fs i) :
    OutputSynced fs s.merge := by
  have ho := h.output
  cases hm : s.merge with
  | finish st r out =>
    obtain ⟨hd, hh⟩ := hrep.file_not_held (show Sys.heldOutput s.merge = some out by rw [hm]; rfl)
    rw [hm] at ho
    cases st with
    | syncHint => exact hk _ hd.symm ho
    | rename => exact ⟨hk _ hd.symm ho.1, hk _ hh.symm ho.2⟩
    | _ => trivial
  | _ => trivial

/-- After a sync of the active file, all of its records are on disk. -/
theorem Durable.sync (h : Durable crc recs s n) (hrep : Rep crc cfg recs s)
    (hfs : s'.fs = s.fs.sync s.writer.file) (hfile : s'.writer.file = s.writer.file)
    (hm : s'.merge = s.merge) (hw : Whole crc recs' s'.fs s'.writer) :
    Durable crc recs' s' (recs' s'.writer.file).length where
  le := le_rfl
  active := by
    have hbytes : s'.fs.bytes s'.writer.file = encodeAll crc (recs' s'.writer.file) := hw.1
    rw [List.take_length, ← hbytes, hfs, hfile]
    exact Fs.synced_sync_self ..
  others {m i} hk hi hne := by
    rw [hfs] at hk hi ⊢
    rw [hfile] at hne
    exact (h.others hk hi hne).sync _
  rotating _ _ _ := by
    rw [hfs, hfile]
    exact Synced.sync_self ..
  output := by
    rw [hfs, hm]
    exact h.output_kept hrep fun i _ hi => hi.sync _

theorem Rep.next_unnamed (h : Rep crc cfg recs s) {next : ℕ} {caller : Caller}
    (hl : s.lock = .rotateTo .create next caller) : s.fs.lookup (.data next) = none := by
  have hlr := h.lock
  rw [hl] at hlr
  by_contra hne
  obtain ⟨i, hi⟩ := Option.ne_none_iff_exists'.mp hne
  exact absurd (h.core.rd_le (h.core.dir_rd hi)) (Nat.not_le_of_lt hlr.2)

/-- A name that is kept beside the next data file was kept before it. -/
theorem Kept.of_rotateCreate (hrep : Rep crc cfg recs s) {next : ℕ} {caller : Caller}
    (hl : s.lock = .rotateTo .create next caller) {m : FileName} {i : Inode}
    (hi : s.fs.lookup m = some i) (hk : Kept (s.fs.create (.data next)) m) : Kept s.fs m := by
  have hlr := hrep.lock
  rw [hl] at hlr
  cases m with
  | hint id =>
    have hid : id ≠ next := by
      rintro rfl
      exact absurd (hrep.names id (Or.inr (by rw [hi]; simp))) (Nat.not_le_of_lt hlr.2)
    have hd : (s.fs.create (.data next)).lookup (.data id) ≠ none := hk
    rwa [Fs.lookup_create_ne (by simpa using hid)] at hd
  | _ => exact hk

/-- The next file starts empty, and the file that is left has been synced. -/
theorem Durable.rotateCreate (h : Durable crc recs s n) (hrep : Rep crc cfg recs s) {next now : ℕ}
    {caller : Caller} (hl : s.lock = .rotateTo .create next caller) :
    Durable crc recs' (s.rotateTo now .create next caller) 0 where
  le := Nat.zero_le _
  active := by
    have hnone := hrep.next_unnamed hl
    show (s.fs.create (.data next)).synced (s.fs.handle (.data next)) = 0
    rw [Fs.handle_of_none hnone, Fs.synced_create_next hnone]
  others {m i} hk hi hne := by
    have hm : m ≠ .data next := by
      rintro rfl
      exact hne (Option.some.inj (hi.symm.trans Fs.lookup_create_self))
    have hi₀ : s.fs.lookup m = some i := (Fs.lookup_create_ne hm).symm.trans hi
    refine Synced.create ?_ _
    by_cases hif : i = s.writer.file
    · rw [hif]
      exact h.rotating next caller hl
    · exact h.others (Kept.of_rotateCreate hrep hl hi₀ hk) hi₀ hif
  rotating := by simp [Sys.rotateTo]
  output := h.output_kept hrep fun i _ hi => hi.create _

theorem durable_writerStep (h : Durable crc recs s n) (hrep : Rep crc cfg recs s)
    (hrep' : Rep crc cfg recs' s')
    (hrecs : recs s.writer.file <+: recs' s.writer.file) (hs : WriterStep crc cfg s a s') :
    ∃ n', Durable crc recs' s' n' ∧ (Synced s'.fs s'.writer.file ∨
      (s'.writer.currentFileId = s.writer.currentFileId ∧ n' = n)) := by
  cases hs with
  | begin | policySkip | policyPanic | notFull | full | rotateClock | failWrite | failPolicy =>
    exact ⟨n, h.same rfl rfl hrecs (by simp) h.output, Or.inr ⟨rfl, rfl⟩⟩
  | write c done m hl hn hm =>
    refine ⟨n, h.move rfl hrecs rfl (fun {m i} hk hi hne => ?_) (by simp) ?_, Or.inr ⟨rfl, rfl⟩⟩
    · exact (h.others hk hi hne).append hne _
    · exact h.output_kept hrep fun i hne hi => hi.append hne _
  | publish c now hl => exact ⟨n, h.same rfl rfl hrecs (by simp [Sys.publish]) h.output, Or.inr ⟨rfl, rfl⟩⟩
  | policySync c now last hl hp =>
    exact ⟨_, h.sync hrep rfl rfl rfl hrep'.lock, Or.inl (Synced.sync_self ..)⟩
  | rotateSync next now caller hl =>
    exact ⟨_, h.sync hrep rfl rfl rfl hrep'.lock.1, Or.inl (Synced.sync_self ..)⟩
  | rotateCreate next now caller hl =>
    have hnone := hrep.next_unnamed hl
    refine ⟨0, h.rotateCreate hrep hl, Or.inl ?_⟩
    show ((s.fs.create (.data next)).bytes (s.fs.handle (.data next))).length ≤ _
    rw [Fs.handle_of_none hnone, Fs.bytes_create_next hnone]
    exact Nat.zero_le _
  | rotateReader next now caller i hl hi =>
    cases caller with
    | append c => exact ⟨n, h.same rfl rfl hrecs (by simp [Sys.endRotate]) h.output, Or.inr ⟨rfl, rfl⟩⟩
    | compaction =>
      unfold Sys.endRotate at hrep' ⊢
      split
      · exact ⟨n, h.same rfl rfl hrecs (by simp) trivial, Or.inr ⟨rfl, rfl⟩⟩
      · exact ⟨n, h.same rfl rfl hrecs (by simp) h.output, Or.inr ⟨rfl, rfl⟩⟩
  | rotateMissing next now caller hl hi | failRotate st next caller e hl =>
    cases caller with
    | append c => exact ⟨n, h.same rfl rfl hrecs (by simp [Sys.failRotate]) h.output, Or.inr ⟨rfl, rfl⟩⟩
    | compaction => exact ⟨n, h.same rfl rfl hrecs (by simp [Sys.failRotate]) trivial, Or.inr ⟨rfl, rfl⟩⟩

/-- A step of the compaction thread that does not write to the active file. -/
theorem Durable.merged (h : Durable crc recs s n)
    (hrecs : recs s.writer.file <+: recs' s.writer.file) {fs : Fs FileName} {merge : Merge}
    (hbytes : fs.bytes s.writer.file = s.fs.bytes s.writer.file)
    (hsync : fs.synced s.writer.file = s.fs.synced s.writer.file)
    (hothers : ∀ {m i}, Kept fs m → fs.lookup m = some i → i ≠ s.writer.file → Synced fs i)
    (hout : OutputSynced fs merge) : Durable crc recs' { s with fs := fs, merge := merge } n := by
  refine h.move rfl hrecs hsync hothers (fun next caller hl => ?_) hout
  have hold : Synced s.fs s.writer.file := h.rotating next caller hl
  unfold Synced at hold ⊢
  show (fs.bytes s.writer.file).length ≤ fs.synced s.writer.file
  rw [hbytes, hsync]
  exact hold

/-- A file that does not matter is created. -/
theorem Durable.create (h : Durable crc recs s n) (hrep : Rep crc cfg recs s)
    (hrecs : recs s.writer.file <+: recs' s.writer.file) {name : FileName} {merge : Merge}
    (hname : ¬ Kept s.fs name) (hout : OutputSynced (s.fs.create name) merge) :
    Durable crc recs' { s with fs := s.fs.create name, merge := merge } n := by
  have hlt := s.fs.dir_lt _ _ hrep.core.cur_dir
  have hdata : ∀ id, FileName.data id ≠ name := by
    rintro id rfl
    exact hname trivial
  have hkept : ∀ {m}, Kept (s.fs.create name) m → Kept s.fs m := by
    intro m hk
    cases m with
    | hint id =>
      have hd : (s.fs.create name).lookup (.data id) ≠ none := hk
      rwa [Fs.lookup_create_ne (hdata id)] at hd
    | _ => exact hk
  refine h.merged hrecs (Fs.bytes_create_of_lt hlt) (Fs.synced_create_of_lt hlt)
    (fun {m i} hk hi hne => ?_) hout
  have hm : m ≠ name := by
    rintro rfl
    exact hname (hkept hk)
  rw [Fs.lookup_create_ne hm] at hi
  exact (h.others (hkept hk) hi hne).create _

/-- A file loses its name. -/
theorem Durable.unlink (h : Durable crc recs s n)
    (hrecs : recs s.writer.file <+: recs' s.writer.file) {name : FileName} {merge : Merge}
    (hout : OutputSynced s.fs merge) :
    Durable crc recs' { s with fs := s.fs.unlink name, merge := merge } n := by
  have hlook : ∀ {m i}, (s.fs.unlink name).lookup m = some i → s.fs.lookup m = some i := by
    intro m i hi
    by_cases hm : m = name
    · rw [hm, Fs.lookup_unlink_self] at hi; cases hi
    · rwa [Fs.lookup_unlink_ne _ hm] at hi
  refine h.merged hrecs rfl rfl (fun {m i} hk hi hne => h.others ?_ (hlook hi) hne) hout
  cases m with
  | hint id =>
    obtain ⟨j, hj⟩ := Option.ne_none_iff_exists'.mp hk
    show s.fs.lookup (.data id) ≠ none
    rw [hlook hj]
    simp
  | _ => exact hk

/-- Both files of an output are synced when it gets its name. -/
theorem Durable.rename (h : Durable crc recs s n) (hrep : Rep crc cfg recs s)
    (hrecs : recs s.writer.file <+: recs' s.writer.file) {r : MergeRun} {out : MergeOutput}
    (hm : s.merge = .finish .rename r out) :
    Durable crc recs' { s with
      fs := s.fs.rename (.compact out.id) (.data out.id)
      merge := .finish .reader r out } n := by
  have hmr := hrep.merge
  have hsynced := h.output
  rw [hm] at hmr hsynced
  obtain ⟨hout, hfin, -, bar, hrun⟩ := hmr
  have hdata : (s.fs.rename (.compact out.id) (.data out.id)).lookup (.data out.id) = some out.data :=
    Fs.lookup_rename_new hfin.1
  have hother : ∀ {m}, m ≠ .compact out.id → m ≠ .data out.id →
      (s.fs.rename (.compact out.id) (.data out.id)).lookup m = s.fs.lookup m :=
    fun hc hd => Fs.lookup_rename_ne hc hd
  refine h.merged hrecs (by rw [Fs.bytes_rename]) (by rw [Fs.synced_rename])
    (fun {m j} hk hj hne => Synced.rename ?_ _ _) trivial
  by_cases hmd : m = .data out.id
  · rw [hmd, hdata, Option.some.injEq] at hj
    rw [← hj]
    exact hsynced.1
  have hmc : m ≠ .compact out.id := by
    rintro rfl
    exact hk
  rw [hother hmc hmd] at hj
  by_cases hmh : m = .hint out.id
  · rw [hmh, hout.hint_name, Option.some.injEq] at hj
    rw [← hj]
    exact hsynced.2
  · refine h.others ?_ hj hne
    cases m with
    | hint id =>
      have hd : (s.fs.rename (.compact out.id) (.data out.id)).lookup (.data id) ≠ none := hk
      rwa [hother (by simp) fun he => hmh (by rw [FileName.data.inj he])] at hd
    | _ => exact hk

theorem durable_mergeStep (h : Durable crc recs s n) (hrep : Rep crc cfg recs s)
    (hrecs : recs s.writer.file <+: recs' s.writer.file) (hs : MergeStep crc cfg s s') :
    Durable crc recs' s' n := by
  have hmr := hrep.merge
  cases hs with
  | lastOutput | scanned | source | eof | eofFull | skip | copy | reader | update | updated
  | removeMissing | removed | subtract | subtractPoisoned =>
    exact h.same rfl rfl hrecs (fun _ _ hl => hl) trivial
  | openData r f rest hm ht => exact h.create hrep hrecs (fun hk => hk) trivial
  | openHint r id data hm =>
    rw [hm] at hmr
    obtain ⟨-, hid, -, -, -, -, bar, hrun⟩ := hmr
    exact h.create hrep hrecs (fun hk => hk (hrep.output_no_data hrun hid)) trivial
  | framePanic r out fileId rd hm hr => exact absurd hr (hrep.record_ok hm).1
  | torn r out fileId p rd rd' hm hr => exact absurd hr ((hrep.record_ok hm).2.1 p rd')
  | undecodable r out fileId p b rd rd' e hm hr hd => exact absurd hd (hrep.record_decodes hm hr e)
  | syncData r out hm hn =>
    rw [hm] at hmr
    obtain ⟨hout, hfin, -, bar, hrun⟩ := hmr
    have hfree := hrep.output_no_data hrun hout.id_eq
    obtain ⟨hd, -⟩ := hrep.file_not_held (show Sys.heldOutput s.merge = some out by rw [hm]; rfl)
    refine h.merged hrecs (Fs.bytes_append_ne hd _) (Fs.synced_sync_ne hd) (fun {m i} hk hi hne => ?_)
      (Synced.sync_self ..)
    obtain ⟨hid, -⟩ := Kept.apart hk hi hfin hout.hint_name hfree
    exact ((h.others hk hi hne).append hid _).sync _
  | syncHint r out hm =>
    have hsynced := h.output
    rw [hm] at hmr hsynced
    obtain ⟨hout, hfin, -, bar, hrun⟩ := hmr
    have hfree := hrep.output_no_data hrun hout.id_eq
    obtain ⟨-, hh⟩ := hrep.file_not_held (show Sys.heldOutput s.merge = some out by rw [hm]; rfl)
    have hne : out.data ≠ out.hint := fun he => by
      have hn := hfin.1
      rw [he] at hn
      cases s.fs.dir_inj _ _ _ hout.hint_name hn
    refine h.merged hrecs (Fs.bytes_append_ne hh _) (Fs.synced_sync_ne hh) (fun {m i} hk hi hne => ?_)
      ⟨(Synced.append hsynced hne _).sync _, Synced.sync_self ..⟩
    obtain ⟨-, hih⟩ := Kept.apart hk hi hfin.1 hout.hint_name hfree
    exact ((h.others hk hi hne).append hih _).sync _
  | rename r out i hm hi => exact h.rename hrep hrecs hm
  | renameMissing r out hm hi => exact absurd hi (hrep.rename_found hm)
  | readerMissing r out hm hi => exact absurd hi (hrep.reader_found hm)
  | remove | removeHint => exact h.unlink hrecs trivial
  | subtractPanic stale hm hl hs => exact h.same rfl rfl hrecs (by simp) trivial

/-- The buffers of an output are written to its files. -/
theorem Durable.spill (h : Durable crc recs s n) (hrep : Rep crc cfg recs s)
    (hrecs : recs s.writer.file <+: recs' s.writer.file) {out : MergeOutput}
    (ho : Sys.heldOutput s.merge = some out) (k m : ℕ) : Durable crc recs'
      { s.writeOutput out (out.dataBuf.take k) (out.hintBuf.take m) with
        merge := Sys.withOutput
          { out with dataBuf := out.dataBuf.drop k, hintBuf := out.hintBuf.drop m } s.merge } n := by
  obtain ⟨hd, hh⟩ := hrep.file_not_held ho
  have hbytes : ((s.fs.append out.data (out.dataBuf.take k)).append out.hint
      (out.hintBuf.take m)).bytes s.writer.file = s.fs.bytes s.writer.file := by
    rw [Fs.bytes_append_ne hh, Fs.bytes_append_ne hd]
  apply h.merged hrecs hbytes rfl
  · intro name i hk hi hne
    have hold : Synced s.fs i := h.others hk hi hne
    rcases hrep.held_unnamed ho with ⟨hdata, hhint, hfree⟩ | ⟨hbuf, hbuf'⟩
    · obtain ⟨hid, hih⟩ := Kept.apart hk hi hdata hhint hfree
      exact (hold.append hid _).append hih _
    · rw [hbuf, hbuf', List.take_nil, List.take_nil, Fs.append_nil, Fs.append_nil]
      exact hold
  · -- what is synced has no more bytes in its buffer
    have hsynced := h.output
    have hmr := hrep.merge
    cases hm : s.merge with
    | finish st r o =>
      rw [hm] at ho hsynced hmr
      obtain rfl := Option.some.inj ho
      obtain ⟨hout, hfin, -⟩ := hmr
      cases st with
      | syncHint =>
        have hne : o.data ≠ o.hint := fun he => by
          have hn := hfin.1
          rw [he] at hn
          cases s.fs.dir_inj _ _ _ hout.hint_name hn
        show Synced ((s.fs.append o.data (o.dataBuf.take k)).append o.hint (o.hintBuf.take m)) o.data
        rw [hfin.2.1, List.take_nil, Fs.append_nil]
        exact Synced.append hsynced hne _
      | rename =>
        show Synced ((s.fs.append o.data (o.dataBuf.take k)).append o.hint (o.hintBuf.take m)) o.data ∧
          Synced ((s.fs.append o.data (o.dataBuf.take k)).append o.hint (o.hintBuf.take m)) o.hint
        rw [hfin.2.1.1, hfin.2.1.2, List.take_nil, List.take_nil, Fs.append_nil, Fs.append_nil]
        exact hsynced
      | _ => trivial
    | nextFile r output => cases output <;> trivial
    | _ => trivial

/-- What a step in which no filesystem call fails makes of the synced records of the active file: it
keeps them, or all of the active file is synced. -/
theorem durable_step (h : Durable crc recs s n) (hrep : Rep crc cfg recs s)
    (hrep' : Rep crc cfg recs' s') (hrecs : recs s.writer.file <+: recs' s.writer.file)
    (hn : a.Nominal) (hs : Step crc cfg s a s') :
    ∃ n', Durable crc recs' s' n' ∧ (Synced s'.fs s'.writer.file ∨
      (s'.writer.currentFileId = s.writer.currentFileId ∧ n' = n)) := by
  cases hs with
  | writer hw => exact durable_writerStep h hrep hrep' hrecs hw
  | merge hm =>
    exact ⟨n, durable_mergeStep h hrep hrecs hm, Or.inr ⟨by cases hm <;> rfl, rfl⟩⟩
  | startNot last res hm hl hres hn =>
    exact ⟨n, h.same rfl rfl hrecs (fun _ _ hl => hl) trivial, Or.inr ⟨rfl, rfl⟩⟩
  | startPanic last hm hl hs hn hz =>
    exact ⟨n, h.same rfl rfl hrecs (by simp) trivial, Or.inr ⟨rfl, rfl⟩⟩
  | start last hm hl hs hn hz =>
    exact ⟨n, h.same rfl rfl hrecs (by simp) trivial, Or.inr ⟨rfl, rfl⟩⟩
  | spill out k m ho => exact ⟨n, h.spill hrep hrecs ho k m, Or.inr ⟨rfl, rfl⟩⟩
  | mergeErr | outputErr => exact hn.elim

end Steps

end Bitcask
