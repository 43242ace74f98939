import Bitcask.Storage.Represent

/-!
# The lock holder keeps the representation invariant

One lemma for each group of transitions of the lock holder, and `rep_writerStep` for all of them.
A call may only begin when the active file ends at the writer's offset; after a failed write that
left bytes behind it does not. A failure of `rotate_to` after it has created the next file is left
out: the store would go on without a read handle for its active file.
-/

namespace Bitcask

open LittleEndian FileSystem

variable {crc : Bytes → UInt32} {cfg : Config} {recs : Inode → List Command} {s s' : Sys}

theorem handles_congr (hrd : s'.readers = s.readers)
    (hcur : s'.writer.currentFileId = s.writer.currentFileId)
    (hfile : s'.writer.file = s.writer.file) (hop : s'.lock.opening = s.lock.opening)
    (hm : s'.merge.renamed = s.merge.renamed) (id : ℕ) : s'.handles id = s.handles id := by
  unfold Sys.handles
  rw [hrd, hcur, hfile, hop, hm]

/-- With no handle missing, the handles are the readers map. -/
theorem handles_eq (hop : s.lock.opening = false) (hm : s.merge.renamed = none) (id : ℕ) :
    s.handles id = s.readers[id]? := by
  unfold Sys.handles
  rw [hop, hm]
  simp

/-- A step that changes only what the lock holder knows. -/
theorem Rep.private (h : Rep crc cfg recs s) (hl : ∀ n, s'.fs.lookup n = s.fs.lookup n)
    (hb : s'.fs.bytes = s.fs.bytes) (hn : s'.fs.next = s.fs.next) (hidx : s'.index = s.index)
    (hrd : s'.readers = s.readers) (hcur : s'.writer.currentFileId = s.writer.currentFileId)
    (hfile : s'.writer.file = s.writer.file) (hm : s'.merge = s.merge)
    (hop : s'.lock.opening = s.lock.opening) (hrot : s'.lock.rotates = s.lock.rotates)
    (hlock : LockRep crc recs s'.fs s'.writer s'.lock) : Rep crc cfg recs s' := by
  have hh : s'.handles = s.handles := funext (handles_congr hrd hcur hfile hop (by rw [hm]))
  refine ⟨?_, hlock, ?_, ?_, ?_⟩
  · rw [hh, hidx, hcur, hfile]
    exact h.core.same hl hb hn
  · rw [hh, hidx, hcur, hm]
    by_cases hr : ∃ r, s.merge = .rotating r
    · obtain ⟨r, hr⟩ := hr
      have hmr := h.merge
      rw [hr] at hmr ⊢
      obtain ⟨hp, hi, hnx, bar, hlk, hc, hrun⟩ := hmr
      refine ⟨hp, hi, hnx, bar, hrot.trans hlk, by rw [hop]; exact hc, ?_⟩
      exact hrun.frame (Nat.le_refl _) (fun n _ => hl n) (fun hi => hi) (fun hi => Or.inl hi)
    · exact h.merge.frame h.core (fun r hr' => hr ⟨r, hr'⟩) (Nat.le_refl _) (fun n _ => hl n)
        (fun hi => (hl _).trans hi) (fun _ _ => ⟨by rw [hb], rfl⟩) (List.prefix_refl _) (fun hi => hi)
        (fun hi => Or.inl hi) (fun hk => Or.inl hk)
  · rw [hcur]
    exact h.names.congr fun n _ => hl n
  · rw [hrot, hm]
    exact h.rotates

/-- A merge that waits for its rotation has the lock. -/
theorem Rep.not_rotating (h : Rep crc cfg recs s) (hl : s.lock.rotates = none) (r : MergeRun) :
    s.merge ≠ .rotating r := by
  intro hm
  have hmr := h.merge
  rw [hm] at hmr
  obtain ⟨-, -, -, bar, hlk, -⟩ := hmr
  rw [hl] at hlk; cases hlk

theorem Rep.begin (h : Rep crc cfg recs s) (hl : s.lock = .free)
    (hend : (s.fs.bytes s.writer.file).length = s.writer.offset) {c : Command} (hf : c.Fits) :
    Rep crc cfg recs { s with lock := .writing c 0 } := by
  refine h.private (fun _ => rfl) rfl rfl rfl rfl rfl rfl rfl (by rw [hl]; rfl)
    (by rw [hl]; rfl) ?_
  have hlr := h.lock
  rw [hl] at hlr
  obtain ⟨t, ht, -, hoff⟩ := hlr
  have hnil : t = [] := by
    rw [ht, List.length_append, hoff] at hend
    exact List.eq_nil_of_length_eq_zero (by omega)
  have hpos := Command.serialize_pos crc c
  refine ⟨hf, Nat.zero_le _, recs s.writer.file, ?_, ?_, hoff⟩
  · rw [if_neg (by omega)]
  · rw [ht, hnil]; simp

/-- More bytes of a record; the last of them make it a record of the file. -/
theorem Rep.write (h : Rep crc cfg recs s) {c : Command} {done n : ℕ}
    (hl : s.lock = .writing c done) (hn : done + n ≤ (c.serialize crc).length)
    (hmax : (s.fs.bytes s.writer.file).length + n < maxFileLen) :
    Rep crc cfg
      (Function.update recs s.writer.file (recs s.writer.file ++
        if done < (c.serialize crc).length ∧ done + n = (c.serialize crc).length then [c] else []))
      { s with
        fs := s.fs.append s.writer.file (((c.serialize crc).drop done).take n)
        lock := .writing c (done + n) } := by
  have hlr := h.lock
  rw [hl] at hlr
  obtain ⟨hfits, hdone, old, hrecs, hbytes, hoff⟩ := hlr
  set cs : List Command :=
    if done < (c.serialize crc).length ∧ done + n = (c.serialize crc).length then [c] else []
    with hcs
  have hnew : recs s.writer.file ++ cs =
      if done + n = (c.serialize crc).length then old ++ [c] else old := by
    rw [hrecs, hcs]
    by_cases h1 : done = (c.serialize crc).length
    · rw [if_pos h1, if_neg (by omega), if_pos (by omega), List.append_nil]
    · rw [if_neg h1]
      by_cases h2 : done + n = (c.serialize crc).length
      · rw [if_pos ⟨by omega, h2⟩, if_pos h2]
      · rw [if_neg (by tauto), if_neg h2, List.append_nil]
  have hwritten : s.fs.bytes s.writer.file ++ ((c.serialize crc).drop done).take n =
      encodeAll crc old ++ (c.serialize crc).take (done + n) := by
    rw [hbytes, List.append_assoc, ← List.take_add]
  have hlen : (s.fs.bytes s.writer.file ++ ((c.serialize crc).drop done).take n).length <
      maxFileLen := by
    rw [List.length_append, List.length_take]
    omega
  have hcsfits : ∀ d ∈ cs, d.Fits := by
    intro d hd
    rw [hcs] at hd
    split at hd
    · rw [List.mem_singleton.mp hd]; exact hfits
    · cases hd
  have hcore : Core crc (Function.update recs s.writer.file (recs s.writer.file ++ cs))
      (s.fs.append s.writer.file (((c.serialize crc).drop done).take n)) s.handles s.index
      s.writer.currentFileId s.writer.file := by
    by_cases hfull : done + n = (c.serialize crc).length
    · refine h.core.write (t := []) ?_ hlen hcsfits
      rw [hwritten, hnew, if_pos hfull, hfull, List.take_length]
      simp
    · refine h.core.write (t := (c.serialize crc).take (done + n)) ?_ hlen hcsfits
      rw [hwritten, hnew, if_neg hfull]
  have hh : Sys.handles { s with
      fs := s.fs.append s.writer.file (((c.serialize crc).drop done).take n)
      lock := .writing c (done + n) } = s.handles :=
    funext (handles_congr rfl rfl rfl (by rw [hl]; rfl) rfl)
  refine ⟨by rw [hh]; exact hcore, ?_, ?_, h.names, fun hr => absurd rfl hr⟩
  · refine ⟨hfits, hn, old, ?_, ?_, hoff⟩
    · rw [Function.update_self]; exact hnew
    · exact (Fs.bytes_append_self ..).trans hwritten
  · rw [hh]
    refine h.merge.frame h.core (h.not_rotating (by rw [hl]; rfl))
      (Nat.le_refl _) (fun _ _ => rfl) (fun hi => hi) ?_ ?_ (fun hi => hi) (fun hi => Or.inl hi)
      (fun hk => Or.inl hk)
    · intro i _ hif
      exact ⟨Fs.bytes_append_ne hif _, Function.update_of_ne hif ..⟩
    · rw [Function.update_self]; exact List.prefix_append ..

/-- The index update of an append. -/
theorem Rep.publish (h : Rep crc cfg recs s) {c : Command}
    (hl : s.lock = .writing c (c.serialize crc).length) : Rep crc cfg recs (s.publish crc c) := by
  have hlr := h.lock
  rw [hl] at hlr
  obtain ⟨-, -, old, hrecs, hbytes, hoff⟩ := hlr
  rw [if_pos rfl] at hrecs
  rw [List.take_length] at hbytes
  have hh : Sys.handles (s.publish crc c) = s.handles :=
    funext (handles_congr rfl rfl rfl (by rw [hl]; rfl) rfl)
  have hat : At crc (recs s.writer.file) s.writer.offset c := by
    rw [hrecs, hoff]; exact At.last old c
  refine ⟨?_, ?_, ?_, h.names, fun hr => absurd rfl hr⟩
  · rw [hh]
    cases c with
    | set ts key v => exact h.core.insert (v := v) h.core.rd_cur hat rfl
    | rm ts key => exact h.core.remove key
  · refine ⟨?_, ?_⟩
    · show s.fs.bytes s.writer.file = _
      rw [hbytes, show (s.publish crc c).writer.file = s.writer.file from rfl, hrecs]; simp
    · show s.writer.offset + _ = _
      rw [hoff, show (s.publish crc c).writer.file = s.writer.file from rfl, hrecs]; simp
  · rw [hh]
    refine h.merge.frame h.core (h.not_rotating (by rw [hl]; rfl))
      (Nat.le_refl _) (fun _ _ => rfl) (fun hi => hi) (fun _ _ => ⟨rfl, rfl⟩) (List.prefix_refl _)
      (fun hi => hi) (fun hi => Or.inl hi) ?_
    intro k e hk
    cases c with
    | set ts key v =>
      by_cases hkk : k = key
      · subst hkk
        have hk' : (s.index.insert k _).get k = some e := hk
        rw [Index.get_insert_self, Option.some.injEq] at hk'
        exact Or.inr (by rw [← hk'])
      · have hk' : (s.index.insert key _).get k = some e := hk
        rw [Index.get_insert_ne hkk] at hk'
        exact Or.inl hk'
    | rm ts key =>
      by_cases hkk : k = key
      · subst hkk
        have hk' : (s.index.remove k).get k = some e := hk
        rw [Index.get_remove_self] at hk'; cases hk'
      · have hk' : (s.index.remove key).get k = some e := hk
        rw [Index.get_remove_ne hkk] at hk'
        exact Or.inl hk'

/-! ## Rotation -/

theorem Rep.lookup_next (h : Rep crc cfg recs s) {next : ℕ}
    (hlt : s.writer.currentFileId < next) : s.fs.lookup (.data next) = none := by
  by_contra hne
  obtain ⟨i, hi⟩ := Option.ne_none_iff_exists'.mp hne
  have := h.core.rd_le (h.core.dir_rd hi)
  omega

/-- The next file becomes the active one. -/
theorem Rep.rotateCreate (h : Rep crc cfg recs s) {next : ℕ} {caller : Caller}
    (hl : s.lock = .rotateTo .create next caller) (now : ℕ) :
    Rep crc cfg (Function.update recs s.fs.next []) (s.rotateTo now .create next caller) := by
  have hlr := h.lock
  rw [hl] at hlr
  obtain ⟨⟨hbytes, hoff⟩, hlt⟩ := hlr
  have hnew := h.lookup_next hlt
  have hhandle : s.fs.handle (.data next) = s.fs.next := by rw [Fs.handle, hnew]; rfl
  have hh : ∀ id, Sys.handles (s.rotateTo now .create next caller) id =
      Function.update s.handles next (some s.fs.next) id := by
    intro id
    unfold Sys.handles
    by_cases hid : id = next
    · subst hid
      rw [if_pos ⟨rfl, rfl⟩, Function.update_self]
      exact congrArg some hhandle
    · rw [if_neg (fun hc => hid hc.2), Function.update_of_ne hid,
        if_neg (fun hc => by rw [hl] at hc; cases hc.1)]
      rfl
  have hcore := h.core.rotate hlt hnew hbytes
  have hl' : ∀ n, (∀ id, n ≠ .data id) →
      (s.fs.create (.data next)).lookup n = s.fs.lookup n := fun n hn =>
    Fs.lookup_create_ne (hn next)
  have hrd : ∀ {id i}, s.handles id = some i →
      Function.update s.handles next (some s.fs.next) id = some i := by
    intro id i hi
    have := h.core.rd_le hi
    rw [Function.update_of_ne (by omega)]
    exact hi
  have hrecs : ∀ {i}, i < s.fs.next → Function.update recs s.fs.next [] i = recs i := fun hi =>
    Function.update_of_ne (Nat.ne_of_lt hi) ..
  refine ⟨?_, ?_, ?_, ?_, ?_⟩
  · show Core crc _ _ _ _ next (s.fs.handle (.data next))
    rw [funext hh, hhandle]
    exact hcore
  · show Whole crc _ _ _ ∧ _ ∧ _
    have hfile : (s.rotateTo now .create next caller).writer.file = s.fs.next := hhandle
    refine ⟨⟨?_, ?_⟩, ?_, rfl⟩
    · rw [hfile, Function.update_self]
      exact Fs.bytes_create_next hnew
    · rw [hfile, Function.update_self]; rfl
    · rw [hfile, Function.update_self]
  · rw [funext hh]
    show MergeRep crc cfg _ (s.fs.create (.data next)) _ s.index next _ s.merge
    by_cases hr : ∃ r, s.merge = .rotating r
    · obtain ⟨r, hr⟩ := hr
      have hmr := h.merge
      rw [hr] at hmr ⊢
      obtain ⟨hp, hi, hnx, bar, hlk, hc, hrun⟩ := hmr
      have hcaller : caller = .compaction ∧ bar = next := by
        rw [hl] at hlk
        cases caller with
        | append c => cases hlk
        | compaction => exact ⟨rfl, (Option.some.inj hlk).symm⟩
      obtain ⟨rfl, rfl⟩ := hcaller
      refine ⟨hp, hi, hnx, bar, rfl, rfl, ?_⟩
      have htodo : todoLen crc (Function.update recs s.fs.next []) r.todo = todoLen crc recs r.todo :=
        todoLen_congr fun f hf => hrecs (h.core.rd_lt (hrun.todo f hf).1)
      rw [htodo]
      refine hrun.frame (Nat.le_refl _) hl' hrd fun {id i} hi => ?_
      rcases handle_cases hi with ⟨rfl, -⟩ | ⟨-, hi⟩
      · exact Or.inr (Nat.le_refl _)
      · exact Or.inl hi
    · refine h.merge.frame h.core (fun r hr' => hr ⟨r, hr'⟩) hlt.le hl' ?_ ?_ ?_ hrd ?_
        (fun hk => Or.inl hk)
      · intro id i hi
        have := h.core.rd_le (h.core.dir_rd hi)
        rw [Fs.lookup_create_ne (by simp; omega)]
        exact hi
      · intro i hi _
        exact ⟨Fs.bytes_create_of_lt hi, hrecs hi⟩
      · rw [hrecs h.core.file_lt]
      · intro id i hi
        rcases handle_cases hi with ⟨rfl, -⟩ | ⟨-, hi⟩
        · exact Or.inr (Nat.le_refl _)
        · exact Or.inl hi
  · exact (h.names.congr hl').mono hlt.le
  · intro hr
    refine h.rotates ?_
    rw [hl]
    cases caller with
    | append c => exact absurd rfl hr
    | compaction => exact Option.some_ne_none _

/-- The output of `finish_output` has an id below the active file's. -/
theorem Rep.renamed_lt (h : Rep crc cfg recs s) {out : MergeOutput}
    (ho : s.merge.renamed = some out) : out.id < s.writer.currentFileId := by
  have hmr := h.merge
  unfold Merge.renamed at ho
  split at ho
  · rename_i r o hm
    obtain rfl := Option.some.inj ho
    rw [hm] at hmr
    obtain ⟨hout, -, -, bar, hrun⟩ := hmr
    exact hrun.output_lt hout
  · cases ho

theorem endRotate_of_not_rotating {caller : Caller} (hm : ∀ r, s.merge ≠ .rotating r) :
    s.endRotate caller = { s with lock := .free } := by
  unfold Sys.endRotate
  split
  · rename_i r hr
    exact absurd hr (hm r)
  · rfl

/-- The readers map gets the handle of the new active file. -/
theorem Rep.rotateReader (h : Rep crc cfg recs s) {next : ℕ} {caller : Caller} {i : Inode}
    (hl : s.lock = .rotateTo .reader next caller) (hi : s.fs.lookup (.data next) = some i) :
    Rep crc cfg recs ((s.readersUpdate next i).endRotate caller) := by
  have hlr := h.lock
  rw [hl] at hlr
  obtain ⟨⟨hbytes, hoff⟩, -, hcur⟩ := hlr
  subst hcur
  obtain rfl : s.writer.file = i := Option.some.inj (h.core.cur_dir.symm.trans hi)
  have hh : ∀ {s' : Sys}, s'.readers = s.readers.insert s.writer.currentFileId s.writer.file →
      s'.lock = .free → s'.merge.renamed = s.merge.renamed → s'.handles = s.handles := by
    intro s' hrd hlk hm
    funext id
    unfold Sys.handles
    rw [hrd, hlk, hm, hl, if_neg (by simp [Lock.opening])]
    by_cases hid : id = s.writer.currentFileId
    · subst hid
      rw [if_pos ⟨rfl, rfl⟩]
      cases ho : s.merge.renamed with
      | none => exact readers_insert_self
      | some out => exact (if_neg (Nat.ne_of_gt (h.renamed_lt ho))).trans readers_insert_self
    · rw [if_neg (fun hc => hid hc.2), readers_insert_ne hid]
  have hfree : LockRep crc recs s.fs s.writer .free := ⟨[], by simp [hbytes], Or.inl rfl, hoff⟩
  by_cases hr : ∃ r, s.merge = .rotating r
  · obtain ⟨r, hr⟩ := hr
    have hmr := h.merge
    rw [hr] at hmr
    obtain ⟨hp, -, -, bar, hlk, hc, hrun⟩ := hmr
    have hcaller : caller = .compaction := by
      rw [hl] at hlk
      cases caller with
      | append c => cases hlk
      | compaction => rfl
    subst hcaller
    have hend : (s.readersUpdate s.writer.currentFileId s.writer.file).endRotate .compaction =
        { s.readersUpdate s.writer.currentFileId s.writer.file with
          lock := .free, merge := .nextFile r none } := by
      simp only [Sys.endRotate, Sys.readersUpdate, hr]
    rw [hend]
    refine ⟨?_, hfree, ?_, h.names, fun hr => absurd rfl hr⟩
    · rw [hh (by rfl) (by rfl) (by rw [hr]; rfl)]
      exact h.core
    · rw [hh (by rfl) (by rfl) (by rw [hr]; rfl)]
      refine ⟨hp, bar, ?_⟩
      rw [hl] at hc
      exact hc ▸ hrun
  · have hnr : ∀ r, s.merge ≠ .rotating r := fun r hr' => hr ⟨r, hr'⟩
    rw [endRotate_of_not_rotating (s := s.readersUpdate _ _) hnr]
    refine ⟨?_, hfree, ?_, h.names, fun hr => absurd rfl hr⟩
    · rw [hh (by rfl) (by rfl) (by rfl)]
      exact h.core
    · rw [hh (by rfl) (by rfl) (by rfl)]
      exact h.merge.frame h.core hnr (Nat.le_refl _) (fun _ _ => rfl) (fun hi => hi)
        (fun _ _ => ⟨rfl, rfl⟩) (List.prefix_refl _) (fun hi => hi) (fun hi => Or.inl hi)
        (fun hk => Or.inl hk)

/-- `rotate_to` may fail before it has created the next file. -/
theorem Rep.failRotate (h : Rep crc cfg recs s) {st : RotateStep} {next : ℕ} {caller : Caller}
    (hl : s.lock = .rotateTo st next caller) (hst : st = .sync ∨ st = .create) (e : KvsError) :
    Rep crc cfg recs (s.failRotate caller e) := by
  have hfree : LockRep crc recs s.fs s.writer .free := by
    have hlr := h.lock
    rw [hl] at hlr
    rcases hst with rfl | rfl
    all_goals
      obtain ⟨⟨hbytes, hoff⟩, -⟩ := hlr
      exact ⟨[], by simp [hbytes], Or.inl rfl, hoff⟩
  have hop : s.lock.opening = false := by
    rw [hl]
    rcases hst with rfl | rfl <;> rfl
  cases caller with
  | append c =>
    exact h.private (fun _ => rfl) rfl rfl rfl rfl rfl rfl rfl hop.symm (by rw [hl]; rfl) hfree
  | compaction =>
    obtain ⟨r, hr⟩ := h.rotates (by rw [hl]; exact Option.some_ne_none _)
    have hh : Sys.handles (s.failRotate .compaction e) = s.handles :=
      funext (handles_congr rfl rfl rfl hop.symm (by rw [hr]; rfl))
    refine ⟨?_, hfree, trivial, h.names, fun hr => absurd rfl hr⟩
    rw [hh]
    exact h.core

/-- A transition of the lock holder the invariant allows: a call begins only when the active file
ends at the writer's offset and its record fits its length fields, and `rotate_to` does not fail once it has created the next file. -/
def WriterOk (s : Sys) : Act → Prop
  | .begin call ts =>
    (s.fs.bytes s.writer.file).length = s.writer.offset ∧ (call.command ts).Fits
  | .writerErr _ => s.lock.opening = false
  | _ => True

/-- What a transition of the lock holder does from a represented state: it begins a call, writes,
publishes, creates the next file, ends a rotation, or only changes what no reader sees. -/
inductive WriterMove (crc : Bytes → UInt32) (cfg : Config) (recs : Inode → List Command)
    (s : Sys) : Act → Sys → Prop
  | begin (call : Call) (ts : UInt64) (hl : s.lock = .free) :
    WriterMove crc cfg recs s (.begin call ts) { s with lock := .writing (call.command ts) 0 }
  | write (c : Command) (done n : ℕ) (hl : s.lock = .writing c done)
      (hn : done + n ≤ (c.serialize crc).length)
      (hm : (s.fs.bytes s.writer.file).length + n < maxFileLen) :
    WriterMove crc cfg recs s (.write n)
      { s with
        fs := s.fs.append s.writer.file (((c.serialize crc).drop done).take n)
        lock := .writing c (done + n) }
  | publish (c : Command) (now : ℕ) (hl : s.lock = .writing c (c.serialize crc).length) :
    WriterMove crc cfg recs s (.writer now) (s.publish crc c)
  | rotateCreate (next now : ℕ) (caller : Caller) (hl : s.lock = .rotateTo .create next caller) :
    WriterMove crc cfg recs s (.writer now) (s.rotateTo now .create next caller)
  | rotateReader (next now : ℕ) (caller : Caller) (i : Inode)
      (hl : s.lock = .rotateTo .reader next caller) (hi : s.fs.lookup (.data next) = some i) :
    WriterMove crc cfg recs s (.writer now) ((s.readersUpdate next i).endRotate caller)
  | failRotate (st : RotateStep) (next : ℕ) (caller : Caller) (e : KvsError)
      (hl : s.lock = .rotateTo st next caller) :
    WriterMove crc cfg recs s (.writerErr e) (s.failRotate caller e)
  | quiet (a : Act) (s' : Sys) (ha : ∀ n, a ≠ .write n)
      (hrep : Rep crc cfg recs s')
      (hl : ∀ n, s'.fs.lookup n = s.fs.lookup n) (hb : s'.fs.bytes = s.fs.bytes)
      (hidx : s'.index = s.index) (hcur : s'.writer.currentFileId = s.writer.currentFileId)
      (hm : s'.merge = s.merge) (hw : ∀ c, s.lock ≠ .writing c (c.serialize crc).length)
      (hw' : ∀ c done, s'.lock ≠ .writing c done) : WriterMove crc cfg recs s a s'

theorem Rep.writerMove {a : Act} (h : Rep crc cfg recs s) (hs : WriterStep crc cfg s a s') :
    WriterMove crc cfg recs s a s' := by
  have hlr := h.lock
  cases hs with
  | begin call ts hl => exact .begin call ts hl
  | write c done n hl hn hm => exact .write c done n hl hn hm
  | publish c now hl => exact .publish c now hl
  | rotateCreate next now caller hl => exact .rotateCreate next now caller hl
  | rotateReader next now caller i hl hi => exact .rotateReader next now caller i hl hi
  | failRotate st next caller e hl => exact .failRotate st next caller e hl
  | policySkip c now hl hp =>
    rw [hl] at hlr
    refine .quiet _ _ (by simp) (h.private (fun _ => rfl) rfl rfl rfl rfl rfl rfl rfl
      (by rw [hl]; rfl) (by rw [hl]; rfl) hlr) (fun _ => rfl) rfl rfl rfl rfl (by simp [hl]) (by simp)
  | policySync c now last hl hp =>
    rw [hl] at hlr
    refine .quiet _ _ (by simp) (h.private (fun _ => rfl) rfl rfl rfl rfl rfl rfl rfl
      (by rw [hl]; rfl) (by rw [hl]; rfl) hlr) (fun _ => rfl) rfl rfl rfl rfl (by simp [hl]) (by simp)
  | policyPanic c now hl | notFull c now hl | failPolicy c e hl =>
    rw [hl] at hlr
    refine .quiet _ _ (by simp) (h.private (fun _ => rfl) rfl rfl rfl rfl rfl rfl rfl
      (by rw [hl]; rfl) (by rw [hl]; rfl) ⟨[], by simpa using hlr.1, Or.inl rfl, hlr.2⟩)
      (fun _ => rfl) rfl rfl rfl rfl (by simp [hl]) (by simp)
  | full c now hl ho =>
    rw [hl] at hlr
    refine .quiet _ _ (by simp) (h.private (fun _ => rfl) rfl rfl rfl rfl rfl rfl rfl
      (by rw [hl]; rfl) (by rw [hl]; rfl) ⟨hlr, Nat.lt_succ_self _⟩)
      (fun _ => rfl) rfl rfl rfl rfl (by simp [hl]) (by simp)
  | rotateSync next now caller hl =>
    rw [hl] at hlr
    refine .quiet _ _ (by simp) (h.private (fun _ => rfl) rfl rfl rfl rfl rfl rfl rfl
      (by rw [hl]; rfl) (by rw [hl]; cases caller <;> rfl) hlr)
      (fun _ => rfl) rfl rfl rfl rfl (by simp [hl]) (by simp)
  | rotateClock next now caller hl =>
    rw [hl] at hlr
    refine .quiet _ _ (by simp) (h.private (fun _ => rfl) rfl rfl rfl rfl rfl rfl rfl
      (by rw [hl]; rfl) (by rw [hl]; cases caller <;> rfl) hlr)
      (fun _ => rfl) rfl rfl rfl rfl (by simp [hl]) (by simp)
  | rotateMissing next now caller hl hi =>
    -- the file `rotate_to` has created is there
    rw [hl] at hlr
    rw [hlr.2.2, h.core.cur_dir] at hi
    cases hi
  | failWrite c done e hl hn =>
    rw [hl] at hlr
    obtain ⟨hfits, -, old, hrecs, hbytes, hoff⟩ := hlr
    rw [if_neg (Nat.ne_of_lt hn)] at hrecs
    have htorn := (Nat.eq_zero_or_pos done).imp
      (fun h0 => congrArg (List.take · (c.serialize crc)) h0)
      fun hpos => (IsFrame.serialize crc hfits).take_torn hpos hn
    refine .quiet _ _ (by simp) (h.private (fun _ => rfl) rfl rfl rfl rfl rfl rfl rfl
      (by rw [hl]; rfl) (by rw [hl]; rfl) ⟨(c.serialize crc).take done, by rw [hrecs]; exact hbytes,
        htorn, by rw [hrecs]; exact hoff⟩) (fun _ => rfl) rfl rfl rfl rfl ?_ (by simp)
    intro c' hc
    rw [hl] at hc
    obtain ⟨rfl, rfl⟩ := Lock.writing.inj hc
    exact Nat.lt_irrefl _ hn

/-- `rotate_to` fails only before it has created the next file. -/
theorem WriterOk.early {e : KvsError} {st : RotateStep} {next : ℕ} {caller : Caller}
    (hok : WriterOk s (.writerErr e)) (hl : s.lock = .rotateTo st next caller) :
    st = .sync ∨ st = .create := by
  have hop : s.lock.opening = false := hok
  rw [hl] at hop
  cases st with
  | sync => exact Or.inl rfl
  | create => exact Or.inr rfl
  | clock | reader => cases hop

/-- The lock holder keeps the representation invariant. -/
theorem rep_writerStep {a : Act} (h : Rep crc cfg recs s) (hok : WriterOk s a)
    (hs : WriterStep crc cfg s a s') : ∃ recs', Rep crc cfg recs' s' := by
  cases h.writerMove hs with
  | begin call ts hl => exact ⟨_, h.begin hl hok.1 hok.2⟩
  | write c done n hl hn hm => exact ⟨_, h.write hl hn hm⟩
  | publish c now hl => exact ⟨_, h.publish hl⟩
  | rotateCreate next now caller hl => exact ⟨_, h.rotateCreate hl now⟩
  | rotateReader next now caller i hl hi => exact ⟨_, h.rotateReader hl hi⟩
  | failRotate st next caller e hl => exact ⟨_, h.failRotate hl (hok.early hl) e⟩
  | quiet _ _ _ hrep => exact ⟨_, hrep⟩

end Bitcask
