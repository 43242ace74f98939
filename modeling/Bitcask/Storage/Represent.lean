import Bitcask.Storage.Core
import Bitcask.Storage.Step

/-!
# The representation invariant

`Rep crc cfg recs s` is what every step of a running store keeps, whatever the directory it was
opened on held: the shared structures agree (`Core`), the active file ends where the lock holder
believes it does (`LockRep`), and the merge works on sealed files, below the ids it reserved
(`MergeRep`).

A read handle is missing for a moment after a file has got its data name, in `rotate_to` and in
`finish_output`. `Sys.handles` is the readers map with that handle already in it.
-/

namespace Bitcask

open LittleEndian FileSystem

/-- `rotate_to` has created the next file and has not opened it for reading. -/
def Lock.opening : Lock → Bool
  | .rotateTo .clock _ _ | .rotateTo .reader _ _ => true
  | _ => false

/-- The id of the file a merge rotates to, while its rotation holds the lock. -/
def Lock.rotates : Lock → Option ℕ
  | .rotateTo _ bar .compaction => some bar
  | _ => none

/-- The output that has its data name and is not opened for reading. -/
def Merge.renamed : Merge → Option MergeOutput
  | .finish .reader _ out => some out
  | _ => none

/-- The readers map, with the handle that is about to be put into it. -/
def Sys.handles (s : Sys) (id : ℕ) : Option Inode :=
  if s.lock.opening = true ∧ id = s.writer.currentFileId then some s.writer.file
  else
    match s.merge.renamed with
    | some out => if id = out.id then some out.data else s.readers[id]?
    | none => s.readers[id]?

/-! ## The lock holder -/

/-- The active file holds whole records, and the writer's offset is its end. -/
def Whole (crc : Bytes → UInt32) (recs : Inode → List Command) (fs : Fs FileName)
    (w : WriterState) : Prop :=
  fs.bytes w.file = encodeAll crc (recs w.file) ∧ w.offset = (encodeAll crc (recs w.file)).length

/-- What the lock holder has made of the active file. A record counts among `recs` once all its
bytes are written. After a failed write, part of a record may stand at the end of the file. -/
def LockRep (crc : Bytes → UInt32) (recs : Inode → List Command) (fs : Fs FileName)
    (w : WriterState) : Lock → Prop
  | .free | .poisoned =>
    ∃ t, fs.bytes w.file = encodeAll crc (recs w.file) ++ t ∧ (t = [] ∨ Torn t) ∧
      w.offset = (encodeAll crc (recs w.file)).length
  | .writing c done =>
    c.Fits ∧ done ≤ (c.serialize crc).length ∧
      ∃ old, recs w.file = (if done = (c.serialize crc).length then old ++ [c] else old) ∧
        fs.bytes w.file = encodeAll crc old ++ (c.serialize crc).take done ∧
        w.offset = (encodeAll crc old).length
  | .policy _ | .rotateIfFull _ => Whole crc recs fs w
  | .rotateTo .sync next _ | .rotateTo .create next _ =>
    Whole crc recs fs w ∧ w.currentFileId < next
  | .rotateTo .clock next _ | .rotateTo .reader next _ =>
    Whole crc recs fs w ∧ recs w.file = [] ∧ next = w.currentFileId

/-! ## The merge -/

/-- The bytes of the files of the snapshot not walked yet. -/
def todoLen (crc : Bytes → UInt32) (recs : Inode → List Command) (todo : List (ℕ × Inode)) : ℕ :=
  (todo.map fun f => (encodeAll crc (recs f.2)).length).sum

/-- Unfinished outputs and hints have ids up to `top`. -/
def NamesLe (fs : Fs FileName) (top : ℕ) : Prop :=
  ∀ id, fs.lookup (.compact id) ≠ none ∨ fs.lookup (.hint id) ≠ none → id ≤ top

/-- The ids a merge reserved suffice: `full` outputs are full, and the bytes `used` may still go
into others. -/
def Budget (threshold first bar full used : ℕ) : Prop :=
  ∃ total, full * threshold + used ≤ total ∧ bar = first + total / threshold + 3

/-- A merge that walks its snapshot. `bar` is the id of the file it rotated to; handles below it
have ids up to the last output, or below it while that one is open. -/
structure RunRep (crc : Bytes → UInt32) (cfg : Config) (recs : Inode → List Command)
    (fs : Fs FileName) (rd : ℕ → Option Inode) (cur bar : ℕ) (r : MergeRun) (isOpen : Bool)
    (used : ℕ) : Prop where
  threshold_pos : 0 < cfg.fileSizeThreshold
  bar_le : bar ≤ cur
  first_le : r.firstCompactedFileId + isOpen.toNat ≤ r.nextCompactionFileId
  next_lt : r.nextCompactionFileId < bar
  todo : ∀ f ∈ r.todo, rd f.1 = some f.2 ∧ f.1 < r.firstCompactedFileId
  removed : ∀ id ∈ r.idsToRemove, id < r.firstCompactedFileId
  ids : ∀ {id i}, rd id = some i → id + isOpen.toNat ≤ r.nextCompactionFileId ∨ bar ≤ id
  names : NamesLe fs r.nextCompactionFileId
  budget : r.todo = [] ∨ ∃ full,
    r.nextCompactionFileId = r.firstCompactedFileId + full + isOpen.toNat ∧
      Budget cfg.fileSizeThreshold r.firstCompactedFileId bar full used

/-- The pending update of a copied record. -/
def PendingRep (crc : Bytes → UInt32) (recs : Inode → List Command) (rd : ℕ → Option Inode)
    (out : MergeOutput) (p : PendingUpdate) : Prop :=
  p.new.fileId = out.id ∧ ∃ v i, At crc (recs out.data) p.new.offset (.set p.new.ts p.key v) ∧
    p.new.len = ((Command.set p.new.ts p.key v).serialize crc).length ∧
    rd p.previousValue.fileId = some i ∧
    At crc (recs i) p.previousValue.offset (.set p.new.ts p.key v)

/-- An open output: its two files, with what is still in the buffers, are the copied records and
their hints. -/
structure OutRep (crc : Bytes → UInt32) (recs : Inode → List Command) (fs : Fs FileName)
    (rd : ℕ → Option Inode) (r : MergeRun) (out : MergeOutput) : Prop where
  id_eq : out.id = r.nextCompactionFileId
  hint_name : fs.lookup (.hint out.id) = some out.hint
  data_bytes : fs.bytes out.data ++ out.dataBuf = encodeAll crc (recs out.data)
  hint_bytes : fs.bytes out.hint ++ out.hintBuf = hintsOf crc 0 (recs out.data)
  written : out.written = (encodeAll crc (recs out.data)).length
  sets : ∀ c ∈ recs out.data, c.IsSet
  pending : ∀ p ∈ r.pendingRecords, PendingRep crc recs rd out p

/-- What holds in each step of `finish_output`. -/
def FinishRep (fs : Fs FileName) (rd : ℕ → Option Inode) (index : Index) (out : MergeOutput) :
    FinishStep → Prop
  | .syncData => fs.lookup (.compact out.id) = some out.data
  | .syncHint =>
    fs.lookup (.compact out.id) = some out.data ∧ out.dataBuf = [] ∧
      (fs.bytes out.data).length < maxFileLen
  | .rename =>
    fs.lookup (.compact out.id) = some out.data ∧ (out.dataBuf = [] ∧ out.hintBuf = []) ∧
      (fs.bytes out.data).length < maxFileLen
  | .reader =>
    fs.lookup (.data out.id) = some out.data ∧ (out.dataBuf = [] ∧ out.hintBuf = []) ∧
      ∀ k e, index.get k = some e → e.fileId ≠ out.id
  | .updates =>
    fs.lookup (.data out.id) = some out.data ∧ (out.dataBuf = [] ∧ out.hintBuf = []) ∧
      rd out.id = some out.data

/-- The output still has its temporary name. -/
def FinishStep.unnamed : FinishStep → Bool
  | .syncData | .syncHint | .rename => true
  | .reader | .updates => false

/-- What the compaction thread has made so far. -/
def MergeRep (crc : Bytes → UInt32) (cfg : Config) (recs : Inode → List Command)
    (fs : Fs FileName) (rd : ℕ → Option Inode) (index : Index) (cur : ℕ) (lock : Lock) :
    Merge → Prop
  | .idle _ | .subtract _ | .dead => True
  | .rotating r =>
    r.pendingRecords = [] ∧ r.idsToRemove = [] ∧
      r.nextCompactionFileId = r.firstCompactedFileId ∧ ∃ bar, lock.rotates = some bar ∧
      cur = (if lock.opening then bar else r.firstCompactedFileId) ∧
      RunRep crc cfg recs fs rd bar bar r false (todoLen crc recs r.todo)
  | .nextFile r none =>
    r.pendingRecords = [] ∧ ∃ bar, RunRep crc cfg recs fs rd cur bar r false (todoLen crc recs r.todo)
  | .openHint r id data =>
    r.pendingRecords = [] ∧ id = r.nextCompactionFileId ∧ fs.lookup (.compact id) = some data ∧
      fs.bytes data = [] ∧ recs data = [] ∧ fs.lookup (.hint id) = none ∧
      ∃ bar, RunRep crc cfg recs fs rd cur bar r true (todoLen crc recs r.todo)
  | .nextFile r (some out) =>
    OutRep crc recs fs rd r out ∧ fs.lookup (.compact out.id) = some out.data ∧
      ∃ bar, RunRep crc cfg recs fs rd cur bar r true (out.written + todoLen crc recs r.todo)
  | .records r out fileId reader =>
    OutRep crc recs fs rd r out ∧ fs.lookup (.compact out.id) = some out.data ∧
      ∃ i done rest, rd fileId = some i ∧ fileId < r.firstCompactedFileId ∧ recs i = done ++ rest ∧
        reader = readerAt crc (encodeAll crc done).length rest ∧
        ∃ bar, RunRep crc cfg recs fs rd cur bar r true
          (out.written + (encodeAll crc rest).length + todoLen crc recs r.todo)
  | .finish st r out =>
    OutRep crc recs fs rd r out ∧ FinishRep fs rd index out st ∧
      (r.todo = [] ∨ cfg.fileSizeThreshold ≤ out.written) ∧
      ∃ bar, RunRep crc cfg recs fs rd cur bar r st.unnamed
        ((if st.unnamed then out.written else 0) + todoLen crc recs r.todo)
  | .removeData ids _ | .removeHint _ ids _ => ∀ id ∈ ids, id < cur

/-- The representation invariant of a running store. -/
structure Rep (crc : Bytes → UInt32) (cfg : Config) (recs : Inode → List Command) (s : Sys) :
    Prop where
  core : Core crc recs s.fs s.handles s.index s.writer.currentFileId s.writer.file
  lock : LockRep crc recs s.fs s.writer s.lock
  merge : MergeRep crc cfg recs s.fs s.handles s.index s.writer.currentFileId s.lock s.merge
  names : NamesLe s.fs s.writer.currentFileId
  rotates : s.lock.rotates ≠ none → ∃ r, s.merge = .rotating r

/-! ## Frames -/

section Frames

variable {crc : Bytes → UInt32} {cfg : Config} {recs recs' : Inode → List Command}
  {fs fs' : Fs FileName} {rd rd' : ℕ → Option Inode} {index index' : Index} {cur cur' bar : ℕ}
  {file : Inode} {r : MergeRun} {out : MergeOutput} {isOpen : Bool} {used used' : ℕ}

theorem NamesLe.mono {top top' : ℕ} (h : NamesLe fs top) (hle : top ≤ top') : NamesLe fs top' :=
  fun id hid => (h id hid).trans hle

theorem NamesLe.congr {top : ℕ} (h : NamesLe fs top)
    (hl : ∀ n, (∀ id, n ≠ .data id) → fs'.lookup n = fs.lookup n) : NamesLe fs' top := by
  intro id hid
  rw [hl _ (by simp), hl _ (by simp)] at hid
  exact h id hid

/-- Only data names have changed. -/
theorem NamesLe.congr_some {top : ℕ} (h : NamesLe fs top)
    (hl : ∀ n, (∀ id, n ≠ .data id) → fs'.lookup n ≠ none → fs.lookup n ≠ none) :
    NamesLe fs' top := by
  intro id hid
  exact h id (hid.imp (hl _ (by simp)) (hl _ (by simp)))

theorem Budget.mono {threshold first full : ℕ} (h : Budget threshold first bar full used)
    (hle : used' ≤ used) : Budget threshold first bar full used' := by
  obtain ⟨total, hsum, hbar⟩ := h
  exact ⟨total, by omega, hbar⟩

/-- A full output is paid for by the bytes in it. -/
theorem Budget.full {threshold first full written : ℕ}
    (h : Budget threshold first bar full (written + used)) (hw : threshold ≤ written) :
    Budget threshold first bar (full + 1) used := by
  obtain ⟨total, hsum, hbar⟩ := h
  exact ⟨total, by rw [Nat.add_one_mul]; omega, hbar⟩

/-- There is an id left for one more output. -/
theorem Budget.lt {threshold first full : ℕ} (h : Budget threshold first bar full used)
    (hpos : 0 < threshold) : first + full + 1 < bar := by
  obtain ⟨total, hsum, hbar⟩ := h
  have : full ≤ total / threshold := (Nat.le_div_iff_mul_le hpos).mpr (by omega)
  omega

theorem todoLen_congr {todo : List (ℕ × Inode)} (h : ∀ f ∈ todo, recs' f.2 = recs f.2) :
    todoLen crc recs' todo = todoLen crc recs todo := by
  unfold todoLen
  rw [List.map_congr_left fun f hf => by rw [h f hf]]

/-- The writer has gone on to an id above those of the outputs. -/
theorem RunRep.next_lt_cur (h : RunRep crc cfg recs fs rd cur bar r isOpen used) :
    r.nextCompactionFileId < cur := h.next_lt.trans_le h.bar_le

theorem RunRep.output_lt (h : RunRep crc cfg recs fs rd cur bar r isOpen used)
    (ho : OutRep crc recs fs rd r out) : out.id < cur := by
  rw [ho.id_eq]
  exact h.next_lt_cur

/-- The files that the merge walks are sealed. -/
theorem RunRep.lt_cur {id : ℕ} (h : RunRep crc cfg recs fs rd cur bar r isOpen used)
    (hlt : id < r.firstCompactedFileId) : id < cur := by
  have := h.first_le
  have := h.next_lt_cur
  omega

/-- The lock holder and the merge work on different files. -/
theorem RunRep.frame (h : RunRep crc cfg recs fs rd cur bar r isOpen used) (hcur : cur ≤ cur')
    (hl : ∀ n, (∀ id, n ≠ .data id) → fs'.lookup n = fs.lookup n)
    (hrd : ∀ {id i}, rd id = some i → rd' id = some i)
    (hrd' : ∀ {id i}, rd' id = some i → rd id = some i ∨ bar ≤ id) :
    RunRep crc cfg recs' fs' rd' cur' bar r isOpen used where
  threshold_pos := h.threshold_pos
  bar_le := h.bar_le.trans hcur
  first_le := h.first_le
  next_lt := h.next_lt
  todo f hf := ⟨hrd (h.todo f hf).1, (h.todo f hf).2⟩
  removed := h.removed
  ids hi := (hrd' hi).elim h.ids Or.inr
  names := h.names.congr hl
  budget := h.budget

theorem At.extend {cs ds : List Command} {off : ℕ} {c : Command} (h : At crc cs off c)
    (hp : cs <+: ds) : At crc ds off c := by
  obtain ⟨t, rfl⟩ := hp
  exact h.append t

theorem PendingRep.frame {p : PendingUpdate} (h : PendingRep crc recs rd out p)
    (hout : recs out.data <+: recs' out.data) (hrd : ∀ {id i}, rd id = some i → rd' id = some i)
    (hsrc : ∀ {id i}, rd id = some i → recs i <+: recs' i) : PendingRep crc recs' rd' out p := by
  obtain ⟨hid, v, i, hnew, hlen, hi, hprev⟩ := h
  exact ⟨hid, v, i, hnew.extend hout, hlen, hrd hi, hprev.extend (hsrc hi)⟩

theorem OutRep.frame (h : OutRep crc recs fs rd r out)
    (hl : ∀ n, (∀ id, n ≠ .data id) → fs'.lookup n = fs.lookup n)
    (hdata : fs'.bytes out.data = fs.bytes out.data) (hhint : fs'.bytes out.hint = fs.bytes out.hint)
    (hrecs : recs' out.data = recs out.data) (hrd : ∀ {id i}, rd id = some i → rd' id = some i)
    (hsrc : ∀ {id i}, rd id = some i → recs i <+: recs' i) : OutRep crc recs' fs' rd' r out where
  id_eq := h.id_eq
  hint_name := by rw [hl _ (by simp)]; exact h.hint_name
  data_bytes := by rw [hdata, hrecs]; exact h.data_bytes
  hint_bytes := by rw [hhint, hrecs]; exact h.hint_bytes
  written := by rw [hrecs]; exact h.written
  sets := by rw [hrecs]; exact h.sets
  pending p hp := (h.pending p hp).frame (by rw [hrecs]) hrd hsrc

/-- Whatever the lock holder does to the active file, it leaves the merge alone. -/
theorem MergeRep.frame {lock lock' : Lock} {m : Merge} (hc : Core crc recs fs rd index cur file)
    (h : MergeRep crc cfg recs fs rd index cur lock m) (hrot : ∀ r, m ≠ .rotating r)
    (hcur : cur ≤ cur') (hl : ∀ n, (∀ id, n ≠ .data id) → fs'.lookup n = fs.lookup n)
    (hd : ∀ {id i}, fs.lookup (.data id) = some i → fs'.lookup (.data id) = some i)
    (hsame : ∀ {i}, i < fs.next → i ≠ file → fs'.bytes i = fs.bytes i ∧ recs' i = recs i)
    (hfile : recs file <+: recs' file) (hrd : ∀ {id i}, rd id = some i → rd' id = some i)
    (hrd' : ∀ {id i}, rd' id = some i → rd id = some i ∨ cur' ≤ id)
    (hidx : ∀ {k e}, index'.get k = some e → index.get k = some e ∨ e.fileId = cur) :
    MergeRep crc cfg recs' fs' rd' index' cur' lock' m := by
  have htmp : ∀ {n i}, (∀ id, n ≠ .data id) → fs.lookup n = some i →
      fs'.bytes i = fs.bytes i ∧ recs' i = recs i := by
    intro n i hn hi
    refine hsame (fs.dir_lt n i hi) ?_
    rintro rfl
    exact hn _ (fs.dir_inj n _ _ hi hc.cur_dir)
  have hsrc : ∀ {id i}, rd id = some i → recs i <+: recs' i := by
    intro id i hi
    by_cases hif : i = file
    · rw [hif]; exact hfile
    · rw [(hsame (hc.rd_lt hi) hif).2]
  have hsealed : ∀ {id i}, rd id = some i → id < cur → fs'.bytes i = fs.bytes i ∧ recs' i = recs i :=
    fun hi hlt => hsame (hc.rd_lt hi) (hc.ne_file hi (Nat.ne_of_lt hlt))
  have hrun : ∀ {bar r o used}, RunRep crc cfg recs fs rd cur bar r o used →
      RunRep crc cfg recs' fs' rd' cur' bar r o used := fun hr =>
    hr.frame hcur hl hrd fun hi => (hrd' hi).imp_right ((hr.bar_le.trans hcur).trans ·)
  have htodo : ∀ {bar r o used}, RunRep crc cfg recs fs rd cur bar r o used →
      todoLen crc recs' r.todo = todoLen crc recs r.todo := by
    intro bar r o used hr
    exact todoLen_congr fun f hf => (hsealed (hr.todo f hf).1 (hr.lt_cur (hr.todo f hf).2)).2
  cases m with
  | idle | subtract | dead => trivial
  | rotating r => exact absurd rfl (hrot r)
  | nextFile r output =>
    cases output with
    | none =>
      obtain ⟨hp, bar, hr⟩ := h
      exact ⟨hp, bar, by rw [htodo hr]; exact hrun hr⟩
    | some out =>
      obtain ⟨ho, hn, bar, hr⟩ := h
      obtain ⟨hb, hrecs⟩ := htmp (by simp) hn
      refine ⟨ho.frame hl hb (htmp (by simp) ho.hint_name).1 hrecs hrd hsrc, ?_, bar, ?_⟩
      · rw [hl _ (by simp)]; exact hn
      · rw [htodo hr]; exact hrun hr
  | openHint r id data =>
    obtain ⟨hp, hid, hn, hb, hrecs, hh, bar, hr⟩ := h
    obtain ⟨hb', hrecs'⟩ := htmp (by simp) hn
    refine ⟨hp, hid, ?_, by rw [hb', hb], by rw [hrecs', hrecs], ?_, bar, ?_⟩
    · rw [hl _ (by simp)]; exact hn
    · rw [hl _ (by simp)]; exact hh
    · rw [htodo hr]; exact hrun hr
  | records r out fileId reader =>
    obtain ⟨ho, hn, i, done, rest, hi, hlt, hsplit, hreader, bar, hr⟩ := h
    obtain ⟨hb, hrecs⟩ := htmp (by simp) hn
    have hlt' : fileId < cur := hr.lt_cur hlt
    refine ⟨ho.frame hl hb (htmp (by simp) ho.hint_name).1 hrecs hrd hsrc, ?_, i, done, rest, hrd hi,
      hlt, ?_, hreader, bar, ?_⟩
    · rw [hl _ (by simp)]; exact hn
    · rw [(hsealed hi hlt').2]; exact hsplit
    · rw [htodo hr]; exact hrun hr
  | finish st r out =>
    obtain ⟨ho, hf, hfull, bar, hr⟩ := h
    have hlt : out.id < cur := hr.output_lt ho
    -- the output's data file is found under its temporary or its data name
    have hout : fs'.bytes out.data = fs.bytes out.data ∧ recs' out.data = recs out.data := by
      cases st with
      | syncData => exact htmp (by simp) hf
      | syncHint | rename => exact htmp (by simp) hf.1
      | reader | updates => exact hsealed (hc.dir_rd hf.1) hlt
    refine ⟨ho.frame hl hout.1 (htmp (by simp) ho.hint_name).1 hout.2 hrd hsrc, ?_, hfull, bar, ?_⟩
    · cases st with
      | syncData =>
        show fs'.lookup _ = _
        rw [hl _ (by simp)]; exact hf
      | syncHint =>
        show fs'.lookup _ = _ ∧ _ ∧ (fs'.bytes out.data).length < _
        rw [hl _ (by simp), hout.1]; exact hf
      | rename =>
        show fs'.lookup _ = _ ∧ _ ∧ (fs'.bytes out.data).length < _
        rw [hl _ (by simp), hout.1]; exact hf
      | reader =>
        refine ⟨hd hf.1, hf.2.1, fun k e hk => ?_⟩
        rcases hidx hk with hk | hk
        · exact hf.2.2 k e hk
        · rw [hk]; exact Nat.ne_of_gt hlt
      | updates => exact ⟨hd hf.1, hf.2.1, hrd hf.2.2⟩
    · rw [htodo hr]; exact hrun hr
  | removeData ids stale => exact fun id hid => (h id hid).trans_le hcur
  | removeHint id ids stale => exact fun id hid => (h id hid).trans_le hcur

end Frames

end Bitcask
