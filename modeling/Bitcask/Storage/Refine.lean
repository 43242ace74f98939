import Bitcask.Lib.CompactingLog
import Bitcask.Storage.Replay
import Bitcask.Storage.RepresentMerge

/-!
# The store refines a compacting log

A running store is related to a state of the abstract machine of `CompactingLog`: the segments are
the records of the data files in the directory, the log is the sequence of the commands whose
records are completely written, and the merge is where the compaction thread is. The relation
`Link` also says that the index points every key to its value in the published log, and that a hint
file next to its data file lists the records of it.

This module states the relation and follows the lock holder; `RefineMerge` follows the compaction
thread.
-/

namespace Bitcask

open LittleEndian FileSystem SegmentedLog

/-! ## The abstraction -/

/-- Where an entry points to. -/
def IndexValue.pos (e : IndexValue) : CompactingLog.Pos := ⟨e.fileId, e.offset⟩

/-- The records of the data file with this id in the directory. -/
def segsOf (recs : Inode → List Command) (fs : Fs FileName) (id : ℕ) : List Command :=
  match fs.lookup (.data id) with
  | some i => recs i
  | none => []

/-- The command whose record is complete in the file while the index does not know of it. -/
def Lock.fresh (crc : Bytes → UInt32) : Lock → List Command
  | .writing c done => if done = (c.serialize crc).length then [c] else []
  | _ => []

/-- The command whose record the next write of `n` bytes completes. -/
def logged (crc : Bytes → UInt32) (s : Sys) : Act → List Command
  | .write n =>
    match s.lock with
    | .writing c done =>
      if done < (c.serialize crc).length ∧ done + n = (c.serialize crc).length then [c] else []
    | _ => []
  | _ => []

/-- The keys and values of `Set` records. -/
def copiesOf (cs : List Command) : List (Bytes × Bytes) :=
  cs.filterMap fun c => c.getValue.map (c.getKey, ·)

def PendingUpdate.move (p : PendingUpdate) : Bytes × CompactingLog.Pos × CompactingLog.Pos :=
  (p.key, p.previousValue.pos, p.new.pos)

/-- The ids of the files not walked yet. -/
def MergeRun.todoIds (r : MergeRun) : List ℕ := r.todo.map Prod.fst

def MergeRun.scan (r : MergeRun) (sources : List ℕ) (todo : Set CompactingLog.Pos)
    (copies : List (Bytes × Bytes)) : CompactingLog.Scan Bytes Bytes :=
  ⟨r.firstCompactedFileId, r.nextCompactionFileId, sources, todo, copies,
    r.pendingRecords.map PendingUpdate.move⟩

/-- Between two sources. -/
def MergeRun.walk (r : MergeRun) (copies : List (Bytes × Bytes)) : CompactingLog.Phase Bytes Bytes :=
  .scan (r.scan (r.idsToRemove ++ r.todoIds) {p | p.seg ∈ r.todoIds} copies)

/-- Where the compaction thread is. -/
def Merge.phase (recs : Inode → List Command) : Merge → CompactingLog.Phase Bytes Bytes
  | .idle _ | .rotating _ | .subtract _ | .dead => .idle
  | .nextFile r none => r.walk []
  | .nextFile r (some out) => r.walk (copiesOf (recs out.data))
  | .openHint r _ _ => r.walk []
  | .records r out fileId reader =>
    .scan (r.scan (r.idsToRemove ++ fileId :: r.todoIds)
      {p | p.seg ∈ r.todoIds ∨ p.seg = fileId ∧ reader.position ≤ p.off} (copiesOf (recs out.data)))
  | .finish st r out => r.walk (if st.unnamed then copiesOf (recs out.data) else [])
  | .removeData ids _ | .removeHint _ ids _ => .drop ids

/-- The ids are ascending and contain those of all data files below `first`. -/
def Covers (fs : Fs FileName) (first : ℕ) (ids : List ℕ) : Prop :=
  ids.Pairwise (· < ·) ∧ ∀ id, id < first → fs.lookup (.data id) ≠ none → id ∈ ids

/-- A command made from strings. -/
def Command.Text (c : Command) : Prop := ∃ call ts, c = Call.command ts call

/-- A hint next to its data file lists the records of it, which are all `Set` records. -/
def HintsOk (crc : Bytes → UInt32) (recs : Inode → List Command) (fs : Fs FileName) (cur : ℕ) :
    Prop :=
  ∀ id h i, fs.lookup (.hint id) = some h → fs.lookup (.data id) = some i →
    id < cur ∧ fs.bytes h = hintsOf crc 0 (recs i) ∧ ∀ c ∈ recs i, c.IsSet

/-- A running store and the abstract machine. `log` is the sequence of the commands completely
written, and the index knows of those in `pub`. -/
structure Link (crc : Bytes → UInt32) (cfg : Config) (recs : Inode → List Command)
    (log pub : List Command) (s : Sys) (a : CompactingLog.State Bytes Bytes) : Prop where
  rep : Rep crc cfg recs s
  inv : CompactingLog.Inv a
  represents : Represents crc recs (fun id => s.fs.lookup (.data id)) (events pub) s.index
  hints : HintsOk crc recs s.fs s.writer.currentFileId
  text : ∀ c ∈ log, c.Text
  lock_text : ∀ c done, s.lock = .writing c done → c.Text
  fresh : log = pub ++ s.lock.fresh crc
  segs : ∀ id, CompactingLog.withTail a.segs a.cur a.volatile id = events (segsOf recs s.fs id)
  cur : a.cur = s.writer.currentFileId
  log_eq : a.log = events log
  pub_eq : a.pub = events pub
  loc : ∀ k, a.loc k = (s.index.get k).map IndexValue.pos
  phase : a.phase = s.merge.phase recs
  covers : ∀ r, s.merge = .rotating r → Covers s.fs r.firstCompactedFileId r.todoIds

/-! ## Frames -/

section Frames

variable {crc : Bytes → UInt32} {cfg : Config} {recs recs' : Inode → List Command}
  {log pub : List Command} {s s' : Sys} {a a' : CompactingLog.State Bytes Bytes}
  {fs fs' : Fs FileName} {id : ℕ} {i : Inode}

theorem segsOf_some (recs : Inode → List Command) (h : fs.lookup (.data id) = some i) :
    segsOf recs fs id = recs i := by
  rw [segsOf, h]

theorem segsOf_none (recs : Inode → List Command) (h : fs.lookup (.data id) = none) :
    segsOf recs fs id = [] := by
  rw [segsOf, h]

theorem segsOf_congr (hd : fs'.lookup (.data id) = fs.lookup (.data id))
    (hr : ∀ {i}, fs.lookup (.data id) = some i → recs' i = recs i) :
    segsOf recs' fs' id = segsOf recs fs id := by
  cases hi : fs.lookup (.data id) with
  | none => rw [segsOf_none _ hi, segsOf_none _ (hd.trans hi)]
  | some i => rw [segsOf_some _ hi, segsOf_some _ (hd.trans hi), hr hi]

/-- The entries still point to their records. -/
theorem Represents.frame {rd rd' : ℕ → Option Inode} {evs : List (Bytes × Option Bytes)}
    {index : Index} (h : Represents crc recs rd evs index)
    (hrd : ∀ {k e i}, index.get k = some e → rd e.fileId = some i →
      rd' e.fileId = some i ∧ recs i <+: recs' i) : Represents crc recs' rd' evs index := by
  refine represents_of (fun k hv => h.of_none hv) fun k v hv => ?_
  obtain ⟨e, i, he, hi, hat, hlen⟩ := h.of_some hv
  obtain ⟨hi', hp⟩ := hrd he hi
  exact ⟨e, i, he, hi', hat.extend hp, hlen⟩

/-- A `Set` record at the end of a file gets its entry. -/
theorem Represents.insert {rd : ℕ → Option Inode} {evs : List (Bytes × Option Bytes)}
    {index : Index} (h : Represents crc recs rd evs index) {k v : Bytes} {e : IndexValue}
    (hi : rd e.fileId = some i) (hat : At crc (recs i) e.offset (.set e.ts k v))
    (hlen : e.len = ((Command.set e.ts k v).serialize crc).length) :
    Represents crc recs rd (evs ++ [(k, some v)]) (index.insert k e) := by
  refine represents_of (fun j hv => ?_) fun j w hv => ?_
  · by_cases hj : k = j
    · subst hj; rw [value_append_self] at hv; cases hv
    · rw [value_append_ne hj] at hv
      rw [Index.get_insert_ne (Ne.symm hj)]
      exact h.of_none hv
  · by_cases hj : k = j
    · subst hj
      rw [value_append_self, Option.some.injEq] at hv
      subst hv
      exact ⟨e, i, Index.get_insert_self .., hi, hat, hlen⟩
    · rw [value_append_ne hj] at hv
      rw [Index.get_insert_ne (Ne.symm hj)]
      exact h.of_some hv

/-- An entry moves to another record with the same value. -/
theorem Represents.replace {rd : ℕ → Option Inode} {evs : List (Bytes × Option Bytes)}
    {index : Index} (h : Represents crc recs rd evs index) {k v : Bytes} {e : IndexValue}
    (hv : value k evs = some v) (hi : rd e.fileId = some i)
    (hat : At crc (recs i) e.offset (.set e.ts k v))
    (hlen : e.len = ((Command.set e.ts k v).serialize crc).length) :
    Represents crc recs rd evs (index.insert k e) :=
  (h.insert hi hat hlen).congr fun j => by
    by_cases hj : k = j
    · subst hj; rw [value_append_self, hv]
    · rw [value_append_ne hj]

theorem Represents.remove {rd : ℕ → Option Inode} {evs : List (Bytes × Option Bytes)}
    {index : Index} (h : Represents crc recs rd evs index) (k : Bytes) :
    Represents crc recs rd (evs ++ [(k, none)]) (index.remove k) := by
  refine represents_of (fun j hv => ?_) fun j w hv => ?_
  · by_cases hj : k = j
    · subst hj; exact Index.get_remove_self ..
    · rw [value_append_ne hj] at hv
      rw [Index.get_remove_ne (Ne.symm hj)]
      exact h.of_none hv
  · by_cases hj : k = j
    · subst hj; rw [value_append_self] at hv; cases hv
    · rw [value_append_ne hj] at hv
      rw [Index.get_remove_ne (Ne.symm hj)]
      exact h.of_some hv

/-- Only names and records of other files change. -/
theorem HintsOk.congr {cur cur' : ℕ} (h : HintsOk crc recs fs cur) (hcur : cur ≤ cur')
    (hh : ∀ {id j}, fs'.lookup (.hint id) = some j → fs'.lookup (.data id) ≠ none →
      fs.lookup (.hint id) = some j ∧ fs'.bytes j = fs.bytes j)
    (hd : ∀ {id i}, fs'.lookup (.data id) = some i → fs'.lookup (.hint id) ≠ none →
      fs.lookup (.data id) = some i ∧ recs' i = recs i) : HintsOk crc recs' fs' cur' := by
  intro id j i hj hi
  obtain ⟨hj', hb⟩ := hh hj (by rw [hi]; simp)
  obtain ⟨hi', hr⟩ := hd hi (by rw [hj]; simp)
  obtain ⟨hlt, hbytes, hsets⟩ := h id j i hj' hi'
  exact ⟨hlt.trans_le hcur, by rw [hb, hr]; exact hbytes, by rw [hr]; exact hsets⟩

/-- The segments of the machine that are not active. -/
theorem Link.seg_eq (h : Link crc cfg recs log pub s a) (hid : id ≠ s.writer.currentFileId) :
    a.segs id = events (segsOf recs s.fs id) := by
  rw [← h.segs, CompactingLog.withTail_ne (by rw [h.cur]; exact hid)]

theorem Link.seg_cur (h : Link crc cfg recs log pub s a) :
    a.segs s.writer.currentFileId ++ a.volatile = events (recs s.writer.file) := by
  have := h.segs s.writer.currentFileId
  rw [segsOf_some _ h.rep.core.cur_dir] at this
  rw [← this, ← h.cur, CompactingLog.withTail_self]

/-- An entry of the index points into a data file of the directory. -/
theorem Link.entry_dir (h : Link crc cfg recs log pub s a) {k : Bytes} {e : IndexValue}
    (he : s.index.get k = some e) : ∃ i v, s.fs.lookup (.data e.fileId) = some i ∧
      valueOf k pub = some v ∧ At crc (recs i) e.offset (.set e.ts k v) ∧
      e.len = ((Command.set e.ts k v).serialize crc).length := by
  obtain ⟨i, v, hv, hi, hat, hlen⟩ := h.represents.entry he
  exact ⟨i, v, hi, hv, hat, hlen⟩

theorem Merge.phase_congr {m : Merge}
    (h : ∀ out, Sys.heldOutput m = some out → recs' out.data = recs out.data) :
    m.phase recs' = m.phase recs := by
  cases m with
  | nextFile r output =>
    cases output with
    | none => rfl
    | some out => simp only [Merge.phase, h out rfl]
  | records r out fileId reader => simp only [Merge.phase, h out rfl]
  | finish st r out => simp only [Merge.phase, h out rfl]
  | _ => rfl

/-- A step that changes no data name, no record of a data file and no entry of the index. -/
theorem Link.quiet (h : Link crc cfg recs log pub s a) (hrep : Rep crc cfg recs' s')
    (hrecs : ∀ {id i}, s.fs.lookup (.data id) = some i → recs' i = recs i)
    (hdata : ∀ id, s'.fs.lookup (.data id) = s.fs.lookup (.data id))
    (hhints : HintsOk crc recs' s'.fs s.writer.currentFileId) (hidx : s'.index = s.index)
    (hcur : s'.writer.currentFileId = s.writer.currentFileId)
    (hfresh : s'.lock.fresh crc = s.lock.fresh crc)
    (htext : ∀ c done, s'.lock = .writing c done → c.Text)
    (ph : CompactingLog.Phase Bytes Bytes) (hinv : CompactingLog.Inv { a with phase := ph })
    (hphase : ph = s'.merge.phase recs')
    (hcovers : ∀ r, s'.merge = .rotating r → Covers s'.fs r.firstCompactedFileId r.todoIds) :
    Link crc cfg recs' log pub s' { a with phase := ph } where
  rep := hrep
  inv := hinv
  represents := by
    rw [hidx]
    exact h.represents.frame fun _ hi => ⟨(hdata _).trans hi, by rw [hrecs hi]⟩
  hints := by rw [hcur]; exact hhints
  text := h.text
  lock_text := htext
  fresh := by rw [hfresh]; exact h.fresh
  segs id := (h.segs id).trans (congrArg events (segsOf_congr (hdata id) hrecs).symm)
  cur := h.cur.trans hcur.symm
  log_eq := h.log_eq
  pub_eq := h.pub_eq
  loc k := by rw [hidx]; exact h.loc k
  phase := hphase
  covers := hcovers

/-- A step of the lock holder that changes only what it knows itself. -/
theorem Link.private (h : Link crc cfg recs log pub s a) (hrep : Rep crc cfg recs s')
    (hl : ∀ n, s'.fs.lookup n = s.fs.lookup n) (hb : s'.fs.bytes = s.fs.bytes)
    (hidx : s'.index = s.index) (hcur : s'.writer.currentFileId = s.writer.currentFileId)
    (hm : s'.merge = s.merge) (hfresh : s'.lock.fresh crc = s.lock.fresh crc)
    (htext : ∀ c done, s'.lock = .writing c done → c.Text) :
    Link crc cfg recs log pub s' a := by
  refine h.quiet hrep (fun _ => rfl) (fun id => hl _) ?_ hidx hcur hfresh htext a.phase h.inv ?_ ?_
  · exact h.hints.congr le_rfl (fun hj _ => ⟨by rwa [← hl], by rw [hb]⟩)
      (fun hi _ => ⟨by rwa [← hl], rfl⟩)
  · rw [hm]; exact h.phase
  · intro r hr
    rw [hm] at hr
    obtain ⟨hs, hc⟩ := h.covers r hr
    exact ⟨hs, fun id hid hne => hc id hid (by rwa [← hl])⟩

end Frames

/-! ## The lock holder -/

section Writer

variable {crc : Bytes → UInt32} {cfg : Config} {recs : Inode → List Command}
  {log pub : List Command} {s s' : Sys} {a : CompactingLog.State Bytes Bytes}

theorem Lock.fresh_eq_nil {l : Lock} (h : ∀ c, l ≠ .writing c (c.serialize crc).length) :
    l.fresh crc = [] := by
  cases l with
  | writing c done =>
    refine if_neg fun hd => h c ?_
    rw [hd]
  | _ => rfl

theorem Lock.fresh_writing_zero (c : Command) : (Lock.writing c 0).fresh crc = [] := by
  have := Command.serialize_pos crc c
  rw [Lock.fresh, if_neg (by omega)]

theorem Link.begin (h : Link crc cfg recs log pub s a) {call : Call} {ts : UInt64}
    (hl : s.lock = .free) (hend : (s.fs.bytes s.writer.file).length = s.writer.offset)
    (hf : (call.command ts).Fits) :
    Link crc cfg recs log pub { s with lock := .writing (call.command ts) 0 } a := by
  refine h.private (h.rep.begin hl hend hf) (fun _ => rfl) rfl rfl rfl rfl ?_ ?_
  · rw [Lock.fresh_writing_zero, hl]; rfl
  · intro c done hc
    obtain ⟨rfl, -⟩ := Lock.writing.inj hc
    exact ⟨call, ts, rfl⟩

/-- More bytes of a record; the last of them append it to the log. -/
theorem Link.write (h : Link crc cfg recs log pub s a) {c : Command} {done n : ℕ}
    (hl : s.lock = .writing c done) (hn : done + n ≤ (c.serialize crc).length)
    (hmax : (s.fs.bytes s.writer.file).length + n < maxFileLen) :
    ∃ recs' a', Link crc cfg recs' (log ++ logged crc s (.write n)) pub
        { s with
          fs := s.fs.append s.writer.file (((c.serialize crc).drop done).take n)
          lock := .writing c (done + n) } a' ∧
      Relation.ReflTransGen CompactingLog.Step a a' ∧ a'.durable = a.durable ∧
      (∀ i, recs i <+: recs' i) := by
  have hrep := h.rep.write hl hn hmax
  have hlogged : logged crc s (.write n) =
      if done < (c.serialize crc).length ∧ done + n = (c.serialize crc).length then [c] else [] := by
    rw [logged, hl]
  rw [← hlogged] at hrep
  have hfit : c.Fits := by
    have := h.rep.lock
    rw [hl] at this
    exact this.1
  have htext : ∀ c' done', Lock.writing c (done + n) = .writing c' done' → c'.Text := by
    intro c' done' he
    obtain ⟨rfl, -⟩ := Lock.writing.inj he
    exact h.lock_text c done hl
  by_cases hc : done < (c.serialize crc).length ∧ done + n = (c.serialize crc).length
  · -- the record is complete
    rw [if_pos hc] at hlogged
    rw [hlogged] at hrep ⊢
    have hfresh : s.lock.fresh crc = [] := by rw [hl, Lock.fresh, if_neg (by omega)]
    have hlog : log = pub := by rw [h.fresh, hfresh, List.append_nil]
    have hpub : a.pub = a.log := by rw [h.pub_eq, h.log_eq, hlog]
    have hstep : CompactingLog.Step a { a with volatile := a.volatile ++ [event c] } :=
      .append (event c) hpub
    have hrecs : ∀ {id i}, s.fs.lookup (.data id) = some i → id ≠ s.writer.currentFileId →
        Function.update recs s.writer.file (recs s.writer.file ++ [c]) i = recs i := by
      intro id i hi hid
      exact Function.update_of_ne (h.rep.core.ne_file (h.rep.core.dir_rd hi) hid) ..
    have hpre : ∀ i, recs i <+:
        Function.update recs s.writer.file (recs s.writer.file ++ [c]) i := by
      intro i
      by_cases hi : i = s.writer.file
      · rw [hi, Function.update_self]; exact List.prefix_append _ _
      · rw [Function.update_of_ne hi]
    refine ⟨_, _, ⟨hrep, hstep.inv h.inv, ?_, ?_, ?_, htext, ?_, ?_, h.cur, ?_, h.pub_eq, h.loc, ?_, ?_⟩,
      .single hstep, rfl, hpre⟩
    · exact h.represents.frame fun _ hi => ⟨hi, hpre _⟩
    · refine h.hints.congr le_rfl (fun {id j} hj _ => ⟨hj, Fs.bytes_append_ne ?_ _⟩)
        (fun {id i} hi hj => ⟨hi, ?_⟩)
      · rintro rfl
        cases s.fs.dir_inj _ _ _ hj h.rep.core.cur_dir
      · obtain ⟨j, hj⟩ := Option.ne_none_iff_exists'.mp hj
        exact hrecs hi (Nat.ne_of_lt (h.hints id j i hj hi).1)
    · intro c' hc'
      rcases List.mem_append.mp hc' with hc' | hc'
      · exact h.text c' hc'
      · rw [List.mem_singleton.mp hc']
        exact h.lock_text c done hl
    · rw [hlog, Lock.fresh, if_pos hc.2]
    · intro id
      by_cases hid : id = s.writer.currentFileId
      · subst hid
        have hseg := segsOf_some (Function.update recs s.writer.file (recs s.writer.file ++ [c]))
          h.rep.core.cur_dir
        refine Eq.trans ?_ (congrArg events hseg).symm
        rw [Function.update_self, events_append, ← h.seg_cur, ← h.cur, List.append_assoc]
        exact CompactingLog.withTail_self
      · have hseg : segsOf (Function.update recs s.writer.file (recs s.writer.file ++ [c])) s.fs id =
            segsOf recs s.fs id := segsOf_congr rfl fun hi => hrecs hi hid
        refine Eq.trans ?_ (congrArg events hseg).symm
        have hne : id ≠ a.cur := by rw [h.cur]; exact hid
        exact (CompactingLog.withTail_ne hne).trans (h.seg_eq hid)
    · show a.durable ++ (a.volatile ++ [event c]) = _
      rw [← List.append_assoc, events_append]
      exact congrArg (· ++ _) h.log_eq
    · refine h.phase.trans (Merge.phase_congr fun out ho => ?_).symm
      exact Function.update_of_ne (h.rep.file_not_held ho).1.symm ..
    · exact h.covers
  · rw [if_neg hc] at hlogged
    rw [hlogged, List.append_nil, Function.update_eq_self] at hrep
    rw [hlogged, List.append_nil]
    refine ⟨recs, a, ?_, .refl, rfl, fun i => List.prefix_rfl⟩
    refine h.quiet hrep (fun _ => rfl) (fun _ => rfl) ?_ rfl rfl ?_ htext a.phase h.inv h.phase h.covers
    · refine h.hints.congr le_rfl (fun {id j} hj _ => ⟨hj, Fs.bytes_append_ne ?_ _⟩)
        (fun hi _ => ⟨hi, rfl⟩)
      rintro rfl
      cases s.fs.dir_inj _ _ _ hj h.rep.core.cur_dir
    · rw [hl, Lock.fresh, Lock.fresh]
      by_cases hd : done = (c.serialize crc).length
      · rw [if_pos hd, if_pos (by omega)]
      · rw [if_neg hd, if_neg (by omega)]

theorem loc_insert (h : ∀ k, a.loc k = (s.index.get k).map IndexValue.pos) (key : Bytes)
    (e : IndexValue) (k : Bytes) :
    Function.update a.loc key (some e.pos) k = ((s.index.insert key e).get k).map IndexValue.pos := by
  by_cases hk : k = key
  · subst hk; rw [Function.update_self, Index.get_insert_self]; rfl
  · rw [Function.update_of_ne hk, Index.get_insert_ne hk, h]

theorem loc_remove (h : ∀ k, a.loc k = (s.index.get k).map IndexValue.pos) (key k : Bytes) :
    Function.update a.loc key none k = ((s.index.remove key).get k).map IndexValue.pos := by
  by_cases hk : k = key
  · subst hk; rw [Function.update_self, Index.get_remove_self]; rfl
  · rw [Function.update_of_ne hk, Index.get_remove_ne hk, h]

/-- The index learns of the record. -/
theorem Link.publish (h : Link crc cfg recs log pub s a) {c : Command}
    (hl : s.lock = .writing c (c.serialize crc).length) :
    ∃ a', Link crc cfg recs log log (s.publish crc c) a' ∧
      Relation.ReflTransGen CompactingLog.Step a a' ∧ a'.durable = a.durable := by
  have hrep := h.rep.publish hl
  have hfresh : s.lock.fresh crc = [c] := by rw [hl, Lock.fresh, if_pos rfl]
  have hlog : log = pub ++ [c] := by rw [h.fresh, hfresh]
  have hlr := h.rep.lock
  rw [hl] at hlr
  obtain ⟨-, -, old, hrecs, -, hoff⟩ := hlr
  rw [if_pos rfl] at hrecs
  have hat : At crc (recs s.writer.file) s.writer.offset c := by
    rw [hrecs, hoff]; exact At.last old c
  have hstep : CompactingLog.Step a _ := .publish (event c) ⟨a.cur, s.writer.offset⟩
    (by rw [h.log_eq, h.pub_eq, hlog, events_append]; rfl) rfl
  refine ⟨_, ⟨hrep, hstep.inv h.inv, ?_, h.hints, h.text, ?_, ?_, h.segs, h.cur, h.log_eq, h.log_eq,
    fun k => ?_, h.phase, h.covers⟩, .single hstep, rfl⟩
  · rw [hlog, events_append]
    cases c with
    | set ts key v => exact h.represents.insert h.rep.core.cur_dir hat rfl
    | rm ts key => exact h.represents.remove key
  · intro c' done hc
    cases hc
  · exact (List.append_nil log).symm
  · cases c with
    | set ts key v =>
      rw [h.cur]
      exact loc_insert h.loc key ⟨s.writer.currentFileId, ts, s.writer.offset, _⟩ k
    | rm ts key => exact loc_remove h.loc key k

/-- A new active file. -/
theorem Link.rotateCreate (h : Link crc cfg recs log pub s a) {next : ℕ} {caller : Caller}
    (hl : s.lock = .rotateTo .create next caller) (hv : a.volatile = []) (now : ℕ) :
    ∃ recs' a', Link crc cfg recs' log pub (s.rotateTo now .create next caller) a' ∧
      Relation.ReflTransGen CompactingLog.Step a a' ∧ a'.durable = a.durable ∧
      ∀ i < s.fs.next, recs' i = recs i := by
  have hrep := h.rep.rotateCreate hl now
  have hlr := h.rep.lock
  rw [hl] at hlr
  obtain ⟨-, hlt⟩ := hlr
  have hnew := h.rep.lookup_next hlt
  have hfresh : s.lock.fresh crc = [] := by rw [hl]; rfl
  have hpub : a.pub = a.log := by rw [h.pub_eq, h.log_eq, h.fresh, hfresh, List.append_nil]
  have hstep : CompactingLog.Step a { a with cur := next } :=
    .rotate next (by rw [h.cur]; exact hlt) hv hpub
  have hrecs : ∀ i < s.fs.next, Function.update recs s.fs.next [] i = recs i := fun i hi =>
    Function.update_of_ne (Nat.ne_of_lt hi) ..
  have hother : ∀ {n}, n ≠ .data next → (s.fs.create (.data next)).lookup n = s.fs.lookup n :=
    fun hn => Fs.lookup_create_ne hn
  have hold : ∀ {id i}, s.fs.lookup (.data id) = some i → id ≠ next := by
    rintro id i hi rfl
    rw [hnew] at hi; cases hi
  refine ⟨_, _, ⟨hrep, hstep.inv h.inv, ?_, ?_, h.text, ?_, ?_, fun id => ?_, rfl, h.log_eq, h.pub_eq,
    h.loc, ?_, ?_⟩, .single hstep, rfl, hrecs⟩
  · refine h.represents.frame fun {k e i} _ hi => ⟨?_, by rw [hrecs i (s.fs.dir_lt _ _ hi)]⟩
    exact (hother (by simpa using hold hi)).trans hi
  · have hhint : ∀ {id}, s.fs.lookup (.hint id) ≠ none → id ≠ next := by
      rintro id hid rfl
      have := h.rep.names id (Or.inr hid)
      omega
    refine h.hints.congr hlt.le (fun {id j} hj _ => ?_) (fun {id i} hi hj => ?_)
    · have hj' : s.fs.lookup (.hint id) = some j := (hother (by simp)).symm.trans hj
      exact ⟨hj', Fs.bytes_create_of_lt (s.fs.dir_lt _ _ hj')⟩
    · have hj' : s.fs.lookup (.hint id) ≠ none := fun he => hj ((hother (by simp)).trans he)
      have hi' : s.fs.lookup (.data id) = some i :=
        (hother (by simpa using hhint hj')).symm.trans hi
      exact ⟨hi', hrecs i (s.fs.dir_lt _ _ hi')⟩
  · intro c done hc
    cases hc
  · exact h.fresh.trans (by rw [hfresh]; rfl)
  · rw [hv, CompactingLog.withTail_nil]
    by_cases hid : id = next
    · subst hid
      have hseg := segsOf_some (Function.update recs s.fs.next [])
        (Fs.lookup_create_self_of_none hnew)
      refine Eq.trans ?_ (congrArg events hseg).symm
      rw [Function.update_self]
      exact h.inv.le_cur id (by rw [h.cur]; exact hlt)
    · have hseg : segsOf (Function.update recs s.fs.next []) (s.fs.create (.data next)) id =
          segsOf recs s.fs id :=
        segsOf_congr (hother (by simpa using hid)) fun hi => hrecs _ (s.fs.dir_lt _ _ hi)
      refine Eq.trans ?_ (congrArg events hseg).symm
      rw [← h.segs, hv, CompactingLog.withTail_nil]
  · refine h.phase.trans (Merge.phase_congr fun out ho => ?_).symm
    obtain ⟨n, hn⟩ := h.rep.held_name ho
    exact hrecs _ (s.fs.dir_lt _ _ hn)
  · intro r hr
    obtain ⟨hs, hc⟩ := h.covers r hr
    refine ⟨hs, fun id hid hne => hc id hid ?_⟩
    -- the new file is above the sources
    have hmr := h.rep.merge
    rw [show s.merge = .rotating r from hr, hl] at hmr
    obtain ⟨-, -, -, bar, -, hcur, -⟩ := hmr
    replace hcur : s.writer.currentFileId = r.firstCompactedFileId := hcur
    have hidn : id ≠ next := by omega
    exact fun he => hne ((hother (by simpa using hidn)).trans he)

/-- The merge has rotated the active file and begins to walk its snapshot. -/
theorem Link.startWalk (h : Link crc cfg recs log pub s a) {next : ℕ} {r : MergeRun}
    (hl : s.lock = .rotateTo .reader next .compaction) (hm : s.merge = .rotating r) :
    CompactingLog.Step a { a with phase := r.walk [] } := by
  have hlr := h.rep.lock
  rw [hl] at hlr
  have hmr := h.rep.merge
  rw [hm, hl] at hmr
  obtain ⟨hp, hids, hnext, bar, -, hcur, hrun⟩ := hmr
  have hcur : s.writer.currentFileId = bar := hcur
  have hnil : a.segs s.writer.currentFileId ++ a.volatile = [] := by
    rw [h.seg_cur, hlr.2.1]; rfl
  obtain ⟨hsorted, hlow⟩ := h.covers r hm
  have hsources : r.idsToRemove ++ r.todoIds = r.todoIds := by rw [hids]; rfl
  have hfirst : ∀ j ∈ r.todoIds, j < r.firstCompactedFileId := by
    intro j hj
    obtain ⟨f, hf, rfl⟩ := List.mem_map.mp hj
    exact (hrun.todo f hf).2
  have hlt : r.nextCompactionFileId < s.writer.currentFileId := by rw [hcur]; exact hrun.next_lt
  refine .start _ (List.append_eq_nil_iff.mp hnil).2 ?_ hnext.ge ?_ ?_ ?_ ?_ ?_ rfl ?_
  · rw [h.pub_eq, h.log_eq, h.fresh, hl]
    exact congrArg events (List.append_nil pub).symm
  · rw [h.cur]; exact hlt
  · show (r.idsToRemove ++ r.todoIds).Pairwise (· < ·)
    rw [hsources]; exact hsorted
  · show ∀ j ∈ r.idsToRemove ++ r.todoIds, j < r.firstCompactedFileId
    rw [hsources]; exact hfirst
  · intro j hj hne
    show j ∈ r.idsToRemove ++ r.todoIds
    rw [hsources]
    have hj : j < r.firstCompactedFileId := hj
    refine hlow j hj fun hnone => hne ?_
    rw [h.seg_eq (by omega), segsOf_none _ hnone]
    rfl
  · intro p hp
    show p.seg ∈ r.todoIds
    have hp : p.seg ∈ r.idsToRemove ++ r.todoIds := hp
    rwa [hsources] at hp
  · show r.pendingRecords.map PendingUpdate.move = []
    rw [hp]; rfl

/-- The new active file gets its handle, and the lock is released. -/
theorem Link.rotateReader (h : Link crc cfg recs log pub s a) {next : ℕ} {caller : Caller}
    {i : Inode} (hl : s.lock = .rotateTo .reader next caller)
    (hi : s.fs.lookup (.data next) = some i) :
    ∃ a', Link crc cfg recs log pub ((s.readersUpdate next i).endRotate caller) a' ∧
      Relation.ReflTransGen CompactingLog.Step a a' ∧ a'.durable = a.durable := by
  have hrep := h.rep.rotateReader hl hi
  have hfresh : Lock.fresh crc .free = s.lock.fresh crc := by rw [hl]; rfl
  unfold Sys.endRotate at hrep ⊢
  split at hrep
  · rename_i r hm
    have hm : s.merge = .rotating r := hm
    have hstep := h.startWalk hl hm
    refine ⟨_, ?_, .single hstep, rfl⟩
    exact h.quiet hrep (fun _ => rfl) (fun _ => rfl) h.hints rfl rfl hfresh (by simp)
      _ (hstep.inv h.inv) rfl (by simp)
  · exact ⟨a, h.private hrep (fun _ => rfl) rfl rfl rfl rfl hfresh (by simp), .refl, rfl⟩

/-- `rotate_to` fails before it creates the next file. -/
theorem Link.failRotate (h : Link crc cfg recs log pub s a) {st : RotateStep} {next : ℕ}
    {caller : Caller} (hl : s.lock = .rotateTo st next caller) (hst : st = .sync ∨ st = .create)
    (e : KvsError) :
    ∃ a', Link crc cfg recs log pub (s.failRotate caller e) a' ∧
      Relation.ReflTransGen CompactingLog.Step a a' ∧ a'.durable = a.durable := by
  have hrep := h.rep.failRotate hl hst e
  have hfresh : Lock.fresh crc .free = s.lock.fresh crc := by rw [hl]; rfl
  cases caller with
  | append c =>
    exact ⟨a, h.private hrep (fun _ => rfl) rfl rfl rfl rfl hfresh (by simp [Sys.failRotate]), .refl,
      rfl⟩
  | compaction =>
    have hstep : CompactingLog.Step a { a with phase := .idle } := .abort
    refine ⟨_, ?_, .single hstep, rfl⟩
    exact h.quiet hrep (fun _ => rfl) (fun _ => rfl) h.hints rfl rfl hfresh
      (by simp [Sys.failRotate]) _ (hstep.inv h.inv) rfl (by simp [Sys.failRotate])

end Writer

end Bitcask
