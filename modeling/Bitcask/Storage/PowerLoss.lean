import Bitcask.Storage.Durable

/-!
# Power loss

A power loss leaves of every file the part that is synced and possibly more. `PowerRun` lists the
worlds that sessions can arrive at, with the commands whose records were synced.

`power_loss_recovery`: whenever a source of a merge is removed, let every key that has a value in the
synced log have a synced record in another file. Then `open` recovers a prefix of the log that has
all synced commands. Without this a merge removes a synced record because of a newer one that is not
synced, and a power loss takes both (`merge_loses_synced`).
-/

namespace Bitcask

open LittleEndian FileSystem SegmentedLog CrashHoare

/-! ## A directory that is cut -/

/-- What the data files say without the records of the file `cur` after the first `n`. -/
def cutSegs (recs : Inode → List Command) (fs : Fs FileName) (cur n id : ℕ) :
    List (Bytes × Option Bytes) :=
  if id = cur then events ((segsOf recs fs id).take n) else events (segsOf recs fs id)

/-- The directory holds the log. All files that matter are synced, but for the last data file, of
which the first `n` records are; without the others the directory holds `d`. -/
structure Cut (crc : Bytes → UInt32) (fs : Fs FileName) (log d : List Command) (cur : ℕ)
    (file : Inode) (n : ℕ) : Prop where
  disk : Disk crc fs log
  current : fs.lookup (.data cur) = some file
  le_current : ∀ {id i}, fs.lookup (.data id) = some i → id ≤ cur
  le : n ≤ (recordsIn crc fs file).length
  active : fs.synced file = (encodeAll crc ((recordsIn crc fs file).take n)).length
  others : ∀ {m i}, Kept fs m → fs.lookup m = some i → i ≠ file → Synced fs i
  covered : d <+: log
  rest : events log = events d ++ events ((recordsIn crc fs file).drop n)
  final : ∀ k, Final (cutSegs (recordsIn crc fs) fs cur n) k (valueOf k d)

section Cut

variable {crc : Bytes → UInt32} {fs fs' : Fs FileName} {log d : List Command} {cur n : ℕ}
  {file : Inode}

theorem cutSegs_self (recs : Inode → List Command) (h : fs.lookup (.data cur) = some file) :
    cutSegs recs fs cur n cur = events ((recs file).take n) := by
  rw [cutSegs, if_pos rfl, segsOf_some _ h]

theorem cutSegs_ne (recs : Inode → List Command) {id : ℕ} (h : id ≠ cur) :
    cutSegs recs fs cur n id = events (segsOf recs fs id) := if_neg h

/-- The part that is cut off, put back. -/
theorem withTail_cutSegs (recs : Inode → List Command) (h : fs.lookup (.data cur) = some file)
    {us : List Command} {m : ℕ} (hus : (recs file).take m = (recs file).take n ++ us) (id : ℕ) :
    CompactingLog.withTail (cutSegs recs fs cur n) cur (events us) id = cutSegs recs fs cur m id := by
  by_cases hid : id = cur
  · rw [hid, CompactingLog.withTail_self, cutSegs_self recs h, cutSegs_self recs h, hus, events_append]
  · rw [CompactingLog.withTail_ne hid, cutSegs_ne recs hid, cutSegs_ne recs hid]

theorem PowerLoss.lookup (h : fs.PowerLoss fs') (m : FileName) : fs'.lookup m = fs.lookup m := by
  unfold Fs.lookup
  rw [h.1]

/-- A synced file survives. -/
theorem Synced.survives {i : Inode} (hs : Synced fs i) (h : fs.PowerLoss fs') :
    fs'.bytes i = fs.bytes i := by
  obtain ⟨m, hm, hb⟩ := h.2.2 i
  rw [hb]
  exact List.take_of_length_le (hs.trans hm)

theorem events_take (cs : List Command) (n : ℕ) : events (cs.take n) = (events cs).take n :=
  List.map_take

theorem events_drop (cs : List Command) (n : ℕ) : events (cs.drop n) = (events cs).drop n :=
  List.map_drop

/-- What a power loss leaves of the last data file. -/
theorem Cut.active_survives (h : Cut crc fs log d cur file n) (hloss : fs.PowerLoss fs') :
    ∃ n' t, fs'.bytes file = encodeAll crc ((recordsIn crc fs file).take n') ++ t ∧
      (t = [] ∨ Torn t) ∧ n ≤ n' ∧ n' ≤ (recordsIn crc fs file).length ∧
      recordsIn crc fs' file = (recordsIn crc fs file).take n' := by
  obtain ⟨m, hm, hb⟩ := hloss.2.2 file
  obtain ⟨t, hbytes, ht, hfits⟩ := (h.disk.openable.2 h.current).1.eq
  obtain ⟨n', t', heq, ht', hn', hmax⟩ := take_encodeAll crc hfits ht m
  refine ⟨n', t', ?_, ht', hmax n h.le (h.active ▸ hm), hn', ?_⟩
  · rw [hb, hbytes]
    exact heq
  · rw [recordsIn, hb, hbytes, heq]
    exact recordsOf_encodeAll (fun c hc => hfits c (List.mem_of_mem_take hc)) ht'

theorem Cut.ne_file (h : Cut crc fs log d cur file n) {id : ℕ} {i : Inode}
    (hi : fs.lookup (.data id) = some i) (hid : id ≠ cur) : i ≠ file := by
  rintro rfl
  exact hid (FileName.data.inj (fs.dir_inj _ _ _ hi h.current))

theorem Cut.data_survives (h : Cut crc fs log d cur file n) (hloss : fs.PowerLoss fs') {id : ℕ}
    {i : Inode} (hi : fs.lookup (.data id) = some i) (hne : i ≠ file) : fs'.bytes i = fs.bytes i :=
  (h.others (kept_data fs _) hi hne).survives hloss

/-- A hint file that is read at the next open is whole, and so is its data file. -/
theorem Cut.hint_survives (h : Cut crc fs log d cur file n) (hloss : fs.PowerLoss fs') {id : ℕ}
    {i j : Inode} (hj : fs.lookup (.hint id) = some j) (hi : fs.lookup (.data id) = some i) :
    fs'.bytes i = fs.bytes i ∧ fs'.bytes j = fs.bytes j := by
  obtain ⟨⟨id', hlt, hd⟩, -⟩ := h.disk.hints id j i hj hi
  obtain ⟨i', hi'⟩ := Option.ne_none_iff_exists'.mp hd
  have hid : id ≠ cur := Nat.ne_of_lt (hlt.trans_le (h.le_current hi'))
  refine ⟨h.data_survives hloss hi (h.ne_file hi hid), Synced.survives ?_ hloss⟩
  refine h.others (kept_hint hi) hj ?_
  rintro rfl
  cases fs.dir_inj _ _ _ hj h.current

theorem Cut.marker_survives (h : Cut crc fs log d cur file n) (hloss : fs.PowerLoss fs') :
    fs'.read .lock = fs.read .lock := by
  refine Fs.read_congr (PowerLoss.lookup hloss _) fun i hi => Synced.survives ?_ hloss
  refine h.others (kept_lock fs) hi ?_
  rintro rfl
  cases fs.dir_inj _ _ _ hi h.current

/-- Only the active file may end in a torn record. -/
theorem Cut.openable_survives (h : Cut crc fs log d cur file n) (hloss : fs.PowerLoss fs') :
    Openable crc fs' := by
  have hlook := PowerLoss.lookup hloss
  refine ⟨by rw [h.marker_survives hloss]; exact h.disk.openable.1, fun {id i} hi => ?_⟩
  rw [hlook] at hi
  by_cases hid : id = cur
  · obtain ⟨n', t, hb, ht, -⟩ := h.active_survives hloss
    obtain ⟨-, -, -, hfits⟩ := (h.disk.openable.2 h.current).1.eq
    obtain rfl : i = file := by
      rw [hid, h.current] at hi
      exact (Option.some.inj hi).symm
    refine ⟨⟨_, t, hb, ht, fun c hc => hfits c (List.mem_of_mem_take hc)⟩, ?_⟩
    rintro ⟨id', hlt, hd⟩
    rw [hlook] at hd
    obtain ⟨i', hi'⟩ := Option.ne_none_iff_exists'.mp hd
    have := h.le_current hi'
    omega
  · rw [h.data_survives hloss hi (h.ne_file hi hid)]
    refine ⟨(h.disk.openable.2 hi).1, ?_⟩
    rintro ⟨id', hlt, hd⟩
    exact (h.disk.openable.2 hi).2 ⟨id', hlt, by rwa [hlook] at hd⟩

/-- The directory holds what was synced and the records between that and the cut. -/
theorem Cut.final_survives (h : Cut crc fs log d cur file n) (hloss : fs.PowerLoss fs') {n' : ℕ}
    (hle : n ≤ n') (hrec : recordsIn crc fs' file = (recordsIn crc fs file).take n')
    {p : List Command}
    (hp : events p = events d ++ events (((recordsIn crc fs file).drop n).take (n' - n)))
    (k : Bytes) : Final (fun id => events (segsOf (recordsIn crc fs') fs' id)) k (valueOf k p) := by
  have hlook := PowerLoss.lookup hloss
  have hcur : ∀ j, cur < j → cutSegs (recordsIn crc fs) fs cur n j = [] := by
    intro j hj
    rw [cutSegs_ne _ (Nat.ne_of_gt hj)]
    cases hi : fs.lookup (.data j) with
    | none =>
      rw [segsOf_none _ hi]
      rfl
    | some i => exact absurd (h.le_current hi) (Nat.not_le_of_lt hj)
  have hsplit : (recordsIn crc fs file).take n' = (recordsIn crc fs file).take n ++
      ((recordsIn crc fs file).drop n).take (n' - n) := by
    rw [← List.take_add, Nat.add_sub_cancel' hle]
  rw [valueOf, hp]
  refine (CompactingLog.final_withTail hcur (h.final k)).congr fun id => congrArg (lastOf k) ?_
  rw [withTail_cutSegs _ h.current hsplit]
  by_cases hid : id = cur
  · rw [hid, cutSegs_self _ h.current, segsOf_some _ ((hlook _).trans h.current), hrec]
  · rw [cutSegs_ne _ hid]
    exact congrArg events (segsOf_congr (hlook _) fun hi => by
      rw [recordsIn, recordsIn, h.data_survives hloss hi (h.ne_file hi hid)])

/-- A power loss leaves a prefix of the log, with everything that was synced. -/
theorem Cut.powerLoss (h : Cut crc fs log d cur file n) (hloss : fs.PowerLoss fs') :
    ∃ p, d <+: p ∧ p <+: log ∧ Disk crc fs' p := by
  have hlook := PowerLoss.lookup hloss
  obtain ⟨n', -, -, -, hle, -, hrec⟩ := h.active_survives hloss
  obtain ⟨l, rfl⟩ := h.covered
  have hl : events l = events ((recordsIn crc fs file).drop n) := by
    have hrest := h.rest
    rw [events_append] at hrest
    exact List.append_cancel_left hrest
  have hp : events (d ++ l.take (n' - n)) =
      events d ++ events (((recordsIn crc fs file).drop n).take (n' - n)) := by
    rw [events_append, events_take, hl, ← events_take]
  refine ⟨d ++ l.take (n' - n), List.prefix_append .., ?_, ?_⟩
  · exact (List.prefix_append_right_inj d).mpr (List.take_prefix ..)
  refine ⟨h.openable_survives hloss, fun {id j i} hj hi => ?_, fun {id i} hi => ?_,
    fun id j i hj hi => ?_, fun id hj => ?_, fun c hc => ?_, h.final_survives hloss hle hrec hp⟩
  · rw [hlook] at hj hi
    obtain ⟨hbi, hbj⟩ := h.hint_survives hloss hj hi
    rw [hbj, hbi]
    exact h.disk.faithful hj hi
  · rw [hlook] at hi
    obtain ⟨m, -, hbm⟩ := hloss.2.2 i
    rw [hbm, List.length_take]
    exact (Nat.min_le_right ..).trans_lt (h.disk.bounded hi)
  · rw [hlook] at hj hi
    obtain ⟨⟨id', hlt, hd⟩, hsets⟩ := h.disk.hints id j i hj hi
    refine ⟨⟨id', hlt, by rwa [hlook]⟩, ?_⟩
    rw [recordsIn, (h.hint_survives hloss hj hi).1]
    exact hsets
  · rw [hlook] at hj
    obtain ⟨id', hd⟩ := h.disk.hint_data id hj
    exact ⟨id', by rwa [hlook]⟩
  · refine h.disk.text c ?_
    rcases List.mem_append.mp hc with hc | hc
    · exact List.mem_append_left _ hc
    · exact List.mem_append_right _ (List.mem_of_mem_take hc)

end Cut

/-! ## Runs -/

/-- The commands whose records were synced, after a step to `s`: all that are logged, if the active
file is synced to its end. -/
def coveredBy (s : Sys) (log d : List Command) : List Command :=
  if (s.fs.bytes s.writer.file).length ≤ s.fs.synced s.writer.file then log else d

/-- The worlds reached from the empty directory by steps of the kind `P`, with the commands whose
appends are over and with those of the log whose records were synced. A process may die at any
moment outside of `open`. -/
inductive PowerRun (crc : Bytes → UInt32) (P : List Command → Sys → Act → Prop) :
    World → List Command → List Command → Prop
  | empty : PowerRun crc P (.closed Fs.empty) [] []
  | opened {fs : Fs FileName} {ops d : List Command} {listing : List FileName} {now : ℕ} {s : Sys}
      (cfg : Config) (h : PowerRun crc P (.closed fs) ops d) (hlist : (fs.create .lock).Lists listing)
      (hopen : (openStore crc listing now fs).result = .ok s) : PowerRun crc P (.running cfg s) ops d
  | act {cfg : Config} {s s' : Sys} {ops d : List Command} {a : Act}
      (h : PowerRun crc P (.running cfg s) ops d) (hp : P d s a) (hs : step crc cfg s a = some s') :
      PowerRun crc P (.running cfg s') (ops ++ finished crc s s')
        (coveredBy s' (ops ++ finished crc s s' ++ s'.lock.written crc) d)
  | crash {cfg : Config} {s : Sys} {ops d : List Command} (h : PowerRun crc P (.running cfg s) ops d) :
      PowerRun crc P (.closed s.fs) (ops ++ s.lock.written crc) d
  | close {cfg : Config} {s : Sys} {ops d : List Command} {fs : Fs FileName}
      (h : PowerRun crc P (.running cfg s) ops d) (hc : s.close = some fs) :
      PowerRun crc P (.closed fs) ops (if s.lock = .free then ops else d)

/-- The source that the merge removes next. -/
def Merge.removes : Merge → List ℕ
  | .removeData (id :: _) _ => [id]
  | _ => []

/-- The keys of the records in the synced part of a file. -/
def syncedKeys (crc : Bytes → UInt32) (fs : Fs FileName) (i : Inode) : List Bytes :=
  (recordsOf crc ((fs.bytes i).take (fs.synced i))).map Command.getKey

/-- When a source is removed, every key that has a value after the synced commands `d` has a synced
record in another data file. -/
def KeepsSynced (crc : Bytes → UInt32) (d : List Command) (s : Sys) : Act → Prop
  | .merge => ∀ id ∈ s.merge.removes, ∀ c ∈ d, plainMap d c.getKey ≠ none →
    ∃ f ∈ s.readers.toList, f.1 ≠ id ∧ s.fs.lookup (.data f.1) = some f.2 ∧
      c.getKey ∈ syncedKeys crc s.fs f.2
  | _ => True

instance (crc : Bytes → UInt32) (d : List Command) (s : Sys) : DecidablePred (KeepsSynced crc d s)
  | .merge => inferInstanceAs (Decidable (∀ id ∈ s.merge.removes, ∀ c ∈ d,
      plainMap d c.getKey ≠ none → ∃ f ∈ s.readers.toList, f.1 ≠ id ∧
        s.fs.lookup (.data f.1) = some f.2 ∧ c.getKey ∈ syncedKeys crc s.fs f.2))
  | .begin _ _ | .write _ | .writer _ | .start | .spill _ _ | .writerErr _ | .mergeErr _ _ _ =>
    .isTrue trivial

/-- The steps `acts`, all of the kind `P`, with the commands that are over and the synced ones. -/
def powerSteps (crc : Bytes → UInt32) (cfg : Config) (P : List Command → Sys → Act → Prop)
    [∀ d s a, Decidable (P d s a)] :
    List Act → Sys → List Command → List Command → Option (Sys × List Command × List Command)
  | [], s, ops, d => some (s, ops, d)
  | a :: acts, s, ops, d =>
    if P d s a then
      (step crc cfg s a).bind fun s' => powerSteps crc cfg P acts s' (ops ++ finished crc s s')
        (coveredBy s' (ops ++ finished crc s s' ++ s'.lock.written crc) d)
    else none

theorem PowerRun.of_steps {crc : Bytes → UInt32} {cfg : Config} {P : List Command → Sys → Act → Prop}
    [∀ d s a, Decidable (P d s a)] {acts : List Act} {s s' : Sys} {ops ops' d d' : List Command}
    (h : PowerRun crc P (.running cfg s) ops d)
    (hs : powerSteps crc cfg P acts s ops d = some (s', ops', d')) :
    PowerRun crc P (.running cfg s') ops' d' := by
  induction acts generalizing s ops d with
  | nil =>
    cases hs
    exact h
  | cons a acts ih =>
    unfold powerSteps at hs
    split at hs
    · rename_i hp
      obtain ⟨s₁, hs₁, hs⟩ := Option.bind_eq_some_iff.mp hs
      exact ih (.act h hp hs₁) hs
    · cases hs

theorem PowerRun.firstSession {crc : Bytes → UInt32} {cfg : Config}
    {P : List Command → Sys → Act → Prop} [∀ d s a, Decidable (P d s a)] {acts : List Act} {s : Sys}
    {ops d : List Command} (hs : powerSteps crc cfg P acts (emptyStore crc) [] [] = some (s, ops, d)) :
    PowerRun crc P (.running cfg s) ops d :=
  PowerRun.of_steps (.opened cfg .empty lists_empty (emptyStore_opened crc)) hs

/-- A power loss that leaves `m` bytes of one file and all of the others. -/
def cutAt (fs : Fs FileName) (i : Inode) (m : ℕ) : Fs FileName :=
  { fs with bytes := Function.update fs.bytes i ((fs.bytes i).take m) }

theorem powerLoss_cutAt {fs : Fs FileName} {i : Inode} {m : ℕ} (h : fs.synced i ≤ m) :
    fs.PowerLoss (cutAt fs i m) := by
  refine ⟨rfl, rfl, fun j => ?_⟩
  by_cases hj : j = i
  · exact ⟨m, hj ▸ h, by rw [hj]; exact Function.update_self ..⟩
  · refine ⟨max (fs.bytes j).length (fs.synced j), Nat.le_max_right .., ?_⟩
    rw [List.take_of_length_le (Nat.le_max_left ..)]
    exact Function.update_of_ne hj ..

/-! ## A running store -/

/-- A running store whose synced commands are `d`: they are the durable part of the log of the
abstract machine. -/
structure Running (crc : Bytes → UInt32) (cfg : Config) (ops d : List Command) (s : Sys) : Prop where
  marker : s.fs.read .lock = some (asBytes engine)
  tight : Tight s
  covered : d <+: ops ++ s.lock.written crc
  link : ∃ recs pub a, Link crc cfg recs (ops ++ s.lock.written crc) pub s a ∧
    Durable crc recs s (a.segs s.writer.currentFileId).length ∧ a.durable = events d

section Running

variable {crc : Bytes → UInt32} {cfg : Config} {recs : Inode → List Command}
  {log pub ops d : List Command} {s s' : Sys} {a : CompactingLog.State Bytes Bytes} {act : Act}

/-- The durable and the volatile events of the active file. -/
theorem Link.active_split (h : Link crc cfg recs log pub s a) :
    a.segs s.writer.currentFileId =
        events ((recs s.writer.file).take (a.segs s.writer.currentFileId).length) ∧
      a.volatile = events ((recs s.writer.file).drop (a.segs s.writer.currentFileId).length) := by
  rw [events_take, events_drop, ← h.seg_cur]
  exact ⟨List.take_left.symm, List.drop_left.symm⟩

/-- The durable segments of the machine. -/
theorem Link.segs_durable (h : Link crc cfg recs log pub s a) (id : ℕ) :
    a.segs id = cutSegs recs s.fs s.writer.currentFileId (a.segs s.writer.currentFileId).length id := by
  by_cases hid : id = s.writer.currentFileId
  · rw [hid, cutSegs_self recs h.rep.core.cur_dir]
    exact h.active_split.1
  · rw [cutSegs_ne recs hid]
    exact h.seg_eq hid

/-- A crash leaves a cut directory. -/
theorem Running.cut (h : Running crc cfg ops d s) : ∃ n,
    Cut crc s.fs (ops ++ s.lock.written crc) d s.writer.currentFileId s.writer.file n := by
  obtain ⟨recs, pub, a, hl, hdur, hd⟩ := h.link
  have hcur := hl.rep.core.cur_dir
  have hrec : ∀ {id i}, s.fs.lookup (.data id) = some i → recordsIn crc s.fs i = recs i :=
    fun hi => (hl.rep.recordsIn_eq hi).1
  refine ⟨(a.segs s.writer.currentFileId).length, hl.disk (Or.inr (Or.inr h.marker)), hcur,
    fun hi => hl.rep.core.rd_le (hl.rep.core.dir_rd hi), ?_, ?_, hdur.others, h.covered, ?_,
    fun k => ?_⟩
  · rw [hrec hcur]
    exact hdur.le
  · rw [hrec hcur]
    exact hdur.active
  · rw [hrec hcur, ← hl.active_split.2, ← hd]
    exact hl.log_eq.symm
  · have hfinal := hl.inv.final k
    rw [hd] at hfinal
    refine hfinal.congr fun id => congrArg (lastOf k) ?_
    rw [hl.segs_durable id]
    by_cases hid : id = s.writer.currentFileId
    · rw [hid, cutSegs_self _ hcur, cutSegs_self _ hcur, hrec hcur]
    · rw [cutSegs_ne _ hid, cutSegs_ne _ hid]
      exact congrArg events (segsOf_congr rfl hrec)

/-- The abstract machine when a store is opened, of which `n` records of the active file are
synced. -/
def cutState (recs : Inode → List Command) (log d : List Command) (s : Sys) (n : ℕ) :
    CompactingLog.State Bytes Bytes where
  segs := cutSegs recs s.fs s.writer.currentFileId n
  cur := s.writer.currentFileId
  durable := events d
  volatile := events ((recs s.writer.file).drop n)
  pub := events log
  loc k := (s.index.get k).map IndexValue.pos
  phase := .idle

theorem Link.cutState (h : Link crc cfg recs log log s (openedState recs log s)) {n : ℕ}
    (hrest : events log = events d ++ events ((recs s.writer.file).drop n))
    (hfinal : ∀ k, Final (cutSegs recs s.fs s.writer.currentFileId n) k (valueOf k d)) :
    Link crc cfg recs log log s (cutState recs log d s n) := by
  have hcur := h.rep.core.cur_dir
  -- together the two parts are the whole file
  have htail : ∀ id, CompactingLog.withTail (cutSegs recs s.fs s.writer.currentFileId n)
      s.writer.currentFileId (events ((recs s.writer.file).drop n)) id =
        events (segsOf recs s.fs id) := by
    intro id
    by_cases hid : id = s.writer.currentFileId
    · rw [hid, CompactingLog.withTail_self, cutSegs_self recs hcur, ← events_append,
        List.take_append_drop, segsOf_some _ hcur]
    · rw [CompactingLog.withTail_ne hid, cutSegs_ne recs hid]
  refine ⟨h.rep, ⟨Or.inl hrest, fun j hj => ?_, hfinal, h.inv.live, fun k p hp => ?_, trivial⟩,
    h.represents, h.hints, h.text, h.lock_text, h.fresh, htail, h.cur, hrest.symm, h.pub_eq, h.loc,
    h.phase, h.covers⟩
  · exact (cutSegs_ne recs (Nat.ne_of_gt hj)).trans (h.inv.le_cur j hj)
  · have hseg : lastOf k (CompactingLog.withTail (openedState recs log s).segs _ [] p.seg) ≠ none :=
      h.inv.seg k p hp
    rw [CompactingLog.withTail_nil] at hseg
    show lastOf k (CompactingLog.withTail (cutSegs recs s.fs s.writer.currentFileId n)
      s.writer.currentFileId (events ((recs s.writer.file).drop n)) p.seg) ≠ none
    rw [htail]
    exact hseg

/-- The files of an opened store that matter are synced, if they were. -/
theorem Opened.others {fs₀ : Fs FileName} (ho : Opened crc fs₀ s)
    (hothers : ∀ {m i}, Kept fs₀ m → fs₀.lookup m = some i → i ≠ s.writer.file → Synced fs₀ i)
    (hmarker : MarkerSynced fs₀) {m : FileName} {i : Inode} (hk : Kept s.fs m)
    (hi : s.fs.lookup m = some i) (hne : i ≠ s.writer.file) : Synced s.fs i := by
  have hdata : ∀ {id j}, s.fs.lookup (.data id) = some j → j ≠ s.writer.file →
      fs₀.lookup (.data id) = some j := by
    intro id j hj hjf
    rcases ho.fresh hj with h₀ | ⟨rfl, hnone, -⟩
    · exact h₀
    · -- a directory without data files gets one
      rcases ho.fresh ho.current with h₀ | ⟨hcur, -⟩
      · rw [hnone] at h₀; cases h₀
      · have hcurrent := ho.current
        rw [hcur, hj] at hcurrent
        exact absurd (Option.some.inj hcurrent) hjf
  cases m with
  | lock => exact ho.marker_synced hmarker i hi
  | compact id => exact hk.elim
  | hint id =>
    obtain ⟨hi₀, hb, hs⟩ := ho.hint hi
    obtain ⟨j, hj⟩ := Option.ne_none_iff_exists'.mp (ho.orphan id (by rw [hi]; simp))
    have hold := hothers (kept_hint hj) hi₀ hne
    unfold Synced at hold ⊢
    rw [hb, hs]
    exact hold
  | data id =>
    have hi₀ := hdata hi hne
    obtain ⟨-, -, hb, hmin, -⟩ := ho.old hi₀
    have hid : id ≠ s.writer.currentFileId := by
      rintro rfl
      exact hne (Option.some.inj (hi.symm.trans ho.current))
    have hbytes : s.fs.bytes i = fs₀.bytes i := hb.trans (ho.old_sealed hi₀ hid).eq.1.symm
    have hold := hothers (kept_data fs₀ id) hi₀ hne
    unfold Synced at hold ⊢
    rw [hbytes] at hmin ⊢
    rwa [Nat.min_eq_right hold] at hmin

/-- A store is opened on a directory whose last data file has `n` synced records. -/
theorem Opened.running {fs₀ : Fs FileName} (ho : Opened crc fs₀ s) (cfg : Config) (n : ℕ)
    (hdisk : Disk crc fs₀ log) (hcovered : d <+: log) (hmarker : MarkerSynced fs₀)
    (hothers : ∀ {m i}, Kept fs₀ m → fs₀.lookup m = some i → i ≠ s.writer.file → Synced fs₀ i)
    (hle : n ≤ (recordsIn crc s.fs s.writer.file).length)
    (hactive : s.fs.synced s.writer.file =
      (encodeAll crc ((recordsIn crc s.fs s.writer.file).take n)).length)
    (hrest : events log = events d ++ events ((recordsIn crc s.fs s.writer.file).drop n))
    (hfinal : ∀ k, Final (cutSegs (recordsIn crc fs₀) fs₀ s.writer.currentFileId n) k (valueOf k d)) :
    Running crc cfg log d s := by
  obtain ⟨recs, hl⟩ := hdisk.link ho cfg
  have hrec : ∀ {id i}, s.fs.lookup (.data id) = some i → recs i = recordsIn crc s.fs i :=
    fun hi => (hl.rep.recordsIn_eq hi).1.symm
  have hfile := hrec ho.current
  have hwritten : log ++ s.lock.written crc = log := by
    rw [ho.free]
    exact List.append_nil log
  rw [← hfile] at hle hactive hrest
  have hlink : Link crc cfg recs log log s (cutState recs log d s n) := by
    refine hl.cutState hrest fun k => (hfinal k).congr fun id => congrArg (lastOf k) ?_
    unfold cutSegs
    rw [ho.segs hrec]
  have hlen : ((cutState recs log d s n).segs s.writer.currentFileId).length = n := by
    show (cutSegs recs s.fs s.writer.currentFileId n s.writer.currentFileId).length = n
    rw [cutSegs_self recs ho.current, events_take, List.length_take, events, List.length_map]
    exact Nat.min_eq_left hle
  refine ⟨ho.marker hdisk.openable.1, ho.tight, by rwa [hwritten], recs, log, cutState recs log d s n,
    by rwa [hwritten], ?_, rfl⟩
  rw [hlen]
  refine ⟨hle, hactive, fun hk hi hne => ho.others hothers hmarker hk hi hne, ?_, ?_⟩
  · rw [ho.free]
    simp
  · rw [ho.idle]
    trivial

theorem Cut.opened {fs₀ : Fs FileName} {cur n : ℕ} {file : Inode}
    (h : Cut crc fs₀ log d cur file n) (ho : Opened crc fs₀ s) (cfg : Config) :
    Running crc cfg log d s := by
  -- the last data file is the active one
  obtain ⟨hold, -, hb, hmin, hmax⟩ := ho.old h.current
  have hcur : s.writer.currentFileId = cur := by
    refine le_antisymm ?_ (ho.le_current hold)
    rcases ho.fresh ho.current with h₀ | ⟨-, hnone, -⟩
    · exact h.le_current h₀
    · have := h.current
      rw [hnone] at this; cases this
  have hfile : s.writer.file = file := by
    have hcurrent := ho.current
    rw [hcur, hold] at hcurrent
    exact (Option.some.inj hcurrent).symm
  have hrec : recordsIn crc s.fs s.writer.file = recordsIn crc fs₀ file := by
    have hseg := ho.segs (fun _ => rfl) cur
    rw [segsOf_some _ hold, segsOf_some _ h.current] at hseg
    rw [hfile]
    exact hseg
  have hsynced : s.fs.synced file = fs₀.synced file := by
    refine le_antisymm hmax ?_
    have hlen : fs₀.synced file ≤ (s.fs.bytes file).length := by
      rw [h.active, hb]
      exact encodeAll_take_le ..
    rwa [Nat.min_eq_left hlen] at hmin
  refine ho.running cfg n h.disk h.covered (fun i hi => h.others (kept_lock fs₀) hi ?_)
    (fun hk hi hne => h.others hk hi (hfile ▸ hne)) ?_ ?_ ?_ ?_
  · rintro rfl
    cases fs₀.dir_inj _ _ _ hi h.current
  · rw [hrec]
    exact h.le
  · rw [hrec, hfile, hsynced]
    exact h.active
  · rw [hrec]
    exact h.rest
  · rw [hcur]
    exact h.final

/-- A store that is opened on the empty directory. -/
theorem Opened.running_empty (ho : Opened crc Fs.empty s) (cfg : Config) :
    Running crc cfg [] [] s := by
  have hnone : ∀ n, (Fs.empty : Fs FileName).lookup n = none := fun _ => rfl
  have hnil : recordsIn crc s.fs s.writer.file = [] := by
    rcases ho.fresh ho.current with h₀ | ⟨-, -, hb⟩
    · rw [hnone] at h₀; cases h₀
    · rw [recordsIn, hb, recordsOf_nil]
  have hdisk : Disk crc Fs.empty [] := Disk.empty
  refine ho.running cfg 0 hdisk List.prefix_rfl (fun i hi => ?_) (fun {m i} _ hi _ => ?_)
    (Nat.zero_le _) (ho.fresh_synced ho.current (hnone _)) ?_ fun k => ?_
  · rw [hnone] at hi; cases hi
  · rw [hnone] at hi; cases hi
  · rw [hnil]
    rfl
  · refine (hdisk.final k).congr fun id => ?_
    unfold cutSegs
    rw [segsOf_none _ (hnone _), List.take_nil, ite_self]

/-- The synced records of a file. -/
theorem Durable.syncedKeys_mem {n : ℕ} (h : Durable crc recs s n) (hl : Link crc cfg recs log pub s a)
    (hn : (a.segs s.writer.currentFileId).length = n) {id : ℕ} {i : Inode} {k : Bytes}
    (hi : s.fs.lookup (.data id) = some i) (hk : k ∈ syncedKeys crc s.fs i) :
    lastOf k (a.segs id) ≠ none := by
  obtain ⟨c, hc, rfl⟩ := List.mem_map.mp hk
  by_cases hid : id = s.writer.currentFileId
  · obtain rfl : i = s.writer.file := by
      rw [hid, hl.rep.core.cur_dir] at hi
      exact (Option.some.inj hi).symm
    obtain ⟨t, hb, -⟩ := hl.rep.active_bytes
    have htake : (s.fs.bytes s.writer.file).take (s.fs.synced s.writer.file) =
        encodeAll crc ((recs s.writer.file).take n) := by
      rw [h.active, hb]
      conv_lhs => rw [← List.take_append_drop n (recs s.writer.file), encodeAll_append, List.append_assoc]
      exact List.take_left' (by rw [List.take_append_drop])
    rw [htake, recordsOf_sealed fun c hc => hl.rep.core.fits _ c (List.mem_of_mem_take hc)] at hc
    rw [hid, hl.active_split.1, hn]
    exact lastOf_ne_none_of_mem hc rfl
  · have hne : i ≠ s.writer.file := by
      rintro rfl
      exact hid (FileName.data.inj (s.fs.dir_inj _ _ _ hi hl.rep.core.cur_dir))
    rw [List.take_of_length_le (h.others (kept_data _ id) hi hne)] at hc
    have hrec : recordsOf crc (s.fs.bytes i) = recs i := (hl.rep.recordsIn_eq hi).1
    rw [hrec] at hc
    rw [hl.seg_eq hid, segsOf_some _ hi]
    exact lastOf_ne_none_of_mem hc rfl

/-- What the removal of a source needs. -/
theorem KeepsSynced.survives {n : ℕ} (hk : KeepsSynced crc d s .merge) (hdur : Durable crc recs s n)
    (hl : Link crc cfg recs log pub s a) (hn : (a.segs s.writer.currentFileId).length = n)
    (hd : a.durable = events d) {id : ℕ} {ids : List ℕ} {stale : ℕ}
    (hm : s.merge = .removeData (id :: ids) stale) {k : Bytes} (hv : value k a.durable ≠ none) :
    ∃ j, j ≠ id ∧ lastOf k (a.segs j) ≠ none := by
  rw [hd] at hv
  obtain ⟨c, hc, rfl⟩ : ∃ c ∈ d, c.getKey = k := by
    by_contra hno
    push Not at hno
    refine hv ?_
    have hnone : lastOf k (events d) = none := by
      refine lastOf_eq_none_iff.mpr fun e he => ?_
      obtain ⟨c, hc, rfl⟩ := List.mem_map.mp he
      exact hno c hc
    rw [value, hnone]
    rfl
  rw [← valueOf, ← plainMap_eq] at hv
  obtain ⟨f, -, hne, hf, hkey⟩ := hk id (by rw [hm]; exact List.mem_singleton_self id) c hc hv
  exact ⟨f.1, hne, hdur.syncedKeys_mem hl hn hf hkey⟩

/-- One step. -/
theorem Running.step (h : Running crc cfg ops d s) (hn : act.Nominal) (hk : KeepsSynced crc d s act)
    (hfits : act.Fits) (hs : Step crc cfg s act s') : Running crc cfg (ops ++ finished crc s s')
      (coveredBy s' (ops ++ finished crc s s' ++ s'.lock.written crc) d) s' := by
  obtain ⟨recs, pub, a, hl, hdur, hd⟩ := h.link
  have hvol : ∀ next caller, s.lock = .rotateTo .create next caller → a.volatile = [] := by
    intro next caller hlock
    rw [hl.active_split.2, hdur.full hl.rep (hdur.rotating next caller hlock), List.drop_length]
    rfl
  obtain ⟨recs', pub', a', hl', hsteps, hdeq, hrecs⟩ :=
    link_step hl (h.tight.stepOk hn.tidy hfits hs) hs hvol <| by
      rintro rfl id ids stale hm k hv
      exact hk.survives hdur hl rfl hd hm hv
  rw [List.append_assoc, ← finished_written hs, ← List.append_assoc] at hl'
  obtain ⟨n', hdur', hcase⟩ := durable_step hdur hl.rep hl'.rep (hrecs hl.rep.core.cur_dir) hn hs
  obtain ⟨-, hact⟩ := CompactingLog.active_of_steps hl.inv hsteps hdeq
  have hmarker := (hl.rep.marker_step hs).trans h.marker
  have htight := tight_step hl.rep h.tight hn.tidy hs
  by_cases hw : (s'.fs.bytes s'.writer.file).length ≤ s'.fs.synced s'.writer.file
  · rw [coveredBy, if_pos hw]
    refine ⟨hmarker, htight, List.prefix_rfl, recs', pub', _, hl'.synced, ?_, hl'.log_eq⟩
    show Durable crc recs' s' (CompactingLog.withTail a'.segs a'.cur a'.volatile _).length
    rw [hl'.segs, segsOf_some _ hl'.rep.core.cur_dir, events, List.length_map,
      ← hdur'.full hl'.rep hw]
    exact hdur'
  · rw [coveredBy, if_neg hw]
    obtain ⟨hcur, rfl⟩ := hcase.resolve_left hw
    refine ⟨hmarker, htight, ?_, recs', pub', a', hl', ?_, hdeq.trans hd⟩
    · rw [List.append_assoc, finished_written hs, ← List.append_assoc]
      exact h.covered.trans (List.prefix_append ..)
    · have heq : a'.cur = a.cur := by rw [hl'.cur, hl.cur, hcur]
      obtain ⟨-, hseg⟩ := hact.resolve_right fun hlt => absurd heq (Nat.ne_of_gt hlt.1)
      rw [hl'.cur, hl.cur] at hseg
      rw [hseg]
      exact hdur'

/-- `sync_all` on a file of whole records. -/
theorem Cut.sync {fs : Fs FileName} {cur n : ℕ} {file : Inode} (h : Cut crc fs log d cur file n)
    (hwhole : fs.bytes file = encodeAll crc (recordsIn crc fs file)) :
    Cut crc (fs.sync file) log log cur file (recordsIn crc fs file).length where
  disk :=
    ⟨h.disk.openable, h.disk.faithful, h.disk.bounded, h.disk.hints, h.disk.hint_data, h.disk.text,
      h.disk.final⟩
  current := h.current
  le_current := h.le_current
  le := le_rfl
  active := by
    rw [Fs.synced_sync_self, hwhole]
    show _ = (encodeAll crc ((recordsIn crc fs file).take (recordsIn crc fs file).length)).length
    rw [List.take_length]
  others hk hi hne := (h.others hk hi hne).sync _
  covered := List.prefix_rfl
  rest := by
    show events log = events log ++ events ((recordsIn crc fs file).drop _)
    rw [List.drop_length]
    exact (List.append_nil _).symm
  final k := by
    refine (h.disk.final k).congr fun id => congrArg (lastOf k) ?_
    show cutSegs (recordsIn crc fs) fs cur _ id = _
    by_cases hid : id = cur
    · rw [hid, cutSegs_self _ h.current, List.take_length, segsOf_some _ h.current]
    · exact cutSegs_ne _ hid

/-- Between two appends the active file is its records. -/
theorem Running.whole (h : Running crc cfg ops d s) (hl : s.lock = .free) :
    s.fs.bytes s.writer.file = encodeAll crc (recordsIn crc s.fs s.writer.file) := by
  obtain ⟨recs, pub, a, hlink, -⟩ := h.link
  have hlr := hlink.rep.lock
  rw [hl] at hlr
  obtain ⟨t, hb, -, hoff⟩ := hlr
  have hlen := h.tight (Or.inl hl)
  rw [hoff, hb, List.length_append] at hlen
  have ht : t = [] := List.length_eq_zero_iff.mp (by omega)
  rw [(hlink.rep.recordsIn_eq hlink.rep.core.cur_dir).1, hb, ht, List.append_nil]

end Running

/-! ## Power loss -/

/-- What is safe from a power loss. -/
def World.Safe (crc : Bytes → UInt32) (ops d : List Command) : World → Prop
  | .closed fs => (fs = Fs.empty ∧ ops = [] ∧ d = []) ∨ ∃ cur file n, Cut crc fs ops d cur file n
  | .running cfg s => Running crc cfg ops d s

section Loss

variable {crc : Bytes → UInt32} {ops d p : List Command} {w : World} {fs : Fs FileName}

/-- Every reached world is safe. -/
theorem PowerRun.safe (h : PowerRun crc (fun d s a => a.Nominal ∧ KeepsSynced crc d s a) w ops d) :
    w.Safe crc ops d := by
  induction h with
  | empty => exact Or.inl ⟨rfl, rfl, rfl⟩
  | opened cfg _ hlist hopen ih =>
    rcases ih with ⟨rfl, rfl, rfl⟩ | ⟨cur, file, n, hcut⟩
    · have hdisk : Disk crc Fs.empty [] := Disk.empty
      obtain ⟨-, ho⟩ := (openStore_spec hlist (Faithful.sealed hdisk.faithful) hdisk.bounded).ok rfl hopen
      exact ho.running_empty cfg
    · obtain ⟨-, ho⟩ := (openStore_spec hlist (Faithful.sealed hcut.disk.faithful) hcut.disk.bounded).ok rfl hopen
      exact hcut.opened ho cfg
  | act _ hp hs ih => exact Running.step ih hp.1 hp.2 (step_fits hs) (step_cases hs)
  | crash _ ih =>
    obtain ⟨n, hcut⟩ := Running.cut ih
    exact Or.inr ⟨_, _, n, hcut⟩
  | @close cfg s ops d fs _ hc ih =>
    obtain ⟨n, hcut⟩ := Running.cut ih
    refine Or.inr ⟨s.writer.currentFileId, s.writer.file, ?_⟩
    unfold Sys.close at hc
    split at hc
    case h_5 => cases hc
    case h_1 hlock | h_2 hlock =>
      obtain rfl := Option.some.inj hc
      rw [hlock, show Lock.written crc .free = [] from rfl, List.append_nil] at hcut
      rw [if_pos hlock]
      exact ⟨_, hcut.sync (ih.whole hlock)⟩
    case h_3 hlock | h_4 hlock =>
      obtain rfl := Option.some.inj hc
      rw [hlock, show Lock.written crc .poisoned = [] from rfl, List.append_nil] at hcut
      rw [if_neg (by rw [hlock]; simp)]
      exact ⟨n, hcut⟩

/-- A power loss leaves a prefix of the log with the synced commands. -/
theorem World.Safe.powerLoss (h : w.Safe crc ops d) (hloss : w.fs.PowerLoss fs) :
    ∃ p, d <+: p ∧ p <+: ops ++ w.inFlight ∧ Disk crc fs p := by
  cases w with
  | closed fs₀ =>
    rcases h with ⟨rfl, rfl, rfl⟩ | ⟨cur, file, n, hcut⟩
    · exact ⟨[], List.prefix_rfl, List.nil_prefix, Disk.of_none fun m => PowerLoss.lookup hloss m⟩
    · obtain ⟨p, hd, hp, hdisk⟩ := hcut.powerLoss hloss
      exact ⟨p, hd, hp.trans (List.prefix_append ..), hdisk⟩
  | running cfg s =>
    obtain ⟨n, hcut⟩ := Running.cut h
    obtain ⟨p, hd, hp, hdisk⟩ := hcut.powerLoss hloss
    refine ⟨p, hd, hp.trans ?_, hdisk⟩
    rcases s.lock.written_cases with he | he
    · rw [he, List.append_nil]
      exact List.prefix_append ..
    · rw [he]
      exact List.prefix_rfl

/-- Every key has the value that the commands `d` gave it, or that of a later command on it. -/
def SyncedOrLater (d p : List Command) : Prop :=
  ∀ k, plainMap p k = plainMap d k ∨
    ∃ c ∈ p.drop d.length, c.getKey = k ∧ plainMap p k = c.getValue

theorem syncedOrLater (h : d <+: p) : SyncedOrLater d p := by
  obtain ⟨l, rfl⟩ := h
  intro k
  rw [List.drop_left]
  induction l using List.reverseRecOn with
  | nil => exact Or.inl (by rw [List.append_nil])
  | append_singleton l c ih =>
    rw [← List.append_assoc, plainMap_append]
    by_cases hk : k = c.getKey
    · refine Or.inr ⟨c, List.mem_append_right l (List.mem_singleton_self c), hk.symm, ?_⟩
      rw [hk, Function.update_self]
    · rw [Function.update_of_ne hk]
      refine ih.imp_right ?_
      rintro ⟨c', hc', hkey, hval⟩
      exact ⟨c', List.mem_append_left _ hc', hkey, hval⟩

/-- A power loss at any moment of a run in which no filesystem call fails and, whenever a merge
removes a source, every key with a value after the synced commands has a synced record in another
data file: `open` succeeds on what is left, and recovers a prefix of the log that has all commands
whose records were synced. -/
theorem power_loss_recovery
    (h : PowerRun crc (fun d s a => a.Nominal ∧ KeepsSynced crc d s a) w ops d)
    (hloss : w.fs.PowerLoss fs) {listing : List FileName} (hlist : (fs.create .lock).Lists listing)
    (now : ℕ) : ∃ s p, (openStore crc listing now fs).result = .ok s ∧ d <+: p ∧
      p <+: ops ++ w.inFlight ∧ s.Agrees crc p ∧ SyncedOrLater d p := by
  obtain ⟨p, hd, hp, hdisk⟩ := h.safe.powerLoss hloss
  obtain ⟨s, hs, ho⟩ := hdisk.opens hlist
  obtain ⟨recs, hl⟩ := hdisk.link ho Config.new
  refine ⟨s, p, hs, hd, hp, fun key => ?_, syncedOrLater hd⟩
  rw [plainMap_eq]
  exact hl.get key

end Loss

/-- Three sets, a whole merge, and a set that is in the index but not synced. -/
def setAfterMerge : List Act :=
  threeSets ++ mergeActs 34 ++ [.begin (.set "c" "4") 0,
    .write (((Call.set "c" "4").command 0).serialize crc32).length, .writer 0]

/-- Five bytes are left of the last set. -/
theorem power_loss_recovery_after_merge : ∃ s ops d,
    powerSteps crc32 smallFiles (fun d s a => a.Nominal ∧ KeepsSynced crc32 d s a) setAfterMerge
      (emptyStore crc32) [] [] = some (s, ops, d) ∧
    d = [.set 0 (asBytes "a") (asBytes "1"), .set 0 (asBytes "b") (asBytes "2"),
      .set 0 (asBytes "a") (asBytes "3")] ∧
    s.lock.inFlight = [.set 0 (asBytes "c") (asBytes "4")] ∧
    s.fs.PowerLoss (cutAt s.fs s.writer.file 5) ∧
    ∃ s' p, (openStore crc32 [.lock, .data 4, .data 5, .data 6, .data 88, .hint 5, .hint 6] 0
        (cutAt s.fs s.writer.file 5)).result = .ok s' ∧
      d <+: p ∧ p <+: ops ++ s.lock.inFlight ∧ s'.Agrees crc32 p ∧ SyncedOrLater d p := by
  have hrun : (powerSteps crc32 smallFiles (fun d s a => a.Nominal ∧ KeepsSynced crc32 d s a)
      setAfterMerge (emptyStore crc32) [] []).any fun r =>
        r.2.2 = [.set 0 (asBytes "a") (asBytes "1"), .set 0 (asBytes "b") (asBytes "2"),
          .set 0 (asBytes "a") (asBytes "3")] ∧
        r.1.lock.inFlight = [.set 0 (asBytes "c") (asBytes "4")] ∧
        r.1.fs.synced r.1.writer.file ≤ 5 ∧
        [.lock, .data 4, .data 5, .data 6, .data 88, .hint 5, .hint 6].toFinset =
          ((cutAt r.1.fs r.1.writer.file 5).create .lock).dir.keys := by
    decide +kernel
  obtain ⟨⟨s, ops, d⟩, hs, hc⟩ := (Option.any_eq_true ..).mp hrun
  obtain ⟨hd, hflight, hsync, hkeys⟩ := of_decide_eq_true hc
  have hloss : s.fs.PowerLoss (cutAt s.fs s.writer.file 5) := powerLoss_cutAt hsync
  exact ⟨s, ops, d, hs, hd, hflight, hloss, power_loss_recovery (PowerRun.firstSession hs) hloss
    (Fs.lists_of_keys (by decide) hkeys) 0⟩

/-- Every append is synced and fills its file. -/
def syncEvery : Config := ⟨.syncOnEveryPut, 1, 1, 1000⟩

/-- Three sets; a merge starts; a set of "a" is in the index but not synced; the merge finds the old
record of "a" stale and removes its file. -/
def supersedeInMerge : List Act :=
  Call.acts crc32 (.set "a" "1") 7 ++ Call.acts crc32 (.set "b" "1") 7 ++
    Call.acts crc32 (.set "b" "2") 7 ++ mergeActs 0 ++ [.begin (.set "a" "2") 0,
    .write (((Call.set "a" "2").command 0).serialize crc32).length, .writer 0] ++
    List.replicate 19 .merge

/-- Every prefix of the log that has the first set has a value for "a". -/
theorem supersedeInMerge_has_value : ∀ p ∈ List.inits [.set 0 (asBytes "a") (asBytes "1"),
      .set 0 (asBytes "b") (asBytes "1"), .set 0 (asBytes "b") (asBytes "2"),
      .set 0 (asBytes "a") (asBytes "2")],
    .set 0 (asBytes "a") (asBytes "1") ∈ p → plainMap p (asBytes "a") ≠ none := by
  decide +kernel

/-- The index is updated before the sync, and the merge trusts the index: after a power loss a key
with a synced value has no value at all, though nothing ever removed it. -/
theorem merge_loses_synced : ∃ s ops d s',
    powerSteps crc32 syncEvery (fun _ _ a => a.Nominal) supersedeInMerge (emptyStore crc32) [] [] =
      some (s, ops, d) ∧
    .set 0 (asBytes "a") (asBytes "1") ∈ d ∧
    ops ++ s.lock.inFlight = [.set 0 (asBytes "a") (asBytes "1"), .set 0 (asBytes "b") (asBytes "1"),
      .set 0 (asBytes "b") (asBytes "2"), .set 0 (asBytes "a") (asBytes "2")] ∧
    s.fs.PowerLoss (cutAt s.fs s.writer.file 0) ∧
    ((cutAt s.fs s.writer.file 0).create .lock).Lists
      [.lock, .data 2, .data 3, .data 4, .data 5, .data 88, .hint 5] ∧
    reopen crc32 [.lock, .data 2, .data 3, .data 4, .data 5, .data 88, .hint 5]
      (cutAt s.fs s.writer.file 0) = some s' ∧
    s'.get crc32 "a" = some (.ok none) ∧
    ∀ p, d <+: p → p <+: ops ++ s.lock.inFlight → ¬ s'.Agrees crc32 p := by
  have hrun : (powerSteps crc32 syncEvery (fun _ _ a => a.Nominal) supersedeInMerge
      (emptyStore crc32) [] []).any fun r =>
        .set 0 (asBytes "a") (asBytes "1") ∈ r.2.2 ∧
        r.2.1 ++ r.1.lock.inFlight = [.set 0 (asBytes "a") (asBytes "1"),
          .set 0 (asBytes "b") (asBytes "1"), .set 0 (asBytes "b") (asBytes "2"),
          .set 0 (asBytes "a") (asBytes "2")] ∧
        r.1.fs.synced r.1.writer.file ≤ 0 ∧
        [.lock, .data 2, .data 3, .data 4, .data 5, .data 88, .hint 5].toFinset =
          ((cutAt r.1.fs r.1.writer.file 0).create .lock).dir.keys ∧
        (reopen crc32 [.lock, .data 2, .data 3, .data 4, .data 5, .data 88, .hint 5]
          (cutAt r.1.fs r.1.writer.file 0)).any fun s' => s'.get crc32 "a" = some (.ok none) := by
    decide +kernel
  obtain ⟨⟨s, ops, d⟩, hs, hc⟩ := (Option.any_eq_true ..).mp hrun
  obtain ⟨hmem, hops, hsync, hkeys, hre⟩ := of_decide_eq_true hc
  obtain ⟨s', hs', hc'⟩ := (Option.any_eq_true ..).mp hre
  have hget : s'.get crc32 "a" = some (.ok none) := of_decide_eq_true hc'
  refine ⟨s, ops, d, s', hs, hmem, hops, powerLoss_cutAt hsync, Fs.lists_of_keys (by decide) hkeys,
    hs', hget, fun p hd hp hagrees => ?_⟩
  obtain ⟨v, hv, hvp⟩ := hagrees "a"
  rw [hget] at hv
  cases hv
  rw [hops] at hp
  exact supersedeInMerge_has_value p ((List.mem_inits ..).mpr hp) (hd.subset hmem) hvp.symm

end Bitcask
