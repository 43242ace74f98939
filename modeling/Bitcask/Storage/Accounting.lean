import Bitcask.Lib.MapSum
import Bitcask.Storage.World

/-!
# What the data files hold

Every byte of the data files is a byte of a record, and each record is live, stale or a tombstone.

1. `FirstRun`: the runs of set and remove calls on a new directory before the first merge, with the
   commands whose records are complete. The bytes of the data files are those of the index entries,
   the stale ones and those of the tombstones (`FirstRun.accounts`), but for the append in flight.
2. `MergeSince.stale`: while a merge runs, at least as much is stale as it has read at its start,
   so its last subtraction does not wrap.
-/

namespace Bitcask

open LittleEndian FileSystem MapSum

/-! ## Sums -/

/-- The sum of `len` over all entries. -/
def Index.bytes (idx : Index) : ℕ := ∑ b, total (fun _ e => e.len) (idx b)

/-- The length of the entry of a key. -/
def Index.lenAt (idx : Index) (key : Bytes) : ℕ := ((idx.get key).map IndexValue.len).getD 0

def FileName.isData : FileName → Bool
  | .data _ => true
  | _ => false

/-- The bytes of all data files. -/
def dataBytes (fs : Fs FileName) : ℕ :=
  total (fun n i => if n.isData then (fs.bytes i).length else 0) fs.dir

/-- The bytes of a tombstone; a set record has none. -/
def Command.rmLen (crc : Bytes → UInt32) : Command → ℕ
  | .set _ _ _ => 0
  | .rm ts key => ((Command.rm ts key).serialize crc).length

/-- The bytes of a set record; a tombstone has none. -/
def Command.setLen (crc : Bytes → UInt32) : Command → ℕ
  | .set ts key value => ((Command.set ts key value).serialize crc).length
  | .rm _ _ => 0

/-- The bytes of all `Rm` records. -/
def rmBytes (crc : Bytes → UInt32) (ops : List Command) : ℕ := (ops.map (·.rmLen crc)).sum

section Sums

variable {crc : Bytes → UInt32} {fs : Fs FileName} {idx : Index} {key : Bytes}

/-- One bucket changes. -/
theorem Index.bytes_update (idx : Index) (b : Fin indexBucketsNum)
    (m : Finmap fun _ : Bytes => IndexValue) :
    Index.bytes (Function.update idx b m) + total (fun _ e => e.len) (idx b) =
      idx.bytes + total (fun _ e => e.len) m := by
  unfold Index.bytes
  rw [← Finset.add_sum_erase _ _ (Finset.mem_univ b), ← Finset.add_sum_erase _ _ (Finset.mem_univ b),
    Function.update_self]
  have hrest : ∑ x ∈ Finset.univ.erase b, total (fun _ e => e.len) (Function.update idx b m x) =
      ∑ x ∈ Finset.univ.erase b, total (fun _ e => e.len) (idx x) := by
    apply Finset.sum_congr rfl
    intro x hx
    rw [Function.update_of_ne (Finset.ne_of_mem_erase hx)]
  rw [hrest]
  omega

theorem Index.bytes_insert (idx : Index) (key : Bytes) (v : IndexValue) :
    (idx.insert key v).bytes + idx.lenAt key = idx.bytes + v.len := by
  have hupdate := bytes_update idx (getBucket key) ((idx (getBucket key)).insert key v)
  have htotal := total_insert (fun _ e => e.len) (idx (getBucket key)) key v
  have hlen : idx.lenAt key = weightAt (fun _ e => e.len) (idx (getBucket key)) key := rfl
  rw [hlen]
  unfold Index.insert
  omega

theorem Index.bytes_remove (idx : Index) (key : Bytes) :
    (idx.remove key).bytes + idx.lenAt key = idx.bytes := by
  have hupdate := bytes_update idx (getBucket key) ((idx (getBucket key)).erase key)
  have htotal := total_erase (fun _ e => e.len) (idx (getBucket key)) key
  have hlen : idx.lenAt key = weightAt (fun _ e => e.len) (idx (getBucket key)) key := rfl
  rw [hlen]
  unfold Index.remove
  omega

theorem Index.bytes_empty : Index.empty.bytes = 0 := rfl

theorem dataBytes_append {id : ℕ} {i : Inode} (h : fs.lookup (.data id) = some i) (b : Bytes) :
    dataBytes (fs.append i b) = dataBytes fs + b.length := by
  apply total_grow h
  · simp [FileName.isData]
  · intro n j hn hj
    have hne : j ≠ i := fun he => hn (fs.dir_inj n _ i (he ▸ hj) h)
    rw [Fs.bytes_append_ne hne]

theorem dataBytes_create (n : FileName) : dataBytes (fs.create n) = dataBytes fs := by
  cases h : fs.lookup n with
  | some i => rw [Fs.create_of_some h]
  | none =>
    have hdir : (fs.create n).dir = fs.dir.insert n fs.next := by
      unfold Fs.create
      split
      · rename_i h'
        rw [Fs.lookup, h'] at h
        cases h
      · rfl
    unfold dataBytes
    rw [hdir, total_insert_new h, Fs.bytes_create_next h]
    have hnew : (if n.isData then ([] : Bytes).length else 0) = 0 := by split <;> rfl
    rw [hnew, Nat.add_zero]
    apply total_congr
    intro m j hj
    rw [Fs.bytes_create_of_lt (fs.dir_lt m j hj)]

theorem rmBytes_append (ops ops' : List Command) :
    rmBytes crc (ops ++ ops') = rmBytes crc ops + rmBytes crc ops' := by
  unfold rmBytes
  rw [List.map_append, List.sum_append]

theorem rmBytes_singleton (c : Command) : rmBytes crc [c] = c.rmLen crc := Nat.add_zero _

theorem Command.rmLen_add_setLen (crc : Bytes → UInt32) (c : Command) :
    c.rmLen crc + c.setLen crc = (c.serialize crc).length := by
  cases c with
  | set ts key value => exact Nat.zero_add _
  | rm ts key => rfl

end Sums

/-! ## Runs before the first merge -/

/-- The bytes of the append in flight that are in the active file and not in the index or among the
stale ones. A tombstone counts as written when its record is complete. -/
def Lock.unaccounted (crc : Bytes → UInt32) : Lock → ℕ
  | .writing c done => if done = (c.serialize crc).length then c.setLen crc else done
  | _ => 0

/-- A write that fails has written nothing. -/
def FailsClean (s : Sys) : Act → Prop
  | .writerErr _ => ∀ c done, s.lock = .writing c done → done = 0
  | _ => True

/-- Set and remove calls on a store opened on the empty directory, with the commands whose records are
complete, in log order. No merge has been started. -/
inductive FirstRun (crc : Bytes → UInt32) (cfg : Config) : Sys → List Command → Prop
  | opened {listing : List FileName} {now : ℕ} {s : Sys}
      (hlist : (Fs.empty.create .lock).Lists listing)
      (hopen : (openStore crc listing now Fs.empty).result = .ok s) : FirstRun crc cfg s []
  | step {s s' : Sys} {ops : List Command} {a : Act} {last : Option (Except KvsError Unit)}
      (h : FirstRun crc cfg s ops) (hw : FailsClean s a) (hs : stepAny crc cfg s a = some s')
      (hm : s'.merge = .idle last) : FirstRun crc cfg s' (ops ++ logged crc s a)

/-- The bytes of the data files are accounted for. -/
structure Accounts (crc : Bytes → UInt32) (ops : List Command) (s : Sys) : Prop where
  idle : ∃ last, s.merge = .idle last
  named : s.fs.lookup (.data s.writer.currentFileId) = some s.writer.file
  bytes : dataBytes s.fs = s.index.bytes + s.writer.staleBytesCount + rmBytes crc ops +
    s.lock.unaccounted crc

section First

variable {crc : Bytes → UInt32} {cfg : Config} {s s' : Sys} {a : Act} {ops : List Command}

/-- There is one way to list a directory that has the lock file only. -/
theorem listing_empty {listing : List FileName} (h : (Fs.empty.create .lock).Lists listing) :
    listing = [.lock] := by
  have hmem : ∀ n, n ∈ listing ↔ n = .lock := by
    intro n
    rw [h.2 n, ← lists_empty.2 n, List.mem_singleton]
  have hperm : listing.Perm [.lock] := by
    rw [List.perm_ext_iff_of_nodup h.1 (List.nodup_singleton _)]
    intro n
    rw [hmem n, List.mem_singleton]
  exact List.perm_singleton.mp hperm

/-- What `open` makes of the empty directory. -/
theorem openStore_empty {listing : List FileName} {now : ℕ}
    (hlist : (Fs.empty.create .lock).Lists listing)
    (hopen : (openStore crc listing now Fs.empty).result = .ok s) :
    s.index = Index.empty ∧ s.writer = ⟨1, 1, 0, 0, now, 0⟩ ∧ s.lock = .free ∧ s.merge = .idle none ∧
      s.fs.lookup (.data 1) = some 1 ∧ dataBytes s.fs = 0 := by
  rw [listing_empty hlist] at hopen
  cases hopen
  exact ⟨rfl, rfl, rfl, rfl, rfl, rfl⟩

/-- The index update of an append: the record of a set is live, and what it replaces is stale. -/
theorem Sys.publish_bytes (crc : Bytes → UInt32) (s : Sys) (c : Command) :
    (s.publish crc c).index.bytes + (s.publish crc c).writer.staleBytesCount =
      s.index.bytes + s.writer.staleBytesCount + c.setLen crc := by
  cases c with
  | set ts key value =>
    have hins := Index.bytes_insert s.index key
      ⟨s.writer.currentFileId, ts, s.writer.offset, ((Command.set ts key value).serialize crc).length⟩
    show (s.index.insert key ⟨s.writer.currentFileId, ts, s.writer.offset, _⟩).bytes +
      (s.writer.staleBytesCount + s.index.lenAt key) = _
    dsimp only [Command.setLen] at hins ⊢
    omega
  | rm ts key =>
    have hrem := Index.bytes_remove s.index key
    show (s.index.remove key).bytes + (s.writer.staleBytesCount + s.index.lenAt key) = _
    dsimp only [Command.setLen]
    omega

theorem Lock.unaccounted_zero (c : Command) : (Lock.writing c 0).unaccounted crc = 0 := by
  rw [Lock.unaccounted]
  exact if_neg (Nat.ne_of_lt (Command.serialize_pos crc c))

/-- A rotation that no merge has asked for. -/
theorem Sys.endRotate_idle {last : Option (Except KvsError Unit)} (caller : Caller)
    (hidle : s.merge = .idle last) : s.endRotate caller = { s with lock := .free } := by
  unfold Sys.endRotate
  rw [hidle]
  cases caller <;> rfl

/-- A step of the lock holder that writes nothing and leaves the index alone. -/
theorem Accounts.move (h : Accounts crc ops s) (hm : s'.merge = s.merge)
    (hnamed : s'.fs.lookup (.data s'.writer.currentFileId) = some s'.writer.file)
    (hdata : dataBytes s'.fs = dataBytes s.fs) (hindex : s'.index = s.index)
    (hstale : s'.writer.staleBytesCount = s.writer.staleBytesCount)
    (hlock : s'.lock.unaccounted crc = s.lock.unaccounted crc) : Accounts crc ops s' where
  idle := by
    rw [hm]
    exact h.idle
  named := hnamed
  bytes := by rw [hdata, hindex, hstale, hlock, h.bytes]

theorem Accounts.write {c : Command} {done n : ℕ} (h : Accounts crc ops s)
    (hl : s.lock = .writing c done) (hn : done + n ≤ (c.serialize crc).length) :
    Accounts crc (ops ++ logged crc s (.write n))
      { s with
        fs := s.fs.append s.writer.file (((c.serialize crc).drop done).take n)
        lock := .writing c (done + n) } where
  idle := h.idle
  named := h.named
  bytes := by
    have hb := h.bytes
    have hlen : (((c.serialize crc).drop done).take n).length = n := by
      rw [List.length_take, List.length_drop]
      omega
    have hsum := c.rmLen_add_setLen crc
    have hnil : rmBytes crc [] = 0 := rfl
    rw [hl, Lock.unaccounted] at hb
    rw [dataBytes_append h.named, hlen, rmBytes_append, Lock.unaccounted, logged, hl]
    dsimp only
    by_cases hfull : done = (c.serialize crc).length
    · rw [if_pos hfull] at hb
      rw [if_neg (by omega), if_pos (by omega)]
      omega
    · rw [if_neg hfull] at hb
      by_cases hend : done + n = (c.serialize crc).length
      · rw [if_pos ⟨by omega, hend⟩, if_pos hend, rmBytes_singleton]
        omega
      · rw [if_neg (fun hc => hend hc.2), if_neg hend]
        omega

theorem Accounts.writerStep (h : Accounts crc ops s) (hw : FailsClean s a)
    (hs : WriterStep crc cfg s a s') : Accounts crc (ops ++ logged crc s a) s' := by
  obtain ⟨last, hidle⟩ := h.idle
  by_cases ha : ∃ n, a = .write n
  · obtain ⟨n, rfl⟩ := ha
    cases hs with
    | write c done n hl hn hm => exact h.write hl hn
  have hlogged : logged crc s a = [] := by
    unfold logged
    split
    · exact absurd ⟨_, rfl⟩ ha
    · rfl
  rw [hlogged, List.append_nil]
  cases hs with
  | begin call ts hl =>
    refine h.move rfl h.named rfl rfl rfl ?_
    rw [hl]
    exact Lock.unaccounted_zero _
  | write c done n hl hn hm => exact absurd ⟨n, rfl⟩ ha
  | publish c now hl =>
    have hb := h.bytes
    rw [hl, Lock.unaccounted, if_pos rfl] at hb
    have hpub := s.publish_bytes crc c
    refine ⟨h.idle, h.named, ?_⟩
    show dataBytes s.fs = _ + _ + rmBytes crc ops + 0
    omega
  | failWrite c done e hl hn =>
    refine h.move rfl h.named rfl rfl rfl ?_
    rw [hl, hw c done hl]
    exact (Lock.unaccounted_zero c).symm
  | rotateCreate next now caller hl =>
    refine h.move rfl Fs.lookup_create_self (dataBytes_create _) rfl rfl ?_
    rw [hl]
    rfl
  | rotateReader next now caller i hl hi =>
    rw [Sys.endRotate_idle caller (s := s.readersUpdate next i) hidle]
    refine h.move rfl h.named rfl rfl rfl ?_
    rw [hl]
    rfl
  | rotateMissing next now caller hl hi | failRotate st next caller e hl =>
    have hb := h.bytes
    rw [hl] at hb
    cases caller with
    | append c => exact ⟨h.idle, h.named, hb⟩
    | compaction => exact ⟨⟨_, rfl⟩, h.named, hb⟩
  | _ =>
    have hb := h.bytes
    simp only [*] at hb
    exact ⟨h.idle, h.named, hb⟩

theorem Accounts.step (h : Accounts crc ops s) (hw : FailsClean s a) (hs : Step crc cfg s a s')
    (hm : ∃ last, s'.merge = .idle last) : Accounts crc (ops ++ logged crc s a) s' := by
  obtain ⟨last, hidle⟩ := h.idle
  cases hs with
  | writer hs => exact h.writerStep hw hs
  | merge hs => cases hs <;> simp_all
  | startNot last' res hm' hl hres hn =>
    show Accounts crc (ops ++ []) _
    rw [List.append_nil]
    exact ⟨⟨_, rfl⟩, h.named, h.bytes⟩
  | startPanic last' hm' hl hs hn hz => obtain ⟨last, hm⟩ := hm; cases hm
  | start last' hm' hl hs hn hz => obtain ⟨last, hm⟩ := hm; cases hm
  | spill out n m ho => rw [hidle] at ho; cases ho
  | mergeErr e data hint hc ho => rw [hidle] at hc; cases hc
  | outputErr out e data hint hc ho => rw [hidle] at hc; cases hc

/-- Every byte is accounted for in every state of a run before the first merge. -/
theorem FirstRun.accounts (h : FirstRun crc cfg s ops) : Accounts crc ops s := by
  induction h with
  | opened hlist hopen =>
    obtain ⟨hindex, hwriter, hlock, hmerge, hname, hdata⟩ := openStore_empty hlist hopen
    refine ⟨⟨none, hmerge⟩, ?_, ?_⟩
    · rw [hwriter]
      exact hname
    · rw [hdata, hindex, hwriter, hlock, Index.bytes_empty]
      rfl
  | step _ hw hs hm ih => exact ih.step hw (stepAny_cases hs) ⟨_, hm⟩

/-- The commands whose records the steps `acts` complete. -/
def loggedBy (crc : Bytes → UInt32) (cfg : Config) : List Act → Sys → List Command
  | [], _ => []
  | a :: acts, s =>
    match step crc cfg s a with
    | some s' => logged crc s a ++ loggedBy crc cfg acts s'
    | none => []

/-- Only `start` makes the compaction thread run. -/
theorem idle_step {last : Option (Except KvsError Unit)} (hidle : s.merge = .idle last)
    (ha : a ≠ .start) (hs : Step crc cfg s a s') : ∃ last', s'.merge = .idle last' := by
  cases hs with
  | writer hs =>
    cases hs with
    | rotateReader next now caller i hl hi =>
      rw [Sys.endRotate_idle caller (s := s.readersUpdate next i) hidle]
      exact ⟨last, hidle⟩
    | rotateMissing next now caller hl hi | failRotate st next caller e hl =>
      cases caller with
      | append c => exact ⟨last, hidle⟩
      | compaction => exact ⟨_, rfl⟩
    | _ => exact ⟨last, hidle⟩
  | merge hs => cases hs <;> simp_all
  | startNot | startPanic | start => exact absurd rfl ha
  | spill out n m ho => rw [hidle] at ho; cases ho
  | mergeErr e data hint hc ho => rw [hidle] at hc; cases hc
  | outputErr out e data hint hc ho => rw [hidle] at hc; cases hc

theorem FirstRun.of_steps {acts : List Act} (h : FirstRun crc cfg s ops)
    (hs : steps crc cfg (fun _ a => a.Nominal ∧ a ≠ .start) acts s = some s') :
    FirstRun crc cfg s' (ops ++ loggedBy crc cfg acts s) := by
  induction acts generalizing s ops with
  | nil =>
    obtain rfl := Option.some.inj hs
    rw [loggedBy, List.append_nil]
    exact h
  | cons a acts ih =>
    obtain ⟨s₁, hp, hs₁, hs⟩ := steps_cons hs
    obtain ⟨last, hidle⟩ := h.accounts.idle
    obtain ⟨last', hidle'⟩ := idle_step hidle hp.2 (step_cases hs₁)
    have hclean : FailsClean s a := by
      cases a with
      | writerErr e => exact hp.1.elim
      | _ => trivial
    rw [loggedBy, hs₁, ← List.append_assoc]
    exact ih (.step h hclean (stepAny_of_step hs₁) hidle') hs

end First

/-! ## The stale bytes of a merge -/

/-- The stale bytes a running merge has read at its start. -/
def Merge.initStale : Merge → ℕ
  | .idle _ | .dead => 0
  | .rotating r | .nextFile r _ | .openHint r _ _ | .records r _ _ _ | .finish _ r _ => r.initStaleBytes
  | .removeData _ stale | .removeHint _ _ stale | .subtract stale => stale

/-- `run_compaction` is under way. -/
def Merge.running : Merge → Bool
  | .idle _ | .dead => false
  | _ => true

section Stale

variable {crc : Bytes → UInt32} {cfg : Config} {s s' : Sys} {a : Act} {n : ℕ}

theorem initStale_withOutput (out : MergeOutput) (m : Merge) :
    (Sys.withOutput out m).initStale = m.initStale := by
  cases m with
  | nextFile r o => cases o <;> rfl
  | _ => rfl

/-- A step leaves the amount alone, or ends the merge or starts one. -/
theorem initStale_step (hs : Step crc cfg s a s') :
    (s'.merge.initStale = s.merge.initStale ∧
      s.writer.staleBytesCount ≤ s'.writer.staleBytesCount) ∨
    (s'.merge.running = false ∧ s'.merge.initStale = 0) ∨
    (a = .start ∧ s.merge.running = false ∧ s'.merge.initStale = s.writer.staleBytesCount ∧
      s'.writer = s.writer) := by
  cases hs with
  | writer hs =>
    cases hs with
    | publish c now hl => exact Or.inl ⟨rfl, Nat.le_add_right _ _⟩
    | rotateReader next now caller i hl hi =>
      left
      unfold Sys.endRotate
      split
      · rename_i r hm
        rw [show s.merge = .rotating r from hm]
        exact ⟨rfl, le_rfl⟩
      · exact ⟨rfl, le_rfl⟩
    | rotateMissing next now caller hl hi | failRotate st next caller e hl =>
      cases caller with
      | append c => exact Or.inl ⟨rfl, le_rfl⟩
      | compaction => exact Or.inr (Or.inl ⟨rfl, rfl⟩)
    | _ => exact Or.inl ⟨rfl, le_rfl⟩
  | merge hs =>
    cases hs with
    | torn | undecodable | renameMissing | readerMissing | removeMissing | subtractPoisoned |
      subtractPanic | framePanic | subtract => exact Or.inr (Or.inl ⟨rfl, rfl⟩)
    | _ =>
      left
      simp only [*]
      exact ⟨rfl, le_rfl⟩
  | startNot last res hm hl hres hn => exact Or.inr (Or.inl ⟨rfl, rfl⟩)
  | startPanic last hm hl hs hn hz => exact Or.inr (Or.inl ⟨rfl, rfl⟩)
  | start last hm hl hs hn hz => exact Or.inr (Or.inr ⟨rfl, by rw [hm]; rfl, rfl, rfl⟩)
  | spill out n m ho => exact Or.inl ⟨initStale_withOutput _ _, le_rfl⟩
  | mergeErr e data hint hc ho => exact Or.inr (Or.inl ⟨rfl, rfl⟩)
  | outputErr out e data hint hc ho => exact Or.inr (Or.inl ⟨rfl, rfl⟩)

/-- At least as much is stale as a running merge has read at its start. -/
theorem initStale_le_step (h : s.merge.initStale ≤ s.writer.staleBytesCount)
    (hs : Step crc cfg s a s') : s'.merge.initStale ≤ s'.writer.staleBytesCount := by
  rcases initStale_step hs with ⟨hm, hw⟩ | ⟨-, hm⟩ | ⟨-, -, hm, hw⟩
  · rw [hm]
    exact h.trans hw
  · rw [hm]
    exact Nat.zero_le _
  · rw [hm, hw]

/-- The states of a merge that has read `n` stale bytes at its start, while appends go on. -/
inductive MergeSince (crc : Bytes → UInt32) (cfg : Config) (n : ℕ) : Sys → Prop
  | start {s s' : Sys} {r : MergeRun} (hn : s.writer.staleBytesCount = n)
      (hs : stepAny crc cfg s .start = some s') (hm : s'.merge = .rotating r) :
      MergeSince crc cfg n s'
  | step {s s' : Sys} {a : Act} (h : MergeSince crc cfg n s) (hs : stepAny crc cfg s a = some s')
      (hm : s'.merge.running = true) : MergeSince crc cfg n s'

theorem MergeSince.stale (h : MergeSince crc cfg n s) :
    s.merge.running = true ∧ s.merge.initStale = n ∧ n ≤ s.writer.staleBytesCount := by
  induction h with
  | start hn hs hm =>
    subst hn
    cases stepAny_cases hs with
    | writer hs => cases hs
    | startNot | startPanic => cases hm
    | start last hm' hl hs hn hz => exact ⟨rfl, rfl, le_rfl⟩
  | step _ hs hm ih =>
    obtain ⟨hrun, hinit, hle⟩ := ih
    rcases initStale_step (stepAny_cases hs) with ⟨hi, hw⟩ | ⟨hstop, -⟩ | ⟨-, hstop, -⟩
    · exact ⟨hm, hi.trans hinit, hle.trans hw⟩
    · rw [hm] at hstop
      cases hstop
    · rw [hrun] at hstop
      cases hstop

theorem MergeSince.of_steps {acts : List Act} (h : MergeSince crc cfg n s)
    (hs : steps crc cfg (fun s _ => s.merge.running = true) acts s = some s')
    (hrun : s'.merge.running = true) : MergeSince crc cfg n s' := by
  induction acts generalizing s with
  | nil =>
    obtain rfl := Option.some.inj hs
    exact h
  | cons a acts ih =>
    obtain ⟨s₁, -, hs₁, hs⟩ := steps_cons hs
    refine ih (.step h (stepAny_of_step hs₁) ?_) hs
    cases acts with
    | nil =>
      obtain rfl := Option.some.inj hs
      exact hrun
    | cons b acts => exact (steps_cons hs).choose_spec.1

/-- Two sets of a key, its removal and a set of another key, each in a file of its own. -/
def setSetRemove : List Act :=
  Call.acts crc32 (.set "a" "1") 7 ++ Call.acts crc32 (.set "a" "2") 7 ++
    Call.acts crc32 (.remove "a") 7 ++ Call.acts crc32 (.set "b" "3") 7

/-- A rotation for a merge, a set while it runs, and the rest of the merge up to its subtraction. -/
def setInMerge : List Act :=
  List.replicate 4 (.writer 0) ++ Call.acts crc32 (.set "b" "4") 7 ++ List.replicate 30 .merge

end Stale

end Bitcask
