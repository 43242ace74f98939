import Bitcask.Storage.Accounting

/-!
# Arithmetic with the lock held

The unsigned operations of `append` and `run_compaction`. A division by zero panics, and so does an
operation that leaves its range where overflow checks are on; a panic with the writer lock held
poisons it.

1. `InRange`: the operations of a step are in range.
2. `Sound`: no thread has panicked, and what the next operations depend on.
3. `arithmetic_in_range`: in runs with a positive file size threshold, a clock that does not go behind
   the last flush and counters that have room, every operation is in range and the lock is never
   poisoned. Without the first two conditions it may be (`lock_poisoned`).
-/

namespace Bitcask

open LittleEndian FileSystem

/-! ## The operations of a step -/

/-- The unsigned operations of a step are in range: `u64` sums, differences that are not negative, and
a divisor that is not zero. -/
def InRange (crc : Bytes → UInt32) (cfg : Config) (s : Sys) : Act → Prop
  | .writer now =>
    match s.lock with
    | .writing c _ =>
      s.writer.staleBytesCount + s.index.lenAt c.getKey < 2 ^ 64 ∧
        s.writer.offset + (c.serialize crc).length < 2 ^ 64
    | .policy _ => cfg.durabilityPolicy = .syncOnInterval → s.writer.lastTsFlushed ≤ now
    | .rotateIfFull _ => cfg.fileSizeThreshold ≤ s.writer.offset → s.writer.currentFileId + 1 < 2 ^ 64
    | _ => True
  | .start =>
    s.lock = .free → cfg.compactionThreshold ≤ s.writer.staleBytesCount → s.snapshot ≠ [] →
      cfg.fileSizeThreshold ≠ 0 ∧ s.totalBytes < 2 ^ 64 ∧
        s.writer.currentFileId + (s.totalBytes / cfg.fileSizeThreshold + 2) + 1 < 2 ^ 64
  | .merge =>
    match s.merge with
    | .nextFile r none => r.nextCompactionFileId + 1 < 2 ^ 64
    | .records _ out _ rd =>
      (headerLen ≤ rd.reader.length → rd.position + headerLen ≤ rd.fileLen) ∧
        ∀ p b rd', rd.nextRecord = some (.record p b, rd') →
          rd.position + b.length ≤ rd.fileLen ∧ out.written + b.length < 2 ^ 64
    | .subtract stale => s.lock = .free → stale ≤ s.writer.staleBytesCount
    | _ => True
  | _ => True

/-- The counters of a running merge: the id of its last output, and the bytes in it. -/
def Merge.counters : Merge → ℕ × ℕ
  | .nextFile r none => (r.nextCompactionFileId, 0)
  | .records r out _ _ => (r.nextCompactionFileId, out.written)
  | _ => (0, 0)

/-- The counters are so far from the end of their range that one step cannot leave it. -/
def Room (s : Sys) : Prop :=
  s.writer.staleBytesCount < 2 ^ 62 ∧ s.writer.currentFileId < 2 ^ 62 ∧ s.writer.offset < 2 ^ 62 ∧
    s.totalBytes < 2 ^ 62 ∧ s.merge.counters.1 < 2 ^ 62 ∧ s.merge.counters.2 < 2 ^ 62

/-- `handle_policy` is next. -/
def Lock.isPolicy : Lock → Bool
  | .policy _ => true
  | _ => false

/-- Under `SyncOnInterval`, `handle_policy` does not read a clock behind the last flush. -/
def ClockOk (cfg : Config) (s : Sys) : Act → Prop
  | .writer now => s.lock.isPolicy = true → cfg.durabilityPolicy = .syncOnInterval →
      s.writer.lastTsFlushed ≤ now
  | _ => True

instance : DecidablePred Room := fun _ =>
  inferInstanceAs (Decidable (_ ∧ _ ∧ _ ∧ _ ∧ _ ∧ _))

instance (cfg : Config) (s : Sys) : DecidablePred (ClockOk cfg s)
  | .writer _ => inferInstanceAs (Decidable (_ → _ → _))
  | .begin _ _ | .write _ | .start | .merge | .spill _ _ | .writerErr _ | .mergeErr _ _ _ =>
    .isTrue trivial

/-! ## No panic -/

/-- The length of any record. -/
def recordMax : ℕ := 2 ^ 33

/-- The reader stands where it believes to stand. -/
def RecordReader.Consistent (rd : RecordReader) : Prop := rd.position + rd.reader.length = rd.fileLen

/-- Entries have the length of a record. -/
def Index.Short (idx : Index) : Prop := ∀ k e, idx.get k = some e → e.len < recordMax

def PendingShort (ps : List PendingUpdate) : Prop := ∀ p ∈ ps, p.new.len < recordMax

/-- The lock holder has not panicked, and its record has the length of one. -/
def Lock.Sound : Lock → Prop
  | .writing c _ => c.Fits
  | .poisoned => False
  | _ => True

/-- The compaction thread has not panicked, and what it has read is consistent. -/
def Merge.Sound : Merge → Prop
  | .rotating r | .nextFile r _ | .openHint r _ _ | .finish _ r _ => PendingShort r.pendingRecords
  | .records r _ _ rd => PendingShort r.pendingRecords ∧ rd.Consistent
  | .dead => False
  | _ => True

/-- No thread has panicked. -/
structure Sound (s : Sys) : Prop where
  index : s.index.Short
  lock : s.lock.Sound
  merge : s.merge.Sound
  stale : s.merge.initStale ≤ s.writer.staleBytesCount

section Reader

variable {rd rd' : RecordReader}

theorem bodyLen_lt (header : Bytes) : Command.bodyLen header < 2 ^ 32 := by
  have hlen : (slice header crcLen headerLen).length ≤ 4 := by
    rw [slice, List.length_drop, List.length_take]
    dsimp only [headerLen, crcLen]
    omega
  calc Command.bodyLen header < 256 ^ (slice header crcLen headerLen).length := ofLe_lt _
    _ ≤ 256 ^ 4 := Nat.pow_le_pow_right (by decide) hlen

theorem RecordReader.Consistent.next (h : rd.Consistent) : rd.nextRecord ≠ none := by
  unfold RecordReader.nextRecord
  unfold Consistent at h
  split
  · split <;> simp
  · rw [if_neg (by omega)]
    dsimp only
    split
    · simp
    · split <;> simp

theorem RecordReader.Consistent.record (h : rd.Consistent) {p : ℕ} {b : Bytes}
    (hr : rd.nextRecord = some (.record p b, rd')) :
    rd'.Consistent ∧ rd.position + b.length ≤ rd.fileLen ∧ b.length < recordMax := by
  unfold RecordReader.nextRecord at hr
  split at hr
  · split at hr <;> cases hr
  rename_i hlong
  split at hr
  · cases hr
  dsimp only at hr
  split at hr
  · cases hr
  split at hr
  · cases hr
  rename_i hfits hbody
  have hlt := bodyLen_lt (rd.reader.take headerLen)
  cases hr
  unfold Consistent at h ⊢
  dsimp only [recordMax]
  rw [List.length_drop] at hbody
  rw [List.length_drop, List.length_drop, List.length_take]
  dsimp only [headerLen] at *
  omega

end Reader

section Steps

variable {crc : Bytes → UInt32} {cfg : Config} {s s' : Sys} {a : Act} {idx : Index}

theorem Command.Fits.short {c : Command} (h : c.Fits) (crc : Bytes → UInt32) :
    (c.serialize crc).length < recordMax := by
  rw [Command.length_serialize]
  unfold Command.Fits at h
  dsimp only [headerLen, recordMax]
  omega

theorem Index.Short.lenAt (h : idx.Short) (key : Bytes) : idx.lenAt key < recordMax := by
  unfold Index.lenAt
  cases he : idx.get key with
  | none => decide
  | some e => exact h key e he

theorem Index.Short.insert (h : idx.Short) {key : Bytes} {v : IndexValue} (hv : v.len < recordMax) :
    (idx.insert key v).Short := by
  intro k e he
  by_cases hk : k = key
  · subst hk
    rw [Index.get_insert_self] at he
    cases he
    exact hv
  · rw [Index.get_insert_ne hk] at he
    exact h k e he

theorem Index.Short.remove (h : idx.Short) (key : Bytes) : (idx.remove key).Short := by
  intro k e he
  by_cases hk : k = key
  · subst hk
    rw [Index.get_remove_self] at he
    cases he
  · rw [Index.get_remove_ne hk] at he
    exact h k e he

theorem Index.Short.applyPending (h : idx.Short) {p : PendingUpdate} (hp : p.new.len < recordMax) :
    (Sys.applyPending idx p).Short := by
  unfold Sys.applyPending
  split
  · split
    · exact h.insert hp
    · exact h
  · exact h

theorem Index.Short.indexed (h : s.index.Short) {c : Command} (hc : c.Fits) :
    (s.indexed crc c).Short := by
  unfold Sys.indexed
  cases c with
  | set ts key value => exact h.insert (hc.short crc)
  | rm ts key => exact h.remove key

theorem Merge.Sound.withOutput {m : Merge} (h : m.Sound) (out : MergeOutput) :
    (Sys.withOutput out m).Sound := by
  cases m with
  | nextFile r o => cases o <;> exact h
  | _ => exact h

/-- A step of the lock holder panics only on a clock that has gone back. -/
theorem Sound.writerStep (h : Sound s) (hclock : ClockOk cfg s a) (hfits : a.Fits)
    (hs : WriterStep crc cfg s a s') :
    s'.index.Short ∧ s'.lock.Sound ∧ s'.merge.Sound := by
  have hlock := h.lock
  cases hs with
  | begin call ts hl => exact ⟨h.index, hfits, h.merge⟩
  | write c done n hl hn hm =>
    rw [hl] at hlock
    exact ⟨h.index, hlock, h.merge⟩
  | publish c now hl =>
    rw [hl] at hlock
    exact ⟨h.index.indexed hlock, trivial, h.merge⟩
  | policyPanic c now hl hp hn =>
    exact absurd (hclock (by rw [hl]; rfl) hp) (Nat.not_le.mpr hn)
  | rotateReader next now caller i hl hi =>
    unfold Sys.endRotate
    split
    · rename_i r hm
      have hmerge := h.merge
      rw [show s.merge = .rotating r from hm] at hmerge
      exact ⟨h.index, trivial, hmerge⟩
    · exact ⟨h.index, trivial, h.merge⟩
  | rotateMissing next now caller hl hi | failRotate st next caller e hl =>
    cases caller with
    | append c => exact ⟨h.index, trivial, h.merge⟩
    | compaction => exact ⟨h.index, trivial, trivial⟩
  | _ => exact ⟨h.index, trivial, h.merge⟩

/-- A step of the compaction thread does not panic. -/
theorem Sound.mergeStep (h : Sound s) (hs : MergeStep crc cfg s s') :
    s'.index.Short ∧ s'.lock.Sound ∧ s'.merge.Sound := by
  have hmerge := h.merge
  have hstale := h.stale
  cases hs with
  | framePanic r out fileId rd hm hr =>
    rw [hm] at hmerge
    exact absurd hr hmerge.2.next
  | source r out fileId i rest hm ht =>
    rw [hm] at hmerge
    refine ⟨h.index, h.lock, hmerge, ?_⟩
    exact Nat.zero_add _
  | skip r out fileId p n b rd rd' c hm hr hd hs =>
    rw [hm] at hmerge
    exact ⟨h.index, h.lock, hmerge.1, (hmerge.2.record hr).1⟩
  | copy r out fileId p n b rd rd' ts key v hm hr hd hs =>
    rw [hm] at hmerge
    obtain ⟨hcons, -, hlen⟩ := hmerge.2.record hr
    refine ⟨h.index, h.lock, ?_, hcons⟩
    intro q hq
    rcases List.mem_append.mp hq with hq | hq
    · exact hmerge.1 q hq
    · rw [List.mem_singleton.mp hq]
      exact hlen
  | update r out p ps hm hp =>
    rw [hm] at hmerge
    have hmem : ∀ q ∈ p :: ps, q.new.len < recordMax := fun q hq => hmerge q (hp ▸ hq)
    exact ⟨h.index.applyPending (hmem p List.mem_cons_self), h.lock,
      fun q hq => hmem q (List.mem_cons_of_mem _ hq)⟩
  | subtractPanic stale hm hl hs =>
    rw [hm] at hstale
    exact absurd hs (Nat.not_lt.mpr hstale)
  | subtractPoisoned stale hm hl =>
    have hlock := h.lock
    rw [hl] at hlock
    exact hlock.elim
  | _ =>
    simp only [*] at hmerge
    first
    | exact ⟨h.index, h.lock, hmerge⟩
    | exact ⟨h.index, h.lock, hmerge.1⟩
    | exact ⟨h.index, h.lock, trivial⟩

theorem Sound.step (h : Sound s) (hz : 0 < cfg.fileSizeThreshold) (hclock : ClockOk cfg s a)
    (hfits : a.Fits) (hs : Step crc cfg s a s') : Sound s' := by
  have hstale := initStale_le_step h.stale hs
  cases hs with
  | writer hs =>
    obtain ⟨hi, hl, hm⟩ := h.writerStep hclock hfits hs
    exact ⟨hi, hl, hm, hstale⟩
  | merge hs =>
    obtain ⟨hi, hl, hm⟩ := h.mergeStep hs
    exact ⟨hi, hl, hm, hstale⟩
  | startNot last res hm hl hres hn => exact ⟨h.index, h.lock, trivial, hstale⟩
  | startPanic last hm hl hs hn hz' => exact absurd hz' (Nat.pos_iff_ne_zero.mp hz)
  | start last hm hl hs hn hz' =>
    exact ⟨h.index, trivial, fun q hq => absurd hq List.not_mem_nil, hstale⟩
  | spill out n m ho => exact ⟨h.index, h.lock, h.merge.withOutput _, hstale⟩
  | mergeErr e data hint hc ho => exact ⟨h.index, h.lock, trivial, hstale⟩
  | outputErr out e data hint hc ho => exact ⟨h.index, h.lock, trivial, hstale⟩

/-- The operations of the next step are in range. -/
theorem Sound.inRange (h : Sound s) (hz : 0 < cfg.fileSizeThreshold) (hclock : ClockOk cfg s a)
    (hroom : Room s) : InRange crc cfg s a := by
  obtain ⟨hstale, hid, hoffset, htotal, hnext, hwritten⟩ := hroom
  unfold InRange
  cases a with
  | writer now =>
    dsimp only
    have hlock := h.lock
    cases hl : s.lock with
    | writing c done =>
      rw [hl] at hlock
      have hold := h.index.lenAt c.getKey
      have hlen := hlock.short crc
      dsimp only [recordMax] at hold hlen ⊢
      omega
    | policy c => exact hclock (by rw [hl]; rfl)
    | rotateIfFull c =>
      intro _
      omega
    | _ => trivial
  | start =>
    intro _ _ _
    have hdiv := Nat.div_le_self s.totalBytes cfg.fileSizeThreshold
    refine ⟨by omega, by omega, by omega⟩
  | merge =>
    dsimp only
    have hmerge := h.merge
    cases hm : s.merge with
    | nextFile r o =>
      cases o with
      | none =>
        rw [hm] at hnext
        dsimp only [Merge.counters] at hnext ⊢
        omega
      | some out => trivial
    | records r out fileId rd =>
      rw [hm] at hmerge hwritten
      obtain ⟨-, hcons⟩ := hmerge
      dsimp only [Merge.counters] at hwritten
      constructor
      · intro hlen
        unfold RecordReader.Consistent at hcons
        omega
      · intro p b rd' hr
        obtain ⟨-, hpos, hlen⟩ := hcons.record hr
        dsimp only [recordMax] at hlen
        exact ⟨hpos, by omega⟩
    | subtract stale =>
      have hle := h.stale
      rw [hm] at hle
      exact fun _ => hle
    | _ => trivial
  | _ => trivial

end Steps

/-! ## Runs -/

section Runs

variable {cfg : Config} {s : Sys}

theorem Session.sound {crc : Bytes → UInt32} {P : Sys → Act → Prop} (hz : 0 < cfg.fileSizeThreshold)
    (hP : ∀ {s a}, P s a → ClockOk cfg s a) (h : Session crc cfg P Fs.empty s) : Sound s := by
  induction h with
  | opened hlist hopen =>
    obtain ⟨hindex, hwriter, hlock, hmerge, -, -⟩ := openStore_empty hlist hopen
    refine ⟨?_, ?_, ?_, ?_⟩
    · intro k e he
      rw [hindex, Index.get_empty] at he
      cases he
    · rw [hlock]
      trivial
    · rw [hmerge]
      trivial
    · rw [hmerge]
      exact Nat.zero_le _
  | step _ hp hs ih => exact ih.step hz (hP hp) (step_fits hs) (step_cases hs)

/-- No arithmetic of `append` or `run_compaction` panics. In every run from the empty directory with a
positive file size threshold whose steps find a clock that is not behind the last flush and counters
with room, no thread panics and the lock is not poisoned, and the operations of each step are in
range. -/
theorem arithmetic_in_range (crc : Bytes → UInt32) (cfg : Config) (hz : 0 < cfg.fileSizeThreshold)
    (h : Session crc cfg (fun s a => ClockOk cfg s a ∧ Room s) Fs.empty s) :
    s.lock ≠ .poisoned ∧ s.merge ≠ .dead ∧
      ∀ a, ClockOk cfg s a → Room s → InRange crc cfg s a := by
  have hsound := h.sound hz fun hp => hp.1
  refine ⟨?_, ?_, fun a hclock hroom => hsound.inRange hz hclock hroom⟩
  · intro hl
    have hlock := hsound.lock
    rw [hl] at hlock
    exact hlock
  · intro hm
    have hmerge := hsound.merge
    rw [hm] at hmerge
    exact hmerge

/-- Every append fills its file, and every stale byte makes a merge due. -/
def smallInterval : Config := ⟨.syncOnInterval, 1, 1, 1000⟩

/-- A run with a merge and a set in the middle of it. -/
theorem arithmetic_in_range_merge : ∃ s, Session crc32 smallInterval
      (fun s a => ClockOk smallInterval s a ∧ Room s) Fs.empty s ∧ s.merge.result = some (.ok ()) ∧
    s.writer.staleBytesCount = 27 ∧ s.lock ≠ .poisoned ∧ Room s ∧
    InRange crc32 smallInterval s .start := by
  have hrun : ((steps crc32 smallInterval (fun s a => ClockOk smallInterval s a ∧ Room s)
      (setSetRemove ++ [.start] ++ setInMerge ++ [.merge]) (emptyStore crc32)).any fun s =>
        decide (s.merge.result = some (.ok ()) ∧ s.writer.staleBytesCount = 27 ∧ Room s)) := by
    decide +kernel
  obtain ⟨s, hs, hend⟩ := (Option.any_eq_true ..).mp hrun
  obtain ⟨hresult, hstale, hroom⟩ := of_decide_eq_true hend
  have hopened : Session crc32 smallInterval (fun s a => ClockOk smallInterval s a ∧ Room s) Fs.empty
      (emptyStore crc32) := .opened lists_empty (emptyStore_opened crc32)
  have hsession := hopened.of_steps hs
  obtain ⟨hlock, -, hrange⟩ := arithmetic_in_range crc32 smallInterval (by decide) hsession
  exact ⟨s, hsession, hresult, hstale, hlock, hroom, hrange .start trivial hroom⟩

/-- A file size threshold of zero. -/
def zeroThreshold : Config := ⟨.osDecides, 0, 1, 1000⟩

/-- The rotation after the first set reads the clock at 9, and `handle_policy` of the second set at
5. -/
def clockBack : List Act :=
  .begin (.set "a" "1") 0 :: .write 27 ::
    (List.replicate 5 (.writer 0) ++ [.writer 9, .writer 9] ++
      [.begin (.set "a" "2") 0, .write 27, .writer 9, .writer 5])

/-- The compaction thread divides by a threshold of zero, and `handle_policy` subtracts a later time
from an earlier one; both with the writer lock held. -/
theorem lock_poisoned :
    (∃ s, Session crc32 zeroThreshold (fun _ a => a.Nominal) Fs.empty s ∧ s.lock = .poisoned) ∧
    ∃ s, Session crc32 smallInterval (fun _ a => a.Nominal) Fs.empty s ∧ s.lock = .poisoned := by
  have hzero : ((steps crc32 zeroThreshold (fun _ a => a.Nominal) (setSetRemove ++ [.start])
      (emptyStore crc32)).any fun s => decide (s.lock = .poisoned)) := by decide +kernel
  have hclock : ((steps crc32 smallInterval (fun _ a => a.Nominal) clockBack (emptyStore crc32)).any
      fun s => decide (s.lock = .poisoned)) := by decide +kernel
  obtain ⟨s, hs, hl⟩ := (Option.any_eq_true ..).mp hzero
  obtain ⟨s', hs', hl'⟩ := (Option.any_eq_true ..).mp hclock
  have hopened : ∀ cfg, Session crc32 cfg (fun _ a => a.Nominal) Fs.empty (emptyStore crc32) :=
    fun _ => .opened lists_empty (emptyStore_opened crc32)
  exact ⟨⟨s, (hopened _).of_steps hs, of_decide_eq_true hl⟩,
    s', (hopened _).of_steps hs', of_decide_eq_true hl'⟩

end Runs

end Bitcask
