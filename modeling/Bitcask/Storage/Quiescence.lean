import Mathlib.Data.Prod.Lex
import Mathlib.Order.OrderIsoNat
import Bitcask.Storage.Handles

/-!
# A store comes to rest

The lock holder, the compaction thread and `drop` work on their own. From any state they come to rest
after finitely many steps, whatever fails on the way (`Live.rank_lt`), and at rest nobody holds the
writer lock, every call can go on, and `drop` has returned if it was called (`Live.Inv.works_or_rests`).

The rank is lexicographic. Its first number covers the handle, the trigger, the channel and the place
of the thread in its loop; the second one the phase of `run_compaction`; the third one the loop inside
the phase and the steps left to the lock holder; the last one the bytes in the buffers of the output.
-/

namespace Bitcask

open LittleEndian FileSystem

/-! ## The rank -/

/-- The steps left to the lock holder. -/
def Lock.left (crc : Bytes → UInt32) : Lock → ℕ
  | .free | .poisoned => 0
  | .rotateTo .reader _ _ => 1
  | .rotateTo .clock _ _ => 2
  | .rotateTo .create _ _ => 3
  | .rotateTo .sync _ _ => 4
  | .rotateIfFull _ => 5
  | .policy _ => 6
  | .writing c done => 7 + ((c.serialize crc).length - done)

/-- The place of `finish_output` in a round over the snapshot. -/
def FinishStep.stage : FinishStep → ℕ
  | .updates => 4
  | .reader => 5
  | .rename => 6
  | .syncHint => 7
  | .syncData => 8

/-- The phase of `run_compaction`: the files left, and the place in the round of the next one. -/
def Merge.stage : Merge → ℕ
  | .idle _ | .dead => 0
  | .subtract _ => 1
  | .removeData _ _ | .removeHint _ _ _ => 2
  | .nextFile r none => 20 * (2 * r.todo.length + 1) + 3
  | .openHint r _ _ => 20 * (2 * r.todo.length + 1) + if r.todo = [] then 10 else 2
  | .nextFile r (some _) => 20 * (2 * r.todo.length + 1) + if r.todo = [] then 9 else 1
  | .finish st r _ => 20 * (2 * r.todo.length + 1) + st.stage
  | .records r _ _ _ => 20 * (2 * r.todo.length + 2)
  | .rotating r => 20 * (2 * r.todo.length + 3)

/-- What is left of the loop inside a phase. -/
def Merge.inner : Merge → ℕ
  | .records _ _ _ reader => reader.reader.length
  | .finish .updates r _ => r.pendingRecords.length
  | .removeData ids _ => 2 * ids.length + 1
  | .removeHint _ ids _ => 2 * ids.length + 2
  | _ => 0

/-- The bytes in the buffers of the output. -/
def Merge.buffered (m : Merge) : ℕ :=
  match Sys.heldOutput m with
  | some out => out.dataBuf.length + out.hintBuf.length
  | none => 0

/-- The rank of a store. -/
def Sys.rank (crc : Bytes → UInt32) (s : Sys) : ℕ ×ₗ ℕ ×ₗ ℕ :=
  toLex (s.merge.stage, toLex (s.merge.inner + s.lock.left crc, s.merge.buffered))

def Worker.rank : Worker → ℕ
  | .exited => 0
  | .receiving => 1
  | .compacting => 2
  | .entering => 3
  | .received => 4

def Handle.rank : Handle → ℕ
  | .dropped => 0
  | .syncing => 1
  | .joining => 2
  | .alive _ => 3

/-- A trigger is to come. -/
def Live.willTrigger (l : Live) : Bool := l.triggering || l.store.lock.isWriting

/-- The signals that can still be sent, the one in the channel and the place of the thread. -/
def outerRank (h : Handle) (willTrigger queued : Bool) (w : Worker) : ℕ :=
  (2 * h.rank + willTrigger.toNat) * 10 + 5 * queued.toNat + w.rank

def Live.outer (l : Live) : ℕ := outerRank l.handle l.willTrigger l.queued l.worker

def Live.rank (crc : Bytes → UInt32) (l : Live) : ℕ ×ₗ ℕ ×ₗ ℕ ×ₗ ℕ :=
  toLex (l.outer, l.store.rank crc)

/-- A step of the lock holder or of the compaction thread, other than a write of nothing. -/
def Sys.works (s : Sys) : Act → Bool
  | .begin _ _ => false
  | .write n => n ≠ 0
  | .spill n m =>
    match Sys.heldOutput s.merge with
    | some out => out.dataBuf.take n ≠ [] ∨ out.hintBuf.take m ≠ []
    | none => false
  | _ => true

/-- A step that no client makes: one of the store, of the loop of the thread, or of `drop`. -/
def Live.works (l : Live) : LiveAct → Bool
  | .move (.store a) => l.store.works a
  | .trigger | .recv | .upgrade | .join | .sync _ => true
  | .move _ | .clone | .drop => false

/-! ## Every step of the store lowers its rank -/

section Rank

variable {crc : Bytes → UInt32} {cfg : Config} {s s' : Sys} {a : Act}

theorem Sys.rank_lt_iff : s'.rank crc < s.rank crc ↔
    s'.merge.stage ≤ s.merge.stage ∧ (s'.merge.stage = s.merge.stage →
      s'.merge.inner + s'.lock.left crc ≤ s.merge.inner + s.lock.left crc ∧
      (s'.merge.inner + s'.lock.left crc = s.merge.inner + s.lock.left crc →
        s'.merge.buffered < s.merge.buffered)) := by
  unfold Sys.rank
  rw [Prod.Lex.toLex_lt_toLex', Prod.Lex.toLex_lt_toLex']

/-- A later phase of the merge. -/
theorem Sys.rank_of_stage (h : s'.merge.stage < s.merge.stage) : s'.rank crc < s.rank crc :=
  Sys.rank_lt_iff.mpr ⟨h.le, fun he => absurd he h.ne⟩

/-- A later round of the loop inside a phase. -/
theorem Sys.rank_of_inner (hm : s'.merge.stage = s.merge.stage) (hl : s'.lock = s.lock)
    (h : s'.merge.inner < s.merge.inner) : s'.rank crc < s.rank crc := by
  rw [Sys.rank_lt_iff, hl]
  exact ⟨hm.le, fun _ => by omega⟩

/-- A step of the lock holder. -/
theorem Sys.rank_of_lock (hm : s'.merge = s.merge) (h : s'.lock.left crc < s.lock.left crc) :
    s'.rank crc < s.rank crc := by
  rw [Sys.rank_lt_iff, hm]
  exact ⟨le_rfl, fun _ => by omega⟩

theorem rank_writerStep (hr : s.Rotates) (hw : s.works a = true) (hs : WriterStep crc cfg s a s') :
    s'.rank crc < s.rank crc := by
  have hrotating : ∀ {st next}, s.lock = .rotateTo st next .compaction → ∃ r, s.merge = .rotating r :=
    fun hl => hr.mpr ⟨_, _, hl⟩
  cases hs with
  | begin => cases hw
  | write c done n hl hn hm =>
    refine Sys.rank_of_lock rfl ?_
    have hpos : n ≠ 0 := by simpa [Sys.works] using hw
    simp only [hl, Lock.left]
    omega
  | publish c now hl => exact Sys.rank_of_lock rfl (by simp only [hl, Sys.publish, Lock.left]; omega)
  | policySkip c now hl | policySync c now last hl | policyPanic c now hl | notFull c now hl
  | full c now hl | failPolicy c e hl => exact Sys.rank_of_lock rfl (by simp [hl, Lock.left])
  | failWrite c done e hl hn => exact Sys.rank_of_lock rfl (by simp [hl, Lock.left])
  | rotateSync next now caller hl | rotateCreate next now caller hl
  | rotateClock next now caller hl =>
    exact Sys.rank_of_lock rfl (by simp [hl, Lock.left, Sys.rotateTo])
  | rotateReader next now caller i hl hi =>
    cases caller with
    | append c => exact Sys.rank_of_lock rfl (by simp [hl, Lock.left, Sys.endRotate])
    | compaction =>
      obtain ⟨r, hm⟩ := hrotating hl
      refine Sys.rank_of_stage ?_
      simp only [Sys.endRotate, Sys.readersUpdate, hm, Merge.stage]
      omega
  | rotateMissing next now caller hl hi =>
    cases caller with
    | append c => exact Sys.rank_of_lock rfl (by simp [hl, Lock.left, Sys.failRotate])
    | compaction =>
      obtain ⟨r, hm⟩ := hrotating hl
      exact Sys.rank_of_stage (by simp [Sys.failRotate, hm, Merge.stage])
  | failRotate st next caller e hl =>
    cases caller with
    | append c =>
      refine Sys.rank_of_lock rfl ?_
      cases st <;> simp [hl, Lock.left, Sys.failRotate]
    | compaction =>
      obtain ⟨r, hm⟩ := hrotating hl
      exact Sys.rank_of_stage (by simp [Sys.failRotate, hm, Merge.stage])

theorem RecordReader.nextRecord_shorter {rd rd' : RecordReader} {p : ℕ} {b : Bytes}
    (h : rd.nextRecord = some (.record p b, rd')) : rd'.reader.length < rd.reader.length := by
  unfold RecordReader.nextRecord at h
  split at h
  · split at h <;> cases h
  · split at h
    · cases h
    · rename_i hlen _
      simp only at h
      split at h
      · cases h
      · split at h
        · cases h
        · cases h
          simp only [List.length_drop]
          have : headerLen = 8 := rfl
          omega

theorem rank_mergeStep (hs : MergeStep crc cfg s s') : s'.rank crc < s.rank crc := by
  have hfail : ∀ {s' : Sys}, s'.merge.stage = 0 → 0 < s.merge.stage → s'.rank crc < s.rank crc :=
    fun h₁ h₂ => Sys.rank_of_stage (by omega)
  have hrunning : 0 < s.merge.stage := by
    cases hs <;> simp [Merge.stage, *]
  cases hs with
  | framePanic | torn | undecodable | renameMissing | readerMissing | removeMissing
  | subtractPoisoned | subtractPanic | subtract => exact hfail rfl hrunning
  | lastOutput r out hm ht =>
    exact Sys.rank_of_stage (by simp [hm, ht, Merge.stage, FinishStep.stage])
  | scanned r hm ht => exact Sys.rank_of_stage (by simp [hm, ht, Merge.stage])
  | source r out fileId i rest hm ht =>
    refine Sys.rank_of_stage ?_
    simp only [hm, ht, Merge.stage, List.length_cons]
    omega
  | openData r f rest hm ht => exact Sys.rank_of_stage (by simp [hm, ht, Merge.stage])
  | openHint r id data hm =>
    refine Sys.rank_of_stage ?_
    simp only [Sys.openHint, hm, Merge.stage]
    split <;> omega
  | eof r out fileId rd rd' hm hr hw =>
    refine Sys.rank_of_stage ?_
    simp only [hm, Merge.stage]
    split <;> omega
  | eofFull r out fileId rd rd' hm hr hw =>
    refine Sys.rank_of_stage ?_
    simp only [hm, Merge.stage, FinishStep.stage]
    omega
  | skip r out fileId p n b rd rd' c hm hr hd hs =>
    exact Sys.rank_of_inner (by rw [hm]; rfl) rfl (by rw [hm]; exact RecordReader.nextRecord_shorter hr)
  | copy r out fileId p n b rd rd' ts key v hm hr hd hs =>
    exact Sys.rank_of_inner (by rw [hm]; rfl) rfl (by rw [hm]; exact RecordReader.nextRecord_shorter hr)
  | syncData r out hm hn | syncHint r out hm | rename r out i hm hi | reader r out i hm hi
  | updated r out hm hp =>
    exact Sys.rank_of_stage (by simp [hm, Merge.stage, FinishStep.stage])
  | update r out p ps hm hp =>
    exact Sys.rank_of_inner (by rw [hm]; rfl) rfl (by rw [hm]; simp [Merge.inner, hp])
  | remove id ids stale i hm hi =>
    exact Sys.rank_of_inner (by rw [hm]; rfl) rfl (by rw [hm]; simp [Merge.inner]; omega)
  | removed stale hm => exact Sys.rank_of_stage (by simp [hm, Merge.stage])
  | removeHint id ids stale hm =>
    exact Sys.rank_of_inner (by rw [hm]; rfl) rfl (by rw [hm]; simp [Merge.inner])

theorem Merge.withOutput_stage (out : MergeOutput) (m : Merge) :
    (Sys.withOutput out m).stage = m.stage ∧ (Sys.withOutput out m).inner = m.inner := by
  cases m with
  | nextFile r o => cases o <;> exact ⟨rfl, rfl⟩
  | finish st r o => cases st <;> exact ⟨rfl, rfl⟩
  | _ => exact ⟨rfl, rfl⟩

theorem heldOutput_withOutput {m : Merge} {out out' : MergeOutput} (h : Sys.heldOutput m = some out) :
    Sys.heldOutput (Sys.withOutput out' m) = some out' := by
  cases m with
  | nextFile r o =>
    cases o with
    | none => cases h
    | some o => rfl
  | records | finish => rfl
  | _ => cases h

theorem Sys.rank_spill {out : MergeOutput} {n m : ℕ} (ho : Sys.heldOutput s.merge = some out)
    (hw : s.works (.spill n m) = true) :
    Sys.rank crc { s.writeOutput out (out.dataBuf.take n) (out.hintBuf.take m) with
      merge := Sys.withOutput
        { out with dataBuf := out.dataBuf.drop n, hintBuf := out.hintBuf.drop m } s.merge } <
      s.rank crc := by
  have hsome : out.dataBuf.take n ≠ [] ∨ out.hintBuf.take m ≠ [] := by
    simpa only [Sys.works, ho, decide_eq_true_eq] using hw
  obtain ⟨hstage, hinner⟩ := Merge.withOutput_stage
    { out with dataBuf := out.dataBuf.drop n, hintBuf := out.hintBuf.drop m } s.merge
  refine Sys.rank_lt_iff.mpr ⟨hstage.le, fun _ => ⟨?_, fun _ => ?_⟩⟩
  · rw [hinner]
    exact le_rfl
  · simp only [Merge.buffered, heldOutput_withOutput ho, ho, List.length_drop]
    rcases hsome with h | h
    · have := List.length_pos_iff.mpr h
      rw [List.length_take] at this
      omega
    · have := List.length_pos_iff.mpr h
      rw [List.length_take] at this
      omega

theorem Merge.stage_of_callsFs {m : Merge} (h : Sys.callsFs m = true) : 0 < m.stage := by
  cases m with
  | nextFile r o => cases o <;> simp [Merge.stage]
  | idle | rotating | subtract | dead => cases h
  | _ => simp [Merge.stage]

theorem Step.rank_lt (hr : s.Rotates) (hw : s.works a = true) (ha : a ≠ .start)
    (hs : Step crc cfg s a s') : s'.rank crc < s.rank crc := by
  cases hs with
  | writer h => exact rank_writerStep hr hw h
  | merge h => exact rank_mergeStep h
  | startNot | startPanic | start => exact absurd rfl ha
  | spill out n m ho => exact Sys.rank_spill ho hw
  | mergeErr e data hint hc ho | outputErr out e data hint hc ho =>
    exact Sys.rank_of_stage (Merge.stage_of_callsFs hc)

/-- Past the writing of a record, only a call that takes the lock gets back there. -/
theorem Step.writing_le (hb : ∀ call ts, a ≠ .begin call ts) (hs : Step crc cfg s a s') :
    s'.lock.isWriting = true ∨ published crc s a ≠ [] → s.lock.isWriting = true := by
  rintro (hw | hp)
  · cases hs with
    | writer h =>
      cases h with
      | begin call ts => exact absurd rfl (hb call ts)
      | write c done n hl => rw [hl]; rfl
      | rotateReader next now caller i hl hi =>
        unfold Sys.endRotate at hw
        split at hw <;> cases hw
      | rotateMissing next now caller | failRotate st next caller => cases caller <;> cases hw
      | _ => cases hw
    | merge h =>
      rcases h.lock_eq with he | ⟨-, he⟩
      · rwa [he] at hw
      · rw [he] at hw; cases hw
    | startPanic | start => cases hw
    | startNot | spill | mergeErr | outputErr => exact hw
  · cases a with
    | writer now =>
      cases hl : s.lock with
      | writing c done => rfl
      | _ => simp [published, hl] at hp
    | _ => exact absurd rfl hp

end Rank

/-! ## A live store works for finitely many steps -/

section Live

variable {crc : Bytes → UInt32} {cfg : Config} {l l' : Live} {evs : List ClientEvent} {a : LiveAct}

theorem Worker.rank_after {w : Worker} {m : Move} (hm : m.isStart = true → w = .entering)
    (merge : Merge) : (w.after m merge).rank ≤ w.rank ∧
      (m.isStart = true → (w.after m merge).rank < w.rank) := by
  unfold Worker.after
  split
  · rename_i hin
    rcases hin with hs | rfl
    · rw [hm hs]
      cases merge <;> simp [Worker.rank]
    · have hns : m.isStart ≠ true := fun hs => by cases hm hs
      cases merge <;> simp [Worker.rank, hns]
  · rename_i hin
    exact ⟨le_rfl, fun hs => absurd (Or.inl hs) hin⟩

theorem Live.rank_of_outer (h : l'.outer < l.outer) : l'.rank crc < l.rank crc := by
  unfold Live.rank
  rw [Prod.Lex.toLex_lt_toLex']
  exact ⟨h.le, fun he => absurd he h.ne⟩

theorem Live.rank_move {b : Act} {c : Clients} (hinv : l.Inv) (hw : l.store.works b = true)
    (ha : l.allows (.store b) = true) (hs : Step crc cfg l.store b c.store) :
    Live.rank crc { l with
      clients := c
      worker := l.worker.after (.store b) c.store.merge
      triggering := l.triggering || (Move.store b).publishes crc l.store
      made := (Move.store b).makes ++ l.made } < l.rank crc := by
  have hbegin : ∀ call ts, b ≠ .begin call ts := by
    rintro call ts rfl
    cases hw
  have hstart : (Move.store b).isStart = true → l.worker = .entering := by
    intro h
    cases b with
    | start => simpa [Live.allows] using ha
    | _ => cases h
  obtain ⟨hworker, hless⟩ := Worker.rank_after hstart c.store.merge
  -- a step of the store sends no signal of its own
  have htrigger : (l.triggering || (Move.store b).publishes crc l.store || c.store.lock.isWriting).toNat ≤
      l.willTrigger.toNat := by
    refine Bool.toNat_le_toNat fun h => ?_
    simp only [Bool.or_eq_true] at h
    unfold Live.willTrigger
    rw [Bool.or_eq_true]
    rcases h with (h | h) | h
    · exact Or.inl h
    · exact Or.inr (hs.writing_le hbegin (Or.inr (by simpa [Move.publishes] using h)))
    · exact Or.inr (hs.writing_le hbegin (Or.inl h))
  by_cases hb : b = .start
  · refine Live.rank_of_outer ?_
    have hlt := hless (by rw [hb]; rfl)
    show outerRank l.handle (l.triggering || (Move.store b).publishes crc l.store || c.store.lock.isWriting)
      l.queued (l.worker.after (.store b) c.store.merge) < outerRank l.handle l.willTrigger l.queued l.worker
    unfold outerRank
    omega
  · unfold Live.rank
    rw [Prod.Lex.toLex_lt_toLex']
    refine ⟨?_, fun _ => hs.rank_lt hinv.rotates hw hb⟩
    show outerRank l.handle (l.triggering || (Move.store b).publishes crc l.store || c.store.lock.isWriting)
      l.queued (l.worker.after (.store b) c.store.merge) ≤ outerRank l.handle l.willTrigger l.queued l.worker
    unfold outerRank
    omega

/-- Every step that no client makes lowers the rank. -/
theorem Live.rank_lt (hinv : l.Inv) (hw : l.works a = true) (hs : LiveStep crc cfg l a l' evs) :
    l'.rank crc < l.rank crc := by
  have hthread : ∀ {w w' : Worker}, l.worker = w → w'.rank < w.rank →
      outerRank l.handle l.willTrigger l.queued w' < l.outer := by
    rintro w w' rfl hlt
    unfold Live.outer outerRank
    omega
  have hdrop : ∀ {h h' : Handle}, l.handle = h → h'.rank < h.rank →
      outerRank h' l.willTrigger l.queued l.worker < l.outer := by
    rintro h h' rfl hlt
    unfold Live.outer outerRank
    omega
  cases hs with
  | move m c evs ha hs =>
    cases m with
    | invoke | run => cases hw
    | store b =>
      rcases hs.store with ⟨-, hm⟩ | ⟨t, ts, call, hm, -⟩ | ⟨b', hm, hst⟩
      · exact absurd rfl (hm b)
      · cases hm
      · cases hm
        exact Live.rank_move hinv hw ha hst
  | trigger ht =>
    refine Live.rank_of_outer ?_
    obtain ⟨cmd, hl⟩ := hinv.triggering ht
    have hfew : ∀ q : Bool, outerRank l.handle false q l.worker < outerRank l.handle true l.queued l.worker := by
      intro q
      have := Bool.toNat_le q
      unfold outerRank
      simp only [Bool.toNat_true, Bool.toNat_false]
      omega
    have hwas : l.willTrigger = true := by rw [Live.willTrigger, ht, Bool.true_or]
    have hno : (false || l.store.lock.isWriting) = false := by rw [hl]; rfl
    show outerRank l.handle (false || l.store.lock.isWriting) _ l.worker < l.outer
    rw [hno, Live.outer, hwas]
    exact hfew _
  | recv hr hq =>
    refine Live.rank_of_outer ?_
    show outerRank l.handle l.willTrigger false .received < l.outer
    rw [Live.outer, hq, hr]
    simp only [outerRank, Worker.rank, Bool.toNat_true, Bool.toNat_false]
    omega
  | hangUp hr hq hh => exact Live.rank_of_outer (hthread hr (by simp [Worker.rank]))
  | upgrade hr hh | upgradeFails hr hh => exact Live.rank_of_outer (hthread hr (by simp [Worker.rank]))
  | clone | drop | dropLast => cases hw
  | join hh hj => exact Live.rank_of_outer (hdrop hh (by simp [Handle.rank]))
  | syncPoisoned ok hh hl => exact Live.rank_of_outer (hdrop hh (by simp [Handle.rank]))
  | sync ok hh hl =>
    cases ok with
    | true => exact Live.rank_of_outer (hdrop hh (by simp [Handle.rank]))
    | false => exact Live.rank_of_outer (hdrop hh (by simp [Handle.rank]))

end Live

/-! ## What a store at rest looks like -/

/-- The lock holder has written at most its record. -/
def Sys.Within (crc : Bytes → UInt32) (s : Sys) : Prop :=
  ∀ c done, s.lock = .writing c done → done ≤ (c.serialize crc).length

/-- The next write would make a file longer than the filesystem allows. -/
def Sys.TooLong (crc : Bytes → UInt32) (s : Sys) : Prop :=
  (∃ c done, s.lock = .writing c done ∧ done < (c.serialize crc).length ∧
    maxFileLen ≤ (s.fs.bytes s.writer.file).length + 1) ∨
  ∃ r out, s.merge = .finish .syncData r out ∧
    maxFileLen ≤ (s.fs.bytes out.data).length + out.dataBuf.length

/-- Nobody holds the writer lock, the thread sleeps or is gone, and `drop` has returned if it was
called. Every call can go on. -/
structure Live.AtRest (crc : Bytes → UInt32) (cfg : Config) (l : Live) : Prop where
  lock : l.store.lock = .free ∨ l.store.lock = .poisoned
  thread : l.handle = .dropped ∨
    l.handle.isAlive = true ∧ (l.worker = .exited ∨ l.worker = .receiving ∧ l.queued = false)
  calls : ∀ t ts, l.clients.calls t ≠ .unborn → l.clients.calls t ≠ .returned →
    (∀ call, l.clients.calls t = .waiting call → (call.command ts).Fits) →
    (l.step crc cfg (.move (.run t ts))).isSome = true

/-- A step that no client makes is possible, and none of its calls has to fail. -/
def Live.CanWork (crc : Bytes → UInt32) (cfg : Config) (l : Live) : Prop :=
  ∃ a l' evs, l.works a = true ∧ a.Nominal ∧ l.step crc cfg a = some (l', evs)

section Rest

variable {crc : Bytes → UInt32} {cfg : Config} {l l' : Live} {s s' : Sys}

theorem Sys.Within.step {a : Act} (h : s.Within crc) (hs : Step crc cfg s a s') : s'.Within crc := by
  intro c done hl
  cases hs with
  | writer hw =>
    cases hw with
    | begin call ts hf =>
      cases hl
      exact Nat.zero_le _
    | write c' done' n hl' hn =>
      cases hl
      exact hn
    | rotateReader next now caller i hl' hi =>
      unfold Sys.endRotate at hl
      split at hl <;> cases hl
    | rotateMissing next now caller | failRotate st next caller => cases caller <;> cases hl
    | _ => cases hl
  | merge hm =>
    rcases hm.lock_eq with he | ⟨-, he⟩
    · exact h c done (he ▸ hl)
    · rw [he] at hl; cases hl
  | startPanic | start => cases hl
  | startNot | spill | mergeErr | outputErr => exact h c done hl

theorem LiveRun.within {P : Live → LiveAct → Prop} {s₀ : Sys} {tr : List ClientEvent}
    (hl : s₀.lock = .free) (h : LiveRun crc cfg P s₀ l tr) : l.store.Within crc := by
  induction h with
  | start =>
    intro c done hw
    rw [Live.start_store, hl] at hw
    cases hw
  | @step l l' tr evs a _ _ hs ih =>
    cases liveStep_cases hs with
    | move m c evs ha hs =>
      rcases hs.store with ⟨he, -⟩ | ⟨_, _, _, _, hst⟩ | ⟨_, _, hst⟩
      · show c.store.Within crc
        rw [he]
        exact ih
      · exact ih.step hst
      · exact ih.step hst
    | sync ok hh hl =>
      cases ok with
      | true => exact ih
      | false => exact ih
    | _ => exact ih

theorem Live.CanWork.intro {a : LiveAct} (hw : l.works a = true) (hn : a.Nominal)
    (hs : (l.step crc cfg a).isSome = true) : l.CanWork crc cfg := by
  obtain ⟨⟨l', evs⟩, hs⟩ := Option.isSome_iff_exists.mp hs
  exact ⟨a, l', evs, hw, hn, hs⟩

/-- A step of the store is a move of the clients. -/
theorem Live.CanWork.store {b : Act} (hb : l.store.works b = true) (hn : b.Nominal)
    (ha : l.allows (.store b) = true) (hs : (Bitcask.step crc cfg l.store b).isSome = true) :
    l.CanWork crc cfg := by
  refine .intro (a := .move (.store b)) hb hn ?_
  have hact : (l.clients.act crc cfg b).isSome = true := by
    cases b with
    | begin call ts => cases hb
    | _ => exact Option.isSome_map.trans hs
  obtain ⟨r, hr⟩ := Option.isSome_iff_exists.mp hact
  simp only [Live.step, Live.move, ha, if_true, Clients.step, hr]
  rfl

/-- The lock holder can go on. -/
theorem Live.holder_works (hw : l.store.Within crc) (ht : l.triggering = false)
    (hfree : l.store.lock ≠ .free) (hp : l.store.lock ≠ .poisoned) :
    l.CanWork crc cfg ∨ l.store.TooLong crc := by
  have hstep : (l.store.writerStep crc cfg 0).isSome = true → l.CanWork crc cfg := fun hs =>
    .store (b := .writer 0) rfl trivial (by simp [Live.allows, ht]) hs
  cases hl : l.store.lock with
  | free => exact absurd hl hfree
  | poisoned => exact absurd hl hp
  | writing c done =>
    rcases Nat.lt_or_eq_of_le (hw c done hl) with hlt | he
    · by_cases hlong : maxFileLen ≤ (l.store.fs.bytes l.store.writer.file).length + 1
      · exact Or.inr (Or.inl ⟨c, done, hl, hlt, hlong⟩)
      · refine Or.inl (.store (b := .write 1) rfl trivial rfl ?_)
        have hroom : done + 1 ≤ (c.serialize crc).length ∧
            (l.store.fs.bytes l.store.writer.file).length + 1 < maxFileLen := ⟨hlt, Nat.lt_of_not_le hlong⟩
        rw [step_of_fits (show Act.Fits (.write 1) from trivial)]
        simp only [stepAny, hl, Sys.writeAll]
        rw [if_pos hroom]
        rfl
    · exact Or.inl (hstep (by simp [Sys.writerStep, hl, he]))
  | policy | rotateIfFull | rotateTo => exact Or.inl (hstep (by simp [Sys.writerStep, hl]))

/-- The thread can go on inside of `run_compaction`, when nobody else holds the lock. -/
theorem Live.merge_works (hinv : l.Inv) (hm : l.store.merge.running = true)
    (hl : l.store.lock = .free ∨ l.store.lock = .poisoned) :
    l.CanWork crc cfg ∨ l.store.TooLong crc := by
  have hstep : (l.store.mergeStep crc cfg).isSome = true → l.CanWork crc cfg := fun hs =>
    .store (b := .merge) rfl trivial rfl hs
  cases hm' : l.store.merge with
  | idle | dead => rw [hm'] at hm; cases hm
  | rotating r =>
    obtain ⟨st, next, hr⟩ := hinv.rotates.mp ⟨r, hm'⟩
    rw [hr] at hl
    simp at hl
  | nextFile | openHint | records | removeData | removeHint =>
    exact Or.inl (hstep (by rw [Sys.mergeStep, hm']; rfl))
  | finish st r out =>
    by_cases hlong : st = .syncData ∧
        maxFileLen ≤ (l.store.fs.bytes out.data).length + out.dataBuf.length
    · exact Or.inr (Or.inr ⟨r, out, by rw [hm', hlong.1], hlong.2⟩)
    · refine Or.inl (hstep ?_)
      rw [Sys.mergeStep, hm']
      unfold Sys.finishOutput
      cases st with
      | syncData =>
        simp only
        rw [if_pos (by simpa using hlong)]
        rfl
      | syncHint => rfl
      | rename | reader | updates => simp only; split <;> rfl
  | subtract stale =>
    refine Or.inl (hstep ?_)
    rw [Sys.mergeStep, hm']
    rcases hl with hl | hl
    · simp only [Sys.subtractStale, hl]
      split <;> rfl
    · simp only [Sys.subtractStale, hl]
      rfl

/-- When the lock is free or poisoned, every call can go on. -/
theorem Live.Inv.calls_run (hinv : l.Inv) (hl : l.store.lock = .free ∨ l.store.lock = .poisoned)
    (t : ℕ) (ts : UInt64) (h₁ : l.clients.calls t ≠ .unborn) (h₂ : l.clients.calls t ≠ .returned)
    (hfits : ∀ call, l.clients.calls t = .waiting call → (call.command ts).Fits) :
    (l.step crc cfg (.move (.run t ts))).isSome = true := by
  have hrun : ∃ r, l.clients.run crc cfg t ts = some r := by
    unfold Clients.run
    cases hp : l.clients.calls t with
    | unborn => exact absurd hp h₁
    | returned => exact absurd hp h₂
    | appending call =>
      obtain ⟨_, _, -, hf⟩ := hinv.owner.held t (hinv.owner.sole t call hp)
      rcases hl with hl | hl <;> (rw [show l.clients.store.lock = _ from hl] at hf; cases hf)
    | lookup | load | check => simp only; split <;> exact ⟨_, rfl⟩
    | pread => exact ⟨_, rfl⟩
    | waiting call =>
      simp only
      by_cases hpois : l.clients.store.lock = .poisoned
      · rw [if_pos hpois]
        exact ⟨_, rfl⟩
      · rw [if_neg hpois]
        have hfree := hl.resolve_right hpois
        rw [step_of_fits (show Act.Fits (.begin call ts) from hfits call hp)]
        simp only [stepAny, show l.clients.store.lock = .free from hfree, if_true, Option.map_some]
        exact ⟨_, rfl⟩
  obtain ⟨r, hr⟩ := hrun
  simp only [Live.step, Live.move, Live.allows, if_true, Clients.step, hr]
  rfl

/-- A store that is not at rest can work, unless a file is too long. -/
theorem Live.Inv.works_or_rests (hinv : l.Inv) (hw : l.store.Within crc) :
    l.CanWork crc cfg ∨ l.store.TooLong crc ∨ l.AtRest crc cfg := by
  cases ht : l.triggering with
  | true =>
    exact Or.inl (.intro (a := .trigger) rfl trivial (by simp only [Live.step, Live.trigger, ht]; rfl))
  | false =>
    by_cases hl : l.store.lock = .free ∨ l.store.lock = .poisoned
    · have hrest : l.handle = .dropped ∨
          l.handle.isAlive = true ∧ (l.worker = .exited ∨ l.worker = .receiving ∧ l.queued = false) →
          l.AtRest crc cfg := fun hthread => ⟨hl, hthread, hinv.calls_run hl⟩
      cases hwk : l.worker with
      | receiving =>
        cases hq : l.queued with
        | true =>
          exact Or.inl (.intro (a := .recv) rfl trivial (by simp only [Live.step, Live.recv, hwk, hq]; rfl))
        | false =>
          cases hh : l.handle.isAlive with
          | true => exact Or.inr (Or.inr (hrest (Or.inr ⟨hh, Or.inr ⟨hwk, hq⟩⟩)))
          | false =>
            refine Or.inl (.intro (a := .recv) rfl trivial ?_)
            simp only [Live.step, Live.recv, hwk, hq, hh]
            rfl
      | received =>
        exact Or.inl (.intro (a := .upgrade) rfl trivial (by simp only [Live.step, Live.upgrade, hwk]; rfl))
      | entering =>
        have hidle := hinv.worker
        rw [hwk] at hidle
        obtain ⟨last, hidle⟩ := hidle
        refine Or.inl (.store (b := .start) rfl trivial (by simp [Live.allows, hwk]) ?_)
        rw [step_of_fits (show Act.Fits .start from trivial)]
        simp only [stepAny, hidle]
        unfold Sys.runCompaction
        rcases hl with hl | hl
        · simp only [hl]
          split
          · rfl
          · split
            · rfl
            · split <;> rfl
        · simp only [hl]
          rfl
      | compacting =>
        have hm := hinv.worker
        rw [hwk] at hm
        exact (Live.merge_works hinv hm hl).imp_right Or.inl
      | exited =>
        cases hh : l.handle with
        | alive n => exact Or.inr (Or.inr (hrest (Or.inr ⟨by rw [hh]; rfl, Or.inl hwk⟩)))
        | dropped => exact Or.inr (Or.inr (hrest (Or.inl hh)))
        | joining =>
          exact Or.inl (.intro (a := .join) rfl trivial (by simp [Live.step, Live.join, hh, hwk]))
        | syncing =>
          refine Or.inl (.intro (a := .sync true) rfl trivial ?_)
          rcases hl with hl | hl <;> simp [Live.step, Live.sync, hh, hl]
    · obtain ⟨h₁, h₂⟩ := not_or.mp hl
      exact (Live.holder_works hw ht h₁ h₂).imp_right Or.inl

/-- Left alone, a live store comes to rest: the lock holder, the compaction thread and `drop` take
finitely many steps, whichever calls fail, and one of them can go on until the writer lock is given
up, the thread sleeps or is gone, and `drop` has returned if it was called. -/
theorem live_comes_to_rest {s₀ : Sys} {tr : List ClientEvent} (hl : s₀.lock = .free)
    (hm : s₀.merge = .idle none) (h : LiveRun crc cfg (fun _ _ => True) s₀ l tr) :
    (¬ ∃ f : ℕ → Live, f 0 = l ∧
      ∀ n, ∃ a evs, (f n).works a = true ∧ (f n).step crc cfg a = some (f (n + 1), evs)) ∧
    (l.CanWork crc cfg ∨ l.store.TooLong crc ∨ l.AtRest crc cfg) := by
  refine ⟨?_, (h.inv hl hm).works_or_rests (h.within hl)⟩
  rintro ⟨f, rfl, hf⟩
  have hinv : ∀ n, (f n).Inv := by
    intro n
    induction n with
    | zero => exact h.inv hl hm
    | succ n ih =>
      obtain ⟨a, evs, -, hs⟩ := hf n
      exact ih.step (liveStep_cases hs)
  refine not_strictAnti_of_wellFoundedLT (fun n => (f n).rank crc) (strictAnti_nat_of_succ_lt fun n => ?_)
  obtain ⟨a, evs, hw, hs⟩ := hf n
  exact Live.rank_lt (hinv n) hw (liveStep_cases hs)

/-- The last handle is dropped with a signal in the channel. -/
theorem live_comes_to_rest_in_drop : ∃ l tr,
    Live.steps crc32 smallFiles (liveSet 0 "a" "1" ++ liveSet 1 "a" "2" ++ [.drop])
      (.start (emptyStore crc32)) = some (l, tr) ∧
    l.handle = .joining ∧ l.queued = true ∧
    (¬ ∃ f : ℕ → Live, f 0 = l ∧
      ∀ n, ∃ a evs, (f n).works a = true ∧ (f n).step crc32 smallFiles a = some (f (n + 1), evs)) ∧
    (l.CanWork crc32 smallFiles ∨ l.store.TooLong crc32 ∨ l.AtRest crc32 smallFiles) := by
  have hrun : (Live.steps crc32 smallFiles (liveSet 0 "a" "1" ++ liveSet 1 "a" "2" ++ [.drop])
      (.start (emptyStore crc32))).any fun r => r.1.handle = .joining ∧ r.1.queued = true := by
    decide +kernel
  obtain ⟨⟨l, tr⟩, hs, hr⟩ := (Option.any_eq_true ..).mp hrun
  obtain ⟨hh, hq⟩ := of_decide_eq_true hr
  have hlive := LiveRun.of_steps .start hs
  rw [List.nil_append] at hlive
  exact ⟨l, tr, hs, hh, hq, live_comes_to_rest rfl rfl hlive⟩

end Rest

end Bitcask
