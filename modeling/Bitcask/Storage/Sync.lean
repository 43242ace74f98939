import Bitcask.Storage.Clients
import Bitcask.Storage.Covered
import Bitcask.Storage.PowerLoss

/-!
# Sync bookkeeping

`Timed` is a session with its readings of the clock, and `Clocked` says what `handle_policy` and
`rotate_to` make of them under `SyncOnInterval`. `sync_bookkeeping` puts this together with the files
that are covered by a sync.
-/

namespace Bitcask

open LittleEndian FileSystem CrashHoare

/-! ## The clock -/

/-- The readings of the clock that the writer has made: the latest one, and the one at its last sync,
rotation or open. -/
structure Readings where
  latest : ℕ
  flushed : ℕ

/-- Under `SyncOnInterval`, `handle_policy` calls `sync_all` at the reading `now`. -/
def Sys.syncDue (cfg : Config) (s : Sys) (now : ℕ) : Prop :=
  cfg.flushThresholdMillis ≤ now - s.writer.lastTsFlushed

instance (cfg : Config) (s : Sys) (now : ℕ) : Decidable (s.syncDue cfg now) :=
  inferInstanceAs (Decidable (_ ≤ _))

/-- The readings after a step. `handle_policy` reads the clock under `SyncOnInterval`, and `rotate_to`
always does. -/
def Readings.step (cfg : Config) (k : Readings) (s : Sys) : Act → Readings
  | .writer now =>
    match s.lock with
    | .policy _ =>
      if cfg.durabilityPolicy = .syncOnInterval then
        ⟨now, if s.syncDue cfg now then now else k.flushed⟩
      else k
    | .rotateTo .clock _ _ => ⟨now, now⟩
    | _ => k
  | _ => k

/-- The states of a session on the directory `fs₀` without I/O errors, in which no reading of the
clock is below an earlier one. -/
inductive Timed (crc : Bytes → UInt32) (cfg : Config) (fs₀ : Fs FileName) : Sys → Readings → Prop
  | opened {listing : List FileName} {now : ℕ} {s : Sys}
      (hlist : (fs₀.create .lock).Lists listing)
      (hopen : (openStore crc listing now fs₀).result = .ok s) : Timed crc cfg fs₀ s ⟨now, now⟩
  | step {s s' : Sys} {k : Readings} {a : Act} (h : Timed crc cfg fs₀ s k) (hn : a.Nominal)
      (hc : k.latest ≤ (k.step cfg s a).latest) (hs : stepAny crc cfg s a = some s') :
      Timed crc cfg fs₀ s' (k.step cfg s a)

section Opening

variable {crc : Bytes → UInt32} {fs₀ : Fs FileName} {listing : List FileName} {now id : ℕ}
  {s : Sys} {i : Inode}

theorem replayData_lastTs (l : Loader) :
    Triple (fun _ : Fs FileName => True) (replayData crc id i l) (fun r _ =>
      r.1.writer.lastTsFlushed = l.writer.lastTsFlushed) (fun _ _ => True) (fun _ => True) := by
  have hload : ∀ {b : Bytes} {l₁ l₂ : Loader} {torn : Option ℕ},
      forRecordsOf (dataRecord crc id) b l₁ = .done l₂ torn →
        l₂.writer.lastTsFlushed = l₁.writer.lastTsFlushed := by
    intro b l₁ l₂ torn hrun
    obtain ⟨cs, t, rfl, ht, hfits⟩ := forRecordsOf_data hrun
    rw [forRecordsOf_encodeAll crc id hfits ht l₁] at hrun
    cases hrun
    rfl
  apply Triple.get_bind
  intro fs _
  simp only
  split
  · exact Triple.throw fun _ _ => trivial
  · exact Triple.throw fun _ _ => trivial
  · rename_i hrun
    have hts := hload hrun
    exact Triple.pure fun _ _ => hts
  · rename_i hrun
    have hts := hload hrun
    split
    · refine Triple.bind (Q := fun _ _ => True) (Triple.call ?_ ?_) fun _ => ?_
      · exact fun _ _ => trivial
      · exact fun _ _ => trivial
      · exact Triple.pure fun _ _ => hts
    · exact Triple.throw fun _ _ => trivial

theorem replayFile_lastTs (l : Loader) : Triple (fun _ => True) (storeNames.replayFile crc l id i)
    (fun r _ => r.1.writer.lastTsFlushed = l.writer.lastTsFlushed) (fun _ _ => True)
    (fun _ => True) := by
  have hdata : ∀ {fs : Fs FileName} (l : Loader), Triple (· = fs) (replayData crc id i l)
      (fun r _ => r.1.writer.lastTsFlushed = l.writer.lastTsFlushed) (fun _ _ => True)
      (fun _ => True) := fun l =>
    (replayData_lastTs l).conseq (fun _ _ => trivial) (fun _ _ h => h) (fun _ _ h => h) fun _ h => h
  have hfallback : ∀ (fs : Fs FileName) (index : Index), Triple (· = fs)
      (do Prog.call (·.unlink (.hint id)); replayData crc id i { l with index })
      (fun r _ => r.1.writer.lastTsFlushed = l.writer.lastTsFlushed) (fun _ _ => True)
      (fun _ => True) := by
    intro fs index
    refine Triple.bind (Q := fun _ _ => True) (Triple.call ?_ ?_) fun _ => ?_
    · exact fun _ _ => trivial
    · exact fun _ _ => trivial
    · exact replayData_lastTs { l with index }
  apply Triple.get_bind
  intro fs _
  split
  · split
    · split
      · exact Triple.throw fun _ _ => trivial
      · exact Triple.pure fun _ _ => rfl
      · exact hfallback fs _
      · exact hfallback fs _
    · exact hdata l
  · exact hdata l

theorem replay_lastTs (files : List (ℕ × Inode)) (l : Loader) :
    Triple (fun _ => True) (storeNames.replay crc files l)
      (fun l' _ => l'.writer.lastTsFlushed = l.writer.lastTsFlushed) (fun _ _ => True)
      (fun _ => True) := by
  induction files generalizing l with
  | nil => exact Triple.pure fun _ _ => rfl
  | cons f files ih =>
    refine Triple.bind (replayFile_lastTs l) ?_
    rintro ⟨l', more⟩
    refine Triple.of_eq fun fs hts => ?_
    have hts : l'.writer.lastTsFlushed = l.writer.lastTsFlushed := hts
    cases more with
    | true =>
      refine (ih l').conseq (fun _ _ => trivial) (fun _ _ h => ?_) (fun _ _ h => h) fun _ h => h
      exact h.trans hts
    | false => exact Triple.pure fun _ _ => hts

/-- `open` reads the clock. -/
theorem openStore_lastTs (hlist : (fs₀.create .lock).Lists listing)
    (hopen : (openStore crc listing now fs₀).result = .ok s) : s.writer.lastTsFlushed = now := by
  have hrun : Triple (· = fs₀) (openStore crc listing now)
      (fun s _ => s.writer.lastTsFlushed = now) (fun _ _ => True) (fun _ => True) := by
    refine openStore_rule hlist (fun _ _ => trivial) (fun _ _ _ _ _ => trivial) ?_
    intro fs₂ readers cur file _
    exact (replay_lastTs _ _).conseq (fun _ _ => trivial) (fun _ _ h => h) (fun _ _ h => h)
      fun _ h => h
  exact hrun.ok rfl hopen

end Opening

/-- What the writer has made of its readings. -/
structure Clocked (cfg : Config) (s : Sys) (k : Readings) : Prop where
  flushed : s.writer.lastTsFlushed = k.flushed
  le : k.flushed ≤ k.latest
  interval : cfg.durabilityPolicy = .syncOnInterval → ∀ c, s.lock = .rotateIfFull c →
    s.writer.flushedOffset = s.writer.offset ∨ k.latest - k.flushed < cfg.flushThresholdMillis

/-- The step reads the clock. -/
def Act.ReadsClock (s : Sys) (a : Act) : Prop :=
  ∃ now, a = .writer now ∧
    ((∃ c, s.lock = .policy c) ∨ ∃ next caller, s.lock = .rotateTo .clock next caller)

section Clock

variable {crc : Bytes → UInt32} {cfg : Config} {fs₀ : Fs FileName} {s s' : Sys} {k : Readings}
  {a : Act} {now : ℕ} {c : Command}

theorem Readings.step_of_not (h : ¬ a.ReadsClock s) : k.step cfg s a = k := by
  cases a with
  | writer now =>
    unfold Readings.step
    dsimp only
    split
    · rename_i c hl
      exact absurd ⟨now, rfl, Or.inl ⟨c, hl⟩⟩ h
    · rename_i next caller hl
      exact absurd ⟨now, rfl, Or.inr ⟨next, caller, hl⟩⟩ h
    · rfl
  | _ => rfl

/-- A step that does not read the clock. -/
theorem Step.unclocked (hs : Step crc cfg s a s') (h : ¬ a.ReadsClock s) :
    s'.writer.lastTsFlushed = s.writer.lastTsFlushed ∧
      ∀ c, s'.lock = .rotateIfFull c → s.lock = .rotateIfFull c ∧
        s'.writer.offset = s.writer.offset ∧ s'.writer.flushedOffset = s.writer.flushedOffset := by
  cases hs with
  | writer hw =>
    cases hw with
    | policySkip c now hl | policySync c now last hl | policyPanic c now hl =>
      exact absurd ⟨now, rfl, Or.inl ⟨c, hl⟩⟩ h
    | rotateClock next now caller hl => exact absurd ⟨now, rfl, Or.inr ⟨next, caller, hl⟩⟩ h
    | rotateReader next now caller i hl hi =>
      unfold Sys.endRotate
      split <;> exact ⟨rfl, fun c hl' => by cases hl'⟩
    | rotateMissing next now caller hl hi | failRotate st next caller e hl =>
      cases caller <;> exact ⟨rfl, fun c hl' => by cases hl'⟩
    | _ => exact ⟨rfl, fun c hl' => by cases hl'⟩
  | merge hm =>
    refine ⟨by cases hm <;> rfl, fun c hl' => ?_⟩
    rcases hm.lock_eq with hlock | ⟨-, hlock⟩
    · rw [hlock] at hl'
      exact ⟨hl', by cases hm <;> rfl, by cases hm <;> rfl⟩
    · rw [hlock] at hl'; cases hl'
  | startPanic | start => exact ⟨rfl, fun c hl' => by cases hl'⟩
  | _ => exact ⟨rfl, fun c hl' => ⟨hl', rfl, rfl⟩⟩

/-- `handle_policy` at a reading that is not below the last one. -/
theorem Clocked.policy (h : Clocked cfg s k) (hl : s.lock = .policy c)
    (hc : k.latest ≤ (k.step cfg s (.writer now)).latest) :
    Clocked cfg (s.handlePolicy cfg now c) (k.step cfg s (.writer now)) := by
  have hstep : k.step cfg s (.writer now) = if cfg.durabilityPolicy = .syncOnInterval then
      ⟨now, if s.syncDue cfg now then now else k.flushed⟩ else k := by
    unfold Readings.step
    rw [hl]
  rw [hstep] at hc ⊢
  unfold Sys.handlePolicy
  cases hp : cfg.durabilityPolicy with
  | syncOnEveryPut => exact ⟨h.flushed, h.le, fun hp' => by rw [hp] at hp'; cases hp'⟩
  | osDecides => exact ⟨h.flushed, h.le, fun hp' => by rw [hp] at hp'; cases hp'⟩
  | syncOnInterval =>
    rw [hp, if_pos rfl] at hc
    have hnow : k.latest ≤ now := hc
    have hle : ¬ now < s.writer.lastTsFlushed := by
      rw [h.flushed]
      exact Nat.not_lt_of_le (h.le.trans hnow)
    rw [if_pos rfl]
    dsimp only
    rw [if_neg hle]
    by_cases hdue : s.syncDue cfg now
    · rw [if_pos hdue]
      unfold Sys.syncDue at hdue
      rw [if_pos hdue]
      exact ⟨rfl, le_rfl, fun _ _ _ => Or.inl rfl⟩
    · rw [if_neg hdue]
      unfold Sys.syncDue at hdue
      rw [if_neg hdue]
      refine ⟨h.flushed, h.le.trans hnow, fun _ _ _ => Or.inr ?_⟩
      show now - k.flushed < cfg.flushThresholdMillis
      rw [← h.flushed]
      omega

theorem Clocked.step (h : Clocked cfg s k) (hc : k.latest ≤ (k.step cfg s a).latest)
    (hs : stepAny crc cfg s a = some s') : Clocked cfg s' (k.step cfg s a) := by
  by_cases hr : a.ReadsClock s
  · obtain ⟨now, rfl, ⟨c, hl⟩ | ⟨next, caller, hl⟩⟩ := hr
    · have hs' : some (s.handlePolicy cfg now c) = some s' := by
        rw [← hs]
        unfold stepAny Sys.writerStep
        rw [hl]
      obtain rfl := Option.some.inj hs'
      exact h.policy hl hc
    · have hs' : some (s.rotateTo now .clock next caller) = some s' := by
        rw [← hs]
        unfold stepAny Sys.writerStep
        rw [hl]
      obtain rfl := Option.some.inj hs'
      have hstep : k.step cfg s (.writer now) = ⟨now, now⟩ := by
        unfold Readings.step
        rw [hl]
      rw [hstep]
      exact ⟨rfl, le_rfl, fun _ c hl' => by cases hl'⟩
  · rw [Readings.step_of_not hr]
    obtain ⟨hts, hlock⟩ := (stepAny_cases hs).unclocked hr
    refine ⟨hts.trans h.flushed, h.le, fun hp c hl' => ?_⟩
    obtain ⟨hl, hoff, hflushed⟩ := hlock c hl'
    rw [hoff, hflushed]
    exact h.interval hp c hl

theorem Timed.unchecked (h : Timed crc cfg fs₀ s k) :
    Unchecked crc cfg (fun _ a => a.Nominal) fs₀ s := by
  induction h with
  | opened hlist hopen => exact .opened hlist hopen
  | step _ hn _ hs ih => exact .step ih hn hs

theorem Timed.clocked (h : Timed crc cfg fs₀ s k) : Clocked cfg s k := by
  induction h with
  | opened hlist hopen =>
    obtain ⟨-, ho⟩ := (openStore_any crc _ hlist).ok rfl hopen
    refine ⟨openStore_lastTs hlist hopen, le_rfl, fun _ c hl => ?_⟩
    rw [ho.free] at hl; cases hl
  | step _ _ hc hs ih => exact ih.step hc hs

/-! ## The end of an append -/

/-- The step returns `Ok` from a `set` or `remove`. -/
def Returns (s : Sys) (a : Act) (s' : Sys) : Prop :=
  s.lock.inFlight ≠ [] ∧ s'.lock = .free ∧ s.outcome a = .ok ()

instance (s : Sys) (a : Act) (s' : Sys) : Decidable (Returns s a s') :=
  inferInstanceAs (Decidable (_ ∧ _))

/-- An append returns `Ok` because its file is not full, or with a new active file. -/
theorem Step.returns (hs : Step crc cfg s a s') (hn : a.Nominal) (hr : Returns s a s') :
    s'.fs = s.fs ∧ s'.writer = s.writer ∧
      ((∃ c, s.lock = .rotateIfFull c) ∨ ∃ next caller, s.lock = .rotateTo .reader next caller) := by
  obtain ⟨hfl, hfree, hok⟩ := hr
  cases hs with
  | writer hw =>
    cases hw with
    | begin | write | publish | policySkip | policySync | policyPanic | full => cases hfree
    | rotateSync | rotateCreate | rotateClock => cases hfree
    | notFull c now hl ho => exact ⟨rfl, rfl, Or.inl ⟨c, hl⟩⟩
    | rotateReader next now caller i hl hi =>
      refine ⟨?_, ?_, Or.inr ⟨next, caller, hl⟩⟩
      · unfold Sys.endRotate
        split <;> rfl
      · unfold Sys.endRotate
        split <;> rfl
    | rotateMissing next now caller hl hi =>
      unfold Sys.outcome at hok
      simp only [hl, hi] at hok
      cases hok
    | failWrite | failPolicy | failRotate => exact hn.elim
  | merge hm =>
    rcases hm.lock_eq with hlock | ⟨-, hlock⟩
    · rw [hlock] at hfree
      rw [hfree] at hfl
      exact absurd rfl hfl
    · rw [hlock] at hfree; cases hfree
  | startPanic | start => cases hfree
  | startNot last res hm hl hres hn =>
    rw [show s.lock = .free from hfree] at hfl
    exact absurd rfl hfl
  | spill out n m ho =>
    rw [show s.lock = .free from hfree] at hfl
    exact absurd rfl hfl
  | mergeErr | outputErr => exact hn.elim

/-- Sync bookkeeping. In every state of a session without I/O errors, a data file other than the active
one is synced to its end, unless it was sealed before the session and has not been written to since. A
file is synced before it is sealed, and an output before it gets its data name. A `set` or `remove`
that returns `Ok` under `SyncOnEveryPut` leaves the whole active file synced; under `SyncOnInterval`,
with readings of the clock that do not decrease, it does, or less than the threshold has passed since
the last sync, rotation or open. -/
theorem sync_bookkeeping (crc : Bytes → UInt32) (cfg : Config) (fs₀ : Fs FileName) :
    (∀ s, Unchecked crc cfg (fun _ a => a.Nominal) fs₀ s →
      (∀ id i, s.fs.lookup (.data id) = some i → id ≠ s.writer.currentFileId →
        Synced s.fs i ∨ SealedBefore fs₀ s.fs id i) ∧
      (∀ next caller, s.lock = .rotateTo .create next caller → Synced s.fs s.writer.file) ∧
      (∀ r out, s.merge = .finish .rename r out →
        s.fs.lookup (.compact out.id) = some out.data ∧ Synced s.fs out.data) ∧
      (cfg.durabilityPolicy = .syncOnEveryPut → ∀ a s', a.Nominal →
        stepAny crc cfg s a = some s' → Returns s a s' →
        s'.writer.flushedOffset = s'.writer.offset ∧ Synced s'.fs s'.writer.file)) ∧
    ∀ s k, Timed crc cfg fs₀ s k → cfg.durabilityPolicy = .syncOnInterval → ∀ a s', a.Nominal →
      k.latest ≤ (k.step cfg s a).latest → stepAny crc cfg s a = some s' → Returns s a s' →
      s'.writer.flushedOffset = s'.writer.offset ∨
        (k.step cfg s a).latest - (k.step cfg s a).flushed < cfg.flushThresholdMillis := by
  constructor
  · intro s h
    have hcov := h.covered
    have hsite := h.sited
    refine ⟨fun id i hi hid => hcov.sealed hi hid, fun next caller hl => ?_, fun r out hm => ?_,
      fun hp a s' hn hs hr => ?_⟩
    · exact (hcov.active (by rw [hl]; trivial)).2
    · have hname := hsite.output out (by rw [hm]; rfl)
      have hout := hcov.output
      rw [hm] at hname hout
      exact ⟨hname, hout.2⟩
    · obtain ⟨hfs, hw, hlock⟩ := (stepAny_cases hs).returns hn hr
      rw [hfs, hw]
      apply hcov.active
      rcases hlock with ⟨c, hl⟩ | ⟨next, caller, hl⟩
      · rw [hl]
        exact hp
      · rw [hl]
        trivial
  · intro s k h hp a s' hn hc hs hr
    have hclock := h.clocked
    obtain ⟨-, hw, hlock⟩ := (stepAny_cases hs).returns hn hr
    rw [hw]
    rcases hlock with ⟨c, hl⟩ | ⟨next, caller, hl⟩
    · -- the step that ends the append does not read the clock
      have hread : ¬ a.ReadsClock s := by
        rintro ⟨now, -, ⟨c', hl'⟩ | ⟨next, caller, hl'⟩⟩ <;> rw [hl] at hl' <;> cases hl'
      rw [Readings.step_of_not hread]
      exact hclock.interval hp c hl
    · refine Or.inl (h.unchecked.covered.active ?_).1
      rw [hl]
      trivial

end Clock

/-- The steps `acts` and the readings of the clock in them. -/
def timedSteps (crc : Bytes → UInt32) (cfg : Config) :
    List Act → Sys → Readings → Option (Sys × Readings)
  | [], s, k => some (s, k)
  | a :: acts, s, k =>
    if a.Nominal ∧ k.latest ≤ (k.step cfg s a).latest then
      (stepAny crc cfg s a).bind fun s' => timedSteps crc cfg acts s' (k.step cfg s a)
    else none

theorem Timed.of_steps {crc : Bytes → UInt32} {cfg : Config} {fs₀ : Fs FileName} {s : Sys}
    {k : Readings} {acts : List Act} {r : Sys × Readings} (h : Timed crc cfg fs₀ s k)
    (hs : timedSteps crc cfg acts s k = some r) : Timed crc cfg fs₀ r.1 r.2 := by
  induction acts generalizing s k with
  | nil =>
    obtain rfl := Option.some.inj hs
    exact h
  | cons a acts ih =>
    unfold timedSteps at hs
    split at hs
    · rename_i hstep
      obtain ⟨s₁, hs₁, hs⟩ := Option.bind_eq_some_iff.mp hs
      exact ih (.step h hstep.1 hstep.2 hs₁) hs
    · cases hs

/-- Files that do not get full, synced after a second. -/
def bigInterval : Config := ⟨.syncOnInterval, 1000, 1000, 1000⟩

/-- A set whose `handle_policy` reads 400. -/
def setAt400 : List Act :=
  [.begin (.set "a" "1") 0, .write (((Call.set "a" "1").command 0).serialize crc32).length,
    .writer 0, .writer 400]

/-- A set after a merge, synced with the rotation at its end; and a set 400 ms after the open, which is
not synced. -/
theorem sync_bookkeeping_sets :
    (∃ s s', Unchecked crc32 syncEvery (fun _ a => a.Nominal) Fs.empty s ∧
      stepAny crc32 syncEvery s (.writer 0) = some s' ∧ Returns s (.writer 0) s' ∧
      s.merge.result = some (.ok ()) ∧ s'.writer.flushedOffset = s'.writer.offset ∧
      Synced s'.fs s'.writer.file) ∧
    ∃ s k s', Timed crc32 bigInterval Fs.empty s k ∧
      stepAny crc32 bigInterval s (.writer 0) = some s' ∧ Returns s (.writer 0) s' ∧
      s'.writer.flushedOffset < s'.writer.offset ∧
      (k.step bigInterval s (.writer 0)).latest - (k.step bigInterval s (.writer 0)).flushed < 1000 := by
  constructor
  · have hrun : (steps crc32 syncEvery (fun _ a => a.Nominal)
        (threeSets ++ mergeActs 34 ++ Call.acts crc32 (.set "c" "4") 6) (emptyStore crc32)).any
        fun s => (stepAny crc32 syncEvery s (.writer 0)).any fun s' =>
          decide (Returns s (.writer 0) s' ∧ s.merge.result = some (.ok ())) := by
      decide +kernel
    obtain ⟨s, hs, hstep⟩ := (Option.any_eq_true ..).mp hrun
    obtain ⟨s', hs', hd⟩ := (Option.any_eq_true ..).mp hstep
    obtain ⟨hr, hm⟩ := of_decide_eq_true hd
    have hopened : Session crc32 syncEvery (fun _ a => a.Nominal) Fs.empty (emptyStore crc32) :=
      .opened lists_empty (emptyStore_opened crc32)
    have hsession := (hopened.of_steps hs).unchecked
    obtain ⟨-, -, -, hput⟩ := (sync_bookkeeping crc32 syncEvery Fs.empty).1 s hsession
    exact ⟨s, s', hsession, hs', hr, hm, hput rfl (.writer 0) s' trivial hs' hr⟩
  · have hrun : (timedSteps crc32 bigInterval setAt400 (emptyStore crc32) ⟨0, 0⟩).any
        fun r => (stepAny crc32 bigInterval r.1 (.writer 0)).any fun s' =>
          decide (Returns r.1 (.writer 0) s' ∧ s'.writer.flushedOffset < s'.writer.offset ∧
            r.2.latest ≤ (r.2.step bigInterval r.1 (.writer 0)).latest) := by
      decide +kernel
    obtain ⟨⟨s, k⟩, hs, hstep⟩ := (Option.any_eq_true ..).mp hrun
    obtain ⟨s', hs', hd⟩ := (Option.any_eq_true ..).mp hstep
    obtain ⟨hr, hlt, hc⟩ := of_decide_eq_true hd
    have hopened : Timed crc32 bigInterval Fs.empty (emptyStore crc32) ⟨0, 0⟩ :=
      .opened lists_empty (emptyStore_opened crc32)
    have htimed := hopened.of_steps hs
    refine ⟨s, k, s', htimed, hs', hr, hlt, ?_⟩
    exact ((sync_bookkeeping crc32 bigInterval Fs.empty).2 s k htimed rfl (.writer 0) s' trivial hc hs'
      hr).resolve_left hlt.ne

end Bitcask
