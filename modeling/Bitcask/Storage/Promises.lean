import Bitcask.Storage.Sync

/-!
# Promises and power losses

What a client may rely on when the power fails. An append that returns under `SyncOnEveryPut`, and a
store that is closed in order under any policy, are promises about all appends so far: whatever
happens afterwards (sessions under any policy, rotations, merges, crashes of processes), a power loss
leaves them all (`promises_survive_power_loss`).

1. `PowerSince.durable_prefix`: what is synced stays synced.
2. `Promise.covered`: at a promise all appends are synced.
-/

namespace Bitcask

open LittleEndian FileSystem

/-- The steps of a power run: no filesystem call fails, and a merge that removes a source leaves every
synced key a synced record. -/
def SafeAct (crc : Bytes → UInt32) (d : List Command) (s : Sys) (a : Act) : Prop :=
  a.Nominal ∧ KeepsSynced crc d s a

instance (crc : Bytes → UInt32) (d : List Command) (s : Sys) (a : Act) :
    Decidable (SafeAct crc d s a) :=
  inferInstanceAs (Decidable (_ ∧ _))

/-- What a power run may come to from a world it has reached. -/
inductive PowerSince (crc : Bytes → UInt32) (w₁ : World) (ops₁ d₁ : List Command) :
    World → List Command → List Command → Prop
  | refl : PowerSince crc w₁ ops₁ d₁ w₁ ops₁ d₁
  | opened {fs : Fs FileName} {ops d : List Command} {listing : List FileName} {now : ℕ} {s : Sys}
      (cfg : Config) (h : PowerSince crc w₁ ops₁ d₁ (.closed fs) ops d)
      (hlist : (fs.create .lock).Lists listing)
      (hopen : (openStore crc listing now fs).result = .ok s) :
      PowerSince crc w₁ ops₁ d₁ (.running cfg s) ops d
  | act {cfg : Config} {s s' : Sys} {ops d : List Command} {a : Act}
      (h : PowerSince crc w₁ ops₁ d₁ (.running cfg s) ops d) (hp : SafeAct crc d s a)
      (hs : step crc cfg s a = some s') :
      PowerSince crc w₁ ops₁ d₁ (.running cfg s') (ops ++ finished crc s s')
        (coveredBy s' (ops ++ finished crc s s' ++ s'.lock.written crc) d)
  | crash {cfg : Config} {s : Sys} {ops d : List Command}
      (h : PowerSince crc w₁ ops₁ d₁ (.running cfg s) ops d) :
      PowerSince crc w₁ ops₁ d₁ (.closed s.fs) (ops ++ s.lock.written crc) d
  | close {cfg : Config} {s : Sys} {ops d : List Command} {fs : Fs FileName}
      (h : PowerSince crc w₁ ops₁ d₁ (.running cfg s) ops d) (hc : s.close = some fs) :
      PowerSince crc w₁ ops₁ d₁ (.closed fs) ops (if s.lock = .free then ops else d)

/-- All appends that are over are promised: one of them has just returned under `SyncOnEveryPut`, or
the store has just been closed with its writer lock free. -/
inductive Promise (crc : Bytes → UInt32) : World → List Command → List Command → Prop
  | returned {cfg : Config} {s s' : Sys} {ops d : List Command} {a : Act}
      (h : PowerRun crc (SafeAct crc) (.running cfg s) ops d) (hp : SafeAct crc d s a)
      (hs : step crc cfg s a = some s') (hpolicy : cfg.durabilityPolicy = .syncOnEveryPut)
      (hr : Returns s a s') :
      Promise crc (.running cfg s') (ops ++ s.lock.inFlight)
        (coveredBy s' (ops ++ finished crc s s' ++ s'.lock.written crc) d)
  | closed {cfg : Config} {s : Sys} {ops d : List Command} {fs : Fs FileName}
      (h : PowerRun crc (SafeAct crc) (.running cfg s) ops d) (hc : s.close = some fs)
      (hfree : s.lock = .free) : Promise crc (.closed fs) ops (if s.lock = .free then ops else d)

section Runs

variable {crc : Bytes → UInt32} {w w₁ : World} {ops ops₁ d d₁ : List Command} {cfg : Config} {s s' : Sys}
  {a : Act}

theorem PowerSince.run (h : PowerSince crc w₁ ops₁ d₁ w ops d)
    (h₁ : PowerRun crc (SafeAct crc) w₁ ops₁ d₁) : PowerRun crc (SafeAct crc) w ops d := by
  induction h with
  | refl => exact h₁
  | opened cfg _ hlist hopen ih => exact .opened cfg ih hlist hopen
  | act _ hp hs ih => exact .act ih hp hs
  | crash _ ih => exact .crash ih
  | close _ hc ih => exact .close ih hc

/-- What is synced is logged. -/
theorem Running.covered_step (h : Running crc cfg ops d s) (hs : Step crc cfg s a s') :
    d <+: coveredBy s' (ops ++ finished crc s s' ++ s'.lock.written crc) d := by
  unfold coveredBy
  split
  · rw [List.append_assoc, finished_written hs, ← List.append_assoc]
    exact h.covered.trans (List.prefix_append ..)
  · exact List.prefix_rfl

/-- What is synced stays synced. -/
theorem PowerSince.durable_prefix (h : PowerSince crc w₁ ops₁ d₁ w ops d)
    (h₁ : PowerRun crc (SafeAct crc) w₁ ops₁ d₁) : d₁ <+: d := by
  induction h with
  | refl => exact List.prefix_rfl
  | opened _ _ _ _ ih => exact ih
  | act hr _ hs ih => exact ih.trans (Running.covered_step (hr.run h₁).safe (step_cases hs))
  | crash _ ih => exact ih
  | @close cfg s ops d fs hr hc ih =>
    split
    · rename_i hfree
      have hcov := Running.covered (hr.run h₁).safe
      rw [hfree, show Lock.written crc .free = [] from rfl, List.append_nil] at hcov
      exact ih.trans hcov
    · exact ih

theorem PowerSince.of_steps {acts : List Act} {s₁ : Sys} {ops' d' : List Command}
    (h : PowerSince crc w₁ ops₁ d₁ (.running cfg s) ops d)
    (hs : powerSteps crc cfg (SafeAct crc) acts s ops d = some (s₁, ops', d')) :
    PowerSince crc w₁ ops₁ d₁ (.running cfg s₁) ops' d' := by
  induction acts generalizing s ops d with
  | nil =>
    cases hs
    exact h
  | cons a acts ih =>
    unfold powerSteps at hs
    split at hs
    · rename_i hp
      obtain ⟨s₂, hs₂, hs⟩ := Option.bind_eq_some_iff.mp hs
      exact ih (.act h hp hs₂) hs
    · cases hs

/-! ## Promises -/

/-- The session a running store is in. -/
theorem PowerRun.session (h : PowerRun crc (SafeAct crc) (.running cfg s) ops d) :
    ∃ fs₀, Session crc cfg (fun _ a => a.Nominal) fs₀ s := by
  generalize hw : World.running cfg s = w at h
  induction h generalizing cfg s with
  | empty | crash | close => cases hw
  | @opened fs _ _ _ _ _ _ _ hlist hopen =>
    cases hw
    exact ⟨fs, .opened hlist hopen⟩
  | act _ hp hs ih =>
    cases hw
    obtain ⟨fs₀, hsession⟩ := ih rfl
    exact ⟨fs₀, hsession.step hp.1 hs⟩

/-- An append that returns is over with its record complete. -/
theorem Returns.finished (hs : Step crc cfg s a s') (hn : a.Nominal) (hr : Returns s a s') :
    finished crc s s' = s.lock.inFlight := by
  obtain ⟨-, -, hlock⟩ := hs.returns hn hr
  rw [Bitcask.finished, hr.2.1, if_pos (show Lock.free.inFlight = [] from rfl)]
  rcases hlock with ⟨c, hl⟩ | ⟨next, caller, hl⟩ <;> rw [hl] <;> rfl

/-- Under `SyncOnEveryPut` the active file is synced when an append returns. -/
theorem Returns.synced (h : PowerRun crc (SafeAct crc) (.running cfg s) ops d) (hn : a.Nominal)
    (hs : Step crc cfg s a s') (hpolicy : cfg.durabilityPolicy = .syncOnEveryPut)
    (hr : Returns s a s') : Synced s'.fs s'.writer.file := by
  obtain ⟨fs₀, hsession⟩ := h.session
  obtain ⟨hfs, hw, hlock⟩ := hs.returns hn hr
  rw [hfs, hw]
  refine (hsession.unchecked.covered.active ?_).2
  rcases hlock with ⟨c, hl⟩ | ⟨next, caller, hl⟩ <;> rw [hl]
  · exact hpolicy
  · trivial

/-- A promise is about a run, in which all appends that are over are synced. -/
theorem Promise.covered (h : Promise crc w ops d) : PowerRun crc (SafeAct crc) w ops d ∧ d = ops := by
  cases h with
  | @returned cfg s s' ops d a h hp hs hpolicy hr =>
    have hfinished := hr.finished (step_cases hs) hp.1
    have hsynced : (s'.fs.bytes s'.writer.file).length ≤ s'.fs.synced s'.writer.file :=
      Returns.synced h hp.1 (step_cases hs) hpolicy hr
    have hd : coveredBy s' (ops ++ finished crc s s' ++ s'.lock.written crc) d =
        ops ++ s.lock.inFlight := by
      rw [coveredBy, if_pos hsynced, hr.2.1, hfinished]
      exact List.append_nil _
    refine ⟨?_, hd⟩
    have hrun := h.act hp hs
    rwa [hfinished] at hrun ⊢
  | closed h hc hfree => exact ⟨h.close hc, if_pos hfree⟩

end Runs

/-- Promises survive power losses. An append that returned under `SyncOnEveryPut`, and every append
before it, and all appends before the store was closed in order under any policy, are in the log that
`open` recovers after a power loss at any later moment outside `open`: in the same session or in later
ones, under any policies, in the middle of an append or of a merge, or after a crash. The condition is
that no filesystem call fails and that a merge never removes the last synced record of a synced
key. -/
theorem promises_survive_power_loss {crc : Bytes → UInt32} {w₁ w : World}
    {ops₁ d₁ ops d : List Command} {fs : Fs FileName} (h₁ : Promise crc w₁ ops₁ d₁)
    (h : PowerSince crc w₁ ops₁ d₁ w ops d) (hloss : w.fs.PowerLoss fs) {listing : List FileName}
    (hlist : (fs.create .lock).Lists listing) (now : ℕ) :
    ∃ s p, (openStore crc listing now fs).result = .ok s ∧ s.Agrees crc p ∧ ops₁ <+: p ∧
      p <+: ops ++ w.inFlight := by
  obtain ⟨hrun₁, rfl⟩ := h₁.covered
  obtain ⟨p, hd, hp, hdisk⟩ := (h.run hrun₁).safe.powerLoss hloss
  obtain ⟨s, hs, ho⟩ := hdisk.opens hlist
  obtain ⟨recs, hl⟩ := hdisk.link ho Config.new
  refine ⟨s, p, hs, fun key => ?_, (h.durable_prefix hrun₁).trans hd, hp⟩
  rw [plainMap_eq]
  exact hl.get key

/-- A set up to its last step, and a second one up to its index update. -/
def setBeforeReturn : List Act := Call.acts crc32 (.set "a" "1") 6

def setBeforeSync : List Act :=
  [.begin (.set "b" "2") 0, .write (((Call.set "b" "2").command 0).serialize crc32).length, .writer 0]

/-- Five bytes are left of the second set, which has not returned. -/
theorem promises_survive_power_loss_later : ∃ s s' ops d s₂ ops₂ d₂,
    powerSteps crc32 syncEvery (SafeAct crc32) setBeforeReturn (emptyStore crc32) [] [] =
      some (s, ops, d) ∧
    step crc32 syncEvery s (.writer 0) = some s' ∧ Returns s (.writer 0) s' ∧
    powerSteps crc32 syncEvery (SafeAct crc32) setBeforeSync s' (ops ++ s.lock.inFlight)
      (ops ++ s.lock.inFlight) = some (s₂, ops₂, d₂) ∧
    s₂.lock.inFlight = [.set 0 (asBytes "b") (asBytes "2")] ∧
    ∃ s₃ p, (openStore crc32 [.lock, .data 1, .data 2] 0 (cutAt s₂.fs s₂.writer.file 5)).result =
        .ok s₃ ∧ s₃.Agrees crc32 p ∧ [.set 0 (asBytes "a") (asBytes "1")] <+: p ∧
      p <+: ops₂ ++ s₂.lock.inFlight := by
  have hrun : (powerSteps crc32 syncEvery (SafeAct crc32) setBeforeReturn (emptyStore crc32) []
      []).any fun r => r.2.1 ++ r.1.lock.inFlight = [.set 0 (asBytes "a") (asBytes "1")] ∧
        (step crc32 syncEvery r.1 (.writer 0)).any fun s' => Returns r.1 (.writer 0) s' ∧
          (powerSteps crc32 syncEvery (SafeAct crc32) setBeforeSync s' (r.2.1 ++ r.1.lock.inFlight)
            (r.2.1 ++ r.1.lock.inFlight)).any fun r₂ =>
              r₂.1.lock.inFlight = [.set 0 (asBytes "b") (asBytes "2")] ∧
              r₂.1.fs.synced r₂.1.writer.file ≤ 5 ∧
              [.lock, .data 1, .data 2].toFinset =
                ((cutAt r₂.1.fs r₂.1.writer.file 5).create .lock).dir.keys := by
    decide +kernel
  obtain ⟨⟨s, ops, d⟩, hs, hc⟩ := (Option.any_eq_true ..).mp hrun
  obtain ⟨hops, hc⟩ := of_decide_eq_true hc
  obtain ⟨s', hs', hc⟩ := (Option.any_eq_true ..).mp hc
  obtain ⟨hr, hc⟩ := of_decide_eq_true hc
  obtain ⟨⟨s₂, ops₂, d₂⟩, hs₂, hc⟩ := (Option.any_eq_true ..).mp hc
  obtain ⟨hflight, hsync, hkeys⟩ := of_decide_eq_true hc
  have hsafe : SafeAct crc32 d s (.writer 0) := ⟨trivial, trivial⟩
  have hpromise := Promise.returned (PowerRun.firstSession hs) hsafe hs' rfl hr
  obtain ⟨-, hd⟩ := hpromise.covered
  rw [hd] at hpromise
  have hlater := PowerSince.of_steps (.refl : PowerSince crc32 (.running syncEvery s') _ _ _ _ _) hs₂
  have hloss : (World.running syncEvery s₂).fs.PowerLoss (cutAt s₂.fs s₂.writer.file 5) :=
    powerLoss_cutAt hsync
  have hsurvive := promises_survive_power_loss hpromise hlater hloss
    (Fs.lists_of_keys (by decide) hkeys) 0
  rw [hops] at hsurvive
  exact ⟨s, s', ops, d, s₂, ops₂, d₂, hs, hs', hr, hs₂, hflight, hsurvive⟩

end Bitcask
