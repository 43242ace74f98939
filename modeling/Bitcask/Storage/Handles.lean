import Bitcask.Storage.Accounting
import Bitcask.Storage.Lifecycle

/-!
# The compaction thread, the writer lock and the handle agree

1. `Sys.Rotates`: `rotate_to` has `run_compaction` as its caller exactly while that rotates the
   active file.
2. `Live.Inv` ties the place of the thread in its loop to `run_compaction`, and the end of the handle
   to the calls. `weak.upgrade()` never fails, and when `drop` takes the writer lock, nobody holds it
   (`Live.Inv.unlocked`).
-/

namespace Bitcask

open LittleEndian FileSystem SegmentedLog

/-! ## The rotation of a merge -/

/-- `rotate_to` is called by `run_compaction` while that rotates the active file, and only then. -/
def Sys.Rotates (s : Sys) : Prop :=
  (∃ r, s.merge = .rotating r) ↔ ∃ st next, s.lock = .rotateTo st next .compaction

section Rotates

variable {crc : Bytes → UInt32} {cfg : Config} {s s' : Sys} {a : Act}

/-- A step that touches neither side. -/
theorem Sys.Rotates.frame (h : s.Rotates) (hm : s'.merge = s.merge)
    (hl : s.lock ≠ s'.lock → (∀ st next, s.lock ≠ .rotateTo st next .compaction) ∧
      ∀ st next, s'.lock ≠ .rotateTo st next .compaction) : s'.Rotates := by
  unfold Sys.Rotates at h ⊢
  rw [hm, h]
  by_cases he : s.lock = s'.lock
  · rw [he]
  · obtain ⟨h₁, h₂⟩ := hl he
    exact ⟨fun ⟨st, next, h⟩ => absurd h (h₁ st next), fun ⟨st, next, h⟩ => absurd h (h₂ st next)⟩

theorem Sys.Rotates.neither (hm : ∀ r, s.merge ≠ .rotating r)
    (hl : ∀ st next, s.lock ≠ .rotateTo st next .compaction) : s.Rotates :=
  ⟨fun ⟨r, h⟩ => absurd h (hm r), fun ⟨st, next, h⟩ => absurd h (hl st next)⟩

theorem Sys.Rotates.writerStep (h : s.Rotates) (hs : WriterStep crc cfg s a s') : s'.Rotates := by
  cases hs with
  | rotateSync next now caller hl | rotateCreate next now caller hl
  | rotateClock next now caller hl =>
    cases caller with
    | append c => exact h.frame rfl (by simp [hl, Sys.rotateTo])
    | compaction =>
      unfold Sys.Rotates at h ⊢
      exact ⟨fun _ => ⟨_, _, rfl⟩, fun _ => h.mpr ⟨_, _, hl⟩⟩
  | rotateReader next now caller i hl hi =>
    cases caller with
    | append c => exact h.frame rfl (by simp [hl, Sys.endRotate])
    | compaction =>
      obtain ⟨r, hm⟩ := h.mpr ⟨_, _, hl⟩
      have he : ((s.readersUpdate next i).endRotate .compaction) =
          { s.readersUpdate next i with lock := .free, merge := .nextFile r none } := by
        simp [Sys.endRotate, Sys.readersUpdate, hm]
      rw [he]
      exact .neither (by simp) (by simp)
  | rotateMissing next now caller hl hi | failRotate st next caller e hl =>
    cases caller with
    | append c => exact h.frame rfl (by simp [hl, Sys.failRotate])
    | compaction => exact .neither (by simp [Sys.failRotate]) (by simp [Sys.failRotate])
  | begin call ts hl => exact h.frame rfl (by simp [hl])
  | write c done n hl hn hm => exact h.frame rfl (by simp [hl])
  | publish c now hl => exact h.frame rfl (by simp [hl, Sys.publish])
  | policySkip c now hl hp => exact h.frame rfl (by simp [hl])
  | policySync c now last hl hp => exact h.frame rfl (by simp [hl])
  | policyPanic c now hl hp hn => exact h.frame rfl (by simp [hl])
  | notFull c now hl ho => exact h.frame rfl (by simp [hl])
  | full c now hl ho => exact h.frame rfl (by simp [hl])
  | failWrite c done e hl hn => exact h.frame rfl (by simp [hl])
  | failPolicy c e hl => exact h.frame rfl (by simp [hl])

/-- While the thread is past the rotation, the lock is not its own. -/
theorem Sys.Rotates.lock_ne (h : s.Rotates) (hm : ∀ r, s.merge ≠ .rotating r) (st : RotateStep)
    (next : ℕ) : s.lock ≠ .rotateTo st next .compaction := fun hl =>
  (h.mpr ⟨st, next, hl⟩).elim hm

theorem MergeStep.not_rotating (hs : MergeStep crc cfg s s') :
    (∀ r, s.merge ≠ .rotating r) ∧ ∀ r, s'.merge ≠ .rotating r := by
  cases hs <;>
    simp_all [Sys.failOutput, Sys.failMerge, Sys.openHint]

theorem heldOutput_not_rotating {m : Merge} {out : MergeOutput} (h : Sys.heldOutput m = some out)
    (out' : MergeOutput) :
    (∀ r, m ≠ .rotating r) ∧ ∀ r, Sys.withOutput out' m ≠ .rotating r := by
  cases m with
  | nextFile r o =>
    cases o with
    | none => cases h
    | some o => simp [Sys.withOutput]
  | records | finish => simp [Sys.withOutput]
  | _ => cases h

theorem callsFs_not_rotating {m : Merge} (h : Sys.callsFs m = true) (r : MergeRun) :
    m ≠ .rotating r := by
  rintro rfl
  cases h

theorem Sys.Rotates.step (h : s.Rotates) (hs : Step crc cfg s a s') : s'.Rotates := by
  cases hs with
  | writer hw => exact h.writerStep hw
  | merge hm =>
    obtain ⟨h₁, h₂⟩ := hm.not_rotating
    refine .neither h₂ fun st next hl => ?_
    rcases hm.lock_eq with he | ⟨-, he⟩
    · exact h.lock_ne h₁ st next (he ▸ hl)
    · rw [he] at hl; cases hl
  | startNot last res hm hl hres hn =>
    exact .neither (by simp) (h.lock_ne (by simp [hm]))
  | startPanic => exact .neither (by simp) (by simp)
  | start => exact ⟨fun _ => ⟨_, _, rfl⟩, fun _ => ⟨_, rfl⟩⟩
  | spill out n m ho =>
    obtain ⟨h₁, h₂⟩ := heldOutput_not_rotating ho
      { out with dataBuf := out.dataBuf.drop n, hintBuf := out.hintBuf.drop m }
    exact .neither h₂ (h.lock_ne h₁)
  | mergeErr e data hint hc ho =>
    exact .neither (by simp [Sys.failMerge]) (h.lock_ne (callsFs_not_rotating hc))
  | outputErr out e data hint hc ho =>
    exact .neither (by simp [Sys.failMerge]) (h.lock_ne (callsFs_not_rotating hc))

/-- Outside of `run_compaction` only its entry changes where the thread is. -/
theorem Sys.Rotates.merge_eq (h : s.Rotates) (hm : s.merge.running = false) (ha : a ≠ .start)
    (hs : Step crc cfg s a s') : s'.merge = s.merge := by
  have hidle : ∀ r, s.merge ≠ .rotating r := by
    intro r hr
    rw [hr] at hm
    cases hm
  cases hs with
  | writer hw =>
    cases hw with
    | rotateReader next now caller i hl hi =>
      cases caller with
      | append c => rfl
      | compaction => exact absurd hl (h.lock_ne hidle _ _)
    | rotateMissing next now caller hl hi | failRotate st next caller e hl =>
      cases caller with
      | append c => rfl
      | compaction => exact absurd hl (h.lock_ne hidle _ _)
    | _ => rfl
  | merge hs =>
    exfalso
    cases hs <;> simp_all [Merge.running]
  | startNot | startPanic | start => exact absurd rfl ha
  | spill out n m ho =>
    cases hm' : s.merge with
    | idle | dead => rw [hm'] at ho; cases ho
    | _ => rw [hm'] at hm; cases hm
  | mergeErr e data hint hc ho | outputErr out e data hint hc ho =>
    cases hm' : s.merge with
    | idle | dead => rw [hm'] at hc; cases hc
    | _ => rw [hm'] at hm; cases hm

/-- When nobody holds the lock and `run_compaction` is not under way, a store moves only by a call
that takes the lock, or by its thread entering `run_compaction`. -/
theorem Step.of_rest (hl : s.lock = .free ∨ s.lock = .poisoned) (hm : s.merge.running = false)
    (hb : ∀ call ts, a ≠ .begin call ts) (ha : a ≠ .start) : ¬ Step crc cfg s a s' := by
  have hlock : s.lock ≠ .free → s.lock ≠ .poisoned → False := fun h₁ h₂ => hl.elim h₁ h₂
  intro hs
  cases hs with
  | writer hw =>
    cases hw with
    | begin call ts => exact hb call ts rfl
    | write c done n h | publish c now h | policySkip c now h | policySync c now last h
    | policyPanic c now h | notFull c now h | full c now h | rotateSync next now caller h
    | rotateCreate next now caller h | rotateClock next now caller h
    | rotateReader next now caller i h | rotateMissing next now caller h | failWrite c done e h
    | failPolicy c e h | failRotate st next caller e h =>
      exact hlock (by rw [h]; simp) (by rw [h]; simp)
  | merge h => cases h <;> simp_all [Merge.running]
  | startNot | startPanic | start => exact ha rfl
  | spill out n m ho =>
    cases hm' : s.merge with
    | idle | dead => rw [hm'] at ho; cases ho
    | _ => rw [hm'] at hm; cases hm
  | mergeErr e data hint hc ho | outputErr out e data hint hc ho =>
    cases hm' : s.merge with
    | idle | dead => rw [hm'] at hc; cases hc
    | _ => rw [hm'] at hm; cases hm

/-- Between the index update and `handle_policy` only the lock holder changes the lock. -/
theorem Step.lock_policy {c : Command} (hl : s.lock = .policy c) (hw : ∀ now, a ≠ .writer now)
    (he : ∀ e, a ≠ .writerErr e) (hs : Step crc cfg s a s') : s'.lock = s.lock := by
  cases hs with
  | writer h =>
    cases h with
    | begin | write => simp_all
    | failWrite c done e | failPolicy c e | failRotate st next caller e => exact absurd rfl (he e)
    | publish c now | policySkip c now | policySync c now | policyPanic c now | notFull c now
    | full c now | rotateSync next now | rotateCreate next now | rotateClock next now
    | rotateReader next now | rotateMissing next now => exact absurd rfl (hw now)
  | merge hm =>
    refine hm.lock_eq.resolve_right ?_
    rintro ⟨hf, -⟩
    rw [hl] at hf; cases hf
  | startPanic last hm hf | start last hm hf => rw [hl] at hf; cases hf
  | _ => rfl

theorem Step.of_published (hs : Step crc cfg s a s') (hp : published crc s a ≠ []) :
    ∃ c, s'.lock = .policy c := by
  cases hs with
  | writer hw =>
    cases hw with
    | publish c now hl => exact ⟨c, rfl⟩
    | _ => simp_all [published]
  | _ => exact absurd rfl hp

end Rotates

/-! ## The calls -/

section Calls

variable {crc : Bytes → UInt32} {cfg : Config} {c c' : Clients} {evs : List ClientEvent} {m : Move}

/-- A move of the clients is a step of the store, or leaves it alone. -/
theorem ClientStep.store (hs : ClientStep crc cfg c m c' evs) :
    (c'.store = c.store ∧ ∀ a, m ≠ .store a) ∨
      (∃ t ts call, m = .run t ts ∧ Step crc cfg c.store (.begin call ts) c'.store) ∨
      ∃ a, m = .store a ∧ Step crc cfg c.store a c'.store := by
  cases hs with
  | begin t ts call s hp hs => exact Or.inr (Or.inl ⟨t, ts, call, rfl, hs⟩)
  | other a s hb hs hh => exact Or.inr (Or.inr ⟨a, rfl, hs⟩)
  | append a s t hb hs hh hf => exact Or.inr (Or.inr ⟨a, rfl, hs⟩)
  | finish a s t hb hs hh hf => exact Or.inr (Or.inr ⟨a, rfl, hs⟩)
  | _ => exact Or.inl ⟨rfl, by simp⟩

/-- When all calls are over, only the store moves. -/
theorem ClientStep.calls_over (ho : c.Owner) (hs : ClientStep crc cfg c m c' evs)
    (hc : ∀ t, c.calls t = .unborn ∨ c.calls t = .returned) (hm : m.makes = []) :
    c'.calls = c.calls ∧ ∃ a, m = .store a ∧ (∀ call ts, a ≠ .begin call ts) ∧
      Step crc cfg c.store a c'.store := by
  have hne : ∀ {t p}, c.calls t = p → p ≠ .unborn → p ≠ .returned → False := by
    intro t p hp h₁ h₂
    rcases hc t with h | h
    · exact h₁ (hp.symm.trans h)
    · exact h₂ (hp.symm.trans h)
  have hheld : ∀ t, c.holder = some t → False := by
    intro t hh
    obtain ⟨call, ts, hp, -⟩ := ho.held t hh
    exact hne hp (by simp) (by simp)
  cases hs with
  | invoke t call hp => cases hm
  | other a s hb hs hh => exact ⟨rfl, a, rfl, hb, hs⟩
  | append a s t hb hs hh hf => exact (hheld t hh).elim
  | finish a s t hb hs hh hf => exact (hheld t hh).elim
  | begin t ts call s hp hs => exact (hne hp (by simp) (by simp)).elim
  | missing t ts key hp | found t ts key e hp | retry t ts key e hp | load t ts key e i hp
  | pread t ts key e i hp | absent t ts key hp | present t ts key e hp | poisoned t ts call hp =>
    exact (hne hp (by simp) (by simp)).elim

end Calls

/-! ## The thread and the handle -/

/-- The thread is in `run_compaction` exactly when its loop is there. -/
def Worker.At (merge : Merge) : Worker → Prop
  | .compacting => merge.running = true
  | .exited => merge.running = false
  | .receiving | .received | .entering => ∃ last, merge = .idle last

/-- The thread, the lock holder and the handle agree. -/
structure Live.Inv (l : Live) : Prop where
  owner : l.clients.Owner
  rotates : l.store.Rotates
  worker : l.worker.At l.store.merge
  triggering : l.triggering = true → ∃ c, l.store.lock = .policy c
  unborn : ∀ t, t ∉ l.made → l.clients.calls t = .unborn
  ended : l.handle.isAlive = false → ∀ t ∈ l.made, l.clients.calls t = .returned
  joined : l.handle = .syncing ∨ l.handle = .dropped → l.worker = .exited

section Inv

variable {crc : Bytes → UInt32} {cfg : Config} {l l' : Live} {evs : List ClientEvent} {a : LiveAct}
  {s s' : Sys}

theorem Worker.At.not_running {w : Worker} {merge : Merge} (h : w.At merge) (hw : w ≠ .compacting) :
    merge.running = false := by
  cases w with
  | compacting => exact absurd rfl hw
  | exited => exact h
  | receiving | received | entering =>
    obtain ⟨last, rfl⟩ := h
    rfl

theorem Worker.At.dead {w : Worker} (h : w.At .dead) : w = .exited := by
  cases w with
  | exited => rfl
  | compacting => cases h
  | receiving | received | entering =>
    obtain ⟨last, h⟩ := h
    cases h

theorem Worker.At.enter {w : Worker} {m : Move} (hm : m.isStart = true ∨ w = .compacting)
    (merge : Merge) : (w.after m merge).At merge := by
  unfold Worker.after
  rw [if_pos hm]
  cases merge with
  | idle last => exact ⟨last, rfl⟩
  | _ => rfl

theorem Worker.after_of_not {w : Worker} {m : Move} {merge : Merge} (hm : m.isStart = false)
    (hw : w ≠ .compacting) : w.after m merge = w := by
  unfold Worker.after
  rw [if_neg (by simp [hm, hw])]

theorem Worker.At.step {w : Worker} {a : Act} (h : w.At s.merge) (hr : s.Rotates)
    (hs : Step crc cfg s a s') : (w.after (.store a) s'.merge).At s'.merge := by
  by_cases hin : (Move.store a).isStart = true ∨ w = .compacting
  · exact .enter hin _
  · obtain ⟨hm, hw⟩ := not_or.mp hin
    rw [Worker.after_of_not (Bool.eq_false_iff.mpr hm) hw,
      hr.merge_eq (h.not_running hw) (by rintro rfl; exact hm rfl) hs]
    exact h

theorem Worker.At.stay {w : Worker} {m : Move} {merge : Merge} (h : w.At merge)
    (hm : m.isStart = false) : (w.after m merge).At merge := by
  by_cases hw : w = .compacting
  · exact .enter (Or.inr hw) _
  · rw [Worker.after_of_not hm hw]
    exact h

/-- After the last `Bitcask` is dropped no call is under way. -/
theorem Live.Inv.quiet (h : l.Inv) (hh : l.handle.isAlive = false) (t : ℕ) :
    l.clients.calls t = .unborn ∨ l.clients.calls t = .returned := by
  by_cases ht : t ∈ l.made
  · exact Or.inr (h.ended hh t ht)
  · exact Or.inl (h.unborn t ht)

theorem Live.Inv.start (hl : s.lock = .free) (hm : s.merge = .idle none) : (Live.start s).Inv where
  owner := ⟨fun _ => by show s.lock.inFlight = []; rw [hl]; rfl, by simp [Live.start], by simp [Live.start]⟩
  rotates := .neither (by simp [hm]) (by simp [hl])
  worker := ⟨none, hm⟩
  triggering := by simp [Live.start]
  unborn _ _ := rfl
  ended h := by cases h
  joined := by simp [Live.start]

theorem Live.Inv.move (h : l.Inv) {m : Move} {c : Clients} (ha : l.allows m = true)
    (hs : ClientStep crc cfg l.clients m c evs) :
    Live.Inv { l with
      clients := c
      worker := l.worker.after m c.store.merge
      triggering := l.triggering || m.publishes crc l.store
      made := m.makes ++ l.made } where
  owner := h.owner.step hs
  rotates := by
    rcases hs.store with ⟨he, -⟩ | ⟨_, _, _, _, hst⟩ | ⟨_, _, hst⟩
    · show c.store.Rotates
      rw [he]
      exact h.rotates
    · exact h.rotates.step hst
    · exact h.rotates.step hst
  worker := by
    rcases hs.store with ⟨he, hm⟩ | ⟨t, ts, call, rfl, hst⟩ | ⟨a, rfl, hst⟩
    · show (l.worker.after m c.store.merge).At c.store.merge
      rw [he]
      refine h.worker.stay ?_
      cases m with
      | store a => exact absurd rfl (hm a)
      | _ => rfl
    · have hmerge : c.store.merge = l.store.merge := by rw [hst.of_begin.2]
      show (l.worker.after (.run t ts) c.store.merge).At c.store.merge
      rw [hmerge]
      exact h.worker.stay rfl
    · exact h.worker.step h.rotates hst
  triggering := by
    intro ht
    rcases hs.store with ⟨he, hm⟩ | ⟨t, ts, call, rfl, hst⟩ | ⟨a, rfl, hst⟩
    · show ∃ cmd, c.store.lock = .policy cmd
      rw [he]
      refine h.triggering ((Bool.or_eq_true_iff.mp ht).resolve_right ?_)
      cases m with
      | store a => exact absurd rfl (hm a)
      | _ => simp [Move.publishes]
    · -- taking the lock needs it to be free
      obtain ⟨cmd, hl⟩ := h.triggering ((Bool.or_eq_true_iff.mp ht).resolve_right (by simp [Move.publishes]))
      cases hl.symm.trans hst.of_begin.1
    · by_cases hpub : published crc l.store a = []
      · have ht' : l.triggering = true := by simpa [Move.publishes, hpub] using ht
        obtain ⟨cmd, hl⟩ := h.triggering ht'
        refine ⟨cmd, (hst.lock_policy hl ?_ ?_).trans hl⟩
        · rintro now rfl
          simp [Live.allows, ht'] at ha
        · rintro e rfl
          simp [Live.allows, ht'] at ha
      · exact hst.of_published hpub
  unborn t ht := by
    rw [List.mem_append, not_or] at ht
    exact hs.unborn h.owner ht.1 (h.unborn t ht.2)
  ended hh t ht := by
    have hmakes : m.makes = [] := by
      cases m with
      | invoke t' call => simp_all [Live.allows]
      | _ => rfl
    obtain ⟨hcalls, -⟩ := hs.calls_over h.owner (h.quiet hh) hmakes
    show c.calls t = .returned
    rw [hmakes] at ht
    rw [hcalls]
    exact h.ended hh t ht
  joined hh := by
    have hw := h.joined hh
    show l.worker.after m c.store.merge = .exited
    rw [Worker.after_of_not ?_ (by rw [hw]; decide), hw]
    by_contra hm
    cases m with
    | store a =>
      cases a with
      | start => simp [Live.allows, hw] at ha
      | _ => exact hm rfl
    | _ => exact hm rfl

theorem Live.Inv.step (h : l.Inv) (hs : LiveStep crc cfg l a l' evs) : l'.Inv := by
  cases hs with
  | move m c evs ha hs => exact h.move ha hs
  | trigger ht => exact ⟨h.owner, h.rotates, h.worker, by simp, h.unborn, h.ended, h.joined⟩
  | recv hw hq =>
    have hwk := h.worker
    rw [hw] at hwk
    refine ⟨h.owner, h.rotates, hwk, h.triggering, h.unborn, h.ended, fun hh => ?_⟩
    cases hw.symm.trans (h.joined hh)
  | hangUp hw hq hh =>
    have hidle := h.worker.not_running (by rw [hw]; decide)
    exact ⟨h.owner, h.rotates, hidle, h.triggering, h.unborn, h.ended, fun _ => rfl⟩
  | upgrade hw hh =>
    have hwk := h.worker
    rw [hw] at hwk
    refine ⟨h.owner, h.rotates, hwk, h.triggering, h.unborn, h.ended, fun hh => ?_⟩
    cases hw.symm.trans (h.joined hh)
  | upgradeFails hw hh => cases hw.symm.trans (h.joined (Or.inr hh))
  | clone n hh => exact ⟨h.owner, h.rotates, h.worker, h.triggering, h.unborn, by simp [Handle.isAlive], by simp⟩
  | drop n hh => exact ⟨h.owner, h.rotates, h.worker, h.triggering, h.unborn, by simp [Handle.isAlive], by simp⟩
  | dropLast hh hc => exact ⟨h.owner, h.rotates, h.worker, h.triggering, h.unborn, fun _ => hc, by simp⟩
  | join hh hw =>
    exact ⟨h.owner, h.rotates, h.worker, h.triggering, h.unborn, fun _ => h.ended (by rw [hh]; rfl), fun _ => hw⟩
  | syncPoisoned ok hh hl =>
    exact ⟨h.owner, h.rotates, h.worker, h.triggering, h.unborn, fun _ => h.ended (by rw [hh]; rfl),
      fun _ => h.joined (Or.inl hh)⟩
  | sync ok hh hl =>
    have hstore : ∀ s : Sys, s.lock = l.store.lock → s.merge = l.store.merge →
        Live.Inv { l with clients := { l.clients with store := s }, handle := .dropped } := by
      intro s hlock hmerge
      refine ⟨⟨?_, ?_, h.owner.sole⟩, ?_, ?_, ?_, h.unborn, fun _ => h.ended (by rw [hh]; rfl),
        fun _ => h.joined (Or.inl hh)⟩
      · intro hn
        rw [hlock]
        exact h.owner.free hn
      · intro t ht
        rw [hlock]
        exact h.owner.held t ht
      · exact h.rotates.frame hmerge fun hne => absurd hlock.symm hne
      · show l.worker.At s.merge
        rw [hmerge]
        exact h.worker
      · intro ht
        rw [hlock]
        exact h.triggering ht
    cases ok with
    | true => exact hstore _ rfl rfl
    | false => exact hstore _ rfl rfl

theorem LiveRun.inv {P : Live → LiveAct → Prop} {s₀ : Sys} {tr : List ClientEvent}
    (hl : s₀.lock = .free) (hm : s₀.merge = .idle none) (h : LiveRun crc cfg P s₀ l tr) : l.Inv := by
  induction h with
  | start => exact .start hl hm
  | step _ _ hs ih => exact ih.step (liveStep_cases hs)

/-- When the last `Bitcask` is dropped and `run_compaction` is not under way, nobody holds the
writer lock. -/
theorem Live.Inv.unlocked (h : l.Inv) (hh : l.handle.isAlive = false)
    (hm : l.store.merge.running = false) : l.store.lock = .free ∨ l.store.lock = .poisoned := by
  have hnone : l.clients.holder = none := by
    by_contra hne
    obtain ⟨t, ht⟩ := Option.ne_none_iff_exists'.mp hne
    obtain ⟨call, ts, hp, -⟩ := h.owner.held t ht
    rcases h.quiet hh t with hq | hq
    · rw [hp] at hq; cases hq
    · rw [hp] at hq; cases hq
  have hf := h.owner.free hnone
  cases hl : l.store.lock with
  | free => exact Or.inl rfl
  | poisoned => exact Or.inr rfl
  | rotateTo st next caller =>
    cases caller with
    | append c => rw [hl] at hf; cases hf
    | compaction =>
      obtain ⟨r, hr⟩ := h.rotates.mpr ⟨st, next, hl⟩
      rw [hr] at hm; cases hm
  | writing | policy | rotateIfFull => rw [hl] at hf; cases hf

/-- A dropped store does not move. -/
theorem Live.Inv.still (h : l.Inv) (hh : l.handle = .dropped) : ¬ LiveStep crc cfg l a l' evs := by
  have hw := h.joined (Or.inr hh)
  have hm := h.worker.not_running (by rw [hw]; decide)
  have hl := h.unlocked (by rw [hh]; rfl) hm
  intro hs
  cases hs with
  | move m c evs ha hs =>
    have hmakes : m.makes = [] := by
      cases m with
      | invoke t call => simp [Live.allows, hh, Handle.isAlive] at ha
      | _ => rfl
    obtain ⟨-, a, rfl, hb, hs⟩ := hs.calls_over h.owner (h.quiet (by rw [hh]; rfl)) hmakes
    refine hs.of_rest hl hm hb ?_
    rintro rfl
    simp [Live.allows, hw] at ha
  | trigger ht =>
    obtain ⟨c, hc⟩ := h.triggering ht
    rw [hc] at hl
    simp at hl
  | recv hw' | hangUp hw' | upgrade hw' | upgradeFails hw' => cases hw.symm.trans hw'
  | clone n hh' | drop n hh' | dropLast hh' | join hh' | syncPoisoned ok hh' | sync ok hh' =>
    cases hh.symm.trans hh'

end Inv

end Bitcask
