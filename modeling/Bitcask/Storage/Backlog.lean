import Bitcask.Storage.Handles

/-!
# No merge is forgotten

`compaction_trigger` gives its signal up when the channel is full, and the compaction thread does
not look at the stale bytes before it goes to sleep. Still, once an append has updated the index,
the thread sleeps only when it has nothing to do (`no_merge_forgotten`): too little is stale, no
file is sealed, or the last merge has failed.

The invariant is `Live.Backlog`. Between the index update of an append and the end of the call, the
trigger is still to come, or a signal is on its way (`Live.Signalled`), or too little is stale.
Otherwise a signal is on its way, or the last look at the stale bytes is not out of date
(`Sys.Settled`): no index update has come after it.
-/

namespace Bitcask

open LittleEndian FileSystem

/-- The lock holder has updated the index for an append. -/
def Lock.published : Lock → Bool
  | .policy _ | .rotateIfFull _ | .rotateTo _ _ (.append _) => true
  | _ => false

/-- The thread will enter `run_compaction` after this, unless it is gone. -/
def Live.Signalled (l : Live) : Prop :=
  l.queued = true ∨ l.worker = .received ∨ l.worker = .entering ∨ l.worker = .exited

/-- A running merge will take away all stale bytes, or there is nothing to do for one, or the last one
has failed. -/
def Sys.Settled (cfg : Config) (s : Sys) : Prop :=
  if s.merge.running then s.merge.initStale = s.writer.staleBytesCount
  else s.writer.staleBytesCount < cfg.compactionThreshold ∨ s.writer.staleBytesCount = 0 ∨
    s.snapshot = [] ∨ ∃ e, s.merge = .idle (some (.error e))

/-! ## Steps of the store -/

section Steps

variable {crc : Bytes → UInt32} {cfg : Config} {s s' : Sys} {a : Act}

theorem Sys.Settled.congr (h : s.Settled cfg) (hm : s'.merge = s.merge)
    (hstale : s'.writer.staleBytesCount = s.writer.staleBytesCount)
    (hsnap : s'.snapshot = s.snapshot) : s'.Settled cfg := by
  unfold Sys.Settled at h ⊢
  rw [hm, hstale, hsnap]
  exact h

theorem Sys.Settled.of_small (hs : s.writer.staleBytesCount < cfg.compactionThreshold)
    (hrun : s.merge.running = true → cfg.compactionThreshold ≤ s.merge.initStale)
    (hread : s.merge.initStale ≤ s.writer.staleBytesCount) : s.Settled cfg := by
  unfold Sys.Settled
  split
  · rename_i hr
    exact absurd hs (Nat.not_lt_of_le ((hrun hr).trans hread))
  · exact Or.inl hs

theorem Sys.Settled.of_error {e : KvsError} (hm : s.merge = .idle (some (.error e))) :
    s.Settled cfg := by
  unfold Sys.Settled
  rw [hm, if_neg (by simp [Merge.running])]
  exact Or.inr (Or.inr (Or.inr ⟨e, rfl⟩))

theorem Sys.Settled.of_running (hm : s.merge.running = true)
    (he : s.merge.initStale = s.writer.staleBytesCount) : s.Settled cfg := by
  unfold Sys.Settled
  rwa [if_pos hm]

/-- Past the index update of an append, the stale bytes stay until the lock is given up. -/
theorem Step.stale_of_published (hl : s.lock.published = true) (hs : Step crc cfg s a s') :
    s'.writer.staleBytesCount = s.writer.staleBytesCount := by
  have hfree : s.lock ≠ .free := by
    intro hf
    rw [hf] at hl
    cases hl
  cases hs with
  | writer hw =>
    cases hw with
    | publish c now h => rw [h] at hl; cases hl
    | rotateReader next now caller i h hi =>
      cases caller with
      | append c => rfl
      | compaction => rw [h] at hl; cases hl
    | rotateMissing next now caller h hi | failRotate st next caller e h => cases caller <;> rfl
    | _ => rfl
  | merge hm =>
    cases hm with
    | subtract stale hm hf | subtractPanic stale hm hf => exact absurd hf hfree
    | _ => rfl
  | _ => rfl

theorem Step.not_start (hl : s.lock.published = true) (hs : Step crc cfg s a s') :
    (Move.store a).isStart = false := by
  cases a with
  | start =>
    cases hs with
    | writer hw => cases hw
    | startPanic last hm hf | start last hm hf => rw [hf] at hl; cases hl
    | startNot last res hm hf => rcases hf with hf | hf <;> (rw [hf] at hl; cases hl)
  | _ => rfl

/-- Only an index update gets the lock holder there. -/
theorem Step.published_lock (hl : s.lock.published = false) (hp : published crc s a = [])
    (hs : Step crc cfg s a s') : s'.lock.published = false := by
  cases hs with
  | writer hw =>
    cases hw with
    | publish c now h => simp [published, h] at hp
    | policySkip c now h | policySync c now last h | policyPanic c now h | notFull c now h
    | full c now h | failPolicy c e h => rw [h] at hl; cases hl
    | rotateSync next now caller h | rotateCreate next now caller h
    | rotateClock next now caller h =>
      cases caller with
      | append c => rw [h] at hl; cases hl
      | compaction => rfl
    | rotateReader next now caller i h hi =>
      unfold Sys.endRotate
      split <;> rfl
    | rotateMissing next now caller h hi | failRotate st next caller e h => cases caller <;> rfl
    | begin | write | failWrite => rfl
  | merge hm =>
    rcases hm.lock_eq with he | ⟨-, he⟩
    · rw [he]
      exact hl
    · rw [he]
      rfl
  | startPanic | start => rfl
  | startNot | spill | mergeErr | outputErr => exact hl

/-- A merge that runs was due. -/
theorem Step.due (hr : s.Rotates)
    (h : s.merge.running = true → cfg.compactionThreshold ≤ s.merge.initStale)
    (hs : Step crc cfg s a s') :
    s'.merge.running = true → cfg.compactionThreshold ≤ s'.merge.initStale := by
  intro hrun
  cases hm : s.merge.running with
  | false =>
    by_cases ha : a = .start
    · subst ha
      cases hs with
      | writer hw => cases hw
      | startNot | startPanic => cases hrun
      | start last hm hl hs => exact hs
    · rw [hr.merge_eq hm ha hs, hm] at hrun
      cases hrun
  | true =>
    rcases initStale_step hs with ⟨he, -⟩ | ⟨hn, -⟩ | ⟨-, hn, -⟩
    · rw [he]
      exact h hm
    · rw [hn] at hrun; cases hrun
    · rw [hm] at hn; cases hn

theorem Sys.Settled.writerStep (h : s.Settled cfg) (hr : s.Rotates) (hl : s.lock.published = false)
    (hp : published crc s a = []) (hs : WriterStep crc cfg s a s') : s'.Settled cfg := by
  have hrunning : ∀ {st next}, s.lock = .rotateTo st next .compaction → s.merge.running = true := by
    intro st next hl
    obtain ⟨r, hm⟩ := hr.mpr ⟨st, next, hl⟩
    rw [hm]
    rfl
  have hinit : s.merge.running = true → s.merge.initStale = s.writer.staleBytesCount := by
    intro hrun
    unfold Sys.Settled at h
    rwa [if_pos hrun] at h
  cases hs with
  | publish c now hw => simp [published, hw] at hp
  | policySkip c now h | policySync c now last h | policyPanic c now h | notFull c now h
  | full c now h | failPolicy c e h => rw [h] at hl; cases hl
  | begin | write | failWrite => exact h.congr rfl rfl rfl
  | rotateSync next now caller hw | rotateCreate next now caller hw
  | rotateClock next now caller hw =>
    cases caller with
    | append c => rw [hw] at hl; cases hl
    | compaction => exact .of_running (hrunning hw) (hinit (hrunning hw))
  | rotateReader next now caller i hw hi =>
    cases caller with
    | append c => rw [hw] at hl; cases hl
    | compaction =>
      obtain ⟨r, hm⟩ := hr.mpr ⟨_, _, hw⟩
      have he := hinit (hrunning hw)
      rw [hm] at he
      unfold Sys.endRotate
      simp only [Sys.readersUpdate, hm]
      exact .of_running rfl he
  | rotateMissing next now caller hw hi | failRotate st next caller e hw =>
    cases caller with
    | append c => rw [hw] at hl; cases hl
    | compaction => exact .of_error rfl

theorem Sys.Settled.mergeStep (h : s.Settled cfg) (hs : MergeStep crc cfg s s') :
    s'.Settled cfg ∨ s'.merge = .dead := by
  have hinit : s.merge.running = true → s.merge.initStale = s.writer.staleBytesCount := by
    intro hrun
    unfold Sys.Settled at h
    rwa [if_pos hrun] at h
  cases hs with
  | framePanic | subtractPanic => exact Or.inr rfl
  | torn | undecodable | renameMissing | readerMissing | removeMissing | subtractPoisoned =>
    exact Or.inl (.of_error rfl)
  | subtract stale hm hl hs =>
    left
    have he := hinit (by rw [hm]; rfl)
    rw [hm] at he
    have hzero : s.writer.staleBytesCount - stale = 0 := by
      simp only [Merge.initStale] at he
      omega
    unfold Sys.Settled
    rw [if_neg (by simp [Merge.running])]
    exact Or.inr (Or.inl hzero)
  | _ =>
    left
    have he := hinit (by simp [Merge.running, *])
    simp only [Merge.initStale, *] at he
    exact .of_running rfl he

/-- Without an index update, a look at the stale bytes does not get out of date. -/
theorem Sys.Settled.step (h : s.Settled cfg) (hr : s.Rotates) (hl : s.lock.published = false)
    (hp : published crc s a = []) (ha : a ≠ .start) (hs : Step crc cfg s a s') :
    s'.Settled cfg ∨ s'.merge = .dead := by
  cases hs with
  | writer hw => exact Or.inl (h.writerStep hr hl hp hw)
  | merge hm => exact h.mergeStep hm
  | startNot | startPanic | start => exact absurd rfl ha
  | spill out n m ho =>
    left
    have hrun : s.merge.running = true := by
      cases hm : s.merge with
      | idle | dead => rw [hm] at ho; cases ho
      | _ => rfl
    unfold Sys.Settled at h
    rw [if_pos hrun] at h
    refine .of_running ?_ ((initStale_withOutput _ _).trans h)
    cases hm : s.merge with
    | nextFile r o => cases o <;> rfl
    | idle | dead => rw [hm] at hrun; cases hrun
    | _ => rfl
  | mergeErr | outputErr => exact Or.inl (.of_error rfl)

/-- The entry of `run_compaction` is a look at the stale bytes. -/
theorem Step.settled_start (hs : Step crc cfg s .start s') : s'.Settled cfg ∨ s'.merge = .dead := by
  cases hs with
  | writer hw => cases hw
  | startPanic => exact Or.inr rfl
  | start => exact Or.inl (.of_running rfl rfl)
  | startNot last res hm hl hres hn =>
    left
    rcases hl with hl | hl
    · unfold Sys.Settled
      rw [if_neg (by simp [Merge.running])]
      exact (hn hl).elim Or.inl fun h => Or.inr (Or.inr (Or.inl h))
    · rw [if_neg (by rw [hl]; decide)] at hres
      exact .of_error (congrArg (Merge.idle ∘ some) hres)

end Steps

/-! ## The invariant -/

/-- The last index update has been answered, or it will be. -/
structure Live.Backlog (cfg : Config) (l : Live) (tr : List ClientEvent) : Prop where
  due : l.store.merge.running = true → cfg.compactionThreshold ≤ l.store.merge.initStale
  read : l.store.merge.initStale ≤ l.store.writer.staleBytesCount
  held : l.store.lock.published = true → l.triggering = true ∨ l.Signalled ∨
    l.store.writer.staleBytesCount < cfg.compactionThreshold
  rest : l.store.lock.published = false → updates tr = [] ∨ l.Signalled ∨ l.store.Settled cfg

section Backlog

variable {crc : Bytes → UInt32} {cfg : Config} {l l' : Live} {tr evs : List ClientEvent}
  {a : LiveAct} {m : Move} {c c' : Clients}

/-- A move that updates no index adds no update to what is seen. -/
theorem ClientStep.updates_eq (hs : ClientStep crc cfg c m c' evs)
    (hp : ∀ a, m = .store a → published crc c.store a = []) : updates evs = [] := by
  cases hs with
  | append a s t hb hs hh hf =>
    rw [hp a rfl]
    rfl
  | finish a s t hb hs hh hf => split <;> rfl
  | _ => rfl

theorem updates_concat (tr evs : List ClientEvent) : updates (tr ++ evs) = updates tr ++ updates evs :=
  List.filterMap_append

theorem Live.Signalled.after {merge : Merge} (h : l.Signalled) (hm : m.isStart = false) :
    l.queued = true ∨ l.worker.after m merge = .received ∨ l.worker.after m merge = .entering ∨
      l.worker.after m merge = .exited := by
  rcases h with h | h | h | h
  · exact Or.inl h
  all_goals
    rw [Worker.after_of_not hm (by rw [h]; decide), h]
    simp

theorem Live.Backlog.start (s : Sys) (hm : s.merge = .idle none) (hl : s.lock = .free) :
    (Live.start s).Backlog cfg [] where
  due hr := by simp [hm, Merge.running] at hr
  read := by simp [hm, Merge.initStale]
  held hp := by simp [hl, Lock.published] at hp
  rest _ := Or.inl rfl

/-- A step of the store. -/
theorem Live.Backlog.act (hinv : l.Inv) (h : l.Backlog cfg tr) {a : Act}
    (ha : l.allows (.store a) = true) (hs : Step crc cfg l.store a c.store)
    (hupd : published crc l.store a = [] → updates evs = []) :
    Live.Backlog cfg { l with
      clients := c
      worker := l.worker.after (.store a) c.store.merge
      triggering := l.triggering || (Move.store a).publishes crc l.store
      made := (Move.store a).makes ++ l.made } (tr ++ evs) where
  due := hs.due hinv.rotates h.due
  read := initStale_le_step h.read hs
  held hp := by
    by_cases hpub : published crc l.store a = []
    · have hl : l.store.lock.published = true := by
        by_contra hn
        rw [hs.published_lock (Bool.eq_false_iff.mpr hn) hpub] at hp
        cases hp
      rcases h.held hl with ht | hsig | hsmall
      · exact Or.inl (by simp [ht])
      · exact Or.inr (Or.inl (hsig.after (hs.not_start hl)))
      · exact Or.inr (Or.inr ((hs.stale_of_published hl).trans_lt hsmall))
    · exact Or.inl (by simp [Move.publishes, hpub])
  rest hp := by
    have hpub : published crc l.store a = [] := by
      by_contra hn
      obtain ⟨cmd, hl⟩ := hs.of_published hn
      rw [show (_ : Live).store = c.store from rfl, hl] at hp
      cases hp
    have hdead : c.store.merge = .dead → l.worker.after (.store a) c.store.merge = .exited := by
      intro hd
      have hat := hinv.worker.step hinv.rotates hs
      rw [hd] at hat ⊢
      exact hat.dead
    by_cases hstart : a = .start
    · subst hstart
      exact Or.inr (hs.settled_start.symm.imp (fun hd => Or.inr (Or.inr (Or.inr (hdead hd)))) id)
    · have hstay : (Move.store a).isStart = false := by
        cases a with
        | start => exact absurd rfl hstart
        | _ => rfl
      cases hl : l.store.lock.published with
      | false =>
        rcases h.rest hl with hnil | hsig | hset
        · exact Or.inl (by rw [updates_concat, hnil, hupd hpub]; rfl)
        · exact Or.inr (Or.inl (hsig.after hstay))
        · exact Or.inr ((hset.step hinv.rotates hl hpub hstart hs).symm.imp
            (fun hd => Or.inr (Or.inr (Or.inr (hdead hd)))) id)
      | true =>
        -- the lock is given up, so the trigger has been called
        rcases h.held hl with ht | hsig | hsmall
        · exfalso
          obtain ⟨cmd, hcmd⟩ := hinv.triggering ht
          have hkeep := hs.lock_policy hcmd (by rintro now rfl; simp [Live.allows, ht] at ha)
            (by rintro e rfl; simp [Live.allows, ht] at ha)
          rw [show (_ : Live).store = c.store from rfl, hkeep, hcmd] at hp
          cases hp
        · exact Or.inr (Or.inl (hsig.after hstay))
        · exact Or.inr (Or.inr (.of_small ((hs.stale_of_published hl).trans_lt hsmall)
            (hs.due hinv.rotates h.due) (initStale_le_step h.read hs)))

/-- A change that the invariant does not see. -/
theorem Live.Backlog.congr (h : l.Backlog cfg tr) (hmerge : l'.store.merge = l.store.merge)
    (hstale : l'.store.writer.staleBytesCount = l.store.writer.staleBytesCount)
    (hsnap : l'.store.snapshot = l.store.snapshot)
    (hlock : l'.store.lock = l.store.lock ∨
      l.store.lock.published = false ∧ l'.store.lock.published = false)
    (htrig : l'.triggering = l.triggering) (hsig : l.Signalled → l'.Signalled) :
    l'.Backlog cfg tr where
  due := by
    rw [hmerge]
    exact h.due
  read := by
    rw [hmerge, hstale]
    exact h.read
  held hp := by
    have hl : l'.store.lock = l.store.lock := hlock.resolve_right fun hn => by
      rw [hn.2] at hp
      cases hp
    rw [htrig, hstale]
    exact (h.held (hl ▸ hp)).imp_right (Or.imp_left hsig)
  rest hp := by
    have hl : l.store.lock.published = false := hlock.elim (fun he => he ▸ hp) And.left
    exact (h.rest hl).imp_right (Or.imp hsig fun hset => hset.congr hmerge hstale hsnap)

theorem Live.Backlog.move (hinv : l.Inv) (h : l.Backlog cfg tr) (ha : l.allows m = true)
    (hs : ClientStep crc cfg l.clients m c evs) :
    Live.Backlog cfg { l with
      clients := c
      worker := l.worker.after m c.store.merge
      triggering := l.triggering || m.publishes crc l.store
      made := m.makes ++ l.made } (tr ++ evs) := by
  have hquiet : (∀ a, m ≠ .store a) → updates (tr ++ evs) = updates tr ∧ m.isStart = false ∧
      m.publishes crc l.store = false := by
    intro hm
    rw [updates_concat, hs.updates_eq fun a he => absurd he (hm a), List.append_nil]
    cases m with
    | store a => exact absurd rfl (hm a)
    | _ => exact ⟨rfl, rfl, rfl⟩
  have hsame : l.Backlog cfg (tr ++ evs) ∨ ∃ a, m = .store a := by
    by_cases hm : ∃ a, m = .store a
    · exact Or.inr hm
    · refine Or.inl ⟨h.due, h.read, h.held, ?_⟩
      rw [(hquiet fun a he => hm ⟨a, he⟩).1]
      exact h.rest
  rcases hs.store with ⟨he, hm⟩ | ⟨t, ts, call, rfl, hst⟩ | ⟨a, rfl, hst⟩
  · obtain ⟨-, hstart, hpub⟩ := hquiet hm
    refine (hsame.resolve_right fun ⟨a, ha⟩ => hm a ha).congr ?_ ?_ ?_ ?_ ?_ fun hsig => hsig.after hstart
    · exact congrArg Sys.merge he
    · exact congrArg (·.writer.staleBytesCount) he
    · exact congrArg Sys.snapshot he
    · exact Or.inl (congrArg Sys.lock he)
    · show (l.triggering || m.publishes crc l.store) = l.triggering
      rw [hpub, Bool.or_false]
  · obtain ⟨hfree, hst⟩ := hst.of_begin
    refine (hsame.resolve_right (by simp)).congr ?_ ?_ ?_ ?_ (Bool.or_false _) fun hsig => hsig.after rfl
    · show c.store.merge = l.store.merge
      rw [hst]
    · show c.store.writer.staleBytesCount = l.store.writer.staleBytesCount
      rw [hst]
    · show c.store.snapshot = l.store.snapshot
      rw [hst]
      rfl
    · show _ ∨ l.store.lock.published = false ∧ c.store.lock.published = false
      rw [hst, hfree]
      exact Or.inr ⟨rfl, rfl⟩
  · exact h.act hinv ha hst fun hp => hs.updates_eq (by rintro a ⟨⟩; exact hp)

theorem Live.Backlog.step (hinv : l.Inv) (h : l.Backlog cfg tr) (hs : LiveStep crc cfg l a l' evs) :
    l'.Backlog cfg (tr ++ evs) := by
  cases hs with
  | move m c evs ha hs => exact h.move hinv ha hs
  | trigger ht =>
    rw [List.append_nil]
    obtain ⟨cmd, hl⟩ := hinv.triggering ht
    refine ⟨h.due, h.read, fun _ => ?_, fun hp => ?_⟩
    · by_cases hdue : cfg.compactionThreshold ≤ l.store.writer.staleBytesCount
      · refine Or.inr (Or.inl ?_)
        by_cases hw : l.worker = .exited
        · exact Or.inr (Or.inr (Or.inr hw))
        · exact Or.inl (by simp [hdue, hw])
      · exact Or.inr (Or.inr (Nat.lt_of_not_le hdue))
    · rw [show (_ : Live).store.lock = _ from hl] at hp
      cases hp
  | recv hw hq =>
    rw [List.append_nil]
    exact h.congr rfl rfl rfl (Or.inl rfl) rfl fun _ => Or.inr (Or.inl rfl)
  | hangUp hw hq hh =>
    rw [List.append_nil]
    exact h.congr rfl rfl rfl (Or.inl rfl) rfl fun _ => Or.inr (Or.inr (Or.inr rfl))
  | upgrade hw hh =>
    rw [List.append_nil]
    exact h.congr rfl rfl rfl (Or.inl rfl) rfl fun _ => Or.inr (Or.inr (Or.inl rfl))
  | upgradeFails hw hh =>
    rw [List.append_nil]
    exact h.congr rfl rfl rfl (Or.inl rfl) rfl fun _ => Or.inr (Or.inr (Or.inr rfl))
  | clone | drop | dropLast | join | syncPoisoned =>
    rw [List.append_nil]
    exact h.congr rfl rfl rfl (Or.inl rfl) rfl id
  | sync ok hh hl =>
    rw [List.append_nil]
    cases ok with
    | true => exact h.congr rfl rfl rfl (Or.inl rfl) rfl id
    | false => exact h.congr rfl rfl rfl (Or.inl rfl) rfl id

theorem LiveRun.backlog {P : Live → LiveAct → Prop} {s₀ : Sys} (hl : s₀.lock = .free)
    (hm : s₀.merge = .idle none) (h : LiveRun crc cfg P s₀ l tr) : l.Backlog cfg tr := by
  induction h with
  | start => exact .start s₀ hm hl
  | step h _ hs ih => exact ih.step (h.inv hl hm) (liveStep_cases hs)

/-- Once an append has updated the index, the compaction thread sleeps between two appends only if
too little is stale, no file is sealed, or the last merge has failed. Filesystem calls may fail at any
point, and signals are dropped while one is in the channel. -/
theorem no_merge_forgotten {s₀ : Sys} (hl : s₀.lock = .free) (hm : s₀.merge = .idle none)
    (h : LiveRun crc cfg (fun _ _ => True) s₀ l tr) (hupd : updates tr ≠ [])
    (hlock : l.store.lock.inFlight = []) (hsleep : l.worker = .receiving) (hq : l.queued = false) :
    l.store.writer.staleBytesCount < cfg.compactionThreshold ∨ l.store.writer.staleBytesCount = 0 ∨
      l.store.snapshot = [] ∨ ∃ e, l.store.merge = .idle (some (.error e)) := by
  have hpub : l.store.lock.published = false := by
    cases hlk : l.store.lock with
    | rotateTo st next caller =>
      cases caller with
      | append c => rw [hlk] at hlock; cases hlock
      | compaction => rfl
    | policy | rotateIfFull => rw [hlk] at hlock; cases hlock
    | _ => rfl
  have hset : l.store.Settled cfg := by
    rcases (h.backlog hl hm).rest hpub with hnil | hsig | hset
    · exact absurd hnil hupd
    · rcases hsig with h | h | h | h
      · rw [hq] at h; cases h
      all_goals rw [hsleep] at h; cases h
    · exact hset
  have hidle := (h.inv hl hm).worker.not_running (by rw [hsleep]; decide)
  unfold Sys.Settled at hset
  rwa [if_neg (by rw [hidle]; decide)] at hset

end Backlog

/-- Two sets of one key, and the merge that the second one has asked for. -/
def mergeOnSignal : List LiveAct :=
  liveSet 0 "a" "1" ++ liveSet 1 "a" "2" ++ [.recv, .upgrade] ++
    (mergeActs 21).map fun a => .move (.store a)

theorem no_merge_forgotten_after_merge : ∃ l tr,
    Live.steps crc32 smallFiles mergeOnSignal (.start (emptyStore crc32)) = some (l, tr) ∧
      l.store.merge.result = some (.ok ()) ∧
      (l.store.writer.staleBytesCount < smallFiles.compactionThreshold ∨
        l.store.writer.staleBytesCount = 0 ∨ l.store.snapshot = [] ∨
        ∃ e, l.store.merge = .idle (some (.error e))) := by
  have hrun : (Live.steps crc32 smallFiles mergeOnSignal (.start (emptyStore crc32))).any fun r =>
      r.1.store.merge.result = some (.ok ()) ∧ updates r.2 ≠ [] ∧ r.1.store.lock.inFlight = [] ∧
        r.1.worker = .receiving ∧ r.1.queued = false := by decide +kernel
  obtain ⟨⟨l, tr⟩, hs, hl⟩ := (Option.any_eq_true ..).mp hrun
  obtain ⟨hr, hu, hlk, hw, hq⟩ := of_decide_eq_true hl
  have hlive := LiveRun.of_steps .start hs
  rw [List.nil_append] at hlive
  exact ⟨l, tr, hs, hr, no_merge_forgotten rfl rfl hlive hu hlk hw hq⟩

end Bitcask
