import Bitcask.Storage.Handles
import Bitcask.Storage.OpenAny

/-!
# Histories of live stores

`Lived` are the histories of any number of sessions with handles, calls and a compaction thread that
is woken by its channel. They are histories in the sense of `Reach` (`Lived.reach`): the end of `drop`
is `Sys.close`, or a crash when its sync fails. So what is known of those holds for them
(`lived_sound`).
-/

namespace Bitcask

open LittleEndian FileSystem SegmentedLog CrashHoare

/-- A directory no process has open, or a live store. -/
inductive Host
  | closed (fs : Fs FileName)
  | live (cfg : Config) (l : Live)

/-- A store is closed when its handle is dropped. -/
def Host.world : Host → World
  | .closed fs => .closed fs
  | .live cfg l => if l.handle = .dropped then .closed l.store.fs else .running cfg l.store

/-- What any number of sessions lead to from the empty directory, with the commands whose appends are
over. The steps of the store are of the kind `P`. The process may exit once the handle is dropped,
and may die at any moment. -/
inductive Lived (crc : Bytes → UInt32) (P : Sys → Act → Prop) : Host → List Command → Prop
  | empty : Lived crc P (.closed Fs.empty) []
  | opened {fs : Fs FileName} {ops : List Command} {listing : List FileName} {now : ℕ} {s : Sys}
      (cfg : Config) (h : Lived crc P (.closed fs) ops) (hlist : (fs.create .lock).Lists listing)
      (hopen : (openStore crc listing now fs).result = .ok s) : Lived crc P (.live cfg (.start s)) ops
  | openCrash {fs fs' : Fs FileName} {ops : List Command} {listing : List FileName} {now : ℕ}
      (h : Lived crc P (.closed fs) ops) (hlist : (fs.create .lock).Lists listing)
      (hcrash : (openStore crc listing now).Crashes fs fs') (htorn : ¬ TornMarker fs') :
      Lived crc P (.closed fs') ops
  | step {cfg : Config} {l l' : Live} {ops : List Command} {a : LiveAct} {evs : List ClientEvent}
      (h : Lived crc P (.live cfg l) ops) (hp : ∀ act, a = .move (.store act) → P l.store act)
      (hs : l.step crc cfg a = some (l', evs)) :
      Lived crc P (.live cfg l') (ops ++ finished crc l.store l'.store)
  | crash {cfg : Config} {l : Live} {ops : List Command} (h : Lived crc P (.live cfg l) ops) :
      Lived crc P (.closed l.store.fs) (ops ++ l.store.lock.written crc)
  | exit {cfg : Config} {l : Live} {ops : List Command} (h : Lived crc P (.live cfg l) ops)
      (hd : l.handle = .dropped) : Lived crc P (.closed l.store.fs) ops

/-! ## Every history is one of running stores -/

section Lived

variable {crc : Bytes → UInt32} {cfg : Config} {P : Sys → Act → Prop} {l l' : Live}
  {ops : List Command} {evs : List ClientEvent} {a : LiveAct} {s : Sys}

theorem finished_same_lock {s' : Sys} (h : s'.lock = s.lock) : finished crc s s' = [] := by
  unfold finished
  rw [h]
  split
  · exact Lock.written_of_inFlight (by assumption)
  · rfl

/-- The store that `open` returns. -/
theorem Live.Inv.opened {listing : List FileName} {now : ℕ} {fs : Fs FileName}
    (hlist : (fs.create .lock).Lists listing) (h : (openStore crc listing now fs).result = .ok s) :
    (Live.start s).Inv := by
  obtain ⟨-, ho⟩ := (openStore_any crc now hlist).ok rfl h
  exact .start ho.free ho.idle

theorem Lived.inv (h : Lived crc P (.live cfg l) ops) : l.Inv := by
  generalize hx : Host.live cfg l = x at h
  induction h generalizing cfg l with
  | opened _ _ hlist hopen => cases hx; exact .opened hlist hopen
  | step _ _ hs ih => cases hx; exact (ih rfl).step (liveStep_cases hs)
  | _ => cases hx

theorem Clients.step_store {m : Move} {c c' : Clients} (hs : c.step crc cfg m = some (c', evs)) :
    c'.store = c.store ∨ ∃ act, Bitcask.step crc cfg c.store act = some c'.store ∧
      (m = .store act ∨ ∃ call ts, act = .begin call ts) := by
  cases m with
  | invoke t call =>
    left
    cases clientStep_cases hs with | invoke => rfl
  | run t ts =>
    cases hp : c.calls t with
    | waiting call =>
      simp only [Clients.step, Clients.run, hp] at hs
      split at hs
      · cases hs
        exact Or.inl rfl
      · obtain ⟨s, hbegin, he⟩ := Option.map_eq_some_iff.mp hs
        cases he
        exact Or.inr ⟨_, hbegin, Or.inr ⟨call, ts, rfl⟩⟩
    | _ =>
      left
      cases clientStep_cases hs <;> simp_all [Clients.advance]
  | store a =>
    right
    refine ⟨a, ?_, Or.inl rfl⟩
    cases a with
    | begin call ts => cases hs
    | _ =>
      obtain ⟨s, hs, he⟩ := Option.map_eq_some_iff.mp hs
      rw [hs]
      split at he
      · cases he; rfl
      · split at he <;> (cases he; rfl)

/-- A move of the calls or of the store, in a history of the store. -/
theorem Reach.move (hbegin : ∀ s call ts, P s (.begin call ts)) {m : Move} {c c' : Clients}
    (h : Reach crc P (.running cfg c.store) ops) (hp : ∀ act, m = .store act → P c.store act)
    (hs : c.step crc cfg m = some (c', evs)) :
    Reach crc P (.running cfg c'.store) (ops ++ finished crc c.store c'.store) := by
  rcases Clients.step_store hs with he | ⟨act, hs, hm⟩
  · rw [finished_same_lock (by rw [he]), List.append_nil, he]
    exact h
  · refine .act h ?_ hs
    rcases hm with hm | ⟨call, ts, rfl⟩
    · exact hp act hm
    · exact hbegin _ _ _

/-- The end of `drop` closes the store, or leaves it as a crash does when the sync fails. -/
theorem Reach.sync (h : Reach crc P (.running cfg s) ops) (hl : s.lock = .free)
    (hm : s.merge.running = false) (ok : Bool) :
    Reach crc P (.closed (if ok then s.sync else s).fs) ops := by
  cases ok with
  | true =>
    refine .close h ?_
    unfold Sys.close
    cases hm' : s.merge with
    | idle | dead => rw [hl]; rfl
    | _ => rw [hm'] at hm; cases hm
  | false =>
    have hc := Reach.crash h
    rw [hl, show Lock.written crc .free = [] from rfl, List.append_nil] at hc
    exact hc

theorem Reach.closePoisoned (h : Reach crc P (.running cfg s) ops) (hl : s.lock = .poisoned)
    (hm : s.merge.running = false) : Reach crc P (.closed s.fs) ops := by
  refine .close h ?_
  unfold Sys.close
  cases hm' : s.merge with
  | idle | dead => rw [hl]
  | _ => rw [hm'] at hm; cases hm

theorem Host.world_live (h : l.handle ≠ .dropped) : (Host.live cfg l).world = .running cfg l.store :=
  if_neg h

theorem Host.world_dropped (h : l.handle = .dropped) : (Host.live cfg l).world = .closed l.store.fs :=
  if_pos h

/-- A history of live stores is one of running stores. -/
theorem Lived.reach (hbegin : ∀ s call ts, P s (.begin call ts)) {host : Host}
    (h : Lived crc P host ops) : Reach crc P host.world ops := by
  induction h with
  | empty => exact .empty
  | opened cfg _ hlist hopen ih =>
    rw [Host.world_live (by simp [Live.start])]
    exact .opened cfg ih hlist hopen
  | openCrash _ hlist hcrash htorn ih => exact .openCrash ih hlist hcrash htorn
  | @step cfg l l' ops a evs h hp hs ih =>
    have hinv := h.inv
    have hstep := liveStep_cases hs
    have hlive : l.handle ≠ .dropped := fun hd => hinv.still hd hstep
    rw [Host.world_live hlive] at ih
    have hstay : l'.store = l.store → l'.handle ≠ .dropped →
        Reach crc P (Host.live cfg l').world (ops ++ finished crc l.store l'.store) := by
      intro he hd
      rw [Host.world_live hd, finished_same_lock (by rw [he]), List.append_nil, he]
      exact ih
    have hjoined : ∀ {h}, l.handle = h → h = .syncing → l.store.merge.running = false := by
      rintro _ rfl hd
      exact hinv.worker.not_running (by rw [hinv.joined (Or.inl hd)]; decide)
    cases hstep with
    | move m c evs' ha hs' =>
      rw [Host.world_live (by exact hlive)]
      simp only [Live.step, Live.move, ha, if_true] at hs
      obtain ⟨⟨c', evs''⟩, hc, he⟩ := Option.map_eq_some_iff.mp hs
      cases he
      exact ih.move hbegin (fun act hm => hp act (by rw [hm])) hc
    | trigger | recv | hangUp | upgrade | upgradeFails => exact hstay rfl hlive
    | clone | drop | dropLast | join => exact hstay rfl (by simp)
    | syncPoisoned ok hh hl =>
      rw [Host.world_dropped rfl, finished_same_lock rfl, List.append_nil]
      exact ih.closePoisoned hl (hjoined hh rfl)
    | sync ok hh hl =>
      rw [Host.world_dropped rfl, finished_same_lock (by cases ok <;> rfl), List.append_nil]
      exact ih.sync hl (hjoined hh rfl) ok
  | @crash cfg l ops h ih =>
    by_cases hd : l.handle = .dropped
    · rw [Host.world_dropped hd] at ih
      have hinv := h.inv
      have hm := hinv.worker.not_running (by rw [hinv.joined (Or.inr hd)]; decide)
      have hnil : l.store.lock.written crc = [] := by
        rcases hinv.unlocked (by rw [hd]; rfl) hm with hl | hl <;> rw [hl] <;> rfl
      rw [hnil, List.append_nil]
      exact ih
    · rw [Host.world_live hd] at ih
      exact .crash ih
  | exit _ hd ih =>
    rw [Host.world_dropped hd] at ih
    exact ih

theorem Lived.world_inv {host : Host} (h : Lived crc (fun _ a => a.Nominal) host ops) :
    host.world.Inv crc ops :=
  reach_inv ((h.reach fun _ _ _ => trivial).benign fun hn => hn.tidy).1

/-- The appends that the steps `acts` end. -/
def Live.finishedBy (crc : Bytes → UInt32) (cfg : Config) : List LiveAct → Live → List Command
  | [], _ => []
  | a :: acts, l =>
    match l.step crc cfg a with
    | some r => finished crc l.store r.1.store ++ Live.finishedBy crc cfg acts r.1
    | none => []

theorem Lived.of_steps {acts : List LiveAct} (h : Lived crc (fun _ a => a.Nominal) (.live cfg l) ops)
    (hn : ∀ a ∈ acts, a.Nominal) (hs : Live.steps crc cfg acts l = some (l', evs)) :
    Lived crc (fun _ a => a.Nominal) (.live cfg l') (ops ++ Live.finishedBy crc cfg acts l) := by
  induction acts generalizing l ops evs with
  | nil =>
    cases hs
    rw [Live.finishedBy, List.append_nil]
    exact h
  | cons a acts ih =>
    obtain ⟨⟨l₁, evs₁⟩, hs₁, hs⟩ := Option.bind_eq_some_iff.mp hs
    obtain ⟨⟨l₂, evs₂⟩, hs₂, he⟩ := Option.map_eq_some_iff.mp hs
    cases he
    rw [Live.finishedBy, hs₁, ← List.append_assoc]
    refine ih (.step h ?_ hs₁) (fun b hb => hn b (List.mem_cons_of_mem _ hb)) hs₂
    rintro act rfl
    exact hn _ List.mem_cons_self

end Lived

/-- Two handles, a set through each, and the merge that the second set has asked for, which runs
while the last handle is dropped. -/
def dropInMerge : List LiveAct :=
  .clone :: liveSet 0 "a" "1" ++ [.drop] ++ liveSet 1 "a" "2" ++ [.drop, .recv, .upgrade] ++
    (mergeActs 21).map (fun a => .move (.store a)) ++ [.recv, .join, .sync true]

/-- A live store, or the directory it leaves, holds what the appends that are over say: every `get`
between two appends agrees with them, and so does the store that the next `open` returns, with or
without the append in flight. -/
theorem lived_sound {host : Host} (h : Lived crc (fun _ a => a.Nominal) host ops) :
    host.world.Sound crc ops := h.world_inv.sound

theorem lived_sound_dropped : ∃ l evs,
    Live.steps crc32 smallFiles dropInMerge (.start (emptyStore crc32)) = some (l, evs) ∧
      l.handle = .dropped ∧ l.store.merge.result = some (.ok ()) ∧
      (Host.live smallFiles l).world.Sound crc32
        [.set 0 (asBytes "a") (asBytes "1"), .set 0 (asBytes "a") (asBytes "2")] := by
  have hrun : ((Live.steps crc32 smallFiles dropInMerge (.start (emptyStore crc32))).any fun r =>
      r.1.handle = .dropped ∧ r.1.store.merge.result = some (.ok ())) ∧
      Live.finishedBy crc32 smallFiles dropInMerge (.start (emptyStore crc32)) =
        [.set 0 (asBytes "a") (asBytes "1"), .set 0 (asBytes "a") (asBytes "2")] := by decide +kernel
  obtain ⟨⟨l, evs⟩, hs, hl⟩ := (Option.any_eq_true ..).mp hrun.1
  obtain ⟨hd, hr⟩ := of_decide_eq_true hl
  have hn : ∀ a ∈ dropInMerge, a.Nominal := by decide +kernel
  have hlived := Lived.of_steps (.opened smallFiles .empty lists_empty (emptyStore_opened crc32)) hn hs
  rw [List.nil_append, hrun.2] at hlived
  exact ⟨l, evs, hs, hd, hr, lived_sound hlived⟩

end Bitcask
