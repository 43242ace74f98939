import Bitcask.Storage.GetSpec
import Bitcask.Storage.Recovery

/-!
# Runs of any number of sessions

A directory is opened, written to, merged, closed or left by a crash, and opened again. `Reach`
lists the worlds such a history can arrive at, with the commands whose appends are over. The log of
the abstract machine is that list, with the append in flight once its record is complete
(`reach_inv`).
-/

namespace Bitcask

open LittleEndian FileSystem SegmentedLog CrashHoare

/-! ## Histories -/

/-- The append the lock holder is in. -/
def Lock.inFlight : Lock → List Command
  | .writing c _ | .policy c | .rotateIfFull c | .rotateTo _ _ (.append c) => [c]
  | .free | .poisoned | .rotateTo _ _ .compaction => []

/-- The lock holder writes its record. -/
def Lock.isWriting : Lock → Bool
  | .writing _ _ => true
  | _ => false

/-- The append the lock holder is in, once its record is complete. -/
def Lock.written (crc : Bytes → UInt32) : Lock → List Command
  | .writing c done => if done = (c.serialize crc).length then [c] else []
  | l => l.inFlight

/-- The append that a step ends: the lock is given up, and the record is complete. -/
def finished (crc : Bytes → UInt32) (s s' : Sys) : List Command :=
  if s'.lock.inFlight = [] then s.lock.written crc else []

/-- Dropping the last handle: the compaction thread is joined, and the active file is synced if
the lock is not poisoned. -/
def Sys.close (s : Sys) : Option (Fs FileName) :=
  match s.merge, s.lock with
  | .idle _, .free | .dead, .free => some (s.fs.sync s.writer.file)
  | .idle _, .poisoned | .dead, .poisoned => some s.fs
  | _, _ => none

/-- A directory no process has open, or a running store. -/
inductive World
  | closed (fs : Fs FileName)
  | running (cfg : Config) (s : Sys)

/-- The directory. -/
def World.fs : World → Fs FileName
  | .closed fs => fs
  | .running _ s => s.fs

/-- The append in flight. -/
def World.inFlight : World → List Command
  | .closed _ => []
  | .running _ s => s.lock.inFlight

/-- The worlds reached from the empty directory by steps of the kind `P`, with the commands whose
appends are over, in log order. A process may die at any moment, also inside `open` but for the middle
of the marker's `write_all`; an append in flight then counts if its record was complete. -/
inductive Reach (crc : Bytes → UInt32) (P : Sys → Act → Prop) : World → List Command → Prop
  | empty : Reach crc P (.closed Fs.empty) []
  | opened {fs : Fs FileName} {ops : List Command} {listing : List FileName} {now : ℕ} {s : Sys}
      (cfg : Config) (h : Reach crc P (.closed fs) ops) (hlist : (fs.create .lock).Lists listing)
      (hopen : (openStore crc listing now fs).result = .ok s) : Reach crc P (.running cfg s) ops
  | openCrash {fs fs' : Fs FileName} {ops : List Command} {listing : List FileName} {now : ℕ}
      (h : Reach crc P (.closed fs) ops) (hlist : (fs.create .lock).Lists listing)
      (hcrash : (openStore crc listing now).Crashes fs fs') (htorn : ¬ TornMarker fs') :
      Reach crc P (.closed fs') ops
  | act {cfg : Config} {s s' : Sys} {ops : List Command} {a : Act}
      (h : Reach crc P (.running cfg s) ops) (hp : P s a) (hs : step crc cfg s a = some s') :
      Reach crc P (.running cfg s') (ops ++ finished crc s s')
  | crash {cfg : Config} {s : Sys} {ops : List Command} (h : Reach crc P (.running cfg s) ops) :
      Reach crc P (.closed s.fs) (ops ++ s.lock.written crc)
  | close {cfg : Config} {s : Sys} {ops : List Command} {fs : Fs FileName}
      (h : Reach crc P (.running cfg s) ops) (hc : s.close = some fs) : Reach crc P (.closed fs) ops

theorem Reach.mono {crc : Bytes → UInt32} {P Q : Sys → Act → Prop}
    (hPQ : ∀ {s a}, a.Fits → P s a → Q s a) {w : World} {ops : List Command}
    (h : Reach crc P w ops) : Reach crc Q w ops := by
  induction h with
  | empty => exact .empty
  | opened cfg _ hlist hopen ih => exact .opened cfg ih hlist hopen
  | openCrash _ hlist hcrash htorn ih => exact .openCrash ih hlist hcrash htorn
  | act _ hp hs ih => exact .act ih (hPQ (step_fits hs) hp) hs
  | crash _ ih => exact .crash ih
  | close _ hc ih => exact .close ih hc

/-- The appends that the steps `acts` end. -/
def finishedBy (crc : Bytes → UInt32) (cfg : Config) : List Act → Sys → List Command
  | [], _ => []
  | a :: acts, s =>
    match step crc cfg s a with
    | some s' => finished crc s s' ++ finishedBy crc cfg acts s'
    | none => []

section Steps

variable {crc : Bytes → UInt32} {cfg : Config} {P : Sys → Act → Prop} [∀ s a, Decidable (P s a)]
  {acts : List Act} {s s' : Sys} {ops : List Command}

theorem Reach.of_steps (h : Reach crc P (.running cfg s) ops) (hs : steps crc cfg P acts s = some s') :
    Reach crc P (.running cfg s') (ops ++ finishedBy crc cfg acts s) := by
  induction acts generalizing s ops with
  | nil =>
    obtain rfl := Option.some.inj hs
    rw [finishedBy, List.append_nil]
    exact h
  | cons a acts ih =>
    obtain ⟨s₁, hp, hs₁, hs⟩ := steps_cons hs
    rw [finishedBy, hs₁, ← List.append_assoc]
    exact ih (.act h hp hs₁) hs

theorem Reach.firstSession (hs : steps crc cfg P acts (emptyStore crc) = some s) :
    Reach crc P (.running cfg s) (finishedBy crc cfg acts (emptyStore crc)) :=
  Reach.of_steps (.opened cfg .empty lists_empty (emptyStore_opened crc)) hs

end Steps

/-- A plain map after a list of commands. -/
def plainMap (ops : List Command) : Bytes → Option Bytes :=
  ops.foldl (fun m c => Function.update m c.getKey c.getValue) fun _ => none

section Maps

variable {crc : Bytes → UInt32} {ops : List Command}

theorem plainMap_append (ops : List Command) (c : Command) :
    plainMap (ops ++ [c]) = Function.update (plainMap ops) c.getKey c.getValue := by
  rw [plainMap, List.foldl_append]
  rfl

theorem plainMap_eq (ops : List Command) (k : Bytes) : plainMap ops k = valueOf k ops := by
  induction ops using List.reverseRecOn with
  | nil => rfl
  | append_singleton ops c ih =>
    rw [plainMap_append, valueOf, events_append]
    by_cases hk : c.getKey = k
    · subst hk
      rw [Function.update_self]
      exact (value_append_self ..).symm
    · rw [Function.update_of_ne (Ne.symm hk), ih]
      exact (value_append_ne hk ..).symm

end Maps

/-- Every `get` agrees with the plain map. -/
def Sys.Agrees (crc : Bytes → UInt32) (s : Sys) (ops : List Command) : Prop :=
  ∀ key : String, ∃ v, s.get crc key = some (.ok v) ∧ v.map asBytes = plainMap ops (asBytes key)

/-! ## What an append adds to the history -/

section Written

variable {crc : Bytes → UInt32} {cfg : Config} {s s' : Sys} {a : Act}

theorem Lock.written_cases (l : Lock) : l.written crc = [] ∨ l.written crc = l.inFlight := by
  cases l with
  | writing c done =>
    rcases em (done = (c.serialize crc).length) with hd | hd
    · exact Or.inr (if_pos hd)
    · exact Or.inl (if_neg hd)
  | _ => exact Or.inr rfl

theorem Lock.written_of_inFlight {l : Lock} (h : l.inFlight = []) : l.written crc = [] :=
  l.written_cases.elim id fun he => he.trans h

/-- A step that leaves the lock alone, or takes or gives it up without an append. -/
theorem finished_of_eq (h : s'.lock = s.lock ∨ s.lock.inFlight = [] ∧ s'.lock.inFlight = []) :
    finished crc s s' ++ s'.lock.written crc = s.lock.written crc := by
  unfold finished
  split
  · rename_i hs'
    rcases h with h | ⟨h, -⟩
    · rw [Lock.written_of_inFlight hs', List.append_nil]
    · rw [Lock.written_of_inFlight hs', List.append_nil]
  · rename_i hs'
    rcases h with h | ⟨-, h⟩
    · rw [h]; rfl
    · exact absurd h hs'

/-- The compaction thread leaves the lock alone, or panics with it. -/
theorem MergeStep.lock_eq (hs : MergeStep crc cfg s s') :
    s'.lock = s.lock ∨ s.lock = .free ∧ s'.lock = .poisoned := by
  cases hs <;> first | exact Or.inl rfl | exact Or.inr ⟨by assumption, rfl⟩

theorem finished_writerStep (hs : WriterStep crc cfg s a s') :
    finished crc s s' ++ s'.lock.written crc = s.lock.written crc ++ logged crc s a := by
  have hpos := Command.serialize_pos crc
  cases hs with
  | begin call ts hl =>
    have hd : Lock.written crc (.writing (call.command ts) 0) = [] := by
      rw [Lock.written, if_neg (Nat.ne_of_lt (hpos _))]
    rw [hl]
    exact hd
  | write c done n hl hn hm =>
    simp only [finished, logged, hl, Lock.inFlight, Lock.written, reduceCtorEq, if_false,
      List.nil_append]
    rcases Nat.lt_or_ge done (c.serialize crc).length with hlt | hge
    · rw [if_neg (Nat.ne_of_lt hlt), List.nil_append]
      by_cases hd : done + n = (c.serialize crc).length
      · rw [if_pos hd, if_pos ⟨hlt, hd⟩]
      · rw [if_neg hd, if_neg fun h => hd h.2]
    · have hn0 : done + n = (c.serialize crc).length ∧ done = (c.serialize crc).length := by omega
      rw [if_pos hn0.1, if_pos hn0.2, if_neg fun h => absurd h.1 (Nat.not_lt_of_ge hge)]
      rfl
  | publish c now hl => simp [finished, Sys.publish, logged, hl, Lock.inFlight, Lock.written]
  | rotateReader next now caller i hl hi =>
    cases caller with
    | append c =>
      simp [finished, Sys.endRotate, Sys.readersUpdate, logged, hl, Lock.inFlight, Lock.written]
    | compaction =>
      unfold Sys.endRotate
      split <;> simp [finished, logged, hl, Lock.inFlight, Lock.written]
  | rotateMissing next now caller hl hi | failRotate st next caller e hl =>
    cases caller <;> simp [finished, Sys.failRotate, logged, hl, Lock.inFlight, Lock.written]
  | rotateCreate next now caller hl =>
    cases caller <;> simp [finished, Sys.rotateTo, logged, hl, Lock.inFlight, Lock.written]
  | rotateSync next now caller hl | rotateClock next now caller hl =>
    cases caller <;> simp [finished, logged, hl, Lock.inFlight, Lock.written]
  | failWrite c done e hl hn =>
    have hnil : s.lock.written crc = [] := by rw [hl]; exact if_neg (Nat.ne_of_lt hn)
    rw [finished, hnil]
    rfl
  | _ => simp [finished, logged, Lock.inFlight, Lock.written, *]

/-- The appends that are over and the complete one in flight change by what is logged. -/
theorem finished_written (hs : Step crc cfg s a s') :
    finished crc s s' ++ s'.lock.written crc = s.lock.written crc ++ logged crc s a := by
  have hquiet : (s'.lock = s.lock ∨ s.lock.inFlight = [] ∧ s'.lock.inFlight = []) →
      logged crc s a = [] → finished crc s s' ++ s'.lock.written crc =
        s.lock.written crc ++ logged crc s a := by
    intro h hl
    rw [finished_of_eq h, hl, List.append_nil]
  cases hs with
  | writer hw => exact finished_writerStep hw
  | merge hm =>
    refine hquiet (hm.lock_eq.imp_right ?_) rfl
    rintro ⟨hl, hl'⟩
    rw [hl, hl']
    exact ⟨rfl, rfl⟩
  | startPanic last hm hl hs hn hz => exact hquiet (Or.inr ⟨by rw [hl]; rfl, rfl⟩) rfl
  | start last hm hl hs hn hz => exact hquiet (Or.inr ⟨by rw [hl]; rfl, rfl⟩) rfl
  | _ => exact hquiet (Or.inl rfl) rfl

end Written

/-! ## The invariant -/

/-- A closed directory holds the history; a running store is related to the abstract machine, whose
log is the history and the complete append in flight. -/
def World.Inv (crc : Bytes → UInt32) (ops : List Command) : World → Prop
  | .closed fs => Disk crc fs ops
  | .running cfg s => s.fs.read .lock = some (asBytes engine) ∧
    ∃ recs pub a, Link crc cfg recs (ops ++ s.lock.written crc) pub s a ∧ a.volatile = []

section Inv

variable {crc : Bytes → UInt32} {cfg : Config} {recs : Inode → List Command}
  {log pub ops : List Command} {s s' : Sys} {a : CompactingLog.State Bytes Bytes} {act : Act}

theorem Step.lock_name (hs : Step crc cfg s act s') : s'.fs.lookup .lock = s.fs.lookup .lock := by
  cases hs with
  | writer hw =>
    cases hw with
    | rotateCreate next now caller hl => exact Fs.lookup_create_ne (by simp)
    | rotateReader next now caller i hl hi =>
      cases caller with
      | append c => rfl
      | compaction =>
        unfold Sys.endRotate
        split <;> rfl
    | rotateMissing next now caller hl hi | failRotate st next caller e hl => cases caller <;> rfl
    | _ => rfl
  | merge hm =>
    cases hm with
    | openData r f rest hm ht => exact Fs.lookup_create_ne (by simp)
    | openHint r id data hm => exact Fs.lookup_create_ne (by simp)
    | rename r out i hm hi => exact Fs.lookup_rename_ne (by simp) (by simp)
    | remove id ids stale i hm hi => exact Fs.lookup_unlink_ne _ (by simp)
    | removeHint id ids stale hm => exact Fs.lookup_unlink_ne _ (by simp)
    | _ => rfl
  | _ => rfl

/-- A step appends to data, hint and output files. -/
theorem Rep.touched_name (h : Rep crc cfg recs s) {i : Inode} (hi : i ∈ touched s act) :
    ∃ n, n ≠ .lock ∧ s.fs.lookup n = some i := by
  rcases hi with ⟨-, rfl⟩ | ⟨out, ho, hi⟩
  · exact ⟨_, by simp, h.core.cur_dir⟩
  · have hmr := h.merge
    obtain ⟨n, hn, hd, hh⟩ : ∃ n, n ≠ FileName.lock ∧ s.fs.lookup n = some out.data ∧
        s.fs.lookup (.hint out.id) = some out.hint := by
      rcases h.held_cases ho with ⟨r, hout, hn, -⟩ | ⟨-, st, r, hm, hst⟩
      · exact ⟨_, by simp, hn, hout.hint_name⟩
      · rw [hm] at hmr
        obtain ⟨hout, hfin, -⟩ := hmr
        refine ⟨.data out.id, by simp, ?_, hout.hint_name⟩
        cases st with
        | syncData | syncHint | rename => cases hst
        | reader | updates => exact hfin.1
    rcases hi with rfl | rfl
    · exact ⟨n, hn, hd⟩
    · exact ⟨_, by simp, hh⟩

/-- The marker stays. -/
theorem Rep.marker_step (h : Rep crc cfg recs s) (hs : Step crc cfg s act s') :
    s'.fs.read .lock = s.fs.read .lock := by
  rw [Fs.read, Fs.read, hs.lock_name]
  cases hl : s.fs.lookup .lock with
  | none => rfl
  | some i =>
    refine congrArg some ((hs.grows.2 i (s.fs.dir_lt _ _ hl)).2 fun hi => ?_)
    obtain ⟨n, hn, hi⟩ := h.touched_name hi
    exact hn (s.fs.dir_inj _ _ _ hi hl)

/-- Everything the process has written is durable. -/
theorem Link.synced (h : Link crc cfg recs log pub s a) :
    Link crc cfg recs log pub s
      { a with
        segs := CompactingLog.withTail a.segs a.cur a.volatile
        durable := a.durable ++ a.volatile
        volatile := [] } where
  rep := h.rep
  inv := (CompactingLog.Step.sync a.volatile [] (List.append_nil _).symm).inv h.inv
  represents := h.represents
  hints := h.hints
  text := h.text
  lock_text := h.lock_text
  fresh := h.fresh
  segs id := by
    rw [CompactingLog.withTail_nil]
    exact h.segs id
  cur := h.cur
  log_eq := (List.append_nil _).trans h.log_eq
  pub_eq := h.pub_eq
  loc := h.loc
  phase := h.phase
  covers := h.covers

/-- One step of a running store. -/
theorem World.Inv.step (h : World.Inv crc ops (.running cfg s)) (hok : StepOk s act)
    (hs : Step crc cfg s act s') :
    World.Inv crc (ops ++ finished crc s s') (.running cfg s') := by
  obtain ⟨hm, recs, pub, a, hl, hv⟩ := h
  refine ⟨(hl.rep.marker_step hs).trans hm, ?_⟩
  obtain ⟨recs', pub', a', hl', -, -, -⟩ := link_step hl hok hs (fun _ _ _ => hv) <| by
    intro _ id ids stale hmerge
    have hphase := hl.phase
    rw [hmerge] at hphase
    exact hl.inv.survives hphase hv
  rw [List.append_assoc, ← finished_written hs, ← List.append_assoc] at hl'
  exact ⟨recs', pub', _, hl'.synced, by rfl⟩

/-- Every reached world has the invariant. -/
theorem reach_inv {w : World} (h : Reach crc StepOk w ops) : w.Inv crc ops := by
  induction h with
  | empty => exact Disk.empty
  | @opened fs ops listing now s cfg _ hlist hopen ih =>
    obtain ⟨-, ho⟩ := (openStore_spec hlist (Faithful.sealed ih.faithful) ih.bounded).ok rfl hopen
    obtain ⟨recs, hlink⟩ := ih.link ho cfg
    rw [← List.append_nil ops] at hlink
    exact ⟨ho.marker ih.openable.1, recs, _, _, by rw [ho.free]; exact hlink, by rfl⟩
  | openCrash _ hlist hcrash htorn ih =>
    exact ih.opening
      ((openStore_spec hlist (Faithful.sealed ih.faithful) ih.bounded).crashes rfl hcrash) htorn
  | act _ hp hs ih => exact World.Inv.step ih hp (step_cases hs)
  | crash _ ih =>
    obtain ⟨hm, recs, pub, a, hl, -⟩ := ih
    exact hl.disk (Or.inr (Or.inr hm))
  | @close cfg s ops fs _ hc ih =>
    obtain ⟨hm, recs, pub, a, hl, -⟩ := ih
    have hd := hl.disk (Or.inr (Or.inr hm))
    unfold Sys.close at hc
    split at hc
    case h_5 => cases hc
    all_goals
      rename_i hlock
      obtain rfl := Option.some.inj hc
      rw [hlock, show Lock.written crc _ = [] from rfl, List.append_nil] at hd
      exact ⟨hd.openable, hd.faithful, hd.bounded, hd.hints, hd.hint_data, hd.text, hd.final⟩

/-! ## Gets and recovery -/

/-- What `open` recovers from the directory of a reached world. -/
theorem World.Inv.recovers {w : World} (h : w.Inv crc ops) {listing : List FileName} {now : ℕ}
    (hlist : (w.fs.create .lock).Lists listing) :
    ∃ s t, (openStore crc listing now w.fs).result = .ok s ∧ (t = [] ∨ t = w.inFlight) ∧
      s.Agrees crc (ops ++ t) := by
  obtain ⟨t, ht, hd⟩ : ∃ t, (t = [] ∨ t = w.inFlight) ∧ Disk crc w.fs (ops ++ t) := by
    cases w with
    | closed fs => exact ⟨[], Or.inl rfl, by rw [List.append_nil]; exact h⟩
    | running cfg s =>
      obtain ⟨hm, recs, pub, a, hl, -⟩ := h
      exact ⟨_, s.lock.written_cases, hl.disk (Or.inr (Or.inr hm))⟩
  obtain ⟨s, hs, ho⟩ := hd.opens hlist
  obtain ⟨recs, hl⟩ := hd.link ho Config.new
  refine ⟨s, t, hs, ht, fun key => ?_⟩
  rw [plainMap_eq]
  exact hl.get key

/-- Between two appends, every `get` agrees with the plain map of the appends that are over. -/
theorem World.Inv.agrees (h : World.Inv crc ops (.running cfg s)) (hl : s.lock.inFlight = []) :
    s.Agrees crc ops := by
  obtain ⟨-, recs, pub, a, hlink, -⟩ := h
  have hpub : ops = pub := by
    have hfresh := hlink.fresh
    rw [Lock.written_of_inFlight hl, List.append_nil] at hfresh
    rw [hfresh, Lock.fresh_eq_nil, List.append_nil]
    intro c hc
    rw [hc] at hl
    cases hl
  intro key
  rw [plainMap_eq, hpub]
  exact hlink.get key

/-- Between two appends every `get` agrees with the history, and `open` recovers it, with or without
the append in flight. -/
def World.Sound (crc : Bytes → UInt32) (ops : List Command) (w : World) : Prop :=
  (∀ cfg s, w = .running cfg s → s.lock.inFlight = [] → s.Agrees crc ops) ∧
    ∀ listing now, (w.fs.create .lock).Lists listing →
      ∃ s t, (openStore crc listing now w.fs).result = .ok s ∧ (t = [] ∨ t = w.inFlight) ∧
        s.Agrees crc (ops ++ t)

theorem World.Inv.sound {w : World} (h : w.Inv crc ops) : w.Sound crc ops := by
  refine ⟨?_, fun _ _ hlist => h.recovers hlist⟩
  rintro cfg s rfl hl
  exact h.agrees hl

/-- In a run of tidy steps, every step is one the invariant allows. -/
theorem Reach.benign {P : Sys → Act → Prop} (hP : ∀ {s a}, P s a → Tidy s a) {w : World}
    (h : Reach crc P w ops) : Reach crc StepOk w ops ∧ ∀ cfg s, w = .running cfg s → Tight s := by
  induction h with
  | empty => exact ⟨.empty, by simp⟩
  | opened cfg _ hlist hopen ih =>
    refine ⟨.opened cfg ih.1 hlist hopen, ?_⟩
    rintro _ s ⟨⟩
    have hd : Disk crc _ _ := reach_inv ih.1
    exact ((openStore_spec hlist (Faithful.sealed hd.faithful) hd.bounded).ok rfl hopen).2.tight
  | openCrash _ hlist hcrash htorn ih => exact ⟨.openCrash ih.1 hlist hcrash htorn, by simp⟩
  | act _ hp hs ih =>
    have ht := ih.2 _ _ rfl
    have hs' := step_cases hs
    refine ⟨.act ih.1 (ht.stepOk (hP hp) (step_fits hs) hs') hs, ?_⟩
    rintro _ _ ⟨⟩
    obtain ⟨-, recs, pub, a, hl, -⟩ := reach_inv ih.1
    exact tight_step hl.rep ht (hP hp) hs'
  | crash _ ih => exact ⟨.crash ih.1, by simp⟩
  | close _ hc ih => exact ⟨.close ih.1 hc, by simp⟩

/-- A crash at any point of any run in which no filesystem call fails and no crash comes in the middle
of the marker: `open` succeeds on the directory that is left, and every key has the value given by the
appends that are over, with or without the one in flight. -/
theorem crash_recovery {w : World} (h : Reach crc (fun _ a => a.Nominal) w ops)
    {listing : List FileName} (hlist : (w.fs.create .lock).Lists listing) (now : ℕ) :
    ∃ s t, (openStore crc listing now w.fs).result = .ok s ∧ (t = [] ∨ t = w.inFlight) ∧
      s.Agrees crc (ops ++ t) :=
  (reach_inv (h.benign fun hn => hn.tidy).1).recovers hlist

/-- A crash in the middle of an append, when a merge has removed the first of its sources. -/
theorem crash_recovery_in_merge : ∃ s listing,
    steps crc32 smallFiles (fun _ a => a.Nominal) (interrupted 27) (emptyStore crc32) = some s ∧
      (s.fs.create .lock).Lists listing ∧
      ∃ s' t, (openStore crc32 listing 0 s.fs).result = .ok s' ∧ (t = [] ∨ t = s.lock.inFlight) ∧
        s'.Agrees crc32
          (finishedBy crc32 smallFiles (interrupted 27) (emptyStore crc32) ++ t) := by
  have hsome : (steps crc32 smallFiles (fun _ a => a.Nominal) (interrupted 27)
      (emptyStore crc32)).isSome := by decide +kernel
  obtain ⟨s, hs⟩ := Option.isSome_iff_exists.mp hsome
  obtain ⟨listing, hlist⟩ := Fs.exists_lists (s.fs.create .lock)
  exact ⟨s, listing, hs, hlist, crash_recovery (Reach.firstSession hs) hlist 0⟩

/-- The first `open` of a directory dies when `write_all` has written three bytes of the marker: no
later `open` succeeds. -/
theorem torn_marker_refuses_open : ∃ fs,
    (openStore crc32 [.lock] 0).Crashes Fs.empty fs ∧ fs.read .lock = some (asBytes "bit") ∧
      ∀ listing now, (openStore crc32 listing now fs).result =
        .error (.error (.engineMismatch "bit" "bitcask")) := by
  have hrun : (openStore crc32 [.lock] 0 Fs.empty).before.any fun fs =>
      fs.read .lock = some (asBytes "bit") ∧ (storeNames.acquire .bitcask fs).result =
        .error (.error (.engineMismatch "bit" "bitcask")) := by decide +kernel
  obtain ⟨fs, hmem, hfs⟩ := List.any_eq_true.mp hrun
  obtain ⟨hmarker, hopen⟩ := of_decide_eq_true hfs
  refine ⟨fs, hmem, hmarker, fun listing now => ?_⟩
  rw [openStore_eq]
  show (Prog.bind _ _ _).result = _
  rw [Prog.bind, hopen]

end Inv

end Bitcask
