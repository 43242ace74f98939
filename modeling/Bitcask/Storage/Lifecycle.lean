import Bitcask.Storage.Clients

/-!
# Handles and the compaction thread

A `Bitcask` is a counted reference to a `Handle`. The handle owns the sender of the channel that
wakes the compaction thread, and the thread. The channel holds one signal: `compaction_trigger`
does not wait for room in it. Dropping the last reference drops the sender, joins the thread and
syncs the active file.

`Live` is a store with its calls, the thread in its loop, the channel and the handle. `Live.step`
adds to the moves of `Clients` what the loop, the trigger and the handle do, and allows them only
where the program makes them; `LiveStep` lists its outcomes.
-/

namespace Bitcask

open LittleEndian FileSystem SegmentedLog CrashHoare

/-! ## A store and its handle -/

/-- Where the compaction thread is in its loop. -/
inductive Worker
  /-- In `recv`. -/
  | receiving
  /-- `recv` has returned a signal; `upgrade` is next. -/
  | received
  /-- `run_compaction` is next; the shared state is kept alive. -/
  | entering
  | compacting
  /-- The loop is over, or `run_compaction` has panicked. The receiver is dropped. -/
  | exited
  deriving DecidableEq, Repr

/-- How far a handle is. -/
inductive Handle
  /-- One `Bitcask` refers to it, and `others` more do. -/
  | alive (others : ℕ)
  /-- In `drop`: the sender is dropped, and the thread is being joined. -/
  | joining
  /-- In `drop`: the thread is joined, and the writer lock is next. -/
  | syncing
  /-- Dropped, with the shared state. -/
  | dropped
  deriving DecidableEq, Repr

def Handle.isAlive : Handle → Bool
  | .alive _ => true
  | _ => false

/-- A store with the calls on it, its compaction thread and its handle. -/
structure Live where
  clients : Clients
  worker : Worker
  /-- A signal is in the channel. -/
  queued : Bool
  /-- The lock holder has updated the index, and `compaction_trigger` is next. -/
  triggering : Bool
  handle : Handle
  /-- The calls made so far. -/
  made : List ℕ

/-- The shared state. -/
abbrev Live.store (l : Live) : Sys := l.clients.store

/-- What can happen next. -/
inductive LiveAct
  | move (m : Move)
  | trigger
  | recv
  | upgrade
  | clone
  /-- A `Bitcask` is dropped. -/
  | drop
  /-- `join` returns. -/
  | join
  /-- The end of `drop`; `ok` tells whether the sync succeeds, whose error is ignored. -/
  | sync (ok : Bool)

/-- `open` has returned. -/
def Live.start (s : Sys) : Live where
  clients := ⟨s, fun _ => .unborn, none⟩
  worker := .receiving
  queued := false
  triggering := false
  handle := .alive 0
  made := []

@[simp] theorem Live.start_store (s : Sys) : (Live.start s).store = s := rfl

/-- The thread enters `run_compaction`. -/
def Move.isStart : Move → Bool
  | .store .start => true
  | _ => false

/-- The move updates the index for an append. -/
def Move.publishes (crc : Bytes → UInt32) (s : Sys) : Move → Bool
  | .store a => published crc s a ≠ []
  | _ => false

/-- The place of the thread after a move: when it is in `run_compaction`, that may have returned or
panicked. -/
def Worker.after (w : Worker) (m : Move) (merge : Merge) : Worker :=
  if m.isStart ∨ w = .compacting then
    match merge with
    | .idle _ => .receiving
    | .dead => .exited
    | _ => .compacting
  else w

namespace Live

variable (crc : Bytes → UInt32) (cfg : Config)

/-- A call is made through a handle, the lock holder calls `compaction_trigger` before
`handle_policy`, and `run_compaction` is entered from the loop of the thread. -/
def allows (l : Live) : Move → Bool
  | .invoke _ _ => l.handle.isAlive
  | .run _ _ => true
  | .store .start => l.worker = .entering
  | .store (.writer _) | .store (.writerErr _) => !l.triggering
  | .store _ => true

def move (l : Live) (m : Move) : Option (Live × List ClientEvent) :=
  if l.allows m then
    (l.clients.step crc cfg m).map fun r =>
      ({ l with
          clients := r.1
          worker := l.worker.after m r.1.store.merge
          triggering := l.triggering || m.publishes crc l.store
          made := m.makes ++ l.made },
        r.2)
  else none

/-- `compaction_trigger`: `try_send` does nothing when the channel is full, or when the receiver is
dropped. -/
def trigger (l : Live) : Option Live :=
  if l.triggering then
    some { l with
      triggering := false
      queued := l.queued ||
        (decide (cfg.compactionThreshold ≤ l.store.writer.staleBytesCount) && l.worker ≠ .exited) }
  else none

/-- `recv`: a signal that was sent is received also when the sender is dropped. -/
def recv (l : Live) : Option Live :=
  if l.worker = .receiving then
    if l.queued then some { l with queued := false, worker := .received }
    else if l.handle.isAlive then none
    else some { l with worker := .exited }
  else none

/-- `weak.upgrade()`. -/
def upgrade (l : Live) : Option Live :=
  if l.worker = .received then
    some { l with worker := if l.handle = .dropped then .exited else .entering }
  else none

def clone (l : Live) : Option Live :=
  match l.handle with
  | .alive n => some { l with handle := .alive (n + 1) }
  | _ => none

/-- A call borrows a handle, so the last one is dropped only when all calls are over. -/
def drop (l : Live) : Option Live :=
  match l.handle with
  | .alive (n + 1) => some { l with handle := .alive n }
  | .alive 0 =>
    if l.made.all fun t => (l.clients.calls t).isOver then some { l with handle := .joining } else none
  | _ => none

def join (l : Live) : Option Live :=
  if l.handle = .joining ∧ l.worker = .exited then some { l with handle := .syncing } else none

/-- The end of `Handle::drop`; `none` while the writer lock is held. -/
def sync (l : Live) (ok : Bool) : Option Live :=
  match l.handle, l.store.lock with
  | .syncing, .poisoned => some { l with handle := .dropped }
  | .syncing, .free =>
    some { l with
      clients := { l.clients with store := if ok then l.store.sync else l.store }
      handle := .dropped }
  | _, _ => none

def step (l : Live) : LiveAct → Option (Live × List ClientEvent)
  | .move m => l.move crc cfg m
  | .trigger => (l.trigger cfg).map (·, [])
  | .recv => l.recv.map (·, [])
  | .upgrade => l.upgrade.map (·, [])
  | .clone => l.clone.map (·, [])
  | .drop => l.drop.map (·, [])
  | .join => l.join.map (·, [])
  | .sync ok => (l.sync ok).map (·, [])

/-- The steps `acts`, one after the other. -/
def steps : List LiveAct → Live → Option (Live × List ClientEvent)
  | [], l => some (l, [])
  | a :: acts, l =>
    (l.step crc cfg a).bind fun r => (steps acts r.1).map fun r' => (r'.1, r.2 ++ r'.2)

end Live

/-! ## What a step can do -/

/-- The transitions of a live store. -/
inductive LiveStep (crc : Bytes → UInt32) (cfg : Config) (l : Live) :
    LiveAct → Live → List ClientEvent → Prop
  | move (m : Move) (c : Clients) (evs : List ClientEvent) (ha : l.allows m = true)
      (hs : ClientStep crc cfg l.clients m c evs) :
    LiveStep crc cfg l (.move m)
      { l with
        clients := c
        worker := l.worker.after m c.store.merge
        triggering := l.triggering || m.publishes crc l.store
        made := m.makes ++ l.made }
      evs
  | trigger (ht : l.triggering = true) :
    LiveStep crc cfg l .trigger
      { l with
        triggering := false
        queued := l.queued ||
          (decide (cfg.compactionThreshold ≤ l.store.writer.staleBytesCount) && l.worker ≠ .exited) }
      []
  | recv (hw : l.worker = .receiving) (hq : l.queued = true) :
    LiveStep crc cfg l .recv { l with queued := false, worker := .received } []
  | hangUp (hw : l.worker = .receiving) (hq : l.queued = false) (hh : l.handle.isAlive = false) :
    LiveStep crc cfg l .recv { l with worker := .exited } []
  | upgrade (hw : l.worker = .received) (hh : l.handle ≠ .dropped) :
    LiveStep crc cfg l .upgrade { l with worker := .entering } []
  | upgradeFails (hw : l.worker = .received) (hh : l.handle = .dropped) :
    LiveStep crc cfg l .upgrade { l with worker := .exited } []
  | clone (n : ℕ) (hh : l.handle = .alive n) :
    LiveStep crc cfg l .clone { l with handle := .alive (n + 1) } []
  | drop (n : ℕ) (hh : l.handle = .alive (n + 1)) :
    LiveStep crc cfg l .drop { l with handle := .alive n } []
  | dropLast (hh : l.handle = .alive 0) (hc : ∀ t ∈ l.made, l.clients.calls t = .returned) :
    LiveStep crc cfg l .drop { l with handle := .joining } []
  | join (hh : l.handle = .joining) (hw : l.worker = .exited) :
    LiveStep crc cfg l .join { l with handle := .syncing } []
  | syncPoisoned (ok : Bool) (hh : l.handle = .syncing) (hl : l.store.lock = .poisoned) :
    LiveStep crc cfg l (.sync ok) { l with handle := .dropped } []
  | sync (ok : Bool) (hh : l.handle = .syncing) (hl : l.store.lock = .free) :
    LiveStep crc cfg l (.sync ok)
      { l with
        clients := { l.clients with store := if ok then l.store.sync else l.store }
        handle := .dropped }
      []

section Cases

variable {crc : Bytes → UInt32} {cfg : Config} {l l' : Live} {evs : List ClientEvent} {a : LiveAct}

theorem liveStep_cases (h : l.step crc cfg a = some (l', evs)) : LiveStep crc cfg l a l' evs := by
  cases a with
  | move m =>
    simp only [Live.step, Live.move] at h
    split at h
    · rename_i ha
      obtain ⟨⟨c, evs'⟩, hs, he⟩ := Option.map_eq_some_iff.mp h
      cases he
      exact .move m c _ ha (clientStep_cases hs)
    · cases h
  | trigger =>
    simp only [Live.step, Live.trigger] at h
    split at h
    · cases h
      exact .trigger (by assumption)
    · cases h
  | recv =>
    simp only [Live.step, Live.recv] at h
    split at h
    · rename_i hw
      split at h
      · cases h
        exact .recv hw (by assumption)
      · rename_i hq
        split at h
        · cases h
        · rename_i hh
          cases h
          exact .hangUp hw (Bool.eq_false_iff.mpr hq) (Bool.eq_false_iff.mpr hh)
    · cases h
  | upgrade =>
    simp only [Live.step, Live.upgrade] at h
    split at h
    · rename_i hw
      cases h
      by_cases hh : l.handle = .dropped
      · rw [if_pos hh]
        exact .upgradeFails hw hh
      · rw [if_neg hh]
        exact .upgrade hw hh
    · cases h
  | clone =>
    simp only [Live.step, Live.clone] at h
    split at h
    · cases h
      exact .clone _ (by assumption)
    · cases h
  | drop =>
    simp only [Live.step, Live.drop] at h
    split at h
    · cases h
      exact .drop _ (by assumption)
    · rename_i hh
      split at h
      · rename_i hc
        cases h
        exact .dropLast hh fun t ht => Progress.isOver_iff.mp (List.all_eq_true.mp hc t ht)
      · cases h
    · cases h
  | join =>
    simp only [Live.step, Live.join] at h
    split at h
    · rename_i hj
      cases h
      exact .join hj.1 hj.2
    · cases h
  | sync ok =>
    simp only [Live.step, Live.sync] at h
    split at h
    · cases h
      exact .syncPoisoned ok (by assumption) (by assumption)
    · cases h
      exact .sync ok (by assumption) (by assumption)
    · cases h

end Cases

/-- No filesystem call of the store fails. -/
def LiveAct.Nominal : LiveAct → Prop
  | .move m => m.Nominal
  | _ => True

instance : DecidablePred LiveAct.Nominal
  | .move m => inferInstanceAs (Decidable m.Nominal)
  | .trigger | .recv | .upgrade | .clone | .drop | .join | .sync _ => .isTrue trivial

/-- The live stores that steps of the kind `P` lead to from the store `s₀`, with what was seen. -/
inductive LiveRun (crc : Bytes → UInt32) (cfg : Config) (P : Live → LiveAct → Prop) (s₀ : Sys) :
    Live → List ClientEvent → Prop
  | start : LiveRun crc cfg P s₀ (.start s₀) []
  | step {l l' : Live} {tr evs : List ClientEvent} {a : LiveAct} (h : LiveRun crc cfg P s₀ l tr)
      (hp : P l a) (hs : l.step crc cfg a = some (l', evs)) : LiveRun crc cfg P s₀ l' (tr ++ evs)

theorem LiveRun.of_steps {crc : Bytes → UInt32} {cfg : Config} {s₀ : Sys} {acts : List LiveAct}
    {l l' : Live} {tr evs : List ClientEvent} (h : LiveRun crc cfg (fun _ _ => True) s₀ l tr)
    (hs : Live.steps crc cfg acts l = some (l', evs)) :
    LiveRun crc cfg (fun _ _ => True) s₀ l' (tr ++ evs) := by
  induction acts generalizing l tr evs with
  | nil =>
    cases hs
    rwa [List.append_nil]
  | cons a acts ih =>
    obtain ⟨⟨l₁, evs₁⟩, hs₁, hs⟩ := Option.bind_eq_some_iff.mp hs
    obtain ⟨⟨l₂, evs₂⟩, hs₂, he⟩ := Option.map_eq_some_iff.mp hs
    cases he
    rw [← List.append_assoc]
    exact ih (.step h trivial hs₁) hs₂

/-- A set of a one-letter key to a one-letter value, in a store whose files hold one record. -/
def liveSet (t : ℕ) (key value : String) : List LiveAct :=
  [.move (.invoke t (.append (.set key value))), .move (.run t 0), .move (.store (.write 27)),
    .move (.store (.writer 0)), .trigger] ++ List.replicate 6 (.move (.store (.writer 0)))

end Bitcask
