import Bitcask.Storage.World

/-!
# Clients

Any number of calls run on one store, next to the compaction thread. A call is interrupted only
between two sections that hold a lock or load the readers map: `get` copies the entry of its key,
loads the readers map and reads the record; `remove` looks for its key before it takes the writer
lock; the holder of the writer lock does the steps of the store. A client that makes several calls
makes them under several names.

`Clients.step` is one section of a call, or one step of the store; `ClientStep` lists its outcomes.
`Clients.Owner` ties the holder of the writer lock to the call that took it.
-/

namespace Bitcask

open LittleEndian FileSystem SegmentedLog

/-! ## Calls -/

/-- What a client asks for. -/
inductive ClientCall
  | get (key : String)
  | append (call : Call)
  deriving DecidableEq, Repr

/-- What a call returns. -/
inductive Answer
  | got (r : Except KvsError (Option String))
  | done (r : Except KvsError Unit)
  deriving DecidableEq

/-- How far a call is. -/
inductive Progress
  | unborn
  /-- `get` at the head of its loop. -/
  | lookup (key : String)
  /-- `get` has copied the entry. -/
  | load (key : String) (entry : IndexValue)
  /-- `get` holds the readers map it has loaded. -/
  | pread (key : String) (entry : IndexValue) (file : Inode)
  /-- `remove` before `contains_key`. -/
  | check (key : String)
  /-- `append` before `writer_lock`. -/
  | waiting (call : Call)
  | appending (call : Call)
  | returned

/-- The call has returned, or its thread has panicked. -/
def Progress.isOver : Progress → Bool
  | .returned => true
  | _ => false

theorem Progress.isOver_iff {p : Progress} : p.isOver = true ↔ p = .returned := by
  cases p <;> simp [Progress.isOver]

/-- The calls on a store. -/
structure Clients where
  store : Sys
  calls : ℕ → Progress
  /-- The call that holds the writer lock. -/
  holder : Option ℕ

/-- What is seen of the calls. -/
inductive ClientEvent
  | invoked (t : ℕ) (call : ClientCall)
  /-- The index lookup of a `get`. -/
  | looked (t : ℕ) (key : String)
  /-- The index update of an append. -/
  | updated (t : ℕ) (c : Command)
  | returned (t : ℕ) (answer : Answer)
  deriving DecidableEq

inductive Move
  | invoke (t : ℕ) (call : ClientCall)
  /-- The next section of a call, which reads the clock as `ts` if it takes the writer lock. -/
  | run (t : ℕ) (ts : UInt64)
  | store (a : Act)

/-- The first section of a call. -/
def ClientCall.start : ClientCall → Progress
  | .get key => .lookup key
  | .append (.set key value) => .waiting (.set key value)
  | .append (.remove key) => .check key

/-- The command whose index update a step is. -/
def published (crc : Bytes → UInt32) (s : Sys) : Act → List Command
  | .writer _ =>
    match s.lock with
    | .writing c done => if done = (c.serialize crc).length then [c] else []
    | _ => []
  | _ => []

/-- What `append` returns when the step ends it. -/
def Sys.outcome (s : Sys) : Act → Except KvsError Unit
  | .writerErr e => .error e
  | .writer _ =>
    match s.lock with
    | .rotateTo .reader next _ =>
      match s.fs.lookup (.data next) with
      | none => .error (.io fileNotFound)
      | some _ => .ok ()
    | _ => .ok ()
  | _ => .ok ()

namespace Clients

variable (crc : Bytes → UInt32) (cfg : Config)

def advance (c : Clients) (t : ℕ) (p : Progress) : Clients :=
  { c with calls := Function.update c.calls t p }

/-- The next section of a call; `none` when it has to wait. -/
def run (c : Clients) (t : ℕ) (ts : UInt64) : Option (Clients × List ClientEvent) :=
  match c.calls t with
  | .lookup key =>
    match c.store.index.get (asBytes key) with
    | none => some (c.advance t .returned, [.looked t key, .returned t (.got (.ok none))])
    | some entry => some (c.advance t (.load key entry), [.looked t key])
  | .load key entry =>
    match c.store.readers[entry.fileId]? with
    | none => some (c.advance t (.lookup key), [])
    | some file => some (c.advance t (.pread key entry file), [])
  | .pread _ entry file =>
    some (c.advance t .returned,
      [.returned t (.got (readValue crc (c.store.fs.bytes file) entry))])
  | .check key =>
    match c.store.index.get (asBytes key) with
    | none => some (c.advance t .returned, [.returned t (.done (.error .keyNotFound))])
    | some _ => some (c.advance t (.waiting (.remove key)), [])
  | .waiting call =>
    if c.store.lock = .poisoned then
      some (c.advance t .returned, [.returned t (.done (.error .lockPoisoned))])
    else
      (Bitcask.step crc cfg c.store (.begin call ts)).map fun s =>
        ({ c.advance t (.appending call) with store := s, holder := some t }, [])
  | .unborn | .appending _ | .returned => none

/-- A step of the lock holder or of the compaction thread. An append that panics does not return. -/
def act (c : Clients) (a : Act) : Option (Clients × List ClientEvent) :=
  match a with
  | .begin _ _ => none
  | a =>
    (Bitcask.step crc cfg c.store a).map fun s =>
      match c.holder with
      | none => ({ c with store := s }, [])
      | some t =>
        if s.lock.inFlight = [] then
          ({ c.advance t .returned with store := s, holder := none },
            if s.lock = .poisoned then [] else [.returned t (.done (c.store.outcome a))])
        else ({ c with store := s }, (published crc c.store a).map (.updated t))

def step (c : Clients) : Move → Option (Clients × List ClientEvent)
  | .invoke t call =>
    match c.calls t with
    | .unborn => some (c.advance t call.start, [.invoked t call])
    | _ => none
  | .run t ts => c.run crc cfg t ts
  | .store a => c.act crc cfg a

end Clients

/-- The states that moves of the kind `P` lead to from the store `s₀`, with what was seen. -/
inductive ClientRun (crc : Bytes → UInt32) (cfg : Config) (P : Clients → Move → Prop) (s₀ : Sys) :
    Clients → List ClientEvent → Prop
  | start : ClientRun crc cfg P s₀ ⟨s₀, fun _ => .unborn, none⟩ []
  | move {c c' : Clients} {tr evs : List ClientEvent} {m : Move} (h : ClientRun crc cfg P s₀ c tr)
      (hp : P c m) (hs : c.step crc cfg m = some (c', evs)) : ClientRun crc cfg P s₀ c' (tr ++ evs)

/-- The moves `ms`, all of the kind `P`. -/
def Clients.moves (crc : Bytes → UInt32) (cfg : Config) (P : Clients → Move → Prop)
    [∀ c m, Decidable (P c m)] : List Move → Clients → Option (Clients × List ClientEvent)
  | [], c => some (c, [])
  | m :: ms, c =>
    if P c m then
      (c.step crc cfg m).bind fun r =>
        (Clients.moves crc cfg P ms r.1).map fun r' => (r'.1, r.2 ++ r'.2)
    else none

theorem ClientRun.of_moves {crc : Bytes → UInt32} {cfg : Config} {P : Clients → Move → Prop}
    [∀ c m, Decidable (P c m)] {s₀ : Sys} {ms : List Move} {c c' : Clients}
    {tr evs : List ClientEvent} (h : ClientRun crc cfg P s₀ c tr)
    (hs : Clients.moves crc cfg P ms c = some (c', evs)) : ClientRun crc cfg P s₀ c' (tr ++ evs) := by
  induction ms generalizing c tr evs with
  | nil =>
    cases hs
    rwa [List.append_nil]
  | cons m ms ih =>
    rw [Clients.moves] at hs
    split at hs
    · rename_i hp
      obtain ⟨⟨c₁, evs₁⟩, hs₁, hs⟩ := Option.bind_eq_some_iff.mp hs
      obtain ⟨⟨c₂, evs₂⟩, hs₂, he⟩ := Option.map_eq_some_iff.mp hs
      cases he
      rw [← List.append_assoc]
      exact ih (.move h hp hs₁) hs₂
    · cases hs

/-- No filesystem call fails. -/
def Move.Nominal : Move → Prop
  | .store a => a.Nominal
  | _ => True

instance : DecidablePred Move.Nominal
  | .store a => inferInstanceAs (Decidable a.Nominal)
  | .invoke _ _ | .run _ _ => .isTrue trivial

/-- The calls a move makes. -/
def Move.makes : Move → List ℕ
  | .invoke t _ => [t]
  | _ => []

/-- The command of an index update. -/
def ClientEvent.update : ClientEvent → Option Command
  | .updated _ c => some c
  | _ => none

/-- The index updates of appends. -/
def updates (tr : List ClientEvent) : List Command := tr.filterMap ClientEvent.update

/-! ## What can happen next -/

/-- The call an event is about. -/
def ClientEvent.call : ClientEvent → ℕ
  | .invoked t _ | .looked t _ | .updated t _ | .returned t _ => t

/-- The transitions of the clients. -/
inductive ClientStep (crc : Bytes → UInt32) (cfg : Config) (c : Clients) :
    Move → Clients → List ClientEvent → Prop
  | invoke (t : ℕ) (call : ClientCall) (h : c.calls t = .unborn) :
    ClientStep crc cfg c (.invoke t call) (c.advance t call.start) [.invoked t call]
  | missing (t : ℕ) (ts : UInt64) (key : String) (h : c.calls t = .lookup key)
      (hi : c.store.index.get (asBytes key) = none) :
    ClientStep crc cfg c (.run t ts) (c.advance t .returned)
      [.looked t key, .returned t (.got (.ok none))]
  | found (t : ℕ) (ts : UInt64) (key : String) (e : IndexValue) (h : c.calls t = .lookup key)
      (hi : c.store.index.get (asBytes key) = some e) :
    ClientStep crc cfg c (.run t ts) (c.advance t (.load key e)) [.looked t key]
  | retry (t : ℕ) (ts : UInt64) (key : String) (e : IndexValue) (h : c.calls t = .load key e)
      (hr : c.store.readers[e.fileId]? = none) :
    ClientStep crc cfg c (.run t ts) (c.advance t (.lookup key)) []
  | load (t : ℕ) (ts : UInt64) (key : String) (e : IndexValue) (i : Inode)
      (h : c.calls t = .load key e) (hr : c.store.readers[e.fileId]? = some i) :
    ClientStep crc cfg c (.run t ts) (c.advance t (.pread key e i)) []
  | pread (t : ℕ) (ts : UInt64) (key : String) (e : IndexValue) (i : Inode)
      (h : c.calls t = .pread key e i) :
    ClientStep crc cfg c (.run t ts) (c.advance t .returned)
      [.returned t (.got (readValue crc (c.store.fs.bytes i) e))]
  | absent (t : ℕ) (ts : UInt64) (key : String) (h : c.calls t = .check key)
      (hi : c.store.index.get (asBytes key) = none) :
    ClientStep crc cfg c (.run t ts) (c.advance t .returned)
      [.returned t (.done (.error .keyNotFound))]
  | present (t : ℕ) (ts : UInt64) (key : String) (e : IndexValue) (h : c.calls t = .check key)
      (hi : c.store.index.get (asBytes key) = some e) :
    ClientStep crc cfg c (.run t ts) (c.advance t (.waiting (.remove key))) []
  | poisoned (t : ℕ) (ts : UInt64) (call : Call) (h : c.calls t = .waiting call)
      (hl : c.store.lock = .poisoned) :
    ClientStep crc cfg c (.run t ts) (c.advance t .returned)
      [.returned t (.done (.error .lockPoisoned))]
  | begin (t : ℕ) (ts : UInt64) (call : Call) (s : Sys) (h : c.calls t = .waiting call)
      (hs : Step crc cfg c.store (.begin call ts) s) (hf : (call.command ts).Fits) :
    ClientStep crc cfg c (.run t ts)
      { c.advance t (.appending call) with store := s, holder := some t } []
  | other (a : Act) (s : Sys) (hb : ∀ call ts, a ≠ .begin call ts) (hs : Step crc cfg c.store a s)
      (hh : c.holder = none) : ClientStep crc cfg c (.store a) { c with store := s } []
  | append (a : Act) (s : Sys) (t : ℕ) (hb : ∀ call ts, a ≠ .begin call ts)
      (hs : Step crc cfg c.store a s) (hh : c.holder = some t) (hf : s.lock.inFlight ≠ []) :
    ClientStep crc cfg c (.store a) { c with store := s }
      ((published crc c.store a).map (.updated t))
  | finish (a : Act) (s : Sys) (t : ℕ) (hb : ∀ call ts, a ≠ .begin call ts)
      (hs : Step crc cfg c.store a s) (hh : c.holder = some t) (hf : s.lock.inFlight = []) :
    ClientStep crc cfg c (.store a) { c.advance t .returned with store := s, holder := none }
      (if s.lock = .poisoned then [] else [.returned t (.done (c.store.outcome a))])

section Cases

variable {crc : Bytes → UInt32} {cfg : Config} {c c' : Clients} {evs : List ClientEvent} {m : Move}

theorem clientRun_cases {t : ℕ} {ts : UInt64} (h : c.run crc cfg t ts = some (c', evs)) :
    ClientStep crc cfg c (.run t ts) c' evs := by
  unfold Clients.run at h
  cases hp : c.calls t with
  | unborn | appending | returned => rw [hp] at h; cases h
  | lookup key =>
    rw [hp] at h
    simp only at h
    split at h
    · rename_i hi
      cases h
      exact .missing t ts key hp hi
    · rename_i e hi
      cases h
      exact .found t ts key e hp hi
  | load key e =>
    rw [hp] at h
    simp only at h
    split at h
    · rename_i hr
      cases h
      exact .retry t ts key e hp hr
    · rename_i i hr
      cases h
      exact .load t ts key e i hp hr
  | pread key e i =>
    rw [hp] at h
    cases h
    exact .pread t ts key e i hp
  | check key =>
    rw [hp] at h
    simp only at h
    split at h
    · rename_i hi
      cases h
      exact .absent t ts key hp hi
    · rename_i e hi
      cases h
      exact .present t ts key e hp hi
  | waiting call =>
    rw [hp] at h
    simp only at h
    split at h
    · rename_i hl
      cases h
      exact .poisoned t ts call hp hl
    · obtain ⟨s, hs, he⟩ := Option.map_eq_some_iff.mp h
      cases he
      exact .begin t ts call s hp (step_cases hs) (step_fits hs)

theorem clientAct_cases {a : Act} (h : c.act crc cfg a = some (c', evs)) :
    ClientStep crc cfg c (.store a) c' evs := by
  have hb : ∀ call ts, a ≠ .begin call ts := by
    rintro call ts rfl
    cases h
  have hact : c.act crc cfg a = (Bitcask.step crc cfg c.store a).map fun s =>
      match c.holder with
      | none => ({ c with store := s }, [])
      | some t =>
        if s.lock.inFlight = [] then
          ({ c.advance t .returned with store := s, holder := none },
            if s.lock = .poisoned then [] else [.returned t (.done (c.store.outcome a))])
        else ({ c with store := s }, (published crc c.store a).map (.updated t)) := by
    cases a with
    | begin call ts => exact absurd rfl (hb call ts)
    | _ => rfl
  rw [hact] at h
  obtain ⟨s, hs, he⟩ := Option.map_eq_some_iff.mp h
  have hs := step_cases hs
  simp only at he
  split at he
  · rename_i hh
    cases he
    exact .other a s hb hs hh
  · rename_i t hh
    split at he
    · rename_i hf
      cases he
      exact .finish a s t hb hs hh hf
    · rename_i hf
      cases he
      exact .append a s t hb hs hh hf

theorem clientStep_cases (h : c.step crc cfg m = some (c', evs)) : ClientStep crc cfg c m c' evs := by
  cases m with
  | invoke t call =>
    simp only [Clients.step] at h
    split at h
    · rename_i hp
      cases h
      exact .invoke t call hp
    · cases h
  | run t ts => exact clientRun_cases h
  | store a => exact clientAct_cases h

end Cases

/-! ## The holder of the writer lock -/

/-- The holder of the writer lock is the call whose command the lock holder appends. -/
structure Clients.Owner (c : Clients) : Prop where
  free : c.holder = none → c.store.lock.inFlight = []
  held : ∀ t, c.holder = some t →
    ∃ call ts, c.calls t = .appending call ∧ c.store.lock.inFlight = [call.command ts]
  sole : ∀ t call, c.calls t = .appending call → c.holder = some t

section Owner

variable {crc : Bytes → UInt32} {cfg : Config} {c c' : Clients} {evs : List ClientEvent} {m : Move}
  {s s' : Sys} {a : Act}

/-- An append that is over gives the lock up. -/
theorem Step.inFlight (hs : Step crc cfg s a s') (hb : ∀ call ts, a ≠ .begin call ts) :
    s'.lock.inFlight = s.lock.inFlight ∨ s'.lock.inFlight = [] := by
  cases hs with
  | writer hw =>
    cases hw with
    | begin call ts hl => exact absurd rfl (hb call ts)
    | rotateReader next now caller i hl hi =>
      right
      cases caller with
      | append c => rfl
      | compaction =>
        unfold Sys.endRotate
        split <;> rfl
    | rotateMissing next now caller hl hi | failRotate st next caller e hl =>
      right
      cases caller <;> rfl
    | rotateSync next now caller hl | rotateCreate next now caller hl
    | rotateClock next now caller hl =>
      left
      rw [hl]
      cases caller <;> rfl
    | policyPanic c now hl | notFull c now hl | failWrite c done e hl hn | failPolicy c e hl =>
      exact Or.inr rfl
    | write c done n hl | publish c now hl | policySkip c now hl | policySync c now last hl
    | full c now hl => exact Or.inl (by rw [hl]; rfl)
  | merge hm =>
    rcases hm.lock_eq with h | ⟨-, h⟩
    · exact Or.inl (by rw [h])
    · exact Or.inr (by rw [h]; rfl)
  | startPanic | start => exact Or.inr rfl
  | startNot | spill | mergeErr | outputErr => exact Or.inl rfl

theorem Clients.calls_advance_self (c : Clients) (t : ℕ) (p : Progress) :
    (c.advance t p).calls t = p := Function.update_self ..

theorem Clients.calls_advance_ne (c : Clients) {t t' : ℕ} (h : t' ≠ t) (p : Progress) :
    (c.advance t p).calls t' = c.calls t' := Function.update_of_ne h ..

theorem Clients.Owner.ne {c : Clients} (h : c.Owner) {t t' : ℕ} (hh : c.holder = some t)
    (ht : ∀ call, c.calls t' ≠ .appending call) : t ≠ t' := by
  rintro rfl
  obtain ⟨call, -, hc, -⟩ := h.held t hh
  exact ht call hc

/-- Only the holder of the lock is appending. -/
theorem Clients.Owner.alone {c : Clients} (h : c.Owner) {t t' : ℕ} (hh : c.holder = some t)
    (hne : t' ≠ t) (call : Call) : c.calls t' ≠ .appending call := by
  intro hc
  have hsome := h.sole t' call hc
  rw [hh] at hsome
  exact hne (Option.some.inj hsome).symm

/-- A call that does not hold the lock moves on without it. -/
theorem Clients.Owner.advance {c : Clients} (h : c.Owner) {t : ℕ} {p : Progress}
    (ht : ∀ call, c.calls t ≠ .appending call) (hp : ∀ call, p ≠ .appending call) :
    (c.advance t p).Owner where
  free := h.free
  held t' hh := by
    obtain ⟨call, ts, hc, hl⟩ := h.held t' hh
    exact ⟨call, ts, (c.calls_advance_ne (h.ne hh ht) p).trans hc, hl⟩
  sole t' call hc := by
    by_cases he : t' = t
    · subst he
      exact absurd ((c.calls_advance_self t' p).symm.trans hc) (hp call)
    · exact h.sole t' call ((c.calls_advance_ne he p).symm.trans hc)

theorem Clients.Owner.step (h : c.Owner) (hs : ClientStep crc cfg c m c' evs) : c'.Owner := by
  cases hs with
  | invoke t call hp =>
    refine h.advance (by simp [hp]) ?_
    rcases call with key | ⟨key, value⟩ | key <;> simp [ClientCall.start]
  | missing t ts key hp hi | found t ts key e hp hi | retry t ts key e hp hr
  | load t ts key e i hp hr | pread t ts key e i hp | absent t ts key hp hi
  | present t ts key e hp hi | poisoned t ts call hp hl =>
    exact h.advance (by simp [hp]) (by simp)
  | begin t ts call s hp hs =>
    obtain ⟨hl, rfl⟩ := hs.of_begin
    have hnone : c.holder = none := by
      by_contra hne
      obtain ⟨t', ht'⟩ := Option.ne_none_iff_exists'.mp hne
      obtain ⟨_, _, -, hf⟩ := h.held t' ht'
      rw [hl] at hf; cases hf
    refine ⟨by simp, fun t' ht' => ?_, fun t' call' hc => ?_⟩
    · obtain rfl := Option.some.inj ht'
      exact ⟨call, ts, c.calls_advance_self t _, rfl⟩
    · by_cases he : t' = t
      · rw [he]
      · have := h.sole t' call' ((c.calls_advance_ne he _).symm.trans hc)
        rw [hnone] at this; cases this
  | other a s hb hs hh =>
    refine ⟨fun _ => ?_, fun t ht => ?_, fun t call hc => h.sole t call hc⟩
    · rcases hs.inFlight hb with hf | hf
      · exact hf.trans (h.free hh)
      · exact hf
    · rw [hh] at ht; cases ht
  | append a s t hb hs hh hf =>
    refine ⟨fun hn => ?_, fun t' ht' => ?_, fun t' call hc => h.sole t' call hc⟩
    · rw [hh] at hn; cases hn
    · obtain ⟨call, ts, hc, hl⟩ := h.held t' ht'
      exact ⟨call, ts, hc, ((hs.inFlight hb).resolve_right hf).trans hl⟩
  | finish a s t hb hs hh hf =>
    refine ⟨fun _ => hf, by simp, fun t' call hc => ?_⟩
    by_cases he : t' = t
    · subst he
      cases (c.calls_advance_self t' .returned).symm.trans hc
    · exact absurd ((c.calls_advance_ne he .returned).symm.trans hc) (h.alone hh he call)

/-- A call that has not been made stays that way. -/
theorem ClientStep.unborn (ho : c.Owner) (hs : ClientStep crc cfg c m c' evs) {t : ℕ}
    (hm : t ∉ m.makes) (ht : c.calls t = .unborn) : c'.calls t = .unborn := by
  have hother : ∀ {t' p}, c.calls t' ≠ .unborn → (c.advance t' p).calls t = .unborn := by
    intro t' p hne
    rw [c.calls_advance_ne (by rintro rfl; exact hne ht), ht]
  cases hs with
  | invoke t' call hp =>
    rw [c.calls_advance_ne (by simpa [Move.makes] using hm), ht]
  | other a s hb hs hh => exact ht
  | append a s t' hb hs hh hf => exact ht
  | begin t' ts call s hp hs => exact hother (by rw [hp]; simp)
  | finish a s t' hb hs hh hf =>
    obtain ⟨call, ts, hp, -⟩ := ho.held t' hh
    exact hother (by rw [hp]; simp)
  | _ => exact hother (by simp [*])

end Owner

end Bitcask
