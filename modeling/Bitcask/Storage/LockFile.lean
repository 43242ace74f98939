import Mathlib.Data.List.TakeWhile
import Bitcask.Storage.OpenSpec

/-!
# The lock file

`LockFile::acquire` on one directory, by any number of openers and for both engines, call by call:
the file is created, the advisory lock on it is tried, and the marker is read, or written and synced
if there is none. The lock goes with the file handle, so it is given up when an opener returns an
error, drops its `LockFile` or dies. An opener that dies inside `write_all` leaves part of a marker.

1. The lock is held by one opener at a time, and only that one looks at the marker (`Openers.Inv`).
2. A marker that is not blank, and that nobody is writing, stays for good (`Openers.Settled.step`).
   So all openers that succeed are of one engine (`one_engine`), and if part of a marker is left, no
   opener of either engine ever succeeds again (`torn_marker_locks_out`).

An opener that is alone does what `acquire` of `Open` says, and may die where that may crash
(`acquire_alone`).
-/

namespace Bitcask

open LittleEndian FileSystem CrashHoare

/-! ## Openers -/

/-- Where an opener is in `acquire`, with the engine it asks for and its handle of the file. -/
inductive Opener
  | idle
  | locking (e : StoreType) (file : Inode)
  | reading (e : StoreType) (file : Inode)
  /-- `write_all` has written `done` bytes of the engine's name. -/
  | writing (e : StoreType) (file : Inode) (done : ℕ)
  /-- `acquire` has returned, and the `LockFile` lives. -/
  | held (e : StoreType) (file : Inode)
  deriving DecidableEq, Repr

/-- `try_lock` has succeeded, and the file is open. -/
def Opener.locked : Opener → Bool
  | .idle | .locking _ _ => false
  | .reading _ _ | .writing _ _ _ | .held _ _ => true

/-- The engine and the handle. -/
def Opener.request : Opener → Option (StoreType × Inode)
  | .idle => none
  | .locking e file | .reading e file | .writing e file _ | .held e file => some (e, file)

/-- The directory, the opener that holds the advisory lock, and all openers. -/
structure Openers where
  fs : Fs FileName
  holder : Option ℕ
  procs : ℕ → Opener

/-- What the callers of `acquire` see. -/
inductive OpenerEvent
  | acquired (p : ℕ) (e : StoreType)
  | refused (p : ℕ) (e : StoreType) (err : KvsError)
  deriving DecidableEq, Repr

/-- The calls of an opener. A failed `open` changes nothing and is left out. -/
inductive OpenerAct
  | openFile (e : StoreType)
  | tryLock
  | readMarker
  /-- `write_all` writes `n` more bytes. -/
  | write (n : ℕ)
  | syncAll
  /-- The call that is due fails. -/
  | ioErr (err : IoError)
  /-- The `LockFile` is dropped, or the process dies. -/
  | close
  deriving DecidableEq, Repr

namespace Openers

/-- No opener has come yet. -/
def start (fs : Fs FileName) : Openers := ⟨fs, none, fun _ => .idle⟩

def set (o : Openers) (p : ℕ) (x : Opener) : Openers :=
  { o with procs := Function.update o.procs p x }

/-- The handle is closed, and the lock goes with it. -/
def close (o : Openers) (p : ℕ) : Openers :=
  { o.set p .idle with holder := if o.holder = some p then none else o.holder }

/-- One call of the opener `p`. -/
def step (o : Openers) (p : ℕ) : OpenerAct → Option (Openers × List OpenerEvent)
  | .openFile e =>
    match o.procs p with
    | .idle =>
      some ({ o.set p (.locking e (o.fs.handle .lock)) with fs := o.fs.create .lock }, [])
    | _ => none
  | .tryLock =>
    match o.procs p with
    | .locking e file =>
      if o.holder = none then some ({ o.set p (.reading e file) with holder := some p }, [])
      else some (o.close p, [.refused p e .storeLocked])
    | _ => none
  | .readMarker =>
    match o.procs p with
    | .reading e file =>
      match checkMarker e (o.fs.bytes file) with
      | .blank => some (o.set p (.writing e file 0), [])
      | .mine => some (o.set p (.held e file), [.acquired p e])
      | .refused err => some (o.close p, [.refused p e err])
    | _ => none
  | .write n =>
    match o.procs p with
    | .writing e file done =>
      if done + n ≤ (asBytes e.asStr).length then
        some ({ o.set p (.writing e file (done + n)) with
          fs := o.fs.append file (((asBytes e.asStr).drop done).take n) }, [])
      else none
    | _ => none
  | .syncAll =>
    match o.procs p with
    | .writing e file done =>
      if done = (asBytes e.asStr).length then
        some ({ o.set p (.held e file) with fs := o.fs.sync file }, [.acquired p e])
      else none
    | _ => none
  | .ioErr err =>
    match o.procs p with
    | .locking e _ | .reading e _ | .writing e _ _ => some (o.close p, [.refused p e (.io err)])
    | _ => none
  | .close =>
    match o.procs p with
    | .idle => none
    | _ => some (o.close p, [])

/-- The calls of several openers, one after another. -/
def steps : List (ℕ × OpenerAct) → Openers → Option (Openers × List OpenerEvent)
  | [], o => some (o, [])
  | (p, a) :: acts, o => do
    let (o₁, evs) ← o.step p a
    let (o₂, evs') ← steps acts o₁
    return (o₂, evs ++ evs')

end Openers

/-- The transitions of an opener. -/
inductive OpenerStep (o : Openers) (p : ℕ) : Openers → List OpenerEvent → Prop
  | openFile (e : StoreType) (hp : o.procs p = .idle) :
    OpenerStep o p { o.set p (.locking e (o.fs.handle .lock)) with fs := o.fs.create .lock } []
  | locked (e : StoreType) (file : Inode) (hp : o.procs p = .locking e file)
      (hh : o.holder = none) : OpenerStep o p { o.set p (.reading e file) with holder := some p } []
  | blank (e : StoreType) (file : Inode) (hp : o.procs p = .reading e file)
      (hc : checkMarker e (o.fs.bytes file) = .blank) :
    OpenerStep o p (o.set p (.writing e file 0)) []
  | mine (e : StoreType) (file : Inode) (hp : o.procs p = .reading e file)
      (hc : checkMarker e (o.fs.bytes file) = .mine) :
    OpenerStep o p (o.set p (.held e file)) [.acquired p e]
  | refused (e : StoreType) (file : Inode) (err : KvsError) (hp : o.procs p = .reading e file)
      (hc : checkMarker e (o.fs.bytes file) = .refused err) :
    OpenerStep o p (o.close p) [.refused p e err]
  | write (e : StoreType) (file : Inode) (done n : ℕ) (hp : o.procs p = .writing e file done)
      (hn : done + n ≤ (asBytes e.asStr).length) :
    OpenerStep o p { o.set p (.writing e file (done + n)) with
      fs := o.fs.append file (((asBytes e.asStr).drop done).take n) } []
  | synced (e : StoreType) (file : Inode)
      (hp : o.procs p = .writing e file (asBytes e.asStr).length) :
    OpenerStep o p { o.set p (.held e file) with fs := o.fs.sync file } [.acquired p e]
  /-- The lock is taken, a call fails, or the handle is closed. -/
  | closed (evs : List OpenerEvent)
      (hevs : ∀ ev ∈ evs, ∃ e err, ev = .refused p e err ∧ ∀ f r, err ≠ .engineMismatch f r) :
    OpenerStep o p (o.close p) evs

theorem openerStep_cases {o o' : Openers} {p : ℕ} {a : OpenerAct} {evs : List OpenerEvent}
    (h : o.step p a = some (o', evs)) : OpenerStep o p o' evs := by
  cases a with
  | openFile e =>
    simp only [Openers.step] at h
    split at h
    · cases h; exact .openFile e (by assumption)
    · cases h
  | tryLock =>
    simp only [Openers.step] at h
    split at h
    · rename_i e file hp
      split at h
      · cases h; exact .locked e file hp (by assumption)
      · cases h; exact .closed _ (by simp)
    · cases h
  | readMarker =>
    simp only [Openers.step] at h
    split at h
    · rename_i e file hp
      split at h
      · cases h; exact .blank e file hp (by assumption)
      · cases h; exact .mine e file hp (by assumption)
      · cases h; exact .refused e file _ hp (by assumption)
    · cases h
  | write n =>
    simp only [Openers.step] at h
    split at h
    · rename_i e file done hp
      split at h
      · cases h; exact .write e file done n hp (by assumption)
      · cases h
    · cases h
  | syncAll =>
    simp only [Openers.step] at h
    split at h
    · rename_i e file done hp
      split at h
      · rename_i hd
        cases h; exact .synced e file (hd ▸ hp)
      · cases h
    · cases h
  | ioErr err =>
    simp only [Openers.step] at h
    split at h
    iterate 3 cases h; exact .closed _ (by simp)
    cases h
  | close =>
    simp only [Openers.step] at h
    split at h
    · cases h
    · cases h; exact .closed _ (by simp)

/-- What any number of openers do from `o₀` on. The engine that holds the lock works on the other
files of the directory. -/
inductive OpenerRun (o₀ : Openers) : Openers → List OpenerEvent → Prop
  | start : OpenerRun o₀ o₀ []
  | step {o o' : Openers} {tr evs : List OpenerEvent} {p : ℕ} {a : OpenerAct}
      (h : OpenerRun o₀ o tr) (hs : o.step p a = some (o', evs)) : OpenerRun o₀ o' (tr ++ evs)
  | work {o : Openers} {tr : List OpenerEvent} {p : ℕ} {e : StoreType} {file : Inode}
      {fs : Fs FileName} (h : OpenerRun o₀ o tr) (hp : o.procs p = .held e file)
      (hl : fs.lookup .lock = o.fs.lookup .lock) (hb : fs.bytes file = o.fs.bytes file) :
      OpenerRun o₀ { o with fs } tr

theorem OpenerRun.of_steps {o₀ o o' : Openers} {tr evs : List OpenerEvent}
    {acts : List (ℕ × OpenerAct)} (h : OpenerRun o₀ o tr) (hs : Openers.steps acts o = some (o', evs)) :
    OpenerRun o₀ o' (tr ++ evs) := by
  induction acts generalizing o tr evs with
  | nil =>
    cases hs
    rwa [List.append_nil]
  | cons a acts ih =>
    obtain ⟨p, a⟩ := a
    simp only [Openers.steps, Option.bind_eq_bind, Option.bind_eq_some_iff, Option.pure_def,
      Option.some.injEq] at hs
    obtain ⟨⟨o₁, evs₁⟩, hs₁, ⟨o₂, evs₂⟩, hs₂, he⟩ := hs
    cases he
    rw [← List.append_assoc]
    exact ih (.step h hs₁) hs₂

/-- An opener that is alone, and whose calls do not fail, tells `evs` on the way to a state with `P`. -/
def Openers.Alone (fs : Fs FileName) (evs : List OpenerEvent) (P : Openers → Prop) : Prop :=
  ∃ (acts : List OpenerAct) (o : Openers),
    Openers.steps (acts.map (0, ·)) (.start fs) = some (o, evs) ∧ P o

/-- An opener that is alone returns what `acquire` returns, in the same directory, and may die in the
directories that a crash of `acquire` leaves. -/
theorem acquire_alone (e : StoreType) (fs : Fs FileName) :
    Triple (· = fs) (storeNames.acquire e)
      (fun _ s => Openers.Alone fs [.acquired 0 e] fun o =>
        o.fs = s ∧ o.procs 0 = .held e (fs.handle .lock))
      (fun fault s => ∃ err, fault = .error err ∧ Openers.Alone fs [.refused 0 e err] fun o =>
        o.fs = s ∧ o.procs 0 = .idle)
      (fun s => Openers.Alone fs [] fun o => o.fs = s) := by
  refine storeNames.acquire_rule ⟨[], _, rfl, rfl⟩ (fun hc => ⟨fun n => ?_, ?_⟩) (fun hc => ?_)
    fun err hc => ⟨err, rfl, ?_⟩
  · refine ⟨[.openFile e, .tryLock, .readMarker, .write (min n (asBytes e.asStr).length)], ?_⟩
    have htake := @List.take_eq_take_min _ (asBytes e.asStr) n
    simp [Openers.steps, Openers.step, Openers.start, Openers.set, hc, ← htake]
  · refine ⟨[.openFile e, .tryLock, .readMarker, .write (asBytes e.asStr).length, .syncAll], ?_⟩
    simp [Openers.steps, Openers.step, Openers.start, Openers.set, hc]
  · refine ⟨[.openFile e, .tryLock, .readMarker], ?_⟩
    simp [Openers.steps, Openers.step, Openers.start, Openers.set, hc]
  · refine ⟨[.openFile e, .tryLock, .readMarker], ?_⟩
    simp [Openers.steps, Openers.step, Openers.start, Openers.set, Openers.close, hc]

/-! ## Blank markers and torn ones -/

/-- The marker is there, and `acquire` takes it for none. -/
def Blank (b : Bytes) : Prop := ∃ text, String.fromUTF8? ⟨b.toArray⟩ = some text ∧ trim text = ""

section Marker

variable {e : StoreType} {b : Bytes} {text : String}

theorem dropWhile_of_trim (h : trim text = "") : text.toList.dropWhile isWhiteSpace = [] := by
  have hnil : (text.toList.dropWhile isWhiteSpace).reverse.dropWhile isWhiteSpace = [] := by
    have := congrArg String.toList h
    simpa [trim] using this
  by_contra hne
  have hhead := List.head_dropWhile_not isWhiteSpace hne
  have hall := List.dropWhile_eq_nil_iff.mp hnil _ (List.mem_reverse.mpr (List.head_mem hne))
  rw [hhead] at hall
  cases hall

/-- White space before a text is trimmed. -/
theorem trim_append (h : trim text = "") (s : String) : trim (text ++ s) = trim s := by
  unfold trim
  rw [String.toList_append, List.dropWhile_append, dropWhile_of_trim h]
  rfl

theorem checkMarker_eq_blank : checkMarker e b = .blank ↔ Blank b := by
  unfold checkMarker Blank
  split
  · rename_i h
    simp [h]
  · rename_i text h
    simp only [h, Option.some.injEq, exists_eq_left']
    split
    · simp_all
    · split <;> simp_all

theorem not_blank {v : Verdict} (h : checkMarker e b = v) (hv : v ≠ .blank) : ¬ Blank b :=
  fun hb => hv (h.symm.trans (checkMarker_eq_blank.mpr hb))

/-- What is written after a blank marker is all that counts. -/
theorem Blank.checkMarker_append (h : Blank b) (s : String) :
    checkMarker e (b ++ asBytes s) = checkMarker e (asBytes s) := by
  obtain ⟨text, htext, htrim⟩ := h
  unfold checkMarker
  rw [← asBytes_of_fromUTF8 htext, ← asBytes_append, fromUTF8_asBytes, fromUTF8_asBytes]
  simp only [trim_append htrim]

theorem Blank.checkMarker_stamped (h : Blank b) :
    checkMarker e (b ++ asBytes e.asStr) = .mine := by
  rw [h.checkMarker_append]
  cases e <;> decide

/-- Part of a marker is refused by both engines. -/
theorem Blank.checkMarker_torn (h : Blank b) {n : ℕ} (h0 : 0 < n) (hn : n < (asBytes e.asStr).length)
    (e' : StoreType) : ∃ found, checkMarker e' (b ++ (asBytes e.asStr).take n) =
      .refused (.engineMismatch found e'.asStr) := by
  have hpart : (asBytes e.asStr).take n = asBytes (String.ofList (e.asStr.toList.take n)) ∧
      checkMarker e' (asBytes (String.ofList (e.asStr.toList.take n))) =
        .refused (.engineMismatch (String.ofList (e.asStr.toList.take n)) e'.asStr) := by
    have hlen : n < 7 := hn.trans_le (by cases e <;> decide)
    interval_cases n <;> revert hn <;> cases e <;> cases e' <;> decide
  rw [hpart.1, h.checkMarker_append]
  exact ⟨_, hpart.2⟩

end Marker

/-! ## The lock -/

/-- The opener that holds the lock is the one past `try_lock`, all handles are of the lock file, and
an opener that writes a marker has found a blank one. -/
structure Openers.Inv (o : Openers) : Prop where
  locked : ∀ p, (o.procs p).locked = true ↔ o.holder = some p
  file : ∀ {p e i}, (o.procs p).request = some (e, i) → o.fs.lookup .lock = some i
  stamp : ∀ {p e i n}, o.procs p = .writing e i n →
    ∃ b, Blank b ∧ o.fs.bytes i = b ++ (asBytes e.asStr).take n

/-- The marker is not blank, and nobody is writing it. -/
structure Openers.Settled (o : Openers) (b : Bytes) : Prop where
  read : o.fs.read .lock = some b
  nonblank : ¬ Blank b
  quiet : ∀ p e i n, o.procs p ≠ .writing e i n

section Lock

variable {o o' o₀ : Openers} {p q : ℕ} {e : StoreType} {file : Inode} {b : Bytes} {x : Opener}
  {tr evs : List OpenerEvent}

theorem Openers.Inv.start (fs : Fs FileName) : (Openers.start fs).Inv where
  locked p := by simp [Openers.start, Opener.locked]
  file h := by cases h
  stamp h := by cases h

theorem Openers.Inv.unique (h : o.Inv) (hp : (o.procs p).locked = true)
    (hq : (o.procs q).locked = true) : p = q :=
  Option.some.inj (((h.locked p).mp hp).symm.trans ((h.locked q).mp hq))

/-- One opener moves on; `hs` is what it knows then of the marker. -/
theorem Openers.Inv.set (h : o.Inv) {fs : Fs FileName} {holder : Option ℕ}
    (hlock : ∀ q, (Function.update o.procs p x q).locked = true ↔ holder = some q)
    (hl : ∀ {i}, o.fs.lookup .lock = some i → fs.lookup .lock = some i)
    (hf : ∀ {e i}, x.request = some (e, i) → fs.lookup .lock = some i)
    (hb : ∀ {q e i n}, q ≠ p → o.procs q = .writing e i n → fs.bytes i = o.fs.bytes i)
    (hs : ∀ {e i n}, x = .writing e i n → ∃ b, Blank b ∧ fs.bytes i = b ++ (asBytes e.asStr).take n) :
    Openers.Inv ⟨fs, holder, Function.update o.procs p x⟩ where
  locked := hlock
  file {q e i} hq := by
    by_cases hqp : q = p
    · subst hqp
      simp only [Function.update_self] at hq
      exact hf hq
    · simp only [Function.update_of_ne hqp] at hq
      exact hl (h.file hq)
  stamp {q e i n} hq := by
    by_cases hqp : q = p
    · subst hqp
      simp only [Function.update_self] at hq
      exact hs hq
    · simp only [Function.update_of_ne hqp] at hq
      obtain ⟨b, hblank, hbytes⟩ := h.stamp hq
      exact ⟨b, hblank, (hb hqp hq).trans hbytes⟩

/-- The lock stays with the opener that moves on. -/
theorem Openers.Inv.locked_set (h : o.Inv) (hx : x.locked = (o.procs p).locked) (q : ℕ) :
    (Function.update o.procs p x q).locked = true ↔ o.holder = some q := by
  by_cases hqp : q = p
  · rw [hqp, Function.update_self, hx]
    exact h.locked p
  · rw [Function.update_of_ne hqp]
    exact h.locked q

theorem Openers.Inv.close (h : o.Inv) (p : ℕ) : (o.close p).Inv := by
  refine h.set (fun q => ?_) (fun hl => hl) nofun (fun _ _ => rfl) nofun
  by_cases hqp : q = p
  · subst hqp
    rw [Function.update_self]
    split <;> simp_all [Opener.locked]
  · rw [Function.update_of_ne hqp, h.locked q]
    split
    · simp_all [eq_comm]
    · rfl

theorem Openers.Inv.step (h : o.Inv) (hs : OpenerStep o p o' evs) : o'.Inv := by
  cases hs with
  | openFile e hp =>
    refine h.set (h.locked_set (by rw [hp]; rfl)) (fun hl => ?_) (fun hr => ?_) (fun hqp hq => ?_) nofun
    · rw [Fs.create_of_some hl]
      exact hl
    · cases hr
      exact Fs.lookup_create_self
    · exact Fs.bytes_create_of_lt (o.fs.dir_lt _ _ (h.file (by rw [hq]; rfl)))
  | locked e file hp hh =>
    refine h.set (fun q => ?_) (fun hl => hl) (fun hr => ?_) (fun _ _ => rfl) nofun
    · by_cases hqp : q = p
      · simp [hqp, Opener.locked]
      · rw [Function.update_of_ne hqp, h.locked q, hh]
        simp [Ne.symm hqp]
    · cases hr
      exact h.file (by rw [hp]; rfl)
  | blank e file hp hc =>
    refine h.set (h.locked_set (by rw [hp]; rfl)) (fun hl => hl) (fun hr => ?_) (fun _ _ => rfl)
      (fun hw => ?_)
    · cases hr
      exact h.file (by rw [hp]; rfl)
    · cases hw
      exact ⟨_, checkMarker_eq_blank.mp hc, (List.append_nil _).symm⟩
  | mine e file hp hc =>
    refine h.set (h.locked_set (by rw [hp]; rfl)) (fun hl => hl) (fun hr => ?_) (fun _ _ => rfl) nofun
    cases hr
    exact h.file (by rw [hp]; rfl)
  | write e file done n hp hn =>
    refine h.set (h.locked_set (by rw [hp]; rfl)) (fun hl => hl) (fun hr => ?_) (fun hqp hq => ?_)
      (fun hw => ?_)
    · cases hr
      exact h.file (by rw [hp]; rfl)
    · exact absurd (h.unique (by rw [hq]; rfl) (by rw [hp]; rfl)) hqp
    · cases hw
      obtain ⟨b, hblank, hbytes⟩ := h.stamp hp
      refine ⟨b, hblank, ?_⟩
      rw [Fs.bytes_append_self, hbytes, List.append_assoc, ← List.take_add]
  | synced e file hp =>
    refine h.set (h.locked_set (by rw [hp]; rfl)) (fun hl => hl) (fun hr => ?_) (fun _ _ => rfl) nofun
    cases hr
    exact h.file (by rw [hp]; rfl)
  | refused | closed => exact h.close p

/-! ## A settled marker -/

/-- The opener that holds the lock has looked at a marker that is not blank, or written one. -/
theorem Openers.Inv.settled (h : o.Inv) (hp : (o.procs p).locked = true)
    (hr : (o.procs p).request = some (e, file)) {fs : Fs FileName} {holder : Option ℕ}
    (hl : fs.lookup .lock = o.fs.lookup .lock) (hb : ¬ Blank (fs.bytes file))
    (hx : ∀ e i n, x ≠ .writing e i n) :
    Openers.Settled ⟨fs, holder, Function.update o.procs p x⟩ (fs.bytes file) where
  read := by rw [Fs.read, hl, h.file hr, Option.map_some]
  nonblank := hb
  quiet q e i n hq := by
    by_cases hqp : q = p
    · subst hqp
      simp only [Function.update_self] at hq
      exact hx _ _ _ hq
    · simp only [Function.update_of_ne hqp] at hq
      exact hqp (h.unique (by rw [hq]; rfl) hp)

theorem Openers.Settled.bytes (hset : o.Settled b) (hl : o.fs.lookup .lock = some file) :
    o.fs.bytes file = b := by
  have hr := hset.read
  rw [Fs.read, hl, Option.map_some] at hr
  exact Option.some.inj hr

/-- No call changes a settled marker. -/
theorem Openers.Settled.step (h : o.Inv) (hset : o.Settled b) (hs : OpenerStep o p o' evs) :
    o'.Settled b := by
  have hset' : ∀ {x : Opener} {fs : Fs FileName} {holder : Option ℕ}, (∀ e i n, x ≠ .writing e i n) →
      fs.read .lock = o.fs.read .lock →
      Openers.Settled ⟨fs, holder, Function.update o.procs p x⟩ b := by
    intro x fs holder hx hr
    refine ⟨hr.trans hset.read, hset.nonblank, fun q e i n hq => ?_⟩
    by_cases hqp : q = p
    · subst hqp
      simp only [Function.update_self] at hq
      exact hx _ _ _ hq
    · simp only [Function.update_of_ne hqp] at hq
      exact hset.quiet _ _ _ _ hq
  cases hs with
  | openFile e hp =>
    refine hset' (by simp) ?_
    have hr := hset.read
    cases hl : o.fs.lookup .lock with
    | none => rw [Fs.read, hl] at hr; cases hr
    | some i => rw [Fs.create_of_some hl]
  | blank e file hp hc =>
    rw [hset.bytes (h.file (by rw [hp]; rfl))] at hc
    exact absurd (checkMarker_eq_blank.mp hc) hset.nonblank
  | write e file done n hp hn => exact absurd hp (hset.quiet _ _ _ _)
  | synced e file hp => exact absurd hp (hset.quiet _ _ _ _)
  | locked | mine => exact hset' (by simp) rfl
  | refused | closed => exact hset' (by simp) rfl

theorem OpenerStep.procs_ne (hs : OpenerStep o p o' evs) (hq : q ≠ p) : o'.procs q = o.procs q := by
  cases hs <;> exact Function.update_of_ne hq ..

/-- What the marker says for the callers of `acquire` that have been told something about it. -/
def OpenerEvent.Holds (o : Openers) : OpenerEvent → Prop
  | .acquired _ e => ∃ b, o.Settled b ∧ checkMarker e b = .mine
  | .refused _ e (.engineMismatch f r) =>
    ∃ b, o.Settled b ∧ checkMarker e b = .refused (.engineMismatch f r)
  | .refused _ _ _ => True

theorem OpenerEvent.Holds.mono {ev : OpenerEvent} (h : ev.Holds o)
    (hset : ∀ b, o.Settled b → o'.Settled b) : ev.Holds o' := by
  unfold OpenerEvent.Holds at h ⊢
  split at h
  · exact h.imp fun b => And.imp_left (hset b)
  · exact h.imp fun b => And.imp_left (hset b)
  · exact h

/-- What a step tells a caller is so. -/
theorem Openers.Inv.tells (h : o.Inv) (hs : OpenerStep o p o' evs) : ∀ ev ∈ evs, ev.Holds o' := by
  cases hs with
  | openFile | locked | blank | write => simp
  | mine e file hp hc =>
    have hnot := not_blank hc (by simp)
    simp only [List.mem_singleton, forall_eq]
    exact ⟨_, h.settled (by rw [hp]; rfl) (by rw [hp]; rfl) rfl hnot (by simp), hc⟩
  | refused e file err hp hc =>
    have hnot := not_blank hc (by simp)
    simp only [List.mem_singleton, forall_eq]
    unfold OpenerEvent.Holds
    split
    · rename_i he; cases he
    · rename_i he
      cases he
      exact ⟨_, h.settled (by rw [hp]; rfl) (by rw [hp]; rfl) rfl hnot (by simp), hc⟩
    · trivial
  | synced e file hp =>
    obtain ⟨b, hblank, hbytes⟩ := h.stamp hp
    rw [List.take_length] at hbytes
    have hc : checkMarker e (o.fs.bytes file) = .mine := by
      rw [hbytes]
      exact hblank.checkMarker_stamped
    have hnot := not_blank hc (by simp)
    simp only [List.mem_singleton, forall_eq]
    exact ⟨_, h.settled (by rw [hp]; rfl) (by rw [hp]; rfl) rfl hnot (by simp), hc⟩
  | closed evs hevs =>
    intro ev hev
    obtain ⟨e, err, rfl, herr⟩ := hevs ev hev
    unfold OpenerEvent.Holds
    split
    · rename_i he; cases he
    · rename_i he
      cases he
      exact absurd rfl (herr _ _)
    · trivial

/-- Every opener that has the lock file has its own marker there. -/
def Openers.Granted (o : Openers) : Prop :=
  ∀ p e i, o.procs p = .held e i → ∃ b, o.Settled b ∧ checkMarker e b = .mine

theorem Openers.Granted.step (hg : o.Granted) (h : o.Inv) (hs : OpenerStep o p o' evs) :
    o'.Granted := by
  intro q e i hq
  by_cases hqp : q = p
  · subst hqp
    -- it has just been told so
    have hmem : .acquired q e ∈ evs := by
      cases hs <;> simp_all [Openers.set, Openers.close]
    exact h.tells hs _ hmem
  · rw [hs.procs_ne hqp] at hq
    obtain ⟨b, hb, hc⟩ := hg q e i hq
    exact ⟨b, hb.step h hs, hc⟩

/-- Nobody else changes the directory while an opener has the lock. -/
theorem Openers.Inv.fs_other (h : o.Inv) (hp : (o.procs p).locked = true) (hqp : q ≠ p)
    (hs : OpenerStep o q o' evs) : o'.fs = o.fs := by
  have hlocked : (o.procs q).locked = true → o'.fs = o.fs := fun hq => absurd (h.unique hq hp) hqp
  cases hs with
  | openFile e hq =>
    obtain ⟨⟨e', i⟩, hr⟩ : ∃ r, (o.procs p).request = some r := by
      cases hx : o.procs p with
      | idle | locking => rw [hx] at hp; cases hp
      | _ => exact ⟨_, rfl⟩
    exact Fs.create_of_some (h.file hr)
  | write e file done n hq hn => exact hlocked (by rw [hq]; rfl)
  | synced e file hq => exact hlocked (by rw [hq]; rfl)
  | _ => rfl

theorem Openers.Inv.work (h : o.Inv) {fs : Fs FileName} (hp : o.procs p = .held e file)
    (hl : fs.lookup .lock = o.fs.lookup .lock) :
    Openers.Inv { o with fs } where
  locked := h.locked
  file hr := hl.trans (h.file hr)
  stamp {q e i n} hq := by
    -- the holder of the lock is not writing
    have hqp : q = p := h.unique (by rw [hq]; rfl) (by rw [hp]; rfl)
    subst hqp
    rw [hp] at hq
    cases hq

/-- What holds along a run: the invariant, the marker, and what the callers have been told. -/
theorem OpenerRun.inv (h₀ : o₀.Inv) (h : OpenerRun o₀ o tr) :
    o.Inv ∧ (∀ b, o₀.Settled b → o.Settled b) ∧ ∀ ev ∈ tr, ev.Holds o := by
  induction h with
  | start => exact ⟨h₀, fun _ hb => hb, by simp⟩
  | step _ hs ih =>
    obtain ⟨hinv, hset, htr⟩ := ih
    have hs := openerStep_cases hs
    have hstep := fun b (hb : Openers.Settled _ b) => hb.step hinv hs
    refine ⟨hinv.step hs, fun b hb => hstep b (hset b hb), fun ev hev => ?_⟩
    rcases List.mem_append.mp hev with hev | hev
    · exact (htr ev hev).mono hstep
    · exact hinv.tells hs ev hev
  | @work o tr p e file fs _ hp hl hb ih =>
    obtain ⟨hinv, hset, htr⟩ := ih
    have hstep : ∀ b, o.Settled b → Openers.Settled { o with fs } b := by
      intro b hset
      refine ⟨?_, hset.nonblank, hset.quiet⟩
      have hf : o.fs.lookup .lock = some file := hinv.file (by rw [hp]; rfl)
      rw [Fs.read, hl, hf, Option.map_some, hb, hset.bytes hf]
    exact ⟨hinv.work hp hl, fun b hb => hstep b (hset b hb), fun ev hev => (htr ev hev).mono hstep⟩

theorem Openers.Settled.eq {b' : Bytes} (h : o.Settled b) (h' : o.Settled b') : b = b' :=
  Option.some.inj (h.read.symm.trans h'.read)

theorem checkMarker_mine {e e' : StoreType} (h : checkMarker e b = .mine)
    (h' : checkMarker e' b = .mine) : e = e' := by
  have hname : ∀ {e : StoreType}, checkMarker e b = .mine →
      ∃ text, String.fromUTF8? ⟨b.toArray⟩ = some text ∧ trim text = e.asStr := by
    intro e h
    unfold checkMarker at h
    split at h
    · cases h
    · rename_i text htext
      refine ⟨text, htext, ?_⟩
      split at h
      · cases h
      · split at h
        · cases h
        · rename_i hne
          exact not_not.mp hne
  obtain ⟨text, htext, hn⟩ := hname h
  obtain ⟨text', htext', hn'⟩ := hname h'
  obtain rfl := Option.some.inj (htext.symm.trans htext')
  rw [hn] at hn'
  revert hn'
  cases e <;> cases e' <;> decide

/-- Over all openers of a directory, whichever calls fail and whoever dies, at most one is past
`try_lock` at a time, all that ever succeed ask for one engine, and an engine that is once refused
never succeeds. -/
theorem one_engine {fs₀ : Fs FileName} (h : OpenerRun (.start fs₀) o tr) :
    (∀ p q, (o.procs p).locked = true → (o.procs q).locked = true → p = q) ∧
    (∀ p q e e', .acquired p e ∈ tr → .acquired q e' ∈ tr → e = e') ∧
    ∀ p q e f r, .refused p e (.engineMismatch f r) ∈ tr → .acquired q e ∉ tr := by
  obtain ⟨hinv, -, htr⟩ := h.inv (.start fs₀)
  refine ⟨fun p q => hinv.unique, fun p q e e' hp hq => ?_, fun p q e f r hp hq => ?_⟩
  · obtain ⟨b, hb, hc⟩ := htr _ hp
    obtain ⟨b', hb', hc'⟩ := htr _ hq
    rw [hb'.eq hb] at hc'
    exact checkMarker_mine hc hc'
  · obtain ⟨b, hb, hc⟩ := htr _ hp
    obtain ⟨b', hb', hc'⟩ := htr _ hq
    rw [hb'.eq hb, hc] at hc'
    cases hc'

/-- Two openers of different engines race for a new directory, and the loser comes back. -/
theorem one_engine_raced : ∃ o,
    Openers.steps [(0, .openFile .bitcask), (1, .openFile .sled), (0, .tryLock), (1, .tryLock),
      (0, .readMarker), (0, .write 3), (0, .write 4), (0, .syncAll), (0, .close),
      (1, .openFile .sled), (1, .tryLock), (1, .readMarker)] (.start Fs.empty) =
      some (o, [.refused 1 .sled .storeLocked, .acquired 0 .bitcask,
        .refused 1 .sled (.engineMismatch "bitcask" "sled")]) ∧
    (∀ p q, (o.procs p).locked = true → (o.procs q).locked = true → p = q) ∧
    ∀ q, .acquired q .sled ∉ [OpenerEvent.refused 1 .sled .storeLocked, .acquired 0 .bitcask,
      .refused 1 .sled (.engineMismatch "bitcask" "sled")] := by
  have hrun : (Openers.steps [(0, .openFile .bitcask), (1, .openFile .sled), (0, .tryLock),
      (1, .tryLock), (0, .readMarker), (0, .write 3), (0, .write 4), (0, .syncAll), (0, .close),
      (1, .openFile .sled), (1, .tryLock), (1, .readMarker)] (.start Fs.empty)).any fun r =>
      r.2 = [.refused 1 .sled .storeLocked, .acquired 0 .bitcask,
        .refused 1 .sled (.engineMismatch "bitcask" "sled")] := by decide +kernel
  obtain ⟨⟨o, evs⟩, hs, he⟩ := (Option.any_eq_true ..).mp hrun
  obtain rfl := of_decide_eq_true he
  have h := one_engine (OpenerRun.of_steps .start hs)
  exact ⟨o, hs, h.1, fun q => h.2.2 1 q .sled "bitcask" "sled" (by simp)⟩

/-- An opener that is gone inside `write_all`, after some but not all bytes of the marker, locks both
engines out: no later opener ever succeeds. -/
theorem torn_marker_locks_out {fs₀ : Fs FileName} {o₁ : Openers} {done : ℕ}
    (h : OpenerRun (.start fs₀) o tr) (hp : o.procs p = .writing e file done) (h0 : 0 < done)
    (hdone : done < (asBytes e.asStr).length) (h₁ : OpenerRun (o.close p) o₁ evs) :
    ∀ q e', .acquired q e' ∉ evs := by
  obtain ⟨hinv, -, -⟩ := h.inv (.start fs₀)
  obtain ⟨b, hblank, hbytes⟩ := hinv.stamp hp
  have htorn : ∀ e', ∃ found, checkMarker e' (o.fs.bytes file) =
      .refused (.engineMismatch found e'.asStr) := by
    intro e'
    rw [hbytes]
    exact hblank.checkMarker_torn h0 hdone e'
  have hnot : ¬ Blank (o.fs.bytes file) := not_blank (htorn e).choose_spec (by simp)
  have hset : (o.close p).Settled (o.fs.bytes file) :=
    hinv.settled (by rw [hp]; rfl) (by rw [hp]; rfl) rfl hnot (by simp)
  obtain ⟨-, hkeep, htr⟩ := h₁.inv (hinv.close p)
  intro q e' hq
  obtain ⟨b', hb', hc⟩ := htr _ hq
  obtain ⟨found, hc'⟩ := htorn e'
  rw [hb'.eq (hkeep _ hset), hc'] at hc
  cases hc

/-- Three bytes of the marker are written. The next opener is of the same engine. -/
theorem torn_marker_locks_out_own_engine : ∃ o o₁,
    Openers.steps [(0, .openFile .bitcask), (0, .tryLock), (0, .readMarker), (0, .write 3)]
      (.start Fs.empty) = some (o, []) ∧
    Openers.steps [(1, .openFile .bitcask), (1, .tryLock), (1, .readMarker)] (o.close 0) =
      some (o₁, [.refused 1 .bitcask (.engineMismatch "bit" "bitcask")]) ∧
    ∀ o₂ evs, OpenerRun (o.close 0) o₂ evs → ∀ q e, .acquired q e ∉ evs := by
  have hrun : (Openers.steps [(0, .openFile .bitcask), (0, .tryLock), (0, .readMarker), (0, .write 3)]
      (.start Fs.empty)).any fun r => (r.2 = [] ∧ r.1.procs 0 = .writing .bitcask 0 3) ∧
        (Openers.steps [(1, .openFile .bitcask), (1, .tryLock), (1, .readMarker)] (r.1.close 0)).any
          fun r₁ => r₁.2 = [.refused 1 .bitcask (.engineMismatch "bit" "bitcask")] := by decide +kernel
  obtain ⟨⟨o, evs⟩, hs, hc⟩ := (Option.any_eq_true ..).mp hrun
  obtain ⟨⟨rfl, hp⟩, hc⟩ := of_decide_eq_true hc
  obtain ⟨⟨o₁, evs₁⟩, hs₁, he⟩ := (Option.any_eq_true ..).mp hc
  obtain rfl := of_decide_eq_true he
  exact ⟨o, o₁, hs, hs₁, fun o₂ evs h₂ =>
    torn_marker_locks_out (OpenerRun.of_steps .start hs) hp (by decide) (by decide) h₂⟩

end Lock

end Bitcask
