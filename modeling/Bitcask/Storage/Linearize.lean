import Bitcask.Lib.Linearizable
import Bitcask.Storage.Reads

/-!
# Linearizable calls

The calls on a store behave like calls on a plain map. A `get` takes effect at its lookup, a `set` at
its index update, a `remove` that does not find its key when it looks for it, and any other `remove`
at its index update.

`remove` looks for its key before it has the writer lock, so the key may be gone when the index is
updated. `calls_linearizable` is about the runs in which it is not; two calls that remove a key at
the same time may both succeed (`two_removes_succeed`).
-/

namespace Bitcask

open LittleEndian FileSystem SegmentedLog Linearizable

/-- One call on a plain map. -/
def applyCall (m : String → Option String) : ClientCall → (String → Option String) × Answer
  | .get key => (m, .got (.ok (m key)))
  | .append (.set key value) => (Function.update m key (some value), .done (.ok ()))
  | .append (.remove key) =>
    match m key with
    | none => (m, .done (.error .keyNotFound))
    | some _ => (Function.update m key none, .done (.ok ()))

/-- What a client sees of an event. -/
def ClientEvent.visible : ClientEvent → Option (Event ℕ ClientCall Answer)
  | .invoked t call => some (.inv t call)
  | .returned t a => some (.ret t a)
  | _ => none

/-- The invocations and responses. -/
def history (tr : List ClientEvent) : List (Event ℕ ClientCall Answer) :=
  tr.filterMap ClientEvent.visible

/-- The call is about to take the writer lock. -/
def Progress.isWaiting : Progress → Bool
  | .waiting _ => true
  | _ => false

/-- No filesystem call fails, no call meets a poisoned writer lock, and at the index update of a
`remove` its key is in the index. -/
def Move.Orderly (crc : Bytes → UInt32) (c : Clients) : Move → Prop
  | .invoke _ _ => True
  | .run t _ => (c.calls t).isWaiting = true → c.store.lock ≠ .poisoned
  | .store a => a.Nominal ∧ ∀ cmd ∈ published crc c.store a,
      cmd.IsSet ∨ c.store.index.get cmd.getKey ≠ none

instance decidableOrderly (crc : Bytes → UInt32) (c : Clients) : DecidablePred (Move.Orderly crc c)
  | .invoke _ _ => .isTrue trivial
  | .run t _ => inferInstanceAs (Decidable ((c.calls t).isWaiting = true → c.store.lock ≠ .poisoned))
  | .store a => inferInstanceAs (Decidable (a.Nominal ∧ ∀ cmd ∈ published crc c.store a,
      cmd.IsSet ∨ c.store.index.get cmd.getKey ≠ none))

/-! ## The plain map and the log -/

section Map

variable {m : String → Option String} {ops : List Command}

/-- The log gives every key of the map its value. -/
def MapOf (ops : List Command) (m : String → Option String) : Prop :=
  ∀ key, (m key).map asBytes = valueOf (asBytes key) ops

theorem MapOf.append (h : MapOf ops m) {c : Command} {key : String} {v : Option String}
    (hk : c.getKey = asBytes key) (hv : c.getValue = v.map asBytes) :
    MapOf (ops ++ [c]) (Function.update m key v) := by
  intro key'
  rw [← plainMap_eq, plainMap_append, hk, hv]
  by_cases he : key' = key
  · subst he
    rw [Function.update_self, Function.update_self]
  · rw [Function.update_of_ne he, Function.update_of_ne fun hb => he (asBytes_injective hb),
      plainMap_eq]
    exact h key'

end Map

/-! ## The order of the calls -/

/-- A call that has not taken effect. -/
def Pending (es : List (Entry ℕ ClientCall Answer)) (tr : List ClientEvent) (t : ℕ)
    (call : ClientCall) : Prop :=
  .invoked t call ∈ tr ∧ ∀ e ∈ es, e.call ≠ t

/-- Whether a call has taken effect. `writing` says that the lock holder has not updated the index
yet. -/
def Explained (ops₀ : List Command) (writing : Bool) (es : List (Entry ℕ ClientCall Answer))
    (tr : List ClientEvent) (t : ℕ) : Progress → Prop
  | .unborn => ∀ e ∈ es, e.call ≠ t
  | .lookup key => Pending es tr t (.get key)
  | .load key _ | .pread key _ _ =>
    ∃ v, ReadAt ops₀ tr t key v ∧ ⟨t, .get key, .got (.ok v)⟩ ∈ es
  | .check key => Pending es tr t (.append (.remove key))
  | .waiting call => Pending es tr t (.append call)
  | .appending call =>
    match writing with
    | true => Pending es tr t (.append call)
    | false => ⟨t, .append call, .done (.ok ())⟩ ∈ es
  | .returned => True

/-- The order `es` explains what was seen of the calls. -/
structure Explains (ops₀ : List Command) (m₀ : String → Option String) (c : Clients)
    (tr : List ClientEvent) (es : List (Entry ℕ ClientCall Answer)) : Prop where
  lin : Linearization applyCall m₀ (history tr) es
  state : MapOf (ops₀ ++ updates tr) (after applyCall m₀ es)
  calls : ∀ t, Explained ops₀ c.store.lock.isWriting es tr t (c.calls t)

section Explained

variable {ops₀ : List Command} {w w' : Bool} {es : List (Entry ℕ ClientCall Answer)}
  {tr evs : List ClientEvent} {t : ℕ} {p : Progress} {key : String} {call : ClientCall}

theorem history_append (tr evs : List ClientEvent) :
    history (tr ++ evs) = history tr ++ history evs := List.filterMap_append

theorem mem_history (h : .invoked t call ∈ tr) : .inv t call ∈ history tr :=
  List.mem_filterMap.mpr ⟨_, h, rfl⟩

/-- A `get` looks its key up once, so it finds one value. -/
theorem ReadAt.unique {v v' : Option String} (h : ReadAt ops₀ tr t key v)
    (h' : ReadAt ops₀ tr t key v') : v = v' := by
  obtain ⟨pre, post, rfl, -, hno, hv⟩ := h
  obtain ⟨pre', post', heq, -, -, hv'⟩ := h'
  have hpre : pre = pre' := by
    rcases List.append_eq_append_iff.mp heq with ⟨l, rfl, hl⟩ | ⟨l, rfl, hl⟩
    · cases l with
      | nil => rw [List.append_nil]
      | cons x l =>
        rw [List.cons_append] at hl
        exact absurd (by rw [(List.cons.inj hl).2]; simp) (hno key).2
    · cases l with
      | nil => rw [List.append_nil]
      | cons x l =>
        rw [List.cons_append] at hl
        obtain ⟨rfl, -⟩ := List.cons.inj hl
        exact absurd (by simp) (hno key).1
  subst hpre
  exact Option.map_injective asBytes_injective (hv.trans hv'.symm)

theorem Pending.append (h : Pending es tr t call) (evs : List ClientEvent) :
    Pending es (tr ++ evs) t call :=
  ⟨List.mem_append_left _ h.1, h.2⟩

theorem Pending.commit (h : Pending es tr t call) {e : Entry ℕ ClientCall Answer} (he : e.call ≠ t) :
    Pending (es ++ [e]) tr t call := by
  refine ⟨h.1, fun e' he' => ?_⟩
  rcases List.mem_append.mp he' with he' | he'
  · exact h.2 e' he'
  · rw [List.mem_singleton.mp he']
    exact he

/-- The events of other calls. -/
theorem Explained.append (h : Explained ops₀ w es tr t p) (hev : ∀ ev ∈ evs, ev.call ≠ t) :
    Explained ops₀ w es (tr ++ evs) t p := by
  have hno : ∀ k, ClientEvent.looked t k ∉ evs := fun k hk => hev _ hk rfl
  cases p with
  | unborn => exact h
  | lookup | check | waiting => exact Pending.append h evs
  | load | pread =>
    obtain ⟨v, hread, he⟩ := h
    exact ⟨v, hread.append hno, he⟩
  | appending call =>
    cases w with
    | true => exact Pending.append h evs
    | false => exact h
  | returned => trivial

/-- Another call takes effect. -/
theorem Explained.commit (h : Explained ops₀ w es tr t p) {e : Entry ℕ ClientCall Answer}
    (he : e.call ≠ t) : Explained ops₀ w (es ++ [e]) tr t p := by
  cases p with
  | unborn =>
    intro e' he'
    rcases List.mem_append.mp he' with he' | he'
    · exact h e' he'
    · rw [List.mem_singleton.mp he']
      exact he
  | lookup | check | waiting => exact Pending.commit h he
  | load | pread =>
    obtain ⟨v, hread, hmem⟩ := h
    exact ⟨v, hread, List.mem_append_left _ hmem⟩
  | appending call =>
    cases w with
    | true => exact Pending.commit h he
    | false => exact List.mem_append_left _ h
  | returned => trivial

/-- What the lock holder does matters to the call that appends only. -/
theorem Explained.lock (h : Explained ops₀ w es tr t p) (hp : ∀ call, p ≠ .appending call) :
    Explained ops₀ w' es tr t p := by
  cases p with
  | appending call => exact absurd rfl (hp call)
  | _ => exact h

end Explained

/-! ## What the lock holder does -/

section Holder

variable {crc : Bytes → UInt32} {cfg : Config} {recs : Inode → List Command} {s s' : Sys} {a : Act}

/-- Until its index update, an append is writing its record. -/
theorem Step.isWriting_eq (hs : Step crc cfg s a s') (hb : ∀ call ts, a ≠ .begin call ts)
    (hp : published crc s a = []) (hf : s'.lock.inFlight ≠ []) :
    s'.lock.isWriting = s.lock.isWriting := by
  cases hs with
  | writer hw =>
    cases hw with
    | begin call ts hl => exact absurd rfl (hb call ts)
    | publish c now hl =>
      unfold published at hp
      simp [hl] at hp
    | rotateReader next now caller i hl hi =>
      exfalso
      cases caller with
      | append c => exact hf rfl
      | compaction =>
        unfold Sys.endRotate at hf
        split at hf <;> exact hf rfl
    | rotateMissing next now caller hl hi | failRotate st next caller e hl =>
      exfalso
      cases caller <;> exact hf rfl
    | policyPanic | notFull | failWrite | failPolicy => exact absurd rfl hf
    | write c done n hl | policySkip c now hl | policySync c now last hl | full c now hl
    | rotateSync next now caller hl | rotateCreate next now caller hl
    | rotateClock next now caller hl => rw [hl]; rfl
  | merge hm =>
    rcases hm.lock_eq with h | ⟨-, h⟩
    · rw [h]
    · rw [h] at hf; exact absurd rfl hf
  | startPanic | start => exact absurd rfl hf
  | startNot | spill | mergeErr | outputErr => rfl

/-- An append that ends without an error has updated the index. -/
theorem Step.finish_isWriting (hs : Step crc cfg s a s') (hn : a.Nominal) (hl : s.lock.inFlight ≠ [])
    (hf : s'.lock.inFlight = []) : s.lock.isWriting = false := by
  cases hlock : s.lock with
  | writing c done =>
    exfalso
    cases hs with
    | writer hw =>
      cases hw with
      | begin call ts h => rw [h] at hlock; cases hlock
      | write c' done' n h => cases hf
      | publish c' now h => cases hf
      | failWrite | failPolicy | failRotate => exact hn
      | policySkip c now h | policySync c now last h | policyPanic c now h | notFull c now h
      | full c now h | rotateSync next now caller h | rotateCreate next now caller h
      | rotateClock next now caller h | rotateReader next now caller i h
      | rotateMissing next now caller h => rw [h] at hlock; cases hlock
    | merge hm =>
      rcases hm.lock_eq with h | ⟨h, -⟩
      · rw [h] at hf; exact hl hf
      · rw [h] at hlock; cases hlock
    | startPanic last hm h | start last hm h => rw [h] at hlock; cases hlock
    | startNot | spill | mergeErr | outputErr => exact hl hf
  | _ => rfl

/-- The file that `rotate_to` has created is there. -/
theorem Rep.outcome_ok (h : Rep crc cfg recs s) (hn : a.Nominal) : s.outcome a = .ok () := by
  cases a with
  | writerErr | mergeErr => exact hn.elim
  | writer now =>
    unfold Sys.outcome
    cases hl : s.lock with
    | rotateTo st next caller =>
      cases st with
      | reader =>
        have hlr := h.lock
        rw [hl] at hlr
        have hdir := h.core.cur_dir
        rw [← hlr.2.2] at hdir
        simp only [hdir]
      | _ => rfl
    | _ => rfl
  | _ => rfl

end Holder

/-! ## The order along a run -/

section Order

variable {crc : Bytes → UInt32} {cfg : Config} {ops₀ : List Command} {m₀ : String → Option String}
  {c c' : Clients} {tr evs : List ClientEvent} {es es' : List (Entry ℕ ClientCall Answer)} {t : ℕ}
  {m : Move}

/-- A move of the call `t`, which may take effect at it. -/
theorem Explains.move (h : Explains ops₀ m₀ c tr es) (t : ℕ)
    (hlin : Linearization applyCall m₀ (history (tr ++ evs)) es')
    (hstate : MapOf (ops₀ ++ updates (tr ++ evs)) (after applyCall m₀ es'))
    (hes : es' = es ∨ ∃ e, es' = es ++ [e] ∧ e.call = t) (hcall : ∀ ev ∈ evs, ev.call = t)
    (hothers : ∀ t', t' ≠ t → c'.calls t' = c.calls t')
    (hlock : c'.store.lock.isWriting = c.store.lock.isWriting ∨
      ∀ t' call, t' ≠ t → c.calls t' ≠ .appending call)
    (ht : Explained ops₀ c'.store.lock.isWriting es' (tr ++ evs) t (c'.calls t)) :
    Explains ops₀ m₀ c' (tr ++ evs) es' where
  lin := hlin
  state := hstate
  calls t' := by
    by_cases he : t' = t
    · rw [he]
      exact ht
    · have hold : Explained ops₀ c'.store.lock.isWriting es (tr ++ evs) t' (c.calls t') := by
        have hold := (h.calls t').append fun ev hev => (hcall ev hev).trans_ne (Ne.symm he)
        rcases hlock with hl | hl
        · rw [hl]
          exact hold
        · exact hold.lock fun call => hl t' call he
      rw [hothers t' he]
      rcases hes with rfl | ⟨e, rfl, hc⟩
      · exact hold
      · exact hold.commit (hc.trans_ne (Ne.symm he))

/-- A section of a call that leaves the store alone. -/
theorem Explains.advance (h : Explains ops₀ m₀ c tr es) {p : Progress} (hupd : updates evs = [])
    (hlin : Linearization applyCall m₀ (history (tr ++ evs)) es')
    (hafter : after applyCall m₀ es' = after applyCall m₀ es)
    (hes : es' = es ∨ ∃ e, es' = es ++ [e] ∧ e.call = t) (hcall : ∀ ev ∈ evs, ev.call = t)
    (ht : Explained ops₀ c.store.lock.isWriting es' (tr ++ evs) t p) :
    Explains ops₀ m₀ (c.advance t p) (tr ++ evs) es' := by
  refine h.move t hlin ?_ hes hcall (fun t' he => c.calls_advance_ne he p) (Or.inl rfl) ?_
  · rw [updates_append, hupd, List.append_nil, hafter]
    exact h.state
  · rw [c.calls_advance_self]
    exact ht

/-- A pending call takes effect. -/
theorem Explains.commits (h : Explains ops₀ m₀ c tr es) {call : ClientCall}
    (hp : Pending es tr t call) : Linearization applyCall m₀ (history tr)
      (es ++ [⟨t, call, (applyCall (after applyCall m₀ es) call).2⟩]) :=
  h.lin.commit (mem_history hp.1) hp.2

/-- A call that has taken effect is answered. -/
theorem returns (h : Linearization applyCall m₀ (history tr) es) {call : ClientCall} {r : Answer}
    (he : ⟨t, call, r⟩ ∈ es) (hev : history evs = [.ret t r]) :
    Linearization applyCall m₀ (history (tr ++ evs)) es := by
  rw [history_append, hev]
  exact h.ret he

/-- The index has the keys of the map. -/
theorem Explains.absent_iff (h : Explains ops₀ m₀ c tr es) (hinv : c.Inv crc cfg ops₀ tr)
    {key : String} :
    c.store.index.get (asBytes key) = none ↔ after applyCall m₀ es key = none := by
  obtain ⟨recs, log, a, hl, -⟩ := hinv.link
  rw [hl.represents.get_eq_none_iff, ← valueOf, ← h.state key, Option.map_eq_none_iff]

/-- A call that does not change the map takes effect, and may be answered at once. -/
theorem Explains.observe (h : Explains ops₀ m₀ c tr es) {call : ClientCall} {r : Answer}
    {p : Progress} (hp : Pending es tr t call)
    (happly : applyCall (after applyCall m₀ es) call = (after applyCall m₀ es, r))
    (hupd : updates evs = []) (hcall : ∀ ev ∈ evs, ev.call = t)
    (hev : history evs = [] ∨ history evs = [.ret t r])
    (ht : Explained ops₀ c.store.lock.isWriting (es ++ [⟨t, call, r⟩]) (tr ++ evs) t p) :
    Explains ops₀ m₀ (c.advance t p) (tr ++ evs) (es ++ [⟨t, call, r⟩]) := by
  have hlin := h.commits hp
  rw [happly] at hlin
  refine h.advance hupd ?_ ?_ (Or.inr ⟨_, rfl, rfl⟩) hcall ht
  · rcases hev with hev | hev
    · rw [history_append, hev, List.append_nil]
      exact hlin
    · exact returns hlin (List.mem_append_right es (List.mem_singleton_self _)) hev
  · rw [after_append, happly]

/-- A section of a call that nobody sees. -/
theorem Explains.quiet (h : Explains ops₀ m₀ c tr es) {p : Progress}
    (ht : Explained ops₀ c.store.lock.isWriting es tr t p) :
    Explains ops₀ m₀ (c.advance t p) (tr ++ []) es := by
  refine h.advance rfl ?_ rfl (Or.inl rfl) (by simp) ?_
  · rw [List.append_nil]
    exact h.lin
  · rw [List.append_nil]
    exact ht

/-- The index update of an append. -/
theorem Explains.update (h : Explains ops₀ m₀ c tr es) (hinv : c.Inv crc cfg ops₀ tr)
    {call : Call} {ts : UInt64} (hp : Pending es tr t (.append call))
    (hpres : (call.command ts).IsSet ∨ c.store.index.get (call.command ts).getKey ≠ none) :
    Linearization applyCall m₀ (history tr) (es ++ [⟨t, .append call, .done (.ok ())⟩]) ∧
      MapOf (ops₀ ++ updates tr ++ [call.command ts])
        (after applyCall m₀ (es ++ [⟨t, .append call, .done (.ok ())⟩])) := by
  have hlin := h.commits hp
  cases call with
  | set key value =>
    refine ⟨hlin, ?_⟩
    rw [after_append]
    exact h.state.append rfl rfl
  | remove key =>
    have hne : after applyCall m₀ es key ≠ none := fun he =>
      hpres.elim (fun hset => hset) fun hk => hk ((h.absent_iff hinv).mpr he)
    obtain ⟨v, hv⟩ := Option.ne_none_iff_exists'.mp hne
    have happly : applyCall (after applyCall m₀ es) (.append (.remove key)) =
        (Function.update (after applyCall m₀ es) key none, .done (.ok ())) := by
      simp only [applyCall, hv]
    rw [happly] at hlin
    refine ⟨hlin, ?_⟩
    rw [after_append, happly]
    exact h.state.append rfl rfl

/-- What one section of a call preserves. -/
theorem Explains.run (h : Explains ops₀ m₀ c tr es) (hinv : c.Inv crc cfg ops₀ tr) {ts : UInt64}
    (ho : (Move.run t ts).Orderly crc c) (hs : ClientStep crc cfg c (.run t ts) c' evs) :
    ∃ es', Explains ops₀ m₀ c' (tr ++ evs) es' := by
  have hx := h.calls t
  have hget := hinv.gets t
  cases hs with
  | missing _ _ key hp hi =>
    rw [hp] at hx
    have happly : applyCall (after applyCall m₀ es) (.get key) =
        (after applyCall m₀ es, .got (.ok none)) := by
      rw [applyCall, (h.absent_iff hinv).mp hi]
    exact ⟨_, h.observe hx happly rfl (by simp [ClientEvent.call]) (Or.inr rfl) trivial⟩
  | found _ _ key e hp hi =>
    rw [hp] at hx hget
    obtain ⟨recs, log, a, hl, -⟩ := hinv.link
    obtain ⟨i, v, -, -, hv⟩ := hl.found hi
    have hval : after applyCall m₀ es key = some v :=
      Option.map_injective asBytes_injective ((h.state key).trans hv.symm)
    have happly : applyCall (after applyCall m₀ es) (.get key) =
        (after applyCall m₀ es, .got (.ok (some v))) := by rw [applyCall, hval]
    exact ⟨_, h.observe hx happly rfl (by simp [ClientEvent.call]) (Or.inl rfl)
      ⟨some v, .looked hget hv, List.mem_append_right es (List.mem_singleton_self _)⟩⟩
  | retry _ _ key e hp hr => exact absurd hr (hinv.reader_ne_none hp)
  | load _ _ key e i hp hr =>
    rw [hp] at hx
    exact ⟨es, h.quiet hx⟩
  | pread _ _ key e i hp =>
    rw [hp] at hx hget
    obtain ⟨v, hread, hmem⟩ := hx
    obtain ⟨v', hf, hread'⟩ := hget
    rw [hread.unique hread', ← hf.value] at hmem
    exact ⟨es, h.advance rfl (returns h.lin hmem rfl) rfl (Or.inl rfl)
      (by simp [ClientEvent.call]) trivial⟩
  | absent _ _ key hp hi =>
    rw [hp] at hx
    have happly : applyCall (after applyCall m₀ es) (.append (.remove key)) =
        (after applyCall m₀ es, .done (.error .keyNotFound)) := by
      simp only [applyCall, (h.absent_iff hinv).mp hi]
    exact ⟨_, h.observe hx happly rfl (by simp [ClientEvent.call]) (Or.inr rfl) trivial⟩
  | present _ _ key e hp hi =>
    rw [hp] at hx
    exact ⟨es, h.quiet hx⟩
  | poisoned _ _ call hp hl => exact absurd hl (ho (by rw [hp]; rfl))
  | begin _ _ call s hp hs =>
    rw [hp] at hx
    obtain ⟨hl, rfl⟩ := hs.of_begin
    -- the lock was free, so no other call is appending
    have hno : ∀ t' call', c.calls t' ≠ .appending call' := by
      intro t' call' hc
      obtain ⟨_, _, -, hf⟩ := hinv.owner.held t' (hinv.owner.sole t' call' hc)
      rw [hl] at hf; cases hf
    rw [List.append_nil]
    refine ⟨es, h.lin, h.state, fun t' => ?_⟩
    show Explained ops₀ true es tr t' ((c.advance t (.appending call)).calls t')
    by_cases he : t' = t
    · rw [he, c.calls_advance_self]
      exact hx
    · rw [c.calls_advance_ne he]
      exact (h.calls t').lock (hno t')

/-- What one step of the store preserves. -/
theorem Explains.act (h : Explains ops₀ m₀ c tr es) (hinv : c.Inv crc cfg ops₀ tr) {a : Act}
    (ho : (Move.store a).Orderly crc c) (hs : ClientStep crc cfg c (.store a) c' evs) :
    ∃ es', Explains ops₀ m₀ c' (tr ++ evs) es' := by
  cases hs with
  | other _ s hb hs hh =>
    -- no call holds the lock, so none is appending
    rw [List.append_nil]
    refine ⟨es, h.lin, h.state, fun t' => (h.calls t').lock fun call hc => ?_⟩
    have hsome := hinv.owner.sole t' call hc
    rw [hh] at hsome; cases hsome
  | append _ s t hb hs hh hf =>
    obtain ⟨call, ts, hc, hfl⟩ := hinv.owner.held t hh
    have hx := h.calls t
    rw [hc] at hx
    rcases published_cases hs with hpub | ⟨cmd, hpub, hl, hl'⟩
    · rw [hpub, List.map_nil, List.append_nil]
      refine ⟨es, h.lin, h.state, fun t' => ?_⟩
      show Explained ops₀ s.lock.isWriting es tr t' (c.calls t')
      rw [hs.isWriting_eq hb hpub hf]
      exact h.calls t'
    · -- the call takes effect
      obtain rfl : cmd = call.command ts := by
        rw [hl] at hfl
        exact (List.cons.inj hfl).1
      rw [hl] at hx
      obtain ⟨hlin, hmap⟩ := h.update hinv hx (ho.2 _ (by rw [hpub]; exact List.mem_singleton_self _))
      rw [hpub]
      refine ⟨es ++ [⟨t, .append call, .done (.ok ())⟩], h.move t ?_ ?_ (Or.inr ⟨_, rfl, rfl⟩)
        (by simp [ClientEvent.call]) (fun _ _ => rfl)
        (Or.inr fun t' call' hne => hinv.owner.alone hh hne call') ?_⟩
      · rw [history_append]
        show Linearization applyCall m₀ (history tr ++ []) _
        rw [List.append_nil]
        exact hlin
      · rw [updates_append, updates_map, ← List.append_assoc]
        exact hmap
      · show Explained ops₀ s.lock.isWriting _ _ t (c.calls t)
        rw [hc, hl']
        exact List.mem_append_right es (List.mem_singleton_self _)
  | finish _ s t hb hs hh hf =>
    obtain ⟨call, ts, hc, hfl⟩ := hinv.owner.held t hh
    obtain ⟨recs, log, a', hlink, -⟩ := hinv.link
    have hx := h.calls t
    rw [hc, hs.finish_isWriting ho.1 (by rw [hfl]; simp) hf] at hx
    rw [hlink.rep.outcome_ok ho.1]
    refine ⟨es, h.move t ?_ ?_ (Or.inl rfl) ?_ (fun t' hne => c.calls_advance_ne hne .returned)
      (Or.inr fun t' call' hne => hinv.owner.alone hh hne call') ?_⟩
    · split
      · rw [List.append_nil]
        exact h.lin
      · exact returns h.lin hx rfl
    · have hnone : updates (if s.lock = .poisoned then []
          else [ClientEvent.returned t (.done (.ok ()))]) = [] := by split <;> rfl
      rw [updates_append, hnone, List.append_nil]
      exact h.state
    · split <;> simp [ClientEvent.call]
    · rw [show _ = Progress.returned from c.calls_advance_self t _]
      trivial

/-- What one move preserves. -/
theorem Explains.step (h : Explains ops₀ m₀ c tr es) (hinv : c.Inv crc cfg ops₀ tr)
    (ho : m.Orderly crc c) (hs : ClientStep crc cfg c m c' evs) :
    ∃ es', Explains ops₀ m₀ c' (tr ++ evs) es' := by
  cases m with
  | invoke t call =>
    cases hs with
    | invoke _ _ hp =>
      have hx := h.calls t
      rw [hp] at hx
      refine ⟨es, h.advance rfl ?_ rfl (Or.inl rfl) (by simp [ClientEvent.call]) ?_⟩
      · rw [history_append]
        exact h.lin.inv call hx
      · have hpend : Pending es (tr ++ [.invoked t call]) t call :=
          ⟨List.mem_append_right tr (List.mem_singleton_self _), hx⟩
        rcases call with key | ⟨key, value⟩ | key <;> exact hpend
  | run t ts => exact h.run hinv ho hs
  | store a => exact h.act hinv ho hs

theorem Move.Orderly.nominal (h : m.Orderly crc c) : m.Nominal := by
  cases m with
  | store a => exact h.1
  | _ => trivial

/-- What every run of the clients preserves. -/
theorem ClientRun.explains {s₀ : Sys}
    (h₀ : Reach crc (fun _ a => a.Nominal) (.running cfg s₀) ops₀) (hfree : s₀.lock = .free)
    (hm₀ : MapOf ops₀ m₀) (h : ClientRun crc cfg (fun c m => m.Orderly crc c) s₀ c tr) :
    ∃ es, Explains ops₀ m₀ c tr es := by
  induction h with
  | start =>
    refine ⟨[], .nil, ?_, fun t => by simp [Explained]⟩
    show MapOf (ops₀ ++ []) m₀
    rw [List.append_nil]
    exact hm₀
  | move hr hp hs ih =>
    obtain ⟨es, he⟩ := ih
    exact he.step (hr.inv (fun ho => ho.nominal) h₀ hfree) hp (clientStep_cases hs)

end Order

/-- Between two removes of a key that succeed the key is set. -/
def SetBetween (es : List (Entry ℕ ClientCall Answer)) : Prop :=
  ∀ as t bs t' cs key, es = as ++ ⟨t, .append (.remove key), .done (.ok ())⟩ :: (bs ++
    ⟨t', .append (.remove key), .done (.ok ())⟩ :: cs) → ∃ e ∈ bs, ∃ v, e.op = .append (.set key v)

section Removes

variable {m : String → Option String} {es : List (Entry ℕ ClientCall Answer)} {key : String}

theorem applyCall_none (hm : m key = none) {call : ClientCall}
    (hno : ∀ v, call ≠ .append (.set key v)) : (applyCall m call).1 key = none := by
  rcases call with k | ⟨k, v⟩ | k
  · exact hm
  · have hne : key ≠ k := fun he => hno v (by rw [he])
    exact (Function.update_of_ne hne ..).trans hm
  · cases hk : m k with
    | none =>
      simp only [applyCall, hk]
      exact hm
    | some v =>
      simp only [applyCall, hk]
      by_cases he : key = k
      · rw [he]
        exact Function.update_self ..
      · exact (Function.update_of_ne he ..).trans hm

/-- A key that is not set stays away. -/
theorem after_none (hm : m key = none) (hno : ∀ e ∈ es, ∀ v, e.op ≠ .append (.set key v)) :
    after applyCall m es key = none := by
  induction es generalizing m with
  | nil => exact hm
  | cons e es ih =>
    refine ih (applyCall_none hm (hno e List.mem_cons_self)) ?_
    exact fun e' he' => hno e' (List.mem_cons_of_mem e he')

/-- A remove that succeeds finds its key and leaves it out. -/
theorem remove_ok (h : (applyCall m (.append (.remove key))).2 = .done (.ok ())) :
    m key ≠ none ∧ (applyCall m (.append (.remove key))).1 key = none := by
  cases hm : m key with
  | none => simp [applyCall, hm] at h
  | some v => simp [applyCall, hm]

theorem setBetween (h : Legal applyCall m es) : SetBetween es := by
  rintro as t bs t' cs key rfl
  by_contra hno
  push Not at hno
  obtain ⟨hfirst, hrest⟩ := (legal_append.mp h).2
  obtain ⟨hsecond, -⟩ := (legal_append.mp hrest).2
  exact (remove_ok hsecond).1 (after_none (remove_ok hfirst).2 hno)

end Removes

/-- The calls on a store are linearizable, in every run in which no filesystem call fails, no call
meets a poisoned writer lock, and at the index update of each `remove` its key is in the index: some
order of the calls, consistent with real time, gives their answers on a plain map, which starts as
what `get` answers before the run. -/
theorem calls_linearizable {crc : Bytes → UInt32} {cfg : Config} {ops₀ : List Command} {s₀ : Sys}
    {c : Clients} {tr : List ClientEvent}
    (h₀ : Reach crc (fun _ a => a.Nominal) (.running cfg s₀) ops₀) (hfree : s₀.lock = .free)
    (h : ClientRun crc cfg (fun c m => m.Orderly crc c) s₀ c tr) :
    ∃ m₀, (∀ key, s₀.get crc key = some (.ok (m₀ key))) ∧
      ∃ es, Linearization applyCall m₀ (history tr) es ∧ SetBetween es := by
  have hstart : ClientRun crc cfg (fun _ m => m.Nominal) s₀ ⟨s₀, fun _ => .unborn, none⟩ [] := .start
  obtain ⟨recs, log, a, hl, -⟩ := (hstart.inv id h₀ hfree).link
  have hpub : ops₀ ++ updates [] = ops₀ := List.append_nil ops₀
  rw [hpub] at hl
  choose m₀ hget hmap using hl.get
  obtain ⟨es, he⟩ := h.explains h₀ hfree hmap
  exact ⟨m₀, hget, es, he.lin, setBetween he.lin.legal⟩

/-- While a `remove` of "a" is about to append its record, a `get` looks "a" up; after the `remove`
has returned, the `get` goes on, and a second `remove` comes. -/
def removeAndGet : List Move :=
  [.invoke 0 (.append (.set "a" "1")), .run 0 0] ++
    ((Call.acts crc32 (.set "a" "1") 3).drop 1).map .store ++
    [.invoke 1 (.append (.remove "a")), .invoke 2 (.get "a"), .run 1 0, .run 2 0, .run 1 0] ++
    ((Call.acts crc32 (.remove "a") 3).drop 1).map .store ++
    [.run 2 0, .invoke 3 (.append (.remove "a")), .run 3 0, .run 2 0]

theorem calls_linearizable_remove_and_get : ∃ c tr,
    Clients.moves crc32 Config.new (fun c m => m.Orderly crc32 c) removeAndGet
      ⟨emptyStore crc32, fun _ => .unborn, none⟩ = some (c, tr) ∧
    history tr = [.inv 0 (.append (.set "a" "1")), .ret 0 (.done (.ok ())),
      .inv 1 (.append (.remove "a")), .inv 2 (.get "a"), .ret 1 (.done (.ok ())),
      .inv 3 (.append (.remove "a")), .ret 3 (.done (.error .keyNotFound)),
      .ret 2 (.got (.ok (some "1")))] ∧
    ∃ m₀, (∀ key, (emptyStore crc32).get crc32 key = some (.ok (m₀ key))) ∧
      ∃ es, Linearization applyCall m₀ (history tr) es ∧ SetBetween es := by
  have hrun : (Clients.moves crc32 Config.new (fun c m => m.Orderly crc32 c) removeAndGet
      ⟨emptyStore crc32, fun _ => .unborn, none⟩).any fun r =>
        history r.2 = [.inv 0 (.append (.set "a" "1")), .ret 0 (.done (.ok ())),
          .inv 1 (.append (.remove "a")), .inv 2 (.get "a"), .ret 1 (.done (.ok ())),
          .inv 3 (.append (.remove "a")), .ret 3 (.done (.error .keyNotFound)),
          .ret 2 (.got (.ok (some "1")))] := by decide +kernel
  obtain ⟨⟨c, tr⟩, hm, hc⟩ := (Option.any_eq_true ..).mp hrun
  have hstart : steps crc32 Config.new (fun _ a => a.Nominal) [] (emptyStore crc32) =
      some (emptyStore crc32) := rfl
  exact ⟨c, tr, hm, of_decide_eq_true hc,
    calls_linearizable (Reach.firstSession hstart) rfl (ClientRun.start.of_moves hm)⟩

/-- Two calls remove "a" and both find it before one of them appends. -/
def removeTwice : List Move :=
  [.invoke 0 (.append (.set "a" "1")), .run 0 0] ++
    ((Call.acts crc32 (.set "a" "1") 3).drop 1).map .store ++
    [.invoke 1 (.append (.remove "a")), .invoke 2 (.append (.remove "a")), .run 1 0, .run 2 0,
      .run 1 0] ++
    ((Call.acts crc32 (.remove "a") 3).drop 1).map .store ++ [.run 2 0] ++
    ((Call.acts crc32 (.remove "a") 3).drop 1).map .store

/-- A history with two removes that succeed after one set is not that of a plain map. -/
theorem two_removes_illegal : ¬ IsLinearizable applyCall (fun _ => none)
    [.inv 0 (.append (.set "a" "1")), .ret 0 (.done (.ok ())), .inv 1 (.append (.remove "a")),
      .inv 2 (.append (.remove "a")), .ret 1 (.done (.ok ())), .ret 2 (.done (.ok ()))] := by
  rintro ⟨es, hl⟩
  -- the order has the three calls, with the answers that were seen
  have hperm : es.Perm [⟨0, .append (.set "a" "1"), .done (.ok ())⟩,
      ⟨1, .append (.remove "a"), .done (.ok ())⟩, ⟨2, .append (.remove "a"), .done (.ok ())⟩] := by
    refine hl.perm (by decide) (fun t o ho => ?_) (by decide)
    simp only [List.mem_cons, Event.inv.injEq, reduceCtorEq, false_or, or_false, List.not_mem_nil]
      at ho
    rcases ho with ⟨rfl, rfl⟩ | ⟨rfl, rfl⟩ | ⟨rfl, rfl⟩ <;> simp
  have hnone : ∀ fs ∈ List.permutations' [⟨0, .append (.set "a" "1"), .done (.ok ())⟩,
      ⟨1, .append (.remove "a"), .done (.ok ())⟩, ⟨2, .append (.remove "a"), .done (.ok ())⟩],
      ¬ Legal applyCall (fun _ => none) fs := by decide +kernel
  exact hnone es (List.mem_permutations'.mpr hperm) hl.legal

/-- `remove` looks for its key before it has the writer lock: two calls that remove a key at the same
time both succeed, though the key was set once. -/
theorem two_removes_succeed : ∃ c tr,
    Clients.moves crc32 Config.new (fun _ m => m.Nominal) removeTwice
      ⟨emptyStore crc32, fun _ => .unborn, none⟩ = some (c, tr) ∧
    history tr = [.inv 0 (.append (.set "a" "1")), .ret 0 (.done (.ok ())),
      .inv 1 (.append (.remove "a")), .inv 2 (.append (.remove "a")), .ret 1 (.done (.ok ())),
      .ret 2 (.done (.ok ()))] ∧
    ∀ m₀, (∀ key, (emptyStore crc32).get crc32 key = some (.ok (m₀ key))) →
      ¬ IsLinearizable applyCall m₀ (history tr) := by
  have hrun : (Clients.moves crc32 Config.new (fun _ m => m.Nominal) removeTwice
      ⟨emptyStore crc32, fun _ => .unborn, none⟩).any fun r =>
        history r.2 = [.inv 0 (.append (.set "a" "1")), .ret 0 (.done (.ok ())),
          .inv 1 (.append (.remove "a")), .inv 2 (.append (.remove "a")), .ret 1 (.done (.ok ())),
          .ret 2 (.done (.ok ()))] := by decide +kernel
  obtain ⟨⟨c, tr⟩, hm, hc⟩ := (Option.any_eq_true ..).mp hrun
  have htr := of_decide_eq_true hc
  refine ⟨c, tr, hm, htr, fun m₀ hm₀ => ?_⟩
  obtain rfl : m₀ = fun _ => none := by
    funext key
    have hget : (emptyStore crc32).get crc32 key = some (.ok none) := rfl
    rw [hm₀ key] at hget
    exact Except.ok.inj (Option.some.inj hget)
  rw [htr]
  exact two_removes_illegal

end Bitcask
