import Bitcask.Storage.Arithmetic
import Bitcask.Storage.Histories
import Bitcask.Storage.Linearize

/-!
# A poisoned writer lock

A thread that panics while it holds the writer lock poisons it, and nothing clears it: the store is
read-only for the rest of the session.

1. `Step.poisoned`: the steps that are left are those of the compaction thread, which no longer gets
   at the writer state.
2. `Applied`: an append that is over has returned, or it panicked behind its index update.
3. `Refusing`: what is known of the calls made since.
4. `poisoned_store_is_read_only`: every call answers as on the map of the index updates before the
   panic, which is also what the next `open` recovers. The append that panicked is in it.
-/

namespace Bitcask

open LittleEndian FileSystem SegmentedLog

/-- What a call returns when the writer lock is poisoned and the store holds the map `m`. -/
def poisonedAnswer (m : String → Option String) : ClientCall → Answer
  | .get key => .got (.ok (m key))
  | .append (.set _ _) => .done (.error .lockPoisoned)
  | .append (.remove key) => .done (.error (if m key = none then .keyNotFound else .lockPoisoned))

/-! ## The store -/

section Store

variable {crc : Bytes → UInt32} {cfg : Config} {s s' : Sys} {a : Act}

/-- Nobody holds a poisoned lock. -/
theorem WriterStep.lock_ne_poisoned (hs : WriterStep crc cfg s a s') : s.lock ≠ .poisoned := by
  cases hs <;> simp [*]

/-- The compaction thread changes the writer state only with the lock. -/
theorem MergeStep.poisoned (hs : MergeStep crc cfg s s') (hl : s.lock = .poisoned) :
    s'.lock = .poisoned ∧ s'.writer = s.writer ∧ s'.merge.result ≠ some (.ok ()) := by
  have hlock : s'.lock = .poisoned := by
    rcases hs.lock_eq with he | ⟨hfree, -⟩
    · rw [he, hl]
    · rw [hl] at hfree; cases hfree
  refine ⟨hlock, ?_⟩
  cases hs with
  | subtract stale hm hfree | subtractPanic stale hm hfree => rw [hl] at hfree; cases hfree
  | _ => exact ⟨rfl, by simp [Merge.result, Sys.failMerge, Sys.failOutput, Sys.openHint]⟩

/-- A step with the lock poisoned is one of the compaction thread, and no merge ends with `Ok`. -/
theorem Step.poisoned (hs : Step crc cfg s a s') (hl : s.lock = .poisoned) :
    s'.lock = .poisoned ∧ s'.writer = s.writer ∧ s'.merge.result ≠ some (.ok ()) := by
  cases hs with
  | writer hw => exact absurd hl hw.lock_ne_poisoned
  | merge hm => exact hm.poisoned hl
  | startNot last res hm hfree hres hn =>
    refine ⟨hl, rfl, fun h => ?_⟩
    rw [if_neg (by rw [hl]; simp)] at hres
    subst hres
    cases h
  | startPanic last hm hfree | start last hm hfree => rw [hl] at hfree; cases hfree
  | spill out n m ho =>
    refine ⟨hl, rfl, ?_⟩
    cases hm : s.merge <;> simp_all [Sys.withOutput, Sys.heldOutput, Merge.result]
  | mergeErr | outputErr => exact ⟨hl, rfl, by simp [Sys.failMerge, Merge.result]⟩

end Store

/-! ## The calls before the panic -/

/-- What a call has done. `writing` says that the lock holder has not updated the index yet. A call
that is over has returned, or it panicked behind its index update. -/
def Applied (writing : Bool) (tr : List ClientEvent) (t : ℕ) : Progress → Prop
  | .check key => .invoked t (.append (.remove key)) ∈ tr
  | .waiting call => .invoked t (.append call) ∈ tr
  | .appending call => .invoked t (.append call) ∈ tr ∧
      (writing = true ∨ ∃ ts, .updated t (call.command ts) ∈ tr)
  | .returned => (∃ r, .returned t r ∈ tr) ∨
      ∃ call ts, .invoked t (.append call) ∈ tr ∧ .updated t (call.command ts) ∈ tr
  | _ => True

section Applied

variable {crc : Bytes → UInt32} {cfg : Config} {c c' : Clients} {tr evs : List ClientEvent}
  {mv : Move} {w w' : Bool} {t : ℕ} {p : Progress}

theorem Applied.append (h : Applied w tr t p) : Applied w (tr ++ evs) t p := by
  cases p with
  | check key => exact List.mem_append_left _ h
  | waiting call => exact List.mem_append_left _ h
  | appending call =>
    exact ⟨List.mem_append_left _ h.1, h.2.imp_right fun ⟨ts, hu⟩ => ⟨ts, List.mem_append_left _ hu⟩⟩
  | returned =>
    rcases h with ⟨r, hr⟩ | ⟨call, ts, hi, hu⟩
    · exact Or.inl ⟨r, List.mem_append_left _ hr⟩
    · exact Or.inr ⟨call, ts, List.mem_append_left _ hi, List.mem_append_left _ hu⟩
  | _ => trivial

/-- Only the lock holder depends on how far the record is. -/
theorem Applied.of_not_appending (h : Applied w tr t p) (hp : ∀ call, p ≠ .appending call) :
    Applied w' tr t p := by
  cases p with
  | appending call => exact absurd rfl (hp call)
  | _ => exact h

theorem Applied.advance (h : ∀ t, Applied w tr t (c.calls t)) (hp : Applied w (tr ++ evs) t p)
    (t' : ℕ) : Applied w (tr ++ evs) t' ((c.advance t p).calls t') := by
  by_cases he : t' = t
  · subst he
    rwa [c.calls_advance_self]
  · rw [c.calls_advance_ne he]
    exact (h t').append

/-- A call returns. -/
theorem Applied.ret (h : ∀ t, Applied w tr t (c.calls t)) {a : Answer} (ha : .returned t a ∈ evs)
    (t' : ℕ) : Applied w (tr ++ evs) t' ((c.advance t .returned).calls t') := by
  refine Applied.advance h ?_ t'
  exact Or.inl ⟨a, List.mem_append_right _ ha⟩

theorem Applied.step (h : ∀ t, Applied c.store.lock.isWriting tr t (c.calls t)) (ho : c.Owner)
    (hn : mv.Nominal) (hs : ClientStep crc cfg c mv c' evs) (t' : ℕ) :
    Applied c'.store.lock.isWriting (tr ++ evs) t' (c'.calls t') := by
  cases hs with
  | invoke t call hp =>
    refine Applied.advance h ?_ t'
    rcases call with key | ⟨key, value⟩ | key
    · trivial
    · exact List.mem_append_right _ List.mem_cons_self
    · exact List.mem_append_right _ List.mem_cons_self
  | found t ts key e hp | retry t ts key e hp | load t ts key e i hp =>
    refine Applied.advance h ?_ t'
    trivial
  | missing t ts key hp hi =>
    exact Applied.ret h (List.mem_cons_of_mem _ (List.mem_singleton_self _)) t'
  | pread t ts key e i hp | absent t ts key hp hi | poisoned t ts call hp hl =>
    exact Applied.ret h (List.mem_singleton_self _) t'
  | present t ts key e hp hi =>
    have hcheck := h t
    rw [hp] at hcheck
    exact Applied.advance h (List.mem_append_left _ hcheck) t'
  | begin t ts call s hp hs =>
    have hwaiting := h t
    rw [hp] at hwaiting
    obtain ⟨hl, rfl⟩ := hs.of_begin
    show Applied true (tr ++ []) t' ((c.advance t (.appending call)).calls t')
    rw [List.append_nil]
    by_cases he : t' = t
    · subst he
      rw [c.calls_advance_self]
      exact ⟨hwaiting, Or.inl rfl⟩
    · rw [c.calls_advance_ne he]
      refine (h t').of_not_appending fun call' hc => ?_
      obtain ⟨_, _, -, hf⟩ := ho.held t' (ho.sole t' call' hc)
      rw [hl] at hf
      cases hf
  | other a s hb hs hh =>
    refine (h t').append.of_not_appending fun call hc => ?_
    have hsome := ho.sole t' call hc
    rw [hh] at hsome
    cases hsome
  | append a s t hb hs hh hf =>
    obtain ⟨call, ts, hc, hl⟩ := ho.held t hh
    have hcall := h t
    by_cases he : t' = t
    · subst he
      show Applied s.lock.isWriting _ t' (c.calls t')
      rw [hc] at hcall ⊢
      rcases published_cases hs with hpub | ⟨cmd, hpub, hlock, -⟩
      · rw [hs.isWriting_eq hb hpub hf]
        exact hcall.append
      · obtain rfl : cmd = call.command ts := by
          rw [hlock] at hl
          exact List.singleton_inj.mp hl
        exact ⟨List.mem_append_left _ hcall.1, Or.inr ⟨ts, by rw [hpub]; simp⟩⟩
    · exact (h t').append.of_not_appending (ho.alone hh he)
  | finish a s t hb hs hh hf =>
    obtain ⟨call, ts, hc, hl⟩ := ho.held t hh
    have hcall := h t
    by_cases he : t' = t
    · subst he
      rw [hc] at hcall
      have hdone : c.store.lock.isWriting = false :=
        hs.finish_isWriting hn (by rw [hl]; exact List.cons_ne_nil _ _) hf
      obtain ⟨ts', hu⟩ := hcall.2.resolve_left (by rw [hdone]; exact Bool.false_ne_true)
      show Applied _ _ t' ((c.advance t' .returned).calls t')
      rw [c.calls_advance_self]
      exact Or.inr ⟨call, ts', List.mem_append_left _ hcall.1, List.mem_append_left _ hu⟩
    · show Applied _ _ t' ((c.advance t .returned).calls t')
      rw [c.calls_advance_ne he]
      exact (h t').append.of_not_appending (ho.alone hh he)

end Applied

/-! ## The calls since -/

/-- What is known of a call made in `evs`, when the writer lock was poisoned before. -/
def Refusing (m : String → Option String) (evs : List ClientEvent) (t : ℕ) : Progress → Prop
  | .check key => ∀ call, .invoked t call ∈ evs → call = .append (.remove key)
  | .waiting _ => ∀ call, .invoked t call ∈ evs →
      poisonedAnswer m call = .done (.error .lockPoisoned)
  | _ => True

/-- The appends made in `evs` were refused. -/
structure Clients.Refuses (m : String → Option String) (c : Clients) (evs : List ClientEvent) :
    Prop where
  calls : ∀ t, Refusing m evs t (c.calls t)
  answers : ∀ t call r, .invoked t call ∈ evs → .returned t (.done r) ∈ evs →
    .done r = poisonedAnswer m call

section Calls

variable {crc : Bytes → UInt32} {cfg : Config} {ops₀ : List Command} {m : String → Option String}
  {c c' : Clients} {tr evs evs' : List ClientEvent} {mv : Move} {s : Sys} {t : ℕ}

theorem mem_of_other {ev : ClientEvent} (hev : ∀ ev ∈ evs', ev.call = t) (ht : ev.call ≠ t)
    (hmem : ev ∈ evs ++ evs') : ev ∈ evs := by
  rcases List.mem_append.mp hmem with h | h
  · exact h
  · exact absurd (hev ev h) ht

theorem Refusing.append {t' : ℕ} {p : Progress} (h : Refusing m evs t' p)
    (hev : ∀ ev ∈ evs', ev.call = t) (ht : t' ≠ t) : Refusing m (evs ++ evs') t' p := by
  cases p with
  | check key => exact fun call hmem => h call (mem_of_other hev ht hmem)
  | waiting call => exact fun call hmem => h call (mem_of_other hev ht hmem)
  | _ => trivial

/-- A call goes on: only its own events are new. -/
theorem Clients.Refuses.advance (h : c.Refuses m evs) {p : Progress}
    (hev : ∀ ev ∈ evs', ev.call = t) (hp : Refusing m (evs ++ evs') t p)
    (hanswers : ∀ call r, .invoked t call ∈ evs ++ evs' → .returned t (.done r) ∈ evs ++ evs' →
      .done r = poisonedAnswer m call) : (c.advance t p).Refuses m (evs ++ evs') where
  calls t' := by
    by_cases he : t' = t
    · subst he
      rw [c.calls_advance_self]
      exact hp
    · rw [c.calls_advance_ne he]
      exact (h.calls t').append hev he
  answers t' call r hinv hret := by
    by_cases he : t' = t
    · subst he
      exact hanswers call r hinv hret
    · exact h.answers t' call r (mem_of_other hev he hinv) (mem_of_other hev he hret)

/-- A call goes on, or returns with what `get` found. -/
theorem Clients.Refuses.silent (h : c.Refuses m evs) {p : Progress}
    (hev : ∀ ev ∈ evs', ev.call = t) (hp : Refusing m (evs ++ evs') t p)
    (hinv : ∀ call, .invoked t call ∉ evs') (hret : ∀ r, .returned t (.done r) ∉ evs') :
    (c.advance t p).Refuses m (evs ++ evs') := by
  refine h.advance hev hp fun call r hi hr => h.answers t call r ?_ ?_
  · exact (List.mem_append.mp hi).resolve_right (hinv call)
  · exact (List.mem_append.mp hr).resolve_right (hret r)

/-- An append is refused. -/
theorem Clients.Refuses.refuse (h : c.Refuses m evs) {e : KvsError}
    (he : ∀ call, .invoked t call ∈ evs → .done (.error e) = poisonedAnswer m call) :
    (c.advance t .returned).Refuses m (evs ++ [.returned t (.done (.error e))]) := by
  refine h.advance (by simp [ClientEvent.call]) trivial fun call r hi hr => ?_
  have hi : .invoked t call ∈ evs := (List.mem_append.mp hi).resolve_right (by simp)
  rcases List.mem_append.mp hr with hr | hr
  · exact h.answers t call r hi hr
  · rw [(ClientEvent.returned.inj (List.mem_singleton.mp hr)).2]
    exact he call hi

theorem Clients.Inv.index_none_iff (h : c.Inv crc cfg ops₀ tr) {key : String}
    (hget : c.store.get crc key = some (.ok (m key))) :
    c.store.index.get (asBytes key) = none ↔ m key = none := by
  obtain ⟨recs, log, a, hl, -⟩ := h.link
  obtain ⟨v, hv, hvalue⟩ := hl.get key
  obtain rfl : m key = v := by
    rw [hget] at hv
    exact Except.ok.inj (Option.some.inj hv)
  rw [hl.represents.get_eq_none_iff, ← valueOf, ← hvalue, Option.map_eq_none_iff]

/-- An event of a call that has not been made is not in the trace. -/
theorem Clients.Inv.unborn_notMem (h : c.Inv crc cfg ops₀ (tr ++ evs)) (hp : c.calls t = .unborn)
    {ev : ClientEvent} (he : ev.call = t) : ev ∉ evs := by
  intro hmem
  have hgets := h.gets t
  rw [hp] at hgets
  exact hgets ev (List.mem_append_right _ hmem) he

theorem Clients.Refuses.step (h : c.Refuses m evs) (hinv : c.Inv crc cfg ops₀ (tr ++ evs))
    (hl : c.store.lock = .poisoned) (hm : ∀ key, c.store.get crc key = some (.ok (m key)))
    (hs : ClientStep crc cfg c mv c' evs') : c'.Refuses m (evs ++ evs') ∧ updates evs' = [] := by
  have hheld : ∀ t, c.holder ≠ some t := by
    intro t hh
    obtain ⟨call, ts, -, hf⟩ := hinv.owner.held t hh
    rw [hl] at hf; cases hf
  cases hs with
  | invoke t call hp =>
    have hnew : ∀ ev : ClientEvent, ev.call = t → ev ∉ evs := fun _ => hinv.unborn_notMem hp
    have hcall : ∀ call', .invoked t call' ∈ evs ++ [.invoked t call] → call' = call := by
      intro call' hmem
      rcases List.mem_append.mp hmem with hmem | hmem
      · exact absurd hmem (hnew _ rfl)
      · exact (ClientEvent.invoked.inj (List.mem_singleton.mp hmem)).2
    refine ⟨h.advance (by simp [ClientEvent.call]) ?_ fun call' r _ hret => ?_, rfl⟩
    · rcases call with key | ⟨key, value⟩ | key
      · trivial
      · intro call' hmem
        rw [hcall call' hmem]
        rfl
      · exact hcall
    · exact absurd ((List.mem_append.mp hret).resolve_right (by simp)) (hnew _ rfl)
  | missing t ts key hp hi | found t ts key e hp hi | retry t ts key e hp hr
  | load t ts key e i hp hr | pread t ts key e i hp =>
    exact ⟨h.silent (by simp [ClientEvent.call]) trivial (by simp) (by simp), rfl⟩
  | absent t ts key hp hi =>
    have hcalls := h.calls t
    rw [hp] at hcalls
    refine ⟨h.refuse fun call hmem => ?_, rfl⟩
    rw [hcalls call hmem, poisonedAnswer, if_pos ((hinv.index_none_iff (hm key)).mp hi)]
  | present t ts key e hp hi =>
    have hcalls := h.calls t
    rw [hp] at hcalls
    have hsome : m key ≠ none := by
      rw [Ne, ← hinv.index_none_iff (hm key), hi]
      exact Option.some_ne_none e
    refine ⟨h.silent (by simp) (fun call hmem => ?_) (by simp) (by simp), rfl⟩
    rw [List.append_nil] at hmem
    rw [hcalls call hmem, poisonedAnswer, if_neg hsome]
  | poisoned t ts call hp _ =>
    have hcalls := h.calls t
    rw [hp] at hcalls
    exact ⟨h.refuse fun call hmem => (hcalls call hmem).symm, rfl⟩
  | begin t ts call s hp hs =>
    cases hs with
    | writer hw => exact absurd hl hw.lock_ne_poisoned
  | other a s hb hs hh =>
    rw [List.append_nil]
    exact ⟨⟨h.calls, h.answers⟩, rfl⟩
  | append a s t hb hs hh hf => exact absurd hh (hheld t)
  | finish a s t hb hs hh hf => exact absurd hh (hheld t)

/-- A `get` made since the trace `tr`, without an index update, read what `tr` left. -/
theorem Clients.Inv.read_since (h : c.Inv crc cfg ops₀ (tr ++ evs)) (hquiet : updates evs = [])
    {call : ClientCall} {r : Except KvsError (Option String)} (hi : .invoked t call ∈ evs)
    (hr : .returned t (.got r) ∈ evs) : ∃ key v, call = .get key ∧ r = .ok v ∧
      v.map asBytes = valueOf (asBytes key) (ops₀ ++ updates tr) := by
  obtain ⟨pre, post, rfl⟩ := List.append_of_mem hr
  obtain ⟨key, v, rfl, before, after, heq, hinv, -, hv⟩ :=
    h.answers (List.append_assoc tr pre _).symm
  have hsame : call = .get key := by
    refine invoked_unique h.once (List.mem_append_right _ hi) ?_
    rw [← List.append_assoc, heq]
    simp [hinv]
  refine ⟨key, v, hsame, rfl, ?_⟩
  -- the lookup comes after the invocation, which is not in `tr`
  obtain ⟨l, rfl, hl⟩ : ∃ l, before = tr ++ l ∧ pre = l ++ .looked t key :: after := by
    rcases List.append_eq_append_iff.mp heq with ⟨l, rfl, hl⟩ | ⟨l, rfl, -⟩
    · exact ⟨l, rfl, hl⟩
    · exfalso
      have honce := h.once
      rw [List.filterMap_append, List.nodup_append] at honce
      refine honce.2.2 t ?_ t (List.mem_filterMap.mpr ⟨_, hi, rfl⟩) rfl
      exact List.mem_filterMap.mpr ⟨_, List.mem_append_left _ hinv, rfl⟩
  have hnone : updates l = [] := by
    refine List.eq_nil_of_prefix_nil (hquiet ▸ updates_prefix ?_)
    rw [hl, List.append_assoc]
    exact List.prefix_append ..
  rw [hv, updates_append, hnone, List.append_nil]

/-- What holds of the moves made since the lock was poisoned in `c₀`, which held the map `m`. -/
structure Poisoned (crc : Bytes → UInt32) (m : String → Option String) (c₀ c : Clients)
    (evs : List ClientEvent) : Prop where
  lock : c.store.lock = .poisoned
  writer : c.store.writer = c₀.store.writer
  holds : ∀ key, c.store.get crc key = some (.ok (m key))
  quiet : updates evs = []
  refuses : c.Refuses m evs

theorem Poisoned.step {c₀ : Clients} (h : Poisoned crc m c₀ c evs)
    (hinv : c.Inv crc cfg ops₀ (tr ++ evs)) (hn : mv.Nominal)
    (hs : c.step crc cfg mv = some (c', evs')) : Poisoned crc m c₀ c' (evs ++ evs') := by
  obtain ⟨hrefuses, hnone⟩ := h.refuses.step hinv h.lock h.holds (clientStep_cases hs)
  have hquiet : updates (evs ++ evs') = [] := by rw [updates_append, h.quiet, hnone]; rfl
  rcases Clients.step_store hs with he | ⟨act, hact, hmove⟩
  · exact ⟨he ▸ h.lock, he ▸ h.writer, he ▸ h.holds, hquiet, hrefuses⟩
  · obtain ⟨hlock, hwriter, -⟩ := (step_cases hact).poisoned h.lock
    have hnominal : act.Nominal := by
      rcases hmove with rfl | ⟨call, ts, rfl⟩
      · exact hn
      · trivial
    refine ⟨hlock, hwriter.trans h.writer, fun key => ?_, hquiet, hrefuses⟩
    rw [hinv.onlyAppendsSeen act _ hnominal hact (published_of_inFlight (by rw [h.lock]; rfl)), h.holds]

theorem Poisoned.moves {c₀ : Clients} {s₀ : Sys} {ms : List Move}
    (h : Poisoned crc m c₀ c evs) (h₀ : Reach crc (fun _ a => a.Nominal) (.running cfg s₀) ops₀)
    (hfree : s₀.lock = .free)
    (hrun : ClientRun crc cfg (fun _ m => m.Nominal) s₀ c (tr ++ evs))
    (hs : Clients.moves crc cfg (fun _ m => m.Nominal) ms c = some (c', evs')) :
    Poisoned crc m c₀ c' (evs ++ evs') := by
  induction ms generalizing c evs evs' with
  | nil =>
    cases hs
    rwa [List.append_nil]
  | cons mv ms ih =>
    rw [Clients.moves] at hs
    split at hs
    · rename_i hn
      obtain ⟨⟨c₁, evs₁⟩, hs₁, hs⟩ := Option.bind_eq_some_iff.mp hs
      obtain ⟨⟨c₂, evs₂⟩, hs₂, he⟩ := Option.map_eq_some_iff.mp hs
      cases he
      rw [← List.append_assoc]
      refine ih (h.step (hrun.inv id h₀ hfree) hn hs₁) ?_ hs₂
      rw [← List.append_assoc]
      exact .move hrun hn hs₁
    · cases hs

/-- The store under a run of its clients is one that a history reaches. -/
theorem ClientRun.reach {s₀ : Sys} (h₀ : Reach crc (fun _ a => a.Nominal) (.running cfg s₀) ops₀)
    (h : ClientRun crc cfg (fun _ m => m.Nominal) s₀ c tr) :
    ∃ ops, Reach crc (fun _ a => a.Nominal) (.running cfg c.store) ops := by
  induction h with
  | start => exact ⟨ops₀, h₀⟩
  | move _ hn hs ih =>
    obtain ⟨ops, hreach⟩ := ih
    refine ⟨_, hreach.move (fun _ _ _ => trivial) ?_ hs⟩
    rintro act rfl
    exact hn

/-- Every append that has gone through its last section returned, or updated the index. -/
theorem ClientRun.applied {s₀ : Sys} (h₀ : Reach crc (fun _ a => a.Nominal) (.running cfg s₀) ops₀)
    (hfree : s₀.lock = .free) (h : ClientRun crc cfg (fun _ m => m.Nominal) s₀ c tr) (t : ℕ) :
    Applied c.store.lock.isWriting tr t (c.calls t) := by
  induction h generalizing t with
  | start => trivial
  | move hrun hn hs ih => exact Applied.step ih (hrun.inv id h₀ hfree).owner hn (clientStep_cases hs) t

/-- Between two appends, `open` recovers what the store answers. -/
theorem Reach.reopens {ops : List Command} (h : Reach crc (fun _ a => a.Nominal) (.running cfg s) ops)
    (hl : s.lock.inFlight = []) (hm : ∀ key, s.get crc key = some (.ok (m key)))
    {listing : List FileName} (hlist : (s.fs.create .lock).Lists listing) (now : ℕ) :
    ∃ s', (openStore crc listing now s.fs).result = .ok s' ∧
      ∀ key, s'.get crc key = some (.ok (m key)) := by
  have hinv := reach_inv (h.benign fun hn => hn.tidy).1
  obtain ⟨s', t, hopen, ht, hagrees⟩ := hinv.recovers hlist
  obtain rfl : t = [] := ht.elim id fun ht => ht.trans hl
  refine ⟨s', hopen, fun key => ?_⟩
  obtain ⟨v, hget, hv⟩ := hinv.agrees hl key
  obtain ⟨v', hget', hv'⟩ := hagrees key
  rw [List.append_nil, ← hv] at hv'
  rw [hget', Option.map_injective asBytes_injective hv', ← hget, hm]

end Calls

/-! ## The store is read-only -/

/-- An append that is over and has not returned is among the index updates. -/
def PanickedUpdated (c : Clients) (tr : List ClientEvent) : Prop :=
  ∀ t call, .invoked t (.append call) ∈ tr → c.calls t = .returned → (∀ r, .returned t r ∉ tr) →
    ∃ ts, .updated t (call.command ts) ∈ tr

/-- From `c`, where the writer lock was poisoned, to `c'`: every call made since answers as on the
map `m`, the writer state is as it was, no step ends a merge with `Ok`, and `open` recovers the map
from the directory. -/
structure ReadOnly (crc : Bytes → UInt32) (cfg : Config) (m : String → Option String)
    (c c' : Clients) (evs : List ClientEvent) : Prop where
  lock : c'.store.lock = .poisoned
  writer : c'.store.writer = c.store.writer
  merges : ∀ a s, step crc cfg c'.store a = some s → s.merge.result ≠ some (.ok ())
  holds : ∀ key, c'.store.get crc key = some (.ok (m key))
  answers : ∀ t call r, .invoked t call ∈ evs → .returned t r ∈ evs → r = poisonedAnswer m call
  reopens : ∀ listing now, (c'.store.fs.create .lock).Lists listing →
    ∃ s, (openStore crc listing now c'.store.fs).result = .ok s ∧
      ∀ key, s.get crc key = some (.ok (m key))

/-- Once a panic has poisoned the writer lock, and as long as no filesystem call fails, the store is
read-only for the rest of the session, whatever calls are made and whatever the compaction thread
still does: it holds the map of the index updates before the panic, that of the append that panicked
among them. -/
theorem poisoned_store_is_read_only {crc : Bytes → UInt32} {cfg : Config} {ops₀ : List Command}
    {s₀ : Sys} {c c' : Clients} {tr evs : List ClientEvent} {ms : List Move}
    (h₀ : Reach crc (fun _ a => a.Nominal) (.running cfg s₀) ops₀) (hfree : s₀.lock = .free)
    (h : ClientRun crc cfg (fun _ m => m.Nominal) s₀ c tr) (hp : c.store.lock = .poisoned)
    (hs : Clients.moves crc cfg (fun _ m => m.Nominal) ms c = some (c', evs)) :
    ∃ m, MapOf (ops₀ ++ updates tr) m ∧ PanickedUpdated c tr ∧ ReadOnly crc cfg m c c' evs := by
  have hinv := h.inv id h₀ hfree
  obtain ⟨recs, log, a, hl, -⟩ := hinv.link
  choose m hget hm using hl.get
  have hstart : Poisoned crc m c c [] :=
    ⟨hp, rfl, hget, rfl, fun t => by cases c.calls t <;> simp [Refusing], by simp⟩
  have htr : ClientRun crc cfg (fun _ m => m.Nominal) s₀ c (tr ++ []) := by rwa [List.append_nil]
  have hend : Poisoned crc m c c' evs := hstart.moves h₀ hfree htr hs
  have hrun := h.of_moves hs
  obtain ⟨ops, hreach⟩ := hrun.reach h₀
  refine ⟨m, hm, fun t call hi hret hnone => ?_, hend.lock, hend.writer,
    fun a s hstep => ((step_cases hstep).poisoned hend.lock).2.2, hend.holds, ?_,
    fun listing now hlist => ?_⟩
  · have happlied := h.applied h₀ hfree t
    rw [hret] at happlied
    obtain ⟨call', ts, hi', hu⟩ := happlied.resolve_left fun ⟨r, hr⟩ => hnone r hr
    obtain rfl := ClientCall.append.inj (invoked_unique hinv.once hi hi')
    exact ⟨ts, hu⟩
  · intro t call r hi hr
    cases r with
    | done r => exact hend.refuses.answers t call r hi hr
    | got r =>
      obtain ⟨key, v, rfl, rfl, hv⟩ := (hrun.inv id h₀ hfree).read_since hend.quiet hi hr
      rw [poisonedAnswer, Option.map_injective asBytes_injective (hv.trans (hm key).symm)]
  · exact hreach.reopens (by rw [hend.lock]; rfl) hend.holds hlist now

/-- The rotation after the first set reads the clock at 9, and `handle_policy` of the second set at
5. -/
def setThenClockBack : List Move :=
  [.invoke 0 (.append (.set "a" "1")), .run 0 0, .store (.write 27)] ++
    List.replicate 5 (.store (.writer 0)) ++ [.store (.writer 9), .store (.writer 9)] ++
    [.invoke 1 (.append (.set "a" "2")), .run 1 0, .store (.write 27), .store (.writer 9),
      .store (.writer 5)]

/-- One call of each kind, and a merge. -/
def callsSince : List Move :=
  [.invoke 2 (.get "a"), .run 2 0, .invoke 3 (.append (.set "a" "3")), .store .start, .run 3 0,
    .run 2 0, .invoke 4 (.append (.remove "a")), .run 4 0, .run 4 0, .run 2 0,
    .invoke 5 (.append (.remove "b")), .run 5 0]

theorem poisoned_store_is_read_only_clock : ∃ c tr c' evs,
    Clients.moves crc32 smallInterval (fun _ m => m.Nominal) setThenClockBack
      ⟨emptyStore crc32, fun _ => .unborn, none⟩ = some (c, tr) ∧ c.store.lock = .poisoned ∧
    Clients.moves crc32 smallInterval (fun _ m => m.Nominal) callsSince c = some (c', evs) ∧
    history evs = [.inv 2 (.get "a"), .inv 3 (.append (.set "a" "3")),
      .ret 3 (.done (.error .lockPoisoned)), .inv 4 (.append (.remove "a")),
      .ret 4 (.done (.error .lockPoisoned)), .ret 2 (.got (.ok (some "2"))),
      .inv 5 (.append (.remove "b")), .ret 5 (.done (.error .keyNotFound))] ∧
    updates tr = [.set 0 (asBytes "a") (asBytes "1"), .set 0 (asBytes "a") (asBytes "2")] ∧
    ∃ m, MapOf ([] ++ updates tr) m ∧ PanickedUpdated c tr ∧
      ReadOnly crc32 smallInterval m c c' evs := by
  have hrun : (Clients.moves crc32 smallInterval (fun _ m => m.Nominal) setThenClockBack
      ⟨emptyStore crc32, fun _ => .unborn, none⟩).any fun r => r.1.store.lock = .poisoned ∧
        updates r.2 = [.set 0 (asBytes "a") (asBytes "1"), .set 0 (asBytes "a") (asBytes "2")] ∧
        (Clients.moves crc32 smallInterval (fun _ m => m.Nominal) callsSince r.1).any fun r' =>
          history r'.2 = [.inv 2 (.get "a"), .inv 3 (.append (.set "a" "3")),
            .ret 3 (.done (.error .lockPoisoned)), .inv 4 (.append (.remove "a")),
            .ret 4 (.done (.error .lockPoisoned)), .ret 2 (.got (.ok (some "2"))),
            .inv 5 (.append (.remove "b")), .ret 5 (.done (.error .keyNotFound))] := by
    decide +kernel
  obtain ⟨⟨c, tr⟩, hm, hc⟩ := (Option.any_eq_true ..).mp hrun
  obtain ⟨hp, hu, hc⟩ := of_decide_eq_true hc
  obtain ⟨⟨c', evs⟩, hm', hc⟩ := (Option.any_eq_true ..).mp hc
  exact ⟨c, tr, c', evs, hm, hp, hm', of_decide_eq_true hc, hu,
    poisoned_store_is_read_only (.opened smallInterval .empty lists_empty (emptyStore_opened crc32))
      (by decide) (ClientRun.start.of_moves hm) hp hm'⟩

end Bitcask
