import Bitcask.Storage.Clients

/-!
# Reads

What a `get` answers while other calls and a merge run between its sections.

1. `published`: the index learns of an append in one step, and nothing else changes what the index
   says (`Link.advance`).
2. The handle of a file an entry points to stays in the readers map (`Rep.held_step`).
3. `ReadAt`: what a `get` has found at its lookup. `gets_linearizable` says that it is what the `get`
   answers, whatever happens between its sections.
-/

namespace Bitcask

open LittleEndian FileSystem SegmentedLog

/-! ## The store under its clients -/

section Store

variable {crc : Bytes → UInt32} {cfg : Config} {recs : Inode → List Command}
  {log pub : List Command} {s s' : Sys} {a : CompactingLog.State Bytes Bytes} {act : Act}

theorem published_of_lock (h : ∀ c done, s.lock ≠ .writing c done) : published crc s act = [] := by
  unfold published
  cases act with
  | writer now =>
    cases hl : s.lock with
    | writing c done => exact absurd hl (h c done)
    | _ => rfl
  | _ => rfl

theorem fresh_of_lock {l : Lock} (h : ∀ c done, l ≠ .writing c done) : l.fresh crc = [] :=
  Lock.fresh_eq_nil fun c => h c _

/-- A step that neither is a write nor an index update, and leaves no record half written. -/
theorem fresh_quiet (h : ∀ c done, s.lock ≠ .writing c done) (h' : ∀ c done, s'.lock ≠ .writing c done)
    (hl : logged crc s act = []) :
    published crc s act ++ s'.lock.fresh crc = s.lock.fresh crc ++ logged crc s act := by
  rw [published_of_lock h, fresh_of_lock h', fresh_of_lock h, hl]

theorem fresh_writerStep (hs : WriterStep crc cfg s act s') :
    published crc s act ++ s'.lock.fresh crc = s.lock.fresh crc ++ logged crc s act := by
  cases hs with
  | begin call ts hl =>
    show Lock.fresh crc (.writing (call.command ts) 0) = _ ++ []
    rw [Lock.fresh_writing_zero, hl]
    rfl
  | write c done n hl hn hm =>
    show Lock.fresh crc (.writing c (done + n)) = _
    simp only [logged, hl, Lock.fresh]
    rcases Nat.lt_or_ge done (c.serialize crc).length with hlt | hge
    · rw [if_neg (Nat.ne_of_lt hlt), List.nil_append]
      by_cases hd : done + n = (c.serialize crc).length
      · rw [if_pos hd, if_pos ⟨hlt, hd⟩]
      · rw [if_neg hd, if_neg fun h => hd h.2]
    · have hn0 : done + n = (c.serialize crc).length ∧ done = (c.serialize crc).length := by omega
      rw [if_pos hn0.1, if_pos hn0.2, if_neg fun h => absurd h.1 (Nat.not_lt_of_ge hge)]
      rfl
  | publish c now hl =>
    show published crc s (.writer now) ++ Lock.fresh crc (.policy c) = _ ++ []
    simp only [published, hl, Lock.fresh, if_true, List.append_nil]
  | failWrite c done e hl hn =>
    show [] ++ Lock.fresh crc .free = _ ++ []
    rw [hl, Lock.fresh, if_neg (Nat.ne_of_lt hn)]
    rfl
  | rotateReader next now caller i hl hi =>
    refine fresh_quiet (by simp [hl]) ?_ rfl
    cases caller with
    | append c => intro c done h; cases h
    | compaction =>
      unfold Sys.endRotate
      split <;> (intro c done h; cases h)
  | rotateMissing next now caller hl hi | failRotate st next caller e hl =>
    refine fresh_quiet (by simp [hl]) ?_ rfl
    cases caller <;> (intro c done h; cases h)
  | rotateCreate next now caller hl =>
    refine fresh_quiet (by simp [hl]) ?_ rfl
    intro c done h
    cases h
  | policySkip c now hl | policySync c now last hl | policyPanic c now hl | notFull c now hl
  | full c now hl | rotateSync next now caller hl | rotateClock next now caller hl
  | failPolicy c e hl => exact fresh_quiet (by simp [hl]) (by simp) rfl

/-- The records that stand in the active file and are not in the index yet. -/
theorem fresh_step (hs : Step crc cfg s act s') :
    published crc s act ++ s'.lock.fresh crc = s.lock.fresh crc ++ logged crc s act := by
  have hsame : s'.lock.fresh crc = s.lock.fresh crc → published crc s act = [] →
      logged crc s act = [] →
      published crc s act ++ s'.lock.fresh crc = s.lock.fresh crc ++ logged crc s act := by
    intro h hp hl
    rw [hp, hl, h, List.append_nil]
    rfl
  cases hs with
  | writer hw => exact fresh_writerStep hw
  | merge hm =>
    refine hsame ?_ rfl rfl
    rcases hm.lock_eq with h | ⟨h, h'⟩
    · rw [h]
    · rw [h, h']; rfl
  | startPanic last hm hl hs hn hz => exact hsame (by rw [hl]; rfl) rfl rfl
  | start last hm hl hs hn hz => exact hsame (by rw [hl]; rfl) rfl rfl
  | _ => exact hsame rfl rfl rfl

/-- One step of the store: the index knows of one more command exactly after an index update. -/
theorem Link.advance (h : Link crc cfg recs log pub s a) (hv : a.volatile = [])
    (hok : StepOk s act) (hs : Step crc cfg s act s') :
    ∃ recs' log' a', Link crc cfg recs' log' (pub ++ published crc s act) s' a' ∧
      a'.volatile = [] := by
  obtain ⟨recs', pub', a', hl', -, -, -⟩ := link_step h hok hs (fun _ _ _ => hv) <| by
    intro _ id ids stale hmerge
    have hphase := h.phase
    rw [hmerge] at hphase
    exact h.inv.survives hphase hv
  have hpub : pub' = pub ++ published crc s act := by
    have heq : pub' ++ s'.lock.fresh crc = (pub ++ published crc s act) ++ s'.lock.fresh crc := by
      rw [← hl'.fresh, h.fresh, List.append_assoc, List.append_assoc, fresh_step hs]
    exact List.append_cancel_right heq
  rw [hpub] at hl'
  exact ⟨recs', _, _, hl'.synced, by rfl⟩

end Store

/-! ## Handles stay -/

section Handles

variable {crc : Bytes → UInt32} {cfg : Config} {recs : Inode → List Command} {s s' : Sys} {a : Act}
  {id : ℕ} {i : Inode}

/-- A step that leaves the readers map, the active file and the renamed output alone. -/
theorem Held.congr (h : Held s id i) (hr : s'.readers = s.readers)
    (hop : s'.lock.opening = true → s.lock.opening = true)
    (hcur : s'.writer.currentFileId = s.writer.currentFileId)
    (hren : ∀ out, s'.merge.renamed = some out → s.merge.renamed = some out) : Held s' id i where
  reader := by rw [hr]; exact h.reader
  opening ho := by rw [hcur]; exact h.opening (hop ho)
  renamed out ho := h.renamed out (hren out ho)

theorem Rep.held_writerStep (h : Rep crc cfg recs s) (hs : WriterStep crc cfg s a s')
    (hh : Held s id i) : Held s' id i := by
  have hlr := h.lock
  cases hs with
  | rotateCreate next now caller hl =>
    -- the id of the new file is above those of all handles
    rw [hl] at hlr
    have hle := h.core.rd_le hh.handles
    exact ⟨hh.reader, fun _ => Nat.ne_of_lt (hle.trans_lt hlr.2), hh.renamed⟩
  | rotateReader next now caller j hl hj =>
    rw [hl] at hlr
    have hne : id ≠ next := by
      rw [hlr.2.2]
      exact hh.opening (by rw [hl]; rfl)
    have hr : (s.readersUpdate next j).readers[id]? = some i :=
      (readers_insert_ne hne).trans hh.reader
    cases caller with
    | append c => exact ⟨hr, (fun ho => by cases ho), hh.renamed⟩
    | compaction =>
      unfold Sys.endRotate
      split
      · exact ⟨hr, (fun ho => by cases ho), fun out ho => by cases ho⟩
      · exact ⟨hr, (fun ho => by cases ho), hh.renamed⟩
  | rotateMissing next now caller hl hj | failRotate st next caller e hl =>
    cases caller with
    | append c => exact hh.congr rfl (fun ho => by cases ho) rfl fun _ ho => ho
    | compaction => exact hh.congr rfl (fun ho => by cases ho) rfl fun _ ho => by cases ho
  | rotateClock next now caller hl =>
    exact hh.congr rfl (fun _ => by rw [hl]; rfl) rfl fun _ ho => ho
  | _ => exact hh.congr rfl (fun ho => by cases ho) rfl fun _ ho => ho

theorem Rep.held_mergeStep (h : Rep crc cfg recs s) (hs : MergeStep crc cfg s s')
    (hh : Held s id i) : Held s' id i := by
  have hmr := h.merge
  cases hs with
  | rename r out j hm hj =>
    -- the id of the output was free
    rw [hm] at hmr
    obtain ⟨hout, -, -, bar, hrun⟩ := hmr
    have hfree : s.handles out.id = none := hrun.output_free hout.id_eq
    refine ⟨hh.reader, hh.opening, fun out' ho => ?_⟩
    obtain rfl := Option.some.inj ho
    rintro rfl
    rw [hh.handles] at hfree; cases hfree
  | reader r out j hm hj =>
    have hne : id ≠ out.id := hh.renamed out (by rw [hm]; rfl)
    exact ⟨(readers_insert_ne hne).trans hh.reader, hh.opening, fun _ ho => by cases ho⟩
  | subtractPanic stale hm hl hs =>
    exact hh.congr rfl (fun ho => by cases ho) rfl fun _ ho => by cases ho
  | _ => exact hh.congr rfl (fun ho => ho) rfl fun _ ho => by cases ho

/-- No step takes a file out of the readers map or puts another one in its place. -/
theorem Rep.held_step (h : Rep crc cfg recs s) (hs : Step crc cfg s a s') (hh : Held s id i) :
    Held s' id i := by
  cases hs with
  | writer hw => exact h.held_writerStep hw hh
  | merge hm => exact h.held_mergeStep hm hh
  | startNot last res hm hl hres hn => exact hh.congr rfl (fun ho => ho) rfl fun _ ho => by cases ho
  | startPanic last hm hl hs hn hz =>
    exact hh.congr rfl (fun ho => by cases ho) rfl fun _ ho => by cases ho
  | start last hm hl hs hn hz =>
    exact hh.congr rfl (fun ho => by cases ho) rfl fun _ ho => by cases ho
  | spill out n m ho =>
    -- the output keeps its id
    refine ⟨hh.reader, hh.opening, fun out' ho' => ?_⟩
    cases hm : s.merge with
    | finish st r o =>
      rw [hm] at ho
      obtain rfl := Option.some.inj ho
      cases st with
      | reader =>
        simp only [hm, Sys.withOutput, Merge.renamed, Option.some.injEq] at ho'
        rw [← ho']
        exact hh.renamed o (by rw [hm]; rfl)
      | _ => simp [hm, Sys.withOutput, Merge.renamed] at ho'
    | nextFile r o =>
      rw [hm] at ho
      obtain rfl : o = some out := ho
      simp [hm, Sys.withOutput, Merge.renamed] at ho'
    | _ => simp [hm, Sys.withOutput, Merge.renamed] at ho'
  | mergeErr e data hint hc ho => exact hh.congr rfl (fun ho => ho) rfl fun _ ho => by cases ho
  | outputErr out e data hint hc ho => exact hh.congr rfl (fun ho => ho) rfl fun _ ho => by cases ho

end Handles

/-! ## What a `get` finds -/

/-- The `get` of `key` by the call `t` looked the key up once, at a moment at which the index updates
gave it the value `v`. -/
def ReadAt (ops₀ : List Command) (tr : List ClientEvent) (t : ℕ) (key : String)
    (v : Option String) : Prop :=
  ∃ pre post, tr = pre ++ .looked t key :: post ∧ .invoked t (.get key) ∈ pre ∧
    (∀ k, .looked t k ∉ pre ∧ .looked t k ∉ post) ∧
    v.map asBytes = valueOf (asBytes key) (ops₀ ++ updates pre)

/-- The bytes the entry points to are there and hold the value. -/
structure Found (crc : Bytes → UInt32) (s : Sys) (e : IndexValue) (i : Inode) (v : String) :
    Prop where
  lt : i < s.fs.next
  le : e.offset + e.len ≤ (s.fs.bytes i).length
  value : readValue crc (s.fs.bytes i) e = .ok (some v)

/-- What holds of a `get` that is midway. -/
def Getting (crc : Bytes → UInt32) (ops₀ : List Command) (s : Sys) (tr : List ClientEvent) (t : ℕ) :
    Progress → Prop
  | .unborn => ∀ ev ∈ tr, ev.call ≠ t
  | .lookup key => .invoked t (.get key) ∈ tr ∧ ∀ k, .looked t k ∉ tr
  | .load key e => ∃ i v, Held s e.fileId i ∧ Found crc s e i v ∧ ReadAt ops₀ tr t key (some v)
  | .pread key e i => ∃ v, Found crc s e i v ∧ ReadAt ops₀ tr t key (some v)
  | _ => True

section Getting

variable {crc : Bytes → UInt32} {cfg : Config} {recs : Inode → List Command}
  {ops₀ log pub : List Command} {s s' : Sys} {a : Act} {tr evs : List ClientEvent} {t : ℕ}
  {key : String} {e : IndexValue} {i : Inode} {p : Progress}

theorem updates_append (tr evs : List ClientEvent) : updates (tr ++ evs) = updates tr ++ updates evs :=
  List.filterMap_append

/-- A file that has grown reads the same. -/
theorem readValue_of_extends {b b' : Bytes} (hp : b <+: b') (hle : e.offset + e.len ≤ b.length) :
    readValue crc b' e = readValue crc b e := by
  obtain ⟨rest, rfl⟩ := hp
  have hslice : slice (b ++ rest) e.offset (e.offset + e.len) = slice b e.offset (e.offset + e.len) := by
    unfold slice
    rw [List.take_append_of_le_length hle]
  unfold readValue
  rw [hslice, if_neg (Nat.not_lt_of_le hle), List.length_append, if_neg (by omega)]

theorem Found.step {v : String} (h : Found crc s e i v) (hs : Step crc cfg s a s') :
    Found crc s' e i v := by
  obtain ⟨hp, -⟩ := hs.grows.2 i h.lt
  exact ⟨h.lt.trans_le hs.grows.1, h.le.trans hp.length_le,
    (readValue_of_extends hp h.le).trans h.value⟩

theorem ReadAt.append {v : Option String} (h : ReadAt ops₀ tr t key v)
    (hev : ∀ k, .looked t k ∉ evs) : ReadAt ops₀ (tr ++ evs) t key v := by
  obtain ⟨pre, post, rfl, hinv, hno, hv⟩ := h
  refine ⟨pre, post ++ evs, by simp, hinv, fun k => ⟨(hno k).1, ?_⟩, hv⟩
  intro hk
  rcases List.mem_append.mp hk with hk | hk
  · exact (hno k).2 hk
  · exact hev k hk

/-- A lookup that finds what the index updates say. -/
theorem ReadAt.looked {v : Option String} (h : Getting crc ops₀ s tr t (.lookup key))
    (hv : v.map asBytes = valueOf (asBytes key) (ops₀ ++ updates tr)) :
    ReadAt ops₀ (tr ++ [.looked t key]) t key v :=
  ⟨tr, [], rfl, h.1, fun k => ⟨h.2 k, by simp⟩, hv⟩

/-- A step of the store does not disturb a `get`. -/
theorem Getting.step (h : Getting crc ops₀ s tr t p) (hr : Rep crc cfg recs s)
    (hs : Step crc cfg s a s') : Getting crc ops₀ s' tr t p := by
  cases p with
  | load key e =>
    obtain ⟨i, v, hh, hf, hread⟩ := h
    exact ⟨i, v, hr.held_step hs hh, hf.step hs, hread⟩
  | pread key e i =>
    obtain ⟨v, hf, hread⟩ := h
    exact ⟨v, hf.step hs, hread⟩
  | _ => exact h

/-- The events of other calls do not disturb a `get`. -/
theorem Getting.append (h : Getting crc ops₀ s tr t p) (hev : ∀ ev ∈ evs, ev.call ≠ t) :
    Getting crc ops₀ s (tr ++ evs) t p := by
  have hno : ∀ k, ClientEvent.looked t k ∉ evs := fun k hk => hev _ hk rfl
  cases p with
  | unborn =>
    intro ev hmem
    rcases List.mem_append.mp hmem with hmem | hmem
    · exact h ev hmem
    · exact hev ev hmem
  | lookup key =>
    refine ⟨List.mem_append_left _ h.1, fun k hk => ?_⟩
    rcases List.mem_append.mp hk with hk | hk
    · exact h.2 k hk
    · exact hno k hk
  | load key e =>
    obtain ⟨i, v, hh, hf, hread⟩ := h
    exact ⟨i, v, hh, hf, hread.append hno⟩
  | pread key e i =>
    obtain ⟨v, hf, hread⟩ := h
    exact ⟨v, hf, hread.append hno⟩
  | _ => trivial

/-- What the index lookup of a `get` finds is the value of the key after the index updates. -/
theorem Link.found {a : CompactingLog.State Bytes Bytes} (h : Link crc cfg recs log pub s a)
    (he : s.index.get (asBytes key) = some e) : ∃ i v, Held s e.fileId i ∧ Found crc s e i v ∧
      (some v).map asBytes = valueOf (asBytes key) pub := by
  obtain ⟨i, v, hh, hle, hread, hv⟩ := h.looked he
  exact ⟨i, v, hh, ⟨h.rep.core.rd_lt hh.handles, hle, hread⟩, hv⟩

end Getting

/-! ## The invariant -/

/-- The call a call event invokes. -/
def ClientEvent.invocation : ClientEvent → Option ℕ
  | .invoked t _ => some t
  | _ => none

/-- What holds after every move of the clients. -/
structure Clients.Inv (crc : Bytes → UInt32) (cfg : Config) (ops₀ : List Command) (c : Clients)
    (tr : List ClientEvent) : Prop where
  link : ∃ recs log a, Link crc cfg recs log (ops₀ ++ updates tr) c.store a ∧ a.volatile = []
  tight : Tight c.store
  owner : c.Owner
  gets : ∀ t, Getting crc ops₀ c.store tr t (c.calls t)
  answers : ∀ {pre t r post}, tr = pre ++ .returned t (.got r) :: post →
    ∃ key v, r = .ok v ∧ ReadAt ops₀ pre t key v
  once : (tr.filterMap ClientEvent.invocation).Nodup

section Inv

variable {crc : Bytes → UInt32} {cfg : Config} {ops₀ : List Command} {c c' : Clients}
  {tr evs : List ClientEvent} {m : Move} {s : Sys} {a : Act} {t : ℕ}

/-- More events: the answers among them have to be right. -/
theorem answers_append
    (h : ∀ {pre t r post}, tr = pre ++ .returned t (.got r) :: post →
      ∃ key v, r = .ok v ∧ ReadAt ops₀ pre t key v)
    (hev : ∀ {pre t r post}, evs = pre ++ .returned t (.got r) :: post →
      ∃ key v, r = .ok v ∧ ReadAt ops₀ (tr ++ pre) t key v)
    {pre post : List ClientEvent} {r : Except KvsError (Option String)}
    (heq : tr ++ evs = pre ++ .returned t (.got r) :: post) :
    ∃ key v, r = .ok v ∧ ReadAt ops₀ pre t key v := by
  rcases List.append_eq_append_iff.mp heq with ⟨as, rfl, hevs⟩ | ⟨bs, htr, hpost⟩
  · exact hev hevs
  · cases bs with
    | nil =>
      rw [List.append_nil] at htr
      subst htr
      have hpost' : evs = [] ++ .returned t (.got r) :: post := hpost.symm
      have := hev hpost'
      rwa [List.append_nil] at this
    | cons b bs =>
      obtain ⟨rfl, rfl⟩ := List.cons.inj hpost
      exact h htr

theorem answers_none (hev : ∀ t r, .returned t (.got r) ∉ evs) {pre post : List ClientEvent}
    {r : Except KvsError (Option String)} (heq : evs = pre ++ .returned t (.got r) :: post) :
    ∃ key v, r = .ok v ∧ ReadAt ops₀ (tr ++ pre) t key v :=
  absurd (by rw [heq]; simp) (hev t r)

theorem published_of_inFlight (hf : s.lock.inFlight = []) : published crc s a = [] := by
  refine published_of_lock fun c done hl => ?_
  rw [hl] at hf; cases hf

/-- An index update is the step of the lock holder after the last byte of its record. -/
theorem published_cases {s' : Sys} (hs : Step crc cfg s a s') : published crc s a = [] ∨
    ∃ c, published crc s a = [c] ∧ s.lock = .writing c (c.serialize crc).length ∧
      s'.lock = .policy c := by
  by_cases hne : published crc s a = []
  · exact Or.inl hne
  · right
    cases hs with
    | writer hw =>
      cases hw with
      | publish c now hl =>
        refine ⟨c, ?_, hl, rfl⟩
        unfold published
        simp only [hl, if_true]
      | begin | write | failWrite | failPolicy | failRotate => exact absurd rfl hne
      | policySkip c now hl | policySync c now last hl | policyPanic c now hl | notFull c now hl
      | full c now hl | rotateSync next now caller hl | rotateCreate next now caller hl
      | rotateClock next now caller hl | rotateReader next now caller i hl
      | rotateMissing next now caller hl =>
        exact absurd (published_of_lock (by simp [hl])) hne
    | _ => exact absurd rfl hne

/-- An index update does not end the append. -/
theorem published_of_finish {s' : Sys} (hs : Step crc cfg s a s') (hf : s'.lock.inFlight = []) :
    published crc s a = [] := by
  rcases published_cases hs with hpub | ⟨cmd, -, -, hl⟩
  · exact hpub
  · rw [hl] at hf
    cases hf

theorem updates_map (t : ℕ) (cs : List Command) : updates (cs.map (.updated t)) = cs := by
  unfold updates
  rw [List.filterMap_map]
  exact List.filterMap_some

/-- What a step of the store keeps, whoever takes it. -/
theorem Clients.Inv.act (h : c.Inv crc cfg ops₀ tr) (hn : a.Nominal) (hfits : a.Fits)
    (hs : Step crc cfg c.store a s) :
    (∃ recs log a', Link crc cfg recs log (ops₀ ++ updates tr ++ published crc c.store a) s a' ∧
      a'.volatile = []) ∧ Tight s ∧ ∀ t, Getting crc ops₀ s tr t (c.calls t) := by
  obtain ⟨recs, log, a', hl, hv⟩ := h.link
  exact ⟨hl.advance hv (h.tight.stepOk hn.tidy hfits hs) hs, tight_step hl.rep h.tight hn.tidy hs,
    fun t => (h.gets t).step hl.rep hs⟩

/-- A section of a call that leaves the store alone. -/
theorem Clients.Inv.advance (h : c.Inv crc cfg ops₀ tr) {p : Progress}
    (ht : ∀ call, c.calls t ≠ .appending call) (hp : ∀ call, p ≠ .appending call)
    (hcall : ∀ ev ∈ evs, ev.call = t) (hupd : updates evs = [])
    (honce : evs.filterMap ClientEvent.invocation = [])
    (hget : Getting crc ops₀ c.store (tr ++ evs) t p)
    (hans : ∀ {pre t r post}, evs = pre ++ .returned t (.got r) :: post →
      ∃ key v, r = .ok v ∧ ReadAt ops₀ (tr ++ pre) t key v) :
    (c.advance t p).Inv crc cfg ops₀ (tr ++ evs) where
  link := by
    rw [updates_append, hupd, List.append_nil]
    exact h.link
  tight := h.tight
  owner := h.owner.advance ht hp
  gets t' := by
    by_cases he : t' = t
    · subst he
      rw [c.calls_advance_self]
      exact hget
    · rw [c.calls_advance_ne he]
      refine (h.gets t').append fun ev hev => ?_
      rw [hcall ev hev]
      exact Ne.symm he
  answers := answers_append h.answers hans
  once := by
    rw [List.filterMap_append, honce, List.append_nil]
    exact h.once

/-- A step of the store that belongs to call `t`. -/
theorem Clients.Inv.acted (h : c.Inv crc cfg ops₀ tr) (hn : a.Nominal) (hfits : a.Fits)
    (hs : Step crc cfg c.store a c'.store) (howner : c'.Owner)
    (hother : ∀ t', t' ≠ t → c'.calls t' = c.calls t')
    (hself : Getting crc ops₀ c'.store (tr ++ evs) t (c'.calls t))
    (hcall : ∀ ev ∈ evs, ev.call = t) (hupd : updates evs = published crc c.store a)
    (honce : evs.filterMap ClientEvent.invocation = [])
    (hans : ∀ t r, .returned t (.got r) ∉ evs) : c'.Inv crc cfg ops₀ (tr ++ evs) := by
  obtain ⟨hlink, ht, hgets⟩ := h.act hn hfits hs
  refine ⟨?_, ht, howner, fun t' => ?_, answers_append h.answers (answers_none hans), ?_⟩
  · rw [updates_append, hupd, ← List.append_assoc]
    exact hlink
  · by_cases he : t' = t
    · subst he
      exact hself
    · rw [hother t' he]
      refine (hgets t').append fun ev hev => ?_
      rw [hcall ev hev]
      exact Ne.symm he
  · rw [List.filterMap_append, honce, List.append_nil]
    exact h.once

/-- A fresh call has not looked anything up. -/
theorem Getting.start (h : Getting crc ops₀ s tr t .unborn) (call : ClientCall) :
    Getting crc ops₀ s (tr ++ [.invoked t call]) t call.start := by
  rcases call with key | ⟨key, value⟩ | key
  · refine ⟨by simp, fun k hk => ?_⟩
    rcases List.mem_append.mp hk with hk | hk
    · exact h _ hk rfl
    · cases List.mem_singleton.mp hk
  · trivial
  · trivial

/-- A call is invoked once. -/
theorem Clients.Inv.once_invoke (h : c.Inv crc cfg ops₀ tr) (hp : c.calls t = .unborn)
    (call : ClientCall) :
    ((tr ++ [ClientEvent.invoked t call]).filterMap ClientEvent.invocation).Nodup := by
  have hget := h.gets t
  rw [hp] at hget
  rw [List.filterMap_append, List.nodup_append]
  refine ⟨h.once, by simp [ClientEvent.invocation], fun x hx y hy => ?_⟩
  obtain ⟨ev, hev, hinv⟩ := List.mem_filterMap.mp hx
  obtain rfl : y = t := by simpa [ClientEvent.invocation] using hy
  rintro rfl
  refine hget ev hev ?_
  cases ev with
  | invoked t' call' => exact Option.some.inj hinv
  | _ => cases hinv

theorem Clients.Inv.invoke (h : c.Inv crc cfg ops₀ tr) (hp : c.calls t = .unborn)
    (call : ClientCall) (howner : (c.advance t call.start).Owner) :
    (c.advance t call.start).Inv crc cfg ops₀ (tr ++ [.invoked t call]) where
  link := by
    rw [updates_append, show updates [.invoked t call] = [] from rfl, List.append_nil]
    exact h.link
  tight := h.tight
  owner := howner
  gets t' := by
    by_cases he : t' = t
    · subst he
      have hget := h.gets t'
      rw [hp] at hget
      rw [c.calls_advance_self]
      exact hget.start call
    · rw [c.calls_advance_ne he]
      refine (h.gets t').append fun ev hev => ?_
      rw [List.mem_singleton.mp hev]
      exact Ne.symm he
  answers := answers_append h.answers (answers_none (by simp))
  once := h.once_invoke hp call

/-- `None` is answered when the index has no entry. -/
theorem Clients.Inv.missing (h : c.Inv crc cfg ops₀ tr) {key : String}
    (hp : c.calls t = .lookup key) (hi : c.store.index.get (asBytes key) = none) :
    (c.advance t .returned).Inv crc cfg ops₀
      (tr ++ [.looked t key, .returned t (.got (.ok none))]) := by
  have hget := h.gets t
  rw [hp] at hget
  obtain ⟨recs, log, a', hl, -⟩ := h.link
  refine h.advance (by simp [hp]) (by simp) (by simp [ClientEvent.call]) rfl rfl trivial ?_
  intro pre t' r post heq
  obtain ⟨rfl, rfl, rfl⟩ : pre = [.looked t key] ∧ t' = t ∧ r = .ok none := by
    rcases pre with _ | ⟨x, _ | ⟨y, pre⟩⟩
    · simp at heq
    · simp at heq
      obtain ⟨rfl, ⟨rfl, rfl⟩, -⟩ := heq
      exact ⟨rfl, rfl, rfl⟩
    · simp at heq
  exact ⟨key, none, rfl, .looked hget (hl.represents.get_eq_none_iff.mp hi).symm⟩

theorem Clients.Inv.found (h : c.Inv crc cfg ops₀ tr) {key : String} {e : IndexValue}
    (hp : c.calls t = .lookup key) (hi : c.store.index.get (asBytes key) = some e) :
    (c.advance t (.load key e)).Inv crc cfg ops₀ (tr ++ [.looked t key]) := by
  have hget := h.gets t
  rw [hp] at hget
  obtain ⟨recs, log, a', hl, -⟩ := h.link
  obtain ⟨i, v, hh, hf, hv⟩ := hl.found hi
  refine h.advance (by simp [hp]) (by simp) (by simp [ClientEvent.call]) rfl rfl
    ⟨i, v, hh, hf, .looked hget hv⟩ fun {pre t' r post} heq => ?_
  have hmem : ClientEvent.returned t' (.got r) ∈ [ClientEvent.looked t key] := by rw [heq]; simp
  cases List.mem_singleton.mp hmem

/-- The reader of a looked-up file is still in the map, so the `get` does not retry. -/
theorem Clients.Inv.reader_ne_none (h : c.Inv crc cfg ops₀ tr) {key : String} {e : IndexValue}
    (hp : c.calls t = .load key e) : c.store.readers[e.fileId]? ≠ none := by
  have hget := h.gets t
  rw [hp] at hget
  obtain ⟨i, v, hh, -⟩ := hget
  rw [hh.reader]
  exact Option.some_ne_none i

theorem Clients.Inv.load (h : c.Inv crc cfg ops₀ tr) {key : String} {e : IndexValue} {i : Inode}
    (hp : c.calls t = .load key e) (hr : c.store.readers[e.fileId]? = some i) :
    (c.advance t (.pread key e i)).Inv crc cfg ops₀ (tr ++ []) := by
  have hget := h.gets t
  rw [hp] at hget
  obtain ⟨j, v, hh, hf, hread⟩ := hget
  obtain rfl : j = i := Option.some.inj (hh.reader.symm.trans hr)
  refine h.advance (by simp [hp]) (by simp) (by simp) rfl rfl ⟨v, hf, ?_⟩ (by simp)
  rw [List.append_nil]
  exact hread

/-- The answer is the value that was looked up. -/
theorem Clients.Inv.pread (h : c.Inv crc cfg ops₀ tr) {key : String} {e : IndexValue} {i : Inode}
    (hp : c.calls t = .pread key e i) :
    (c.advance t .returned).Inv crc cfg ops₀
      (tr ++ [.returned t (.got (readValue crc (c.store.fs.bytes i) e))]) := by
  have hget := h.gets t
  rw [hp] at hget
  obtain ⟨v, hf, hread⟩ := hget
  refine h.advance (by simp [hp]) (by simp) (by simp [ClientEvent.call]) rfl rfl trivial ?_
  intro pre t' r post heq
  obtain ⟨rfl, rfl, rfl⟩ : pre = [] ∧ t' = t ∧ r = .ok (some v) := by
    rcases pre with _ | ⟨x, pre⟩
    · simp [hf.value] at heq
      exact ⟨rfl, heq.1.1.symm, heq.1.2.symm⟩
    · simp at heq
  rw [List.append_nil]
  exact ⟨key, some v, rfl, hread⟩

/-- The lock's holder goes on with its append. -/
theorem Clients.Inv.append (h : c.Inv crc cfg ops₀ tr) (hn : a.Nominal) (hfits : a.Fits)
    (hs : Step crc cfg c.store a s) (hh : c.holder = some t)
    (howner : Clients.Owner { c with store := s }) :
    Clients.Inv crc cfg ops₀ { c with store := s }
      (tr ++ (published crc c.store a).map (.updated t)) := by
  have hev : ∀ ev ∈ (published crc c.store a).map (ClientEvent.updated t),
      ∃ cmd, ev = .updated t cmd := by
    intro ev hev
    obtain ⟨cmd, -, rfl⟩ := List.mem_map.mp hev
    exact ⟨cmd, rfl⟩
  refine h.acted (t := t) hn hfits hs howner (fun _ _ => rfl) ?_ (fun ev hmem => ?_) (updates_map t _) ?_
    fun t' r hmem => ?_
  · obtain ⟨call, ts, hc, -⟩ := h.owner.held t hh
    show Getting crc ops₀ s _ t (c.calls t)
    rw [hc]
    trivial
  · obtain ⟨cmd, rfl⟩ := hev ev hmem
    rfl
  · refine List.filterMap_eq_nil_iff.mpr fun ev hmem => ?_
    obtain ⟨cmd, rfl⟩ := hev ev hmem
    rfl
  · obtain ⟨cmd, he⟩ := hev _ hmem
    cases he

/-- The lock's holder lets go: its call returns, or has panicked. -/
theorem Clients.Inv.finish (h : c.Inv crc cfg ops₀ tr) (hn : a.Nominal) (hfits : a.Fits)
    (hs : Step crc cfg c.store a s) (hf : s.lock.inFlight = [])
    (howner : Clients.Owner { c.advance t .returned with store := s, holder := none }) :
    Clients.Inv crc cfg ops₀ { c.advance t .returned with store := s, holder := none }
      (tr ++ if s.lock = .poisoned then [] else [.returned t (.done (c.store.outcome a))]) := by
  refine h.acted (t := t) hn hfits hs howner (fun t' he => c.calls_advance_ne he _) ?_ ?_ ?_ ?_ ?_
  · rw [show _ = Progress.returned from c.calls_advance_self t _]
    trivial
  · split <;> simp [ClientEvent.call]
  · rw [published_of_finish hs hf]
    split <;> rfl
  · split <;> rfl
  · split <;> simp

/-- What one move preserves. -/
theorem Clients.Inv.step (h : c.Inv crc cfg ops₀ tr) (hn : m.Nominal)
    (hs : ClientStep crc cfg c m c' evs) : c'.Inv crc cfg ops₀ (tr ++ evs) := by
  have howner := h.owner.step hs
  cases hs with
  | invoke t call hp => exact h.invoke hp call howner
  | missing t ts key hp hi => exact h.missing hp hi
  | found t ts key e hp hi => exact h.found hp hi
  | retry t ts key e hp hr => exact absurd hr (h.reader_ne_none hp)
  | load t ts key e i hp hr => exact h.load hp hr
  | pread t ts key e i hp => exact h.pread hp
  | absent t ts key hp hi =>
    exact h.advance (by simp [hp]) (by simp) (by simp [ClientEvent.call]) rfl rfl trivial
      (answers_none (by simp))
  | present t ts key e hp hi =>
    exact h.advance (by simp [hp]) (by simp) (by simp) rfl rfl trivial (answers_none (by simp))
  | poisoned t ts call hp hl =>
    exact h.advance (by simp [hp]) (by simp) (by simp [ClientEvent.call]) rfl rfl trivial
      (answers_none (by simp))
  | begin t ts call s hp hs hf =>
    refine h.acted (t := t) (show (Act.begin call ts).Nominal from trivial) hf hs howner
      (fun t' he => c.calls_advance_ne he _) ?_ (by simp) rfl rfl (by simp)
    rw [show _ = Progress.appending call from c.calls_advance_self t _]
    trivial
  | other a s hb hs hh =>
    -- nobody appends, so nothing is published
    obtain ⟨hlink, ht, hgets⟩ := h.act hn (Act.fits_of_ne hb) hs
    rw [published_of_inFlight (h.owner.free hh), List.append_nil] at hlink
    rw [List.append_nil]
    exact ⟨hlink, ht, howner, hgets, h.answers, h.once⟩
  | append a s t hb hs hh hf => exact h.append hn (Act.fits_of_ne hb) hs hh howner
  | finish a s t hb hs hh hf => exact h.finish hn (Act.fits_of_ne hb) hs hf howner

/-- What every run of the clients preserves. -/
theorem ClientRun.inv {s₀ : Sys} {P : Clients → Move → Prop} (hP : ∀ {c m}, P c m → m.Nominal)
    (h₀ : Reach crc (fun _ a => a.Nominal) (.running cfg s₀) ops₀) (hfree : s₀.lock = .free)
    (h : ClientRun crc cfg P s₀ c tr) : c.Inv crc cfg ops₀ tr := by
  induction h with
  | start =>
    obtain ⟨hok, ht⟩ := h₀.benign fun hn => hn.tidy
    obtain ⟨-, recs, pub, a, hl, hv⟩ := reach_inv hok
    have hpub : pub = ops₀ := by
      have hfresh := hl.fresh
      rw [hfree] at hfresh
      simpa [Lock.written, Lock.inFlight, Lock.fresh] using hfresh.symm
    have hl' : Link crc cfg recs (ops₀ ++ s₀.lock.written crc) (ops₀ ++ updates []) s₀ a := by
      have hupd : ops₀ ++ updates [] = pub := (List.append_nil ops₀).trans hpub.symm
      rw [hupd]
      exact hl
    have howner : Clients.Owner ⟨s₀, fun _ => .unborn, none⟩ :=
      ⟨fun _ => by rw [hfree]; rfl, by simp, by simp⟩
    exact ⟨⟨recs, _, a, hl', hv⟩, ht cfg s₀ rfl, howner, fun t => by simp [Getting], by simp, by simp⟩
  | move _ hp hs ih => exact ih.step (hP hp) (clientStep_cases hs)

end Inv

/-! ## Gets -/

/-- The sections a `get` has before it. -/
def Progress.left : Progress → ℕ
  | .lookup _ => 3
  | .load _ _ => 2
  | .pread _ _ _ => 1
  | _ => 0

/-- Every `get` answers with the value its key had at its lookup. -/
def AnswersAtLookup (ops₀ : List Command) (tr : List ClientEvent) : Prop :=
  ∀ pre t r post, tr = pre ++ .returned t (.got r) :: post →
    ∃ key v, r = .ok v ∧ ReadAt ops₀ pre t key v

/-- A `get` that is invoked after another one has returned does not see an older state of the
key. -/
def NeverBack (ops₀ : List Command) (tr : List ClientEvent) : Prop :=
  ∀ pre₁ t₁ r₁ post₁ pre₂ t₂ r₂ post₂ key, tr = pre₁ ++ .returned t₁ (.got r₁) :: post₁ →
    tr = pre₂ ++ .returned t₂ (.got r₂) :: post₂ → .invoked t₁ (.get key) ∈ tr →
    .invoked t₂ (.get key) ∈ post₁ → ∃ us₁ us₂ v₁ v₂, us₁ <+: us₂ ∧ us₂ <+: updates tr ∧
      r₁ = .ok v₁ ∧ v₁.map asBytes = valueOf (asBytes key) (ops₀ ++ us₁) ∧
      r₂ = .ok v₂ ∧ v₂.map asBytes = valueOf (asBytes key) (ops₀ ++ us₂)

/-- A `get` is never blocked and never looks its key up again: each of its sections can be taken and
brings it closer to its return, and the moves of others leave it where it is. -/
def GetsReturn (crc : Bytes → UInt32) (cfg : Config) (c : Clients) : Prop :=
  ∀ t, 0 < (c.calls t).left →
    (∀ ts, ∃ c' evs, c.step crc cfg (.run t ts) = some (c', evs) ∧
      (c'.calls t).left < (c.calls t).left ∧
      ((c'.calls t).left = 0 → ∃ v, .returned t (.got (.ok v)) ∈ evs)) ∧
    ∀ m c' evs, (∀ ts, m ≠ .run t ts) → c.step crc cfg m = some (c', evs) → c'.calls t = c.calls t

/-- Of all steps of the store, only the index update of an append changes what `get` answers. -/
def OnlyAppendsSeen (crc : Bytes → UInt32) (cfg : Config) (s : Sys) : Prop :=
  ∀ a s', a.Nominal → step crc cfg s a = some s' → published crc s a = [] →
    ∀ key, s'.get crc key = s.get crc key

section Gets

variable {crc : Bytes → UInt32} {cfg : Config} {ops₀ : List Command} {c : Clients}
  {tr : List ClientEvent} {s₀ : Sys}

theorem invoked_unique (h : (tr.filterMap ClientEvent.invocation).Nodup) {t : ℕ}
    {call call' : ClientCall} (h₁ : .invoked t call ∈ tr) (h₂ : .invoked t call' ∈ tr) :
    call = call' := by
  induction tr with
  | nil => cases h₁
  | cons ev tr ih =>
    have hmem : ∀ {call}, ClientEvent.invoked t call ∈ tr → t ∈ tr.filterMap ClientEvent.invocation :=
      fun hm => List.mem_filterMap.mpr ⟨_, hm, rfl⟩
    rcases List.mem_cons.mp h₁ with rfl | h₃
    · rcases List.mem_cons.mp h₂ with he | h₄
      · exact (ClientEvent.invoked.inj he).2.symm
      · exact absurd (hmem h₄) (List.nodup_cons.mp h).1
    · rcases List.mem_cons.mp h₂ with rfl | h₄
      · exact absurd (hmem h₃) (List.nodup_cons.mp h).1
      · exact ih (h.sublist ((List.sublist_cons_self ev tr).filterMap _)) h₃ h₄

theorem updates_prefix {tr tr' : List ClientEvent} (h : tr <+: tr') : updates tr <+: updates tr' := by
  obtain ⟨rest, rfl⟩ := h
  rw [updates_append]
  exact List.prefix_append ..

theorem Clients.Inv.neverBack (h : c.Inv crc cfg ops₀ tr) : NeverBack ops₀ tr := by
  intro pre₁ t₁ r₁ post₁ pre₂ t₂ r₂ post₂ key heq₁ heq₂ hinv₁ hinv₂
  obtain ⟨key₁, v₁, rfl, a₁, b₁, rfl, hi₁, -, hv₁⟩ := h.answers heq₁
  obtain ⟨key₂, v₂, rfl, a₂, b₂, rfl, hi₂, -, hv₂⟩ := h.answers heq₂
  have hm₁ : ClientEvent.invoked t₁ (.get key₁) ∈ tr := by rw [heq₁]; simp [hi₁]
  have hm₂ : ClientEvent.invoked t₂ (.get key₂) ∈ tr := by rw [heq₂]; simp [hi₂]
  have hm₂' : ClientEvent.invoked t₂ (.get key) ∈ tr := by rw [heq₁]; simp [hinv₂]
  obtain rfl : key₁ = key := ClientCall.get.inj (invoked_unique h.once hm₁ hinv₁)
  obtain rfl : key₂ = key₁ := ClientCall.get.inj (invoked_unique h.once hm₂ hm₂')
  -- the second `get` was invoked after the first one had returned, and looked its key up later
  have hpre : a₁ <+: a₂ := by
    have hsplit : (a₁ ++ .looked t₁ key₂ :: b₁) ++ .returned t₁ (.got (.ok v₁)) :: post₁ =
        a₂ ++ (.looked t₂ key₂ :: b₂ ++ .returned t₂ (.got (.ok v₂)) :: post₂) := by
      rw [← heq₁, heq₂]
      simp
    rcases List.append_eq_append_iff.mp hsplit with ⟨l, rfl, -⟩ | ⟨l, hl, -⟩
    · exact ⟨.looked t₁ key₂ :: b₁ ++ l, by simp⟩
    · exfalso
      have hin : t₂ ∈ (a₁ ++ .looked t₁ key₂ :: b₁).filterMap ClientEvent.invocation := by
        rw [hl]
        exact List.mem_filterMap.mpr ⟨_, List.mem_append_left _ hi₂, rfl⟩
      have hafter : t₂ ∈ (ClientEvent.returned t₁ (.got (.ok v₁)) :: post₁).filterMap
          ClientEvent.invocation :=
        List.mem_filterMap.mpr ⟨_, List.mem_cons_of_mem _ hinv₂, rfl⟩
      have honce := h.once
      rw [heq₁, List.filterMap_append, List.nodup_append] at honce
      exact honce.2.2 t₂ hin t₂ hafter rfl
  refine ⟨updates a₁, updates a₂, v₁, v₂, updates_prefix hpre, updates_prefix ?_, rfl, hv₁, rfl, hv₂⟩
  rw [heq₂]
  exact ⟨_, by rw [List.append_assoc]⟩

/-- The next section of a `get` that is midway. -/
theorem Clients.Inv.get_runs (h : c.Inv crc cfg ops₀ tr) {t : ℕ} (hleft : 0 < (c.calls t).left)
    (ts : UInt64) : ∃ c' evs, c.step crc cfg (.run t ts) = some (c', evs) ∧
      (c'.calls t).left < (c.calls t).left ∧
      ((c'.calls t).left = 0 → ∃ v, .returned t (.got (.ok v)) ∈ evs) := by
  have hget := h.gets t
  have hself : ∀ p, ((c.advance t p).calls t).left = p.left := fun p => by rw [c.calls_advance_self]
  cases hp : c.calls t with
  | unborn | check | waiting | appending | returned => rw [hp] at hleft; exact absurd hleft (Nat.lt_irrefl 0)
  | lookup key =>
    cases hi : c.store.index.get (asBytes key) with
    | none =>
      refine ⟨c.advance t .returned, [.looked t key, .returned t (.got (.ok none))], ?_, ?_, ?_⟩
      · simp only [Clients.step, Clients.run, hp, hi]
      · rw [hself]
        show 0 < 3
        decide
      · exact fun _ => ⟨none, by simp⟩
    | some e =>
      refine ⟨c.advance t (.load key e), [.looked t key], ?_, ?_, fun h0 => ?_⟩
      · simp only [Clients.step, Clients.run, hp, hi]
      · rw [hself]
        show 2 < 3
        decide
      · rw [hself] at h0; cases h0
  | load key e =>
    rw [hp] at hget
    obtain ⟨i, v, hh, -, -⟩ := hget
    refine ⟨c.advance t (.pread key e i), [], ?_, ?_, fun h0 => ?_⟩
    · simp only [Clients.step, Clients.run, hp, hh.reader]
    · rw [hself]
      show 1 < 2
      decide
    · rw [hself] at h0; cases h0
  | pread key e i =>
    rw [hp] at hget
    obtain ⟨v, hf, -⟩ := hget
    refine ⟨c.advance t .returned, [.returned t (.got (.ok (some v)))], ?_, ?_, ?_⟩
    · simp only [Clients.step, Clients.run, hp, hf.value]
    · rw [hself]
      show 0 < 1
      decide
    · exact fun _ => ⟨some v, by simp⟩

/-- The moves of others leave a `get` where it is. -/
theorem Clients.Owner.get_stays {c' : Clients} {m : Move} {evs : List ClientEvent} (h : c.Owner)
    {t : ℕ} (hleft : 0 < (c.calls t).left) (hm : ∀ ts, m ≠ .run t ts)
    (hs : ClientStep crc cfg c m c' evs) : c'.calls t = c.calls t := by
  have hrun : ∀ {t' ts}, m = .run t' ts → t ≠ t' := by
    rintro t' ts rfl rfl
    exact hm ts rfl
  cases hs with
  | invoke t' call hp =>
    refine c.calls_advance_ne ?_ _
    rintro rfl
    rw [hp] at hleft; exact absurd hleft (Nat.lt_irrefl 0)
  | missing | found | retry | load | pread | absent | present | poisoned | begin =>
    exact c.calls_advance_ne (hrun rfl) _
  | other | append => rfl
  | finish a s t' hb hs hh hf =>
    refine c.calls_advance_ne ?_ _
    rintro rfl
    obtain ⟨call, ts, hc, -⟩ := h.held t hh
    rw [hc] at hleft; exact absurd hleft (Nat.lt_irrefl 0)

theorem Clients.Inv.onlyAppendsSeen (h : c.Inv crc cfg ops₀ tr) :
    OnlyAppendsSeen crc cfg c.store := by
  intro a s' hn hs hpub key
  obtain ⟨recs, log, a', hl, hv⟩ := h.link
  have hfits := step_fits hs
  have hs := step_cases hs
  obtain ⟨recs', log', a'', hl', -⟩ := hl.advance hv (h.tight.stepOk hn.tidy hfits hs) hs
  rw [hpub, List.append_nil] at hl'
  obtain ⟨v, hget, hv⟩ := hl.get key
  obtain ⟨v', hget', hv'⟩ := hl'.get key
  rw [hget, hget', Option.map_injective asBytes_injective (hv'.trans hv.symm)]

/-- Reads are linearizable under a running merge. In every run of calls and merges in which no
filesystem call fails, every `get` returns after three of its own sections, with the value that the
last index update of an append before its lookup gave its key; a `get` after another one never sees
an older state; and no other step of the store changes what `get` answers. -/
theorem gets_linearizable (h₀ : Reach crc (fun _ a => a.Nominal) (.running cfg s₀) ops₀)
    (hfree : s₀.lock = .free) (h : ClientRun crc cfg (fun _ m => m.Nominal) s₀ c tr) :
    AnswersAtLookup ops₀ tr ∧ NeverBack ops₀ tr ∧ GetsReturn crc cfg c ∧
      OnlyAppendsSeen crc cfg c.store := by
  have hinv := h.inv id h₀ hfree
  refine ⟨fun _ _ _ _ => hinv.answers, hinv.neverBack, fun t hleft => ⟨hinv.get_runs hleft, ?_⟩,
    hinv.onlyAppendsSeen⟩
  intro m c' evs hm hs
  exact hinv.owner.get_stays hleft hm (clientStep_cases hs)

end Gets

/-- A `get` looks its key up; a merge copies the record and removes its file, and another call sets the
key; then the `get` goes on. -/
def readAcrossMerge : List Move :=
  [.invoke 0 (.get "a"), .run 0 0] ++ (mergeActs 34).map .store ++
    [.invoke 1 (.append (.set "a" "4")), .run 1 0] ++
    ((Call.acts crc32 (.set "a" "4") 7).drop 1).map .store ++ [.run 0 0, .run 0 0]

theorem gets_linearizable_across_merge : ∃ s₀ c tr,
    steps crc32 smallFiles (fun _ a => a.Nominal) threeSets (emptyStore crc32) = some s₀ ∧
    Clients.moves crc32 smallFiles (fun _ m => m.Nominal) readAcrossMerge
      ⟨s₀, fun _ => .unborn, none⟩ = some (c, tr) ∧
    c.store.fs.lookup (.data 3) = none ∧
    tr = [.invoked 0 (.get "a"), .looked 0 "a", .invoked 1 (.append (.set "a" "4")),
      .updated 1 (.set 0 (asBytes "a") (asBytes "4")), .returned 1 (.done (.ok ())),
      .returned 0 (.got (.ok (some "3")))] ∧
    AnswersAtLookup (finishedBy crc32 smallFiles threeSets (emptyStore crc32)) tr ∧
    NeverBack (finishedBy crc32 smallFiles threeSets (emptyStore crc32)) tr ∧
    GetsReturn crc32 smallFiles c ∧ OnlyAppendsSeen crc32 smallFiles c.store := by
  have hrun : (steps crc32 smallFiles (fun _ a => a.Nominal) threeSets (emptyStore crc32)).any
      fun s₀ => s₀.lock = .free ∧
        (Clients.moves crc32 smallFiles (fun _ m => m.Nominal) readAcrossMerge
          ⟨s₀, fun _ => .unborn, none⟩).any fun r => r.1.store.fs.lookup (.data 3) = none ∧
            r.2 = [.invoked 0 (.get "a"), .looked 0 "a", .invoked 1 (.append (.set "a" "4")),
              .updated 1 (.set 0 (asBytes "a") (asBytes "4")), .returned 1 (.done (.ok ())),
              .returned 0 (.got (.ok (some "3")))] := by decide +kernel
  obtain ⟨s₀, hs, hc⟩ := (Option.any_eq_true ..).mp hrun
  obtain ⟨hfree, hc⟩ := of_decide_eq_true hc
  obtain ⟨⟨c, tr⟩, hm, hc⟩ := (Option.any_eq_true ..).mp hc
  obtain ⟨hgone, htr⟩ := of_decide_eq_true hc
  exact ⟨s₀, c, tr, hs, hm, hgone, htr,
    gets_linearizable (Reach.firstSession hs) hfree (ClientRun.start.of_moves hm)⟩

end Bitcask
