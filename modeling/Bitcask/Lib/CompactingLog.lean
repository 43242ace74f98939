import Bitcask.Lib.SegmentedLog

/-!
# A log that is compacted while it is written

The abstract machine behind a log-structured store. Events are appended to the segment with the
highest id. An index says for every live key where its last event stands. A merge walks the
segments below the active one in ascending order, copies the events the index still points to into
new segments, moves the index entries over, and drops the segments it walked one by one. Writers
append, publish and rotate at any moment in between.

Part of the log may be volatile: `durable` is the part that survives whatever happens, and the
active segment holds `volatile` after its durable events. If `segs` are the durable contents of the
segments, reading them in order gives every key its value in `durable` (`Inv.final`), and reading
them with a part of the volatile events gives the value in that longer log (`Inv.final_view`).

`Step.inv` says that every step keeps `Inv`.
-/

namespace CompactingLog

open SegmentedLog

variable {κ ν : Type}

/-- A segment and an offset in it. -/
structure Pos where
  seg : ℕ
  off : ℕ

/-- A merge that walks its sources. -/
structure Scan (κ ν : Type) where
  /-- The sources have ids below this one. -/
  first : ℕ
  /-- The id of the last output. -/
  out : ℕ
  sources : List ℕ
  /-- The positions not walked yet. -/
  todo : Set Pos
  /-- The events in the open output. -/
  copies : List (κ × ν)
  /-- The entries to be moved, with their old and new positions. -/
  moves : List (κ × Pos × Pos)

/-- How far the merge is. -/
inductive Phase (κ ν : Type)
  | idle
  | scan (m : Scan κ ν)
  | drop (ids : List ℕ)

/-- A state of the machine. -/
structure State (κ ν : Type) where
  /-- The durable events of the segments. -/
  segs : ℕ → List (κ × Option ν)
  /-- The active segment. -/
  cur : ℕ
  durable : List (κ × Option ν)
  volatile : List (κ × Option ν)
  /-- The events the index knows of. -/
  pub : List (κ × Option ν)
  loc : κ → Option Pos
  phase : Phase κ ν

/-- The segments with more events at the end of one of them. -/
def withTail (D : ℕ → List (κ × Option ν)) (cur : ℕ) (us : List (κ × Option ν)) :
    ℕ → List (κ × Option ν) :=
  Function.update D cur (D cur ++ us)

section Tail

variable {D D' : ℕ → List (κ × Option ν)} {cur j : ℕ} {us : List (κ × Option ν)}

theorem withTail_nil : withTail D cur [] = D := by
  unfold withTail
  rw [List.append_nil, Function.update_eq_self]

theorem withTail_self : withTail D cur us cur = D cur ++ us := Function.update_self ..

theorem withTail_ne (hj : j ≠ cur) : withTail D cur us j = D j := Function.update_of_ne hj ..

theorem withTail_append (vs : List (κ × Option ν)) :
    withTail (withTail D cur us) cur vs = withTail D cur (us ++ vs) := by
  unfold withTail
  rw [Function.update_self, Function.update_idem, List.append_assoc]

variable [DecidableEq κ] {k : κ}

theorem lastOf_append_left {as bs : List (κ × Option ν)} (h : lastOf k as ≠ none) :
    lastOf k (as ++ bs) ≠ none := by
  rw [lastOf_append]
  cases lastOf k bs with
  | none => exact h
  | some v => simp

theorem lastOf_withTail (h : lastOf k (D j) ≠ none) : lastOf k (withTail D cur us j) ≠ none := by
  by_cases hj : j = cur
  · rw [hj] at h ⊢
    rw [withTail_self]
    exact lastOf_append_left h
  · rwa [withTail_ne hj]

theorem lastOf_withTail_mono (h : lastOf k (D j) ≠ none → lastOf k (D' j) ≠ none)
    (hD : lastOf k (withTail D cur us j) ≠ none) : lastOf k (withTail D' cur us j) ≠ none := by
  by_cases hj : j = cur
  · rw [hj] at h hD ⊢
    rw [withTail_self, lastOf_append] at hD ⊢
    cases hu : lastOf k us with
    | none =>
      rw [hu] at hD
      exact h hD
    | some v => simp
  · rw [withTail_ne hj] at hD ⊢
    exact h hD

/-- Events at the end of the highest segment are the last ones. -/
theorem final_withTail {ds : List (κ × Option ν)} (hcur : ∀ j, cur < j → D j = [])
    (h : Final D k (value k ds)) : Final (withTail D cur us) k (value k (ds ++ us)) := by
  cases hu : lastOf k us with
  | some v =>
    refine Or.inl ⟨cur, ?_, fun j hj => ?_⟩
    · rw [withTail_self, value, lastOf_append_of_some hu, lastOf_append_of_some hu]
      rfl
    · rw [withTail_ne (Nat.ne_of_gt hj), hcur j hj]; rfl
  | none =>
    rw [value_append_of_none hu]
    refine h.congr fun j => ?_
    by_cases hj : j = cur
    · rw [hj, withTail_self, lastOf_append_of_none hu]
    · rw [withTail_ne hj]

end Tail

namespace State

/-- The whole log. -/
def log (a : State κ ν) : List (κ × Option ν) := a.durable ++ a.volatile

end State

variable [DecidableEq κ]

/-- What can happen next. -/
inductive Step (a : State κ ν) : State κ ν → Prop
  | append (e : κ × Option ν) (hpub : a.pub = a.log) :
    Step a { a with volatile := a.volatile ++ [e] }
  | sync (us vs : List (κ × Option ν)) (h : a.volatile = us ++ vs) :
    Step a { a with segs := withTail a.segs a.cur us, durable := a.durable ++ us, volatile := vs }
  | publish (e : κ × Option ν) (p : Pos) (hlog : a.log = a.pub ++ [e]) (hp : p.seg = a.cur) :
    Step a { a with pub := a.log, loc := Function.update a.loc e.1 (e.2.map fun _ => p) }
  | rotate (next : ℕ) (hlt : a.cur < next) (hv : a.volatile = []) (hpub : a.pub = a.log) :
    Step a { a with cur := next }
  /-- A merge starts when its snapshot is sealed. -/
  | start (m : Scan κ ν) (hv : a.volatile = []) (hpub : a.pub = a.log) (hfirst : m.first ≤ m.out)
      (hout : m.out < a.cur) (hsorted : m.sources.Pairwise (· < ·))
      (hsources : ∀ j ∈ m.sources, j < m.first)
      (hlow : ∀ j, j < m.first → a.segs j ≠ [] → j ∈ m.sources)
      (htodo : ∀ p, p.seg ∈ m.sources → p ∈ m.todo) (hcopies : m.copies = [])
      (hmoves : m.moves = []) : Step a { a with phase := .scan m }
  | output (m : Scan κ ν) (o : ℕ) (hm : a.phase = .scan m) (hlt : m.out ≤ o) (ho : o < a.cur)
      (hfree : ∀ j, m.out < j → j ≤ o → a.segs j = []) :
    Step a { a with phase := .scan { m with out := o } }
  | copy (m : Scan κ ν) (k : κ) (p q : Pos) (v : ν) (hm : a.phase = .scan m)
      (hk : a.loc k = some p) (hp : p.seg ∈ m.sources) (hv : value k a.pub = some v)
      (hq : q.seg = m.out) :
    Step a
      { a with
        phase := .scan
          { m with copies := m.copies ++ [(k, v)], moves := m.moves ++ [(k, p, q)] } }
  /-- Positions are walked; an entry there has been copied. -/
  | pass (m : Scan κ ν) (todo : Set Pos) (hm : a.phase = .scan m)
      (htodo : ∀ k p, a.loc k = some p → p.seg ∈ m.sources → p ∈ m.todo →
        p ∈ todo ∨ ∃ q, (k, p, q) ∈ m.moves) :
    Step a { a with phase := .scan { m with todo := todo } }
  /-- The output becomes a segment. -/
  | name (m : Scan κ ν) (hm : a.phase = .scan m) (hfree : a.segs m.out = []) :
    Step a
      { a with
        segs := Function.update a.segs m.out (m.copies.map fun c => (c.1, some c.2))
        phase := .scan { m with copies := [] } }
  | move (m : Scan κ ν) (k : κ) (p q : Pos) (rest : List (κ × Pos × Pos)) (loc : κ → Option Pos)
      (hm : a.phase = .scan m) (hmoves : m.moves = (k, p, q) :: rest)
      (hq : lastOf k (a.segs q.seg) ≠ none)
      (hloc : (a.loc k = some p ∧ loc = Function.update a.loc k (some q)) ∨
        (a.loc k ≠ some p ∧ loc = a.loc)) :
    Step a { a with loc := loc, phase := .scan { m with moves := rest } }
  | finish (m : Scan κ ν) (hm : a.phase = .scan m) (hmoves : m.moves = [])
      (htodo : ∀ k p, a.loc k = some p → p.seg ∈ m.sources → p ∉ m.todo) :
    Step a { a with phase := .drop m.sources }
  /-- A source goes; every live key has another event. -/
  | drop (f : ℕ) (ids : List ℕ) (hm : a.phase = .drop (f :: ids))
      (hsurvives : ∀ k, value k a.durable ≠ none → ∃ j, j ≠ f ∧ lastOf k (a.segs j) ≠ none) :
    Step a { a with segs := Function.update a.segs f [], phase := .drop ids }
  | abort : Step a { a with phase := .idle }

/-! ## The invariant -/

/-- A merge that walks its sources: `n` events were logged when it started. -/
structure ScanInv (a : State κ ν) (m : Scan κ ν) (n : ℕ) : Prop where
  le_durable : n ≤ a.durable.length
  le_pub : n ≤ a.pub.length
  first_le : m.first ≤ m.out
  out_lt : m.out < a.cur
  sorted : m.sources.Pairwise (· < ·)
  sources_lt : ∀ j ∈ m.sources, j < m.first
  low : ∀ j, j < m.first → a.segs j ≠ [] → j ∈ m.sources
  /-- An entry in a source is older than the merge. -/
  old : ∀ k p, a.loc k = some p → p.seg < m.first → lastOf k (a.pub.drop n) = none
  /-- A copy is the value its key had when the merge started. -/
  copied : ∀ c ∈ m.copies, value c.1 (a.durable.take n) = some c.2
  /-- Later events stand above the outputs. -/
  tail : ∀ k, lastOf k (a.durable.drop n) ≠ none → ∃ j, m.out < j ∧ lastOf k (a.segs j) ≠ none
  walked : ∀ k p, a.loc k = some p → p.seg ∈ m.sources → p ∈ m.todo ∨ ∃ q, (k, p, q) ∈ m.moves
  moves_out : ∀ x ∈ m.moves, m.first ≤ x.2.2.seg

/-- A merge that drops its sources. -/
structure DropInv (a : State κ ν) (ids : List ℕ) (first : ℕ) : Prop where
  first_le : first ≤ a.cur
  sorted : ids.Pairwise (· < ·)
  ids_lt : ∀ j ∈ ids, j < first
  low : ∀ j, j < first → a.segs j ≠ [] → j ∈ ids
  unused : ∀ k p, a.loc k = some p → p.seg ∉ ids

def PhaseInv (a : State κ ν) : Phase κ ν → Prop
  | .idle => True
  | .scan m => ∃ n, ScanInv a m n
  | .drop ids => ∃ first, DropInv a ids first

/-- The invariant of the machine. -/
structure Inv (a : State κ ν) : Prop where
  /-- At most one event is logged and not published, and it stands in the active segment. -/
  pub : a.pub = a.log ∨
    ∃ e, a.log = a.pub ++ [e] ∧ lastOf e.1 (withTail a.segs a.cur a.volatile a.cur) ≠ none
  le_cur : ∀ j, a.cur < j → a.segs j = []
  final : ∀ k, Final a.segs k (value k a.durable)
  live : ∀ k, a.loc k = none ↔ value k a.pub = none
  seg : ∀ k p, a.loc k = some p → lastOf k (withTail a.segs a.cur a.volatile p.seg) ≠ none
  phase : PhaseInv a a.phase

section Steps

variable {a a' : State κ ν} {us vs : List (κ × Option ν)} {m : Scan κ ν} {k : κ} {j n : ℕ}

/-! ### Views -/

/-- Reading the segments with some volatile events gives the values of the log with these events:
they stand in the highest segment. -/
theorem Inv.final_view (h : Inv a) (us : List (κ × Option ν)) (k : κ) :
    Final (withTail a.segs a.cur us) k (value k (a.durable ++ us)) :=
  final_withTail h.le_cur (h.final k)

/-- The events the index knew of when the merge started are durable. -/
theorem Inv.take_pub (h : Inv a) (hd : n ≤ a.durable.length) (hp : n ≤ a.pub.length) :
    a.pub.take n = a.durable.take n := by
  have hlog : a.pub <+: a.log := by
    rcases h.pub with he | ⟨e, he, -⟩
    · rw [he]
    · rw [he]; exact List.prefix_append _ _
  have h1 : a.log.take n = a.durable.take n := List.take_append_of_le_length hd
  obtain ⟨t, ht⟩ := hlog
  rw [← h1, ← ht, List.take_append_of_le_length hp]

/-- A step that is no step of the merge. -/
theorem PhaseInv.imp {ph : Phase κ ν} (h : PhaseInv a ph)
    (hscan : ∀ m n, ScanInv a m n → ScanInv a' m n)
    (hdrop : ∀ ids first, DropInv a ids first → DropInv a' ids first) : PhaseInv a' ph := by
  cases ph with
  | idle => trivial
  | scan m =>
    obtain ⟨n, hs⟩ := h
    exact ⟨n, hscan m n hs⟩
  | drop ids =>
    obtain ⟨first, hd⟩ := h
    exact ⟨first, hdrop ids first hd⟩

theorem Inv.scan (h : Inv a) (hm : a.phase = .scan m) : ∃ n, ScanInv a m n := by
  have hp := h.phase
  rwa [hm] at hp

/-- A step of the merge that changes neither segments nor index. -/
theorem Inv.merge (h : Inv a) {ph : Phase κ ν} (hp : PhaseInv a ph) : Inv { a with phase := ph } :=
  { h with
    phase := PhaseInv.imp hp (fun _ _ hs => { hs with }) (fun _ _ hd => { hd with }) }

/-! ### Writers -/

theorem Inv.append (h : Inv a) (e : κ × Option ν) (hpub : a.pub = a.log) :
    Inv { a with volatile := a.volatile ++ [e] } where
  pub := by
    refine Or.inr ⟨e, by rw [hpub, State.log, State.log, List.append_assoc], ?_⟩
    show lastOf e.1 (withTail a.segs a.cur (a.volatile ++ [e]) a.cur) ≠ none
    rw [withTail_self, ← List.append_assoc, lastOf_append_of_some (lastOf_singleton_self ..)]
    simp
  le_cur := h.le_cur
  final := h.final
  live := h.live
  seg k p hp := by
    have hseg := h.seg k p hp
    by_cases hj : p.seg = a.cur
    · rw [hj, withTail_self] at hseg
      show lastOf k (withTail a.segs a.cur _ p.seg) ≠ none
      rw [hj, withTail_self, ← List.append_assoc]
      exact lastOf_append_left hseg
    · rw [withTail_ne hj] at hseg
      exact lastOf_withTail hseg
  phase := h.phase.imp (fun _ _ hs => { hs with }) (fun _ _ hd => { hd with })

theorem ScanInv.sync (hs : ScanInv a m n) (us vs : List (κ × Option ν)) :
    ScanInv { a with segs := withTail a.segs a.cur us, durable := a.durable ++ us, volatile := vs } m n :=
  { hs with
    le_durable := hs.le_durable.trans (by simp)
    low := fun j hj hne => hs.low j hj fun he => hne <| by
      have := hs.first_le
      have := hs.out_lt
      exact (withTail_ne (by omega)).trans he
    copied := fun c hc => by
      rw [List.take_append_of_le_length hs.le_durable]
      exact hs.copied c hc
    tail := fun k hk => by
      rw [List.drop_append_of_le_length hs.le_durable, lastOf_append] at hk
      cases hu : lastOf k us with
      | some v =>
        refine ⟨a.cur, hs.out_lt, ?_⟩
        show lastOf k (withTail a.segs a.cur us a.cur) ≠ none
        rw [withTail_self, lastOf_append_of_some hu]
        simp
      | none =>
        rw [hu] at hk
        obtain ⟨j, hj, hjk⟩ := hs.tail k hk
        exact ⟨j, hj, lastOf_withTail hjk⟩ }

/-- Volatile events become durable. -/
theorem Inv.sync (h : Inv a) (hv : a.volatile = us ++ vs) :
    Inv { a with segs := withTail a.segs a.cur us, durable := a.durable ++ us, volatile := vs } := by
  have hview : withTail (withTail a.segs a.cur us) a.cur vs = withTail a.segs a.cur a.volatile := by
    rw [withTail_append, hv]
  have hlog : a.durable ++ us ++ vs = a.log := by rw [State.log, hv, List.append_assoc]
  refine ⟨?_, fun j hj => ?_, h.final_view us, h.live, fun k p hp => ?_, ?_⟩
  · refine h.pub.imp (·.trans hlog.symm) fun ⟨e, he, hcur⟩ => ⟨e, hlog.trans he, ?_⟩
    show lastOf e.1 (withTail (withTail a.segs a.cur us) a.cur vs a.cur) ≠ none
    rw [hview]
    exact hcur
  · exact (withTail_ne (Nat.ne_of_gt hj)).trans (h.le_cur j hj)
  · show lastOf k (withTail (withTail a.segs a.cur us) a.cur vs p.seg) ≠ none
    rw [hview]
    exact h.seg k p hp
  · refine h.phase.imp (fun m n hs => hs.sync us vs) fun ids first hd => { hd with low := ?_ }
    intro j hj hne
    have := hd.first_le
    exact hd.low j hj fun he => hne ((withTail_ne (by omega)).trans he)

theorem ScanInv.publish (hs : ScanInv a m n) {e : κ × Option ν} {p : Pos} (hp : p.seg = a.cur) :
    ScanInv { a with pub := a.pub ++ [e], loc := Function.update a.loc e.1 (e.2.map fun _ => p) }
      m n := by
  obtain ⟨k', v⟩ := e
  have hcur : ∀ q, v.map (fun _ => p) = some q → q.seg = a.cur := by
    intro q hq
    obtain ⟨v', -, rfl⟩ := Option.map_eq_some_iff.mp hq
    exact hp
  have hfirst := hs.first_le
  have hout := hs.out_lt
  exact { hs with
    le_pub := hs.le_pub.trans (by simp)
    old := fun k q hq hlt => by
      by_cases hk : k = k'
      · subst hk
        have := hcur q (by simpa only [Function.update_self] using hq)
        omega
      · simp only [Function.update_of_ne hk] at hq
        rw [List.drop_append_of_le_length hs.le_pub,
          lastOf_append_of_none (lastOf_singleton_ne (Ne.symm hk) v)]
        exact hs.old k q hq hlt
    walked := fun k q hq hmem => by
      by_cases hk : k = k'
      · subst hk
        have := hcur q (by simpa only [Function.update_self] using hq)
        have := hs.sources_lt _ hmem
        omega
      · simp only [Function.update_of_ne hk] at hq
        exact hs.walked k q hq hmem }

theorem DropInv.publish {ids : List ℕ} {first : ℕ} (hd : DropInv a ids first) {e : κ × Option ν}
    {p : Pos} (hp : p.seg = a.cur) :
    DropInv { a with pub := a.pub ++ [e], loc := Function.update a.loc e.1 (e.2.map fun _ => p) }
      ids first :=
  { hd with
    unused := fun k q hq hmem => by
      by_cases hk : k = e.1
      · subst hk
        simp only [Function.update_self] at hq
        obtain ⟨v', -, rfl⟩ := Option.map_eq_some_iff.mp hq
        have := hd.ids_lt _ hmem
        have := hd.first_le
        omega
      · simp only [Function.update_of_ne hk] at hq
        exact hd.unused k q hq hmem }

/-- The index learns of the last event of the log. -/
theorem Inv.publish (h : Inv a) {e : κ × Option ν} {p : Pos} (hlog : a.log = a.pub ++ [e])
    (hp : p.seg = a.cur) :
    Inv { a with pub := a.log, loc := Function.update a.loc e.1 (e.2.map fun _ => p) } := by
  have hcur : lastOf e.1 (withTail a.segs a.cur a.volatile a.cur) ≠ none := by
    rcases h.pub with he | ⟨e', he, hcur⟩
    · have := congrArg List.length (he.trans hlog)
      simp at this
    · obtain rfl : e = e' := by
        have := List.append_cancel_left (hlog.symm.trans he)
        exact List.singleton_injective this
      exact hcur
  refine ⟨Or.inl rfl, h.le_cur, h.final, fun k => ?_, fun k q hq => ?_, ?_⟩
  · obtain ⟨k', v⟩ := e
    by_cases hk : k = k'
    · subst hk
      simp only [Function.update_self, hlog, value_append_self, Option.map_eq_none_iff]
    · simp only [Function.update_of_ne hk, hlog, value_append_ne (Ne.symm hk)]
      exact h.live k
  · by_cases hk : k = e.1
    · subst hk
      simp only [Function.update_self] at hq
      obtain ⟨v', -, rfl⟩ := Option.map_eq_some_iff.mp hq
      rw [hp]
      exact hcur
    · simp only [Function.update_of_ne hk] at hq
      exact h.seg k q hq
  · rw [hlog]
    exact h.phase.imp (fun m n hs => hs.publish hp) fun ids first hd => hd.publish hp

/-- A new active segment. -/
theorem Inv.rotate (h : Inv a) {next : ℕ} (hlt : a.cur < next) (hv : a.volatile = [])
    (hpub : a.pub = a.log) : Inv { a with cur := next } where
  pub := Or.inl hpub
  le_cur j hj := h.le_cur j (hlt.trans hj)
  final := h.final
  live := h.live
  seg k p hp := by
    have := h.seg k p hp
    rw [hv, withTail_nil] at this
    exact lastOf_withTail this
  phase := h.phase.imp (fun _ _ hs => { hs with out_lt := hs.out_lt.trans hlt })
    (fun _ _ hd => { hd with first_le := hd.first_le.trans hlt.le })

/-! ### The merge -/

theorem ScanInv.start (hv : a.volatile = []) (hpub : a.pub = a.log) (hfirst : m.first ≤ m.out)
    (hout : m.out < a.cur) (hsorted : m.sources.Pairwise (· < ·))
    (hsources : ∀ j ∈ m.sources, j < m.first)
    (hlow : ∀ j, j < m.first → a.segs j ≠ [] → j ∈ m.sources)
    (htodo : ∀ p, p.seg ∈ m.sources → p ∈ m.todo) (hcopies : m.copies = [])
    (hmoves : m.moves = []) : ScanInv a m a.durable.length := by
  have hlen : a.pub = a.durable := by rw [hpub, State.log, hv, List.append_nil]
  exact {
    le_durable := le_rfl
    le_pub := by rw [hlen]
    first_le := hfirst
    out_lt := hout
    sorted := hsorted
    sources_lt := hsources
    low := hlow
    old := fun k p _ _ => by rw [hlen, List.drop_length]; rfl
    copied := by rw [hcopies]; simp
    tail := fun k hk => by rw [List.drop_length] at hk; exact absurd rfl hk
    walked := fun k p _ hp => Or.inl (htodo p hp)
    moves_out := by rw [hmoves]; simp }

theorem ScanInv.output (hs : ScanInv a m n) {o : ℕ} (hlt : m.out ≤ o) (ho : o < a.cur)
    (hfree : ∀ j, m.out < j → j ≤ o → a.segs j = []) : ScanInv a { m with out := o } n :=
  { hs with
    first_le := hs.first_le.trans hlt
    out_lt := ho
    tail := fun k hk => by
      obtain ⟨j, hj, hjk⟩ := hs.tail k hk
      refine ⟨j, ?_, hjk⟩
      by_contra hle
      rw [hfree j hj (not_lt.mp hle)] at hjk
      exact hjk rfl }

/-- A live event of a source is copied: it is the value its key had when the merge started. -/
theorem ScanInv.copy (h : Inv a) (hs : ScanInv a m n) {p q : Pos} {v : ν} (hk : a.loc k = some p)
    (hp : p.seg ∈ m.sources) (hv : value k a.pub = some v) (hq : q.seg = m.out) :
    ScanInv a { m with copies := m.copies ++ [(k, v)], moves := m.moves ++ [(k, p, q)] } n := by
  have hold := hs.old k p hk (hs.sources_lt _ hp)
  have hval : value k (a.durable.take n) = some v := by
    rw [← h.take_pub hs.le_durable hs.le_pub]
    rwa [← List.take_append_drop n a.pub, value_append_of_none hold] at hv
  exact { hs with
    copied := fun c hc => by
      rcases List.mem_append.mp hc with hc | hc
      · exact hs.copied c hc
      · rw [List.mem_singleton.mp hc]; exact hval
    walked := fun k' p' hk' hp' => (hs.walked k' p' hk' hp').imp_right fun ⟨q', hq'⟩ =>
      ⟨q', List.mem_append_left _ hq'⟩
    moves_out := fun x hx => by
      rcases List.mem_append.mp hx with hx | hx
      · exact hs.moves_out x hx
      · rw [List.mem_singleton.mp hx]
        exact hs.first_le.trans hq.ge }

theorem ScanInv.pass (hs : ScanInv a m n) {todo : Set Pos}
    (htodo : ∀ k p, a.loc k = some p → p.seg ∈ m.sources → p ∈ m.todo →
      p ∈ todo ∨ ∃ q, (k, p, q) ∈ m.moves) : ScanInv a { m with todo := todo } n :=
  { hs with
    walked := fun k p hk hp => (hs.walked k p hk hp).elim (htodo k p hk hp) Or.inr }

/-- What the output says about a key is the value of the key, or a higher segment decides it. -/
theorem ScanInv.copies_final (hs : ScanInv a m n) {w : Option ν}
    (hw : lastOf k (m.copies.map fun c => (c.1, some c.2)) = some w) :
    w = value k a.durable ∨ ∃ j, m.out < j ∧ lastOf k (a.segs j) ≠ none := by
  by_cases htail : lastOf k (a.durable.drop n) = none
  · left
    obtain ⟨c, hc, he⟩ := List.mem_map.mp (mem_of_lastOf hw)
    obtain ⟨rfl, rfl⟩ := Prod.mk.inj he
    rw [← hs.copied c hc, ← value_append_of_none htail, List.take_append_drop]
  · exact Or.inr (hs.tail k htail)

theorem Inv.name (h : Inv a) (hm : a.phase = .scan m) (hfree : a.segs m.out = []) :
    Inv
      { a with
        segs := Function.update a.segs m.out (m.copies.map fun c => (c.1, some c.2))
        phase := .scan { m with copies := [] } } := by
  obtain ⟨n, hs⟩ := h.scan hm
  have hsegs : ∀ {k j}, lastOf k (a.segs j) ≠ none →
      lastOf k (Function.update a.segs m.out (m.copies.map fun c => (c.1, some c.2)) j) ≠ none := by
    intro k j hj
    rwa [Function.update_of_ne]
    rintro rfl
    rw [hfree] at hj
    exact hj rfl
  refine ⟨h.pub.imp_right fun ⟨e, he, hcur⟩ => ⟨e, he, lastOf_withTail_mono hsegs hcur⟩,
    fun j hj => ?_, fun k => ?_, h.live, fun k p hp => lastOf_withTail_mono hsegs (h.seg k p hp), n, ?_⟩
  · have : m.out < j := hs.out_lt.trans hj
    exact (Function.update_of_ne (by omega) ..).trans (h.le_cur j hj)
  · exact (h.final k).publish hfree fun w hw => hs.copies_final hw
  · exact { hs with
      low := fun j hj hne => by
        have hlt : j < m.out := lt_of_lt_of_le hj hs.first_le
        exact hs.low j hj fun he => hne ((Function.update_of_ne (by omega) ..).trans he)
      copied := by simp
      tail := fun k hk => by
        obtain ⟨j, hj, hjk⟩ := hs.tail k hk
        exact ⟨j, hj, hsegs hjk⟩ }

/-- An entry that is still where it was moves to its copy. -/
theorem Inv.move (h : Inv a) {p q : Pos} {rest : List (κ × Pos × Pos)} {loc : κ → Option Pos}
    (hm : a.phase = .scan m) (hmoves : m.moves = (k, p, q) :: rest)
    (hq : lastOf k (a.segs q.seg) ≠ none)
    (hloc : (a.loc k = some p ∧ loc = Function.update a.loc k (some q)) ∨
      (a.loc k ≠ some p ∧ loc = a.loc)) :
    Inv { a with loc := loc, phase := .scan { m with moves := rest } } := by
  obtain ⟨n, hs⟩ := h.scan hm
  have hfirst : m.first ≤ q.seg := hs.moves_out (k, p, q) (by rw [hmoves]; simp)
  -- an entry after the move is the moved one, or an old one that was not where the move expects it
  have hcases : ∀ {k' p'}, loc k' = some p' → (k' = k ∧ p' = q) ∨
      (a.loc k' = some p' ∧ ¬ (k' = k ∧ p' = p)) := by
    intro k' p' hk'
    rcases hloc with ⟨hkp, rfl⟩ | ⟨hkp, rfl⟩
    · by_cases hkk : k' = k
      · subst hkk
        rw [Function.update_self, Option.some.injEq] at hk'
        exact Or.inl ⟨rfl, hk'.symm⟩
      · rw [Function.update_of_ne hkk] at hk'
        exact Or.inr ⟨hk', fun hc => hkk hc.1⟩
    · exact Or.inr ⟨hk', by rintro ⟨rfl, rfl⟩; exact hkp hk'⟩
  refine ⟨h.pub, h.le_cur, h.final, fun k' => ?_, fun k' p' hk' => ?_, n, ?_⟩
  · rw [← h.live k']
    rcases hloc with ⟨hkp, rfl⟩ | ⟨-, rfl⟩
    · by_cases hkk : k' = k
      · subst hkk; simp [hkp]
      · simp [Function.update_of_ne hkk]
    · rfl
  · rcases hcases hk' with ⟨rfl, rfl⟩ | ⟨hold, -⟩
    · exact lastOf_withTail hq
    · exact h.seg k' p' hold
  · exact { hs with
      old := fun k' p' hk' hlt => by
        rcases hcases hk' with ⟨rfl, rfl⟩ | ⟨hold, -⟩
        · exact absurd hlt (not_lt.mpr hfirst)
        · exact hs.old k' p' hold hlt
      walked := fun k' p' hk' hp' => by
        rcases hcases hk' with ⟨rfl, rfl⟩ | ⟨hold, hne⟩
        · have := hs.sources_lt _ hp'
          omega
        · refine (hs.walked k' p' hold hp').imp_right fun ⟨q', hq'⟩ => ⟨q', ?_⟩
          rw [hmoves] at hq'
          refine (List.mem_cons.mp hq').resolve_left fun he => hne ?_
          simp only [Prod.mk.injEq] at he
          exact ⟨he.1, he.2.1⟩
      moves_out := fun x hx => hs.moves_out x (by rw [hmoves]; exact List.mem_cons_of_mem _ hx) }

theorem ScanInv.finish (hs : ScanInv a m n) (hmoves : m.moves = [])
    (htodo : ∀ k p, a.loc k = some p → p.seg ∈ m.sources → p ∉ m.todo) :
    DropInv a m.sources m.first where
  first_le := hs.first_le.trans hs.out_lt.le
  sorted := hs.sorted
  ids_lt := hs.sources_lt
  low := hs.low
  unused k p hk hp := by
    rcases hs.walked k p hk hp with ht | ⟨q, hq⟩
    · exact htodo k p hk hp ht
    · rw [hmoves] at hq; cases hq

theorem Inv.drop (h : Inv a) {f : ℕ} {ids : List ℕ} (hm : a.phase = .drop (f :: ids))
    (hsurvives : ∀ k, value k a.durable ≠ none → ∃ j, j ≠ f ∧ lastOf k (a.segs j) ≠ none) :
    Inv { a with segs := Function.update a.segs f [], phase := .drop ids } := by
  have hphase := h.phase
  rw [hm] at hphase
  obtain ⟨first, hd⟩ := hphase
  obtain ⟨hmin, hsorted⟩ := List.pairwise_cons.mp hd.sorted
  have hf : f < first := hd.ids_lt f List.mem_cons_self
  have hcur : f < a.cur := hf.trans_le hd.first_le
  have hsegs : ∀ {k j}, j ≠ f → lastOf k (a.segs j) ≠ none →
      lastOf k (Function.update a.segs f [] j) ≠ none := by
    intro k j hj hk
    rwa [Function.update_of_ne hj]
  refine ⟨h.pub.imp_right fun ⟨e, he, hc⟩ =>
      ⟨e, he, lastOf_withTail_mono (hsegs (Nat.ne_of_gt hcur)) hc⟩,
    fun j hj => ?_, fun k => ?_, h.live, fun k p hp => ?_, first, ?_⟩
  · have : a.cur < j := hj
    exact (Function.update_of_ne (by omega) ..).trans (h.le_cur j hj)
  · refine (h.final k).drop (fun i hi => ?_) (hsurvives k)
    by_contra hne
    rcases List.mem_cons.mp (hd.low i (hi.trans hf) hne) with rfl | hmem
    · omega
    · have := hmin i hmem
      omega
  · refine lastOf_withTail_mono (hsegs fun he => ?_) (h.seg k p hp)
    exact hd.unused k p hp (by rw [he]; exact List.mem_cons_self)
  · exact { hd with
      sorted := hsorted
      ids_lt := fun j hj => hd.ids_lt j (List.mem_cons_of_mem _ hj)
      low := fun j hj hne => by
        by_cases hjf : j = f
        · subst hjf
          exact absurd (Function.update_self ..) hne
        · refine (List.mem_cons.mp (hd.low j hj fun he => hne ?_)).resolve_left hjf
          exact (Function.update_of_ne hjf ..).trans he
      unused := fun k p hk hp => hd.unused k p hk (List.mem_cons_of_mem _ hp) }

/-- Without volatile events, every live key has an event outside the source that goes: the index
points to one, and an event the index does not know of stands in the active segment. -/
theorem Inv.survives (h : Inv a) {f : ℕ} {ids : List ℕ} (hm : a.phase = .drop (f :: ids))
    (hv : a.volatile = []) (k : κ) (hk : value k a.durable ≠ none) :
    ∃ j, j ≠ f ∧ lastOf k (a.segs j) ≠ none := by
  have hphase := h.phase
  rw [hm] at hphase
  obtain ⟨first, hd⟩ := hphase
  have hcur : f < a.cur := (hd.ids_lt f List.mem_cons_self).trans_le hd.first_le
  have hlog : a.log = a.durable := by rw [State.log, hv, List.append_nil]
  have hindex : value k a.pub ≠ none → ∃ j, j ≠ f ∧ lastOf k (a.segs j) ≠ none := by
    intro hpub
    obtain ⟨p, hp⟩ := Option.ne_none_iff_exists'.mp (fun hn => hpub ((h.live k).mp hn))
    have hseg := h.seg k p hp
    rw [hv, withTail_nil] at hseg
    exact ⟨p.seg, fun he => hd.unused k p hp (by rw [he]; exact List.mem_cons_self), hseg⟩
  rcases h.pub with he | ⟨e, he, hc⟩
  · exact hindex (by rw [he, hlog]; exact hk)
  · by_cases hek : e.1 = k
    · rw [hv, withTail_nil, hek] at hc
      exact ⟨a.cur, Nat.ne_of_gt hcur, hc⟩
    · refine hindex ?_
      rw [← hlog, he] at hk
      rwa [value_append_ne hek] at hk

/-- Every step keeps the invariant. -/
theorem Step.inv (h : Inv a) (hs : Step a a') : Inv a' := by
  cases hs with
  | append e hpub => exact h.append e hpub
  | sync us vs hv => exact h.sync hv
  | publish e p hlog hp => exact h.publish hlog hp
  | rotate next hlt hv hpub => exact h.rotate hlt hv hpub
  | start m hv hpub hfirst hout hsorted hsources hlow htodo hcopies hmoves =>
    exact h.merge ⟨_, .start hv hpub hfirst hout hsorted hsources hlow htodo hcopies hmoves⟩
  | output m o hm hlt ho hfree =>
    obtain ⟨n, hs⟩ := h.scan hm
    exact h.merge ⟨n, hs.output hlt ho hfree⟩
  | copy m k p q v hm hk hp hv hq =>
    obtain ⟨n, hs⟩ := h.scan hm
    exact h.merge ⟨n, hs.copy h hk hp hv hq⟩
  | pass m todo hm htodo =>
    obtain ⟨n, hs⟩ := h.scan hm
    exact h.merge ⟨n, hs.pass htodo⟩
  | name m hm hfree => exact h.name hm hfree
  | move m k p q rest loc hm hmoves hq hloc => exact h.move hm hmoves hq hloc
  | finish m hm hmoves htodo =>
    obtain ⟨n, hs⟩ := h.scan hm
    exact h.merge ⟨_, hs.finish hmoves htodo⟩
  | drop f ids hm hsurvives => exact h.drop hm hsurvives
  | abort => exact h.merge trivial

/-! ### The active segment -/

theorem Step.durable_prefix (hs : Step a a') : a.durable <+: a'.durable := by
  cases hs with
  | sync us vs hv => exact List.prefix_append ..
  | _ => exact List.prefix_rfl

/-- A step that makes nothing durable leaves the durable part of the active segment alone, or goes on
to a new segment. -/
theorem Step.active (h : Inv a) (hs : Step a a') (hd : a'.durable = a.durable) :
    (a'.cur = a.cur ∧ a'.segs a'.cur = a.segs a.cur) ∨ (a.cur < a'.cur ∧ a'.segs a'.cur = []) := by
  cases hs with
  | sync us vs hv =>
    have hnil : us = [] := List.append_right_eq_self.mp hd
    subst hnil
    exact Or.inl ⟨rfl, by rw [withTail_nil]⟩
  | rotate next hlt hv hpub => exact Or.inr ⟨hlt, h.le_cur next hlt⟩
  | name m hm hfree =>
    obtain ⟨n, hscan⟩ := h.scan hm
    exact Or.inl ⟨rfl, Function.update_of_ne (Nat.ne_of_gt hscan.out_lt) ..⟩
  | drop f ids hm hsurvives =>
    have hphase := h.phase
    rw [hm] at hphase
    obtain ⟨first, hdrop⟩ := hphase
    have hlt : f < a.cur := (hdrop.ids_lt f List.mem_cons_self).trans_le hdrop.first_le
    exact Or.inl ⟨rfl, Function.update_of_ne (Nat.ne_of_gt hlt) ..⟩
  | _ => exact Or.inl ⟨rfl, rfl⟩

theorem durable_prefix_of_steps (hs : Relation.ReflTransGen Step a a') :
    a.durable <+: a'.durable := by
  induction hs with
  | refl => exact List.prefix_rfl
  | tail _ hs ih => exact ih.trans hs.durable_prefix

/-- The same for a run. -/
theorem active_of_steps (h : Inv a) (hs : Relation.ReflTransGen Step a a')
    (hd : a'.durable = a.durable) : Inv a' ∧
      ((a'.cur = a.cur ∧ a'.segs a'.cur = a.segs a.cur) ∨
        (a.cur < a'.cur ∧ a'.segs a'.cur = [])) := by
  induction hs with
  | refl => exact ⟨h, Or.inl ⟨rfl, rfl⟩⟩
  | @tail b c hab hbc ih =>
    -- nothing becomes durable on the way
    have hb : b.durable = a.durable := by
      have hle := hbc.durable_prefix
      rw [hd] at hle
      exact (List.IsPrefix.eq_of_length_le (durable_prefix_of_steps hab) hle.length_le).symm
    obtain ⟨hinv, hact⟩ := ih hb
    refine ⟨hbc.inv hinv, ?_⟩
    rcases hbc.active hinv (hd.trans hb.symm) with ⟨hc, he⟩ | ⟨hc, he⟩
    · rw [he, hc]
      exact hact
    · refine Or.inr ⟨?_, he⟩
      rcases hact with ⟨hb', -⟩ | ⟨hb', -⟩ <;> omega

end Steps

end CompactingLog
