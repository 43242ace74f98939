import Bitcask.Network.Remote

/-!
# A response that is refused

`read_frame` leaves the payload of a frame it refuses in the stream, and `kvs-client` goes on with the
same stream. So a value of more than `maxPayload` bytes answers the next calls of its client
(`refused_value_answers`). The thread of the server is meanwhile in `write_all` of that value and
reads none of their requests.
-/

namespace Bitcask

open LittleEndian StreamCodec

/-! ## What a stream answers -/

/-- The next calls that read from `stream` get these results. -/
def Yields : Bytes → List (Except KvsError Response) → Prop
  | _, [] => True
  | stream, x :: xs =>
    ∃ r rest, receive false stream = some (r, rest) ∧ r.bind Response.result = x ∧ Yields rest xs

theorem Yields.append {xs : List (Except KvsError Response)} {stream : Bytes} (h : Yields stream xs)
    (more : Bytes) : Yields (stream ++ more) xs := by
  induction xs generalizing stream with
  | nil => trivial
  | cons x xs ih =>
    obtain ⟨r, rest, hr, hx, hrest⟩ := h
    exact ⟨r, rest ++ more, receive_append hr false more, hx, ih hrest⟩

/-- The bytes that the client has not read of what the thread has to write. -/
def Conn.stream (c : Conn) : Bytes := c.down ++ c.unwritten

/-- The result of a call of the connection `k`. -/
def RemoteEvent.resultOf (k : ℕ) : RemoteEvent → Option (Except KvsError Response)
  | .answered t r => if t.unpair.1 = k then some r else none
  | .failed t e => if t.unpair.1 = k then some (.error e) else none
  | .called _ _ | .store _ => none

/-- The results of the calls of the connection `k`. -/
def resultsOf (k : ℕ) (tr : List RemoteEvent) : List (Except KvsError Response) :=
  tr.filterMap (RemoteEvent.resultOf k)

/-- How many bytes an action can write to the connection `k`. -/
def ServiceAct.written (k : ℕ) : ServiceAct → ℕ
  | .write k' n => if k' = k then n else 0
  | _ => 0

theorem resultsOf_append (k : ℕ) (tr evs : List RemoteEvent) :
    resultsOf k (tr ++ evs) = resultsOf k tr ++ resultsOf k evs :=
  List.filterMap_append

theorem resultsOf_store (k : ℕ) (evs : List ClientEvent) : resultsOf k (evs.map .store) = [] := by
  unfold resultsOf
  rw [List.filterMap_map]
  exact List.filterMap_none evs

section Steps

variable {crc : Bytes → UInt32} {cfg : Config} {sv sv' : Service} {evs : List RemoteEvent}
  {a : ServiceAct} {k k' i : ℕ} {c : Conn}

theorem resultsOf_answered (r : Except KvsError Response) :
    resultsOf k [.answered (callName k' i) r] = if k' = k then [r] else [] := by
  simp only [resultsOf, List.filterMap_cons, List.filterMap_nil, RemoteEvent.resultOf, callName,
    Nat.unpair_pair]
  split_ifs <;> rfl

theorem resultsOf_failed (k k' i : ℕ) (e : KvsError) :
    resultsOf k [.failed (callName k' i) e] = if k' = k then [.error e] else [] := by
  simp only [resultsOf, List.filterMap_cons, List.filterMap_nil, RemoteEvent.resultOf, callName,
    Nat.unpair_pair]
  split_ifs <;> rfl

theorem Service.stream_set {more : Bytes} (h : c.stream = (sv.conns k').stream ++ more) (k : ℕ) :
    ∃ more, ((sv.set k' c).conns k).stream = (sv.conns k).stream ++ more := by
  by_cases hk : k = k'
  · subst hk
    rw [conn_set]
    exact ⟨more, h⟩
  · rw [conn_set_ne hk]
    exact ⟨[], (List.append_nil _).symm⟩

/-- A connection that keeps its bytes. -/
theorem Service.stream_kept (h : c.stream = (sv.conns k').stream) (k : ℕ) :
    ∃ more, ((sv.set k' c).conns k).stream = (sv.conns k).stream ++ more :=
  Service.stream_set (h.trans (List.append_nil _).symm) k

/-- A call of a connection that is not closed gets what the first bytes of the stream say, whether the
rest of them has arrived or not. -/
theorem Conn.receive_stream {closed : Bool} {r : Except KvsError Response} {rest : Bytes}
    (hclosed : closed → c.unwritten = []) (hr : receive closed c.down = some (r, rest))
    {r' : Except KvsError Response} {rest' : Bytes}
    (h : receive false c.stream = some (r', rest')) : r' = r ∧ rest' = rest ++ c.unwritten := by
  cases closed with
  | false =>
    have hall := receive_append hr false c.unwritten
    rw [Conn.stream, hall] at h
    cases h
    exact ⟨rfl, rfl⟩
  | true =>
    rw [Conn.stream, hclosed rfl, List.append_nil] at h
    have hall := receive_append h true []
    rw [List.append_nil, List.append_nil, hr] at hall
    cases hall
    exact ⟨rfl, by rw [hclosed rfl, List.append_nil]⟩

/-- A call of the connection `k'` reads the first bytes of its stream. -/
theorem stream_of_receive {closed : Bool} {r : Except KvsError Response} {rest : Bytes}
    (hclosed : closed → (sv.conns k').unwritten = [])
    (hr : receive closed (sv.conns k').down = some (r, rest))
    (hc : c.stream = rest ++ (sv.conns k').unwritten)
    (hres : resultsOf k evs = if k' = k then [r.bind Response.result] else []) :
    (resultsOf k evs = [] ∧ ∃ more, ((sv.set k' c).conns k).stream = (sv.conns k).stream ++ more) ∨
    ∃ r, resultsOf k evs = [r.bind Response.result] ∧
      ∀ r' rest, receive false (sv.conns k).stream = some (r', rest) →
        r' = r ∧ ((sv.set k' c).conns k).stream = rest := by
  rw [hres]
  by_cases hk : k' = k
  · subst hk
    rw [if_pos rfl]
    refine .inr ⟨r, rfl, fun r' rest' h => ?_⟩
    obtain ⟨hr', hrest⟩ := Conn.receive_stream hclosed hr h
    refine ⟨hr', ?_⟩
    rw [Service.conn_set, hrest, hc]
  · rw [if_neg hk]
    refine .inl ⟨rfl, [], ?_⟩
    rw [Service.conn_set_ne (Ne.symm hk), List.append_nil]

/-- What one step does to the bytes of a connection that is not closed: it adds some at the end, or a
call reads the first of them. -/
theorem ServiceStep.stream (hs : ServiceStep crc cfg sv a sv' evs)
    (hcall : ∀ req, a = .call k req → req.payload.length < 2 ^ 32)
    (hopen : (sv.conns k).server ≠ .ended) :
    (resultsOf k evs = [] ∧ ∃ more, (sv'.conns k).stream = (sv.conns k).stream ++ more) ∨
    ∃ r, resultsOf k evs = [r.bind Response.result] ∧
      ∀ r' rest, receive false (sv.conns k).stream = some (r', rest) →
        r' = r ∧ (sv'.conns k).stream = rest := by
  cases hs with
  | call | send | accept | hangup | reject | quit => exact .inl ⟨rfl, Service.stream_kept (by rfl) k⟩
  | invoke k' m rest req i pending clients evs hempty hs hread hpending hdecode hstep =>
    exact .inl ⟨resultsOf_store k evs, Service.stream_kept (by rfl) k⟩
  | unsendable k' req e hc hw =>
    refine .inl ⟨?_, Service.stream_kept (by rfl) k⟩
    have hne : k' ≠ k := by
      rintro rfl
      rw [writeRequest_sent (hcall req rfl)] at hw
      cases hw
    have hfailed := resultsOf_failed k k' (sv.conns k').turn e
    rwa [if_neg hne] at hfailed
  | respond k' resp bytes hempty hs hw =>
    refine .inl ⟨rfl, Service.stream_set (?_ : _ = (sv.conns k').stream ++ bytes) k⟩
    show (sv.conns k').down ++ bytes = (sv.conns k').down ++ (sv.conns k').unwritten ++ bytes
    rw [hempty, List.append_nil]
  | move m clients evs hm hstep =>
    refine .inl ⟨resultsOf_store k evs, [], ?_⟩
    show ((sv.conns k).hear clients evs).stream = _
    rw [List.append_nil]
    unfold Conn.hear
    repeat' split
    all_goals rfl
  | write k' n =>
    refine .inl ⟨rfl, Service.stream_kept ?_ k⟩
    show (sv.conns k').down ++ (sv.conns k').unwritten.take n ++ (sv.conns k').unwritten.drop n = _
    rw [List.append_assoc, List.take_append_drop]
    rfl
  | answered k' resp rest hc hr =>
    exact stream_of_receive (by simp) hr rfl (resultsOf_answered resp.result)
  | failed k' e rest hc hr =>
    exact stream_of_receive (by simp) hr rfl (resultsOf_failed k k' _ e)
  | lose k' e hc hs =>
    have hne : k' ≠ k := by
      rintro rfl
      exact hopen hs
    rw [resultsOf_failed, if_neg hne]
    exact .inl ⟨rfl, Service.stream_kept (by rfl) k⟩

/-- A thread that has ended stays so. -/
theorem ServiceStep.ended (hs : ServiceStep crc cfg sv a sv' evs) (h : (sv.conns k).server = .ended) :
    (sv'.conns k).server = .ended := by
  have hset : ∀ {clients : Clients} {k' : ℕ} {c : Conn},
      ((sv.conns k').server = .ended → c.server = .ended) →
      ((({ sv with clients := clients } : Service).set k' c).conns k).server = .ended := by
    intro clients k' c hc
    by_cases hk : k = k'
    · subst hk
      rw [Service.conn_set]
      exact hc h
    · rwa [Service.conn_set_ne hk]
  cases hs with
  | accept k' _ _ _ hs | invoke k' _ _ _ _ _ _ _ _ hs | reject k' _ _ _ _ _ _ hs
  | respond k' _ _ _ hs =>
    exact hset fun he => by rw [hs] at he; cases he
  | move m clients evs hm hstep =>
    show ((sv.conns k).hear clients evs).server = .ended
    unfold Conn.hear
    rw [h]
    exact h
  | hangup => exact hset fun _ => rfl
  | _ => exact hset fun he => he

/-- Of the results `xs`, the calls so far have got some, and the stream has the others. -/
def Service.Yielding (k : ℕ) (xs : List (Except KvsError Response)) (sv : Service)
    (tr : List RemoteEvent) : Prop :=
  (∃ ys, xs = resultsOf k tr ++ ys ∧ Yields (sv.conns k).stream ys) ∨ xs <+: resultsOf k tr

theorem Service.Yielding.step {xs : List (Except KvsError Response)} {tr : List RemoteEvent}
    (h : sv.Yielding k xs tr) (hs : ServiceStep crc cfg sv a sv' evs)
    (hcall : ∀ req, a = .call k req → req.payload.length < 2 ^ 32)
    (hopen : (sv.conns k).server ≠ .ended) : sv'.Yielding k xs (tr ++ evs) := by
  unfold Service.Yielding
  rw [resultsOf_append]
  rcases h with ⟨ys, rfl, hys⟩ | hall
  · rcases hs.stream hcall hopen with ⟨hnone, more, hmore⟩ | ⟨r, hone, hread⟩
    · rw [hnone, hmore, List.append_nil]
      exact .inl ⟨ys, rfl, hys.append more⟩
    · rw [hone]
      cases ys with
      | nil =>
        rw [List.append_nil]
        exact .inr (List.prefix_append ..)
      | cons y ys =>
        obtain ⟨r', rest, hr, rfl, hrest⟩ := hys
        obtain ⟨rfl, hstream⟩ := hread r' rest hr
        rw [hstream]
        exact .inl ⟨ys, List.append_cons .., hrest⟩
  · exact .inr (hall.trans (List.prefix_append ..))

/-- A run of a connection that is not closed. -/
theorem Service.Yielding.run {P : Service → ServiceAct → Prop} [∀ sv, DecidablePred (P sv)]
    {xs : List (Except KvsError Response)} {as : List ServiceAct} (hxs : Yields (sv.conns k).stream xs)
    (hcalls : ∀ req, .call k req ∈ as → req.payload.length < 2 ^ 32)
    (hopen : (sv'.conns k).server ≠ .ended) (hs : Service.steps crc cfg P as sv = some (sv', evs)) :
    sv'.Yielding k xs evs := by
  refine Service.steps_induction
    (motive := fun as sv evs => (∀ req, .call k req ∈ as → req.payload.length < 2 ^ 32) →
      (sv.conns k).server ≠ .ended → sv.Yielding k xs evs)
    hs (fun _ _ => .inl ⟨xs, rfl, hxs⟩) (fun ih _ hstep hcalls hopen => ?_) hcalls hopen
  have hstep := serviceStep_cases hstep
  have hbefore := fun he => hopen (hstep.ended he)
  have hlast := fun req ha => hcalls req (List.mem_append_right _ (List.mem_singleton.mpr (Eq.symm ha)))
  exact (ih (fun req hm => hcalls req (List.mem_append_left _ hm)) hbefore).step hstep hlast hbefore

end Steps

end Bitcask
