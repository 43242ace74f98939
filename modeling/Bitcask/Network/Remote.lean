import Mathlib.Data.Nat.Pairing
import Bitcask.Network.Client
import Bitcask.Storage.Linearize

/-!
# Remote calls

`kvs-server` with any number of `kvs-client`s. Each connection has a thread of the server, all
threads call the one store, and the bytes of requests and responses travel in pieces. A client may go
away at any moment.

A remote call lasts from `write_request` to the response, and the call on the store in between. So
the remote calls are linearizable because those on the store are (`remote_calls_linearizable`).
-/

namespace Bitcask

open LittleEndian StreamCodec Linearizable

/-! ## Requests as calls on the store -/

/-- The call on the store that `execute` makes. -/
def Request.call : Request ≃ ClientCall where
  toFun
    | .get key => .get key
    | .set key value => .append (.set key value)
    | .rm key => .append (.remove key)
  invFun
    | .get key => .get key
    | .append (.set key value) => .set key value
    | .append (.remove key) => .rm key
  left_inv req := by cases req <;> rfl
  right_inv call := by rcases call with key | ⟨key, value⟩ | key <;> rfl

/-- The response that `execute` makes of an answer. -/
def Answer.response : Answer → Response
  | .got (.ok (some v)) => .value v
  | .got (.ok none) => .error .keyNotFound
  | .done (.ok ()) => .ok
  | .got (.error e) | .done (.error e) => .error (.ofError e)

/-- One request on a plain map. -/
def applyRequest (m : String → Option String) :
    Request → (String → Option String) × Except KvsError Response
  | .get key =>
    match m key with
    | none => (m, .error .keyNotFound)
    | some v => (m, .ok (.value v))
  | .set key value => (Function.update m key (some value), .ok .ok)
  | .rm key =>
    match m key with
    | none => (m, .error .keyNotFound)
    | some _ => (Function.update m key none, .ok .ok)

theorem applyRequest_eq (m : String → Option String) (req : Request) :
    applyRequest m req = ((applyCall m (Request.call req)).1,
      (applyCall m (Request.call req)).2.response.result) := by
  cases req with
  | set key value => rfl
  | get key =>
    simp only [applyRequest, Request.call, Equiv.coe_fn_mk, applyCall]
    cases m key <;> rfl
  | rm key =>
    simp only [applyRequest, Request.call, Equiv.coe_fn_mk, applyCall]
    cases m key <;> rfl

/-! ## The server and its clients -/

inductive ClientEnd
  | idle
  /-- In `call`. -/
  | calling
  | gone
  deriving DecidableEq, Repr

/-- The thread of a connection. -/
inductive ServerEnd
  /-- `handle` before the first byte. -/
  | opening
  | reading
  /-- In `execute`, with the call on the store. -/
  | executing (t : ℕ)
  | answered (resp : Response)
  /-- In `handle_resp`. -/
  | resp
  | ended
  deriving DecidableEq, Repr

structure Conn where
  client : ClientEnd
  server : ServerEnd
  /-- The number of calls the client has finished. -/
  turn : ℕ
  /-- What is left of the request to write. -/
  unsent : Bytes
  /-- The calls whose requests the thread has not read, by their turns. -/
  pending : List ℕ
  up : Bytes
  /-- What is left of the response to write. -/
  unwritten : Bytes
  down : Bytes

def Conn.new : Conn := ⟨.idle, .opening, 0, [], [], [], [], []⟩

structure Service where
  clients : Clients
  conns : ℕ → Conn

/-- The name of a remote call and of the call on the store it becomes: the connection, and the number
of calls before it. -/
def callName (k turn : ℕ) : ℕ := Nat.pair k turn

inductive RemoteEvent
  /-- A client starts a call. -/
  | called (t : ℕ) (req : Request)
  | store (e : ClientEvent)
  /-- A call returns what the server has responded. -/
  | answered (t : ℕ) (r : Except KvsError Response)
  /-- A call returns another error. -/
  | failed (t : ℕ) (e : KvsError)
  deriving DecidableEq

inductive ServiceAct
  | call (k : ℕ) (req : Request)
  /-- `n` bytes of a request arrive. -/
  | send (k n : ℕ)
  /-- The next section of a thread of the server. -/
  | serve (k : ℕ)
  /-- A section of a call on the store, or a step of the store. -/
  | move (m : Move)
  /-- `n` bytes of a response arrive. -/
  | write (k n : ℕ)
  /-- A call reads its response. -/
  | receive (k : ℕ)
  /-- A call fails with an error of the socket. -/
  | lose (k : ℕ) (e : KvsError)
  | quit (k : ℕ)

/-- The answer to a call among what was seen. -/
def answerIn (t : ℕ) (evs : List ClientEvent) : Option Answer :=
  evs.findSome? fun
    | .returned t' a => if t' = t then some a else none
    | _ => none

/-- A thread whose call on the store returns goes on; one whose call panics ends. -/
def Conn.hear (clients : Clients) (evs : List ClientEvent) (c : Conn) : Conn :=
  match c.server with
  | .executing t =>
    match answerIn t evs with
    | some a => { c with server := .answered a.response }
    | none => if (clients.calls t).isOver then { c with server := .ended } else c
  | _ => c

namespace Service

variable (crc : Bytes → UInt32) (cfg : Config)

def start (s : Sys) : Service := ⟨⟨s, fun _ => .unborn, none⟩, fun _ => .new⟩

def set (sv : Service) (k : ℕ) (c : Conn) : Service :=
  { sv with conns := Function.update sv.conns k c }

/-- The start of `call`. -/
def call (sv : Service) (k : ℕ) (req : Request) : Option (Service × List RemoteEvent) :=
  let c := sv.conns k
  match c.client, writeRequest req with
  | .idle, .ok bytes =>
    some (sv.set k { c with client := .calling, unsent := bytes, pending := c.pending ++ [c.turn] },
      [.called (callName k c.turn) req])
  | .idle, .error e =>
    some (sv.set k { c with turn := c.turn + 1 },
      [.called (callName k c.turn) req, .failed (callName k c.turn) e])
  | _, _ => none

/-- `handle`, from one point where it waits to the next; `none` when it has to wait. -/
def serve (sv : Service) (k : ℕ) : Option (Service × List RemoteEvent) :=
  let c := sv.conns k
  let quit := some (sv.set k { c with server := .ended }, [])
  if c.unwritten = [] then
    match c.server with
    | .opening =>
      match c.up with
      | [] => if c.client = .gone then quit else none
      | first :: _ => some (sv.set k { c with server := if isResp first then .resp else .reading }, [])
    | .reading =>
      match readFrame c.up with
      | .ok none => if c.client = .gone then quit else none
      | .ok (some (m, rest)) =>
        match c.pending with
        -- there is no frame without a call
        | [] => none
        | i :: pending =>
          match decodeRequest m.1 m.2 with
          | .ok req =>
            (sv.clients.step crc cfg (.invoke (callName k i) (Request.call req))).map fun r =>
              (({ sv with clients := r.1 } : Service).set k
                { c with up := rest, pending, server := .executing (callName k i) }, r.2.map .store)
          | .error _ =>
            some (sv.set k
              { c with up := rest, pending, server := .answered (.error .invalidRequest) }, [])
      | .error (.invalidData _) => quit
      -- a part of a frame: more may come
      | .error _ => if c.client = .gone then quit else none
    | .answered resp =>
      match writeResponse resp with
      | .ok bytes => some (sv.set k { c with server := .reading, unwritten := bytes }, [])
      | .error _ => quit
    | .executing _ | .resp | .ended => none
  else none

/-- The rest of `call`, once the request is written or can no longer be. -/
def receive (sv : Service) (k : ℕ) : Option (Service × List RemoteEvent) :=
  let c := sv.conns k
  if c.client = .calling ∧ (c.unsent = [] ∨ c.server = .ended) then
    (Bitcask.receive (c.server = .ended ∧ c.unwritten = []) c.down).map fun r =>
      (sv.set k { c with client := .idle, turn := c.turn + 1, unsent := [], down := r.2 },
        match r.1 with
        | .ok resp => [.answered (callName k c.turn) resp.result]
        | .error e => [.failed (callName k c.turn) e])
  else none

def step (sv : Service) : ServiceAct → Option (Service × List RemoteEvent)
  | .call k req => sv.call k req
  | .send k n =>
    let c := sv.conns k
    some (sv.set k { c with unsent := c.unsent.drop n, up := c.up ++ c.unsent.take n }, [])
  | .serve k => sv.serve crc cfg k
  | .move (.invoke _ _) => none
  | .move m =>
    (sv.clients.step crc cfg m).map fun r =>
      (⟨r.1, fun k => (sv.conns k).hear r.1 r.2⟩, r.2.map .store)
  | .write k n =>
    let c := sv.conns k
    some (sv.set k { c with unwritten := c.unwritten.drop n, down := c.down ++ c.unwritten.take n }, [])
  | .receive k => sv.receive k
  | .lose k e =>
    let c := sv.conns k
    if c.client = .calling ∧ c.server = .ended then
      some (sv.set k { c with client := .idle, turn := c.turn + 1, unsent := [] },
        [.failed (callName k c.turn) e])
    else none
  | .quit k => some (sv.set k { sv.conns k with client := .gone, unsent := [] }, [])

variable {crc cfg} {sv : Service} {k k' : ℕ} {c : Conn}

theorem conn_set : (sv.set k c).conns k = c := Function.update_self ..

theorem conn_set_ne (h : k' ≠ k) : (sv.set k c).conns k' = sv.conns k' := Function.update_of_ne h ..

end Service

/-- What the store does meets the conditions of its own clients. -/
def ServiceAct.Orderly (crc : Bytes → UInt32) (sv : Service) : ServiceAct → Prop
  | .move m => m.Orderly crc sv.clients
  | _ => True

instance (crc : Bytes → UInt32) (sv : Service) : DecidablePred (ServiceAct.Orderly crc sv)
  | .move m => inferInstanceAs (Decidable (m.Orderly crc sv.clients))
  | .call _ _ | .send _ _ | .serve _ | .write _ _ | .receive _ | .lose _ _ | .quit _ => .isTrue trivial

/-- What happens to a server that starts on the store `s₀`, in any order, and what is seen of it. -/
inductive ServiceRun (crc : Bytes → UInt32) (cfg : Config) (s₀ : Sys) :
    Service → List RemoteEvent → Prop
  | start : ServiceRun crc cfg s₀ (.start s₀) []
  | act {sv sv' : Service} {tr evs : List RemoteEvent} {a : ServiceAct}
      (h : ServiceRun crc cfg s₀ sv tr) (ho : a.Orderly crc sv)
      (hs : sv.step crc cfg a = some (sv', evs)) : ServiceRun crc cfg s₀ sv' (tr ++ evs)

/-- The actions `as`, if each of them can happen and meets `P`. -/
def Service.steps (crc : Bytes → UInt32) (cfg : Config) (P : Service → ServiceAct → Prop)
    [∀ sv, DecidablePred (P sv)] :
    List ServiceAct → Service → Option (Service × List RemoteEvent)
  | [], sv => some (sv, [])
  | a :: as, sv =>
    if P sv a then
      (sv.step crc cfg a).bind fun r =>
        (Service.steps crc cfg P as r.1).map fun r' => (r'.1, r.2 ++ r'.2)
    else none

/-! ## What can happen next -/

section Steps

variable {crc : Bytes → UInt32} {cfg : Config} {sv sv' : Service} {evs : List RemoteEvent}
  {a : ServiceAct}

/-- Induction along a list of actions. -/
theorem Service.steps_induction {P : Service → ServiceAct → Prop} [∀ sv, DecidablePred (P sv)]
    {motive : List ServiceAct → Service → List RemoteEvent → Prop} {as : List ServiceAct}
    (hs : Service.steps crc cfg P as sv = some (sv', evs)) (nil : motive [] sv [])
    (step : ∀ {as sv₁ evs₁ a sv₂ evs₂}, motive as sv₁ evs₁ → P sv₁ a →
      sv₁.step crc cfg a = some (sv₂, evs₂) → motive (as ++ [a]) sv₂ (evs₁ ++ evs₂)) :
    motive as sv' evs := by
  suffices hrun : ∀ done sv₀ evs₀, motive done sv₀ evs₀ →
      ∀ as evs, Service.steps crc cfg P as sv₀ = some (sv', evs) →
        motive (done ++ as) sv' (evs₀ ++ evs) from hrun [] sv [] nil as evs hs
  intro done sv₀ evs₀ h as
  induction as generalizing done sv₀ evs₀ with
  | nil =>
    intro evs hs
    cases hs
    rwa [List.append_nil, List.append_nil]
  | cons a as ih =>
    intro evs hs
    rw [Service.steps] at hs
    split at hs
    · rename_i ha
      obtain ⟨⟨sv₁, evs₁⟩, hs₁, hs⟩ := Option.bind_eq_some_iff.mp hs
      obtain ⟨⟨sv₂, evs₂⟩, hs₂, he⟩ := Option.map_eq_some_iff.mp hs
      cases he
      have hnext := ih _ _ _ (step h ha hs₁) evs₂ hs₂
      rwa [List.append_assoc, List.append_assoc, List.singleton_append] at hnext
    · cases hs

theorem ServiceRun.of_steps {s₀ : Sys} {as : List ServiceAct}
    (hs : Service.steps crc cfg (fun sv a => a.Orderly crc sv) as (.start s₀) = some (sv, evs)) :
    ServiceRun crc cfg s₀ sv evs :=
  Service.steps_induction (motive := fun _ sv evs => ServiceRun crc cfg s₀ sv evs) hs .start
    fun h ho hstep => .act h ho hstep

/-- The transitions of the service. -/
inductive ServiceStep (crc : Bytes → UInt32) (cfg : Config) (sv : Service) :
    ServiceAct → Service → List RemoteEvent → Prop
  | call (k : ℕ) (req : Request) (bytes : Bytes) (hc : (sv.conns k).client = .idle)
      (hw : writeRequest req = .ok bytes) :
    ServiceStep crc cfg sv (.call k req)
      (sv.set k { sv.conns k with
        client := .calling, unsent := bytes, pending := (sv.conns k).pending ++ [(sv.conns k).turn] })
      [.called (callName k (sv.conns k).turn) req]
  | unsendable (k : ℕ) (req : Request) (e : KvsError) (hc : (sv.conns k).client = .idle)
      (hw : writeRequest req = .error e) :
    ServiceStep crc cfg sv (.call k req)
      (sv.set k { sv.conns k with turn := (sv.conns k).turn + 1 })
      [.called (callName k (sv.conns k).turn) req, .failed (callName k (sv.conns k).turn) e]
  | send (k n : ℕ) :
    ServiceStep crc cfg sv (.send k n)
      (sv.set k { sv.conns k with
        unsent := (sv.conns k).unsent.drop n, up := (sv.conns k).up ++ (sv.conns k).unsent.take n }) []
  | accept (k : ℕ) (first : UInt8) (rest : Bytes) (hempty : (sv.conns k).unwritten = [])
      (hs : (sv.conns k).server = .opening)
      (hup : (sv.conns k).up = first :: rest) :
    ServiceStep crc cfg sv (.serve k)
      (sv.set k { sv.conns k with server := if isResp first then .resp else .reading }) []
  | hangup (k : ℕ) (hempty : (sv.conns k).unwritten = [])
      (hup : (sv.conns k).server = .reading → (sv.conns k).up = [] → (sv.conns k).client = .gone) :
    ServiceStep crc cfg sv (.serve k) (sv.set k { sv.conns k with server := .ended }) []
  | invoke (k : ℕ) (m : UInt8 × Bytes) (rest : Bytes) (req : Request) (i : ℕ) (pending : List ℕ)
      (clients : Clients) (evs : List ClientEvent) (hempty : (sv.conns k).unwritten = [])
      (hs : (sv.conns k).server = .reading)
      (hread : readFrame (sv.conns k).up = .ok (some (m, rest)))
      (hpending : (sv.conns k).pending = i :: pending)
      (hdecode : decodeRequest m.1 m.2 = .ok req)
      (hstep : sv.clients.step crc cfg (.invoke (callName k i) (Request.call req)) =
        some (clients, evs)) :
    ServiceStep crc cfg sv (.serve k)
      (({ sv with clients := clients } : Service).set k { sv.conns k with
        up := rest, pending, server := .executing (callName k i) }) (evs.map .store)
  | reject (k : ℕ) (m : UInt8 × Bytes) (rest : Bytes) (e : KvsError) (i : ℕ) (pending : List ℕ)
      (hempty : (sv.conns k).unwritten = []) (hs : (sv.conns k).server = .reading)
      (hread : readFrame (sv.conns k).up = .ok (some (m, rest)))
      (hpending : (sv.conns k).pending = i :: pending)
      (hdecode : decodeRequest m.1 m.2 = .error e) :
    ServiceStep crc cfg sv (.serve k)
      (sv.set k { sv.conns k with
        up := rest, pending, server := .answered (.error .invalidRequest) }) []
  | respond (k : ℕ) (resp : Response) (bytes : Bytes) (hempty : (sv.conns k).unwritten = [])
      (hs : (sv.conns k).server = .answered resp) (hw : writeResponse resp = .ok bytes) :
    ServiceStep crc cfg sv (.serve k)
      (sv.set k { sv.conns k with server := .reading, unwritten := bytes }) []
  | move (m : Move) (clients : Clients) (evs : List ClientEvent) (hm : ∀ t call, m ≠ .invoke t call)
      (hstep : sv.clients.step crc cfg m = some (clients, evs)) :
    ServiceStep crc cfg sv (.move m) ⟨clients, fun k => (sv.conns k).hear clients evs⟩
      (evs.map .store)
  | write (k n : ℕ) :
    ServiceStep crc cfg sv (.write k n)
      (sv.set k { sv.conns k with
        unwritten := (sv.conns k).unwritten.drop n,
        down := (sv.conns k).down ++ (sv.conns k).unwritten.take n }) []
  | answered (k : ℕ) (resp : Response) (rest : Bytes) (hc : (sv.conns k).client = .calling)
      (hr : receive ((sv.conns k).server = .ended ∧ (sv.conns k).unwritten = []) (sv.conns k).down =
        some (.ok resp, rest)) :
    ServiceStep crc cfg sv (.receive k)
      (sv.set k { sv.conns k with
        client := .idle, turn := (sv.conns k).turn + 1, unsent := [], down := rest })
      [.answered (callName k (sv.conns k).turn) resp.result]
  | failed (k : ℕ) (e : KvsError) (rest : Bytes) (hc : (sv.conns k).client = .calling)
      (hr : receive ((sv.conns k).server = .ended ∧ (sv.conns k).unwritten = []) (sv.conns k).down =
        some (.error e, rest)) :
    ServiceStep crc cfg sv (.receive k)
      (sv.set k { sv.conns k with
        client := .idle, turn := (sv.conns k).turn + 1, unsent := [], down := rest })
      [.failed (callName k (sv.conns k).turn) e]
  | lose (k : ℕ) (e : KvsError) (hc : (sv.conns k).client = .calling)
      (hs : (sv.conns k).server = .ended) :
    ServiceStep crc cfg sv (.lose k e)
      (sv.set k { sv.conns k with client := .idle, turn := (sv.conns k).turn + 1, unsent := [] })
      [.failed (callName k (sv.conns k).turn) e]
  | quit (k : ℕ) :
    ServiceStep crc cfg sv (.quit k) (sv.set k { sv.conns k with client := .gone, unsent := [] }) []

theorem serve_cases {k : ℕ} (h : sv.serve crc cfg k = some (sv', evs)) :
    ServiceStep crc cfg sv (.serve k) sv' evs := by
  simp only [Service.serve] at h
  split at h
  case isFalse => cases h
  case isTrue hempty =>
  cases hs : (sv.conns k).server with
  | executing t | resp | ended => rw [hs] at h; cases h
  | opening =>
    simp only [hs] at h
    split at h
    · split at h
      · cases h
        exact .hangup k hempty fun hr => by rw [hs] at hr; cases hr
      · cases h
    · rename_i first rest hup
      cases h
      exact .accept k first rest hempty hs hup
  | answered resp =>
    simp only [hs] at h
    split at h
    · rename_i bytes hw
      cases h
      exact .respond k resp bytes hempty hs hw
    · cases h
      exact .hangup k hempty fun hr => by rw [hs] at hr; cases hr
  | reading =>
    simp only [hs] at h
    split at h
    · split at h
      · rename_i hgone
        cases h
        exact .hangup k hempty fun _ _ => hgone
      · cases h
    · rename_i m rest hread
      split at h
      · cases h
      · rename_i i pending hpending
        split at h
        · rename_i req hdecode
          obtain ⟨⟨clients, evs'⟩, hstep, he⟩ := Option.map_eq_some_iff.mp h
          cases he
          exact .invoke k m rest req i pending clients evs' hempty hs hread hpending hdecode hstep
        · rename_i e hdecode
          cases h
          exact .reject k m rest e i pending hempty hs hread hpending hdecode
    · rename_i msg hread
      cases h
      exact .hangup k hempty fun _ hup => by rw [hup] at hread; cases hread
    · split at h
      · rename_i hgone
        cases h
        exact .hangup k hempty fun _ _ => hgone
      · cases h

theorem serviceStep_cases (h : sv.step crc cfg a = some (sv', evs)) :
    ServiceStep crc cfg sv a sv' evs := by
  cases a with
  | call k req =>
    simp only [Service.step, Service.call] at h
    split at h
    · rename_i hc hw
      cases h
      exact .call k req _ hc hw
    · rename_i hc hw
      cases h
      exact .unsendable k req _ hc hw
    · cases h
  | send k n => cases h; exact .send k n
  | serve k => exact serve_cases h
  | write k n => cases h; exact .write k n
  | quit k => cases h; exact .quit k
  | receive k =>
    simp only [Service.step, Service.receive] at h
    split at h
    · rename_i hc
      obtain ⟨⟨r, rest⟩, hr, he⟩ := Option.map_eq_some_iff.mp h
      cases r with
      | ok resp => cases he; exact .answered k resp rest hc.1 hr
      | error e => cases he; exact .failed k e rest hc.1 hr
    · cases h
  | lose k e =>
    simp only [Service.step] at h
    split at h
    · rename_i hc
      cases h
      exact .lose k e hc.1 hc.2
    · cases h
  | move m =>
    have hm : ∀ t call, m ≠ .invoke t call := by
      rintro t call rfl
      cases h
    have hstep : sv.step crc cfg (.move m) = (sv.clients.step crc cfg m).map fun r =>
        (⟨r.1, fun k => (sv.conns k).hear r.1 r.2⟩, r.2.map .store) := by
      cases m with
      | invoke t call => exact absurd rfl (hm t call)
      | run | store => rfl
    rw [hstep] at h
    obtain ⟨⟨clients, evs'⟩, hs, he⟩ := Option.map_eq_some_iff.mp h
    cases he
    exact .move m clients evs' hm hs

end Steps

/-! ## Histories -/

/-- What a client sees of an event. -/
def RemoteEvent.visible : RemoteEvent → Option (Event ℕ Request (Except KvsError Response))
  | .called t req => some (.inv t req)
  | .answered t r => some (.ret t r)
  | .store _ | .failed _ _ => none

/-- The remote calls and the responses to them. -/
def remoteHistory (tr : List RemoteEvent) : List (Event ℕ Request (Except KvsError Response)) :=
  tr.filterMap RemoteEvent.visible

def RemoteEvent.store? : RemoteEvent → Option ClientEvent
  | .store e => some e
  | _ => none

/-- What is seen of the calls on the store. -/
def storeTrace (tr : List RemoteEvent) : List ClientEvent := tr.filterMap RemoteEvent.store?

def RemoteEvent.layered :
    RemoteEvent → Option (Layered ℕ ClientCall Answer Request (Except KvsError Response))
  | .called t req => some (.outer (.inv t req))
  | .answered t r => some (.outer (.ret t r))
  | .store e => e.visible.map .inner
  | .failed _ _ => none

/-- Both ends of the server. -/
def layers (tr : List RemoteEvent) :
    List (Layered ℕ ClientCall Answer Request (Except KvsError Response)) :=
  tr.filterMap RemoteEvent.layered

section Histories

variable {tr evs : List RemoteEvent} {t : ℕ}

theorem outers_layers (tr : List RemoteEvent) : outers (layers tr) = remoteHistory tr := by
  unfold outers layers remoteHistory
  rw [List.filterMap_filterMap]
  refine List.filterMap_congr fun e _ => ?_
  cases e with
  | store e => cases e <;> rfl
  | _ => rfl

theorem inners_layers (tr : List RemoteEvent) : inners (layers tr) = history (storeTrace tr) := by
  unfold inners layers history storeTrace
  rw [List.filterMap_filterMap, List.filterMap_filterMap]
  refine List.filterMap_congr fun e _ => ?_
  cases e with
  | store e => cases e <;> rfl
  | _ => rfl

theorem layers_append (tr evs : List RemoteEvent) : layers (tr ++ evs) = layers tr ++ layers evs :=
  List.filterMap_append

theorem storeTrace_append (tr evs : List RemoteEvent) :
    storeTrace (tr ++ evs) = storeTrace tr ++ storeTrace evs :=
  List.filterMap_append

theorem storeTrace_store (evs : List ClientEvent) : storeTrace (evs.map .store) = evs := by
  unfold storeTrace
  rw [List.filterMap_map]
  exact List.filterMap_some

theorem called_mem_layers {req : Request} :
    .outer (.inv t req) ∈ layers tr ↔ .called t req ∈ tr := by
  refine ⟨fun h => ?_, fun h => List.mem_filterMap.mpr ⟨_, h, rfl⟩⟩
  obtain ⟨e, he, heq⟩ := List.mem_filterMap.mp h
  cases e with
  | called => cases heq; exact he
  | store e => cases e <;> cases heq
  | answered | failed => cases heq

theorem returned_mem_layers {a : Answer} (h : .store (.returned t a) ∈ tr) :
    .inner (.ret t a) ∈ layers tr :=
  List.mem_filterMap.mpr ⟨_, h, rfl⟩

end Histories

/-! ## The stages of a connection -/

/-- No call has this name yet. -/
structure Untouched (tr : List RemoteEvent) (clients : Clients) (t : ℕ) : Prop where
  called : ∀ req, .called t req ∉ tr
  unborn : clients.calls t = .unborn

/-- Nothing is on its way. -/
structure Conn.Silent (c : Conn) : Prop where
  unsent : c.unsent = []
  up : c.up = []
  unwritten : c.unwritten = []
  down : c.down = []
  pending : c.pending = []

/-- How far a connection is with the call `t`. -/
inductive Conn.Stage (tr : List RemoteEvent) (clients : Clients) (t : ℕ) (c : Conn) : Prop
  | quiet (hclient : c.client ≠ .calling) (hserver : c.server = .opening ∨ c.server = .reading)
      (hbytes : c.Silent) (hnew : Untouched tr clients t)
  | requested (req : Request) (w : Bytes) (hclient : c.client ≠ .idle)
      (hserver : c.server = .opening ∨ c.server = .reading) (hpending : c.pending = [c.turn])
      (hw : writeRequest req = .ok w) (hup : c.up ++ c.unsent <+: w) (hunwritten : c.unwritten = []) (hdown : c.down = [])
      (hcalled : .called t req ∈ tr) (hnew : clients.calls t = .unborn)
  | executing (hclient : c.client ≠ .idle) (hserver : c.server = .executing t) (hbytes : c.Silent)
  | answered (a : Answer) (hclient : c.client ≠ .idle) (hserver : c.server = .answered a.response)
      (hbytes : c.Silent) (hret : .store (.returned t a) ∈ tr)
  | replied (a : Answer) (hclient : c.client ≠ .idle) (hserver : c.server = .reading)
      (hpending : c.pending = []) (hfit : a.response.payload.length ≤ maxPayload)
      (hunsent : c.unsent = []) (hup : c.up = [])
      (hdown : c.down ++ c.unwritten = responseFrame a.response)
      (hret : .store (.returned t a) ∈ tr)
  | ended (hserver : c.server = .ended)
      (hbytes : c.client ≠ .gone → c.unwritten = [] ∧ c.down = [])
      (hnew : c.client = .idle → Untouched tr clients t)

section Stages

variable {tr tr' evs : List RemoteEvent} {clients clients' : Clients} {t : ℕ} {c : Conn}

theorem Untouched.mono (h : Untouched tr clients t) (hev : ∀ req, .called t req ∉ evs)
    (hborn : clients'.calls t = .unborn) : Untouched (tr ++ evs) clients' t :=
  ⟨fun req hm => (List.mem_append.mp hm).elim (h.called req) (hev req), hborn⟩

/-- A stage outlasts what happens elsewhere. -/
theorem Conn.Stage.mono (h : c.Stage tr clients t) (hev : ∀ req, .called t req ∉ evs)
    (hborn : clients.calls t = .unborn → clients'.calls t = .unborn) :
    c.Stage (tr ++ evs) clients' t := by
  cases h with
  | quiet hclient hserver hbytes hnew =>
    exact .quiet hclient hserver hbytes (hnew.mono hev (hborn hnew.unborn))
  | requested req w hclient hserver hpending hw hup hunwritten hdown hcalled hnew =>
    exact .requested req w hclient hserver hpending hw hup hunwritten hdown
      (List.mem_append_left _ hcalled) (hborn hnew)
  | executing hclient hserver hbytes => exact .executing hclient hserver hbytes
  | answered a hclient hserver hbytes hret =>
    exact .answered a hclient hserver hbytes (List.mem_append_left _ hret)
  | replied a hclient hserver hpending hfit hunsent hup hdown hret =>
    exact .replied a hclient hserver hpending hfit hunsent hup hdown (List.mem_append_left _ hret)
  | ended hserver hbytes hnew =>
    exact .ended hserver hbytes fun hc => (hnew hc).mono hev (hborn (hnew hc).unborn)

theorem Conn.Stage.untouched (h : c.Stage tr clients t) (hc : c.client = .idle) :
    Untouched tr clients t := by
  cases h with
  | quiet _ _ _ hnew => exact hnew
  | ended _ _ hnew => exact hnew hc
  | requested _ _ hclient | executing hclient | answered _ hclient | replied _ hclient =>
    exact absurd hc hclient

/-- A client starts a call. -/
theorem Conn.Stage.call (h : c.Stage tr clients t) (hc : c.client = .idle) {req : Request}
    {bytes : Bytes} (hw : writeRequest req = .ok bytes) :
    Conn.Stage (tr ++ [.called t req]) clients t
      { c with client := .calling, unsent := bytes, pending := c.pending ++ [c.turn] } := by
  cases h with
  | quiet _ hserver hbytes hnew =>
    refine .requested req bytes nofun hserver ?_ hw ?_ hbytes.unwritten hbytes.down
      (List.mem_append_right _ (List.mem_singleton_self _)) hnew.unborn
    · show c.pending ++ [c.turn] = [c.turn]
      rw [hbytes.pending, List.nil_append]
    · show c.up ++ bytes <+: bytes
      rw [hbytes.up, List.nil_append]
  | ended hserver hbytes _ => exact .ended hserver (fun _ => hbytes (by rw [hc]; nofun)) nofun
  | requested _ _ hclient | executing hclient | answered _ hclient | replied _ hclient =>
    exact absurd hc hclient

/-- A call that cannot be sent is over at once. -/
theorem Conn.Stage.unsendable (h : c.Stage tr clients t) (hc : c.client = .idle) {t' : ℕ}
    (hnext : Untouched tr' clients t') :
    Conn.Stage tr' clients t' { c with turn := c.turn + 1 } := by
  cases h with
  | quiet hclient hserver hbytes _ =>
    exact .quiet hclient hserver
      ⟨hbytes.unsent, hbytes.up, hbytes.unwritten, hbytes.down, hbytes.pending⟩ hnext
  | ended hserver hbytes _ => exact .ended hserver hbytes fun _ => hnext
  | requested _ _ hclient | executing hclient | answered _ hclient | replied _ hclient =>
    exact absurd hc hclient

theorem Conn.Stage.send (h : c.Stage tr clients t) (n : ℕ) :
    Conn.Stage tr clients t
      { c with unsent := c.unsent.drop n, up := c.up ++ c.unsent.take n } := by
  have hsilent : c.Silent → Conn.Silent { c with
      unsent := c.unsent.drop n, up := c.up ++ c.unsent.take n } := fun hb =>
    ⟨by simp [hb.unsent], by simp [hb.unsent, hb.up], hb.unwritten, hb.down, hb.pending⟩
  cases h with
  | quiet hclient hserver hbytes hnew => exact .quiet hclient hserver (hsilent hbytes) hnew
  | requested req w hclient hserver hpending hw hup hunwritten hdown hcalled hnew =>
    refine .requested req w hclient hserver hpending hw ?_ hunwritten hdown hcalled hnew
    show c.up ++ c.unsent.take n ++ c.unsent.drop n <+: w
    rwa [List.append_assoc, List.take_append_drop]
  | executing hclient hserver hbytes => exact .executing hclient hserver (hsilent hbytes)
  | answered a hclient hserver hbytes hret => exact .answered a hclient hserver (hsilent hbytes) hret
  | replied a hclient hserver hpending hfit hunsent hup hdown hret =>
    exact .replied a hclient hserver hpending hfit (by simp [hunsent]) (by simp [hunsent, hup]) hdown
      hret
  | ended hserver hbytes hnew => exact .ended hserver hbytes hnew

theorem Conn.Stage.write (h : c.Stage tr clients t) (n : ℕ) :
    Conn.Stage tr clients t
      { c with unwritten := c.unwritten.drop n, down := c.down ++ c.unwritten.take n } := by
  have hsilent : c.Silent → Conn.Silent { c with
      unwritten := c.unwritten.drop n, down := c.down ++ c.unwritten.take n } := fun hb =>
    ⟨hb.unsent, hb.up, by simp [hb.unwritten], by simp [hb.unwritten, hb.down], hb.pending⟩
  cases h with
  | quiet hclient hserver hbytes hnew => exact .quiet hclient hserver (hsilent hbytes) hnew
  | requested req w hclient hserver hpending hw hup hunwritten hdown hcalled hnew =>
    exact .requested req w hclient hserver hpending hw hup (by simp [hunwritten])
      (by simp [hunwritten, hdown]) hcalled hnew
  | executing hclient hserver hbytes => exact .executing hclient hserver (hsilent hbytes)
  | answered a hclient hserver hbytes hret => exact .answered a hclient hserver (hsilent hbytes) hret
  | replied a hclient hserver hpending hfit hunsent hup hdown hret =>
    refine .replied a hclient hserver hpending hfit hunsent hup ?_ hret
    show c.down ++ c.unwritten.take n ++ c.unwritten.drop n = _
    rwa [List.append_assoc, List.take_append_drop]
  | ended hserver hbytes hnew =>
    exact .ended hserver (fun hc => by simp [hbytes hc]) hnew

theorem Conn.Stage.quit (h : c.Stage tr clients t) :
    Conn.Stage tr clients t { c with client := .gone, unsent := [] } := by
  have hsilent : c.Silent → Conn.Silent { c with client := .gone, unsent := [] } := fun hb =>
    ⟨rfl, hb.up, hb.unwritten, hb.down, hb.pending⟩
  cases h with
  | quiet _ hserver hbytes hnew => exact .quiet nofun hserver (hsilent hbytes) hnew
  | requested req w _ hserver hpending hw hup hunwritten hdown hcalled hnew =>
    refine .requested req w nofun hserver hpending hw ?_ hunwritten hdown hcalled hnew
    show c.up ++ [] <+: w
    rw [List.append_nil]
    exact (List.prefix_append ..).trans hup
  | executing _ hserver hbytes => exact .executing nofun hserver (hsilent hbytes)
  | answered a _ hserver hbytes hret => exact .answered a nofun hserver (hsilent hbytes) hret
  | replied a _ hserver hpending hfit _ hup hdown hret =>
    exact .replied a nofun hserver hpending hfit rfl hup hdown hret
  | ended hserver _ _ => exact .ended hserver (absurd rfl) nofun

/-- The first byte of a request is not one of RESP. -/
theorem Conn.Stage.accept (h : c.Stage tr clients t) {first : UInt8} {rest : Bytes}
    (hs : c.server = .opening) (hup : c.up = first :: rest) :
    Conn.Stage tr clients t { c with server := if isResp first then .resp else .reading } := by
  cases h with
  | quiet _ _ hbytes =>
    rw [hbytes.up] at hup
    cases hup
  | requested req w hclient hserver hpending hw hpre hunwritten hdown hcalled hnew =>
    have hfirst : first = req.msgType := by
      have hframe := hw
      rw [writeRequest_eq, writeFrame_ite] at hframe
      split at hframe
      · rw [hup, ← Except.ok.inj hframe] at hpre
        exact (List.cons_prefix_cons.mp hpre).1
      · cases hframe
    have hresp : isResp first = false := by
      rw [hfirst]
      cases req <;> rfl
    rw [hresp]
    exact .requested req w hclient (Or.inr rfl) hpending hw hpre hunwritten hdown hcalled hnew
  | executing _ hserver | answered _ _ hserver | replied _ _ hserver | ended hserver =>
    rw [hserver] at hs
    cases hs

/-- A thread ends. -/
theorem Conn.Stage.hangup (h : c.Stage tr clients t)
    (hup : c.server = .reading → c.up = [] → c.client = .gone) :
    Conn.Stage tr clients t { c with server := .ended } := by
  cases h with
  | quiet _ _ hbytes hnew =>
    exact .ended rfl (fun _ => ⟨hbytes.unwritten, hbytes.down⟩) fun _ => hnew
  | requested req w hclient _ _ _ _ hunwritten hdown =>
    exact .ended rfl (fun _ => ⟨hunwritten, hdown⟩) fun hc => absurd hc hclient
  | executing hclient _ hbytes | answered _ hclient _ hbytes =>
    exact .ended rfl (fun _ => ⟨hbytes.unwritten, hbytes.down⟩) fun hc => absurd hc hclient
  | replied a hclient hserver _ _ _ hup' =>
    exact .ended rfl (fun hc => absurd (hup hserver hup') hc) fun hc => absurd hc hclient
  | ended hserver hbytes hnew => exact .ended rfl hbytes hnew

/-- A call returns: its response has arrived, or the server has closed the connection. -/
theorem Conn.Stage.receive (h : c.Stage tr clients t) (hc : c.client = .calling)
    {r : Except KvsError Response} {rest : Bytes}
    (hr : Bitcask.receive (c.server = .ended ∧ c.unwritten = []) c.down = some (r, rest)) :
    (∃ a, .store (.returned t a) ∈ tr ∧ r = .ok a.response ∧ c.server = .reading ∧
      Conn.Silent { c with unsent := [], down := rest }) ∨
    (∃ e, r = .error e) ∧ c.server = .ended ∧ c.unwritten = [] ∧ rest = [] := by
  have hwait : c.server ≠ .ended → c.down = [] → False := by
    intro hs hd
    rw [hd, decide_eq_false fun h => hs h.1] at hr
    cases hr
  cases h with
  | quiet hclient => exact absurd hc hclient
  | requested _ _ _ hserver _ _ _ _ hdown =>
    exact (hwait (by rcases hserver with h | h <;> rw [h] <;> nofun) hdown).elim
  | executing _ hserver hbytes | answered _ _ hserver hbytes =>
    exact (hwait (by rw [hserver]; nofun) hbytes.down).elim
  | replied a _ hserver hpending hfit hunsent hup hdown hret =>
    left
    rw [decide_eq_false fun h => by rw [hserver] at h; cases h.1] at hr
    by_cases hall : c.unwritten = []
    · rw [hall, List.append_nil] at hdown
      have hrecv : Bitcask.receive false (responseFrame _ ++ []) = _ := receive_response hfit
      rw [List.append_nil, ← hdown, hr] at hrecv
      cases hrecv
      exact ⟨a, hret, rfl, hserver, rfl, hup, hall, rfl, hpending⟩
    · -- a part of the response is missing
      have hlen := congrArg List.length hdown
      rw [List.length_append] at hlen
      have hpos := List.length_pos_iff.mpr hall
      have hrecv := receive_waits hfit (n := c.down.length) (by omega)
      rw [← hdown, List.take_left, hr] at hrecv
      cases hrecv
  | ended hserver hbytes _ =>
    right
    obtain ⟨hunwritten, hdown⟩ := hbytes (by rw [hc]; nofun)
    rw [hdown, decide_eq_true ⟨hserver, hunwritten⟩] at hr
    cases hr
    exact ⟨⟨_, rfl⟩, hserver, hunwritten, rfl⟩

theorem mem_of_answerIn {evs : List ClientEvent} {a : Answer} (h : answerIn t evs = some a) :
    .returned t a ∈ evs := by
  obtain ⟨e, he, hx⟩ := List.exists_of_findSome?_eq_some h
  cases e with
  | returned t' a' =>
    simp only at hx
    split at hx
    · rename_i ht
      cases hx
      rw [← ht]
      exact he
    · cases hx
  | _ => cases hx

/-- A stage when calls on the store go on. -/
theorem Conn.Stage.hear {evs : List ClientEvent} (h : c.Stage tr clients t)
    (hborn : clients.calls t = .unborn → clients'.calls t = .unborn) :
    (c.hear clients' evs).Stage (tr ++ evs.map .store) clients' t := by
  have hev : ∀ req, RemoteEvent.called t req ∉ evs.map .store := by simp
  by_cases hx : ∃ t', c.server = .executing t'
  · obtain ⟨t', hx⟩ := hx
    -- only a connection that executes its call does
    obtain ⟨hclient, rfl, hbytes⟩ : c.client ≠ .idle ∧ t' = t ∧ c.Silent := by
      cases h with
      | executing hclient hserver hbytes =>
        rw [hserver] at hx
        cases hx
        exact ⟨hclient, rfl, hbytes⟩
      | quiet _ hserver | requested _ _ _ hserver =>
        rcases hserver with hserver | hserver <;> rw [hserver] at hx <;> cases hx
      | answered _ _ hserver | replied _ _ hserver | ended hserver => rw [hserver] at hx; cases hx
    unfold Conn.hear
    rw [hx]
    simp only
    split
    · rename_i a ha
      exact .answered a hclient rfl
        ⟨hbytes.unsent, hbytes.up, hbytes.unwritten, hbytes.down, hbytes.pending⟩
        (List.mem_append_right _ (List.mem_map_of_mem (mem_of_answerIn ha)))
    · split
      · exact .ended rfl (fun _ => ⟨hbytes.unwritten, hbytes.down⟩) fun hi => absurd hi hclient
      · exact .executing hclient hx hbytes
  · have hsame : c.hear clients' evs = c := by
      unfold Conn.hear
      split
      · rename_i t' ht
        exact absurd ⟨t', ht⟩ hx
      · rfl
    rw [hsame]
    exact h.mono hev hborn

end Stages

/-! ## Requests and values in flight -/

/-- A frame that can be read at the front of a request is the whole request. -/
theorem request_read {req : Request} {w up unsent rest : Bytes} {m : UInt8 × Bytes}
    (hw : writeRequest req = .ok w) (hup : up ++ unsent <+: w)
    (hread : readFrame up = .ok (some (m, rest))) :
    decodeRequest m.1 m.2 = .ok req ∧ req.payload.length ≤ maxPayload ∧ rest = [] ∧ unsent = [] := by
  have h32 : req.payload.length < 2 ^ 32 := by
    by_contra hn
    rw [writeRequest_eq, writeFrame_ite, if_neg hn] at hw
    cases hw
  obtain rfl : frame req.msgType req.payload = w := Except.ok.inj ((writeRequest_sent h32).symm.trans hw)
  obtain ⟨more, hmore⟩ := hup
  have hm := readFrame_payload hread
  have hread' : readFrame (frame req.msgType req.payload ++ []) =
      .ok (some (m, rest ++ (unsent ++ more))) := by
    rw [List.append_nil, ← hmore, frame_of_readFrame hread]
    simp only [List.append_assoc]
    exact readFrame_frame hm _
  rcases Nat.lt_or_ge maxPayload req.payload.length with hlarge | hfit
  · rw [readFrame_oversized hlarge h32] at hread'
    cases hread'
  · rw [readFrame_frame hfit] at hread'
    obtain ⟨rfl, hrest⟩ := Prod.mk.inj (Option.some.inj (Except.ok.inj hread'))
    obtain ⟨hr, hum⟩ := List.append_eq_nil_iff.mp hrest.symm
    exact ⟨(decodeRequest_iff hfit).mpr ⟨rfl, rfl⟩, hfit, hr, (List.append_eq_nil_iff.mp hum).1⟩

section Values

variable {es : List (Entry ℕ ClientCall Answer)} {m : String → Option String}

/-- The values of a map can be sent. -/
def MapFits (m : String → Option String) : Prop :=
  ∀ key v, m key = some v → (asBytes v).length ≤ maxPayload

/-- A call whose request can be sent. -/
def ClientCall.Fits (call : ClientCall) : Prop :=
  (Request.call.symm call).payload.length ≤ maxPayload

theorem MapFits.update (h : MapFits m) {key : String} {x : Option String}
    (hx : ∀ v, x = some v → (asBytes v).length ≤ maxPayload) : MapFits (Function.update m key x) := by
  intro key' v hv
  by_cases hk : key' = key
  · rw [hk, Function.update_self] at hv
    exact hx v hv
  · rw [Function.update_of_ne hk] at hv
    exact h key' v hv

theorem MapFits.apply (h : MapFits m) {call : ClientCall} (hcall : call.Fits) :
    MapFits (applyCall m call).1 := by
  rcases call with key | ⟨key, value⟩ | key
  · exact h
  · refine h.update fun v hv => ?_
    have hpayload : (toLe 4 (asBytes key).length ++ asBytes key ++ asBytes value).length ≤
      maxPayload := hcall
    rw [List.length_append] at hpayload
    cases hv
    omega
  · cases hk : m key with
    | none =>
      simp only [applyCall, hk]
      exact h
    | some v =>
      simp only [applyCall, hk]
      exact h.update fun v hv => absurd hv.symm (Option.some_ne_none v)

theorem MapFits.response (h : MapFits m) (call : ClientCall) :
    (applyCall m call).2.response.payload.length ≤ maxPayload := by
  rcases call with key | ⟨key, value⟩ | key
  · cases hk : m key with
    | none => simp only [applyCall, hk]; decide
    | some v => simp only [applyCall, hk]; exact h key v hk
  · exact Nat.zero_le _
  · cases hk : m key with
    | none => simp only [applyCall, hk]; decide
    | some v => simp only [applyCall, hk]; exact Nat.zero_le _

/-- The answers to requests that can be sent can be sent. -/
theorem Legal.response_fits (hl : Legal applyCall m es) (h : MapFits m) (hes : ∀ e ∈ es, e.op.Fits) :
    ∀ e ∈ es, e.answer.response.payload.length ≤ maxPayload := by
  induction es generalizing m with
  | nil => simp
  | cons e es ih =>
    intro e' he'
    rcases List.mem_cons.mp he' with rfl | he'
    · rw [← hl.1]
      exact h.response _
    · exact ih hl.2 (h.apply (hes e List.mem_cons_self))
        (fun x hx => hes x (List.mem_cons_of_mem _ hx)) e' he'

end Values

/-- A request that can be read is the one that was sent. -/
theorem Conn.Stage.requested_of_read {tr : List RemoteEvent} {clients : Clients} {t : ℕ} {c : Conn}
    (h : c.Stage tr clients t) {m : UInt8 × Bytes} {rest : Bytes} (hs : c.server = .reading)
    (hread : readFrame c.up = .ok (some (m, rest))) :
    ∃ req, decodeRequest m.1 m.2 = .ok req ∧ req.payload.length ≤ maxPayload ∧ .called t req ∈ tr ∧
      c.client ≠ .idle ∧ c.pending = [c.turn] ∧ Conn.Silent { c with up := rest, pending := [] } := by
  cases h with
  | requested req w hclient _ hpending hw hup hunwritten hdown hcalled _ =>
    obtain ⟨hdecode, hfit, hrest, hunsent⟩ := request_read hw hup hread
    exact ⟨req, hdecode, hfit, hcalled, hclient, hpending, hunsent, hrest, hunwritten, hdown, rfl⟩
  | quiet _ _ hbytes =>
    rw [hbytes.up] at hread
    cases hread
  | replied _ _ _ _ _ _ hup =>
    rw [hup] at hread
    cases hread
  | executing _ hserver | answered _ _ hserver | ended hserver =>
    rw [hserver] at hs
    cases hs

/-- Only an invocation is seen as one. -/
theorem ClientStep.not_invoked {crc : Bytes → UInt32} {cfg : Config} {c c' : Clients} {m : Move}
    {evs : List ClientEvent} (hs : ClientStep crc cfg c m c' evs)
    (hm : ∀ t call, m ≠ .invoke t call) (t : ℕ) (call : ClientCall) : .invoked t call ∉ evs := by
  cases hs with
  | invoke t' call' _ => exact absurd rfl (hm t' call')
  | finish => split <;> simp
  | _ => simp

/-! ## What every run preserves -/

/-- The state of the server and its clients, with what was seen. -/
structure Service.Inv (crc : Bytes → UInt32) (cfg : Config) (s₀ : Sys) (sv : Service)
    (tr : List RemoteEvent) : Prop where
  run : ClientRun crc cfg (fun c m => m.Orderly crc c) s₀ sv.clients (storeTrace tr)
  forwards : Forwards Request.call (fun a => a.response.result) (layers tr)
  /-- The requests that reach the store are those the server accepts. -/
  sized : ∀ t call, .invoked t call ∈ storeTrace tr → call.Fits
  stage : ∀ k, (sv.conns k).Stage tr sv.clients (callName k (sv.conns k).turn)
  fresh : ∀ k i, (sv.conns k).turn < i → Untouched tr sv.clients (callName k i)

section Preserved

variable {crc : Bytes → UInt32} {cfg : Config} {s₀ : Sys} {ops₀ : List Command}
  {m₀ : String → Option String} {sv sv' : Service} {tr evs : List RemoteEvent} {a : ServiceAct}

theorem callName_inj {k k' i i' : ℕ} (h : callName k i = callName k' i') : k = k' ∧ i = i' :=
  Nat.pair_eq_pair.mp h

/-- An event on one connection, which concerns its current call. -/
theorem Service.Inv.update (h : sv.Inv crc cfg s₀ tr) {k : ℕ} {c : Conn} {clients : Clients}
    (hrun : ClientRun crc cfg (fun c m => m.Orderly crc c) s₀ clients (storeTrace (tr ++ evs)))
    (hfwd : Forwards Request.call (fun a => a.response.result) (layers (tr ++ evs)))
    (hsized : ∀ t call, .invoked t call ∈ storeTrace (tr ++ evs) → call.Fits)
    (hev : ∀ t req, .called t req ∈ evs → t = callName k (sv.conns k).turn)
    (hborn : ∀ t, t ≠ callName k (sv.conns k).turn → sv.clients.calls t = .unborn →
      clients.calls t = .unborn)
    (hturn : (sv.conns k).turn ≤ c.turn) (hstage : c.Stage (tr ++ evs) clients (callName k c.turn)) :
    (({ sv with clients := clients } : Service).set k c).Inv crc cfg s₀ (tr ++ evs) where
  run := hrun
  forwards := hfwd
  sized := hsized
  stage k' := by
    by_cases hk : k' = k
    · subst hk
      rw [Service.conn_set]
      exact hstage
    · rw [Service.conn_set_ne hk]
      have hne : callName k' (sv.conns k').turn ≠ callName k (sv.conns k).turn :=
        fun he => hk (callName_inj he).1
      exact (h.stage k').mono (fun req hm => hne (hev _ req hm)) (hborn _ hne)
  fresh k' i hi := by
    have hold : (sv.conns k').turn < i := by
      by_cases hk : k' = k
      · subst hk
        rw [Service.conn_set] at hi
        omega
      · rwa [Service.conn_set_ne hk] at hi
    have hne : callName k' i ≠ callName k (sv.conns k).turn := by
      intro he
      obtain ⟨rfl, rfl⟩ := callName_inj he
      exact lt_irrefl _ hold
    have hnew := h.fresh k' i hold
    exact hnew.mono (fun req hm => hne (hev _ req hm)) (hborn _ hne hnew.unborn)

/-- An event on one connection that the store has no part in. -/
theorem Service.Inv.onConn (h : sv.Inv crc cfg s₀ tr) {k : ℕ} {c : Conn} (hstore : storeTrace evs = [])
    (hfwd : Forwards Request.call (fun a => a.response.result) (layers (tr ++ evs)))
    (hev : ∀ t req, .called t req ∈ evs → t = callName k (sv.conns k).turn)
    (hturn : (sv.conns k).turn ≤ c.turn)
    (hstage : c.Stage (tr ++ evs) sv.clients (callName k c.turn)) :
    (sv.set k c).Inv crc cfg s₀ (tr ++ evs) := by
  have htrace : storeTrace (tr ++ evs) = storeTrace tr := by
    rw [storeTrace_append, hstore, List.append_nil]
  refine h.update ?_ hfwd ?_ hev (fun _ _ ht => ht) hturn hstage <;> rw [htrace]
  · exact h.run
  · exact h.sized

/-- A step of one connection that nobody sees. -/
theorem Service.Inv.quietly (h : sv.Inv crc cfg s₀ tr) {k : ℕ} {c : Conn}
    (hturn : c.turn = (sv.conns k).turn)
    (hstage : c.Stage tr sv.clients (callName k (sv.conns k).turn)) :
    (sv.set k c).Inv crc cfg s₀ (tr ++ []) := by
  have htr : tr ++ [] = tr := List.append_nil tr
  refine h.onConn rfl ?_ nofun hturn.ge ?_ <;> rw [htr]
  · exact h.forwards
  · rw [hturn]
    exact hstage

/-- The answers of the store can be sent. -/
theorem Service.Inv.response_fits (h : sv.Inv crc cfg s₀ tr)
    (h₀ : Reach crc (fun _ a => a.Nominal) (.running cfg s₀) ops₀) (hfree : s₀.lock = .free)
    (hm₀ : MapOf ops₀ m₀) (hfit : MapFits m₀) {t : ℕ} {a : Answer}
    (hret : .store (.returned t a) ∈ tr) : a.response.payload.length ≤ maxPayload := by
  obtain ⟨es, he⟩ := h.run.explains h₀ hfree hm₀
  have hmem : .ret t a ∈ history (storeTrace tr) := by
    rw [← inners_layers]
    exact mem_inners.mpr (returned_mem_layers hret)
  obtain ⟨o, ho⟩ := he.lin.answered t a hmem
  refine Legal.response_fits he.lin.legal hfit (fun e he' => ?_) _ ho
  obtain ⟨ev, hev, hvis⟩ := List.mem_filterMap.mp (he.lin.invoked e he')
  cases ev with
  | invoked t' call =>
    cases hvis
    exact h.sized _ _ hev
  | returned | looked | updated => cases hvis

/-- A step of the calls on the store. -/
theorem Service.Inv.move (h : sv.Inv crc cfg s₀ tr)
    (h₀ : Reach crc (fun _ a => a.Nominal) (.running cfg s₀) ops₀) (hfree : s₀.lock = .free)
    {m : Move} {clients : Clients} {evs : List ClientEvent} (hm : ∀ t call, m ≠ .invoke t call)
    (ho : m.Orderly crc sv.clients) (hstep : sv.clients.step crc cfg m = some (clients, evs)) :
    Service.Inv crc cfg s₀ ⟨clients, fun k => (sv.conns k).hear clients evs⟩
      (tr ++ evs.map .store) := by
  have hs := clientStep_cases hstep
  have howner := (h.run.inv (fun ho => ho.nominal) h₀ hfree).owner
  have hmakes : m.makes = [] := by
    cases m with
    | invoke t call => exact absurd rfl (hm t call)
    | run | store => rfl
  have hborn : ∀ t, sv.clients.calls t = .unborn → clients.calls t = .unborn :=
    fun t ht => hs.unborn howner (by rw [hmakes]; nofun) ht
  have hinv := hs.not_invoked hm
  have hturn : ∀ k, ((sv.conns k).hear clients evs).turn = (sv.conns k).turn := by
    intro k
    unfold Conn.hear
    repeat' split
    all_goals rfl
  refine ⟨?_, ?_, ?_, fun k => ?_, fun k i hi => ?_⟩
  · rw [storeTrace_append, storeTrace_store]
    exact h.run.move ho hstep
  · rw [layers_append]
    refine h.forwards.replies fun x hx => ?_
    obtain ⟨e, he, hx⟩ := List.mem_filterMap.mp hx
    obtain ⟨e, he', rfl⟩ := List.mem_map.mp he
    cases e with
    | returned t a => exact ⟨t, a, (Option.some.inj hx).symm⟩
    | invoked t call => exact absurd he' (hinv t call)
    | looked | updated => cases hx
  · intro t call hmem
    rw [storeTrace_append, storeTrace_store] at hmem
    rcases List.mem_append.mp hmem with hmem | hmem
    · exact h.sized t call hmem
    · exact absurd hmem (hinv t call)
  · show ((sv.conns k).hear clients evs).Stage _ _ (callName k ((sv.conns k).hear clients evs).turn)
    rw [hturn]
    exact (h.stage k).hear (hborn _)
  · have hnew := h.fresh k i (by rw [← hturn k]; exact hi)
    exact hnew.mono (by simp) (hborn _ hnew.unborn)

/-- A request reaches the store. -/
theorem Service.Inv.invoke (h : sv.Inv crc cfg s₀ tr) {k i : ℕ} {m : UInt8 × Bytes} {rest : Bytes}
    {req : Request} {pending : List ℕ} {clients : Clients} {evs : List ClientEvent}
    (hs : (sv.conns k).server = .reading)
    (hread : readFrame (sv.conns k).up = .ok (some (m, rest)))
    (hpending : (sv.conns k).pending = i :: pending) (hdecode : decodeRequest m.1 m.2 = .ok req)
    (hstep : sv.clients.step crc cfg (.invoke (callName k i) (Request.call req)) =
      some (clients, evs)) :
    (({ sv with clients := clients } : Service).set k { sv.conns k with
      up := rest, pending, server := .executing (callName k i) }).Inv crc cfg s₀
        (tr ++ evs.map .store) := by
  obtain ⟨req', hdecode', hfit, hcalled, hclient, hturn, hbytes⟩ :=
    (h.stage k).requested_of_read hs hread
  obtain rfl : req' = req := Except.ok.inj (hdecode'.symm.trans hdecode)
  obtain ⟨rfl, rfl⟩ := List.cons.inj (hpending.symm.trans hturn)
  have hrun := h.run.move (m := .invoke _ _) trivial hstep
  obtain ⟨hclients, rfl⟩ : clients = sv.clients.advance (callName k (sv.conns k).turn)
      (Request.call req').start ∧
      evs = [.invoked (callName k (sv.conns k).turn) (Request.call req')] := by
    cases clientStep_cases hstep with
    | invoke => exact ⟨rfl, rfl⟩
  refine h.update ?_ ?_ ?_ (by simp) (fun t hne ht => ?_) le_rfl
    (.executing hclient rfl ⟨hbytes.unsent, hbytes.up, hbytes.unwritten, hbytes.down, rfl⟩)
  · rwa [storeTrace_append, storeTrace_store]
  · rw [layers_append]
    exact h.forwards.forward (called_mem_layers.mpr hcalled)
  · intro t call hmem
    rw [storeTrace_append, storeTrace_store] at hmem
    rcases List.mem_append.mp hmem with hmem | hmem
    · exact h.sized t call hmem
    · cases List.mem_singleton.mp hmem
      show (Request.call.symm (Request.call req')).payload.length ≤ maxPayload
      rwa [Equiv.symm_apply_apply]
  · rw [hclients, sv.clients.calls_advance_ne hne]
    exact ht

/-- A call returns. -/
theorem Service.Inv.receive (h : sv.Inv crc cfg s₀ tr) {k : ℕ} {r : Except KvsError Response}
    {rest : Bytes} (hc : (sv.conns k).client = .calling)
    (hr : Bitcask.receive ((sv.conns k).server = .ended ∧ (sv.conns k).unwritten = [])
      (sv.conns k).down = some (r, rest)) :
    (sv.set k { sv.conns k with
      client := .idle, turn := (sv.conns k).turn + 1, unsent := [], down := rest }).Inv crc cfg s₀
        (tr ++ match r with
          | .ok resp => [.answered (callName k (sv.conns k).turn) resp.result]
          | .error e => [.failed (callName k (sv.conns k).turn) e]) := by
  have hnew := h.fresh k _ (Nat.lt_succ_self _)
  rcases (h.stage k).receive hc hr with ⟨a, hret, rfl, hserver, hbytes⟩ | ⟨⟨e, rfl⟩, hserver, hun, rfl⟩
  · refine h.onConn rfl ?_ (by simp) (Nat.le_succ _)
      (.quiet nofun (Or.inr hserver)
        ⟨rfl, hbytes.up, hbytes.unwritten, hbytes.down, hbytes.pending⟩
        (hnew.mono (by simp) hnew.unborn))
    rw [layers_append]
    exact h.forwards.answer (returned_mem_layers hret)
  · refine h.onConn rfl ?_ (by simp) (Nat.le_succ _)
      (.ended hserver (fun _ => ⟨hun, rfl⟩) fun _ => hnew.mono (by simp) hnew.unborn)
    rw [layers_append]
    exact h.forwards.replies nofun

/-- A call on a closed connection fails. -/
theorem Service.Inv.lose (h : sv.Inv crc cfg s₀ tr) {k : ℕ} (e : KvsError)
    (hc : (sv.conns k).client = .calling) (hs : (sv.conns k).server = .ended) :
    (sv.set k { sv.conns k with
      client := .idle, turn := (sv.conns k).turn + 1, unsent := [] }).Inv crc cfg s₀
        (tr ++ [.failed (callName k (sv.conns k).turn) e]) := by
  have hnew := h.fresh k _ (Nat.lt_succ_self _)
  have hbytes : (sv.conns k).unwritten = [] ∧ (sv.conns k).down = [] := by
    cases h.stage k with
    | ended _ hbytes _ => exact hbytes (by rw [hc]; nofun)
    | quiet _ hserver | requested _ _ _ hserver =>
      rcases hserver with hserver | hserver <;> rw [hserver] at hs <;> cases hs
    | executing _ hserver | answered _ _ hserver | replied _ _ hserver => rw [hserver] at hs; cases hs
  refine h.onConn rfl ?_ (by simp) (Nat.le_succ _)
    (.ended hs (fun _ => hbytes) fun _ => hnew.mono (by simp) hnew.unborn)
  rw [layers_append]
  exact h.forwards.replies nofun

/-- A call starts. -/
theorem Service.Inv.forwards_called (h : sv.Inv crc cfg s₀ tr) {k : ℕ} (req : Request)
    (hc : (sv.conns k).client = .idle) :
    Forwards Request.call (fun a => a.response.result)
      (layers tr ++ [.outer (.inv (callName k (sv.conns k).turn) req)]) :=
  h.forwards.call req fun req' hm =>
    ((h.stage k).untouched hc).called req' (called_mem_layers.mp hm)

/-- What one step preserves. -/
theorem Service.Inv.step (h₀ : Reach crc (fun _ a => a.Nominal) (.running cfg s₀) ops₀)
    (hfree : s₀.lock = .free) (hm₀ : MapOf ops₀ m₀) (hfit : MapFits m₀) (h : sv.Inv crc cfg s₀ tr)
    (ho : a.Orderly crc sv) (hs : ServiceStep crc cfg sv a sv' evs) :
    sv'.Inv crc cfg s₀ (tr ++ evs) := by
  cases hs with
  | call k req bytes hc hw =>
    refine h.onConn rfl ?_ (by simp) le_rfl ((h.stage k).call hc hw)
    rw [layers_append]
    exact h.forwards_called req hc
  | unsendable k req e hc hw =>
    have hnew := h.fresh k _ (Nat.lt_succ_self _)
    have hne : callName k ((sv.conns k).turn + 1) ≠ callName k (sv.conns k).turn :=
      fun he => Nat.succ_ne_self _ (callName_inj he).2
    refine h.onConn rfl ?_ (by simp) (Nat.le_succ _)
      ((h.stage k).unsendable hc (hnew.mono (by simp [hne]) hnew.unborn))
    rw [layers_append]
    exact h.forwards_called req hc
  | send k n => exact h.quietly rfl ((h.stage k).send n)
  | accept k first rest hempty hs hup => exact h.quietly rfl ((h.stage k).accept hs hup)
  | hangup k hempty hup => exact h.quietly rfl ((h.stage k).hangup hup)
  | invoke k m rest req i pending clients evs hempty hs hread hpending hdecode hstep =>
    exact h.invoke hs hread hpending hdecode hstep
  | reject k m rest e i pending hempty hs hread hpending hdecode =>
    obtain ⟨req, hdecode', -⟩ := (h.stage k).requested_of_read hs hread
    rw [hdecode] at hdecode'
    cases hdecode'
  | respond k resp bytes hempty hs hw =>
    refine h.quietly rfl ?_
    cases h.stage k with
    | answered a hclient hserver hbytes hret =>
      have hpayload := h.response_fits h₀ hfree hm₀ hfit hret
      obtain rfl : a.response = resp := by
        rw [hserver] at hs
        exact ServerEnd.answered.inj hs
      rw [writeResponse_eq, writeFrame_eq hpayload] at hw
      refine .replied a hclient rfl hbytes.pending hpayload hbytes.unsent hbytes.up ?_ hret
      show (sv.conns k).down ++ bytes = _
      rw [hbytes.down, ← Except.ok.inj hw]
      rfl
    | quiet _ hserver | requested _ _ _ hserver =>
      rcases hserver with hserver | hserver <;> rw [hserver] at hs <;> cases hs
    | executing _ hserver | replied _ _ hserver | ended hserver => rw [hserver] at hs; cases hs
  | move m clients evs hm hstep => exact h.move h₀ hfree hm ho hstep
  | write k n => exact h.quietly rfl ((h.stage k).write n)
  | answered k resp rest hc hr | failed k e rest hc hr => exact h.receive hc hr
  | lose k e hc hs => exact h.lose e hc hs
  | quit k => exact h.quietly rfl (h.stage k).quit

/-- What every run preserves. -/
theorem ServiceRun.inv (h₀ : Reach crc (fun _ a => a.Nominal) (.running cfg s₀) ops₀)
    (hfree : s₀.lock = .free) (hm₀ : MapOf ops₀ m₀) (hfit : MapFits m₀)
    (h : ServiceRun crc cfg s₀ sv tr) : sv.Inv crc cfg s₀ tr := by
  induction h with
  | start =>
    exact ⟨.start, .nil, nofun, fun k => .quiet nofun (Or.inl rfl) ⟨rfl, rfl, rfl, rfl, rfl⟩ ⟨nofun, rfl⟩,
      fun _ _ _ => ⟨nofun, rfl⟩⟩
  | act _ ho hs ih => exact ih.step h₀ hfree hm₀ hfit ho (serviceStep_cases hs)

end Preserved

/-- The calls of all clients of a server are linearizable. The server starts on any store with values
of at most `maxPayload` bytes; clients come with requests of any size, their bytes arrive in pieces
and in any order among connections, clients go away in the middle of calls, and the store does any
steps that meet the conditions of `calls_linearizable`. Then some order of the remote calls,
consistent with real time, gives the results that the clients were sent, on a plain map that starts
as what `get` answers before the run. A call that returned no response may be in the order or not. -/
theorem remote_calls_linearizable {crc : Bytes → UInt32} {cfg : Config} {ops₀ : List Command}
    {s₀ : Sys} {sv : Service} {tr : List RemoteEvent}
    (h₀ : Reach crc (fun _ a => a.Nominal) (.running cfg s₀) ops₀) (hfree : s₀.lock = .free)
    (hfit : ∀ key v, s₀.get crc key = some (.ok (some v)) → (asBytes v).length ≤ maxPayload)
    (h : ServiceRun crc cfg s₀ sv tr) :
    ∃ m₀, (∀ key, s₀.get crc key = some (.ok (m₀ key))) ∧
      IsLinearizable applyRequest m₀ (remoteHistory tr) := by
  have hstart : ClientRun crc cfg (fun _ m => m.Nominal) s₀ ⟨s₀, fun _ => .unborn, none⟩ [] := .start
  obtain ⟨recs, log, a, hl, -⟩ := (hstart.inv id h₀ hfree).link
  have hpub : ops₀ ++ updates [] = ops₀ := List.append_nil ops₀
  rw [hpub] at hl
  choose m₀ hget hmap using hl.get
  have hinv := h.inv h₀ hfree hmap fun key v hv => hfit key v (by rw [hget, hv])
  obtain ⟨es, he⟩ := hinv.run.explains h₀ hfree hmap
  have hlin := he.lin
  rw [← inners_layers] at hlin
  rw [← outers_layers]
  exact ⟨m₀, hget, _, hlin.outer applyRequest_eq hinv.forwards⟩

/-- One client sets "a" while another one gets it and a third one, which removes it, goes away after
its request is sent. -/
def threeClients : List ServiceAct :=
  [.call 0 (.set "a" "1"), .call 1 (.get "a"), .send 0 3, .send 1 9, .serve 1, .serve 1, .send 0 9,
    .serve 0, .serve 0, .move (.run (callName 0 0) 0)] ++
    ((Call.acts crc32 (.set "a" "1") 3).drop 1).map (fun a => .move (.store a)) ++
    [.serve 0, .write 0 2, .move (.run (callName 1 0) 0), .call 2 (.rm "a"), .send 2 9, .quit 2,
      .serve 2, .serve 2, .move (.run (callName 1 0) 0), .move (.run (callName 1 0) 0), .serve 1,
      .write 1 9, .receive 1, .write 0 9, .receive 0, .move (.run (callName 2 0) 0),
      .call 0 (.get "b")]

theorem remote_calls_linearizable_three_clients : ∃ sv tr,
    Service.steps crc32 Config.new (fun sv a => a.Orderly crc32 sv) threeClients
      (.start (emptyStore crc32)) = some (sv, tr) ∧
    remoteHistory tr = [.inv (callName 0 0) (.set "a" "1"), .inv (callName 1 0) (.get "a"),
      .inv (callName 2 0) (.rm "a"), .ret (callName 1 0) (.ok (.value "1")),
      .ret (callName 0 0) (.ok .ok), .inv (callName 0 1) (.get "b")] ∧
    ∃ m₀, (∀ key, (emptyStore crc32).get crc32 key = some (.ok (m₀ key))) ∧
      IsLinearizable applyRequest m₀ (remoteHistory tr) := by
  have hrun : (Service.steps crc32 Config.new (fun sv a => a.Orderly crc32 sv) threeClients
      (.start (emptyStore crc32))).any fun r =>
      remoteHistory r.2 = [.inv (callName 0 0) (.set "a" "1"), .inv (callName 1 0) (.get "a"),
        .inv (callName 2 0) (.rm "a"), .ret (callName 1 0) (.ok (.value "1")),
        .ret (callName 0 0) (.ok .ok), .inv (callName 0 1) (.get "b")] := by decide +kernel
  obtain ⟨⟨sv, tr⟩, hs, htr⟩ := (Option.any_eq_true ..).mp hrun
  have hstart : steps crc32 Config.new (fun _ a => a.Nominal) [] (emptyStore crc32) =
      some (emptyStore crc32) := rfl
  exact ⟨sv, tr, hs, of_decide_eq_true htr,
    remote_calls_linearizable (Reach.firstSession hstart) rfl (fun _ _ hv => nomatch hv)
      (.of_steps hs)⟩

end Bitcask
