import Pensieve.Coordinator.WaitGroup
import Pensieve.Membership.MemberList
import Pensieve.Membership.RingStore
import Pensieve.Protocol.Message
import Pensieve.Storage.LocalStore

/-!
# The coordinator

`src/coordinator/coordinator.cpp`: one coroutine for each client connection reads a
request, has it served by the local store or by the owner of the key, and writes
the response.  GETs of one key that go to a peer are collapsed by the wait group:
one of them performs the fetch.

Connections are of any type `C`.  A step is what a coroutine does between two
suspension points; the parts of `complete` and of the wait are the steps of
`Pensieve.Coordinator.WaitGroup`, taken one at a time.  Requests are numbered in the
order in which they are received, for the events to refer to.

What stands behind the connections to peers is a parameter (`Peers`).  Ring and
member table are changed by gossip at any time.  A connection to a peer carries one
request at a time, and is closed when something goes wrong on it, so that a reply is
the reply to the request.
-/

namespace Pensieve

open Foundation

/-- Where a peer listens: its host and its data port. -/
abbrev Address := Bytes × UInt16

/-- The peers as seen from a coordinator: a world of states `W` in which a request is
processed or something else happens.  `O` is what else that depends on. -/
structure Peers (W O : Type*) where
  serve : W → O → Address → Request → Option (Response × W)
  change : W → O → Option W

/-- How a request for a remote key ended at the other side. -/
inductive Outcome where
  /-- The owner is not in the member table. -/
  | noPeer
  /-- No connection, or it broke before the response was read. -/
  | failed
  /-- The peer's response. -/
  | replied (resp : Response)
deriving DecidableEq, Repr

/-- What `proxy_to_peer` returns. -/
def Outcome.response : Outcome → Response
  | .noPeer => ⟨.error, []⟩
  | .failed => ⟨.error, []⟩
  | .replied resp => resp

/-- Where a request goes. -/
inductive Route where
  | here
  /-- To the owner, at its address if it is in the member table. -/
  | remote (owner : NodeId) (address : Option Address)
deriving DecidableEq, Repr

/-- How far `proxy_to_peer` has come. -/
inductive Stage where
  /-- The request is on its way. -/
  | calling (address : Option Address)
  /-- The peer has processed it, and the response is on its way. -/
  | served (resp : Response)
deriving DecidableEq, Repr

/-- Where a connection stands.  The number is that of the request at hand, and
`handle` is the fetch, for a GET. -/
inductive Conn where
  | /-- Waiting for a request. -/
    reading
  | /-- In `proxy_to_peer`. -/
    proxying (r : ℕ) (req : Request) (handle : Option ℕ) (stage : Stage)
  | /-- In `complete`. -/
    completing (r : ℕ) (req : Request) (handle : ℕ) (resp : Response)
  | /-- Waiting for the result of another's fetch. -/
    waiting (r : ℕ) (req : Request) (handle : ℕ)
  | /-- Writing the response. -/
    replying (r : ℕ) (req : Request) (resp : Response)
  | closed
deriving DecidableEq, Repr

/-- A coordinator, with its connections and the peers. -/
structure Coordinator (C : Type*) (n : ℕ) (W : Type*) where
  self : NodeId
  ring : Ring
  members : MemberList
  store : LocalStore n
  group : WaitGroup.Sys C Bytes Bytes
  conn : C → Conn
  /-- The number of the next request. -/
  next : ℕ
  world : W

namespace Coordinator

variable {C : Type*} {n : ℕ} {W O : Type*}

/-! ## The code between suspension points -/

/-- `serve_local`. -/
def serveLocal (store : LocalStore n) (req : Request) : Response × LocalStore n :=
  if req.opcode = .get then
    match store.get req.key with
    | (some value, store) => (⟨.ok, value⟩, store)
    | (none, store) => (⟨.notFound, []⟩, store)
  else if req.opcode = .put then
    let (ok, store) := store.put req.key req.value
    (⟨if ok then .ok else .error, []⟩, store)
  else if req.opcode = .del then
    let (ok, store) := store.del req.key
    (⟨if ok then .ok else .notFound, []⟩, store)
  else (⟨.error, []⟩, store)

/-- The entry of one member in `serve_cluster_info`. -/
def encodeMember (id : NodeId) (info : NodeInfo) : Bytes :=
  leBytes 2 (id.host.length % 65536) ++ id.host.take (id.host.length % 65536) ++
    leBytes 2 id.gossipPort.toNat ++ leBytes 2 info.dataPort.toNat

/-- `serve_cluster_info`. -/
def serveClusterInfo (members : MemberList) : Response :=
  let alive := members.nodes.entries.filter fun e ↦ e.2.state = .alive
  ⟨.ok, leBytes 2 (alive.length % 65536) ++ alive.flatMap fun e ↦ encodeMember e.1 e.2⟩

/-- The owner of a key, and whether and where the request is proxied. -/
def route (s : Coordinator C n W) (key : Bytes) : Route :=
  match RingStore.getNodeForKey s.ring (hashKey key) with
  | none => .here
  | some owner =>
    if owner = s.self then .here
    else .remote owner ((s.members.getNode owner).map fun info ↦ (owner.host, info.dataPort))

/-- What the initiator passes to `complete`. -/
def completion (resp : Response) : Option Bytes :=
  if resp.status = .ok then some resp.value else none

/-- The response to a GET that has waited for another's fetch. -/
def collapsed : Option Bytes → Response
  | some value => ⟨.ok, value⟩
  | none => ⟨.notFound, []⟩

/-! ## Steps -/

/-- What the environment decides. -/
inductive Action (C O : Type*) where
  | /-- A request has been read. -/
    receive (c : C) (req : Request)
  | /-- The peer processes the request. -/
    serve (c : C) (o : O)
  | /-- The peer's response has been read. -/
    reply (c : C)
  | /-- The peer cannot be reached, or the connection to it breaks. -/
    fail (c : C)
  | /-- A step inside `complete` or of the wait. -/
    collapse (a : WaitGroup.Action C Bytes Bytes)
  | /-- `complete` has returned. -/
    leave (c : C)
  | /-- The wait is over. -/
    obtain (c : C)
  | /-- The response has been written. -/
    answer (c : C)
  | /-- Reading a request or writing a response has failed. -/
    hangUp (c : C)
  | /-- The ring and the member table change. -/
    gossip (ring : Ring) (members : MemberList)
  | /-- Something happens at the peers. -/
    change (o : O)

/-- What is observed. -/
inductive Event (C O : Type*) where
  | received (r : ℕ) (c : C) (req : Request) (route : Route)
  | /-- The request joined the fetch `f`. -/
    joined (r : ℕ) (key : Bytes) (f : ℕ) (isInitiator : Bool)
  | served (r : ℕ) (address : Address) (req : Request) (resp : Response)
  | upstream (r : ℕ) (o : Outcome)
  | answered (r : ℕ) (req : Request) (resp : Response)
  | changed (o : O)
deriving DecidableEq

/-- The actions of a wait group that are steps inside `complete` or of the wait. -/
def isInner : WaitGroup.Action C Bytes Bytes → Bool
  | .tryJoin _ _ => false
  | .complete _ _ => false
  | .awaitResume _ => false
  | _ => true

variable [DecidableEq C]

/-- Move one connection. -/
def setConn (s : Coordinator C n W) (c : C) (x : Conn) : Coordinator C n W :=
  { s with conn := Function.update s.conn c x }

/-- The request is handled up to the first suspension point. -/
def receive (s : Coordinator C n W) (c : C) (req : Request) :
    Option (Coordinator C n W × List (Event C O)) :=
  let r := s.next
  let route := s.route req.key
  let received : Event C O := .received r c req route
  let s := { s with next := r + 1 }
  if req.opcode = .clusterInfo then
    some (s.setConn c (.replying r req (serveClusterInfo s.members)), [received])
  else
    match route with
    | .here =>
      let (resp, store) := serveLocal s.store req
      some (setConn { s with store } c (.replying r req resp), [received])
    | .remote _ address =>
      if req.opcode = .get then
        match s.group.step (.tryJoin c req.key) with
        | some (group, [.joined _ _ f true]) =>
          some (setConn { s with group } c (.proxying r req (some f) (.calling address)),
            [received, .joined r req.key f true])
        | some (group, [.joined _ _ f false]) =>
          some (setConn { s with group } c (.waiting r req f),
            [received, .joined r req.key f false])
        | _ => none
      else some (s.setConn c (.proxying r req none (.calling address)), [received])

/-- `proxy_to_peer` returns. -/
def finish (s : Coordinator C n W) (c : C) (r : ℕ) (req : Request) (handle : Option ℕ)
    (o : Outcome) : Option (Coordinator C n W × List (Event C O)) :=
  match handle with
  | none => some (s.setConn c (.replying r req o.response), [.upstream r o])
  | some f =>
    (s.group.step (.complete c (completion o.response))).map fun g ↦
      (setConn { s with group := g.1 } c (.completing r req f o.response), [.upstream r o])

/-- One step of a coordinator. -/
def step (peers : Peers W O) (s : Coordinator C n W) :
    Action C O → Option (Coordinator C n W × List (Event C O))
  | .receive c req =>
    match s.conn c with
    | .reading => s.receive c req
    | _ => none
  | .serve c o =>
    match s.conn c with
    | .proxying r req handle (.calling (some address)) =>
      (peers.serve s.world o address req).map fun x ↦
        (setConn { s with world := x.2 } c (.proxying r req handle (.served x.1)),
          [.served r address req x.1])
    | _ => none
  | .reply c =>
    match s.conn c with
    | .proxying r req handle (.served resp) => s.finish c r req handle (.replied resp)
    | _ => none
  | .fail c =>
    match s.conn c with
    | .proxying r req handle (.calling none) => s.finish c r req handle .noPeer
    | .proxying r req handle _ => s.finish c r req handle .failed
    | _ => none
  | .collapse a =>
    if isInner a then (s.group.step a).map fun g ↦ ({ s with group := g.1 }, []) else none
  | .leave c =>
    match s.conn c, s.group.coro c with
    | .completing r req _ resp, .idle => some (s.setConn c (.replying r req resp), [])
    | _, _ => none
  | .obtain c =>
    match s.conn c, s.group.step (.awaitResume c) with
    | .waiting r req _, some (group, [.obtained _ _ result]) =>
      some (setConn { s with group } c (.replying r req (collapsed result)), [])
    | _, _ => none
  | .answer c =>
    match s.conn c with
    | .replying r req resp => some (s.setConn c .reading, [.answered r req resp])
    | _ => none
  | .hangUp c =>
    match s.conn c with
    | .reading => some (s.setConn c .closed, [])
    | .replying _ _ _ => some (s.setConn c .closed, [])
    | _ => none
  | .gossip ring members => some ({ s with ring, members }, [])
  | .change o => (peers.change s.world o).map fun world ↦ ({ s with world }, [.changed o])

/-- A coordinator with any ring, member table and store, any number of clients, and
the peers in any state. -/
def machine (C : Type*) [DecidableEq C] (n : ℕ) (peers : Peers W O) :
    Machine (Coordinator C n W) (Action C O) (Event C O) where
  init s := s.group = ⟨.empty, fun _ ↦ .idle⟩ ∧ (∀ c, s.conn c = .reading) ∧ s.next = 0
  step := step peers

omit [DecidableEq C] in
/-- A request goes to the owner of its key, at the address that the table has for it. -/
theorem route_eq_remote {s : Coordinator C n W} {key : Bytes} {owner : NodeId}
    {address : Option Address} (h : s.route key = .remote owner address) :
    (RingStore.getNodeForKey s.ring (hashKey key) = some owner ∧ owner ≠ s.self) ∧
      address = (s.members.getNode owner).map fun info ↦ (owner.host, info.dataPort) := by
  rw [route] at h
  split at h
  · cases h
  · rename_i o howner
    split_ifs at h with hself
    cases h
    exact ⟨⟨howner, hself⟩, rfl⟩

end Coordinator

end Pensieve
