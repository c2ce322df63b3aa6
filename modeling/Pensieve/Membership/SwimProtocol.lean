import Pensieve.Foundation.Machine
import Pensieve.Membership.Disseminator
import Pensieve.Membership.MemberList

/-!
# A node of the gossip protocol

`src/membership/swim_protocol.cpp`.  A node runs three loops on one thread: it
probes a random peer now and then, first directly and then through other peers; it
handles the messages that come in; and it declares peers dead that have been
suspect for too long.  The loops and the relayed pings are coroutines, and between
two of their suspension points the code runs alone.  One such stretch is one step
here (`SwimProtocol.step`), with the messages it sends as its events.

The environment chooses which coroutine goes on, the random peers, the clock
reading of the step and the messages received.  How `std::sort` orders equal counts
is a parameter.  Timers only say when a step may be taken, which is left open.
-/

namespace Pensieve

open Foundation

/-- The part of `SwimProtocol::Config` that decides what is done, not when. -/
structure SwimConfig where
  /-- In milliseconds. -/
  suspectTimeout : ℕ
  indirectPingPeers : ℕ
  maxPiggybackUpdates : ℕ
  selfDataPort : UInt16
deriving DecidableEq, Repr

/-- Where the probe loop is. -/
inductive Probe where
  /-- Waiting for the next period. -/
  | waiting
  /-- In `direct_ping`, the ping sent. -/
  | direct (target : NodeId) (seq : UInt32)
  /-- In `indirect_ping`, with the peers that are still to be asked. -/
  | indirect (target : NodeId) (seq : UInt32) (intermediaries : List NodeId)
deriving DecidableEq, Repr

/-- The peer that is being probed. -/
def Probe.target : Probe → Option NodeId
  | .waiting => none
  | .direct target _ => some target
  | .indirect target _ _ => some target

/-- A `relay_ping` that waits for its ping to be acknowledged. -/
structure Relay where
  target : NodeId
  requester : NodeId
  origSeq : UInt32
  localSeq : UInt32
deriving DecidableEq, Repr

/-- A node, with the state of its coroutines. -/
structure SwimProtocol where
  members : MemberList
  disseminator : Disseminator
  self : NodeId
  config : SwimConfig
  incarnation : UInt64
  seqCounter : UInt32
  pendingAcks : UInt32 → Option Bool
  probe : Probe
  relays : List Relay

namespace SwimProtocol

variable (sort : SortByCount) (now : Time) (p : SwimProtocol)

/-! ## Updates -/

/-- The answer to a rumour about the node itself. -/
def refute : SwimProtocol :=
  let incarnation := p.incarnation + 1
  { p with
    incarnation
    disseminator := p.disseminator.enqueue ⟨.alive, p.self, incarnation, p.config.selfDataPort⟩
    members := (p.members.updateState p.self .alive incarnation now).1 }

/-- One round of the loop of `apply_updates`. -/
def applyUpdate (u : MembershipUpdate) : SwimProtocol :=
  if u.node = p.self then
    if u.type = .suspect || u.type = .dead then p.refute now else p
  else if u.type = .join || u.type = .alive then
    { p with
      members := (p.members.addNode
        { id := u.node, dataPort := u.dataPort, state := .alive, incarnation := u.incarnation,
          lastStateChange := now }).1 }
  else
    { p with members := (p.members.updateState u.node u.type.newState u.incarnation now).1 }

/-- `apply_updates`. -/
def applyUpdates (us : List MembershipUpdate) : SwimProtocol :=
  us.foldl (applyUpdate now) p

/-- `update_state`, and an update about it queued if it took effect. -/
def report (id : NodeId) (type : UpdateType) (incarnation : UInt64) : SwimProtocol :=
  match p.members.updateState id type.newState incarnation now with
  | (members, true) =>
    { p with members, disseminator := p.disseminator.enqueue ⟨type, id, incarnation, 0⟩ }
  | (members, false) => { p with members }

/-! ## Pings -/

/-- `next_seq`, with the new number entered among the pending ones. -/
def openSeq : UInt32 × SwimProtocol :=
  (p.seqCounter, { p with
    seqCounter := p.seqCounter + 1
    pendingAcks := Function.update p.pendingAcks p.seqCounter (some false) })

/-- `pending_acks_[seq]`, and the number struck off. -/
def closeSeq (seq : UInt32) : Bool × SwimProtocol :=
  ((p.pendingAcks seq).getD false,
    { p with pendingAcks := Function.update p.pendingAcks seq none })

/-- Send a message with queued updates on it. -/
def sendWithUpdates (type : SwimMessageType) (seqNum : UInt32) (target : Option NodeId)
    (dest : NodeId) : SwimProtocol × List Packet :=
  let (updates, disseminator) := p.disseminator.getUpdates sort p.config.maxPiggybackUpdates
  ({ p with disseminator }, [⟨dest, ⟨type, seqNum, p.self, target, updates⟩⟩])

/-- `direct_ping`, up to its wait. -/
def directPing (target : NodeId) : SwimProtocol × List Packet :=
  let (seq, p) := p.openSeq
  let (p, sent) := p.sendWithUpdates sort .ping seq none target
  ({ p with probe := .direct target seq }, sent)

/-- The end of a round of `probe_loop` in which no acknowledgement came. -/
def markSuspect (target : NodeId) : SwimProtocol :=
  match p.members.getNode target with
  | none => p
  | some info => p.report now target .suspect info.incarnation

/-- `indirect_ping` asks the next of the chosen peers. -/
def askNext (target : NodeId) (seq : UInt32) :
    List NodeId → SwimProtocol × List Packet
  | [] => (p, [])
  | relay :: rest =>
    let (p, sent) := p.sendWithUpdates sort .pingReq seq (some target) relay
    ({ p with probe := .indirect target seq rest }, sent)

/-- `probe_loop` after `direct_ping` has waited: on to `indirect_ping` if there was
no acknowledgement. -/
def directDone (target : NodeId) (seq : UInt32) (intermediaries : List NodeId) :
    SwimProtocol × List Packet :=
  let (acked, p) := p.closeSeq seq
  if acked then ({ p with probe := .waiting }, [])
  else if intermediaries.isEmpty then ({ p.markSuspect now target with probe := .waiting }, [])
  else
    let (seq, p) := p.openSeq
    p.askNext sort target seq intermediaries

/-- `probe_loop` after `indirect_ping` has waited. -/
def indirectDone (target : NodeId) (seq : UInt32) : SwimProtocol :=
  let (acked, p) := p.closeSeq seq
  if acked then { p with probe := .waiting }
  else { p.markSuspect now target with probe := .waiting }

/-- `relay_ping`, up to its wait.  Its ping carries no updates. -/
def relayPing (target requester : NodeId) (origSeq : UInt32) : SwimProtocol × List Packet :=
  let (localSeq, p) := p.openSeq
  ({ p with relays := p.relays ++ [⟨target, requester, origSeq, localSeq⟩] },
    [⟨target, ⟨.ping, localSeq, p.self, none, []⟩⟩])

/-- `relay_ping` after its wait. -/
def relayDone (r : Relay) : SwimProtocol × List Packet :=
  let (acked, p) := p.closeSeq r.localSeq
  ({ p with relays := p.relays.erase r },
    if acked then [⟨r.requester, ⟨.ack, r.origSeq, p.self, none, []⟩⟩] else [])

/-! ## Messages -/

/-- The data port that a message announces for its sender. -/
def announcedPort (msg : SwimMessage) : UInt16 :=
  match msg.updates.find? fun u ↦ u.node = msg.sender && u.dataPort != 0 with
  | some u => u.dataPort
  | none => 0

/-- The first part of `handle_message`: a sender that is not known becomes a
member. -/
def welcome (msg : SwimMessage) : SwimProtocol :=
  if msg.sender ≠ p.self ∧ p.members.getNode msg.sender = none then
    let dp := announcedPort msg
    { p with
      members := (p.members.addNode
        { id := msg.sender, dataPort := dp, state := .alive, incarnation := 0,
          lastStateChange := now }).1
      disseminator := p.disseminator.enqueue ⟨.join, msg.sender, 0, dp⟩ }
  else p

/-- `on_ack`. -/
def onAck (msg : SwimMessage) : SwimProtocol :=
  let pendingAcks :=
    if (p.pendingAcks msg.seqNum).isSome then
      Function.update p.pendingAcks msg.seqNum (some true)
    else p.pendingAcks
  let members :=
    match p.members.getNode msg.sender with
    | none => p.members
    | some node =>
      if node.state = .suspect || node.state = .dead then
        (p.members.updateState msg.sender .alive node.incarnation now).1
      else p.members
  { p with pendingAcks, members }

/-- The last part of `handle_message`: `on_ping`, `on_ack` or `on_ping_req`. -/
def dispatch (msg : SwimMessage) : SwimProtocol × List Packet :=
  match msg.type with
  | .ping => p.sendWithUpdates sort .ack msg.seqNum none msg.sender
  | .ack => (p.onAck now msg, [])
  | .pingReq =>
    match msg.target with
    | none => (p, [])
    | some target => p.relayPing target msg.sender msg.seqNum

/-- `handle_message`. -/
def handleMessage (msg : SwimMessage) : SwimProtocol × List Packet :=
  ((p.welcome now msg).applyUpdates now msg.updates).dispatch sort now msg

/-! ## The reaper -/

/-- One round of the loop of `suspicion_reaper`. -/
def reapEntry (id : NodeId) (node : NodeInfo) : SwimProtocol :=
  if id = p.self then p
  else if node.state ≠ .suspect then p
  else if node.lastStateChange ≤ now ∧
      p.config.suspectTimeout ≤ (now - node.lastStateChange) / 1000000 then
    p.report now id .dead node.incarnation
  else p

/-- A round of `suspicion_reaper` over the entries in the order in which `all_nodes` lists them. -/
def suspicionReaper (order : List (Σ _ : NodeId, NodeInfo)) : SwimProtocol :=
  order.foldl (fun p e ↦ p.reapEntry now e.1 e.2) p

/-! ## Steps -/

/-- What the environment decides. -/
inductive Action where
  /-- The period is over and `random_peer` returns `target`. -/
  | probe (target : NodeId)
  /-- `direct_ping` has waited; `random_peers` would return `intermediaries`. -/
  | directDone (intermediaries : List NodeId) (now : Time)
  /-- `indirect_ping` has sent a request. -/
  | askNext
  /-- `indirect_ping` has waited. -/
  | indirectDone (now : Time)
  /-- A relayed ping has waited. -/
  | relayDone (r : Relay)
  /-- A message comes in. -/
  | receive (msg : SwimMessage) (now : Time)
  /-- A round of the reaper; `all_nodes` lists the entries of the table in some order. -/
  | reap (now : Time) (order : List (Σ _ : NodeId, NodeInfo))

/-- One step of a node. -/
def step (p : SwimProtocol) : Action → Option (SwimProtocol × List Packet)
  | .probe target =>
    if p.probe = .waiting ∧ target ∈ p.members.alivePeers p.self then
      some (p.directPing sort target)
    else none
  | .directDone intermediaries now =>
    match p.probe with
    | .direct target seq =>
      if p.members.IsRandomPeers p.config.indirectPingPeers p.self intermediaries then
        some (p.directDone sort now target seq intermediaries)
      else none
    | _ => none
  | .askNext =>
    match p.probe with
    | .indirect target seq (relay :: rest) => some (p.askNext sort target seq (relay :: rest))
    | _ => none
  | .indirectDone now =>
    match p.probe with
    | .indirect target seq [] => some (p.indirectDone now target seq, [])
    | _ => none
  | .relayDone r => if r ∈ p.relays then some (p.relayDone r) else none
  | .receive msg now => some (p.handleMessage sort now msg)
  | .reap now order =>
    if order.Perm p.members.nodes.entries then some (p.suspicionReaper now order, []) else none

/-- A node as `main` sets it up: it knows itself and at most one seed, and has
queued the announcement of itself. -/
def start (config : SwimConfig) (self : NodeId) (seed : Option (NodeId × UInt16)) (now : Time) :
    SwimProtocol where
  members :=
    let members := (MemberList.empty.addNode ⟨self, config.selfDataPort, .alive, 0, now⟩).1
    match seed with
    | none => members
    | some (id, port) => (members.addNode ⟨id, port, .alive, 0, now⟩).1
  disseminator := Disseminator.enqueue ⟨10, []⟩ ⟨.join, self, 0, config.selfDataPort⟩
  self := self
  config := config
  incarnation := 0
  seqCounter := 0
  pendingAcks := fun _ ↦ none
  probe := .waiting
  relays := []

/-- A node among peers that may send anything. -/
def machine : Machine SwimProtocol Action Packet where
  init p := ∃ config self seed now, p = start config self seed now
  step := step sort

end SwimProtocol

end Pensieve
