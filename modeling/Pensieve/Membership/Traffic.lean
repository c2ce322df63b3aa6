import Pensieve.Membership.SwimProtocol

/-!
# The ping traffic of a node

Direct probes, indirect probes and relayed pings draw their numbers from one counter, and wait
for their acknowledgements in one table.  `TrafficStep` says what each step of a node does to
the counter, the table, the probe loop and the relays, and what it sends.  Nothing else in a
node has to do with them: the updates that come with a message leave them alone.
-/

namespace Pensieve

/-- The part of a node that pings and acknowledgements go through. -/
structure Traffic where
  self : NodeId
  seqCounter : UInt32
  pendingAcks : UInt32 → Option Bool
  probe : Probe
  relays : List Relay

namespace Traffic

/-- A number is drawn, and pending from then on. -/
def opened (t : Traffic) : Traffic :=
  { t with
    seqCounter := t.seqCounter + 1
    pendingAcks := Function.update t.pendingAcks t.seqCounter (some false) }

/-- A number is no longer pending. -/
def closed (t : Traffic) (seq : UInt32) : Traffic :=
  { t with pendingAcks := Function.update t.pendingAcks seq none }

/-- An acknowledgement has come in. -/
def acked (t : Traffic) (seq : UInt32) : Traffic :=
  { t with
    pendingAcks := if (t.pendingAcks seq).isSome then Function.update t.pendingAcks seq (some true)
      else t.pendingAcks }

theorem of_update_eq_some_true {f : UInt32 → Option Bool} {seq seq' : UInt32} {v : Option Bool}
    (hv : v ≠ some true) (h : Function.update f seq' v seq = some true) : f seq = some true := by
  by_cases hseq : seq = seq'
  · rw [hseq, Function.update_self] at h
    exact absurd h hv
  · rwa [Function.update_of_ne hseq] at h

/-- A number that is drawn is not acknowledged yet. -/
theorem pendingAcks_opened {t : Traffic} {seq : UInt32}
    (h : t.opened.pendingAcks seq = some true) : t.pendingAcks seq = some true :=
  of_update_eq_some_true (by decide) h

theorem pendingAcks_closed {t : Traffic} {seq seq' : UInt32}
    (h : (t.closed seq').pendingAcks seq = some true) : t.pendingAcks seq = some true :=
  of_update_eq_some_true (by decide) h

theorem pendingAcks_acked {t : Traffic} {seq seq' : UInt32}
    (h : (t.acked seq').pendingAcks seq = some true) :
    t.pendingAcks seq = some true ∨ seq = seq' := by
  by_cases hseq : seq = seq'
  · exact Or.inr hseq
  · simp only [acked] at h
    split_ifs at h
    · exact Or.inl (by rwa [Function.update_of_ne hseq] at h)
    · exact Or.inl h

end Traffic

namespace SwimProtocol

def traffic (p : SwimProtocol) : Traffic :=
  ⟨p.self, p.seqCounter, p.pendingAcks, p.probe, p.relays⟩

/-- What a step may do. -/
inductive TrafficStep (t : Traffic) : Action → Traffic → List Packet → Prop
  /-- A round of the reaper, or a request that names no target. -/
  | quiet (a : Action) : TrafficStep t a t []
  /-- `direct_ping` begins. -/
  | direct (target : NodeId) (us : List MembershipUpdate) :
      TrafficStep t (.probe target) { t.opened with probe := .direct target t.seqCounter }
        [⟨target, ⟨.ping, t.seqCounter, t.self, none, us⟩⟩]
  /-- A round of the probe loop ends. -/
  | closed (a : Action) (seq : UInt32) :
      TrafficStep t a { t.closed seq with probe := .waiting } []
  /-- `indirect_ping` begins. -/
  | indirect (intermediaries : List NodeId) (now : Time) (target : NodeId) (seq : UInt32)
      (relay : NodeId) (rest : List NodeId) (us : List MembershipUpdate) :
      TrafficStep t (.directDone intermediaries now)
        { (t.closed seq).opened with probe := .indirect target t.seqCounter rest }
        [⟨relay, ⟨.pingReq, t.seqCounter, t.self, some target, us⟩⟩]
  /-- `indirect_ping` asks another peer. -/
  | askNext (target : NodeId) (seq : UInt32) (relay : NodeId) (rest : List NodeId)
      (us : List MembershipUpdate) (h : t.probe = .indirect target seq (relay :: rest)) :
      TrafficStep t .askNext { t with probe := .indirect target seq rest }
        [⟨relay, ⟨.pingReq, seq, t.self, some target, us⟩⟩]
  /-- A relayed ping ends. -/
  | relayDone (r : Relay) (h : r ∈ t.relays) :
      TrafficStep t (.relayDone r) { t.closed r.localSeq with relays := t.relays.erase r }
        (if (t.pendingAcks r.localSeq).getD false then
          [⟨r.requester, ⟨.ack, r.origSeq, t.self, none, []⟩⟩] else [])
  /-- A ping is answered. -/
  | ping (msg : SwimMessage) (now : Time) (us : List MembershipUpdate) (h : msg.type = .ping) :
      TrafficStep t (.receive msg now) t [⟨msg.sender, ⟨.ack, msg.seqNum, t.self, none, us⟩⟩]
  | ack (msg : SwimMessage) (now : Time) (h : msg.type = .ack) :
      TrafficStep t (.receive msg now) (t.acked msg.seqNum) []
  /-- A relayed ping begins. -/
  | pingReq (msg : SwimMessage) (now : Time) (target : NodeId) (h : msg.type = .pingReq)
      (htarget : msg.target = some target) :
      TrafficStep t (.receive msg now)
        { t.opened with
          relays := t.relays ++ [⟨target, msg.sender, msg.seqNum, t.seqCounter⟩] }
        [⟨target, ⟨.ping, t.seqCounter, t.self, none, []⟩⟩]

/-! ## What leaves the traffic alone -/

theorem traffic_foldl {β : Type} {f : SwimProtocol → β → SwimProtocol}
    (h : ∀ p b, (f p b).traffic = p.traffic) (l : List β) (p : SwimProtocol) :
    (l.foldl f p).traffic = p.traffic := by
  induction l generalizing p with
  | nil => rfl
  | cons b l ih => exact (ih (f p b)).trans (h p b)

theorem traffic_welcome (p : SwimProtocol) (now : Time) (msg : SwimMessage) :
    (p.welcome now msg).traffic = p.traffic := by
  rw [welcome]
  split_ifs <;> rfl

theorem traffic_applyUpdates (p : SwimProtocol) (now : Time) (us : List MembershipUpdate) :
    (p.applyUpdates now us).traffic = p.traffic := by
  refine traffic_foldl (fun q u ↦ ?_) us p
  rw [applyUpdate]
  split_ifs <;> rfl

theorem traffic_report (p : SwimProtocol) (now : Time) (id : NodeId) (type : UpdateType)
    (incarnation : UInt64) : (p.report now id type incarnation).traffic = p.traffic := by
  rw [report]
  split <;> rfl

theorem traffic_markSuspect (p : SwimProtocol) (now : Time) (target : NodeId) :
    (p.markSuspect now target).traffic = p.traffic := by
  rw [markSuspect]
  split
  · rfl
  · exact traffic_report ..

theorem traffic_suspicionReaper (p : SwimProtocol) (now : Time)
    (order : List (Σ _ : NodeId, NodeInfo)) :
    (p.suspicionReaper now order).traffic = p.traffic := by
  refine traffic_foldl (fun q e ↦ ?_) _ p
  rw [reapEntry]
  split_ifs
  · rfl
  · rfl
  · exact traffic_report ..
  · rfl

/-! ## What the steps do -/

variable {sort : SortByCount}

/-- The end of a round in which nobody answered. -/
theorem traffic_roundDone (p : SwimProtocol) (now : Time) (target : NodeId) (seq : UInt32) :
    ({ (p.closeSeq seq).2.markSuspect now target with probe := .waiting } : SwimProtocol).traffic =
      { p.traffic.closed seq with probe := .waiting } := by
  have h := traffic_markSuspect (p.closeSeq seq).2 now target
  exact congrArg (fun t : Traffic ↦ { t with probe := .waiting }) h

theorem directDone_traffic (p : SwimProtocol) (now : Time) (target : NodeId) (seq : UInt32)
    (intermediaries : List NodeId) :
    TrafficStep p.traffic (.directDone intermediaries now)
      (p.directDone sort now target seq intermediaries).1.traffic
      (p.directDone sort now target seq intermediaries).2 := by
  simp only [directDone]
  split_ifs with hacked hempty
  · exact .closed _ seq
  · rw [traffic_roundDone]
    exact .closed _ seq
  · cases intermediaries with
    | nil => exact absurd rfl hempty
    | cons relay rest => exact .indirect _ now target seq relay rest _

theorem indirectDone_traffic (p : SwimProtocol) (now : Time) (target : NodeId) (seq : UInt32) :
    TrafficStep p.traffic (.indirectDone now) (p.indirectDone now target seq).traffic [] := by
  simp only [indirectDone]
  split_ifs
  · exact .closed _ seq
  · rw [traffic_roundDone]
    exact .closed _ seq

theorem dispatch_traffic (p : SwimProtocol) (now : Time) (msg : SwimMessage) :
    TrafficStep p.traffic (.receive msg now) (p.dispatch sort now msg).1.traffic
      (p.dispatch sort now msg).2 := by
  rw [dispatch]
  split
  · exact .ping msg now _ ‹_›
  · exact .ack msg now ‹_›
  · split
    · exact .quiet _
    · exact .pingReq msg now _ ‹_› ‹_›

theorem handleMessage_traffic (p : SwimProtocol) (now : Time) (msg : SwimMessage) :
    TrafficStep p.traffic (.receive msg now) (p.handleMessage sort now msg).1.traffic
      (p.handleMessage sort now msg).2 := by
  have hbefore : ((p.welcome now msg).applyUpdates now msg.updates).traffic = p.traffic :=
    (traffic_applyUpdates ..).trans (traffic_welcome ..)
  rw [handleMessage, ← hbefore]
  exact dispatch_traffic ..

theorem step_traffic {p : SwimProtocol} {a : Action} {r : SwimProtocol × List Packet}
    (h : p.step sort a = some r) : TrafficStep p.traffic a r.1.traffic r.2 := by
  cases a with
  | probe target =>
      obtain ⟨-, hstep⟩ := Option.ite_none_right_eq_some.mp h
      obtain rfl := Option.some.inj hstep
      exact .direct target _
  | directDone intermediaries now =>
      rw [step] at h
      split at h
      · obtain ⟨-, hstep⟩ := Option.ite_none_right_eq_some.mp h
        obtain rfl := Option.some.inj hstep
        exact directDone_traffic ..
      · cases h
  | askNext =>
      rw [step] at h
      split at h
      · rename_i target seq relay rest hprobe
        obtain rfl := Option.some.inj h
        exact .askNext target seq relay rest _ hprobe
      · cases h
  | indirectDone now =>
      rw [step] at h
      split at h
      · obtain rfl := Option.some.inj h
        exact indirectDone_traffic ..
      · cases h
  | relayDone r =>
      obtain ⟨hmem, hstep⟩ := Option.ite_none_right_eq_some.mp h
      obtain rfl := Option.some.inj hstep
      exact .relayDone r hmem
  | receive msg now =>
      obtain rfl := Option.some.inj h
      exact handleMessage_traffic ..
  | reap now order =>
      obtain ⟨-, hstep⟩ := Option.ite_none_right_eq_some.mp h
      obtain rfl := Option.some.inj hstep
      rw [traffic_suspicionReaper]
      exact .quiet _

end SwimProtocol

end Pensieve
