import Pensieve.Membership.Cluster
import Pensieve.Membership.Traffic

/-!
# What an acknowledgement is evidence of

An acknowledgement carries a number and nothing else that is looked at: neither who sent it
nor whom the ping was meant for.  Direct probes, the requests of indirect probes and relayed
pings all draw their numbers from the one counter of their node, and wait in its one table.

As long as no counter goes round, a number stands for the one occasion on which it was drawn.
The invariant keeps a ledger of these occasions (`Ledger`), with what each was for.  A ping or
a request goes back to the entry under its sender's name and number, and an acknowledgement to
the entry under the name of the node it is sent to; and there, the target has heard a ping
since (`Draw.Answered`).  An answer through a relay goes through two entries, that of the relay
and that of the node which asked it.
-/

namespace Pensieve

open Foundation

/-- The two ways of probing a peer. -/
inductive ProbeKind where
  /-- `direct_ping`. -/
  | direct
  /-- `indirect_ping`. -/
  | indirect
deriving DecidableEq

/-- The probe that the loop is in: its kind, its target and its number. -/
def Probe.current : Probe → Option (ProbeKind × NodeId × UInt32)
  | .waiting => none
  | .direct target seq => some (.direct, target, seq)
  | .indirect target seq _ => some (.indirect, target, seq)

namespace Cluster

open SwimProtocol (TrafficStep step_traffic)

/-! ## Events of a probe -/

namespace Event

/-- A step that sends the packet. -/
def Sends (sort : SortByCount) (packet : Packet) : Event → Prop
  | .booted _ => False
  | .stepped _ before a _ => ∃ r, before.step sort a = some r ∧ packet ∈ r.2

/-- The node `id` handles the message. -/
def Processes (id : NodeId) (msg : SwimMessage) : Event → Prop
  | .stepped x _ (.receive m _) _ => x = id ∧ m = msg
  | _ => False

/-- A call of `direct_ping` or `indirect_ping` begins, and draws its number. -/
def Begins (kind : ProbeKind) (id target : NodeId) (seq : UInt32) : Event → Prop
  | .stepped x before (.probe t) _ =>
    kind = .direct ∧ x = id ∧ t = target ∧ before.seqCounter = seq
  | .stepped x before (.directDone _ _) after =>
    kind = .indirect ∧ x = id ∧ before.seqCounter = seq ∧
      after.probe.current = some (.indirect, target, seq)
  | _ => False

/-- The node, where it takes a step, is still in this call. -/
def Continues (kind : ProbeKind) (id target : NodeId) (seq : UInt32) : Event → Prop
  | .stepped x before _ _ => x = id → before.probe.current = some (kind, target, seq)
  | .booted _ => True

/-- The call returns `true`. -/
def Succeeds (kind : ProbeKind) (id target : NodeId) (seq : UInt32) : Event → Prop
  | .stepped x before (.directDone _ _) _ =>
    kind = .direct ∧ x = id ∧ before.probe = .direct target seq ∧ (before.closeSeq seq).1 = true
  | .stepped x before (.indirectDone _) _ =>
    kind = .indirect ∧ x = id ∧ before.probe = .indirect target seq [] ∧
      (before.closeSeq seq).1 = true
  | _ => False

/-- The counter of a node goes round. -/
def wraps : Event → Bool
  | .stepped _ before _ after => after.seqCounter < before.seqCounter
  | .booted _ => false

end Event

/-! ## What has happened since

Parts of a trace are compared by their beginnings: what happened since `past` comes behind
`past` in the trace. -/

section

variable {sort : SortByCount} {tr tr' past past' : List Event} {target : NodeId}
  {msg : SwimMessage} {packet : Packet}

/-- The packet was sent since `past`. -/
def SentSince (sort : SortByCount) (tr past : List Event) (packet : Packet) : Prop :=
  ∃ before e after, tr = before ++ e :: after ∧ past <+: before ∧ e.Sends sort packet

/-- The target has processed the ping, which was sent since `past` and not before. -/
def Heard (sort : SortByCount) (tr past : List Event) (target : NodeId) (msg : SwimMessage) :
    Prop :=
  ∃ before e after, tr = before ++ e :: after ∧ past <+: before ∧
    e.Sends sort ⟨target, msg⟩ ∧ (∀ f ∈ before, ¬ f.Sends sort ⟨target, msg⟩) ∧
    ∃ f ∈ after, f.Processes target msg

/-- A ping for a probe comes from the prober, or from a peer that it has asked. -/
def Commissioned (sort : SortByCount) (tr past : List Event) (id target : NodeId) (seq : UInt32)
    (sender : NodeId) : ProbeKind → Prop
  | .direct => sender = id
  | .indirect => ∃ us, SentSince sort tr past ⟨sender, ⟨.pingReq, seq, id, some target, us⟩⟩

theorem SentSince.mono (h : SentSince sort tr past packet) (htr : tr <+: tr') :
    SentSince sort tr' past packet := by
  obtain ⟨before, e, after, rfl, hpast, hsends⟩ := h
  obtain ⟨rest, rfl⟩ := htr
  exact ⟨before, e, after ++ rest, by rw [List.append_assoc, List.cons_append], hpast, hsends⟩

theorem Heard.mono (h : Heard sort tr past target msg) (htr : tr <+: tr') :
    Heard sort tr' past target msg := by
  obtain ⟨before, e, after, rfl, hpast, hsends, hnew, f, hf, hprocesses⟩ := h
  obtain ⟨rest, rfl⟩ := htr
  exact ⟨before, e, after ++ rest, by rw [List.append_assoc, List.cons_append], hpast, hsends,
    hnew, f, List.mem_append_left _ hf, hprocesses⟩

theorem Heard.earlier (h : Heard sort tr past target msg) (hpast : past' <+: past) :
    Heard sort tr past' target msg := by
  obtain ⟨before, e, after, htr, hbefore, hrest⟩ := h
  exact ⟨before, e, after, htr, hpast.trans hbefore, hrest⟩

theorem Commissioned.mono {id sender : NodeId} {seq : UInt32} {kind : ProbeKind}
    (h : Commissioned sort tr past id target seq sender kind) (htr : tr <+: tr') :
    Commissioned sort tr' past id target seq sender kind := by
  cases kind with
  | direct => exact h
  | indirect =>
      obtain ⟨us, hsent⟩ := h
      exact ⟨us, hsent.mono htr⟩

end

/-! ## The ledger -/

/-- The occasion on which a number was drawn: what had happened until then, the step itself,
and whether the number was for pings to the target or for requests to ping it. -/
structure Draw where
  past : List Event
  first : Event
  kind : ProbeKind
  target : NodeId

/-- The target has heard a ping since. -/
def Draw.Answered (d : Draw) (sort : SortByCount) (tr : List Event) (id : NodeId) (seq : UInt32) :
    Prop :=
  ∃ msg, msg.type = .ping ∧ Heard sort tr d.past d.target msg ∧
    Commissioned sort tr d.past id d.target seq msg.sender d.kind

/-- The occasions by the name of the node and the number. -/
abbrev Ledger : Type := NodeId → UInt32 → Option Draw

namespace Ledger

/-- Nothing is struck from the ledger. -/
def Extends (l' l : Ledger) : Prop := ∀ id seq d, l id seq = some d → l' id seq = some d

protected theorem Extends.refl (l : Ledger) : l.Extends l := fun _ _ _ h ↦ h

def enter (l : Ledger) (id : NodeId) (seq : UInt32) (d : Draw) : Ledger :=
  Function.update l id (Function.update (l id) seq (some d))

theorem enter_self {l : Ledger} {id id' : NodeId} {seq : UInt32} {d : Draw} (h : id' = id) :
    l.enter id seq d id' seq = some d := by
  rw [h, enter, Function.update_self, Function.update_self]

theorem enter_of_ne {l : Ledger} {id id' : NodeId} {seq seq' : UInt32} {d : Draw}
    (h : ¬ (id' = id ∧ seq' = seq)) : l.enter id seq d id' seq' = l id' seq' := by
  rw [enter]
  by_cases hid : id' = id
  · rw [hid, Function.update_self, Function.update_of_ne fun hseq ↦ h ⟨hid, hseq⟩]
  · rw [Function.update_of_ne hid]

theorem enter_extends {l : Ledger} {id : NodeId} {seq : UInt32} {d : Draw} (h : l id seq = none) :
    (l.enter id seq d).Extends l := by
  intro id' seq' d' hd'
  rw [enter_of_ne]
  · exact hd'
  · rintro ⟨rfl, rfl⟩
    rw [h] at hd'
    cases hd'

/-- What was drawn under this name and number has been answered. -/
def Answered (l : Ledger) (sort : SortByCount) (tr : List Event) (id : NodeId) (seq : UInt32) :
    Prop :=
  ∃ d, l id seq = some d ∧ d.Answered sort tr id seq

end Ledger

section

variable (sort : SortByCount) (l : Ledger) (tr : List Event)

/-- An entry of the ledger: nobody had used the number before. -/
structure EntryOK (id : NodeId) (seq : UInt32) (d : Draw) : Prop where
  part : d.past ++ [d.first] <+: tr
  fresh : ∀ e ∈ d.past, ∀ packet, e.Sends sort packet → packet.msg.type = .ping →
    packet.msg.sender = id → packet.msg.seqNum ≠ seq

/-- Where a packet comes from. -/
def PacketOK (packet : Packet) : Prop :=
  match packet.msg.type with
  | .ping => ∃ d, l packet.msg.sender packet.msg.seqNum = some d ∧ d.kind = .direct ∧
      d.target = packet.dest ∧ d.first.Sends sort packet
  | .pingReq => ∃ d, l packet.msg.sender packet.msg.seqNum = some d ∧ d.kind = .indirect ∧
      packet.msg.target = some d.target ∧ SentSince sort tr d.past packet
  | .ack => l.Answered sort tr packet.dest packet.msg.seqNum

/-- The probe that a node is in began with the drawing of its number. -/
def ProbeOK (id : NodeId) (kind : ProbeKind) (target : NodeId) (seq : UInt32) : Prop :=
  ∃ d after, l id seq = some d ∧ d.kind = kind ∧ d.target = target ∧
    d.first.Begins kind id target seq ∧ tr = d.past ++ d.first :: after ∧
    ∀ e ∈ after, e.Continues kind id target seq

/-- A relayed ping goes back to the request for it. -/
def RelayOK (id : NodeId) (r : Relay) : Prop :=
  ∃ d d' us, l id r.localSeq = some d ∧ d.kind = .direct ∧ d.target = r.target ∧
    l r.requester r.origSeq = some d' ∧ d'.kind = .indirect ∧ d'.target = r.target ∧
    d'.past <+: d.past ∧
    SentSince sort tr d'.past ⟨id, ⟨.pingReq, r.origSeq, r.requester, some r.target, us⟩⟩

/-- What a node waits for is in the ledger. -/
structure NodeOK (id : NodeId) (t : Traffic) : Prop where
  self_eq : t.self = id
  acked : ∀ seq, t.pendingAcks seq = some true → l.Answered sort tr id seq
  probe : ∀ kind target seq, t.probe.current = some (kind, target, seq) →
    ProbeOK l tr id kind target seq
  relay : ∀ r ∈ t.relays, RelayOK sort l tr id r

/-- The ledger is right about the cluster. -/
structure LedgerInv (c : Cluster) : Prop where
  sent : ∀ e ∈ tr, ∀ packet, e.Sends sort packet → packet ∈ c.sent
  entry : ∀ id seq d, l id seq = some d → EntryOK sort tr id seq d
  drawn : ∀ id seq d, l id seq = some d → ∃ p, c.node id = some p ∧ seq < p.seqCounter
  packet : ∀ packet ∈ c.sent, PacketOK sort l tr packet
  node : ∀ id p, c.node id = some p → NodeOK sort l tr id p.traffic

end

/-! ## As time goes on -/

section

variable {sort : SortByCount} {l l' : Ledger} {tr tr' : List Event} {id : NodeId}

theorem Draw.Answered.mono {d : Draw} {seq : UInt32} (h : d.Answered sort tr id seq)
    (htr : tr <+: tr') : d.Answered sort tr' id seq := by
  obtain ⟨msg, htype, hheard, hcommissioned⟩ := h
  exact ⟨msg, htype, hheard.mono htr, hcommissioned.mono htr⟩

theorem Ledger.Answered.mono {seq : UInt32} (h : l.Answered sort tr id seq) (hl : l'.Extends l)
    (htr : tr <+: tr') : l'.Answered sort tr' id seq := by
  obtain ⟨d, hd, hanswered⟩ := h
  exact ⟨d, hl id seq d hd, hanswered.mono htr⟩

theorem PacketOK.mono {packet : Packet} (h : PacketOK sort l tr packet) (hl : l'.Extends l)
    (htr : tr <+: tr') : PacketOK sort l' tr' packet := by
  rw [PacketOK] at h ⊢
  split at h
  · obtain ⟨d, hd, hrest⟩ := h
    exact ⟨d, hl _ _ _ hd, hrest⟩
  · obtain ⟨d, hd, hkind, htarget, hsent⟩ := h
    exact ⟨d, hl _ _ _ hd, hkind, htarget, hsent.mono htr⟩
  · exact Ledger.Answered.mono h hl htr

theorem ProbeOK.next {kind : ProbeKind} {target : NodeId} {seq : UInt32} {e : Event}
    (h : ProbeOK l tr id kind target seq) (hl : l'.Extends l)
    (he : e.Continues kind id target seq) :
    ProbeOK l' (tr ++ [e]) id kind target seq := by
  obtain ⟨d, after, hd, hkind, htarget, hbegins, rfl, hafter⟩ := h
  refine ⟨d, after ++ [e], hl _ _ _ hd, hkind, htarget, hbegins, by simp, fun f hf ↦ ?_⟩
  rcases List.mem_append.mp hf with hf | hf
  · exact hafter f hf
  · obtain rfl := List.mem_singleton.mp hf
    exact he

theorem RelayOK.mono {r : Relay} (h : RelayOK sort l tr id r) (hl : l'.Extends l)
    (htr : tr <+: tr') : RelayOK sort l' tr' id r := by
  obtain ⟨d, d', us, hd, hkind, htarget, hd', hkind', htarget', hpast, hsent⟩ := h
  exact ⟨d, d', us, hl _ _ _ hd, hkind, htarget, hl _ _ _ hd', hkind', htarget', hpast,
    hsent.mono htr⟩

/-- What a node needs after an event, if it still has what it had before. -/
theorem NodeOK.next {t t' : Traffic} {e : Event} (h : NodeOK sort l tr id t) (hl : l'.Extends l)
    (hself : t'.self = t.self)
    (hacked : ∀ seq, t'.pendingAcks seq = some true →
      t.pendingAcks seq = some true ∨ l'.Answered sort (tr ++ [e]) id seq)
    (hprobe : ∀ kind target seq, t'.probe.current = some (kind, target, seq) →
      t.probe.current = some (kind, target, seq) ∧ e.Continues kind id target seq ∨
        ProbeOK l' (tr ++ [e]) id kind target seq)
    (hrelay : ∀ r ∈ t'.relays, r ∈ t.relays ∨ RelayOK sort l' (tr ++ [e]) id r) :
    NodeOK sort l' (tr ++ [e]) id t' := by
  have htr : tr <+: tr ++ [e] := List.prefix_append ..
  refine ⟨hself.trans h.self_eq, fun seq hseq ↦ ?_, fun kind target seq hcurrent ↦ ?_,
    fun r hr ↦ ?_⟩
  · rcases hacked seq hseq with hold | hnew
    · exact (h.acked seq hold).mono hl htr
    · exact hnew
  · rcases hprobe kind target seq hcurrent with ⟨hold, he⟩ | hnew
    · exact (h.probe kind target seq hold).next hl he
    · exact hnew
  · rcases hrelay r hr with hold | hnew
    · exact (h.relay r hold).mono hl htr
    · exact hnew

theorem EntryOK.mono {seq : UInt32} {d : Draw} (h : EntryOK sort tr id seq d) (htr : tr <+: tr') :
    EntryOK sort tr' id seq d :=
  ⟨h.part.trans htr, h.fresh⟩

end

/-! ## A step of the cluster -/

section

variable {sort : SortByCount} {l l' : Ledger} {tr : List Event} {c : Cluster} {id : NodeId}
  {p p' : SwimProtocol} {a : SwimProtocol.Action} {sent : List Packet}

/-- An event of the node `id`, with what it has to bring along. -/
theorem LedgerInv.advance {e : Event} (h : LedgerInv sort l tr c) (hl : l'.Extends l)
    (hentry : ∀ x seq d, l' x seq = some d → l x seq = some d ∨
      x = id ∧ EntryOK sort (tr ++ [e]) x seq d ∧ seq < p'.seqCounter)
    (hcounter : ∀ q, c.node id = some q → q.seqCounter ≤ p'.seqCounter)
    (hsends : ∀ packet, e.Sends sort packet → packet ∈ sent)
    (hothers : ∀ kind x target seq, x ≠ id → e.Continues kind x target seq)
    (hpackets : ∀ packet ∈ sent, PacketOK sort l' (tr ++ [e]) packet)
    (hnode : NodeOK sort l' (tr ++ [e]) id p'.traffic) :
    LedgerInv sort l' (tr ++ [e]) (c.advance id p' sent) := by
  have htr : tr <+: tr ++ [e] := List.prefix_append ..
  constructor
  case sent =>
    intro f hf packet hpacket
    rcases List.mem_append.mp hf with hf | hf
    · exact List.mem_append_left _ (h.sent f hf packet hpacket)
    · obtain rfl := List.mem_singleton.mp hf
      exact List.mem_append_right _ (hsends packet hpacket)
  case entry =>
    intro x seq d hd
    rcases hentry x seq d hd with hold | ⟨-, hnew, -⟩
    · exact (h.entry x seq d hold).mono htr
    · exact hnew
  case drawn =>
    intro x seq d hd
    rcases hentry x seq d hd with hold | ⟨rfl, -, hlt⟩
    · obtain ⟨q, hq, hlt⟩ := h.drawn x seq d hold
      by_cases hx : x = id
      · subst hx
        exact ⟨p', advance_node_self .., lt_of_lt_of_le hlt (hcounter q hq)⟩
      · exact ⟨q, (advance_node_of_ne hx).trans hq, hlt⟩
    · exact ⟨p', advance_node_self .., hlt⟩
  case packet =>
    intro packet hpacket
    rcases List.mem_append.mp hpacket with hold | hnew
    · exact (h.packet packet hold).mono hl htr
    · exact hpackets packet hnew
  case node =>
    intro x q hq
    by_cases hx : x = id
    · subst hx
      rw [advance_node_self] at hq
      cases hq
      exact hnode
    · rw [advance_node_of_ne hx] at hq
      exact (h.node x q hq).next hl rfl (fun _ ↦ Or.inl)
        (fun kind target seq hcurrent ↦ Or.inl ⟨hcurrent, hothers kind x target seq hx⟩)
        (fun _ ↦ Or.inl)

theorem sends_stepped {packet : Packet} (hr : p.step sort a = some (p', sent)) :
    (Event.stepped id p a p').Sends sort packet ↔ packet ∈ sent := by
  constructor
  · rintro ⟨r, hr', hpacket⟩
    cases hr.symm.trans hr'
    exact hpacket
  · exact fun hpacket ↦ ⟨_, hr, hpacket⟩

theorem eq_some_true_of_getD {o : Option Bool} (h : o.getD false = true) : o = some true := by
  cases o with
  | none => cases h
  | some b => exact congrArg some h

/-- A step of a node that draws no number. -/
theorem LedgerInv.keep (h : LedgerInv sort l tr c) (hp : c.node id = some p)
    (hr : p.step sort a = some (p', sent)) (hcounter : p'.traffic.seqCounter = p.seqCounter)
    (hpackets : ∀ packet ∈ sent, PacketOK sort l (tr ++ [.stepped id p a p']) packet)
    (hnode : NodeOK sort l (tr ++ [.stepped id p a p']) id p'.traffic) :
    LedgerInv sort l (tr ++ [.stepped id p a p']) (c.advance id p' sent) := by
  refine h.advance (.refl l) (fun _ _ _ ↦ Or.inl) (fun q hq ↦ ?_) (fun _ ↦ (sends_stepped hr).mp)
    (fun _ _ _ _ hx hid ↦ absurd hid.symm hx) hpackets hnode
  cases hp.symm.trans hq
  exact hcounter.ge

/-- The next number of a node has not been drawn. -/
theorem LedgerInv.unused (h : LedgerInv sort l tr c) (hp : c.node id = some p) :
    l id p.seqCounter = none := by
  by_contra hsome
  obtain ⟨d, hd⟩ := Option.ne_none_iff_exists'.mp hsome
  obtain ⟨q, hq, hlt⟩ := h.drawn id _ d hd
  cases hp.symm.trans hq
  exact lt_irrefl _ hlt

/-- A step of a node that draws its next number. -/
theorem LedgerInv.draw (kind : ProbeKind) (target : NodeId) (h : LedgerInv sort l tr c)
    (hp : c.node id = some p) (hr : p.step sort a = some (p', sent))
    (hcounter : p'.traffic.seqCounter = p.seqCounter + 1)
    (hwrap : (Event.stepped id p a p').wraps = false)
    (hpackets : ∀ packet ∈ sent, PacketOK sort
      (l.enter id p.seqCounter ⟨tr, .stepped id p a p', kind, target⟩)
      (tr ++ [.stepped id p a p']) packet)
    (hnode : NodeOK sort (l.enter id p.seqCounter ⟨tr, .stepped id p a p', kind, target⟩)
      (tr ++ [.stepped id p a p']) id p'.traffic) :
    ∃ l', LedgerInv sort l' (tr ++ [.stepped id p a p']) (c.advance id p' sent) := by
  have hle : p.seqCounter ≤ p'.seqCounter := not_lt.mp (of_decide_eq_false hwrap)
  have hlt : p.seqCounter < p'.seqCounter := by
    refine lt_of_le_of_ne hle fun heq ↦ ?_
    rw [← show p'.traffic.seqCounter = p'.seqCounter from rfl, hcounter] at heq
    simp at heq
  refine ⟨_, h.advance (Ledger.enter_extends (h.unused hp)) (fun x seq d hd ↦ ?_) (fun q hq ↦ ?_)
    (fun _ ↦ (sends_stepped hr).mp) (fun _ _ _ _ hx hid ↦ absurd hid.symm hx) hpackets hnode⟩
  · by_cases heq : x = id ∧ seq = p.seqCounter
    · obtain ⟨rfl, rfl⟩ := heq
      rw [Ledger.enter_self rfl] at hd
      cases hd
      refine Or.inr ⟨rfl, ⟨List.prefix_rfl, ?_⟩, hlt⟩
      -- a ping with this number would have left an entry
      intro f hf packet hpacket htype hsender hseq
      have hok := h.packet packet (h.sent f hf packet hpacket)
      simp only [PacketOK, htype] at hok
      obtain ⟨d, hd, -⟩ := hok
      rw [hsender, hseq, h.unused hp] at hd
      cases hd
    · rw [Ledger.enter_of_ne heq] at hd
      exact Or.inl hd
  · cases hp.symm.trans hq
    exact hle

/-! ### Answers -/

/-- The target of a ping hears it. -/
theorem LedgerInv.answered_of_ping {msg : SwimMessage} {e : Event} (h : LedgerInv sort l tr c)
    (hmem : ⟨id, msg⟩ ∈ c.sent) (htype : msg.type = .ping) (he : e.Processes id msg) :
    l.Answered sort (tr ++ [e]) msg.sender msg.seqNum := by
  have hok := h.packet _ hmem
  simp only [PacketOK, htype] at hok
  obtain ⟨d, hd, hkind, rfl, hsends⟩ := hok
  obtain ⟨⟨after, rfl⟩, hfresh⟩ := h.entry _ _ d hd
  refine ⟨d, hd, msg, htype, ⟨d.past, d.first, after ++ [e], by simp, List.prefix_rfl, hsends, ?_,
    e, by simp, he⟩, ?_⟩
  · exact fun f hf hsent ↦ hfresh f hf _ hsent htype rfl rfl
  · rw [hkind]
    rfl

/-- The answer to a relayed ping answers the request for it. -/
theorem LedgerInv.answered_of_relay {r : Relay} (h : LedgerInv sort l tr c)
    (hp : c.node id = some p) (hmem : r ∈ p.relays)
    (hacked : (p.pendingAcks r.localSeq).getD false = true) :
    l.Answered sort tr r.requester r.origSeq := by
  obtain ⟨d, d', us, hd, hkind, htarget, hd', hkind', htarget', hpast, hsent⟩ :=
    (h.node id p hp).relay r hmem
  obtain ⟨d₁, hd₁, msg, htype, hheard, hcommissioned⟩ :=
    (h.node id p hp).acked _ (eq_some_true_of_getD hacked)
  cases hd.symm.trans hd₁
  rw [hkind] at hcommissioned
  obtain rfl : msg.sender = id := hcommissioned
  refine ⟨d', hd', msg, htype, ?_, ?_⟩
  · rw [htarget', ← htarget]
    exact hheard.earlier hpast
  · rw [hkind', htarget']
    exact ⟨us, hsent⟩

/-! ### The kinds of steps -/

/-- `direct_ping` begins. -/
theorem LedgerInv.direct {target : NodeId} {us : List MembershipUpdate} (h : LedgerInv sort l tr c)
    (hp : c.node id = some p)
    (hr : p.step sort (.probe target) =
      some (p', [⟨target, ⟨.ping, p.seqCounter, p.self, none, us⟩⟩]))
    (ht : p'.traffic = { p.traffic.opened with probe := .direct target p.seqCounter })
    (hwrap : (Event.stepped id p (.probe target) p').wraps = false) :
    ∃ l', LedgerInv sort l' (tr ++ [.stepped id p (.probe target) p'])
      (c.advance id p' [⟨target, ⟨.ping, p.seqCounter, p.self, none, us⟩⟩]) := by
  have hnode := h.node id p hp
  have hself : p.self = id := hnode.self_eq
  refine h.draw .direct target hp hr (by rw [ht]; rfl) hwrap ?_ ?_
  · intro packet hpacket
    obtain rfl := List.mem_singleton.mp hpacket
    exact ⟨_, Ledger.enter_self hself, rfl, rfl, (sends_stepped hr).mpr List.mem_cons_self⟩
  · rw [ht]
    refine hnode.next (Ledger.enter_extends (h.unused hp)) rfl
      (fun _ hacked ↦ Or.inl (Traffic.pendingAcks_opened hacked)) ?_ (fun _ ↦ Or.inl)
    rintro _ _ _ ⟨⟩
    exact Or.inr ⟨_, [], Ledger.enter_self rfl, rfl, rfl, ⟨rfl, rfl, rfl, rfl⟩, rfl,
      List.forall_mem_nil _⟩

/-- `indirect_ping` begins. -/
theorem LedgerInv.indirect {intermediaries rest : List NodeId} {now : Time}
    {target relay : NodeId} {seq : UInt32} {us : List MembershipUpdate}
    (h : LedgerInv sort l tr c) (hp : c.node id = some p)
    (hr : p.step sort (.directDone intermediaries now) =
      some (p', [⟨relay, ⟨.pingReq, p.seqCounter, p.self, some target, us⟩⟩]))
    (ht : p'.traffic =
      { (p.traffic.closed seq).opened with probe := .indirect target p.seqCounter rest })
    (hwrap : (Event.stepped id p (.directDone intermediaries now) p').wraps = false) :
    ∃ l', LedgerInv sort l' (tr ++ [.stepped id p (.directDone intermediaries now) p'])
      (c.advance id p' [⟨relay, ⟨.pingReq, p.seqCounter, p.self, some target, us⟩⟩]) := by
  have hnode := h.node id p hp
  have hself : p.self = id := hnode.self_eq
  refine h.draw .indirect target hp hr (by rw [ht]; rfl) hwrap ?_ ?_
  · intro packet hpacket
    obtain rfl := List.mem_singleton.mp hpacket
    exact ⟨_, Ledger.enter_self hself, rfl, rfl, tr, _, [], rfl, List.prefix_rfl,
      (sends_stepped hr).mpr List.mem_cons_self⟩
  · rw [ht]
    refine hnode.next (Ledger.enter_extends (h.unused hp)) rfl (fun _ hacked ↦ Or.inl ?_) ?_
      (fun _ ↦ Or.inl)
    · exact Traffic.pendingAcks_closed (Traffic.pendingAcks_opened hacked)
    · rintro _ _ _ ⟨⟩
      have hprobe : p'.probe = .indirect target p.seqCounter rest := congrArg Traffic.probe ht
      refine Or.inr ⟨_, [], Ledger.enter_self rfl, rfl, rfl, ⟨rfl, rfl, rfl, ?_⟩, rfl,
        List.forall_mem_nil _⟩
      rw [hprobe]
      rfl

/-- `indirect_ping` asks another peer. -/
theorem LedgerInv.askNext {rest : List NodeId} {target relay : NodeId} {seq : UInt32}
    {us : List MembershipUpdate} (h : LedgerInv sort l tr c) (hp : c.node id = some p)
    (hprobe : p.probe = .indirect target seq (relay :: rest))
    (hr : p.step sort .askNext =
      some (p', [⟨relay, ⟨.pingReq, seq, p.self, some target, us⟩⟩]))
    (ht : p'.traffic = { p.traffic with probe := .indirect target seq rest }) :
    LedgerInv sort l (tr ++ [.stepped id p .askNext p'])
      (c.advance id p' [⟨relay, ⟨.pingReq, seq, p.self, some target, us⟩⟩]) := by
  have hnode := h.node id p hp
  have hself : p.self = id := hnode.self_eq
  have hcurrent : p.traffic.probe.current = some (.indirect, target, seq) :=
    congrArg Probe.current hprobe
  refine h.keep hp hr (by rw [ht]; rfl) ?_ ?_
  · intro packet hpacket
    obtain rfl := List.mem_singleton.mp hpacket
    obtain ⟨d, after, hd, hkind, rfl, -, rfl, -⟩ := hnode.probe _ _ _ hcurrent
    exact ⟨d, hself ▸ hd, hkind, rfl, d.past ++ d.first :: after, _, [], rfl,
      List.prefix_append .., (sends_stepped hr).mpr List.mem_cons_self⟩
  · rw [ht]
    refine hnode.next (.refl l) rfl (fun _ ↦ Or.inl) ?_ (fun _ ↦ Or.inl)
    rintro _ _ _ ⟨⟩
    exact Or.inl ⟨hcurrent, fun _ ↦ hcurrent⟩

/-- A relayed ping begins. -/
theorem LedgerInv.pingReq {msg : SwimMessage} {now : Time} {target : NodeId}
    (h : LedgerInv sort l tr c) (hp : c.node id = some p) (hmem : ⟨id, msg⟩ ∈ c.sent)
    (htype : msg.type = .pingReq) (htarget : msg.target = some target)
    (hr : p.step sort (.receive msg now) =
      some (p', [⟨target, ⟨.ping, p.seqCounter, p.self, none, []⟩⟩]))
    (ht : p'.traffic = { p.traffic.opened with
      relays := p.traffic.relays ++ [⟨target, msg.sender, msg.seqNum, p.seqCounter⟩] })
    (hwrap : (Event.stepped id p (.receive msg now) p').wraps = false) :
    ∃ l', LedgerInv sort l' (tr ++ [.stepped id p (.receive msg now) p'])
      (c.advance id p' [⟨target, ⟨.ping, p.seqCounter, p.self, none, []⟩⟩]) := by
  have hnode := h.node id p hp
  have hself : p.self = id := hnode.self_eq
  have hextends := Ledger.enter_extends
    (d := ⟨tr, .stepped id p (.receive msg now) p', .direct, target⟩) (h.unused hp)
  refine h.draw .direct target hp hr (by rw [ht]; rfl) hwrap ?_ ?_
  · intro packet hpacket
    obtain rfl := List.mem_singleton.mp hpacket
    exact ⟨_, Ledger.enter_self hself, rfl, rfl, (sends_stepped hr).mpr List.mem_cons_self⟩
  · rw [ht]
    refine hnode.next hextends rfl
      (fun _ hacked ↦ Or.inl (Traffic.pendingAcks_opened hacked))
      (fun _ _ _ hcurrent ↦ Or.inl ⟨hcurrent, fun _ ↦ hcurrent⟩) fun r hrelay ↦ ?_
    rcases List.mem_append.mp hrelay with hold | hnew
    · exact Or.inl hold
    · obtain rfl := List.mem_singleton.mp hnew
      have hok := h.packet _ hmem
      simp only [PacketOK, htype, htarget] at hok
      obtain ⟨d, hd, hkind, hsome, hsent⟩ := hok
      obtain rfl := Option.some.inj hsome
      have hmsg : msg = ⟨.pingReq, msg.seqNum, msg.sender, some d.target, msg.updates⟩ := by
        rw [← htype, ← htarget]
      refine Or.inr ⟨_, d, msg.updates, Ledger.enter_self rfl, rfl, rfl, hextends _ _ _ hd, hkind,
        rfl, (List.prefix_append ..).trans (h.entry _ _ d hd).part, ?_⟩
      rw [← hmsg]
      exact hsent.mono (List.prefix_append ..)

/-- **What one step keeps.** -/
theorem LedgerInv.step (h : LedgerInv sort l tr c) (hp : c.node id = some p)
    (hr : p.step sort a = some (p', sent))
    (harrives : ∀ msg now, a = .receive msg now → ⟨id, msg⟩ ∈ c.sent)
    (hwrap : (Event.stepped id p a p').wraps = false) :
    ∃ l', LedgerInv sort l' (tr ++ [.stepped id p a p']) (c.advance id p' sent) := by
  have hnode := h.node id p hp
  have hstep : TrafficStep p.traffic a p'.traffic sent := step_traffic hr
  generalize ht : p'.traffic = t' at hstep
  cases hstep with
  | quiet =>
      refine ⟨l, h.keep hp hr (by rw [ht]; rfl) (List.forall_mem_nil _) ?_⟩
      rw [ht]
      exact hnode.next (.refl l) rfl (fun _ ↦ Or.inl)
        (fun _ _ _ hcurrent ↦ Or.inl ⟨hcurrent, fun _ ↦ hcurrent⟩) (fun _ ↦ Or.inl)
  | direct target us => exact h.direct hp hr ht hwrap
  | closed seq =>
      refine ⟨l, h.keep hp hr (by rw [ht]; rfl) (List.forall_mem_nil _) ?_⟩
      rw [ht]
      refine hnode.next (.refl l) rfl (fun _ hacked ↦ Or.inl (Traffic.pendingAcks_closed hacked))
        ?_ (fun _ ↦ Or.inl)
      rintro _ _ _ ⟨⟩
  | indirect => exact h.indirect hp hr ht hwrap
  | askNext target seq relay rest us hprobe => exact ⟨l, h.askNext hp hprobe hr ht⟩
  | relayDone r hmem =>
      refine ⟨l, h.keep hp hr (by rw [ht]; rfl) (fun packet hpacket ↦ ?_) ?_⟩
      · obtain ⟨hacked, hpacket⟩ := List.mem_ite_nil_right.mp hpacket
        obtain rfl := List.mem_singleton.mp hpacket
        exact (h.answered_of_relay hp hmem hacked).mono (.refl l) (List.prefix_append ..)
      · rw [ht]
        exact hnode.next (.refl l) rfl (fun _ hacked ↦ Or.inl (Traffic.pendingAcks_closed hacked))
          (fun _ _ _ hcurrent ↦ Or.inl ⟨hcurrent, fun _ ↦ hcurrent⟩)
          (fun _ hrelay ↦ Or.inl (List.mem_of_mem_erase hrelay))
  | ping msg now us htype =>
      refine ⟨l, h.keep hp hr (by rw [ht]; rfl) (fun packet hpacket ↦ ?_) ?_⟩
      · obtain rfl := List.mem_singleton.mp hpacket
        exact h.answered_of_ping (harrives msg now rfl) htype ⟨rfl, rfl⟩
      · rw [ht]
        exact hnode.next (.refl l) rfl (fun _ ↦ Or.inl)
          (fun _ _ _ hcurrent ↦ Or.inl ⟨hcurrent, fun _ ↦ hcurrent⟩) (fun _ ↦ Or.inl)
  | ack msg now htype =>
      refine ⟨l, h.keep hp hr (by rw [ht]; rfl) (List.forall_mem_nil _) ?_⟩
      rw [ht]
      refine hnode.next (.refl l) rfl (fun seq hacked ↦ ?_)
        (fun _ _ _ hcurrent ↦ Or.inl ⟨hcurrent, fun _ ↦ hcurrent⟩) (fun _ ↦ Or.inl)
      rcases Traffic.pendingAcks_acked hacked with hold | rfl
      · exact Or.inl hold
      · have hok := h.packet _ (harrives msg now rfl)
        simp only [PacketOK, htype] at hok
        exact Or.inr (hok.mono (.refl l) (List.prefix_append ..))
  | pingReq msg now target htype htarget =>
      exact h.pingReq hp (harrives msg now rfl) htype htarget hr ht hwrap

/-- A node starts. -/
theorem LedgerInv.boot {config : SwimConfig} {seed : Option (NodeId × UInt16)} {now : Time}
    (h : LedgerInv sort l tr c) (hnone : c.node id = none) :
    LedgerInv sort l (tr ++ [.booted id])
      (c.advance id (SwimProtocol.start config id seed now) []) := by
  refine h.advance (.refl l) (fun _ _ _ ↦ Or.inl) (fun q hq ↦ ?_) (fun _ ↦ False.elim)
    (fun _ _ _ _ _ ↦ trivial) (List.forall_mem_nil _) ⟨rfl, ?_, ?_, List.forall_mem_nil _⟩
  · rw [hnone] at hq
    cases hq
  · rintro seq ⟨⟩
  · rintro kind target seq ⟨⟩

end

/-! ## Runs -/

variable {sort : SortByCount} {c : Cluster} {tr : List Event}

theorem run_ledger (hrun : (machine sort).Run c tr) (hwraps : ∀ e ∈ tr, e.wraps = false) :
    ∃ l, LedgerInv sort l tr c := by
  refine hrun.invariant (I := fun c tr ↦ (∀ e ∈ tr, e.wraps = false) → ∃ l, LedgerInv sort l tr c)
    ?_ ?_ hwraps
  · rintro _ rfl -
    refine ⟨fun _ _ ↦ none, List.forall_mem_nil _, ?_, ?_, List.forall_mem_nil _, ?_⟩
    · rintro id seq d ⟨⟩
    · rintro id seq d ⟨⟩
    · rintro id p ⟨⟩
  · intro c tr a c' ev _ ih hstep hwraps
    obtain ⟨l, h⟩ := ih fun e he ↦ hwraps e (List.mem_append_left _ he)
    rcases step_cases hstep with ⟨id, config, seed, now, hnone, rfl, rfl⟩ |
      ⟨id, p, b, r, hp, hr, harrives, rfl, rfl⟩
    · exact ⟨l, h.boot hnone⟩
    · exact h.step hp hr harrives (hwraps _ (List.mem_append_right _ List.mem_cons_self))

/-- A call returns `true` while the node is in it and its number is acknowledged. -/
theorem Event.Succeeds.acked {kind : ProbeKind} {id x target : NodeId} {seq : UInt32}
    {p p' : SwimProtocol} {a : SwimProtocol.Action}
    (h : (Event.stepped x p a p').Succeeds kind id target seq) :
    x = id ∧ p.probe.current = some (kind, target, seq) ∧ p.pendingAcks seq = some true := by
  cases a with
  | directDone =>
      obtain ⟨rfl, hx, hprobe, hclose⟩ := h
      exact ⟨hx, by rw [hprobe]; rfl, eq_some_true_of_getD hclose⟩
  | indirectDone =>
      obtain ⟨rfl, hx, hprobe, hclose⟩ := h
      exact ⟨hx, by rw [hprobe]; rfl, eq_some_true_of_getD hclose⟩
  | _ => exact h.elim

/-- A probe succeeds only if its target has heard a ping since the probe began, and one that
the prober sent or a peer that the prober had asked. -/
theorem heard_of_success (sort : SortByCount) (c : Cluster) (tr : List Event)
    (hrun : (machine sort).Run c tr) (hwraps : ∀ e ∈ tr, e.wraps = false) (kind : ProbeKind)
    (id target : NodeId) (seq : UInt32) :
    Guarded (fun past e ↦ e.Succeeds kind id target seq →
      ∃ before first during, past = before ++ first :: during ∧
        first.Begins kind id target seq ∧ (∀ f ∈ during, f.Continues kind id target seq) ∧
        ∃ msg, msg.type = .ping ∧ Heard sort past before target msg ∧
          Commissioned sort past before id target seq msg.sender kind) tr := by
  refine hrun.invariant (I := fun _ tr ↦ (∀ e ∈ tr, e.wraps = false) → Guarded _ tr) ?_ ?_ hwraps
  · exact fun _ _ _ ↦ guarded_nil
  · intro c tr a c' ev hrun ih hstep hwraps
    have hwraps' : ∀ e ∈ tr, e.wraps = false :=
      fun e he ↦ hwraps e (List.mem_append_left _ he)
    obtain ⟨l, h⟩ := run_ledger hrun hwraps'
    rcases step_cases hstep with ⟨x, config, seed, now, hnone, rfl, rfl⟩ |
      ⟨x, p, b, r, hp, hr, -, rfl, rfl⟩
    · exact (ih hwraps').concat False.elim
    · refine (ih hwraps').concat fun hsuccess ↦ ?_
      obtain ⟨rfl, hcurrent, hacked⟩ := hsuccess.acked
      obtain ⟨d, after, hd, rfl, rfl, hbegins, hpast, hafter⟩ :=
        (h.node x p hp).probe kind target seq hcurrent
      obtain ⟨d', hd', hanswered⟩ := (h.node x p hp).acked seq hacked
      cases hd.symm.trans hd'
      exact ⟨d.past, d.first, after, hpast, hbegins, hafter, hanswered⟩

/-- A ping to `t` is lost, so `a` asks `r`, and hears back from it. -/
theorem heard_of_success_relayed :
    let a : NodeId := ⟨[97], 7946⟩
    let t : NodeId := ⟨[116], 7946⟩
    ∃ c tr e, (machine .stable).Run c (tr ++ [e]) ∧ e.Succeeds .indirect a t 1 ∧
      ∃ before msg, msg.type = .ping ∧ Heard .stable tr before t msg := by
  intro a t
  let r : NodeId := ⟨[114], 7946⟩
  let config : SwimConfig := ⟨5000, 1, 0, 11211⟩
  let actions : List Action :=
    [.boot r config none 0, .boot a config (some (r, 11211)) 0, .boot t config (some (a, 11211)) 0,
      .step t (.probe a), .step a (.receive ⟨.ping, 0, t, none, []⟩ 1), .step a (.probe t),
      .step a (.directDone [r] 2), .step r (.receive ⟨.pingReq, 1, a, some t, []⟩ 3),
      .step t (.receive ⟨.ping, 0, r, none, []⟩ 4), .step r (.receive ⟨.ack, 0, t, none, []⟩ 5),
      .step r (.relayDone ⟨t, a, 1, 0⟩), .step a (.receive ⟨.ack, 1, r, none, []⟩ 6)]
  have hsome : (((machine .stable).exec empty actions).bind fun x ↦ (x.1.node a).map fun p ↦
      (p.probe, p.pendingAcks 1, (x.2.all fun e ↦ !e.wraps) &&
        !(Event.stepped a p (.indirectDone 7) (p.indirectDone 7 t 1)).wraps)) =
      some (.indirect t 1 [], some true, true) := by
    decide +kernel
  obtain ⟨⟨c, tr⟩, hexec, hc⟩ := Option.bind_eq_some_iff.mp hsome
  obtain ⟨p, hp, hres⟩ := Option.map_eq_some_iff.mp hc
  simp only [Prod.mk.injEq, Bool.and_eq_true, List.all_eq_true, Bool.not_eq_true'] at hres
  obtain ⟨hprobe, hacked, hwraps, hlast⟩ := hres
  let e : Event := .stepped a p (.indirectDone 7) (p.indirectDone 7 t 1)
  have hrun : (machine .stable).Run c tr := (Machine.Run.init rfl).exec hexec
  have hstep : (machine .stable).step c (.step a (.indirectDone 7)) =
      some (c.advance a (p.indirectDone 7 t 1) [], [e]) := by
    have hnode : c.node a = some p := hp
    simp only [machine, step, hnode, SwimProtocol.step, hprobe]
    rfl
  have hall : ∀ f ∈ tr ++ [e], f.wraps = false := by
    intro f hf
    rcases List.mem_append.mp hf with hf | hf
    · exact hwraps f hf
    · obtain rfl := List.mem_singleton.mp hf
      exact hlast
  have hsuccess : e.Succeeds .indirect a t 1 :=
    ⟨rfl, rfl, hprobe, by rw [SwimProtocol.closeSeq, hacked]; rfl⟩
  obtain ⟨before, -, -, -, -, -, msg, htype, hheard, -⟩ :=
    heard_of_success .stable _ _ (hrun.step hstep) hall .indirect a t 1 tr e [] rfl hsuccess
  exact ⟨_, tr, e, hrun.step hstep, hsuccess, before, msg, htype, hheard⟩

end Cluster

end Pensieve
