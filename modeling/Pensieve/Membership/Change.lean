import Mathlib.Logic.Relation
import Pensieve.Membership.SwimProtocol

/-!
# What the steps of a node are made of

Whatever a node does, it does by six kinds of change to its state (`Change`).  A
property that each of them keeps is kept by every step, and holds between any two
updates of a message as well.

A node reports about others only: the calls to the table and to the queue that
name the node itself are those of `refute`.  This rests on the probe loop, which
never has the node itself as its target (`TargetsOther`).  What a node says of
others is what it was told, that a sender has joined, or that a member has failed
at the incarnation it is recorded with (`Grounds`).
-/

namespace Pensieve

open Foundation

/-- Reporting a node alive at the incarnation it is recorded with changes
nothing. -/
theorem MemberList.updateState_alive {m : MemberList} {id : NodeId} {e : NodeInfo} {now : Time}
    (he : m.getNode id = some e) : (m.updateState id .alive e.incarnation now).1 = m := by
  have hsup : stateSupersedes .alive e.state = false := by cases e.state <;> rfl
  rw [getNode] at he
  simp [updateState, he, hsup]

namespace SwimProtocol

/-- The probe loop is not probing the node itself. -/
def TargetsOther (p : SwimProtocol) : Prop := ∀ t ∈ p.probe.target, t ≠ p.self

/-- The entry that a join or alive update asks for. -/
def infoOf (u : MembershipUpdate) (now : Time) : NodeInfo :=
  { id := u.node, dataPort := u.dataPort, state := .alive, incarnation := u.incarnation,
    lastStateChange := now }

/-- The kinds of change.  What is said of other nodes satisfies `G`. -/
inductive Change (sort : SortByCount) (G : MembershipUpdate → Prop) :
    SwimProtocol → SwimProtocol → Prop
  /-- `add_node` for a join or alive update. -/
  | addNode (p : SwimProtocol) (u : MembershipUpdate) (now : Time) (h : u.node ≠ p.self)
      (hu : G u) (htype : u.type = .join ∨ u.type = .alive) :
      Change sort G p { p with members := (p.members.addNode (infoOf u now)).1 }
  /-- `update_state` for another update. -/
  | updateState (p : SwimProtocol) (u : MembershipUpdate) (now : Time) (h : u.node ≠ p.self)
      (hu : G u) :
      Change sort G p
        { p with
          members := (p.members.updateState u.node u.type.newState u.incarnation now).1 }
  /-- `enqueue`. -/
  | enqueue (p : SwimProtocol) (u : MembershipUpdate) (h : u.node ≠ p.self) (hu : G u) :
      Change sort G p { p with disseminator := p.disseminator.enqueue u }
  /-- `get_updates`. -/
  | getUpdates (p : SwimProtocol) (limit : ℕ) :
      Change sort G p { p with disseminator := (p.disseminator.getUpdates sort limit).2 }
  /-- The answer to a rumour. -/
  | refute (p : SwimProtocol) (now : Time) : Change sort G p (p.refute now)
  /-- The coroutines go on. -/
  | book (p : SwimProtocol) (seqCounter : UInt32) (pendingAcks : UInt32 → Option Bool)
      (probe : Probe) (relays : List Relay) (h : ∀ t ∈ probe.target, t ≠ p.self) :
      Change sort G p { p with seqCounter, pendingAcks, probe, relays }

/-- Any number of changes. -/
abbrev Changes (sort : SortByCount) (G : MembershipUpdate → Prop) :
    SwimProtocol → SwimProtocol → Prop :=
  Relation.ReflTransGen (Change sort G)

variable {sort : SortByCount} {G : MembershipUpdate → Prop} {p p' : SwimProtocol} {now : Time}

theorem Change.self_eq (h : Change sort G p p') : p'.self = p.self := by
  cases h <;> rfl

theorem Change.config_eq (h : Change sort G p p') : p'.config = p.config := by
  cases h <;> rfl

theorem Change.targetsOther (h : Change sort G p p') (hp : p.TargetsOther) : p'.TargetsOther := by
  cases h with
  | book _ _ _ _ h => exact h
  | _ => exact hp

/-- What every change keeps, any number of them keeps. -/
theorem Changes.invariant {I : SwimProtocol → Prop} (h : Changes sort G p p')
    (hstep : ∀ p p', Change sort G p p' → I p → I p') (hp : I p) : I p' := by
  induction h with
  | refl => exact hp
  | tail _ hc ih => exact hstep _ _ hc ih

theorem Changes.self_eq (h : Changes sort G p p') : p'.self = p.self :=
  h.invariant (I := fun q ↦ q.self = p.self) (fun _ _ hc hq ↦ hc.self_eq.trans hq) rfl

theorem Changes.targetsOther (h : Changes sort G p p') (hp : p.TargetsOther) : p'.TargetsOther :=
  h.invariant (fun _ _ hc ↦ hc.targetsOther) hp

/-- What a stretch of code does: it makes changes, and sends messages in the node's
name that carry what was queued on the way. -/
structure Does (sort : SortByCount) (G : MembershipUpdate → Prop) (p : SwimProtocol)
    (r : SwimProtocol × List Packet) : Prop where
  changes : Changes sort G p r.1
  sent : ∀ packet ∈ r.2, packet.msg.sender = p.self ∧
    ∃ q, Changes sort G p q ∧
      ∀ u ∈ packet.msg.updates, ∃ e ∈ q.disseminator.queue, e.update = u

theorem Does.after {q : SwimProtocol} {r : SwimProtocol × List Packet}
    (hr : Does sort G q r) (h : Changes sort G p q) : Does sort G p r := by
  refine ⟨h.trans hr.changes, fun packet hmem ↦ ?_⟩
  obtain ⟨hsender, q', hq', hcarries⟩ := hr.sent packet hmem
  exact ⟨hsender.trans h.self_eq, q', h.trans hq', hcarries⟩

/-! ## Quiet changes

Only the answer to a rumour raises the node's incarnation.  All the code but the loop of
`apply_updates` does without. -/

/-- A change that is not the answer to a rumour. -/
def Quiet (sort : SortByCount) (G : MembershipUpdate → Prop) (p p' : SwimProtocol) : Prop :=
  Change sort G p p' ∧ p'.incarnation = p.incarnation

/-- Any number of quiet changes. -/
abbrev Quiets (sort : SortByCount) (G : MembershipUpdate → Prop) :
    SwimProtocol → SwimProtocol → Prop :=
  Relation.ReflTransGen (Quiet sort G)

theorem Quiets.changes (h : Quiets sort G p p') : Changes sort G p p' := by
  have hle : Quiet sort G ≤ Change sort G := fun _ _ hq ↦ hq.1
  exact Relation.ReflTransGen.mono hle p p' h

/-- What a stretch of code does that answers no rumour. -/
structure QuietDoes (sort : SortByCount) (G : MembershipUpdate → Prop) (p : SwimProtocol)
    (r : SwimProtocol × List Packet) : Prop where
  quiets : Quiets sort G p r.1
  sent : ∀ packet ∈ r.2, packet.msg.sender = p.self ∧
    ∃ q, Quiets sort G p q ∧
      ∀ u ∈ packet.msg.updates, ∃ e ∈ q.disseminator.queue, e.update = u

theorem QuietDoes.does {r : SwimProtocol × List Packet} (h : QuietDoes sort G p r) :
    Does sort G p r := by
  refine ⟨h.quiets.changes, fun packet hmem ↦ ?_⟩
  obtain ⟨hsender, q, hq, hcarries⟩ := h.sent packet hmem
  exact ⟨hsender, q, hq.changes, hcarries⟩

theorem Quiets.does (h : Quiets sort G p p') : QuietDoes sort G p (p', []) :=
  ⟨h, fun _ hmem ↦ nomatch hmem⟩

theorem QuietDoes.after {q : SwimProtocol} {r : SwimProtocol × List Packet}
    (hr : QuietDoes sort G q r) (h : Quiets sort G p q) : QuietDoes sort G p r := by
  refine ⟨h.trans hr.quiets, fun packet hmem ↦ ?_⟩
  obtain ⟨hsender, q', hq', hcarries⟩ := hr.sent packet hmem
  exact ⟨hsender.trans h.changes.self_eq, q', h.trans hq', hcarries⟩

theorem QuietDoes.tail {r : SwimProtocol × List Packet} (hr : QuietDoes sort G p r)
    (h : Quiet sort G r.1 p') : QuietDoes sort G p (p', r.2) :=
  ⟨Relation.ReflTransGen.tail hr.quiets h, hr.sent⟩

/-- A node in state `p` has grounds for saying what satisfies `G`: that a member has
failed. -/
structure FailureGrounds (G : MembershipUpdate → Prop) (p : SwimProtocol) : Prop where
  suspect : ∀ id e, p.members.getNode id = some e → G ⟨.suspect, id, e.incarnation, 0⟩
  dead : ∀ id e, p.members.getNode id = some e → G ⟨.dead, id, e.incarnation, 0⟩

/-- A message gives grounds: its updates, and that its sender has joined. -/
structure MessageGrounds (G : MembershipUpdate → Prop) (msg : SwimMessage) : Prop where
  update : ∀ u ∈ msg.updates, G u
  join : G ⟨.join, msg.sender, 0, announcedPort msg⟩

/-! ## Messages -/

theorem applyUpdate_changes (p : SwimProtocol) (now : Time) {u : MembershipUpdate} (hu : G u) :
    Changes sort G p (p.applyUpdate now u) := by
  rw [applyUpdate]
  split_ifs with hself _ htype
  · exact .single (.refute p now)
  · exact .refl
  · exact .single (.addNode p u now hself hu (by simpa using htype))
  · exact .single (.updateState p u now hself hu)

theorem applyUpdates_changes (p : SwimProtocol) (now : Time) {us : List MembershipUpdate}
    (hus : ∀ u ∈ us, G u) : Changes sort G p (p.applyUpdates now us) := by
  induction us generalizing p with
  | nil => exact .refl
  | cons u us ih =>
      have hrest : ∀ v ∈ us, G v := fun v hv ↦ hus v (List.mem_cons_of_mem _ hv)
      exact (applyUpdate_changes p now (hus u List.mem_cons_self)).trans (ih _ hrest)

theorem welcome_quiets (p : SwimProtocol) (now : Time) {msg : SwimMessage}
    (hjoin : G ⟨.join, msg.sender, 0, announcedPort msg⟩) :
    Quiets sort G p (p.welcome now msg) := by
  rw [welcome]
  split_ifs with h
  · have hadd : Quiets sort G p _ := .single ⟨.addNode p _ now h.1 hjoin (Or.inl rfl), rfl⟩
    exact hadd.tail ⟨.enqueue { p with members := _ } _ h.1 hjoin, rfl⟩
  · exact .refl

theorem sendWithUpdates_quiet (p : SwimProtocol) (type : SwimMessageType) (seqNum : UInt32)
    (target : Option NodeId) (dest : NodeId) :
    QuietDoes sort G p (p.sendWithUpdates sort type seqNum target dest) := by
  refine ⟨.single ⟨.getUpdates p _, rfl⟩, fun packet hmem ↦ ?_⟩
  obtain rfl := List.mem_singleton.mp hmem
  exact ⟨rfl, p, .refl, fun _ ↦ Disseminator.mem_of_mem_getUpdates⟩

/-- A message without updates. -/
theorem book_quiet {sent : List Packet} (h : Quiet sort G p p')
    (hsent : ∀ packet ∈ sent, packet.msg.sender = p.self ∧ packet.msg.updates = []) :
    QuietDoes sort G p (p', sent) := by
  refine ⟨.single h, fun packet hmem ↦ ?_⟩
  obtain ⟨hsender, hempty⟩ := hsent packet hmem
  refine ⟨hsender, p, .refl, fun u hu ↦ ?_⟩
  rw [hempty] at hu
  cases hu

/-- An acknowledgement is only noted: the entry of its sender stays as it is. -/
theorem onAck_members (p : SwimProtocol) (now : Time) (msg : SwimMessage) :
    (p.onAck now msg).members = p.members := by
  simp only [onAck]
  rcases he : p.members.getNode msg.sender with - | e
  · rfl
  · simp only [MemberList.updateState_alive he, ite_self]

theorem dispatch_members (p : SwimProtocol) (sort : SortByCount) (now : Time) (msg : SwimMessage) :
    (p.dispatch sort now msg).1.members = p.members := by
  rw [dispatch]
  split
  · rfl
  · exact onAck_members p now msg
  · split <;> rfl

theorem onAck_quiets (hp : p.TargetsOther) (msg : SwimMessage) :
    Quiets sort G p (p.onAck now msg) := by
  have heq : p.onAck now msg =
      { p with pendingAcks := (p.onAck now msg).pendingAcks } := by
    conv_rhs => rw [← onAck_members p now msg]
    rfl
  rw [heq]
  exact .single ⟨.book p _ _ _ _ hp, rfl⟩

theorem relayPing_quiet (hp : p.TargetsOther) (target requester : NodeId) (origSeq : UInt32) :
    QuietDoes sort G p (p.relayPing target requester origSeq) := by
  refine book_quiet ⟨.book p _ _ _ _ hp, rfl⟩ fun packet hmem ↦ ?_
  obtain rfl := List.mem_singleton.mp hmem
  exact ⟨rfl, rfl⟩

theorem dispatch_quiet (hp : p.TargetsOther) (msg : SwimMessage) :
    QuietDoes sort G p (p.dispatch sort now msg) := by
  rw [dispatch]
  split
  · exact sendWithUpdates_quiet ..
  · exact (onAck_quiets hp msg).does
  · split
    · exact Quiets.does .refl
    · exact relayPing_quiet hp _ _ _

/-- The state in which `handle_message` comes to an update, for the updates before
it. -/
def beforeUpdate (p : SwimProtocol) (now : Time) (msg : SwimMessage)
    (us : List MembershipUpdate) : SwimProtocol :=
  (p.welcome now msg).applyUpdates now us

/-- `handle_message` goes through `beforeUpdate` at every update. -/
theorem handleMessage_eq {msg : SwimMessage} {before after : List MembershipUpdate}
    {u : MembershipUpdate} (h : msg.updates = before ++ u :: after) :
    p.handleMessage sort now msg =
      (((p.beforeUpdate now msg before).applyUpdate now u).applyUpdates now after).dispatch
        sort now msg := by
  simp [handleMessage, beforeUpdate, applyUpdates, h]

theorem beforeUpdate_changes (p : SwimProtocol) (now : Time) {msg : SwimMessage}
    {us : List MembershipUpdate} (hjoin : G ⟨.join, msg.sender, 0, announcedPort msg⟩)
    (hus : ∀ u ∈ us, G u) : Changes sort G p (p.beforeUpdate now msg us) :=
  (welcome_quiets p now hjoin).changes.trans (applyUpdates_changes _ now hus)

theorem handleMessage_does (hp : p.TargetsOther) {msg : SwimMessage}
    (hmsg : MessageGrounds G msg) : Does sort G p (p.handleMessage sort now msg) := by
  have hbefore : Changes sort G p (p.beforeUpdate now msg msg.updates) :=
    beforeUpdate_changes p now hmsg.join hmsg.update
  exact (dispatch_quiet (hbefore.targetsOther hp) msg).does.after hbefore

/-! ## Probes and the reaper -/

theorem report_quiets {id : NodeId} (h : id ≠ p.self) {type : UpdateType}
    {incarnation : UInt64} (hu : G ⟨type, id, incarnation, 0⟩) :
    Quiets sort G p (p.report now id type incarnation) := by
  have hupdate : Quiets sort G p _ := .single ⟨.updateState p _ now h hu, rfl⟩
  rw [report]
  rcases hres : p.members.updateState id type.newState incarnation now with ⟨members, changed⟩
  rw [hres] at hupdate
  cases changed with
  | false => exact hupdate
  | true => exact hupdate.tail ⟨.enqueue { p with members } _ h hu, rfl⟩

theorem markSuspect_quiets (hg : FailureGrounds G p) {target : NodeId} (h : target ≠ p.self) :
    Quiets sort G p (p.markSuspect now target) := by
  rw [markSuspect]
  split
  · exact .refl
  · rename_i info hinfo
    exact report_quiets h (hg.suspect target info hinfo)

theorem openSeq_quiets (hp : p.TargetsOther) : Quiets sort G p p.openSeq.2 :=
  .single ⟨.book p _ _ _ _ hp, rfl⟩

theorem closeSeq_quiets (hp : p.TargetsOther) (seq : UInt32) :
    Quiets sort G p (p.closeSeq seq).2 :=
  .single ⟨.book p _ _ _ _ hp, rfl⟩

theorem askNext_quiet {target : NodeId} (h : target ≠ p.self) (seq : UInt32)
    (intermediaries : List NodeId) :
    QuietDoes sort G p (p.askNext sort target seq intermediaries) := by
  cases intermediaries with
  | nil => exact Quiets.does .refl
  | cons relay rest =>
      refine (sendWithUpdates_quiet p .pingReq seq (some target) relay).tail
        ⟨.book _ _ _ _ _ ?_, rfl⟩
      rintro t ⟨⟩
      exact h

theorem directPing_quiet (hp : p.TargetsOther) {target : NodeId} (h : target ≠ p.self) :
    QuietDoes sort G p (p.directPing sort target) := by
  have hopen : Quiets sort G p p.openSeq.2 := openSeq_quiets hp
  have hsend := (sendWithUpdates_quiet p.openSeq.2 .ping p.seqCounter none target).after hopen
  refine hsend.tail ⟨.book _ _ _ _ _ ?_, rfl⟩
  rintro t ⟨⟩
  exact h

theorem waiting_quiets (p : SwimProtocol) : Quiets sort G p { p with probe := .waiting } :=
  .single ⟨.book p _ _ _ _ (fun _ h ↦ nomatch h), rfl⟩

/-- The end of a round of the probe loop. -/
theorem roundDone_quiets (hg : FailureGrounds G p) {target : NodeId} (h : target ≠ p.self) :
    Quiets sort G p { p.markSuspect now target with probe := .waiting } :=
  (markSuspect_quiets hg h).trans (waiting_quiets _)

theorem directDone_quiet (hp : p.TargetsOther) (hg : FailureGrounds G p) {target : NodeId}
    (h : target ≠ p.self) (seq : UInt32) (intermediaries : List NodeId) :
    QuietDoes sort G p (p.directDone sort now target seq intermediaries) := by
  refine QuietDoes.after ?_ (closeSeq_quiets hp seq)
  have hp' : (p.closeSeq seq).2.TargetsOther := hp
  have hg' : FailureGrounds G (p.closeSeq seq).2 := ⟨hg.suspect, hg.dead⟩
  have h' : target ≠ (p.closeSeq seq).2.self := h
  have h'' : target ≠ (p.closeSeq seq).2.openSeq.2.self := h
  simp only [directDone]
  split_ifs
  · exact (waiting_quiets _).does
  · exact (roundDone_quiets hg' h').does
  · exact (askNext_quiet h'' _ _).after (openSeq_quiets hp')

theorem indirectDone_quiets (hp : p.TargetsOther) (hg : FailureGrounds G p) {target : NodeId}
    (h : target ≠ p.self) (seq : UInt32) : Quiets sort G p (p.indirectDone now target seq) := by
  refine (closeSeq_quiets hp seq).trans ?_
  have hg' : FailureGrounds G (p.closeSeq seq).2 := ⟨hg.suspect, hg.dead⟩
  have h' : target ≠ (p.closeSeq seq).2.self := h
  simp only [indirectDone]
  split_ifs
  · exact waiting_quiets _
  · exact roundDone_quiets hg' h'

theorem reapEntry_quiets (p : SwimProtocol) (now : Time) {id : NodeId} {node : NodeInfo}
    (hu : G ⟨.dead, id, node.incarnation, 0⟩) : Quiets sort G p (p.reapEntry now id node) := by
  rw [reapEntry]
  split_ifs with hself
  · exact .refl
  · exact .refl
  · exact report_quiets hself hu
  · exact .refl

theorem suspicionReaper_quiets (hg : FailureGrounds G p) {order : List (Σ _ : NodeId, NodeInfo)}
    (horder : order.Perm p.members.nodes.entries) :
    Quiets sort G p (p.suspicionReaper now order) := by
  suffices h : ∀ (es : List (Σ _ : NodeId, NodeInfo)) (q : SwimProtocol),
      (∀ e ∈ es, e ∈ p.members.nodes.entries) →
      Quiets sort G q (es.foldl (fun q e ↦ q.reapEntry now e.1 e.2) q) from
    h _ p fun _ he ↦ horder.mem_iff.mp he
  intro es
  induction es with
  | nil => exact fun _ _ ↦ .refl
  | cons e es ih =>
      intro q hes
      have he : p.members.getNode e.1 = some e.2 :=
        AList.mem_lookup_iff.mpr (hes e List.mem_cons_self)
      have hrest := ih (q.reapEntry now e.1 e.2) fun x hx ↦ hes x (List.mem_cons_of_mem _ hx)
      exact (reapEntry_quiets q now (hg.dead e.1 e.2 he)).trans hrest

theorem relayDone_quiet (hp : p.TargetsOther) (r : Relay) :
    QuietDoes sort G p (p.relayDone r) := by
  refine book_quiet ⟨.book p _ _ _ _ hp, rfl⟩ fun packet hmem ↦ ?_
  rcases List.mem_ite_nil_right.mp hmem with ⟨-, hmem⟩
  obtain rfl := List.mem_singleton.mp hmem
  exact ⟨rfl, rfl⟩

/-! ## Steps -/

theorem ne_of_mem_alivePeers {m : MemberList} {self id : NodeId} (h : id ∈ m.alivePeers self) :
    id ≠ self := by
  obtain ⟨e, he, rfl⟩ := List.mem_map.mp h
  have hboth := (List.mem_filter.mp he).2
  simp only [Bool.and_eq_true, decide_eq_true_eq] at hboth
  exact hboth.1

/-- A node has grounds for what it says in a step. -/
structure Grounds (G : MembershipUpdate → Prop) (p : SwimProtocol) (a : Action) : Prop where
  failure : FailureGrounds G p
  message : ∀ msg now, a = .receive msg now → MessageGrounds G msg

/-- There are always grounds for saying something. -/
theorem Grounds.any (p : SwimProtocol) (a : Action) : Grounds (fun _ ↦ True) p a :=
  ⟨⟨fun _ _ _ ↦ trivial, fun _ _ _ ↦ trivial⟩, fun _ _ _ ↦ ⟨fun _ _ ↦ trivial, trivial⟩⟩

/-- A step that does not handle a message is quiet. -/
theorem step_quiet {a : Action} {r : SwimProtocol × List Packet} (hp : p.TargetsOther)
    (hg : FailureGrounds G p) (h : p.step sort a = some r) :
    (∃ msg now, a = .receive msg now ∧ r = p.handleMessage sort now msg) ∨
      (∀ msg now, a ≠ .receive msg now) ∧ QuietDoes sort G p r := by
  cases a with
  | probe target =>
      obtain ⟨⟨-, htarget⟩, hstep⟩ := Option.ite_none_right_eq_some.mp h
      obtain rfl := Option.some.inj hstep
      exact Or.inr ⟨nofun, directPing_quiet hp (ne_of_mem_alivePeers htarget)⟩
  | directDone intermediaries now =>
      rw [step] at h
      split at h
      · rename_i target seq hprobe
        have htarget : target ≠ p.self := hp target (by rw [hprobe]; rfl)
        obtain ⟨-, hstep⟩ := Option.ite_none_right_eq_some.mp h
        obtain rfl := Option.some.inj hstep
        exact Or.inr ⟨nofun, directDone_quiet hp hg htarget seq intermediaries⟩
      · cases h
  | askNext =>
      rw [step] at h
      split at h
      · rename_i target seq relay rest hprobe
        have htarget : target ≠ p.self := hp target (by rw [hprobe]; rfl)
        obtain rfl := Option.some.inj h
        exact Or.inr ⟨nofun, askNext_quiet htarget seq (relay :: rest)⟩
      · cases h
  | indirectDone now =>
      rw [step] at h
      split at h
      · rename_i target seq hprobe
        have htarget : target ≠ p.self := hp target (by rw [hprobe]; rfl)
        obtain rfl := Option.some.inj h
        exact Or.inr ⟨nofun, (indirectDone_quiets hp hg htarget seq).does⟩
      · cases h
  | relayDone r =>
      obtain ⟨-, hstep⟩ := Option.ite_none_right_eq_some.mp h
      obtain rfl := Option.some.inj hstep
      exact Or.inr ⟨nofun, relayDone_quiet hp r⟩
  | receive msg now =>
      obtain rfl := Option.some.inj h
      exact Or.inl ⟨msg, now, rfl, rfl⟩
  | reap now order =>
      obtain ⟨horder, hstep⟩ := Option.ite_none_right_eq_some.mp h
      obtain rfl := Option.some.inj hstep
      exact Or.inr ⟨nofun, (suspicionReaper_quiets hg horder).does⟩

/-- A step is made of changes. -/
theorem step_does {a : Action} {r : SwimProtocol × List Packet} (hp : p.TargetsOther)
    (hg : Grounds G p a) (h : p.step sort a = some r) : Does sort G p r := by
  rcases step_quiet hp hg.failure h with ⟨msg, now, rfl, rfl⟩ | ⟨-, hquiet⟩
  · exact handleMessage_does hp (hg.message msg now rfl)
  · exact hquiet.does

/-- **The invariant rule for nodes.**  What holds of a node at its start and is
kept by every change holds in every run. -/
theorem run_invariant {I : SwimProtocol → Prop} {tr : List Packet}
    (hrun : (machine sort).Run p tr)
    (hstart : ∀ config self seed now, I (start config self seed now))
    (hchange : ∀ p p', Change sort (fun _ ↦ True) p p' → I p → I p') : I p ∧ p.TargetsOther := by
  refine hrun.invariant (I := fun p _ ↦ I p ∧ p.TargetsOther) ?_ ?_
  · rintro _ ⟨config, self, seed, now, rfl⟩
    exact ⟨hstart config self seed now, fun _ h ↦ nomatch h⟩
  · intro p tr a p' sent _ hp hstep
    have hchanges := (step_does hp.2 (.any p a) hstep).changes
    exact ⟨hchanges.invariant hchange hp.1, hchanges.targetsOther hp.2⟩

theorem targetsOther_of_run {tr : List Packet} (hrun : (machine sort).Run p tr) :
    p.TargetsOther :=
  (run_invariant (I := fun _ ↦ True) hrun (fun _ _ _ _ ↦ trivial) fun _ _ _ _ ↦ trivial).2

end SwimProtocol

end Pensieve
