import Pensieve.Membership.Cluster

/-!
# How nodes learn each other's data ports

A node announces its data port in the updates it sends about itself.  A peer takes
the port over when it takes the update over, and that it does only for a higher
rank than the recorded one: an announcement at the recorded incarnation is not
looked at.

This matters because an entry may come into being without a port.  A node that gets
a message from a sender it does not know makes it a member with the port that the
message announces, or port 0 if it announces none; and a ping that is relayed
announces none.  From then on the sender's announcement comes too late
(`announcement_too_late`), until the sender has a reason to raise its incarnation.

What holds is this (`learns_port_iff`).  A node has the port after an announcement
if and only if the incarnation is above the recorded one or the port was recorded
before; and in a cluster of such nodes it has the port ever after.
-/

namespace Pensieve

open Foundation

namespace SwimProtocol

variable {sort : SortByCount} {G : MembershipUpdate → Prop} {p p' : SwimProtocol}

/-- The node has recorded `x` with the data port `port`. -/
def Knows (p : SwimProtocol) (x : NodeId) (port : UInt16) : Prop :=
  ∃ e, p.members.getNode x = some e ∧ e.dataPort = port

/-- A port announced for the sender is the port of an update about it. -/
theorem announcedPort_cases (msg : SwimMessage) :
    announcedPort msg = 0 ∨ ∃ u ∈ msg.updates, u.node = msg.sender ∧ u.dataPort ≠ 0 ∧
      u.dataPort = announcedPort msg := by
  rw [announcedPort]
  split
  · rename_i u hu
    have hcond := List.find?_some hu
    simp only [Bool.and_eq_true, decide_eq_true_eq, bne_iff_ne] at hcond
    exact Or.inr ⟨u, List.mem_of_find?_eq_some hu, hcond.1, hcond.2, rfl⟩
  · exact Or.inl rfl

/-- A join or alive update beats an entry by its incarnation only. -/
theorem rank_lt_infoOf_iff {e : NodeInfo} {u : MembershipUpdate} {now : Time} :
    e.rank < (infoOf u now).rank ↔ e.incarnation < u.incarnation := by
  have hsup : stateSupersedes .alive e.state = false := by cases e.state <;> rfl
  refine NodeInfo.rank_lt_iff.trans ?_
  simp [infoOf, hsup]

/-- What an announcement does to the entry of another node. -/
theorem getNode_applyUpdate {u : MembershipUpdate} (htype : u.type = .join ∨ u.type = .alive)
    (hother : u.node ≠ p.self) {e : NodeInfo} (he : p.members.getNode u.node = some e)
    (now : Time) :
    (p.applyUpdate now u).members.getNode u.node =
      some (if e.incarnation < u.incarnation then infoOf u now else e) := by
  have happly : p.applyUpdate now u =
      { p with members := (p.members.addNode (infoOf u now)).1 } := by
    rw [applyUpdate, if_neg hother, if_pos (by simpa using htype)]
    rfl
  rw [happly]
  refine (MemberList.getNode_addNode p.members (infoOf u now)).trans ?_
  have he' : p.members.getNode (infoOf u now).id = some e := he
  simp only [he', rank_lt_infoOf_iff]

/-- A state update keeps the port. -/
theorem knows_updateState {x id : NodeId} {e : NodeInfo} (he : p.members.getNode x = some e)
    (state : NodeState) (incarnation : UInt64) (now : Time) :
    ∃ e', (p.members.updateState id state incarnation now).1.getNode x = some e' ∧
      e'.dataPort = e.dataPort := by
  by_cases hx : x = id
  · subst hx
    rw [MemberList.getNode_updateState, he, Option.map_some]
    refine ⟨_, rfl, ?_⟩
    split_ifs <;> rfl
  · exact ⟨e, (MemberList.getNode_updateState_of_ne hx).trans he, rfl⟩

end SwimProtocol

namespace Cluster

open SwimProtocol

/-! ## What is said about ports -/

/-- The data port of a node of the cluster. -/
def port (c : Cluster) (id : NodeId) : Option UInt16 :=
  (c.node id).map fun p ↦ p.config.selfDataPort

/-- The update has the right port, or it has none and does not take the place of
one that has. -/
def Genuine (c : Cluster) (u : MembershipUpdate) : Prop :=
  c.port u.node = some u.dataPort ∨
    (u.dataPort = 0 ∧ u.type ≠ .alive ∧ (u.type = .join → u.incarnation = 0))

variable {sort : SortByCount} {c c' : Cluster} {p p' : SwimProtocol} {tr : List Event}

theorem Genuine.mono {u : MembershipUpdate} (h : c.Genuine u)
    (hport : ∀ id n, c.port id = some n → c'.port id = some n) : c'.Genuine u :=
  h.imp_left (hport _ _)

theorem Genuine.port_eq {u : MembershipUpdate} (h : c.Genuine u) (hport : u.dataPort ≠ 0) :
    c.port u.node = some u.dataPort :=
  h.resolve_right fun h ↦ hport h.1

/-- A node of the cluster queues what is genuine. -/
structure NodeInv (c : Cluster) (id : NodeId) (p : SwimProtocol) : Prop where
  self : p.self = id
  port : c.port id = some p.config.selfDataPort
  targets : p.TargetsOther
  queued : ∀ e ∈ p.disseminator.queue, c.Genuine e.update

theorem NodeInv.change {id : NodeId} (hp : c.NodeInv id p)
    (h : Change sort c.Genuine p p') : c.NodeInv id p' where
  self := h.self_eq.trans hp.self
  port := by rw [h.config_eq]; exact hp.port
  targets := h.targetsOther hp.targets
  queued e he := by
    cases h with
    | addNode => exact hp.queued e he
    | updateState => exact hp.queued e he
    | enqueue u _ hu =>
        rcases Disseminator.mem_enqueueIn he with rfl | he
        · exact hu
        · exact hp.queued e he
    | getUpdates =>
        obtain ⟨e', he', hupd⟩ := Disseminator.update_mem_of_getUpdates he
        rw [← hupd]
        exact hp.queued e' he'
    | refute =>
        rcases Disseminator.mem_enqueueIn he with rfl | he
        · refine Or.inl ?_
          rw [hp.self]
          exact hp.port
        · exact hp.queued e he
    | book => exact hp.queued e he

theorem NodeInv.changes {id : NodeId} (hp : c.NodeInv id p)
    (h : Changes sort c.Genuine p p') : c.NodeInv id p' :=
  h.invariant (fun _ _ hchange hq ↦ hq.change hchange) hp

/-- Everything said in the cluster is genuine. -/
structure PortInv (c : Cluster) : Prop where
  node : ∀ id p, c.node id = some p → c.NodeInv id p
  sent : ∀ packet ∈ c.sent, ∀ u ∈ packet.msg.updates, c.Genuine u

/-- The announcement that a sender has joined is genuine if the message is. -/
theorem messageGrounds_of_genuine {msg : SwimMessage} (h : ∀ u ∈ msg.updates, c.Genuine u) :
    MessageGrounds c.Genuine msg := by
  refine ⟨h, ?_⟩
  rcases announcedPort_cases msg with hzero | ⟨u, hu, hnode, hne, heq⟩
  · exact Or.inr ⟨hzero, nofun, fun _ ↦ rfl⟩
  · rw [← heq, ← hnode]
    exact Or.inl ((h u hu).port_eq hne)

/-- Reports of failures carry no port. -/
theorem grounds_of_genuine {a : SwimProtocol.Action}
    (h : ∀ msg now, a = .receive msg now → ∀ u ∈ msg.updates, c.Genuine u) :
    Grounds c.Genuine p a where
  failure := ⟨fun _ _ _ ↦ Or.inr ⟨rfl, nofun, nofun⟩, fun _ _ _ ↦ Or.inr ⟨rfl, nofun, nofun⟩⟩
  message msg now ha := messageGrounds_of_genuine (h msg now ha)

/-- Ports stay what they are when a node goes on. -/
theorem port_advance {id : NodeId} (sent : List Packet)
    (h : c.port id = none ∨ c.port id = some p.config.selfDataPort) (id' : NodeId) (n : UInt16)
    (hn : c.port id' = some n) : (c.advance id p sent).port id' = some n := by
  by_cases hid : id' = id
  · subst hid
    rw [port, advance_node_self]
    rcases h with h | h
    · rw [h] at hn
      cases hn
    · exact h.symm.trans hn
  · rw [port, advance_node_of_ne hid]
    exact hn

/-- A node goes on to a state that keeps its part of the invariant. -/
theorem PortInv.advance {id : NodeId} {sent : List Packet} (hc : c.PortInv)
    (hport : c.port id = none ∨ c.port id = some p.config.selfDataPort)
    (hnode : (c.advance id p sent).NodeInv id p)
    (hsent : ∀ packet ∈ sent, ∀ u ∈ packet.msg.updates, c.Genuine u) :
    (c.advance id p sent).PortInv := by
  have hmono := port_advance sent hport
  constructor
  · refine forall_advance (fun id' p' hp' ↦ ?_) hnode
    have hinv := hc.node id' p' hp'
    exact ⟨hinv.self, hmono _ _ hinv.port, hinv.targets, fun e he ↦ (hinv.queued e he).mono hmono⟩
  · intro packet hmem u hu
    rcases List.mem_append.mp hmem with hmem | hmem
    · exact (hc.sent packet hmem u hu).mono hmono
    · exact (hsent packet hmem u hu).mono hmono

theorem PortInv.step {a : Action} {ev : List Event} (hc : c.PortInv)
    (h : c.step sort a = some (c', ev)) : c'.PortInv := by
  rcases step_cases h with ⟨id, config, seed, now, hnone, -, rfl⟩ |
    ⟨id, p, b, r, hp, hr, harrives, -, rfl⟩
  · have hport : c.port id = none := by rw [port, hnone, Option.map_none]
    refine hc.advance (Or.inl hport) ?_ fun _ hmem ↦ nomatch hmem
    have hself : (c.advance id (start config id seed now) []).port id =
        some config.selfDataPort := by
      rw [port, advance_node_self]
      rfl
    refine ⟨rfl, hself, (fun _ h ↦ nomatch h), fun e he ↦ ?_⟩
    obtain rfl := List.mem_singleton.mp he
    exact Or.inl hself
  · have hinv := hc.node id p hp
    have hdoes := step_does hinv.targets
      (grounds_of_genuine fun msg now ha ↦ hc.sent _ (harrives msg now ha)) hr
    have hinv' := hinv.changes hdoes.changes
    refine hc.advance (Or.inr hinv'.port) ?_ ?_
    · have hmono := port_advance r.2 (Or.inr hinv'.port)
      exact ⟨hinv'.self, hmono _ _ hinv'.port, hinv'.targets,
        fun e he ↦ (hinv'.queued e he).mono hmono⟩
    · intro packet hmem u hu
      obtain ⟨-, q, hq, hcarries⟩ := hdoes.sent packet hmem
      obtain ⟨e, he, rfl⟩ := hcarries u hu
      exact (hinv.changes hq).queued e he

theorem run_portInv (hrun : (machine sort).Run c tr) : c.PortInv := by
  refine hrun.invariant (I := fun c _ ↦ c.PortInv) ?_ fun _ _ _ _ _ _ hc hstep ↦ hc.step hstep
  rintro _ rfl
  exact ⟨(fun _ _ h ↦ nomatch h), (fun _ h ↦ nomatch h)⟩

/-! ## What is known stays known -/

theorem knows_change {x : NodeId} {n : UInt16} (hk : p.Knows x n) (hport : c.port x = some n)
    (h : Change sort c.Genuine p p') : p'.Knows x n := by
  obtain ⟨e, he, rfl⟩ := hk
  cases h with
  | addNode u now _ hu htype =>
      by_cases hx : x = u.node
      · subst hx
        have hnew := MemberList.getNode_addNode p.members (infoOf u now)
        have he' : p.members.getNode (infoOf u now).id = some e := he
        simp only [he', rank_lt_infoOf_iff] at hnew
        refine ⟨_, hnew, ?_⟩
        split_ifs with hlt
        · -- An update that wins has an incarnation above 0, so it has the port.
          rcases hu with hu | ⟨-, halive, hjoin⟩
          · exact Option.some.inj (hu.symm.trans hport)
          · rw [hjoin (htype.resolve_right halive)] at hlt
            exact absurd hlt UInt64.not_lt_zero
        · rfl
      · exact ⟨e, (MemberList.getNode_addNode_of_ne hx).trans he, rfl⟩
  | updateState u now =>
      exact knows_updateState he ..
  | enqueue => exact ⟨e, he, rfl⟩
  | getUpdates => exact ⟨e, he, rfl⟩
  | refute now => exact knows_updateState he ..
  | book => exact ⟨e, he, rfl⟩

theorem knows_changes {x : NodeId} {n : UInt16} (hk : p.Knows x n)
    (hport : c.port x = some n) (h : Changes sort c.Genuine p p') : p'.Knows x n :=
  h.invariant (I := fun q ↦ q.Knows x n) (fun _ _ hchange hq ↦ knows_change hq hport hchange) hk

/-- The node `y` has learned from a message that the data port of `x` is `n`. -/
def Learned (tr : List Event) (y x : NodeId) (n : UInt16) : Prop :=
  ∃ p msg now p' before u after,
    Event.stepped y p (.receive msg now) p' ∈ tr ∧ msg.updates = before ++ u :: after ∧
      u.node = x ∧ u.dataPort = n ∧
      ((p.beforeUpdate now msg before).applyUpdate now u).Knows x n

/-- What a node has learned it knows. -/
structure Recalls (c : Cluster) (tr : List Event) : Prop where
  inv : c.PortInv
  learned : ∀ y x n, n ≠ 0 → Learned tr y x n →
    c.port x = some n ∧ ∃ p, c.node y = some p ∧ p.Knows x n

/-- What a message teaches a node it knows when it is done with the message. -/
theorem knows_handleMessage {y x : NodeId} {n : UInt16} {msg : SwimMessage} {now : Time}
    {before after : List MembershipUpdate} {u : MembershipUpdate} (hp : c.NodeInv y p)
    (hgenuine : ∀ u ∈ msg.updates, c.Genuine u) (hmsg : msg.updates = before ++ u :: after)
    (hport : c.port x = some n)
    (hk : ((p.beforeUpdate now msg before).applyUpdate now u).Knows x n) :
    (p.handleMessage sort now msg).1.Knows x n := by
  have hgrounds := messageGrounds_of_genuine hgenuine
  have hu : ∀ v ∈ before ++ u :: after, c.Genuine v := by
    rw [← hmsg]
    exact hgenuine
  have hbefore : Changes sort c.Genuine p ((p.beforeUpdate now msg before).applyUpdate now u) :=
    (beforeUpdate_changes p now hgrounds.join fun v hv ↦ hu v (List.mem_append_left _ hv)).trans
      (applyUpdate_changes _ now (hu u (List.mem_append_right _ List.mem_cons_self)))
  have hafter : Changes sort c.Genuine ((p.beforeUpdate now msg before).applyUpdate now u)
      (((p.beforeUpdate now msg before).applyUpdate now u).applyUpdates now after) :=
    applyUpdates_changes _ now fun v hv ↦
      hu v (List.mem_append_right _ (List.mem_cons_of_mem _ hv))
  have htargets := hafter.targetsOther (hbefore.targetsOther hp.targets)
  rw [handleMessage_eq hmsg]
  exact knows_changes hk hport (hafter.trans (dispatch_quiet htargets msg).quiets.changes)

theorem Recalls.step {a : Action} {ev : List Event} (hc : c.Recalls tr)
    (h : c.step sort a = some (c', ev)) : c'.Recalls (tr ++ ev) := by
  refine ⟨hc.inv.step h, ?_⟩
  rintro y x n hn ⟨p₀, msg, now, p₀', before, u, after, hmem, hmsg, hx, hun, hk⟩
  rcases step_cases h with ⟨id, config, seed, now', hnone, rfl, rfl⟩ |
    ⟨id, p, b, r, hp, hr, harrives, rfl, rfl⟩
  · -- A node that starts has not learned anything yet.
    have hold : Learned tr y x n := by
      refine ⟨p₀, msg, now, p₀', before, u, after, ?_, hmsg, hx, hun, hk⟩
      simpa using hmem
    obtain ⟨hport, p, hp, hk⟩ := hc.learned y x n hn hold
    have hne : y ≠ id := by
      rintro rfl
      rw [hnone] at hp
      cases hp
    have hstart : c.port id = none := by rw [port, hnone, Option.map_none]
    exact ⟨port_advance [] (Or.inl hstart) x n hport, p, (advance_node_of_ne hne).trans hp, hk⟩
  · have hinv := hc.inv.node id p hp
    have hgenuine : ∀ msg now, b = .receive msg now → ∀ u ∈ msg.updates, c.Genuine u :=
      fun msg now hb ↦ hc.inv.sent _ (harrives msg now hb)
    have hdoes := step_does hinv.targets (grounds_of_genuine hgenuine) hr
    have hinv' := hinv.changes hdoes.changes
    have hmono := port_advance r.2 (Or.inr hinv'.port)
    rcases List.mem_append.mp hmem with hmem | hmem
    · obtain ⟨hport, q, hq, hk⟩ :=
        hc.learned y x n hn ⟨p₀, msg, now, p₀', before, u, after, hmem, hmsg, hx, hun, hk⟩
      refine ⟨hmono x n hport, ?_⟩
      by_cases hy : y = id
      · subst hy
        obtain rfl := Option.some.inj (hp.symm.trans hq)
        exact ⟨r.1, advance_node_self .., knows_changes hk hport hdoes.changes⟩
      · exact ⟨q, (advance_node_of_ne hy).trans hq, hk⟩
    · -- The step itself is the one that taught the node.
      cases List.mem_singleton.mp hmem
      have hgen := hgenuine msg now rfl
      have hport : c.port x = some n := by
        have hu : c.Genuine u := hgen u (by simp [hmsg])
        rw [← hx, ← hun]
        exact hu.port_eq (by rwa [hun])
      obtain rfl := Option.some.inj hr
      exact ⟨hmono x n hport, _, advance_node_self ..,
        knows_handleMessage hinv hgen hmsg hport hk⟩

theorem run_recalls (hrun : (machine sort).Run c tr) : c.Recalls tr := by
  refine hrun.invariant (I := fun c tr ↦ c.Recalls tr) ?_ fun _ _ _ _ _ _ hc hstep ↦ hc.step hstep
  intro c hinit
  have hstart : (machine sort).Run c [] := .init hinit
  refine ⟨run_portInv hstart, ?_⟩
  rintro y x n _ ⟨_, _, _, _, _, _, _, hmem, _⟩
  cases hmem

/-- **When an announcement gets through.**  In every run of a cluster, wherever a
node has processed a join or alive update about another node that it knew, with a
data port `n`: it had the port afterwards if and only if the incarnation was above
the recorded one or the port was already recorded.  And in that case `n` is the
data port of the other node, and the node knows it at the end of the run. -/
theorem learns_port_iff (sort : SortByCount) (c : Cluster) (tr : List Event)
    (hrun : (machine sort).Run c tr) (y : NodeId) (p p' : SwimProtocol) (msg : SwimMessage)
    (now : Time) (hstep : Event.stepped y p (.receive msg now) p' ∈ tr)
    (before after : List MembershipUpdate) (u : MembershipUpdate)
    (hmsg : msg.updates = before ++ u :: after) (htype : u.type = .join ∨ u.type = .alive)
    (hother : u.node ≠ p.self) (hport : u.dataPort ≠ 0) (e : NodeInfo)
    (he : (p.beforeUpdate now msg before).members.getNode u.node = some e) :
    (((p.beforeUpdate now msg before).applyUpdate now u).Knows u.node u.dataPort ↔
      e.incarnation < u.incarnation ∨ e.dataPort = u.dataPort) ∧
    (((p.beforeUpdate now msg before).applyUpdate now u).Knows u.node u.dataPort →
      c.port u.node = some u.dataPort ∧
        ∃ q, c.node y = some q ∧ q.Knows u.node u.dataPort) := by
  have hself : (p.beforeUpdate now msg before).self = p.self := by
    have hchanges : Changes sort (fun _ ↦ True) p (p.beforeUpdate now msg before) :=
      beforeUpdate_changes p now trivial fun _ _ ↦ trivial
    exact hchanges.self_eq
  have hentry := getNode_applyUpdate htype (hself ▸ hother) he now
  constructor
  · rw [Knows, hentry]
    simp only [Option.some.injEq, exists_eq_left']
    split_ifs with hlt
    · simp [hlt, infoOf]
    · simp [hlt]
  · intro hk
    exact (run_recalls hrun).learned y u.node u.dataPort hport
      ⟨p, msg, now, p', before, u, after, hstep, hmsg, rfl, rfl, hk⟩

/-- A node hears the announcement of its seed, whose port it was given, in the
answer to its first ping. -/
theorem learns_port_iff_seed :
    ∃ c tr q, (machine .stable).Run c tr ∧ c.node ⟨[122], 7946⟩ = some q ∧
      q.Knows ⟨[120], 7946⟩ 11211 := by
  let x : NodeId := ⟨[120], 7946⟩
  let z : NodeId := ⟨[122], 7946⟩
  let config : SwimConfig := ⟨5000, 3, 8, 11211⟩
  let joins : List MembershipUpdate := [⟨.join, x, 0, 11211⟩, ⟨.join, z, 0, 11211⟩]
  let ack : SwimMessage := ⟨.ack, 0, x, none, joins⟩
  let actions : List Action :=
    [.boot x config none 0, .boot z config (some (x, 11211)) 0, .step z (.probe x),
      .step x (.receive ⟨.ping, 0, z, none, [⟨.join, z, 0, 11211⟩]⟩ 1)]
  have hsome : (((machine .stable).exec empty actions).bind fun r ↦ (r.1.node z).map fun p ↦
      (p.self, (p.beforeUpdate 2 ack []).members.getNode x, r.1.arrives z (.receive ack 2))) =
      some (z, some ⟨x, 11211, .alive, 0, 0⟩, true) := by
    decide +kernel
  obtain ⟨⟨c, tr⟩, hexec, hc⟩ := Option.bind_eq_some_iff.mp hsome
  obtain ⟨p, hp, hres⟩ := Option.map_eq_some_iff.mp hc
  simp only [Prod.mk.injEq] at hres
  obtain ⟨hself, hentry, harrives⟩ := hres
  have hnode : c.node z = some p := hp
  have hrun := (Machine.Run.init rfl).exec hexec
  have hstep : (machine .stable).step c (.step z (.receive ack 2)) =
      some (c.advance z (p.handleMessage .stable 2 ack).1 (p.handleMessage .stable 2 ack).2,
        [.stepped z p (.receive ack 2) (p.handleMessage .stable 2 ack).1]) := by
    simp only [machine, step, hnode, harrives, if_true]
    rfl
  have hlearns := learns_port_iff .stable _ _ (hrun.step hstep) z p _ ack 2
    (List.mem_append_right _ List.mem_cons_self) [] [⟨.join, z, 0, 11211⟩]
    ⟨.join, x, 0, 11211⟩ rfl (Or.inl rfl) (by rw [hself]; decide) (by decide) _ hentry
  obtain ⟨-, q, hq, hknows⟩ := hlearns.2 (hlearns.1.mpr (Or.inr rfl))
  exact ⟨_, _, q, hrun.step hstep, hq, hknows⟩

/-- `x` is the seed of `z`, which is the seed of `y`.  A ping from `z` to `y` is
lost, so `z` asks `x` to ping `y`; and `y`, which has not heard of `x` before, makes
it a member without a port.  Then `x` itself pings `y` and announces its port, and
`y` does not take it over. -/
theorem announcement_too_late :
    let x : NodeId := ⟨[120], 7946⟩
    let y : NodeId := ⟨[121], 7946⟩
    let u : MembershipUpdate := ⟨.join, x, 0, 11211⟩
    ∃ c tr p msg after e, (machine .stable).Run c tr ∧ c.node y = some p ∧
      ⟨y, msg⟩ ∈ c.sent ∧ msg.updates = [] ++ u :: after ∧ c.port x = some u.dataPort ∧
      (p.beforeUpdate 5 msg []).members.getNode x = some e ∧ e.state = .alive ∧
      e.incarnation ≤ u.incarnation ∧
      ¬ ((p.beforeUpdate 5 msg []).applyUpdate 5 u).Knows x u.dataPort ∧
      (p.handleMessage .stable 5 msg).1.Knows x 0 := by
  intro x y u
  let z : NodeId := ⟨[122], 7946⟩
  let config : SwimConfig := ⟨5000, 3, 8, 11211⟩
  let joins : List MembershipUpdate := [⟨.join, z, 0, 11211⟩, ⟨.join, y, 0, 11211⟩]
  let ping : SwimMessage := ⟨.ping, 1, x, none, [u, ⟨.join, z, 0, 11211⟩]⟩
  let actions : List Action :=
    [.boot x config none 0, .boot z config (some (x, 11211)) 0,
      .boot y config (some (z, 11211)) 0, .step y (.probe z),
      .step z (.receive ⟨.ping, 0, y, none, [⟨.join, y, 0, 11211⟩]⟩ 1), .step z (.probe y),
      .step z (.directDone [y, x] 2), .step z .askNext,
      .step x (.receive ⟨.pingReq, 1, z, some y, joins⟩ 3),
      .step y (.receive ⟨.ping, 0, x, none, []⟩ 4), .step x (.probe y)]
  have hsome : (((machine .stable).exec empty actions).bind fun r ↦ (r.1.node y).map fun p ↦
      (r.1.arrives y (.receive ping 5), r.1.port x, (p.beforeUpdate 5 ping []).members.getNode x,
        ((p.beforeUpdate 5 ping []).applyUpdate 5 u).members.getNode x,
        (p.handleMessage .stable 5 ping).1.members.getNode x)) =
      some (true, some 11211, some ⟨x, 0, .alive, 0, 4⟩, some ⟨x, 0, .alive, 0, 4⟩,
        some ⟨x, 0, .alive, 0, 4⟩) := by
    decide +kernel
  obtain ⟨⟨c, tr⟩, hexec, hc⟩ := Option.bind_eq_some_iff.mp hsome
  obtain ⟨p, hp, hres⟩ := Option.map_eq_some_iff.mp hc
  simp only [Prod.mk.injEq] at hres
  obtain ⟨harrives, hport, hbefore, happlied, hhandled⟩ := hres
  refine ⟨c, _, p, ping, _, _, (Machine.Run.init rfl).exec hexec, hp, of_decide_eq_true harrives,
    rfl, hport, hbefore, rfl, le_refl _, ?_, ⟨_, hhandled, rfl⟩⟩
  rintro ⟨e, he, hne⟩
  cases happlied.symm.trans he
  exact absurd hne (by decide)

end Cluster

end Pensieve
