import Pensieve.Membership.Incarnation
import Pensieve.Wiring

/-!
# A node keeps itself

The code treats the node itself as a special case in five places: a sender is not welcomed
if it is the node, rumours about the node are answered and not believed, and neither the
reaper nor the choice of a peer nor the handling of an acknowledgement touches the node's
own entry.  So the entry is written by `main` and by the answers to rumours only.

Entry and counter move together (`Present`): the entry is alive, at the incarnation that the
node would announce.  The node's tokens stay on its ring, except for those that another node
lays claim to.
-/

namespace Pensieve

open Foundation

namespace MemberList

variable {m : MemberList} {self id : NodeId} {info : NodeInfo}

theorem changes_record (m : MemberList) (id : NodeId) (info : NodeInfo) :
    (m.record id info).changes = m.changes ++ [(id, info)] := by
  have hlookup : (m.nodes.insert id info).lookup id = some info := AList.lookup_insert _
  simp [record, notify, hlookup]

/-- The tokens of the node that no other node has are on the ring. -/
def OnRing (self : NodeId) (m : MemberList) : Prop :=
  ∀ token ∈ RingStore.tokensOf self RingStore.kDefaultVnodes,
    (∀ x ∈ m.changes, x.1 ≠ self →
      token ∉ RingStore.tokensOf x.1 RingStore.kDefaultVnodes) →
    (token, self) ∈ m.ring.entries

theorem onRing_record_self (m : MemberList) (halive : info.state = .alive) :
    (m.record self info).OnRing self := by
  intro token htoken _
  rw [ring_record, onChange, if_pos halive]
  exact RingStore.mem_addTokens.mpr (Or.inl ⟨htoken, rfl⟩)

/-- A report keeps the tokens on the ring, unless it is of the node's own end. -/
theorem OnRing.record (h : m.OnRing self) (hinfo : id = self → info.state = .alive) :
    (m.record id info).OnRing self := by
  by_cases hid : id = self
  · rw [hid]
    exact onRing_record_self m (hinfo hid)
  · intro token htoken hother
    rw [changes_record, List.forall_mem_append, List.forall_mem_singleton] at hother
    have hmem := h token htoken hother.1
    rw [ring_record, onChange]
    split_ifs
    · exact RingStore.mem_addTokens.mpr (Or.inr ⟨hother.2 hid, hmem⟩)
    · exact RingStore.mem_removeNode.mpr ⟨hmem, Ne.symm hid⟩
    · exact hmem

theorem OnRing.addNode (h : m.OnRing self) (halive : info.state = .alive) :
    (m.addNode info).1.OnRing self := by
  by_cases hlt : ∀ e, m.getNode info.id = some e → e.rank < info.rank
  · rw [addNode_of_lt hlt]
    exact h.record fun _ ↦ halive
  · push Not at hlt
    obtain ⟨e, he, hge⟩ := hlt
    rw [addNode_of_not_lt he (not_lt.mpr hge)]
    exact h

theorem OnRing.updateState {newState : NodeState} (h : m.OnRing self)
    (hstate : id = self → newState = .alive) (incarnation : UInt64) (now : Time) :
    (m.updateState id newState incarnation now).1.OnRing self := by
  by_cases hlt : ∀ e, m.getNode id = some e → ¬ e.rank < toLex (incarnation, newState)
  · rw [updateState_of_not_lt hlt]
    exact h
  · push Not at hlt
    obtain ⟨e, he, hlt⟩ := hlt
    rw [updateState_of_lt he hlt]
    exact h.record hstate

end MemberList

namespace SwimProtocol

variable {sort : SortByCount} {G : MembershipUpdate → Prop} {p p' : SwimProtocol}

/-- The node's own entry is alive and at its incarnation, with its own data port, and its
tokens are on the ring. -/
structure Present (p : SwimProtocol) : Prop where
  entry : ∃ e, p.members.getNode p.self = some e ∧ e.state = .alive ∧
    e.incarnation = p.incarnation ∧ e.dataPort = p.config.selfDataPort
  onRing : p.members.OnRing p.self

theorem present_start (config : SwimConfig) (self : NodeId) (seed : Option (NodeId × UInt16))
    (now : Time) : (start config self seed now).Present := by
  refine ⟨⟨_, getNode_start_self config self seed now, rfl, rfl, rfl⟩, ?_⟩
  have hself : (MemberList.empty.addNode ⟨self, config.selfDataPort, .alive, 0, now⟩).1.OnRing
      self :=
    MemberList.onRing_record_self MemberList.empty rfl
  rcases seed with - | ⟨id, port⟩
  · exact hself
  · exact hself.addNode rfl

/-- The answer to a rumour, if the counter does not go round. -/
theorem Present.refute (h : p.Present) (hlt : p.incarnation.toNat + 1 < 2 ^ 64) (now : Time) :
    (p.refute now).Present ∧ (p.refute now).incarnation.toNat = p.incarnation.toNat + 1 := by
  obtain ⟨e, he, halive, hinc, hport⟩ := h.entry
  have hnext : (p.incarnation + 1).toNat = p.incarnation.toNat + 1 := by
    rw [UInt64.toNat_add]
    exact Nat.mod_eq_of_lt hlt
  have hrank : e.rank < toLex (p.incarnation + 1, NodeState.alive) := by
    refine NodeInfo.rank_lt_iff.mpr (Or.inl (UInt64.lt_iff_toNat_lt.mpr ?_))
    rw [hinc, hnext]
    exact Nat.lt_succ_self _
  refine ⟨⟨⟨{ e with state := .alive, incarnation := p.incarnation + 1, lastStateChange := now },
    ?_, rfl, rfl, hport⟩, h.onRing.updateState (fun _ ↦ rfl) _ _⟩, hnext⟩
  refine (MemberList.getNode_updateState ..).trans ?_
  rw [he, Option.map_some, if_pos hrank]

theorem Quiet.present (hc : Quiet sort G p p') (h : p.Present) : p'.Present := by
  obtain ⟨hc, hinc⟩ := hc
  obtain ⟨e, he, hrest⟩ := h.entry
  cases hc with
  | addNode u now hid =>
      exact ⟨⟨e, (MemberList.getNode_addNode_of_ne (Ne.symm hid)).trans he, hrest⟩,
        h.onRing.addNode rfl⟩
  | updateState u now hid =>
      exact ⟨⟨e, (MemberList.getNode_updateState_of_ne (Ne.symm hid)).trans he, hrest⟩,
        h.onRing.updateState (fun heq ↦ absurd heq hid) _ _⟩
  | refute now => exact absurd hinc (by simp [SwimProtocol.refute])
  | enqueue => exact ⟨h.entry, h.onRing⟩
  | getUpdates => exact ⟨h.entry, h.onRing⟩
  | book => exact ⟨h.entry, h.onRing⟩

theorem Quiets.present (hc : Quiets sort G p p') (h : p.Present) : p'.Present := by
  induction hc with
  | refl => exact h
  | tail _ hc ih => exact hc.present ih

/-- An update that is no rumour about the node leads to no answer. -/
theorem applyUpdate_quiets (now : Time) {u : MembershipUpdate}
    (hnot : ¬ (u.node = p.self ∧ (u.type = .suspect ∨ u.type = .dead))) :
    Quiets sort (fun _ ↦ True) p (p.applyUpdate now u) := by
  rw [applyUpdate]
  split_ifs with hself hrumour htype
  · exact absurd ⟨hself, by simpa using hrumour⟩ hnot
  · exact .refl
  · exact .single ⟨.addNode p u now hself trivial (by simpa using htype), rfl⟩
  · exact .single ⟨.updateState p u now hself trivial, rfl⟩

/-- What `apply_updates` does to the node itself: it counts the rumours. -/
theorem Present.applyUpdates (now : Time) (us : List MembershipUpdate) (h : p.Present)
    (hfew : p.incarnation.toNat + rumours p.self us < 2 ^ 64) :
    (p.applyUpdates now us).Present ∧
      (p.applyUpdates now us).incarnation.toNat = p.incarnation.toNat + rumours p.self us := by
  induction us generalizing p with
  | nil => exact ⟨h, rfl⟩
  | cons u us ih =>
      rw [rumours_cons, Nat.add_comm (rumours _ _), ← Nat.add_assoc] at hfew ⊢
      rw [SwimProtocol.applyUpdates, List.foldl_cons, ← SwimProtocol.applyUpdates]
      by_cases hrumour : u.node = p.self ∧ (u.type = .suspect ∨ u.type = .dead)
      · have happly : p.applyUpdate now u = p.refute now := by
          rw [applyUpdate, if_pos hrumour.1, if_pos (by simpa using hrumour.2)]
        rw [if_pos hrumour] at hfew ⊢
        obtain ⟨hnext, hinc⟩ := h.refute (by omega) now
        rw [happly, ← hinc]
        exact ih hnext (by rw [hinc]; exact hfew)
      · rw [if_neg hrumour, Nat.add_zero] at hfew ⊢
        have hquiets : Quiets .stable (fun _ ↦ True) p (p.applyUpdate now u) :=
          applyUpdate_quiets now hrumour
        have hinc := hquiets.incarnation_eq
        have hself := hquiets.changes.self_eq
        rw [← hinc, ← hself] at hfew ⊢
        exact ih (hquiets.present h) hfew

/-- One step of the node. -/
theorem Present.step {a : Action} {r : SwimProtocol × List Packet} (h : p.Present)
    (hp : p.TargetsOther) (hfew : p.incarnation.toNat + rumours p.self a.updates < 2 ^ 64)
    (hstep : p.step sort a = some r) :
    r.1.Present ∧ r.1.incarnation.toNat = p.incarnation.toNat + rumours p.self a.updates := by
  have hgrounds := Grounds.any p a
  rcases step_quiet hp hgrounds.failure hstep with ⟨msg, now, rfl, rfl⟩ | ⟨hnot, hquiet⟩
  · have hwelcome : Quiets sort (fun _ ↦ True) p (p.welcome now msg) :=
      welcome_quiets p now trivial
    have hinc := hwelcome.incarnation_eq
    have hself := hwelcome.changes.self_eq
    rw [← hinc, ← hself] at hfew ⊢
    obtain ⟨hpresent, hcount⟩ := (hwelcome.present h).applyUpdates now msg.updates hfew
    have hbefore : Changes sort (fun _ ↦ True) p (p.beforeUpdate now msg msg.updates) :=
      beforeUpdate_changes p now trivial fun _ _ ↦ trivial
    have hdispatch : QuietDoes sort (fun _ ↦ True) (p.beforeUpdate now msg msg.updates)
        (p.handleMessage sort now msg) :=
      dispatch_quiet (hbefore.targetsOther hp) msg
    exact ⟨hdispatch.quiets.present hpresent,
      (congrArg UInt64.toNat hdispatch.quiets.incarnation_eq).trans hcount⟩
  · have hnone : a.updates = [] := by
      cases a with
      | receive msg now => exact absurd rfl (hnot msg now)
      | _ => rfl
    rw [hnone]
    exact ⟨hquiet.quiets.present h, congrArg UInt64.toNat hquiet.quiets.incarnation_eq⟩

/-- Any number of steps. -/
theorem Present.exec {as : List Action} {sent : List Packet} (h : p.Present)
    (hp : p.TargetsOther)
    (hfew : p.incarnation.toNat + (as.map fun a ↦ rumours p.self a.updates).sum < 2 ^ 64)
    (hexec : (machine sort).exec p as = some (p', sent)) :
    p'.Present ∧ p'.self = p.self ∧ p'.config = p.config := by
  induction as generalizing p sent with
  | nil =>
      cases hexec
      exact ⟨h, rfl, rfl⟩
  | cons a as ih =>
      obtain ⟨q, e, rest, hstep, hrest, -⟩ := Machine.exec_cons_eq_some hexec
      rw [List.map_cons, List.sum_cons, ← Nat.add_assoc] at hfew
      obtain ⟨hpresent, hinc⟩ := h.step hp (by omega) hstep
      have hchanges := (step_does hp (.any p a) hstep).changes
      have hself := hchanges.self_eq
      have hconfig := hchanges.invariant (I := fun q ↦ q.config = p.config)
        (fun _ _ hc hq ↦ hc.config_eq.trans hq) rfl
      rw [← hinc, ← hself] at hfew
      obtain ⟨hlast, hself', hconfig'⟩ := ih hpresent (hchanges.targetsOther hp) hfew hrest
      exact ⟨hlast, hself'.trans hself, hconfig'.trans hconfig⟩

/-- **A node never loses itself.**  A node is started as in `main` and takes any steps, on
whatever messages, with fewer than 2⁶⁴ rumours about itself among the updates it is sent.
Its own entry is alive, at its incarnation and with its data port.  If no other node that it
has recorded has a token of its own, then all its tokens are on its ring and are its own. -/
theorem never_loses_itself (sort : SortByCount) (config : SwimConfig) (self : NodeId)
    (seed : Option (NodeId × UInt16)) (now : Time) (as : List Action) (p : SwimProtocol)
    (sent : List Packet)
    (hexec : (machine sort).exec (start config self seed now) as = some (p, sent))
    (hfew : (as.map fun a ↦ rumours self a.updates).sum < 2 ^ 64) :
    (∃ e, p.members.getNode self = some e ∧ e.state = .alive ∧
      e.incarnation = p.incarnation ∧ e.dataPort = config.selfDataPort) ∧
    ((∀ x ∈ p.members.changes, x.1 ≠ self →
        ∀ token ∈ RingStore.tokensOf self RingStore.kDefaultVnodes,
          token ∉ RingStore.tokensOf x.1 RingStore.kDefaultVnodes) →
      ∀ token ∈ RingStore.tokensOf self RingStore.kDefaultVnodes,
        (token, self) ∈ p.members.ring.entries) := by
  have htargets : (start config self seed now).TargetsOther := fun _ h ↦ nomatch h
  have hstart : (start config self seed now).incarnation.toNat +
      (as.map fun a ↦ rumours self a.updates).sum < 2 ^ 64 := by
    rw [show (start config self seed now).incarnation = 0 from rfl, UInt64.toNat_zero,
      Nat.zero_add]
    exact hfew
  obtain ⟨hpresent, hself, hconfig⟩ :=
    (present_start config self seed now).exec htargets hstart hexec
  have hself' : p.self = self := hself
  have hconfig' : p.config = config := hconfig
  refine ⟨hself' ▸ hconfig' ▸ hpresent.entry, fun hapart token htoken ↦ ?_⟩
  have honRing := hpresent.onRing
  rw [hself'] at honRing
  exact honRing token htoken fun x hx hne ↦ hapart x hx hne token htoken

/-- A message in the node's own name says that it is dead. -/
theorem never_loses_itself_forged :
    let self : NodeId := ⟨[97], 7946⟩
    let forged : SwimMessage := ⟨.ack, 0, self, none, [⟨.dead, self, 5, 0⟩, ⟨.leave, self, 9, 0⟩]⟩
    let order : List (Σ _ : NodeId, NodeInfo) := [⟨self, self, 11211, .alive, 1, 1⟩]
    ∃ p sent e, (machine .stable).exec (start ⟨5000, 3, 8, 11211⟩ self none 0)
        [.receive forged 1, .reap 9 order] = some (p, sent) ∧
      p.members.getNode self = some e ∧ e.state = .alive ∧ e.incarnation = p.incarnation ∧
      e.dataPort = 11211 ∧
      ∀ token ∈ RingStore.tokensOf self RingStore.kDefaultVnodes,
        (token, self) ∈ p.members.ring.entries := by
  intro self forged order
  have hexec : ((machine .stable).exec (start ⟨5000, 3, 8, 11211⟩ self none 0)
      [.receive forged 1, .reap 9 order]).map (fun r ↦ r.1.members.changes.map Prod.fst) =
      some [self, self] := by
    decide +kernel
  obtain ⟨⟨p, sent⟩, hexec, hchanges⟩ := Option.map_eq_some_iff.mp hexec
  obtain ⟨⟨e, he, halive, hinc, hport⟩, hring⟩ := never_loses_itself .stable ⟨5000, 3, 8, 11211⟩
    self none 0 [.receive forged 1, .reap 9 order] p sent hexec (by decide)
  refine ⟨p, sent, e, hexec, he, halive, hinc, hport, hring fun x hx hne ↦ absurd ?_ hne⟩
  have hmem : x.1 ∈ p.members.changes.map Prod.fst := List.mem_map_of_mem hx
  rw [hchanges] at hmem
  simpa using hmem

end SwimProtocol

end Pensieve
