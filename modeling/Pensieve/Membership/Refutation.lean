import Pensieve.Membership.Change

/-!
# Refuting rumours

A node that hears that it is suspect or dead raises its incarnation by one and
announces itself alive under it.  The incarnation of the rumour plays no part in
this.  So the answer outranks the rumour if and only if the rumour's incarnation is
not above the node's own, with room for one more (`outranks_iff`).  A rumour that
is left from before the node restarted may well be above it.
-/

namespace Pensieve

open Foundation

namespace SwimProtocol

/-! ## What a node says of itself -/

/-- A node is recorded alive in its own table, under its own incarnation or a
higher one, and what it has queued about itself is its announcement and its
answers to rumours. -/
structure SelfInv (p : SwimProtocol) : Prop where
  entry : ∃ e, p.members.getNode p.self = some e ∧ e.state = .alive ∧
    p.incarnation ≤ e.incarnation
  queued : ∀ q ∈ p.disseminator.queue, q.update.node = p.self →
    q.update.type = .alive ∨ (q.update.type = .join ∧ q.update.incarnation = 0)

variable {sort : SortByCount} {G : MembershipUpdate → Prop} {p p' : SwimProtocol}

/-- The entry that `main` writes.  A node that is given itself as its seed keeps it. -/
theorem getNode_start_self (config : SwimConfig) (self : NodeId)
    (seed : Option (NodeId × UInt16)) (now : Time) :
    (start config self seed now).members.getNode self =
      some ⟨self, config.selfDataPort, .alive, 0, now⟩ := by
  have hself : (MemberList.empty.addNode ⟨self, config.selfDataPort, .alive, 0, now⟩).1.getNode
      self = some ⟨self, config.selfDataPort, .alive, 0, now⟩ :=
    MemberList.getNode_addNode MemberList.empty ⟨self, config.selfDataPort, .alive, 0, now⟩
  rcases seed with - | ⟨id, port⟩
  · exact hself
  · by_cases hid : self = id
    · subst hid
      refine (MemberList.getNode_addNode _ _).trans ?_
      simp only [hself]
      exact congrArg some (if_neg (lt_irrefl (toLex ((0 : UInt64), NodeState.alive))))
    · exact (MemberList.getNode_addNode_of_ne hid).trans hself

theorem selfInv_start (config : SwimConfig) (self : NodeId) (seed : Option (NodeId × UInt16))
    (now : Time) : SelfInv (start config self seed now) where
  entry := ⟨_, getNode_start_self config self seed now, rfl, le_refl _⟩
  queued q hq _ := by
    obtain rfl := List.mem_singleton.mp hq
    exact Or.inr ⟨rfl, rfl⟩

/-- What is recorded of a node after it has answered a rumour. -/
theorem SelfInv.entry_refute (h : p.SelfInv) (now : Time) :
    ∃ e, (p.refute now).members.getNode p.self = some e ∧ e.state = .alive ∧
      p.incarnation + 1 ≤ e.incarnation := by
  obtain ⟨e, he, halive, -⟩ := h.entry
  have hnew := MemberList.getNode_updateState p.members p.self .alive (p.incarnation + 1) now
  rw [he, Option.map_some] at hnew
  refine ⟨_, hnew, ?_⟩
  split_ifs with hlt
  · exact ⟨rfl, le_refl _⟩
  · refine ⟨halive, not_lt.mp fun hinc ↦ hlt ?_⟩
    exact NodeInfo.rank_lt_iff.mpr (Or.inl hinc)

/-- What is queued about a node after it has answered a rumour. -/
theorem SelfInv.queued_refute (h : p.SelfInv) (now : Time) :
    ∃ q ∈ (p.refute now).disseminator.queue, q.update.type = .alive ∧
      q.update.node = p.self ∧ p.incarnation + 1 ≤ q.update.incarnation := by
  obtain ⟨q, hq, hcase⟩ := Disseminator.exists_mem_enqueueIn
    ⟨.alive, p.self, p.incarnation + 1, p.config.selfDataPort⟩ p.disseminator.queue
  refine ⟨q, hq, ?_⟩
  rcases hcase with hnew | ⟨hold, hnode, hsup⟩
  · rw [hnew]
    exact ⟨rfl, rfl, le_refl _⟩
  · simp only [Disseminator.supersedes, Bool.or_eq_false_iff, decide_eq_false_iff_not,
      gt_iff_lt, not_lt, Bool.and_eq_false_iff] at hsup
    obtain ⟨hle, htype⟩ := hsup
    rcases h.queued q hold hnode with halive | ⟨hjoin, hzero⟩
    · exact ⟨halive, hnode, hle⟩
    · -- The announcement gives way even to an incarnation that has gone round to zero.
      rw [hzero] at hle htype
      have heq : p.incarnation + 1 = 0 := le_antisymm hle (UInt64.zero_le ..)
      rw [hjoin, heq] at htype
      simp [UpdateType.toNat] at htype

theorem Change.selfInv (h : Change sort G p p') (hp : p.SelfInv) : p'.SelfInv := by
  cases h with
  | addNode u now hid =>
      obtain ⟨e, he, hrest⟩ := hp.entry
      exact ⟨⟨e, (MemberList.getNode_addNode_of_ne (Ne.symm hid)).trans he, hrest⟩, hp.queued⟩
  | updateState u now hid =>
      obtain ⟨e, he, hrest⟩ := hp.entry
      exact ⟨⟨e, (MemberList.getNode_updateState_of_ne (Ne.symm hid)).trans he, hrest⟩, hp.queued⟩
  | enqueue u hu =>
      refine ⟨hp.entry, fun q hq hnode ↦ ?_⟩
      rcases Disseminator.mem_enqueueIn hq with rfl | hq
      · exact absurd hnode hu
      · exact hp.queued q hq hnode
  | getUpdates limit =>
      refine ⟨hp.entry, fun q hq hnode ↦ ?_⟩
      obtain ⟨q', hq', hupd⟩ := Disseminator.update_mem_of_getUpdates hq
      rw [← hupd] at hnode ⊢
      exact hp.queued q' hq' hnode
  | refute now =>
      refine ⟨hp.entry_refute now, fun q hq hnode ↦ ?_⟩
      rcases Disseminator.mem_enqueueIn hq with rfl | hq
      · exact Or.inl rfl
      · exact hp.queued q hq hnode
  | book => exact ⟨hp.entry, hp.queued⟩

/-! ## The answer and the rumour -/

/-- The update makes a peer that holds exactly the rumour record its node alive. -/
def Convinces (u rumour : MembershipUpdate) : Prop :=
  ∀ (peer : SwimProtocol) (e : NodeInfo) (now : Time), peer.self ≠ u.node →
    peer.members.getNode u.node = some e → e.incarnation = rumour.incarnation →
    e.state = rumour.type.newState →
    (peer.applyUpdate now u).members.getNode u.node =
      some ⟨u.node, u.dataPort, .alive, u.incarnation, now⟩

/-- The node's incarnation, its own entry and an update in its queue are all above
the rumour, and the update convinces the peers that hold the rumour. -/
structure Outranks (p : SwimProtocol) (rumour : MembershipUpdate) : Prop where
  incarnation : rumour.incarnation < p.incarnation
  entry : ∃ e, p.members.getNode p.self = some e ∧ rumour.incarnation < e.incarnation
  queued : ∃ q ∈ p.disseminator.queue, q.update.type = .alive ∧ q.update.node = p.self ∧
    rumour.incarnation < q.update.incarnation ∧ Convinces q.update rumour

theorem convinces_of_lt {u rumour : MembershipUpdate} (halive : u.type = .alive)
    (hlt : rumour.incarnation < u.incarnation) : Convinces u rumour := by
  obtain ⟨type, node, incarnation, dataPort⟩ := u
  intro peer e now hself he hinc _
  obtain rfl : type = .alive := halive
  rw [applyUpdate, if_neg (Ne.symm hself)]
  refine (MemberList.getNode_addNode _ _).trans ?_
  simp only [he]
  rw [if_pos]
  exact NodeInfo.rank_lt_iff.mpr (Or.inl (hinc ▸ hlt))

/-- Adding one passes `i` from `n` on if `n` is at least `i` and not the largest
incarnation. -/
theorem lt_add_one_iff {i n : UInt64} :
    i < n + 1 ↔ i ≤ n ∧ n ≠ 18446744073709551615 := by
  have hi := i.toNat_lt
  have hn := n.toNat_lt
  rw [UInt64.lt_iff_toNat_lt, UInt64.le_iff_toNat_le, UInt64.toNat_add, Ne,
    ← UInt64.toNat_inj]
  simp only [UInt64.toNat_ofNat]
  omega

/-- **When a refutation outranks the rumour.**  In every run of a node, at every
suspect or dead update about the node in any message, whatever updates came before
it there: the answer outranks the rumour if and only if the incarnation of the
rumour is at most the node's, and the node's is not the largest there is. -/
theorem outranks_iff (sort : SortByCount) (p : SwimProtocol) (tr : List Packet)
    (hrun : (machine sort).Run p tr) (msg : SwimMessage) (now : Time)
    (before : List MembershipUpdate) (rumour : MembershipUpdate) (hself : rumour.node = p.self)
    (htype : rumour.type = .suspect ∨ rumour.type = .dead) :
    ((p.beforeUpdate now msg before).applyUpdate now rumour).Outranks rumour ↔
      rumour.incarnation ≤ (p.beforeUpdate now msg before).incarnation ∧
        (p.beforeUpdate now msg before).incarnation ≠ 18446744073709551615 := by
  have hchanges : Changes sort (fun _ ↦ True) p (p.beforeUpdate now msg before) :=
    beforeUpdate_changes p now trivial fun _ _ ↦ trivial
  have hinv : (p.beforeUpdate now msg before).SelfInv :=
    hchanges.invariant (fun _ _ hc ↦ hc.selfInv)
      (run_invariant hrun selfInv_start fun _ _ hc ↦ hc.selfInv).1
  rw [← hchanges.self_eq] at hself
  revert hinv hself
  generalize p.beforeUpdate now msg before = q
  intro hself hinv
  have happly : q.applyUpdate now rumour = q.refute now := by
    rw [applyUpdate, if_pos hself, if_pos]
    simpa using htype
  rw [happly, ← lt_add_one_iff]
  constructor
  · exact fun h ↦ h.incarnation
  · intro hlt
    obtain ⟨e, he, -, hle⟩ := hinv.entry_refute now
    obtain ⟨u, hu, halive, hnode, hqueued⟩ := hinv.queued_refute now
    have hlt' := lt_of_lt_of_le hlt hqueued
    exact ⟨hlt, ⟨e, he, lt_of_lt_of_le hlt hle⟩,
      ⟨u, hu, halive, hnode, hlt', convinces_of_lt halive hlt'⟩⟩

/-- A node that has just started answers the suspicion of its first incarnation. -/
theorem outranks_iff_fresh :
    let self : NodeId := ⟨[97], 7946⟩
    let p := start ⟨5000, 3, 8, 11211⟩ self none 0
    let rumour : MembershipUpdate := ⟨.suspect, self, 0, 0⟩
    let msg : SwimMessage := ⟨.ping, 0, ⟨[98], 7946⟩, none, [rumour]⟩
    ((p.beforeUpdate 1 msg []).applyUpdate 1 rumour).Outranks rumour := by
  intro self p rumour msg
  have hrun : (machine .stable).Run p [] := .init ⟨_, _, _, _, rfl⟩
  exact (outranks_iff .stable p [] hrun msg 1 [] rumour rfl (Or.inl rfl)).mpr
    (by decide +kernel)

/-- A node that has restarted meets a rumour of its death from before, at
incarnation 5.  It announces itself alive at incarnation 1, and a peer that holds
the rumour is not convinced. -/
theorem stale_rumour_stands :
    let self : NodeId := ⟨[97], 7946⟩
    let other : NodeId := ⟨[98], 7946⟩
    let p := start ⟨5000, 3, 8, 11211⟩ self none 0
    let rumour : MembershipUpdate := ⟨.dead, self, 5, 0⟩
    let msg : SwimMessage := ⟨.ping, 0, other, none, [rumour]⟩
    let p' := (p.handleMessage .stable 1 msg).1
    (machine .stable).Run p [] ∧ p'.incarnation = 1 ∧
      p'.members.getNode self = some ⟨self, 11211, .alive, 1, 1⟩ ∧
      (p'.disseminator.queue.map Entry.update).filter (·.node = self) =
        [⟨.alive, self, 1, 11211⟩] ∧
      ¬ p'.Outranks rumour ∧ ¬ Convinces ⟨.alive, self, 1, 11211⟩ rumour := by
  intro self other p rumour msg p'
  have hinc : p'.incarnation = 1 := by decide +kernel
  refine ⟨.init ⟨_, _, _, _, rfl⟩, hinc, by decide +kernel, by decide +kernel, ?_, ?_⟩
  · intro h
    have hlt : (5 : UInt64) < 1 := hinc ▸ h.incarnation
    exact absurd hlt (by decide)
  · -- The peer has the node as its seed and has heard the rumour.
    intro h
    have hstays := h ((start ⟨5000, 3, 8, 11211⟩ other (some (self, 11211)) 0).applyUpdate 0 rumour)
      ⟨self, 11211, .dead, 5, 0⟩ 1 (by decide +kernel) (by decide +kernel) rfl rfl
    exact absurd hstays (by decide +kernel)

end SwimProtocol

end Pensieve
