import Pensieve.Membership.Change

/-!
# Records only move forward

Whatever a node is told and whatever its own loops do, no entry of its table is lost,
and none falls in rank (`records_never_fall`).  All writers of the table go through
`add_node` and `update_state`, which replace an entry only by one of higher rank.
-/

namespace Pensieve

open Foundation

/-- Every entry is kept, or has been replaced by one that is not of lower rank. -/
def MemberList.Onward (m m' : MemberList) : Prop :=
  ∀ id e, m.getNode id = some e → ∃ e', m'.getNode id = some e' ∧ e.rank ≤ e'.rank

namespace MemberList

variable {m m' m'' : MemberList}

theorem Onward.refl (m : MemberList) : m.Onward m := fun _ e he ↦ ⟨e, he, le_refl _⟩

theorem Onward.trans (h : m.Onward m') (h' : m'.Onward m'') : m.Onward m'' := by
  intro id e he
  obtain ⟨e', he', hle⟩ := h id e he
  obtain ⟨e'', he'', hle'⟩ := h' id e' he'
  exact ⟨e'', he'', hle.trans hle'⟩

theorem onward_addNode (m : MemberList) (info : NodeInfo) : m.Onward (m.addNode info).1 := by
  intro id e he
  by_cases hid : id = info.id
  · subst hid
    have hnew := getNode_addNode m info
    rw [he] at hnew
    refine ⟨_, hnew, ?_⟩
    dsimp only
    split_ifs with hlt
    · exact hlt.le
    · exact le_refl _
  · exact ⟨e, (getNode_addNode_of_ne hid).trans he, le_refl _⟩

theorem onward_updateState (m : MemberList) (id : NodeId) (newState : NodeState)
    (incarnation : UInt64) (now : Time) :
    m.Onward (m.updateState id newState incarnation now).1 := by
  intro id' e he
  by_cases hid : id' = id
  · subst hid
    have hnew := getNode_updateState m id' newState incarnation now
    rw [he] at hnew
    refine ⟨_, hnew, ?_⟩
    dsimp only
    split_ifs with hlt
    · exact hlt.le
    · exact le_refl _
  · exact ⟨e, (getNode_updateState_of_ne hid).trans he, le_refl _⟩

end MemberList

namespace SwimProtocol

variable {sort : SortByCount} {G : MembershipUpdate → Prop} {p p' q : SwimProtocol}

theorem Change.onward (h : Change sort G p p') : p.members.Onward p'.members := by
  cases h with
  | addNode u now => exact MemberList.onward_addNode _ _
  | updateState u now => exact MemberList.onward_updateState _ _ _ _ _
  | refute now => exact MemberList.onward_updateState _ _ _ _ _
  | _ => exact MemberList.Onward.refl _

/-- What a run does to the table. -/
theorem exec_onward {tr tr' : List Packet} {as : List Action} (hrun : (machine sort).Run p tr)
    (hexec : (machine sort).exec p as = some (q, tr')) : p.members.Onward q.members := by
  refine hrun.exec_rel (R := fun p q ↦ p.members.Onward q.members) (fun _ ↦ .refl _) .trans
    ?_ hexec
  intro p tr a p' sent hrun hstep
  have hdoes := step_does (targetsOther_of_run hrun) (.any p a) hstep
  exact hdoes.changes.invariant (I := fun q ↦ p.members.Onward q.members)
    (fun _ _ hc hq ↦ hq.trans hc.onward) (.refl _)

theorem incarnation_le_of_rank_le {e e' : NodeInfo} (hle : e.rank ≤ e'.rank) :
    e.incarnation ≤ e'.incarnation := by
  rcases Prod.Lex.toLex_le_toLex.mp hle with hlt | ⟨heq, -⟩
  · exact hlt.le
  · exact heq.le

/-- A member that was not alive and is alive now is so at a higher incarnation. -/
theorem incarnation_lt_of_alive {e e' : NodeInfo} (hle : e.rank ≤ e'.rank)
    (hnot : e.state ≠ .alive) (halive : e'.state = .alive) : e.incarnation < e'.incarnation := by
  rcases Prod.Lex.toLex_le_toLex.mp hle with hlt | ⟨-, hstate⟩
  · exact hlt
  · dsimp only at hstate
    rw [halive, NodeState.le_alive_iff] at hstate
    exact absurd hstate hnot

/-- **Membership never goes backwards.**  From any state of any run of a node, whatever
messages it is sent and whatever its loops do: every member is still a member later on,
its incarnation and state have not fallen in lexicographic order, and if it was dead or
had left and is now alive, its incarnation has risen. -/
theorem records_never_fall (sort : SortByCount) (p q : SwimProtocol) (tr tr' : List Packet)
    (as : List Action) (hrun : (machine sort).Run p tr)
    (hexec : (machine sort).exec p as = some (q, tr')) (id : NodeId) (e : NodeInfo)
    (he : p.members.getNode id = some e) :
    ∃ e', q.members.getNode id = some e' ∧
      toLex (e.incarnation, e.state) ≤ toLex (e'.incarnation, e'.state) ∧
      (e.state = .dead ∨ e.state = .left → e'.state = .alive →
        e.incarnation < e'.incarnation) := by
  obtain ⟨e', he', hle⟩ := exec_onward hrun hexec id e he
  refine ⟨e', he', hle, fun hgone ↦ incarnation_lt_of_alive hle ?_⟩
  rcases hgone with hgone | hgone <;> rw [hgone] <;> decide

/-- The seed is reported dead, and comes back at the next incarnation. -/
theorem records_never_fall_seed :
    let seed : NodeId := ⟨[98], 7946⟩
    let p := start ⟨5000, 3, 8, 11211⟩ ⟨[97], 7946⟩ (some (seed, 11211)) 0
    let dead : SwimMessage := ⟨.ping, 0, ⟨[99], 7946⟩, none, [⟨.dead, seed, 0, 0⟩]⟩
    let back : SwimMessage := ⟨.ping, 0, seed, none, [⟨.alive, seed, 1, 11211⟩]⟩
    ∃ e e' q tr' r tr'', (machine .stable).exec p [.receive dead 1] = some (q, tr') ∧
      q.members.getNode seed = some e ∧ e.state = .dead ∧
      (machine .stable).exec q [.receive back 2] = some (r, tr'') ∧
      r.members.getNode seed = some e' ∧ e'.state = .alive ∧ e.incarnation < e'.incarnation := by
  intro seed p dead back
  have hrun : (machine .stable).Run p [] := .init ⟨_, _, _, _, rfl⟩
  have hq : ((machine .stable).exec p [.receive dead 1]).map
      (fun x ↦ (x.1.members.getNode seed, ((machine .stable).exec x.1 [.receive back 2]).map
        fun y ↦ y.1.members.getNode seed)) =
      some (some ⟨seed, 11211, .dead, 0, 1⟩, some (some ⟨seed, 11211, .alive, 1, 2⟩)) := by
    decide +kernel
  obtain ⟨⟨q, tr'⟩, hexec, heq⟩ := Option.map_eq_some_iff.mp hq
  obtain ⟨hdead, hback⟩ := Prod.mk.inj heq
  obtain ⟨⟨r, tr''⟩, hexec', halive⟩ := Option.map_eq_some_iff.mp hback
  obtain ⟨e', he', -, hrisen⟩ := records_never_fall .stable q r _ tr'' [.receive back 2]
    (hrun.exec hexec) hexec' seed _ hdead
  cases he'.symm.trans halive
  exact ⟨_, _, q, tr', r, tr'', hexec, hdead, rfl, hexec', halive, rfl, hrisen (Or.inl rfl) rfl⟩

end SwimProtocol

end Pensieve
