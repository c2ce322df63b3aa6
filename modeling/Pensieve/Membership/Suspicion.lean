import Pensieve.Membership.Merge
import Pensieve.Membership.Monotone
import Pensieve.Membership.Refutation

/-!
# Suspicions and acknowledgements

`on_ack` means to bring a suspect that answers back to life: it calls `update_state`
with the state alive and the incarnation of the suspicion.  But at the same incarnation
alive gives way to suspect, so the call does nothing.  The suspicion ends if and only
if the acknowledgement carries an update that would have ended it in any message
(`cancelled_iff`); without one the peer is declared dead when its time is up, however
often it has answered (`acked_and_reaped`).
-/

namespace Pensieve

open Foundation

namespace SwimProtocol

/-- A round of the reaper declares a member dead that is suspect at the incarnation. -/
def Reaps (p : SwimProtocol) (now : Time) (id : NodeId) (incarnation : UInt64) : Prop :=
  (∃ e, p.members.getNode id = some e ∧ e.state = .suspect ∧ e.incarnation = incarnation) ∧
    ∃ order, order.Perm p.members.nodes.entries ∧
      ∃ e, (p.suspicionReaper now order).members.getNode id = some e ∧ e.state = .dead

/-- The suspicion of a member at the incarnation is over: the member is alive, and will
not be declared dead for that suspicion. -/
structure Cancelled (sort : SortByCount) (p : SwimProtocol) (id : NodeId)
    (incarnation : UInt64) : Prop where
  alive : ∃ e, p.members.getNode id = some e ∧ e.state = .alive
  spared : ∀ as q tr, (machine sort).exec p as = some (q, tr) →
    ∀ now, ¬ q.Reaps now id incarnation

/-- Of what the message says of its sender, nothing outranks a report that it is alive
at an incarnation above the given one. -/
def Vouches (msg : SwimMessage) (incarnation : UInt64) : Prop :=
  ∃ u ∈ msg.updates, u.node = msg.sender ∧ (u.type = .join ∨ u.type = .alive) ∧
    incarnation < u.incarnation ∧ ∀ v ∈ msg.updates, v.node = msg.sender → v.rank ≤ u.rank

variable {sort : SortByCount} {p : SwimProtocol} {msg : SwimMessage}

theorem newState_eq_alive_iff {type : UpdateType} :
    type.newState = .alive ↔ type = .join ∨ type = .alive := by
  cases type <;> simp [UpdateType.newState]

/-- What is recorded of the sender of an acknowledgement afterwards, if it is known: the
highest ranked of what was recorded and what the message says of it. -/
theorem exists_entry_of_ack (sort : SortByCount) (now : Time) {e : NodeInfo}
    (htype : msg.type = .ack) (hself : msg.sender ≠ p.self)
    (he : p.members.getNode msg.sender = some e) :
    ∃ e', (p.handleMessage sort now msg).1.members.getNode msg.sender = some e' ∧
      IsGreatest (insert e.rank
        (written MembershipUpdate.node MembershipUpdate.rank msg.updates msg.sender)) e'.rank := by
  have hwelcome : p.welcome now msg = p := by
    rw [welcome, if_neg]
    rintro ⟨-, hnone⟩
    rw [he] at hnone
    cases hnone
  have hmembers : (p.handleMessage sort now msg).1.members =
      (p.applyUpdates now msg.updates).members := by
    rw [handleMessage, dispatch, htype, hwelcome]
    exact onAck_members ..
  have hranks := ranks_applyUpdates_of_known now msg.updates hself (by rw [he]; rfl)
  have hbefore : p.members.ranks msg.sender = some e.rank := by
    rw [MemberList.ranks, he, Option.map_some]
  obtain ⟨r, hr, hgreatest⟩ := raiseAll_eq_some MembershipUpdate.node MembershipUpdate.rank
    msg.updates hbefore
  obtain ⟨e', he', rfl⟩ := Option.map_eq_some_iff.mp (hranks.trans hr)
  exact ⟨e', by rw [hmembers, he'], hgreatest⟩

/-- A suspect is alive after its acknowledgement if the message vouches for it, and only
then. -/
theorem alive_iff_vouches {e e' : NodeInfo} (hsuspect : e.state = .suspect)
    (h : IsGreatest (insert e.rank
      (written MembershipUpdate.node MembershipUpdate.rank msg.updates msg.sender)) e'.rank) :
    e'.state = .alive ↔ Vouches msg e.incarnation := by
  constructor
  · intro halive
    rcases h.1 with heq | ⟨u, hu, hnode, heq⟩
    · have hstate : e'.state = e.state := congrArg Prod.snd heq
      rw [halive, hsuspect] at hstate
      cases hstate
    · have hstate : u.type.newState = e'.state := congrArg Prod.snd heq
      refine ⟨u, hu, hnode, newState_eq_alive_iff.mp (hstate.trans halive), ?_, ?_⟩
      · have hle : e.rank ≤ u.rank := heq ▸ h.2 (Set.mem_insert _ _)
        rcases Prod.Lex.toLex_le_toLex.mp hle with hlt | ⟨-, hle⟩
        · exact hlt
        · dsimp only at hle
          rw [hsuspect, hstate, halive, NodeState.le_alive_iff] at hle
          cases hle
      · intro v hv hvnode
        rw [heq]
        exact h.2 (Set.mem_insert_of_mem _ ⟨v, hv, hvnode, rfl⟩)
  · rintro ⟨u, hu, hnode, htype, hlt, hmax⟩
    have hgreatest : IsGreatest (insert e.rank
        (written MembershipUpdate.node MembershipUpdate.rank msg.updates msg.sender)) u.rank := by
      refine ⟨Set.mem_insert_of_mem _ ⟨u, hu, hnode, rfl⟩, ?_⟩
      rintro r (rfl | ⟨v, hv, hvnode, rfl⟩)
      · exact (Prod.Lex.toLex_lt_toLex.mpr (Or.inl hlt)).le
      · exact hmax v hv hvnode
    have hstate : e'.state = u.type.newState := congrArg Prod.snd (h.unique hgreatest)
    rw [hstate, newState_eq_alive_iff]
    exact htype

/-- A node is not suspect in its own table. -/
theorem ne_self_of_suspect {tr : List Packet} (hrun : (machine sort).Run p tr) {id : NodeId}
    {e : NodeInfo} (he : p.members.getNode id = some e) (hsuspect : e.state = .suspect) :
    id ≠ p.self := by
  rintro rfl
  obtain ⟨e', he', halive, -⟩ :=
    (run_invariant hrun selfInv_start fun _ _ hc ↦ hc.selfInv).1.entry
  rw [he] at he'
  cases he'
  rw [hsuspect] at halive
  cases halive

/-- **When an acknowledgement ends a suspicion.**  In every run of a node, at every
acknowledgement from a member that it suspects: the member is alive afterwards, and is
never declared dead for that suspicion, if and only if the message vouches for it. -/
theorem cancelled_iff (sort : SortByCount) (p : SwimProtocol) (tr : List Packet)
    (hrun : (machine sort).Run p tr) (msg : SwimMessage) (now : Time) (htype : msg.type = .ack)
    (e : NodeInfo) (he : p.members.getNode msg.sender = some e) (hsuspect : e.state = .suspect) :
    Cancelled sort (p.handleMessage sort now msg).1 msg.sender e.incarnation ↔
      Vouches msg e.incarnation := by
  have hself := ne_self_of_suspect hrun he hsuspect
  obtain ⟨e', he', hgreatest⟩ := exists_entry_of_ack sort now htype hself he
  rw [← alive_iff_vouches hsuspect hgreatest]
  constructor
  · intro h
    obtain ⟨e'', he'', halive⟩ := h.alive
    rw [he'] at he''
    cases he''
    exact halive
  · intro halive
    refine ⟨⟨e', he', halive⟩, ?_⟩
    rintro as q tr' hexec now' ⟨⟨e₁, he₁, -, hinc⟩, -⟩
    -- Once the member is alive, its incarnation is above that of the suspicion for good.
    have hstep : (machine sort).Run (p.handleMessage sort now msg).1 _ :=
      hrun.step (a := .receive msg now) rfl
    obtain ⟨e₂, he₂, hle⟩ := exec_onward hstep hexec msg.sender e' he'
    rw [he₁] at he₂
    cases he₂
    have hrisen : e.incarnation < e'.incarnation :=
      incarnation_lt_of_alive (hgreatest.2 (Set.mem_insert _ _)) (by rw [hsuspect]; decide) halive
    exact absurd hinc (hrisen.trans_le (incarnation_le_of_rank_le hle)).ne'

/-! ## Two runs -/

/-- A node whose seed has not answered a probe, neither directly nor through others. -/
def unanswered : List Action :=
  [.probe ⟨[98], 7946⟩, .directDone [⟨[98], 7946⟩] 1000000000, .indirectDone 2000000000]

/-- The state of the seed's entry at the end of it. -/
theorem suspect_of_unanswered :
    ∃ p tr, (machine .stable).Run p tr ∧
      (machine .stable).exec (start ⟨5000, 3, 8, 11211⟩ ⟨[97], 7946⟩ (some (⟨[98], 7946⟩, 11211)) 0)
        unanswered = some (p, tr) ∧
      p.members.getNode ⟨[98], 7946⟩ = some ⟨⟨[98], 7946⟩, 11211, .suspect, 0, 2000000000⟩ := by
  have hstart : (machine .stable).Run
      (start ⟨5000, 3, 8, 11211⟩ ⟨[97], 7946⟩ (some (⟨[98], 7946⟩, 11211)) 0) [] :=
    .init ⟨_, _, _, _, rfl⟩
  have hentry : ((machine .stable).exec (start ⟨5000, 3, 8, 11211⟩ ⟨[97], 7946⟩
        (some (⟨[98], 7946⟩, 11211)) 0) unanswered).map (fun x ↦ x.1.members.getNode ⟨[98], 7946⟩) =
      some (some ⟨⟨[98], 7946⟩, 11211, .suspect, 0, 2000000000⟩) := by
    decide +kernel
  obtain ⟨⟨p, tr⟩, hexec, hp⟩ := Option.map_eq_some_iff.mp hentry
  exact ⟨p, tr, hstart.exec hexec, hexec, hp⟩

/-- The seed answers with the announcement of its next incarnation. -/
theorem cancelled_iff_refuted :
    let seed : NodeId := ⟨[98], 7946⟩
    let ack : SwimMessage := ⟨.ack, 0, seed, none, [⟨.alive, seed, 1, 11211⟩]⟩
    ∃ p tr, (machine .stable).Run p tr ∧
      p.members.getNode seed = some ⟨seed, 11211, .suspect, 0, 2000000000⟩ ∧
      Cancelled .stable (p.handleMessage .stable 3000000000 ack).1 seed 0 := by
  intro seed ack
  obtain ⟨p, tr, hrun, -, hp⟩ := suspect_of_unanswered
  refine ⟨p, tr, hrun, hp, ?_⟩
  have hack : Vouches ack 0 := by
    refine ⟨_, List.mem_singleton.mpr rfl, rfl, Or.inr rfl, by decide, fun v hv _ ↦ ?_⟩
    rw [List.mem_singleton.mp hv]
  exact (cancelled_iff .stable p tr hrun ack 3000000000 rfl _ hp rfl).mpr hack

/-- The seed answers a second after it was suspected, long before the timeout of five
seconds, and is declared dead when the five seconds are over. -/
theorem acked_and_reaped :
    let seed : NodeId := ⟨[98], 7946⟩
    let ack : SwimMessage := ⟨.ack, 0, seed, none, []⟩
    ∃ p tr q tr' r tr'', (machine .stable).Run p tr ∧
      p.members.getNode seed = some ⟨seed, 11211, .suspect, 0, 2000000000⟩ ∧
      (machine .stable).exec p [.receive ack 3000000000] = some (q, tr') ∧
      q.members.getNode seed = some ⟨seed, 11211, .suspect, 0, 2000000000⟩ ∧
      (machine .stable).exec q [.reap 7000000000 q.members.nodes.entries] = some (r, tr'') ∧
      r.members.getNode seed = some ⟨seed, 11211, .dead, 0, 7000000000⟩ := by
  intro seed ack
  have hentry : ((machine .stable).exec (start ⟨5000, 3, 8, 11211⟩ ⟨[97], 7946⟩
        (some (⟨[98], 7946⟩, 11211)) 0) unanswered).map (fun x ↦
      ((machine .stable).exec x.1 [.receive ack 3000000000]).map fun y ↦
        (y.1.members.getNode seed,
          ((machine .stable).exec y.1 [.reap 7000000000 y.1.members.nodes.entries]).map fun z ↦
            z.1.members.getNode seed)) =
      some (some (some ⟨seed, 11211, .suspect, 0, 2000000000⟩,
        some (some ⟨seed, 11211, .dead, 0, 7000000000⟩))) := by
    decide +kernel
  obtain ⟨p, tr, hrun, hexec, hp⟩ := suspect_of_unanswered
  rw [hexec, Option.map_some] at hentry
  obtain ⟨⟨q, tr'⟩, hack, heq⟩ := Option.map_eq_some_iff.mp (Option.some.inj hentry)
  obtain ⟨hq, hreaped⟩ := Prod.mk.inj heq
  obtain ⟨⟨r, tr''⟩, hreap, hr⟩ := Option.map_eq_some_iff.mp hreaped
  exact ⟨p, tr, q, tr', r, tr'', hrun, hp, hack, hq, hreap, hr⟩

end SwimProtocol

end Pensieve
