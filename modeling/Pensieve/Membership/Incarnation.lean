import Pensieve.Membership.Cluster
import Pensieve.Membership.Monotone
import Pensieve.Membership.Refutation

/-!
# Whose incarnation it is

Only a node itself raises its incarnation: by one for every rumour about it that it is
told.  Everybody else copies incarnations that they were told, or says zero.  So what is
said of a node anywhere is bounded by the number of rumours that the node has answered
(`run_inv`), and that number is its incarnation, as long as it fits into 64 bits
(`incarnation_bounds`).

The counter goes round.  After 2⁶⁴ rumours a node is back at incarnation zero, below what
it has itself recorded (`incarnation_goes_round`).
-/

namespace Pensieve

open Foundation

/-- The number of rumours about the node among the updates. -/
def rumours (id : NodeId) (us : List MembershipUpdate) : ℕ :=
  us.countP fun u ↦ u.node = id && (u.type = .suspect || u.type = .dead)

/-- No entry of the table is above the bounds `β`. -/
def MemberList.Within (β : NodeId → ℕ) (m : MemberList) : Prop :=
  ∀ id e, m.getNode id = some e → e.incarnation.toNat ≤ β id

/-- The update is not above the bounds. -/
def MembershipUpdate.Within (β : NodeId → ℕ) (u : MembershipUpdate) : Prop :=
  u.incarnation.toNat ≤ β u.node

variable {sort : SortByCount} {β β' : NodeId → ℕ}

theorem MemberList.Within.updateState {m : MemberList} {id : NodeId} {incarnation : UInt64}
    (h : m.Within β) (hid : incarnation.toNat ≤ β id) (newState : NodeState) (now : Time) :
    (m.updateState id newState incarnation now).1.Within β := by
  intro id' e he
  by_cases hne : id' = id
  · subst hne
    rw [MemberList.getNode_updateState] at he
    obtain ⟨e₀, he₀, rfl⟩ := Option.map_eq_some_iff.mp he
    split_ifs
    · exact hid
    · exact h id' e₀ he₀
  · rw [MemberList.getNode_updateState_of_ne hne] at he
    exact h id' e he

theorem MemberList.Within.addNode {m : MemberList} {info : NodeInfo} (h : m.Within β)
    (hinfo : info.incarnation.toNat ≤ β info.id) : (m.addNode info).1.Within β := by
  intro id e he
  by_cases hne : id = info.id
  · subst hne
    rw [MemberList.getNode_addNode] at he
    obtain rfl := Option.some.inj he
    split
    · rename_i e₀ he₀
      split_ifs
      · exact hinfo
      · exact h _ e₀ he₀
    · exact hinfo
  · rw [MemberList.getNode_addNode_of_ne hne] at he
    exact h id e he

namespace SwimProtocol

/-- The updates that come in with a step. -/
def Action.updates : Action → List MembershipUpdate
  | .receive msg _ => msg.updates
  | _ => []

/-- What the node has recorded and queued is within the bounds. -/
structure Bounded (β : NodeId → ℕ) (p : SwimProtocol) : Prop where
  entry : p.members.Within β
  queued : ∀ q ∈ p.disseminator.queue, q.update.Within β

variable {p p' : SwimProtocol}

theorem Bounded.mono (h : p.Bounded β) (hle : ∀ id, β id ≤ β' id) : p.Bounded β' :=
  ⟨fun id e he ↦ (h.entry id e he).trans (hle id), fun q hq ↦ (h.queued q hq).trans (hle _)⟩

theorem Bounded.enqueue {u : MembershipUpdate} (h : p.Bounded β) (hu : u.Within β) :
    ∀ q ∈ (p.disseminator.enqueue u).queue, q.update.Within β := by
  intro q hq
  rcases Disseminator.mem_enqueueIn hq with rfl | hq
  · exact hu
  · exact h.queued q hq

theorem bounded_start (config : SwimConfig) (self : NodeId) (seed : Option (NodeId × UInt16))
    (now : Time) : (start config self seed now).Bounded β := by
  have hempty : MemberList.empty.Within β := fun _ _ he ↦ nomatch he
  have hself : (MemberList.empty.addNode ⟨self, config.selfDataPort, .alive, 0, now⟩).1.Within β :=
    hempty.addNode (Nat.zero_le _)
  constructor
  · rcases seed with - | ⟨id, port⟩
    · exact hself
    · exact hself.addNode (Nat.zero_le _)
  · intro q hq
    obtain rfl := List.mem_singleton.mp hq
    exact Nat.zero_le _

/-- Quiet changes keep the bounds. -/
theorem Quiet.bounded (hc : Quiet sort (MembershipUpdate.Within β) p p') (h : p.Bounded β) :
    p'.Bounded β := by
  obtain ⟨hc, hinc⟩ := hc
  cases hc with
  | addNode u now hid hu => exact ⟨h.entry.addNode hu, h.queued⟩
  | updateState u now hid hu => exact ⟨h.entry.updateState hu _ _, h.queued⟩
  | enqueue u hid hu => exact ⟨h.entry, h.enqueue hu⟩
  | getUpdates limit =>
      refine ⟨h.entry, fun q hq ↦ ?_⟩
      obtain ⟨q', hq', hupd⟩ := Disseminator.update_mem_of_getUpdates hq
      rw [← hupd]
      exact h.queued q' hq'
  | refute now => exact absurd hinc (by simp [refute])
  | book => exact ⟨h.entry, h.queued⟩

theorem Quiets.bounded (hc : Quiets sort (MembershipUpdate.Within β) p p') (h : p.Bounded β) :
    p'.Bounded β := by
  induction hc with
  | refl => exact h
  | tail _ hc ih => exact hc.bounded ih

theorem Quiets.incarnation_eq {G : MembershipUpdate → Prop} (hc : Quiets sort G p p') :
    p'.incarnation = p.incarnation := by
  induction hc with
  | refl => rfl
  | tail _ hc ih => exact hc.2.trans ih

/-! ## Messages -/

/-- The answer to the rumour numbered `k + 1`. -/
theorem Bounded.refute {k : ℕ} (h : p.Bounded β) (hk : p.incarnation = UInt64.ofNat k)
    (hβ : k + 1 ≤ β p.self) (now : Time) :
    (p.refute now).Bounded β ∧ (p.refute now).incarnation = UInt64.ofNat (k + 1) := by
  have hnext : p.incarnation + 1 = UInt64.ofNat (k + 1) := by rw [hk, UInt64.ofNat_add]; rfl
  have hle : (p.incarnation + 1).toNat ≤ β p.self := by
    rw [hnext, UInt64.toNat_ofNat']
    exact (Nat.mod_le _ _).trans hβ
  exact ⟨⟨h.entry.updateState hle _ _, h.enqueue hle⟩, hnext⟩

theorem rumours_cons (id : NodeId) (u : MembershipUpdate) (us : List MembershipUpdate) :
    rumours id (u :: us) = rumours id us +
      if u.node = id ∧ (u.type = .suspect ∨ u.type = .dead) then 1 else 0 := by
  rw [rumours, List.countP_cons, ← rumours]
  simp

theorem applyUpdates_bounded (now : Time) (us : List MembershipUpdate) {k : ℕ}
    (h : p.Bounded β) (hk : p.incarnation = UInt64.ofNat k)
    (hus : ∀ u ∈ us, u.Within β) (hβ : k + rumours p.self us ≤ β p.self) :
    (p.applyUpdates now us).Bounded β ∧
      (p.applyUpdates now us).incarnation = UInt64.ofNat (k + rumours p.self us) := by
  induction us generalizing p k with
  | nil => exact ⟨h, hk⟩
  | cons u us ih =>
      have hrest : ∀ v ∈ us, v.Within β := fun v hv ↦ hus v (List.mem_cons_of_mem _ hv)
      have hu : u.Within β := hus u List.mem_cons_self
      rw [rumours_cons] at hβ ⊢
      rw [applyUpdates, List.foldl_cons, ← applyUpdates]
      by_cases hself : u.node = p.self
      · by_cases htype : u.type = .suspect ∨ u.type = .dead
        · have happly : p.applyUpdate now u = p.refute now := by
            rw [applyUpdate, if_pos hself, if_pos (by simpa using htype)]
          rw [if_pos ⟨hself, htype⟩] at hβ ⊢
          obtain ⟨hb, hinc⟩ := h.refute hk (by omega) now
          have hβ' : k + 1 + rumours p.self us ≤ β p.self := by omega
          rw [happly, Nat.add_comm (rumours _ _), ← Nat.add_assoc]
          exact ih hb hinc hrest hβ'
        · have happly : p.applyUpdate now u = p := by
            rw [applyUpdate, if_pos hself, if_neg (by simpa using htype)]
          rw [if_neg fun hboth ↦ htype hboth.2, Nat.add_zero] at hβ ⊢
          rw [happly]
          exact ih h hk hrest hβ
      · rw [if_neg fun hboth ↦ hself hboth.1, Nat.add_zero] at hβ ⊢
        rw [applyUpdate, if_neg hself]
        split_ifs with htype
        · exact ih (p := { p with members := _ }) ⟨h.entry.addNode hu, h.queued⟩ hk hrest hβ
        · exact ih (p := { p with members := _ }) ⟨h.entry.updateState hu _ _, h.queued⟩ hk hrest hβ

/-- What a step of a node does, with `k` rumours answered before it: it keeps to the
bounds if they leave room for the rumours that come in, and what it sends keeps to them
as well. -/
theorem step_bounded {a : Action} {r : SwimProtocol × List Packet} {k : ℕ}
    (hp : p.TargetsOther) (h : p.Bounded β) (hk : p.incarnation = UInt64.ofNat k)
    (hus : ∀ u ∈ a.updates, u.Within β) (hβ : k + rumours p.self a.updates ≤ β p.self)
    (hstep : p.step sort a = some r) :
    r.1.Bounded β ∧ r.1.incarnation = UInt64.ofNat (k + rumours p.self a.updates) ∧
      ∀ packet ∈ r.2, ∀ u ∈ packet.msg.updates, u.Within β := by
  have hsent : ∀ {q : SwimProtocol} {r : SwimProtocol × List Packet}, q.Bounded β →
      QuietDoes sort (MembershipUpdate.Within β) q r →
      ∀ packet ∈ r.2, ∀ u ∈ packet.msg.updates, u.Within β := by
    intro q r hq hdoes packet hpacket u hu
    obtain ⟨-, q', hq', hcarries⟩ := hdoes.sent packet hpacket
    obtain ⟨e, he, rfl⟩ := hcarries u hu
    exact (hq'.bounded hq).queued e he
  have hfailure : FailureGrounds (MembershipUpdate.Within β) p := ⟨h.entry, h.entry⟩
  rcases step_quiet hp hfailure hstep with ⟨msg, now, rfl, rfl⟩ | ⟨hnot, hquiet⟩
  · have hwelcome : Quiets sort (MembershipUpdate.Within β) p (p.welcome now msg) :=
      welcome_quiets p now (Nat.zero_le _)
    have hself := hwelcome.changes.self_eq
    rw [← hself] at hβ
    obtain ⟨hb, hinc⟩ := applyUpdates_bounded now msg.updates (hwelcome.bounded h)
      (hwelcome.incarnation_eq.trans hk) hus hβ
    have hchanges : Changes sort (MembershipUpdate.Within β) p
        (p.beforeUpdate now msg msg.updates) :=
      beforeUpdate_changes p now (Nat.zero_le _) hus
    have hdispatch : QuietDoes sort (MembershipUpdate.Within β) (p.beforeUpdate now msg msg.updates)
        (p.handleMessage sort now msg) :=
      dispatch_quiet (hchanges.targetsOther hp) msg
    refine ⟨hdispatch.quiets.bounded hb, ?_, hsent hb hdispatch⟩
    rw [hself] at hinc
    exact hdispatch.quiets.incarnation_eq.trans hinc
  · have hnone : a.updates = [] := by
      cases a with
      | receive msg now => exact absurd rfl (hnot msg now)
      | _ => rfl
    rw [hnone]
    exact ⟨hquiet.quiets.bounded h, hquiet.quiets.incarnation_eq.trans hk, hsent h hquiet⟩

end SwimProtocol

/-! ## Clusters -/

namespace Cluster

/-- The rumours about the node that an event brings to it. -/
def heard (id : NodeId) : Event → ℕ
  | .booted _ => 0
  | .stepped x _ a _ => if x = id then rumours id a.updates else 0

/-- The number of rumours about itself that a node has answered. -/
def refutations (tr : List Event) (id : NodeId) : ℕ := (tr.map (heard id)).sum

theorem refutations_append (tr ev : List Event) (id : NodeId) :
    refutations (tr ++ ev) id = refutations tr id + refutations ev id := by
  rw [refutations, List.map_append, List.sum_append]
  rfl

variable {c c' : Cluster} {tr ev : List Event}

/-- Everything that is said of a node is bounded by `β`, the number of rumours it has
answered, and that number is its incarnation. -/
structure CountInv (β : NodeId → ℕ) (c : Cluster) : Prop where
  self_eq : ∀ id p, c.node id = some p → p.self = id ∧ p.TargetsOther
  bounded : ∀ id p, c.node id = some p → p.Bounded β
  incarnation : ∀ id p, c.node id = some p → p.incarnation = UInt64.ofNat (β id)
  sent : ∀ packet ∈ c.sent, ∀ u ∈ packet.msg.updates, u.Within β
  unborn : ∀ id, c.node id = none → β id = 0

theorem node_eq_none_of_advance {id x : NodeId} {p : SwimProtocol} {sent : List Packet}
    (hx : (c.advance id p sent).node x = none) : x ≠ id ∧ c.node x = none := by
  have hid : x ≠ id := by
    rintro rfl
    rw [advance_node_self] at hx
    cases hx
  exact ⟨hid, by rwa [advance_node_of_ne hid] at hx⟩

/-- A node starts. -/
theorem CountInv.boot (h : c.CountInv β) {id : NodeId} (hnone : c.node id = none)
    (config : SwimConfig) (seed : Option (NodeId × UInt16)) (now : Time) :
    (c.advance id (SwimProtocol.start config id seed now) []).CountInv β where
  self_eq := forall_advance h.self_eq ⟨rfl, fun _ ht ↦ nomatch ht⟩
  bounded := forall_advance h.bounded (SwimProtocol.bounded_start ..)
  incarnation := forall_advance h.incarnation (by rw [h.unborn id hnone]; rfl)
  sent packet hpacket := h.sent packet (by simpa [advance] using hpacket)
  unborn x hx := h.unborn x (node_eq_none_of_advance hx).2

/-- A node takes a step in which it answers the rumours that come in. -/
theorem CountInv.advance (h : c.CountInv β) {id : NodeId} {p : SwimProtocol}
    {a : SwimProtocol.Action} {r : SwimProtocol × List Packet} (hp : c.node id = some p)
    (hr : p.step sort a = some r) (harrives : ∀ msg now, a = .receive msg now → ⟨id, msg⟩ ∈ c.sent)
    (hβ : ∀ x, β' x = β x + if id = x then rumours x a.updates else 0) :
    (c.advance id r.1 r.2).CountInv β' := by
  obtain ⟨hself, htargets⟩ := h.self_eq id p hp
  have hmono : ∀ x, β x ≤ β' x := fun x ↦ by
    rw [hβ]
    exact Nat.le_add_right _ _
  have hid : β' id = β id + rumours p.self a.updates := by rw [hβ, if_pos rfl, hself]
  have hother : ∀ x, x ≠ id → β' x = β x := fun x hx ↦ by
    rw [hβ, if_neg (Ne.symm hx), Nat.add_zero]
  have hupdates : ∀ u ∈ a.updates, u.Within β' := by
    intro u hu
    cases a with
    | receive msg now => exact (h.sent _ (harrives msg now rfl) u hu).trans (hmono _)
    | _ => cases hu
  obtain ⟨hb, hinc, hsent⟩ := SwimProtocol.step_bounded htargets ((h.bounded id p hp).mono hmono)
    (h.incarnation id p hp) hupdates (by rw [hself, hid, hself]) hr
  have hdoes := SwimProtocol.step_does htargets (.any p a) hr
  refine ⟨?_, ?_, ?_, ?_, fun x hx ↦ ?_⟩
  · exact forall_advance h.self_eq
      ⟨hdoes.changes.self_eq.trans hself, hdoes.changes.targetsOther htargets⟩
  · exact forall_advance (fun x q hq ↦ (h.bounded x q hq).mono hmono) hb
  · intro x q hq
    by_cases hx : x = id
    · subst hx
      rw [advance_node_self] at hq
      cases hq
      rw [hinc, hid]
    · rw [advance_node_of_ne hx] at hq
      rw [h.incarnation x q hq, hother x hx]
  · intro packet hpacket u hu
    rcases List.mem_append.mp hpacket with hpacket | hpacket
    · exact (h.sent packet hpacket u hu).trans (hmono _)
    · exact hsent packet hpacket u hu
  · obtain ⟨hne, hx⟩ := node_eq_none_of_advance hx
    rw [hother x hne]
    exact h.unborn x hx

theorem run_countInv (hrun : (machine sort).Run c tr) : c.CountInv (refutations tr) := by
  refine hrun.invariant (I := fun c tr ↦ c.CountInv (refutations tr)) ?_ ?_
  · rintro _ rfl
    exact ⟨nofun, nofun, nofun, nofun, fun _ _ ↦ rfl⟩
  · intro c tr a c' ev _ h hstep
    rcases step_cases hstep with ⟨id, config, seed, now, hnone, rfl, rfl⟩ |
      ⟨id, p, b, r, hp, hr, harrives, rfl, rfl⟩
    · have hβ : refutations (tr ++ [.booted id]) = refutations tr := by
        funext x
        rw [refutations_append]
        rfl
      rw [hβ]
      exact h.boot hnone config seed now
    · refine h.advance hp hr harrives fun x ↦ ?_
      rw [refutations_append]
      simp [refutations, heard]

/-! ## A message that comes in many times -/

/-- A message that was sent once is received once more. -/
theorem receive_again (hrun : (machine sort).Run c tr) {x : NodeId} {p : SwimProtocol}
    {msg : SwimMessage} (hp : c.node x = some p) (hsent : ⟨x, msg⟩ ∈ c.sent) :
    ∃ c' tr', (machine sort).Run c' tr' ∧ c'.node x = some (p.handleMessage sort 0 msg).1 ∧
      ⟨x, msg⟩ ∈ c'.sent ∧ refutations tr' x = refutations tr x + rumours x msg.updates := by
  have hstep : (machine sort).step c (.step x (.receive msg 0)) =
      some (c.advance x (p.handleMessage sort 0 msg).1 (p.handleMessage sort 0 msg).2,
        [.stepped x p (.receive msg 0) (p.handleMessage sort 0 msg).1]) := by
    have harrives : c.arrives x (.receive msg 0) = true := decide_eq_true hsent
    simp only [machine, step, hp, harrives, if_true]
    rfl
  refine ⟨_, _, hrun.step hstep, advance_node_self .., List.mem_append_left _ hsent, ?_⟩
  rw [refutations_append]
  simp [refutations, heard, SwimProtocol.Action.updates]

/-- It is received any number of times. -/
theorem receive_many (hrun : (machine sort).Run c tr) {x : NodeId} {msg : SwimMessage}
    (hnode : (c.node x).isSome) (hsent : ⟨x, msg⟩ ∈ c.sent) (k : ℕ) :
    ∃ c' tr', (machine sort).Run c' tr' ∧ (c'.node x).isSome ∧ ⟨x, msg⟩ ∈ c'.sent ∧
      refutations tr' x = refutations tr x + k * rumours x msg.updates := by
  induction k with
  | zero => exact ⟨c, tr, hrun, hnode, hsent, by rw [Nat.zero_mul, Nat.add_zero]⟩
  | succ k ih =>
      obtain ⟨c₁, tr₁, hrun₁, hnode₁, hsent₁, hcount₁⟩ := ih
      obtain ⟨p, hp⟩ := Option.isSome_iff_exists.mp hnode₁
      obtain ⟨c₂, tr₂, hrun₂, hnode₂, hsent₂, hcount₂⟩ := receive_again hrun₁ hp hsent₁
      refine ⟨c₂, tr₂, hrun₂, by rw [hnode₂]; rfl, hsent₂, ?_⟩
      rw [hcount₂, hcount₁, Nat.succ_mul, Nat.add_assoc]

/-! ## Incarnations -/

/-- **Nobody's incarnation is exceeded.**  In every run of a cluster, for every node that
has answered fewer than 2⁶⁴ rumours about itself: every entry for it in any table, every
queued update about it and every update about it in any message that was ever sent has an
incarnation of at most the node's own. -/
theorem incarnation_bounds (sort : SortByCount) (c : Cluster) (tr : List Event)
    (hrun : (machine sort).Run c tr) (x : NodeId) (p : SwimProtocol) (hp : c.node x = some p)
    (hfew : refutations tr x < 2 ^ 64) :
    (∀ y q e, c.node y = some q → q.members.getNode x = some e →
      e.incarnation ≤ p.incarnation) ∧
    (∀ y q, c.node y = some q → ∀ u ∈ q.disseminator.queue, u.update.node = x →
      u.update.incarnation ≤ p.incarnation) ∧
    ∀ packet ∈ c.sent, ∀ u ∈ packet.msg.updates, u.node = x → u.incarnation ≤ p.incarnation := by
  have h := run_countInv hrun
  have hle : ∀ i : UInt64, i.toNat ≤ refutations tr x → i ≤ p.incarnation := by
    intro i hi
    rw [h.incarnation x p hp, UInt64.le_iff_toNat_le, UInt64.toNat_ofNat', Nat.mod_eq_of_lt hfew]
    exact hi
  refine ⟨fun y q e hq he ↦ ?_, fun y q hq u hu hnode ↦ ?_, fun packet hpacket u hu hnode ↦ ?_⟩
  · exact hle _ ((h.bounded y q hq).entry x e he)
  · exact hle _ (hnode ▸ (h.bounded y q hq).queued u hu)
  · exact hle _ (hnode ▸ h.sent packet hpacket u hu)

/-- The seed of `b` does not answer in time and is suspected, and learns of it when it
probes `b`. -/
def suspectedSeed : List Action :=
  let a : NodeId := ⟨[97], 7946⟩
  let b : NodeId := ⟨[98], 7946⟩
  [.boot a ⟨5000, 0, 8, 11211⟩ none 0, .boot b ⟨5000, 0, 8, 11211⟩ (some (a, 11211)) 0,
    .step b (.probe a), .step a (.receive ⟨.ping, 0, b, none, [⟨.join, b, 0, 11211⟩]⟩ 1),
    .step b (.directDone [] 2), .step a (.probe b),
    .step b (.receive ⟨.ping, 0, a, none, [⟨.join, a, 0, 11211⟩, ⟨.join, b, 0, 11211⟩]⟩ 3)]

/-- The acknowledgement that brings the suspicion to the seed. -/
def suspicion : SwimMessage :=
  ⟨.ack, 0, ⟨[98], 7946⟩, none, [⟨.suspect, ⟨[97], 7946⟩, 0, 0⟩, ⟨.join, ⟨[98], 7946⟩, 0, 11211⟩]⟩

theorem suspectedSeed_run :
    ∃ c tr, (machine .stable).Run c tr ∧ (c.node ⟨[97], 7946⟩).isSome ∧
      ⟨⟨[97], 7946⟩, suspicion⟩ ∈ c.sent ∧ refutations tr ⟨[97], 7946⟩ = 0 := by
  have hexec : ((machine .stable).exec empty suspectedSeed).map (fun r ↦
      ((r.1.node ⟨[97], 7946⟩).isSome, decide (⟨⟨[97], 7946⟩, suspicion⟩ ∈ r.1.sent),
        refutations r.2 ⟨[97], 7946⟩)) = some (true, true, 0) := by
    decide +kernel
  obtain ⟨⟨c, tr⟩, hexec, heq⟩ := Option.map_eq_some_iff.mp hexec
  obtain ⟨hnode, heq⟩ := Prod.mk.inj heq
  obtain ⟨hsent, hcount⟩ := Prod.mk.inj heq
  have hstart : (machine .stable).Run empty [] := .init rfl
  exact ⟨c, _, hstart.exec hexec, hnode, of_decide_eq_true hsent, hcount⟩

/-- The seed has answered the suspicion, and has announced itself at incarnation one. -/
theorem incarnation_bounds_seed :
    ∃ c tr p, (machine .stable).Run c tr ∧ c.node ⟨[97], 7946⟩ = some p ∧ p.incarnation = 1 ∧
      ∀ y q e, c.node y = some q → q.members.getNode ⟨[97], 7946⟩ = some e →
        e.incarnation ≤ p.incarnation := by
  obtain ⟨c₀, tr₀, hrun₀, hnode₀, hsent₀, hcount₀⟩ := suspectedSeed_run
  obtain ⟨p₀, hp₀⟩ := Option.isSome_iff_exists.mp hnode₀
  obtain ⟨c, tr, hrun, hp, -, hcount⟩ := receive_again hrun₀ hp₀ hsent₀
  have hone : refutations tr ⟨[97], 7946⟩ = 1 := by
    rw [hcount, hcount₀]
    decide
  have hbounds := incarnation_bounds .stable c tr hrun ⟨[97], 7946⟩ _ hp (by rw [hone]; decide)
  refine ⟨c, tr, _, hrun, hp, ?_, hbounds.1⟩
  rw [(run_countInv hrun).incarnation _ _ hp, hone]
  rfl

/-- The suspicion comes in 2⁶⁴ times.  The node is back at incarnation zero, and its own
entry is at the largest incarnation. -/
theorem incarnation_goes_round :
    ∃ c tr x p e, (machine .stable).Run c tr ∧ c.node x = some p ∧
      p.members.getNode x = some e ∧ p.incarnation < e.incarnation := by
  obtain ⟨c₀, tr₀, hrun₀, hnode₀, hsent₀, hcount₀⟩ := suspectedSeed_run
  have hrumour : rumours ⟨[97], 7946⟩ suspicion.updates = 1 := by decide
  obtain ⟨c, tr, hrun, hnode, hsent, hcount⟩ := receive_many hrun₀ hnode₀ hsent₀ (2 ^ 64 - 1)
  rw [hrumour, hcount₀, Nat.mul_one, Nat.zero_add] at hcount
  obtain ⟨p, hp⟩ := Option.isSome_iff_exists.mp hnode
  obtain ⟨hself, sent, hprun⟩ := node_run hrun _ p hp
  -- The node's own entry is never behind its incarnation, which is the largest now.
  obtain ⟨e, he, -, hle⟩ :=
    (SwimProtocol.run_invariant hprun SwimProtocol.selfInv_start fun _ _ hc ↦ hc.selfInv).1.entry
  rw [hself] at he
  rw [(run_countInv hrun).incarnation _ p hp, hcount] at hle
  obtain ⟨c', tr', hrun', hp', -, hcount'⟩ := receive_again hrun hp hsent
  rw [hrumour, hcount] at hcount'
  have hexec : (SwimProtocol.machine .stable).exec p [.receive suspicion 0] =
      some ((p.handleMessage .stable 0 suspicion).1, _) := rfl
  obtain ⟨e', he', hrank⟩ := SwimProtocol.exec_onward hprun hexec _ e he
  have hzero : (p.handleMessage .stable 0 suspicion).1.incarnation = 0 := by
    rw [(run_countInv hrun').incarnation _ _ hp', hcount']
    decide
  refine ⟨c', tr', _, _, e', hrun', hp', he', ?_⟩
  rw [hzero]
  have hlast := hle.trans (SwimProtocol.incarnation_le_of_rank_le hrank)
  exact lt_of_lt_of_le (by decide) hlast

end Cluster

end Pensieve
