import Pensieve.Membership.Change
import Pensieve.Membership.Merge

/-!
# Passing on what was heard

`docs/epics.md` asks for infection-style dissemination: whoever learns of a change passes it
on.  A node queues what it finds out by itself: that a sender has joined, that a member has
failed, and its answers to rumours.  What it is told about other nodes it records, but
`apply_updates` queues none of it.

So a change that a message brings is passed on only if the queue had an update about it
already, or if it is that the sender is new (`passed_on_iff`).
-/

namespace Pensieve

open Foundation

/-- The queue has an update about `x` that is not older than `r`. -/
def Disseminator.Covers (d : Disseminator) (x : NodeId) (r : Rank) : Prop :=
  ∃ e ∈ d.queue, e.update.node = x ∧ r ≤ e.update.rank

/-- Nothing is older than an arrival. -/
theorem zero_alive_le (r : Rank) : toLex (0, .alive) ≤ r := by
  obtain ⟨incarnation, state⟩ := r
  refine Prod.Lex.toLex_le_toLex.mpr ?_
  rcases eq_or_lt_of_le (UInt64.zero_le (a := incarnation)) with hzero | hpos
  · exact Or.inr ⟨hzero, Nat.zero_le _⟩
  · exact Or.inl hpos

namespace SwimProtocol

variable {sort : SortByCount} {G : MembershipUpdate → Prop} {p p' : SwimProtocol} {x : NodeId}
  {r : Rank}

/-- An update about `x` that is not older than `r` is in the queue, or on its way in a
message just sent. -/
def PassedOn (x : NodeId) (r : Rank) (res : SwimProtocol × List Packet) : Prop :=
  res.1.disseminator.Covers x r ∨
    ∃ packet ∈ res.2, ∃ u ∈ packet.msg.updates, u.node = x ∧ r ≤ u.rank

/-- Every queued update may still be handed out. -/
structure Unspent (p : SwimProtocol) : Prop where
  pos : 0 < p.disseminator.maxTransmissions
  count : ∀ e ∈ p.disseminator.queue,
    e.transmitCount.toNat < p.disseminator.maxTransmissions

theorem Unspent.enqueue (h : p.Unspent) (u : MembershipUpdate) :
    ∀ e ∈ (p.disseminator.enqueue u).queue,
      e.transmitCount.toNat < p.disseminator.maxTransmissions := by
  intro e he
  rcases Disseminator.mem_enqueueIn he with rfl | he
  · exact h.pos
  · exact h.count e he

theorem Change.unspent (h : Change sort G p p') (hp : p.Unspent) : p'.Unspent := by
  cases h with
  | enqueue u => exact ⟨hp.pos, hp.enqueue u⟩
  | getUpdates limit =>
      exact ⟨hp.pos, fun _ ↦ Disseminator.transmitCount_of_getUpdates (d := p.disseminator)⟩
  | refute now => exact ⟨hp.pos, hp.enqueue _⟩
  | addNode => exact ⟨hp.pos, hp.count⟩
  | updateState => exact ⟨hp.pos, hp.count⟩
  | book => exact ⟨hp.pos, hp.count⟩

theorem unspent_start (config : SwimConfig) (self : NodeId) (seed : Option (NodeId × UInt16))
    (now : Time) : (start config self seed now).Unspent := by
  refine ⟨Nat.succ_pos _, fun e he ↦ ?_⟩
  obtain rfl := List.mem_singleton.mp he
  exact Nat.succ_pos _

/-! ## The queue through a message -/

/-- What is queued about one node is not affected by an update about another. -/
theorem covers_enqueue_of_ne {d : Disseminator} {u : MembershipUpdate} (hx : x ≠ u.node) :
    (d.enqueue u).Covers x r ↔ d.Covers x r := by
  constructor
  · rintro ⟨e, he, hnode, hr⟩
    rcases Disseminator.mem_enqueueIn he with rfl | he
    · exact absurd hnode.symm hx
    · exact ⟨e, he, hnode, hr⟩
  · rintro ⟨e, he, hnode, hr⟩
    refine ⟨e, Disseminator.mem_enqueueIn_of_mem he fun heq ↦ ?_, hnode, hr⟩
    exact absurd (hnode.symm.trans heq) hx

/-- An arrival supersedes nothing that is queued. -/
theorem covers_enqueue_join {d : Disseminator} {port : UInt16} :
    (d.enqueue ⟨.join, x, 0, port⟩).Covers x r ↔ d.Covers x r ∨ r = toLex (0, .alive) := by
  constructor
  · rintro ⟨e, he, hnode, hr⟩
    rcases Disseminator.mem_enqueueIn he with rfl | he
    · exact Or.inr (le_antisymm hr (zero_alive_le r))
    · exact Or.inl ⟨e, he, hnode, hr⟩
  · rintro (⟨e, he, hnode, hr⟩ | rfl)
    · refine ⟨e, Disseminator.mem_enqueueIn_of_mem he fun _ ↦ ?_, hnode, hr⟩
      simp [Disseminator.supersedes, UpdateType.toNat]
    · obtain ⟨e, he, hcase⟩ := Disseminator.exists_mem_enqueueIn ⟨.join, x, 0, port⟩ d.queue
      refine ⟨e, he, ?_, zero_alive_le _⟩
      rcases hcase with hnew | ⟨-, hnode, -⟩
      · rw [hnew]
      · exact hnode

/-- A new sender is queued. -/
theorem covers_welcome (now : Time) (msg : SwimMessage) (hx : x ≠ p.self) :
    (p.welcome now msg).disseminator.Covers x r ↔
      p.disseminator.Covers x r ∨
        (x = msg.sender ∧ p.members.getNode x = none ∧ r = toLex (0, .alive)) := by
  rw [welcome]
  split_ifs with hnew
  · by_cases hsender : x = msg.sender
    · subst hsender
      refine covers_enqueue_join.trans (or_congr_right ?_)
      exact ⟨fun hr ↦ ⟨rfl, hnew.2, hr⟩, fun h ↦ h.2.2⟩
    · refine (covers_enqueue_of_ne hsender).trans ?_
      exact ⟨Or.inl, fun h ↦ h.resolve_right fun hright ↦ hsender hright.1⟩
  · refine ⟨Or.inl, fun h ↦ h.resolve_right ?_⟩
    rintro ⟨rfl, hnone, -⟩
    exact hnew ⟨hx, hnone⟩

/-- What a node is told about others does not change what it has queued about them. -/
theorem covers_applyUpdates (now : Time) (us : List MembershipUpdate) (hx : x ≠ p.self) :
    (p.applyUpdates now us).disseminator.Covers x r ↔ p.disseminator.Covers x r := by
  induction us generalizing p with
  | nil => rfl
  | cons u us ih =>
      have hchanges : Changes .stable (fun _ ↦ True) p (p.applyUpdate now u) :=
        applyUpdate_changes p now trivial
      have hself := hchanges.self_eq
      rw [applyUpdates, List.foldl_cons, ← applyUpdates, ih (by rw [hself]; exact hx),
        applyUpdate]
      split_ifs
      · exact covers_enqueue_of_ne hx
      · rfl
      · rfl
      · rfl

/-- The reply hands out what is queued, or leaves it there. -/
theorem passedOn_sendWithUpdates (hp : p.Unspent) (type : SwimMessageType) (seqNum : UInt32)
    (target : Option NodeId) (dest : NodeId) :
    PassedOn x r (p.sendWithUpdates sort type seqNum target dest) ↔
      p.disseminator.Covers x r := by
  constructor
  · rintro (⟨e, he, hnode, hr⟩ | ⟨packet, hpacket, u, hu, hnode, hr⟩)
    · obtain ⟨e', he', hupdate⟩ := Disseminator.update_mem_of_getUpdates he
      exact ⟨e', he', hupdate ▸ hnode, hupdate ▸ hr⟩
    · obtain rfl := List.mem_singleton.mp hpacket
      obtain ⟨e, he, rfl⟩ := Disseminator.mem_of_mem_getUpdates hu
      exact ⟨e, he, hnode, hr⟩
  · rintro ⟨e, he, hnode, hr⟩
    rcases Disseminator.mem_getUpdates sort p.config.maxPiggybackUpdates he (hp.count e he)
      with hsent | hleft
    · exact Or.inr ⟨_, List.mem_singleton.mpr rfl, e.update, hsent, hnode, hr⟩
    · exact Or.inl ⟨e, hleft, hnode, hr⟩

/-- Messages without updates pass nothing on. -/
theorem passedOn_of_silent {sent : List Packet} (h : ∀ packet ∈ sent, packet.msg.updates = []) :
    PassedOn x r (p, sent) ↔ p.disseminator.Covers x r := by
  refine ⟨fun hpassed ↦ hpassed.resolve_right ?_, Or.inl⟩
  rintro ⟨packet, hpacket, u, hu, -⟩
  rw [h packet hpacket] at hu
  cases hu

theorem passedOn_dispatch (hp : p.Unspent) (now : Time) (msg : SwimMessage) :
    PassedOn x r (p.dispatch sort now msg) ↔ p.disseminator.Covers x r := by
  rw [dispatch]
  split
  · exact passedOn_sendWithUpdates hp ..
  · exact passedOn_of_silent (List.forall_mem_nil _)
  · split
    · exact passedOn_of_silent (List.forall_mem_nil _)
    · refine passedOn_of_silent fun packet hpacket ↦ ?_
      obtain rfl := List.mem_singleton.mp hpacket
      rfl

/-! ## What is recorded -/

/-- What a message says of `x` that counts: a report on a stranger is ignored, until one comes
that it is alive. -/
def news (p : SwimProtocol) (msg : SwimMessage) (x : NodeId) : List MembershipUpdate :=
  let about := msg.updates.filter (·.node = x)
  if (p.members.getNode x).isSome ∨ x = msg.sender then about
  else about.dropWhile (·.type.newState ≠ .alive)

/-- An entry rises to what is reported of it. -/
theorem rank_le_iff_of_known (now : Time) (us : List MembershipUpdate) (hx : x ≠ p.self) {b : Rank}
    (hb : p.members.ranks x = some b) (hr : (p.applyUpdates now us).members.ranks x = some r)
    (t : Rank) : r ≤ t ↔ b ≤ t ∧ ∀ u ∈ us.filter (·.node = x), u.rank ≤ t := by
  have hknown : (p.members.getNode x).isSome := by
    rw [← MemberList.ranks_isSome, hb]
    rfl
  obtain ⟨r', hr', hgreatest⟩ := raiseAll_eq_some MembershipUpdate.node MembershipUpdate.rank us hb
  rw [ranks_applyUpdates_of_known now us hx hknown, hr', Option.some_inj] at hr
  subst hr
  rw [isLUB_le_iff hgreatest.isLUB, upperBounds_insert]
  constructor
  · rintro ⟨hle, hupper⟩
    refine ⟨hle, fun u hu ↦ ?_⟩
    obtain ⟨hmem, hnode⟩ := List.mem_filter.mp hu
    exact hupper ⟨u, hmem, of_decide_eq_true hnode, rfl⟩
  · rintro ⟨hle, hall⟩
    refine ⟨hle, ?_⟩
    rintro _ ⟨u, hu, hnode, rfl⟩
    exact hall u (List.mem_filter.mpr ⟨hu, decide_eq_true hnode⟩)

/-- A stranger that is reported alive rises to this and what is reported of it afterwards. -/
theorem rank_le_iff_of_stranger (now : Time) (us : List MembershipUpdate) (hx : x ≠ p.self)
    (hnone : p.members.ranks x = none) (hr : (p.applyUpdates now us).members.ranks x = some r)
    (t : Rank) :
    r ≤ t ↔ ∀ u ∈ (us.filter (·.node = x)).dropWhile (·.type.newState ≠ .alive), u.rank ≤ t := by
  induction us generalizing p with
  | nil => cases hnone.symm.trans hr
  | cons u us ih =>
      have hx' : x ≠ (p.applyUpdate now u).self := by rwa [applyUpdate_self]
      by_cases hnode : u.node = x
      · subst hnode
        have hranks := ranks_applyUpdate_of_unknown now hx (Option.map_eq_none_iff.mp hnone)
        rw [List.filter_cons_of_pos (by simp)]
        by_cases halive : u.type.newState = .alive
        · rw [if_pos halive] at hranks
          rw [List.dropWhile_cons_of_neg (by simpa using halive),
            rank_le_iff_of_known now us hx' hranks hr, List.forall_mem_cons]
        · rw [if_neg halive] at hranks
          rw [List.dropWhile_cons_of_pos (by simpa using halive), ih hx' hranks hr]
      · have hstill : (p.applyUpdate now u).members.ranks x = none :=
          (ranks_applyUpdate_of_ne now (Ne.symm hnode)).trans hnone
        rw [List.filter_cons_of_neg (by simpa using hnode), ih hx' hstill hr]

theorem ranks_welcome (now : Time) (msg : SwimMessage) (hx : x ≠ p.self) :
    (p.welcome now msg).members.ranks x =
      if p.members.getNode x = none ∧ x = msg.sender then some (toLex (0, .alive))
      else p.members.ranks x := by
  rw [welcome]
  split_ifs with hnew hx' hx'
  · obtain ⟨hnone, rfl⟩ := hx'
    rw [MemberList.ranks, MemberList.getNode_addNode, hnone]
    rfl
  · have hne : x ≠ msg.sender := by
      rintro rfl
      exact hx' ⟨hnew.2, rfl⟩
    rw [MemberList.ranks, MemberList.ranks, MemberList.getNode_addNode_of_ne hne]
  · obtain ⟨hnone, rfl⟩ := hx'
    exact absurd ⟨hx, hnone⟩ hnew
  · rfl

/-- An entry that a message changes is as new as the newest of what the message says that
counts. -/
theorem rank_le_iff_news (sort : SortByCount) (now : Time) (msg : SwimMessage) (hx : x ≠ p.self)
    (hr : (p.handleMessage sort now msg).1.members.ranks x = some r)
    (hnew : p.members.ranks x ≠ some r) (t : Rank) : r ≤ t ↔ ∀ u ∈ p.news msg x, u.rank ≤ t := by
  have hwelcome : Quiets sort (fun _ ↦ True) p (p.welcome now msg) :=
    welcome_quiets p now trivial
  have hx' : x ≠ (p.welcome now msg).self := by rwa [hwelcome.changes.self_eq]
  have hranks := ranks_welcome now msg hx
  rw [handleMessage, dispatch_members] at hr
  rw [news]
  rcases he : p.members.ranks x with - | b
  · have hnone := Option.map_eq_none_iff.mp he
    by_cases hsender : x = msg.sender
    · rw [if_pos ⟨hnone, hsender⟩] at hranks
      rw [if_pos (Or.inr hsender), rank_le_iff_of_known now _ hx' hranks hr,
        and_iff_right (zero_alive_le t)]
    · rw [if_neg fun h ↦ hsender h.2, he] at hranks
      rw [if_neg (by simp [hnone, hsender]), rank_le_iff_of_stranger now _ hx' hranks hr]
  · have hsome : (p.members.getNode x).isSome := by
      rw [← MemberList.ranks_isSome, he]
      rfl
    rw [if_neg fun h ↦ Option.isSome_iff_ne_none.mp hsome h.1, he] at hranks
    rw [if_pos (Or.inl hsome), rank_le_iff_of_known now _ hx' hranks hr]
    refine ⟨And.right, fun hall ↦ ⟨le_of_not_gt fun hlt ↦ hnew ?_, hall⟩⟩
    -- otherwise the message says nothing that is newer than the entry was
    have hrb : r ≤ b :=
      (rank_le_iff_of_known now _ hx' hranks hr b).mpr ⟨le_rfl, fun u hu ↦ (hall u hu).trans hlt.le⟩
    have hbr : b ≤ r := ((rank_le_iff_of_known now _ hx' hranks hr r).mp le_rfl).1
    rw [he, le_antisymm hbr hrb]

/-- **Gossip is not passed on.**  In every state of every run of a node, for every message
and every other member whose recorded incarnation or state it changes: an update about the
member that is not older than the new entry is queued or goes out with the reply, if and only
if the queue had one that is not older than anything the message says of the member, or the
member is the sender, was unknown, and the message says nothing of it but that it is alive at
incarnation zero. -/
theorem passed_on_iff (sort : SortByCount) (p : SwimProtocol) (tr : List Packet)
    (hrun : (machine sort).Run p tr) (msg : SwimMessage) (now : Time) (x : NodeId)
    (hx : x ≠ p.self) :
    ∀ e, (p.handleMessage sort now msg).1.members.getNode x = some e →
      (p.members.getNode x).map NodeInfo.rank ≠ some e.rank →
      (PassedOn x e.rank (p.handleMessage sort now msg) ↔
        (∃ q ∈ p.disseminator.queue, q.update.node = x ∧
          ∀ u ∈ p.news msg x, u.rank ≤ q.update.rank) ∨
        x = msg.sender ∧ p.members.getNode x = none ∧
          ∀ u ∈ p.news msg x, u.rank ≤ toLex (0, .alive)) := by
  intro e he hnew
  have hbefore : Changes sort (fun _ ↦ True) p (p.beforeUpdate now msg msg.updates) :=
    beforeUpdate_changes p now trivial fun _ _ ↦ trivial
  have hwelcome : Quiets sort (fun _ ↦ True) p (p.welcome now msg) :=
    welcome_quiets p now trivial
  have hunspent : (p.beforeUpdate now msg msg.updates).Unspent :=
    hbefore.invariant (fun _ _ hc ↦ hc.unspent)
      (run_invariant hrun unspent_start fun _ _ hc ↦ hc.unspent).1
  have hx' : x ≠ (p.welcome now msg).self := by
    rw [hwelcome.changes.self_eq]
    exact hx
  have hranks : (p.handleMessage sort now msg).1.members.ranks x = some e.rank := by
    rw [MemberList.ranks, he, Option.map_some]
  simp only [← rank_le_iff_news sort now msg hx hranks hnew]
  have hzero : e.rank ≤ toLex (0, .alive) ↔ e.rank = toLex (0, .alive) :=
    ⟨fun hle ↦ le_antisymm hle (zero_alive_le _), le_of_eq⟩
  rw [hzero]
  exact (passedOn_dispatch hunspent now msg).trans
    ((covers_applyUpdates now msg.updates hx').trans (covers_welcome now msg hx))

/-- A sender that is new is passed on. -/
theorem passed_on_iff_sender :
    let sender : NodeId := ⟨[98], 7946⟩
    let p := start ⟨5000, 3, 8, 11211⟩ ⟨[97], 7946⟩ none 0
    let msg : SwimMessage := ⟨.ping, 0, sender, none, [⟨.join, sender, 0, 11211⟩]⟩
    (p.handleMessage .stable 1 msg).1.members.getNode sender =
        some ⟨sender, 11211, .alive, 0, 1⟩ ∧
      PassedOn sender (toLex (0, .alive)) (p.handleMessage .stable 1 msg) := by
  intro sender p msg
  have hrun : (machine .stable).Run p [] := .init ⟨_, _, _, _, rfl⟩
  have he : (p.handleMessage .stable 1 msg).1.members.getNode sender =
      some ⟨sender, 11211, .alive, 0, 1⟩ := by
    decide +kernel
  have hnone : p.members.getNode sender = none := by decide +kernel
  refine ⟨he, (passed_on_iff .stable p [] hrun msg 1 sender (by decide +kernel) _ he ?_).mpr
    (Or.inr ⟨rfl, hnone, by decide +kernel⟩)⟩
  rw [hnone]
  exact fun h ↦ nomatch h

/-- The seed tells a node of a third one.  The node records it, and says nothing of it: there
is no update about it in the queue or in the reply. -/
theorem newcomer_kept_quiet :
    let self : NodeId := ⟨[97], 7946⟩
    let seed : NodeId := ⟨[98], 7946⟩
    let third : NodeId := ⟨[99], 7946⟩
    let p := start ⟨5000, 3, 8, 11211⟩ self (some (seed, 11211)) 0
    let msg : SwimMessage := ⟨.ping, 0, seed, none, [⟨.join, third, 0, 11211⟩]⟩
    (machine .stable).Run p [] ∧ third ≠ p.self ∧ p.members.getNode third = none ∧
      (p.handleMessage .stable 1 msg).1.members.getNode third =
        some ⟨third, 11211, .alive, 0, 1⟩ ∧
      (p.handleMessage .stable 1 msg).1.disseminator.queue.map (·.update.node) = [self] ∧
      (p.handleMessage .stable 1 msg).2 =
        [⟨seed, ⟨.ack, 0, self, none, [⟨.join, self, 0, 11211⟩]⟩⟩] ∧
      ¬ PassedOn third (toLex (0, .alive)) (p.handleMessage .stable 1 msg) := by
  intro self seed third p msg
  have hqueue : (p.handleMessage .stable 1 msg).1.disseminator.queue.map (·.update.node) =
      [self] := by
    decide +kernel
  have hsent : (p.handleMessage .stable 1 msg).2 =
      [⟨seed, ⟨.ack, 0, self, none, [⟨.join, self, 0, 11211⟩]⟩⟩] := by
    decide +kernel
  refine ⟨.init ⟨_, _, _, _, rfl⟩, by decide +kernel, by decide +kernel, by decide +kernel,
    hqueue, hsent, ?_⟩
  rintro (⟨e, he, hnode, -⟩ | ⟨packet, hpacket, u, hu, hnode, -⟩)
  · have hmem : e.update.node ∈ (p.handleMessage .stable 1 msg).1.disseminator.queue.map
        (·.update.node) := List.mem_map_of_mem he
    rw [hqueue, hnode] at hmem
    exact absurd hmem (by decide)
  · rw [hsent] at hpacket
    obtain rfl := List.mem_singleton.mp hpacket
    obtain rfl := List.mem_singleton.mp hu
    exact absurd hnode (by decide)

end SwimProtocol

end Pensieve
