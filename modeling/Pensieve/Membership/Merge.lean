import Pensieve.Foundation.MaxMap
import Pensieve.Membership.SwimProtocol

/-!
# Merging membership updates

Seen through the ranks of its entries, a member table is a table of rising
registers: every report about a known node, whichever of the two calls it goes
through, raises the rank of that node's entry to its own.  A list of updates about
known nodes is a list of such writes, and its effect is that of the set of updates
in it.
-/

namespace Pensieve

open Foundation

/-- The ranks of the entries. -/
def MemberList.ranks (m : MemberList) (id : NodeId) : Option Rank :=
  (m.getNode id).map NodeInfo.rank

namespace MemberList

variable {m : MemberList}

theorem ranks_isSome (m : MemberList) (id : NodeId) :
    (m.ranks id).isSome = (m.getNode id).isSome :=
  Option.isSome_map

/-- Adding a node that is known raises its rank. -/
theorem ranks_addNode {info e : NodeInfo} (he : m.getNode info.id = some e) :
    (m.addNode info).1.ranks = raise m.ranks info.id info.rank := by
  funext id
  by_cases hid : id = info.id
  · rw [hid, raise_self, ranks, ranks, getNode_addNode, he]
    simp only [Option.map_some, Option.some.injEq]
    split_ifs with hlt
    · exact (max_eq_right hlt.le).symm
    · exact (max_eq_left (not_lt.mp hlt)).symm
  · rw [raise_of_ne hid, ranks, ranks, getNode_addNode_of_ne hid]

/-- Updating a node's state raises its rank. -/
theorem ranks_updateState (m : MemberList) (id : NodeId) (newState : NodeState)
    (incarnation : UInt64) (now : Time) :
    (m.updateState id newState incarnation now).1.ranks =
      raise m.ranks id (toLex (incarnation, newState)) := by
  funext id'
  by_cases hid : id' = id
  · rw [hid, raise_self, ranks, ranks, getNode_updateState]
    rcases m.getNode id with - | e
    · rfl
    · simp only [Option.map_some, Option.some.injEq]
      split_ifs with hlt
      · exact (max_eq_right hlt.le).symm
      · exact (max_eq_left (not_lt.mp hlt)).symm
  · rw [raise_of_ne hid, ranks, ranks, getNode_updateState_of_ne hid]

end MemberList

namespace SwimProtocol

variable {p : SwimProtocol} {u : MembershipUpdate} {us : List MembershipUpdate}

theorem applyUpdate_self (p : SwimProtocol) (now : Time) (u : MembershipUpdate) :
    (p.applyUpdate now u).self = p.self := by
  rw [applyUpdate]
  split_ifs <;> rfl

/-- An update about another node that is known raises the rank of its entry. -/
theorem ranks_applyUpdate (now : Time) (hself : u.node ≠ p.self)
    (hu : (p.members.getNode u.node).isSome) :
    (p.applyUpdate now u).members.ranks = raise p.members.ranks u.node u.rank := by
  obtain ⟨e, he⟩ := Option.isSome_iff_exists.mp hu
  obtain ⟨type, node, incarnation, dataPort⟩ := u
  rw [applyUpdate, if_neg hself]
  cases type with
  | join => exact MemberList.ranks_addNode he
  | alive => exact MemberList.ranks_addNode he
  | suspect => exact MemberList.ranks_updateState ..
  | dead => exact MemberList.ranks_updateState ..
  | leave => exact MemberList.ranks_updateState ..

/-- An update about a node that is not known is lost, unless it says that the node is alive. -/
theorem ranks_applyUpdate_of_unknown (now : Time) (hself : u.node ≠ p.self)
    (hu : p.members.getNode u.node = none) :
    (p.applyUpdate now u).members.ranks u.node =
      if u.type.newState = .alive then some u.rank else none := by
  obtain ⟨type, node, incarnation, dataPort⟩ := u
  have hadd (info : NodeInfo) (hid : info.id = node) :
      (p.members.addNode info).1.ranks node = some info.rank := by
    subst hid
    rw [MemberList.ranks, MemberList.getNode_addNode, hu]
    rfl
  have hupdate (newState : NodeState) :
      (p.members.updateState node newState incarnation now).1.ranks node = none := by
    rw [MemberList.ranks, MemberList.getNode_updateState, hu]
    rfl
  rw [applyUpdate, if_neg hself]
  cases type with
  | join => exact hadd _ rfl
  | alive => exact hadd _ rfl
  | suspect => exact hupdate _
  | dead => exact hupdate _
  | leave => exact hupdate _

/-- An update leaves the entries of nodes that it is not about. -/
theorem ranks_applyUpdate_of_ne (now : Time) {id : NodeId} (hne : id ≠ u.node) :
    (p.applyUpdate now u).members.ranks id = p.members.ranks id := by
  rw [applyUpdate]
  split_ifs with hu
  · rw [hu] at hne
    rw [MemberList.ranks, MemberList.ranks, refute, MemberList.getNode_updateState_of_ne hne]
  · rfl
  · rw [MemberList.ranks, MemberList.ranks, MemberList.getNode_addNode_of_ne hne]
  · rw [MemberList.ranks, MemberList.ranks, MemberList.getNode_updateState_of_ne hne]

/-- An update does to the entry of another node that is known what a write does. -/
theorem ranks_applyUpdate_of_known (now : Time) (u : MembershipUpdate) {id : NodeId}
    (hself : id ≠ p.self) (hid : (p.members.getNode id).isSome) :
    (p.applyUpdate now u).members.ranks id = raise p.members.ranks u.node u.rank id := by
  by_cases hnode : u.node = id
  · subst hnode
    rw [ranks_applyUpdate now hself hid]
  · have hne : id ≠ u.node := Ne.symm hnode
    rw [raise_of_ne hne, ranks_applyUpdate_of_ne now hne]

/-- Any list of updates does to it what a list of writes does. -/
theorem ranks_applyUpdates_of_known (now : Time) (us : List MembershipUpdate) {id : NodeId}
    (hself : id ≠ p.self) (hid : (p.members.getNode id).isSome) :
    (p.applyUpdates now us).members.ranks id =
      raiseAll MembershipUpdate.node MembershipUpdate.rank p.members.ranks us id := by
  induction us generalizing p with
  | nil => rfl
  | cons u us ih =>
      have hranks := ranks_applyUpdate_of_known now u hself hid
      refine (ih (by rwa [applyUpdate_self]) ?_).trans (raiseAll_congr us hranks)
      rw [← MemberList.ranks_isSome, hranks, raise_isSome, MemberList.ranks_isSome]
      exact hid

/-- A list of updates about known nodes is a list of writes. -/
theorem ranks_applyUpdates (now : Time)
    (h : ∀ u ∈ us, u.node ≠ p.self ∧ (p.members.getNode u.node).isSome) :
    (p.applyUpdates now us).members.ranks =
      raiseAll MembershipUpdate.node MembershipUpdate.rank p.members.ranks us := by
  induction us generalizing p with
  | nil => rfl
  | cons u us ih =>
      obtain ⟨hself, hu⟩ := h u List.mem_cons_self
      have hranks := ranks_applyUpdate now hself hu
      refine (ih fun v hv ↦ ?_).trans ?_
      · obtain ⟨hvself, hvu⟩ := h v (List.mem_cons_of_mem _ hv)
        refine ⟨by rwa [applyUpdate_self], ?_⟩
        rw [← MemberList.ranks_isSome, hranks, raise_isSome, MemberList.ranks_isSome]
        exact hvu
      · rw [hranks]
        rfl

/-- **Merging is order-independent.**  Two lists of updates about known other
nodes that hold the same updates, in any order and with any repetitions, leave
every node with the same incarnation and state: the lexicographic maximum of those
of its entry and of the updates about it. -/
theorem applyUpdates_order_independent (p : SwimProtocol) (us vs : List MembershipUpdate)
    (now now' : Time)
    (hknown : ∀ u ∈ us, u.node ≠ p.self ∧ (p.members.getNode u.node).isSome)
    (hsame : ∀ u, u ∈ us ↔ u ∈ vs) (id : NodeId) :
    match p.members.getNode id with
    | none =>
      (p.applyUpdates now us).members.getNode id = none ∧
        (p.applyUpdates now' vs).members.getNode id = none
    | some e =>
      ∃ e₁ e₂, (p.applyUpdates now us).members.getNode id = some e₁ ∧
        (p.applyUpdates now' vs).members.getNode id = some e₂ ∧
        e₁.incarnation = e₂.incarnation ∧ e₁.state = e₂.state ∧
        IsGreatest (insert (toLex (e.incarnation, e.state))
          {r | ∃ u ∈ us, u.node = id ∧ toLex (u.incarnation, u.type.newState) = r})
          (toLex (e₁.incarnation, e₁.state)) := by
  have hus := congrFun (ranks_applyUpdates now hknown) id
  have hvs := congrFun (ranks_applyUpdates now'
    fun v hv ↦ hknown v ((hsame v).mpr hv)) id
  rcases he : p.members.getNode id with - | e
  · have hnone : p.members.ranks id = none := by rw [MemberList.ranks, he, Option.map_none]
    rw [raiseAll_eq_none _ hnone] at hus hvs
    exact ⟨Option.map_eq_none_iff.mp hus, Option.map_eq_none_iff.mp hvs⟩
  · have hsome : p.members.ranks id = some e.rank := by rw [MemberList.ranks, he, Option.map_some]
    obtain ⟨r₁, hr₁, hgt₁⟩ := raiseAll_eq_some MembershipUpdate.node MembershipUpdate.rank us hsome
    obtain ⟨r₂, hr₂, hgt₂⟩ := raiseAll_eq_some MembershipUpdate.node MembershipUpdate.rank vs hsome
    obtain ⟨e₁, he₁, rfl⟩ := Option.map_eq_some_iff.mp (hus.trans hr₁)
    obtain ⟨e₂, he₂, rfl⟩ := Option.map_eq_some_iff.mp (hvs.trans hr₂)
    have hwritten : written MembershipUpdate.node MembershipUpdate.rank vs id =
        written MembershipUpdate.node MembershipUpdate.rank us id := by
      simp only [written, hsame]
    rw [hwritten] at hgt₂
    have heq : (e₁.incarnation, e₁.state) = (e₂.incarnation, e₂.state) := hgt₁.unique hgt₂
    exact ⟨e₁, e₂, he₁, he₂, congrArg Prod.fst heq, congrArg Prod.snd heq, hgt₁⟩

/-- A suspicion of the seed and its refutation, which comes in late or twice. -/
theorem applyUpdates_order_independent_seed :
    let seed : NodeId := ⟨[98], 7946⟩
    let p := start ⟨5000, 3, 8, 11211⟩ ⟨[97], 7946⟩ (some (seed, 11211)) 0
    let us : List MembershipUpdate := [⟨.suspect, seed, 0, 0⟩, ⟨.alive, seed, 1, 11211⟩]
    let vs : List MembershipUpdate :=
      [⟨.alive, seed, 1, 11211⟩, ⟨.suspect, seed, 0, 0⟩, ⟨.alive, seed, 1, 11211⟩]
    ∃ e₁ e₂, (p.applyUpdates 1 us).members.getNode seed = some e₁ ∧
      (p.applyUpdates 2 vs).members.getNode seed = some e₂ ∧
      e₁.incarnation = e₂.incarnation ∧ e₁.state = e₂.state := by
  intro seed p us vs
  have hsame : ∀ u, u ∈ us ↔ u ∈ vs := by
    intro u
    simp only [us, vs, List.mem_cons, List.not_mem_nil, or_false]
    tauto
  obtain ⟨e₁, e₂, he₁, he₂, hinc, hstate, -⟩ :=
    applyUpdates_order_independent p us vs 1 2 (by decide +kernel) hsame seed
  exact ⟨e₁, e₂, he₁, he₂, hinc, hstate⟩

end SwimProtocol

end Pensieve
