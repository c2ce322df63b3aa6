import Mathlib.Data.List.AList
import Pensieve.Membership.NodeInfo

/-!
# The member table

`src/membership/member_list.cpp`.  `add_node` and `update_state` decide by two
separately written tests whether a report about a node replaces what is recorded
of it.  Both come to one rule: the recorded rank has to be strictly smaller
(`getNode_addNode`, `getNode_updateState`).

The calls of the `on_change_` callback are kept as a list, oldest first.  The
random choices of peers are given by what they may return.
-/

namespace Pensieve

/-- The member table and the calls that it has made to its callback. -/
structure MemberList where
  nodes : AList fun _ : NodeId ↦ NodeInfo
  changes : List (NodeId × NodeInfo)
deriving DecidableEq

namespace MemberList

def empty : MemberList := ⟨∅, []⟩

/-- `get_node`. -/
def getNode (m : MemberList) (id : NodeId) : Option NodeInfo := m.nodes.lookup id

/-- `notify`: report what is now recorded of `id`. -/
def notify (m : MemberList) (id : NodeId) : MemberList :=
  match m.nodes.lookup id with
  | none => m
  | some info => { m with changes := m.changes ++ [(id, info)] }

/-- Write an entry and report it. -/
def record (m : MemberList) (id : NodeId) (info : NodeInfo) : MemberList :=
  notify { m with nodes := m.nodes.insert id info } id

/-- `add_node`. -/
def addNode (m : MemberList) (info : NodeInfo) : MemberList × Bool :=
  match m.nodes.lookup info.id with
  | some e =>
    if info.incarnation > e.incarnation ||
        (info.incarnation = e.incarnation && stateSupersedes info.state e.state) then
      (m.record info.id info, true)
    else (m, false)
  | none => (m.record info.id info, true)

/-- `remove_node`. -/
def removeNode (m : MemberList) (id : NodeId) (now : Time) : MemberList × Bool :=
  match m.nodes.lookup id with
  | none => (m, false)
  | some _ =>
    let removed : NodeInfo :=
      { id, dataPort := 0, state := .dead, incarnation := 0, lastStateChange := now }
    ({ nodes := m.nodes.erase id, changes := m.changes ++ [(id, removed)] }, true)

/-- `update_state`. -/
def updateState (m : MemberList) (id : NodeId) (newState : NodeState) (incarnation : UInt64)
    (now : Time) : MemberList × Bool :=
  match m.nodes.lookup id with
  | none => (m, false)
  | some n =>
    if incarnation > n.incarnation then
      (m.record id { n with state := newState, incarnation, lastStateChange := now }, true)
    else if incarnation = n.incarnation && stateSupersedes newState n.state then
      (m.record id { n with state := newState, lastStateChange := now }, true)
    else (m, false)

/-- `alive_peers`. -/
def alivePeers (m : MemberList) (excluding : NodeId) : List NodeId :=
  (m.nodes.entries.filter fun e ↦ e.1 ≠ excluding && e.2.state = .alive).map Sigma.fst

/-- What `random_peers` may return: all the peers if there are at most `k`, in the order in which
the table lists them, which can be any, and otherwise `k` of them. -/
def IsRandomPeers (m : MemberList) (k : ℕ) (excluding : NodeId) (peers : List NodeId) : Prop :=
  if (m.alivePeers excluding).length ≤ k then peers.Perm (m.alivePeers excluding)
  else peers.length = k ∧ List.Subperm peers (m.alivePeers excluding)

instance decidableIsRandomPeers (m : MemberList) (k : ℕ) (excluding : NodeId)
    (peers : List NodeId) : Decidable (m.IsRandomPeers k excluding peers) :=
  inferInstanceAs (Decidable (if (m.alivePeers excluding).length ≤ k then
      peers.Perm (m.alivePeers excluding)
    else peers.length = k ∧ List.Subperm peers (m.alivePeers excluding)))

/-! ## What the calls do to an entry -/

theorem notify_nodes (m : MemberList) (id : NodeId) : (m.notify id).nodes = m.nodes := by
  rw [notify]
  split <;> rfl

theorem getNode_record_self (m : MemberList) (id : NodeId) (info : NodeInfo) :
    (m.record id info).getNode id = some info := by
  rw [record, getNode, notify_nodes]
  exact AList.lookup_insert _

theorem getNode_record_of_ne {m : MemberList} {id id' : NodeId} {info : NodeInfo} (h : id' ≠ id) :
    (m.record id info).getNode id' = m.getNode id' := by
  rw [record, getNode, notify_nodes]
  exact AList.lookup_insert_ne h

section

variable {m : MemberList} {id : NodeId} {info e : NodeInfo} {newState : NodeState}
  {incarnation : UInt64} {now : Time}

/-- A report about somebody of the same or a higher rank is ignored. -/
theorem addNode_of_not_lt (he : m.getNode info.id = some e) (h : ¬ e.rank < info.rank) :
    (m.addNode info).1 = m := by
  rw [NodeInfo.rank.eq_def info, NodeInfo.rank_lt_iff] at h
  rw [getNode] at he
  simp only [addNode, he]
  rw [if_neg (by simpa using h)]

/-- Otherwise it is recorded. -/
theorem addNode_of_lt (h : ∀ e, m.getNode info.id = some e → e.rank < info.rank) :
    (m.addNode info).1 = m.record info.id info := by
  rcases he : m.nodes.lookup info.id with - | e
  · simp only [addNode, he]
  · have hlt := h e he
    rw [NodeInfo.rank.eq_def info, NodeInfo.rank_lt_iff] at hlt
    simp only [addNode, he]
    rw [if_pos (by simpa using hlt)]

theorem updateState_of_not_lt
    (h : ∀ e, m.getNode id = some e → ¬ e.rank < toLex (incarnation, newState)) :
    (m.updateState id newState incarnation now).1 = m := by
  rcases he : m.nodes.lookup id with - | e
  · simp only [updateState, he]
  · have hge := h e he
    rw [NodeInfo.rank_lt_iff, not_or] at hge
    simp only [updateState, he]
    rw [if_neg hge.1, if_neg (by simpa using hge.2)]

theorem updateState_of_lt (he : m.getNode id = some e)
    (h : e.rank < toLex (incarnation, newState)) :
    (m.updateState id newState incarnation now).1 =
      m.record id { e with state := newState, incarnation, lastStateChange := now } := by
  rw [NodeInfo.rank_lt_iff] at h
  rw [getNode] at he
  simp only [updateState, he]
  by_cases hgt : incarnation > e.incarnation
  · rw [if_pos hgt]
  · obtain ⟨rfl, hsup⟩ := h.resolve_left hgt
    rw [if_neg hgt, if_pos (by simpa using hsup)]

end

theorem getNode_addNode_of_ne {m : MemberList} {info : NodeInfo} {id : NodeId} (h : id ≠ info.id) :
    (m.addNode info).1.getNode id = m.getNode id := by
  by_cases hlt : ∀ e, m.getNode info.id = some e → e.rank < info.rank
  · rw [addNode_of_lt hlt, getNode_record_of_ne h]
  · push Not at hlt
    obtain ⟨e, he, hge⟩ := hlt
    rw [addNode_of_not_lt he (not_lt.mpr hge)]

/-- An added entry replaces one of smaller rank. -/
theorem getNode_addNode (m : MemberList) (info : NodeInfo) :
    (m.addNode info).1.getNode info.id = some (match m.getNode info.id with
      | some e => if e.rank < info.rank then info else e
      | none => info) := by
  rcases he : m.getNode info.id with - | e
  · rw [addNode_of_lt (fun e h ↦ by cases he.symm.trans h), getNode_record_self]
  · by_cases hlt : e.rank < info.rank
    · have hall : ∀ e', m.getNode info.id = some e' → e'.rank < info.rank := by
        rw [he]
        rintro e' ⟨⟩
        exact hlt
      rw [addNode_of_lt hall, getNode_record_self]
      simp [hlt]
    · rw [addNode_of_not_lt he hlt, he]
      simp [hlt]

theorem getNode_updateState_of_ne {m : MemberList} {id id' : NodeId} {newState : NodeState}
    {incarnation : UInt64} {now : Time} (h : id' ≠ id) :
    (m.updateState id newState incarnation now).1.getNode id' = m.getNode id' := by
  by_cases hlt : ∀ e, m.getNode id = some e → ¬ e.rank < toLex (incarnation, newState)
  · rw [updateState_of_not_lt hlt]
  · push Not at hlt
    obtain ⟨e, he, hlt⟩ := hlt
    rw [updateState_of_lt he hlt, getNode_record_of_ne h]

/-- A state update rewrites an entry of smaller rank. -/
theorem getNode_updateState (m : MemberList) (id : NodeId) (newState : NodeState)
    (incarnation : UInt64) (now : Time) :
    (m.updateState id newState incarnation now).1.getNode id = (m.getNode id).map fun e ↦
      if e.rank < toLex (incarnation, newState) then
        { e with state := newState, incarnation, lastStateChange := now }
      else e := by
  rcases he : m.getNode id with - | e
  · rw [updateState_of_not_lt (fun e h ↦ by cases he.symm.trans h), he]
    rfl
  · rw [Option.map_some]
    split_ifs with hlt
    · rw [updateState_of_lt he hlt, getNode_record_self]
    · refine (congrArg (getNode · id) (updateState_of_not_lt ?_)).trans he
      rw [he]
      rintro e' ⟨⟩
      exact hlt

theorem getNode_removeNode {now : Time} (m : MemberList) (id id' : NodeId) :
    (m.removeNode id now).1.getNode id' = if id' = id then none else m.getNode id' := by
  rw [removeNode]
  rcases hid : m.nodes.lookup id with - | e
  · split_ifs with h
    · rw [h]
      exact hid
    · rfl
  · split_ifs with h
    · rw [h]
      exact AList.lookup_erase ..
    · exact AList.lookup_erase_ne h

end MemberList

end Pensieve
