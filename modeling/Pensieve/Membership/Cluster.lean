import Pensieve.Membership.Change

/-!
# Clusters of nodes

Any number of nodes run the gossip protocol over a network that may lose,
duplicate, delay and reorder what they send.  A node may start at any time, and
runs from then on; what it receives was sent to it by one of them.
-/

namespace Pensieve

open Foundation

/-- The nodes that have started, and every message sent so far. -/
structure Cluster where
  node : NodeId → Option SwimProtocol
  sent : List Packet

namespace Cluster

/-- What the environment decides. -/
inductive Action where
  /-- A node starts. -/
  | boot (id : NodeId) (config : SwimConfig) (seed : Option (NodeId × UInt16)) (now : Time)
  /-- A node takes a step. -/
  | step (id : NodeId) (a : SwimProtocol.Action)

/-- What is observed. -/
inductive Event where
  | booted (id : NodeId)
  /-- The node took a step from one state to another. -/
  | stepped (id : NodeId) (before : SwimProtocol) (a : SwimProtocol.Action)
      (after : SwimProtocol)

/-- Only what was sent to a node can be received by it. -/
def arrives (c : Cluster) (id : NodeId) : SwimProtocol.Action → Bool
  | .receive msg _ => decide ((⟨id, msg⟩ : Packet) ∈ c.sent)
  | _ => true

/-- The node `id` goes on to `p` and sends messages. -/
def advance (c : Cluster) (id : NodeId) (p : SwimProtocol) (sent : List Packet) : Cluster :=
  ⟨Function.update c.node id (some p), c.sent ++ sent⟩

/-- One step of a cluster. -/
def step (sort : SortByCount) (c : Cluster) : Action → Option (Cluster × List Event)
  | .boot id config seed now =>
    if c.node id = none then
      some (c.advance id (SwimProtocol.start config id seed now) [], [.booted id])
    else none
  | .step id a =>
    match c.node id with
    | none => none
    | some p =>
      if c.arrives id a then
        (p.step sort a).map fun r ↦ (c.advance id r.1 r.2, [.stepped id p a r.1])
      else none

/-- A cluster that nobody has started yet. -/
def empty : Cluster := ⟨fun _ ↦ none, []⟩

/-- Clusters from their first node on. -/
def machine (sort : SortByCount) : Machine Cluster Action Event where
  init c := c = empty
  step := step sort

/-- What a step can do. -/
theorem step_cases {sort : SortByCount} {c c' : Cluster} {a : Action} {ev : List Event}
    (h : c.step sort a = some (c', ev)) :
    (∃ id config seed now, c.node id = none ∧ ev = [.booted id] ∧
      c' = c.advance id (SwimProtocol.start config id seed now) []) ∨
    ∃ id p b r, c.node id = some p ∧ p.step sort b = some r ∧
      (∀ msg now, b = .receive msg now → ⟨id, msg⟩ ∈ c.sent) ∧
      ev = [.stepped id p b r.1] ∧ c' = c.advance id r.1 r.2 := by
  cases a with
  | boot id config seed now =>
      obtain ⟨hnone, hstep⟩ := Option.ite_none_right_eq_some.mp h
      cases hstep
      exact Or.inl ⟨id, config, seed, now, hnone, rfl, rfl⟩
  | step id a =>
      rw [step] at h
      split at h
      · cases h
      · rename_i p hp
        obtain ⟨harrives, hstep⟩ := Option.ite_none_right_eq_some.mp h
        obtain ⟨r, hr, hres⟩ := Option.map_eq_some_iff.mp hstep
        cases hres
        refine Or.inr ⟨id, p, a, r, hp, hr, ?_, rfl, rfl⟩
        rintro msg now rfl
        exact of_decide_eq_true harrives

/-! ## Whose node is where -/

theorem advance_node_self (c : Cluster) (id : NodeId) (p : SwimProtocol) (sent : List Packet) :
    (c.advance id p sent).node id = some p :=
  Function.update_self ..

theorem advance_node_of_ne {c : Cluster} {id id' : NodeId} {p : SwimProtocol}
    {sent : List Packet} (h : id' ≠ id) : (c.advance id p sent).node id' = c.node id' :=
  Function.update_of_ne h ..

/-- A property of every node that the changed node has as well. -/
theorem forall_advance {c : Cluster} {id : NodeId} {p : SwimProtocol} {sent : List Packet}
    {P : NodeId → SwimProtocol → Prop} (h : ∀ id p, c.node id = some p → P id p) (hp : P id p) :
    ∀ id' p', (c.advance id p sent).node id' = some p' → P id' p' := by
  intro id' p' hp'
  by_cases hid : id' = id
  · subst hid
    rw [advance_node_self] at hp'
    cases hp'
    exact hp
  · rw [advance_node_of_ne hid] at hp'
    exact h id' p' hp'

/-- A node of a cluster does what a node does that is sent anything. -/
theorem node_run {sort : SortByCount} {c : Cluster} {tr : List Event}
    (hrun : (machine sort).Run c tr) :
    ∀ id p, c.node id = some p → p.self = id ∧ ∃ sent, (SwimProtocol.machine sort).Run p sent := by
  refine hrun.invariant (I := fun c _ ↦ ∀ id p, c.node id = some p →
    p.self = id ∧ ∃ sent, (SwimProtocol.machine sort).Run p sent) ?_ ?_
  · rintro _ rfl id p hp
    cases hp
  · intro c tr a c' ev _ h hstep
    rcases step_cases hstep with ⟨id, config, seed, now, -, rfl, rfl⟩ |
      ⟨id, p, b, r, hp, hr, -, rfl, rfl⟩
    · exact forall_advance h ⟨rfl, [], .init ⟨config, id, seed, now, rfl⟩⟩
    · obtain ⟨hself, sent, hnode⟩ := h id p hp
      have htargets : p.TargetsOther := SwimProtocol.targetsOther_of_run hnode
      have hdoes := SwimProtocol.step_does htargets (.any p b) hr
      exact forall_advance h ⟨hdoes.changes.self_eq.trans hself, _, hnode.step hr⟩

end Cluster

end Pensieve
