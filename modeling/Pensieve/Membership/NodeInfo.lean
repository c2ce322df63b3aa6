import Mathlib.Data.Prod.Lex
import Pensieve.Foundation.Memory
import Pensieve.Foundation.Word

/-!
# Nodes and their states

`src/membership/node_info.h`.  A node is identified by its host string and its
gossip port.  Member entries add a data port, a state with an incarnation, and
the time of the last state change.

Which of two reports about a node is the newer one is decided by their ranks: the
incarnation first, then the precedence of the state.
-/

namespace Pensieve

open Foundation

/-- Member states, in order of precedence. -/
inductive NodeState where
  | alive
  | suspect
  | dead
  | left
deriving DecidableEq, Repr

/-- The underlying `uint8_t` of a state. -/
def NodeState.toNat : NodeState → ℕ
  | .alive => 0
  | .suspect => 1
  | .dead => 2
  | .left => 3

/-- A node's identity.  The host is a byte string. -/
structure NodeId where
  host : List UInt8
  gossipPort : UInt16
deriving DecidableEq, Repr

/-- Readings of the steady clock, in nanoseconds. -/
abbrev Time := ℕ

/-- A member entry. -/
structure NodeInfo where
  id : NodeId
  dataPort : UInt16
  state : NodeState
  incarnation : UInt64
  lastStateChange : Time
deriving DecidableEq, Repr

/-- `state_supersedes`: the proposed state has strictly higher precedence. -/
def stateSupersedes (proposed current : NodeState) : Bool :=
  current.toNat < proposed.toNat

/-! ## Ranks -/

theorem NodeState.toNat_injective : Function.Injective NodeState.toNat := by
  intro a b h
  cases a <;> cases b <;> first | rfl | cases h

instance linearOrderNodeState : LinearOrder NodeState :=
  LinearOrder.lift' NodeState.toNat NodeState.toNat_injective

theorem stateSupersedes_iff {proposed current : NodeState} :
    stateSupersedes proposed current = true ↔ current < proposed :=
  decide_eq_true_iff

/-- Alive gives way to every other state. -/
theorem NodeState.le_alive_iff {s : NodeState} : s ≤ .alive ↔ s = .alive := by
  cases s <;> decide

/-- Incarnation and state, compared lexicographically. -/
abbrev Rank := UInt64 ×ₗ NodeState

/-- The rank of an entry. -/
def NodeInfo.rank (e : NodeInfo) : Rank := toLex (e.incarnation, e.state)

/-- The test that `add_node` and `update_state` make before they replace what is
recorded of a node. -/
theorem NodeInfo.rank_lt_iff {e : NodeInfo} {incarnation : UInt64} {state : NodeState} :
    e.rank < toLex (incarnation, state) ↔
      incarnation > e.incarnation ∨
        (incarnation = e.incarnation ∧ stateSupersedes state e.state = true) := by
  rw [NodeInfo.rank, Prod.Lex.toLex_lt_toLex, stateSupersedes_iff, gt_iff_lt, eq_comm]

end Pensieve
