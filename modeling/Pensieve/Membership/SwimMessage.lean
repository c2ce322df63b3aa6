import Pensieve.Membership.NodeInfo

/-!
# Gossip messages

`src/membership/swim_message.h`: the messages that nodes exchange and the
membership updates that ride on them.  Bytes outside the two enumerations are
refused when a datagram is decoded, so the enumerations are inductive types.
-/

namespace Pensieve

/-- `SwimMessageType`. -/
inductive SwimMessageType where
  | ping
  | ack
  | pingReq
deriving DecidableEq, Repr

/-- `MembershipUpdate::Type`. -/
inductive UpdateType where
  | join
  | alive
  | suspect
  | dead
  | leave
deriving DecidableEq, Repr

/-- The underlying `uint8_t` of an update's type. -/
def UpdateType.toNat : UpdateType → ℕ
  | .join => 0
  | .alive => 1
  | .suspect => 2
  | .dead => 3
  | .leave => 4

/-- The state that an update reports. -/
def UpdateType.newState : UpdateType → NodeState
  | .join => .alive
  | .alive => .alive
  | .suspect => .suspect
  | .dead => .dead
  | .leave => .left

/-- `MembershipUpdate`. -/
structure MembershipUpdate where
  type : UpdateType
  node : NodeId
  incarnation : UInt64
  dataPort : UInt16
deriving DecidableEq, Repr

/-- The rank of the report. -/
def MembershipUpdate.rank (u : MembershipUpdate) : Rank := toLex (u.incarnation, u.type.newState)

/-- `SwimMessage`. -/
structure SwimMessage where
  type : SwimMessageType
  seqNum : UInt32
  sender : NodeId
  target : Option NodeId
  updates : List MembershipUpdate
deriving DecidableEq, Repr

/-- A message on its way. -/
structure Packet where
  dest : NodeId
  msg : SwimMessage
deriving DecidableEq, Repr

end Pensieve
