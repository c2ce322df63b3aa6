import Pensieve.Foundation.Codec
import Pensieve.Membership.SwimMessage
import Pensieve.Storage.SlabEntry

/-!
# Gossip messages on the wire

`src/membership/swim_message.cpp`.  Integers are big-endian, strings and the list of updates
are preceded by their length in two bytes, and the target is there for one type of message
only.

Each `deserialize` is shown to accept exactly what the `serialize` of the same name writes
(`decodes_swimMessage`), where a string or list is short enough for its length to be
written.
-/

namespace Pensieve

open Foundation

/-! ## Integers -/

def writeU8 (v : UInt8) : Bytes := beBytes 1 v.toNat
def writeU16 (v : UInt16) : Bytes := beBytes 2 v.toNat
def writeU32 (v : UInt32) : Bytes := beBytes 4 v.toNat
def writeU64 (v : UInt64) : Bytes := beBytes 8 v.toNat

def readU8 : Reader UInt8 := UInt8.ofNat <$> Reader.be 1
def readU16 : Reader UInt16 := UInt16.ofNat <$> Reader.be 2
def readU32 : Reader UInt32 := UInt32.ofNat <$> Reader.be 4
def readU64 : Reader UInt64 := UInt64.ofNat <$> Reader.be 8

section

variable {bs rest : Bytes}

theorem readU8_eq_some {v : UInt8} : readU8 bs = some (v, rest) ↔ bs = writeU8 v ++ rest :=
  ((decodes_be 1).word UInt8.toNat_lt (fun _ ↦ UInt8.ofNat_toNat)
    (fun _ ↦ UInt8.toNat_ofNat_of_lt) bs v rest).trans (Iff.of_eq (true_and _))

theorem readU16_eq_some {v : UInt16} : readU16 bs = some (v, rest) ↔ bs = writeU16 v ++ rest :=
  ((decodes_be 2).word UInt16.toNat_lt (fun _ ↦ UInt16.ofNat_toNat)
    (fun _ ↦ UInt16.toNat_ofNat_of_lt) bs v rest).trans (Iff.of_eq (true_and _))

theorem readU32_eq_some {v : UInt32} : readU32 bs = some (v, rest) ↔ bs = writeU32 v ++ rest :=
  ((decodes_be 4).word UInt32.toNat_lt (fun _ ↦ UInt32.ofNat_toNat)
    (fun _ ↦ UInt32.toNat_ofNat_of_lt) bs v rest).trans (Iff.of_eq (true_and _))

theorem readU64_eq_some {v : UInt64} : readU64 bs = some (v, rest) ↔ bs = writeU64 v ++ rest :=
  ((decodes_be 8).word UInt64.toNat_lt (fun _ ↦ UInt64.ofNat_toNat)
    (fun _ ↦ UInt64.toNat_ofNat_of_lt) bs v rest).trans (Iff.of_eq (true_and _))

end

/-! ## Nodes -/

/-- `serialize_node_id`. -/
def serializeNodeId (id : NodeId) : Bytes :=
  writeU16 (UInt16.ofNat id.host.length) ++ id.host ++ writeU16 id.gossipPort

/-- `deserialize_node_id`. -/
def deserializeNodeId : Reader NodeId := do
  let hostLen ← readU16
  let host ← Reader.take hostLen.toNat
  let gossipPort ← readU16
  pure ⟨host, gossipPort⟩

/-- The length of the host can be written. -/
def NodeId.Fits (id : NodeId) : Prop := id.host.length ≤ 65535

instance decidableFits (id : NodeId) : Decidable id.Fits :=
  inferInstanceAs (Decidable (id.host.length ≤ 65535))

theorem decodes_nodeId : Decodes deserializeNodeId NodeId.Fits serializeNodeId := by
  rintro bs ⟨host, port⟩ rest
  simp only [deserializeNodeId, serializeNodeId, NodeId.Fits, Reader.bind_eq_some,
    Reader.pure_eq_some, Reader.take_eq_some, readU16_eq_some]
  constructor
  · rintro ⟨len, mid, rfl, host, mid, ⟨hlen, rfl⟩, port, mid, rfl, heq, rfl⟩
    cases heq
    have := len.toNat_lt
    rw [hlen, UInt16.ofNat_toNat]
    exact ⟨by omega, by simp⟩
  · rintro ⟨hlen, rfl⟩
    refine ⟨_, _, by rw [List.append_assoc, List.append_assoc], host, _, ⟨?_, rfl⟩, port, rest, rfl,
      rfl, rfl⟩
    exact (UInt16.toNat_ofNat_of_lt' (Nat.lt_succ_of_le hlen)).symm

/-! ## Updates -/

/-- The update type of a byte, if it is not above `Leave`. -/
def UpdateType.ofByte : UInt8 → Option UpdateType
  | 0 => some .join
  | 1 => some .alive
  | 2 => some .suspect
  | 3 => some .dead
  | 4 => some .leave
  | _ => none

/-- The byte of an update type. -/
def UpdateType.byte (type : UpdateType) : UInt8 := UInt8.ofNat type.toNat

theorem UpdateType.ofByte_eq_some {b : UInt8} {type : UpdateType} :
    ofByte b = some type ↔ b = type.byte := by
  constructor
  · intro h
    unfold ofByte at h
    split at h <;> cases h <;> rfl
  · rintro rfl
    cases type <;> rfl

/-- `serialize_update`. -/
def serializeUpdate (u : MembershipUpdate) : Bytes :=
  writeU8 u.type.byte ++ serializeNodeId u.node ++ writeU64 u.incarnation ++ writeU16 u.dataPort

/-- `deserialize_update`. -/
def deserializeUpdate : Reader MembershipUpdate := do
  let typeVal ← readU8
  match UpdateType.ofByte typeVal with
  | none => failure
  | some type =>
    let node ← deserializeNodeId
    let incarnation ← readU64
    let dataPort ← readU16
    pure { type, node, incarnation, dataPort }

theorem decodes_update :
    Decodes deserializeUpdate (fun u ↦ u.node.Fits) serializeUpdate := by
  rintro bs ⟨type, node, incarnation, dataPort⟩ rest
  simp only [deserializeUpdate, serializeUpdate, Reader.bind_eq_some, readU8_eq_some]
  constructor
  · rintro ⟨b, mid, rfl, h⟩
    rcases htype : UpdateType.ofByte b with - | t
    · rw [htype] at h
      exact (Reader.failure_eq_some.mp h).elim
    · simp only [htype, Reader.bind_eq_some, Reader.pure_eq_some, readU16_eq_some,
        readU64_eq_some, decodes_nodeId _ _ _] at h
      obtain ⟨node, mid, ⟨hfits, rfl⟩, incarnation, mid, rfl, dataPort, mid, rfl, heq, rfl⟩ := h
      cases heq
      rw [UpdateType.ofByte_eq_some.mp htype]
      exact ⟨hfits, by simp⟩
  · rintro ⟨hfits, rfl⟩
    simp only [List.append_assoc]
    refine ⟨type.byte, _, rfl, ?_⟩
    simp only [UpdateType.ofByte_eq_some.mpr rfl, Reader.bind_eq_some, Reader.pure_eq_some,
      readU16_eq_some, readU64_eq_some, decodes_nodeId _ _ _]
    exact ⟨node, _, ⟨hfits, rfl⟩, incarnation, _, rfl, dataPort, rest, rfl, rfl, rfl⟩

/-! ## Messages -/

/-- The message type of a byte, if it is one. -/
def SwimMessageType.ofByte : UInt8 → Option SwimMessageType
  | 1 => some .ping
  | 2 => some .ack
  | 3 => some .pingReq
  | _ => none

/-- The byte of a message type. -/
def SwimMessageType.byte : SwimMessageType → UInt8
  | .ping => 1
  | .ack => 2
  | .pingReq => 3

theorem SwimMessageType.ofByte_eq_some {b : UInt8} {type : SwimMessageType} :
    ofByte b = some type ↔ b = type.byte := by
  constructor
  · intro h
    unfold ofByte at h
    split at h <;> cases h <;> rfl
  · rintro rfl
    cases type <;> rfl

namespace SwimMessage

/-- `serialize`. -/
def serialize (m : SwimMessage) : Bytes :=
  writeU8 m.type.byte ++ writeU32 m.seqNum ++ serializeNodeId m.sender ++
    (match m.type, m.target with
      | .pingReq, some target => serializeNodeId target
      | _, _ => []) ++
    writeU16 (UInt16.ofNat m.updates.length) ++ m.updates.flatMap serializeUpdate

/-- The target of a message of this type. -/
def readTarget (type : SwimMessageType) : Reader (Option NodeId) :=
  if type = .pingReq then some <$> deserializeNodeId else pure none

/-- `deserialize`, with the bytes behind the message. -/
def read : Reader SwimMessage := do
  let typeVal ← readU8
  match SwimMessageType.ofByte typeVal with
  | none => failure
  | some type =>
    let seqNum ← readU32
    let sender ← deserializeNodeId
    let target ← readTarget type
    let updateCount ← readU16
    let updates ← Reader.times deserializeUpdate updateCount.toNat
    pure { type, seqNum, sender, target, updates }

/-- `deserialize`. -/
def deserialize (data : Bytes) : Option SwimMessage := (read data).map Prod.fst

/-- The lengths can be written, and the target is there when it is expected. -/
structure WellFormed (m : SwimMessage) : Prop where
  sender : m.sender.Fits
  target : ∀ id ∈ m.target, id.Fits
  targeted : m.target.isSome ↔ m.type = .pingReq
  updates : ∀ u ∈ m.updates, u.node.Fits
  count : m.updates.length ≤ 65535

/-- The part of the encoding that is there for a `PingReq` only. -/
def serializeTarget (target : Option NodeId) : Bytes := target.elim [] serializeNodeId

theorem decodes_target (type : SwimMessageType) :
    Decodes (readTarget type)
      (fun target ↦ (∀ id ∈ target, id.Fits) ∧ (target.isSome ↔ type = .pingReq))
      serializeTarget := by
  intro bs target rest
  rw [readTarget]
  split_ifs with htype
  · simp only [Reader.map_eq_some, decodes_nodeId _ _ _]
    constructor
    · rintro ⟨id, ⟨hfits, rfl⟩, rfl⟩
      exact ⟨⟨fun _ h ↦ Option.some.inj h ▸ hfits, by simp [htype]⟩, rfl⟩
    · rintro ⟨⟨hfits, hsome⟩, rfl⟩
      obtain ⟨id, rfl⟩ := Option.isSome_iff_exists.mp (hsome.mpr htype)
      exact ⟨id, ⟨hfits id rfl, rfl⟩, rfl⟩
  · rw [Reader.pure_eq_some]
    constructor
    · rintro ⟨rfl, rfl⟩
      exact ⟨⟨(fun _ h ↦ nomatch h), by simp [htype]⟩, rfl⟩
    · rintro ⟨⟨-, hsome⟩, rfl⟩
      have hnone : target = none := by
        rw [← Option.not_isSome_iff_eq_none, hsome]
        exact htype
      rw [hnone]
      exact ⟨rfl, rfl⟩

/-- With the target there when it is expected, the type does not matter. -/
theorem serialize_eq {m : SwimMessage} (h : m.target.isSome ↔ m.type = .pingReq) :
    m.serialize = writeU8 m.type.byte ++ writeU32 m.seqNum ++ serializeNodeId m.sender ++
      serializeTarget m.target ++ writeU16 (UInt16.ofNat m.updates.length) ++
      m.updates.flatMap serializeUpdate := by
  obtain ⟨type, seqNum, sender, target, updates⟩ := m
  cases type <;> cases target <;> first | rfl | simp at h

theorem decodes_swimMessage : Decodes read WellFormed serialize := by
  rintro bs ⟨type, seqNum, sender, target, updates⟩ rest
  simp only [read, Reader.bind_eq_some, readU8_eq_some]
  constructor
  · rintro ⟨b, mid, rfl, h⟩
    rcases htype : SwimMessageType.ofByte b with - | t
    · rw [htype] at h
      exact (Reader.failure_eq_some.mp h).elim
    · simp only [htype, Reader.bind_eq_some, Reader.pure_eq_some, readU16_eq_some,
        readU32_eq_some, decodes_nodeId _ _ _, decodes_target _ _ _ _,
        decodes_update.times _ _ _ _] at h
      obtain ⟨seqNum, mid, rfl, sender, mid, ⟨hsender, rfl⟩, target, mid, ⟨htarget, rfl⟩,
        count, mid, rfl, updates, mid, ⟨⟨hcount, hupdates⟩, rfl⟩, heq, rfl⟩ := h
      cases heq
      have hlt := count.toNat_lt
      refine ⟨⟨hsender, htarget.1, htarget.2, hupdates, by rw [hcount]; omega⟩, ?_⟩
      rw [serialize_eq htarget.2, hcount, UInt16.ofNat_toNat,
        SwimMessageType.ofByte_eq_some.mp htype]
      simp
  · rintro ⟨hwf, rfl⟩
    rw [serialize_eq hwf.targeted]
    simp only [List.append_assoc]
    refine ⟨type.byte, _, rfl, ?_⟩
    simp only [SwimMessageType.ofByte_eq_some.mpr rfl, Reader.bind_eq_some, Reader.pure_eq_some,
      readU16_eq_some, readU32_eq_some, decodes_nodeId _ _ _, decodes_target _ _ _ _,
      decodes_update.times _ _ _ _]
    have hcount := (UInt16.toNat_ofNat_of_lt' (Nat.lt_succ_of_le hwf.count)).symm
    exact ⟨seqNum, _, rfl, sender, _, ⟨hwf.sender, rfl⟩, target, _,
      ⟨⟨hwf.target, hwf.targeted⟩, rfl⟩, _, _, rfl, updates, rest,
      ⟨⟨hcount, hwf.updates⟩, rfl⟩, rfl, rfl⟩

/-- **The codec of gossip messages.**  A message is read back from its encoding, whatever
follows; no strict prefix of the encoding is accepted; and an accepted byte string begins
with the encoding of what is read. -/
theorem deserialize_serialize :
    (∀ m : SwimMessage, m.WellFormed →
      (∀ rest, deserialize (m.serialize ++ rest) = some m) ∧
      ∀ data, data <+: m.serialize → data ≠ m.serialize → deserialize data = none) ∧
    ∀ data m, deserialize data = some m → m.serialize <+: data := by
  refine ⟨fun m hm ↦ ⟨fun rest ↦ ?_, fun data hpart hne ↦ ?_⟩, fun data m h ↦ ?_⟩
  · rw [deserialize, (decodes_swimMessage _ m rest).mpr ⟨hm, rfl⟩]
    rfl
  · rw [deserialize, decodes_swimMessage.eq_none_of_prefix hm hpart hne]
    rfl
  · obtain ⟨⟨m, rest⟩, hread, rfl⟩ := Option.map_eq_some_iff.mp h
    obtain ⟨-, rfl⟩ := (decodes_swimMessage data m rest).mp hread
    exact List.prefix_append m.serialize rest

/-- A request to probe `c`, with an update about `b`. -/
def probeRequest : SwimMessage where
  type := .pingReq
  seqNum := 7
  sender := ⟨[97], 7946⟩
  target := some ⟨[99], 7946⟩
  updates := [⟨.suspect, ⟨[98], 7946⟩, 3, 11211⟩]

/-- The request is read back with a byte behind it, and not without its last byte. -/
theorem deserialize_serialize_probeRequest :
    deserialize (probeRequest.serialize ++ [0]) = some probeRequest ∧
      deserialize (probeRequest.serialize.take 32) = none := by
  have hwf : probeRequest.WellFormed := by
    constructor <;> decide
  obtain ⟨hread, hpart⟩ := deserialize_serialize.1 probeRequest hwf
  exact ⟨hread [0], hpart _ (List.take_prefix 32 _) (by decide)⟩

end SwimMessage

end Pensieve
