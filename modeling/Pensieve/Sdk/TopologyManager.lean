import Mathlib.Data.List.FinRange
import Pensieve.Hash.Hasher
import Pensieve.Membership.NodeInfo
import Pensieve.Sdk.Connection

/-!
# The topology of the SDK

`src/sdk/topology_manager.cpp`.  The SDK fetches the list of endpoints from a server and
builds a ring of its own from it, from tokens to indices into the list.

What `fetch_topology` makes of a response is modelled from the bytes that arrive.  A payload
is accepted exactly if it begins with the encoding of a list of endpoints
(`decodes_topology`).
-/

namespace Pensieve

open Foundation

/-- `NodeEndpoint`. -/
structure NodeEndpoint where
  host : Bytes
  gossipPort : UInt16
  dataPort : UInt16
deriving DecidableEq, Repr

/-- The node at an endpoint. -/
def NodeEndpoint.id (ep : NodeEndpoint) : NodeId := ⟨ep.host, ep.gossipPort⟩

/-- Where an endpoint serves. -/
def NodeEndpoint.peer (ep : NodeEndpoint) : PeerKey := ⟨ep.host, ep.dataPort⟩

/-- `TopologyManager`.  The entries of the ring are indices into the list. -/
structure TopologyManager where
  nodes : List NodeEndpoint
  ring : SortedMap UInt32 (Fin nodes.length)

namespace TopologyManager

def kVnodesPerNode : ℕ := 128

/-- `rebuild_ring`. -/
def rebuildRing (nodes : List NodeEndpoint) : SortedMap UInt32 (Fin nodes.length) :=
  (List.finRange nodes.length).foldl (fun ring i ↦
    (List.range kVnodesPerNode).foldl (fun ring v ↦
      ring.insert (hashNodeToken (nodes.get i).id (UInt32.ofNat v)) i) ring) SortedMap.empty

/-- The topology that consists of the given nodes. -/
def ofNodes (nodes : List NodeEndpoint) : TopologyManager := ⟨nodes, rebuildRing nodes⟩

/-- A topology before `bootstrap`. -/
def empty : TopologyManager := ⟨[], SortedMap.empty⟩

/-- `find_owner`. -/
def findOwner (t : TopologyManager) (key : Bytes) : Option NodeEndpoint :=
  (t.ring.ceilWrap (hashKey key)).map fun x ↦ t.nodes.get x.2

/-- The loop of `find_successors` over the indices that it visits. -/
def gather (nodes : List NodeEndpoint) (n : ℕ) :
    List (Fin nodes.length) → List (Fin nodes.length) → List NodeEndpoint → List NodeEndpoint
  | [], _, result => result
  | idx :: visits, seen, result =>
    if idx ∈ seen then gather nodes n visits seen result
    else if (result ++ [nodes.get idx]).length = n then result ++ [nodes.get idx]
    else gather nodes n visits (seen ++ [idx]) (result ++ [nodes.get idx])

/-- `find_successors`, where `result.reserve(n)` succeeds. -/
def findSuccessors (t : TopologyManager) (key : Bytes) (n : ℕ) : List NodeEndpoint :=
  if t.ring.entries = [] then []
  else gather t.nodes n ((t.ring.around (hashKey key)).map Prod.snd) [] []

/-! ## Fetching -/

/-- One endpoint of the payload. -/
def readEndpoint : Reader NodeEndpoint := do
  let hostLen ← Reader.le 2
  Reader.need (hostLen + 4)
  let host ← Reader.take hostLen
  let gossipPort ← Reader.le 2
  let dataPort ← Reader.le 2
  pure ⟨host, UInt16.ofNat gossipPort, UInt16.ofNat dataPort⟩

/-- The endpoints of the payload. -/
def readTopology : Reader (List NodeEndpoint) := do
  let numNodes ← Reader.le 2
  Reader.times readEndpoint numNodes

/-- `fetch_topology`, from the bytes that arrive. -/
def fetchTopology (response : Bytes) : Option (List NodeEndpoint) := do
  let (header, rest) ← Reader.take kHeaderSize response
  let hdr := ResponseHeader.ofBytes header
  if hdr.status = .ok then
    let (payload, _) ← Reader.take hdr.valueLen.toNat rest
    (readTopology payload).map Prod.fst
  else none

/-- What `bootstrap` and `refresh` do with a fetched list: an empty one is not used. -/
def adopt (t : TopologyManager) : Option (List NodeEndpoint) → TopologyManager × Bool
  | some (ep :: nodes) => (ofNodes (ep :: nodes), true)
  | some [] => (t, false)
  | none => (t, false)

/-- `bootstrap`, where `fetch` is what the endpoints answer. -/
def bootstrap (t : TopologyManager) (fetch : Bytes → UInt16 → Option (List NodeEndpoint))
    (seedHost : Bytes) (seedPort : UInt16) : TopologyManager × Bool :=
  t.adopt (fetch seedHost seedPort)

/-- `refresh`: the first endpoint that has something to say is followed.  An address that is
listed twice may answer each time in its own way. -/
def refresh (t : TopologyManager) (fetch : ℕ → Bytes → UInt16 → Option (List NodeEndpoint)) :
    TopologyManager × Bool :=
  t.nodes.zipIdx.foldl
    (fun r x ↦ if r.2 then r else r.1.adopt (fetch x.2 x.1.host x.1.dataPort)) (t, false)

/-! ## The encoding -/

/-- The bytes of an endpoint. -/
def encodeEndpoint (ep : NodeEndpoint) : Bytes :=
  leBytes 2 ep.host.length ++ ep.host ++ leBytes 2 ep.gossipPort.toNat ++
    leBytes 2 ep.dataPort.toNat

/-- The bytes of a list of endpoints. -/
def encodeTopology (nodes : List NodeEndpoint) : Bytes :=
  leBytes 2 nodes.length ++ nodes.flatMap encodeEndpoint

theorem decodes_endpoint :
    Decodes readEndpoint (fun ep ↦ ep.host.length < 256 ^ 2) encodeEndpoint := by
  rintro bs ⟨host, gossipPort, dataPort⟩ rest
  simp only [readEndpoint, encodeEndpoint, Reader.bind_eq_some, Reader.pure_eq_some,
    Reader.need_eq_some, Reader.take_eq_some, decodes_le 2 _ _ _]
  constructor
  · rintro ⟨len, mid, ⟨hlen, rfl⟩, -, mid, ⟨-, rfl⟩, host, mid, ⟨rfl, rfl⟩, gossip, mid,
      ⟨hgossip, rfl⟩, data, mid, ⟨hdata, rfl⟩, heq, rfl⟩
    cases heq
    refine ⟨hlen, ?_⟩
    rw [UInt16.toNat_ofNat_of_lt' hgossip, UInt16.toNat_ofNat_of_lt' hdata]
    simp
  · rintro ⟨hlen, rfl⟩
    simp only [List.append_assoc]
    refine ⟨_, _, ⟨hlen, rfl⟩, (), _, ⟨?_, rfl⟩, host, _, ⟨rfl, rfl⟩, _, _,
      ⟨gossipPort.toNat_lt, rfl⟩, _, _, ⟨dataPort.toNat_lt, rfl⟩, ?_, rfl⟩
    · simp
      omega
    · rw [UInt16.ofNat_toNat, UInt16.ofNat_toNat]

theorem decodes_topology :
    Decodes readTopology
      (fun nodes ↦ nodes.length < 256 ^ 2 ∧ ∀ ep ∈ nodes, ep.host.length < 256 ^ 2)
      encodeTopology := by
  intro bs nodes rest
  simp only [readTopology, encodeTopology, Reader.bind_eq_some, decodes_le 2 _ _ _,
    decodes_endpoint.times _ _ _ _]
  constructor
  · rintro ⟨n, mid, ⟨hn, rfl⟩, ⟨rfl, hhosts⟩, rfl⟩
    exact ⟨⟨hn, hhosts⟩, by rw [List.append_assoc]⟩
  · rintro ⟨⟨hn, hhosts⟩, rfl⟩
    exact ⟨_, _, ⟨hn, by rw [List.append_assoc]⟩, ⟨rfl, hhosts⟩, rfl⟩

end TopologyManager

end Pensieve
