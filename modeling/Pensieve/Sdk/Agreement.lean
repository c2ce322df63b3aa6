import Pensieve.Sdk.ClusterInfo
import Pensieve.Wiring

/-!
# The SDK and the servers agree on the ring

A server that knows only alive members answers `ClusterInfo` with all of them, and the SDK
builds a ring from the list.  Its entries are indices into the list where the server has the
nodes themselves.  If nobody's tokens collide then the one ring is the other with the nodes
in place of their indices (`ring_eq_map`), and the two walks along the ring meet the same
nodes (`gather_agree`).
-/

namespace Pensieve

open Foundation

namespace MemberList

/-- The endpoint that the table has for a node. -/
def endpoint (m : MemberList) (id : NodeId) : Option NodeEndpoint :=
  (m.getNode id).map fun info ↦ ⟨id.host, id.gossipPort, info.dataPort⟩

/-- The endpoints of all members, in the order of the table. -/
def endpoints (m : MemberList) : List NodeEndpoint :=
  m.nodes.entries.map fun e ↦ ⟨e.1.host, e.1.gossipPort, e.2.dataPort⟩

/-- A server knows nobody but alive members, few enough to be listed. -/
structure Listable (m : MemberList) : Prop where
  alive : ∀ e ∈ m.nodes.entries, e.2.state = .alive
  count : m.nodes.entries.length ≤ 65535
  hosts : ∀ e ∈ m.nodes.entries, e.1.host.length ≤ 65535
  disjoint : TokensDisjoint { id | id ∈ m.nodes }

variable {m : MemberList}

/-! ## The list of endpoints -/

theorem length_endpoints (m : MemberList) : m.endpoints.length = m.nodes.entries.length :=
  List.length_map _

/-- What a server answers is the encoding of the endpoints. -/
theorem serveClusterInfo_eq (h : m.Listable) :
    Coordinator.serveClusterInfo m = ⟨.ok, TopologyManager.encodeTopology m.endpoints⟩ := by
  have hall : m.aliveEntries = m.nodes.entries :=
    List.filter_eq_self.mpr fun e he ↦ decide_eq_true (h.alive e he)
  have hendpoints : m.aliveEndpoints = m.endpoints := by
    rw [aliveEndpoints, hall, endpoints]
  rw [← hendpoints]
  exact serveClusterInfo_encode (by rw [hall]; exact h.count) (by rw [hall]; exact h.hosts)

/-- The SDK reads as many bytes of the payload as the header announces. -/
theorem fetchTopology_writeResponse (value : Bytes) :
    TopologyManager.fetchTopology (writeResponse ⟨.ok, value⟩) =
      (TopologyManager.readTopology (value.take (value.length % 2 ^ 32))).map Prod.fst := by
  have hlen : (UInt32.ofNat value.length).toNat = value.length % 2 ^ 32 := UInt32.toNat_ofNat'
  have hpayload : Reader.take (value.length % 2 ^ 32) value =
      some (value.take (value.length % 2 ^ 32), value.drop (value.length % 2 ^ 32)) :=
    Reader.take_eq_some.mpr ⟨List.length_take_of_le (Nat.mod_le _ _),
      (List.take_append_drop _ _).symm⟩
  rw [writeResponse_eq, serializeResponse, TopologyManager.fetchTopology]
  simp only [Reader.take_eq_some.mpr ⟨ResponseHeader.length_bytes _, rfl⟩, Option.bind_eq_bind,
    Option.bind_some, ResponseHeader.ofBytes_bytes, hlen, hpayload, if_true]

/-- The endpoints can be encoded. -/
theorem Listable.fits (h : m.Listable) :
    m.endpoints.length < 256 ^ 2 ∧ ∀ ep ∈ m.endpoints, ep.host.length < 256 ^ 2 := by
  refine ⟨by rw [length_endpoints]; exact Nat.lt_succ_of_le h.count, fun ep hep ↦ ?_⟩
  obtain ⟨e, he, rfl⟩ := List.mem_map.mp hep
  exact Nat.lt_succ_of_le (h.hosts e he)

/-- What the SDK fetches are the endpoints.  If the length of the payload is narrowed, it
fetches nothing. -/
theorem fetchTopology_eq (h : m.Listable) {nodes : List NodeEndpoint}
    (hfetch : TopologyManager.fetchTopology (writeResponse (Coordinator.serveClusterInfo m)) =
      some nodes) : nodes = m.endpoints := by
  rw [serveClusterInfo_eq h, fetchTopology_writeResponse] at hfetch
  obtain ⟨⟨nodes, rest⟩, hread, rfl⟩ := Option.map_eq_some_iff.mp hfetch
  have hpart := List.take_prefix ((TopologyManager.encodeTopology m.endpoints).length % 2 ^ 32)
    (TopologyManager.encodeTopology m.endpoints)
  generalize List.take _ _ = payload at *
  by_cases heq : payload = TopologyManager.encodeTopology m.endpoints
  · have hall := (TopologyManager.decodes_topology payload m.endpoints []).mpr
      ⟨h.fits, by rw [heq, List.append_nil]⟩
    exact congrArg Prod.fst (Option.some.inj (hread.symm.trans hall))
  · rw [TopologyManager.decodes_topology.eq_none_of_prefix h.fits hpart heq] at hread
    cases hread

theorem fetchTopology_isSome (h : m.Listable)
    (hlength : (Coordinator.serveClusterInfo m).value.length < 2 ^ 32) :
    TopologyManager.fetchTopology (writeResponse (Coordinator.serveClusterInfo m)) =
      some m.endpoints := by
  rw [serveClusterInfo_eq h] at hlength ⊢
  rw [fetchTopology_writeResponse, Nat.mod_eq_of_lt hlength, List.take_length,
    (TopologyManager.decodes_topology _ m.endpoints []).mpr
      ⟨h.fits, (List.append_nil _).symm⟩]
  rfl

/-! ## Nodes and their indices -/

/-- The node at an index of the list. -/
def nodeAt (m : MemberList) (i : Fin m.endpoints.length) : NodeId := (m.endpoints.get i).id

theorem map_id_endpoints (m : MemberList) : m.endpoints.map NodeEndpoint.id = m.nodes.keys := by
  rw [endpoints, List.map_map]
  rfl

theorem nodeAt_injective (m : MemberList) : Function.Injective m.nodeAt := by
  have hnodup : (m.endpoints.map NodeEndpoint.id).Nodup := by
    rw [map_id_endpoints]
    exact m.nodes.nodupKeys
  intro i j h
  have heq := List.inj_on_of_nodup_map hnodup (List.get_mem _ i) (List.get_mem _ j) h
  exact (hnodup.of_map _).get_inj_iff.mp heq

theorem exists_nodeAt_iff {id : NodeId} : (∃ i, m.nodeAt i = id) ↔ id ∈ m.nodes := by
  rw [AList.mem_keys, ← map_id_endpoints, List.mem_map]
  constructor
  · rintro ⟨i, rfl⟩
    exact ⟨_, List.get_mem _ i, rfl⟩
  · rintro ⟨ep, hep, rfl⟩
    obtain ⟨i, rfl⟩ := List.mem_iff_get.mp hep
    exact ⟨i, rfl⟩

/-- The endpoint at an index is the one that the table has for the node. -/
theorem endpoint_nodeAt (m : MemberList) (i : Fin m.endpoints.length) :
    m.endpoint (m.nodeAt i) = some (m.endpoints.get i) := by
  obtain ⟨e, he, heq⟩ := List.mem_map.mp (List.get_mem m.endpoints i)
  have hlookup : m.getNode e.1 = some e.2 := AList.mem_lookup_iff.mpr he
  rw [nodeAt, ← heq]
  exact Option.map_eq_some_iff.mpr ⟨e.2, hlookup, rfl⟩

/-! ## The two rings -/

/-- The ring of a server to which the members were announced in some order. -/
def ringInOrder (order : List (NodeId × NodeInfo)) : Ring :=
  order.foldl (fun ring x ↦ onChange ring x.1 x.2) SortedMap.empty

theorem ringInOrder_eq {order : List (NodeId × NodeInfo)}
    (h : ∀ x ∈ order, x.2.state = .alive) :
    ringInOrder order = SortedMap.assign
      (fun id ↦ RingStore.tokensOf id RingStore.kDefaultVnodes) (order.map Prod.fst) := by
  rw [ringInOrder, SortedMap.assign, List.foldl_map]
  refine List.foldl_ext _ _ _ fun ring x hx ↦ ?_
  rw [onChange, if_pos (h x hx)]
  rfl

theorem rebuildRing_eq (nodes : List NodeEndpoint) :
    TopologyManager.rebuildRing nodes = SortedMap.assign
      (fun i ↦ RingStore.tokensOf (nodes.get i).id RingStore.kDefaultVnodes)
      (List.finRange nodes.length) := by
  rw [TopologyManager.rebuildRing, SortedMap.assign]
  refine List.foldl_ext _ _ _ fun ring i _ ↦ ?_
  rw [RingStore.tokensOf, List.foldl_map]
  rfl

/-- The ring of the server is the ring of the SDK with nodes in place of indices. -/
theorem ring_eq_map (h : m.Listable) {order : List (NodeId × NodeInfo)}
    (horder : order.Perm (m.nodes.entries.map fun e ↦ (e.1, e.2))) :
    ringInOrder order = (TopologyManager.rebuildRing m.endpoints).map m.nodeAt := by
  have hmem : ∀ x, x ∈ order ↔ ∃ e ∈ m.nodes.entries, (e.1, e.2) = x := by
    intro x
    rw [horder.mem_iff, List.mem_map]
  have hids : ∀ id, id ∈ order.map Prod.fst ↔ id ∈ m.nodes := by
    intro id
    rw [(horder.map Prod.fst).mem_iff, List.map_map, AList.mem_keys]
    rfl
  have halive : ∀ x ∈ order, x.2.state = .alive := by
    intro x hx
    obtain ⟨e, he, rfl⟩ := (hmem x).mp hx
    exact h.alive e he
  have hserver : ∀ a ∈ order.map Prod.fst, ∀ b ∈ order.map Prod.fst, a ≠ b → List.Disjoint
      (RingStore.tokensOf a RingStore.kDefaultVnodes)
      (RingStore.tokensOf b RingStore.kDefaultVnodes) :=
    fun a ha b hb ↦ h.disjoint a ((hids a).mp ha) b ((hids b).mp hb)
  have hsdk : ∀ i ∈ List.finRange m.endpoints.length, ∀ j ∈ List.finRange m.endpoints.length,
      i ≠ j → List.Disjoint
        (RingStore.tokensOf (m.endpoints.get i).id RingStore.kDefaultVnodes)
        (RingStore.tokensOf (m.endpoints.get j).id RingStore.kDefaultVnodes) := by
    intro i _ j _ hne
    exact h.disjoint _ (exists_nodeAt_iff.mp ⟨i, rfl⟩) _ (exists_nodeAt_iff.mp ⟨j, rfl⟩)
      (m.nodeAt_injective.ne hne)
  refine SortedMap.ext_of_mem fun x ↦ ?_
  rw [ringInOrder_eq halive, SortedMap.mem_assign hserver, hids, ← exists_nodeAt_iff,
    SortedMap.map, List.mem_map]
  simp only [rebuildRing_eq, SortedMap.mem_assign hsdk]
  constructor
  · rintro ⟨⟨i, hi⟩, htoken⟩
    refine ⟨(x.1, i), ⟨List.mem_finRange i, ?_⟩, Prod.ext rfl hi⟩
    rw [← hi] at htoken
    exact htoken
  · rintro ⟨⟨token, i⟩, ⟨-, htoken⟩, rfl⟩
    exact ⟨⟨i, rfl⟩, htoken⟩

/-! ## The two walks -/

/-- The two loops gather the same nodes. -/
theorem gather_agree (m : MemberList) (n : ℕ) (visits seen : List (Fin m.endpoints.length)) :
    ∃ found : List (Fin m.endpoints.length),
      RingStore.gather n (visits.map m.nodeAt) (seen.map m.nodeAt).toFinset
        (seen.map m.nodeAt) = found.map m.nodeAt ∧
      TopologyManager.gather m.endpoints n visits seen (seen.map m.endpoints.get) =
        found.map m.endpoints.get := by
  induction visits generalizing seen with
  | nil => exact ⟨seen, rfl, rfl⟩
  | cons i visits ih =>
      have hseen : m.nodeAt i ∈ (seen.map m.nodeAt).toFinset ↔ i ∈ seen := by
        rw [List.mem_toFinset, List.mem_map_of_injective m.nodeAt_injective]
      have hnode : seen.map m.nodeAt ++ [m.nodeAt i] = (seen ++ [i]).map m.nodeAt := by simp
      have hendpoint : seen.map m.endpoints.get ++ [m.endpoints.get i] =
          (seen ++ [i]).map m.endpoints.get := by simp
      have hinsert : insert (m.nodeAt i) (seen.map m.nodeAt).toFinset =
          ((seen ++ [i]).map m.nodeAt).toFinset := by
        ext id
        simp
      rw [List.map_cons, RingStore.gather, TopologyManager.gather, hnode, hendpoint, hinsert,
        List.length_map, List.length_map]
      simp only [hseen]
      split_ifs
      · exact ih seen
      · exact ⟨seen ++ [i], rfl, rfl⟩
      · exact ih (seen ++ [i])

/-- **The SDK and the servers agree on placement.**  Whatever order the members were
announced in, what the SDK decodes from the answer of a server leads it to the owners that
the server's ring has, in the same order and with the endpoints that the table has for
them.  It does decode the answer if the length of the payload fits its field. -/
theorem sdk_agrees (m : MemberList) (h : m.Listable) (order : List (NodeId × NodeInfo))
    (horder : order.Perm (m.nodes.entries.map fun e ↦ (e.1, e.2))) :
    (∀ nodes, TopologyManager.fetchTopology
        (writeResponse (Coordinator.serveClusterInfo m)) = some nodes → ∀ key,
      (∀ n, ((TopologyManager.ofNodes nodes).findSuccessors key n).map some =
        (RingStore.getNNodesForKey (ringInOrder order) (hashKey key) n).map m.endpoint) ∧
      (TopologyManager.ofNodes nodes).findOwner key =
        (RingStore.getNodeForKey (ringInOrder order) (hashKey key)).bind m.endpoint) ∧
    ((Coordinator.serveClusterInfo m).value.length < 2 ^ 32 →
      (TopologyManager.fetchTopology
        (writeResponse (Coordinator.serveClusterInfo m))).isSome) := by
  refine ⟨fun nodes hfetch key ↦ ?_, fun hlength ↦ ?_⟩
  · obtain rfl := fetchTopology_eq h hfetch
    rw [ring_eq_map h horder]
    refine ⟨fun n ↦ ?_, ?_⟩
    · obtain ⟨found, hserver, hsdk⟩ := gather_agree m n
        (((TopologyManager.rebuildRing m.endpoints).around (hashKey key)).map Prod.snd) []
      have hendpoint : (found.map m.nodeAt).map m.endpoint =
          (found.map m.endpoints.get).map some := by
        rw [List.map_map, List.map_map]
        exact List.map_congr_left fun i _ ↦ m.endpoint_nodeAt i
      rw [List.map_map] at hserver
      have hempty : ((TopologyManager.rebuildRing m.endpoints).map m.nodeAt).entries = [] ↔
          (TopologyManager.ofNodes m.endpoints).ring.entries = [] :=
        List.map_eq_nil_iff
      rw [RingStore.getNNodesForKey, TopologyManager.findSuccessors, SortedMap.around_map,
        List.map_map]
      simp only [hempty]
      split_ifs
      · rfl
      · exact ((congrArg _ hsdk).trans hendpoint.symm).trans (congrArg _ hserver).symm
    · rw [RingStore.getNodeForKey, TopologyManager.findOwner, SortedMap.ceilWrap_map,
        TopologyManager.ofNodes]
      rcases (TopologyManager.rebuildRing m.endpoints).ceilWrap (hashKey key) with - | ⟨token, i⟩
      · rfl
      · exact (m.endpoint_nodeAt i).symm
  · rw [fetchTopology_isSome h hlength]
    rfl

/-- Two members, announced in the order in which they are not listed. -/
theorem sdk_agrees_joined :
    ∃ nodes, TopologyManager.fetchTopology (writeResponse (Coordinator.serveClusterInfo
        (after [.addNode (joined [97]), .addNode (joined [98])]))) = some nodes ∧
      ∀ key n, ((TopologyManager.ofNodes nodes).findSuccessors key n).map some =
        (RingStore.getNNodesForKey
          (ringInOrder [((joined [97]).id, joined [97]), ((joined [98]).id, joined [98])])
          (hashKey key) n).map
            (after [.addNode (joined [97]), .addNode (joined [98])]).endpoint := by
  have hmem : ∀ {id}, id ∈ (after [.addNode (joined [97]), .addNode (joined [98])]).nodes →
      id = (joined [97]).id ∨ id = (joined [98]).id := by
    intro id hid
    have hkeys : (after [.addNode (joined [97]), .addNode (joined [98])]).nodes.keys =
        [(joined [98]).id, (joined [97]).id] := rfl
    rw [AList.mem_keys, hkeys] at hid
    simpa [or_comm] using hid
  have hlistable : (after [.addNode (joined [97]), .addNode (joined [98])]).Listable :=
    ⟨by decide, by decide, by decide, fun a ha b hb ↦
      tokensDisjoint_joined a (hmem ha) b (hmem hb)⟩
  obtain ⟨hagree, hsome⟩ := sdk_agrees _ hlistable
    [((joined [97]).id, joined [97]), ((joined [98]).id, joined [98])] (by decide)
  obtain ⟨nodes, hnodes⟩ := Option.isSome_iff_exists.mp (hsome (by decide))
  exact ⟨nodes, hnodes, fun key n ↦ (hagree nodes hnodes key).1 n⟩

end MemberList

end Pensieve
