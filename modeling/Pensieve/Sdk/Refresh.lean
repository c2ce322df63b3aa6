import Pensieve.Sdk.ClusterInfo

/-!
# Keeping the map of the SDK

`bootstrap` and `refresh` of `src/sdk/topology_manager.cpp`.  The ring holds plain indices into
the list of nodes.  The two are replaced one after the other, and nothing but the order of the
statements keeps them in step.

`IndexedTopology` has the two fields as they are.  A `TopologyManager`, whose indices cannot
leave the list, is one of them (`ofManager`), and no call leads out of these (`call_refines`).
So a call that fails leaves everything as it was, and the ring is always that of the list
(`map_usable`).
-/

namespace Pensieve

open Foundation

/-- What becomes of one call of `fetch_topology`. -/
inductive Attempt where
  /-- `tcp_connect` fails. -/
  | refused
  /-- `send_all` fails. -/
  | unsent
  /-- These bytes arrive, and no more. -/
  | received (response : Bytes)

/-- What becomes of the attempts of a call, which are numbered from 0, to reach an address. -/
abbrev Network := ℕ → Bytes → UInt16 → Attempt

/-- The fields `nodes_` and `ring_`. -/
structure IndexedTopology where
  nodes : List NodeEndpoint
  ring : SortedMap UInt32 ℕ

namespace IndexedTopology

/-- `fetch_topology`, with the list of the caller that is filled. -/
def fetchTopology (attempt : Attempt) (out : List NodeEndpoint) : Bool × List NodeEndpoint :=
  match attempt with
  | .refused => (false, out)
  | .unsent => (false, out)
  | .received response =>
    match Reader.take kHeaderSize response with
    | none => (false, out)
    | some (header, rest) =>
      let respHdr := ResponseHeader.ofBytes header
      if respHdr.status ≠ .ok then (false, out)
      else
        match Reader.take respHdr.valueLen.toNat rest with
        | none => (false, out)
        | some (payload, _) =>
          (TopologyManager.decodePayload (dataOf payload) payload.length out []).1

/-- The inner loop of `rebuild_ring`. -/
def placeNode (ring : SortedMap UInt32 ℕ) (ep : NodeEndpoint) (i : ℕ) : SortedMap UInt32 ℕ :=
  (List.range TopologyManager.kVnodesPerNode).foldl
    (fun ring v ↦ ring.insert (hashNodeToken ep.id (UInt32.ofNat v)) i) ring

/-- `rebuild_ring`. -/
def rebuildRing (t : IndexedTopology) : IndexedTopology :=
  { t with ring := t.nodes.zipIdx.foldl (fun ring x ↦ placeNode ring x.1 x.2) SortedMap.empty }

/-- `bootstrap`. -/
def bootstrap (t : IndexedTopology) (network : Network) (seedHost : Bytes) (seedPort : UInt16) :
    Bool × IndexedTopology :=
  let (ok, nodes) := fetchTopology (network 0 seedHost seedPort) []
  if !ok then (false, t)
  else if nodes.isEmpty then (false, t)
  else (true, rebuildRing { t with nodes := nodes })

/-- The loop of `refresh`, from the `i`-th endpoint on. -/
def refreshLoop (t : IndexedTopology) (network : Network) :
    ℕ → List NodeEndpoint → Bool × IndexedTopology
  | _, [] => (false, t)
  | i, ep :: current =>
    let (ok, fresh) := fetchTopology (network i ep.host ep.dataPort) []
    if ok && !fresh.isEmpty then (true, rebuildRing { t with nodes := fresh })
    else refreshLoop t network (i + 1) current

/-- `refresh`. -/
def refresh (t : IndexedTopology) (network : Network) : Bool × IndexedTopology :=
  refreshLoop t network 0 t.nodes

/-- `find_owner`.  The source does not check the index: here one behind the end finds nothing. -/
def findOwner (t : IndexedTopology) (key : Bytes) : Option NodeEndpoint :=
  (t.ring.ceilWrap (hashKey key)).bind fun x ↦ t.nodes[x.2]?

/-- The calls that replace the list. -/
inductive Call where
  | bootstrap (network : Network) (seedHost : Bytes) (seedPort : UInt16)
  | refresh (network : Network)

/-- A call, and what it returns. -/
def call (t : IndexedTopology) : Call → Bool × IndexedTopology
  | .bootstrap network seedHost seedPort => t.bootstrap network seedHost seedPort
  | .refresh network => t.refresh network

def empty : IndexedTopology := ⟨[], SortedMap.empty⟩

/-- The state after some calls. -/
def after (calls : List Call) : IndexedTopology := calls.foldl (fun t c ↦ (t.call c).2) empty

end IndexedTopology

/-! ## The calls on a list with its own ring -/

/-- The list that an attempt brings. -/
def Attempt.topology : Attempt → Option (List NodeEndpoint)
  | .refused => none
  | .unsent => none
  | .received response => TopologyManager.fetchTopology response

namespace TopologyManager

/-- The call on a `TopologyManager`. -/
def call (t : TopologyManager) : IndexedTopology.Call → TopologyManager × Bool
  | .bootstrap network seedHost seedPort =>
    t.bootstrap (fun host port ↦ (network 0 host port).topology) seedHost seedPort
  | .refresh network => t.refresh fun i host port ↦ (network i host port).topology

/-- A list is used as a whole or not at all. -/
theorem adopt_spec (t : TopologyManager) (fetched : Option (List NodeEndpoint)) :
    t.adopt fetched = (t, false) ∨ ∃ nodes ≠ [], t.adopt fetched = (ofNodes nodes, true) := by
  rcases fetched with _ | _ | ⟨ep, nodes⟩
  · exact Or.inl rfl
  · exact Or.inl rfl
  · exact Or.inr ⟨ep :: nodes, List.cons_ne_nil _ _, rfl⟩

/-- The endpoints behind the one that was followed are not asked. -/
theorem foldl_adopt_true (t : TopologyManager)
    (fetch : ℕ → Bytes → UInt16 → Option (List NodeEndpoint)) (current : List (NodeEndpoint × ℕ)) :
    current.foldl (fun r x ↦ if r.2 then r else r.1.adopt (fetch x.2 x.1.host x.1.dataPort))
      (t, true) = (t, true) := by
  induction current with
  | nil => rfl
  | cons x current ih => exact ih

theorem refresh_spec (t : TopologyManager)
    (fetch : ℕ → Bytes → UInt16 → Option (List NodeEndpoint)) :
    t.refresh fetch = (t, false) ∨ ∃ nodes ≠ [], t.refresh fetch = (ofNodes nodes, true) := by
  rw [refresh]
  induction t.nodes.zipIdx with
  | nil => exact Or.inl rfl
  | cons x current ih =>
      rw [List.foldl_cons, if_neg Bool.false_ne_true]
      rcases t.adopt_spec (fetch x.2 x.1.host x.1.dataPort) with h | ⟨nodes, hne, h⟩
      · rw [h]
        exact ih
      · rw [h, foldl_adopt_true]
        exact Or.inr ⟨nodes, hne, rfl⟩

/-- A call that fails changes nothing, one that succeeds has found nodes. -/
theorem call_spec (t : TopologyManager) (c : IndexedTopology.Call) :
    t.call c = (t, false) ∨ ∃ nodes ≠ [], t.call c = (ofNodes nodes, true) := by
  cases c with
  | bootstrap network seedHost seedPort => exact t.adopt_spec _
  | refresh network => exact t.refresh_spec fun i host port ↦ (network i host port).topology

/-- The last node has a token in the ring. -/
theorem entries_rebuildRing_ne_nil {nodes : List NodeEndpoint} (h : nodes ≠ []) :
    (rebuildRing nodes).entries ≠ [] := by
  have hindices : List.finRange nodes.length ≠ [] := by
    simpa [List.finRange_eq_nil_iff] using h
  have htokens : List.range kVnodesPerNode ≠ [] := by decide
  rw [rebuildRing, ← List.dropLast_append_getLast hindices, List.foldl_append, List.foldl_cons,
    List.foldl_nil, ← List.dropLast_append_getLast htokens, List.foldl_append, List.foldl_cons,
    List.foldl_nil]
  exact List.ne_nil_of_mem (SortedMap.mem_insert.mpr (Or.inl rfl))

/-- A list with nodes has an owner for every key. -/
theorem findOwner_ofNodes {nodes : List NodeEndpoint} (h : nodes ≠ []) (key : Bytes) :
    ∃ ep ∈ nodes, (ofNodes nodes).findOwner key = some ep := by
  obtain ⟨x, hx⟩ := Option.isSome_iff_exists.mp
    (SortedMap.ceilWrap_isSome (entries_rebuildRing_ne_nil h) (hashKey key))
  refine ⟨nodes.get x.2, List.get_mem _ _, ?_⟩
  rw [findOwner]
  exact Option.map_eq_some_iff.mpr ⟨x, hx, rfl⟩

end TopologyManager

namespace IndexedTopology

/-- A `TopologyManager` with plain indices. -/
def ofManager (t : TopologyManager) : IndexedTopology := ⟨t.nodes, t.ring.map Fin.val⟩

/-- The list of the caller is filled with what the attempt brings. -/
theorem fetchTopology_spec (attempt : Attempt) (out : List NodeEndpoint) :
    match attempt.topology with
    | some nodes => fetchTopology attempt out = (true, nodes)
    | none => (fetchTopology attempt out).1 = false := by
  rcases attempt with _ | _ | response
  · exact rfl
  · exact rfl
  rw [Attempt.topology, TopologyManager.fetchTopology, fetchTopology]
  rcases Reader.take kHeaderSize response with _ | ⟨header, rest⟩
  · exact rfl
  dsimp only [Option.bind_eq_bind, Option.bind_some]
  by_cases hstatus : (ResponseHeader.ofBytes header).status = .ok
  · rw [if_pos hstatus, if_neg (not_not.mpr hstatus)]
    rcases Reader.take (ResponseHeader.ofBytes header).valueLen.toNat rest with _ | ⟨payload, _⟩
    · exact rfl
    have hdecode := (TopologyManager.decodePayload_spec (dataOf payload) payload.length out []).2
    rw [read_dataOf] at hdecode
    dsimp only [Option.bind_some]
    rcases hread : TopologyManager.readTopology payload with _ | ⟨nodes, _⟩
    · rw [hread] at hdecode
      exact hdecode
    · rw [hread] at hdecode
      exact hdecode
  · rw [if_neg hstatus, if_pos hstatus]

theorem placeNode_map {n : ℕ} (ring : SortedMap UInt32 (Fin n)) (ep : NodeEndpoint) (i : Fin n) :
    placeNode (ring.map Fin.val) ep i.val =
      ((List.range TopologyManager.kVnodesPerNode).foldl
        (fun ring v ↦ ring.insert (hashNodeToken ep.id (UInt32.ofNat v)) i) ring).map Fin.val :=
  List.foldl_hom (fun ring : SortedMap UInt32 (Fin n) ↦ ring.map Fin.val)
    fun ring _ ↦ (SortedMap.map_insert _ ring _ i).symm

/-- The ring that is rebuilt. -/
theorem rebuildRing_eq (t : IndexedTopology) :
    t.rebuildRing = ofManager (TopologyManager.ofNodes t.nodes) := by
  have hzip : t.nodes.zipIdx =
      (List.finRange t.nodes.length).map fun i ↦ (t.nodes.get i, i.val) :=
    List.ext_getElem (by simp) fun i _ _ ↦ by simp
  have hring : t.nodes.zipIdx.foldl (fun ring x ↦ placeNode ring x.1 x.2)
        ((SortedMap.empty : SortedMap UInt32 (Fin t.nodes.length)).map Fin.val) =
      (TopologyManager.rebuildRing t.nodes).map Fin.val := by
    rw [hzip, List.foldl_map, TopologyManager.rebuildRing]
    exact List.foldl_hom (fun ring : SortedMap UInt32 (Fin t.nodes.length) ↦ ring.map Fin.val)
      fun ring i ↦ placeNode_map ring (t.nodes.get i) i
  exact congrArg (IndexedTopology.mk t.nodes) hring

/-- What is adopted is what the list was filled with. -/
theorem adopt_cases (t : TopologyManager) (attempt : Attempt) :
    (t.adopt attempt.topology = (t, false) ∧
        ((fetchTopology attempt []).1 = false ∨ (fetchTopology attempt []).2 = [])) ∨
      ∃ ep nodes, t.adopt attempt.topology = (TopologyManager.ofNodes (ep :: nodes), true) ∧
        fetchTopology attempt [] = (true, ep :: nodes) := by
  have hfetch := fetchTopology_spec attempt []
  rcases htopology : attempt.topology with _ | _ | ⟨ep, nodes⟩ <;> rw [htopology] at hfetch
  · exact Or.inl ⟨rfl, Or.inl hfetch⟩
  · exact Or.inl ⟨rfl, Or.inr (congrArg Prod.snd hfetch)⟩
  · exact Or.inr ⟨ep, nodes, rfl, hfetch⟩

theorem bootstrap_refines (t : TopologyManager) (network : Network) (seedHost : Bytes)
    (seedPort : UInt16) :
    (ofManager t).bootstrap network seedHost seedPort =
      let r := t.adopt (network 0 seedHost seedPort).topology
      (r.2, ofManager r.1) := by
  rw [bootstrap]
  rcases adopt_cases t (network 0 seedHost seedPort) with
    ⟨hadopt, hfetch⟩ | ⟨ep, nodes, hadopt, hfetch⟩
  · rw [hadopt]
    generalize fetchTopology (network 0 seedHost seedPort) [] = fetched at hfetch ⊢
    obtain ⟨ok, nodes⟩ := fetched
    rcases hfetch with rfl | rfl
    · rfl
    · cases ok <;> rfl
  · rw [hadopt, hfetch]
    exact congrArg (Prod.mk true) (rebuildRing_eq _)

/-- The loop of `refresh` follows the first endpoint that can be followed. -/
theorem refreshLoop_refines (t : TopologyManager) (network : Network) (i : ℕ)
    (current : List NodeEndpoint) :
    (ofManager t).refreshLoop network i current =
      let r := (current.zipIdx i).foldl (fun r x ↦ if r.2 then r else
        r.1.adopt (network x.2 x.1.host x.1.dataPort).topology) (t, false)
      (r.2, ofManager r.1) := by
  induction current generalizing i with
  | nil => rfl
  | cons ep current ih =>
      rw [refreshLoop, List.zipIdx_cons, List.foldl_cons, if_neg Bool.false_ne_true]
      rcases adopt_cases t (network i ep.host ep.dataPort) with
        ⟨hadopt, hfetch⟩ | ⟨ep', nodes, hadopt, hfetch⟩
      · rw [hadopt, ← ih (i + 1)]
        generalize fetchTopology (network i ep.host ep.dataPort) [] = fetched at hfetch ⊢
        obtain ⟨ok, nodes⟩ := fetched
        rcases hfetch with rfl | rfl
        · rfl
        · cases ok <;> rfl
      · have htrue := TopologyManager.foldl_adopt_true (TopologyManager.ofNodes (ep' :: nodes))
          (fun i host port ↦ (network i host port).topology) (current.zipIdx (i + 1))
        rw [hadopt, hfetch, htrue]
        exact congrArg (Prod.mk true) (rebuildRing_eq _)

/-- A call on plain indices is the call on a `TopologyManager`. -/
theorem call_refines (t : TopologyManager) (c : Call) :
    (ofManager t).call c = ((t.call c).2, ofManager (t.call c).1) := by
  cases c with
  | bootstrap network seedHost seedPort =>
      exact bootstrap_refines t network seedHost seedPort
  | refresh network => exact refreshLoop_refines t network 0 t.nodes

theorem findOwner_ofManager (t : TopologyManager) (key : Bytes) :
    (ofManager t).findOwner key = t.findOwner key := by
  rw [findOwner, ofManager, SortedMap.ceilWrap_map, TopologyManager.findOwner]
  rcases t.ring.ceilWrap (hashKey key) with _ | x
  · rfl
  · exact List.getElem?_eq_getElem x.2.isLt

/-! ## Runs -/

/-- The states that are a list with its ring are not left. -/
theorem exists_foldl_call (calls : List Call) (nodes : List NodeEndpoint) :
    ∃ nodes', (nodes ≠ [] → nodes' ≠ []) ∧
      calls.foldl (fun t c ↦ (t.call c).2) (ofManager (TopologyManager.ofNodes nodes)) =
        ofManager (TopologyManager.ofNodes nodes') := by
  induction calls generalizing nodes with
  | nil => exact ⟨nodes, id, rfl⟩
  | cons c calls ih =>
      rw [List.foldl_cons, call_refines]
      rcases (TopologyManager.ofNodes nodes).call_spec c with h | ⟨fresh, hne, h⟩
      · rw [h]
        exact ih nodes
      · rw [h]
        obtain ⟨nodes', hkeep, heq⟩ := ih fresh
        exact ⟨nodes', fun _ ↦ hkeep hne, heq⟩

theorem exists_after (calls : List Call) :
    ∃ nodes, after calls = ofManager (TopologyManager.ofNodes nodes) := by
  obtain ⟨nodes, -, hafter⟩ := exists_foldl_call calls []
  exact ⟨nodes, hafter⟩

/-- Once there are nodes, there are nodes for good. -/
theorem exists_after_of_true {before : List Call} {c : Call}
    (h : ((after before).call c).1 = true) (later : List Call) :
    ∃ nodes ≠ [], after (before ++ [c] ++ later) = ofManager (TopologyManager.ofNodes nodes) := by
  obtain ⟨old, hbefore⟩ := exists_after before
  rw [hbefore, call_refines] at h
  rcases (TopologyManager.ofNodes old).call_spec c with hcall | ⟨fresh, hne, hcall⟩
  · rw [hcall] at h
    cases h
  · obtain ⟨nodes, hkeep, hafter⟩ := exists_foldl_call later fresh
    refine ⟨nodes, hkeep hne, ?_⟩
    rw [after, List.foldl_append, List.foldl_append, ← after, List.foldl_cons, List.foldl_nil,
      hbefore, call_refines, hcall]
    exact hafter

/-- **The map stays usable.**  After any calls, of which some may have failed for any reason: a
further call that fails changes neither the list nor the ring, the indices in the ring are inside
the list, and the ring is the one that would be rebuilt from the list.  Once `bootstrap` has
succeeded, every key has an owner among the nodes of the list. -/
theorem map_usable (calls : List Call) :
    (∀ c, ((after calls).call c).1 = false → ((after calls).call c).2 = after calls) ∧
    (∀ x ∈ (after calls).ring.entries, x.2 < (after calls).nodes.length) ∧
    (after calls).ring = (after calls).rebuildRing.ring ∧
    ∀ before network seedHost seedPort,
      before ++ [Call.bootstrap network seedHost seedPort] <+: calls →
      ((after before).bootstrap network seedHost seedPort).1 = true →
      ∀ key, ∃ ep ∈ (after calls).nodes, (after calls).findOwner key = some ep := by
  obtain ⟨nodes, hafter⟩ := exists_after calls
  refine ⟨fun c hfail ↦ ?_, fun x hx ↦ ?_, ?_, ?_⟩
  · rw [hafter, call_refines] at hfail ⊢
    rcases (TopologyManager.ofNodes nodes).call_spec c with h | ⟨fresh, -, h⟩
    · rw [h]
    · rw [h] at hfail
      cases hfail
  · rw [hafter] at hx ⊢
    obtain ⟨y, -, rfl⟩ := List.mem_map.mp hx
    exact y.2.isLt
  · rw [rebuildRing_eq, hafter]
    rfl
  · rintro before network seedHost seedPort ⟨later, rfl⟩ hok key
    obtain ⟨nodes, hne, hafter⟩ := exists_after_of_true
      (c := .bootstrap network seedHost seedPort) hok later
    rw [hafter, findOwner_ofManager]
    exact TopologyManager.findOwner_ofNodes hne key

/-- A node is found, and then its reply to `refresh` breaks off. -/
theorem map_usable_truncated :
    let seed : Network := fun _ _ _ ↦
      .received [0, 0, 0, 0, 9, 0, 0, 0, 1, 0, 1, 0, 97, 10, 31, 203, 43]
    let broken : Network := fun _ _ _ ↦ .received [0, 0, 0, 0, 9, 0, 0, 0, 1, 0, 1]
    let calls := [Call.bootstrap seed [97] 11211, .refresh broken]
    ((after [.bootstrap seed [97] 11211]).refresh broken).1 = false ∧
      ∀ key, ∃ ep ∈ (after calls).nodes, (after calls).findOwner key = some ep :=
  ⟨by decide +kernel, (map_usable _).2.2.2 [] _ _ _ ⟨_, rfl⟩ (by decide +kernel)⟩

end IndexedTopology

end Pensieve
