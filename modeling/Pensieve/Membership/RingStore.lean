import Mathlib.Data.Finset.Insert
import Pensieve.Foundation.Word
import Pensieve.Hash.Hasher
import Pensieve.Membership.NodeInfo

/-!
# The hash ring

`src/membership/ring_store.cpp`: a map from tokens to nodes, read as points of a
circle.  A hash belongs to the node of the first token at or after it.

`RingStore` publishes a new version of the map for every change, so that a reader
works on a snapshot; the model is the map itself.
-/

namespace Pensieve

open Foundation

/-- `RingStore::Ring`. -/
abbrev Ring := SortedMap UInt32 NodeId

namespace RingStore

def kDefaultVnodes : ℕ := 128

/-- `add_node` with explicit tokens. -/
def addTokens (ring : Ring) (node : NodeId) (tokens : List UInt32) : Ring :=
  tokens.foldl (fun ring token ↦ ring.insert token node) ring

/-- The tokens of a node's virtual nodes. -/
def tokensOf (node : NodeId) (numVnodes : ℕ) : List UInt32 :=
  (List.range numVnodes).map fun i ↦ hashNodeToken node (UInt32.ofNat i)

/-- `add_node` with the default number of virtual nodes, as it is called. -/
def addNode (ring : Ring) (node : NodeId) : Ring :=
  addTokens ring node (tokensOf node kDefaultVnodes)

/-- `remove_node`. -/
def removeNode (ring : Ring) (node : NodeId) : Ring := ring.eraseIf fun x ↦ x.2 = node

/-- `get_node_for_key`. -/
def getNodeForKey (ring : Ring) (hash : UInt32) : Option NodeId :=
  (ring.ceilWrap hash).map Prod.snd

/-- The loop of `get_n_nodes_for_key` over the nodes that it visits. -/
def gather (n : ℕ) : List NodeId → Finset NodeId → List NodeId → List NodeId
  | [], _, result => result
  | node :: visits, seen, result =>
    if node ∈ seen then gather n visits seen result
    else if (result ++ [node]).length = n then result ++ [node]
    else gather n visits (insert node seen) (result ++ [node])

/-- `get_n_nodes_for_key`, where `result.reserve(n)` succeeds. -/
def getNNodesForKey (ring : Ring) (hash : UInt32) (n : ℕ) : List NodeId :=
  if ring.entries = [] then [] else gather n ((ring.around hash).map Prod.snd) ∅ []

/-- `size`. -/
def size (ring : Ring) : ℕ := ring.entries.length

/-- What is on the ring after a node has been added: its tokens, and what was at the
others. -/
theorem mem_addTokens {ring : Ring} {node : NodeId} {tokens : List UInt32}
    {x : UInt32 × NodeId} :
    x ∈ (addTokens ring node tokens).entries ↔
      (x.1 ∈ tokens ∧ x.2 = node) ∨ (x.1 ∉ tokens ∧ x ∈ ring.entries) :=
  SortedMap.mem_foldl_insert

theorem mem_removeNode {ring : Ring} {node : NodeId} {x : UInt32 × NodeId} :
    x ∈ (removeNode ring node).entries ↔ x ∈ ring.entries ∧ x.2 ≠ node := by
  simp [removeNode, SortedMap.eraseIf]

/-- An owner is the node of the token at the smallest distance. -/
theorem getNodeForKey_eq_some {ring : Ring} {hash : UInt32} {node : NodeId}
    (h : getNodeForKey ring hash = some node) :
    ∃ token, (token, node) ∈ ring.entries ∧
      ∀ x ∈ ring.entries, clockwise hash token ≤ clockwise hash x.1 := by
  obtain ⟨⟨token, n⟩, hx, rfl⟩ := Option.map_eq_some_iff.mp h
  obtain ⟨hmem, hnext⟩ := SortedMap.isNext_of_ceilWrap hx
  exact ⟨token, hmem, fun y hy ↦ hnext.clockwise_le (List.mem_map_of_mem hy)⟩

/-! ## What a change of the ring moves -/

variable (ring : Ring) (node : NodeId) (tokens : List UInt32) (hash : UInt32)

/-- A new node takes over, and nothing else changes hands. -/
theorem getNodeForKey_addTokens :
    getNodeForKey (addTokens ring node tokens) hash = getNodeForKey ring hash ∨
      getNodeForKey (addTokens ring node tokens) hash = some node := by
  have hkeys : ring.keys ⊆ (addTokens ring node tokens).keys := by
    intro token htoken
    obtain ⟨x, hx, rfl⟩ := List.mem_map.mp htoken
    by_cases hnew : x.1 ∈ tokens
    · exact List.mem_map.mpr ⟨(x.1, node), mem_addTokens.mpr (Or.inl ⟨hnew, rfl⟩), rfl⟩
    · exact List.mem_map_of_mem (mem_addTokens.mpr (Or.inr ⟨hnew, hx⟩))
  rcases hfound : (addTokens ring node tokens).ceilWrap hash with _ | x
  · have hold := SortedMap.ceilWrap_none_of_subset hfound hkeys
    exact Or.inl (by rw [getNodeForKey, getNodeForKey, hfound, hold])
  · rcases mem_addTokens.mp (SortedMap.isNext_of_ceilWrap hfound).1 with ⟨-, hnode⟩ | ⟨-, hx⟩
    · exact Or.inr (by rw [getNodeForKey, hfound, Option.map_some, hnode])
    · have hold := SortedMap.ceilWrap_of_subset hfound hx hkeys
      exact Or.inl (by rw [getNodeForKey, getNodeForKey, hfound, hold])

/-- What a node leaves behind is all that changes hands when it goes. -/
theorem getNodeForKey_removeNode (h : getNodeForKey ring hash ≠ some node) :
    getNodeForKey (removeNode ring node) hash = getNodeForKey ring hash := by
  have hkeys : (removeNode ring node).keys ⊆ ring.keys :=
    List.map_subset _ fun x hx ↦ (mem_removeNode.mp hx).1
  rcases hfound : ring.ceilWrap hash with _ | x
  · rw [getNodeForKey, getNodeForKey, hfound, SortedMap.ceilWrap_none_of_subset hfound hkeys]
  · have hother : x.2 ≠ node := by
      rintro rfl
      exact h (by rw [getNodeForKey, hfound, Option.map_some])
    have hstays := mem_removeNode.mpr ⟨(SortedMap.isNext_of_ceilWrap hfound).1, hother⟩
    rw [getNodeForKey, getNodeForKey, hfound, SortedMap.ceilWrap_of_subset hfound hstays hkeys]

/-- Nodes that come and go leave the keys of the others where they are. -/
theorem least_movement :
    (getNodeForKey (addTokens ring node tokens) hash = getNodeForKey ring hash ∨
      getNodeForKey (addTokens ring node tokens) hash = some node) ∧
    (getNodeForKey ring hash ≠ some node →
      getNodeForKey (removeNode ring node) hash = getNodeForKey ring hash) :=
  ⟨getNodeForKey_addTokens ring node tokens hash, getNodeForKey_removeNode ring node hash⟩

end RingStore

end Pensieve
