import Mathlib.Data.Finset.Card
import Pensieve.Membership.RingStore

/-!
# Forwarding does not go round in circles

Nodes hold different views of the ring, and their views change all the time.  What
they have in common is little (`IsView`): a node's own tokens are on its own ring, and
a token stands for the node that it belongs to.

That is enough.  A node proxies a request to another only if that node has a token
nearer to the key than all of its own (`nearest_lt_of_forward`), and so a request makes
fewer hops than there are nodes (`exists_travels`).
-/

namespace Pensieve

open Foundation

namespace RingStore

/-! ## Hops -/

/-- The distance from a hash to the nearest token of a node. -/
def nearest (hash : UInt32) (node : NodeId) : ℕ :=
  ((tokensOf node kDefaultVnodes).map (clockwise hash)).min?.getD 0

theorem nearest_le {hash token : UInt32} {node : NodeId}
    (h : token ∈ tokensOf node kDefaultVnodes) : nearest hash node ≤ clockwise hash token :=
  List.min?_getD_le_of_mem (List.mem_map_of_mem h)

theorem exists_nearest (hash : UInt32) (node : NodeId) :
    ∃ token ∈ tokensOf node kDefaultVnodes, clockwise hash token = nearest hash node := by
  have hne : (tokensOf node kDefaultVnodes).map (clockwise hash) ≠ [] := by
    simp [tokensOf, kDefaultVnodes]
  obtain ⟨d, hd⟩ := Option.isSome_iff_exists.mp (List.isSome_min?_of_ne_nil hne)
  rw [nearest, hd, Option.getD_some]
  exact List.mem_map.mp (List.min?_mem hd)

/-- What is assumed of the ring that a node has. -/
structure IsView (node : NodeId) (ring : Ring) : Prop where
  own : ∀ token ∈ tokensOf node kDefaultVnodes, (token, node) ∈ ring.entries
  belongs : ∀ x ∈ ring.entries, x.1 ∈ tokensOf x.2 kDefaultVnodes

instance decidableIsView (node : NodeId) (ring : Ring) : Decidable (IsView node ring) :=
  decidable_of_iff
    (((tokensOf node kDefaultVnodes).all fun token ↦ decide ((token, node) ∈ ring.entries)) = true ∧
      (ring.entries.all fun x ↦ decide (x.1 ∈ tokensOf x.2 kDefaultVnodes)) = true)
    ⟨fun h ↦ ⟨by simpa using h.1, by simpa using h.2⟩,
      fun h ↦ ⟨by simpa using h.own, by simpa using h.belongs⟩⟩

/-- The owner of a key is the node with the next token. -/
theorem getNodeForKey_eq_of_le {ring : Ring} {hash token : UInt32} {node : NodeId}
    (hmem : (token, node) ∈ ring.entries)
    (hle : ∀ x ∈ ring.entries, clockwise hash token ≤ clockwise hash x.1) :
    getNodeForKey ring hash = some node := by
  obtain ⟨x, hx⟩ := Option.isSome_iff_exists.mp
    (SortedMap.ceilWrap_isSome (List.ne_nil_of_mem hmem) hash)
  have howner : getNodeForKey ring hash = some x.2 := by
    rw [getNodeForKey, hx]
    rfl
  obtain ⟨token', hmem', hle'⟩ := getNodeForKey_eq_some howner
  have htoken : token' = token := clockwise_inj (le_antisymm (hle' _ hmem) (hle _ hmem'))
  rw [howner]
  exact congrArg (fun y : UInt32 × NodeId ↦ some y.2) (SortedMap.eq_of_mem hmem' hmem htoken)

/-- An owner other than the node itself has a nearer token. -/
theorem nearest_lt_of_owner {node owner : NodeId} {ring : Ring} {hash : UInt32}
    (hview : IsView node ring) (h : getNodeForKey ring hash = some owner) (hne : owner ≠ node) :
    nearest hash owner < nearest hash node := by
  obtain ⟨token, hmem, hmin⟩ := getNodeForKey_eq_some h
  obtain ⟨mine, hmine, hdist⟩ := exists_nearest hash node
  have hown : (mine, node) ∈ ring.entries := hview.own mine hmine
  have hbelongs : token ∈ tokensOf owner kDefaultVnodes := hview.belongs (token, owner) hmem
  have hlt : clockwise hash token < clockwise hash mine := by
    refine lt_of_le_of_ne (hmin _ hown) fun heq ↦ hne ?_
    -- At the same distance it would be the same token, which stands for one node.
    have htoken : token = mine := clockwise_inj heq
    exact congrArg Prod.snd (SortedMap.eq_of_mem hmem hown htoken)
  calc nearest hash owner
      ≤ clockwise hash token := nearest_le hbelongs
    _ < clockwise hash mine := hlt
    _ = nearest hash node := hdist

/-- The node that a request for the key is proxied to, if it is not served where it
is. -/
def forward (self : NodeId) (ring : Ring) (key : List UInt8) : Option NodeId :=
  (getNodeForKey ring (hashKey key)).filter fun owner ↦ owner ≠ self

theorem forward_eq_some {self owner : NodeId} {ring : Ring} {key : List UInt8} :
    forward self ring key = some owner ↔
      getNodeForKey ring (hashKey key) = some owner ∧ owner ≠ self := by
  rw [forward, Option.filter_eq_some_iff, decide_eq_true_iff]

/-- A hop goes to a node that has a nearer token. -/
theorem nearest_lt_of_forward {self owner : NodeId} {ring : Ring} {key : List UInt8}
    (hview : IsView self ring) (h : forward self ring key = some owner) :
    nearest (hashKey key) owner < nearest (hashKey key) self :=
  nearest_lt_of_owner hview (forward_eq_some.mp h).1 (forward_eq_some.mp h).2

/-! ## Chains of hops -/

/-- A request for the key that has made `i` hops and is at `x` makes `k` more and is
then served where it is.  `view i` are the rings that the nodes have at that time. -/
inductive Travels (view : ℕ → NodeId → Ring) (key : List UInt8) : ℕ → NodeId → ℕ → Prop
  | serve {i : ℕ} {x : NodeId} (h : forward x (view i x) key = none) : Travels view key i x 0
  | hop {i k : ℕ} {x y : NodeId} (h : forward x (view i x) key = some y)
      (rest : Travels view key (i + 1) y k) : Travels view key i x (k + 1)

section

variable {view : ℕ → NodeId → Ring} {nodes : Finset NodeId}

/-- A node that is forwarded to is on the ring. -/
theorem mem_of_forward {self owner : NodeId} {ring : Ring} {key : List UInt8}
    (hnodes : ∀ e ∈ ring.entries, e.2 ∈ nodes) (h : forward self ring key = some owner) :
    owner ∈ nodes := by
  obtain ⟨token, hmem, -⟩ := getNodeForKey_eq_some (forward_eq_some.mp h).1
  exact hnodes _ hmem

/-- If every hop goes to a node of smaller distance, the number of hops is at most the
number of such nodes. -/
theorem travels_of_card_le {key : List UInt8} {d : NodeId → ℕ}
    (hop : ∀ i, ∀ x ∈ nodes, ∀ y, forward x (view i x) key = some y → y ∈ nodes ∧ d y < d x)
    (m : ℕ) : ∀ i, ∀ x ∈ nodes, (nodes.filter fun y ↦ d y < d x).card ≤ m →
      ∃ k ≤ m, Travels view key i x k := by
  induction m with
  | zero =>
      intro i x hx hcard
      rcases hfwd : forward x (view i x) key with - | y
      · exact ⟨0, le_refl 0, .serve hfwd⟩
      · have hempty := Finset.card_eq_zero.mp (Nat.le_zero.mp hcard)
        exact absurd (Finset.mem_filter.mpr (hop i x hx y hfwd)) (hempty ▸ Finset.notMem_empty y)
  | succ m ih =>
      intro i x hx hcard
      rcases hfwd : forward x (view i x) key with - | y
      · exact ⟨0, Nat.zero_le _, .serve hfwd⟩
      · obtain ⟨hy, hlt⟩ := hop i x hx y hfwd
        have hfewer : (nodes.filter fun z ↦ d z < d y) ⊂ nodes.filter fun z ↦ d z < d x := by
          refine Finset.ssubset_iff_subset_ne.mpr ⟨fun z hz ↦ ?_, fun heq ↦ ?_⟩
          · obtain ⟨hz, hzy⟩ := Finset.mem_filter.mp hz
            exact Finset.mem_filter.mpr ⟨hz, hzy.trans hlt⟩
          · have hmem : y ∈ nodes.filter fun z ↦ d z < d x := Finset.mem_filter.mpr ⟨hy, hlt⟩
            rw [← heq] at hmem
            exact lt_irrefl _ (Finset.mem_filter.mp hmem).2
        have hcard' := (Finset.card_lt_card hfewer).trans_le hcard
        obtain ⟨k, hk, htravels⟩ := ih (i + 1) y hy (Nat.lt_succ_iff.mp hcard')
        exact ⟨k + 1, Nat.succ_le_succ hk, .hop hfwd htravels⟩

/-- So there are fewer hops than nodes. -/
theorem exists_travels {key : List UInt8} {d : NodeId → ℕ}
    (hop : ∀ i, ∀ x ∈ nodes, ∀ y, forward x (view i x) key = some y → y ∈ nodes ∧ d y < d x)
    {x : NodeId} (hx : x ∈ nodes) : ∃ k, k + 1 ≤ nodes.card ∧ Travels view key 0 x k := by
  have hfewer : (nodes.filter fun y ↦ d y < d x) ⊂ nodes :=
    Finset.filter_ssubset.mpr ⟨x, hx, lt_irrefl _⟩
  obtain ⟨k, hk, htravels⟩ := travels_of_card_le hop _ 0 x hx le_rfl
  exact ⟨k, hk.trans_lt (Finset.card_lt_card hfewer), htravels⟩

end

end RingStore

end Pensieve
