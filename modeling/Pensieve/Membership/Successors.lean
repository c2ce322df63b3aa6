import Mathlib.Data.Finset.Card
import Mathlib.Data.List.Rotate
import Pensieve.Membership.RingStore

/-!
# Successors on the ring

`get_n_nodes_for_key` goes round the ring once, from the token that a hash belongs to, and
takes each node where it is met first.  The loop runs over iterators (`lap`) and ends after
at most one round, with what `gather` makes of the nodes on the way (`search_eq_some`).

The result is the beginning of the list of all nodes by their distance, `byDistance`.  How much
of it is tested when a node has been appended, so that a caller who asks for no node at all
gets every one of them (`isSuccessors_iff`).
-/

namespace Pensieve.RingStore

open Foundation

/-! ## The loop -/

/-- The position of `lower_bound`, going round to the first entry. -/
def lowerBound (ring : Ring) (hash : UInt32) : ℕ :=
  let it := (ring.entries.takeWhile fun x ↦ x.1 < hash).length
  if it = ring.entries.length then 0 else it

/-- `++it`, going round to the first entry. -/
def advance (ring : Ring) (it : ℕ) : ℕ := if it + 1 = ring.entries.length then 0 else it + 1

/-- The loop of `get_n_nodes_for_key`, where an iterator is a position on the ring.  It is
`none` as long as it has not come to an end. -/
def lap (ring : Ring) (n start : ℕ) : ℕ → ℕ → Finset NodeId → List NodeId → Option (List NodeId)
  | 0, _, _, _ => none
  | rounds + 1, it, seen, result => do
    let x ← ring.entries[it]?
    if x.2 ∈ seen then
      if advance ring it = start then some result
      else lap ring n start rounds (advance ring it) seen result
    else if (result ++ [x.2]).length = n then some (result ++ [x.2])
    else if advance ring it = start then some (result ++ [x.2])
    else lap ring n start rounds (advance ring it) (insert x.2 seen) (result ++ [x.2])

/-- `get_n_nodes_for_key` after so many rounds of its loop, where `result.reserve(n)` succeeds. -/
def search (ring : Ring) (hash : UInt32) (n rounds : ℕ) : Option (List NodeId) :=
  if ring.entries = [] then some []
  else lap ring n (lowerBound ring hash) rounds (lowerBound ring hash) ∅ []

variable {ring : Ring} (hash : UInt32) {n : ℕ}

theorem lowerBound_lt (h : ring.entries ≠ []) : lowerBound ring hash < ring.entries.length := by
  have hpos := List.length_pos_of_ne_nil h
  have hle : (ring.entries.takeWhile fun x ↦ x.1 < hash).length ≤ ring.entries.length :=
    (List.takeWhile_prefix _).length_le
  rw [lowerBound]
  split <;> omega

/-- A round that begins at `lower_bound`. -/
theorem around_eq_rotate (ring : Ring) (hash : UInt32) :
    ring.around hash = ring.entries.rotate (lowerBound ring hash) := by
  have happ : ring.entries.takeWhile (fun x ↦ x.1 < hash) ++
      ring.entries.dropWhile (fun x ↦ x.1 < hash) = ring.entries := List.takeWhile_append_dropWhile
  rw [SortedMap.around, lowerBound]
  generalize ring.entries.takeWhile (fun x ↦ x.1 < hash) = front at happ ⊢
  generalize ring.entries.dropWhile (fun x ↦ x.1 < hash) = back at happ ⊢
  rw [← happ]
  split
  · rename_i hall
    have hback : back = [] := by
      rw [List.length_append] at hall
      exact List.length_eq_zero_iff.mp (by omega)
    rw [hback, List.nil_append, List.append_nil, List.rotate_zero]
  · rw [List.rotate_append_length_eq]

theorem advance_mod {it : ℕ} (h : it < ring.entries.length) :
    advance ring it = (it + 1) % ring.entries.length := by
  rw [advance]
  split
  · rename_i heq
    rw [heq, Nat.mod_self]
  · rw [Nat.mod_eq_of_lt (by omega)]

section

variable {start j : ℕ}

/-- The position after the `j`-th of a round. -/
theorem advance_add_mod (ring : Ring) (start j : ℕ) (hpos : 0 < ring.entries.length) :
    advance ring ((start + j) % ring.entries.length) = (start + (j + 1)) % ring.entries.length := by
  rw [advance_mod (Nat.mod_lt _ hpos), Nat.mod_add_mod, Nat.add_assoc]

/-- The last of a round is followed by its start. -/
theorem advance_eq_start_iff (hstart : start < ring.entries.length)
    (hj : j < ring.entries.length) :
    advance ring ((start + j) % ring.entries.length) = start ↔ j + 1 = ring.entries.length := by
  rw [advance_add_mod ring start j (by omega)]
  constructor
  · intro h
    by_contra hne
    rcases Nat.lt_or_ge (start + (j + 1)) ring.entries.length with hlt | hge
    · rw [Nat.mod_eq_of_lt hlt] at h
      omega
    · rw [Nat.mod_eq_sub_mod hge, Nat.mod_eq_of_lt (by omega)] at h
      omega
  · intro h
    rw [h, Nat.add_mod_right, Nat.mod_eq_of_lt hstart]

/-- What is left of a round. -/
theorem drop_rotate (hj : j < ring.entries.length)
    (hit : (start + j) % ring.entries.length < ring.entries.length) :
    (ring.entries.rotate start).drop j =
      ring.entries.get ⟨(start + j) % ring.entries.length, hit⟩ ::
        (ring.entries.rotate start).drop (j + 1) := by
  have hlen : j < (ring.entries.rotate start).length := by rwa [List.length_rotate]
  rw [List.drop_eq_getElem_cons hlen, List.getElem_rotate, Nat.add_comm j start]
  rfl

end

/-- The loop sees what remains of the round. -/
theorem lap_eq_some (n : ℕ) {start : ℕ} (hstart : start < ring.entries.length) {rounds j : ℕ}
    (hj : j < ring.entries.length) (hrounds : ring.entries.length ≤ j + rounds)
    (seen : Finset NodeId) (result : List NodeId) :
    lap ring n start rounds ((start + j) % ring.entries.length) seen result =
      some (gather n (((ring.entries.rotate start).drop j).map Prod.snd) seen result) := by
  induction rounds generalizing j seen result with
  | zero => omega
  | succ rounds ih =>
      have hpos : 0 < ring.entries.length := by omega
      have hit := Nat.mod_lt (start + j) hpos
      have hrest : j + 1 = ring.entries.length → (ring.entries.rotate start).drop (j + 1) = [] :=
        fun h ↦ List.drop_eq_nil_of_le (by rw [List.length_rotate, h])
      have hnext := advance_add_mod ring start j hpos
      rw [lap, drop_rotate hj hit, List.map_cons, gather, List.getElem?_eq_getElem hit]
      simp only [Option.bind_eq_bind, Option.bind_some, advance_eq_start_iff hstart hj,
        List.get_eq_getElem]
      split
      · split
        · rename_i hend
          rw [hrest hend, List.map_nil, gather]
        · rename_i hgo
          rw [hnext]
          exact ih (by omega) (by omega) _ _
      · split
        · rfl
        · split
          · rename_i hend
            rw [hrest hend, List.map_nil, gather]
          · rename_i hgo
            rw [hnext]
            exact ih (by omega) (by omega) _ _

/-- The loop comes to an end. -/
theorem search_eq_some (ring : Ring) (hash : UInt32) (n : ℕ) :
    search ring hash n ring.entries.length = some (getNNodesForKey ring hash n) := by
  rw [search, getNNodesForKey]
  split
  · rfl
  · rename_i hne
    have hstart := lowerBound_lt hash hne
    have hround : ring.entries.length ≤ 0 + ring.entries.length := by omega
    have hlap := lap_eq_some n hstart (by omega) hround ∅ []
    rw [Nat.add_zero, Nat.mod_eq_of_lt hstart, List.drop_zero, ← around_eq_rotate] at hlap
    exact hlap

/-! ## What it finds -/

/-- The loop appends the nodes that it meets for the first time, until there are `n`.  Once
there are `n` or more it does not stop again. -/
theorem gather_eq (n : ℕ) (l : List (UInt32 × NodeId)) (seen : Finset NodeId)
    (result : List NodeId) :
    gather n (l.map Prod.snd) seen result =
      result ++ if n ≤ result.length then (firsts Prod.snd seen l).map Prod.snd
        else ((firsts Prod.snd seen l).map Prod.snd).take (n - result.length) := by
  induction l generalizing seen result with
  | nil => simp [gather, firsts]
  | cons x l ih =>
      rw [List.map_cons, gather, firsts]
      by_cases hx : x.2 ∈ seen
      · rw [if_pos hx, if_pos hx, ih]
      rw [if_neg hx, if_neg hx, List.map_cons]
      by_cases hn : (result ++ [x.2]).length = n
      · rw [if_pos hn]
        rw [List.length_append, List.length_singleton] at hn
        have hone : n - result.length = 1 := by omega
        rw [if_neg (by omega), hone, List.take_one, List.head?_cons, Option.toList_some]
      · rw [if_neg hn, ih, List.append_assoc]
        rw [List.length_append, List.length_singleton] at hn ⊢
        by_cases hle : n ≤ result.length
        · rw [if_pos hle, if_pos (by omega), List.singleton_append]
        · have hsub : n - result.length = n - (result.length + 1) + 1 := by omega
          rw [if_neg hle, if_neg (by omega), hsub, List.take_succ_cons, List.singleton_append]

/-- All nodes, nearest first. -/
def byDistance (ring : Ring) (hash : UInt32) : List (UInt32 × NodeId) :=
  firsts Prod.snd ∅ (ring.around hash)

/-- Of the nodes on the ring, the first `n`, if that is not nought. -/
theorem getNNodesForKey_eq (ring : Ring) (hash : UInt32) (n : ℕ) :
    getNNodesForKey ring hash n =
      if n = 0 then (byDistance ring hash).map Prod.snd
      else ((byDistance ring hash).take n).map Prod.snd := by
  rw [getNNodesForKey]
  by_cases hnil : ring.entries = []
  · simp [hnil, byDistance, SortedMap.around, firsts]
  · rw [if_neg hnil, gather_eq, List.nil_append, List.length_nil, Nat.sub_zero, List.map_take]
    simp only [Nat.le_zero]
    rfl

/-- The nodes that have a token on the ring. -/
def nodes (ring : Ring) : Finset NodeId := (ring.entries.map Prod.snd).toFinset

/-- The distance from a hash to the nearest token that is there for a node. -/
def distance (ring : Ring) (hash : UInt32) (node : NodeId) : ℕ :=
  ((ring.entries.filter fun x ↦ x.2 = node).map fun x ↦ clockwise hash x.1).min?.getD 0

theorem toFinset_byDistance (ring : Ring) (hash : UInt32) :
    ((byDistance ring hash).map Prod.snd).toFinset = nodes ring := by
  ext node
  rw [nodes, List.mem_toFinset, List.mem_toFinset, byDistance, mem_map_firsts]
  simp only [Finset.notMem_empty, not_false_iff, and_true, List.mem_map, SortedMap.mem_around]

/-- A node is met first at its nearest token. -/
theorem distance_of_mem {x : UInt32 × NodeId} (hx : x ∈ byDistance ring hash) :
    distance ring hash x.2 = clockwise hash x.1 := by
  have hmem : x ∈ ring.entries := SortedMap.mem_around.mp (firsts_sublist.subset hx)
  have hmin : ((ring.entries.filter fun y ↦ y.2 = x.2).map fun y ↦ clockwise hash y.1).min? =
      some (clockwise hash x.1) := by
    rw [List.min?_eq_some_iff]
    constructor
    · exact List.mem_map.mpr ⟨x, by simp [hmem], rfl⟩
    · intro d hd
      obtain ⟨y, hy, rfl⟩ := List.mem_map.mp hd
      obtain ⟨hy, hnode⟩ := List.mem_filter.mp hy
      rcases rel_of_mem_firsts (ring.around_pairwise hash) hx (SortedMap.mem_around.mpr hy)
        (of_decide_eq_true hnode) with rfl | hlt
      · exact le_rfl
      · exact hlt.le
  rw [distance, hmin, Option.getD_some]

theorem pairwise_byDistance (ring : Ring) (hash : UInt32) :
    ((byDistance ring hash).map Prod.snd).Pairwise fun a b ↦
      distance ring hash a < distance ring hash b := by
  rw [List.pairwise_map]
  refine ((ring.around_pairwise hash).sublist firsts_sublist).imp_of_mem fun {x y} hx hy hxy ↦ ?_
  rwa [distance_of_mem hash hx, distance_of_mem hash hy]

/-- The nearest of all is the owner. -/
theorem head?_byDistance (ring : Ring) (hash : UInt32) :
    ((byDistance ring hash).map Prod.snd).head? = getNodeForKey ring hash := by
  have hfirst : (byDistance ring hash).head? = (ring.around hash).head? := by
    rw [byDistance]
    rcases ring.around hash with _ | ⟨x, l⟩
    · rfl
    · rw [firsts, if_neg (Finset.notMem_empty _)]
      rfl
  rw [List.head?_map, hfirst, SortedMap.head?_around, getNodeForKey]

/-- What is asked for: `n` nodes, or all if there are fewer, the nearest first. -/
structure IsSuccessors (ring : Ring) (hash : UInt32) (n : ℕ) (result : List NodeId) : Prop where
  length_eq : result.length = min n (nodes ring).card
  subset : ∀ node ∈ result, node ∈ nodes ring
  nodup : result.Nodup
  nearest_first : result.Pairwise fun a b ↦ distance ring hash a < distance ring hash b
  owner_first : ∀ node ∈ result.head?, getNodeForKey ring hash = some node

theorem isSuccessors_take (ring : Ring) (hash : UInt32) (n : ℕ) :
    IsSuccessors ring hash n (((byDistance ring hash).map Prod.snd).take n) := by
  have hcard : ((byDistance ring hash).map Prod.snd).length = (nodes ring).card := by
    rw [← toFinset_byDistance ring hash, byDistance,
      List.toFinset_card_of_nodup nodup_map_firsts]
  constructor
  · rw [List.length_take, hcard]
  · intro node hnode
    rw [← toFinset_byDistance ring hash, List.mem_toFinset]
    exact List.mem_of_mem_take hnode
  · exact nodup_map_firsts.sublist (List.take_sublist _ _)
  · exact (pairwise_byDistance ring hash).sublist (List.take_sublist _ _)
  · intro node hnode
    rw [← head?_byDistance]
    rw [List.head?_take] at hnode
    split at hnode
    · exact absurd hnode (Option.not_mem_none _)
    · exact hnode

/-- The search always ends, and it ends with what is asked for unless that is nothing. -/
theorem isSuccessors_iff (ring : Ring) (hash : UInt32) (n : ℕ) :
    search ring hash n ring.entries.length = some (getNNodesForKey ring hash n) ∧
      (IsSuccessors ring hash n (getNNodesForKey ring hash n) ↔ n ≠ 0 ∨ ring.entries = []) := by
  refine ⟨search_eq_some ring hash n, ?_⟩
  rw [getNNodesForKey_eq]
  by_cases hn : n = 0
  · subst hn
    rw [if_pos rfl]
    constructor
    · intro h
      have hlen := h.length_eq
      rw [Nat.zero_min, List.length_eq_zero_iff] at hlen
      have hnodes := toFinset_byDistance ring hash
      rw [hlen, List.toFinset_nil, nodes, eq_comm, List.toFinset_eq_empty_iff,
        List.map_eq_nil_iff] at hnodes
      exact Or.inr hnodes
    · rintro (h | h)
      · exact absurd rfl h
      · have htake := isSuccessors_take ring hash 0
        have hnil : (byDistance ring hash).map Prod.snd = [] := by
          simp [byDistance, SortedMap.around, firsts, h]
        rw [hnil, List.take_nil] at htake
        rwa [hnil]
  · rw [if_neg hn, List.map_take]
    exact ⟨fun _ ↦ Or.inl hn, fun _ ↦ isSuccessors_take ring hash n⟩

/-- One node is found by a search for none. -/
theorem getNNodesForKey_zero :
    let ring := addTokens SortedMap.empty ⟨[97], 1⟩ [100]
    getNNodesForKey ring 50 0 = [⟨[97], 1⟩] ∧
      ¬ IsSuccessors ring 50 0 (getNNodesForKey ring 50 0) := by
  refine ⟨by decide, fun h ↦ ?_⟩
  exact absurd h.length_eq (by decide)

end Pensieve.RingStore
