import Mathlib.Data.Finset.Basic
import Pensieve.Membership.RingStore

/-!
# The ring and its history

A ring after any sequence of `add_node` and `remove_node` calls, where each node is always
added with the same tokens.  An insertion overwrites the entry at a token, and a removal
erases the entries of a node without restoring what they have replaced.

As long as nodes have no token in common, the ring consists of the tokens of those who are
present (`mem_ringAfter_iff`), and the order of the calls is forgotten.  Otherwise the
history can be told from the ring: `history_forgotten_iff`.
-/

namespace Pensieve.RingStore

open Foundation

/-- Calls that change the ring. -/
inductive Op where
  | add (node : NodeId)
  | remove (node : NodeId)
deriving DecidableEq, Repr

/-- The node that a call is about. -/
def Op.node : Op → NodeId
  | .add node => node
  | .remove node => node

/-- The ring after a call, where `tokens` are those that a node is added with. -/
def perform (tokens : NodeId → List UInt32) (ring : Ring) : Op → Ring
  | .add node => addTokens ring node (tokens node)
  | .remove node => removeNode ring node

/-- The ring after a sequence of calls. -/
def ringAfter (tokens : NodeId → List UInt32) (ops : List Op) : Ring :=
  ops.foldl (perform tokens) SortedMap.empty

/-- The nodes that have been added and not removed since. -/
def present (ops : List Op) : Finset NodeId :=
  ops.foldl (fun nodes op ↦ match op with
    | .add node => insert node nodes
    | .remove node => nodes.erase node) ∅

/-- No two of the nodes have a token in common. -/
def Apart (tokens : NodeId → List UInt32) (nodes : Set NodeId) : Prop :=
  ∀ a ∈ nodes, ∀ b ∈ nodes, a ≠ b → List.Disjoint (tokens a) (tokens b)

variable {tokens : NodeId → List UInt32} {ops : List Op} {nodes : Set NodeId}

theorem ringAfter_concat (op : Op) :
    ringAfter tokens (ops ++ [op]) = perform tokens (ringAfter tokens ops) op := by
  rw [ringAfter, List.foldl_append]
  rfl

theorem present_concat_add (node : NodeId) :
    present (ops ++ [.add node]) = insert node (present ops) := by
  rw [present, List.foldl_append]
  rfl

theorem present_concat_remove (node : NodeId) :
    present (ops ++ [.remove node]) = (present ops).erase node := by
  rw [present, List.foldl_append]
  rfl

theorem present_subset (h : ∀ op ∈ ops, op.node ∈ nodes) : ∀ node ∈ present ops, node ∈ nodes := by
  induction ops using List.reverseRecOn with
  | nil => exact fun _ hnode ↦ absurd hnode (Finset.notMem_empty _)
  | append_singleton ops op ih =>
      have hprev := ih fun op hop ↦ h op (List.mem_append_left _ hop)
      intro node hnode
      cases op with
      | add added =>
          rw [present_concat_add, Finset.mem_insert] at hnode
          rcases hnode with rfl | hnode
          · exact h (.add node) (by simp)
          · exact hprev node hnode
      | remove removed =>
          rw [present_concat_remove] at hnode
          exact hprev node (Finset.mem_of_mem_erase hnode)

/-- The entries of the ring are the tokens of those who are present. -/
theorem mem_ringAfter_iff (hapart : Apart tokens nodes) (h : ∀ op ∈ ops, op.node ∈ nodes)
    {x : UInt32 × NodeId} :
    x ∈ (ringAfter tokens ops).entries ↔ x.2 ∈ present ops ∧ x.1 ∈ tokens x.2 := by
  induction ops using List.reverseRecOn with
  | nil => exact iff_of_false (List.not_mem_nil) fun hx ↦ absurd hx.1 (Finset.notMem_empty _)
  | append_singleton ops op ih =>
      have hops : ∀ op ∈ ops, op.node ∈ nodes := fun op hop ↦ h op (List.mem_append_left _ hop)
      rw [ringAfter_concat]
      cases op with
      | add node =>
          rw [perform, mem_addTokens, ih hops, present_concat_add, Finset.mem_insert]
          constructor
          · rintro (⟨htoken, heq⟩ | ⟨-, hpresent, htoken⟩)
            · exact ⟨Or.inl heq, heq ▸ htoken⟩
            · exact ⟨Or.inr hpresent, htoken⟩
          · rintro ⟨hpresent, htoken⟩
            by_cases heq : x.2 = node
            · exact Or.inl ⟨heq ▸ htoken, heq⟩
            · -- the entry is not overwritten, since the node has other tokens
              have hpresent := hpresent.resolve_left heq
              refine Or.inr ⟨fun hother ↦ ?_, hpresent, htoken⟩
              exact hapart x.2 (present_subset hops _ hpresent) node (h (.add node) (by simp)) heq
                htoken hother
      | remove node =>
          rw [perform, mem_removeNode, ih hops, present_concat_remove, Finset.mem_erase]
          tauto

/-- Whoever has a token that is equal to the hash is its owner. -/
theorem getNodeForKey_of_mem {ring : Ring} {token : UInt32} {node : NodeId}
    (h : (token, node) ∈ ring.entries) : getNodeForKey ring token = some node := by
  have hsome := SortedMap.ceilWrap_isSome (List.ne_nil_of_mem h) token
  obtain ⟨⟨t, owner⟩, hx⟩ := Option.isSome_iff_exists.mp hsome
  have howner : getNodeForKey ring token = some owner := by
    rw [getNodeForKey, hx]
    rfl
  obtain ⟨t, hmem, hmin⟩ := getNodeForKey_eq_some howner
  have hself : clockwise token token = 0 := by simp [clockwise]
  have ht : t = token :=
    clockwise_inj ((Nat.le_zero.mp (hself ▸ hmin _ h)).trans hself.symm)
  rw [howner]
  exact congrArg some (congrArg Prod.snd (SortedMap.eq_of_mem hmem h ht))

/-- The owner of a token that two nodes have in common is the one that came last, and when
it leaves the token is nobody's. -/
theorem overwritten {a b : NodeId} {token : UInt32} (hne : a ≠ b) (ha : token ∈ tokens a)
    (hb : token ∈ tokens b) :
    getNodeForKey (ringAfter tokens [.add a, .add b]) token = some b ∧
      (token, a) ∈ (ringAfter tokens [.add a]).entries ∧
      (token, a) ∉ (ringAfter tokens [.add a, .add b, .remove b]).entries := by
  refine ⟨getNodeForKey_of_mem ?_, ?_, fun h ↦ ?_⟩
  · exact mem_addTokens.mpr (Or.inl ⟨hb, rfl⟩)
  · exact mem_addTokens.mpr (Or.inl ⟨ha, rfl⟩)
  · rcases mem_addTokens.mp (mem_removeNode.mp h).1 with ⟨-, heq⟩ | ⟨hnot, -⟩
    · exact hne heq
    · exact hnot hb

/-- **The ring forgets its history** exactly if no two of the nodes that are added and
removed have a token in common: then the owner of a hash depends on who is present only,
and adding somebody new and removing it again changes nothing. -/
theorem history_forgotten_iff (tokens : NodeId → List UInt32) (nodes : Set NodeId) :
    ((∀ ops ops' : List Op, (∀ op ∈ ops, op.node ∈ nodes) → (∀ op ∈ ops', op.node ∈ nodes) →
        present ops = present ops' → ∀ hash,
        getNodeForKey (ringAfter tokens ops) hash = getNodeForKey (ringAfter tokens ops') hash) ∧
      ∀ ops : List Op, (∀ op ∈ ops, op.node ∈ nodes) → ∀ node ∈ nodes, node ∉ present ops →
        ringAfter tokens (ops ++ [.add node] ++ [.remove node]) = ringAfter tokens ops) ↔
    Apart tokens nodes := by
  constructor
  · -- two nodes that share a token own it in the order of their arrival
    rintro ⟨h, -⟩ a ha b hb hne token hta htb
    have hmem : ∀ {x y : NodeId}, x ∈ nodes → y ∈ nodes →
        ∀ op ∈ [Op.add x, Op.add y], op.node ∈ nodes := by
      intro x y hx hy op hop
      rcases List.mem_pair.mp hop with rfl | rfl
      · exact hx
      · exact hy
    have hpresent : present [.add a, .add b] = present [.add b, .add a] :=
      Finset.insert_comm b a ∅
    have heq := h _ _ (hmem ha hb) (hmem hb ha) hpresent token
    rw [(overwritten hne hta htb).1, (overwritten hne.symm htb hta).1] at heq
    exact hne (Option.some.inj heq).symm
  · intro hapart
    have hring : ∀ {ops ops' : List Op}, (∀ op ∈ ops, op.node ∈ nodes) →
        (∀ op ∈ ops', op.node ∈ nodes) → present ops = present ops' →
        ringAfter tokens ops = ringAfter tokens ops' := by
      intro ops ops' hops hops' heq
      refine SortedMap.ext_of_mem fun x ↦ ?_
      rw [mem_ringAfter_iff hapart hops, mem_ringAfter_iff hapart hops', heq]
    refine ⟨fun ops ops' hops hops' heq hash ↦ by rw [hring hops hops' heq], ?_⟩
    intro ops hops node hnode habsent
    refine hring (fun op hop ↦ ?_) hops ?_
    · rw [List.append_assoc] at hop
      rcases List.mem_append.mp hop with hop | hop
      · exact hops op hop
      · rcases List.mem_pair.mp hop with rfl | rfl
        · exact hnode
        · exact hnode
    · rw [present_concat_remove, present_concat_add, Finset.erase_insert habsent]

/-- `10.0.0.15:7946`. -/
def elder : NodeId := ⟨[49, 48, 46, 48, 46, 48, 46, 49, 53], 7946⟩

/-- `10.0.1.5:7946`, which has a token in common with `elder`. -/
def younger : NodeId := ⟨[49, 48, 46, 48, 46, 49, 46, 53], 7946⟩

/-- The owner of the token that two nodes have in common is the one that came last, and
when it leaves the token is nobody's. -/
theorem shared_token :
    (present [.add elder, .add younger] = present [.add younger, .add elder] ∧
      getNodeForKey (ringAfter (tokensOf · kDefaultVnodes) [.add elder, .add younger])
        576326426 = some younger ∧
      getNodeForKey (ringAfter (tokensOf · kDefaultVnodes) [.add younger, .add elder])
        576326426 = some elder) ∧
    younger ∉ present [.add elder] ∧
      (576326426, elder) ∈ (ringAfter (tokensOf · kDefaultVnodes) [.add elder]).entries ∧
      (576326426, elder) ∉ (ringAfter (tokensOf · kDefaultVnodes)
        [.add elder, .add younger, .remove younger]).entries := by
  have helder : 576326426 ∈ tokensOf elder kDefaultVnodes :=
    List.mem_map.mpr ⟨30, List.mem_range.mpr (by decide), by decide +kernel⟩
  have hyounger : 576326426 ∈ tokensOf younger kDefaultVnodes :=
    List.mem_map.mpr ⟨87, List.mem_range.mpr (by decide), by decide +kernel⟩
  have hne : elder ≠ younger := by decide
  exact ⟨⟨by decide, (overwritten hne helder hyounger).1,
    (overwritten hne.symm hyounger helder).1⟩, by decide, (overwritten hne helder hyounger).2⟩

end Pensieve.RingStore
