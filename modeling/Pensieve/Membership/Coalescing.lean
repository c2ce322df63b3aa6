import Pensieve.Membership.Merge
import Pensieve.Membership.Transmission

/-!
# What the queue forgets

The queue keeps one update about a node, and drops the others.  The updates are ordered there
by incarnation and type; a table orders what it learns by incarnation and state.  The second
order follows the first (`rank_mono`), so the update that is kept is one that makes the others
superfluous: a table that knows the nodes ends up with the same entries (`coalescing_lossless`).

The receiver's own entry is another matter.  A node answers every rumour about itself with a
new incarnation, and how many rumours there have been cannot be told from the queue.
-/

namespace Pensieve

open Foundation

theorem UpdateType.newState_mono {a b : UpdateType} (h : a.toNat ≤ b.toNat) :
    a.newState ≤ b.newState := by
  revert h
  cases a <;> cases b <;> decide

namespace Disseminator

/-- An update of higher precedence has a higher rank. -/
theorem rank_mono {u v : MembershipUpdate} (h : precedence u ≤ precedence v) : u.rank ≤ v.rank := by
  rw [precedence, precedence, Prod.Lex.toLex_le_toLex] at h
  rw [MembershipUpdate.rank, MembershipUpdate.rank, Prod.Lex.toLex_le_toLex]
  exact h.imp_right fun h ↦ ⟨h.1, UpdateType.newState_mono h.2⟩

/-- A queue into which updates have been put. -/
def ofUpdates (max : ℕ) (us : List MembershipUpdate) : Disseminator :=
  us.foldl enqueue ⟨max, []⟩

/-- What is in the queue: the updates that have not been dropped. -/
def updates (d : Disseminator) : List MembershipUpdate := d.queue.map Entry.update

variable {max : ℕ} {us : List MembershipUpdate} {u : MembershipUpdate}

theorem ofUpdates_concat (max : ℕ) (us : List MembershipUpdate) (u : MembershipUpdate) :
    ofUpdates max (us ++ [u]) = (ofUpdates max us).enqueue u := by
  rw [ofUpdates, List.foldl_append]
  rfl

/-- What is in the queue has been put there. -/
theorem mem_of_mem_updates (h : u ∈ (ofUpdates max us).updates) : u ∈ us := by
  induction us using List.reverseRecOn with
  | nil => cases h
  | append_singleton us v ih =>
      rw [ofUpdates_concat] at h
      obtain ⟨e, he, rfl⟩ := List.mem_map.mp h
      rcases mem_enqueueIn he with rfl | he
      · exact List.mem_append_right _ (List.mem_singleton_self _)
      · exact List.mem_append_left _ (ih (List.mem_map_of_mem he))

/-- For what has been put there, something is in the queue that is at least as new. -/
theorem exists_mem_updates (max : ℕ) (h : u ∈ us) :
    ∃ v ∈ (ofUpdates max us).updates, v.node = u.node ∧ precedence u ≤ precedence v := by
  induction us using List.reverseRecOn with
  | nil => cases h
  | append_singleton us w ih =>
      rw [ofUpdates_concat]
      -- the new update is in the queue, or it is not newer than what is
      obtain ⟨e, he, hcase⟩ := exists_mem_enqueueIn w (ofUpdates max us).queue
      have hnew : e.update.node = w.node ∧ precedence w ≤ precedence e.update := by
        rcases hcase with heq | ⟨-, hnode, hkept⟩
        · rw [heq]
          exact ⟨rfl, le_rfl⟩
        · exact ⟨hnode, not_lt.mp fun hlt ↦ by simp [supersedes_iff.mpr hlt] at hkept⟩
      rcases List.mem_append.mp h with hold | hlast
      · obtain ⟨v, hv, hnode, hle⟩ := ih hold
        obtain ⟨e₀, he₀, rfl⟩ := List.mem_map.mp hv
        by_cases hdrop : e₀.update.node = w.node ∧ supersedes w e₀.update = true
        · refine ⟨e.update, List.mem_map_of_mem he, ?_, ?_⟩
          · rw [hnew.1, ← hdrop.1, hnode]
          · exact hle.trans ((supersedes_iff.mp hdrop.2).le.trans hnew.2)
        · have hkeep := mem_enqueueIn_of_mem he₀ fun heq ↦
            Bool.eq_false_iff.mpr fun hsup ↦ hdrop ⟨heq, hsup⟩
          exact ⟨e₀.update, List.mem_map_of_mem hkeep, hnode, hle⟩
      · rw [List.mem_singleton.mp hlast]
        exact ⟨e.update, List.mem_map_of_mem he, hnew⟩

end Disseminator

namespace SwimProtocol

variable {p : SwimProtocol} {us vs : List MembershipUpdate} {id : NodeId}

/-! ## Other nodes -/

/-- Updates leave the entries of nodes that none of them is about. -/
theorem ranks_applyUpdates_of_ne (now : Time) (h : ∀ u ∈ us, id ≠ u.node) :
    (p.applyUpdates now us).members.ranks id = p.members.ranks id := by
  induction us generalizing p with
  | nil => rfl
  | cons u us ih =>
      obtain ⟨hu, hus⟩ := List.forall_mem_cons.mp h
      exact (ih hus).trans (ranks_applyUpdate_of_ne now hu)

/-- Some of the updates have the effect of all, if for each of the others there is one about
the same node that ranks as high. -/
theorem ranks_applyUpdates_of_cofinal (now now' : Time) (hself : id ≠ p.self)
    (hknown : ∀ u ∈ us, u.node ≠ p.self → (p.members.getNode u.node).isSome)
    (hsub : ∀ v ∈ vs, v ∈ us) (hcof : ∀ u ∈ us, ∃ v ∈ vs, v.node = u.node ∧ u.rank ≤ v.rank) :
    (p.applyUpdates now' vs).members.ranks id = (p.applyUpdates now us).members.ranks id := by
  by_cases hid : (p.members.getNode id).isSome
  · rw [ranks_applyUpdates_of_known now us hself hid, ranks_applyUpdates_of_known now' vs hself hid]
    obtain ⟨e, he⟩ := Option.isSome_iff_exists.mp hid
    have hsome : p.members.ranks id = some e.rank := by rw [MemberList.ranks, he, Option.map_some]
    obtain ⟨r, hr, hgt⟩ := raiseAll_eq_some MembershipUpdate.node MembershipUpdate.rank us hsome
    obtain ⟨r', hr', hgt'⟩ := raiseAll_eq_some MembershipUpdate.node MembershipUpdate.rank vs hsome
    rw [hr, hr', Option.some.injEq]
    apply le_antisymm
    · refine hgt.2 (Set.insert_subset_insert ?_ hgt'.1)
      rintro x ⟨v, hv, hnode, rfl⟩
      exact ⟨v, hsub v hv, hnode, rfl⟩
    · rcases hgt.1 with rfl | ⟨u, hu, hnode, rfl⟩
      · exact hgt'.2 (Set.mem_insert _ _)
      · obtain ⟨v, hv, hvnode, hle⟩ := hcof u hu
        exact hle.trans (hgt'.2 (Set.mem_insert_of_mem _ ⟨v, hv, hvnode.trans hnode, rfl⟩))
  · -- no update is about a node that is not known
    have hus : ∀ u ∈ us, id ≠ u.node := by
      rintro u hu rfl
      exact hid (hknown u hu hself)
    rw [ranks_applyUpdates_of_ne now hus,
      ranks_applyUpdates_of_ne now' fun v hv ↦ hus v (hsub v hv)]

/-! ## The receiver itself -/

/-- A rumour that the node is not alive. -/
def IsRumour (self : NodeId) (u : MembershipUpdate) : Bool :=
  u.node = self && (u.type = .suspect || u.type = .dead)

/-- What a node's own incarnation and entry become when it answers a rumour. -/
def answer (x : UInt64 × Option Rank) : UInt64 × Option Rank :=
  (x.1 + 1, x.2.map (max · (toLex (x.1 + 1, .alive))))

/-- A node's own incarnation and entry depend on the number of rumours. -/
theorem self_applyUpdates (p : SwimProtocol) (now : Time) (us : List MembershipUpdate) :
    ((p.applyUpdates now us).incarnation, (p.applyUpdates now us).members.ranks p.self) =
      answer^[us.countP (IsRumour p.self)] (p.incarnation, p.members.ranks p.self) := by
  induction us generalizing p with
  | nil => rfl
  | cons u us ih =>
      have hrest := ih (p.applyUpdate now u)
      rw [applyUpdate_self] at hrest
      refine hrest.trans ?_
      rw [List.countP_cons]
      split_ifs with hrumour
      · obtain ⟨hnode, htype⟩ := (Bool.and_eq_true _ _).mp hrumour
        have hnode := of_decide_eq_true hnode
        rw [Function.iterate_succ_apply, applyUpdate, if_pos hnode, if_pos htype, refute, answer]
        dsimp only
        rw [MemberList.ranks_updateState, raise_self]
      · rw [Nat.add_zero]
        congr 1
        by_cases hnode : u.node = p.self
        · have htype : ¬ (u.type = .suspect || u.type = .dead) = true := fun htype ↦
            hrumour ((Bool.and_eq_true _ _).mpr ⟨decide_eq_true hnode, htype⟩)
          rw [applyUpdate, if_pos hnode, if_neg htype]
        · rw [ranks_applyUpdate_of_ne now (Ne.symm hnode), applyUpdate, if_neg hnode]
          split_ifs <;> rfl

/-- **The queue loses nothing that its readers need.**  Applying what is in the queue, in any
order, gives all other nodes the incarnations and states that applying all updates gives
them, and the receiver its own if the queue has kept as many rumours about it. -/
theorem coalescing_lossless (p : SwimProtocol) (us vs : List MembershipUpdate) (max : ℕ)
    (now now' : Time)
    (hknown : ∀ u ∈ us, u.node ≠ p.self → (p.members.getNode u.node).isSome)
    (hvs : vs.Perm (Disseminator.ofUpdates max us).updates) :
    (∀ id, id ≠ p.self →
      (p.applyUpdates now' vs).members.ranks id = (p.applyUpdates now us).members.ranks id) ∧
    (vs.countP (IsRumour p.self) = us.countP (IsRumour p.self) →
      (p.applyUpdates now' vs).members.ranks p.self =
        (p.applyUpdates now us).members.ranks p.self) := by
  constructor
  · intro id hself
    refine ranks_applyUpdates_of_cofinal now now' hself hknown (fun v hv ↦ ?_) fun u hu ↦ ?_
    · exact Disseminator.mem_of_mem_updates (hvs.mem_iff.mp hv)
    · obtain ⟨v, hv, hnode, hle⟩ := Disseminator.exists_mem_updates max hu
      exact ⟨v, hvs.mem_iff.mpr hv, hnode, Disseminator.rank_mono hle⟩
  · intro hcount
    have hall := self_applyUpdates p now us
    have hkept := self_applyUpdates p now' vs
    rw [hcount, ← hall] at hkept
    exact congrArg Prod.snd hkept

/-- A suspicion of the seed, which turns into its death. -/
theorem coalescing_lossless_seed :
    let seed : NodeId := ⟨[98], 7946⟩
    let p := start ⟨5000, 3, 8, 11211⟩ ⟨[97], 7946⟩ (some (seed, 11211)) 0
    let us : List MembershipUpdate := [⟨.suspect, seed, 0, 0⟩, ⟨.dead, seed, 0, 0⟩]
    (p.applyUpdates 2 [⟨.dead, seed, 0, 0⟩]).members.ranks seed =
      (p.applyUpdates 1 us).members.ranks seed := by
  intro seed p us
  exact (coalescing_lossless p us [⟨.dead, seed, 0, 0⟩] 10 1 2 (by decide +kernel)
    (by decide +kernel)).1 seed (by decide)

/-- Of two rumours about the receiver one is kept, and its incarnation is not what it would
have been. -/
theorem coalescing_own_entry :
    let self : NodeId := ⟨[97], 7946⟩
    let p := start ⟨5000, 3, 8, 11211⟩ self none 0
    let us : List MembershipUpdate := [⟨.suspect, self, 0, 0⟩, ⟨.dead, self, 0, 0⟩]
    (p.applyUpdates 0 us).members.ranks self = some (toLex (2, .alive)) ∧
      (p.applyUpdates 0 (Disseminator.ofUpdates 10 us).updates).members.ranks self =
        some (toLex (1, .alive)) := by
  decide +kernel

end SwimProtocol

end Pensieve
