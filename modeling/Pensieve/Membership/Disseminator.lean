import Mathlib.Data.List.Sort
import Pensieve.Membership.SwimMessage

/-!
# The dissemination queue

`src/membership/disseminator.cpp`: the updates a node passes on, at most one about
each node.  A newer update takes the place of an older one; an update that has
been handed out often enough is dropped.
-/

namespace Pensieve

open Foundation

/-- A queued update and the number of times it has been handed out. -/
structure Entry where
  update : MembershipUpdate
  transmitCount : UInt32
deriving DecidableEq, Repr

/-- The queue. -/
structure Disseminator where
  maxTransmissions : ℕ
  queue : List Entry
deriving DecidableEq, Repr

/-- A way to sort entries by their counts.  `std::sort` leaves the order of equal
counts open. -/
structure SortByCount where
  run : List Entry → List Entry
  perm (q : List Entry) : (run q).Perm q
  sorted (q : List Entry) : (run q).Pairwise fun a b ↦ a.transmitCount ≤ b.transmitCount

/-- The stable sort is one way. -/
def SortByCount.stable : SortByCount where
  run := List.insertionSort fun a b ↦ a.transmitCount ≤ b.transmitCount
  perm := List.perm_insertionSort _
  sorted :=
    haveI : Std.Total fun a b : Entry ↦ a.transmitCount ≤ b.transmitCount :=
      ⟨fun _ _ ↦ le_total _ _⟩
    haveI : IsTrans Entry fun a b : Entry ↦ a.transmitCount ≤ b.transmitCount :=
      ⟨fun _ _ _ ↦ le_trans⟩
    List.pairwise_insertionSort _

namespace Disseminator

/-- The test that `enqueue` makes before it replaces a queued update. -/
def supersedes (update queued : MembershipUpdate) : Bool :=
  update.incarnation > queued.incarnation ||
    (update.incarnation = queued.incarnation && queued.type.toNat < update.type.toNat)

/-- The loop of `enqueue` over the queue. -/
def enqueueIn (update : MembershipUpdate) : List Entry → List Entry
  | [] => [⟨update, 0⟩]
  | e :: q =>
    if e.update.node = update.node then
      if supersedes update e.update then ⟨update, 0⟩ :: q else e :: q
    else e :: enqueueIn update q

/-- `enqueue`. -/
def enqueue (d : Disseminator) (update : MembershipUpdate) : Disseminator :=
  { d with queue := enqueueIn update d.queue }

/-- Count one more transmission of each of the first `count` entries. -/
def countUp (count : ℕ) (q : List Entry) : List Entry :=
  ((q.take count).map fun e ↦ { e with transmitCount := e.transmitCount + 1 }) ++ q.drop count

/-- `get_updates`. -/
def getUpdates (sort : SortByCount) (d : Disseminator) (limit : ℕ) :
    List MembershipUpdate × Disseminator :=
  let q := sort.run d.queue
  let count := min limit q.length
  ((q.take count).map Entry.update,
    { d with queue := (countUp count q).filter fun e ↦ e.transmitCount.toNat < d.maxTransmissions })

/-! ## What may be in the queue -/

/-- An entry after `enqueue` is the new update or was there before. -/
theorem mem_enqueueIn {update : MembershipUpdate} {q : List Entry} {e : Entry}
    (h : e ∈ enqueueIn update q) : e = ⟨update, 0⟩ ∨ e ∈ q := by
  induction q with
  | nil => exact Or.inl (List.mem_singleton.mp h)
  | cons x q ih =>
      rw [enqueueIn] at h
      split_ifs at h
      · rcases List.mem_cons.mp h with rfl | h
        · exact Or.inl rfl
        · exact Or.inr (List.mem_cons_of_mem _ h)
      · exact Or.inr h
      · rcases List.mem_cons.mp h with rfl | h
        · exact Or.inr List.mem_cons_self
        · rcases ih h with h | h
          · exact Or.inl h
          · exact Or.inr (List.mem_cons_of_mem _ h)

/-- An update gets in unless one about the same node is queued that it does not
supersede. -/
theorem exists_mem_enqueueIn (update : MembershipUpdate) (q : List Entry) :
    ∃ e ∈ enqueueIn update q, e.update = update ∨
      (e ∈ q ∧ e.update.node = update.node ∧ supersedes update e.update = false) := by
  induction q with
  | nil => exact ⟨_, List.mem_singleton.mpr rfl, Or.inl rfl⟩
  | cons x q ih =>
      rw [enqueueIn]
      split_ifs with hnode hsup
      · exact ⟨_, List.mem_cons_self, Or.inl rfl⟩
      · exact ⟨x, List.mem_cons_self,
          Or.inr ⟨List.mem_cons_self, hnode, Bool.eq_false_iff.mpr hsup⟩⟩
      · obtain ⟨e, he, h | ⟨hq, h⟩⟩ := ih
        · exact ⟨e, List.mem_cons_of_mem _ he, Or.inl h⟩
        · exact ⟨e, List.mem_cons_of_mem _ he, Or.inr ⟨List.mem_cons_of_mem _ hq, h⟩⟩

/-- What is left after `get_updates` was queued before. -/
theorem update_mem_of_getUpdates {sort : SortByCount} {d : Disseminator} {limit : ℕ} {e : Entry}
    (h : e ∈ (d.getUpdates sort limit).2.queue) : ∃ e' ∈ d.queue, e'.update = e.update := by
  have hq : e ∈ countUp (min limit (sort.run d.queue).length) (sort.run d.queue) :=
    (List.mem_filter.mp h).1
  rcases List.mem_append.mp hq with h | h
  · obtain ⟨e', he', rfl⟩ := List.mem_map.mp h
    exact ⟨e', (sort.perm _).mem_iff.mp (List.mem_of_mem_take he'), rfl⟩
  · exact ⟨e, (sort.perm _).mem_iff.mp (List.mem_of_mem_drop h), rfl⟩

/-- What is handed out was queued. -/
theorem mem_of_mem_getUpdates {sort : SortByCount} {d : Disseminator} {limit : ℕ}
    {u : MembershipUpdate} (h : u ∈ (d.getUpdates sort limit).1) :
    ∃ e ∈ d.queue, e.update = u := by
  obtain ⟨e, he, rfl⟩ := List.mem_map.mp h
  exact ⟨e, (sort.perm _).mem_iff.mp (List.mem_of_mem_take he), rfl⟩

/-- An entry stays unless the update is about the same node and supersedes it. -/
theorem mem_enqueueIn_of_mem {update : MembershipUpdate} {q : List Entry} {e : Entry} (h : e ∈ q)
    (hkeep : e.update.node = update.node → supersedes update e.update = false) :
    e ∈ enqueueIn update q := by
  induction q with
  | nil => cases h
  | cons x q ih =>
      rw [enqueueIn]
      rcases List.mem_cons.mp h with rfl | h
      · split_ifs with hnode hsup
        · rw [hkeep hnode] at hsup
          cases hsup
        · exact List.mem_cons_self
        · exact List.mem_cons_self
      · split_ifs
        · exact List.mem_cons_of_mem _ h
        · exact List.mem_cons_of_mem _ h
        · exact List.mem_cons_of_mem _ (ih h)

/-- `get_updates` hands an entry out or leaves it in the queue. -/
theorem mem_getUpdates (sort : SortByCount) {d : Disseminator} (limit : ℕ) {e : Entry}
    (h : e ∈ d.queue) (hcount : e.transmitCount.toNat < d.maxTransmissions) :
    e.update ∈ (d.getUpdates sort limit).1 ∨ e ∈ (d.getUpdates sort limit).2.queue := by
  have hsorted : e ∈ sort.run d.queue := (sort.perm _).mem_iff.mpr h
  rw [← List.take_append_drop (min limit (sort.run d.queue).length) (sort.run d.queue),
    List.mem_append] at hsorted
  rcases hsorted with htake | hdrop
  · exact Or.inl (List.mem_map_of_mem htake)
  · exact Or.inr (List.mem_filter.mpr ⟨List.mem_append_right _ hdrop, by simpa using hcount⟩)

/-- What `get_updates` leaves may be handed out once more. -/
theorem transmitCount_of_getUpdates {sort : SortByCount} {d : Disseminator} {limit : ℕ} {e : Entry}
    (h : e ∈ (d.getUpdates sort limit).2.queue) : e.transmitCount.toNat < d.maxTransmissions := by
  simpa using (List.mem_filter.mp h).2

end Disseminator

end Pensieve
