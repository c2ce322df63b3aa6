import Mathlib.Data.List.FinRange
import Pensieve.Membership.RingStore

/-!
# Range migrations

`src/membership/ring_migration.cpp`: which ranges of hashes change their owner
between two rings.  The tokens of both rings are merged into one sorted list of
boundaries, and ownership is compared at each boundary.

That is exact because ownership in either ring is constant on the arc that ends in
a boundary: all hashes of the arc have that boundary as their successor
(`inArc_iff_isNext`), and a ring whose tokens are among the boundaries gives a hash
and its successor the same owner (`ownerAt_eq_of_isNext`).
-/

namespace Pensieve

open Foundation

/-- A range of hashes, the node that had it and the node that gets it. -/
structure RangeMigration where
  rangeStart : UInt32
  rangeEnd : UInt32
  fromNode : NodeId
  toNode : NodeId
deriving DecidableEq

/-- The range is exclusive of its start and inclusive of its end, and wraps when
the end is not after the start. -/
def RangeMigration.Contains (r : RangeMigration) (hash : UInt32) : Prop :=
  InArc r.rangeStart r.rangeEnd hash

instance (r : RangeMigration) (hash : UInt32) : Decidable (r.Contains hash) :=
  inferInstanceAs (Decidable (InArc _ _ _))

namespace RingMigration

/-- `owner_at`, for a ring that is not empty. -/
def ownerAt (ring : Ring) (hne : ring.entries ≠ []) (hash : UInt32) : NodeId :=
  ((ring.ceilWrap hash).get (SortedMap.ceilWrap_isSome hne hash)).2

/-- The set of all tokens of the two rings. -/
def boundaries (oldRing newRing : Ring) : SortedMap UInt32 Unit :=
  newRing.keys.foldl (fun s token ↦ s.insert token ())
    (oldRing.keys.foldl (fun s token ↦ s.insert token ()) .empty)

/-- The body of the loop: the range that ends at a boundary, if its owner
changed. -/
def migrationAt (oldRing newRing : Ring) (ho : oldRing.entries ≠ []) (hn : newRing.entries ≠ [])
    (sorted : List UInt32) (i : Fin sorted.length) : Option RangeMigration :=
  let curr := sorted.get i
  let prev := before sorted i
  let oldOwner := ownerAt oldRing ho curr
  let newOwner := ownerAt newRing hn curr
  if oldOwner ≠ newOwner then some ⟨prev, curr, oldOwner, newOwner⟩ else none

/-- `compute_migrations`. -/
def computeMigrations (oldRing newRing : Ring) : List RangeMigration :=
  if ho : oldRing.entries = [] then []
  else if hn : newRing.entries = [] then []
  else
    let sorted := (boundaries oldRing newRing).keys
    (List.finRange sorted.length).filterMap (migrationAt oldRing newRing ho hn sorted)

/-! ## The boundaries -/

theorem mem_keys_foldl_insert {tokens : List UInt32} {s : SortedMap UInt32 Unit} {t : UInt32} :
    t ∈ (tokens.foldl (fun s token ↦ s.insert token ()) s).keys ↔ t ∈ s.keys ∨ t ∈ tokens := by
  induction tokens generalizing s with
  | nil => simp
  | cons token tokens ih =>
      have hkeys : t ∈ (s.insert token ()).keys ↔ t ∈ s.keys ∨ t = token := by
        simp only [SortedMap.keys, List.mem_map, SortedMap.mem_insert]
        constructor
        · rintro ⟨x, rfl | ⟨hx, -⟩, rfl⟩
          · exact Or.inr rfl
          · exact Or.inl ⟨x, hx, rfl⟩
        · by_cases ht : t = token
          · exact fun _ ↦ ⟨(token, ()), Or.inl rfl, ht.symm⟩
          · rintro (⟨x, hx, rfl⟩ | heq)
            · exact ⟨x, Or.inr ⟨hx, ht⟩, rfl⟩
            · exact absurd heq ht
      rw [List.foldl_cons, ih, hkeys, List.mem_cons, or_assoc]

theorem mem_boundaries {oldRing newRing : Ring} {t : UInt32} :
    t ∈ (boundaries oldRing newRing).keys ↔ t ∈ oldRing.keys ∨ t ∈ newRing.keys := by
  rw [boundaries, mem_keys_foldl_insert, mem_keys_foldl_insert]
  simp [SortedMap.empty, SortedMap.keys]

/-- Every hash has a successor among the boundaries. -/
theorem exists_isNext (s : SortedMap UInt32 Unit) (hne : s.keys ≠ []) (hash : UInt32) :
    ∃ i : Fin s.keys.length, IsNext s.keys hash (s.keys.get i) := by
  have hne' : s.entries ≠ [] := fun h ↦ hne (by rw [SortedMap.keys, h]; rfl)
  obtain ⟨x, hx⟩ := Option.isSome_iff_exists.mp (SortedMap.ceilWrap_isSome hne' hash)
  obtain ⟨-, hnext⟩ := SortedMap.isNext_of_ceilWrap hx
  obtain ⟨i, hi⟩ := List.mem_iff_get.mp hnext.1
  exact ⟨i, by rw [hi]; exact hnext⟩

/-- A hash and its successor have the same owner. -/
theorem ownerAt_eq_of_isNext {ring : Ring} (hne : ring.entries ≠ []) {l : List UInt32}
    {hash b : UInt32} (hl : ∀ x ∈ ring.entries, x.1 ∈ l) (hb : IsNext l hash b) :
    ownerAt ring hne hash = ownerAt ring hne b := by
  simp only [ownerAt, SortedMap.ceilWrap_eq_of_isNext hl hb]

/-! ## Exactness -/

theorem migrationAt_eq_some {oldRing newRing : Ring} {ho : oldRing.entries ≠ []}
    {hn : newRing.entries ≠ []} {sorted : List UInt32} {i : Fin sorted.length}
    {r : RangeMigration} :
    migrationAt oldRing newRing ho hn sorted i = some r ↔
      ownerAt oldRing ho (sorted.get i) ≠ ownerAt newRing hn (sorted.get i) ∧
      r = ⟨before sorted i, sorted.get i, ownerAt oldRing ho (sorted.get i),
        ownerAt newRing hn (sorted.get i)⟩ := by
  simp only [migrationAt]
  by_cases hne : ownerAt oldRing ho (sorted.get i) = ownerAt newRing hn (sorted.get i)
  · rw [if_neg (not_not.mpr hne)]
    exact ⟨fun h ↦ (nomatch h), fun h ↦ absurd hne h.1⟩
  · rw [if_pos hne, Option.some.injEq]
    exact ⟨fun h ↦ ⟨hne, h.symm⟩, fun h ↦ h.2.symm⟩

/-- Of a list without duplicates, what a partial function keeps is a singleton if
it keeps one element only. -/
theorem filterMap_eq_singleton {ι β : Type*} {l : List ι} {g : ι → Option β} {i : ι} {b : β}
    (hl : l.Nodup) (hi : i ∈ l) (hb : g i = some b) (hother : ∀ j ∈ l, j ≠ i → g j = none) :
    l.filterMap g = [b] := by
  induction l with
  | nil => cases hi
  | cons x l ih =>
      obtain ⟨hx, hl⟩ := List.nodup_cons.mp hl
      rcases List.mem_cons.mp hi with rfl | hil
      · rw [List.filterMap_cons_some hb]
        refine congrArg (b :: ·) (List.filterMap_eq_nil_iff.mpr fun j hj ↦ ?_)
        exact hother j (List.mem_cons_of_mem _ hj) fun h ↦ hx (h ▸ hj)
      · have hxi : x ≠ i := fun h ↦ hx (h ▸ hil)
        rw [List.filterMap_cons_none (hother x List.mem_cons_self hxi)]
        exact ih hl hil fun j hj ↦ hother j (List.mem_cons_of_mem _ hj)

/-- **Migrations are exact.**  A hash that keeps its owner is in no range; a hash
whose owner changes is in exactly one, which names its old and its new owner. -/
theorem computeMigrations_exact (oldRing newRing : Ring) (ho : oldRing.entries ≠ [])
    (hn : newRing.entries ≠ []) (hash : UInt32) :
    (ownerAt oldRing ho hash = ownerAt newRing hn hash →
      ∀ r ∈ computeMigrations oldRing newRing, ¬ r.Contains hash) ∧
    (ownerAt oldRing ho hash ≠ ownerAt newRing hn hash →
      ∃ r, (computeMigrations oldRing newRing).filter (·.Contains hash) = [r] ∧
        r.fromNode = ownerAt oldRing ho hash ∧ r.toNode = ownerAt newRing hn hash) := by
  have hold : ∀ x ∈ oldRing.entries, x.1 ∈ (boundaries oldRing newRing).keys := fun x hx ↦
    mem_boundaries.mpr (Or.inl (List.mem_map_of_mem hx))
  have hnew : ∀ x ∈ newRing.entries, x.1 ∈ (boundaries oldRing newRing).keys := fun x hx ↦
    mem_boundaries.mpr (Or.inr (List.mem_map_of_mem hx))
  have hbne : (boundaries oldRing newRing).keys ≠ [] := by
    obtain ⟨x, hx⟩ := List.exists_mem_of_ne_nil _ ho
    exact List.ne_nil_of_mem (hold x hx)
  obtain ⟨i, hi⟩ := exists_isNext (boundaries oldRing newRing) hbne hash
  -- a range that contains the hash ends at the hash's successor
  have harc : ∀ {j r}, migrationAt oldRing newRing ho hn (boundaries oldRing newRing).keys j
      = some r → (r.Contains hash ↔ j = i) := by
    intro j r hr
    obtain ⟨-, rfl⟩ := migrationAt_eq_some.mp hr
    refine (inArc_iff_isNext (boundaries oldRing newRing).keys_sorted j).trans ⟨fun h ↦ ?_, ?_⟩
    · have hnd : (boundaries oldRing newRing).keys.Nodup :=
        (boundaries oldRing newRing).keys_sorted.imp ne_of_lt
      exact List.nodup_iff_injective_get.mp hnd (h.unique hi)
    · rintro rfl
      exact hi
  have hcompute : computeMigrations oldRing newRing
      = (List.finRange (boundaries oldRing newRing).keys.length).filterMap
          (migrationAt oldRing newRing ho hn (boundaries oldRing newRing).keys) := by
    rw [computeMigrations, dif_neg ho, dif_neg hn]
  rw [ownerAt_eq_of_isNext ho hold hi, ownerAt_eq_of_isNext hn hnew hi, hcompute]
  constructor
  · intro heq r hr hc
    obtain ⟨j, -, hj⟩ := List.mem_filterMap.mp hr
    obtain rfl := (harc hj).mp hc
    exact (migrationAt_eq_some.mp hj).1 heq
  · intro hne
    refine ⟨⟨before _ i, (boundaries oldRing newRing).keys.get i, ownerAt oldRing ho _,
      ownerAt newRing hn _⟩, ?_, rfl, rfl⟩
    rw [List.filter_filterMap]
    refine filterMap_eq_singleton (List.nodup_finRange _) (List.mem_finRange i) ?_ ?_
    · have hi' := migrationAt_eq_some.mpr ⟨hne, rfl⟩
      rw [hi', Option.filter_some, if_pos]
      simpa using (harc hi').mpr rfl
    · intro j _ hj
      rcases hr : migrationAt oldRing newRing ho hn (boundaries oldRing newRing).keys j with _ | r
      · rfl
      · rw [Option.filter_some, if_neg]
        simpa using fun h ↦ hj ((harc hr).mp h)

/-- A node joins a ring of one token: a hash before its token moves to it, a hash
after it does not, and both lie on the arc that went round. -/
theorem computeMigrations_exact_join :
    let nodeA : NodeId := ⟨[97], 7946⟩
    let nodeB : NodeId := ⟨[98], 7946⟩
    let oldRing : Ring := ⟨[(10, nodeA)], by decide⟩
    let newRing : Ring := ⟨[(10, nodeA), (20, nodeB)], by decide⟩
    (∃ r, (computeMigrations oldRing newRing).filter (·.Contains 15) = [r] ∧
      r.fromNode = nodeA ∧ r.toNode = nodeB) ∧
    ∀ r ∈ computeMigrations oldRing newRing, ¬ r.Contains 25 := by
  intro nodeA nodeB oldRing newRing
  exact ⟨(computeMigrations_exact oldRing newRing (by decide) (by decide) 15).2 (by decide),
    (computeMigrations_exact oldRing newRing (by decide) (by decide) 25).1 (by decide)⟩

end RingMigration

end Pensieve
