import Pensieve.Membership.RingMigration

/-!
# How many transfers there are

`compute_migrations` makes one entry of each arc between two boundaries whose owner changes.
Arcs that follow each other may go from the same node to the same node, and the entries are
not merged then: a set of ranges that says the same may be smaller.

They are as few as possible exactly if it does not come to this (`isMinimal_iff`).  The reason
is that a range with two of the boundaries in it runs from one of them to the other, and so it
contains the boundary before the second (`InArc.segment`, `before_mem`).
-/

namespace Pensieve.RingMigration

open Foundation

section

variable (oldRing newRing : Ring) (ho : oldRing.entries ≠ []) (hn : newRing.entries ≠ [])

/-- The ranges say who had and who gets each hash that changes its owner, and do not touch the
others. -/
structure Describes (rs : List RangeMigration) : Prop where
  sound : ∀ r ∈ rs, ∀ hash, r.Contains hash →
    r.fromNode = ownerAt oldRing ho hash ∧ r.toNode = ownerAt newRing hn hash
  changed : ∀ r ∈ rs, r.fromNode ≠ r.toNode
  complete : ∀ hash, ownerAt oldRing ho hash ≠ ownerAt newRing hn hash →
    ∃ r ∈ rs, r.Contains hash

/-- The old and the new owner of a hash. -/
def transfer (hash : UInt32) : NodeId × NodeId :=
  (ownerAt oldRing ho hash, ownerAt newRing hn hash)

/-- No arc changes hands in the same way as the arc before it. -/
def Alternates : Prop :=
  let sorted := (boundaries oldRing newRing).keys
  ∀ i : Fin sorted.length, before sorted i ≠ sorted.get i →
    ownerAt oldRing ho (sorted.get i) ≠ ownerAt newRing hn (sorted.get i) →
      transfer oldRing newRing ho hn (before sorted i) ≠
        transfer oldRing newRing ho hn (sorted.get i)

instance : Decidable (Alternates oldRing newRing ho hn) :=
  inferInstanceAs (Decidable (∀ _, _))

end

/-- No two entries with the same nodes follow each other. -/
def Unmergeable (ms : List RangeMigration) : Prop :=
  ∀ r ∈ ms, ∀ r' ∈ ms, r ≠ r' → r.fromNode = r'.fromNode → r.toNode = r'.toNode →
    r.rangeEnd ≠ r'.rangeStart

variable {oldRing newRing : Ring} {ho : oldRing.entries ≠ []} {hn : newRing.entries ≠ []}

/-- An entry belongs to a boundary. -/
theorem mem_computeMigrations {r : RangeMigration} (ho : oldRing.entries ≠ [])
    (hn : newRing.entries ≠ []) :
    r ∈ computeMigrations oldRing newRing ↔
      ∃ i, migrationAt oldRing newRing ho hn (boundaries oldRing newRing).keys i = some r := by
  rw [computeMigrations, dif_neg ho, dif_neg hn]
  simp

theorem get_inj {i j : Fin (boundaries oldRing newRing).keys.length}
    (h : (boundaries oldRing newRing).keys.get i = (boundaries oldRing newRing).keys.get j) :
    i = j :=
  List.nodup_iff_injective_get.mp ((boundaries oldRing newRing).keys_sorted.imp ne_of_lt) h

theorem nodup_computeMigrations (ho : oldRing.entries ≠ []) (hn : newRing.entries ≠ []) :
    (computeMigrations oldRing newRing).Nodup := by
  rw [computeMigrations, dif_neg ho, dif_neg hn]
  refine (List.nodup_finRange _).filterMap fun i j r hi hj ↦ ?_
  obtain ⟨-, rfl⟩ := migrationAt_eq_some.mp hi
  obtain ⟨-, heq⟩ := migrationAt_eq_some.mp hj
  exact get_inj (congrArg RangeMigration.rangeEnd heq)

theorem unmergeable_iff (ho : oldRing.entries ≠ []) (hn : newRing.entries ≠ []) :
    Unmergeable (computeMigrations oldRing newRing) ↔ Alternates oldRing newRing ho hn := by
  constructor
  · intro h i hne hchange hsame
    obtain ⟨j, hj, -⟩ := exists_before _ i
    rw [hj] at hne hsame
    obtain ⟨hold, hnew⟩ := Prod.mk.inj hsame
    have hr' := migrationAt_eq_some.mpr ⟨hchange, rfl⟩
    have hr := migrationAt_eq_some.mpr ⟨hold ▸ hnew ▸ hchange, rfl⟩
    refine h _ ((mem_computeMigrations ho hn).mpr ⟨j, hr⟩) _
      ((mem_computeMigrations ho hn).mpr ⟨i, hr'⟩) (fun heq ↦ ?_) hold hnew hj.symm
    exact hne (congrArg RangeMigration.rangeEnd heq)
  · intro h r hr r' hr' hne hfrom hto hadj
    obtain ⟨i, hi⟩ := (mem_computeMigrations ho hn).mp hr
    obtain ⟨j, hj⟩ := (mem_computeMigrations ho hn).mp hr'
    obtain ⟨-, rfl⟩ := migrationAt_eq_some.mp hi
    obtain ⟨hchange, rfl⟩ := migrationAt_eq_some.mp hj
    have hprev : (boundaries oldRing newRing).keys.get i =
        before (boundaries oldRing newRing).keys j := hadj
    refine h j (fun heq ↦ hne ?_) hchange ?_
    · rw [get_inj (hprev.trans heq)]
    · rw [← hprev]
      exact Prod.ext hfrom hto

/-- The ranges of a description that contain two boundaries contain the one before. -/
theorem Describes.mem_unique (h : Alternates oldRing newRing ho hn) {rs : List RangeMigration}
    (hd : Describes oldRing newRing ho hn rs) {r : RangeMigration} (hr : r ∈ rs)
    {i j : Fin (boundaries oldRing newRing).keys.length}
    (hi : r.Contains ((boundaries oldRing newRing).keys.get i))
    (hj : r.Contains ((boundaries oldRing newRing).keys.get j)) : i = j := by
  by_contra hij
  -- one of the two is reached from the other within the range
  have key : ∀ {i j : Fin (boundaries oldRing newRing).keys.length}, i ≠ j →
      r.Contains ((boundaries oldRing newRing).keys.get i) →
      r.Contains ((boundaries oldRing newRing).keys.get j) →
      ¬ ∀ z, InArc ((boundaries oldRing newRing).keys.get i)
        ((boundaries oldRing newRing).keys.get j) z → r.Contains z := by
    intro i j hij hi hj harc
    have hbefore : r.Contains (before (boundaries oldRing newRing).keys j) := by
      rcases before_mem (boundaries oldRing newRing).keys_sorted hij with heq | hmem
      · rw [heq]
        exact hi
      · exact harc _ hmem
    obtain ⟨hfrom, hto⟩ := hd.sound r hr _ hj
    obtain ⟨hfrom', hto'⟩ := hd.sound r hr _ hbefore
    refine h j (before_ne (boundaries oldRing newRing).keys_sorted hij) ?_ ?_
    · rw [← hfrom, ← hto]
      exact hd.changed r hr
    · exact Prod.ext (hfrom'.symm.trans hfrom) (hto'.symm.trans hto)
  have hne : (boundaries oldRing newRing).keys.get i ≠ (boundaries oldRing newRing).keys.get j :=
    fun heq ↦ hij (get_inj heq)
  rcases InArc.segment hi hj hne with harc | harc
  · exact key hij hi hj harc
  · exact key (Ne.symm hij) hj hi harc

/-- A description has a range for each entry. -/
theorem Describes.length_le (h : Alternates oldRing newRing ho hn) {rs : List RangeMigration}
    (hd : Describes oldRing newRing ho hn rs) :
    (computeMigrations oldRing newRing).length ≤ rs.length := by
  have hcover : ∀ r ∈ computeMigrations oldRing newRing, ∃ r' ∈ rs, r'.Contains r.rangeEnd := by
    intro r hr
    obtain ⟨i, hi⟩ := (mem_computeMigrations ho hn).mp hr
    obtain ⟨hchange, rfl⟩ := migrationAt_eq_some.mp hi
    exact hd.complete _ hchange
  choose! f hf using hcover
  have hinj : ∀ r ∈ computeMigrations oldRing newRing,
      ∀ r' ∈ computeMigrations oldRing newRing, f r = f r' → r = r' := by
    intro r hr r' hr' heq
    obtain ⟨hmem, hcontains⟩ := hf r hr
    have hcontains' := (hf r' hr').2
    rw [← heq] at hcontains'
    obtain ⟨i, hi⟩ := (mem_computeMigrations ho hn).mp hr
    obtain ⟨j, hj⟩ := (mem_computeMigrations ho hn).mp hr'
    obtain ⟨-, rfl⟩ := migrationAt_eq_some.mp hi
    obtain ⟨-, rfl⟩ := migrationAt_eq_some.mp hj
    rw [hd.mem_unique h hmem hcontains hcontains']
  have hsub : ((computeMigrations oldRing newRing).map f).Subperm rs := by
    refine List.subperm_of_subset ((nodup_computeMigrations ho hn).map_on hinj) fun x hx ↦ ?_
    obtain ⟨r, hr, rfl⟩ := List.mem_map.mp hx
    exact (hf r hr).1
  simpa using hsub.length_le

/-- The entries cannot be merged, and there is no shorter description, exactly if no arc
changes hands in the same way as the one before it. -/
theorem isMinimal_iff (oldRing newRing : Ring) (ho : oldRing.entries ≠ [])
    (hn : newRing.entries ≠ []) :
    (Unmergeable (computeMigrations oldRing newRing) ∧
      ∀ rs, Describes oldRing newRing ho hn rs →
        (computeMigrations oldRing newRing).length ≤ rs.length) ↔
    Alternates oldRing newRing ho hn := by
  rw [unmergeable_iff ho hn]
  exact ⟨And.left, fun h ↦ ⟨h, fun rs hd ↦ hd.length_le h⟩⟩

/-- A node with one token joins. -/
theorem isMinimal_join :
    let oldRing : Ring := ⟨[(10, ⟨[97], 7946⟩)], by decide⟩
    let newRing : Ring := ⟨[(10, ⟨[97], 7946⟩), (20, ⟨[98], 7946⟩)], by decide⟩
    Unmergeable (computeMigrations oldRing newRing) := by
  intro oldRing newRing
  exact ((isMinimal_iff oldRing newRing (by decide) (by decide)).mpr (by decide)).1

theorem ownerAt_of_forall {ring : Ring} (hne : ring.entries ≠ []) (node : NodeId)
    (h : ∀ x ∈ ring.entries, x.2 = node) (hash : UInt32) : ownerAt ring hne hash = node := by
  obtain ⟨x, hx⟩ := Option.isSome_iff_exists.mp (SortedMap.ceilWrap_isSome hne hash)
  rw [ownerAt, Option.get_of_eq_some _ hx]
  exact h x (SortedMap.isNext_of_ceilWrap hx).1

/-- A node with two tokens takes over from a node with one.  There are two entries, and one
range would do. -/
theorem computeMigrations_not_minimal :
    let nodeA : NodeId := ⟨[97], 7946⟩
    let nodeB : NodeId := ⟨[98], 7946⟩
    let oldRing : Ring := ⟨[(10, nodeA)], by decide⟩
    let newRing : Ring := ⟨[(10, nodeB), (20, nodeB)], by decide⟩
    computeMigrations oldRing newRing = [⟨20, 10, nodeA, nodeB⟩, ⟨10, 20, nodeA, nodeB⟩] ∧
      ¬ Unmergeable (computeMigrations oldRing newRing) ∧
      Describes oldRing newRing (by decide) (by decide) [⟨20, 20, nodeA, nodeB⟩] := by
  intro nodeA nodeB oldRing newRing
  have heq : computeMigrations oldRing newRing =
      [⟨20, 10, nodeA, nodeB⟩, ⟨10, 20, nodeA, nodeB⟩] := by decide
  have hold : ∀ hash, ownerAt oldRing (by decide) hash = nodeA :=
    ownerAt_of_forall _ nodeA (by decide)
  have hnew : ∀ hash, ownerAt newRing (by decide) hash = nodeB :=
    ownerAt_of_forall _ nodeB (by decide)
  refine ⟨heq, fun h ↦ ?_, ⟨fun r hr hash _ ↦ ?_, by decide, fun hash _ ↦ ?_⟩⟩
  · rw [heq] at h
    exact h ⟨20, 10, nodeA, nodeB⟩ (by decide) ⟨10, 20, nodeA, nodeB⟩ (by decide) (by decide)
      rfl rfl rfl
  · obtain rfl := List.mem_singleton.mp hr
    rw [hold, hnew]
    exact ⟨rfl, rfl⟩
  · refine ⟨_, List.mem_singleton_self _, ?_⟩
    rw [RangeMigration.Contains, InArc, if_neg (lt_irrefl _)]
    exact lt_or_ge _ _

end Pensieve.RingMigration
