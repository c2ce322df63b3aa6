import Mathlib.Data.Set.Card
import Pensieve.Foundation.LossyMap
import Pensieve.Storage.Books

/-!
# The store is a lossy map

A sequence of calls, run one after the other, behaves like a lossy map: what `get`
finds is what the last successful `put` stored, or nothing.

The abstraction function is `contents`, the value found for each key in the shard
its hash selects.  `exec_lossy` is the simulation: one call keeps the books and is
one step of the lossy map, with the effect that its outcome announces.  For keys
other than the call's own this is a consequence of `StepOK` alone, step by step
along the call; for the call's own key it is what the code of the call says.
-/

namespace Pensieve

open Foundation SlabAllocator

namespace LocalStore

variable {n : ℕ} {s s' : LocalStore n} {i : Fin (n + 1)}

/-- The value the store holds for a key while no call is running. -/
def contents (s : LocalStore n) (k : Bytes) : Option Bytes := s.view (shardFor n k) none k

/-- The effect that a call announces by what it returns. -/
def effect : Op × Ret → Effect Bytes Bytes
  | (.put k v, .put true) => .set k v
  | (.put k _, .put false) => .unset k
  | (.del k, .del true) => .unset k
  | _ => .nop

/-! ## Other keys -/

/-- The steps of a call keep the books, and of any other key they can only lose
the value. -/
theorem Advances.books {holder : Fin (n + 1) → Option Pc} {pc : Pc} {y : LocalStore n × Pc}
    (hadv : Advances i (s, pc) y) (h : Books s (Function.update holder i (some pc)))
    (hk : shardFor n pc.key = i) :
    Books y.1 (Function.update holder i (some y.2)) ∧ y.2.key = pc.key ∧
      ∀ j k, k ≠ pc.key →
        y.1.view j (Function.update holder i (some y.2) j) k = none ∨
        y.1.view j (Function.update holder i (some y.2) j) k
          = s.view j (Function.update holder i (some pc) j) k := by
  induction hadv with
  | refl => exact ⟨h, rfl, fun j k _ ↦ Or.inr rfl⟩
  | @tail y z _ hstep ih =>
      obtain ⟨ev, hstep⟩ := hstep
      obtain ⟨hb, hkey, hview⟩ := ih
      obtain ⟨hb', hok, hother⟩ := hb.advance (Function.update_self i (some y.2) holder)
        (hkey ▸ hk) hstep
      rw [Function.update_idem] at hb'
      refine ⟨hb', (advance_key hstep).trans hkey, fun j k hne ↦ ?_⟩
      by_cases hj : j = i
      · subst hj
        have hold := hview j k hne
        rw [Function.update_self] at hold ⊢
        rcases hok.view_eq k with heq | hnone | ⟨v, p, hpc, -⟩
        · rw [heq]
          exact hold
        · exact Or.inl hnone
        · rw [hpc] at hkey
          exact absurd hkey hne
      · have hsame := (hother j hj).2 k
        have hold := hview j k hne
        rw [Function.update_of_ne hj] at hsame hold ⊢
        rw [hsame]
        exact hold

/-- A whole call keeps the books, and of any other key it can only lose the
value. -/
theorem Advances.books_of_call {op : Op} {k : Bytes} {r : Ret}
    (hadv : Advances i (s, .start op) (s', .finish k r)) (h : Books s fun _ ↦ none)
    (hi : shardFor n op.key = i) :
    Books s' (fun _ ↦ none) ∧
      ∀ j k, k ≠ op.key → s'.view j none k = none ∨ s'.view j none k = s.view j none k := by
  have hstart := (h.relabel i (some (.start op)) (fun _ ↦ rfl) (fun _ ↦ rfl) rfl trivial).1
  obtain ⟨hb, -, hview⟩ := hadv.books hstart hi
  have hend := (hb.relabel i none (fun m ↦ by simp [live]) (fun m ↦ by simp [tracked])
    (by simp [held]) trivial).1
  rw [Function.update_idem, Function.update_eq_self] at hend
  refine ⟨hend, fun j k hk ↦ ?_⟩
  have hold := hview j k hk
  by_cases hj : j = i
  · subst hj
    rw [Function.update_self, Function.update_self] at hold
    exact hold
  · rw [Function.update_of_ne hj, Function.update_of_ne hj] at hold
    exact hold

/-! ## The call's own key -/

theorem view_none (s : LocalStore n) (i : Fin (n + 1)) (k : Bytes) :
    s.view i none k = ((s.shards i).map.lookup k).map (SlabEntry.value s.mem) := rfl

/-- `get` returns the contents. -/
theorem get_fst (h : Books s fun _ ↦ none) (k : Bytes) : (s.get k).1 = s.contents k := by
  rw [contents, view_none, get]
  rcases hl : (s.shards (shardFor n k)).map.lookup k with _ | p
  · rfl
  · obtain ⟨v, hv, -⟩ := (h.shard (shardFor n k)).entries k p hl
    have hv' : SlabEntry.Holds (SlabEntry.setAccessBit s.mem p 1) p k v :=
      hv.congr fun x _ _ hne ↦ SlabEntry.setAccessBit_apply_of_ne hne
    rw [Option.map_some, hv.value_eq]
    exact congrArg some hv'.value_eq

/-- `get` leaves the value it found. -/
theorem contents_get (s : LocalStore n) (k : Bytes) : (s.get k).2.contents k = (s.get k).1 := by
  rw [contents, view_none, get]
  rcases hl : (s.shards (shardFor n k)).map.lookup k with _ | p
  · rw [hl, Option.map_none]
  · rw [hl, Option.map_some]

theorem lookup_eraseKey (s : LocalStore n) (i : Fin (n + 1)) (k : Bytes) :
    ((s.eraseKey i k).shards i).map.lookup k = none := by
  simp [eraseKey]

/-- `del` succeeds exactly on the keys that are bound. -/
theorem del_fst (s : LocalStore n) (k : Bytes) :
    (s.del k).1 = ((s.shards (shardFor n k)).map.lookup k).isSome := by
  rw [del]
  rcases hl : (s.shards (shardFor n k)).map.lookup k with _ | p <;> rfl

/-- `del` leaves no value. -/
theorem contents_del (s : LocalStore n) (k : Bytes) : (s.del k).2.contents k = none := by
  rw [contents, view_none, del]
  rcases hl : (s.shards (shardFor n k)).map.lookup k with _ | p
  · rw [hl, Option.map_none]
  · rw [lookup_eraseKey, Option.map_none]

theorem lookup_dropOld (s : LocalStore n) (i : Fin (n + 1)) (k : Bytes) :
    ((s.dropOld i k).shards i).map.lookup k = none := by
  rw [dropOld]
  rcases hl : (s.shards i).map.lookup k with _ | p
  · exact hl
  · exact lookup_eraseKey _ i k

theorem evictOne_map (s : LocalStore n) (i : Fin (n + 1)) :
    ((s.evictOne i).2.shards i).map = (s.shards i).map := by
  simp [evictOne]

/-- The allocation loop only removes keys from the map. -/
theorem lookup_allocLoop {k : Bytes} (size attempts : ℕ)
    (h : (s.shards i).map.lookup k = none) :
    ((allocLoop i size attempts s).2.shards i).map.lookup k = none := by
  induction attempts generalizing s with
  | zero => exact h
  | succ attempts ih =>
      rw [allocLoop]
      rcases ha : s.allocate size with ⟨_ | p, s₁⟩
      · have hs₁ : s₁.shards = s.shards := (congrArg (fun x ↦ x.2.shards) ha).symm
        rcases he : s₁.evictOne i with ⟨_ | victim, s₂⟩
        · have hmap : (s₂.shards i).map = (s₁.shards i).map := by
            rw [← evictOne_map s₁ i, he]
          simp only [he, hmap, hs₁]
          exact h
        · have hmap : (s₂.shards i).map = (s₁.shards i).map := by
            rw [← evictOne_map s₁ i, he]
          simp only [he]
          refine ih ?_
          simp only [deallocate_shards, eraseKey, setShard_shards, Function.update_self, hmap, hs₁]
          by_cases hk : k = SlabEntry.key s₂.mem victim
          · rw [← hk, AList.lookup_erase]
          · rw [AList.lookup_erase_ne hk]
            exact h
      · have hs₁ : s₁.shards = s.shards := (congrArg (fun x ↦ x.2.shards) ha).symm
        simp only [hs₁]
        exact h

/-- The allocator only grants sizes that have a class. -/
theorem allocLoop_fits {size attempts p : ℕ}
    (h : allocLoop i size attempts s = (some p, s')) : size ≤ kMaxSlotSize := by
  induction attempts generalizing s with
  | zero => cases h
  | succ attempts ih =>
      rw [allocLoop] at h
      by_cases hsize : classForSize size < kNumClasses
      · exact classForSize_lt_iff.mp hsize
      · have hnone : s.allocate size = (none, s) := by
          simp only [allocate, SlabAllocator.allocate, dif_neg hsize]
        rw [hnone] at h
        rcases he : s.evictOne i with ⟨_ | victim, s₂⟩
        · simp only [he] at h
          cases h
        · simp only [he] at h
          exact ih h

/-- Storing an entry under a fresh key makes its value the view. -/
theorem view_storeEntry {k v : Bytes} {p : ℕ} (hk : (s.shards i).map.lookup k = none)
    (hfit : SlabEntry.requiredSize k.length v.length ≤ kMaxSlotSize) :
    (s.storeEntry i p k v).view i none k = some v := by
  have hlen : 16 + k.length + v.length ≤ 1048576 := hfit
  have hv : SlabEntry.Holds (SlabEntry.initAt s.mem p k v) p k v :=
    SlabEntry.holds_initAt (by omega) (by omega)
  simp [view, live, storeEntry, AList.lookup_eq_none.mp hk, hv.value_eq]

/-- `put` leaves the value it stored, or none if it failed. -/
theorem contents_put (s : LocalStore n) (k v : Bytes) :
    (s.put k v).2.contents k = if (s.put k v).1 then some v else none := by
  have hnone := lookup_allocLoop (SlabEntry.requiredSize k.length v.length)
    (kMaxEvictAttempts + 1) (lookup_dropOld s (shardFor n k) k)
  rw [contents, put]
  rcases hl : allocLoop (shardFor n k) (SlabEntry.requiredSize k.length v.length)
    (kMaxEvictAttempts + 1) (s.dropOld (shardFor n k) k) with ⟨_ | p, s₁⟩
  · rw [hl] at hnone
    rw [view_none, hnone]
    rfl
  · rw [hl] at hnone
    rw [if_pos rfl]
    exact view_storeEntry hnone (allocLoop_fits hl)

/-! ## The simulation -/

/-- **One call is one step of the lossy map.** -/
theorem exec_lossy (h : Books s fun _ ↦ none) (op : Op) :
    Books (s.exec op).2 (fun _ ↦ none) ∧
      LossyStep s.contents (effect (op, (s.exec op).1)) (s.exec op).2.contents := by
  obtain ⟨hb, hother⟩ := (exec_advances s op).books_of_call h rfl
  refine ⟨hb, fun j ↦ ?_⟩
  by_cases hj : j = op.key
  · subst hj
    cases op with
    | put k v =>
        have hput := contents_put s k v
        simp only [Op.key, exec]
        rcases hok : (s.put k v).1
        · rw [hok] at hput
          exact Or.inl hput
        · rw [hok] at hput
          exact Or.inr (by simp [hput, effect, Effect.apply])
    | get k => exact Or.inr ((contents_get s k).trans (get_fst h k))
    | del k => exact Or.inl (contents_del s k)
  · refine (hother (shardFor n j) j hj).imp id fun heq ↦ heq.trans ?_
    cases op with
    | put k v =>
        have hjk : j ≠ k := hj
        simp only [exec]
        cases (s.put k v).1 <;> simp [contents, effect, Effect.apply, hjk]
    | get k => rfl
    | del k =>
        have hjk : j ≠ k := hj
        simp only [exec]
        cases (s.del k).1 <;> simp [contents, effect, Effect.apply, hjk]

/-- **The store refines the lossy map.**  A sequence of calls is a run of the lossy
map with the effects that the calls announce. -/
theorem run_lossy (h : Books s fun _ ↦ none) (ops : List Op) :
    Books (s.run ops).2 (fun _ ↦ none) ∧
      LossyRun s.contents ((s.run ops).1.map effect) (s.run ops).2.contents := by
  induction ops generalizing s with
  | nil => exact ⟨h, LossyRun.nil _⟩
  | cons op ops ih =>
      obtain ⟨hb, hstep⟩ := exec_lossy h op
      obtain ⟨hb', hrun⟩ := ih hb
      exact ⟨hb', LossyRun.cons hstep hrun⟩

/-! ## Counting -/

theorem contents_ne_none {k : Bytes} :
    s.contents k ≠ none ↔ k ∈ (s.shards (shardFor n k)).map := by
  rw [contents, view_none, Ne, Option.map_eq_none_iff, AList.lookup_eq_none, not_not]

/-- `size` counts the keys that have a value: a key is in one shard only. -/
theorem size_eq_ncard (h : Books s fun _ ↦ none) :
    s.size = {k | s.contents k ≠ none}.ncard := by
  have hset : {k | s.contents k ≠ none}
      = ↑(Finset.univ.biUnion fun i ↦ (s.shards i).map.keys.toFinset) := by
    ext k
    rw [Set.mem_ofPred_eq, contents_ne_none, Finset.mem_coe, Finset.mem_biUnion]
    constructor
    · intro hk
      exact ⟨_, Finset.mem_univ _, List.mem_toFinset.mpr hk⟩
    · rintro ⟨i, -, hi⟩
      have hk := List.mem_toFinset.mp hi
      rw [(h.shard i).home k hk]
      exact hk
  have hdisj : Set.PairwiseDisjoint ↑(Finset.univ : Finset (Fin (n + 1)))
      fun i ↦ (s.shards i).map.keys.toFinset := by
    intro i _ j _ hij
    refine Finset.disjoint_left.mpr fun k hi hj ↦ hij ?_
    rw [← (h.shard i).home k (List.mem_toFinset.mp hi),
      ← (h.shard j).home k (List.mem_toFinset.mp hj)]
  rw [hset, Set.ncard_coe_finset, Finset.card_biUnion hdisj, size]
  refine Finset.sum_congr rfl fun i _ ↦ ?_
  rw [List.toFinset_card_of_nodup (s.shards i).map.keys_nodup]
  exact (List.length_map _).symm

/-- An event of the history that sets a key is a successful `put`. -/
theorem effect_eq_set {x : Op × Ret} {k v : Bytes} (h : effect x = .set k v) :
    x = (.put k v, .put true) := by
  unfold effect at h
  split at h <;> cases h
  rfl

/-- **The store refines a lossy map.**  After any calls on a fresh store, a value
that `get` would return is the one of the last successful `put` of the key, with
no failed `put` and no successful `del` of the key since; `del` would succeed
exactly if `get` would return a value; and `size` is the number of such keys. -/
theorem run_refines_lossy_map (arena : Arena) (n : ℕ) (ops : List Op) :
    let hist := ((init arena n).run ops).1
    let s := ((init arena n).run ops).2
    (∀ k v, (s.get k).1 = some v → ∃ pre post, hist = pre ++ (.put k v, .put true) :: post ∧
      (∀ w ok, (.put k w, .put ok) ∉ post) ∧ (.del k, .del true) ∉ post) ∧
    (∀ k, (s.del k).1 = true ↔ (s.get k).1 ≠ none) ∧
    s.size = {k | (s.get k).1 ≠ none}.ncard := by
  intro hist s
  obtain ⟨hb, hrun⟩ := run_lossy (books_init arena n) ops
  refine ⟨fun k v hv ↦ ?_, fun k ↦ ?_, ?_⟩
  · rw [get_fst hb] at hv
    rcases hrun.origin hv with ⟨pre, e, post, heq, rfl, hpost⟩ | ⟨hempty, -⟩
    · obtain ⟨pre, rest, hist_eq, rfl, hrest⟩ := List.map_eq_append_iff.mp heq
      obtain ⟨x, post, rfl, hx, rfl⟩ := List.map_eq_cons_iff.mp hrest
      obtain rfl := effect_eq_set hx
      refine ⟨pre, post, hist_eq, fun w ok hmem ↦ ?_, fun hmem ↦ ?_⟩
      · refine hpost _ (List.mem_map_of_mem hmem) ?_
        cases ok <;> exact rfl
      · exact hpost _ (List.mem_map_of_mem hmem) rfl
    · cases hempty
  · rw [get_fst hb, contents_ne_none, del_fst, AList.lookup_isSome]
  · refine (size_eq_ncard hb).trans (congrArg Set.ncard (Set.ext fun k ↦ ?_))
    rw [Set.mem_ofPred_eq, Set.mem_ofPred_eq, get_fst hb]

end LocalStore

end Pensieve
