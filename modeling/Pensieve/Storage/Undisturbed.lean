import Pensieve.Storage.Eviction

/-!
# What a call leaves alone

Of the other keys a call can only lose the values (`Pensieve.Storage.Refinement`).  Here it is
said when it does not lose them either: the entries stay in the maps of their shards, except
for those that `put` evicts, and it evicts none if the allocator has a slot of the right class
once the old entry of the key is freed (`HasRoom`).
-/

namespace Pensieve

open Foundation SlabAllocator

namespace LocalStore

variable {n : ℕ} {s : LocalStore n} {i j : Fin (n + 1)} {k k' v : Bytes} {size : ℕ}

/-- A key that stays in its map keeps its value. -/
theorem Books.contents_exec (h : Books s fun _ ↦ none) (op : Op) (hk : k' ≠ op.key)
    (hmap : k' ∈ (s.shards (shardFor n k')).map →
      k' ∈ ((s.exec op).2.shards (shardFor n k')).map) :
    (s.exec op).2.contents k' = s.contents k' := by
  obtain ⟨-, hview⟩ := (exec_advances s op).books_of_call h rfl
  rcases hview (shardFor n k') k' hk with hnone | hsame
  · have hnew : (s.exec op).2.contents k' = none := hnone
    rw [hnew]
    by_contra hold
    have hmem := LocalStore.contents_ne_none.mp (Ne.symm hold)
    exact LocalStore.contents_ne_none.mpr (hmap hmem) hnew
  · exact hsame

/-- What `get` finds for a key that stays in its map. -/
theorem Books.get_exec (h : Books s fun _ ↦ none) (op : Op) (hk : k' ≠ op.key)
    (hmap : k' ∈ (s.shards (shardFor n k')).map →
      k' ∈ ((s.exec op).2.shards (shardFor n k')).map) :
    ((s.exec op).2.get k').1 = (s.get k').1 := by
  rw [get_fst h, get_fst (exec_lossy h op).1, h.contents_exec op hk hmap]

/-! ## The maps -/

theorem lookup_eraseKey_of_ne (hk : k' ≠ k) :
    ((s.eraseKey i k).shards j).map.lookup k' = (s.shards j).map.lookup k' := by
  rw [eraseKey, setShard_shards]
  by_cases hj : j = i
  · subst hj
    rw [Function.update_self, AList.lookup_erase_ne hk]
  · rw [Function.update_of_ne hj]

theorem untrack_map (p : ℕ) : ((s.untrack i p).shards j).map = (s.shards j).map := by
  rw [untrack, setShard_shards]
  by_cases hj : j = i
  · subst hj
    rw [Function.update_self]
  · rw [Function.update_of_ne hj]

theorem lookup_dropOld_of_ne (hk : k' ≠ k) :
    ((s.dropOld i k).shards j).map.lookup k' = (s.shards j).map.lookup k' := by
  rw [dropOld]
  rcases (s.shards i).map.lookup k with _ | old
  · rfl
  · dsimp only
    rw [lookup_eraseKey_of_ne hk, deallocate_shards, untrack_map]

theorem mem_map_storeEntry {p : ℕ} (h : k' ∈ (s.shards j).map) :
    k' ∈ ((s.storeEntry i p k v).shards j).map := by
  rw [storeEntry, setShard_shards]
  by_cases hj : j = i
  · subst hj
    rw [Function.update_self]
    dsimp only
    split
    · exact h
    · exact (AList.mem_insert _).mpr (Or.inr h)
  · rw [Function.update_of_ne hj]
    exact h

theorem evictOne_shards_of_ne (hj : j ≠ i) : (s.evictOne i).2.shards j = s.shards j := by
  simp [evictOne, hj]

/-- The loop works on one shard. -/
theorem allocLoop_shards_of_ne (hj : j ≠ i) (size attempts : ℕ) :
    (allocLoop i size attempts s).2.shards j = s.shards j := by
  induction attempts generalizing s with
  | zero => rfl
  | succ attempts ih =>
      rcases ha : (s.allocator.allocate size).1 with _ | p
      · rcases he : s.evictOne i with ⟨_ | victim, s'⟩
        · rw [allocLoop, allocate_of_none ha]
          simp only [he]
          rw [← evictOne_shards_of_ne (s := s) hj, he]
        · rw [allocLoop_of_victim ha he, ih, dropVictim, deallocate_shards, eraseKey,
            setShard_shards, Function.update_of_ne hj, ← evictOne_shards_of_ne (s := s) hj, he]
      · rw [allocLoop_of_some ha]

/-! ## Room for an entry -/

/-- The class that the entry needs has a free slot, or a page is left, or the key has an entry
of that class, which is freed first. -/
def HasRoom (s : LocalStore n) (k v : Bytes) : Prop :=
  ∃ c : Fin kNumClasses, classForSize (SlabEntry.requiredSize k.length v.length) = c ∧
    (s.allocator.freeSlots c ≠ [] ∨ s.allocator.nextPage < s.allocator.pagesTotal ∨
      ∃ p, (s.shards (shardFor n k)).map.lookup k = some p ∧
        classForSize (SlabEntry.storedSize s.mem p) = c)

theorem allocate_isSome {a : SlabAllocator} {c : Fin kNumClasses} (hc : classForSize size = c)
    (h : a.freeSlots c ≠ [] ∨ a.nextPage < a.pagesTotal) : ∃ q, (a.allocate size).1 = some q := by
  rw [← Option.ne_none_iff_exists', Ne, allocate_fst_eq_none_iff hc]
  rintro ⟨hfree, hpages⟩
  rcases h with h | h
  · exact h hfree
  · omega

/-- The first attempt succeeds. -/
theorem HasRoom.allocate (hroom : HasRoom s k v) (h : Books s fun _ ↦ none) :
    ∃ q, ((s.dropOld (shardFor n k) k).allocator.allocate
      (SlabEntry.requiredSize k.length v.length)).1 = some q := by
  obtain ⟨c, hc, hroom⟩ := hroom
  rcases hl : (s.shards (shardFor n k)).map.lookup k with _ | old
  · rw [dropOld_of_notMem (AList.lookup_eq_none.mp hl)]
    refine allocate_isSome hc (hroom.imp_right fun hroom ↦ hroom.resolve_right ?_)
    rintro ⟨p, hp, -⟩
    rw [hl] at hp
    cases hp
  · have hal : (s.dropOld (shardFor n k) k).allocator =
        s.allocator.deallocate (some old) (SlabEntry.storedSize s.mem old) := by
      rw [dropOld, hl]
      simp only [eraseKey_allocator]
      rw [deallocate, untrack_allocator]
    rw [hal]
    by_cases hcls : classForSize (SlabEntry.storedSize s.mem old) = c
    · exact allocate_deallocate (h.storedSize_le hl) (hc.trans hcls.symm)
    · refine allocate_isSome hc ?_
      rw [deallocate_freeSlots_of_ne _ _ hcls, deallocate_nextPage, pagesTotal, deallocate_arena]
      refine hroom.imp_right fun hroom ↦ hroom.resolve_right ?_
      rintro ⟨p, hp, hpc⟩
      rw [hl] at hp
      cases hp
      exact hcls hpc

/-- Where there is room, `put` succeeds and no one leaves a map. -/
theorem HasRoom.put (hroom : HasRoom s k v) (h : Books s fun _ ↦ none) :
    (s.put k v).1 = true ∧ ∀ j k', k' ≠ k → k' ∈ (s.shards j).map →
      k' ∈ ((s.put k v).2.shards j).map := by
  obtain ⟨q, hq⟩ := hroom.allocate h
  have hloop := allocLoop_of_some (i := shardFor n k) hq kMaxEvictAttempts
  rw [LocalStore.put]
  simp only [hloop]
  refine ⟨trivial, fun j k' hk hmem ↦ mem_map_storeEntry ?_⟩
  rw [← AList.lookup_isSome] at hmem ⊢
  rw [lookup_dropOld_of_ne hk]
  exact hmem

/-- `put` works on one shard. -/
theorem put_shards_of_ne (hj : j ≠ shardFor n k) : (s.put k v).2.shards j = s.shards j := by
  have hdrop : (s.dropOld (shardFor n k) k).shards j = s.shards j := by
    rw [dropOld]
    rcases (s.shards (shardFor n k)).map.lookup k with _ | old
    · rfl
    · simp [eraseKey, untrack, hj]
  have hloop := allocLoop_shards_of_ne (s := s.dropOld (shardFor n k) k) hj
    (SlabEntry.requiredSize k.length v.length) (kMaxEvictAttempts + 1)
  rw [put]
  rcases hl : allocLoop (shardFor n k) (SlabEntry.requiredSize k.length v.length)
    (kMaxEvictAttempts + 1) (s.dropOld (shardFor n k) k) with ⟨_ | p, s'⟩
  · rw [hl] at hloop
    exact hloop.trans hdrop
  · rw [hl] at hloop
    simp only [storeEntry, setShard_shards, Function.update_of_ne hj]
    exact hloop.trans hdrop

/-- **Calls do not disturb other keys without need.**  A `put` for which there is room succeeds
and leaves the other keys as they were; any `put` does so with the keys of other shards, and
`get` and `del` with all. -/
theorem others_undisturbed {arena : Arena} (h : Reachable arena s) (k v : Bytes) :
    (HasRoom s k v → (s.put k v).1 = true ∧
      ∀ k', k' ≠ k → ((s.put k v).2.get k').1 = (s.get k').1) ∧
    (∀ k', shardFor n k' ≠ shardFor n k → ((s.put k v).2.get k').1 = (s.get k').1) ∧
    (∀ k', k' ≠ k → ((s.get k).2.get k').1 = (s.get k').1) ∧
    ∀ k', k' ≠ k → ((s.del k).2.get k').1 = (s.get k').1 := by
  refine ⟨fun hroom ↦ ?_, fun k' hk ↦ ?_, fun k' hk ↦ ?_, fun k' hk ↦ ?_⟩
  · obtain ⟨hput, hmap⟩ := hroom.put h.books
    exact ⟨hput, fun k' hk ↦ h.books.get_exec (.put k v) hk (hmap _ k' hk)⟩
  · refine h.books.get_exec (.put k v) (fun heq ↦ hk (congrArg _ heq)) fun hmem ↦ ?_
    change k' ∈ ((s.put k v).2.shards _).map
    rwa [put_shards_of_ne hk]
  · refine h.books.get_exec (.get k) hk fun hmem ↦ ?_
    change k' ∈ ((s.get k).2.shards _).map
    rw [get]
    rcases (s.shards (shardFor n k)).map.lookup k with _ | entry <;> exact hmem
  · refine h.books.get_exec (.del k) hk fun hmem ↦ ?_
    change k' ∈ ((s.del k).2.shards _).map
    rw [← AList.lookup_isSome] at hmem ⊢
    rw [del]
    rcases (s.shards (shardFor n k)).map.lookup k with _ | entry
    · exact hmem
    · dsimp only
      rw [lookup_eraseKey_of_ne hk, deallocate_shards, untrack_map]
      exact hmem

/-- Two entries fill a page, and there is room for a new value of one of them. -/
theorem hasRoom_full {big : Bytes} (hbig : big.length = 300000) {s : LocalStore 0}
    (hs : s = ((init ⟨1048576, false⟩ 0).run (puts [([0], big), ([1], big)])).2) :
    s.allocator.freeSlots 13 = [] ∧ s.allocator.nextPage = s.allocator.pagesTotal ∧
      (s.get [1]).1 = some big ∧ HasRoom s [0] (1 :: big) := by
  have hsizes : sizes [([0], big), ([1], big)] = [300017, 300017] := by
    simp [sizes, hbig, SlabEntry.requiredSize, SlabEntry.headerSize]
  have hany : ((allocateAll (SlabAllocator.init ⟨1048576, false⟩) [300017, 300017]).any
      fun a ↦ a.freeSlots 13 = [] ∧ a.nextPage = a.pagesTotal) = true := by
    decide
  obtain ⟨a, hall, hfull⟩ := (Option.any_eq_true ..).mp hany
  obtain ⟨hfree, hpages⟩ := of_decide_eq_true hfull
  rw [← hsizes] at hall
  obtain ⟨hb, hal, -, hmap, hring⟩ := run_fill (books_init ⟨1048576, false⟩ 0)
    [([0], big), ([1], big)] (by simp [init]) (by simp) hall
  have hput : s = (((init ⟨1048576, false⟩ 0).put [0] big).2.put [1] big).2 := hs
  rw [← hs] at hb hal hmap hring
  rw [hsizes] at hring
  clear hs
  have hmem : ∀ k ∈ ([[0], [1]] : List Bytes), k ∈ (s.shards 0).map :=
    fun k hk ↦ (hmap k).mpr (Or.inl hk)
  refine ⟨by rw [hal]; exact hfree, by rw [hal]; exact hpages, ?_, ?_⟩
  · have hbound := hb.contents_ne_none (hmem [1] (by simp))
    rw [get_fst hb]
    rw [hput, contents_put] at hbound ⊢
    split_ifs at hbound ⊢
    · rfl
    · exact absurd rfl hbound
  · obtain ⟨p, hp⟩ := Option.isSome_iff_exists.mp (AList.lookup_isSome.mpr (hmem [0] (by simp)))
    have htracked : p ∈ (s.shards 0).evictor.ring := by
      rw [← Multiset.mem_coe, hb.ring_eq]
      exact AList.mem_values.mpr ⟨[0], hp⟩
    have hheader : header s.mem p ∈ (s.shards 0).evictor.ring.map (header s.mem) :=
      List.mem_map_of_mem htracked
    have hstored : SlabEntry.storedSize s.mem p = 300017 := by
      have hboth : header s.mem p = (0, 300017) := by
        simpa [hring, init, ClockEvictor.empty] using hheader
      exact congrArg Prod.snd hboth
    refine ⟨13, ?_, Or.inr (Or.inr ⟨p, by rwa [shardFor_zero], ?_⟩)⟩
    · have hlen : (1 :: big).length = 300001 := congrArg (· + 1) hbig
      rw [hlen]
      decide
    · rw [hstored]
      decide

/-- The page is full, and the key `0` is given another value of the same class. -/
theorem others_undisturbed_full :
    let big : Bytes := List.replicate 300000 0
    let s := ((init ⟨1048576, false⟩ 0).run (puts [([0], big), ([1], big)])).2
    Reachable ⟨1048576, false⟩ s ∧ s.allocator.freeSlots 13 = [] ∧
      s.allocator.nextPage = s.allocator.pagesTotal ∧ (s.get [1]).1 = some big ∧
      HasRoom s [0] (1 :: big) ∧ (s.put [0] (1 :: big)).1 = true ∧
      ((s.put [0] (1 :: big)).2.get [1]).1 = some big := by
  have hbig : (List.replicate 300000 (0 : UInt8)).length = 300000 := List.length_replicate
  generalize List.replicate 300000 (0 : UInt8) = big at hbig ⊢
  intro big' s
  have hreach : Reachable ⟨1048576, false⟩ s := reachable_run _ 0 _
  obtain ⟨hfree, hpages, hget, hroom⟩ := hasRoom_full hbig (s := s) rfl
  obtain ⟨hput, hothers⟩ := (others_undisturbed hreach [0] (1 :: big)).1 hroom
  exact ⟨hreach, hfree, hpages, hget, hroom, hput, (hothers [1] (by decide)).trans hget⟩

end LocalStore

end Pensieve
