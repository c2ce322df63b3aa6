import Pensieve.Storage.Eviction

/-!
# Entries of one class

All shards draw from one allocator, but a call evicts from its own shard only.  If all
entries have one class, then every victim makes room, and a call of `put` can fail in one way:
the slots are all taken, and the key's shard has no entry (`OneClass.put`).

`OneClass` is the state after calls that all succeeded.  It counts: as long as slots are left
nothing is evicted, so the entries are those of all the keys, and from then on all slots stay
taken.  `all_stored_iff` says for which sequences of calls this never fails.
-/

namespace Pensieve.LocalStore

open Foundation SlabAllocator

variable {n : ℕ} {s s' : LocalStore n} {i : Fin (n + 1)} {k v : Bytes} {size p : ℕ}

/-! ## Counting entries -/

theorem size_congr (h : ∀ i, (s'.shards i).map = (s.shards i).map) : s'.size = s.size :=
  Finset.sum_congr rfl fun i _ ↦ by rw [h i]

theorem size_setShard (s : LocalStore n) (i : Fin (n + 1)) (sh : Shard) :
    (s.setShard i sh).size + (s.shards i).map.entries.length =
      s.size + sh.map.entries.length :=
  sum_update (fun _ sh ↦ sh.map.entries.length) s.shards i sh

theorem length_values (m : AList fun _ : Bytes ↦ ℕ) : m.entries.length = m.values.card := by
  rw [AList.values, Multiset.coe_card, List.length_map]

theorem size_eraseKey (hk : k ∈ (s.shards i).map) : (s.eraseKey i k).size + 1 = s.size := by
  obtain ⟨p, hp⟩ := Option.isSome_iff_exists.mp (AList.lookup_isSome.mpr hk)
  have hset := size_setShard s i
    { map := (s.shards i).map.erase k, evictor := (s.shards i).evictor }
  simp only [length_values, AList.values_erase hp, Multiset.card_cons] at hset
  simp only [eraseKey]
  omega

theorem size_storeEntry (hk : k ∉ (s.shards i).map) (p : ℕ) (v : Bytes) :
    (s.storeEntry i p k v).size = s.size + 1 := by
  have hset := size_setShard { s with mem := SlabEntry.initAt s.mem p k v } i
    { map := (s.shards i).map.insert k p, evictor := (s.shards i).evictor.track p }
  simp only [length_values, AList.values_insert hk, Multiset.card_cons] at hset
  have hsame : LocalStore.size { s with mem := SlabEntry.initAt s.mem p k v } = s.size :=
    size_congr fun _ ↦ rfl
  rw [storeEntry, if_neg hk]
  omega

theorem size_dropOld (hk : k ∈ (s.shards i).map) : (s.dropOld i k).size + 1 = s.size := by
  obtain ⟨old, hold⟩ := Option.isSome_iff_exists.mp (AList.lookup_isSome.mpr hk)
  have hmap : ∀ j, (((s.untrack i old).deallocate old (SlabEntry.storedSize s.mem old)).shards
      j).map = (s.shards j).map := by
    intro j
    rw [deallocate_shards, untrack, setShard_shards]
    by_cases hj : j = i
    · subst hj
      rw [Function.update_self]
    · rw [Function.update_of_ne hj]
  rw [dropOld, hold]
  simp only
  rw [size_eraseKey (by rw [hmap]; exact hk), size_congr hmap]

theorem size_dropVictim (hk : SlabEntry.key s.mem p ∈ (s.shards i).map) :
    (s.dropVictim i p).size + 1 = s.size := by
  have hsame : (s.dropVictim i p).size = (s.eraseKey i (SlabEntry.key s.mem p)).size :=
    size_congr fun j ↦ by rw [dropVictim, deallocate_shards]
  rw [hsame, size_eraseKey hk]

/-! ## Entries of one class -/

/-- The number of slots that an arena has for entries of one class. -/
def slotsOf (arena : Arena) (c : Fin kNumClasses) : ℕ :=
  arena.capacity / kPageSize * (kPageSize / slotSizeForClass c)

/-- A store all of whose slots have one class, after calls of `put` for the given keys that
all succeeded. -/
structure OneClass (arena : Arena) (c : Fin kNumClasses) (keys : Finset Bytes)
    (s : LocalStore n) : Prop where
  books : Books s fun _ ↦ none
  arena_eq : s.allocator.arena = arena
  free : ∀ d, d ≠ c → s.allocator.freeSlots d = []
  entries : ∀ k v, s.contents k = some v →
    classForSize (SlabEntry.requiredSize k.length v.length) = c
  live : ∀ k, s.contents k ≠ none → k ∈ keys
  size_eq : s.size = min keys.card (slotsOf arena c)
  shards : ∀ k ∈ keys, ∃ j, s.contents j ≠ none ∧ shardFor n j = shardFor n k

section

variable {arena : Arena} {c : Fin kNumClasses} {keys : Finset Bytes}

theorem OneClass.class_eq (h : OneClass arena c keys s) {p : ℕ}
    (hk : (s.shards i).map.lookup k = some p) :
    classForSize (SlabEntry.storedSize s.mem p) = c := by
  obtain ⟨v, hv, -⟩ := (h.books.shard i).entries k p hk
  have hhome := (h.books.shard i).home k (AList.lookup_isSome.mp (by rw [hk]; rfl))
  rw [hv.storedSize_eq]
  refine h.entries k v ?_
  rw [contents, view_none, hhome, hk, Option.map_some, hv.value_eq]

theorem owned_none (s : LocalStore n) (i : Fin (n + 1)) :
    s.owned i none = mappedSlots s.mem (s.shards i).map := by
  simp [owned, LocalStore.live, held]

/-- Without calls in progress, the slots that are out are those of the entries. -/
theorem card_owned (s : LocalStore n) : (∑ i, s.owned i none).card = s.size := by
  rw [Multiset.card_sum, size]
  refine Finset.sum_congr rfl fun i _ ↦ ?_
  simp [owned_none, mappedSlots, AList.values]

/-- Free slots and entries are together the slots of the assigned pages. -/
theorem OneClass.length_free (h : OneClass arena c keys s) :
    (s.allocator.freeSlots c).length + s.size =
      s.allocator.nextPage * (kPageSize / slotSizeForClass c) ∧
    s.allocator.nextPage ≤ arena.capacity / kPageSize := by
  obtain ⟨pages, ha⟩ := h.books.accounts
  have hfree : s.allocator.free = ↑((s.allocator.freeSlots c).map (Prod.mk c)) := by
    rw [SlabAllocator.free]
    refine Finset.sum_eq_single c (fun d _ hd ↦ ?_) (by simp)
    rw [h.free d hd]
    rfl
  have hslot : ∀ t ∈ assignedSlots pages, t.1 = c := by
    intro t ht
    rw [← ha.balance, Multiset.mem_add, hfree] at ht
    rcases ht with ht | ht
    · obtain ⟨p, -, rfl⟩ := List.mem_map.mp (Multiset.mem_coe.mp ht)
      rfl
    · obtain ⟨i, -, hi⟩ := Multiset.mem_sum.mp ht
      rw [owned_none] at hi
      obtain ⟨p, hp, rfl⟩ := Multiset.mem_map.mp hi
      obtain ⟨k, hk⟩ := AList.mem_values.mp hp
      refine Fin.ext ?_
      rw [slotFor, Fin.val_ofNat, h.class_eq hk, Nat.mod_eq_of_lt c.isLt]
  have hpages : ∀ d ∈ pages, d = c := by
    intro d hd
    obtain ⟨j, hj⟩ := List.mem_iff_getElem?.mp hd
    exact hslot (d, j * kPageSize + 0 * slotSizeForClass d)
      (mem_assignedSlots.mpr ⟨j, hj, 0, slots_pos d, rfl⟩)
  have hcard := congrArg Multiset.card ha.balance
  rw [Multiset.card_add, card_owned, card_assignedSlots hpages, ha.length_pages, hfree] at hcard
  exact ⟨by simpa using hcard, h.arena_eq ▸ ha.nextPage_le⟩

/-- An allocation fails exactly if all slots are taken. -/
theorem OneClass.allocate_eq_none (h : OneClass arena c keys s)
    (hsize : classForSize size = c) :
    (s.allocator.allocate size).1 = none ↔ s.size = slotsOf arena c := by
  obtain ⟨hcount, hpages⟩ := h.length_free
  have hpos := slots_pos c
  have htotal : s.allocator.pagesTotal = arena.capacity / kPageSize := by
    rw [pagesTotal, h.arena_eq]
  rw [allocate_fst_eq_none_iff hsize, htotal, slotsOf]
  constructor
  · rintro ⟨hnil, hle⟩
    rw [hnil, List.length_nil, Nat.zero_add, le_antisymm hpages hle] at hcount
    exact hcount
  · intro hfull
    rw [hfull] at hcount
    have hle := Nat.mul_le_mul_right (kPageSize / slotSizeForClass c) hpages
    refine ⟨List.length_eq_zero_iff.mp (by omega), ?_⟩
    exact Nat.le_of_mul_le_mul_right (by omega) hpos

/-- The state in which `put` gets its slot: the key is not bound, the other shards are as they
were, and so are the free slots of the other classes. -/
structure MadeRoom (c : Fin kNumClasses) (s : LocalStore n) (k v : Bytes) (t : LocalStore n) :
    Prop where
  notMem : k ∉ (t.shards (shardFor n k)).map
  others : ∀ j, j ≠ shardFor n k → t.shards j = s.shards j
  arena_eq : t.allocator.arena = s.allocator.arena
  free : ∀ d, d ≠ c → t.allocator.freeSlots d = s.allocator.freeSlots d
  put_eq : ∃ p, s.put k v = (true, { t with
    allocator := (t.allocator.allocate
      (SlabEntry.requiredSize k.length v.length)).2 }.storeEntry (shardFor n k) p k v)

theorem MadeRoom.size_put {t : LocalStore n} (h : MadeRoom c s k v t) :
    (s.put k v).2.size = t.size + 1 := by
  obtain ⟨p, hput⟩ := h.put_eq
  rw [hput]
  refine (size_storeEntry h.notMem p v).trans (congrArg (· + 1) ?_)
  exact size_congr fun _ ↦ rfl

/-- The old entry of the key makes room. -/
theorem OneClass.room_of_old (h : OneClass arena c keys s)
    (hcls : classForSize (SlabEntry.requiredSize k.length v.length) = c)
    (hk : k ∈ (s.shards (shardFor n k)).map) :
    MadeRoom c s k v (s.dropOld (shardFor n k) k) := by
  obtain ⟨old, hold⟩ := Option.isSome_iff_exists.mp (AList.lookup_isSome.mpr hk)
  have hclass := h.class_eq hold
  have hal : (s.dropOld (shardFor n k) k).allocator =
      s.allocator.deallocate (some old) (SlabEntry.storedSize s.mem old) := by
    rw [LocalStore.dropOld, hold]
    simp only [eraseKey_allocator]
    rw [deallocate, untrack_allocator]
  obtain ⟨q, hq⟩ := allocate_deallocate (a := s.allocator) (p := old)
    (h.books.storedSize_le hold) (hcls.trans hclass.symm)
  rw [← hal] at hq
  refine ⟨AList.lookup_eq_none.mp (lookup_dropOld ..), fun j hj ↦ ?_, ?_, fun d hd ↦ ?_, q, ?_⟩
  · rw [LocalStore.dropOld, hold]
    simp [eraseKey, untrack, hj]
  · rw [hal, deallocate_arena]
  · rw [hal, deallocate_freeSlots_of_ne _ _ fun heq ↦ hd (Fin.ext (heq.symm.trans hclass))]
  · simp only [put, allocLoop_of_some hq]

/-- There is room. -/
theorem room_of_free (hk : k ∉ (s.shards (shardFor n k)).map)
    (ha : (s.allocator.allocate (SlabEntry.requiredSize k.length v.length)).1 ≠ none) :
    MadeRoom c s k v s := by
  obtain ⟨p, hp⟩ := Option.ne_none_iff_exists'.mp ha
  exact ⟨hk, fun _ _ ↦ rfl, rfl, fun _ _ ↦ rfl, p, put_of_free hk hp⟩

/-- A victim makes room. -/
theorem OneClass.room_of_victim (h : OneClass arena c keys s)
    (hcls : classForSize (SlabEntry.requiredSize k.length v.length) = c)
    (hk : k ∉ (s.shards (shardFor n k)).map) {j : Bytes}
    (hj : j ∈ (s.shards (shardFor n k)).map)
    (ha : (s.allocator.allocate (SlabEntry.requiredSize k.length v.length)).1 = none) :
    ∃ t, MadeRoom c s k v t ∧ t.size + 1 = s.size := by
  obtain ⟨p, s', kv, w, he, hkv, hw, hw', hal, hmap, hothers⟩ := h.books.exists_victim hj
  have hclass := h.class_eq hkv
  have hfit := h.books.storedSize_le hkv
  rw [hw.storedSize_eq, ← hw'.storedSize_eq] at hclass hfit
  obtain ⟨q, hq⟩ := allocate_deallocate (a := s'.allocator) (p := p) hfit
    (hcls.trans hclass.symm)
  rw [← dropVictim_allocator s' (shardFor n k)] at hq
  have hk' : k ∉ (s'.shards (shardFor n k)).map := by
    rw [hmap]
    exact hk
  have hkey : SlabEntry.key s'.mem p ∈ (s'.shards (shardFor n k)).map := by
    rw [hmap, hw'.key_eq]
    exact AList.lookup_isSome.mp (by rw [hkv]; rfl)
  have hsize : s'.size = s.size := by
    refine size_congr fun i ↦ ?_
    by_cases hi : i = shardFor n k
    · rw [hi, hmap]
    · rw [hothers i hi]
  refine ⟨s'.dropVictim (shardFor n k) p,
    ⟨notMem_dropVictim hk' p, fun i hi ↦ ?_, ?_, fun d hd ↦ ?_, q, ?_⟩, ?_⟩
  · rw [dropVictim, deallocate_shards, eraseKey, setShard_shards, Function.update_of_ne hi,
      hothers i hi]
  · rw [dropVictim_allocator, deallocate_arena, hal]
  · rw [dropVictim_allocator,
      deallocate_freeSlots_of_ne _ _ fun heq ↦ hd (Fin.ext (heq.symm.trans hclass)), hal]
  · simp only [put, dropOld_of_notMem hk, allocLoop_of_victim ha he, kMaxEvictAttempts,
      allocLoop_of_some hq]
  · rw [size_dropVictim hkey, hsize]

theorem MadeRoom.put_fst {t : LocalStore n} (h : MadeRoom c s k v t) : (s.put k v).1 = true := by
  obtain ⟨p, hput⟩ := h.put_eq
  rw [hput]

theorem MadeRoom.put_allocator {t : LocalStore n} (h : MadeRoom c s k v t) :
    (s.put k v).2.allocator =
      (t.allocator.allocate (SlabEntry.requiredSize k.length v.length)).2 := by
  obtain ⟨p, hput⟩ := h.put_eq
  rw [hput]
  rfl

theorem MadeRoom.put_shards {t : LocalStore n} (h : MadeRoom c s k v t) {j : Fin (n + 1)}
    (hj : j ≠ shardFor n k) : (s.put k v).2.shards j = s.shards j := by
  obtain ⟨p, hput⟩ := h.put_eq
  rw [hput, storeEntry, setShard_shards, Function.update_of_ne hj]
  exact h.others j hj

theorem OneClass.put_of_room (h : OneClass arena c keys s)
    (hcls : classForSize (SlabEntry.requiredSize k.length v.length) = c) {t : LocalStore n}
    (hroom : MadeRoom c s k v t)
    (hsize : t.size + 1 = min (insert k keys).card (slotsOf arena c)) :
    OneClass arena c (insert k keys) (s.put k v).2 := by
  have hput := hroom.put_fst
  refine ⟨h.books.put k v, ?_, fun d hd ↦ ?_, fun j w hj ↦ ?_, fun j hj ↦ ?_,
    hroom.size_put.trans hsize, fun key hkey ↦ ?_⟩
  · rw [hroom.put_allocator, allocate_arena, hroom.arena_eq, h.arena_eq]
  · rw [hroom.put_allocator,
      allocate_freeSlots_of_ne _ fun heq ↦ hd (Fin.ext (heq.symm.trans hcls)), hroom.free d hd,
      h.free d hd]
  · rcases contents_put_of_true h.books hput hj with ⟨rfl, rfl⟩ | hold
    · exact hcls
    · exact h.entries j w hold
  · obtain ⟨w, hw⟩ := Option.ne_none_iff_exists'.mp hj
    rcases contents_put_of_true h.books hput hw with ⟨rfl, -⟩ | hold
    · exact Finset.mem_insert_self _ _
    · exact Finset.mem_insert_of_mem (h.live j (by rw [hold]; simp))
  · by_cases hsame : shardFor n key = shardFor n k
    · refine ⟨k, ?_, hsame.symm⟩
      rw [contents_put, if_pos hput]
      simp
    · have hne : key ≠ k := fun heq ↦ hsame (congrArg _ heq)
      obtain ⟨j, hj, hshard⟩ := h.shards key (Finset.mem_of_mem_insert_of_ne hkey hne)
      refine ⟨j, ?_, hshard⟩
      rw [contents_ne_none] at hj ⊢
      rw [hroom.put_shards (by rw [hshard]; exact hsame)]
      exact hj

/-- While slots are left nothing has been evicted. -/
theorem OneClass.notMem_keys (h : OneClass arena c keys s) (hlt : s.size < slotsOf arena c)
    (hk : k ∉ (s.shards (shardFor n k)).map) : k ∉ keys := by
  intro hmem
  have hcard : keys.card = s.size := by
    have := h.size_eq
    omega
  rw [size_eq_ncard h.books] at hcard
  have hsub : {k | s.contents k ≠ none} ⊆ ↑(keys.erase k) := by
    intro j hj
    refine Finset.mem_erase.mpr ⟨?_, h.live j hj⟩
    rintro rfl
    exact hk (contents_ne_none.mp hj)
  have hle := Set.ncard_le_ncard hsub (Finset.finite_toSet _)
  rw [Set.ncard_coe_finset, Finset.card_erase_of_mem hmem] at hle
  have := Finset.card_pos.mpr ⟨k, hmem⟩
  omega

/-- **One more entry of the class.**  It finds a slot if one is left, or if the key's shard has
had an entry. -/
theorem OneClass.put (h : OneClass arena c keys s)
    (hcls : classForSize (SlabEntry.requiredSize k.length v.length) = c) :
    ((s.put k v).1 = true ↔
      keys.card < slotsOf arena c ∨ ∃ y ∈ keys, shardFor n y = shardFor n k) ∧
    ((s.put k v).1 = true → OneClass arena c (insert k keys) (s.put k v).2) := by
  have hsize := h.size_eq
  by_cases hk : k ∈ (s.shards (shardFor n k)).map
  · have hmem : k ∈ keys := h.live k (contents_ne_none.mpr hk)
    have hroom := h.room_of_old hcls hk
    refine ⟨iff_of_true hroom.put_fst (Or.inr ⟨k, hmem, rfl⟩), fun _ ↦ ?_⟩
    refine h.put_of_room hcls hroom ?_
    rw [size_dropOld hk, Finset.insert_eq_of_mem hmem, hsize]
  · by_cases hfull : s.size = slotsOf arena c
    · have ha := (h.allocate_eq_none hcls).mpr hfull
      by_cases hempty : ∀ j, j ∉ (s.shards (shardFor n k)).map
      · have hput : (s.put k v).1 = false := by
          rw [put_of_loop, dropOld_of_notMem hk,
            allocLoop_of_nil ha (h.books.ring_eq_nil.mpr hempty)]
          rfl
        refine ⟨iff_of_false (by simp [hput]) ?_, fun htrue ↦ by simp [hput] at htrue⟩
        rintro (hlt | ⟨y, hy, hshard⟩)
        · omega
        · obtain ⟨j, hj, hjy⟩ := h.shards y hy
          rw [contents_ne_none, hjy, hshard] at hj
          exact hempty j hj
      · push Not at hempty
        obtain ⟨j, hj⟩ := hempty
        obtain ⟨t, hroom, ht⟩ := h.room_of_victim hcls hk hj ha
        have hjk : j ∈ keys := h.live j (h.books.contents_ne_none hj)
        refine ⟨iff_of_true hroom.put_fst (Or.inr ⟨j, hjk, (h.books.shard _).home j hj⟩),
          fun _ ↦ h.put_of_room hcls hroom ?_⟩
        have hle := Finset.card_le_card (Finset.subset_insert k keys)
        omega
    · have ha : (s.allocator.allocate (SlabEntry.requiredSize k.length v.length)).1 ≠ none :=
        fun hnone ↦ hfull ((h.allocate_eq_none hcls).mp hnone)
      have hroom := room_of_free (c := c) hk ha
      have hlt : s.size < slotsOf arena c := by omega
      refine ⟨iff_of_true hroom.put_fst (Or.inl (by omega)),
        fun _ ↦ h.put_of_room hcls hroom ?_⟩
      rw [Finset.card_insert_of_notMem (h.notMem_keys hlt hk)]
      omega

theorem oneClass_init (arena : Arena) (c : Fin kNumClasses) (n : ℕ) :
    OneClass arena c ∅ (init arena n) := by
  refine ⟨books_init arena n, rfl, fun _ _ ↦ rfl, fun k v hk ↦ ?_, fun k hk ↦ ?_, ?_, by simp⟩
  · cases hk
  · exact absurd rfl hk
  · rw [Finset.card_empty, Nat.zero_min]
    exact Finset.sum_eq_zero fun _ _ ↦ rfl

theorem run_cons (s : LocalStore n) (op : Op) (ops : List Op) :
    s.run (op :: ops) = ((op, (s.exec op).1) :: ((s.exec op).2.run ops).1,
      ((s.exec op).2.run ops).2) :=
  rfl

theorem exec_put (s : LocalStore n) (k v : Bytes) :
    s.exec (.put k v) = (.put (s.put k v).1, (s.put k v).2) :=
  rfl

/-- One more call. -/
theorem run_puts_concat (s : LocalStore n) (xs : List (Bytes × Bytes)) (k v : Bytes) :
    s.run (puts (xs ++ [(k, v)])) =
      ((s.run (puts xs)).1 ++ [(.put k v, .put ((s.run (puts xs)).2.put k v).1)],
        ((s.run (puts xs)).2.put k v).2) := by
  induction xs generalizing s with
  | nil => rfl
  | cons x xs ih =>
      have hcons : ∀ ys, puts (x :: ys) = .put x.1 x.2 :: puts ys := fun _ ↦ rfl
      rw [List.cons_append, hcons, hcons, run_cons, run_cons, ih]
      rfl

theorem keys_concat (xs : List (Bytes × Bytes)) (k v : Bytes) :
    ((xs ++ [(k, v)]).map Prod.fst).toFinset = insert k (xs.map Prod.fst).toFinset := by
  ext j
  simp

/-- Calls that all succeed keep the store of one class. -/
theorem oneClass_run (n : ℕ) {xs : List (Bytes × Bytes)}
    (hcls : ∀ x ∈ xs, classForSize (SlabEntry.requiredSize x.1.length x.2.length) = c)
    (hall : ∀ r ∈ ((init arena n).run (puts xs)).1, r.2 = .put true) :
    OneClass arena c (xs.map Prod.fst).toFinset ((init arena n).run (puts xs)).2 := by
  induction xs using List.reverseRecOn with
  | nil => exact oneClass_init arena c n
  | append_singleton xs x ih =>
      obtain ⟨k, v⟩ := x
      rw [run_puts_concat] at hall ⊢
      simp only [List.forall_mem_append, List.forall_mem_singleton, Ret.put.injEq] at hall hcls
      rw [keys_concat]
      exact ((ih hcls.1 hall.1).put hcls.2).2 hall.2

/-- **When a full store accepts another entry.**  Entries of one class are put into a fresh
store.  All the calls succeed exactly if each of them comes while the distinct keys before it
leave a slot, or finds an earlier key in its own shard. -/
theorem all_stored_iff (arena : Arena) (n : ℕ) (c : Fin kNumClasses) (xs : List (Bytes × Bytes))
    (hcls : ∀ x ∈ xs, classForSize (SlabEntry.requiredSize x.1.length x.2.length) = c) :
    (∀ r ∈ ((init arena n).run (puts xs)).1, r.2 = .put true) ↔
      Guarded (fun pre x ↦ (pre.map Prod.fst).toFinset.card < slotsOf arena c ∨
        ∃ y ∈ pre, shardFor n y.1 = shardFor n x.1) xs := by
  induction xs using List.reverseRecOn with
  | nil =>
      refine iff_of_true ?_ guarded_nil
      rintro r ⟨⟩
  | append_singleton xs x ih =>
      obtain ⟨k, v⟩ := x
      simp only [List.forall_mem_append, List.forall_mem_singleton] at hcls
      rw [guarded_concat, ← ih hcls.1, run_puts_concat]
      simp only [List.forall_mem_append, List.forall_mem_singleton, Ret.put.injEq]
      refine and_congr_right fun hall ↦ ?_
      -- the last call is decided by the state that the others have led to
      rw [((oneClass_run n hcls.1 hall).put hcls.2).1]
      simp

/-- Two entries of the largest class, in one shard of a store with one page.  The second one
takes the place of the first. -/
theorem all_stored_iff_evicting :
    let big : Bytes := List.replicate 524288 0
    (∀ x ∈ [(([0], big) : Bytes × Bytes), ([5], big)],
      classForSize (SlabEntry.requiredSize x.1.length x.2.length) = (14 : Fin kNumClasses)) ∧
    slotsOf ⟨1048576, false⟩ 14 = 1 ∧
    ∀ r ∈ ((init ⟨1048576, false⟩ 1).run (puts [([0], big), ([5], big)])).1, r.2 = .put true := by
  have hbig : (List.replicate 524288 (0 : UInt8)).length = 524288 := List.length_replicate
  generalize List.replicate 524288 (0 : UInt8) = big at hbig ⊢
  intro big'
  have hcls : ∀ x ∈ [(([0], big) : Bytes × Bytes), ([5], big)],
      classForSize (SlabEntry.requiredSize x.1.length x.2.length) = (14 : Fin kNumClasses) := by
    simp only [List.mem_cons, List.not_mem_nil, or_false, forall_eq_or_imp, forall_eq, hbig,
      List.length_singleton]
    decide
  have hslots : slotsOf ⟨1048576, false⟩ 14 = 1 := by decide
  refine ⟨hcls, hslots, (all_stored_iff ⟨1048576, false⟩ 1 14 _ hcls).mpr ?_⟩
  have hone : Guarded (fun pre x ↦ (pre.map Prod.fst).toFinset.card < slotsOf ⟨1048576, false⟩ 14 ∨
      ∃ y ∈ pre, shardFor 1 y.1 = shardFor 1 x.1) [(([0], big) : Bytes × Bytes)] :=
    guarded_nil.concat (Or.inl (by rw [hslots]; decide))
  have hshard : shardFor 1 [0] = shardFor 1 [5] := by decide
  exact hone.concat (Or.inr ⟨([0], big), List.mem_singleton_self _, hshard⟩)

theorem second_refused {big : Bytes} (hbig : big.length = 524288) :
    ((init ⟨1048576, false⟩ 1).run (puts [([0], big), ([1], big)])).1 =
      [(.put [0] big, .put true), (.put [1] big, .put false)] := by
  have hcls : ∀ k : UInt8, classForSize (SlabEntry.requiredSize [k].length big.length) =
      (14 : Fin kNumClasses) := by
    intro k
    rw [hbig, List.length_singleton]
    decide
  have hinit := oneClass_init ⟨1048576, false⟩ 14 1
  have hslots : slotsOf ⟨1048576, false⟩ 14 = 1 := by decide
  have hfirst : ((init ⟨1048576, false⟩ 1).put [0] big).1 = true :=
    (hinit.put (hcls 0)).1.mpr (Or.inl (by rw [hslots]; simp))
  have hone := (hinit.put (hcls 0)).2 hfirst
  have hshard : shardFor 1 [0] ≠ shardFor 1 [1] := by decide
  have hsecond : (((init ⟨1048576, false⟩ 1).put [0] big).2.put [1] big).1 = false := by
    rw [← Bool.not_eq_true, (hone.put (hcls 1)).1, hslots]
    simpa using hshard
  simp only [puts, List.map_cons, List.map_nil, run_cons, exec_put, hfirst, hsecond, run]

/-- Two entries of the largest class, whose keys fall into different shards of a store with
one page.  The second one finds its own shard empty and the slot taken by the other. -/
theorem empty_shard_refused :
    let big : Bytes := List.replicate 524288 0
    (∀ x ∈ [(([0], big) : Bytes × Bytes), ([1], big)],
      classForSize (SlabEntry.requiredSize x.1.length x.2.length) = (14 : Fin kNumClasses)) ∧
    ((init ⟨1048576, false⟩ 1).run (puts [([0], big), ([1], big)])).1 =
      [(.put [0] big, .put true), (.put [1] big, .put false)] := by
  have hbig : (List.replicate 524288 (0 : UInt8)).length = 524288 := List.length_replicate
  generalize List.replicate 524288 (0 : UInt8) = big at hbig ⊢
  refine ⟨?_, second_refused hbig⟩
  simp only [List.mem_cons, List.not_mem_nil, or_false, forall_eq_or_imp, forall_eq, hbig,
    List.length_singleton]
  decide

end

end Pensieve.LocalStore
