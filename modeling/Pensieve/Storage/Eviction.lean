import Pensieve.Storage.Interleaving
import Pensieve.Storage.Refinement

/-!
# Making room

What `put` does when the allocator has no slot for it.  It makes up to
`kMaxEvictAttempts + 1` attempts to allocate, and evicts an entry of the key's shard after
each one that fails.  The victims are chosen by the clock alone, of whatever class they are,
and the last of them is followed by no attempt.

* `put_of_oversized`: an entry too large for every class costs the shard entries, although
  the call cannot succeed.
* `put_of_useful`: an eviction that frees a slot of the right class is of use if it is one of
  the first `kMaxEvictAttempts` in the order of the clock.

`Pensieve.Storage.OneClass` is about stores whose entries all have one class.
-/

namespace Pensieve.LocalStore

open Foundation SlabAllocator

variable {n : ℕ} {s s' : LocalStore n} {i : Fin (n + 1)} {k v : Bytes} {size attempts p : ℕ}

/-! ## One attempt -/

/-- What follows an eviction: the entry is erased from the map and freed. -/
def dropVictim (s : LocalStore n) (i : Fin (n + 1)) (victim : ℕ) : LocalStore n :=
  (s.eraseKey i (SlabEntry.key s.mem victim)).deallocate victim (SlabEntry.storedSize s.mem victim)

theorem dropVictim_allocator (s : LocalStore n) (i : Fin (n + 1)) (victim : ℕ) :
    (s.dropVictim i victim).allocator =
      s.allocator.deallocate (some victim) (SlabEntry.storedSize s.mem victim) := by
  rw [dropVictim, deallocate, eraseKey_allocator]

theorem allocate_eq (s : LocalStore n) (size : ℕ) :
    s.allocate size =
      ((s.allocator.allocate size).1, { s with allocator := (s.allocator.allocate size).2 }) :=
  rfl

theorem allocate_of_none (h : (s.allocator.allocate size).1 = none) :
    s.allocate size = (none, s) := by
  have ha : s.allocator.allocate size = (none, (s.allocator.allocate size).2) := Prod.ext h rfl
  rw [allocate_eq, h, Accounts.allocate_none ha]

theorem allocLoop_of_some (h : (s.allocator.allocate size).1 = some p) (attempts : ℕ) :
    allocLoop i size (attempts + 1) s =
      (some p, { s with allocator := (s.allocator.allocate size).2 }) := by
  rw [allocLoop, allocate_eq, h]

theorem evictOne_of_nil (h : (s.shards i).evictor.ring = []) : s.evictOne i = (none, s) := by
  have he : (s.shards i).evictor.evictOne s.mem = (none, s.mem, (s.shards i).evictor) := by
    rw [ClockEvictor.evictOne, if_pos (by rw [h]; rfl)]
  simp only [evictOne, he, setShard, Function.update_eq_self]

theorem allocLoop_of_nil (h : (s.allocator.allocate size).1 = none)
    (hring : (s.shards i).evictor.ring = []) (attempts : ℕ) :
    allocLoop i size attempts s = (none, s) := by
  cases attempts with
  | zero => rfl
  | succ attempts =>
      rw [allocLoop, allocate_of_none h]
      simp only [evictOne_of_nil hring]

theorem allocLoop_of_victim (h : (s.allocator.allocate size).1 = none)
    (he : s.evictOne i = (some p, s')) (attempts : ℕ) :
    allocLoop i size (attempts + 1) s = allocLoop i size attempts (s'.dropVictim i p) := by
  rw [allocLoop, allocate_of_none h]
  simp only [he]
  rfl

theorem dropOld_of_notMem (h : k ∉ (s.shards i).map) : s.dropOld i k = s := by
  rw [dropOld, AList.lookup_eq_none.mpr h]

/-! ## One eviction -/

theorem Books.ring_eq (h : Books s fun _ ↦ none) (i : Fin (n + 1)) :
    (↑(s.shards i).evictor.ring : Multiset ℕ) = (s.shards i).map.values :=
  (h.shard i).ring_eq

theorem Books.ring_eq_nil (h : Books s fun _ ↦ none) :
    (s.shards i).evictor.ring = [] ↔ ∀ k, k ∉ (s.shards i).map := by
  rw [← Multiset.coe_eq_zero, h.ring_eq, Multiset.eq_zero_iff_forall_notMem]
  constructor
  · intro hnone k hk
    obtain ⟨p, hp⟩ := Option.isSome_iff_exists.mp (AList.lookup_isSome.mpr hk)
    exact hnone p (AList.mem_values.mpr ⟨k, hp⟩)
  · intro hnone p hp
    obtain ⟨k, hk⟩ := AList.mem_values.mp hp
    exact hnone k (AList.lookup_isSome.mp (by rw [hk]; rfl))

theorem Books.contents_ne_none (h : Books s fun _ ↦ none) (hk : k ∈ (s.shards i).map) :
    s.contents k ≠ none := by
  rw [LocalStore.contents_ne_none, (h.shard i).home k hk]
  exact hk

/-- A shard with entries has a victim.  It is one of the entries, read back under the key
and with the size it was stored with. -/
theorem Books.exists_victim (h : Books s fun _ ↦ none) (hk : k ∈ (s.shards i).map) :
    ∃ p s' kv w, s.evictOne i = (some p, s') ∧ (s.shards i).map.lookup kv = some p ∧
      SlabEntry.Holds s.mem p kv w ∧ SlabEntry.Holds s'.mem p kv w ∧
      s'.allocator = s.allocator ∧ (s'.shards i).map = (s.shards i).map ∧
      (∀ j, j ≠ i → s'.shards j = s.shards j) := by
  have hne : (s.shards i).evictor.ring ≠ [] := fun hnil ↦ h.ring_eq_nil.mp hnil k hk
  obtain ⟨p, hp⟩ := ClockEvictor.evictOne_isSome (h.shard i).wf hne s.mem
  rcases he : (s.shards i).evictor.evictOne s.mem with ⟨r, m', e'⟩
  obtain rfl : r = some p := by rw [← hp, he]
  obtain ⟨pages, ha⟩ := h.accounts
  rw [Fintype.sum_eq_add_sum_compl i] at ha
  obtain ⟨-, hperm, -, hinv, -, hview⟩ :=
    (h.shard i).sweep ha rfl rfl (fun _ ↦ trivial) he
  obtain ⟨kv, hkv⟩ : ∃ kv, (s.shards i).map.lookup kv = some p :=
    AList.mem_values.mp (by rw [hperm]; simp)
  obtain ⟨w, hw, -⟩ := (h.shard i).entries kv p hkv
  obtain ⟨w', hw', -⟩ := hinv.entries kv p hkv
  have hww : w' = w := by
    have := hview kv
    simp only [view, live, hkv, Option.map_some, hw.value_eq, hw'.value_eq] at this
    exact Option.some.inj this
  subst hww
  refine ⟨p, { s with mem := m' }.setShard i { s.shards i with evictor := e' }, kv, w',
    by simp only [evictOne, he], hkv, hw, hw', rfl, by simp, ?_⟩
  intro j hj
  simp [hj]

/-- An eviction keeps the books. -/
theorem Books.dropVictim (h : Books s fun _ ↦ none) (hi : shardFor n k = i)
    (hk : k ∉ (s.shards i).map) (he : s.evictOne i = (some p, s')) :
    Books (s'.dropVictim i p) fun _ ↦ none := by
  have hstart := (h.relabel i (some (.putEvict k [] 0)) (fun _ ↦ rfl) (fun _ ↦ rfl) rfl hk).1
  have hevict : s.advance i (.putEvict k [] 0) =
      some (s'.eraseKey i (SlabEntry.key s'.mem p),
        .putFreeVictim k [] 0 p (SlabEntry.storedSize s'.mem p),
        (s.shards i).evictor.ring.map .touch) := by
    simp only [LocalStore.advance, he]
  have hmid := (hstart.advance (Function.update_self ..) hi hevict).1
  rw [Function.update_idem] at hmid
  have hend := (hmid.advance (Function.update_self ..) hi rfl).1
  rw [Function.update_idem] at hend
  have hrest := (hend.relabel i none (fun m ↦ by simp [live]) (fun m ↦ by simp [tracked])
    (by simp [held]) trivial).1
  rw [Function.update_idem, Function.update_eq_self] at hrest
  exact hrest

theorem Books.put (h : Books s fun _ ↦ none) (k v : Bytes) :
    Books (s.put k v).2 fun _ ↦ none :=
  (exec_lossy h (.put k v)).1

/-- The old entry goes, and the books are kept. -/
theorem Books.dropOld (h : Books s fun _ ↦ none) (k : Bytes) :
    Books (s.dropOld (shardFor n k) k) fun _ ↦ none := by
  rcases hl : (s.shards (shardFor n k)).map.lookup k with - | old
  · rw [dropOld_of_notMem (AList.lookup_eq_none.mp hl)]
    exact h
  · have hadv : Advances (shardFor n k) (s, .start (.del k))
        (s.dropOld (shardFor n k) k, .finish k (.del true)) := by
      have hdel := exec_advances s (.del k)
      simp only [exec, del, hl] at hdel
      rw [LocalStore.dropOld, hl]
      exact hdel
    exact (hadv.books_of_call h rfl).1

/-! ## Calls that find a slot -/

/-- The access bit of an entry, and the size that it is freed with. -/
def header (m : Memory) (p : ℕ) : UInt8 × ℕ :=
  (SlabEntry.accessBit m p, SlabEntry.storedSize m p)

theorem header_congr {m m' : Memory} (h : ∀ x, p ≤ x → x < p + 16 → m' x = m x) :
    header m' p = header m p := by
  have hbit : SlabEntry.accessBit m' p = SlabEntry.accessBit m p := h _ (by omega) (by omega)
  have hkey : SlabEntry.keySize m' p = SlabEntry.keySize m p :=
    congrArg leNat (Memory.read_congr fun x _ _ ↦ h x (by omega) (by omega))
  have hvalue : SlabEntry.valueSize m' p = SlabEntry.valueSize m p :=
    congrArg leNat (Memory.read_congr fun x _ _ ↦ h x (by omega) (by omega))
  rw [header, header, hbit, SlabEntry.storedSize, SlabEntry.storedSize, hkey, hvalue]

theorem put_of_free (hk : k ∉ (s.shards (shardFor n k)).map)
    (ha : (s.allocator.allocate (SlabEntry.requiredSize k.length v.length)).1 = some p) :
    s.put k v = (true, { s with
      allocator := (s.allocator.allocate
        (SlabEntry.requiredSize k.length v.length)).2 }.storeEntry (shardFor n k) p k v) := by
  rw [put]
  simp only [dropOld_of_notMem hk, allocLoop_of_some ha]

theorem allocate_fits (ha : (s.allocator.allocate size).1 = some p) : size ≤ kMaxSlotSize := by
  by_contra hlt
  rw [allocate_fst_eq_none.mpr fun h ↦ absurd (classForSize_lt_iff.mp h) hlt] at ha
  cases ha

theorem header_initAt (m : Memory) (h : SlabEntry.requiredSize k.length v.length ≤ kMaxSlotSize) :
    header (SlabEntry.initAt m p k v) p = (0, SlabEntry.requiredSize k.length v.length) := by
  have hlen : 16 + k.length + v.length ≤ 1048576 := h
  have hv : SlabEntry.Holds (SlabEntry.initAt m p k v) p k v :=
    SlabEntry.holds_initAt (by omega) (by omega)
  rw [header, SlabEntry.accessBit_initAt, hv.storedSize_eq]

/-- A new entry is written to bytes that are nobody's. -/
theorem Books.header_initAt (h : Books s fun _ ↦ none)
    (ha : (s.allocator.allocate (SlabEntry.requiredSize k.length v.length)).1 = some p)
    {j : Fin (n + 1)} {q : ℕ} (hq : q ∈ (s.shards j).evictor.ring) :
    header (SlabEntry.initAt s.mem p k v) q = header s.mem q := by
  obtain ⟨pages, hacc⟩ := h.accounts
  obtain ⟨hc, pages', hacc'⟩ := hacc.allocate_some (Prod.ext ha rfl)
  obtain ⟨kq, hkq⟩ : ∃ kq, (s.shards j).map.lookup kq = some q := by
    rw [← AList.mem_values, ← h.ring_eq]
    exact hq
  have hmem : slotFor (SlabEntry.storedSize s.mem q) q ∈ ∑ j, s.owned j none :=
    Multiset.mem_sum.mpr ⟨j, Finset.mem_univ j, slot_mem_owned hkq⟩
  have hne : p ≠ q := by
    rintro rfl
    exact notMem_of_cons hacc' (Multiset.mem_map.mpr ⟨_, hmem, rfl⟩)
  have hd := assignedSlots_disjoint (hacc'.mem_assigned (Multiset.mem_cons_self _ _))
    (hacc'.mem_assigned (Multiset.mem_cons_of_mem hmem))
    (fun heq ↦ hne (congrArg Prod.snd heq))
  have hfit := (classForSize_lt (allocate_fits ha)).2
  have h64 := le_slotSize (slotFor (SlabEntry.storedSize s.mem q) q).1
  simp only [slotFor_snd] at hd
  exact header_congr fun x hx hlt ↦ SlabEntry.initAt_apply_of_notMem (by omega)

/-- The first call finds a slot if there is a page. -/
theorem put_init {arena : Arena} (hcap : kPageSize ≤ arena.capacity) (n : ℕ)
    (hsize : SlabEntry.requiredSize k.length v.length ≤ kMaxSlotSize) :
    ((init arena n).put k v).1 = true := by
  have hpages : 0 < arena.capacity / kPageSize := Nat.div_pos hcap (by decide)
  have hsome : ((SlabAllocator.init arena).allocate
      (SlabEntry.requiredSize k.length v.length)).1 ≠ none := by
    intro hnone
    have := (allocate_fst_eq_none.mp hnone (classForSize_lt hsize).1).2
    exact absurd this (not_le.mpr hpages)
  obtain ⟨p, hp⟩ := Option.ne_none_iff_exists'.mp hsome
  rw [put_of_free (s := init arena n) (by simp [init]) hp]

theorem reachable_put (arena : Arena) (n : ℕ) (k v : Bytes) :
    Reachable arena ((init arena n).put k v).2 :=
  reachable_run arena n [.put k v]

/-- A call that succeeds stores its value, and can only lose other values. -/
theorem contents_put_of_true (h : Books s fun _ ↦ none) (hput : (s.put k v).1 = true)
    {j w : Bytes} (hj : (s.put k v).2.contents j = some w) :
    j = k ∧ w = v ∨ s.contents j = some w := by
  have hstep := (exec_lossy h (.put k v)).2 j
  simp only [exec, hput, effect, Effect.apply] at hstep
  rw [hj] at hstep
  by_cases hjk : j = k
  · subst hjk
    refine Or.inl ⟨rfl, ?_⟩
    simpa using hstep
  · rw [Function.update_of_ne hjk] at hstep
    exact Or.inr (hstep.resolve_left (by simp)).symm

/-- Calls of `put`. -/
def puts (xs : List (Bytes × Bytes)) : List Op := xs.map fun x ↦ .put x.1 x.2

/-- The sizes of the entries that are put. -/
def sizes (xs : List (Bytes × Bytes)) : List ℕ :=
  xs.map fun x ↦ SlabEntry.requiredSize x.1.length x.2.length

/-- Allocate for all of the sizes; `none` if one of the allocations fails. -/
def allocateAll (a : SlabAllocator) : List ℕ → Option SlabAllocator
  | [] => some a
  | size :: sizes =>
    match a.allocate size with
    | (none, _) => none
    | (some _, a) => allocateAll a sizes

theorem shardFor_zero (k : Bytes) : shardFor 0 k = 0 :=
  Fin.ext (Nat.lt_one_iff.mp (shardFor 0 k).isLt)

/-- A new entry in a store of one shard. -/
theorem put_fill {s : LocalStore 0} {a : SlabAllocator} (h : Books s fun _ ↦ none)
    (hk : k ∉ (s.shards 0).map)
    (ha : s.allocator.allocate (SlabEntry.requiredSize k.length v.length) = (some p, a)) :
    Books (s.put k v).2 (fun _ ↦ none) ∧ (s.put k v).2.allocator = a ∧
      ((s.put k v).2.shards 0).evictor.hand = (s.shards 0).evictor.hand ∧
      (∀ j, j ∈ ((s.put k v).2.shards 0).map ↔ j = k ∨ j ∈ (s.shards 0).map) ∧
      ((s.put k v).2.shards 0).evictor.ring.map (header (s.put k v).2.mem) =
        (s.shards 0).evictor.ring.map (header s.mem) ++
          [(0, SlabEntry.requiredSize k.length v.length)] := by
  have hp : (s.allocator.allocate (SlabEntry.requiredSize k.length v.length)).1 = some p := by
    rw [ha]
  have hput := put_of_free (v := v) (by rw [shardFor_zero]; exact hk) hp
  rw [shardFor_zero, ha] at hput
  refine ⟨h.put k v, by rw [hput]; rfl, by rw [hput]; rfl, fun j ↦ ?_, ?_⟩
  · rw [hput]
    simp [storeEntry, hk]
  · rw [hput]
    simp only [storeEntry, setShard_shards, setShard_mem, Function.update_self,
      ClockEvictor.track_ring, List.map_append, List.map_cons, List.map_nil,
      LocalStore.header_initAt s.mem (allocate_fits hp)]
    refine congrArg (· ++ _) (List.map_congr_left fun q hq ↦ ?_)
    exact h.header_initAt hp hq

/-- Filling a store of one shard: the entries are tracked in the order of the calls, with
clear access bits. -/
theorem run_fill {s : LocalStore 0} (h : Books s fun _ ↦ none) (xs : List (Bytes × Bytes))
    {a : SlabAllocator} (hfresh : ∀ x ∈ xs, x.1 ∉ (s.shards 0).map)
    (hnodup : (xs.map Prod.fst).Nodup) (ha : allocateAll s.allocator (sizes xs) = some a) :
    Books (s.run (puts xs)).2 (fun _ ↦ none) ∧ (s.run (puts xs)).2.allocator = a ∧
      ((s.run (puts xs)).2.shards 0).evictor.hand = (s.shards 0).evictor.hand ∧
      (∀ k, k ∈ ((s.run (puts xs)).2.shards 0).map ↔
        k ∈ xs.map Prod.fst ∨ k ∈ (s.shards 0).map) ∧
      ((s.run (puts xs)).2.shards 0).evictor.ring.map (header (s.run (puts xs)).2.mem) =
        (s.shards 0).evictor.ring.map (header s.mem) ++ (sizes xs).map (Prod.mk 0) := by
  induction xs generalizing s with
  | nil =>
      obtain rfl : s.allocator = a := Option.some.inj ha
      simpa [puts, sizes, run] using h
  | cons x xs ih =>
      obtain ⟨k, v⟩ := x
      obtain ⟨hk, hfresh⟩ := List.forall_mem_cons.mp hfresh
      rw [List.map_cons, List.nodup_cons] at hnodup
      simp only [sizes, List.map_cons, allocateAll] at ha
      rcases hal : s.allocator.allocate (SlabEntry.requiredSize k.length v.length)
        with ⟨_ | p, a'⟩
      · simp [hal] at ha
      · simp only [hal] at ha
        obtain ⟨hb, ha', hhand, hmap, hring⟩ := put_fill h hk hal
        have hfresh' : ∀ x ∈ xs, x.1 ∉ ((s.put k v).2.shards 0).map := by
          intro x hx hmem
          rcases (hmap x.1).mp hmem with heq | hold
          · exact hnodup.1 (heq ▸ List.mem_map_of_mem hx)
          · exact hfresh x hx hold
        obtain ⟨hb', ha'', hhand', hmap', hring'⟩ :=
          ih hb hfresh' hnodup.2 (by rw [ha']; exact ha)
        have hrun : (s.run (puts ((k, v) :: xs))).2 = ((s.put k v).2.run (puts xs)).2 := rfl
        rw [hrun]
        refine ⟨hb', ha'', hhand'.trans hhand, fun j ↦ ?_, ?_⟩
        · rw [hmap', hmap, List.map_cons, List.mem_cons]
          tauto
        · rw [hring', hring, List.append_assoc]
          rfl

/-! ## Entries that are too large -/

theorem put_of_loop (s : LocalStore n) (k v : Bytes) :
    (s.put k v).1 = (allocLoop (shardFor n k) (SlabEntry.requiredSize k.length v.length)
      (kMaxEvictAttempts + 1) (s.dropOld (shardFor n k) k)).1.isSome := by
  rw [put]
  rcases allocLoop (shardFor n k) (SlabEntry.requiredSize k.length v.length)
    (kMaxEvictAttempts + 1) (s.dropOld (shardFor n k) k) with ⟨_ | p, s'⟩ <;> rfl

theorem put_snd_of_loop (h : (allocLoop (shardFor n k)
      (SlabEntry.requiredSize k.length v.length) (kMaxEvictAttempts + 1)
      (s.dropOld (shardFor n k) k)).1 = none) :
    (s.put k v).2 = (allocLoop (shardFor n k) (SlabEntry.requiredSize k.length v.length)
      (kMaxEvictAttempts + 1) (s.dropOld (shardFor n k) k)).2 := by
  rw [put]
  split
  · rename_i heq
    rw [heq]
  · rename_i heq
    rw [heq] at h
    cases h

theorem allocate_of_oversized (hsize : kMaxSlotSize < size) (a : SlabAllocator) :
    (a.allocate size).1 = none :=
  allocate_fst_eq_none.mpr fun h ↦ absurd (classForSize_lt_iff.mp h) (not_le.mpr hsize)

theorem allocLoop_of_oversized (hsize : kMaxSlotSize < size) (attempts : ℕ)
    (s : LocalStore n) : (allocLoop i size attempts s).1 = none := by
  by_contra hsome
  obtain ⟨p, hp⟩ := Option.ne_none_iff_exists'.mp hsome
  exact absurd (allocLoop_fits (Prod.ext hp rfl)) (not_le.mpr hsize)

theorem put_fst_of_oversized (hsize : kMaxSlotSize < SlabEntry.requiredSize k.length v.length)
    (s : LocalStore n) : (s.put k v).1 = false := by
  rw [put_of_loop, allocLoop_of_oversized hsize]
  rfl

/-- A call for an entry that is too large, on a shard that has entries, loses one of them: the
old entry of the key, or the first victim. -/
theorem exists_lost (h : Books s fun _ ↦ none)
    (hsize : kMaxSlotSize < SlabEntry.requiredSize k.length v.length) {key : Bytes}
    (hkey : key ∈ (s.shards (shardFor n k)).map) :
    ∃ lost, s.contents lost ≠ none ∧ (s.put k v).2.contents lost = none := by
  have hloop := allocLoop_of_oversized hsize (kMaxEvictAttempts + 1)
    (s.dropOld (shardFor n k) k) (i := shardFor n k)
  have hfail := allocate_of_oversized hsize s.allocator
  by_cases hk : k ∈ (s.shards (shardFor n k)).map
  · refine ⟨k, contents_ne_none.mpr hk, ?_⟩
    rw [contents_put, put_fst_of_oversized hsize]
    rfl
  · obtain ⟨p, s', kv, w, he, hkv, -, hw, -, hmap, -⟩ := h.exists_victim hkey
    have hmem : kv ∈ (s.shards (shardFor n k)).map := AList.lookup_isSome.mp (by rw [hkv]; rfl)
    have hhome : shardFor n kv = shardFor n k := (h.shard _).home kv hmem
    refine ⟨kv, h.contents_ne_none hmem, ?_⟩
    rw [put_snd_of_loop hloop, dropOld_of_notMem hk,
      allocLoop_of_victim hfail he, contents, view_none, hhome,
      lookup_allocLoop, Option.map_none]
    rw [dropVictim, deallocate_shards, hw.key_eq]
    exact lookup_eraseKey ..

/-- **An entry that is too large is not refused at once.**  The call fails, and `get` returns
what it returned before for all keys exactly if the key's shard was empty. -/
theorem put_of_oversized {arena : Arena} (h : Reachable arena s) (k v : Bytes)
    (hsize : kMaxSlotSize < SlabEntry.requiredSize k.length v.length) :
    (s.put k v).1 = false ∧
      ((∀ key, ((s.put k v).2.get key).1 = (s.get key).1) ↔
        ∀ key, shardFor n key = shardFor n k → (s.get key).1 = none) := by
  have hb := h.books
  have hb' := hb.put k v
  have hloop := allocLoop_of_oversized hsize (kMaxEvictAttempts + 1)
    (s.dropOld (shardFor n k) k) (i := shardFor n k)
  have hfail := allocate_of_oversized hsize s.allocator
  refine ⟨put_fst_of_oversized hsize s, ?_⟩
  simp only [get_fst hb, get_fst hb']
  constructor
  · intro hsame key hkey
    by_contra hne
    obtain ⟨lost, hbefore, hafter⟩ := exists_lost (k := k) (v := v) hb hsize
      (hkey ▸ contents_ne_none.mp hne)
    exact hbefore ((hsame lost).symm.trans hafter)
  · intro hempty key
    have hnone : ∀ key, key ∉ (s.shards (shardFor n k)).map := by
      intro key hmem
      exact hb.contents_ne_none hmem (hempty key ((hb.shard _).home key hmem))
    rw [put_snd_of_loop hloop, dropOld_of_notMem (hnone k),
      allocLoop_of_nil hfail (hb.ring_eq_nil.mpr hnone)]

/-- The key `0` is bound, in the other shard. -/
theorem put_of_oversized_other_shard :
    let s := ((init ⟨1048576, false⟩ 1).put [0] [49]).2
    Reachable ⟨1048576, false⟩ s ∧ (s.get [0]).1 = some [49] ∧
      kMaxSlotSize <
        SlabEntry.requiredSize ([1] : Bytes).length (List.replicate 1048576 (0 : UInt8)).length ∧
      (s.put [1] (List.replicate 1048576 0)).1 = false ∧
      ∀ key, ((s.put [1] (List.replicate 1048576 0)).2.get key).1 = (s.get key).1 := by
  have hsize : kMaxSlotSize <
      SlabEntry.requiredSize ([1] : Bytes).length (List.replicate 1048576 (0 : UInt8)).length := by
    rw [List.length_replicate]
    decide
  generalize List.replicate 1048576 (0 : UInt8) = big at hsize ⊢
  intro s
  have hreach : Reachable ⟨1048576, false⟩ s := reachable_put ⟨1048576, false⟩ 1 [0] [49]
  have hput : ((init ⟨1048576, false⟩ 1).put [0] [49]).1 = true :=
    put_init (by decide) 1 (by decide)
  obtain ⟨hfalse, hsame⟩ := put_of_oversized hreach [1] big hsize
  refine ⟨hreach, ?_, hsize, hfalse, hsame.mpr fun key hkey ↦ ?_⟩
  · rw [get_fst hreach.books, contents_put, hput]
    rfl
  · rw [get_fst hreach.books, Option.eq_none_iff_forall_ne_some]
    intro v hv
    rcases contents_put_of_true (books_init _ 1) hput hv with ⟨rfl, -⟩ | hv
    · exact absurd hkey (by decide)
    · cases hv

/-- A call for an entry of more than 1 MiB, which can never succeed, removes the entry that
its key had. -/
theorem oversized_put_loses :
    let s := ((init ⟨1048576, false⟩ 0).put [97] [49]).2
    Reachable ⟨1048576, false⟩ s ∧ (s.get [97]).1 = some [49] ∧
      (s.put [97] (List.replicate 1048576 0)).1 = false ∧
      ((s.put [97] (List.replicate 1048576 0)).2.get [97]).1 = none := by
  have hsize : kMaxSlotSize <
      SlabEntry.requiredSize ([97] : Bytes).length (List.replicate 1048576 (0 : UInt8)).length := by
    rw [List.length_replicate]
    decide
  -- the length is all that matters of the value, which is too long to be looked at
  generalize List.replicate 1048576 (0 : UInt8) = big at hsize ⊢
  intro s
  have hreach : Reachable ⟨1048576, false⟩ s := reachable_put ⟨1048576, false⟩ 0 [97] [49]
  have hb' := hreach.books.put [97] big
  have hfail : (s.put [97] big).1 = false := put_fst_of_oversized hsize s
  refine ⟨hreach, ?_, hfail, ?_⟩
  · rw [get_fst hreach.books, contents_put, put_init (by decide) 0 (by decide)]
    rfl
  · rw [get_fst hb', contents_put, hfail]
    rfl

/-! ## Evictions that make room -/

/-- The slots of the victims of the allocation loop, in the order of the evictions. -/
def evicted (i : Fin (n + 1)) (allocSize : ℕ) : ℕ → LocalStore n → List Slot
  | 0, _ => []
  | attempts + 1, s =>
    match s.allocate allocSize with
    | (some _, _) => []
    | (none, s) =>
      match s.evictOne i with
      | (none, _) => []
      | (some victim, s) =>
        slotFor (SlabEntry.storedSize s.mem victim) victim ::
          evicted i allocSize attempts (s.dropVictim i victim)

/-- The slots of the victims of a call of `put`. -/
def putEvicted (s : LocalStore n) (k v : Bytes) : List Slot :=
  evicted (shardFor n k) (SlabEntry.requiredSize k.length v.length) (kMaxEvictAttempts + 1)
    (s.dropOld (shardFor n k) k)

/-- The slots of the entries that a clock tracks, in the order in which it would give them up. -/
def clockSlots : ℕ → Memory → ClockEvictor → List Slot
  | 0, _, _ => []
  | fuel + 1, m, e =>
    match e.evictOne m with
    | (none, _, _) => []
    | (some victim, m, e) =>
      slotFor (SlabEntry.storedSize m victim) victim :: clockSlots fuel m e

/-- The same for the shard of a key, without the key's own entry. -/
def clockOrder (s : LocalStore n) (k : Bytes) : List Slot :=
  let s := s.dropOld (shardFor n k) k
  let e := (s.shards (shardFor n k)).evictor
  clockSlots e.ring.length s.mem e

theorem evicted_of_some (h : (s.allocator.allocate size).1 = some p) (attempts : ℕ) :
    evicted i size attempts s = [] := by
  cases attempts with
  | zero => rfl
  | succ attempts => rw [evicted, allocate_eq, h]

theorem evicted_of_nil (h : (s.allocator.allocate size).1 = none)
    (hring : (s.shards i).evictor.ring = []) (attempts : ℕ) :
    evicted i size attempts s = [] := by
  cases attempts with
  | zero => rfl
  | succ attempts =>
      rw [evicted, allocate_of_none h]
      simp only [evictOne_of_nil hring]

theorem evicted_of_victim (h : (s.allocator.allocate size).1 = none)
    (he : s.evictOne i = (some p, s')) (attempts : ℕ) :
    evicted i size (attempts + 1) s = slotFor (SlabEntry.storedSize s'.mem p) p ::
      evicted i size attempts (s'.dropVictim i p) := by
  rw [evicted, allocate_of_none h]
  simp only [he]

/-- A slot that was just freed can be allocated again. -/
theorem allocate_deallocate {a : SlabAllocator} {size' : ℕ} (hsize : size' ≤ kMaxSlotSize)
    (hcls : classForSize size = classForSize size') :
    ∃ q, ((a.deallocate (some p) size').allocate size).1 = some q := by
  rw [← Option.ne_none_iff_exists', Ne, allocate_fst_eq_none]
  have hc := (classForSize_lt hsize).1
  simp [hcls, hc, SlabAllocator.deallocate]

theorem notMem_dropVictim (hk : k ∉ (s.shards i).map) (p : ℕ) :
    k ∉ ((s.dropVictim i p).shards i).map := by
  simp only [LocalStore.dropVictim, deallocate_shards, eraseKey, setShard_shards,
    Function.update_self, AList.mem_erase, not_and]
  exact fun _ ↦ hk

/-- What follows a failed attempt if there is a victim at all. -/
theorem Books.exists_next (h : Books s fun _ ↦ none) (hi : shardFor n k = i)
    (hk : k ∉ (s.shards i).map) (huse : evicted i size (attempts + 1) s ≠ []) :
    ∃ p s', (s.allocator.allocate size).1 = none ∧ s.evictOne i = (some p, s') ∧
      SlabEntry.storedSize s'.mem p ≤ kMaxSlotSize ∧
      Books (s'.dropVictim i p) (fun _ ↦ none) ∧ k ∉ ((s'.dropVictim i p).shards i).map := by
  have ha : (s.allocator.allocate size).1 = none := by
    by_contra hsome
    obtain ⟨q, hq⟩ := Option.ne_none_iff_exists'.mp hsome
    exact huse (evicted_of_some hq _)
  have hring : (s.shards i).evictor.ring ≠ [] := fun hnil ↦ huse (evicted_of_nil ha hnil _)
  rw [Ne, h.ring_eq_nil, not_forall] at hring
  obtain ⟨key, hkey⟩ := hring
  obtain ⟨p, s', kv, w, he, hkv, hw, hw', -, hmap, -⟩ := h.exists_victim (not_not.mp hkey)
  have hk' : k ∉ (s'.shards i).map := by
    rw [hmap]
    exact hk
  have hsize : SlabEntry.storedSize s'.mem p ≤ kMaxSlotSize := by
    rw [hw'.storedSize_eq, ← hw.storedSize_eq]
    exact h.storedSize_le hkv
  have hb' := h.dropVictim hi hk he
  exact ⟨p, s', ha, he, hsize, hb', notMem_dropVictim hk' p⟩

theorem dropVictim_mem (s : LocalStore n) (i : Fin (n + 1)) (victim : ℕ) :
    (s.dropVictim i victim).mem = s.mem := by
  rw [dropVictim, deallocate_mem, eraseKey_mem]

theorem dropVictim_evictor (s : LocalStore n) (i : Fin (n + 1)) (victim : ℕ) :
    ((s.dropVictim i victim).shards i).evictor = (s.shards i).evictor := by
  simp [dropVictim, eraseKey]

/-- The victims are those that the clock would give up first. -/
theorem Books.evicted_isPrefix_clockSlots (h : Books s fun _ ↦ none) (hi : shardFor n k = i)
    (hk : k ∉ (s.shards i).map) (fuel : ℕ) (hfuel : (s.shards i).evictor.ring.length ≤ fuel) :
    evicted i size attempts s <+: clockSlots fuel s.mem (s.shards i).evictor := by
  induction attempts generalizing s fuel with
  | zero => exact List.nil_prefix
  | succ attempts ih =>
      by_cases hnil : evicted i size (attempts + 1) s = []
      · rw [hnil]
        exact List.nil_prefix
      obtain ⟨p, s', ha, he, -, hb', hk'⟩ := h.exists_next hi hk hnil
      rw [evicted_of_victim ha he]
      rcases hclock : (s.shards i).evictor.evictOne s.mem with ⟨victim, m, e⟩
      obtain ⟨rfl, rfl⟩ : victim = some p ∧
          { s with mem := m }.setShard i { s.shards i with evictor := e } = s' := by
        simpa only [evictOne, hclock, Prod.mk.injEq] using he
      have hlen : (s.shards i).evictor.ring.length = e.ring.length + 1 := by
        obtain ⟨-, hring, -⟩ := ClockEvictor.evictOne_spec (h.shard i).wf hclock
        simpa [add_comm] using congrArg Multiset.card hring
      cases fuel with
      | zero => omega
      | succ fuel =>
          simp only [clockSlots, hclock]
          refine List.cons_prefix_cons.mpr ⟨rfl, ?_⟩
          have hrest := ih hb' hk' fuel
          rw [dropVictim_evictor, dropVictim_mem] at hrest
          simp only [setShard_shards, Function.update_self] at hrest
          exact hrest (by omega)

/-- The loop stops at the first victim of the right class, with a slot if an attempt is
left. -/
theorem allocLoop_of_useful (h : Books s fun _ ↦ none) (hi : shardFor n k = i)
    (hk : k ∉ (s.shards i).map)
    (huse : ∃ slot ∈ evicted i size (attempts + 1) s, slot.1.val = classForSize size) :
    (allocLoop i size (attempts + 1) s).1.isSome ↔
      ∃ slot ∈ (evicted i size (attempts + 1) s).take attempts,
        slot.1.val = classForSize size := by
  induction attempts generalizing s with
  | zero =>
      obtain ⟨slot, hslot, -⟩ := huse
      obtain ⟨p, s', ha, he, -⟩ := h.exists_next hi hk (List.ne_nil_of_mem hslot)
      rw [allocLoop_of_victim ha he]
      simp [allocLoop]
  | succ attempts ih =>
      have hne : evicted i size (attempts + 1 + 1) s ≠ [] := by
        obtain ⟨slot, hslot, -⟩ := huse
        exact List.ne_nil_of_mem hslot
      obtain ⟨p, s', ha, he, hfit, hb', hk'⟩ := h.exists_next hi hk hne
      have hcls := (classForSize_lt hfit).1
      rw [evicted_of_victim ha he, slotFor_eq hcls] at huse ⊢
      rw [allocLoop_of_victim ha he]
      rcases eq_or_ne (classForSize (SlabEntry.storedSize s'.mem p)) (classForSize size)
        with hslot | hslot
      · obtain ⟨q, hq⟩ := allocate_deallocate (a := s'.allocator) (p := p) hfit hslot.symm
        rw [← dropVictim_allocator s' i] at hq
        rw [allocLoop_of_some hq]
        simp [hslot]
      · simp only [List.mem_cons, exists_eq_or_imp, hslot, false_or] at huse
        rw [ih hb' hk' huse]
        simp [hslot]

/-! ### The last eviction is for nothing

If all access bits are clear and the hand is at the start, then the victims are the first
entry, the last one, the one before it and so on, and the second entry is the last to go. -/

theorem allocate_deallocate_of_ne {a : SlabAllocator} {size' : ℕ}
    (hcls : classForSize size ≠ classForSize size') (ha : (a.allocate size).1 = none) :
    ((a.deallocate (some p) size').allocate size).1 = none := by
  rw [allocate_fst_eq_none] at ha ⊢
  intro hc
  rw [deallocate_freeSlots_of_ne a p hcls.symm, pagesTotal, deallocate_arena, deallocate_nextPage]
  exact ha hc

theorem Books.evictOne_front {rest : List ℕ} (h : Books s fun _ ↦ none)
    (hhand : (s.shards i).evictor.hand = 0) (hring : (s.shards i).evictor.ring = p :: rest)
    (hbit : SlabEntry.accessBit s.mem p = 0) :
    ∃ s', s.evictOne i = (some p, s') ∧ s'.mem = s.mem ∧ s'.allocator = s.allocator ∧
      (s'.shards i).map = (s.shards i).map ∧
      (s'.shards i).evictor = (s.shards i).evictor.evictHand := by
  have he := ClockEvictor.evictOne_front (h.shard i).wf hhand hring hbit
  refine ⟨s.setShard i { s.shards i with evictor := (s.shards i).evictor.evictHand }, ?_, rfl, rfl,
    by simp, by simp⟩
  simp only [evictOne, he]

/-- The first entry of the ring is evicted for nothing. -/
theorem Books.evict_front {q r y : ℕ} {l : List ℕ} (h : Books s fun _ ↦ none)
    (hi : shardFor n k = i) (hk : k ∉ (s.shards i).map)
    (hhand : (s.shards i).evictor.hand = 0)
    (hring : (s.shards i).evictor.ring = q :: (l ++ [r])) (hq : header s.mem q = (0, y))
    (hne : classForSize size ≠ classForSize y) (ha : (s.allocator.allocate size).1 = none) :
    ∃ s₁ : LocalStore n, Books s₁ (fun _ ↦ none) ∧ k ∉ (s₁.shards i).map ∧
      (s₁.shards i).evictor.hand = 0 ∧ (s₁.shards i).evictor.ring = r :: l ∧ s₁.mem = s.mem ∧
      (s₁.allocator.allocate size).1 = none ∧
      (∀ attempts, allocLoop i size (attempts + 1) s = allocLoop i size attempts s₁) ∧
      ∀ attempts, ∀ slot ∈ evicted i size attempts s₁,
        slot ∈ evicted i size (attempts + 1) s := by
  obtain ⟨s', he, hmem, hal, hmap, hev⟩ := h.evictOne_front hhand hring (congrArg Prod.fst hq)
  obtain ⟨hring', hhand'⟩ := ClockEvictor.evictHand_front hhand hring
  have hk' : k ∉ (s'.shards i).map := by
    rw [hmap]
    exact hk
  have hsize : SlabEntry.storedSize s'.mem q = y := by
    rw [hmem]
    exact congrArg Prod.snd hq
  refine ⟨s'.dropVictim i q, h.dropVictim hi hk he, notMem_dropVictim hk' q, ?_, ?_, ?_, ?_,
    allocLoop_of_victim ha he, fun attempts slot hslot ↦ ?_⟩
  · rw [dropVictim_evictor, hev, hhand']
  · rw [dropVictim_evictor, hev, hring']
  · rw [dropVictim_mem, hmem]
  · rw [dropVictim_allocator, hsize, hal]
    exact allocate_deallocate_of_ne hne ha
  · rw [evicted_of_victim ha he]
    exact List.mem_cons_of_mem _ hslot

/-- The second entry is evicted last. -/
theorem evicted_last (h : Books s fun _ ↦ none) (hi : shardFor n k = i)
    (hk : k ∉ (s.shards i).map) (hhand : (s.shards i).evictor.hand = 0) {y b : ℕ} {zs : List ℕ}
    (hring : (s.shards i).evictor.ring.map (header s.mem) = ([y, b] ++ zs).map (Prod.mk 0))
    (hsize : size ≤ kMaxSlotSize) (hb : classForSize b = classForSize size)
    (hne : ∀ z ∈ y :: zs, classForSize size ≠ classForSize z)
    (ha : (s.allocator.allocate size).1 = none) :
    (allocLoop i size (zs.length + 2) s).1 = none ∧
      ∃ slot ∈ evicted i size (zs.length + 2) s, slot.1.val = classForSize size := by
  induction zs using List.reverseRecOn generalizing s y with
  | nil =>
      obtain ⟨q, l, hl, hq, hrest⟩ := List.map_eq_cons_iff.mp hring
      obtain ⟨r, l', rfl, hr, hnil⟩ := List.map_eq_cons_iff.mp hrest
      obtain rfl := List.map_eq_nil_iff.mp hnil
      obtain ⟨s₁, hb₁, hk₁, hhand₁, hring₁, hmem₁, ha₁, hloop, hev⟩ :=
        h.evict_front hi hk hhand (l := []) hl hq (hne y List.mem_cons_self) ha
      rw [← hmem₁] at hr
      obtain ⟨s₂, he, hmem₂, -⟩ := hb₁.evictOne_front hhand₁ hring₁ (congrArg Prod.fst hr)
      have hstored : SlabEntry.storedSize s₂.mem r = b := by
        rw [hmem₂]
        exact congrArg Prod.snd hr
      refine ⟨?_, slotFor b r, hev _ _ ?_, ?_⟩
      · rw [List.length_nil, hloop, allocLoop_of_victim ha₁ he]
        rfl
      · rw [List.length_nil, evicted_of_victim ha₁ he, hstored]
        exact List.mem_cons_self
      · rw [slotFor_eq (hb ▸ (classForSize_lt hsize).1)]
        exact hb
  | append_singleton zs z ih =>
      rw [← List.append_assoc, List.map_append] at hring
      obtain ⟨l, rs, hl, hhead, hlast⟩ := List.map_eq_append_iff.mp hring
      obtain ⟨r, l', rfl, hr, hnil⟩ := List.map_eq_cons_iff.mp hlast
      obtain rfl := List.map_eq_nil_iff.mp hnil
      obtain ⟨q, l, rfl, hq, hrest⟩ := List.map_eq_cons_iff.mp hhead
      obtain ⟨s₁, hb₁, hk₁, hhand₁, hring₁, hmem₁, ha₁, hloop, hev⟩ :=
        h.evict_front hi hk hhand (l := l) (r := r) hl hq (hne y List.mem_cons_self) ha
      have hring' : (s₁.shards i).evictor.ring.map (header s₁.mem) =
          ([z, b] ++ zs).map (Prod.mk 0) := by
        rw [hring₁, hmem₁, List.map_cons, hr, hrest]
        rfl
      have hne' : ∀ x ∈ z :: zs, classForSize size ≠ classForSize x := by
        intro x hx
        refine hne x (List.mem_cons_of_mem _ ?_)
        simpa [or_comm] using hx
      obtain ⟨hnone, slot, hslot, hcls⟩ := ih hb₁ hk₁ hhand₁ hring' hne' ha₁
      rw [List.length_append, List.length_singleton, Nat.add_right_comm]
      exact ⟨by rw [hloop]; exact hnone, slot, hev _ _ hslot, hcls⟩

/-- A store whose one slot is taken. -/
theorem evicted_one {big : Bytes} (hbig : big.length = 524288) :
    ∃ p rest, ((init ⟨1048576, false⟩ 0).run (puts [([0], big)])).2.putEvicted [1] big =
      slotFor (SlabEntry.requiredSize ([1] : Bytes).length big.length) p :: rest := by
  have hsizes : sizes [([0], big)] = [524305] := by
    simp [sizes, hbig, SlabEntry.requiredSize, SlabEntry.headerSize]
  have hsize : SlabEntry.requiredSize ([1] : Bytes).length big.length = 524305 := by
    rw [hbig]
    rfl
  have hany : ((allocateAll (SlabAllocator.init ⟨1048576, false⟩) [524305]).any
      fun a ↦ (a.allocate 524305).1.isNone) = true := by
    decide
  obtain ⟨a, hall, hnone⟩ := (Option.any_eq_true ..).mp hany
  rw [← hsizes] at hall
  obtain ⟨hb, hal, hhand, hmap, hring⟩ := run_fill (books_init ⟨1048576, false⟩ 0)
    [([0], big)] (by simp [init]) (by simp) hall
  rw [hsizes] at hring
  generalize ((init ⟨1048576, false⟩ 0).run (puts [([0], big)])).2 = s at *
  have hk : ([1] : Bytes) ∉ (s.shards 0).map := by
    rw [hmap]
    simp [init]
  obtain ⟨q, l, hl, hq, -⟩ := List.map_eq_cons_iff.mp hring
  obtain ⟨s', he, hmem, -⟩ := hb.evictOne_front hhand hl (congrArg Prod.fst hq)
  have hstored : SlabEntry.storedSize s'.mem q = 524305 := by
    rw [hmem]
    exact congrArg Prod.snd hq
  rw [putEvicted, shardFor_zero, dropOld_of_notMem hk, hsize,
    evicted_of_victim (by rw [hal]; exact Option.isNone_iff_eq_none.mp hnone) he, hstored]
  exact ⟨q, _, rfl⟩

/-- Of two lists that go on from each other, one has an element early if the other has, provided
that the shorter has one at all. -/
theorem exists_mem_take_iff {α : Type*} {P : α → Prop} {l l' : List α} (h : l <+: l')
    (hex : ∃ x ∈ l, P x) (m : ℕ) : (∃ x ∈ l.take m, P x) ↔ ∃ x ∈ l'.take m, P x := by
  rcases le_total l.length m with hlen | hlen
  · obtain ⟨x, hx, hP⟩ := hex
    have hx' : x ∈ l.take m := by rwa [List.take_of_length_le hlen]
    exact iff_of_true ⟨x, hx', hP⟩ ⟨x, (h.take m).subset hx', hP⟩
  · rw [List.prefix_iff_eq_take.mp h, List.take_take, min_eq_left hlen]

/-- A victim of `put` that is of use is found early in the clock's order. -/
theorem Books.useful_iff (h : Books s fun _ ↦ none)
    (huse : ∃ slot ∈ s.putEvicted k v,
      slot.1.val = classForSize (SlabEntry.requiredSize k.length v.length)) (m : ℕ) :
    (∃ slot ∈ (s.putEvicted k v).take m,
        slot.1.val = classForSize (SlabEntry.requiredSize k.length v.length)) ↔
      ∃ slot ∈ (s.clockOrder k).take m,
        slot.1.val = classForSize (SlabEntry.requiredSize k.length v.length) :=
  exists_mem_take_iff ((h.dropOld k).evicted_isPrefix_clockSlots rfl
    (AList.lookup_eq_none.mp (lookup_dropOld s (shardFor n k) k)) _ le_rfl) huse m

/-- **An eviction that makes room is used, unless it is the last.**  If a victim of `put` has
a slot of the class that the new entry needs, then the call succeeds, and `get` returns the
value, exactly if before the call one of the first `kMaxEvictAttempts` entries in the order of the
clock has such a slot. -/
theorem put_of_useful {arena : Arena} (h : Reachable arena s) (k v : Bytes)
    (huse : ∃ slot ∈ s.putEvicted k v,
      slot.1.val = classForSize (SlabEntry.requiredSize k.length v.length)) :
    ((s.put k v).1 = true ∧ ((s.put k v).2.get k).1 = some v) ↔
      ∃ slot ∈ (s.clockOrder k).take kMaxEvictAttempts,
        slot.1.val = classForSize (SlabEntry.requiredSize k.length v.length) := by
  have hloop : (s.put k v).1 = true ↔ ∃ slot ∈ (s.putEvicted k v).take kMaxEvictAttempts,
      slot.1.val = classForSize (SlabEntry.requiredSize k.length v.length) := by
    rw [put_of_loop]
    exact allocLoop_of_useful (h.books.dropOld k) rfl
      (AList.lookup_eq_none.mp (lookup_dropOld s (shardFor n k) k)) huse
  rw [get_fst (h.books.put k v), contents_put, ← h.books.useful_iff huse, ← hloop]
  exact ⟨And.left, fun hput ↦ ⟨hput, by rw [if_pos hput]⟩⟩

theorem put_of_useful_one :
    let big : Bytes := List.replicate 524288 0
    let s := ((init ⟨1048576, false⟩ 0).run (puts [([0], big)])).2
    Reachable ⟨1048576, false⟩ s ∧
      (∃ slot ∈ s.putEvicted [1] big,
        slot.1.val = classForSize (SlabEntry.requiredSize ([1] : Bytes).length big.length)) ∧
      (s.put [1] big).1 = true ∧ ((s.put [1] big).2.get [1]).1 = some big := by
  have hbig : (List.replicate 524288 (0 : UInt8)).length = 524288 := List.length_replicate
  generalize List.replicate 524288 (0 : UInt8) = big at hbig ⊢
  intro big' s
  have hreach : Reachable ⟨1048576, false⟩ s := reachable_run _ 0 _
  obtain ⟨p, rest, hev⟩ := evicted_one hbig
  have hcls : (slotFor (SlabEntry.requiredSize ([1] : Bytes).length big.length) p).1.val =
      classForSize (SlabEntry.requiredSize ([1] : Bytes).length big.length) := by
    rw [slotFor_eq (by rw [hbig]; decide)]
  have huse : ∃ slot ∈ s.putEvicted [1] big,
      slot.1.val = classForSize (SlabEntry.requiredSize ([1] : Bytes).length big.length) :=
    ⟨_, by rw [hev]; exact List.mem_cons_self, hcls⟩
  refine ⟨hreach, huse, (put_of_useful hreach [1] big huse).mpr ?_⟩
  refine (hreach.books.useful_iff huse _).mp ⟨_, ?_, hcls⟩
  rw [hev, kMaxEvictAttempts, List.take_succ_cons]
  exact List.mem_cons_self

/-- Nine entries of a store with two pages: the second one has a page of its own, and the
others share the other page. -/
def nineEntries (small big : Bytes) : List (Bytes × Bytes) :=
  ([1], small) :: ([0], big) :: [[2], [3], [4], [5], [6], [7], [8]].map (·, small)

/-- They leave no slot of the largest class. -/
theorem allocateAll_nine : ∃ a, allocateAll (SlabAllocator.init ⟨2097152, false⟩)
    ([65553, 524305] ++ List.replicate 7 65553) = some a ∧ (a.allocate 524305).1 = none := by
  have hany : ((allocateAll (SlabAllocator.init ⟨2097152, false⟩)
      ([65553, 524305] ++ List.replicate 7 65553)).any
        fun a ↦ (a.allocate 524305).1.isNone) = true := by
    decide
  obtain ⟨a, ha, hnone⟩ := (Option.any_eq_true ..).mp hany
  exact ⟨a, ha, Option.isNone_iff_eq_none.mp hnone⟩

theorem ninth_eviction {small big : Bytes} (hsmall : small.length = 65536)
    (hbig : big.length = 524288) :
    let s := ((init ⟨2097152, false⟩ 0).run (puts (nineEntries small big))).2
    (∃ slot ∈ s.putEvicted [9] big,
      slot.1.val = classForSize (SlabEntry.requiredSize ([9] : Bytes).length big.length)) ∧
      (s.put [9] big).1 = false := by
  intro s
  have hsizes : sizes (nineEntries small big) = [65553, 524305] ++ List.replicate 7 65553 := by
    simp [sizes, nineEntries, hsmall, hbig, SlabEntry.requiredSize, SlabEntry.headerSize]
  have hkeys : (nineEntries small big).map Prod.fst =
      [[1], [0], [2], [3], [4], [5], [6], [7], [8]] := rfl
  have hsize : SlabEntry.requiredSize ([9] : Bytes).length big.length = 524305 := by
    rw [hbig]
    rfl
  obtain ⟨a, hall, hnone⟩ := allocateAll_nine
  rw [← hsizes] at hall
  obtain ⟨hb, hal, hhand, hmap, hring⟩ := run_fill (books_init ⟨2097152, false⟩ 0)
    (nineEntries small big) (by simp [init]) (by rw [hkeys]; decide) hall
  have hk : ([9] : Bytes) ∉ (s.shards 0).map := by
    rw [hmap, hkeys]
    simp [init]
  rw [hsizes] at hring
  have hlast := evicted_last hb (shardFor_zero [9]) hk hhand hring (by decide)
    rfl (by decide) (by rw [hal]; exact hnone)
  rw [put_of_loop, putEvicted, shardFor_zero, dropOld_of_notMem hk, hsize]
  exact ⟨hlast.2, by rw [Option.isSome_eq_false_iff, Option.isNone_iff_eq_none]; exact hlast.1⟩

/-- The ninth victim has the one slot that would do, but the loop has no attempt left. -/
theorem ninth_eviction_wasted :
    let small : Bytes := List.replicate 65536 0
    let big : Bytes := List.replicate 524288 0
    let s := ((init ⟨2097152, false⟩ 0).run (puts (nineEntries small big))).2
    Reachable ⟨2097152, false⟩ s ∧
      SlabEntry.requiredSize ([9] : Bytes).length big.length ≤ kMaxSlotSize ∧
      (∃ slot ∈ s.putEvicted [9] big,
        slot.1.val = classForSize (SlabEntry.requiredSize ([9] : Bytes).length big.length)) ∧
      (s.put [9] big).1 = false := by
  have hbig : SlabEntry.requiredSize ([9] : Bytes).length
      (List.replicate 524288 (0 : UInt8)).length ≤ kMaxSlotSize := by
    rw [List.length_replicate]
    decide
  have hsmall : (List.replicate 65536 (0 : UInt8)).length = 65536 := List.length_replicate
  exact ⟨reachable_run _ 0 _, hbig, ninth_eviction hsmall List.length_replicate⟩

end Pensieve.LocalStore
