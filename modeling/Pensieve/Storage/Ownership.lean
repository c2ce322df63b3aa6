import Pensieve.Storage.Call

/-!
# Ownership of slots, one call at a time

What a running call may touch is decided by ownership: it owns the slots of the
entries in its shard's map and the slots it has in hand, and nobody else owns any
of them.  This file states that for one shard and proves that every step of a call
respects it.

* `live` is the shard's map as ownership sees it: an entry that the call has
  already freed and is about to erase does not count.  `tracked` is the part of
  the map that the evictor tracks.
* `owned` are the slots of the live entries and the slots in hand.
* `ShardInv` is the invariant of a shard, given where the call that holds its
  mutex stands (`none` when the mutex is free).
* `StepOK` says what a step achieves in the presence of any other slots `rest`
  that somebody else owns: the books still balance with `rest` in them, and the
  bytes of `rest` are untouched.  Because `rest` is arbitrary, this is all that is
  needed to run calls side by side.

The main result is `advance_ok`: every step of a call is `StepOK`.
-/

namespace Pensieve

open Foundation SlabAllocator

namespace LocalStore

variable {n : ℕ}

/-! ## What a call owns -/

/-- The shard's map without an entry that has been freed and is about to be
erased. -/
def live (pc : Option Pc) (m : AList fun _ : Bytes ↦ ℕ) : AList fun _ : Bytes ↦ ℕ :=
  match pc with
  | some (.putErase k _ _) | some (.delErase k _) => m.erase k
  | _ => m

/-- The part of the shard's map that the evictor tracks. -/
def tracked (pc : Option Pc) (m : AList fun _ : Bytes ↦ ℕ) : AList fun _ : Bytes ↦ ℕ :=
  match pc with
  | some (.putFree k _ _ _) | some (.putErase k _ _) | some (.delFree k _ _)
  | some (.delErase k _) => m.erase k
  | _ => m

/-- The slots a call has taken from the allocator or the evictor and has neither
stored nor returned. -/
def held : Option Pc → Multiset Slot
  | some (.putFreeVictim _ _ _ victim size) => {slotFor size victim}
  | some (.putStore k v p) => {slotFor (SlabEntry.requiredSize k.length v.length) p}
  | _ => 0

/-- The slots of the entries of a map.  An entry's class is recomputed from its
stored header, as every free does. -/
def mappedSlots (mem : Memory) (m : AList fun _ : Bytes ↦ ℕ) : Multiset Slot :=
  m.values.map fun p ↦ slotFor (SlabEntry.storedSize mem p) p

/-- The slots a shard, and the call that holds its mutex, own. -/
def owned (s : LocalStore n) (i : Fin (n + 1)) (pc : Option Pc) : Multiset Slot :=
  mappedSlots s.mem (live pc (s.shards i).map) + held pc

/-- The value the store associates with a key of shard `i`. -/
def view (s : LocalStore n) (i : Fin (n + 1)) (pc : Option Pc) (k : Bytes) : Option Bytes :=
  ((live pc (s.shards i).map).lookup k).map (SlabEntry.value s.mem)

/-- What a call knows where it stands. -/
def Stage (mem : Memory) (m : AList fun _ : Bytes ↦ ℕ) : Option Pc → Prop
  | some (.putFree k _ old size) | some (.delFree k old size) =>
    m.lookup k = some old ∧ size = SlabEntry.storedSize mem old
  | some (.putErase k _ old) | some (.delErase k old) => m.lookup k = some old
  | some (.putAlloc k _ _) | some (.putEvict k _ _) => k ∉ m
  | some (.putFreeVictim k _ _ _ size) => k ∉ m ∧ classForSize size < kNumClasses
  | some (.putStore k v _) =>
    k ∉ m ∧ classForSize (SlabEntry.requiredSize k.length v.length) < kNumClasses
  | _ => True

/-- The invariant of a shard.  Live entries hold their key and fit a slot; keys
are in the shard their hash selects; and the evictor tracks exactly the tracked
part of the map. -/
structure ShardInv (s : LocalStore n) (i : Fin (n + 1)) (pc : Option Pc) : Prop where
  entries : ∀ k p, (live pc (s.shards i).map).lookup k = some p →
    ∃ v, SlabEntry.Holds s.mem p k v ∧
      SlabEntry.requiredSize k.length v.length ≤ kMaxSlotSize
  home : ∀ k ∈ (s.shards i).map, shardFor n k = i
  wf : (s.shards i).evictor.WF
  ring_eq : (↑(s.shards i).evictor.ring : Multiset ℕ) = (tracked pc (s.shards i).map).values
  stage : Stage s.mem (s.shards i).map pc

/-- What a step of a call achieves, whatever else `rest` is owned by others. -/
structure StepOK (i : Fin (n + 1)) (rest : Multiset Slot) (s : LocalStore n) (pc : Pc)
    (s' : LocalStore n) (pc' : Pc) (ev : List SlotEvent) : Prop where
  inv : ShardInv s' i (some pc')
  books : ∃ pages, Accounts s'.allocator pages (s'.owned i (some pc') + rest)
  shards_eq : ∀ j, j ≠ i → s'.shards j = s.shards j
  mem_eq : ∀ t ∈ rest, ∀ x, t.2 ≤ x → x < t.2 + slotSizeForClass t.1 → s'.mem x = s.mem x
  touched : ∀ p, .touch p ∈ ev → p ∈ (s.owned i (some pc)).map Prod.snd
  kept : ∀ p ∈ (s'.owned i (some pc')).map Prod.snd,
    p ∈ (s.owned i (some pc)).map Prod.snd ∨ .take p ∈ ev
  given : ∀ p, .give p ∈ ev → p ∉ (s'.owned i (some pc')).map Prod.snd
  view_eq : ∀ k, s'.view i (some pc') k = s.view i (some pc) k ∨ s'.view i (some pc') k = none ∨
    ∃ v p, pc = .putStore k v p ∧ s'.view i (some pc') k = some v

/-! ## Live entries -/

section

variable {s : LocalStore n} {i : Fin (n + 1)} {pc : Option Pc} {rest : Multiset Slot}
  {pages : List (Fin kNumClasses)} {k : Bytes} {p : ℕ}

theorem mem_mappedSlots_snd {mem : Memory} {m : AList fun _ : Bytes ↦ ℕ} :
    p ∈ (mappedSlots mem m).map Prod.snd ↔ p ∈ m.values := by
  simp [mappedSlots, Multiset.map_map, Function.comp_def]

/-- The slot of a live entry is owned. -/
theorem slot_mem_owned (hl : (live pc (s.shards i).map).lookup k = some p) :
    slotFor (SlabEntry.storedSize s.mem p) p ∈ s.owned i pc :=
  Multiset.mem_add.mpr (Or.inl (Multiset.mem_map_of_mem _ (AList.mem_values.mpr ⟨k, hl⟩)))

/-- The size recorded for a live entry has a class. -/
theorem ShardInv.storedSize_le (h : ShardInv s i pc)
    (hl : (live pc (s.shards i).map).lookup k = some p) :
    SlabEntry.storedSize s.mem p ≤ kMaxSlotSize := by
  obtain ⟨v, hv, hle⟩ := h.entries k p hl
  rwa [hv.storedSize_eq]

/-- Owned slots and slots of others do not overlap, and neither do distinct owned
slots. -/
theorem disjoint_of_mem (ha : Accounts s.allocator pages (s.owned i pc + rest)) {a b : Slot}
    (h₁ : a ∈ s.owned i pc) (h₂ : b ∈ rest ∨ b ∈ s.owned i pc ∧ a ≠ b) :
    a.2 + slotSizeForClass a.1 ≤ b.2 ∨ b.2 + slotSizeForClass b.1 ≤ a.2 := by
  have hb : b ∈ s.owned i pc + rest :=
    Multiset.mem_add.mpr (h₂.elim Or.inr fun h ↦ Or.inl h.1)
  refine assignedSlots_disjoint (ha.mem_assigned (Multiset.mem_add.mpr (Or.inl h₁)))
    (ha.mem_assigned hb) ?_
  rcases h₂ with h₂ | h₂
  · rintro rfl
    have hnd := (Multiset.nodup_add.mp ha.nodup).2.1
    exact Multiset.disjoint_left.mp (Multiset.nodup_add.mp hnd).2.2 h₁ h₂
  · exact h₂.2

/-! ## Writing access bits -/

/-- Access bits of live entries may be written freely: entries still hold what
they held, and the bytes of other owners are untouched. -/
theorem ShardInv.write_bits (h : ShardInv s i pc)
    (ha : Accounts s.allocator pages (s.owned i pc + rest)) (qs : Multiset ℕ) (mem' : Memory)
    (hq : ∀ q ∈ qs, q ∈ (live pc (s.shards i).map).values)
    (hm : ∀ x, (∀ q ∈ qs, x ≠ q + 8) → mem' x = s.mem x) :
    (∀ k p v, (live pc (s.shards i).map).lookup k = some p → SlabEntry.Holds s.mem p k v →
      SlabEntry.Holds mem' p k v) ∧
    ∀ t ∈ rest, ∀ x, t.2 ≤ x → x < t.2 + slotSizeForClass t.1 → mem' x = s.mem x := by
  have h64 := le_slotSize
  constructor
  · intro k p v hl hv
    have hle := h.storedSize_le hl
    have hfit := le_slotFor hle p
    rw [hv.storedSize_eq] at hfit
    refine hv.congr fun x hx hlt hne ↦ hm x fun q hqs ↦ ?_
    rintro rfl
    obtain ⟨j, hj⟩ := AList.mem_values.mp (hq q hqs)
    have hpq : slotFor (SlabEntry.storedSize s.mem q) q
        ≠ slotFor (SlabEntry.storedSize s.mem p) p := by
      intro hc
      have : q = p := congrArg Prod.snd hc
      omega
    have hd := disjoint_of_mem ha (slot_mem_owned hj) (Or.inr ⟨slot_mem_owned hl, hpq⟩)
    rw [hv.storedSize_eq] at hd
    have := h64 (slotFor (SlabEntry.storedSize s.mem q) q).1
    simp only [slotFor_snd] at hd
    omega
  · intro t ht x hx hlt
    refine hm x fun q hqs ↦ ?_
    rintro rfl
    obtain ⟨j, hj⟩ := AList.mem_values.mp (hq q hqs)
    have hd := disjoint_of_mem ha (slot_mem_owned hj) (Or.inl ht)
    have := h64 (slotFor (SlabEntry.storedSize s.mem q) q).1
    simp only [slotFor_snd] at hd
    omega

/-- Entries that hold what they held occupy the slots they occupied. -/
theorem mappedSlots_congr {m : AList fun _ : Bytes ↦ ℕ} {mem mem' : Memory}
    (h : ∀ k p, m.lookup k = some p →
      SlabEntry.storedSize mem' p = SlabEntry.storedSize mem p) :
    mappedSlots mem' m = mappedSlots mem m := by
  refine Multiset.map_congr rfl fun p hp ↦ ?_
  obtain ⟨k, hk⟩ := AList.mem_values.mp hp
  rw [h k p hk]

/-- A change of memory that keeps every entry keeps the invariant, the owned slots
and the view. -/
theorem ShardInv.set_mem (h : ShardInv s i pc) {mem' : Memory}
    (hent : ∀ k p v, (live pc (s.shards i).map).lookup k = some p →
      SlabEntry.Holds s.mem p k v → SlabEntry.Holds mem' p k v)
    (hs : Stage mem' (s.shards i).map pc) :
    ShardInv { s with mem := mem' } i pc ∧
      LocalStore.owned { s with mem := mem' } i pc = s.owned i pc ∧
      ∀ k, LocalStore.view { s with mem := mem' } i pc k = s.view i pc k := by
  refine ⟨⟨?_, h.home, h.wf, h.ring_eq, hs⟩, ?_, fun k ↦ ?_⟩
  · intro k p hl
    obtain ⟨v, hv, hle⟩ := h.entries k p hl
    exact ⟨v, hent k p v hl hv, hle⟩
  · rw [owned, owned]
    refine congrArg (· + held pc) (mappedSlots_congr fun k p hl ↦ ?_)
    obtain ⟨v, hv, -⟩ := h.entries k p hl
    rw [hv.storedSize_eq, (hent k p v hl hv).storedSize_eq]
  · rw [view, view]
    rcases hl : (live pc (s.shards i).map).lookup k with _ | p
    · rfl
    · obtain ⟨v, hv, -⟩ := h.entries k p hl
      rw [Option.map_some, Option.map_some, hv.value_eq, (hent k p v hl hv).value_eq]

/-- The slot of an entry, and the slots of the others. -/
theorem mappedSlots_erase {m : AList fun _ : Bytes ↦ ℕ} {mem : Memory}
    (h : m.lookup k = some p) :
    mappedSlots mem m = slotFor (SlabEntry.storedSize mem p) p ::ₘ mappedSlots mem (m.erase k) := by
  rw [mappedSlots, AList.values_erase h, Multiset.map_cons]
  rfl

/-- A slot that is counted once is not counted again under another class. -/
theorem notMem_of_cons {a : SlabAllocator} {x : Slot} {out : Multiset Slot}
    (ha : Accounts a pages (x ::ₘ out)) : x.2 ∉ out.map Prod.snd := by
  intro hmem
  obtain ⟨y, hy, hxy⟩ := Multiset.mem_map.mp hmem
  have hnd : (x ::ₘ out).Nodup := (Multiset.nodup_add.mp ha.nodup).2.1
  have : y = x := assignedSlots_snd_inj (ha.mem_assigned (Multiset.mem_cons_of_mem hy))
    (ha.mem_assigned (Multiset.mem_cons_self x out)) hxy
  exact (Multiset.nodup_cons.mp hnd).1 (this ▸ hy)

end

/-! ## The steps

One lemma for each kind of step.  `put` and `del` share the steps that drop an
entry, so those lemmas are stated for any two places in the code that see the map
the same way. -/

section Steps

variable {s : LocalStore n} {i : Fin (n + 1)} {pc pc' : Pc} {rest : Multiset Slot}
  {pages : List (Fin kNumClasses)} {k v : Bytes} {p size : ℕ}

/-- A step that only moves on. -/
theorem stepOK_same (h : ShardInv s i (some pc))
    (ha : Accounts s.allocator pages (s.owned i (some pc) + rest))
    (hl : live (some pc') = live (some pc)) (ht : tracked (some pc') = tracked (some pc))
    (hh : held (some pc') = held (some pc)) (hs : Stage s.mem (s.shards i).map (some pc')) :
    StepOK i rest s pc s pc' [] := by
  have ho : s.owned i (some pc') = s.owned i (some pc) := by rw [owned, owned, hl, hh]
  refine ⟨⟨?_, h.home, h.wf, ?_, hs⟩, ⟨pages, ho ▸ ha⟩, fun _ _ ↦ rfl, fun _ _ _ _ _ ↦ rfl,
    by simp, ?_, by simp, fun j ↦ Or.inl ?_⟩
  · rw [hl]; exact h.entries
  · rw [ht]; exact h.ring_eq
  · rw [ho]; exact fun p hp ↦ Or.inl hp
  · rw [view, view, hl]

/-- Untracking the entry that is about to be dropped. -/
theorem stepOK_untrack (h : ShardInv s i (some pc))
    (ha : Accounts s.allocator pages (s.owned i (some pc) + rest))
    (hk : (s.shards i).map.lookup k = some p)
    (hl : live (some pc) = id) (ht : tracked (some pc) = id) (hh : held (some pc) = 0)
    (hl' : live (some pc') = id) (ht' : tracked (some pc') = AList.erase k)
    (hh' : held (some pc') = 0) (hs : Stage s.mem (s.shards i).map (some pc')) :
    StepOK i rest s pc (s.untrack i p) pc' [.touch p] := by
  have hmap : ((s.untrack i p).shards i).map = (s.shards i).map := by simp [untrack]
  have hev : ((s.untrack i p).shards i).evictor = (s.shards i).evictor.untrack p := by
    simp [untrack]
  have ho : (s.untrack i p).owned i (some pc') = s.owned i (some pc) := by
    rw [owned, owned, hl, hl', hh, hh', hmap, untrack_mem]
  have hring := h.ring_eq
  rw [ht, id_eq] at hring
  have hp : p ∈ (s.shards i).evictor.ring := by
    rw [← Multiset.mem_coe, hring]
    exact AList.mem_values.mpr ⟨k, hk⟩
  obtain ⟨hwf, hperm⟩ := h.wf.untrack hp
  refine ⟨⟨?_, ?_, ?_, ?_, ?_⟩, ⟨pages, ?_⟩, fun j hj ↦ ?_, fun _ _ _ _ _ ↦ rfl, ?_, ?_, by simp,
    fun j ↦ Or.inl ?_⟩
  · rw [hl', hmap]
    have hent := h.entries
    rw [hl] at hent
    exact hent
  · rw [hmap]; exact h.home
  · rw [hev]; exact hwf
  · rw [hev, hmap, ht']
    rw [hring, AList.values_erase hk] at hperm
    exact (Multiset.cons_inj_right p).mp hperm.symm
  · rw [hmap]; exact hs
  · rw [ho, untrack_allocator]; exact ha
  · simp [untrack, hj]
  · intro q hq
    obtain rfl : q = p := by simpa using hq
    rw [owned, Multiset.map_add, Multiset.mem_add, mem_mappedSlots_snd, hl]
    exact Or.inl (AList.mem_values.mpr ⟨k, hk⟩)
  · rw [ho]; exact fun p hp ↦ Or.inl hp
  · rw [view, view, hl, hl', hmap, untrack_mem]

/-- Freeing the entry that is about to be erased. -/
theorem stepOK_free (h : ShardInv s i (some pc))
    (ha : Accounts s.allocator pages (s.owned i (some pc) + rest))
    (hk : (s.shards i).map.lookup k = some p) (hsize : size = SlabEntry.storedSize s.mem p)
    (hl : live (some pc) = id) (ht : tracked (some pc) = AList.erase k)
    (hh : held (some pc) = 0)
    (hl' : live (some pc') = AList.erase k) (ht' : tracked (some pc') = AList.erase k)
    (hh' : held (some pc') = 0) (hs : Stage s.mem (s.shards i).map (some pc')) :
    StepOK i rest s pc (s.deallocate p size) pc' [.give p] := by
  have hk' : (live (some pc) (s.shards i).map).lookup k = some p := by rw [hl]; exact hk
  have hcls := (classForSize_lt (h.storedSize_le hk')).1
  have ho : s.owned i (some pc) = slotFor (SlabEntry.storedSize s.mem p) p
      ::ₘ (s.deallocate p size).owned i (some pc') := by
    rw [owned, owned, hl, hl', hh, hh', add_zero, add_zero]
    exact mappedSlots_erase hk
  rw [ho, Multiset.cons_add] at ha
  have hnot := notMem_of_cons ha
  refine ⟨⟨?_, h.home, h.wf, ?_, hs⟩, ⟨pages, ?_⟩, fun _ _ ↦ rfl, fun _ _ _ _ _ ↦ rfl, by simp,
    ?_, ?_, fun j ↦ ?_⟩
  · intro j q hj
    rw [hl'] at hj
    refine h.entries j q ?_
    rw [hl]
    exact (AList.lookup_erase_of_lookup hj).1
  · rw [ht', ← ht]; exact h.ring_eq
  · rw [slotFor_eq hcls] at ha
    exact ha.deallocate (by rw [hsize])
  · intro q hq
    rw [ho, Multiset.map_cons]
    exact Or.inl (Multiset.mem_cons_of_mem hq)
  · intro q hq
    obtain rfl : q = p := by simpa using hq
    rw [Multiset.map_add, Multiset.mem_add, not_or] at hnot
    exact hnot.1
  · rw [view, view, hl, hl']
    by_cases hj : j = k
    · rw [hj, deallocate_shards, AList.lookup_erase]
      exact Or.inr (Or.inl rfl)
    · rw [deallocate_shards, deallocate_mem, AList.lookup_erase_ne hj]
      exact Or.inl rfl

/-- Erasing the binding of an entry that has been freed. -/
theorem stepOK_erase (h : ShardInv s i (some pc))
    (ha : Accounts s.allocator pages (s.owned i (some pc) + rest))
    (hl : live (some pc) = AList.erase k) (ht : tracked (some pc) = AList.erase k)
    (hh : held (some pc) = 0)
    (hl' : live (some pc') = id) (ht' : tracked (some pc') = id) (hh' : held (some pc') = 0)
    (hs : Stage s.mem ((s.shards i).map.erase k) (some pc')) :
    StepOK i rest s pc (s.eraseKey i k) pc' [] := by
  have hmap : ((s.eraseKey i k).shards i).map = (s.shards i).map.erase k := by simp [eraseKey]
  have hev : ((s.eraseKey i k).shards i).evictor = (s.shards i).evictor := by simp [eraseKey]
  have ho : (s.eraseKey i k).owned i (some pc') = s.owned i (some pc) := by
    rw [owned, owned, hl, hl', hh, hh', hmap, eraseKey_mem, id_eq]
  refine ⟨⟨?_, ?_, ?_, ?_, ?_⟩, ⟨pages, ?_⟩, fun j hj ↦ ?_, fun _ _ _ _ _ ↦ rfl, by simp, ?_,
    by simp, fun j ↦ Or.inl ?_⟩
  · rw [hl', hmap]
    have hent := h.entries
    rw [hl] at hent
    exact hent
  · intro j hj
    rw [hmap, AList.mem_erase] at hj
    exact h.home j hj.2
  · rw [hev]; exact h.wf
  · rw [hev, hmap, ht', id_eq, h.ring_eq, ht]
  · rw [hmap]; exact hs
  · rw [ho, eraseKey_allocator]; exact ha
  · simp [eraseKey, hj]
  · rw [ho]; exact fun p hp ↦ Or.inl hp
  · rw [view, view, hl, hl', hmap, eraseKey_mem, id_eq]

/-- A successful allocation puts a slot into the call's hands. -/
theorem stepOK_allocate_some {a : SlabAllocator} {attempts : ℕ}
    (h : ShardInv s i (some (.putAlloc k v attempts)))
    (ha : Accounts s.allocator pages (s.owned i (some (.putAlloc k v attempts)) + rest))
    (hal : s.allocator.allocate (SlabEntry.requiredSize k.length v.length) = (some p, a)) :
    StepOK i rest s (.putAlloc k v attempts) { s with allocator := a } (.putStore k v p)
      [.take p] := by
  obtain ⟨hcls, pages', hacc⟩ := ha.allocate_some hal
  rw [← slotFor_eq hcls] at hacc
  have ho : LocalStore.owned { s with allocator := a } i (some (.putStore k v p))
      = slotFor (SlabEntry.requiredSize k.length v.length) p
        ::ₘ s.owned i (some (.putAlloc k v attempts)) := by
    simp only [owned, live, held, add_zero, Multiset.add_comm _ {_}, Multiset.singleton_add]
  refine ⟨⟨h.entries, h.home, h.wf, h.ring_eq, h.stage, hcls⟩, ⟨pages', ?_⟩, fun _ _ ↦ rfl,
    fun _ _ _ _ _ ↦ rfl, by simp, ?_, by simp, fun j ↦ Or.inl rfl⟩
  · rw [ho, Multiset.cons_add]; exact hacc
  · intro q hq
    rw [ho, Multiset.map_cons, Multiset.mem_cons, slotFor_snd] at hq
    rcases hq with rfl | hq
    · exact Or.inr (List.mem_singleton_self _)
    · exact Or.inl hq

/-- A failed allocation changes nothing. -/
theorem stepOK_allocate_none {a : SlabAllocator} {attempts : ℕ}
    (h : ShardInv s i (some (.putAlloc k v (attempts + 1))))
    (ha : Accounts s.allocator pages (s.owned i (some (.putAlloc k v (attempts + 1))) + rest))
    (hal : s.allocator.allocate (SlabEntry.requiredSize k.length v.length) = (none, a)) :
    StepOK i rest s (.putAlloc k v (attempts + 1)) { s with allocator := a }
      (.putEvict k v attempts) [] := by
  rw [Accounts.allocate_none hal]
  exact stepOK_same h ha rfl rfl rfl h.stage

/-- Freeing the victim. -/
theorem stepOK_freeVictim {attempts victim : ℕ}
    (h : ShardInv s i (some (.putFreeVictim k v attempts victim size)))
    (ha : Accounts s.allocator pages
      (s.owned i (some (.putFreeVictim k v attempts victim size)) + rest)) :
    StepOK i rest s (.putFreeVictim k v attempts victim size) (s.deallocate victim size)
      (.putAlloc k v attempts) [.give victim] := by
  obtain ⟨hk, hcls⟩ := h.stage
  have ho : s.owned i (some (.putFreeVictim k v attempts victim size)) = slotFor size victim
      ::ₘ (s.deallocate victim size).owned i (some (.putAlloc k v attempts)) := by
    simp only [owned, live, held, add_zero, Multiset.add_comm _ {_}, Multiset.singleton_add]
    rfl
  rw [ho, Multiset.cons_add] at ha
  have hnot := notMem_of_cons ha
  refine ⟨⟨h.entries, h.home, h.wf, h.ring_eq, hk⟩, ⟨pages, ?_⟩, fun _ _ ↦ rfl,
    fun _ _ _ _ _ ↦ rfl, by simp, ?_, ?_, fun j ↦ Or.inl rfl⟩
  · rw [slotFor_eq hcls] at ha
    exact ha.deallocate rfl
  · intro q hq
    rw [ho, Multiset.map_cons]
    exact Or.inl (Multiset.mem_cons_of_mem hq)
  · intro q hq
    obtain rfl : q = victim := by simpa using hq
    rw [Multiset.map_add, Multiset.mem_add, not_or] at hnot
    exact hnot.1

/-- Marking an entry as accessed, and reading it. -/
theorem stepOK_get (h : ShardInv s i (some (.start (.get k))))
    (ha : Accounts s.allocator pages (s.owned i (some (.start (.get k))) + rest))
    (hk : (s.shards i).map.lookup k = some p) (r : Ret) :
    StepOK i rest s (.start (.get k)) { s with mem := SlabEntry.setAccessBit s.mem p 1 }
      (.finish k r) [.touch p] := by
  have hp : p ∈ (s.shards i).map.values := AList.mem_values.mpr ⟨k, hk⟩
  have hbits : ∀ x, (∀ q ∈ ({p} : Multiset ℕ), x ≠ q + 8) →
      SlabEntry.setAccessBit s.mem p 1 x = s.mem x := fun x hx ↦
    SlabEntry.setAccessBit_apply_of_ne (hx p (Multiset.mem_singleton_self p))
  obtain ⟨hent, hrest⟩ := h.write_bits ha {p} _
    (fun q hq ↦ by rw [Multiset.mem_singleton.mp hq]; exact hp) hbits
  obtain ⟨hinv, ho, hview⟩ := h.set_mem hent trivial
  refine ⟨⟨hinv.entries, h.home, h.wf, h.ring_eq, trivial⟩, ⟨pages, ?_⟩, fun _ _ ↦ rfl, hrest, ?_,
    ?_, by simp, fun j ↦ Or.inl (hview j)⟩
  · change Accounts _ _ (LocalStore.owned _ i (some (.start (.get k))) + rest)
    rw [ho]; exact ha
  · intro q hq
    obtain rfl : q = p := by simpa using hq
    rw [owned, Multiset.map_add, Multiset.mem_add, mem_mappedSlots_snd]
    exact Or.inl hp
  · change ∀ q ∈ (LocalStore.owned _ i (some (.start (.get k)))).map Prod.snd, _
    rw [ho]; exact fun p hp ↦ Or.inl hp

/-- What a sweep does to a shard: the victim, if there is one, leaves the ring, and only
access bits are written. -/
theorem ShardInv.sweep {pc : Option Pc} {r : Option ℕ} {m' : Memory} {e' : ClockEvictor}
    (h : ShardInv s i pc) (ha : Accounts s.allocator pages (s.owned i pc + rest))
    (hl : live pc (s.shards i).map = (s.shards i).map)
    (ht : tracked pc (s.shards i).map = (s.shards i).map)
    (hs : ∀ mem, Stage mem (s.shards i).map pc)
    (he : (s.shards i).evictor.evictOne s.mem = (r, m', e')) :
    e'.WF ∧ (s.shards i).map.values = ↑r.toList + ↑e'.ring ∧
      (∀ t ∈ rest, ∀ x, t.2 ≤ x → x < t.2 + slotSizeForClass t.1 → m' x = s.mem x) ∧
      ShardInv { s with mem := m' } i pc ∧
      LocalStore.owned { s with mem := m' } i pc = s.owned i pc ∧
      ∀ k, LocalStore.view { s with mem := m' } i pc k = s.view i pc k := by
  obtain ⟨hwf, hperm, hbits⟩ := ClockEvictor.evictOne_spec h.wf he
  have hring : (↑(s.shards i).evictor.ring : Multiset ℕ) = (s.shards i).map.values := by
    rw [h.ring_eq, ht]
  obtain ⟨hent, hrest⟩ := h.write_bits ha ↑(s.shards i).evictor.ring m'
    (fun q hq ↦ by rw [hring] at hq; rw [hl]; exact hq) hbits
  obtain ⟨hinv, ho, hview⟩ := h.set_mem hent (hs m')
  exact ⟨hwf, hring ▸ hperm, hrest, hinv, ho, hview⟩

/-- The entries that a sweep may look at are owned. -/
theorem mem_owned_of_mem_ring {pc : Option Pc} {q : ℕ} (h : ShardInv s i pc)
    (hl : live pc (s.shards i).map = (s.shards i).map)
    (ht : tracked pc (s.shards i).map = (s.shards i).map)
    (hq : q ∈ (s.shards i).evictor.ring) : q ∈ (s.owned i pc).map Prod.snd := by
  rw [owned, Multiset.map_add, Multiset.mem_add, mem_mappedSlots_snd, hl, ← ht, ← h.ring_eq]
  exact Or.inl hq

/-- A sweep that finds nothing to evict. -/
theorem stepOK_evict_none {attempts : ℕ} {m' : Memory} {e' : ClockEvictor}
    (h : ShardInv s i (some (.putEvict k v attempts)))
    (ha : Accounts s.allocator pages (s.owned i (some (.putEvict k v attempts)) + rest))
    (he : (s.shards i).evictor.evictOne s.mem = (none, m', e')) :
    StepOK i rest s (.putEvict k v attempts)
      ({ s with mem := m' }.setShard i { s.shards i with evictor := e' })
      (.finish k (.put false)) ((s.shards i).evictor.ring.map .touch) := by
  obtain ⟨hwf, hperm, hrest, hinv, ho, hview⟩ := h.sweep ha rfl rfl (fun _ ↦ h.stage) he
  have ho' : ({ s with mem := m' }.setShard i { s.shards i with evictor := e' }).owned i
      (some (.finish k (.put false))) = s.owned i (some (.putEvict k v attempts)) := by
    rw [← ho]; simp [owned, live, held]
  refine ⟨⟨?_, ?_, ?_, ?_, trivial⟩, ⟨pages, ?_⟩, fun j hj ↦ ?_, hrest, ?_, ?_, by simp,
    fun j ↦ Or.inl ?_⟩
  · simpa [live] using hinv.entries
  · simpa using h.home
  · simpa using hwf
  · simpa [tracked] using hperm.symm
  · rw [ho']; exact ha
  · simp [hj]
  · exact fun q hq ↦ mem_owned_of_mem_ring h rfl rfl (by simpa using hq)
  · rw [ho']; exact fun p hp ↦ Or.inl hp
  · rw [← hview j]; simp [view, live]

/-- A sweep that evicts: the victim leaves ring and map and is in the call's
hands.  The key read back from the victim's bytes is the key it is mapped under. -/
theorem stepOK_evict_some {attempts victim : ℕ} {m' : Memory} {e' : ClockEvictor}
    (h : ShardInv s i (some (.putEvict k v attempts)))
    (ha : Accounts s.allocator pages (s.owned i (some (.putEvict k v attempts)) + rest))
    (he : (s.shards i).evictor.evictOne s.mem = (some victim, m', e')) :
    StepOK i rest s (.putEvict k v attempts)
      (({ s with mem := m' }.setShard i { s.shards i with evictor := e' }).eraseKey i
        (SlabEntry.key m' victim))
      (.putFreeVictim k v attempts victim (SlabEntry.storedSize m' victim))
      ((s.shards i).evictor.ring.map .touch) := by
  obtain ⟨hwf, hperm, hrest, hinv, ho, hview⟩ := h.sweep ha rfl rfl (fun _ ↦ h.stage) he
  simp only [Option.toList_some, Multiset.coe_singleton, Multiset.singleton_add] at hperm
  obtain ⟨kv, hkv⟩ : ∃ kv, (s.shards i).map.lookup kv = some victim :=
    AList.mem_values.mp (by rw [hperm]; exact Multiset.mem_cons_self _ _)
  obtain ⟨w, hw, hle⟩ := hinv.entries kv victim hkv
  have hkey : SlabEntry.key m' victim = kv := hw.key_eq
  rw [hkey]
  have ho' : (({ s with mem := m' }.setShard i { s.shards i with evictor := e' }).eraseKey i
      kv).owned i (some (.putFreeVictim k v attempts victim (SlabEntry.storedSize m' victim)))
        = s.owned i (some (.putEvict k v attempts)) := by
    rw [← ho]
    simp only [owned, live, held, eraseKey, setShard_shards, setShard_mem, Function.update_self,
      add_zero]
    rw [mappedSlots_erase hkv, Multiset.add_comm, Multiset.singleton_add]
  refine ⟨⟨?_, ?_, ?_, ?_, ?_, ?_⟩, ⟨pages, ?_⟩, fun j hj ↦ ?_, hrest, ?_, ?_, by simp,
    fun j ↦ ?_⟩
  · intro j q hj
    simp only [live, eraseKey, setShard_shards, Function.update_self] at hj
    exact hinv.entries j q (AList.lookup_erase_of_lookup hj).1
  · intro j hj
    simp only [eraseKey, setShard_shards, Function.update_self, AList.mem_erase] at hj
    exact h.home j hj.2
  · simpa [eraseKey] using hwf
  · rw [AList.values_erase hkv, Multiset.cons_inj_right] at hperm
    simpa [tracked, eraseKey] using hperm.symm
  · simp only [eraseKey, setShard_shards, Function.update_self, AList.mem_erase, not_and]
    exact fun _ ↦ h.stage
  · have hsz : SlabEntry.storedSize m' victim ≤ kMaxSlotSize := hinv.storedSize_le hkv
    exact (classForSize_lt hsz).1
  · rw [ho']; exact ha
  · simp [eraseKey, hj]
  · exact fun q hq ↦ mem_owned_of_mem_ring h rfl rfl (by simpa using hq)
  · rw [ho']; exact fun p hp ↦ Or.inl hp
  · rw [← hview j]
    simp only [view, live, eraseKey, setShard_shards, setShard_mem, Function.update_self]
    by_cases hj : j = kv
    · rw [hj, AList.lookup_erase]
      exact Or.inr (Or.inl rfl)
    · rw [AList.lookup_erase_ne hj]
      exact Or.inl rfl

/-! ### Storing an entry -/

theorem owned_putStore (s : LocalStore n) (i : Fin (n + 1)) (k v : Bytes) (p : ℕ) :
    s.owned i (some (.putStore k v p)) =
      slotFor (SlabEntry.requiredSize k.length v.length) p ::ₘ
        mappedSlots s.mem (s.shards i).map := by
  rw [owned, Multiset.add_comm]
  exact Multiset.singleton_add _ _

/-- The slot in the hands of the call holds no entry. -/
theorem notMem_values_of_putStore
    (ha : Accounts s.allocator pages (s.owned i (some (.putStore k v p)) + rest)) :
    p ∉ (s.shards i).map.values := by
  rw [owned_putStore, Multiset.cons_add] at ha
  have hmem := notMem_of_cons ha
  rw [Multiset.map_add, Multiset.mem_add, not_or, mem_mappedSlots_snd] at hmem
  exact hmem.1

/-- The slots of others lie outside the bytes that are written. -/
theorem initAt_apply_of_rest (hfit : SlabEntry.requiredSize k.length v.length ≤ kMaxSlotSize)
    (ha : Accounts s.allocator pages (s.owned i (some (.putStore k v p)) + rest)) {t : Slot}
    (ht : t ∈ rest) {x : ℕ} (hx : t.2 ≤ x) (hlt : x < t.2 + slotSizeForClass t.1) :
    SlabEntry.initAt s.mem p k v x = s.mem x := by
  have hslot := le_slotFor hfit p
  have hd := disjoint_of_mem ha (by rw [owned_putStore]; exact Multiset.mem_cons_self ..)
    (Or.inl ht)
  simp only [slotFor_snd] at hd
  exact SlabEntry.initAt_apply_of_notMem (by omega)

/-- And so do the other entries. -/
theorem ShardInv.holds_initAt {j w : Bytes} {q : ℕ}
    (h : ShardInv s i (some (.putStore k v p)))
    (ha : Accounts s.allocator pages (s.owned i (some (.putStore k v p)) + rest))
    (hj : (s.shards i).map.lookup j = some q) (hw : SlabEntry.Holds s.mem q j w) :
    SlabEntry.Holds (SlabEntry.initAt s.mem p k v) q j w := by
  have hslot := le_slotFor (classForSize_lt_iff.mp h.stage.2) p
  have hne : slotFor (SlabEntry.requiredSize k.length v.length) p ≠
      slotFor (SlabEntry.storedSize s.mem q) q := by
    intro heq
    have hpq : p = q := congrArg Prod.snd heq
    exact notMem_values_of_putStore ha (AList.mem_values.mpr ⟨j, hpq ▸ hj⟩)
  have hd := disjoint_of_mem ha (by rw [owned_putStore]; exact Multiset.mem_cons_self ..)
    (Or.inr ⟨slot_mem_owned hj, hne⟩)
  have hfit := le_slotFor (h.storedSize_le hj) q
  rw [hw.storedSize_eq] at hd hfit
  simp only [slotFor_snd] at hd
  exact hw.congr fun x hx hlt _ ↦ SlabEntry.initAt_apply_of_notMem (by omega)

theorem map_storeEntry (hk : k ∉ (s.shards i).map) :
    ((s.storeEntry i p k v).shards i).map = (s.shards i).map.insert k p := by
  simp [storeEntry, hk]

theorem evictor_storeEntry :
    ((s.storeEntry i p k v).shards i).evictor = (s.shards i).evictor.track p := by
  simp [storeEntry]

theorem ShardInv.holds_new (h : ShardInv s i (some (.putStore k v p))) :
    SlabEntry.Holds (s.storeEntry i p k v).mem p k v := by
  have hfit : 16 + k.length + v.length ≤ 1048576 := classForSize_lt_iff.mp h.stage.2
  exact SlabEntry.holds_initAt (by omega) (by omega)

/-- The slot moves from the call's hands into the map. -/
theorem ShardInv.owned_storeEntry (h : ShardInv s i (some (.putStore k v p)))
    (ha : Accounts s.allocator pages (s.owned i (some (.putStore k v p)) + rest)) (r : Ret) :
    (s.storeEntry i p k v).owned i (some (.finish k r)) = s.owned i (some (.putStore k v p)) := by
  obtain ⟨hk, -⟩ := h.stage
  rw [owned_putStore, owned]
  simp only [live, held, add_zero, map_storeEntry hk, mappedSlots, AList.values_insert hk,
    Multiset.map_cons]
  rw [h.holds_new.storedSize_eq]
  refine congrArg (_ ::ₘ ·) (mappedSlots_congr fun j q hj ↦ ?_)
  obtain ⟨w, hw, -⟩ := h.entries j q hj
  exact (h.holds_initAt ha hj hw).storedSize_eq.trans hw.storedSize_eq.symm

theorem ShardInv.storeEntry (h : ShardInv s i (some (.putStore k v p)))
    (ha : Accounts s.allocator pages (s.owned i (some (.putStore k v p)) + rest))
    (hi : shardFor n k = i) (r : Ret) :
    ShardInv (s.storeEntry i p k v) i (some (.finish k r)) := by
  obtain ⟨hk, hcls⟩ := h.stage
  have hring : (↑(s.shards i).evictor.ring : Multiset ℕ) = (s.shards i).map.values := h.ring_eq
  refine ⟨fun j q hj ↦ ?_, fun j hj ↦ ?_, ?_, ?_, trivial⟩
  · simp only [live, map_storeEntry hk] at hj
    by_cases hjk : j = k
    · subst hjk
      rw [AList.lookup_insert, Option.some.injEq] at hj
      exact ⟨v, hj ▸ h.holds_new, classForSize_lt_iff.mp hcls⟩
    · rw [AList.lookup_insert_ne hjk] at hj
      obtain ⟨w, hw, hle⟩ := h.entries j q hj
      exact ⟨w, h.holds_initAt ha hj hw, hle⟩
  · rw [map_storeEntry hk, AList.mem_insert] at hj
    rcases hj with rfl | hj
    · exact hi
    · exact h.home j hj
  · rw [evictor_storeEntry]
    refine h.wf.track fun hmem ↦ notMem_values_of_putStore ha ?_
    rw [← hring]
    exact hmem
  · rw [evictor_storeEntry, map_storeEntry hk]
    simp only [tracked, AList.values_insert hk, ClockEvictor.track_ring]
    rw [← hring, Multiset.cons_coe, Multiset.coe_eq_coe]
    exact List.perm_append_singleton _ _

/-- Storing the entry. -/
theorem stepOK_store (h : ShardInv s i (some (.putStore k v p)))
    (ha : Accounts s.allocator pages (s.owned i (some (.putStore k v p)) + rest))
    (hi : shardFor n k = i) (r : Ret) :
    StepOK i rest s (.putStore k v p) (s.storeEntry i p k v) (.finish k r) [.touch p] := by
  obtain ⟨hk, hcls⟩ := h.stage
  have howned := h.owned_storeEntry ha r
  refine ⟨h.storeEntry ha hi r, ⟨pages, ?_⟩, fun j hj ↦ ?_,
    fun t ht x hx hlt ↦ initAt_apply_of_rest (classForSize_lt_iff.mp hcls) ha ht hx hlt, ?_, ?_,
    by simp, fun j ↦ ?_⟩
  · rw [howned]
    exact ha
  · simp [LocalStore.storeEntry, hj]
  · intro q hq
    obtain rfl : q = p := by simpa using hq
    rw [owned_putStore]
    exact Multiset.mem_map.mpr ⟨_, Multiset.mem_cons_self .., rfl⟩
  · rw [howned]
    exact fun p hp ↦ Or.inl hp
  · simp only [view, live, map_storeEntry hk]
    by_cases hjk : j = k
    · subst hjk
      rw [AList.lookup_insert, Option.map_some]
      exact Or.inr (Or.inr ⟨v, p, rfl, congrArg some h.holds_new.value_eq⟩)
    · rw [AList.lookup_insert_ne hjk]
      left
      rcases hj : (s.shards i).map.lookup j with _ | q
      · rfl
      · obtain ⟨w, hw, -⟩ := h.entries j q hj
        rw [Option.map_some, Option.map_some, hw.value_eq]
        exact congrArg some (h.holds_initAt ha hj hw).value_eq

/-- **Every step of a call respects ownership.** -/
theorem advance_ok {s' : LocalStore n} {ev : List SlotEvent} (h : ShardInv s i (some pc))
    (ha : Accounts s.allocator pages (s.owned i (some pc) + rest))
    (hi : shardFor n pc.key = i) (hadv : s.advance i pc = some (s', pc', ev)) :
    StepOK i rest s pc s' pc' ev := by
  cases pc with
  | start op =>
      cases op with
      | put k v =>
          simp only [advance] at hadv
          split at hadv
          · rename_i old hold
            cases hadv
            exact stepOK_untrack h ha hold rfl rfl rfl rfl rfl rfl ⟨hold, rfl⟩
          · rename_i hnone
            cases hadv
            exact stepOK_same h ha rfl rfl rfl (AList.lookup_eq_none.mp hnone)
      | get k =>
          simp only [advance] at hadv
          split at hadv
          · cases hadv
            exact stepOK_same h ha rfl rfl rfl trivial
          · rename_i entry hentry
            cases hadv
            exact stepOK_get h ha hentry _
      | del k =>
          simp only [advance] at hadv
          split at hadv
          · cases hadv
            exact stepOK_same h ha rfl rfl rfl trivial
          · rename_i entry hentry
            cases hadv
            exact stepOK_untrack h ha hentry rfl rfl rfl rfl rfl rfl ⟨hentry, rfl⟩
  | putFree k v old size =>
      cases hadv
      exact stepOK_free h ha h.stage.1 h.stage.2 rfl rfl rfl rfl rfl rfl h.stage.1
  | putErase k v old =>
      cases hadv
      exact stepOK_erase h ha rfl rfl rfl rfl rfl rfl (by simp [Stage])
  | putAlloc k v attempts =>
      cases attempts with
      | zero =>
          cases hadv
          exact stepOK_same h ha rfl rfl rfl trivial
      | succ attempts =>
          simp only [advance, allocate] at hadv
          rcases hal : s.allocator.allocate (SlabEntry.requiredSize k.length v.length)
            with ⟨_ | p, a⟩
          · rw [hal] at hadv
            cases hadv
            exact stepOK_allocate_none h ha hal
          · rw [hal] at hadv
            cases hadv
            exact stepOK_allocate_some h ha hal
  | putEvict k v attempts =>
      simp only [advance, evictOne] at hadv
      rcases he : (s.shards i).evictor.evictOne s.mem with ⟨_ | victim, m', e'⟩
      · rw [he] at hadv
        cases hadv
        exact stepOK_evict_none h ha he
      · rw [he] at hadv
        cases hadv
        exact stepOK_evict_some h ha he
  | putFreeVictim k v attempts victim size =>
      cases hadv
      exact stepOK_freeVictim h ha
  | putStore k v p =>
      cases hadv
      exact stepOK_store h ha hi _
  | delFree k entry size =>
      cases hadv
      exact stepOK_free h ha h.stage.1 h.stage.2 rfl rfl rfl rfl rfl rfl h.stage.1
  | delErase k entry =>
      cases hadv
      exact stepOK_erase h ha rfl rfl rfl rfl rfl rfl trivial
  | finish k r => cases hadv

end Steps

end LocalStore

end Pensieve
