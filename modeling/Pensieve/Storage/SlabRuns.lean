import Pensieve.Foundation.Machine
import Pensieve.Storage.SlabAllocator

/-!
# Runs of the slab allocator

The allocator with the slots that are out, for any sequence of calls in which a slot is
returned at most once, with a size of the class that it was asked for with.  The size need
not be the same: `LocalStore` recomputes it from the entry.

The books of `Pensieve.Storage.SlabAllocator` are kept by every call (`inv_of_run`).
That slots are where they should be, do not overlap and are not lost is read off the books
(`sound_of_run`).
-/

namespace Pensieve

open Foundation SlabAllocator

/-- The allocator, and the addresses that are out with the sizes that were asked for. -/
structure SlabLoans where
  allocator : SlabAllocator
  out : List (ℕ × ℕ)

namespace SlabLoans

/-- The calls. -/
inductive Action where
  | allocate (size : ℕ)
  | /-- The slot at `ptr`, which was asked for with `asked`, is returned with `size`. -/
    deallocate (ptr asked size : ℕ)

/-- What a call returns. -/
inductive Event where
  | allocated (size : ℕ) (ptr : Option ℕ)
  | deallocated (ptr size : ℕ)
deriving DecidableEq

/-- One call. -/
def step (s : SlabLoans) : Action → Option (SlabLoans × List Event)
  | .allocate size =>
    match s.allocator.allocate size with
    | (none, allocator) => some ({ s with allocator }, [.allocated size none])
    | (some ptr, allocator) =>
      some (⟨allocator, (ptr, size) :: s.out⟩, [.allocated size (some ptr)])
  | .deallocate ptr asked size =>
    if (ptr, asked) ∈ s.out ∧ classForSize size = classForSize asked then
      some (⟨s.allocator.deallocate (some ptr) size, s.out.erase (ptr, asked)⟩,
        [.deallocated ptr size])
    else none

/-- All calls on an allocator over an arena. -/
def machine (arena : Arena) : Machine SlabLoans Action Event where
  init s := s = ⟨.init arena, []⟩
  step := step

/-- The slots that are out. -/
def slots (s : SlabLoans) : Multiset Slot := ↑(s.out.map fun x ↦ slotFor x.2 x.1)

/-- What is to hold of an allocator whose arena has the given capacity. -/
structure Sound (capacity : ℕ) (s : SlabLoans) : Prop where
  /-- No more pages are assigned than there are. -/
  pages : s.allocator.nextPage ≤ capacity / 1048576
  /-- Slots are aligned, and inside one assigned page. -/
  placed : ∀ x ∈ s.out, 64 ∣ x.1 ∧ ∃ page < s.allocator.nextPage, page * 1048576 ≤ x.1 ∧
    x.1 + slotSizeForClass (classForSize x.2) ≤ (page + 1) * 1048576
  /-- The size of a slot is the smallest power of two that will do. -/
  size : ∀ x ∈ s.out, (∃ j, slotSizeForClass (classForSize x.2) = 2 ^ j) ∧
    max x.2 64 ≤ slotSizeForClass (classForSize x.2) ∧
    ∀ j, max x.2 64 ≤ 2 ^ j → slotSizeForClass (classForSize x.2) ≤ 2 ^ j
  /-- Slots do not overlap. -/
  disjoint : s.out.Pairwise fun x y ↦ x.1 + slotSizeForClass (classForSize x.2) ≤ y.1 ∨
    y.1 + slotSizeForClass (classForSize y.2) ≤ x.1
  /-- Slots are inside the arena. -/
  inside : ∀ x ∈ s.out, x.1 + slotSizeForClass (classForSize x.2) ≤ capacity
  /-- The slots of the assigned pages, each page cut up for one class, are free or out, and
  each of them once. -/
  partition : (s.allocator.free + s.slots).Nodup ∧ ∃ classes : List (Fin kNumClasses),
    classes.length = s.allocator.nextPage ∧ s.allocator.free + s.slots = assignedSlots classes
  /-- A call fails only for want of a class, or of a slot and a page. -/
  fails : ∀ size, (s.allocator.allocate size).1 = none → 1048576 < size ∨
    ∃ cls : Fin kNumClasses, (cls : ℕ) = classForSize size ∧ s.allocator.freeSlots cls = [] ∧
      capacity / 1048576 ≤ s.allocator.nextPage

/-! ## The books -/

/-- The books balance, and what is out has a class. -/
structure Inv (arena : Arena) (s : SlabLoans) : Prop where
  arena_eq : s.allocator.arena = arena
  accounts : ∃ pages, Accounts s.allocator pages s.slots
  fits : ∀ x ∈ s.out, x.2 ≤ kMaxSlotSize

variable {arena : Arena} {s s' : SlabLoans} {ev : List Event} {a : Action}

theorem Inv.step (h : s.Inv arena) (hs : s.step a = some (s', ev)) : s'.Inv arena := by
  obtain ⟨pages, hacc⟩ := h.accounts
  cases a with
  | allocate size =>
      rw [SlabLoans.step] at hs
      rcases hal : s.allocator.allocate size with ⟨- | ptr, allocator⟩
      · rw [hal] at hs
        cases hs
        obtain rfl := Accounts.allocate_none hal
        exact h
      · rw [hal] at hs
        cases hs
        obtain ⟨hcls, pages', hacc'⟩ := hacc.allocate_some hal
        refine ⟨?_, ⟨pages', ?_⟩, List.forall_mem_cons.mpr ⟨?_, h.fits⟩⟩
        · rw [← h.arena_eq, ← allocate_arena s.allocator size, hal]
        · rw [slots, List.map_cons, slotFor_eq hcls]
          exact hacc'
        · exact classForSize_lt_iff.mp hcls
  | deallocate ptr asked size =>
      obtain ⟨⟨hmem, hcls⟩, hs⟩ := Option.ite_none_right_eq_some.mp hs
      cases hs
      have hlt : classForSize asked < kNumClasses := (classForSize_lt (h.fits _ hmem)).1
      refine ⟨?_, ⟨pages, ?_⟩, fun x hx ↦ h.fits x (List.mem_of_mem_erase hx)⟩
      · rw [← h.arena_eq, deallocate_arena]
      · refine Accounts.deallocate (c := ⟨classForSize asked, hlt⟩) ?_ hcls
        have hperm := (List.perm_cons_erase hmem).map fun x ↦ slotFor x.2 x.1
        rw [slots, Multiset.coe_eq_coe.mpr hperm, List.map_cons, slotFor_eq hlt] at hacc
        exact hacc

/-- The books are kept in every run. -/
theorem inv_of_run {tr : List Event} (h : (machine arena).Run s tr) : s.Inv arena := by
  refine h.invariant (I := fun s _ ↦ s.Inv arena) ?_ ?_
  · rintro _ rfl
    exact ⟨rfl, ⟨[], accounts_init arena⟩, fun _ hx ↦ nomatch hx⟩
  · exact fun _ _ _ _ _ _ hinv hs ↦ hinv.step hs

/-! ## What the books say -/

/-- Where a slot of an assigned page lies. -/
theorem placed_of_mem {pages : List (Fin kNumClasses)} {x : Slot} (h : x ∈ assignedSlots pages) :
    64 ∣ x.2 ∧ ∃ page < pages.length, page * 1048576 ≤ x.2 ∧
      x.2 + slotSizeForClass x.1 ≤ (page + 1) * 1048576 := by
  obtain ⟨page, hpage, i, hi, heq⟩ := mem_assignedSlots.mp h
  have hin := slot_le_page x.1.isLt hi
  have hkPage : kPageSize = 1048576 := rfl
  have hbase : page * kPageSize = page * 1048576 := rfl
  refine ⟨?_, page, (List.getElem?_eq_some_iff.mp hpage).1, ?_, ?_⟩
  · rw [heq, slotSizeForClass_eq]
    refine Nat.dvd_add ((show 64 ∣ kPageSize by decide).mul_left page) ?_
    exact (Nat.dvd_mul_right 64 _).mul_left i
  · omega
  · rw [Nat.succ_mul]
    omega

theorem mem_slots {x : ℕ × ℕ} (h : s.Inv arena) (hx : x ∈ s.out) :
    (⟨classForSize x.2, (classForSize_lt (h.fits x hx)).1⟩, x.1) ∈ s.slots := by
  rw [← slotFor_eq]
  exact Multiset.mem_coe.mpr (List.mem_map_of_mem hx)

theorem Inv.disjoint (h : s.Inv arena) :
    s.out.Pairwise fun x y ↦ x.1 + slotSizeForClass (classForSize x.2) ≤ y.1 ∨
      y.1 + slotSizeForClass (classForSize y.2) ≤ x.1 := by
  obtain ⟨pages, hacc⟩ := h.accounts
  have hnodup : (s.out.map fun x ↦ slotFor x.2 x.1).Nodup :=
    Multiset.coe_nodup.mp (Multiset.nodup_add.mp hacc.nodup).2.1
  refine (List.pairwise_map.mp hnodup).imp_of_mem fun {x y} hx hy hne ↦ ?_
  rw [slotFor_eq (classForSize_lt (h.fits x hx)).1, slotFor_eq (classForSize_lt (h.fits y hy)).1]
    at hne
  exact assignedSlots_disjoint (hacc.mem_assigned (mem_slots h hx))
    (hacc.mem_assigned (mem_slots h hy)) hne

theorem Inv.fails (h : s.Inv arena) {size : ℕ} (hnone : (s.allocator.allocate size).1 = none) :
    1048576 < size ∨ ∃ cls : Fin kNumClasses, (cls : ℕ) = classForSize size ∧
      s.allocator.freeSlots cls = [] ∧ arena.capacity / 1048576 ≤ s.allocator.nextPage := by
  by_cases hsize : size ≤ kMaxSlotSize
  · have hlt := (classForSize_lt hsize).1
    obtain ⟨hfree, hpages⟩ := allocate_fst_eq_none.mp hnone hlt
    rw [pagesTotal, h.arena_eq] at hpages
    exact Or.inr ⟨⟨_, hlt⟩, rfl, hfree, hpages⟩
  · exact Or.inl (not_le.mp hsize)

/-- **The allocator is sound**, after any calls on an arena of any capacity. -/
theorem sound_of_run (arena : Arena) (s : SlabLoans) (tr : List Event)
    (h : (machine arena).Run s tr) : s.Sound arena.capacity := by
  have hinv := inv_of_run h
  obtain ⟨pages, hacc⟩ := hinv.accounts
  have hle : s.allocator.nextPage ≤ arena.capacity / 1048576 := by
    have := hacc.nextPage_le
    rwa [pagesTotal, hinv.arena_eq] at this
  have hplaced : ∀ x ∈ s.out, 64 ∣ x.1 ∧ ∃ page < s.allocator.nextPage, page * 1048576 ≤ x.1 ∧
      x.1 + slotSizeForClass (classForSize x.2) ≤ (page + 1) * 1048576 := by
    rw [← hacc.length_pages]
    exact fun x hx ↦ placed_of_mem (hacc.mem_assigned (mem_slots hinv hx))
  refine ⟨hle, hplaced, fun x hx ↦ ⟨?_, ?_, fun j hj ↦ ?_⟩, hinv.disjoint, fun x hx ↦ ?_,
    ⟨hacc.nodup, pages, hacc.length_pages, hacc.balance⟩, fun size ↦ hinv.fails⟩
  · exact ⟨6 + classForSize x.2, by rw [slotSizeForClass_eq, pow_add]; rfl⟩
  · exact max_le (classForSize_lt (hinv.fits x hx)).2 (le_slotSize _)
  · exact slotSizeForClass_le_two_pow (hinv.fits x hx) hj
  · obtain ⟨-, page, hpage, -, hend⟩ := hplaced x hx
    have hpages : (page + 1) * 1048576 ≤ arena.capacity / 1048576 * 1048576 :=
      Nat.mul_le_mul_right _ (hpage.trans_le hle)
    exact hend.trans (hpages.trans (Nat.div_mul_le_self _ _))

/-- Two pages and a bit more: a slot of the largest size is returned and lent again, and one
of another class is taken from the other page. -/
theorem sound_of_run_two_pages :
    ∃ s tr, (machine ⟨2097252, false⟩).exec ⟨.init ⟨2097252, false⟩, []⟩
        [.allocate 600000, .allocate 2000000, .deallocate 0 600000 1048576, .allocate 1048576,
          .allocate 70000] = some (s, tr) ∧
      s.out = [(2097152 - 131072, 70000), (0, 1048576)] ∧ s.Sound 2097252 := by
  have hsome : (((machine ⟨2097252, false⟩).exec ⟨.init ⟨2097252, false⟩, []⟩
      [.allocate 600000, .allocate 2000000, .deallocate 0 600000 1048576, .allocate 1048576,
        .allocate 70000]).map fun x ↦ x.1.out) =
      some [(2097152 - 131072, 70000), (0, 1048576)] := by decide +kernel
  obtain ⟨⟨s, tr⟩, hexec, hout⟩ := Option.map_eq_some_iff.mp hsome
  have hrun : (machine ⟨2097252, false⟩).Run s ([] ++ tr) := (Machine.Run.init rfl).exec hexec
  exact ⟨s, tr, hexec, hout, sound_of_run ⟨2097252, false⟩ s ([] ++ tr) hrun⟩

end SlabLoans

end Pensieve
