import Mathlib.Data.List.Range
import Mathlib.Data.List.Nodup
import Mathlib.Data.Nat.Bitwise
import Mathlib.Data.Nat.Find
import Mathlib.Tactic.NormNum
import Mathlib.Tactic.Positivity
import Pensieve.Foundation.Table

/-!
# The slab allocator

`src/storage/slab_allocator.cpp`.  The arena is cut into 1 MB pages; a page is
assigned to one of fifteen size classes the first time that class runs dry and is
then cut into slots of the class's size, which go onto the class's free list.
Slots come off the back of the list and go back onto it; a page is never
reassigned.

Pointers are offsets from the base of the arena, and a null pointer is `none`.

The allocator does not remember which class a page belongs to, or which slots are
out.  `Accounts a pages out` supplies both: `pages` lists the classes of the
assigned pages in the order they were assigned, and `out` is the multiset of
outstanding slots.  Its one equation says that free lists and outstanding slots
together are exactly the slots of the assigned pages; `allocate` and
`deallocate` move one slot from one side to the other.
-/

namespace Pensieve

open Foundation

/-! ## Bit operations of the standard library -/

/-- `std::bit_ceil`: the least power of two that is at least `n`. -/
def bitCeil (n : ℕ) : ℕ :=
  match (List.range 64).find? fun j ↦ decide (n ≤ 2 ^ j) with
  | some j => 2 ^ j
  | none => 0

/-- `std::countr_zero` at a 64-bit word: the number of trailing zero bits. -/
def countrZero (n : ℕ) : ℕ := ((List.range 64).find? fun j ↦ n.testBit j).getD 64

theorem bitCeil_eq {n j : ℕ} (hj : j < 64) (h : n ≤ 2 ^ j) (hlt : ∀ i < j, 2 ^ i < n) :
    bitCeil n = 2 ^ j := by
  have hfind : (List.range 64).find? (fun j ↦ decide (n ≤ 2 ^ j)) = some j := by
    rw [List.find?_range_eq_some]
    exact ⟨by simpa using h, by simpa using hj, fun i hi ↦ by simpa using hlt i hi⟩
  rw [bitCeil, hfind]

theorem countrZero_two_pow {j : ℕ} (hj : j < 64) : countrZero (2 ^ j) = j := by
  have hfind : (List.range 64).find? (fun i ↦ (2 ^ j).testBit i) = some j := by
    rw [List.find?_range_eq_some]
    refine ⟨by simp, by simpa using hj, fun i hi ↦ ?_⟩
    simp only [Nat.testBit_two_pow, Bool.not_eq_eq_eq_not, Bool.not_true, decide_eq_false_iff_not]
    omega
  rw [countrZero, hfind, Option.getD_some]

/-! ## The arena -/

/-- The two exceptions the arena's constructor throws. -/
inductive ArenaError where
  | invalidArgument (what : String)
  | runtimeError (what : String)
deriving DecidableEq, Repr

/-- The mapped region: its size, and whether it is backed by huge pages. -/
structure Arena where
  capacity : ℕ
  hugepage : Bool
deriving DecidableEq, Repr

/-- The constructor.  `mmap capacity huge` is the system call; its error is the
text `strerror` gives for it. -/
def Arena.new (mmap : ℕ → Bool → Except String Unit) (capacity : ℕ) :
    Except ArenaError Arena :=
  if capacity = 0 then
    .error (.invalidArgument "Arena capacity must be > 0")
  else
    match mmap capacity true with
    | .ok () => .ok ⟨capacity, true⟩
    | .error _ =>
      match mmap capacity false with
      | .ok () => .ok ⟨capacity, false⟩
      | .error e => .error (.runtimeError ("mmap failed: " ++ e))

/-! ## The allocator -/

def kPageSize : ℕ := 1048576
def kMinSlotSize : ℕ := 64
def kMaxSlotSize : ℕ := 1048576
def kNumClasses : ℕ := 15

/-- The allocator's state.  A class's `slot_size` is fixed by the constructor to
`kMinSlotSize << i` and is computed from the class (`slotSizeForClass`). -/
structure SlabAllocator where
  arena : Arena
  freeSlots : Fin kNumClasses → List ℕ
  nextPage : ℕ

/-- A slot: its class and its address. -/
abbrev Slot := Fin kNumClasses × ℕ

namespace SlabAllocator

/-- The constructor's state over an arena. -/
def init (arena : Arena) : SlabAllocator :=
  { arena := arena, freeSlots := fun _ ↦ [], nextPage := 0 }

def pagesTotal (a : SlabAllocator) : ℕ := a.arena.capacity / kPageSize

def pagesUsed (a : SlabAllocator) : ℕ := a.nextPage

/-- `class_for_size`; `kNumClasses` signals "too large". -/
def classForSize (size : ℕ) : ℕ :=
  if size ≤ kMinSlotSize then 0
  else if kMaxSlotSize < size then kNumClasses
  else countrZero (bitCeil size) - countrZero kMinSlotSize

def slotSizeForClass (cls : ℕ) : ℕ := kMinSlotSize <<< cls

/-- The slots a page of class `cls` is cut into, in the order `assign_page`
pushes them. -/
def pageSlots (page cls : ℕ) : List ℕ :=
  (List.range (kPageSize / slotSizeForClass cls)).map fun i ↦
    page * kPageSize + i * slotSizeForClass cls

/-- `assign_page`: give the next unassigned page, if there is one, to a class. -/
def assignPage (a : SlabAllocator) (cls : Fin kNumClasses) : SlabAllocator :=
  if a.pagesTotal ≤ a.nextPage then a
  else
    { a with
      nextPage := a.nextPage + 1
      freeSlots := Function.update a.freeSlots cls
        (a.freeSlots cls ++ pageSlots a.nextPage cls) }

/-- `allocate`: the back of the class's free list, after assigning a page if the
list is empty. -/
def allocate (a : SlabAllocator) (size : ℕ) : Option ℕ × SlabAllocator :=
  if h : classForSize size < kNumClasses then
    let cls : Fin kNumClasses := ⟨classForSize size, h⟩
    let a := if (a.freeSlots cls).isEmpty then a.assignPage cls else a
    match (a.freeSlots cls).getLast? with
    | none => (none, a)
    | some slot =>
      (some slot, { a with
        freeSlots := Function.update a.freeSlots cls (a.freeSlots cls).dropLast })
  else (none, a)

/-- `deallocate`: push the slot back onto the free list of the class of `size`. -/
def deallocate (a : SlabAllocator) (ptr : Option ℕ) (size : ℕ) : SlabAllocator :=
  if h : classForSize size < kNumClasses then
    match ptr with
    | none => a
    | some p =>
      { a with
        freeSlots := Function.update a.freeSlots ⟨classForSize size, h⟩
          (a.freeSlots ⟨classForSize size, h⟩ ++ [p]) }
  else a

/-! ## Size classes -/

theorem slotSizeForClass_eq (cls : ℕ) : slotSizeForClass cls = 64 * 2 ^ cls := by
  rw [slotSizeForClass, kMinSlotSize, Nat.shiftLeft_eq]

theorem slotSizeForClass_pos (cls : ℕ) : 0 < slotSizeForClass cls := by
  rw [slotSizeForClass_eq]; positivity

/-- Between the smallest and the largest slot, the class is the position of the
least power of two above the size. -/
theorem classForSize_eq {size c : ℕ} (hc : c < kNumClasses) (h : size ≤ 64 * 2 ^ c)
    (hlt : ∀ i < c, 64 * 2 ^ i < size) : classForSize size = c := by
  unfold kNumClasses at hc
  cases c with
  | zero => rw [classForSize, if_pos (by simpa [kMinSlotSize] using h)]
  | succ c =>
      have hc0 : 64 < size := by
        have := hlt 0 (by omega)
        omega
      have hmax : 64 * 2 ^ (c + 1) ≤ 64 * 2 ^ 14 :=
        Nat.mul_le_mul_left _ (Nat.pow_le_pow_right (by omega) (by omega))
      have hceil : bitCeil size = 2 ^ (c + 7) := by
        refine bitCeil_eq (by omega) ?_ fun i hi ↦ ?_
        · rw [show c + 7 = 6 + (c + 1) by omega, pow_add]
          exact h
        · by_cases h6 : i ≤ 6
          · calc 2 ^ i ≤ 2 ^ 6 := Nat.pow_le_pow_right (by omega) h6
              _ < size := hc0
          · have := hlt (i - 6) (by omega)
            rwa [show (64 : ℕ) = 2 ^ 6 by norm_num, ← pow_add,
              show 6 + (i - 6) = i by omega] at this
      have h64 : countrZero kMinSlotSize = 6 := countrZero_two_pow (j := 6) (by omega)
      rw [classForSize, if_neg (by unfold kMinSlotSize; omega),
        if_neg (by unfold kMaxSlotSize; omega), hceil, countrZero_two_pow (by omega), h64]
      omega

/-- Every size up to the largest slot has a class, which is the first whose slots it fits
into. -/
theorem classForSize_spec {size : ℕ} (h : size ≤ kMaxSlotSize) :
    classForSize size < kNumClasses ∧ size ≤ slotSizeForClass (classForSize size) ∧
      ∀ i < classForSize size, slotSizeForClass i < size := by
  have hex : ∃ c, size ≤ 64 * 2 ^ c := ⟨14, by simpa [kMaxSlotSize] using h⟩
  have hle : Nat.find hex ≤ 14 := Nat.find_le (by simpa [kMaxSlotSize] using h)
  have hmin : ∀ i < Nat.find hex, 64 * 2 ^ i < size := fun i hi ↦ by
    simpa using Nat.find_min hex hi
  have hcls : classForSize size = Nat.find hex :=
    classForSize_eq (by unfold kNumClasses; omega) (Nat.find_spec hex) hmin
  simp only [hcls, slotSizeForClass_eq]
  exact ⟨by unfold kNumClasses; omega, Nat.find_spec hex, hmin⟩

theorem classForSize_lt {size : ℕ} (h : size ≤ kMaxSlotSize) :
    classForSize size < kNumClasses ∧ size ≤ slotSizeForClass (classForSize size) :=
  ⟨(classForSize_spec h).1, (classForSize_spec h).2.1⟩

/-- The slots of a class are the smallest that a power of two allows. -/
theorem slotSizeForClass_le_two_pow {size j : ℕ} (h : size ≤ kMaxSlotSize)
    (hj : max size kMinSlotSize ≤ 2 ^ j) : slotSizeForClass (classForSize size) ≤ 2 ^ j := by
  obtain ⟨hsize, hmin⟩ := max_le_iff.mp hj
  have hj6 : 6 ≤ j := (Nat.pow_le_pow_iff_right (a := 2) (by omega)).mp hmin
  have hpow : 2 ^ j = slotSizeForClass (j - 6) := by
    rw [slotSizeForClass_eq, show (64 : ℕ) = 2 ^ 6 by norm_num, ← pow_add,
      show 6 + (j - 6) = j by omega]
  have hcls : classForSize size ≤ j - 6 := by
    by_contra hlt
    have := (classForSize_spec h).2.2 (j - 6) (by omega)
    omega
  rw [hpow, slotSizeForClass_eq, slotSizeForClass_eq]
  exact Nat.mul_le_mul_left _ (Nat.pow_le_pow_right (by omega) hcls)

/-- A size has a class exactly when it fits into the largest slot. -/
theorem classForSize_lt_iff {size : ℕ} :
    classForSize size < kNumClasses ↔ size ≤ kMaxSlotSize := by
  refine ⟨fun h ↦ ?_, fun h ↦ (classForSize_lt h).1⟩
  by_contra hlt
  rw [classForSize, if_neg (by unfold kMinSlotSize; unfold kMaxSlotSize at hlt; omega),
    if_pos (by omega)] at h
  omega

/-- A slot of any class divides a page evenly. -/
theorem slots_mul_size {cls : ℕ} (h : cls < kNumClasses) :
    kPageSize / slotSizeForClass cls * slotSizeForClass cls = kPageSize := by
  unfold kNumClasses at h
  refine Nat.div_mul_cancel ?_
  rw [slotSizeForClass_eq, show kPageSize = 64 * 2 ^ 14 from rfl]
  exact Nat.mul_dvd_mul_left _ (pow_dvd_pow 2 (by omega))

/-! ## When there is no slot -/

theorem slots_pos (cls : Fin kNumClasses) : 0 < kPageSize / slotSizeForClass cls := by
  refine Nat.pos_of_ne_zero fun hzero ↦ ?_
  have hmul := slots_mul_size cls.isLt
  rw [hzero, Nat.zero_mul] at hmul
  exact absurd hmul (by decide)

theorem pageSlots_ne_nil (page : ℕ) (cls : Fin kNumClasses) : pageSlots page cls ≠ [] := by
  refine List.ne_nil_of_length_pos ?_
  rw [pageSlots, List.length_map, List.length_range]
  exact slots_pos cls

theorem assignPage_of_le {a : SlabAllocator} (h : a.pagesTotal ≤ a.nextPage)
    (cls : Fin kNumClasses) : a.assignPage cls = a :=
  if_pos h

theorem assignPage_of_lt {a : SlabAllocator} (h : a.nextPage < a.pagesTotal)
    (cls : Fin kNumClasses) : (a.assignPage cls).freeSlots cls ≠ [] := by
  rw [assignPage, if_neg (not_le.mpr h)]
  simpa using fun _ ↦ pageSlots_ne_nil a.nextPage cls

/-- The arena stays the same. -/
theorem allocate_arena (a : SlabAllocator) (size : ℕ) : (a.allocate size).2.arena = a.arena := by
  have hassign : ∀ cls, (a.assignPage cls).arena = a.arena := by
    intro cls
    rw [assignPage]
    split_ifs <;> rfl
  rw [allocate]
  split_ifs with hc
  · by_cases hfree : a.freeSlots ⟨classForSize size, hc⟩ = []
    · simp only [hfree, List.isEmpty_nil, if_true]
      split <;> exact hassign _
    · simp only [List.isEmpty_iff, hfree, if_false]
      split <;> rfl
  · rfl

theorem deallocate_arena (a : SlabAllocator) (ptr : Option ℕ) (size : ℕ) :
    (a.deallocate ptr size).arena = a.arena := by
  rw [deallocate]
  split_ifs
  · split <;> rfl
  · rfl

/-- `allocate` fails exactly if the size has no class, or if the class has no free slot and
no page is left. -/
theorem allocate_fst_eq_none {a : SlabAllocator} {size : ℕ} :
    (a.allocate size).1 = none ↔ ∀ h : classForSize size < kNumClasses,
      a.freeSlots ⟨classForSize size, h⟩ = [] ∧ a.pagesTotal ≤ a.nextPage := by
  rw [allocate]
  split_ifs with hc
  · rw [forall_prop_of_true hc]
    generalize (⟨classForSize size, hc⟩ : Fin kNumClasses) = cls
    by_cases hfree : a.freeSlots cls = []
    · by_cases hpages : a.pagesTotal ≤ a.nextPage
      · simp [hfree, assignPage_of_le hpages, hpages]
      · have hlast := List.getLast?_eq_some_getLast (assignPage_of_lt (not_le.mp hpages) cls)
        simp [hfree, hpages, hlast]
    · have hlast := List.getLast?_eq_some_getLast hfree
      simp [hfree, hlast]
  · exact iff_of_true rfl fun h ↦ absurd h hc

theorem allocate_fst_eq_none_iff {a : SlabAllocator} {size : ℕ} {c : Fin kNumClasses}
    (hc : classForSize size = c) :
    (a.allocate size).1 = none ↔ a.freeSlots c = [] ∧ a.pagesTotal ≤ a.nextPage := by
  obtain ⟨c, hlt⟩ := c
  obtain rfl : classForSize size = c := hc
  exact allocate_fst_eq_none.trans ⟨fun h ↦ h hlt, fun h _ ↦ h⟩

/-- The other classes keep their free slots. -/
theorem allocate_freeSlots_of_ne (a : SlabAllocator) {size : ℕ} {d : Fin kNumClasses}
    (hd : classForSize size ≠ d) : (a.allocate size).2.freeSlots d = a.freeSlots d := by
  rw [allocate]
  split_ifs with hc
  · have hne : d ≠ ⟨classForSize size, hc⟩ := fun heq ↦ hd (congrArg Fin.val heq).symm
    generalize (⟨classForSize size, hc⟩ : Fin kNumClasses) = cls at hne
    have hassign : (a.assignPage cls).freeSlots d = a.freeSlots d := by
      rw [assignPage]
      split_ifs
      · rfl
      · exact Function.update_of_ne hne ..
    by_cases hfree : (a.freeSlots cls).isEmpty
    · simp only [hfree, if_true]
      split
      · exact hassign
      · exact (Function.update_of_ne hne ..).trans hassign
    · simp only [hfree]
      split
      · rfl
      · exact Function.update_of_ne hne ..
  · rfl

theorem deallocate_freeSlots_of_ne (a : SlabAllocator) (p : ℕ) {size : ℕ} {d : Fin kNumClasses}
    (hd : classForSize size ≠ d) : (a.deallocate (some p) size).freeSlots d = a.freeSlots d := by
  rw [deallocate]
  split_ifs with hc
  · exact Function.update_of_ne (fun heq ↦ hd (congrArg Fin.val heq).symm) ..
  · rfl

theorem deallocate_nextPage (a : SlabAllocator) (ptr : Option ℕ) (size : ℕ) :
    (a.deallocate ptr size).nextPage = a.nextPage := by
  rw [deallocate]
  split_ifs
  · split <;> rfl
  · rfl

/-! ## The slots of the assigned pages -/

/-- The slots of pages with the given classes, page `j` being the `j`-th. -/
def assignedSlots (pages : List (Fin kNumClasses)) : Multiset Slot :=
  ↑(pages.zipIdx.flatMap fun x ↦ (pageSlots x.2 x.1).map (Prod.mk x.1))

@[simp] theorem assignedSlots_nil : assignedSlots [] = 0 := rfl

/-- Assigning one more page adds its slots. -/
theorem assignedSlots_concat (pages : List (Fin kNumClasses)) (c : Fin kNumClasses) :
    assignedSlots (pages ++ [c])
      = assignedSlots pages + ↑((pageSlots pages.length c).map (Prod.mk c)) := by
  simp [assignedSlots, List.zipIdx_append]

theorem mem_assignedSlots {pages : List (Fin kNumClasses)} {s : Slot} :
    s ∈ assignedSlots pages ↔ ∃ j, pages[j]? = some s.1 ∧
      ∃ i, i < kPageSize / slotSizeForClass s.1 ∧
        s.2 = j * kPageSize + i * slotSizeForClass s.1 := by
  obtain ⟨c, p⟩ := s
  simp only [assignedSlots, Multiset.mem_coe, List.mem_flatMap, Prod.exists,
    List.mk_mem_zipIdx_iff_getElem?, List.mem_map, Prod.mk.injEq, pageSlots, List.mem_range]
  constructor
  · rintro ⟨d, j, hj, q, ⟨i, hi, rfl⟩, rfl, rfl⟩
    exact ⟨j, hj, i, hi, rfl⟩
  · rintro ⟨j, hj, i, hi, rfl⟩
    exact ⟨c, j, hj, _, ⟨i, hi, rfl⟩, rfl, rfl⟩

/-- The number of slots of pages that have one class. -/
theorem card_assignedSlots {pages : List (Fin kNumClasses)} {c : Fin kNumClasses}
    (h : ∀ d ∈ pages, d = c) :
    (assignedSlots pages).card = pages.length * (kPageSize / slotSizeForClass c) := by
  induction pages using List.reverseRecOn with
  | nil => simp
  | append_singleton pages d ih =>
      obtain rfl : d = c := h d (by simp)
      rw [assignedSlots_concat, Multiset.card_add, ih fun x hx ↦ h x (by simp [hx])]
      simp [pageSlots, Nat.add_mul]

/-- A slot lies inside its page. -/
theorem slot_le_page {cls i : ℕ} (hc : cls < kNumClasses)
    (hi : i < kPageSize / slotSizeForClass cls) :
    i * slotSizeForClass cls + slotSizeForClass cls ≤ kPageSize := by
  calc i * slotSizeForClass cls + slotSizeForClass cls
      = (i + 1) * slotSizeForClass cls := (Nat.succ_mul _ _).symm
    _ ≤ kPageSize / slotSizeForClass cls * slotSizeForClass cls :=
        Nat.mul_le_mul_right _ hi
    _ = kPageSize := slots_mul_size hc

/-- Distinct slots of the assigned pages occupy disjoint byte ranges. -/
theorem assignedSlots_disjoint {pages : List (Fin kNumClasses)} {s t : Slot}
    (hs : s ∈ assignedSlots pages) (ht : t ∈ assignedSlots pages) (hne : s ≠ t) :
    s.2 + slotSizeForClass s.1 ≤ t.2 ∨ t.2 + slotSizeForClass t.1 ≤ s.2 := by
  obtain ⟨c, p⟩ := s
  obtain ⟨d, q⟩ := t
  obtain ⟨j, hj, i, hi, hp⟩ := mem_assignedSlots.mp hs
  obtain ⟨l, hl, r, hr, hq⟩ := mem_assignedSlots.mp ht
  simp only at hp hq hi hr hj hl ⊢
  have hpi := slot_le_page c.isLt hi
  have hqr := slot_le_page d.isLt hr
  rcases Nat.lt_trichotomy j l with hjl | rfl | hjl
  · have := Nat.mul_le_mul_right kPageSize hjl
    rw [Nat.succ_mul] at this
    omega
  · -- one page has one class, so its slots are laid out with one stride
    have hcd : c = d := Option.some.inj (hj.symm.trans hl)
    subst hcd
    rcases Nat.lt_trichotomy i r with hir | rfl | hir
    · have := Nat.mul_le_mul_right (slotSizeForClass c) hir
      rw [Nat.succ_mul] at this
      omega
    · exact absurd (by rw [hp, hq]) hne
    · have := Nat.mul_le_mul_right (slotSizeForClass c) hir
      rw [Nat.succ_mul] at this
      omega
  · have := Nat.mul_le_mul_right kPageSize hjl
    rw [Nat.succ_mul] at this
    omega

/-- No slot is listed twice. -/
theorem assignedSlots_nodup (pages : List (Fin kNumClasses)) : (assignedSlots pages).Nodup := by
  induction pages using List.reverseRecOn with
  | nil => exact Multiset.nodup_zero
  | append_singleton pages c ih =>
      rw [assignedSlots_concat, Multiset.nodup_add]
      refine ⟨ih, ?_, ?_⟩
      · rw [Multiset.coe_nodup]
        refine List.Nodup.map (Prod.mk_right_injective c) (List.Nodup.map ?_ List.nodup_range)
        intro i r hir
        exact Nat.eq_of_mul_eq_mul_right (slotSizeForClass_pos c) (Nat.add_left_cancel hir)
      · -- the new page lies above every page assigned before it
        rw [Multiset.disjoint_left]
        intro s hs hs'
        obtain ⟨j, hj, i, hi, hp⟩ := mem_assignedSlots.mp hs
        simp only [Multiset.mem_coe, List.mem_map, pageSlots, List.mem_range] at hs'
        obtain ⟨q, ⟨r, -, rfl⟩, rfl⟩ := hs'
        have hjlt : j < pages.length := (List.getElem?_eq_some_iff.mp hj).1
        have hle := slot_le_page c.isLt hi
        have hpos := slotSizeForClass_pos c
        have := Nat.mul_le_mul_right kPageSize hjlt
        rw [Nat.succ_mul] at this
        simp only at hp hle
        omega

/-- Addresses determine assigned slots. -/
theorem assignedSlots_snd_inj {pages : List (Fin kNumClasses)} {s t : Slot}
    (hs : s ∈ assignedSlots pages) (ht : t ∈ assignedSlots pages) (h : s.2 = t.2) : s = t := by
  by_contra hne
  have h₁ := slotSizeForClass_pos s.1
  have h₂ := slotSizeForClass_pos t.1
  rcases assignedSlots_disjoint hs ht hne with hd | hd <;> omega

/-! ## Accounting -/

/-- The slots on the free lists. -/
def free (a : SlabAllocator) : Multiset Slot :=
  ∑ c, (↑((a.freeSlots c).map (Prod.mk c)) : Multiset Slot)

/-- The allocator's books: `pages` are the classes of the assigned pages and
`out` the outstanding slots. -/
structure Accounts (a : SlabAllocator) (pages : List (Fin kNumClasses))
    (out : Multiset Slot) : Prop where
  length_pages : pages.length = a.nextPage
  nextPage_le : a.nextPage ≤ a.pagesTotal
  balance : a.free + out = assignedSlots pages

theorem accounts_init (arena : Arena) : Accounts (init arena) [] 0 :=
  ⟨rfl, Nat.zero_le _, by simp [free, init]⟩

/-- Replacing one free list replaces its slots. -/
theorem free_update (a : SlabAllocator) (n : ℕ) (c : Fin kNumClasses) (l : List ℕ) :
    free { a with freeSlots := Function.update a.freeSlots c l, nextPage := n }
        + ↑((a.freeSlots c).map (Prod.mk c))
      = a.free + ↑(l.map (Prod.mk c)) :=
  sum_update (fun c l ↦ (↑(List.map (Prod.mk c) l) : Multiset Slot)) a.freeSlots c l

namespace Accounts

variable {a : SlabAllocator} {pages : List (Fin kNumClasses)} {out : Multiset Slot}

/-- The books stay balanced when one free list changes by the same slots as the
right-hand side. -/
theorem update (h : Accounts a pages out) {c : Fin kNumClasses} {l : List ℕ}
    {out' : Multiset Slot}
    (hl : (↑(l.map (Prod.mk c)) : Multiset Slot) + out' =
      ↑((a.freeSlots c).map (Prod.mk c)) + out) :
    Accounts { a with freeSlots := Function.update a.freeSlots c l } pages out' := by
  refine ⟨h.length_pages, h.nextPage_le, ?_⟩
  have hu := free_update a a.nextPage c l
  have : free { a with freeSlots := Function.update a.freeSlots c l } + out'
      + ↑((a.freeSlots c).map (Prod.mk c)) = a.free + out + ↑((a.freeSlots c).map (Prod.mk c)) := by
    calc _ = free { a with freeSlots := Function.update a.freeSlots c l }
          + ↑((a.freeSlots c).map (Prod.mk c)) + out' := by abel
      _ = a.free + (↑(l.map (Prod.mk c)) + out') := by rw [hu]; abel
      _ = _ := by rw [hl]; abel
  rw [← h.balance]
  exact add_right_cancel this

/-- Assigning a page keeps the books. -/
theorem assignPage (h : Accounts a pages out) (c : Fin kNumClasses) :
    ∃ pages', Accounts (a.assignPage c) pages' out := by
  unfold SlabAllocator.assignPage
  split
  · exact ⟨pages, h⟩
  · rename_i hlt
    refine ⟨pages ++ [c], ?_, ?_, ?_⟩
    · simp [h.length_pages]
    · exact Nat.succ_le_of_lt (Nat.lt_of_not_le hlt)
    · have hu := free_update a (a.nextPage + 1) c (a.freeSlots c ++ pageSlots a.nextPage c)
      rw [List.map_append, ← Multiset.coe_add] at hu
      rw [assignedSlots_concat, h.length_pages, ← h.balance]
      refine add_right_cancel (b := (↑((a.freeSlots c).map (Prod.mk c)) : Multiset Slot)) ?_
      rw [add_right_comm, hu]
      abel

/-- A slot that `allocate` returns belongs to the class of the requested size and
becomes outstanding. -/
theorem allocate_some (h : Accounts a pages out) {size p : ℕ} {a' : SlabAllocator}
    (ha : a.allocate size = (some p, a')) :
    ∃ (hc : classForSize size < kNumClasses) (pages' : List (Fin kNumClasses)),
      Accounts a' pages' ((⟨classForSize size, hc⟩, p) ::ₘ out) := by
  unfold SlabAllocator.allocate at ha
  split at ha
  · rename_i hc
    simp only at ha
    generalize hb : (if (a.freeSlots ⟨classForSize size, hc⟩).isEmpty = true
      then a.assignPage ⟨classForSize size, hc⟩ else a) = b at ha
    obtain ⟨pages', hbk⟩ : ∃ pages', Accounts b pages' out := by
      rw [← hb]
      split
      · exact h.assignPage _
      · exact ⟨pages, h⟩
    split at ha
    · cases ha
    · rename_i slot hlast
      cases ha
      refine ⟨hc, pages', hbk.update ?_⟩
      obtain ⟨l, hl⟩ := List.getLast?_eq_some_iff.mp hlast
      rw [hl, List.dropLast_concat, List.map_append, ← Multiset.coe_add]
      simp only [List.map_cons, List.map_nil, Multiset.coe_singleton, ← Multiset.singleton_add]
      abel
  · cases ha

/-- An allocation that fails changes nothing. -/
theorem allocate_none {size : ℕ} {a' : SlabAllocator} (ha : a.allocate size = (none, a')) :
    a' = a := by
  have hnone := allocate_fst_eq_none.mp (congrArg Prod.fst ha)
  rw [SlabAllocator.allocate] at ha
  split at ha
  · rename_i hc
    obtain ⟨hfree, hpages⟩ := hnone hc
    simp only [hfree, List.isEmpty_nil, if_true, assignPage_of_le hpages, List.getLast?_nil] at ha
    exact (congrArg Prod.snd ha).symm
  · exact (congrArg Prod.snd ha).symm

/-- Returning an outstanding slot with a size of its own class. -/
theorem deallocate {c : Fin kNumClasses} {p size : ℕ} (h : Accounts a pages ((c, p) ::ₘ out))
    (hc : classForSize size = c) : Accounts (a.deallocate (some p) size) pages out := by
  unfold SlabAllocator.deallocate
  have hlt : classForSize size < kNumClasses := hc ▸ c.isLt
  have hcls : (⟨classForSize size, hlt⟩ : Fin kNumClasses) = c := Fin.ext hc
  rw [dif_pos hlt]
  simp only [hcls]
  refine h.update ?_
  rw [List.map_append, ← Multiset.coe_add]
  simp only [List.map_cons, List.map_nil, Multiset.coe_singleton, ← Multiset.singleton_add]
  abel

/-- An outstanding slot is a slot of an assigned page. -/
theorem mem_assigned (h : Accounts a pages out) {s : Slot} (hs : s ∈ out) :
    s ∈ assignedSlots pages := by
  rw [← h.balance]
  exact Multiset.mem_add.mpr (Or.inr hs)

/-- Free and outstanding slots are pairwise distinct. -/
theorem nodup (h : Accounts a pages out) : (a.free + out).Nodup := by
  rw [h.balance]
  exact assignedSlots_nodup pages

end Accounts

end SlabAllocator

/-! ## Slots of entries -/

open SlabAllocator

instance : NeZero kNumClasses := ⟨by decide⟩

/-- The slot that an entry of the given size occupies at address `p`. -/
def slotFor (size p : ℕ) : Slot := (Fin.ofNat kNumClasses (classForSize size), p)

@[simp] theorem slotFor_snd (size p : ℕ) : (slotFor size p).2 = p := rfl

theorem slotFor_eq {size p : ℕ} (h : classForSize size < kNumClasses) :
    slotFor size p = (⟨classForSize size, h⟩, p) :=
  Prod.ext (Fin.ext (Nat.mod_eq_of_lt h)) rfl

/-- An entry fits into its slot. -/
theorem le_slotFor {size : ℕ} (h : size ≤ kMaxSlotSize) (p : ℕ) :
    size ≤ slotSizeForClass (slotFor size p).1 := by
  rw [slotFor_eq (classForSize_lt h).1]
  exact (classForSize_lt h).2

/-- A slot is at least as large as the smallest slot. -/
theorem le_slotSize (c : ℕ) : 64 ≤ slotSizeForClass c := by
  rw [slotSizeForClass_eq]
  exact Nat.le_mul_of_pos_right _ (by positivity)

end Pensieve
