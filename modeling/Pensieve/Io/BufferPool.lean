import Mathlib.Data.List.Range
import Mathlib.Data.UInt
import Pensieve.Foundation.Memory

/-!
# The pool of I/O buffers

`src/io/buffer_pool.cpp`.  The buffers lie one behind the other in a region, and a buffer is
known by its number.  The numbers of the free ones are on a stack.

A number has 16 bits.  The constructor narrows the numbers it puts on the stack, but it does so
only after the kernel has registered the buffers, and the kernel does not register more than
`2 ^ 14`.
-/

namespace Pensieve

open Foundation

/-- `BufferPool::BufferHandle`, with the offset of the buffer in the region. -/
structure BufferHandle where
  index : UInt16
  data : ℕ
  size : ℕ
deriving DecidableEq, Repr

/-- `BufferPool`.  The free list begins with the back of the vector. -/
structure BufferPool where
  bufferSize : ℕ
  bufferCount : ℕ
  region : Memory
  freeList : List UInt16

namespace BufferPool

/-- `IORING_MAX_REG_BUFFERS`. -/
def kMaxRegBuffers : ℕ := 2 ^ 14

/-- The constructor.  It throws if the kernel does not register the buffers; that the kernel also
refuses no buffers, and empty ones, is not used. -/
def create (bufferSize bufferCount : ℕ) : Option BufferPool :=
  if bufferCount ≤ kMaxRegBuffers then
    some
      { bufferSize, bufferCount, region := fun _ ↦ 0
        freeList := (List.range bufferCount).map UInt16.ofNat }
  else none

/-- `acquire`. -/
def acquire (pool : BufferPool) : Option BufferHandle × BufferPool :=
  match pool.freeList with
  | [] => (none, pool)
  | idx :: rest =>
    (some ⟨idx, idx.toNat * pool.bufferSize, pool.bufferSize⟩, { pool with freeList := rest })

/-- `release`. -/
def release (pool : BufferPool) (index : UInt16) : BufferPool :=
  { pool with freeList := index :: pool.freeList }

/-- The free list of a new pool has the number of every buffer once. -/
theorem count_freeList_create {size count : ℕ} {pool : BufferPool}
    (h : create size count = some pool) (idx : UInt16) :
    pool.freeList.count idx = if idx.toNat < pool.bufferCount then 1 else 0 := by
  rw [create] at h
  split_ifs at h with hcount
  cases h
  have hinj : ∀ a ∈ List.range count, ∀ b ∈ List.range count,
      UInt16.ofNat a = UInt16.ofNat b → a = b := by
    intro a ha b hb heq
    have hlt : count < 2 ^ 16 := lt_of_le_of_lt hcount (by decide)
    have hval := congrArg UInt16.toNat heq
    rw [List.mem_range] at ha hb
    rwa [UInt16.toNat_ofNat', UInt16.toNat_ofNat', Nat.mod_eq_of_lt (ha.trans hlt),
      Nat.mod_eq_of_lt (hb.trans hlt)] at hval
  have hnodup : ((List.range count).map UInt16.ofNat).Nodup := List.nodup_range.map_on hinj
  rw [hnodup.count]
  congr 1
  rw [eq_iff_iff, List.mem_map]
  constructor
  · rintro ⟨a, ha, rfl⟩
    rw [List.mem_range] at ha
    exact lt_of_le_of_lt (by rw [UInt16.toNat_ofNat']; exact Nat.mod_le _ _) ha
  · exact fun hidx ↦ ⟨idx.toNat, List.mem_range.mpr hidx, UInt16.ofNat_toNat⟩

/-- Different buffers do not overlap. -/
theorem buffers_disjoint {size i j m n : ℕ} (hij : i ≠ j) (hm : m ≤ size) (hn : n ≤ size) :
    i * size + m ≤ j * size ∨ j * size + n ≤ i * size := by
  rcases Nat.lt_or_gt_of_ne hij with hlt | hlt
  · have hle : (i + 1) * size ≤ j * size := Nat.mul_le_mul_right _ hlt
    rw [Nat.add_mul] at hle
    omega
  · have hle : (j + 1) * size ≤ i * size := Nat.mul_le_mul_right _ hlt
    rw [Nat.add_mul] at hle
    omega

end BufferPool

end Pensieve
