import Pensieve.Foundation.Memory

/-!
# Slab entries

A slab entry is a 16-byte header followed by the key bytes and the value bytes,
all stored inline at the slot address (`src/storage/slab_entry.h`):

```
offset 0   key_size    uint32
offset 4   value_size  uint32
offset 8   access_bit  uint8
offset 9   reserved    7 bytes
offset 16  key bytes, then value bytes
```

A `SlabEntry*` is modelled by its byte offset from the base of the arena, and the
accessors read the arena's bytes.  `Holds m p k v` says that the bytes at `p` are
an entry for `k` and `v`; it does not look at the access bit, which is what
makes it stable under `get` and under the sweep of the clock hand.
-/

namespace Pensieve

open Foundation

/-- Keys and values are byte strings. -/
abbrev Bytes := List UInt8

namespace SlabEntry

/-- `sizeof(SlabEntry)`. -/
def headerSize : ℕ := 16

/-- The stored `key_size` field. -/
def keySize (m : Memory) (p : ℕ) : ℕ := leNat (m.read p 4)

/-- The stored `value_size` field. -/
def valueSize (m : Memory) (p : ℕ) : ℕ := leNat (m.read (p + 4) 4)

/-- The stored `access_bit` field. -/
def accessBit (m : Memory) (p : ℕ) : UInt8 := m (p + 8)

/-- `entry->access_bit = b`. -/
def setAccessBit (m : Memory) (p : ℕ) (b : UInt8) : Memory := m.write (p + 8) [b]

/-- `key()`: the key bytes stored behind the header. -/
def key (m : Memory) (p : ℕ) : Bytes := m.read (p + headerSize) (keySize m p)

/-- `value()`: the value bytes stored behind the key. -/
def value (m : Memory) (p : ℕ) : Bytes :=
  m.read (p + headerSize + keySize m p) (valueSize m p)

/-- `required_size`: the bytes an entry occupies. -/
def requiredSize (keyLen valLen : ℕ) : ℕ := headerSize + keyLen + valLen

/-- `init_at`: write the header, the key and the value at `p`.  The two sizes are
cast to `uint32_t`. -/
def initAt (m : Memory) (p : ℕ) (key value : Bytes) : Memory :=
  let m := m.write p (leBytes 4 (key.length % 2 ^ 32))
  let m := m.write (p + 4) (leBytes 4 (value.length % 2 ^ 32))
  let m := m.write (p + 8) [0]
  let m := m.write (p + 9) (List.replicate 7 0)
  let m := m.write (p + headerSize) key
  m.write (p + headerSize + key.length) value

/-- The size an entry is freed with, recomputed from its stored header. -/
def storedSize (m : Memory) (p : ℕ) : ℕ := requiredSize (keySize m p) (valueSize m p)

/-- The bytes at `p` are an entry for key `k` and value `v`. -/
structure Holds (m : Memory) (p : ℕ) (k v : Bytes) : Prop where
  keySize_eq : keySize m p = k.length
  valueSize_eq : valueSize m p = v.length
  key_eq : key m p = k
  value_eq : value m p = v

variable {m m' : Memory} {p : ℕ} {k v : Bytes}

theorem Holds.storedSize_eq (h : Holds m p k v) :
    storedSize m p = requiredSize k.length v.length := by
  rw [storedSize, h.keySize_eq, h.valueSize_eq]

/-- An entry survives any change of memory that leaves its bytes alone, the
access bit excepted. -/
theorem Holds.congr (h : Holds m p k v)
    (hm : ∀ x, p ≤ x → x < p + requiredSize k.length v.length → x ≠ p + 8 → m' x = m x) :
    Holds m' p k v := by
  have hreq : requiredSize k.length v.length = 16 + k.length + v.length := rfl
  have hk : keySize m' p = keySize m p :=
    congrArg leNat (Memory.read_congr fun x _ _ ↦ hm x (by omega) (by omega) (by omega))
  have hv : valueSize m' p = valueSize m p :=
    congrArg leNat (Memory.read_congr fun x _ _ ↦ hm x (by omega) (by omega) (by omega))
  refine ⟨hk.trans h.keySize_eq, hv.trans h.valueSize_eq, ?_, ?_⟩
  · rw [← h.key_eq, key, key, hk, h.keySize_eq, headerSize]
    exact Memory.read_congr fun x _ _ ↦ hm x (by omega) (by omega) (by omega)
  · rw [← h.value_eq, value, value, hk, hv, h.keySize_eq, h.valueSize_eq, headerSize]
    exact Memory.read_congr fun x _ _ ↦ hm x (by omega) (by omega) (by omega)

/-! ## The access bit -/

@[simp] theorem accessBit_setAccessBit (m : Memory) (p : ℕ) (b : UInt8) :
    accessBit (setAccessBit m p b) p = b := by
  simp [accessBit, setAccessBit, Memory.write]

/-- Setting an access bit changes one byte. -/
theorem setAccessBit_apply_of_ne {b : UInt8} {x : ℕ} (h : x ≠ p + 8) :
    setAccessBit m p b x = m x :=
  Memory.write_apply_of_notMem (by simp only [List.length_singleton]; omega)

/-! ## Initialisation -/

/-- `init_at` writes only the bytes the entry occupies. -/
theorem initAt_apply_of_notMem {x : ℕ}
    (h : x < p ∨ p + requiredSize k.length v.length ≤ x) : initAt m p k v x = m x := by
  have hreq : requiredSize k.length v.length = 16 + k.length + v.length := rfl
  unfold initAt
  simp only [headerSize]
  rw [Memory.write_apply_of_notMem (by omega), Memory.write_apply_of_notMem (by omega),
    Memory.write_apply_of_notMem (by simp; omega), Memory.write_apply_of_notMem (by simp; omega),
    Memory.write_apply_of_notMem (by simp; omega), Memory.write_apply_of_notMem (by simp; omega)]

/-- The header fields `init_at` leaves behind are the casts of the two sizes. -/
theorem keySize_initAt : keySize (initAt m p k v) p = k.length % 2 ^ 32 := by
  unfold keySize initAt
  simp only [headerSize]
  rw [Memory.read_write_of_disjoint (by omega), Memory.read_write_of_disjoint (by omega),
    Memory.read_write_of_disjoint (by simp), Memory.read_write_of_disjoint (by simp),
    Memory.read_write_of_disjoint (by simp)]
  rw [Memory.read_write (length_leBytes _ _), leNat_leBytes]
  omega

theorem valueSize_initAt : valueSize (initAt m p k v) p = v.length % 2 ^ 32 := by
  unfold valueSize initAt
  simp only [headerSize]
  rw [Memory.read_write_of_disjoint (by omega), Memory.read_write_of_disjoint (by omega),
    Memory.read_write_of_disjoint (by simp), Memory.read_write_of_disjoint (by simp)]
  rw [Memory.read_write (length_leBytes _ _), leNat_leBytes]
  omega

/-- A freshly initialised entry has its access bit clear. -/
theorem accessBit_initAt : accessBit (initAt m p k v) p = 0 := by
  unfold accessBit initAt
  simp only [headerSize]
  rw [Memory.write_apply_of_notMem (by omega), Memory.write_apply_of_notMem (by omega),
    Memory.write_apply_of_notMem (by omega)]
  simp [Memory.write]

/-- `init_at` stores its key and its value, provided the `uint32_t` casts are
exact. -/
theorem holds_initAt (hk : k.length < 2 ^ 32) (hv : v.length < 2 ^ 32) :
    Holds (initAt m p k v) p k v := by
  have hks : keySize (initAt m p k v) p = k.length := by
    rw [keySize_initAt, Nat.mod_eq_of_lt hk]
  have hvs : valueSize (initAt m p k v) p = v.length := by
    rw [valueSize_initAt, Nat.mod_eq_of_lt hv]
  refine ⟨hks, hvs, ?_, ?_⟩
  · rw [key, hks]
    unfold initAt
    rw [Memory.read_write_of_disjoint (by omega), Memory.read_write rfl]
  · rw [value, hks, hvs]
    unfold initAt
    rw [Memory.read_write rfl]

end SlabEntry

end Pensieve
