import Mathlib.Data.List.Basic
import Mathlib.Tactic.Ring

/-!
# Byte-addressed memory

A flat memory is a function from addresses to bytes.  Reading and writing a run
of bytes is all that is needed to lay records out in it: a record is a list of
bytes at an address, two records do not disturb each other when their ranges are
disjoint, and integers are stored as their little-endian digits.

Everything here is parameterised by addresses and lengths alone.  The laws come
in the two usual shapes: reading what was just written (`read_write`), and
framing (`read_congr`, `write_apply_of_notMem`).
-/

namespace Foundation

/-- A flat byte-addressed memory. -/
abbrev Memory := ℕ → UInt8

namespace Memory

variable {m m' : Memory} {a b n : ℕ} {bs cs : List UInt8}

/-- The `n` bytes starting at address `a`. -/
def read (m : Memory) (a n : ℕ) : List UInt8 := (List.range n).map fun i ↦ m (a + i)

/-- Overwrite the bytes starting at address `a` with `bs`. -/
def write (m : Memory) (a : ℕ) (bs : List UInt8) : Memory := fun x ↦
  if a ≤ x ∧ x < a + bs.length then bs.getD (x - a) 0 else m x

/-! ## Reading -/

@[simp] theorem length_read : (read m a n).length = n := by simp [read]

theorem getElem?_read {i : ℕ} (h : i < n) : (read m a n)[i]? = some (m (a + i)) := by
  simp [read, h]

/-- Two memories that agree on a range read the same bytes from it. -/
theorem read_congr (h : ∀ x, a ≤ x → x < a + n → m x = m' x) :
    read m a n = read m' a n := by
  refine List.map_congr_left fun i hi ↦ h _ (Nat.le_add_right a i) ?_
  have := List.mem_range.mp hi
  omega

/-- A range is read part by part. -/
theorem read_add (m : Memory) (a n k : ℕ) : read m a (n + k) = read m a n ++ read m (a + n) k := by
  simp only [read, List.range_add, List.map_append, List.map_map, Nat.add_assoc]
  rfl

/-! ## Writing -/

/-- A write changes nothing outside its range. -/
theorem write_apply_of_notMem {x : ℕ} (h : x < a ∨ a + bs.length ≤ x) :
    write m a bs x = m x := by
  rw [write, if_neg (by omega)]

/-- A write puts its bytes at consecutive addresses. -/
theorem write_apply_add {i : ℕ} (h : i < bs.length) :
    write m a bs (a + i) = bs.getD i 0 := by
  rw [write, if_pos (by omega), Nat.add_sub_cancel_left]

/-- Reading back what was written. -/
theorem read_write (hn : bs.length = n) : read (write m a bs) a n = bs := by
  subst hn
  refine List.ext_getElem? fun i ↦ ?_
  by_cases hi : i < bs.length
  · rw [getElem?_read hi, write_apply_add hi]
    simp [hi]
  · rw [List.getElem?_eq_none (by simpa using hi), List.getElem?_eq_none (by simpa using hi)]

/-- A write outside the range of a read does not affect it. -/
theorem read_write_of_disjoint (h : a + n ≤ b ∨ b + bs.length ≤ a) :
    read (write m b bs) a n = read m a n :=
  read_congr fun _ hl hr ↦ write_apply_of_notMem (by omega)

/-- Bytes that are written behind others. -/
theorem read_write_append (m : Memory) (a n : ℕ) (bs : List UInt8) :
    read (write m (a + n) bs) a (n + bs.length) = read m a n ++ bs := by
  rw [read_add, read_write_of_disjoint (Or.inl le_rfl), read_write rfl]

end Memory

/-! ## Little-endian integers -/

/-- The `w` low-order base-256 digits of `n`, least significant first. -/
def leBytes : ℕ → ℕ → List UInt8
  | 0, _ => []
  | w + 1, n => UInt8.ofNat n :: leBytes w (n / 256)

/-- The number whose little-endian digits are `bs`. -/
def leNat : List UInt8 → ℕ
  | [] => 0
  | b :: bs => b.toNat + 256 * leNat bs

@[simp] theorem length_leBytes (w n : ℕ) : (leBytes w n).length = w := by
  induction w generalizing n with
  | zero => rfl
  | succ w ih => simp [leBytes, ih]

/-- Decoding inverts encoding, up to the width. -/
theorem leNat_leBytes (w n : ℕ) : leNat (leBytes w n) = n % 256 ^ w := by
  induction w generalizing n with
  | zero => simp [leBytes, leNat, Nat.mod_one]
  | succ w ih =>
      have hb : (UInt8.ofNat n).toNat = n % 256 := by simp
      rw [leBytes, leNat, ih, hb, pow_succ', Nat.mod_mul]

end Foundation
