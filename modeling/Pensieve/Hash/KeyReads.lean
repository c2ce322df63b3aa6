import Pensieve.Foundation.Logged
import Pensieve.Hash.Hasher

/-!
# The bytes a hash reads

Each variant of MurmurHash3 reads its key in a block loop and in code for the tail.  The offsets
of both are intervals, so a variant consumes the key when the two intervals make up `[0, len)`.
`murmurhash3_x86_32` and `murmurhash3_x64_128` do.  `murmurhash3_x86_128` takes its blocks from
the end of the last block on, so that it reads behind the key instead of the key as soon as there
is one whole block.
-/

namespace Pensieve

open Foundation

namespace MurmurHash3

/-! ## Words -/

theorem logs_readByte (key : Memory) (off : ℕ) : Logs (readByte key off) [off] := fun _ ↦ rfl

theorem logs_getblock32 (key : Memory) (base i : ℕ) :
    Logs (getblock32 key base i) (List.range' (base + 4 * i) 4) :=
  (logs_readByte key _).bind fun _ ↦ (logs_readByte key _).bind fun _ ↦
    (logs_readByte key _).bind fun _ ↦ (logs_readByte key _).bind_pure _

theorem logs_getblock64 (key : Memory) (base i : ℕ) :
    Logs (getblock64 key base i) (List.range' (base + 8 * i) 8) := by
  have hlo := logs_getblock32 key base (2 * i)
  have hhi := logs_getblock32 key base (2 * i + 1)
  rw [show base + 4 * (2 * i) = base + 8 * i by omega] at hlo
  rw [show base + 4 * (2 * i + 1) = base + 8 * i + 4 by omega] at hhi
  exact hlo.bind fun _ ↦ hhi.bind_pure _

theorem logs_tailLoop {W : Type} (absorb : W → ℕ → UInt8 → W) (key : Memory)
    (tail start n i : ℕ) (k : W) :
    Logs (tailLoop absorb key tail start n i k) (List.range' (tail + (start + i)) n) := by
  induction n generalizing i k with
  | zero => exact Logs.pure k
  | succ n ih => exact (logs_readByte key _).bind fun _ ↦ ih (i + 1) _

theorem logs_tailWord32 (key : Memory) (tail start count : ℕ) :
    Logs (tailWord32 key tail start count) (List.range' (tail + start) count) :=
  logs_tailLoop _ key tail start count 0 0

theorem logs_tailWord64 (key : Memory) (tail start count : ℕ) :
    Logs (tailWord64 key tail start count) (List.range' (tail + start) count) :=
  logs_tailLoop _ key tail start count 0 0

/-! ## Intervals -/

/-- An interval is cut at `k`. -/
theorem range'_cut (s r k : ℕ) :
    List.range' s (min r k) ++ List.range' (s + k) (r - k) = List.range' s r := by
  by_cases hrk : r ≤ k
  · rw [Nat.min_eq_left hrk, Nat.sub_eq_zero_of_le hrk, List.range'_zero, List.append_nil]
  · rw [Nat.min_eq_right (by omega), List.range'_append_1, Nat.add_sub_cancel' (by omega)]

/-- As the tails read them: the part behind the cut first. -/
theorem range'_cut_perm (s r k : ℕ) :
    (List.range' (s + k) (r - k) ++ List.range' s (min r k)).Perm (List.range' s r) :=
  List.perm_append_comm.trans (List.Perm.of_eq (range'_cut s r k))

/-- The blocks and the tail of a key of length `len`. -/
theorem range'_blocks (len w : ℕ) :
    List.range' 0 (w * (len / w)) ++ List.range' (len / w * w) (len % w) = List.range len := by
  have happend := List.range'_append_1 (s := 0) (m := w * (len / w)) (n := len % w)
  rw [Nat.zero_add, Nat.div_add_mod] at happend
  rw [Nat.mul_comm (len / w), happend, List.range_eq_range']

/-! ## The block loops -/

theorem X86.logs_blockLoop (key : Memory) (n i : ℕ) (h1 : UInt32) :
    Logs (X86.blockLoop key n i h1) (List.range' (4 * i) (4 * n)) := by
  induction n generalizing i h1 with
  | zero => exact Logs.pure h1
  | succ n ih =>
    have hblock := logs_getblock32 key 0 i
    rw [Nat.zero_add] at hblock
    rw [show 4 * (n + 1) = 4 + 4 * n by omega, ← List.range'_append_1]
    exact hblock.bind fun _ ↦ ih (i + 1) _

theorem X86x128.logs_blockLoop (key : Memory) (blocks n i : ℕ) (h : X86x128.Lanes) :
    Logs (X86x128.blockLoop key blocks n i h) (List.range' (blocks + 16 * i) (16 * n)) := by
  induction n generalizing i h with
  | zero => exact Logs.pure h
  | succ n ih =>
    have hword : ∀ j, Logs (getblock32 key blocks (i * 4 + j))
        (List.range' (blocks + 16 * i + 4 * j) 4) := by
      intro j
      rw [show blocks + 16 * i + 4 * j = blocks + 4 * (i * 4 + j) by omega]
      exact logs_getblock32 key blocks (i * 4 + j)
    rw [show 16 * (n + 1) = 4 + (4 + (4 + (4 + 16 * n))) by omega, ← List.range'_append_1,
      ← List.range'_append_1, ← List.range'_append_1, ← List.range'_append_1]
    exact (hword 0).bind fun _ ↦ (hword 1).bind fun _ ↦ (hword 2).bind fun _ ↦
      (hword 3).bind fun _ ↦ ih (i + 1) _

theorem X64x128.logs_blockLoop (key : Memory) (n i : ℕ) (h : X64x128.Lanes) :
    Logs (X64x128.blockLoop key n i h) (List.range' (16 * i) (16 * n)) := by
  induction n generalizing i h with
  | zero => exact Logs.pure h
  | succ n ih =>
    have hword : ∀ j, Logs (getblock64 key 0 (i * 2 + j)) (List.range' (16 * i + 8 * j) 8) := by
      intro j
      rw [show 16 * i + 8 * j = 0 + 8 * (i * 2 + j) by omega]
      exact logs_getblock64 key 0 (i * 2 + j)
    rw [show 16 * (n + 1) = 8 + (8 + 16 * n) by omega, ← List.range'_append_1,
      ← List.range'_append_1]
    exact (hword 0).bind fun _ ↦ (hword 1).bind fun _ ↦ ih (i + 1) _

/-! ## The tails

The last bytes are read first. -/

theorem X86.logs_tail (key : Memory) (len : ℕ) (h1 : UInt32) :
    Logs (X86.tail key len h1) (List.range' (len / 4 * 4) (len % 4)).reverse := by
  have hrem : len % 4 < 4 := Nat.mod_lt _ (by decide)
  unfold X86.tail
  generalize len % 4 = rem at hrem ⊢
  intro log
  match rem, hrem with
  | 0, _ => exact (List.append_nil log).symm
  | 1, _ => rfl
  | 2, _ => exact List.append_assoc log [_] [_]
  | 3, _ => exact (List.append_assoc (log ++ [_]) [_] [_]).trans (List.append_assoc log [_] [_, _])

theorem X86x128.logs_tail (key : Memory) (len : ℕ) :
    ∃ reads, (∀ h, Logs (X86x128.tail key len h) reads) ∧
      reads.Perm (List.range' (len / 16 * 16) (len % 16)) := by
  have hword := logs_tailWord32 key (len / 16 * 16)
  refine ⟨_, fun h ↦ ((hword 12 _).guarded ?_ _ _).bind fun _ ↦
    ((hword 8 _).guarded ?_ _ _).bind fun _ ↦ ((hword 4 _).guarded ?_ _ _).bind fun _ ↦
    (hword 0 _).guarded ?_ _ _, ?_⟩
  -- a word is skipped when none of its bytes are left
  iterate 4 exact fun hskip ↦ List.range'_eq_nil_iff.mpr (by omega)
  have h4 := range'_cut_perm (len / 16 * 16) (min (len % 16) 8) 4
  have h8 := range'_cut_perm (len / 16 * 16) (min (len % 16) 12) 8
  rw [Nat.min_assoc, Nat.min_eq_right (by decide : 4 ≤ 8)] at h4
  rw [Nat.min_assoc, Nat.min_eq_right (by decide : 8 ≤ 12)] at h8
  exact (((h4.append_left _).trans h8).append_left _).trans
    (range'_cut_perm (len / 16 * 16) (len % 16) 12)

theorem X64x128.logs_tail (key : Memory) (len : ℕ) :
    ∃ reads, (∀ h, Logs (X64x128.tail key len h) reads) ∧
      reads.Perm (List.range' (len / 16 * 16) (len % 16)) := by
  have hword := logs_tailWord64 key (len / 16 * 16)
  refine ⟨_, fun h ↦ ((hword 8 _).guarded ?_ _ _).bind fun _ ↦ (hword 0 _).guarded ?_ _ _,
    range'_cut_perm (len / 16 * 16) (len % 16) 8⟩
  iterate 2 exact fun hskip ↦ List.range'_eq_nil_iff.mpr (by omega)

/-! ## The three functions -/

inductive Variant where
  | x86_32
  | x86_128
  | x64_128
deriving DecidableEq

/-- The offsets a variant reads, in the order it reads them. -/
def Variant.reads : Variant → Memory → ℕ → UInt32 → List ℕ
  | .x86_32, key, len, seed => (murmurhash3_x86_32 key len seed []).2
  | .x86_128, key, len, seed => (murmurhash3_x86_128 key len seed []).2
  | .x64_128, key, len, seed => (murmurhash3_x64_128 key len seed []).2

/-- A variant consumes a key when it reads every byte of it once, and nothing else. -/
def Variant.Consumes (v : Variant) (key : Memory) (len : ℕ) (seed : UInt32) : Prop :=
  (v.reads key len seed).Perm (List.range len)

instance (v : Variant) (key : Memory) (len : ℕ) (seed : UInt32) :
    Decidable (v.Consumes key len seed) := by
  unfold Variant.Consumes
  infer_instance

theorem x86_32_consumes (key : Memory) (len : ℕ) (seed : UInt32) :
    Variant.x86_32.Consumes key len seed := by
  have hreads : Logs (murmurhash3_x86_32 key len seed)
      (List.range' 0 (4 * (len / 4)) ++ (List.range' (len / 4 * 4) (len % 4)).reverse) :=
    (X86.logs_blockLoop key (len / 4) 0 seed).bind fun h1 ↦ (X86.logs_tail key len h1).bind_pure _
  rw [Variant.Consumes, ← range'_blocks len 4]
  exact (List.Perm.of_eq hreads.log_eq).trans ((List.reverse_perm _).append_left _)

theorem x64_128_consumes (key : Memory) (len : ℕ) (seed : UInt32) :
    Variant.x64_128.Consumes key len seed := by
  obtain ⟨tail, htail, hperm⟩ := X64x128.logs_tail key len
  have hreads : Logs (murmurhash3_x64_128 key len seed)
      (List.range' 0 (16 * (len / 16)) ++ tail) :=
    (X64x128.logs_blockLoop key (len / 16) 0 _).bind fun h ↦ (htail h).bind_pure _
  rw [Variant.Consumes, ← range'_blocks len 16]
  exact (List.Perm.of_eq hreads.log_eq).trans (hperm.append_left _)

/-- The blocks are read from the end of the last one on. -/
theorem reads_x86_128 (key : Memory) (len : ℕ) (seed : UInt32) :
    (Variant.x86_128.reads key len seed).Perm
      (List.range' (len / 16 * 16) (16 * (len / 16)) ++
        List.range' (len / 16 * 16) (len % 16)) := by
  obtain ⟨tail, htail, hperm⟩ := X86x128.logs_tail key len
  have hreads : Logs (murmurhash3_x86_128 key len seed)
      (List.range' (len / 16 * 16) (16 * (len / 16)) ++ tail) :=
    (X86x128.logs_blockLoop key (len / 16 * 16) (len / 16) 0 _).bind fun h ↦
      (htail h).bind_pure _
  exact (List.Perm.of_eq hreads.log_eq).trans (hperm.append_left _)

/-- No byte of a whole block is read. -/
theorem le_of_mem_reads_x86_128 {key : Memory} {len : ℕ} {seed : UInt32} {off : ℕ}
    (hoff : off ∈ Variant.x86_128.reads key len seed) : len / 16 * 16 ≤ off := by
  have hmem := (reads_x86_128 key len seed).mem_iff.mp hoff
  simp only [List.mem_append, List.mem_range'_1] at hmem
  rcases hmem with hblock | htail
  · exact hblock.1
  · exact htail.1

theorem x86_128_consumes_iff (key : Memory) (len : ℕ) (seed : UInt32) :
    Variant.x86_128.Consumes key len seed ↔ len < 16 := by
  constructor
  · intro h
    by_contra hlen
    -- there is a first byte, and it belongs to a whole block
    have hzero : 0 ∈ Variant.x86_128.reads key len seed :=
      h.mem_iff.mpr (List.mem_range.mpr (by omega))
    have := le_of_mem_reads_x86_128 hzero
    omega
  · intro hlen
    have hreads := reads_x86_128 key len seed
    rw [Nat.div_eq_of_lt hlen, Nat.mod_eq_of_lt hlen] at hreads
    rw [Variant.Consumes, List.range_eq_range']
    exact hreads

/-- The block loop and the tail read every offset of the key once and none outside of it, but for
`murmurhash3_x86_128` on a key of a whole block or more. -/
theorem consumes_iff (v : Variant) (key : Memory) (len : ℕ) (seed : UInt32) :
    v.Consumes key len seed ↔ v ≠ .x86_128 ∨ len < 16 := by
  cases v with
  | x86_32 => simp [x86_32_consumes]
  | x86_128 => simp [x86_128_consumes_iff]
  | x64_128 => simp [x64_128_consumes]

/-- On 16 bytes, `murmurhash3_x86_128` reads the 16 bytes behind them. -/
theorem x86_128_reads_behind_the_key :
    Variant.x86_128.reads (dataOf (List.replicate 16 0)) 16 0 = List.range' 16 16 ∧
      ¬Variant.x86_128.Consumes (dataOf (List.replicate 16 0)) 16 0 := by
  decide

end MurmurHash3

end Pensieve
