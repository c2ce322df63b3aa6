import Pensieve.Protocol.Message

/-!
# Transfers of any length

`read_exact` and `write_all` of `src/io/stream_utils.h` are one loop: ask the kernel for the
remainder, advance by what it reports.  The remainder is a `size_t`, the length that
`async_read` and `async_write` pass on has 32 bits, and the count that comes back is an `int32_t`.
Here the kernel may move any number of bytes from one to what it is asked for.

The loop moves exactly the bytes asked for when their number fits 32 bits and no single count
reaches `2 ^ 31` (`transfer_exact_iff`).  Longer transfers never succeed: the low 32 bits of the
remainder run out first, the kernel is asked for nothing, and the loop takes its zero for the end.
-/

namespace Pensieve

open Foundation

namespace Transfer

/-- How many bytes an operation moves of a source that has enough of them: `m` if it can. -/
def count (m remaining : ℕ) : ℕ := min (max 1 m) (remaining % 2 ^ 32)

/-- What the loop returns, the bytes it has moved, what is left of the source, and how many
operations it took. -/
structure Outcome where
  ok : Bool
  moved : Bytes
  rest : Bytes
  operations : ℕ

/-- Success after exactly the first `len` bytes. -/
structure Outcome.Exact (src : Bytes) (len : ℕ) (out : Outcome) : Prop where
  ok : out.ok = true
  moved : out.moved = src.take len
  rest : out.rest = src.drop len

/-- The loop of `read_exact` and `write_all`.  The operations complete as `completions` says,
`none` for an error. -/
def loop (completions : ℕ → Option ℕ) (src : Bytes) (remaining : ℕ) : Outcome :=
  if remaining = 0 then ⟨true, [], src, 0⟩
  else
    match completions 0 with
    | none => ⟨false, [], src, 1⟩
    | some m =>
      let chunk := src.take (count m remaining)
      let rest := src.drop (count m remaining)
      if Int32.ofNat chunk.length ≤ 0 then ⟨false, chunk, rest, 1⟩
      else
        let out := loop (fun k ↦ completions (k + 1)) rest (remaining - chunk.length)
        { out with moved := chunk ++ out.moved, operations := out.operations + 1 }
termination_by remaining
decreasing_by
  rename_i hdone hfail
  refine Nat.sub_lt (Nat.pos_of_ne_zero hdone) (Nat.pos_of_ne_zero fun hzero ↦ hfail ?_)
  rw [hzero]
  decide

/-- `read_exact`: the source is what the peer supplies. -/
def readExact (completions : ℕ → Option ℕ) (stream : Bytes) (len : ℕ) : Outcome :=
  loop completions stream len

/-- `write_all`: the source is the buffer, and what is moved is what the peer accepts. -/
def writeAll (completions : ℕ → Option ℕ) (buf : Bytes) (len : ℕ) : Outcome :=
  loop completions buf len

/-- A count is taken for an error when its top bit is set. -/
theorem ofNat_nonpos_iff {n : ℕ} (hn : n < 2 ^ 32) :
    Int32.ofNat n ≤ 0 ↔ n = 0 ∨ 2 ^ 31 ≤ n := by
  rw [Int32.le_iff_toInt_le, Int32.toInt_ofNat', Int32.toInt_zero, Int32.size,
    Int.bmod_def]
  split_ifs <;> omega

/-! ## A single operation -/

theorem count_le (m remaining : ℕ) : count m remaining ≤ remaining % 2 ^ 32 := Nat.min_le_right _ _

theorem count_eq_zero {m remaining : ℕ} : count m remaining = 0 ↔ remaining % 2 ^ 32 = 0 := by
  unfold count
  omega

/-! ## The loop -/

/-- Nothing is lost or reordered, whatever the outcome. -/
theorem loop_append (completions : ℕ → Option ℕ) (src : Bytes) (remaining : ℕ) :
    (loop completions src remaining).moved ++ (loop completions src remaining).rest = src := by
  fun_induction loop completions src remaining with
  | case1 => rfl
  | case2 => rfl
  | case3 => exact List.take_append_drop _ _
  | case4 _ _ _ _ _ _ _ _ _ _ ih =>
    rw [List.append_assoc, ih]
    exact List.take_append_drop _ _

/-- A transfer that succeeds has moved as much as was asked for. -/
theorem length_moved (completions : ℕ → Option ℕ) (src : Bytes) (remaining : ℕ)
    (hok : (loop completions src remaining).ok = true) :
    (loop completions src remaining).moved.length = remaining := by
  fun_induction loop completions src remaining with
  | case1 => rfl
  | case2 => exact absurd hok Bool.false_ne_true
  | case3 => exact absurd hok Bool.false_ne_true
  | case4 completions src remaining _ m _ chunk rest _ out ih =>
    have hchunk : chunk.length ≤ remaining :=
      calc chunk.length
        _ ≤ count m remaining := List.length_take_le _ _
        _ ≤ remaining % 2 ^ 32 := count_le m remaining
        _ ≤ remaining := Nat.mod_le _ _
    change (chunk ++ out.moved).length = remaining
    rw [List.length_append, ih hok, Nat.add_sub_cancel' hchunk]

/-- A transfer that succeeds has moved the first bytes, in order. -/
theorem loop_of_ok {completions : ℕ → Option ℕ} {src : Bytes} {len : ℕ}
    (hok : (loop completions src len).ok = true) : (loop completions src len).Exact src len := by
  have happend := loop_append completions src len
  have hlength := length_moved completions src len hok
  generalize loop completions src len = out at *
  obtain ⟨ok, moved, rest, operations⟩ := out
  subst hok hlength happend
  exact ⟨rfl, (List.take_left ..).symm, (List.drop_left ..).symm⟩

/-- The bytes left to move before the `k`th operation. -/
def left (split : ℕ → ℕ) (len : ℕ) : ℕ → ℕ
  | 0 => len
  | k + 1 => left split len k - count (split k) (left split len k)

/-- The first operation set apart. -/
theorem left_succ (split : ℕ → ℕ) (len k : ℕ) :
    left split len (k + 1) = left (fun k ↦ split (k + 1)) (len - count (split 0) len) k := by
  induction k with
  | zero => rfl
  | succ k ih => rw [left, ih, left]

/-- No count of a transfer of `len` bytes is negative as an `int32_t`. -/
def CountsFit (split : ℕ → ℕ) (len : ℕ) : Prop :=
  ∀ k, count (split k) (left split len k) < 2 ^ 31

theorem countsFit_zero (split : ℕ → ℕ) : CountsFit split 0 := by
  intro k
  have hleft : left split 0 k = 0 := by
    induction k with
    | zero => rfl
    | succ k ih => rw [left, ih, Nat.zero_sub]
  rw [hleft, count_eq_zero.mpr (Nat.zero_mod _)]
  decide

theorem countsFit_iff (split : ℕ → ℕ) (len : ℕ) :
    CountsFit split len ↔ count (split 0) len < 2 ^ 31 ∧
      CountsFit (fun k ↦ split (k + 1)) (len - count (split 0) len) := by
  constructor
  · intro h
    refine ⟨h 0, fun k ↦ ?_⟩
    rw [← left_succ]
    exact h (k + 1)
  · rintro ⟨hzero, hsucc⟩ k
    cases k with
    | zero => exact hzero
    | succ k =>
      rw [left_succ]
      exact hsucc k

/-- An operation on a source that has enough bytes. -/
theorem loop_step (split : ℕ → ℕ) {src : Bytes} {remaining : ℕ} (hpos : remaining ≠ 0)
    (hsrc : remaining ≤ src.length) :
    loop (fun k ↦ some (split k)) src remaining =
      if count (split 0) remaining = 0 ∨ 2 ^ 31 ≤ count (split 0) remaining then
        ⟨false, src.take (count (split 0) remaining), src.drop (count (split 0) remaining), 1⟩
      else
        let out := loop (fun k ↦ some (split (k + 1))) (src.drop (count (split 0) remaining))
          (remaining - count (split 0) remaining)
        { out with
          moved := src.take (count (split 0) remaining) ++ out.moved
          operations := out.operations + 1 } := by
  have hcount := count_le (split 0) remaining
  have hmod := Nat.mod_le remaining (2 ^ 32)
  have hchunk : (src.take (count (split 0) remaining)).length = count (split 0) remaining :=
    List.length_take_of_le (by omega)
  rw [loop, if_neg hpos]
  simp only [hchunk, ofNat_nonpos_iff (show count (split 0) remaining < 2 ^ 32 by omega)]

theorem loop_ok_iff (split : ℕ → ℕ) {src : Bytes} {len : ℕ} (hsrc : len ≤ src.length) :
    (loop (fun k ↦ some (split k)) src len).ok = true ↔ len < 2 ^ 32 ∧ CountsFit split len := by
  induction len using Nat.strong_induction_on generalizing split src with
  | _ len ih =>
      by_cases hpos : len = 0
      · subst hpos
        simp [loop, countsFit_zero]
      · rw [loop_step split hpos hsrc, countsFit_iff]
        have hcount := count_le (split 0) len
        have hzero : count (split 0) len = 0 ↔ len % 2 ^ 32 = 0 := count_eq_zero
        split_ifs with hstop
        · -- the remainder is a multiple of `2 ^ 32`, or the count is negative
          simp only [false_iff, not_and]
          omega
        · have hrest : len - count (split 0) len ≤ (src.drop (count (split 0) len)).length := by
            rw [List.length_drop]
            omega
          rw [ih _ (by omega) _ hrest]
          -- the low 32 bits of the remainder do not reach below zero
          have hlow : len - count (split 0) len < 2 ^ 32 ↔ len < 2 ^ 32 := by omega
          have hfit : count (split 0) len < 2 ^ 31 := by omega
          rw [hlow, and_iff_right hfit]

theorem loop_exact_iff (split : ℕ → ℕ) {src : Bytes} {len : ℕ} (hsrc : len ≤ src.length) :
    (loop (fun k ↦ some (split k)) src len).Exact src len ↔
      len < 2 ^ 32 ∧ CountsFit split len := by
  rw [← loop_ok_iff split hsrc]
  exact ⟨Outcome.Exact.ok, loop_of_ok⟩

/-- `read_exact` and `write_all` return true after moving exactly the first `len` bytes, if and
only if `len` fits 32 bits and no count is negative. -/
theorem transfer_exact_iff (split : ℕ → ℕ) (src : Bytes) (len : ℕ) (hsrc : len ≤ src.length) :
    ((readExact (fun k ↦ some (split k)) src len).Exact src len ↔
        len < 2 ^ 32 ∧ CountsFit split len) ∧
      ((writeAll (fun k ↦ some (split k)) src len).Exact src len ↔
        len < 2 ^ 32 ∧ CountsFit split len) :=
  ⟨loop_exact_iff split hsrc, loop_exact_iff split hsrc⟩

theorem left_le (split : ℕ → ℕ) (len k : ℕ) : left split len k ≤ len := by
  induction k with
  | zero => exact le_rfl
  | succ k ih => exact (Nat.sub_le _ _).trans ih

theorem countsFit_of_lt (split : ℕ → ℕ) {len : ℕ} (hlen : len < 2 ^ 31) : CountsFit split len := by
  intro k
  calc count (split k) (left split len k)
    _ ≤ left split len k % 2 ^ 32 := count_le _ _
    _ ≤ left split len k := Nat.mod_le _ _
    _ ≤ len := left_le split len k
    _ < 2 ^ 31 := hlen

/-- A kernel that caps its transfers reports no negative count. -/
theorem countsFit_of_capped {split : ℕ → ℕ} (hcap : ∀ k, split k < 2 ^ 31) (len : ℕ) :
    CountsFit split len := by
  intro k
  have := hcap k
  unfold count
  omega

theorem loop_exact_of_capped {split : ℕ → ℕ} (hcap : ∀ k, split k < 2 ^ 31) {src : Bytes} {len : ℕ}
    (hlen : len < 2 ^ 32) (hsrc : len ≤ src.length) :
    (loop (fun k ↦ some (split k)) src len).Exact src len :=
  (loop_exact_iff split hsrc).mpr ⟨hlen, countsFit_of_capped hcap len⟩

/-- A transfer fails if its length does not fit 32 bits, or if the source runs out. -/
theorem loop_fails (split : ℕ → ℕ) {src : Bytes} {len : ℕ}
    (h : ¬ (len < 2 ^ 32 ∧ len ≤ src.length)) :
    (loop (fun k ↦ some (split k)) src len).ok = false := by
  rw [← Bool.not_eq_true]
  intro hok
  have hsrc : len ≤ src.length := by
    rw [← loop_append (fun k ↦ some (split k)) src len, List.length_append, length_moved _ _ _ hok]
    exact Nat.le_add_right _ _
  exact h ⟨((loop_ok_iff split hsrc).mp hok).1, hsrc⟩

/-- Two bytes out of three, one at a time. -/
theorem transfer_exact_two :
    (readExact (fun _ ↦ some 0) [7, 8, 9] 2).Exact [7, 8, 9] 2 ∧
      (writeAll (fun _ ↦ some 0) [7, 8, 9] 2).Exact [7, 8, 9] 2 := by
  have hfit : 2 < 2 ^ 32 ∧ CountsFit (fun _ ↦ 0) 2 := ⟨by decide, countsFit_of_lt _ (by decide)⟩
  have hexact := transfer_exact_iff (fun _ ↦ 0) [7, 8, 9] 2 (by decide)
  exact ⟨hexact.1.mpr hfit, hexact.2.mpr hfit⟩

/-- A request header can announce `2 ^ 32` bytes.  They are never read, although the peer sends
them, nor written. -/
theorem transfer_of_two_pow_32_fails :
    (⟨.put, 0, 1, 0xffffffff⟩ : RequestHeader).payloadLen = 2 ^ 32 ∧
      (readExact (fun _ ↦ some 1) (List.replicate (2 ^ 32) 0) (2 ^ 32)).ok = false ∧
      (writeAll (fun _ ↦ some 1) (List.replicate (2 ^ 32) 0) (2 ^ 32)).ok = false := by
  have hfails : (loop (fun _ ↦ some 1) (List.replicate (2 ^ 32) 0) (2 ^ 32)).ok = false := by
    rw [← Bool.not_eq_true, loop_ok_iff (fun _ ↦ 1) (List.length_replicate).ge]
    exact fun h ↦ absurd h.1 (Nat.lt_irrefl _)
  exact ⟨by decide, hfails, hfails⟩

end Transfer

end Pensieve
