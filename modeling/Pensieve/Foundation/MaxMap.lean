import Mathlib.Order.Bounds.Basic
import Mathlib.Order.MinMax

/-!
# Tables of rising registers

A table holds one register for each of some keys.  Writing to a register replaces
its value only by a larger one, and writing to a key that has none is lost.  What
a register holds after any number of writes is the greatest of its first value and
the values written to it, so that neither the order of the writes nor their
repetition can be seen.
-/

namespace Foundation

variable {ι κ ρ : Type*} [DecidableEq κ] [LinearOrder ρ]

/-- Write `r` to the register at `k`. -/
def raise (f : κ → Option ρ) (k : κ) (r : ρ) : κ → Option ρ :=
  Function.update f k ((f k).map (max · r))

/-- Make the writes `l` in turn; write `i` puts `val i` to the register at `key i`. -/
def raiseAll (key : ι → κ) (val : ι → ρ) (f : κ → Option ρ) (l : List ι) : κ → Option ρ :=
  l.foldl (fun f i ↦ raise f (key i) (val i)) f

theorem raise_self (f : κ → Option ρ) (k : κ) (r : ρ) : raise f k r k = (f k).map (max · r) :=
  Function.update_self ..

theorem raise_of_ne {f : κ → Option ρ} {k k' : κ} {r : ρ} (h : k' ≠ k) : raise f k r k' = f k' :=
  Function.update_of_ne h ..

/-- Registers neither appear nor disappear. -/
theorem raise_isSome (f : κ → Option ρ) (k k' : κ) (r : ρ) :
    (raise f k r k').isSome = (f k').isSome := by
  by_cases h : k' = k
  · rw [h, raise_self, Option.isSome_map]
  · rw [raise_of_ne h]

variable {key : ι → κ} {val : ι → ρ} {f : κ → Option ρ} {k : κ} {r : ρ}

theorem raiseAll_eq_none (l : List ι) (hk : f k = none) : raiseAll key val f l k = none := by
  induction l generalizing f with
  | nil => exact hk
  | cons i l ih =>
      apply ih
      rw [← Option.not_isSome_iff_eq_none, raise_isSome, hk]
      simp

/-- What becomes of a register depends on that register only. -/
theorem raiseAll_congr {g : κ → Option ρ} (l : List ι) (hk : f k = g k) :
    raiseAll key val f l k = raiseAll key val g l k := by
  induction l generalizing f g with
  | nil => exact hk
  | cons i l ih =>
      apply ih
      dsimp only
      by_cases hi : k = key i
      · rw [← hi, raise_self, raise_self, hk]
      · rw [raise_of_ne hi, raise_of_ne hi, hk]

/-- The set of values written to the register at `k`. -/
def written (key : ι → κ) (val : ι → ρ) (l : List ι) (k : κ) : Set ρ :=
  {x | ∃ i ∈ l, key i = k ∧ val i = x}

omit [DecidableEq κ] [LinearOrder ρ] in
theorem written_cons_self {i : ι} (l : List ι) (hi : key i = k) :
    written key val (i :: l) k = insert (val i) (written key val l k) := by
  ext x
  constructor
  · rintro ⟨j, hj, hjk, rfl⟩
    rcases List.mem_cons.mp hj with rfl | hj
    · exact Set.mem_insert _ _
    · exact Set.mem_insert_of_mem _ ⟨j, hj, hjk, rfl⟩
  · rintro (rfl | ⟨j, hj, hjk, rfl⟩)
    · exact ⟨i, List.mem_cons_self, hi, rfl⟩
    · exact ⟨j, List.mem_cons_of_mem _ hj, hjk, rfl⟩

omit [DecidableEq κ] [LinearOrder ρ] in
theorem written_cons_of_ne {i : ι} (l : List ι) (hi : key i ≠ k) :
    written key val (i :: l) k = written key val l k := by
  ext x
  constructor
  · rintro ⟨j, hj, hjk, rfl⟩
    rcases List.mem_cons.mp hj with rfl | hj
    · exact absurd hjk hi
    · exact ⟨j, hj, hjk, rfl⟩
  · rintro ⟨j, hj, hjk, rfl⟩
    exact ⟨j, List.mem_cons_of_mem _ hj, hjk, rfl⟩

/-- A register ends up holding the greatest of its first value and what was
written to it. -/
theorem raiseAll_eq_some (key : ι → κ) (val : ι → ρ) (l : List ι) (hk : f k = some r) :
    ∃ r', raiseAll key val f l k = some r' ∧
      IsGreatest (insert r (written key val l k)) r' := by
  induction l generalizing f r with
  | nil => exact ⟨r, hk, by simp [written, IsGreatest]⟩
  | cons i l ih =>
      by_cases hi : key i = k
      · have hmax : raise f (key i) (val i) k = some (max r (val i)) := by
          rw [hi, raise_self, hk]
          rfl
        obtain ⟨r', hr', hgt⟩ := ih hmax
        refine ⟨r', hr', ?_⟩
        rw [written_cons_self l hi]
        constructor
        · rcases hgt.1 with rfl | hr
          · rcases max_choice r (val i) with h | h <;> rw [h] <;> simp
          · exact Or.inr (Or.inr hr)
        · have hle : max r (val i) ≤ r' := hgt.2 (Set.mem_insert _ _)
          rintro x (rfl | rfl | hx)
          · exact (le_max_left _ _).trans hle
          · exact (le_max_right _ _).trans hle
          · exact hgt.2 (Set.mem_insert_of_mem _ hx)
      · have hsame : raise f (key i) (val i) k = some r := by
          rw [raise_of_ne (Ne.symm hi), hk]
        rw [written_cons_of_ne l hi]
        exact ih hsame

end Foundation
