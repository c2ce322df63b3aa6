import Mathlib.Data.List.AList
import Mathlib.Algebra.BigOperators.Group.Finset.Piecewise
import Mathlib.Data.Multiset.AddSub
import Mathlib.Tactic.Abel

/-!
# Tables of holders

Two small facts about finite collections that are updated one place at a time.

* `sum_update` is the accounting rule for a family indexed by a finite type:
  replacing one member replaces its contribution to the sum.  At multisets this
  says that moving things between holders conserves them.
* `AList.values` is the multiset of values of an association list, with the two
  laws an owner of those values needs: inserting a fresh key adds one value, and
  erasing a key removes exactly the value it is bound to.
-/

namespace Foundation

/-- Replacing one member of a finite family replaces its summand. -/
theorem sum_update {ι α M : Type*} [Fintype ι] [DecidableEq ι] [AddCommMonoid M]
    (g : ι → α → M) (f : ι → α) (i : ι) (b : α) :
    ∑ j, g j (Function.update f i b j) + g i (f i) = ∑ j, g j (f j) + g i b := by
  have hrest : ∀ j ∈ ({i}ᶜ : Finset ι), g j (Function.update f i b j) = g j (f j) := by
    intro j hj
    rw [Function.update_of_ne (by simpa using hj)]
  rw [Fintype.sum_eq_add_sum_compl i fun j ↦ g j (f j),
    Fintype.sum_eq_add_sum_compl i fun j ↦ g j (Function.update f i b j),
    Finset.sum_congr rfl hrest, Function.update_self]
  abel

end Foundation

namespace AList

variable {K V : Type*} [DecidableEq K] {m : AList fun _ : K ↦ V} {k j : K} {v : V}

/-- The values of an association list, one for each key. -/
def values (m : AList fun _ : K ↦ V) : Multiset V := ↑(m.entries.map Sigma.snd)

theorem mem_values : v ∈ m.values ↔ ∃ k, m.lookup k = some v := by
  simp only [values, Multiset.mem_coe, List.mem_map]
  constructor
  · rintro ⟨⟨k, w⟩, hmem, rfl⟩
    exact ⟨k, AList.mem_lookup_iff.mpr hmem⟩
  · rintro ⟨k, hk⟩
    exact ⟨⟨k, v⟩, AList.mem_lookup_iff.mp hk, rfl⟩

/-- Inserting a fresh key adds its value. -/
theorem values_insert (h : k ∉ m) : (m.insert k v).values = v ::ₘ m.values := by
  rw [AList.insert_of_notMem h]; rfl

/-- Erasing a key removes exactly the value it was bound to. -/
theorem values_erase (h : m.lookup k = some v) : m.values = v ::ₘ (m.erase k).values := by
  have hk : k ∈ m.entries.keys := AList.lookup_isSome.mp (by rw [h]; rfl)
  obtain ⟨w, l₁, l₂, hl₁, hl, hke⟩ := List.exists_of_kerase hk
  have hw : w = v := by
    have hmem : w ∈ m.lookup k := AList.mem_lookup_iff.mpr (by rw [hl]; simp)
    rw [h] at hmem
    exact (Option.some.inj hmem).symm
  subst hw
  change (↑(m.entries.map Sigma.snd) : Multiset V)
    = w ::ₘ ↑((List.kerase k m.entries).map Sigma.snd)
  rw [hke, hl, Multiset.cons_coe, Multiset.coe_eq_coe]
  simp

/-- Erasing a key does not change the value of another. -/
theorem lookup_erase_of_lookup {w : V} (h : (m.erase k).lookup j = some w) :
    m.lookup j = some w ∧ j ≠ k := by
  by_cases hj : j = k
  · subst hj
    rw [AList.lookup_erase] at h
    cases h
  · exact ⟨by rwa [AList.lookup_erase_ne hj] at h, hj⟩

end AList
