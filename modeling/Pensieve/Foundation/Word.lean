import Pensieve.Foundation.SortedMap

/-!
# Machine words

The orders of `UInt32` and `UInt64` as linear orders, and the distance from one
32-bit word to another going upwards and round.  The successor of a point among
others is the one at the smallest distance.
-/

namespace Foundation

instance linearOrderUInt32 : LinearOrder UInt32 where
  le_refl a := UInt32.le_refl a
  le_trans a b c := UInt32.le_trans
  le_antisymm a b := UInt32.le_antisymm
  lt_iff_le_not_ge a b := by
    rw [UInt32.lt_iff_toNat_lt, UInt32.le_iff_toNat_le, UInt32.le_iff_toNat_le]
    omega
  le_total a b := UInt32.le_total a b
  toDecidableLE := inferInstance
  toDecidableEq := inferInstance
  toDecidableLT := inferInstance

instance linearOrderUInt64 : LinearOrder UInt64 where
  le_refl a := UInt64.le_refl a
  le_trans a b c := UInt64.le_trans
  le_antisymm a b := UInt64.le_antisymm
  lt_iff_le_not_ge a b := by
    rw [UInt64.lt_iff_toNat_lt, UInt64.le_iff_toNat_le, UInt64.le_iff_toNat_le]
    omega
  le_total a b := UInt64.le_total a b
  toDecidableLE := inferInstance
  toDecidableEq := inferInstance
  toDecidableLT := inferInstance

/-- The distance from `h` to `t`, going upwards and round. -/
def clockwise (h t : UInt32) : ℕ := (t - h).toNat

theorem clockwise_of_le {h t : UInt32} (hle : h ≤ t) : clockwise h t = t.toNat - h.toNat :=
  UInt32.toNat_sub_of_le t h hle

theorem clockwise_of_lt {h t : UInt32} (hlt : t < h) :
    clockwise h t = 4294967296 + t.toNat - h.toNat := by
  have := UInt32.lt_iff_toNat_lt.mp hlt
  have := h.toNat_lt
  rw [clockwise, UInt32.toNat_sub]
  omega

/-- The distance determines the point. -/
theorem clockwise_inj {h t t' : UInt32} (heq : clockwise h t = clockwise h t') : t = t' := by
  have hsub : t - h = t' - h := UInt32.toNat_inj.mp heq
  rw [← UInt32.sub_add_cancel t h, hsub, UInt32.sub_add_cancel]

/-- The successor is at the smallest distance. -/
theorem IsNext.clockwise_le {l : List UInt32} {h b c : UInt32} (hb : IsNext l h b) (hc : c ∈ l) :
    clockwise h b ≤ clockwise h c := by
  have hlt := h.toNat_lt
  have hltb := b.toNat_lt
  rcases hb with ⟨-, ⟨hhb, hmin⟩ | ⟨hall, hmin⟩⟩
  · rw [clockwise_of_le hhb]
    rcases le_or_gt h c with hhc | hch
    · rw [clockwise_of_le hhc]
      have := UInt32.le_iff_toNat_le.mp (hmin c hc hhc)
      omega
    · rw [clockwise_of_lt hch]
      omega
  · have hb := UInt32.le_iff_toNat_le.mp (hmin c hc)
    have hch := hall c hc
    have hbh : b < h := (hmin c hc).trans_lt hch
    rw [clockwise_of_lt hch, clockwise_of_lt hbh]
    omega

/-- Going round from a point, the entries are met in the order of their distances. -/
theorem SortedMap.around_pairwise {α : Type*} (m : SortedMap UInt32 α) (h : UInt32) :
    (m.around h).Pairwise fun x y ↦ clockwise h x.1 < clockwise h y.1 := by
  have hafter : ∀ x ∈ m.entries.dropWhile (fun y ↦ y.1 < h), h ≤ x.1 := fun x hx ↦
    le_of_mem_dropWhile hx
  have hbefore : ∀ x ∈ m.entries.takeWhile (fun y ↦ y.1 < h), x.1 < h := fun x hx ↦ by
    simpa using List.mem_takeWhile_imp hx
  rw [around, List.pairwise_append]
  refine ⟨?_, ?_, ?_⟩
  · refine (m.sorted.sublist (List.dropWhile_sublist _)).imp_of_mem fun {x y} hx hy hxy ↦ ?_
    rw [clockwise_of_le (hafter x hx), clockwise_of_le (hafter y hy)]
    have hhx := UInt32.le_iff_toNat_le.mp (hafter x hx)
    have hlt := UInt32.lt_iff_toNat_lt.mp hxy
    omega
  · refine (m.sorted.sublist (List.takeWhile_sublist _)).imp_of_mem fun {x y} hx hy hxy ↦ ?_
    rw [clockwise_of_lt (hbefore x hx), clockwise_of_lt (hbefore y hy)]
    have hxh := UInt32.lt_iff_toNat_lt.mp (hbefore x hx)
    have hlt := UInt32.lt_iff_toNat_lt.mp hxy
    have := h.toNat_lt
    omega
  · intro x hx y hy
    rw [clockwise_of_le (hafter x hx), clockwise_of_lt (hbefore y hy)]
    have hhx := UInt32.le_iff_toNat_le.mp (hafter x hx)
    have := x.1.toNat_lt
    omega

end Foundation
