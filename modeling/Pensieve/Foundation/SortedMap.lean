import Mathlib.Data.Finset.Insert
import Mathlib.Data.List.Induction
import Mathlib.Data.List.Pairwise
import Mathlib.Data.List.Sort
import Mathlib.Data.List.TakeWhile
import Mathlib.Order.Lattice

/-!
# Sorted maps and successors on a circle

`SortedMap κ α` is a finite map whose entries are kept in the order of their keys,
as `std::map` keeps them.  Reading the keys as points of a circle, the successor
of a point `k` is the entry at the first key that is not below `k`, or else the
entry at the first key of all: `ceilWrap`.

`IsNext l k b` says that `b` is the successor of `k` among the points `l`.  The
points cut the circle into arcs, and `inArc_iff_isNext` identifies the arc that
ends in a point with the set of points that have it as their successor.  This is
what makes it enough to look at the end points: `ceilWrap_eq_of_isNext`.
-/

namespace Foundation

variable {κ α : Type*}

/-! ## Points on a circle -/

section Circle

variable [LinearOrder κ]

/-- The points after `a` up to and including `b`, going round when `b ≤ a`. -/
def InArc (a b k : κ) : Prop := if a < b then a < k ∧ k ≤ b else a < k ∨ k ≤ b

instance (a b k : κ) : Decidable (InArc a b k) := inferInstanceAs (Decidable (ite _ _ _))

/-- `b` is the first of the points `l` at or after `k`, going round. -/
def IsNext (l : List κ) (k b : κ) : Prop :=
  b ∈ l ∧ (k ≤ b ∧ (∀ c ∈ l, k ≤ c → b ≤ c) ∨ (∀ c ∈ l, c < k) ∧ ∀ c ∈ l, b ≤ c)

variable {l : List κ} {k b c : κ}

theorem IsNext.unique (hb : IsNext l k b) (hc : IsNext l k c) : b = c := by
  obtain ⟨hbm, hb⟩ := hb
  obtain ⟨hcm, hc⟩ := hc
  rcases hb with ⟨hkb, hb⟩ | ⟨hlt, hb⟩ <;> rcases hc with ⟨hkc, hc⟩ | ⟨hlt', hc⟩
  · exact le_antisymm (hb c hcm hkc) (hc b hbm hkb)
  · exact absurd hkb (not_le.mpr (hlt' b hbm))
  · exact absurd hkc (not_le.mpr (hlt c hcm))
  · exact le_antisymm (hb c hcm) (hc b hbm)

/-- A successor remains one when other points are taken away. -/
theorem IsNext.mono {l' : List κ} (hb : IsNext l k b) (hmem : b ∈ l') (hsub : l' ⊆ l) :
    IsNext l' k b := by
  rcases hb with ⟨-, ⟨hkb, hmin⟩ | ⟨hlt, hmin⟩⟩
  · exact ⟨hmem, Or.inl ⟨hkb, fun c hc ↦ hmin c (hsub hc)⟩⟩
  · exact ⟨hmem, Or.inr ⟨fun c hc ↦ hlt c (hsub hc), fun c hc ↦ hmin c (hsub hc)⟩⟩

/-- The point before the `i`-th, going round. -/
def before (l : List κ) (i : Fin l.length) : κ :=
  if i.val = 0 then l.getLast (List.ne_nil_of_length_pos (Fin.pos i))
  else l.get ⟨i.val - 1, by omega⟩

/-- Of two points of an arc, one is reached from the other within the arc. -/
theorem InArc.segment {a c x y : κ} (hx : InArc a c x) (hy : InArc a c y) (hne : x ≠ y) :
    (∀ z, InArc x y z → InArc a c z) ∨ ∀ z, InArc y x z → InArc a c z := by
  unfold InArc at *
  by_cases hac : a < c
  · simp only [if_pos hac] at hx hy ⊢
    rcases lt_or_gt_of_ne hne with hlt | hlt
    · exact Or.inl fun z hz ↦ by rw [if_pos hlt] at hz; exact ⟨hx.1.trans hz.1, hz.2.trans hy.2⟩
    · exact Or.inr fun z hz ↦ by rw [if_pos hlt] at hz; exact ⟨hy.1.trans hz.1, hz.2.trans hx.2⟩
  · simp only [if_neg hac] at hx hy ⊢
    have hca := not_lt.mp hac
    rcases hx with hx | hx <;> rcases hy with hy | hy
    · rcases lt_or_gt_of_ne hne with hlt | hlt
      · exact Or.inl fun z hz ↦ by rw [if_pos hlt] at hz; exact Or.inl (hx.trans hz.1)
      · exact Or.inr fun z hz ↦ by rw [if_pos hlt] at hz; exact Or.inl (hy.trans hz.1)
    · -- from `x` round to `y`
      have hle : y ≤ x := (hy.trans hca).trans hx.le
      refine Or.inl fun z hz ↦ ?_
      rw [if_neg (not_lt.mpr hle)] at hz
      exact hz.imp hx.trans fun hz ↦ hz.trans hy
    · have hle : x ≤ y := (hx.trans hca).trans hy.le
      refine Or.inr fun z hz ↦ ?_
      rw [if_neg (not_lt.mpr hle)] at hz
      exact hz.imp hy.trans fun hz ↦ hz.trans hx
    · rcases lt_or_gt_of_ne hne with hlt | hlt
      · exact Or.inl fun z hz ↦ by rw [if_pos hlt] at hz; exact Or.inr (hz.2.trans hy)
      · exact Or.inr fun z hz ↦ by rw [if_pos hlt] at hz; exact Or.inr (hz.2.trans hx)

omit [LinearOrder κ] in
/-- The point before is that at the position before, or the last one. -/
theorem exists_before (l : List κ) (j : Fin l.length) :
    ∃ p : Fin l.length, before l j = l.get p ∧
      (p.val + 1 = j.val ∨ j.val = 0 ∧ p.val + 1 = l.length) := by
  have hlt := j.isLt
  rw [before]
  split
  · rename_i hj
    refine ⟨⟨l.length - 1, by omega⟩, ?_, Or.inr ⟨hj, Nat.sub_add_cancel (by omega)⟩⟩
    rw [List.getLast_eq_getElem]
    rfl
  · exact ⟨⟨j.val - 1, by omega⟩, rfl, Or.inl (Nat.sub_add_cancel (by omega))⟩

/-- Where there are two points, the point before is another one. -/
theorem before_ne (hl : l.Pairwise (· < ·)) {i j : Fin l.length} (hij : i ≠ j) :
    before l j ≠ l.get j := by
  obtain ⟨p, hp, hlast⟩ := exists_before l j
  rw [hp]
  intro heq
  have hpj : p = j := List.nodup_iff_injective_get.mp (hl.imp ne_of_lt) heq
  have hi := i.isLt
  have hne : i.val ≠ j.val := fun h ↦ hij (Fin.ext h)
  rw [hpj] at hlast
  omega

/-- Coming from another point, the point before is met on the way. -/
theorem before_mem (hl : l.Pairwise (· < ·)) {i j : Fin l.length} (hij : i ≠ j) :
    before l j = l.get i ∨ InArc (l.get i) (l.get j) (before l j) := by
  have hmono : ∀ {i j : Fin l.length}, i < j → l.get i < l.get j := fun h ↦
    List.pairwise_iff_get.mp hl _ _ h
  obtain ⟨p, hp, hlast⟩ := exists_before l j
  rw [hp]
  by_cases hpi : p = i
  · exact Or.inl (by rw [hpi])
  refine Or.inr ?_
  rw [InArc]
  have hi := i.isLt
  have hne : i.val ≠ j.val := fun h ↦ hij (Fin.ext h)
  have hpi' : p.val ≠ i.val := fun h ↦ hpi (Fin.ext h)
  rcases hlast with hprev | ⟨hzero, hend⟩
  · have hpj : l.get p < l.get j := hmono (Fin.lt_def.mpr (by omega))
    rcases Nat.lt_or_ge i.val j.val with hlt | hge
    · rw [if_pos (hmono hlt)]
      exact ⟨hmono (Fin.lt_def.mpr (by omega)), hpj.le⟩
    · rw [if_neg (not_lt.mpr (hmono (Fin.lt_def.mpr (by omega))).le)]
      exact Or.inr hpj.le
  · rw [if_neg (not_lt.mpr (hmono (Fin.lt_def.mpr (by omega))).le)]
    exact Or.inl (hmono (Fin.lt_def.mpr (by omega)))

/-- The arc that ends in a point consists of the points that have it as their
successor. -/
theorem inArc_iff_isNext (hl : l.Pairwise (· < ·)) (i : Fin l.length) :
    InArc (before l i) (l.get i) k ↔ IsNext l k (l.get i) := by
  have hmono : ∀ {i j : Fin l.length}, i < j → l.get i < l.get j := fun h ↦
    List.pairwise_iff_get.mp hl _ _ h
  have hle : ∀ {i j : Fin l.length}, i ≤ j → l.get i ≤ l.get j := by
    intro i j hij
    rcases Nat.eq_or_lt_of_le hij with heq | hlt
    · rw [Fin.ext heq]
    · exact (hmono hlt).le
  unfold before
  split
  · -- the first point: its arc begins at the last one and goes round
    rename_i hi
    have hfirst : ∀ c ∈ l, l.get i ≤ c := by
      intro c hc
      obtain ⟨j, rfl⟩ := List.mem_iff_get.mp hc
      exact hle (Fin.mk_le_of_le_val (by omega))
    have hne := List.ne_nil_of_length_pos (Fin.pos i)
    have hlast : ∀ c ∈ l, c ≤ l.getLast hne := by
      intro c hc
      obtain ⟨j, rfl⟩ := List.mem_iff_get.mp hc
      rw [List.getLast_eq_getElem]
      exact hle (Fin.mk_le_mk.mpr (by omega))
    have hwrap : ¬ l.getLast hne < l.get i :=
      not_lt.mpr (hfirst _ (List.getLast_mem hne))
    rw [InArc, if_neg hwrap]
    constructor
    · rintro (h | h)
      · exact ⟨List.get_mem l i, Or.inr ⟨fun c hc ↦ (hlast c hc).trans_lt h, hfirst⟩⟩
      · exact ⟨List.get_mem l i, Or.inl ⟨h, fun c hc _ ↦ hfirst c hc⟩⟩
    · rintro ⟨-, ⟨h, -⟩ | ⟨h, -⟩⟩
      · exact Or.inr h
      · exact Or.inl (h _ (List.getLast_mem hne))
  · rename_i hi
    have hprev : l.get ⟨i.val - 1, by omega⟩ < l.get i := hmono (Fin.mk_lt_of_lt_val (by omega))
    rw [InArc, if_pos hprev]
    constructor
    · rintro ⟨hlt, hk⟩
      refine ⟨List.get_mem l i, Or.inl ⟨hk, fun c hc hkc ↦ ?_⟩⟩
      obtain ⟨j, rfl⟩ := List.mem_iff_get.mp hc
      -- a point at or after `k` is after the previous point
      have hj : ¬ j.val ≤ i.val - 1 := fun hj ↦
        absurd (hle (Fin.mk_le_mk.mpr hj)) (not_le.mpr (hlt.trans_le hkc))
      exact hle (Fin.mk_le_of_le_val (by omega))
    · rintro ⟨-, ⟨hk, hmin⟩ | ⟨-, hmin⟩⟩
      · refine ⟨lt_of_not_ge fun hge ↦ ?_, hk⟩
        exact absurd (hmin _ (List.get_mem l _) hge) (not_le.mpr hprev)
      · exact absurd (hmin _ (List.get_mem l _)) (not_le.mpr hprev)

end Circle

/-! ## First occurrences -/

section Firsts

variable {β : Type*} [DecidableEq β] {f : α → β} {seen : Finset β} {l : List α}

/-- The elements at which a value of `f` is met for the first time, those in `seen` apart. -/
def firsts (f : α → β) (seen : Finset β) : List α → List α
  | [] => []
  | x :: l => if f x ∈ seen then firsts f seen l else x :: firsts f (insert (f x) seen) l

theorem firsts_sublist : (firsts f seen l).Sublist l := by
  induction l generalizing seen with
  | nil => exact List.Sublist.refl []
  | cons x l ih =>
      rw [firsts]
      split
      · exact ih.cons x
      · exact ih.cons_cons x

theorem mem_map_firsts {b : β} :
    b ∈ (firsts f seen l).map f ↔ b ∈ l.map f ∧ b ∉ seen := by
  induction l generalizing seen with
  | nil => simp [firsts]
  | cons x l ih =>
      rw [firsts, List.map_cons, List.mem_cons]
      split
      · rename_i hx
        rw [ih]
        refine and_congr_left fun hb ↦ ⟨Or.inr, fun h ↦ h.resolve_left ?_⟩
        rintro rfl
        exact hb hx
      · rename_i hx
        rw [List.map_cons, List.mem_cons, ih, Finset.mem_insert, not_or]
        by_cases hb : b = f x
        · simp [hb, hx]
        · simp [hb]

theorem nodup_map_firsts : ((firsts f seen l).map f).Nodup := by
  induction l generalizing seen with
  | nil => exact List.nodup_nil
  | cons x l ih =>
      rw [firsts]
      split
      · exact ih
      · rw [List.map_cons, List.nodup_cons]
        refine ⟨fun h ↦ ?_, ih⟩
        exact (mem_map_firsts.mp h).2 (Finset.mem_insert_self _ _)

/-- No element with the same value stands before a first one. -/
theorem rel_of_mem_firsts {R : α → α → Prop} (hl : l.Pairwise R) {x y : α}
    (hx : x ∈ firsts f seen l) (hy : y ∈ l) (h : f y = f x) : y = x ∨ R x y := by
  induction l generalizing seen with
  | nil => exact absurd hy List.not_mem_nil
  | cons a l ih =>
      obtain ⟨ha, hl⟩ := List.pairwise_cons.mp hl
      have hnew := (mem_map_firsts.mp (List.mem_map_of_mem hx)).2
      rw [firsts] at hx
      split at hx
      · rename_i hseen
        rcases List.mem_cons.mp hy with rfl | hy
        · exact absurd (h ▸ hseen) hnew
        · exact ih hl hx hy
      · rcases List.mem_cons.mp hx with rfl | hx
        · exact (List.mem_cons.mp hy).imp id (ha y)
        · have hne := (mem_map_firsts.mp (List.mem_map_of_mem hx)).2
          rcases List.mem_cons.mp hy with rfl | hy
          · exact absurd (h ▸ Finset.mem_insert_self _ _) hne
          · exact ih hl hx hy

end Firsts

/-! ## Sorted maps -/

/-- Entries in strictly increasing order of their keys. -/
structure SortedMap (κ α : Type*) [LinearOrder κ] where
  entries : List (κ × α)
  sorted : entries.Pairwise fun a b ↦ a.1 < b.1

namespace SortedMap

variable [LinearOrder κ] {m : SortedMap κ α} {k : κ} {a : α}

def empty : SortedMap κ α := ⟨[], List.Pairwise.nil⟩

def keys (m : SortedMap κ α) : List κ := m.entries.map Prod.fst

theorem keys_sorted (m : SortedMap κ α) : m.keys.Pairwise (· < ·) :=
  List.pairwise_map.mpr m.sorted

/-- There is one entry at a key. -/
theorem eq_of_mem {x y : κ × α} (hx : x ∈ m.entries) (hy : y ∈ m.entries) (h : x.1 = y.1) :
    x = y := by
  have hne : m.entries.Pairwise fun a b ↦ a.1 ≠ b.1 := m.sorted.imp ne_of_lt
  have hsymm : Std.Symm fun a b : κ × α ↦ a.1 ≠ b.1 := ⟨fun _ _ ↦ Ne.symm⟩
  by_contra hxy
  exact hne.forall hx hy hxy h

/-- A map is determined by its entries. -/
theorem ext_of_mem {m' : SortedMap κ α} (h : ∀ x, x ∈ m.entries ↔ x ∈ m'.entries) : m = m' := by
  have hirrefl : Std.Irrefl fun a b : κ × α ↦ a.1 < b.1 := ⟨fun a ↦ lt_irrefl a.1⟩
  have hantisymm : Std.Antisymm fun a b : κ × α ↦ a.1 < b.1 :=
    ⟨fun _ _ hab hba ↦ absurd hba hab.asymm⟩
  have hentries := m.sorted.eq_of_mem_iff m'.sorted h
  obtain ⟨entries, sorted⟩ := m
  cases hentries
  rfl

/-- Put an entry in its place, replacing one at the same key. -/
def insertEntry (k : κ) (a : α) : List (κ × α) → List (κ × α)
  | [] => [(k, a)]
  | x :: l =>
    if k < x.1 then (k, a) :: x :: l
    else if k = x.1 then (k, a) :: l
    else x :: insertEntry k a l

theorem mem_insertEntry {l : List (κ × α)} {y : κ × α}
    (hl : l.Pairwise fun a b ↦ a.1 < b.1) :
    y ∈ insertEntry k a l ↔ y = (k, a) ∨ y ∈ l ∧ y.1 ≠ k := by
  induction l with
  | nil => simp [insertEntry]
  | cons x l ih =>
      obtain ⟨hx, hl⟩ := List.pairwise_cons.mp hl
      rw [insertEntry]
      split
      · rename_i hlt
        rw [List.mem_cons]
        refine or_congr_right ⟨fun hy ↦ ⟨hy, ?_⟩, fun hy ↦ hy.1⟩
        rcases List.mem_cons.mp hy with rfl | hy
        · exact hlt.ne'
        · exact (hlt.trans (hx y hy)).ne'
      · split
        · rename_i heq
          rw [List.mem_cons, List.mem_cons]
          refine or_congr_right ⟨fun hy ↦ ⟨Or.inr hy, ?_⟩, fun hy ↦ ?_⟩
          · rw [heq]
            exact (hx y hy).ne'
          · exact hy.1.resolve_left fun h ↦ hy.2 (h ▸ heq.symm)
        · rename_i hge hne
          rw [List.mem_cons, ih hl, List.mem_cons]
          constructor
          · rintro (rfl | rfl | hy)
            · exact Or.inr ⟨Or.inl rfl, Ne.symm hne⟩
            · exact Or.inl rfl
            · exact Or.inr ⟨Or.inr hy.1, hy.2⟩
          · rintro (rfl | ⟨rfl | hy, hyk⟩)
            · exact Or.inr (Or.inl rfl)
            · exact Or.inl rfl
            · exact Or.inr (Or.inr ⟨hy, hyk⟩)

theorem insertEntry_sorted {l : List (κ × α)} (hl : l.Pairwise fun a b ↦ a.1 < b.1) :
    (insertEntry k a l).Pairwise fun a b ↦ a.1 < b.1 := by
  induction l with
  | nil => simp [insertEntry]
  | cons x l ih =>
      have hxl := hl
      obtain ⟨hx, hl⟩ := List.pairwise_cons.mp hl
      rw [insertEntry]
      split
      · rename_i hlt
        refine List.pairwise_cons.mpr ⟨fun y hy ↦ ?_, hxl⟩
        rcases List.mem_cons.mp hy with rfl | hy
        · exact hlt
        · exact hlt.trans (hx y hy)
      · split
        · rename_i heq
          exact List.pairwise_cons.mpr ⟨fun y hy ↦ heq ▸ hx y hy, hl⟩
        · rename_i hge hne
          refine List.pairwise_cons.mpr ⟨fun y hy ↦ ?_, ih hl⟩
          rcases (mem_insertEntry hl).mp hy with rfl | hy
          · exact lt_of_le_of_ne (not_lt.mp hge) (Ne.symm hne)
          · exact hx y hy.1

/-- `m[k] = a`. -/
def insert (m : SortedMap κ α) (k : κ) (a : α) : SortedMap κ α :=
  ⟨insertEntry k a m.entries, insertEntry_sorted m.sorted⟩

theorem mem_insert {y : κ × α} :
    y ∈ (m.insert k a).entries ↔ y = (k, a) ∨ y ∈ m.entries ∧ y.1 ≠ k :=
  mem_insertEntry m.sorted

/-- An entry put at each of the keys. -/
theorem mem_foldl_insert {keys : List κ} {x : κ × α} :
    x ∈ (keys.foldl (fun m k ↦ m.insert k a) m).entries ↔
      (x.1 ∈ keys ∧ x.2 = a) ∨ (x.1 ∉ keys ∧ x ∈ m.entries) := by
  induction keys generalizing m with
  | nil => simp
  | cons k keys ih =>
      rw [List.foldl_cons, ih, mem_insert, Prod.ext_iff]
      simp only [List.mem_cons, not_or]
      tauto

/-- Every owner put at each of its keys, one owner after the other. -/
def assign (keys : α → List κ) (owners : List α) : SortedMap κ α :=
  owners.foldl (fun m a ↦ (keys a).foldl (fun m k ↦ m.insert k a) m) empty

/-- Owners that have no key in common do not replace each other. -/
theorem mem_assign {keys : α → List κ} {owners : List α} {x : κ × α}
    (h : ∀ a ∈ owners, ∀ b ∈ owners, a ≠ b → (keys a).Disjoint (keys b)) :
    x ∈ (assign keys owners).entries ↔ x.2 ∈ owners ∧ x.1 ∈ keys x.2 := by
  induction owners using List.reverseRecOn with
  | nil => simp [assign, empty]
  | append_singleton owners a ih =>
      have hprev : ∀ b ∈ owners, ∀ c ∈ owners, b ≠ c → (keys b).Disjoint (keys c) :=
        fun b hb c hc ↦ h b (List.mem_append_left _ hb) c (List.mem_append_left _ hc)
      rw [assign, List.foldl_append, ← assign, List.foldl_cons, List.foldl_nil, mem_foldl_insert,
        ih hprev, List.mem_append, List.mem_singleton]
      constructor
      · rintro (⟨hkey, heq⟩ | ⟨-, hmem, hkey⟩)
        · exact ⟨Or.inr heq, heq ▸ hkey⟩
        · exact ⟨Or.inl hmem, hkey⟩
      · rintro ⟨hmem, hkey⟩
        by_cases heq : x.2 = a
        · exact Or.inl ⟨heq ▸ hkey, heq⟩
        · have hmem := hmem.resolve_right heq
          refine Or.inr ⟨fun hother ↦ ?_, hmem, hkey⟩
          exact h x.2 (List.mem_append_left _ hmem) a (by simp) heq hkey hother

/-- An owner is found at its own keys. -/
theorem key_of_mem_assign {keys : α → List κ} {owners : List α} {x : κ × α}
    (h : x ∈ (assign keys owners).entries) : x.1 ∈ keys x.2 := by
  induction owners using List.reverseRecOn with
  | nil => simp [assign, empty] at h
  | append_singleton owners a ih =>
      rw [assign, List.foldl_append, ← assign, List.foldl_cons, List.foldl_nil,
        mem_foldl_insert] at h
      rcases h with ⟨hkey, heq⟩ | ⟨-, hold⟩
      · exact heq ▸ hkey
      · exact ih hold

/-- Of owners with the same keys only the last one is found. -/
theorem owner_unique_assign {keys : α → List κ} {owners : List α} {x y : κ × α}
    (hx : x ∈ (assign keys owners).entries) (hy : y ∈ (assign keys owners).entries)
    (hkeys : keys x.2 = keys y.2) : x.2 = y.2 := by
  induction owners using List.reverseRecOn with
  | nil => simp [assign, empty] at hx
  | append_singleton owners a ih =>
      have hxkey := key_of_mem_assign hx
      have hykey := key_of_mem_assign hy
      rw [assign, List.foldl_append, ← assign, List.foldl_cons, List.foldl_nil,
        mem_foldl_insert] at hx hy
      rcases hx with ⟨-, hxa⟩ | ⟨hxa, hxold⟩ <;> rcases hy with ⟨-, hya⟩ | ⟨hya, hyold⟩
      · rw [hxa, hya]
      · rw [← hkeys, hxa] at hykey
        exact absurd hykey hya
      · rw [hkeys, hya] at hxkey
        exact absurd hxkey hxa
      · exact ih hxold hyold

/-- `std::erase_if`. -/
def eraseIf (m : SortedMap κ α) (p : κ × α → Bool) : SortedMap κ α :=
  ⟨m.entries.filter fun x ↦ !p x, m.sorted.filter _⟩

/-- The entry at the first key that is not below `k`: `lower_bound`. -/
def ceil (m : SortedMap κ α) (k : κ) : Option (κ × α) := m.entries.find? fun x ↦ k ≤ x.1

/-- `lower_bound`, going round to the first entry. -/
def ceilWrap (m : SortedMap κ α) (k : κ) : Option (κ × α) :=
  (m.ceil k).or m.entries.head?

theorem ceilWrap_isSome (h : m.entries ≠ []) (k : κ) : (m.ceilWrap k).isSome := by
  obtain ⟨x, l, hl⟩ := List.exists_cons_of_ne_nil h
  simp [ceilWrap, hl]

/-- The entries in the order in which they are met from `lower_bound` on, going round. -/
def around (m : SortedMap κ α) (k : κ) : List (κ × α) :=
  m.entries.dropWhile (fun x ↦ x.1 < k) ++ m.entries.takeWhile fun x ↦ x.1 < k

/-- The entries that are met before the end are at the keys that are not below. -/
theorem le_of_mem_dropWhile {x : κ × α} (hx : x ∈ m.entries.dropWhile fun y ↦ y.1 < k) :
    k ≤ x.1 := by
  have hs : (m.entries.dropWhile fun y ↦ y.1 < k).Pairwise fun a b ↦ a.1 < b.1 :=
    m.sorted.sublist (List.dropWhile_sublist _)
  obtain ⟨y, l, hl⟩ := List.exists_cons_of_ne_nil (List.ne_nil_of_mem hx)
  have hy : k ≤ y.1 := by
    have hhead := List.head?_dropWhile_not (fun y : κ × α ↦ decide (y.1 < k)) m.entries
    rw [hl] at hhead
    simpa using hhead
  rw [hl] at hs hx
  rcases List.mem_cons.mp hx with rfl | hx
  · exact hy
  · exact hy.trans ((List.pairwise_cons.mp hs).1 x hx).le

theorem mem_around {x : κ × α} : x ∈ m.around k ↔ x ∈ m.entries := by
  rw [around, List.mem_append, Or.comm, ← List.mem_append, List.takeWhile_append_dropWhile]

/-- The first entry that is met is the one that is looked up. -/
theorem head?_around : (m.around k).head? = m.ceilWrap k := by
  have hceil : m.ceil k = (m.entries.dropWhile fun x ↦ x.1 < k).head? := by
    rw [ceil, ← List.find?_not_eq_head?_dropWhile]
    simp only [← not_lt, decide_not]
  rw [around, List.head?_append, ceilWrap, hceil]
  rcases hdrop : m.entries.dropWhile fun x ↦ x.1 < k with _ | ⟨x, l⟩
  · have happ := List.takeWhile_append_dropWhile (p := fun x : κ × α ↦ x.1 < k) (l := m.entries)
    rw [hdrop, List.append_nil] at happ
    rw [happ]
  · rw [hdrop]
    rfl

/-- Looking a point up is looking its successor up, if the keys of the map are
among the points. -/
theorem ceilWrap_eq_of_isNext {l : List κ} {b : κ} (hm : ∀ x ∈ m.entries, x.1 ∈ l)
    (hb : IsNext l k b) : m.ceilWrap k = m.ceilWrap b := by
  rcases hb with ⟨-, ⟨hkb, hmin⟩ | ⟨hlt, hmin⟩⟩
  · -- no key lies between the point and its successor
    have hceil : m.ceil k = m.ceil b := by
      rw [ceil, ceil, ← List.head?_filter, ← List.head?_filter]
      refine congrArg List.head? (List.filter_congr fun x hx ↦ ?_)
      rw [decide_eq_decide]
      exact ⟨hmin _ (hm x hx), hkb.trans⟩
    rw [ceilWrap, ceilWrap, hceil]
  · have hnone : m.ceil k = none := by
      rw [ceil, List.find?_eq_none]
      intro x hx
      simpa using hlt _ (hm x hx)
    have hhead : m.ceil b = m.entries.head? := by
      rw [ceil, ← List.head?_filter]
      refine congrArg List.head? (List.filter_eq_self.mpr fun x hx ↦ ?_)
      simpa using hmin _ (hm x hx)
    rw [ceilWrap, ceilWrap, hnone, hhead, Option.none_or, Option.or_self]

/-- The entry found is at the successor among the keys. -/
theorem isNext_of_ceilWrap {x : κ × α} (h : m.ceilWrap k = some x) :
    x ∈ m.entries ∧ IsNext m.keys k x.1 := by
  have hmin : ∀ {p : κ → Bool} {x : κ × α}, (m.entries.filter fun y ↦ p y.1).head? = some x →
      x ∈ m.entries ∧ p x.1 = true ∧ ∀ c ∈ m.keys, p c = true → x.1 ≤ c := by
    intro p x hx
    obtain ⟨l, hl⟩ := List.head?_eq_some_iff.mp hx
    have hxm : x ∈ m.entries.filter fun y ↦ p y.1 := by rw [hl]; simp
    obtain ⟨hxm, hpx⟩ := List.mem_filter.mp hxm
    refine ⟨hxm, hpx, fun c hc hpc ↦ ?_⟩
    obtain ⟨y, hy, rfl⟩ := List.mem_map.mp hc
    have hym : y ∈ m.entries.filter fun y ↦ p y.1 := List.mem_filter.mpr ⟨hy, hpc⟩
    have hs := m.sorted.filter fun y ↦ p y.1
    rw [hl] at hym hs
    rcases List.mem_cons.mp hym with rfl | hym
    · exact le_refl _
    · exact ((List.pairwise_cons.mp hs).1 y hym).le
  rw [ceilWrap] at h
  rcases hc : m.ceil k with _ | y
  · rw [hc, Option.none_or] at h
    obtain ⟨hxm, -, hle⟩ := hmin (p := fun _ ↦ true) (x := x)
      (by rw [List.filter_eq_self.mpr fun _ _ ↦ rfl]; exact h)
    rw [ceil, List.find?_eq_none] at hc
    refine ⟨hxm, List.mem_map_of_mem hxm, Or.inr ⟨fun c hcm ↦ ?_, fun c hcm ↦ hle c hcm rfl⟩⟩
    obtain ⟨y, hy, rfl⟩ := List.mem_map.mp hcm
    simpa using hc y hy
  · rw [hc, Option.some_or, Option.some.injEq] at h
    subst h
    rw [ceil, ← List.head?_filter] at hc
    obtain ⟨hxm, hk, hle⟩ := hmin (p := fun c ↦ decide (k ≤ c)) hc
    exact ⟨hxm, List.mem_map_of_mem hxm, Or.inl ⟨by simpa using hk, fun c hc hkc ↦
      hle c hc (by simpa using hkc)⟩⟩

theorem ceilWrap_eq_none_iff : m.ceilWrap k = none ↔ m.entries = [] := by
  constructor
  · intro h
    by_contra hne
    simpa [h] using ceilWrap_isSome hne k
  · intro h
    simp [ceilWrap, ceil, h]

theorem ceilWrap_eq_some_iff {x : κ × α} :
    m.ceilWrap k = some x ↔ x ∈ m.entries ∧ IsNext m.keys k x.1 := by
  refine ⟨isNext_of_ceilWrap, fun ⟨hx, hnext⟩ ↦ ?_⟩
  obtain ⟨y, hy⟩ := Option.isSome_iff_exists.mp (ceilWrap_isSome (List.ne_nil_of_mem hx) k)
  obtain ⟨hym, hynext⟩ := isNext_of_ceilWrap hy
  rw [hy, eq_of_mem hym hx (hynext.unique hnext)]

theorem ceilWrap_none_of_subset {m' : SortedMap κ α} (h : m.ceilWrap k = none)
    (hsub : m'.keys ⊆ m.keys) : m'.ceilWrap k = none := by
  have hnil : m.keys = [] := List.map_eq_nil_iff.mpr (ceilWrap_eq_none_iff.mp h)
  rw [hnil, List.subset_nil] at hsub
  exact ceilWrap_eq_none_iff.mpr (List.map_eq_nil_iff.mp hsub)

/-- What has been found is found again when other entries are taken away. -/
theorem ceilWrap_of_subset {m' : SortedMap κ α} {x : κ × α} (h : m.ceilWrap k = some x)
    (hx : x ∈ m'.entries) (hsub : m'.keys ⊆ m.keys) : m'.ceilWrap k = some x :=
  ceilWrap_eq_some_iff.mpr
    ⟨hx, (isNext_of_ceilWrap h).2.mono (List.mem_map_of_mem hx) hsub⟩

/-! ## Renaming the owners -/

section

variable {β : Type*} (f : α → β)

/-- The map with other values at its keys. -/
def map (m : SortedMap κ α) : SortedMap κ β :=
  ⟨m.entries.map fun x ↦ (x.1, f x.2), List.pairwise_map.mpr m.sorted⟩

theorem map_insert (m : SortedMap κ α) (k : κ) (a : α) :
    (m.insert k a).map f = (m.map f).insert k (f a) := by
  refine ext_of_mem fun x ↦ ?_
  rw [mem_insert, map, map, List.mem_map, List.mem_map]
  constructor
  · rintro ⟨y, hy, rfl⟩
    rcases mem_insert.mp hy with rfl | ⟨hy, hne⟩
    · exact Or.inl rfl
    · exact Or.inr ⟨⟨y, hy, rfl⟩, hne⟩
  · rintro (rfl | ⟨⟨y, hy, rfl⟩, hne⟩)
    · exact ⟨(k, a), mem_insert.mpr (Or.inl rfl), rfl⟩
    · exact ⟨y, mem_insert.mpr (Or.inr ⟨hy, hne⟩), rfl⟩

theorem ceilWrap_map (m : SortedMap κ α) (k : κ) :
    (m.map f).ceilWrap k = (m.ceilWrap k).map fun x ↦ (x.1, f x.2) := by
  rw [ceilWrap, ceilWrap, ceil, ceil, map, List.find?_map, List.head?_map, Option.map_or]
  rfl

theorem around_map (m : SortedMap κ α) (k : κ) :
    (m.map f).around k = (m.around k).map fun x ↦ (x.1, f x.2) := by
  rw [around, around, map, List.dropWhile_map, List.takeWhile_map, List.map_append]
  rfl

end

end SortedMap

end Foundation
