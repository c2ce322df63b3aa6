import Mathlib.Data.List.Count
import Mathlib.Data.List.Nodup
import Mathlib.Data.List.Perm.Basic

/-!
# Things that are in one place at a time

Tokens are kept in places, each place a list of them.  `Custody contents owner` says that every
token with an owner is there once and nowhere else, and that a token without an owner is
nowhere.  A token is taken from a place, put into one, or moved from one to another; each of
these is given by what it does to the lists it touches, up to order.  `Kept contents alive` is
the same without a name for the owner, for tokens that come to life and end.
-/

namespace Foundation

variable {P T : Type*} [DecidableEq P] [DecidableEq T]

/-- Every token is once in the place of its owner, and in no other. -/
def Custody (contents : P → List T) (owner : T → Option P) : Prop :=
  ∀ p t, (contents p).count t = if owner t = some p then 1 else 0

namespace Custody

variable {contents contents' : P → List T} {owner : T → Option P} {p q : P} {t : T}

theorem mem_iff (h : Custody contents owner) : t ∈ contents p ↔ owner t = some p := by
  rw [← List.count_pos_iff, h p t]
  split_ifs with howner <;> simp [howner]

theorem count_of_mem (h : Custody contents owner) (ht : t ∈ contents p) :
    (contents p).count t = 1 := by
  rw [h p t, if_pos (h.mem_iff.mp ht)]

theorem place_unique (h : Custody contents owner) (hp : t ∈ contents p) (hq : t ∈ contents q) :
    p = q :=
  Option.some.inj ((h.mem_iff.mp hp).symm.trans (h.mem_iff.mp hq))

/-- A token that is moved has an owner before and after. -/
theorem isSome_update (h : Custody contents owner) (ht : t ∈ contents p) (q : P) (u : T) :
    (Function.update owner t (some q) u).isSome = (owner u).isSome := by
  by_cases hu : u = t
  · rw [hu, Function.update_self, h.mem_iff.mp ht]
    rfl
  · rw [Function.update_of_ne hu]

/-- It is enough to say where one token goes. -/
theorem change (h : Custody contents owner) (dest : Option P)
    (hothers : ∀ p u, u ≠ t → (contents' p).count u = (contents p).count u)
    (ht : ∀ p, (contents' p).count t = if dest = some p then 1 else 0) :
    Custody contents' (Function.update owner t dest) := by
  intro p u
  by_cases hu : u = t
  · rw [hu, Function.update_self, ht p]
  · rw [Function.update_of_ne hu, hothers p u hu, h p u]

/-- A token is taken out of its place. -/
theorem take (h : Custody contents owner) (hp : (contents p).Perm (t :: contents' p))
    (hothers : ∀ q, q ≠ p → contents' q = contents q) :
    Custody contents' (Function.update owner t none) := by
  have howner : owner t = some p := h.mem_iff.mp (hp.mem_iff.mpr List.mem_cons_self)
  refine h.change none (fun q u hu ↦ ?_) fun q ↦ ?_
  · by_cases hq : q = p
    · rw [hq, hp.count_eq, List.count_cons_of_ne hu.symm]
    · rw [hothers q hq]
  · rw [if_neg (Option.some_ne_none q).symm]
    by_cases hq : q = p
    · have hone := h p t
      rw [if_pos howner, hp.count_eq, List.count_cons_self] at hone
      rw [hq]
      exact Nat.succ.inj hone
    · rw [hothers q hq, h q t, if_neg]
      rw [howner]
      exact fun heq ↦ hq (Option.some.inj heq).symm

/-- A token that is nowhere is put into a place. -/
theorem put (h : Custody contents owner) (howner : owner t = none)
    (hp : (contents' p).Perm (t :: contents p)) (hothers : ∀ q, q ≠ p → contents' q = contents q) :
    Custody contents' (Function.update owner t (some p)) := by
  have hnone : ∀ q, (contents q).count t = 0 := by
    intro q
    rw [h q t, howner, if_neg (Option.some_ne_none q).symm]
  refine h.change (some p) (fun q u hu ↦ ?_) fun q ↦ ?_
  · by_cases hq : q = p
    · rw [hq, hp.count_eq, List.count_cons_of_ne hu.symm]
    · rw [hothers q hq]
  · by_cases hq : q = p
    · rw [hq, hp.count_eq, List.count_cons_self, hnone p, if_pos rfl]
    · rw [hothers q hq, hnone q, if_neg fun heq ↦ hq (Option.some.inj heq).symm]

/-- A token goes from one place to another. -/
theorem move (h : Custody contents owner) (hpq : p ≠ q)
    (hp : (contents p).Perm (t :: contents' p)) (hq : (contents' q).Perm (t :: contents q))
    (hothers : ∀ r, r ≠ p → r ≠ q → contents' r = contents r) :
    Custody contents' (Function.update owner t (some q)) := by
  let mid : P → List T := Function.update contents p (contents' p)
  have hmid : Custody mid (Function.update owner t none) := by
    refine h.take (p := p) ?_ fun r hr ↦ Function.update_of_ne hr ..
    rw [show mid p = contents' p from Function.update_self ..]
    exact hp
  have hmidq : mid q = contents q := Function.update_of_ne hpq.symm ..
  have hidem : Function.update (Function.update owner t none) t (some q) =
      Function.update owner t (some q) := Function.update_idem ..
  rw [← hidem]
  refine hmid.put (Function.update_self ..) (by rw [hmidq]; exact hq) fun r hr ↦ ?_
  by_cases hrp : r = p
  · have hmidp : mid p = contents' p := Function.update_self ..
    rw [hrp, hmidp]
  · have hmidr : mid r = contents r := Function.update_of_ne hrp ..
    rw [hothers r hrp hr, hmidr]

end Custody

/-! ## Tokens that come and go -/

/-- The tokens that are alive are each in one place, and the others nowhere. -/
def Kept (contents : P → List T) (alive : T → Bool) : Prop :=
  ∃ owner, Custody contents owner ∧ ∀ t, (owner t).isSome = alive t

namespace Kept

variable {contents contents' : P → List T} {alive alive' : T → Bool} {p q : P} {t : T}

theorem alive_of_mem (h : Kept contents alive) (ht : t ∈ contents p) : alive t = true := by
  obtain ⟨owner, hcustody, hopen⟩ := h
  rw [← hopen t, hcustody.mem_iff.mp ht]
  rfl

theorem exists_mem (h : Kept contents alive) (ht : alive t = true) : ∃ p, t ∈ contents p := by
  obtain ⟨owner, hcustody, hopen⟩ := h
  obtain ⟨p, hp⟩ := Option.isSome_iff_exists.mp ((hopen t).trans ht)
  exact ⟨p, hcustody.mem_iff.mpr hp⟩

theorem place_unique (h : Kept contents alive) (hp : t ∈ contents p) (hq : t ∈ contents q) :
    p = q := by
  obtain ⟨owner, hcustody, -⟩ := h
  exact hcustody.place_unique hp hq

theorem nodup (h : Kept contents alive) (p : P) : (contents p).Nodup := by
  obtain ⟨owner, hcustody, -⟩ := h
  refine List.nodup_iff_count_le_one.mpr fun t ↦ ?_
  rw [hcustody p t]
  split_ifs <;> decide

theorem nowhere (halive : ∀ t, alive t = false) (hcontents : ∀ p, contents p = []) :
    Kept contents alive := by
  refine ⟨fun _ ↦ none, fun p t ↦ ?_, fun t ↦ (halive t).symm⟩
  rw [hcontents p, if_neg (Option.some_ne_none p).symm]
  rfl

theorem same (h : Kept contents alive) (hcontents : ∀ p, contents' p = contents p)
    (halive : ∀ t, alive' t = alive t) : Kept contents' alive' := by
  obtain ⟨owner, hcustody, howner⟩ := h
  refine ⟨owner, ?_, fun t ↦ (howner t).trans (halive t).symm⟩
  rw [show contents' = contents from funext hcontents]
  exact hcustody

/-- The order in a place does not matter. -/
theorem reorder (h : Kept contents alive) (hcontents : ∀ p, (contents' p).Perm (contents p))
    (halive : ∀ t, alive' t = alive t) : Kept contents' alive' := by
  obtain ⟨owner, hcustody, howner⟩ := h
  refine ⟨owner, fun p t ↦ ?_, fun t ↦ (howner t).trans (halive t).symm⟩
  rw [(hcontents p).count_eq, hcustody p t]

/-- A token goes from one place to another. -/
theorem move (t : T) (h : Kept contents alive) (hpq : p ≠ q)
    (hp : (contents p).Perm (t :: contents' p)) (hq : (contents' q).Perm (t :: contents q))
    (hothers : ∀ r, r ≠ p → r ≠ q → contents' r = contents r)
    (halive : ∀ u, alive' u = alive u) : Kept contents' alive' := by
  obtain ⟨owner, hcustody, howner⟩ := h
  refine ⟨_, hcustody.move hpq hp hq hothers, fun u ↦ ?_⟩
  rw [hcustody.isSome_update (hp.mem_iff.mpr List.mem_cons_self), halive u, howner u]

/-- A token comes to life in a place. -/
theorem put (h : Kept contents alive) (hdead : alive t = false) (ht : alive' t = true)
    (hp : (contents' p).Perm (t :: contents p)) (hothers : ∀ r, r ≠ p → contents' r = contents r)
    (halive : ∀ u, u ≠ t → alive' u = alive u) : Kept contents' alive' := by
  obtain ⟨owner, hcustody, howner⟩ := h
  have hnone : owner t = none := by
    rw [← Option.isNone_iff_eq_none, ← Option.not_isSome, howner t, hdead]
    rfl
  refine ⟨_, hcustody.put hnone hp hothers, fun u ↦ ?_⟩
  by_cases hu : u = t
  · rw [hu, Function.update_self, ht]
    rfl
  · rw [Function.update_of_ne hu, howner u, halive u hu]

/-- A token ends its life. -/
theorem take (h : Kept contents alive) (hp : (contents p).Perm (t :: contents' p))
    (hothers : ∀ r, r ≠ p → contents' r = contents r) (hdead : alive' t = false)
    (halive : ∀ u, u ≠ t → alive' u = alive u) : Kept contents' alive' := by
  obtain ⟨owner, hcustody, howner⟩ := h
  refine ⟨_, hcustody.take hp hothers, fun u ↦ ?_⟩
  by_cases hu : u = t
  · rw [hu, Function.update_self, hdead]
    rfl
  · rw [Function.update_of_ne hu, howner u, halive u hu]

/-- Some tokens go from one place to another. -/
theorem moveAll (ts : List T) (h : Kept contents alive) (hpq : p ≠ q)
    (hp : (contents p).Perm (ts ++ contents' p)) (hq : (contents' q).Perm (ts ++ contents q))
    (hothers : ∀ r, r ≠ p → r ≠ q → contents' r = contents r)
    (halive : ∀ u, alive' u = alive u) : Kept contents' alive' := by
  induction ts generalizing contents alive with
  | nil =>
      refine h.reorder (fun r ↦ ?_) halive
      by_cases hrp : r = p
      · exact hrp ▸ hp.symm
      · by_cases hrq : r = q
        · exact hrq ▸ hq
        · rw [hothers r hrp hrq]
  | cons t ts ih =>
      -- the first token goes, and then the others
      let mid : P → List T :=
        Function.update (Function.update contents p (ts ++ contents' p)) q (t :: contents q)
      have hmidp : mid p = ts ++ contents' p := by
        rw [show mid p = _ from Function.update_of_ne hpq .., Function.update_self]
      have hmidq : mid q = t :: contents q := Function.update_self ..
      have hmid : Kept mid alive := by
        refine h.move t hpq (by rw [hmidp]; exact hp) (by rw [hmidq]) (fun r hrp hrq ↦ ?_)
          fun _ ↦ rfl
        rw [show mid r = _ from Function.update_of_ne hrq .., Function.update_of_ne hrp]
      refine ih hmid (by rw [hmidp]) ?_ (fun r hrp hrq ↦ ?_) halive
      · rw [hmidq]
        exact hq.trans List.perm_middle.symm
      · rw [hothers r hrp hrq, show mid r = _ from Function.update_of_ne hrq ..,
          Function.update_of_ne hrp]

/-- Some tokens of a place end their lives. -/
theorem takeAll (ts : List T) (h : Kept contents alive)
    (hp : (contents p).Perm (ts ++ contents' p)) (hothers : ∀ r, r ≠ p → contents' r = contents r)
    (hdead : ∀ t ∈ ts, alive' t = false) (halive : ∀ u, u ∉ ts → alive' u = alive u) :
    Kept contents' alive' := by
  induction ts generalizing contents alive with
  | nil =>
      refine h.reorder (fun r ↦ ?_) fun u ↦ halive u List.not_mem_nil
      by_cases hrp : r = p
      · exact hrp ▸ hp.symm
      · rw [hothers r hrp]
  | cons t ts ih =>
      let mid : P → List T := Function.update contents p (ts ++ contents' p)
      have hmidp : mid p = ts ++ contents' p := Function.update_self ..
      have hmid : Kept mid (Function.update alive t false) := by
        refine h.take (p := p) (by rw [hmidp]; exact hp) (fun r hr ↦ Function.update_of_ne hr ..)
          (Function.update_self ..) fun u hu ↦ Function.update_of_ne hu ..
      refine ih hmid (by rw [hmidp]) (fun r hr ↦ ?_)
        (fun u hu ↦ hdead u (List.mem_cons_of_mem _ hu))
        fun u hu ↦ ?_
      · rw [hothers r hr, show mid r = contents r from Function.update_of_ne hr ..]
      · by_cases hut : u = t
        · rw [hut, hdead t List.mem_cons_self, Function.update_self]
        · rw [Function.update_of_ne hut]
          exact halive u fun hmem ↦ (List.mem_cons.mp hmem).elim hut hu

end Kept

end Foundation
