import Mathlib.Data.Multiset.AddSub
import Mathlib.Data.List.Nodup
import Mathlib.Data.List.Rotate
import Mathlib.Data.List.TakeWhile
import Pensieve.Storage.SlabEntry

/-!
# The clock evictor

`src/storage/clock_evictor.cpp`: second-chance eviction over the entries of one
shard.  `ring_` lists the tracked entries, `index_` maps each of them to its
position, and `hand_` is the position the next sweep starts at.  Entries leave
the ring by `swap_remove`, which moves the last entry into the gap.

The access bits live in the entries themselves, so `evictOne` takes and returns
the arena's bytes.

`WF` is the representation invariant.  The three results about the operations say
what they do to the multiset of tracked entries, which is all that ownership
arguments need: `track_ring` adds one, `WF.untrack` removes one, and
`evictOne_spec` removes the entry it returns.  Which one that is, and whose bits are
cleared, is read off the ring listed from the hand on (`evictOne_eq`).
-/

namespace Pensieve

open Foundation

/-- The evictor of one shard. -/
structure ClockEvictor where
  ring : List ℕ
  index : ℕ → Option ℕ
  hand : ℕ

namespace ClockEvictor

/-- A shard's evictor starts empty. -/
def empty : ClockEvictor := { ring := [], index := fun _ ↦ none, hand := 0 }

/-- `swap_remove`: drop position `idx`, moving the last entry into the gap. -/
def swapRemove (e : ClockEvictor) (idx : ℕ) : ClockEvictor :=
  let removed := e.ring.getD idx 0
  let back := e.ring.getLastD 0
  let index := Function.update e.index removed none
  if idx ≠ e.ring.length - 1 then
    { e with
      ring := (e.ring.set idx back).dropLast
      index := Function.update index back (some idx) }
  else
    { e with ring := e.ring.dropLast, index := index }

/-- `track`: append the entry to the ring. -/
def track (e : ClockEvictor) (entry : ℕ) : ClockEvictor :=
  { e with
    index := Function.update e.index entry (some e.ring.length)
    ring := e.ring ++ [entry] }

/-- `untrack`: remove the entry if it is tracked, and reset a hand that fell off
the end. -/
def untrack (e : ClockEvictor) (entry : ℕ) : ClockEvictor :=
  match e.index entry with
  | none => e
  | some idx =>
    let e := e.swapRemove idx
    if e.ring.isEmpty then { e with hand := 0 }
    else if e.ring.length ≤ e.hand then { e with hand := 0 }
    else e

/-- The sweep of `evict_one`; the first argument counts the iterations left. -/
def evictLoop : ℕ → Memory → ClockEvictor → Option ℕ × Memory × ClockEvictor
  | 0, m, e => (none, m, e)
  | i + 1, m, e =>
    let e := if e.ring.length ≤ e.hand then { e with hand := 0 } else e
    let entry := e.ring.getD e.hand 0
    if SlabEntry.accessBit m entry = 0 then
      let e := e.swapRemove e.hand
      (some entry, m,
        if e.ring.length ≤ e.hand ∧ ¬ e.ring.isEmpty then { e with hand := 0 } else e)
    else
      evictLoop i (SlabEntry.setAccessBit m entry 0)
        { e with hand := (e.hand + 1) % e.ring.length }

/-- `evict_one`: sweep the ring at most twice, clearing access bits, until an
entry whose bit is clear is found. -/
def evictOne (m : Memory) (e : ClockEvictor) : Option ℕ × Memory × ClockEvictor :=
  if e.ring.isEmpty then (none, m, e)
  else evictLoop (e.ring.length * 2) m e

/-- `tracked`. -/
def tracked (e : ClockEvictor) : ℕ := e.ring.length

/-- The representation invariant: the index is the inverse of the ring, and the
hand is a position of the ring or zero. -/
structure WF (e : ClockEvictor) : Prop where
  nodup : e.ring.Nodup
  index_iff : ∀ p i, e.index p = some i ↔ e.ring[i]? = some p
  hand_lt : e.hand = 0 ∨ e.hand < e.ring.length

variable {e e' : ClockEvictor} {m m' : Memory} {p idx : ℕ}

theorem wf_empty : empty.WF := ⟨List.nodup_nil, by simp [empty], Or.inl rfl⟩

/-- The hand may be moved to any position. -/
theorem WF.setHand (h : e.WF) {n : ℕ} (hn : n = 0 ∨ n < e.ring.length) :
    WF { e with hand := n } :=
  ⟨h.nodup, h.index_iff, hn⟩

theorem WF.mem_ring_iff (h : e.WF) : p ∈ e.ring ↔ ∃ i, e.index p = some i := by
  rw [List.mem_iff_getElem?]
  exact ⟨fun ⟨i, hi⟩ ↦ ⟨i, (h.index_iff p i).mpr hi⟩, fun ⟨i, hi⟩ ↦ ⟨i, (h.index_iff p i).mp hi⟩⟩

/-! ## Swap and remove -/

theorem getElem?_concat_eq_some {l : List ℕ} {back q i : ℕ} :
    (l ++ [back])[i]? = some q ↔ l[i]? = some q ∨ i = l.length ∧ q = back := by
  rcases Nat.lt_trichotomy i l.length with hi | rfl | hi
  · rw [List.getElem?_append_left hi]
    simp [hi.ne]
  · simp [eq_comm]
  · rw [List.getElem?_eq_none (by simp; omega), List.getElem?_eq_none (by omega)]
    simp [hi.ne']

/-- A position of a ring exhibits the ring as a list with a last entry. -/
theorem exists_concat (h : e.ring[idx]? = some p) :
    ∃ l back, e.ring = l ++ [back] ∧ idx ≤ l.length := by
  rcases List.eq_nil_or_concat e.ring with hnil | ⟨l, back, hr⟩
  · simp [hnil] at h
  · rw [List.concat_eq_append] at hr
    have hlt := (List.getElem?_eq_some_iff.mp h).1
    rw [hr, List.length_append, List.length_singleton] at hlt
    exact ⟨l, back, hr, by omega⟩

section SwapRemove

variable {l : List ℕ} {back : ℕ}

/-- The ring after `swap_remove`, in terms of the ring without its last entry. -/
theorem swapRemove_ring (hr : e.ring = l ++ [back]) (hi : idx ≤ l.length) :
    (e.swapRemove idx).ring = if idx = l.length then l else l.set idx back := by
  unfold swapRemove
  by_cases hil : idx = l.length
  · simp [hr, hil]
  · have hlt : idx < l.length := by omega
    simp [hr, hil, List.set_append_left _ _ hlt]

/-- The index after `swap_remove`. -/
theorem swapRemove_index (hr : e.ring = l ++ [back]) (hp : e.ring[idx]? = some p) :
    (e.swapRemove idx).index = if idx = l.length then Function.update e.index p none
      else Function.update (Function.update e.index p none) back (some idx) := by
  have hrem : e.ring.getD idx 0 = p := by simp [List.getD, hp]
  have hback : e.ring.getLastD 0 = back := by simp [hr]
  have hlen : e.ring.length - 1 = l.length := by simp [hr]
  unfold swapRemove
  simp only [hrem, hback, hlen]
  by_cases hil : idx = l.length <;> simp [hil]

/-- `swap_remove` removes exactly the entry at the given position. -/
theorem swapRemove_perm (h : e.ring[idx]? = some p) :
    (↑e.ring : Multiset ℕ) = p ::ₘ ↑(e.swapRemove idx).ring := by
  obtain ⟨l, back, hr, hle⟩ := exists_concat h
  rw [swapRemove_ring hr hle, Multiset.cons_coe, Multiset.coe_eq_coe]
  rw [hr] at h ⊢
  split
  · rename_i hil
    have hpb : p = back := by simpa [hil, eq_comm] using h
    rw [hpb]
    exact List.perm_append_singleton _ _
  · rename_i hil
    have hl : idx < l.length := by omega
    rw [List.getElem?_append_left hl, List.getElem?_eq_getElem hl, Option.some.injEq] at h
    have hsplit : l = l.take idx ++ p :: l.drop (idx + 1) := by
      rw [← h, ← List.drop_eq_getElem_cons hl, List.take_append_drop]
    rw [List.set_eq_take_append_cons_drop, if_pos hl]
    have h₁ : (l ++ [back]).Perm (back :: p :: (l.take idx ++ l.drop (idx + 1))) := by
      refine (List.perm_append_singleton _ _).trans (List.Perm.cons _ ?_)
      conv_lhs => rw [hsplit]
      exact List.perm_middle
    exact (h₁.trans (List.Perm.swap _ _ _)).trans (List.perm_middle.symm.cons _)

/-- `swap_remove` keeps the index the inverse of the ring. -/
theorem swapRemove_index_iff (h : e.WF) (hp : e.ring[idx]? = some p) (q i : ℕ) :
    (e.swapRemove idx).index q = some i ↔ (e.swapRemove idx).ring[i]? = some q := by
  obtain ⟨l, back, hr, hle⟩ := exists_concat hp
  have hidx := h.index_iff q i
  have hnd : (l ++ [back]).Nodup := hr ▸ h.nodup
  have hbl : ∀ j, l[j]? ≠ some back := fun j hj ↦ by
    have hmem := List.mem_iff_getElem?.mpr ⟨j, hj⟩
    exact (List.nodup_append.mp hnd).2.2 back hmem back (List.mem_singleton_self _) rfl
  have hinj : ∀ j, l[idx]? = some p → l[j]? = some p → j = idx := fun j hi hj ↦
    ((List.getElem?_inj (List.getElem?_eq_some_iff.mp hi).1
      (List.nodup_append.mp hnd).1).mp (hi.trans hj.symm)).symm
  rw [swapRemove_ring hr hle, swapRemove_index hr hp]
  rw [hr, getElem?_concat_eq_some] at hp hidx
  by_cases hil : idx = l.length
  · -- the removed entry is the last one: nothing moves
    have hpb : p = back := by
      rcases hp with hp | hp
      · rw [hil, List.getElem?_eq_none (le_refl _)] at hp
        cases hp
      · exact hp.2
    subst hpb
    rw [if_pos hil, if_pos hil, Function.update_apply]
    by_cases hq : q = p
    · simp [hq, hbl i]
    · simp [hq, hidx]
  · -- the last entry moves to position `idx`
    have hp' : l[idx]? = some p := hp.resolve_right fun hc ↦ hil hc.1
    have hl : idx < l.length := by omega
    rw [if_neg hil, if_neg hil, Function.update_apply, Function.update_apply, List.getElem?_set]
    by_cases hq : q = back
    · subst hq
      by_cases hi : idx = i
      · simp [hi, hi ▸ hl]
      · simp [hi, hbl i]
    · by_cases hqp : q = p
      · subst hqp
        by_cases hi : idx = i
        · simp [hi, hi ▸ hl, Ne.symm hq, hq]
        · simp only [if_neg hq, if_neg hi, if_true, reduceCtorEq, false_iff]
          exact fun hc ↦ hi (hinj i hp' hc).symm
      · by_cases hi : idx = i
        · subst hi
          have hne : l[idx]? ≠ some q := fun hc ↦ hqp (Option.some.inj (hc.symm.trans hp'))
          rw [if_neg hq, if_neg hqp, hidx, if_pos rfl, if_pos hl, Option.some.injEq]
          simp only [hne, hil, false_and, or_false, false_iff]
          exact fun hc ↦ hq hc.symm
        · simp [hq, hqp, hidx, hi]

/-- `swap_remove` at a position keeps the invariant, up to the hand. -/
theorem WF.swapRemove (h : e.WF) (hp : e.ring[idx]? = some p) {n : ℕ}
    (hn : n = 0 ∨ n < (e.swapRemove idx).ring.length) :
    WF { e.swapRemove idx with hand := n } := by
  refine ⟨?_, swapRemove_index_iff h hp, hn⟩
  have hnd : (↑e.ring : Multiset ℕ).Nodup := h.nodup
  rw [swapRemove_perm hp, Multiset.nodup_cons] at hnd
  exact hnd.2

end SwapRemove

/-! ## The operations on the tracked entries -/

@[simp] theorem swapRemove_hand (e : ClockEvictor) (idx : ℕ) :
    (e.swapRemove idx).hand = e.hand := by
  unfold swapRemove; split <;> rfl

@[simp] theorem track_ring (e : ClockEvictor) (p : ℕ) : (e.track p).ring = e.ring ++ [p] := rfl

/-- Tracking an untracked entry. -/
theorem WF.track (h : e.WF) (hp : p ∉ e.ring) : (e.track p).WF := by
  refine ⟨?_, fun q i ↦ ?_, ?_⟩
  · rw [track_ring, List.nodup_append]
    refine ⟨h.nodup, List.nodup_singleton p, fun a ha b hb ↦ ?_⟩
    rw [List.mem_singleton] at hb
    exact fun hab ↦ hp (hb ▸ hab ▸ ha)
  · rw [track_ring, getElem?_concat_eq_some, ← h.index_iff, ClockEvictor.track]
    simp only [Function.update_apply]
    split
    · rename_i hq
      have hnone : e.index p ≠ some i := fun hc ↦ hp (h.mem_ring_iff.mpr ⟨i, hc⟩)
      simp [hq, hnone, eq_comm]
    · rename_i hq
      simp [hq]
  · rw [track_ring, List.length_append]
    rcases h.hand_lt with h0 | hlt
    · exact Or.inl h0
    · exact Or.inr (Nat.lt_add_right _ hlt)

/-- Untracking a tracked entry removes it. -/
theorem WF.untrack (h : e.WF) (hp : p ∈ e.ring) :
    (e.untrack p).WF ∧ (↑e.ring : Multiset ℕ) = p ::ₘ ↑(e.untrack p).ring := by
  obtain ⟨i, hi⟩ := h.mem_ring_iff.mp hp
  have hri := (h.index_iff p i).mp hi
  have hperm := swapRemove_perm hri
  unfold ClockEvictor.untrack
  simp only [hi]
  split
  · exact ⟨h.swapRemove hri (Or.inl rfl), hperm⟩
  · split
    · exact ⟨h.swapRemove hri (Or.inl rfl), hperm⟩
    · rename_i hlt
      exact ⟨h.swapRemove hri (Or.inr (Nat.lt_of_not_le hlt)), hperm⟩

/-- The sweep returns a tracked entry and removes it, or returns nothing; it
writes only access bits of tracked entries. -/
theorem evictLoop_spec {r : Option ℕ} (i : ℕ) (h : e.WF) (hne : e.ring ≠ [])
    (hr : evictLoop i m e = (r, m', e')) :
    e'.WF ∧ (↑e.ring : Multiset ℕ) = ↑r.toList + ↑e'.ring ∧
      ∀ x, (∀ p ∈ e.ring, x ≠ p + 8) → m' x = m x := by
  induction i generalizing m e with
  | zero =>
      cases hr
      exact ⟨h, by simp, fun _ _ ↦ rfl⟩
  | succ i ih =>
      unfold evictLoop at hr
      have hpos : 0 < e.ring.length := List.length_pos_of_ne_nil hne
      -- the hand is normalised before the entry is read
      obtain ⟨n, hn, he⟩ : ∃ n < e.ring.length,
          (if e.ring.length ≤ e.hand then { e with hand := 0 } else e) = { e with hand := n } := by
        split
        · exact ⟨0, hpos, rfl⟩
        · exact ⟨e.hand, by omega, rfl⟩
      rw [he] at hr
      have hwf : WF { e with hand := n } := h.setHand (Or.inr hn)
      have hget : e.ring[n]? = some (e.ring.getD n 0) := by simp [List.getD, hn]
      simp only at hr
      split at hr
      · have hperm := swapRemove_perm (e := { e with hand := n }) hget
        cases hr
        refine ⟨?_, ?_, fun _ _ ↦ rfl⟩
        · split
          · exact hwf.swapRemove hget (Or.inl rfl)
          · rename_i hc
            refine hwf.swapRemove (n := (ClockEvictor.swapRemove _ _).hand) hget ?_
            rw [swapRemove_hand]
            by_contra hno
            rw [not_or] at hno
            refine hc ⟨by simpa using hno.2, fun hemp ↦ hno.1 ?_⟩
            -- the last entry left: the ring had one position, and the hand was on it
            have hcard : e.ring.length = 1 := by
              simpa [List.isEmpty_iff.mp hemp] using congrArg Multiset.card hperm
            change n = 0
            omega
        · split <;> simpa using hperm
      · obtain ⟨hw, hp, hm⟩ := ih (hwf.setHand (Or.inr (Nat.mod_lt _ hpos))) hne hr
        refine ⟨hw, hp, fun x hx ↦ ?_⟩
        rw [hm x hx, SlabEntry.setAccessBit_apply_of_ne]
        exact hx _ (List.mem_of_getElem? hget)

/-- `evict_one` removes the entry it returns from the ring, and writes only access
bits of tracked entries. -/
theorem evictOne_spec {r : Option ℕ} (h : e.WF) (hr : evictOne m e = (r, m', e')) :
    e'.WF ∧ (↑e.ring : Multiset ℕ) = ↑r.toList + ↑e'.ring ∧
      ∀ x, (∀ p ∈ e.ring, x ≠ p + 8) → m' x = m x := by
  unfold evictOne at hr
  split at hr
  · cases hr
    exact ⟨h, by simp, fun _ _ ↦ rfl⟩
  · rename_i hne
    exact evictLoop_spec _ h (by simpa using hne) hr

/-! ## Whom the sweep finds

The sweep goes round the ring from the hand.  It passes over the entries whose bits are set
and clears the bits, until it comes to one whose bit is clear.  If all are set, this is the
entry it started from. -/

/-- The entries in the order in which the sweep comes to them. -/
def circle (e : ClockEvictor) : List ℕ := e.ring.rotate e.hand

/-- Clear the access bits of entries. -/
def clearBits (m : Memory) (ps : List ℕ) : Memory :=
  ps.foldl (fun m p ↦ SlabEntry.setAccessBit m p 0) m

/-- The entry at the hand leaves the ring. -/
def evictHand (e : ClockEvictor) : ClockEvictor :=
  let e := e.swapRemove e.hand
  if e.ring.length ≤ e.hand ∧ ¬ e.ring.isEmpty then { e with hand := 0 } else e

theorem accessBit_clearBits (m : Memory) (ps : List ℕ) (q : ℕ) :
    SlabEntry.accessBit (clearBits m ps) q = if q ∈ ps then 0 else SlabEntry.accessBit m q := by
  induction ps generalizing m with
  | nil => simp [clearBits]
  | cons p ps ih =>
      have hcons : clearBits m (p :: ps) = clearBits (SlabEntry.setAccessBit m p 0) ps := rfl
      rw [hcons, ih]
      by_cases hq : q = p
      · subst hq
        simp
      · have hbit : SlabEntry.accessBit (SlabEntry.setAccessBit m p 0) q =
            SlabEntry.accessBit m q :=
          SlabEntry.setAccessBit_apply_of_ne (by omega)
        simp [hq, hbit]

/-- The first entry of the circle is the one at the hand. -/
theorem getD_hand {rest : List ℕ} (hc : e.circle = p :: rest) (hlt : e.hand < e.ring.length) :
    e.ring.getD e.hand 0 = p := by
  rw [circle, List.rotate_eq_drop_append_take hlt.le, List.drop_eq_getElem_cons hlt] at hc
  simpa [List.getD, hlt] using (List.cons.inj hc).1

theorem circle_succ {l : List ℕ} (hc : e.circle = p :: l) :
    circle { e with hand := (e.hand + 1) % e.ring.length } = l ++ [p] := by
  rw [circle] at hc ⊢
  rw [List.rotate_mod, ← List.rotate_rotate, hc]
  simp

theorem evictLoop_take {rest : List ℕ} (i : ℕ) (hlt : e.hand < e.ring.length)
    (hc : e.circle = p :: rest) (hbit : SlabEntry.accessBit m p = 0) :
    evictLoop (i + 1) m e = (some p, m, e.evictHand) := by
  rw [evictLoop, if_neg (not_le.mpr hlt)]
  simp only [getD_hand hc hlt]
  rw [if_pos hbit]
  rfl

theorem evictLoop_pass {rest : List ℕ} (i : ℕ) (hlt : e.hand < e.ring.length)
    (hc : e.circle = p :: rest) (hbit : SlabEntry.accessBit m p ≠ 0) :
    evictLoop (i + 1) m e =
      evictLoop i (SlabEntry.setAccessBit m p 0)
        { e with hand := (e.hand + 1) % e.ring.length } := by
  rw [evictLoop, if_neg (not_le.mpr hlt)]
  simp only [getD_hand hc hlt]
  rw [if_neg hbit]

/-- The sweep passes over entries whose bits are set. -/
theorem evictLoop_passes {pre post : List ℕ} (i : ℕ) (hnodup : e.ring.Nodup)
    (hlt : e.hand < e.ring.length) (hc : e.circle = pre ++ post)
    (hset : ∀ q ∈ pre, SlabEntry.accessBit m q ≠ 0) :
    evictLoop (pre.length + i) m e =
      evictLoop i (clearBits m pre)
        { e with hand := (e.hand + pre.length) % e.ring.length } := by
  induction pre generalizing m e post with
  | nil =>
      rw [List.length_nil, Nat.zero_add, Nat.add_zero, Nat.mod_eq_of_lt hlt]
      rfl
  | cons q pre ih =>
      obtain ⟨hq, hpre⟩ := List.forall_mem_cons.mp hset
      have hcircle : e.circle.Nodup := List.nodup_rotate.mpr hnodup
      rw [hc, List.cons_append, List.nodup_cons] at hcircle
      have hset' : ∀ r ∈ pre,
          SlabEntry.accessBit (SlabEntry.setAccessBit m q 0) r ≠ 0 := by
        intro r hr
        have hne : r ≠ q := by
          rintro rfl
          exact hcircle.1 (List.mem_append_left _ hr)
        have hbit : SlabEntry.accessBit (SlabEntry.setAccessBit m q 0) r =
            SlabEntry.accessBit m r :=
          SlabEntry.setAccessBit_apply_of_ne (by omega)
        rw [hbit]
        exact hpre r hr
      have hnext := circle_succ (l := pre ++ post) hc
      rw [List.append_assoc] at hnext
      have hsucc : (q :: pre).length + i = pre.length + i + 1 := by
        rw [List.length_cons]
        omega
      rw [hsucc, evictLoop_pass _ hlt hc hq,
        ih (e := { e with hand := (e.hand + 1) % e.ring.length }) hnodup
          (Nat.mod_lt _ (by omega)) hnext hset']
      simp only [Nat.mod_add_mod, List.length_cons]
      rw [Nat.add_right_comm, Nat.add_assoc]
      rfl

theorem WF.hand_lt_length (h : e.WF) (hne : e.ring ≠ []) : e.hand < e.ring.length := by
  have hpos := List.length_pos_of_ne_nil hne
  rcases h.hand_lt with h0 | hlt
  · omega
  · exact hlt

/-- The victim is the first entry whose bit is clear. -/
theorem evictOne_of_clear {pre post : List ℕ} (h : e.WF) (hc : e.circle = pre ++ p :: post)
    (hset : ∀ q ∈ pre, SlabEntry.accessBit m q ≠ 0) (hbit : SlabEntry.accessBit m p = 0) :
    evictOne m e = (some p, clearBits m pre,
      evictHand { e with hand := (e.hand + pre.length) % e.ring.length }) := by
  have hlength : e.ring.length = pre.length + post.length + 1 := by
    have := congrArg List.length hc
    rw [circle, List.length_rotate] at this
    simp only [List.length_append, List.length_cons] at this
    omega
  have hne : e.ring ≠ [] := List.ne_nil_of_length_pos (by omega)
  have hlt := h.hand_lt_length hne
  have hnodup : e.circle.Nodup := List.nodup_rotate.mpr h.nodup
  rw [hc] at hnodup
  have hp : p ∉ pre := fun hmem ↦
    (List.nodup_append.mp hnodup).2.2 p hmem p List.mem_cons_self rfl
  have hbit' : SlabEntry.accessBit (clearBits m pre) p = 0 := by
    rw [accessBit_clearBits, if_neg hp]
    exact hbit
  have hcircle : circle { e with hand := (e.hand + pre.length) % e.ring.length } =
      p :: post ++ pre := by
    have hrot : e.ring.rotate e.hand = pre ++ p :: post := hc
    rw [circle, List.rotate_mod, ← List.rotate_rotate, hrot, List.rotate_append_length_eq]
  have hfuel : e.ring.length * 2 = pre.length + (post.length + e.ring.length + 1) := by omega
  rw [evictOne, if_neg (by simpa using hne), hfuel,
    evictLoop_passes _ h.nodup hlt hc hset,
    evictLoop_take _ (Nat.mod_lt _ (by omega)) hcircle hbit']

/-- If all bits are set, then the victim is the entry at the hand. -/
theorem evictOne_of_set {rest : List ℕ} (h : e.WF) (hc : e.circle = p :: rest)
    (hset : ∀ q ∈ e.circle, SlabEntry.accessBit m q ≠ 0) :
    evictOne m e = (some p, clearBits m e.circle, e.evictHand) := by
  have hlength : e.circle.length = e.ring.length := List.length_rotate ..
  have hpos : 0 < e.ring.length := by
    rw [← hlength, hc]
    exact Nat.succ_pos _
  have hne : e.ring ≠ [] := List.ne_nil_of_length_pos hpos
  have hlt := h.hand_lt_length hne
  have hbit : SlabEntry.accessBit (clearBits m e.circle) p = 0 := by
    rw [accessBit_clearBits, if_pos (by rw [hc]; exact List.mem_cons_self)]
  have hhand : (e.hand + e.circle.length) % e.ring.length = e.hand := by
    rw [hlength, Nat.add_mod_right, Nat.mod_eq_of_lt hlt]
  have hfuel : e.ring.length * 2 = e.circle.length + (e.ring.length - 1 + 1) := by omega
  rw [evictOne, if_neg (by simpa using hne), hfuel,
    evictLoop_passes _ h.nodup hlt (List.append_nil _).symm hset, hhand,
    evictLoop_take _ hlt hc hbit]

/-- With clear bits and the hand at the start, the first entry goes and the last one takes its
place. -/
theorem evictOne_front {rest : List ℕ} (h : e.WF) (hhand : e.hand = 0) (hring : e.ring = p :: rest)
    (hbit : SlabEntry.accessBit m p = 0) : evictOne m e = (some p, m, e.evictHand) := by
  have hc : e.circle = [] ++ p :: rest := by
    rw [circle, hhand, List.rotate_zero, hring]
    rfl
  have hstay : (e.hand + ([] : List ℕ).length) % e.ring.length = e.hand := by
    rw [hhand, List.length_nil, Nat.zero_mod]
  rw [evictOne_of_clear h hc (by simp) hbit, hstay]
  rfl

theorem evictHand_front {l : List ℕ} {z : ℕ} (hhand : e.hand = 0)
    (hring : e.ring = p :: (l ++ [z])) :
    e.evictHand.ring = z :: l ∧ e.evictHand.hand = 0 := by
  have hset : (e.swapRemove 0).ring = z :: l := by
    rw [swapRemove_ring (l := p :: l) hring (Nat.zero_le _)]
    simp
  simp [evictHand, hhand, hset]

/-- The entries that the sweep passes over. -/
def passed (m : Memory) (l : List ℕ) : List ℕ := l.takeWhile fun p ↦ SlabEntry.accessBit m p ≠ 0

/-- The first entry whose bit is clear, or else the first of all. -/
def victim (m : Memory) (l : List ℕ) : Option ℕ :=
  (l.find? fun p ↦ SlabEntry.accessBit m p = 0).or l.head?

/-- `evict_one` takes the victim and clears the bits of those that it passes over. -/
theorem evictOne_eq (h : e.WF) (m : Memory) :
    (evictOne m e).1 = victim m e.circle ∧
      (evictOne m e).2.1 = clearBits m (passed m e.circle) := by
  rcases hfind : e.circle.find? fun q ↦ SlabEntry.accessBit m q = 0 with - | p
  · have hset : ∀ q ∈ e.circle, SlabEntry.accessBit m q ≠ 0 := by
      simpa using List.find?_eq_none.mp hfind
    have hall : passed m e.circle = e.circle :=
      List.takeWhile_eq_self_iff.mpr fun q hq ↦ by simpa using hset q hq
    rw [victim, hfind, Option.none_or, hall]
    rcases hc : e.circle with - | ⟨p, rest⟩
    · have hnil : e.ring = [] := List.rotate_eq_nil_iff.mp hc
      rw [evictOne, hnil]
      exact ⟨rfl, rfl⟩
    · rw [evictOne_of_set h hc hset, hc]
      exact ⟨rfl, rfl⟩
  · obtain ⟨hbit, pre, post, hc, hpre⟩ := List.find?_eq_some_iff_append.mp hfind
    have hset : ∀ q ∈ pre, SlabEntry.accessBit m q ≠ 0 := by simpa using hpre
    have hclear : SlabEntry.accessBit m p = 0 := by simpa using hbit
    have hpassed : passed m e.circle = pre := by
      rw [passed, hc, List.takeWhile_append_of_pos (by simpa using hset)]
      simp [hclear]
    rw [victim, hfind, Option.some_or, hpassed, evictOne_of_clear h hc hset hclear]
    exact ⟨rfl, rfl⟩

/-- There is a victim unless nothing is tracked. -/
theorem evictOne_isSome (h : e.WF) (hne : e.ring ≠ []) (m : Memory) :
    ∃ p, (evictOne m e).1 = some p := by
  obtain ⟨p, rest, hcircle⟩ :=
    List.exists_cons_of_ne_nil fun hnil ↦ hne (List.rotate_eq_nil_iff.mp hnil)
  rw [(evictOne_eq h m).1, victim, ← Option.isSome_iff_exists, Option.isSome_or]
  rw [circle, hcircle, List.head?_cons, Option.isSome_some, Bool.or_true]

/-! ## Any sequence of calls -/

/-- The states of an evictor and of the memory after calls in any order.  Only what is not
tracked is tracked, and between calls the bits may be set in any way. -/
inductive Reached : Memory → ClockEvictor → Prop
  | start (m : Memory) : Reached m empty
  | track {m : Memory} {e : ClockEvictor} {p : ℕ} (h : Reached m e) (hp : p ∉ e.ring) :
      Reached m (e.track p)
  | untrack {m : Memory} {e : ClockEvictor} (h : Reached m e) (p : ℕ) : Reached m (e.untrack p)
  | evict {m : Memory} {e : ClockEvictor} (h : Reached m e) :
      Reached (evictOne m e).2.1 (evictOne m e).2.2
  | touch {m : Memory} {e : ClockEvictor} (h : Reached m e) (m' : Memory) : Reached m' e

theorem Reached.wf (h : Reached m e) : e.WF := by
  induction h with
  | start m => exact wf_empty
  | track h hp ih => exact ih.track hp
  | untrack h p ih =>
      rename_i e
      by_cases hp : p ∈ e.ring
      · exact (ih.untrack hp).1
      · have hnone : e.index p = none := by
          rw [Option.eq_none_iff_forall_not_mem]
          exact fun i hi ↦ hp (ih.mem_ring_iff.mpr ⟨i, hi⟩)
        rw [ClockEvictor.untrack, hnone]
        exact ih
  | evict h ih => exact (evictOne_spec ih rfl).1
  | touch h m' ih => exact ih

/-- The ring listed from the hand on, a hand that has fallen off the end being reset. -/
def fromHand (e : ClockEvictor) : List ℕ :=
  e.ring.rotate (if e.ring.length ≤ e.hand then 0 else e.hand)

theorem WF.fromHand (h : e.WF) : e.fromHand = e.circle := by
  rw [ClockEvictor.fromHand, circle]
  split
  · rename_i hle
    rcases h.hand_lt with h0 | hlt
    · rw [h0]
    · omega
  · rfl

/-- What `evict_one` does after any calls: it returns nothing only if nothing is tracked;
otherwise the victim leaves and no one else, and the bits that it has cleared are those of
the entries that it has passed over. -/
theorem second_chance (h : Reached m e) :
    ((evictOne m e).1 = none ↔ e.ring = []) ∧
    (evictOne m e).1 = victim m e.fromHand ∧
    (∀ p, SlabEntry.accessBit (evictOne m e).2.1 p =
      if p ∈ passed m e.fromHand then 0 else SlabEntry.accessBit m p) ∧
    ∀ p, p ∈ (evictOne m e).2.2.ring ↔ p ∈ e.ring ∧ (evictOne m e).1 ≠ some p := by
  obtain ⟨hvictim, hbits⟩ := evictOne_eq h.wf m
  obtain ⟨-, hring, -⟩ := evictOne_spec h.wf (Prod.eta (evictOne m e)).symm
  rw [h.wf.fromHand]
  refine ⟨⟨fun hnone ↦ ?_, fun hnil ↦ ?_⟩, hvictim, fun p ↦ ?_, fun p ↦ ?_⟩
  · by_contra hne
    obtain ⟨p, hp⟩ := evictOne_isSome h.wf hne m
    rw [hp] at hnone
    cases hnone
  · rw [evictOne, hnil]
    rfl
  · rw [hbits, accessBit_clearBits]
  · have hnodup : (↑e.ring : Multiset ℕ).Nodup := h.wf.nodup
    rw [← Multiset.mem_coe, ← Multiset.mem_coe, hring]
    rw [hring] at hnodup
    rcases hr : (evictOne m e).1 with _ | q
    · simp
    · have hq : q ∉ (evictOne m e).2.2.ring := by
        rw [hr, Option.toList_some, Multiset.coe_singleton, Multiset.singleton_add] at hnodup
        exact (Multiset.nodup_cons.mp hnodup).1
      simp only [Option.toList_some, Multiset.coe_singleton, Multiset.singleton_add,
        Multiset.mem_cons, Multiset.mem_coe, ne_eq, Option.some.injEq]
      constructor
      · intro hp
        exact ⟨Or.inr hp, fun heq ↦ hq (heq ▸ hp)⟩
      · rintro ⟨rfl | hp, hne⟩
        · exact absurd rfl hne
        · exact hp

/-- Of two entries, both of them in use, the first goes. -/
theorem second_chance_full :
    (evictOne (fun _ ↦ 1) ((empty.track 0).track 64)).1 = some 0 ∧
      SlabEntry.accessBit (evictOne (fun _ ↦ 1) ((empty.track 0).track 64)).2.1 64 = 0 := by
  have hreached : Reached (fun _ ↦ 1) ((empty.track 0).track 64) :=
    ((Reached.start _).track (by decide)).track (by decide)
  obtain ⟨-, hvictim, hbits, -⟩ := second_chance hreached
  exact ⟨hvictim.trans (by decide), (hbits 64).trans (by decide)⟩

end ClockEvictor

end Pensieve
