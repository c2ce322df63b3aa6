import Pensieve.Storage.ClockEvictor

/-!
# The evictor stays inside its ring

`ring_[i]`, `ring_.back()` and `ring_.pop_back()` are undefined outside the vector, and so is a
modulus of zero.  `Checked` is the evictor with these as failures.  From any state that calls can
lead to, the checked operations return what the unchecked ones do, so nothing undefined happens.
-/

namespace Pensieve

open Foundation

namespace ClockEvictor

namespace Checked

/-- `swap_remove`. -/
def swapRemove (e : ClockEvictor) (idx : ℕ) : Option ClockEvictor := do
  let removed ← e.ring[idx]?
  let back ← e.ring.getLast?
  let index := Function.update e.index removed none
  if idx ≠ e.ring.length - 1 then
    return { e with
      ring := (e.ring.set idx back).dropLast
      index := Function.update index back (some idx) }
  else
    return { e with ring := e.ring.dropLast, index := index }

/-- `untrack`. -/
def untrack (e : ClockEvictor) (entry : ℕ) : Option ClockEvictor :=
  match e.index entry with
  | none => some e
  | some idx => do
    let e ← swapRemove e idx
    if e.ring.isEmpty then return { e with hand := 0 }
    else if e.ring.length ≤ e.hand then return { e with hand := 0 }
    else return e

/-- `a % b`. -/
def mod (a b : ℕ) : Option ℕ := if b = 0 then none else some (a % b)

/-- The sweep of `evict_one`. -/
def evictLoop : ℕ → Memory → ClockEvictor → Option (Option ℕ × Memory × ClockEvictor)
  | 0, m, e => some (none, m, e)
  | i + 1, m, e => do
    let e := if e.ring.length ≤ e.hand then { e with hand := 0 } else e
    let entry ← e.ring[e.hand]?
    if SlabEntry.accessBit m entry = 0 then
      let e ← swapRemove e e.hand
      return (some entry, m,
        if e.ring.length ≤ e.hand ∧ ¬ e.ring.isEmpty then { e with hand := 0 } else e)
    else
      let hand ← mod (e.hand + 1) e.ring.length
      evictLoop i (SlabEntry.setAccessBit m entry 0) { e with hand := hand }

/-- `evict_one`. -/
def evictOne (m : Memory) (e : ClockEvictor) : Option (Option ℕ × Memory × ClockEvictor) :=
  if e.ring.isEmpty then some (none, m, e)
  else evictLoop (e.ring.length * 2) m e

end Checked

variable {e : ClockEvictor} {m : Memory} {p idx : ℕ}

theorem checked_swapRemove (hp : e.ring[idx]? = some p) :
    Checked.swapRemove e idx = some (e.swapRemove idx) := by
  obtain ⟨l, back, hr, -⟩ := exists_concat hp
  have hremoved : e.ring.getD idx 0 = p := by rw [List.getD, hp, Option.getD_some]
  have hlast : e.ring.getLast? = some back := by rw [hr, List.getLast?_concat]
  have hback : e.ring.getLastD 0 = back := by rw [hr, List.getLastD_concat]
  rw [Checked.swapRemove, hp, hlast, ClockEvictor.swapRemove, hremoved, hback]
  simp only [Option.bind_eq_bind, Option.bind_some]
  split_ifs <;> rfl

theorem WF.checked_untrack (h : e.WF) (p : ℕ) : Checked.untrack e p = some (e.untrack p) := by
  rw [Checked.untrack, ClockEvictor.untrack]
  rcases hidx : e.index p with - | idx
  · rfl
  · simp only [checked_swapRemove ((h.index_iff p idx).mp hidx), Option.bind_eq_bind,
      Option.bind_some]
    split_ifs <;> rfl

theorem WF.checked_evictLoop (h : e.WF) (hne : e.ring ≠ []) (i : ℕ) (m : Memory) :
    Checked.evictLoop i m e = some (evictLoop i m e) := by
  induction i generalizing m e with
  | zero => rfl
  | succ i ih =>
      have hlt := h.hand_lt_length hne
      have hget : e.ring[e.hand]? = some (e.ring.getD e.hand 0) := by simp [List.getD, hlt]
      have hpos : e.ring.length ≠ 0 := by omega
      rw [Checked.evictLoop, evictLoop, if_neg (not_le.mpr hlt)]
      simp only [hget, checked_swapRemove hget, Checked.mod, if_neg hpos, Option.bind_eq_bind,
        Option.bind_some]
      split_ifs with hbit
      · rfl
      · rfl
      · exact ih (h.setHand (Or.inr (Nat.mod_lt _ (by omega)))) hne _

theorem WF.checked_evictOne (h : e.WF) (m : Memory) :
    Checked.evictOne m e = some (evictOne m e) := by
  rw [Checked.evictOne, evictOne]
  split_ifs with hempty
  · rfl
  · exact h.checked_evictLoop (by simpa using hempty) _ m

/-- After any calls the index is the inverse of the ring and the hand is in it, and no call goes
outside the ring or divides by zero. -/
theorem representation (h : Reached m e) :
    (∀ p, (e.index p).isSome ↔ p ∈ e.ring) ∧
      (∀ i p, e.ring[i]? = some p → e.index p = some i) ∧
      e.ring.Nodup ∧
      (e.hand = 0 ∨ e.hand < e.ring.length) ∧
      (∀ p, Checked.untrack e p = some (e.untrack p)) ∧
      Checked.evictOne m e = some (evictOne m e) := by
  have hwf := h.wf
  refine ⟨fun p ↦ ?_, fun i p ↦ (hwf.index_iff p i).mpr, hwf.nodup, hwf.hand_lt,
    hwf.checked_untrack, hwf.checked_evictOne m⟩
  rw [Option.isSome_iff_exists, hwf.mem_ring_iff]

/-- Two entries are tracked, one of them is untracked, and one is evicted. -/
theorem representation_two :
    (((empty.track 16).track 32).untrack 16).index 32 = some 0 ∧
      Checked.evictOne (fun _ ↦ 0) (((empty.track 16).track 32).untrack 16) =
        some (evictOne (fun _ ↦ 0) (((empty.track 16).track 32).untrack 16)) := by
  have hreached : Reached (fun _ ↦ 0) (((empty.track 16).track 32).untrack 16) :=
    (((Reached.start _).track (by decide)).track (by decide)).untrack 16
  obtain ⟨-, hindex, -, -, -, hevict⟩ := representation hreached
  exact ⟨hindex 0 32 rfl, hevict⟩

end ClockEvictor

end Pensieve
