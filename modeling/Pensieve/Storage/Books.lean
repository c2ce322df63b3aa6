import Pensieve.Storage.Ownership

/-!
# The books of the whole store

`Pensieve.Storage.Ownership` is about one shard and the call that holds its mutex.
Here the shards are put side by side.  `Books s holder` says that every shard is
in order, given where the call that holds its mutex stands, and that the free
slots and the slots owned by the shards are together the slots of the assigned
pages.

A step of the call on shard `i` keeps the books (`Books.advance`): what the other
shards own is the `rest` of `StepOK`, so their entries keep their bytes.
-/

namespace Pensieve

open Foundation SlabAllocator

namespace LocalStore

variable {n : ℕ} {s s' : LocalStore n} {i j : Fin (n + 1)}

/-- Every shard is in order and the slots add up. -/
structure Books (s : LocalStore n) (holder : Fin (n + 1) → Option Pc) : Prop where
  shard : ∀ i, ShardInv s i (holder i)
  accounts : ∃ pages, Accounts s.allocator pages (∑ i, s.owned i (holder i))

/-- What a call knows only depends on the sizes of the live entries. -/
theorem stage_congr {pc : Option Pc} {m : AList fun _ : Bytes ↦ ℕ} {mem mem' : Memory}
    (h : Stage mem m pc) (hsz : ∀ k p, (live pc m).lookup k = some p →
      SlabEntry.storedSize mem' p = SlabEntry.storedSize mem p) : Stage mem' m pc := by
  rcases pc with _ | pc
  · trivial
  · cases pc
    case putFree => exact ⟨h.1, h.2.trans (hsz _ _ h.1).symm⟩
    case delFree => exact ⟨h.1, h.2.trans (hsz _ _ h.1).symm⟩
    all_goals exact h

/-- **The frame rule.**  A shard whose map and evictor are unchanged and whose
slots keep their bytes stays in order, owns what it owned and shows what it
showed. -/
theorem ShardInv.frame {pc : Option Pc} (h : ShardInv s j pc) (hsh : s'.shards j = s.shards j)
    (hmem : ∀ t ∈ s.owned j pc, ∀ x, t.2 ≤ x → x < t.2 + slotSizeForClass t.1 →
      s'.mem x = s.mem x) :
    ShardInv s' j pc ∧ s'.owned j pc = s.owned j pc ∧ ∀ k, s'.view j pc k = s.view j pc k := by
  have hent : ∀ k p v, (live pc (s.shards j).map).lookup k = some p →
      SlabEntry.Holds s.mem p k v → SlabEntry.Holds s'.mem p k v := by
    intro k p v hl hv
    have hfit := le_slotFor (h.storedSize_le hl) p
    refine hv.congr fun x hx hlt _ ↦ hmem _ (slot_mem_owned hl) x hx ?_
    rw [hv.storedSize_eq] at hfit ⊢
    rw [slotFor_snd]
    omega
  have hstage : Stage s'.mem (s.shards j).map pc := by
    refine stage_congr h.stage fun k p hl ↦ ?_
    obtain ⟨v, hv, -⟩ := h.entries k p hl
    rw [(hent k p v hl hv).storedSize_eq, hv.storedSize_eq]
  obtain ⟨hinv, hown, hview⟩ := h.set_mem hent hstage
  refine ⟨⟨?_, ?_, ?_, ?_, ?_⟩, ?_, fun k ↦ ?_⟩
  · rw [hsh]; exact hinv.entries
  · rw [hsh]; exact hinv.home
  · rw [hsh]; exact hinv.wf
  · rw [hsh]; exact hinv.ring_eq
  · rw [hsh]; exact hinv.stage
  · rw [← hown, owned, owned, hsh]
  · rw [← hview k, view, view, hsh]

/-- The size recorded for a mapped entry has a class. -/
theorem Books.storedSize_le (h : Books s fun _ ↦ none) {p : ℕ}
    (hl : (s.shards j).map.lookup k = some p) : SlabEntry.storedSize s.mem p ≤ kMaxSlotSize :=
  (h.shard j).storedSize_le hl

/-- Relabelling the holder of a shard changes nothing if both labels see the shard
in the same way. -/
theorem Books.relabel {holder : Fin (n + 1) → Option Pc} (h : Books s holder)
    (i : Fin (n + 1)) (pc : Option Pc)
    (hl : ∀ m, live pc m = live (holder i) m) (ht : ∀ m, tracked pc m = tracked (holder i) m)
    (hh : held pc = held (holder i)) (hs : Stage s.mem (s.shards i).map pc) :
    Books s (Function.update holder i pc) ∧ s.owned i pc = s.owned i (holder i) := by
  have ho : s.owned i pc = s.owned i (holder i) := by rw [owned, owned, hl, hh]
  refine ⟨⟨fun j ↦ ?_, ?_⟩, ho⟩
  · by_cases hj : j = i
    · subst hj
      obtain ⟨hent, hhome, hwf, hring, -⟩ := h.shard j
      rw [Function.update_self]
      exact ⟨by rw [hl]; exact hent, hhome, hwf, by rw [ht]; exact hring, hs⟩
    · rw [Function.update_of_ne hj]
      exact h.shard j
  · obtain ⟨pages, ha⟩ := h.accounts
    have hsum : ∑ j, s.owned j (Function.update holder i pc j) = ∑ j, s.owned j (holder j) := by
      refine Finset.sum_congr rfl fun j _ ↦ ?_
      by_cases hj : j = i
      · rw [hj, Function.update_self, ho]
      · rw [Function.update_of_ne hj]
    exact ⟨pages, by rw [hsum]; exact ha⟩

/-- The slots of the shards other than `i`. -/
def others (s : LocalStore n) (holder : Fin (n + 1) → Option Pc) (i : Fin (n + 1)) :
    Multiset Slot :=
  ∑ j ∈ ({i}ᶜ : Finset (Fin (n + 1))), s.owned j (holder j)

/-- A step of the call on shard `i` keeps the books, and leaves the other shards
alone. -/
theorem Books.advance {holder : Fin (n + 1) → Option Pc} {pc pc' : Pc} {ev : List SlotEvent}
    (h : Books s holder) (hi : holder i = some pc) (hk : shardFor n pc.key = i)
    (hadv : s.advance i pc = some (s', pc', ev)) :
    Books s' (Function.update holder i (some pc')) ∧
      StepOK i (s.others holder i) s pc s' pc' ev ∧
      ∀ j, j ≠ i → s'.owned j (holder j) = s.owned j (holder j) ∧
        ∀ k, s'.view j (holder j) k = s.view j (holder j) k := by
  obtain ⟨pages, ha⟩ := h.accounts
  rw [Fintype.sum_eq_add_sum_compl i, hi] at ha
  have hok : StepOK i (s.others holder i) s pc s' pc' ev :=
    advance_ok (hi ▸ h.shard i) ha hk hadv
  have hframe : ∀ j, j ≠ i → ShardInv s' j (holder j) ∧
      s'.owned j (holder j) = s.owned j (holder j) ∧
        ∀ k, s'.view j (holder j) k = s.view j (holder j) k := by
    intro j hj
    refine (h.shard j).frame (hok.shards_eq j hj) fun t ht ↦ hok.mem_eq t ?_
    exact Multiset.mem_sum.mpr ⟨j, by simpa using hj, ht⟩
  refine ⟨⟨fun j ↦ ?_, ?_⟩, hok, fun j hj ↦ (hframe j hj).2⟩
  · by_cases hj : j = i
    · subst hj
      rw [Function.update_self]
      exact hok.inv
    · rw [Function.update_of_ne hj]
      exact (hframe j hj).1
  · obtain ⟨pages', ha'⟩ := hok.books
    have hrest : ∑ j ∈ ({i}ᶜ : Finset (Fin (n + 1))),
        s'.owned j (Function.update holder i (some pc') j) = s.others holder i := by
      refine Finset.sum_congr rfl fun j hj ↦ ?_
      have hj' : j ≠ i := by simpa using hj
      rw [Function.update_of_ne hj', (hframe j hj').2.1]
    refine ⟨pages', ?_⟩
    rw [Fintype.sum_eq_add_sum_compl i, hrest, Function.update_self]
    exact ha'

/-- An empty store is in order. -/
theorem books_init (arena : Arena) (n : ℕ) : Books (init arena n) fun _ ↦ none := by
  refine ⟨fun i ↦ ⟨?_, ?_, ClockEvictor.wf_empty, rfl, trivial⟩, [], ?_⟩
  · intro k p hp
    simp [live, init] at hp
  · intro k hk
    simp [init] at hk
  · have hsum : ∑ i : Fin (n + 1), (init arena n).owned i none = 0 :=
      Finset.sum_eq_zero fun i _ ↦ rfl
    rw [hsum]
    exact accounts_init arena

end LocalStore

end Pensieve
