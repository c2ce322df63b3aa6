import Mathlib.Logic.Relation
import Pensieve.Storage.LocalStore

/-!
# The steps of a call

While a call of the local store runs it holds its shard's mutex, so what other
calls can observe of it are its calls into the shared allocator.  This file cuts
`put`, `get` and `del` there: a step is one `allocate` or `deallocate`, or the
code between two of them, which touches nothing but the locked shard and slots
the call owns.

`Pc` is where a call stands, with the local variables that are live there, and
`advance` takes one step.  `exec_advances` says that the steps, taken one after
the other, are the calls of `Pensieve.Storage.LocalStore`.

A step reports the slots whose bytes it reads or writes (`touch`), the slot it
gets from the allocator (`take`) and the slot it returns to it (`give`).
-/

namespace Pensieve

open Foundation

/-- Where a call stands. -/
inductive Pc where
  | /-- The mutex is held, nothing is done yet. -/
    start (op : Op)
  | /-- `put` has untracked the old entry and is about to free it. -/
    putFree (key value : Bytes) (old size : ℕ)
  | /-- `put` has freed the old entry and is about to erase it from the map. -/
    putErase (key value : Bytes) (old : ℕ)
  | /-- `put` is at the head of its loop. -/
    putAlloc (key value : Bytes) (attempts : ℕ)
  | /-- `put` got no slot and is about to evict. -/
    putEvict (key value : Bytes) (attempts : ℕ)
  | /-- `put` has evicted an entry and is about to free it. -/
    putFreeVictim (key value : Bytes) (attempts victim size : ℕ)
  | /-- `put` has a slot and is about to store the entry. -/
    putStore (key value : Bytes) (ptr : ℕ)
  | /-- `del` has untracked the entry and is about to free it. -/
    delFree (key : Bytes) (entry size : ℕ)
  | /-- `del` has freed the entry and is about to erase it from the map. -/
    delErase (key : Bytes) (entry : ℕ)
  | /-- The call is about to return. -/
    finish (key : Bytes) (ret : Ret)
deriving DecidableEq, Repr

/-- The key a call is about. -/
def Pc.key : Pc → Bytes
  | .start op => op.key
  | .putFree k _ _ _ | .putErase k _ _ | .putAlloc k _ _ | .putEvict k _ _
  | .putFreeVictim k _ _ _ _ | .putStore k _ _ | .delFree k _ _ | .delErase k _
  | .finish k _ => k

/-- What a step does with slots. -/
inductive SlotEvent where
  | touch (p : ℕ)
  | take (p : ℕ)
  | give (p : ℕ)
deriving DecidableEq, Repr

namespace LocalStore

variable {n : ℕ}

/-- One step of a call on its shard `i`.  A call that is about to return takes no
further step. -/
def advance (s : LocalStore n) (i : Fin (n + 1)) :
    Pc → Option (LocalStore n × Pc × List SlotEvent)
  | .start (.put k v) =>
    match (s.shards i).map.lookup k with
    | some old =>
      some (s.untrack i old, .putFree k v old (SlabEntry.storedSize s.mem old), [.touch old])
    | none => some (s, .putAlloc k v (kMaxEvictAttempts + 1), [])
  | .putFree k v old size => some (s.deallocate old size, .putErase k v old, [.give old])
  | .putErase k v _ => some (s.eraseKey i k, .putAlloc k v (kMaxEvictAttempts + 1), [])
  | .putAlloc k _ 0 => some (s, .finish k (.put false), [])
  | .putAlloc k v (attempts + 1) =>
    match s.allocate (SlabEntry.requiredSize k.length v.length) with
    | (some p, s) => some (s, .putStore k v p, [.take p])
    | (none, s) => some (s, .putEvict k v attempts, [])
  | .putEvict k v attempts =>
    -- the sweep may look at any tracked entry
    let touched := (s.shards i).evictor.ring.map SlotEvent.touch
    match s.evictOne i with
    | (none, s) => some (s, .finish k (.put false), touched)
    | (some victim, s) =>
      some (s.eraseKey i (SlabEntry.key s.mem victim),
        .putFreeVictim k v attempts victim (SlabEntry.storedSize s.mem victim), touched)
  | .putFreeVictim k v attempts victim size =>
    some (s.deallocate victim size, .putAlloc k v attempts, [.give victim])
  | .putStore k v p => some (s.storeEntry i p k v, .finish k (.put true), [.touch p])
  | .start (.get k) =>
    match (s.shards i).map.lookup k with
    | none => some (s, .finish k (.get none), [])
    | some entry =>
      let s := { s with mem := SlabEntry.setAccessBit s.mem entry 1 }
      some (s, .finish k (.get (some (SlabEntry.value s.mem entry))), [.touch entry])
  | .start (.del k) =>
    match (s.shards i).map.lookup k with
    | none => some (s, .finish k (.del false), [])
    | some entry =>
      some (s.untrack i entry, .delFree k entry (SlabEntry.storedSize s.mem entry),
        [.touch entry])
  | .delFree k entry size => some (s.deallocate entry size, .delErase k entry, [.give entry])
  | .delErase k _ => some (s.eraseKey i k, .finish k (.del true), [])
  | .finish _ _ => none

/-- Some number of steps of one call, nothing else running. -/
def Advances (i : Fin (n + 1)) : LocalStore n × Pc → LocalStore n × Pc → Prop :=
  Relation.ReflTransGen fun x y ↦ ∃ ev, x.1.advance i x.2 = some (y.1, y.2, ev)

/-- A step is about the key its call is about. -/
theorem advance_key {s s' : LocalStore n} {i : Fin (n + 1)} {pc pc' : Pc} {ev : List SlotEvent}
    (h : s.advance i pc = some (s', pc', ev)) : pc'.key = pc.key := by
  unfold advance at h
  split at h <;> (try split at h) <;> cases h <;> rfl

/-- A step that touches slots returns none. -/
theorem advance_touch {s s' : LocalStore n} {i : Fin (n + 1)} {pc pc' : Pc}
    {ev : List SlotEvent} {p q : ℕ} (h : s.advance i pc = some (s', pc', ev))
    (ht : .touch p ∈ ev) : .give q ∉ ev := by
  unfold advance at h
  split at h <;> (try split at h) <;> cases h <;> simp_all

/-! ## The steps are the calls -/

section

variable {i : Fin (n + 1)} {s : LocalStore n} {pc : Pc} {x : LocalStore n × Pc}

/-- The last step of a call. -/
theorem Advances.single {ev : List SlotEvent} (h : s.advance i pc = some (x.1, x.2, ev)) :
    Advances i (s, pc) x :=
  Relation.ReflTransGen.single ⟨ev, h⟩

/-- A step, and the rest of the call. -/
theorem Advances.head (s₁ : LocalStore n) (pc₁ : Pc) {ev : List SlotEvent}
    (h : s.advance i pc = some (s₁, pc₁, ev)) (hx : Advances i (s₁, pc₁) x) :
    Advances i (s, pc) x :=
  Relation.ReflTransGen.head ⟨ev, h⟩ hx

/-- How `put` ends, given the outcome of its allocation loop. -/
def putEnd (i : Fin (n + 1)) (k v : Bytes) : Option ℕ × LocalStore n → LocalStore n × Pc
  | (none, s) => (s, .finish k (.put false))
  | (some p, s) => (s.storeEntry i p k v, .finish k (.put true))

/-- The allocation loop of `put`, and what follows it. -/
theorem allocLoop_advances (k v : Bytes) (attempts : ℕ) (s : LocalStore n) :
    Advances i (s, .putAlloc k v attempts)
      (putEnd i k v (allocLoop i (SlabEntry.requiredSize k.length v.length) attempts s)) := by
  induction attempts generalizing s with
  | zero => exact Advances.single rfl
  | succ attempts ih =>
      unfold allocLoop
      rcases ha : s.allocate (SlabEntry.requiredSize k.length v.length) with ⟨_ | p, s₁⟩
      · refine Advances.head s₁ (.putEvict k v attempts) (by simp only [advance, ha]; rfl) ?_
        rcases he : s₁.evictOne i with ⟨_ | victim, s₂⟩
        · exact Advances.single (by simp only [advance, he, putEnd]; rfl)
        · simp only [he]
          refine Advances.head (s₂.eraseKey i (SlabEntry.key s₂.mem victim))
            (.putFreeVictim k v attempts victim (SlabEntry.storedSize s₂.mem victim))
            (by simp only [advance, he]; rfl) ?_
          exact Advances.head _ _ rfl (ih _)
      · refine Advances.head s₁ (.putStore k v p) (by simp only [advance, ha]; rfl) ?_
        exact Advances.single rfl

theorem putEnd_eq_exec (s : LocalStore n) (k v : Bytes) :
    putEnd (shardFor n k) k v (allocLoop (shardFor n k)
        (SlabEntry.requiredSize k.length v.length) (kMaxEvictAttempts + 1)
        (s.dropOld (shardFor n k) k))
      = ((s.exec (.put k v)).2, .finish k (s.exec (.put k v)).1) := by
  simp only [exec, put]
  rcases allocLoop (shardFor n k) _ _ (s.dropOld (shardFor n k) k) with ⟨_ | p, s'⟩ <;> rfl

/-- A call, run alone, takes its steps one after the other. -/
theorem exec_advances (s : LocalStore n) (op : Op) :
    Advances (shardFor n op.key) (s, .start op) ((s.exec op).2, .finish op.key (s.exec op).1) := by
  cases op with
  | put k v =>
      simp only [Op.key]
      rw [← putEnd_eq_exec]
      rcases hl : (s.shards (shardFor n k)).map.lookup k with _ | old
      · rw [show s.dropOld (shardFor n k) k = s by rw [dropOld, hl]]
        exact Advances.head s (.putAlloc k v (kMaxEvictAttempts + 1))
          (by simp only [advance, hl]; rfl) (allocLoop_advances _ _ _ _)
      · rw [show s.dropOld (shardFor n k) k = ((s.untrack (shardFor n k) old).deallocate old
          (SlabEntry.storedSize s.mem old)).eraseKey (shardFor n k) k by rw [dropOld, hl]]
        refine Advances.head (s.untrack (shardFor n k) old)
          (.putFree k v old (SlabEntry.storedSize s.mem old)) (by simp only [advance, hl]; rfl) ?_
        refine Advances.head _ _ rfl ?_
        exact Advances.head _ _ rfl (allocLoop_advances _ _ _ _)
  | get k =>
      simp only [Op.key]
      rcases hl : (s.shards (shardFor n k)).map.lookup k with _ | entry
      · exact Advances.single (by simp only [advance, hl, exec, get]; rfl)
      · exact Advances.single (by simp only [advance, hl, exec, get]; rfl)
  | del k =>
      simp only [Op.key]
      rcases hl : (s.shards (shardFor n k)).map.lookup k with _ | entry
      · exact Advances.single (by simp only [advance, hl, exec, del]; rfl)
      · refine Advances.head (s.untrack (shardFor n k) entry)
          (.delFree k entry (SlabEntry.storedSize s.mem entry)) (by simp only [advance, hl]; rfl) ?_
        refine Advances.head _ _ rfl ?_
        exact Advances.single (by simp only [advance, hl, exec, del]; rfl)

end

end LocalStore

end Pensieve
