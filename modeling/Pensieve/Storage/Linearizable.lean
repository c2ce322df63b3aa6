import Pensieve.Foundation.Linearizable
import Pensieve.Storage.Interleaving
import Pensieve.Storage.Refinement

/-!
# The store is linearizable

`Pensieve.Storage.Refinement` is about calls made one after the other.  Here any
number of threads call the store at once, as in `Pensieve.Storage.Interleaving`,
and what they are told is what a single lossy map would have told them: the calls,
in the order in which they give up their mutexes, are a run of `Answers`.

A call takes effect where it gives up its shard's mutex.  Until then its shard shows
work in progress, which `Midway` describes place by place; the other shards show what
the calls before have left.  From then on others can see what it did, though it may
not have returned yet.
-/

namespace Pensieve.Interleaving

open Foundation SlabAllocator LocalStore

/-- What a lossy map answers.  `get` and `del` are exact; a `put` may fail, in which case the key
has no value any more, and it may cost other keys of the same shard theirs. -/
inductive Answers (n : ℕ) :
    (Bytes → Option Bytes) → Op → Ret → (Bytes → Option Bytes) → Prop
  | get (m : Bytes → Option Bytes) (k : Bytes) : Answers n m (.get k) (.get (m k)) m
  | del (m : Bytes → Option Bytes) (k : Bytes) :
      Answers n m (.del k) (.del (m k).isSome) (Function.update m k none)
  | put {m m' : Bytes → Option Bytes} {k v : Bytes} (ok : Bool)
      (own : m' k = if ok then some v else none)
      (others : ∀ j, j ≠ k → m' j = m j ∨ m' j = none ∧ shardFor n j = shardFor n k) :
      Answers n m (.put k v) (.put ok) m'

/-- The calls that a trace shows. -/
def callEvent {τ : Type*} : Event τ → Option (CallEvent τ Op Ret)
  | .invoke t op => some (.invoke t op)
  | .slot _ _ => none
  | .ret t r => some (.ret t r)

/-! ## A call in progress -/

section

variable {n : ℕ} {m w : Bytes → Option Bytes} {op : Op} {k : Bytes} {pc pc' : Pc}

/-- The shard of `k` shows the map. -/
def Shows (n : ℕ) (m w : Bytes → Option Bytes) (k : Bytes) : Prop :=
  ∀ j, shardFor n j = shardFor n k → w j = m j

/-- The shard of `k` shows the map, but not `k`. -/
def ShowsBut (n : ℕ) (m w : Bytes → Option Bytes) (k : Bytes) : Prop :=
  ∀ j, shardFor n j = shardFor n k → j ≠ k → w j = m j

/-- The shard of `k` shows what has not been evicted of the map, `k` apart. -/
def ShowsRest (n : ℕ) (m w : Bytes → Option Bytes) (k : Bytes) : Prop :=
  ∀ j, shardFor n j = shardFor n k → j ≠ k → w j = m j ∨ w j = none

/-- What the shard of a running call shows, when the calls before have led to `m` and the call
was made for `op`. -/
def Midway (n : ℕ) (m w : Bytes → Option Bytes) (op : Op) : Pc → Prop
  | .start op' => op = op' ∧ Shows n m w op.key
  | .putFree k v _ _ => op = .put k v ∧ Shows n m w k
  | .putErase k v _ | .putAlloc k v _ | .putEvict k v _ | .putFreeVictim k v _ _ _
  | .putStore k v _ => op = .put k v ∧ w k = none ∧ ShowsRest n m w k
  | .delFree k _ _ => op = .del k ∧ (m k).isSome = true ∧ Shows n m w k
  | .delErase k _ => op = .del k ∧ (m k).isSome = true ∧ w k = none ∧ ShowsBut n m w k
  | .finish k (.put ok) =>
    ∃ v, op = .put k v ∧ w k = (if ok then some v else none) ∧ ShowsRest n m w k
  | .finish k (.get r) => op = .get k ∧ r = m k ∧ Shows n m w k
  | .finish k (.del ok) => op = .del k ∧ ok = (m k).isSome ∧ w k = none ∧ ShowsBut n m w k

/-- A call in progress is about its own shard. -/
theorem Midway.congr {m' w' : Bytes → Option Bytes} (h : Midway n m w op pc)
    (hm : ∀ j, shardFor n j = shardFor n pc.key → m' j = m j)
    (hw : ∀ j, shardFor n j = shardFor n pc.key → w' j = w j) : Midway n m' w' op pc := by
  have shows : ∀ {k}, pc.key = k → Shows n m w k → Shows n m' w' k := by
    rintro k rfl hs j hj
    rw [hm j hj, hw j hj, hs j hj]
  have showsBut : ∀ {k}, pc.key = k → ShowsBut n m w k → ShowsBut n m' w' k := by
    rintro k rfl hs j hj hne
    rw [hm j hj, hw j hj, hs j hj hne]
  have showsRest : ∀ {k}, pc.key = k → ShowsRest n m w k → ShowsRest n m' w' k := by
    rintro k rfl hs j hj hne
    rw [hm j hj, hw j hj]
    exact hs j hj hne
  have hmk := hm pc.key rfl
  have hwk := hw pc.key rfl
  cases pc with
  | start op' =>
      obtain ⟨rfl, hs⟩ := h
      exact ⟨rfl, shows rfl hs⟩
  | putFree k v old size => exact ⟨h.1, shows rfl h.2⟩
  | putErase k v old => exact ⟨h.1, hwk.trans h.2.1, showsRest rfl h.2.2⟩
  | putAlloc k v attempts => exact ⟨h.1, hwk.trans h.2.1, showsRest rfl h.2.2⟩
  | putEvict k v attempts => exact ⟨h.1, hwk.trans h.2.1, showsRest rfl h.2.2⟩
  | putFreeVictim k v attempts victim size =>
      exact ⟨h.1, hwk.trans h.2.1, showsRest rfl h.2.2⟩
  | putStore k v p => exact ⟨h.1, hwk.trans h.2.1, showsRest rfl h.2.2⟩
  | delFree k entry size => exact ⟨h.1, (congrArg _ hmk).trans h.2.1, shows rfl h.2.2⟩
  | delErase k entry =>
      exact ⟨h.1, (congrArg _ hmk).trans h.2.1, hwk.trans h.2.2.1, showsBut rfl h.2.2.2⟩
  | finish k ret =>
      cases ret with
      | put ok =>
          obtain ⟨v, hop, hk, hrest⟩ := h
          exact ⟨v, hop, hwk.trans hk, showsRest rfl hrest⟩
      | get r => exact ⟨h.1, h.2.1.trans hmk.symm, shows rfl h.2.2⟩
      | del ok =>
          exact ⟨h.1, h.2.1.trans (congrArg _ hmk.symm), hwk.trans h.2.2.1, showsBut rfl h.2.2.2⟩

/-- What a call that is about to return has done is what the map answers. -/
theorem Midway.answers {r : Ret} (h : Midway n m w op (.finish k r)) :
    Answers n m op r fun j ↦ if shardFor n j = shardFor n k then w j else m j := by
  cases r with
  | put ok =>
      obtain ⟨v, rfl, hk, hrest⟩ := h
      refine .put ok (by rw [if_pos rfl, hk]) fun j hne ↦ ?_
      split
      · exact (hrest j ‹_› hne).imp id fun hn ↦ ⟨hn, ‹_›⟩
      · exact Or.inl rfl
  | get r =>
      obtain ⟨rfl, rfl, hs⟩ := h
      convert Answers.get m k using 1
      funext j
      split
      · exact hs j ‹_›
      · rfl
  | del ok =>
      obtain ⟨rfl, rfl, hk, hs⟩ := h
      convert Answers.del m k using 1
      funext j
      rcases eq_or_ne j k with rfl | hne
      · rw [Function.update_self, if_pos rfl, hk]
      · rw [Function.update_of_ne hne]
        split
        · exact hs j ‹_› hne
        · rfl

end

end Pensieve.Interleaving

/-! ## The steps of a call -/

namespace Pensieve.LocalStore

open Foundation SlabAllocator Interleaving

section

variable {n : ℕ} {m : Bytes → Option Bytes} {op : Op} {k : Bytes} {pc pc' : Pc}
  {s s' : LocalStore n} {i : Fin (n + 1)} {rest : Multiset Slot} {ev : List SlotEvent}

theorem view_eq_none_iff {pc : Option Pc} :
    s.view i pc k = none ↔ (live pc (s.shards i).map).lookup k = none := by
  rw [view, Option.map_eq_none_iff]

/-- Only storing an entry gives a key a value. -/
theorem StepOK.same_or_none (h : StepOK i rest s pc s' pc' ev)
    (hpc : ∀ v p, pc ≠ .putStore k v p) :
    s'.view i (some pc') k = s.view i (some pc) k ∨ s'.view i (some pc') k = none := by
  rcases h.view_eq k with heq | hnone | ⟨v, p, rfl, -⟩
  · exact Or.inl heq
  · exact Or.inr hnone
  · exact absurd rfl (hpc v p)

/-- A key that a step leaves where it was keeps its value. -/
theorem StepOK.view_same (h : StepOK i rest s pc s' pc' ev)
    (hpc : ∀ v p, pc ≠ .putStore k v p)
    (hl : (live (some pc') (s'.shards i).map).lookup k
      = (live (some pc) (s.shards i).map).lookup k) :
    s'.view i (some pc') k = s.view i (some pc) k := by
  rcases h.same_or_none hpc with heq | hnone
  · exact heq
  · rw [hnone, eq_comm, view_eq_none_iff, ← hl]
    exact view_eq_none_iff.mp hnone

/-- The other keys of the shard may get lost. -/
theorem StepOK.showsRest (h : StepOK i rest s pc s' pc' ev) (hk : pc.key = k)
    (hs : ShowsRest n m (s.view i (some pc)) k) : ShowsRest n m (s'.view i (some pc')) k := by
  intro j hj hne
  rcases h.same_or_none (k := j) (by rintro v p rfl; exact hne hk) with heq | hnone
  · rw [heq]
    exact hs j hj hne
  · exact Or.inr hnone

/-- A `put` that has dropped the old entry and has not yet stored the new one. -/
theorem StepOK.dropped (h : StepOK i rest s pc s' pc' ev) (hk : pc.key = k)
    (hpc : ∀ v p, pc ≠ .putStore k v p)
    (hs : s.view i (some pc) k = none ∧ ShowsRest n m (s.view i (some pc)) k) :
    s'.view i (some pc') k = none ∧ ShowsRest n m (s'.view i (some pc')) k := by
  refine ⟨?_, h.showsRest hk hs.2⟩
  rcases h.same_or_none hpc with heq | hnone
  · exact heq.trans hs.1
  · exact hnone

/-- Before the call has changed its shard. -/
theorem StepOK.shows (h : StepOK i rest s pc s' pc' ev) (hpc : ∀ j v p, pc ≠ .putStore j v p)
    (hl : live (some pc') (s'.shards i).map = live (some pc) (s.shards i).map)
    (hs : Shows n m (s.view i (some pc)) k) : Shows n m (s'.view i (some pc')) k := by
  intro j hj
  rw [h.view_same (hpc j) (by rw [hl])]
  exact hs j hj

theorem showsRest_of_shows {w : Bytes → Option Bytes} (h : Shows n m w k) : ShowsRest n m w k :=
  fun j hj _ ↦ Or.inl (h j hj)

/-- The first step of a call. -/
theorem midway_of_start (h : Midway n m (s.view i (some (.start op))) op (.start op))
    (hok : StepOK i rest s (.start op) s' pc' ev)
    (hadv : s.advance i (.start op) = some (s', pc', ev)) :
    Midway n m (s'.view i (some pc')) op pc' := by
  obtain ⟨-, hs⟩ := h
  have hown : (s.view i (some (.start op))) op.key = m op.key := hs _ rfl
  have hshows := fun hl ↦ hok.shows (by rintro j v p ⟨⟩) hl hs
  cases op with
  | put k v =>
      simp only [advance] at hadv
      split at hadv
      · cases hadv
        exact ⟨rfl, hshows (by simp [live, untrack])⟩
      · cases hadv
        exact ⟨rfl, view_eq_none_iff.mpr ‹_›, showsRest_of_shows hs⟩
  | get k =>
      simp only [advance] at hadv
      split at hadv
      · rename_i hl
        cases hadv
        exact ⟨rfl, ((view_eq_none_iff.mpr hl).symm.trans hown :), hs⟩
      · rename_i p hl
        cases hadv
        have hs' := hshows rfl
        refine ⟨rfl, ?_, hs'⟩
        rw [← hs' k rfl]
        simp only [view, live, hl, Option.map_some]
  | del k =>
      simp only [advance] at hadv
      split at hadv
      · rename_i hl
        cases hadv
        have hnone : s.view i (some (.start (.del k))) k = none := view_eq_none_iff.mpr hl
        refine ⟨rfl, ?_, hnone, fun j hj _ ↦ hs j hj⟩
        rw [← show _ = m k from hown]
        exact (congrArg Option.isSome hnone).symm
      · rename_i p hl
        cases hadv
        refine ⟨rfl, ?_, hshows (by simp [live, untrack])⟩
        rw [← show _ = m k from hown]
        simp only [Op.key, view, live, hl, Option.map_some, Option.isSome_some]

/-- **A step of a call.** -/
theorem midway_of_advance (h : Midway n m (s.view i (some pc)) op pc)
    (hinv : ShardInv s i (some pc)) (hok : StepOK i rest s pc s' pc' ev)
    (hadv : s.advance i pc = some (s', pc', ev)) :
    Midway n m (s'.view i (some pc')) op pc' := by
  cases pc with
  | start op' =>
      obtain rfl := h.1
      exact midway_of_start h hok hadv
  | putFree k v old size =>
      cases hadv
      obtain ⟨rfl, hs⟩ := h
      exact ⟨rfl, view_eq_none_iff.mpr (AList.lookup_erase _ _),
        hok.showsRest rfl (showsRest_of_shows hs)⟩
  | putErase k v old =>
      cases hadv
      exact ⟨h.1, hok.dropped rfl (by rintro _ _ ⟨⟩) h.2⟩
  | putAlloc k v attempts =>
      have hdropped := hok.dropped rfl (by rintro _ _ ⟨⟩) h.2
      cases attempts with
      | zero =>
          cases hadv
          exact ⟨v, h.1, hdropped⟩
      | succ attempts =>
          simp only [advance] at hadv
          split at hadv <;> cases hadv <;> exact ⟨h.1, hdropped⟩
  | putEvict k v attempts =>
      have hdropped := hok.dropped rfl (by rintro _ _ ⟨⟩) h.2
      simp only [advance] at hadv
      split at hadv
      · cases hadv
        exact ⟨v, h.1, hdropped⟩
      · cases hadv
        exact ⟨h.1, hdropped⟩
  | putFreeVictim k v attempts victim size =>
      cases hadv
      exact ⟨h.1, hok.dropped rfl (by rintro _ _ ⟨⟩) h.2⟩
  | putStore k v p =>
      cases hadv
      obtain ⟨hk, hfit⟩ := hinv.stage
      exact ⟨v, h.1, view_storeEntry (AList.lookup_eq_none.mpr hk) (classForSize_lt_iff.mp hfit),
        hok.showsRest rfl h.2.2⟩
  | delFree k entry size =>
      cases hadv
      obtain ⟨rfl, hbound, hs⟩ := h
      refine ⟨rfl, hbound, view_eq_none_iff.mpr (AList.lookup_erase _ _), fun j hj hne ↦ ?_⟩
      rw [hok.view_same (by rintro _ _ ⟨⟩) (AList.lookup_erase_ne hne)]
      exact hs j hj
  | delErase k entry =>
      cases hadv
      obtain ⟨rfl, hbound, hk, hs⟩ := h
      have hsame : ∀ j, (s.eraseKey i k).view i (some (.finish k (.del true))) j
          = s.view i (some (.delErase k entry)) j := fun j ↦
        hok.view_same (by rintro _ _ ⟨⟩) (by simp [live, eraseKey])
      exact ⟨rfl, hbound.symm, (hsame k).trans hk, fun j hj hne ↦ (hsame j).trans (hs j hj hne)⟩
  | finish k r => cases hadv

end

end Pensieve.LocalStore

/-! ## Every run -/

namespace Pensieve.Interleaving.Sys

open Foundation SlabAllocator LocalStore

variable {n : ℕ} {τ : Type*} [DecidableEq τ] {c c' : Sys n τ} {tr : List (Event τ)} {t : τ}
  {m : Bytes → Option Bytes}

/-- The calls that have given up their mutexes lead to `m`, in `order`; what a shard shows is what
its holder has made of `m`, and `m` itself if it is not held. -/
structure Lin (c : Sys n τ) (tr : List (Event τ)) (order : List (Call τ Op Ret))
    (m : Bytes → Option Bytes) : Prop where
  linear : Linearization (Answers n) (fun _ ↦ none) (tr.filterMap callEvent) order m
  waiting : ∀ t op, c.thread t = .waiting op → ∃ i, Pending (tr.filterMap callEvent) t op i
  running : ∀ t pc, c.thread t = .running pc → ∃ op i, Pending (tr.filterMap callEvent) t op i ∧
    Midway n m (c.store.view (shardFor n pc.key) (some pc)) op pc
  returning : ∀ t r, c.thread t = .returning r → ∃ op i, ⟨t, op, r, i, none⟩ ∈ order
  pending : ∀ x ∈ order, x.returned = none → c.thread x.thread = .returning x.ret
  free : ∀ k, c.mu (shardFor n k) = none → c.store.contents k = m k

variable {order : List (Call τ Op Ret)}

omit [DecidableEq τ] in
/-- A thread that is not about to return has no call in the order that is pending. -/
theorem Lin.thread_ne (h : Lin c tr order m) (ht : ∀ r, c.thread t ≠ .returning r) :
    ∀ x ∈ order, x.returned = none → x.thread ≠ t := by
  rintro x hx hnone rfl
  exact ht _ (h.pending x hx hnone)

/-- The threads that are about to return, after another one has moved. -/
theorem Lin.moved {y : Thread} (h : Lin c tr order m) (ht : ∀ r, c.thread t ≠ .returning r)
    (hy : ∀ r, y ≠ .returning r) :
    (∀ t' r, Function.update c.thread t y t' = .returning r →
        ∃ op i, ⟨t', op, r, i, none⟩ ∈ order) ∧
      ∀ x ∈ order, x.returned = none →
        Function.update c.thread t y x.thread = .returning x.ret := by
  refine ⟨fun t' r ht' ↦ ?_, fun x hx hnone ↦ ?_⟩
  · rcases eq_or_ne t' t with rfl | hne
    · rw [Function.update_self] at ht'
      exact absurd ht' (hy r)
    · rw [Function.update_of_ne hne] at ht'
      exact h.returning t' r ht'
  · rw [Function.update_of_ne (h.thread_ne ht x hx hnone)]
    exact h.pending x hx hnone

omit [DecidableEq τ] in
theorem callEvents_slot (tr : List (Event τ)) (t : τ) (ev : List SlotEvent) :
    (tr ++ ev.map (Event.slot t)).filterMap callEvent = tr.filterMap callEvent := by
  simp [List.filterMap_append, List.filterMap_map, Function.comp_def, callEvent]

omit [DecidableEq τ] in
/-- Two running calls are on different shards. -/
theorem Inv.shard_ne {t' : τ} {pc pc' : Pc} (h : Inv c tr) (ht : c.thread t = .running pc)
    (ht' : c.thread t' = .running pc') (hne : t' ≠ t) :
    shardFor n pc'.key ≠ shardFor n pc.key := by
  intro heq
  have hmu := h.locked t' pc' ht'
  rw [heq, h.locked t pc ht, Option.some.injEq] at hmu
  exact hne hmu.symm

theorem Lin.invoke {op : Op} (h : Lin c tr order m) (ht : c.thread t = .idle) :
    Lin { c with thread := Function.update c.thread t (.waiting op) } (tr ++ [.invoke t op])
      order m := by
  have htr : (tr ++ [Event.invoke t op]).filterMap callEvent
      = tr.filterMap callEvent ++ [.invoke t op] := by simp [callEvent]
  have hidle : ∀ r, c.thread t ≠ .returning r := by simp [ht]
  obtain ⟨hreturning, hpending⟩ := h.moved (y := .waiting op) hidle (by simp)
  refine ⟨htr ▸ h.linear.invoke (h.thread_ne hidle), fun t' op' ht' ↦ ?_, fun t' pc ht' ↦ ?_,
    hreturning, hpending, h.free⟩
  · rw [htr]
    rcases eq_or_ne t' t with rfl | hne
    · obtain rfl : op = op' := by simpa using ht'
      exact ⟨_, pending_concat_invoke _ _ _⟩
    · obtain ⟨i, hi⟩ := h.waiting t' op' (by simpa [hne] using ht')
      exact ⟨i, hi.concat hne.symm⟩
  · obtain ⟨hne, ht'⟩ := thread_of_update ht' (by simp)
    obtain ⟨op', i, hi, hmid⟩ := h.running t' pc ht'
    rw [htr]
    exact ⟨op', i, hi.concat hne.symm, hmid⟩

theorem Lin.lock {op : Op} {i : Fin (n + 1)} (h : Lin c tr order m)
    (ht : c.thread t = .waiting op) (hi : shardFor n op.key = i) (hmu : c.mu i = none) :
    Lin { c with
      mu := Function.update c.mu i (some t)
      thread := Function.update c.thread t (.running (.start op)) } tr order m := by
  obtain ⟨hreturning, hpending⟩ :=
    h.moved (t := t) (y := .running (.start op)) (by simp [ht]) (by simp)
  refine ⟨h.linear, fun t' op' ht' ↦ ?_, fun t' pc ht' ↦ ?_, hreturning, hpending, fun k hk ↦ ?_⟩
  · obtain ⟨-, ht'⟩ := thread_of_update ht' (by simp)
    exact h.waiting t' op' ht'
  · rcases eq_or_ne t' t with rfl | hne
    · obtain rfl : .start op = pc := by simpa using ht'
      obtain ⟨j, hj⟩ := h.waiting t' op ht
      refine ⟨op, j, hj, rfl, fun k hk ↦ ?_⟩
      rw [← h.free k (by rw [hk, hi, hmu]), contents, hk]
      rfl
    · exact h.running t' pc (by simpa [hne] using ht')
  · rcases eq_or_ne (shardFor n k) i with hki | hki
    · simp [hki] at hk
    · exact h.free k (by simpa [hki] using hk)

theorem Lin.advance {pc pc' : Pc} {i : Fin (n + 1)} {s : LocalStore n} {ev : List SlotEvent}
    (h : Lin c tr order m) (hinv : Inv c tr) (ht : c.thread t = .running pc)
    (hi : shardFor n pc.key = i) (hadv : c.store.advance i pc = some (s, pc', ev)) :
    Lin { c with store := s, thread := Function.update c.thread t (.running pc') }
      (tr ++ ev.map (Event.slot t)) order m := by
  subst hi
  have hholder := holder_of_running (hinv.locked t pc ht) ht
  obtain ⟨-, hok, hother⟩ := hinv.books.advance hholder rfl hadv
  have hshard : ShardInv c.store (shardFor n pc.key) (some pc) := hholder ▸ hinv.books.shard _
  obtain ⟨hreturning, hpending⟩ := h.moved (t := t) (y := .running pc') (by simp [ht]) (by simp)
  refine ⟨by rw [callEvents_slot]; exact h.linear, fun t' op' ht' ↦ ?_, fun t' pc'' ht' ↦ ?_,
    hreturning, hpending, fun k hk ↦ ?_⟩
  · obtain ⟨-, ht'⟩ := thread_of_update ht' (by simp)
    rw [callEvents_slot]
    exact h.waiting t' op' ht'
  · rw [callEvents_slot]
    rcases eq_or_ne t' t with rfl | hne
    · obtain rfl : pc' = pc'' := by simpa using ht'
      obtain ⟨op, j, hj, hmid⟩ := h.running t' pc ht
      rw [advance_key hadv]
      exact ⟨op, j, hj, midway_of_advance hmid hshard hok hadv⟩
    · have ht₀ : c.thread t' = .running pc'' := by simpa [hne] using ht'
      obtain ⟨op, j, hj, hmid⟩ := h.running t' pc'' ht₀
      have hview := (hother _ (hinv.shard_ne ht ht₀ hne)).2
      rw [holder_of_running (hinv.locked t' pc'' ht₀) ht₀] at hview
      exact ⟨op, j, hj, hmid.congr (fun _ _ ↦ rfl) fun k _ ↦ hview k⟩
  · have hne : shardFor n k ≠ shardFor n pc.key := by
      intro heq
      have hmu : c.mu (shardFor n k) = none := hk
      rw [heq, hinv.locked t pc ht] at hmu
      cases hmu
    have hnone : c.holder (shardFor n k) = none := by
      rw [holder, show c.mu (shardFor n k) = none from hk]
    have hview := (hother _ hne).2 k
    rw [hnone] at hview
    exact hview.trans (h.free k hk)

/-- A call gives up its mutex, and what it has done to its shard becomes part of the map. -/
theorem Lin.unlock {k : Bytes} {r : Ret} {i : Fin (n + 1)} (h : Lin c tr order m) (hinv : Inv c tr)
    (ht : c.thread t = .running (.finish k r)) (hi : shardFor n k = i) :
    ∃ x, Lin { c with
        mu := Function.update c.mu i none
        thread := Function.update c.thread t (.returning r) } tr (order ++ [x]) fun j ↦
      if shardFor n j = i then c.store.view i (some (.finish k r)) j else m j := by
  subst hi
  obtain ⟨op, i, hpend, hmid⟩ := h.running t _ ht
  have hrunning : ∀ r, c.thread t ≠ .returning r := by simp [ht]
  have hfree := h.thread_ne hrunning
  refine ⟨⟨t, op, r, i, none⟩, h.linear.effect hpend hfree hmid.answers, fun t' op' ht' ↦ ?_,
    fun t' pc ht' ↦ ?_, fun t' r' ht' ↦ ?_, fun x hx hnone ↦ ?_, fun j hj ↦ ?_⟩
  · obtain ⟨-, ht'⟩ := thread_of_update ht' (by simp)
    exact h.waiting t' op' ht'
  · obtain ⟨hne, ht'⟩ := thread_of_update ht' (by simp)
    obtain ⟨op', i', hi', hmid'⟩ := h.running t' pc ht'
    have hshard := hinv.shard_ne ht ht' hne
    rw [show (Pc.finish k r).key = k from rfl] at hshard
    have hother : ∀ j, shardFor n j = shardFor n pc.key →
        (if shardFor n j = shardFor n k then c.store.view (shardFor n k) (some (.finish k r)) j
          else m j) = m j := fun j hj ↦ if_neg (by rw [hj]; exact hshard)
    exact ⟨op', i', hi', hmid'.congr hother fun _ _ ↦ rfl⟩
  · rcases eq_or_ne t' t with rfl | hne
    · obtain rfl : r = r' := by simpa using ht'
      exact ⟨op, i, by simp⟩
    · obtain ⟨op', i', hmem⟩ := h.returning t' r' (by simpa [hne] using ht')
      exact ⟨op', i', List.mem_append_left _ hmem⟩
  · rcases List.mem_append.mp hx with hx | hx
    · exact (Function.update_of_ne (hfree x hx hnone) ..).trans (h.pending x hx hnone)
    · rw [List.mem_singleton.mp hx]
      exact Function.update_self ..
  · split
    · rename_i hjk
      rw [contents, hjk]
      rfl
    · rename_i hjk
      exact h.free j (by simpa [hjk] using hj)

/-- A call returns. -/
theorem Lin.ret {r : Ret} (h : Lin c tr order m) (ht : c.thread t = .returning r) :
    ∃ order', Lin { c with thread := Function.update c.thread t .idle } (tr ++ [.ret t r])
      order' m := by
  have htr : (tr ++ [Event.ret t r]).filterMap callEvent
      = tr.filterMap callEvent ++ [.ret t r] := by simp [callEvent]
  obtain ⟨op, i, hmem⟩ := h.returning t r ht
  refine ⟨_, htr ▸ h.linear.ret hmem, fun t' op' ht' ↦ ?_, fun t' pc ht' ↦ ?_,
    fun t' r' ht' ↦ ?_, fun x hx hnone ↦ ?_, h.free⟩
  · obtain ⟨hne, ht'⟩ := thread_of_update ht' (by simp)
    obtain ⟨i', hi'⟩ := h.waiting t' op' ht'
    rw [htr]
    exact ⟨i', hi'.concat hne.symm⟩
  · obtain ⟨hne, ht'⟩ := thread_of_update ht' (by simp)
    obtain ⟨op', i', hi', hmid⟩ := h.running t' pc ht'
    rw [htr]
    exact ⟨op', i', hi'.concat hne.symm, hmid⟩
  · obtain ⟨hne, ht'⟩ := thread_of_update ht' (by simp)
    obtain ⟨op', i', hmem'⟩ := h.returning t' r' ht'
    refine ⟨op', i', List.mem_map.mpr ⟨_, hmem', Call.finish_of_neg ?_⟩⟩
    exact fun hboth ↦ hne hboth.1
  · obtain ⟨y, hy, rfl⟩ := List.mem_map.mp hx
    by_cases hpending : y.thread = t ∧ y.returned = none
    · rw [Call.finish_of_pos hpending] at hnone
      cases hnone
    · rw [Call.finish_of_neg hpending] at hnone ⊢
      have hne : y.thread ≠ t := fun heq ↦ hpending ⟨heq, hnone⟩
      exact (Function.update_of_ne hne ..).trans (h.pending y hy hnone)

/-- Every run is linearized as it goes. -/
theorem run_lin {arena : Arena} (h : (machine arena n τ).Run c tr) :
    ∃ order m, Lin c tr order m := by
  refine h.invariant (I := fun c tr ↦ ∃ order m, Lin c tr order m) (fun c hc ↦ ?_)
    fun c tr a c' e hrun hlin hs ↦ ?_
  · subst hc
    refine ⟨[], fun _ ↦ none, linearization_nil, ?_, ?_, ?_, ?_, fun k _ ↦ rfl⟩
    · rintro t op ⟨⟩
    · rintro t pc ⟨⟩
    · rintro t r ⟨⟩
    · rintro x ⟨⟩
  · obtain ⟨order, m, hlin⟩ := hlin
    have hinv := run_inv hrun
    obtain ⟨t, op, ht, rfl, rfl⟩ | ⟨t, op, i, ht, hi, hmu, rfl, rfl⟩ |
      ⟨t, pc, i, s, pc', ev, ht, hi, hadv, rfl, rfl⟩ | ⟨t, k, r, i, ht, hi, rfl, rfl⟩ |
      ⟨t, r, ht, rfl, rfl⟩ := step_cases hs
    · exact ⟨order, m, hlin.invoke ht⟩
    · rw [List.append_nil]
      exact ⟨order, m, hlin.lock ht hi hmu⟩
    · exact ⟨order, m, hlin.advance hinv ht hi hadv⟩
    · rw [List.append_nil]
      obtain ⟨x, hlin'⟩ := hlin.unlock hinv ht hi
      exact ⟨_, _, hlin'⟩
    · obtain ⟨order', hlin'⟩ := hlin.ret ht
      exact ⟨order', m, hlin'⟩

/-- **The store is linearizable.**  However the calls of any number of threads are interleaved,
the calls that have returned, with some of those that have not, can be put in an order that
respects real time and in which each of them is answered as a lossy map answers; and a shard that
is not locked holds what that map holds. -/
theorem linearizable_of_run (arena : Arena) (h : (machine arena n τ).Run c tr) :
    ∃ (order : List (Call τ Op Ret)) (m : Bytes → Option Bytes),
      Linearization (Answers n) (fun _ ↦ none) (tr.filterMap callEvent) order m ∧
      ∀ k, c.mu (shardFor n k) = none → c.store.contents k = m k := by
  obtain ⟨order, m, hlin⟩ := run_lin h
  exact ⟨order, m, hlin.linear, hlin.free⟩

/-- A `get` that begins while a `put` of the same key is running, waits for the mutex, and returns
before the `put` does. -/
def overlappingRun : List (Action Bool) :=
  [.invoke true (.put [1] [7]), .lock true, .advance true, .invoke false (.get [1]), .advance true,
    .advance true, .unlock true, .lock false, .advance false, .unlock false, .ret false]

/-- The `get` has the value of the `put`, which is pending. -/
theorem linearizable_of_run_overlapping :
    ∃ (c : Sys 1 Bool) (tr : List (Event Bool)),
      (machine ⟨kPageSize, false⟩ 1 Bool).exec
        ⟨LocalStore.init ⟨kPageSize, false⟩ 1, fun _ ↦ none, fun _ ↦ .idle⟩ overlappingRun
          = some (c, tr) ∧
      tr.filterMap callEvent = [.invoke true (.put [1] [7]), .invoke false (.get [1]),
        .ret false (.get (some [7]))] ∧
      ∃ (order : List (Call Bool Op Ret)) (m : Bytes → Option Bytes),
        Linearization (Answers 1) (fun _ ↦ none) (tr.filterMap callEvent) order m ∧
        ∀ k, c.mu (shardFor 1 k) = none → c.store.contents k = m k := by
  have hcalls : ((machine ⟨kPageSize, false⟩ 1 Bool).exec
      ⟨LocalStore.init ⟨kPageSize, false⟩ 1, fun _ ↦ none, fun _ ↦ .idle⟩
      overlappingRun).map (fun x ↦ x.2.filterMap callEvent) =
      some [.invoke true (.put [1] [7]), .invoke false (.get [1]),
        .ret false (.get (some [7]))] := by
    decide +kernel
  obtain ⟨⟨c, tr⟩, hexec, htr⟩ := Option.map_eq_some_iff.mp hcalls
  have hrun : (machine ⟨kPageSize, false⟩ 1 Bool).Run c ([] ++ tr) :=
    (Machine.Run.init rfl).exec hexec
  exact ⟨c, tr, hexec, htr, linearizable_of_run ⟨kPageSize, false⟩ hrun⟩

end Pensieve.Interleaving.Sys
