import Pensieve.Foundation.Machine
import Pensieve.Storage.Books

/-!
# Interleaved calls

Any number of threads call the store at the same time.  A call waits for the mutex
of its key's shard, takes its steps (`LocalStore.advance`) while it holds it, gives
it up and then returns.  The allocator's mutex makes each `allocate` and each
`deallocate` one step; between two of them a call works on its own shard and on
slots that it owns, so that code is one step as well.

`Sys.Inv` is the invariant of all runs.  Its core is `Books`, at the holders that
the mutexes name; the rest ties mutexes to threads and remembers which slots a
call has returned.
-/

namespace Pensieve.Interleaving

open Foundation SlabAllocator LocalStore

/-- Where a thread stands: in no call, waiting for a mutex, in a call, or behind the destructor of
its `lock_guard` and about to return. -/
inductive Thread where
  | idle
  | waiting (op : Op)
  | running (pc : Pc)
  | returning (r : Ret)

/-- The store, its mutexes and the threads. -/
structure Sys (n : ℕ) (τ : Type*) where
  store : LocalStore n
  mu : Fin (n + 1) → Option τ
  thread : τ → Thread

/-- What a thread can do. -/
inductive Action (τ : Type*) where
  | invoke (t : τ) (op : Op)
  | lock (t : τ)
  | advance (t : τ)
  | unlock (t : τ)
  | ret (t : τ)

/-- What can be seen of a thread. -/
inductive Event (τ : Type*) where
  | invoke (t : τ) (op : Op)
  | slot (t : τ) (e : SlotEvent)
  | ret (t : τ) (r : Ret)

namespace Sys

variable {n : ℕ} {τ : Type*} [DecidableEq τ]

/-- One step of the system. -/
def step (c : Sys n τ) : Action τ → Option (Sys n τ × List (Event τ))
  | .invoke t op =>
    match c.thread t with
    | .idle =>
      some ({ c with thread := Function.update c.thread t (.waiting op) }, [.invoke t op])
    | _ => none
  | .lock t =>
    match c.thread t with
    | .waiting op =>
      match c.mu (shardFor n op.key) with
      | none =>
        some ({ c with
          mu := Function.update c.mu (shardFor n op.key) (some t)
          thread := Function.update c.thread t (.running (.start op)) }, [])
      | some _ => none
    | _ => none
  | .advance t =>
    match c.thread t with
    | .running pc =>
      match c.store.advance (shardFor n pc.key) pc with
      | some (s, pc', ev) =>
        some ({ c with
          store := s
          thread := Function.update c.thread t (.running pc') }, ev.map (.slot t))
      | none => none
    | _ => none
  | .unlock t =>
    match c.thread t with
    | .running (.finish k r) =>
      some ({ c with
        mu := Function.update c.mu (shardFor n k) none
        thread := Function.update c.thread t (.returning r) }, [])
    | _ => none
  | .ret t =>
    match c.thread t with
    | .returning r => some ({ c with thread := Function.update c.thread t .idle }, [.ret t r])
    | _ => none

/-- All calls on a fresh store. -/
def machine (arena : Arena) (n : ℕ) (τ : Type*) [DecidableEq τ] :
    Machine (Sys n τ) (Action τ) (Event τ) where
  init c := c = ⟨LocalStore.init arena n, fun _ ↦ none, fun _ ↦ .idle⟩
  step := step

/-- Where the call that holds a shard's mutex stands. -/
def holder (c : Sys n τ) (i : Fin (n + 1)) : Option Pc :=
  match c.mu i with
  | none => none
  | some t =>
    match c.thread t with
    | .running pc => some pc
    | _ => none

/-- What a step can do, with its guards. -/
theorem step_cases {c c' : Sys n τ} {a : Action τ} {e : List (Event τ)}
    (h : c.step a = some (c', e)) :
    (∃ t op, c.thread t = .idle ∧ e = [.invoke t op] ∧
      c' = { c with thread := Function.update c.thread t (.waiting op) }) ∨
    (∃ t op i, c.thread t = .waiting op ∧ shardFor n op.key = i ∧ c.mu i = none ∧ e = [] ∧
      c' = { c with
        mu := Function.update c.mu i (some t)
        thread := Function.update c.thread t (.running (.start op)) }) ∨
    (∃ t pc i s pc' ev, c.thread t = .running pc ∧ shardFor n pc.key = i ∧
      c.store.advance i pc = some (s, pc', ev) ∧ e = ev.map (.slot t) ∧
      c' = { c with store := s, thread := Function.update c.thread t (.running pc') }) ∨
    (∃ t k r i, c.thread t = .running (.finish k r) ∧ shardFor n k = i ∧ e = [] ∧
      c' = { c with
        mu := Function.update c.mu i none
        thread := Function.update c.thread t (.returning r) }) ∨
    ∃ t r, c.thread t = .returning r ∧ e = [.ret t r] ∧
      c' = { c with thread := Function.update c.thread t .idle } := by
  cases a with
  | invoke t op =>
      simp only [step] at h
      split at h
      · cases h
        exact Or.inl ⟨t, op, by assumption, rfl, rfl⟩
      · cases h
  | lock t =>
      simp only [step] at h
      split at h
      · split at h
        · cases h
          exact Or.inr (Or.inl ⟨t, _, _, by assumption, rfl, by assumption, rfl, rfl⟩)
        · cases h
      · cases h
  | advance t =>
      simp only [step] at h
      split at h
      · split at h
        · cases h
          exact Or.inr (Or.inr (Or.inl ⟨t, _, _, _, _, _, by assumption, rfl, by assumption, rfl,
            rfl⟩))
        · cases h
      · cases h
  | unlock t =>
      simp only [step] at h
      split at h
      · cases h
        exact Or.inr (Or.inr (Or.inr (Or.inl ⟨t, _, _, _, by assumption, rfl, rfl, rfl⟩)))
      · cases h
  | ret t =>
      simp only [step] at h
      split at h
      · cases h
        exact Or.inr (Or.inr (Or.inr (Or.inr ⟨t, _, by assumption, rfl, rfl⟩)))
      · cases h

/-! ## The invariant -/

/-- The thread returns the slot to the allocator. -/
def Gives (t : τ) (p : ℕ) (x : Event τ) : Prop := x = .slot t (.give p)

/-- The thread gets the slot from the allocator, or begins another call. -/
def Regains (t : τ) (p : ℕ) (x : Event τ) : Prop :=
  x = .slot t (.take p) ∨ ∃ op, x = .invoke t op

/-- No slot is touched that the same call has returned and not got again. -/
def NoUseAfterReturn (tr : List (Event τ)) : Prop :=
  Guarded (fun past x ↦ ∀ t p, x = .slot t (.touch p) → ¬ Since (Gives t p) (Regains t p) past) tr

/-- The invariant of all runs. -/
structure Inv (c : Sys n τ) (tr : List (Event τ)) : Prop where
  locked : ∀ t pc, c.thread t = .running pc → c.mu (shardFor n pc.key) = some t
  owner : ∀ i t, c.mu i = some t → ∃ pc, c.thread t = .running pc ∧ shardFor n pc.key = i
  books : Books c.store c.holder
  -- a waiting thread has returned nothing yet, and a running one owns nothing it returned
  fresh : ∀ t op p, c.thread t = .waiting op → ¬ Since (Gives t p) (Regains t p) tr
  returned : ∀ t pc p, c.thread t = .running pc → Since (Gives t p) (Regains t p) tr →
    p ∉ (c.store.owned (shardFor n pc.key) (some pc)).map Prod.snd
  safe : NoUseAfterReturn tr

section

variable {c : Sys n τ} {tr : List (Event τ)} {t : τ} {i : Fin (n + 1)} {pc pc' : Pc}

omit [DecidableEq τ] in
theorem holder_of_running (hmu : c.mu i = some t) (ht : c.thread t = .running pc) :
    c.holder i = some pc := by
  rw [holder, hmu]
  simp only [ht]

omit [DecidableEq τ] in
/-- A mutex is not held by a thread that is not in a call on its shard. -/
theorem Inv.mu_ne (h : Inv c tr) (ht : ∀ pc, c.thread t = .running pc → shardFor n pc.key ≠ i) :
    c.mu i ≠ some t := by
  intro hmu
  obtain ⟨pc, hpc, hkey⟩ := h.owner i t hmu
  exact ht pc hpc hkey

/-- A shard that is not held by the thread keeps its holder when the thread moves. -/
theorem holder_congr {c' : Sys n τ} {x : Thread} (hmu : c'.mu i = c.mu i)
    (hth : c'.thread = Function.update c.thread t x) (ht : c.mu i ≠ some t) :
    c'.holder i = c.holder i := by
  rw [holder, holder, hmu]
  rcases hi : c.mu i with _ | t'
  · rfl
  · have hne : t' ≠ t := by
      rintro rfl
      exact ht hi
    simp only [hth, Function.update_of_ne hne]

/-- The holders after a move of a thread that holds no mutex but that of one shard. -/
theorem holder_move {d : Sys n τ} {x : Thread} {y : Option Pc}
    (hth : d.thread = Function.update c.thread t x) (hmu : ∀ j, j ≠ i → d.mu j = c.mu j)
    (hmine : ∀ j, j ≠ i → c.mu j ≠ some t) (hy : d.holder i = y) :
    d.holder = Function.update c.holder i y := by
  funext j
  rcases eq_or_ne j i with rfl | hne
  · rw [Function.update_self, hy]
  · rw [Function.update_of_ne hne]
    exact holder_congr (hmu j hne) hth (hmine j hne)

/-- The threads in a call hold the mutex of its shard, and nobody holds another, when the mutexes
of the thread that has moved are right. -/
theorem Inv.locking {d : Sys n τ} {x : Thread} (h : Inv c tr)
    (hth : d.thread = Function.update c.thread t x)
    (hother : ∀ j t', t' ≠ t → (d.mu j = some t' ↔ c.mu j = some t'))
    (hself : ∀ j, d.mu j = some t ↔ ∃ pc, x = .running pc ∧ shardFor n pc.key = j) :
    (∀ t' pc, d.thread t' = .running pc → d.mu (shardFor n pc.key) = some t') ∧
      ∀ j t', d.mu j = some t' → ∃ pc, d.thread t' = .running pc ∧ shardFor n pc.key = j := by
  refine ⟨fun t' pc hpc ↦ ?_, fun j t' hj ↦ ?_⟩
  · rcases eq_or_ne t' t with rfl | hne
    · rw [hth, Function.update_self] at hpc
      exact (hself _).mpr ⟨pc, hpc, rfl⟩
    · rw [hth, Function.update_of_ne hne] at hpc
      exact (hother _ t' hne).mpr (h.locked t' pc hpc)
  · rcases eq_or_ne t' t with rfl | hne
    · obtain ⟨pc, hpc, hkey⟩ := (hself j).mp hj
      exact ⟨pc, by rw [hth, Function.update_self, hpc], hkey⟩
    · obtain ⟨pc, hpc, hkey⟩ := h.owner j t' ((hother j t' hne).mp hj)
      exact ⟨pc, by rw [hth, Function.update_of_ne hne, hpc], hkey⟩

/-- A thread that is not where the move has led to is not the one that has moved. -/
theorem thread_of_update {f : τ → Thread} {t' : τ} {x y : Thread}
    (h : Function.update f t x t' = y) (hxy : x ≠ y) : t' ≠ t ∧ f t' = y := by
  have hne : t' ≠ t := by
    rintro rfl
    exact hxy ((Function.update_self ..).symm.trans h)
  exact ⟨hne, (Function.update_of_ne hne ..).symm.trans h⟩

omit [DecidableEq τ] in
/-- A thread in a call holds no other mutex. -/
theorem Inv.mu_iff (h : Inv c tr) (ht : c.thread t = .running pc) (j : Fin (n + 1)) :
    c.mu j = some t ↔ shardFor n pc.key = j := by
  refine ⟨fun hj ↦ ?_, fun hj ↦ hj ▸ h.locked t pc ht⟩
  obtain ⟨pc₀, hpc₀, hkey⟩ := h.owner j t hj
  rw [ht] at hpc₀
  cases hpc₀
  exact hkey

omit [DecidableEq τ] in
/-- An event of another thread, or one that is not a return, does not begin the
past that `Since` speaks of. -/
theorem not_gives_slot {t' : τ} {p : ℕ} {ev : List SlotEvent} (h : t' ≠ t ∨ .give p ∉ ev) :
    ∀ x ∈ ev.map (Event.slot t'), ¬ Gives t p x := by
  rintro x hx rfl
  obtain ⟨e, he, heq⟩ := List.mem_map.mp hx
  cases heq
  exact h.elim (fun h ↦ h rfl) fun h ↦ h he

/-! ## The steps -/

/-- A thread begins a call. -/
theorem Inv.invoke {op : Op} (h : Inv c tr) (ht : c.thread t = .idle) :
    Inv { c with thread := Function.update c.thread t (.waiting op) } (tr ++ [.invoke t op]) := by
  have hidle : ∀ i, c.mu i ≠ some t := fun i ↦ h.mu_ne fun pc hpc ↦ by
    rw [ht] at hpc
    cases hpc
  have hpast : ∀ t' p, Since (Gives t' p) (Regains t' p) (tr ++ [.invoke t op]) →
      Since (Gives t' p) (Regains t' p) tr ∧ t' ≠ t := by
    intro t' p hs
    obtain ⟨hs, hno⟩ := hs.of_append (by simp [Gives])
    refine ⟨hs, ?_⟩
    rintro rfl
    exact hno _ (List.mem_singleton_self _) (Or.inr ⟨op, rfl⟩)
  obtain ⟨hlocked, howner⟩ := h.locking
    (d := { c with thread := Function.update c.thread t (.waiting op) }) rfl
    (fun _ _ _ ↦ Iff.rfl) fun j ↦ iff_of_false (hidle j) (by rintro ⟨pc, ⟨⟩, -⟩)
  refine ⟨hlocked, howner, ?_, fun t' op' p ht' hs ↦ ?_, fun t' pc p hpc hs ↦ ?_, ?_⟩
  · have hh : holder { c with thread := Function.update c.thread t (.waiting op) } = c.holder :=
      funext fun i ↦ holder_congr rfl rfl (hidle i)
    rw [hh]
    exact h.books
  · obtain ⟨hs, hne⟩ := hpast t' p hs
    exact h.fresh t' op' p (by simpa [hne] using ht') hs
  · obtain ⟨hs, hne⟩ := hpast t' p hs
    exact h.returned t' pc p (by simpa [hne] using hpc) hs
  · refine h.safe.append fun pre x post heq ↦ ?_
    rcases pre with _ | ⟨y, pre⟩ <;> simp at heq
    rintro t' p rfl
    simp at heq

/-- A thread gets the mutex. -/
theorem Inv.lock {op : Op} (h : Inv c tr) (ht : c.thread t = .waiting op)
    (hi : shardFor n op.key = i) (hmu : c.mu i = none) :
    Inv { c with
      mu := Function.update c.mu i (some t)
      thread := Function.update c.thread t (.running (.start op)) } tr := by
  have hidle : ∀ j, c.mu j ≠ some t := fun j ↦ h.mu_ne fun pc hpc ↦ by
    rw [ht] at hpc
    cases hpc
  have hother : ∀ j t', t' ≠ t →
      (Function.update c.mu i (some t) j = some t' ↔ c.mu j = some t') := by
    intro j t' hne
    rcases eq_or_ne j i with rfl | hj
    · simp [hmu, hne.symm]
    · rw [Function.update_of_ne hj]
  have hself : ∀ j, Function.update c.mu i (some t) j = some t ↔
      ∃ pc, Thread.running (.start op) = .running pc ∧ shardFor n pc.key = j := by
    intro j
    rcases eq_or_ne j i with rfl | hj
    · exact iff_of_true (Function.update_self _ _ _) ⟨_, rfl, hi⟩
    · rw [Function.update_of_ne hj]
      refine iff_of_false (hidle j) ?_
      rintro ⟨pc, ⟨⟩, hkey⟩
      exact hj (hkey.symm.trans hi)
  obtain ⟨hlocked, howner⟩ := h.locking
    (d := { c with
      mu := Function.update c.mu i (some t)
      thread := Function.update c.thread t (.running (.start op)) }) rfl hother hself
  refine ⟨hlocked, howner, ?_, fun t' op' p ht' hs ↦ ?_, fun t' pc p hpc hs ↦ ?_, h.safe⟩
  · have hnone : c.holder i = none := by rw [holder, hmu]
    rw [holder_move (c := c) (i := i) (t := t) rfl (fun j hj ↦ Function.update_of_ne hj _ _)
      (fun j _ ↦ hidle j) (holder_of_running (Function.update_self _ _ _)
        (Function.update_self _ _ _))]
    exact (h.books.relabel i (some (.start op)) (fun m ↦ by rw [hnone]; rfl)
      (fun m ↦ by rw [hnone]; rfl) (by rw [hnone]; rfl) trivial).1
  · rcases eq_or_ne t' t with rfl | hne
    · simp at ht'
    · exact h.fresh t' op' p (by simpa [hne] using ht') hs
  · rcases eq_or_ne t' t with rfl | hne
    · exact absurd hs (h.fresh t' op p ht)
    · exact h.returned t' pc p (by simpa [hne] using hpc) hs

/-- A thread takes a step of its call. -/
theorem Inv.advance {s : LocalStore n} {ev : List SlotEvent} (h : Inv c tr)
    (ht : c.thread t = .running pc) (hi : shardFor n pc.key = i)
    (hadv : c.store.advance i pc = some (s, pc', ev)) :
    Inv { c with store := s, thread := Function.update c.thread t (.running pc') }
      (tr ++ ev.map (.slot t)) := by
  have hmu : c.mu i = some t := hi ▸ h.locked t pc ht
  have hkey : shardFor n pc'.key = i := by rw [advance_key hadv, hi]
  obtain ⟨hb, hok, hother⟩ := h.books.advance (holder_of_running hmu ht) hi hadv
  have hmine : ∀ t' pc'', t' ≠ t → c.thread t' = .running pc'' → shardFor n pc''.key ≠ i := by
    intro t' pc'' hne hpc heq
    have := h.locked t' pc'' hpc
    rw [heq, hmu, Option.some.injEq] at this
    exact hne this.symm
  have hself : ∀ j, c.mu j = some t ↔
      ∃ pc'', Thread.running pc' = .running pc'' ∧ shardFor n pc''.key = j := by
    intro j
    rw [h.mu_iff ht, hi]
    refine ⟨fun hj ↦ ⟨pc', rfl, hkey.trans hj⟩, ?_⟩
    rintro ⟨pc'', ⟨⟩, hj⟩
    exact hkey.symm.trans hj
  obtain ⟨hlocked, howner⟩ := h.locking
    (d := { c with store := s, thread := Function.update c.thread t (.running pc') }) rfl
    (fun _ _ _ ↦ Iff.rfl) hself
  refine ⟨hlocked, howner, ?_, fun t' op p ht' hs ↦ ?_, fun t' pc'' p hpc hs ↦ ?_, ?_⟩
  · have hholder := holder_move (c := c) (t := t)
      (d := { c with store := s, thread := Function.update c.thread t (.running pc') }) rfl
      (fun _ _ ↦ rfl) (fun j hj hmu ↦ hj (((h.mu_iff ht j).mp hmu).symm.trans hi))
      (holder_of_running hmu (Function.update_self _ _ _))
    rw [hholder]
    exact hb
  · obtain ⟨hne, ht'⟩ := thread_of_update ht' (by simp)
    exact h.fresh t' op p ht' (hs.of_append (not_gives_slot (Or.inl hne.symm))).1
  · rcases eq_or_ne t' t with rfl | hne
    · obtain rfl : pc' = pc'' := by simpa using hpc
      rw [hkey]
      by_cases hg : .give p ∈ ev
      · exact hok.given p hg
      · obtain ⟨hs, hno⟩ := hs.of_append (not_gives_slot (Or.inr hg))
        intro hp
        rcases hok.kept p hp with hp | htake
        · rw [← hi] at hp
          exact h.returned t' pc p ht hs hp
        · exact hno _ (List.mem_map_of_mem htake) (Or.inl rfl)
    · have hpc₀ : c.thread t' = .running pc'' := by simpa [hne] using hpc
      obtain ⟨hs, -⟩ := hs.of_append (not_gives_slot (Or.inl hne.symm))
      have hold := (hother _ (hmine t' pc'' hne hpc₀)).1
      rw [holder_of_running (h.locked t' pc'' hpc₀) hpc₀] at hold
      rw [hold]
      exact h.returned t' pc'' p hpc₀ hs
  · refine h.safe.append fun pre x post heq ↦ ?_
    rintro t' p rfl hs
    obtain ⟨e, he, hx⟩ := List.mem_map.mp (show .slot t' (.touch p) ∈ ev.map (Event.slot t) by
      rw [heq]; simp)
    cases hx
    obtain ⟨hs, -⟩ := hs.of_append fun y hy ↦ not_gives_slot (Or.inr (advance_touch hadv he)) y
      (by rw [heq]; exact List.mem_append_left _ hy)
    refine h.returned t pc p ht hs ?_
    rw [hi]
    exact hok.touched p he

/-- A thread gives up the mutex. -/
theorem Inv.unlock {k : Bytes} {r : Ret} (h : Inv c tr) (ht : c.thread t = .running (.finish k r))
    (hi : shardFor n k = i) :
    Inv { c with
      mu := Function.update c.mu i none
      thread := Function.update c.thread t (.returning r) } tr := by
  have hmu : c.mu i = some t := by
    rw [← hi]
    exact h.locked t (.finish k r) ht
  have hmine : ∀ j, j ≠ i → c.mu j ≠ some t :=
    fun j hj hmu ↦ hj (((h.mu_iff ht j).mp hmu).symm.trans hi)
  have hother : ∀ j t', t' ≠ t →
      (Function.update c.mu i none j = some t' ↔ c.mu j = some t') := by
    intro j t' hne
    rcases eq_or_ne j i with rfl | hj
    · simp [hmu, hne.symm]
    · rw [Function.update_of_ne hj]
  have hself : ∀ j, Function.update c.mu i none j = some t ↔
      ∃ pc, Thread.returning r = .running pc ∧ shardFor n pc.key = j := by
    intro j
    refine iff_of_false ?_ (by rintro ⟨pc, ⟨⟩, -⟩)
    rcases eq_or_ne j i with rfl | hj
    · simp
    · rw [Function.update_of_ne hj]
      exact hmine j hj
  obtain ⟨hlocked, howner⟩ := h.locking
    (d := { c with
      mu := Function.update c.mu i none
      thread := Function.update c.thread t (.returning r) }) rfl hother hself
  refine ⟨hlocked, howner, ?_, fun t' op p ht' hs ↦ ?_, fun t' pc p hpc hs ↦ ?_, h.safe⟩
  · have hold := holder_of_running hmu ht
    rw [holder_move (c := c) (i := i) (t := t) (y := none) rfl
      (fun j hj ↦ Function.update_of_ne hj _ _) hmine (by simp [holder])]
    exact (h.books.relabel i none (fun m ↦ by rw [hold]; rfl) (fun m ↦ by rw [hold]; rfl)
      (by rw [hold]; rfl) trivial).1
  · obtain ⟨-, ht'⟩ := thread_of_update ht' (by simp)
    exact h.fresh t' op p ht' hs
  · obtain ⟨-, hpc⟩ := thread_of_update hpc (by simp)
    exact h.returned t' pc p hpc hs

/-- A thread returns from its call. -/
theorem Inv.ret {r : Ret} (h : Inv c tr) (ht : c.thread t = .returning r) :
    Inv { c with thread := Function.update c.thread t .idle } (tr ++ [.ret t r]) := by
  have hidle : ∀ i, c.mu i ≠ some t := fun i ↦ h.mu_ne fun pc hpc ↦ by
    rw [ht] at hpc
    cases hpc
  have hpast : ∀ t' p, Since (Gives t' p) (Regains t' p) (tr ++ [.ret t r]) →
      Since (Gives t' p) (Regains t' p) tr :=
    fun t' p hs ↦ (hs.of_append (by simp [Gives])).1
  obtain ⟨hlocked, howner⟩ := h.locking
    (d := { c with thread := Function.update c.thread t .idle }) rfl
    (fun _ _ _ ↦ Iff.rfl) fun j ↦ iff_of_false (hidle j) (by rintro ⟨pc, ⟨⟩, -⟩)
  refine ⟨hlocked, howner, ?_, fun t' op p ht' hs ↦ ?_, fun t' pc p hpc hs ↦ ?_, ?_⟩
  · have hh : holder { c with thread := Function.update c.thread t .idle } = c.holder :=
      funext fun i ↦ holder_congr rfl rfl (hidle i)
    rw [hh]
    exact h.books
  · obtain ⟨-, ht'⟩ := thread_of_update ht' (by simp)
    exact h.fresh t' op p ht' (hpast t' p hs)
  · obtain ⟨-, hpc⟩ := thread_of_update hpc (by simp)
    exact h.returned t' pc p hpc (hpast t' p hs)
  · refine h.safe.append fun pre x post heq ↦ ?_
    rcases pre with _ | ⟨y, pre⟩ <;> simp at heq
    rintro t' p rfl
    simp at heq

/-- **Every run keeps the invariant.** -/
theorem run_inv {arena : Arena} (h : (machine arena n τ).Run c tr) : Inv c tr := by
  refine h.invariant (fun c hc ↦ ?_) fun c tr a c' e _ hinv hs ↦ ?_
  · subst hc
    refine ⟨?_, ?_, books_init arena n, ?_, ?_, guarded_nil⟩
    · rintro t pc ⟨⟩
    · rintro i t ⟨⟩
    · rintro t op p ⟨⟩
    · rintro t pc p ⟨⟩
  · obtain ⟨t, op, ht, rfl, rfl⟩ | ⟨t, op, i, ht, hi, hmu, rfl, rfl⟩ |
      ⟨t, pc, i, s, pc', ev, ht, hi, hadv, rfl, rfl⟩ | ⟨t, k, r, i, ht, hi, rfl, rfl⟩ |
      ⟨t, r, ht, rfl, rfl⟩ := step_cases hs
    · exact hinv.invoke ht
    · rw [List.append_nil]
      exact hinv.lock ht hi hmu
    · exact hinv.advance ht hi hadv
    · rw [List.append_nil]
      exact hinv.unlock ht hi
    · exact hinv.ret ht

/-! ## Ownership in every run -/

/-- The slots in the free lists, the slots referenced by the maps (an entry that
its call has freed and is about to erase does not count) and the slots in the
hands of running calls. -/
def slots (c : Sys n τ) : Multiset Slot :=
  c.store.allocator.free +
    ∑ i, mappedSlots c.store.mem (live (c.holder i) (c.store.shards i).map) +
    ∑ i, held (c.holder i)

/-- The slots are at distinct addresses, and they are exactly the slots of the
assigned pages, each page cut up for one class. -/
def SlotsPartitioned (c : Sys n τ) : Prop :=
  (c.slots.map Prod.snd).Nodup ∧
    ∃ pages : List (Fin kNumClasses), pages.length = c.store.allocator.pagesUsed ∧
      c.slots = assignedSlots pages

/-- What holds of a shard that no call has locked. -/
structure ShardInOrder (s : LocalStore n) (i : Fin (n + 1)) : Prop where
  values_nodup : (s.shards i).map.values.Nodup
  ring_nodup : (s.shards i).evictor.ring.Nodup
  same_entries : ∀ p, p ∈ (s.shards i).map.values ↔ p ∈ (s.shards i).evictor.ring
  key_eq : ∀ k p, (s.shards i).map.lookup k = some p → SlabEntry.key s.mem p = k
  home : ∀ k ∈ (s.shards i).map, (i : ℕ) = (hashKey k).toNat % (n + 1)

omit [DecidableEq τ] in
theorem slots_eq (c : Sys n τ) :
    c.slots = c.store.allocator.free + ∑ i, c.store.owned i (c.holder i) := by
  simp only [slots, owned, Finset.sum_add_distrib, add_assoc]

omit [DecidableEq τ] in
theorem slotsPartitioned_of_books (h : Books c.store c.holder) : c.SlotsPartitioned := by
  obtain ⟨pages, ha⟩ := h.accounts
  have heq : c.slots = assignedSlots pages := (slots_eq c).trans ha.balance
  refine ⟨?_, pages, ha.length_pages, heq⟩
  rw [heq]
  exact Multiset.Nodup.map_on (fun x hx y hy hxy ↦ assignedSlots_snd_inj hx hy hxy)
    (assignedSlots_nodup pages)

theorem shardInOrder_of_inv {s : LocalStore n} (h : ShardInv s i none) : ShardInOrder s i := by
  have hring : (↑(s.shards i).evictor.ring : Multiset ℕ) = (s.shards i).map.values := h.ring_eq
  refine ⟨?_, h.wf.nodup, fun p ↦ ?_, fun k p hp ↦ ?_, fun k hk ↦ ?_⟩
  · rw [← hring]
    exact h.wf.nodup
  · rw [← hring, Multiset.mem_coe]
  · obtain ⟨v, hv, -⟩ := h.entries k p hp
    exact hv.key_eq
  · rw [← h.home k hk]
    rfl

/-- **Ownership under interleaving.**  In every run the slots are partitioned among
the free lists, the maps and the running calls (each of which holds its shard's
mutex, so that `slots` counts it); no call touches a slot after returning it; and
every shard whose mutex is free is in order. -/
theorem ownership_of_run (arena : Arena) (h : (machine arena n τ).Run c tr) :
    c.SlotsPartitioned ∧
      (∀ t pc, c.thread t = .running pc → c.holder (shardFor n pc.key) = some pc) ∧
      NoUseAfterReturn tr ∧
      ∀ i, c.mu i = none → ShardInOrder c.store i := by
  have hinv := run_inv h
  refine ⟨slotsPartitioned_of_books hinv.books, fun t pc hpc ↦ ?_, hinv.safe, fun i hi ↦ ?_⟩
  · exact holder_of_running (hinv.locked t pc hpc) hpc
  · have hnone : c.holder i = none := by rw [holder, hi]
    exact shardInOrder_of_inv (hnone ▸ hinv.books.shard i)

end

/-- Two threads on two shards.  At the end one has a slot in hand, and the other is
overwriting the entry it stored: the old slot is returned and not yet erased. -/
def overwriteRun : List (Action Bool) :=
  [.invoke true (.put [1] [7]), .invoke false (.put [0] [8]), .lock true, .lock false,
    .advance true, .advance false, .advance true, .advance false, .advance true, .unlock true,
    .ret true, .invoke true (.put [1] [9]), .lock true, .advance true, .advance true]

theorem ownership_of_run_overwrite :
    ∃ (c : Sys 1 Bool) (tr : List (Event Bool)),
      (machine ⟨kPageSize, false⟩ 1 Bool).exec
        ⟨LocalStore.init ⟨kPageSize, false⟩ 1, fun _ ↦ none, fun _ ↦ .idle⟩ overwriteRun
          = some (c, tr) ∧
      c.SlotsPartitioned ∧
      (∀ t pc, c.thread t = .running pc → c.holder (shardFor 1 pc.key) = some pc) ∧
      NoUseAfterReturn tr ∧
      ∀ i, c.mu i = none → ShardInOrder c.store i := by
  have hsome : ((machine ⟨kPageSize, false⟩ 1 Bool).exec
      ⟨LocalStore.init ⟨kPageSize, false⟩ 1, fun _ ↦ none, fun _ ↦ .idle⟩
      overwriteRun).isSome = true := by decide +kernel
  obtain ⟨⟨c, tr⟩, hexec⟩ := Option.isSome_iff_exists.mp hsome
  have hrun : (machine ⟨kPageSize, false⟩ 1 Bool).Run c ([] ++ tr) :=
    (Machine.Run.init rfl).exec hexec
  exact ⟨c, tr, hexec, ownership_of_run ⟨kPageSize, false⟩ hrun⟩

end Sys

end Pensieve.Interleaving

namespace Pensieve.LocalStore

open Foundation Interleaving

variable {n : ℕ} {arena : Arena} {s : LocalStore n}

/-- The states of a store between calls: any number of threads have made calls, interleaved
in any way, and no mutex is held. -/
def Reachable (arena : Arena) (s : LocalStore n) : Prop :=
  ∃ (c : Sys n ℕ) (tr : List (Event ℕ)), (Sys.machine arena n ℕ).Run c tr ∧
    (∀ i, c.mu i = none) ∧ c.store = s

theorem Reachable.books (h : Reachable arena s) : Books s fun _ ↦ none := by
  obtain ⟨c, tr, hrun, hmu, rfl⟩ := h
  have hholder : c.holder = fun _ ↦ none := funext fun i ↦ by rw [Sys.holder, hmu i]
  exact hholder ▸ (Sys.run_inv hrun).books

/-- The steps of a call are steps of its thread. -/
theorem run_of_advances {i : Fin (n + 1)} {pc : Pc} {mu : Fin (n + 1) → Option ℕ}
    {thread : ℕ → Thread} {t : ℕ} {tr : List (Event ℕ)} {y : LocalStore n × Pc}
    (h : Advances i (s, pc) y) (hi : shardFor n pc.key = i)
    (hrun : (Sys.machine arena n ℕ).Run
      ⟨s, mu, Function.update thread t (.running pc)⟩ tr) :
    y.2.key = pc.key ∧ ∃ tr', (Sys.machine arena n ℕ).Run
      ⟨y.1, mu, Function.update thread t (.running y.2)⟩ tr' := by
  induction h with
  | refl => exact ⟨rfl, tr, hrun⟩
  | @tail y z _ hstep ih =>
      obtain ⟨ev, hstep⟩ := hstep
      obtain ⟨hkey, tr', hrun'⟩ := ih
      have hshard : shardFor n y.2.key = i := by rw [hkey, hi]
      refine ⟨(advance_key hstep).trans hkey, _,
        hrun'.step (a := .advance t) (e := ev.map (.slot t)) ?_⟩
      simp [Sys.machine, Sys.step, hshard, hstep]

/-- A call after another is one of the ways to interleave calls. -/
theorem run_exec {tr : List (Event ℕ)} (op : Op)
    (hrun : (Sys.machine arena n ℕ).Run ⟨s, fun _ ↦ none, fun _ ↦ .idle⟩ tr) :
    ∃ tr', (Sys.machine arena n ℕ).Run ⟨(s.exec op).2, fun _ ↦ none, fun _ ↦ .idle⟩ tr' := by
  have hinvoke : (Sys.machine arena n ℕ).Run
      ⟨s, fun _ ↦ none, Function.update (fun _ ↦ .idle) 0 (.waiting op)⟩
      (tr ++ [.invoke 0 op]) :=
    hrun.step (a := .invoke 0 op) rfl
  have hlock : (Sys.machine arena n ℕ).Run
      ⟨s, Function.update (fun _ ↦ none) (shardFor n op.key) (some 0),
        Function.update (fun _ ↦ .idle) 0 (.running (.start op))⟩
      ((tr ++ [.invoke 0 op]) ++ []) := by
    refine hinvoke.step (a := .lock 0) ?_
    simp [Sys.machine, Sys.step]
  obtain ⟨-, tr', hdone⟩ := run_of_advances (exec_advances s op) rfl hlock
  have hunlock : (Sys.machine arena n ℕ).Run
      ⟨(s.exec op).2, fun _ ↦ none, Function.update (fun _ ↦ .idle) 0 (.returning (s.exec op).1)⟩
      (tr' ++ []) := by
    refine hdone.step (a := .unlock 0) ?_
    simp only [Sys.machine, Sys.step, Function.update_self, Function.update_idem]
    rw [Function.update_eq_self]
  refine ⟨_, hunlock.step (a := .ret 0) (e := [.ret 0 (s.exec op).1]) ?_⟩
  simp only [Sys.machine, Sys.step, Function.update_self, Function.update_idem]
  rw [Function.update_eq_self]

/-- Calls made one after the other lead to reachable states. -/
theorem reachable_run (arena : Arena) (n : ℕ) (ops : List Op) :
    Reachable arena ((init arena n).run ops).2 := by
  suffices h : ∀ (ops : List Op) (s : LocalStore n) (tr : List (Event ℕ)),
      (Sys.machine arena n ℕ).Run ⟨s, fun _ ↦ none, fun _ ↦ .idle⟩ tr →
      Reachable arena (s.run ops).2 from h ops _ [] (.init rfl)
  intro ops
  induction ops with
  | nil => exact fun s tr hrun ↦ ⟨_, tr, hrun, fun _ ↦ rfl, rfl⟩
  | cons op ops ih =>
      intro s tr hrun
      obtain ⟨tr', hrun'⟩ := run_exec op hrun
      exact ih _ tr' hrun'

end Pensieve.LocalStore
