import Mathlib.Data.List.Nodup
import Mathlib.Tactic.Common
import Pensieve.Coordinator.WaitGroup

/-!
# A wait group delivers each result once

The invariant of all runs of `WaitGroup.Sys`, first of the states and then of the
traces.

Every fetch that is not completed has exactly one owner, the coroutine that will
complete it.  While the fetch is in the map its owner is an initiator; between the
two critical sections of `complete` it has left the map, and a new fetch of the
same key may already be there.  A suspended coroutine is in the waiter list of its
fetch, or in the list that some `complete` is working off: no wakeup is lost.
-/

namespace Pensieve.WaitGroup

open Foundation

variable {C K V : Type*}

/-- The coroutine is responsible for the fetch: it fetches, completes or still
resumes the waiters. -/
def Owns (f : ℕ) : Coro C K V → Prop
  | .fetching _ g | .completing _ g _ | .publishing g _ | .resuming g _ => g = f
  | _ => False

/-- The coroutine is an initiator for the key whose `complete` has not yet taken
the fetch out of the map. -/
def Initiates (k : K) : Coro C K V → Prop
  | .fetching j _ | .completing j _ _ => j = k
  | _ => False

/-- What the place of a coroutine says about the wait group. -/
def Fits (g : WaitGroup C K V) : Coro C K V → Prop
  | .idle => True
  | .fetching k f | .completing k f _ => g.pending k = some f
  | .publishing f _ =>
    f < g.next ∧ (g.fetches f).completed = false ∧ ∀ k, g.pending k ≠ some f
  | .joined f | .notReady f | .suspended f => f < g.next
  | .resuming f _ | .ready f => f < g.next ∧ (g.fetches f).completed = true

/-- A coroutine still fits when the wait group changes, if the fetches that it owns stay as they
are and the completed ones stay completed. -/
theorem Fits.change {g g' : WaitGroup C K V} {x : Coro C K V} (h : Fits g x)
    (hnext : g.next ≤ g'.next)
    (hpending : ∀ k f, Owns f x → g.pending k = some f → g'.pending k = some f)
    (hold : ∀ k f, f < g.next → g'.pending k = some f → g.pending k = some f)
    (hdone : ∀ f, f < g.next → (g.fetches f).completed = true → (g'.fetches f).completed = true)
    (hopen : ∀ f, f < g.next → Owns f x → (g.fetches f).completed = false →
      (g'.fetches f).completed = false) : Fits g' x := by
  cases x with
  | idle => trivial
  | fetching k f => exact hpending k f rfl h
  | completing k f v => exact hpending k f rfl h
  | publishing f v =>
      obtain ⟨hlt, hcompleted, hout⟩ := h
      exact ⟨Nat.lt_of_lt_of_le hlt hnext, hopen f hlt rfl hcompleted,
        fun k hk ↦ hout k (hold k f hlt hk)⟩
  | resuming f l => exact ⟨Nat.lt_of_lt_of_le h.1 hnext, hdone f h.1 h.2⟩
  | joined f => exact Nat.lt_of_lt_of_le h hnext
  | notReady f => exact Nat.lt_of_lt_of_le h hnext
  | suspended f => exact Nat.lt_of_lt_of_le h hnext
  | ready f => exact ⟨Nat.lt_of_lt_of_le h.1 hnext, hdone f h.1 h.2⟩

/-- The invariant of the wait group by itself. -/
structure InOrder (g : WaitGroup C K V) : Prop where
  fresh : ∀ f, g.next ≤ f → g.fetches f = .new
  pending_lt : ∀ k f, g.pending k = some f → f < g.next
  pending_inj : ∀ k j f, g.pending k = some f → g.pending j = some f → k = j
  pending_open : ∀ k f, g.pending k = some f → (g.fetches f).completed = false
  waiters_nil : ∀ f, (g.fetches f).completed = true → (g.fetches f).waiters = []
  waiters_nodup : ∀ f, (g.fetches f).waiters.Nodup

namespace InOrder

variable [DecidableEq K] {g : WaitGroup C K V} {k : K} {f : ℕ}

theorem start (h : InOrder g) :
    InOrder (C := C) (V := V)
      { pending := Function.update g.pending k (some g.next)
        fetches := Function.update g.fetches g.next .new
        next := g.next + 1 } := by
  -- the new handle is above all handles in use
  have hlt : ∀ {j f}, Function.update g.pending k (some g.next) j = some f →
      j = k ∧ f = g.next ∨ j ≠ k ∧ g.pending j = some f ∧ f < g.next := by
    intro j f hj
    rcases eq_or_ne j k with rfl | hne
    · rw [Function.update_self, Option.some.injEq] at hj
      exact Or.inl ⟨rfl, hj.symm⟩
    · rw [Function.update_of_ne hne] at hj
      exact Or.inr ⟨hne, hj, h.pending_lt j f hj⟩
  refine ⟨fun f hf ↦ ?_, fun j f hj ↦ ?_, fun i j f hi hj ↦ ?_, fun j f hj ↦ ?_, fun f hf ↦ ?_,
    fun f ↦ ?_⟩
  · have hf' : g.next + 1 ≤ f := hf
    exact (Function.update_of_ne (by omega) _ _).trans (h.fresh f (by omega))
  · have := hlt hj
    show f < g.next + 1
    omega
  · rcases hlt hi with ⟨rfl, rfl⟩ | ⟨-, hi', hlt'⟩ <;> rcases hlt hj with ⟨rfl, hf⟩ | ⟨-, hj', -⟩
    · rfl
    · exact absurd (h.pending_lt _ _ hj') (Nat.lt_irrefl _)
    · omega
    · exact h.pending_inj i j f hi' hj'
  · rcases hlt hj with ⟨rfl, rfl⟩ | ⟨-, hj', hlt'⟩
    · simp [PendingFetch.new]
    · simp only [Function.update_of_ne (Nat.ne_of_lt hlt')]
      exact h.pending_open j f hj'
  · rcases eq_or_ne f g.next with rfl | hne
    · simp [PendingFetch.new]
    · simp only [Function.update_of_ne hne] at hf ⊢
      exact h.waiters_nil f hf
  · rcases eq_or_ne f g.next with rfl | hne
    · simp [PendingFetch.new]
    · simp only [Function.update_of_ne hne]
      exact h.waiters_nodup f

theorem take (h : InOrder g) :
    InOrder { g with pending := Function.update g.pending k none } := by
  have hold : ∀ {j f}, Function.update g.pending k none j = some f → g.pending j = some f := by
    intro j f hj
    rcases eq_or_ne j k with rfl | hne
    · rw [Function.update_self] at hj
      cases hj
    · rwa [Function.update_of_ne hne] at hj
  exact ⟨h.fresh, fun j f hj ↦ h.pending_lt j f (hold hj),
    fun i j f hi hj ↦ h.pending_inj i j f (hold hi) (hold hj),
    fun j f hj ↦ h.pending_open j f (hold hj), h.waiters_nil, h.waiters_nodup⟩

omit [DecidableEq K] in
/-- Writing to a fetch in use. -/
theorem setFetch {x : PendingFetch C V} (h : InOrder g) (hf : f < g.next)
    (hopen : x.completed = true → ∀ k, g.pending k ≠ some f)
    (hnil : x.completed = true → x.waiters = []) (hnd : x.waiters.Nodup) :
    InOrder (g.setFetch f x) := by
  refine ⟨fun f' hf' ↦ ?_, h.pending_lt, h.pending_inj, fun k f' hk ↦ ?_, fun f' hf' ↦ ?_,
    fun f' ↦ ?_⟩
  · have hf'' : g.next ≤ f' := hf'
    exact (Function.update_of_ne (by omega) _ _).trans (h.fresh f' hf')
  · rcases eq_or_ne f' f with rfl | hne
    · simp only [WaitGroup.setFetch, Function.update_self]
      by_contra hx
      exact hopen (by simpa using hx) k hk
    · simp only [WaitGroup.setFetch, Function.update_of_ne hne]
      exact h.pending_open k f' hk
  · rcases eq_or_ne f' f with rfl | hne
    · simp only [WaitGroup.setFetch, Function.update_self] at hf' ⊢
      exact hnil hf'
    · simp only [WaitGroup.setFetch, Function.update_of_ne hne] at hf' ⊢
      exact h.waiters_nil f' hf'
  · rcases eq_or_ne f' f with rfl | hne
    · simp only [WaitGroup.setFetch, Function.update_self]
      exact hnd
    · simp only [WaitGroup.setFetch, Function.update_of_ne hne]
      exact h.waiters_nodup f'

omit [DecidableEq K] in
/-- A coroutine is at a handle in use. -/
theorem lt_of_owns (h : InOrder g) {x : Coro C K V} (hx : Fits g x) (ho : Owns f x) :
    f < g.next := by
  cases x <;> cases ho
  · exact h.pending_lt _ _ hx
  · exact h.pending_lt _ _ hx
  · exact hx.1
  · exact hx.1

end InOrder

namespace Sys

/-- The coroutines fit the wait group, and every fetch that is not completed has
exactly one owner. -/
structure Owned (s : Sys C K V) : Prop where
  fits : ∀ c, Fits s.group (s.coro c)
  unique : ∀ c d f, Owns f (s.coro c) → Owns f (s.coro d) → c = d
  exists_owner : ∀ f, f < s.group.next → (s.group.fetches f).completed = false →
    ∃ c, Owns f (s.coro c)

theorem Owned.fits_of {s : Sys C K V} {c : C} {x : Coro C K V} (h : Owned s)
    (hc : s.coro c = x) : Fits s.group x := hc ▸ h.fits c

/-- The coroutines in the lists are suspended, and the suspended coroutines are in
a list. -/
structure Listed (s : Sys C K V) : Prop where
  waiters : ∀ f, ∀ c ∈ (s.group.fetches f).waiters, s.coro c = .suspended f
  toResume : ∀ c f l, s.coro c = .resuming f l → l.Nodup ∧ ∀ d ∈ l, s.coro d = .suspended f
  listed : ∀ c f, s.coro c = .suspended f →
    c ∈ (s.group.fetches f).waiters ∨ ∃ d l, s.coro d = .resuming f l ∧ c ∈ l

/-- The invariant of the states. -/
structure Inv (s : Sys C K V) : Prop where
  inOrder : InOrder s.group
  owned : Owned s
  listed : Listed s

/-- The coroutine is in no list: it is not suspended, and has nobody to resume. -/
def Unlisted : Coro C K V → Prop
  | .suspended _ => False
  | .resuming _ l => l = []
  | _ => True

variable [DecidableEq C] {s : Sys C K V} {c : C} {f : ℕ} {k : K} {v : Option V}

/-- A step of one coroutine: it takes over fresh fetches at most, and every fetch
that is left open keeps its owner. -/
theorem Owned.move {g : WaitGroup C K V} {y : Coro C K V} (h : Owned s) (hg : InOrder s.group)
    (hfit : ∀ d, d ≠ c → Fits g (s.coro d)) (hy : Fits g y)
    (hnew : ∀ f, Owns f y → Owns f (s.coro c) ∨ s.group.next ≤ f)
    (hkeep : ∀ f, f < g.next → (g.fetches f).completed = false → Owns f y ∨
      f < s.group.next ∧ (s.group.fetches f).completed = false ∧ ¬ Owns f (s.coro c)) :
    Owned (Sys.move { s with group := g } c y) := by
  have hother : ∀ d, d ≠ c → (Sys.move { s with group := g } c y).coro d = s.coro d :=
    fun d hd ↦ Function.update_of_ne hd _ _
  have hself : (Sys.move { s with group := g } c y).coro c = y := Function.update_self _ _ _
  -- nobody else owns what the coroutine owns after the step
  have hmine : ∀ d f, d ≠ c → Owns f y → ¬ Owns f (s.coro d) := by
    intro d f hd hf hdf
    rcases hnew f hf with hc | hlt
    · exact hd (h.unique d c f hdf hc)
    · exact absurd (hg.lt_of_owns (h.fits d) hdf) (Nat.not_lt.mpr hlt)
  refine ⟨fun d ↦ ?_, fun a b f ha hb ↦ ?_, fun f hf hc ↦ ?_⟩
  · rcases eq_or_ne d c with rfl | hne
    · rw [hself]
      exact hy
    · rw [hother d hne]
      exact hfit d hne
  · rcases eq_or_ne a c with rfl | hac <;> rcases eq_or_ne b a with rfl | hbc
    · rfl
    · rw [hself] at ha
      rw [hother b hbc] at hb
      exact absurd hb (hmine b f hbc ha)
    · rfl
    · rw [hother a hac] at ha
      rcases eq_or_ne b c with rfl | hbc'
      · rw [hself] at hb
        exact absurd ha (hmine a f hac hb)
      · rw [hother b hbc'] at hb
        exact h.unique a b f ha hb
  · rcases hkeep f hf hc with hy | ⟨hlt, hopen, hno⟩
    · exact ⟨c, by rwa [hself]⟩
    · obtain ⟨d, hd⟩ := h.exists_owner f hlt hopen
      refine ⟨d, ?_⟩
      rwa [hother d]
      rintro rfl
      exact hno hd

/-- A step of one coroutine that was in no list. -/
theorem Listed.move {g : WaitGroup C K V} {y : Coro C K V} (h : Listed s)
    (hx : Unlisted (s.coro c))
    (hw : ∀ f, ∀ d ∈ (g.fetches f).waiters, s.coro d = .suspended f ∨ d = c ∧ y = .suspended f)
    (hl : ∀ f l, y = .resuming f l → l.Nodup ∧ ∀ d ∈ l, s.coro d = .suspended f)
    (hs : ∀ f, y = .suspended f → c ∈ (g.fetches f).waiters)
    (hkeep : ∀ f, ∀ d ∈ (s.group.fetches f).waiters,
      d ∈ (g.fetches f).waiters ∨ ∃ l, y = .resuming f l ∧ d ∈ l) :
    Listed (Sys.move { s with group := g } c y) := by
  have hother : ∀ d, d ≠ c → (Sys.move { s with group := g } c y).coro d = s.coro d :=
    fun d hd ↦ Function.update_of_ne hd _ _
  have hself : (Sys.move { s with group := g } c y).coro c = y := Function.update_self _ _ _
  have hsusp : ∀ d f, s.coro d = .suspended f →
      (Sys.move { s with group := g } c y).coro d = .suspended f := by
    intro d f hd
    rw [hother d, hd]
    rintro rfl
    rw [hd] at hx
    exact hx
  refine ⟨fun f d hd ↦ ?_, fun d f l hd ↦ ?_, fun d f hd ↦ ?_⟩
  · rcases hw f d hd with hd | ⟨rfl, hy⟩
    · exact hsusp d f hd
    · rw [hself, hy]
  · rcases eq_or_ne d c with rfl | hne
    · rw [hself] at hd
      exact ⟨(hl f l hd).1, fun a ha ↦ hsusp a f ((hl f l hd).2 a ha)⟩
    · rw [hother d hne] at hd
      obtain ⟨hnd, hmem⟩ := h.toResume d f l hd
      exact ⟨hnd, fun a ha ↦ hsusp a f (hmem a ha)⟩
  · rcases eq_or_ne d c with rfl | hne
    · rw [hself] at hd
      exact Or.inl (hs f hd)
    · rw [hother d hne] at hd
      rcases h.listed d f hd with hmem | ⟨a, l, ha, hmem⟩
      · rcases hkeep f d hmem with hmem | ⟨l, hy, hmem⟩
        · exact Or.inl hmem
        · exact Or.inr ⟨c, l, by rw [hself, hy], hmem⟩
      · refine Or.inr ⟨a, l, ?_, hmem⟩
        rw [hother a, ha]
        rintro rfl
        rw [ha] at hx
        obtain rfl : l = [] := hx
        cases hmem

/-- The coroutine moves without touching the wait group. -/
theorem Inv.move {y : Coro C K V} (h : Inv s) (hx : Unlisted (s.coro c)) (hy : Fits s.group y)
    (hul : Unlisted y) (hnew : ∀ f, Owns f y → Owns f (s.coro c))
    (hkeep : ∀ f, (s.group.fetches f).completed = false → Owns f (s.coro c) → Owns f y) :
    Inv (s.move c y) := by
  refine ⟨h.inOrder, h.owned.move h.inOrder (fun d _ ↦ h.owned.fits d) hy
    (fun f hf ↦ Or.inl (hnew f hf)) (fun f hf hc ↦ ?_),
    h.listed.move hx (fun f d hd ↦ Or.inl (h.listed.waiters f d hd)) (fun f l hl ↦ ?_)
    (fun f hf ↦ ?_) (fun f d hd ↦ Or.inl hd)⟩
  · by_cases ho : Owns f (s.coro c)
    · exact Or.inl (hkeep f hc ho)
    · exact Or.inr ⟨hf, hc, ho⟩
  · subst hl
    obtain rfl : l = [] := hul
    exact ⟨List.nodup_nil, by simp⟩
  · subst hf
    exact hul.elim

/-! ## The steps -/

section

variable [DecidableEq K]

theorem Inv.start (h : Inv s) (hc : s.coro c = .idle) (hk : s.group.pending k = none) :
    Inv (Sys.move { s with group :=
      { pending := Function.update s.group.pending k (some s.group.next)
        fetches := Function.update s.group.fetches s.group.next .new
        next := s.group.next + 1 } } c (.fetching k s.group.next)) := by
  have hcompl : ∀ f, f < s.group.next →
      (Function.update s.group.fetches s.group.next .new f).completed
        = (s.group.fetches f).completed :=
    fun f hf ↦ by rw [Function.update_of_ne (Nat.ne_of_lt hf)]
  have hpend : ∀ j f, s.group.pending j = some f →
      Function.update s.group.pending k (some s.group.next) j = some f := by
    intro j f hj
    rw [Function.update_of_ne, hj]
    rintro rfl
    rw [hk] at hj
    cases hj
  have hpend' : ∀ j f, f < s.group.next →
      Function.update s.group.pending k (some s.group.next) j = some f →
      s.group.pending j = some f := by
    intro j f hf hj
    rcases eq_or_ne j k with rfl | hne
    · rw [Function.update_self, Option.some.injEq] at hj
      omega
    · rwa [Function.update_of_ne hne] at hj
  refine ⟨h.inOrder.start, h.owned.move h.inOrder (fun d _ ↦ ?_) (Function.update_self _ _ _)
    (fun f hf ↦ Or.inr (Nat.le_of_eq hf)) (fun f hf hopen ↦ ?_),
    h.listed.move (by rw [hc]; trivial) (fun f d hd ↦ ?_) (fun f l hl ↦ by cases hl)
    (fun f hf ↦ by cases hf) (fun f d hd ↦ ?_)⟩
  · exact (h.owned.fits d).change (Nat.le_succ _) (fun j f _ ↦ hpend j f) hpend'
      (fun f hf ↦ (hcompl f hf).trans) fun f hf _ ↦ (hcompl f hf).trans
  · have hf' : f < s.group.next + 1 := hf
    rcases Nat.lt_or_eq_of_le (Nat.lt_succ_iff.mp hf') with hlt | rfl
    · exact Or.inr ⟨hlt, (hcompl f hlt).symm.trans hopen, by rw [hc]; exact id⟩
    · exact Or.inl rfl
  · rcases eq_or_ne f s.group.next with rfl | hne
    · simp [PendingFetch.new] at hd
    · simp only [Function.update_of_ne hne] at hd
      exact Or.inl (h.listed.waiters f d hd)
  · left
    rcases eq_or_ne f s.group.next with rfl | hne
    · rw [h.inOrder.fresh _ (Nat.le_refl _)] at hd
      cases hd
    · simp only [Function.update_of_ne hne]
      exact hd

theorem Inv.take {f' : ℕ} (h : Inv s) (hc : s.coro c = .completing k f v)
    (hk : s.group.pending k = some f') :
    Inv (Sys.move { s with group :=
      { s.group with pending := Function.update s.group.pending k none } } c
        (.publishing f' v)) := by
  obtain rfl : f' = f := Option.some.inj (hk.symm.trans (h.owned.fits_of hc))
  have hpend : ∀ j g, Function.update s.group.pending k none j = some g →
      j ≠ k ∧ s.group.pending j = some g := by
    intro j g hj
    rcases eq_or_ne j k with rfl | hne
    · rw [Function.update_self] at hj
      cases hj
    · rw [Function.update_of_ne hne] at hj
      exact ⟨hne, hj⟩
  -- another initiator fetches for another key
  have hkeep : ∀ d j g, d ≠ c → s.group.pending j = some g → Owns g (s.coro d) →
      Function.update s.group.pending k none j = some g := by
    intro d j g hd hj ho
    rw [Function.update_of_ne, hj]
    rintro rfl
    obtain rfl : f' = g := Option.some.inj (hk.symm.trans hj)
    exact hd (h.owned.unique d c f' ho (by rw [hc]; rfl))
  refine ⟨h.inOrder.take, h.owned.move h.inOrder (fun d hd ↦ ?_) ⟨h.inOrder.pending_lt _ _ hk,
    h.inOrder.pending_open _ _ hk, fun j hj ↦ ?_⟩ (fun g hg ↦ Or.inl (by rw [hc]; exact hg))
    (fun g hg hopen ↦ ?_),
    h.listed.move (by rw [hc]; trivial) (fun g d hd ↦ Or.inl (h.listed.waiters g d hd))
      (fun g l hl ↦ by cases hl) (fun g hg ↦ by cases hg) (fun g d hd ↦ Or.inl hd)⟩
  · exact (h.owned.fits d).change (Nat.le_refl _) (fun j g ho hj ↦ hkeep d j g hd hj ho)
      (fun j g _ hj ↦ (hpend j g hj).2) (fun _ _ ↦ id) fun _ _ _ ↦ id
  · exact (hpend j f' hj).1 (h.inOrder.pending_inj j k f' (hpend j f' hj).2 hk)
  · by_cases ho : Owns g (s.coro c)
    · rw [hc] at ho
      exact Or.inl ho
    · exact Or.inr ⟨hg, hopen, ho⟩

end

theorem Inv.publish (h : Inv s) (hc : s.coro c = .publishing f v) :
    Inv (Sys.move { s with group := s.group.setFetch f ⟨[], v, true⟩ } c
      (.resuming f (s.group.fetches f).waiters)) := by
  obtain ⟨hlt, hopen, hpend⟩ := h.owned.fits_of hc
  have hfetch : ∀ g, g ≠ f →
      (s.group.setFetch f ⟨[], v, true⟩).fetches g = s.group.fetches g :=
    fun g hg ↦ Function.update_of_ne hg _ _
  have hself : (s.group.setFetch f ⟨[], v, true⟩).fetches f = ⟨[], v, true⟩ :=
    Function.update_self _ _ _
  have hdone : ∀ g, (s.group.fetches g).completed = true →
      ((s.group.setFetch f ⟨[], v, true⟩).fetches g).completed = true := by
    intro g hg
    rcases eq_or_ne g f with rfl | hne
    · rw [hself]
    · rwa [hfetch g hne]
  refine ⟨h.inOrder.setFetch hlt (fun _ ↦ hpend) (fun _ ↦ rfl) List.nodup_nil,
    h.owned.move h.inOrder (fun d hd ↦ ?_) ⟨hlt, by rw [hself]⟩
      (fun g hg ↦ Or.inl (by rw [hc]; exact hg)) (fun g hg hopen' ↦ ?_),
    h.listed.move (by rw [hc]; trivial) (fun g d hd ↦ ?_) (fun g l hl ↦ ?_)
      (fun g hg ↦ by cases hg) (fun g d hd ↦ ?_)⟩
  · refine (h.owned.fits d).change (Nat.le_refl _) (fun _ _ _ ↦ id) (fun _ _ _ ↦ id)
      (fun g _ ↦ hdone g) fun g _ ho hg ↦ ?_
    rwa [hfetch g]
    rintro rfl
    exact hd (h.owned.unique d c g ho (by rw [hc]; rfl))
  · have hne : g ≠ f := by
      rintro rfl
      rw [hself] at hopen'
      cases hopen'
    rw [hfetch g hne] at hopen'
    refine Or.inr ⟨hg, hopen', ?_⟩
    rw [hc]
    exact fun ho ↦ hne ho.symm
  · rcases eq_or_ne g f with rfl | hne
    · rw [hself] at hd
      cases hd
    · rw [hfetch g hne] at hd
      exact Or.inl (h.listed.waiters g d hd)
  · cases hl
    exact ⟨h.inOrder.waiters_nodup f, h.listed.waiters f⟩
  · rcases eq_or_ne g f with rfl | hne
    · exact Or.inr ⟨_, rfl, hd⟩
    · rw [hfetch g hne]
      exact Or.inl hd

theorem Inv.suspend (h : Inv s) (hc : s.coro c = .notReady f)
    (hf : (s.group.fetches f).completed = false) :
    Inv (Sys.move { s with group := s.group.setFetch f ((s.group.fetches f).push c) } c
      (.suspended f)) := by
  have hlt : f < s.group.next := h.owned.fits_of hc
  have hfetch : ∀ g, g ≠ f →
      (s.group.setFetch f ((s.group.fetches f).push c)).fetches g = s.group.fetches g :=
    fun g hg ↦ Function.update_of_ne hg _ _
  have hself : (s.group.setFetch f ((s.group.fetches f).push c)).fetches f
      = (s.group.fetches f).push c := Function.update_self _ _ _
  have hcompl : ∀ g, ((s.group.setFetch f ((s.group.fetches f).push c)).fetches g).completed
      = (s.group.fetches g).completed := by
    intro g
    rcases eq_or_ne g f with rfl | hne
    · rw [hself]
      rfl
    · rw [hfetch g hne]
  have hnot : c ∉ (s.group.fetches f).waiters := by
    intro hmem
    have := h.listed.waiters f c hmem
    rw [hc] at this
    cases this
  refine ⟨h.inOrder.setFetch hlt (fun hx ↦ ?_) (fun hx ↦ ?_) ?_,
    h.owned.move h.inOrder (fun d hd ↦ ?_) hlt (fun g hg ↦ hg.elim) (fun g hg hopen ↦ ?_),
    h.listed.move (by rw [hc]; trivial) (fun g d hd ↦ ?_) (fun g l hl ↦ by cases hl)
      (fun g hg ↦ ?_) (fun g d hd ↦ Or.inl ?_)⟩
  · exact absurd (hx.symm.trans hf) (by simp)
  · exact absurd (hx.symm.trans hf) (by simp)
  · exact List.nodup_append.mpr ⟨h.inOrder.waiters_nodup f, List.nodup_singleton c,
      fun a ha b hb hab ↦ hnot (by rwa [← List.mem_singleton.mp hb, ← hab])⟩
  · exact (h.owned.fits d).change (Nat.le_refl _) (fun _ _ _ ↦ id) (fun _ _ _ ↦ id)
      (fun g _ ↦ (hcompl g).trans) fun g _ _ ↦ (hcompl g).trans
  · rw [hcompl g] at hopen
    exact Or.inr ⟨hg, hopen, by rw [hc]; exact id⟩
  · rcases eq_or_ne g f with rfl | hne
    · rw [hself] at hd
      rcases List.mem_append.mp hd with hd | hd
      · exact Or.inl (h.listed.waiters g d hd)
      · exact Or.inr ⟨List.mem_singleton.mp hd, rfl⟩
    · rw [hfetch g hne] at hd
      exact Or.inl (h.listed.waiters g d hd)
  · cases hg
    rw [hself]
    exact List.mem_append_right _ (List.mem_singleton_self c)
  · rcases eq_or_ne g f with rfl | hne
    · rw [hself]
      exact List.mem_append_left _ hd
    · rwa [hfetch g hne]

/-- The resumed coroutine leaves the list of the one that resumes it. -/
theorem Owned.resume {d : C} {rest : List C} (h : Inv s)
    (hc : s.coro c = .resuming f (d :: rest)) (hd : s.coro d = .suspended f) (hdc : d ≠ c) :
    Owned ((s.move c (.resuming f rest)).move d (.ready f)) := by
  have hfit := h.owned.fits_of hc
  have hmoved : Owned (s.move c (.resuming f rest)) := by
    refine h.owned.move h.inOrder (fun a _ ↦ h.owned.fits a) hfit
      (fun g hg ↦ Or.inl (by rw [hc]; exact hg)) (fun g hg hopen ↦ ?_)
    by_cases ho : Owns g (s.coro c)
    · rw [hc] at ho
      exact Or.inl ho
    · exact Or.inr ⟨hg, hopen, ho⟩
  refine hmoved.move h.inOrder (fun a _ ↦ hmoved.fits a) hfit (fun g hg ↦ hg.elim)
    (fun g hg hopen ↦ Or.inr ⟨hg, hopen, ?_⟩)
  rw [move_coro, if_neg hdc, hd]
  exact id

omit [DecidableEq C] in
/-- Whoever waits for a fetch that is being announced is no longer among its waiters. -/
theorem Inv.notMem_waiters {d : C} {l : List C} {g : ℕ} (h : Inv s)
    (hc : s.coro c = .resuming f l) (hd : s.coro d = .suspended f) :
    d ∉ (s.group.fetches g).waiters := by
  intro hmem
  obtain rfl : f = g := Coro.suspended.inj (hd.symm.trans (h.listed.waiters g d hmem))
  rw [h.inOrder.waiters_nil f (h.owned.fits_of hc).2] at hmem
  cases hmem

omit [DecidableEq C] in
/-- Only one coroutine resumes it. -/
theorem Inv.resumer_unique {a d : C} {l l' : List C} {g : ℕ} (h : Inv s)
    (hc : s.coro c = .resuming f l) (hd : s.coro d = .suspended f) (ha : s.coro a = .resuming g l')
    (hmem : d ∈ l') : a = c := by
  have hg := (h.listed.toResume a g l' ha).2 d hmem
  obtain rfl : f = g := Coro.suspended.inj (hd.symm.trans hg)
  exact h.owned.unique a c f (by rw [ha]; rfl) (by rw [hc]; rfl)

theorem Listed.resume {d : C} {rest : List C} (h : Inv s)
    (hc : s.coro c = .resuming f (d :: rest)) (hd : s.coro d = .suspended f) (hdc : d ≠ c) :
    Listed ((s.move c (.resuming f rest)).move d (.ready f)) := by
  obtain ⟨hnd, hsusp⟩ := h.listed.toResume c f _ hc
  obtain ⟨hfresh, hnd⟩ := List.nodup_cons.mp hnd
  have hother : ∀ a, a ≠ c → a ≠ d →
      ((s.move c (.resuming f rest)).move d (.ready f)).coro a = s.coro a := by
    intro a hac had
    rw [move_coro, if_neg had, move_coro, if_neg hac]
  have hself : ((s.move c (.resuming f rest)).move d (.ready f)).coro c = .resuming f rest := by
    rw [move_coro, if_neg hdc.symm, move_coro, if_pos rfl]
  have hready : ((s.move c (.resuming f rest)).move d (.ready f)).coro d = .ready f := by
    rw [move_coro, if_pos rfl]
  -- a suspended coroutine other than the resumed one stays suspended
  have hstay : ∀ a g, a ≠ d → s.coro a = .suspended g →
      ((s.move c (.resuming f rest)).move d (.ready f)).coro a = .suspended g := by
    intro a g had ha
    rw [hother a _ had, ha]
    rintro rfl
    rw [hc] at ha
    cases ha
  refine ⟨fun g a ha ↦ ?_, fun a g l ha ↦ ?_, fun a g ha ↦ ?_⟩
  · refine hstay a g ?_ (h.listed.waiters g a ha)
    rintro rfl
    exact h.notMem_waiters hc hd ha
  · rcases eq_or_ne a c with rfl | hac
    · rw [hself] at ha
      cases ha
      refine ⟨hnd, fun b hb ↦ hstay b f ?_ (hsusp b (List.mem_cons_of_mem _ hb))⟩
      rintro rfl
      exact hfresh hb
    · have had : a ≠ d := by
        rintro rfl
        rw [hready] at ha
        cases ha
      rw [hother a hac had] at ha
      obtain ⟨hnd', hl⟩ := h.listed.toResume a g l ha
      refine ⟨hnd', fun b hb ↦ hstay b g ?_ (hl b hb)⟩
      rintro rfl
      exact hac (h.resumer_unique hc hd ha hb)
  · have had : a ≠ d := by
      rintro rfl
      rw [hready] at ha
      cases ha
    have hac : a ≠ c := by
      rintro rfl
      rw [hself] at ha
      cases ha
    rw [hother a hac had] at ha
    rcases h.listed.listed a g ha with hw | ⟨b, l, hb, hl⟩
    · exact Or.inl hw
    · rcases eq_or_ne b c with rfl | hbc
      · rw [hc] at hb
        cases hb
        exact Or.inr ⟨b, rest, hself, (List.mem_cons.mp hl).resolve_left had⟩
      · refine Or.inr ⟨b, l, ?_, hl⟩
        rw [hother b hbc, hb]
        rintro rfl
        rw [hd] at hb
        cases hb

theorem Inv.resume {d : C} {rest : List C} (h : Inv s)
    (hc : s.coro c = .resuming f (d :: rest)) :
    s.coro d = .suspended f ∧ Inv ((s.move c (.resuming f rest)).resumeCoro d) := by
  have hd : s.coro d = .suspended f := (h.listed.toResume c f _ hc).2 d List.mem_cons_self
  have hdc : d ≠ c := by
    rintro rfl
    rw [hc] at hd
    cases hd
  have heq : (s.move c (.resuming f rest)).resumeCoro d =
      (s.move c (.resuming f rest)).move d (.ready f) := by
    rw [resumeCoro, move_coro, if_neg hdc, hd]
  rw [heq]
  exact ⟨hd, h.inOrder, .resume h hc hd hdc, .resume h hc hd hdc⟩

variable [DecidableEq K]

/-- **Every step keeps the invariant.** -/
theorem Moves.inv {s' : Sys C K V} {e : List (Event C K V)} (h : Inv s) (hm : Moves s s' e) :
    Inv s' := by
  cases hm with
  | start hc hk => exact h.start hc hk
  | join hc hk =>
      exact h.move (by rw [hc]; trivial) (h.inOrder.pending_lt _ _ hk) trivial (fun f hf ↦ hf.elim)
        (fun f _ ho ↦ by rw [hc] at ho; exact ho.elim)
  | call hc =>
      have hfit := h.owned.fits_of hc
      exact h.move (by rw [hc]; trivial) hfit trivial (fun f hf ↦ by rw [hc]; exact hf)
        (fun f _ ho ↦ by rw [hc] at ho; exact ho)
  | takeNone hc hk =>
      have hfit := h.owned.fits_of hc
      exact absurd (hk.symm.trans hfit) (by simp)
  | take hc hk => exact h.take hc hk
  | publish hc => exact h.publish hc
  | resume hc => exact (h.resume hc).2
  | done hc =>
      have hfit := h.owned.fits_of hc
      refine h.move (by rw [hc]; exact rfl) trivial trivial (fun f hf ↦ hf.elim) (fun g hg ho ↦ ?_)
      rw [hc] at ho
      cases ho
      exact absurd (hfit.2.symm.trans hg) (by simp)
  | ready hc hf =>
      rcases hc with hc | hc <;>
        exact h.move (by rw [hc]; trivial) ⟨h.owned.fits_of hc, hf⟩ trivial (fun f hf ↦ hf.elim)
          (fun f _ ho ↦ by rw [hc] at ho; exact ho.elim)
  | notReady hc hf =>
      have hfit := h.owned.fits_of hc
      exact h.move (by rw [hc]; trivial) hfit trivial (fun f hf ↦ hf.elim)
        (fun f _ ho ↦ by rw [hc] at ho; exact ho.elim)
  | suspend hc hf => exact h.suspend hc hf
  | obtain hc =>
      exact h.move (by rw [hc]; trivial) trivial trivial (fun f hf ↦ hf.elim)
        (fun f _ ho ↦ by rw [hc] at ho; exact ho.elim)

omit [DecidableEq C] [DecidableEq K] in
theorem inv_init : Inv (⟨.empty, fun _ ↦ .idle⟩ : Sys C K V) := by
  refine ⟨⟨fun _ _ ↦ rfl, ?_, ?_, ?_, fun _ _ ↦ rfl, fun _ ↦ List.nodup_nil⟩,
    ⟨fun _ ↦ trivial, fun _ _ _ h ↦ h.elim, ?_⟩, ⟨?_, ?_, ?_⟩⟩
  · rintro k f ⟨⟩
  · rintro k j f ⟨⟩
  · rintro k f ⟨⟩
  · intro f hf
    exact absurd hf (Nat.not_lt_zero f)
  · rintro f c ⟨⟩
  · rintro c f l ⟨⟩
  · rintro c f ⟨⟩

end Sys

/-! ## Traces -/

/-- The coroutine joins some fetch. -/
def Joins (c : C) : Event C K V → Prop
  | .joined d _ _ _ => d = c
  | _ => False

/-- The coroutine is resumed. -/
def Resumes (c : C) : Event C K V → Prop
  | .resumed d _ => d = c
  | _ => False

/-- The rule each event obeys, given the events before it.

* A fetch has one initiator, and its initiator calls `complete` once.
* The result of a fetch is written once, and is what its initiator passed.
* A coroutine is resumed only after it was suspended, and not again.
* A coroutine obtains, for the fetch it joined last, the value that the initiator
  of that fetch passed. -/
def Rule (past : List (Event C K V)) : Event C K V → Prop
  | .joined _ _ f true => ∀ d j b, .joined d j f b ∉ past
  | .joined _ k f false => ∃ i, .joined i k f true ∈ past
  | .called c k f _ => .joined c k f true ∈ past ∧ ∀ d j w, .called d j f w ∉ past
  | .wrote f v =>
    (∃ i k, .joined i k f true ∈ past ∧ .called i k f v ∈ past) ∧ ∀ w, .wrote f w ∉ past
  | .suspended c f => ∃ k, Since (· = .joined c k f false) (Joins c) past
  | .resumed c f => Since (· = .suspended c f) (Resumes c) past
  | .obtained c f v =>
    ∃ k i, Since (· = .joined c k f false) (Joins c) past ∧ .joined i k f true ∈ past ∧
      .called i k f v ∈ past

/-- What the trace says about where a coroutine stands. -/
def Recalls (tr : List (Event C K V)) (c : C) : Coro C K V → Prop
  | .idle | .resuming _ _ => True
  | .fetching k f => .joined c k f true ∈ tr ∧ ∀ d j w, .called d j f w ∉ tr
  | .completing k f v => .joined c k f true ∈ tr ∧ .called c k f v ∈ tr
  | .publishing f v => ∃ k, .joined c k f true ∈ tr ∧ .called c k f v ∈ tr
  | .joined f | .notReady f | .ready f => ∃ k, Since (· = .joined c k f false) (Joins c) tr
  | .suspended f =>
    (∃ k, Since (· = .joined c k f false) (Joins c) tr) ∧
      Since (· = .suspended c f) (Resumes c) tr

namespace Sys

/-- The invariant of the traces. -/
structure Past (s : Sys C K V) (tr : List (Event C K V)) : Prop where
  joined_lt : ∀ c k f b, .joined c k f b ∈ tr → f < s.group.next
  initiator : ∀ c k f b, .joined c k f b ∈ tr → ∃ i, .joined i k f true ∈ tr
  initiator_unique : ∀ c d k j f, .joined c k f true ∈ tr → .joined d j f true ∈ tr →
    c = d ∧ k = j
  called_joined : ∀ c k f v, .called c k f v ∈ tr → .joined c k f true ∈ tr
  wrote_iff : ∀ f v, .wrote f v ∈ tr ↔
    (s.group.fetches f).completed = true ∧ (s.group.fetches f).result = v
  completed_called : ∀ f, (s.group.fetches f).completed = true →
    ∃ i k, .joined i k f true ∈ tr ∧ .called i k f (s.group.fetches f).result ∈ tr
  recalls : ∀ c, Recalls tr c (s.coro c)
  rule : Guarded Rule tr

variable {s s' : Sys C K V} {tr e : List (Event C K V)}

/-- What a coroutine recalls survives events that are not its own. -/
theorem recalls_append {c : C} {x : Coro C K V} (h : Recalls tr c x)
    (hj : ∀ y ∈ e, ¬ Joins c y) (hr : ∀ y ∈ e, ¬ Resumes c y)
    (hcall : ∀ f, Owns f x → ∀ d j w, .called d j f w ∉ e) : Recalls (tr ++ e) c x := by
  cases x with
  | idle => trivial
  | resuming f l => trivial
  | fetching k f =>
      refine ⟨List.mem_append_left _ h.1, fun d j w hmem ↦ ?_⟩
      exact (List.mem_append.mp hmem).elim (h.2 d j w) (hcall f rfl d j w)
  | completing k f v => exact ⟨List.mem_append_left _ h.1, List.mem_append_left _ h.2⟩
  | publishing f v =>
      obtain ⟨k, h₁, h₂⟩ := h
      exact ⟨k, List.mem_append_left _ h₁, List.mem_append_left _ h₂⟩
  | joined f => exact h.imp fun k hk ↦ since_append.mpr (Or.inr ⟨hk, hj⟩)
  | notReady f => exact h.imp fun k hk ↦ since_append.mpr (Or.inr ⟨hk, hj⟩)
  | ready f => exact h.imp fun k hk ↦ since_append.mpr (Or.inr ⟨hk, hj⟩)
  | suspended f =>
      exact ⟨h.1.imp fun k hk ↦ since_append.mpr (Or.inr ⟨hk, hj⟩),
        since_append.mpr (Or.inr ⟨h.2, hr⟩)⟩

theorem recalls_move [DecidableEq C] {g : WaitGroup C K V} {c : C} {y : Coro C K V}
    (h : ∀ d, Recalls tr d (s.coro d)) (hc : Recalls (tr ++ e) c y)
    (hj : ∀ d, d ≠ c → ∀ x ∈ e, ¬ Joins d x) (hr : ∀ d, d ≠ c → ∀ x ∈ e, ¬ Resumes d x)
    (hcall : ∀ d, d ≠ c → ∀ f, Owns f (s.coro d) → ∀ i k w, .called i k f w ∉ e) (d : C) :
    Recalls (tr ++ e) d ((Sys.move { s with group := g } c y).coro d) := by
  rw [move_coro]
  split
  · subst d
    exact hc
  · rename_i hd
    exact recalls_append (h d) (hj d hd) (hr d hd) (hcall d hd)

/-- A step that shows at most one event. -/
theorem Past.extend (h : Past s tr) (hone : e.length ≤ 1) (hnext : s.group.next ≤ s'.group.next)
    (hrec : ∀ d, Recalls (tr ++ e) d (s'.coro d))
    (hjoin : ∀ c k f b, .joined c k f b ∈ e → f < s'.group.next ∧
      if b then s.group.next ≤ f else ∃ i, .joined i k f true ∈ tr)
    (hcall : ∀ c k f v, .called c k f v ∈ e → .joined c k f true ∈ tr)
    (hwrote : ∀ f v, .wrote f v ∈ tr ++ e ↔
      (s'.group.fetches f).completed = true ∧ (s'.group.fetches f).result = v)
    (hdone : ∀ f, (s'.group.fetches f).completed = true →
      ∃ i k, .joined i k f true ∈ tr ∧ .called i k f (s'.group.fetches f).result ∈ tr)
    (hrule : ∀ x ∈ e, Rule tr x) : Past s' (tr ++ e) := by
  refine ⟨?_, ?_, ?_, ?_, hwrote, ?_, hrec, ?_⟩
  · intro c k f b hmem
    rcases List.mem_append.mp hmem with hmem | hmem
    · exact Nat.lt_of_lt_of_le (h.joined_lt c k f b hmem) hnext
    · exact (hjoin c k f b hmem).1
  · intro c k f b hmem
    rcases List.mem_append.mp hmem with hmem | hmem
    · exact (h.initiator c k f b hmem).imp fun i hi ↦ List.mem_append_left _ hi
    · cases b with
      | true => exact ⟨c, List.mem_append_right _ hmem⟩
      | false => exact ((hjoin c k f false hmem).2).imp fun i hi ↦ List.mem_append_left _ hi
  · -- a new initiator has a handle that nobody had before
    have hnew : ∀ c d k j f, .joined c k f true ∈ tr → .joined d j f true ∉ e := by
      intro c d k j f hc hd
      exact absurd (h.joined_lt c k f true hc) (Nat.not_lt.mpr (hjoin d j f true hd).2)
    intro c d k j f hc hd
    rcases List.mem_append.mp hc with hc | hc <;> rcases List.mem_append.mp hd with hd | hd
    · exact h.initiator_unique c d k j f hc hd
    · exact absurd hd (hnew c d k j f hc)
    · exact absurd hc (hnew d c j k f hd)
    · obtain ⟨x, rfl⟩ : ∃ x, e = [x] := by
        rcases e with _ | ⟨x, _ | ⟨y, e⟩⟩
        · cases hc
        · exact ⟨x, rfl⟩
        · simp at hone
      have := (List.mem_singleton.mp hc).trans (List.mem_singleton.mp hd).symm
      cases this
      exact ⟨rfl, rfl⟩
  · intro c k f v hmem
    rcases List.mem_append.mp hmem with hmem | hmem
    · exact List.mem_append_left _ (h.called_joined c k f v hmem)
    · exact List.mem_append_left _ (hcall c k f v hmem)
  · intro f hf
    obtain ⟨i, k, h₁, h₂⟩ := hdone f hf
    exact ⟨i, k, List.mem_append_left _ h₁, List.mem_append_left _ h₂⟩
  · refine h.rule.append fun pre x post heq ↦ ?_
    obtain rfl : pre = [] := by
      rw [heq] at hone
      rcases pre with _ | ⟨y, pre⟩
      · rfl
      · simp at hone
    rw [List.append_nil]
    exact hrule x (by rw [heq]; simp)

/-- A step that writes no result. -/
theorem Past.quiet (h : Past s tr) (hone : e.length ≤ 1) (hnext : s.group.next ≤ s'.group.next)
    (hsame : ∀ f, (s'.group.fetches f).completed = (s.group.fetches f).completed ∧
      (s'.group.fetches f).result = (s.group.fetches f).result)
    (hrec : ∀ d, Recalls (tr ++ e) d (s'.coro d))
    (hjoin : ∀ c k f b, .joined c k f b ∈ e → f < s'.group.next ∧
      if b then s.group.next ≤ f else ∃ i, .joined i k f true ∈ tr)
    (hcall : ∀ c k f v, .called c k f v ∈ e → .joined c k f true ∈ tr)
    (hwrote : ∀ f v, .wrote f v ∉ e) (hrule : ∀ x ∈ e, Rule tr x) : Past s' (tr ++ e) := by
  refine h.extend hone hnext hrec hjoin hcall (fun f v ↦ ?_) (fun f hf ↦ ?_) hrule
  · rw [(hsame f).1, (hsame f).2, ← h.wrote_iff, List.mem_append, or_iff_left (hwrote f v)]
  · rw [(hsame f).1] at hf
    rw [(hsame f).2]
    exact h.completed_called f hf

/-- A pending fetch has an initiator. -/
theorem Inv.exists_initiator (h : Inv s) {k : K} {f : ℕ} (hk : s.group.pending k = some f) :
    ∃ c, s.coro c = .fetching k f ∨ ∃ v, s.coro c = .completing k f v := by
  have hopen := h.inOrder.pending_open k f hk
  obtain ⟨c, hc⟩ := h.owned.exists_owner f (h.inOrder.pending_lt k f hk) hopen
  refine ⟨c, ?_⟩
  cases hx : s.coro c with
  | fetching j g =>
      rw [hx] at hc
      cases hc
      obtain rfl := h.inOrder.pending_inj k j f hk (h.owned.fits_of hx)
      exact Or.inl rfl
  | completing j g v =>
      rw [hx] at hc
      cases hc
      obtain rfl := h.inOrder.pending_inj k j f hk (h.owned.fits_of hx)
      exact Or.inr ⟨v, rfl⟩
  | publishing g v =>
      rw [hx] at hc
      cases hc
      exact absurd hk ((h.owned.fits_of hx).2.2 k)
  | resuming g l =>
      rw [hx] at hc
      cases hc
      exact absurd ((h.owned.fits_of hx).2.symm.trans hopen) (by simp)
  | idle => rw [hx] at hc; exact hc.elim
  | joined g => rw [hx] at hc; exact hc.elim
  | notReady g => rw [hx] at hc; exact hc.elim
  | suspended g => rw [hx] at hc; exact hc.elim
  | ready g => rw [hx] at hc; exact hc.elim

theorem Past.recalls_of (h : Past s tr) {c : C} {x : Coro C K V} (hc : s.coro c = x) :
    Recalls tr c x := hc ▸ h.recalls c

variable [DecidableEq C]

/-- A step without an event. -/
theorem Past.silent {g : WaitGroup C K V} {c : C} {y : Coro C K V} (h : Past s tr)
    (hnext : g.next = s.group.next) (hfetches : g.fetches = s.group.fetches)
    (hy : Recalls tr c y) : Past (Sys.move { s with group := g } c y) (tr ++ []) := by
  refine h.quiet (by simp) (Nat.le_of_eq hnext.symm) (fun f ↦ ?_)
    (recalls_move h.recalls ?_ (by simp) (by simp) (by simp)) (by simp) (by simp) (by simp)
    (by simp)
  · rw [move_group, hfetches]
    exact ⟨rfl, rfl⟩
  · rw [List.append_nil]
    exact hy

theorem Past.join {c : C} {k : K} {f : ℕ} (hp : Past s tr) (h : Inv s)
    (hk : s.group.pending k = some f) :
    Past (s.move c (.joined f)) (tr ++ [.joined c k f false]) := by
  have hinit : ∃ i, .joined i k f true ∈ tr := by
    obtain ⟨i, hi | ⟨v, hi⟩⟩ := h.exists_initiator hk
    · exact ⟨i, (hp.recalls_of hi).1⟩
    · exact ⟨i, (hp.recalls_of hi).1⟩
  refine hp.quiet (by simp) (Nat.le_refl _) (fun f ↦ ⟨rfl, rfl⟩)
    (recalls_move hp.recalls ⟨k, since_append.mpr (Or.inl ⟨[], _, [], rfl, rfl, by simp⟩)⟩
      (fun d hd x hx ↦ ?_) (by simp [Resumes]) (by simp)) (fun d j g b hmem ↦ ?_) (by simp)
    (by simp) (fun x hx ↦ ?_)
  · rw [List.mem_singleton.mp hx]
    exact hd.symm
  · cases List.mem_singleton.mp hmem
    exact ⟨h.inOrder.pending_lt k f hk, hinit⟩
  · rw [List.mem_singleton.mp hx]
    exact hinit

theorem Past.call {c : C} {k : K} {f : ℕ} {v : Option V} (hp : Past s tr) (h : Inv s)
    (hc : s.coro c = .fetching k f) :
    Past (s.move c (.completing k f v)) (tr ++ [.called c k f v]) := by
  obtain ⟨hjoined, hno⟩ := hp.recalls_of hc
  refine hp.quiet (by simp) (Nat.le_refl _) (fun f ↦ ⟨rfl, rfl⟩)
    (recalls_move hp.recalls ⟨List.mem_append_left _ hjoined, by simp⟩ (by simp [Joins])
      (by simp [Resumes]) (fun d hd g hg i j w hmem ↦ ?_)) (by simp) (fun d j g w hmem ↦ ?_)
    (by simp) (fun x hx ↦ ?_)
  · cases List.mem_singleton.mp hmem
    exact hd (h.owned.unique d c f hg (by rw [hc]; rfl))
  · cases List.mem_singleton.mp hmem
    exact hjoined
  · rw [List.mem_singleton.mp hx]
    exact ⟨hjoined, hno⟩

/-- The only step that writes a result. -/
theorem Past.publish {c : C} {f : ℕ} {v : Option V} (hp : Past s tr) (h : Inv s)
    (hc : s.coro c = .publishing f v) :
    Past (Sys.move { s with group := s.group.setFetch f ⟨[], v, true⟩ } c
      (.resuming f (s.group.fetches f).waiters)) (tr ++ [.wrote f v]) := by
  obtain ⟨-, hopen, -⟩ := h.owned.fits_of hc
  obtain ⟨k, hjoined, hcalled⟩ := hp.recalls_of hc
  have hno : ∀ w, .wrote f w ∉ tr := fun w hmem ↦
    absurd (((hp.wrote_iff f w).mp hmem).1.symm.trans hopen) (by simp)
  refine hp.extend (by simp) (Nat.le_refl _)
    (recalls_move hp.recalls trivial (by simp [Joins]) (by simp [Resumes]) (by simp)) (by simp)
    (by simp) (fun g w ↦ ?_) (fun g hg ↦ ?_) (fun x hx ↦ ?_)
  · rcases eq_or_ne g f with rfl | hne
    · simp [setFetch, hno, eq_comm]
    · simp [setFetch, hne, hp.wrote_iff]
  · rcases eq_or_ne g f with rfl | hne
    · exact ⟨c, k, hjoined, by simpa [setFetch] using hcalled⟩
    · simp only [move_group, setFetch, Function.update_of_ne hne] at hg ⊢
      exact hp.completed_called g hg
  · rw [List.mem_singleton.mp hx]
    exact ⟨⟨c, k, hjoined, hcalled⟩, hno⟩

theorem Past.resume {c d : C} {f : ℕ} {rest : List C} (hp : Past s tr)
    (hc : s.coro c = .resuming f (d :: rest)) (hd : s.coro d = .suspended f) :
    Past ((s.move c (.resuming f rest)).resumeCoro d) (tr ++ [.resumed d f]) := by
  obtain ⟨hjoined, hsusp⟩ := hp.recalls_of hd
  have hdc : d ≠ c := by
    rintro rfl
    rw [hc] at hd
    cases hd
  have hd' : (s.move c (.resuming f rest)).coro d = .suspended f := by
    rw [move_coro, if_neg hdc, hd]
  have heq : (s.move c (.resuming f rest)).resumeCoro d
      = (s.move c (.resuming f rest)).move d (.ready f) := by
    rw [resumeCoro, hd']
  rw [heq]
  have hrec : ∀ a, Recalls tr a ((s.move c (.resuming f rest)).coro a) := by
    intro a
    rw [move_coro]
    split
    · trivial
    · exact hp.recalls a
  refine hp.quiet (by simp) (Nat.le_refl _) (fun f ↦ ⟨rfl, rfl⟩)
    (recalls_move hrec (hjoined.imp fun k hk ↦ since_append.mpr (Or.inr ⟨hk, by simp [Joins]⟩))
      (by simp [Joins]) (fun a ha x hx ↦ ?_) (by simp)) (by simp) (by simp) (by simp)
    (fun x hx ↦ ?_)
  · rw [List.mem_singleton.mp hx]
    exact ha.symm
  · rw [List.mem_singleton.mp hx]
    exact hsusp

theorem Past.suspend {c : C} {f : ℕ} (hp : Past s tr) (hc : s.coro c = .notReady f) :
    Past (Sys.move { s with group := s.group.setFetch f ((s.group.fetches f).push c) } c
      (.suspended f)) (tr ++ [.suspended c f]) := by
  have hjoined := hp.recalls_of hc
  refine hp.quiet (by simp) (Nat.le_refl _) (fun g ↦ ?_)
    (recalls_move hp.recalls ⟨hjoined.imp fun k hk ↦ since_append.mpr
      (Or.inr ⟨hk, by simp [Joins]⟩), since_append.mpr (Or.inl ⟨[], _, [], rfl, rfl, by simp⟩)⟩
      (by simp [Joins]) (by simp [Resumes]) (by simp)) (by simp) (by simp) (by simp)
    (fun x hx ↦ ?_)
  · rcases eq_or_ne g f with rfl | hne
    · simp [setFetch, PendingFetch.push]
    · simp [setFetch, hne]
  · rw [List.mem_singleton.mp hx]
    exact hjoined

theorem Past.obtain {c : C} {f : ℕ} (hp : Past s tr) (h : Inv s) (hc : s.coro c = .ready f) :
    Past (s.move c .idle) (tr ++ [.obtained c f (s.group.fetches f).result]) := by
  obtain ⟨k, hk⟩ := hp.recalls_of hc
  have hmem : .joined c k f false ∈ tr := by
    obtain ⟨pre, x, post, rfl, rfl, -⟩ := hk
    simp
  obtain ⟨i, hi⟩ := hp.initiator c k f false hmem
  obtain ⟨j, l, hj, hcalled⟩ := hp.completed_called f (h.owned.fits_of hc).2
  obtain ⟨rfl, rfl⟩ := hp.initiator_unique i j k l f hi hj
  refine hp.quiet (by simp) (Nat.le_refl _) (fun f ↦ ⟨rfl, rfl⟩)
    (recalls_move hp.recalls trivial (by simp [Joins]) (by simp [Resumes]) (by simp)) (by simp)
    (by simp) (by simp) (fun x hx ↦ ?_)
  rw [List.mem_singleton.mp hx]
  exact ⟨k, i, hk, hi, hcalled⟩

variable [DecidableEq K]

theorem Past.start {c : C} {k : K} (hp : Past s tr) (h : Inv s) :
    Past (Sys.move { s with group :=
      { pending := Function.update s.group.pending k (some s.group.next)
        fetches := Function.update s.group.fetches s.group.next .new
        next := s.group.next + 1 } } c (.fetching k s.group.next))
      (tr ++ [.joined c k s.group.next true]) := by
  have hfetch : Function.update s.group.fetches s.group.next .new = s.group.fetches := by
    rw [← h.inOrder.fresh _ (Nat.le_refl _), Function.update_eq_self]
  refine hp.quiet (by simp) (Nat.le_succ _) (fun f ↦ by simp [hfetch])
    (recalls_move hp.recalls ⟨by simp, fun d j w hmem ↦ ?_⟩ (fun d hd x hx ↦ ?_)
      (by simp [Resumes]) (by simp)) (fun d j f b hmem ↦ ?_) (by simp) (by simp) (fun x hx ↦ ?_)
  · rcases List.mem_append.mp hmem with hmem | hmem
    · exact absurd (hp.joined_lt _ _ _ _ (hp.called_joined _ _ _ _ hmem)) (Nat.lt_irrefl _)
    · simp at hmem
  · rw [List.mem_singleton.mp hx]
    exact hd.symm
  · cases List.mem_singleton.mp hmem
    exact ⟨Nat.lt_succ_self _, Nat.le_refl _⟩
  · rw [List.mem_singleton.mp hx]
    exact fun d j b hmem ↦ absurd (hp.joined_lt _ _ _ _ hmem) (Nat.lt_irrefl _)

/-- **Every step keeps the invariant of the traces.** -/
theorem Moves.past (h : Inv s) (hp : Past s tr) (hm : Moves s s' e) : Past s' (tr ++ e) := by
  cases hm with
  | start => exact hp.start h
  | join hc hk => exact hp.join h hk
  | call hc => exact hp.call h hc
  | takeNone hc hk => exact absurd (hk.symm.trans (h.owned.fits_of hc)) (by simp)
  | @take c k f f' v hc hk =>
      obtain rfl : f' = f := Option.some.inj (hk.symm.trans (h.owned.fits_of hc))
      exact hp.silent rfl rfl ⟨k, hp.recalls_of hc⟩
  | publish hc => exact hp.publish h hc
  | resume hc => exact hp.resume hc (h.resume hc).1
  | done => exact hp.silent (g := s.group) rfl rfl trivial
  | ready hc =>
      rcases hc with hc | hc
      · have hrec := hp.recalls_of hc
        exact hp.silent (g := s.group) rfl rfl hrec
      · have hrec := hp.recalls_of hc
        exact hp.silent (g := s.group) rfl rfl hrec
  | notReady hc =>
      have hrec := hp.recalls_of hc
      exact hp.silent (g := s.group) rfl rfl hrec
  | suspend hc => exact hp.suspend hc
  | obtain hc => exact hp.obtain h hc

omit [DecidableEq C] [DecidableEq K] in
theorem past_init : Past (⟨.empty, fun _ ↦ .idle⟩ : Sys C K V) [] := by
  refine ⟨?_, ?_, ?_, ?_, ?_, ?_, fun _ ↦ trivial, guarded_nil⟩
  · rintro c k f b ⟨⟩
  · rintro c k f b ⟨⟩
  · rintro c d k j f ⟨⟩
  · rintro c k f v ⟨⟩
  · intro f v
    simp [WaitGroup.empty, PendingFetch.new]
  · rintro f ⟨⟩

/-- **The invariants hold in every run.** -/
theorem run_inv (h : (machine C K V).Run s tr) : Inv s ∧ Past s tr := by
  refine h.invariant (I := fun s tr ↦ Inv s ∧ Past s tr) (fun s hs ↦ ?_)
    fun s tr a s' e _ ⟨hi, hp⟩ hs ↦ ?_
  · subst hs
    exact ⟨inv_init, past_init⟩
  · have hm := step_moves hs
    exact ⟨hm.inv hi, hm.past hi hp⟩

omit [DecidableEq C] [DecidableEq K] in
/-- Two initiators of one key are the same coroutine. -/
theorem Inv.initiates_unique (h : Inv s) {k : K} {c d : C} (hc : Initiates k (s.coro c))
    (hd : Initiates k (s.coro d)) : c = d := by
  have hown : ∀ c, Initiates k (s.coro c) → ∃ f, s.group.pending k = some f ∧
      Owns f (s.coro c) := by
    intro c hc
    cases hx : s.coro c <;> rw [hx] at hc <;> cases hc
    · exact ⟨_, h.owned.fits_of hx, rfl⟩
    · exact ⟨_, h.owned.fits_of hx, rfl⟩
  obtain ⟨f, hf, hcf⟩ := hown c hc
  obtain ⟨g, hg, hdg⟩ := hown d hd
  obtain rfl : f = g := Option.some.inj (hf.symm.trans hg)
  exact h.owned.unique c d f hcf hdg

/-- **Wait groups deliver each result once.**  In every run there is at most one
initiator for a key that has not completed; every event obeys its `Rule`; a
completed fetch has no waiters left; and a suspended coroutine is waiting for an
owner that has yet to complete the fetch, or is about to be resumed. -/
theorem delivers_once (h : (machine C K V).Run s tr) :
    (∀ k c d, Initiates k (s.coro c) → Initiates k (s.coro d) → c = d) ∧
      Guarded Rule tr ∧
      (∀ f, (s.group.fetches f).completed = true → (s.group.fetches f).waiters = []) ∧
      ∀ c f, s.coro c = .suspended f →
        (c ∈ (s.group.fetches f).waiters ∧ ∃ i, Owns f (s.coro i)) ∨
          ∃ d l, s.coro d = .resuming f l ∧ c ∈ l := by
  obtain ⟨hi, hp⟩ := run_inv h
  refine ⟨fun k c d hc hd ↦ hi.initiates_unique hc hd, hp.rule, hi.inOrder.waiters_nil,
    fun c f hc ↦ ?_⟩
  rcases hi.listed.listed c f hc with hw | hl
  · refine Or.inl ⟨hw, hi.owned.exists_owner f (hi.owned.fits_of hc) ?_⟩
    by_contra hopen
    rw [hi.inOrder.waiters_nil f (by simpa using hopen)] at hw
    cases hw
  · exact Or.inr hl

/-- A fetch with a waiter that suspends and one that comes late; a new fetch of the
same key begins between the two sections of `complete`. -/
def lateWaiterRun : List (Action ℕ Unit Bool) :=
  [.tryJoin 0 (), .tryJoin 1 (), .awaitReady 1, .awaitSuspend 1, .tryJoin 2 (),
    .complete 0 (some true), .takePending 0, .tryJoin 3 (), .publish 0, .awaitReady 2,
    .awaitResume 2, .resume 0, .awaitResume 1, .return 0]

theorem delivers_once_late_waiter :
    ∃ (s : Sys ℕ Unit Bool) (tr : List (Event ℕ Unit Bool)),
      (machine ℕ Unit Bool).exec ⟨.empty, fun _ ↦ .idle⟩ lateWaiterRun = some (s, tr) ∧
      (∀ k c d, Initiates k (s.coro c) → Initiates k (s.coro d) → c = d) ∧
      Guarded Rule tr ∧
      (∀ f, (s.group.fetches f).completed = true → (s.group.fetches f).waiters = []) ∧
      ∀ c f, s.coro c = .suspended f →
        (c ∈ (s.group.fetches f).waiters ∧ ∃ i, Owns f (s.coro i)) ∨
          ∃ d l, s.coro d = .resuming f l ∧ c ∈ l := by
  have hsome : ((machine ℕ Unit Bool).exec ⟨.empty, fun _ ↦ .idle⟩ lateWaiterRun).isSome := by
    decide +kernel
  obtain ⟨⟨s, tr⟩, hexec⟩ := Option.isSome_iff_exists.mp hsome
  have hrun : (machine ℕ Unit Bool).Run s ([] ++ tr) := (Machine.Run.init rfl).exec hexec
  exact ⟨s, tr, hexec, delivers_once hrun⟩

end Sys

end Pensieve.WaitGroup
