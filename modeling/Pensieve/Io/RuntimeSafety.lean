import Mathlib.Data.List.Pairwise
import Mathlib.Data.Nat.Init
import Mathlib.Logic.Relation
import Pensieve.Io.Handles

/-!
# What the runtime guarantees

Consequences of `Runtime.Inv` for all programs written with the runtime.

* Operations of the ring and coroutines suspended on them are in one-to-one
  correspondence (`Inv.io_iff`), so the kernel never writes to a frame that is gone.
* Nothing is resumed, destroyed or looked at that is not there; the one thing that
  can go wrong is that the submission queue is full (`Inv.of_faulty`).
* A coroutine that waits does so, through the coroutines that it has called, for
  something that is under way (`Inv.underWay`).
* A coroutine that is resumed gets the result of its own operation, and gets it once
  (`Told`).
* A frame is destroyed once (`Buried`).
-/

namespace Pensieve.Runtime

open Foundation

section

variable {O W : Type*} [DecidableEq W] {s s' : Runtime O W} {ev : List (Event O)} {f g : ℕ}
  {op : O}

/-- Entries of different operations have different coroutines. -/
theorem Inv.io_inj {op' : O} (h : Inv s) (h₁ : .io op f ∈ s.ring.entries)
    (h₂ : .io op' f ∈ s.ring.entries) : op = op' := by
  have hnodup : (s.ring.entries.filterMap Sqe.coroutine).Nodup := h.handles.nodup .ring
  rw [List.Nodup, List.pairwise_filterMap] at hnodup
  have hsymm : Std.Symm fun a a' : Sqe O ↦
      ∀ b, a.coroutine = some b → ∀ b', a'.coroutine = some b' → b ≠ b' :=
    ⟨fun a b hab x hx y hy ↦ (hab y hy x hx).symm⟩
  by_contra hne
  exact hnodup.forall h₁ h₂ (fun heq ↦ hne (Sqe.io.inj heq).1) f rfl f rfl rfl

/-- **Operations and the coroutines that wait for them.** -/
theorem Inv.io_iff (h : Inv s) : .io op f ∈ s.ring.entries ↔ s.point f = some (.submitted op) := by
  constructor
  · intro hmem
    obtain ⟨op', hpoint, hmem'⟩ := h.fits .ring f (List.mem_filterMap.mpr ⟨_, hmem, rfl⟩)
    rw [hpoint, h.io_inj hmem' hmem]
  · intro hp
    obtain ⟨x, -, hfits⟩ := h.holder (f := f) (by rw [hp]; rfl)
    cases x with
    | ring =>
        obtain ⟨op', hpoint, hmem⟩ := hfits
        rw [hp, Option.some.injEq, Point.submitted.injEq] at hpoint
        rwa [hpoint]
    | native => rw [Fits, hp] at hfits; cases hfits
    | child g => rw [Fits, hp] at hfits; cases hfits
    | fetch w => rw [Fits, hp] at hfits; cases hfits
    | released => rw [Fits, hp] at hfits; cases hfits

/-! ## Faults -/

/-- The only fault is a full queue. -/
theorem Inv.of_faulty (h : Inv s) {x : Fault} (hx : Faulty s x) :
    x = .nullSqe ∧ s.ring.depth ≤ s.ring.sq.length ∧ (s.stack ≠ [] ∨ s.Busy) := by
  cases hx with
  | full hfull hbusy => exact ⟨rfl, hfull, hbusy⟩
  | @returned f p rest x hstack hc hp =>
      have hawait := h.awaiting_of_caller hc
      have hne : p ≠ f := by
        rintro rfl
        rw [h.active hstack] at hawait
        cases hawait
      exact absurd ((Function.update_of_ne hne ..).trans hawait) hp
  | @released g hs rest x hstack hp =>
      refine absurd (h.fits .released g ?_) hp
      rw [Runtime.handles, hstack]
      exact List.mem_cons_self
  | resumed hcq hp =>
      refine absurd (h.io_iff.mp ?_) hp
      exact (IoUringContext.entries_reap hcq).mem_iff.mpr List.mem_cons_self
  | @erased l f g rest x hstack hg hp =>
      have halive : (s.point g).isSome = true := by
        rcases List.mem_append.mp hg with hg | hg
        · exact h.owners.alive_of_mem (show g ∈ s.owners (.list l) from hg)
        · refine h.owners.alive_of_mem (p := .starting) ?_
          rw [Runtime.owners, hstack, List.mem_singleton.mp hg]
          exact List.mem_cons_self
      rw [hp] at halive
      cases halive

/-! ## Waiting -/

/-- A coroutine that is awaited has been started and is not done. -/
theorem Inv.resumable_of_caller (h : Inv s) (hc : s.caller g = some f) :
    resumable (s.point g) = true := by
  have hmem : g ∈ s.owners (.parent f) := by
    rw [Runtime.owners, h.awaiting_of_caller hc]
    exact List.mem_singleton_self g
  have halive := h.owners.alive_of_mem hmem
  cases hp : s.point g with
  | none =>
      rw [hp] at halive
      cases halive
  | some v =>
      cases v with
      | initial =>
          have hroot := h.top .roots g (h.unstarted g hp) (by rintro p ⟨⟩)
          rw [hc] at hroot
          cases hroot
      | done =>
          have hnone := h.finished g hp
          rw [hc] at hnone
          cases hnone
      | active => rfl
      | awaiting _ => rfl
      | submitted _ => rfl
      | parked => rfl

/-- Something is under way that will resume the coroutine. -/
def UnderWay (s : Runtime O W) (f : ℕ) : Prop :=
  .exec f ∈ s.stack ∨ (∃ op, .io op f ∈ s.ring.entries) ∨ (∃ w, f ∈ s.waiters w) ∨
    ∃ hs, .complete hs ∈ s.stack ∧ f ∈ hs

/-- A coroutine that has to be resumed waits, through those that it has called, for something that
is under way.  The induction is on the age of the coroutine, since a callee is younger than its
caller. -/
theorem Inv.underWay (h : Inv s) (hr : resumable (s.point f) = true) :
    ∃ g, Relation.ReflTransGen (fun a b ↦ s.point a = some (.awaiting b)) f g ∧
      s.UnderWay g := by
  induction hn : s.next - f using Nat.strong_induction_on generalizing f with
  | h n ih =>
      obtain ⟨x, hmem, hfits⟩ := h.holder hr
      cases x with
      | native =>
          obtain ⟨c, hc, hcf⟩ := List.mem_filterMap.mp hmem
          cases c <;> cases hcf
          exact ⟨f, .refl, Or.inl hc⟩
      | child g =>
          have hcaller : s.caller g = some f := h.caller_of_awaiting hfits
          have hrg := h.resumable_of_caller hcaller
          have hlt : g < s.next := h.lt_next (by
            intro hnone
            rw [hnone] at hrg
            cases hrg)
          have hyoung := h.younger f g hfits
          obtain ⟨g', hchain, hway⟩ := ih (s.next - g) (by omega) hrg rfl
          exact ⟨g', .head hfits hchain, hway⟩
      | ring =>
          obtain ⟨op, -, hio⟩ := hfits
          exact ⟨f, .refl, Or.inr (Or.inl ⟨op, hio⟩)⟩
      | fetch w => exact ⟨f, .refl, Or.inr (Or.inr (Or.inl ⟨w, hmem⟩))⟩
      | released =>
          obtain ⟨c, hc, hcf⟩ := List.mem_flatMap.mp hmem
          cases c with
          | complete hs => exact ⟨f, .refl, Or.inr (Or.inr (Or.inr ⟨hs, hc, hcf⟩))⟩
          | exec _ => cases hcf
          | start _ _ => cases hcf
          | accept => cases hcf

/-! ## Results -/

/-- The event is about operations. -/
def Event.isIo : Event O → Bool
  | .awaited _ _ | .posted _ _ | .resumed _ _ _ => true
  | _ => false

omit [DecidableEq W] in
theorem isIo_of_mem_backlog {r : IoUringContext O} {x : Event O} (hx : x ∈ backlog r) :
    x.isIo = false := by
  rw [backlog] at hx
  split at hx
  · cases hx
  · rw [List.mem_singleton.mp hx]
    rfl

theorem submitted_of_update {point : ℕ → Option (Point O)} {v : Option (Point O)}
    (hv : ∀ op, v ≠ some (.submitted op))
    (h : Function.update point f v g = some (.submitted op)) : point g = some (.submitted op) := by
  rcases eq_or_ne g f with rfl | hne
  · rw [Function.update_self] at h
    exact absurd h (hv op)
  · rwa [Function.update_of_ne hne] at h

theorem cq_of_prepare {r r' : IoUringContext O} {e : Sqe O} {took took' : ℕ}
    (h : r.prepare e took took' = some r') : r'.cq = r.cq := by
  obtain ⟨r₁, h₁, rfl⟩ := Option.map_eq_some_iff.mp h
  unfold IoUringContext.getSqe at h₁
  split at h₁
  · cases h₁
    rfl
  · split at h₁ <;> cases h₁
    rfl

/-- A step that has nothing to do with operations. -/
structure Aside (s s' : Runtime O W) (ev : List (Event O)) : Prop where
  events : ∀ x ∈ ev, x.isIo = false
  submitted : ∀ f op, s'.point f = some (.submitted op) → s.point f = some (.submitted op)
  cq : ∀ y ∈ s'.ring.cq, y ∈ s.ring.cq

/-- What a step has to do with operations. -/
theorem Steps.operations (h : Steps s s' ev) :
    (∃ f op rest, s.stack = .exec f :: rest ∧ ev = .awaited f op :: backlog s'.ring ∧
      s'.point = Function.update s.point f (some (.submitted op)) ∧ s'.ring.cq = s.ring.cq) ∨
    (∃ f op res, s.ring.cq = (.io op f, res) :: s'.ring.cq ∧ ev = [.resumed f op res] ∧
      s'.point = Function.update s.point f (some .active)) ∨
    (∃ e res, ev = [.posted e res] ∧ s'.point = s.point ∧
      s'.ring.cq = s.ring.cq ++ [(e, res)]) ∨
    Aside s s' ev := by
  have hnil : ∀ x ∈ ([] : List (Event O)), x.isIo = false := by rintro x ⟨⟩
  have hpoint : ∀ {f : ℕ} {v : Point O}, (∀ op, v ≠ .submitted op) → ∀ g op,
      Function.update s.point f (some v) g = some (.submitted op) →
      s.point g = some (.submitted op) := fun hv g op ↦
    submitted_of_update fun op heq ↦ hv op (Option.some.inj heq)
  cases h with
  | called hstack =>
      refine Or.inr (Or.inr (Or.inr ⟨hnil, fun g op hg ↦ ?_, fun y hy ↦ hy⟩))
      exact hpoint (by rintro op ⟨⟩) g op (submitted_of_update (by rintro op ⟨⟩) hg)
  | awaited hstack hr => exact Or.inl ⟨_, _, _, hstack, rfl, rfl, cq_of_prepare hr⟩
  | spawned l hstack =>
      exact Or.inr (Or.inr (Or.inr ⟨hnil, hpoint (by rintro op ⟨⟩), fun y hy ↦ hy⟩))
  | waited w hstack =>
      exact Or.inr (Or.inr (Or.inr ⟨hnil, hpoint (by rintro op ⟨⟩), fun y hy ↦ hy⟩))
  | completed w hstack => exact Or.inr (Or.inr (Or.inr ⟨hnil, fun _ _ hg ↦ hg, fun y hy ↦ hy⟩))
  | finished hstack hc =>
      exact Or.inr (Or.inr (Or.inr ⟨hnil, hpoint (by rintro op ⟨⟩), fun y hy ↦ hy⟩))
  | returned hstack hc hp =>
      refine Or.inr (Or.inr (Or.inr ⟨?_, fun g op hg ↦ ?_, fun y hy ↦ hy⟩))
      · intro x hx
        rw [List.mem_singleton.mp hx]
        rfl
      · exact submitted_of_update (by rintro op ⟨⟩) (submitted_of_update (by rintro op ⟨⟩)
          (submitted_of_update (by rintro op ⟨⟩) hg))
  | kept hstack halive =>
      refine Or.inr (Or.inr (Or.inr ⟨fun x hx ↦ ?_, fun g op hg ↦ ?_, fun y hy ↦ hy⟩))
      · obtain ⟨g, -, rfl⟩ := List.mem_map.mp hx
        rfl
      · simp only at hg
        split at hg
        · cases hg
        · exact hg
  | emptied hstack => exact Or.inr (Or.inr (Or.inr ⟨hnil, fun _ _ hg ↦ hg, fun y hy ↦ hy⟩))
  | released hstack hp =>
      exact Or.inr (Or.inr (Or.inr ⟨hnil, hpoint (by rintro op ⟨⟩), fun y hy ↦ hy⟩))
  | rearmed hstack hr =>
      exact Or.inr (Or.inr (Or.inr ⟨fun x ↦ isIo_of_mem_backlog, fun _ _ hg ↦ hg,
        fun y hy ↦ cq_of_prepare hr ▸ hy⟩))
  | createdRoot hphase =>
      exact Or.inr (Or.inr (Or.inr ⟨hnil, hpoint (by rintro op ⟨⟩), fun y hy ↦ hy⟩))
  | startedRoot hphase hstack hp =>
      exact Or.inr (Or.inr (Or.inr ⟨hnil, hpoint (by rintro op ⟨⟩), fun y hy ↦ hy⟩))
  | listened hphase hl hr =>
      exact Or.inr (Or.inr (Or.inr ⟨fun x ↦ isIo_of_mem_backlog, fun _ _ hg ↦ hg,
        fun y hy ↦ cq_of_prepare hr ▸ hy⟩))
  | resumed hphase hstack hcq hp => exact Or.inr (Or.inl ⟨_, _, _, hcq, rfl, rfl⟩)
  | @rejected took took' res cq r hphase hcq hr =>
      have hcq' : r.cq = cq := cq_of_prepare hr
      refine Or.inr (Or.inr (Or.inr ⟨fun x ↦ isIo_of_mem_backlog, fun _ _ hg ↦ hg,
        fun y hy ↦ ?_⟩))
      rw [hcq]
      exact List.mem_cons_of_mem _ (hcq' ▸ hy)
  | accepted hphase hstack hcq =>
      refine Or.inr (Or.inr (Or.inr ⟨hnil, hpoint (by rintro op ⟨⟩), fun y hy ↦ ?_⟩))
      rw [hcq]
      exact List.mem_cons_of_mem _ hy
  | stopSeen hphase hcq =>
      refine Or.inr (Or.inr (Or.inr ⟨hnil, fun _ _ hg ↦ hg, fun y hy ↦ ?_⟩))
      rw [hcq]
      exact List.mem_cons_of_mem _ hy
  | armed hphase hstack =>
      refine Or.inr (Or.inr (Or.inr ⟨?_, fun _ _ hg ↦ hg, fun y hy ↦ ?_⟩))
      · intro x hx
        rw [List.mem_singleton.mp hx]
        rfl
      · simp only [IoUringContext.armStopEvent] at hy
        split at hy <;> exact hy
  | entered took hphase hrun =>
      exact Or.inr (Or.inr (Or.inr ⟨fun x ↦ isIo_of_mem_backlog, fun _ _ hg ↦ hg, fun y hy ↦ hy⟩))
  | posted hr =>
      refine Or.inr (Or.inr (Or.inl ⟨_, _, rfl, rfl, ?_⟩))
      unfold IoUringContext.post at hr
      split at hr <;> cases hr
      rfl
  | stopped =>
      refine Or.inr (Or.inr (Or.inr ⟨?_, fun _ _ hg ↦ hg, fun y hy ↦ hy⟩))
      intro x hx
      rw [List.mem_singleton.mp hx]
      rfl
  | fault hx =>
      refine Or.inr (Or.inr (Or.inr ⟨?_, fun _ _ hg ↦ hg, fun y hy ↦ hy⟩))
      intro x hx
      rw [List.mem_singleton.mp hx]
      rfl
  | _ => exact Or.inr (Or.inr (Or.inr ⟨hnil, fun _ _ hg ↦ hg, fun y hy ↦ hy⟩))

/-- The coroutine gets a result. -/
def Resumes (f : ℕ) (x : Event O) : Prop := ∃ op res, x = .resumed f op res

/-- The coroutine gets a result or begins to wait for one. -/
def Concerns (f : ℕ) (x : Event O) : Prop := (∃ op, x = .awaited f op) ∨ Resumes f x

/-- Every result that a coroutine gets was posted for the operation that it is waiting for: since
it began to wait it has got no other, and since the result was posted it has not begun to wait
again. -/
def OwnResults (tr : List (Event O)) : Prop :=
  Guarded (fun past x ↦ ∀ f op res, x = .resumed f op res →
    Since (· = .awaited f op) (Resumes f) past ∧
      Since (· = .posted (.io op f) res) (Concerns f) past) tr

/-- What a run has to remember of its past. -/
structure Told (s : Runtime O W) (tr : List (Event O)) : Prop where
  waiting : ∀ f op, s.point f = some (.submitted op) → Since (· = .awaited f op) (Resumes f) tr
  posted : ∀ f op res, (.io op f, res) ∈ s.ring.cq →
    Since (· = .posted (.io op f) res) (Concerns f) tr
  own : OwnResults tr

theorem not_concerns_of_isIo {x : Event O} (hx : x.isIo = false) : ¬ Concerns f x := by
  rintro (⟨op, rfl⟩ | ⟨op, res, rfl⟩) <;> cases hx

/-- Events that are not results leave `OwnResults` as it is. -/
theorem OwnResults.append {tr : List (Event O)} (h : OwnResults tr)
    (hev : ∀ f, ∀ x ∈ ev, ¬ Resumes f x) : OwnResults (tr ++ ev) := by
  refine Guarded.append h fun pre x post heq f op res hx ↦ ?_
  exact absurd ⟨op, res, hx⟩ (hev f x (by rw [heq]; simp))

theorem Told.step {tr : List (Event O)} (h : Told s tr) (hinv : Inv s) (hstep : Steps s s' ev) :
    Told s' (tr ++ ev) := by
  obtain ⟨f, op, rest, hstack, rfl, hpoint, hcq⟩ | ⟨f, op, res, hcq, rfl, hpoint⟩ |
    ⟨e, res, rfl, hpoint, hcq⟩ | haside := hstep.operations
  · -- a coroutine begins to wait
    have hquiet : ∀ g, ∀ x ∈ Event.awaited f op :: backlog s'.ring, ¬ Resumes g x := by
      rintro g x hx ⟨op', res, rfl⟩
      rcases List.mem_cons.mp hx with hx | hx
      · cases hx
      · exact absurd (isIo_of_mem_backlog hx) (by rintro ⟨⟩)
    refine ⟨fun g op' hg ↦ ?_, fun g op' res hg ↦ ?_, h.own.append hquiet⟩
    · rw [hpoint] at hg
      rcases eq_or_ne g f with rfl | hne
      · rw [Function.update_self, Option.some.injEq, Point.submitted.injEq] at hg
        subst hg
        exact ⟨tr, _, _, rfl, rfl, fun y hy ↦ hquiet g y (List.mem_cons_of_mem _ hy)⟩
      · rw [Function.update_of_ne hne] at hg
        exact since_append.mpr (Or.inr ⟨h.waiting g op' hg, hquiet g⟩)
    · rw [hcq] at hg
      have hne : g ≠ f := by
        rintro rfl
        have hsub := hinv.io_iff.mp (show .io op' g ∈ s.ring.entries from
          List.mem_append_right _ (List.mem_map_of_mem hg))
        rw [hinv.active hstack] at hsub
        cases hsub
      refine since_append.mpr (Or.inr ⟨h.posted g op' res hg, fun x hx hc ↦ ?_⟩)
      rcases hc with ⟨op'', rfl⟩ | hc
      · rcases List.mem_cons.mp hx with hx | hx
        · cases hx
          exact hne rfl
        · exact absurd (isIo_of_mem_backlog hx) (by rintro ⟨⟩)
      · exact hquiet g x hx hc
  · -- a coroutine gets its result
    have hentry : .io op f ∈ s.ring.entries :=
      (IoUringContext.entries_reap hcq).mem_iff.mpr List.mem_cons_self
    have hwait := h.waiting f op (hinv.io_iff.mp hentry)
    have hpost := h.posted f op res (by rw [hcq]; exact List.mem_cons_self)
    have hnodup : (s.ring.entries.filterMap Sqe.coroutine).Nodup := hinv.handles.nodup .ring
    refine ⟨fun g op' hg ↦ ?_, fun g op' res' hg ↦ ?_, ?_⟩
    · have hne : g ≠ f := by
        rintro rfl
        rw [hpoint, Function.update_self] at hg
        cases hg
      rw [hpoint, Function.update_of_ne hne] at hg
      refine since_append.mpr (Or.inr ⟨h.waiting g op' hg, fun x hx ↦ ?_⟩)
      rw [List.mem_singleton.mp hx]
      rintro ⟨op'', res', heq⟩
      cases heq
      exact hne rfl
    · have hne : g ≠ f := by
        rintro rfl
        have hperm := (IoUringContext.entries_reap hcq).filterMap Sqe.coroutine
        have hcons := hperm.nodup_iff.mp hnodup
        refine (List.nodup_cons.mp hcons).1 (List.mem_filterMap.mpr ⟨.io op' g, ?_, rfl⟩)
        exact List.mem_append_right _ (List.mem_map_of_mem hg)
      refine since_append.mpr (Or.inr ⟨h.posted g op' res' ?_, fun x hx ↦ ?_⟩)
      · rw [hcq]
        exact List.mem_cons_of_mem _ hg
      · rw [List.mem_singleton.mp hx]
        rintro (⟨op'', heq⟩ | ⟨op'', res'', heq⟩)
        · cases heq
        · cases heq
          exact hne rfl
    · refine Guarded.concat h.own fun g op' res' heq ↦ ?_
      cases heq
      exact ⟨hwait, hpost⟩
  · -- the kernel posts a result
    have hquiet : ∀ g, ∀ x ∈ [Event.posted e res], ¬ Concerns g x := by
      intro g x hx
      rw [List.mem_singleton.mp hx]
      rintro (⟨op, heq⟩ | ⟨op, res', heq⟩) <;> cases heq
    refine ⟨fun g op hg ↦ ?_, fun g op res' hg ↦ ?_,
      h.own.append fun g x hx hc ↦ hquiet g x hx (Or.inr hc)⟩
    · rw [hpoint] at hg
      exact since_append.mpr (Or.inr ⟨h.waiting g op hg, fun x hx hc ↦ hquiet g x hx (Or.inr hc)⟩)
    · rw [hcq] at hg
      rcases List.mem_append.mp hg with hg | hg
      · exact since_append.mpr (Or.inr ⟨h.posted g op res' hg, hquiet g⟩)
      · cases List.mem_singleton.mp hg
        exact ⟨tr, _, [], rfl, rfl, by rintro y ⟨⟩⟩
  · have hquiet : ∀ g, ∀ x ∈ ev, ¬ Concerns g x := fun g x hx ↦
      not_concerns_of_isIo (haside.events x hx)
    refine ⟨fun g op hg ↦ ?_, fun g op res hg ↦ ?_,
      h.own.append fun g x hx hc ↦ hquiet g x hx (Or.inr hc)⟩
    · exact since_append.mpr (Or.inr ⟨h.waiting g op (haside.submitted g op hg),
        fun x hx hc ↦ hquiet g x hx (Or.inr hc)⟩)
    · exact since_append.mpr (Or.inr ⟨h.posted g op res (haside.cq _ hg), hquiet g⟩)

/-! ## Destruction -/

/-- The frame that is destroyed. -/
def Event.destroyedFrame : Event O → Option ℕ
  | .destroyed f => some f
  | _ => none

/-- What a step destroys was there and is gone; and what is gone does not come back. -/
structure Destroys (s s' : Runtime O W) (ev : List (Event O)) : Prop where
  nodup : (ev.filterMap Event.destroyedFrame).Nodup
  gone : ∀ f ∈ ev.filterMap Event.destroyedFrame, s.point f ≠ none ∧ s'.point f = none
  next_le : s.next ≤ s'.next
  dead : ∀ f, f < s.next → s.point f = none → s'.point f = none

omit [DecidableEq W] in
/-- A step that destroys nothing. -/
theorem Destroys.of_none (hev : ev.filterMap Event.destroyedFrame = [])
    (hnext : s.next ≤ s'.next) (hdead : ∀ f, f < s.next → s.point f = none → s'.point f = none) :
    Destroys s s' ev := by
  refine ⟨by rw [hev]; exact List.nodup_nil, fun f hf ↦ ?_, hnext, hdead⟩
  rw [hev] at hf
  cases hf

omit [DecidableEq W] in
theorem destroyedFrame_backlog (r : IoUringContext O) :
    (backlog r).filterMap Event.destroyedFrame = [] := by
  rw [backlog]
  split <;> rfl

theorem dead_of_update {point : ℕ → Option (Point O)} {v : Option (Point O)}
    (hf : point f ≠ none) (hg : point g = none) : Function.update point f v g = none := by
  rw [Function.update_of_ne (by rintro rfl; exact hf hg), hg]

theorem Inv.destroys (h : Inv s) (hstep : Steps s s' ev) : Destroys s s' ev := by
  have hsame : ∀ g, g < s.next → s.point g = none → s.point g = none := fun _ _ hg ↦ hg
  have hnew : ∀ {v : Option (Point O)} g, g < s.next → s.point g = none →
      Function.update s.point s.next v g = none := by
    intro v g hlt hg
    rw [Function.update_of_ne (by omega), hg]
  have hupdate : ∀ {f v w} g, s.point f = some w → g < s.next → s.point g = none →
      Function.update s.point f v g = none := by
    intro f v w g hf _ hg
    exact dead_of_update (by rw [hf]; exact Option.some_ne_none w) hg
  cases hstep with
  | called hstack =>
      refine .of_none rfl (Nat.le_succ _) fun g hlt hg ↦ ?_
      exact dead_of_update (by
        rw [Function.update_of_ne (h.active_ne_next hstack), h.active hstack]
        exact Option.some_ne_none _) (hnew g hlt hg)
  | awaited hstack hr =>
      refine .of_none ?_ (Nat.le_refl _) fun g ↦ hupdate g (h.active hstack)
      rw [List.filterMap_cons_none rfl, destroyedFrame_backlog]
  | spawned l hstack => exact .of_none rfl (Nat.le_succ _) hnew
  | waited w hstack => exact .of_none rfl (Nat.le_refl _) fun g ↦ hupdate g (h.active hstack)
  | completed w hstack => exact .of_none rfl (Nat.le_refl _) hsame
  | finished hstack hc => exact .of_none rfl (Nat.le_refl _) fun g ↦ hupdate g (h.active hstack)
  | @returned f p rest hstack hc hp =>
      have hactive := h.active hstack
      refine ⟨List.nodup_singleton f, fun g hg ↦ ?_, Nat.le_refl _, fun g _ hg ↦ ?_⟩
      · obtain rfl := List.mem_singleton.mp hg
        exact ⟨by rw [hactive]; exact Option.some_ne_none _, Function.update_self ..⟩
      · have hgp : g ≠ p := by
          rintro rfl
          rw [h.awaiting_of_caller hc] at hg
          cases hg
        have hgf : g ≠ f := by
          rintro rfl
          rw [hactive] at hg
          cases hg
        exact (Function.update_of_ne hgf ..).trans ((Function.update_of_ne hgp ..).trans
          ((Function.update_of_ne hgf ..).trans hg))
  | @kept l f rest hstack halive =>
      have hmap : (((s.tasks l ++ [f]).filter s.isDone).map Event.destroyed).filterMap
          (Event.destroyedFrame (O := O)) = (s.tasks l ++ [f]).filter s.isDone := by
        rw [List.filterMap_map]
        exact List.filterMap_some
      refine ⟨?_, fun g hg ↦ ?_, Nat.le_refl _, fun g _ hg ↦ ?_⟩
      · rw [hmap]
        refine List.Nodup.filter _ (List.nodup_append.mpr ⟨h.owners.nodup (.list l),
          List.nodup_singleton f, fun a ha b hb ↦ ?_⟩)
        rintro rfl
        have hstart : a ∈ s.owners .starting := by
          rw [Runtime.owners, hstack, List.mem_singleton.mp hb]
          exact List.mem_cons_self
        exact absurd (h.owners.place_unique (show a ∈ s.owners (.list l) from ha) hstart)
          (by rintro ⟨⟩)
      · rw [hmap] at hg
        obtain ⟨hmem, hdone⟩ := List.mem_filter.mp hg
        exact ⟨halive g hmem, if_pos ⟨hmem, hdone⟩⟩
      · simp only [hg, ite_self]
  | emptied hstack => exact .of_none rfl (Nat.le_refl _) hsame
  | released hstack hp => exact .of_none rfl (Nat.le_refl _) fun g ↦ hupdate g hp
  | rearmed hstack hr => exact .of_none (destroyedFrame_backlog _) (Nat.le_refl _) hsame
  | createdRoot hphase => exact .of_none rfl (Nat.le_succ _) hnew
  | startedRoot hphase hstack hp => exact .of_none rfl (Nat.le_refl _) fun g ↦ hupdate g hp
  | listened hphase hl hr => exact .of_none (destroyedFrame_backlog _) (Nat.le_refl _) hsame
  | resumed hphase hstack hcq hp => exact .of_none rfl (Nat.le_refl _) fun g ↦ hupdate g hp
  | rejected hphase hcq hr => exact .of_none (destroyedFrame_backlog _) (Nat.le_refl _) hsame
  | accepted hphase hstack hcq => exact .of_none rfl (Nat.le_succ _) hnew
  | entered took hphase hrun => exact .of_none (destroyedFrame_backlog _) (Nat.le_refl _) hsame
  | _ => exact .of_none rfl (Nat.le_refl _) hsame

/-- What has been destroyed is gone, and was destroyed once. -/
structure Buried (s : Runtime O W) (tr : List (Event O)) : Prop where
  nodup : (tr.filterMap Event.destroyedFrame).Nodup
  gone : ∀ f ∈ tr.filterMap Event.destroyedFrame, f < s.next ∧ s.point f = none

theorem Buried.step {tr : List (Event O)} (h : Buried s tr) (hinv : Inv s)
    (hstep : Steps s s' ev) : Buried s' (tr ++ ev) := by
  have hdestroys := hinv.destroys hstep
  constructor
  · rw [List.filterMap_append]
    refine List.nodup_append.mpr ⟨h.nodup, hdestroys.nodup, fun f hf g hg ↦ ?_⟩
    rintro rfl
    exact (hdestroys.gone f hg).1 (h.gone f hf).2
  · intro f hf
    rw [List.filterMap_append] at hf
    rcases List.mem_append.mp hf with hf | hf
    · obtain ⟨hlt, hnone⟩ := h.gone f hf
      exact ⟨Nat.lt_of_lt_of_le hlt hdestroys.next_le, hdestroys.dead f hlt hnone⟩
    · obtain ⟨hsome, hnone⟩ := hdestroys.gone f hf
      exact ⟨Nat.lt_of_lt_of_le (hinv.lt_next hsome) hdestroys.next_le, hnone⟩

end

end Pensieve.Runtime
