import Pensieve.Io.Runtime

/-!
# Steps of the runtime

`Steps` lists what a step of `Runtime` can do, one constructor for each kind, with
the guards under which it happens and the state that it leads to.  `Faulty` lists the
ways in which a step can go wrong.  `step_steps` says that the lists are complete, so
that a property of the runtime is proved by cases on `Steps`.
-/

namespace Pensieve.Runtime

variable {O W : Type*} {s s' : Runtime O W} {ev : List (Event O)}

/-- The report of a `submit`. -/
def backlog (r : IoUringContext O) : List (Event O) := if r.sq.isEmpty then [] else [.backlog]

/-- The phases in which coroutines and callbacks run. -/
def Busy (s : Runtime O W) : Prop := s.phase = .setup ∨ s.phase = .draining

/-- How a step can go wrong. -/
inductive Faulty (s : Runtime O W) : Fault → Prop
  | full (h : s.ring.depth ≤ s.ring.sq.length) (hbusy : s.stack ≠ [] ∨ s.Busy) :
      Faulty s .nullSqe
  | returned {f p : ℕ} {rest : List Native} {x : Fault} (h : s.stack = .exec f :: rest)
      (hc : s.caller f = some p)
      (hp : Function.update s.point f (some .done) p ≠ some (.awaiting f)) : Faulty s x
  | released {g : ℕ} {hs : List ℕ} {rest : List Native} {x : Fault}
      (h : s.stack = .complete (g :: hs) :: rest) (hp : s.point g ≠ some .parked) : Faulty s x
  | resumed {op : O} {f : ℕ} {res : ℤ} {cq : List (Sqe O × ℤ)} {x : Fault}
      (hcq : s.ring.cq = (.io op f, res) :: cq) (hp : s.point f ≠ some (.submitted op)) : Faulty s x
  | erased {l : TaskList} {f g : ℕ} {rest : List Native} {x : Fault}
      (h : s.stack = .start l f :: rest) (hg : g ∈ s.tasks l ++ [f]) (hp : s.point g = none) :
      Faulty s x

/-- What a step can do. -/
inductive Steps [DecidableEq W] (s : Runtime O W) : Runtime O W → List (Event O) → Prop
  | called {f : ℕ} {rest : List Native} (h : s.stack = .exec f :: rest) :
      Steps s { s with
        next := s.next + 1
        point := Function.update (Function.update s.point s.next (some .active)) f
          (some (.awaiting s.next))
        caller := Function.update s.caller s.next (some f)
        stack := .exec s.next :: rest } []
  | awaited {f took took' : ℕ} {rest : List Native} {op : O} {r : IoUringContext O}
      (h : s.stack = .exec f :: rest) (hr : s.ring.prepare (.io op f) took took' = some r) :
      Steps s { s with
        point := Function.update s.point f (some (.submitted op))
        stack := rest
        ring := r } (.awaited f op :: backlog r)
  | spawned {f : ℕ} {rest : List Native} (l : TaskList) (h : s.stack = .exec f :: rest) :
      Steps s { s with
        next := s.next + 1
        point := Function.update s.point s.next (some .active)
        caller := Function.update s.caller s.next none
        stack := .exec s.next :: .start l s.next :: s.stack } []
  | waited {f : ℕ} {rest : List Native} (w : W) (h : s.stack = .exec f :: rest) :
      Steps s { s with
        point := Function.update s.point f (some .parked)
        stack := rest
        waiters := Function.update s.waiters w (s.waiters w ++ [f]) } []
  | completed {f : ℕ} {rest : List Native} (w : W) (h : s.stack = .exec f :: rest) :
      Steps s { s with
        stack := .complete (s.waiters w) :: s.stack
        waiters := Function.update s.waiters w [] } []
  | finished {f : ℕ} {rest : List Native} (h : s.stack = .exec f :: rest)
      (hc : s.caller f = none) :
      Steps s { s with point := Function.update s.point f (some .done), stack := rest } []
  | returned {f p : ℕ} {rest : List Native} (h : s.stack = .exec f :: rest)
      (hc : s.caller f = some p)
      (hp : Function.update s.point f (some .done) p = some (.awaiting f)) :
      Steps s { s with
        point := Function.update (Function.update (Function.update s.point f (some .done)) p
          (some .active)) f none
        caller := Function.update s.caller f none
        stack := .exec p :: rest } [.destroyed f]
  | kept {l : TaskList} {f : ℕ} {rest : List Native} (h : s.stack = .start l f :: rest)
      (halive : ∀ g ∈ s.tasks l ++ [f], s.point g ≠ none) :
      Steps s { s with
        point := fun g ↦ if g ∈ s.tasks l ++ [f] ∧ s.isDone g = true then none else s.point g
        caller := fun g ↦ if g ∈ s.tasks l ++ [f] ∧ s.isDone g = true then none else s.caller g
        stack := rest
        tasks := Function.update s.tasks l ((s.tasks l ++ [f]).filter fun g ↦ !s.isDone g) }
        (((s.tasks l ++ [f]).filter s.isDone).map .destroyed)
  | emptied {rest : List Native} (h : s.stack = .complete [] :: rest) :
      Steps s { s with stack := rest } []
  | released {g : ℕ} {hs : List ℕ} {rest : List Native}
      (h : s.stack = .complete (g :: hs) :: rest) (hp : s.point g = some .parked) :
      Steps s { s with
        point := Function.update s.point g (some .active)
        stack := .exec g :: .complete hs :: rest } []
  | rearmed {took took' : ℕ} {rest : List Native} {r : IoUringContext O}
      (h : s.stack = .accept :: rest) (hr : s.ring.prepare .accept took took' = some r) :
      Steps s { s with stack := rest, ring := r } (backlog r)
  | createdRoot (hphase : s.phase = .setup) :
      Steps s { s with
        next := s.next + 1
        point := Function.update s.point s.next (some .initial)
        caller := Function.update s.caller s.next none
        roots := s.roots ++ [s.next] } []
  | startedRoot {f : ℕ} (hphase : s.phase = .setup) (h : s.stack = [])
      (hp : s.point f = some .initial) :
      Steps s { s with
        point := Function.update s.point f (some .active)
        stack := [.exec f] } []
  | listened {took took' : ℕ} {r : IoUringContext O} (hphase : s.phase = .setup)
      (hl : s.listening = false) (hr : s.ring.prepare .accept took took' = some r) :
      Steps s { s with listening := true, ring := r } (backlog r)
  | resumed {op : O} {f : ℕ} {res : ℤ} {cq : List (Sqe O × ℤ)} (hphase : s.phase = .draining)
      (h : s.stack = []) (hcq : s.ring.cq = (.io op f, res) :: cq)
      (hp : s.point f = some (.submitted op)) :
      Steps s { s with
        point := Function.update s.point f (some .active)
        stack := [.exec f]
        ring := { s.ring with cq := cq } } [.resumed f op res]
  | rejected {took took' : ℕ} {res : ℤ} {cq : List (Sqe O × ℤ)} {r : IoUringContext O}
      (hphase : s.phase = .draining) (hcq : s.ring.cq = (.accept, res) :: cq)
      (hr : ({ s.ring with cq := cq } : IoUringContext O).prepare .accept took took' = some r) :
      Steps s { s with ring := r } (backlog r)
  | accepted {res : ℤ} {cq : List (Sqe O × ℤ)} (hphase : s.phase = .draining)
      (h : s.stack = []) (hcq : s.ring.cq = (.accept, res) :: cq) :
      Steps s { s with
        next := s.next + 1
        point := Function.update s.point s.next (some .active)
        caller := Function.update s.caller s.next none
        stack := [.exec s.next, .start .connections s.next, .accept]
        ring := { s.ring with cq := cq } } []
  | stopSeen {res : ℤ} {cq : List (Sqe O × ℤ)} (hphase : s.phase = .draining)
      (hcq : s.ring.cq = (.stop, res) :: cq) :
      Steps s { s with ring := { s.ring with cq := cq } } []
  | armed (hphase : s.phase = .setup) (h : s.stack = []) :
      Steps s { s with running := true, phase := .test, ring := s.ring.armStopEvent } [.started]
  | entered (took : ℕ) (hphase : s.phase = .test) (hrun : s.running = true) :
      Steps s { s with phase := .blocked, ring := s.ring.submit took }
        (backlog (s.ring.submit took))
  | ended (hphase : s.phase = .test) (hrun : s.running = false) :
      Steps s { s with phase := .ended } []
  | interrupted (hphase : s.phase = .blocked) : Steps s { s with phase := .test } []
  | failed (hphase : s.phase = .blocked) : Steps s { s with phase := .ended } []
  | woken (hphase : s.phase = .blocked) (hcq : s.ring.cq ≠ []) :
      Steps s { s with phase := .draining } []
  | advanced (hphase : s.phase = .draining) (h : s.stack = []) :
      Steps s { s with phase := .test } []
  | posted {i : ℕ} {res : ℤ} {e : Sqe O} {r : IoUringContext O}
      (hr : s.ring.post i res = some (e, r)) :
      Steps s { s with ring := r } [.posted e res]
  | stopped : Steps s { s with running := false, signalled := true } [.stopRequested]
  | fault {x : Fault} (hx : s.Faulty x) : Steps s { s with phase := .crashed } [.fault x]

section

variable [DecidableEq O] [DecidableEq W]

omit [DecidableEq W] in
/-- What `resume` does. -/
theorem resume_cases (s : Runtime O W) (f : ℕ) (x : Point O) :
    (s.point f = some x ∧ s.resume f x = .ok ((s.setPoint f .active).push [.exec f])) ∨
      s.point f ≠ some x ∧ ∃ e, s.resume f x = .error e := by
  unfold resume
  split
  · rename_i hnone
    exact Or.inr ⟨by rw [hnone]; exact Option.some_ne_none x |>.symm, _, rfl⟩
  · rename_i y hy
    split
    · rename_i hyx
      exact Or.inl ⟨hyx ▸ hy, rfl⟩
    · rename_i hyx
      exact Or.inr ⟨by rw [hy]; exact fun heq ↦ hyx (Option.some.inj heq), _, rfl⟩

omit [DecidableEq O] [DecidableEq W] in
/-- What `issue` does. -/
theorem issue_cases (s : Runtime O W) (e : Sqe O) (took took' : ℕ) :
    (∃ r, s.ring.prepare e took took' = some r ∧
      s.issue e took took' = .ok ({ s with ring := r }, backlog r)) ∨
    s.ring.depth ≤ s.ring.sq.length ∧ s.issue e took took' = .error .nullSqe := by
  unfold issue
  split
  · rename_i hnone
    exact Or.inr ⟨(IoUringContext.getSqe_eq_none (IoUringContext.prepare_eq_none.mp hnone)).1, rfl⟩
  · rename_i r hr
    exact Or.inl ⟨r, hr, rfl⟩

theorem steps_of_coroutine {f : ℕ} {rest : List Native} {a : Action O W}
    (hstack : s.stack = .exec f :: rest) (h : s.stepCoroutine f rest a = some (s', ev)) :
    Steps s s' ev := by
  cases a with
  | call =>
      cases h
      exact .called hstack
  | await op took took' =>
      obtain ⟨r, hr, hissue⟩ | ⟨hfull, hissue⟩ :=
        issue_cases { s.setPoint f (.submitted op) with stack := rest } (.io op f) took took'
      · simp only [stepCoroutine, hissue, Except.map, report, Option.some.injEq] at h
        cases h
        exact .awaited hstack hr
      · simp only [stepCoroutine, hissue, Except.map, report, Option.some.injEq] at h
        cases h
        exact .fault (.full hfull (Or.inl (by rw [hstack]; exact List.cons_ne_nil _ _)))
  | spawn l =>
      cases h
      exact .spawned l hstack
  | wait w =>
      cases h
      exact .waited w hstack
  | complete w =>
      cases h
      exact .completed w hstack
  | ret =>
      simp only [stepCoroutine, finish, Option.some.injEq] at h
      split at h
      · cases h
        exact .finished hstack ‹_›
      · rename_i p hc
        obtain ⟨hp, hres⟩ | ⟨hp, e, hres⟩ := resume_cases
          (setPoint { s with stack := rest } f .done) p (.awaiting f)
        · simp only [hres, report] at h
          cases h
          exact .returned hstack hc hp
        · simp only [hres, report] at h
          cases h
          exact .fault (.returned hstack hc hp)
  | _ => cases h

theorem steps_of_unwind {c : Native} {rest : List Native} {took took' : ℕ}
    (hstack : s.stack = c :: rest) (hc : ∀ f, c ≠ .exec f)
    (h : s.report (unwind { s with stack := rest } took took' c) = (s', ev)) : Steps s s' ev := by
  cases c with
  | exec f => exact absurd rfl (hc f)
  | start l f =>
      simp only [unwind, eraseDone] at h
      have htasks : (keep { s with stack := rest } l f).tasks l = s.tasks l ++ [f] :=
        Function.update_self ..
      have hdone : (keep { s with stack := rest } l f).isDone = s.isDone := rfl
      have hidem : ∀ x, Function.update (keep { s with stack := rest } l f).tasks l x
          = Function.update s.tasks l x := fun x ↦ Function.update_idem ..
      split at h
      · rename_i g hg
        cases h
        have hmem := List.mem_of_find?_eq_some hg
        have hnone := List.find?_some hg
        rw [htasks] at hmem
        exact .fault (.erased hstack hmem (Option.isNone_iff_eq_none.mp hnone))
      · rename_i hfind
        simp only [htasks, hdone, hidem] at h hfind
        cases h
        have halive : ∀ g ∈ s.tasks l ++ [f], s.point g ≠ none := by
          intro g hg hnone
          have := List.find?_eq_none.mp hfind g hg
          exact this (Option.isNone_iff_eq_none.mpr hnone)
        exact .kept hstack halive
  | complete hs =>
      cases hs with
      | nil =>
          cases h
          exact .emptied hstack
      | cons g hs =>
          obtain ⟨hp, hres⟩ | ⟨hp, e, hres⟩ := resume_cases
            (push { s with stack := rest } [.complete hs]) g .parked
          · simp only [unwind, hres, Except.map, report] at h
            cases h
            exact .released hstack hp
          · simp only [unwind, hres, Except.map, report] at h
            cases h
            exact .fault (.released hstack hp)
  | accept =>
      obtain ⟨r, hr, hissue⟩ | ⟨hfull, hissue⟩ :=
        issue_cases { s with stack := rest } .accept took took'
      · simp only [unwind, hissue, report] at h
        cases h
        exact .rearmed hstack hr
      · simp only [unwind, hissue, report] at h
        cases h
        exact .fault (.full hfull (Or.inl (by rw [hstack]; exact List.cons_ne_nil _ _)))

theorem steps_of_cqe {took took' : ℕ} {e : Sqe O} {res : ℤ} {cq : List (Sqe O × ℤ)}
    (hphase : s.phase = .draining) (hstack : s.stack = []) (hcq : s.ring.cq = (e, res) :: cq)
    (h : s.report (processCqe { s with ring := { s.ring with cq := cq } } took took' e res)
      = (s', ev)) : Steps s s' ev := by
  cases e with
  | io op f =>
      obtain ⟨hp, hres⟩ | ⟨hp, e, hres⟩ := resume_cases
        { s with ring := { s.ring with cq := cq } } f (.submitted op)
      · simp only [processCqe, hres, Except.map, report] at h
        cases h
        have hstep := Steps.resumed hphase hstack hcq hp
        simpa [setPoint, push, hstack] using hstep
      · simp only [processCqe, hres, Except.map, report] at h
        cases h
        exact .fault (.resumed hcq hp)
  | accept =>
      simp only [processCqe] at h
      split at h
      · obtain ⟨r, hr, hissue⟩ | ⟨hfull, hissue⟩ :=
          issue_cases { s with ring := { s.ring with cq := cq } } .accept took took'
        · simp only [hissue, report] at h
          cases h
          exact .rejected hphase hcq hr
        · simp only [hissue, report] at h
          cases h
          exact .fault (.full hfull (Or.inr (Or.inr hphase)))
      · cases h
        have hstep := Steps.accepted hphase hstack hcq
        simpa [create, push, hstack] using hstep
  | stop =>
      cases h
      exact .stopSeen hphase hcq

theorem steps_of_main {a : Action O W} (hstack : s.stack = [])
    (h : s.stepMain a = some (s', ev)) : Steps s s' ev := by
  cases a with
  | createRoot =>
      simp only [stepMain] at h
      split at h <;> cases h
      exact .createdRoot ‹_›
  | startRoot f =>
      simp only [stepMain] at h
      split at h <;> cases h
      rename_i hguard
      have hstep := Steps.startedRoot hguard.1 hstack hguard.2.2
      simpa [setPoint, push, hstack] using hstep
  | listen took took' =>
      simp only [stepMain] at h
      split at h
      · rename_i hguard
        obtain ⟨r, hr, hissue⟩ | ⟨hfull, hissue⟩ :=
          issue_cases { s with listening := true } .accept took took'
        · simp only [hissue, report, Option.some.injEq] at h
          cases h
          exact .listened hguard.1 hguard.2 hr
        · simp only [hissue, report, Option.some.injEq] at h
          cases h
          exact .fault (.full hfull (Or.inr (Or.inl hguard.1)))
      · cases h
  | run =>
      simp only [stepMain] at h
      split at h <;> cases h
      exact .armed ‹_› hstack
  | enter took =>
      simp only [stepMain] at h
      split at h
      · rename_i hphase
        split at h
        · cases h
          exact .entered took hphase ‹_›
        · cases h
          exact .ended hphase (Bool.eq_false_iff.mpr ‹_›)
      · cases h
  | interrupt =>
      simp only [stepMain] at h
      split at h <;> cases h
      exact .interrupted ‹_›
  | fail =>
      simp only [stepMain] at h
      split at h <;> cases h
      exact .failed ‹_›
  | wake =>
      simp only [stepMain] at h
      split at h <;> cases h
      rename_i hguard
      exact .woken hguard.1 hguard.2
  | reap took took' =>
      simp only [stepMain] at h
      split at h
      · rename_i hphase
        split at h
        · cases h
        · rename_i e res cq hcq
          exact steps_of_cqe hphase hstack hcq (Option.some.inj h)
      · cases h
  | advance =>
      simp only [stepMain] at h
      split at h <;> cases h
      rename_i hguard
      exact .advanced hguard.1 hstack
  | _ => cases h

/-- A crashed program does nothing. -/
theorem not_crashed {a : Action O W} (h : s.step a = some (s', ev)) :
    s.phase ≠ .crashed := by
  intro hcrash
  simp [step, hcrash] at h

/-- **Every step is one of these.** -/
theorem step_steps {a : Action O W} (h : s.step a = some (s', ev)) : Steps s s' ev := by
  unfold step at h
  split at h
  · cases h
  · split at h
    · cases h
    · cases h
      exact .posted ‹_›
  · cases h
    exact .stopped
  · split at h
    · cases h
    · cases h
    · rename_i c rest hexec hstack
      exact steps_of_unwind hstack (fun f hf ↦ hexec f (hf ▸ rfl)) (Option.some.inj h)
  · split at h
    · exact steps_of_main ‹_› h
    · exact steps_of_coroutine ‹_› h
    · cases h

end

end Pensieve.Runtime
