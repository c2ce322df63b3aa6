import Mathlib.Data.List.Basic

/-!
# Machines and the traces of their runs

A machine takes steps on a state; a step is chosen by an action, may be disabled,
and reports a list of events.  `Run` relates a reachable state to the trace of
events that led there, so that a property may speak of the past.

`M.within P` is the machine as long as it stays where `P` holds: what is assumed of a
run becomes a part of the machine, and all rules apply to it.

Two notions are used to state properties of traces.

* `Guarded G tr`: every event of the trace satisfies `G` together with the events
  before it.  Safety properties such as "no event `x` after an event `y`" have
  this form.
* `Since P Q tr`: some event of the trace satisfies `P` and no later one
  satisfies `Q`.  It is the past that an invariant has to remember.

Both are characterised on `tr ++ e` (`Guarded.append`, `since_append`), which is
how a step changes the trace.
-/

namespace Foundation

variable {S A E : Type*}

/-- A machine with states `S`, actions `A` and events `E`. -/
structure Machine (S A E : Type*) where
  init : S → Prop
  step : S → A → Option (S × List E)

namespace Machine

/-- `M.Run s tr`: some run of the machine ends in `s` and has the trace `tr`. -/
inductive Run (M : Machine S A E) : S → List E → Prop
  | init {s : S} (h : M.init s) : Run M s []
  | step {s s' : S} {tr e : List E} {a : A} (h : Run M s tr) (hs : M.step s a = some (s', e)) :
      Run M s' (tr ++ e)

variable {M : Machine S A E} {s s' : S} {tr tr' : List E}

/-- **The invariant rule.**  What holds initially and is kept by every step holds
in every run. -/
theorem Run.invariant {I : S → List E → Prop} (h : M.Run s tr) (h₀ : ∀ s, M.init s → I s [])
    (hstep : ∀ s tr a s' e, M.Run s tr → I s tr → M.step s a = some (s', e) → I s' (tr ++ e)) :
    I s tr := by
  induction h with
  | init h => exact h₀ _ h
  | step h hs ih => exact hstep _ _ _ _ _ h ih hs

/-- Take the given actions one after the other. -/
def exec (M : Machine S A E) : S → List A → Option (S × List E)
  | s, [] => some (s, [])
  | s, a :: as =>
    match M.step s a with
    | none => none
    | some (s', e) => (M.exec s' as).map fun x ↦ (x.1, e ++ x.2)

theorem exec_cons_of_step {a : A} {as : List A} {s₁ : S} {e tr₁ : List E}
    (ha : M.step s a = some (s₁, e)) (hx : M.exec s₁ as = some (s', tr₁)) :
    M.exec s (a :: as) = some (s', e ++ tr₁) := by
  rw [exec, ha]
  exact Option.map_eq_some_iff.mpr ⟨_, hx, rfl⟩

/-- The first of the actions, and the others. -/
theorem exec_cons_eq_some {a : A} {as : List A} (he : M.exec s (a :: as) = some (s', tr)) :
    ∃ s₁ e tr₁, M.step s a = some (s₁, e) ∧ M.exec s₁ as = some (s', tr₁) ∧ tr = e ++ tr₁ := by
  rw [exec] at he
  rcases ha : M.step s a with _ | ⟨s₁, e⟩
  · rw [ha] at he
    cases he
  · rw [ha] at he
    obtain ⟨⟨s₂, tr₁⟩, hx, heq⟩ := Option.map_eq_some_iff.mp he
    cases heq
    exact ⟨s₁, e, tr₁, rfl, hx, rfl⟩

/-- A run can be continued by any list of actions that is enabled. -/
theorem Run.exec {as : List A} (h : M.Run s tr) (he : M.exec s as = some (s', tr')) :
    M.Run s' (tr ++ tr') := by
  induction as generalizing s tr tr' with
  | nil =>
      cases he
      simpa using h
  | cons a as ih =>
      obtain ⟨s₁, e, tr₁, ha, hx, rfl⟩ := exec_cons_eq_some he
      rw [← List.append_assoc]
      exact ih (h.step ha) hx

open Classical in
/-- The machine, as long as all its states satisfy `P`. -/
noncomputable def within (M : Machine S A E) (P : S → Prop) : Machine S A E where
  init s := M.init s ∧ P s
  step s a := (M.step s a).filter fun x ↦ P x.1

theorem within_step {P : S → Prop} {a : A} {e : List E} :
    (M.within P).step s a = some (s', e) ↔ M.step s a = some (s', e) ∧ P s' := by
  simp only [within, Option.filter_eq_some_iff, decide_eq_true_eq]

theorem Run.of_within {P : S → Prop} (h : (M.within P).Run s tr) : M.Run s tr ∧ P s := by
  refine h.invariant (I := fun s tr ↦ M.Run s tr ∧ P s) (fun s hinit ↦ ⟨.init hinit.1, hinit.2⟩) ?_
  rintro s tr a s' e - ⟨hrun, -⟩ hs
  obtain ⟨hs, hP⟩ := within_step.mp hs
  exact ⟨hrun.step hs, hP⟩

/-- Actions that keep `P` do not leave it. -/
theorem Run.exec_within {P : S → Prop} {as : List A} (h : (M.within P).Run s tr)
    (he : M.exec s as = some (s', tr'))
    (hkeep : ∀ a ∈ as, ∀ s s' e, P s → M.step s a = some (s', e) → P s') :
    (M.within P).Run s' (tr ++ tr') := by
  induction as generalizing s tr tr' with
  | nil =>
      cases he
      simpa using h
  | cons a as ih =>
      obtain ⟨s₁, e, tr₁, ha, hx, rfl⟩ := exec_cons_eq_some he
      have hP := hkeep a List.mem_cons_self s s₁ e h.of_within.2 ha
      rw [← List.append_assoc]
      exact ih (h.step (within_step.mpr ⟨ha, hP⟩)) hx fun b hb ↦
        hkeep b (List.mem_cons_of_mem _ hb)

/-- **The rule for pairs of states.**  A preorder that every step respects is respected
by every continuation of a run. -/
theorem Run.exec_rel {R : S → S → Prop} (hrefl : ∀ s, R s s)
    (htrans : ∀ {s₁ s₂ s₃}, R s₁ s₂ → R s₂ s₃ → R s₁ s₃)
    (hstep : ∀ s tr a s' e, M.Run s tr → M.step s a = some (s', e) → R s s') {as : List A}
    (h : M.Run s tr) (he : M.exec s as = some (s', tr')) : R s s' := by
  induction as generalizing s tr tr' with
  | nil =>
      cases he
      exact hrefl _
  | cons a as ih =>
      obtain ⟨s₁, e, tr₁, ha, hx, rfl⟩ := exec_cons_eq_some he
      exact htrans (hstep _ _ _ _ _ h ha) (ih (h.step ha) hx)

/-- **The invariant rule for continuations.**  What holds where a run is taken up again and is kept
by every step from there on holds of the continuation. -/
theorem Run.exec_invariant {I : S → List E → Prop} {as : List A} (h : M.Run s tr)
    (he : M.exec s as = some (s', tr')) (h₀ : I s [])
    (hstep : ∀ s₁ t a s₂ e, M.Run s₁ (tr ++ t) → I s₁ t → M.step s₁ a = some (s₂, e) →
      I s₂ (t ++ e)) : I s' tr' := by
  induction as generalizing s tr tr' I with
  | nil =>
      cases he
      exact h₀
  | cons a as ih =>
      obtain ⟨s₁, e, rest, ha, hx, rfl⟩ := exec_cons_eq_some he
      have hfirst : I s₁ (e ++ []) := by
        rw [List.append_nil]
        exact hstep s [] a s₁ e (by rwa [List.append_nil]) h₀ ha
      refine ih (I := fun s t ↦ I s (e ++ t)) (h.step ha) hx hfirst fun s₂ t b s₃ f hrun hI hb ↦ ?_
      rw [List.append_assoc] at hrun
      rw [← List.append_assoc]
      exact hstep s₂ (e ++ t) b s₃ f hrun hI hb

end Machine

/-! ## Traces -/

section

variable {tr e : List E}

/-- Every event satisfies `G` together with the events before it. -/
def Guarded (G : List E → E → Prop) (tr : List E) : Prop :=
  ∀ pre x post, tr = pre ++ x :: post → G pre x

/-- Some event satisfies `P`, and no later one satisfies `Q`. -/
def Since (P Q : E → Prop) (tr : List E) : Prop :=
  ∃ pre x post, tr = pre ++ x :: post ∧ P x ∧ ∀ y ∈ post, ¬ Q y

theorem guarded_nil {G : List E → E → Prop} : Guarded G [] := by
  intro pre x post h
  cases pre <;> cases h

theorem Guarded.append {G : List E → E → Prop} (h : Guarded G tr)
    (he : ∀ pre x post, e = pre ++ x :: post → G (tr ++ pre) x) : Guarded G (tr ++ e) := by
  intro pre x post heq
  rcases List.append_eq_append_iff.mp heq with ⟨mid, rfl, hmid⟩ | ⟨mid, rfl, hmid⟩
  · exact he mid x post hmid
  · cases mid with
    | nil => simpa using he [] x post hmid.symm
    | cons y mid =>
        cases hmid
        exact h pre x mid rfl

theorem Guarded.concat {G : List E → E → Prop} {x : E} (h : Guarded G tr) (hx : G tr x) :
    Guarded G (tr ++ [x]) := by
  refine h.append fun pre y post heq ↦ ?_
  cases pre with
  | nil =>
      cases heq
      rwa [List.append_nil]
  | cons z pre => cases pre <;> cases heq

theorem Guarded.of_prefix {G : List E → E → Prop} {t : List E} (h : Guarded G tr)
    (ht : t <+: tr) : Guarded G t := by
  obtain ⟨rest, rfl⟩ := ht
  intro pre x post heq
  exact h pre x (post ++ rest) (by rw [heq, List.append_assoc, List.cons_append])

theorem guarded_concat {G : List E → E → Prop} {x : E} :
    Guarded G (tr ++ [x]) ↔ Guarded G tr ∧ G tr x :=
  ⟨fun h ↦ ⟨h.of_prefix ⟨[x], rfl⟩, h tr x [] rfl⟩, fun h ↦ h.1.concat h.2⟩

theorem Guarded.of_mem {G : List E → E → Prop} {x : E} (h : Guarded G tr) (hx : x ∈ tr) :
    ∃ pre post, tr = pre ++ x :: post ∧ G pre x := by
  obtain ⟨pre, post, heq⟩ := List.append_of_mem hx
  exact ⟨pre, post, heq, h pre x post heq⟩

/-- Of two events that are not the same, one came after the other. -/
theorem Guarded.compare {G : List E → E → Prop} {x y : E} (h : Guarded G tr) (hx : x ∈ tr)
    (hy : y ∈ tr) :
    x = y ∨ (∃ pre, y ∈ pre ∧ G pre x) ∨ ∃ pre, x ∈ pre ∧ G pre y := by
  obtain ⟨pre, post, rfl, hpre⟩ := h.of_mem hx
  rcases List.mem_append.mp hy with hy | hy
  · exact Or.inr (Or.inl ⟨pre, hy, hpre⟩)
  · rcases List.mem_cons.mp hy with rfl | hy
    · exact Or.inl rfl
    · obtain ⟨mid, post', rfl⟩ := List.append_of_mem hy
      refine Or.inr (Or.inr ⟨pre ++ x :: mid, by simp, h _ y post' ?_⟩)
      simp

/-- The past of an extended trace: either the new events have it, or the old ones
do and the new ones do not end it. -/
theorem since_append {P Q : E → Prop} :
    Since P Q (tr ++ e) ↔ Since P Q e ∨ Since P Q tr ∧ ∀ y ∈ e, ¬ Q y := by
  constructor
  · rintro ⟨pre, x, post, heq, hx, hpost⟩
    rcases List.append_eq_append_iff.mp heq with ⟨mid, rfl, hmid⟩ | ⟨mid, rfl, hmid⟩
    · exact Or.inl ⟨mid, x, post, hmid, hx, hpost⟩
    · cases mid with
      | nil => exact Or.inl ⟨[], x, post, hmid.symm, hx, hpost⟩
      | cons y mid =>
          cases hmid
          refine Or.inr ⟨⟨pre, x, mid, rfl, hx, fun z hz ↦ hpost z ?_⟩, fun z hz ↦ hpost z ?_⟩
          · exact List.mem_append_left _ hz
          · exact List.mem_append_right _ hz
  · rintro (⟨pre, x, post, rfl, hx, hpost⟩ | ⟨⟨pre, x, post, rfl, hx, hpost⟩, he⟩)
    · exact ⟨tr ++ pre, x, post, by rw [List.append_assoc], hx, hpost⟩
    · refine ⟨pre, x, post ++ e, by rw [List.append_assoc, List.cons_append], hx, fun y hy ↦ ?_⟩
      exact (List.mem_append.mp hy).elim (hpost y) (he y)

/-- New events that do not satisfy `P` can only end the past, not begin it. -/
theorem Since.of_append {P Q : E → Prop} (h : Since P Q (tr ++ e)) (he : ∀ x ∈ e, ¬ P x) :
    Since P Q tr ∧ ∀ y ∈ e, ¬ Q y := by
  rcases since_append.mp h with ⟨pre, x, post, rfl, hx, -⟩ | h
  · exact absurd hx (he x (by simp))
  · exact h

end

end Foundation
