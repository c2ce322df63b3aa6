import Pensieve.Foundation.Machine

/-!
# Simulation

A specification may be a relation instead of a machine: what a step does is left open, and most
steps show nothing.  `Trace step` are its runs with what they show.

A machine keeps to the specification if each of its steps is matched by some steps of the
specification that show the same (`Machine.Run.simulates`), where an abstraction function says
which states correspond.
-/

namespace Foundation

variable {S A E T : Type*} {step : T → List E → T → Prop} {t t₁ t' : T} {tr tr' e : List E}

/-- Any number of steps one after the other, with all that they show. -/
inductive Trace (step : T → List E → T → Prop) : T → List E → T → Prop
  | refl (t : T) : Trace step t [] t
  | tail {t t₁ t' : T} {tr e : List E} (h : Trace step t tr t₁) (hs : step t₁ e t') :
      Trace step t (tr ++ e) t'

theorem Trace.single (h : step t e t') : Trace step t e t' := by
  simpa using (Trace.refl t).tail h

theorem Trace.trans (h : Trace step t tr t₁) (h' : Trace step t₁ tr' t') :
    Trace step t (tr ++ tr') t' := by
  induction h' with
  | refl => simpa using h
  | tail _ hs ih =>
      rw [← List.append_assoc]
      exact ih.tail hs

/-- Every run of the machine is one of the specification. -/
theorem Machine.Run.simulates {M : Machine S A E} (abs : S → T) {s : S} (h : M.Run s tr)
    (hstep : ∀ s tr a s' e, M.Run s tr → M.step s a = some (s', e) →
      Trace step (abs s) e (abs s')) : ∃ s₀, M.init s₀ ∧ Trace step (abs s₀) tr (abs s) := by
  refine h.invariant (I := fun s tr ↦ ∃ s₀, M.init s₀ ∧ Trace step (abs s₀) tr (abs s))
    (fun s hinit ↦ ⟨s, hinit, .refl _⟩) ?_
  rintro s tr a s' e hrun ⟨s₀, hinit, htrace⟩ hs
  exact ⟨s₀, hinit, htrace.trans (hstep s tr a s' e hrun hs)⟩

end Foundation
