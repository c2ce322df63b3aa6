import Mathlib.Logic.Function.Basic
import Pensieve.Foundation.Machine

/-!
# Lossy maps

A lossy map is what a cache is for: a map from keys to values that may forget any
binding at any time, but never shows a value that was not the last one set.

`LossyRun m es m'` relates the contents before and after a list of effects.
`LossyRun.origin` is the fact that makes a lossy map useful: a value that is found
either was set by an effect after which nothing touched the key, or was there from
the start and the key was never touched.
-/

namespace Foundation

variable {K V : Type*} [DecidableEq K]

/-- What an operation does to a map. -/
inductive Effect (K V : Type*) where
  | set (k : K) (v : V)
  | unset (k : K)
  | nop

/-- The effect on a map that forgets nothing else. -/
def Effect.apply (m : K → Option V) : Effect K V → K → Option V
  | .set k v => Function.update m k (some v)
  | .unset k => Function.update m k none
  | .nop => m

/-- The effect sets or unsets the key. -/
def Effect.Touches (k : K) : Effect K V → Prop
  | .set j _ | .unset j => j = k
  | .nop => False

/-- One operation of a lossy map: its effect, after which bindings may be gone. -/
def LossyStep (m : K → Option V) (e : Effect K V) (m' : K → Option V) : Prop :=
  ∀ k, m' k = none ∨ m' k = e.apply m k

/-- A list of operations of a lossy map. -/
inductive LossyRun : (K → Option V) → List (Effect K V) → (K → Option V) → Prop
  | nil (m : K → Option V) : LossyRun m [] m
  | cons {m m₁ m' : K → Option V} {e : Effect K V} {es : List (Effect K V)}
      (h : LossyStep m e m₁) (hs : LossyRun m₁ es m') : LossyRun m (e :: es) m'

/-- A value that an effect leaves at a key was set there by the effect, or was
there before and the effect does not touch the key. -/
theorem Effect.apply_eq_some {m : K → Option V} {e : Effect K V} {k : K} {v : V}
    (h : e.apply m k = some v) : e = .set k v ∨ m k = some v ∧ ¬ e.Touches k := by
  cases e with
  | set j w =>
      by_cases hj : j = k
      · subst hj
        rw [Effect.apply, Function.update_self, Option.some.injEq] at h
        exact Or.inl (h ▸ rfl)
      · rw [Effect.apply, Function.update_of_ne (Ne.symm hj)] at h
        exact Or.inr ⟨h, hj⟩
  | unset j =>
      by_cases hj : j = k
      · subst hj
        rw [Effect.apply, Function.update_self] at h
        cases h
      · rw [Effect.apply, Function.update_of_ne (Ne.symm hj)] at h
        exact Or.inr ⟨h, hj⟩
  | nop => exact Or.inr ⟨h, not_false⟩

/-- What an effect leaves at a key depends on that key alone. -/
theorem Effect.apply_congr {m m' : K → Option V} {k : K} (h : m k = m' k) (e : Effect K V) :
    e.apply m k = e.apply m' k := by
  cases e <;> simp only [Effect.apply, Function.update_apply, h]

theorem Effect.apply_of_not_touches {m : K → Option V} {e : Effect K V} {k : K}
    (h : ¬ e.Touches k) : e.apply m k = m k := by
  cases e with
  | set j v => exact Function.update_of_ne (Ne.symm h) ..
  | unset j => exact Function.update_of_ne (Ne.symm h) ..
  | nop => rfl

/-- Where a value comes from. -/
theorem LossyRun.origin {m m' : K → Option V} {es : List (Effect K V)} {k : K} {v : V}
    (h : LossyRun m es m') (hk : m' k = some v) :
    Since (· = .set k v) (Effect.Touches k) es ∨ m k = some v ∧ ∀ e ∈ es, ¬ e.Touches k := by
  induction h with
  | nil m => exact Or.inr ⟨hk, by simp⟩
  | @cons m m₁ m' e es hstep _ ih =>
      rcases ih hk with hs | ⟨hm₁, hes⟩
      · exact Or.inl (show Since _ _ ([e] ++ es) from since_append.mpr (Or.inl hs))
      · have he : e.apply m k = some v := by
          rcases hstep k with hn | heq
          · rw [hn] at hm₁
            cases hm₁
          · rw [← heq, hm₁]
        rcases Effect.apply_eq_some he with rfl | ⟨hm, hne⟩
        · exact Or.inl ⟨[], _, es, rfl, rfl, hes⟩
        · exact Or.inr ⟨hm, by simpa using ⟨hne, hes⟩⟩

end Foundation
