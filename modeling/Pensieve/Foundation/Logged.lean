import Mathlib.Control.Monad.Basic
import Mathlib.Data.List.Perm.Basic
import Mathlib.Data.List.Range

/-!
# Computations that keep a log

A computation in `StateM (List ω)` that only ever appends to its state keeps a log.
`Logs m l` says that `m` appends exactly `l`, whatever it is started on.  The rules below follow
the way such a computation is put together, so that the log of a program is read off its text;
`Logs.bind` asks for a continuation whose log does not depend on the value it is given.
-/

namespace Foundation

universe u

variable {ω α β : Type u}

/-- The computation appends `l` to the log. -/
def Logs (m : StateM (List ω) α) (l : List ω) : Prop := ∀ log, (m log).2 = log ++ l

namespace Logs

theorem pure (a : α) : Logs (Pure.pure a : StateM (List ω) α) [] := fun log ↦
  (List.append_nil log).symm

theorem bind {m : StateM (List ω) α} {k : α → StateM (List ω) β} {l l' : List ω}
    (hm : Logs m l) (hk : ∀ a, Logs (k a) l') : Logs (m >>= k) (l ++ l') := by
  intro log
  change (k (m log).1 (m log).2).2 = log ++ (l ++ l')
  rw [hk, hm, List.append_assoc]

/-- What is done with the value at the end is not logged. -/
theorem bind_pure {m : StateM (List ω) α} {l : List ω} (hm : Logs m l) (f : α → β) :
    Logs (m >>= fun a ↦ Pure.pure (f a)) l := by
  have h := hm.bind fun a ↦ Logs.pure (f a)
  rwa [List.append_nil] at h

/-- A guarded computation logs the same whether or not the guard holds, when it would have
nothing to log where it is skipped. -/
theorem guarded {p : Prop} [Decidable p] {m : StateM (List ω) α} {l : List ω} (hm : Logs m l)
    (hl : ¬p → l = []) (f : α → β) (b : β) :
    Logs (if p then m >>= fun a ↦ Pure.pure (f a) else Pure.pure b) l := by
  by_cases hp : p
  · rw [if_pos hp]
    exact hm.bind_pure f
  · rw [if_neg hp, hl hp]
    exact Logs.pure b

theorem log_eq {m : StateM (List ω) α} {l : List ω} (hm : Logs m l) : (m []).2 = l := hm []

end Logs

end Foundation
