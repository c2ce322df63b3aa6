import Mathlib.Logic.Function.Basic
import Pensieve.Foundation.Machine

/-!
# Wait groups

`src/coordinator/wait_group.cpp`: request collapsing.  The first coroutine to join
for a key is the initiator: it performs the fetch and calls `complete`.  The others
get the handle of the same fetch and wait for its result.

A `PendingFetch` is shared through `std::shared_ptr`, so it outlives its entry in
the map of pending fetches.  Fetches therefore live in a table of their own, and a
handle is an index into it.  Handles are never reused here; the code reuses an
address only when nobody holds the handle any more.

Coroutines are of any type `C`, keys of any type `K` and fetched values of any type
`V`.  `Sys` runs any number of coroutines.  A step is one critical section, one
read of the flag `completed`, one resumption or one read of the result:

* `complete` is cut into its critical sections (`takePending`, `publish`) and the
  resumption of each waiter;
* `await_ready` reads `completed` without the fetch's mutex.  It may do so in the
  middle of the second critical section, where the flag is written after the
  result; a reader that finds the flag set there does the same as one that comes
  after the section.
-/

namespace Pensieve

variable {C K V : Type*}

/-- `WaitGroup::PendingFetch`. -/
structure PendingFetch (C V : Type*) where
  waiters : List C
  result : Option V
  completed : Bool

/-- A fetch that has just been made. -/
def PendingFetch.new : PendingFetch C V := ⟨[], none, false⟩

/-- `waiters.push_back(h)`. -/
def PendingFetch.push (x : PendingFetch C V) (c : C) : PendingFetch C V :=
  { x with waiters := x.waiters ++ [c] }

/-- The wait group: the map of pending fetches, and the fetches themselves. -/
structure WaitGroup (C K V : Type*) where
  pending : K → Option ℕ
  fetches : ℕ → PendingFetch C V
  next : ℕ

namespace WaitGroup

def empty : WaitGroup C K V :=
  { pending := fun _ ↦ none, fetches := fun _ ↦ .new, next := 0 }

/-- `try_join`: whether the caller is the initiator, and the handle. -/
def tryJoin [DecidableEq K] (g : WaitGroup C K V) (key : K) : (Bool × ℕ) × WaitGroup C K V :=
  match g.pending key with
  | some f => ((false, f), g)
  | none =>
    ((true, g.next),
      { pending := Function.update g.pending key (some g.next)
        fetches := Function.update g.fetches g.next .new
        next := g.next + 1 })

/-- `await_ready`. -/
def awaitReady (g : WaitGroup C K V) (f : ℕ) : Bool := (g.fetches f).completed

/-- Write to a fetch. -/
def setFetch (g : WaitGroup C K V) (f : ℕ) (x : PendingFetch C V) : WaitGroup C K V :=
  { g with fetches := Function.update g.fetches f x }

/-- `await_suspend`: whether the coroutine stays suspended. -/
def awaitSuspend (g : WaitGroup C K V) (f : ℕ) (c : C) : Bool × WaitGroup C K V :=
  if (g.fetches f).completed then (false, g)
  else (true, g.setFetch f ((g.fetches f).push c))

/-- `await_resume`. -/
def awaitResume (g : WaitGroup C K V) (f : ℕ) : Option V := (g.fetches f).result

/-- The first critical section of `complete`: the fetch leaves the map. -/
def takePending [DecidableEq K] (g : WaitGroup C K V) (key : K) : Option ℕ × WaitGroup C K V :=
  match g.pending key with
  | none => (none, g)
  | some f => (some f, { g with pending := Function.update g.pending key none })

/-- The second critical section of `complete`: the result is written and the
waiters are taken out. -/
def publish (g : WaitGroup C K V) (f : ℕ) (value : Option V) : List C × WaitGroup C K V :=
  ((g.fetches f).waiters, g.setFetch f ⟨[], value, true⟩)

/-! ## Coroutines -/

/-- Where a coroutine stands. -/
inductive Coro (C K V : Type*) where
  | /-- In none of the calls. -/
    idle
  | /-- The initiator, performing the fetch. -/
    fetching (key : K) (f : ℕ)
  | /-- The initiator has called `complete` and stands before its first section. -/
    completing (key : K) (f : ℕ) (value : Option V)
  | /-- Between the two sections of `complete`, with the fetch that was found. -/
    publishing (f : ℕ) (value : Option V)
  | /-- In the loop of `complete` that resumes the waiters. -/
    resuming (f : ℕ) (toResume : List C)
  | /-- Joined, about to call `await_ready`. -/
    joined (f : ℕ)
  | /-- `await_ready` was false; about to call `await_suspend`. -/
    notReady (f : ℕ)
  | /-- Suspended. -/
    suspended (f : ℕ)
  | /-- About to call `await_resume`. -/
    ready (f : ℕ)

/-- What can be seen of a coroutine. -/
inductive Event (C K V : Type*) where
  | joined (c : C) (key : K) (f : ℕ) (isInitiator : Bool)
  | called (c : C) (key : K) (f : ℕ) (value : Option V)
  | wrote (f : ℕ) (value : Option V)
  | suspended (c : C) (f : ℕ)
  | resumed (c : C) (f : ℕ)
  | obtained (c : C) (f : ℕ) (value : Option V)

/-- What a coroutine can do. -/
inductive Action (C K V : Type*) where
  | tryJoin (c : C) (key : K)
  | complete (c : C) (value : Option V)
  | takePending (c : C)
  | publish (c : C)
  | resume (c : C)
  | return (c : C)
  | awaitReady (c : C)
  | awaitSuspend (c : C)
  | awaitResume (c : C)

/-- The wait group and the coroutines. -/
structure Sys (C K V : Type*) where
  group : WaitGroup C K V
  coro : C → Coro C K V

namespace Sys

variable [DecidableEq C] [DecidableEq K]

/-- Move one coroutine. -/
def move (s : Sys C K V) (c : C) (x : Coro C K V) : Sys C K V :=
  { s with coro := Function.update s.coro c x }

/-- `h.resume()`: a suspended coroutine goes on to `await_resume`. -/
def resumeCoro (s : Sys C K V) (c : C) : Sys C K V :=
  match s.coro c with
  | .suspended f => s.move c (.ready f)
  | _ => s

/-- One step of the system. -/
def step (s : Sys C K V) : Action C K V → Option (Sys C K V × List (Event C K V))
  | .tryJoin c key =>
    match s.coro c with
    | .idle =>
      match s.group.tryJoin key with
      | ((true, f), g) =>
        some (move { s with group := g } c (.fetching key f), [.joined c key f true])
      | ((false, f), g) =>
        some (move { s with group := g } c (.joined f), [.joined c key f false])
    | _ => none
  | .complete c value =>
    match s.coro c with
    | .fetching key f => some (s.move c (.completing key f value), [.called c key f value])
    | _ => none
  | .takePending c =>
    match s.coro c with
    | .completing key _ value =>
      match s.group.takePending key with
      | (none, _) => some (s.move c .idle, [])
      | (some f, g) => some (move { s with group := g } c (.publishing f value), [])
    | _ => none
  | .publish c =>
    match s.coro c with
    | .publishing f value =>
      let (toResume, g) := s.group.publish f value
      some (move { s with group := g } c (.resuming f toResume), [.wrote f value])
    | _ => none
  | .resume c =>
    match s.coro c with
    | .resuming f (d :: rest) =>
      some ((s.move c (.resuming f rest)).resumeCoro d, [.resumed d f])
    | _ => none
  | .return c =>
    match s.coro c with
    | .resuming _ [] => some (s.move c .idle, [])
    | _ => none
  | .awaitReady c =>
    match s.coro c with
    | .joined f =>
      if s.group.awaitReady f then some (s.move c (.ready f), [])
      else some (s.move c (.notReady f), [])
    | _ => none
  | .awaitSuspend c =>
    match s.coro c with
    | .notReady f =>
      match s.group.awaitSuspend f c with
      | (true, g) => some (move { s with group := g } c (.suspended f), [.suspended c f])
      | (false, _) => some (s.move c (.ready f), [])
    | _ => none
  | .awaitResume c =>
    match s.coro c with
    | .ready f => some (s.move c .idle, [.obtained c f (s.group.awaitResume f)])
    | _ => none

/-- Any number of coroutines and an empty wait group. -/
def machine (C K V : Type*) [DecidableEq C] [DecidableEq K] :
    Foundation.Machine (Sys C K V) (Action C K V) (Event C K V) where
  init s := s = ⟨.empty, fun _ ↦ .idle⟩
  step := step

/-! ## What a step can do -/

omit [DecidableEq K] in
theorem move_coro (s : Sys C K V) (c d : C) (x : Coro C K V) :
    (s.move c x).coro d = if d = c then x else s.coro d :=
  Function.update_apply s.coro c x d

omit [DecidableEq K] in
@[simp] theorem move_group (s : Sys C K V) (c : C) (x : Coro C K V) :
    (s.move c x).group = s.group := rfl

/-- The steps, each with its guard and its outcome. -/
inductive Moves (s : Sys C K V) : Sys C K V → List (Event C K V) → Prop
  | start {c : C} {k : K} (hc : s.coro c = .idle) (hk : s.group.pending k = none) :
      Moves s
        (move { s with group :=
          { pending := Function.update s.group.pending k (some s.group.next)
            fetches := Function.update s.group.fetches s.group.next .new
            next := s.group.next + 1 } } c (.fetching k s.group.next))
        [.joined c k s.group.next true]
  | join {c : C} {k : K} {f : ℕ} (hc : s.coro c = .idle) (hk : s.group.pending k = some f) :
      Moves s (s.move c (.joined f)) [.joined c k f false]
  | call {c : C} {k : K} {f : ℕ} {v : Option V} (hc : s.coro c = .fetching k f) :
      Moves s (s.move c (.completing k f v)) [.called c k f v]
  | takeNone {c : C} {k : K} {f : ℕ} {v : Option V} (hc : s.coro c = .completing k f v)
      (hk : s.group.pending k = none) : Moves s (s.move c .idle) []
  | take {c : C} {k : K} {f f' : ℕ} {v : Option V} (hc : s.coro c = .completing k f v)
      (hk : s.group.pending k = some f') :
      Moves s
        (move { s with group :=
          { s.group with pending := Function.update s.group.pending k none } } c
            (.publishing f' v))
        []
  | publish {c : C} {f : ℕ} {v : Option V} (hc : s.coro c = .publishing f v) :
      Moves s
        (move { s with group := s.group.setFetch f ⟨[], v, true⟩ } c
          (.resuming f (s.group.fetches f).waiters))
        [.wrote f v]
  | resume {c d : C} {f : ℕ} {rest : List C} (hc : s.coro c = .resuming f (d :: rest)) :
      Moves s ((s.move c (.resuming f rest)).resumeCoro d) [.resumed d f]
  | done {c : C} {f : ℕ} (hc : s.coro c = .resuming f []) : Moves s (s.move c .idle) []
  | ready {c : C} {f : ℕ} (hc : s.coro c = .joined f ∨ s.coro c = .notReady f)
      (hf : (s.group.fetches f).completed = true) : Moves s (s.move c (.ready f)) []
  | notReady {c : C} {f : ℕ} (hc : s.coro c = .joined f)
      (hf : (s.group.fetches f).completed = false) : Moves s (s.move c (.notReady f)) []
  | suspend {c : C} {f : ℕ} (hc : s.coro c = .notReady f)
      (hf : (s.group.fetches f).completed = false) :
      Moves s
        (move { s with group := s.group.setFetch f ((s.group.fetches f).push c) } c
          (.suspended f))
        [.suspended c f]
  | obtain {c : C} {f : ℕ} (hc : s.coro c = .ready f) :
      Moves s (s.move c .idle) [.obtained c f (s.group.fetches f).result]

theorem step_moves {s s' : Sys C K V} {a : Action C K V} {e : List (Event C K V)}
    (h : s.step a = some (s', e)) : Moves s s' e := by
  cases a with
  | tryJoin c k =>
      simp only [step, tryJoin] at h
      split at h
      · rename_i hc
        rcases hk : s.group.pending k with _ | f
        · simp only [hk, Option.some.injEq, Prod.mk.injEq] at h
          obtain ⟨rfl, rfl⟩ := h
          exact .start hc hk
        · simp only [hk, Option.some.injEq, Prod.mk.injEq] at h
          obtain ⟨rfl, rfl⟩ := h
          exact .join hc hk
      · cases h
  | complete c v =>
      simp only [step] at h
      split at h
      · cases h
        exact .call (by assumption)
      · cases h
  | takePending c =>
      simp only [step, takePending] at h
      split at h
      · rename_i k f v hc
        rcases hk : s.group.pending k with _ | f'
        · simp only [hk, Option.some.injEq, Prod.mk.injEq] at h
          obtain ⟨rfl, rfl⟩ := h
          exact .takeNone hc hk
        · simp only [hk, Option.some.injEq, Prod.mk.injEq] at h
          obtain ⟨rfl, rfl⟩ := h
          exact .take hc hk
      · cases h
  | publish c =>
      simp only [step] at h
      split at h
      · cases h
        exact .publish (by assumption)
      · cases h
  | resume c =>
      simp only [step] at h
      split at h
      · cases h
        exact .resume (by assumption)
      · cases h
  | «return» c =>
      simp only [step] at h
      split at h
      · cases h
        exact .done (by assumption)
      · cases h
  | awaitReady c =>
      simp only [step, awaitReady] at h
      split at h
      · rename_i f hc
        rcases hf : (s.group.fetches f).completed
        · simp only [hf, Bool.false_eq_true, if_false, Option.some.injEq, Prod.mk.injEq] at h
          obtain ⟨rfl, rfl⟩ := h
          exact .notReady hc hf
        · simp only [hf, if_true, Option.some.injEq, Prod.mk.injEq] at h
          obtain ⟨rfl, rfl⟩ := h
          exact .ready (Or.inl hc) hf
      · cases h
  | awaitSuspend c =>
      simp only [step, awaitSuspend] at h
      split at h
      · rename_i f hc
        rcases hf : (s.group.fetches f).completed
        · simp only [hf, Bool.false_eq_true, if_false, Option.some.injEq, Prod.mk.injEq] at h
          obtain ⟨rfl, rfl⟩ := h
          exact .suspend hc hf
        · simp only [hf, if_true, Option.some.injEq, Prod.mk.injEq] at h
          obtain ⟨rfl, rfl⟩ := h
          exact .ready (Or.inr hc) hf
      · cases h
  | awaitResume c =>
      simp only [step] at h
      split at h
      · cases h
        exact .obtain (by assumption)
      · cases h

end Sys

end WaitGroup

end Pensieve
