import Mathlib.Data.List.Permutation
import Pensieve.Sdk.ClientSteps

/-!
# Failover

`execute` visits its targets one after the other.  A visit ends with a refusal of the breaker, with
a failure, or with a response, and it leaves its own pattern of events.  At any time the events of
a call are those of the visits that came to nothing, followed by those of the visit that the thread
is in the middle of (`CallOK`).  Everything about a call that has returned is read off from this
(`Report`), whatever other threads have done in the meantime.

A call returns: there is always a next step, and every step lowers `Execution.left`.
-/

namespace Pensieve

open Foundation

namespace PensieveClient

variable {cfg : Config} {b : CircuitBreaker} {s s' : PensieveClient} {i j fd n : ℕ}
  {x x' : Execution} {env : Env} {ev log : List Event} {ep : NodeEndpoint} {resp : Response}

/-! ## Visits -/

/-- How a visit that came to nothing went: the breaker refused, no connection could be had, or
the connection broke. -/
inductive Miss where
  | refused (asked : Time)
  | unreachable (asked failed : Time)
  | broken (asked failed : Time) (fd : ℕ)

/-- The events of such a visit. -/
def Miss.events (ep : NodeEndpoint) : Miss → List Event
  | .refused asked => [.asked ep asked false]
  | .unreachable asked failed => [.asked ep asked true, .contacted ep, .failure ep failed]
  | .broken asked failed fd =>
    [.asked ep asked true, .contacted ep, .acquired fd, .closed fd, .failure ep failed]

/-- The events of visits that came to nothing. -/
def missed (misses : List (NodeEndpoint × Miss)) : List Event :=
  misses.flatMap fun v ↦ v.2.events v.1

/-- The events of a visit that ended with a response, where `e` is what became of the
connection. -/
def answered (ep : NodeEndpoint) (fd : ℕ) (resp : Response) (now : Time) (e : Event) :
    List Event :=
  [.asked ep now true, .contacted ep, .acquired fd, .received resp, e, .success ep]

/-- The target that is being visited, and the events of the visit so far.  There are `targets`
behind it. -/
inductive Visiting (targets : List NodeEndpoint) : Stage → List NodeEndpoint → List Event → Prop
  | loop : Visiting targets .loop [] []
  | exhausted (hnone : targets = []) : Visiting targets (.returned none) [] []
  | acquire (ep : NodeEndpoint) (now : Time) :
      Visiting targets (.acquire ep) [ep] [.asked ep now true]
  | connect (ep : NodeEndpoint) (now : Time) :
      Visiting targets (.connect ep) [ep] [.asked ep now true, .contacted ep]
  | send (ep : NodeEndpoint) (fd : ℕ) (now : Time) :
      Visiting targets (.send ep fd) [ep] [.asked ep now true, .contacted ep, .acquired fd]
  | recv (ep : NodeEndpoint) (fd : ℕ) (now : Time) :
      Visiting targets (.recv ep fd) [ep] [.asked ep now true, .contacted ep, .acquired fd]
  | discard (ep : NodeEndpoint) (fd : ℕ) (now : Time) :
      Visiting targets (.discard ep fd) [ep] [.asked ep now true, .contacted ep, .acquired fd]
  | unreachable (ep : NodeEndpoint) (now : Time) :
      Visiting targets (.fail ep) [ep] [.asked ep now true, .contacted ep]
  | broken (ep : NodeEndpoint) (fd : ℕ) (now : Time) :
      Visiting targets (.fail ep) [ep] [.asked ep now true, .contacted ep, .acquired fd, .closed fd]
  | release (ep : NodeEndpoint) (fd : ℕ) (resp : Response) (now : Time) :
      Visiting targets (.release ep fd resp) [ep]
        [.asked ep now true, .contacted ep, .acquired fd, .received resp]
  | succeed (ep : NodeEndpoint) (fd : ℕ) (resp : Response) (now : Time) (e : Event)
      (he : e = .kept fd ∨ e = .closed fd) :
      Visiting targets (.succeed ep resp) [ep]
        [.asked ep now true, .contacted ep, .acquired fd, .received resp, e]
  | finish (ep : NodeEndpoint) (fd : ℕ) (resp : Response) (now : Time) (e : Event)
      (he : e = .kept fd ∨ e = .closed fd) :
      Visiting targets (.finish resp) [ep] (answered ep fd resp now e)
  | returned (ep : NodeEndpoint) (fd : ℕ) (resp : Response) (now : Time) (e : Event)
      (he : e = .kept fd ∨ e = .closed fd) :
      Visiting targets (.returned (some resp)) [ep] (answered ep fd resp now e)

/-- A call and its events. -/
inductive CallOK (n : ℕ) (x : Execution) : List Event → Prop
  | start (hx : x.stage = .start) : CallOK n x []
  | visiting {t : TopologyManager} {misses : List (NodeEndpoint × Miss)}
      {visited : List NodeEndpoint} {events : List Event} (built : Built t)
      (visit : Visiting x.targets x.stage visited events)
      (targets : t.findSuccessors x.call.request.key n =
        misses.map Prod.fst ++ (visited ++ x.targets)) :
      CallOK n x (.searched t :: (missed misses ++ events))

/-- The visit goes on. -/
theorem CallOK.goOn {t : TopologyManager} {misses : List (NodeEndpoint × Miss)}
    {visited : List NodeEndpoint} {events : List Event} (built : Built t)
    (visit : Visiting x'.targets x'.stage visited (events ++ ev))
    (targets : t.findSuccessors x'.call.request.key n =
      misses.map Prod.fst ++ (visited ++ x'.targets)) :
    CallOK n x' (.searched t :: (missed misses ++ events) ++ ev) := by
  rw [List.cons_append, List.append_assoc]
  exact .visiting built visit targets

/-- The visit has come to nothing. -/
theorem CallOK.miss {t : TopologyManager} {misses : List (NodeEndpoint × Miss)}
    {events : List Event} (m : Miss) (built : Built t) (hx : x'.stage = .loop)
    (targets : t.findSuccessors x'.call.request.key n =
      misses.map Prod.fst ++ (ep :: x'.targets))
    (hevents : events ++ ev = m.events ep) :
    CallOK n x' (.searched t :: (missed misses ++ events) ++ ev) := by
  have hmissed : missed misses ++ events ++ ev = missed (misses ++ [(ep, m)]) ++ [] := by
    rw [List.append_assoc, hevents, missed, missed, List.flatMap_append]
    simp
  rw [List.cons_append, hmissed]
  have hloop : Visiting x'.targets x'.stage [] [] := by
    rw [hx]
    exact .loop
  refine .visiting built hloop ?_
  rw [targets]
  simp

/-- Every step of the thread keeps this. -/
theorem CallOK.step (h : CallOK n x log) (hstep : Local n x ev x') : CallOK n x' (log ++ ev) := by
  cases h with
  | start hx =>
    cases hstep with
    | searched t ht _ =>
      have hvisit : Visiting (t.findSuccessors x.call.request.key n)
          (if t.findSuccessors x.call.request.key n = [] then .returned none else .loop) [] [] := by
        split_ifs with hnone
        · exact .exhausted hnone
        · exact .loop
      change CallOK n _ (.searched t :: (missed [] ++ []))
      exact .visiting ht hvisit rfl
    | _ => simp_all
  | visiting built visit targets =>
    cases hstep with
    | searched t ht hx =>
      rw [hx] at visit
      cases visit
    | exhausted hx hnone =>
      rw [hx] at visit
      cases visit
      exact .goOn built (.exhausted rfl) (by rw [targets, hnone])
    | allowed now hx htargets =>
      rw [hx] at visit
      cases visit
      exact .goOn built (.acquire _ now) (by rw [targets, htargets]; rfl)
    | refused now hx htargets =>
      rw [hx] at visit
      cases visit
      exact .miss (.refused now) built rfl (by rw [targets, htargets]; rfl) rfl
    | pooled fd hx =>
      rw [hx] at visit
      cases visit
      exact .goOn built (.send _ fd _) targets
    | unpooled hx =>
      rw [hx] at visit
      cases visit
      exact .goOn built (.connect _ _) targets
    | unreachable hx =>
      rw [hx] at visit
      cases visit
      exact .goOn built (.unreachable _ _) targets
    | connected fd hx =>
      rw [hx] at visit
      cases visit
      exact .goOn built (.send _ fd _) targets
    | sent hx =>
      rw [hx] at visit
      cases visit
      exact .goOn built (.recv _ _ _) targets
    | unsent hx =>
      rw [hx] at visit
      cases visit
      exact .goOn built (.discard _ _ _) targets
    | received resp hx =>
      rw [hx] at visit
      cases visit
      exact .goOn built (.release _ _ resp _) targets
    | lost hx =>
      rw [hx] at visit
      cases visit
      exact .goOn built (.discard _ _ _) targets
    | discarded hx =>
      rw [hx] at visit
      cases visit
      exact .goOn built (.broken _ _ _) targets
    | failed now hx =>
      rw [hx] at visit
      cases visit with
      | unreachable _ asked =>
        exact .miss (.unreachable asked now) built rfl targets rfl
      | broken _ fd asked =>
        exact .miss (.broken asked now fd) built rfl targets rfl
    | released e he hx =>
      rw [hx] at visit
      cases visit
      exact .goOn built (.succeed _ _ _ _ e he) targets
    | succeeded hx =>
      rw [hx] at visit
      cases visit with
      | succeed _ fd _ asked e he =>
        exact .goOn built (.finish _ fd _ asked e he) targets
    | finished hx =>
      rw [hx] at visit
      cases visit with
      | finish ep fd _ asked e he =>
        exact .goOn built (.returned ep fd _ asked e he) targets

/-! ## What the events of a call say -/

/-- Whom the breaker was asked about, and its answers. -/
def asked (log : List Event) : List (NodeEndpoint × Bool) :=
  log.filterMap fun
    | .asked ep _ allowed => some (ep, allowed)
    | _ => none

/-- The targets that were contacted. -/
def contacted (log : List Event) : List NodeEndpoint :=
  log.filterMap fun
    | .contacted ep => some ep
    | _ => none

/-- The complete responses. -/
def received (log : List Event) : List Response :=
  log.filterMap fun
    | .received resp => some resp
    | _ => none

/-- The failures that were recorded. -/
def failures (log : List Event) : List NodeEndpoint :=
  log.filterMap fun
    | .failure ep _ => some ep
    | _ => none

/-- The successes that were recorded. -/
def successes (log : List Event) : List NodeEndpoint :=
  log.filterMap fun
    | .success ep => some ep
    | _ => none

/-- The connections that were acquired. -/
def acquired (log : List Event) : List ℕ :=
  log.filterMap fun
    | .acquired fd => some fd
    | _ => none

/-- The connections that were closed or put back. -/
def disposed (log : List Event) : List ℕ :=
  log.filterMap fun
    | .closed fd => some fd
    | .kept fd => some fd
    | _ => none

/-- What holds of a call that has returned `result`. -/
structure Report (targets : List NodeEndpoint) (log : List Event) (result : Option Response) :
    Prop where
  /-- The targets are gone through in order. -/
  order : (asked log).map Prod.fst <+: targets
  /-- Those are contacted that the breaker does not refuse. -/
  skips : contacted log = ((asked log).filter Prod.snd).map Prod.fst
  once : (contacted log).Nodup
  /-- There is no complete response but the one that is returned. -/
  response : received log = result.toList
  /-- The one who gave it is the last target that was asked about. -/
  responder : ∀ resp, result = some resp →
    ∃ ep, (asked log).getLast? = some (ep, true) ∧ successes log = [ep]
  /-- Nothing is returned when every target was refused or failed. -/
  none_iff : result = none ↔ (asked log).map Prod.fst = targets ∧ failures log = contacted log
  /-- Who was contacted has failed, but for the responder. -/
  recorded : contacted log = failures log ++ successes log
  /-- Every connection is closed or put back. -/
  sockets : acquired log = disposed log

theorem missed_cons (ep : NodeEndpoint) (m : Miss) (misses : List (NodeEndpoint × Miss)) :
    missed ((ep, m) :: misses) = m.events ep ++ missed misses := rfl

/-- Visits that came to nothing: whoever was contacted has failed, and got no connection that is not
closed. -/
theorem report_missed (misses : List (NodeEndpoint × Miss)) :
    (asked (missed misses)).map Prod.fst = misses.map Prod.fst ∧
      contacted (missed misses) = ((asked (missed misses)).filter Prod.snd).map Prod.fst ∧
      received (missed misses) = [] ∧ successes (missed misses) = [] ∧
      failures (missed misses) = contacted (missed misses) ∧
      acquired (missed misses) = disposed (missed misses) := by
  induction misses with
  | nil => exact ⟨rfl, rfl, rfl, rfl, rfl, rfl⟩
  | cons v misses ih =>
    obtain ⟨ep, m⟩ := v
    obtain ⟨horder, hskips, hreceived, hsuccesses, hfailures, hsockets⟩ := ih
    rw [missed_cons]
    simp only [asked, contacted, received, failures, successes, acquired, disposed,
      List.filterMap_append] at *
    cases m <;> simp [Miss.events, *]

theorem nodup_contacted {targets : List NodeEndpoint} (hnodup : targets.Nodup)
    (horder : (asked log).map Prod.fst <+: targets)
    (hskips : contacted log = ((asked log).filter Prod.snd).map Prod.fst) :
    (contacted log).Nodup := by
  rw [hskips]
  exact ((List.filter_sublist.map Prod.fst).trans horder.sublist).nodup hnodup

/-- All targets came to nothing. -/
theorem report_none (t : TopologyManager) {misses : List (NodeEndpoint × Miss)}
    (hnodup : (misses.map Prod.fst).Nodup) :
    Report (misses.map Prod.fst) (.searched t :: missed misses) none := by
  obtain ⟨horder, hskips, hreceived, hsuccesses, hfailures, hsockets⟩ := report_missed misses
  have hpre : (asked (missed misses)).map Prod.fst <+: misses.map Prod.fst := by
    rw [horder]
  exact {
    order := hpre
    skips := hskips
    once := nodup_contacted hnodup hpre hskips
    response := hreceived
    responder := fun _ h ↦ by cases h
    none_iff := iff_of_true rfl ⟨horder, hfailures⟩
    recorded := by
      change contacted (missed misses) = failures (missed misses) ++ successes (missed misses)
      rw [hsuccesses, List.append_nil, hfailures]
    sockets := hsockets }

/-- A target has answered, after others came to nothing. -/
theorem report_some (t : TopologyManager) {misses : List (NodeEndpoint × Miss)}
    {targets : List NodeEndpoint} (now : Time) {e : Event} (he : e = .kept fd ∨ e = .closed fd)
    (hnodup : (misses.map Prod.fst ++ ep :: targets).Nodup) :
    Report (misses.map Prod.fst ++ ep :: targets)
      (.searched t :: (missed misses ++ answered ep fd resp now e)) (some resp) := by
  obtain ⟨horder, hskips, hreceived, hsuccesses, hfailures, hsockets⟩ := report_missed misses
  generalize hlog : Event.searched t :: (missed misses ++ answered ep fd resp now e) = log
  have hasked : asked log = asked (missed misses) ++ [(ep, true)] := by
    rcases he with rfl | rfl <;> exact hlog ▸ List.filterMap_append
  have hcontacted : contacted log = contacted (missed misses) ++ [ep] := by
    rcases he with rfl | rfl <;> exact hlog ▸ List.filterMap_append
  have hresponse : received log = received (missed misses) ++ [resp] := by
    rcases he with rfl | rfl <;> exact hlog ▸ List.filterMap_append
  have hfailed : failures log = failures (missed misses) ++ [] := by
    rcases he with rfl | rfl <;> exact hlog ▸ List.filterMap_append
  have hsucceeded : successes log = successes (missed misses) ++ [ep] := by
    rcases he with rfl | rfl <;> exact hlog ▸ List.filterMap_append
  have hacquired : acquired log = acquired (missed misses) ++ [fd] := by
    rcases he with rfl | rfl <;> exact hlog ▸ List.filterMap_append
  have hdisposed : disposed log = disposed (missed misses) ++ [fd] := by
    rcases he with rfl | rfl <;> exact hlog ▸ List.filterMap_append
  have hpre : (asked log).map Prod.fst <+: misses.map Prod.fst ++ ep :: targets := by
    rw [hasked, List.map_append, horder]
    exact ⟨targets, by simp⟩
  have hskipped : contacted log = ((asked log).filter Prod.snd).map Prod.fst := by
    rw [hcontacted, hskips, hasked]
    simp
  refine {
    order := hpre
    skips := hskipped
    once := nodup_contacted hnodup hpre hskipped
    response := by rw [hresponse, hreceived]; rfl
    responder := ?_
    none_iff := ?_
    recorded := ?_
    sockets := by rw [hacquired, hdisposed, hsockets] }
  · intro _ _
    refine ⟨ep, ?_, ?_⟩
    · rw [hasked, List.getLast?_concat]
    · rw [hsucceeded, hsuccesses, List.nil_append]
  · -- the responder has not failed
    refine iff_of_false (Option.some_ne_none resp) fun h ↦ ?_
    have hlength := congrArg List.length h.2
    rw [hfailed, List.append_nil, hcontacted, hfailures, List.length_append] at hlength
    exact absurd hlength (Nat.ne_of_lt (Nat.lt_succ_self _))
  · rw [hcontacted, hfailed, hsucceeded, hsuccesses, hfailures, List.append_nil, List.nil_append]

/-- What can be said of a call that has returned. -/
theorem CallOK.report {result : Option Response} (h : CallOK n x log) (hn : 0 < n)
    (hx : x.stage = .returned result) :
    ∃ t, Built t ∧ log.head? = some (.searched t) ∧
      Report (t.findSuccessors x.call.request.key n) log result := by
  cases h with
  | start hstart => simp_all
  | @visiting t misses visited events built visit targets =>
    refine ⟨t, built, rfl, ?_⟩
    have hnodup : (t.findSuccessors x.call.request.key n).Nodup := by
      rw [built]
      exact (TopologyManager.findSuccessors_spec _ _ hn).1
    rw [hx] at visit
    rw [targets] at hnodup ⊢
    cases visit with
    | exhausted hnone =>
      rw [hnone, List.append_nil, List.append_nil] at hnodup ⊢
      rw [List.append_nil]
      exact report_none t hnodup
    | returned ep fd resp now e he => exact report_some t now he hnodup

/-! ## Runs -/

/-- The events of one call. -/
def eventsOf (i : ℕ) (tr : List (ℕ × Event)) : List Event :=
  tr.filterMap fun x ↦ if x.1 = i then some x.2 else none

/-- The calls to the breaker. -/
def breakerCalls (tr : List (ℕ × Event)) : List CircuitBreaker.Call :=
  tr.filterMap fun x ↦ x.2.breakerCall

theorem eventsOf_append_self (i : ℕ) (tr : List (ℕ × Event)) (ev : List Event) :
    eventsOf i (tr ++ ev.map fun e ↦ (i, e)) = eventsOf i tr ++ ev := by
  rw [eventsOf, List.filterMap_append, List.filterMap_map]
  simp [eventsOf]

theorem eventsOf_append_of_ne (h : j ≠ i) (tr : List (ℕ × Event)) (ev : List Event) :
    eventsOf j (tr ++ ev.map fun e ↦ (i, e)) = eventsOf j tr := by
  rw [eventsOf, List.filterMap_append, List.filterMap_map]
  simp [eventsOf, Ne.symm h]

theorem breakerCalls_append (i : ℕ) (tr : List (ℕ × Event)) (ev : List Event) :
    breakerCalls (tr ++ ev.map fun e ↦ (i, e)) =
      breakerCalls tr ++ ev.filterMap Event.breakerCall := by
  rw [breakerCalls, List.filterMap_append, List.filterMap_map]
  rfl

/-- What holds along every run. -/
structure Inv (cfg : Config) (b : CircuitBreaker) (s : PensieveClient)
    (tr : List (ℕ × Event)) : Prop where
  topo : Built s.topo
  maxIdle : s.pool.maxIdle = cfg.maxConnectionsPerNode
  bounded : ∀ key, (s.pool.idle key).length ≤ s.pool.maxIdle
  kept : Kept s.places s.isOpen
  breaker : s.breaker = b.calls (breakerCalls tr)
  answers : Guarded (fun pre x ↦ x.2.Answers (b.calls (breakerCalls pre))) tr
  fresh : ∀ i, s.execution i = none → eventsOf i tr = []
  call : ∀ i x, s.execution i = some x → CallOK cfg.attempts x (eventsOf i tr)

theorem calls_append (b : CircuitBreaker) (l l' : List CircuitBreaker.Call) :
    b.calls (l ++ l') = (b.calls l).calls l' :=
  List.foldl_append

theorem Inv.run {tr : List (ℕ × Event)} (h : Inv cfg b s tr) (hx : s.execution i = some x)
    (hsteps : Steps cfg.attempts s i x s' ev x') : Inv cfg b s' (tr ++ ev.map fun e ↦ (i, e)) where
  topo := hsteps.topo
  maxIdle := hsteps.maxIdle.trans h.maxIdle
  bounded := hsteps.bounded h.bounded
  kept := hsteps.kept hx h.kept
  breaker := by rw [hsteps.breaker, h.breaker, breakerCalls_append, calls_append]
  answers := by
    refine h.answers.append fun pre y post heq ↦ ?_
    obtain ⟨ev₁, ev₂, rfl, rfl, hrest⟩ := List.map_eq_append_iff.mp heq
    obtain ⟨e, ev₃, rfl, rfl, -⟩ := List.map_eq_cons_iff.mp hrest
    rw [breakerCalls_append, calls_append, ← h.breaker]
    exact hsteps.answers ev₁ e ev₃ rfl
  fresh := by
    intro j hj
    by_cases hji : j = i
    · rw [hji, hsteps.execution_self] at hj
      cases hj
    · rw [eventsOf_append_of_ne hji]
      exact h.fresh j (by rw [← hsteps.execution_of_ne hji, hj])
  call := by
    intro j y hj
    by_cases hji : j = i
    · subst hji
      rw [hsteps.execution_self] at hj
      cases hj
      rw [eventsOf_append_self]
      exact (h.call j x hx).step hsteps.here
    · rw [eventsOf_append_of_ne hji]
      exact h.call j y (by rw [← hsteps.execution_of_ne hji, hj])

/-- A call begins. -/
theorem Inv.start {tr : List (ℕ × Event)} (h : Inv cfg b s tr) (hnone : s.execution i = none)
    (c : SdkCall) (now : Time) (stats : Stats) :
    Inv cfg b ({ s with stats := stats }.goTo i { call := c, started := now }) tr := by
  generalize hs' : PensieveClient.goTo { s with stats := stats } i
    { call := c, started := now } = s'
  have hself : s'.execution i = some { call := c, started := now } := by
    rw [← hs']
    exact Function.update_self ..
  have hothers : ∀ j, j ≠ i → s'.execution j = s.execution j := by
    intro j hj
    rw [← hs']
    exact Function.update_of_ne hj ..
  refine {
    topo := hs' ▸ h.topo
    maxIdle := hs' ▸ h.maxIdle
    bounded := hs' ▸ h.bounded
    kept := h.kept.same (fun p ↦ ?_) fun _ ↦ hs' ▸ rfl
    breaker := hs' ▸ h.breaker
    answers := h.answers
    fresh := fun j hj ↦ ?_
    call := fun j x hj ↦ ?_ }
  · rcases p with key | j
    · rw [← hs']
      rfl
    · by_cases hji : j = i
      · rw [hji, places, places, fdsOf, fdsOf, hself, hnone]
        rfl
      · rw [places, places, fdsOf, fdsOf, hothers j hji]
  · by_cases hji : j = i
    · rw [hji]
      exact h.fresh i hnone
    · exact h.fresh j (by rw [← hothers j hji, hj])
  · by_cases hji : j = i
    · rw [hji, hself] at hj
      cases hj
      rw [hji, h.fresh i hnone]
      exact .start rfl
    · exact h.call j x (by rw [← hothers j hji, hj])

theorem Inv.refresh {tr : List (ℕ × Event)} (h : Inv cfg b s tr)
    (fetch : ℕ → Bytes → UInt16 → Option (List NodeEndpoint)) :
    Inv cfg b { s with topo := (s.topo.refresh fetch).1 } tr :=
  { h with topo := h.topo.refresh fetch }

theorem inv_init (h : (machine cfg b).init s) : Inv cfg b s [] := by
  obtain ⟨htopo, hpool, hbreaker, hopen, hnone⟩ := h
  refine {
    topo := htopo
    maxIdle := by rw [hpool]
    bounded := fun key ↦ by rw [hpool]; exact Nat.zero_le _
    kept := .nowhere hopen fun p ↦ ?_
    breaker := hbreaker
    answers := guarded_nil
    fresh := fun _ _ ↦ rfl
    call := fun i x hx ↦ ?_ }
  · rcases p with key | i
    · rw [places, hpool]
    · rw [places, fdsOf, hnone i]
  · rw [hnone i] at hx
    cases hx

/-- **The invariant of the client.** -/
theorem inv_of_run {tr : List (ℕ × Event)} (h : (machine cfg b).Run s tr) : Inv cfg b s tr := by
  refine h.invariant (fun s hinit ↦ inv_init hinit) fun s tr a s' e _ ih hstep ↦ ?_
  cases step_acts ih.topo hstep with
  | call c now stats hnone =>
    rw [List.append_nil]
    exact ih.start hnone c now stats
  | run env hx hsteps => exact ih.run hx hsteps
  | refresh fetch =>
    rw [List.append_nil]
    exact ih.refresh fetch

/-! ## Calls return -/

/-- How many steps a thread takes from a stage on, apart from the targets that are left. -/
def Stage.left : Stage → ℕ
  | .acquire _ => 8
  | .connect _ => 7
  | .send _ _ => 6
  | .recv _ _ => 5
  | .discard _ _ => 4
  | .release _ _ _ => 4
  | .fail _ => 3
  | .succeed _ _ => 3
  | .finish _ => 2
  | .loop => 1
  | .start => 0
  | .returned _ => 0

/-- A bound on the steps of a call that has at most `n` targets. -/
def Execution.left (n : ℕ) (x : Execution) : ℕ :=
  if x.stage = .start then 8 * n + 2 else 8 * x.targets.length + x.stage.left

end PensieveClient

end Pensieve
