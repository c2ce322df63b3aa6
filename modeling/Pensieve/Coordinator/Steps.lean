import Pensieve.Coordinator.Coordinator

/-!
# What the steps of a coordinator can do

The steps of the machine with their guards and outcomes (`Steps`), the effect
of a wait group's step on the coroutines (`InnerMove`, `Moves.inner`), and which
connection a step moves (`step_conn`).
-/

namespace Pensieve

open Foundation

/-! ## Coroutines -/

namespace WaitGroup

variable {C K V : Type*}

/-- How a coroutine gets on inside `complete` or in the wait. -/
inductive InnerMove : Coro C K V → Coro C K V → Prop
  | takeNone (k : K) (f : ℕ) (v : Option V) : InnerMove (.completing k f v) .idle
  | take (k : K) (f f' : ℕ) (v : Option V) : InnerMove (.completing k f v) (.publishing f' v)
  | publish (f : ℕ) (v : Option V) (l : List C) : InnerMove (.publishing f v) (.resuming f l)
  | resume (f : ℕ) (d : C) (l : List C) : InnerMove (.resuming f (d :: l)) (.resuming f l)
  | done (f : ℕ) : InnerMove (.resuming f []) .idle
  | notReady (f : ℕ) : InnerMove (.joined f) (.notReady f)
  | suspend (f : ℕ) : InnerMove (.notReady f) (.suspended f)
  | readyAtOnce (f : ℕ) : InnerMove (.joined f) (.ready f)
  | readyLate (f : ℕ) : InnerMove (.notReady f) (.ready f)
  | resumed (f : ℕ) : InnerMove (.suspended f) (.ready f)

namespace Sys

variable [DecidableEq C] {s s' : Sys C K V} {e : List (Event C K V)}

theorem coro_move (s : Sys C K V) (g : WaitGroup C K V) {c : C} {x : Coro C K V}
    (h : InnerMove (s.coro c) x) (d : C) :
    (move { s with group := g } c x).coro d = s.coro d ∨
      InnerMove (s.coro d) ((move { s with group := g } c x).coro d) := by
  rw [move_coro]
  split
  · subst d
    exact Or.inr h
  · exact Or.inl rfl

/-- A coroutine that is resumed goes on, and the others stay. -/
theorem coro_resumeCoro (s : Sys C K V) (d c : C) :
    (s.resumeCoro d).coro c = s.coro c ∨
      ∃ f, s.coro c = .suspended f ∧ (s.resumeCoro d).coro c = .ready f := by
  rw [resumeCoro]
  split
  · rename_i f hd
    rw [move_coro]
    split
    · subst c
      exact Or.inr ⟨f, hd, rfl⟩
    · exact Or.inl rfl
  · exact Or.inl rfl

/-- A step that shows neither a join nor a call nor a result is an inner one. -/
theorem Moves.inner [DecidableEq K] (h : Moves s s' e)
    (hjoined : ∀ c k f b, .joined c k f b ∉ e)
    (hcalled : ∀ c k f v, .called c k f v ∉ e) (hobtained : ∀ c f v, .obtained c f v ∉ e) (d : C) :
    s'.coro d = s.coro d ∨ InnerMove (s.coro d) (s'.coro d) := by
  cases h with
  | start => exact absurd List.mem_cons_self (hjoined _ _ _ _)
  | join => exact absurd List.mem_cons_self (hjoined _ _ _ _)
  | call => exact absurd List.mem_cons_self (hcalled _ _ _ _)
  | obtain => exact absurd List.mem_cons_self (hobtained _ _ _)
  | takeNone hc => exact coro_move s s.group (hc ▸ .takeNone _ _ _) d
  | take hc => exact coro_move s _ (hc ▸ .take _ _ _ _) d
  | publish hc => exact coro_move s _ (hc ▸ .publish _ _ _) d
  | done hc => exact coro_move s s.group (hc ▸ .done _) d
  | ready hc =>
      rcases hc with hc | hc
      · exact coro_move s s.group (hc ▸ .readyAtOnce _) d
      · exact coro_move s s.group (hc ▸ .readyLate _) d
  | notReady hc => exact coro_move s s.group (hc ▸ .notReady _) d
  | suspend hc => exact coro_move s _ (hc ▸ .suspend _) d
  | @resume c d' f rest hc =>
      -- The resumed coroutine is not the one that resumes it: that one is not suspended.
      rcases coro_resumeCoro (s.move c (.resuming f rest)) d' d with h | ⟨f', hd, h⟩
      · rw [h]
        exact coro_move s s.group (hc ▸ .resume f d' rest) d
      · rw [h]
        rw [move_coro] at hd
        split at hd
        · cases hd
        · rw [hd]
          exact Or.inr (.resumed f')

end Sys

end WaitGroup

/-- The outcomes that a stage of `proxy_to_peer` can lead to. -/
def Stage.Ends : Stage → Outcome → Prop
  | .calling none, o => o = .noPeer
  | .calling (some _), o => o = .failed
  | .served resp, o => o = .failed ∨ o = .replied resp

namespace Coordinator

open WaitGroup

variable {C : Type*} [DecidableEq C] {n : ℕ} {W O : Type*}

/-- What an inner step shows. -/
theorem events_of_isInner {g g' : Sys C Bytes Bytes} {a : WaitGroup.Action C Bytes Bytes}
    {e : List (WaitGroup.Event C Bytes Bytes)} (ha : isInner a = true)
    (h : g.step a = some (g', e)) :
    (∀ c k f b, .joined c k f b ∉ e) ∧ (∀ c k f v, .called c k f v ∉ e) ∧
      ∀ c f v, .obtained c f v ∉ e := by
  have hevents : e = [] ∨ (∃ f v, e = [.wrote f v]) ∨ (∃ c f, e = [.suspended c f]) ∨
      ∃ c f, e = [.resumed c f] := by
    cases a with
    | tryJoin c k => cases ha
    | complete c v => cases ha
    | awaitResume c => cases ha
    | takePending c =>
        simp only [Sys.step] at h
        split at h
        · split at h <;> cases h <;> exact Or.inl rfl
        · cases h
    | publish c =>
        simp only [Sys.step] at h
        split at h
        · cases h
          exact Or.inr (Or.inl ⟨_, _, rfl⟩)
        · cases h
    | resume c =>
        simp only [Sys.step] at h
        split at h
        · cases h
          exact Or.inr (Or.inr (Or.inr ⟨_, _, rfl⟩))
        · cases h
    | «return» c =>
        simp only [Sys.step] at h
        split at h
        · cases h
          exact Or.inl rfl
        · cases h
    | awaitReady c =>
        simp only [Sys.step] at h
        split at h
        · split at h <;> cases h <;> exact Or.inl rfl
        · cases h
    | awaitSuspend c =>
        simp only [Sys.step] at h
        split at h
        · split at h
          · cases h
            exact Or.inr (Or.inr (Or.inl ⟨_, _, rfl⟩))
          · cases h
            exact Or.inl rfl
        · cases h
  rcases hevents with rfl | ⟨_, _, rfl⟩ | ⟨_, _, rfl⟩ | ⟨_, _, rfl⟩ <;> simp

/-- An inner step moves the coroutines on. -/
theorem coro_of_isInner {g g' : Sys C Bytes Bytes} {a : WaitGroup.Action C Bytes Bytes}
    {e : List (WaitGroup.Event C Bytes Bytes)} (ha : isInner a = true)
    (h : g.step a = some (g', e)) (d : C) :
    g'.coro d = g.coro d ∨ InnerMove (g.coro d) (g'.coro d) := by
  obtain ⟨hjoined, hcalled, hobtained⟩ := events_of_isInner ha h
  exact (Sys.step_moves h).inner hjoined hcalled hobtained d

/-- `try_join` by a coroutine. -/
theorem tryJoin_cases {g g' : Sys C Bytes Bytes} {c : C} {k : Bytes}
    {e : List (WaitGroup.Event C Bytes Bytes)} (h : g.step (.tryJoin c k) = some (g', e)) :
    g.coro c = .idle ∧ ∃ f b, e = [.joined c k f b] ∧
      g'.coro = Function.update g.coro c (if b then .fetching k f else .joined f) ∧
      (b = true → f = g.group.next ∧ g'.group.next = f + 1) ∧
      (b = false → g.group.pending k = some f ∧ g'.group.next = g.group.next) := by
  simp only [Sys.step] at h
  split at h
  · rename_i hc
    refine ⟨hc, ?_⟩
    rw [WaitGroup.tryJoin] at h
    rcases hk : g.group.pending k with - | f
    · rw [hk] at h
      cases h
      exact ⟨_, true, rfl, rfl, fun _ ↦ ⟨rfl, rfl⟩, by simp⟩
    · rw [hk] at h
      cases h
      exact ⟨_, false, rfl, rfl, by simp, fun _ ↦ ⟨rfl, rfl⟩⟩
  · cases h

/-- The initiator calls `complete`. -/
theorem complete_cases {g g' : Sys C Bytes Bytes} {c : C} {v : Option Bytes}
    {e : List (WaitGroup.Event C Bytes Bytes)} (h : g.step (.complete c v) = some (g', e)) :
    ∃ k f, g.coro c = .fetching k f ∧ e = [.called c k f v] ∧ g'.group = g.group ∧
      g'.coro = Function.update g.coro c (.completing k f v) := by
  simp only [Sys.step] at h
  split at h
  · cases h
    exact ⟨_, _, by assumption, rfl, rfl, rfl⟩
  · cases h

/-- The wait is over. -/
theorem awaitResume_cases {g g' : Sys C Bytes Bytes} {c : C}
    {e : List (WaitGroup.Event C Bytes Bytes)} (h : g.step (.awaitResume c) = some (g', e)) :
    ∃ f, g.coro c = .ready f ∧ e = [.obtained c f (g.group.awaitResume f)] ∧
      g'.group = g.group ∧ g'.coro = Function.update g.coro c .idle := by
  simp only [Sys.step] at h
  split at h
  · cases h
    exact ⟨_, by assumption, rfl, rfl, rfl⟩
  · cases h

/-! ## Coordinators -/

/-- The steps, each with its guard and its outcome. -/
inductive Steps (peers : Peers W O) (s : Coordinator C n W) :
    Coordinator C n W → List (Event C O) → Prop
  /-- A request that is answered here. -/
  | local {c : C} {req : Request} {resp : Response} {store : LocalStore n} {route : Route}
      (hc : s.conn c = .reading)
      (h : (req.opcode = .clusterInfo ∧ resp = serveClusterInfo s.members ∧ store = s.store) ∨
        (req.opcode ≠ .clusterInfo ∧ route = .here ∧ (resp, store) = serveLocal s.store req))
      (hroute : s.route req.key = route) :
      Steps peers s (setConn { s with next := s.next + 1, store } c (.replying s.next req resp))
        [.received s.next c req route]
  /-- A request other than a GET that goes to a peer. -/
  | send {c : C} {req : Request} {owner : NodeId} {address : Option Address}
      (hc : s.conn c = .reading) (hget : req.opcode ≠ .get)
      (hroute : s.route req.key = .remote owner address) :
      Steps peers s
        (setConn { s with next := s.next + 1 } c
          (.proxying s.next req none (.calling address)))
        [.received s.next c req (.remote owner address)]
  /-- A GET that goes to a peer and starts a fetch. -/
  | initiate {c : C} {req : Request} {owner : NodeId} {address : Option Address}
      {group : WaitGroup.Sys C Bytes Bytes} {f : ℕ} (hc : s.conn c = .reading)
      (hget : req.opcode = .get) (hroute : s.route req.key = .remote owner address)
      (hg : s.group.step (.tryJoin c req.key) = some (group, [.joined c req.key f true])) :
      Steps peers s
        (setConn { s with next := s.next + 1, group } c
          (.proxying s.next req (some f) (.calling address)))
        [.received s.next c req (.remote owner address), .joined s.next req.key f true]
  /-- A GET that joins another's fetch. -/
  | join {c : C} {req : Request} {owner : NodeId} {address : Option Address}
      {group : WaitGroup.Sys C Bytes Bytes} {f : ℕ} (hc : s.conn c = .reading)
      (hget : req.opcode = .get) (hroute : s.route req.key = .remote owner address)
      (hg : s.group.step (.tryJoin c req.key) = some (group, [.joined c req.key f false])) :
      Steps peers s
        (setConn { s with next := s.next + 1, group } c (.waiting s.next req f))
        [.received s.next c req (.remote owner address), .joined s.next req.key f false]
  | serve {c : C} {r : ℕ} {req : Request} {handle : Option ℕ} {address : Address} {o : O}
      {resp : Response} {world : W}
      (hc : s.conn c = .proxying r req handle (.calling (some address)))
      (hw : peers.serve s.world o address req = some (resp, world)) :
      Steps peers s (setConn { s with world } c (.proxying r req handle (.served resp)))
        [.served r address req resp]
  /-- `proxy_to_peer` returns to a request other than a GET. -/
  | finish {c : C} {r : ℕ} {req : Request} {stage : Stage} {o : Outcome}
      (hc : s.conn c = .proxying r req none stage) (ho : stage.Ends o) :
      Steps peers s (s.setConn c (.replying r req o.response)) [.upstream r o]
  /-- `proxy_to_peer` returns to a GET, which calls `complete`. -/
  | complete {c : C} {r : ℕ} {req : Request} {f : ℕ} {stage : Stage} {o : Outcome}
      {group : WaitGroup.Sys C Bytes Bytes} {e : List (WaitGroup.Event C Bytes Bytes)}
      (hc : s.conn c = .proxying r req (some f) stage) (ho : stage.Ends o)
      (hg : s.group.step (.complete c (completion o.response)) = some (group, e)) :
      Steps peers s (setConn { s with group } c (.completing r req f o.response)) [.upstream r o]
  | collapse {a : WaitGroup.Action C Bytes Bytes} {group : WaitGroup.Sys C Bytes Bytes}
      {e : List (WaitGroup.Event C Bytes Bytes)} (ha : isInner a = true)
      (hg : s.group.step a = some (group, e)) : Steps peers s { s with group } []
  | leave {c : C} {r : ℕ} {req : Request} {f : ℕ} {resp : Response}
      (hc : s.conn c = .completing r req f resp) (hg : s.group.coro c = .idle) :
      Steps peers s (s.setConn c (.replying r req resp)) []
  | obtain {c d : C} {r : ℕ} {req : Request} {f f' : ℕ} {result : Option Bytes}
      {group : WaitGroup.Sys C Bytes Bytes} (hc : s.conn c = .waiting r req f)
      (hg : s.group.step (.awaitResume c) = some (group, [.obtained d f' result])) :
      Steps peers s (setConn { s with group } c (.replying r req (collapsed result))) []
  | answer {c : C} {r : ℕ} {req : Request} {resp : Response}
      (hc : s.conn c = .replying r req resp) :
      Steps peers s (s.setConn c .reading) [.answered r req resp]
  | hangUp {c : C} (hc : s.conn c = .reading ∨ ∃ r req resp, s.conn c = .replying r req resp) :
      Steps peers s (s.setConn c .closed) []
  | gossip {ring : Ring} {members : MemberList} : Steps peers s { s with ring, members } []
  | change {o : O} {world : W} (hw : peers.change s.world o = some world) :
      Steps peers s { s with world } [.changed o]

variable {peers : Peers W O} {s s' : Coordinator C n W} {ev : List (Event C O)}

theorem receive_steps {c : C} {req : Request} (hc : s.conn c = .reading)
    (h : s.receive c req = some (s', ev)) : Steps peers s s' ev := by
  rw [receive] at h
  generalize hroute : s.route req.key = route at h
  split at h
  · cases h
    exact .local hc (Or.inl ⟨by assumption, rfl, rfl⟩) hroute
  · rename_i hinfo
    cases route with
    | here =>
        rcases hres : serveLocal s.store req with ⟨resp, store⟩
        simp only [hres, Option.some.injEq, Prod.mk.injEq] at h
        obtain ⟨rfl, rfl⟩ := h
        exact .local hc (Or.inr ⟨hinfo, rfl, hres.symm⟩) hroute
    | remote owner address =>
        simp only at h
        split at h
        · rename_i hget
          rcases hg : s.group.step (.tryJoin c req.key) with - | ⟨group, e⟩
          · rw [hg] at h
            cases h
          · obtain ⟨-, f, b, rfl, -⟩ := tryJoin_cases hg
            rw [hg] at h
            cases b with
            | true =>
                cases h
                exact .initiate hc hget hroute hg
            | false =>
                cases h
                exact .join hc hget hroute hg
        · cases h
          exact .send hc (by assumption) hroute

theorem finish_steps {c : C} {r : ℕ} {req : Request} {handle : Option ℕ} {stage : Stage}
    {o : Outcome} (hc : s.conn c = .proxying r req handle stage) (ho : stage.Ends o)
    (h : s.finish c r req handle o = some (s', ev)) : Steps peers s s' ev := by
  cases handle with
  | none =>
      cases h
      exact .finish hc ho
  | some f =>
      obtain ⟨⟨group, e⟩, hg, heq⟩ := Option.map_eq_some_iff.mp h
      cases heq
      exact .complete hc ho hg

theorem step_steps {a : Action C O} (h : s.step peers a = some (s', ev)) :
    Steps peers s s' ev := by
  cases a with
  | receive c req =>
      simp only [step] at h
      split at h
      · exact receive_steps (by assumption) h
      · cases h
  | serve c o =>
      simp only [step] at h
      split at h
      · obtain ⟨⟨resp, world⟩, hw, heq⟩ := Option.map_eq_some_iff.mp h
        cases heq
        exact .serve (by assumption) hw
      · cases h
  | reply c =>
      simp only [step] at h
      split at h
      · rename_i r req handle resp hc
        exact finish_steps hc (Or.inr rfl) h
      · cases h
  | fail c =>
      simp only [step] at h
      split at h
      · rename_i r req handle hc
        exact finish_steps hc rfl h
      · rename_i r req handle stage hne hc
        refine finish_steps hc ?_ h
        rcases stage with (- | address) | resp
        · exact absurd rfl hne
        · rfl
        · exact Or.inl rfl
      · cases h
  | collapse a =>
      obtain ⟨ha, h⟩ := Option.ite_none_right_eq_some.mp h
      obtain ⟨⟨group, e⟩, hg, heq⟩ := Option.map_eq_some_iff.mp h
      cases heq
      exact .collapse ha hg
  | leave c =>
      simp only [step] at h
      split at h
      · cases h
        exact .leave (by assumption) (by assumption)
      · cases h
  | obtain c =>
      simp only [step] at h
      split at h
      · cases h
        exact .obtain (by assumption) (by assumption)
      · cases h
  | answer c =>
      simp only [step] at h
      split at h
      · cases h
        exact .answer (by assumption)
      · cases h
  | hangUp c =>
      simp only [step] at h
      split at h
      · cases h
        exact .hangUp (Or.inl (by assumption))
      · cases h
        exact .hangUp (Or.inr ⟨_, _, _, by assumption⟩)
      · cases h
  | gossip ring members =>
      cases h
      exact .gossip
  | change o =>
      obtain ⟨world, hw, heq⟩ := Option.map_eq_some_iff.mp h
      cases heq
      exact .change hw

/-! ## Connections -/

section

variable {peers : Peers W O} {s s' : Coordinator C n W} {ev : List (Event C O)}

/-- The request that a connection is at. -/
def request : Conn → Option Request
  | .reading => none
  | .proxying _ req _ _ => some req
  | .completing _ req _ _ => some req
  | .waiting _ req _ => some req
  | .replying _ req _ => some req
  | .closed => none

theorem receive_conn {c : C} {req : Request} (h : s.receive c req = some (s', ev)) :
    (∃ x, s'.conn = Function.update s.conn c x ∧ request x = some req) ∧
      ∀ e ∈ ev, (∃ route, e = .received s.next c req route) ∨
        ∃ f b, e = .joined s.next req.key f b := by
  rw [receive] at h
  split at h
  · cases h
    exact ⟨⟨_, rfl, rfl⟩, by simp⟩
  · split at h
    · cases h
      exact ⟨⟨_, rfl, rfl⟩, by simp⟩
    · split at h
      · split at h
        · cases h
          exact ⟨⟨_, rfl, rfl⟩, by simp⟩
        · cases h
          exact ⟨⟨_, rfl, rfl⟩, by simp⟩
        · cases h
      · cases h
        exact ⟨⟨_, rfl, rfl⟩, by simp⟩

theorem finish_conn {c : C} {r : ℕ} {req : Request} {handle : Option ℕ} {o : Outcome}
    (h : s.finish c r req handle o = some (s', ev)) :
    (∃ x, s'.conn = Function.update s.conn c x ∧ request x = some req) ∧ ev = [.upstream r o] := by
  cases handle with
  | none =>
      cases h
      exact ⟨⟨_, rfl, rfl⟩, rfl⟩
  | some f =>
      obtain ⟨g, -, heq⟩ := Option.map_eq_some_iff.mp h
      cases heq
      exact ⟨⟨_, rfl, rfl⟩, rfl⟩

/-- A step moves at most one connection: it takes up a request, stays with it, or lets it go.
Requests are taken up by `receive`, and responses of peers come in by `serve`. -/
theorem step_conn {a : Action C O} (h : s.step peers a = some (s', ev)) :
    (s'.conn = s.conn ∨ ∃ c x, s'.conn = Function.update s.conn c x ∧
      ((∃ req, a = .receive c req ∧ s.conn c = .reading ∧ request x = some req) ∨
        request x = request (s.conn c) ∨ a = .answer c ∨ a = .hangUp c)) ∧
    (∀ r c req route, .received r c req route ∈ ev → a = .receive c req) ∧
    ∀ r address req resp, .served r address req resp ∈ ev →
      ∃ c o handle world, a = .serve c o ∧
        s.conn c = .proxying r req handle (.calling (some address)) ∧
        peers.serve s.world o address req = some (resp, world) := by
  cases a with
  | receive c req =>
      simp only [step] at h
      split at h
      · rename_i hc
        obtain ⟨⟨x, hx, hreq⟩, hev⟩ := receive_conn h
        refine ⟨Or.inr ⟨c, x, hx, Or.inl ⟨req, rfl, hc, hreq⟩⟩, fun r d req' route hmem ↦ ?_,
          fun r a req' resp hmem ↦ ?_⟩
        · rcases hev _ hmem with ⟨route', heq⟩ | ⟨f, b, heq⟩
          · cases heq
            rfl
          · cases heq
        · rcases hev _ hmem with ⟨route', heq⟩ | ⟨f, b, heq⟩ <;> cases heq
      · cases h
  | serve c o =>
      simp only [step] at h
      split at h
      · rename_i r req handle address hc
        obtain ⟨⟨resp, world⟩, hw, heq⟩ := Option.map_eq_some_iff.mp h
        cases heq
        refine ⟨Or.inr ⟨c, _, rfl, Or.inr (Or.inl (by rw [hc]; rfl))⟩, by simp,
          fun r' a req' resp' hmem ↦ ?_⟩
        cases List.mem_singleton.mp hmem
        exact ⟨c, o, handle, world, rfl, hc, hw⟩
      · cases h
  | reply c =>
      simp only [step] at h
      split at h
      · rename_i hc
        obtain ⟨⟨x, hx, hreq⟩, rfl⟩ := finish_conn h
        exact ⟨Or.inr ⟨c, x, hx, Or.inr (Or.inl (by rw [hc, hreq]; rfl))⟩, by simp, by simp⟩
      · cases h
  | fail c =>
      simp only [step] at h
      split at h
      · rename_i hc
        obtain ⟨⟨x, hx, hreq⟩, rfl⟩ := finish_conn h
        exact ⟨Or.inr ⟨c, x, hx, Or.inr (Or.inl (by rw [hc, hreq]; rfl))⟩, by simp, by simp⟩
      · rename_i hc
        obtain ⟨⟨x, hx, hreq⟩, rfl⟩ := finish_conn h
        exact ⟨Or.inr ⟨c, x, hx, Or.inr (Or.inl (by rw [hc, hreq]; rfl))⟩, by simp, by simp⟩
      · cases h
  | collapse a =>
      obtain ⟨-, h⟩ := Option.ite_none_right_eq_some.mp h
      obtain ⟨x, -, heq⟩ := Option.map_eq_some_iff.mp h
      cases heq
      exact ⟨Or.inl rfl, by simp, by simp⟩
  | leave c =>
      simp only [step] at h
      split at h
      · rename_i hc _
        cases h
        exact ⟨Or.inr ⟨c, _, rfl, Or.inr (Or.inl (by rw [hc]; rfl))⟩, by simp, by simp⟩
      · cases h
  | obtain c =>
      simp only [step] at h
      split at h
      · rename_i hc _
        cases h
        exact ⟨Or.inr ⟨c, _, rfl, Or.inr (Or.inl (by rw [hc]; rfl))⟩, by simp, by simp⟩
      · cases h
  | answer c =>
      simp only [step] at h
      split at h
      · cases h
        exact ⟨Or.inr ⟨c, _, rfl, Or.inr (Or.inr (Or.inl rfl))⟩, by simp, by simp⟩
      · cases h
  | hangUp c =>
      simp only [step] at h
      split at h
      · cases h
        exact ⟨Or.inr ⟨c, _, rfl, Or.inr (Or.inr (Or.inr rfl))⟩, by simp, by simp⟩
      · cases h
        exact ⟨Or.inr ⟨c, _, rfl, Or.inr (Or.inr (Or.inr rfl))⟩, by simp, by simp⟩
      · cases h
  | gossip ring members =>
      cases h
      exact ⟨Or.inl rfl, by simp, by simp⟩
  | change o =>
      obtain ⟨x, -, heq⟩ := Option.map_eq_some_iff.mp h
      cases heq
      exact ⟨Or.inl rfl, by simp, by simp⟩

/-- A connection stays with its request until the response is written. -/
theorem request_of_step {a : Action C O} (h : s.step peers a = some (s', ev)) {d : C}
    {req : Request} (hd : request (s.conn d) = some req) (hanswer : a ≠ .answer d)
    (hhangUp : a ≠ .hangUp d) : request (s'.conn d) = some req := by
  rcases (step_conn h).1 with heq | ⟨c, x, heq, hcases⟩
  · rw [heq]
    exact hd
  · rw [heq]
    by_cases hdc : d = c
    · subst hdc
      rw [Function.update_self]
      rcases hcases with ⟨req', -, hreading, -⟩ | hsame | rfl | rfl
      · rw [hreading] at hd
        cases hd
      · exact hsame.trans hd
      · exact absurd rfl hanswer
      · exact absurd rfl hhangUp
    · rw [Function.update_of_ne hdc]
      exact hd

theorem request_receive {c : C} {req : Request}
    (h : s.step peers (.receive c req) = some (s', ev)) : request (s'.conn c) = some req := by
  simp only [step] at h
  split at h
  · obtain ⟨⟨x, hx, hreq⟩, -⟩ := receive_conn h
    rw [hx, Function.update_self]
    exact hreq
  · cases h

/-- A request comes in on one connection, and the others stay. -/
theorem conn_of_receive {c d : C} {req : Request}
    (h : s.step peers (.receive d req) = some (s', ev)) (hc : s.conn c ≠ .reading) :
    s'.conn c = s.conn c := by
  simp only [step] at h
  split at h
  · rename_i hd
    obtain ⟨⟨x, hx, -⟩, -⟩ := receive_conn h
    have hcd : c ≠ d := by
      rintro rfl
      exact hc hd
    rw [hx, Function.update_of_ne hcd]
  · cases h

/-- A GET that starts a fetch. -/
theorem step_initiate {c : C} {req : Request} {owner : NodeId} {address : Option Address} {f : ℕ}
    {group : Sys C Bytes Bytes} (hc : s.conn c = .reading) (hget : req.opcode = .get)
    (hroute : s.route req.key = .remote owner address)
    (hgroup : s.group.step (.tryJoin c req.key) = some (group, [.joined c req.key f true])) :
    s.step peers (.receive c req) =
      some (setConn { s with next := s.next + 1, group } c
        (.proxying s.next req (some f) (.calling address)),
        [.received s.next c req (.remote owner address), .joined s.next req.key f true]) := by
  have hinfo : req.opcode ≠ .clusterInfo := by rw [hget]; decide
  simp only [step, hc, receive, if_neg hinfo, hroute, if_pos hget, hgroup]

/-- A GET that joins one. -/
theorem step_join {c : C} {req : Request} {owner : NodeId} {address : Option Address} {f : ℕ}
    {group : Sys C Bytes Bytes} (hc : s.conn c = .reading) (hget : req.opcode = .get)
    (hroute : s.route req.key = .remote owner address)
    (hgroup : s.group.step (.tryJoin c req.key) = some (group, [.joined c req.key f false])) :
    s.step peers (.receive c req) =
      some (setConn { s with next := s.next + 1, group } c (.waiting s.next req f),
        [.received s.next c req (.remote owner address), .joined s.next req.key f false]) := by
  have hinfo : req.opcode ≠ .clusterInfo := by rw [hget]; decide
  simp only [step, hc, receive, if_neg hinfo, hroute, if_pos hget, hgroup]

/-- A request that is served where it comes in. -/
theorem step_here {c : C} {req : Request} (hc : s.conn c = .reading)
    (hop : req.opcode ≠ .clusterInfo) (hroute : s.route req.key = .here) :
    s.step peers (.receive c req) =
      some (setConn { s with next := s.next + 1, store := (serveLocal s.store req).2 } c
        (.replying s.next req (serveLocal s.store req).1), [.received s.next c req .here]) := by
  simp only [step, hc, receive, if_neg hop, hroute]

theorem receive_frame {c : C} {req : Request} (h : s.receive c req = some (s', ev)) :
    s'.ring = s.ring ∧ s'.members = s.members := by
  rw [receive] at h
  split at h
  · cases h
    exact ⟨rfl, rfl⟩
  · split at h
    · cases h
      exact ⟨rfl, rfl⟩
    · split at h
      · split at h <;> cases h <;> exact ⟨rfl, rfl⟩
      · cases h
        exact ⟨rfl, rfl⟩

theorem finish_frame {c : C} {r : ℕ} {req : Request} {handle : Option ℕ} {o : Outcome}
    (h : s.finish c r req handle o = some (s', ev)) :
    s'.ring = s.ring ∧ s'.members = s.members := by
  cases handle with
  | none =>
      cases h
      exact ⟨rfl, rfl⟩
  | some f =>
      obtain ⟨g, -, heq⟩ := Option.map_eq_some_iff.mp h
      cases heq
      exact ⟨rfl, rfl⟩

/-- Only gossip changes the ring and the table. -/
theorem frame_of_step {a : Action C O} (h : s.step peers a = some (s', ev))
    (ha : ∀ ring members, a ≠ .gossip ring members) :
    s'.ring = s.ring ∧ s'.members = s.members := by
  cases a with
  | receive c req =>
      simp only [step] at h
      split at h
      · exact receive_frame h
      · cases h
  | reply c =>
      simp only [step] at h
      split at h
      · exact finish_frame h
      · cases h
  | fail c =>
      simp only [step] at h
      split at h
      · exact finish_frame h
      · exact finish_frame h
      · cases h
  | serve c o =>
      simp only [step] at h
      split at h
      · obtain ⟨x, -, heq⟩ := Option.map_eq_some_iff.mp h
        cases heq
        exact ⟨rfl, rfl⟩
      · cases h
  | collapse b =>
      obtain ⟨-, h⟩ := Option.ite_none_right_eq_some.mp h
      obtain ⟨x, -, heq⟩ := Option.map_eq_some_iff.mp h
      cases heq
      exact ⟨rfl, rfl⟩
  | gossip ring members => exact absurd rfl (ha ring members)
  | change o =>
      obtain ⟨x, -, heq⟩ := Option.map_eq_some_iff.mp h
      cases heq
      exact ⟨rfl, rfl⟩
  | leave | obtain | answer | hangUp =>
      simp only [step] at h
      split at h <;> cases h <;> exact ⟨rfl, rfl⟩

end

end Coordinator

end Pensieve
