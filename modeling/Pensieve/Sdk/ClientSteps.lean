import Pensieve.Sdk.Agreement
import Pensieve.Sdk.PensieveClient
import Pensieve.Sdk.Refresh

/-!
# Steps of the client

What a thread of `PensieveClient` does in a step, from three sides: `Local` is what happens to its
own variables and what it reports, `Moves` is where connections go, and the breaker takes the calls
that are reported.  `advance_steps` says that every step of a thread is of this kind, `step_acts`
does the same for the client, and the rest is derived from them.  Connections are never in two
places (`Steps.kept`), and no queue of the pool outgrows its bound (`Steps.bounded`).

The targets of a call are different endpoints, even if the list of nodes repeats some
(`findSuccessors_spec`).
-/

namespace Pensieve

open Foundation

namespace TopologyManager

/-! ## The targets -/

variable {nodes : List NodeEndpoint} {n : ℕ}

/-- The loop gathers endpoints at different indices, which are among those that it visits, and no
more than it is asked for.  If it gathers fewer, it has all. -/
theorem gather_spec (visits : List (Fin nodes.length)) {seen : List (Fin nodes.length)}
    (hseen : seen.Nodup) (hlength : seen.length < n) :
    ∃ found : List (Fin nodes.length),
      gather nodes n visits seen (seen.map nodes.get) = found.map nodes.get ∧ found.Nodup ∧
        found.length ≤ n ∧ (∀ i ∈ found, i ∈ seen ∨ i ∈ visits) ∧
        (found.length < n → ∀ i, i ∈ seen ∨ i ∈ visits → i ∈ found) := by
  induction visits generalizing seen with
  | nil =>
      exact ⟨seen, rfl, hseen, hlength.le, fun i hi ↦ Or.inl hi, fun _ i hi ↦
        hi.resolve_right List.not_mem_nil⟩
  | cons i visits ih =>
      have hnext : seen.map nodes.get ++ [nodes.get i] = (seen ++ [i]).map nodes.get := by simp
      rw [gather, hnext, List.length_map]
      by_cases hold : i ∈ seen
      · obtain ⟨found, hfound, hnodup, hle, hmem, hall⟩ := ih hseen hlength
        rw [if_pos hold]
        refine ⟨found, hfound, hnodup, hle, fun j hj ↦ ?_, fun hless j hj ↦ hall hless j ?_⟩
        · exact (hmem j hj).imp_right (List.mem_cons_of_mem _)
        · rcases hj with hj | hj
          · exact Or.inl hj
          · refine (List.mem_cons.mp hj).imp_left fun hji ↦ ?_
            rwa [hji]
      · have hnew : (seen ++ [i]).Nodup := by
          rw [← List.concat_eq_append]
          exact hseen.concat hold
        have hiff : ∀ j, j ∈ seen ++ [i] ∨ j ∈ visits ↔ j ∈ seen ∨ j ∈ i :: visits := by
          intro j
          rw [List.mem_append, List.mem_singleton, List.mem_cons, or_assoc]
        rw [if_neg hold]
        split_ifs with hfull
        · exact ⟨seen ++ [i], rfl, hnew, hfull.le, fun j hj ↦ (hiff j).mp (Or.inl hj),
            fun hless ↦ absurd hfull hless.ne⟩
        · have hless : (seen ++ [i]).length < n := by
            rw [List.length_append, List.length_singleton] at hfull ⊢
            omega
          obtain ⟨found, hfound, hnodup, hle, hmore, hall⟩ := ih hnew hless
          exact ⟨found, hfound, hnodup, hle, fun j hj ↦ (hiff j).mp (hmore j hj),
            fun hfew j hj ↦ hall hfew j ((hiff j).mpr hj)⟩

/-- An endpoint that is listed twice is on the ring once. -/
theorem owner_unique {nodes : List NodeEndpoint} {x y : UInt32 × Fin nodes.length}
    (hx : x ∈ (rebuildRing nodes).entries) (hy : y ∈ (rebuildRing nodes).entries)
    (h : nodes.get x.2 = nodes.get y.2) : x.2 = y.2 := by
  rw [MemberList.rebuildRing_eq] at hx hy
  exact SortedMap.owner_unique_assign hx hy (by rw [h])

/-- The successors of a key are endpoints on the ring at different indices, and not more than asked
for.  If they are fewer, they are all that the ring has. -/
theorem findSuccessors_eq (nodes : List NodeEndpoint) (key : Bytes) (hn : 0 < n) :
    ∃ found : List (Fin nodes.length),
      (ofNodes nodes).findSuccessors key n = found.map nodes.get ∧ found.Nodup ∧
        found.length ≤ n ∧ (∀ i ∈ found, ∃ x ∈ (rebuildRing nodes).entries, x.2 = i) ∧
        (found.length < n → ∀ x ∈ (rebuildRing nodes).entries, x.2 ∈ found) := by
  have hvisits : ∀ i, i ∈ ((rebuildRing nodes).around (hashKey key)).map Prod.snd ↔
      ∃ x ∈ (rebuildRing nodes).entries, x.2 = i := by
    intro i
    simp only [List.mem_map, SortedMap.mem_around]
  rw [findSuccessors]
  split_ifs with hempty
  · refine ⟨[], rfl, List.nodup_nil, Nat.zero_le n, by simp, fun _ x hx ↦ ?_⟩
    have hnil : (rebuildRing nodes).entries = [] := hempty
    rw [hnil] at hx
    cases hx
  · obtain ⟨found, hfound, hnodup, hle, hmem, hall⟩ :=
      gather_spec (((rebuildRing nodes).around (hashKey key)).map Prod.snd) List.nodup_nil hn
    refine ⟨found, hfound, hnodup, hle, fun i hi ↦ ?_, fun hless x hx ↦ ?_⟩
    · exact (hvisits i).mp ((hmem i hi).resolve_left List.not_mem_nil)
    · exact hall hless x.2 (Or.inr ((hvisits x.2).mpr ⟨x, hx, rfl⟩))

/-- They are different endpoints. -/
theorem findSuccessors_spec (nodes : List NodeEndpoint) (key : Bytes) (hn : 0 < n) :
    ((ofNodes nodes).findSuccessors key n).Nodup ∧
      ((ofNodes nodes).findSuccessors key n).length ≤ n := by
  obtain ⟨found, hfound, hnodup, hle, hring, -⟩ := findSuccessors_eq nodes key hn
  rw [hfound, List.length_map]
  refine ⟨hnodup.map_on fun i hi j hj heq ↦ ?_, hle⟩
  obtain ⟨x, hx, rfl⟩ := hring i hi
  obtain ⟨y, hy, rfl⟩ := hring j hj
  exact owner_unique hx hy heq

end TopologyManager

namespace PensieveClient

variable {cfg : Config} {b : CircuitBreaker} {s s' : PensieveClient} {i j fd n : ℕ}
  {x x' : Execution} {env : Env} {ev log : List Event} {ep : NodeEndpoint} {resp : Response}

/-! ## Steps of a thread -/

/-- What a step does in the thread that takes it. -/
inductive Local (n : ℕ) (x : Execution) : List Event → Execution → Prop
  | searched (t : TopologyManager) (ht : Built t) (hx : x.stage = .start) :
      Local n x [.searched t]
        { x with
          targets := t.findSuccessors x.call.request.key n
          stage := if t.findSuccessors x.call.request.key n = [] then .returned none else .loop }
  | exhausted (hx : x.stage = .loop) (hnone : x.targets = []) :
      Local n x [] { x with targets := [], stage := .returned none }
  | allowed (now : Time) {ep : NodeEndpoint} {targets : List NodeEndpoint} (hx : x.stage = .loop)
      (htargets : x.targets = ep :: targets) :
      Local n x [.asked ep now true] { x with targets := targets, stage := .acquire ep }
  | refused (now : Time) {ep : NodeEndpoint} {targets : List NodeEndpoint} (hx : x.stage = .loop)
      (htargets : x.targets = ep :: targets) :
      Local n x [.asked ep now false] { x with targets := targets, stage := .loop }
  | pooled (fd : ℕ) {ep : NodeEndpoint} (hx : x.stage = .acquire ep) :
      Local n x [.contacted ep, .acquired fd] { x with stage := .send ep fd }
  | unpooled {ep : NodeEndpoint} (hx : x.stage = .acquire ep) :
      Local n x [.contacted ep] { x with stage := .connect ep }
  | unreachable {ep : NodeEndpoint} (hx : x.stage = .connect ep) :
      Local n x [] { x with stage := .fail ep }
  | connected (fd : ℕ) {ep : NodeEndpoint} (hx : x.stage = .connect ep) :
      Local n x [.acquired fd] { x with stage := .send ep fd }
  | sent {fd : ℕ} {ep : NodeEndpoint} (hx : x.stage = .send ep fd) :
      Local n x [] { x with stage := .recv ep fd }
  | unsent {fd : ℕ} {ep : NodeEndpoint} (hx : x.stage = .send ep fd) :
      Local n x [] { x with stage := .discard ep fd }
  | received (resp : Response) {fd : ℕ} {ep : NodeEndpoint} (hx : x.stage = .recv ep fd) :
      Local n x [.received resp] { x with stage := .release ep fd resp }
  | lost {fd : ℕ} {ep : NodeEndpoint} (hx : x.stage = .recv ep fd) :
      Local n x [] { x with stage := .discard ep fd }
  | discarded {fd : ℕ} {ep : NodeEndpoint} (hx : x.stage = .discard ep fd) :
      Local n x [.closed fd] { x with stage := .fail ep }
  | failed (now : Time) {ep : NodeEndpoint} (hx : x.stage = .fail ep) :
      Local n x [.failure ep now] { x with firstAttempt := false, stage := .loop }
  | released {fd : ℕ} {ep : NodeEndpoint} {resp : Response} (e : Event)
      (he : e = .kept fd ∨ e = .closed fd) (hx : x.stage = .release ep fd resp) :
      Local n x [e] { x with stage := .succeed ep resp }
  | succeeded {ep : NodeEndpoint} {resp : Response} (hx : x.stage = .succeed ep resp) :
      Local n x [.success ep] { x with stage := .finish resp }
  | finished {resp : Response} (hx : x.stage = .finish resp) :
      Local n x [] { x with stage := .returned (some resp) }

/-- The connections that a thread has. -/
def Stage.fds : Stage → List ℕ
  | .send _ fd => [fd]
  | .recv _ fd => [fd]
  | .discard _ fd => [fd]
  | .release _ fd _ => [fd]
  | _ => []

/-- What a step does to the connections. -/
inductive Moves (s : PensieveClient) (x : Execution) (s' : PensieveClient) (x' : Execution) : Prop
  | none (hidle : s'.pool.idle = s.pool.idle) (hopen : s'.isOpen = s.isOpen)
      (hfds : x'.stage.fds = x.stage.fds)
  | pop {key : PeerKey} {fd : ℕ} {fds : List ℕ} (hfds : s.pool.idle key = fd :: fds)
      (hidle : s'.pool.idle = Function.update s.pool.idle key fds)
      (hopen : s'.isOpen = s.isOpen) (hbefore : x.stage.fds = []) (hafter : x'.stage.fds = [fd])
  | connect {fd : ℕ} (hfresh : s.isOpen fd = false) (hidle : s'.pool.idle = s.pool.idle)
      (hopen : s'.isOpen = Function.update s.isOpen fd true) (hbefore : x.stage.fds = [])
      (hafter : x'.stage.fds = [fd])
  | close {fd : ℕ} (hidle : s'.pool.idle = s.pool.idle)
      (hopen : s'.isOpen = Function.update s.isOpen fd false) (hbefore : x.stage.fds = [fd])
      (hafter : x'.stage.fds = [])
  | push {key : PeerKey} {fd : ℕ} (hroom : (s.pool.idle key).length < s.pool.maxIdle)
      (hidle : s'.pool.idle = Function.update s.pool.idle key (s.pool.idle key ++ [fd]))
      (hopen : s'.isOpen = s.isOpen) (hbefore : x.stage.fds = [fd]) (hafter : x'.stage.fds = [])

/-- The call to the breaker that an event reports. -/
def Event.breakerCall : Event → Option CircuitBreaker.Call
  | .asked ep now _ => some (.allow ep now)
  | .failure ep now => some (.recordFailure ep now)
  | .success ep => some (.recordSuccess ep)
  | _ => none

/-- The answers of the breaker are the ones that are reported. -/
def Event.Answers (b : CircuitBreaker) : Event → Prop
  | .asked ep now allowed => allowed = (b.allow ep now).1
  | _ => True

/-- All that a step of a thread does. -/
structure Steps (n : ℕ) (s : PensieveClient) (i : ℕ) (x : Execution) (s' : PensieveClient)
    (ev : List Event) (x' : Execution) : Prop where
  execution : s'.execution = Function.update s.execution i (some x')
  here : Local n x ev x'
  moves : Moves s x s' x'
  maxIdle : s'.pool.maxIdle = s.pool.maxIdle
  topo : Built s'.topo
  breaker : s'.breaker = s.breaker.calls (ev.filterMap Event.breakerCall)
  answers : Guarded (fun pre e ↦ e.Answers (s.breaker.calls (pre.filterMap Event.breakerCall))) ev

theorem Built.refresh {t : TopologyManager} (h : Built t)
    (fetch : ℕ → Bytes → UInt16 → Option (List NodeEndpoint)) : Built (t.refresh fetch).1 := by
  rcases t.refresh_spec fetch with heq | ⟨nodes, -, heq⟩
  · rw [heq]
    exact h
  · rw [heq]
    rfl

/-- The end of a call is about the topology and the counters. -/
theorem finish_spec (htopo : Built s.topo) (x : Execution) (resp : Response) (env : Env) :
    Built (s.finish x resp env).topo ∧ (s.finish x resp env).pool = s.pool ∧
      (s.finish x resp env).breaker = s.breaker ∧ (s.finish x resp env).isOpen = s.isOpen ∧
      (s.finish x resp env).execution = s.execution := by
  unfold finish
  dsimp only
  by_cases hrefresh : resp.status = .error ∧ resp.value = []
  · rw [if_pos hrefresh]
    exact ⟨htopo.refresh env.fetch, rfl, rfl, rfl, rfl⟩
  · rw [if_neg hrefresh]
    exact ⟨htopo, rfl, rfl, rfl, rfl⟩

theorem answers_of_forall (h : ∀ e ∈ ev, ∀ b, e.Answers b) :
    Guarded (fun pre e ↦ e.Answers (s.breaker.calls (pre.filterMap Event.breakerCall))) ev := by
  intro pre e post heq
  refine h e ?_ _
  rw [heq]
  exact List.mem_append_right pre List.mem_cons_self

/-- A step that leaves the breaker and the connections alone. -/
theorem Steps.plain (htopo : Built s'.topo)
    (hexecution : s'.execution = Function.update s.execution i (some x'))
    (hlocal : Local n x ev x') (hpool : s'.pool = s.pool) (hopen : s'.isOpen = s.isOpen)
    (hfds : x'.stage.fds = x.stage.fds) (hbreaker : s'.breaker = s.breaker)
    (hev : ∀ e ∈ ev, e.breakerCall = none) : Steps n s i x s' ev x' where
  execution := hexecution
  here := hlocal
  moves := .none (by rw [hpool]) hopen hfds
  maxIdle := by rw [hpool]
  topo := htopo
  breaker := by
    rw [List.filterMap_eq_nil_iff.mpr hev, hbreaker]
    rfl
  answers := by
    refine answers_of_forall fun e he _ ↦ ?_
    cases e with
    | asked => cases hev _ he
    | _ => trivial

section

variable (htopo : Built s.topo) (h : s.advance cfg i x env = some (s', ev))

include htopo h

theorem steps_of_start (hx : x.stage = .start) : ∃ x', Steps cfg.attempts s i x s' ev x' := by
  simp only [advance, hx, Option.some.injEq, Prod.mk.injEq] at h
  obtain ⟨rfl, rfl⟩ := h
  refine ⟨_, .plain htopo rfl (.searched s.topo htopo hx) rfl rfl ?_ rfl
    (List.forall_mem_singleton.mpr rfl)⟩
  rw [hx]
  split_ifs <;> rfl

theorem steps_of_loop (hx : x.stage = .loop) : ∃ x', Steps cfg.attempts s i x s' ev x' := by
  simp only [advance, hx] at h
  cases htargets : x.targets with
  | nil =>
    simp only [htargets, Option.some.injEq, Prod.mk.injEq] at h
    obtain ⟨rfl, rfl⟩ := h
    exact ⟨_, .plain htopo rfl (.exhausted hx htargets) rfl rfl (by rw [hx]; rfl) rfl
      (List.forall_mem_nil _)⟩
  | cons ep targets =>
    rcases hallow : s.breaker.allow ep env.now with ⟨allowed, breaker⟩
    have hbreaker : breaker = s.breaker.call (.allow ep env.now) := by
      rw [CircuitBreaker.call, hallow]
    have hanswer : allowed = (s.breaker.allow ep env.now).1 := by rw [hallow]
    simp only [htargets, hallow] at h
    cases allowed with
    | true =>
      cases h
      exact ⟨_, rfl, .allowed env.now hx htargets, .none rfl rfl (by rw [hx]; rfl), rfl, htopo,
        hbreaker, guarded_nil.concat hanswer⟩
    | false =>
      cases h
      exact ⟨_, rfl, .refused env.now hx htargets, .none rfl rfl (by rw [hx]), rfl, htopo,
        hbreaker, guarded_nil.concat hanswer⟩

theorem steps_of_acquire (hx : x.stage = .acquire ep) :
    ∃ x', Steps cfg.attempts s i x s' ev x' := by
  simp only [advance, hx, ConnectionPool.pop] at h
  cases hidle : s.pool.idle ep.peer with
  | nil =>
    rw [hidle] at h
    cases h
    exact ⟨_, .plain htopo rfl (.unpooled hx) rfl rfl (by rw [hx]; rfl) rfl
      (List.forall_mem_singleton.mpr rfl)⟩
  | cons fd fds =>
    rw [hidle] at h
    cases h
    exact ⟨_, rfl, .pooled fd hx, .pop hidle rfl rfl (by rw [hx]; rfl) rfl, rfl, htopo, rfl,
      answers_of_forall (by simp [Event.Answers])⟩

theorem steps_of_connect (hx : x.stage = .connect ep) :
    ∃ x', Steps cfg.attempts s i x s' ev x' := by
  simp only [advance, hx] at h
  cases hconnected : env.connected with
  | none =>
    rw [hconnected] at h
    cases h
    exact ⟨_, .plain htopo rfl (.unreachable hx) rfl rfl (by rw [hx]; rfl) rfl
      (List.forall_mem_nil _)⟩
  | some fd =>
    simp only [hconnected] at h
    split_ifs at h with hopen
    cases h
    have hfresh : s.isOpen fd = false := Bool.eq_false_of_not_eq_true hopen
    exact ⟨_, rfl, .connected fd hx, .connect hfresh rfl rfl (by rw [hx]; rfl) rfl, rfl, htopo, rfl,
      answers_of_forall (by simp [Event.Answers])⟩

theorem steps_of_send (hx : x.stage = .send ep fd) : ∃ x', Steps cfg.attempts s i x s' ev x' := by
  simp only [advance, hx] at h
  split_ifs at h
  · cases h
    exact ⟨_, .plain htopo rfl (.sent hx) rfl rfl (by rw [hx]; rfl) rfl (List.forall_mem_nil _)⟩
  · cases h
    exact ⟨_, .plain htopo rfl (.unsent hx) rfl rfl (by rw [hx]; rfl) rfl (List.forall_mem_nil _)⟩

theorem steps_of_recv (hx : x.stage = .recv ep fd) : ∃ x', Steps cfg.attempts s i x s' ev x' := by
  simp only [advance, hx] at h
  rcases hrecv : recvResponse env.arrived with - | ⟨resp, rest⟩
  · rw [hrecv] at h
    cases h
    exact ⟨_, .plain htopo rfl (.lost hx) rfl rfl (by rw [hx]; rfl) rfl (List.forall_mem_nil _)⟩
  · rw [hrecv] at h
    cases h
    exact ⟨_, .plain htopo rfl (.received resp hx) rfl rfl (by rw [hx]; rfl) rfl
      (List.forall_mem_singleton.mpr rfl)⟩

theorem steps_of_release (hx : x.stage = .release ep fd resp) :
    ∃ x', Steps cfg.attempts s i x s' ev x' := by
  simp only [advance, hx] at h
  unfold ConnectionPool.release at h
  by_cases hroom : s.pool.maxIdle ≤ (s.pool.idle ep.peer).length
  · rw [if_pos hroom] at h
    cases h
    exact ⟨_, rfl, .released (.closed fd) (Or.inr rfl) hx, .close rfl rfl (by rw [hx]; rfl) rfl,
      rfl, htopo, rfl, answers_of_forall (by simp [Event.Answers])⟩
  · rw [if_neg hroom] at h
    cases h
    exact ⟨_, rfl, .released (.kept fd) (Or.inl rfl) hx,
      .push (Nat.lt_of_not_le hroom) rfl rfl (by rw [hx]; rfl) rfl, rfl, htopo, rfl,
      answers_of_forall (by simp [Event.Answers])⟩

/-- Every step is of the kind that `Steps` describes. -/
theorem advance_steps : ∃ x', Steps cfg.attempts s i x s' ev x' := by
  cases hx : x.stage with
  | start => exact steps_of_start htopo h hx
  | loop => exact steps_of_loop htopo h hx
  | acquire ep => exact steps_of_acquire htopo h hx
  | connect ep => exact steps_of_connect htopo h hx
  | send ep fd => exact steps_of_send htopo h hx
  | recv ep fd => exact steps_of_recv htopo h hx
  | discard ep fd =>
    simp only [advance, hx] at h
    cases h
    exact ⟨_, rfl, .discarded hx, .close rfl rfl (by rw [hx]; rfl) rfl, rfl, htopo, rfl,
      answers_of_forall (by simp [Event.Answers])⟩
  | fail ep =>
    simp only [advance, hx] at h
    cases h
    exact ⟨_, rfl, .failed env.now hx, .none rfl rfl (by rw [hx]; rfl), rfl, htopo, rfl,
      answers_of_forall (by simp [Event.Answers])⟩
  | release ep fd resp => exact steps_of_release htopo h hx
  | succeed ep resp =>
    simp only [advance, hx] at h
    cases h
    exact ⟨_, rfl, .succeeded hx, .none rfl rfl (by rw [hx]; rfl), rfl, htopo, rfl,
      answers_of_forall (by simp [Event.Answers])⟩
  | finish resp =>
    simp only [advance, hx] at h
    cases h
    obtain ⟨htopo', hpool, hbreaker, hopen, hexecution⟩ := finish_spec htopo x resp env
    refine ⟨_, .plain htopo' ?_ (.finished hx) hpool hopen (by rw [hx]; rfl) hbreaker
      (List.forall_mem_nil _)⟩
    rw [goTo, hexecution]
  | returned result =>
    simp only [advance, hx] at h
    cases h

end

/-- The steps of the client. -/
inductive Acts (n : ℕ) (s : PensieveClient) :
    Action → PensieveClient → List (ℕ × Event) → Prop
  | call {i : ℕ} (c : SdkCall) (now : Time) (stats : Stats) (hnone : s.execution i = none) :
      Acts n s (.call i c now) ({ s with stats := stats }.goTo i { call := c, started := now }) []
  | run {i : ℕ} (env : Env) {x x' : Execution} {s' : PensieveClient} {ev : List Event}
      (hx : s.execution i = some x) (hsteps : Steps n s i x s' ev x') :
      Acts n s (.run i env) s' (ev.map fun e ↦ (i, e))
  | refresh (fetch : ℕ → Bytes → UInt16 → Option (List NodeEndpoint)) :
      Acts n s (.refresh fetch) { s with topo := (s.topo.refresh fetch).1 } []

theorem step_acts {a : Action} {e : List (ℕ × Event)} (htopo : Built s.topo)
    (h : step cfg s a = some (s', e)) : Acts cfg.attempts s a s' e := by
  cases a with
  | call i c now =>
    rcases hx : s.execution i with - | x
    · simp only [step, hx] at h
      cases h
      exact .call c now _ hx
    · simp only [step, hx] at h
      cases h
  | run i env =>
    rcases hx : s.execution i with - | x
    · simp only [step, hx] at h
      cases h
    · simp only [step, hx] at h
      obtain ⟨⟨s₁, ev⟩, hadvance, heq⟩ := Option.map_eq_some_iff.mp h
      cases heq
      obtain ⟨x', hsteps⟩ := advance_steps htopo hadvance
      exact .run env hx hsteps
  | refresh fetch =>
    cases h
    exact .refresh fetch

/-! ## The connections -/

/-- The connections of a thread. -/
def fdsOf (s : PensieveClient) (i : ℕ) : List ℕ :=
  match s.execution i with
  | none => []
  | some x => x.stage.fds

/-- Where connections are: idle, or with a thread. -/
def places (s : PensieveClient) : PeerKey ⊕ ℕ → List ℕ
  | .inl key => s.pool.idle key
  | .inr i => s.fdsOf i

theorem fdsOf_eq (hx : s.execution i = some x) : s.fdsOf i = x.stage.fds := by
  rw [fdsOf, hx]

namespace Steps

variable (h : Steps n s i x s' ev x')

include h

theorem execution_self : s'.execution i = some x' := by
  rw [h.execution, Function.update_self]

theorem execution_of_ne (hj : j ≠ i) : s'.execution j = s.execution j := by
  rw [h.execution, Function.update_of_ne hj]

theorem fdsOf_self : s'.fdsOf i = x'.stage.fds := fdsOf_eq h.execution_self

theorem fdsOf_of_ne (hj : j ≠ i) : s'.fdsOf j = s.fdsOf j := by
  rw [fdsOf, fdsOf, h.execution_of_ne hj]

/-- Of the connections that threads have, a step concerns those of its own thread. -/
theorem places_of_ne {p : PeerKey ⊕ ℕ} (hp : p ≠ .inr i)
    (hidle : ∀ key, p = .inl key → s'.pool.idle key = s.pool.idle key) :
    s'.places p = s.places p := by
  cases p with
  | inl key => exact hidle key rfl
  | inr j => exact h.fdsOf_of_ne fun hj ↦ hp (congrArg Sum.inr hj)

theorem kept (hx : s.execution i = some x) (hkept : Kept s.places s.isOpen) :
    Kept s'.places s'.isOpen := by
  have hfrom : s.places (.inr i) = x.stage.fds := fdsOf_eq hx
  have hto : s'.places (.inr i) = x'.stage.fds := h.fdsOf_self
  cases h.moves with
  | none hidle hopen hfds =>
    refine hkept.same (fun p ↦ ?_) fun t ↦ by rw [hopen]
    by_cases hp : p = .inr i
    · rw [hp, hto, hfds, hfrom]
    · exact h.places_of_ne hp fun key _ ↦ by rw [hidle]
  | @pop key fd fds hfds hidle hopen hbefore hafter =>
    refine hkept.move (p := .inl key) (q := .inr i) fd Sum.inl_ne_inr ?_ ?_ (fun r hr hri ↦ ?_)
      fun t ↦ by rw [hopen]
    · rw [places, hfds, places, hidle, Function.update_self]
    · rw [hto, hafter, hfrom, hbefore]
    · refine h.places_of_ne hri fun k hk ↦ ?_
      rw [hidle, Function.update_of_ne fun heq ↦ hr (hk.trans (congrArg Sum.inl heq))]
  | @connect fd hfresh hidle hopen hbefore hafter =>
    refine hkept.put (p := .inr i) hfresh ?_ ?_ (fun r hr ↦ ?_) fun t ht ↦ ?_
    · rw [hopen, Function.update_self]
    · rw [hto, hafter, hfrom, hbefore]
    · exact h.places_of_ne hr fun key _ ↦ by rw [hidle]
    · rw [hopen, Function.update_of_ne ht]
  | @close fd hidle hopen hbefore hafter =>
    refine hkept.take (p := .inr i) (t := fd) ?_ (fun r hr ↦ ?_) ?_ fun t ht ↦ ?_
    · rw [hto, hafter, hfrom, hbefore]
    · exact h.places_of_ne hr fun key _ ↦ by rw [hidle]
    · rw [hopen, Function.update_self]
    · rw [hopen, Function.update_of_ne ht]
  | @push key fd hroom hidle hopen hbefore hafter =>
    refine hkept.move (p := .inr i) (q := .inl key) fd Sum.inr_ne_inl ?_ ?_ (fun r hri hr ↦ ?_)
      fun t ↦ by rw [hopen]
    · rw [hto, hafter, hfrom, hbefore]
    · rw [places, places, hidle, Function.update_self]
      exact List.perm_append_singleton _ _
    · refine h.places_of_ne hri fun k hk ↦ ?_
      rw [hidle, Function.update_of_ne fun heq ↦ hr (hk.trans (congrArg Sum.inl heq))]

/-- A queue grows only when it has room. -/
theorem bounded (hbound : ∀ key, (s.pool.idle key).length ≤ s.pool.maxIdle) (key : PeerKey) :
    (s'.pool.idle key).length ≤ s'.pool.maxIdle := by
  rw [h.maxIdle]
  cases h.moves with
  | none hidle =>
    rw [hidle]
    exact hbound key
  | @pop k fd fds hfds hidle =>
    rw [hidle, Function.update_apply]
    split_ifs with hk
    · have hle := hbound k
      rw [hfds, List.length_cons] at hle
      exact Nat.le_of_succ_le hle
    · exact hbound key
  | connect _ hidle =>
    rw [hidle]
    exact hbound key
  | close hidle =>
    rw [hidle]
    exact hbound key
  | @push k fd hroom hidle =>
    rw [hidle, Function.update_apply]
    split_ifs with hk
    · rw [List.length_append]
      exact hroom
    · exact hbound key

end Steps

end PensieveClient

end Pensieve
