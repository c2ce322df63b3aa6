import Pensieve.Coordinator.Delivery
import Pensieve.Coordinator.Steps

/-!
# Where responses come from

Every response that a coordinator sends has one of three sources (`Source`): the
request was answered here, it was proxied and the response is what came of that, or
it was a GET that waited and the response is made from what came of the fetch it
joined.  The wait group's part in this is `Pensieve.Coordinator.Delivery`: every run
of a coordinator contains a run of its wait group.
-/

namespace Pensieve.Coordinator

open Foundation WaitGroup

variable {C : Type*} {n : ℕ} {W O : Type*}

/-! ## Sources -/

/-- Where the response to a request comes from. -/
inductive Source (tr : List (Event C O)) (r : ℕ) (req : Request) (resp : Response) : Prop
  | here {c : C} {route : Route} (h : .received r c req route ∈ tr)
      (hroute : route = .here ∨ req.opcode = .clusterInfo)
  | proxied {c : C} {owner : NodeId} {address : Option Address} {o : Outcome}
      (h : .received r c req (.remote owner address) ∈ tr) (ho : .upstream r o ∈ tr)
      (hresp : resp = o.response)
      (hget : req.opcode = .get → ∃ f, .joined r req.key f true ∈ tr)
  | waited {c : C} {owner : NodeId} {address : Option Address} {i f : ℕ} {o : Outcome}
      (h : .received r c req (.remote owner address) ∈ tr)
      (hj : .joined r req.key f false ∈ tr) (hi : .joined i req.key f true ∈ tr)
      (ho : .upstream i o ∈ tr) (hresp : resp = collapsed (completion o.response))

theorem Source.mono {tr tr' : List (Event C O)} {r : ℕ} {req : Request} {resp : Response}
    (h : Source tr r req resp) (hsub : ∀ e ∈ tr, e ∈ tr') : Source tr' r req resp := by
  cases h with
  | here h hroute => exact .here (hsub _ h) hroute
  | proxied h ho hresp hget =>
      exact .proxied (hsub _ h) (hsub _ ho) hresp fun hop ↦ (hget hop).imp fun f hf ↦ hsub _ hf
  | waited h hj hi ho hresp =>
      exact .waited (hsub _ h) (hsub _ hj) (hsub _ hi) (hsub _ ho) hresp

/-- The rule each event obeys, given the events before it.

* Requests have different numbers; a request joins at most one fetch, and a fetch has
  one initiator, for the same key.
* A peer processes what was sent to it; a request has one outcome, and a reply is the
  response of the peer.
* A response has a source. -/
def Rule (past : List (Event C O)) : Event C O → Prop
  | .received r _ _ _ => ∀ c req route, .received r c req route ∉ past
  | .joined r key f isInitiator =>
    (∃ c req owner address, .received r c req (.remote owner address) ∈ past ∧
      req.opcode = .get ∧ req.key = key) ∧
    (∀ key' f' b, .joined r key' f' b ∉ past) ∧
    if isInitiator then ∀ r' key' b, .joined r' key' f b ∉ past
    else ∃ i, .joined i key f true ∈ past
  | .served r address req _ =>
    ∃ c owner, .received r c req (.remote owner (some address)) ∈ past
  | .upstream r o =>
    (∃ c req owner address, .received r c req (.remote owner address) ∈ past) ∧
      (∀ o', .upstream r o' ∉ past) ∧
      ∀ resp, o = .replied resp → ∃ address req, .served r address req resp ∈ past
  | .answered r req resp => Source past r req resp
  | .changed _ => True

section

variable {tr : List (Event C O)}

theorem received_unique (h : Guarded Rule tr) {r : ℕ} {c d : C} {req req' : Request}
    {route route' : Route} (hc : .received r c req route ∈ tr)
    (hd : .received r d req' route' ∈ tr) : c = d ∧ req = req' ∧ route = route' := by
  rcases h.compare hc hd with heq | ⟨pre, hmem, hrule⟩ | ⟨pre, hmem, hrule⟩
  · cases heq
    exact ⟨rfl, rfl, rfl⟩
  · exact absurd hmem (hrule _ _ _)
  · exact absurd hmem (hrule _ _ _)

theorem joined_unique (h : Guarded Rule tr) {r : ℕ} {k k' : Bytes} {f f' : ℕ} {b b' : Bool}
    (hx : .joined r k f b ∈ tr) (hy : .joined r k' f' b' ∈ tr) : k = k' ∧ f = f' ∧ b = b' := by
  rcases h.compare hx hy with heq | ⟨pre, hmem, -, hrule, -⟩ | ⟨pre, hmem, -, hrule, -⟩
  · cases heq
    exact ⟨rfl, rfl, rfl⟩
  · exact absurd hmem (hrule _ _ _)
  · exact absurd hmem (hrule _ _ _)

theorem initiator_unique (h : Guarded Rule tr) {i j : ℕ} {k k' : Bytes} {f : ℕ}
    (hi : .joined i k f true ∈ tr) (hj : .joined j k' f true ∈ tr) : i = j ∧ k = k' := by
  rcases h.compare hi hj with heq | ⟨pre, hmem, -, -, hrule⟩ | ⟨pre, hmem, -, -, hrule⟩
  · cases heq
    exact ⟨rfl, rfl⟩
  · exact absurd hmem (hrule _ _ _)
  · exact absurd hmem (hrule _ _ _)

theorem upstream_unique (h : Guarded Rule tr) {r : ℕ} {o o' : Outcome}
    (ho : .upstream r o ∈ tr) (ho' : .upstream r o' ∈ tr) : o = o' := by
  rcases h.compare ho ho' with heq | ⟨pre, hmem, -, hrule, -⟩ | ⟨pre, hmem, -, hrule, -⟩
  · cases heq
    rfl
  · exact absurd hmem (hrule _)
  · exact absurd hmem (hrule _)

/-- A request that has joined a fetch is a GET that goes to a peer. -/
theorem received_of_joined (h : Guarded Rule tr) {r : ℕ} {k : Bytes} {f : ℕ} {b : Bool}
    (hj : .joined r k f b ∈ tr) :
    ∃ c req owner address, .received r c req (.remote owner address) ∈ tr ∧
      req.opcode = .get ∧ req.key = k := by
  obtain ⟨pre, post, rfl, ⟨c, req, owner, address, hmem, hrest⟩, -⟩ := h.of_mem hj
  exact ⟨c, req, owner, address, List.mem_append_left _ hmem, hrest⟩

/-- A request that has joined a fetch was not answered here. -/
theorem not_here_of_joined (h : Guarded Rule tr) {r : ℕ} {k : Bytes} {f : ℕ} {b : Bool} {c : C}
    {req : Request} {route : Route} (hj : .joined r k f b ∈ tr)
    (hr : .received r c req route ∈ tr) : ¬ (route = .here ∨ req.opcode = .clusterInfo) := by
  obtain ⟨d, req', owner, address, hmem, hget, -⟩ := received_of_joined h hj
  obtain ⟨-, rfl, rfl⟩ := received_unique h hr hmem
  rintro (hroute | hinfo)
  · cases hroute
  · rw [hget] at hinfo
    cases hinfo

end

/-! ## Connections and coroutines -/

/-- The coroutine of a connection stands where the connection stands. -/
def Agrees : Conn → Coro C Bytes Bytes → Prop
  | .proxying _ req (some f) _, x => x = .fetching req.key f
  | .completing _ _ _ _, x =>
    x = .idle ∨ (∃ k f v, x = .completing k f v) ∨ (∃ f v, x = .publishing f v) ∨
      ∃ f l, x = .resuming f l
  | .waiting _ _ f, x => x = .joined f ∨ x = .notReady f ∨ x = .suspended f ∨ x = .ready f
  | _, x => x = .idle

/-- Inner steps do not take a coroutine away from its connection. -/
theorem Agrees.inner {y : Conn} {x x' : Coro C Bytes Bytes} (h : Agrees y x)
    (hm : InnerMove x x') : Agrees y x' := by
  rcases y with - | ⟨r, req, - | f, stage⟩ | ⟨r, req, f, resp⟩ | ⟨r, req, f⟩ | ⟨r, req, resp⟩ |
    - <;> cases hm <;> simp_all [Agrees]

/-- What the trace says about the request at hand. -/
def Recorded (tr : List (Event C O)) (c : C) : Conn → Prop
  | .reading => True
  | .proxying r req handle stage =>
    (∃ owner address, .received r c req (.remote owner address) ∈ tr ∧
      ∀ a, stage = .calling a → a = address) ∧
    (∀ o, .upstream r o ∉ tr) ∧
    (∀ resp, stage = .served resp → ∃ address, .served r address req resp ∈ tr) ∧
    match handle with
    | none => req.opcode ≠ .get
    | some f => .joined r req.key f true ∈ tr
  | .completing r req _ resp => Source tr r req resp
  | .waiting r req f =>
    (∃ owner address, .received r c req (.remote owner address) ∈ tr) ∧
      .joined r req.key f false ∈ tr
  | .replying r req resp => Source tr r req resp
  | .closed => True

/-- What is recorded stays so while the request has no outcome. -/
theorem Recorded.append {tr e : List (Event C O)} {c : C} {y : Conn} (h : Recorded tr c y)
    (he : ∀ r req handle stage o, y = .proxying r req handle stage → .upstream r o ∉ e) :
    Recorded (tr ++ e) c y := by
  have hsub : ∀ x ∈ tr, x ∈ tr ++ e := fun x hx ↦ List.mem_append_left e hx
  cases y with
  | reading => trivial
  | proxying r req handle stage =>
      obtain ⟨⟨owner, address, hmem, haddr⟩, hnone, hserved, hhandle⟩ := h
      refine ⟨⟨owner, address, hsub _ hmem, haddr⟩, fun o ho ↦ ?_,
        fun resp hresp ↦ (hserved resp hresp).imp fun a ha ↦ hsub _ ha, ?_⟩
      · exact (List.mem_append.mp ho).elim (hnone o) (he r req handle stage o rfl)
      · cases handle with
        | none => exact hhandle
        | some f => exact hsub _ hhandle
  | completing r req f resp => exact Source.mono h hsub
  | waiting r req f =>
      obtain ⟨⟨owner, address, hmem⟩, hjoined⟩ := h
      exact ⟨⟨owner, address, hsub _ hmem⟩, hsub _ hjoined⟩
  | replying r req resp => exact Source.mono h hsub
  | closed => trivial

variable [DecidableEq C]

/-- The invariant, for a trace of the coordinator and one of its wait group. -/
structure Inv (s : Coordinator C n W) (tr : List (Event C O))
    (gtr : List (WaitGroup.Event C Bytes Bytes)) : Prop where
  group : (Sys.machine C Bytes Bytes).Run s.group gtr
  agrees : ∀ c, Agrees (s.conn c) (s.group.coro c)
  recorded : ∀ c, Recorded tr c (s.conn c)
  fresh : ∀ r c req route, .received r c req route ∈ tr → r < s.next
  joined_in : ∀ r k f b, .joined r k f b ∈ tr → ∃ c, .joined c k f b ∈ gtr
  joined_of : ∀ c k f b, .joined c k f b ∈ gtr → ∃ r, .joined r k f b ∈ tr
  called_of : ∀ c k f v, .called c k f v ∈ gtr →
    ∃ r o, .joined r k f true ∈ tr ∧ .upstream r o ∈ tr ∧ v = completion o.response
  rule : Guarded Rule tr

variable {peers : Peers W O} {s s' : Coordinator C n W} {tr ev : List (Event C O)}
  {gtr ge : List (WaitGroup.Event C Bytes Bytes)}

/-- Two connections are not at the same request. -/
theorem Inv.proxying_unique (h : Inv s tr gtr) {c d : C} {r : ℕ} {req req' : Request}
    {handle handle' : Option ℕ} {stage stage' : Stage}
    (hc : s.conn c = .proxying r req handle stage)
    (hd : s.conn d = .proxying r req' handle' stage') : c = d := by
  have hrc := h.recorded c
  have hrd := h.recorded d
  rw [hc] at hrc
  rw [hd] at hrd
  obtain ⟨⟨_, _, hmem, -⟩, -⟩ := hrc
  obtain ⟨⟨_, _, hmem', -⟩, -⟩ := hrd
  exact (received_unique h.rule hmem hmem').1

/-- A step that moves one connection. -/
theorem Inv.move (h : Inv s tr gtr) (c : C) (y : Conn)
    (hconn : s'.conn = Function.update s.conn c y)
    (hgroup : (Sys.machine C Bytes Bytes).Run s'.group (gtr ++ ge))
    (hcoro : ∀ d, d ≠ c → s'.group.coro d = s.group.coro d)
    (hagrees : Agrees y (s'.group.coro c)) (hrecorded : Recorded (tr ++ ev) c y)
    (hupstream : ∀ r o, .upstream r o ∈ ev →
      ∃ req handle stage, s.conn c = .proxying r req handle stage)
    (hnext : s.next ≤ s'.next)
    (hfresh : ∀ r d req route, .received r d req route ∈ ev → r < s'.next)
    (hin : ∀ r k f b, .joined r k f b ∈ ev → ∃ d, .joined d k f b ∈ ge)
    (hof : ∀ d k f b, .joined d k f b ∈ ge → ∃ r, .joined r k f b ∈ ev)
    (hcalled : ∀ d k f v, .called d k f v ∈ ge →
      ∃ r o, .joined r k f true ∈ tr ∧ .upstream r o ∈ ev ∧ v = completion o.response)
    (hrule : Guarded Rule (tr ++ ev)) : Inv s' (tr ++ ev) (gtr ++ ge) where
  group := hgroup
  agrees d := by
    rw [hconn]
    by_cases hd : d = c
    · subst hd
      rw [Function.update_self]
      exact hagrees
    · rw [Function.update_of_ne hd, hcoro d hd]
      exact h.agrees d
  recorded d := by
    rw [hconn]
    by_cases hd : d = c
    · subst hd
      rw [Function.update_self]
      exact hrecorded
    · rw [Function.update_of_ne hd]
      refine (h.recorded d).append fun r req handle stage o hdr hmem ↦ ?_
      obtain ⟨_, _, _, hcr⟩ := hupstream r o hmem
      exact hd (h.proxying_unique hdr hcr)
  fresh r d req route hmem := by
    rcases List.mem_append.mp hmem with hmem | hmem
    · exact Nat.lt_of_lt_of_le (h.fresh r d req route hmem) hnext
    · exact hfresh r d req route hmem
  joined_in r k f b hmem := by
    rcases List.mem_append.mp hmem with hmem | hmem
    · exact (h.joined_in r k f b hmem).imp fun d hd ↦ List.mem_append_left _ hd
    · exact (hin r k f b hmem).imp fun d hd ↦ List.mem_append_right _ hd
  joined_of d k f b hmem := by
    rcases List.mem_append.mp hmem with hmem | hmem
    · exact (h.joined_of d k f b hmem).imp fun r hr ↦ List.mem_append_left _ hr
    · exact (hof d k f b hmem).imp fun r hr ↦ List.mem_append_right _ hr
  called_of d k f v hmem := by
    rcases List.mem_append.mp hmem with hmem | hmem
    · obtain ⟨r, o, hj, ho, hv⟩ := h.called_of d k f v hmem
      exact ⟨r, o, List.mem_append_left _ hj, List.mem_append_left _ ho, hv⟩
    · obtain ⟨r, o, hj, ho, hv⟩ := hcalled d k f v hmem
      exact ⟨r, o, List.mem_append_left _ hj, List.mem_append_right _ ho, hv⟩
  rule := hrule

/-- A step that moves one connection and does not touch the wait group. -/
theorem Inv.moveAlone (h : Inv s tr gtr) (c : C) (y : Conn)
    (hconn : s'.conn = Function.update s.conn c y) (hgroup : s'.group = s.group)
    (hagrees : Agrees y (s.group.coro c)) (hrecorded : Recorded (tr ++ ev) c y)
    (hupstream : ∀ r o, .upstream r o ∈ ev →
      ∃ req handle stage, s.conn c = .proxying r req handle stage)
    (hnext : s.next ≤ s'.next)
    (hfresh : ∀ r d req route, .received r d req route ∈ ev → r < s'.next)
    (hjoined : ∀ r k f b, .joined r k f b ∉ ev)
    (hrule : Guarded Rule (tr ++ ev)) : Inv s' (tr ++ ev) gtr := by
  have hmove : Inv s' (tr ++ ev) (gtr ++ []) := h.move c y hconn
    (by rw [hgroup, List.append_nil]; exact h.group) (fun d _ ↦ by rw [hgroup])
    (by rw [hgroup]; exact hagrees) hrecorded hupstream hnext hfresh
    (fun r k f b hmem ↦ absurd hmem (hjoined r k f b)) (fun _ _ _ _ hmem ↦ nomatch hmem)
    (fun _ _ _ _ hmem ↦ nomatch hmem) hrule
  rwa [List.append_nil] at hmove

/-- A new request has a number that no request had before. -/
theorem Inv.rule_received (h : Inv s tr gtr) (c : C) (req : Request) (route : Route) :
    Rule tr (.received s.next c req route) := by
  intro d req' route' hmem
  exact absurd (h.fresh s.next d req' route' hmem) (Nat.lt_irrefl _)

/-- A new request has not joined a fetch before. -/
theorem Inv.not_joined (h : Inv s tr gtr) (k : Bytes) (f : ℕ) (b : Bool) :
    .joined s.next k f b ∉ tr := by
  intro hmem
  obtain ⟨c, req, owner, address, hr, -⟩ := received_of_joined h.rule hmem
  exact absurd (h.fresh s.next c req _ hr) (Nat.lt_irrefl _)

/-- A new request has no outcome yet. -/
theorem Inv.not_upstream (h : Inv s tr gtr) (o : Outcome) : .upstream s.next o ∉ tr := by
  intro hmem
  obtain ⟨pre, post, rfl, ⟨c, req, owner, address, hr⟩, -⟩ := h.rule.of_mem hmem
  exact absurd (h.fresh s.next c req _ (List.mem_append_left _ hr)) (Nat.lt_irrefl _)

/-! ## Requests come in -/

theorem Inv.local (h : Inv s tr gtr) {c : C} {req : Request} {resp : Response}
    {store : LocalStore n} {route : Route} (hc : s.conn c = .reading)
    (hroute : route = .here ∨ req.opcode = .clusterInfo) :
    Inv (setConn { s with next := s.next + 1, store } c (.replying s.next req resp))
      (tr ++ [.received s.next c req route]) gtr := by
  have hidle := h.agrees c
  rw [hc] at hidle
  refine h.moveAlone c _ rfl rfl hidle ?_ (by simp) (Nat.le_succ _) ?_ (by simp)
    (h.rule.concat (h.rule_received c req route))
  · exact .here (List.mem_append_right _ List.mem_cons_self) hroute
  · intro r d req' route' hmem
    cases List.mem_singleton.mp hmem
    exact Nat.lt_succ_self _

theorem Inv.send (h : Inv s tr gtr) {c : C} {req : Request} {owner : NodeId}
    {address : Option Address} (hc : s.conn c = .reading) (hget : req.opcode ≠ .get) :
    Inv (setConn { s with next := s.next + 1 } c (.proxying s.next req none (.calling address)))
      (tr ++ [.received s.next c req (.remote owner address)]) gtr := by
  have hidle := h.agrees c
  rw [hc] at hidle
  refine h.moveAlone c _ rfl rfl hidle ?_ (by simp) (Nat.le_succ _) ?_ (by simp)
    (h.rule.concat (h.rule_received c req _))
  · refine ⟨⟨owner, address, List.mem_append_right _ List.mem_cons_self, ?_⟩, ?_, nofun, hget⟩
    · rintro a ⟨⟩
      rfl
    · intro o ho
      simp [h.not_upstream o] at ho
  · intro r d req' route' hmem
    cases List.mem_singleton.mp hmem
    exact Nat.lt_succ_self _

/-- The rule for the two events of a GET that goes to a peer. -/
theorem Inv.rule_joined (h : Inv s tr gtr) {c : C} {req : Request} {owner : NodeId}
    {address : Option Address} {f : ℕ} {b : Bool} (hget : req.opcode = .get)
    (hf : if b then ∀ r' k b', .joined r' k f b' ∉ tr else ∃ i, .joined i req.key f true ∈ tr) :
    Guarded Rule (tr ++ [.received s.next c req (.remote owner address),
      .joined s.next req.key f b]) := by
  have hreceived := h.rule.concat (h.rule_received c req (.remote owner address))
  suffices hjoined : Rule (tr ++ [.received s.next c req (.remote owner address)])
      (.joined s.next req.key f b) by
    have hboth := hreceived.concat hjoined
    rwa [List.append_assoc] at hboth
  refine ⟨⟨c, req, owner, address, List.mem_append_right _ List.mem_cons_self, hget, rfl⟩, ?_, ?_⟩
  · intro k f' b' hmem
    exact h.not_joined k f' b' (by simpa using hmem)
  · cases b with
    | true =>
        intro r' k b' hmem
        exact hf r' k b' (by simpa using hmem)
    | false =>
        obtain ⟨i, hi⟩ := hf
        exact ⟨i, List.mem_append_left _ hi⟩

/-- A GET that goes to a peer joins a fetch. -/
theorem Inv.joinFetch (h : Inv s tr gtr) {c : C} {req : Request} {owner : NodeId}
    {address : Option Address} {group : Sys C Bytes Bytes} {f : ℕ} {b : Bool} {y : Conn}
    (hget : req.opcode = .get)
    (hg : s.group.step (.tryJoin c req.key) = some (group, [.joined c req.key f b]))
    (hagrees : Agrees y (if b then .fetching req.key f else .joined f : Coro C Bytes Bytes))
    (hrecorded : Recorded (tr ++ [.received s.next c req (.remote owner address),
      .joined s.next req.key f b]) c y) :
    Inv (setConn { s with next := s.next + 1, group } c y)
      (tr ++ [.received s.next c req (.remote owner address), .joined s.next req.key f b])
      (gtr ++ [.joined c req.key f b]) := by
  obtain ⟨-, f', b', heq, hcoro, hnew, -⟩ := tryJoin_cases hg
  cases heq
  have hrun : (Sys.machine C Bytes Bytes).Run group (gtr ++ [.joined c req.key f b]) :=
    h.group.step (a := .tryJoin c req.key) hg
  refine h.move c y rfl hrun ?_ ?_ hrecorded (by simp) (Nat.le_succ _) ?_ ?_ ?_ (by simp)
    (h.rule_joined hget ?_)
  · intro d hd
    exact (congrFun hcoro d).trans (Function.update_of_ne hd ..)
  · have hself := (congrFun hcoro c).trans (Function.update_self ..)
    exact hself ▸ hagrees
  · intro r d req' route' hmem
    simp only [List.mem_cons, List.not_mem_nil, or_false, reduceCtorEq] at hmem
    cases hmem
    exact Nat.lt_succ_self _
  · intro r k f' b' hmem
    simp only [List.mem_cons, List.not_mem_nil, or_false, reduceCtorEq, false_or] at hmem
    cases hmem
    exact ⟨c, List.mem_cons_self⟩
  · intro d k f' b' hmem
    cases List.mem_singleton.mp hmem
    exact ⟨s.next, List.mem_cons_of_mem _ List.mem_cons_self⟩
  · cases b with
    | true =>
        -- The handle of a new fetch is above those given out before.
        intro r' k b' hmem
        obtain ⟨d, hd⟩ := h.joined_in r' k f b' hmem
        have hlt := (Sys.run_inv h.group).2.joined_lt d k f b' hd
        rw [(hnew rfl).1] at hlt
        exact absurd hlt (Nat.lt_irrefl _)
    | false =>
        obtain ⟨i, hi⟩ := (Sys.run_inv hrun).2.rule gtr (.joined c req.key f false) [] rfl
        exact h.joined_of i req.key f true hi

theorem Inv.initiate (h : Inv s tr gtr) {c : C} {req : Request} {owner : NodeId}
    {address : Option Address} {group : Sys C Bytes Bytes} {f : ℕ} (hget : req.opcode = .get)
    (hg : s.group.step (.tryJoin c req.key) = some (group, [.joined c req.key f true])) :
    Inv (setConn { s with next := s.next + 1, group } c
        (.proxying s.next req (some f) (.calling address)))
      (tr ++ [.received s.next c req (.remote owner address), .joined s.next req.key f true])
      (gtr ++ [.joined c req.key f true]) := by
  refine h.joinFetch hget hg rfl ⟨⟨owner, address, by simp, ?_⟩, ?_, nofun, by simp⟩
  · rintro a ⟨⟩
    rfl
  · intro o ho
    simp [h.not_upstream o] at ho

theorem Inv.join (h : Inv s tr gtr) {c : C} {req : Request} {owner : NodeId}
    {address : Option Address} {group : Sys C Bytes Bytes} {f : ℕ} (hget : req.opcode = .get)
    (hg : s.group.step (.tryJoin c req.key) = some (group, [.joined c req.key f false])) :
    Inv (setConn { s with next := s.next + 1, group } c (.waiting s.next req f))
      (tr ++ [.received s.next c req (.remote owner address), .joined s.next req.key f false])
      (gtr ++ [.joined c req.key f false]) :=
  h.joinFetch hget hg (Or.inl rfl) ⟨⟨owner, address, by simp⟩, by simp⟩

/-! ## Requests get on -/

theorem Inv.serve (h : Inv s tr gtr) {c : C} {r : ℕ} {req : Request} {handle : Option ℕ}
    {address : Address} {resp : Response} {world : W}
    (hc : s.conn c = .proxying r req handle (.calling (some address))) :
    Inv (setConn { s with world } c (.proxying r req handle (.served resp)))
      (tr ++ [.served r address req resp]) gtr := by
  have hagrees := h.agrees c
  have hrecorded := h.recorded c
  rw [hc] at hagrees hrecorded
  obtain ⟨⟨owner, address', hmem, haddress⟩, hnone, -, hhandle⟩ := hrecorded
  obtain rfl := haddress _ rfl
  have hserved : Rule tr (.served r address req resp) := ⟨c, owner, hmem⟩
  have hrule := h.rule.concat hserved
  refine h.moveAlone c _ rfl rfl ?_ ⟨⟨owner, _, List.mem_append_left _ hmem, nofun⟩, ?_, ?_, ?_⟩
    (by simp) (Nat.le_refl _) (by simp) (by simp) hrule
  · cases handle with
    | none => exact hagrees
    | some f => exact hagrees
  · intro o ho
    exact hnone o (by simpa using ho)
  · rintro _ ⟨⟩
    exact ⟨address, List.mem_append_right _ List.mem_cons_self⟩
  · cases handle with
    | none => exact hhandle
    | some f => exact List.mem_append_left _ hhandle

/-- The rule for the outcome of a request. -/
theorem Inv.rule_upstream (h : Inv s tr gtr) {c : C} {r : ℕ} {req : Request}
    {handle : Option ℕ} {stage : Stage} {o : Outcome}
    (hc : s.conn c = .proxying r req handle stage) (ho : stage.Ends o) :
    Guarded Rule (tr ++ [.upstream r o]) := by
  have hrecorded := h.recorded c
  rw [hc] at hrecorded
  obtain ⟨⟨owner, address, hmem, -⟩, hnone, hserved, -⟩ := hrecorded
  have hupstream : Rule tr (.upstream r o) := by
    refine ⟨⟨c, req, owner, address, hmem⟩, hnone, ?_⟩
    rintro resp rfl
    rcases stage with (- | a) | resp'
    · cases ho
    · cases ho
    · rcases ho with ho | ho
      · cases ho
      · cases ho
        exact (hserved _ rfl).imp fun a ha ↦ ⟨req, ha⟩
  exact h.rule.concat hupstream

/-- The response to a proxied request has a source. -/
theorem Inv.source_proxied (h : Inv s tr gtr) {c : C} {r : ℕ} {req : Request}
    {handle : Option ℕ} {stage : Stage} (o : Outcome)
    (hc : s.conn c = .proxying r req handle stage) :
    Source (tr ++ [.upstream r o]) r req o.response := by
  have hrecorded := h.recorded c
  rw [hc] at hrecorded
  obtain ⟨⟨owner, address, hmem, -⟩, -, -, hhandle⟩ := hrecorded
  refine .proxied (List.mem_append_left _ hmem) (List.mem_append_right _ List.mem_cons_self) rfl ?_
  intro hget
  cases handle with
  | none => exact absurd hget hhandle
  | some f => exact ⟨f, List.mem_append_left _ hhandle⟩

theorem Inv.finish (h : Inv s tr gtr) {c : C} {r : ℕ} {req : Request} {stage : Stage}
    {o : Outcome} (hc : s.conn c = .proxying r req none stage) (ho : stage.Ends o) :
    Inv (s.setConn c (.replying r req o.response)) (tr ++ [.upstream r o]) gtr := by
  have hagrees := h.agrees c
  rw [hc] at hagrees
  refine h.moveAlone c _ rfl rfl hagrees (h.source_proxied o hc) ?_ (Nat.le_refl _) (by simp)
    (by simp) (h.rule_upstream hc ho)
  intro r' o' hmem
  cases List.mem_singleton.mp hmem
  exact ⟨_, _, _, hc⟩

theorem Inv.complete (h : Inv s tr gtr) {c : C} {r : ℕ} {req : Request} {f : ℕ} {stage : Stage}
    {o : Outcome} {group : Sys C Bytes Bytes} {e : List (WaitGroup.Event C Bytes Bytes)}
    (hc : s.conn c = .proxying r req (some f) stage) (ho : stage.Ends o)
    (hg : s.group.step (.complete c (completion o.response)) = some (group, e)) :
    Inv (setConn { s with group } c (.completing r req f o.response)) (tr ++ [.upstream r o])
      (gtr ++ e) := by
  have hagrees := h.agrees c
  have hrecorded := h.recorded c
  rw [hc] at hagrees hrecorded
  obtain ⟨k, f', hfetching, rfl, hgroup, hcoro⟩ := complete_cases hg
  obtain ⟨rfl, rfl⟩ : k = req.key ∧ f' = f := by simpa using hfetching.symm.trans hagrees
  have hrun : (Sys.machine C Bytes Bytes).Run group _ :=
    h.group.step (a := .complete c (completion o.response)) hg
  refine h.move c _ rfl hrun ?_ ?_ (h.source_proxied o hc) ?_ (Nat.le_refl _) (by simp) (by simp)
    (by simp) ?_ (h.rule_upstream hc ho)
  · intro d hd
    exact (congrFun hcoro d).trans (Function.update_of_ne hd ..)
  · have hself := (congrFun hcoro c).trans (Function.update_self ..)
    exact Or.inr (Or.inl ⟨_, _, _, hself⟩)
  · intro r' o' hmem
    cases List.mem_singleton.mp hmem
    exact ⟨_, _, _, hc⟩
  · intro d k' f'' v hmem
    cases List.mem_singleton.mp hmem
    exact ⟨r, o, hrecorded.2.2.2, List.mem_cons_self, rfl⟩

/-- A wait that is over gives the response its source. -/
theorem Inv.obtain (h : Inv s tr gtr) {c d : C} {r : ℕ} {req : Request} {f f' : ℕ}
    {result : Option Bytes} {group : Sys C Bytes Bytes} (hc : s.conn c = .waiting r req f)
    (hg : s.group.step (.awaitResume c) = some (group, [.obtained d f' result])) :
    Inv (setConn { s with group } c (.replying r req (collapsed result))) (tr ++ [])
      (gtr ++ [.obtained d f' result]) := by
  have hagrees := h.agrees c
  have hrecorded := h.recorded c
  rw [hc] at hagrees hrecorded
  have hrun : (Sys.machine C Bytes Bytes).Run group _ := h.group.step (a := .awaitResume c) hg
  obtain ⟨f'', hready, heq, hgroup, hcoro⟩ := awaitResume_cases hg
  cases heq
  obtain rfl : f' = f := by simpa [Agrees, hready] using hagrees
  -- The result is what the initiator passed, for the key that this request joined for.
  obtain ⟨k, i, -, -, hcalled⟩ := (Sys.run_inv hrun).2.rule gtr _ [] rfl
  obtain ⟨i', o, hi', ho, hresult⟩ := h.called_of i k f' _ hcalled
  obtain ⟨⟨owner, address, hmem⟩, hjoined⟩ := hrecorded
  obtain ⟨pre, post, htr, -, -, j, hj⟩ := h.rule.of_mem hjoined
  have hj' : .joined j req.key f' true ∈ tr := by
    rw [htr]
    exact List.mem_append_left _ hj
  obtain ⟨rfl, rfl⟩ := initiator_unique h.rule hi' hj'
  have hsource : Source (tr ++ []) r req (collapsed (s.group.group.awaitResume f')) := by
    rw [List.append_nil, hresult]
    exact .waited hmem hjoined hi' ho rfl
  refine h.move c _ rfl hrun ?_ ?_ hsource (by simp) (Nat.le_refl _) (by simp) (by simp) (by simp)
    (by simp) (by rw [List.append_nil]; exact h.rule)
  · intro d hd
    exact (congrFun hcoro d).trans (Function.update_of_ne hd ..)
  · exact (congrFun hcoro c).trans (Function.update_self ..)

/-- A step inside `complete` or of the wait. -/
theorem Inv.collapse (h : Inv s tr gtr) {a : WaitGroup.Action C Bytes Bytes}
    {group : Sys C Bytes Bytes} {e : List (WaitGroup.Event C Bytes Bytes)}
    (ha : isInner a = true) (hg : s.group.step a = some (group, e))
    (hjoined : ∀ c k f b, .joined c k f b ∉ e) (hcalled : ∀ c k f v, .called c k f v ∉ e) :
    Inv { s with group } tr (gtr ++ e) where
  group := h.group.step (a := a) hg
  agrees c := by
    rcases coro_of_isInner ha hg c with heq | hmove
    · exact heq ▸ h.agrees c
    · exact (h.agrees c).inner hmove
  recorded := h.recorded
  fresh := h.fresh
  joined_in r k f b hmem :=
    (h.joined_in r k f b hmem).imp fun d hd ↦ List.mem_append_left _ hd
  joined_of c k f b hmem := by
    rcases List.mem_append.mp hmem with hmem | hmem
    · exact h.joined_of c k f b hmem
    · exact absurd hmem (hjoined c k f b)
  called_of c k f v hmem := by
    rcases List.mem_append.mp hmem with hmem | hmem
    · exact h.called_of c k f v hmem
    · exact absurd hmem (hcalled c k f v)
  rule := h.rule

/-- A step in which no connection moves and only something at the peers is seen. -/
theorem Inv.still (h : Inv s tr gtr) (hconn : s'.conn = s.conn) (hgroup : s'.group = s.group)
    (hnext : s'.next = s.next) (hev : ev = [] ∨ ∃ o, ev = [.changed o]) :
    Inv s' (tr ++ ev) gtr := by
  rcases hev with rfl | ⟨o, rfl⟩
  · rw [List.append_nil]
    refine ⟨hgroup ▸ h.group, ?_, ?_, ?_, h.joined_in, h.joined_of, h.called_of, h.rule⟩
    · rw [hconn, hgroup]
      exact h.agrees
    · rw [hconn]
      exact h.recorded
    · rw [hnext]
      exact h.fresh
  · have hchanged : Rule tr (.changed o) := trivial
    refine ⟨hgroup ▸ h.group, ?_, ?_, ?_, ?_, ?_, ?_, h.rule.concat hchanged⟩
    · rw [hconn, hgroup]
      exact h.agrees
    · intro c
      rw [hconn]
      exact (h.recorded c).append (by simp)
    · rw [hnext]
      simpa using h.fresh
    · simpa using h.joined_in
    · simpa using h.joined_of
    · simpa using h.called_of

/-- **Every step keeps the invariant.** -/
theorem Steps.inv (h : Inv s tr gtr) (hs : Steps peers s s' ev) :
    ∃ gtr', Inv s' (tr ++ ev) gtr' := by
  cases hs with
  | «local» hc hhere =>
      refine ⟨gtr, h.local hc ?_⟩
      rcases hhere with ⟨hinfo, -⟩ | ⟨-, hroute, -⟩
      · exact Or.inr hinfo
      · exact Or.inl hroute
  | send hc hget => exact ⟨gtr, h.send hc hget⟩
  | initiate hc hget hroute hg => exact ⟨_, h.initiate hget hg⟩
  | join hc hget hroute hg => exact ⟨_, h.join hget hg⟩
  | serve hc => exact ⟨gtr, h.serve hc⟩
  | finish hc ho => exact ⟨gtr, h.finish hc ho⟩
  | complete hc ho hg => exact ⟨_, h.complete hc ho hg⟩
  | collapse ha hg =>
      obtain ⟨hjoined, hcalled, -⟩ := events_of_isInner ha hg
      rw [List.append_nil]
      exact ⟨_, h.collapse ha hg hjoined hcalled⟩
  | @leave c r req f resp hc hidle =>
      have hrecorded := h.recorded c
      rw [hc] at hrecorded
      refine ⟨gtr, h.moveAlone c (.replying r req resp) rfl rfl hidle ?_ (by simp) (Nat.le_refl _)
        (by simp) (by simp) (by rw [List.append_nil]; exact h.rule)⟩
      exact Source.mono hrecorded fun x hx ↦ List.mem_append_left _ hx
  | obtain hc hg => exact ⟨_, h.obtain hc hg⟩
  | @answer c r req resp hc =>
      have hagrees := h.agrees c
      have hrecorded := h.recorded c
      rw [hc] at hagrees hrecorded
      have hsource : Rule tr (.answered r req resp) := hrecorded
      exact ⟨gtr, h.moveAlone c .reading rfl rfl hagrees trivial (by simp) (Nat.le_refl _) (by simp)
        (by simp) (h.rule.concat hsource)⟩
  | @hangUp c hc =>
      have hagrees := h.agrees c
      have hidle : s.group.coro c = .idle := by
        rcases hc with hc | ⟨r, req, resp, hc⟩
        · rw [hc] at hagrees
          exact hagrees
        · rw [hc] at hagrees
          exact hagrees
      exact ⟨gtr, h.moveAlone c .closed rfl rfl hidle trivial (by simp) (Nat.le_refl _) (by simp)
        (by simp) (by rw [List.append_nil]; exact h.rule)⟩
  | gossip => exact ⟨gtr, h.still rfl rfl rfl (Or.inl rfl)⟩
  | @change o => exact ⟨gtr, h.still rfl rfl rfl (Or.inr ⟨o, rfl⟩)⟩

/-- The invariant holds in every run. -/
theorem run_inv (hrun : (machine C n peers).Run s tr) : ∃ gtr, Inv s tr gtr := by
  refine hrun.invariant (I := fun s tr ↦ ∃ gtr, Inv s tr gtr) ?_ ?_
  · rintro s ⟨hgroup, hconn, hnext⟩
    refine ⟨[], .init hgroup, ?_, ?_, nofun, nofun, nofun, nofun, guarded_nil⟩
    · intro c
      rw [hconn, hgroup]
      rfl
    · intro c
      rw [hconn]
      trivial
  · rintro s tr a s' ev - ⟨gtr, h⟩ hstep
    exact (step_steps hstep).inv h

/-- Every response has a source. -/
theorem source_of_answered (hrun : (machine C n peers).Run s tr) {r : ℕ} {req : Request}
    {resp : Response} (h : .answered r req resp ∈ tr) : Source tr r req resp := by
  obtain ⟨gtr, hinv⟩ := run_inv hrun
  obtain ⟨pre, post, rfl, hsource⟩ := hinv.rule.of_mem h
  exact Source.mono hsource fun x hx ↦ List.mem_append_left _ hx

end Pensieve.Coordinator
