import Pensieve.Coordinator.Service

/-!
# What is known of the requests at a coordinator

For every connection of a coordinator the request it is at, and the response if that has been
decided on (`front`).  A GET that waits for another's fetch has its response as soon as the result
has been published, and a request that was proxied as soon as the peer has processed it.

Most steps change this for one connection at most.  The exception is the second critical section
of `complete`: it decides on all the GETs that wait for the fetch, which are GETs of the same key
(`Turn.shared`).
-/

namespace Pensieve

open Foundation

/-! ## Results of fetches -/

namespace WaitGroup

variable {C K V : Type*}

/-- The result of a fetch, once it is there. -/
def published (g : WaitGroup C K V) (f : ℕ) : Option (Option V) :=
  if (g.fetches f).completed then some (g.fetches f).result else none

/-- The fetch that a coroutine is about to complete, and the value. -/
def Coro.passes : Coro C K V → Option (ℕ × Option V)
  | .completing _ f v => some (f, v)
  | .publishing f v => some (f, v)
  | _ => none

theorem published_setFetch (g : WaitGroup C K V) (f : ℕ) (x : PendingFetch C V) :
    (g.setFetch f x).published =
      Function.update g.published f (if x.completed then some x.result else none) := by
  funext f'
  by_cases hf : f' = f
  · subst hf
    simp only [published, setFetch, Function.update_self]
  · simp only [published, setFetch, Function.update_of_ne hf]

namespace Sys

variable [DecidableEq C] [DecidableEq K] {s s' : Sys C K V} {e : List (Event C K V)}

/-- Results are published one at a time, by the coroutine that completes the fetch. -/
theorem Moves.published (h : Inv s) (hm : Moves s s' e) :
    (∀ f, f < s.group.next → s'.group.published f = s.group.published f) ∨
      ∃ c f v, e = [.wrote f v] ∧ s.coro c = .publishing f v ∧ s.group.published f = none ∧
        s'.group.published = Function.update s.group.published f (some v) := by
  cases hm with
  | start hc hk =>
      refine Or.inl fun f hf ↦ ?_
      simp only [WaitGroup.published, move_group, Function.update_of_ne hf.ne]
  | publish hc =>
      obtain ⟨-, hopen, -⟩ := h.owned.fits_of hc
      refine Or.inr ⟨_, _, _, rfl, hc, by simp [WaitGroup.published, hopen], ?_⟩
      rw [move_group, published_setFetch]
      rfl
  | @suspend c f hc hf =>
      refine Or.inl fun f' _ ↦ ?_
      have heq : (if ((s.group.fetches f).push c).completed then
          some ((s.group.fetches f).push c).result else none) = s.group.published f := rfl
      rw [move_group, published_setFetch, heq, Function.update_eq_self]
  | resume hc =>
      refine Or.inl fun f _ ↦ ?_
      rw [resumeCoro]
      split <;> rfl
  | join | call | takeNone | take | done | ready | notReady | obtain => exact Or.inl fun f _ ↦ rfl

/-- A coroutine goes on with the fetch and the value it has called `complete` with. -/
theorem Moves.passes (h : Inv s) (hm : Moves s s' e) {d : C} {f : ℕ} {v : Option V}
    (hd : (s'.coro d).passes = some (f, v)) :
    (s.coro d).passes = some (f, v) ∨ ∃ k, .called d k f v ∈ e := by
  have hmove : ∀ (g : WaitGroup C K V) (c : C) (x : Coro C K V),
      ((move { s with group := g } c x).coro d).passes = some (f, v) →
      (s.coro d).passes = some (f, v) ∨ d = c ∧ x.passes = some (f, v) := by
    intro g c x hx
    rw [move_coro] at hx
    split at hx
    · exact Or.inr ⟨by assumption, hx⟩
    · exact Or.inl hx
  cases hm with
  | call hc =>
      rcases hmove s.group _ _ hd with hd | ⟨rfl, hx⟩
      · exact Or.inl hd
      · cases hx
        exact Or.inr ⟨_, List.mem_singleton_self _⟩
  | @take c k f₀ f' v' hc hk =>
      rcases hmove _ _ _ hd with hd | ⟨rfl, hx⟩
      · exact Or.inl hd
      · cases hx
        have hfits : s.group.pending k = some f₀ := h.owned.fits_of hc
        cases hfits.symm.trans hk
        exact Or.inl (by rw [hc]; rfl)
  | @resume c d' f' rest hc =>
      rcases coro_resumeCoro (s.move c (.resuming f' rest)) d' d with heq | ⟨f₁, -, heq⟩
      · rw [heq] at hd
        rcases hmove s.group _ _ hd with hd | ⟨-, hx⟩
        · exact Or.inl hd
        · cases hx
      · rw [heq] at hd
        cases hd
  | start | publish | suspend =>
      rcases hmove _ _ _ hd with hd | ⟨-, hx⟩
      · exact Or.inl hd
      · cases hx
  | join | takeNone | done | ready | notReady | obtain =>
      rcases hmove s.group _ _ hd with hd | ⟨-, hx⟩
      · exact Or.inl hd
      · cases hx

end Sys

end WaitGroup

namespace Coordinator

open WaitGroup

variable {C : Type*} {n : ℕ} {W O : Type*}

/-! ## Initiators -/

/-- A connection that completes a fetch has started it, and passes on what it has got. -/
structure Fetching (s : Coordinator C n W) (tr : List (Event C O)) : Prop where
  joined : ∀ c r req f resp, s.conn c = .completing r req f resp →
    .joined r req.key f true ∈ tr
  value : ∀ c f v, (s.group.coro c).passes = some (f, v) →
    ∃ r req resp, s.conn c = .completing r req f resp ∧ v = completion resp

theorem passes_of_agrees {y : Conn} {x : Coro C Bytes Bytes} (h : Agrees y x)
    (hy : ∀ r req f resp, y ≠ .completing r req f resp) : x.passes = none := by
  cases y with
  | completing r req f resp => exact absurd rfl (hy r req f resp)
  | proxying r req handle stage =>
      cases handle with
      | none =>
          obtain rfl : x = .idle := h
          rfl
      | some f =>
          obtain rfl : x = .fetching req.key f := h
          rfl
  | waiting r req f => rcases h with rfl | rfl | rfl | rfl <;> rfl
  | reading | replying | closed =>
      obtain rfl : x = .idle := h
      rfl

variable [DecidableEq C] {peers : Peers W O} {s s' : Coordinator C n W} {tr ev : List (Event C O)}
  {gtr : List (WaitGroup.Event C Bytes Bytes)}

theorem Steps.fetching (h : Fetching s tr) (hinv : Inv s tr gtr) (hs : Steps peers s s' ev) :
    Fetching s' (tr ++ ev) := by
  have hsub : ∀ e ∈ tr, e ∈ tr ++ ev := fun e he ↦ List.mem_append_left _ he
  have hpasses : ∀ c, (∀ r req f resp, s.conn c ≠ .completing r req f resp) →
      (s.group.coro c).passes = none := fun c ↦ passes_of_agrees (hinv.agrees c)
  -- A connection moves on, but not into `complete`.
  have hset : ∀ (t : Coordinator C n W) (c : C) (x : Conn), t.conn = s.conn →
      (∀ d, d ≠ c → t.group.coro d = s.group.coro d) → (t.group.coro c).passes = none →
      (∀ r req f resp, x ≠ .completing r req f resp) → Fetching (t.setConn c x) (tr ++ ev) := by
    intro t c x hconn hcoro hnone hx
    constructor
    · intro d r req f resp hd
      simp only [setConn, hconn] at hd
      by_cases hdc : d = c
      · subst hdc
        rw [Function.update_self] at hd
        exact absurd hd (hx r req f resp)
      · rw [Function.update_of_ne hdc] at hd
        exact hsub _ (h.joined d r req f resp hd)
    · intro d f v hd
      have hdc : d ≠ c := by
        rintro rfl
        cases hnone.symm.trans hd
      rw [show (t.setConn c x).group = t.group from rfl, hcoro d hdc] at hd
      simp only [setConn, hconn, Function.update_of_ne hdc]
      exact h.value d f v hd
  cases hs with
  | «local» hc => exact hset _ _ _ rfl (fun _ _ ↦ rfl) (hpasses _ (by simp [hc])) (by simp)
  | send hc => exact hset _ _ _ rfl (fun _ _ ↦ rfl) (hpasses _ (by simp [hc])) (by simp)
  | initiate hc hget hroute hg =>
      obtain ⟨-, f, b, -, hcoro, -⟩ := tryJoin_cases hg
      refine hset _ _ _ rfl (fun d hd ↦ ?_) ?_ (by simp)
      · simp only [hcoro, Function.update_of_ne hd]
      · simp only [hcoro, Function.update_self]
        cases b <;> rfl
  | join hc hget hroute hg =>
      obtain ⟨-, f, b, -, hcoro, -⟩ := tryJoin_cases hg
      refine hset _ _ _ rfl (fun d hd ↦ ?_) ?_ (by simp)
      · simp only [hcoro, Function.update_of_ne hd]
      · simp only [hcoro, Function.update_self]
        cases b <;> rfl
  | serve hc => exact hset _ _ _ rfl (fun _ _ ↦ rfl) (hpasses _ (by simp [hc])) (by simp)
  | finish hc => exact hset _ _ _ rfl (fun _ _ ↦ rfl) (hpasses _ (by simp [hc])) (by simp)
  | @complete c r req f stage o group e hc ho hg =>
      obtain ⟨k, f', hfetching, -, -, hcoro⟩ := complete_cases hg
      have hagrees := hinv.agrees c
      have hrecorded := hinv.recorded c
      rw [hc] at hagrees hrecorded
      cases hfetching.symm.trans hagrees
      obtain ⟨-, -, -, hjoined⟩ := hrecorded
      constructor
      · intro d r' req' f' resp' hd
        simp only [setConn] at hd
        by_cases hdc : d = c
        · subst hdc
          rw [Function.update_self] at hd
          cases hd
          exact hsub _ hjoined
        · rw [Function.update_of_ne hdc] at hd
          exact hsub _ (h.joined d r' req' f' resp' hd)
      · intro d f' v hd
        simp only [setConn, hcoro] at hd ⊢
        by_cases hdc : d = c
        · subst hdc
          rw [Function.update_self] at hd ⊢
          cases hd
          exact ⟨r, req, o.response, rfl, rfl⟩
        · rw [Function.update_of_ne hdc] at hd ⊢
          exact h.value d f' v hd
  | collapse ha hg =>
      obtain ⟨hsys, -⟩ := Sys.run_inv hinv.group
      obtain ⟨-, hcalled, -⟩ := events_of_isInner ha hg
      refine ⟨fun d r req f resp hd ↦ hsub _ (h.joined d r req f resp hd), fun d f v hd ↦ ?_⟩
      rcases (Sys.step_moves hg).passes hsys hd with hd | ⟨k, hmem⟩
      · exact h.value d f v hd
      · exact absurd hmem (hcalled d k f v)
  | leave hc hg => exact hset _ _ _ rfl (fun _ _ ↦ rfl) (by rw [hg]; rfl) (by simp)
  | obtain hc hg =>
      obtain ⟨-, -, -, -, hcoro⟩ := awaitResume_cases hg
      refine hset _ _ _ rfl (fun d hd ↦ ?_) ?_ (by simp)
      · simp only [hcoro, Function.update_of_ne hd]
      · simp only [hcoro, Function.update_self]
        rfl
  | answer hc => exact hset _ _ _ rfl (fun _ _ ↦ rfl) (hpasses _ (by simp [hc])) (by simp)
  | hangUp hc =>
      refine hset _ _ _ rfl (fun _ _ ↦ rfl) (hpasses _ ?_) (by simp)
      rcases hc with hc | ⟨r, req, resp, hc⟩ <;> simp [hc]
  | gossip => exact ⟨fun d r req f resp hd ↦ hsub _ (h.joined d r req f resp hd), h.value⟩
  | change => exact ⟨fun d r req f resp hd ↦ hsub _ (h.joined d r req f resp hd), h.value⟩

theorem fetching_of_run (hrun : (machine C n peers).Run s tr) : Fetching s tr := by
  refine hrun.invariant (I := fun s tr ↦ Fetching s tr) ?_ ?_
  · rintro s ⟨hgroup, hconn, -⟩
    refine ⟨fun c r req f resp hc ↦ ?_, fun c f v hc ↦ ?_⟩
    · rw [hconn] at hc
      cases hc
    · rw [hgroup] at hc
      cases hc
  · intro s tr a s' ev hrun h hstep
    obtain ⟨gtr, hinv⟩ := run_inv hrun
    exact (step_steps hstep).fetching h hinv

/-! ## Requests and their responses -/

/-- The request that a connection is at, with its response if that is known.  The argument gives
the results of fetches. -/
def view (published : ℕ → Option (Option Bytes)) : Conn → Option (Request × Option Response)
  | .reading => none
  | .proxying _ req _ (.calling _) => some (req, none)
  | .proxying _ req _ (.served resp) => some (req, some resp)
  | .completing _ req _ resp => some (req, some resp)
  | .waiting _ req f => some (req, (published f).map collapsed)
  | .replying _ req resp => some (req, some resp)
  | .closed => none

/-- What is known of the requests at a coordinator. -/
def front (s : Coordinator C n W) (c : C) : Option (Request × Option Response) :=
  view s.group.group.published (s.conn c)

theorem view_congr {pub pub' : ℕ → Option (Option Bytes)} {y : Conn}
    (h : ∀ r req f, y = .waiting r req f → pub' f = pub f) : view pub' y = view pub y := by
  rcases y with - | ⟨r, req, handle, a | resp⟩ | ⟨r, req, f, resp⟩ | ⟨r, req, f⟩ | - | -
  case waiting => simp only [view, h r req f rfl]
  all_goals rfl

theorem view_fst (pub : ℕ → Option (Option Bytes)) (y : Conn) :
    (view pub y).map Prod.fst = request y := by
  rcases y with - | ⟨r, req, handle, a | resp⟩ | - | - | - | - <;> rfl

/-- At most the one connection has changed. -/
structure Touches (s s' : Coordinator C n W) (c : C) (x : Option (Request × Option Response)) :
    Prop where
  conn : ∀ d, d ≠ c → s'.conn d = s.conn d
  front : s'.front = Function.update s.front c x

theorem touches_of_conn {c : C} (y : Conn) {x : Option (Request × Option Response)}
    (hconn : s'.conn = Function.update s.conn c y)
    (hpub : ∀ d r req f, s.conn d = .waiting r req f →
      s'.group.group.published f = s.group.group.published f)
    (hx : view s'.group.group.published y = x) : Touches s s' c x := by
  subst hx
  refine ⟨fun d hd ↦ by rw [hconn, Function.update_of_ne hd], ?_⟩
  funext d
  by_cases hd : d = c
  · subst hd
    rw [front, hconn, Function.update_self, Function.update_self]
  · rw [front, hconn, Function.update_of_ne hd, Function.update_of_ne hd]
    exact view_congr (hpub d)

/-- Steps that take no request, write no response and do not wait for a peer. -/
def isInward : Action C O → Bool
  | .collapse _ => true
  | .leave _ => true
  | .obtain _ => true
  | .gossip _ _ => true
  | .change _ => true
  | _ => false

/-- The steps, by what they do to the requests at hand. -/
inductive Turn (peers : Peers W O) (s : Coordinator C n W) : Action C O → Coordinator C n W → Prop
  /-- A request goes to a peer, or waits for another's fetch. -/
  | asked {c : C} {req : Request} {owner : NodeId} {address : Option Address}
      {s' : Coordinator C n W} (hc : s.conn c = .reading)
      (hroute : s.route req.key = .remote owner address)
      (ht : Touches s s' c (some (req, none))) (hstore : s'.store = s.store) :
      Turn peers s (.receive c req) s'
  /-- A request is answered here. -/
  | performed {c : C} {req : Request} {resp : Response} {s' : Coordinator C n W}
      (hc : s.conn c = .reading) (ht : Touches s s' c (some (req, some resp)))
      (hreplying : s'.conn c = .replying s.next req resp)
      (h : req.opcode = .clusterInfo ∧ s'.store = s.store ∨
        s.route req.key = .here ∧ (resp, s'.store) = serveLocal s.store req) :
      Turn peers s (.receive c req) s'
  /-- The peer has processed a request. -/
  | served {c : C} {r : ℕ} {req : Request} {handle : Option ℕ} {address : Address} {o : O}
      {resp : Response} {world : W} {s' : Coordinator C n W}
      (hc : s.conn c = .proxying r req handle (.calling (some address)))
      (hw : peers.serve s.world o address req = some (resp, world))
      (ht : Touches s s' c (some (req, some resp))) (hcalling : (s'.conn c).isCalling = false)
      (hstore : s'.store = s.store) : Turn peers s (.serve c o) s'
  /-- Its response has come in. -/
  | replied {c : C} {r : ℕ} {req : Request} {handle : Option ℕ} {resp : Response}
      {s' : Coordinator C n W} (hc : s.conn c = .proxying r req handle (.served resp))
      (ht : Touches s s' c (some (req, some resp))) (hcalling : (s'.conn c).isCalling = false)
      (hstore : s'.store = s.store) : Turn peers s (.reply c) s'
  /-- The peer is given up. -/
  | failed {c : C} {r : ℕ} {req : Request} {handle : Option ℕ} {stage : Stage}
      {s' : Coordinator C n W} (hc : s.conn c = .proxying r req handle stage)
      (ht : Touches s s' c (some (req, some ⟨.error, []⟩)))
      (hcalling : (s'.conn c).isCalling = false) (hstore : s'.store = s.store) :
      Turn peers s (.fail c) s'
  /-- The result of a fetch becomes known to all who wait for it. -/
  | shared {a : WaitGroup.Action C Bytes Bytes} {c : C} {r : ℕ} {req : Request} {f : ℕ}
      {resp : Response} {s' : Coordinator C n W} (hc : s.conn c = .completing r req f resp)
      (hget : req.opcode = .get)
      (hwaiting : ∀ d r' req', s.conn d = .waiting r' req' f →
        (req'.opcode = .get ∧ req'.key = req.key) ∧ s.front d = some (req', none) ∧
          s'.front d = some (req', some (collapsed (completion resp))))
      (hother : ∀ d, (∀ r' req', s.conn d ≠ .waiting r' req' f) → s'.front d = s.front d)
      (hconn : s'.conn = s.conn) (hstore : s'.store = s.store) : Turn peers s (.collapse a) s'
  /-- Nothing becomes known. -/
  | quiet {a : Action C O} {s' : Coordinator C n W} (ha : isInward a = true)
      (hfront : s'.front = s.front)
      (hcalling : ∀ d, (s'.conn d).isCalling = (s.conn d).isCalling)
      (hreplying : ∀ d r req resp, s.conn d = .replying r req resp →
        s'.conn d = .replying r req resp) (hstore : s'.store = s.store) : Turn peers s a s'
  | answered {c : C} {r : ℕ} {req : Request} {resp : Response} {s' : Coordinator C n W}
      (hc : s.conn c = .replying r req resp) (ht : Touches s s' c none)
      (hcalling : (s'.conn c).isCalling = false) (hstore : s'.store = s.store) :
      Turn peers s (.answer c) s'
  | hungUp {c : C} {s' : Coordinator C n W}
      (hc : s.conn c = .reading ∨ ∃ r req resp, s.conn c = .replying r req resp)
      (ht : Touches s s' c none) (hcalling : (s'.conn c).isCalling = false)
      (hstore : s'.store = s.store) : Turn peers s (.hangUp c) s'

/-- A GET waits for a fetch in use. -/
theorem Inv.lt_of_waiting (h : Inv s tr gtr) {d : C} {r : ℕ} {req : Request} {f : ℕ}
    (hd : s.conn d = .waiting r req f) : f < s.group.group.next := by
  obtain ⟨hsys, -⟩ := Sys.run_inv h.group
  have hagrees := h.agrees d
  rw [hd] at hagrees
  rcases hagrees with hx | hx | hx | hx
  · exact hsys.owned.fits_of hx
  · exact hsys.owned.fits_of hx
  · exact hsys.owned.fits_of hx
  · exact (hsys.owned.fits_of hx).1

/-- Those who wait for a fetch wait for a GET of their key. -/
theorem Inv.same_key (h : Inv s tr gtr) {d : C} {r i : ℕ} {req : Request} {f : ℕ} {key : Bytes}
    (hd : s.conn d = .waiting r req f) (hi : .joined i key f true ∈ tr) :
    req.opcode = .get ∧ req.key = key := by
  have hrecorded := h.recorded d
  rw [hd] at hrecorded
  obtain ⟨⟨owner, address, hreceived⟩, hjoined⟩ := hrecorded
  obtain ⟨d', req', _, _, hreceived', hget, -⟩ := received_of_joined h.rule hjoined
  obtain ⟨-, rfl, -⟩ := received_unique h.rule hreceived hreceived'
  obtain ⟨pre, post, rfl, -, -, j, hj⟩ := h.rule.of_mem hjoined
  exact ⟨hget, (initiator_unique h.rule (List.mem_append_left _ hj) hi).2⟩

/-- A new fetch has a number that nobody waits for. -/
theorem published_tryJoin {c : C} {key : Bytes} {g g' : WaitGroup.Sys C Bytes Bytes}
    {e : List (WaitGroup.Event C Bytes Bytes)} (hsys : Sys.Inv g)
    (hg : g.step (.tryJoin c key) = some (g', e)) {f : ℕ} (hf : f < g.group.next) :
    g'.group.published f = g.group.published f := by
  rcases (Sys.step_moves hg).published hsys with hpub | ⟨c', f', v, rfl, -⟩
  · exact hpub f hf
  · obtain ⟨-, f'', b, heq, -⟩ := tryJoin_cases hg
    cases heq

theorem receive_turn (hinv : Inv s tr gtr) {c : C} {req : Request} (hc : s.conn c = .reading)
    (h : s.receive c req = some (s', ev)) : Turn peers s (.receive c req) s' := by
  rw [receive] at h
  generalize hroute : s.route req.key = route at h
  split at h
  · rename_i hinfo
    cases h
    exact .performed hc (touches_of_conn (.replying ..) rfl (fun _ _ _ _ _ ↦ rfl) rfl)
      (Function.update_self ..) (Or.inl ⟨hinfo, rfl⟩)
  · cases route with
    | here =>
        rcases hres : serveLocal s.store req with ⟨resp, store⟩
        simp only [hres, Option.some.injEq, Prod.mk.injEq] at h
        obtain ⟨rfl, rfl⟩ := h
        exact .performed hc (touches_of_conn (.replying ..) rfl (fun _ _ _ _ _ ↦ rfl) rfl)
          (Function.update_self ..) (Or.inr ⟨hroute, hres.symm⟩)
    | remote owner address =>
        simp only at h
        split at h
        · rcases hg : s.group.step (.tryJoin c req.key) with - | ⟨group, e⟩
          · rw [hg] at h
            cases h
          · obtain ⟨hsys, -⟩ := Sys.run_inv hinv.group
            have hpub : ∀ d r' req' f, s.conn d = .waiting r' req' f →
                group.group.published f = s.group.group.published f :=
              fun d r' req' f hd ↦ published_tryJoin hsys hg (hinv.lt_of_waiting hd)
            obtain ⟨-, f, b, rfl, -, -, hjoin⟩ := tryJoin_cases hg
            rw [hg] at h
            cases b with
            | true =>
                obtain ⟨rfl, -⟩ := Prod.mk.inj (Option.some.inj h)
                exact .asked hc hroute (touches_of_conn (.proxying ..) rfl hpub rfl) rfl
            | false =>
                obtain ⟨rfl, -⟩ := Prod.mk.inj (Option.some.inj h)
                -- The fetch that is joined has no result yet.
                obtain ⟨hpending, -⟩ := hjoin rfl
                have hopen : group.group.published f = none := by
                  rw [published_tryJoin hsys hg (hsys.inOrder.pending_lt _ _ hpending)]
                  simp [published, hsys.inOrder.pending_open _ _ hpending]
                refine .asked hc hroute (touches_of_conn (.waiting ..) rfl hpub ?_) rfl
                simp [view, setConn, hopen]
        · cases h
          exact .asked hc hroute (touches_of_conn (.proxying ..) rfl (fun _ _ _ _ _ ↦ rfl) rfl) rfl

/-- `proxy_to_peer` returns. -/
theorem finish_touches {c : C} {r : ℕ} {req : Request} {handle : Option ℕ} {o : Outcome}
    (h : s.finish c r req handle o = some (s', ev)) :
    Touches s s' c (some (req, some o.response)) ∧ (s'.conn c).isCalling = false ∧
      s'.store = s.store := by
  cases handle with
  | none =>
      cases h
      refine ⟨touches_of_conn (.replying ..) rfl (fun _ _ _ _ _ ↦ rfl) rfl, ?_, rfl⟩
      simp only [setConn, Function.update_self]
      rfl
  | some f =>
      obtain ⟨⟨group, e⟩, hg, heq⟩ := Option.map_eq_some_iff.mp h
      cases heq
      obtain ⟨-, -, -, -, hgroup, -⟩ := complete_cases hg
      refine ⟨touches_of_conn (.completing ..) rfl (fun _ _ _ _ _ ↦ ?_) rfl, ?_, rfl⟩
      · simp only [setConn, hgroup]
      · simp only [setConn, Function.update_self]
        rfl

omit [DecidableEq C] in
theorem received_of_source {r : ℕ} {req : Request} {resp : Response} (h : Source tr r req resp) :
    ∃ c route, .received r c req route ∈ tr := by
  cases h with
  | here h => exact ⟨_, _, h⟩
  | proxied h => exact ⟨_, _, h⟩
  | waited h => exact ⟨_, _, h⟩

/-- A step inside `complete` or of the wait. -/
theorem collapse_turn (hinv : Inv s tr gtr) (hf : Fetching s tr)
    {a : WaitGroup.Action C Bytes Bytes} {group : WaitGroup.Sys C Bytes Bytes}
    {e : List (WaitGroup.Event C Bytes Bytes)} (hg : s.group.step a = some (group, e)) :
    Turn peers s (.collapse a) { s with group } := by
  obtain ⟨hsys, -⟩ := Sys.run_inv hinv.group
  rcases (Sys.step_moves hg).published hsys with hpub | ⟨c, f, v, -, hc, hopen, hpub⟩
  · refine .quiet rfl ?_ (fun _ ↦ rfl) (fun _ _ _ _ hd ↦ hd) rfl
    funext d
    exact view_congr fun r req f hd ↦ hpub f (hinv.lt_of_waiting hd)
  · obtain ⟨r, req, resp, hconn, rfl⟩ := hf.value c f v (by rw [hc]; rfl)
    have hjoined := hf.joined c r req f resp hconn
    have hget : req.opcode = .get := by
      have hsource := hinv.recorded c
      rw [hconn] at hsource
      obtain ⟨c₀, route, hreceived⟩ := received_of_source hsource
      obtain ⟨c₁, req', _, _, hreceived', hget, -⟩ := received_of_joined hinv.rule hjoined
      obtain ⟨-, rfl, -⟩ := received_unique hinv.rule hreceived hreceived'
      exact hget
    refine .shared hconn hget (fun d r' req' hd ↦ ⟨hinv.same_key hd hjoined, ?_, ?_⟩)
      (fun d hd ↦ ?_) rfl rfl
    · simp [front, hd, view, hopen]
    · simp [front, hd, view, hpub]
    · refine view_congr fun r' req' f' hf' ↦ ?_
      have hne : f' ≠ f := by
        rintro rfl
        exact hd r' req' hf'
      rw [hpub, Function.update_of_ne hne]

/-- The response has been known already. -/
theorem Touches.quiet {a : Action C O} {c : C} (ht : Touches s s' c (s.front c))
    (ha : isInward a = true) (hc : (s.conn c).isCalling = false)
    (hc' : (s'.conn c).isCalling = false) (hne : ∀ r req resp, s.conn c ≠ .replying r req resp)
    (hstore : s'.store = s.store) : Turn peers s a s' := by
  refine .quiet ha ?_ (fun d ↦ ?_) (fun d r req resp hd ↦ ?_) hstore
  · rw [ht.front, Function.update_eq_self]
  · by_cases hd : d = c
    · rw [hd, hc, hc']
    · rw [ht.conn d hd]
  · have hdc : d ≠ c := by
      rintro rfl
      exact hne r req resp hd
    rw [ht.conn d hdc, hd]

theorem turn_of_step (hrun : (machine C n peers).Run s tr) {a : Action C O}
    (h : s.step peers a = some (s', ev)) : Turn peers s a s' := by
  obtain ⟨gtr, hinv⟩ := run_inv hrun
  cases a with
  | receive c req =>
      simp only [step] at h
      split at h
      · exact receive_turn hinv (by assumption) h
      · cases h
  | serve c o =>
      simp only [step] at h
      split at h
      · obtain ⟨⟨resp, world⟩, hw, heq⟩ := Option.map_eq_some_iff.mp h
        cases heq
        refine .served (by assumption) hw
          (touches_of_conn (.proxying _ _ _ (.served resp)) rfl (fun _ _ _ _ _ ↦ rfl) rfl) ?_ rfl
        simp only [setConn, Function.update_self]
        rfl
      · cases h
  | reply c =>
      simp only [step] at h
      split at h
      · obtain ⟨ht, hcalling, hstore⟩ := finish_touches h
        exact .replied (by assumption) ht hcalling hstore
      · cases h
  | fail c =>
      simp only [step] at h
      split at h
      · obtain ⟨ht, hcalling, hstore⟩ := finish_touches h
        exact .failed (by assumption) ht hcalling hstore
      · obtain ⟨ht, hcalling, hstore⟩ := finish_touches h
        exact .failed (by assumption) ht hcalling hstore
      · cases h
  | collapse a =>
      obtain ⟨-, h⟩ := Option.ite_none_right_eq_some.mp h
      obtain ⟨⟨group, e⟩, hg, heq⟩ := Option.map_eq_some_iff.mp h
      cases heq
      exact collapse_turn hinv (fetching_of_run hrun) hg
  | leave c =>
      simp only [step] at h
      split at h
      · rename_i r req f resp hc hcoro
        cases h
        have hfront : s.front c = some (req, some resp) := by rw [front, hc]; rfl
        refine Touches.quiet (c := c) (hfront ▸ touches_of_conn (.replying r req resp) rfl
          (fun _ _ _ _ _ ↦ rfl) rfl) rfl (by rw [hc]; rfl) ?_ (by simp [hc]) rfl
        simp only [setConn, Function.update_self]
        rfl
      · cases h
  | obtain c =>
      simp only [step] at h
      split at h
      · rename_i r req f group d f' result hc hg
        cases h
        -- Who is ready waits for a fetch that has its result.
        obtain ⟨f₀, hready, heq, hgroup, -⟩ := awaitResume_cases hg
        obtain ⟨hsys, -⟩ := Sys.run_inv hinv.group
        have hagrees := hinv.agrees c
        rw [hc, hready] at hagrees
        obtain rfl : f₀ = f := by simpa [Agrees] using hagrees
        obtain ⟨-, hcompleted⟩ := hsys.owned.fits_of hready
        have hfront : s.front c = some (req, some (collapsed result)) := by
          simp only [List.cons.injEq, WaitGroup.Event.obtained.injEq, and_true] at heq
          rw [front, hc, view, published, hcompleted, heq.2.2]
          rfl
        refine Touches.quiet (c := c) (hfront ▸ touches_of_conn (.replying r req _) rfl
          (fun _ _ _ _ _ ↦ ?_) rfl) rfl (by rw [hc]; rfl) ?_ (by simp [hc]) rfl
        · simp only [setConn, hgroup]
        · simp only [setConn, Function.update_self]
          rfl
      · cases h
  | answer c =>
      simp only [step] at h
      split at h
      · cases h
        refine .answered (by assumption)
          (touches_of_conn .reading rfl (fun _ _ _ _ _ ↦ rfl) rfl) ?_ rfl
        simp only [setConn, Function.update_self]
        rfl
      · cases h
  | hangUp c =>
      have hclosed : ((s.setConn c .closed).conn c).isCalling = false := by
        simp only [setConn, Function.update_self]
        rfl
      have ht : Touches s (s.setConn c .closed) c none :=
        touches_of_conn .closed rfl (fun _ _ _ _ _ ↦ rfl) rfl
      simp only [step] at h
      split at h
      · cases h
        exact .hungUp (Or.inl (by assumption)) ht hclosed rfl
      · cases h
        exact .hungUp (Or.inr ⟨_, _, _, by assumption⟩) ht hclosed rfl
      · cases h
  | gossip ring members =>
      cases h
      exact .quiet rfl rfl (fun _ ↦ rfl) (fun _ _ _ _ hd ↦ hd) rfl
  | change o =>
      obtain ⟨world, -, heq⟩ := Option.map_eq_some_iff.mp h
      cases heq
      exact .quiet rfl rfl (fun _ ↦ rfl) (fun _ _ _ _ hd ↦ hd) rfl

end Coordinator

end Pensieve
