import Pensieve.Coordinator.Service
import Pensieve.Storage.Refinement

/-!
# Every value is somebody's

The coordinators of all nodes with their stores and what clients see of them, as in
`Pensieve.Coordinator.Service`.  A value may take many ways from the client that stores it to one
that reads it.  Requests are proxied, more than once if the nodes
do not agree on the ring; stores evict; GETs are collapsed; connections break at any point.

Nothing of this makes up a value or hands it out under another key: a GET that is answered `Ok` is
answered with what some client has put under that very key (`values_are_genuine`).
-/

namespace Pensieve

open Foundation

namespace Coordinator

variable {C : Type*} {n : ℕ} {W O : Type*} {P Q : Bytes → Bytes → Prop}

/-! ## The store -/

/-- Whatever the store holds satisfies `P`. -/
structure Keeps (P : Bytes → Bytes → Prop) (store : LocalStore n) : Prop where
  books : LocalStore.Books store fun _ ↦ none
  contents : ∀ k v, store.contents k = some v → P k v

/-- A call keeps `P` if what it puts satisfies it. -/
theorem Keeps.exec {store : LocalStore n} (h : Keeps P store) (op : Op)
    (hput : ∀ k v, op = .put k v → P k v) : Keeps P (store.exec op).2 := by
  obtain ⟨hbooks, hstep⟩ := LocalStore.exec_lossy h.books op
  refine ⟨hbooks, fun k v hv ↦ ?_⟩
  have happly : (LocalStore.effect (op, (store.exec op).1)).apply store.contents k = some v := by
    rcases hstep k with hnone | heq
    · rw [hnone] at hv
      cases hv
    · exact heq.symm.trans hv
  rcases Effect.apply_eq_some happly with hset | ⟨hold, -⟩
  · obtain ⟨rfl, -⟩ := Prod.mk.inj (LocalStore.effect_eq_set hset)
    exact hput k v rfl
  · exact h.contents k v hold

/-- What a GET may be answered: a value that satisfies `P`, that there is none, or an error. -/
def Genuine (P : Bytes → Bytes → Prop) (req : Request) (resp : Response) : Prop :=
  req.opcode = .get →
    resp.status = .ok ∧ P req.key resp.value ∨ resp = ⟨.notFound, []⟩ ∨ resp = ⟨.error, []⟩

theorem Genuine.mono {req : Request} {resp : Response} (h : Genuine P req resp)
    (hle : ∀ k v, P k v → Q k v) : Genuine Q req resp :=
  fun hget ↦ (h hget).imp_left fun hok ↦ ⟨hok.1, hle _ _ hok.2⟩

theorem Genuine.of_ok {req : Request} {resp : Response} (h : Genuine P req resp)
    (hget : req.opcode = .get) (hok : resp.status = .ok) : P req.key resp.value := by
  rcases h hget with ⟨-, hP⟩ | rfl | rfl
  · exact hP
  · cases hok
  · cases hok

theorem Keeps.serveLocal {store : LocalStore n} (h : Keeps P store) (req : Request)
    (hput : req.opcode = .put → P req.key req.value) :
    Keeps P (serveLocal store req).2 ∧ Genuine P req (serveLocal store req).1 := by
  have hget := h.exec (.get req.key) (by simp)
  have hdel := h.exec (.del req.key) (by simp)
  rw [Coordinator.serveLocal]
  split_ifs with hop hop' hop''
  · have hfst := LocalStore.get_fst h.books req.key
    simp only [LocalStore.exec] at hget
    split
    · rename_i value store' heq
      rw [heq] at hget hfst
      exact ⟨hget, fun _ ↦ Or.inl ⟨rfl, h.contents _ _ hfst.symm⟩⟩
    · rename_i store' heq
      rw [heq] at hget
      exact ⟨hget, fun _ ↦ Or.inr (Or.inl rfl)⟩
  · have hexec := h.exec (.put req.key req.value) (by rintro _ _ ⟨⟩; exact hput hop')
    exact ⟨hexec, fun hop ↦ absurd (hop'.symm.trans hop) (by decide)⟩
  · exact ⟨hdel, fun hop ↦ absurd (hop''.symm.trans hop) (by decide)⟩
  · exact ⟨h, fun hget ↦ absurd hget hop⟩

/-! ## One coordinator -/

/-- The response that has been decided on, with its request. -/
def decided : Conn → Option (Request × Response)
  | .completing _ req _ resp => some (req, resp)
  | .replying _ req resp => some (req, resp)
  | _ => none

/-- What a coordinator has been asked to put, what its peers have sent, what is in its store and
what it is about to answer satisfies `P`. -/
structure Honest (P : Bytes → Bytes → Prop) (s : Coordinator C n W) (tr : List (Event C O)) :
    Prop where
  store : Keeps P s.store
  asked : ∀ r c req route, .received r c req route ∈ tr → req.opcode = .put → P req.key req.value
  served : ∀ r a req resp, .served r a req resp ∈ tr → Genuine P req resp
  reply : ∀ c req resp, decided (s.conn c) = some (req, resp) → Genuine P req resp

theorem Honest.mono {s : Coordinator C n W} {tr : List (Event C O)} (h : Honest P s tr)
    (hle : ∀ k v, P k v → Q k v) : Honest Q s tr :=
  ⟨⟨h.store.books, fun k v hv ↦ hle k v (h.store.contents k v hv)⟩,
    fun r c req route hmem hput ↦ hle _ _ (h.asked r c req route hmem hput),
    fun r a req resp hmem ↦ (h.served r a req resp hmem).mono hle,
    fun c req resp hc ↦ (h.reply c req resp hc).mono hle⟩

variable [DecidableEq C] {peers : Peers W O} {s s' : Coordinator C n W}
  {tr ev : List (Event C O)} {gtr gtr' : List (WaitGroup.Event C Bytes Bytes)}

/-- The response to a GET that has been proxied. -/
theorem Honest.proxied (h : Honest P s tr) (hinv : Inv s tr gtr) {c : C} {r : ℕ} {req : Request}
    {handle : Option ℕ} {stage : Stage} {o : Outcome}
    (hc : s.conn c = .proxying r req handle stage) (ho : stage.Ends o) :
    Genuine P req o.response := by
  cases o with
  | noPeer => exact fun _ ↦ Or.inr (Or.inr rfl)
  | failed => exact fun _ ↦ Or.inr (Or.inr rfl)
  | replied resp =>
      have hrecorded := hinv.recorded c
      rw [hc] at hrecorded
      obtain ⟨-, -, hserved, -⟩ := hrecorded
      have hstage : stage = .served resp := by
        rcases stage with (- | a) | resp'
        · cases ho
        · cases ho
        · rcases ho with ho | ho
          · cases ho
          · cases ho
            rfl
      obtain ⟨address, hmem⟩ := hserved resp hstage
      exact h.served _ _ _ _ hmem

omit [DecidableEq C] in
/-- What came of a fetch, for the key that it was for. -/
theorem Honest.fetched (h : Honest P s tr) (hrule : Guarded Rule tr) {i f : ℕ} {key v : Bytes}
    {o : Outcome} (hi : .joined i key f true ∈ tr) (ho : .upstream i o ∈ tr)
    (hv : completion o.response = some v) : P key v := by
  obtain ⟨hok, heq⟩ := Option.ite_none_right_eq_some.mp hv
  cases Option.some.inj heq
  cases o with
  | noPeer => cases hok
  | failed => cases hok
  | replied resp =>
      obtain ⟨c, req, owner, address, hmem, hget, rfl⟩ := received_of_joined hrule hi
      obtain ⟨pre, post, htr, -, -, hserved⟩ := hrule.of_mem ho
      obtain ⟨a, req', hserved⟩ := hserved resp rfl
      have hmem' : .served i a req' resp ∈ tr := htr ▸ List.mem_append_left _ hserved
      obtain ⟨pre', post', htr', d, owner', hreceived⟩ := hrule.of_mem hmem'
      have hreceived' : .received i d req' (.remote owner' (some a)) ∈ tr :=
        htr' ▸ List.mem_append_left _ hreceived
      obtain ⟨-, rfl, -⟩ := received_unique hrule hmem hreceived'
      exact (h.served _ _ _ _ hmem').of_ok hget hok

omit [DecidableEq C] in
/-- The response to a GET that has waited. -/
theorem Honest.waited (h : Honest P s tr) (hrule : Guarded Rule tr) {r f : ℕ} {req : Request}
    {result : Option Bytes} (hjoined : .joined r req.key f false ∈ tr)
    (hsource : Source tr r req (collapsed result)) : Genuine P req (collapsed result) := by
  intro hget
  cases hsource with
  | here hmem hroute => exact absurd hroute (not_here_of_joined hrule hjoined hmem)
  | proxied hmem ho hresp hinitiator =>
      obtain ⟨f', hjoined'⟩ := hinitiator hget
      obtain ⟨-, -, hfalse⟩ := joined_unique hrule hjoined hjoined'
      cases hfalse
  | waited hmem hj hi ho hresp =>
      rename_i i f' o
      rw [hresp]
      rcases hv : completion o.response with - | v
      · exact Or.inr (Or.inl rfl)
      · exact Or.inl ⟨rfl, h.fetched hrule hi ho hv⟩

/-- **What one step of a coordinator keeps.**  The requests that come in and the responses of the
peers satisfy `P`. -/
theorem Steps.honest (h : Honest P s tr) (hinv : Inv s tr gtr) (hinv' : Inv s' (tr ++ ev) gtr')
    (hs : Steps peers s s' ev)
    (hasked : ∀ r c req route, .received r c req route ∈ ev → req.opcode = .put →
      P req.key req.value)
    (hserved : ∀ r a req resp, .served r a req resp ∈ ev → Genuine P req resp) :
    Honest P s' (tr ++ ev) := by
  have hasked' : ∀ r c req route, .received r c req route ∈ tr ++ ev → req.opcode = .put →
      P req.key req.value := fun r c req route hmem ↦
    (List.mem_append.mp hmem).elim (h.asked r c req route) (hasked r c req route)
  have hserved' : ∀ r a req resp, .served r a req resp ∈ tr ++ ev → Genuine P req resp :=
    fun r a req resp hmem ↦
      (List.mem_append.mp hmem).elim (h.served r a req resp) (hserved r a req resp)
  -- one connection moves on, to an answer that is honest or to something else
  have hmove : ∀ (t : Coordinator C n W) (c : C) (x : Conn), Keeps P t.store → t.conn = s.conn →
      (∀ req resp, decided x = some (req, resp) → Genuine P req resp) →
      Honest P (t.setConn c x) (tr ++ ev) := by
    intro t c x hstore hconn hx
    refine ⟨hstore, hasked', hserved', fun d req resp hd ↦ ?_⟩
    simp only [setConn, hconn] at hd
    by_cases hdc : d = c
    · rw [hdc, Function.update_self] at hd
      exact hx req resp hd
    · rw [Function.update_of_ne hdc] at hd
      exact h.reply d req resp hd
  cases hs with
  | @«local» c req resp store route hc hserve hroute =>
      have hboth : Keeps P store ∧ Genuine P req resp := by
        rcases hserve with ⟨hinfo, -, rfl⟩ | ⟨-, -, heq⟩
        · exact ⟨h.store, fun hget ↦ absurd (hinfo.symm.trans hget) (by decide)⟩
        · have hput : req.opcode = .put → P req.key req.value :=
            hasked s.next c req route (List.mem_singleton_self _)
          obtain ⟨rfl, rfl⟩ := Prod.mk.inj heq
          exact h.store.serveLocal req hput
      refine hmove _ c _ hboth.1 rfl ?_
      rintro _ _ ⟨⟩
      exact hboth.2
  | send hc hget hroute => exact hmove _ _ _ h.store rfl (by rintro _ _ ⟨⟩)
  | initiate hc hget hroute hg =>
      exact hmove _ _ _ h.store rfl (by rintro _ _ ⟨⟩)
  | join hc hget hroute hg => exact hmove _ _ _ h.store rfl (by rintro _ _ ⟨⟩)
  | serve hc hw => exact hmove _ _ _ h.store rfl (by rintro _ _ ⟨⟩)
  | finish hc ho =>
      refine hmove _ _ _ h.store rfl ?_
      rintro _ _ ⟨⟩
      exact h.proxied hinv hc ho
  | complete hc ho hg =>
      refine hmove _ _ _ h.store rfl ?_
      rintro _ _ ⟨⟩
      exact h.proxied hinv hc ho
  | collapse ha hg => exact ⟨h.store, hasked', hserved', h.reply⟩
  | leave hc hg =>
      refine hmove _ _ _ h.store rfl ?_
      rintro _ _ ⟨⟩
      exact h.reply _ _ _ (by rw [hc]; rfl)
  | @obtain c d r req f f' result group hc hg =>
      refine hmove _ _ _ h.store rfl ?_
      rintro _ _ ⟨⟩
      have hwaiting := hinv.recorded c
      rw [hc] at hwaiting
      have hsource := hinv'.recorded c
      simp only [setConn, Function.update_self, List.append_nil] at hsource
      exact h.waited hinv.rule hwaiting.2 hsource
  | answer hc => exact hmove _ _ _ h.store rfl (by rintro _ _ ⟨⟩)
  | hangUp hc => exact hmove _ _ _ h.store rfl (by rintro _ _ ⟨⟩)
  | gossip => exact ⟨h.store, hasked', hserved', h.reply⟩
  | change hw => exact ⟨h.store, hasked', hserved', h.reply⟩

/-- What a step of a run keeps. -/
theorem Honest.step {a : Action C O} (h : Honest P s tr) (hrun : (machine C n peers).Run s tr)
    (hs : s.step peers a = some (s', ev))
    (hasked : ∀ c req, a = .receive c req → req.opcode = .put → P req.key req.value)
    (hserved : ∀ c o r req handle address resp world, a = .serve c o →
      s.conn c = .proxying r req handle (.calling (some address)) →
      peers.serve s.world o address req = some (resp, world) → Genuine P req resp) :
    Honest P s' (tr ++ ev) := by
  obtain ⟨gtr, hinv⟩ := run_inv hrun
  obtain ⟨gtr', hinv'⟩ := run_inv (hrun.step hs)
  obtain ⟨-, hreceived, hserve⟩ := step_conn hs
  refine (step_steps hs).honest h hinv hinv' (fun r c req route hmem ↦ ?_)
    fun r address req resp hmem ↦ ?_
  · exact hasked c req (hreceived r c req route hmem)
  · obtain ⟨c, o, handle, world, ha, hc, hw⟩ := hserve r address req resp hmem
    exact hserved c o r req handle address resp world ha hc hw

end Coordinator

/-! ## All nodes -/

namespace Grid

open Coordinator

variable {C : Type*} [DecidableEq C] {n : ℕ} {P Q : Bytes → Bytes → Prop}
  {listens : Address → Option NodeId} {g g' : Grid C n} {x : NodeId}
  {a : Coordinator.Action C Response}

/-- The coordinators of all nodes are honest, each with what it has seen. -/
def AllHonest (P : Bytes → Bytes → Prop) (g : Grid C n) : Prop :=
  ∀ x, ∃ t, (Coordinator.machine C n anyPeers).Run (g.node x) t ∧ (g.node x).Honest P t

theorem AllHonest.mono (h : g.AllHonest P) (hle : ∀ k v, P k v → Q k v) : g.AllHonest Q := by
  intro x
  obtain ⟨t, hrun, hhonest⟩ := h x
  exact ⟨t, hrun, hhonest.mono hle⟩

theorem AllHonest.take (h : g.AllHonest P) (hstep : g.take x a = some g')
    (hasked : ∀ c req, a = .receive c req → req.opcode = .put → P req.key req.value)
    (hserved : ∀ c resp r req handle address, a = .serve c resp →
      (g.node x).conn c = .proxying r req handle (.calling (some address)) →
      Genuine P req resp) : g'.AllHonest P := by
  obtain ⟨s, ev, hs, rfl⟩ := take_eq_some hstep
  intro z
  by_cases hz : z = x
  · subst hz
    rw [node_move_self]
    obtain ⟨t, hrun, hhonest⟩ := h z
    refine ⟨t ++ ev, hrun.step hs, hhonest.step hrun hs hasked ?_⟩
    intro c o r req handle address resp world ha hc hw
    obtain ⟨rfl, -⟩ := Prod.mk.inj (Option.some.inj hw)
    exact hserved c o r req handle address ha hc
  · rw [node_move_of_ne hz]
    exact h z

/-- A request that is on its way after a step was so before, unless its connection was free. -/
theorem calling_of_take {y : NodeId} {c : C} {r : ℕ} {req : Request} {handle : Option ℕ}
    {address : Option Address} (hstep : g.take x a = some g')
    (hc : (g'.node y).conn c = .proxying r req handle (.calling address)) :
    (g.node y).conn c = .proxying r req handle (.calling address) ∨
      (g.node y).conn c = .reading := by
  obtain ⟨s, ev, hs, rfl⟩ := take_eq_some hstep
  by_cases hy : y = x
  · subst hy
    rw [node_move_self] at hc
    exact (calling_of_steps (step_steps hs) hc).imp_right And.left
  · rw [node_move_of_ne hy] at hc
    exact Or.inl hc

/-- A request that is proxied has come in before, from a client or another node. -/
theorem AllHonest.proxied (h : g.AllHonest P) {c : C} {r : ℕ} {req : Request}
    {handle : Option ℕ} {stage : Stage} (hc : (g.node x).conn c = .proxying r req handle stage)
    (hput : req.opcode = .put) : P req.key req.value := by
  obtain ⟨t, hrun, hhonest⟩ := h x
  obtain ⟨gtr, hinv⟩ := Coordinator.run_inv hrun
  have hrecorded := hinv.recorded c
  rw [hc] at hrecorded
  obtain ⟨⟨owner, address, hreceived, -⟩, -⟩ := hrecorded
  exact hhonest.asked r c req _ hreceived hput

theorem AllHonest.reply (h : g.AllHonest P) {c : C} {r : ℕ} {req : Request} {resp : Response}
    (hc : (g.node x).conn c = .replying r req resp) : Genuine P req resp := by
  obtain ⟨t, -, hhonest⟩ := h x
  exact hhonest.reply c req resp (by rw [hc]; rfl)

end Grid

namespace Service

open Coordinator RingStore

variable {C : Type*} {n : ℕ}

/-- Some client has put the value under the key. -/
def WasPut (tr : List (ClientEvent C)) (key value : Bytes) : Prop :=
  ∃ x c req, .asked x c req ∈ tr ∧ req.opcode = .put ∧ req.key = key ∧ req.value = value

theorem WasPut.append {tr ev : List (ClientEvent C)} {key value : Bytes}
    (h : WasPut tr key value) : WasPut (tr ++ ev) key value := by
  obtain ⟨x, c, req, hmem, hput⟩ := h
  exact ⟨x, c, req, List.mem_append_left _ hmem, hput⟩

variable [DecidableEq C] {listens : Address → Option NodeId} {s s' : Service C n}
  {tr ev : List (ClientEvent C)}

/-- What holds of a service that clients have seen do `tr`. -/
structure Whole (listens : Address → Option NodeId) (s : Service C n) (tr : List (ClientEvent C)) :
    Prop where
  inv : Inv listens s
  honest : s.grid.AllHonest (WasPut tr)
  abandoned : ∀ e ∈ s.abandoned, e.2.opcode = .put → WasPut tr e.2.key e.2.value

omit [DecidableEq C] in
/-- What a step gives up was on its way. -/
theorem proxying_of_dropped {x : NodeId} {a : Coordinator.Action C Response}
    {e : Address × Request} (he : e ∈ s.dropped (.own x a)) :
    ∃ c r handle, (s.grid.node x).conn c = .proxying r e.2 handle (.calling (some e.1)) := by
  cases a with
  | fail c =>
      simp only [dropped] at he
      split at he
      · rename_i r req handle address hc
        split_ifs at he
        · obtain rfl := List.mem_singleton.mp he
          exact ⟨c, r, handle, hc⟩
        · cases he
      · cases he
  | _ => cases he

omit [DecidableEq C] in
/-- Clients are answered what a connection has decided on. -/
theorem replying_of_observe {x y : NodeId} {a : Coordinator.Action C Response} {c : C}
    {req : Request} {resp : Response} (he : .answered y c req resp ∈ s.observe (.own x a)) :
    ∃ r, (s.grid.node y).conn c = .replying r req resp := by
  cases a with
  | answer d =>
      simp only [observe] at he
      split at he
      · rename_i r req' resp' hd
        split_ifs at he
        · cases he
        · cases List.mem_singleton.mp he
          exact ⟨r, hd⟩
      · cases he
  | receive d req' => cases List.mem_singleton.mp he
  | _ => cases he

theorem Whole.moves (h : Whole listens s tr) {a : Action C} (hm : Moves listens s a s' ev) :
    Whole listens s' (tr ++ ev) := by
  have hinv := h.inv.moves hm
  have hhonest : s.grid.AllHonest (WasPut (tr ++ ev)) := h.honest.mono fun _ _ ↦ WasPut.append
  have habandoned : ∀ e ∈ s.abandoned, e.2.opcode = .put →
      WasPut (tr ++ ev) e.2.key e.2.value :=
    fun e he hput ↦ (h.abandoned e he hput).append
  cases hm with
  | @own x a g hown htake =>
      refine ⟨hinv, hhonest.take htake ?_ ?_, fun e he hput ↦ ?_⟩
      · rintro c req rfl hput
        exact ⟨x, c, req, List.mem_append_right _ (List.mem_singleton_self _), hput, rfl, rfl⟩
      · rintro c resp r req handle address rfl
        cases hown
      · rcases List.mem_append.mp he with he | he
        · obtain ⟨c, r, handle, hc⟩ := proxying_of_dropped he
          exact hhonest.proxied hc hput
        · exact habandoned e he hput
  | call hc hlistens hlink hcaller htake =>
      have hhonest' := hhonest.take htake
        (by rintro _ _ ⟨⟩ hput; exact hhonest.proxied hc hput) (by simp)
      exact ⟨hinv, fun z ↦ hhonest' z, habandoned⟩
  | @«return» x y c d r req resp g₁ g hlink hd hanswer hserve =>
      -- The response is that of a connection which has the same request.
      obtain ⟨-, r', req', handle, address, hc, hreq⟩ := h.inv.paired _ _ trivial hlink
      obtain rfl : req = req' := by
        simp only [hd] at hreq
        exact Option.some.inj hreq
      have hgenuine := hhonest.reply hd
      have hhonest₁ := hhonest.take hanswer (by simp) (by simp)
      refine ⟨hinv, hhonest₁.take hserve (by simp) ?_, habandoned⟩
      rintro _ _ r₁ req₁ handle₁ address₁ ⟨⟩ hc₁
      rcases Grid.calling_of_take hanswer hc₁ with hbefore | hreading
      · cases hc.symm.trans hbefore
        exact hgenuine
      · cases hc.symm.trans hreading
  | late hi hlistens hcaller htake =>
      have hmem := List.mem_of_getElem? hi
      refine ⟨hinv, hhonest.take htake ?_ (by simp),
        fun e he ↦ habandoned e (List.mem_of_mem_eraseIdx he)⟩
      rintro _ _ ⟨⟩ hput
      exact habandoned _ hmem hput

theorem Whole.answers (h : Whole listens s tr) {a : Action C} (hm : Moves listens s a s' ev)
    {y : NodeId} {c : C} {req : Request} {resp : Response} (he : .answered y c req resp ∈ ev) :
    Genuine (WasPut tr) req resp := by
  cases hm with
  | own hown htake =>
      obtain ⟨r, hc⟩ := replying_of_observe he
      exact h.honest.reply hc
  | call | «return» | late => cases he

theorem whole_of_init (h : (machine C n listens).init s) : Whole listens s [] := by
  have hinv := run_inv (.init h)
  obtain ⟨⟨hnode, -, -⟩, hstore, -, habandoned⟩ := h
  refine ⟨hinv, fun x ↦ ⟨[], .init (hnode x).1, ?_⟩, by simp [habandoned]⟩
  obtain ⟨arena, harena⟩ := hstore x
  obtain ⟨⟨-, hconn, -⟩, -⟩ := hnode x
  refine ⟨⟨?_, fun k v hv ↦ ?_⟩, by simp, by simp, fun c req resp hc ↦ ?_⟩
  · rw [harena]
    exact LocalStore.books_init arena n
  · rw [harena] at hv
    cases hv
  · rw [hconn] at hc
    cases hc

/-- What an answer must be. -/
def Rule (past : List (ClientEvent C)) : ClientEvent C → Prop
  | .asked _ _ _ => True
  | .answered _ _ req resp => Genuine (WasPut past) req resp

/-- **Every value is somebody's.**  In every run of the coordinators of all nodes, whatever rings
and tables they hold, wherever the addresses in these lead, however often requests are proxied,
wherever connections break and whenever a request comes in that was given up: what any node's store
holds under a key has been put under that key by a client of some node, and a GET is answered with
such a value, put before, or else with `NotFound` or `Error` and no value. -/
theorem values_are_genuine (C : Type*) [DecidableEq C] (n : ℕ)
    (listens : Address → Option NodeId) (s : Service C n) (tr : List (ClientEvent C))
    (hrun : (machine C n listens).Run s tr) :
    (∀ x key value, ((s.grid.node x).store.get key).1 = some value → WasPut tr key value) ∧
      Guarded Rule tr := by
  have hall : Whole listens s tr ∧ Guarded Rule tr := by
    refine hrun.invariant (I := fun s tr ↦ Whole listens s tr ∧ Guarded Rule tr)
      (fun s hinit ↦ ⟨whole_of_init hinit, guarded_nil⟩) ?_
    intro s tr a s' ev _ ⟨hwhole, hrule⟩ hstep
    refine ⟨hwhole.moves (step_moves hstep), hrule.append ?_⟩
    rintro pre e post rfl
    cases e with
    | asked => trivial
    | answered y c req resp =>
        exact (hwhole.answers (step_moves hstep)
          (List.mem_append_right _ List.mem_cons_self)).mono fun _ _ ↦ WasPut.append
  refine ⟨fun x key value hvalue ↦ ?_, hall.2⟩
  obtain ⟨t, -, hhonest⟩ := hall.1.honest x
  exact hhonest.store.contents key value
    ((LocalStore.get_fst hhonest.store.books key).symm.trans hvalue)

/-! ## Two nodes

All keys are on `b`, and the clients talk to `a`. -/

def nodeA : NodeId := ⟨[97], 7946⟩

def nodeB : NodeId := ⟨[98], 7946⟩

/-- The nodes hold one ring, on which all tokens are those of `b`. -/
def twoNodes : Service ℕ 0 where
  grid :=
    { node := fun x ↦ { onePeer () with self := x }
      link := fun _ ↦ none
      caller := fun _ ↦ none }
  orphan _ := false
  abandoned := []

/-- The node `b` listens at its address. -/
def bListens (address : Address) : Option NodeId :=
  if address = ([98], 11211) then some nodeB else none

theorem init_twoNodes : (machine ℕ 0 bListens).init twoNodes :=
  ⟨⟨fun _ ↦ ⟨⟨rfl, fun _ ↦ rfl, rfl⟩, rfl⟩, fun _ ↦ rfl, fun _ ↦ rfl⟩,
    fun _ ↦ ⟨⟨1048576, false⟩, rfl⟩, fun _ ↦ rfl, rfl⟩

/-- What `a` proxies on a connection comes in at `b` and is answered. -/
def fetchFromB (c : ℕ) : List (Action ℕ) :=
  [.grid (.call nodeA c nodeB c), .grid (.return nodeA c), .grid (.own nodeA (.reply c))]

/-- A client puts the value `v`. -/
def putAtA : List (Action ℕ) :=
  [.grid (.own nodeA (.receive 0 ⟨.put, [107], [118]⟩))] ++ fetchFromB 0 ++
    [.grid (.own nodeA (.answer 0))]

/-- Two clients ask for it at once, and share what comes of the fetch. -/
def getsAtA (fetch : List (Action ℕ)) : List (Action ℕ) :=
  let atA (a : Coordinator.Action ℕ Response) : Action ℕ := .grid (.own nodeA a)
  [atA (.receive 0 ⟨.get, [107], []⟩), atA (.receive 1 ⟨.get, [107], []⟩)] ++ fetch ++
    [atA (.collapse (.takePending 0)), atA (.collapse (.publish 0)),
      atA (.collapse (.return 0)), atA (.leave 0), atA (.answer 0),
      atA (.collapse (.awaitReady 1)), atA (.obtain 1), atA (.answer 1)]

/-- What a client sees of the PUT. -/
def putSeen : List (ClientEvent ℕ) :=
  [.asked nodeA 0 ⟨.put, [107], [118]⟩, .answered nodeA 0 ⟨.put, [107], [118]⟩ ⟨.ok, []⟩]

/-- What clients see of the GETs. -/
def getsSeen (resp resp' : Response) : List (ClientEvent ℕ) :=
  [.asked nodeA 0 ⟨.get, [107], []⟩, .asked nodeA 1 ⟨.get, [107], []⟩,
    .answered nodeA 0 ⟨.get, [107], []⟩ resp, .answered nodeA 1 ⟨.get, [107], []⟩ resp']

/-- The PUT and both GETs are proxied, and the second GET is collapsed into the first. -/
theorem values_are_genuine_proxied :
    ∃ s, (machine ℕ 0 bListens).exec twoNodes (putAtA ++ getsAtA (fetchFromB 0)) =
        some (s, putSeen ++ getsSeen ⟨.ok, [118]⟩ ⟨.ok, [118]⟩) ∧
      ((s.grid.node nodeA).store.get [107]).1 = none ∧
      ((s.grid.node nodeB).store.get [107]).1 = some [118] ∧
      WasPut (putSeen ++ getsSeen ⟨.ok, [118]⟩ ⟨.ok, [118]⟩) [107] [118] ∧
      Guarded Rule (putSeen ++ getsSeen ⟨.ok, [118]⟩ ⟨.ok, [118]⟩) := by
  have hseen : ((machine ℕ 0 bListens).exec twoNodes (putAtA ++ getsAtA (fetchFromB 0))).map
      (fun x ↦ (x.2, ((x.1.grid.node nodeA).store.get [107]).1,
        ((x.1.grid.node nodeB).store.get [107]).1)) =
      some (putSeen ++ getsSeen ⟨.ok, [118]⟩ ⟨.ok, [118]⟩, none, some [118]) := by
    decide +kernel
  obtain ⟨⟨s, tr⟩, hexec, heq⟩ := Option.map_eq_some_iff.mp hseen
  obtain ⟨rfl, hb⟩ := Prod.mk.inj heq
  obtain ⟨ha, hb⟩ := Prod.mk.inj hb
  have hrun := (Machine.Run.init init_twoNodes).exec hexec
  obtain ⟨hstored, hrule⟩ := values_are_genuine ℕ 0 bListens s _ hrun
  exact ⟨s, hexec, ha, hb, hstored nodeB [107] [118] hb, hrule⟩

end Service

end Pensieve
