import Pensieve.Coordinator.Grid

/-!
# The coordinators of all nodes as a service

`Pensieve.Coordinator.Grid` runs the coordinators of all nodes, with links from the requests they
proxy to the connections these come in on.  Here clients are added: `ClientEvent` is what they see
of a step.

A node that gives up on a request cannot take it back.  If it has come in at the peer, the peer
goes on with it, on a connection on which nobody waits any more (`orphan`).  If it has not, it may
come in later (`abandoned`).
-/

namespace Pensieve

open Foundation

namespace Coordinator

variable {C : Type*} {n : ℕ} {W O : Type*} [DecidableEq C] {peers : Peers W O}
  {s s' : Coordinator C n W} {ev : List (Event C O)}

theorem isCalling_serve {c : C} {o : O} (h : s.step peers (.serve c o) = some (s', ev)) :
    (s'.conn c).isCalling = false := by
  simp only [step] at h
  split at h
  · obtain ⟨⟨resp, world⟩, -, heq⟩ := Option.map_eq_some_iff.mp h
    cases heq
    simp only [setConn, Function.update_self]
    rfl
  · cases h

end Coordinator

namespace Grid

open Coordinator

variable {C : Type*} {n : ℕ}

/-! ## Links -/

/-- The request on the connection `q` has come from the connection `p`. -/
structure Pair (g : Grid C n) (p q : NodeId × C) : Prop where
  caller : g.caller q = some p
  same : ∃ r req handle address,
    (g.node p.1).conn p.2 = .proxying r req handle (.calling (some address)) ∧
      request ((g.node q.1).conn q.2) = some req

/-- The links are as they should be, where `ok` holds. -/
def Paired (ok : NodeId × C → Prop) (g : Grid C n) : Prop :=
  ∀ p q, ok p → g.link p = some q → g.Pair p q

variable [DecidableEq C] {listens : Address → Option NodeId} {g g' : Grid C n} {x : NodeId}
  {a : Coordinator.Action C Response} {ok : NodeId × C → Prop}

/-- A request stays where it is until it is answered or its connection breaks. -/
theorem request_of_take (hinv : Inv listens g) (hstep : g.take x a = some g')
    {q : NodeId × C} {req : Request} (hq : request ((g.node q.1).conn q.2) = some req)
    (hfree : q.1 = x → a ≠ .answer q.2 ∧ a ≠ .hangUp q.2) :
    request ((g'.node q.1).conn q.2) = some req := by
  obtain ⟨s, ev, hs, rfl, -⟩ := hinv.take hstep
  by_cases hx : q.1 = x
  · obtain ⟨hanswer, hhangUp⟩ := hfree hx
    rw [hx] at hq ⊢
    rw [node_move_self]
    exact request_of_step hs hq hanswer hhangUp
  · rw [node_move_of_ne hx]
    exact hq

/-- A node takes a step in which it lets go of no request that has come over a link. -/
theorem Paired.take (h : g.Paired ok) (hinv : Inv listens g)
    (hstep : g.take x a = some g')
    (hfree : ∀ d, a = .answer d ∨ a = .hangUp d → ∀ p, ok p → g.link p ≠ some (x, d)) :
    g'.Paired ok := by
  obtain ⟨s, ev, hs, hg, -⟩ := hinv.take hstep
  rintro ⟨z, e⟩ q hok hlink
  rw [hg] at hlink
  obtain ⟨hkept, hbefore⟩ := Option.ite_none_right_eq_some.mp hlink
  obtain ⟨hcaller, r, req, handle, address, hconn, hreq⟩ := h _ _ hok hbefore
  refine ⟨?_, r, req, handle, address, ?_, request_of_take hinv hstep hreq ?_⟩
  · simp only [hg, move, hcaller, Option.filter_some, hkept, if_true]
  · rw [hg]
    by_cases hz : z = x
    · subst hz
      rw [node_move_self]
      have hcalling : (s.conn e).isCalling = true := by simpa using hkept
      obtain ⟨r', req', handle', address', hc'⟩ := isCalling_eq_true hcalling
      rcases calling_of_steps (step_steps hs) hc' with heq | ⟨hreading, -⟩
      · rw [hc', ← heq]
        exact hconn
      · rw [hreading] at hconn
        cases hconn
    · rw [node_move_of_ne hz]
      exact hconn
  · rintro rfl
    exact ⟨fun ha ↦ hfree q.2 (Or.inl ha) _ hok hbefore,
      fun ha ↦ hfree q.2 (Or.inr ha) _ hok hbefore⟩

omit [DecidableEq C] in
theorem link_move {s : Coordinator C n Unit} {p q : NodeId × C}
    (h : (g.move x s).link p = some q) : g.link p = some q :=
  (Option.ite_none_right_eq_some.mp h).2

omit [DecidableEq C] in
theorem caller_move_eq_none {s : Coordinator C n Unit} {q : NodeId × C} (h : g.caller q = none) :
    (g.move x s).caller q = none := by
  simp only [move, h, Option.filter_none]

/-- Whoever is somebody's caller has a link to them. -/
def Back (g : Grid C n) : Prop := ∀ p q, g.caller q = some p → g.link p = some q

omit [DecidableEq C] in
theorem Back.move (h : g.Back) (s : Coordinator C n Unit) : (g.move x s).Back := by
  intro p q hq
  obtain ⟨hcaller, hkept⟩ := Option.filter_eq_some_iff.mp hq
  exact (if_pos hkept).trans (h p q hcaller)

theorem Back.connect (h : g.Back) {p q : NodeId × C} (hp : g.link p = none) :
    (g.connect p q).Back := by
  intro p' q' hq'
  simp only [Grid.connect] at hq' ⊢
  by_cases hqq : q' = q
  · subst hqq
    cases (Function.update_self ..).symm.trans hq'
    exact Function.update_self ..
  · have hlink := h p' q' ((Function.update_of_ne hqq ..).symm.trans hq')
    have hpp : p' ≠ p := by
      rintro rfl
      rw [hp] at hlink
      cases hlink
    exact (Function.update_of_ne hpp ..).trans hlink

/-- The request of `p` has come in at `q`. -/
theorem Paired.connect (h : g.Paired fun _ ↦ True) {p q : NodeId × C} {r : ℕ} {req : Request}
    {handle : Option ℕ} {address : Address}
    (hp : (g.node p.1).conn p.2 = .proxying r req handle (.calling (some address)))
    (hq : request ((g.node q.1).conn q.2) = some req) (hcaller : g.caller q = none) :
    (g.connect p q).Paired fun _ ↦ True := by
  intro p' q' _ hlink
  simp only [Grid.connect] at hlink
  by_cases hpp : p' = p
  · subst hpp
    cases (Function.update_self ..).symm.trans hlink
    exact ⟨Function.update_self .., r, req, handle, address, hp, hq⟩
  · have hpair := h p' q' trivial ((Function.update_of_ne hpp ..).symm.trans hlink)
    refine ⟨?_, hpair.same⟩
    have hqq : q' ≠ q := by
      rintro rfl
      cases hcaller.symm.trans hpair.caller
    exact (Function.update_of_ne hqq ..).trans hpair.caller

end Grid

/-! ## The service -/

/-- What clients see. -/
inductive ClientEvent (C : Type*) where
  | asked (x : NodeId) (c : C) (req : Request)
  | answered (x : NodeId) (c : C) (req : Request) (resp : Response)
deriving DecidableEq

/-- The coordinators of all nodes, and what has become of the requests that were given up. -/
structure Service (C : Type*) (n : ℕ) where
  grid : Grid C n
  /-- Connections whose caller has given up. -/
  orphan : NodeId × C → Bool
  /-- Requests that were given up before they came in, with the address they were sent to. -/
  abandoned : List (Address × Request)

namespace Service

open Coordinator

variable {C : Type*} {n : ℕ}

/-- What the environment decides. -/
inductive Action (C : Type*) where
  | grid (a : Grid.Action C)
  /-- A request that has been given up comes in. -/
  | late (y : NodeId) (d : C) (i : ℕ)

/-- What clients see of a step. -/
def observe (s : Service C n) : Grid.Action C → List (ClientEvent C)
  | .own x (.receive c req) => [.asked x c req]
  | .own x (.answer c) =>
    match (s.grid.node x).conn c with
    | .replying _ req resp => if s.orphan (x, c) then [] else [.answered x c req resp]
    | _ => []
  | _ => []

/-- Connections on which nobody waits once the grid has become `g`. -/
def orphaned (s : Service C n) (g : Grid C n) (q : NodeId × C) : Bool :=
  (request ((g.node q.1).conn q.2)).isSome &&
    (s.orphan q || (s.grid.caller q).isSome && (g.caller q).isNone)

/-- The request that a step gives up before it has come in. -/
def dropped (s : Service C n) : Grid.Action C → List (Address × Request)
  | .own x (.fail c) =>
    match (s.grid.node x).conn c with
    | .proxying _ req _ (.calling (some address)) =>
      if (s.grid.link (x, c)).isNone then [(address, req)] else []
    | _ => []
  | _ => []

variable [DecidableEq C]

/-- One step of the service. -/
def step (listens : Address → Option NodeId) (s : Service C n) :
    Action C → Option (Service C n × List (ClientEvent C))
  | .grid a =>
    (s.grid.step listens a).map fun r ↦
      ({ grid := r.1
         orphan := s.orphaned r.1
         abandoned := s.dropped a ++ s.abandoned }, s.observe a)
  | .late y d i =>
    match s.abandoned[i]? with
    | none => none
    | some (address, req) =>
      if listens address = some y ∧ s.grid.caller (y, d) = none then
        (s.grid.take y (.receive d req)).map fun g ↦
          ({ grid := g
             orphan := Function.update s.orphan (y, d) true
             abandoned := s.abandoned.eraseIdx i }, [])
      else none

/-- The coordinators at their start, with empty stores. -/
def machine (C : Type*) [DecidableEq C] (n : ℕ) (listens : Address → Option NodeId) :
    Machine (Service C n) (Action C) (ClientEvent C) where
  init s := (Grid.machine C n listens).init s.grid ∧
    (∀ x, ∃ arena, (s.grid.node x).store = LocalStore.init arena n) ∧
    (∀ p, s.orphan p = false) ∧ s.abandoned = []
  step := step listens

/-! ## What a step can do -/

/-- The steps, each with its guard and its outcome. -/
inductive Moves (listens : Address → Option NodeId) (s : Service C n) :
    Action C → Service C n → List (ClientEvent C) → Prop
  | own {x : NodeId} {a : Coordinator.Action C Response} {g : Grid C n}
      (hown : s.grid.isOwn x a = true) (htake : s.grid.take x a = some g) :
      Moves listens s (.grid (.own x a))
        ⟨g, s.orphaned g, s.dropped (.own x a) ++ s.abandoned⟩ (s.observe (.own x a))
  | call {x y : NodeId} {c d : C} {r : ℕ} {req : Request} {handle : Option ℕ} {address : Address}
      {g : Grid C n}
      (hc : (s.grid.node x).conn c = .proxying r req handle (.calling (some address)))
      (hlistens : listens address = some y) (hlink : s.grid.link (x, c) = none)
      (hcaller : s.grid.caller (y, d) = none)
      (htake : s.grid.take y (.receive d req) = some g) :
      Moves listens s (.grid (.call x c y d))
        ⟨g.connect (x, c) (y, d), s.orphaned (g.connect (x, c) (y, d)), s.abandoned⟩ []
  | return {x y : NodeId} {c d : C} {r : ℕ} {req : Request} {resp : Response} {g₁ g : Grid C n}
      (hlink : s.grid.link (x, c) = some (y, d))
      (hd : (s.grid.node y).conn d = .replying r req resp)
      (hanswer : s.grid.take y (.answer d) = some g₁)
      (hserve : g₁.take x (.serve c resp) = some g) :
      Moves listens s (.grid (.return x c)) ⟨g, s.orphaned g, s.abandoned⟩ []
  | late {y : NodeId} {d : C} {i : ℕ} {req : Request} {address : Address} {g : Grid C n}
      (hi : s.abandoned[i]? = some (address, req)) (hlistens : listens address = some y)
      (hcaller : s.grid.caller (y, d) = none)
      (htake : s.grid.take y (.receive d req) = some g) :
      Moves listens s (.late y d i)
        ⟨g, Function.update s.orphan (y, d) true, s.abandoned.eraseIdx i⟩ []

variable {listens : Address → Option NodeId} {s s' : Service C n} {ev : List (ClientEvent C)}

theorem step_moves {a : Action C} (h : s.step listens a = some (s', ev)) :
    Moves listens s a s' ev := by
  cases a with
  | grid a =>
      obtain ⟨⟨g, hops⟩, hstep, heq⟩ := Option.map_eq_some_iff.mp h
      cases heq
      clear h
      cases a with
      | own x a =>
          obtain ⟨hown, hstep⟩ := Option.ite_none_right_eq_some.mp hstep
          obtain ⟨g₁, htake, heq⟩ := Option.map_eq_some_iff.mp hstep
          cases heq
          exact .own hown htake
      | call x c y d =>
          rw [Grid.step] at hstep
          split at hstep
          · rename_i r req handle address hc
            obtain ⟨⟨hlistens, hlink, hcaller⟩, hstep⟩ :=
              Option.ite_none_right_eq_some.mp hstep
            obtain ⟨g₁, htake, heq⟩ := Option.map_eq_some_iff.mp hstep
            cases heq
            exact .call hc hlistens hlink hcaller htake
          · cases hstep
      | «return» x c =>
          rw [Grid.step] at hstep
          split at hstep
          · cases hstep
          · rename_i y d hlink
            split at hstep
            · rename_i r req resp hd
              obtain ⟨g₁, hbind, heq⟩ := Option.map_eq_some_iff.mp hstep
              cases heq
              obtain ⟨g₂, hanswer, hserve⟩ := Option.bind_eq_some_iff.mp hbind
              exact .return hlink hd hanswer hserve
            · cases hstep
  | late y d i =>
      rw [step] at h
      split at h
      · cases h
      · rename_i address req hi
        obtain ⟨⟨hlistens, hcaller⟩, h⟩ := Option.ite_none_right_eq_some.mp h
        obtain ⟨g, htake, heq⟩ := Option.map_eq_some_iff.mp h
        cases heq
        exact .late hi hlistens hcaller htake

/-! ## The invariant -/

/-- What holds of a service: links lead both ways, and a connection without a request is nobody's
orphan. -/
structure Inv (listens : Address → Option NodeId) (s : Service C n) : Prop where
  grid : Grid.Inv listens s.grid
  paired : s.grid.Paired fun _ ↦ True
  back : s.grid.Back
  busy : ∀ q, s.orphan q = true → (request ((s.grid.node q.1).conn q.2)).isSome = true

omit [DecidableEq C] in
/-- Requests that have come in over a link are not answered by the node on its own. -/
theorem Inv.link_ne_of_isOwn (h : Inv listens s) {x : NodeId}
    {a : Coordinator.Action C Response} (hown : s.grid.isOwn x a = true) (d : C)
    (ha : a = .answer d ∨ a = .hangUp d) (p : NodeId × C) : s.grid.link p ≠ some (x, d) := by
  intro hlink
  have hcaller := (h.paired p (x, d) trivial hlink).caller
  rcases ha with rfl | rfl <;> simp [Grid.isOwn, hcaller] at hown

/-- The links once a response has gone back. -/
theorem Inv.paired_return (h : Inv listens s) {x y : NodeId} {c d : C} {resp : Response}
    {g₁ g : Grid C n} (hlink : s.grid.link (x, c) = some (y, d))
    (hanswer : s.grid.take y (.answer d) = some g₁)
    (hserve : g₁.take x (.serve c resp) = some g) : g.Paired fun _ ↦ True := by
  have hcaller := (h.paired _ _ trivial hlink).caller
  -- No other request has come in on the connection that is answered.
  have hpaired : g₁.Paired (· ≠ (x, c)) := by
    refine Grid.Paired.take (fun p q _ ↦ h.paired p q trivial) h.grid hanswer ?_
    rintro e (heq | heq) p hp hlink'
    · cases heq
      have hcaller' := (h.paired p (y, d) trivial hlink').caller
      exact hp (Option.some.inj (hcaller'.symm.trans hcaller))
    · cases heq
  obtain ⟨-, -, -, -, hinv⟩ := h.grid.take hanswer
  have hpaired' := hpaired.take hinv hserve (by simp)
  obtain ⟨s', ev', hs', rfl, -⟩ := hinv.take hserve
  intro p q _ hlink'
  by_cases hp : p = (x, c)
  · subst hp
    obtain ⟨hkept, -⟩ := Option.ite_none_right_eq_some.mp hlink'
    simp [isCalling_serve hs'] at hkept
  · exact hpaired' p q hp hlink'

theorem Inv.moves (h : Inv listens s) {a : Action C} (hm : Moves listens s a s' ev) :
    Inv listens s' := by
  have horphaned : ∀ (g : Grid C n) q, s.orphaned g q = true →
      (request ((g.node q.1).conn q.2)).isSome = true :=
    fun g q hq ↦ (Bool.and_eq_true_iff.mp hq).1
  cases hm with
  | own hown htake =>
      have hpaired := h.paired.take h.grid htake
        fun d ha p _ ↦ h.link_ne_of_isOwn hown d ha p
      obtain ⟨s₁, -, -, rfl, hinv⟩ := h.grid.take htake
      exact ⟨hinv, hpaired, h.back.move s₁, horphaned _⟩
  | @call x y c d r req handle address g hc hlistens hlink hcaller htake =>
      have hpaired := h.paired.take h.grid htake (by simp)
      obtain ⟨s₁, ev₁, hs₁, rfl, hinv⟩ := h.grid.take htake
      have hx := Grid.calling_of_receive hc hs₁
      have hy : request (((s.grid.move y s₁).node y).conn d) = some req := by
        rw [Grid.node_move_self]
        exact request_receive hs₁
      have hnone : (s.grid.move y s₁).link (x, c) = none := by
        by_contra hsome
        obtain ⟨q, hq⟩ := Option.ne_none_iff_exists'.mp hsome
        cases hlink.symm.trans (Grid.link_move hq)
      exact ⟨hinv.connect hx hlistens, hpaired.connect hx hy (Grid.caller_move_eq_none hcaller),
        (h.back.move s₁).connect hnone, horphaned _⟩
  | «return» hlink hd hanswer hserve =>
      have hpaired := h.paired_return hlink hanswer hserve
      obtain ⟨s₁, -, -, rfl, hinv⟩ := h.grid.take hanswer
      obtain ⟨s₂, -, -, rfl, hinv'⟩ := hinv.take hserve
      exact ⟨hinv', hpaired, (h.back.move s₁).move s₂, horphaned _⟩
  | @late y d i req address g hi hlistens hcaller htake =>
      have hpaired := h.paired.take h.grid htake (by simp)
      obtain ⟨s₁, ev₁, hs₁, rfl, hinv⟩ := h.grid.take htake
      refine ⟨hinv, hpaired, h.back.move s₁, ?_⟩
      rintro ⟨z, e⟩ hq
      by_cases hz : (z, e) = (y, d)
      · cases hz
        rw [Grid.node_move_self, request_receive hs₁]
        rfl
      · have hbefore := h.busy (z, e) ((Function.update_of_ne hz ..).symm.trans hq)
        obtain ⟨req', hreq'⟩ := Option.isSome_iff_exists.mp hbefore
        exact Option.isSome_iff_exists.mpr ⟨req', Grid.request_of_take h.grid htake hreq' (by simp)⟩

theorem run_inv {tr : List (ClientEvent C)} (hrun : (machine C n listens).Run s tr) :
    Inv listens s := by
  refine hrun.invariant (I := fun s _ ↦ Inv listens s) ?_
    fun s tr a s' ev _ h hs ↦ h.moves (step_moves hs)
  rintro s ⟨hinit, -, horphan, -⟩
  obtain ⟨hnode, hlink, hcaller⟩ := hinit
  refine ⟨⟨fun x ↦ (hnode x).2, fun x c y d hxy ↦ ?_⟩, fun p q _ hpq ↦ ?_, fun p q hq ↦ ?_,
    fun q hq ↦ ?_⟩
  · rw [hlink] at hxy
    cases hxy
  · rw [hlink] at hpq
    cases hpq
  · rw [hcaller] at hq
    cases hq
  · rw [horphan] at hq
    cases hq

end Service

end Pensieve
