import Pensieve.Coordinator.Collapsing
import Pensieve.Membership.Forwarding
import Pensieve.Membership.SwimProtocol
import Pensieve.Wiring

/-!
# Coordinators that proxy to each other

A coordinator on every node.  A request that one of them proxies comes in at another
one, on some connection of it, and is handled there like any other request: it may be
proxied again, or wait for the fetch of a GET that came in before it.

So requests wait for requests (`WaitsFor`).  As a proxied request is always nearer to
its key, and a collapsed GET waits for one that is as near, no request ever waits for
itself, whatever views of the ring the nodes have (`forwarding_never_cycles`).

This takes addresses that lead to the members they are recorded for (`Placed`), which
`main` does not ensure.  A node that is not told the data port of its seed takes its
own.  If they are on one host, it proxies the seed's keys to itself, and a GET waits
for itself (`fetch_waits_for_itself`).
-/

namespace Pensieve

open Foundation RingStore

/-- The connection has a request on its way to a peer. -/
def Conn.isCalling : Conn → Bool
  | .proxying _ _ _ (.calling _) => true
  | _ => false

/-- The coordinators of all nodes.  `link` leads from a connection whose request has
been proxied to the connection it came in on at the peer, and `caller` leads back. -/
structure Grid (C : Type*) (n : ℕ) where
  node : NodeId → Coordinator C n Unit
  link : NodeId × C → Option (NodeId × C)
  caller : NodeId × C → Option (NodeId × C)

namespace Grid

variable {C : Type*} {n : ℕ}

/-- What the environment decides. -/
inductive Action (C : Type*) where
  /-- A coordinator takes a step of its own. -/
  | own (x : NodeId) (a : Coordinator.Action C Response)
  /-- A request that is on its way comes in at the peer. -/
  | call (x : NodeId) (c : C) (y : NodeId) (d : C)
  /-- The peer answers it. -/
  | return (x : NodeId) (c : C)

/-- A request for the key was proxied from one node to another. -/
structure Event where
  source : NodeId
  dest : NodeId
  key : Bytes

/-- The request has come nearer to its key. -/
def Event.Nearer (e : Event) : Prop :=
  nearest (hashKey e.key) e.dest < nearest (hashKey e.key) e.source

/-- The request on one connection waits for the request on another. -/
inductive WaitsFor (g : Grid C n) (key : Bytes) : NodeId × C → NodeId × C → Prop
  /-- A GET that has been proxied. -/
  | fetch {x y : NodeId} {c d : C} {r f : ℕ} {req : Request} {stage : Stage}
      (hc : (g.node x).conn c = .proxying r req (some f) stage) (hkey : req.key = key)
      (hlink : g.link (x, c) = some (y, d)) : WaitsFor g key (x, c) (y, d)
  /-- A GET that waits for the fetch of another. -/
  | group {x : NodeId} {c d : C} {r i f : ℕ} {req req' : Request} {stage : Stage}
      (hc : (g.node x).conn c = .waiting r req f) (hkey : req.key = key)
      (hd : (g.node x).conn d = .proxying i req' (some f) stage) : WaitsFor g key (x, c) (x, d)
  /-- The same while the fetch is being completed. -/
  | completion {x : NodeId} {c d : C} {r i f : ℕ} {req req' : Request} {resp : Response}
      (hc : (g.node x).conn c = .waiting r req f) (hkey : req.key = key)
      (hd : (g.node x).conn d = .completing i req' f resp) : WaitsFor g key (x, c) (x, d)

/-- Steps that a coordinator takes without a peer.  Connections of other nodes are
read and written by `call` and `return`. -/
def isOwn (g : Grid C n) (x : NodeId) : Coordinator.Action C Response → Bool
  | .receive c _ => (g.caller (x, c)).isNone
  | .answer c => (g.caller (x, c)).isNone
  | .hangUp c => (g.caller (x, c)).isNone
  | .serve _ _ => false
  | _ => true

/-- A coordinator has moved on.  Requests that it no longer waits for are cut off. -/
def move (g : Grid C n) (x : NodeId) (s : Coordinator C n Unit) : Grid C n :=
  let kept (p : NodeId × C) : Bool := p.1 ≠ x || (s.conn p.2).isCalling
  { node := Function.update g.node x s
    link := fun p ↦ if kept p then g.link p else none
    caller := fun q ↦ (g.caller q).filter kept }

theorem node_move_self (g : Grid C n) (x : NodeId) (s : Coordinator C n Unit) :
    (g.move x s).node x = s :=
  Function.update_self ..

theorem node_move_of_ne {g : Grid C n} {x z : NodeId} {s : Coordinator C n Unit} (h : z ≠ x) :
    (g.move x s).node z = g.node z :=
  Function.update_of_ne h ..

variable [DecidableEq C]

/-- A coordinator takes a step. -/
def take (g : Grid C n) (x : NodeId) (a : Coordinator.Action C Response) : Option (Grid C n) :=
  ((g.node x).step Coordinator.anyPeers a).map fun r ↦ g.move x r.1

/-- The request on the one connection has come in on the other. -/
def connect (g : Grid C n) (p q : NodeId × C) : Grid C n :=
  { g with
    link := Function.update g.link p (some q)
    caller := Function.update g.caller q (some p) }

theorem link_connect_self (g : Grid C n) (p q : NodeId × C) : (g.connect p q).link p = some q :=
  Function.update_self ..

/-- One step of a grid.  Whoever listens at an address gets the requests that are sent there. -/
def step (listens : Address → Option NodeId) (g : Grid C n) :
    Action C → Option (Grid C n × List Event)
  | .own x a => if g.isOwn x a then (g.take x a).map fun g ↦ (g, []) else none
  | .call x c y d =>
    match (g.node x).conn c with
    | .proxying _ req _ (.calling (some address)) =>
      if listens address = some y ∧ g.link (x, c) = none ∧ g.caller (y, d) = none then
        (g.take y (.receive d req)).map fun g ↦
          (g.connect (x, c) (y, d), [⟨x, y, req.key⟩])
      else none
    | _ => none
  | .return x c =>
    match g.link (x, c) with
    | none => none
    | some (y, d) =>
      match (g.node y).conn d with
      | .replying _ _ resp =>
        ((g.take y (.answer d)).bind fun g ↦ g.take x (.serve c resp)).map
          fun g ↦ (g, [])
      | _ => none

/-- The coordinators at their start, with any rings and tables. -/
def machine (C : Type*) [DecidableEq C] (n : ℕ) (listens : Address → Option NodeId) :
    Machine (Grid C n) (Action C) Event where
  init g := (∀ x, (Coordinator.machine C n Coordinator.anyPeers).init (g.node x) ∧
      (g.node x).self = x) ∧
    (∀ p, g.link p = none) ∧ ∀ p, g.caller p = none
  step := step listens

/-! ## One coordinator -/

section

variable {s s' : Coordinator C n Unit} {ev : List (Coordinator.Event C Response)}
  {peers : Peers Unit Response}

theorem self_of_steps (hs : Coordinator.Steps peers s s' ev) : s'.self = s.self := by
  cases hs <;> rfl

/-- A request that is on its way was so before, or has just been routed. -/
theorem calling_of_steps (hs : Coordinator.Steps peers s s' ev) {c : C} {r : ℕ} {req : Request}
    {handle : Option ℕ} {address : Option Address}
    (h : s'.conn c = .proxying r req handle (.calling address)) :
    s.conn c = .proxying r req handle (.calling address) ∨
      s.conn c = .reading ∧ ∃ owner, s.route req.key = .remote owner address := by
  have hset : ∀ (t : Coordinator C n Unit) (d : C) (x : Conn), t.conn = s.conn →
      (t.setConn d x).conn c = .proxying r req handle (.calling address) →
      s.conn c = .proxying r req handle (.calling address) ∨
        c = d ∧ x = .proxying r req handle (.calling address) := by
    intro t d x ht heq
    simp only [Coordinator.setConn, ht] at heq
    by_cases hcd : c = d
    · subst hcd
      rw [Function.update_self] at heq
      exact Or.inr ⟨rfl, heq⟩
    · rw [Function.update_of_ne hcd] at heq
      exact Or.inl heq
  cases hs with
  | send hc hget hroute =>
      rcases hset _ _ _ rfl h with h | ⟨rfl, heq⟩
      · exact Or.inl h
      · cases heq
        exact Or.inr ⟨hc, _, hroute⟩
  | initiate hc hget hroute hg =>
      rcases hset _ _ _ rfl h with h | ⟨rfl, heq⟩
      · exact Or.inl h
      · cases heq
        exact Or.inr ⟨hc, _, hroute⟩
  | collapse | gossip | change => exact Or.inl h
  | _ =>
      rcases hset _ _ _ rfl h with h | ⟨rfl, heq⟩
      · exact Or.inl h
      · cases heq

omit [DecidableEq C] in
/-- A request that goes to a peer is one of `forward`. -/
theorem forward_of_route {key : Bytes} {owner : NodeId} {address : Option Address}
    (h : s.route key = .remote owner address) : forward s.self s.ring key = some owner :=
  forward_eq_some.mpr (Coordinator.route_eq_remote h).1

end

/-! ## Links -/

variable {listens : Address → Option NodeId} {g g' : Grid C n} {x : NodeId}

/-- What holds of every grid: a link leads to where the request was sent. -/
structure Inv (listens : Address → Option NodeId) (g : Grid C n) : Prop where
  self_eq : ∀ x, (g.node x).self = x
  linked : ∀ x c y d, g.link (x, c) = some (y, d) → ∃ r req handle a,
    (g.node x).conn c = .proxying r req handle (.calling (some a)) ∧ listens a = some y

theorem isCalling_eq_true {x : Conn} (h : x.isCalling = true) :
    ∃ r req handle address, x = .proxying r req handle (.calling address) := by
  rw [Conn.isCalling.eq_def] at h
  split at h
  · exact ⟨_, _, _, _, rfl⟩
  · cases h

/-- A request that stays on its way stays as it is. -/
theorem calling_kept {s s' : Coordinator C n Unit} {ev : List (Coordinator.Event C Response)}
    (hs : Coordinator.Steps Coordinator.anyPeers s s' ev) {c : C} {r : ℕ} {req : Request}
    {handle : Option ℕ} {address : Option Address}
    (hc : s.conn c = .proxying r req handle (.calling address))
    (hcalling : (s'.conn c).isCalling = true) :
    s'.conn c = .proxying r req handle (.calling address) := by
  obtain ⟨r', req', handle', address', hc'⟩ := isCalling_eq_true hcalling
  rcases calling_of_steps hs hc' with hbefore | ⟨hreading, -⟩
  · rw [hc', ← hbefore, hc]
  · rw [hc] at hreading
    cases hreading

theorem take_eq_some {a : Coordinator.Action C Response} (h : g.take x a = some g') :
    ∃ s ev, (g.node x).step Coordinator.anyPeers a = some (s, ev) ∧ g' = g.move x s := by
  obtain ⟨⟨s, ev⟩, hs, rfl⟩ := Option.map_eq_some_iff.mp h
  exact ⟨s, ev, hs, rfl⟩

/-- A step of a coordinator keeps the invariant, and moves no other one. -/
theorem Inv.take {a : Coordinator.Action C Response} (h : Inv listens g)
    (hstep : g.take x a = some g') :
    ∃ s ev, (g.node x).step Coordinator.anyPeers a = some (s, ev) ∧ g' = g.move x s ∧
      Inv listens g' := by
  obtain ⟨s, ev, hs, rfl⟩ := take_eq_some hstep
  have hsteps := Coordinator.step_steps hs
  refine ⟨s, ev, hs, rfl, fun z ↦ ?_, fun z c y d hlink ↦ ?_⟩
  · by_cases hz : z = x
    · subst hz
      rw [node_move_self]
      exact (self_of_steps hsteps).trans (h.self_eq z)
    · rw [node_move_of_ne hz]
      exact h.self_eq z
  · obtain ⟨hcalling, hlink⟩ := Option.ite_none_right_eq_some.mp hlink
    obtain ⟨r, req, handle, a, hc, hy⟩ := h.linked z c y d hlink
    refine ⟨r, req, handle, a, ?_, hy⟩
    by_cases hz : z = x
    · subst hz
      rw [node_move_self]
      exact calling_kept hsteps hc (by simpa using hcalling)
    · rw [node_move_of_ne hz]
      exact hc

theorem Inv.connect (h : Inv listens g) {c d : C} {y : NodeId} {r : ℕ} {req : Request}
    {handle : Option ℕ} {address : Address}
    (hc : (g.node x).conn c = .proxying r req handle (.calling (some address)))
    (hy : listens address = some y) : Inv listens (g.connect (x, c) (y, d)) := by
  refine ⟨h.self_eq, fun z e y' d' hlink ↦ ?_⟩
  simp only [Grid.connect] at hlink ⊢
  by_cases hz : (z, e) = (x, c)
  · cases hz
    cases (Function.update_self ..).symm.trans hlink
    exact ⟨r, req, handle, address, hc, hy⟩
  · exact h.linked z e y' d' ((Function.update_of_ne hz ..).symm.trans hlink)

/-- A request that is on its way stays so while another one comes in, even at the same node. -/
theorem calling_of_receive {y : NodeId} {c d : C} {r : ℕ} {req req' : Request} {handle : Option ℕ}
    {address : Option Address} {s : Coordinator C n Unit}
    {ev : List (Coordinator.Event C Response)}
    (hc : (g.node x).conn c = .proxying r req handle (.calling address))
    (hs : (g.node y).step Coordinator.anyPeers (.receive d req') = some (s, ev)) :
    ((g.move y s).node x).conn c = .proxying r req handle (.calling address) := by
  by_cases hxy : x = y
  · subst hxy
    rw [node_move_self, Coordinator.conn_of_receive hs (by simp [hc]), hc]
  · rw [node_move_of_ne hxy, hc]

/-! ## Rings and tables -/

/-- The step is news about the ring and the table. -/
def Action.isGossip : Action C → Bool
  | .own _ (.gossip _ _) => true
  | _ => false

/-- The rings and the tables are the same. -/
def SameFrame (g g' : Grid C n) : Prop :=
  ∀ z, (g'.node z).ring = (g.node z).ring ∧ (g'.node z).members = (g.node z).members

/-- Other steps leave the rings and the tables as they are. -/
theorem frame_of_take {a : Coordinator.Action C Response} (h : g.take x a = some g')
    (ha : ∀ ring members, a ≠ .gossip ring members) : SameFrame g g' := by
  intro z
  obtain ⟨s, ev, hs, rfl⟩ := take_eq_some h
  by_cases hz : z = x
  · subst hz
    rw [node_move_self]
    exact Coordinator.frame_of_step hs ha
  · rw [node_move_of_ne hz]
    exact ⟨rfl, rfl⟩

theorem frame_of_step {a : Action C} {ev : List Event} (h : g.step listens a = some (g', ev))
    (ha : a.isGossip = false) : SameFrame g g' := by
  cases a with
  | own x a =>
      obtain ⟨-, h⟩ := Option.ite_none_right_eq_some.mp h
      obtain ⟨g₁, htake, heq⟩ := Option.map_eq_some_iff.mp h
      cases heq
      refine frame_of_take htake fun ring members heq ↦ ?_
      rw [heq] at ha
      cases ha
  | call x c y d =>
      rw [Grid.step] at h
      split at h
      · obtain ⟨-, h⟩ := Option.ite_none_right_eq_some.mp h
        obtain ⟨g₁, htake, heq⟩ := Option.map_eq_some_iff.mp h
        cases heq
        exact fun z ↦ frame_of_take htake (by simp) z
      · cases h
  | «return» x c =>
      rw [Grid.step] at h
      split at h
      · cases h
      · split at h
        · obtain ⟨g₁, hbind, heq⟩ := Option.map_eq_some_iff.mp h
          cases heq
          obtain ⟨g₂, hanswer, hserve⟩ := Option.bind_eq_some_iff.mp hbind
          intro z
          obtain ⟨hring, hmembers⟩ := frame_of_take hanswer (by simp) z
          obtain ⟨hring', hmembers'⟩ := frame_of_take hserve (by simp) z
          exact ⟨hring'.trans hring, hmembers'.trans hmembers⟩
        · cases h


/-- A run without news keeps what is said of the rings and the tables. -/
theorem run_exec_quiet {P : Grid C n → Prop} {as : List (Action C)} {tr tr' : List Event}
    (hP : ∀ g g', SameFrame g g' → P g → P g') (hrun : ((machine C n listens).within P).Run g tr)
    (he : (machine C n listens).exec g as = some (g', tr'))
    (has : ∀ a ∈ as, a.isGossip = false) : ((machine C n listens).within P).Run g' (tr ++ tr') :=
  hrun.exec_within he fun a ha s s' _ h hs ↦ hP s s' (frame_of_step hs (has a ha)) h

/-- The addresses that the table of `x` has for other members lead to these members, or to
nobody. -/
def Placed (listens : Address → Option NodeId) (x : NodeId) (members : MemberList) : Prop :=
  ∀ e ∈ members.nodes.entries, e.1 ≠ x → ∀ y, listens (e.1.host, e.2.dataPort) = some y → y = e.1

/-- The rings are views, and the tables lead to the members. -/
def Proper (listens : Address → Option NodeId) (g : Grid C n) : Prop :=
  ∀ x, IsView x (g.node x).ring ∧ Placed listens x (g.node x).members

omit [DecidableEq C] in
theorem Proper.congr (hsame : SameFrame g g') (h : Proper listens g) : Proper listens g' := by
  intro x
  obtain ⟨hring, hmembers⟩ := hsame x
  rw [hring, hmembers]
  exact h x

omit [DecidableEq C] in
/-- A request that is proxied to an address comes in at the owner of its key. -/
theorem Placed.owner {s : Coordinator C n Unit} {key : Bytes} {owner y : NodeId} {a : Address}
    (h : Placed listens x s.members) (hself : s.self = x)
    (hroute : s.route key = .remote owner (some a)) (hy : listens a = some y) : y = owner := by
  obtain ⟨⟨-, hne⟩, haddress⟩ := Coordinator.route_eq_remote hroute
  rw [hself] at hne
  obtain ⟨info, hinfo, rfl⟩ := Option.map_eq_some_iff.mp haddress.symm
  exact h ⟨owner, info⟩ (AList.mem_lookup_iff.mp hinfo) hne y hy

/-- Requests that are on their way go to nearer nodes. -/
def Nearing (listens : Address → Option NodeId) (g : Grid C n) : Prop :=
  ∀ x c r req handle a y, (g.node x).conn c = .proxying r req handle (.calling (some a)) →
    listens a = some y → nearest (hashKey req.key) y < nearest (hashKey req.key) x

theorem Nearing.take {a : Coordinator.Action C Response} (h : Nearing listens g)
    (hinv : Inv listens g) (hproper : Proper listens g) (hstep : g.take x a = some g') :
    Nearing listens g' := by
  obtain ⟨s, ev, hs, rfl⟩ := take_eq_some hstep
  intro z c r req handle a y hc hy
  by_cases hz : z = x
  · subst hz
    rw [node_move_self] at hc
    rcases calling_of_steps (Coordinator.step_steps hs) hc with hc | ⟨-, owner, hroute⟩
    · exact h z c r req handle a y hc hy
    · obtain ⟨hview, hplaced⟩ := hproper z
      obtain rfl : y = owner := hplaced.owner (hinv.self_eq z) hroute hy
      have hforward := forward_of_route hroute
      rw [hinv.self_eq z] at hforward
      exact nearest_lt_of_forward hview hforward
  · rw [node_move_of_ne hz] at hc
    exact h z c r req handle a y hc hy

/-- What one step of a grid does. -/
theorem Nearing.step {a : Action C} {ev : List Event} (h : Nearing listens g)
    (hinv : Inv listens g) (hproper : Proper listens g)
    (hstep : g.step listens a = some (g', ev)) :
    Nearing listens g' ∧ Inv listens g' ∧ ∀ e ∈ ev, e.Nearer := by
  cases a with
  | own x a =>
      obtain ⟨-, hstep⟩ := Option.ite_none_right_eq_some.mp hstep
      obtain ⟨g₁, htake, heq⟩ := Option.map_eq_some_iff.mp hstep
      cases heq
      obtain ⟨s, ev, -, -, hinv'⟩ := hinv.take htake
      exact ⟨h.take hinv hproper htake, hinv', by simp⟩
  | call x c y d =>
      rw [Grid.step] at hstep
      split at hstep
      · rename_i r req handle address hc
        obtain ⟨⟨hlistens, -, -⟩, hstep⟩ := Option.ite_none_right_eq_some.mp hstep
        obtain ⟨g₁, htake, heq⟩ := Option.map_eq_some_iff.mp hstep
        cases heq
        have hnear := h.take hinv hproper htake
        obtain ⟨s, ev, hs, rfl, hinv'⟩ := hinv.take htake
        refine ⟨hnear, hinv'.connect (calling_of_receive hc hs) hlistens, fun e he ↦ ?_⟩
        rw [List.mem_singleton.mp he]
        exact h x c r req handle address y hc hlistens
      · cases hstep
  | «return» x c =>
      rw [Grid.step] at hstep
      split at hstep
      · cases hstep
      · rename_i y d hlink
        split at hstep
        · rename_i r req resp hd
          obtain ⟨g₁, hbind, heq⟩ := Option.map_eq_some_iff.mp hstep
          cases heq
          obtain ⟨g₂, hanswer, hserve⟩ := Option.bind_eq_some_iff.mp hbind
          obtain ⟨s, ev, hs, hg, hinv₂⟩ := hinv.take hanswer
          obtain ⟨-, -, -, -, hinv'⟩ := hinv₂.take hserve
          have hproper₂ := Proper.congr (frame_of_take hanswer (by simp)) hproper
          exact ⟨(h.take hinv hproper hanswer).take hinv₂ hproper₂ hserve, hinv', by simp⟩
        · cases hstep

theorem run_nearing {tr : List Event}
    (hrun : ((machine C n listens).within (Proper listens)).Run g tr) :
    Nearing listens g ∧ Inv listens g ∧ ∀ e ∈ tr, e.Nearer := by
  refine hrun.invariant (I := fun g tr ↦ Nearing listens g ∧ Inv listens g ∧ ∀ e ∈ tr, e.Nearer)
    ?_ ?_
  · rintro g ⟨⟨hnode, hlink, -⟩, -⟩
    refine ⟨fun x c r req handle a y hc ↦ ?_, ⟨fun x ↦ (hnode x).2, fun x c y d h ↦ ?_⟩, by simp⟩
    · obtain ⟨⟨-, hconn, -⟩, -⟩ := hnode x
      rw [hconn] at hc
      cases hc
    · rw [hlink] at h
      cases h
  · rintro g tr a g' ev hrun ⟨hnear, hinv, htr⟩ hstep
    obtain ⟨hnear', hinv', hev⟩ :=
      hnear.step hinv hrun.of_within.2 (Machine.within_step.mp hstep).1
    exact ⟨hnear', hinv', fun e he ↦ (List.mem_append.mp he).elim (htr e) (hev e)⟩

/-! ## Waiting -/

/-- A request that waits for another's fetch. -/
def isWaiting : Conn → Bool
  | .waiting _ _ _ => true
  | _ => false

/-- How long a request may still have to wait: twice the distance of its node, and one
more if it waits for another request there. -/
def level (g : Grid C n) (d : NodeId → ℕ) (p : NodeId × C) : ℕ :=
  2 * d p.1 + (isWaiting ((g.node p.1).conn p.2)).toNat

omit [DecidableEq C] in
/-- Whoever is waited for is on a lower level, if fetches go to nearer nodes. -/
theorem level_lt_of_waitsFor {g : Grid C n} {d : NodeId → ℕ} {key : Bytes}
    (hfetch : ∀ x c y e r req handle stage, (g.node x).conn c = .proxying r req handle stage →
      req.key = key → g.link (x, c) = some (y, e) → d y < d x) {p q : NodeId × C}
    (hpq : g.WaitsFor key p q) : g.level d q < g.level d p := by
  cases hpq with
  | @fetch x y c e r f req stage hc hkey hlink =>
      have hlt := hfetch x c y e r req (some f) stage hc hkey hlink
      have hp : isWaiting ((g.node x).conn c) = false := by rw [hc]; rfl
      have hq : (isWaiting ((g.node y).conn e)).toNat ≤ 1 := Bool.toNat_le _
      simp only [level, hp, Bool.toNat_false, Nat.add_zero]
      omega
  | group hc hkey hd => simp [level, hc, hd, isWaiting]
  | completion hc hkey hd => simp [level, hc, hd, isWaiting]

omit [DecidableEq C] in
/-- So no request waits for itself. -/
theorem not_waitsFor_self {g : Grid C n} {d : NodeId → ℕ} {key : Bytes}
    (hfetch : ∀ x c y e r req handle stage, (g.node x).conn c = .proxying r req handle stage →
      req.key = key → g.link (x, c) = some (y, e) → d y < d x) (p : NodeId × C) :
    ¬ Relation.TransGen (g.WaitsFor key) p p := by
  have hlt : ∀ q, Relation.TransGen (g.WaitsFor key) p q → g.level d q < g.level d p := by
    intro q hq
    induction hq with
    | single h => exact level_lt_of_waitsFor hfetch h
    | tail _ h ih => exact (level_lt_of_waitsFor hfetch h).trans ih
  exact fun hp ↦ lt_irrefl _ (hlt p hp)

omit [DecidableEq C] in
/-- A fetch goes to a nearer node. -/
theorem Nearing.fetch (h : Nearing listens g) (hinv : Inv listens g) {y : NodeId} {c d : C} {r : ℕ}
    {req : Request} {handle : Option ℕ} {stage : Stage}
    (hc : (g.node x).conn c = .proxying r req handle stage) (hlink : g.link (x, c) = some (y, d)) :
    nearest (hashKey req.key) y < nearest (hashKey req.key) x := by
  obtain ⟨r', req', handle', a, hc', hy⟩ := hinv.linked x c y d hlink
  rw [hc] at hc'
  cases hc'
  exact h x c r req handle a y hc hy

/-- **Forwarding never cycles.**  Let the nodes hold any rings, different ones and changing ones,
in which their own tokens are their own and every token stands for the node it belongs to, and let
the addresses in their tables lead to the members that they are recorded for, or to nobody.  Then
every hop of a request goes to a node that has a nearer token, every request is served after fewer
hops than there are nodes, and in every run of the coordinators no request waits for itself. -/
theorem forwarding_never_cycles (C : Type*) [DecidableEq C] (n : ℕ)
    (listens : Address → Option NodeId) (nodes : Finset NodeId) (view : ℕ → NodeId → Ring)
    (hview : ∀ i, ∀ x ∈ nodes, IsView x (view i x))
    (hnodes : ∀ i, ∀ x ∈ nodes, ∀ e ∈ (view i x).entries, e.2 ∈ nodes)
    (g : Grid C n) (tr : List Event)
    (hrun : ((machine C n listens).within (Proper listens)).Run g tr) (key : Bytes) :
    (∀ i, ∀ x ∈ nodes, ∀ y, forward x (view i x) key = some y →
      nearest (hashKey key) y < nearest (hashKey key) x) ∧
    (∀ x ∈ nodes, ∃ k, k + 1 ≤ nodes.card ∧ Travels view key 0 x k) ∧
    (∀ e ∈ tr, e.Nearer) ∧
    ∀ p, ¬ Relation.TransGen (g.WaitsFor key) p p := by
  obtain ⟨hnear, hinv, hevents⟩ := run_nearing hrun
  have hop : ∀ i, ∀ x ∈ nodes, ∀ y, forward x (view i x) key = some y →
      nearest (hashKey key) y < nearest (hashKey key) x :=
    fun i x hx y hy ↦ nearest_lt_of_forward (hview i x hx) hy
  refine ⟨hop, fun x hx ↦ ?_, hevents, not_waitsFor_self (d := nearest (hashKey key)) ?_⟩
  · exact exists_travels
      (fun i x hx y hy ↦ ⟨mem_of_forward (hnodes i x hx) hy, hop i x hx y hy⟩) hx
  · intro x c y e r req handle stage hc hkey hlink
    exact hkey ▸ hnear.fetch hinv hc hlink

/-! ## Two processes on one host -/

theorem step_own {a : Coordinator.Action C Response} {s : Coordinator C n Unit}
    {ev : List (Coordinator.Event C Response)} (hown : g.isOwn x a = true)
    (hs : (g.node x).step Coordinator.anyPeers a = some (s, ev)) :
    (machine C n listens).step g (.own x a) = some (g.move x s, []) := by
  change g.step listens (.own x a) = _
  rw [step, if_pos hown, take, hs]
  rfl

theorem step_call {c d : C} {y : NodeId} {r : ℕ} {req : Request} {handle : Option ℕ}
    {address : Address} {s : Coordinator C n Unit} {ev : List (Coordinator.Event C Response)}
    (hc : (g.node x).conn c = .proxying r req handle (.calling (some address)))
    (hy : listens address = some y) (hlink : g.link (x, c) = none)
    (hcaller : g.caller (y, d) = none)
    (hs : (g.node y).step Coordinator.anyPeers (.receive d req) = some (s, ev)) :
    (machine C n listens).step g (.call x c y d) =
      some ((g.move y s).connect (x, c) (y, d), [⟨x, y, req.key⟩]) := by
  change g.step listens (.call x c y d) = _
  simp only [step, hc]
  rw [if_pos ⟨hy, hlink, hcaller⟩, take, hs]
  rfl

/-- `127.0.0.1`. -/
def localhost : Bytes := [49, 50, 55, 46, 48, 46, 48, 46, 49]

/-- `pensieve_server 127.0.0.1 11211 7946`. -/
def seed : NodeId := ⟨localhost, 7946⟩

/-- `pensieve_server 127.0.0.1 11212 7947 64 127.0.0.1:7946`, started after it. -/
def joiner : NodeId := ⟨localhost, 7947⟩

/-- The two processes listen at their data ports. -/
def bothListen (a : Address) : Option NodeId :=
  if a = (localhost, 11211) then some seed
  else if a = (localhost, 11212) then some joiner
  else none

/-- The member tables as `main` sets them up, where `port` is the `seed_data_port` of the joiner. -/
def startTable (port : UInt16) (x : NodeId) : MemberList :=
  if x = joiner then (SwimProtocol.start ⟨5000, 3, 8, 11212⟩ x (some (seed, port)) 0).members
  else (SwimProtocol.start ⟨5000, 3, 8, 11211⟩ x none 0).members

/-- The coordinators at their start. -/
def joined (port : UInt16) : Grid ℕ 0 where
  node x :=
    { Coordinator.onePeer () with
      self := x
      ring := (startTable port x).ring
      members := startTable port x }
  link _ := none
  caller _ := none

theorem init_joined (port : UInt16) : (machine ℕ 0 bothListen).init (joined port) :=
  ⟨fun _ ↦ ⟨⟨rfl, fun _ ↦ rfl, rfl⟩, rfl⟩, fun _ ↦ rfl, fun _ ↦ rfl⟩

/-- No token of the joiner is one of the seed, and of all their tokens the next one to the key `A`
is one of the seed. -/
theorem tokens_apart :
    (∀ token ∈ tokensOf joiner kDefaultVnodes, token ∉ tokensOf seed kDefaultVnodes ∧
      clockwise (hashKey [65]) (hashNodeToken seed 5) ≤ clockwise (hashKey [65]) token) ∧
    ∀ token ∈ tokensOf seed kDefaultVnodes,
      clockwise (hashKey [65]) (hashNodeToken seed 5) ≤ clockwise (hashKey [65]) token := by
  -- Over the lists: `decide` may otherwise go through all tokens there are.
  have hall : ((tokensOf joiner kDefaultVnodes).all fun token ↦
        decide (token ∉ tokensOf seed kDefaultVnodes ∧
          clockwise (hashKey [65]) (hashNodeToken seed 5) ≤ clockwise (hashKey [65]) token)) ∧
      (tokensOf seed kDefaultVnodes).all fun token ↦
        decide (clockwise (hashKey [65]) (hashNodeToken seed 5) ≤
          clockwise (hashKey [65]) token) := by
    decide +kernel
  simpa only [List.all_eq_true, decide_eq_true_eq] using hall

/-- A node that knows only itself. -/
theorem startTable_of_ne {port : UInt16} {x : NodeId} (hx : x ≠ joiner) :
    startTable port x = MemberList.empty.record x ⟨x, 11211, .alive, 0, 0⟩ := by
  rw [startTable, if_neg hx]
  exact MemberList.addNode_of_lt (by rintro e ⟨⟩)

theorem startTable_joiner (port : UInt16) :
    startTable port joiner = (MemberList.empty.record joiner ⟨joiner, 11212, .alive, 0, 0⟩).record
      seed ⟨seed, port, .alive, 0, 0⟩ := by
  rw [startTable, if_pos rfl]
  rfl

theorem ring_startTable_of_ne {port : UInt16} {x : NodeId} (hx : x ≠ joiner) :
    (startTable port x).ring = RingStore.addNode SortedMap.empty x := by
  rw [startTable_of_ne hx, MemberList.ring_record, onChange, if_pos rfl]
  rfl

theorem ring_startTable_joiner (port : UInt16) :
    (startTable port joiner).ring =
      RingStore.addNode (RingStore.addNode SortedMap.empty joiner) seed := by
  rw [startTable_joiner, MemberList.ring_record, MemberList.ring_record, onChange, if_pos rfl,
    onChange, if_pos rfl]
  rfl

/-- Every node starts with a view. -/
theorem isView_startTable (port : UInt16) (x : NodeId) : IsView x (startTable port x).ring := by
  have hown : ∀ x : NodeId, IsView x (RingStore.addNode SortedMap.empty x) := by
    intro x
    refine ⟨fun token htoken ↦ mem_addTokens.mpr (Or.inl ⟨htoken, rfl⟩), fun y hy ↦ ?_⟩
    rcases mem_addTokens.mp hy with ⟨htoken, heq⟩ | ⟨-, hy⟩
    · rwa [heq]
    · cases hy
  by_cases hx : x = joiner
  · rw [hx, ring_startTable_joiner]
    obtain ⟨howned, hbelongs⟩ := hown joiner
    refine ⟨fun token htoken ↦ ?_, fun y hy ↦ ?_⟩
    · exact mem_addTokens.mpr (Or.inr ⟨(tokens_apart.1 token htoken).1, howned token htoken⟩)
    · rcases mem_addTokens.mp hy with ⟨htoken, heq⟩ | ⟨-, hy⟩
      · rwa [heq]
      · exact hbelongs y hy
  · rw [ring_startTable_of_ne hx]
    exact hown x

/-- The key `A` is the seed's. -/
theorem owner_joiner (port : UInt16) :
    getNodeForKey (startTable port joiner).ring (hashKey [65]) = some seed := by
  rw [ring_startTable_joiner]
  have hmem : hashNodeToken seed 5 ∈ tokensOf seed kDefaultVnodes :=
    List.mem_map.mpr ⟨5, List.mem_range.mpr (by decide), rfl⟩
  refine getNodeForKey_eq_of_le (mem_addTokens.mpr (Or.inl ⟨hmem, rfl⟩)) fun x hx ↦ ?_
  rcases mem_addTokens.mp hx with ⟨htoken, -⟩ | ⟨-, hx⟩
  · exact tokens_apart.2 _ htoken
  · rcases mem_addTokens.mp hx with ⟨htoken, -⟩ | ⟨-, hx⟩
    · exact (tokens_apart.1 _ htoken).2
    · cases hx

theorem route_joiner (port : UInt16) :
    ((joined port).node joiner).route [65] = .remote seed (some (localhost, port)) := by
  have hmember : (startTable port joiner).getNode seed = some ⟨seed, port, .alive, 0, 0⟩ := by
    rw [startTable_joiner]
    exact MemberList.getNode_record_self ..
  have hself : ((joined port).node joiner).self = joiner := rfl
  have hring : ((joined port).node joiner).ring = (startTable port joiner).ring := rfl
  have hmembers : ((joined port).node joiner).members = startTable port joiner := rfl
  rw [Coordinator.route, hring, owner_joiner, hmembers, hself]
  simp only [hmember]
  rfl

theorem route_seed (port : UInt16) (key : Bytes) :
    ((joined port).node seed).route key = .here := by
  rcases hroute : ((joined port).node seed).route key with _ | ⟨owner, address⟩
  · rfl
  · obtain ⟨⟨howner, hne⟩, -⟩ := Coordinator.route_eq_remote hroute
    have hring : ((joined port).node seed).ring = RingStore.addNode SortedMap.empty seed :=
      ring_startTable_of_ne (by decide)
    rw [hring] at howner
    obtain ⟨token, hmem, -⟩ := getNodeForKey_eq_some howner
    rcases mem_addTokens.mp hmem with ⟨-, heq⟩ | ⟨-, hmem⟩
    · exact absurd heq hne
    · cases hmem

/-- The wait group after a GET of the key `A`, and after another. -/
theorem exists_groups : ∃ group group' : WaitGroup.Sys ℕ Bytes Bytes,
    WaitGroup.Sys.step ⟨.empty, fun _ ↦ .idle⟩ (.tryJoin 0 [65]) =
      some (group, [.joined 0 [65] 0 true]) ∧
    group.step (.tryJoin 1 [65]) = some (group', [.joined 1 [65] 0 false]) :=
  ⟨_, _, rfl, rfl⟩

/-- Two GETs of the key `A` come in, and the second waits for the first. -/
theorem exists_two_gets {s : Coordinator ℕ 0 Unit} {owner : NodeId} {address : Option Address}
    (hinit : (Coordinator.machine ℕ 0 Coordinator.anyPeers).init s)
    (hroute : s.route [65] = .remote owner address) : ∃ s₁ s₂ : Coordinator ℕ 0 Unit,
    (∃ ev, s.step Coordinator.anyPeers (.receive 0 ⟨.get, [65], []⟩) = some (s₁, ev)) ∧
    s₁.conn 0 = .proxying 0 ⟨.get, [65], []⟩ (some 0) (.calling address) ∧
    (∃ ev, s₁.step Coordinator.anyPeers (.receive 1 ⟨.get, [65], []⟩) = some (s₂, ev)) ∧
    s₂.conn 0 = .proxying 0 ⟨.get, [65], []⟩ (some 0) (.calling address) ∧
    s₂.conn 1 = .waiting 1 ⟨.get, [65], []⟩ 0 := by
  obtain ⟨hgroup, hconn, hnext⟩ := hinit
  obtain ⟨group, group', hjoin, hjoin'⟩ := exists_groups
  rw [← hgroup] at hjoin
  refine ⟨_, _, ⟨_, Coordinator.step_initiate (hconn 0) rfl hroute hjoin⟩, ?_,
    ⟨_, Coordinator.step_join ?_ rfl hroute hjoin'⟩, ?_, ?_⟩ <;>
  simp [Coordinator.setConn, hnext, hconn]

/-- A joiner that is not told otherwise takes its own data port for that of the seed.  A GET for a
key of the seed then comes back to it, joins the fetch that it has caused itself, and nobody is
ever answered. -/
theorem fetch_waits_for_itself :
    ∃ g : Grid ℕ 0,
      (machine ℕ 0 bothListen).exec (joined 11212)
        [.own joiner (.receive 0 ⟨.get, [65], []⟩), .call joiner 0 joiner 1] =
          some (g, [⟨joiner, joiner, [65]⟩]) ∧
      ((machine ℕ 0 bothListen).within fun g ↦ ∀ x, IsView x (g.node x).ring).Run g
        [⟨joiner, joiner, [65]⟩] ∧
      Relation.TransGen (g.WaitsFor [65]) (joiner, 0) (joiner, 0) := by
  obtain ⟨s, s', ⟨ev, hfirst⟩, hc, ⟨ev', hsecond⟩, hc', hd⟩ :=
    exists_two_gets (init_joined 11212 |>.1 joiner).1 (route_joiner 11212)
  have hown : (machine ℕ 0 bothListen).step (joined 11212)
      (.own joiner (.receive 0 ⟨.get, [65], []⟩)) =
        some ((joined 11212).move joiner s, []) := step_own rfl hfirst
  have hnode := node_move_self (joined 11212) joiner s
  have hcall : (machine ℕ 0 bothListen).step ((joined 11212).move joiner s)
      (.call joiner 0 joiner 1) = some
        ((((joined 11212).move joiner s).move joiner s').connect (joiner, 0) (joiner, 1),
        [⟨joiner, joiner, [65]⟩]) := by
    rw [← hnode] at hc hsecond
    exact step_call hc (by decide) (ite_self ..) rfl hsecond
  have hexec : (machine ℕ 0 bothListen).exec (joined 11212)
      [.own joiner (.receive 0 ⟨.get, [65], []⟩), .call joiner 0 joiner 1] = some
        ((((joined 11212).move joiner s).move joiner s').connect (joiner, 0) (joiner, 1),
        [⟨joiner, joiner, [65]⟩]) :=
    Machine.exec_cons_of_step hown (Machine.exec_cons_of_step hcall rfl)
  have hlast := node_move_self ((joined 11212).move joiner s) joiner s'
  rw [← hlast] at hc' hd
  refine ⟨_, hexec, ?_, .tail (.single ?_) (.group hd rfl hc')⟩
  · exact run_exec_quiet (fun g g' hsame h x ↦ (hsame x).1 ▸ h x)
      (.init ⟨init_joined 11212, isView_startTable 11212⟩) hexec (by simp [Action.isGossip])
  · exact .fetch hc' rfl (link_connect_self ..)

/-- A joiner that is told the data port of the seed. -/
theorem proper_joined : Proper bothListen (joined 11211) := by
  refine fun x ↦ ⟨isView_startTable 11211 x, fun e he hne y hy ↦ ?_⟩
  by_cases hx : x = joiner
  · subst hx
    have hinfo : e.2 ∈ (startTable 11211 joiner).getNode e.1 := AList.mem_lookup_iff.mpr he
    rw [startTable_joiner] at hinfo
    by_cases hseed : e.1 = seed
    · rw [hseed, MemberList.getNode_record_self] at hinfo
      rw [hseed, ← Option.some_inj.mp hinfo] at hy
      exact (Option.some_inj.mp hy).symm.trans hseed.symm
    · rw [MemberList.getNode_record_of_ne hseed, MemberList.getNode_record_of_ne hne] at hinfo
      cases hinfo
  · have hinfo : e.2 ∈ (startTable 11211 x).getNode e.1 := AList.mem_lookup_iff.mpr he
    rw [startTable_of_ne hx, MemberList.getNode_record_of_ne hne] at hinfo
    cases hinfo

/-- The nodes on the rings are the seed and the joiner. -/
theorem mem_startTable {x : NodeId} (hx : x ∈ ({joiner, seed} : Finset NodeId)) {port : UInt16}
    {e : UInt32 × NodeId} (he : e ∈ (startTable port x).ring.entries) :
    e.2 ∈ ({joiner, seed} : Finset NodeId) := by
  by_cases hjoiner : x = joiner
  · rw [hjoiner, ring_startTable_joiner] at he
    rcases mem_addTokens.mp he with ⟨-, heq⟩ | ⟨-, he⟩
    · simp [heq]
    · rcases mem_addTokens.mp he with ⟨-, heq⟩ | ⟨-, he⟩
      · simp [heq]
      · cases he
  · rw [ring_startTable_of_ne hjoiner] at he
    rcases mem_addTokens.mp he with ⟨-, heq⟩ | ⟨-, he⟩
    · rwa [heq]
    · cases he

theorem forwarding_never_cycles_joined :
    ∃ g : Grid ℕ 0,
      (machine ℕ 0 bothListen).exec (joined 11211)
        [.own joiner (.receive 0 ⟨.get, [65], []⟩), .own joiner (.receive 1 ⟨.get, [65], []⟩),
          .call joiner 0 seed 0] = some (g, [⟨joiner, seed, [65]⟩]) ∧
      g.WaitsFor [65] (joiner, 1) (joiner, 0) ∧ g.WaitsFor [65] (joiner, 0) (seed, 0) ∧
      (∃ k, k + 1 ≤ 2 ∧ Travels (fun _ x ↦ (startTable 11211 x).ring) [65] 0 joiner k) ∧
      nearest (hashKey [65]) seed < nearest (hashKey [65]) joiner ∧
      ∀ p, ¬ Relation.TransGen (g.WaitsFor [65]) p p := by
  obtain ⟨s₁, s₂, ⟨ev₁, hfirst⟩, -, ⟨ev₂, hsecond⟩, hc, hd⟩ :=
    exists_two_gets (init_joined 11211 |>.1 joiner).1 (route_joiner 11211)
  obtain ⟨s₃, ev₃, hthird⟩ : ∃ s₃ ev₃, ((joined 11211).node seed).step Coordinator.anyPeers
      (.receive 0 ⟨.get, [65], []⟩) = some (s₃, ev₃) :=
    ⟨_, _, Coordinator.step_here rfl (by decide) (route_seed 11211 [65])⟩
  let g₁ := (joined 11211).move joiner s₁
  let g₂ := g₁.move joiner s₂
  have hown : (machine ℕ 0 bothListen).step (joined 11211)
      (.own joiner (.receive 0 ⟨.get, [65], []⟩)) = some (g₁, []) := step_own rfl hfirst
  have hnode₁ : g₁.node joiner = s₁ := node_move_self ..
  have hnode₂ : g₂.node joiner = s₂ := node_move_self ..
  rw [← hnode₁] at hsecond
  have hown' : (machine ℕ 0 bothListen).step g₁ (.own joiner (.receive 1 ⟨.get, [65], []⟩)) =
      some (g₂, []) := step_own rfl hsecond
  have hseed : g₂.node seed = (joined 11211).node seed :=
    (node_move_of_ne (by decide)).trans (node_move_of_ne (by decide))
  rw [← hnode₂] at hc hd
  rw [← hseed] at hthird
  have hcall : (machine ℕ 0 bothListen).step g₂ (.call joiner 0 seed 0) =
      some ((g₂.move seed s₃).connect (joiner, 0) (seed, 0), [⟨joiner, seed, [65]⟩]) :=
    step_call hc (by decide) (by simp [g₂, g₁, move, joined]) rfl hthird
  have hexec : (machine ℕ 0 bothListen).exec (joined 11211)
      [.own joiner (.receive 0 ⟨.get, [65], []⟩), .own joiner (.receive 1 ⟨.get, [65], []⟩),
        .call joiner 0 seed 0] =
          some ((g₂.move seed s₃).connect (joiner, 0) (seed, 0), [⟨joiner, seed, [65]⟩]) :=
    Machine.exec_cons_of_step hown
      (Machine.exec_cons_of_step hown' (Machine.exec_cons_of_step hcall rfl))
  have hjoiner : (g₂.move seed s₃).node joiner = g₂.node joiner := node_move_of_ne (by decide)
  rw [← hjoiner] at hc hd
  have hrun := run_exec_quiet (fun g g' hsame h ↦ Proper.congr hsame h)
    (.init ⟨init_joined 11211, proper_joined⟩) hexec (by simp [Action.isGossip])
  obtain ⟨hnearer, htravels, -, hacyclic⟩ := forwarding_never_cycles ℕ 0 bothListen {joiner, seed}
    (fun _ x ↦ (startTable 11211 x).ring) (fun _ x _ ↦ isView_startTable 11211 x)
    (fun _ x hx e he ↦ mem_startTable hx he) _ _ hrun [65]
  refine ⟨_, hexec, .group hd rfl hc, .fetch hc rfl (link_connect_self ..),
    htravels joiner (by decide), ?_, hacyclic⟩
  exact hnearer 0 joiner (by decide) seed (forward_eq_some.mpr ⟨owner_joiner 11211, by decide⟩)

end Grid

end Pensieve
