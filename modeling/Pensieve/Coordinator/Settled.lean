import Pensieve.Coordinator.Front
import Pensieve.Coordinator.Integrity

/-!
# Clusters that agree

While the nodes of a cluster hold one ring, a request that comes from another node is for the node
it comes to, which performs it as it arrives.  So a connection between two nodes holds a request
whose response is known (`Settled.served`), and requests travel one hop.
-/

namespace Pensieve

open Foundation

/-! ## Steps of one node -/

namespace Coordinator

variable {C : Type*} [DecidableEq C] {n : ℕ} {W O : Type*} {peers : Peers W O}
  {s s' : Coordinator C n W} {ev : List (Event C O)} {a : Action C O}

/-- A response that is being written stays until it is written. -/
theorem Turn.replying (h : Turn peers s a s') {d : C} {r : ℕ} {req : Request} {resp : Response}
    (hd : s.conn d = .replying r req resp) (hanswer : a ≠ .answer d) (hhangUp : a ≠ .hangUp d) :
    s'.conn d = .replying r req resp := by
  have hne : ∀ {c : C} {x : Option (Request × Option Response)}, Touches s s' c x → d ≠ c →
      s'.conn d = .replying r req resp := fun ht hdc ↦ (ht.conn d hdc).trans hd
  cases h with
  | asked hc hroute ht => exact hne ht (by rintro rfl; simp [hc] at hd)
  | performed hc ht => exact hne ht (by rintro rfl; simp [hc] at hd)
  | served hc hw ht => exact hne ht (by rintro rfl; simp [hc] at hd)
  | replied hc ht => exact hne ht (by rintro rfl; simp [hc] at hd)
  | failed hc ht => exact hne ht (by rintro rfl; simp [hc] at hd)
  | shared hc hget hwaiting hother hconn => rw [hconn, hd]
  | quiet ha hfront hcalling hreplying => exact hreplying d r req resp hd
  | answered hc ht => exact hne ht (by rintro rfl; exact hanswer rfl)
  | hungUp hc ht => exact hne ht (by rintro rfl; exact hhangUp rfl)

omit [DecidableEq C] in
theorem front_of_request {c : C} {req : Request} (h : request (s.conn c) = some req) :
    ∃ o, s.front c = some (req, o) := by
  rw [← view_fst s.group.group.published] at h
  obtain ⟨⟨req', o⟩, ho, rfl⟩ := Option.map_eq_some_iff.mp h
  exact ⟨o, ho⟩

/-- A connection that has been answered or closed is at no request. -/
theorem Turn.request_eq_none (h : Turn peers s a s') {c : C} (ha : a = .answer c ∨ a = .hangUp c) :
    request (s'.conn c) = none := by
  have hnone : s'.front c = none → request (s'.conn c) = none := by
    intro hfront
    rw [← view_fst s'.group.group.published, ← front, hfront]
    rfl
  rcases ha with rfl | rfl
  · cases h with
    | answered hc ht => exact hnone (by rw [ht.front, Function.update_self])
    | quiet ha => cases ha
  · cases h with
    | hungUp hc ht => exact hnone (by rw [ht.front, Function.update_self])
    | quiet ha => cases ha

end Coordinator

/-! ## Following a request -/

namespace Grid

open Coordinator RingStore

variable {C : Type*} [DecidableEq C] {n : ℕ} {listens : Address → Option NodeId} {g : Grid C n}
  {x : NodeId} {c : C} {s : Coordinator C n Unit} {p q : NodeId × C}
  {v : Option (Request × Option Response)}

/-- What is known of a request, where it is. -/
def followed (g : Grid C n) (p : NodeId × C) : Option (Request × Option Response) :=
  let q := (g.link p).getD p
  (g.node q.1).front q.2

omit [DecidableEq C] in
theorem followed_of_link (h : g.link p = some q) : g.followed p = (g.node q.1).front q.2 := by
  rw [followed, h]
  rfl

omit [DecidableEq C] in
theorem followed_of_none (h : g.link p = none) : g.followed p = (g.node p.1).front p.2 := by
  rw [followed, h]
  rfl

omit [DecidableEq C] in
/-- Only a request that is on its way has a link. -/
theorem Inv.link_eq_none (h : Inv listens g) (hp : ((g.node p.1).conn p.2).isCalling = false) :
    g.link p = none := by
  by_contra hsome
  obtain ⟨q, hq⟩ := Option.ne_none_iff_exists'.mp hsome
  obtain ⟨r, req, handle, a, hc, -⟩ := h.linked p.1 p.2 q.1 q.2 hq
  rw [hc] at hp
  cases hp

omit [DecidableEq C] in
/-- A request that stays on its way keeps its link. -/
theorem Inv.link_move (h : Inv listens g)
    (hcalling : p.1 = x → ((g.node x).conn p.2).isCalling = true →
      (s.conn p.2).isCalling = true) : (g.move x s).link p = g.link p := by
  rcases hlink : g.link p with _ | q
  · by_contra hsome
    obtain ⟨q, hq⟩ := Option.ne_none_iff_exists'.mp hsome
    cases hlink.symm.trans (Grid.link_move hq)
  · obtain ⟨r, req, handle, a, hc, -⟩ := h.linked p.1 p.2 q.1 q.2 hlink
    refine (if_pos ?_).trans hlink
    by_cases hx : p.1 = x
    · have := hcalling hx (by rw [← hx, hc]; rfl)
      simp [this]
    · simp [hx]

theorem Inv.followed_move_of_ne (h : Inv listens g) (ht : Touches (g.node x) s c v)
    (hp : p ≠ (x, c)) (hlink : g.link p ≠ some (x, c)) :
    (g.move x s).followed p = g.followed p := by
  have hfront : ∀ q, q ≠ (x, c) → ((g.move x s).node q.1).front q.2 = (g.node q.1).front q.2 := by
    rintro ⟨z, e⟩ hq
    by_cases hz : z = x
    · subst hz
      have he : e ≠ c := by
        rintro rfl
        exact hq rfl
      rw [node_move_self, ht.front, Function.update_of_ne he]
    · rw [node_move_of_ne hz]
  have hsame : (g.move x s).link p = g.link p := by
    refine h.link_move fun hx hcalling ↦ ?_
    have hpc : p.2 ≠ c := fun heq ↦ hp (Prod.ext hx heq)
    rw [ht.conn p.2 hpc, hcalling]
  rw [followed, followed, hsame]
  apply hfront
  rcases hq : g.link p with _ | q
  · exact hp
  · rw [hq] at hlink
    exact fun heq ↦ hlink (congrArg some heq)

theorem followed_move_self (ht : Touches (g.node x) s c v)
    (hlink : (g.move x s).link (x, c) = none) : (g.move x s).followed (x, c) = v := by
  rw [followed_of_none hlink, node_move_self, ht.front, Function.update_self]

omit [DecidableEq C] in
/-- Nobody is linked to a connection that has no caller. -/
theorem Paired.link_ne (h : g.Paired fun _ ↦ True) (hq : g.caller q = none) (p : NodeId × C) :
    g.link p ≠ some q := by
  intro hlink
  cases hq.symm.trans (h p q trivial hlink).caller

/-! ## A common ring -/

/-- The node that a key belongs to. -/
def ownerOf (ring : Ring) (key : Bytes) : Option NodeId :=
  getNodeForKey ring (hashKey key)

/-- What the owner of a key holds for it. -/
def contents (ring : Ring) (g : Grid C n) (key : Bytes) : Option Bytes :=
  (ownerOf ring key).bind fun y ↦ (g.node y).store.contents key

omit [DecidableEq C] in
theorem contents_move {ring : Ring} (hstore : s.store = (g.node x).store) :
    (g.move x s).contents ring = g.contents ring := by
  funext key
  rw [contents, contents]
  congr 1
  funext y
  by_cases hy : y = x
  · subst hy
    rw [node_move_self, hstore]
  · rw [node_move_of_ne hy]

/-- All nodes hold one ring, and the addresses that they have for each other lead to them, or to
nobody. -/
def OneRing (listens : Address → Option NodeId) (ring : Ring) (g : Grid C n) : Prop :=
  ∀ x, (g.node x).ring = ring ∧ Placed listens x (g.node x).members

/-- What is on its way goes to the owner of its key, and that is another node. -/
def Directed (listens : Address → Option NodeId) (ring : Ring) (g : Grid C n) : Prop :=
  ∀ x c r req handle a y, (g.node x).conn c = .proxying r req handle (.calling (some a)) →
    listens a = some y → ownerOf ring req.key = some y ∧ x ≠ y

variable {ring : Ring} {g' : Grid C n} {a : Coordinator.Action C Response}

omit [DecidableEq C] in
theorem OneRing.congr (hsame : SameFrame g g') (h : OneRing listens ring g) :
    OneRing listens ring g' := by
  intro x
  obtain ⟨hring, hmembers⟩ := hsame x
  rw [hring, hmembers]
  exact h x

theorem Directed.take (h : Directed listens ring g) (hinv : Inv listens g)
    (hone : OneRing listens ring g) (hstep : g.take x a = some g') :
    Directed listens ring g' := by
  obtain ⟨s, ev, hs, rfl⟩ := take_eq_some hstep
  intro z e r req handle address y hc hy
  by_cases hz : z = x
  · subst hz
    rw [node_move_self] at hc
    rcases calling_of_steps (step_steps hs) hc with hc | ⟨-, owner, hroute⟩
    · exact h z e r req handle address y hc hy
    · obtain ⟨hring, hplaced⟩ := hone z
      obtain rfl : y = owner := hplaced.owner (hinv.self_eq z) hroute hy
      obtain ⟨⟨howner, hne⟩, -⟩ := route_eq_remote hroute
      rw [hring] at howner
      rw [hinv.self_eq z] at hne
      exact ⟨howner, hne.symm⟩
  · rw [node_move_of_ne hz] at hc
    exact h z e r req handle address y hc hy

omit [DecidableEq C] in
/-- The owner of a key serves it. -/
theorem OneRing.route_owner (h : OneRing listens ring g) (hinv : Inv listens g) {y : NodeId}
    {key : Bytes} (howner : ownerOf ring key = some y) : (g.node y).route key = .here := by
  have hfound : getNodeForKey (g.node y).ring (hashKey key) = some y := by
    rw [(h y).1]
    exact howner
  rw [route, hfound]
  simp only [hinv.self_eq y, if_true]

omit [DecidableEq C] in
/-- A node that serves a key owns it. -/
theorem OneRing.owner_of_route (h : OneRing listens ring g) (hinv : Inv listens g)
    (hring : ring.entries ≠ []) {y : NodeId} {key : Bytes}
    (hroute : (g.node y).route key = .here) : ownerOf ring key = some y := by
  have hsome : (getNodeForKey ring (hashKey key)).isSome = true := by
    rw [getNodeForKey, Option.isSome_map]
    exact SortedMap.ceilWrap_isSome hring _
  obtain ⟨owner, howner⟩ := Option.isSome_iff_exists.mp hsome
  rw [route, (h y).1, howner, hinv.self_eq y] at hroute
  simp only at hroute
  split_ifs at hroute with heq
  rw [ownerOf, howner, heq]

end Grid

namespace Service

open Coordinator Grid

variable {C : Type*} {n : ℕ}

/-! ## A cluster with one ring -/

/-- No client waits on the connection. -/
def hidden (s : Service C n) (q : NodeId × C) : Bool := (s.grid.caller q).isSome || s.orphan q

variable [DecidableEq C] {listens : Address → Option NodeId} {ring : Ring} {s s' : Service C n}
  {tr ev : List (ClientEvent C)}

/-- What holds while the nodes agree: what came from another node is performed already. -/
structure Settled (listens : Address → Option NodeId) (ring : Ring) (s : Service C n) : Prop where
  directed : Directed listens ring s.grid
  late : ∀ e ∈ s.abandoned, ∀ y, listens e.1 = some y → ownerOf ring e.2.key = some y
  served : ∀ q, s.hidden q = true →
    ∃ r req resp, (s.grid.node q.1).conn q.2 = .replying r req resp

theorem Whole.turn (h : Whole listens s tr) {x : NodeId} {a : Coordinator.Action C Response}
    {t : Coordinator C n Unit} {ev : List (Coordinator.Event C Response)}
    (hs : (s.grid.node x).step anyPeers a = some (t, ev)) : Turn anyPeers (s.grid.node x) a t := by
  obtain ⟨tr', hrun, -⟩ := h.honest x
  exact turn_of_step hrun hs

omit [DecidableEq C] in
theorem hidden_of_orphaned {g : Grid C n} {ab : List (Address × Request)} {q : NodeId × C}
    (hcaller : ∀ p, g.caller q = some p → s.grid.caller q = some p)
    (h : hidden ⟨g, s.orphaned g, ab⟩ q = true) :
    s.hidden q = true ∧ ((g.caller q).isSome = true ∨
      (request ((g.node q.1).conn q.2)).isSome = true) := by
  rcases Bool.or_eq_true_iff.mp h with hq | hq
  · obtain ⟨p, hp⟩ := Option.isSome_iff_exists.mp hq
    refine ⟨?_, Or.inl hq⟩
    simp [hidden, hcaller p hp]
  · obtain ⟨hbusy, hq⟩ := Bool.and_eq_true_iff.mp hq
    refine ⟨?_, Or.inr hbusy⟩
    rcases Bool.or_eq_true_iff.mp hq with hq | hq
    · simp [hidden, hq]
    · simp [hidden, (Bool.and_eq_true_iff.mp hq).1]

omit [DecidableEq C] in
theorem caller_of_move {g : Grid C n} {x : NodeId} {t : Coordinator C n Unit} {p q : NodeId × C}
    (h : (g.move x t).caller q = some p) : g.caller q = some p :=
  (Option.filter_eq_some_iff.mp h).1

/-- What came from another node stays so when a node takes a step. -/
theorem Whole.replying_move (hw : Whole listens s tr) {x : NodeId}
    {a : Coordinator.Action C Response} {t : Coordinator C n Unit}
    {ev : List (Coordinator.Event C Response)}
    (hs : (s.grid.node x).step anyPeers a = some (t, ev)) {q : NodeId × C} {r : ℕ} {req : Request}
    {resp : Response} (hq : (s.grid.node q.1).conn q.2 = .replying r req resp)
    (hfree : q.1 = x → a ≠ .answer q.2 ∧ a ≠ .hangUp q.2) :
    ((s.grid.move x t).node q.1).conn q.2 = .replying r req resp := by
  by_cases hx : q.1 = x
  · obtain ⟨hanswer, hhangUp⟩ := hfree hx
    rw [hx] at hq ⊢
    rw [node_move_self]
    exact (hw.turn hs).replying hq hanswer hhangUp
  · rw [node_move_of_ne hx]
    exact hq

theorem Settled.own (h : Settled listens ring s) (hw : Whole listens s tr)
    (hone : OneRing listens ring s.grid) {x : NodeId} {a : Coordinator.Action C Response}
    {g : Grid C n} (hown : s.grid.isOwn x a = true) (htake : s.grid.take x a = some g) :
    Settled listens ring ⟨g, s.orphaned g, s.dropped (.own x a) ++ s.abandoned⟩ := by
  refine ⟨h.directed.take hw.inv.grid hone htake, fun e he ↦ ?_, fun q hq ↦ ?_⟩
  · rcases List.mem_append.mp he with he | he
    · obtain ⟨c, r, handle, hc⟩ := proxying_of_dropped he
      exact fun y hy ↦ (h.directed x c r e.2 handle e.1 y hc hy).1
    · exact h.late e he
  · obtain ⟨t, ev, hs, rfl, -⟩ := hw.inv.grid.take htake
    obtain ⟨hhidden, hbusy⟩ := hidden_of_orphaned (fun p ↦ caller_of_move) hq
    obtain ⟨r, req, resp, hreplying⟩ := h.served q hhidden
    refine ⟨r, req, resp, hw.replying_move hs hreplying ?_⟩
    -- A connection on which the node answers on its own is not hidden any more.
    rintro rfl
    have hfree : ¬ (a = .answer q.2 ∨ a = .hangUp q.2) := by
      intro ha
      have hcaller : s.grid.caller q = none := by
        rcases ha with rfl | rfl <;> exact Option.isNone_iff_eq_none.mp hown
      rcases hbusy with hbusy | hbusy
      · rw [caller_move_eq_none hcaller] at hbusy
        cases hbusy
      · rw [node_move_self, (hw.turn hs).request_eq_none ha] at hbusy
        cases hbusy
    exact not_or.mp hfree

/-- A request comes in at the owner of its key. -/
theorem Whole.performed (hw : Whole listens s tr) (hone : OneRing listens ring s.grid) {y : NodeId}
    {d : C} {req : Request} {t : Coordinator C n Unit} {ev : List (Coordinator.Event C Response)}
    (howner : ownerOf ring req.key = some y)
    (hs : (s.grid.node y).step anyPeers (.receive d req) = some (t, ev)) :
    (s.grid.node y).conn d = .reading ∧ ∃ resp,
      Touches (s.grid.node y) t d (some (req, some resp)) ∧
      (∃ r, t.conn d = .replying r req resp) ∧
      (req.opcode = .clusterInfo ∧ t.store = (s.grid.node y).store ∨
        ownerOf ring req.key = some y ∧
          (resp, t.store) = serveLocal (s.grid.node y).store req) := by
  cases hw.turn hs with
  | asked hc hroute =>
      rw [hone.route_owner hw.inv.grid howner] at hroute
      cases hroute
  | performed hc ht hreplying hserve =>
      exact ⟨hc, _, ht, ⟨_, hreplying⟩, hserve.imp_right fun hs ↦ ⟨howner, hs.2⟩⟩
  | quiet ha => cases ha

/-- What the two nodes do when a response goes back. -/
theorem Settled.returned (h : Settled listens ring s) (hw : Whole listens s tr) {x y : NodeId}
    {c d : C} {resp : Response} {g₁ g : Grid C n} (hlink : s.grid.link (x, c) = some (y, d))
    (hanswer : s.grid.take y (.answer d) = some g₁)
    (hserve : g₁.take x (.serve c resp) = some g) :
    x ≠ y ∧ Grid.Inv listens g₁ ∧ Grid.Inv listens g ∧ ∃ t₁ t₂,
      g₁ = s.grid.move y t₁ ∧ g = g₁.move x t₂ ∧
      Turn anyPeers (s.grid.node y) (.answer d) t₁ ∧
      Turn anyPeers (s.grid.node x) (.serve c resp) t₂ := by
  obtain ⟨r, req, handle, address, hc, hy⟩ := hw.inv.grid.linked x c y d hlink
  have hxy := (h.directed x c r req handle address y hc hy).2
  obtain ⟨t₁, ev₁, hs₁, rfl, hinv₁⟩ := hw.inv.grid.take hanswer
  obtain ⟨t₂, ev₂, hs₂, rfl, hinv₂⟩ := hinv₁.take hserve
  rw [node_move_of_ne hxy] at hs₂
  exact ⟨hxy, hinv₁, hinv₂, t₁, t₂, rfl, rfl, hw.turn hs₁, hw.turn hs₂⟩

theorem Settled.return (h : Settled listens ring s) (hw : Whole listens s tr)
    (hone : OneRing listens ring s.grid) {x y : NodeId} {c d : C} {resp : Response}
    {g₁ g : Grid C n} (hlink : s.grid.link (x, c) = some (y, d))
    (hanswer : s.grid.take y (.answer d) = some g₁)
    (hserve : g₁.take x (.serve c resp) = some g) :
    Settled listens ring ⟨g, s.orphaned g, s.abandoned⟩ := by
  obtain ⟨hxy, hinv₁, -, t₁, t₂, rfl, rfl, hturn₁, hturn₂⟩ := h.returned hw hlink hanswer hserve
  have hone₁ := OneRing.congr (frame_of_take hanswer (by simp)) hone
  have hdirected := h.directed.take hw.inv.grid hone hanswer
  refine ⟨hdirected.take hinv₁ hone₁ hserve, h.late, fun q hq ↦ ?_⟩
  obtain ⟨hhidden, hbusy⟩ := hidden_of_orphaned
    (fun p hp ↦ caller_of_move (caller_of_move hp)) hq
  obtain ⟨r, req, resp', hreplying⟩ := h.served q hhidden
  have hqd : q ≠ (y, d) := by
    rintro rfl
    rcases hbusy with hbusy | hbusy
    · -- The link to it has been cut.
      obtain ⟨p, hp⟩ := Option.isSome_iff_exists.mp hbusy
      obtain ⟨hcaller, hkept⟩ := Option.filter_eq_some_iff.mp hp
      cases (hw.inv.paired _ _ trivial hlink).caller.symm.trans (caller_of_move hcaller)
      cases hturn₂ with
      | served hc hw ht hcalling => simp [hcalling] at hkept
      | quiet ha => cases ha
    · rw [node_move_of_ne (Ne.symm hxy), node_move_self,
        hturn₁.request_eq_none (Or.inl rfl)] at hbusy
      cases hbusy
  refine ⟨r, req, resp', ?_⟩
  by_cases hqx : q.1 = x
  · rw [hqx] at hreplying ⊢
    rw [node_move_self]
    exact hturn₂.replying hreplying (by simp) (by simp)
  · rw [node_move_of_ne hqx]
    by_cases hqy : q.1 = y
    · rw [hqy] at hreplying ⊢
      rw [node_move_self]
      have hne : d ≠ q.2 := fun heq ↦ hqd (Prod.ext hqy heq.symm)
      exact hturn₁.replying hreplying (by simpa using hne) (by simp)
    · rw [node_move_of_ne hqy]
      exact hreplying

theorem Settled.moves (h : Settled listens ring s) (hw : Whole listens s tr)
    (hone : OneRing listens ring s.grid) {a : Action C} (hm : Moves listens s a s' ev) :
    Settled listens ring s' := by
  cases hm with
  | own hown htake => exact h.own hw hone hown htake
  | @call x y c d r req handle address g hc hlistens hlink hcaller htake =>
      have howner := (h.directed x c r req handle address y hc hlistens).1
      have hdirected := h.directed.take hw.inv.grid hone htake
      obtain ⟨t, ev, hs, rfl, -⟩ := hw.inv.grid.take htake
      obtain ⟨-, resp, -, ⟨r', hreplying⟩, -⟩ := hw.performed hone howner hs
      refine ⟨hdirected, h.late, fun q hq ↦ ?_⟩
      by_cases hqd : q = (y, d)
      · subst hqd
        refine ⟨r', req, resp, ?_⟩
        simp only [connect, node_move_self]
        exact hreplying
      · have hcaller' : ((s.grid.move y t).connect (x, c) (y, d)).caller q =
            (s.grid.move y t).caller q := Function.update_of_ne hqd ..
        obtain ⟨hhidden, -⟩ := hidden_of_orphaned
          (fun p hp ↦ caller_of_move (hcaller'.symm.trans hp)) hq
        obtain ⟨r₁, req₁, resp₁, hq₁⟩ := h.served q hhidden
        exact ⟨r₁, req₁, resp₁, hw.replying_move hs hq₁ (by simp)⟩
  | «return» hlink hd hanswer hserve => exact h.return hw hone hlink hanswer hserve
  | @late y d i req address g hi hlistens hcaller htake =>
      have hmem := List.mem_of_getElem? hi
      have howner := h.late _ hmem y hlistens
      have hdirected := h.directed.take hw.inv.grid hone htake
      obtain ⟨t, ev, hs, rfl, -⟩ := hw.inv.grid.take htake
      obtain ⟨-, resp, -, ⟨r', hreplying⟩, -⟩ := hw.performed hone howner hs
      refine ⟨hdirected, fun e he ↦ h.late e (List.mem_of_mem_eraseIdx he), fun q hq ↦ ?_⟩
      by_cases hqd : q = (y, d)
      · subst hqd
        refine ⟨r', req, resp, ?_⟩
        rw [node_move_self]
        exact hreplying
      · have hhidden : s.hidden q = true := by
          rcases Bool.or_eq_true_iff.mp hq with hq | hq
          · obtain ⟨p, hp⟩ := Option.isSome_iff_exists.mp hq
            simp [hidden, caller_of_move hp]
          · have horphan : s.orphan q = true := (Function.update_of_ne hqd ..).symm.trans hq
            simp [hidden, horphan]
        obtain ⟨r₁, req₁, resp₁, hq₁⟩ := h.served q hhidden
        exact ⟨r₁, req₁, resp₁, hw.replying_move hs hq₁ (by simp)⟩

end Service

end Pensieve
