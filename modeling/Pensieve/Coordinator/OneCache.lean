import Pensieve.Coordinator.Cache
import Pensieve.Coordinator.Settled
import Pensieve.Foundation.Simulation

/-!
# The cluster is one cache

While the nodes of a cluster agree on the ring, its clients see one cache (`acts_as_one_cache`).
Which node they talk to makes no difference: a request that comes in elsewhere is performed once,
by the owner of its key, before it is answered.

The abstraction function is `cache`.  The contents of a key are those of its owner's store.  A
request has its response when the connection it came in on knows it, or, while it is at a peer,
the connection it came in on there.
-/

namespace Pensieve

open Foundation

namespace Service

open Coordinator Grid

variable {C : Type*} {n : ℕ}

/-- The cache that clients see. -/
def cache (ring : Ring) (s : Service C n) : Cache C where
  contents := s.grid.contents ring
  pending p := if s.hidden p then none else s.grid.followed p
  late := s.abandoned.map Prod.snd

variable [DecidableEq C] {listens : Address → Option NodeId} {ring : Ring} {s s' : Service C n}
  {tr ev : List (ClientEvent C)}

/-! ## What clients see of a step -/

/-- What the owner of a key does is done by the cache. -/
theorem Whole.performs (hw : Whole listens s tr) {y : NodeId} {req : Request} {resp : Response}
    {t : Coordinator C n Unit}
    (hserve : req.opcode = .clusterInfo ∧ t.store = (s.grid.node y).store ∨
      ownerOf ring req.key = some y ∧ (resp, t.store) = serveLocal (s.grid.node y).store req) :
    Performs (s.grid.contents ring) req resp ((s.grid.move y t).contents ring) := by
  rcases hserve with ⟨hinfo, hstore⟩ | ⟨howner, hserve⟩
  · rw [contents_move hstore]
    exact ⟨.nop, .clusterInfo hinfo resp, fun k ↦ Or.inr rfl⟩
  have hmine : ∀ k, ownerOf ring k = some y →
      s.grid.contents ring k = (s.grid.node y).store.contents k ∧
        (s.grid.move y t).contents ring k = t.store.contents k := by
    intro k hk
    rw [Grid.contents, Grid.contents, hk, Option.bind_some, Option.bind_some, node_move_self]
    exact ⟨rfl, rfl⟩
  have hother : ∀ k, ¬ ownerOf ring k = some y →
      (s.grid.move y t).contents ring k = s.grid.contents ring k := by
    intro k hk
    rw [Grid.contents, Grid.contents]
    rcases hz : ownerOf ring k with _ | z
    · rfl
    · have hzy : z ≠ y := by
        rintro rfl
        exact hk hz
      rw [Option.bind_some, Option.bind_some, node_move_of_ne hzy]
  obtain ⟨tr', -, hhonest⟩ := hw.honest y
  have hpart := serveLocal_performs hhonest.store.books req
  rw [← hserve] at hpart
  exact hpart.of_part _ howner hmine hother

omit [DecidableEq C] in
theorem followed_eq_none {g : Grid C n} {p : NodeId × C} (h : Grid.Inv listens g)
    (hp : request ((g.node p.1).conn p.2) = none) : g.followed p = none := by
  have hcalling : ((g.node p.1).conn p.2).isCalling = false := by
    by_contra hne
    obtain ⟨r, req, handle, address, hc⟩ := isCalling_eq_true (by simpa using hne)
    rw [hc] at hp
    cases hp
  rw [followed_of_none (h.link_eq_none hcalling), front, ← Option.map_eq_none_iff (f := Prod.fst),
    view_fst, hp]

omit [DecidableEq C] in
/-- A connection on which nobody waits any more stays hidden, until it is free again. -/
theorem pending_orphaned {g : Grid C n} {ab : List (Address × Request)} {p : NodeId × C}
    (hinv : Grid.Inv listens g)
    (hcaller : ∀ p₀, g.caller p = some p₀ → s.grid.caller p = some p₀) :
    (cache ring ⟨g, s.orphaned g, ab⟩).pending p =
      if s.hidden p then none else g.followed p := by
  rcases hreq : request ((g.node p.1).conn p.2) with _ | req
  · simp only [cache, followed_eq_none hinv hreq, ite_self]
  · have hsame : hidden ⟨g, s.orphaned g, ab⟩ p = s.hidden p := by
      rcases hg : g.caller p with _ | p₀
      · simp only [hidden, orphaned, hg, hreq, Option.isSome_none, Option.isSome_some,
          Option.isNone_none, Bool.true_and, Bool.and_true, Bool.false_or, Bool.or_comm]
      · simp [hidden, hg, hcaller p₀ hg]
    simp only [cache, hsame]

/-- One connection moves on. -/
theorem Whole.pending_touched (hw : Whole listens s tr) (ring : Ring)
    (ab : List (Address × Request)) {x : NodeId} {c : C}
    {v : Option (Request × Option Response)} {t : Coordinator C n Unit}
    (hinv : Grid.Inv listens (s.grid.move x t))
    (ht : Touches (s.grid.node x) t c v) (hcaller : s.grid.caller (x, c) = none)
    (hlink : (s.grid.move x t).link (x, c) = none) :
    (cache ring ⟨s.grid.move x t, s.orphaned (s.grid.move x t), ab⟩).pending =
      if s.hidden (x, c) then (s.cache ring).pending
      else Function.update (s.cache ring).pending (x, c) v := by
  funext p
  rw [pending_orphaned hinv fun p₀ ↦ caller_of_move]
  by_cases hp : p = (x, c)
  · subst hp
    rw [followed_move_self ht hlink]
    split_ifs with hhidden
    · simp only [cache, hhidden, if_true]
    · rw [Function.update_self]
  · rw [hw.inv.grid.followed_move_of_ne ht hp (hw.inv.paired.link_ne hcaller p)]
    split_ifs <;> simp_all [cache]

omit [DecidableEq C] in
theorem pending_of_none {p : NodeId × C} (hhidden : s.hidden p = false)
    (hlink : s.grid.link p = none) :
    (s.cache ring).pending p = (s.grid.node p.1).front p.2 := by
  simp only [cache, hhidden, Bool.false_eq_true, if_false]
  exact followed_of_none hlink

omit [DecidableEq C] in
/-- A connection that reads, and not from another node, is free for a client. -/
theorem Inv.free (h : Inv listens s) (ring : Ring) {x : NodeId} {c : C}
    (hcaller : s.grid.caller (x, c) = none) (hc : (s.grid.node x).conn c = .reading) :
    s.hidden (x, c) = false ∧ (s.cache ring).pending (x, c) = none ∧
      ∀ t, (s.grid.move x t).link (x, c) = none := by
  have horphan : s.orphan (x, c) = false := by
    by_contra hne
    have hbusy := h.busy (x, c) (by simpa using hne)
    rw [hc] at hbusy
    cases hbusy
  have hhidden : s.hidden (x, c) = false := by simp [hidden, hcaller, horphan]
  have hlink : s.grid.link (x, c) = none := h.grid.link_eq_none (by rw [hc]; rfl)
  refine ⟨hhidden, ?_, fun t ↦ ?_⟩
  · rw [pending_of_none hhidden hlink, front, hc]
    rfl
  · by_contra hsome
    obtain ⟨q, hq⟩ := Option.ne_none_iff_exists'.mp hsome
    cases hlink.symm.trans (link_move hq)

omit [DecidableEq C] in
/-- What came from another node is not on its way any more. -/
theorem Settled.not_hidden (h : Settled listens ring s) {p : NodeId × C}
    (hp : ∀ r req resp, (s.grid.node p.1).conn p.2 ≠ .replying r req resp) :
    s.hidden p = false := by
  by_contra hne
  obtain ⟨r, req, resp, hc⟩ := h.served p (by simpa using hne)
  exact hp r req resp hc

omit [DecidableEq C] in
theorem caller_of_not_hidden {p : NodeId × C} (h : s.hidden p = false) :
    s.grid.caller p = none := by
  simpa using (Bool.or_eq_false_iff.mp h).1

/-- A client's request goes to a peer, or waits for another's fetch. -/
theorem Whole.simulates_asked (hw : Whole listens s tr) {x : NodeId} {c : C} {req : Request}
    {t : Coordinator C n Unit} (hinv : Grid.Inv listens (s.grid.move x t))
    (hcaller : s.grid.caller (x, c) = none) (hc : (s.grid.node x).conn c = .reading)
    (ht : Touches (s.grid.node x) t c (some (req, none)))
    (hstore : t.store = (s.grid.node x).store) :
    Trace Cache.Step (s.cache ring) [.asked x c req]
      (cache ring ⟨s.grid.move x t, s.orphaned (s.grid.move x t), s.abandoned⟩) := by
  obtain ⟨hhidden, hnone, hlink⟩ := hw.inv.free ring hcaller hc
  have hcache : cache ring ⟨s.grid.move x t, s.orphaned (s.grid.move x t), s.abandoned⟩ =
      { s.cache ring with
        pending := Function.update (s.cache ring).pending (x, c) (some (req, none)) } := by
    refine Cache.ext (contents_move hstore) ?_ rfl
    rw [hw.pending_touched _ _ hinv ht hcaller (hlink t), hhidden]
    rfl
  rw [hcache]
  exact .single (.ask hnone)

/-- A client's request is answered where it comes in. -/
theorem Whole.simulates_performed (hw : Whole listens s tr) {x : NodeId} {c : C} {req : Request}
    {resp : Response} {t : Coordinator C n Unit} (hinv : Grid.Inv listens (s.grid.move x t))
    (hcaller : s.grid.caller (x, c) = none) (hc : (s.grid.node x).conn c = .reading)
    (ht : Touches (s.grid.node x) t c (some (req, some resp)))
    (hserve : req.opcode = .clusterInfo ∧ t.store = (s.grid.node x).store ∨
      ownerOf ring req.key = some x ∧ (resp, t.store) = serveLocal (s.grid.node x).store req) :
    Trace Cache.Step (s.cache ring) [.asked x c req]
      (cache ring ⟨s.grid.move x t, s.orphaned (s.grid.move x t), s.abandoned⟩) := by
  obtain ⟨hhidden, hnone, hlink⟩ := hw.inv.free ring hcaller hc
  let asked : Cache C :=
    { s.cache ring with
      pending := Function.update (s.cache ring).pending (x, c) (some (req, none)) }
  have hcache : cache ring ⟨s.grid.move x t, s.orphaned (s.grid.move x t), s.abandoned⟩ =
      { asked with
        contents := (s.grid.move x t).contents ring
        pending := Function.update asked.pending (x, c) (some (req, some resp)) } := by
    refine Cache.ext rfl ?_ rfl
    rw [hw.pending_touched _ _ hinv ht hcaller (hlink t), hhidden]
    simp only [asked, Function.update_idem]
    rfl
  rw [hcache]
  have hask : Cache.Step (s.cache ring) [.asked x c req] asked := .ask hnone
  exact (Trace.single hask).tail (.perform (Function.update_self ..) (hw.performs hserve))

/-- The response of a peer has come in: that it would be this one was known before. -/
theorem Settled.cache_replied (h : Settled listens ring s) (hw : Whole listens s tr)
    {x : NodeId} {c : C} {r : ℕ} {req : Request} {handle : Option ℕ} {resp : Response}
    {t : Coordinator C n Unit} (hinv : Grid.Inv listens (s.grid.move x t))
    (hc : (s.grid.node x).conn c = .proxying r req handle (.served resp))
    (ht : Touches (s.grid.node x) t c (some (req, some resp)))
    (hcalling : (t.conn c).isCalling = false) (hstore : t.store = (s.grid.node x).store) :
    cache ring ⟨s.grid.move x t, s.orphaned (s.grid.move x t), s.abandoned⟩ = s.cache ring := by
  have hhidden : s.hidden (x, c) = false := h.not_hidden (by simp [hc])
  have hlink : s.grid.link (x, c) = none := hw.inv.grid.link_eq_none (by rw [hc]; rfl)
  have hknown : (s.cache ring).pending (x, c) = some (req, some resp) := by
    rw [pending_of_none hhidden hlink, front, hc]
    rfl
  refine Cache.ext (contents_move hstore) ?_ rfl
  rw [hw.pending_touched _ _ hinv ht (caller_of_not_hidden hhidden)
    (hinv.link_eq_none (by rwa [node_move_self])), hhidden]
  simp only [Bool.false_eq_true, if_false]
  rw [← hknown, Function.update_eq_self]

/-- A request that is proxied is pending.  If giving it up leaves it to come in later, it has no
response. -/
theorem Whole.pending_proxied (hw : Whole listens s tr) {x : NodeId} {c : C} {r : ℕ}
    {req : Request} {handle : Option ℕ} {stage : Stage} (hhidden : s.hidden (x, c) = false)
    (hc : (s.grid.node x).conn c = .proxying r req handle stage) :
    ∃ o, (s.cache ring).pending (x, c) = some (req, o) ∧
      (s.dropped (.own x (.fail c)) = [] ∨
        o = none ∧ ∃ a, s.dropped (.own x (.fail c)) = [(a, req)]) := by
  rcases hlink : s.grid.link (x, c) with _ | q
  · rw [pending_of_none hhidden hlink, front]
    rcases stage with (_ | a) | resp
    · exact ⟨none, by simp [hc, view], Or.inl (by simp [dropped, hc])⟩
    · exact ⟨none, by simp [hc, view], Or.inr ⟨rfl, a, by simp [dropped, hc, hlink]⟩⟩
    · exact ⟨some resp, by simp [hc, view], Or.inl (by simp [dropped, hc])⟩
  · obtain ⟨-, r', req', handle', a, hc', hreq⟩ := hw.inv.paired _ _ trivial hlink
    cases hc.symm.trans hc'
    obtain ⟨o, ho⟩ := front_of_request hreq
    refine ⟨o, ?_, Or.inl (by simp [dropped, hc, hlink])⟩
    simp only [cache, hhidden, Bool.false_eq_true, if_false]
    rw [followed_of_link hlink, ho]

/-- A node gives up on a peer. -/
theorem Settled.simulates_failed (h : Settled listens ring s) (hw : Whole listens s tr)
    {x : NodeId} {c : C} {r : ℕ} {req : Request} {handle : Option ℕ} {stage : Stage}
    {t : Coordinator C n Unit} (hinv : Grid.Inv listens (s.grid.move x t))
    (hc : (s.grid.node x).conn c = .proxying r req handle stage)
    (ht : Touches (s.grid.node x) t c (some (req, some ⟨.error, []⟩)))
    (hcalling : (t.conn c).isCalling = false) (hstore : t.store = (s.grid.node x).store) :
    Trace Cache.Step (s.cache ring) []
      (cache ring ⟨s.grid.move x t, s.orphaned (s.grid.move x t),
        s.dropped (.own x (.fail c)) ++ s.abandoned⟩) := by
  have hhidden : s.hidden (x, c) = false := h.not_hidden (by simp [hc])
  -- The request has a response if it has come in at the peer.
  obtain ⟨o, hpending, hdropped⟩ := hw.pending_proxied hhidden hc
  have hcache : cache ring ⟨s.grid.move x t, s.orphaned (s.grid.move x t),
      s.dropped (.own x (.fail c)) ++ s.abandoned⟩ =
      { s.cache ring with
        pending := Function.update (s.cache ring).pending (x, c)
          (some (req, some ⟨.error, []⟩))
        late := (s.dropped (.own x (.fail c)) ++ s.abandoned).map Prod.snd } := by
    refine Cache.ext (contents_move hstore) ?_ rfl
    rw [hw.pending_touched _ _ hinv ht (caller_of_not_hidden hhidden)
      (hinv.link_eq_none (by rwa [node_move_self])), hhidden]
    rfl
  rw [hcache]
  refine .single (.fail hpending ?_)
  rcases hdropped with heq | ⟨ho, a, heq⟩
  · exact Or.inl (by rw [heq]; rfl)
  · exact Or.inr ⟨ho, by rw [heq]; rfl⟩

/-- A node takes a step that keeps all requests on their way. -/
theorem Whole.pending_kept (hw : Whole listens s tr) {x : NodeId} {t : Coordinator C n Unit}
    {ab : List (Address × Request)} (hinv : Grid.Inv listens (s.grid.move x t))
    (hcalling : ∀ d, (t.conn d).isCalling = ((s.grid.node x).conn d).isCalling) (p : NodeId × C) :
    (cache ring ⟨s.grid.move x t, s.orphaned (s.grid.move x t), ab⟩).pending p =
      if s.hidden p then none
      else
        let q := (s.grid.link p).getD p
        ((s.grid.move x t).node q.1).front q.2 := by
  have hlink : (s.grid.move x t).link p = s.grid.link p :=
    hw.inv.grid.link_move fun _ hc ↦ (hcalling p.2).trans hc
  rw [pending_orphaned hinv fun p₀ ↦ caller_of_move, followed, hlink]

/-- The GETs that wait for a fetch get its result. -/
theorem Settled.given (h : Settled listens ring s) (hw : Whole listens s tr)
    {x : NodeId} {c : C} {req : Request} {f : ℕ} {resp : Response}
    {t : Coordinator C n Unit} (hinv : Grid.Inv listens (s.grid.move x t))
    (hwaiting : ∀ d r' req', (s.grid.node x).conn d = .waiting r' req' f →
      (req'.opcode = .get ∧ req'.key = req.key) ∧ (s.grid.node x).front d = some (req', none) ∧
        t.front d = some (req', some resp))
    (hother : ∀ d, (∀ r' req', (s.grid.node x).conn d ≠ .waiting r' req' f) →
      t.front d = (s.grid.node x).front d)
    (hconn : t.conn = (s.grid.node x).conn) :
    (s.cache ring).Given (x, c) req resp
      (cache ring ⟨s.grid.move x t, s.orphaned (s.grid.move x t), s.abandoned⟩).pending := by
  intro p
  rw [hw.pending_kept hinv (fun d ↦ by rw [hconn])]
  simp only [cache, followed]
  split_ifs with hp
  · exact Or.inl rfl
  · have hsame : ∀ q : NodeId × C, (∀ r' req', (s.grid.node q.1).conn q.2 ≠ .waiting r' req' f) →
        ((s.grid.move x t).node q.1).front q.2 = (s.grid.node q.1).front q.2 := by
      intro q hq
      by_cases hqx : q.1 = x
      · rw [hqx] at hq ⊢
        rw [node_move_self, hother q.2 hq]
      · rw [node_move_of_ne hqx]
    rcases hl : s.grid.link p with _ | q
    · simp only [Option.getD_none]
      by_cases hwait : p.1 = x ∧ ∃ r' req', (s.grid.node x).conn p.2 = .waiting r' req' f
      · obtain ⟨rfl, r', req', hwait⟩ := hwait
        obtain ⟨hkey, hbefore, hafter⟩ := hwaiting p.2 r' req' hwait
        refine Or.inr ⟨req', rfl, hkey, hbefore, ?_⟩
        rw [node_move_self, hafter]
      · refine Or.inl ?_
        by_cases hpx : p.1 = x
        · refine hsame p fun r' req' hp ↦ hwait ⟨hpx, r', req', hpx ▸ hp⟩
        · rw [node_move_of_ne hpx]
    · -- What has come in at a peer does not wait there.
      have hcaller := (hw.inv.paired p q trivial hl).caller
      obtain ⟨r', req', resp', hq⟩ := h.served q (by simp [hidden, hcaller])
      exact Or.inl (hsame q (by simp [hq]))

/-- The result of a fetch becomes known. -/
theorem Settled.simulates_shared (h : Settled listens ring s) (hw : Whole listens s tr)
    {x : NodeId} {c : C} {r : ℕ} {req : Request} {f : ℕ} {resp : Response}
    {t : Coordinator C n Unit} (hinv : Grid.Inv listens (s.grid.move x t))
    (hc : (s.grid.node x).conn c = .completing r req f resp) (hget : req.opcode = .get)
    (hwaiting : ∀ d r' req', (s.grid.node x).conn d = .waiting r' req' f →
      (req'.opcode = .get ∧ req'.key = req.key) ∧ (s.grid.node x).front d = some (req', none) ∧
        t.front d = some (req', some (collapsed (completion resp))))
    (hother : ∀ d, (∀ r' req', (s.grid.node x).conn d ≠ .waiting r' req' f) →
      t.front d = (s.grid.node x).front d)
    (hconn : t.conn = (s.grid.node x).conn) (hstore : t.store = (s.grid.node x).store) :
    Trace Cache.Step (s.cache ring) []
      (cache ring ⟨s.grid.move x t, s.orphaned (s.grid.move x t), s.abandoned⟩) := by
  have hhidden : s.hidden (x, c) = false := h.not_hidden (by simp [hc])
  have hlink : s.grid.link (x, c) = none := hw.inv.grid.link_eq_none (by rw [hc]; rfl)
  have hknown : (s.cache ring).pending (x, c) = some (req, some resp) := by
    rw [pending_of_none hhidden hlink, front, hc]
    rfl
  have hcache : cache ring ⟨s.grid.move x t, s.orphaned (s.grid.move x t), s.abandoned⟩ =
      { s.cache ring with
        pending := (cache ring
          ⟨s.grid.move x t, s.orphaned (s.grid.move x t), s.abandoned⟩).pending } :=
    Cache.ext (contents_move hstore) rfl rfl
  have hgiven : (s.cache ring).Given (x, c) req (collapsed (completion resp)) (cache ring
      ⟨s.grid.move x t, s.orphaned (s.grid.move x t), s.abandoned⟩).pending :=
    h.given hw hinv hwaiting hother hconn
  rw [hcache]
  -- What the others are given depends on what the fetch has come to.
  obtain ⟨tr', -, hhonest⟩ := hw.honest x
  rcases hhonest.reply c req resp (by rw [hc]; rfl) hget with ⟨hok, -⟩ | rfl | rfl
  · have hresp : collapsed (completion resp) = resp := by
      rw [completion, if_pos hok, collapsed, ← hok]
    rw [hresp] at hgiven
    exact .single (.share hknown hget (by rw [hok]; decide) hgiven)
  · exact .single (.share hknown hget (by decide) hgiven)
  · exact .single (.mislead hknown hget hgiven)

/-- Nothing becomes known. -/
theorem Whole.cache_quiet (hw : Whole listens s tr) (ring : Ring) {x : NodeId}
    {t : Coordinator C n Unit}
    (hinv : Grid.Inv listens (s.grid.move x t)) (hfront : t.front = (s.grid.node x).front)
    (hcalling : ∀ d, (t.conn d).isCalling = ((s.grid.node x).conn d).isCalling)
    (hstore : t.store = (s.grid.node x).store) :
    cache ring ⟨s.grid.move x t, s.orphaned (s.grid.move x t), s.abandoned⟩ = s.cache ring := by
  refine Cache.ext (contents_move hstore) ?_ rfl
  funext p
  have hsame : ∀ q, ((s.grid.move x t).node q).front = (s.grid.node q).front := by
    intro q
    by_cases hq : q = x
    · subst hq
      rw [node_move_self, hfront]
    · rw [node_move_of_ne hq]
  rw [hw.pending_kept hinv hcalling]
  simp only [cache, followed, hsame]

/-- A response is written, or the connection breaks. -/
theorem Whole.cache_released (hw : Whole listens s tr) (ring : Ring) {x : NodeId} {c : C}
    {t : Coordinator C n Unit} (hinv : Grid.Inv listens (s.grid.move x t))
    (hcaller : s.grid.caller (x, c) = none) (ht : Touches (s.grid.node x) t c none)
    (hcalling : (t.conn c).isCalling = false) (hstore : t.store = (s.grid.node x).store) :
    cache ring ⟨s.grid.move x t, s.orphaned (s.grid.move x t), s.abandoned⟩ =
      if s.hidden (x, c) then s.cache ring
      else { s.cache ring with pending := Function.update (s.cache ring).pending (x, c) none } := by
  have hlink : (s.grid.move x t).link (x, c) = none := hinv.link_eq_none (by rwa [node_move_self])
  have hpending := hw.pending_touched ring s.abandoned hinv ht hcaller hlink
  split_ifs at hpending ⊢ with hhidden
  · exact Cache.ext (contents_move hstore) hpending rfl
  · exact Cache.ext (contents_move hstore) hpending rfl

/-- A node takes a step of its own. -/
theorem Settled.simulates_own (h : Settled listens ring s) (hw : Whole listens s tr)
    (hone : OneRing listens ring s.grid) (hring : ring.entries ≠ []) {x : NodeId}
    {a : Coordinator.Action C Response} {g : Grid C n} (hown : s.grid.isOwn x a = true)
    (htake : s.grid.take x a = some g) :
    Trace Cache.Step (s.cache ring) (s.observe (.own x a))
      (cache ring ⟨g, s.orphaned g, s.dropped (.own x a) ++ s.abandoned⟩) := by
  obtain ⟨t, ev, hs, rfl, hinv⟩ := hw.inv.grid.take htake
  cases hw.turn hs with
  | @asked c req owner address _ hc hroute ht hstore =>
      exact hw.simulates_asked hinv (Option.isNone_iff_eq_none.mp hown) hc ht hstore
  | @performed c req resp _ hc ht hreplying hserve =>
      refine hw.simulates_performed hinv (Option.isNone_iff_eq_none.mp hown) hc ht ?_
      exact hserve.imp_right fun ⟨hroute, hserve⟩ ↦
        ⟨hone.owner_of_route hw.inv.grid hring hroute, hserve⟩
  | served => cases hown
  | @replied c r req handle resp _ hc ht hcalling hstore =>
      have hcache := h.cache_replied hw hinv hc ht hcalling hstore
      exact hcache ▸ .refl _
  | failed hc ht hcalling hstore => exact h.simulates_failed hw hinv hc ht hcalling hstore
  | shared hc hget hwaiting hother hconn hstore =>
      exact h.simulates_shared hw hinv hc hget hwaiting hother hconn hstore
  | quiet ha hfront hcalling hreplying hstore =>
      have hcache := hw.cache_quiet ring hinv hfront hcalling hstore
      have hobserve : s.observe (.own x a) = [] := by cases a <;> first | rfl | cases ha
      have hdropped : s.dropped (.own x a) = [] := by cases a <;> first | rfl | cases ha
      rw [hobserve, hdropped, List.nil_append, hcache]
      exact .refl _
  | @answered c r req resp _ hc ht hcalling hstore =>
      have hcaller : s.grid.caller (x, c) = none := Option.isNone_iff_eq_none.mp hown
      have hcache := hw.cache_released ring hinv hcaller ht hcalling hstore
      have hhidden : s.hidden (x, c) = s.orphan (x, c) := by simp [hidden, hcaller]
      have hlink : s.grid.link (x, c) = none := hw.inv.grid.link_eq_none (by rw [hc]; rfl)
      have hobserve : s.observe (.own x (.answer c)) =
          if s.orphan (x, c) then [] else [.answered x c req resp] := by
        simp only [observe, hc]
      rw [hobserve, show s.dropped (.own x (.answer c)) = [] from rfl, List.nil_append, hcache,
        hhidden]
      split_ifs with horphan
      · exact .refl _
      · refine .single (.answer ?_)
        rw [pending_of_none (hhidden.trans (by simpa using horphan)) hlink, front, hc]
        rfl
  | @hungUp c _ hc ht hcalling hstore =>
      have hcaller : s.grid.caller (x, c) = none := Option.isNone_iff_eq_none.mp hown
      have hcache := hw.cache_released ring hinv hcaller ht hcalling hstore
      rw [show s.observe (.own x (.hangUp c)) = [] from rfl,
        show s.dropped (.own x (.hangUp c)) = [] from rfl, List.nil_append, hcache]
      split_ifs with hhidden
      · exact .refl _
      · rcases hc with hc | ⟨r, req, resp, hc⟩
        · obtain ⟨-, hnone, -⟩ := hw.inv.free ring hcaller hc
          have hsame : Function.update (s.cache ring).pending (x, c) none =
              (s.cache ring).pending := by
            rw [← hnone, Function.update_eq_self]
          rw [hsame]
          exact .refl _
        · have hlink : s.grid.link (x, c) = none := hw.inv.grid.link_eq_none (by rw [hc]; rfl)
          have hknown : (s.cache ring).pending (x, c) = some (req, some resp) := by
            rw [pending_of_none (by simpa using hhidden) hlink, front, hc]
            rfl
          exact .single (.hangUp hknown)

/-- A request has come in at a peer: no client waits on the connection there, and what is known
there is known of the request. -/
theorem Settled.pending_call (h : Settled listens ring s) (hw : Whole listens s tr)
    {x y : NodeId} {c d : C} {r : ℕ} {req : Request} {handle : Option ℕ} {address : Address}
    {v : Option (Request × Option Response)} {t : Coordinator C n Unit}
    (hinv : Grid.Inv listens (s.grid.move y t))
    (hc : (s.grid.node x).conn c = .proxying r req handle (.calling (some address)))
    (hlistens : listens address = some y) (hcaller : s.grid.caller (y, d) = none)
    (hd : (s.grid.node y).conn d = .reading) (ht : Touches (s.grid.node y) t d v) :
    (cache ring ⟨(s.grid.move y t).connect (x, c) (y, d),
      s.orphaned ((s.grid.move y t).connect (x, c) (y, d)), s.abandoned⟩).pending =
      Function.update (s.cache ring).pending (x, c) v := by
  have hxy := (h.directed x c r req handle address y hc hlistens).2
  have hhidden : s.hidden (x, c) = false := h.not_hidden (by simp [hc])
  funext p
  by_cases hpd : p = (y, d)
  · subst hpd
    obtain ⟨-, hfree, -⟩ := hw.inv.free ring hcaller hd
    have hpx : (y, d) ≠ (x, c) := fun heq ↦ hxy (congrArg Prod.fst heq).symm
    rw [Function.update_of_ne hpx, hfree]
    simp only [cache, hidden, connect, Function.update_self, Option.isSome_some, Bool.true_or,
      if_true]
  · have hcaller' : ∀ p₀, ((s.grid.move y t).connect (x, c) (y, d)).caller p = some p₀ →
        s.grid.caller p = some p₀ :=
      fun p₀ hp₀ ↦ caller_of_move ((Function.update_of_ne hpd ..).symm.trans hp₀)
    have hx : ((s.grid.move y t).node x).conn c =
        .proxying r req handle (.calling (some address)) := by rw [node_move_of_ne hxy, hc]
    rw [pending_orphaned (hinv.connect hx hlistens) hcaller']
    by_cases hpx : p = (x, c)
    · subst hpx
      have hlink : ((s.grid.move y t).connect (x, c) (y, d)).link (x, c) = some (y, d) :=
        Function.update_self ..
      rw [Function.update_self, hhidden, followed_of_link hlink]
      simp only [connect, node_move_self, ht.front, Function.update_self, Bool.false_eq_true,
        if_false]
    · have hsame : ((s.grid.move y t).connect (x, c) (y, d)).followed p =
          (s.grid.move y t).followed p := by
        simp only [followed, connect, Function.update_of_ne hpx]
      rw [Function.update_of_ne hpx, hsame,
        hw.inv.grid.followed_move_of_ne ht hpd (hw.inv.paired.link_ne hcaller p)]
      rfl

/-- A request comes in at the owner of its key and is performed. -/
theorem Settled.simulates_call (h : Settled listens ring s) (hw : Whole listens s tr)
    (hone : OneRing listens ring s.grid) {x y : NodeId} {c d : C} {r : ℕ} {req : Request}
    {handle : Option ℕ} {address : Address} {g : Grid C n}
    (hc : (s.grid.node x).conn c = .proxying r req handle (.calling (some address)))
    (hlistens : listens address = some y) (hlink : s.grid.link (x, c) = none)
    (hcaller : s.grid.caller (y, d) = none)
    (htake : s.grid.take y (.receive d req) = some g) :
    Trace Cache.Step (s.cache ring) [] (cache ring
      ⟨g.connect (x, c) (y, d), s.orphaned (g.connect (x, c) (y, d)), s.abandoned⟩) := by
  have howner := (h.directed x c r req handle address y hc hlistens).1
  obtain ⟨t, ev, hs, rfl, hinv⟩ := hw.inv.grid.take htake
  obtain ⟨hd, resp, ht, -, hserve⟩ := hw.performed hone howner hs
  have hhidden : s.hidden (x, c) = false := h.not_hidden (by simp [hc])
  have hknown : (s.cache ring).pending (x, c) = some (req, none) := by
    rw [pending_of_none hhidden hlink, front, hc]
    rfl
  have hcache : cache ring ⟨(s.grid.move y t).connect (x, c) (y, d),
      s.orphaned ((s.grid.move y t).connect (x, c) (y, d)), s.abandoned⟩ =
      { s.cache ring with
        contents := (s.grid.move y t).contents ring
        pending := Function.update (s.cache ring).pending (x, c) (some (req, some resp)) } :=
    Cache.ext rfl (h.pending_call hw hinv hc hlistens hcaller hd ht) rfl
  rw [hcache]
  exact .single (.perform hknown (hw.performs hserve))

/-- Its response goes back. -/
theorem Settled.cache_return (h : Settled listens ring s) (hw : Whole listens s tr)
    {x y : NodeId} {c d : C} {r : ℕ} {req : Request} {resp : Response} {g₁ g : Grid C n}
    (hlink : s.grid.link (x, c) = some (y, d))
    (hd : (s.grid.node y).conn d = .replying r req resp)
    (hanswer : s.grid.take y (.answer d) = some g₁)
    (hserve : g₁.take x (.serve c resp) = some g) :
    cache ring ⟨g, s.orphaned g, s.abandoned⟩ = s.cache ring := by
  obtain ⟨hxy, hinv₁, hinv, t₁, t₂, rfl, rfl, hturn₁, hturn₂⟩ := h.returned hw hlink hanswer hserve
  obtain ⟨hcaller, r', req', handle, address, hc, hreq⟩ := hw.inv.paired _ _ trivial hlink
  obtain rfl : req = req' := by
    simp only [hd] at hreq
    exact Option.some.inj hreq
  cases hturn₁ with
  | quiet ha => cases ha
  | answered _ ht₁ _ hstore₁ =>
  cases hturn₂ with
  | quiet ha => cases ha
  | served hc' hresp ht₂ hcalling₂ hstore₂ =>
  cases hc.symm.trans hc'
  obtain ⟨rfl, -⟩ := Prod.mk.inj (Option.some.inj hresp)
  have hhidden : s.hidden (x, c) = false := h.not_hidden (by simp [hc])
  have hnode : (s.grid.move y t₁).node x = s.grid.node x := node_move_of_ne hxy
  rw [← hnode] at ht₂ hstore₂
  refine Cache.ext ((contents_move hstore₂).trans (contents_move hstore₁)) ?_ rfl
  funext p
  rw [pending_orphaned hinv fun p₀ hp₀ ↦ caller_of_move (caller_of_move hp₀)]
  simp only [cache]
  split_ifs with hp
  · rfl
  · have hpd : p ≠ (y, d) := by
      rintro rfl
      simp [hidden, hcaller] at hp
    by_cases hpx : p = (x, c)
    · subst hpx
      have hlink' : ((s.grid.move y t₁).move x t₂).link (x, c) = none :=
        hinv.link_eq_none (by rwa [node_move_self])
      rw [followed_move_self ht₂ hlink', followed_of_link hlink, front, hd]
      rfl
    · have hlinky : s.grid.link p ≠ some (y, d) := by
        intro hpy
        have hcaller' := (hw.inv.paired p (y, d) trivial hpy).caller
        exact hpx (Option.some.inj (hcaller'.symm.trans hcaller))
      have hlinkx : (s.grid.move y t₁).link p ≠ some (x, c) := fun hpx ↦
        hw.inv.paired.link_ne (caller_of_not_hidden hhidden) p (link_move hpx)
      rw [hinv₁.followed_move_of_ne ht₂ hpx hlinkx,
        hw.inv.grid.followed_move_of_ne ht₁ hpd hlinky]

omit [DecidableEq C] in
/-- Callers stay while all requests stay on their way. -/
theorem Inv.caller_move (h : Inv listens s) {x : NodeId} {t : Coordinator C n Unit}
    (hcalling : ∀ d, ((s.grid.node x).conn d).isCalling = true → (t.conn d).isCalling = true)
    (q : NodeId × C) : (s.grid.move x t).caller q = s.grid.caller q := by
  rcases hq : s.grid.caller q with _ | p
  · exact caller_move_eq_none hq
  · obtain ⟨r, req, handle, a, hc, -⟩ := h.grid.linked p.1 p.2 q.1 q.2 (h.back p q hq)
    have hkept : (p.1 ≠ x || (t.conn p.2).isCalling) = true := by
      by_cases hx : p.1 = x
      · simp [hcalling p.2 (by rw [← hx, hc]; rfl)]
      · simp [hx]
    simp only [move, hq, Option.filter_some, hkept, if_true]

/-- A request that was given up comes in at the owner of its key after all. -/
theorem Settled.simulates_late (h : Settled listens ring s) (hw : Whole listens s tr)
    (hone : OneRing listens ring s.grid) {y : NodeId} {d : C} {i : ℕ} {req : Request}
    {address : Address} {g : Grid C n} (hi : s.abandoned[i]? = some (address, req))
    (hlistens : listens address = some y) (hcaller : s.grid.caller (y, d) = none)
    (htake : s.grid.take y (.receive d req) = some g) :
    Trace Cache.Step (s.cache ring) []
      (cache ring ⟨g, Function.update s.orphan (y, d) true, s.abandoned.eraseIdx i⟩) := by
  have howner : ownerOf ring req.key = some y :=
    h.late (address, req) (List.mem_of_getElem? hi) y hlistens
  obtain ⟨t, ev, hs, rfl, hinv⟩ := hw.inv.grid.take htake
  obtain ⟨hd, resp, ht, -, hserve⟩ := hw.performed hone howner hs
  obtain ⟨-, hfree, -⟩ := hw.inv.free ring hcaller hd
  have hcalls := hw.inv.caller_move (x := y) (t := t) fun e he ↦ by
    have hed : e ≠ d := by
      rintro rfl
      rw [hd] at he
      cases he
    rw [ht.conn e hed, he]
  have hpending : (cache ring ⟨s.grid.move y t, Function.update s.orphan (y, d) true,
      s.abandoned.eraseIdx i⟩).pending = (s.cache ring).pending := by
    funext p
    by_cases hpd : p = (y, d)
    · subst hpd
      rw [hfree]
      simp only [cache, hidden, Function.update_self, Bool.or_true, if_true]
    · have hsame := hw.inv.grid.followed_move_of_ne ht hpd (hw.inv.paired.link_ne hcaller p)
      simp only [cache, hidden, hcalls, Function.update_of_ne hpd, hsame]
      rfl
  have hlate : (s.cache ring).late = (s.abandoned.take i).map Prod.snd ++
      req :: (s.abandoned.drop (i + 1)).map Prod.snd := by
    obtain ⟨hlt, hget⟩ := List.getElem?_eq_some_iff.mp hi
    have hsplit := List.take_append_drop i s.abandoned
    rw [List.drop_eq_getElem_cons hlt, hget] at hsplit
    have hmap := congrArg (List.map Prod.snd) hsplit.symm
    rw [List.map_append, List.map_cons] at hmap
    exact hmap
  have hcache : cache ring ⟨s.grid.move y t, Function.update s.orphan (y, d) true,
      s.abandoned.eraseIdx i⟩ =
      { s.cache ring with
        contents := (s.grid.move y t).contents ring
        late := (s.abandoned.take i).map Prod.snd ++
          (s.abandoned.drop (i + 1)).map Prod.snd } := by
    refine Cache.ext rfl hpending ?_
    simp only [cache, List.eraseIdx_eq_take_drop_succ, List.map_append]
  rw [hcache]
  exact .single (.late hlate (hw.performs hserve))

theorem Settled.simulates (h : Settled listens ring s) (hw : Whole listens s tr)
    (hone : OneRing listens ring s.grid) (hring : ring.entries ≠ []) {a : Action C}
    (hm : Moves listens s a s' ev) : Trace Cache.Step (s.cache ring) ev (s'.cache ring) := by
  cases hm with
  | own hown htake => exact h.simulates_own hw hone hring hown htake
  | call hc hlistens hlink hcaller htake =>
      exact h.simulates_call hw hone hc hlistens hlink hcaller htake
  | «return» hlink hd hanswer hserve =>
      have hcache := h.cache_return hw hlink hd hanswer hserve
      exact hcache ▸ .refl _
  | late hi hlistens hcaller htake =>
      exact h.simulates_late hw hone hi hlistens hcaller htake

/-- The service as long as its nodes hold one ring. -/
noncomputable abbrev stable (C : Type*) [DecidableEq C] (n : ℕ)
    (listens : Address → Option NodeId) (ring : Ring) :
    Machine (Service C n) (Action C) (ClientEvent C) :=
  (machine C n listens).within fun s ↦ OneRing listens ring s.grid

theorem settled_of_run (hrun : (stable C n listens ring).Run s tr) :
    Settled listens ring s ∧ Whole listens s tr := by
  refine hrun.invariant (I := fun s tr ↦ Settled listens ring s ∧ Whole listens s tr) ?_ ?_
  · rintro s ⟨hinit, -⟩
    refine ⟨?_, whole_of_init hinit⟩
    obtain ⟨⟨hnode, -, hcaller⟩, -, horphan, habandoned⟩ := hinit
    refine ⟨fun x c r req handle a y hc ↦ ?_, by simp [habandoned], fun q hq ↦ ?_⟩
    · obtain ⟨⟨-, hconn, -⟩, -⟩ := hnode x
      rw [hconn] at hc
      cases hc
    · simp [hidden, hcaller, horphan] at hq
  · rintro s tr a s' ev hrun ⟨h, hw⟩ hstep
    have hmoves := step_moves (Machine.within_step.mp hstep).1
    exact ⟨h.moves hw hrun.of_within.2 hmoves, hw.moves hmoves⟩

theorem cache_init (h : (machine C n listens).init s) : s.cache ring = .empty := by
  have hinv := run_inv (.init h)
  obtain ⟨⟨hnode, -, -⟩, hstore, -, habandoned⟩ := h
  refine Cache.ext ?_ ?_ (by simp [cache, habandoned, Cache.empty])
  · funext key
    simp only [cache, contents, Cache.empty]
    rcases hy : ownerOf ring key with _ | y
    · rfl
    · obtain ⟨arena, harena⟩ := hstore y
      rw [Option.bind_some, harena]
      rfl
  · funext p
    obtain ⟨⟨-, hconn, -⟩, -⟩ := hnode p.1
    simp only [cache, Cache.empty, followed_eq_none hinv.grid (by rw [hconn]; rfl), ite_self]

/-- **The cluster is one cache.**  As long as the nodes hold one ring, which is not empty, and the
addresses that they have for each other lead to them or to nobody: whatever clients see, on any
nodes, with any interleaving of requests, fetches and failures, they could see of one lossy map
that performs each request once, between its arrival and its answer; up to requests that fail, and
to GETs that share the answer of a GET of the same key at the same node, or that are told of no
such key because that one has failed. -/
theorem acts_as_one_cache (C : Type*) [DecidableEq C] (n : ℕ) (listens : Address → Option NodeId)
    (ring : Ring) (hring : ring.entries ≠ []) (s : Service C n) (tr : List (ClientEvent C))
    (hrun : (stable C n listens ring).Run s tr) :
    Trace Cache.Step .empty tr (s.cache ring) := by
  obtain ⟨s₀, hinit, htrace⟩ : ∃ s₀, (stable C n listens ring).init s₀ ∧
      Trace Cache.Step (s₀.cache ring) tr (s.cache ring) := by
    refine hrun.simulates (cache ring) fun s tr a s' ev hrun hstep ↦ ?_
    obtain ⟨h, hw⟩ := settled_of_run hrun
    exact h.simulates hw hrun.of_within.2 hring (step_moves (Machine.within_step.mp hstep).1)
  rwa [cache_init hinit.1] at htrace

/-- The step is news about the ring and the table. -/
def Action.isGossip : Action C → Bool
  | .grid a => a.isGossip
  | .late _ _ _ => false

theorem frame_of_step {a : Action C} (h : s.step listens a = some (s', ev))
    (ha : a.isGossip = false) : SameFrame s.grid s'.grid := by
  cases a with
  | grid a =>
      obtain ⟨⟨g, hops⟩, hstep, heq⟩ := Option.map_eq_some_iff.mp h
      cases heq
      exact Grid.frame_of_step hstep ha
  | late y d i =>
      cases step_moves h with
      | late hi hlistens hcaller htake => exact frame_of_take htake (by simp)

theorem oneRing_twoNodes : OneRing bListens (onePeer ()).ring twoNodes.grid := by
  refine fun x ↦ ⟨rfl, fun e he hne y hy ↦ ?_⟩
  have hentries : (twoNodes.grid.node x).members.nodes.entries =
      [⟨nodeB, ⟨nodeB, 11211, .alive, 0, 0⟩⟩] := rfl
  rw [hentries] at he
  rw [List.mem_singleton.mp he] at hy ⊢
  exact (Option.some_inj.mp hy).symm

/-- Two nodes: a PUT and two GETs are proxied, and the GETs share an answer; then two GETs share a
fetch that fails. -/
theorem acts_as_one_cache_proxied :
    ∃ s, (machine ℕ 0 bListens).exec twoNodes
        (putAtA ++ getsAtA (fetchFromB 0) ++ getsAtA [.grid (.own nodeA (.fail 0))]) =
        some (s, putSeen ++ getsSeen ⟨.ok, [118]⟩ ⟨.ok, [118]⟩ ++
          getsSeen ⟨.error, []⟩ ⟨.notFound, []⟩) ∧
      Trace Cache.Step .empty (putSeen ++ getsSeen ⟨.ok, [118]⟩ ⟨.ok, [118]⟩ ++
          getsSeen ⟨.error, []⟩ ⟨.notFound, []⟩) (s.cache (onePeer ()).ring) := by
  have hseen : ((machine ℕ 0 bListens).exec twoNodes
      (putAtA ++ getsAtA (fetchFromB 0) ++ getsAtA [.grid (.own nodeA (.fail 0))])).map Prod.snd =
      some (putSeen ++ getsSeen ⟨.ok, [118]⟩ ⟨.ok, [118]⟩ ++
        getsSeen ⟨.error, []⟩ ⟨.notFound, []⟩) := by
    decide +kernel
  have hquiet : ∀ a ∈ putAtA ++ getsAtA (fetchFromB 0) ++
      getsAtA [.grid (.own nodeA (.fail 0))], a.isGossip = false := by
    decide
  obtain ⟨⟨s, tr⟩, hexec, rfl⟩ := Option.map_eq_some_iff.mp hseen
  have hstart : (stable ℕ 0 bListens (onePeer ()).ring).Run twoNodes [] :=
    .init ⟨init_twoNodes, oneRing_twoNodes⟩
  have hrun := hstart.exec_within hexec fun a ha s s' e h hs ↦
    OneRing.congr (frame_of_step hs (hquiet a ha)) h
  exact ⟨s, hexec, acts_as_one_cache ℕ 0 bListens _ (by decide) s _ hrun⟩

end Service

end Pensieve
