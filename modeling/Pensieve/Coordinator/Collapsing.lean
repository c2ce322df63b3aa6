import Pensieve.Coordinator.Accounting

/-!
# Collapsed GETs

A GET that waits for another's fetch is answered from what passes through the wait
group: the value if the fetch ended well, and nothing otherwise.  So it gets the
response of the GET that performed the fetch if and only if the peer replied with
status `Ok`, or with status `NotFound` and no value (`collapsed_eq_iff`).  When the
peer cannot be reached, the one client is sent an error and the others that nothing
was found (`failure_told_apart`).
-/

namespace Pensieve

/-- The outcome is one that the wait group passes on as it is. -/
def Outcome.Survives : Outcome → Prop
  | .noPeer => False
  | .failed => False
  | .replied resp => resp.status = .ok ∨ (resp.status = .notFound ∧ resp.value = [])

namespace Coordinator

open Foundation WaitGroup

/-- What is left of a response after the wait group is the response itself in two
cases. -/
theorem collapsed_completion_eq_iff (resp : Response) :
    collapsed (completion resp) = resp ↔
      resp.status = .ok ∨ (resp.status = .notFound ∧ resp.value = []) := by
  obtain ⟨status, value⟩ := resp
  rw [completion]
  split_ifs with hok
  · obtain rfl : status = .ok := hok
    simp [collapsed]
  · constructor
    · intro h
      cases h
      exact Or.inr ⟨rfl, rfl⟩
    · rintro (h | ⟨rfl, rfl⟩)
      · exact absurd h hok
      · rfl

theorem outcome_survives_iff (o : Outcome) :
    collapsed (completion o.response) = o.response ↔ o.Survives := by
  refine (collapsed_completion_eq_iff o.response).trans ?_
  cases o with
  | noPeer => simp [Outcome.response, Outcome.Survives, Status.error, Status.ok, Status.notFound]
  | failed => simp [Outcome.response, Outcome.Survives, Status.error, Status.ok, Status.notFound]
  | replied resp => rfl

variable {C : Type*} [DecidableEq C] {n : ℕ} {W O : Type*} {peers : Peers W O}
  {s : Coordinator C n W} {tr : List (Event C O)}

/-- The response to the GET that performed a fetch is its outcome. -/
theorem answered_initiator (hrun : (machine C n peers).Run s tr) {i f : ℕ} {k : Bytes}
    {req : Request} {resp : Response} (hi : .joined i k f true ∈ tr)
    (h : .answered i req resp ∈ tr) : ∃ o, .upstream i o ∈ tr ∧ resp = o.response := by
  obtain ⟨gtr, hinv⟩ := run_inv hrun
  cases source_of_answered hrun h with
  | here hr hroute => exact absurd hroute (not_here_of_joined hinv.rule hi hr)
  | @proxied c owner address o hr ho hresp hget => exact ⟨o, ho, hresp⟩
  | waited _ hj => exact absurd (joined_unique hinv.rule hi hj).2.2 (by decide)

/-- The response to a GET that has waited is what is left of the outcome. -/
theorem answered_waiter (hrun : (machine C n peers).Run s tr) {i r f : ℕ} {k : Bytes}
    {req : Request} {resp : Response} (hi : .joined i k f true ∈ tr)
    (hr : .joined r k f false ∈ tr) (h : .answered r req resp ∈ tr) :
    ∃ o, .upstream i o ∈ tr ∧ resp = collapsed (completion o.response) := by
  obtain ⟨gtr, hinv⟩ := run_inv hrun
  cases source_of_answered hrun h with
  | here hrec hroute => exact absurd hroute (not_here_of_joined hinv.rule hr hrec)
  | @proxied c owner address o hrec ho hresp hget =>
      -- A GET that was proxied is an initiator itself.
      obtain ⟨d, req', owner', address', hrec', hget', -⟩ := received_of_joined hinv.rule hr
      obtain ⟨-, rfl, -⟩ := received_unique hinv.rule hrec hrec'
      obtain ⟨f', hf'⟩ := hget hget'
      exact absurd (joined_unique hinv.rule hr hf').2.2 (by decide)
  | @waited c owner address i' f' o hrec hj hi' ho hresp =>
      obtain ⟨rfl, rfl, -⟩ := joined_unique hinv.rule hr hj
      obtain ⟨rfl, -⟩ := initiator_unique hinv.rule hi hi'
      exact ⟨o, ho, hresp⟩

/-- **When collapsed GETs get the initiator's response.**  In every run of a
coordinator, whatever the peers do: of two GETs that share a fetch, the one that
waited is sent the response of the one that performed it if and only if the outcome
of the fetch is a reply with status `Ok`, or one with status `NotFound` and no
value. -/
theorem collapsed_eq_iff (C : Type*) [DecidableEq C] (n : ℕ) (W O : Type*) (peers : Peers W O)
    (s : Coordinator C n W) (tr : List (Event C O)) (hrun : (machine C n peers).Run s tr)
    (key : Bytes) (f i r : ℕ) (hi : .joined i key f true ∈ tr) (hr : .joined r key f false ∈ tr)
    (req req' : Request) (resp resp' : Response) (hresp : .answered i req resp ∈ tr)
    (hresp' : .answered r req' resp' ∈ tr) (o : Outcome) (ho : .upstream i o ∈ tr) :
    resp' = resp ↔ o.Survives := by
  obtain ⟨gtr, hinv⟩ := run_inv hrun
  obtain ⟨o₁, ho₁, rfl⟩ := answered_initiator hrun hi hresp
  obtain ⟨o₂, ho₂, rfl⟩ := answered_waiter hrun hi hr hresp'
  obtain rfl := upstream_unique hinv.rule ho ho₁
  obtain rfl := upstream_unique hinv.rule ho ho₂
  exact outcome_survives_iff o

/-! ## Two runs

One peer, `b`, owns every key. -/

/-- Peers that reply what they are told to. -/
def anyPeers : Peers Unit Response := ⟨fun w resp _ _ ↦ some (resp, w), fun _ _ ↦ none⟩

/-- A coordinator on `a` that knows the one peer. -/
def onePeer (world : W) : Coordinator ℕ 0 W where
  self := ⟨[97], 7946⟩
  ring := RingStore.addTokens SortedMap.empty ⟨[98], 7946⟩ [0]
  members := (MemberList.empty.addNode ⟨⟨[98], 7946⟩, 11211, .alive, 0, 0⟩).1
  store := LocalStore.init ⟨1048576, false⟩ 0
  group := ⟨.empty, fun _ ↦ .idle⟩
  conn _ := .reading
  next := 0
  world := world

/-- Two GETs come in one after the other; then the fetch ends, and both are
answered. -/
def pairOfGets (fetch : List (Action ℕ O)) : List (Action ℕ O) :=
  [.receive 0 ⟨.get, [107], []⟩, .receive 1 ⟨.get, [107], []⟩] ++ fetch ++
    [.collapse (.takePending 0), .collapse (.publish 0), .collapse (.return 0), .leave 0,
      .answer 0, .collapse (.awaitReady 1), .obtain 1, .answer 1]

/-- The events of two GETs that share a fetch with the outcome `o`. -/
def pairTrace (fetched : List (Event ℕ Response)) (o : Outcome) (resp resp' : Response) :
    List (Event ℕ Response) :=
  let req : Request := ⟨.get, [107], []⟩
  let route : Route := .remote ⟨[98], 7946⟩ (some ([98], 11211))
  [.received 0 0 req route, .joined 0 [107] 0 true, .received 1 1 req route,
    .joined 1 [107] 0 false] ++ fetched ++ [.upstream 0 o, .answered 0 req resp,
    .answered 1 req resp']

/-- The peer has the value, and both clients are sent it. -/
theorem collapsed_eq_iff_value :
    ∃ s tr resp resp', (machine ℕ 0 anyPeers).Run s tr ∧
      .answered 0 ⟨.get, [107], []⟩ resp ∈ tr ∧ .answered 1 ⟨.get, [107], []⟩ resp' ∈ tr ∧
      resp' = resp := by
  have htrace : ((machine ℕ 0 anyPeers).exec (onePeer ())
      (pairOfGets [.serve 0 ⟨.ok, [118]⟩, .reply 0])).map Prod.snd =
      some (pairTrace [.served 0 ([98], 11211) ⟨.get, [107], []⟩ ⟨.ok, [118]⟩]
        (.replied ⟨.ok, [118]⟩) ⟨.ok, [118]⟩ ⟨.ok, [118]⟩) := by
    decide +kernel
  obtain ⟨⟨s, tr⟩, hexec, rfl⟩ := Option.map_eq_some_iff.mp htrace
  have hstart : (machine ℕ 0 anyPeers).Run (onePeer ()) [] := .init ⟨rfl, fun _ ↦ rfl, rfl⟩
  have hrun := hstart.exec hexec
  have hsame := collapsed_eq_iff ℕ 0 Unit Response anyPeers s _ hrun [107] 0 0 1
    (by decide) (by decide) ⟨.get, [107], []⟩ ⟨.get, [107], []⟩ ⟨.ok, [118]⟩ ⟨.ok, [118]⟩
    (by decide) (by decide) (.replied ⟨.ok, [118]⟩) (by decide)
  exact ⟨s, _, _, _, hrun, by decide, by decide, hsame.mpr (Or.inl rfl)⟩

/-- The peer cannot be reached.  The client whose GET performed the fetch is sent an
error, and the other one that nothing was found. -/
theorem failure_told_apart :
    ∃ s tr, (machine ℕ 0 anyPeers).Run s tr ∧ .joined 0 [107] 0 true ∈ tr ∧
      .joined 1 [107] 0 false ∈ tr ∧ .upstream 0 .failed ∈ tr ∧
      .answered 0 ⟨.get, [107], []⟩ ⟨.error, []⟩ ∈ tr ∧
      .answered 1 ⟨.get, [107], []⟩ ⟨.notFound, []⟩ ∈ tr := by
  have htrace : ((machine ℕ 0 anyPeers).exec (onePeer ()) (pairOfGets [.fail 0])).map Prod.snd =
      some (pairTrace [] .failed ⟨.error, []⟩ ⟨.notFound, []⟩) := by
    decide +kernel
  obtain ⟨⟨s, tr⟩, hexec, rfl⟩ := Option.map_eq_some_iff.mp htrace
  have hstart : (machine ℕ 0 anyPeers).Run (onePeer ()) [] := .init ⟨rfl, fun _ ↦ rfl, rfl⟩
  exact ⟨s, _, hstart.exec hexec, by decide, by decide, by decide, by decide, by decide⟩

end Coordinator

end Pensieve
