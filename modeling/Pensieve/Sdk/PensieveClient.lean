import Pensieve.Foundation.Custody
import Pensieve.Sdk.CircuitBreaker

/-!
# The client of the SDK

`src/sdk/pensieve_client.cpp` with the pool of `src/sdk/connection_pool.cpp`.  `execute` goes
through the successors of a key.  It asks the breaker, takes an idle connection or opens one,
sends its request and waits for the response, and at the first thing that goes wrong it turns to
the next successor.

Any number of threads are in `execute` at a time.  They share the topology, the pool, the breaker
and the counters, each of which is used under a lock of its own, so a thread is described by where
it stands between two critical sections (`Stage`).  What the network and the clock do is an input
of every step (`Env`).  A step reports what a thread has done as events; nothing looks at them.
-/

namespace Pensieve

open Foundation

/-! ## The pool -/

/-- `ConnectionPool`: the descriptors of the idle connections to a peer. -/
structure ConnectionPool where
  maxIdle : ℕ
  idle : PeerKey → List ℕ

namespace ConnectionPool

/-- The part of `acquire` that is under the lock: the connection that has been idle for the
longest time. -/
def pop (p : ConnectionPool) (ep : NodeEndpoint) : Option ℕ × ConnectionPool :=
  match p.idle ep.peer with
  | [] => (none, p)
  | fd :: fds => (some fd, { p with idle := Function.update p.idle ep.peer fds })

/-- `release`: whether the connection is kept.  Otherwise it is closed. -/
def release (p : ConnectionPool) (ep : NodeEndpoint) (fd : ℕ) : Bool × ConnectionPool :=
  if p.maxIdle ≤ (p.idle ep.peer).length then (false, p)
  else (true, { p with idle := Function.update p.idle ep.peer (p.idle ep.peer ++ [fd]) })

end ConnectionPool

/-! ## A call -/

namespace PensieveClient

/-- The fields of `PensieveClient::Config` that `execute` depends on. -/
structure Config where
  maxConnectionsPerNode : ℕ := 4
  maxRetries : Int32 := 2
deriving DecidableEq, Repr

/-- `static_cast<size_t>(cfg.max_retries) + 1`. -/
def Config.attempts (cfg : Config) : ℕ :=
  ((cfg.maxRetries.toInt % 2 ^ 64).toNat + 1) % 2 ^ 64

/-- `PensieveClient::Stats`. -/
structure Stats where
  requestsTotal : UInt64 := 0
  requestsDirect : UInt64 := 0
  requestsRetried : UInt64 := 0
  ringRefreshes : UInt64 := 0
  circuitBreaks : UInt64 := 0
  lastLatencyUs : UInt64 := 0
deriving DecidableEq, Repr

/-- Where a thread stands in `execute`. -/
inductive Stage where
  /-- Before `find_successors`. -/
  | start
  /-- At the head of the loop. -/
  | loop
  /-- The breaker has allowed the target. -/
  | acquire (ep : NodeEndpoint)
  /-- There was no idle connection. -/
  | connect (ep : NodeEndpoint)
  | send (ep : NodeEndpoint) (fd : ℕ)
  | recv (ep : NodeEndpoint) (fd : ℕ)
  /-- Before `discard`. -/
  | discard (ep : NodeEndpoint) (fd : ℕ)
  /-- Before `on_failure`. -/
  | fail (ep : NodeEndpoint)
  | release (ep : NodeEndpoint) (fd : ℕ) (resp : Response)
  /-- Before `record_success`. -/
  | succeed (ep : NodeEndpoint) (resp : Response)
  /-- The counters, and `refresh` if the response asks for it. -/
  | finish (resp : Response)
  | returned (result : Option Response)
deriving DecidableEq, Repr

/-- A call of `execute`. -/
structure Execution where
  call : SdkCall
  started : Time
  /-- The targets to which the loop has not come. -/
  targets : List NodeEndpoint := []
  firstAttempt : Bool := true
  stage : Stage := .start
deriving DecidableEq, Repr

/-- What a step of a thread gets from outside. -/
structure Env where
  now : Time
  /-- What `tcp_connect` returns. -/
  connected : Option ℕ
  /-- How many bytes the connection takes before an error. -/
  accepted : ℕ
  /-- The bytes that arrive before the end or an error. -/
  arrived : Bytes
  fetch : ℕ → Bytes → UInt16 → Option (List NodeEndpoint)

/-- What a thread does. -/
inductive Event where
  /-- `find_successors`, on this topology. -/
  | searched (topo : TopologyManager)
  /-- `allow`, and its answer. -/
  | asked (ep : NodeEndpoint) (now : Time) (allowed : Bool)
  /-- `acquire` is called. -/
  | contacted (ep : NodeEndpoint)
  /-- `acquire` has returned a connection. -/
  | acquired (fd : ℕ)
  /-- `recv_response` has returned a response. -/
  | received (resp : Response)
  | closed (fd : ℕ)
  /-- The connection has been put back. -/
  | kept (fd : ℕ)
  /-- `record_failure`. -/
  | failure (ep : NodeEndpoint) (now : Time)
  /-- `record_success`. -/
  | success (ep : NodeEndpoint)

end PensieveClient

/-- `PensieveClient::Impl`, with the threads and the descriptors that are open. -/
structure PensieveClient where
  topo : TopologyManager
  pool : ConnectionPool
  breaker : CircuitBreaker
  stats : PensieveClient.Stats
  isOpen : ℕ → Bool
  execution : ℕ → Option PensieveClient.Execution

namespace PensieveClient

def goTo (s : PensieveClient) (i : ℕ) (x : Execution) : PensieveClient :=
  { s with execution := Function.update s.execution i (some x) }

def setOpen (s : PensieveClient) (fd : ℕ) (isOpen : Bool) : PensieveClient :=
  { s with isOpen := Function.update s.isOpen fd isOpen }

/-- `on_failure`. -/
def onFailure (s : PensieveClient) (ep : NodeEndpoint) (firstAttempt : Bool) (now : Time) :
    PensieveClient :=
  { s with
    breaker := s.breaker.recordFailure ep now
    stats := if firstAttempt then
        { s.stats with requestsRetried := s.stats.requestsRetried + 1 }
      else s.stats }

/-- The end of a call that has got a response. -/
def finish (s : PensieveClient) (x : Execution) (resp : Response) (env : Env) : PensieveClient :=
  let stats := if x.firstAttempt then
      { s.stats with requestsDirect := s.stats.requestsDirect + 1 }
    else s.stats
  let stats := { stats with lastLatencyUs := UInt64.ofNat ((env.now - x.started) / 1000) }
  if resp.status = .error ∧ resp.value = [] then
    { s with
      topo := (s.topo.refresh env.fetch).1
      stats := { stats with ringRefreshes := stats.ringRefreshes + 1 } }
  else { s with stats := stats }

/-- What a thread does next. -/
def advance (cfg : Config) (s : PensieveClient) (i : ℕ) (x : Execution) (env : Env) :
    Option (PensieveClient × List Event) :=
  match x.stage with
  | .start =>
    let targets := s.topo.findSuccessors x.call.request.key cfg.attempts
    let stage := if targets = [] then .returned none else .loop
    some (s.goTo i { x with targets := targets, stage := stage }, [.searched s.topo])
  | .loop =>
    match x.targets with
    | [] => some (s.goTo i { x with stage := .returned none }, [])
    | ep :: targets =>
      match s.breaker.allow ep env.now with
      | (true, breaker) =>
        some ({ s with breaker := breaker }.goTo i
          { x with targets := targets, stage := .acquire ep }, [.asked ep env.now true])
      | (false, breaker) =>
        some ({ s with
            breaker := breaker
            stats := { s.stats with circuitBreaks := s.stats.circuitBreaks + 1 } }.goTo i
          { x with targets := targets }, [.asked ep env.now false])
  | .acquire ep =>
    match s.pool.pop ep with
    | (some fd, pool) =>
      some ({ s with pool := pool }.goTo i { x with stage := .send ep fd },
        [.contacted ep, .acquired fd])
    | (none, _) => some (s.goTo i { x with stage := .connect ep }, [.contacted ep])
  | .connect ep =>
    match env.connected with
    | none => some (s.goTo i { x with stage := .fail ep }, [])
    | some fd =>
      -- the kernel gives out no descriptor that is open
      if s.isOpen fd then none
      else some ((s.setOpen fd true).goTo i { x with stage := .send ep fd }, [.acquired fd])
  | .send ep fd =>
    if (serializeRequest x.call.request).length ≤ env.accepted then
      some (s.goTo i { x with stage := .recv ep fd }, [])
    else some (s.goTo i { x with stage := .discard ep fd }, [])
  | .recv ep fd =>
    match recvResponse env.arrived with
    | some (resp, _) => some (s.goTo i { x with stage := .release ep fd resp }, [.received resp])
    | none => some (s.goTo i { x with stage := .discard ep fd }, [])
  | .discard ep fd =>
    some ((s.setOpen fd false).goTo i { x with stage := .fail ep }, [.closed fd])
  | .fail ep =>
    some ((s.onFailure ep x.firstAttempt env.now).goTo i
      { x with firstAttempt := false, stage := .loop }, [.failure ep env.now])
  | .release ep fd resp =>
    match s.pool.release ep fd with
    | (true, pool) =>
      some ({ s with pool := pool }.goTo i { x with stage := .succeed ep resp }, [.kept fd])
    | (false, _) =>
      some ((s.setOpen fd false).goTo i { x with stage := .succeed ep resp }, [.closed fd])
  | .succeed ep resp =>
    some ({ s with breaker := s.breaker.recordSuccess ep }.goTo i { x with stage := .finish resp },
      [.success ep])
  | .finish resp =>
    some ((s.finish x resp env).goTo i { x with stage := .returned (some resp) }, [])
  | .returned _ => none

/-- The steps of the client. -/
inductive Action where
  /-- A thread calls `execute`. -/
  | call (i : ℕ) (c : SdkCall) (now : Time)
  | run (i : ℕ) (env : Env)
  /-- The background thread. -/
  | refresh (fetch : ℕ → Bytes → UInt16 → Option (List NodeEndpoint))

def step (cfg : Config) (s : PensieveClient) : Action → Option (PensieveClient × List (ℕ × Event))
  | .call i c now =>
    match s.execution i with
    | some _ => none
    | none =>
      some ({ s with
          stats := { s.stats with requestsTotal := s.stats.requestsTotal + 1 } }.goTo i
        { call := c, started := now }, [])
  | .run i env =>
    match s.execution i with
    | none => none
    | some x => (s.advance cfg i x env).map fun r ↦ (r.1, r.2.map fun e ↦ (i, e))
  | .refresh fetch => some ({ s with topo := (s.topo.refresh fetch).1 }, [])

/-- The ring is the one that `rebuild_ring` makes of the list. -/
def Built (t : TopologyManager) : Prop := t = .ofNodes t.nodes

/-- A client starts with no connections, and here with any topology and any state `b` of the
breaker. -/
def machine (cfg : Config) (b : CircuitBreaker) : Machine PensieveClient Action (ℕ × Event) where
  init s := Built s.topo ∧ s.pool = ⟨cfg.maxConnectionsPerNode, fun _ ↦ []⟩ ∧ s.breaker = b ∧
    (∀ fd, s.isOpen fd = false) ∧ ∀ i, s.execution i = none
  step := step cfg

end PensieveClient

end Pensieve
