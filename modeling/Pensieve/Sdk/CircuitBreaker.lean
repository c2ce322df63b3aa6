import Pensieve.Sdk.TopologyManager

/-!
# The circuit breaker of the SDK

`src/sdk/circuit_breaker.cpp`.  The breaker keeps for each peer a state, a counter and the time at
which it was last opened, and `allow` changes the state as well as the two functions that record
how a call went.

What `allow` answers is a matter of the failures of the peer since its last success, and of the
last of them: `allow_eq_false_iff` says so for any sequence of calls.  `Tracks` is what an entry
knows about these failures.

The time for which a circuit stays open is given in milliseconds.  It is compared with a
difference of clock readings, in nanoseconds, and both are signed 64-bit numbers.
-/

namespace Pensieve

open Foundation

namespace CircuitBreaker

/-- `CircuitBreaker::State`. -/
inductive State where
  | closed
  | opened
  | halfOpen
deriving DecidableEq, Repr

/-- `CircuitBreaker::Config`. -/
structure Config where
  failureThreshold : Int32 := 3
  openDuration : Int64 := 5000
deriving DecidableEq, Repr

/-- The duration as it is compared. -/
def Config.openNanoseconds (cfg : Config) : Int64 := cfg.openDuration * 1000000

/-- `CircuitBreaker::Entry`. -/
structure Entry where
  state : State := .closed
  consecutiveFailures : Int32 := 0
  openedAt : Time := 0
deriving DecidableEq, Repr

end CircuitBreaker

/-- `CircuitBreaker`. -/
structure CircuitBreaker where
  cfg : CircuitBreaker.Config
  entries : PeerKey → Option CircuitBreaker.Entry

namespace CircuitBreaker

/-- A breaker starts without entries. -/
def new (cfg : Config) : CircuitBreaker := ⟨cfg, fun _ ↦ none⟩

/-- `allow`. -/
def allow (b : CircuitBreaker) (ep : NodeEndpoint) (now : Time) : Bool × CircuitBreaker :=
  match b.entries ep.peer with
  | none => (true, b)
  | some e =>
    if e.state = .closed then (true, b)
    else if b.cfg.openNanoseconds.toInt ≤ (now : ℤ) - e.openedAt then
      (true, { b with
        entries := Function.update b.entries ep.peer (some { e with state := .halfOpen }) })
    else (false, b)

/-- `record_success`. -/
def recordSuccess (b : CircuitBreaker) (ep : NodeEndpoint) : CircuitBreaker :=
  match b.entries ep.peer with
  | none => b
  | some e =>
    { b with
      entries := Function.update b.entries ep.peer
        (some { e with state := .closed, consecutiveFailures := 0 }) }

/-- An entry after one more failure. -/
def Entry.fail (cfg : Config) (e : Entry) (now : Time) : Entry :=
  let e := { e with consecutiveFailures := e.consecutiveFailures + 1 }
  if cfg.failureThreshold ≤ e.consecutiveFailures then
    { e with state := .opened, openedAt := now }
  else e

/-- `record_failure`.  A peer without an entry gets one. -/
def recordFailure (b : CircuitBreaker) (ep : NodeEndpoint) (now : Time) : CircuitBreaker :=
  { b with
    entries := Function.update b.entries ep.peer
      (some (((b.entries ep.peer).getD {}).fail b.cfg now)) }

/-! ## Sequences of calls -/

/-- The calls, with the times at which they read the clock. -/
inductive Call where
  | allow (ep : NodeEndpoint) (now : Time)
  | recordSuccess (ep : NodeEndpoint)
  | recordFailure (ep : NodeEndpoint) (now : Time)
deriving DecidableEq, Repr

/-- Whom a call is about. -/
def Call.peer : Call → PeerKey
  | .allow ep _ => ep.peer
  | .recordSuccess ep => ep.peer
  | .recordFailure ep _ => ep.peer

def call (b : CircuitBreaker) : Call → CircuitBreaker
  | .allow ep now => (b.allow ep now).2
  | .recordSuccess ep => b.recordSuccess ep
  | .recordFailure ep now => b.recordFailure ep now

def calls (b : CircuitBreaker) (history : List Call) : CircuitBreaker := history.foldl call b

/-- The failures since the last success, after one more call. -/
def Call.failures (times : List Time) : Call → List Time
  | .allow _ _ => times
  | .recordSuccess _ => []
  | .recordFailure _ now => times ++ [now]

/-- The times of the failures of a peer that have been recorded since its last success. -/
def failuresSince (key : PeerKey) (history : List Call) : List Time :=
  history.foldl (fun times c ↦ if c.peer = key then c.failures times else times) []

variable {b : CircuitBreaker} {cfg : Config} {ep : NodeEndpoint} {key : PeerKey} {c : Call}
  {history : List Call} {times : List Time} {e : Entry} {now : Time}

theorem calls_concat (b : CircuitBreaker) (history : List Call) (c : Call) :
    b.calls (history ++ [c]) = (b.calls history).call c := by
  rw [calls, List.foldl_concat]
  rfl

theorem failuresSince_concat (key : PeerKey) (history : List Call) (c : Call) :
    failuresSince key (history ++ [c]) =
      if c.peer = key then c.failures (failuresSince key history)
      else failuresSince key history := by
  rw [failuresSince, List.foldl_concat]
  rfl

theorem length_failuresSince_le (key : PeerKey) (history : List Call) :
    (failuresSince key history).length ≤ history.length := by
  induction history using List.reverseRecOn with
  | nil => exact le_rfl
  | append_singleton history c ih =>
    rw [failuresSince_concat, List.length_append, List.length_singleton]
    split_ifs with hkey
    · cases c with
      | allow ep now => exact ih.trans (Nat.le_succ _)
      | recordSuccess ep => exact Nat.zero_le _
      | recordFailure ep now =>
        rw [Call.failures, List.length_append]
        exact Nat.add_le_add_right ih 1
    · exact ih.trans (Nat.le_succ _)

/-! ## One entry

A peer without an entry is as good as one with a new entry. -/

/-- What the breaker has on a peer. -/
def entry (b : CircuitBreaker) (key : PeerKey) : Entry := (b.entries key).getD {}

/-- The answer of `allow`. -/
def Entry.allows (cfg : Config) (e : Entry) (now : Time) : Bool :=
  e.state = .closed ∨ cfg.openNanoseconds.toInt ≤ (now : ℤ) - e.openedAt

/-- The entry of a peer after a call about it. -/
def Entry.call (cfg : Config) (e : Entry) : Call → Entry
  | .allow _ now =>
    if e.state ≠ .closed ∧ e.allows cfg now then { e with state := .halfOpen } else e
  | .recordSuccess _ => { e with state := .closed, consecutiveFailures := 0 }
  | .recordFailure _ now => e.fail cfg now

theorem allow_fst (b : CircuitBreaker) (ep : NodeEndpoint) (now : Time) :
    (b.allow ep now).1 = (b.entry ep.peer).allows b.cfg now := by
  rw [allow, entry]
  rcases b.entries ep.peer with - | e
  · rfl
  · by_cases hclosed : e.state = .closed
    · simp [Entry.allows, hclosed]
    · by_cases hlater : b.cfg.openNanoseconds.toInt ≤ (now : ℤ) - e.openedAt
      · simp [Entry.allows, hclosed, hlater]
      · simp [Entry.allows, hclosed, hlater]

theorem entry_update (b : CircuitBreaker) (peer key : PeerKey) (e : Entry) :
    entry { b with entries := Function.update b.entries peer (some e) } key =
      if peer = key then e else b.entry key := by
  unfold entry
  by_cases hkey : peer = key
  · subst hkey
    simp
  · simp [hkey, Function.update_of_ne (Ne.symm hkey)]

theorem entry_of_some (h : b.entries key = some e) : b.entry key = e := by
  rw [entry, h, Option.getD_some]

theorem entry_of_none (h : b.entries key = none) : b.entry key = {} := by
  rw [entry, h, Option.getD_none]

theorem entry_allow (b : CircuitBreaker) (ep : NodeEndpoint) (now : Time) (key : PeerKey) :
    (b.allow ep now).2.entry key =
      if ep.peer = key then (b.entry key).call b.cfg (.allow ep now) else b.entry key := by
  rcases hentry : b.entries ep.peer with - | e
  · rw [allow, hentry]
    split_ifs with hkey
    · rw [← hkey, entry_of_none hentry]
      rfl
    · rfl
  · have hallow : (b.allow ep now).2 =
        if e.state ≠ .closed ∧ e.allows b.cfg now then
          { b with
            entries := Function.update b.entries ep.peer (some { e with state := .halfOpen }) }
        else b := by
      rw [allow, hentry]
      by_cases hclosed : e.state = .closed
      · simp [Entry.allows, hclosed]
      · by_cases hlater : b.cfg.openNanoseconds.toInt ≤ (now : ℤ) - e.openedAt
        · simp [Entry.allows, hclosed, hlater]
        · simp [Entry.allows, hclosed, hlater]
    rw [hallow, Entry.call]
    by_cases hkey : ep.peer = key
    · subst hkey
      rw [if_pos rfl, entry_of_some hentry]
      split_ifs with hopen
      · rw [entry_update, if_pos rfl]
      · exact entry_of_some hentry
    · rw [if_neg hkey]
      split_ifs with hopen
      · rw [entry_update, if_neg hkey]
      · rfl

theorem entry_recordSuccess (b : CircuitBreaker) (ep : NodeEndpoint) (key : PeerKey) :
    (b.recordSuccess ep).entry key =
      if ep.peer = key then (b.entry key).call b.cfg (.recordSuccess ep) else b.entry key := by
  rcases hentry : b.entries ep.peer with - | e
  · rw [recordSuccess, hentry]
    split_ifs with hkey
    · rw [← hkey, entry_of_none hentry]
      rfl
    · rfl
  · rw [recordSuccess, hentry, entry_update]
    split_ifs with hkey
    · rw [← hkey, entry_of_some hentry]
      rfl
    · rfl

/-- A call changes what is known of its peer, and of no other. -/
theorem entry_call (b : CircuitBreaker) (c : Call) (key : PeerKey) :
    (b.call c).entry key = if c.peer = key then (b.entry key).call b.cfg c else b.entry key := by
  cases c with
  | allow ep now => exact entry_allow b ep now key
  | recordSuccess ep => exact entry_recordSuccess b ep key
  | recordFailure ep now =>
    rw [call, recordFailure, entry_update, Call.peer]
    split_ifs with hkey
    · rw [hkey]
      rfl
    · rfl

@[simp] theorem cfg_call (b : CircuitBreaker) (c : Call) : (b.call c).cfg = b.cfg := by
  cases c with
  | allow ep now =>
    rw [call, allow]
    split
    · rfl
    · split_ifs <;> rfl
  | recordSuccess ep =>
    rw [call, recordSuccess]
    split <;> rfl
  | recordFailure ep now => rfl

@[simp] theorem cfg_calls (b : CircuitBreaker) (history : List Call) :
    (b.calls history).cfg = b.cfg := by
  induction history using List.reverseRecOn with
  | nil => rfl
  | append_singleton history c ih => rw [calls_concat, cfg_call, ih]

/-! ## What an entry knows -/

/-- The entry of a peer whose failures since its last success were at the given times. -/
structure Tracks (cfg : Config) (times : List Time) (e : Entry) : Prop where
  count : e.consecutiveFailures.toInt = times.length
  closed_iff : e.state = .closed ↔ (times.length : ℤ) < max 1 cfg.failureThreshold.toInt
  last : e.state ≠ .closed → times.getLast? = some e.openedAt

theorem tracks_nil (cfg : Config) (openedAt : Time) : Tracks cfg [] ⟨.closed, 0, openedAt⟩ := by
  refine ⟨rfl, ?_, fun h ↦ absurd rfl h⟩
  simp

theorem Tracks.fail (h : Tracks cfg times e) (hfew : times.length + 1 < 2 ^ 31) (now : Time) :
    Tracks cfg (times ++ [now]) (e.fail cfg now) := by
  have hcount : (e.consecutiveFailures + 1).toInt = times.length + 1 := by
    have hone : (1 : Int32).toInt = 1 := rfl
    rw [Int32.toInt_add, h.count, hone]
    exact Int.bmod_eq_of_le (by omega) (by omega)
  have hopen : cfg.failureThreshold ≤ e.consecutiveFailures + 1 ↔
      max 1 cfg.failureThreshold.toInt ≤ times.length + 1 := by
    rw [Int32.le_iff_toInt_le, hcount]
    omega
  have hlength : ((times ++ [now]).length : ℤ) = times.length + 1 := by simp
  rw [Entry.fail]
  by_cases hreached : max 1 cfg.failureThreshold.toInt ≤ times.length + 1
  · rw [if_pos (hopen.mpr hreached)]
    refine ⟨?_, ?_, fun _ ↦ List.getLast?_concat⟩
    · rw [hlength, ← hcount]
    · rw [hlength]
      simp only [reduceCtorEq, false_iff]
      omega
  · rw [if_neg (hopen.not.mpr hreached)]
    have hclosed : e.state = .closed := h.closed_iff.mpr (by omega)
    refine ⟨?_, ?_, fun hnot ↦ absurd hclosed hnot⟩
    · rw [hlength, ← hcount]
    · rw [hlength]
      exact iff_of_true hclosed (by omega)

theorem Tracks.call (h : Tracks cfg times e) (c : Call)
    (hfew : (c.failures times).length < 2 ^ 31) : Tracks cfg (c.failures times) (e.call cfg c) := by
  cases c with
  | allow ep now =>
    rw [Entry.call]
    split_ifs with hopen
    · exact ⟨h.count, iff_of_false (by simp) (h.closed_iff.not.mp hopen.1),
        fun _ ↦ h.last hopen.1⟩
    · exact h
  | recordSuccess ep => exact tracks_nil cfg e.openedAt
  | recordFailure ep now =>
    refine h.fail ?_ now
    rw [Call.failures, List.length_append] at hfew
    exact hfew

/-- After any calls, if no counter overflows, the entry of a peer tracks its failures. -/
theorem tracks_calls (cfg : Config) (key : PeerKey) (history : List Call)
    (hfew : ∀ pre, pre <+: history → (failuresSince key pre).length < 2 ^ 31) :
    Tracks cfg (failuresSince key history) (((new cfg).calls history).entry key) := by
  induction history using List.reverseRecOn with
  | nil => exact tracks_nil cfg 0
  | append_singleton history c ih =>
    have hold := ih fun pre hpre ↦ hfew pre (hpre.trans (List.prefix_append _ _))
    have hnew := hfew _ (List.prefix_refl _)
    rw [failuresSince_concat] at hnew ⊢
    rw [calls_concat, entry_call, cfg_calls]
    split_ifs with hkey
    · rw [if_pos hkey] at hnew
      exact hold.call c hnew
    · exact hold

/-- Calls about other peers leave no mark. -/
theorem entry_calls_filter (b : CircuitBreaker) (key : PeerKey) (history : List Call) :
    (b.calls (history.filter fun c ↦ c.peer = key)).entry key = (b.calls history).entry key := by
  induction history using List.reverseRecOn with
  | nil => rfl
  | append_singleton history c ih =>
    rw [List.filter_append, calls_concat, entry_call, cfg_calls, ← ih]
    by_cases hkey : c.peer = key
    · rw [if_pos hkey, List.filter_cons_of_pos (by simpa using hkey), List.filter_nil, calls_concat,
        entry_call, if_pos hkey, cfg_calls]
    · rw [if_neg hkey, List.filter_cons_of_neg (by simpa using hkey), List.filter_nil,
        List.append_nil]

/-! ## The answers -/

/-- The duration, in nanoseconds, is a number that can be represented. -/
def Config.Representable (cfg : Config) : Prop :=
  -2 ^ 63 ≤ cfg.openDuration.toInt * 1000000 ∧ cfg.openDuration.toInt * 1000000 < 2 ^ 63

instance (cfg : Config) : Decidable cfg.Representable := by
  unfold Config.Representable
  infer_instance

theorem Config.Representable.toInt (h : cfg.Representable) :
    cfg.openNanoseconds.toInt = cfg.openDuration.toInt * 1000000 := by
  have hmillion : (1000000 : Int64).toInt = 1000000 := rfl
  rw [Config.openNanoseconds, Int64.toInt_mul, hmillion]
  exact Int.bmod_eq_of_le h.1 h.2

/-- A circuit is open: the failures since the last success have reached the threshold, and the last
of them is not as long ago as the duration. -/
def Refused (cfg : Config) (times : List Time) (now : Time) : Prop :=
  max 1 cfg.failureThreshold.toInt ≤ times.length ∧
    ∃ last ∈ times.getLast?, (now : ℤ) - last < cfg.openDuration.toInt * 1000000

instance (cfg : Config) (times : List Time) (now : Time) : Decidable (Refused cfg times now) := by
  unfold Refused
  infer_instance

theorem Tracks.refused_iff (h : Tracks cfg times e) (hcfg : cfg.Representable) (now : Time) :
    Refused cfg times now ↔ e.allows cfg now = false := by
  rw [Entry.allows, decide_eq_false_iff_not, not_or, hcfg.toInt, Int.not_le, h.closed_iff,
    Int.not_lt]
  refine and_congr_right fun hreached ↦ ?_
  have hlast := h.last (h.closed_iff.not.mpr (Int.not_lt.mpr hreached))
  simp [hlast]

/-- `allow` refuses a peer just when its circuit is open by its history, and the calls about other
peers do not matter. -/
theorem allow_eq_false_iff (cfg : Config) (hcfg : cfg.Representable) (history : List Call)
    (ep : NodeEndpoint)
    (hfew : ∀ pre, pre <+: history → (failuresSince ep.peer pre).length < 2 ^ 31) (now : Time) :
    ((((new cfg).calls history).allow ep now).1 = false ↔
        Refused cfg (failuresSince ep.peer history) now) ∧
      (((new cfg).calls history).allow ep now).1 =
        (((new cfg).calls (history.filter fun c ↦ c.peer = ep.peer)).allow ep now).1 := by
  rw [allow_fst, allow_fst, entry_calls_filter, cfg_calls, cfg_calls]
  exact ⟨((tracks_calls cfg ep.peer history hfew).refused_iff hcfg now).symm, rfl⟩

/-- Three failures open the circuit, for five seconds. -/
theorem allow_eq_false_default :
    (((new {}).calls [.recordFailure ⟨[97], 7946, 11211⟩ 0, .recordFailure ⟨[97], 7946, 11211⟩ 1,
      .recordFailure ⟨[97], 7946, 11211⟩ 2]).allow ⟨[97], 7946, 11211⟩ 3).1 = false := by
  refine (allow_eq_false_iff {} (by decide) _ _ (fun pre hpre ↦ ?_) 3).1.mpr ⟨by decide, 2, ?_, ?_⟩
  · have hlength := length_failuresSince_le ⟨[97], 11211⟩ pre
    exact (hlength.trans hpre.length_le).trans_lt (by decide)
  · rfl
  · decide

/-- The largest duration wraps to a negative one, and the circuit does not open. -/
theorem largest_duration_never_refuses :
    (((new ⟨1, Int64.maxValue⟩).calls [.recordFailure ⟨[97], 7946, 11211⟩ 0]).allow
      ⟨[97], 7946, 11211⟩ 0).1 = true ∧
      Refused ⟨1, Int64.maxValue⟩
        (failuresSince ⟨[97], 11211⟩ [.recordFailure ⟨[97], 7946, 11211⟩ 0]) 0 := by
  decide

end CircuitBreaker

end Pensieve
