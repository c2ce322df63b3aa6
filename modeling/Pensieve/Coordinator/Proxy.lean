import Pensieve.Coordinator.PeerClient

/-!
# Proxied requests

`Coordinator::proxy_to_peer` with the connections of `PeerClient`.  Any number of requests are
proxied at a time.  Each call takes a connection from the pool of its peer or opens one, sends
its request over it with `send_request`, and then puts it back or closes it; which of the two
is decided by the status of the response alone.

A peer reads the complete requests that it finds on a connection one after the other, and
answers each with a frame.  Reads and writes fail when the environment says so.  The two lists
of a socket are its history: who has asked over it, and what the peer has read and answered.
No step looks at them.
-/

namespace Pensieve

open Foundation

/-- A connection to a peer. -/
structure Socket where
  peer : PeerKey
  /-- Bytes that have been written and that the peer has not read. -/
  toPeer : Bytes
  /-- Bytes that the peer has written and that have not been read. -/
  fromPeer : Bytes
  /-- The calls that have written all of their request, in order. -/
  asked : List ℕ
  /-- The requests that the peer has read with its answers to them, in order. -/
  answers : List (Request × Response)

/-- Where a call of `proxy_to_peer` is. -/
inductive ProxyState where
  /-- In `open_connection`, waiting for the connection. -/
  | connecting (key : PeerKey) (fd : ℕ) (req : Request)
  /-- In `send_request`. -/
  | sending (key : PeerKey) (fd : ℕ) (req : Request)
  /-- In `async_close`. -/
  | closing (fd : ℕ) (req : Request) (resp : Response)
  | returned (resp : Response)

/-- The socket that the call has. -/
def ProxyState.fds : ProxyState → List ℕ
  | .connecting _ fd _ => [fd]
  | .sending _ fd _ => [fd]
  | .closing fd _ _ => [fd]
  | .returned _ => []

/-- What the call asks of whom, until it has the response. -/
def ProxyState.asks : ProxyState → Option (Request × PeerKey)
  | .connecting key _ req => some (req, key)
  | .sending key _ req => some (req, key)
  | _ => none

/-- The calls, the sockets, and the connections that wait for a call (`conn_pool_`). -/
structure Proxies where
  sends : SendCalls
  socket : ℕ → Option Socket
  idle : PeerKey → List ℕ
  call : ℕ → Option ProxyState

namespace Proxies

/-- What happens next. -/
inductive Action where
  /-- A request that was read from a client is to be proxied.  `owner` is the data address of
  the owner, if the owner is a member; `opened` is the socket that `open_connection` gets, if
  it comes to that. -/
  | start (i : ℕ) (req : Request) (framed : req.Framed) (owner : Option PeerKey)
      (opened : Option ℕ)
  /-- `async_connect` returns. -/
  | connected (i : ℕ) (ok : Bool)
  /-- The kernel takes `n` bytes of the request. -/
  | wrote (i n : ℕ)
  /-- A read returns up to `n` of the bytes that are there. -/
  | read (i n : ℕ)
  /-- A read or a write fails. -/
  | fail (i : ℕ)
  /-- `async_close` returns. -/
  | closed (i : ℕ)
  /-- The peer reads a request and answers it. -/
  | answer (fd : ℕ) (hdr : ResponseHeader) (resp : Response) (framed : hdr.Announces resp)

/-- What can be said of a run. -/
inductive Event where
  /-- A call begins; `owner` is the data address of the owner. -/
  | started (i : ℕ) (req : Request) (owner : Option PeerKey)
  /-- A call returns; the socket is the one that it has put back. -/
  | returned (i : ℕ) (req : Request) (resp : Response) (sock : Option Socket)

variable (s : Proxies) (i : ℕ)

/-- The call goes on to a state. -/
def goTo (state : ProxyState) : Proxies := { s with call := Function.update s.call i (some state) }

/-- A socket is opened, used or closed. -/
def setSocket (fd : ℕ) (sock : Option Socket) : Proxies :=
  { s with socket := Function.update s.socket fd sock }

/-- The connections that wait for a call to the peer. -/
def setIdle (key : PeerKey) (fds : List ℕ) : Proxies :=
  { s with idle := Function.update s.idle key fds }

def setSends (sends : SendCalls) : Proxies := { s with sends }

/-- The call returns `Response{Status::Error, {}}`. -/
def giveUp (req : Request) : Proxies × List Event :=
  (s.goTo i (.returned errorResponse), [.returned i req errorResponse none])

/-- The call has a connection and begins `send_request`. -/
def send (key : PeerKey) (fd : ℕ) (req : Request) : Option (Proxies × List Event) :=
  (s.sends.step (.start i req)).map fun sends ↦
    ((s.setSends sends).goTo i (.sending key fd req), [])

/-- `acquire`. -/
def acquire (key : PeerKey) (req : Request) (opened : Option ℕ) :
    Option (Proxies × List Event) :=
  match s.idle key with
  | fd :: rest => (s.setIdle key rest).send i key fd req
  | [] =>
    match opened with
    | none => some (s.giveUp i req)
    | some fd =>
      if s.socket fd = none then
        some ((s.setSocket fd (some ⟨key, [], [], [], []⟩)).goTo i (.connecting key fd req), [])
      else none

/-- `proxy_to_peer`, up to its first wait. -/
def proxyToPeer (req : Request) (owner : Option PeerKey) (opened : Option ℕ) :
    Option (Proxies × List Event) :=
  match owner with
  | none => some (s.giveUp i req)
  | some key => s.acquire i key req opened

/-- After a read or a write, with what it has done to the socket: once `send_request` has
returned, the connection is closed or put back. -/
def resume (key : PeerKey) (fd : ℕ) (req : Request) (sock : Socket) (sends : SendCalls) :
    Proxies × List Event :=
  let s := (s.setSocket fd (some sock)).setSends sends
  match sends.call i with
  | some ⟨.done resp, _, _⟩ =>
    if resp.status = .error then (s.goTo i (.closing fd req resp), [])
    else
      ((s.setIdle key (s.idle key ++ [fd])).goTo i (.returned resp),
        [.returned i req resp (some sock)])
  | _ => (s, [])

/-- What the call has left to write. -/
def unwritten : Bytes :=
  match s.sends.call i with
  | some ⟨.writing rest, _, _⟩ => rest
  | _ => []

/-- A read or a write of the call, given by what it does to the socket and to the call. -/
def io (a : SendCalls.Action) (change : Socket → Socket) : Option (Proxies × List Event) :=
  match s.call i with
  | some (.sending key fd req) =>
    match s.socket fd, s.sends.step a with
    | some sock, some sends => some (s.resume i key fd req (change sock) sends)
    | _, _ => none
  | _ => none

/-- The bytes that a read returns. -/
def readable (n : ℕ) : Bytes :=
  match s.call i with
  | some (.sending _ fd _) =>
    match s.socket fd with
    | some sock => sock.fromPeer.take n
    | none => []
  | _ => []

/-- One step. -/
def step (s : Proxies) : Action → Option (Proxies × List Event)
  | .start i req _ owner opened =>
    if s.call i = none then
      (s.proxyToPeer i req owner opened).map fun r ↦ (r.1, .started i req owner :: r.2)
    else none
  | .connected i ok =>
    match s.call i with
    | some (.connecting key fd req) =>
      if ok then s.send i key fd req else some ((s.setSocket fd none).giveUp i req)
    | _ => none
  | .wrote i n =>
    s.io i (.wrote i n) fun sock ↦
      { sock with
        toPeer := sock.toPeer ++ (s.unwritten i).take n
        asked := if (s.unwritten i).length ≤ n then sock.asked ++ [i] else sock.asked }
  | .read i n =>
    s.io i (.read i (s.readable i n)) fun sock ↦ { sock with fromPeer := sock.fromPeer.drop n }
  | .fail i => s.io i (.fail i) fun sock ↦ sock
  | .closed i =>
    match s.call i with
    | some (.closing fd req resp) =>
      some ((s.setSocket fd none).goTo i (.returned resp), [.returned i req resp none])
    | _ => none
  | .answer fd hdr resp _ =>
    match s.socket fd with
    | none => none
    | some sock =>
      match parseRequest sock.toPeer with
      | none => none
      | some req =>
        let sock :=
          { sock with
            toPeer := sock.toPeer.drop (kHeaderSize + req.key.length + req.value.length)
            fromPeer := sock.fromPeer ++ (hdr.bytes ++ resp.value)
            answers := sock.answers ++ [(req, resp)] }
        some (s.setSocket fd (some sock), [])

/-- A coordinator that has not proxied anything yet. -/
def machine : Machine Proxies Action Event where
  init s := SendCalls.machine.init s.sends ∧ (∀ fd, s.socket fd = none) ∧
    (∀ key, s.idle key = []) ∧ ∀ i, s.call i = none
  step := step

/-- The call `i` has the socket. -/
def Holds (s : Proxies) (i fd : ℕ) : Prop := ∃ state, s.call i = some state ∧ fd ∈ state.fds

end Proxies

/-! ## What is on a connection -/

/-- Nothing is on its way, and every request has been answered. -/
structure Socket.Quiet (sock : Socket) : Prop where
  toPeer : sock.toPeer = []
  fromPeer : sock.fromPeer = []
  answered : sock.asked.length = sock.answers.length

/-- The peer has answered the request of the call `i`. -/
def Socket.Answered (sock : Socket) (i : ℕ) (req : Request) (resp : Response) : Prop :=
  ∃ k : ℕ, sock.asked[k]? = some i ∧ sock.answers[k]? = some (req, resp)

/-- What is on the connection of a call in `send_request`. -/
inductive Conversation (i : ℕ) (req : Request) (sock : Socket) (c : SendCall) : Prop
  /-- A part of the request has been written. -/
  | writing (rest : Bytes) (hstate : c.state = .writing rest)
      (hwire : sock.toPeer ++ rest = serializeRequest req) (hfrom : sock.fromPeer = [])
      (hanswered : sock.asked.length = sock.answers.length)
  /-- The request has been written and not been answered. -/
  | asked (before : List ℕ) (hstate : ∀ rest, c.state ≠ .writing rest)
      (hreceived : c.received = []) (hwire : sock.toPeer = serializeRequest req)
      (hfrom : sock.fromPeer = []) (hasked : sock.asked = before ++ [i])
      (hanswered : before.length = sock.answers.length)
  /-- The peer has answered, and a part of the answer has been read. -/
  | answered (before : List ℕ) (old : List (Request × Response)) (hdr : ResponseHeader)
      (resp : Response) (hstate : ∀ rest, c.state ≠ .writing rest) (hwire : sock.toPeer = [])
      (hannounces : hdr.Announces resp)
      (hreceived : c.received ++ sock.fromPeer = hdr.bytes ++ resp.value)
      (hasked : sock.asked = before ++ [i]) (hanswers : sock.answers = old ++ [(req, resp)])
      (hanswered : before.length = old.length)

/-- How a call stands after a read or a write. -/
inductive IoOutcome (i : ℕ) (req : Request) (sock : Socket) (c : SendCall) : Prop
  | continues (hfailed : c.failed = false) (hstate : ∀ resp, c.state ≠ .done resp)
      (hconversation : Conversation i req sock c)
  | succeeds (resp : Response) (hstate : c.state = .done resp) (hquiet : sock.Quiet)
      (hanswered : sock.Answered i req resp)
  | fails (hstate : c.state = .done errorResponse)

section

variable {pool : Option BufferPool} {i : ℕ} {req : Request} {sock : Socket} {c : SendCall}

/-- Some of the request is written. -/
theorem Conversation.wrote {rest received : Bytes} (n : ℕ)
    (h : Conversation i req sock ⟨.writing rest, received, false⟩) (hreceived : received = []) :
    IoOutcome i req
      { sock with
        toPeer := sock.toPeer ++ rest.take n
        asked := if rest.length ≤ n then sock.asked ++ [i] else sock.asked }
      ⟨.wrote rest n, received, false⟩ := by
  cases h with
  | asked before hstate => exact absurd rfl (hstate rest)
  | answered before old hdr resp hstate => exact absurd rfl (hstate rest)
  | writing rest' hstate hwire hfrom hanswered =>
      cases hstate
      rw [SendState.wrote]
      split_ifs with hall
      · refine .continues rfl (fun _ heq ↦ (by cases heq)) (.asked sock.asked ?_ hreceived ?_ hfrom
          rfl hanswered)
        · intro rest heq
          cases heq
        · simp only
          rw [List.take_of_length_le hall]
          exact hwire
      · refine .continues rfl (fun _ heq ↦ (by cases heq)) (.writing _ rfl ?_ hfrom hanswered)
        simp only
        rw [List.append_assoc, List.take_append_drop]
        exact hwire

/-- Some of the answer is read. -/
theorem Conversation.read {state : SendState} {n : ℕ}
    (h : Conversation i req sock c) (hpos : 0 < (sock.fromPeer.take n).length)
    (hle : (sock.fromPeer.take n).length ≤ transferLimit c.state.toRead)
    (hok : SendCall.OK pool ⟨state, c.received ++ sock.fromPeer.take n, false⟩) :
    IoOutcome i req { sock with fromPeer := sock.fromPeer.drop n }
      ⟨state, c.received ++ sock.fromPeer.take n, false⟩ := by
  cases h with
  | writing rest hstate =>
      rw [hstate] at hle
      exact absurd (hpos.trans_le hle) (lt_irrefl 0)
  | asked before hstate hreceived hwire hfrom =>
      rw [hfrom, List.take_nil] at hpos
      exact absurd hpos (lt_irrefl 0)
  | answered before old hdr resp hstate hwire hannounces hreceived hasked hanswers hanswered =>
      have hframe : (c.received ++ sock.fromPeer.take n) ++ sock.fromPeer.drop n =
          hdr.bytes ++ resp.value := by
        rw [List.append_assoc, List.take_append_drop, hreceived]
      rcases hok.progress rfl hdr hannounces ⟨_, hframe⟩ with ⟨hall, hdone⟩ | ⟨-, hwaits, -⟩
      · refine .succeeds resp hdone ⟨hwire, ?_, ?_⟩ ⟨before.length, ?_, ?_⟩
        · simp only at hall
          rw [hall] at hframe
          exact List.append_right_eq_self.mp hframe
        · simp [hasked, hanswers, hanswered]
        · simp [hasked]
        · simp [hanswers, hanswered]
      · refine .continues rfl hwaits (.answered before old hdr resp ?_ hwire hannounces hframe
          hasked hanswers hanswered)
        rintro rest hstate'
        obtain rfl : state = .writing rest := hstate'
        obtain ⟨-, hnil, -⟩ := hok
        rw [List.append_eq_nil_iff.mp hnil |>.2] at hpos
        exact lt_irrefl 0 hpos

theorem parseRequest_nil : parseRequest [] = none := rfl

/-- The peer finds a request on the connection only if the call has written it, and then that
request. -/
theorem Conversation.answer {req' : Request} {hdr : ResponseHeader} {resp : Response}
    (h : Conversation i req sock c) (hframed : req.Framed)
    (hparse : parseRequest sock.toPeer = some req') (hannounces : hdr.Announces resp)
    (hrest : ∀ rest, c.state = .writing rest → rest ≠ []) :
    Conversation i req
      { sock with
        toPeer := sock.toPeer.drop (kHeaderSize + req'.key.length + req'.value.length)
        fromPeer := sock.fromPeer ++ (hdr.bytes ++ resp.value)
        answers := sock.answers ++ [(req', resp)] } c := by
  have hvalue : req.value.length < 2 ^ 32 := lt_of_le_of_lt (Nat.le_add_left ..) hframed.2
  cases h with
  | writing rest hstate hwire =>
      have hnone : parseRequest sock.toPeer = none := by
        refine parseRequest_of_part hframed.1 hvalue ⟨rest, hwire⟩ fun heq ↦ hrest rest hstate ?_
        rw [heq] at hwire
        exact List.append_right_eq_self.mp hwire
      cases hnone.symm.trans hparse
  | answered before old hdr resp hstate hwire =>
      rw [hwire, parseRequest_nil] at hparse
      cases hparse
  | asked before hstate hreceived hwire hfrom hasked hanswered =>
      have hwhole := parseRequest_serializeRequest hframed.1 hvalue []
      rw [List.append_nil, ← hwire] at hwhole
      cases hwhole.symm.trans hparse
      refine .answered before sock.answers hdr resp hstate ?_ hannounces ?_ hasked rfl hanswered
      · refine List.drop_eq_nil_of_le ?_
        rw [hwire]
        simp [serializeRequest, Nat.add_assoc]
      · simp [hreceived, hfrom]

end

namespace Proxies

/-! ## The invariant -/

/-- The sockets of a call. -/
def fdsOf (s : Proxies) (i : ℕ) : List ℕ :=
  match s.call i with
  | none => []
  | some state => state.fds

/-- Where the sockets are: with the idle ones of a peer, or with a call. -/
def places (s : Proxies) : PeerKey ⊕ ℕ → List ℕ
  | .inl key => s.idle key
  | .inr i => s.fdsOf i

/-- Every open socket is in one place. -/
def Kept (s : Proxies) : Prop :=
  ∃ owner, Custody s.places owner ∧ ∀ fd, (owner fd).isSome = (s.socket fd).isSome

/-- A socket that nobody uses. -/
def Unused (s : Proxies) (key : PeerKey) (fd : ℕ) : Prop :=
  ∃ sock, s.socket fd = some sock ∧ sock.peer = key ∧ sock.Quiet

/-- A call is where its connection is. -/
def CallOK (s : Proxies) (i : ℕ) : ProxyState → Prop
  | .connecting key fd req => req.Framed ∧ s.sends.call i = none ∧ s.Unused key fd
  | .sending key fd req => req.Framed ∧ ∃ sock c, s.socket fd = some sock ∧ sock.peer = key ∧
      s.sends.call i = some c ∧ c.failed = false ∧ Conversation i req sock c
  | .closing _ _ resp => resp.status = .error
  | .returned _ => True

structure Inv (s : Proxies) : Prop where
  sends : s.sends.Inv
  fresh : ∀ i, s.call i = none → s.sends.call i = none
  kept : s.Kept
  idle : ∀ key, ∀ fd ∈ s.idle key, s.Unused key fd
  call : ∀ i state, s.call i = some state → s.CallOK i state

/-- A call that returns with a response other than an error returns the answer of its peer. -/
def Event.OK : Event → Prop
  | .started _ _ _ => True
  | .returned i req resp sock => resp.status ≠ .error →
      ∃ sk, sock = some sk ∧ sk.Answered i req resp

variable {s s' : Proxies} {i fd : ℕ} {key : PeerKey} {req : Request}

/-- The step touches no call but `i` and no sockets but `fds`. -/
structure Touches (s s' : Proxies) (i : ℕ) (fds : List ℕ) : Prop where
  call : ∀ j, j ≠ i → s'.call j = s.call j
  sends : ∀ j, j ≠ i → s'.sends.call j = s.sends.call j
  socket : ∀ fd, fd ∉ fds → s'.socket fd = s.socket fd
  idle : ∀ key, ∀ fd ∈ s'.idle key, fd ∉ fds → fd ∈ s.idle key

theorem Unused.congr (h : s.Unused key fd) (hsocket : s'.socket fd = s.socket fd) :
    s'.Unused key fd := by
  rw [Unused, hsocket]
  exact h

theorem CallOK.congr {state : ProxyState} (h : s.CallOK i state)
    (hsends : s'.sends.call i = s.sends.call i)
    (hsocket : ∀ fd ∈ state.fds, s'.socket fd = s.socket fd) : s'.CallOK i state := by
  cases state with
  | connecting key fd req =>
      obtain ⟨hframed, hnone, hunused⟩ := h
      exact ⟨hframed, hsends.trans hnone, hunused.congr (hsocket fd List.mem_cons_self)⟩
  | sending key fd req =>
      obtain ⟨hframed, sock, c, hsock, hpeer, hc, hrest⟩ := h
      exact ⟨hframed, sock, c, (hsocket fd List.mem_cons_self).trans hsock, hpeer,
        hsends.trans hc, hrest⟩
  | closing => exact h
  | returned => trivial

theorem fdsOf_eq {state : ProxyState} (h : s.call i = some state) : s.fdsOf i = state.fds := by
  rw [fdsOf, h]

/-- **The frame rule.**  What a step does not touch stays as it was. -/
theorem Inv.touch (fds : List ℕ) (h : s.Inv) (htouches : Touches s s' i fds)
    (hfds : ∀ fd ∈ fds, ∀ j, fd ∈ s.fdsOf j → j = i) (hsends : s'.sends.Inv) (hkept : s'.Kept)
    (hidle : ∀ fd ∈ fds, ∀ key, fd ∈ s'.idle key → s'.Unused key fd)
    (hcall : ∃ state, s'.call i = some state ∧ s'.CallOK i state) : s'.Inv := by
  obtain ⟨state, hstate, hok⟩ := hcall
  refine ⟨hsends, fun j hj ↦ ?_, hkept, fun key fd hfd ↦ ?_, fun j state' hj ↦ ?_⟩
  · by_cases hji : j = i
    · subst hji
      cases hstate.symm.trans hj
    · rw [htouches.call j hji] at hj
      rw [htouches.sends j hji]
      exact h.fresh j hj
  · by_cases hmem : fd ∈ fds
    · exact hidle fd hmem key hfd
    · exact (h.idle key fd (htouches.idle key fd hfd hmem)).congr (htouches.socket fd hmem)
  · by_cases hji : j = i
    · subst hji
      cases hstate.symm.trans hj
      exact hok
    · rw [htouches.call j hji] at hj
      refine (h.call j state' hj).congr (htouches.sends j hji) fun fd hfd ↦ ?_
      exact htouches.socket fd fun hmem ↦ hji (hfds fd hmem j (by rwa [fdsOf_eq hj]))

/-! ## Where the sockets go -/

section

variable {p q : PeerKey ⊕ ℕ}

theorem fdsOf_congr (h : s'.call i = s.call i) : s'.fdsOf i = s.fdsOf i := by
  rw [fdsOf, fdsOf, h]

theorem kept_iff : s.Kept ↔ Foundation.Kept s.places fun fd ↦ (s.socket fd).isSome := Iff.rfl

theorem Kept.isSome (h : s.Kept) (hfd : fd ∈ s.places p) : (s.socket fd).isSome :=
  (kept_iff.mp h).alive_of_mem hfd

theorem Kept.place_unique (h : s.Kept) (hp : fd ∈ s.places p) (hq : fd ∈ s.places q) : p = q :=
  (kept_iff.mp h).place_unique hp hq

/-- Only one call has a socket. -/
theorem Kept.holder {j : ℕ} (h : s.Kept) (hi : fd ∈ s.fdsOf i) (hj : fd ∈ s.fdsOf j) : j = i :=
  Sum.inr.inj (h.place_unique (p := .inr j) (q := .inr i) hj hi)

/-- A socket that a call has is not idle. -/
theorem Kept.notMem_idle (h : s.Kept) (hi : fd ∈ s.fdsOf i) (key : PeerKey) :
    fd ∉ s.idle key := by
  intro hfd
  cases h.place_unique (p := .inl key) (q := .inr i) hfd hi

theorem Kept.same (h : s.Kept) (hplaces : ∀ p, s'.places p = s.places p)
    (hopen : ∀ x, (s'.socket x).isSome = (s.socket x).isSome) : s'.Kept :=
  kept_iff.mpr ((kept_iff.mp h).same hplaces hopen)

theorem Kept.move (fd : ℕ) (h : s.Kept) (hpq : p ≠ q) (hp : (s.places p).Perm (fd :: s'.places p))
    (hq : (s'.places q).Perm (fd :: s.places q))
    (hothers : ∀ r, r ≠ p → r ≠ q → s'.places r = s.places r)
    (hopen : ∀ x, (s'.socket x).isSome = (s.socket x).isSome) : s'.Kept :=
  kept_iff.mpr ((kept_iff.mp h).move fd hpq hp hq hothers hopen)

theorem Kept.put (h : s.Kept) (hnew : s.socket fd = none) (hfd : (s'.socket fd).isSome)
    (hp : (s'.places p).Perm (fd :: s.places p))
    (hothers : ∀ r, r ≠ p → s'.places r = s.places r)
    (hopen : ∀ x, x ≠ fd → s'.socket x = s.socket x) : s'.Kept := by
  refine kept_iff.mpr ((kept_iff.mp h).put ?_ hfd hp hothers fun x hx ↦ ?_)
  · rw [hnew]
    rfl
  · rw [hopen x hx]

theorem Kept.take (h : s.Kept) (hp : (s.places p).Perm (fd :: s'.places p))
    (hothers : ∀ r, r ≠ p → s'.places r = s.places r) (hclosed : s'.socket fd = none)
    (hopen : ∀ x, x ≠ fd → s'.socket x = s.socket x) : s'.Kept := by
  refine kept_iff.mpr ((kept_iff.mp h).take hp hothers ?_ fun x hx ↦ ?_)
  · rw [hclosed]
    rfl
  · rw [hopen x hx]

end

/-! ## Steps of a call -/

theorem goTo_call_self (s : Proxies) (i : ℕ) (state : ProxyState) :
    (s.goTo i state).call i = some state :=
  Function.update_self ..

theorem goTo_call_of_ne {j : ℕ} {state : ProxyState} (h : j ≠ i) :
    (s.goTo i state).call j = s.call j :=
  Function.update_of_ne h ..

theorem places_goTo_self (s : Proxies) (i : ℕ) (state : ProxyState) :
    (s.goTo i state).places (.inr i) = state.fds :=
  fdsOf_eq (goTo_call_self ..)

theorem places_goTo_of_ne {p : PeerKey ⊕ ℕ} {state : ProxyState} (h : p ≠ .inr i) :
    (s.goTo i state).places p = s.places p := by
  cases p with
  | inl key => rfl
  | inr j => exact fdsOf_congr (goTo_call_of_ne fun hj ↦ h (congrArg Sum.inr hj))

/-- A call that keeps its socket leaves all sockets where they are. -/
theorem places_goTo_eq {state : ProxyState} (h : state.fds = s.fdsOf i) (p : PeerKey ⊕ ℕ) :
    (s.goTo i state).places p = s.places p := by
  by_cases hp : p = .inr i
  · rw [hp, places_goTo_self]
    exact h
  · exact places_goTo_of_ne hp

theorem goTo_socket (s : Proxies) (i : ℕ) (state : ProxyState) :
    (s.goTo i state).socket = s.socket :=
  rfl

theorem setSocket_self (s : Proxies) (fd : ℕ) (sock : Option Socket) :
    (s.setSocket fd sock).socket fd = sock :=
  Function.update_self ..

theorem setSocket_of_ne {x : ℕ} {sock : Option Socket} (h : x ≠ fd) :
    (s.setSocket fd sock).socket x = s.socket x :=
  Function.update_of_ne h ..

/-- A call fails before it has a connection. -/
theorem Inv.giveUp (h : s.Inv) (hnone : s.call i = none) (req : Request) :
    (s.giveUp i req).1.Inv := by
  refine h.touch (i := i) [] ⟨fun j hj ↦ goTo_call_of_ne hj, fun _ _ ↦ rfl, fun _ _ ↦ rfl,
    fun _ _ hfd _ ↦ hfd⟩ (List.forall_mem_nil _) h.sends ?_ (List.forall_mem_nil _)
    ⟨_, goTo_call_self .., trivial⟩
  have hbefore : s.fdsOf i = [] := by rw [fdsOf, hnone]
  exact h.kept.same (places_goTo_eq hbefore.symm) fun _ ↦ rfl

/-- Only the call has its socket. -/
theorem Inv.holder {state : ProxyState} (h : s.Inv) (hcall : s.call i = some state)
    (hfds : state.fds = [fd]) :
    (∀ x ∈ [fd], ∀ j, x ∈ s.fdsOf j → j = i) ∧ ∀ x ∈ [fd], ∀ key, x ∉ s.idle key := by
  have hmem : fd ∈ s.fdsOf i := by
    rw [fdsOf_eq hcall, hfds]
    exact List.mem_cons_self
  constructor
  · intro x hx j hj
    obtain rfl := List.mem_singleton.mp hx
    exact h.kept.holder hmem hj
  · intro x hx key
    obtain rfl := List.mem_singleton.mp hx
    exact h.kept.notMem_idle hmem key

/-- The socket of a call is closed, and the call returns. -/
theorem Inv.close {state : ProxyState} (h : s.Inv) (hcall : s.call i = some state)
    (hfds : state.fds = [fd]) (resp : Response) :
    ((s.setSocket fd none).goTo i (.returned resp)).Inv := by
  obtain ⟨hholder, hnotidle⟩ := h.holder hcall hfds
  refine h.touch (i := i) [fd] ⟨fun j hj ↦ goTo_call_of_ne hj, fun _ _ ↦ rfl,
    fun x hx ↦ setSocket_of_ne (List.ne_of_not_mem_cons hx), fun _ _ hx _ ↦ hx⟩ hholder h.sends ?_
    (fun x hx key hidle ↦ absurd hidle (hnotidle x hx key)) ⟨_, goTo_call_self .., trivial⟩
  refine h.kept.take (p := .inr i) ?_ (fun r hr ↦ places_goTo_of_ne hr) (setSocket_self ..)
    fun x hx ↦ setSocket_of_ne hx
  rw [places_goTo_self, places, fdsOf_eq hcall, hfds]
  exact .refl _

/-- A connection is opened. -/
theorem Inv.open (h : s.Inv) (hnone : s.call i = none) (hnew : s.socket fd = none)
    (hframed : req.Framed) :
    ((s.setSocket fd (some ⟨key, [], [], [], []⟩)).goTo i (.connecting key fd req)).Inv := by
  have hnowhere : ∀ p, fd ∉ s.places p := by
    intro p hfd
    have hopen := h.kept.isSome hfd
    rw [hnew] at hopen
    cases hopen
  refine h.touch (i := i) [fd] ⟨fun j hj ↦ goTo_call_of_ne hj, fun _ _ ↦ rfl,
    fun x hx ↦ ?_, fun _ _ hx _ ↦ hx⟩ ?_ h.sends ?_ ?_
    ⟨_, goTo_call_self .., hframed, h.fresh i hnone, _, setSocket_self .., rfl, rfl, rfl, rfl⟩
  · exact setSocket_of_ne (List.ne_of_not_mem_cons hx)
  · intro x hx j hj
    obtain rfl := List.mem_singleton.mp hx
    exact absurd hj (hnowhere (.inr j))
  · refine h.kept.put (p := .inr i) hnew (by rw [goTo_socket, setSocket_self]; rfl) ?_
      (fun r hr ↦ places_goTo_of_ne hr) fun x hx ↦ setSocket_of_ne hx
    rw [places_goTo_self, places, fdsOf, hnone]
    exact .refl _
  · intro x hx key' hidle
    obtain rfl := List.mem_singleton.mp hx
    exact absurd hidle (hnowhere (.inl key'))

/-- A call begins to send over a connection that nobody uses. -/
theorem Inv.send {s₁ : Proxies} {ev : List Event} (h : s.Inv)
    (hs : s₁.send i key fd req = some (s', ev)) (hframed : req.Framed)
    (hunused : s.Unused key fd) (hcall : s₁.call = s.call) (hsocket : s₁.socket = s.socket)
    (hsends : s₁.sends = s.sends) (hidle : ∀ key, ∀ x ∈ s₁.idle key, x ∈ s.idle key)
    (hkept : (s₁.goTo i (.sending key fd req)).Kept) : s'.Inv ∧ ev = [] := by
  obtain ⟨sends, hstart, heq⟩ := Option.map_eq_some_iff.mp hs
  cases heq
  refine ⟨?_, rfl⟩
  have hinv : sends.Inv := SendCalls.Inv.step (hsends ▸ h.sends) hstart
  obtain ⟨-, rfl⟩ := SendCalls.start_eq_some hstart
  obtain ⟨sock, hsock, hpeer, hquiet⟩ := hunused
  refine h.touch (i := i) [] ⟨fun j hj ↦ ?_, fun j hj ↦ ?_, fun x _ ↦ ?_,
    fun key x hx _ ↦ hidle key x hx⟩ (List.forall_mem_nil _) hinv hkept (List.forall_mem_nil _)
    ⟨_, goTo_call_self .., hframed, sock, _, ?_, hpeer, SendCalls.set_call_self, rfl,
      .writing _ rfl ?_ hquiet.fromPeer hquiet.answered⟩
  · exact (goTo_call_of_ne hj).trans (congrFun hcall j)
  · exact (SendCalls.set_call_of_ne hj).trans (by rw [hsends])
  · exact congrFun hsocket x
  · exact (congrFun hsocket fd).trans hsock
  · rw [hquiet.toPeer]
    rfl

/-- The connection has been opened. -/
theorem Inv.connected {ev : List Event} (h : s.Inv)
    (hcall : s.call i = some (.connecting key fd req))
    (hs : s.send i key fd req = some (s', ev)) : s'.Inv ∧ ev = [] := by
  obtain ⟨hframed, -, hunused⟩ := h.call i _ hcall
  refine h.send hs hframed hunused rfl rfl rfl (fun _ _ hx ↦ hx) ?_
  exact h.kept.same (places_goTo_eq (fdsOf_eq hcall).symm) fun _ ↦ rfl

/-- An idle connection is used again. -/
theorem Inv.reuse {rest : List ℕ} {ev : List Event} (h : s.Inv) (hnone : s.call i = none)
    (hframed : req.Framed) (hidle : s.idle key = fd :: rest)
    (hs : (s.setIdle key rest).send i key fd req = some (s', ev)) : s'.Inv ∧ ev = [] := by
  have hself : (s.setIdle key rest).idle key = rest := Function.update_self ..
  have hothers : ∀ {key'}, key' ≠ key → (s.setIdle key rest).idle key' = s.idle key' :=
    fun hne ↦ Function.update_of_ne hne ..
  have hunused : s.Unused key fd := h.idle key fd (by rw [hidle]; exact List.mem_cons_self)
  refine h.send hs hframed hunused rfl rfl rfl (fun key' x hx ↦ ?_) ?_
  · by_cases hkey : key' = key
    · rw [hkey, hself] at hx
      rw [hkey, hidle]
      exact List.mem_cons_of_mem _ hx
    · rwa [hothers hkey] at hx
  · refine h.kept.move (p := .inl key) (q := .inr i) fd (fun heq ↦ (by cases heq)) ?_ ?_ ?_
      fun _ ↦ rfl
    · have hafter : ((s.setIdle key rest).goTo i (.sending key fd req)).places (.inl key) = rest :=
        hself
      rw [hafter, places, hidle]
    · rw [places_goTo_self, places, fdsOf, hnone]
      exact .refl _
    · rintro (key' | j) hp hq
      · exact hothers fun hkey ↦ hp (congrArg Sum.inl hkey)
      · exact places_goTo_of_ne hq

/-! ## Reads and writes -/

section

variable {sock sock' : Socket} {sends : SendCalls} {c : SendCall}

theorem resume_of_waiting (hc : sends.call i = some c) (hstate : ∀ resp, c.state ≠ .done resp) :
    s.resume i key fd req sock sends = ((s.setSocket fd (some sock)).setSends sends, []) := by
  obtain ⟨state, received, failed⟩ := c
  rw [resume, hc]
  cases state with
  | done resp => exact absurd rfl (hstate resp)
  | _ => rfl

theorem resume_of_done {resp : Response} (hc : sends.call i = some c)
    (hstate : c.state = .done resp) :
    s.resume i key fd req sock sends =
      let s := (s.setSocket fd (some sock)).setSends sends
      if resp.status = .error then (s.goTo i (.closing fd req resp), [])
      else
        ((s.setIdle key (s.idle key ++ [fd])).goTo i (.returned resp),
          [.returned i req resp (some sock)]) := by
  obtain ⟨state, received, failed⟩ := c
  obtain rfl : state = .done resp := hstate
  rw [resume, hc]

/-- What a read or a write leaves alone. -/
theorem touches_resume {s₁ : Proxies}
    (hs₁ : s₁.socket = ((s.setSocket fd (some sock)).setSends sends).socket)
    (hsends : s₁.sends = sends) (hothers : ∀ j, j ≠ i → sends.call j = s.sends.call j)
    (hcall : ∀ j, j ≠ i → s₁.call j = s.call j)
    (hidle : ∀ key, ∀ x ∈ s₁.idle key, x ∉ [fd] → x ∈ s.idle key) : Touches s s₁ i [fd] := by
  refine ⟨hcall, fun j hj ↦ ?_, fun x hx ↦ ?_, hidle⟩
  · rw [hsends]
    exact hothers j hj
  · rw [hs₁]
    exact setSocket_of_ne (List.ne_of_not_mem_cons hx)

/-- The socket of a call stays open. -/
theorem isSome_setSocket (hsock : s.socket fd = some sock) (x : ℕ) :
    ((s.setSocket fd (some sock')).socket x).isSome = (s.socket x).isSome := by
  by_cases hx : x = fd
  · rw [hx, setSocket_self, hsock]
    rfl
  · rw [setSocket_of_ne hx]

/-- A call has failed, or was told so, and closes its connection. -/
theorem Inv.closing {resp : Response} (h : s.Inv)
    (hcall : s.call i = some (.sending key fd req)) (hsock : s.socket fd = some sock)
    (hsends : sends.Inv) (hothers : ∀ j, j ≠ i → sends.call j = s.sends.call j)
    (herror : resp.status = .error) :
    (((s.setSocket fd (some sock')).setSends sends).goTo i (.closing fd req resp)).Inv := by
  obtain ⟨hholder, hnotidle⟩ := h.holder hcall rfl
  refine h.touch _ (touches_resume rfl rfl hothers (fun j hj ↦ goTo_call_of_ne hj)
    (fun _ _ hx _ ↦ hx)) hholder hsends ?_ (fun x hx key hidle ↦ absurd hidle (hnotidle x hx key))
    ⟨_, goTo_call_self .., herror⟩
  exact h.kept.same (places_goTo_eq (fdsOf_eq hcall).symm) (isSome_setSocket hsock)

/-- A call has succeeded and puts its connection back. -/
theorem Inv.release {resp : Response} (h : s.Inv)
    (hcall : s.call i = some (.sending key fd req)) (hsock : s.socket fd = some sock)
    (hpeer : sock'.peer = key) (hquiet : sock'.Quiet) (hsends : sends.Inv)
    (hothers : ∀ j, j ≠ i → sends.call j = s.sends.call j) :
    ((((s.setSocket fd (some sock')).setSends sends).setIdle key (s.idle key ++ [fd])).goTo i
      (.returned resp)).Inv := by
  obtain ⟨hholder, hnotidle⟩ := h.holder hcall rfl
  have hself : (((s.setSocket fd (some sock')).setSends sends).setIdle key
      (s.idle key ++ [fd])).idle key = s.idle key ++ [fd] := Function.update_self ..
  have hidle : ∀ {key'}, key' ≠ key → (((s.setSocket fd (some sock')).setSends sends).setIdle key
      (s.idle key ++ [fd])).idle key' = s.idle key' := fun hne ↦ Function.update_of_ne hne ..
  refine h.touch _ (touches_resume rfl rfl hothers (fun j hj ↦ goTo_call_of_ne hj) ?_) hholder
    hsends ?_ ?_ ⟨_, goTo_call_self .., trivial⟩
  · intro key' x hx hne
    by_cases hkey : key' = key
    · subst hkey
      have hx' : x ∈ s.idle key' ++ [fd] := hself ▸ hx
      exact (List.mem_append.mp hx').resolve_right hne
    · exact hidle hkey ▸ hx
  · refine h.kept.move (p := .inr i) (q := .inl key) fd (fun heq ↦ (by cases heq)) ?_ ?_ ?_
      (isSome_setSocket hsock)
    · rw [places_goTo_self, places, fdsOf_eq hcall]
      exact .refl _
    · exact (List.Perm.of_eq hself).trans (List.perm_append_singleton fd (s.idle key))
    · rintro (key' | j) hp hq
      · exact hidle fun hkey ↦ hq (congrArg Sum.inl hkey)
      · exact places_goTo_of_ne hp
  · intro x hx key' hmem
    by_cases hkey : key' = key
    · subst hkey
      obtain rfl := List.mem_singleton.mp hx
      exact ⟨sock', setSocket_self .., hpeer, hquiet⟩
    · exact absurd (hidle hkey ▸ hmem) (hnotidle x hx key')

/-- A call goes on after a read or a write. -/
theorem Inv.resume (h : s.Inv) (hcall : s.call i = some (.sending key fd req))
    (hsock : s.socket fd = some sock) (houtcome : IoOutcome i req sock' c)
    (hpeer : sock'.peer = key) (hframed : req.Framed) (hsends : sends.Inv)
    (hothers : ∀ j, j ≠ i → sends.call j = s.sends.call j) (hc : sends.call i = some c) :
    (s.resume i key fd req sock' sends).1.Inv ∧
      ∀ e ∈ (s.resume i key fd req sock' sends).2, e.OK := by
  cases houtcome with
  | continues hfailed hstate hconversation =>
      obtain ⟨hholder, hnotidle⟩ := h.holder hcall rfl
      rw [resume_of_waiting hc hstate]
      refine ⟨h.touch _ (touches_resume rfl rfl hothers (fun _ _ ↦ rfl) (fun _ _ hx _ ↦ hx)) hholder
        hsends (h.kept.same (fun _ ↦ rfl) (isSome_setSocket hsock))
        (fun x hx key hidle ↦ absurd hidle (hnotidle x hx key)) ?_, List.forall_mem_nil _⟩
      exact ⟨_, hcall, hframed, sock', c, setSocket_self .., hpeer, hc, hfailed, hconversation⟩
  | fails hstate =>
      rw [resume_of_done hc hstate]
      exact ⟨h.closing hcall hsock hsends hothers rfl, List.forall_mem_nil _⟩
  | succeeds resp hstate hquiet hanswered =>
      rw [resume_of_done hc hstate]
      dsimp only
      split_ifs with herror
      · exact ⟨h.closing hcall hsock hsends hothers herror, List.forall_mem_nil _⟩
      · refine ⟨h.release hcall hsock hpeer hquiet hsends hothers, fun e he ↦ ?_⟩
        obtain rfl := List.mem_singleton.mp he
        exact fun _ ↦ ⟨sock', rfl, hanswered⟩

end

theorem io_eq_some {a : SendCalls.Action} {change : Socket → Socket} {ev : List Event}
    (h : s.io i a change = some (s', ev)) :
    ∃ key fd req sock sends, s.call i = some (.sending key fd req) ∧ s.socket fd = some sock ∧
      s.sends.step a = some sends ∧ (s', ev) = s.resume i key fd req (change sock) sends := by
  rw [io] at h
  split at h
  · split at h
    · exact ⟨_, _, _, _, _, ‹_›, ‹_›, ‹_›, (Option.some.inj h).symm⟩
    · cases h
  · cases h

/-- It is enough to say how the call comes out of a read or a write. -/
theorem Inv.io {a : SendCalls.Action} {change : Socket → Socket} {ev : List Event} (h : s.Inv)
    (hs : s.io i a change = some (s', ev)) (hpeer : ∀ sock, (change sock).peer = sock.peer)
    (hout : ∀ {key fd req sock c sends}, s.call i = some (.sending key fd req) →
      s.socket fd = some sock → s.sends.call i = some c → c.failed = false →
      Conversation i req sock c → s.sends.step a = some sends →
      ∃ r received failed, sends = s.sends.set i r received failed ∧
        IoOutcome i req (change sock) ⟨r.2, received, failed⟩) :
    s'.Inv ∧ ∀ e ∈ ev, e.OK := by
  obtain ⟨key, fd, req, sock, sends, hcall, hsock, hstep, heq⟩ := io_eq_some hs
  obtain ⟨hframed, sock', c, hsock', hkey, hc, hfailed, hconversation⟩ := h.call i _ hcall
  cases hsock.symm.trans hsock'
  have hinv : sends.Inv := h.sends.step hstep
  obtain ⟨r, received, failed, rfl, houtcome⟩ := hout hcall hsock hc hfailed hconversation hstep
  have hresume := h.resume hcall hsock houtcome ((hpeer sock).trans hkey) hframed hinv
    (fun j hj ↦ SendCalls.set_call_of_ne hj) SendCalls.set_call_self
  rw [← heq] at hresume
  exact hresume

theorem Inv.wrote {n : ℕ} {ev : List Event} (h : s.Inv)
    (hs : s.step (.wrote i n) = some (s', ev)) : s'.Inv ∧ ∀ e ∈ ev, e.OK := by
  refine h.io hs (fun _ ↦ rfl) fun _ _ hc hfailed hconversation hstep ↦ ?_
  obtain ⟨rest, received, failed, hsend, -, -, rfl⟩ := SendCalls.wrote_eq_some hstep
  cases hc.symm.trans hsend
  obtain rfl : failed = false := hfailed
  obtain ⟨-, hreceived, -⟩ := h.sends.call i _ hsend
  have hunwritten : s.unwritten i = rest := by rw [unwritten, hsend]
  rw [hunwritten]
  exact ⟨_, _, _, rfl, hconversation.wrote n hreceived⟩

theorem Inv.read {n : ℕ} {ev : List Event} (h : s.Inv)
    (hs : s.step (.read i n) = some (s', ev)) : s'.Inv ∧ ∀ e ∈ ev, e.OK := by
  refine h.io hs (fun _ ↦ rfl) ?_
  intro key fd req sock _ sends hcall hsock hc hfailed hconversation hstep
  have hreadable : s.readable i n = sock.fromPeer.take n := by
    simp only [readable, hcall, hsock]
  have hinv := h.sends.step hstep
  obtain ⟨c, hc', hpos, hle, rfl⟩ := SendCalls.read_eq_some hstep
  cases hc.symm.trans hc'
  rw [hreadable] at hpos hle hinv
  have hok := hinv.call i _ SendCalls.set_call_self
  rw [hfailed] at hok
  refine ⟨_, _, _, rfl, ?_⟩
  rw [hreadable, hfailed]
  exact hconversation.read hpos hle hok

theorem Inv.fail {ev : List Event} (h : s.Inv) (hs : s.step (.fail i) = some (s', ev)) :
    s'.Inv ∧ ∀ e ∈ ev, e.OK := by
  refine h.io hs (fun _ ↦ rfl) fun _ _ _ _ _ hstep ↦ ?_
  obtain ⟨⟨state, received, failed⟩, -, -, rfl⟩ := SendCalls.fail_eq_some hstep
  refine ⟨_, _, _, rfl, .fails ?_⟩
  cases state <;> rfl

/-- The peer answers a request. -/
theorem Inv.answer {hdr : ResponseHeader} {resp : Response} {sock : Socket} {req' : Request}
    (h : s.Inv) (hsock : s.socket fd = some sock) (hparse : parseRequest sock.toPeer = some req')
    (hannounces : hdr.Announces resp) :
    (s.setSocket fd (some
      { sock with
        toPeer := sock.toPeer.drop (kHeaderSize + req'.key.length + req'.value.length)
        fromPeer := sock.fromPeer ++ (hdr.bytes ++ resp.value)
        answers := sock.answers ++ [(req', resp)] })).Inv := by
  have hbusy : ∀ key, ¬ s.Unused key fd := by
    rintro key ⟨sock', hsock', -, hquiet⟩
    cases hsock.symm.trans hsock'
    rw [hquiet.toPeer, parseRequest_nil] at hparse
    cases hparse
  obtain ⟨owner, hcustody, howner⟩ := h.kept
  obtain ⟨place, hplace⟩ := Option.isSome_iff_exists.mp ((howner fd).trans (by rw [hsock]; rfl))
  have hmem := hcustody.mem_iff.mpr hplace
  cases place with
  | inl key => exact absurd (h.idle key fd hmem) (hbusy key)
  | inr i =>
      obtain ⟨state, hcall, hfds⟩ : ∃ state, s.call i = some state ∧ state.fds = [fd] := by
        rw [places, fdsOf] at hmem
        split at hmem
        · cases hmem
        · rename_i state hcall
          refine ⟨state, hcall, ?_⟩
          cases state <;> simp_all [ProxyState.fds]
      obtain ⟨hholder, hnotidle⟩ := h.holder hcall hfds
      refine h.touch (i := i) [fd] ⟨fun _ _ ↦ rfl, fun _ _ ↦ rfl, fun x hx ↦
        setSocket_of_ne (List.ne_of_not_mem_cons hx), fun _ _ hx _ ↦ hx⟩ hholder h.sends
        (h.kept.same (fun _ ↦ rfl) (isSome_setSocket hsock))
        (fun x hx key hidle ↦ absurd hidle (hnotidle x hx key)) ⟨state, hcall, ?_⟩
      have hok := h.call i state hcall
      cases state with
      | connecting key fd' req =>
          cases hfds
          exact absurd hok.2.2 (hbusy key)
      | sending key fd' req =>
          cases hfds
          obtain ⟨hframed, sock', c, hsock', hpeer, hc, hfailed, hconversation⟩ := hok
          cases hsock.symm.trans hsock'
          refine ⟨hframed, _, c, setSocket_self .., hpeer, hc, hfailed,
            hconversation.answer hframed hparse hannounces fun rest hstate ↦ ?_⟩
          have hwaits := h.sends.call i c hc
          rw [SendCall.OK, hstate] at hwaits
          exact hwaits.2.2
      | closing => exact hok
      | returned => trivial

/-! ## All steps -/

theorem start_eq_some {hframed : req.Framed} {owner : Option PeerKey} {opened : Option ℕ}
    {ev : List Event} (hs : s.step (.start i req hframed owner opened) = some (s', ev)) :
    s.call i = none ∧ ∃ rest, ev = .started i req owner :: rest ∧
      s.proxyToPeer i req owner opened = some (s', rest) := by
  obtain ⟨hnone, hstep⟩ := Option.ite_none_right_eq_some.mp hs
  obtain ⟨⟨s₁, rest⟩, hfirst, heq⟩ := Option.map_eq_some_iff.mp hstep
  cases heq
  exact ⟨hnone, rest, rfl, hfirst⟩

/-- A new call gives up, takes an idle connection, or opens one. -/
theorem proxyToPeer_eq_some {owner : Option PeerKey} {opened : Option ℕ} {ev : List Event}
    (hs : s.proxyToPeer i req owner opened = some (s', ev)) :
    (s', ev) = s.giveUp i req ∨ ∃ key, owner = some key ∧
      ((∃ fd fds, s.idle key = fd :: fds ∧
          (s.setIdle key fds).send i key fd req = some (s', ev)) ∨
        ∃ fd, s.socket fd = none ∧ ev = [] ∧
          s' = (s.setSocket fd (some ⟨key, [], [], [], []⟩)).goTo i (.connecting key fd req)) := by
  cases owner with
  | none => exact Or.inl (Option.some.inj hs).symm
  | some key =>
      rw [proxyToPeer, acquire.eq_def] at hs
      split at hs
      · exact Or.inr ⟨key, rfl, Or.inl ⟨_, _, ‹_›, hs⟩⟩
      · split at hs
        · exact Or.inl (Option.some.inj hs).symm
        · obtain ⟨hnew, hs⟩ := Option.ite_none_right_eq_some.mp hs
          cases hs
          exact Or.inr ⟨key, rfl, Or.inr ⟨_, hnew, rfl, rfl⟩⟩

/-- **What one step keeps.** -/
theorem Inv.step {a : Action} {ev : List Event} (h : s.Inv) (hs : s.step a = some (s', ev)) :
    s'.Inv ∧ ∀ e ∈ ev, e.OK := by
  -- a call that returns an error says nothing about its peer
  have herror : ∀ {i req resp sock}, resp.status = .error →
      ∀ e ∈ [Event.returned i req resp sock], e.OK := by
    intro i req resp sock hresp e he
    obtain rfl := List.mem_singleton.mp he
    exact fun hne ↦ absurd hresp hne
  cases a with
  | start i req hframed owner opened =>
      obtain ⟨hnone, rest, rfl, hfirst⟩ := start_eq_some hs
      obtain ⟨hinv, hrest⟩ : s'.Inv ∧ ∀ e ∈ rest, e.OK := by
        rcases proxyToPeer_eq_some hfirst with heq |
          ⟨key, -, ⟨fd, fds, hidle, hsend⟩ | ⟨fd, hnew, rfl, rfl⟩⟩
        · cases heq
          exact ⟨h.giveUp hnone req, herror rfl⟩
        · obtain ⟨hinv, rfl⟩ := h.reuse hnone hframed hidle hsend
          exact ⟨hinv, List.forall_mem_nil _⟩
        · exact ⟨h.open hnone hnew hframed, List.forall_mem_nil _⟩
      exact ⟨hinv, List.forall_mem_cons.mpr ⟨trivial, hrest⟩⟩
  | connected i ok =>
      rw [Proxies.step] at hs
      split at hs
      · rename_i key fd req hcall
        split_ifs at hs
        · obtain ⟨hinv, rfl⟩ := h.connected hcall hs
          exact ⟨hinv, List.forall_mem_nil _⟩
        · cases hs
          exact ⟨h.close hcall rfl errorResponse, herror rfl⟩
      · cases hs
  | wrote i n => exact h.wrote hs
  | read i n => exact h.read hs
  | fail i => exact h.fail hs
  | closed i =>
      rw [Proxies.step] at hs
      split at hs
      · rename_i fd req resp hcall
        cases hs
        exact ⟨h.close hcall rfl resp, herror (h.call i _ hcall)⟩
      · cases hs
  | answer fd hdr resp hannounces =>
      rw [Proxies.step] at hs
      split at hs
      · cases hs
      · split at hs
        · cases hs
        · cases hs
          exact ⟨h.answer ‹_› ‹_› hannounces, List.forall_mem_nil _⟩

theorem inv_init (h : machine.init s) : s.Inv := by
  obtain ⟨hsends, hsocket, hidle, hcall⟩ := h
  refine ⟨SendCalls.inv_init hsends, fun i _ ↦ hsends.1 i, ⟨fun _ ↦ none, ?_, fun fd ↦ ?_⟩,
    fun key fd hfd ↦ ?_, fun i state hstate ↦ ?_⟩
  · rintro (key | i) fd
    · rw [places, hidle key]
      rfl
    · rw [places, fdsOf, hcall i]
      rfl
  · rw [hsocket fd]
    rfl
  · rw [hidle key] at hfd
    cases hfd
  · cases (hcall i).symm.trans hstate

theorem run_inv {tr : List Event} (hrun : machine.Run s tr) : s.Inv ∧ ∀ e ∈ tr, e.OK := by
  refine hrun.invariant (I := fun s tr ↦ s.Inv ∧ ∀ e ∈ tr, e.OK) ?_ ?_
  · intro s hinit
    exact ⟨inv_init hinit, List.forall_mem_nil _⟩
  · rintro s tr a s' ev - ⟨h, hevents⟩ hstep
    obtain ⟨hinv, hev⟩ := h.step hstep
    exact ⟨hinv, List.forall_mem_append.mpr ⟨hevents, hev⟩⟩

/-! ## The history of a call -/

/-- What a step does to the calls, and what it says. -/
inductive Turn (s s' : Proxies) (ev : List Event) : Prop
  /-- A call begins. -/
  | begins (i : ℕ) (req : Request) (owner : Option PeerKey) (state : ProxyState)
      (rest : List Event) (hnone : s.call i = none)
      (hcall : s'.call = Function.update s.call i (some state))
      (hasks : ∀ x, state.asks = some x → owner.map (req, ·) = some x)
      (hev : ev = .started i req owner :: rest)
      (hrest : ∀ e ∈ rest, ∃ resp, e = .returned i req resp none)
  /-- A call goes on, and may return. -/
  | continues (i : ℕ) (state state' : ProxyState) (hstate : s.call i = some state)
      (hcall : s'.call = Function.update s.call i (some state'))
      (hasks : ∀ x, state'.asks = some x → state.asks = some x)
      (hev : ∀ e ∈ ev, ∃ req resp sock, e = .returned i req resp sock ∧
        ∀ sk, sock = some sk → state.asks = some (req, sk.peer))
  | stays (hcall : s'.call = s.call) (hev : ev = [])

theorem turn_resume {sock : Socket} {sends : SendCalls}
    (hcall : s.call i = some (.sending key fd req)) (hpeer : sock.peer = key) :
    Turn s (s.resume i key fd req sock sends).1 (s.resume i key fd req sock sends).2 := by
  rw [resume]
  split
  · split_ifs
    · exact .continues i _ _ hcall rfl (fun _ h ↦ (by cases h)) (List.forall_mem_nil _)
    · refine .continues i _ _ hcall rfl (fun _ h ↦ (by cases h)) fun e he ↦ ?_
      obtain rfl := List.mem_singleton.mp he
      refine ⟨_, _, _, rfl, fun sk hsk ↦ ?_⟩
      cases hsk
      rw [hpeer]
      rfl
  · exact .stays rfl rfl

theorem turn_io {a : SendCalls.Action} {change : Socket → Socket} {ev : List Event} (h : s.Inv)
    (hs : s.io i a change = some (s', ev)) (hpeer : ∀ sock, (change sock).peer = sock.peer) :
    Turn s s' ev := by
  obtain ⟨key, fd, req, sock, sends, hcall, hsock, -, heq⟩ := io_eq_some hs
  obtain ⟨-, sock', -, hsock', hkey, -⟩ := h.call i _ hcall
  cases hsock.symm.trans hsock'
  obtain ⟨rfl, rfl⟩ := Prod.mk.inj heq
  exact turn_resume hcall ((hpeer sock).trans hkey)

theorem turn_of_step {a : Action} {ev : List Event} (h : s.Inv) (hs : s.step a = some (s', ev)) :
    Turn s s' ev := by
  cases a with
  | start i req hframed owner opened =>
      obtain ⟨hnone, rest, rfl, hfirst⟩ := start_eq_some hs
      rcases proxyToPeer_eq_some hfirst with heq |
        ⟨key, rfl, ⟨fd, fds, -, hsend⟩ | ⟨fd, -, rfl, rfl⟩⟩
      · cases heq
        exact .begins i req owner _ _ hnone rfl (fun _ h ↦ (by cases h)) rfl fun e he ↦
          ⟨_, List.mem_singleton.mp he⟩
      · obtain ⟨sends, -, heq⟩ := Option.map_eq_some_iff.mp hsend
        cases heq
        exact .begins i req (some key) _ [] hnone rfl (fun _ h ↦ h) rfl (List.forall_mem_nil _)
      · exact .begins i req (some key) _ [] hnone rfl (fun _ h ↦ h) rfl (List.forall_mem_nil _)
  | connected i ok =>
      rw [Proxies.step] at hs
      split at hs
      · rename_i key fd req hcall
        split_ifs at hs
        · obtain ⟨sends, -, heq⟩ := Option.map_eq_some_iff.mp hs
          cases heq
          exact .continues i _ _ hcall rfl (fun _ h ↦ h) (List.forall_mem_nil _)
        · cases hs
          refine .continues i _ _ hcall rfl (fun _ h ↦ (by cases h)) fun e he ↦ ?_
          exact ⟨_, _, _, List.mem_singleton.mp he, fun _ h ↦ (by cases h)⟩
      · cases hs
  | wrote i n => exact turn_io h hs fun _ ↦ rfl
  | read i n => exact turn_io h hs fun _ ↦ rfl
  | fail i => exact turn_io h hs fun _ ↦ rfl
  | closed i =>
      rw [Proxies.step] at hs
      split at hs
      · rename_i fd req resp hcall
        cases hs
        refine .continues i _ _ hcall rfl (fun _ h ↦ (by cases h)) fun e he ↦ ?_
        exact ⟨_, _, _, List.mem_singleton.mp he, fun _ h ↦ (by cases h)⟩
      · cases hs
  | answer fd hdr resp hannounces =>
      rw [Proxies.step] at hs
      split at hs
      · cases hs
      · split at hs
        · cases hs
        · cases hs
          exact .stays rfl rfl

section

variable {ev : List Event} {j : ℕ} {owner : Option PeerKey}

theorem Turn.started (h : Turn s s' ev) (hmem : .started j req owner ∈ ev) :
    s.call j = none ∧ s'.call j ≠ none ∧
      ∀ req' owner', .started j req' owner' ∈ ev → req' = req ∧ owner' = owner := by
  cases h with
  | begins i req₀ owner₀ state rest hnone hcall hasks hev hrest =>
      have honly : ∀ {j req owner}, .started j req owner ∈ ev →
          j = i ∧ req = req₀ ∧ owner = owner₀ := by
        intro j req owner hmem
        rw [hev] at hmem
        rcases List.mem_cons.mp hmem with heq | hmem
        · cases heq
          exact ⟨rfl, rfl, rfl⟩
        · obtain ⟨resp, heq⟩ := hrest _ hmem
          cases heq
      obtain ⟨rfl, rfl, rfl⟩ := honly hmem
      refine ⟨hnone, ?_, fun req' owner' hmem' ↦ (honly hmem').2⟩
      rw [hcall, Function.update_self]
      exact Option.some_ne_none _
  | continues i state state' hstate hcall hasks hev =>
      obtain ⟨_, _, _, heq, -⟩ := hev _ hmem
      cases heq
  | stays hcall hev =>
      rw [hev] at hmem
      cases hmem

/-- A call is never forgotten. -/
theorem Turn.known (h : Turn s s' ev) (hj : s.call j ≠ none) : s'.call j ≠ none := by
  have hupdate : ∀ {i state}, s'.call = Function.update s.call i (some state) →
      s'.call j ≠ none := by
    intro i state hcall
    rw [hcall]
    by_cases hji : j = i
    · rw [hji, Function.update_self]
      exact Option.some_ne_none _
    · rwa [Function.update_of_ne hji]
  cases h with
  | begins i req owner state rest hnone hcall => exact hupdate hcall
  | continues i state state' hstate hcall => exact hupdate hcall
  | stays hcall => rwa [hcall]

/-- What a call asks it has asked before, or it has begun with it. -/
theorem Turn.asks {state' : ProxyState} (h : Turn s s' ev) (hj : s'.call j = some state')
    (hkey : state'.asks = some (req, key)) :
    .started j req (some key) ∈ ev ∨
      ∃ state, s.call j = some state ∧ state.asks = some (req, key) := by
  cases h with
  | begins i req' owner state rest hnone hcall hasks hev hrest =>
      rw [hcall] at hj
      by_cases hji : j = i
      · subst hji
        rw [Function.update_self, Option.some_inj] at hj
        subst hj
        obtain ⟨key', rfl, heq⟩ := Option.map_eq_some_iff.mp (hasks _ hkey)
        cases heq
        rw [hev]
        exact Or.inl List.mem_cons_self
      · rw [Function.update_of_ne hji] at hj
        exact Or.inr ⟨state', hj, hkey⟩
  | continues i state state₁ hstate hcall hasks hev =>
      rw [hcall] at hj
      by_cases hji : j = i
      · subst hji
        rw [Function.update_self, Option.some_inj] at hj
        subst hj
        exact Or.inr ⟨state, hstate, hasks _ hkey⟩
      · rw [Function.update_of_ne hji] at hj
        exact Or.inr ⟨state', hj, hkey⟩
  | stays hcall hev =>
      rw [hcall] at hj
      exact Or.inr ⟨state', hj, hkey⟩

/-- A call that puts a connection back has asked the peer that the connection is with. -/
theorem Turn.returned {resp : Response} {sk : Socket} (h : Turn s s' ev)
    (hmem : .returned j req resp (some sk) ∈ ev) :
    ∃ state, s.call j = some state ∧ state.asks = some (req, sk.peer) := by
  cases h with
  | begins i req' owner state rest hnone hcall hasks hev hrest =>
      rw [hev] at hmem
      rcases List.mem_cons.mp hmem with heq | hmem
      · cases heq
      · obtain ⟨resp', heq⟩ := hrest _ hmem
        cases heq
  | continues i state state' hstate hcall hasks hev =>
      obtain ⟨req', resp', sock, heq, hsock⟩ := hev _ hmem
      cases heq
      exact ⟨state, hstate, hsock sk rfl⟩
  | stays hcall hev =>
      rw [hev] at hmem
      cases hmem

end

/-- A call begins once, for one peer, and the connection that it puts back is with this peer. -/
structure Logged (s : Proxies) (tr : List Event) : Prop where
  asks : ∀ i state req key, s.call i = some state → state.asks = some (req, key) →
    .started i req (some key) ∈ tr
  known : ∀ i req owner, .started i req owner ∈ tr → s.call i ≠ none
  once : ∀ i req req' owner owner', .started i req owner ∈ tr → .started i req' owner' ∈ tr →
    req = req' ∧ owner = owner'
  returned : ∀ i req resp sk, .returned i req resp (some sk) ∈ tr →
    .started i req (some sk.peer) ∈ tr

theorem Logged.step {tr ev : List Event} (h : s.Logged tr) (hturn : Turn s s' ev) :
    s'.Logged (tr ++ ev) := by
  refine ⟨fun i state req key hi hkey ↦ ?_, fun i req owner hmem ↦ ?_,
    fun i req req' owner owner' hmem hmem' ↦ ?_, fun i req resp sk hmem ↦ ?_⟩
  · rcases hturn.asks hi hkey with hnew | ⟨state', hi', hkey'⟩
    · exact List.mem_append_right _ hnew
    · exact List.mem_append_left _ (h.asks i state' req key hi' hkey')
  · rcases List.mem_append.mp hmem with hold | hnew
    · exact hturn.known (h.known i req owner hold)
    · exact (hturn.started hnew).2.1
  · rcases List.mem_append.mp hmem with hold | hnew <;>
      rcases List.mem_append.mp hmem' with hold' | hnew'
    · exact h.once i _ _ _ _ hold hold'
    · exact absurd (hturn.started hnew').1 (h.known i _ _ hold)
    · exact absurd (hturn.started hnew).1 (h.known i _ _ hold')
    · exact (hturn.started hnew').2.2 _ _ hnew
  · refine List.mem_append_left _ ?_
    rcases List.mem_append.mp hmem with hold | hnew
    · exact h.returned i req resp sk hold
    · obtain ⟨state, hstate, hkey⟩ := hturn.returned hnew
      exact h.asks i state req sk.peer hstate hkey

theorem run_logged {tr : List Event} (hrun : machine.Run s tr) : s.Logged tr := by
  refine hrun.invariant (I := fun s tr ↦ s.Logged tr) (fun s hinit ↦ ?_) ?_
  · obtain ⟨-, -, -, hcall⟩ := hinit
    refine ⟨fun i state _ _ hstate ↦ ?_, fun _ _ _ h ↦ ?_, fun _ _ _ _ _ h ↦ ?_,
      fun _ _ _ _ h ↦ ?_⟩
    · cases (hcall i).symm.trans hstate
    all_goals cases h
  · intro s tr a s' ev hrun h hstep
    exact h.step (turn_of_step (run_inv hrun).1 hstep)

theorem holds_iff : s.Holds i fd ↔ fd ∈ s.places (.inr i) := by
  rw [Holds, places, fdsOf]
  cases s.call i <;> simp

/-- **Proxied requests do not receive each other's replies.**  Every open socket is with one
call, or once among the idle connections of its own peer.  On an idle connection nothing is on
its way, and every request has been answered.  And a call that returns with anything but an
error has been made once, for the peer that its socket is with, and returns the answer of this
peer to its own request. -/
theorem replies_not_crossed (s : Proxies) (tr : List Event) (hrun : machine.Run s tr) :
    (∀ fd sock, s.socket fd = some sock →
      (∃! i, s.Holds i fd) ∧ (∀ key, fd ∉ s.idle key) ∨
        (∀ i, ¬ s.Holds i fd) ∧ (s.idle sock.peer).count fd = 1 ∧
          ∀ key, key ≠ sock.peer → fd ∉ s.idle key) ∧
    (∀ fd, s.socket fd = none → (∀ i, ¬ s.Holds i fd) ∧ ∀ key, fd ∉ s.idle key) ∧
    (∀ key, ∀ fd ∈ s.idle key, ∃ sock, s.socket fd = some sock ∧ sock.peer = key ∧
      sock.toPeer = [] ∧ sock.fromPeer = [] ∧ sock.asked.length = sock.answers.length) ∧
    ∀ i req resp sock, .returned i req resp sock ∈ tr → resp.status ≠ .error →
      ∃ sk, sock = some sk ∧
        (∀ req' owner, .started i req' owner ∈ tr ↔ req' = req ∧ owner = some sk.peer) ∧
        ∃ k : ℕ, sk.asked[k]? = some i ∧ sk.answers[k]? = some (req, resp) := by
  obtain ⟨h, hevents⟩ := run_inv hrun
  have hlogged := run_logged hrun
  obtain ⟨owner, hcustody, howner⟩ := h.kept
  simp only [holds_iff]
  refine ⟨fun fd sock hsock ↦ ?_, fun fd hnone ↦ ⟨fun i hi ↦ ?_, fun key hkey ↦ ?_⟩,
    fun key fd hfd ↦ ?_, fun i req resp sock hmem hresp ↦ ?_⟩
  · obtain ⟨place, hplace⟩ := Option.isSome_iff_exists.mp ((howner fd).trans (by rw [hsock]; rfl))
    have hmem := hcustody.mem_iff.mpr hplace
    cases place with
    | inr i =>
        refine Or.inl ⟨⟨i, hmem, fun j hj ↦ ?_⟩, fun key hkey ↦ ?_⟩
        · exact Sum.inr.inj (hcustody.place_unique hj hmem)
        · cases hcustody.place_unique (p := .inl key) hkey hmem
    | inl key =>
        obtain ⟨sock', hsock', rfl, -⟩ := h.idle key fd hmem
        cases hsock.symm.trans hsock'
        refine Or.inr ⟨fun i hi ↦ ?_, hcustody.count_of_mem hmem, fun key hne hkey ↦ ?_⟩
        · cases hcustody.place_unique hi hmem
        · exact hne (Sum.inl.inj (hcustody.place_unique (p := .inl key) hkey hmem))
  · have hopen := h.kept.isSome hi
    rw [hnone] at hopen
    cases hopen
  · have hopen := h.kept.isSome (p := .inl key) hkey
    rw [hnone] at hopen
    cases hopen
  · obtain ⟨sock, hsock, hpeer, hquiet⟩ := h.idle key fd hfd
    exact ⟨sock, hsock, hpeer, hquiet.toPeer, hquiet.fromPeer, hquiet.answered⟩
  · obtain ⟨sk, rfl, hanswered⟩ := hevents _ hmem hresp
    have hstarted := hlogged.returned i req resp sk hmem
    refine ⟨sk, rfl, fun req' owner ↦ ⟨fun hmem' ↦ ?_, ?_⟩, hanswered⟩
    · exact hlogged.once i _ _ _ _ hmem' hstarted
    · rintro ⟨rfl, rfl⟩
      exact hstarted

/-- Two calls, the second over the connection of the first. -/
theorem replies_not_crossed_reused :
    ∃ s tr sk, machine.Run s tr ∧ .returned 1 ⟨.get, [108], []⟩ ⟨.notFound, []⟩ (some sk) ∈ tr ∧
      sk.peer = ⟨[97], 11211⟩ ∧ .started 1 ⟨.get, [108], []⟩ (some sk.peer) ∈ tr ∧
      ∃ k : ℕ, sk.asked[k]? = some 1 ∧
        sk.answers[k]? = some (⟨.get, [108], []⟩, ⟨.notFound, []⟩) := by
  let key : PeerKey := ⟨[97], 11211⟩
  let s₀ : Proxies := ⟨⟨none, fun _ ↦ none⟩, fun _ ↦ none, fun _ ↦ [], fun _ ↦ none⟩
  let actions : List Action :=
    [.start 0 ⟨.get, [107], []⟩ ⟨by decide, by decide⟩ (some key) (some 3), .connected 0 true,
      .wrote 0 9, .answer 3 ⟨.ok, 0, 0, 1⟩ ⟨.ok, [118]⟩ ⟨rfl, rfl⟩, .read 0 8, .read 0 1,
      .start 1 ⟨.get, [108], []⟩ ⟨by decide, by decide⟩ (some key) none, .wrote 1 9,
      .answer 3 ⟨.notFound, 0, 0, 0⟩ ⟨.notFound, []⟩ ⟨rfl, rfl⟩, .read 1 8]
  have hsome : (machine.exec s₀ actions).map (fun x ↦ x.2.filterMap fun
      | .returned i req resp sock => some (i, req, resp, sock.map Socket.peer)
      | .started _ _ _ => none) =
      some [(0, ⟨.get, [107], []⟩, ⟨.ok, [118]⟩, some key),
        (1, ⟨.get, [108], []⟩, ⟨.notFound, []⟩, some key)] := by
    decide +kernel
  obtain ⟨⟨s, tr⟩, hexec, htr⟩ := Option.map_eq_some_iff.mp hsome
  have hinit : machine.Run s₀ [] :=
    .init ⟨⟨fun _ ↦ rfl, Or.inl rfl⟩, fun _ ↦ rfl, fun _ ↦ rfl, fun _ ↦ rfl⟩
  have hrun : machine.Run s tr := hinit.exec hexec
  have hmem : (1, ⟨.get, [108], []⟩, ⟨.notFound, []⟩, some key) ∈ tr.filterMap fun
      | Event.returned i req resp sock => some (i, req, resp, sock.map Socket.peer)
      | .started _ _ _ => none := by
    rw [htr]
    simp
  obtain ⟨e, he, heq⟩ := List.mem_filterMap.mp hmem
  cases e with
  | started => cases heq
  | returned i req resp sock =>
      simp only [Option.some.injEq, Prod.mk.injEq] at heq
      obtain ⟨rfl, rfl, rfl, hpeer⟩ := heq
      obtain ⟨-, -, -, hanswers⟩ := replies_not_crossed s tr hrun
      obtain ⟨sk, rfl, hstarted, hk⟩ := hanswers 1 _ _ sock he (by decide)
      exact ⟨s, tr, sk, hrun, he, Option.some.inj hpeer, (hstarted _ _).mpr ⟨rfl, rfl⟩, hk⟩

end Proxies

end Pensieve
