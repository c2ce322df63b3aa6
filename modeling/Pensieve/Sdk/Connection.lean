import Mathlib.Data.List.Induction
import Pensieve.Foundation.Machine
import Pensieve.Protocol.Stream

/-!
# A connection of the SDK

`PensieveClient` makes its calls over a connection one after the other: `send_request`
writes a request, and `recv_response` waits for the response.  At the other end the loop of
`handle_connection` reads requests and writes responses.  The model has the bytes on their
way in either direction.  A party takes its step when the bytes for it have arrived, and the
order of the steps is free.

Nothing in a response says which request it belongs to.  The calls and the responses
correspond because the server finds the requests where the client has put them.
`paired_iff` says for which calls this is so.
-/

namespace Pensieve

open Foundation

/-- `PeerKey`, by which `PeerClient`, `ConnectionPool` and `CircuitBreaker` each know a peer. -/
structure PeerKey where
  host : Bytes
  port : UInt16
deriving DecidableEq, Repr

/-- The calls of `PensieveClient`. -/
inductive SdkCall where
  | get (key : Bytes)
  | put (key value : Bytes)
  | del (key : Bytes)
deriving DecidableEq, Repr

/-- The request that `execute` makes of a call. -/
def SdkCall.request : SdkCall → Request
  | .get key => ⟨.get, key, []⟩
  | .put key value => ⟨.put, key, value⟩
  | .del key => ⟨.del, key, []⟩

/-- `Coordinator::write_response`. -/
def writeResponse (resp : Response) : Bytes :=
  let hdr : ResponseHeader :=
    { status := resp.status, flags := 0, reserved := 0
      valueLen := UInt32.ofNat resp.value.length }
  if resp.value = [] then hdr.bytes else hdr.bytes ++ resp.value

/-- The value that a header announces. -/
def recvValue (hdr : ResponseHeader) : Reader Bytes :=
  if hdr.valueLen > 0 then Reader.take hdr.valueLen.toNat else pure []

/-- `ConnectionPool::recv_response`, once the bytes are there. -/
def recvResponse : Reader Response := do
  let header ← Reader.take kHeaderSize
  let hdr := ResponseHeader.ofBytes header
  let value ← recvValue hdr
  pure ⟨hdr.status, value⟩

/-- A response that `write_all` can write: its size is not narrowed.  Values come from slabs
of at most a megabyte. -/
abbrev Answer := { resp : Response // kHeaderSize + resp.value.length < 2 ^ 32 }

theorem writeResponse_eq (resp : Response) :
    writeResponse resp = serializeResponse resp := by
  rw [writeResponse, serializeResponse]
  split_ifs with h
  · rw [h, List.append_nil]
  · rfl

theorem recvResponse_writeResponse (resp : Answer) (rest : Bytes) :
    recvResponse (writeResponse resp.1 ++ rest) = some (resp.1, rest) := by
  obtain ⟨⟨status, value⟩, hlength⟩ := resp
  have hvalue : (UInt32.ofNat value.length).toNat = value.length := by
    rw [UInt32.toNat_ofNat', Nat.mod_eq_of_lt (by simp only at hlength; omega)]
  rw [writeResponse_eq, serializeResponse, List.append_assoc]
  simp only [recvResponse, Reader.bind_eq_some, Reader.pure_eq_some, Reader.take_eq_some]
  refine ⟨_, _, ⟨ResponseHeader.length_bytes _, rfl⟩, value, rest, ?_, rfl, rfl⟩
  rw [ResponseHeader.ofBytes_bytes, recvValue]
  split_ifs with hpos
  · exact Reader.take_eq_some.mpr ⟨hvalue.symm, rfl⟩
  · have hzero : value.length = 0 := by
      simpa [UInt32.lt_iff_toNat_lt, hvalue] using hpos
    rw [List.length_eq_zero_iff.mp hzero]
    rfl

/-! ## Receiving in pieces -/

/-- `recv`.  The result is positive, unless nothing was asked for or the stream has ended. -/
def recv (split : ℕ → ℕ) (c : Inbound) (len : ℕ) : Bytes × Inbound :=
  let n := min (max 1 (split c.reads)) (min len c.stream.length)
  (c.stream.take n, { stream := c.stream.drop n, reads := c.reads + 1 })

theorem recv_append (split : ℕ → ℕ) (c : Inbound) (len : ℕ) :
    (recv split c len).1 ++ (recv split c len).2.stream = c.stream :=
  List.take_append_drop _ _

theorem recv_length_le (split : ℕ → ℕ) (c : Inbound) (len : ℕ) :
    (recv split c len).1.length ≤ len := by
  simp only [recv, List.length_take]
  omega

theorem recv_length_eq_zero {split : ℕ → ℕ} {c : Inbound} {len : ℕ} :
    (recv split c len).1.length = 0 ↔ len = 0 ∨ c.stream.length = 0 := by
  simp only [recv, List.length_take]
  omega

/-- `recv_all`. -/
def recvAll (split : ℕ → ℕ) (c : Inbound) (len : ℕ) : Option Bytes × Inbound :=
  if len = 0 then (some [], c)
  else
    let chunk := recv split c len
    if chunk.1.length = 0 then (none, chunk.2)
    else
      match recvAll split chunk.2 (len - chunk.1.length) with
      | (some rest, c) => (some (chunk.1 ++ rest), c)
      | (none, c) => (none, c)
termination_by len
decreasing_by
  rename_i hdone hnone
  exact Nat.sub_lt (Nat.pos_of_ne_zero hdone) (Nat.pos_of_ne_zero hnone)

/-- The bytes are read, if there are enough of them. -/
theorem recvAll_of_le (split : ℕ → ℕ) {c : Inbound} {len : ℕ} (hlength : len ≤ c.stream.length) :
    (recvAll split c len).1 = some (c.stream.take len) ∧
      (recvAll split c len).2.stream = c.stream.drop len := by
  induction len using Nat.strong_induction_on generalizing c with
  | _ len ih =>
      rw [recvAll]
      dsimp only
      split_ifs with hzero hnone
      · rw [hzero]
        exact ⟨rfl, rfl⟩
      · have := recv_length_eq_zero.mp hnone
        omega
      · have happend := recv_append split c len
        have hle := recv_length_le split c len
        generalize recv split c len = chunk at *
        obtain ⟨chunk, c'⟩ := chunk
        simp only at happend hle hnone ⊢
        have hrest : c.stream.length = chunk.length + c'.stream.length := by
          rw [← happend, List.length_append]
        obtain ⟨hfst, hsnd⟩ := ih (len - chunk.length) (by omega) (c := c') (by omega)
        generalize recvAll split c' (len - chunk.length) = rest at *
        obtain ⟨bytes, c''⟩ := rest
        subst hfst
        have htake : c.stream.take len = chunk ++ c'.stream.take (len - chunk.length) := by
          rw [← happend, List.take_append, List.take_of_length_le hle]
        have hdrop : c.stream.drop len = c'.stream.drop (len - chunk.length) := by
          rw [← happend, List.drop_append, List.drop_of_length_le hle, List.nil_append]
        rw [htake, hdrop]
        exact ⟨rfl, hsnd⟩

/-- `ConnectionPool::recv_response`, on a stream that the kernel delivers in pieces of its
choice. -/
def recvResponseFrom (split : ℕ → ℕ) (c : Inbound) : Option Response × Inbound :=
  match recvAll split c kHeaderSize with
  | (none, c) => (none, c)
  | (some header, c) =>
    let hdr := ResponseHeader.ofBytes header
    if hdr.valueLen > 0 then
      match recvAll split c hdr.valueLen.toNat with
      | (none, c) => (none, c)
      | (some value, c) => (some ⟨hdr.status, value⟩, c)
    else (some ⟨hdr.status, []⟩, c)

/-- However it is delivered, a response is received if its bytes are there. -/
theorem recvResponseFrom_of_announces (split : ℕ → ℕ) {hdr : ResponseHeader} {resp : Response}
    {c : Inbound} {rest : Bytes} (h : hdr.Announces resp)
    (hstream : c.stream = hdr.bytes ++ resp.value ++ rest) :
    (recvResponseFrom split c).1 = some resp ∧ (recvResponseFrom split c).2.stream = rest := by
  rw [List.append_assoc] at hstream
  have hlength : c.stream.length = kHeaderSize + resp.value.length + rest.length := by
    simp [hstream, Nat.add_assoc]
  obtain ⟨hfst, hsnd⟩ := recvAll_of_le split (c := c) (show kHeaderSize ≤ _ by omega)
  rw [hstream, List.take_left' hdr.length_bytes] at hfst
  rw [hstream, List.drop_left' hdr.length_bytes] at hsnd
  simp only [recvResponseFrom]
  generalize recvAll split c kHeaderSize = header at *
  obtain ⟨bytes, c'⟩ := header
  subst hfst
  simp only [ResponseHeader.ofBytes_bytes] at hsnd ⊢
  split_ifs with hpos
  · obtain ⟨hfst', hsnd'⟩ := recvAll_of_le split (c := c')
      (show hdr.valueLen.toNat ≤ _ by rw [hsnd, h.valueLen]; simp)
    rw [hsnd, List.take_left' h.valueLen.symm] at hfst'
    rw [hsnd, List.drop_left' h.valueLen.symm] at hsnd'
    generalize recvAll split c' hdr.valueLen.toNat = payload at *
    obtain ⟨bytes, c''⟩ := payload
    subst hfst'
    exact ⟨by rw [h.status], hsnd'⟩
  · have hempty : resp.value = [] := by
      rw [← List.length_eq_zero_iff, ← h.valueLen]
      simpa [UInt32.lt_iff_toNat_lt] using hpos
    rw [hsnd, hempty, h.status, ← hempty]
    exact ⟨rfl, by rw [hempty]; rfl⟩

/-- The lengths of a request fit their fields, and their sum fits a read. -/
def Request.Framed (req : Request) : Prop :=
  req.key.length < 2 ^ 16 ∧ req.key.length + req.value.length < 2 ^ 32

theorem recvResponse_nil : recvResponse [] = none := rfl

/-! ## Steps -/

/-- The connection and the client's calls. -/
structure SdkConn where
  /-- Calls that have not been made. -/
  todo : List SdkCall
  /-- A call has been made and has not returned. -/
  waiting : Bool
  /-- Bytes from the client that the server has not read. -/
  toServer : Bytes
  /-- The number of the server's reads. -/
  reads : ℕ
  /-- Bytes from the server that the client has not read. -/
  toClient : Bytes

namespace SdkConn

/-- What happens next. -/
inductive Action where
  | /-- The client makes the next call and sends its request. -/
    call
  | /-- The server reads a request, in pieces as given, and writes the response. -/
    serve (split : ℕ → ℕ) (resp : Answer)
  | /-- The client reads a response and the call returns. -/
    receive

/-- What can be said of a run. -/
inductive Event where
  | called (req : Request)
  | served (req : Request) (resp : Response)
  | returned (resp : Response)

/-- One step. -/
def step (s : SdkConn) : Action → Option (SdkConn × List Event)
  | .call =>
    match s.waiting, s.todo with
    | false, c :: todo =>
      some ({ s with todo, waiting := true, toServer := s.toServer ++ serializeRequest c.request },
        [.called c.request])
    | _, _ => none
  | .serve split resp =>
    match readRequest split ⟨s.toServer, s.reads⟩ with
    | (none, _) => none
    | (some req, c) =>
      some ({ s with toServer := c.stream, reads := c.reads,
                     toClient := s.toClient ++ writeResponse resp.1 },
        [.served req resp.1])
  | .receive =>
    match s.waiting, recvResponse s.toClient with
    | true, some (resp, rest) =>
      some ({ s with waiting := false, toClient := rest }, [.returned resp])
    | _, _ => none

/-- A connection over which the calls are to be made. -/
def machine (calls : List SdkCall) : Machine SdkConn Action Event where
  init s := s = { todo := calls, waiting := false, toServer := [], reads := 0, toClient := [] }
  step := step

/-- The requests that have been sent. -/
def called (tr : List Event) : List Request :=
  tr.filterMap fun | .called req => some req | _ => none

/-- The requests that the server has decoded, and its responses. -/
def served (tr : List Event) : List (Request × Response) :=
  tr.filterMap fun | .served req resp => some (req, resp) | _ => none

/-- The responses that calls have returned with. -/
def returned (tr : List Event) : List Response :=
  tr.filterMap fun | .returned resp => some resp | _ => none

/-- The server has decoded the requests of the calls, the calls have returned with its
responses to them, and if nothing more can happen then all calls have returned. -/
structure Paired (calls : List SdkCall) (s : SdkConn) (tr : List Event) : Prop where
  decoded : (served tr).map Prod.fst <+: called tr
  received : returned tr <+: (served tr).map Prod.snd
  finished : (∀ a, s.step a = none) → (returned tr).length = calls.length

/-! ## What a step does -/

section

variable {calls : List SdkCall} {s s' : SdkConn} {tr ev : List Event}

theorem called_append (tr ev : List Event) : called (tr ++ ev) = called tr ++ called ev :=
  List.filterMap_append

theorem step_call_eq_some (h : s.step .call = some (s', ev)) :
    ∃ c todo, s.waiting = false ∧ s.todo = c :: todo ∧ ev = [.called c.request] ∧
      s' = { s with todo, waiting := true
                    toServer := s.toServer ++ serializeRequest c.request } := by
  rw [step] at h
  split at h
  · rename_i c todo hwaiting htodo
    cases h
    exact ⟨c, todo, hwaiting, htodo, rfl, rfl⟩
  · cases h

theorem step_call {c : SdkCall} {todo : List SdkCall} (hwaiting : s.waiting = false)
    (htodo : s.todo = c :: todo) :
    s.step .call = some
      ({ s with todo, waiting := true, toServer := s.toServer ++ serializeRequest c.request },
        [.called c.request]) := by
  rw [step, hwaiting, htodo]

theorem step_serve_eq_some {split : ℕ → ℕ} {resp : Answer}
    (h : s.step (.serve split resp) = some (s', ev)) :
    ∃ req, (readRequest split ⟨s.toServer, s.reads⟩).1 = some req ∧ ev = [.served req resp.1] ∧
      s' = { s with toServer := (readRequest split ⟨s.toServer, s.reads⟩).2.stream
                    reads := (readRequest split ⟨s.toServer, s.reads⟩).2.reads
                    toClient := s.toClient ++ writeResponse resp.1 } := by
  rw [step] at h
  generalize readRequest split ⟨s.toServer, s.reads⟩ = read at *
  obtain ⟨- | req, c⟩ := read
  · cases h
  · cases h
    exact ⟨req, rfl, rfl, rfl⟩

theorem step_serve {split : ℕ → ℕ} {req : Request} (resp : Answer)
    (h : (readRequest split ⟨s.toServer, s.reads⟩).1 = some req) :
    s.step (.serve split resp) = some
      ({ s with toServer := (readRequest split ⟨s.toServer, s.reads⟩).2.stream
                reads := (readRequest split ⟨s.toServer, s.reads⟩).2.reads
                toClient := s.toClient ++ writeResponse resp.1 }, [.served req resp.1]) := by
  rw [step]
  generalize readRequest split ⟨s.toServer, s.reads⟩ = read at *
  obtain ⟨bytes, c⟩ := read
  subst h
  rfl

theorem step_receive_eq_some (h : s.step .receive = some (s', ev)) :
    ∃ resp rest, s.waiting = true ∧ recvResponse s.toClient = some (resp, rest) ∧
      ev = [.returned resp] ∧ s' = { s with waiting := false, toClient := rest } := by
  rw [step] at h
  split at h
  · rename_i resp rest hwaiting hrecv
    cases h
    exact ⟨resp, rest, hwaiting, hrecv, rfl, rfl⟩
  · cases h

theorem step_receive {resp : Response} {rest : Bytes} (hwaiting : s.waiting = true)
    (hrecv : recvResponse s.toClient = some (resp, rest)) :
    s.step .receive = some ({ s with waiting := false, toClient := rest }, [.returned resp]) := by
  rw [step, hwaiting, hrecv]

/-! ## Calls that can be framed -/

/-- The server reads a request that can be framed as it was made. -/
theorem readRequest_serializeRequest {req : Request} (h : req.Framed) (split : ℕ → ℕ) (reads : ℕ)
    (rest : Bytes) :
    (readRequest split ⟨serializeRequest req ++ rest, reads⟩).1 = some req ∧
      (readRequest split ⟨serializeRequest req ++ rest, reads⟩).2.stream = rest := by
  obtain ⟨hkey, hsum⟩ := h
  obtain ⟨hdr, hannounces, heq⟩ := serializeRequest_eq hkey (by omega)
  refine readRequest_of_announces hannounces ?_ (by rw [heq])
  rwa [RequestHeader.payloadLen, hannounces.keyLen, hannounces.valueLen]

theorem readRequest_nil (split : ℕ → ℕ) (reads : ℕ) : (readRequest split ⟨[], reads⟩).1 = none :=
  readRequest_of_not split fun _ h ↦ nomatch h

/-- How far the current call has come, if there is one. -/
inductive Phase (s : SdkConn) (tr : List Event) : Prop
  | /-- All calls have returned. -/
    idle (waiting : s.waiting = false) (toServer : s.toServer = []) (toClient : s.toClient = [])
      (decoded : (served tr).map Prod.fst = called tr)
      (received : (served tr).map Prod.snd = returned tr)
  | /-- The request is on its way. -/
    sent (req : Request) (framed : req.Framed) (waiting : s.waiting = true)
      (toServer : s.toServer = serializeRequest req) (toClient : s.toClient = [])
      (decoded : (served tr).map Prod.fst ++ [req] = called tr)
      (received : (served tr).map Prod.snd = returned tr)
  | /-- The response is on its way. -/
    answered (resp : Answer) (waiting : s.waiting = true) (toServer : s.toServer = [])
      (toClient : s.toClient = writeResponse resp.1)
      (decoded : (served tr).map Prod.fst = called tr)
      (received : (served tr).map Prod.snd = returned tr ++ [resp.1])

/-- The calls that have been made and those that have not are the calls. -/
def Made (calls : List SdkCall) (s : SdkConn) (tr : List Event) : Prop :=
  ∃ past, calls = past ++ s.todo ∧ called tr = past.map SdkCall.request

theorem Made.step {a : Action} (h : Made calls s tr) (hs : s.step a = some (s', ev)) :
    Made calls s' (tr ++ ev) := by
  obtain ⟨past, hcalls, hcalled⟩ := h
  cases a with
  | call =>
      obtain ⟨c, todo, -, htodo, rfl, rfl⟩ := step_call_eq_some hs
      refine ⟨past ++ [c], by rw [hcalls, htodo, List.append_assoc]; rfl, ?_⟩
      rw [called_append, hcalled, List.map_append]
      rfl
  | serve split resp =>
      obtain ⟨req, -, rfl, rfl⟩ := step_serve_eq_some hs
      refine ⟨past, hcalls, ?_⟩
      rw [called_append, hcalled]
      exact List.append_nil _
  | receive =>
      obtain ⟨resp, rest, -, -, rfl, rfl⟩ := step_receive_eq_some hs
      refine ⟨past, hcalls, ?_⟩
      rw [called_append, hcalled]
      exact List.append_nil _

theorem Phase.step {a : Action} (h : Phase s tr) (hframed : ∀ c ∈ s.todo, c.request.Framed)
    (hs : s.step a = some (s', ev)) : Phase s' (tr ++ ev) := by
  cases a with
  | call =>
      obtain ⟨c, todo, hwaiting, htodo, rfl, rfl⟩ := step_call_eq_some hs
      cases h with
      | idle waiting toServer toClient decoded received =>
          refine .sent c.request (hframed c (by simp [htodo])) rfl (by simp [toServer]) toClient
            ?_ ?_
          · simpa [served, called] using decoded
          · simpa [served, returned] using received
      | sent req framed waiting => cases hwaiting.symm.trans waiting
      | answered resp waiting => cases hwaiting.symm.trans waiting
  | serve split resp =>
      obtain ⟨req, hread, rfl, rfl⟩ := step_serve_eq_some hs
      cases h with
      | idle waiting toServer =>
          rw [toServer, readRequest_nil] at hread
          cases hread
      | sent req' framed waiting toServer toClient decoded received =>
          have hreq := readRequest_serializeRequest framed split s.reads []
          rw [List.append_nil] at hreq
          rw [toServer] at hread
          cases hreq.1.symm.trans hread
          refine .answered resp waiting (by rw [toServer]; exact hreq.2) (by simp [toClient]) ?_ ?_
          · simpa [served, called] using decoded
          · simpa [served, returned] using received
      | answered resp waiting toServer =>
          rw [toServer, readRequest_nil] at hread
          cases hread
  | receive =>
      obtain ⟨resp, rest, hwaiting, hrecv, rfl, rfl⟩ := step_receive_eq_some hs
      cases h with
      | idle waiting => cases hwaiting.symm.trans waiting
      | sent req framed waiting toServer toClient =>
          rw [toClient, recvResponse_nil] at hrecv
          cases hrecv
      | answered resp' waiting toServer toClient decoded received =>
          have hresp := recvResponse_writeResponse resp' []
          rw [List.append_nil] at hresp
          rw [toClient] at hrecv
          cases hresp.symm.trans hrecv
          refine .idle rfl toServer rfl ?_ ?_
          · simpa [served, called] using decoded
          · simpa [served, returned] using received

/-- Along every run of calls that can be framed. -/
theorem phase_of_run (hframed : ∀ c ∈ calls, c.request.Framed) (h : (machine calls).Run s tr) :
    Made calls s tr ∧ Phase s tr := by
  refine h.invariant (I := fun s tr ↦ Made calls s tr ∧ Phase s tr) ?_ ?_
  · rintro _ rfl
    exact ⟨⟨[], rfl, rfl⟩, .idle rfl rfl rfl rfl rfl⟩
  · rintro s tr a s' ev - ⟨hmade, hphase⟩ hs
    refine ⟨hmade.step hs, hphase.step (fun c hc ↦ ?_) hs⟩
    obtain ⟨past, rfl, -⟩ := hmade
    exact hframed c (List.mem_append_right _ hc)

theorem paired_of_phase (hmade : Made calls s tr) (hphase : Phase s tr) : Paired calls s tr := by
  cases hphase with
  | idle waiting toServer toClient decoded received =>
      refine ⟨decoded ▸ List.prefix_rfl, received ▸ List.prefix_rfl, fun hstuck ↦ ?_⟩
      obtain ⟨past, rfl, hcalled⟩ := hmade
      -- a call that is left could be made
      have htodo : s.todo = [] := by
        rcases htodo : s.todo with - | ⟨c, todo⟩
        · rfl
        · cases (step_call waiting htodo).symm.trans (hstuck .call)
      have hlength := congrArg List.length (decoded.trans hcalled)
      rw [List.length_map, List.length_map] at hlength
      rw [← received, List.length_map, hlength, htodo, List.append_nil]
  | sent req framed waiting toServer toClient decoded received =>
      refine ⟨decoded ▸ List.prefix_append _ _, received ▸ List.prefix_rfl, fun hstuck ↦ ?_⟩
      have hread := (readRequest_serializeRequest framed id s.reads []).1
      rw [List.append_nil, ← toServer] at hread
      cases (step_serve ⟨⟨.ok, []⟩, by decide⟩ hread).symm.trans (hstuck _)
  | answered resp waiting toServer toClient decoded received =>
      refine ⟨decoded ▸ List.prefix_rfl, received ▸ List.prefix_append _ _, fun hstuck ↦ ?_⟩
      have hrecv := recvResponse_writeResponse resp []
      rw [List.append_nil, ← toClient] at hrecv
      cases (step_receive waiting hrecv).symm.trans (hstuck .receive)

/-! ## Calls that cannot be framed -/

theorem run_step {a : Action} (h : (machine calls).Run s tr) (hs : s.step a = some (s', ev)) :
    (machine calls).Run s' (tr ++ ev) :=
  .step h hs

/-- A response without a value. -/
def done : Answer := ⟨⟨.ok, []⟩, by decide⟩

/-- Calls that can be framed can be made one after the other. -/
theorem exists_run_idle {past : List SdkCall} (todo : List SdkCall)
    (hframed : ∀ c ∈ past, c.request.Framed) :
    ∃ reads tr, (machine (past ++ todo)).Run
        { todo, waiting := false, toServer := [], reads, toClient := [] } tr ∧
      (returned tr).length = past.length ∧
      (served tr).map Prod.fst = past.map SdkCall.request ∧
      called tr = past.map SdkCall.request := by
  induction past using List.reverseRecOn generalizing todo with
  | nil => exact ⟨0, [], .init rfl, rfl, rfl, rfl⟩
  | append_singleton past c ih =>
      obtain ⟨reads, tr, hrun, hlength, hserved, hcalled⟩ :=
        ih (c :: todo) fun d hd ↦ hframed d (List.mem_append_left _ hd)
      rw [List.append_cons] at hrun
      have hread := readRequest_serializeRequest (hframed c (by simp)) id reads []
      rw [List.append_nil] at hread
      have hrecv := recvResponse_writeResponse done []
      rw [List.append_nil] at hrecv
      have hsent := run_step hrun (step_call rfl rfl)
      have hanswered := run_step hsent (step_serve done hread.1)
      have hidle := run_step hanswered (step_receive rfl hrecv)
      simp only [List.nil_append, hread.2] at hidle
      refine ⟨_, _, hidle, ?_, ?_, ?_⟩
      · simpa [returned] using hlength
      · simpa [served] using hserved
      · simpa [called] using hcalled

/-- A request that is decoded as it was made can be framed. -/
theorem framed_of_readRequest {req : Request} {split : ℕ → ℕ} {c : Inbound}
    (h : (readRequest split c).1 = some req) : req.Framed := by
  obtain ⟨hparse, hsum⟩ := readRequest_eq_some.mp h
  obtain ⟨hdr, hannounces, -⟩ := parseRequest_eq_some.mp hparse
  exact ⟨hannounces.keyLen ▸ hdr.keyLen.toNat_lt, hsum⟩

/-- If all goes well up to a call and also afterwards, then the call can be framed. -/
theorem framed_of_paired {past todo : List SdkCall} {c : SdkCall}
    (hpast : ∀ d ∈ past, d.request.Framed)
    (hpaired : ∀ s tr, (machine (past ++ c :: todo)).Run s tr →
      Paired (past ++ c :: todo) s tr) : c.request.Framed := by
  obtain ⟨reads, tr, hrun, hlength, hserved, hcalled⟩ := exists_run_idle (c :: todo) hpast
  have hsent := run_step hrun (step_call rfl rfl)
  by_cases hread : ∃ split req, (readRequest split
      ⟨[] ++ serializeRequest c.request, reads⟩).1 = some req
  · -- the server decodes some request, which has to be this one
    obtain ⟨split, req, hread⟩ := hread
    have hdecoded := (hpaired _ _ (run_step hsent (step_serve done hread))).decoded
    have hserved' : (served (tr ++ [.called c.request] ++ [.served req done.1])).map Prod.fst =
        past.map SdkCall.request ++ [req] := by
      simpa [served] using hserved
    have hcalled' : called (tr ++ [.called c.request] ++ [.served req done.1]) =
        past.map SdkCall.request ++ [c.request] := by
      simpa [called] using hcalled
    rw [hserved', hcalled', List.prefix_append_right_inj] at hdecoded
    have heq : req = c.request := by simpa using hdecoded
    exact heq ▸ framed_of_readRequest hread
  · -- the server does nothing, and the call does not return
    exfalso
    have hstuck := (hpaired _ _ hsent).finished fun a ↦ ?_
    · simp [returned] at hstuck hlength
      omega
    · refine Option.eq_none_iff_forall_ne_some.mpr fun ⟨s', ev⟩ hs ↦ ?_
      cases a with
      | call =>
          obtain ⟨_, _, hwaiting, -⟩ := step_call_eq_some hs
          cases hwaiting
      | serve split resp =>
          obtain ⟨req, hreq, -⟩ := step_serve_eq_some hs
          exact hread ⟨split, req, hreq⟩
      | receive =>
          obtain ⟨resp, rest, -, hrecv, -⟩ := step_receive_eq_some hs
          cases recvResponse_nil.symm.trans hrecv

end

/-- **Responses are paired with their calls**, however the steps of the client and the
server are interleaved and the requests are cut, exactly if every key has less than `2 ^ 16`
bytes and key and value together have less than `2 ^ 32`. -/
theorem paired_iff (calls : List SdkCall) :
    (∀ s tr, (machine calls).Run s tr → Paired calls s tr) ↔
      ∀ c ∈ calls, c.request.key.length < 2 ^ 16 ∧
        c.request.key.length + c.request.value.length < 2 ^ 32 := by
  constructor
  · intro hpaired
    have hframed : ∀ past todo, calls = past ++ todo → ∀ c ∈ past, c.request.Framed := by
      intro past
      induction past using List.reverseRecOn with
      | nil => exact fun _ _ _ hc ↦ nomatch hc
      | append_singleton past c ih =>
          rintro todo rfl
          rw [List.append_assoc] at hpaired ih
          have hpast := ih (c :: todo) rfl
          refine List.forall_mem_append.mpr ⟨hpast, ?_⟩
          rw [List.forall_mem_singleton]
          exact framed_of_paired hpast hpaired
    exact hframed calls [] (List.append_nil calls).symm
  · intro hframed s tr hrun
    obtain ⟨hmade, hphase⟩ := phase_of_run hframed hrun
    exact paired_of_phase hmade hphase

/-- A key of `2 ^ 16` bytes, which begin like a request to GET the key `s`. -/
def longKey : Bytes := [1, 0, 1, 0, 0, 0, 0, 0, 115] ++ List.replicate 65527 0

/-- The length of a key of `2 ^ 16` bytes is announced as zero.  The server answers a
request for the empty key and then takes the key for requests.  The next call returns with
the value of a key that nobody has asked for. -/
theorem misframed :
    longKey.length = 2 ^ 16 ∧
    ∃ s tr, (machine [.get longKey, .get [120]]).Run s tr ∧
      called tr = [⟨.get, longKey, []⟩, ⟨.get, [120], []⟩] ∧
      served tr = [(⟨.get, [], []⟩, ⟨.notFound, []⟩), (⟨.get, [115], []⟩, ⟨.ok, [42]⟩)] ∧
      returned tr = [⟨.notFound, []⟩, ⟨.ok, [42]⟩] := by
  have hlength : longKey.length = 2 ^ 16 := by
    rw [longKey, List.length_append, List.length_replicate]
    rfl
  have hempty : RequestHeader.Announces ⟨.get, 0, UInt16.ofNat longKey.length, 0⟩
      ⟨.get, [], []⟩ := by
    rw [hlength]
    exact ⟨rfl, rfl, rfl⟩
  have hone : RequestHeader.Announces ⟨.get, 0, 1, 0⟩ ⟨.get, [115], []⟩ := ⟨rfl, rfl, rfl⟩
  have hread : ∀ reads, (readRequest id ⟨serializeRequest ⟨.get, longKey, []⟩, reads⟩).1 =
      some ⟨.get, [], []⟩ ∧
      (readRequest id ⟨serializeRequest ⟨.get, longKey, []⟩, reads⟩).2.stream = longKey := by
    refine fun reads ↦ readRequest_of_announces hempty ?_ ?_
    · rw [hlength]
      decide
    · simp [serializeRequest]
  have hread' : ∀ reads, (readRequest id ⟨longKey, reads⟩).1 = some ⟨.get, [115], []⟩ ∧
      (readRequest id ⟨longKey, reads⟩).2.stream = List.replicate 65527 0 :=
    fun reads ↦ readRequest_of_announces hone (by decide) rfl
  have hnone : recvResponse (writeResponse ⟨.notFound, []⟩ ++ writeResponse ⟨.ok, [42]⟩) =
      some (⟨.notFound, []⟩, writeResponse ⟨.ok, [42]⟩) :=
    recvResponse_writeResponse ⟨⟨.notFound, []⟩, by decide⟩ _
  have hvalue : recvResponse (writeResponse ⟨.ok, [42]⟩) = some (⟨.ok, [42]⟩, []) := by
    have h := recvResponse_writeResponse ⟨⟨.ok, [42]⟩, by decide⟩ []
    rwa [List.append_nil] at h
  have hstart : (machine [.get longKey, .get [120]]).Run _ [] := .init rfl
  have hsent := run_step hstart (step_call rfl rfl)
  have hserved := run_step hsent
    (step_serve ⟨⟨.notFound, []⟩, by decide⟩ (hread 0).1)
  simp only [List.nil_append, SdkCall.request, (hread 0).2] at hserved
  have hserved' := run_step hserved (step_serve ⟨⟨.ok, [42]⟩, by decide⟩ (hread' _).1)
  have hreturned := run_step hserved' (step_receive rfl hnone)
  have hsent' := run_step hreturned (step_call rfl rfl)
  have hreturned' := run_step hsent' (step_receive rfl hvalue)
  exact ⟨hlength, _, _, hreturned', rfl, rfl, rfl⟩

end SdkConn

end Pensieve
