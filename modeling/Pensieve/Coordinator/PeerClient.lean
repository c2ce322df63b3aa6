import Pensieve.Foundation.Custody
import Pensieve.Io.BufferPool
import Pensieve.Sdk.Connection

/-!
# Requests to peers

`PeerClient::send_request` of `src/coordinator/peer_client.cpp`.  Any number of calls are
under way on one thread and share the pool of buffers.  A call is suspended where it waits for
a read or a write, and the kernel decides which of them goes on and how many bytes it has
transferred.  What a call has received and whether an operation of it has failed is kept for
the statements; no step looks at it.

The reply to a request is written by `serialize_response` or `write_response`, and read by
`parse_response`, `recv_response` or `send_request`, the latter into a buffer of the pool if
there is one that is large enough.  `responses_agree` says that they all agree, and that no
buffer is lost or used twice.
-/

namespace Pensieve

open Foundation

/-- `Response{Status::Error, {}}`. -/
def errorResponse : Response := ⟨.error, []⟩

/-- Where a call of `send_request` is suspended, or how it has ended. -/
inductive SendState where
  /-- In `write_all`, with what is left to write. -/
  | writing (rest : Bytes)
  /-- In the `read_exact` of the header, with what has been read. -/
  | header (got : Bytes)
  /-- In the `read_exact` into a buffer of the pool. -/
  | pooled (hdr : ResponseHeader) (handle : BufferHandle) (filled : ℕ)
  /-- In the `read_exact` into a string of its own. -/
  | plain (hdr : ResponseHeader) (got : Bytes)
  | done (resp : Response)

namespace SendState

/-- What is left of the `read_exact` in which the call is. -/
def toRead : SendState → ℕ
  | .header got => kHeaderSize - got.length
  | .pooled hdr _ filled => hdr.valueLen.toNat - filled
  | .plain hdr got => hdr.valueLen.toNat - got.length
  | _ => 0

/-- The buffer that the call has acquired and not released. -/
def held : SendState → List UInt16
  | .pooled _ handle _ => [handle.index]
  | _ => []

variable (pool : Option BufferPool)

/-- Once the header has been read. -/
def readValue (hdr : ResponseHeader) : Option BufferPool × SendState :=
  if hdr.valueLen > 0 then
    match pool with
    | none => (none, .plain hdr [])
    | some pool =>
      match pool.acquire with
      | (none, pool) => (some pool, .plain hdr [])
      | (some handle, pool) =>
        if handle.size ≥ hdr.valueLen.toNat then (some pool, .pooled hdr handle 0)
        else (some (pool.release handle.index), .plain hdr [])
  else (pool, .done ⟨hdr.status, []⟩)

/-- The kernel has taken `n` bytes of the request. -/
def wrote (rest : Bytes) (n : ℕ) : SendState :=
  if rest.length ≤ n then .header [] else .writing (rest.drop n)

/-- A read has returned bytes. -/
def received : SendState → Bytes → Option BufferPool × SendState
  | .header got, chunk =>
    let got := got ++ chunk
    if got.length < kHeaderSize then (pool, .header got)
    else readValue pool (ResponseHeader.ofBytes got)
  | .pooled hdr handle filled, chunk =>
    let pool := pool.map fun pool ↦
      { pool with region := pool.region.write (handle.data + filled) chunk }
    if filled + chunk.length < hdr.valueLen.toNat then
      (pool, .pooled hdr handle (filled + chunk.length))
    else
      let value := (pool.map fun pool ↦ pool.region.read handle.data hdr.valueLen.toNat).getD []
      (pool.map (·.release handle.index), .done ⟨hdr.status, value⟩)
  | .plain hdr got, chunk =>
    let got := got ++ chunk
    if got.length < hdr.valueLen.toNat then (pool, .plain hdr got)
    else (pool, .done ⟨hdr.status, got⟩)
  | s, _ => (pool, s)

/-- A read or a write has returned zero or an error. -/
def failed : SendState → Option BufferPool × SendState
  | .pooled _ handle _ => (pool.map (·.release handle.index), .done errorResponse)
  | _ => (pool, .done errorResponse)

end SendState

/-- A call, and what has come of it. -/
structure SendCall where
  state : SendState
  received : Bytes
  failed : Bool

/-- The calls that have been made, and the pool that they share, if there is one. -/
structure SendCalls where
  pool : Option BufferPool
  call : ℕ → Option SendCall

/-- The most that the kernel transfers at once. -/
def transferLimit (len : ℕ) : ℕ := min (len % 2 ^ 32) (2 ^ 31 - 1)

namespace SendCalls

/-- What happens next. -/
inductive Action where
  | start (i : ℕ) (req : Request)
  /-- An `async_write` returns `n`. -/
  | wrote (i n : ℕ)
  /-- An `async_read` returns some bytes. -/
  | read (i : ℕ) (chunk : Bytes)
  /-- Either of them returns zero or an error. -/
  | fail (i : ℕ)

/-- A call goes on. -/
def set (s : SendCalls) (i : ℕ) (r : Option BufferPool × SendState) (received : Bytes)
    (failed : Bool) : SendCalls :=
  ⟨r.1, Function.update s.call i (some ⟨r.2, received, failed⟩)⟩

/-- One step. -/
def step (s : SendCalls) : Action → Option SendCalls
  | .start i req =>
    match s.call i with
    | none => some (s.set i (s.pool, .writing (serializeRequest req)) [] false)
    | some _ => none
  | .wrote i n =>
    match s.call i with
    | some ⟨.writing rest, received, failed⟩ =>
      if 0 < n ∧ n ≤ transferLimit rest.length then
        some (s.set i (s.pool, .wrote rest n) received failed)
      else none
    | _ => none
  | .read i chunk =>
    match s.call i with
    | some ⟨state, received, failed⟩ =>
      if 0 < chunk.length ∧ chunk.length ≤ transferLimit state.toRead then
        some (s.set i (state.received s.pool chunk) (received ++ chunk) failed)
      else none
    | none => none
  | .fail i =>
    match s.call i with
    | some ⟨.done _, _, _⟩ => none
    | some ⟨state, received, _⟩ => some (s.set i (state.failed s.pool) received true)
    | none => none

/-- Calls of a client without a pool, or with a new one. -/
def machine : Machine SendCalls Action Empty where
  init s := (∀ i, s.call i = none) ∧
    (s.pool = none ∨ ∃ size count, s.pool = BufferPool.create size count)
  step s a := (s.step a).map fun s ↦ (s, [])

/-- The call `i` holds the buffer. -/
def Holds (s : SendCalls) (i : ℕ) (idx : UInt16) : Prop :=
  ∃ c, s.call i = some c ∧ idx ∈ c.state.held

end SendCalls

/-! ## What a call does to the pool -/

/-- The free list, if there is a pool. -/
def freeOf : Option BufferPool → List UInt16
  | none => []
  | some pool => pool.freeList

/-- The pool is the same but for its free list and the buffers in `held`. -/
inductive Frames (held : List UInt16) : Option BufferPool → Option BufferPool → Prop
  | absent : Frames held none none
  | present {pool pool' : BufferPool} (size : pool'.bufferSize = pool.bufferSize)
      (count : pool'.bufferCount = pool.bufferCount)
      (region : ∀ idx : UInt16, idx ∉ held → ∀ n ≤ pool.bufferSize,
        pool'.region.read (idx.toNat * pool.bufferSize) n =
          pool.region.read (idx.toNat * pool.bufferSize) n) :
      Frames held (some pool) (some pool')

/-- A call that holds `held` goes on: it holds on to its buffer, acquires one, or ends and
releases it. -/
structure Moves (pool : Option BufferPool) (held : List UInt16)
    (r : Option BufferPool × SendState) : Prop where
  frames : Frames held pool r.1
  exchange : freeOf r.1 = freeOf pool ∧ r.2.held = held ∨
    (∃ idx, freeOf pool = idx :: freeOf r.1 ∧ held = [] ∧ r.2.held = [idx]) ∨
    ∃ idx resp, held = [idx] ∧ r.2 = .done resp ∧ freeOf r.1 = idx :: freeOf pool

/-- What a call has received is where it says. -/
def SendCall.OK (pool : Option BufferPool) (c : SendCall) : Prop :=
  match c.state with
  | .writing rest => c.failed = false ∧ c.received = [] ∧ rest ≠ []
  | .header got => c.failed = false ∧ c.received = got ∧ got.length < kHeaderSize
  | .pooled hdr handle filled => c.failed = false ∧ filled < hdr.valueLen.toNat ∧
      ∃ p, pool = some p ∧ handle.data = handle.index.toNat * p.bufferSize ∧
        hdr.valueLen.toNat ≤ p.bufferSize ∧
        c.received = hdr.bytes ++ p.region.read handle.data filled
  | .plain hdr got => c.failed = false ∧ got.length < hdr.valueLen.toNat ∧
      c.received = hdr.bytes ++ got
  | .done resp => if c.failed then resp = errorResponse else
      ∃ hdr : ResponseHeader, hdr.Announces resp ∧ c.received = hdr.bytes ++ resp.value

section

variable {pool pool' : Option BufferPool} {held : List UInt16} {hdr : ResponseHeader}

theorem Frames.refl (held : List UInt16) (pool : Option BufferPool) : Frames held pool pool := by
  cases pool with
  | none => exact .absent
  | some pool => exact .present rfl rfl fun _ _ _ _ ↦ rfl

/-- A call is not disturbed by what others do with their buffers. -/
theorem SendCall.OK.frame {c : SendCall} (h : c.OK pool) (hframes : Frames held pool pool')
    (hheld : ∀ idx ∈ c.state.held, idx ∉ held) : c.OK pool' := by
  rw [OK] at h ⊢
  split at h
  · exact h
  · exact h
  · rename_i hdr handle filled hstate
    obtain ⟨hfailed, hfilled, p, rfl, hdata, hsize, hreceived⟩ := h
    cases hframes with
    | present size count region =>
      refine ⟨hfailed, hfilled, _, rfl, by rw [size]; exact hdata, by rw [size]; exact hsize, ?_⟩
      rw [hreceived, hdata, region _ (hheld _ (by rw [hstate]; exact List.mem_cons_self)) _
        (hfilled.le.trans hsize)]
  · exact h
  · exact h

/-- A call that fails releases its buffer. -/
theorem SendState.failed_moves (state : SendState)
    (h : ∀ hdr handle filled, state = .pooled hdr handle filled → pool ≠ none) :
    Moves pool state.held (state.failed pool) := by
  cases state with
  | pooled hdr handle filled =>
      cases pool with
      | none => exact absurd rfl (h hdr handle filled rfl)
      | some pool =>
          exact ⟨.present rfl rfl fun _ _ _ _ ↦ rfl,
            Or.inr (Or.inr ⟨handle.index, _, rfl, rfl, rfl⟩)⟩
  | _ => exact ⟨.refl _ _, Or.inl ⟨rfl, rfl⟩⟩

theorem SendState.readValue_moves (pool : Option BufferPool) (hdr : ResponseHeader) :
    Moves pool [] (readValue pool hdr) := by
  rw [readValue.eq_def]
  split_ifs with hpos
  · cases pool with
    | none => exact ⟨.refl _ _, Or.inl ⟨rfl, rfl⟩⟩
    | some pool =>
        obtain ⟨size, count, region, freeList⟩ := pool
        cases freeList with
        | nil => exact ⟨.refl _ _, Or.inl ⟨rfl, rfl⟩⟩
        | cons idx rest =>
            simp only [BufferPool.acquire]
            split_ifs
            · exact ⟨.present rfl rfl fun _ _ _ _ ↦ rfl, Or.inr (Or.inl ⟨idx, rfl, rfl, rfl⟩)⟩
            · exact ⟨.present rfl rfl fun _ _ _ _ ↦ rfl, Or.inl ⟨rfl, rfl⟩⟩
  · exact ⟨.refl _ _, Or.inl ⟨rfl, rfl⟩⟩

theorem SendState.readValue_ok (pool : Option BufferPool) (hdr : ResponseHeader) :
    SendCall.OK (readValue pool hdr).1 ⟨(readValue pool hdr).2, hdr.bytes, false⟩ := by
  rw [readValue.eq_def]
  split_ifs with hpos
  · have hlen : 0 < hdr.valueLen.toNat := UInt32.lt_iff_toNat_lt.mp hpos
    cases pool with
    | none => exact ⟨rfl, hlen, (List.append_nil _).symm⟩
    | some pool =>
        obtain ⟨size, count, region, freeList⟩ := pool
        cases freeList with
        | nil => exact ⟨rfl, hlen, (List.append_nil _).symm⟩
        | cons idx rest =>
            simp only [BufferPool.acquire]
            split_ifs with hsize
            · exact ⟨rfl, hlen, _, rfl, rfl, hsize, (List.append_nil _).symm⟩
            · exact ⟨rfl, hlen, (List.append_nil _).symm⟩
  · refine ⟨hdr, ⟨rfl, ?_⟩, (List.append_nil _).symm⟩
    simpa [UInt32.lt_iff_toNat_lt] using hpos

/-- A read into a buffer leaves the other buffers alone. -/
theorem Frames.write {p : BufferPool} {handle : BufferHandle} {filled : ℕ} {chunk : Bytes}
    (hdata : handle.data = handle.index.toNat * p.bufferSize)
    (hsize : filled + chunk.length ≤ p.bufferSize) (freeList : List UInt16) :
    Frames [handle.index] (some p)
      (some { p with freeList, region := p.region.write (handle.data + filled) chunk }) := by
  refine .present rfl rfl fun idx hidx n hn ↦ Memory.read_write_of_disjoint ?_
  have hne : idx.toNat ≠ handle.index.toNat :=
    fun heq ↦ hidx (List.mem_singleton.mpr (UInt16.toNat_inj.mp heq))
  have hdisjoint := BufferPool.buffers_disjoint hne hn hsize
  omega

/-- **What a read does to a call.** -/
theorem SendState.received_ok {state : SendState} {recv chunk : Bytes} {failed : Bool}
    (h : SendCall.OK pool ⟨state, recv, failed⟩) (hpos : 0 < chunk.length)
    (hle : chunk.length ≤ state.toRead) :
    SendCall.OK (state.received pool chunk).1
        ⟨(state.received pool chunk).2, recv ++ chunk, failed⟩ ∧
      Moves pool state.held (state.received pool chunk) := by
  cases state with
  | writing rest => exact absurd (hpos.trans_le hle) (lt_irrefl 0)
  | header got =>
      obtain ⟨rfl, hrecv, hlt⟩ := h
      obtain rfl : recv = got := hrecv
      simp only [toRead] at hle
      simp only [SendState.received]
      split_ifs with hshort
      · exact ⟨⟨rfl, rfl, hshort⟩, .refl _ _, Or.inl ⟨rfl, rfl⟩⟩
      · have hlength : (recv ++ chunk).length = kHeaderSize := by
          rw [List.length_append] at hshort ⊢
          omega
        have hok := readValue_ok pool (ResponseHeader.ofBytes (recv ++ chunk))
        rw [ResponseHeader.bytes_ofBytes hlength] at hok
        exact ⟨hok, readValue_moves ..⟩
  | pooled hdr handle filled =>
      obtain ⟨rfl, hfilled, p, rfl, hdata, hsize, hrecv⟩ := h
      obtain rfl : recv = hdr.bytes ++ p.region.read handle.data filled := hrecv
      simp only [toRead] at hle
      have hroom : filled + chunk.length ≤ p.bufferSize := by omega
      have hread := Memory.read_write_append p.region handle.data filled chunk
      simp only [SendState.received, Option.map_some, Option.getD_some]
      split_ifs with hshort
      · refine ⟨⟨rfl, hshort, _, rfl, hdata, hsize, ?_⟩, .write hdata hroom _,
          Or.inl ⟨rfl, rfl⟩⟩
        rw [hread, List.append_assoc]
      · have hfull : hdr.valueLen.toNat = filled + chunk.length := by omega
        refine ⟨⟨hdr, ⟨rfl, Memory.length_read.symm⟩, ?_⟩, .write hdata hroom _,
          Or.inr (Or.inr ⟨handle.index, _, rfl, rfl, rfl⟩)⟩
        rw [hfull, hread, List.append_assoc]
  | plain hdr got =>
      obtain ⟨rfl, hlt, hrecv⟩ := h
      obtain rfl : recv = hdr.bytes ++ got := hrecv
      simp only [toRead] at hle
      simp only [SendState.received]
      split_ifs with hshort
      · exact ⟨⟨rfl, hshort, List.append_assoc ..⟩, .refl _ _, Or.inl ⟨rfl, rfl⟩⟩
      · refine ⟨⟨hdr, ⟨rfl, ?_⟩, List.append_assoc ..⟩, .refl _ _, Or.inl ⟨rfl, rfl⟩⟩
        rw [List.length_append] at hshort ⊢
        omega
  | done resp => exact absurd (hpos.trans_le hle) (lt_irrefl 0)

theorem transferLimit_le (len : ℕ) : transferLimit len ≤ len :=
  (Nat.min_le_left ..).trans (Nat.mod_le ..)

/-- A read that has not returned all of it can return more. -/
theorem transferLimit_sub_pos {len n : ℕ} (hlen : len < 2 ^ 32) (hlt : n < len) :
    0 < transferLimit (len - n) := by
  rw [transferLimit, Nat.mod_eq_of_lt (lt_of_le_of_lt (Nat.sub_le ..) hlen)]
  omega

theorem header_eq_of_prefix {hdr' : ResponseHeader} {x y : Bytes}
    (h : hdr'.bytes ++ x <+: hdr.bytes ++ y) : hdr' = hdr ∧ x <+: y := by
  obtain ⟨rest, heq⟩ := h
  rw [List.append_assoc] at heq
  obtain ⟨hbytes, hrest⟩ := List.append_inj heq (by simp)
  refine ⟨?_, rest, hrest⟩
  rw [← ResponseHeader.ofBytes_bytes hdr', hbytes, ResponseHeader.ofBytes_bytes]

/-- **How far a call is.**  A call that has received a part of a response has returned the
response if it is all of it, and waits for more otherwise. -/
theorem SendCall.OK.progress {c : SendCall} {resp : Response} (h : c.OK pool)
    (hfailed : c.failed = false) (hdr : ResponseHeader) (hannounces : hdr.Announces resp)
    (hpart : c.received <+: hdr.bytes ++ resp.value) :
    c.received = hdr.bytes ++ resp.value ∧ c.state = .done resp ∨
      c.received ≠ hdr.bytes ++ resp.value ∧ (∀ resp', c.state ≠ .done resp') ∧
        ((∃ rest, c.state = .writing rest) ∨ 0 < transferLimit c.state.toRead) := by
  obtain ⟨state, received, failed⟩ := c
  have hlength : (hdr.bytes ++ resp.value).length = kHeaderSize + resp.value.length := by simp
  have hshort : ∀ {bs : Bytes}, bs.length < kHeaderSize + resp.value.length →
      bs ≠ hdr.bytes ++ resp.value := by
    rintro bs hlt rfl
    exact absurd (hlength ▸ hlt) (lt_irrefl _)
  cases state with
  | writing rest =>
      obtain ⟨-, hreceived, -⟩ := h
      obtain rfl : received = [] := hreceived
      exact Or.inr ⟨hshort (by simp [kHeaderSize]), fun _ heq ↦ (by cases heq), Or.inl ⟨rest, rfl⟩⟩
  | header got =>
      obtain ⟨-, hreceived, hlt⟩ := h
      obtain rfl : received = got := hreceived
      refine Or.inr ⟨hshort (hlt.trans_le (Nat.le_add_right ..)), fun _ heq ↦ (by cases heq),
        Or.inr (transferLimit_sub_pos (by decide) hlt)⟩
  | pooled hdr' handle filled =>
      obtain ⟨-, hlt, p, -, -, -, hreceived⟩ := h
      obtain rfl : received = hdr'.bytes ++ p.region.read handle.data filled := hreceived
      obtain ⟨rfl, -⟩ := header_eq_of_prefix hpart
      have hlen := hannounces.valueLen
      exact Or.inr ⟨hshort (by simp; omega), fun _ heq ↦ (by cases heq),
        Or.inr (transferLimit_sub_pos hdr'.valueLen.toNat_lt hlt)⟩
  | plain hdr' got =>
      obtain ⟨-, hlt, hreceived⟩ := h
      obtain rfl : received = hdr'.bytes ++ got := hreceived
      obtain ⟨rfl, -⟩ := header_eq_of_prefix hpart
      have hlen := hannounces.valueLen
      exact Or.inr ⟨hshort (by simp; omega), fun _ heq ↦ (by cases heq),
        Or.inr (transferLimit_sub_pos hdr'.valueLen.toNat_lt hlt)⟩
  | done resp' =>
      obtain rfl : failed = false := hfailed
      obtain ⟨hdr', hannounces', hreceived⟩ := h
      obtain rfl : received = hdr'.bytes ++ resp'.value := hreceived
      obtain ⟨rfl, hvalue⟩ := header_eq_of_prefix hpart
      have heq : resp' = resp := by
        have hvalue' : resp'.value = resp.value :=
          hvalue.eq_of_length (hannounces'.valueLen.symm.trans hannounces.valueLen)
        have hstatus : resp'.status = resp.status :=
          hannounces'.status.symm.trans hannounces.status
        cases resp'
        cases resp
        rw [Response.mk.injEq]
        exact ⟨hstatus, hvalue'⟩
      rw [heq]
      exact Or.inl ⟨rfl, rfl⟩

end

namespace SendCalls

/-! ## The invariant -/

variable {s s' : SendCalls} {i : ℕ} {r : Option BufferPool × SendState} {received : Bytes}
  {failed : Bool}

/-- The buffer that a call holds. -/
def heldBy (s : SendCalls) (i : ℕ) : List UInt16 :=
  match s.call i with
  | none => []
  | some c => c.state.held

/-- Where the buffers are: on the free list, or with a call. -/
def contents (s : SendCalls) : Option ℕ → List UInt16
  | none => freeOf s.pool
  | some i => s.heldBy i

structure Inv (s : SendCalls) : Prop where
  call : ∀ i c, s.call i = some c → c.OK s.pool
  custody : ∃ owner, Custody s.contents owner ∧ ∀ idx : UInt16, (owner idx).isSome ↔
    ∃ pool, s.pool = some pool ∧ idx.toNat < pool.bufferCount

theorem heldBy_eq {c : SendCall} (h : s.call i = some c) : s.heldBy i = c.state.held := by
  rw [heldBy, h]

theorem holds_iff {idx : UInt16} : s.Holds i idx ↔ idx ∈ s.contents (some i) := by
  rw [Holds, contents, heldBy]
  cases s.call i <;> simp

theorem set_call_self : (s.set i r received failed).call i = some ⟨r.2, received, failed⟩ :=
  Function.update_self ..

theorem set_call_of_ne {j : ℕ} (h : j ≠ i) : (s.set i r received failed).call j = s.call j :=
  Function.update_of_ne h ..

theorem contents_set_self : (s.set i r received failed).contents (some i) = r.2.held := by
  rw [contents, heldBy, set_call_self]

theorem contents_set_of_ne {j : ℕ} (h : j ≠ i) :
    (s.set i r received failed).contents (some j) = s.contents (some j) := by
  rw [contents, contents, heldBy, heldBy, set_call_of_ne h]

theorem count_lt_iff {held : List UInt16} {pool pool' : Option BufferPool}
    (h : Frames held pool pool') (n : ℕ) :
    (∃ p, pool' = some p ∧ n < p.bufferCount) ↔ ∃ p, pool = some p ∧ n < p.bufferCount := by
  cases h with
  | absent => rfl
  | present size count region => simp [count]

/-- Buffers stay in custody. -/
theorem custody_set {owner : UInt16 → Option (Option ℕ)} (h : Custody s.contents owner)
    (hmoves : Moves s.pool (s.heldBy i) r) :
    ∃ owner', Custody (s.set i r received failed).contents owner' ∧
      ∀ idx, (owner' idx).isSome = (owner idx).isSome := by
  have hself : (s.set i r received failed).contents (some i) = r.2.held := contents_set_self
  have hfree : (s.set i r received failed).contents none = freeOf r.1 := rfl
  rcases hmoves.exchange with ⟨hsame, hheld⟩ | ⟨idx, hacquire, hnone, hheld⟩ |
    ⟨idx, resp, hheld, hdone, hrelease⟩
  · refine ⟨owner, ?_, fun _ ↦ rfl⟩
    have heq : (s.set i r received failed).contents = s.contents := by
      funext place
      cases place with
      | none => exact hfree.trans hsame
      | some j =>
          by_cases hj : j = i
          · rw [hj]
            exact hself.trans hheld
          · exact contents_set_of_ne hj
    rw [heq]
    exact h
  · have hmem : idx ∈ s.contents none := by
      rw [contents, hacquire]
      exact List.mem_cons_self
    refine ⟨_, h.move (p := none) (q := some i) (t := idx) (by simp) ?_ ?_ ?_,
      h.isSome_update hmem (some i)⟩
    · rw [hfree, contents, hacquire]
    · rw [hself, hheld, contents, hnone]
    · rintro (_ | j) hp hq
      · exact absurd rfl hp
      · exact contents_set_of_ne fun hj ↦ hq (congrArg some hj)
  · have hmem : idx ∈ s.contents (some i) := by
      rw [contents, hheld]
      exact List.mem_cons_self
    refine ⟨_, h.move (p := some i) (q := none) (t := idx) (by simp) ?_ ?_ ?_,
      h.isSome_update hmem none⟩
    · rw [hself, hdone, contents, hheld]
      rfl
    · rw [hfree, hrelease, contents]
    · rintro (_ | j) hp hq
      · exact absurd rfl hq
      · exact contents_set_of_ne fun hj ↦ hp (congrArg some hj)

/-- A call goes on. -/
theorem Inv.set (h : s.Inv) (hmoves : Moves s.pool (s.heldBy i) r)
    (hok : SendCall.OK r.1 ⟨r.2, received, failed⟩) : (s.set i r received failed).Inv := by
  obtain ⟨owner, hcustody, hdomain⟩ := h.custody
  constructor
  case call =>
    intro j c hc
    by_cases hj : j = i
    · subst hj
      rw [set_call_self] at hc
      cases hc
      exact hok
    · rw [set_call_of_ne hj] at hc
      refine (h.call j c hc).frame hmoves.frames fun idx hidx hmem ↦ hj ?_
      have hj' : idx ∈ s.contents (some j) := by rwa [contents, heldBy_eq hc]
      exact Option.some.inj (hcustody.place_unique hj' hmem)
  case custody =>
    obtain ⟨owner', hcustody', hsome⟩ := custody_set hcustody hmoves
    refine ⟨owner', hcustody', fun idx ↦ ?_⟩
    rw [hsome idx, hdomain idx]
    exact (count_lt_iff hmoves.frames _).symm

/-! ## Steps -/

theorem start_eq_some {req : Request} (h : s.step (.start i req) = some s') :
    s.call i = none ∧ s' = s.set i (s.pool, .writing (serializeRequest req)) [] false := by
  rw [step] at h
  split at h
  · exact ⟨‹_›, (Option.some.inj h).symm⟩
  · cases h

theorem wrote_eq_some {n : ℕ} (h : s.step (.wrote i n) = some s') :
    ∃ rest received failed, s.call i = some ⟨.writing rest, received, failed⟩ ∧ 0 < n ∧
      n ≤ transferLimit rest.length ∧ s' = s.set i (s.pool, .wrote rest n) received failed := by
  rw [step] at h
  split at h
  · obtain ⟨hn, hs⟩ := Option.ite_none_right_eq_some.mp h
    exact ⟨_, _, _, ‹_›, hn.1, hn.2, (Option.some.inj hs).symm⟩
  · cases h

theorem read_eq_some {chunk : Bytes} (h : s.step (.read i chunk) = some s') :
    ∃ c, s.call i = some c ∧ 0 < chunk.length ∧ chunk.length ≤ transferLimit c.state.toRead ∧
      s' = s.set i (c.state.received s.pool chunk) (c.received ++ chunk) c.failed := by
  rw [step] at h
  split at h
  · obtain ⟨hchunk, hs⟩ := Option.ite_none_right_eq_some.mp h
    exact ⟨_, ‹_›, hchunk.1, hchunk.2, (Option.some.inj hs).symm⟩
  · cases h

theorem fail_eq_some (h : s.step (.fail i) = some s') :
    ∃ c, s.call i = some c ∧ (∀ resp, c.state ≠ .done resp) ∧
      s' = s.set i (c.state.failed s.pool) c.received true := by
  rw [step] at h
  split at h
  · cases h
  · rename_i state received failed hdone hcall
    exact ⟨_, hcall, hdone, (Option.some.inj h).symm⟩
  · cases h

theorem serializeRequest_ne_nil (req : Request) : serializeRequest req ≠ [] := by
  intro h
  have hlength := congrArg List.length h
  simp [serializeRequest, kHeaderSize] at hlength

/-- **What one step does.** -/
theorem Inv.step_moves {a : Action} (h : s.Inv) (hs : s.step a = some s') :
    ∃ i r received failed, s' = s.set i r received failed ∧ Moves s.pool (s.heldBy i) r ∧
      SendCall.OK r.1 ⟨r.2, received, failed⟩ := by
  cases a with
  | start i req =>
      obtain ⟨hnone, rfl⟩ := start_eq_some hs
      have hheld : s.heldBy i = [] := by rw [heldBy, hnone]
      exact ⟨i, _, _, _, rfl, ⟨.refl _ _, Or.inl ⟨rfl, hheld.symm⟩⟩,
        rfl, rfl, serializeRequest_ne_nil req⟩
  | wrote i n =>
      obtain ⟨rest, received, failed, hcall, hpos, hle, rfl⟩ := wrote_eq_some hs
      obtain ⟨hfailed, hreceived, -⟩ := h.call i _ hcall
      have hheld : s.heldBy i = [] := heldBy_eq hcall
      refine ⟨i, _, _, _, rfl, ?_⟩
      rw [SendState.wrote]
      split_ifs with hall
      · exact ⟨⟨.refl _ _, Or.inl ⟨rfl, hheld.symm⟩⟩, hfailed, hreceived, by decide⟩
      · refine ⟨⟨.refl _ _, Or.inl ⟨rfl, hheld.symm⟩⟩, hfailed, hreceived, fun hnil ↦ hall ?_⟩
        exact List.drop_eq_nil_iff.mp hnil
  | read i chunk =>
      obtain ⟨⟨state, received, failed⟩, hcall, hpos, hle, rfl⟩ := read_eq_some hs
      obtain ⟨hok, hmoves⟩ := SendState.received_ok (h.call i _ hcall) hpos
        (hle.trans (transferLimit_le _))
      rw [← show s.heldBy i = state.held from heldBy_eq hcall] at hmoves
      exact ⟨i, _, _, _, rfl, hmoves, hok⟩
  | fail i =>
      obtain ⟨⟨state, received, failed⟩, hcall, hdone, rfl⟩ := fail_eq_some hs
      have hmoves : Moves s.pool state.held (state.failed s.pool) := by
        refine SendState.failed_moves state fun hdr handle filled hstate hnone ↦ ?_
        have hok := h.call i _ hcall
        rw [hstate] at hok
        obtain ⟨-, -, p, hp, -⟩ := hok
        cases hp.symm.trans hnone
      rw [← show s.heldBy i = state.held from heldBy_eq hcall] at hmoves
      refine ⟨i, _, _, _, rfl, hmoves, ?_⟩
      cases state with
      | done resp => exact absurd rfl (hdone resp)
      | _ => exact rfl

theorem Inv.step {a : Action} (h : s.Inv) (hs : s.step a = some s') : s'.Inv := by
  obtain ⟨i, r, received, failed, rfl, hmoves, hok⟩ := h.step_moves hs
  exact h.set hmoves hok

/-- A buffer is held until the call ends, and is free then. -/
theorem Inv.holds_step {a : Action} {idx : UInt16} (h : s.Inv) (hs : s.step a = some s')
    (hholds : s.Holds i idx) :
    s'.Holds i idx ∨
      idx ∈ freeOf s'.pool ∧ ∃ c resp, s'.call i = some c ∧ c.state = .done resp := by
  obtain ⟨j, r, received, failed, rfl, hmoves, -⟩ := h.step_moves hs
  rw [holds_iff] at hholds ⊢
  by_cases hi : i = j
  · subst hi
    rw [contents_set_self]
    rw [contents] at hholds
    rcases hmoves.exchange with ⟨-, hheld⟩ | ⟨-, -, hnone, -⟩ | ⟨idx', resp, hheld, hdone, hfree⟩
    · rw [hheld]
      exact Or.inl hholds
    · rw [hnone] at hholds
      cases hholds
    · rw [hheld, List.mem_singleton] at hholds
      refine Or.inr ⟨?_, _, resp, set_call_self, hdone⟩
      rw [hholds]
      exact hfree ▸ List.mem_cons_self
  · rw [contents_set_of_ne hi]
    exact Or.inl hholds

/-- In a new pool all buffers are free. -/
theorem count_freeOf (h : machine.init s) (idx : UInt16) :
    (∃ pool, s.pool = some pool ∧ idx.toNat < pool.bufferCount) ∧ (freeOf s.pool).count idx = 1 ∨
      (¬ ∃ pool, s.pool = some pool ∧ idx.toNat < pool.bufferCount) ∧
        (freeOf s.pool).count idx = 0 := by
  cases hp : s.pool with
  | none => simp [freeOf]
  | some pool =>
      obtain ⟨size, count, hcreate⟩ := h.2.resolve_left (by rw [hp]; simp)
      rw [freeOf, BufferPool.count_freeList_create (hcreate.symm.trans hp)]
      by_cases hidx : idx.toNat < pool.bufferCount <;> simp [hidx]

theorem inv_init (h : machine.init s) : s.Inv := by
  refine ⟨fun i c hc ↦ (by cases (h.1 i).symm.trans hc), ?_⟩
  refine ⟨fun idx ↦ if (freeOf s.pool).count idx = 1 then some none else none, ?_, fun idx ↦ ?_⟩
  · rintro (_ | i) idx
    · rcases count_freeOf h idx with ⟨-, hcount⟩ | ⟨-, hcount⟩ <;> simp [contents, hcount]
    · have hheld : s.contents (some i) = [] := by rw [contents, heldBy, h.1 i]
      rw [hheld]
      rcases count_freeOf h idx with ⟨-, hcount⟩ | ⟨-, hcount⟩ <;> simp [hcount]
  · rcases count_freeOf h idx with ⟨hidx, hcount⟩ | ⟨hidx, hcount⟩
    · exact iff_of_true (by simp [hcount]) hidx
    · exact iff_of_false (by simp [hcount]) hidx

theorem run_inv {tr : List Empty} (hrun : machine.Run s tr) : s.Inv := by
  refine hrun.invariant (I := fun s _ ↦ s.Inv) (fun _ ↦ inv_init) ?_
  intro s tr a s' e _ h hstep
  obtain ⟨s₁, hs₁, heq⟩ := Option.map_eq_some_iff.mp hstep
  cases heq
  exact h.step hs₁

/-- Every buffer is free, or one call holds it. -/
theorem Inv.buffer {pool : BufferPool} (h : s.Inv) (hpool : s.pool = some pool) (idx : UInt16)
    (hidx : idx.toNat < pool.bufferCount) :
    pool.freeList.count idx = 1 ∧ (∀ i, ¬ s.Holds i idx) ∨
      pool.freeList.count idx = 0 ∧ ∃! i, s.Holds i idx := by
  obtain ⟨owner, hcustody, hdomain⟩ := h.custody
  have hfree : s.contents none = pool.freeList := by rw [contents, hpool, freeOf]
  obtain ⟨place, hplace⟩ := Option.isSome_iff_exists.mp ((hdomain idx).mpr ⟨pool, hpool, hidx⟩)
  simp only [holds_iff]
  cases place with
  | none =>
      refine Or.inl ⟨?_, fun i hi ↦ ?_⟩
      · rw [← hfree, hcustody none idx, if_pos hplace]
      · cases (hcustody.mem_iff.mp hi).symm.trans hplace
  | some i =>
      refine Or.inr ⟨?_, i, hcustody.mem_iff.mpr hplace, fun j hj ↦ ?_⟩
      · rw [← hfree, hcustody none idx, if_neg (by rw [hplace]; simp)]
      · exact Option.some.inj (hcustody.place_unique hj (hcustody.mem_iff.mpr hplace))

end SendCalls

/-! ## The encoders and the decoders -/

/-- **The encoders and the decoders of responses agree, and no buffer leaks.**  What
`write_response` writes is what `serialize_response` does.  However its bytes come in,
`parse_response`, `recv_response` and `send_request` find the response in them, the last
whatever it reads them into and whatever other calls do; a call that a read or write fails
ends in an error.  And a buffer is free or held by one call, until that call ends. -/
theorem responses_agree (resp : Response) (hvalue : resp.value.length < 2 ^ 32 - 8) :
    (∀ split : ℕ → ℕ, (∀ k, split k < 2 ^ 31) →
      let bytes := writeResponse resp
      let out := Transfer.writeAll (fun k ↦ some (split k)) bytes bytes.length
      out.ok = true ∧ out.moved = serializeResponse resp) ∧
    parseResponse (serializeResponse resp) = some resp ∧
    (∀ split reads rest,
      (recvResponseFrom split ⟨serializeResponse resp ++ rest, reads⟩).1 = some resp) ∧
    ∀ s tr, SendCalls.machine.Run s tr →
      (∀ i c, s.call i = some c →
        (c.failed = false → c.received = serializeResponse resp → c.state = .done resp) ∧
        (c.failed = false → c.received <+: serializeResponse resp →
          c.received ≠ serializeResponse resp → (∀ resp', c.state ≠ .done resp') ∧
            ((∃ rest, c.state = .writing rest) ∨ 0 < transferLimit c.state.toRead)) ∧
        (c.failed = true → c.state = .done errorResponse)) ∧
      (∀ pool, s.pool = some pool → ∀ idx : UInt16, idx.toNat < pool.bufferCount →
        pool.freeList.count idx = 1 ∧ (∀ i, ¬ s.Holds i idx) ∨
          pool.freeList.count idx = 0 ∧ ∃! i, s.Holds i idx) ∧
      ∀ a s', s.step a = some s' → ∀ i idx, s.Holds i idx →
        s'.Holds i idx ∨
          idx ∈ freeOf s'.pool ∧ ∃ c resp', s'.call i = some c ∧ c.state = .done resp' := by
  obtain ⟨hdr, hannounces, heq⟩ := serializeResponse_eq resp (by omega)
  refine ⟨fun split hcap ↦ ?_, ?_, fun split reads rest ↦ ?_, fun s tr hrun ↦ ?_⟩
  · have hlength : (serializeResponse resp).length < 2 ^ 32 := by
      rw [heq, List.length_append, ResponseHeader.length_bytes, kHeaderSize]
      omega
    have hexact := Transfer.loop_exact_of_capped hcap hlength le_rfl
    rw [writeResponse_eq]
    exact ⟨hexact.ok, hexact.moved.trans (List.take_length ..)⟩
  · rw [heq, ← List.append_nil (hdr.bytes ++ resp.value)]
    exact parseResponse_of_announces hannounces []
  · exact (recvResponseFrom_of_announces split hannounces (by rw [heq])).1
  · have hinv := SendCalls.run_inv hrun
    refine ⟨fun i c hc ↦ ⟨fun hfailed hall ↦ ?_, fun hfailed hpart hne ↦ ?_, fun hfailed ↦ ?_⟩,
      fun pool hpool ↦ hinv.buffer hpool, fun a s' hs i idx ↦ hinv.holds_step hs⟩
    · rw [heq] at hall
      rcases (hinv.call i c hc).progress hfailed hdr hannounces (hall ▸ List.prefix_rfl) with
        ⟨-, hdone⟩ | ⟨hne, -⟩
      · exact hdone
      · exact absurd hall hne
    · rw [heq] at hpart hne
      rcases (hinv.call i c hc).progress hfailed hdr hannounces hpart with ⟨hall, -⟩ | ⟨-, hwaits⟩
      · exact absurd hall hne
      · exact hwaits
    · have hok := hinv.call i c hc
      obtain ⟨state, received, failed⟩ := c
      obtain rfl : failed = true := hfailed
      cases state with
      | done resp' =>
          obtain rfl : resp' = errorResponse := hok
          rfl
      | _ => cases hok.1

/-- A response that is read in three pieces, its value into the only buffer of the pool. -/
theorem responses_agree_pooled :
    ∃ s c, SendCalls.machine.Run s [] ∧ s.call 0 = some c ∧
      c.received = serializeResponse ⟨.ok, [104, 105]⟩ ∧ c.state = .done ⟨.ok, [104, 105]⟩ := by
  let s₀ : SendCalls := ⟨BufferPool.create 4 1, fun _ ↦ none⟩
  let actions : List SendCalls.Action :=
    [.start 0 ⟨.get, [107], []⟩, .wrote 0 9, .read 0 [0, 0, 0, 0, 2, 0, 0, 0], .read 0 [104],
      .read 0 [105]]
  have hsome : ((SendCalls.machine.exec s₀ actions).bind fun x ↦ (x.1.call 0).map fun c ↦
      (c.received, c.failed)) = some (serializeResponse ⟨.ok, [104, 105]⟩, false) := by
    decide +kernel
  obtain ⟨⟨s, tr⟩, hexec, hs⟩ := Option.bind_eq_some_iff.mp hsome
  obtain ⟨c, hc, hres⟩ := Option.map_eq_some_iff.mp hs
  obtain ⟨hreceived, hfailed⟩ := Prod.mk.inj hres
  have hrun : SendCalls.machine.Run s [] := by
    have hinit : SendCalls.machine.Run s₀ [] := .init ⟨fun _ ↦ rfl, Or.inr ⟨4, 1, rfl⟩⟩
    cases tr with
    | nil => exact hinit.exec hexec
    | cons e _ => cases e
  have hagree := responses_agree ⟨.ok, [104, 105]⟩ (by decide)
  exact ⟨s, c, hrun, hc, hreceived, ((hagree.2.2.2 s [] hrun).1 0 c hc).1 hfailed hreceived⟩

end Pensieve
