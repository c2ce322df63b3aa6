import Pensieve.Protocol.Transfer

/-!
# Requests from a stream

The reading half of `Coordinator::handle_connection` over `read_exact` of
`src/io/stream_utils.h`.  The kernel delivers the stream in pieces of its choice, given by
`split`: the model clamps the choice to the sizes that a read may return.

The length that `async_read` passes on has 32 bits.  A length of `2 ^ 32` or more is
narrowed, and `read_exact` then fails when the low bits are used up (`readExact_of_not`).
Below that the loop finds the requests that `parse_request` finds, however the stream is cut
(`requests_eq_parseAll`).
-/

namespace Pensieve

open Foundation

/-- A connection: the bytes that the peer has sent and that have not been read, and the
number of reads so far. -/
structure Inbound where
  stream : Bytes
  reads : ℕ

variable {split : ℕ → ℕ} {c : Inbound} {n : ℕ}

namespace Inbound

/-- `read_exact`, by a kernel that returns no more than fits an `int32_t`. -/
def readExact (split : ℕ → ℕ) (c : Inbound) (len : ℕ) : Option Bytes × Inbound :=
  let out := Transfer.readExact (fun k ↦ some (min (split (c.reads + k)) (2 ^ 31 - 1))) c.stream len
  (if out.ok then some out.moved else none, ⟨out.rest, c.reads + out.operations⟩)

/-- The bytes are read, if there are enough of them and the length is not narrowed. -/
theorem readExact_of_le (split : ℕ → ℕ) (hn : n < 2 ^ 32) (hlength : n ≤ c.stream.length) :
    (readExact split c n).1 = some (c.stream.take n) ∧
      (readExact split c n).2.stream = c.stream.drop n := by
  have hcap : ∀ k, min (split (c.reads + k)) (2 ^ 31 - 1) < 2 ^ 31 := by omega
  have hexact := Transfer.loop_exact_of_capped hcap hn hlength
  rw [readExact, Transfer.readExact]
  exact ⟨by rw [if_pos hexact.ok, hexact.moved], hexact.rest⟩

/-- Otherwise reading fails: at the end of the stream, or when a multiple of `2 ^ 32` is
left to read and the kernel is asked for nothing. -/
theorem readExact_of_not (split : ℕ → ℕ) (h : ¬ (n < 2 ^ 32 ∧ n ≤ c.stream.length)) :
    (readExact split c n).1 = none := by
  rw [readExact, Transfer.readExact, Transfer.loop_fails _ h]
  rfl

/-- A read of an empty payload need not be made. -/
theorem readExact_payload (split : ℕ → ℕ) (c : Inbound) (n : ℕ) :
    (if n > 0 then readExact split c n else (some [], c)) = readExact split c n := by
  split_ifs with h
  · rfl
  · obtain rfl : n = 0 := by omega
    rw [readExact, Transfer.readExact, Transfer.loop]
    rfl

end Inbound

open Inbound

/-! ## The loop of the server -/

/-- What an iteration of `handle_connection` reads. -/
def readRequest (split : ℕ → ℕ) (c : Inbound) : Option Request × Inbound :=
  match readExact split c kHeaderSize with
  | (none, c) => (none, c)
  | (some bytes, c) =>
    let hdr := RequestHeader.ofBytes bytes
    let read := if hdr.payloadLen > 0 then readExact split c hdr.payloadLen else (some [], c)
    match read with
    | (none, c) => (none, c)
    | (some payload, c) =>
      (some
        { opcode := hdr.opcode
          key := payload.take hdr.keyLen.toNat
          value := if hdr.valueLen > 0
            then (payload.drop hdr.keyLen.toNat).take hdr.valueLen.toNat else [] }, c)

/-- A request is read if its bytes are there and their number is not narrowed. -/
theorem readRequest_of_announces {hdr : RequestHeader} {req : Request} {rest : Bytes}
    (h : hdr.Announces req) (hlength : hdr.payloadLen < 2 ^ 32)
    (hstream : c.stream = hdr.bytes ++ req.key ++ req.value ++ rest) :
    (readRequest split c).1 = some req ∧ (readRequest split c).2.stream = rest := by
  obtain ⟨hopcode, hkey, hvalue⟩ := h
  rw [List.append_assoc, List.append_assoc] at hstream
  have hsize : c.stream.length = kHeaderSize + hdr.payloadLen + rest.length := by
    simp [hstream, RequestHeader.payloadLen, hkey, hvalue, Nat.add_assoc]
  obtain ⟨hfst, hsnd⟩ := readExact_of_le (c := c) (n := kHeaderSize) split (by decide)
    (by omega)
  rw [hstream, List.take_left' hdr.length_bytes] at hfst
  rw [hstream, List.drop_left' hdr.length_bytes] at hsnd
  simp only [readRequest, readExact_payload]
  generalize readExact split c kHeaderSize = header at *
  obtain ⟨bytes, c'⟩ := header
  subst hfst
  simp only [RequestHeader.ofBytes_bytes] at hsnd ⊢
  have hpayload : (req.key ++ req.value).length = hdr.payloadLen := by
    rw [List.length_append, RequestHeader.payloadLen, hkey, hvalue]
  rw [← List.append_assoc] at hsnd
  obtain ⟨hfst', hsnd'⟩ := readExact_of_le (c := c') split hlength
    (by rw [hsnd, List.length_append, hpayload]; omega)
  rw [hsnd, List.take_left' hpayload] at hfst'
  rw [hsnd, List.drop_left' hpayload] at hsnd'
  generalize readExact split c' hdr.payloadLen = payload at *
  obtain ⟨bytes, c''⟩ := payload
  subst hfst'
  refine ⟨?_, hsnd'⟩
  -- the value of an empty payload is not extracted, and is empty
  have hempty : (if hdr.valueLen > 0 then req.value else []) = req.value := by
    split_ifs with hpos
    · rfl
    · have hzero : hdr.valueLen.toNat = 0 := by
        simpa [UInt32.lt_iff_toNat_lt] using hpos
      rw [List.length_eq_zero_iff.mp (hvalue.symm.trans hzero)]
  simp only [List.take_left' hkey.symm, List.drop_left' hkey.symm, hvalue, List.take_length,
    hempty, hopcode]

/-- No request is read if it is incomplete or if its length is narrowed. -/
theorem readRequest_of_not (split : ℕ → ℕ)
    (h : ∀ req, parseRequest c.stream = some req → 2 ^ 32 ≤ req.key.length + req.value.length) :
    (readRequest split c).1 = none := by
  simp only [readRequest, readExact_payload]
  by_cases hheader : kHeaderSize ≤ c.stream.length
  · obtain ⟨hfst, hsnd⟩ := readExact_of_le (c := c) split (by decide) hheader
    generalize readExact split c kHeaderSize = header at *
    obtain ⟨bytes, c'⟩ := header
    subst hfst
    have hnone : (readExact split c'
        (RequestHeader.ofBytes (c.stream.take kHeaderSize)).payloadLen).1 = none := by
      refine readExact_of_not split fun ⟨hlt, hle⟩ ↦ ?_
      rw [hsnd, List.length_drop] at hle
      -- then the request is complete, and of this length
      obtain ⟨req, hreq⟩ : ∃ req, parseRequest c.stream = some req := by
        simp only [parseRequest, if_neg (not_lt.mpr hheader)]
        rw [if_neg (by omega)]
        exact ⟨_, rfl⟩
      have hge := h req hreq
      obtain ⟨hdr, ⟨-, hkey, hvalue⟩, rest, hstream⟩ := parseRequest_eq_some.mp hreq
      rw [← hstream, List.append_assoc, List.append_assoc, List.take_left' hdr.length_bytes,
        RequestHeader.ofBytes_bytes, RequestHeader.payloadLen, hkey, hvalue] at hlt
      omega
    simp only
    generalize readExact split c' _ = payload at *
    obtain ⟨bytes, c''⟩ := payload
    subst hnone
    rfl
  · have hnone := readExact_of_not (c := c) (n := kHeaderSize) split fun h ↦ hheader h.2
    generalize readExact split c kHeaderSize = header at *
    obtain ⟨bytes, c'⟩ := header
    subst hnone
    rfl

/-- One iteration reads what `parse_request` does, unless the length is narrowed. -/
theorem readRequest_eq_some {req : Request} :
    (readRequest split c).1 = some req ↔
      parseRequest c.stream = some req ∧ req.key.length + req.value.length < 2 ^ 32 := by
  have hread : ∀ {r : Request}, parseRequest c.stream = some r →
      r.key.length + r.value.length < 2 ^ 32 → (readRequest split c).1 = some r := by
    intro r hparse hlt
    obtain ⟨hdr, hannounces, rest, hstream⟩ := parseRequest_eq_some.mp hparse
    refine (readRequest_of_announces hannounces ?_ hstream.symm).1
    rwa [RequestHeader.payloadLen, hannounces.keyLen, hannounces.valueLen]
  constructor
  · intro h
    by_contra hnot
    rw [readRequest_of_not split fun r hparse ↦ ?_] at h
    · cases h
    · by_contra hge
      have hr := hread hparse (not_le.mp hge)
      rw [hr, Option.some_inj] at h
      exact hnot (h ▸ ⟨hparse, not_le.mp hge⟩)
  · exact fun h ↦ hread h.1 h.2

/-- The bytes of a request that is read are used up. -/
theorem readRequest_stream {req : Request} (h : (readRequest split c).1 = some req) :
    (readRequest split c).2.stream =
      c.stream.drop (kHeaderSize + req.key.length + req.value.length) := by
  obtain ⟨hparse, hlt⟩ := readRequest_eq_some.mp h
  obtain ⟨hdr, hannounces, rest, hstream⟩ := parseRequest_eq_some.mp hparse
  have hpayload : hdr.payloadLen < 2 ^ 32 := by
    rwa [RequestHeader.payloadLen, hannounces.keyLen, hannounces.valueLen]
  rw [(readRequest_of_announces hannounces hpayload hstream.symm).2, ← hstream]
  exact (List.drop_left' (by simp [Nat.add_assoc])).symm

theorem readRequest_length_lt {req : Request} (h : (readRequest split c).1 = some req) :
    (readRequest split c).2.stream.length < c.stream.length := by
  obtain ⟨hdr, -, rest, hstream⟩ := parseRequest_eq_some.mp (readRequest_eq_some.mp h).1
  have hpos : 0 < c.stream.length := by
    rw [← hstream]
    simp [kHeaderSize]
  rw [readRequest_stream h, List.length_drop, kHeaderSize]
  omega

/-- The requests that `handle_connection` decodes, where its responses are written without
failure. -/
def requests (split : ℕ → ℕ) (c : Inbound) : List Request :=
  match _hread : readRequest split c with
  | (none, _) => []
  | (some req, c') => req :: requests split c'
termination_by c.stream.length
decreasing_by
  have hlt := readRequest_length_lt (congrArg Prod.fst _hread)
  rwa [_hread] at hlt

theorem requests_of_none (h : (readRequest split c).1 = none) : requests split c = [] := by
  rw [requests]
  split
  · rfl
  · rename_i req c' hread
    rw [hread] at h
    cases h

theorem requests_of_some {req : Request} (h : (readRequest split c).1 = some req) :
    requests split c = req :: requests split (readRequest split c).2 := by
  rw [requests]
  split
  · rename_i hread
    rw [hread] at h
    cases h
  · rename_i r c' hread
    rw [hread] at h ⊢
    cases h
    rfl

/-! ## Parsing the whole stream -/

theorem parseRequest_length_le {data : Bytes} {req : Request} (h : parseRequest data = some req) :
    kHeaderSize + req.key.length + req.value.length ≤ data.length := by
  obtain ⟨hdr, -, hpart⟩ := parseRequest_eq_some.mp h
  have hle := hpart.length_le
  simpa [Nat.add_assoc] using hle

/-- `parse_request` again and again, each time behind the bytes that the header of the last
request has announced, and the bytes that are left in the end. -/
def parseAll (data : Bytes) : List Request × Bytes :=
  match _hparse : parseRequest data with
  | none => ([], data)
  | some req =>
    let more := parseAll
      (data.drop (kHeaderSize + (RequestHeader.ofBytes (data.take kHeaderSize)).payloadLen))
    (req :: more.1, more.2)
termination_by data.length
decreasing_by
  have hle := parseRequest_length_le _hparse
  rw [List.length_drop, kHeaderSize] at *
  omega

/-- The header announces the lengths of what is parsed. -/
theorem payloadLen_of_parseRequest {data : Bytes} {req : Request}
    (h : parseRequest data = some req) :
    (RequestHeader.ofBytes (data.take kHeaderSize)).payloadLen =
      req.key.length + req.value.length := by
  obtain ⟨hdr, ⟨-, hkey, hvalue⟩, rest, rfl⟩ := parseRequest_eq_some.mp h
  rw [List.append_assoc, List.append_assoc, List.take_left' hdr.length_bytes,
    RequestHeader.ofBytes_bytes, RequestHeader.payloadLen, hkey, hvalue]

theorem parseAll_of_none {data : Bytes} (h : parseRequest data = none) :
    parseAll data = ([], data) := by
  rw [parseAll]
  split
  · rfl
  · rename_i req hparse
    cases h.symm.trans hparse

theorem parseAll_of_some {data : Bytes} {req : Request} (h : parseRequest data = some req) :
    parseAll data =
      (req :: (parseAll (data.drop (kHeaderSize + req.key.length + req.value.length))).1,
        (parseAll (data.drop (kHeaderSize + req.key.length + req.value.length))).2) := by
  rw [parseAll]
  split
  · rename_i hparse
    cases h.symm.trans hparse
  · rename_i r hparse
    cases h.symm.trans hparse
    rw [payloadLen_of_parseRequest h, Nat.add_assoc]

/-- Nothing can be parsed from what is left. -/
theorem parseRequest_parseAll (data : Bytes) : parseRequest (parseAll data).2 = none := by
  induction hlength : data.length using Nat.strong_induction_on generalizing data with
  | _ n ih =>
      rcases hparse : parseRequest data with - | req
      · rw [parseAll_of_none hparse]
        exact hparse
      · have hle := parseRequest_length_le hparse
        rw [parseAll_of_some hparse]
        exact ih _ (by rw [List.length_drop, kHeaderSize] at *; omega) _ rfl

/-- Requests that are complete are parsed whatever follows them. -/
theorem parseAll_append {whole tail : Bytes} (h : (parseAll whole).2 = []) :
    parseAll (whole ++ tail) = ((parseAll whole).1 ++ (parseAll tail).1, (parseAll tail).2) := by
  induction hlength : whole.length using Nat.strong_induction_on generalizing whole with
  | _ n ih =>
      rcases hparse : parseRequest whole with - | req
      · rw [parseAll_of_none hparse] at h ⊢
        rw [show whole = [] from h]
        rfl
      · have hle := parseRequest_length_le hparse
        have hparse' := parseRequest_of_prefix hparse (List.prefix_append whole tail)
        rw [parseAll_of_some hparse] at h
        rw [parseAll_of_some hparse, parseAll_of_some hparse', List.drop_append_of_le_length hle,
          ih _ (by rw [List.length_drop, kHeaderSize] at *; omega) h rfl]
        rfl

/-- Requests that are written one behind the other are parsed one after the other. -/
theorem parseAll_flatMap_serializeRequest {reqs : List Request}
    (h : ∀ req ∈ reqs, req.key.length < 2 ^ 16 ∧ req.value.length < 2 ^ 32) :
    parseAll (reqs.flatMap serializeRequest) = (reqs, []) := by
  induction reqs with
  | nil => exact parseAll_of_none rfl
  | cons req reqs ih =>
      obtain ⟨⟨hkey, hvalue⟩, hreqs⟩ := List.forall_mem_cons.mp h
      have hparse := parseRequest_serializeRequest hkey hvalue (reqs.flatMap serializeRequest)
      have hlength : (serializeRequest req).length =
          kHeaderSize + req.key.length + req.value.length := by
        simp [serializeRequest, Nat.add_assoc]
      rw [List.flatMap_cons, parseAll_of_some hparse, List.drop_left' hlength, ih hreqs]

/-- **Requests round-trip.**  If keys have at most 65535 bytes and values less than `2 ^ 32`,
then the requests that are parsed from their encodings are the requests, nothing is left
over, and no part of an encoding is taken for a request. -/
theorem parseAll_serialized (reqs : List Request)
    (h : ∀ req ∈ reqs, req.key.length ≤ 65535 ∧ req.value.length < 2 ^ 32) :
    parseAll (reqs.flatMap serializeRequest) = (reqs, []) ∧
    ∀ req : Request, req.key.length ≤ 65535 → req.value.length < 2 ^ 32 → ∀ bs,
      bs <+: serializeRequest req → bs ≠ serializeRequest req → parseRequest bs = none := by
  refine ⟨parseAll_flatMap_serializeRequest fun req hreq ↦ ?_, ?_⟩
  · exact ⟨Nat.lt_succ_of_le (h req hreq).1, (h req hreq).2⟩
  · intro req hkey hvalue bs hpart hne
    exact parseRequest_of_part (Nat.lt_succ_of_le hkey) hvalue hpart hne

/-- Two requests, and the first three bytes of the header of one. -/
theorem parseAll_serialized_two :
    parseAll (serializeRequest ⟨.put, [107], [118, 118]⟩ ++ serializeRequest ⟨.get, [], []⟩) =
      ([⟨.put, [107], [118, 118]⟩, ⟨.get, [], []⟩], []) ∧
    parseRequest ((serializeRequest ⟨.get, [], []⟩).take 3) = none := by
  have h := parseAll_serialized [⟨.put, [107], [118, 118]⟩, ⟨.get, [], []⟩] (by decide)
  exact ⟨h.1, h.2 ⟨.get, [], []⟩ (by decide) (by decide) _ (List.take_prefix _ _) (by decide)⟩

/-- The loop reads what is parsed, as long as no length is narrowed. -/
theorem requests_eq (split : ℕ → ℕ) (c : Inbound)
    (h : ∀ req ∈ (parseAll c.stream).1, req.key.length + req.value.length < 2 ^ 32) :
    requests split c = (parseAll c.stream).1 := by
  induction hlength : c.stream.length using Nat.strong_induction_on generalizing c with
  | _ n ih =>
      rcases hparse : parseRequest c.stream with - | req
      · rw [parseAll_of_none hparse, requests_of_none]
        exact readRequest_of_not split fun r hr ↦ by cases hparse.symm.trans hr
      · rw [parseAll_of_some hparse] at h ⊢
        have hread : (readRequest split c).1 = some req :=
          readRequest_eq_some.mpr ⟨hparse, h req List.mem_cons_self⟩
        have hstream := readRequest_stream hread
        rw [requests_of_some hread, ih _ (hlength ▸ readRequest_length_lt hread) _ ?_ rfl, hstream]
        rw [hstream]
        exact fun r hr ↦ h r (List.mem_cons_of_mem _ hr)

/-- **The two decoders agree.**  Whatever pieces the stream is delivered in, the server
decodes the requests that are found by `parse_request`, if no payload has `2 ^ 32` bytes or
more.  An incomplete request at the end of the stream is not one of them. -/
theorem requests_eq_parseAll (split : ℕ → ℕ) (stream : Bytes)
    (h : ∀ req ∈ (parseAll stream).1, req.key.length + req.value.length < 2 ^ 32) :
    (∀ reads, requests split ⟨stream, reads⟩ = (parseAll stream).1) ∧
    (∀ reads, requests split ⟨(parseAll stream).2, reads⟩ = []) ∧
    ∀ whole tail, stream = whole ++ tail → (parseAll whole).2 = [] → parseRequest tail = none →
      ∀ reads, requests split ⟨stream, reads⟩ = (parseAll whole).1 := by
  refine ⟨fun reads ↦ requests_eq split ⟨stream, reads⟩ h, fun reads ↦ ?_, ?_⟩
  · refine requests_of_none (readRequest_of_not split fun req hreq ↦ ?_)
    cases (parseRequest_parseAll stream).symm.trans hreq
  · rintro whole tail rfl hwhole htail reads
    rw [requests_eq split _ h, parseAll_append hwhole, parseAll_of_none htail, List.append_nil]

/-- A GET and two bytes of the next header, delivered byte by byte. -/
theorem requests_eq_parseAll_get :
    parseAll (serializeRequest ⟨.get, [107], []⟩ ++ [2, 0]) = ([⟨.get, [107], []⟩], [2, 0]) ∧
      requests (fun _ ↦ 1) ⟨serializeRequest ⟨.get, [107], []⟩ ++ [2, 0], 0⟩ =
        [⟨.get, [107], []⟩] := by
  have hparse : parseAll (serializeRequest ⟨.get, [107], []⟩ ++ [2, 0]) =
      ([⟨.get, [107], []⟩], [2, 0]) := by
    have hget : parseRequest (serializeRequest ⟨.get, [107], []⟩ ++ [2, 0]) =
        some ⟨.get, [107], []⟩ := by
      decide
    rw [parseAll_of_some hget, parseAll_of_none (by decide)]
    rfl
  refine ⟨hparse, ?_⟩
  rw [(requests_eq_parseAll (fun _ ↦ 1) _ (by rw [hparse]; decide)).1 0, hparse]

end Pensieve
