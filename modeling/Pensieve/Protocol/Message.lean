import Pensieve.Foundation.Codec
import Pensieve.Storage.SlabEntry

/-!
# Requests and responses

`src/protocol/message.h`.  Opcodes and statuses are read from the wire without a
check, so each is a byte, of which some values have names.

A message is a header of eight bytes and what its lengths announce.  The lengths of a
message that is serialized are narrowed to the width of their fields, while all of the
key and the value is written.
-/

namespace Pensieve

open Foundation

/-- `Opcode`. -/
structure Opcode where
  byte : UInt8
deriving DecidableEq, Repr

namespace Opcode

def get : Opcode := ⟨1⟩
def put : Opcode := ⟨2⟩
def del : Opcode := ⟨3⟩
def clusterInfo : Opcode := ⟨4⟩

end Opcode

/-- `Status`. -/
structure Status where
  byte : UInt8
deriving DecidableEq, Repr

namespace Status

def ok : Status := ⟨0⟩
def notFound : Status := ⟨1⟩
def error : Status := ⟨2⟩

end Status

/-- `Request`. -/
structure Request where
  opcode : Opcode
  key : Bytes
  value : Bytes
deriving DecidableEq, Repr

/-- `Response`. -/
structure Response where
  status : Status
  value : Bytes
deriving DecidableEq, Repr

/-! ## Headers -/

/-- `RequestHeader`. -/
structure RequestHeader where
  opcode : Opcode
  flags : UInt8
  keyLen : UInt16
  valueLen : UInt32
deriving DecidableEq, Repr

/-- `ResponseHeader`. -/
structure ResponseHeader where
  status : Status
  flags : UInt8
  reserved : UInt16
  valueLen : UInt32
deriving DecidableEq, Repr

/-- The size of either header. -/
def kHeaderSize : ℕ := 8

/-- The layout that the headers share: two bytes, and two little-endian words. -/
def headerBytes (a b : UInt8) (c : UInt16) (d : UInt32) : Bytes :=
  a :: b :: (leBytes 2 c.toNat ++ leBytes 4 d.toNat)

theorem headerBytes_of_length {bs : Bytes} (h : bs.length = kHeaderSize) :
    headerBytes (bs.getD 0 0) (bs.getD 1 0) (UInt16.ofNat (leNat ((bs.drop 2).take 2)))
      (UInt32.ofNat (leNat ((bs.drop 4).take 4))) = bs := by
  match bs, h with
  | [b₀, b₁, b₂, b₃, b₄, b₅, b₆, b₇], _ =>
    have hkey := leBytes_leNat [b₂, b₃]
    have hvalue := leBytes_leNat [b₄, b₅, b₆, b₇]
    have hkeylt : leNat [b₂, b₃] < 2 ^ 16 := by simpa using leNat_lt [b₂, b₃]
    have hvaluelt : leNat [b₄, b₅, b₆, b₇] < 2 ^ 32 := by simpa using leNat_lt [b₄, b₅, b₆, b₇]
    simp only [headerBytes, List.getD_cons_zero, List.getD_cons_succ, List.drop_succ_cons,
      List.drop_zero, List.take_succ_cons, List.take_zero]
    rw [UInt16.toNat_ofNat', UInt32.toNat_ofNat', Nat.mod_eq_of_lt hkeylt,
      Nat.mod_eq_of_lt hvaluelt]
    simp only [List.length_cons, List.length_nil] at hkey hvalue
    rw [hkey, hvalue]
    rfl

namespace RequestHeader

/-- The header as it lies in memory. -/
def bytes (hdr : RequestHeader) : Bytes :=
  headerBytes hdr.opcode.byte hdr.flags hdr.keyLen hdr.valueLen

/-- The header that lies in eight bytes of memory. -/
def ofBytes (bs : Bytes) : RequestHeader where
  opcode := ⟨bs.getD 0 0⟩
  flags := bs.getD 1 0
  keyLen := UInt16.ofNat (leNat ((bs.drop 2).take 2))
  valueLen := UInt32.ofNat (leNat ((bs.drop 4).take 4))

@[simp] theorem length_bytes (hdr : RequestHeader) : hdr.bytes.length = kHeaderSize := by
  simp [bytes, headerBytes, kHeaderSize]

theorem bytes_ofBytes {bs : Bytes} (h : bs.length = kHeaderSize) : (ofBytes bs).bytes = bs :=
  headerBytes_of_length h

@[simp] theorem ofBytes_bytes (hdr : RequestHeader) : ofBytes hdr.bytes = hdr := by
  obtain ⟨⟨a⟩, b, c, d⟩ := hdr
  have htake : (leBytes 4 d.toNat).take 4 = leBytes 4 d.toNat := List.take_of_length_le (by simp)
  simp [ofBytes, bytes, headerBytes, leNat_leBytes, htake]

/-- The size of what follows the header. -/
def payloadLen (hdr : RequestHeader) : ℕ := hdr.keyLen.toNat + hdr.valueLen.toNat

end RequestHeader

namespace ResponseHeader

/-- The header as it lies in memory. -/
def bytes (hdr : ResponseHeader) : Bytes :=
  headerBytes hdr.status.byte hdr.flags hdr.reserved hdr.valueLen

/-- The header that lies in eight bytes of memory. -/
def ofBytes (bs : Bytes) : ResponseHeader where
  status := ⟨bs.getD 0 0⟩
  flags := bs.getD 1 0
  reserved := UInt16.ofNat (leNat ((bs.drop 2).take 2))
  valueLen := UInt32.ofNat (leNat ((bs.drop 4).take 4))

@[simp] theorem length_bytes (hdr : ResponseHeader) : hdr.bytes.length = kHeaderSize := by
  simp [bytes, headerBytes, kHeaderSize]

theorem bytes_ofBytes {bs : Bytes} (h : bs.length = kHeaderSize) : (ofBytes bs).bytes = bs :=
  headerBytes_of_length h

@[simp] theorem ofBytes_bytes (hdr : ResponseHeader) : ofBytes hdr.bytes = hdr := by
  obtain ⟨⟨a⟩, b, c, d⟩ := hdr
  have htake : (leBytes 4 d.toNat).take 4 = leBytes 4 d.toNat := List.take_of_length_le (by simp)
  simp [ofBytes, bytes, headerBytes, leNat_leBytes, htake]

end ResponseHeader

/-! ## Serialization -/

/-- `serialize_request`. -/
def serializeRequest (req : Request) : Bytes :=
  let hdr : RequestHeader :=
    { opcode := req.opcode, flags := 0, keyLen := UInt16.ofNat req.key.length
      valueLen := UInt32.ofNat req.value.length }
  hdr.bytes ++ req.key ++ req.value

/-- `serialize_response`. -/
def serializeResponse (resp : Response) : Bytes :=
  let hdr : ResponseHeader :=
    { status := resp.status, flags := 0, reserved := 0
      valueLen := UInt32.ofNat resp.value.length }
  hdr.bytes ++ resp.value

/-- `parse_request`. -/
def parseRequest (data : Bytes) : Option Request :=
  if data.length < kHeaderSize then none
  else
    let hdr := RequestHeader.ofBytes (data.take kHeaderSize)
    if data.length < kHeaderSize + hdr.payloadLen then none
    else
      let payload := data.drop kHeaderSize
      some
        { opcode := hdr.opcode
          key := payload.take hdr.keyLen.toNat
          value := (payload.drop hdr.keyLen.toNat).take hdr.valueLen.toNat }

/-- A header announces a key and a value of a request. -/
structure RequestHeader.Announces (hdr : RequestHeader) (req : Request) : Prop where
  opcode : hdr.opcode = req.opcode
  keyLen : hdr.keyLen.toNat = req.key.length
  valueLen : hdr.valueLen.toNat = req.value.length

/-- What is parsed is a header and the key and value that it announces. -/
theorem parseRequest_eq_some {data : Bytes} {req : Request} :
    parseRequest data = some req ↔ ∃ hdr : RequestHeader, hdr.Announces req ∧
      hdr.bytes ++ req.key ++ req.value <+: data := by
  constructor
  · intro h
    simp only [parseRequest] at h
    split_ifs at h with hheader hpayload
    cases h
    rw [not_lt] at hheader hpayload
    have htake : (data.take kHeaderSize).length = kHeaderSize := List.length_take_of_le hheader
    rw [RequestHeader.payloadLen] at hpayload
    refine ⟨_, ⟨rfl, ?_, ?_⟩, ?_⟩
    · simp only [List.length_take, List.length_drop]
      omega
    · simp only [List.length_take, List.length_drop]
      omega
    · rw [RequestHeader.bytes_ofBytes htake]
      refine ⟨(data.drop kHeaderSize).drop (RequestHeader.ofBytes
        (data.take kHeaderSize)).keyLen.toNat |>.drop (RequestHeader.ofBytes
        (data.take kHeaderSize)).valueLen.toNat, ?_⟩
      simp only [List.append_assoc, List.take_append_drop]
  · rintro ⟨hdr, ⟨hopcode, hkey, hvalue⟩, rest, rfl⟩
    have hlength : ((hdr.bytes ++ req.key ++ req.value) ++ rest).length =
        kHeaderSize + hdr.payloadLen + rest.length := by
      simp [RequestHeader.payloadLen, hkey, hvalue, Nat.add_assoc]
    have htake : ((hdr.bytes ++ req.key ++ req.value) ++ rest).take kHeaderSize = hdr.bytes := by
      rw [List.append_assoc, List.append_assoc]
      exact List.take_left' hdr.length_bytes
    have hdrop : ((hdr.bytes ++ req.key ++ req.value) ++ rest).drop kHeaderSize =
        req.key ++ (req.value ++ rest) := by
      rw [List.append_assoc, List.append_assoc]
      exact List.drop_left' hdr.length_bytes
    rw [parseRequest, hlength, htake, hdrop, RequestHeader.ofBytes_bytes, if_neg (by omega),
      if_neg (by omega)]
    simp only [List.take_left' hkey.symm, List.drop_left' hkey.symm, List.take_left' hvalue.symm,
      hopcode]

/-- What follows a complete request does not matter. -/
theorem parseRequest_of_prefix {bs data : Bytes} {req : Request} (h : parseRequest bs = some req)
    (hpart : bs <+: data) : parseRequest data = some req := by
  obtain ⟨hdr, hannounces, hbytes⟩ := parseRequest_eq_some.mp h
  exact parseRequest_eq_some.mpr ⟨hdr, hannounces, hbytes.trans hpart⟩

section

variable {req : Request} (hkey : req.key.length < 2 ^ 16) (hvalue : req.value.length < 2 ^ 32)
include hkey hvalue

/-- The lengths that are serialized are those of the request, if they fit their fields. -/
theorem serializeRequest_eq :
    ∃ hdr : RequestHeader, hdr.Announces req ∧
      serializeRequest req = hdr.bytes ++ req.key ++ req.value := by
  refine ⟨_, ⟨rfl, ?_, ?_⟩, rfl⟩
  · rw [UInt16.toNat_ofNat', Nat.mod_eq_of_lt hkey]
  · rw [UInt32.toNat_ofNat', Nat.mod_eq_of_lt hvalue]

theorem parseRequest_serializeRequest (rest : Bytes) :
    parseRequest (serializeRequest req ++ rest) = some req := by
  obtain ⟨hdr, hannounces, heq⟩ := serializeRequest_eq hkey hvalue
  exact parseRequest_eq_some.mpr ⟨hdr, hannounces, heq ▸ List.prefix_append _ rest⟩

/-- Nothing is parsed from a part of a request. -/
theorem parseRequest_of_part {bs : Bytes} (hpart : bs <+: serializeRequest req)
    (hne : bs ≠ serializeRequest req) : parseRequest bs = none := by
  refine Option.eq_none_iff_forall_ne_some.mpr fun r hparse ↦ hne ?_
  -- then the same is parsed from the whole, which is as long as what is parsed
  have hwhole := parseRequest_serializeRequest hkey hvalue []
  rw [List.append_nil] at hwhole
  have hsame := parseRequest_of_prefix hparse hpart
  cases hsame.symm.trans hwhole
  obtain ⟨hdr, -, hbytes⟩ := parseRequest_eq_some.mp hparse
  refine hpart.eq_of_length_le ?_
  simpa [serializeRequest] using hbytes.length_le

end

/-! ## Responses -/

/-- `parse_response`. -/
def parseResponse (data : Bytes) : Option Response :=
  if data.length < kHeaderSize then none
  else
    let hdr := ResponseHeader.ofBytes (data.take kHeaderSize)
    if data.length < kHeaderSize + hdr.valueLen.toNat then none
    else some { status := hdr.status, value := (data.drop kHeaderSize).take hdr.valueLen.toNat }

/-- A header announces the value of a response. -/
structure ResponseHeader.Announces (hdr : ResponseHeader) (resp : Response) : Prop where
  status : hdr.status = resp.status
  valueLen : hdr.valueLen.toNat = resp.value.length

/-- What follows a complete response does not matter. -/
theorem parseResponse_of_announces {hdr : ResponseHeader} {resp : Response}
    (h : hdr.Announces resp) (rest : Bytes) :
    parseResponse (hdr.bytes ++ resp.value ++ rest) = some resp := by
  have hlength : (hdr.bytes ++ resp.value ++ rest).length =
      kHeaderSize + hdr.valueLen.toNat + rest.length := by
    simp [h.valueLen, Nat.add_assoc]
  have htake : (hdr.bytes ++ resp.value ++ rest).take kHeaderSize = hdr.bytes := by
    rw [List.append_assoc]
    exact List.take_left' hdr.length_bytes
  have hdrop : (hdr.bytes ++ resp.value ++ rest).drop kHeaderSize = resp.value ++ rest := by
    rw [List.append_assoc]
    exact List.drop_left' hdr.length_bytes
  rw [parseResponse, hlength, htake, hdrop, ResponseHeader.ofBytes_bytes, if_neg (by omega),
    if_neg (by omega)]
  simp only [List.take_left' h.valueLen.symm, h.status]

/-- The length that is serialized is that of the value, if it fits its field. -/
theorem serializeResponse_eq (resp : Response) (hvalue : resp.value.length < 2 ^ 32) :
    ∃ hdr : ResponseHeader, hdr.Announces resp ∧
      serializeResponse resp = hdr.bytes ++ resp.value := by
  refine ⟨_, ⟨rfl, ?_⟩, rfl⟩
  rw [UInt32.toNat_ofNat', Nat.mod_eq_of_lt hvalue]

end Pensieve
