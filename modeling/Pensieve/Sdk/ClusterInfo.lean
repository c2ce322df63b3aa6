import Pensieve.Coordinator.Coordinator
import Pensieve.Sdk.TopologyManager

/-!
# The list of endpoints on the wire

`serve_cluster_info` counts the alive members, then appends each of them to a buffer through a
pointer that it moves by hand (`fillClusterInfo`).  `fetch_topology` goes over the payload in the
same way (`decodePayload`): it compares a pointer with the end before it reads, once for the
length of a host and once for the host together with the ports.

The decoder is modelled with the offsets that it reads and with the list that it fills, which on
failure keeps what was decoded until then.  It reads nothing behind the end, and what it makes
of a payload is what `readTopology` makes of it (`decodePayload_spec`).
-/

namespace Pensieve

open Foundation

/-! ## The encoder -/

namespace Coordinator

/-- A string that is being filled: its bytes and its length. -/
structure Buffer where
  data : Memory
  size : ℕ

namespace Buffer

/-- What the string holds. -/
def bytes (buf : Buffer) : Bytes := buf.data.read 0 buf.size

/-- `resize` to a larger size. -/
def grow (buf : Buffer) (n : ℕ) : Buffer :=
  ⟨buf.data.write buf.size (List.replicate n 0), buf.size + n⟩

/-- `memcpy` to an offset. -/
def copy (buf : Buffer) (off : ℕ) (bs : Bytes) : Buffer :=
  { buf with data := buf.data.write off bs }

/-- What is copied stands behind what was there before the offset. -/
theorem read_copy (buf : Buffer) (p : ℕ) {n : ℕ} {bs : Bytes} (hn : bs.length = n) :
    (buf.copy p bs).data.read 0 (p + n) = buf.data.read 0 p ++ bs := by
  have happend := Memory.read_write_append buf.data 0 p bs
  rwa [Nat.zero_add, hn] at happend

theorem read_grow (buf : Buffer) (n : ℕ) : (buf.grow n).data.read 0 buf.size = buf.bytes :=
  Memory.read_write_of_disjoint (Or.inl (Nat.zero_add _).le)

end Buffer

/-- The body of the second loop of `serve_cluster_info`. -/
def fillMember (buf : Buffer) (id : NodeId) (info : NodeInfo) : Buffer :=
  if info.state ≠ .alive then buf
  else
    let hostLen := id.host.length % 65536
    let p := buf.size
    let buf := buf.grow (2 + hostLen + 2 + 2)
    let buf := buf.copy p (leBytes 2 hostLen)
    let p := p + 2
    let buf := buf.copy p (id.host.take hostLen)
    let p := p + hostLen
    let buf := buf.copy p (leBytes 2 id.gossipPort.toNat)
    let p := p + 2
    buf.copy p (leBytes 2 info.dataPort.toNat)

/-- The first loop: a `uint16_t` counts. -/
def countAlive (members : MemberList) : ℕ :=
  members.nodes.entries.foldl
    (fun count e ↦ if e.2.state = .alive then (count + 1) % 65536 else count) 0

/-- The payload of `serve_cluster_info`, as it is put together. -/
def fillClusterInfo (members : MemberList) : Bytes :=
  let buf := (Buffer.grow ⟨fun _ ↦ 0, 0⟩ 2).copy 0 (leBytes 2 (countAlive members))
  (members.nodes.entries.foldl (fun buf e ↦ fillMember buf e.1 e.2) buf).bytes

theorem fillMember_bytes (buf : Buffer) (id : NodeId) (info : NodeInfo) :
    (fillMember buf id info).bytes =
      buf.bytes ++ if info.state = .alive then encodeMember id info else [] := by
  rw [fillMember]
  by_cases halive : info.state = .alive
  · rw [if_neg (not_not.mpr halive), if_pos halive]
    have hlen : (id.host.take (id.host.length % 65536)).length = id.host.length % 65536 :=
      List.length_take_of_le (Nat.mod_le _ _)
    have hsize : buf.size + (2 + id.host.length % 65536 + 2 + 2) =
        buf.size + 2 + id.host.length % 65536 + 2 + 2 := by omega
    dsimp only
    rw [Buffer.bytes]
    show Memory.read _ 0 (buf.size + (2 + id.host.length % 65536 + 2 + 2)) = _
    rw [hsize, Buffer.read_copy _ _ (length_leBytes 2 _), Buffer.read_copy _ _ (length_leBytes 2 _),
      Buffer.read_copy _ _ hlen, Buffer.read_copy _ _ (length_leBytes 2 _), Buffer.read_grow,
      encodeMember]
    simp only [List.append_assoc]
  · rw [if_pos halive, if_neg halive, List.append_nil]

theorem countAlive_eq (members : MemberList) :
    countAlive members =
      (members.nodes.entries.filter fun e ↦ e.2.state = .alive).length % 65536 := by
  rw [countAlive]
  induction members.nodes.entries using List.reverseRecOn with
  | nil => rfl
  | append_singleton es e ih =>
      rw [List.foldl_append, List.foldl_cons, List.foldl_nil, ih, List.filter_append,
        List.length_append]
      split_ifs with halive
      · simp [halive]
      · simp [halive]

/-- The buffer ends up with the count and one entry after the other. -/
theorem fillClusterInfo_eq (members : MemberList) :
    fillClusterInfo members = (serveClusterInfo members).value := by
  have hfold : ∀ (es : List (Σ _ : NodeId, NodeInfo)) (buf : Buffer),
      (es.foldl (fun buf e ↦ fillMember buf e.1 e.2) buf).bytes =
        buf.bytes ++ (es.filter fun e ↦ e.2.state = .alive).flatMap fun e ↦
          encodeMember e.1 e.2 := by
    intro es
    induction es with
    | nil => simp
    | cons e es ih =>
        intro buf
        rw [List.foldl_cons, ih, fillMember_bytes, List.append_assoc]
        by_cases halive : e.2.state = .alive <;> simp [halive]
  have hcount := Buffer.read_copy (Buffer.grow ⟨fun _ ↦ 0, 0⟩ 2) 0
    (length_leBytes 2 (countAlive members))
  rw [fillClusterInfo, hfold, serveClusterInfo, ← countAlive_eq]
  exact congrArg (· ++ _) hcount

end Coordinator

/-! ## The decoder -/

namespace TopologyManager

/-- The offsets of a read. -/
def offsets (p n : ℕ) : List ℕ := (List.range n).map fun i ↦ p + i

/-- `memcpy` from the payload, or the construction of a string from it. -/
def readBytes (payload : Memory) (p n : ℕ) : Read Bytes := fun log ↦
  (payload.read p n, log ++ offsets p n)

/-- `memcpy` into a `uint16_t`. -/
def readU16 (payload : Memory) (p : ℕ) : Read ℕ := leNat <$> readBytes payload p 2

/-- The loop of `fetch_topology`, with the number of entries that are left.  The payload ends at
`len`, the list `out` is that of the caller. -/
def decodeLoop (payload : Memory) (len : ℕ) :
    ℕ → ℕ → List NodeEndpoint → Read (Bool × List NodeEndpoint)
  | 0, _, out => return (true, out)
  | i + 1, p, out => do
    if len < p + 2 then return (false, out)
    let hostLen ← readU16 payload p
    let p := p + 2
    if len < p + hostLen + 2 * 2 then return (false, out)
    let nodeHost ← readBytes payload p hostLen
    let p := p + hostLen
    let gossipPort ← readU16 payload p
    let p := p + 2
    let dataPort ← readU16 payload p
    let p := p + 2
    decodeLoop payload len i p
      (out ++ [⟨nodeHost, UInt16.ofNat gossipPort, UInt16.ofNat dataPort⟩])

/-- The last part of `fetch_topology`, once the payload is there. -/
def decodePayload (payload : Memory) (len : ℕ) (out : List NodeEndpoint) :
    Read (Bool × List NodeEndpoint) := do
  if len < 2 then return (false, out)
  let numNodes ← readU16 payload 0
  decodeLoop payload len numNodes 2 []

section

variable (payload : Memory) (len : ℕ)

/-- The entry at an offset. -/
def endpointAt (p : ℕ) : NodeEndpoint :=
  let hostLen := leNat (payload.read p 2)
  ⟨payload.read (p + 2) hostLen, UInt16.ofNat (leNat (payload.read (p + 2 + hostLen) 2)),
    UInt16.ofNat (leNat (payload.read (p + 2 + hostLen + 2) 2))⟩

/-- The offset behind the entry. -/
def entryEnd (p : ℕ) : ℕ := p + 2 + leNat (payload.read p 2) + 2 + 2

/-- The offsets that are read for the entry. -/
def entryOffsets (p : ℕ) : List ℕ :=
  let hostLen := leNat (payload.read p 2)
  offsets p 2 ++ offsets (p + 2) hostLen ++ offsets (p + 2 + hostLen) 2 ++
    offsets (p + 2 + hostLen + 2) 2

/-- The reader of an entry on the rest of a payload. -/
theorem readEndpoint_read (p : ℕ) :
    readEndpoint (payload.read p (len - p)) =
      if p + 2 ≤ len ∧ entryEnd payload p ≤ len then
        some (endpointAt payload p, payload.read (entryEnd payload p) (len - entryEnd payload p))
      else none := by
  rw [entryEnd, endpointAt]
  show (Reader.le 2 (payload.read p (len - p))).bind _ = _
  rw [Reader.le_read]
  by_cases hlen : p + 2 ≤ len
  · rw [if_pos (by omega)]
    generalize leNat (payload.read p 2) = hostLen
    show (Reader.need (hostLen + 4) (payload.read (p + 2) (len - p - 2))).bind _ = _
    rw [Reader.need, Memory.length_read]
    by_cases hentry : p + 2 + hostLen + 2 + 2 ≤ len
    · rw [if_pos (by omega), if_pos ⟨hlen, hentry⟩]
      show (Reader.take hostLen (payload.read (p + 2) (len - p - 2))).bind _ = _
      rw [Reader.take_read, if_pos (by omega)]
      show (Reader.le 2 (payload.read (p + 2 + hostLen) (len - p - 2 - hostLen))).bind _ = _
      rw [Reader.le_read, if_pos (by omega)]
      show (Reader.le 2 (payload.read (p + 2 + hostLen + 2) (len - p - 2 - hostLen - 2))).bind _ = _
      have hrest : len - p - 2 - hostLen - 2 - 2 = len - (p + 2 + hostLen + 2 + 2) := by omega
      rw [Reader.le_read, if_pos (by omega), hrest]
      rfl
    · rw [if_neg (by omega), if_neg fun h ↦ hentry h.2]
      rfl
  · rw [if_neg (by omega), if_neg fun h ↦ hlen h.1]
    rfl

theorem lt_of_mem_offsets {len p n off : ℕ} (h : p + n ≤ len) (hoff : off ∈ offsets p n) :
    off < len := by
  obtain ⟨i, hi, rfl⟩ := List.mem_map.mp hoff
  have := List.mem_range.mp hi
  omega

theorem lt_of_mem_entryOffsets {p off : ℕ} (h : entryEnd payload p ≤ len)
    (hoff : off ∈ entryOffsets payload p) : off < len := by
  have hend : p + 2 + leNat (payload.read p 2) + 2 + 2 ≤ len := h
  simp only [entryOffsets, List.mem_append] at hoff
  rcases hoff with ((hoff | hoff) | hoff) | hoff
  · exact lt_of_mem_offsets (by omega) hoff
  · exact lt_of_mem_offsets (by omega) hoff
  · exact lt_of_mem_offsets (by omega) hoff
  · exact lt_of_mem_offsets (by omega) hoff

/-- A round of the loop. -/
theorem decodeLoop_succ (i p : ℕ) (out : List NodeEndpoint) (log : List ℕ) :
    decodeLoop payload len (i + 1) p out log =
      if len < p + 2 then ((false, out), log)
      else if len < entryEnd payload p then ((false, out), log ++ offsets p 2)
      else decodeLoop payload len i (entryEnd payload p) (out ++ [endpointAt payload p])
        (log ++ entryOffsets payload p) := by
  rw [decodeLoop]
  by_cases hlen : len < p + 2
  · rw [if_pos hlen, if_pos hlen]
    rfl
  · rw [if_neg hlen, if_neg hlen]
    by_cases hentry : len < entryEnd payload p
    · have hcheck : len < p + 2 + leNat (payload.read p 2) + 2 * 2 := hentry
      rw [if_pos hentry]
      show (if len < p + 2 + leNat (payload.read p 2) + 2 * 2 then pure (false, out)
        else _ : Read (Bool × List NodeEndpoint)) (log ++ offsets p 2) = _
      rw [if_pos hcheck]
      rfl
    · have hcheck : ¬ len < p + 2 + leNat (payload.read p 2) + 2 * 2 := hentry
      rw [if_neg hentry]
      show (if len < p + 2 + leNat (payload.read p 2) + 2 * 2 then pure (false, out)
        else _ : Read (Bool × List NodeEndpoint)) (log ++ offsets p 2) = _
      rw [if_neg hcheck, entryOffsets]
      simp only [← List.append_assoc]
      rfl

/-- The loop reads nothing behind the end, and appends what a reader of entries finds. -/
theorem decodeLoop_spec (i p : ℕ) (out : List NodeEndpoint) (log : List ℕ) :
    (∃ reads, (decodeLoop payload len i p out log).2 = log ++ reads ∧ ∀ off ∈ reads, off < len) ∧
      match Reader.times readEndpoint i (payload.read p (len - p)) with
      | some (eps, _) => (decodeLoop payload len i p out log).1 = (true, out ++ eps)
      | none => (decodeLoop payload len i p out log).1.1 = false := by
  induction i generalizing p out log with
  | zero =>
      refine ⟨⟨[], (List.append_nil log).symm, List.forall_mem_nil _⟩, ?_⟩
      exact congrArg (Prod.mk true) (List.append_nil out).symm
  | succ i ih =>
      have htimes : Reader.times readEndpoint (i + 1) (payload.read p (len - p)) =
          (readEndpoint (payload.read p (len - p))).bind fun x ↦
            (Reader.times readEndpoint i x.2).bind fun y ↦ some (x.1 :: y.1, y.2) := rfl
      rw [htimes, readEndpoint_read, decodeLoop_succ]
      by_cases hlen : len < p + 2
      · rw [if_pos hlen, if_neg fun h ↦ by omega]
        exact ⟨⟨[], (List.append_nil log).symm, List.forall_mem_nil _⟩, rfl⟩
      rw [if_neg hlen]
      by_cases hentry : len < entryEnd payload p
      · rw [if_pos hentry, if_neg fun h ↦ by omega]
        exact ⟨⟨_, rfl, fun off ↦ lt_of_mem_offsets (not_lt.mp hlen)⟩, rfl⟩
      rw [if_neg hentry, if_pos ⟨not_lt.mp hlen, not_lt.mp hentry⟩, Option.bind_some]
      obtain ⟨⟨reads, hreads, hlt⟩, hresult⟩ := ih (entryEnd payload p)
        (out ++ [endpointAt payload p]) (log ++ entryOffsets payload p)
      constructor
      · refine ⟨entryOffsets payload p ++ reads, by rw [hreads, List.append_assoc],
          fun off hoff ↦ ?_⟩
        rcases List.mem_append.mp hoff with hoff | hoff
        · exact lt_of_mem_entryOffsets payload len (not_lt.mp hentry) hoff
        · exact hlt off hoff
      · rcases htail : Reader.times readEndpoint i
          (payload.read (entryEnd payload p) (len - entryEnd payload p)) with _ | ⟨eps, rest⟩
        · rw [htail] at hresult
          exact hresult
        · rw [htail] at hresult
          rw [Option.bind_some]
          exact hresult.trans (by rw [List.append_assoc]; rfl)

/-- The decoder reads nothing behind the end, and makes of a payload what `readTopology` makes
of it. -/
theorem decodePayload_spec (out : List NodeEndpoint) (log : List ℕ) :
    (∃ reads, (decodePayload payload len out log).2 = log ++ reads ∧ ∀ off ∈ reads, off < len) ∧
      match readTopology (payload.read 0 len) with
      | some (nodes, _) => (decodePayload payload len out log).1 = (true, nodes)
      | none => (decodePayload payload len out log).1.1 = false := by
  have htopology : readTopology (payload.read 0 len) =
      (Reader.le 2 (payload.read 0 len)).bind fun x ↦ Reader.times readEndpoint x.1 x.2 := rfl
  rw [htopology, Reader.le_read, decodePayload]
  by_cases hlen : len < 2
  · rw [if_pos hlen, if_neg (not_le.mpr hlen)]
    exact ⟨⟨[], (List.append_nil log).symm, List.forall_mem_nil _⟩, rfl⟩
  · rw [if_neg hlen, if_pos (not_lt.mp hlen), Option.bind_some]
    obtain ⟨⟨reads, hreads, hlt⟩, hresult⟩ := decodeLoop_spec payload len
      (leNat (payload.read 0 2)) 2 [] (log ++ offsets 0 2)
    refine ⟨⟨offsets 0 2 ++ reads, ?_, fun off hoff ↦ ?_⟩, hresult⟩
    · rw [← List.append_assoc]
      exact hreads
    · rcases List.mem_append.mp hoff with hoff | hoff
      · exact lt_of_mem_offsets (by omega) hoff
      · exact hlt off hoff

/-- The lists that have an encoding. -/
def Fits (nodes : List NodeEndpoint) : Prop :=
  nodes.length ≤ 65535 ∧ ∀ ep ∈ nodes, ep.host.length ≤ 65535

/-- What is accepted. -/
theorem decodePayload_eq_true (out : List NodeEndpoint) (log : List ℕ) (nodes : List NodeEndpoint) :
    (decodePayload payload len out log).1 = (true, nodes) ↔
      Fits nodes ∧ ∃ rest, payload.read 0 len = encodeTopology nodes ++ rest := by
  have hspec := (decodePayload_spec payload len out log).2
  have haccept : (∃ rest, readTopology (payload.read 0 len) = some (nodes, rest)) ↔
      Fits nodes ∧ ∃ rest, payload.read 0 len = encodeTopology nodes ++ rest := by
    have hfits : Fits nodes ↔
        nodes.length < 256 ^ 2 ∧ ∀ ep ∈ nodes, ep.host.length < 256 ^ 2 :=
      and_congr Nat.lt_succ_iff.symm (forall₂_congr fun _ _ ↦ Nat.lt_succ_iff.symm)
    rw [hfits, ← exists_and_left]
    exact exists_congr fun rest ↦ decodes_topology _ nodes rest
  rw [← haccept]
  rcases hread : readTopology (payload.read 0 len) with _ | ⟨nodes', rest⟩
  · rw [hread] at hspec
    refine iff_of_false (fun h ↦ ?_) (by rintro ⟨rest, ⟨⟩⟩)
    rw [h] at hspec
    cases hspec
  · rw [hread] at hspec
    rw [hspec]
    constructor
    · rintro ⟨⟩
      exact ⟨rest, rfl⟩
    · rintro ⟨rest', ⟨⟩⟩
      rfl

/-- An accepted payload announces what is returned. -/
theorem length_of_decodePayload {out : List NodeEndpoint} {log : List ℕ} {nodes : List NodeEndpoint}
    (h : (decodePayload payload len out log).1 = (true, nodes)) :
    nodes.length = leNat (payload.read 0 2) := by
  obtain ⟨⟨hcount, -⟩, rest, hpayload⟩ := (decodePayload_eq_true payload len out log nodes).mp h
  have hlen : 2 ≤ len := by
    have := congrArg List.length hpayload
    simp only [Memory.length_read, encodeTopology, List.length_append, length_leBytes] at this
    omega
  -- The count takes the first two bytes.
  rw [← Nat.add_sub_cancel' hlen, Memory.read_add, encodeTopology, List.append_assoc] at hpayload
  rw [List.append_inj_left hpayload (by simp), leNat_leBytes, Nat.mod_eq_of_lt (by omega)]

end

end TopologyManager

/-! ## The round trip -/

namespace MemberList

variable {m : MemberList}

/-- The alive members, in the order of the table. -/
def aliveEntries (m : MemberList) : List (Σ _ : NodeId, NodeInfo) :=
  m.nodes.entries.filter fun e ↦ e.2.state = .alive

/-- Their endpoints. -/
def aliveEndpoints (m : MemberList) : List NodeEndpoint :=
  m.aliveEntries.map fun e ↦ ⟨e.1.host, e.1.gossipPort, e.2.dataPort⟩

theorem fits_aliveEndpoints (hcount : m.aliveEntries.length ≤ 65535)
    (hhosts : ∀ e ∈ m.aliveEntries, e.1.host.length ≤ 65535) :
    TopologyManager.Fits m.aliveEndpoints := by
  refine ⟨by rwa [aliveEndpoints, List.length_map], fun ep hep ↦ ?_⟩
  obtain ⟨e, he, rfl⟩ := List.mem_map.mp hep
  exact hhosts e he

/-- What a server answers is the encoding of the endpoints. -/
theorem serveClusterInfo_encode (hcount : m.aliveEntries.length ≤ 65535)
    (hhosts : ∀ e ∈ m.aliveEntries, e.1.host.length ≤ 65535) :
    Coordinator.serveClusterInfo m = ⟨.ok, TopologyManager.encodeTopology m.aliveEndpoints⟩ := by
  have hencode : ∀ e ∈ m.aliveEntries, Coordinator.encodeMember e.1 e.2 =
      TopologyManager.encodeEndpoint ⟨e.1.host, e.1.gossipPort, e.2.dataPort⟩ := by
    intro e he
    have hhost := hhosts e he
    rw [Coordinator.encodeMember, TopologyManager.encodeEndpoint, Nat.mod_eq_of_lt (by omega),
      List.take_length]
  rw [Coordinator.serveClusterInfo]
  show Response.mk .ok (leBytes 2 (m.aliveEntries.length % 65536) ++
    m.aliveEntries.flatMap fun e ↦ Coordinator.encodeMember e.1 e.2) = _
  rw [Nat.mod_eq_of_lt (by omega), TopologyManager.encodeTopology, aliveEndpoints,
    List.length_map, List.flatMap_map, List.flatMap_congr hencode]

/-- **The codec of `ClusterInfo`.**  What a server writes is decoded to the alive members, in the
order of its table.  Whatever it is given, the decoder reads inside the payload only, and it
accepts what begins with the encoding of a list, which it returns, with as many endpoints as the
count announces. -/
theorem clusterInfo_codec :
    (∀ m : MemberList, m.aliveEntries.length ≤ 65535 →
      (∀ e ∈ m.aliveEntries, e.1.host.length ≤ 65535) → ∀ out,
      (TopologyManager.decodePayload (dataOf (Coordinator.fillClusterInfo m))
        (Coordinator.fillClusterInfo m).length out []).1 = (true, m.aliveEndpoints)) ∧
    ∀ (payload : Memory) (len : ℕ) (out : List NodeEndpoint),
      (∀ off ∈ (TopologyManager.decodePayload payload len out []).2, off < len) ∧
      (∀ nodes, (TopologyManager.decodePayload payload len out []).1 = (true, nodes) →
        nodes.length = leNat (payload.read 0 2)) ∧
      ∀ nodes, (TopologyManager.decodePayload payload len out []).1 = (true, nodes) ↔
        TopologyManager.Fits nodes ∧
          ∃ rest, payload.read 0 len = TopologyManager.encodeTopology nodes ++ rest := by
  constructor
  · intro m hcount hhosts out
    rw [TopologyManager.decodePayload_eq_true, read_dataOf, Coordinator.fillClusterInfo_eq,
      serveClusterInfo_encode hcount hhosts]
    exact ⟨fits_aliveEndpoints hcount hhosts, [], (List.append_nil _).symm⟩
  · intro payload len out
    refine ⟨?_, fun _ ↦ TopologyManager.length_of_decodePayload payload len,
      TopologyManager.decodePayload_eq_true payload len out []⟩
    obtain ⟨⟨reads, hreads, hlt⟩, -⟩ := TopologyManager.decodePayload_spec payload len out []
    rw [hreads]
    exact hlt

/-- A dead member is not listed. -/
theorem clusterInfo_codec_dead :
    let table := (empty.record ⟨[97], 1⟩ ⟨⟨[97], 1⟩, 7, .alive, 0, 0⟩).record ⟨[98], 2⟩
      ⟨⟨[98], 2⟩, 8, .dead, 0, 0⟩
    (TopologyManager.decodePayload (dataOf (Coordinator.fillClusterInfo table))
      (Coordinator.fillClusterInfo table).length [] []).1 = (true, [⟨[97], 1, 7⟩]) :=
  clusterInfo_codec.1 _ (by decide) (by decide) []

end MemberList

end Pensieve
