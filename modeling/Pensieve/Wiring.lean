import Pensieve.Coordinator.Coordinator
import Pensieve.Membership.Placement

/-!
# The ring and the member table

`main` keeps the ring in step with the member table by a callback: a member that becomes
alive is added, one that dies or leaves is removed.  A member that becomes suspect is left
as it is.

Whoever is on the ring is then a member that is alive or suspect (`owners_are_members`).
The converse holds as long as nobody becomes suspect who is not on the ring
(`ring_in_step_iff`): a member that was declared dead and is next heard of as a suspect
stays off the ring (`suspect_off_the_ring`).
-/

namespace Pensieve

open Foundation

/-- The callback that `main` installs. -/
def onChange (ring : Ring) (id : NodeId) (info : NodeInfo) : Ring :=
  if info.state = .alive then RingStore.addNode ring id
  else if info.state = .dead || info.state = .left then RingStore.removeNode ring id
  else ring

/-- Alive or suspect. -/
def NodeState.isPresent : NodeState → Bool
  | .alive => true
  | .suspect => true
  | .dead => false
  | .left => false

theorem NodeState.isPresent_iff {s : NodeState} :
    s.isPresent = true ↔ s = .alive ∨ s = .suspect := by
  cases s <;> decide

namespace MemberList

/-- The ring that the calls of the callback have led to. -/
def ring (m : MemberList) : Ring :=
  m.changes.foldl (fun ring x ↦ onChange ring x.1 x.2) SortedMap.empty

/-- Calls that change the table. -/
inductive Call where
  | addNode (info : NodeInfo)
  | updateState (id : NodeId) (newState : NodeState) (incarnation : UInt64) (now : Time)
  | removeNode (id : NodeId) (now : Time)

/-- The node that a call is about. -/
def Call.id : Call → NodeId
  | .addNode info => info.id
  | .updateState id _ _ _ => id
  | .removeNode id _ => id

/-- The table after a call. -/
def call (m : MemberList) : Call → MemberList
  | .addNode info => (m.addNode info).1
  | .updateState id newState incarnation now => (m.updateState id newState incarnation now).1
  | .removeNode id now => (m.removeNode id now).1

/-- The table after a sequence of calls. -/
def after (calls : List Call) : MemberList := calls.foldl call empty

theorem after_concat (calls : List Call) (c : Call) :
    after (calls ++ [c]) = (after calls).call c := by
  rw [after, List.foldl_append]
  rfl

/-! ## What a call does to the ring -/

variable {m : MemberList} {id : NodeId} {info : NodeInfo}

theorem ring_record (m : MemberList) (id : NodeId) (info : NodeInfo) :
    (m.record id info).ring = onChange m.ring id info := by
  have hlookup : (m.nodes.insert id info).lookup id = some info := AList.lookup_insert _
  simp [record, notify, hlookup, ring, List.foldl_append]

/-- A member that is known is removed from the ring when it is removed from the table. -/
theorem ring_removeNode {e : NodeInfo} {now : Time} (he : m.getNode id = some e) :
    (m.removeNode id now).1.ring = RingStore.removeNode m.ring id := by
  rw [getNode] at he
  simp [removeNode, he, ring, List.foldl_append, onChange]

/-- The call reports a suspect that is unknown, dead or gone, and the report counts. -/
def entersSuspect (m : MemberList) : Call → Bool
  | .addNode info =>
    info.state = .suspect && match m.getNode info.id with
      | none => true
      | some e => !e.state.isPresent && decide (e.rank < info.rank)
  | .updateState id newState incarnation _ =>
    newState = .suspect && match m.getNode id with
      | none => false
      | some e => !e.state.isPresent && decide (e.rank < toLex (incarnation, newState))
  | .removeNode _ _ => false

/-- What a call can do: nothing, write an entry, or remove one. -/
theorem call_cases (m : MemberList) (c : Call) :
    (m.call c = m ∧ m.entersSuspect c = false) ∨
    (∃ info, m.call c = m.record c.id info ∧
      (m.entersSuspect c = true ↔ info.state = .suspect ∧
        ∀ e, m.getNode c.id = some e → e.state.isPresent = false)) ∨
    ∃ id now e, m.getNode id = some e ∧ c = .removeNode id now := by
  cases c with
  | addNode info =>
      simp only [call, Call.id, entersSuspect]
      rcases he : m.getNode info.id with - | e
      · refine Or.inr (Or.inl ⟨info, addNode_of_lt ?_, by simp⟩)
        rw [he]
        exact fun e h ↦ nomatch h
      · by_cases hlt : e.rank < info.rank
        · refine Or.inr (Or.inl ⟨info, addNode_of_lt ?_, by simp [hlt]⟩)
          rintro e' he'
          cases he.symm.trans he'
          exact hlt
        · exact Or.inl ⟨addNode_of_not_lt he hlt, by simp [hlt]⟩
  | updateState id newState incarnation now =>
      simp only [call, Call.id, entersSuspect]
      rcases he : m.getNode id with - | e
      · refine Or.inl ⟨updateState_of_not_lt ?_, by simp⟩
        rw [he]
        exact fun e h ↦ nomatch h
      · by_cases hlt : e.rank < toLex (incarnation, newState)
        · exact Or.inr (Or.inl ⟨_, updateState_of_lt he hlt, by simp [hlt]⟩)
        · refine Or.inl ⟨updateState_of_not_lt ?_, by simp [hlt]⟩
          rintro e' he'
          cases he.symm.trans he'
          exact hlt
  | removeNode id now =>
      rcases he : m.getNode id with - | e
      · have hlookup : m.nodes.lookup id = none := he
        exact Or.inl ⟨by simp [call, removeNode, hlookup], rfl⟩
      · exact Or.inr (Or.inr ⟨id, now, e, he, rfl⟩)

/-! ## The invariants -/

/-- Whoever is on the ring is present, and is there at tokens of its own. -/
structure RingInv (m : MemberList) : Prop where
  present : ∀ x ∈ m.ring.entries, ∃ e, m.getNode x.2 = some e ∧ e.state.isPresent = true
  belongs : ∀ x ∈ m.ring.entries, x.1 ∈ RingStore.tokensOf x.2 RingStore.kDefaultVnodes

/-- What the callback leaves on the ring: what it has just put there, or what was there
and is not of a member that has just gone. -/
theorem mem_onChange {ring : Ring} {x : UInt32 × NodeId} (h : x ∈ (onChange ring id info).entries) :
    (info.state = .alive ∧ x.2 = id ∧
      x.1 ∈ RingStore.tokensOf id RingStore.kDefaultVnodes) ∨
    (x ∈ ring.entries ∧ (x.2 = id → info.state.isPresent = true)) := by
  rw [onChange] at h
  split_ifs at h with halive hgone
  · rcases RingStore.mem_addTokens.mp h with ⟨htoken, hnode⟩ | ⟨-, hmem⟩
    · exact Or.inl ⟨halive, hnode, htoken⟩
    · exact Or.inr ⟨hmem, fun _ ↦ by rw [halive]; rfl⟩
  · obtain ⟨hmem, hne⟩ := RingStore.mem_removeNode.mp h
    exact Or.inr ⟨hmem, fun hnode ↦ absurd hnode hne⟩
  · refine Or.inr ⟨h, fun _ ↦ ?_⟩
    revert halive hgone
    cases info.state <;> decide

theorem RingInv.record (h : m.RingInv) (id : NodeId) (info : NodeInfo) :
    (m.record id info).RingInv := by
  constructor
  · intro x hx
    rw [ring_record] at hx
    by_cases hid : x.2 = id
    · refine ⟨info, by rw [hid]; exact getNode_record_self m id info, ?_⟩
      rcases mem_onChange hx with ⟨halive, -⟩ | ⟨-, hpresent⟩
      · rw [halive]
        rfl
      · exact hpresent hid
    · rcases mem_onChange hx with ⟨-, hnode, -⟩ | ⟨hmem, -⟩
      · exact absurd hnode hid
      · rw [getNode_record_of_ne hid]
        exact h.present x hmem
  · intro x hx
    rw [ring_record] at hx
    rcases mem_onChange hx with ⟨-, hnode, htoken⟩ | ⟨hmem, -⟩
    · rw [hnode]
      exact htoken
    · exact h.belongs x hmem

theorem RingInv.removeNode (h : m.RingInv) {e : NodeInfo} (he : m.getNode id = some e)
    (now : Time) : (m.removeNode id now).1.RingInv := by
  constructor
  · intro x hx
    rw [ring_removeNode he, RingStore.mem_removeNode] at hx
    rw [getNode_removeNode, if_neg hx.2]
    exact h.present x hx.1
  · intro x hx
    rw [ring_removeNode he, RingStore.mem_removeNode] at hx
    exact h.belongs x hx.1

theorem ringInv_after (calls : List Call) : (after calls).RingInv := by
  induction calls using List.reverseRecOn with
  | nil => exact ⟨(fun _ hx ↦ nomatch hx), fun _ hx ↦ nomatch hx⟩
  | append_singleton calls c ih =>
      rw [after_concat]
      rcases call_cases (after calls) c with ⟨hcall, -⟩ | ⟨info, hcall, -⟩ | ⟨id, now, e, he, rfl⟩
      · rwa [hcall]
      · rw [hcall]
        exact ih.record c.id info
      · exact ih.removeNode he now

/-- **Requests are not routed to departed nodes.**  After any sequence of calls, whoever
is on the ring is in the table and alive or suspect.  So is every owner of a hash, and the
owner to whom a coordinator proxies a request is found in the table. -/
theorem owners_are_members (calls : List Call) :
    (∀ x ∈ (after calls).ring.entries, ∃ e, (after calls).getNode x.2 = some e ∧
      (e.state = .alive ∨ e.state = .suspect)) ∧
    (∀ hash owner, RingStore.getNodeForKey (after calls).ring hash = some owner →
      ∃ e, (after calls).getNode owner = some e ∧ (e.state = .alive ∨ e.state = .suspect)) ∧
    ∀ (C W : Type) (n : ℕ) (s : Coordinator C n W) (key : Bytes) (owner : NodeId)
      (address : Option Address), s.ring = (after calls).ring → s.members = after calls →
      s.route key = .remote owner address →
      ∃ e, (after calls).getNode owner = some e ∧ address = some (owner.host, e.dataPort) := by
  have hring : ∀ x ∈ (after calls).ring.entries, ∃ e, (after calls).getNode x.2 = some e ∧
      (e.state = .alive ∨ e.state = .suspect) := by
    intro x hx
    obtain ⟨e, he, hpresent⟩ := (ringInv_after calls).present x hx
    exact ⟨e, he, NodeState.isPresent_iff.mp hpresent⟩
  have howner : ∀ hash owner, RingStore.getNodeForKey (after calls).ring hash = some owner →
      ∃ e, (after calls).getNode owner = some e ∧ (e.state = .alive ∨ e.state = .suspect) := by
    intro hash owner h
    obtain ⟨token, hmem, -⟩ := RingStore.getNodeForKey_eq_some h
    exact hring _ hmem
  refine ⟨hring, howner, fun C W n s key owner address hsring hsmembers hroute ↦ ?_⟩
  obtain ⟨⟨hforward, -⟩, haddress⟩ := Coordinator.route_eq_remote hroute
  rw [hsring] at hforward
  rw [hsmembers] at haddress
  obtain ⟨e, he, -⟩ := howner _ _ hforward
  rw [he] at haddress
  exact ⟨e, he, haddress⟩

/-! ## Members that are missing from the ring -/

/-- Everybody who is present has all tokens on the ring. -/
def Full (m : MemberList) : Prop :=
  ∀ id e, m.getNode id = some e → e.state.isPresent = true →
    ∀ token ∈ RingStore.tokensOf id RingStore.kDefaultVnodes, (token, id) ∈ m.ring.entries

/-- No two of the nodes have a token in common. -/
def TokensDisjoint (nodes : Set NodeId) : Prop :=
  RingStore.Apart (fun id ↦ RingStore.tokensOf id RingStore.kDefaultVnodes) nodes

/-- The table mentions no other nodes. -/
def Among (nodes : Set NodeId) (m : MemberList) : Prop :=
  ∀ id e, m.getNode id = some e → id ∈ nodes

theorem Among.record {nodes : Set NodeId} (h : m.Among nodes) (hid : id ∈ nodes)
    (info : NodeInfo) : (m.record id info).Among nodes := by
  intro id' e he
  by_cases hne : id' = id
  · rwa [hne]
  · rw [getNode_record_of_ne hne] at he
    exact h id' e he

/-- A report keeps the ring complete unless it makes somebody suspect who is not on it. -/
theorem Full.record {nodes : Set NodeId} (hdisjoint : TokensDisjoint nodes) (h : m.Full)
    (hamong : m.Among nodes) (hid : id ∈ nodes)
    (hsuspect : info.state = .suspect → ∃ e, m.getNode id = some e ∧ e.state.isPresent = true) :
    (m.record id info).Full := by
  intro id' e he hpresent token htoken
  rw [ring_record, onChange]
  by_cases hne : id' = id
  · subst hne
    rw [getNode_record_self] at he
    cases he
    split_ifs with halive hgone
    · exact RingStore.mem_addTokens.mpr (Or.inl ⟨htoken, rfl⟩)
    · exact absurd hpresent (by revert hgone; cases info.state <;> decide)
    · have hs : info.state = .suspect := by
        revert halive hgone hpresent
        cases info.state <;> decide
      obtain ⟨e₀, he₀, hpresent₀⟩ := hsuspect hs
      exact h id' e₀ he₀ hpresent₀ token htoken
  · rw [getNode_record_of_ne hne] at he
    have hmem := h id' e he hpresent token htoken
    split_ifs
    · refine RingStore.mem_addTokens.mpr (Or.inr ⟨fun hother ↦ ?_, hmem⟩)
      exact hdisjoint id' (hamong id' e he) id hid hne htoken hother
    · exact RingStore.mem_removeNode.mpr ⟨hmem, hne⟩
    · exact hmem

theorem Full.removeNode (h : m.Full) {e : NodeInfo} (he : m.getNode id = some e) (now : Time) :
    (m.removeNode id now).1.Full := by
  intro id' e' he' hpresent token htoken
  rw [getNode_removeNode] at he'
  split_ifs at he' with hne
  rw [ring_removeNode he]
  exact RingStore.mem_removeNode.mpr ⟨h id' e' he' hpresent token htoken, hne⟩

/-- A suspect that was not on the ring is not put there. -/
theorem RingInv.not_full_of_suspect (h : m.RingInv) (hsuspect : info.state = .suspect)
    (habsent : ∀ e, m.getNode id = some e → e.state.isPresent = false) :
    ¬ (m.record id info).Full := by
  intro hfull
  have htoken : hashNodeToken id 0 ∈ RingStore.tokensOf id RingStore.kDefaultVnodes :=
    List.mem_map_of_mem (List.mem_range.mpr (by decide))
  have hmem := hfull id info (getNode_record_self m id info) (by rw [hsuspect]; rfl) _ htoken
  rw [ring_record, onChange, if_neg (by rw [hsuspect]; decide),
    if_neg (by rw [hsuspect]; decide)] at hmem
  obtain ⟨e, he, hpresent⟩ := h.present _ hmem
  rw [habsent e he] at hpresent
  cases hpresent

theorem among_after {nodes : Set NodeId} {calls : List Call} (h : ∀ c ∈ calls, c.id ∈ nodes) :
    (after calls).Among nodes := by
  induction calls using List.reverseRecOn with
  | nil => exact fun _ _ he ↦ nomatch he
  | append_singleton calls c ih =>
      have hprev := ih fun d hd ↦ h d (List.mem_append_left _ hd)
      rw [after_concat]
      rcases call_cases (after calls) c with ⟨hcall, -⟩ | ⟨info, hcall, -⟩ | ⟨id, now, e, he, rfl⟩
      · rwa [hcall]
      · rw [hcall]
        exact hprev.record (h c (by simp)) info
      · intro id' e' he'
        rw [call, getNode_removeNode] at he'
        split_ifs at he'
        exact hprev id' e' he'

/-- The next call keeps the ring complete exactly if it does not report a suspect that is
not on the ring. -/
theorem full_call_iff {nodes : Set NodeId} (hdisjoint : TokensDisjoint nodes) {calls : List Call}
    {c : Call} (hcalls : ∀ d ∈ calls ++ [c], d.id ∈ nodes) (h : (after calls).Full) :
    (after (calls ++ [c])).Full ↔ (after calls).entersSuspect c = false := by
  have hamong := among_after fun d hd ↦ hcalls d (List.mem_append_left _ hd)
  rw [after_concat]
  rcases call_cases (after calls) c with
    ⟨hcall, henters⟩ | ⟨info, hcall, henters⟩ | ⟨id, now, e, he, rfl⟩
  · rw [hcall, henters]
    exact iff_of_true h rfl
  · rw [hcall]
    constructor
    · intro hfull
      by_contra hsuspect
      obtain ⟨hstate, habsent⟩ := henters.mp (by simpa using hsuspect)
      exact (ringInv_after calls).not_full_of_suspect hstate habsent hfull
    · intro hsuspect
      refine h.record hdisjoint hamong (hcalls c (by simp)) fun hstate ↦ ?_
      by_contra! habsent
      rw [henters.mpr ⟨hstate, fun e he ↦ by simpa using habsent e he⟩] at hsuspect
      cases hsuspect
  · exact iff_of_true (h.removeNode he now) rfl

/-- The calls never report a suspect that is not on the ring at that time. -/
def NeverEntersSuspect (calls : List Call) : Prop :=
  ∀ before c, before ++ [c] <+: calls → (after before).entersSuspect c = false

theorem neverEntersSuspect_nil : NeverEntersSuspect [] :=
  fun before c h ↦ absurd (List.prefix_nil.mp h) (List.append_ne_nil_of_right_ne_nil _ (by simp))

theorem neverEntersSuspect_concat {calls : List Call} {c : Call} :
    NeverEntersSuspect (calls ++ [c]) ↔
      NeverEntersSuspect calls ∧ (after calls).entersSuspect c = false := by
  constructor
  · exact fun h ↦ ⟨fun before d hd ↦ h before d (hd.trans (List.prefix_append calls [c])),
      h calls c List.prefix_rfl⟩
  · rintro ⟨h, hc⟩ before d hd
    rcases List.prefix_concat_iff.mp hd with heq | hd
    · obtain ⟨rfl, hlast⟩ := List.append_inj' heq rfl
      cases hlast
      exact hc
    · exact h before d hd

theorem full_of_neverEntersSuspect {nodes : Set NodeId} (hdisjoint : TokensDisjoint nodes)
    {calls : List Call} (hcalls : ∀ c ∈ calls, c.id ∈ nodes) (h : NeverEntersSuspect calls) :
    (after calls).Full := by
  induction calls using List.reverseRecOn with
  | nil => exact fun _ _ he ↦ nomatch he
  | append_singleton calls c ih =>
      obtain ⟨hbefore, hc⟩ := neverEntersSuspect_concat.mp h
      refine (full_call_iff hdisjoint hcalls ?_).mpr hc
      exact ih (fun d hd ↦ hcalls d (List.mem_append_left _ hd)) hbefore

/-- A complete ring is determined by the states in the table. -/
theorem mem_ring_iff (hinv : m.RingInv) (hfull : m.Full) (x : UInt32 × NodeId) :
    x ∈ m.ring.entries ↔ x.1 ∈ RingStore.tokensOf x.2 RingStore.kDefaultVnodes ∧
      ∃ state, (m.getNode x.2).map NodeInfo.state = some state ∧ state.isPresent = true := by
  constructor
  · intro hx
    obtain ⟨e, he, hpresent⟩ := hinv.present x hx
    exact ⟨hinv.belongs x hx, e.state, by rw [he]; rfl, hpresent⟩
  · rintro ⟨htoken, state, hstate, hpresent⟩
    obtain ⟨e, he, rfl⟩ := Option.map_eq_some_iff.mp hstate
    exact hfull x.2 e he hpresent x.1 htoken

/-- **The ring is in step with the table.**  Among nodes with no token in common, everybody
who is alive or suspect has all tokens on the ring throughout a sequence of calls exactly
if no call makes somebody suspect who is unknown, dead or gone at that time.  After such
calls, nodes whose tables have the same members in the same states have equal rings. -/
theorem ring_in_step_iff (nodes : Set NodeId) (hdisjoint : TokensDisjoint nodes)
    (calls : List Call) (hcalls : ∀ c ∈ calls, c.id ∈ nodes) :
    ((∀ before, before <+: calls → ∀ id e, (after before).getNode id = some e →
        e.state = .alive ∨ e.state = .suspect →
        ∀ token ∈ RingStore.tokensOf id RingStore.kDefaultVnodes,
          (token, id) ∈ (after before).ring.entries) ↔
      NeverEntersSuspect calls) ∧
    ∀ calls' : List Call, (∀ c ∈ calls', c.id ∈ nodes) →
      NeverEntersSuspect calls → NeverEntersSuspect calls' →
      (∀ id, ((after calls).getNode id).map NodeInfo.state =
        ((after calls').getNode id).map NodeInfo.state) →
      (after calls).ring = (after calls').ring := by
  have hof : ∀ {before}, before <+: calls → ∀ c ∈ before, c.id ∈ nodes :=
    fun hbefore c hc ↦ hcalls c (hbefore.subset hc)
  refine ⟨⟨fun h before c hc ↦ ?_, fun h before hbefore id e he hpresent ↦ ?_⟩, ?_⟩
  · have hfull : ∀ {before}, before <+: calls → (after before).Full :=
      fun hbefore id e he hpresent ↦ h _ hbefore id e he (NodeState.isPresent_iff.mp hpresent)
    exact (full_call_iff hdisjoint (hof hc) (hfull ((List.prefix_append before [c]).trans hc))).mp
      (hfull hc)
  · exact full_of_neverEntersSuspect hdisjoint (hof hbefore)
      (fun _ _ hd ↦ h _ _ (hd.trans hbefore)) id e he (NodeState.isPresent_iff.mpr hpresent)
  · intro calls' hcalls' h h' heq
    refine SortedMap.ext_of_mem fun x ↦ ?_
    rw [mem_ring_iff (ringInv_after _) (full_of_neverEntersSuspect hdisjoint hcalls h),
      mem_ring_iff (ringInv_after _) (full_of_neverEntersSuspect hdisjoint hcalls' h'), heq]

/-- A node that listens for gossip on port 7946. -/
def joined (host : Bytes) : NodeInfo :=
  { id := ⟨host, 7946⟩, dataPort := 11211, state := .alive, incarnation := 0
    lastStateChange := 0 }

theorem tokensDisjoint_joined : TokensDisjoint {(joined [97]).id, (joined [98]).id} := by
  have hall : ((RingStore.tokensOf (joined [97]).id RingStore.kDefaultVnodes).all fun t ↦
      (RingStore.tokensOf (joined [98]).id RingStore.kDefaultVnodes).all fun u ↦
        !(t.toNat == u.toNat)) = true := by
    decide +kernel
  have hab : ∀ token ∈ RingStore.tokensOf (joined [97]).id RingStore.kDefaultVnodes,
      token ∉ RingStore.tokensOf (joined [98]).id RingStore.kDefaultVnodes := by
    intro token ha hb
    have hne := List.all_eq_true.mp (List.all_eq_true.mp hall token ha) token hb
    simp at hne
  rintro a (rfl | rfl) b (rfl | rfl) hne
  · exact absurd rfl hne
  · exact hab
  · exact fun token hb ha ↦ hab token ha hb
  · exact absurd rfl hne

/-- `a` joins and becomes suspect, in one order with `b` and in the other. -/
theorem ring_in_step_iff_joined :
    (∀ token ∈ RingStore.tokensOf (joined [97]).id RingStore.kDefaultVnodes,
      (token, (joined [97]).id) ∈ (after [.addNode (joined [97]), .addNode (joined [98]),
        .updateState (joined [97]).id .suspect 0 5]).ring.entries) ∧
    (after [.addNode (joined [97]), .addNode (joined [98]),
      .updateState (joined [97]).id .suspect 0 5]).ring =
    (after [.addNode (joined [98]), .addNode (joined [97]),
      .updateState (joined [97]).id .suspect 0 5]).ring := by
  have hnever : ∀ {c d e : Call}, (empty.entersSuspect c = false) →
      (after [c]).entersSuspect d = false → (after [c, d]).entersSuspect e = false →
      NeverEntersSuspect [c, d, e] := by
    intro c d e hc hd he
    have h₁ : NeverEntersSuspect ([] ++ [c]) :=
      neverEntersSuspect_concat.mpr ⟨neverEntersSuspect_nil, hc⟩
    have h₂ : NeverEntersSuspect ([c] ++ [d]) := neverEntersSuspect_concat.mpr ⟨h₁, hd⟩
    exact neverEntersSuspect_concat.mpr ⟨h₂, he⟩
  have h := hnever (c := .addNode (joined [97])) (d := .addNode (joined [98]))
    (e := .updateState (joined [97]).id .suspect 0 5) (by decide) (by decide) (by decide)
  obtain ⟨hiff, hequal⟩ := ring_in_step_iff _ tokensDisjoint_joined
    [.addNode (joined [97]), .addNode (joined [98]), .updateState (joined [97]).id .suspect 0 5]
    (by simp [Call.id])
  refine ⟨hiff.mpr h _ List.prefix_rfl _ _ rfl (Or.inr rfl), hequal _ (by simp [Call.id]) h ?_ ?_⟩
  · exact hnever (by decide) (by decide) (by decide)
  · exact fun _ ↦ rfl

/-- A member that was declared dead is next heard of as a suspect.  Its table is that of a
node which did not hear of the death, but there the member is on the ring. -/
theorem suspect_off_the_ring :
    TokensDisjoint {(joined [97]).id} ∧
    (after [.addNode (joined [97]), .updateState (joined [97]).id .dead 0 5,
      .updateState (joined [97]).id .suspect 1 9]).nodes =
    (after [.addNode (joined [97]), .updateState (joined [97]).id .suspect 1 9]).nodes ∧
    ((after [.addNode (joined [97]), .updateState (joined [97]).id .dead 0 5,
      .updateState (joined [97]).id .suspect 1 9]).getNode (joined [97]).id).map
        NodeInfo.state = some .suspect ∧
    ∀ token ∈ RingStore.tokensOf (joined [97]).id RingStore.kDefaultVnodes,
      (token, (joined [97]).id) ∉ (after [.addNode (joined [97]),
        .updateState (joined [97]).id .dead 0 5,
        .updateState (joined [97]).id .suspect 1 9]).ring.entries ∧
      (token, (joined [97]).id) ∈ (after [.addNode (joined [97]),
        .updateState (joined [97]).id .suspect 1 9]).ring.entries := by
  have hdisjoint : TokensDisjoint {(joined [97]).id} := by
    rintro a rfl b rfl hne
    exact absurd rfl hne
  refine ⟨hdisjoint, rfl, rfl, fun token htoken ↦ ⟨fun hmem ↦ ?_, ?_⟩⟩
  · -- the member was off the ring when it was dead, and nothing has changed since
    have hdead : (after [.addNode (joined [97]), .updateState (joined [97]).id .dead 0 5]).getNode
        (joined [97]).id = some { joined [97] with state := .dead, lastStateChange := 5 } := rfl
    have hlast := after_concat [.addNode (joined [97]), .updateState (joined [97]).id .dead 0 5]
      (.updateState (joined [97]).id .suspect 1 9)
    rw [call, updateState_of_lt hdead (by decide)] at hlast
    rw [show (after [_, _, _]).ring = _ from congrArg ring hlast, ring_record, onChange,
      if_neg (by decide), if_neg (by decide)] at hmem
    obtain ⟨e, he, hpresent⟩ := (ringInv_after _).present _ hmem
    cases hdead.symm.trans he
    cases hpresent
  · have hfirst : NeverEntersSuspect ([] ++ [.addNode (joined [97])]) :=
      neverEntersSuspect_concat.mpr ⟨neverEntersSuspect_nil, rfl⟩
    have hnever : NeverEntersSuspect ([.addNode (joined [97])] ++
        [.updateState (joined [97]).id .suspect 1 9]) :=
      neverEntersSuspect_concat.mpr ⟨hfirst, rfl⟩
    exact full_of_neverEntersSuspect hdisjoint (by simp [Call.id]) hnever _ _ rfl rfl token htoken

end MemberList

end Pensieve
