import Pensieve.Membership.Change

/-!
# The suspicion timer

The reaper goes by `last_state_change`.  Whatever a step does to an entry, it either leaves it
as it is or stamps it with the time of the step (`MemberList.Stamped`), so the stamp of an entry
is the time at which the entry became what it is: since then, nothing has happened to it
(`Timeline.recorded`).  A member that is declared dead has therefore been suspect for the whole
of the timeout.

A timeline is a run of a node under a clock that does not go back, together with all the states
the node has been in and the times since when (`Timeline`).
-/

namespace Pensieve

open Foundation

/-- Every entry is as it was, or has been stamped. -/
def MemberList.Stamped (now : Time) (m m' : MemberList) : Prop :=
  ∀ id e, m'.getNode id = some e → m.getNode id = some e ∨ e.lastStateChange = now

namespace MemberList

variable {m m' m'' : MemberList} {now : Time}

theorem Stamped.refl (now : Time) (m : MemberList) : m.Stamped now m := fun _ _ he ↦ Or.inl he

theorem Stamped.trans (h : m.Stamped now m') (h' : m'.Stamped now m'') : m.Stamped now m'' := by
  intro id e he
  rcases h' id e he with he' | hnow
  · exact h id e he'
  · exact Or.inr hnow

theorem stamped_addNode (m : MemberList) {info : NodeInfo} (hinfo : info.lastStateChange = now) :
    m.Stamped now (m.addNode info).1 := by
  intro id e he
  by_cases hid : id = info.id
  · subst hid
    rw [getNode_addNode, Option.some.injEq] at he
    split at he
    · rename_i e₀ he₀
      split_ifs at he with hlt
      · exact Or.inr (he ▸ hinfo)
      · exact Or.inl (he ▸ he₀)
    · exact Or.inr (he ▸ hinfo)
  · exact Or.inl (by rwa [getNode_addNode_of_ne hid] at he)

theorem stamped_updateState (m : MemberList) (id : NodeId) (newState : NodeState)
    (incarnation : UInt64) (now : Time) :
    m.Stamped now (m.updateState id newState incarnation now).1 := by
  intro id' e he
  by_cases hid : id' = id
  · subst hid
    rw [getNode_updateState] at he
    obtain ⟨e₀, he₀, heq⟩ := Option.map_eq_some_iff.mp he
    split_ifs at heq with hlt
    · exact Or.inr (by rw [← heq])
    · exact Or.inl (heq ▸ he₀)
  · exact Or.inl (by rwa [getNode_updateState_of_ne hid] at he)

end MemberList

namespace SwimProtocol

open MemberList

variable {p p' : SwimProtocol} {sort : SortByCount} {now : Time}

/-! ## What a step does to the entries -/

theorem stamped_applyUpdate (p : SwimProtocol) (now : Time) (u : MembershipUpdate) :
    p.members.Stamped now (p.applyUpdate now u).members := by
  rw [applyUpdate]
  split_ifs
  · exact stamped_updateState _ _ _ _ _
  · exact Stamped.refl _ _
  · exact stamped_addNode _ rfl
  · exact stamped_updateState _ _ _ _ _

theorem stamped_applyUpdates (p : SwimProtocol) (now : Time) (us : List MembershipUpdate) :
    p.members.Stamped now (p.applyUpdates now us).members := by
  induction us generalizing p with
  | nil => exact Stamped.refl _ _
  | cons u us ih => exact (stamped_applyUpdate p now u).trans (ih (p.applyUpdate now u))

theorem stamped_welcome (p : SwimProtocol) (now : Time) (msg : SwimMessage) :
    p.members.Stamped now (p.welcome now msg).members := by
  rw [welcome]
  split_ifs
  · exact stamped_addNode _ rfl
  · exact Stamped.refl _ _

theorem stamped_handleMessage (p : SwimProtocol) (sort : SortByCount) (now : Time)
    (msg : SwimMessage) : p.members.Stamped now (p.handleMessage sort now msg).1.members := by
  rw [handleMessage, dispatch_members]
  exact (stamped_welcome p now msg).trans (stamped_applyUpdates _ now msg.updates)

theorem report_members (p : SwimProtocol) (now : Time) (id : NodeId) (type : UpdateType)
    (incarnation : UInt64) :
    (p.report now id type incarnation).members =
      (p.members.updateState id type.newState incarnation now).1 := by
  rw [report]
  rcases p.members.updateState id type.newState incarnation now with ⟨members, _ | _⟩ <;> rfl

theorem stamped_markSuspect (p : SwimProtocol) (now : Time) (target : NodeId) :
    p.members.Stamped now (p.markSuspect now target).members := by
  rw [markSuspect]
  split
  · exact Stamped.refl _ _
  · rw [report_members]
    exact stamped_updateState _ _ _ _ _

theorem stamped_directDone (p : SwimProtocol) (sort : SortByCount) (now : Time) (target : NodeId)
    (seq : UInt32) (intermediaries : List NodeId) :
    p.members.Stamped now (p.directDone sort now target seq intermediaries).1.members := by
  simp only [directDone]
  split_ifs
  · exact Stamped.refl _ _
  · exact stamped_markSuspect (p.closeSeq seq).2 now target
  · cases intermediaries <;> exact Stamped.refl _ _

theorem stamped_indirectDone (p : SwimProtocol) (now : Time) (target : NodeId) (seq : UInt32) :
    p.members.Stamped now (p.indirectDone now target seq).members := by
  simp only [indirectDone]
  split_ifs
  · exact Stamped.refl _ _
  · exact stamped_markSuspect (p.closeSeq seq).2 now target

theorem stamped_reapEntry (p : SwimProtocol) (now : Time) (id : NodeId) (node : NodeInfo) :
    p.members.Stamped now (p.reapEntry now id node).members := by
  rw [reapEntry]
  split_ifs
  · exact Stamped.refl _ _
  · exact Stamped.refl _ _
  · rw [report_members]
    exact stamped_updateState _ _ _ _ _
  · exact Stamped.refl _ _

theorem stamped_suspicionReaper (p : SwimProtocol) (now : Time)
    (order : List (Σ _ : NodeId, NodeInfo)) :
    p.members.Stamped now (p.suspicionReaper now order).members := by
  rw [suspicionReaper]
  induction order generalizing p with
  | nil => exact Stamped.refl _ _
  | cons e order ih => exact (stamped_reapEntry p now e.1 e.2).trans (ih _)

/-- The step is taken at the given time. -/
def Action.At : Action → Time → Prop
  | .directDone _ now, t => now = t
  | .indirectDone now, t => now = t
  | .receive _ now, t => now = t
  | .reap now _, t => now = t
  -- these do not look at the clock
  | .probe _, _ => True
  | .askNext, _ => True
  | .relayDone _, _ => True

theorem stamped_step {a : Action} {sent : List Packet} (ha : a.At now)
    (h : p.step sort a = some (p', sent)) : p.members.Stamped now p'.members := by
  cases a with
  | probe target =>
      obtain ⟨-, hstep⟩ := Option.ite_none_right_eq_some.mp h
      cases hstep
      exact Stamped.refl _ _
  | directDone intermediaries t =>
      obtain rfl : t = now := ha
      rw [step] at h
      split at h
      · rename_i target seq hprobe
        obtain ⟨-, hstep⟩ := Option.ite_none_right_eq_some.mp h
        have hmembers := stamped_directDone p sort t target seq intermediaries
        rwa [Option.some.inj hstep] at hmembers
      · cases h
  | askNext =>
      rw [step] at h
      split at h
      · cases h
        exact Stamped.refl _ _
      · cases h
  | indirectDone t =>
      obtain rfl : t = now := ha
      rw [step] at h
      split at h
      · cases h
        exact stamped_indirectDone _ _ _ _
      · cases h
  | relayDone r =>
      obtain ⟨-, hstep⟩ := Option.ite_none_right_eq_some.mp h
      cases hstep
      exact Stamped.refl _ _
  | receive msg t =>
      obtain rfl : t = now := ha
      have hmembers := stamped_handleMessage p sort t msg
      rwa [Option.some.inj h] at hmembers
  | reap t order =>
      obtain rfl : t = now := ha
      obtain ⟨-, hstep⟩ := Option.ite_none_right_eq_some.mp h
      cases hstep
      exact stamped_suspicionReaper _ _ _

/-! ## Timelines -/

/-- `Timeline hist t p`: a node that is now in state `p`, which it reached at time `t`, and all
the states it has been in with the times at which it reached them.  The clock does not go
back. -/
inductive Timeline : List (Time × SwimProtocol) → Time → SwimProtocol → Prop
  | start (config : SwimConfig) (self : NodeId) (seed : Option (NodeId × UInt16)) (now : Time) :
      Timeline [(now, start config self seed now)] now (start config self seed now)
  | step {hist : List (Time × SwimProtocol)} {t t' : Time} {p p' : SwimProtocol}
      {sort : SortByCount} {a : Action} {sent : List Packet} (h : Timeline hist t p)
      (ht : t ≤ t') (ha : a.At t') (hs : p.step sort a = some (p', sent)) :
      Timeline (hist ++ [(t', p')]) t' p'

/-- The state in which the node is at a moment, the last one that it has reached by then. -/
def stateAt (hist : List (Time × SwimProtocol)) (t : Time) : Option SwimProtocol :=
  (hist.filter fun x ↦ x.1 ≤ t).getLast?.map Prod.snd

/-- What a node records of another, as the table has it in a state. -/
def RankedAt (q : SwimProtocol) (id : NodeId) (r : Rank) : Prop :=
  ∃ e, q.members.getNode id = some e ∧ e.rank = r

variable {hist : List (Time × SwimProtocol)} {t : Time} {id : NodeId} {e : NodeInfo}

theorem start_entry {config : SwimConfig} {self : NodeId} {seed : Option (NodeId × UInt16)}
    (he : (start config self seed now).members.getNode id = some e) : e.lastStateChange = now := by
  have hself : MemberList.empty.Stamped now
      (MemberList.empty.addNode ⟨self, config.selfDataPort, .alive, 0, now⟩).1 :=
    stamped_addNode _ rfl
  have hstart : MemberList.empty.Stamped now (start config self seed now).members := by
    rcases seed with _ | ⟨seed, port⟩
    · exact hself
    · exact hself.trans (stamped_addNode _ rfl)
  rcases hstart id e he with hempty | hnow
  · cases hempty
  · exact hnow

/-- An entry has been what it is since the time of its stamp. -/
theorem Timeline.recorded (h : Timeline hist t p) (he : p.members.getNode id = some e) :
    ∃ before q after, hist = before ++ (e.lastStateChange, q) :: after ∧
      ∀ x ∈ (e.lastStateChange, q) :: after, x.2.RankedAt id e.rank := by
  induction h generalizing e with
  | start config self seed now =>
      refine ⟨[], _, [], by rw [start_entry he]; rfl, fun x hx ↦ ?_⟩
      rw [List.mem_singleton.mp hx]
      exact ⟨e, he, rfl⟩
  | @step hist t t' p p' sort a sent h ht ha hs ih =>
      rcases stamped_step ha hs id e he with hold | hnow
      · -- the step has left the entry alone
        obtain ⟨before, q, after, rfl, hsince⟩ := ih hold
        refine ⟨before, q, after ++ [(t', p')], by simp, fun x hx ↦ ?_⟩
        rw [← List.cons_append, List.mem_append, List.mem_singleton] at hx
        rcases hx with hx | rfl
        · exact hsince x hx
        · exact ⟨e, he, rfl⟩
      · refine ⟨hist, p', [], by rw [hnow], fun x hx ↦ ?_⟩
        rw [List.mem_singleton.mp hx]
        exact ⟨e, he, rfl⟩

/-- At any moment since then it was what it is. -/
theorem Timeline.rankedAt (h : Timeline hist t p) (he : p.members.getNode id = some e) {τ : Time}
    (hτ : e.lastStateChange ≤ τ) : ∃ q, stateAt hist τ = some q ∧ q.RankedAt id e.rank := by
  obtain ⟨before, q, after, rfl, hsince⟩ := h.recorded he
  rw [stateAt, List.filter_append, List.filter_cons_of_pos (by simpa using hτ),
    List.getLast?_append_of_ne_nil _ (List.cons_ne_nil _ _),
    List.getLast?_eq_some_getLast (List.cons_ne_nil _ _)]
  refine ⟨_, rfl, hsince _ ?_⟩
  have hlast := List.getLast_mem (List.cons_ne_nil (e.lastStateChange, q)
    (after.filter fun x ↦ x.1 ≤ τ))
  exact List.cons_subset_cons _ List.filter_sublist.subset hlast

/-! ## The reaper -/

/-- An entry that the reaper acts on. -/
def Overdue (timeout : ℕ) (now : Time) (node : NodeInfo) : Prop :=
  node.state = .suspect ∧ node.lastStateChange ≤ now ∧
    timeout ≤ (now - node.lastStateChange) / 1000000

theorem reapEntry_config (p : SwimProtocol) (now : Time) (id : NodeId) (node : NodeInfo) :
    (p.reapEntry now id node).config = p.config := by
  rw [reapEntry]
  split_ifs
  · rfl
  · rfl
  · rw [report]
    rcases p.members.updateState id _ node.incarnation now with ⟨members, _ | _⟩ <;> rfl
  · rfl

/-- A round of the loop changes an entry only if it is overdue. -/
theorem getNode_reapEntry (p : SwimProtocol) (now : Time) (id : NodeId) (x : NodeId)
    (node : NodeInfo) :
    (p.reapEntry now x node).members.getNode id = p.members.getNode id ∨
      x = id ∧ Overdue p.config.suspectTimeout now node := by
  rw [reapEntry]
  split_ifs with hself hstate hdue
  · exact Or.inl rfl
  · exact Or.inl rfl
  · by_cases hx : id = x
    · exact Or.inr ⟨hx.symm, not_not.mp hstate, hdue⟩
    · rw [report_members, getNode_updateState_of_ne hx]
      exact Or.inl rfl
  · exact Or.inl rfl

/-- The reaper changes the entries that are overdue. -/
theorem getNode_suspicionReaper (p : SwimProtocol) (now : Time) (id : NodeId)
    {order : List (Σ _ : NodeId, NodeInfo)} (horder : order.Perm p.members.nodes.entries) :
    (p.suspicionReaper now order).members.getNode id = p.members.getNode id ∨
      ∃ e, p.members.getNode id = some e ∧ Overdue p.config.suspectTimeout now e := by
  suffices h : ∀ (es : List (Σ _ : NodeId, NodeInfo)) (q : SwimProtocol),
      (∀ e ∈ es, e ∈ p.members.nodes.entries) → q.config = p.config →
      (es.foldl (fun q e ↦ q.reapEntry now e.1 e.2) q).members.getNode id = q.members.getNode id ∨
        ∃ e, p.members.getNode id = some e ∧ Overdue p.config.suspectTimeout now e from
    h _ p (fun _ he ↦ horder.mem_iff.mp he) rfl
  intro es
  induction es with
  | nil => exact fun _ _ _ ↦ Or.inl rfl
  | cons x es ih =>
      intro q hes hq
      have hrest := ih (q.reapEntry now x.1 x.2) (fun e he ↦ hes e (List.mem_cons_of_mem _ he))
        ((reapEntry_config ..).trans hq)
      rcases getNode_reapEntry q now id x.1 x.2 with hsame | ⟨hid, hdue⟩
      · rw [hsame] at hrest
        exact hrest
      · rw [hq] at hdue
        refine Or.inr ⟨x.2, ?_, hdue⟩
        rw [← hid]
        exact AList.mem_lookup_iff.mpr (hes x List.mem_cons_self)

/-- **The timer is sound.**  If a round of the reaper at time `t` makes a member dead, then at
every moment of the timeout before it the member was suspect, all the time at the same
incarnation. -/
theorem timer_sound (sort : SortByCount) (h : Timeline hist t p) {now : Time}
    {order : List (Σ _ : NodeId, NodeInfo)} {sent : List Packet}
    (hstep : p.step sort (.reap now order) = some (p', sent)) {e' : NodeInfo}
    (hbefore : ∀ e, p.members.getNode id = some e → e.state ≠ .dead)
    (hafter : p'.members.getNode id = some e') (hdead : e'.state = .dead) :
    ∃ incarnation, ∀ τ : Time, now ≤ τ + p.config.suspectTimeout * 1000000 → τ ≤ now →
      ∃ q e, stateAt hist τ = some q ∧ q.members.getNode id = some e ∧ e.state = .suspect ∧
        e.incarnation = incarnation := by
  obtain ⟨horder, hstep⟩ := Option.ite_none_right_eq_some.mp hstep
  cases hstep
  rcases getNode_suspicionReaper p now id horder with hsame | ⟨e, he, hstate, hle, hdue⟩
  · exact absurd hdead (hbefore e' (hsame ▸ hafter))
  · refine ⟨e.incarnation, fun τ hτ _ ↦ ?_⟩
    have hlong := Nat.add_le_of_le_sub' hle (Nat.mul_le_of_le_div _ _ _ hdue)
    have hstamp : e.lastStateChange ≤ τ := Nat.le_of_add_le_add_right (hlong.trans hτ)
    obtain ⟨q, hq, e₁, he₁, hrank⟩ := h.rankedAt he hstamp
    have heq : (e₁.incarnation, e₁.state) = (e.incarnation, e.state) := hrank
    obtain ⟨hinc, hst⟩ := Prod.mk.inj heq
    exact ⟨q, e₁, hq, he₁, hst.trans hstate, hinc⟩

/-- The seed is suspected at two seconds and declared dead at seven. -/
theorem timer_sound_seed :
    let seed : NodeId := ⟨[98], 7946⟩
    let p := start ⟨5000, 3, 8, 11211⟩ ⟨[97], 7946⟩ (some (seed, 11211)) 0
    let msg : SwimMessage := ⟨.ack, 0, seed, none, [⟨.suspect, seed, 0, 0⟩]⟩
    let q := (p.handleMessage .stable 2000000000 msg).1
    ∃ incarnation, ∀ τ : Time, 7000000000 ≤ τ + q.config.suspectTimeout * 1000000 → τ ≤ 7000000000 →
      ∃ r e, stateAt [(0, p), (2000000000, q)] τ = some r ∧ r.members.getNode seed = some e ∧
        e.state = .suspect ∧ e.incarnation = incarnation := by
  intro seed p msg q
  have hreceive : p.step .stable (.receive msg 2000000000) =
      some (p.handleMessage .stable 2000000000 msg) := rfl
  have hat : (Action.receive msg 2000000000).At 2000000000 := rfl
  have hline : Timeline [(0, p), (2000000000, q)] 2000000000 q :=
    (Timeline.start _ _ _ 0).step (Nat.zero_le _) hat hreceive
  have hbefore : (q.members.getNode seed).map NodeInfo.state = some .suspect := by decide +kernel
  have hreap : q.step .stable (.reap 7000000000 q.members.nodes.entries) =
      some (q.suspicionReaper 7000000000 q.members.nodes.entries, []) := by
    rw [step, if_pos (List.Perm.refl _)]
  have hafter : ((q.suspicionReaper 7000000000 q.members.nodes.entries).members.getNode seed).map
      NodeInfo.state = some .dead := by
    decide +kernel
  obtain ⟨e', he', hdead⟩ := Option.map_eq_some_iff.mp hafter
  refine timer_sound .stable hline hreap (fun e he hdead ↦ ?_) he' hdead
  rw [he, Option.map_some, hdead] at hbefore
  cases hbefore

end SwimProtocol

end Pensieve
