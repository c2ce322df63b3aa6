import Pensieve.Membership.Evidence
import Pensieve.Membership.Incarnation
import Pensieve.Membership.Timer
import Pensieve.Wiring

/-!
# Nodes that have stopped

A node stops for good, while messages of its own and rumours about it are still under way.  No
probe of it that begins afterwards succeeds, so the round ends with the node not alive in the
prober's table.  Only a higher incarnation makes it alive there again, and the highest is the one
with which it stopped: everybody else probes it at most that many times and once more
(`probes_of_stopped`).

Once it is out of favour at that incarnation it stays so.  It is not probed again, the first round
of the reaper after the timeout declares it dead, and from then on no request is routed to it
(`out_for_good`).
-/

namespace Pensieve

open Foundation

/-! ## Entries that are replaced -/

namespace MemberList

/-- Every entry is as it was, or has been replaced by one of higher rank. -/
def Rises (m m' : MemberList) : Prop :=
  ∀ id e, m.getNode id = some e → ∃ e', m'.getNode id = some e' ∧ (e' = e ∨ e.rank < e'.rank)

variable {m m' m'' : MemberList} {id : NodeId}

theorem Rises.refl (m : MemberList) : m.Rises m := fun _ e he ↦ ⟨e, he, Or.inl rfl⟩

theorem Rises.trans (h : m.Rises m') (h' : m'.Rises m'') : m.Rises m'' := by
  intro id e he
  obtain ⟨e', he', hrank⟩ := h id e he
  obtain ⟨e'', he'', hrank'⟩ := h' id e' he'
  refine ⟨e'', he'', ?_⟩
  rcases hrank with rfl | hlt
  · exact hrank'
  · rcases hrank' with rfl | hlt'
    · exact Or.inr hlt
    · exact Or.inr (hlt.trans hlt')

theorem rises_addNode (m : MemberList) (info : NodeInfo) : m.Rises (m.addNode info).1 := by
  intro id e he
  by_cases hid : id = info.id
  · subst hid
    have hnew := getNode_addNode m info
    rw [he] at hnew
    refine ⟨_, hnew, ?_⟩
    dsimp only
    split_ifs with hlt
    · exact Or.inr hlt
    · exact Or.inl rfl
  · exact ⟨e, (getNode_addNode_of_ne hid).trans he, Or.inl rfl⟩

theorem rises_updateState (m : MemberList) (id : NodeId) (newState : NodeState)
    (incarnation : UInt64) (now : Time) :
    m.Rises (m.updateState id newState incarnation now).1 := by
  intro id' e he
  by_cases hid : id' = id
  · subst hid
    have hnew := getNode_updateState m id' newState incarnation now
    rw [he] at hnew
    refine ⟨_, hnew, ?_⟩
    dsimp only
    split_ifs with hlt
    · exact Or.inr hlt
    · exact Or.inl rfl
  · exact ⟨e, (getNode_updateState_of_ne hid).trans he, Or.inl rfl⟩

theorem mem_alivePeers {self : NodeId} (h : id ∈ m.alivePeers self) :
    ∃ e, m.getNode id = some e ∧ e.state = .alive := by
  obtain ⟨e, he, rfl⟩ := List.mem_map.mp h
  obtain ⟨hmem, hboth⟩ := List.mem_filter.mp he
  simp only [Bool.and_eq_true, decide_eq_true_eq] at hboth
  exact ⟨e.2, AList.mem_lookup_iff.mpr hmem, hboth.2⟩

theorem RingInv.call (h : m.RingInv) (c : Call) : (m.call c).RingInv := by
  rcases call_cases m c with ⟨hcall, -⟩ | ⟨info, hcall, -⟩ | ⟨id, now, e, he, rfl⟩
  · rwa [hcall]
  · rw [hcall]
    exact h.record c.id info
  · exact h.removeNode he now

end MemberList

namespace SwimProtocol

open MemberList

variable {sort : SortByCount} {G : MembershipUpdate → Prop} {p p' : SwimProtocol} {now : Time}
  {x : NodeId}

theorem Change.rises (h : Change sort G p p') : p.members.Rises p'.members := by
  cases h with
  | addNode u now => exact rises_addNode _ _
  | updateState u now => exact rises_updateState _ _ _ _ _
  | refute now => exact rises_updateState _ _ _ _ _
  | _ => exact Rises.refl _

theorem Change.ringInv (h : Change sort G p p') (hp : p.members.RingInv) : p'.members.RingInv := by
  cases h with
  | addNode u now => exact hp.call (.addNode (infoOf u now))
  | updateState u now => exact hp.call (.updateState u.node u.type.newState u.incarnation now)
  | refute now => exact hp.call (.updateState p.self .alive (p.incarnation + 1) now)
  | _ => exact hp

theorem ringInv_start (config : SwimConfig) (self : NodeId) (seed : Option (NodeId × UInt16))
    (now : Time) : (start config self seed now).members.RingInv := by
  have hself := (ringInv_after []).call (.addNode ⟨self, config.selfDataPort, .alive, 0, now⟩)
  rcases seed with - | ⟨id, port⟩
  · exact hself
  · exact hself.call (.addNode ⟨id, port, .alive, 0, now⟩)

theorem ringInv_of_run {sent : List Packet} (hrun : (machine sort).Run p sent) :
    p.members.RingInv :=
  (run_invariant hrun ringInv_start fun _ _ hc ↦ hc.ringInv).1

/-! ## Rounds of the probe loop -/

theorem markSuspect_members (p : SwimProtocol) (now : Time) (target : NodeId) :
    (p.markSuspect now target).members = match p.members.getNode target with
      | none => p.members
      | some info => (p.members.updateState target .suspect info.incarnation now).1 := by
  rw [markSuspect]
  cases p.members.getNode target with
  | none => rfl
  | some info => exact report_members ..

/-- A number that is struck off has nothing to do with the table. -/
theorem markSuspect_closeSeq (p : SwimProtocol) (now : Time) (target : NodeId) (seq : UInt32) :
    ((p.closeSeq seq).2.markSuspect now target).members = (p.markSuspect now target).members :=
  (markSuspect_members ..).trans (markSuspect_members p now target).symm

/-- Whoever has not answered is not alive afterwards. -/
theorem getNode_markSuspect {e : NodeInfo} (he : p.members.getNode x = some e) (now : Time) :
    ∃ e', (p.markSuspect now x).members.getNode x = some e' ∧ e'.state ≠ .alive := by
  rw [markSuspect_members, he]
  dsimp only
  rw [getNode_updateState, he, Option.map_some]
  refine ⟨_, rfl, ?_⟩
  split_ifs with hlt
  · exact NodeState.noConfusion
  · intro halive
    have hstate : NodeState.alive < .suspect := by decide
    exact hlt (Prod.Lex.toLex_lt_toLex.mpr (Or.inr ⟨rfl, halive ▸ hstate⟩))

theorem probe_handleMessage (sort : SortByCount) (p : SwimProtocol) (now : Time)
    (msg : SwimMessage) : (p.handleMessage sort now msg).1.probe = p.probe := by
  have hbefore : ((p.welcome now msg).applyUpdates now msg.updates).traffic = p.traffic :=
    (traffic_applyUpdates ..).trans (traffic_welcome ..)
  refine Eq.trans ?_ (congrArg Traffic.probe hbefore)
  rw [handleMessage, dispatch]
  split
  · rfl
  · rfl
  · split <;> rfl

/-- What a step has to do with the rounds: it leaves the loop where it is, or begins a round with a
member that is alive, or ends one. -/
theorem step_round {a : Action} {sent : List Packet} (h : p.step sort a = some (p', sent)) :
    (∀ t, a ≠ .probe t) ∧ p'.probe.target = p.probe.target ∨
    (∃ t, a = .probe t ∧ p.probe = .waiting ∧ t ∈ p.members.alivePeers p.self ∧
      p'.probe.target = some t ∧ p'.members = p.members) ∨
    (∀ t, a ≠ .probe t) ∧ p'.probe = .waiting ∧
      ∃ kind t seq, p.probe.current = some (kind, t, seq) ∧
        (p.pendingAcks seq = some true ∨ ∃ now, p'.members = (p.markSuspect now t).members) := by
  cases a with
  | probe target =>
      obtain ⟨⟨hwaiting, htarget⟩, hstep⟩ := Option.ite_none_right_eq_some.mp h
      cases hstep
      exact Or.inr (Or.inl ⟨target, rfl, hwaiting, htarget, rfl, rfl⟩)
  | directDone intermediaries now =>
      rw [step] at h
      split at h
      · rename_i target seq hprobe
        obtain ⟨-, hstep⟩ := Option.ite_none_right_eq_some.mp h
        have hcurrent : p.probe.current = some (.direct, target, seq) := by rw [hprobe]; rfl
        simp only [directDone] at hstep
        split_ifs at hstep with hacked hempty
        · cases hstep
          exact Or.inr (Or.inr ⟨by simp, rfl, _, target, seq, hcurrent,
            Or.inl (Cluster.eq_some_true_of_getD hacked)⟩)
        · cases hstep
          refine Or.inr (Or.inr ⟨by simp, rfl, _, target, seq, hcurrent, Or.inr ⟨now, ?_⟩⟩)
          exact markSuspect_closeSeq p now target seq
        · cases intermediaries with
          | nil => exact absurd rfl hempty
          | cons relay rest =>
              cases hstep
              exact Or.inl ⟨by simp, by rw [hprobe]; rfl⟩
      · cases h
  | askNext =>
      rw [step] at h
      split at h
      · rename_i target seq relay rest hprobe
        cases h
        exact Or.inl ⟨by simp, by rw [hprobe]; rfl⟩
      · cases h
  | indirectDone now =>
      rw [step] at h
      split at h
      · rename_i target seq hprobe
        have hcurrent : p.probe.current = some (.indirect, target, seq) := by rw [hprobe]; rfl
        obtain ⟨rfl, -⟩ := Prod.mk.inj (Option.some.inj h)
        simp only [indirectDone]
        split_ifs with hacked
        · exact Or.inr (Or.inr ⟨by simp, rfl, _, target, seq, hcurrent,
            Or.inl (Cluster.eq_some_true_of_getD hacked)⟩)
        · exact Or.inr (Or.inr ⟨by simp, rfl, _, target, seq, hcurrent,
            Or.inr ⟨now, markSuspect_closeSeq p now target seq⟩⟩)
      · cases h
  | relayDone r =>
      obtain ⟨-, hstep⟩ := Option.ite_none_right_eq_some.mp h
      cases hstep
      exact Or.inl ⟨by simp, rfl⟩
  | receive msg now =>
      have hprobe := probe_handleMessage sort p now msg
      rw [Option.some.inj h] at hprobe
      exact Or.inl ⟨by simp, congrArg Probe.target hprobe⟩
  | reap now order =>
      obtain ⟨-, hstep⟩ := Option.ite_none_right_eq_some.mp h
      have htraffic := congrArg Traffic.probe (traffic_suspicionReaper p now order)
      rw [(Prod.mk.inj (Option.some.inj hstep)).1] at htraffic
      exact Or.inl ⟨by simp, congrArg Probe.target htraffic⟩

/-! ## Rounds of the reaper -/

theorem reapEntries_frame (now : Time) (es : List (Σ _ : NodeId, NodeInfo)) (q : SwimProtocol) :
    (es.foldl (fun q e ↦ q.reapEntry now e.1 e.2) q).self = q.self ∧
      (es.foldl (fun q e ↦ q.reapEntry now e.1 e.2) q).config = q.config := by
  induction es generalizing q with
  | nil => exact ⟨rfl, rfl⟩
  | cons e es ih =>
      have hquiets : Quiets .stable (fun _ ↦ True) q (q.reapEntry now e.1 e.2) :=
        reapEntry_quiets q now trivial
      obtain ⟨hself, hconfig⟩ := ih (q.reapEntry now e.1 e.2)
      exact ⟨hself.trans hquiets.changes.self_eq, hconfig.trans (reapEntry_config ..)⟩

/-- Rounds of the inner loop for other entries leave an entry alone. -/
theorem getNode_reapEntries_of_ne (now : Time) (es : List (Σ _ : NodeId, NodeInfo))
    (q : SwimProtocol) (hes : x ∉ es.keys) :
    (es.foldl (fun q e ↦ q.reapEntry now e.1 e.2) q).members.getNode x = q.members.getNode x := by
  induction es generalizing q with
  | nil => rfl
  | cons e es ih =>
      obtain ⟨hne, hrest⟩ := not_or.mp fun h ↦ hes (List.mem_cons.mpr h)
      refine (ih _ hrest).trans ?_
      exact (getNode_reapEntry q now x e.1 e.2).resolve_right fun h ↦ hne h.1.symm

/-- An overdue entry is dead after a round. -/
theorem dead_of_overdue {e : NodeInfo} (he : p.members.getNode x = some e) (hx : x ≠ p.self)
    (hdue : Overdue p.config.suspectTimeout now e) {order : List (Σ _ : NodeId, NodeInfo)}
    (horder : order.Perm p.members.nodes.entries) :
    ∃ e', (p.suspicionReaper now order).members.getNode x = some e' ∧ e'.state = .dead := by
  obtain ⟨before, after, hentries⟩ :=
    List.append_of_mem (horder.mem_iff.mpr (AList.mem_lookup_iff.mp he))
  have hnodup : (before ++ ⟨x, e⟩ :: after).keys.Nodup :=
    hentries ▸ (horder.map Sigma.fst).nodup_iff.mpr p.members.nodes.nodupKeys
  simp only [List.keys, List.map_append, List.map_cons] at hnodup
  have hbefore : x ∉ before.keys :=
    fun h ↦ List.disjoint_of_nodup_append hnodup h List.mem_cons_self
  have hafter : x ∉ after.keys :=
    (List.nodup_cons.mp (List.nodup_append.mp hnodup).2.1).1
  rw [suspicionReaper, hentries, List.foldl_append, List.foldl_cons,
    getNode_reapEntries_of_ne _ _ _ hafter]
  have hq := getNode_reapEntries_of_ne now before p hbefore
  obtain ⟨hself, hconfig⟩ := reapEntries_frame now before p
  generalize before.foldl (fun q e ↦ q.reapEntry now e.1 e.2) p = q at hq hself hconfig
  have hlt : e.rank < toLex (e.incarnation, NodeState.dead) := by
    have hstate : NodeState.suspect < .dead := by decide
    exact Prod.Lex.toLex_lt_toLex.mpr (Or.inr ⟨rfl, hdue.1 ▸ hstate⟩)
  rw [reapEntry, if_neg (hself ▸ hx), if_neg (not_not.mpr hdue.1), if_pos (hconfig ▸ hdue.2),
    report_members, getNode_updateState, hq, he, Option.map_some]
  exact ⟨_, congrArg some (if_pos hlt), rfl⟩

/-! ## Counting probes -/

/-- The step begins a round with `x`. -/
def Action.probes (x : NodeId) : Action → Bool
  | .probe target => target = x
  | _ => false

theorem Action.probes_eq_false {a : Action} (h : ∀ t, a ≠ .probe t) (x : NodeId) :
    a.probes x = false := by
  cases a with
  | probe t => exact absurd rfl (h t)
  | _ => rfl

/-- A node has begun to probe `x` this many times.  It can do so again at a higher incarnation
only, unless a round with `x` is still going on. -/
def Probed (x : NodeId) (k : ℕ) (p : SwimProtocol) : Prop :=
  0 < k → ∃ e, p.members.getNode x = some e ∧ k ≤ e.incarnation.toNat + 1 ∧
    (p.probe.target ≠ some x → e.state = .alive → k ≤ e.incarnation.toNat)

theorem Rises.alive {e e' : NodeInfo} (h : e' = e ∨ e.rank < e'.rank) (halive : e'.state = .alive) :
    e.state = .alive ∧ e.incarnation ≤ e'.incarnation ∨ e.incarnation < e'.incarnation := by
  rcases h with rfl | hlt
  · exact Or.inl ⟨halive, le_refl _⟩
  · by_cases hstate : e.state = .alive
    · exact Or.inl ⟨hstate, incarnation_le_of_rank_le hlt.le⟩
    · exact Or.inr (incarnation_lt_of_alive hlt.le hstate halive)

/-- What a step does to the count, if the rounds with `x` end with `x` not alive. -/
theorem Probed.step {k : ℕ} {a : Action} {sent : List Packet} (h : Probed x k p)
    (hp : p.TargetsOther) (hr : p.step sort a = some (p', sent))
    (hround : 0 < k → p.probe.target = some x → p'.probe = .waiting →
      ∃ e, p'.members.getNode x = some e ∧ e.state ≠ .alive) :
    Probed x (k + if a.probes x then 1 else 0) p' := by
  have hrises : p.members.Rises p'.members :=
    (step_does hp (.any p a) hr).changes.invariant (I := fun q ↦ p.members.Rises q.members)
      (fun _ _ hc hq ↦ hq.trans hc.rises) (.refl _)
  -- the bound goes up with the incarnation, whether or not a round has ended
  have hkeep : ∀ (_ : 0 < k), ∃ e', p'.members.getNode x = some e' ∧
      k ≤ e'.incarnation.toNat + 1 ∧
      (p.probe.target ≠ some x → e'.state = .alive → k ≤ e'.incarnation.toNat) := by
    intro hk
    obtain ⟨e, he, hle, hnot⟩ := h hk
    obtain ⟨e', he', hrank⟩ := hrises x e he
    have hinc : e.incarnation ≤ e'.incarnation := by
      rcases hrank with rfl | hlt
      · exact le_refl _
      · exact incarnation_le_of_rank_le hlt.le
    have hinc' := UInt64.le_iff_toNat_le.mp hinc
    refine ⟨e', he', by omega, fun htarget halive ↦ ?_⟩
    rcases Rises.alive hrank halive with ⟨hold, -⟩ | hlt
    · have hbefore := hnot htarget hold
      omega
    · have hlt' := UInt64.lt_iff_toNat_lt.mp hlt
      omega
  rcases step_round hr with ⟨hno, htarget⟩ | ⟨t, rfl, hwaiting, hpeer, htarget, hmembers⟩ |
    ⟨hno, hwaiting, kind, t, seq, hcurrent, -⟩
  · rw [Action.probes_eq_false hno, if_neg Bool.false_ne_true, Nat.add_zero]
    intro hk
    obtain ⟨e', he', hle, hnot⟩ := hkeep hk
    exact ⟨e', he', hle, fun hne ↦ hnot (htarget ▸ hne)⟩
  · by_cases ht : t = x
    · subst ht
      rw [Action.probes, if_pos (decide_eq_true rfl)]
      obtain ⟨e, he, halive⟩ := mem_alivePeers hpeer
      refine fun _ ↦ ⟨e, by rw [hmembers]; exact he, ?_, fun hne ↦ absurd htarget hne⟩
      rcases Nat.eq_zero_or_pos k with rfl | hk
      · omega
      · obtain ⟨e', he', -, hnot⟩ := h hk
        cases he.symm.trans he'
        have hbound := hnot (by rw [hwaiting]; exact nofun) halive
        omega
    · rw [Action.probes, if_neg fun heq ↦ ht (of_decide_eq_true heq), Nat.add_zero]
      intro hk
      obtain ⟨e', he', hle, hnot⟩ := hkeep hk
      exact ⟨e', he', hle, fun _ ↦ hnot (by rw [hwaiting]; exact nofun)⟩
  · rw [Action.probes_eq_false hno, if_neg Bool.false_ne_true, Nat.add_zero]
    intro hk
    obtain ⟨e', he', hle, hnot⟩ := hkeep hk
    refine ⟨e', he', hle, fun _ halive ↦ ?_⟩
    by_cases ht : p.probe.target = some x
    · obtain ⟨e'', he'', hdown⟩ := hround hk ht hwaiting
      cases he'.symm.trans he''
      exact absurd halive hdown
    · exact hnot ht halive

end SwimProtocol

namespace Cluster

open SwimProtocol MemberList

variable {sort : SortByCount} {c c' : Cluster} {past rest tr : List Event} {x y : NodeId}

/-! ## Events -/

namespace Event

/-- An event of the node. -/
def isOf (x : NodeId) : Event → Bool
  | .booted id => id = x
  | .stepped id _ _ _ => id = x

/-- The node `y` begins to probe `x`. -/
def probes (y x : NodeId) : Event → Bool
  | .stepped id _ a _ => id = y && a.probes x
  | .booted _ => false

/-- The node `y` ends a round with `x` as the target. -/
def EndsRound (y x : NodeId) : Event → Prop
  | .stepped id before _ after => id = y ∧ before.probe.target = some x ∧ after.probe = .waiting
  | .booted _ => False

/-- The node that takes the step has an entry for `x` afterwards, and `x` is not alive in it. -/
def GivesUp (x : NodeId) : Event → Prop
  | .stepped _ _ _ after => ∃ e, after.members.getNode x = some e ∧ e.state ≠ .alive
  | .booted _ => False

end Event

/-- The events of a run are steps. -/
theorem step_of_mem (hrun : (machine sort).Run c tr) {id : NodeId} {p p' : SwimProtocol}
    {a : SwimProtocol.Action} (hmem : .stepped id p a p' ∈ tr) :
    ∃ sent, p.step sort a = some (p', sent) := by
  revert hmem
  refine hrun.invariant (I := fun _ tr ↦ .stepped id p a p' ∈ tr →
    ∃ sent, p.step sort a = some (p', sent)) (fun _ _ hmem ↦ nomatch hmem) ?_
  intro c tr b c' ev _ ih hstep hmem
  rcases List.mem_append.mp hmem with hmem | hmem
  · exact ih hmem
  · rcases step_cases hstep with ⟨id', config, seed, now, -, rfl, -⟩ |
      ⟨id', q, b, r, -, hr, -, rfl, -⟩
    · cases List.mem_singleton.mp hmem
    · cases List.mem_singleton.mp hmem
      exact ⟨r.2, hr⟩

/-- **No probe of a stopped node is acknowledged.**  The node `y` is in a round with `x`, which has
done nothing in the last part of the trace, and `y` has begun a round there. -/
theorem LedgerInv.not_acked {l : Ledger} {p : SwimProtocol} {kind : ProbeKind} {seq : UInt32}
    (h : LedgerInv sort l (past ++ rest) c) (hrun : (machine sort).Run c (past ++ rest))
    (hp : c.node y = some p) (hcurrent : p.probe.current = some (kind, x, seq))
    (hstop : ∀ e ∈ rest, e.isOf x = false) (hbegun : ∃ e ∈ rest, e.probes y x = true) :
    p.pendingAcks seq ≠ some true := by
  intro hacked
  obtain ⟨d, after, hd, -, rfl, -, hpast, hafter⟩ := (h.node y p hp).probe kind x seq hcurrent
  obtain ⟨d', hd', msg, -, ⟨before, e, after', htr, hbefore, -, -, f, hf, hprocesses⟩, -⟩ :=
    (h.node y p hp).acked seq hacked
  cases hd.symm.trans hd'
  -- the round began in the last part, since a round begins when the loop is waiting
  have hprefix : past <+: d.past := by
    rcases List.append_eq_append_iff.mp hpast with ⟨mid, hmid, -⟩ | ⟨mid, hmid, hrest⟩
    · exact ⟨mid, hmid.symm⟩
    · cases mid with
      | nil => exact ⟨[], by rw [hmid, List.append_nil, List.append_nil]⟩
      | cons z mid =>
          obtain ⟨-, rfl⟩ := List.cons.inj hrest
          obtain ⟨g, hg, hprobes⟩ := hbegun
          have hcont := hafter g (List.mem_append_right _ hg)
          have hmem : g ∈ past ++ rest := List.mem_append_right _ hg
          cases g with
          | booted => cases hprobes
          | stepped id q a q' =>
              simp only [Event.probes, Bool.and_eq_true, decide_eq_true_eq] at hprobes
              cases a with
              | probe target =>
                  obtain ⟨sent, hstep⟩ := step_of_mem hrun hmem
                  obtain ⟨⟨hwaiting, -⟩, -⟩ := Option.ite_none_right_eq_some.mp hstep
                  have hround := hcont hprobes.1
                  rw [hwaiting] at hround
                  cases hround
              | _ => cases hprobes.2
  -- so the target has heard the ping there, and a node that has stopped hears nothing
  obtain ⟨mid, hmid⟩ := hprefix.trans hbefore
  rw [← hmid, List.append_assoc, List.append_cancel_left_eq] at htr
  have hof := hstop f (by rw [htr]; simp [hf])
  cases f with
  | booted => exact hprocesses
  | stepped id q a q' =>
      cases a with
      | receive m now =>
          rw [Event.isOf, hprocesses.1, decide_eq_false_iff_not] at hof
          exact hof rfl
      | _ => exact hprocesses

/-! ## While a node has stopped -/

theorem refutations_of_stopped (h : ∀ e ∈ rest, e.isOf x = false) :
    refutations (past ++ rest) x = refutations past x := by
  have hzero : refutations rest x = 0 := by
    rw [refutations, List.sum_eq_zero]
    intro n hn
    obtain ⟨e, he, rfl⟩ := List.mem_map.mp hn
    cases e with
    | booted => rfl
    | stepped id q a q' => exact if_neg (of_decide_eq_false (h _ he))
  rw [refutations_append, hzero, Nat.add_zero]

theorem node_of_stopped {a : Action} {ev : List Event} (hstep : c.step sort a = some (c', ev))
    (h : ∀ e ∈ ev, e.isOf x = false) : c'.node x = c.node x := by
  rcases step_cases hstep with ⟨id, config, seed, now, -, rfl, rfl⟩ |
    ⟨id, p, b, r, -, -, -, rfl, rfl⟩
  · exact advance_node_of_ne (Ne.symm (of_decide_eq_false (h _ List.mem_cons_self)))
  · exact advance_node_of_ne (Ne.symm (of_decide_eq_false (h _ List.mem_cons_self)))

/-- Nobody has a higher incarnation recorded than that of the node itself. -/
theorem entry_le {p q : SwimProtocol} {e : NodeInfo} (hrun : (machine sort).Run c tr)
    (hp : c.node x = some p) (hfew : refutations tr x < 2 ^ 64) (hq : c.node y = some q)
    (he : q.members.getNode x = some e) : e.incarnation ≤ p.incarnation := by
  have h := run_countInv hrun
  rw [h.incarnation x p hp, UInt64.le_iff_toNat_le, UInt64.toNat_ofNat', Nat.mod_eq_of_lt hfew]
  exact (h.bounded y q hq).entry x e he

/-- A round with `x` that ends, if `y` has begun one since `x` stopped. -/
theorem givesUp_of_endsRound {p p' : SwimProtocol} {a : SwimProtocol.Action} {sent : List Packet}
    {k : ℕ} (hrun : (machine sort).Run c (past ++ rest))
    (hwraps : ∀ e ∈ past ++ rest, e.wraps = false) (hstop : ∀ e ∈ rest, e.isOf x = false)
    (hp : c.node y = some p) (hr : p.step sort a = some (p', sent)) (hk : 0 < k)
    (hprobed : Probed x k p) (htarget : p.probe.target = some x) (hwaiting : p'.probe = .waiting)
    (hbegun : ∃ e ∈ rest, e.probes y x = true) :
    ∃ e, p'.members.getNode x = some e ∧ e.state ≠ .alive := by
  rcases step_round hr with ⟨-, hsame⟩ | ⟨t, -, hwait, -⟩ |
    ⟨-, -, kind, t, seq, hcurrent, hend⟩
  · rw [hwaiting, htarget] at hsame
    cases hsame
  · rw [hwait] at htarget
    cases htarget
  · obtain rfl : t = x := by
      revert hcurrent htarget
      cases p.probe with
      | waiting => rintro ⟨⟩
      | direct => rintro ⟨⟩ ⟨⟩; rfl
      | indirect => rintro ⟨⟩ ⟨⟩; rfl
    obtain ⟨l, hl⟩ := run_ledger hrun hwraps
    obtain ⟨now, hmembers⟩ := hend.resolve_left (hl.not_acked hrun hp hcurrent hstop hbegun)
    obtain ⟨e, he, -⟩ := hprobed hk
    rw [hmembers]
    exact getNode_markSuspect he now

/-- What the other nodes have found out since `x` stopped. -/
structure Found (x y : NodeId) (rest : List Event) (c : Cluster) : Prop where
  rounds : Guarded (fun before e ↦ e.EndsRound y x → (∃ f ∈ before, f.probes y x = true) →
    e.GivesUp x) rest
  probed : ∀ q, c.node y = some q → Probed x (rest.countP (Event.probes y x)) q
  unborn : c.node y = none → rest.countP (Event.probes y x) = 0

theorem Found.step {a : Action} {ev : List Event} (h : Found x y rest c)
    (hrun : (machine sort).Run c (past ++ rest)) (hstep : c.step sort a = some (c', ev))
    (hwraps : ∀ e ∈ past ++ rest, e.wraps = false) (hstop : ∀ e ∈ rest, e.isOf x = false) :
    Found x y (rest ++ ev) c' := by
  rcases step_cases hstep with ⟨id, config, seed, now, hnone, rfl, rfl⟩ |
    ⟨id, p, b, r, hp, hr, -, rfl, rfl⟩
  · have hcount : (rest ++ [Event.booted id]).countP (Event.probes y x) =
        rest.countP (Event.probes y x) := by simp [Event.probes]
    refine ⟨h.rounds.concat False.elim, fun q hq ↦ ?_, fun hy ↦ ?_⟩
    · rw [hcount]
      by_cases hy : y = id
      · subst hy
        rw [h.unborn hnone]
        exact fun hpos ↦ absurd hpos (lt_irrefl 0)
      · rw [advance_node_of_ne hy] at hq
        exact h.probed q hq
    · rw [hcount]
      exact h.unborn (node_eq_none_of_advance hy).2
  · have hcount : (rest ++ [Event.stepped id p b r.1]).countP (Event.probes y x) =
        rest.countP (Event.probes y x) + if id = y ∧ b.probes x then 1 else 0 := by
      simp [Event.probes, List.countP_append, List.countP_singleton]
    have hround : ∀ hid : id = y, 0 < rest.countP (Event.probes y x) →
        p.probe.target = some x → r.1.probe = .waiting →
        ∃ e, r.1.members.getNode x = some e ∧ e.state ≠ .alive := by
      rintro rfl hk htarget hwaiting
      exact givesUp_of_endsRound hrun hwraps hstop hp hr hk (h.probed p hp) htarget hwaiting
        (List.countP_pos_iff.mp hk)
    refine ⟨h.rounds.concat ?_, fun q hq ↦ ?_, fun hy ↦ ?_⟩
    · rintro ⟨hid, htarget, hwaiting⟩ hbegun
      exact hround hid (List.countP_pos_iff.mpr hbegun) htarget hwaiting
    · rw [hcount]
      by_cases hy : y = id
      · subst hy
        rw [advance_node_self] at hq
        cases hq
        obtain ⟨-, sent, hnode⟩ := node_run hrun y p hp
        have hnext := (h.probed p hp).step (targetsOther_of_run hnode) hr (hround rfl)
        simpa using hnext
      · rw [if_neg fun hboth ↦ hy hboth.1.symm, Nat.add_zero]
        rw [advance_node_of_ne hy] at hq
        exact h.probed q hq
    · obtain ⟨hne, hnone⟩ := node_eq_none_of_advance hy
      rw [hcount, if_neg fun hboth ↦ hne hboth.1.symm, Nat.add_zero]
      exact h.unborn hnone

/-- **A stopped node is found out.**  A run in which no sequence counter goes round continues while
the node `x` takes no more steps, and whatever the others do; before, `x` has answered fewer than
`2 ^ 64` rumours.  A round of the probe loop of any node with `x` as its target, if that node has
begun one since, ends with `x` recorded and not alive.  And there are at most as many such rounds
as the incarnation of `x`, and one more. -/
theorem probes_of_stopped (sort : SortByCount) (c c' : Cluster) (past rest : List Event)
    (as : List Action) (hrun : (machine sort).Run c past)
    (hexec : (machine sort).exec c as = some (c', rest))
    (hwraps : ∀ e ∈ past ++ rest, e.wraps = false) (x : NodeId) (p : SwimProtocol)
    (hp : c.node x = some p) (hfew : refutations past x < 2 ^ 64)
    (hstop : ∀ e ∈ rest, e.isOf x = false) (y : NodeId) :
    Guarded (fun before e ↦ e.EndsRound y x → (∃ f ∈ before, f.probes y x = true) →
      e.GivesUp x) rest ∧
    rest.countP (Event.probes y x) ≤ p.incarnation.toNat + 1 := by
  have hfound : (∀ e ∈ past ++ rest, e.wraps = false) → (∀ e ∈ rest, e.isOf x = false) →
      Found x y rest c' ∧ c'.node x = some p := by
    refine hrun.exec_invariant (I := fun c t ↦ (∀ e ∈ past ++ t, e.wraps = false) →
      (∀ e ∈ t, e.isOf x = false) → Found x y t c ∧ c.node x = some p) hexec ?_ ?_
    · exact fun _ _ ↦ ⟨⟨guarded_nil, fun _ _ hpos ↦ absurd hpos (lt_irrefl 0), fun _ ↦ rfl⟩, hp⟩
    · intro c₁ t a c₂ ev hrun₁ ih hstep hwraps₁ hstop₁
      have hwraps₂ : ∀ e ∈ past ++ t, e.wraps = false := by
        intro e he
        exact hwraps₁ e (by rw [← List.append_assoc]; exact List.mem_append_left _ he)
      have hstop₂ : ∀ e ∈ t, e.isOf x = false := fun e he ↦ hstop₁ e (List.mem_append_left _ he)
      obtain ⟨hfound, hnode⟩ := ih hwraps₂ hstop₂
      refine ⟨hfound.step hrun₁ hstep hwraps₂ hstop₂, ?_⟩
      exact (node_of_stopped hstep fun e he ↦ hstop₁ e (List.mem_append_right _ he)).trans hnode
  obtain ⟨h, hnode⟩ := hfound hwraps hstop
  refine ⟨h.rounds, ?_⟩
  rcases Nat.eq_zero_or_pos (rest.countP (Event.probes y x)) with hzero | hpos
  · omega
  · rcases hy : c'.node y with - | q
    · rw [h.unborn hy] at hpos
      exact absurd hpos (lt_irrefl 0)
    · obtain ⟨e, he, hle, -⟩ := h.probed q hy hpos
      have hbound := entry_le (hrun.exec hexec) hnode
        (by rw [refutations_of_stopped hstop]; exact hfew) hy he
      have hbound' := UInt64.le_iff_toNat_le.mp hbound
      omega

/-- Two nodes, of which `b` has the other as its seed and probes it in vain. -/
theorem probes_of_stopped_seed :
    let a : NodeId := ⟨[97], 7946⟩
    let b : NodeId := ⟨[98], 7946⟩
    ∃ (c : Cluster) (past rest : List Event) (p : SwimProtocol) (e : Event),
      (machine .stable).Run c past ∧ c.node a = some p ∧ (∀ f ∈ rest, f.isOf a = false) ∧
      e ∈ rest ∧ e.EndsRound b a ∧ e.GivesUp a ∧ rest.countP (Event.probes b a) = 1 ∧
      rest.countP (Event.probes b a) ≤ p.incarnation.toNat + 1 := by
  intro a b
  let config : SwimConfig := ⟨5000, 0, 8, 11211⟩
  let p := start config a none 0
  let q := start config b (some (a, 11211)) 0
  let c := (empty.advance a p []).advance b q []
  let q₁ := (q.directPing .stable a).1
  let c₁ := c.advance b q₁ (q.directPing .stable a).2
  let r := q₁.directDone .stable 2 a 0 []
  let rest : List Event := [.stepped b q (.probe a) q₁, .stepped b q₁ (.directDone [] 2) r.1]
  have hempty : (machine .stable).Run empty [] := .init rfl
  have hrun : (machine .stable).Run c [.booted a, .booted b] :=
    (hempty.step (a := Action.boot a config none 0) rfl).step
      (a := Action.boot b config (some (a, 11211)) 0) rfl
  have hexec : (machine .stable).exec c [.step b (.probe a), .step b (.directDone [] 2)] =
      some (c₁.advance b r.1 r.2, rest) := by
    rfl
  have hall : ∀ e ∈ [Event.booted a, .booted b] ++ rest, e.wraps = false := by
    decide +kernel
  have hstop : ∀ e ∈ rest, e.isOf a = false := by
    decide +kernel
  have h := probes_of_stopped .stable c _ _ rest _ hrun hexec hall a p rfl (by decide) hstop b
  have hends : (Event.stepped b q₁ (.directDone [] 2) r.1).EndsRound b a :=
    ⟨rfl, rfl, by decide +kernel⟩
  exact ⟨c, _, rest, p, _, hrun, rfl, hstop, by simp [rest], hends,
    h.1 [_] _ [] rfl hends ⟨_, List.mem_singleton_self _, by decide⟩, by decide, h.2⟩

/-! ## The end of a stopped node -/

/-- The reaper of `y` makes a round, not before the given time. -/
def Event.Reaps (y : NodeId) (limit : Time) : Event → Prop
  | .stepped id _ (.reap now _) _ => id = y ∧ limit ≤ now
  | _ => False

/-- At one incarnation, the state only moves on. -/
theorem state_le_of_rise {e e' : NodeInfo} (h : e' = e ∨ e.rank < e'.rank)
    (hle : e'.incarnation ≤ e.incarnation) :
    e'.incarnation = e.incarnation ∧ (e' = e ∨ e.state < e'.state) := by
  rcases h with rfl | hlt
  · exact ⟨rfl, Or.inl rfl⟩
  · rcases Prod.Lex.toLex_lt_toLex.mp hlt with hinc | ⟨hinc, hstate⟩
    · exact absurd hinc (not_lt.mpr hle)
    · exact ⟨hinc.symm, Or.inr hstate⟩

/-- The time at which the suspicion of an entry is over. -/
def limit (config : SwimConfig) (e : NodeInfo) : Time :=
  e.lastStateChange + config.suspectTimeout * 1000000

/-- What has become, in the table of `y`, of the entry `e` for a stopped node `x`. -/
structure Out (x y : NodeId) (config : SwimConfig) (e : NodeInfo) (rest : List Event)
    (q : SwimProtocol) : Prop where
  config_eq : q.config = config
  unprobed : ∀ f ∈ rest, f.probes y x = false
  entry : ∃ e', q.members.getNode x = some e' ∧ e'.incarnation = e.incarnation ∧
    (e' = e ∨ e.state < e'.state) ∧
    (e.state ≠ .suspect ∨ (∃ f ∈ rest, f.Reaps y (limit config e)) → e'.state ≠ .suspect)

/-- Another node goes on. -/
theorem Out.other {config : SwimConfig} {e : NodeInfo} {q : SwimProtocol} {f : Event}
    (h : Out x y config e rest q) (hprobes : f.probes y x = false)
    (hreaps : ¬ f.Reaps y (limit config e)) : Out x y config e (rest ++ [f]) q := by
  obtain ⟨e', he', hinc, hmoved, hgone⟩ := h.entry
  refine ⟨h.config_eq, fun g hg ↦ ?_, e', he', hinc, hmoved, fun hend ↦ hgone ?_⟩
  · rcases List.mem_append.mp hg with hg | hg
    · exact h.unprobed g hg
    · obtain rfl := List.mem_singleton.mp hg
      exact hprobes
  · refine hend.imp_right ?_
    rintro ⟨g, hg, hg'⟩
    rcases List.mem_append.mp hg with hg | hg
    · exact ⟨g, hg, hg'⟩
    · obtain rfl := List.mem_singleton.mp hg
      exact absurd hg' hreaps

theorem Out.step {config : SwimConfig} {e : NodeInfo} {q q' : SwimProtocol}
    {a : SwimProtocol.Action} {sent : List Packet} (h : Out x y config e rest q)
    (hq : q.TargetsOther) (hx : x ≠ q.self) (hr : q.step sort a = some (q', sent))
    (hle : ∀ e', q'.members.getNode x = some e' → e'.incarnation ≤ e.incarnation)
    (hdown : e.state ≠ .alive) : Out x y config e (rest ++ [.stepped y q a q']) q' := by
  have hchanges := (step_does hq (.any q a) hr).changes
  obtain ⟨e₁, he₁, hinc₁, hmoved₁, hgone₁⟩ := h.entry
  obtain ⟨e₂, he₂, hrise⟩ := hchanges.invariant (I := fun r ↦ q.members.Rises r.members)
    (fun _ _ hc hr ↦ hr.trans hc.rises) (.refl _) x e₁ he₁
  obtain ⟨hinc₂, hmoved₂⟩ := state_le_of_rise hrise (by rw [hinc₁]; exact hle e₂ he₂)
  have hsuspect : .suspect ≤ e.state := by
    revert hdown
    cases e.state <;> decide
  have hmoved : e₂ = e ∨ e.state < e₂.state := by
    rcases hmoved₁ with rfl | hlt
    · exact hmoved₂
    · rcases hmoved₂ with rfl | hlt'
      · exact Or.inr hlt
      · exact Or.inr (hlt.trans hlt')
  have hconfig : q'.config = config :=
    (hchanges.invariant (I := fun r ↦ r.config = q.config)
      (fun _ _ hc hr ↦ hc.config_eq.trans hr) rfl).trans h.config_eq
  refine ⟨hconfig, fun f hf ↦ ?_, e₂, he₂, hinc₂.trans hinc₁, hmoved, fun hgone ↦ ?_⟩
  · rcases List.mem_append.mp hf with hf | hf
    · exact h.unprobed f hf
    · obtain rfl := List.mem_singleton.mp hf
      -- a target is alive in the table of its prober
      rcases step_round hr with ⟨hno, -⟩ | ⟨t, rfl, -, hpeer, -, -⟩ | ⟨hno, -⟩
      · simp [Event.probes, Action.probes_eq_false hno]
      · refine Bool.and_eq_false_iff.mpr (Or.inr (decide_eq_false ?_))
        rintro rfl
        obtain ⟨e', he', halive⟩ := mem_alivePeers hpeer
        cases he₁.symm.trans he'
        rcases hmoved₁ with rfl | hlt
        · exact hdown halive
        · rw [halive] at hlt
          exact absurd (hsuspect.trans_lt hlt) (by decide)
      · simp [Event.probes, Action.probes_eq_false hno]
  · by_cases hold : e₁.state = .suspect
    · -- the entry is still the one that the reaper has been waiting for
      rcases hmoved₁ with rfl | hlt
      · rcases hgone with hnot | ⟨f, hf, hreaps⟩
        · exact absurd hold hnot
        · rcases List.mem_append.mp hf with hf | hf
          · exact absurd hold (hgone₁ (Or.inr ⟨f, hf, hreaps⟩))
          · obtain rfl := List.mem_singleton.mp hf
            cases a with
            | reap now order =>
                obtain ⟨horder, hr⟩ := Option.ite_none_right_eq_some.mp hr
                cases hr
                have hdue : Overdue q.config.suspectTimeout now e₁ := by
                  have hlong : e₁.lastStateChange + q.config.suspectTimeout * 1000000 ≤ now := by
                    rw [h.config_eq]
                    exact hreaps.2
                  refine ⟨hold, Nat.le_of_add_right_le hlong, ?_⟩
                  rw [Nat.le_div_iff_mul_le (by decide)]
                  exact Nat.le_sub_of_add_le' hlong
                obtain ⟨e', he', hdead⟩ := dead_of_overdue he₁ hx hdue horder
                cases he₂.symm.trans he'
                rw [hdead]
                decide
            | _ => exact hreaps.elim
      · rw [hold] at hlt
        exact absurd hsuspect (not_le.mpr hlt)
    · rcases hmoved₂ with rfl | hlt
      · exact hold
      · intro hnew
        rw [hnew] at hlt
        have hle₁ : .suspect ≤ e₁.state := by
          rcases hmoved₁ with rfl | hlt₁
          · exact hsuspect
          · exact hsuspect.trans hlt₁.le
        exact absurd hle₁ (not_le.mpr hlt)

/-- **A stopped node stays out.**  A run continues while the node `x` takes no more steps; before,
`x` has answered fewer than `2 ^ 64` rumours.  In the table of `y` it is not alive, at the
incarnation with which it stopped.  Then it is not alive there in any later state, and `y` does not
probe it again.  If it is no longer suspect, or once the reaper of `y` has made a round after the
timeout, it is dead or has left and owns no key on the ring of `y`. -/
theorem out_for_good (sort : SortByCount) (c c' : Cluster) (past rest : List Event)
    (as : List Action) (hrun : (machine sort).Run c past)
    (hexec : (machine sort).exec c as = some (c', rest)) (x : NodeId) (p : SwimProtocol)
    (hp : c.node x = some p) (hfew : refutations past x < 2 ^ 64)
    (hstop : ∀ f ∈ rest, f.isOf x = false) (y : NodeId) (q : SwimProtocol)
    (hq : c.node y = some q) (e : NodeInfo) (he : q.members.getNode x = some e)
    (hdown : e.state ≠ .alive) (hlast : e.incarnation = p.incarnation) :
    ∃ q', c'.node y = some q' ∧ ∃ e', q'.members.getNode x = some e' ∧
      e'.incarnation = p.incarnation ∧ e'.state ≠ .alive ∧
      (∀ f ∈ rest, f.probes y x = false) ∧
      (e.state ≠ .suspect ∨ (∃ f ∈ rest, f.Reaps y (limit q.config e)) →
        (e'.state = .dead ∨ e'.state = .left) ∧
        ∀ hash, RingStore.getNodeForKey q'.members.ring hash ≠ some x) := by
  have hout : (∀ f ∈ rest, f.isOf x = false) → c'.node x = some p ∧
      ∃ q', c'.node y = some q' ∧ Out x y q.config e rest q' := by
    refine hrun.exec_invariant (I := fun c t ↦ (∀ f ∈ t, f.isOf x = false) → c.node x = some p ∧
      ∃ q', c.node y = some q' ∧ Out x y q.config e t q') hexec ?_ ?_
    · refine fun _ ↦ ⟨hp, q, hq, rfl, List.forall_mem_nil _, e, he, rfl, Or.inl rfl, ?_⟩
      rintro (hnot | ⟨f, hf, -⟩)
      · exact hnot
      · cases hf
    · intro c₁ t a c₂ ev hrun₁ ih hstep hstop₁
      have hnode₂ := node_of_stopped hstep fun f hf ↦ hstop₁ f (List.mem_append_right _ hf)
      obtain ⟨hx₁, q₁, hq₁, h₁⟩ := ih fun f hf ↦ hstop₁ f (List.mem_append_left _ hf)
      rw [hx₁] at hnode₂
      refine ⟨hnode₂, ?_⟩
      have hrun₂ : (machine sort).Run c₂ (past ++ (t ++ ev)) := by
        rw [← List.append_assoc]
        exact hrun₁.step hstep
      rcases step_cases hstep with ⟨id, config, seed, now, hnone, rfl, rfl⟩ |
        ⟨id, q', b, r, hq', hr, -, rfl, rfl⟩
      · have hy : y ≠ id := by
          rintro rfl
          rw [hq₁] at hnone
          cases hnone
        exact ⟨q₁, (advance_node_of_ne hy).trans hq₁, h₁.other rfl False.elim⟩
      · by_cases hy : y = id
        · subst hy
          cases hq₁.symm.trans hq'
          obtain ⟨hself, sent, hnode⟩ := node_run hrun₁ y q₁ hq₁
          have hne : x ≠ q₁.self := by
            rw [hself]
            rintro rfl
            have hof := hstop₁ _ (List.mem_append_right _ (List.mem_singleton_self _))
            exact absurd rfl (of_decide_eq_false hof)
          refine ⟨r.1, advance_node_self .., h₁.step (targetsOther_of_run hnode) hne hr ?_ hdown⟩
          intro e' he'
          rw [hlast]
          exact entry_le hrun₂ hnode₂ (by rw [refutations_of_stopped hstop₁]; exact hfew)
            (advance_node_self ..) he'
        · refine ⟨q₁, (advance_node_of_ne hy).trans hq₁, h₁.other ?_ ?_⟩
          · exact Bool.and_eq_false_iff.mpr (Or.inl (decide_eq_false (Ne.symm hy)))
          · cases b with
            | reap now order => exact fun hreaps ↦ hy hreaps.1.symm
            | _ => exact False.elim
  obtain ⟨-, q', hq', h⟩ := hout hstop
  obtain ⟨e', he', hinc, hmoved, hgone⟩ := h.entry
  have halive : e'.state ≠ .alive := by
    rcases hmoved with rfl | hlt
    · exact hdown
    · intro hnew
      rw [hnew] at hlt
      revert hlt
      cases e.state <;> decide
  refine ⟨q', hq', e', he', hinc.trans hlast, halive, h.unprobed, fun hend ↦ ?_⟩
  have hstate : e'.state = .dead ∨ e'.state = .left := by
    have hsuspect := hgone hend
    revert halive hsuspect
    cases e'.state <;> decide
  refine ⟨hstate, fun hash howner ↦ ?_⟩
  obtain ⟨-, sent, hnode⟩ := node_run (hrun.exec hexec) y q' hq'
  obtain ⟨token, hmem, -⟩ := RingStore.getNodeForKey_eq_some howner
  obtain ⟨e'', he'', hpresent⟩ := (ringInv_of_run hnode).present _ hmem
  cases he'.symm.trans he''
  rcases hstate with hstate | hstate <;> rw [hstate] at hpresent <;> cases hpresent

/-- The seed of `b` has not answered, and is declared dead five seconds later. -/
theorem out_for_good_seed :
    let a : NodeId := ⟨[97], 7946⟩
    let b : NodeId := ⟨[98], 7946⟩
    ∃ (c : Cluster) (tr : List Event) (q : SwimProtocol) (e : NodeInfo),
      (machine .stable).Run c tr ∧ c.node b = some q ∧ q.members.getNode a = some e ∧
      (e.state = .dead ∨ e.state = .left) ∧
      ∀ hash, RingStore.getNodeForKey q.members.ring hash ≠ some a := by
  intro a b
  let config : SwimConfig := ⟨5000, 0, 8, 11211⟩
  let p := start config a none 0
  let q := start config b (some (a, 11211)) 0
  let c := (empty.advance a p []).advance b q []
  let q₁ := (q.directPing .stable a).1
  let r := q₁.directDone .stable 2 a 0 []
  let c₂ := (c.advance b q₁ (q.directPing .stable a).2).advance b r.1 r.2
  have hempty : (machine .stable).Run empty [] := .init rfl
  have hexec : (machine .stable).exec empty [.boot a config none 0,
      .boot b config (some (a, 11211)) 0, .step b (.probe a), .step b (.directDone [] 2)] =
      some (c₂, [.booted a, .booted b, .stepped b q (.probe a) q₁,
        .stepped b q₁ (.directDone [] 2) r.1]) := rfl
  have hrun := hempty.exec hexec
  let order := r.1.members.nodes.entries
  have hreap : (machine .stable).exec c₂ [.step b (.reap 5000000002 order)] =
      some (c₂.advance b (r.1.suspicionReaper 5000000002 order) [],
        [.stepped b r.1 (.reap 5000000002 order) (r.1.suspicionReaper 5000000002 order)]) := rfl
  have hentry : r.1.members.getNode a = some ⟨a, 11211, .suspect, 0, 2⟩ := by decide +kernel
  obtain ⟨q', hq', e', he', -, -, -, hend⟩ := out_for_good .stable c₂ _ _ _ _ hrun hreap a p rfl
    (by decide) (by decide +kernel) b r.1 rfl _ hentry (by decide) rfl
  obtain ⟨hstate, hring⟩ := hend (Or.inr ⟨_, List.mem_singleton_self _, rfl, by decide⟩)
  exact ⟨_, _, q', e', hrun.exec hreap, hq', he', hstate, hring⟩

end Cluster

end Pensieve
