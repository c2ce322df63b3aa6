import Pensieve.Membership.Detection

/-!
# Where rumours come from

What a node records of others is mostly hearsay.  Behind all of it there is an event: a member is
suspect because somebody has probed it in vain while it was alive in that node's table, it is dead
because the suspicion of it has expired somewhere, and it is alive at an incarnation other than
zero because it has raised its incarnation to that number itself (`hearsay_is_grounded`).  That a
member has left is never said.

A node takes up a report only if it outranks the entry, and passes on what it has taken up.  So it
is enough that its own findings are grounded: that of the probe loop, of the reaper, and the answer
to a rumour.
-/

namespace Pensieve

open Foundation

/-- Every entry of the table satisfies `C`, by its state, its node and its incarnation. -/
def MemberList.Sound (C : NodeState → NodeId → UInt64 → Prop) (m : MemberList) : Prop :=
  ∀ id e, m.getNode id = some e → C e.state id e.incarnation

/-- What the update says satisfies `C`. -/
def MembershipUpdate.Sound (C : NodeState → NodeId → UInt64 → Prop) (u : MembershipUpdate) : Prop :=
  C u.type.newState u.node u.incarnation

variable {sort : SortByCount} {C C' : NodeState → NodeId → UInt64 → Prop}

namespace MemberList

variable {m : MemberList}

theorem Sound.updateState {id : NodeId} {newState : NodeState} {incarnation : UInt64}
    (h : m.Sound C) (hid : C newState id incarnation) (now : Time) :
    (m.updateState id newState incarnation now).1.Sound C := by
  intro id' e he
  by_cases hne : id' = id
  · subst hne
    rw [getNode_updateState] at he
    obtain ⟨e₀, he₀, rfl⟩ := Option.map_eq_some_iff.mp he
    split_ifs
    · exact hid
    · exact h id' e₀ he₀
  · rw [getNode_updateState_of_ne hne] at he
    exact h id' e he

theorem Sound.addNode {info : NodeInfo} (h : m.Sound C)
    (hinfo : C info.state info.id info.incarnation) : (m.addNode info).1.Sound C := by
  intro id e he
  by_cases hne : id = info.id
  · subst hne
    rw [getNode_addNode] at he
    obtain rfl := Option.some.inj he
    split
    · rename_i e₀ he₀
      split_ifs
      · exact hinfo
      · exact h _ e₀ he₀
    · exact hinfo
  · rw [getNode_addNode_of_ne hne] at he
    exact h id e he

end MemberList

namespace SwimProtocol

open MemberList

/-- What the node has recorded and queued satisfies `C`. -/
structure Sound (C : NodeState → NodeId → UInt64 → Prop) (p : SwimProtocol) : Prop where
  entry : p.members.Sound C
  queued : ∀ q ∈ p.disseminator.queue, q.update.Sound C

variable {p p' : SwimProtocol} {now : Time}

theorem Sound.mono (h : p.Sound C) (hle : ∀ s id i, C s id i → C' s id i) : p.Sound C' :=
  ⟨fun id e he ↦ hle _ _ _ (h.entry id e he), fun q hq ↦ hle _ _ _ (h.queued q hq)⟩

theorem Sound.enqueue {u : MembershipUpdate} (h : p.Sound C) (hu : u.Sound C) :
    ∀ q ∈ (p.disseminator.enqueue u).queue, q.update.Sound C := by
  intro q hq
  rcases Disseminator.mem_enqueueIn hq with rfl | hq
  · exact hu
  · exact h.queued q hq

theorem sound_start (hzero : ∀ id, C .alive id 0) (config : SwimConfig) (self : NodeId)
    (seed : Option (NodeId × UInt16)) (now : Time) : (start config self seed now).Sound C := by
  have hempty : MemberList.empty.Sound C := fun _ _ he ↦ nomatch he
  have hself : (MemberList.empty.addNode ⟨self, config.selfDataPort, .alive, 0, now⟩).1.Sound C :=
    hempty.addNode (hzero self)
  constructor
  · rcases seed with - | ⟨id, port⟩
    · exact hself
    · exact hself.addNode (hzero id)
  · intro q hq
    obtain rfl := List.mem_singleton.mp hq
    exact hzero self

theorem newState_of_join {u : MembershipUpdate} (h : u.type = .join ∨ u.type = .alive) :
    u.type.newState = .alive := by
  rcases h with h | h <;> rw [h] <;> rfl

/-- Quiet changes by what satisfies `C` keep it. -/
theorem Quiet.sound (hc : Quiet sort (MembershipUpdate.Sound C) p p') (h : p.Sound C) :
    p'.Sound C := by
  obtain ⟨hc, hinc⟩ := hc
  cases hc with
  | addNode u now hid hu htype =>
      rw [MembershipUpdate.Sound, newState_of_join htype] at hu
      exact ⟨h.entry.addNode hu, h.queued⟩
  | updateState u now hid hu => exact ⟨h.entry.updateState hu now, h.queued⟩
  | enqueue u hid hu => exact ⟨h.entry, h.enqueue hu⟩
  | getUpdates limit =>
      refine ⟨h.entry, fun q hq ↦ ?_⟩
      obtain ⟨q', hq', hupd⟩ := Disseminator.update_mem_of_getUpdates hq
      rw [← hupd]
      exact h.queued q' hq'
  | refute now => exact absurd hinc (by simp [refute])
  | book => exact ⟨h.entry, h.queued⟩

theorem Quiets.sound (hc : Quiets sort (MembershipUpdate.Sound C) p p') (h : p.Sound C) :
    p'.Sound C := by
  induction hc with
  | refl => exact h
  | tail _ hc ih => exact hc.sound ih

theorem QuietDoes.sound_sent {r : SwimProtocol × List Packet}
    (hdoes : QuietDoes sort (MembershipUpdate.Sound C) p r) (h : p.Sound C) :
    ∀ packet ∈ r.2, ∀ u ∈ packet.msg.updates, u.Sound C := by
  intro packet hpacket u hu
  obtain ⟨-, q', hq', hcarries⟩ := hdoes.sent packet hpacket
  obtain ⟨e, he, rfl⟩ := hcarries u hu
  exact (hq'.sound h).queued e he

/-! ## Findings

A report that does not outrank the entry changes nothing, so it needs no grounds. -/

theorem report_of_not_lt {id : NodeId} {type : UpdateType} {incarnation : UInt64}
    (h : ∀ e, p.members.getNode id = some e → ¬ e.rank < toLex (incarnation, type.newState)) :
    p.report now id type incarnation = p := by
  rw [report, MemberList.updateState]
  rcases he : p.members.nodes.lookup id with - | e
  · rfl
  · have hge := h e he
    rw [NodeInfo.rank_lt_iff, not_or] at hge
    simp only [if_neg hge.1]
    rw [if_neg (by simpa using hge.2)]

variable {G : MembershipUpdate → Prop}

theorem report_grounded {id : NodeId} (h : id ≠ p.self) {type : UpdateType} {incarnation : UInt64}
    (hu : (∃ e, p.members.getNode id = some e ∧ e.rank < toLex (incarnation, type.newState)) →
      G ⟨type, id, incarnation, 0⟩) :
    Quiets sort G p (p.report now id type incarnation) := by
  by_cases hlt : ∃ e, p.members.getNode id = some e ∧ e.rank < toLex (incarnation, type.newState)
  · exact report_quiets h (hu hlt)
  · rw [report_of_not_lt fun e he hrank ↦ hlt ⟨e, he, hrank⟩]

/-- The member that has not answered was alive. -/
theorem markSuspect_grounded {target : NodeId} (h : target ≠ p.self)
    (hu : ∀ e, p.members.getNode target = some e → e.state = .alive →
      G ⟨.suspect, target, e.incarnation, 0⟩) :
    Quiets sort G p (p.markSuspect now target) := by
  rw [markSuspect]
  split
  · exact .refl
  · rename_i info hinfo
    refine report_grounded h ?_
    rintro ⟨e, he, hlt⟩
    cases hinfo.symm.trans he
    refine hu info hinfo ?_
    rcases Prod.Lex.toLex_lt_toLex.mp hlt with hinc | ⟨-, hstate⟩
    · exact absurd hinc (lt_irrefl _)
    · revert hstate
      dsimp only [UpdateType.newState]
      cases info.state <;> decide

/-- What a node may find out by itself in a step. -/
structure Findings (G : MembershipUpdate → Prop) (p : SwimProtocol) (a : Action)
    (p' : SwimProtocol) : Prop where
  suspect : ∀ kind target seq e, p.probe.current = some (kind, target, seq) →
    p.pendingAcks seq ≠ some true → p'.probe = .waiting → p.members.getNode target = some e →
    e.state = .alive → G ⟨.suspect, target, e.incarnation, 0⟩
  dead : ∀ now order id e, a = .reap now order → p.members.getNode id = some e →
    Overdue p.config.suspectTimeout now e → G ⟨.dead, id, e.incarnation, 0⟩

theorem roundDone_grounded {target : NodeId} (h : target ≠ p.self)
    (hu : ∀ e, p.members.getNode target = some e → e.state = .alive →
      G ⟨.suspect, target, e.incarnation, 0⟩) :
    Quiets sort G p { p.markSuspect now target with probe := .waiting } :=
  (markSuspect_grounded h hu).trans (waiting_quiets _)

theorem not_acked_of_closeSeq {seq : UInt32} (h : ¬ (p.closeSeq seq).1 = true) :
    p.pendingAcks seq ≠ some true := by
  intro hacked
  rw [closeSeq, hacked] at h
  exact h rfl

theorem directDone_grounded (hp : p.TargetsOther) {target : NodeId} {seq : UInt32}
    (hprobe : p.probe = .direct target seq) (intermediaries : List NodeId)
    (hg : Findings G p (.directDone intermediaries now)
      (p.directDone sort now target seq intermediaries).1) :
    QuietDoes sort G p (p.directDone sort now target seq intermediaries) := by
  have htarget : target ≠ p.self := hp target (by rw [hprobe]; rfl)
  refine QuietDoes.after ?_ (closeSeq_quiets hp seq)
  have hsuspect := hg.suspect .direct target seq
  simp only [directDone] at hsuspect ⊢
  split_ifs at hsuspect ⊢ with hacked hempty
  · exact (waiting_quiets _).does
  · refine (roundDone_grounded (p := (p.closeSeq seq).2) htarget fun e he ↦ ?_).does
    exact hsuspect e (by rw [hprobe]; rfl) (not_acked_of_closeSeq hacked) rfl he
  · have hnext : QuietDoes sort G (p.closeSeq seq).2.openSeq.2 _ :=
      askNext_quiet (p := (p.closeSeq seq).2.openSeq.2) htarget p.seqCounter intermediaries
    exact hnext.after (openSeq_quiets (p := (p.closeSeq seq).2) hp)

theorem indirectDone_grounded (hp : p.TargetsOther) {target : NodeId} {seq : UInt32}
    (hprobe : p.probe = .indirect target seq [])
    (hg : Findings G p (.indirectDone now) (p.indirectDone now target seq)) :
    Quiets sort G p (p.indirectDone now target seq) := by
  have htarget : target ≠ p.self := hp target (by rw [hprobe]; rfl)
  refine (closeSeq_quiets hp seq).trans ?_
  have hsuspect := hg.suspect .indirect target seq
  simp only [indirectDone] at hsuspect ⊢
  split_ifs at hsuspect ⊢ with hacked
  · exact waiting_quiets _
  · refine roundDone_grounded (p := (p.closeSeq seq).2) htarget fun e he ↦ ?_
    exact hsuspect e (by rw [hprobe]; rfl) (not_acked_of_closeSeq hacked) rfl he

theorem reapEntry_grounded (p : SwimProtocol) (now : Time) {id : NodeId} {node : NodeInfo}
    (hu : Overdue p.config.suspectTimeout now node → G ⟨.dead, id, node.incarnation, 0⟩) :
    Quiets sort G p (p.reapEntry now id node) := by
  rw [reapEntry]
  split_ifs with hself hstate hdue
  · exact .refl
  · exact .refl
  · exact report_quiets hself (hu ⟨not_not.mp hstate, hdue⟩)
  · exact .refl

theorem suspicionReaper_grounded
    (hu : ∀ id e, p.members.getNode id = some e → Overdue p.config.suspectTimeout now e →
      G ⟨.dead, id, e.incarnation, 0⟩) {order : List (Σ _ : NodeId, NodeInfo)}
    (horder : order.Perm p.members.nodes.entries) :
    Quiets sort G p (p.suspicionReaper now order) := by
  suffices h : ∀ (es : List (Σ _ : NodeId, NodeInfo)) (q : SwimProtocol),
      (∀ e ∈ es, e ∈ p.members.nodes.entries) → q.config = p.config →
      Quiets sort G q (es.foldl (fun q e ↦ q.reapEntry now e.1 e.2) q) from
    h _ p (fun _ he ↦ horder.mem_iff.mp he) rfl
  intro es
  induction es with
  | nil => exact fun _ _ _ ↦ .refl
  | cons e es ih =>
      intro q hes hq
      have he : p.members.getNode e.1 = some e.2 :=
        AList.mem_lookup_iff.mpr (hes e List.mem_cons_self)
      have hrest := ih (q.reapEntry now e.1 e.2) (fun x hx ↦ hes x (List.mem_cons_of_mem _ hx))
        ((reapEntry_config ..).trans hq)
      refine (reapEntry_grounded q now fun hdue ↦ ?_).trans hrest
      exact hu e.1 e.2 he (hq ▸ hdue)

/-- A step that does not handle a message says only what the node has found out. -/
theorem step_grounded {a : Action} {r : SwimProtocol × List Packet} (hp : p.TargetsOther)
    (hg : Findings G p a r.1) (h : p.step sort a = some r) :
    (∃ msg now, a = .receive msg now ∧ r = p.handleMessage sort now msg) ∨
      a.updates = [] ∧ QuietDoes sort G p r := by
  cases a with
  | probe target =>
      obtain ⟨⟨-, htarget⟩, hstep⟩ := Option.ite_none_right_eq_some.mp h
      obtain rfl := Option.some.inj hstep
      exact Or.inr ⟨rfl, directPing_quiet hp (ne_of_mem_alivePeers htarget)⟩
  | directDone intermediaries now =>
      rw [step] at h
      split at h
      · rename_i target seq hprobe
        obtain ⟨-, hstep⟩ := Option.ite_none_right_eq_some.mp h
        obtain rfl := Option.some.inj hstep
        exact Or.inr ⟨rfl, directDone_grounded hp hprobe intermediaries hg⟩
      · cases h
  | askNext =>
      rw [step] at h
      split at h
      · rename_i target seq relay rest hprobe
        have htarget : target ≠ p.self := hp target (by rw [hprobe]; rfl)
        obtain rfl := Option.some.inj h
        exact Or.inr ⟨rfl, askNext_quiet htarget seq (relay :: rest)⟩
      · cases h
  | indirectDone now =>
      rw [step] at h
      split at h
      · rename_i target seq hprobe
        obtain rfl := Option.some.inj h
        exact Or.inr ⟨rfl, (indirectDone_grounded hp hprobe hg).does⟩
      · cases h
  | relayDone r =>
      obtain ⟨-, hstep⟩ := Option.ite_none_right_eq_some.mp h
      obtain rfl := Option.some.inj hstep
      exact Or.inr ⟨rfl, relayDone_quiet hp r⟩
  | receive msg now =>
      obtain rfl := Option.some.inj h
      exact Or.inl ⟨msg, now, rfl, rfl⟩
  | reap now order =>
      obtain ⟨horder, hstep⟩ := Option.ite_none_right_eq_some.mp h
      obtain rfl := Option.some.inj hstep
      exact Or.inr ⟨rfl,
        (suspicionReaper_grounded (fun id e ↦ hg.dead now order id e rfl) horder).does⟩

/-! ## Messages -/

theorem Sound.refute (h : p.Sound C) (hnext : C .alive p.self (p.incarnation + 1)) (now : Time) :
    (p.refute now).Sound C :=
  ⟨h.entry.updateState hnext now, h.enqueue hnext⟩

/-- The node answers the rumours among the updates one by one. -/
theorem applyUpdates_sound (now : Time) (us : List MembershipUpdate) (h : p.Sound C)
    (hus : ∀ u ∈ us, u.Sound C)
    (hanswer : ∀ k, k < rumours p.self us →
      C .alive p.self (p.incarnation + UInt64.ofNat (k + 1))) :
    (p.applyUpdates now us).Sound C := by
  induction us generalizing p with
  | nil => exact h
  | cons u us ih =>
      have hrest : ∀ v ∈ us, v.Sound C := fun v hv ↦ hus v (List.mem_cons_of_mem _ hv)
      have hu : u.Sound C := hus u List.mem_cons_self
      rw [rumours_cons] at hanswer
      rw [applyUpdates, List.foldl_cons, ← applyUpdates]
      by_cases hself : u.node = p.self
      · by_cases htype : u.type = .suspect ∨ u.type = .dead
        · have happly : p.applyUpdate now u = p.refute now := by
            rw [applyUpdate, if_pos hself, if_pos (by simpa using htype)]
          rw [if_pos ⟨hself, htype⟩] at hanswer
          rw [happly]
          refine ih (h.refute (hanswer 0 (by omega)) now) hrest fun k hk ↦ ?_
          have hnext := hanswer (k + 1) (Nat.add_lt_add_right hk 1)
          have hsum : p.incarnation + 1 + UInt64.ofNat (k + 1) =
              p.incarnation + UInt64.ofNat (k + 1 + 1) := by
            rw [UInt64.ofNat_add (k + 1) 1, UInt64.add_assoc, UInt64.add_comm 1]
            rfl
          rw [← hsum] at hnext
          exact hnext
        · have happly : p.applyUpdate now u = p := by
            rw [applyUpdate, if_pos hself, if_neg (by simpa using htype)]
          rw [if_neg fun hboth ↦ htype hboth.2, Nat.add_zero] at hanswer
          rw [happly]
          exact ih h hrest hanswer
      · rw [if_neg fun hboth ↦ hself hboth.1, Nat.add_zero] at hanswer
        rw [applyUpdate, if_neg hself]
        split_ifs with htype
        · have halive : C .alive u.node u.incarnation := by
            rw [MembershipUpdate.Sound, newState_of_join (by simpa using htype)] at hu
            exact hu
          exact ih (p := { p with members := _ }) ⟨h.entry.addNode halive, h.queued⟩ hrest hanswer
        · exact ih (p := { p with members := _ }) ⟨h.entry.updateState hu now, h.queued⟩ hrest
            hanswer

/-- **What one step of a node keeps.**  Its findings, what comes in and its answers satisfy `C`. -/
theorem step_sound {a : Action} {r : SwimProtocol × List Packet} (hp : p.TargetsOther)
    (h : p.Sound C) (hzero : ∀ id, C .alive id 0)
    (hg : Findings (MembershipUpdate.Sound C) p a r.1) (hus : ∀ u ∈ a.updates, u.Sound C)
    (hanswer : ∀ k, k < rumours p.self a.updates →
      C .alive p.self (p.incarnation + UInt64.ofNat (k + 1)))
    (hstep : p.step sort a = some r) :
    r.1.Sound C ∧ ∀ packet ∈ r.2, ∀ u ∈ packet.msg.updates, u.Sound C := by
  rcases step_grounded hp hg hstep with ⟨msg, now, rfl, rfl⟩ | ⟨-, hquiet⟩
  · have hwelcome : Quiets sort (MembershipUpdate.Sound C) p (p.welcome now msg) :=
      welcome_quiets p now (hzero _)
    have hbefore : (p.beforeUpdate now msg msg.updates).Sound C := by
      refine applyUpdates_sound now msg.updates (hwelcome.sound h) hus ?_
      rw [hwelcome.changes.self_eq, hwelcome.incarnation_eq]
      exact hanswer
    have hchanges : Changes sort (MembershipUpdate.Sound C) p
        (p.beforeUpdate now msg msg.updates) :=
      beforeUpdate_changes p now (hzero _) hus
    have hdispatch : QuietDoes sort (MembershipUpdate.Sound C) (p.beforeUpdate now msg msg.updates)
        (p.handleMessage sort now msg) :=
      dispatch_quiet (hchanges.targetsOther hp) msg
    exact ⟨hdispatch.quiets.sound hbefore, hdispatch.sound_sent hbefore⟩
  · exact ⟨hquiet.quiets.sound h, hquiet.sound_sent h⟩

end SwimProtocol

/-! ## Clusters -/

namespace Cluster

open SwimProtocol

variable {c c' : Cluster} {tr tr' : List Event}

namespace Event

/-- A node has probed `x` in vain, which was alive in its table at the incarnation. -/
def FailsProbe (x : NodeId) (incarnation : UInt64) : Event → Prop
  | .stepped _ before _ after => after.probe = .waiting ∧ ∃ kind seq e,
      before.probe.current = some (kind, x, seq) ∧ before.pendingAcks seq ≠ some true ∧
      before.members.getNode x = some e ∧ e.state = .alive ∧ e.incarnation = incarnation
  | .booted _ => False

/-- The reaper of a node comes upon an entry that has been suspect for long enough. -/
def Expires (x : NodeId) (incarnation : UInt64) : Event → Prop
  | .stepped _ before (.reap now _) _ => ∃ e, before.members.getNode x = some e ∧
      Overdue before.config.suspectTimeout now e ∧ e.incarnation = incarnation
  | _ => False

/-- The node `x` answers rumours about itself, and reaches the incarnation in doing so. -/
def Refutes (x : NodeId) (incarnation : UInt64) : Event → Prop
  | .stepped id before a _ => id = x ∧ ∃ k, k < rumours x a.updates ∧
      incarnation = before.incarnation + UInt64.ofNat (k + 1)
  | .booted _ => False

end Event

/-- What has to have happened for a node to be in a state at an incarnation, somewhere. -/
def Cause (tr : List Event) : NodeState → NodeId → UInt64 → Prop
  | .alive, x, i => i = 0 ∨ ∃ e ∈ tr, e.Refutes x i
  | .suspect, x, i => ∃ e ∈ tr, e.FailsProbe x i
  | .dead, x, i => ∃ before e after, tr = before ++ e :: after ∧ e.Expires x i ∧
      ∃ f ∈ before, f.FailsProbe x i
  | .left, _, _ => False

theorem Cause.mono {s : NodeState} {x : NodeId} {i : UInt64} (h : Cause tr s x i)
    (htr : tr <+: tr') : Cause tr' s x i := by
  obtain ⟨rest, rfl⟩ := htr
  cases s with
  | alive =>
      rcases h with hzero | ⟨e, he, hrefutes⟩
      · exact Or.inl hzero
      · exact Or.inr ⟨e, List.mem_append_left _ he, hrefutes⟩
  | suspect =>
      obtain ⟨e, he, hfails⟩ := h
      exact ⟨e, List.mem_append_left _ he, hfails⟩
  | dead =>
      obtain ⟨before, e, after, rfl, hexpires, hcause⟩ := h
      exact ⟨before, e, after ++ rest, by rw [List.append_assoc, List.cons_append], hexpires,
        hcause⟩
  | left => exact h

/-- Everything that is said anywhere has a cause. -/
structure Grounded (tr : List Event) (c : Cluster) : Prop where
  node : ∀ id p, c.node id = some p → p.Sound (Cause tr)
  sent : ∀ packet ∈ c.sent, ∀ u ∈ packet.msg.updates, u.Sound (Cause tr)

/-- What a node finds out in a step is caused by that step. -/
theorem findings_cause {id : NodeId} {p p' : SwimProtocol} {a : SwimProtocol.Action}
    (h : p.Sound (Cause tr)) :
    Findings (MembershipUpdate.Sound (Cause (tr ++ [.stepped id p a p']))) p a p' := by
  constructor
  · intro kind target seq e hcurrent hacked hwaiting he halive
    exact ⟨_, List.mem_append_right _ (List.mem_singleton_self _), hwaiting, kind, seq, e, hcurrent,
      hacked, he, halive, rfl⟩
  · rintro now order x e rfl he hdue
    have hcause := h.entry x e he
    rw [hdue.1] at hcause
    exact ⟨tr, _, [], rfl, ⟨e, he, hdue, rfl⟩, hcause⟩

theorem Grounded.step {a : Action} {ev : List Event} (h : Grounded tr c)
    (hrun : (machine sort).Run c tr) (hstep : c.step sort a = some (c', ev)) :
    Grounded (tr ++ ev) c' := by
  have hmono : ∀ s id i, Cause tr s id i → Cause (tr ++ ev) s id i :=
    fun _ _ _ hcause ↦ hcause.mono (List.prefix_append ..)
  have hnode : ∀ id p, c.node id = some p → p.Sound (Cause (tr ++ ev)) :=
    fun id p hp ↦ (h.node id p hp).mono hmono
  rcases step_cases hstep with ⟨id, config, seed, now, hnone, rfl, rfl⟩ |
    ⟨id, p, b, r, hp, hr, harrives, rfl, rfl⟩
  · refine ⟨forall_advance hnode (sound_start (fun _ ↦ Or.inl rfl) ..),
      fun packet hpacket u hu ↦ ?_⟩
    exact hmono _ _ _ (h.sent packet (by simpa [advance] using hpacket) u hu)
  · obtain ⟨hself, sent, hprun⟩ := node_run hrun id p hp
    have hus : ∀ u ∈ b.updates, u.Sound (Cause (tr ++ [.stepped id p b r.1])) := by
      intro u hu
      cases b with
      | receive msg now => exact hmono _ _ _ (h.sent _ (harrives msg now rfl) u hu)
      | _ => cases hu
    have hanswer : ∀ k, k < rumours p.self b.updates → Cause (tr ++ [.stepped id p b r.1]) .alive
        p.self (p.incarnation + UInt64.ofNat (k + 1)) := by
      rw [hself]
      exact fun k hk ↦
        Or.inr ⟨_, List.mem_append_right _ (List.mem_singleton_self _), rfl, k, hk, rfl⟩
    obtain ⟨hsound, hsent⟩ := step_sound (targetsOther_of_run hprun) (hnode id p hp)
      (fun _ ↦ Or.inl rfl) (findings_cause (h.node id p hp)) hus hanswer hr
    refine ⟨forall_advance hnode hsound, fun packet hpacket u hu ↦ ?_⟩
    rcases List.mem_append.mp hpacket with hpacket | hpacket
    · exact hmono _ _ _ (h.sent packet hpacket u hu)
    · exact hsent packet hpacket u hu

/-- **Hearsay is grounded.**  In every run of a cluster, whatever is recorded of a node in any
table, and whatever is said of it in any queue or message, has a cause in that run: somebody has
probed a suspect in vain, and has had it suspect for the timeout before it was dead; a node that is
alive at an incarnation other than zero has reached it by answering rumours; and nobody is said to
have left. -/
theorem hearsay_is_grounded (sort : SortByCount) (c : Cluster) (tr : List Event)
    (hrun : (machine sort).Run c tr) :
    (∀ y p, c.node y = some p →
      (∀ x e, p.members.getNode x = some e → Cause tr e.state x e.incarnation) ∧
      ∀ q ∈ p.disseminator.queue,
        Cause tr q.update.type.newState q.update.node q.update.incarnation) ∧
    ∀ packet ∈ c.sent, ∀ u ∈ packet.msg.updates, Cause tr u.type.newState u.node u.incarnation := by
  have h : Grounded tr c := by
    refine hrun.invariant (I := fun c tr ↦ Grounded tr c) ?_ ?_
    · rintro _ rfl
      exact ⟨nofun, nofun⟩
    · exact fun c tr a c' ev hrun ih hstep ↦ ih.step hrun hstep
  exact ⟨fun y p hp ↦ ⟨(h.node y p hp).entry, (h.node y p hp).queued⟩, h.sent⟩

/-- The seed of `b` does not answer, and is suspect at `b` for that reason. -/
theorem hearsay_is_grounded_seed :
    let a : NodeId := ⟨[97], 7946⟩
    let b : NodeId := ⟨[98], 7946⟩
    ∃ (c : Cluster) (tr : List Event) (p : SwimProtocol), (machine .stable).Run c tr ∧
      c.node b = some p ∧ p.members.getNode a = some ⟨a, 11211, .suspect, 0, 2⟩ ∧
      ∃ e ∈ tr, e.FailsProbe a 0 := by
  intro a b
  have hsome : ((machine .stable).exec empty [.boot a ⟨5000, 0, 8, 11211⟩ none 0,
      .boot b ⟨5000, 0, 8, 11211⟩ (some (a, 11211)) 0, .step b (.probe a),
      .step b (.directDone [] 2)]).bind (fun x ↦ (x.1.node b).bind fun p ↦ p.members.getNode a) =
      some ⟨a, 11211, .suspect, 0, 2⟩ := by
    decide +kernel
  obtain ⟨⟨c, tr⟩, hexec, hnode⟩ := Option.bind_eq_some_iff.mp hsome
  obtain ⟨p, hp, he⟩ := Option.bind_eq_some_iff.mp hnode
  have hempty : (machine .stable).Run empty [] := .init rfl
  have hrun := hempty.exec hexec
  exact ⟨c, tr, p, hrun, hp, he, ((hearsay_is_grounded .stable c tr hrun).1 b p hp).1 a _ he⟩

end Cluster

end Pensieve
