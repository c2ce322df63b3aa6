import Pensieve.Io.RuntimeSafety

/-!
# The event loop

`IoUringContext::run`: the loop in which the main thread spends its life, and what
holds of it in every run.

`Loop` is the invariant.  Outside of the two phases in which coroutines run nothing is
being executed; as long as every `submit` hands over all that is queued, the queue is
empty whenever a coroutine wants a slot; and the read of the stop event stays on the
ring until `stop` has been called, if the kernel keeps it there.
-/

namespace Pensieve.Runtime

open Foundation

section

variable {O W : Type*} {s s' : Runtime O W} {tr ev : List (Event O)}

/-- `stop` is called only after `run`. -/
def StopAfterStart (tr : List (Event O)) : Prop :=
  Guarded (fun past x ↦ x = .started → .stopRequested ∉ past) tr

/-- The kernel finishes the read of the stop event only after `stop` has written to it.  This is an
assumption: `stop_fd_` is non-blocking, so a kernel may finish the read at once with `EAGAIN`. -/
def ReadBlocks (tr : List (Event O)) : Prop :=
  Guarded (fun past x ↦ ∀ res, x = .posted .stop res → .stopRequested ∈ past) tr

/-- The loop is being executed. -/
def Looping (s : Runtime O W) : Prop :=
  s.phase = .test ∨ s.phase = .blocked ∨ s.phase = .draining

/-- The invariant of the loop. -/
structure Loop (s : Runtime O W) (tr : List (Event O)) : Prop where
  idle : ¬ s.Busy → s.phase ≠ .crashed → s.stack = []
  queue : .backlog ∉ tr → s.Busy ∨ s.phase = .blocked → s.ring.sq = []
  signalled : s.signalled = true → .stopRequested ∈ tr
  stopping : StopAfterStart tr → s.signalled = true → s.running = false
  posted : ReadBlocks tr → ∀ res, (.stop, res) ∈ s.ring.cq → s.signalled = true
  armed : 0 < s.ring.depth → .backlog ∉ tr → StopAfterStart tr → ReadBlocks tr → s.Looping →
    .stop ∈ s.ring.entries ∨ s.running = false ∧ s.phase ≠ .blocked

theorem StopAfterStart.of_append (h : StopAfterStart (tr ++ ev)) : StopAfterStart tr :=
  Guarded.of_prefix h ⟨ev, rfl⟩

theorem ReadBlocks.of_append (h : ReadBlocks (tr ++ ev)) : ReadBlocks tr :=
  Guarded.of_prefix h ⟨ev, rfl⟩

/-- While something is being executed the main thread is in one of the two phases. -/
theorem Loop.busy (h : Loop s tr) (hlive : s.phase ≠ .crashed) (hstack : s.stack ≠ []) :
    s.Busy := by
  by_contra hidle
  exact hstack (h.idle hidle hlive)

/-- A step that leaves the flags alone and takes nothing but completions off the ring. -/
theorem Loop.of_ring (h : Loop s tr) (hidle : ¬ s'.Busy → s'.phase ≠ .crashed → s'.stack = [])
    (hqueue : .backlog ∉ tr → .backlog ∉ ev → s'.Busy ∨ s'.phase = .blocked → s'.ring.sq = [])
    (hrunning : s'.running = s.running) (hsignalled : s'.signalled = s.signalled)
    (hcq : ∀ y ∈ s'.ring.cq, y ∈ s.ring.cq) (hdepth : s'.ring.depth = s.ring.depth)
    (hstop : .stop ∈ s.ring.entries → .stop ∈ s'.ring.entries) (hloop : s'.Looping → s.Looping)
    (hblocked : s'.phase = .blocked → s.phase = .blocked ∨ s.running = true) :
    Loop s' (tr ++ ev) := by
  refine ⟨hidle, fun hback ↦ ?_, fun hs ↦ ?_, fun hclean hs ↦ ?_, fun hblocks res hres ↦ ?_,
    fun hpos hback hclean hblocks hl ↦ ?_⟩
  · exact hqueue (fun hmem ↦ hback (List.mem_append_left _ hmem))
      fun hmem ↦ hback (List.mem_append_right _ hmem)
  · exact List.mem_append_left _ (h.signalled (hsignalled ▸ hs))
  · rw [hrunning]
    exact h.stopping hclean.of_append (hsignalled ▸ hs)
  · rw [hsignalled]
    exact h.posted hblocks.of_append res (hcq _ hres)
  · rw [hdepth] at hpos
    rcases h.armed hpos (fun hmem ↦ hback (List.mem_append_left _ hmem)) hclean.of_append
      hblocks.of_append (hloop hl) with hmem | ⟨hstopped, hphase⟩
    · exact Or.inl (hstop hmem)
    · refine Or.inr ⟨hrunning.trans hstopped, fun hb ↦ ?_⟩
      rcases hblocked hb with hb | hb
      · exact hphase hb
      · rw [hstopped] at hb
        cases hb

/-- A step of a coroutine that issues no operation. -/
theorem Loop.same (h : Loop s tr) (hbusy : s.Busy) (hring : s'.ring = s.ring)
    (hphase : s'.phase = s.phase) (hrunning : s'.running = s.running)
    (hsignalled : s'.signalled = s.signalled) : Loop s' (tr ++ ev) := by
  refine h.of_ring (fun hidle ↦ ?_) (fun hback _ _ ↦ ?_) hrunning hsignalled ?_ (by rw [hring]) ?_
    ?_ ?_
  · exact absurd (by rwa [Busy, hphase]) hidle
  · rw [hring]
    exact h.queue hback (Or.inl hbusy)
  · rw [hring]
    exact fun y hy ↦ hy
  · rw [hring]
    exact id
  · rw [Looping, hphase]
    exact id
  · rw [hphase]
    exact Or.inl

theorem depth_of_prepare {r r' : IoUringContext O} {e : Sqe O} {took took' : ℕ}
    (h : r.prepare e took took' = some r') : r'.depth = r.depth := by
  obtain ⟨r₁, h₁, rfl⟩ := Option.map_eq_some_iff.mp h
  unfold IoUringContext.getSqe at h₁
  split at h₁
  · cases h₁
    rfl
  · split at h₁ <;> cases h₁
    rfl

theorem sq_of_backlog {r : IoUringContext O} (h : .backlog ∉ backlog r) : r.sq = [] := by
  rw [backlog] at h
  split at h
  · exact List.isEmpty_iff.mp ‹_›
  · exact absurd (List.mem_singleton_self _) h

/-- A step that issues an operation, perhaps after a completion has been taken off the ring. -/
theorem Loop.issue {r₀ : IoUringContext O} {e : Sqe O} {took took' : ℕ} (h : Loop s tr)
    (hbusy : s.Busy) (hr : r₀.prepare e took took' = some s'.ring)
    (hdepth : r₀.depth = s.ring.depth) (hcq : ∀ y ∈ r₀.cq, y ∈ s.ring.cq)
    (hstop : .stop ∈ s.ring.entries → .stop ∈ r₀.entries)
    (hphase : s'.phase = s.phase) (hrunning : s'.running = s.running)
    (hsignalled : s'.signalled = s.signalled)
    (hev : .backlog ∉ ev → .backlog ∉ backlog s'.ring) : Loop s' (tr ++ ev) := by
  refine h.of_ring (fun hidle ↦ ?_) (fun _ hback _ ↦ sq_of_backlog (hev hback)) hrunning hsignalled
    ?_ ((depth_of_prepare hr).trans hdepth) (fun hmem ↦ ?_) ?_ ?_
  · exact absurd (by rwa [Busy, hphase]) hidle
  · rw [cq_of_prepare hr]
    exact hcq
  · exact (IoUringContext.entries_prepare hr).mem_iff.mpr (List.mem_cons_of_mem _ (hstop hmem))
  · rw [Looping, hphase]
    exact id
  · rw [hphase]
    exact Or.inl

theorem stop_mem_of_reap {e : Sqe O} {res : ℤ} {cq : List (Sqe O × ℤ)} {r : IoUringContext O}
    (hcq : r.cq = (e, res) :: cq) (he : e ≠ .stop) (hmem : .stop ∈ r.entries) :
    .stop ∈ ({ r with cq := cq } : IoUringContext O).entries :=
  (List.mem_cons.mp ((IoUringContext.entries_reap hcq).mem_iff.mp hmem)).resolve_left he.symm

/-- A completion other than the stop event is processed. -/
theorem Loop.reap {e : Sqe O} {res : ℤ} {cq : List (Sqe O × ℤ)} (h : Loop s tr)
    (hphase : s.phase = .draining) (hcq : s.ring.cq = (e, res) :: cq) (he : e ≠ .stop)
    (hring : s'.ring = { s.ring with cq := cq }) (hphase' : s'.phase = s.phase)
    (hrunning : s'.running = s.running) (hsignalled : s'.signalled = s.signalled) :
    Loop s' (tr ++ ev) := by
  refine h.of_ring (fun hidle ↦ ?_) (fun hback _ _ ↦ ?_) hrunning hsignalled ?_ (by rw [hring])
    (fun hmem ↦ ?_) ?_ ?_
  · exact absurd (Or.inr (hphase'.trans hphase)) hidle
  · rw [hring]
    exact h.queue hback (Or.inl (Or.inr hphase))
  · rw [hring, hcq]
    exact fun y hy ↦ List.mem_cons_of_mem _ hy
  · rw [hring]
    exact stop_mem_of_reap hcq he hmem
  · rw [Looping, hphase']
    exact id
  · rw [hphase']
    exact Or.inl

/-- The main thread goes from one phase of the loop to another, while nothing is executed. -/
theorem Loop.control {phase : Phase} (h : Loop s tr) (hstack : s.stack = [])
    (hqueue : phase = .setup ∨ phase = .draining → s.phase = .blocked)
    (hloop : s.Looping) (hblocked : phase ≠ .blocked) :
    Loop { s with phase := phase } (tr ++ []) := by
  refine h.of_ring (fun _ _ ↦ hstack) (fun hback _ hb ↦ ?_) rfl rfl (fun y hy ↦ hy) rfl id
    (fun _ ↦ hloop) fun hb ↦ absurd hb hblocked
  exact h.queue hback (Or.inr (hqueue (hb.resolve_right hblocked)))

/-- `run` arms the stop event. -/
theorem Loop.armedStep (h : Loop s tr) (hphase : s.phase = .setup) (hstack : s.stack = []) :
    Loop { s with running := true, phase := .test, ring := s.ring.armStopEvent }
      (tr ++ [.started]) := by
  have hcq : s.ring.armStopEvent.cq = s.ring.cq := by
    unfold IoUringContext.armStopEvent
    split <;> rfl
  have hdepth : s.ring.armStopEvent.depth = s.ring.depth := by
    unfold IoUringContext.armStopEvent
    split <;> rfl
  refine ⟨fun _ _ ↦ hstack, fun _ hb ↦ ?_, fun hs ↦ List.mem_append_left _ (h.signalled hs),
    fun hclean hs ↦ ?_, fun hblocks res hres ↦ h.posted hblocks.of_append res (hcq ▸ hres),
    fun hpos hback _ _ _ ↦ Or.inl ?_⟩
  · rcases hb with (hb | hb) | hb <;> cases hb
  · exact absurd (h.signalled hs) ((guarded_concat.mp hclean).2 rfl)
  · have hsq := h.queue (fun hmem ↦ hback (List.mem_append_left _ hmem)) (Or.inl (Or.inl hphase))
    have hslot : s.ring.sq.length < s.ring.depth := by
      rw [hsq, List.length_nil, ← hdepth]
      exact hpos
    have harm : s.ring.armStopEvent = s.ring.push .stop := if_pos hslot
    simp only [harm]
    exact (IoUringContext.entries_push _ _).mem_iff.mpr List.mem_cons_self

end

section

variable {O W : Type*} [DecidableEq W] {s s' : Runtime O W} {tr ev : List (Event O)}

/-- Once `stop` has been called the event is readable. -/
theorem Steps.signalled (h : Steps s s' ev) (htr : .stopRequested ∈ tr → s.signalled = true)
    (hmem : .stopRequested ∈ tr ++ ev) : s'.signalled = true := by
  have hback : ∀ r : IoUringContext O, Event.stopRequested ∉ backlog r := by
    intro r hmem
    rw [backlog] at hmem
    split at hmem
    · cases hmem
    · cases List.mem_singleton.mp hmem
  have hsame : ∀ {t : Runtime O W}, .stopRequested ∉ ev → t.signalled = s.signalled →
      t.signalled = true :=
    fun hev heq ↦ heq.trans (htr ((List.mem_append.mp hmem).resolve_right hev))
  cases h with
  | awaited hstack hr => exact hsame (by simp [hback]) rfl
  | rearmed hstack hr => exact hsame (hback _) rfl
  | listened hphase hl hr => exact hsame (hback _) rfl
  | rejected hphase hcq hr => exact hsame (hback _) rfl
  | entered took hphase hrun => exact hsame (hback _) rfl
  | stopped => rfl
  | _ => exact hsame (by simp) rfl

theorem Loop.step (h : Loop s tr) (hlive : s.phase ≠ .crashed)
    (hsignalled : .stopRequested ∈ tr → s.signalled = true) (hstep : Steps s s' ev) :
    Loop s' (tr ++ ev) := by
  have hbusy : ∀ {c rest}, s.stack = c :: rest → s.Busy := fun hstack ↦
    h.busy hlive (by rw [hstack]; exact List.cons_ne_nil _ _)
  cases hstep with
  | called hstack => exact h.same (hbusy hstack) rfl rfl rfl rfl
  | awaited hstack hr =>
      exact h.issue (hbusy hstack) hr rfl (fun y hy ↦ hy) id rfl rfl rfl fun hev hmem ↦
        hev (List.mem_cons_of_mem _ hmem)
  | spawned l hstack => exact h.same (hbusy hstack) rfl rfl rfl rfl
  | waited w hstack => exact h.same (hbusy hstack) rfl rfl rfl rfl
  | completed w hstack => exact h.same (hbusy hstack) rfl rfl rfl rfl
  | finished hstack hc => exact h.same (hbusy hstack) rfl rfl rfl rfl
  | returned hstack hc hp => exact h.same (hbusy hstack) rfl rfl rfl rfl
  | kept hstack halive => exact h.same (hbusy hstack) rfl rfl rfl rfl
  | emptied hstack => exact h.same (hbusy hstack) rfl rfl rfl rfl
  | released hstack hp => exact h.same (hbusy hstack) rfl rfl rfl rfl
  | rearmed hstack hr =>
      exact h.issue (hbusy hstack) hr rfl (fun y hy ↦ hy) id rfl rfl rfl id
  | createdRoot hphase => exact h.same (Or.inl hphase) rfl rfl rfl rfl
  | startedRoot hphase hstack hp => exact h.same (Or.inl hphase) rfl rfl rfl rfl
  | listened hphase hl hr =>
      exact h.issue (Or.inl hphase) hr rfl (fun y hy ↦ hy) id rfl rfl rfl id
  | resumed hphase hstack hcq hp =>
      exact h.reap hphase hcq (by rintro ⟨⟩) rfl rfl rfl rfl
  | rejected hphase hcq hr =>
      refine h.issue (Or.inr hphase) hr rfl (fun y hy ↦ ?_)
        (stop_mem_of_reap hcq (by rintro ⟨⟩)) rfl rfl rfl id
      rw [hcq]
      exact List.mem_cons_of_mem _ hy
  | accepted hphase hstack hcq => exact h.reap hphase hcq (by rintro ⟨⟩) rfl rfl rfl rfl
  | @stopSeen res cq hphase hcq =>
      refine ⟨fun hidle ↦ absurd (Or.inr hphase) hidle, fun hback _ ↦ ?_,
        fun hs ↦ List.mem_append_left _ (h.signalled hs), fun hclean hs ↦ ?_,
        fun hblocks res' hres ↦ ?_, fun _ _ hclean hblocks _ ↦ Or.inr ⟨?_, ?_⟩⟩
      · exact h.queue (fun hmem ↦ hback (List.mem_append_left _ hmem)) (Or.inl (Or.inr hphase))
      · exact h.stopping hclean.of_append hs
      · exact h.posted hblocks.of_append res' (by rw [hcq]; exact List.mem_cons_of_mem _ hres)
      · -- the event was posted, so `stop` has been called
        refine h.stopping hclean.of_append (h.posted hblocks.of_append res ?_)
        rw [hcq]
        exact List.mem_cons_self
      · have hrest :
            ({ s with ring := { s.ring with cq := cq } } : Runtime O W).phase = .draining :=
          hphase
        rw [hrest]
        rintro ⟨⟩
  | armed hphase hstack => exact h.armedStep hphase hstack
  | entered took hphase hrun =>
      refine h.of_ring (fun _ _ ↦ ?_) (fun _ hback _ ↦ sq_of_backlog hback) rfl rfl
        (fun y hy ↦ hy) rfl (IoUringContext.entries_submit _ _).mem_iff.mpr (fun _ ↦ Or.inl hphase)
        fun _ ↦ Or.inr hrun
      refine h.idle ?_ hlive
      rintro (hb | hb) <;> rw [hphase] at hb <;> cases hb
  | ended hphase hrun =>
      refine h.control (h.idle ?_ hlive) (by rintro (hb | hb) <;> cases hb) (Or.inl hphase)
        (by rintro ⟨⟩)
      rintro (hb | hb) <;> rw [hphase] at hb <;> cases hb
  | interrupted hphase =>
      refine h.control (h.idle ?_ hlive) (fun _ ↦ hphase) (Or.inr (Or.inl hphase)) (by rintro ⟨⟩)
      rintro (hb | hb) <;> rw [hphase] at hb <;> cases hb
  | failed hphase =>
      refine h.control (h.idle ?_ hlive) (fun _ ↦ hphase) (Or.inr (Or.inl hphase)) (by rintro ⟨⟩)
      rintro (hb | hb) <;> rw [hphase] at hb <;> cases hb
  | woken hphase hcq =>
      refine h.control (h.idle ?_ hlive) (fun _ ↦ hphase) (Or.inr (Or.inl hphase)) (by rintro ⟨⟩)
      rintro (hb | hb) <;> rw [hphase] at hb <;> cases hb
  | advanced hphase hstack =>
      exact h.control hstack (by rintro (hb | hb) <;> cases hb) (Or.inr (Or.inr hphase))
        (by rintro ⟨⟩)
  | @posted i res e r hr =>
      have hperm := (IoUringContext.entries_post hr).1
      obtain ⟨hsq, hdepth, hcq⟩ : r.sq = s.ring.sq ∧ r.depth = s.ring.depth ∧
          r.cq = s.ring.cq ++ [(e, res)] := by
        unfold IoUringContext.post at hr
        split at hr <;> cases hr
        exact ⟨rfl, rfl, rfl⟩
      have hback : .backlog ∉ tr ++ [.posted e res] → .backlog ∉ tr :=
        fun hb hmem ↦ hb (List.mem_append_left _ hmem)
      refine ⟨h.idle, fun hb hw ↦ hsq.trans (h.queue (hback hb) hw),
        fun hs ↦ List.mem_append_left _ (h.signalled hs),
        fun hclean hs ↦ h.stopping hclean.of_append hs, fun hblocks res' hres ↦ ?_,
        fun hpos hb hclean hblocks hl ↦ ?_⟩
      · rcases List.mem_append.mp (hcq ▸ hres) with hres | hres
        · exact h.posted hblocks.of_append res' hres
        · cases List.mem_singleton.mp hres
          exact hsignalled ((guarded_concat.mp hblocks).2 _ rfl)
      · exact (h.armed (hdepth ▸ hpos) (hback hb) hclean.of_append hblocks.of_append hl).imp_left
          hperm.mem_iff.mpr
  | stopped =>
      refine ⟨h.idle, fun hb ↦ h.queue fun hmem ↦ hb (List.mem_append_left _ hmem),
        fun _ ↦ List.mem_append_right _ (List.mem_singleton_self _), fun _ _ ↦ rfl,
        fun _ _ _ ↦ rfl, fun hpos hb hclean hblocks hl ↦ ?_⟩
      have harmed := h.armed hpos (fun hmem ↦ hb (List.mem_append_left _ hmem)) hclean.of_append
        hblocks.of_append hl
      exact harmed.imp_right fun hstopped ↦ ⟨rfl, hstopped.2⟩
  | fault hx =>
      refine h.of_ring (fun _ hne ↦ absurd rfl hne) (fun _ _ hb ↦ ?_) rfl rfl (fun y hy ↦ hy) rfl id
        (fun hl ↦ ?_) (by rintro ⟨⟩)
      · rcases hb with (hb | hb) | hb <;> cases hb
      · rcases hl with hl | hl | hl <;> cases hl

theorem Steps.depth_eq (h : Steps s s' ev) : s'.ring.depth = s.ring.depth := by
  cases h with
  | awaited hstack hr => exact depth_of_prepare hr
  | rearmed hstack hr => exact depth_of_prepare hr
  | listened hphase hl hr => exact depth_of_prepare hr
  | rejected hphase hcq hr => exact (depth_of_prepare hr).trans rfl
  | armed hphase hstack =>
      simp only [IoUringContext.armStopEvent]
      split <;> rfl
  | posted hr =>
      unfold IoUringContext.post at hr
      split at hr <;> cases hr
      rfl
  | _ => rfl

/-- A fault is reported alone. -/
theorem Steps.fault_mem {x : Fault} (h : Steps s s' ev) (hx : .fault x ∈ ev) :
    ev = [.fault x] ∧ s.Faulty x := by
  have hback : ∀ r : IoUringContext O, Event.fault x ∉ backlog r := by
    intro r hmem
    rw [backlog] at hmem
    split at hmem
    · cases hmem
    · cases List.mem_singleton.mp hmem
  cases h with
  | awaited hstack hr =>
      rcases List.mem_cons.mp hx with hx | hx
      · cases hx
      · exact absurd hx (hback _)
  | rearmed hstack hr => exact absurd hx (hback _)
  | listened hphase hl hr => exact absurd hx (hback _)
  | rejected hphase hcq hr => exact absurd hx (hback _)
  | entered took hphase hrun => exact absurd hx (hback _)
  | kept hstack halive =>
      obtain ⟨g, -, hg⟩ := List.mem_map.mp hx
      cases hg
  | fault hfaulty =>
      cases List.mem_singleton.mp hx
      exact ⟨rfl, hfaulty⟩
  | returned hstack hc hp => cases List.mem_singleton.mp hx
  | resumed hphase hstack hcq hp => cases List.mem_singleton.mp hx
  | armed hphase hstack => cases List.mem_singleton.mp hx
  | posted hr => cases List.mem_singleton.mp hx
  | stopped => cases List.mem_singleton.mp hx
  | _ => cases hx

end

/-! ## Every run -/

section

variable {O W : Type*} [DecidableEq O] [DecidableEq W] {s : Runtime O W} {tr : List (Event O)}
  {depth : ℕ}

theorem run_signalled (h : (machine O W depth).Run s tr) :
    .stopRequested ∈ tr → s.signalled = true := by
  refine h.invariant (I := fun s tr ↦ .stopRequested ∈ tr → s.signalled = true)
    (fun s hs ↦ by rintro ⟨⟩) fun s tr a s' e _ hsignalled hs ↦ ?_
  exact (step_steps hs).signalled hsignalled

theorem run_loop (h : (machine O W depth).Run s tr) : Loop s tr := by
  refine h.invariant (fun s hs ↦ ?_) fun s tr a s' e hrun hloop hs ↦ ?_
  · subst hs
    refine ⟨fun _ _ ↦ rfl, fun _ _ ↦ rfl, by rintro ⟨⟩, fun _ _ ↦ rfl, by rintro _ res ⟨⟩,
      fun _ _ _ _ hl ↦ ?_⟩
    rcases hl with hl | hl | hl <;> cases hl
  · exact hloop.step (not_crashed hs) (run_signalled hrun) (step_steps hs)

theorem run_told (h : (machine O W depth).Run s tr) : Told s tr := by
  refine h.invariant (fun s hs ↦ ?_) fun s tr a s' e hrun htold hs ↦ ?_
  · subst hs
    exact ⟨by rintro f op ⟨⟩, by rintro f op res ⟨⟩, guarded_nil⟩
  · exact htold.step (run_inv hrun) (step_steps hs)

theorem run_buried (h : (machine O W depth).Run s tr) : Buried s tr := by
  refine h.invariant (fun s hs ↦ ?_) fun s tr a s' e hrun hburied hs ↦ ?_
  · exact ⟨List.nodup_nil, by rintro f ⟨⟩⟩
  · exact hburied.step (run_inv hrun) (step_steps hs)

theorem run_depth (h : (machine O W depth).Run s tr) : s.ring.depth = depth := by
  refine h.invariant (I := fun s _ ↦ s.ring.depth = depth) (fun s hs ↦ ?_)
    fun s tr a s' e _ hdepth hs ↦ (step_steps hs).depth_eq.trans hdepth
  subst hs
  rfl

/-- **What can go wrong.**  Until `run` returns, and whatever the kernel answers, coroutines that
use tasks as the repository does resume, destroy and look at no frame that is not there, and none
is resumed anywhere but where it is suspended.  The one fault is a null submission entry, and it
takes a `submit` before that left entries in the queue. -/
theorem faults_of_run (h : (machine O W depth).Run s tr) :
    Guarded (fun past x ↦ ∀ y, x = .fault y → y = .nullSqe ∧ (0 < depth → .backlog ∈ past)) tr := by
  refine h.invariant (I := fun _ tr ↦ Guarded _ tr) (fun _ _ ↦ guarded_nil)
    fun s tr a s' ev hrun hguarded hs ↦ ?_
  refine hguarded.append fun pre x post heq y hy ↦ ?_
  have hmem : .fault y ∈ ev := by rw [heq, hy]; simp
  obtain ⟨rfl, hfaulty⟩ := (step_steps hs).fault_mem hmem
  obtain ⟨rfl, hfull, hbusy⟩ := (run_inv hrun).of_faulty hfaulty
  have hpre : pre = [] := by
    rcases pre with _ | ⟨z, pre⟩
    · rfl
    · simp at heq
  refine ⟨rfl, fun hdepth ↦ ?_⟩
  rw [hpre, List.append_nil]
  by_contra hback
  -- without a backlog the queue is empty, so there is a slot
  have hloop := run_loop hrun
  have hsq := hloop.queue hback (Or.inl (hbusy.elim (hloop.busy (not_crashed hs)) id))
  rw [run_depth hrun, hsq, List.length_nil] at hfull
  omega

/-- A task calls a coroutine that waits for an operation, gets its result from it, spawns another
coroutine and waits for an operation itself; meanwhile the listener listens. -/
def exchange : List (Action ℕ ℕ) :=
  [.createRoot, .startRoot 0, .call, .await 7 0 1, .listen 0 1, .run, .enter 1, .post 0 5, .wake,
    .reap 0 0, .ret, .spawn .detachedTasks, .await 8 0 1, .continue 0 0, .await 9 0 1, .advance,
    .enter 0]

/-- The run exists. -/
theorem exec_exchange : ∃ s tr, (machine ℕ ℕ 1024).exec (init 1024) exchange = some (s, tr) ∧
    (machine ℕ ℕ 1024).Run s tr ∧ s.phase = .blocked := by
  have hsome : (((machine ℕ ℕ 1024).exec (init 1024) exchange).map fun x ↦ x.1.phase)
      = some .blocked := by decide +kernel
  obtain ⟨⟨s, tr⟩, hexec, hphase⟩ := Option.map_eq_some_iff.mp hsome
  exact ⟨s, tr, hexec, (Machine.Run.init rfl).exec hexec, hphase⟩

theorem faults_of_run_exchange :
    ∃ s tr, (machine ℕ ℕ 1024).exec (init 1024) exchange = some (s, tr) ∧
      Guarded (fun past x ↦ ∀ y, x = .fault y →
        y = .nullSqe ∧ (0 < 1024 → .backlog ∈ past)) tr := by
  obtain ⟨s, tr, hexec, hrun, -⟩ := exec_exchange
  exact ⟨s, tr, hexec, faults_of_run hrun⟩

/-- **Results.**  In every run a coroutine that gets a result was waiting, and the result is the one
that the kernel posted for the operation that it was waiting for; it gets it once. -/
theorem results_of_run (h : (machine O W depth).Run s tr) : OwnResults tr := (run_told h).own

theorem results_of_run_exchange :
    ∃ s tr, (machine ℕ ℕ 1024).exec (init 1024) exchange = some (s, tr) ∧ OwnResults tr := by
  obtain ⟨s, tr, hexec, hrun, -⟩ := exec_exchange
  exact ⟨s, tr, hexec, results_of_run hrun⟩

/-- **Frames.**  Until `run` returns, each frame has one owner, no owner has it twice, a frame is
destroyed at most once, and nobody has the handle of one that has been destroyed. -/
theorem owned_once (h : (machine O W depth).Run s tr) :
    (∀ f, s.point f ≠ none → ∃! o, f ∈ s.owners o) ∧ (∀ o, (s.owners o).Nodup) ∧
      (tr.filterMap Event.destroyedFrame).Nodup ∧
      ∀ f, .destroyed f ∈ tr → s.point f = none ∧ ∀ x, f ∉ s.handles x := by
  have hinv := run_inv h
  have hburied := run_buried h
  refine ⟨fun f hf ↦ ?_, hinv.owners.nodup, hburied.nodup, fun f hf ↦ ?_⟩
  · obtain ⟨o, ho⟩ := hinv.owners.exists_mem (Option.isSome_iff_ne_none.mpr hf)
    exact ⟨o, ho, fun o' ho' ↦ hinv.owners.place_unique ho' ho⟩
  · have hnone := (hburied.gone f (List.mem_filterMap.mpr ⟨_, hf, rfl⟩)).2
    refine ⟨hnone, fun x hx ↦ ?_⟩
    have halive := hinv.handles.alive_of_mem hx
    rw [hnone] at halive
    cases halive

theorem owned_once_exchange :
    ∃ s tr, (machine ℕ ℕ 1024).exec (init 1024) exchange = some (s, tr) ∧
      (∀ f, s.point f ≠ none → ∃! o, f ∈ s.owners o) ∧ (∀ o, (s.owners o).Nodup) ∧
      (tr.filterMap Event.destroyedFrame).Nodup ∧
      ∀ f, .destroyed f ∈ tr → s.point f = none ∧ ∀ x, f ∉ s.handles x := by
  obtain ⟨s, tr, hexec, hrun, -⟩ := exec_exchange
  exact ⟨s, tr, hexec, owned_once hrun⟩

/-- **At rest.**  While the main thread waits for the kernel no coroutine is being executed, the
listener, once started, has exactly one `accept` on the ring, and every coroutine that has been
started and is not done waits for an operation on the ring or for a fetch. -/
theorem at_rest (h : (machine O W depth).Run s tr) (hphase : s.phase = .blocked) :
    (∀ f, s.point f ≠ some .active) ∧
      (s.listening = true → s.ring.entries.countP Sqe.isAccept = 1) ∧
      ∀ f v, s.point f = some v → v ≠ .initial → v ≠ .done →
        ∃ g, Relation.ReflTransGen (fun a b ↦ s.point a = some (.awaiting b)) f g ∧
          ((∃ op, .io op g ∈ s.ring.entries) ∨ ∃ w, g ∈ s.waiters w) := by
  have hinv := run_inv h
  have hstack : s.stack = [] := by
    refine (run_loop h).idle ?_ ?_
    · rintro (hb | hb) <;> rw [hphase] at hb <;> cases hb
    · rw [hphase]
      rintro ⟨⟩
  refine ⟨fun f hf ↦ ?_, fun hl ↦ ?_, fun f v hv hinitial hdone ↦ ?_⟩
  · obtain ⟨x, hmem, hfits⟩ := hinv.holder (f := f) (by rw [hf]; rfl)
    cases x with
    | native =>
        rw [handles, hstack] at hmem
        cases hmem
    | ring =>
        obtain ⟨op, hop, -⟩ := hfits
        rw [hf] at hop
        cases hop
    | child g => rw [Fits, hf] at hfits; cases hfits
    | fetch w => rw [Fits, hf] at hfits; cases hfits
    | released => rw [Fits, hf] at hfits; cases hfits
  · have hcount := hinv.accepting
    rw [hl, hstack] at hcount
    exact hcount
  · have hr : resumable (s.point f) = true := by
      rw [hv]
      cases v with
      | initial => exact absurd rfl hinitial
      | done => exact absurd rfl hdone
      | _ => rfl
    obtain ⟨g, hchain, hway⟩ := hinv.underWay hr
    refine ⟨g, hchain, ?_⟩
    rw [UnderWay, hstack] at hway
    rcases hway with hway | hway | hway | ⟨hs, hway, -⟩
    · cases hway
    · exact Or.inl hway
    · exact Or.inr hway
    · cases hway

theorem at_rest_exchange :
    ∃ s tr, (machine ℕ ℕ 1024).exec (init 1024) exchange = some (s, tr) ∧ s.phase = .blocked ∧
      (∀ f, s.point f ≠ some .active) ∧
      (s.listening = true → s.ring.entries.countP Sqe.isAccept = 1) ∧
      ∀ f v, s.point f = some v → v ≠ .initial → v ≠ .done →
        ∃ g, Relation.ReflTransGen (fun a b ↦ s.point a = some (.awaiting b)) f g ∧
          ((∃ op, .io op g ∈ s.ring.entries) ∨ ∃ w, g ∈ s.waiters w) := by
  obtain ⟨s, tr, hexec, hrun, hphase⟩ := exec_exchange
  exact ⟨s, tr, hexec, hphase, at_rest hrun hphase⟩

/-- **`stop` gets through.**  If it is called after `run`, every `submit` hands over what is queued,
and the kernel does not finish the read of the stop event before, then the loop ends at its next
test; and if the main thread is waiting for the kernel, then it has been woken up or the kernel can
post the stop event. -/
theorem stop_gets_through (h : (machine O W depth).Run s tr) (hdepth : 0 < depth)
    (hback : .backlog ∉ tr) (hclean : StopAfterStart tr) (hblocks : ReadBlocks tr)
    (hstop : s.signalled = true) :
    (s.phase = .test → ∀ took, s.step (.enter took) = some ({ s with phase := .ended }, [])) ∧
      (s.phase = .blocked → s.ring.cq ≠ [] ∨
        ∃ i, s.ring.inflight[i]? = some .stop ∧ ∀ res, (s.step (.post i res)).isSome = true) := by
  have hloop := run_loop h
  have hrunning := hloop.stopping hclean hstop
  constructor
  · intro hphase took
    have hstack : s.stack = [] := by
      refine hloop.idle ?_ ?_
      · rintro (hb | hb) <;> rw [hphase] at hb <;> cases hb
      · rw [hphase]
        rintro ⟨⟩
    simp [step, hphase, hstack, stepMain, hrunning]
  · intro hphase
    have harmed := hloop.armed (by rw [run_depth h]; exact hdepth) hback hclean hblocks
      (Or.inr (Or.inl hphase))
    have hmem : .stop ∈ s.ring.entries := harmed.resolve_right fun hnot ↦ hnot.2 hphase
    have hsq := hloop.queue hback (Or.inr hphase)
    rw [IoUringContext.entries, hsq, List.nil_append] at hmem
    rcases List.mem_append.mp hmem with hmem | hmem
    · obtain ⟨i, hi⟩ := List.mem_iff_getElem?.mp hmem
      refine Or.inr ⟨i, hi, fun res ↦ ?_⟩
      simp [step, hphase, IoUringContext.post, hi]
    · refine Or.inl fun hnil ↦ ?_
      rw [hnil] at hmem
      cases hmem

theorem stop_gets_through_blocked :
    ∃ s : Runtime ℕ ℕ,
      (machine ℕ ℕ 1024).exec (init 1024) [.run, .enter 1, .stop]
        = some (s, [.started, .stopRequested]) ∧ s.signalled = true ∧
      (s.phase = .test → ∀ took, s.step (.enter took) = some ({ s with phase := .ended }, [])) ∧
      (s.phase = .blocked → s.ring.cq ≠ [] ∨
        ∃ i, s.ring.inflight[i]? = some .stop ∧ ∀ res, (s.step (.post i res)).isSome = true) := by
  have hclean : StopAfterStart ([] ++ [.started] ++ [.stopRequested] : List (Event ℕ)) :=
    Guarded.concat (Guarded.concat guarded_nil fun _ ↦ List.not_mem_nil) (by rintro ⟨⟩)
  have hblocks : ReadBlocks ([] ++ [.started] ++ [.stopRequested] : List (Event ℕ)) :=
    Guarded.concat (Guarded.concat guarded_nil (by rintro res ⟨⟩)) (by rintro res ⟨⟩)
  obtain ⟨s, hexec, hstop⟩ : ∃ s : Runtime ℕ ℕ,
      (machine ℕ ℕ 1024).exec (init 1024) [.run, .enter 1, .stop]
        = some (s, [.started, .stopRequested]) ∧ s.signalled = true := ⟨_, rfl, rfl⟩
  exact ⟨s, hexec, hstop, stop_gets_through ((Machine.Run.init rfl).exec hexec) (by decide)
    (by decide) hclean hblocks hstop⟩

-- Where the kernel finishes the read at once, here with `EAGAIN`, nobody arms it again: after
-- `stop` the main thread waits for a ring on which there is nothing.
example : ((machine ℕ ℕ 1024).exec (init 1024) [.run, .enter 1, .post 0 (-11), .wake, .reap 0 0,
    .advance, .enter 0, .stop]).map (fun x ↦ (x.1.phase, x.1.ring.entries)) =
      some (.blocked, []) := by
  decide +kernel

end

end Pensieve.Runtime
