import Pensieve.Foundation.Custody
import Pensieve.Io.RuntimeSteps

/-!
# Who resumes and who destroys a coroutine

A coroutine handle is a bare pointer.  The runtime is safe because handles and
frames are handed around like tokens.

* The handle of a coroutine that has been started and is not done is in exactly one
  place (`Holder`): it is being executed, its callee has it as `caller`, an entry of
  the ring has it as user data, or a fetch or a `complete` in progress has it.  And
  the place is the one at which the coroutine suspended (`Fits`).
* Every frame is owned exactly once (`Owner`): by the `Task` temporary of the caller
  that awaits it, by a vector of tasks, by a `spawn` in progress, or by a member of
  `SwimProtocol`.

`Inv` says so, together with the few facts about callers that tie the two together,
and holds in every run (`run_inv`).
-/

namespace Pensieve

open Foundation

/-- The entry is the listener's. -/
def Sqe.isAccept {O : Type*} : Sqe O → Bool
  | .accept => true
  | _ => false

/-- The call is the listener's callback. -/
def Native.isAccept : Native → Bool
  | .accept => true
  | _ => false

namespace Runtime

variable {O W : Type*}

/-- Where the handle of a coroutine can be. -/
inductive Holder (W : Type*) where
  | native
  | child (g : ℕ)
  | ring
  | fetch (w : W)
  | released
deriving DecidableEq

/-- Who can own a frame. -/
inductive Owner where
  | parent (p : ℕ)
  | list (l : TaskList)
  | starting
  | roots
deriving DecidableEq

/-- Somebody has the handle of a coroutine that stands here. -/
def resumable : Option (Point O) → Bool
  | none | some .initial | some .done => false
  | _ => true

/-- The frame that is owned by a coroutine that stands here. -/
def child : Option (Point O) → List ℕ
  | some (.awaiting g) => [g]
  | _ => []

/-- The handles at a place. -/
def handles (s : Runtime O W) : Holder W → List ℕ
  | .native => s.stack.filterMap Native.coroutine
  | .child g => (s.caller g).toList
  | .ring => s.ring.entries.filterMap Sqe.coroutine
  | .fetch w => s.waiters w
  | .released => s.stack.flatMap Native.toResume

/-- The frames of an owner. -/
def owners (s : Runtime O W) : Owner → List ℕ
  | .parent p => child (s.point p)
  | .list l => s.tasks l
  | .starting => s.stack.filterMap Native.task
  | .roots => s.roots

/-- The coroutine is suspended at the place that has its handle. -/
def Fits (s : Runtime O W) (f : ℕ) : Holder W → Prop
  | .native => s.point f = some .active
  | .child g => s.point f = some (.awaiting g)
  | .ring => ∃ op, s.point f = some (.submitted op) ∧ .io op f ∈ s.ring.entries
  | .fetch _ | .released => s.point f = some .parked

/-- The invariant of all runs. -/
structure Inv [DecidableEq W] (s : Runtime O W) : Prop where
  handles : Kept s.handles fun f ↦ resumable (s.point f)
  fits : ∀ x f, f ∈ s.handles x → s.Fits f x
  owners : Kept s.owners fun f ↦ (s.point f).isSome
  top : ∀ o f, f ∈ s.owners o → (∀ p, o ≠ .parent p) → s.caller f = none
  finished : ∀ f, s.point f = some .done → s.caller f = none
  fresh : ∀ f, s.next ≤ f → s.point f = none ∧ s.caller f = none
  younger : ∀ f g, s.point f = some (.awaiting g) → f < g
  unstarted : ∀ f, s.point f = some .initial → f ∈ s.roots
  accepting : s.ring.entries.countP Sqe.isAccept + s.stack.countP Native.isAccept
    = if s.listening then 1 else 0

/-! ## Small facts -/

section

variable [DecidableEq W] {s s' : Runtime O W} {ev : List (Event O)} {f g : ℕ} {rest : List Native}

theorem child_update {point : ℕ → Option (Point O)} {y : Option (Point O)}
    (h : child (point f) = []) (hy : child y = []) (p : ℕ) :
    child (Function.update point f y p) = child (point p) := by
  rcases eq_or_ne p f with rfl | hne
  · rw [Function.update_self, hy, h]
  · rw [Function.update_of_ne hne]

theorem resumable_update {point : ℕ → Option (Point O)} {y : Option (Point O)}
    (h : resumable y = resumable (point f)) (g : ℕ) :
    resumable (Function.update point f y g) = resumable (point g) := by
  rcases eq_or_ne g f with rfl | hne
  · rw [Function.update_self, h]
  · rw [Function.update_of_ne hne]

theorem isSome_update {point : ℕ → Option (Point O)} {y : Option (Point O)}
    (h : y.isSome = (point f).isSome) (g : ℕ) :
    (Function.update point f y g).isSome = (point g).isSome := by
  rcases eq_or_ne g f with rfl | hne
  · rw [Function.update_self, h]
  · rw [Function.update_of_ne hne]

/-- The coroutine being executed is active. -/
theorem Inv.active (h : Inv s) (hstack : s.stack = .exec f :: rest) :
    s.point f = some .active := by
  refine h.fits .native f ?_
  rw [Runtime.handles, hstack]
  exact List.mem_cons_self

theorem Inv.active_ne_next (h : Inv s) (hstack : s.stack = .exec f :: rest) : f ≠ s.next := by
  rintro rfl
  have hnone := (h.fresh _ (Nat.le_refl _)).1
  rw [h.active hstack] at hnone
  cases hnone

/-- The caller of a coroutine awaits it. -/
theorem Inv.awaiting_of_caller (h : Inv s) (hc : s.caller g = some f) :
    s.point f = some (.awaiting g) :=
  h.fits (.child g) f (by rw [Runtime.handles, hc]; exact List.mem_singleton_self f)

/-- Somebody has the handle of a coroutine that has to be resumed. -/
theorem Inv.holder (h : Inv s) (hr : resumable (s.point f) = true) :
    ∃ x, f ∈ s.handles x ∧ s.Fits f x := by
  obtain ⟨x, hmem⟩ := h.handles.exists_mem hr
  exact ⟨x, hmem, h.fits x f hmem⟩

/-- A frame has a caller if it is awaited. -/
theorem Inv.caller_of_awaiting (h : Inv s) (hp : s.point f = some (.awaiting g)) :
    s.caller g = some f := by
  obtain ⟨x, hmem, hfits⟩ := h.holder (f := f) (by rw [hp]; rfl)
  cases x with
  | child g' =>
      rw [Fits, hp, Option.some.injEq, Point.awaiting.injEq] at hfits
      rw [Runtime.handles, ← hfits, Option.mem_toList] at hmem
      exact hmem
  | native => rw [Fits, hp] at hfits; cases hfits
  | ring =>
      obtain ⟨op, hop, -⟩ := hfits
      rw [hp] at hop
      cases hop
  | fetch w => rw [Fits, hp] at hfits; cases hfits
  | released => rw [Fits, hp] at hfits; cases hfits

/-- A frame that exists is older than the next one. -/
theorem Inv.lt_next (h : Inv s) (hf : s.point f ≠ none) : f < s.next := by
  by_contra hle
  exact hf (h.fresh f (Nat.le_of_not_lt hle)).1

/-- Handles that stay where they are still fit, so it is enough to look at those that move. -/
theorem Inv.fits_of (h : Inv s) (moved : ℕ → Prop)
    (hplace : ∀ x g, ¬ moved g → g ∈ s'.handles x → g ∈ s.handles x)
    (hpoint : ∀ g, ¬ moved g → s'.point g = s.point g)
    (hring : ∀ op g, ¬ moved g → .io op g ∈ s.ring.entries → .io op g ∈ s'.ring.entries)
    (hmoved : ∀ x g, moved g → g ∈ s'.handles x → s'.Fits g x) :
    ∀ x g, g ∈ s'.handles x → s'.Fits g x := by
  intro x g hg
  by_cases hm : moved g
  · exact hmoved x g hm hg
  · have hfits := h.fits x g (hplace x g hm hg)
    cases x with
    | ring =>
        obtain ⟨op, hop, hmem⟩ := hfits
        exact ⟨op, (hpoint g hm).trans hop, hring op g hm hmem⟩
    | native => exact (hpoint g hm).trans hfits
    | child g' => exact (hpoint g hm).trans hfits
    | fetch w => exact (hpoint g hm).trans hfits
    | released => exact (hpoint g hm).trans hfits

/-- A handle that is known to be at a place that it fits fits wherever it is found. -/
theorem fits_of_place {point : ℕ → Option (Point O)}
    (hk : Kept s'.handles fun f ↦ resumable (point f)) (x₀ : Holder W)
    (hmem : f ∈ s'.handles x₀) (hfits : s'.Fits f x₀) :
    ∀ x, f ∈ s'.handles x → s'.Fits f x := by
  intro x hx
  rwa [hk.place_unique hx hmem]

end

/-! ## Steps that leave the coroutines alone -/

/-- The listener has one `accept` under way once it listens. -/
def Accepting (s : Runtime O W) : Prop :=
  s.ring.entries.countP Sqe.isAccept + s.stack.countP Native.isAccept
    = if s.listening then 1 else 0

/-- Nothing happens to frames and handles. -/
structure Calm (s s' : Runtime O W) : Prop where
  next : s'.next = s.next
  point : s'.point = s.point
  caller : s'.caller = s.caller
  roots : s'.roots = s.roots
  tasks : s'.tasks = s.tasks
  waiters : s'.waiters = s.waiters
  native : s'.stack.filterMap Native.coroutine = s.stack.filterMap Native.coroutine
  released : s'.stack.flatMap Native.toResume = s.stack.flatMap Native.toResume
  starting : s'.stack.filterMap Native.task = s.stack.filterMap Native.task
  coroutines : (s'.ring.entries.filterMap Sqe.coroutine).Perm
    (s.ring.entries.filterMap Sqe.coroutine)
  io : ∀ op f, .io op f ∈ s.ring.entries → .io op f ∈ s'.ring.entries
  accepting : s.Accepting → s'.Accepting

section

variable [DecidableEq W] {s s' : Runtime O W} {f g : ℕ} {rest : List Native}

theorem Inv.calm (h : Inv s) (hc : Calm s s') : Inv s' := by
  have hplace : ∀ x, (s'.handles x).Perm (s.handles x) := by
    intro x
    cases x with
    | native => exact .of_eq hc.native
    | child g => exact .of_eq (by rw [Runtime.handles, Runtime.handles, hc.caller])
    | ring => exact hc.coroutines
    | fetch w => exact .of_eq (by rw [Runtime.handles, Runtime.handles, hc.waiters])
    | released => exact .of_eq hc.released
  have howners : ∀ o, s'.owners o = s.owners o := by
    intro o
    cases o with
    | parent p => rw [Runtime.owners, Runtime.owners, hc.point]
    | list l => rw [Runtime.owners, Runtime.owners, hc.tasks]
    | starting => exact hc.starting
    | roots => exact hc.roots
  refine ⟨h.handles.reorder hplace fun g ↦ by rw [hc.point], ?_,
    h.owners.same howners fun g ↦ by rw [hc.point], fun o g hg ho ↦ ?_, ?_, ?_, ?_, ?_,
    hc.accepting h.accepting⟩
  · exact h.fits_of (fun _ ↦ False) (fun x g _ hg ↦ (hplace x).mem_iff.mp hg)
      (fun g _ ↦ congrFun hc.point g) (fun op g _ ↦ hc.io op g) fun _ _ hm ↦ hm.elim
  · rw [hc.caller]
    exact h.top o g (howners o ▸ hg) ho
  · rw [hc.point, hc.caller]
    exact h.finished
  · rw [hc.next, hc.point, hc.caller]
    exact h.fresh
  · rw [hc.point]
    exact h.younger
  · rw [hc.point, hc.roots]
    exact h.unstarted

end

section

variable {s : Runtime O W}

/-- A step that only changes the ring, and keeps its entries. -/
theorem Calm.of_entries {r : IoUringContext O} (phase : Phase) (running signalled : Bool)
    (hr : r.entries.Perm s.ring.entries) :
    Calm s { s with ring := r, phase := phase, running := running, signalled := signalled } := by
  refine ⟨rfl, rfl, rfl, rfl, rfl, rfl, rfl, rfl, rfl, hr.filterMap _, fun op f ↦ hr.mem_iff.mpr,
    fun h ↦ ?_⟩
  simp only [Accepting, hr.countP_eq]
  exact h

/-- A step that only concerns the loop. -/
theorem Calm.of_control {phase : Phase} {running signalled : Bool} :
    Calm s { s with phase := phase, running := running, signalled := signalled } :=
  .of_entries (r := s.ring) _ _ _ (.refl _)

/-- The read of the stop event joins or leaves the ring. -/
theorem Calm.of_stop {r : IoUringContext O} {phase : Phase} {running : Bool}
    (hr : r.entries.Perm (.stop :: s.ring.entries) ∨ s.ring.entries.Perm (.stop :: r.entries)) :
    Calm s { s with ring := r, phase := phase, running := running } := by
  have hmap : (r.entries.filterMap Sqe.coroutine).Perm
      (s.ring.entries.filterMap Sqe.coroutine) := by
    rcases hr with hr | hr
    · exact hr.filterMap _
    · exact (hr.filterMap Sqe.coroutine).symm
  have hcount : r.entries.countP Sqe.isAccept = s.ring.entries.countP Sqe.isAccept := by
    rcases hr with hr | hr
    · exact hr.countP_eq _
    · exact (hr.countP_eq Sqe.isAccept).symm
  refine ⟨rfl, rfl, rfl, rfl, rfl, rfl, rfl, rfl, rfl, hmap, fun op f hf ↦ ?_, fun h ↦ ?_⟩
  · rcases hr with hr | hr
    · exact hr.mem_iff.mpr (List.mem_cons_of_mem _ hf)
    · exact (List.mem_cons.mp (hr.mem_iff.mp hf)).resolve_left (by rintro ⟨⟩)
  · simp only [Accepting, hcount]
    exact h

/-- Steps of the loop, of the kernel and of the listener. -/
theorem Calm.of_accept {r : IoUringContext O} (stack : List Native) (listening : Bool)
    {base : List (Sqe O)} (hr : r.entries.Perm (.accept :: base))
    (hbase : (base.filterMap Sqe.coroutine).Perm (s.ring.entries.filterMap Sqe.coroutine))
    (hio : ∀ op f, .io op f ∈ s.ring.entries → .io op f ∈ base)
    (hnative : stack.filterMap Native.coroutine = s.stack.filterMap Native.coroutine)
    (hreleased : stack.flatMap Native.toResume = s.stack.flatMap Native.toResume)
    (hstarting : stack.filterMap Native.task = s.stack.filterMap Native.task)
    (hcount : s.Accepting →
      base.countP Sqe.isAccept + 1 + stack.countP Native.isAccept = if listening then 1 else 0) :
    Calm s { s with ring := r, stack := stack, listening := listening } := by
  refine ⟨rfl, rfl, rfl, rfl, rfl, rfl, hnative, hreleased, hstarting,
    (hr.filterMap Sqe.coroutine).trans hbase,
    fun op f hf ↦ hr.mem_iff.mpr (List.mem_cons_of_mem _ (hio op f hf)), fun h ↦ ?_⟩
  rw [Accepting, hr.countP_eq, List.countP_cons_of_pos rfl]
  exact hcount h

end

/-! ## Steps that move a handle -/

section

variable [DecidableEq W] {s s' : Runtime O W} {f g : ℕ} {rest : List Native}

/-- The fields that a step on one coroutine leaves alone. -/
structure Frame (s s' : Runtime O W) : Prop where
  next : s'.next = s.next
  caller : s'.caller = s.caller
  roots : s'.roots = s.roots
  tasks : s'.tasks = s.tasks
  starting : s'.stack.filterMap Native.task = s.stack.filterMap Native.task

/-- What does not depend on handles, when one coroutine goes from one place to another and neither
is in `co_await` of a task. -/
theorem Inv.of_point (h : Inv s) (v : Point O) (hframe : Frame s s')
    (hpoint : s'.point = Function.update s.point f (some v))
    (hchild : child (s.point f) = []) (hchild' : child (some v) = [])
    (hsome : (s.point f).isSome = true) (hdone : v = .done → s.caller f = none)
    (hinitial : v ≠ .initial)
    (hhandles : Kept s'.handles fun g ↦ resumable (s'.point g))
    (hfits : ∀ x g, g ∈ s'.handles x → s'.Fits g x) (haccepting : s'.Accepting) : Inv s' := by
  have howners : ∀ o, s'.owners o = s.owners o := by
    intro o
    cases o with
    | parent p => rw [Runtime.owners, Runtime.owners, hpoint, child_update hchild hchild']
    | list l => rw [Runtime.owners, Runtime.owners, hframe.tasks]
    | starting => exact hframe.starting
    | roots => exact hframe.roots
  have hlt : f < s.next := h.lt_next (by rintro hnone; rw [hnone] at hsome; cases hsome)
  refine ⟨hhandles, hfits, h.owners.same howners fun g ↦ ?_, fun o g hg ho ↦ ?_, fun g hg ↦ ?_,
    fun g hg ↦ ?_, fun g c hg ↦ ?_, fun g hg ↦ ?_, haccepting⟩
  · rw [hpoint, isSome_update (by rw [hsome]; rfl)]
  · rw [hframe.caller]
    exact h.top o g (howners o ▸ hg) ho
  · rw [hframe.caller]
    rw [hpoint] at hg
    rcases eq_or_ne g f with rfl | hne
    · rw [Function.update_self, Option.some.injEq] at hg
      exact hdone hg
    · rw [Function.update_of_ne hne] at hg
      exact h.finished g hg
  · rw [hframe.next] at hg
    rw [hpoint, hframe.caller, Function.update_of_ne (by omega)]
    exact h.fresh g hg
  · rw [hpoint] at hg
    rcases eq_or_ne g f with rfl | hne
    · rw [Function.update_self, Option.some.injEq] at hg
      subst hg
      cases hchild'
    · rw [Function.update_of_ne hne] at hg
      exact h.younger g c hg
  · rw [hframe.roots]
    rw [hpoint] at hg
    rcases eq_or_ne g f with rfl | hne
    · rw [Function.update_self, Option.some.injEq] at hg
      exact absurd hg hinitial
    · rw [Function.update_of_ne hne] at hg
      exact h.unstarted g hg

/-- **A handle goes from one place to another**, and its coroutine with it. -/
theorem Inv.transfer (h : Inv s) {x y : Holder W} (hxy : x ≠ y) (v : Point O)
    (hframe : Frame s s') (hpoint : s'.point = Function.update s.point f (some v))
    (hx : (s.handles x).Perm (f :: s'.handles x)) (hy : (s'.handles y).Perm (f :: s.handles y))
    (hothers : ∀ z, z ≠ x → z ≠ y → s'.handles z = s.handles z)
    (hchild : child (s.point f) = []) (hchild' : child (some v) = [])
    (hv : resumable (some v) = true)
    (hring : ∀ op g, g ≠ f → .io op g ∈ s.ring.entries → .io op g ∈ s'.ring.entries)
    (hfits : s'.Fits f y) (haccepting : s'.Accepting) : Inv s' := by
  have hf : resumable (s.point f) = true :=
    h.handles.alive_of_mem (hx.mem_iff.mpr List.mem_cons_self)
  have hkept : Kept s'.handles fun g ↦ resumable (s'.point g) :=
    h.handles.move f hxy hx hy hothers fun g ↦ by
      rw [hpoint, resumable_update (hv.trans hf.symm)]
  have hmem : f ∈ s'.handles y := hy.mem_iff.mpr List.mem_cons_self
  have hsome : (s.point f).isSome = true := by
    cases hp : s.point f with
    | none => rw [hp] at hf; cases hf
    | some _ => rfl
  refine h.of_point v hframe hpoint hchild hchild' hsome ?_ ?_ hkept ?_ haccepting
  · rintro rfl
    cases hv
  · rintro rfl
    cases hv
  · refine h.fits_of (· = f) (fun z g hg hz ↦ ?_) (fun g hg ↦ ?_) hring ?_
    · by_cases hzx : z = x
      · subst hzx
        exact hx.mem_iff.mpr (List.mem_cons_of_mem _ hz)
      · by_cases hzy : z = y
        · subst hzy
          exact (List.mem_cons.mp (hy.mem_iff.mp hz)).resolve_left hg
        · rwa [hothers z hzx hzy] at hz
    · rw [hpoint, Function.update_of_ne hg]
    · rintro z g rfl
      exact fits_of_place hkept y hmem hfits z

/-! ## The steps, one by one -/

theorem Inv.awaited {op : O} {took took' : ℕ} {r : IoUringContext O} (h : Inv s)
    (hstack : s.stack = .exec f :: rest) (hr : s.ring.prepare (.io op f) took took' = some r) :
    Inv { s with
      point := Function.update s.point f (some (.submitted op))
      stack := rest
      ring := r } := by
  have hactive := h.active hstack
  have hentries := IoUringContext.entries_prepare hr
  refine h.transfer (x := .native) (y := .ring) (f := f) (by rintro ⟨⟩) (.submitted op)
    ⟨rfl, rfl, rfl, rfl, by rw [hstack]; rfl⟩ rfl ?_ (hentries.filterMap _) (fun z hx hy ↦ ?_)
    (by rw [hactive]; rfl) rfl rfl
    (fun op' g _ hg ↦ hentries.mem_iff.mpr (List.mem_cons_of_mem _ hg))
    ⟨op, Function.update_self .., hentries.mem_iff.mpr List.mem_cons_self⟩ ?_
  · rw [Runtime.handles, hstack]
    exact .refl _
  · cases z with
    | native => exact absurd rfl hx
    | ring => exact absurd rfl hy
    | released => rw [Runtime.handles, Runtime.handles, hstack]; rfl
    | child g => rfl
    | fetch w => rfl
  · have hold := h.accepting
    rw [hstack] at hold
    rw [Accepting, hentries.countP_eq]
    exact hold

theorem Inv.waited (w : W) (h : Inv s) (hstack : s.stack = .exec f :: rest) :
    Inv { s with
      point := Function.update s.point f (some .parked)
      stack := rest
      waiters := Function.update s.waiters w (s.waiters w ++ [f]) } := by
  have hactive := h.active hstack
  refine h.transfer (x := .native) (y := .fetch w) (f := f) (by rintro ⟨⟩) .parked
    ⟨rfl, rfl, rfl, rfl, by rw [hstack]; rfl⟩ rfl ?_ ?_ (fun z hx hy ↦ ?_)
    (by rw [hactive]; rfl) rfl rfl (fun _ _ _ hg ↦ hg) (Function.update_self ..) ?_
  · rw [Runtime.handles, hstack]
    exact .refl _
  · simp only [Runtime.handles, Function.update_self]
    exact List.perm_append_singleton _ _
  · cases z with
    | native => exact absurd rfl hx
    | fetch w' => exact Function.update_of_ne (fun heq ↦ hy (by rw [heq])) _ _
    | released => rw [Runtime.handles, Runtime.handles, hstack]; rfl
    | child g => rfl
    | ring => rfl
  · have hold := h.accepting
    rw [hstack] at hold
    exact hold

theorem Inv.released {hs : List ℕ} (h : Inv s) (hstack : s.stack = .complete (g :: hs) :: rest)
    (hp : s.point g = some .parked) :
    Inv { s with
      point := Function.update s.point g (some .active)
      stack := .exec g :: .complete hs :: rest } := by
  refine h.transfer (x := .released) (y := .native) (f := g) (by rintro ⟨⟩) .active
    ⟨rfl, rfl, rfl, rfl, by rw [hstack]; rfl⟩ rfl ?_ ?_ (fun z hx hy ↦ ?_)
    (by rw [hp]; rfl) rfl rfl (fun _ _ _ hg ↦ hg) (Function.update_self ..) ?_
  · rw [Runtime.handles, hstack]
    exact .refl _
  · rw [Runtime.handles, Runtime.handles, hstack]
    exact .refl _
  · cases z with
    | native => exact absurd rfl hy
    | released => exact absurd rfl hx
    | fetch w => rfl
    | child g => rfl
    | ring => rfl
  · have hold := h.accepting
    rw [hstack] at hold
    exact hold

theorem Inv.resumed {op : O} {res : ℤ} {cq : List (Sqe O × ℤ)} (h : Inv s)
    (hstack : s.stack = []) (hcq : s.ring.cq = (.io op f, res) :: cq)
    (hp : s.point f = some (.submitted op)) :
    Inv { s with
      point := Function.update s.point f (some .active)
      stack := [.exec f]
      ring := { s.ring with cq := cq } } := by
  have hentries := IoUringContext.entries_reap hcq
  refine h.transfer (x := .ring) (y := .native) (f := f) (by rintro ⟨⟩) .active
    ⟨rfl, rfl, rfl, rfl, by rw [hstack]; rfl⟩ rfl (hentries.filterMap Sqe.coroutine) ?_
    (fun z hx hy ↦ ?_) (by rw [hp]; rfl) rfl rfl (fun op' g hne hg ↦ ?_)
    (Function.update_self ..) ?_
  · rw [Runtime.handles, Runtime.handles, hstack]
    exact .refl _
  · cases z with
    | native => exact absurd rfl hy
    | ring => exact absurd rfl hx
    | released => rw [Runtime.handles, Runtime.handles, hstack]; rfl
    | fetch w => rfl
    | child g => rfl
  · refine (List.mem_cons.mp (hentries.mem_iff.mp hg)).resolve_left ?_
    rintro ⟨⟩
    exact hne rfl
  · have hold := h.accepting
    rw [hstack, hentries.countP_eq] at hold
    exact hold

theorem Inv.finishedStep (h : Inv s) (hstack : s.stack = .exec f :: rest)
    (hc : s.caller f = none) :
    Inv { s with point := Function.update s.point f (some .done), stack := rest } := by
  have hactive := h.active hstack
  have hkept : Kept (Runtime.handles
      { s with point := Function.update s.point f (some .done), stack := rest })
      fun g ↦ resumable (Function.update s.point f (some .done) g) := by
    refine h.handles.take (p := .native) (t := f) ?_ (fun z hz ↦ ?_) ?_ fun g hg ↦ ?_
    · rw [Runtime.handles, hstack]
      exact .refl _
    · cases z with
      | native => exact absurd rfl hz
      | released => rw [Runtime.handles, Runtime.handles, hstack]; rfl
      | fetch w => rfl
      | child g => rfl
      | ring => rfl
    · simp only [Function.update_self]
      rfl
    · simp only [Function.update_of_ne hg]
  refine h.of_point (f := f) .done ⟨rfl, rfl, rfl, rfl, by rw [hstack]; rfl⟩ rfl
    (by rw [hactive]; rfl) rfl (by rw [hactive]; rfl) (fun _ ↦ hc) (by rintro ⟨⟩) hkept ?_ ?_
  · refine h.fits_of (· = f) (fun z g hg hz ↦ ?_) (fun g hg ↦ Function.update_of_ne hg ..)
      (fun _ _ _ hmem ↦ hmem) ?_
    · cases z with
      | native =>
          rw [Runtime.handles, hstack]
          exact List.mem_cons_of_mem _ hz
      | released => rw [Runtime.handles, hstack]; exact hz
      | fetch w => exact hz
      | child g => exact hz
      | ring => exact hz
    · rintro z g rfl hz
      have halive := hkept.alive_of_mem hz
      simp only [Function.update_self] at halive
      cases halive
  · have hold := h.accepting
    rw [hstack] at hold
    exact hold

/-! ## New coroutines -/

/-- A coroutine that nobody awaits is made, at a place where it may stay. -/
theorem Inv.of_create (h : Inv s) (v : Point O) (o₀ : Owner) (ho₀ : ∀ p, o₀ ≠ .parent p)
    (hchild : child (some v) = []) (hdone : v ≠ .done) (hnext : s'.next = s.next + 1)
    (hpoint : s'.point = Function.update s.point s.next (some v))
    (hcaller : s'.caller = Function.update s.caller s.next none)
    (hroots : ∀ g ∈ s.roots, g ∈ s'.roots) (hinitial : v = .initial → s.next ∈ s'.roots)
    (howner : (s'.owners o₀).Perm (s.next :: s.owners o₀))
    (hothers : ∀ o, (∀ p, o ≠ .parent p) → o ≠ o₀ → s'.owners o = s.owners o)
    (hhandles : Kept s'.handles fun g ↦ resumable (s'.point g))
    (hfits : ∀ x g, g ∈ s'.handles x → s'.Fits g x) (haccepting : s'.Accepting) : Inv s' := by
  obtain ⟨hnone, hnocaller⟩ := h.fresh s.next (Nat.le_refl _)
  have hold : s'.caller = s.caller := by
    rw [hcaller, ← hnocaller, Function.update_eq_self]
  have howners : ∀ o, o ≠ o₀ → s'.owners o = s.owners o := by
    intro o ho
    cases o with
    | parent p =>
        rw [Runtime.owners, Runtime.owners, hpoint, child_update (by rw [hnone]; rfl) hchild]
    | list l => exact hothers _ (by rintro p ⟨⟩) ho
    | starting => exact hothers _ (by rintro p ⟨⟩) ho
    | roots => exact hothers _ (by rintro p ⟨⟩) ho
  refine ⟨hhandles, hfits, ?_, fun o g hg ho ↦ ?_, fun g hg ↦ ?_, fun g hg ↦ ?_, fun g c hg ↦ ?_,
    fun g hg ↦ ?_, haccepting⟩
  · refine h.owners.put (p := o₀) (t := s.next) (by rw [hnone]; rfl) ?_ howner howners
      fun g hg ↦ ?_
    · rw [hpoint, Function.update_self]
      rfl
    · rw [hpoint, Function.update_of_ne hg]
  · rw [hold]
    by_cases hoo : o = o₀
    · subst hoo
      rcases List.mem_cons.mp (howner.mem_iff.mp hg) with rfl | hg
      · exact hnocaller
      · exact h.top o g hg ho
    · exact h.top o g (howners o hoo ▸ hg) ho
  · rw [hold]
    rw [hpoint] at hg
    rcases eq_or_ne g s.next with rfl | hne
    · exact hnocaller
    · rw [Function.update_of_ne hne] at hg
      exact h.finished g hg
  · rw [hnext] at hg
    rw [hpoint, hold, Function.update_of_ne (by omega)]
    exact h.fresh g (by omega)
  · rw [hpoint] at hg
    rcases eq_or_ne g s.next with rfl | hne
    · rw [Function.update_self, Option.some.injEq] at hg
      subst hg
      cases hchild
    · rw [Function.update_of_ne hne] at hg
      exact h.younger g c hg
  · rw [hpoint] at hg
    rcases eq_or_ne g s.next with rfl | hne
    · rw [Function.update_self, Option.some.injEq] at hg
      exact hinitial hg
    · rw [Function.update_of_ne hne] at hg
      exact hroots g (h.unstarted g hg)

/-- A coroutine is made and started. -/
theorem Inv.spawned (l : TaskList) (h : Inv s) :
    Inv { s with
      next := s.next + 1
      point := Function.update s.point s.next (some .active)
      caller := Function.update s.caller s.next none
      stack := .exec s.next :: .start l s.next :: s.stack } := by
  obtain ⟨hnone, hnocaller⟩ := h.fresh s.next (Nat.le_refl _)
  have hcaller : Function.update s.caller s.next none = s.caller := by
    rw [← hnocaller, Function.update_eq_self]
  have hkept : Kept (Runtime.handles { s with
      next := s.next + 1
      point := Function.update s.point s.next (some .active)
      caller := Function.update s.caller s.next none
      stack := .exec s.next :: .start l s.next :: s.stack })
      fun g ↦ resumable (Function.update s.point s.next (some .active) g) := by
    refine h.handles.put (p := .native) (t := s.next) (by rw [hnone]; rfl) ?_ (.refl _)
      (fun z hz ↦ ?_) fun g hg ↦ ?_
    · simp only [Function.update_self]
      rfl
    · cases z with
      | native => exact absurd rfl hz
      | child g => simp only [Runtime.handles, hcaller]
      | ring => rfl
      | fetch w => rfl
      | released => rfl
    · simp only [Function.update_of_ne hg]
  refine h.of_create .active .starting (by rintro p ⟨⟩) rfl (by rintro ⟨⟩) rfl rfl rfl
    (fun g hg ↦ hg) (by rintro ⟨⟩) (.refl _) (fun o htop ho ↦ ?_) hkept ?_ h.accepting
  · cases o with
    | parent p => exact absurd rfl (htop p)
    | list l => rfl
    | starting => exact absurd rfl ho
    | roots => rfl
  · refine h.fits_of (· = s.next) (fun z g hg hz ↦ ?_) (fun g hg ↦ Function.update_of_ne hg ..)
      (fun _ _ _ hmem ↦ hmem) ?_
    · cases z with
      | native => exact (List.mem_cons.mp hz).resolve_left hg
      | child g => simpa only [Runtime.handles, hcaller] using hz
      | ring => exact hz
      | fetch w => exact hz
      | released => exact hz
    · rintro z g rfl
      exact fits_of_place hkept .native List.mem_cons_self (Function.update_self ..) z

theorem Inv.createdRoot (h : Inv s) :
    Inv { s with
      next := s.next + 1
      point := Function.update s.point s.next (some .initial)
      caller := Function.update s.caller s.next none
      roots := s.roots ++ [s.next] } := by
  obtain ⟨hnone, hnocaller⟩ := h.fresh s.next (Nat.le_refl _)
  have hcaller : Function.update s.caller s.next none = s.caller := by
    rw [← hnocaller, Function.update_eq_self]
  have hsame : ∀ z, Runtime.handles { s with
      next := s.next + 1
      point := Function.update s.point s.next (some .initial)
      caller := Function.update s.caller s.next none
      roots := s.roots ++ [s.next] } z = s.handles z := by
    intro z
    cases z with
    | child g => simp only [Runtime.handles, hcaller]
    | native => rfl
    | ring => rfl
    | fetch w => rfl
    | released => rfl
  refine h.of_create .initial .roots (by rintro p ⟨⟩) rfl (by rintro ⟨⟩) rfl rfl rfl
    (fun g hg ↦ List.mem_append_left _ hg) (fun _ ↦ by simp) ?_ (fun o htop ho ↦ ?_) ?_ ?_
    h.accepting
  · exact List.perm_append_singleton _ _
  · cases o with
    | parent p => exact absurd rfl (htop p)
    | list l => rfl
    | starting => rfl
    | roots => exact absurd rfl ho
  · exact h.handles.same hsame (resumable_update (by rw [hnone]; rfl))
  · refine h.fits_of (· = s.next) (fun z g _ hz ↦ hsame z ▸ hz)
      (fun g hg ↦ Function.update_of_ne hg ..) (fun _ _ _ hmem ↦ hmem) ?_
    rintro z g rfl hz
    have halive := h.handles.alive_of_mem (hsame z ▸ hz)
    simp only [hnone] at halive
    cases halive

theorem Inv.startedRoot (h : Inv s) (hstack : s.stack = []) (hp : s.point f = some .initial) :
    Inv { s with
      point := Function.update s.point f (some .active)
      stack := [.exec f] } := by
  have hkept : Kept (Runtime.handles
      { s with point := Function.update s.point f (some .active), stack := [.exec f] })
      fun g ↦ resumable (Function.update s.point f (some .active) g) := by
    refine h.handles.put (p := .native) (t := f) (by rw [hp]; rfl) ?_ ?_ (fun z hz ↦ ?_)
      fun g hg ↦ ?_
    · simp only [Function.update_self]
      rfl
    · rw [Runtime.handles, Runtime.handles, hstack]
      exact .refl _
    · cases z with
      | native => exact absurd rfl hz
      | released => rw [Runtime.handles, Runtime.handles, hstack]; rfl
      | child g => rfl
      | ring => rfl
      | fetch w => rfl
    · simp only [Function.update_of_ne hg]
  refine h.of_point (f := f) .active ⟨rfl, rfl, rfl, rfl, by rw [hstack]; rfl⟩ rfl
    (by rw [hp]; rfl) rfl (by rw [hp]; rfl) (by rintro ⟨⟩) (by rintro ⟨⟩) hkept ?_ ?_
  · refine h.fits_of (· = f) (fun z g hg hz ↦ ?_) (fun g hg ↦ Function.update_of_ne hg ..)
      (fun _ _ _ hmem ↦ hmem) ?_
    · cases z with
      | native => exact absurd (List.mem_singleton.mp hz) hg
      | released => cases hz
      | child g => exact hz
      | ring => exact hz
      | fetch w => exact hz
    · rintro z g rfl
      exact fits_of_place hkept .native List.mem_cons_self (Function.update_self ..) z
  · have hold := h.accepting
    rw [hstack] at hold
    exact hold

/-! ## Calls and returns -/

theorem Inv.completed (w : W) (h : Inv s) :
    Inv { s with
      stack := .complete (s.waiters w) :: s.stack
      waiters := Function.update s.waiters w [] } := by
  have hwaiters : ∀ w', w' ≠ w → Function.update s.waiters w [] w' = s.waiters w' :=
    fun w' hne ↦ Function.update_of_ne hne ..
  refine ⟨?_, ?_, h.owners.same (fun o ↦ ?_) fun _ ↦ rfl, h.top, h.finished, h.fresh, h.younger,
    h.unstarted, h.accepting⟩
  · refine h.handles.moveAll (s.waiters w) (p := .fetch w) (q := .released) (by rintro ⟨⟩) ?_
      (.refl _) (fun z hx hy ↦ ?_) fun _ ↦ rfl
    · simp only [Runtime.handles, Function.update_self, List.append_nil]
      exact .refl _
    · cases z with
      | fetch w' => exact hwaiters w' fun heq ↦ hx (by rw [heq])
      | released => exact absurd rfl hy
      | native => rfl
      | child g => rfl
      | ring => rfl
  · intro z g hz
    cases z with
    | fetch w' =>
        rcases eq_or_ne w' w with rfl | hne
        · simp only [Runtime.handles, Function.update_self] at hz
          cases hz
        · simp only [Runtime.handles, hwaiters w' hne] at hz
          exact h.fits (.fetch w') g hz
    | released =>
        rcases List.mem_append.mp hz with hz | hz
        · exact h.fits (.fetch w) g hz
        · exact h.fits .released g hz
    | native => exact h.fits .native g hz
    | child g' => exact h.fits (.child g') g hz
    | ring => exact h.fits .ring g hz
  · cases o <;> rfl

/-- A coroutine calls another one and waits for it. -/
theorem Inv.called (h : Inv s) (hstack : s.stack = .exec f :: rest) :
    Inv { s with
      next := s.next + 1
      point := Function.update (Function.update s.point s.next (some .active)) f
        (some (.awaiting s.next))
      caller := Function.update s.caller s.next (some f)
      stack := .exec s.next :: rest } := by
  obtain ⟨hnone, hnocaller⟩ := h.fresh s.next (Nat.le_refl _)
  have hne := h.active_ne_next hstack
  have hactive := h.active hstack
  have hlt : f < s.next := h.lt_next (by rw [hactive]; exact Option.some_ne_none _)
  generalize hs' : ({ s with
      next := s.next + 1
      point := Function.update (Function.update s.point s.next (some .active)) f
        (some (.awaiting s.next))
      caller := Function.update s.caller s.next (some f)
      stack := .exec s.next :: rest } : Runtime O W) = s'
  have hpointf : s'.point f = some (.awaiting s.next) := by
    rw [← hs']
    exact Function.update_self ..
  have hpointn : s'.point s.next = some .active := by
    rw [← hs']
    exact (Function.update_of_ne hne.symm ..).trans (Function.update_self ..)
  have hpoint : ∀ g, g ≠ f → g ≠ s.next → s'.point g = s.point g := by
    intro g hgf hgn
    rw [← hs']
    exact (Function.update_of_ne hgf ..).trans (Function.update_of_ne hgn ..)
  have hcaller : ∀ g, g ≠ s.next → s'.caller g = s.caller g := by
    intro g hgn
    rw [← hs']
    exact Function.update_of_ne hgn ..
  have hcallern : s'.caller s.next = some f := by
    rw [← hs']
    exact Function.update_self ..
  have hnative : s.handles .native = f :: rest.filterMap Native.coroutine := by
    rw [Runtime.handles, hstack]
    rfl
  have hnative' : s'.handles .native = s.next :: rest.filterMap Native.coroutine := by
    rw [← hs']
    rfl
  have hother : ∀ z, z ≠ .native → z ≠ .child s.next → s'.handles z = s.handles z := by
    intro z hz₁ hz₂
    cases z with
    | native => exact absurd rfl hz₁
    | child g =>
        rw [Runtime.handles, Runtime.handles, hcaller g fun heq ↦ hz₂ (by rw [heq])]
    | released => rw [← hs', Runtime.handles, Runtime.handles, hstack]; rfl
    | ring => rw [← hs']; rfl
    | fetch w => rw [← hs']; rfl
  have hkept : Kept s'.handles fun g ↦ resumable (s'.point g) := by
    -- the callee is there first, and then the caller's handle goes to it
    let mid : Holder W → List ℕ := Function.update s.handles .native (s.next :: s.handles .native)
    have hmid : Kept mid fun g ↦ resumable (s'.point g) := by
      refine h.handles.put (p := .native) (t := s.next) (by rw [hnone]; rfl)
        (by rw [hpointn]; rfl) (.of_eq (Function.update_self ..))
        (fun z hz ↦ Function.update_of_ne hz ..) fun g hg ↦ ?_
      rcases eq_or_ne g f with rfl | hgf
      · rw [hpointf, hactive]
        rfl
      · rw [hpoint g hgf hg]
    refine hmid.move f (p := .native) (q := .child s.next) (by rintro ⟨⟩) ?_ ?_
      (fun z hz₁ hz₂ ↦ ?_) fun _ ↦ rfl
    · rw [show mid .native = _ from Function.update_self .., hnative, hnative']
      exact .swap ..
    · rw [show mid (.child s.next) = s.handles (.child s.next) from
        Function.update_of_ne (by rintro ⟨⟩) .., Runtime.handles, Runtime.handles, hcallern,
        hnocaller]
      exact .refl _
    · rw [hother z hz₁ hz₂, show mid z = s.handles z from Function.update_of_ne hz₁ ..]
  have howner : ∀ o, o ≠ .parent f → s'.owners o = s.owners o := by
    intro o ho
    cases o with
    | parent p =>
        have hpf : p ≠ f := fun heq ↦ ho (by rw [heq])
        rw [Runtime.owners, Runtime.owners]
        rcases eq_or_ne p s.next with rfl | hpn
        · rw [hpointn, hnone]
          rfl
        · rw [hpoint p hpf hpn]
    | list l => rw [← hs']; rfl
    | starting => rw [← hs', Runtime.owners, Runtime.owners, hstack]; rfl
    | roots => rw [← hs']; rfl
  refine ⟨hkept, ?_, ?_, fun o g hg ho ↦ ?_, fun g hg ↦ ?_, fun g hg ↦ ?_, fun g c hg ↦ ?_,
    fun g hg ↦ ?_, ?_⟩
  · refine h.fits_of (fun g ↦ g = f ∨ g = s.next) (fun z g hg hz ↦ ?_) (fun g hg ↦ ?_)
      (fun op g _ hmem ↦ by rw [← hs']; exact hmem) ?_
    · obtain ⟨hgf, hgn⟩ := not_or.mp hg
      rcases eq_or_ne z .native with rfl | hz₁
      · rw [hnative'] at hz
        rw [hnative]
        exact List.mem_cons_of_mem _ ((List.mem_cons.mp hz).resolve_left hgn)
      · rcases eq_or_ne z (.child s.next) with rfl | hz₂
        · rw [Runtime.handles, hcallern] at hz
          exact absurd (List.mem_singleton.mp hz) hgf
        · rwa [hother z hz₁ hz₂] at hz
    · obtain ⟨hgf, hgn⟩ := not_or.mp hg
      exact hpoint g hgf hgn
    · rintro z g (rfl | rfl)
      · refine fits_of_place hkept (.child s.next) ?_ hpointf z
        rw [Runtime.handles, hcallern]
        exact List.mem_singleton_self _
      · refine fits_of_place hkept .native ?_ hpointn z
        rw [hnative']
        exact List.mem_cons_self
  · refine h.owners.put (p := .parent f) (t := s.next) (by rw [hnone]; rfl) (by rw [hpointn]; rfl)
      ?_ howner fun g hg ↦ ?_
    · rw [Runtime.owners, Runtime.owners, hpointf, hactive]
      exact .refl _
    · rcases eq_or_ne g f with rfl | hgf
      · rw [hpointf, hactive]
        rfl
      · rw [hpoint g hgf hg]
  · rw [howner o (ho f)] at hg
    have hgn : g ≠ s.next := by
      rintro rfl
      have halive := h.owners.alive_of_mem hg
      rw [hnone] at halive
      cases halive
    rw [hcaller g hgn]
    exact h.top o g hg ho
  · have hgf : g ≠ f := by
      rintro rfl
      rw [hpointf] at hg
      cases hg
    have hgn : g ≠ s.next := by
      rintro rfl
      rw [hpointn] at hg
      cases hg
    rw [hcaller g hgn]
    rw [hpoint g hgf hgn] at hg
    exact h.finished g hg
  · have hle : s.next + 1 ≤ g := by
      rw [← hs'] at hg
      exact hg
    rw [hpoint g (by omega) (by omega), hcaller g (by omega)]
    exact h.fresh g (by omega)
  · rcases eq_or_ne g f with rfl | hgf
    · rw [hpointf] at hg
      cases hg
      exact hlt
    · rcases eq_or_ne g s.next with rfl | hgn
      · rw [hpointn] at hg
        cases hg
      · rw [hpoint g hgf hgn] at hg
        exact h.younger g c hg
  · have hgf : g ≠ f := by
      rintro rfl
      rw [hpointf] at hg
      cases hg
    have hgn : g ≠ s.next := by
      rintro rfl
      rw [hpointn] at hg
      cases hg
    rw [hpoint g hgf hgn] at hg
    rw [← hs']
    exact h.unstarted g hg
  · have hold := h.accepting
    rw [hstack] at hold
    rw [← hs']
    exact hold

/-- A coroutine returns to its caller, which destroys its frame. -/
theorem Inv.returned {p : ℕ} (h : Inv s) (hstack : s.stack = .exec f :: rest)
    (hc : s.caller f = some p) :
    Inv { s with
      point := Function.update (Function.update (Function.update s.point f (some .done)) p
        (some .active)) f none
      caller := Function.update s.caller f none
      stack := .exec p :: rest } := by
  have hactive := h.active hstack
  have hp := h.awaiting_of_caller hc
  have hpf : p ≠ f := by
    rintro rfl
    rw [hactive] at hp
    cases hp
  generalize hs' : ({ s with
      point := Function.update (Function.update (Function.update s.point f (some .done)) p
        (some .active)) f none
      caller := Function.update s.caller f none
      stack := .exec p :: rest } : Runtime O W) = s'
  have hpointf : s'.point f = none := by
    rw [← hs']
    exact Function.update_self ..
  have hpointp : s'.point p = some .active := by
    rw [← hs']
    exact (Function.update_of_ne hpf ..).trans (Function.update_self ..)
  have hpoint : ∀ g, g ≠ f → g ≠ p → s'.point g = s.point g := by
    intro g hgf hgp
    rw [← hs']
    exact (Function.update_of_ne hgf ..).trans
      ((Function.update_of_ne hgp ..).trans (Function.update_of_ne hgf ..))
  have hcallerf : s'.caller f = none := by
    rw [← hs']
    exact Function.update_self ..
  have hcaller : ∀ g, g ≠ f → s'.caller g = s.caller g := by
    intro g hgf
    rw [← hs']
    exact Function.update_of_ne hgf ..
  have hnative : s.handles .native = f :: rest.filterMap Native.coroutine := by
    rw [Runtime.handles, hstack]
    rfl
  have hnative' : s'.handles .native = p :: rest.filterMap Native.coroutine := by
    rw [← hs']
    rfl
  have hother : ∀ z, z ≠ .native → z ≠ .child f → s'.handles z = s.handles z := by
    intro z hz₁ hz₂
    cases z with
    | native => exact absurd rfl hz₁
    | child g =>
        rw [Runtime.handles, Runtime.handles, hcaller g fun heq ↦ hz₂ (by rw [heq])]
    | released => rw [← hs', Runtime.handles, Runtime.handles, hstack]; rfl
    | ring => rw [← hs']; rfl
    | fetch w => rw [← hs']; rfl
  have hkept : Kept s'.handles fun g ↦ resumable (s'.point g) := by
    let mid : Holder W → List ℕ :=
      Function.update s.handles .native (rest.filterMap Native.coroutine)
    have hmid : Kept mid fun g ↦ resumable (s'.point g) := by
      refine h.handles.take (p := .native) (t := f) ?_ (fun z hz ↦ Function.update_of_ne hz ..)
        (by rw [hpointf]; rfl) fun g hg ↦ ?_
      · rw [hnative, show mid .native = _ from Function.update_self ..]
      · rcases eq_or_ne g p with rfl | hgp
        · rw [hpointp, hp]
          rfl
        · rw [hpoint g hg hgp]
    refine hmid.move p (p := .child f) (q := .native) (by rintro ⟨⟩) ?_ ?_ (fun z hz₁ hz₂ ↦ ?_)
      fun _ ↦ rfl
    · rw [show mid (.child f) = s.handles (.child f) from Function.update_of_ne (by rintro ⟨⟩) ..,
        Runtime.handles, Runtime.handles, hc, hcallerf]
      exact .refl _
    · rw [hnative', show mid .native = _ from Function.update_self ..]
    · rw [hother z hz₂ hz₁, show mid z = s.handles z from Function.update_of_ne hz₂ ..]
  have howner : ∀ o, o ≠ .parent p → s'.owners o = s.owners o := by
    intro o ho
    cases o with
    | parent q =>
        have hqp : q ≠ p := fun heq ↦ ho (by rw [heq])
        rw [Runtime.owners, Runtime.owners]
        rcases eq_or_ne q f with rfl | hqf
        · rw [hpointf, hactive]
          rfl
        · rw [hpoint q hqf hqp]
    | list l => rw [← hs']; rfl
    | starting => rw [← hs', Runtime.owners, Runtime.owners, hstack]; rfl
    | roots => rw [← hs']; rfl
  have hfinished : ∀ g v, s'.point g = some v → v ≠ .active → g ≠ f ∧ s.point g = some v := by
    intro g v hg hv
    have hgf : g ≠ f := by
      rintro rfl
      rw [hpointf] at hg
      cases hg
    have hgp : g ≠ p := by
      rintro rfl
      rw [hpointp, Option.some.injEq] at hg
      exact hv hg.symm
    exact ⟨hgf, (hpoint g hgf hgp).symm.trans hg⟩
  refine ⟨hkept, ?_, ?_, fun o g hg ho ↦ ?_, fun g hg ↦ ?_, fun g hg ↦ ?_, fun g c hg ↦ ?_,
    fun g hg ↦ ?_, ?_⟩
  · refine h.fits_of (fun g ↦ g = f ∨ g = p) (fun z g hg hz ↦ ?_) (fun g hg ↦ ?_)
      (fun op g _ hmem ↦ by rw [← hs']; exact hmem) ?_
    · obtain ⟨hgf, hgp⟩ := not_or.mp hg
      rcases eq_or_ne z .native with rfl | hz₁
      · rw [hnative'] at hz
        rw [hnative]
        exact List.mem_cons_of_mem _ ((List.mem_cons.mp hz).resolve_left hgp)
      · rcases eq_or_ne z (.child f) with rfl | hz₂
        · rw [Runtime.handles, hcallerf] at hz
          cases hz
        · rwa [hother z hz₁ hz₂] at hz
    · obtain ⟨hgf, hgp⟩ := not_or.mp hg
      exact hpoint g hgf hgp
    · rintro z g (rfl | rfl) hz
      · have halive := hkept.alive_of_mem hz
        rw [hpointf] at halive
        cases halive
      · refine fits_of_place hkept .native ?_ hpointp z hz
        rw [hnative']
        exact List.mem_cons_self
  · refine h.owners.take (p := .parent p) (t := f) ?_ howner (by rw [hpointf]; rfl) fun g hg ↦ ?_
    · rw [Runtime.owners, Runtime.owners, hpointp, hp]
      exact .refl _
    · rcases eq_or_ne g p with rfl | hgp
      · rw [hpointp, hp]
        rfl
      · rw [hpoint g hg hgp]
  · rw [howner o (ho p)] at hg
    rcases eq_or_ne g f with rfl | hgf
    · exact hcallerf
    · rw [hcaller g hgf]
      exact h.top o g hg ho
  · obtain ⟨hgf, hold⟩ := hfinished g _ hg (by rintro ⟨⟩)
    rw [hcaller g hgf]
    exact h.finished g hold
  · have hle : s.next ≤ g := by
      rw [← hs'] at hg
      exact hg
    have hlt : ∀ q v, s.point q = some v → q ≠ g := by
      rintro q v hq rfl
      rw [(h.fresh q hle).1] at hq
      cases hq
    rw [hpoint g (hlt f _ hactive).symm (hlt p _ hp).symm, hcaller g (hlt f _ hactive).symm]
    exact h.fresh g hle
  · exact h.younger g c (hfinished g _ hg (by rintro ⟨⟩)).2
  · have hold := h.unstarted g (hfinished g _ hg (by rintro ⟨⟩)).2
    rw [← hs']
    exact hold
  · have hold := h.accepting
    rw [hstack] at hold
    rw [← hs']
    exact hold

omit [DecidableEq W] in
theorem isDone_iff : s.isDone f = true ↔ s.point f = some .done := by
  rw [isDone]
  split <;> simp_all

/-- `spawn` keeps the task and destroys those of its vector that are done. -/
theorem Inv.kept {l : TaskList} (h : Inv s) (hstack : s.stack = .start l f :: rest) :
    Inv { s with
      point := fun g ↦ if g ∈ s.tasks l ++ [f] ∧ s.isDone g = true then none else s.point g
      caller := fun g ↦ if g ∈ s.tasks l ++ [f] ∧ s.isDone g = true then none else s.caller g
      stack := rest
      tasks := Function.update s.tasks l ((s.tasks l ++ [f]).filter fun g ↦ !s.isDone g) } := by
  have hstarting : s.owners .starting = f :: rest.filterMap Native.task := by
    rw [Runtime.owners, hstack]
    rfl
  -- callers do not change, since a task that is done has none
  have hcaller : (fun g ↦ if g ∈ s.tasks l ++ [f] ∧ s.isDone g = true then none else s.caller g)
      = s.caller := by
    funext g
    split
    · exact (h.finished g (isDone_iff.mp ‹_ ∧ _›.2)).symm
    · rfl
  rw [hcaller]
  generalize hs' : ({ s with
      point := fun g ↦ if g ∈ s.tasks l ++ [f] ∧ s.isDone g = true then none else s.point g
      stack := rest
      tasks := Function.update s.tasks l ((s.tasks l ++ [f]).filter fun g ↦ !s.isDone g) } :
      Runtime O W) = s'
  have hpoint : ∀ g, s'.point g = s.point g ∨
      s'.point g = none ∧ s.point g = some .done := by
    intro g
    rw [← hs']
    simp only
    split
    · exact Or.inr ⟨rfl, isDone_iff.mp ‹_ ∧ _›.2⟩
    · exact Or.inl rfl
  have hsome : ∀ g v, s'.point g = some v → s.point g = some v := by
    intro g v hg
    rcases hpoint g with heq | ⟨hnone, -⟩
    · rwa [heq] at hg
    · rw [hnone] at hg
      cases hg
  have hsame : ∀ z, s'.handles z = s.handles z := by
    intro z
    cases z with
    | native => rw [← hs', Runtime.handles, Runtime.handles, hstack]; rfl
    | released => rw [← hs', Runtime.handles, Runtime.handles, hstack]; rfl
    | child g => rw [← hs']; rfl
    | ring => rw [← hs']; rfl
    | fetch w => rw [← hs']; rfl
  have howners : Kept s'.owners fun g ↦ (s'.point g).isSome := by
    let mid : Owner → List ℕ := Function.update (Function.update s.owners .starting
      (rest.filterMap Native.task)) (.list l) (s.tasks l ++ [f])
    have hmid : Kept mid fun g ↦ (s.point g).isSome := by
      refine h.owners.move f (p := .starting) (q := .list l) (by rintro ⟨⟩) ?_ ?_
        (fun o ho₁ ho₂ ↦ ?_) fun _ ↦ rfl
      · rw [hstarting, show mid .starting = _ from
          (Function.update_of_ne (by rintro ⟨⟩) ..).trans (Function.update_self ..)]
      · rw [show mid (.list l) = _ from Function.update_self .., Runtime.owners]
        exact List.perm_append_singleton _ _
      · exact (Function.update_of_ne ho₂ ..).trans (Function.update_of_ne ho₁ ..)
    refine hmid.takeAll ((s.tasks l ++ [f]).filter s.isDone) (p := .list l) ?_ (fun o ho ↦ ?_)
      (fun g hg ↦ ?_) fun g hg ↦ ?_
    · rw [show mid (.list l) = _ from Function.update_self .., ← hs']
      simp only [Runtime.owners, Function.update_self]
      exact (List.filter_append_perm _ _).symm
    · rw [show mid o = _ from Function.update_of_ne ho ..]
      cases o with
      | list l' =>
          have hne : l' ≠ l := fun heq ↦ ho (by rw [heq])
          rw [Function.update_of_ne (by rintro ⟨⟩), ← hs', Runtime.owners, Runtime.owners]
          exact Function.update_of_ne hne ..
      | starting => rw [Function.update_self, ← hs']; rfl
      | roots => rw [Function.update_of_ne (by rintro ⟨⟩), ← hs']; rfl
      | parent p =>
          rw [Function.update_of_ne (by rintro ⟨⟩), Runtime.owners, Runtime.owners]
          rcases hpoint p with heq | ⟨hnone, hdone⟩
          · rw [heq]
          · rw [hnone, hdone]
            rfl
    · obtain ⟨hmem, hdone⟩ := List.mem_filter.mp hg
      rw [← hs']
      simp only
      rw [if_pos ⟨hmem, hdone⟩]
      rfl
    · rw [← hs']
      simp only
      rw [if_neg fun hboth ↦ hg (List.mem_filter.mpr hboth)]
  have hcaller' : s'.caller = s.caller := by rw [← hs']
  refine ⟨h.handles.same hsame fun g ↦ ?_, ?_, howners, fun o g hg ho ↦ ?_, fun g hg ↦ ?_,
    fun g hg ↦ ?_, fun g c hg ↦ h.younger g c (hsome g _ hg), fun g hg ↦ ?_, ?_⟩
  · rcases hpoint g with heq | ⟨hnone, hdone⟩
    · rw [heq]
    · rw [hnone, hdone]
      rfl
  · refine h.fits_of (fun g ↦ s.point g = some .done) (fun z g _ hz ↦ hsame z ▸ hz)
      (fun g hg ↦ (hpoint g).resolve_right fun hboth ↦ hg hboth.2)
      (fun op g _ hmem ↦ by rw [← hs']; exact hmem) fun z g hdone hz ↦ ?_
    have halive := h.handles.alive_of_mem (hsame z ▸ hz)
    rw [hdone] at halive
    cases halive
  · rw [hcaller']
    -- whoever owns a frame now is one of those that owned it before
    have hold : g ∈ s.owners o ∨ g ∈ s.owners .starting := by
      rw [← hs'] at hg
      cases o with
      | parent p => exact absurd rfl (ho p)
      | list l' =>
          rcases eq_or_ne l' l with rfl | hne
          · simp only [Runtime.owners, Function.update_self] at hg
            rcases List.mem_append.mp (List.mem_filter.mp hg).1 with hg | hg
            · exact Or.inl hg
            · rw [hstarting]
              exact Or.inr (List.mem_cons.mpr (Or.inl (List.mem_singleton.mp hg)))
          · simp only [Runtime.owners, Function.update_of_ne hne] at hg
            exact Or.inl hg
      | starting =>
          rw [hstarting]
          exact Or.inl (List.mem_cons_of_mem _ hg)
      | roots => exact Or.inl hg
    rcases hold with hold | hold
    · exact h.top o g hold ho
    · exact h.top .starting g hold (by rintro p ⟨⟩)
  · rw [hcaller']
    exact h.finished g (hsome g _ hg)
  · have hle : s.next ≤ g := by
      rw [← hs'] at hg
      exact hg
    obtain ⟨hnone, hnocaller⟩ := h.fresh g hle
    refine ⟨?_, by rw [hcaller']; exact hnocaller⟩
    rcases hpoint g with heq | ⟨hnone', -⟩
    · rw [heq, hnone]
    · exact hnone'
  · have hold := h.unstarted g (hsome g _ hg)
    rw [← hs']
    exact hold
  · have hold := h.accepting
    rw [hstack] at hold
    rw [← hs']
    exact hold

/-! ## Every run -/

theorem Inv.step {ev : List (Event O)} (h : Inv s) (hstep : Steps s s' ev) : Inv s' := by
  cases hstep with
  | called hstack => exact h.called hstack
  | awaited hstack hr => exact h.awaited hstack hr
  | spawned l hstack => exact h.spawned l
  | waited w hstack => exact h.waited w hstack
  | completed w hstack => exact h.completed w
  | finished hstack hc => exact h.finishedStep hstack hc
  | returned hstack hc hp => exact h.returned hstack hc
  | kept hstack halive => exact h.kept hstack
  | emptied hstack =>
      refine h.calm ⟨rfl, rfl, rfl, rfl, rfl, rfl, ?_, ?_, ?_, .refl _, fun _ _ hmem ↦ hmem,
        fun hacc ↦ ?_⟩
      · rw [hstack]; rfl
      · rw [hstack]; rfl
      · rw [hstack]; rfl
      · rw [Accepting, hstack] at hacc
        exact hacc
  | released hstack hp => exact h.released hstack hp
  | rearmed hstack hr =>
      refine h.calm (.of_accept _ s.listening (IoUringContext.entries_prepare hr)
        (.refl _) (fun _ _ hmem ↦ hmem) ?_ ?_ ?_ fun hacc ↦ ?_)
      · rw [hstack]; rfl
      · rw [hstack]; rfl
      · rw [hstack]; rfl
      · rw [Accepting, hstack, List.countP_cons_of_pos rfl] at hacc
        omega
  | createdRoot hphase => exact h.createdRoot
  | startedRoot hphase hstack hp => exact h.startedRoot hstack hp
  | listened hphase hl hr =>
      refine h.calm (.of_accept s.stack _ (IoUringContext.entries_prepare hr)
        (.refl _) (fun _ _ hmem ↦ hmem) rfl rfl rfl fun hacc ↦ ?_)
      rw [Accepting, hl] at hacc
      simp only [Bool.false_eq_true, ↓reduceIte] at hacc ⊢
      omega
  | resumed hphase hstack hcq hp => exact h.resumed hstack hcq hp
  | rejected hphase hcq hr =>
      have hreap := IoUringContext.entries_reap hcq
      refine h.calm (.of_accept s.stack s.listening
        (IoUringContext.entries_prepare hr) (hreap.filterMap Sqe.coroutine).symm
        (fun op f hmem ↦ ?_) rfl rfl rfl fun hacc ↦ ?_)
      · exact (List.mem_cons.mp (hreap.mem_iff.mp hmem)).resolve_left (by rintro ⟨⟩)
      · rw [Accepting, hreap.countP_eq, List.countP_cons_of_pos rfl] at hacc
        exact hacc
  | @accepted res cq hphase hstack hcq =>
      -- first the entry becomes the callback, which then spawns the connection
      have hreap := IoUringContext.entries_reap hcq
      have hcalm : Calm s { s with stack := [.accept], ring := { s.ring with cq := cq } } := by
        refine ⟨rfl, rfl, rfl, rfl, rfl, rfl, ?_, ?_, ?_, (hreap.filterMap Sqe.coroutine).symm,
          fun op f hmem ↦ ?_, fun hacc ↦ ?_⟩
        · rw [hstack]; rfl
        · rw [hstack]; rfl
        · rw [hstack]; rfl
        · exact (List.mem_cons.mp (hreap.mem_iff.mp hmem)).resolve_left (by rintro ⟨⟩)
        · rw [Accepting, hreap.countP_eq, List.countP_cons_of_pos rfl, hstack] at hacc
          exact hacc
      exact (h.calm hcalm).spawned .connections
  | stopSeen hphase hcq => exact h.calm (.of_stop (Or.inr (IoUringContext.entries_reap hcq)))
  | armed hphase hstack =>
      rcases IoUringContext.entries_armStopEvent s.ring with heq | hperm
      · exact h.calm (.of_entries _ _ s.signalled (by rw [heq]))
      · exact h.calm (.of_stop (Or.inl hperm))
  | entered took hphase hrun =>
      exact h.calm (.of_entries _ s.running s.signalled
        (IoUringContext.entries_submit _ _))
  | posted hr =>
      exact h.calm (.of_entries s.phase s.running s.signalled
        (IoUringContext.entries_post hr).1)
  | ended hphase hrun => exact h.calm .of_control
  | interrupted hphase => exact h.calm .of_control
  | failed hphase => exact h.calm .of_control
  | woken hphase hcq => exact h.calm .of_control
  | advanced hphase hstack => exact h.calm .of_control
  | stopped => exact h.calm .of_control
  | fault hx => exact h.calm .of_control

theorem inv_init (depth : ℕ) : Inv (init depth : Runtime O W) := by
  refine ⟨.nowhere (fun _ ↦ rfl) fun x ↦ ?_, fun x f hf ↦ ?_, .nowhere (fun _ ↦ rfl) fun o ↦ ?_,
    fun o f hf ↦ ?_, ?_, fun f _ ↦ ⟨rfl, rfl⟩, ?_, ?_, rfl⟩
  · cases x <;> rfl
  · cases x <;> cases hf
  · cases o <;> rfl
  · cases o <;> cases hf
  · rintro f ⟨⟩
  · rintro f g ⟨⟩
  · rintro f ⟨⟩

/-- **Every run keeps the invariant.** -/
theorem run_inv [DecidableEq O] {depth : ℕ} {tr : List (Event O)}
    (h : (machine O W depth).Run s tr) : Inv s := by
  refine h.invariant (I := fun s _ ↦ Inv s) (fun s hs ↦ ?_) fun s tr a s' e _ hinv hs ↦ ?_
  · subst hs
    exact inv_init depth
  · exact hinv.step (step_steps hs)

end

end Runtime

end Pensieve
