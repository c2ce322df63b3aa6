import Mathlib.Data.Int.Notation
import Mathlib.Data.List.Perm.Basic

/-!
# The ring

`src/io/io_uring_context.cpp`: the submission queue, the operations the kernel is
working on and the completion queue.

An operation is prepared in a slot of the submission queue together with its user
data: the completion of the coroutine that awaits it, the completion of the
listener's `accept`, or nothing for the read of the stop event.  `submit` hands
entries over to the kernel; how many of them the kernel takes is its choice
(`io_uring_submit` reports an error and takes none when it is short of memory or
of completion slots), so it is an argument.  When an operation is finished the
kernel posts its result, in any order.

Operations are of any type `O`: the model does not look at what they do.
-/

namespace Pensieve

/-- An entry of the ring: what was prepared, and the user data. -/
inductive Sqe (O : Type*) where
  | /-- An awaitable: `set_data(sqe, &completion_)`, where the completion resumes coroutine `f`. -/
    io (op : O) (f : ℕ)
  | /-- `TcpListener::submit_accept`. -/
    accept
  | /-- `arm_stop_event`: no user data. -/
    stop
deriving DecidableEq, Repr

/-- The coroutine that an entry's completion resumes. -/
def Sqe.coroutine {O : Type*} : Sqe O → Option ℕ
  | .io _ f => some f
  | .accept | .stop => none

/-- The ring: at most `depth` entries can wait for submission. -/
structure IoUringContext (O : Type*) where
  depth : ℕ
  sq : List (Sqe O)
  inflight : List (Sqe O)
  cq : List (Sqe O × ℤ)

namespace IoUringContext

variable {O : Type*}

/-- `submit`, when the kernel takes the first `took` entries. -/
def submit (r : IoUringContext O) (took : ℕ) : IoUringContext O :=
  { r with sq := r.sq.drop took, inflight := r.inflight ++ r.sq.take took }

/-- `get_sqe`: a free slot, after a `submit` if there was none; `none` is the null pointer. -/
def getSqe (r : IoUringContext O) (took : ℕ) : Option (IoUringContext O) :=
  if r.sq.length < r.depth then some r
  else if (r.submit took).sq.length < r.depth then some (r.submit took)
  else none

/-- Fill the slot. -/
def push (r : IoUringContext O) (e : Sqe O) : IoUringContext O := { r with sq := r.sq ++ [e] }

/-- What every awaitable does to suspend: `get_sqe`, prepare, `set_data`, `submit`. -/
def prepare (r : IoUringContext O) (e : Sqe O) (took took' : ℕ) : Option (IoUringContext O) :=
  (r.getSqe took).map fun r ↦ (r.push e).submit took'

/-- `arm_stop_event`: no `submit`, and no entry if there is no slot. -/
def armStopEvent (r : IoUringContext O) : IoUringContext O :=
  if r.sq.length < r.depth then r.push .stop else r

/-- The kernel finishes the operation at place `i` and posts its result. -/
def post (r : IoUringContext O) (i : ℕ) (res : ℤ) : Option (Sqe O × IoUringContext O) :=
  match r.inflight[i]? with
  | none => none
  | some e => some (e, { r with inflight := r.inflight.eraseIdx i, cq := r.cq ++ [(e, res)] })

/-- All entries that have not been processed. -/
def entries (r : IoUringContext O) : List (Sqe O) := r.sq ++ r.inflight ++ r.cq.map Prod.fst

/-! ## No entry is lost or doubled -/

section

variable {r r' : IoUringContext O} {e : Sqe O} {took took' : ℕ}

theorem entries_submit (r : IoUringContext O) (took : ℕ) :
    (r.submit took).entries.Perm r.entries := by
  have hsq : (r.sq.drop took ++ r.sq.take took).Perm r.sq := by
    conv_rhs => rw [← List.take_append_drop took r.sq]
    exact List.perm_append_comm
  refine List.Perm.append_right _ (List.Perm.trans ?_ (hsq.append_right _))
  rw [List.append_assoc]
  exact List.perm_append_comm.append_left _

theorem entries_getSqe (h : r.getSqe took = some r') : r'.entries.Perm r.entries := by
  unfold getSqe at h
  split at h
  · cases h
    exact .refl _
  · split at h
    · cases h
      exact entries_submit r took
    · cases h

theorem entries_push (r : IoUringContext O) (e : Sqe O) :
    (r.push e).entries.Perm (e :: r.entries) := by
  simp only [entries, push, List.append_assoc]
  exact List.perm_middle

theorem entries_prepare (h : r.prepare e took took' = some r') :
    r'.entries.Perm (e :: r.entries) := by
  obtain ⟨r₁, h₁, rfl⟩ := Option.map_eq_some_iff.mp h
  exact ((entries_submit _ _).trans (entries_push _ _)).trans ((entries_getSqe h₁).cons e)

theorem entries_armStopEvent (r : IoUringContext O) :
    r.armStopEvent = r ∨ r.armStopEvent.entries.Perm (.stop :: r.entries) := by
  unfold armStopEvent
  split
  · exact Or.inr (entries_push _ _)
  · exact Or.inl rfl

theorem entries_post {i : ℕ} {res : ℤ} (h : r.post i res = some (e, r')) :
    r'.entries.Perm r.entries ∧ e ∈ r.inflight := by
  unfold post at h
  split at h
  · cases h
  · rename_i e' he
    cases h
    refine ⟨?_, List.mem_of_getElem? he⟩
    obtain ⟨hi, rfl⟩ := List.getElem?_eq_some_iff.mp he
    have hback : (r.inflight[i] :: (r.inflight.eraseIdx i ++ r.cq.map Prod.fst)).Perm
        (r.inflight ++ r.cq.map Prod.fst) := by
      rw [← List.cons_append]
      exact (List.getElem_cons_eraseIdx_perm hi).append_right _
    simp only [entries, List.map_append, List.map_cons, List.map_nil, List.append_assoc]
    refine List.Perm.append_left _ (List.Perm.trans ?_ hback)
    rw [← List.append_assoc]
    exact List.perm_append_singleton _ _

/-- Processing a completion takes its entry off the ring. -/
theorem entries_reap {cq : List (Sqe O × ℤ)} {res : ℤ} (h : r.cq = (e, res) :: cq) :
    r.entries.Perm (e :: ({ r with cq := cq } : IoUringContext O).entries) := by
  simp only [entries, h, List.map_cons]
  exact List.perm_middle

/-- There is no slot only if the queue is full and the kernel took nothing from it. -/
theorem getSqe_eq_none (h : r.getSqe took = none) :
    r.depth ≤ r.sq.length ∧ r.depth ≤ (r.submit took).sq.length := by
  unfold getSqe at h
  split at h
  · cases h
  · split at h
    · cases h
    · exact ⟨by omega, by omega⟩

theorem prepare_eq_none : r.prepare e took took' = none ↔ r.getSqe took = none := by
  rw [prepare, Option.map_eq_none_iff]

end

end IoUringContext

end Pensieve
