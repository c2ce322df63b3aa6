import Mathlib.Logic.Function.Basic
import Pensieve.Foundation.Machine
import Pensieve.Io.IoUringContext

/-!
# The coroutine runtime

`src/io/task.h`, `src/io/awaitable.h`, `src/io/tcp_listener.cpp` and the loop of
`src/io/io_uring_context.cpp`: one thread that runs coroutines until each of them
waits for something.

A coroutine is its frame: where it is suspended (`point`) and whom it returns to
(`caller`, the field of its promise).  What the bodies of coroutines compute is
left open.  A body may, in any order and any number of times,

* `co_await` another coroutine (`Task::await_suspend`: the caller is noted and
  control goes to the callee);
* `co_await` an operation of the ring (`IoAwaitable` and its kin);
* hand a coroutine to `spawn`, which starts it and keeps it in a vector until it is
  done (`SwimProtocol::spawn`, `Coordinator::spawn`, the callback of `main`);
* `co_await` the result of a fetch, or complete one (`WaitGroup`);
* return (`FinalAwaiter`: control goes back to the caller, whose temporary `Task`
  then destroys the frame).

So the properties of this model are those of every program that uses these parts in
this way, as the repository does.  Two uses that `Task` allows are not among them: to
drop or overwrite a `Task` that has been started and is not done, and to `start` one
twice.  The model ends where `run` returns; what the destructors in `main` then do to
coroutines that are still suspended is left out.

`stack` is the native call stack: coroutines being executed and, below them, the
functions that resumed them.

Whatever is undefined behaviour in the code is a `Fault` here: to resume or to look
at a frame that is gone, to resume a coroutine that is not suspended at the place
where the handle was left, or to write to the null entry that `get_sqe` returns when
there is no slot.
-/

namespace Pensieve

open Foundation

/-- Where a coroutine stands. -/
inductive Point (O : Type*) where
  | /-- Suspended at the beginning. -/
    initial
  | /-- Resumed, and not suspended since. -/
    active
  | /-- In `co_await` of a `Task`. -/
    awaiting (child : ℕ)
  | /-- In `co_await` of an operation. -/
    submitted (op : O)
  | /-- In `co_await` of the result of a fetch. -/
    parked
  | /-- Suspended at the end. -/
    done
deriving DecidableEq, Repr

/-- The vectors in which tasks are kept: `SwimProtocol::detached_tasks_`,
`Coordinator::detached_`, and `connections` of `main`. -/
inductive TaskList where
  | detachedTasks
  | detached
  | connections
deriving DecidableEq, Repr

/-- A native call in progress. -/
inductive Native where
  | /-- The body of a coroutine. -/
    exec (f : ℕ)
  | /-- `spawn`, in `task.start()`; the local variable `task` still owns the frame. -/
    start (l : TaskList) (f : ℕ)
  | /-- The loop of `WaitGroup::complete`. -/
    complete (toResume : List ℕ)
  | /-- `accept_cb_`, in `handle_accept`. -/
    accept
deriving DecidableEq, Repr

/-- The coroutine that a native call executes. -/
def Native.coroutine : Native → Option ℕ
  | .exec f => some f
  | _ => none

/-- The handles that a native call is about to resume. -/
def Native.toResume : Native → List ℕ
  | .complete hs => hs
  | _ => []

/-- The frame that a native call owns. -/
def Native.task : Native → Option ℕ
  | .start _ f => some f
  | _ => none

/-- Where the main thread stands: before `run`, at the test of its loop, in
`io_uring_submit_and_wait`, in `io_uring_for_each_cqe`, behind the loop; or it has crashed. -/
inductive Phase where
  | setup
  | test
  | blocked
  | draining
  | ended
  | crashed
deriving DecidableEq, Repr

/-- What must not happen. -/
inductive Fault where
  | nullSqe
  | dangling (f : ℕ)
  | stray (f : ℕ)
deriving DecidableEq, Repr

/-- The runtime.  Fetches are named by `W`. -/
structure Runtime (O W : Type*) where
  next : ℕ
  point : ℕ → Option (Point O)
  caller : ℕ → Option ℕ
  stack : List Native
  roots : List ℕ
  tasks : TaskList → List ℕ
  waiters : W → List ℕ
  ring : IoUringContext O
  listening : Bool
  phase : Phase
  running : Bool
  signalled : Bool

namespace Runtime

variable {O W : Type*}

/-- What the program and the kernel do.  The numbers of entries that the kernel takes in the
`submit` of `get_sqe` and in the one after it come with the actions that call them. -/
inductive Action (O W : Type*) where
  | call
  | await (op : O) (took took' : ℕ)
  | spawn (l : TaskList)
  | wait (w : W)
  | complete (w : W)
  | ret
  | continue (took took' : ℕ)
  | createRoot
  | startRoot (f : ℕ)
  | listen (took took' : ℕ)
  | run
  | enter (took : ℕ)
  | interrupt
  | fail
  | wake
  | reap (took took' : ℕ)
  | advance
  | post (i : ℕ) (res : ℤ)
  | stop

/-- What can be seen. -/
inductive Event (O : Type*) where
  | awaited (f : ℕ) (op : O)
  | posted (e : Sqe O) (res : ℤ)
  | resumed (f : ℕ) (op : O) (res : ℤ)
  | destroyed (f : ℕ)
  | /-- A `submit` left entries in the queue. -/
    backlog
  | /-- `run` is called. -/
    started
  | /-- `stop` is called. -/
    stopRequested
  | fault (x : Fault)
deriving DecidableEq

/-- `main` before anything is started. -/
def init (depth : ℕ) : Runtime O W where
  next := 0
  point := fun _ ↦ none
  caller := fun _ ↦ none
  stack := []
  roots := []
  tasks := fun _ ↦ []
  waiters := fun _ ↦ []
  ring := ⟨depth, [], [], []⟩
  listening := false
  phase := .setup
  running := false
  signalled := false

/-! ## Frames -/

/-- The coroutine suspends at, or goes on from, a place. -/
def setPoint (s : Runtime O W) (f : ℕ) (x : Point O) : Runtime O W :=
  { s with point := Function.update s.point f (some x) }

/-- A coroutine is called, and its frame is made. -/
def create (s : Runtime O W) (caller : Option ℕ) (x : Point O) : Runtime O W :=
  { s with
    next := s.next + 1
    point := Function.update s.point s.next (some x)
    caller := Function.update s.caller s.next caller }

/-- `handle_.destroy()`. -/
def destroy (s : Runtime O W) (f : ℕ) : Runtime O W :=
  { s with
    point := Function.update s.point f none
    caller := Function.update s.caller f none }

/-- `handle_.done()`. -/
def isDone (s : Runtime O W) (f : ℕ) : Bool :=
  match s.point f with
  | some .done => true
  | _ => false

/-- Control goes to a new coroutine. -/
def push (s : Runtime O W) (cs : List Native) : Runtime O W := { s with stack := cs ++ s.stack }

/-- `h.resume()`, where the handle was left by a coroutine that suspended at `x`. -/
def resume [DecidableEq O] (s : Runtime O W) (f : ℕ) (x : Point O) :
    Except Fault (Runtime O W) :=
  match s.point f with
  | none => .error (.dangling f)
  | some y => if y = x then .ok ((s.setPoint f .active).push [.exec f]) else .error (.stray f)

/-- `get_sqe`, prepare, `set_data` and `submit`. -/
def issue (s : Runtime O W) (e : Sqe O) (took took' : ℕ) :
    Except Fault (Runtime O W × List (Event O)) :=
  match s.ring.prepare e took took' with
  | none => .error .nullSqe
  | some r => .ok ({ s with ring := r }, if r.sq.isEmpty then [] else [.backlog])

/-- `vector.push_back(std::move(task))`. -/
def keep (s : Runtime O W) (l : TaskList) (f : ℕ) : Runtime O W :=
  { s with tasks := Function.update s.tasks l (s.tasks l ++ [f]) }

/-- `std::erase_if(vector, [](const Task<>& t) { return t.done(); })`. -/
def eraseDone (s : Runtime O W) (l : TaskList) : Except Fault (Runtime O W × List (Event O)) :=
  match (s.tasks l).find? fun f ↦ (s.point f).isNone with
  | some f => .error (.dangling f)
  | none =>
    .ok ({ s with
      point := fun f ↦ if f ∈ s.tasks l ∧ s.isDone f = true then none else s.point f
      caller := fun f ↦ if f ∈ s.tasks l ∧ s.isDone f = true then none else s.caller f
      tasks := Function.update s.tasks l ((s.tasks l).filter fun f ↦ !s.isDone f) },
      ((s.tasks l).filter s.isDone).map .destroyed)

/-! ## Steps -/

/-- The coroutine returns.  Its caller, if it has one, is resumed with the result, and destroys
the `Task` it had awaited. -/
def finish [DecidableEq O] (s : Runtime O W) (f : ℕ) :
    Except Fault (Runtime O W × List (Event O)) :=
  let s := s.setPoint f .done
  match s.caller f with
  | none => .ok (s, [])
  | some p =>
    match s.resume p (.awaiting f) with
    | .error x => .error x
    | .ok s => .ok (s.destroy f, [.destroyed f])

/-- The native call on the top of the stack goes on, now that what it had resumed has come to
rest. -/
def unwind [DecidableEq O] (s : Runtime O W) (took took' : ℕ) :
    Native → Except Fault (Runtime O W × List (Event O))
  | .exec _ => .ok (s, [])
  | .start l f => (s.keep l f).eraseDone l
  | .complete [] => .ok (s, [])
  | .complete (h :: hs) => ((s.push [.complete hs]).resume h .parked).map fun s ↦ (s, [])
  | .accept => s.issue .accept took took'

/-- `process_cqe`. -/
def processCqe [DecidableEq O] (s : Runtime O W) (took took' : ℕ) :
    Sqe O → ℤ → Except Fault (Runtime O W × List (Event O))
  | .io op f, res =>
    (s.resume f (.submitted op)).map fun s ↦ (s, [.resumed f op res])
  | .accept, res =>
    if res < 0 then s.issue .accept took took'
    else
      .ok ((s.create none .active).push [.exec s.next, .start .connections s.next, .accept], [])
  | .stop, _ => .ok (s, [])

/-- A fault ends the program. -/
def report (s : Runtime O W) :
    Except Fault (Runtime O W × List (Event O)) → Runtime O W × List (Event O)
  | .ok x => x
  | .error x => ({ s with phase := .crashed }, [.fault x])

/-- What the coroutine on the top of the stack does. -/
def stepCoroutine [DecidableEq O] [DecidableEq W] (s : Runtime O W) (f : ℕ) (rest : List Native) :
    Action O W → Option (Runtime O W × List (Event O))
  | .call =>
    some (({ (s.create (some f) .active).setPoint f (.awaiting s.next) with
      stack := rest }).push [.exec s.next], [])
  | .await op took took' =>
    some (s.report <|
      (({ s.setPoint f (.submitted op) with stack := rest }).issue (.io op f) took took').map
        fun (x : Runtime O W × List (Event O)) ↦ (x.1, .awaited f op :: x.2))
  | .spawn l => some ((s.create none .active).push [.exec s.next, .start l s.next], [])
  | .wait w =>
    some ({ s.setPoint f .parked with
      stack := rest
      waiters := Function.update s.waiters w (s.waiters w ++ [f]) }, [])
  | .complete w =>
    some (({ s with waiters := Function.update s.waiters w [] }).push [.complete (s.waiters w)], [])
  | .ret => some (s.report (({ s with stack := rest }).finish f))
  | _ => none

/-- What `main` does while no coroutine and no callback is being executed. -/
def stepMain [DecidableEq O] (s : Runtime O W) :
    Action O W → Option (Runtime O W × List (Event O))
  | .createRoot =>
    if s.phase = .setup then
      some ({ s.create none .initial with roots := s.roots ++ [s.next] }, [])
    else none
  | .startRoot f =>
    if s.phase = .setup ∧ f ∈ s.roots ∧ s.point f = some .initial then
      some ((s.setPoint f .active).push [.exec f], [])
    else none
  | .listen took took' =>
    if s.phase = .setup ∧ s.listening = false then
      some (s.report (({ s with listening := true }).issue .accept took took'))
    else none
  | .run =>
    if s.phase = .setup then
      some ({ s with running := true, phase := .test, ring := s.ring.armStopEvent }, [.started])
    else none
  | .enter took =>
    if s.phase = .test then
      if s.running then
        some ({ s with phase := .blocked, ring := s.ring.submit took },
          if (s.ring.submit took).sq.isEmpty then [] else [.backlog])
      else some ({ s with phase := .ended }, [])
    else none
  | .interrupt => if s.phase = .blocked then some ({ s with phase := .test }, []) else none
  | .fail => if s.phase = .blocked then some ({ s with phase := .ended }, []) else none
  | .wake =>
    if s.phase = .blocked ∧ s.ring.cq ≠ [] then some ({ s with phase := .draining }, []) else none
  | .reap took took' =>
    if s.phase = .draining then
      match s.ring.cq with
      | [] => none
      | (e, res) :: cq =>
        some (s.report (({ s with ring := { s.ring with cq := cq } }).processCqe took took' e res))
    else none
  | .advance =>
    if s.phase = .draining ∧ s.ring.cq = [] then some ({ s with phase := .test }, []) else none
  | _ => none

/-- One step.  The kernel posts results and signals arrive at any time; everything else is done by
the native call on the top of the stack. -/
def step [DecidableEq O] [DecidableEq W] (s : Runtime O W) (a : Action O W) :
    Option (Runtime O W × List (Event O)) :=
  match s.phase, a with
  | .crashed, _ => none
  | _, .post i res =>
    match s.ring.post i res with
    | none => none
    | some (e, r) => some ({ s with ring := r }, [.posted e res])
  | _, .stop => some ({ s with running := false, signalled := true }, [.stopRequested])
  | _, .continue took took' =>
    match s.stack with
    | [] | .exec _ :: _ => none
    | c :: rest => some (s.report (({ s with stack := rest }).unwind took took' c))
  | _, a =>
    match s.stack with
    | [] => s.stepMain a
    | .exec f :: rest => s.stepCoroutine f rest a
    | _ :: _ => none

/-- The runtime of a process whose ring has `depth` slots. -/
def machine (O W : Type*) [DecidableEq O] [DecidableEq W] (depth : ℕ) :
    Machine (Runtime O W) (Action O W) (Event O) where
  init s := s = init depth
  step := step

end Runtime

end Pensieve
