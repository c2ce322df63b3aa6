import Pensieve.Coordinator.Service
import Pensieve.Foundation.LossyMap
import Pensieve.Storage.Refinement

/-!
# What the service is for

To its clients the cluster is one cache: a lossy map that performs requests one at a time.  A
request is performed at some moment between its arrival and its answer, with three reservations.

* A request can fail.  The client is told so, but it may have been performed, or still be.
* A GET may be given the answer of another GET of the same key at the same node, if both were
  outstanding at the same time.
* If that other GET has failed, then it may be told that there is no such key.  This is not what a
  cache is for: the wait group hands on that there is no value, and not why.

`Cache.Step` says this without stores, peers or wait groups, and with one rule for each.
-/

namespace Pensieve

open Foundation

/-- How a request is answered by a map, and what it does to it. -/
inductive Answers (m : Bytes → Option Bytes) (req : Request) : Response → Effect Bytes Bytes → Prop
  | get (h : req.opcode = .get) : Answers m req (Coordinator.collapsed (m req.key)) .nop
  | put (h : req.opcode = .put) : Answers m req ⟨.ok, []⟩ (.set req.key req.value)
  /-- There is no room for the value; the old one is gone. -/
  | refused (h : req.opcode = .put) : Answers m req ⟨.error, []⟩ (.unset req.key)
  | del (h : req.opcode = .del) (hk : (m req.key).isSome = true) :
      Answers m req ⟨.ok, []⟩ (.unset req.key)
  | absent (h : req.opcode = .del) (hk : m req.key = none) : Answers m req ⟨.notFound, []⟩ .nop
  | clusterInfo (h : req.opcode = .clusterInfo) (resp : Response) : Answers m req resp .nop
  | unknown (h : req.opcode ≠ .get ∧ req.opcode ≠ .put ∧ req.opcode ≠ .del) :
      Answers m req ⟨.error, []⟩ .nop

/-- The request is performed by a map that may forget. -/
def Performs (m : Bytes → Option Bytes) (req : Request) (resp : Response)
    (m' : Bytes → Option Bytes) : Prop :=
  ∃ e, Answers m req resp e ∧ LossyStep m e m'

/-- A cache and the requests that clients wait for, each with its response if it has one. -/
@[ext]
structure Cache (C : Type*) where
  contents : Bytes → Option Bytes
  pending : NodeId × C → Option (Request × Option Response)
  /-- Requests that have failed without having been performed, but may still be. -/
  late : List Request

namespace Cache

variable {C : Type*} [DecidableEq C]

def empty : Cache C := ⟨fun _ ↦ none, fun _ ↦ none, []⟩

/-- GETs that wait at the node of `q` for the same key as `req` are given the response `resp`. -/
def Given (s : Cache C) (q : NodeId × C) (req : Request) (resp : Response)
    (pending : NodeId × C → Option (Request × Option Response)) : Prop :=
  ∀ p, pending p = s.pending p ∨ ∃ req', p.1 = q.1 ∧
    (req'.opcode = .get ∧ req'.key = req.key) ∧ s.pending p = some (req', none) ∧
    pending p = some (req', some resp)

/-- What the cache may do. -/
inductive Step (s : Cache C) : List (ClientEvent C) → Cache C → Prop
  | ask {x : NodeId} {c : C} {req : Request} (hp : s.pending (x, c) = none) :
      Step s [.asked x c req]
        { s with pending := Function.update s.pending (x, c) (some (req, none)) }
  | perform {p : NodeId × C} {req : Request} {resp : Response} {m : Bytes → Option Bytes}
      (hp : s.pending p = some (req, none)) (h : Performs s.contents req resp m) :
      Step s []
        { s with
          contents := m
          pending := Function.update s.pending p (some (req, some resp)) }
  /-- GETs of a key are given the answer that another one has got. -/
  | share {q : NodeId × C} {req : Request} {resp : Response}
      {pending : NodeId × C → Option (Request × Option Response)}
      (hq : s.pending q = some (req, some resp)) (hget : req.opcode = .get)
      (hstatus : resp.status ≠ .error) (h : s.Given q req resp pending) :
      Step s [] { s with pending }
  /-- The other one has failed.  Nobody has looked for the key, but they are told that it is not
  there. -/
  | mislead {q : NodeId × C} {req : Request}
      {pending : NodeId × C → Option (Request × Option Response)}
      (hq : s.pending q = some (req, some ⟨.error, []⟩)) (hget : req.opcode = .get)
      (h : s.Given q req ⟨.notFound, []⟩ pending) :
      Step s [] { s with pending }
  | fail {p : NodeId × C} {req : Request} {o : Option Response} {late : List Request}
      (hp : s.pending p = some (req, o))
      (hlate : late = s.late ∨ o = none ∧ late = req :: s.late) :
      Step s []
        { s with
          pending := Function.update s.pending p (some (req, some ⟨.error, []⟩))
          late }
  /-- A request that has failed is performed after all. -/
  | late {l₁ l₂ : List Request} {req : Request} {resp : Response} {m : Bytes → Option Bytes}
      (hl : s.late = l₁ ++ req :: l₂) (h : Performs s.contents req resp m) :
      Step s [] { s with contents := m, late := l₁ ++ l₂ }
  | answer {x : NodeId} {c : C} {req : Request} {resp : Response}
      (hp : s.pending (x, c) = some (req, some resp)) :
      Step s [.answered x c req resp]
        { s with pending := Function.update s.pending (x, c) none }
  /-- The client has gone. -/
  | hangUp {p : NodeId × C} {req : Request} {resp : Response}
      (hp : s.pending p = some (req, some resp)) :
      Step s [] { s with pending := Function.update s.pending p none }

end Cache

/-! ## Stores perform requests -/

namespace Coordinator

variable {n : ℕ}

theorem serveLocal_performs {store : LocalStore n} (h : LocalStore.Books store fun _ ↦ none)
    (req : Request) :
    Performs store.contents req (serveLocal store req).1 (serveLocal store req).2.contents := by
  rw [serveLocal]
  split_ifs with hget hput hdel
  · obtain ⟨-, hstep⟩ := LocalStore.exec_lossy h (.get req.key)
    have hfst := LocalStore.get_fst h req.key
    simp only [LocalStore.exec, LocalStore.effect] at hstep
    split
    · rename_i value store' heq
      rw [heq] at hfst hstep
      refine ⟨.nop, ?_, hstep⟩
      have := Answers.get (m := store.contents) hget
      rwa [← hfst] at this
    · rename_i store' heq
      rw [heq] at hfst hstep
      refine ⟨.nop, ?_, hstep⟩
      have := Answers.get (m := store.contents) hget
      rwa [← hfst] at this
  · obtain ⟨-, hstep⟩ := LocalStore.exec_lossy h (.put req.key req.value)
    simp only [LocalStore.exec] at hstep
    rcases hok : store.put req.key req.value with ⟨ok, store'⟩
    rw [hok] at hstep
    cases ok with
    | true => exact ⟨_, .put hput, hstep⟩
    | false => exact ⟨_, .refused hput, hstep⟩
  · obtain ⟨-, hstep⟩ := LocalStore.exec_lossy h (.del req.key)
    simp only [LocalStore.exec] at hstep
    have hfst := LocalStore.del_fst store req.key
    have hcontents : (store.contents req.key).isSome = (store.del req.key).1 := by
      rw [hfst, LocalStore.contents, LocalStore.view_none, Option.isSome_map]
    rcases hok : store.del req.key with ⟨ok, store'⟩
    rw [hok] at hstep hcontents
    cases ok with
    | true => exact ⟨_, .del hdel hcontents, hstep⟩
    | false => exact ⟨_, .absent hdel (by simpa using hcontents), hstep⟩
  · exact ⟨.nop, .unknown ⟨hget, hput, hdel⟩, fun k ↦ Or.inr rfl⟩

end Coordinator

/-- A request is performed by a part of the map. -/
theorem Performs.of_part {m m' part part' : Bytes → Option Bytes} {req : Request}
    {resp : Response} (h : Performs part req resp part') (mine : Bytes → Prop)
    (hreq : mine req.key) (hpart : ∀ k, mine k → m k = part k ∧ m' k = part' k)
    (hother : ∀ k, ¬ mine k → m' k = m k) : Performs m req resp m' := by
  obtain ⟨e, hanswers, hstep⟩ := h
  have hkey := (hpart req.key hreq).1
  have htouches : ∀ k, e.Touches k → k = req.key := by
    intro k hk
    cases hanswers <;> first | exact hk.symm | exact hk.elim
  refine ⟨e, ?_, fun k ↦ ?_⟩
  · cases hanswers with
    | get h => exact hkey ▸ .get h
    | put h => exact .put h
    | refused h => exact .refused h
    | del h hk => exact .del h (hkey ▸ hk)
    | absent h hk => exact .absent h (hkey ▸ hk)
    | clusterInfo h resp => exact .clusterInfo h resp
    | unknown h => exact .unknown h
  · by_cases hk : mine k
    · obtain ⟨hm, hm'⟩ := hpart k hk
      rw [hm', Effect.apply_congr hm]
      exact hstep k
    · have hnot : ¬ e.Touches k := by
        intro htouch
        exact hk (htouches k htouch ▸ hreq)
      rw [hother k hk, Effect.apply_of_not_touches hnot]
      exact Or.inr rfl

end Pensieve
