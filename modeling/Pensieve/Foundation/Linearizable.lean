import Mathlib.Data.List.Nodup

/-!
# Linearizability

Threads call operations of an object; a trace shows when each call begins and when
it returns.  The trace is linearizable if the calls that have returned, and some of
those that have not, can be put in one order that never contradicts real time (a
call that returned before another one began comes first) and in which they are a
legal run of a sequential specification.  The specification is a relation, since an
object may be allowed more than one outcome.

A pending call is in the order if it has taken effect: others may have seen what it
did before it returns.  Those that have not are left out.

`Linearization.invoke`, `Linearization.effect` and `Linearization.ret` extend a
linearization along the trace: a call joins the order when it takes effect.
-/

namespace Foundation

variable {τ O R S : Type*}

/-- The two ends of a call. -/
inductive CallEvent (τ O R : Type*) where
  | invoke (t : τ) (op : O)
  | ret (t : τ) (r : R)
deriving DecidableEq

/-- The thread an event is of. -/
def CallEvent.thread : CallEvent τ O R → τ
  | .invoke t _ | .ret t _ => t

/-- A call, with the place in the trace where it begins and the place where it returns.  What is
returned by a call that is still pending is what it will return. -/
structure Call (τ O R : Type*) where
  thread : τ
  op : O
  ret : R
  invoked : ℕ
  returned : Option ℕ

/-- The last event of the thread is the beginning of a call, at place `i`. -/
structure Pending (tr : List (CallEvent τ O R)) (t : τ) (op : O) (i : ℕ) : Prop where
  invoked : tr[i]? = some (.invoke t op)
  last : ∀ j e, i < j → tr[j]? = some e → e.thread ≠ t

/-- The two events are in the trace, and the thread has no other one in between. -/
structure Completed (tr : List (CallEvent τ O R)) (t : τ) (op : O) (r : R) (i j : ℕ) : Prop where
  invoked : tr[i]? = some (.invoke t op)
  returned : tr[j]? = some (.ret t r)
  lt : i < j
  between : ∀ l e, i < l → l < j → tr[l]? = some e → e.thread ≠ t

/-- The call is one of the trace. -/
def IsCall (tr : List (CallEvent τ O R)) (c : Call τ O R) : Prop :=
  match c.returned with
  | some j => Completed tr c.thread c.op c.ret c.invoked j
  | none => Pending tr c.thread c.op c.invoked

/-- The operations, with what they returned, are a run of the specification. -/
inductive Behaves (spec : S → O → R → S → Prop) : S → List (O × R) → S → Prop
  | nil (s : S) : Behaves spec s [] s
  | concat {s s₁ s' : S} {os : List (O × R)} {op : O} {r : R} (hs : Behaves spec s os s₁)
      (h : spec s₁ op r s') : Behaves spec s (os ++ [(op, r)]) s'

/-- `order` is a linearization of the trace: it consists of calls of the trace, each of them once
and all that have returned among them, a call that returned before another began comes before it,
and the calls in this order are a run of the specification from `s₀` to `s`. -/
structure Linearization (spec : S → O → R → S → Prop) (s₀ : S) (tr : List (CallEvent τ O R))
    (order : List (Call τ O R)) (s : S) : Prop where
  once : (order.map Call.invoked).Nodup
  isCall : ∀ c ∈ order, IsCall tr c
  complete : ∀ (t : τ) (r : R) (j : ℕ), tr[j]? = some (.ret t r) →
    ∃ c ∈ order, c.thread = t ∧ c.ret = r ∧ c.returned = some j
  realtime : order.Pairwise fun a b ↦ ∀ j, b.returned = some j → ¬ j < a.invoked
  legal : Behaves spec s₀ (order.map fun c ↦ (c.op, c.ret)) s

variable {tr : List (CallEvent τ O R)} {t : τ} {op : O} {r : R} {i : ℕ}

/-! ## A trace with one more event -/

theorem getElem?_concat_of_some {α : Type*} {l : List α} {x y : α} {j : ℕ}
    (h : (l ++ [x])[j]? = some y) : l[j]? = some y ∨ j = l.length ∧ x = y := by
  rw [List.getElem?_append] at h
  split at h
  · exact Or.inl h
  · rw [List.getElem?_singleton] at h
    split at h
    · exact Or.inr ⟨by omega, Option.some.inj h⟩
    · cases h

theorem getElem?_append_of_some {α : Type*} {l l' : List α} {y : α} {j : ℕ}
    (h : l[j]? = some y) : (l ++ l')[j]? = some y := by
  rw [List.getElem?_append_left (List.getElem?_eq_some_iff.mp h).1, h]

theorem Pending.lt_length (h : Pending tr t op i) : i < tr.length :=
  (List.getElem?_eq_some_iff.mp h.invoked).1

theorem Completed.lt_length {j : ℕ} (h : Completed tr t op r i j) : j < tr.length :=
  (List.getElem?_eq_some_iff.mp h.returned).1

/-- A call is pending once it has begun. -/
theorem pending_concat_invoke (tr : List (CallEvent τ O R)) (t : τ) (op : O) :
    Pending (tr ++ [.invoke t op]) t op tr.length := by
  refine ⟨by simp, fun j e hj he ↦ ?_⟩
  have := (List.getElem?_eq_some_iff.mp he).1
  rw [List.length_append, List.length_singleton] at this
  omega

/-- A call stays pending while other threads act. -/
theorem Pending.concat {e : CallEvent τ O R} (h : Pending tr t op i) (he : e.thread ≠ t) :
    Pending (tr ++ [e]) t op i := by
  refine ⟨getElem?_append_of_some h.invoked, fun j e' hj hje ↦ ?_⟩
  rcases getElem?_concat_of_some hje with hje | ⟨-, rfl⟩
  · exact h.last j e' hj hje
  · exact he

/-- A thread has one pending call at most. -/
theorem Pending.unique {op' : O} {i' : ℕ} (h : Pending tr t op i) (h' : Pending tr t op' i') :
    i' = i := by
  rcases Nat.lt_trichotomy i' i with hlt | heq | hlt
  · exact absurd rfl (h'.last i _ hlt h.invoked)
  · exact heq
  · exact absurd rfl (h.last i' _ hlt h'.invoked)

/-- A pending call returns. -/
theorem Pending.complete (h : Pending tr t op i) (r : R) :
    Completed (tr ++ [.ret t r]) t op r i tr.length := by
  refine ⟨getElem?_append_of_some h.invoked, by simp, h.lt_length, fun l e hl hlt he ↦ ?_⟩
  rcases getElem?_concat_of_some he with he | ⟨rfl, -⟩
  · exact h.last l e hl he
  · exact absurd hlt (Nat.lt_irrefl _)

/-- A call that has returned stays as it is. -/
theorem Completed.concat {j : ℕ} (h : Completed tr t op r i j) (e : CallEvent τ O R) :
    Completed (tr ++ [e]) t op r i j := by
  refine ⟨getElem?_append_of_some h.invoked, getElem?_append_of_some h.returned, h.lt,
    fun l e' hl hlt he ↦ ?_⟩
  rcases getElem?_concat_of_some he with he | ⟨rfl, -⟩
  · exact h.between l e' hl hlt he
  · exact absurd h.lt_length (by omega)

section

variable {c : Call τ O R}

theorem IsCall.completed {j : ℕ} (h : IsCall tr c) (hj : c.returned = some j) :
    Completed tr c.thread c.op c.ret c.invoked j := by
  rwa [IsCall, hj] at h

theorem IsCall.pending (h : IsCall tr c) (hnone : c.returned = none) :
    Pending tr c.thread c.op c.invoked := by
  rwa [IsCall, hnone] at h

theorem IsCall.invoked (h : IsCall tr c) :
    tr[c.invoked]? = some (.invoke c.thread c.op) := by
  rcases hret : c.returned with _ | j
  · exact (h.pending hret).invoked
  · exact (h.completed hret).invoked

theorem IsCall.concat {e : CallEvent τ O R} (h : IsCall tr c)
    (he : c.returned = none → e.thread ≠ c.thread) : IsCall (tr ++ [e]) c := by
  rcases hret : c.returned with _ | j
  · rw [IsCall, hret]
    exact (h.pending hret).concat (he hret)
  · rw [IsCall, hret]
    exact (h.completed hret).concat e

/-- A call that begins where a pending one does is that one. -/
theorem IsCall.returned_eq_none (h : IsCall tr c) (hp : Pending tr t op i) (hi : c.invoked = i) :
    c.thread = t ∧ c.returned = none := by
  have hinvoked := h.invoked
  rw [hi, hp.invoked] at hinvoked
  have hthread : c.thread = t := by
    cases hinvoked
    rfl
  refine ⟨hthread, ?_⟩
  rcases hret : c.returned with _ | j
  · rfl
  · have hc := h.completed hret
    exact absurd hthread (hp.last j _ (hi ▸ hc.lt) hc.returned)

end

/-! ## Linearizing along a trace -/

variable {spec : S → O → R → S → Prop} {s₀ s s' : S} {order : List (Call τ O R)}

theorem linearization_nil : Linearization spec s₀ ([] : List (CallEvent τ O R)) [] s₀ := by
  refine ⟨List.nodup_nil, fun c hc ↦ ?_, fun t r j h ↦ ?_, List.Pairwise.nil, .nil s₀⟩
  · cases hc
  · cases h

/-- A call that begins does not join the order yet. -/
theorem Linearization.invoke (h : Linearization spec s₀ tr order s)
    (hfree : ∀ c ∈ order, c.returned = none → c.thread ≠ t) :
    Linearization spec s₀ (tr ++ [.invoke t op]) order s := by
  refine ⟨h.once, fun c hc ↦ ?_, fun t' r j hj ↦ ?_, h.realtime, h.legal⟩
  · exact (h.isCall c hc).concat fun hnone ↦ (hfree c hc hnone).symm
  · rcases getElem?_concat_of_some hj with hj | ⟨-, he⟩
    · exact h.complete t' r j hj
    · cases he

/-- **A call takes its place when it takes effect.**  It is enough that the specification, where
the calls before have led it, allows what the call will return. -/
theorem Linearization.effect (h : Linearization spec s₀ tr order s) (hp : Pending tr t op i)
    (hfree : ∀ c ∈ order, c.returned = none → c.thread ≠ t) (hspec : spec s op r s') :
    Linearization spec s₀ tr (order ++ [⟨t, op, r, i, none⟩]) s' := by
  refine ⟨?_, fun c hc ↦ ?_, fun t' r' j hj ↦ ?_, ?_, ?_⟩
  · rw [List.map_append]
    refine List.nodup_append.mpr ⟨h.once, List.nodup_singleton _, fun i' hi' i'' hi'' ↦ ?_⟩
    obtain ⟨c, hc, rfl⟩ := List.mem_map.mp hi'
    intro heq
    obtain ⟨hthread, hnone⟩ := (h.isCall c hc).returned_eq_none hp
      (heq.trans (List.mem_singleton.mp hi''))
    exact hfree c hc hnone hthread
  · rcases List.mem_append.mp hc with hc | hc
    · exact h.isCall c hc
    · rw [List.mem_singleton.mp hc]
      exact hp
  · obtain ⟨c, hc, hspecs⟩ := h.complete t' r' j hj
    exact ⟨c, List.mem_append_left _ hc, hspecs⟩
  · refine List.pairwise_append.mpr ⟨h.realtime, List.pairwise_singleton _ _, fun c _ d hd ↦ ?_⟩
    rw [List.mem_singleton.mp hd]
    rintro j ⟨⟩
  · rw [List.map_append]
    exact .concat h.legal hspec

/-- The pending call of the thread returns at place `j`. -/
def Call.finish [DecidableEq τ] (t : τ) (j : ℕ) (c : Call τ O R) : Call τ O R :=
  if c.thread = t ∧ c.returned = none then { c with returned := some j } else c

section

variable [DecidableEq τ] {c : Call τ O R} {j : ℕ}

theorem Call.finish_of_pos (h : c.thread = t ∧ c.returned = none) :
    c.finish t j = { c with returned := some j } :=
  if_pos h

theorem Call.finish_of_neg (h : ¬ (c.thread = t ∧ c.returned = none)) : c.finish t j = c :=
  if_neg h

theorem Call.finish_fields (t : τ) (j : ℕ) (c : Call τ O R) :
    (c.finish t j).invoked = c.invoked ∧ (c.finish t j).op = c.op ∧ (c.finish t j).ret = c.ret := by
  by_cases h : c.thread = t ∧ c.returned = none
  · rw [finish_of_pos h]
    exact ⟨rfl, rfl, rfl⟩
  · rw [finish_of_neg h]
    exact ⟨rfl, rfl, rfl⟩

/-- A call that has taken effect returns what it was going to. -/
theorem Linearization.ret (h : Linearization spec s₀ tr order s)
    (hmem : ⟨t, op, r, i, none⟩ ∈ order) :
    Linearization spec s₀ (tr ++ [.ret t r]) (order.map (Call.finish t tr.length)) s := by
  have hp : Pending tr t op i := h.isCall _ hmem
  -- it is the only one of the thread that is pending
  have honly : ∀ c ∈ order, c.thread = t ∧ c.returned = none → c = ⟨t, op, r, i, none⟩ := by
    rintro c hc ⟨rfl, hnone⟩
    exact List.inj_on_of_nodup_map h.once hc hmem (hp.unique ((h.isCall c hc).pending hnone))
  have hinvoked : (order.map (Call.finish t tr.length)).map Call.invoked =
      order.map Call.invoked := by
    rw [List.map_map]
    exact List.map_congr_left fun c _ ↦ (Call.finish_fields t _ c).1
  have hlegal : (order.map (Call.finish t tr.length)).map (fun c ↦ (c.op, c.ret)) =
      order.map fun c ↦ (c.op, c.ret) := by
    rw [List.map_map]
    refine List.map_congr_left fun c _ ↦ ?_
    obtain ⟨-, hop, hret⟩ := Call.finish_fields t tr.length c
    exact Prod.ext hop hret
  refine ⟨hinvoked ▸ h.once, fun c' hc' ↦ ?_, fun t' r' j hj ↦ ?_, ?_, hlegal ▸ h.legal⟩
  · obtain ⟨c, hc, rfl⟩ := List.mem_map.mp hc'
    by_cases hpending : c.thread = t ∧ c.returned = none
    · rw [Call.finish_of_pos hpending, honly c hc hpending]
      exact hp.complete r
    · rw [Call.finish_of_neg hpending]
      exact (h.isCall c hc).concat fun hnone heq ↦ hpending ⟨heq.symm, hnone⟩
  · rcases getElem?_concat_of_some hj with hj | ⟨rfl, he⟩
    · obtain ⟨c, hc, hthread, hret, hreturned⟩ := h.complete t' r' j hj
      refine ⟨_, List.mem_map_of_mem hc, ?_⟩
      rw [Call.finish_of_neg (by simp [hreturned])]
      exact ⟨hthread, hret, hreturned⟩
    · cases he
      have hfinish : Call.finish t tr.length ⟨t, op, r, i, none⟩ =
          ⟨t, op, r, i, some tr.length⟩ := Call.finish_of_pos ⟨rfl, rfl⟩
      exact ⟨_, List.mem_map.mpr ⟨_, hmem, hfinish⟩, rfl, rfl, rfl⟩
  · refine List.pairwise_map.mpr (h.realtime.imp_of_mem fun {a b} ha hb hab j hj ↦ ?_)
    rw [(Call.finish_fields t _ a).1]
    by_cases hpending : b.thread = t ∧ b.returned = none
    · rw [Call.finish_of_pos hpending] at hj
      cases hj
      have hlt : a.invoked < tr.length :=
        (List.getElem?_eq_some_iff.mp (h.isCall a ha).invoked).1
      omega
    · rw [Call.finish_of_neg hpending] at hj
      exact hab j hj

end

end Foundation
