import Pensieve.Membership.Disseminator

/-!
# How often an update is handed out

A queue under any sequence of `enqueue` and `get_updates` calls, each of which may sort the
equal counts in its own way.

There is at most one entry about a node (`OnePerNode`), so that it makes sense to speak of the
entry about a node.  It goes through the counts one by one: a call that hands its update out
raises its count, a newer update takes its place and starts again, and nothing else happens to
it (`Ready.handOut`, `Ready.keep`).
-/

namespace Pensieve.Disseminator

open Foundation

/-- A call. -/
inductive Call where
  | enqueue (update : MembershipUpdate)
  | getUpdates (sort : SortByCount) (limit : ℕ)

/-- What a call returns, and the queue after it. -/
def perform (d : Disseminator) : Call → List MembershipUpdate × Disseminator
  | .enqueue update => ([], d.enqueue update)
  | .getUpdates sort limit => d.getUpdates sort limit

/-- The queue after a sequence of calls. -/
def after (d : Disseminator) (calls : List Call) : Disseminator :=
  calls.foldl (fun d call ↦ (d.perform call).2) d

/-- How many of the calls hand an update out. -/
def handedOut (u : MembershipUpdate) : Disseminator → List Call → ℕ
  | _, [] => 0
  | d, call :: calls =>
    (if u ∈ (d.perform call).1 then 1 else 0) + handedOut u (d.perform call).2 calls

/-- None of the calls puts an update in that supersedes `u`. -/
def Unsuperseded (u : MembershipUpdate) (calls : List Call) : Prop :=
  ∀ update, .enqueue update ∈ calls → update.node = u.node → supersedes update u = false

/-- The order in which updates take each other's place: the incarnation, then the type. -/
def precedence (u : MembershipUpdate) : UInt64 ×ₗ ℕ := toLex (u.incarnation, u.type.toNat)

theorem supersedes_iff {update queued : MembershipUpdate} :
    supersedes update queued = true ↔ precedence queued < precedence update := by
  rw [precedence, precedence, Prod.Lex.toLex_lt_toLex, eq_comm (a := queued.incarnation),
    supersedes, Bool.or_eq_true, Bool.and_eq_true, decide_eq_true_iff, decide_eq_true_iff,
    decide_eq_true_iff]

/-! ## One entry about a node -/

/-- At most one entry about each node. -/
def OnePerNode (q : List Entry) : Prop := (q.map fun e ↦ e.update.node).Nodup

theorem OnePerNode.eq {q : List Entry} (h : OnePerNode q) {e e' : Entry} (he : e ∈ q) (he' : e' ∈ q)
    (hnode : e.update.node = e'.update.node) : e = e' :=
  List.inj_on_of_nodup_map h he he' hnode

theorem OnePerNode.perm {q q' : List Entry} (h : OnePerNode q) (hq : q'.Perm q) : OnePerNode q' :=
  (hq.map _).nodup_iff.mpr h

/-- `enqueue` leaves the nodes as they are, or adds one. -/
theorem map_node_enqueueIn (u : MembershipUpdate) (q : List Entry) :
    (enqueueIn u q).map (fun e ↦ e.update.node) =
      if u.node ∈ q.map (fun e ↦ e.update.node) then q.map fun e ↦ e.update.node
      else q.map (fun e ↦ e.update.node) ++ [u.node] := by
  induction q with
  | nil => rfl
  | cons e q ih =>
      rw [enqueueIn]
      by_cases hnode : e.update.node = u.node
      · have hmem : u.node ∈ (e :: q).map fun e ↦ e.update.node := by
          rw [List.map_cons, hnode]
          exact List.mem_cons_self
        rw [if_pos hnode, if_pos hmem]
        split_ifs
        · rw [List.map_cons, List.map_cons, hnode]
        · rfl
      · rw [if_neg hnode, List.map_cons, ih]
        simp only [List.map_cons, List.mem_cons, Ne.symm hnode, false_or]
        split_ifs <;> rfl

theorem OnePerNode.enqueueIn {q : List Entry} (h : OnePerNode q) (u : MembershipUpdate) :
    OnePerNode (enqueueIn u q) := by
  rw [OnePerNode, map_node_enqueueIn]
  split_ifs with hmem
  · exact h
  · exact List.nodup_append.mpr ⟨h, List.nodup_singleton _, fun a ha b hb heq ↦
      hmem (List.mem_singleton.mp hb ▸ heq ▸ ha)⟩

theorem map_node_countUp (count : ℕ) (q : List Entry) :
    (countUp count q).map (fun e ↦ e.update.node) = q.map fun e ↦ e.update.node := by
  rw [countUp, List.map_append, List.map_map]
  nth_rewrite 3 [← List.take_append_drop count q]
  rw [List.map_append]
  rfl

variable {d : Disseminator} {sort : SortByCount} {limit : ℕ}

theorem OnePerNode.getUpdates (h : OnePerNode d.queue) (sort : SortByCount) (limit : ℕ) :
    OnePerNode (d.getUpdates sort limit).2.queue := by
  have hcounted :
      OnePerNode (countUp (min limit (sort.run d.queue).length) (sort.run d.queue)) := by
    rw [OnePerNode, map_node_countUp]
    exact h.perm (sort.perm _)
  exact hcounted.sublist (List.filter_sublist.map _)

/-! ## What a call does to an entry -/

/-- The entry after it has been handed out once more. -/
def bump (e : Entry) : Entry := { e with transmitCount := e.transmitCount + 1 }

/-- Entries are handed out with the lowest counts first. -/
theorem getUpdates_split (d : Disseminator) (sort : SortByCount) (limit : ℕ) :
    ∃ taken left : List Entry, (taken ++ left).Perm d.queue ∧
      (d.getUpdates sort limit).1 = taken.map Entry.update ∧
      taken.length = min limit d.queue.length ∧
      (∀ e ∈ taken, ∀ e' ∈ left, e.transmitCount ≤ e'.transmitCount) ∧
      (d.getUpdates sort limit).2.queue =
        (taken.map bump ++ left).filter fun e ↦ e.transmitCount.toNat < d.maxTransmissions := by
  have hlen : (sort.run d.queue).length = d.queue.length := (sort.perm _).length_eq
  have hsorted := sort.sorted d.queue
  have happ := List.take_append_drop (min limit (sort.run d.queue).length) (sort.run d.queue)
  rw [← happ, List.pairwise_append] at hsorted
  refine ⟨(sort.run d.queue).take (min limit (sort.run d.queue).length),
    (sort.run d.queue).drop (min limit (sort.run d.queue).length), ?_, rfl, ?_, hsorted.2.2, rfl⟩
  · rw [happ]
    exact sort.perm _
  · rw [List.length_take, hlen]
    omega

/-- The one entry about a node has been handed out `count` times and is queued. -/
structure Ready (d : Disseminator) (u : MembershipUpdate) (count : ℕ) : Prop where
  one : OnePerNode d.queue
  mem : ∃ e ∈ d.queue, e.update = u ∧ e.transmitCount.toNat = count
  lt : count < d.maxTransmissions

section

variable {u : MembershipUpdate} {count : ℕ}

/-- An update that does not supersede it leaves the entry alone. -/
theorem Ready.enqueue (h : Ready d u count) {update : MembershipUpdate}
    (hkeep : update.node = u.node → supersedes update u = false) :
    Ready (d.enqueue update) u count := by
  obtain ⟨e, he, rfl, hcount⟩ := h.mem
  refine ⟨h.one.enqueueIn update, ⟨e, ?_, rfl, hcount⟩, h.lt⟩
  exact mem_enqueueIn_of_mem he fun heq ↦ hkeep heq.symm

/-- An entry that is not handed out stays as it is. -/
theorem Ready.keep (h : Ready d u count) (hout : u ∉ (d.getUpdates sort limit).1) :
    Ready (d.getUpdates sort limit).2 u count := by
  obtain ⟨e, he, rfl, rfl⟩ := h.mem
  exact ⟨h.one.getUpdates sort limit,
    ⟨e, (mem_getUpdates sort limit he h.lt).resolve_left hout, rfl, rfl⟩, h.lt⟩

/-- An entry that is handed out is counted.  It is dropped when the count is reached. -/
theorem Ready.handOut (h : Ready d u count) (hmax : d.maxTransmissions < 2 ^ 32)
    (hout : u ∈ (d.getUpdates sort limit).1) :
    (count + 1 < d.maxTransmissions → Ready (d.getUpdates sort limit).2 u (count + 1)) ∧
    (d.maxTransmissions ≤ count + 1 →
      ∀ e ∈ (d.getUpdates sort limit).2.queue, e.update.node ≠ u.node) := by
  obtain ⟨e, he, rfl, rfl⟩ := h.mem
  obtain ⟨taken, left, hperm, hres, -, -, hqueue⟩ := getUpdates_split d sort limit
  have hone : OnePerNode (taken ++ left) := h.one.perm hperm
  have hlt := h.lt
  have hsucc : (bump e).transmitCount.toNat = e.transmitCount.toNat + 1 := by
    rw [bump, UInt32.toNat_add]
    show (e.transmitCount.toNat + 1) % 2 ^ 32 = e.transmitCount.toNat + 1
    exact Nat.mod_eq_of_lt (by omega)
  -- the update that is handed out is that of the entry
  have htaken : e ∈ taken := by
    rw [hres] at hout
    obtain ⟨e', he', hupd⟩ := List.mem_map.mp hout
    have hmem : e' ∈ taken ++ left := List.mem_append_left _ he'
    rwa [hone.eq (hperm.mem_iff.mpr he) hmem (by rw [hupd])]
  refine ⟨fun hnext ↦ ⟨h.one.getUpdates sort limit,
    ⟨bump e, ?_, rfl, hsucc⟩, hnext⟩, fun hlast e' he' ↦ ?_⟩
  · rw [hqueue, List.mem_filter]
    refine ⟨List.mem_append_left _ (List.mem_map.mpr ⟨e, htaken, rfl⟩), ?_⟩
    rw [hsucc]
    exact decide_eq_true hnext
  · rw [hqueue, List.mem_filter, decide_eq_true_iff] at he'
    obtain ⟨hmem, hcount⟩ := he'
    intro hnode
    rcases List.mem_append.mp hmem with hmem | hmem
    · obtain ⟨e₀, he₀, rfl⟩ := List.mem_map.mp hmem
      obtain rfl := hone.eq (List.mem_append_left _ he₀) (List.mem_append_left _ htaken) hnode
      rw [hsucc] at hcount
      omega
    · obtain rfl := hone.eq (List.mem_append_right _ hmem) (List.mem_append_left _ htaken) hnode
      rw [OnePerNode, List.map_append, List.nodup_append] at hone
      exact hone.2.2 _ (List.mem_map_of_mem htaken) _ (List.mem_map_of_mem hmem) rfl

/-- What takes the place of an entry is newer, and starts again. -/
theorem perform_precedence (h : OnePerNode d.queue) (call : Call) {e e' : Entry} (he : e ∈ d.queue)
    (he' : e' ∈ (d.perform call).2.queue) (hnode : e'.update.node = e.update.node) :
    precedence e.update ≤ precedence e'.update ∧
      (precedence e.update < precedence e'.update → e'.transmitCount = 0) := by
  cases call with
  | enqueue u =>
      rcases mem_enqueueIn he' with rfl | hold
      · refine ⟨?_, fun _ ↦ rfl⟩
        by_cases hsup : supersedes u e.update = true
        · exact (supersedes_iff.mp hsup).le
        · -- the entry would have stayed, and it is the only one
          have hstays : e ∈ enqueueIn u d.queue :=
            mem_enqueueIn_of_mem he fun _ ↦ Bool.eq_false_iff.mpr hsup
          rw [(h.enqueueIn u).eq hstays he' hnode.symm]
      · rw [h.eq hold he hnode]
        exact ⟨le_rfl, fun hlt ↦ absurd hlt (lt_irrefl _)⟩
  | getUpdates sort limit =>
      obtain ⟨e₀, he₀, hupd⟩ := update_mem_of_getUpdates he'
      rw [← hupd, h.eq he₀ he (by rw [hupd, hnode])]
      exact ⟨le_rfl, fun hlt ↦ absurd hlt (lt_irrefl _)⟩

/-! ## Any sequence of calls -/

theorem after_concat (d : Disseminator) (calls : List Call) (call : Call) :
    d.after (calls ++ [call]) = ((d.after calls).perform call).2 := by
  rw [after, List.foldl_append]
  rfl

theorem handedOut_concat (u : MembershipUpdate) (d : Disseminator) (calls : List Call)
    (call : Call) :
    handedOut u d (calls ++ [call]) =
      handedOut u d calls + if u ∈ ((d.after calls).perform call).1 then 1 else 0 := by
  induction calls generalizing d with
  | nil =>
      rw [List.nil_append, handedOut, handedOut, handedOut, Nat.add_zero, Nat.zero_add]
      rfl
  | cons first calls ih =>
      rw [List.cons_append, handedOut, handedOut, ih, Nat.add_assoc]
      rfl

theorem perform_maxTransmissions (d : Disseminator) (call : Call) :
    (d.perform call).2.maxTransmissions = d.maxTransmissions := by
  cases call <;> rfl

theorem after_maxTransmissions (d : Disseminator) (calls : List Call) :
    (d.after calls).maxTransmissions = d.maxTransmissions := by
  induction calls using List.reverseRecOn with
  | nil => rfl
  | append_singleton calls call ih => rw [after_concat, perform_maxTransmissions, ih]

theorem OnePerNode.perform (h : OnePerNode d.queue) (call : Call) :
    OnePerNode (d.perform call).2.queue := by
  cases call with
  | enqueue u => exact h.enqueueIn u
  | getUpdates sort limit => exact h.getUpdates sort limit

theorem OnePerNode.after (h : OnePerNode d.queue) (calls : List Call) :
    OnePerNode (d.after calls).queue := by
  induction calls using List.reverseRecOn with
  | nil => exact h
  | append_singleton calls call ih =>
      rw [after_concat]
      exact ih.perform call

/-- An entry that nothing supersedes counts the calls that hand it out. -/
theorem Ready.after (h : Ready d u count) (hmax : d.maxTransmissions < 2 ^ 32) {calls : List Call}
    (hkeep : Unsuperseded u calls) (hlt : count + handedOut u d calls < d.maxTransmissions) :
    Ready (d.after calls) u (count + handedOut u d calls) := by
  induction calls generalizing d count with
  | nil => exact h
  | cons call calls ih =>
      have hrest : Unsuperseded u calls := fun update hmem ↦
        hkeep update (List.mem_cons_of_mem _ hmem)
      have hsame := perform_maxTransmissions d call
      rw [handedOut, ← Nat.add_assoc] at hlt ⊢
      rw [← hsame] at hmax hlt
      have hnext : Ready (d.perform call).2 u
          (count + if u ∈ (d.perform call).1 then 1 else 0) := by
        cases call with
        | enqueue update =>
            have hnone : u ∉ (d.perform (.enqueue update)).1 := List.not_mem_nil
            rw [if_neg hnone, Nat.add_zero]
            exact h.enqueue (hkeep update List.mem_cons_self)
        | getUpdates sort limit =>
            split_ifs with hout
            · rw [if_pos hout] at hlt
              exact (h.handOut (hsame ▸ hmax) hout).1 (by rw [← hsame]; omega)
            · exact h.keep hout
      exact ih hnext hmax hrest hlt

end

/-- While there is an entry about a node, it only becomes newer. -/
theorem precedence_after (h : OnePerNode d.queue) {x : NodeId} {calls : List Call}
    (hstays : ∀ pre, pre <+: calls → ∃ e ∈ (d.after pre).queue, e.update.node = x) {e e' : Entry}
    (he : e ∈ d.queue) (hx : e.update.node = x) (he' : e' ∈ (d.after calls).queue)
    (hx' : e'.update.node = x) : precedence e.update ≤ precedence e'.update := by
  induction calls using List.reverseRecOn generalizing e' with
  | nil => rw [h.eq he he' (hx.trans hx'.symm)]
  | append_singleton calls call ih =>
      obtain ⟨mid, hmid, hmx⟩ := hstays calls (List.prefix_append calls [call])
      rw [after_concat] at he'
      have hstep := perform_precedence (h.after calls) call hmid he' (hx'.trans hmx.symm)
      exact (ih (fun pre hpre ↦ hstays pre (hpre.trans (List.prefix_append _ _))) hmid hmx).trans
        hstep.1

/-- Updates about different nodes are handed out, with the lowest counts. -/
theorem OnePerNode.getUpdates_lowest (h : OnePerNode d.queue) (sort : SortByCount) (limit : ℕ) :
    ∃ taken left : List Entry, (taken ++ left).Perm d.queue ∧
      (d.getUpdates sort limit).1 = taken.map Entry.update ∧
      (d.getUpdates sort limit).1.length = min limit d.queue.length ∧
      ((d.getUpdates sort limit).1.map MembershipUpdate.node).Nodup ∧
      ∀ e ∈ taken, ∀ e' ∈ left, e.transmitCount ≤ e'.transmitCount := by
  obtain ⟨taken, left, hperm, hres, hlen, hle, -⟩ := getUpdates_split d sort limit
  refine ⟨taken, left, hperm, hres, ?_, ?_, hle⟩
  · rw [hres, List.length_map, hlen]
  · have htaken : OnePerNode (taken ++ left) := h.perm hperm
    rw [OnePerNode, List.map_append] at htaken
    rw [hres, List.map_map]
    exact (List.nodup_append.mp htaken).1

/-- A new entry counts how often it is handed out, and the last time it goes. -/
theorem OnePerNode.lifetime (h : OnePerNode d.queue) (hmax : d.maxTransmissions < 2 ^ 32)
    {u : MembershipUpdate} (hu : ⟨u, 0⟩ ∈ d.queue) {later : List Call}
    (hkeep : Unsuperseded u later) (hlt : handedOut u d later < d.maxTransmissions) :
    ⟨u, UInt32.ofNat (handedOut u d later)⟩ ∈ (d.after later).queue ∧
      ∀ sort limit, handedOut u d (later ++ [.getUpdates sort limit]) = d.maxTransmissions →
        ∀ e ∈ (d.after (later ++ [.getUpdates sort limit])).queue, e.update.node ≠ u.node := by
  have hready : Ready d u 0 := ⟨h, ⟨_, hu, rfl, rfl⟩, by omega⟩
  have hafter := hready.after (by omega) hkeep (by omega)
  rw [Nat.zero_add] at hafter
  constructor
  · obtain ⟨e, he, rfl, hcount⟩ := hafter.mem
    rwa [← hcount, UInt32.ofNat_toNat]
  · intro sort limit hlast
    rw [handedOut_concat] at hlast
    have hout : u ∈ ((d.after later).perform (.getUpdates sort limit)).1 := by
      by_contra hout
      rw [if_neg hout] at hlast
      omega
    rw [if_pos hout] at hlast
    have hsame := after_maxTransmissions d later
    rw [after_concat]
    exact (hafter.handOut (by omega) hout).2 (by omega)

/-- **The accounting of the queue**, after any calls.  There is one entry about a node.  A call
hands out as many updates as it may, about different nodes and with the lowest counts.  An
update that is put in and that nothing supersedes is queued until it has been handed out
`max` times, and then it is gone.  An entry about a node only becomes newer, and starts again
when it does. -/
theorem accounting (max : ℕ) (hmax : max < 2 ^ 32) (calls : List Call) :
    let d := after ⟨max, []⟩ calls
    OnePerNode d.queue ∧
    (∀ sort limit, ∃ taken left : List Entry, (taken ++ left).Perm d.queue ∧
      (d.getUpdates sort limit).1 = taken.map Entry.update ∧
      (d.getUpdates sort limit).1.length = min limit d.queue.length ∧
      ((d.getUpdates sort limit).1.map MembershipUpdate.node).Nodup ∧
      ∀ e ∈ taken, ∀ e' ∈ left, e.transmitCount ≤ e'.transmitCount) ∧
    (∀ u, ⟨u, 0⟩ ∈ d.queue → ∀ later, Unsuperseded u later → handedOut u d later < max →
      ⟨u, UInt32.ofNat (handedOut u d later)⟩ ∈ (d.after later).queue ∧
      ∀ sort limit, handedOut u d (later ++ [.getUpdates sort limit]) = max →
        ∀ e ∈ (d.after (later ++ [.getUpdates sort limit])).queue, e.update.node ≠ u.node) ∧
    (∀ call, ∀ e ∈ d.queue, ∀ e' ∈ (d.perform call).2.queue, e'.update.node = e.update.node →
      precedence e.update ≤ precedence e'.update ∧
        (precedence e.update < precedence e'.update → e'.transmitCount = 0)) ∧
    ∀ x later, (∀ pre, pre <+: later → ∃ e ∈ (d.after pre).queue, e.update.node = x) →
      ∀ e ∈ d.queue, e.update.node = x → ∀ e' ∈ (d.after later).queue, e'.update.node = x →
        precedence e.update ≤ precedence e'.update := by
  intro d
  have hd : d.maxTransmissions = max := after_maxTransmissions _ calls
  have hnil : OnePerNode (queue ⟨max, []⟩) := List.nodup_nil
  have hone : OnePerNode d.queue := hnil.after calls
  refine ⟨hone, fun sort limit ↦ hone.getUpdates_lowest sort limit, ?_,
    fun call e he e' he' hnode ↦ perform_precedence hone call he he' hnode,
    fun x later hstays e he hx e' he' hx' ↦ precedence_after hone hstays he hx he' hx'⟩
  rw [← hd]
  exact fun u hu later hkeep hlt ↦ hone.lifetime (hd ▸ hmax) hu hkeep hlt

/-- Three updates, each to be handed out twice, two at a time.  The first is in the first two
messages. -/
theorem accounting_three :
    let u : MembershipUpdate := ⟨.suspect, ⟨[97], 7946⟩, 0, 0⟩
    let v : MembershipUpdate := ⟨.alive, ⟨[98], 7946⟩, 3, 11211⟩
    let w : MembershipUpdate := ⟨.dead, ⟨[99], 7946⟩, 1, 0⟩
    let d := after ⟨2, []⟩ [.enqueue u, .enqueue v, .enqueue w]
    (d.getUpdates .stable 2).1 = [u, v] ∧
      ⟨u, 1⟩ ∈ (d.after [.getUpdates .stable 2]).queue ∧
      ((d.after [.getUpdates .stable 2]).getUpdates .stable 2).1 = [w, u] ∧
      ∀ e ∈ (d.after [.getUpdates .stable 2, .getUpdates .stable 2]).queue,
        e.update.node ≠ u.node := by
  intro u v w d
  obtain ⟨-, -, hcount, -⟩ := accounting 2 (by decide) [.enqueue u, .enqueue v, .enqueue w]
  have hkeep : Unsuperseded u [.getUpdates .stable 2] := by simp [Unsuperseded]
  have hlater := hcount u (by decide) [.getUpdates .stable 2] hkeep (by decide)
  exact ⟨by decide, hlater.1, by decide, hlater.2 .stable 2 (by decide)⟩

end Pensieve.Disseminator
