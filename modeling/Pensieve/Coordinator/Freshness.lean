import Pensieve.Coordinator.Collapsing

/-!
# How fresh a GET is

The peers are stores that lose nothing of their own accord.  A GET that goes to a
peer is answered with what the peer held when it processed the fetch that the GET
got its answer from.  That is the effect of the last write before.  A write that was
answered before the GET came in is among these, unless the GET was collapsed into a
fetch that was under way already and that the peer processed before the write
(`get_fresh`).  Then the GET is answered with the older value (`stale_get`).
-/

namespace Pensieve

open Foundation

/-! ## Peers that store -/

/-- What the answer of a storing peer depends on, and what others do to it. -/
inductive StoreMove where
  /-- The peer has room for the entry of a PUT. -/
  | accept
  /-- The peer has no room for it. -/
  | refuse
  /-- Another coordinator writes to the peer. -/
  | write (address : Address) (key : Bytes) (value : Option Bytes)
deriving DecidableEq

/-- The contents of the peers. -/
abbrev Contents := Address → Bytes → Option Bytes

/-- Write to a peer. -/
def Contents.set (w : Contents) (address : Address) (key : Bytes) (value : Option Bytes) :
    Contents :=
  Function.update w address (Function.update (w address) key value)

theorem Contents.set_apply (w : Contents) (a a' : Address) (k k' : Bytes) (v : Option Bytes) :
    w.set a k v a' k' = if a = a' ∧ k = k' then v else w a' k' := by
  by_cases ha : a' = a
  · subst ha
    by_cases hk : k' = k
    · subst hk
      simp [set]
    · simp [set, hk, Ne.symm hk]
  · simp [set, ha, Ne.symm ha]

/-- What a peer does that answers as `serve_local` does over a store that does not
evict.  A PUT for which there is no room has dropped the old entry. -/
def serveStored (w : Contents) (o : StoreMove) (address : Address) (req : Request) :
    Response × Contents :=
  if req.opcode = .get then (Coordinator.collapsed (w address req.key), w)
  else if req.opcode = .put then
    if o = .accept then (⟨.ok, []⟩, w.set address req.key (some req.value))
    else (⟨.error, []⟩, w.set address req.key none)
  else if req.opcode = .del then
    (⟨if (w address req.key).isSome then .ok else .notFound, []⟩, w.set address req.key none)
  else (⟨.error, []⟩, w)

/-- The write of another coordinator. -/
def writeStored (w : Contents) : StoreMove → Option Contents
  | .write address key value => some (w.set address key value)
  | _ => none

/-- Peers that store. -/
def storingPeers : Peers Contents StoreMove where
  serve w o address req := some (serveStored w o address req)
  change := writeStored

namespace Coordinator

open WaitGroup

variable {C : Type*} {n : ℕ}

/-- What an event puts at a key of a peer, if it is a write to it. -/
def effectOn (address : Address) (key : Bytes) : Event C StoreMove → Option (Option Bytes)
  | .served _ a req resp =>
    if a = address ∧ req.key = key then
      if req.opcode = .get then none
      else if req.opcode = .put then
        some (if resp.status = .ok then some req.value else none)
      else if req.opcode = .del then some none
      else none
    else none
  | .changed (.write a k value) => if a = address ∧ k = key then some value else none
  | _ => none

/-- Going by the trace, the key may have the value: the last write to it put it there,
or there was none. -/
def Holds (tr : List (Event C StoreMove)) (address : Address) (key : Bytes)
    (value : Option Bytes) : Prop :=
  Since (fun e ↦ effectOn address key e = some value) (fun e ↦ effectOn address key e ≠ none) tr ∨
    ∀ e ∈ tr, effectOn address key e = none

variable {tr : List (Event C StoreMove)} {address : Address} {key : Bytes}

theorem Holds.concat {v : Option Bytes} (h : Holds tr address key v) (e : Event C StoreMove) :
    Holds (tr ++ [e]) address key ((effectOn address key e).getD v) := by
  rcases he : effectOn address key e with - | v'
  · rcases h with h | h
    · exact Or.inl (since_append.mpr (Or.inr ⟨h, by simp [he]⟩))
    · refine Or.inr fun x hx ↦ ?_
      rcases List.mem_append.mp hx with hx | hx
      · exact h x hx
      · rw [List.mem_singleton.mp hx, he]
  · exact Or.inl (since_append.mpr (Or.inl ⟨[], e, [], rfl, he, by simp⟩))

theorem Holds.quiet {v : Option Bytes} {ev : List (Event C StoreMove)}
    (h : Holds tr address key v) (hev : ∀ e ∈ ev, effectOn address key e = none) :
    Holds (tr ++ ev) address key v := by
  rcases h with h | h
  · exact Or.inl (since_append.mpr (Or.inr ⟨h, fun e he hne ↦ hne (hev e he)⟩))
  · refine Or.inr fun x hx ↦ ?_
    exact (List.mem_append.mp hx).elim (h x) (hev x)

/-- A GET that a peer processes reads what the peer holds. -/
def ReadRule (past : List (Event C StoreMove)) : Event C StoreMove → Prop
  | .served _ address req resp =>
    req.opcode = .get → ∃ value, resp = collapsed value ∧ Holds past address req.key value
  | _ => True

/-- What a peer does to a key. -/
theorem serveStored_snd (w : Contents) (o : StoreMove) (a : Address) (req : Request) (r : ℕ) :
    (serveStored w o a req).2 address key =
      (effectOn address key
        (.served r a req (serveStored w o a req).1 : Event C StoreMove)).getD (w address key) := by
  by_cases hget : req.opcode = .get
  · simp [serveStored, effectOn, hget]
  by_cases hput : req.opcode = .put
  · rw [effectOn, if_neg hget, if_pos hput, serveStored, if_neg hget, if_pos hput]
    by_cases ho : o = .accept
    · rw [if_pos ho]
      refine (Contents.set_apply ..).trans ?_
      split_ifs <;> first | rfl | contradiction
    · rw [if_neg ho]
      refine (Contents.set_apply ..).trans ?_
      split_ifs with _ hok
      · exact absurd hok (by decide : Status.error ≠ .ok)
      · rfl
      · rfl
  by_cases hdel : req.opcode = .del
  · rw [effectOn, if_neg hget, if_neg hput, if_pos hdel, serveStored, if_neg hget, if_neg hput,
      if_pos hdel]
    refine (Contents.set_apply ..).trans ?_
    split_ifs <;> rfl
  · simp [serveStored, effectOn, hget, hput, hdel]

/-- What others do to a key. -/
theorem writeStored_eq_some {w w' : Contents} {o : StoreMove} (h : writeStored w o = some w') :
    w' address key =
      (effectOn address key (.changed o : Event C StoreMove)).getD (w address key) := by
  cases o with
  | write a k v =>
      cases h
      rw [effectOn, Contents.set_apply]
      split_ifs <;> rfl
  | _ => cases h

/-- A GET reads. -/
theorem serveStored_get (w : Contents) (o : StoreMove) (a : Address) {req : Request}
    (hget : req.opcode = .get) : (serveStored w o a req).1 = collapsed (w a req.key) := by
  rw [serveStored, if_pos hget]

variable [DecidableEq C] {s s' : Coordinator C n Contents} {ev : List (Event C StoreMove)}

/-- What a step does to the peers. -/
theorem Steps.world {W O : Type*} {peers : Peers W O} {s s' : Coordinator C n W}
    {ev : List (Event C O)} (h : Steps peers s s' ev) :
    (s'.world = s.world ∧ (∀ r a req resp, .served r a req resp ∉ ev) ∧ ∀ o, .changed o ∉ ev) ∨
    (∃ r a req resp o, ev = [.served r a req resp] ∧
      peers.serve s.world o a req = some (resp, s'.world)) ∨
    ∃ o, ev = [.changed o] ∧ peers.change s.world o = some s'.world := by
  cases h with
  | serve hc hw => exact Or.inr (Or.inl ⟨_, _, _, _, _, rfl, hw⟩)
  | change hw => exact Or.inr (Or.inr ⟨_, rfl, hw⟩)
  | _ => exact Or.inl ⟨rfl, by simp, by simp⟩

/-- What the peers hold goes by the trace. -/
structure WorldInv (s : Coordinator C n Contents) (tr : List (Event C StoreMove)) : Prop where
  holds : ∀ address key, Holds tr address key (s.world address key)
  reads : Guarded ReadRule tr

theorem WorldInv.steps (h : WorldInv s tr) (hs : Steps storingPeers s s' ev) :
    WorldInv s' (tr ++ ev) := by
  rcases hs.world with ⟨hworld, hserved, hchanged⟩ | ⟨r, a, req, resp, o, rfl, hw⟩ | ⟨o, rfl, hw⟩
  · constructor
    · intro address key
      rw [hworld]
      refine (h.holds address key).quiet fun e he ↦ ?_
      cases e with
      | served r a req resp => exact absurd he (hserved r a req resp)
      | changed o => exact absurd he (hchanged o)
      | _ => rfl
    · refine h.reads.append fun pre e post hev ↦ ?_
      cases e with
      | served r a req resp => exact absurd (by simp [hev]) (hserved r a req resp)
      | _ => trivial
  · have hres : serveStored s.world o a req = (resp, s'.world) := Option.some.inj hw
    constructor
    · intro address key
      have hkey : (serveStored s.world o a req).2 address key =
          (effectOn (C := C) address key
            (.served r a req (serveStored s.world o a req).1)).getD _ :=
        serveStored_snd ..
      simp only [hres] at hkey
      rw [hkey]
      exact (h.holds address key).concat _
    · refine h.reads.concat fun hget ↦ ⟨_, ?_, h.holds a req.key⟩
      rw [← serveStored_get s.world o a hget, hres]
  · constructor
    · intro address key
      rw [writeStored_eq_some hw]
      exact (h.holds address key).concat _
    · exact h.reads.concat trivial

theorem run_worldInv (hrun : (machine C n storingPeers).Run s tr) : WorldInv s tr := by
  refine hrun.invariant (I := fun s tr ↦ WorldInv s tr) ?_ ?_
  · intro s _
    exact ⟨fun _ _ ↦ Or.inr nofun, guarded_nil⟩
  · intro s tr a s' ev _ h hstep
    exact h.steps (step_steps hstep)

/-! ## Where values come from -/

variable {W O : Type*} {peers : Peers W O}

/-- The owner of the key is the peer at `a` all along.  It may be missing from the
member table. -/
def OwnedBy (tr : List (Event C O)) (key : Bytes) (a : Address) : Prop :=
  ∀ r c req route, .received r c req route ∈ tr → req.key = key →
    ∃ owner address, route = .remote owner address ∧ ∀ b, address = some b → b = a

omit [DecidableEq C] in
theorem OwnedBy.of_prefix {t tr : List (Event C O)} {key : Bytes} {a : Address}
    (h : OwnedBy tr key a) (ht : t <+: tr) : OwnedBy t key a :=
  fun r c req route hmem ↦ h r c req route (ht.subset hmem)

omit [DecidableEq C] in
/-- A reply to a request for the key is the response of its owner. -/
theorem served_of_replied {tr : List (Event C O)} (h : Guarded Rule tr) {r : ℕ} {c : C}
    {req : Request} {route : Route} {a : Address} {resp : Response}
    (howned : OwnedBy tr req.key a) (hr : .received r c req route ∈ tr)
    (ho : .upstream r (.replied resp) ∈ tr) : .served r a req resp ∈ tr := by
  obtain ⟨pre, post, htr, -, -, hserved⟩ := h.of_mem ho
  obtain ⟨a', req', hmem⟩ := hserved resp rfl
  have hmem' : .served r a' req' resp ∈ tr := by
    rw [htr]
    exact List.mem_append_left _ hmem
  obtain ⟨pre', post', htr', d, owner', hr'⟩ := h.of_mem hmem'
  have hr'' : .received r d req' (.remote owner' (some a')) ∈ tr := by
    rw [htr']
    exact List.mem_append_left _ hr'
  obtain ⟨-, rfl, rfl⟩ := received_unique h hr hr''
  obtain ⟨owner, address, hroute, haddress⟩ := howned _ _ _ _ hr rfl
  cases hroute
  obtain rfl := haddress a' rfl
  exact hmem'

omit [DecidableEq C] in
/-- A write that went to a peer and was answered with `Ok` was processed by the
peer. -/
theorem served_of_answered_ok {tr : List (Event C O)} (h : Guarded Rule tr) {w : ℕ}
    {req : Request} {resp : Response} {a : Address} (howned : OwnedBy tr req.key a)
    (hop : req.opcode = .put ∨ req.opcode = .del) (hok : resp.status = .ok)
    (hans : .answered w req resp ∈ tr) : .served w a req resp ∈ tr := by
  have hget : req.opcode ≠ .get := by
    rcases hop with hop | hop <;> rw [hop] <;> decide
  have hinfo : req.opcode ≠ .clusterInfo := by
    rcases hop with hop | hop <;> rw [hop] <;> decide
  obtain ⟨pre, post, htr, hsource⟩ := h.of_mem hans
  have hsub : ∀ x ∈ pre, x ∈ tr := fun x hx ↦ by
    rw [htr]
    exact List.mem_append_left _ hx
  cases Source.mono hsource hsub with
  | here hr hhere =>
      obtain ⟨owner, address, rfl, -⟩ := howned _ _ _ _ hr rfl
      rcases hhere with hhere | hhere
      · cases hhere
      · exact absurd hhere hinfo
  | @proxied c owner address o hr ho hresp =>
      cases o with
      | noPeer =>
          rw [hresp] at hok
          exact absurd hok (by decide)
      | failed =>
          rw [hresp] at hok
          exact absurd hok (by decide)
      | replied resp' =>
          obtain rfl : resp = resp' := hresp
          exact served_of_replied h howned hr ho
  | waited hr hj =>
      obtain ⟨c, req', owner, address, hr', hget', -⟩ := received_of_joined h hj
      obtain ⟨-, rfl, -⟩ := received_unique h hr hr'
      exact absurd hget' hget

/-! ## Reads and writes -/

/-- The response tells the effect of the write, or of a later write to the key. -/
def Fresh (tr : List (Event C StoreMove)) (a : Address) (key : Bytes)
    (write : Event C StoreMove) (resp : Response) : Prop :=
  ∃ pre e post value, tr = pre ++ e :: post ∧ effectOn a key e = some value ∧
    (e = write ∨ write ∈ pre) ∧ resp = collapsed value

/-- The request got its answer from the fetch that `i` performed. -/
def AnsweredBy (tr : List (Event C StoreMove)) (key : Bytes) (r i : ℕ) : Prop :=
  ∃ f b, .joined r key f b ∈ tr ∧ .joined i key f true ∈ tr

/-- The fetch of another request `i` had come in and had been processed by the peer
before the write `w` was. -/
def Overtaken (tr : List (Event C StoreMove)) (a : Address) (r i w : ℕ) (write : Request)
    (resp : Response) : Prop :=
  r ≠ i ∧ ∃ t, t <+: tr ∧ (∃ c req route, .received i c req route ∈ t) ∧
    (∃ req x, .served i a req x ∈ t) ∧ .served w a write resp ∉ t ∧ .answered w write resp ∉ t

theorem collapsed_completion_collapsed (value : Option Bytes) :
    collapsed (completion (collapsed value)) = collapsed value := by
  cases value <;> rfl

omit [DecidableEq C] in
/-- A write has an effect. -/
theorem effectOn_write {w : ℕ} {a : Address} {write : Request} {resp : Response}
    (hop : write.opcode = .put ∨ write.opcode = .del) :
    effectOn a write.key (.served w a write resp : Event C StoreMove) ≠ none := by
  rcases hop with hop | hop <;>
    simp [effectOn, hop, Opcode.get, Opcode.put, Opcode.del]

omit [DecidableEq C] in
/-- What a peer holds after a write is the effect of that write or of a later one. -/
theorem fresh_of_holds {a : Address} {key : Bytes} {write : Event C StoreMove}
    {value : Option Bytes} {pre post : List (Event C StoreMove)}
    (h : Holds pre a key value) (hwrite : write ∈ pre) (heffect : effectOn a key write ≠ none) :
    Fresh (pre ++ post) a key write (collapsed value) := by
  rcases h with ⟨p, e, q, rfl, he, hquiet⟩ | hnone
  · refine ⟨p, e, q ++ post, value, by simp, he, ?_, rfl⟩
    rcases List.mem_append.mp hwrite with hmem | hmem
    · exact Or.inr hmem
    · rcases List.mem_cons.mp hmem with rfl | hmem
      · exact Or.inl rfl
      · exact absurd heffect (hquiet write hmem)
  · exact absurd (hnone write hwrite) heffect

/-- The answer to a GET that goes to a peer is what came of the fetch of some
request. -/
theorem exists_fetch (hrun : (machine C n storingPeers).Run s tr) {g : ℕ} {c : C}
    {get : Request} {owner : NodeId} {address : Option Address} {answer : Response}
    (hr : .received g c get (.remote owner address) ∈ tr) (hget : get.opcode = .get)
    (hanswer : .answered g get answer ∈ tr) :
    ∃ i o, AnsweredBy tr get.key g i ∧ .upstream i o ∈ tr ∧
      (answer = o.response ∨ answer = collapsed (completion o.response)) := by
  obtain ⟨gtr, hinv⟩ := run_inv hrun
  cases source_of_answered hrun hanswer with
  | here hr' hhere =>
      obtain ⟨-, -, rfl⟩ := received_unique hinv.rule hr' hr
      rcases hhere with hhere | hhere
      · cases hhere
      · rw [hget] at hhere
        exact absurd hhere (by decide)
  | @proxied _ _ _ o _ ho hresp hinit =>
      obtain ⟨f, hf⟩ := hinit hget
      exact ⟨g, o, ⟨f, true, hf, hf⟩, ho, Or.inl hresp⟩
  | @waited _ _ _ i f o _ hj hi ho hresp =>
      exact ⟨i, o, ⟨f, false, hj, hi⟩, ho, Or.inr hresp⟩

/-- Without the peer's reply no request is answered `Ok`. -/
theorem replied_of_ok {o : Outcome} {answer : Response}
    (h : answer = o.response ∨ answer = collapsed (completion o.response))
    (hok : answer.status = .ok) : ∃ x, o = .replied x := by
  cases o with
  | replied x => exact ⟨x, rfl⟩
  | noPeer => rcases h with rfl | rfl <;> exact absurd hok (by decide)
  | failed => rcases h with rfl | rfl <;> exact absurd hok (by decide)

/-- **How fresh a GET is.**  In every run of a coordinator that has one peer for the owner
of a key: if a PUT or DEL was answered `Ok` before a GET of the
key came in, and the GET is answered from a fetch that got the peer's reply, then the
answer tells the effect of that write or of a later one, unless the GET was collapsed
into another's fetch that the peer had processed before the write.  Without a reply
there is no `Ok`. -/
theorem get_fresh (C : Type*) [DecidableEq C] (n : ℕ) (s : Coordinator C n Contents)
    (tr : List (Event C StoreMove)) (hrun : (machine C n storingPeers).Run s tr) (a : Address)
    (key : Bytes) (howned : OwnedBy tr key a) (w : ℕ) (write : Request) (resp : Response)
    (hwrite : write.key = key)
    (hop : write.opcode = .put ∨ write.opcode = .del) (hok : resp.status = .ok)
    (g : ℕ) (c : C) (get : Request) (route : Route) (answer : Response)
    (hr : .received g c get route ∈ tr) (hget : get.opcode = .get) (hkey : get.key = key)
    (hanswer : .answered g get answer ∈ tr)
    (hbefore : ∃ t, t <+: tr ∧ .answered w write resp ∈ t ∧
      ∀ d req route', .received g d req route' ∉ t) :
    ∃ i o, AnsweredBy tr key g i ∧ .upstream i o ∈ tr ∧
      (answer.status = .ok → ∃ x, o = .replied x) ∧
      ∀ x, o = .replied x →
        Fresh tr a key (.served w a write resp) answer ∨ Overtaken tr a g i w write resp := by
  obtain ⟨gtr, hinv⟩ := run_inv hrun
  obtain ⟨owner, address, rfl, -⟩ := howned _ _ _ _ hr hkey
  obtain ⟨i, o, hby, ho, hres⟩ := exists_fetch hrun hr hget hanswer
  rw [hkey] at hby
  refine ⟨i, o, hby, ho, replied_of_ok hres, ?_⟩
  rintro x rfl
  -- The fetch was processed by the peer, and read what it held then.
  obtain ⟨f, b, -, hi⟩ := hby
  obtain ⟨d, req, owner', address', hri, hgeti, hkeyi⟩ := received_of_joined hinv.rule hi
  have hserved := served_of_replied hinv.rule (hkeyi ▸ howned) hri ho
  obtain ⟨pre, post, htr, hread⟩ := (run_worldInv hrun).reads.of_mem hserved
  obtain ⟨value, rfl, hholds⟩ := hread hgeti
  have hanswer' : answer = collapsed value := by
    rcases hres with hres | hres
    · exact hres
    · rw [hres]
      exact collapsed_completion_collapsed value
  have hpre : pre <+: tr := ⟨_, htr.symm⟩
  have hanswered : .answered w write resp ∈ pre → .served w a write resp ∈ pre :=
    served_of_answered_ok (hinv.rule.of_prefix hpre) (hwrite ▸ howned.of_prefix hpre) hop hok
  by_cases hw : .served w a write resp ∈ pre
  · left
    rw [hanswer', htr]
    exact fresh_of_holds (hkeyi ▸ hholds) hw (hwrite ▸ effectOn_write hop)
  · right
    obtain ⟨d', owner₀, hreceived⟩ := hinv.rule pre _ post htr
    refine ⟨?_, pre ++ [.served i a req (collapsed value)], ⟨post, by simp [htr]⟩,
      ⟨d', req, _, List.mem_append_left _ hreceived⟩,
      ⟨req, _, List.mem_append_right _ List.mem_cons_self⟩, ?_, ?_⟩
    · -- A GET that performs its own fetch came in after the write was answered.
      rintro rfl
      obtain ⟨t, ht, hwt, hgt⟩ := hbefore
      rcases List.prefix_or_prefix_of_prefix ht hpre with h | h
      · exact hw (hanswered (h.subset hwt))
      · exact hgt _ _ _ (h.subset hreceived)
    · intro hmem
      rcases List.mem_append.mp hmem with hmem | hmem
      · exact hw hmem
      · cases List.mem_singleton.mp hmem
        rcases hop with hop | hop <;> rw [hgeti] at hop <;> exact absurd hop (by decide)
    · intro hmem
      rcases List.mem_append.mp hmem with hmem | hmem
      · exact hw (hanswered hmem)
      · cases List.mem_singleton.mp hmem

/-- A PUT is answered, and then a GET comes in. -/
def putThenGet : List (Action ℕ StoreMove) :=
  [.receive 0 ⟨.put, [107], [118]⟩, .serve 0 .accept, .reply 0, .answer 0,
    .receive 1 ⟨.get, [107], []⟩, .serve 1 .accept, .reply 1, .collapse (.takePending 1),
    .collapse (.publish 1), .collapse (.return 1), .leave 1, .answer 1]

/-- The events of that run. -/
def putThenGetTrace : List (Event ℕ StoreMove) :=
  let route : Route := .remote ⟨[98], 7946⟩ (some ([98], 11211))
  [.received 0 0 ⟨.put, [107], [118]⟩ route,
    .served 0 ([98], 11211) ⟨.put, [107], [118]⟩ ⟨.ok, []⟩, .upstream 0 (.replied ⟨.ok, []⟩),
    .answered 0 ⟨.put, [107], [118]⟩ ⟨.ok, []⟩, .received 1 1 ⟨.get, [107], []⟩ route,
    .joined 1 [107] 0 true, .served 1 ([98], 11211) ⟨.get, [107], []⟩ ⟨.ok, [118]⟩,
    .upstream 1 (.replied ⟨.ok, [118]⟩), .answered 1 ⟨.get, [107], []⟩ ⟨.ok, [118]⟩]

/-- The GET is answered with the value of the PUT. -/
theorem get_fresh_put :
    ∃ s i x, (machine ℕ 0 storingPeers).Run s putThenGetTrace ∧
      AnsweredBy putThenGetTrace [107] 1 i ∧ .upstream i (.replied x) ∈ putThenGetTrace ∧
      (Fresh putThenGetTrace ([98], 11211) [107]
          (.served 0 ([98], 11211) ⟨.put, [107], [118]⟩ ⟨.ok, []⟩) ⟨.ok, [118]⟩ ∨
        Overtaken putThenGetTrace ([98], 11211) 1 i 0 ⟨.put, [107], [118]⟩ ⟨.ok, []⟩) := by
  have htrace : ((machine ℕ 0 storingPeers).exec (onePeer fun _ _ ↦ none) putThenGet).map
      Prod.snd = some putThenGetTrace := by
    decide +kernel
  obtain ⟨⟨s, tr⟩, hexec, rfl⟩ := Option.map_eq_some_iff.mp htrace
  have hstart : (machine ℕ 0 storingPeers).Run (onePeer fun _ _ ↦ none) [] :=
    .init ⟨rfl, fun _ ↦ rfl, rfl⟩
  have hrun := hstart.exec hexec
  have howned : OwnedBy putThenGetTrace [107] ([98], 11211) := by
    intro r c req route hmem _
    simp only [putThenGetTrace, List.mem_cons, List.not_mem_nil, or_false, reduceCtorEq,
      false_or, Event.received.injEq] at hmem
    rcases hmem with ⟨-, -, -, rfl⟩ | ⟨-, -, -, rfl⟩ <;>
      exact ⟨_, _, rfl, fun b hb ↦ (Option.some.inj hb).symm⟩
  obtain ⟨i, o, hby, ho, hok, h⟩ := get_fresh ℕ 0 s putThenGetTrace hrun ([98], 11211) [107] howned
    0 ⟨.put, [107], [118]⟩ ⟨.ok, []⟩ rfl (Or.inl rfl) rfl 1 1 ⟨.get, [107], []⟩
    (.remote ⟨[98], 7946⟩ (some ([98], 11211))) ⟨.ok, [118]⟩ (by decide) rfl rfl (by decide)
    ⟨putThenGetTrace.take 4, List.take_prefix _ _, by decide, by simp [putThenGetTrace]⟩
  obtain ⟨x, rfl⟩ := hok rfl
  exact ⟨s, i, x, hrun, hby, ho, h x rfl⟩

/-- A GET is processed by the peer, and then a PUT is processed and answered.  A second
GET comes in while the response to the first is on its way. -/
def staleRun : List (Action ℕ StoreMove) :=
  [.receive 0 ⟨.get, [107], []⟩, .serve 0 .accept, .receive 1 ⟨.put, [107], [118]⟩,
    .serve 1 .accept, .reply 1, .answer 1, .receive 2 ⟨.get, [107], []⟩, .reply 0,
    .collapse (.takePending 0), .collapse (.publish 0), .collapse (.return 0), .leave 0,
    .answer 0, .collapse (.awaitReady 2), .obtain 2, .answer 2]

/-- The events of that run, up to the second GET and from there on. -/
def staleTrace : List (Event ℕ StoreMove) × List (Event ℕ StoreMove) :=
  let route : Route := .remote ⟨[98], 7946⟩ (some ([98], 11211))
  ([.received 0 0 ⟨.get, [107], []⟩ route, .joined 0 [107] 0 true,
    .served 0 ([98], 11211) ⟨.get, [107], []⟩ ⟨.ok, [111]⟩,
    .received 1 1 ⟨.put, [107], [118]⟩ route,
    .served 1 ([98], 11211) ⟨.put, [107], [118]⟩ ⟨.ok, []⟩, .upstream 1 (.replied ⟨.ok, []⟩),
    .answered 1 ⟨.put, [107], [118]⟩ ⟨.ok, []⟩],
   [.received 2 2 ⟨.get, [107], []⟩ route, .joined 2 [107] 0 false,
    .upstream 0 (.replied ⟨.ok, [111]⟩), .answered 0 ⟨.get, [107], []⟩ ⟨.ok, [111]⟩,
    .answered 2 ⟨.get, [107], []⟩ ⟨.ok, [111]⟩])

/-- The second GET is answered with the value from before the PUT, though the PUT was
answered before that GET came in. -/
theorem stale_get :
    ∃ s, (machine ℕ 0 storingPeers).Run s (staleTrace.1 ++ staleTrace.2) ∧
      OwnedBy (staleTrace.1 ++ staleTrace.2) [107] ([98], 11211) ∧
      .answered 1 ⟨.put, [107], [118]⟩ ⟨.ok, []⟩ ∈ staleTrace.1 ∧
      .received 2 2 ⟨.get, [107], []⟩ (.remote ⟨[98], 7946⟩ (some ([98], 11211))) ∈
        staleTrace.2 ∧
      .answered 2 ⟨.get, [107], []⟩ ⟨.ok, [111]⟩ ∈ staleTrace.2 ∧
      ¬ Fresh (staleTrace.1 ++ staleTrace.2) ([98], 11211) [107]
        (.served 1 ([98], 11211) ⟨.put, [107], [118]⟩ ⟨.ok, []⟩) ⟨.ok, [111]⟩ := by
  have htrace : ((machine ℕ 0 storingPeers).exec (onePeer fun _ _ ↦ some [111]) staleRun).map
      Prod.snd = some (staleTrace.1 ++ staleTrace.2) := by
    decide +kernel
  obtain ⟨⟨s, tr⟩, hexec, rfl⟩ := Option.map_eq_some_iff.mp htrace
  have hstart : (machine ℕ 0 storingPeers).Run (onePeer fun _ _ ↦ some [111]) [] :=
    .init ⟨rfl, fun _ ↦ rfl, rfl⟩
  refine ⟨s, hstart.exec hexec, ?_, by decide, by decide, by decide, ?_⟩
  · intro r c req route hmem _
    simp only [staleTrace, List.cons_append, List.nil_append, List.mem_cons, List.not_mem_nil,
      or_false, reduceCtorEq, false_or, Event.received.injEq] at hmem
    rcases hmem with ⟨-, -, -, rfl⟩ | ⟨-, -, -, rfl⟩ | ⟨-, -, -, rfl⟩ <;>
      exact ⟨_, _, rfl, fun b hb ↦ (Option.some.inj hb).symm⟩
  · -- No event puts the old value at the key.
    rintro ⟨pre, e, post, value, htr, heffect, -, hresp⟩
    have hold : ∀ x ∈ staleTrace.1 ++ staleTrace.2,
        effectOn ([98], 11211) [107] x ≠ some (some [111]) := by
      decide
    obtain rfl : value = some [111] := by
      cases value with
      | none => cases hresp
      | some v =>
          cases hresp
          rfl
    exact hold e (by simp [htr]) heffect

end Coordinator

end Pensieve
