import Pensieve.Foundation.Memory

/-!
# Reading values off byte strings

A `Reader` takes a value off the front of a byte string, or fails.  `Decodes read P write`
says that it accepts exactly the encodings of the values in `P`: it returns `a` and leaves
`rest` if and only if `P a` holds and the input is `write a ++ rest`.

This one equivalence is what composes: a reader that is put together from others is
analysed by `bind_eq_some` and the equivalences of its parts.  The round trip, with or
without more bytes behind, and the refusal of every strict prefix of an encoding
(`Decodes.eq_none_of_prefix`) are read off it in the end.
-/

namespace Foundation

/-- A function that takes a value off the front of a byte string. -/
abbrev Reader (α : Type) := StateT (List UInt8) Option α

variable {α β : Type} {bs rest : List UInt8} {n w : ℕ}

namespace Reader

theorem bind_eq_some {r : Reader α} {f : α → Reader β} {b : β} :
    (r >>= f) bs = some (b, rest) ↔
      ∃ a mid, r bs = some (a, mid) ∧ f a mid = some (b, rest) := by
  refine Option.bind_eq_some_iff.trans ⟨?_, ?_⟩
  · rintro ⟨⟨a, mid⟩, hr, hf⟩
    exact ⟨a, mid, hr, hf⟩
  · rintro ⟨a, mid, hr, hf⟩
    exact ⟨(a, mid), hr, hf⟩

theorem map_eq_some {r : Reader α} {f : α → β} {b : β} :
    (f <$> r) bs = some (b, rest) ↔ ∃ a, r bs = some (a, rest) ∧ f a = b := by
  refine Option.bind_eq_some_iff.trans ⟨?_, ?_⟩
  · rintro ⟨⟨a, mid⟩, hr, heq⟩
    cases heq
    exact ⟨a, hr, rfl⟩
  · rintro ⟨a, hr, rfl⟩
    exact ⟨(a, rest), hr, rfl⟩

theorem pure_eq_some {a b : α} :
    (pure a : Reader α) bs = some (b, rest) ↔ a = b ∧ bs = rest := by
  refine Option.some_inj.trans ?_
  rw [Prod.mk.injEq]

theorem failure_eq_some {b : α} : (failure : Reader α) bs = some (b, rest) ↔ False :=
  iff_of_false (fun h ↦ nomatch h) id

/-- The next `n` bytes. -/
def take (n : ℕ) : Reader (List UInt8) :=
  fun bs ↦ if n ≤ bs.length then some (bs.take n, bs.drop n) else none

theorem take_eq_some {a : List UInt8} :
    take n bs = some (a, rest) ↔ a.length = n ∧ bs = a ++ rest := by
  rw [take]
  constructor
  · intro h
    split_ifs at h with hn
    cases h
    exact ⟨List.length_take_of_le hn, (List.take_append_drop n bs).symm⟩
  · rintro ⟨rfl, rfl⟩
    simp

/-- The next bytes of a part of memory. -/
theorem take_read (m : Memory) (p k n : ℕ) :
    take n (m.read p k) = if n ≤ k then some (m.read p n, m.read (p + n) (k - n)) else none := by
  by_cases hn : n ≤ k
  · have hread : m.read p k = m.read p n ++ m.read (p + n) (k - n) := by
      rw [← Memory.read_add, Nat.add_sub_cancel' hn]
    rw [if_pos hn, take_eq_some]
    exact ⟨Memory.length_read, hread⟩
  · rw [take, if_neg hn, if_neg]
    rwa [Memory.length_read]

/-- Nothing, if there are at least `n` more bytes. -/
def need (n : ℕ) : Reader Unit := fun bs ↦ if n ≤ bs.length then some ((), bs) else none

theorem need_eq_some {u : Unit} : need n bs = some (u, rest) ↔ n ≤ bs.length ∧ bs = rest := by
  rw [need]
  split_ifs with h <;> simp [h]

/-- `n` values, one after the other. -/
def times (r : Reader α) : ℕ → Reader (List α)
  | 0 => pure []
  | n + 1 => do
    let a ← r
    let as ← times r n
    pure (a :: as)

end Reader

/-! ## Decoding -/

/-- The reader accepts exactly the encodings of the values in `P`. -/
def Decodes (read : Reader α) (P : α → Prop) (write : α → List UInt8) : Prop :=
  ∀ bs a rest, read bs = some (a, rest) ↔ P a ∧ bs = write a ++ rest

section

variable {read : Reader α} {P : α → Prop} {write : α → List UInt8}

/-- Lists are decoded element by element. -/
theorem Decodes.times (h : Decodes read P write) (n : ℕ) :
    Decodes (read.times n) (fun as ↦ as.length = n ∧ ∀ a ∈ as, P a) (·.flatMap write) := by
  induction n with
  | zero =>
      intro bs as rest
      rw [Reader.times, Reader.pure_eq_some]
      constructor
      · rintro ⟨rfl, rfl⟩
        exact ⟨⟨rfl, fun _ ha ↦ nomatch ha⟩, rfl⟩
      · rintro ⟨⟨hlength, -⟩, rfl⟩
        rw [List.length_eq_zero_iff.mp hlength]
        exact ⟨rfl, rfl⟩
  | succ n ih =>
      intro bs as rest
      simp only [Reader.times, Reader.bind_eq_some, Reader.pure_eq_some, h _ _ _, ih _ _ _]
      constructor
      · rintro ⟨a, mid, ⟨ha, rfl⟩, as, mid, ⟨⟨rfl, has⟩, rfl⟩, rfl, rfl⟩
        exact ⟨⟨rfl, List.forall_mem_cons.mpr ⟨ha, has⟩⟩, by simp⟩
      · rintro ⟨⟨hlength, has⟩, rfl⟩
        obtain ⟨a, as, rfl⟩ := List.exists_cons_of_length_eq_add_one hlength
        obtain ⟨ha, has⟩ := List.forall_mem_cons.mp has
        exact ⟨a, _, ⟨ha, by rw [List.flatMap_cons, List.append_assoc]⟩, as, _,
          ⟨⟨Nat.succ.inj hlength, has⟩, rfl⟩, rfl, rfl⟩

/-- Nothing is read from a part of an encoding. -/
theorem Decodes.eq_none_of_prefix (h : Decodes read P write) {a : α} (ha : P a)
    (hpart : bs <+: write a) (hne : bs ≠ write a) : read bs = none := by
  obtain ⟨more, heq⟩ := hpart
  refine Option.eq_none_iff_forall_ne_some.mpr fun ⟨b, rest⟩ hread ↦ hne ?_
  obtain ⟨hb, rfl⟩ := (h bs b rest).mp hread
  -- the encoding of `a` begins with that of `b`, so that both are read from it
  have hreadb := (h (write a) b (rest ++ more)).mpr ⟨hb, by rw [← heq, List.append_assoc]⟩
  have hreada := (h (write a) a []).mpr ⟨ha, (List.append_nil _).symm⟩
  obtain ⟨rfl, hnil⟩ := Prod.mk.inj (Option.some.inj (hreadb.symm.trans hreada))
  rw [(List.append_eq_nil_iff.mp hnil).1, List.append_nil]

end

/-! ## Integers -/

theorem leNat_lt (bs : List UInt8) : leNat bs < 256 ^ bs.length := by
  induction bs with
  | nil => exact Nat.one_pos
  | cons b bs ih =>
      have := b.toNat_lt
      rw [leNat, List.length_cons, pow_succ]
      omega

theorem leBytes_leNat (bs : List UInt8) : leBytes bs.length (leNat bs) = bs := by
  induction bs with
  | nil => rfl
  | cons b bs ih =>
      have := b.toNat_lt
      have hdiv : (b.toNat + 256 * leNat bs) / 256 = leNat bs := by omega
      have hmod : UInt8.ofNat (b.toNat + 256 * leNat bs) = b := by
        apply UInt8.toNat_inj.mp
        rw [UInt8.toNat_ofNat']
        omega
      rw [List.length_cons, leNat, leBytes, hdiv, hmod, ih]

/-- The `w` low-order base-256 digits of `n`, most significant first. -/
def beBytes (w n : ℕ) : List UInt8 := (leBytes w n).reverse

/-- The number whose big-endian digits are `bs`. -/
def beNat (bs : List UInt8) : ℕ := leNat bs.reverse

@[simp] theorem length_beBytes (w n : ℕ) : (beBytes w n).length = w := by simp [beBytes]

/-- A little-endian number. -/
def Reader.le (w : ℕ) : Reader ℕ := leNat <$> Reader.take w

/-- A big-endian number. -/
def Reader.be (w : ℕ) : Reader ℕ := beNat <$> Reader.take w

theorem Reader.le_read (m : Memory) (p k w : ℕ) :
    Reader.le w (m.read p k) =
      if w ≤ k then some (leNat (m.read p w), m.read (p + w) (k - w)) else none := by
  show (Reader.take w (m.read p k)).bind (fun x ↦ some (leNat x.1, x.2)) = _
  rw [Reader.take_read]
  split_ifs <;> rfl

theorem decodes_le (w : ℕ) : Decodes (Reader.le w) (· < 256 ^ w) (leBytes w) := by
  intro bs n rest
  simp only [Reader.le, Reader.map_eq_some, Reader.take_eq_some]
  constructor
  · rintro ⟨digits, ⟨rfl, rfl⟩, rfl⟩
    exact ⟨leNat_lt digits, by rw [leBytes_leNat]⟩
  · rintro ⟨hn, rfl⟩
    exact ⟨_, ⟨length_leBytes w n, rfl⟩, by rw [leNat_leBytes, Nat.mod_eq_of_lt hn]⟩

theorem decodes_be (w : ℕ) : Decodes (Reader.be w) (· < 256 ^ w) (beBytes w) := by
  intro bs n rest
  simp only [Reader.be, Reader.map_eq_some, Reader.take_eq_some]
  constructor
  · rintro ⟨digits, ⟨rfl, rfl⟩, rfl⟩
    refine ⟨by simpa [beNat] using leNat_lt digits.reverse, ?_⟩
    have hdigits := leBytes_leNat digits.reverse
    rw [List.length_reverse] at hdigits
    rw [beBytes, beNat, hdigits, List.reverse_reverse]
  · rintro ⟨hn, rfl⟩
    refine ⟨_, ⟨length_beBytes w n, rfl⟩, ?_⟩
    rw [beNat, beBytes, List.reverse_reverse, leNat_leBytes, Nat.mod_eq_of_lt hn]

/-- Words of a machine type, given its conversions to and from numbers. -/
theorem Decodes.word {read : Reader ℕ} {write : ℕ → List UInt8}
    (h : Decodes read (· < 256 ^ w) write) {ofNat : ℕ → α} {toNat : α → ℕ}
    (hlt : ∀ v, toNat v < 256 ^ w) (hof : ∀ v, ofNat (toNat v) = v)
    (hto : ∀ n < 256 ^ w, toNat (ofNat n) = n) :
    Decodes (ofNat <$> read) (fun _ ↦ True) fun v ↦ write (toNat v) := by
  intro bs v rest
  simp only [Reader.map_eq_some, h _ _ _, true_and]
  constructor
  · rintro ⟨n, ⟨hn, rfl⟩, rfl⟩
    rw [hto n hn]
  · rintro rfl
    exact ⟨toNat v, ⟨hlt v, rfl⟩, hof v⟩

end Foundation
