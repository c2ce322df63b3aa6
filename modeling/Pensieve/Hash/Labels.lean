import Pensieve.Membership.RingStore
import Mathlib.Data.Nat.Digits.Defs

/-!
# Labels of virtual nodes

The label of a virtual node is the text `host:port#index`, and the host may contain anything,
separators and digits included.  The label is read from its end: the digits of a number contain
neither separator, so the last `#` and the last `:` before it are those of the format.
-/

namespace Pensieve

/-! ## Decimal numbers -/

theorem toNat_of_mem_toDigits {n : ℕ} {c : Char} (hc : c ∈ Nat.toDigits 10 n) :
    48 ≤ c.toNat ∧ c.toNat ≤ 57 := by
  have hdigit := Nat.isDigit_of_mem_toDigits (by decide) (by decide) hc
  rw [Char.isDigit, Bool.and_eq_true, decide_eq_true_iff, decide_eq_true_iff] at hdigit
  exact hdigit

/-- The number a string of digits stands for. -/
def undecimal (bs : List UInt8) : ℕ :=
  Nat.ofDigitChars 10 (bs.map fun b ↦ Char.ofNat b.toNat) 0

theorem undecimal_decimal (n : ℕ) : undecimal (decimal n) = n := by
  have hchars : (decimal n).map (fun b ↦ Char.ofNat b.toNat) = Nat.toDigits 10 n := by
    rw [decimal, List.map_map]
    refine (List.map_congr_left fun c hc ↦ ?_).trans (List.map_id _)
    have hdigit := toNat_of_mem_toDigits hc
    rw [Function.comp_apply, UInt8.toNat_ofNat', Nat.mod_eq_of_lt (by omega), Char.ofNat_toNat, id]
  rw [undecimal, hchars, Nat.ofDigitChars_toDigits (by decide) (by decide)]

theorem decimal_injective : Function.Injective decimal :=
  Function.LeftInverse.injective undecimal_decimal

theorem toNat_of_mem_decimal {n : ℕ} {b : UInt8} (hb : b ∈ decimal n) :
    48 ≤ b.toNat ∧ b.toNat ≤ 57 := by
  obtain ⟨c, hc, rfl⟩ := List.mem_map.mp hb
  have hdigit := toNat_of_mem_toDigits hc
  rw [UInt8.toNat_ofNat', Nat.mod_eq_of_lt (by omega)]
  exact hdigit

theorem colon_notMem_decimal (n : ℕ) : 58 ∉ decimal n := fun h ↦
  absurd (toNat_of_mem_decimal h).2 (by decide)

theorem hash_notMem_decimal (n : ℕ) : 35 ∉ decimal n := fun h ↦
  absurd (toNat_of_mem_decimal h).1 (by decide)

/-! ## Reading a label from its end -/

/-- What stands before and behind the last occurrence of `x` is determined. -/
theorem append_cons_inj_of_last {α : Type*} {x : α} {a b c d : List α}
    (h : a ++ x :: b = c ++ x :: d) (hb : x ∉ b) (hd : x ∉ d) : a = c ∧ b = d := by
  rcases List.append_eq_append_iff.mp h with ⟨s, rfl, hs⟩ | ⟨s, rfl, hs⟩
  · cases s with
    | nil => exact ⟨(List.append_nil a).symm, (List.cons.inj hs).2⟩
    | cons y s =>
      -- the occurrence on the right would be behind the last one on the left
      rw [(List.cons.inj hs).2] at hb
      exact absurd (List.mem_append_right s List.mem_cons_self) hb
  · cases s with
    | nil => exact ⟨List.append_nil c, (List.cons.inj hs).2.symm⟩
    | cons y s =>
      rw [(List.cons.inj hs).2] at hd
      exact absurd (List.mem_append_right s List.mem_cons_self) hd

theorem canonical_eq (node : NodeId) (i : UInt32) :
    canonical node i = (node.host ++ 58 :: decimal node.gossipPort.toNat) ++
      35 :: decimal i.toNat := by
  simp [canonical]

/-- The label determines host, port and index. -/
theorem canonical_inj {n n' : NodeId} {i i' : UInt32} :
    canonical n i = canonical n' i' ↔ n = n' ∧ i = i' := by
  constructor
  · intro h
    rw [canonical_eq, canonical_eq] at h
    obtain ⟨haddr, hindex⟩ := append_cons_inj_of_last h (hash_notMem_decimal _)
      (hash_notMem_decimal _)
    obtain ⟨hhost, hport⟩ := append_cons_inj_of_last haddr (colon_notMem_decimal _)
      (colon_notMem_decimal _)
    obtain ⟨host, port⟩ := n
    obtain ⟨host', port'⟩ := n'
    have hport' : port = port' := UInt16.toNat_inj.mp (decimal_injective hport)
    refine ⟨?_, UInt32.toNat_inj.mp (decimal_injective hindex)⟩
    rw [NodeId.mk.injEq]
    exact ⟨hhost, hport'⟩
  · rintro ⟨rfl, rfl⟩
    rfl

/-! ## Tokens -/

/-- Two different strings that MurmurHash3, with the seed of the tokens, does not tell apart. -/
def HashCollision (bs bs' : List UInt8) : Prop :=
  bs ≠ bs' ∧
    (MurmurHash3.murmurhash3_x86_32 (dataOf bs) bs.length kDefaultHashSeed []).1 =
      (MurmurHash3.murmurhash3_x86_32 (dataOf bs') bs'.length kDefaultHashSeed []).1

/-- Labels are unambiguous, so two different virtual nodes have one token exactly when their
labels are a collision of the hash. -/
theorem labels_unambiguous (n n' : NodeId) (i i' : UInt32) :
    (canonical n i = canonical n' i' ↔ n = n' ∧ i = i') ∧
      ((n, i) ≠ (n', i') ∧ hashNodeToken n i = hashNodeToken n' i' ↔
        HashCollision (canonical n i) (canonical n' i')) := by
  refine ⟨canonical_inj, ?_⟩
  have hne : (n, i) ≠ (n', i') ↔ canonical n i ≠ canonical n' i' := by
    rw [ne_eq, ne_eq, canonical_inj, Prod.mk.injEq]
  rw [hne]
  rfl

end Pensieve
