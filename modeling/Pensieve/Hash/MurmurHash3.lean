import Pensieve.Foundation.Memory

/-!
# MurmurHash3

`src/hash/murmurhash3.cpp`.  The functions take a pointer to the key and its
length and read the key byte by byte.  The key is modelled by the memory it
points into, with addresses relative to the pointer, and each function runs in
`Read`, which records the offsets it reads.

Words are assembled from bytes in little-endian order, as `memcpy` into an
integer does on the targeted hosts.
-/

namespace Pensieve

open Foundation

/-- Computations that read key bytes; the state lists the offsets read so far. -/
abbrev Read := StateM (List ℕ)

namespace MurmurHash3

/-- Read one byte of the key. -/
def readByte (key : Memory) (off : ℕ) : Read UInt8 := fun log ↦ (key off, log ++ [off])

def rotl32 (x : UInt32) (r : UInt32) : UInt32 := (x <<< r) ||| (x >>> (32 - r))

def fmix32 (h : UInt32) : UInt32 :=
  let h := h ^^^ (h >>> 16)
  let h := h * 0x85ebca6b
  let h := h ^^^ (h >>> 13)
  let h := h * 0xc2b2ae35
  h ^^^ (h >>> 16)

/-- `getblock32`: the `i`-th 32-bit word from byte offset `base` on. -/
def getblock32 (key : Memory) (base i : ℕ) : Read UInt32 := do
  let b₀ ← readByte key (base + 4 * i)
  let b₁ ← readByte key (base + 4 * i + 1)
  let b₂ ← readByte key (base + 4 * i + 2)
  let b₃ ← readByte key (base + 4 * i + 3)
  return b₀.toUInt32 ||| (b₁.toUInt32 <<< 8) ||| (b₂.toUInt32 <<< 16) ||| (b₃.toUInt32 <<< 24)

namespace X86

def c1 : UInt32 := 0xcc9e2d51
def c2 : UInt32 := 0x1b873593

/-- The scrambling of one word. -/
def mixWord (k1 : UInt32) : UInt32 := rotl32 (k1 * c1) 15 * c2

/-- The block loop: `n` blocks are left, and `i` is the next one. -/
def blockLoop (key : Memory) : ℕ → ℕ → UInt32 → Read UInt32
  | 0, _, h1 => return h1
  | n + 1, i, h1 => do
    let k1 ← getblock32 key 0 i
    let h1 := h1 ^^^ mixWord k1
    let h1 := rotl32 h1 13
    blockLoop key n (i + 1) (h1 * 5 + 0xe6546b64)

/-- The fall-through `switch (len & 3)` over the tail bytes. -/
def tail (key : Memory) (len : ℕ) (h1 : UInt32) : Read UInt32 := do
  let tail := len / 4 * 4
  let rem := len % 4
  let k1 : UInt32 := 0
  let k1 ← if rem = 3 then do
      let b ← readByte key (tail + 2)
      pure (k1 ^^^ (b.toUInt32 <<< 16))
    else pure k1
  let k1 ← if rem = 3 ∨ rem = 2 then do
      let b ← readByte key (tail + 1)
      pure (k1 ^^^ (b.toUInt32 <<< 8))
    else pure k1
  if rem = 3 ∨ rem = 2 ∨ rem = 1 then do
    let b ← readByte key tail
    return h1 ^^^ mixWord (k1 ^^^ b.toUInt32)
  else return h1

end X86

/-- `murmurhash3_x86_32`. -/
def murmurhash3_x86_32 (key : Memory) (len : ℕ) (seed : UInt32) : Read UInt32 := do
  let h1 ← X86.blockLoop key (len / 4) 0 seed
  let h1 ← X86.tail key len h1
  return fmix32 (h1 ^^^ UInt32.ofNat len)

/-! ## The 128-bit variants -/

def rotl64 (x : UInt64) (r : UInt64) : UInt64 := (x <<< r) ||| (x >>> (64 - r))

def fmix64 (k : UInt64) : UInt64 :=
  let k := k ^^^ (k >>> 33)
  let k := k * 0xff51afd7ed558ccd
  let k := k ^^^ (k >>> 33)
  let k := k * 0xc4ceb9fe1a85ec53
  k ^^^ (k >>> 33)

/-- `getblock64`: the `i`-th 64-bit word from byte offset `base` on. -/
def getblock64 (key : Memory) (base i : ℕ) : Read UInt64 := do
  let lo ← getblock32 key base (2 * i)
  let hi ← getblock32 key base (2 * i + 1)
  return lo.toUInt64 ||| (hi.toUInt64 <<< 32)

/-- The loop of `tail_word32` and `tail_word64`: `n` bytes are left, `start + i` is the next one,
and `absorb` adds a byte to the word. -/
def tailLoop {W : Type} (absorb : W → ℕ → UInt8 → W) (key : Memory) (tail start : ℕ) :
    ℕ → ℕ → W → Read W
  | 0, _, k => return k
  | n + 1, i, k => do
    let b ← readByte key (tail + (start + i))
    tailLoop absorb key tail start n (i + 1) (absorb k i b)

/-- `tail_word32`. -/
def tailWord32 (key : Memory) (tail start count : ℕ) : Read UInt32 :=
  tailLoop (fun k i b ↦ k ^^^ (b.toUInt32 <<< UInt32.ofNat (i * 8))) key tail start count 0 0

/-- `tail_word64`. -/
def tailWord64 (key : Memory) (tail start count : ℕ) : Read UInt64 :=
  tailLoop (fun k i b ↦ k ^^^ (b.toUInt64 <<< UInt64.ofNat (i * 8))) key tail start count 0 0

namespace X86x128

/-- The four words of the hash state, and of the result. -/
structure Lanes where
  h1 : UInt32
  h2 : UInt32
  h3 : UInt32
  h4 : UInt32
deriving DecidableEq

def c1 : UInt32 := 0x239b961b
def c2 : UInt32 := 0xab0e9789
def c3 : UInt32 := 0x38b34ae5
def c4 : UInt32 := 0xa1e38b93

def mixWord1 (k1 : UInt32) : UInt32 := rotl32 (k1 * c1) 15 * c2
def mixWord2 (k2 : UInt32) : UInt32 := rotl32 (k2 * c2) 16 * c3
def mixWord3 (k3 : UInt32) : UInt32 := rotl32 (k3 * c3) 17 * c4
def mixWord4 (k4 : UInt32) : UInt32 := rotl32 (k4 * c4) 18 * c1

/-- One pass of the block loop's body over the four words it has read. -/
def mixBlock (h : Lanes) (k1 k2 k3 k4 : UInt32) : Lanes :=
  let h1 := (rotl32 (h.h1 ^^^ mixWord1 k1) 19 + h.h2) * 5 + 0x561ccd1b
  let h2 := (rotl32 (h.h2 ^^^ mixWord2 k2) 17 + h.h3) * 5 + 0x0bcaa747
  let h3 := (rotl32 (h.h3 ^^^ mixWord3 k3) 15 + h.h4) * 5 + 0x96cd1c35
  -- `h1` has its new value here
  let h4 := (rotl32 (h.h4 ^^^ mixWord4 k4) 13 + h1) * 5 + 0x32ac3b17
  ⟨h1, h2, h3, h4⟩

/-- The block loop over the words from byte offset `blocks` on. -/
def blockLoop (key : Memory) (blocks : ℕ) : ℕ → ℕ → Lanes → Read Lanes
  | 0, _, h => return h
  | n + 1, i, h => do
    let k1 ← getblock32 key blocks (i * 4)
    let k2 ← getblock32 key blocks (i * 4 + 1)
    let k3 ← getblock32 key blocks (i * 4 + 2)
    let k4 ← getblock32 key blocks (i * 4 + 3)
    blockLoop key blocks n (i + 1) (mixBlock h k1 k2 k3 k4)

/-- The four conditional tail words, the last one first. -/
def tail (key : Memory) (len : ℕ) (h : Lanes) : Read Lanes := do
  let tail := len / 16 * 16
  let rem := len % 16
  let h ← (if rem > 12 then do
      let k4 ← tailWord32 key tail 12 (rem - 12)
      pure { h with h4 := h.h4 ^^^ mixWord4 k4 }
    else pure h)
  let h ← (if rem > 8 then do
      let k3 ← tailWord32 key tail 8 (min rem 12 - 8)
      pure { h with h3 := h.h3 ^^^ mixWord3 k3 }
    else pure h)
  let h ← (if rem > 4 then do
      let k2 ← tailWord32 key tail 4 (min rem 8 - 4)
      pure { h with h2 := h.h2 ^^^ mixWord2 k2 }
    else pure h)
  if rem > 0 then do
    let k1 ← tailWord32 key tail 0 (min rem 4)
    return { h with h1 := h.h1 ^^^ mixWord1 k1 }
  else return h

/-- The additions that mix the four words, before and after `fmix32`. -/
def addLanes (h : Lanes) : Lanes :=
  let h1 := h.h1 + h.h2 + h.h3 + h.h4
  ⟨h1, h.h2 + h1, h.h3 + h1, h.h4 + h1⟩

end X86x128

/-- `murmurhash3_x86_128`.  `blocks` points behind the last whole block, and the loop counts up
from there. -/
def murmurhash3_x86_128 (key : Memory) (len : ℕ) (seed : UInt32) : Read X86x128.Lanes := do
  let h ← X86x128.blockLoop key (len / 16 * 16) (len / 16) 0 ⟨seed, seed, seed, seed⟩
  let h ← X86x128.tail key len h
  let n := UInt32.ofNat len
  let h := X86x128.addLanes ⟨h.h1 ^^^ n, h.h2 ^^^ n, h.h3 ^^^ n, h.h4 ^^^ n⟩
  return X86x128.addLanes ⟨fmix32 h.h1, fmix32 h.h2, fmix32 h.h3, fmix32 h.h4⟩

namespace X64x128

/-- The two words of the hash state, and of the result. -/
structure Lanes where
  h1 : UInt64
  h2 : UInt64
deriving DecidableEq

def c1 : UInt64 := 0x87c37b91114253d5
def c2 : UInt64 := 0x4cf5ad432745937f

def mixWord1 (k1 : UInt64) : UInt64 := rotl64 (k1 * c1) 31 * c2
def mixWord2 (k2 : UInt64) : UInt64 := rotl64 (k2 * c2) 33 * c1

/-- One pass of the block loop's body over the two words it has read. -/
def mixBlock (h : Lanes) (k1 k2 : UInt64) : Lanes :=
  let h1 := (rotl64 (h.h1 ^^^ mixWord1 k1) 27 + h.h2) * 5 + 0x52dce729
  let h2 := (rotl64 (h.h2 ^^^ mixWord2 k2) 31 + h1) * 5 + 0x38495ab5
  ⟨h1, h2⟩

/-- The block loop. -/
def blockLoop (key : Memory) : ℕ → ℕ → Lanes → Read Lanes
  | 0, _, h => return h
  | n + 1, i, h => do
    let k1 ← getblock64 key 0 (i * 2)
    let k2 ← getblock64 key 0 (i * 2 + 1)
    blockLoop key n (i + 1) (mixBlock h k1 k2)

/-- The two conditional tail words, the second one first. -/
def tail (key : Memory) (len : ℕ) (h : Lanes) : Read Lanes := do
  let tail := len / 16 * 16
  let rem := len % 16
  let h ← (if rem > 8 then do
      let k2 ← tailWord64 key tail 8 (rem - 8)
      pure { h with h2 := h.h2 ^^^ mixWord2 k2 }
    else pure h)
  if rem > 0 then do
    let k1 ← tailWord64 key tail 0 (min rem 8)
    return { h with h1 := h.h1 ^^^ mixWord1 k1 }
  else return h

/-- The additions that mix the two words, before and after `fmix64`. -/
def addLanes (h : Lanes) : Lanes :=
  let h1 := h.h1 + h.h2
  ⟨h1, h.h2 + h1⟩

end X64x128

/-- `murmurhash3_x64_128`. -/
def murmurhash3_x64_128 (key : Memory) (len : ℕ) (seed : UInt32) : Read X64x128.Lanes := do
  let h ← X64x128.blockLoop key (len / 16) 0 ⟨seed.toUInt64, seed.toUInt64⟩
  let h ← X64x128.tail key len h
  let n := UInt64.ofNat len
  let h := X64x128.addLanes ⟨h.h1 ^^^ n, h.h2 ^^^ n⟩
  return X64x128.addLanes ⟨fmix64 h.h1, fmix64 h.h2⟩

end MurmurHash3

end Pensieve
