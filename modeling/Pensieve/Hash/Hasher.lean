import Pensieve.Hash.MurmurHash3
import Pensieve.Membership.NodeInfo

/-!
# Key and token hashes

`src/hash/hasher.h`: keys and virtual nodes are placed on the ring by the 32-bit
MurmurHash3 of, respectively, the key and the label `host:port#index`.
-/

namespace Pensieve

open Foundation

def kDefaultHashSeed : UInt32 := 0x5EED

/-- The memory a string's `data()` points into, relative to that pointer. -/
def dataOf (bs : List UInt8) : Memory := fun i ↦ bs.getD i 0

theorem read_dataOf (bs : List UInt8) : (dataOf bs).read 0 bs.length = bs := by
  refine List.ext_getElem? fun i ↦ ?_
  by_cases hi : i < bs.length
  · rw [Memory.getElem?_read hi, Nat.zero_add, dataOf, List.getElem?_eq_getElem hi]
    simp [hi]
  · rw [List.getElem?_eq_none (by simpa using hi), List.getElem?_eq_none (by simpa using hi)]

/-- `hash_key`. -/
def hashKey (key : List UInt8) : UInt32 :=
  (MurmurHash3.murmurhash3_x86_32 (dataOf key) key.length kDefaultHashSeed []).1

/-- The decimal digits `std::format` prints for an unsigned integer. -/
def decimal (n : ℕ) : List UInt8 := (Nat.toDigits 10 n).map fun c ↦ UInt8.ofNat c.toNat

/-- The label `host:port#index` of a virtual node. -/
def canonical (node : NodeId) (vnodeIndex : UInt32) : List UInt8 :=
  node.host ++ [58] ++ decimal node.gossipPort.toNat ++ [35] ++ decimal vnodeIndex.toNat

/-- `hash_node_token`. -/
def hashNodeToken (node : NodeId) (vnodeIndex : UInt32) : UInt32 :=
  let canonical := canonical node vnodeIndex
  (MurmurHash3.murmurhash3_x86_32 (dataOf canonical) canonical.length kDefaultHashSeed []).1

end Pensieve
