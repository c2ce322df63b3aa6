import Pensieve.Hash.Hasher
import Pensieve.Storage.ClockEvictor
import Pensieve.Storage.SlabAllocator

/-!
# The local store

`src/storage/local_store.cpp`: a sharded map from keys to slab entries over one
shared slab allocator.  A key lives in the shard its hash selects; the shard's
map points at the entry, and the shard's evictor tracks it.

The store is modelled down to the bytes of the arena: `put` lays the entry out in
the slot it was given, and `get`, the eviction sweep and every free read sizes,
keys, values and access bits back from there.

`n + 1` is the number of shards, so that `shardFor` is total.  The mutexes do not
appear here: this file is the code of one call running alone.  The interleaving
of calls is the subject of `Pensieve.Storage.Interleaving`, which runs the same
pieces.
-/

namespace Pensieve

open Foundation

/-- A shard: its map and its evictor. -/
structure Shard where
  map : AList fun _ : Bytes ↦ ℕ
  evictor : ClockEvictor

/-- The store.  `mem` holds the bytes of the allocator's arena. -/
structure LocalStore (n : ℕ) where
  allocator : SlabAllocator
  mem : Memory
  shards : Fin (n + 1) → Shard

/-- The three calls. -/
inductive Op where
  | put (key value : Bytes)
  | get (key : Bytes)
  | del (key : Bytes)
deriving DecidableEq, Repr

/-- What a call returns. -/
inductive Ret where
  | put (ok : Bool)
  | get (value : Option Bytes)
  | del (ok : Bool)
deriving DecidableEq, Repr

def Op.key : Op → Bytes
  | .put k _ | .get k | .del k => k

namespace LocalStore

variable {n : ℕ}

def kMaxEvictAttempts : ℕ := 8

/-- The store over a mapped arena; fresh mappings are zero. -/
def init (arena : Arena) (n : ℕ) : LocalStore n :=
  { allocator := SlabAllocator.init arena
    mem := fun _ ↦ 0
    shards := fun _ ↦ { map := ∅, evictor := ClockEvictor.empty } }

/-- The constructor, which fails as the arena's does. -/
def new (mmap : ℕ → Bool → Except String Unit) (totalMemory n : ℕ) :
    Except ArenaError (LocalStore n) := do
  let arena ← Arena.new mmap totalMemory
  return init arena n

/-- `shard_for`. -/
def shardFor (n : ℕ) (key : Bytes) : Fin (n + 1) :=
  ⟨(hashKey key).toNat % (n + 1), Nat.mod_lt _ n.succ_pos⟩

/-! ## The pieces of a call

Each of these is one statement of `put`, `get` or `del`, acting on the shard that
the call has locked. -/

/-- Replace one shard. -/
def setShard (s : LocalStore n) (i : Fin (n + 1)) (sh : Shard) : LocalStore n :=
  { s with shards := Function.update s.shards i sh }

/-- `shard.evictor.untrack(p)`. -/
def untrack (s : LocalStore n) (i : Fin (n + 1)) (p : ℕ) : LocalStore n :=
  s.setShard i { s.shards i with evictor := (s.shards i).evictor.untrack p }

/-- `shard.map.erase(key)`. -/
def eraseKey (s : LocalStore n) (i : Fin (n + 1)) (key : Bytes) : LocalStore n :=
  s.setShard i { s.shards i with map := (s.shards i).map.erase key }

/-- `allocator_.deallocate(p, size)`. -/
def deallocate (s : LocalStore n) (p size : ℕ) : LocalStore n :=
  { s with allocator := s.allocator.deallocate (some p) size }

/-- `allocator_.allocate(size)`. -/
def allocate (s : LocalStore n) (size : ℕ) : Option ℕ × LocalStore n :=
  let (ptr, a) := s.allocator.allocate size
  (ptr, { s with allocator := a })

/-- `shard.evictor.evict_one()`. -/
def evictOne (s : LocalStore n) (i : Fin (n + 1)) : Option ℕ × LocalStore n :=
  let (victim, m, e) := (s.shards i).evictor.evictOne s.mem
  (victim, { s with mem := m }.setShard i { s.shards i with evictor := e })

/-- `init_at`, `shard.map.emplace` and `shard.evictor.track`.  `emplace` leaves an
existing binding alone. -/
def storeEntry (s : LocalStore n) (i : Fin (n + 1)) (p : ℕ) (key value : Bytes) :
    LocalStore n :=
  let sh := s.shards i
  { s with mem := SlabEntry.initAt s.mem p key value }.setShard i
    { map := if key ∈ sh.map then sh.map else sh.map.insert key p
      evictor := sh.evictor.track p }

/-! ## The calls -/

/-- `get`. -/
def get (s : LocalStore n) (key : Bytes) : Option Bytes × LocalStore n :=
  let i := shardFor n key
  match (s.shards i).map.lookup key with
  | none => (none, s)
  | some entry =>
    let s := { s with mem := SlabEntry.setAccessBit s.mem entry 1 }
    (some (SlabEntry.value s.mem entry), s)

/-- The allocation loop of `put`; the second argument counts the attempts left. -/
def allocLoop (i : Fin (n + 1)) (allocSize : ℕ) : ℕ → LocalStore n → Option ℕ × LocalStore n
  | 0, s => (none, s)
  | attempts + 1, s =>
    match s.allocate allocSize with
    | (some ptr, s) => (some ptr, s)
    | (none, s) =>
      match s.evictOne i with
      | (none, s) => (none, s)
      | (some victim, s) =>
        let victimSize := SlabEntry.storedSize s.mem victim
        let s := s.eraseKey i (SlabEntry.key s.mem victim)
        let s := s.deallocate victim victimSize
        allocLoop i allocSize attempts s

/-- The first part of `put`: an existing entry is untracked, freed and erased. -/
def dropOld (s : LocalStore n) (i : Fin (n + 1)) (key : Bytes) : LocalStore n :=
  match (s.shards i).map.lookup key with
  | none => s
  | some old =>
    let oldSize := SlabEntry.storedSize s.mem old
    let s := s.untrack i old
    let s := s.deallocate old oldSize
    s.eraseKey i key

/-- `put`. -/
def put (s : LocalStore n) (key value : Bytes) : Bool × LocalStore n :=
  let allocSize := SlabEntry.requiredSize key.length value.length
  let i := shardFor n key
  let s := s.dropOld i key
  match allocLoop i allocSize (kMaxEvictAttempts + 1) s with
  | (none, s) => (false, s)
  | (some ptr, s) => (true, s.storeEntry i ptr key value)

/-- `del`. -/
def del (s : LocalStore n) (key : Bytes) : Bool × LocalStore n :=
  let i := shardFor n key
  match (s.shards i).map.lookup key with
  | none => (false, s)
  | some entry =>
    let entrySize := SlabEntry.storedSize s.mem entry
    let s := s.untrack i entry
    let s := s.deallocate entry entrySize
    (true, s.eraseKey i key)

/-- `size`: the sum of the shards' map sizes. -/
def size (s : LocalStore n) : ℕ := ∑ i, (s.shards i).map.entries.length

/-- `memory_used`. -/
def memoryUsed (s : LocalStore n) : ℕ := s.allocator.pagesUsed * kPageSize

/-- One call, with what it returned. -/
def exec (s : LocalStore n) : Op → Ret × LocalStore n
  | .put k v => let (ok, s) := s.put k v; (.put ok, s)
  | .get k => let (v, s) := s.get k; (.get v, s)
  | .del k => let (ok, s) := s.del k; (.del ok, s)

/-- A sequence of calls, with the history of what each returned. -/
def run (s : LocalStore n) : List Op → List (Op × Ret) × LocalStore n
  | [] => ([], s)
  | op :: ops =>
    let (r, s) := s.exec op
    let (hist, s) := s.run ops
    ((op, r) :: hist, s)

/-! ## Projections of the pieces -/

@[simp] theorem setShard_mem (s : LocalStore n) (i : Fin (n + 1)) (sh : Shard) :
    (s.setShard i sh).mem = s.mem := rfl

@[simp] theorem setShard_shards (s : LocalStore n) (i : Fin (n + 1)) (sh : Shard) :
    (s.setShard i sh).shards = Function.update s.shards i sh := rfl

@[simp] theorem untrack_allocator (s : LocalStore n) (i : Fin (n + 1)) (p : ℕ) :
    (s.untrack i p).allocator = s.allocator := rfl

@[simp] theorem untrack_mem (s : LocalStore n) (i : Fin (n + 1)) (p : ℕ) :
    (s.untrack i p).mem = s.mem := rfl

@[simp] theorem eraseKey_allocator (s : LocalStore n) (i : Fin (n + 1)) (k : Bytes) :
    (s.eraseKey i k).allocator = s.allocator := rfl

@[simp] theorem eraseKey_mem (s : LocalStore n) (i : Fin (n + 1)) (k : Bytes) :
    (s.eraseKey i k).mem = s.mem := rfl

@[simp] theorem deallocate_mem (s : LocalStore n) (p size : ℕ) :
    (s.deallocate p size).mem = s.mem := rfl

@[simp] theorem deallocate_shards (s : LocalStore n) (p size : ℕ) :
    (s.deallocate p size).shards = s.shards := rfl

end LocalStore

end Pensieve
