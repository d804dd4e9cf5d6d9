import Mathlib.Algebra.BigOperators.Group.List.Basic
import Mathlib.Algebra.GroupWithZero.Nat
import Mathlib.Algebra.Order.Ring.Nat
import SwiftRuntime.Loop

/-!
# The object pool

`ObjectPool` of `runtime/common/object_pool.h` places objects one after the other into the slots of
chunks, with a new chunk when the last one is full. `ReleaseContents` gives all slots back at once.
When the pool has more than its first chunk, one chunk is made that has room for the objects of all
of them, with a size that is computed from the first chunk and the number of the others.

`Filled` is the invariant behind that sum: the chunks before the last one are full, and the chunks
after the first one have the size of a new chunk. That size is the product of the constructor's
argument with the size of an object, as a `size_t`. If the product wraps to zero, a new chunk is
full from the start and the slot that is taken from it does not exist (`uses_safe_iff`).
-/

namespace SwiftRuntime.Common

/-- `ObjectPool::Chunk`, without the objects in its storage. -/
structure PoolChunk where
  /-- `used_objects`. -/
  usedObjects : ℕ
  /-- `num_objects`, the number of slots in `storage`. -/
  numObjects : ℕ
deriving DecidableEq, Repr

/-- `ObjectPool`. -/
structure ObjectPool where
  /-- `chunks`. -/
  chunks : List PoolChunk
  /-- `node`, by the index of the chunk it points to. -/
  node : ℕ
  /-- `new_chunk_size`. -/
  newChunkSize : ℕ
deriving DecidableEq, Repr

/-- A slot for an object: the chunk, and the index into its storage. -/
structure Slot where
  /-- The index of the chunk. -/
  chunk : ℕ
  /-- The index of the slot. -/
  index : ℕ
deriving DecidableEq, Repr

namespace ObjectPool

/-- The number of objects that chunks have room for. -/
def capacity (chunks : List PoolChunk) : ℕ := (chunks.map PoolChunk.numObjects).sum

section Code

variable (sizeof : ℕ)

/-- `emplace_back` on the vector of the chunks. The storage of all chunks is in one address space,
so the allocation throws if there is no room left for it. The chunks are moved together with their
storage when the vector grows. -/
def emplaceBack (pool : ObjectPool) (size : ℕ) : Option ObjectPool :=
  if (capacity pool.chunks + size) * sizeof < 2 ^ 64 then
    some { pool with chunks := pool.chunks ++ [⟨0, size⟩] }
  else none

/-- The constructor. -/
def construct (chunkSize : ℕ) : Option ObjectPool := do
  let newChunkSize := chunkSize * sizeof % 2 ^ 64
  let pool ← emplaceBack sizeof ⟨[], 0, newChunkSize⟩ newChunkSize
  return { pool with node := pool.chunks.length - 1 }

/-- `FreeChunk`. It sets `node` to the chunk that it returns. -/
def freeChunk (pool : ObjectPool) : Option ObjectPool := do
  let chunk ← pool.chunks[pool.node]?
  if chunk.usedObjects ≠ chunk.numObjects then return pool
  let pool ← emplaceBack sizeof pool pool.newChunkSize
  return { pool with node := pool.chunks.length - 1 }

/-- `Memory`: the slot that `Create` constructs its object in. -/
def memory (pool : ObjectPool) : Option (Slot × ObjectPool) := do
  let pool ← freeChunk sizeof pool
  let chunk ← pool.chunks[pool.node]?
  -- The index is not compared with the number of slots.
  return (⟨pool.node, chunk.usedObjects⟩, { pool with
    chunks := pool.chunks.set pool.node
      { chunk with usedObjects := (chunk.usedObjects + 1) % 2 ^ 64 } })

/-- `ReleaseContents`. -/
def releaseContents (pool : ObjectPool) : Option ObjectPool :=
  match pool.chunks with
  | [] => some pool
  | root :: rest => do
    let pool ←
      if root.usedObjects = root.numObjects then
        let total := (root.numObjects + pool.newChunkSize * rest.length) % 2 ^ 64
        emplaceBack sizeof { pool with chunks := [] } total
      else
        some { pool with chunks := [{ root with usedObjects := 0 }] }
    return { pool with node := 0 }

end Code

/-- The calls of a user of the pool. -/
inductive Call
  | create
  | releaseContents
deriving DecidableEq, Repr

/-- A pool in use: with the slots that `Create` has returned since the last `ReleaseContents`. -/
structure Use where
  /-- The pool. -/
  pool : ObjectPool
  /-- The slots. -/
  slots : List Slot

/-- The calls that return. -/
inductive Step (sizeof : ℕ) : Call → Use → Use → Prop
  | create {pool pool' : ObjectPool} {slots : List Slot} {slot : Slot}
      (h : memory sizeof pool = some (slot, pool')) :
    Step sizeof .create ⟨pool, slots⟩ ⟨pool', slot :: slots⟩
  | releaseContents {pool pool' : ObjectPool} {slots : List Slot}
      (h : releaseContents sizeof pool = some pool') :
    Step sizeof .releaseContents ⟨pool, slots⟩ ⟨pool', []⟩

/-- What the pool promises: the slots are different ones and inside of their chunks, `node` is the
last chunk, and the chunks before it are full. -/
structure Use.Safe (u : Use) : Prop where
  /-- The slots are different ones. -/
  nodup : u.slots.Nodup
  /-- They are inside of their chunks. -/
  inside : ∀ slot ∈ u.slots, ∃ chunk, u.pool.chunks[slot.chunk]? = some chunk ∧
    slot.index < chunk.numObjects
  /-- `node` is the last chunk. -/
  node_last : u.pool.node + 1 = u.pool.chunks.length
  /-- The chunks before it are full. -/
  full : ∀ chunk ∈ u.pool.chunks.dropLast, chunk.usedObjects = chunk.numObjects

/-- `ReleaseContents` leaves one chunk, with room for as many objects as all chunks had. -/
def Use.Releases (sizeof : ℕ) (u : Use) : Prop :=
  ∃ pool' chunk, ObjectPool.releaseContents sizeof u.pool = some pool' ∧ pool'.chunks = [chunk] ∧
    chunk.numObjects = capacity u.pool.chunks

/-- `Create` returns as long as there is room for a new chunk. -/
def Use.Creates (sizeof : ℕ) (u : Use) : Prop :=
  (capacity u.pool.chunks + u.pool.newChunkSize) * sizeof < 2 ^ 64 →
    ∃ slot pool', memory sizeof u.pool = some (slot, pool')

/-! ## The invariant -/

/-- The chunks of a pool: the last one is `node`, those before it are full, and those after the
first one have the size of a new chunk. -/
structure Filled (sizeof : ℕ) (pool : ObjectPool) (before : List PoolChunk) (last : PoolChunk) :
    Prop where
  /-- The chunks. -/
  chunks_eq : pool.chunks = before ++ [last]
  /-- `node` is the last one. -/
  node_eq : pool.node = before.length
  /-- The ones before it are full. -/
  full : ∀ chunk ∈ before, chunk.usedObjects = chunk.numObjects
  /-- No more of it is used than there is. -/
  used_le : last.usedObjects ≤ last.numObjects
  /-- The chunks after the first one have the same size. -/
  size_eq : ∀ chunk ∈ pool.chunks.tail, chunk.numObjects = pool.newChunkSize
  /-- It is not zero. -/
  size_pos : 0 < pool.newChunkSize
  /-- Neither is that of the last chunk, which may be the first one. -/
  last_pos : 0 < last.numObjects
  /-- All chunks together have a size that does not wrap. -/
  bounded : capacity pool.chunks * sizeof < 2 ^ 64

/-- A slot is used. -/
def InUse (pool : ObjectPool) (slot : Slot) : Prop :=
  ∃ chunk, pool.chunks[slot.chunk]? = some chunk ∧ slot.index < chunk.usedObjects

/-- A slot that is not used is taken from a pool, and the slots that are used stay so. -/
structure Takes (sizeof : ℕ) (pool pool' : ObjectPool) (slot : Slot) : Prop where
  /-- The pool stays filled in order. -/
  filled : ∃ before last, Filled sizeof pool' before last
  /-- The slot was not in use. -/
  fresh : ¬ InUse pool slot
  /-- Now it is. -/
  taken : InUse pool' slot
  /-- The others stay in use. -/
  kept : ∀ other, InUse pool other → InUse pool' other

variable {sizeof : ℕ} {pool pool' : ObjectPool} {before : List PoolChunk} {last : PoolChunk}
  {slot : Slot}

/-- The objects that two lists of chunks have room for. -/
@[simp]
theorem capacity_append (xs ys : List PoolChunk) :
    capacity (xs ++ ys) = capacity xs + capacity ys := by
  simp [capacity]

/-- The objects that a single chunk has room for. -/
@[simp]
theorem capacity_singleton (chunk : PoolChunk) : capacity [chunk] = chunk.numObjects := by
  simp [capacity]

/-- A new pool has one chunk. -/
theorem construct_eq (chunkSize : ℕ) :
    construct sizeof chunkSize =
      if chunkSize * sizeof % 2 ^ 64 * sizeof < 2 ^ 64 then
        some ⟨[⟨0, chunkSize * sizeof % 2 ^ 64⟩], 0, chunkSize * sizeof % 2 ^ 64⟩
      else none := by
  simp only [construct, emplaceBack, capacity, List.map_nil, List.sum_nil, Nat.zero_add]
  split_ifs <;> rfl

namespace Filled

/-- The current chunk is the last one. -/
theorem getElem?_node (h : Filled sizeof pool before last) :
    pool.chunks[pool.node]? = some last := by
  rw [h.chunks_eq, h.node_eq]
  simp

/-- The index of a slot that is used is below the number of slots. -/
theorem inside (h : Filled sizeof pool before last) (hslot : InUse pool slot) :
    ∃ chunk, pool.chunks[slot.chunk]? = some chunk ∧ slot.index < chunk.numObjects := by
  obtain ⟨chunk, hget, hlt⟩ := hslot
  refine ⟨chunk, hget, Nat.lt_of_lt_of_le hlt ?_⟩
  have hmem : chunk ∈ before ++ [last] := h.chunks_eq ▸ List.mem_of_getElem? hget
  rcases List.mem_append.mp hmem with hmem | hmem
  · exact (h.full chunk hmem).le
  · rw [List.mem_singleton.mp hmem]
    exact h.used_le

/-- The last chunk has a free slot: it is the one that is taken. -/
theorem memory_of_room (h : Filled sizeof pool before last) (hsizeof : 0 < sizeof)
    (hroom : last.usedObjects < last.numObjects) :
    memory sizeof pool = some (⟨before.length, last.usedObjects⟩,
      { pool with chunks := before ++ [{ last with usedObjects := last.usedObjects + 1 }] }) := by
  have hfree : freeChunk sizeof pool = some pool := by
    simp [freeChunk, h.getElem?_node, hroom.ne]
  have hbound : last.numObjects < 2 ^ 64 := by
    have hle : last.numObjects ≤ capacity pool.chunks := by
      rw [h.chunks_eq]
      simp
    exact Nat.lt_of_le_of_lt (hle.trans (Nat.le_mul_of_pos_right _ hsizeof)) h.bounded
  have hmod : (last.usedObjects + 1) % 2 ^ 64 = last.usedObjects + 1 := Nat.mod_eq_of_lt (by omega)
  simp only [memory, hfree, Option.bind_eq_bind, Option.bind_some, h.getElem?_node, hmod]
  simp [h.chunks_eq, h.node_eq]

/-- The last chunk is full: the slot is the first one of a new chunk. -/
theorem memory_of_full (h : Filled sizeof pool before last)
    (hfull : last.usedObjects = last.numObjects) :
    memory sizeof pool =
      if (capacity pool.chunks + pool.newChunkSize) * sizeof < 2 ^ 64 then
        some (⟨before.length + 1, 0⟩, { pool with
          chunks := pool.chunks ++ [⟨1, pool.newChunkSize⟩]
          node := before.length + 1 })
      else none := by
  have hlen : pool.chunks.length = before.length + 1 := by simp [h.chunks_eq]
  unfold memory freeChunk emplaceBack
  rw [h.getElem?_node]
  split_ifs with hroom
  · simp [hfull, hlen]
  · simp [hfull]

/-- The next slot of the last chunk is taken. -/
theorem takes_of_room (h : Filled sizeof pool before last)
    (hroom : last.usedObjects < last.numObjects) :
    Takes sizeof pool
      { pool with chunks := before ++ [{ last with usedObjects := last.usedObjects + 1 }] }
      ⟨before.length, last.usedObjects⟩ := by
  have hsize := h.size_eq
  rw [h.chunks_eq] at hsize
  -- The pool is filled as before, the slot was free and is taken, and the other slots stay in use.
  refine ⟨⟨before, { last with usedObjects := last.usedObjects + 1 }, ?_⟩, ?_, ?_, ?_⟩
  · refine ⟨rfl, h.node_eq, h.full, hroom, ?_, h.size_pos, h.last_pos, ?_⟩
    · cases before with
      | nil => simp
      | cons root before => simpa [or_imp, forall_and] using hsize
    · simpa [h.chunks_eq] using h.bounded
  · simp [InUse, h.chunks_eq]
  · simp [InUse]
  · rintro other ⟨chunk, hget, hlt⟩
    rw [h.chunks_eq] at hget
    rcases Nat.lt_or_ge other.chunk before.length with hbefore | hlast
    · refine ⟨chunk, ?_, hlt⟩
      rwa [List.getElem?_append_left hbefore] at hget ⊢
    · have hlen := (List.getElem?_eq_some_iff.mp hget).1
      have heq : other.chunk = before.length := by simp at hlen; omega
      rw [heq] at hget
      obtain rfl : last = chunk := by simpa using hget
      refine ⟨{ last with usedObjects := last.usedObjects + 1 }, ?_, Nat.lt_succ_of_lt hlt⟩
      rw [heq]
      simp

/-- The first slot of a new chunk is taken. -/
theorem takes_of_full (h : Filled sizeof pool before last)
    (hfull : last.usedObjects = last.numObjects)
    (hroom : (capacity pool.chunks + pool.newChunkSize) * sizeof < 2 ^ 64) :
    Takes sizeof pool
      { pool with chunks := pool.chunks ++ [⟨1, pool.newChunkSize⟩], node := before.length + 1 }
      ⟨before.length + 1, 0⟩ := by
  have hsize := h.size_eq
  rw [h.chunks_eq] at hsize
  -- The last chunk has become a full one before the new chunk.
  refine ⟨⟨before ++ [last], ⟨1, pool.newChunkSize⟩, ?_⟩, ?_, ?_, ?_⟩
  · refine ⟨by simp [h.chunks_eq], by simp, ?_, h.size_pos, ?_, h.size_pos, h.size_pos, ?_⟩
    · simpa [or_imp, forall_and, hfull] using h.full
    · rw [h.chunks_eq]
      cases before with
      | nil => simp
      | cons root before => simpa [or_imp, forall_and] using hsize
    · simpa using hroom
  · simp [InUse, h.chunks_eq]
  · simp [InUse, h.chunks_eq]
  · rintro other ⟨chunk, hget, hlt⟩
    refine ⟨chunk, ?_, hlt⟩
    rw [List.getElem?_append_left (List.getElem?_eq_some_iff.mp hget).1]
    exact hget

/-- What `Create` does: it keeps the invariant and takes a slot that is not used. -/
theorem memory_spec (h : Filled sizeof pool before last) (hsizeof : 0 < sizeof)
    (hmemory : memory sizeof pool = some (slot, pool')) : Takes sizeof pool pool' slot := by
  rcases Nat.lt_or_eq_of_le h.used_le with hroom | hfull
  · rw [h.memory_of_room hsizeof hroom] at hmemory
    obtain ⟨rfl, rfl⟩ := Prod.mk.inj (Option.some.inj hmemory)
    exact h.takes_of_room hroom
  · rw [h.memory_of_full hfull] at hmemory
    split_ifs at hmemory with hroom
    obtain ⟨rfl, rfl⟩ := Prod.mk.inj (Option.some.inj hmemory)
    exact h.takes_of_full hfull hroom

/-- The room of all chunks, from the first one and the number of the others. -/
theorem capacity_cons {root : PoolChunk} {rest : List PoolChunk} {size : ℕ}
    (h : ∀ chunk ∈ rest, chunk.numObjects = size) :
    capacity (root :: rest) = root.numObjects + size * rest.length := by
  have hrest : rest.map PoolChunk.numObjects = List.replicate rest.length size :=
    List.eq_replicate_iff.mpr ⟨by simp, by simpa using h⟩
  simp [capacity, hrest, Nat.mul_comm]

/-- What `ReleaseContents` does: it returns with one empty chunk that has the room of all chunks. -/
theorem releaseContents_spec (h : Filled sizeof pool before last) (hsizeof : 0 < sizeof) :
    releaseContents sizeof pool =
      some ⟨[⟨0, capacity pool.chunks⟩], 0, pool.newChunkSize⟩ := by
  -- If the first chunk is not full, it is the only one.
  obtain ⟨root, rest, hchunks, honly⟩ : ∃ root rest, pool.chunks = root :: rest ∧
      (root.usedObjects ≠ root.numObjects → rest = []) := by
    cases before with
    | nil => exact ⟨last, [], h.chunks_eq, fun _ => rfl⟩
    | cons root before =>
      exact ⟨root, before ++ [last], h.chunks_eq, fun hne =>
        absurd (h.full root List.mem_cons_self) hne⟩
  have hcap : capacity pool.chunks = root.numObjects + pool.newChunkSize * rest.length := by
    rw [hchunks]
    exact capacity_cons (by simpa [hchunks] using h.size_eq)
  have hbounded : (root.numObjects + pool.newChunkSize * rest.length) * sizeof < 2 ^ 64 := by
    rw [← hcap]
    exact h.bounded
  have hmod : (root.numObjects + pool.newChunkSize * rest.length) % 2 ^ 64 =
      root.numObjects + pool.newChunkSize * rest.length :=
    Nat.mod_eq_of_lt (Nat.lt_of_le_of_lt (Nat.le_mul_of_pos_right _ hsizeof) hbounded)
  rw [releaseContents, hchunks]
  by_cases hfull : root.usedObjects = root.numObjects
  · have hroom : (capacity [] + (root.numObjects + pool.newChunkSize * rest.length)) * sizeof <
        2 ^ 64 := by simpa [capacity] using hbounded
    simp only [hfull, if_true, hmod, emplaceBack, if_pos hroom, ← hchunks, hcap]
    rfl
  · obtain rfl := honly hfull
    simp [hfull]

/-- A new pool has one empty chunk. -/
theorem of_construct {chunkSize : ℕ} (h : construct sizeof chunkSize = some pool)
    (hsize : chunkSize * sizeof % 2 ^ 64 ≠ 0) :
    Filled sizeof pool [] ⟨0, chunkSize * sizeof % 2 ^ 64⟩ := by
  rw [construct_eq] at h
  split_ifs at h with hroom
  obtain rfl := Option.some.inj h
  have hpos : 0 < chunkSize * sizeof % 2 ^ 64 := Nat.pos_of_ne_zero hsize
  exact ⟨rfl, rfl, by simp, hpos.le, by simp, hpos, hpos, by simpa using hroom⟩

end Filled

/-! ## Runs of calls -/

/-- The invariant of a pool in use: the slots are used, and none was returned twice. -/
def Use.Inv (sizeof : ℕ) (u : Use) : Prop :=
  (∃ before last, Filled sizeof u.pool before last) ∧ u.slots.Nodup ∧
    ∀ slot ∈ u.slots, InUse u.pool slot

variable {u u' : Use} {call : Call} {calls : List Call}

/-- Each call keeps the invariant. -/
theorem Use.Inv.step (hsizeof : 0 < sizeof) (h : u.Inv sizeof) (hstep : Step sizeof call u u') :
    u'.Inv sizeof := by
  obtain ⟨⟨before, last, hfilled⟩, hnodup, hused⟩ := h
  -- A new object takes a slot that was not in use. A release leaves one empty chunk.
  cases hstep with
  | create hmemory =>
    have htakes := hfilled.memory_spec hsizeof hmemory
    refine ⟨htakes.filled, List.nodup_cons.mpr ⟨fun hmem => htakes.fresh (hused _ hmem), hnodup⟩,
      ?_⟩
    intro slot hmem
    rcases List.mem_cons.mp hmem with rfl | hmem
    · exact htakes.taken
    · exact htakes.kept slot (hused slot hmem)
  | releaseContents hrelease =>
    rw [hfilled.releaseContents_spec hsizeof] at hrelease
    obtain rfl := Option.some.inj hrelease
    refine ⟨⟨[], ⟨0, _⟩, rfl, rfl, by simp, Nat.zero_le _, by simp, hfilled.size_pos, ?_, ?_⟩,
      List.nodup_nil, by simp⟩
    · rw [hfilled.chunks_eq]
      have := hfilled.last_pos
      simp
      omega
    · simpa [capacity] using hfilled.bounded

/-- What the invariant says about the objects that are in use and about the chunks. -/
theorem Use.Inv.safe (h : u.Inv sizeof) : u.Safe := by
  obtain ⟨⟨before, last, hfilled⟩, hnodup, hused⟩ := h
  refine ⟨hnodup, fun slot hmem => hfilled.inside (hused slot hmem), ?_, ?_⟩
  · simp [hfilled.chunks_eq, hfilled.node_eq]
  · simpa [hfilled.chunks_eq] using hfilled.full

/-- `ReleaseContents` returns, and joins the chunks to one. -/
theorem Use.Inv.releases (hsizeof : 0 < sizeof) (h : u.Inv sizeof) : u.Releases sizeof := by
  obtain ⟨⟨before, last, hfilled⟩, -, -⟩ := h
  exact ⟨_, _, hfilled.releaseContents_spec hsizeof, rfl, rfl⟩

/-- `Create` returns: the current chunk has a slot left, or there is room for another chunk. -/
theorem Use.Inv.creates (hsizeof : 0 < sizeof) (h : u.Inv sizeof) : u.Creates sizeof := by
  obtain ⟨⟨before, last, hfilled⟩, -, -⟩ := h
  intro hroom
  rcases Nat.lt_or_eq_of_le hfilled.used_le with hlt | hfull
  · exact ⟨_, _, hfilled.memory_of_room hsizeof hlt⟩
  · exact ⟨_, _, by rw [hfilled.memory_of_full hfull, if_pos hroom]⟩

/-- A pool whose new chunks have no slots: the first slot that it returns is one of a chunk without
slots. -/
theorem exists_not_safe {chunkSize : ℕ} (hzero : chunkSize * sizeof % 2 ^ 64 = 0) :
    ∃ pool u, construct sizeof chunkSize = some pool ∧
      Run (Step sizeof) [.create] ⟨pool, []⟩ u ∧ ¬ u.Safe := by
  have hcreate : Step sizeof .create ⟨⟨[⟨0, 0⟩], 0, 0⟩, []⟩ ⟨⟨[⟨0, 0⟩, ⟨1, 0⟩], 1, 0⟩, [⟨1, 0⟩]⟩ :=
    .create (by simp [memory, freeChunk, emplaceBack, capacity])
  refine ⟨_, _, by rw [construct_eq, hzero]; simp, .cons hcreate (.nil _), fun hsafe => ?_⟩
  obtain ⟨chunk, hget, hlt⟩ := hsafe.inside ⟨1, 0⟩ (by simp)
  obtain rfl : ⟨1, 0⟩ = chunk := by simpa using hget
  exact absurd hlt (by simp)

/-- A pool keeps its promises through every sequence of calls, if and only if the size of a new
chunk does not wrap to zero. -/
theorem uses_safe_iff (sizeof chunkSize : ℕ) (hsizeof : 0 < sizeof) :
    (∀ pool calls u, construct sizeof chunkSize = some pool →
      Run (Step sizeof) calls ⟨pool, []⟩ u → u.Safe ∧ u.Creates sizeof ∧ u.Releases sizeof) ↔
      chunkSize * sizeof % 2 ^ 64 ≠ 0 := by
  constructor
  · intro h hzero
    obtain ⟨pool, u, hconstruct, hrun, hunsafe⟩ := exists_not_safe hzero
    exact hunsafe (h pool _ u hconstruct hrun).1
  · intro hsize pool calls u hconstruct hrun
    have hinit : Use.Inv sizeof ⟨pool, []⟩ :=
      ⟨⟨_, _, Filled.of_construct hconstruct hsize⟩, List.nodup_nil, by simp⟩
    have hinv : u.Inv sizeof :=
      hrun.invariant (Use.Inv sizeof) (fun _ _ _ _ hstep h => h.step hsizeof hstep) hinit
    exact ⟨hinv.safe, hinv.creates hsizeof, hinv.releases hsizeof⟩

/-- Pools of 64 objects of eight bytes. -/
theorem uses_safe_default :
    64 * 8 % 2 ^ 64 ≠ 0 ∧
      ∀ pool calls u, construct 8 64 = some pool → Run (Step 8) calls ⟨pool, []⟩ u →
        u.Safe ∧ u.Creates 8 ∧ u.Releases 8 := by
  have hsize : 64 * 8 % 2 ^ 64 ≠ 0 := by decide
  exact ⟨hsize, (uses_safe_iff 8 64 (by decide)).mpr hsize⟩

/-- `2^61` objects of eight bytes: the size of a new chunk is zero. -/
theorem uses_not_safe_wrapped :
    ¬ ∀ pool calls u, construct 8 (2 ^ 61) = some pool → Run (Step 8) calls ⟨pool, []⟩ u →
      u.Safe ∧ u.Creates 8 ∧ u.Releases 8 := by
  intro h
  obtain ⟨pool, u, hconstruct, hrun, hunsafe⟩ :=
    exists_not_safe (show 2 ^ 61 * 8 % 2 ^ 64 = 0 by decide)
  exact hunsafe (h pool _ u hconstruct hrun).1

end ObjectPool

end SwiftRuntime.Common
