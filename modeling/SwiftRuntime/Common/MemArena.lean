import Mathlib.Algebra.Group.Nat.Defs
import Mathlib.Data.Nat.Basic
import Mathlib.Tactic.Common

/-!
# The memory arena

`MemArena` of `runtime/common/mem_arena.h` hands out byte ranges from chunks of one fixed size. It
takes a request from the newest chunk when the chunk has room, and from a fresh chunk otherwise, but
does not ask whether a fresh chunk has room for the request.

The ranges of a sequence of requests lie in the order of the requests: each one begins where the
last one ended, in the same chunk or a later one. `Bumped` is the invariant, that what is used of
the newest chunk is inside it, and `request_spec` says that a request that is not larger than a
chunk keeps it and takes a range between the ends before and after. A larger request has a range
that no chunk can hold, so `serve_safe_iff` has no other condition.
-/

namespace SwiftRuntime.Common

/-- `MemArena::Chunk`: how much of it is used, and the size of its storage. Both are `size_t`. -/
structure Chunk where
  /-- `used_size`. -/
  usedSize : ℕ
  /-- `num_size`, the size of `storage`. -/
  numSize : ℕ
deriving DecidableEq, Repr

/-- `MemArena`. Its vector of chunks is never empty, and `node` points to the last one. -/
structure MemArena where
  /-- The chunks before the last one. -/
  before : List Chunk
  /-- The last chunk. -/
  node : Chunk
  /-- `new_chunk_size`. -/
  newChunkSize : ℕ
deriving DecidableEq, Repr

/-- A request to the arena: `Create` with the size of its type, or `CreateArray` with the size of
its element type and the number of elements. -/
inductive Request
  | create (sizeof : ℕ)
  | createArray (sizeof size : ℕ)
deriving DecidableEq, Repr

/-- The bytes that the object or the array of a request occupies. -/
def Request.bytes : Request → ℕ
  | create sizeof => sizeof
  | createArray sizeof size => sizeof * size

/-- A byte range in the storage of a chunk. -/
structure Range where
  /-- The number of the chunk. -/
  chunk : ℕ
  /-- The offset of the first byte. -/
  start : ℕ
  /-- The number of bytes. -/
  bytes : ℕ
deriving DecidableEq, Repr

namespace Range

/-- A byte is in the range. -/
def Holds (r : Range) (chunk offset : ℕ) : Prop :=
  chunk = r.chunk ∧ r.start ≤ offset ∧ offset < r.start + r.bytes

/-- Two ranges have no byte in common. -/
def Apart (r r' : Range) : Prop := ∀ chunk offset, ¬ (r.Holds chunk offset ∧ r'.Holds chunk offset)

end Range

namespace MemArena

/-- The vector `chunks`. -/
def chunks (a : MemArena) : List Chunk := a.before ++ [a.node]

/-- The constructor. It makes the first chunk, whose storage is a vector of bytes, so there is no
arena with chunks of `2^63` bytes or more. -/
def construct (chunkSize : ℕ) : Option MemArena :=
  if chunkSize < 2 ^ 63 then some ⟨[], ⟨0, chunkSize⟩, chunkSize⟩ else none

/-- `FreeChunk`. The sum is a `size_t`. -/
def freeChunk (a : MemArena) (size : ℕ) : MemArena :=
  if (a.node.usedSize + size) % 2 ^ 64 ≤ a.node.numSize then a
  -- The new chunk has the size of every chunk, whatever is asked for.
  else { a with before := a.before ++ [a.node], node := ⟨0, a.newChunkSize⟩ }

/-- `Memory`: the chunk and the offset of the result, and the arena afterwards. -/
def memory (a : MemArena) (size : ℕ) : (ℕ × ℕ) × MemArena :=
  let a := a.freeChunk size
  ((a.before.length, a.node.usedSize),
    { a with node := { a.node with usedSize := (a.node.usedSize + size) % 2 ^ 64 } })

/-- `Create` and `CreateArray`. The size handed to `Memory` is a `size_t`. -/
def request (a : MemArena) (q : Request) : Range × MemArena :=
  let (place, a') := a.memory (q.bytes % 2 ^ 64)
  (⟨place.1, place.2, q.bytes⟩, a')

/-- A sequence of requests: the ranges they are given, and the arena afterwards. -/
def serve (a : MemArena) : List Request → List Range × MemArena
  | [] => ([], a)
  | q :: qs =>
    let (r, a') := a.request q
    let (rs, a'') := a'.serve qs
    (r :: rs, a'')

/-- A range lies inside the storage of its chunk. -/
def Contains (a : MemArena) (r : Range) : Prop :=
  ∃ chunk, a.chunks[r.chunk]? = some chunk ∧ r.start + r.bytes ≤ chunk.numSize

/-- The arena serves the requests safely: every range lies inside the storage of the chunk it was
taken from, and ranges of different requests have no byte in common. -/
def Safe (a : MemArena) (qs : List Request) : Prop :=
  (∀ r ∈ (a.serve qs).1, (a.serve qs).2.Contains r) ∧ (a.serve qs).1.Pairwise Range.Apart

/-! ## All chunks have one size -/

/-- Every chunk, also the next one, has `c` bytes. -/
structure Uniform (c : ℕ) (a : MemArena) : Prop where
  /-- The next chunk. -/
  next : a.newChunkSize = c
  /-- The chunks there are. -/
  sizes : ∀ chunk ∈ a.chunks, chunk.numSize = c

variable {c : ℕ} {a : MemArena} {q : Request} {qs : List Request}

/-- The chunks of a new arena have its size. -/
theorem uniform_construct (h : construct c = some a) : a.Uniform c := by
  unfold construct at h
  split_ifs at h
  cases h
  exact ⟨rfl, by simp [chunks]⟩

/-- `FreeChunk` adds a chunk of the same size, or none. -/
theorem Uniform.freeChunk (h : a.Uniform c) (size : ℕ) : (a.freeChunk size).Uniform c := by
  unfold MemArena.freeChunk
  split_ifs
  · exact h
  · refine ⟨h.next, fun chunk hchunk => ?_⟩
    simp only [chunks, List.mem_append, List.mem_singleton] at hchunk
    rcases hchunk with hold | rfl
    · exact h.sizes chunk (by simpa [chunks] using hold)
    · exact h.next

/-- A request keeps the sizes of the chunks. -/
theorem Uniform.request (h : a.Uniform c) (q : Request) : (a.request q).2.Uniform c := by
  have hfree := h.freeChunk (q.bytes % 2 ^ 64)
  have hnode := hfree.sizes _ (List.mem_append_right _ (List.mem_singleton_self _))
  refine ⟨hfree.next, fun chunk hchunk => ?_⟩
  simp only [chunks, MemArena.request, memory, List.mem_append, List.mem_singleton] at hchunk
  rcases hchunk with hold | rfl
  · exact hfree.sizes chunk (List.mem_append_left _ hold)
  · exact hnode

/-- So does a sequence of requests. -/
theorem Uniform.serve (h : a.Uniform c) (qs : List Request) : (a.serve qs).2.Uniform c := by
  induction qs generalizing a with
  | nil => exact h
  | cons q qs ih => exact ih (h.request q)

/-- In an arena of chunks of one size, a range lies inside its chunk when the chunk is there and the
range ends within that size. -/
theorem Uniform.contains_iff (h : a.Uniform c) (r : Range) :
    a.Contains r ↔ r.chunk ≤ a.before.length ∧ r.start + r.bytes ≤ c := by
  -- The chunk of the range is one of the list, and all of them have the same size.
  constructor
  · rintro ⟨chunk, hget, hle⟩
    obtain ⟨hlt, -⟩ := List.getElem?_eq_some_iff.mp hget
    rw [h.sizes chunk (List.mem_of_getElem? hget)] at hle
    refine ⟨?_, hle⟩
    simp only [chunks, List.length_append, List.length_singleton] at hlt
    omega
  · rintro ⟨hlt, hle⟩
    have hlen : r.chunk < a.chunks.length := by
      simp only [chunks, List.length_append, List.length_singleton]
      omega
    refine ⟨a.chunks[r.chunk], List.getElem?_eq_getElem hlen, ?_⟩
    rw [h.sizes _ (List.getElem_mem hlen)]
    exact hle

/-- A range is as long as its request asks. -/
theorem map_bytes_serve (a : MemArena) (qs : List Request) :
    (a.serve qs).1.map Range.bytes = qs.map Request.bytes := by
  induction qs generalizing a with
  | nil => rfl
  | cons q qs ih => exact congrArg (q.bytes :: ·) (ih (a.request q).2)

/-! ## The ranges lie one after the other -/

/-- The range begins at the end of the arena or later. -/
def After (a : MemArena) (r : Range) : Prop :=
  a.before.length < r.chunk ∨ a.before.length = r.chunk ∧ a.node.usedSize ≤ r.start

/-- The range ends at the end of the arena or earlier. -/
def Before (a : MemArena) (r : Range) : Prop :=
  r.chunk < a.before.length ∨ r.chunk = a.before.length ∧ r.start + r.bytes ≤ a.node.usedSize

/-- A range before the end of the arena and one after it have no byte in common. -/
theorem Before.apart {r r' : Range} (h : a.Before r) (h' : a.After r') : r.Apart r' := by
  rintro chunk offset ⟨⟨hc, hl, hu⟩, hc', hl', hu'⟩
  unfold Before at h
  unfold After at h'
  omega

/-- The invariant of the arena with chunks of `c` bytes: what is used of the newest chunk is inside
it. -/
structure Bumped (c : ℕ) (a : MemArena) : Prop extends a.Uniform c where
  /-- The used part. -/
  used : a.node.usedSize ≤ c
  /-- A chunk's storage is a vector of bytes. -/
  size_lt : c < 2 ^ 63

/-- A new arena has nothing in use. -/
theorem bumped_construct (h : construct c = some a) : a.Bumped c := by
  refine ⟨uniform_construct h, ?_, ?_⟩
  all_goals
    unfold construct at h
    split_ifs at h
    cases h
  · exact Nat.zero_le c
  · assumption

/-- A request that is not larger than a chunk keeps the invariant and takes a range inside a chunk,
between the end of the arena before and the end of the arena after. -/
theorem Bumped.request_spec (h : a.Bumped c) (hq : q.bytes ≤ c) :
    (a.request q).2.Bumped c ∧ (a.request q).1.start + (a.request q).1.bytes ≤ c ∧
      a.After (a.request q).1 ∧ (a.request q).2.Before (a.request q).1 ∧
      ∀ r, (a.request q).2.After r → a.After r := by
  have hlt := h.size_lt
  have hused := h.used
  have hnode : a.node.numSize = c := h.sizes _ (by simp [chunks])
  have hmod : q.bytes % 2 ^ 64 = q.bytes := Nat.mod_eq_of_lt (by omega)
  have hsum : (a.node.usedSize + q.bytes) % 2 ^ 64 = a.node.usedSize + q.bytes :=
    Nat.mod_eq_of_lt (by omega)
  have huniform := h.toUniform.request q
  by_cases hroom : a.node.usedSize + q.bytes ≤ c
  · -- The newest chunk has room.
    have hfree : a.freeChunk q.bytes = a := by
      rw [freeChunk, if_pos (by rw [hsum, hnode]; exact hroom)]
    have hreq : a.request q = (⟨a.before.length, a.node.usedSize, q.bytes⟩,
        { a with node := { a.node with usedSize := a.node.usedSize + q.bytes } }) := by
      simp only [request, memory, hmod, hfree, hsum]
    rw [hreq] at huniform ⊢
    refine ⟨⟨huniform, hroom, hlt⟩, hroom, .inr ⟨rfl, le_rfl⟩, .inr ⟨rfl, le_rfl⟩, ?_⟩
    rintro r (hr | ⟨hr, hr'⟩)
    · exact .inl hr
    · exact .inr ⟨hr, by dsimp only at hr'; omega⟩
  · -- A fresh chunk has room, because the request is not larger than a chunk.
    have hfree : a.freeChunk q.bytes =
        { a with before := a.before ++ [a.node], node := ⟨0, c⟩ } := by
      rw [freeChunk, if_neg (by rw [hsum, hnode]; exact hroom), h.next]
    have hzero : (0 + q.bytes) % 2 ^ 64 = q.bytes := by rw [Nat.zero_add, hmod]
    have hreq : a.request q = (⟨a.before.length + 1, 0, q.bytes⟩,
        { a with before := a.before ++ [a.node], node := ⟨q.bytes, c⟩ }) := by
      simp only [request, memory, hmod, hfree, hzero, List.length_append, List.length_singleton]
    rw [hreq] at huniform ⊢
    have hlen : (a.before ++ [a.node]).length = a.before.length + 1 := by simp
    refine ⟨⟨huniform, hq, hlt⟩, by dsimp only; omega, .inl (Nat.lt_succ_self _),
      .inr ⟨hlen.symm, by dsimp only; omega⟩, ?_⟩
    rintro r (hr | ⟨hr, -⟩)
    · exact .inl (by dsimp only at hr; omega)
    · exact .inl (by dsimp only at hr; omega)

/-- Requests that are not larger than a chunk are given ranges inside the chunks, all after the end
of the arena, and no two with a byte in common. -/
theorem Bumped.serve_spec (h : a.Bumped c) (hqs : ∀ q ∈ qs, q.bytes ≤ c) :
    a.before.length ≤ (a.serve qs).2.before.length ∧
      (∀ r ∈ (a.serve qs).1, a.After r ∧ r.chunk ≤ (a.serve qs).2.before.length ∧
        r.start + r.bytes ≤ c) ∧
      (a.serve qs).1.Pairwise Range.Apart := by
  induction qs generalizing a with
  | nil => simp [serve]
  | cons q qs ih =>
    obtain ⟨hbumped, hend, hafter, hbefore, hmono⟩ := h.request_spec (hqs q List.mem_cons_self)
    obtain ⟨hgrow, hrest, hapart⟩ := ih hbumped fun q' hq' => hqs q' (List.mem_cons_of_mem _ hq')
    -- The first range ends where the arena has been bumped to, and the later ones start after that.
    have hchunk : (a.request q).1.chunk ≤ (a.request q).2.before.length := by
      rcases hbefore with hb | ⟨hb, -⟩ <;> omega
    refine ⟨?_, ?_, List.pairwise_cons.mpr ⟨fun r hr => hbefore.apart (hrest r hr).1, hapart⟩⟩
    · have : a.before.length ≤ (a.request q).1.chunk := by
        rcases hafter with ha | ⟨ha, -⟩ <;> omega
      exact Nat.le_trans this (Nat.le_trans hchunk hgrow)
    · intro r hr
      rcases List.mem_cons.mp hr with rfl | hr
      · exact ⟨hafter, Nat.le_trans hchunk hgrow, hend⟩
      · obtain ⟨hra, hrest⟩ := hrest r hr
        exact ⟨hmono r hra, hrest⟩

/-- A new arena serves a sequence of requests safely if and only if no request is larger than a
chunk. -/
theorem serve_safe_iff (h : construct c = some a) (qs : List Request) :
    a.Safe qs ↔ ∀ q ∈ qs, q.bytes ≤ c := by
  have huniform := (uniform_construct h).serve qs
  constructor
  · rintro ⟨hin, -⟩ q hq
    have hbytes : q.bytes ∈ (a.serve qs).1.map Range.bytes := by
      rw [map_bytes_serve]
      exact List.mem_map_of_mem hq
    -- The range of a request is as long as the request, and a chunk holds it.
    obtain ⟨r, hr, hrq⟩ := List.mem_map.mp hbytes
    have := ((huniform.contains_iff r).mp (hin r hr)).2
    omega
  · intro hqs
    obtain ⟨-, hrange, hapart⟩ := (bumped_construct h).serve_spec hqs
    exact ⟨fun r hr => (huniform.contains_iff r).mpr (hrange r hr).2, hapart⟩

/-- An arena with chunks of 512 bytes: three requests, the last one from a second chunk. -/
theorem serve_safe_two_chunks :
    ∃ a, construct 512 = some a ∧
      a.Safe [.createArray 8 40, .create 64, .createArray 8 40] ∧
      (a.serve [.createArray 8 40, .create 64, .createArray 8 40]).1 =
        [⟨0, 0, 320⟩, ⟨0, 320, 64⟩, ⟨1, 0, 320⟩] :=
  ⟨_, rfl, (serve_safe_iff (c := 512) rfl _).mpr (by decide), rfl⟩

end MemArena

/-! ## The arena of the pools -/

/-- The chunk size that `HIRPools` gives its arena, computed in 32 bits. -/
def poolsChunkSize (funcCap : ℕ) : ℕ := funcCap * 512 % 2 ^ 32

/-- `HIRPools::CreateBlockVector`: an array of pointers to blocks. -/
def blockVector (size : ℕ) : Request := .createArray 8 size

/-- The arena of pools with the default `func_cap`: the vector of the 65 blocks of a function is
longer than its chunk. -/
theorem block_vector_out_of_bounds :
    ¬ ∀ (c : ℕ) (a : MemArena) (qs : List Request), 1 ≤ c → MemArena.construct c = some a →
      a.Safe qs := by
  intro h
  obtain ⟨hin, -⟩ := h (poolsChunkSize 1) _ [blockVector 65] (by decide) rfl
  obtain ⟨chunk, hget, hle⟩ := hin ⟨1, 0, 520⟩ (by decide)
  obtain rfl : ⟨520, 512⟩ = chunk := Option.some.inj hget
  exact absurd hle (by decide)

end SwiftRuntime.Common
