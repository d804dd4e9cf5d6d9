import SwiftRuntime.ByteMemory
import SwiftRuntime.FreeList
import SwiftRuntime.Loop

/-!
# The slab heap

`SlabHeap` and `SlabObject` of `runtime/common/slab_alloc.h`, for one thread and with `override`
set. The objects of the slab that are not handed out are linked to a list through their own first
eight bytes. `TryAllocate` takes the first one and goes to `malloc` when there is none, and
`TryFree` tells by the address where an object came from.

The slab is as large as `sizeof(T) * n` is as a `size_t`, so a product that wraps gives it fewer
objects than were asked for. `Inv` is the invariant for the number of objects that it got: each of
them is on the list or handed out, and not both.

`compare_exchange_weak` may fail for no reason. The number of times it does is an argument of the
calls.
-/

namespace SwiftRuntime.Common

/-- `SlabHeap` with its `SlabAllocator`, and the memory of the process. -/
structure Slab where
  /-- The bytes in memory. -/
  memory : ℕ → UInt8
  /-- `head`. -/
  head : ℕ
  /-- `start`. -/
  start : ℕ
  /-- `end`. -/
  stop : ℕ

/-- The allocator that an object comes from, or is returned to. -/
inductive Source
  | slab
  | malloc
deriving DecidableEq, Repr

namespace Slab

/-- `node->next`. -/
def next (s : Slab) (node : ℕ) : ℕ := loadBytes s.memory node 8

/-- The store to `node->next`. -/
def setNext (s : Slab) (node next : ℕ) : Slab :=
  { s with memory := storeBytes s.memory node 8 next }

/-- `SlabAllocator::Allocate`. An exchange that fails loads the head again, which nobody has
changed. -/
def allocate (s : Slab) : ℕ → ℕ × Slab
  | 0 => if s.head = 0 then (0, s) else (s.head, { s with head := s.next s.head })
  | fails + 1 => if s.head = 0 then (0, s) else s.allocate fails

/-- `SlabAllocator::Free`. The link is stored again after an exchange that failed. -/
def free (s : Slab) (node : ℕ) : ℕ → Slab
  | 0 => { s.setNext node s.head with head := node }
  | fails + 1 => (s.setNext node s.head).free node fails

/-- `Contains`. -/
def contains (s : Slab) (addr : ℕ) : Bool := s.start ≤ addr ∧ addr < s.stop

/-- The loop of `Initialize`, with the objects that are still to be freed. -/
def freeObjects (sizeof : ℕ) (fails : ℕ → ℕ) (s : Slab) (cur : ℕ) : ℕ → Slab
  | 0 => s
  | k + 1 =>
    let cur := cur - sizeof
    freeObjects sizeof fails (s.free cur (fails k)) cur k

/-- `Initialize`, on memory of a size. -/
def initializeMemory (sizeof : ℕ) (fails : ℕ → ℕ) (s : Slab) (memory memorySize : ℕ) : Slab :=
  let numObj := memorySize / sizeof
  let s := { s with start := memory, stop := (memory + numObj * sizeof) % 2 ^ 64 }
  freeObjects sizeof fails s s.stop numObj

/-- `InitializeSlabHeap`, on the memory that `malloc` returns. The heap is a static object, so it is
zero before. -/
def initializeSlabHeap (sizeof : ℕ) (fails : ℕ → ℕ) (bytes : ℕ → UInt8) (memory objectSize : ℕ) :
    Slab :=
  initializeMemory sizeof fails ⟨bytes, 0, 0, 0⟩ memory (sizeof * objectSize % 2 ^ 64)

/-- `TryAllocate`, with what `malloc` returns if it is called: the result, and where it comes
from. -/
def tryAllocate (s : Slab) (fails malloc : ℕ) : (ℕ × Source) × Slab :=
  let (res, s) := s.allocate fails
  if res ≠ 0 then ((res, .slab), s) else ((malloc, .malloc), s)

/-- `TryFree`: where the object is returned to. -/
def tryFree (s : Slab) (fails obj : ℕ) : Source × Slab :=
  if s.contains obj then (.slab, s.free obj fails) else (.malloc, s)

end Slab

/-- A slab in use, with the pointers that are outstanding and where they came from. -/
structure SlabUse where
  /-- The slab. -/
  slab : Slab
  /-- The pointers. -/
  outstanding : List (ℕ × Source)

/-- What `malloc` guarantees: the object is not inside of the slab and is no outstanding one. -/
structure Fresh (sizeof : ℕ) (u : SlabUse) (malloc : ℕ) : Prop where
  /-- It is not the null pointer. -/
  nonnull : malloc ≠ 0
  /-- It is outside of the slab. -/
  outside : malloc + sizeof ≤ u.slab.start ∨ u.slab.stop ≤ malloc
  /-- It is no object that is outstanding. -/
  fresh : malloc ∉ u.outstanding.map Prod.fst

/-- What the rest of the program may write to: outstanding objects, and memory outside of the
slab. -/
def Writable (sizeof : ℕ) (u : SlabUse) (a : ℕ) : Prop :=
  (∃ p ∈ u.outstanding, p.1 ≤ a ∧ a < p.1 + sizeof) ∨ a < u.slab.start ∨ u.slab.stop ≤ a

/-- The calls of a user of the slab, and its writes. -/
inductive SlabCall
  | tryAllocate (fails malloc : ℕ)
  | tryFree (fails obj : ℕ)
  | write (a : ℕ) (byte : UInt8)
deriving DecidableEq

/-- The effect of the calls. Only outstanding pointers are freed. -/
inductive SlabStep (sizeof : ℕ) : SlabCall → SlabUse → SlabUse → Prop
  | tryAllocate {u : SlabUse} {fails malloc : ℕ} {p : ℕ × Source} {s : Slab}
      (h : u.slab.tryAllocate fails malloc = (p, s))
      (hmalloc : p.2 = .malloc → Fresh sizeof u malloc) :
    SlabStep sizeof (.tryAllocate fails malloc) u ⟨s, p :: u.outstanding⟩
  -- `malloc` may return no memory.
  | outOfMemory {u : SlabUse} {fails : ℕ} {s : Slab}
      (h : u.slab.tryAllocate fails 0 = ((0, .malloc), s)) :
    SlabStep sizeof (.tryAllocate fails 0) u ⟨s, u.outstanding⟩
  | tryFree {u : SlabUse} {fails : ℕ} {p : ℕ × Source} (h : p ∈ u.outstanding) :
    SlabStep sizeof (.tryFree fails p.1) u ⟨(u.slab.tryFree fails p.1).2, u.outstanding.erase p⟩
  | write {u : SlabUse} {a : ℕ} {byte : UInt8} (h : Writable sizeof u a) :
    SlabStep sizeof (.write a byte) u
      ⟨{ u.slab with memory := Function.update u.slab.memory a byte }, u.outstanding⟩

/-- What a slab of `n` objects from `start` on promises. -/
structure Exact (sizeof n start : ℕ) (u : SlabUse) : Prop where
  /-- No pointer is outstanding twice. -/
  nodup : (u.outstanding.map Prod.fst).Nodup
  /-- The pointers of the slab are those to its objects. -/
  slots : ∀ p, (p, .slab) ∈ u.outstanding → ∃ i < n, p = start + i * sizeof
  /-- `malloc` is used exactly when all objects are outstanding. -/
  malloc_iff : ∀ fails malloc, (u.slab.tryAllocate fails malloc).1.2 = .malloc ↔
    ∀ i < n, (start + i * sizeof, .slab) ∈ u.outstanding
  /-- A pointer is returned to where it came from. -/
  returned : ∀ p ∈ u.outstanding, ∀ fails, (u.slab.tryFree fails p.1).1 = p.2

/-! ## Allocating and freeing -/

namespace Slab

variable {s : Slab} {node head : ℕ} {gs : List ℕ}

/-- A pointer, where zero is null. It is not unfolded, so that no proof evaluates the bytes of a
link. -/
@[irreducible] def ptr (a : ℕ) : Option ℕ := if a = 0 then none else some a

/-- The null pointer points to nothing. -/
theorem ptr_of_eq_zero {a : ℕ} (h : a = 0) : ptr a = none := by
  rw [ptr, if_pos h]

/-- Any other pointer points to its address. -/
theorem ptr_of_ne_zero {a : ℕ} (h : a ≠ 0) : ptr a = some a := by
  rw [ptr, if_neg h]

/-- The links of the objects. -/
def links (s : Slab) (node : ℕ) : Option ℕ := ptr (s.next node)

/-- The objects on the list of the slab. -/
def Lists (s : Slab) (gs : List ℕ) : Prop := Threaded s.links (ptr s.head) gs

/-- `Allocate` takes the head off the list, however often the exchange fails. -/
theorem allocate_eq (s : Slab) (fails : ℕ) :
    s.allocate fails =
      if s.head = 0 then (0, s) else (s.head, { s with head := s.next s.head }) := by
  induction fails with
  | zero => rfl
  | succ fails ih =>
    rw [allocate, ih]
    split_ifs <;> rfl

/-- The links do not depend on the head. -/
theorem lists_withHead (s : Slab) (head : ℕ) :
    Lists { s with head := head } gs ↔ Threaded s.links (ptr head) gs := Iff.rfl

/-- The link that has been stored is read back. -/
theorem next_setNext {next : ℕ} (h : next < 2 ^ 64) : (s.setNext node next).next node = next :=
  loadBytes_storeBytes (by simpa using h)

/-- The link of an object that the object has no byte in common with. -/
theorem next_setNext_of_apart {next other : ℕ} (h : node + 8 ≤ other ∨ other + 8 ≤ node) :
    (s.setNext node next).next other = s.next other :=
  loadBytes_storeBytes_of_apart h

/-- `Free` does not move the slab. -/
theorem free_range (s : Slab) (node fails : ℕ) :
    (s.free node fails).start = s.start ∧ (s.free node fails).stop = s.stop := by
  induction fails generalizing s with
  | zero => exact ⟨rfl, rfl⟩
  | succ fails ih => exact ih (s.setNext node s.head)

/-- An object that is freed is the first one on the list. -/
theorem Lists.free (h : s.Lists gs) (hhead : s.head < 2 ^ 64) (hnode : node ≠ 0)
    (hapart : ∀ g ∈ gs, node + 8 ≤ g ∨ g + 8 ≤ node) (fails : ℕ) :
    (s.free node fails).Lists (node :: gs) := by
  -- The link that is stored is not one of an object on the list.
  have hlists : (s.setNext node s.head).Lists gs := Threaded.congr h fun g hg => by
    rw [links, links, next_setNext_of_apart (hapart g hg)]
  induction fails generalizing s with
  | zero =>
    have hlink : (s.setNext node s.head).links node = ptr s.head := by
      rw [links, next_setNext hhead]
    rw [Slab.free, lists_withHead, ptr_of_ne_zero hnode]
    exact Threaded.push hlists hlink
  | succ fails ih =>
    refine ih hlists hhead (Threaded.congr hlists fun g hg => ?_)
    rw [links, links, next_setNext_of_apart (hapart g hg)]

/-- The head is null or an object on the list. -/
theorem Lists.head_mem (h : s.Lists gs) : s.head = 0 ∨ s.head ∈ gs := by
  by_cases hhead : s.head = 0
  · exact .inl hhead
  · rw [Lists, ptr_of_ne_zero hhead] at h
    obtain ⟨rest, rfl, -⟩ := Threaded.pop h
    exact .inr List.mem_cons_self

/-- The first object on the list is the one that is taken. -/
theorem Lists.allocate (h : s.Lists gs) (fails : ℕ) :
    (gs = [] ∧ s.allocate fails = (0, s)) ∨
      ∃ g rest, gs = g :: rest ∧ g ≠ 0 ∧
        s.allocate fails = (g, { s with head := s.next g }) ∧
        Lists { s with head := s.next g } rest := by
  rw [allocate_eq]
  by_cases hhead : s.head = 0
  · rw [Lists, ptr_of_eq_zero hhead] at h
    exact .inl ⟨h, if_pos hhead⟩
  · rw [Lists, ptr_of_ne_zero hhead] at h
    obtain ⟨rest, rfl, hrest⟩ := Threaded.pop h
    refine .inr ⟨s.head, rest, rfl, hhead, if_neg hhead, ?_⟩
    rwa [lists_withHead]

end Slab

/-! ## The invariant -/

/-- The objects of a slab of `num` objects. -/
def IsSlot (sizeof num start p : ℕ) : Prop := ∃ i < num, p = start + i * sizeof

/-- The place of a slab: an object has room for a pointer, and the slab is inside of the address
space and not at address zero. -/
structure Placed (sizeof num start : ℕ) : Prop where
  /-- An object has room for a link. -/
  pointer_le : 8 ≤ sizeof
  /-- The slab does not start at the null pointer. -/
  start_pos : 0 < start
  /-- Its end does not wrap. -/
  stop_lt : start + num * sizeof < 2 ^ 64

/-- Every object of the slab is on the list `gs` or outstanding, and not both. -/
structure Partition (sizeof num start : ℕ) (gs : List ℕ) (out : List (ℕ × Source)) : Prop where
  /-- Objects of the slab are on the list. -/
  listed : ∀ g ∈ gs, IsSlot sizeof num start g
  /-- The outstanding ones are different. -/
  nodup : (out.map Prod.fst).Nodup
  /-- Those from the slab are objects of it. -/
  slots : ∀ p, (p, .slab) ∈ out → IsSlot sizeof num start p
  /-- Those from `malloc` are outside of it. -/
  outside : ∀ p, (p, .malloc) ∈ out → p + sizeof ≤ start ∨ start + num * sizeof ≤ p
  /-- No object is on the list and outstanding. -/
  apart : ∀ g ∈ gs, g ∉ out.map Prod.fst
  /-- Every object of the slab is one or the other. -/
  covered : ∀ p, IsSlot sizeof num start p → p ∈ gs ∨ (p, .slab) ∈ out

/-- The state of a slab whose list has the objects `gs`. -/
structure SlabInv (sizeof num start : ℕ) (u : SlabUse) (gs : List ℕ) : Prop where
  /-- Where the slab starts. -/
  start_eq : u.slab.start = start
  /-- Where it ends. -/
  stop_eq : u.slab.stop = start + num * sizeof
  /-- The list. -/
  lists : u.slab.Lists gs
  /-- The objects are on the list or outstanding. -/
  partition : Partition sizeof num start gs u.outstanding

section Inv

variable {sizeof num start : ℕ} {u u' : SlabUse} {gs : List ℕ} {out : List (ℕ × Source)} {g p q : ℕ}

/-- An object is not before the slab. -/
theorem IsSlot.start_le (h : IsSlot sizeof num start p) : start ≤ p := by
  obtain ⟨i, -, rfl⟩ := h
  omega

/-- An object ends inside the slab. -/
theorem IsSlot.add_le (h : IsSlot sizeof num start p) : p + sizeof ≤ start + num * sizeof := by
  obtain ⟨i, hi, rfl⟩ := h
  have : (i + 1) * sizeof ≤ num * sizeof := Nat.mul_le_mul_right _ hi
  rw [Nat.add_mul] at this
  omega

/-- Different indices are those of different objects. -/
theorem slot_injective (hsizeof : 0 < sizeof) {i j : ℕ}
    (h : start + i * sizeof = start + j * sizeof) :
    i = j :=
  Nat.eq_of_mul_eq_mul_right hsizeof (Nat.add_left_cancel h)

/-- Two objects have no byte in common. -/
theorem IsSlot.apart (hp : IsSlot sizeof num start p) (hq : IsSlot sizeof num start q)
    (hne : p ≠ q) :
    p + sizeof ≤ q ∨ q + sizeof ≤ p := by
  obtain ⟨i, -, rfl⟩ := hp
  obtain ⟨j, -, rfl⟩ := hq
  have hlt : ∀ {i j : ℕ}, i < j → i * sizeof + sizeof ≤ j * sizeof := fun {i j} hij => by
    have : (i + 1) * sizeof ≤ j * sizeof := Nat.mul_le_mul_right _ hij
    rwa [Nat.add_mul, Nat.one_mul] at this
  rcases Nat.lt_trichotomy i j with hij | rfl | hij
  · exact .inl (by have := hlt hij; omega)
  · exact absurd rfl hne
  · exact .inr (by have := hlt hij; omega)

/-- An object of the slab that is not on the list is put on it. -/
theorem Slab.Lists.free_slot {s : Slab} (h : s.Lists gs) (hplaced : Placed sizeof num start)
    (hlisted : ∀ g ∈ gs, IsSlot sizeof num start g) (hp : IsSlot sizeof num start p) (hnot : p ∉ gs)
    (fails : ℕ) : (s.free p fails).Lists (p :: gs) := by
  have hsizeof := hplaced.pointer_le
  -- The head is null or an object of the slab, so its address can be stored.
  have hhead : s.head < 2 ^ 64 := by
    rcases h.head_mem with hzero | hmem
    · omega
    · have := (hlisted _ hmem).add_le
      have := hplaced.stop_lt
      omega
  have hp0 : p ≠ 0 := by
    have := hp.start_le
    have := hplaced.start_pos
    omega
  -- The store of the link does not touch the other objects on the list.
  refine h.free hhead hp0 (fun g hg => ?_) fails
  have := hp.apart (hlisted g hg) fun heq => hnot (heq ▸ hg)
  omega

namespace Partition

/-- An object goes from the list to the outstanding ones. -/
theorem take (h : Partition sizeof num start (g :: gs) out) (hnodup : (g :: gs).Nodup) :
    Partition sizeof num start gs ((g, .slab) :: out) := by
  constructor
  case listed => exact fun x hx => h.listed x (List.mem_cons_of_mem _ hx)
  case nodup => exact List.nodup_cons.mpr ⟨h.apart g List.mem_cons_self, h.nodup⟩
  case slots =>
    intro p hp
    rcases List.mem_cons.mp hp with heq | hp
    · rw [(Prod.mk.inj heq).1]
      exact h.listed g List.mem_cons_self
    · exact h.slots p hp
  case outside =>
    intro p hp
    rcases List.mem_cons.mp hp with heq | hp
    · exact absurd (Prod.mk.inj heq).2 (by decide)
    · exact h.outside p hp
  -- The object has left the list, where it was once.
  case apart =>
    intro x hx hmem
    rcases List.mem_cons.mp hmem with rfl | hmem
    · exact (List.nodup_cons.mp hnodup).1 hx
    · exact h.apart x (List.mem_cons_of_mem _ hx) hmem
  case covered =>
    intro p hp
    rcases h.covered p hp with hmem | hmem
    · rcases List.mem_cons.mp hmem with rfl | hmem
      · exact .inr List.mem_cons_self
      · exact .inl hmem
    · exact .inr (List.mem_cons_of_mem _ hmem)

/-- An object of `malloc` becomes an outstanding one. -/
theorem add (h : Partition sizeof num start gs out) (hsizeof : 0 < sizeof)
    (hfresh : p ∉ out.map Prod.fst) (hout : p + sizeof ≤ start ∨ start + num * sizeof ≤ p) :
    Partition sizeof num start gs ((p, .malloc) :: out) := by
  constructor
  case listed => exact h.listed
  case nodup => exact List.nodup_cons.mpr ⟨hfresh, h.nodup⟩
  case slots =>
    intro q hq
    rcases List.mem_cons.mp hq with heq | hq
    · exact absurd (Prod.mk.inj heq).2 (by decide)
    · exact h.slots q hq
  case outside =>
    intro q hq
    rcases List.mem_cons.mp hq with heq | hq
    · rw [(Prod.mk.inj heq).1]
      exact hout
    · exact h.outside q hq
  -- The objects on the list are inside of the slab, and the new one is outside.
  case apart =>
    intro g hg hmem
    rcases List.mem_cons.mp hmem with rfl | hmem
    · have := (h.listed g hg).start_le
      have := (h.listed g hg).add_le
      omega
    · exact h.apart g hg hmem
  case covered => exact fun q hq => (h.covered q hq).imp_right (List.mem_cons_of_mem _)

/-- The pointers are different ones, so a pointer that is taken out is not outstanding any more. -/
theorem not_mem_erase (h : Partition sizeof num start gs out) {p : ℕ × Source} (hp : p ∈ out) :
    p.1 ∉ (out.erase p).map Prod.fst := by
  intro hmem
  obtain ⟨q, hq, heq⟩ := List.mem_map.mp hmem
  have hnodup : out.Nodup := h.nodup.of_map
  obtain ⟨hne, hq⟩ := hnodup.mem_erase_iff.mp hq
  exact hne (List.inj_on_of_nodup_map h.nodup hq hp heq)

/-- An outstanding object of the slab goes to the list. -/
theorem giveBack (h : Partition sizeof num start gs out) (hp : (p, .slab) ∈ out) :
    Partition sizeof num start (p :: gs) (out.erase (p, .slab)) := by
  constructor
  case listed => exact List.forall_mem_cons.mpr ⟨h.slots p hp, h.listed⟩
  case nodup => exact h.nodup.sublist (List.erase_sublist.map _)
  case slots => exact fun q hq => h.slots q (List.mem_of_mem_erase hq)
  case outside => exact fun q hq => h.outside q (List.mem_of_mem_erase hq)
  -- The object was outstanding once.
  case apart =>
    refine List.forall_mem_cons.mpr ⟨h.not_mem_erase hp, fun g hg hmem => ?_⟩
    exact h.apart g hg (List.map_subset _ List.erase_subset hmem)
  case covered =>
    intro q hq
    by_cases hqp : q = p
    · exact .inl (hqp ▸ List.mem_cons_self)
    · refine (h.covered q hq).imp (List.mem_cons_of_mem _) fun hmem => ?_
      exact (List.mem_erase_of_ne fun heq => hqp (Prod.mk.inj heq).1).mpr hmem

/-- An outstanding object of `malloc` is returned. -/
theorem drop (h : Partition sizeof num start gs out) (p : ℕ) :
    Partition sizeof num start gs (out.erase (p, .malloc)) := by
  constructor
  case listed => exact h.listed
  case nodup => exact h.nodup.sublist (List.erase_sublist.map _)
  case slots => exact fun q hq => h.slots q (List.mem_of_mem_erase hq)
  case outside => exact fun q hq => h.outside q (List.mem_of_mem_erase hq)
  case apart => exact fun g hg hmem => h.apart g hg (List.map_subset _ List.erase_subset hmem)
  case covered =>
    refine fun q hq => (h.covered q hq).imp_right fun hmem => ?_
    exact (List.mem_erase_of_ne fun heq => absurd (Prod.mk.inj heq).2 (by decide)).mpr hmem

end Partition

namespace SlabInv

/-- `TryAllocate`: it takes the first object of the list, or calls `malloc` if there is none. -/
theorem tryAllocate (h : SlabInv sizeof num start u gs) (fails malloc : ℕ) :
    (gs = [] ∧ u.slab.tryAllocate fails malloc = ((malloc, .malloc), u.slab)) ∨
      ∃ g rest s, gs = g :: rest ∧ u.slab.tryAllocate fails malloc = ((g, .slab), s) ∧
        SlabInv sizeof num start ⟨s, (g, .slab) :: u.outstanding⟩ rest := by
  rcases h.lists.allocate fails with ⟨rfl, heq⟩ | ⟨g, rest, rfl, hg, heq, hrest⟩
  · exact .inl ⟨rfl, by simp [Slab.tryAllocate, heq]⟩
  · refine .inr ⟨g, rest, { u.slab with head := u.slab.next g }, rfl,
      by simp [Slab.tryAllocate, heq, hg], ?_⟩
    exact ⟨h.start_eq, h.stop_eq, hrest, h.partition.take (Threaded.nodup h.lists)⟩

/-- `TryFree` tells by the address where an outstanding pointer came from. -/
theorem contains_eq (h : SlabInv sizeof num start u gs) (hplaced : Placed sizeof num start)
    {source : Source} (hp : (p, source) ∈ u.outstanding) :
    u.slab.contains p = decide (source = .slab) := by
  have hsizeof := hplaced.pointer_le
  simp only [Slab.contains, h.start_eq, h.stop_eq]
  cases source with
  | slab =>
    have hslot := h.partition.slots p hp
    exact decide_eq_decide.mpr (iff_of_true ⟨hslot.start_le, by have := hslot.add_le; omega⟩ rfl)
  | malloc =>
    refine decide_eq_decide.mpr (iff_of_false (fun hin => ?_) (by decide))
    have := h.partition.outside p hp
    omega

/-- `TryFree` of an outstanding pointer. -/
theorem tryFree (h : SlabInv sizeof num start u gs) (hplaced : Placed sizeof num start)
    {p : ℕ × Source} (hp : p ∈ u.outstanding) (fails : ℕ) :
    ∃ gs', SlabInv sizeof num start
      ⟨(u.slab.tryFree fails p.1).2, u.outstanding.erase p⟩ gs' := by
  obtain ⟨p, source⟩ := p
  rw [Slab.tryFree, h.contains_eq hplaced hp]
  cases source with
  | slab =>
    -- The object is put on the list of the slab.
    have hnot : p ∉ gs := fun hg => h.partition.apart p hg (List.mem_map_of_mem hp)
    have hlists := h.lists.free_slot hplaced h.partition.listed (h.partition.slots p hp) hnot fails
    obtain ⟨hstart, hstop⟩ := u.slab.free_range p fails
    exact ⟨p :: gs, hstart.trans h.start_eq, hstop.trans h.stop_eq, hlists, h.partition.giveBack hp⟩
  | malloc => exact ⟨gs, h.start_eq, h.stop_eq, h.lists, h.partition.drop p⟩

/-- A write of the rest of the program does not change the links of the objects on the list. -/
theorem write (h : SlabInv sizeof num start u gs) (hplaced : Placed sizeof num start) {a : ℕ}
    (ha : Writable sizeof u a) (byte : UInt8) :
    SlabInv sizeof num start
      ⟨{ u.slab with memory := Function.update u.slab.memory a byte }, u.outstanding⟩ gs := by
  have hsizeof := hplaced.pointer_le
  refine ⟨h.start_eq, h.stop_eq, Threaded.congr h.lists fun g hg => ?_, h.partition⟩
  have hslot := h.partition.listed g hg
  have hstart := hslot.start_le
  have hstop := hslot.add_le
  -- A byte that may be written is in an outstanding object, or outside of the slab.
  have hbyte : a < g ∨ g + 8 ≤ a := by
    rcases ha with ⟨⟨p, source⟩, hp, hpa, hap⟩ | ha
    · dsimp only at hpa hap
      cases source with
      | slab =>
        have hne : p ≠ g := fun heq => h.partition.apart g hg (heq ▸ List.mem_map_of_mem hp)
        have := (h.partition.slots p hp).apart hslot hne
        omega
      | malloc =>
        have := h.partition.outside p hp
        omega
    · rw [h.start_eq, h.stop_eq] at ha
      omega
  have hnext : loadBytes (Function.update u.slab.memory a byte) g 8 = loadBytes u.slab.memory g 8 :=
    loadBytes_congr fun i hi => Function.update_of_ne (by omega) ..
  exact congrArg Slab.ptr hnext

/-- One call keeps the invariant. -/
theorem step (h : SlabInv sizeof num start u gs) (hplaced : Placed sizeof num start)
    {call : SlabCall} (hstep : SlabStep sizeof call u u') :
    ∃ gs', SlabInv sizeof num start u' gs' := by
  cases hstep with
  -- The list is empty and `malloc` has returned an object, or the first object of the list is
  -- taken.
  | @tryAllocate _ fails malloc p s heq hmalloc =>
    rcases h.tryAllocate fails malloc with ⟨hnil, heq'⟩ | ⟨g, rest, s', rfl, heq', hinv⟩
    · rw [heq] at heq'
      obtain ⟨rfl, rfl⟩ := Prod.mk.inj heq'
      have hfresh := hmalloc rfl
      have hout := hfresh.outside
      rw [h.start_eq, h.stop_eq] at hout
      have hsizeof := hplaced.pointer_le
      exact ⟨gs, h.start_eq, h.stop_eq, h.lists, h.partition.add (by omega) hfresh.fresh hout⟩
    · rw [heq] at heq'
      obtain ⟨rfl, rfl⟩ := Prod.mk.inj heq'
      exact ⟨rest, hinv⟩
  | @outOfMemory _ fails s heq =>
    rcases h.tryAllocate fails 0 with ⟨-, heq'⟩ | ⟨g, rest, s', -, heq', -⟩
    · rw [heq] at heq'
      obtain ⟨-, rfl⟩ := Prod.mk.inj heq'
      exact ⟨gs, h⟩
    · rw [heq] at heq'
      cases heq'
  | tryFree hp => exact h.tryFree hplaced hp _
  | write ha => exact ⟨gs, h.write hplaced ha _⟩

/-- The invariant gives what the slab promises. -/
theorem exact (h : SlabInv sizeof num start u gs) (hplaced : Placed sizeof num start) :
    Exact sizeof num start u := by
  refine ⟨h.partition.nodup, h.partition.slots, fun fails malloc => ?_, fun p hp fails => ?_⟩
  -- The list is empty exactly if all objects of the slab are outstanding.
  · have hempty : gs = [] ↔ ∀ i < num, (start + i * sizeof, .slab) ∈ u.outstanding := by
      constructor
      · rintro rfl i hi
        exact (h.partition.covered _ ⟨i, hi, rfl⟩).resolve_left List.not_mem_nil
      · intro hall
        refine List.eq_nil_iff_forall_not_mem.mpr fun g hg => ?_
        obtain ⟨i, hi, rfl⟩ := h.partition.listed g hg
        exact h.partition.apart _ hg (List.mem_map_of_mem (hall i hi))
    rw [← hempty]
    rcases h.tryAllocate fails malloc with ⟨hnil, heq⟩ | ⟨g, rest, s, rfl, heq, -⟩
    · simp [heq, hnil]
    · simp [heq]
  · obtain ⟨p, source⟩ := p
    rw [Slab.tryFree, h.contains_eq hplaced hp]
    cases source <;> rfl

end SlabInv

/-! ## The slab from its initialization on -/

/-- The loop of `Initialize` puts the objects on the list that are not on it, from the last one
on. -/
theorem Slab.Lists.freeObjects (hplaced : Placed sizeof num start) (fails : ℕ → ℕ) {s : Slab}
    {k : ℕ} (h : s.Lists gs) (hk : k ≤ num)
    (hgs : ∀ p, p ∈ gs ↔ ∃ i, k ≤ i ∧ i < num ∧ p = start + i * sizeof) :
    ∃ gs', (freeObjects sizeof fails s (start + k * sizeof) k).Lists gs' ∧
      ∀ p, p ∈ gs' ↔ IsSlot sizeof num start p := by
  -- The objects from `k` on are on the list; the loop puts the one before them there next.
  induction k generalizing s gs with
  | zero => exact ⟨gs, h, fun p => by simp [hgs, IsSlot]⟩
  | succ k ih =>
    have hsizeof := hplaced.pointer_le
    have hcur : start + (k + 1) * sizeof - sizeof = start + k * sizeof := by
      rw [Nat.add_mul, Nat.one_mul]
      omega
    have hnot : start + k * sizeof ∉ gs := by
      intro hmem
      obtain ⟨i, hki, -, heq⟩ := (hgs _).mp hmem
      have : k = i := slot_injective (by omega) heq
      omega
    have hlisted : ∀ g ∈ gs, IsSlot sizeof num start g := fun g hg => by
      obtain ⟨i, -, hi, heq⟩ := (hgs g).mp hg
      exact ⟨i, hi, heq⟩
    rw [Slab.freeObjects, hcur]
    refine ih (h.free_slot hplaced hlisted ⟨k, by omega, rfl⟩ hnot (fails k)) (by omega) fun p => ?_
    rw [List.mem_cons, hgs]
    constructor
    · rintro (rfl | ⟨i, hki, hi, rfl⟩)
      · exact ⟨k, le_rfl, by omega, rfl⟩
      · exact ⟨i, by omega, hi, rfl⟩
    · rintro ⟨i, hki, hi, rfl⟩
      rcases Nat.eq_or_lt_of_le hki with rfl | hlt
      · exact .inl rfl
      · exact .inr ⟨i, hlt, hi, rfl⟩

/-- The loop leaves the range of the slab alone. -/
theorem Slab.freeObjects_range (sizeof : ℕ) (fails : ℕ → ℕ) (s : Slab) (cur k : ℕ) :
    (freeObjects sizeof fails s cur k).start = s.start ∧
      (freeObjects sizeof fails s cur k).stop = s.stop := by
  induction k generalizing s cur with
  | zero => exact ⟨rfl, rfl⟩
  | succ k ih =>
    obtain ⟨hstart, hstop⟩ := s.free_range (cur - sizeof) (fails k)
    rw [Slab.freeObjects]
    exact ⟨(ih _ _).1.trans hstart, (ih _ _).2.trans hstop⟩

end Inv

section Runs

variable {sizeof n memory : ℕ} {fails : ℕ → ℕ} {bytes : ℕ → UInt8}

/-- The number of objects that a slab gets. -/
def numObjects (sizeof n : ℕ) : ℕ := sizeof * n % 2 ^ 64 / sizeof

/-- The objects fit into the memory that has been allocated. -/
theorem numObjects_mul_le (sizeof n : ℕ) : numObjects sizeof n * sizeof ≤ sizeof * n % 2 ^ 64 :=
  Nat.div_mul_le_self _ _

/-- The slab is in the memory that `malloc` returned. -/
theorem placed_of_malloc (hsizeof : 8 ≤ sizeof) (hmemory : 0 < memory)
    (hroom : memory + sizeof * n % 2 ^ 64 < 2 ^ 64) :
    Placed sizeof (numObjects sizeof n) memory := by
  have hle := numObjects_mul_le sizeof n
  exact ⟨hsizeof, hmemory, by omega⟩

/-- After `InitializeSlabHeap` all objects are on the list. -/
theorem slabInv_initializeSlabHeap (fails : ℕ → ℕ) (bytes : ℕ → UInt8)
    (hplaced : Placed sizeof (numObjects sizeof n) memory) :
    ∃ gs, SlabInv sizeof (numObjects sizeof n) memory
      ⟨Slab.initializeSlabHeap sizeof fails bytes memory n, []⟩ gs := by
  have hstop : (memory + numObjects sizeof n * sizeof) % 2 ^ 64 =
      memory + numObjects sizeof n * sizeof := Nat.mod_eq_of_lt hplaced.stop_lt
  -- The loop starts with an empty list and puts every object on it.
  have hempty : Slab.Lists ⟨bytes, 0, memory, memory + numObjects sizeof n * sizeof⟩ [] := by
    rw [Slab.Lists, Slab.ptr_of_eq_zero rfl]
    rfl
  obtain ⟨gs, hlists, hgs⟩ := hempty.freeObjects hplaced fails le_rfl fun p => by
    simp only [List.not_mem_nil, false_iff]
    rintro ⟨i, hge, hlt, -⟩
    omega
  have heq : Slab.initializeSlabHeap sizeof fails bytes memory n =
      Slab.freeObjects sizeof fails ⟨bytes, 0, memory, memory + numObjects sizeof n * sizeof⟩
        (memory + numObjects sizeof n * sizeof) (numObjects sizeof n) := by
    rw [← hstop]
    rfl
  refine ⟨gs, ?_, ?_, heq ▸ hlists, ?_⟩
  · rw [heq, (Slab.freeObjects_range ..).1]
  · rw [heq, (Slab.freeObjects_range ..).2]
  · exact ⟨fun g hg => (hgs g).mp hg, List.nodup_nil, by simp, by simp, by simp,
      fun p hp => .inl ((hgs p).mpr hp)⟩

/-- The objects on the list can all be allocated. -/
theorem SlabInv.exhaust {num start : ℕ} {u : SlabUse} {gs : List ℕ}
    (h : SlabInv sizeof num start u gs) :
    ∃ calls u', Run (SlabStep sizeof) calls u u' ∧ SlabInv sizeof num start u' [] := by
  induction gs generalizing u with
  | nil => exact ⟨[], u, .nil u, h⟩
  | cons g gs ih =>
    rcases h.tryAllocate 0 0 with ⟨hnil, -⟩ | ⟨g', rest, s, heq, hcall, hinv⟩
    · cases hnil
    · obtain ⟨-, rfl⟩ := List.cons.inj heq
      obtain ⟨calls, u', hrun, hempty⟩ := ih hinv
      exact ⟨_, u', .cons (.tryAllocate hcall (by simp)) hrun, hempty⟩

/-- If the size of the slab wraps, `malloc` is used before `n` objects are outstanding. -/
theorem exists_not_exact (hplaced : Placed sizeof (numObjects sizeof n) memory)
    (hwraps : 2 ^ 64 ≤ sizeof * n) :
    ∃ calls u, Run (SlabStep sizeof) calls
        ⟨Slab.initializeSlabHeap sizeof fails bytes memory n, []⟩ u ∧
          ¬ Exact sizeof n memory u := by
  have hsizeof := hplaced.pointer_le
  obtain ⟨gs, hinit⟩ := slabInv_initializeSlabHeap fails bytes hplaced
  obtain ⟨calls, u, hrun, hempty⟩ := hinit.exhaust
  refine ⟨calls, u, hrun, fun hexact => ?_⟩
  -- The slab has fewer objects than were asked for.
  have hfewer : numObjects sizeof n < n := by
    have hle := numObjects_mul_le sizeof n
    have hlt : numObjects sizeof n * sizeof < n * sizeof := by
      rw [Nat.mul_comm n]
      omega
    exact Nat.lt_of_mul_lt_mul_right hlt
  have hmalloc : (u.slab.tryAllocate 0 0).1.2 = .malloc := by
    rcases hempty.tryAllocate 0 0 with ⟨-, heq⟩ | ⟨g, rest, s, heq, -⟩
    · rw [heq]
    · cases heq
  have hout := (hexact.malloc_iff 0 0).mp hmalloc _ hfewer
  obtain ⟨j, hj, heq⟩ := hempty.partition.slots _ hout
  have : numObjects sizeof n = j := slot_injective (by omega) heq
  omega

/-- A slab of `n` objects keeps its promises through all sequences of calls, if and only if the size
of the slab does not wrap. -/
theorem slab_exact_iff (sizeof n memory : ℕ) (fails : ℕ → ℕ) (bytes : ℕ → UInt8)
    (hsizeof : 8 ≤ sizeof) (hmemory : 0 < memory)
    (hroom : memory + sizeof * n % 2 ^ 64 < 2 ^ 64) :
    (∀ calls u, Run (SlabStep sizeof) calls
        ⟨Slab.initializeSlabHeap sizeof fails bytes memory n, []⟩ u → Exact sizeof n memory u) ↔
      sizeof * n < 2 ^ 64 := by
  have hplaced := placed_of_malloc hsizeof hmemory hroom
  -- Where the product wraps, some objects of the slab are missing and `malloc` is called too early.
  constructor
  · intro hall
    by_contra hwraps
    obtain ⟨calls, u, hrun, hnot⟩ := exists_not_exact hplaced (Nat.le_of_not_lt hwraps)
    exact hnot (hall calls u hrun)
  · intro hfits calls u hrun
    have hnum : numObjects sizeof n = n := by
      rw [numObjects, Nat.mod_eq_of_lt hfits, Nat.mul_div_cancel_left n (by omega)]
    obtain ⟨gs, hinit⟩ := slabInv_initializeSlabHeap fails bytes hplaced
    obtain ⟨gs', hinv⟩ := hrun.invariant
      (fun u => ∃ gs, SlabInv sizeof (numObjects sizeof n) memory u gs)
      (fun _ _ _ _ hstep h => h.elim fun _ h => h.step hplaced hstep) ⟨gs, hinit⟩
    rw [hnum] at hinv hplaced
    exact hinv.exact hplaced

/-- Four objects of 24 bytes. -/
theorem slab_exact_four :
    24 * 4 < 2 ^ 64 ∧
      ∀ calls u, Run (SlabStep 24) calls
        ⟨Slab.initializeSlabHeap 24 (fun _ => 0) (fun _ => 0) 4096 4, []⟩ u →
          Exact 24 4 4096 u := by
  have hfits : 24 * 4 < 2 ^ 64 := by decide
  exact ⟨hfits,
    (slab_exact_iff 24 4 4096 (fun _ => 0) (fun _ => 0) (by decide) (by decide) (by decide)).mpr
    hfits⟩

/-- `2^61 + 1` objects of eight bytes: the slab has one object, and `malloc` is used when it is
outstanding. -/
theorem slab_not_exact_wrapped :
    ¬ ∀ calls u, Run (SlabStep 8) calls
        ⟨Slab.initializeSlabHeap 8 (fun _ => 0) (fun _ => 0) 4096 (2 ^ 61 + 1), []⟩ u →
      Exact 8 (2 ^ 61 + 1) 4096 u := by
  intro hall
  have hplaced : Placed 8 (numObjects 8 (2 ^ 61 + 1)) 4096 :=
    placed_of_malloc (by decide) (by decide) (by decide)
  obtain ⟨calls, u, hrun, hnot⟩ := exists_not_exact hplaced (by decide)
  exact hnot (hall calls u hrun)

end Runs

end SwiftRuntime.Common
