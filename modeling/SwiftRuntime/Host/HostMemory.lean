import Mathlib.Algebra.Group.Nat.Defs
import Mathlib.Data.Nat.Bitwise
import Mathlib.Tactic.Common

/-!
# Host memory and its window

`HostMemory` of `host/host_memory.h` reserves address space through an `Impl` and gives out a window
of it: the base of the window is the first multiple of the huge page size from one huge page into
the reservation on. Its operations check their arguments with `ASSERT`, shift virtual offsets by the
distance of the window from the reservation, and hand the call to the `Impl`.

All numbers are `size_t` and all sums are sums of 64-bit words, as in the source. The window is
where it should be (`window_spec`) as long as the size of the reservation does not wrap, and a call
stays in it as long as the sums that the `ASSERT`s compare do not (`callInside_iff`). A wrapped sum
passes the checks and leaves the window (`calls_inside_iff`).
-/

namespace SwiftRuntime.Host

/-- `HugePageSize`. -/
def hugePageSize : UInt64 := 0x200000

/-- `AlignUp` of `base/alignment.h`. -/
def alignUp (value size : UInt64) : UInt64 :=
  let mod := value % size
  let value := value - mod
  if mod = 0 then value else value + size

/-- What `HostMemory` knows of its `Impl`: the sizes it was constructed with, and the address of the
reservation. -/
structure Impl where
  /-- `backing_size`. -/
  backingSize : UInt64
  /-- `virtual_size`, the size of the reservation. -/
  virtualSize : UInt64
  /-- `virtual_base`, the address of the reservation. -/
  virtualBase : UInt64
deriving DecidableEq, Repr

/-- `HostMemory`. The page size of the system, `PageAlignment`, is a constant of the source. -/
structure HostMemory where
  /-- `PageAlignment`. -/
  pageAlignment : UInt64
  /-- `backing_size`. -/
  backingSize : UInt64
  /-- `virtual_size`. -/
  virtualSize : UInt64
  /-- `impl`, absent when it could not be constructed. -/
  impl : Option Impl
  /-- `virtual_base`, zero for the null pointer. -/
  virtualBase : UInt64
  /-- `virtual_base_offset`. -/
  virtualBaseOffset : UInt64
deriving DecidableEq, Repr

/-- What the operations of `HostMemory` hand to the `Impl`. -/
inductive ImplCall
  | map (virtualOffset hostOffset length : UInt64)
  | unmap (virtualOffset length : UInt64)
  | free (hostOffset length : UInt64)
  | protect (virtualOffset length : UInt64) (read write exec : Bool)
deriving DecidableEq, Repr

namespace HostMemory

/-- The base of the window in a reservation: from the last byte of its second huge page down to a
multiple of the huge page size. -/
def windowBase (base : UInt64) : UInt64 :=
  let virtualBase := base + (2 * hugePageSize - 1)
  virtualBase - (virtualBase &&& (hugePageSize - 1))

/-- The size of the reservation for a virtual size. -/
def reservedSize (pageAlignment virtualSize : UInt64) : UInt64 :=
  alignUp virtualSize pageAlignment + 3 * hugePageSize

/-- `HostMemory(int, size_t, size_t)`, behind `CreateForUser`. The last argument is the address of
the reservation, absent when the `Impl` throws. -/
def createForUser (pageAlignment backingSize virtualSize : UInt64) :
    Option UInt64 → HostMemory
  | none => ⟨pageAlignment, backingSize, virtualSize, none, 0, 0⟩
  | some base =>
    let impl : Impl :=
      ⟨alignUp backingSize pageAlignment, reservedSize pageAlignment virtualSize, base⟩
    -- The window is set up only over a reservation with a non-null address.
    if base = 0 then ⟨pageAlignment, backingSize, virtualSize, some impl, 0, 0⟩
    else ⟨pageAlignment, backingSize, virtualSize, some impl, windowBase base,
      windowBase base - base⟩

/-- An operation: it is given up when an `ASSERT` fails, and returns without a call to the `Impl`
when there is nothing to do. -/
def checked (asserts nothing : Prop) [Decidable asserts] [Decidable nothing] (call : ImplCall) :
    Option (Option ImplCall) :=
  if asserts then some (if nothing then none else some call) else none

variable (m : HostMemory)

/-- `Map`. -/
def map (virtualOffset hostOffset length : UInt64) : Option (Option ImplCall) :=
  checked
    (virtualOffset % m.pageAlignment = 0 ∧ hostOffset % m.pageAlignment = 0 ∧
      length % m.pageAlignment = 0 ∧ virtualOffset + length ≤ m.virtualSize ∧
      hostOffset + length ≤ m.backingSize)
    (length = 0 ∨ m.virtualBase = 0 ∨ m.impl = none)
    (.map (virtualOffset + m.virtualBaseOffset) hostOffset length)

/-- `Unmap`. -/
def unmap (virtualOffset length : UInt64) : Option (Option ImplCall) :=
  checked
    (virtualOffset % m.pageAlignment = 0 ∧ length % m.pageAlignment = 0 ∧
      virtualOffset + length ≤ m.virtualSize)
    (length = 0 ∨ m.virtualBase = 0 ∨ m.impl = none)
    (.unmap (virtualOffset + m.virtualBaseOffset) length)

/-- `Free`. -/
def free (hostOffset length : UInt64) : Option (Option ImplCall) :=
  checked
    (hostOffset % m.pageAlignment = 0 ∧ length % m.pageAlignment = 0 ∧
      hostOffset + length ≤ m.backingSize)
    (length = 0 ∨ m.impl = none)
    (.free hostOffset length)

/-- `Protect`. -/
def protect (virtualOffset length : UInt64) (read write exec : Bool) : Option (Option ImplCall) :=
  checked
    (virtualOffset % m.pageAlignment = 0 ∧ length % m.pageAlignment = 0 ∧
      virtualOffset + length ≤ m.virtualSize)
    (length = 0 ∨ m.virtualBase = 0 ∨ m.impl = none)
    (.protect (virtualOffset + m.virtualBaseOffset) length read write exec)

end HostMemory

/-- The operations with their arguments. -/
inductive MemoryOp
  | map (virtualOffset hostOffset length : UInt64)
  | unmap (virtualOffset length : UInt64)
  | free (hostOffset length : UInt64)
  | protect (virtualOffset length : UInt64) (read write exec : Bool)
deriving DecidableEq, Repr

/-- An operation on a host memory. -/
def MemoryOp.exec (m : HostMemory) : MemoryOp → Option (Option ImplCall)
  | map virtualOffset hostOffset length => m.map virtualOffset hostOffset length
  | unmap virtualOffset length => m.unmap virtualOffset length
  | free hostOffset length => m.free hostOffset length
  | protect virtualOffset length read write exec => m.protect virtualOffset length read write exec

/-- The sums that the operation compares do not wrap. -/
def MemoryOp.NoWrap : MemoryOp → Prop
  | map virtualOffset hostOffset length =>
    virtualOffset.toNat + length.toNat < 2 ^ 64 ∧ hostOffset.toNat + length.toNat < 2 ^ 64
  | unmap virtualOffset length => virtualOffset.toNat + length.toNat < 2 ^ 64
  | free hostOffset length => hostOffset.toNat + length.toNat < 2 ^ 64
  | protect virtualOffset length _ _ _ => virtualOffset.toNat + length.toNat < 2 ^ 64

/-- Whether a sum wraps can be computed. -/
instance (op : MemoryOp) : Decidable op.NoWrap := by
  cases op <;> unfold MemoryOp.NoWrap <;> infer_instance

namespace HostMemory

/-- The window begins at a multiple of the huge page size and lies inside the reservation. -/
def WindowInside (m : HostMemory) (impl : Impl) : Prop :=
  m.virtualBase.toNat % hugePageSize.toNat = 0 ∧ impl.virtualBase.toNat ≤ m.virtualBase.toNat ∧
    m.virtualBase.toNat + m.virtualSize.toNat ≤ impl.virtualBase.toNat + impl.virtualSize.toNat

/-- The addresses of a range that is handed to the `Impl` lie inside the window. -/
def InWindow (m : HostMemory) (impl : Impl) (virtualOffset length : UInt64) : Prop :=
  m.virtualBase.toNat ≤ impl.virtualBase.toNat + virtualOffset.toNat ∧
    impl.virtualBase.toNat + virtualOffset.toNat + length.toNat ≤
      m.virtualBase.toNat + m.virtualSize.toNat

/-- The offsets of a host range lie inside the backing. -/
def InBacking (m : HostMemory) (hostOffset length : UInt64) : Prop :=
  hostOffset.toNat + length.toNat ≤ m.backingSize.toNat

/-- The ranges of a call lie where they should. -/
def CallInside (m : HostMemory) (impl : Impl) : ImplCall → Prop
  | .map virtualOffset hostOffset length =>
    m.InWindow impl virtualOffset length ∧ m.InBacking hostOffset length
  | .unmap virtualOffset length => m.InWindow impl virtualOffset length
  | .free hostOffset length => m.InBacking hostOffset length
  | .protect virtualOffset length _ _ _ => m.InWindow impl virtualOffset length

end HostMemory

/-- What `mmap` may return for a reservation of `size` bytes: the address of a mapping that is not
empty and lies in the address space, not at address zero. -/
structure MmapReturns (size base : UInt64) : Prop where
  /-- A mapping is not empty. -/
  size_pos : 0 < size.toNat
  /-- No mapping is put at address zero unless it is asked for. -/
  base_pos : 0 < base.toNat
  /-- A mapping does not go past the end of the address space. -/
  fits : base.toNat + size.toNat ≤ 2 ^ 64

/-! ## The arithmetic of 64-bit words -/

section Words

variable {a b c : UInt64}

/-- A check on a sum that does not wrap. -/
theorem add_le_of_noWrap (h : a + b ≤ c) (hw : a.toNat + b.toNat < 2 ^ 64) :
    a.toNat + b.toNat ≤ c.toNat := by
  rw [UInt64.le_iff_toNat_le, UInt64.toNat_add, Nat.mod_eq_of_lt hw] at h
  exact h

/-- An aligned value is its own `AlignUp`. -/
theorem alignUp_of_aligned (h : a % b = 0) : alignUp a b = a := by
  simp [alignUp, h]

/-- The remainder of a word by the huge page size, as the mask of the source takes it. -/
theorem toNat_and_mask (a : UInt64) :
    (a &&& (hugePageSize - 1)).toNat = a.toNat % hugePageSize.toNat := by
  rw [UInt64.toNat_and]
  exact Nat.and_two_pow_sub_one_eq_mod a.toNat 21

end Words

namespace HostMemory

variable {pageAlignment backingSize virtualSize base : UInt64}

/-- The base of the window when the end of the second huge page of the reservation is still in the
address space. -/
theorem windowBase_spec (base : UInt64) (h : base.toNat + 2 * hugePageSize.toNat ≤ 2 ^ 64) :
    (windowBase base).toNat % hugePageSize.toNat = 0 ∧
      base.toNat + hugePageSize.toNat ≤ (windowBase base).toNat ∧
      (windowBase base).toNat < base.toNat + 2 * hugePageSize.toNat := by
  have hH : hugePageSize.toNat = 0x200000 := rfl
  have hlast : (base + (2 * hugePageSize - 1)).toNat = base.toNat + 0x3fffff := by
    have hconst : (2 * hugePageSize - 1).toNat = 0x3fffff := rfl
    rw [UInt64.toNat_add, hconst, Nat.mod_eq_of_lt (by omega)]
  have hmask := toNat_and_mask (base + (2 * hugePageSize - 1))
  have hle : base + (2 * hugePageSize - 1) &&& (hugePageSize - 1) ≤
      base + (2 * hugePageSize - 1) := by
    rw [UInt64.le_iff_toNat_le, hmask]
    exact Nat.mod_le _ _
  rw [windowBase, UInt64.toNat_sub_of_le _ _ hle, hmask, hlast, hH]
  omega

/-- The size of the reservation when it does not wrap. -/
theorem reservedSize_toNat (hvirtual : virtualSize % pageAlignment = 0) :
    (reservedSize pageAlignment virtualSize).toNat =
      (virtualSize.toNat + 3 * hugePageSize.toNat) % 2 ^ 64 := by
  rw [reservedSize, alignUp_of_aligned hvirtual, UInt64.toNat_add]
  rfl

/-- The memory over a reservation. -/
theorem createForUser_some (hbase : 0 < base.toNat) :
    createForUser pageAlignment backingSize virtualSize (some base) =
      ⟨pageAlignment, backingSize, virtualSize,
        some ⟨alignUp backingSize pageAlignment, reservedSize pageAlignment virtualSize, base⟩,
        windowBase base, windowBase base - base⟩ := by
  have hne : base ≠ 0 := by
    rintro rfl
    exact absurd hbase (by decide)
  rw [createForUser, if_neg hne]

/-- The window of a reservation whose size does not wrap: it begins in the second or third huge
page, at a multiple of the huge page size, and ends before the reservation does. -/
theorem window_spec (hvirtual : virtualSize % pageAlignment = 0)
    (hmmap : MmapReturns (reservedSize pageAlignment virtualSize) base)
    (hsize : virtualSize.toNat + 3 * hugePageSize.toNat < 2 ^ 64) :
    (windowBase base).toNat % hugePageSize.toNat = 0 ∧
      base.toNat + hugePageSize.toNat ≤ (windowBase base).toNat ∧
      (windowBase base).toNat + virtualSize.toNat <
        base.toNat + (reservedSize pageAlignment virtualSize).toNat := by
  have hfits := hmmap.fits
  rw [reservedSize_toNat hvirtual, Nat.mod_eq_of_lt hsize] at hfits ⊢
  obtain ⟨halign, hlow, hhigh⟩ := windowBase_spec base (by omega)
  exact ⟨halign, hlow, by omega⟩

/-- No window lies inside a reservation whose size wraps: the reservation is smaller than three huge
pages, the window is not. -/
theorem not_inside_of_wrap (hvirtual : virtualSize % pageAlignment = 0)
    (hsize : 2 ^ 64 ≤ virtualSize.toNat + 3 * hugePageSize.toNat) :
    (reservedSize pageAlignment virtualSize).toNat < virtualSize.toNat := by
  have hH : hugePageSize.toNat = 0x200000 := rfl
  have hlt := virtualSize.toNat_lt
  rw [reservedSize_toNat hvirtual, hH]
  omega

section Calls

variable {m : HostMemory} {impl : Impl}

/-- A checked call is made if the assertions hold and there is something to do. -/
theorem checked_eq_some_iff {asserts nothing : Prop} [Decidable asserts] [Decidable nothing]
    {call : ImplCall} {r : Option ImplCall} :
    checked asserts nothing call = some r ↔ asserts ∧
      (if nothing then none else some call) = r := by
  unfold checked
  split_ifs <;> simp_all

/-- The calls that an operation makes have a property exactly when the one call it can make has it,
unless there is nothing to do. -/
theorem forall_call_iff {nothing : Prop} [Decidable nothing] {call : ImplCall}
    {r : Option ImplCall} (hr : (if nothing then none else some call) = r) (Q : ImplCall → Prop) :
    (∀ c, r = some c → Q c) ↔ (¬ nothing → Q call) := by
  subst hr
  split_ifs with h <;> simp [h]

/-- A virtual range that passes its check stays in the window, which is itself in the address space,
if and only if the sum in the check does not wrap. -/
theorem inWindow_iff (virtualOffset length : UInt64)
    (hoffset : m.virtualBaseOffset = m.virtualBase - impl.virtualBase)
    (hbase : 0 < impl.virtualBase.toNat) (hle : impl.virtualBase.toNat ≤ m.virtualBase.toNat)
    (hspace : m.virtualBase.toNat + m.virtualSize.toNat ≤ 2 ^ 64)
    (hassert : virtualOffset + length ≤ m.virtualSize) :
    (length ≠ 0 → m.InWindow impl (virtualOffset + m.virtualBaseOffset) length) ↔
      virtualOffset.toNat + length.toNat < 2 ^ 64 := by
  have hoff : m.virtualBaseOffset.toNat = m.virtualBase.toNat - impl.virtualBase.toNat := by
    rw [hoffset]
    exact UInt64.toNat_sub_of_le _ _ (UInt64.le_iff_toNat_le.mpr hle)
  unfold InWindow
  rw [UInt64.toNat_add, hoff]
  have hv := virtualOffset.toNat_lt
  have hsz := m.virtualSize.toNat_lt
  constructor
  · intro hin
    by_cases hlen : length = 0
    · rw [hlen]
      exact hv
    · -- The shifted offset is not below the window, so it did not wrap.
      obtain ⟨hlow, hhigh⟩ := hin hlen
      omega
  · intro hw _
    have hsum := add_le_of_noWrap hassert hw
    rw [Nat.mod_eq_of_lt (by omega)]
    omega

/-- A host range that passes its check stays in the backing if and only if the sum in the check does
not wrap. -/
theorem inBacking_iff {hostOffset length : UInt64} (hassert : hostOffset + length ≤ m.backingSize) :
    (length ≠ 0 → m.InBacking hostOffset length) ↔ hostOffset.toNat + length.toNat < 2 ^ 64 := by
  constructor
  · intro hin
    by_cases hlen : length = 0
    · rw [hlen]
      exact hostOffset.toNat_lt
    · exact Nat.lt_of_le_of_lt (hin hlen) m.backingSize.toNat_lt
  · intro hw _
    exact add_le_of_noWrap hassert hw

/-- The call of an operation that passes its checks stays in the window, which is itself in the
address space, and in the backing if and only if no sum in the checks wraps. -/
theorem callInside_iff {op : MemoryOp} {call : Option ImplCall} (himpl : m.impl = some impl)
    (hoffset : m.virtualBaseOffset = m.virtualBase - impl.virtualBase)
    (hbase : 0 < impl.virtualBase.toNat) (hle : impl.virtualBase.toNat ≤ m.virtualBase.toNat)
    (hspace : m.virtualBase.toNat + m.virtualSize.toNat ≤ 2 ^ 64)
    (hexec : op.exec m = some call) :
    (∀ c, call = some c → m.CallInside impl c) ↔ op.NoWrap := by
  have hvb : m.virtualBase ≠ 0 := by
    intro h
    rw [h] at hle
    exact absurd (Nat.lt_of_lt_of_le hbase hle) (by decide)
  -- The checks of a range of addresses are the same in all calls.
  have hvirtual := fun virtualOffset length =>
    inWindow_iff virtualOffset length hoffset hbase hle hspace
  -- Each call checks its ranges, and `Map` checks two.
  cases op with
  | map virtualOffset hostOffset length =>
    obtain ⟨⟨-, -, -, hv, hh⟩, hr⟩ := checked_eq_some_iff.mp hexec
    rw [forall_call_iff hr]
    simp only [himpl, hvb, reduceCtorEq, or_false, CallInside, MemoryOp.NoWrap,
      ← hvirtual _ _ hv, ← inBacking_iff hh, ← ne_eq]
    exact ⟨fun h => ⟨fun hlen => (h hlen).1, fun hlen => (h hlen).2⟩,
      fun h hlen => ⟨h.1 hlen, h.2 hlen⟩⟩
  | unmap virtualOffset length =>
    obtain ⟨⟨-, -, hv⟩, hr⟩ := checked_eq_some_iff.mp hexec
    rw [forall_call_iff hr]
    simp only [himpl, hvb, reduceCtorEq, or_false, CallInside, MemoryOp.NoWrap,
      ← hvirtual _ _ hv, ← ne_eq]
  | free hostOffset length =>
    obtain ⟨⟨-, -, hh⟩, hr⟩ := checked_eq_some_iff.mp hexec
    rw [forall_call_iff hr]
    simp only [himpl, reduceCtorEq, or_false, CallInside, MemoryOp.NoWrap, ← inBacking_iff hh,
      ← ne_eq]
  | protect virtualOffset length read write exec =>
    obtain ⟨⟨-, -, hv⟩, hr⟩ := checked_eq_some_iff.mp hexec
    rw [forall_call_iff hr]
    simp only [himpl, hvb, reduceCtorEq, or_false, CallInside, MemoryOp.NoWrap,
      ← hvirtual _ _ hv, ← ne_eq]

end Calls

/-- The operations stay inside their windows: for every operation whose checks pass on a memory over
a reservation that `mmap` may return, the window lies at a multiple of the huge page size inside the
reservation, and the ranges of the call lie inside the window and the backing, if and only if
neither the size of the reservation nor a sum in the checks wraps. -/
theorem calls_inside_iff (hvirtual : virtualSize % pageAlignment = 0)
    (hmmap : MmapReturns (reservedSize pageAlignment virtualSize) base) {op : MemoryOp}
    {call : Option ImplCall} {m : HostMemory}
    (hm : m = createForUser pageAlignment backingSize virtualSize (some base))
    (hexec : op.exec m = some call) :
    (∃ impl, m.impl = some impl ∧ m.WindowInside impl ∧
        ∀ c, call = some c → m.CallInside impl c) ↔
      virtualSize.toNat + 3 * hugePageSize.toNat < 2 ^ 64 ∧ op.NoWrap := by
  have hfits := hmmap.fits
  rw [createForUser_some hmmap.base_pos] at hm
  subst hm
  -- If the size of the reservation wraps, the window does not fit. If not, it does, and the calls
  -- are decided by their sums.
  constructor
  · rintro ⟨impl, himpl, ⟨-, hle, hin⟩, hcalls⟩
    cases himpl
    dsimp only at hle hin
    refine ⟨?_, (callInside_iff rfl rfl hmmap.base_pos hle (by dsimp only; omega) hexec).mp hcalls⟩
    by_contra hsize
    have := not_inside_of_wrap hvirtual (Nat.le_of_not_lt hsize)
    omega
  · rintro ⟨hsize, hw⟩
    obtain ⟨halign, hlow, hhigh⟩ := window_spec hvirtual hmmap hsize
    have hle : base.toNat ≤ (windowBase base).toNat := by omega
    exact ⟨_, rfl, ⟨halign, hle, hhigh.le⟩,
      (callInside_iff rfl rfl hmmap.base_pos hle (by dsimp only; omega) hexec).mpr hw⟩

/-- A memory of 16 pages: mapping its last two pages stays inside. -/
theorem calls_inside_last_pages :
    ∃ impl, (createForUser 0x1000 0x10000 0x10000 (some 0x7f0000001000)).impl = some impl ∧
      (createForUser 0x1000 0x10000 0x10000 (some 0x7f0000001000)).WindowInside impl ∧
      ∀ c, some (ImplCall.map 0x40d000 0 0x2000) = some c →
        (createForUser 0x1000 0x10000 0x10000 (some 0x7f0000001000)).CallInside impl c := by
  have hexec : MemoryOp.exec (createForUser 0x1000 0x10000 0x10000 (some 0x7f0000001000))
      (.map 0xe000 0 0x2000) = some (some (.map 0x40d000 0 0x2000)) := by decide
  exact (calls_inside_iff (by decide) ⟨by decide, by decide, by decide⟩ rfl hexec).mpr
    ⟨by decide, by decide⟩

/-- Two pages whose offset is one page before the end of the 64-bit numbers: the sum in the check
wraps to one page and passes, and the range that is handed to the `Impl` begins before the
window. -/
theorem wrapped_range_outside :
    ¬ ∀ (pageAlignment backingSize virtualSize base : UInt64) (op : MemoryOp)
      (call : Option ImplCall), backingSize % pageAlignment = 0 → virtualSize % pageAlignment = 0 →
      MmapReturns (reservedSize pageAlignment virtualSize) base →
      op.exec (createForUser pageAlignment backingSize virtualSize (some base)) = some call →
      ∃ impl, (createForUser pageAlignment backingSize virtualSize (some base)).impl = some impl ∧
        (createForUser pageAlignment backingSize virtualSize (some base)).WindowInside impl ∧
        ∀ c, call = some c →
          (createForUser pageAlignment backingSize virtualSize (some base)).CallInside impl c := by
  intro h
  obtain ⟨impl, himpl, -, hcall⟩ := h 0x1000 0x10000 0x10000 0x7f0000001000
    (.map 0xfffffffffffff000 0 0x2000) (some (.map 0x3fe000 0 0x2000)) (by decide) (by decide)
    ⟨by decide, by decide, by decide⟩ (by decide)
  cases himpl
  exact absurd (hcall _ rfl).1.1 (by decide)

end HostMemory

end SwiftRuntime.Host
