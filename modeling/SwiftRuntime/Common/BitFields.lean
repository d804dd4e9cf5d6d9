import Mathlib.Algebra.Group.Nat.Defs
import Mathlib.Data.Nat.Basic
import Mathlib.Tactic.Common

/-!
# Bit fields

`BitField` of `runtime/common/bit_fields.h` keeps a field of a word of the unsigned type `T` between
its bits `position` and `position + bits`, with shifts by these two template parameters. A shift by
the width of the word or more is undefined, and so is what depends on it. Nothing asks whether the
field ends inside of the word, and two of the three fields of `JitCache`
(`runtime/backend/jit_code.h`) do not.

What is read back are the bits of the value that are left when it has been shifted to its place
(`getLsbD_read_written`). That is the value itself if it is small enough (`roundTrips_iff`).
-/

namespace SwiftRuntime.Common

/-- A shift to the left of a word of `w` bits. -/
def shiftLeft? {w : ℕ} (x : BitVec w) (n : ℕ) : Option (BitVec w) :=
  if n < w then some (x <<< n) else none

/-- A shift to the right of a word of `w` bits. -/
def shiftRight? {w : ℕ} (x : BitVec w) (n : ℕ) : Option (BitVec w) :=
  if n < w then some (x >>> n) else none

/-- The template parameters of `BitField`, with the width of `T`. The class is used with `u32`;
types that are promoted to `int` are left out. -/
structure BitField (w : ℕ) where
  /-- `position`. -/
  position : ℕ
  /-- `bits`. -/
  bits : ℕ
  /-- The `static_assert`. -/
  bits_pos : 0 < bits

namespace BitField

section Code

variable {w : ℕ} (field : BitField w)

/-- `mask`. The first shift is by a difference of `size_t`. -/
def mask : Option (BitVec w) := do
  let low ← shiftRight? (BitVec.allOnes w) ((w + (2 ^ 64 - field.bits)) % 2 ^ 64)
  shiftLeft? low field.position

/-- `operator=`, on the word `storage`. -/
def assign (storage value : BitVec w) : Option (BitVec w) := do
  let mask ← field.mask
  let shifted ← shiftLeft? value field.position
  return (storage &&& ~~~mask) ||| (shifted &&& mask)

/-- `operator T`. -/
def read (storage : BitVec w) : Option (BitVec w) := do
  let mask ← field.mask
  shiftRight? (storage &&& mask) field.position

/-- A value that is assigned is read back, the shifts on the way are defined, and the bits outside
of the mask stay as they were. -/
def RoundTrips (storage value : BitVec w) : Prop :=
  ∃ mask stored, field.mask = some mask ∧ field.assign storage value = some stored ∧
    field.read stored = some value ∧ stored &&& ~~~mask = storage &&& ~~~mask

end Code

variable {w : ℕ} {field : BitField w} {storage value : BitVec w}

/-- The word that the template computes for `mask`. -/
def maskWord (field : BitField w) : BitVec w :=
  (BitVec.allOnes w >>> (w - field.bits)) <<< field.position

/-- The mask of a field, which is undefined for a field that starts past the storage. -/
theorem mask_eq (hw : w < 2 ^ 64) (hbits : field.bits ≤ w) :
    field.mask = if field.position < w then some field.maskWord else none := by
  have hpos := field.bits_pos
  have hshift : (w + (2 ^ 64 - field.bits)) % 2 ^ 64 = w - field.bits := by omega
  have hlt : w - field.bits < w := by omega
  unfold mask shiftRight?
  rw [hshift, if_pos hlt]
  rfl

/-- The bits of the mask are those of the field. -/
theorem getLsbD_maskWord (hbits : field.bits ≤ w) (i : ℕ) :
    field.maskWord.getLsbD i = true ↔
      i < w ∧ field.position ≤ i ∧ i < field.position + field.bits := by
  simp only [maskWord, BitVec.getLsbD_shiftLeft, BitVec.getLsbD_ushiftRight, BitVec.getLsbD_allOnes,
    Bool.and_eq_true, Bool.not_eq_true', decide_eq_true_eq, decide_eq_false_iff_not]
  omega

/-- The word after `operator=`. -/
def written (field : BitField w) (storage value : BitVec w) : BitVec w :=
  (storage &&& ~~~field.maskWord) ||| (value <<< field.position &&& field.maskWord)

/-- An assignment to a field that starts inside the storage. -/
theorem assign_eq (hw : w < 2 ^ 64) (hbits : field.bits ≤ w) (hpos : field.position < w) :
    field.assign storage value = some (field.written storage value) := by
  simp [assign, mask_eq hw hbits, hpos, shiftLeft?, written]

/-- A read of a field that starts inside the storage. -/
theorem read_eq (hw : w < 2 ^ 64) (hbits : field.bits ≤ w) (hpos : field.position < w) :
    field.read storage = some ((storage &&& field.maskWord) >>> field.position) := by
  simp [read, mask_eq hw hbits, hpos, shiftRight?]

/-- Outside of the mask the word stays as it was. -/
theorem written_outside :
    field.written storage value &&& ~~~field.maskWord = storage &&& ~~~field.maskWord := by
  ext i hi
  simp only [written, BitVec.getElem_and, BitVec.getElem_or, BitVec.getElem_not]
  cases field.maskWord[i] <;> simp

/-- What is read back: the bits of the value that the shift to the place of the field leaves, and
that the field has room for. -/
theorem getLsbD_read_written (hbits : field.bits ≤ w) (i : ℕ) :
    ((field.written storage value &&& field.maskWord) >>> field.position).getLsbD i =
      (decide (field.position + i < w ∧ i < field.bits) && value.getLsbD i) := by
  have hmask := getLsbD_maskWord hbits (field.position + i)
  have hplace : field.position + i - field.position = i := by omega
  simp only [written, BitVec.getLsbD_ushiftRight, BitVec.getLsbD_and, BitVec.getLsbD_or,
    BitVec.getLsbD_shiftLeft, hplace]
  by_cases hin : field.position + i < w ∧ i < field.bits
  · -- Inside of the mask it is the shifted value.
    have hlow : ¬ field.position + i < field.position := by omega
    simp only [hmask.mpr ⟨hin.1, by omega, by omega⟩, hin, hlow, BitVec.getLsbD_not]
    simp
  · have hout : field.maskWord.getLsbD (field.position + i) = false :=
      Bool.eq_false_iff.mpr fun h => hin (by have := hmask.mp h; omega)
    simp [hin, hout]

/-- A value that the field has room for is read back if it fits into the word at its place, and only
then. -/
theorem read_written_iff (storage : BitVec w) (hbits : field.bits ≤ w)
    (hvalue : value.toNat < 2 ^ field.bits) :
    (field.written storage value &&& field.maskWord) >>> field.position = value ↔
      value.toNat < 2 ^ (w - field.position) := by
  -- A value is below a power of two when it has no bits from there on.
  have hlt : ∀ n, value.toNat < 2 ^ n ↔ ∀ i, n ≤ i → value.getLsbD i = false := by
    intro n
    constructor
    · intro h i hi
      rw [← BitVec.testBit_toNat]
      exact Nat.testBit_lt_two_pow (Nat.lt_of_lt_of_le h (Nat.pow_le_pow_right (by decide) hi))
    · intro h
      refine Nat.lt_pow_two_of_testBit _ fun i hi => ?_
      rw [BitVec.testBit_toNat]
      exact h i hi
  constructor
  · intro heq
    rw [hlt]
    intro i hi
    rw [← heq, getLsbD_read_written hbits]
    simp only [Bool.and_eq_false_imp, decide_eq_true_eq]
    omega
  · intro hfits
    refine BitVec.eq_of_getLsbD_eq fun i _ => ?_
    rw [getLsbD_read_written hbits]
    by_cases hin : field.position + i < w ∧ i < field.bits
    · simp [hin]
    · have hzero : value.getLsbD i = false := by
        rcases Nat.lt_or_ge i field.bits with hi | hi
        · exact (hlt _).mp hfits i (by omega)
        · exact (hlt _).mp hvalue i hi
      simp [hzero]

/-- The fields that a value of their size comes back from: the value has to fit into the part of the
word from the position on. -/
theorem roundTrips_iff (hw : w < 2 ^ 64) (hbits : field.bits ≤ w)
    (hvalue : value.toNat < 2 ^ field.bits) :
    field.RoundTrips storage value ↔
      field.position < w ∧ value.toNat < 2 ^ (w - field.position) := by
  by_cases hpos : field.position < w
  · rw [← read_written_iff storage hbits hvalue]
    simp [RoundTrips, mask_eq hw hbits, assign_eq hw hbits hpos, read_eq hw hbits hpos, hpos,
      written_outside]
  · -- There is no mask.
    simp [RoundTrips, mask_eq hw hbits, hpos]

end BitField

/-! ## The fields of the code cache -/

/-- The field types that `JitCache` declares. -/
inductive JitField
  | cacheID
  | offset
  | size
deriving DecidableEq, Repr

/-- Their layouts, all of them in a `u32`. -/
def JitField.layout : JitField → BitField 32
  | cacheID => ⟨0, 8, by decide⟩
  | offset => ⟨9, 32, by decide⟩
  | size => ⟨41, 24, by decide⟩

/-- A value that a field of `JitCache` has room for comes back from the field if it fits into the
word at the position of the field, and only then. -/
theorem jitField_roundTrips_iff (field : JitField) (storage value : BitVec 32)
    (hvalue : value.toNat < 2 ^ field.layout.bits) :
    field.layout.RoundTrips storage value ↔
      field.layout.position < 32 ∧ value.toNat < 2 ^ (32 - field.layout.position) := by
  refine BitField.roundTrips_iff (by decide) ?_ hvalue
  cases field <;> decide

/-- The largest value that fits above the nine bits before the offset. -/
theorem offset_roundTrips_below : JitField.offset.layout.RoundTrips 0#32 0x7fffff#32 :=
  (jitField_roundTrips_iff .offset 0#32 0x7fffff#32 (by decide)).mpr (by decide)

/-- The next value comes back as zero. -/
theorem offset_not_roundTrips :
    (0x800000#32).toNat < 2 ^ JitField.offset.layout.bits ∧
      JitField.offset.layout.assign 0#32 0x800000#32 = some 0#32 ∧
      JitField.offset.layout.read 0#32 = some 0#32 ∧
      ¬ JitField.offset.layout.RoundTrips 0#32 0x800000#32 := by
  refine ⟨by decide, by decide, by decide, ?_⟩
  rw [BitField.roundTrips_iff (by decide) (by decide) (by decide)]
  decide

end SwiftRuntime.Common
