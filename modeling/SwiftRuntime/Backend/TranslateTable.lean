import SwiftRuntime.Loop
import Mathlib.Data.Nat.Bitwise
import Mathlib.Tactic.Linarith

/-!
# The translation table

The open-addressing hash table of `backend/translate_table.h`, from guest locations to code. Its
vector holds `2^hash_bits` slots and ten more entries, the last of which carries the end mark.

`put`, `getOrPut` and `find` (the loop of `Lookup`) are three loops that stop at the same place: the
first slot, from the key's home slot on, that is empty or holds the key. `Probe` names that slot,
and the `_of_probe` and `_of_full` lemmas say what each operation does in terms of it. Everything
about these operations is proved from those lemmas. `removeBody` walks differently and is treated in
`Backend/Remove.lean`.

Indices are `u32` in the source. They stay below `2^31` because `hash_bits` is at most 30
(`construct`), so only the arithmetic that can wrap is written with its modulus.
-/

namespace SwiftRuntime.Backend

/-- `TranslateEntry`. -/
structure TranslateEntry where
  /-- The guest location, zero in an empty entry. -/
  key : UInt64
  /-- The code for it. -/
  value : UInt64
deriving DecidableEq, Repr

/-- What ends an operation other than its return: `abort()`, or an access past the vector. A loop
that is cut off by its number of passes counts as `endless`. -/
inductive Fault
  | abort
  | outOfBounds
  | endless
deriving DecidableEq, Repr

/-- The number of slots, `1 << hash_bits`. -/
def size (hashBits : ℕ) : ℕ := 2 ^ hashBits

/-- `TranslateTable` with a given `hash_bits`: the vector of `size + 10` entries. -/
structure TranslateTable (hashBits : ℕ) where
  /-- `entries`. -/
  entries : Fin (size hashBits + 10) → TranslateEntry

/-- A table has a slot. -/
theorem size_pos (b : ℕ) : 0 < size b := Nat.two_pow_pos b

namespace TranslateTable

variable {b : ℕ} (t : TranslateTable b) (key value : UInt64)

/-- The entry at an index. The operations test the index before they read. -/
def entry (i : ℕ) : TranslateEntry :=
  if h : i < size b + 10 then t.entries ⟨i, h⟩ else ⟨0, 0⟩

/-- The table with one entry overwritten. -/
def set (i : ℕ) (e : TranslateEntry) : TranslateTable b :=
  ⟨fun j => if j.val = i then e else t.entries j⟩

/-- Reading back an overwritten table. -/
theorem entry_set {i : ℕ} (hi : i < size b + 10) (e : TranslateEntry) (j : ℕ) :
    (t.set i e).entry j = if j = i then e else t.entry j := by
  unfold entry set
  by_cases hj : j < size b + 10
  · simp [hj]
  · have : j ≠ i := by omega
    simp [hj, this]

/-- `Reset`: the vector has `size + 10` entries, and the last one's key is the end mark. -/
def reset : TranslateTable b := t.set (size b + 9) ⟨-1, (t.entry (size b + 9)).value⟩

/-- `Clear`: all entries are zero, the last one too. -/
def clear (_t : TranslateTable b) : TranslateTable b := ⟨fun _ => ⟨0, 0⟩⟩

/-- The constructor. The size is the `int` shift `1 << hash_bits`, so from 31 bits on there is no
table: at 31 the size converts to a length that no vector can have, and above the shift is
undefined. -/
def construct (b : ℕ) : Option (TranslateTable b) :=
  if b ≤ 30 then some (reset ⟨fun _ => ⟨0, 0⟩⟩) else none

/-- A constructed table has at most 30 hash bits. -/
theorem bits_le_of_construct {t0 : TranslateTable b} (h : construct b = some t0) : b ≤ 30 := by
  unfold construct at h
  split_ifs at h
  assumption

/-- `Hash`: the slot where the search for a key starts. -/
def hash (b : ℕ) (key : UInt64) : ℕ :=
  let merged := key.toNat >>> 2
  (merged >>> b ^^^ merged) &&& (size b - 1)

/-- The home slot is one of the slots. -/
theorem hash_lt (b : ℕ) (key : UInt64) : hash b key < size b := by
  unfold hash size
  rw [Nat.and_two_pow_sub_one_eq_mod]
  exact Nat.mod_lt _ (Nat.two_pow_pos b)

/-- One pass of the loop of `Put`. -/
def putBody (index : ℕ) : ℕ ⊕ Except Fault (Bool × TranslateTable b) :=
  if index < size b + 10 then
    if (t.entry index).key = 0 ∨ (t.entry index).key = key then
      .inr (.ok (true, t.set index ⟨key, value⟩))
    else if size b - 1 ≤ index + 1 then .inr (.error .abort)
    else .inl (index + 1)
  else .inr (.error .outOfBounds)

/-- `Put`. The index grows with every pass, so as many passes as there are slots suffice. -/
def put : Except Fault (Bool × TranslateTable b) :=
  (iterate (t.putBody key value) (size b) (hash b key)).getD (.error .endless)

/-- One pass of the loop of `GetOrPut`: the result is the position of the value in the vector read
as an array of words. -/
def getOrPutBody (index : ℕ) : ℕ ⊕ Except Fault (ℕ × TranslateTable b) :=
  if index < size b + 10 then
    if (t.entry index).key = 0 ∨ (t.entry index).key = key then
      if (t.entry index).key = key ∧ (t.entry index).value ≠ 0 then
        .inr (.ok ((2 * index + 1) % 2 ^ 32, t))
      else .inr (.ok ((2 * index + 1) % 2 ^ 32, t.set index ⟨key, value⟩))
    else if size b - 1 ≤ index + 1 then .inr (.error .abort)
    else .inl (index + 1)
  else .inr (.error .outOfBounds)

/-- `GetOrPut`. -/
def getOrPut : Except Fault (ℕ × TranslateTable b) :=
  (iterate (t.getOrPutBody key value) (size b) (hash b key)).getD (.error .endless)

/-- One pass of the loop of `Lookup`, with the locals `found` and `entry` when it is left. -/
def findBody (index : ℕ) : ℕ ⊕ Except Fault (Bool × UInt64) :=
  if index < size b + 10 then
    if (t.entry index).key = key then .inr (.ok (true, (t.entry index).value))
    else if index + 1 < size b - 1 ∧ (t.entry index).key ≠ 0 then .inl (index + 1)
    else .inr (.ok (false, 0))
  else .inr (.error .outOfBounds)

/-- The loop of `Lookup`: whether the key is found, and its value. -/
def find : Except Fault (Bool × UInt64) :=
  (iterate (t.findBody key) (size b) (hash b key)).getD (.error .endless)

/-- `Lookup`: the value of the key, zero when it is not found. -/
def lookup : Except Fault UInt64 := (t.find key).map Prod.snd

/-- One pass of the loop of `Remove`. The next index is masked with `size`, not with `size - 1`. -/
def removeBody (last : ℕ) (index : ℕ) : ℕ ⊕ Except Fault (TranslateTable b) :=
  if index < size b + 10 then
    if (t.entry index).key = key then .inr (.ok (t.set index ⟨0, (t.entry index).value⟩))
    else
      let index' := (index + 1) &&& size b
      if index' ≠ last ∧ (t.entry index).key ≠ 0 then .inl index' else .inr (.ok t)
  else .inr (.error .outOfBounds)

/-- The local `end` of `Remove`: the index before the home slot, wrapped in 32 bits. -/
def removeEnd (b : ℕ) (key : UInt64) : ℕ := (hash b key + (2 ^ 32 - 1)) % 2 ^ 32

/-- `Remove` returns with the table `t'`. -/
def Removes (t' : TranslateTable b) : Prop :=
  Returns (t.removeBody key (removeEnd b key)) (hash b key) (.ok t')

/-! ## The slot a search stops at -/

/-- The slots a search may use: the home slot, and those after it up to the last but one. -/
def Window (b : ℕ) (key : UInt64) (i : ℕ) : Prop :=
  hash b key ≤ i ∧ (i = hash b key ∨ i < size b - 1)

/-- The search stops at `i`: the entry is empty or holds the key. -/
def Stop (i : ℕ) : Prop := (t.entry i).key = 0 ∨ (t.entry i).key = key

/-- `i` is the slot where the search for `key` stops. -/
structure Probe (i : ℕ) : Prop where
  /-- The search may use the slot. -/
  window : Window b key i
  /-- It stops there. -/
  stop : t.Stop key i
  /-- It does not stop earlier. -/
  first : ∀ j, hash b key ≤ j → j < i → ¬ t.Stop key j

variable {t key}

/-- A slot of the window is one of the slots. -/
theorem Window.lt {i : ℕ} (h : Window b key i) : i < size b := by
  have := hash_lt b key
  have := size_pos b
  rcases h.2 with rfl | h
  · assumption
  · omega

/-- The search stops in at most one place. -/
theorem Probe.unique {i j : ℕ} (hi : t.Probe key i) (hj : t.Probe key j) : i = j := by
  rcases Nat.lt_trichotomy i j with h | h | h
  · exact absurd hi.stop (hj.first i hi.window.1 h)
  · exact h
  · exact absurd hj.stop (hi.first j hj.window.1 h)

/-- The search stops in its window or finds all of it occupied by other keys. -/
theorem probe_or_full (t : TranslateTable b) (key : UInt64) :
    (∃ i, t.Probe key i) ∨ ∀ i, Window b key i → ¬ t.Stop key i := by
  classical
  by_cases h : ∃ i, Window b key i ∧ t.Stop key i
  · left
    obtain ⟨hw, hs⟩ := Nat.find_spec h
    refine ⟨Nat.find h, hw, hs, fun j hj hlt hstop => Nat.find_min h hlt ⟨⟨hj, ?_⟩, hstop⟩⟩
    rcases hw.2 with he | he <;> omega
  · right
    intro i hw hs
    exact h ⟨i, hw, hs⟩

/-- A loop that goes on from every slot where the search does not stop, as long as the next one is
not the last slot, reaches the slot where the search stops. -/
theorem iterate_of_probe {ρ : Type*} {body : ℕ → ℕ ⊕ ρ} {r : ρ} {i : ℕ} (h : t.Probe key i)
    (hgo : ∀ j, j + 1 < size b - 1 → ¬ t.Stop key j → body j = .inl (j + 1))
    (hstop : body i = .inr r) : iterate body (size b) (hash b key) = some r := by
  refine iterate_scan h.window.1 (fun j hj hji => hgo j ?_ (h.first j hj hji)) hstop ?_
  · rcases h.window.2 with he | he <;> omega
  · have := h.window.lt
    omega

/-- Such a loop, when the window is occupied by other keys, reaches the window's last slot. -/
theorem iterate_of_full {ρ : Type*} {body : ℕ → ℕ ⊕ ρ} {r : ρ}
    (h : ∀ i, Window b key i → ¬ t.Stop key i)
    (hgo : ∀ j, j + 1 < size b - 1 → ¬ t.Stop key j → body j = .inl (j + 1))
    (hlast : ∀ i, i < size b → size b - 1 ≤ i + 1 → ¬ t.Stop key i → body i = .inr r) :
    iterate body (size b) (hash b key) = some r := by
  -- The last slot of the window: the home slot when that is the last slot, else the last but one.
  have hlt := hash_lt b key
  have hw : Window b key (max (hash b key) (size b - 2)) := ⟨by omega, by omega⟩
  refine iterate_scan hw.1 (fun j hj hji => hgo j (by omega) (h j ⟨hj, by omega⟩))
    (hlast _ hw.lt (by omega) (h _ hw)) (by omega)

/-! ## The operations in terms of that slot -/

/-- `Put` writes to the slot where the search stops. -/
theorem put_of_probe {i : ℕ} (h : t.Probe key i) (value : UInt64) :
    t.put key value = .ok (true, t.set i ⟨key, value⟩) := by
  have hi := h.window.lt
  have hstop := h.stop
  unfold Stop at hstop
  rw [put, iterate_of_probe h (r := .ok (true, t.set i ⟨key, value⟩))]
  · rfl
  · intro j hj hns
    unfold Stop at hns
    rw [putBody, if_pos (by omega), if_neg hns, if_neg (by omega)]
  · rw [putBody, if_pos (by omega), if_pos hstop]

/-- `Put` aborts when the window is occupied by other keys. -/
theorem put_of_full (h : ∀ i, Window b key i → ¬ t.Stop key i) (value : UInt64) :
    t.put key value = .error .abort := by
  rw [put, iterate_of_full h (r := .error .abort)]
  · rfl
  · intro j hj hns
    unfold Stop at hns
    rw [putBody, if_pos (by omega), if_neg hns, if_neg (by omega)]
  · intro i hi hlast hns
    unfold Stop at hns
    rw [putBody, if_pos (by omega), if_neg hns, if_pos hlast]

/-- `GetOrPut` returns the position of the value in the slot where the search stops, and writes
there unless the key has a nonzero value already. -/
theorem getOrPut_of_probe {i : ℕ} (h : t.Probe key i) (value : UInt64) :
    t.getOrPut key value = .ok ((2 * i + 1) % 2 ^ 32,
      if (t.entry i).key = key ∧ (t.entry i).value ≠ 0 then t else t.set i ⟨key, value⟩) := by
  have hi := h.window.lt
  have hstop := h.stop
  unfold Stop at hstop
  rw [getOrPut, iterate_of_probe h]
  · rfl
  · intro j hj hns
    unfold Stop at hns
    rw [getOrPutBody, if_pos (by omega), if_neg hns, if_neg (by omega)]
  · rw [getOrPutBody, if_pos (by omega), if_pos hstop]
    split_ifs <;> rfl

/-- `GetOrPut` aborts when the window is occupied by other keys. -/
theorem getOrPut_of_full (h : ∀ i, Window b key i → ¬ t.Stop key i) (value : UInt64) :
    t.getOrPut key value = .error .abort := by
  rw [getOrPut, iterate_of_full h (r := .error .abort)]
  · rfl
  · intro j hj hns
    unfold Stop at hns
    rw [getOrPutBody, if_pos (by omega), if_neg hns, if_neg (by omega)]
  · intro i hi hlast hns
    unfold Stop at hns
    rw [getOrPutBody, if_pos (by omega), if_neg hns, if_pos hlast]

/-- The search of `Lookup` goes on from a slot with another key. -/
theorem findBody_of_not_stop {j : ℕ} (hj : j + 1 < size b - 1) (hns : ¬ t.Stop key j) :
    t.findBody key j = .inl (j + 1) := by
  unfold Stop at hns
  push Not at hns
  rw [findBody, if_pos (by omega), if_neg hns.2, if_pos ⟨hj, hns.1⟩]

/-- `Lookup` finds the key when the slot where the search stops holds it. -/
theorem find_of_probe {i : ℕ} (h : t.Probe key i) :
    t.find key = .ok (if (t.entry i).key = key then (true, (t.entry i).value) else (false, 0)) := by
  have hi := h.window.lt
  have hstop := h.stop
  unfold Stop at hstop
  rw [find, iterate_of_probe h fun j => findBody_of_not_stop]
  · rfl
  · rw [findBody, if_pos (by omega)]
    by_cases hk : (t.entry i).key = key
    · rw [if_pos hk, if_pos hk]
    · rw [if_neg hk, if_neg hk, if_neg (by tauto)]

/-- `Lookup` finds nothing when the window is occupied by other keys. -/
theorem find_of_full (h : ∀ i, Window b key i → ¬ t.Stop key i) :
    t.find key = .ok (false, 0) := by
  rw [find, iterate_of_full h (r := .ok (false, 0)) fun j => findBody_of_not_stop]
  · rfl
  · intro i hi hlast hns
    unfold Stop at hns
    push Not at hns
    rw [findBody, if_pos (by omega), if_neg hns.2, if_neg (by omega)]

/-- A `Put` that returns has written to the slot where the search stops. -/
theorem probe_of_put {value : UInt64} {r : Bool × TranslateTable b}
    (h : t.put key value = .ok r) : ∃ i, t.Probe key i ∧ r = (true, t.set i ⟨key, value⟩) := by
  rcases probe_or_full t key with ⟨i, hi⟩ | hfull
  · rw [put_of_probe hi] at h
    exact ⟨i, hi, (Except.ok.inj h).symm⟩
  · rw [put_of_full hfull] at h
    cases h

/-- A `GetOrPut` that returns has used the slot where the search stops. -/
theorem probe_of_getOrPut {value : UInt64} {r : ℕ × TranslateTable b}
    (h : t.getOrPut key value = .ok r) : ∃ i, t.Probe key i ∧ r = ((2 * i + 1) % 2 ^ 32,
      if (t.entry i).key = key ∧ (t.entry i).value ≠ 0 then t else t.set i ⟨key, value⟩) := by
  rcases probe_or_full t key with ⟨i, hi⟩ | hfull
  · rw [getOrPut_of_probe hi] at h
    exact ⟨i, hi, (Except.ok.inj h).symm⟩
  · rw [getOrPut_of_full hfull] at h
    cases h

end TranslateTable

end SwiftRuntime.Backend
