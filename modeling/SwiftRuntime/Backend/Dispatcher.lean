import SwiftRuntime.Backend.Remove

/-!
# The code dispatcher

`swift_code_dispatcher` of `backend/arm64/context.S` reads the two translation tables, the L1 and
the L2 code cache, without the C++ code: `walk` starts at the slot of the location and goes from
entry to entry until a key is zero or the location. Nothing else stops it, so it relies on an empty
entry being there.

* A table that insertions reach has one: `Put` and `GetOrPut` never write past the slots, so the
  walk ends at the first entry after them at the latest, and finds what `Lookup` finds
  (`walk_iff_find`).
* The dispatcher itself fills the empty entry of the L1 table where its walk ended, and goes past
  the slots. It takes an entry whose *value* is all ones for the end of the table, while `Reset`
  puts the end mark in the *key* of the last entry, on which the walk does not stop. So the
  dispatcher is safe exactly as long as every walk still has an entry to stop on
  (`dispatches_safe_iff`).
-/

namespace SwiftRuntime.Backend

/-- The two code caches. -/
inductive CacheLevel
  | l1
  | l2
deriving DecidableEq, Repr

namespace CacheLevel

/-- `L1_CODE_CACHE_BITS` and `L2_CODE_CACHE_BITS`. -/
def bits : CacheLevel → ℕ
  | l1 => 18
  | l2 => 23

/-- `L1_CODE_CACHE_HASH` and `L2_CODE_CACHE_HASH`. -/
def hashMask : CacheLevel → UInt64
  | l1 => 0x3FFFF
  | l2 => 0x7FFFFF

/-- The index of the entry where the walk starts: `lsr`, `eor` with the shifted register, `and`. -/
def start (level : CacheLevel) (loc : UInt64) : ℕ :=
  let locIndex := loc >>> 2
  ((locIndex ^^^ (locIndex >>> UInt64.ofNat level.bits)) &&& level.hashMask).toNat

/-- The assembly and the C++ code start at the same entry. -/
theorem start_eq_hash (level : CacheLevel) (loc : UInt64) :
    level.start loc = TranslateTable.hash level.bits loc := by
  unfold start TranslateTable.hash size
  cases level <;>
    simp [bits, hashMask, UInt64.toNat_and, UInt64.toNat_xor, UInt64.toNat_shiftRight, Nat.xor_comm]

end CacheLevel

/-- Where a walk ends: at an empty entry or at one that holds the location. The index is the start
register's, which the last read has moved to the entry after it. -/
inductive WalkEnd
  | empty (start : ℕ)
  | found (start : ℕ)
deriving DecidableEq, Repr

namespace TranslateTable

/-- One round of a looper: the key is read and the register moved on by one entry. -/
def walkBody {b : ℕ} (t : TranslateTable b) (loc : UInt64) (start : ℕ) :
    ℕ ⊕ Except Fault WalkEnd :=
  if start < size b + 10 then
    if (t.entry start).key = 0 then .inr (.ok (.empty (start + 1)))
    else if (t.entry start).key - loc = 0 then .inr (.ok (.found (start + 1)))
    else .inl (start + 1)
  else .inr (.error .outOfBounds)

/-- The walk through a code cache. It reads one entry after the other, so it ends, or leaves the
vector, within as many rounds as the vector has entries. -/
def walk (level : CacheLevel) (t : TranslateTable level.bits) (loc : UInt64) :
    Except Fault WalkEnd :=
  (iterate (t.walkBody loc) (size level.bits + 11) (level.start loc)).getD (.error .endless)

section Walk

variable (level : CacheLevel) {t : TranslateTable level.bits} {loc : UInt64}

/-- Before an entry on which it stops, the walk goes on. -/
theorem walkBody_of_not_stop {j : ℕ} (hj : j < size level.bits + 10) (h : ¬ t.Stop loc j) :
    t.walkBody loc j = .inl (j + 1) := by
  unfold Stop at h
  push Not at h
  rw [walkBody, if_pos hj, if_neg h.1, if_neg ?_]
  rw [UInt64.sub_eq_iff_eq_add, UInt64.zero_add]
  exact h.2

/-- The walk ends at the first entry that is empty or holds the location. -/
theorem walk_of_first {i : ℕ} (hloc : loc ≠ 0) (hi : i < size level.bits + 10)
    (hle : hash level.bits loc ≤ i) (hstop : t.Stop loc i)
    (hfirst : ∀ j, hash level.bits loc ≤ j → j < i → ¬ t.Stop loc j) :
    walk level t loc =
      .ok (if (t.entry i).key = loc then .found (i + 1) else .empty (i + 1)) := by
  have hbody : t.walkBody loc i =
      .inr (.ok (if (t.entry i).key = loc then .found (i + 1) else .empty (i + 1))) := by
    unfold Stop at hstop
    rw [walkBody, if_pos hi]
    rcases hstop with h0 | hk
    · rw [if_pos h0, if_neg (by rw [h0]; exact hloc.symm)]
    · rw [if_neg (by rw [hk]; exact hloc), if_pos (by rw [hk, UInt64.sub_self]), if_pos hk]
  rw [walk, level.start_eq_hash, iterate_scan hle
    (fun j hj hji => walkBody_of_not_stop level (by omega) (hfirst j hj hji)) hbody (by omega)]
  rfl

/-- The walk leaves the vector when no entry from the start on is empty or holds the location. -/
theorem walk_of_full
    (hfull : ∀ j, hash level.bits loc ≤ j → j < size level.bits + 10 → ¬ t.Stop loc j) :
    walk level t loc = .error .outOfBounds := by
  have hlt := hash_lt level.bits loc
  have hbody : t.walkBody loc (size level.bits + 10) = .inr (.error .outOfBounds) := by
    rw [walkBody, if_neg (by omega)]
  rw [walk, level.start_eq_hash, iterate_scan (by omega)
    (fun j hj hji => walkBody_of_not_stop level hji (hfull j hj hji)) hbody (by omega)]
  rfl

/-- The first entry on which the walk stops, when there is one before a bound. -/
theorem exists_first {n : ℕ} (h : ∃ i, hash level.bits loc ≤ i ∧ i < n ∧ t.Stop loc i) :
    ∃ i, (hash level.bits loc ≤ i ∧ i < n ∧ t.Stop loc i) ∧
      ∀ j, hash level.bits loc ≤ j → j < i → ¬ t.Stop loc j := by
  classical
  obtain ⟨hle, hlt, hstop⟩ := Nat.find_spec h
  exact ⟨Nat.find h, ⟨hle, hlt, hstop⟩, fun j hj hji hs =>
    Nat.find_min h hji ⟨hj, by omega, hs⟩⟩

/-- On a table with the invariants of insertion the walk ends inside the vector, and it ends at an
entry with the location exactly when `Lookup` finds the location, with that entry's value. -/
theorem Chained.walk_spec (hc : t.Chained) (hh : t.Homed) (hloc : loc ≠ 0) :
    (∃ i, walk level t loc = .ok (.found (i + 1)) ∧ (t.entry i).key = loc ∧
        t.find loc = .ok (true, (t.entry i).value)) ∨
      ((∃ start, walk level t loc = .ok (.empty start)) ∧ t.find loc = .ok (false, 0)) := by
  have hlt := hash_lt level.bits loc
  have htail := hh.tail (size level.bits) le_rfl (by omega)
  have hsome : ∃ i, hash level.bits loc ≤ i ∧ i < size level.bits + 1 ∧ t.Stop loc i :=
    ⟨size level.bits, by omega, by omega, .inl htail⟩
  obtain ⟨i, ⟨hle, hi, hstop⟩, hfirst⟩ := exists_first level hsome
  have hwalk := walk_of_first level hloc (by omega) hle hstop hfirst
  by_cases hk : (t.entry i).key = loc
  · -- The entry holds the location, so it is a slot and the search stops there.
    have hi' : i < size level.bits := by
      rcases Nat.lt_or_ge i (size level.bits) with h | h
      · exact h
      · rw [le_antisymm (by omega) h, htail] at hk
        exact absurd hk.symm hloc
    rw [if_pos hk] at hwalk
    exact .inl ⟨i, hwalk, hk, hc.find_eq hloc hi' hk⟩
  · -- The entry is empty. A slot with the location would be where the search stops, so the walk
    -- would have stopped there.
    rw [if_neg hk] at hwalk
    refine .inr ⟨⟨_, hwalk⟩, find_eq_of_absent fun j hj hkj => ?_⟩
    have hp := hc j hj (by rw [hkj]; exact hloc)
    rw [hkj] at hp
    rcases Nat.lt_trichotomy i j with h | rfl | h
    · exact hp.first i hle h hstop
    · exact hk hkj
    · exact hfirst j hp.window.1 h hp.stop

end Walk

section Reachable

variable {b : ℕ} {t0 t : TranslateTable b}

/-- A table that insertions reach has the invariants of insertion. -/
theorem chained_homed_of_run (h0 : construct b = some t0) {ops : List TableOp}
    (hops : ∀ op ∈ ops, op.Inserts) (hrun : Run TableOp.Exec ops t0 t) :
    t.Chained ∧ t.Homed := by
  have hrep := represents_of_run h0 (fun op hop => .inl (hops op hop)) hrun
  exact ⟨hrep.chained, homed_of_run h0 (fun op hop => .inl (hops op hop)) hrun⟩

end Reachable

/-- The dispatcher's walk and `Lookup` agree: on every table that `Put` and `GetOrPut` with nonzero
keys reach, the walk ends inside the vector, and it ends at an entry with the location and a value
exactly when `Lookup` finds the location with that value. -/
theorem walk_iff_find (level : CacheLevel) {t0 t : TranslateTable level.bits}
    (h0 : construct level.bits = some t0) {ops : List TableOp} (hops : ∀ op ∈ ops, op.Inserts)
    (hrun : Run TableOp.Exec ops t0 t) {loc : UInt64} (hloc : loc ≠ 0) :
    (∃ e, walk level t loc = .ok e) ∧
      ∀ x, (∃ i, walk level t loc = .ok (.found (i + 1)) ∧ t.entry i = ⟨loc, x⟩) ↔
        t.find loc = .ok (true, x) := by
  obtain ⟨hc, hh⟩ := chained_homed_of_run h0 hops hrun
  -- The walk ends on the location, or on an empty entry; `Lookup` does the same.
  rcases hc.walk_spec level hh hloc with ⟨i, hwalk, hk, hfind⟩ | ⟨⟨start, hwalk⟩, hfind⟩
  · refine ⟨⟨_, hwalk⟩, fun x => ?_⟩
    rw [hwalk, hfind]
    constructor
    · rintro ⟨j, hj, he⟩
      cases hj
      rw [he]
    · intro hx
      cases hx
      exact ⟨i, rfl, by rw [← hk]⟩
  · refine ⟨⟨_, hwalk⟩, fun x => ?_⟩
    rw [hwalk, hfind]
    simp

/-- Two locations share the home slot 1 of an L1 table, and the second one sits in the slot after
it: the walk passes the first one and finds it. -/
theorem walk_finds_displaced :
    ∃ t0 t : TranslateTable CacheLevel.l1.bits, construct CacheLevel.l1.bits = some t0 ∧
      Run TableOp.Exec [.put 4 7, .put 0x100000 9] t0 t ∧
      hash CacheLevel.l1.bits 0x100000 = hash CacheLevel.l1.bits 4 ∧ t.entry 1 = ⟨4, 7⟩ ∧
      ∃ i, walk .l1 t 0x100000 = .ok (.found (i + 1)) ∧ t.entry i = ⟨0x100000, 9⟩ := by
  obtain ⟨t0, h0⟩ : ∃ t0, construct CacheLevel.l1.bits = some t0 := ⟨_, if_pos (by decide)⟩
  have hempty : ∀ i, i ≠ size CacheLevel.l1.bits + 9 → t0.entry i = ⟨0, 0⟩ := fun i hi => by
    rw [entry_construct h0, if_neg hi]
  have hh : hash CacheLevel.l1.bits 4 = 1 := by decide
  have hh' : hash CacheLevel.l1.bits 0x100000 = 1 := by decide
  -- The first location goes into its home slot.
  have hp : t0.Probe 4 1 :=
    ⟨⟨hh.le, .inl hh.symm⟩, .inl (by rw [hempty 1 (by decide)]), fun j hj hji => by omega⟩
  have hset := t0.entry_set (i := 1) (by decide) ⟨4, 7⟩
  -- The second one passes it.
  have hp' : (t0.set 1 ⟨4, 7⟩).Probe 0x100000 2 := by
    refine ⟨⟨by omega, .inr (by decide)⟩, .inl ?_, fun j hj hji hs => ?_⟩
    · rw [hset, if_neg (by decide), hempty 2 (by decide)]
    · obtain rfl : j = 1 := by omega
      unfold Stop at hs
      rw [hset, if_pos rfl] at hs
      exact absurd hs (by decide)
  have hset' := (t0.set 1 ⟨4, 7⟩).entry_set (i := 2) (by decide) ⟨0x100000, 9⟩
  have hrun : Run TableOp.Exec [.put 4 7, .put 0x100000 9] t0 _ :=
    .cons ⟨true, put_of_probe hp 7⟩ (.cons ⟨true, put_of_probe hp' 9⟩ (.nil _))
  have hops : ∀ op ∈ [TableOp.put 4 7, .put 0x100000 9], op.Inserts := by simp [TableOp.Inserts]
  refine ⟨t0, _, h0, hrun, hh'.trans hh.symm, ?_,
    ((walk_iff_find .l1 h0 hops hrun (by decide)).2 9).mpr ?_⟩
  · rw [hset', if_neg (by decide), hset, if_pos rfl]
  · have hc := (chained_homed_of_run h0 hops hrun).1
    have he := hset' 2
    rw [if_pos rfl] at he
    rw [hc.find_eq (by decide) (i := 2) (by decide) (by rw [he]), he]

end TranslateTable

/-! ## Filling the L1 table -/

open TranslateTable

/-- The L1 code cache. -/
abbrev L1 := TranslateTable CacheLevel.l1.bits

/-- The L2 code cache. -/
abbrev L2 := TranslateTable CacheLevel.l2.bits

/-- How a dispatch ends: with the code of an L1 entry, with the return to the host, or with the code
of an L2 entry, which the L1 table was too full to take (`full`) or has taken (`filled`). Code of an
L1 entry is called, and when it returns the dispatcher goes on with the L2 table: that is a step of
its own (`CacheAction.resume`), which stores to the entry where the L1 walk has ended. -/
inductive Exit
  | l1Hit (args : UInt64)
  | host
  | full (args : UInt64)
  | filled (args : UInt64)
deriving DecidableEq, Repr

/-- `code_dispatcher` for a location: where it goes to, and the L1 table it leaves. -/
def dispatch (l1 : L1) (l2 : L2) (loc : UInt64) : Except Fault (Exit × L1) := do
  match ← walk .l1 l1 loc with
  | .found l1Start => return (.l1Hit (l1.entry (l1Start - 1)).value, l1)
  | .empty l1Start =>
    match ← walk .l2 l2 loc with
    | .empty _ => return (.host, l1)
    | .found l2Start =>
      let args := (l2.entry (l2Start - 1)).value
      if args = 0 then return (.host, l1)
      -- The test for a full table looks at the value of the entry where the L1 walk ended.
      else if (l1.entry (l1Start - 1)).value + 1 = 0 then return (.full args, l1)
      else return (.filled args, l1.set (l1Start - 1) ⟨loc, args⟩)

/-- What a dispatch is meant to do: it reads and writes inside the vectors and ends, and when the
entries from the location's slot to the end are occupied by other locations, it leaves the L1 table
as it is and takes the exit of a full table, unless the L2 table has no code for the location. -/
structure Safe (l2 : L2) (l1 : L1) (loc : UInt64) : Prop where
  /-- Every access is inside the vectors, and the walks end. -/
  inBounds : ∃ r, dispatch l1 l2 loc = .ok r
  /-- A full table is left alone. -/
  full : (∀ i, hash CacheLevel.l1.bits loc ≤ i → i < size CacheLevel.l1.bits + 9 →
      ¬ l1.Stop loc i) →
    ∀ e l1', dispatch l1 l2 loc = .ok (e, l1') →
      l1' = l1 ∧ ((∃ args, e = .full args) ∨ (e = .host ∧ l2.lookup loc = .ok 0))

/-- The L1 table still has an entry before the last one on which the walk for the location stops. -/
def Room (l1 : L1) (loc : UInt64) : Prop :=
  ∃ i, hash CacheLevel.l1.bits loc ≤ i ∧ i < size CacheLevel.l1.bits + 9 ∧ l1.Stop loc i

/-- A property holds of the L1 table and the location at every dispatch of a sequence. -/
def Along (l2 : L2) (P : L1 → UInt64 → Prop) : L1 → List UInt64 → Prop
  | _, [] => True
  | l1, loc :: locs => P l1 loc ∧ ∀ e l1', dispatch l1 l2 loc = .ok (e, l1') → Along l2 P l1' locs

section Fill

variable {l1 : L1} {l2 : L2} {loc : UInt64}

/-- A location in neither table, or without code, goes back to the host; one with code is stored in
the empty entry where the L1 walk ended, unless the value there is all ones. -/
theorem dispatch_of_miss {i : ℕ} (h1 : walk .l1 l1 loc = .ok (.empty (i + 1)))
    (hc : l2.Chained) (hh : l2.Homed) (hloc : loc ≠ 0) :
    (∃ args, l2.find loc = .ok (true, args) ∧ args ≠ 0 ∧ dispatch l1 l2 loc =
        .ok (if (l1.entry i).value + 1 = 0 then (.full args, l1)
          else (.filled args, l1.set i ⟨loc, args⟩))) ∨
      (l2.lookup loc = .ok 0 ∧ dispatch l1 l2 loc = .ok (.host, l1)) := by
  -- The L2 walk ends on the location, which may have the value 0, or on an empty entry.
  rcases hc.walk_spec .l2 hh hloc with ⟨j, hwalk, -, hfind⟩ | ⟨⟨start, hwalk⟩, hfind⟩
  · by_cases h0 : (l2.entry j).value = 0
    · right
      rw [lookup, hfind, dispatch, h1]
      simp only [bind, Except.bind, hwalk, Nat.add_sub_cancel, h0, if_pos]
      exact ⟨rfl, rfl⟩
    · refine .inl ⟨_, hfind, h0, ?_⟩
      rw [dispatch, h1]
      simp only [bind, Except.bind, hwalk, Nat.add_sub_cancel, h0, if_false]
      split_ifs <;> rfl
  · right
    rw [lookup, hfind, dispatch, h1]
    simp only [bind, Except.bind, hwalk]
    exact ⟨rfl, rfl⟩

/-- With room for the location, a dispatch ends, and it does not touch the last entry. -/
theorem Room.dispatch (h : Room l1 loc) (hc : l2.Chained) (hh : l2.Homed) (hloc : loc ≠ 0) :
    ∃ e l1', dispatch l1 l2 loc = .ok (e, l1') ∧
      l1'.entry (size CacheLevel.l1.bits + 9) = l1.entry (size CacheLevel.l1.bits + 9) := by
  obtain ⟨i, ⟨hle, hi, hstop⟩, hfirst⟩ := exists_first .l1 h
  have hwalk := walk_of_first .l1 hloc (by omega) hle hstop hfirst
  by_cases hk : (l1.entry i).key = loc
  · rw [if_pos hk] at hwalk
    exact ⟨_, _, by rw [Backend.dispatch, hwalk]; rfl, rfl⟩
  · rw [if_neg hk] at hwalk
    rcases dispatch_of_miss hwalk hc hh hloc with ⟨args, -, -, hd⟩ | ⟨-, hd⟩
    · split_ifs at hd
      · exact ⟨_, _, hd, rfl⟩
      · exact ⟨_, _, hd, by rw [entry_set _ (by omega), if_neg (by omega)]⟩
    · exact ⟨_, _, hd, rfl⟩

/-- Without room for the location the dispatch is not safe: the walk runs over the end mark and out
of the vector, or, for the location that equals the end mark, takes it for a cached location. -/
theorem not_safe_of_not_room (hend : (l1.entry (size CacheLevel.l1.bits + 9)).key = -1)
    (hloc : loc ≠ 0) (h : ¬ Room l1 loc) : ¬ Safe l2 l1 loc := by
  have hlt := hash_lt CacheLevel.l1.bits loc
  have hfull : ∀ i, hash CacheLevel.l1.bits loc ≤ i → i < size CacheLevel.l1.bits + 9 →
      ¬ l1.Stop loc i := fun i hi hi' hs => h ⟨i, hi, hi', hs⟩
  intro hsafe
  by_cases hm : loc = -1
  · -- The walk stops at the end mark, with the exit of an L1 hit.
    have hwalk := walk_of_first .l1 (t := l1) hloc
      (i := size CacheLevel.l1.bits + 9) (by omega) (by omega) (.inr (by rw [hend, hm]))
      (fun j hj hji => hfull j hj hji)
    rw [if_pos (by rw [hend, hm])] at hwalk
    have hd : dispatch l1 l2 loc =
        .ok (.l1Hit (l1.entry (size CacheLevel.l1.bits + 9)).value, l1) := by
      rw [dispatch, hwalk]
      rfl
    rcases (hsafe.full hfull _ _ hd).2 with ⟨args, he⟩ | ⟨he, -⟩ <;> cases he
  · -- The walk stops nowhere.
    have hwalk := walk_of_full .l1 (t := l1) (by
      intro j hj hj' hs
      rcases Nat.lt_or_ge j (size CacheLevel.l1.bits + 9) with hlt9 | hge
      · exact hfull j hj hlt9 hs
      · unfold Stop at hs
        rw [show j = size CacheLevel.l1.bits + 9 by omega, hend] at hs
        rcases hs with h0 | hk
        · exact absurd h0 (by decide)
        · exact hm hk.symm)
    obtain ⟨r, hr⟩ := hsafe.inBounds
    rw [dispatch, hwalk] at hr
    cases hr

/-- A dispatch is safe exactly when there is room for its location. -/
theorem safe_iff_room (hend : (l1.entry (size CacheLevel.l1.bits + 9)).key = -1)
    (hc : l2.Chained) (hh : l2.Homed) (hloc : loc ≠ 0) : Safe l2 l1 loc ↔ Room l1 loc := by
  constructor
  · intro hs
    by_contra h
    exact not_safe_of_not_room hend hloc h hs
  · intro h
    obtain ⟨e, l1', hd, -⟩ := h.dispatch hc hh hloc
    refine ⟨⟨_, hd⟩, fun hfull => ?_⟩
    obtain ⟨i, hi, hi', hs⟩ := h
    exact absurd hs (hfull i hi hi')

end Fill

/-- The tables of the dispatcher can be constructed. -/
theorem construct_level (level : CacheLevel) :
    construct level.bits = some (reset ⟨fun _ => ⟨0, 0⟩⟩) := by
  cases level <;> exact if_pos (by decide)

/-! ### Eleven locations with one home slot -/

/-- Locations whose L1 slot is the last one, and whose L2 slots differ. -/
def crowd (j : ℕ) : UInt64 := UInt64.ofNat (4 * ((j <<< 18) ||| (0x3FFFF ^^^ j)))

/-- The locations are not zero, share their L1 slot, and have an L2 slot each. -/
theorem crowd_spec : ∀ j < 11, crowd j ≠ 0 ∧
    hash CacheLevel.l1.bits (crowd j) = size CacheLevel.l1.bits - 1 ∧
    ∀ k < 11, k ≠ j → crowd k ≠ crowd j ∧
      hash CacheLevel.l2.bits (crowd k) ≠ hash CacheLevel.l2.bits (crowd j) := by
  decide

/-- Keys with different home slots go into them, one `Put` after the other. -/
theorem exists_put_run {b : ℕ} {t0 : TranslateTable b} (h0 : construct b = some t0)
    (key : ℕ → UInt64) {n : ℕ}
    (hkey : ∀ j < n, ∀ k < n, k ≠ j → hash b (key k) ≠ hash b (key j)) (value : UInt64) :
    ∃ t, Run TableOp.Exec ((List.range n).map fun j => .put (key j) value) t0 t ∧
      (∀ j < n, t.entry (hash b (key j)) = ⟨key j, value⟩) ∧
      ∀ i < size b, (∀ j < n, hash b (key j) ≠ i) → t.entry i = ⟨0, 0⟩ := by
  induction n with
  | zero =>
    refine ⟨t0, .nil _, by simp, fun i hi _ => ?_⟩
    rw [entry_construct h0, if_neg (by omega)]
  | succ n ih =>
    obtain ⟨t, hrun, hput, hfree⟩ := ih fun j hj k hk => hkey j (by omega) k (by omega)
    have hlt := hash_lt b (key n)
    -- The home slot of the next key is free, since the earlier ones are in theirs.
    have hn : t.entry (hash b (key n)) = ⟨0, 0⟩ :=
      hfree _ hlt fun j hj => hkey n (by omega) j (by omega) (by omega)
    have hp : t.Probe (key n) (hash b (key n)) :=
      ⟨⟨le_rfl, .inl rfl⟩, .inl (by rw [hn]), fun j hj hji => by omega⟩
    refine ⟨t.set (hash b (key n)) ⟨key n, value⟩, ?_, fun j hj => ?_, fun i hi hne => ?_⟩
    · rw [List.range_succ, List.map_append]
      exact hrun.concat ⟨true, put_of_probe hp value⟩
    · rw [entry_set _ (by omega)]
      by_cases hjn : j = n
      · rw [if_pos (by rw [hjn]), hjn]
      · rw [if_neg (hkey n (by omega) j hj hjn)]
        exact hput j (by omega)
    · rw [entry_set _ (by omega), if_neg (hne n (by omega)).symm]
      exact hfree i hi fun j hj => hne j (by omega)

/-- The calls that insert code for the locations into the L2 table. -/
def crowdPuts : List TableOp := (List.range 11).map fun j => .put (crowd j) 1

/-- An L2 table with code for all of the locations. -/
theorem exists_crowd_code :
    ∃ l20 l2 : L2, construct CacheLevel.l2.bits = some l20 ∧ (∀ op ∈ crowdPuts, op.Inserts) ∧
      Run TableOp.Exec crowdPuts l20 l2 ∧ ∀ j < 11, l2.find (crowd j) = .ok (true, 1) := by
  have h2 := construct_level .l2
  obtain ⟨l2, hrun, hput, -⟩ := exists_put_run h2 crowd (n := 11)
    (fun j hj k hk hne => ((crowd_spec j hj).2.2 k hk hne).2) 1
  have hops : ∀ op ∈ crowdPuts, op.Inserts := by
    intro op hop
    obtain ⟨j, hj, rfl⟩ := List.mem_map.mp hop
    exact (crowd_spec j (List.mem_range.mp hj)).1
  refine ⟨_, l2, h2, hops, hrun, fun j hj => ?_⟩
  have hc := (chained_homed_of_run h2 hops hrun).1
  rw [hc.find_eq (crowd_spec j hj).1 (hash_lt _ (crowd j)) (by rw [hput j hj]), hput j hj]

/-- The L1 entries from the last slot on are taken by the first `k` of the locations, and those
after them are free up to the end mark. -/
structure Crowded (l1 : L1) (k : ℕ) : Prop where
  /-- The entries that are taken. -/
  taken : ∀ j < k, l1.entry (size CacheLevel.l1.bits - 1 + j) = ⟨crowd j, 1⟩
  /-- The entries that are free. -/
  free : ∀ j, k ≤ j → j < 10 → l1.entry (size CacheLevel.l1.bits - 1 + j) = ⟨0, 0⟩
  /-- The end mark. -/
  endMark : (l1.entry (size CacheLevel.l1.bits + 9)).key = -1

/-- At first they are all free. -/
theorem crowded_construct {l1 : L1} (h1 : construct CacheLevel.l1.bits = some l1) :
    Crowded l1 0 where
  taken j hj := absurd hj (Nat.not_lt_zero j)
  free j _ hj := by
    have := size_pos CacheLevel.l1.bits
    rw [entry_construct h1, if_neg (by omega)]
  endMark := by rw [entry_construct h1, if_pos rfl]

namespace Crowded

variable {l1 : L1} {l2 : L2} {k : ℕ}

/-- The walk for the next location passes the entries that are taken. -/
theorem not_stop (h : Crowded l1 k) (hk : k < 11) {i : ℕ} (hi : size CacheLevel.l1.bits - 1 ≤ i)
    (hik : i < size CacheLevel.l1.bits - 1 + k) : ¬ l1.Stop (crowd k) i := by
  intro hs
  unfold Stop at hs
  have hj : i - (size CacheLevel.l1.bits - 1) < k := by omega
  have htaken := h.taken _ hj
  rw [Nat.add_sub_cancel' hi] at htaken
  rw [htaken] at hs
  exact hs.elim (crowd_spec _ (by omega)).1 ((crowd_spec k hk).2.2 _ (by omega) (by omega)).1

/-- There is room for ten of the locations. -/
theorem room (h : Crowded l1 k) (hk : k < 10) : Room l1 (crowd k) := by
  have hpos := size_pos CacheLevel.l1.bits
  have hhash := (crowd_spec k (by omega)).2.1
  exact ⟨size CacheLevel.l1.bits - 1 + k, by omega, by omega, .inl (by rw [h.free k le_rfl hk])⟩

/-- There is none for the eleventh. -/
theorem not_room (h : Crowded l1 10) : ¬ Room l1 (crowd 10) := by
  rintro ⟨i, hi, hi', hs⟩
  rw [(crowd_spec 10 (by omega)).2.1] at hi
  exact h.not_stop (by omega) hi (by omega) hs

/-- The next location with code in the L2 table is filled into the first free entry. -/
theorem dispatch (h : Crowded l1 k) (hk : k < 10) (hc : l2.Chained) (hh : l2.Homed)
    (hcode : l2.find (crowd k) = .ok (true, 1)) :
    ∃ l1', Backend.dispatch l1 l2 (crowd k) = .ok (.filled 1, l1') ∧ Crowded l1' (k + 1) := by
  have hpos := size_pos CacheLevel.l1.bits
  obtain ⟨hloc, hhash, -⟩ := crowd_spec k (by omega)
  have hfree := h.free k le_rfl hk
  -- The L1 walk ends at the entry.
  have hwalk := walk_of_first .l1 (t := l1) hloc (i := size CacheLevel.l1.bits - 1 + k) (by omega)
    (by omega) (.inl (by rw [hfree])) fun j hj hji => h.not_stop (by omega) (by omega) hji
  rw [hfree, if_neg hloc.symm] at hwalk
  -- The L2 table has the code.
  have hd : Backend.dispatch l1 l2 (crowd k) =
      .ok (.filled 1, l1.set (size CacheLevel.l1.bits - 1 + k) ⟨crowd k, 1⟩) := by
    rcases dispatch_of_miss hwalk hc hh hloc with ⟨args, hfind, -, hd⟩ | ⟨hl, -⟩
    · rw [hcode] at hfind
      cases hfind
      rw [hd, hfree, if_neg (by decide)]
    · rw [lookup, hcode] at hl
      cases hl
  refine ⟨_, hd, fun j hj => ?_, fun j hj hj' => ?_, ?_⟩
  · rw [entry_set _ (by omega)]
    by_cases hjk : j = k
    · rw [if_pos (by rw [hjk]), hjk]
    · rw [if_neg (by omega)]
      exact h.taken j (by omega)
  · rw [entry_set _ (by omega), if_neg (by omega)]
    exact h.free j (by omega) hj'
  · rw [entry_set _ (by omega), if_neg (by omega)]
    exact h.endMark

variable (hc : l2.Chained) (hh : l2.Homed) (hcode : ∀ j < 11, l2.find (crowd j) = .ok (true, 1))
  {m : ℕ}
include hc hh hcode

/-- As long as there are at most ten, there is room for each location in turn. -/
theorem along_room (h : Crowded l1 k) (hm : k + m ≤ 10) :
    Along l2 Room l1 ((List.range' k m).map crowd) := by
  induction m generalizing k l1 with
  | zero => trivial
  | succ m ih =>
    refine ⟨h.room (by omega), fun e l1' hd => ?_⟩
    obtain ⟨l1'', hd', h'⟩ := h.dispatch (by omega) hc hh (hcode k (by omega))
    rw [hd] at hd'
    cases hd'
    exact ih h' (by omega)

/-- The last of eleven finds the entries occupied up to the end mark. -/
theorem not_along_room (h : Crowded l1 k) (hm : k + m = 10) :
    ¬ Along l2 Room l1 ((List.range' k (m + 1)).map crowd) := by
  induction m generalizing k l1 with
  | zero =>
    obtain rfl : k = 10 := by omega
    exact fun hroom => h.not_room hroom.1
  | succ m ih =>
    obtain ⟨l1', hd, h'⟩ := h.dispatch (by omega) hc hh (hcode k (by omega))
    exact fun hroom => ih h' (by omega) (hroom.2 _ _ hd)

end Crowded

/-! ### Sequences of dispatches -/

/-- From an L1 table with its end mark, every dispatch of a sequence is safe exactly when at every
dispatch there is room for the location. -/
theorem along_safe_iff {l1 : L1} {l2 : L2}
    (hend : (l1.entry (size CacheLevel.l1.bits + 9)).key = -1)
    (hc : l2.Chained) (hh : l2.Homed) {locs : List UInt64} (hlocs : ∀ loc ∈ locs, loc ≠ 0) :
    Along l2 (Safe l2) l1 locs ↔ Along l2 Room l1 locs := by
  -- The invariant of the run is the end mark.
  induction locs generalizing l1 with
  | nil => simp [Along]
  | cons loc locs ih =>
    have hloc := hlocs loc List.mem_cons_self
    rw [Along, Along, safe_iff_room hend hc hh hloc]
    refine and_congr_right fun hroom => ?_
    obtain ⟨e, l1', hd, hkeep⟩ := hroom.dispatch hc hh hloc
    have hend' : (l1'.entry (size CacheLevel.l1.bits + 9)).key = -1 := by rw [hkeep, hend]
    have hrest := ih hend' fun l hl => hlocs l (List.mem_cons_of_mem _ hl)
    constructor
    · intro h e' l' hd'
      rw [hd] at hd'
      cases hd'
      exact hrest.mp (h _ _ hd)
    · intro h e' l' hd'
      rw [hd] at hd'
      cases hd'
      exact hrest.mpr (h _ _ hd)

/-- From a constructed L1 table and an L2 table that insertions reach, every dispatch of a sequence
is safe if and only if at every dispatch there is room for the location. -/
theorem dispatches_safe_iff {l1 : L1} (h1 : construct CacheLevel.l1.bits = some l1) {l20 l2 : L2}
    (h2 : construct CacheLevel.l2.bits = some l20) {ops : List TableOp}
    (hops : ∀ op ∈ ops, op.Inserts) (hrun : Run TableOp.Exec ops l20 l2) {locs : List UInt64}
    (hlocs : ∀ loc ∈ locs, loc ≠ 0) : Along l2 (Safe l2) l1 locs ↔ Along l2 Room l1 locs := by
  obtain ⟨hc, hh⟩ := chained_homed_of_run h2 hops hrun
  exact along_safe_iff (by rw [entry_construct h1, if_pos rfl]) hc hh hlocs

/-- Ten locations whose L1 slot is the last one, all with code in the L2 table, are dispatched
safely one after the other. The first one is stored in the L1 table, and so are the others after
it. -/
theorem dispatches_safe_ten :
    ∃ l1 l1' l20 l2, construct CacheLevel.l1.bits = some l1 ∧
      construct CacheLevel.l2.bits = some l20 ∧
      Run TableOp.Exec crowdPuts l20 l2 ∧ dispatch l1 l2 (crowd 0) = .ok (.filled 1, l1') ∧
      Along l2 (Safe l2) l1 ((List.range' 0 10).map crowd) := by
  have h1 := construct_level .l1
  obtain ⟨l20, l2, h2, hops, hrun, hcode⟩ := exists_crowd_code
  obtain ⟨hc, hh⟩ := chained_homed_of_run h2 hops hrun
  have hcrowded := crowded_construct h1
  obtain ⟨l1', hd, -⟩ := hcrowded.dispatch (by omega) hc hh (hcode 0 (by omega))
  refine ⟨_, l1', l20, l2, h1, h2, hrun, hd,
    (dispatches_safe_iff h1 h2 hops hrun fun loc hl => ?_).mpr
    (hcrowded.along_room hc hh hcode (by omega))⟩
  obtain ⟨j, hj, rfl⟩ := List.mem_map.mp hl
  exact (crowd_spec j (by have := List.mem_range'_1.mp hj; omega)).1

/-- The fill runs off the table: eleven locations whose L1 slot is the last one, all with code in
the L2 table, are dispatched from a constructed L1 table. The first ten take the entries up to the
end mark, and the walk for the eleventh leaves the vector. -/
theorem dispatches_run_off :
    ¬ ∀ (l1 : L1) (l20 l2 : L2) (ops : List TableOp) (locs : List UInt64),
      construct CacheLevel.l1.bits = some l1 → construct CacheLevel.l2.bits = some l20 →
      (∀ op ∈ ops, op.Inserts) → Run TableOp.Exec ops l20 l2 → (∀ loc ∈ locs, loc ≠ 0) →
      Along l2 (Safe l2) l1 locs := by
  intro h
  have h1 := construct_level .l1
  obtain ⟨l20, l2, h2, hops, hrun, hcode⟩ := exists_crowd_code
  obtain ⟨hc, hh⟩ := chained_homed_of_run h2 hops hrun
  have hlocs : ∀ loc ∈ (List.range' 0 11).map crowd, loc ≠ 0 := by
    intro loc hl
    obtain ⟨j, hj, rfl⟩ := List.mem_map.mp hl
    exact (crowd_spec j (by simpa using hj)).1
  -- Ten locations fill the way to the end mark, so there is no room for the eleventh.
  have hcrowded := crowded_construct h1
  refine hcrowded.not_along_room hc hh hcode (m := 10) rfl ?_
  exact (along_safe_iff hcrowded.endMark hc hh hlocs).mp (h _ l20 l2 _ _ h1 h2 hops hrun hlocs)

end SwiftRuntime.Backend
