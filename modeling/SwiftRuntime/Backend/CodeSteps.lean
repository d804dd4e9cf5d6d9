import SwiftRuntime.Backend.Dispatcher

/-!
# The steps of the threads on the code caches

The L2 code cache of an address space is shared by its threads. They insert code and look it up
under the lock of the table (`Put`, `GetOrPut` and `Lookup` of `backend/translate_table.h`), and
dispatch through it without the lock (`code_dispatcher` of `backend/arm64/context.S`). The L1 code
cache is private to a thread.

A step is one pass of a loop under the lock, or one access to the L2 table by a thread that others
do not wait for. The two stores of an insertion have an acquire fence between them, which does not
keep a store behind another one, so they may become visible in either order. The L1 walk is part of
the step at which it ends, since no other thread sees it. A dispatch whose walk leaves the L1 vector
has no step (see `dispatches_run_off`), and neither has an insertion that aborts.

After a hit in the L1 table the dispatcher calls the code with `blr`. Code that returns comes back
into the dispatcher, which goes on to the L2 table and stores what it finds there over the L1 entry
(`resume`). It is taken to leave the registers of the dispatcher as they were. Code may also go on
without returning there (`leave`): it jumps to the dispatcher or to the host, or has been called at
`jump_guest` because of bit 63 of `arg`, from where it returns to the host. While code runs, its
thread may use the tables like any other, so the calls that have not returned are a stack.

The table holds at every step a map from locations to code (`HoldsCode`), to which each step makes
the calls that `calls` says (`Inv.step`): an insertion is made at the store after which the walks
find its code.
-/

namespace SwiftRuntime.Backend

/-! ## The table and the code of the locations -/

namespace TranslateTable

variable {b : ℕ} {t t' : TranslateTable b} {key : UInt64} {m : UInt64 → UInt64}

/-- The store of a value. -/
def setValue (t : TranslateTable b) (i : ℕ) (value : UInt64) : TranslateTable b :=
  t.set i ⟨(t.entry i).key, value⟩

/-- The store of a key. -/
def setKey (t : TranslateTable b) (i : ℕ) (key : UInt64) : TranslateTable b :=
  t.set i ⟨key, (t.entry i).value⟩

/-- The search for the key has passed the slots before `i`. -/
def Passed (t : TranslateTable b) (key : UInt64) (i : ℕ) : Prop :=
  ∀ j, hash b key ≤ j → j < i → ¬ t.Stop key j

/-- No key is removed or replaced by another one. -/
def Grows (t t' : TranslateTable b) : Prop :=
  ∀ j, (t.entry j).key ≠ 0 → (t'.entry j).key = (t.entry j).key

/-- The table holds the code of the locations, which is zero for those without code. -/
structure HoldsCode (t : TranslateTable b) (m : UInt64 → UInt64) : Prop where
  /-- A key is where the search for it stops. -/
  chained : t.Chained
  /-- It is not before its home slot. -/
  homed : t.Homed
  /-- It has the code of the map. -/
  value : ∀ i, i < size b → (t.entry i).key ≠ 0 → m (t.entry i).key = (t.entry i).value
  /-- A location that is no key has no code. -/
  absent : ∀ k, k ≠ 0 → (∀ i, i < size b → (t.entry i).key ≠ k) → m k = 0

/-- A search passes nothing before its home slot. -/
theorem passed_hash (t : TranslateTable b) (key : UInt64) : t.Passed key (hash b key) :=
  fun j hj hji => absurd hji (by omega)

/-- A search that does not stop passes the slot. -/
theorem Passed.succ {i : ℕ} (h : t.Passed key i) (hi : ¬ t.Stop key i) : t.Passed key (i + 1) := by
  intro j hj hji
  rcases Nat.lt_succ_iff_lt_or_eq.mp hji with hlt | rfl
  · exact h j hj hlt
  · exact hi

/-- A search that did not stop at a slot does not stop there later. -/
theorem Grows.not_stop (h : Grows t t') {j : ℕ} (hns : ¬ t.Stop key j) : ¬ t'.Stop key j := by
  unfold Stop at hns ⊢
  push Not at hns
  rw [h j hns.1]
  push Not
  exact hns

/-- What a search has passed stays passed. -/
theorem Grows.passed (h : Grows t t') {i : ℕ} (hp : t.Passed key i) : t'.Passed key i :=
  fun j hj hji => h.not_stop (hp j hj hji)

/-- The store of a key to a slot that is empty or has the key already. -/
theorem Grows.setKey {i : ℕ} (hi : i < size b + 10) (hstop : t.Stop key i) :
    Grows t (t.setKey i key) := by
  intro j hj
  rw [TranslateTable.setKey, entry_set _ hi]
  split_ifs with hji
  · subst hji
    exact (hstop.resolve_left hj).symm
  · rfl

section SetValue

variable {i : ℕ} (hi : i < size b + 10) (value : UInt64)

include hi

/-- The store of a value leaves the keys as they are. -/
theorem key_setValue (j : ℕ) : ((t.setValue i value).entry j).key = (t.entry j).key := by
  rw [setValue, entry_set _ hi]
  split_ifs with hji
  · rw [hji]
  · rfl

/-- The store of a value does not change where searches stop. -/
theorem stop_setValue (k : UInt64) (j : ℕ) : (t.setValue i value).Stop k j ↔ t.Stop k j := by
  unfold Stop
  rw [key_setValue hi]

/-- The store of a value does not change where a search ends. -/
theorem Probe.setValue {j : ℕ} (h : t.Probe key j) : (t.setValue i value).Probe key j :=
  ⟨h.window, (stop_setValue hi ..).mpr h.stop,
    fun l hl hlj hs => h.first l hl hlj ((stop_setValue hi ..).mp hs)⟩

/-- The store of a value keeps the keys. -/
theorem Grows.setValue : Grows t (t.setValue i value) := fun j _ => key_setValue hi value j

end SetValue

/-- The slot of a key is not before those that its search has passed. -/
theorem Passed.le_of_probe {i j : ℕ} (h : t.Passed key i) (hp : t.Probe key j) : i ≤ j := by
  by_contra hlt
  exact h j hp.window.1 (by omega) hp.stop

/-- The rounds of a looper. -/
theorem walkBody_cases (t : TranslateTable b) (loc : UInt64) (i : ℕ) :
    i < size b + 10 ∧ ¬ t.Stop loc i ∧ t.walkBody loc i = .inl (i + 1) ∨
      i < size b + 10 ∧ (t.entry i).key = 0 ∧ t.walkBody loc i = .inr (.ok (.empty (i + 1))) ∨
      i < size b + 10 ∧ (t.entry i).key = loc ∧ loc ≠ 0 ∧
        t.walkBody loc i = .inr (.ok (.found (i + 1))) ∨
      ¬ i < size b + 10 ∧ t.walkBody loc i = .inr (.error .outOfBounds) := by
  unfold walkBody Stop
  -- Inside of the vector the key of the entry decides.
  by_cases hi : i < size b + 10
  · by_cases h0 : (t.entry i).key = 0
    · exact .inr (.inl ⟨hi, h0, by rw [if_pos hi, if_pos h0]⟩)
    · have hiff : (t.entry i).key - loc = 0 ↔ (t.entry i).key = loc := by
        rw [UInt64.sub_eq_iff_eq_add, UInt64.zero_add]
      by_cases hk : (t.entry i).key = loc
      · exact .inr (.inr (.inl ⟨hi, hk,
          by rwa [← hk], by rw [if_pos hi, if_neg h0, if_pos (hiff.mpr hk)]⟩))
      · exact .inl ⟨hi, not_or.mpr ⟨h0, hk⟩, by rw [if_pos hi, if_neg h0, if_neg (mt hiff.mp hk)]⟩
  · exact .inr (.inr (.inr ⟨hi, by rw [if_neg hi]⟩))

section Walk

variable {level : CacheLevel} {t t' : TranslateTable level.bits} {loc : UInt64}

/-- The entry where a walk ends. -/
theorem walk_ok {e : WalkEnd} (h : walk level t loc = .ok e) :
    ∃ i, i < size level.bits + 10 ∧ (e = .empty (i + 1) ∧ (t.entry i).key = 0 ∨
      e = .found (i + 1) ∧ (t.entry i).key = loc ∧ loc ≠ 0) := by
  unfold walk at h
  cases hrun : iterate (t.walkBody loc) (size level.bits + 11) (level.start loc) with
  | none =>
    rw [hrun] at h
    cases h
  | some r =>
    rw [hrun] at h
    obtain rfl : r = .ok e := h
    -- The loop ends with a round that does not go on, and that is at an entry of the vector.
    refine iterate_result (Q := fun r => ∀ e, r = .ok e → ∃ i, i < size level.bits + 10 ∧
      (e = .empty (i + 1) ∧ (t.entry i).key = 0 ∨
        e = .found (i + 1) ∧ (t.entry i).key = loc ∧ loc ≠ 0))
      (fun i r hb e hr => ?_) hrun e rfl
    subst hr
    rcases t.walkBody_cases loc i with
      ⟨-, -, hi⟩ | ⟨hlt, h0, hi⟩ | ⟨hlt, hk, hloc, hi⟩ | ⟨-, hi⟩ <;>
      rw [hi] at hb <;> cases hb
    · exact ⟨i, hlt, .inl ⟨rfl, h0⟩⟩
    · exact ⟨i, hlt, .inr ⟨rfl, hk, hloc⟩⟩

/-- A walk that ends at the location has passed the entries before it. -/
theorem passed_of_walk_found {i : ℕ} (h : walk level t loc = .ok (.found (i + 1))) :
    hash level.bits loc ≤ i ∧ t.Passed loc i := by
  obtain ⟨j, hj, ⟨he, -⟩ | ⟨he, hk, hloc⟩⟩ := walk_ok h
  · cases he
  · by_cases hsome : ∃ i, hash level.bits loc ≤ i ∧ i < size level.bits + 10 ∧ t.Stop loc i
    · obtain ⟨l, ⟨hle, hl, hstop⟩, hfirst⟩ := exists_first level hsome
      rw [walk_of_first level hloc hl hle hstop hfirst] at h
      split_ifs at h <;> cases h
      exact ⟨hle, hfirst⟩
    · rw [walk_of_full level fun j hj hj' hs => hsome ⟨j, hj, hj', hs⟩] at h
      cases h

/-- A walk that ends at the location does so as long as no entry before it is emptied or
overwritten. -/
theorem Grows.walk_found (hg : Grows t t') {i : ℕ} (h : walk level t loc = .ok (.found (i + 1))) :
    walk level t' loc = .ok (.found (i + 1)) := by
  obtain ⟨j, hj, ⟨he, -⟩ | ⟨he, hk, hloc⟩⟩ := walk_ok h
  · cases he
  · cases he
    obtain ⟨hle, hpassed⟩ := passed_of_walk_found h
    have hk' : (t'.entry i).key = loc := (hg i (by rw [hk]; exact hloc)).trans hk
    rw [walk_of_first level hloc hj hle (.inr hk') (hg.passed hpassed), if_pos hk']

end Walk

/-- A key is in no slot when its search stops at an empty one. -/
theorem Chained.ne_of_probe {i : ℕ} (h : t.Chained) (hp : t.Probe key i) (h0 : (t.entry i).key = 0)
    (hkey : key ≠ 0) : ∀ j, j < size b → (t.entry j).key ≠ key := by
  intro j hj hk
  have hpj := h j hj (by rw [hk]; exact hkey)
  rw [hk] at hpj
  obtain rfl := hp.unique hpj
  exact hkey (hk.symm.trans h0)

namespace HoldsCode

/-- The code of the location whose search stops at a slot. -/
theorem code_of_probe {i : ℕ} (h : t.HoldsCode m) (hp : t.Probe key i) (hkey : key ≠ 0) :
    m key = if (t.entry i).key = key then (t.entry i).value else 0 := by
  split_ifs with hk
  · have hv := h.value i hp.window.lt (by rw [hk]; exact hkey)
    rwa [hk] at hv
  · exact h.absent key hkey (h.chained.ne_of_probe hp (hp.stop.resolve_right hk) hkey)

/-- `Lookup` returns the code of a location. -/
theorem lookup_eq (h : t.HoldsCode m) (hkey : key ≠ 0) : t.lookup key = .ok (m key) := by
  rcases probe_or_full t key with ⟨i, hp⟩ | hfull
  · rw [lookup, find_of_probe hp, h.code_of_probe hp hkey]
    split_ifs <;> rfl
  · rw [lookup, find_of_full hfull, h.absent key hkey fun i hi hk => ?_]
    · rfl
    · have hp := h.chained i hi (by rw [hk]; exact hkey)
      rw [hk] at hp
      exact hfull i hp.window hp.stop

/-- Writing to the slot where the search stops gives the location its code. -/
theorem set {i : ℕ} (h : t.HoldsCode m) (hp : t.Probe key i) (hkey : key ≠ 0) (value : UInt64) :
    (t.set i ⟨key, value⟩).HoldsCode (Function.update m key value) := by
  have hset := t.entry_set (i := i) (by have := hp.window.lt; omega) ⟨key, value⟩
  have hch := h.chained.set hp hkey value
  have hself : ((t.set i ⟨key, value⟩).entry i).key = key := by rw [hset, if_pos rfl]
  -- The written slot is the only one with the key.
  have honly : ∀ j, j < size b → j ≠ i → (t.entry j).key ≠ key := by
    intro j hj hji hk
    have hpj := hch j hj (by rw [hset, if_neg hji, hk]; exact hkey)
    have hpi := hch i hp.window.lt (by rw [hself]; exact hkey)
    rw [hset, if_neg hji, hk] at hpj
    rw [hself] at hpi
    exact hji (hpj.unique hpi)
  refine ⟨hch, h.homed.set hp.window value, fun j hj hne => ?_, fun k hk habs => ?_⟩
  · rw [hset] at hne ⊢
    split_ifs at hne ⊢ with hji
    · exact Function.update_self ..
    · rw [Function.update_of_ne (honly j hj hji)]
      exact h.value j hj hne
  · have hne : k ≠ key := by
      rintro rfl
      exact habs i hp.window.lt hself
    rw [Function.update_of_ne hne]
    refine h.absent k hk fun j hj hjk => habs j hj ?_
    have hji : j ≠ i := by
      rintro rfl
      exact hp.stop.elim (fun h0 => hk (hjk.symm.trans h0)) fun hkey' => hne (hjk.symm.trans hkey')
    rw [hset, if_neg hji, hjk]

/-- The value of an empty slot does not matter. -/
theorem setValue_of_empty {i : ℕ} (h : t.HoldsCode m) (hi : i < size b) (h0 : (t.entry i).key = 0)
    (value : UInt64) : (t.setValue i value).HoldsCode m := by
  have hkey := key_setValue (t := t) (i := i) (by omega) value
  refine ⟨fun j hj hne => ?_, ?_, fun j hj hne => ?_, fun k hk habs => ?_⟩
  · rw [hkey] at hne ⊢
    exact (h.chained j hj hne).setValue (by omega) value
  · rw [setValue, h0]
    exact h.homed.empty (by omega) value
  · rw [hkey] at hne ⊢
    have hji : j ≠ i := by
      rintro rfl
      exact hne h0
    rw [setValue, entry_set _ (by omega), if_neg hji]
    exact h.value j hj hne
  · exact h.absent k hk fun j hj hjk => habs j hj (by rw [hkey, hjk])

/-- A search that passes the slots before an empty one, or all that it may use, is for a location
without code. -/
theorem code_of_passed {i : ℕ} (h : t.HoldsCode m) (hkey : key ≠ 0) (hle : hash b key ≤ i)
    (hp : t.Passed key i) (hend : (t.entry i).key = 0 ∨ hash b key < i ∧ size b - 1 ≤ i) :
    m key = 0 := by
  refine h.absent key hkey fun j hj hk => ?_
  have hpj := h.chained j hj (by rw [hk]; exact hkey)
  rw [hk] at hpj
  have hij := hp.le_of_probe hpj
  rcases hend with h0 | ⟨hlt, hlast⟩
  · rcases Nat.eq_or_lt_of_le hij with rfl | hlt
    · exact hkey (hk.symm.trans h0)
    · exact hpj.first i hle hlt (.inl h0)
  · rcases hpj.window.2 with he | he <;> omega

end HoldsCode

/-- A constructed table has no code. -/
theorem holdsCode_construct {t0 : TranslateTable b} (h : construct b = some t0) :
    t0.HoldsCode fun _ => 0 := by
  have hzero : ∀ i, i < size b → t0.entry i = ⟨0, 0⟩ := fun i hi => by
    rw [entry_construct h, if_neg (by omega)]
  refine ⟨fun i hi hne => ?_, homed_construct h, fun i hi hne => ?_, fun _ _ _ => rfl⟩ <;>
    exact absurd (by rw [hzero i hi]) hne

end TranslateTable

open TranslateTable

/-! ## The calls on a map -/

/-- An insertion. -/
inductive Insertion
  | put (key value : UInt64)
  | getOrPut (key value : UInt64)
deriving DecidableEq, Repr

namespace Insertion

/-- The location. -/
def key : Insertion → UInt64
  | put key _ | getOrPut key _ => key

/-- The code for it. -/
def value : Insertion → UInt64
  | put _ value | getOrPut _ value => value

/-- `GetOrPut` keeps the code that an entry has for its location. -/
def Keeps : Insertion → TranslateEntry → Prop
  | put _ _, _ => False
  | getOrPut key _, e => e.key = key ∧ e.value ≠ 0

/-- What an insertion does to the code of the locations. -/
def onCode : Insertion → (UInt64 → UInt64) → UInt64 → UInt64
  | put key value, m => Function.update m key value
  | getOrPut key value, m => if m key = 0 then Function.update m key value else m

end Insertion

/-- The calls on the map from locations to code. -/
inductive CodeCall
  | insert (op : Insertion)
  /-- `Lookup` returns the value, or a dispatcher finds it. -/
  | read (key value : UInt64)
deriving DecidableEq, Repr

/-- A call of a thread on the map. -/
inductive CodeStep {ι : Type*} : ι × CodeCall → (UInt64 → UInt64) → (UInt64 → UInt64) → Prop
  | insert {c : ι} {op : Insertion} {m : UInt64 → UInt64} : CodeStep (c, .insert op) m (op.onCode m)
  | read {c : ι} {key : UInt64} {m : UInt64 → UInt64} : CodeStep (c, .read key (m key)) m m

/-- Some call has given the location the code. -/
def Given {ι : Type*} (calls : List (ι × CodeCall)) (key value : UInt64) : Prop :=
  ∃ c op, (c, CodeCall.insert op) ∈ calls ∧ op.key = key ∧ op.value = value

section CodeStep

variable {ι : Type*} {m m' : UInt64 → UInt64} {calls : List (ι × CodeCall)}

/-- What has been given stays given. -/
theorem Given.append {key value : UInt64} (h : Given calls key value)
    (calls' : List (ι × CodeCall)) :
    Given (calls ++ calls') key value := by
  obtain ⟨c, op, hmem, hop⟩ := h
  exact ⟨c, op, List.mem_append_left _ hmem, hop⟩

/-- An insertion gives its location its code, or leaves the map as it is. -/
theorem Insertion.onCode_cases (op : Insertion) (m : UInt64 → UInt64) :
    op.onCode m = m ∨ op.onCode m = Function.update m op.key op.value := by
  cases op with
  | put key value => exact .inr rfl
  | getOrPut key value =>
    by_cases h0 : m key = 0
    · exact .inr (if_pos h0)
    · exact .inl (if_neg h0)

/-- Without code to keep an insertion gives its location its code. -/
theorem Insertion.onCode_of_not_keeps {op : Insertion}
    (h : ¬ op.Keeps ⟨op.key, m op.key⟩) : op.onCode m = Function.update m op.key op.value := by
  cases op with
  | put key value => rfl
  | getOrPut key value =>
    have h0 : m key = 0 := by simpa [Keeps, Insertion.key] using h
    exact if_pos h0

/-- Code that is kept stays. -/
theorem Insertion.onCode_of_keeps {op : Insertion} (h : op.Keeps ⟨op.key, m op.key⟩) :
    op.onCode m = m := by
  cases op with
  | put key value => exact h.elim
  | getOrPut key value => exact if_neg h.2

end CodeStep

/-! ## The threads -/

/-- Where a thread is. -/
inductive Thread
  /-- Outside of the table's functions and the dispatcher. -/
  | idle
  /-- In the loop of an insertion, with the lock. -/
  | probe (op : Insertion) (index : ℕ)
  /-- At the stores of an insertion, of which some have been made. -/
  | store (op : Insertion) (index : ℕ) (valueDone keyDone : Bool)
  /-- In the loop of `Lookup`, with the lock shared. -/
  | search (key : UInt64) (index : ℕ)
  /-- In the L2 looper of the dispatcher. The L1 walk has ended at `l1Slot`. -/
  | walk (loc : UInt64) (l1Slot start : ℕ)
  /-- In the dispatcher, before the load of the code at `index`. -/
  | load (loc : UInt64) (l1Slot index : ℕ)
  /-- After an access past the vector of the L2 table. -/
  | fault
deriving DecidableEq, Repr

namespace Thread

/-- The thread has the lock for itself. -/
def Exclusive : Thread → Prop
  | probe _ _ | store _ _ _ _ => True
  | _ => False

/-- The thread has the lock. -/
def Locked : Thread → Prop
  | probe _ _ | store _ _ _ _ | search _ _ => True
  | _ => False

/-- The insertion that a thread is in. -/
def op : Thread → Option Insertion
  | probe op _ | store op _ _ _ => some op
  | _ => none

/-- The location of a dispatcher that is in the L2 table, and the L1 entry that it is about to
fill. -/
def fills : Thread → Option (UInt64 × ℕ)
  | walk loc l1Slot _ | load loc l1Slot _ => some (loc, l1Slot)
  | _ => none

/-- A thread with the exclusive lock has the lock. -/
theorem Exclusive.locked {th : Thread} (h : th.Exclusive) : th.Locked := by
  cases th <;> simp_all [Exclusive, Locked]

end Thread

/-- The steps of a thread. -/
inductive CacheAction
  /-- An insertion takes the lock. -/
  | lock (op : Insertion)
  /-- It goes on to the next slot. -/
  | pass
  /-- It stops at a slot, to write to it. -/
  | stop
  /-- `GetOrPut` finds code, and returns. -/
  | keep
  | storeValue
  | storeKey
  /-- The insertion returns. -/
  | unlock
  /-- `Lookup` takes the lock. -/
  | lockShared (key : UInt64)
  /-- It goes on to the next slot. -/
  | search
  /-- It returns. -/
  | result
  /-- The dispatcher finds the location in the L1 table, and calls its code. -/
  | hit (loc : UInt64)
  /-- The code goes on without returning to the dispatcher. -/
  | leave
  /-- The code returns, and the dispatcher goes on to the L2 table. -/
  | resume
  /-- It does not, and goes on to the L2 table. -/
  | miss (loc : UInt64)
  /-- A round of the L2 looper. -/
  | round
  /-- The looper ends at an empty entry, and the dispatcher returns to the host. -/
  | host
  /-- The looper ends at the location. -/
  | found
  /-- The dispatcher loads the code, fills the L1 table and goes to the code. Without code it
  returns to the host. -/
  | load
  /-- An access past the vector. -/
  | outOfBounds
deriving DecidableEq, Repr

/-- The code caches: the L2 table of the address space, and the L1 table of each thread. -/
structure Caches (ι : Type*) where
  /-- The shared table. -/
  l2 : L2
  /-- The L1 table of a thread. -/
  l1 : ι → L1
  /-- Where a thread is. -/
  thread : ι → Thread
  /-- The calls of code after a hit that may still return, the last one first: the location, and the
  entry of the L1 table where it was found. -/
  frames : ι → List (UInt64 × ℕ)

namespace Caches

section Steps

variable {ι : Type*} [DecidableEq ι]

/-- A thread goes on. -/
def goto (s : Caches ι) (c : ι) (th : Thread) : Caches ι :=
  { s with thread := Function.update s.thread c th }

/-- A store to the L2 table. -/
def setL2 (s : Caches ι) (l2 : L2) : Caches ι :=
  { s with l2 := l2 }

/-- Code is called, or the last call is over. -/
def setFrames (s : Caches ι) (c : ι) (fs : List (UInt64 × ℕ)) : Caches ι :=
  { s with frames := Function.update s.frames c fs }

/-- The dispatcher writes the code to the L1 entry where its walk ended, unless the table is
full. -/
def fill (s : Caches ι) (c : ι) (l1Slot : ℕ) (loc args : UInt64) : Caches ι :=
  if args = 0 ∨ ((s.l1 c).entry l1Slot).value + 1 = 0 then s
  else { s with l1 := Function.update s.l1 c ((s.l1 c).set l1Slot ⟨loc, args⟩) }

section Updates

variable (s : Caches ι) (c d : ι) (th : Thread) (t : L2) (l1Slot : ℕ) (loc args : UInt64)
  (fs : List (UInt64 × ℕ))

/-- Only the thread that goes on is somewhere else. -/
@[simp] theorem thread_goto : (s.goto c th).thread d = if d = c then th else s.thread d :=
  Function.update_apply ..

/-- Going on leaves the L2 table alone. -/
@[simp] theorem l2_goto : (s.goto c th).l2 = s.l2 := rfl

/-- Going on leaves the L1 tables alone. -/
@[simp] theorem l1_goto : (s.goto c th).l1 = s.l1 := rfl

/-- Going on leaves the calls alone. -/
@[simp] theorem frames_goto : (s.goto c th).frames = s.frames := rfl

omit [DecidableEq ι] in
/-- A store to the L2 table leaves the threads where they are. -/
@[simp] theorem thread_setL2 : (s.setL2 t).thread = s.thread := rfl

omit [DecidableEq ι] in
/-- The L2 table after a store to it. -/
@[simp] theorem l2_setL2 : (s.setL2 t).l2 = t := rfl

/-- A call leaves the threads where they are. -/
@[simp] theorem thread_setFrames : (s.setFrames c fs).thread = s.thread := rfl

/-- A call leaves the L1 tables alone. -/
@[simp] theorem l1_setFrames : (s.setFrames c fs).l1 = s.l1 := rfl

/-- Only the thread that calls, or whose call is over, has other calls. -/
@[simp] theorem frames_setFrames : (s.setFrames c fs).frames d = if d = c then fs else s.frames d :=
  Function.update_apply ..

/-- A store to an L1 table leaves the threads where they are. -/
@[simp] theorem thread_fill : (s.fill c l1Slot loc args).thread = s.thread := by
  unfold fill
  split_ifs <;> rfl

/-- A store to an L1 table leaves the L2 table alone. -/
@[simp] theorem l2_fill : (s.fill c l1Slot loc args).l2 = s.l2 := by
  unfold fill
  split_ifs <;> rfl

/-- A store to an L1 table leaves the calls alone. -/
@[simp] theorem frames_fill : (s.fill c l1Slot loc args).frames = s.frames := by
  unfold fill
  split_ifs <;> rfl

end Updates

/-- The steps of the threads, in any order. -/
inductive Step : ι × CacheAction → Caches ι → Caches ι → Prop
  | lock {s : Caches ι} {c : ι} {op : Insertion} (h : s.thread c = .idle)
      (hfree : ∀ d, ¬ (s.thread d).Locked) :
    Step (c, .lock op) s (s.goto c (.probe op (hash CacheLevel.l2.bits op.key)))
  | pass {s : Caches ι} {c : ι} {op : Insertion} {i : ℕ} (h : s.thread c = .probe op i)
      (hns : ¬ s.l2.Stop op.key i) (hi : i + 1 < size CacheLevel.l2.bits - 1) :
    Step (c, .pass) s (s.goto c (.probe op (i + 1)))
  | stop {s : Caches ι} {c : ι} {op : Insertion} {i : ℕ} (h : s.thread c = .probe op i)
      (hstop : s.l2.Stop op.key i) (hkeep : ¬ op.Keeps (s.l2.entry i)) :
    Step (c, .stop) s (s.goto c (.store op i false false))
  | keep {s : Caches ι} {c : ι} {op : Insertion} {i : ℕ} (h : s.thread c = .probe op i)
      (hkeep : op.Keeps (s.l2.entry i)) :
    Step (c, .keep) s (s.goto c .idle)
  | storeValue {s : Caches ι} {c : ι} {op : Insertion} {i : ℕ} {keyDone : Bool}
      (h : s.thread c = .store op i false keyDone) :
    Step (c, .storeValue) s
      ((s.setL2 (s.l2.setValue i op.value)).goto c (.store op i true keyDone))
  | storeKey {s : Caches ι} {c : ι} {op : Insertion} {i : ℕ} {valueDone : Bool}
      (h : s.thread c = .store op i valueDone false) :
    Step (c, .storeKey) s
      ((s.setL2 (s.l2.setKey i op.key)).goto c (.store op i valueDone true))
  | unlock {s : Caches ι} {c : ι} {op : Insertion} {i : ℕ}
      (h : s.thread c = .store op i true true) :
    Step (c, .unlock) s (s.goto c .idle)
  | lockShared {s : Caches ι} {c : ι} {key : UInt64} (h : s.thread c = .idle)
      (hfree : ∀ d, ¬ (s.thread d).Exclusive) :
    Step (c, .lockShared key) s (s.goto c (.search key (hash CacheLevel.l2.bits key)))
  | search {s : Caches ι} {c : ι} {key : UInt64} {i j : ℕ} (h : s.thread c = .search key i)
      (hbody : s.l2.findBody key i = .inl j) :
    Step (c, .search) s (s.goto c (.search key j))
  | result {s : Caches ι} {c : ι} {key value : UInt64} {i : ℕ} {done : Bool}
      (h : s.thread c = .search key i) (hbody : s.l2.findBody key i = .inr (.ok (done, value))) :
    Step (c, .result) s (s.goto c .idle)
  | searchFault {s : Caches ι} {c : ι} {key : UInt64} {i : ℕ} {e : Fault}
      (h : s.thread c = .search key i) (hbody : s.l2.findBody key i = .inr (.error e)) :
    Step (c, .outOfBounds) s (s.goto c .fault)
  | hit {s : Caches ι} {c : ι} {loc : UInt64} {l1Start : ℕ} (h : s.thread c = .idle)
      (hwalk : TranslateTable.walk .l1 (s.l1 c) loc = .ok (.found l1Start)) :
    Step (c, .hit loc) s (s.setFrames c ((loc, l1Start - 1) :: s.frames c))
  | leave {s : Caches ι} {c : ι} {frame : UInt64 × ℕ} {fs : List (UInt64 × ℕ)}
      (h : s.thread c = .idle) (hframe : s.frames c = frame :: fs) :
    Step (c, .leave) s (s.setFrames c fs)
  | resume {s : Caches ι} {c : ι} {loc : UInt64} {l1Slot : ℕ} {fs : List (UInt64 × ℕ)}
      (h : s.thread c = .idle) (hframe : s.frames c = (loc, l1Slot) :: fs) :
    Step (c, .resume) s ((s.setFrames c fs).goto c (.walk loc l1Slot (CacheLevel.l2.start loc)))
  | miss {s : Caches ι} {c : ι} {loc : UInt64} {l1Start : ℕ} (h : s.thread c = .idle)
      (hwalk : TranslateTable.walk .l1 (s.l1 c) loc = .ok (.empty l1Start)) :
    Step (c, .miss loc) s (s.goto c (.walk loc (l1Start - 1) (CacheLevel.l2.start loc)))
  | round {s : Caches ι} {c : ι} {loc : UInt64} {l1Slot i j : ℕ}
      (h : s.thread c = .walk loc l1Slot i) (hbody : s.l2.walkBody loc i = .inl j) :
    Step (c, .round) s (s.goto c (.walk loc l1Slot j))
  | host {s : Caches ι} {c : ι} {loc : UInt64} {l1Slot i j : ℕ}
      (h : s.thread c = .walk loc l1Slot i) (hbody : s.l2.walkBody loc i = .inr (.ok (.empty j))) :
    Step (c, .host) s (s.goto c .idle)
  | found {s : Caches ι} {c : ι} {loc : UInt64} {l1Slot i j : ℕ}
      (h : s.thread c = .walk loc l1Slot i) (hbody : s.l2.walkBody loc i = .inr (.ok (.found j))) :
    Step (c, .found) s (s.goto c (.load loc l1Slot (j - 1)))
  | walkFault {s : Caches ι} {c : ι} {loc : UInt64} {l1Slot i : ℕ} {e : Fault}
      (h : s.thread c = .walk loc l1Slot i) (hbody : s.l2.walkBody loc i = .inr (.error e)) :
    Step (c, .outOfBounds) s (s.goto c .fault)
  | load {s : Caches ι} {c : ι} {loc : UInt64} {l1Slot i : ℕ}
      (h : s.thread c = .load loc l1Slot i) :
    Step (c, .load) s ((s.fill c l1Slot loc (s.l2.entry i).value).goto c .idle)

end Steps

variable {ι : Type*}

/-- The call on the map that a step makes, if it makes one. -/
def calls (s : Caches ι) : ι × CacheAction → List (ι × CodeCall)
  | (c, .keep) =>
    match s.thread c with
    | .probe op _ => [(c, .insert op)]
    | _ => []
  | (c, .storeValue) =>
    match s.thread c with
    -- In an empty slot the code is not found before the key is stored.
    | .store op i _ _ => if (s.l2.entry i).key = op.key then [(c, .insert op)] else []
    | _ => []
  | (c, .storeKey) =>
    match s.thread c with
    | .store op i true _ => if (s.l2.entry i).key = op.key then [] else [(c, .insert op)]
    | _ => []
  | (c, .result) =>
    match s.thread c with
    | .search key i =>
      match s.l2.findBody key i with
      | .inr (.ok (_, value)) => [(c, .read key value)]
      | _ => []
    | _ => []
  | (c, .host) =>
    match s.thread c with
    | .walk loc _ _ => [(c, .read loc 0)]
    | _ => []
  | (c, .load) =>
    match s.thread c with
    | .load loc _ i => [(c, .read loc (s.l2.entry i).value)]
    | _ => []
  | _ => []

/-- The locations are not zero. -/
def Nonzero : ι × CacheAction → Caches ι → Prop
  | (_, .lock op), _ => op.key ≠ 0
  | (_, .lockShared key), _ => key ≠ 0
  | (_, .miss loc), _ => loc ≠ 0
  | _, _ => True

/-- Before the first step: the tables are constructed, and no thread uses them. -/
structure Started (s : Caches ι) : Prop where
  /-- The shared table is a new one. -/
  l2 : construct CacheLevel.l2.bits = some s.l2
  /-- So are the L1 tables. -/
  l1 : ∀ c, construct CacheLevel.l1.bits = some (s.l1 c)
  /-- No thread is in the code. -/
  idle : ∀ c, s.thread c = .idle
  /-- No code has been called. -/
  frames : ∀ c, s.frames c = []

/-! ## The invariant -/

/-- What a thread has found out about the L2 table. -/
def Valid (t : L2) : Thread → Prop
  | .idle => True
  | .probe op i => op.key ≠ 0 ∧ Window CacheLevel.l2.bits op.key i ∧ t.Passed op.key i
  | .store op i valueDone keyDone => op.key ≠ 0 ∧ t.Probe op.key i ∧
    (keyDone = true → (t.entry i).key = op.key) ∧
    if valueDone then (t.entry i).value = op.value else ¬ op.Keeps (t.entry i)
  | .search key i => key ≠ 0 ∧ Window CacheLevel.l2.bits key i ∧ t.Passed key i
  | .walk loc _ i => loc ≠ 0 ∧ hash CacheLevel.l2.bits loc ≤ i ∧ i ≤ size CacheLevel.l2.bits ∧
    t.Passed loc i
  | .load loc _ i => loc ≠ 0 ∧ i < size CacheLevel.l2.bits ∧ (t.entry i).key = loc
  | .fault => False

/-- The state of the L2 table and the threads while the locations have the code `m`. -/
structure Inv (s : Caches ι) (m : UInt64 → UInt64) : Prop where
  /-- The table holds the map. -/
  holds : s.l2.HoldsCode m
  /-- A thread with the exclusive lock is the only one with a lock. -/
  alone : ∀ c d, (s.thread c).Exclusive → (s.thread d).Locked → d = c
  /-- An empty slot has no value, unless its key is about to be stored. -/
  free : ∀ i, i < size CacheLevel.l2.bits → (s.l2.entry i).key = 0 → (s.l2.entry i).value ≠ 0 →
    ∃ c op, s.thread c = .store op i true false
  /-- What a thread knows about the table is right. -/
  valid : ∀ c, Valid s.l2 (s.thread c)
  /-- The locations whose code has been called are not zero. -/
  called : ∀ c, ∀ frame ∈ s.frames c, frame.1 ≠ 0

section Inv

variable {s s' : Caches ι} {m m' : UInt64 → UInt64} {c : ι} {a : ι × CacheAction}

/-- What a thread without the lock has found out stays true. -/
theorem Valid.grows {t t' : L2} {th : Thread} (hg : Grows t t') (hth : ¬ th.Locked)
    (h : Valid t th) :
    Valid t' th := by
  cases th with
  | idle => trivial
  | probe | store | search => exact absurd trivial hth
  | walk loc l1Slot i =>
    obtain ⟨hloc, hle, hi, hp⟩ := h
    exact ⟨hloc, hle, hi, hg.passed hp⟩
  | load loc l1Slot i =>
    obtain ⟨hloc, hi, hk⟩ := h
    exact ⟨hloc, hi, (hg i (by rw [hk]; exact hloc)).trans hk⟩
  | fault => exact h

/-- The invariant holds at the start. -/
theorem Started.inv (h : s.Started) : s.Inv fun _ => 0 := by
  refine ⟨holdsCode_construct h.l2, by simp [h.idle, Thread.Exclusive], fun i hi _ hv => ?_,
    by simp [h.idle, Valid], by simp [h.frames]⟩
  rw [entry_construct h.l2, if_neg (by omega)] at hv
  exact absurd rfl hv

namespace Inv

/-- What a thread has found out is true. -/
theorem valid_of_eq (h : s.Inv m) {th : Thread} (hc : s.thread c = th) :
    Valid s.l2 th := hc ▸ h.valid c

/-- `Lookup` goes on within its window, or returns the code of its location. -/
theorem search (h : s.Inv m) {key : UInt64} {i : ℕ} (hc : s.thread c = .search key i) :
    (∃ j, s.l2.findBody key i = .inl j ∧ Valid s.l2 (.search key j)) ∨
      ∃ done, s.l2.findBody key i = .inr (.ok (done, m key)) := by
  obtain ⟨hkey, hw, hpassed⟩ := h.valid_of_eq hc
  have hi := hw.lt
  -- A slot at which the search stops has the location or is empty, so the code is known.
  by_cases hstop : s.l2.Stop key i
  · right
    have hcode := h.holds.code_of_probe ⟨hw, hstop, hpassed⟩ hkey
    by_cases hk : (s.l2.entry i).key = key
    · rw [if_pos hk] at hcode
      exact ⟨true, by rw [findBody, if_pos (by omega), if_pos hk, hcode]⟩
    · rw [if_neg hk] at hcode
      have h0 := hstop.resolve_right hk
      exact ⟨false, by rw [findBody, if_pos (by omega), if_neg hk, if_neg (by tauto), hcode]⟩
  -- Otherwise the search goes on, unless its window ends here: then there is no code.
  · have hpassed' := hpassed.succ hstop
    by_cases hlast : i + 1 < size CacheLevel.l2.bits - 1
    · exact .inl ⟨i + 1, findBody_of_not_stop hlast hstop, hkey,
        ⟨by have := hw.1; omega, .inr hlast⟩, hpassed'⟩
    · right
      have hcode := h.holds.code_of_passed hkey (by have := hw.1; omega) hpassed'
        (.inr ⟨by have := hw.1; omega, by omega⟩)
      refine ⟨false, ?_⟩
      unfold Stop at hstop
      push Not at hstop
      rw [findBody, if_pos (by omega), if_neg hstop.2, if_neg (by omega), hcode]

/-- The L2 looper goes on within the slots, ends at an empty entry for a location without code, or
ends at a slot with the location. -/
theorem walk (h : s.Inv m) {loc : UInt64} {l1Slot i : ℕ} (hc : s.thread c = .walk loc l1Slot i) :
    s.l2.walkBody loc i = .inl (i + 1) ∧ Valid s.l2 (.walk loc l1Slot (i + 1)) ∨
      s.l2.walkBody loc i = .inr (.ok (.empty (i + 1))) ∧ m loc = 0 ∨
      s.l2.walkBody loc i = .inr (.ok (.found (i + 1))) ∧ Valid s.l2 (.load loc l1Slot i) := by
  obtain ⟨hloc, hle, hi, hpassed⟩ := h.valid_of_eq hc
  -- The entry after the slots is empty.
  have hend := h.holds.homed.tail _ le_rfl (by omega)
  rcases s.l2.walkBody_cases loc i with ⟨-, hns, hb⟩ | ⟨-, h0, hb⟩ | ⟨-, hk, -, hb⟩ | ⟨hout, -⟩
  · have hne : i ≠ size CacheLevel.l2.bits := by
      rintro rfl
      exact hns (.inl hend)
    exact .inl ⟨hb, hloc, by omega, by omega, hpassed.succ hns⟩
  · exact .inr (.inl ⟨hb, h.holds.code_of_passed hloc hle hpassed (.inl h0)⟩)
  · have hne : i ≠ size CacheLevel.l2.bits := by
      rintro rfl
      exact hloc (hk.symm.trans hend)
    exact .inr (.inr ⟨hb, hloc, by omega, hk⟩)
  · omega

/-- What a dispatcher loads is the code of its location. -/
theorem load (h : s.Inv m) {loc : UInt64} {l1Slot i : ℕ} (hc : s.thread c = .load loc l1Slot i) :
    m loc = (s.l2.entry i).value := by
  obtain ⟨hloc, hi, hk⟩ := h.valid_of_eq hc
  have hv := h.holds.value i hi (by rw [hk]; exact hloc)
  rwa [hk] at hv

/-- An insertion that keeps the code of its slot is made when it finds the slot. -/
theorem keep (h : s.Inv m) {op : Insertion} {i : ℕ} (hc : s.thread c = .probe op i)
    (hkeep : op.Keeps (s.l2.entry i)) : Run CodeStep (s.calls (c, .keep)) m m := by
  obtain ⟨hop, hw, -⟩ := h.valid_of_eq hc
  have hk : (s.l2.entry i).key = op.key := by
    cases op with
    | put => exact hkeep.elim
    | getOrPut => exact hkeep.1
  have hcode := h.holds.value i hw.lt (by rw [hk]; exact hop)
  have honCode : op.onCode m = m := by
    refine Insertion.onCode_of_keeps ?_
    rw [← hk, hcode]
    exact hkeep
  simp only [calls, hc]
  nth_rewrite 2 [← honCode]
  exact .cons .insert (.nil _)

/-- A slot that is about to get key and value has none. -/
theorem value_eq_zero (h : s.Inv m) {op : Insertion} {i : ℕ}
    (hc : s.thread c = .store op i false false) (hk : (s.l2.entry i).key ≠ op.key) :
    (s.l2.entry i).value = 0 := by
  obtain ⟨-, hp, -, -⟩ := h.valid_of_eq hc
  by_contra hv
  obtain ⟨d, op', hd⟩ := h.free i hp.window.lt (hp.stop.resolve_right hk) hv
  obtain rfl : c = d := h.alone d c (by rw [hd]; trivial) (by rw [hc]; trivial)
  rw [hc] at hd
  cases hd

variable [DecidableEq ι]

/-- A thread goes on without a store. -/
theorem goto (h : s.Inv m) {th : Thread} (hvalid : Valid s.l2 th)
    (hexclusive : th.Exclusive → ∀ d, d ≠ c → ¬ (s.thread d).Locked)
    (hlocked : th.Locked → ∀ d, d ≠ c → ¬ (s.thread d).Exclusive)
    (hstored : ∀ op i, s.thread c ≠ .store op i true false) : (s.goto c th).Inv m := by
  -- The lock, the empty slots with a value, and what the threads have found out.
  refine ⟨h.holds, fun d e hd he => ?_, fun i hi h0 hv => ?_, fun d => ?_, h.called⟩
  · rw [thread_goto] at hd he
    split_ifs at hd he with hdc hec hec
    · rw [hdc, hec]
    · exact absurd he (hexclusive hd e hec)
    · exact absurd hd (hlocked he d hdc)
    · exact h.alone d e hd he
  · obtain ⟨d, op, hd⟩ := h.free i hi h0 hv
    have hdc : d ≠ c := by
      rintro rfl
      exact hstored op i hd
    exact ⟨d, op, by rw [thread_goto, if_neg hdc, hd]⟩
  · rw [thread_goto]
    split_ifs
    · exact hvalid
    · exact h.valid d

/-- A thread goes on with the lock that it has. -/
theorem goto_within (h : s.Inv m) {th : Thread} (hvalid : Valid s.l2 th)
    (hexclusive : th.Exclusive → (s.thread c).Exclusive) (hlocked : (s.thread c).Locked)
    (hstored : ∀ op i, s.thread c ≠ .store op i true false) : (s.goto c th).Inv m :=
  h.goto hvalid (fun hth d hd hl => hd (h.alone c d (hexclusive hth) hl))
    (fun _ d hd he => hd (h.alone d c he hlocked).symm) hstored

/-- A thread goes on without the lock. -/
theorem goto_free (h : s.Inv m) {th : Thread} (hvalid : Valid s.l2 th) (hfree : ¬ th.Locked)
    (hstored : ∀ op i, s.thread c ≠ .store op i true false) : (s.goto c th).Inv m :=
  h.goto hvalid (fun hth => absurd hth.locked hfree) (fun hth => absurd hth hfree) hstored

/-- The thread with the lock makes a store. -/
theorem store (h : s.Inv m) {op : Insertion} {i : ℕ} {valueDone keyDone valueDone' keyDone' : Bool}
    {t : L2} (hc : s.thread c = .store op i valueDone keyDone) (hholds : t.HoldsCode m')
    (hgrows : Grows s.l2 t) (hother : ∀ j, j ≠ i → t.entry j = s.l2.entry j)
    (hvalid : Valid t (.store op i valueDone' keyDone'))
    (hfree : (t.entry i).key = 0 → (t.entry i).value ≠ 0 → valueDone' = true ∧ keyDone' = false) :
    ((s.setL2 t).goto c (.store op i valueDone' keyDone')).Inv m' := by
  have hnot : ∀ d, d ≠ c → ¬ (s.thread d).Locked := fun d hd hl =>
    hd (h.alone c d (by rw [hc]; trivial) hl)
  -- The lock, the empty slots with a value, and what the threads have found out, as in `goto`.
  refine ⟨hholds, fun d e hd he => ?_, fun j hj h0 hv => ?_, fun d => ?_, h.called⟩
  · rw [thread_goto, thread_setL2] at hd he
    split_ifs at hd he with hdc hec hec
    · rw [hdc, hec]
    · exact absurd he (hnot e hec)
    · exact absurd hd.locked (hnot d hdc)
    · exact absurd he (hnot e hec)
  · by_cases hji : j = i
    · subst hji
      obtain ⟨rfl, rfl⟩ := hfree h0 hv
      exact ⟨c, op, by rw [thread_goto, if_pos rfl]⟩
    · -- Another slot with a value would be one that this thread is writing to.
      rw [l2_goto, l2_setL2, hother j hji] at h0 hv
      obtain ⟨d, op', hd⟩ := h.free j hj h0 hv
      obtain rfl : c = d := h.alone d c (by rw [hd]; trivial) (by rw [hc]; trivial)
      rw [hc] at hd
      cases hd
      exact absurd rfl hji
  · rw [thread_goto, thread_setL2]
    split_ifs with hdc
    · exact hvalid
    · exact (h.valid d).grows hgrows (hnot d hdc)

/-- The store of the value: the insertion is made if the slot has its key. -/
theorem storeValue (h : s.Inv m) {op : Insertion} {i : ℕ} {keyDone : Bool}
    (hc : s.thread c = .store op i false keyDone) :
    ∃ m', Run CodeStep (s.calls (c, .storeValue)) m m' ∧
      ((s.setL2 (s.l2.setValue i op.value)).goto c (.store op i true keyDone)).Inv m' := by
  obtain ⟨hkey, hp, hdone, hkeep⟩ := h.valid_of_eq hc
  have hi := hp.window.lt
  have hentry := s.l2.entry_set (i := i) (by omega) ⟨(s.l2.entry i).key, op.value⟩
  have hvalue : ((s.l2.setValue i op.value).entry i).value = op.value := by
    rw [setValue, hentry, if_pos rfl]
  have hvalid : Valid (s.l2.setValue i op.value) (.store op i true keyDone) :=
    ⟨hkey, hp.setValue (by omega) _, fun hk => (key_setValue (by omega) ..).trans (hdone hk),
      hvalue⟩
  have hother : ∀ j, j ≠ i → (s.l2.setValue i op.value).entry j = s.l2.entry j := fun j hj => by
    rw [setValue, hentry, if_neg hj]
  simp only [calls, hc]
  -- In a slot with the key, the store is the insertion. In an empty one it is not seen yet.
  by_cases hk : (s.l2.entry i).key = op.key
  · have hcode : m op.key = (s.l2.entry i).value := by rw [h.holds.code_of_probe hp hkey, if_pos hk]
    have honCode : op.onCode m = Function.update m op.key op.value := by
      refine Insertion.onCode_of_not_keeps ?_
      rw [hcode, ← hk]
      exact hkeep
    refine ⟨op.onCode m, ?_, h.store hc ?_ (.setValue (by omega) _) hother hvalid fun h0 _ => ?_⟩
    · rw [if_pos hk]
      exact .cons .insert (.nil _)
    · rw [honCode, setValue, hk]
      exact h.holds.set hp hkey op.value
    · rw [key_setValue (by omega), hk] at h0
      exact absurd h0 hkey
  · have h0 := hp.stop.resolve_right hk
    refine ⟨m, ?_, h.store hc (h.holds.setValue_of_empty hi h0 _) (.setValue (by omega) _) hother
      hvalid fun _ _ => ⟨rfl, ?_⟩⟩
    · rw [if_neg hk]
      exact .nil m
    · -- The key has not been stored yet.
      by_contra hne
      exact hk (hdone (by simpa using hne))

/-- The store of the key: the insertion is made if the value is there already and the slot was
empty. -/
theorem storeKey (h : s.Inv m) {op : Insertion} {i : ℕ} {valueDone : Bool}
    (hc : s.thread c = .store op i valueDone false) :
    ∃ m', Run CodeStep (s.calls (c, .storeKey)) m m' ∧
      ((s.setL2 (s.l2.setKey i op.key)).goto c (.store op i valueDone true)).Inv m' := by
  obtain ⟨hkey, hp, -, hdone⟩ := h.valid_of_eq hc
  have hi := hp.window.lt
  have hentry := s.l2.entry_set (i := i) (by omega) ⟨op.key, (s.l2.entry i).value⟩
  have hself : (s.l2.setKey i op.key).entry i = ⟨op.key, (s.l2.entry i).value⟩ := by
    rw [setKey, hentry, if_pos rfl]
  have hother : ∀ j, j ≠ i → (s.l2.setKey i op.key).entry j = s.l2.entry j := fun j hj => by
    rw [setKey, hentry, if_neg hj]
  have hholds := h.holds.set hp hkey (s.l2.entry i).value
  have hcode := h.holds.code_of_probe hp hkey
  -- The slot is the one where the search ends, and its value is the new one or none.
  have hvalid : Valid (s.l2.setKey i op.key) (.store op i valueDone true) := by
    have hprobe := hholds.chained i hi (by rw [hentry, if_pos rfl]; exact hkey)
    rw [hentry, if_pos rfl] at hprobe
    refine ⟨hkey, hprobe, fun _ => by rw [hself], ?_⟩
    rw [hself]
    cases valueDone with
    | true => exact hdone
    | false =>
      by_cases hk : (s.l2.entry i).key = op.key
      · rw [← hk]
        exact hdone
      · rw [h.value_eq_zero hc hk]
        cases op <;> simp [Insertion.Keeps]
  have hstore : ∀ m', Function.update m op.key (s.l2.entry i).value = m' →
      ((s.setL2 (s.l2.setKey i op.key)).goto c (.store op i valueDone true)).Inv m' := by
    rintro m' rfl
    exact h.store hc hholds (.setKey (by omega) hp.stop) hother hvalid fun h0 _ =>
      absurd (by rwa [hself] at h0) hkey
  simp only [calls, hc]
  -- A key that was there already changes nothing. In an empty slot the store is the insertion if
  -- the value is there, and otherwise the location still has no code.
  by_cases hk : (s.l2.entry i).key = op.key
  · refine ⟨m, ?_, hstore m ?_⟩
    · cases valueDone <;> simp only [hk, if_true] <;> exact .nil m
    · rw [if_pos hk] at hcode
      rw [← hcode, Function.update_eq_self]
  · rw [if_neg hk] at hcode
    cases valueDone with
    | true =>
      refine ⟨op.onCode m, ?_, hstore _ ?_⟩
      · simp only [if_neg hk]
        exact .cons .insert (.nil _)
      · have hvalue : (s.l2.entry i).value = op.value := hdone
        rw [hvalue, Insertion.onCode_of_not_keeps]
        rw [hcode]
        cases op <;> simp [Insertion.Keeps]
    | false =>
      refine ⟨m, .nil m, hstore m ?_⟩
      rw [h.value_eq_zero hc hk, ← hcode, Function.update_eq_self]

/-- Filling an L1 table. -/
theorem fill (h : s.Inv m) (l1Slot : ℕ) (loc args : UInt64) : (s.fill c l1Slot loc args).Inv m := by
  refine ⟨?_, ?_, ?_, ?_, ?_⟩ <;> simp only [thread_fill, l2_fill, frames_fill]
  exacts [h.holds, h.alone, h.free, h.valid, h.called]

/-- Calling code, or the end of a call. -/
theorem setFrames (h : s.Inv m) {fs : List (UInt64 × ℕ)} (hfs : ∀ frame ∈ fs, frame.1 ≠ 0) :
    (s.setFrames c fs).Inv m := by
  refine ⟨h.holds, h.alone, h.free, h.valid, fun d => ?_⟩
  rw [frames_setFrames]
  split_ifs
  · exact hfs
  · exact h.called d

/-- A dispatcher goes on to the L2 table. -/
theorem toL2 (h : s.Inv m) {loc : UInt64} (hloc : loc ≠ 0) (l1Slot : ℕ) (hc : s.thread c = .idle) :
    (s.goto c (.walk loc l1Slot (CacheLevel.l2.start loc))).Inv m := by
  refine h.goto_free ?_ id (by simp [hc])
  rw [CacheLevel.start_eq_hash]
  exact ⟨hloc, le_rfl, (hash_lt _ _).le, passed_hash _ _⟩

/-- Each step makes its call on the map. -/
theorem step (h : s.Inv m) (hkey : Nonzero a s) (hstep : Step a s s') :
    ∃ m', Run CodeStep (s.calls a) m m' ∧ s'.Inv m' := by
  -- The steps under the exclusive lock, those of `Lookup`, and those of the dispatchers.
  cases hstep with
  | lock hc hfree =>
    exact ⟨m, .nil m, h.goto ⟨hkey, ⟨le_rfl, .inl rfl⟩, passed_hash _ _⟩ (fun _ d _ => hfree d)
      (fun _ d _ he => hfree d he.locked) (by simp [hc])⟩
  | @pass _ c op i hc hns hi =>
    obtain ⟨hop, hw, hpassed⟩ := h.valid_of_eq hc
    exact ⟨m, .nil m, h.goto_within ⟨hop, ⟨by have := hw.1; omega, .inr hi⟩, hpassed.succ hns⟩
      (fun _ => by rw [hc]; trivial) (by rw [hc]; trivial) (by simp [hc])⟩
  | @stop _ c op i hc hstop hkeep =>
    obtain ⟨hop, hw, hpassed⟩ := h.valid_of_eq hc
    exact ⟨m, .nil m, h.goto_within ⟨hop, ⟨hw, hstop, hpassed⟩, by simp, hkeep⟩
      (fun _ => by rw [hc]; trivial) (by rw [hc]; trivial) (by simp [hc])⟩
  | keep hc hkeep => exact ⟨m, h.keep hc hkeep, h.goto_free trivial id (by simp [hc])⟩
  | storeValue hc => exact h.storeValue hc
  | storeKey hc => exact h.storeKey hc
  | unlock hc =>
    exact ⟨m, .nil m, h.goto_free trivial id (by simp [hc])⟩
  | lockShared hc hfree =>
    exact ⟨m, .nil m, h.goto ⟨hkey, ⟨le_rfl, .inl rfl⟩, passed_hash _ _⟩ False.elim
      (fun _ d _ => hfree d) (by simp [hc])⟩
  | search hc hbody =>
    rcases h.search hc with ⟨j, hb, hvalid⟩ | ⟨done, hb⟩
    · rw [hb] at hbody
      cases hbody
      exact ⟨m, .nil m, h.goto_within hvalid False.elim (by rw [hc]; trivial) (by simp [hc])⟩
    · rw [hb] at hbody
      cases hbody
  | result hc hbody =>
    rcases h.search hc with ⟨j, hb, hvalid⟩ | ⟨done, hb⟩
    · rw [hb] at hbody
      cases hbody
    · refine ⟨m, ?_, h.goto_free trivial id (by simp [hc])⟩
      simp only [calls, hc, hb]
      exact .cons .read (.nil m)
  -- A `Lookup` within its window does not leave the vector.
  | searchFault hc hbody =>
    rcases h.search hc with ⟨j, hb, hvalid⟩ | ⟨done, hb⟩ <;>
    · rw [hb] at hbody
      cases hbody
  | hit hc hwalk =>
    obtain ⟨i, -, ⟨he, -⟩ | ⟨-, -, hloc⟩⟩ := walk_ok hwalk
    · cases he
    · exact ⟨m, .nil m, h.setFrames (List.forall_mem_cons.mpr ⟨hloc, h.called _⟩)⟩
  | @leave _ c frame fs hc hframe =>
    have hcalled := h.called c
    rw [hframe] at hcalled
    exact ⟨m, .nil m, h.setFrames (List.forall_mem_cons.mp hcalled).2⟩
  | @resume _ c loc l1Slot fs hc hframe =>
    have hcalled := h.called c
    rw [hframe, List.forall_mem_cons] at hcalled
    exact ⟨m, .nil m, (h.setFrames hcalled.2).toL2 hcalled.1 l1Slot hc⟩
  | miss hc hwalk => exact ⟨m, .nil m, h.toL2 hkey _ hc⟩
  | round hc hbody =>
    rcases h.walk hc with ⟨hb, hvalid⟩ | ⟨hb, -⟩ | ⟨hb, -⟩ <;> rw [hb] at hbody <;> cases hbody
    exact ⟨m, .nil m, h.goto_free hvalid id (by simp [hc])⟩
  | host hc hbody =>
    rcases h.walk hc with ⟨hb, -⟩ | ⟨hb, hcode⟩ | ⟨hb, -⟩ <;> rw [hb] at hbody <;> cases hbody
    refine ⟨m, ?_, h.goto_free trivial id (by simp [hc])⟩
    simp only [calls, hc, ← hcode]
    exact .cons .read (.nil m)
  | found hc hbody =>
    rcases h.walk hc with ⟨hb, -⟩ | ⟨hb, -⟩ | ⟨hb, hvalid⟩ <;> rw [hb] at hbody <;> cases hbody
    exact ⟨m, .nil m, h.goto_free hvalid id (by simp [hc])⟩
  -- Neither does a walk, which stops at the empty slot behind the last one at the latest.
  | walkFault hc hbody =>
    rcases h.walk hc with ⟨hb, -⟩ | ⟨hb, -⟩ | ⟨hb, -⟩ <;> rw [hb] at hbody <;> cases hbody
  | @load _ c loc l1Slot i hc =>
    refine ⟨m, ?_, (h.fill l1Slot loc _).goto_free trivial id ?_⟩
    · simp only [calls, hc, ← h.load hc]
      exact .cons .read (.nil m)
    · simp [hc]

end Inv

end Inv

end Caches

end SwiftRuntime.Backend
