import SwiftRuntime.Effect
import SwiftRuntime.Backend.Handles

/-!
# `Replace` and the lock of the table

`Put`, `GetOrPut` and `Replace` hold the table's `std::shared_mutex` exclusively while they work. It
is not recursive: a thread that asks for it while it holds it waits for ever. `Replace` searches
like `Lookup` and overwrites the value it finds, which is what `Put` does. When it finds nothing it
calls `Put` with the lock still held. So `Replace` does what `Put` does exactly for the keys that
the table has (`replace_eq_put_iff`).

The operations run in `EStateM` over a table with its lock; asking for a lock that is held stops
with `endless`.
-/

namespace SwiftRuntime.Backend

/-- A table with its lock. -/
structure LockedTable (b : ℕ) where
  /-- The table. -/
  table : TranslateTable b
  /-- Whether the lock is held exclusively. -/
  held : Bool

/-- Code of one thread that works on a table with its lock. -/
abbrev TableM (b : ℕ) := EStateM Fault (LockedTable b)

section Code

variable {b : ℕ} {α : Type}

/-- The scope of a `std::unique_lock` on the table's lock. -/
def withLock (x : TableM b α) : TableM b α := do
  let s ← get
  require (s.held = false) .endless
  modify fun s => { s with held := true }
  let a ← x
  modify fun s => { s with held := false }
  return a

/-- An operation on the table, without the lock. -/
def onTable (op : TranslateTable b → Except Fault (α × TranslateTable b)) : TableM b α := do
  let s ← get
  let (a, t) ← ofExcept (op s.table)
  modify fun s => { s with table := t }
  return a

/-- `Put` with its lock. -/
def lockedPut (key value : UInt64) : TableM b Bool := withLock (onTable fun t => t.put key value)

/-- `GetOrPut` with its lock. -/
def lockedGetOrPut (key value : UInt64) : TableM b ℕ :=
  withLock (onTable fun t => t.getOrPut key value)

/-- One pass of the loop of `Replace`, with the index of the entry whose value `entry` points to
when it is left. -/
def TranslateTable.replaceBody (t : TranslateTable b) (key : UInt64) (index : ℕ) :
    ℕ ⊕ Except Fault (Option ℕ) :=
  if index < size b + 10 then
    if (t.entry index).key = key then .inr (.ok (some index))
    else if index + 1 < size b - 1 ∧ (t.entry index).key ≠ 0 then .inl (index + 1)
    else .inr (.ok none)
  else .inr (.error .outOfBounds)

/-- The loop of `Replace`. -/
def TranslateTable.replaceFind (t : TranslateTable b) (key : UInt64) : Except Fault (Option ℕ) :=
  (iterate (t.replaceBody key) (size b) (TranslateTable.hash b key)).getD (.error .endless)

/-- `Replace`. -/
def lockedReplace (key value : UInt64) : TableM b Unit :=
  withLock do
    let s ← get
    match ← ofExcept (s.table.replaceFind key) with
    | some i =>
      modify fun s => { s with table := s.table.set i ⟨(s.table.entry i).key, value⟩ }
    | none =>
      -- The guard of `Replace` is still alive.
      let _ ← lockedPut key value
      return ()

end Code

/-- The operations with the lock that store a value. -/
inductive StoreOp
  | put (key value : UInt64)
  | getOrPut (key value : UInt64)
  | replace (key value : UInt64)
deriving DecidableEq, Repr

namespace StoreOp

/-- The key of an operation. -/
def key : StoreOp → UInt64
  | put key _ | getOrPut key _ | replace key _ => key

/-- The operation returns. -/
def Exec {b : ℕ} : StoreOp → LockedTable b → LockedTable b → Prop
  | put key value, s, s' => ∃ done, lockedPut key value s = .ok done s'
  | getOrPut key value, s, s' => ∃ slot, lockedGetOrPut key value s = .ok slot s'
  | replace key value, s, s' => lockedReplace key value s = .ok () s'

end StoreOp

section Spec

variable {b : ℕ} {α : Type} {s s' : LockedTable b} {key value : UInt64}

/-- A scope with the lock returns when the lock is free and its contents return. It leaves the lock
free. -/
theorem withLock_ok_iff {x : TableM b α} {a : α} :
    withLock x s = .ok a s' ↔ s.held = false ∧
      ∃ r, x { s with held := true } = .ok a r ∧ s' = { r with held := false } := by
  simp only [withLock, bind_ok_iff, get_ok_iff, require_ok_iff, modify_ok_iff, pure_ok_iff]
  constructor
  · rintro ⟨_, _, ⟨rfl, rfl⟩, ⟨⟩, _, ⟨hfree, rfl⟩, ⟨⟩, _, rfl, a, r, hx, ⟨⟩, _, rfl, rfl, rfl⟩
    exact ⟨hfree, r, hx, rfl⟩
  · rintro ⟨hfree, r, hx, rfl⟩
    exact ⟨s, s, ⟨rfl, rfl⟩, (), s, ⟨hfree, rfl⟩, (), _, rfl, a, r, hx, (), _, rfl, rfl, rfl⟩

/-- An operation on the table leaves the lock alone. -/
theorem onTable_ok_iff {op : TranslateTable b → Except Fault (α × TranslateTable b)} {a : α} :
    onTable op s = .ok a s' ↔ ∃ t, op s.table = .ok (a, t) ∧ s' = { s with table := t } := by
  simp only [onTable, bind_ok_iff, get_ok_iff, ofExcept_ok_iff, modify_ok_iff, pure_ok_iff]
  constructor
  · rintro ⟨_, _, ⟨rfl, rfl⟩, ⟨a, t⟩, _, ⟨hop, rfl⟩, ⟨⟩, _, rfl, rfl, rfl⟩
    exact ⟨t, hop, rfl⟩
  · rintro ⟨t, hop, rfl⟩
    exact ⟨s, s, ⟨rfl, rfl⟩, (a, t), s, ⟨hop, rfl⟩, (), _, rfl, rfl, rfl⟩

/-- An operation with its lock returns when the lock is free and the operation returns. -/
theorem withLock_onTable_ok_iff {op : TranslateTable b → Except Fault (α × TranslateTable b)}
    {a : α} :
    withLock (onTable op) s = .ok a s' ↔
      s.held = false ∧ ∃ t, op s.table = .ok (a, t) ∧ s' = ⟨t, false⟩ := by
  rw [withLock_ok_iff]
  refine and_congr_right fun _ => ?_
  constructor
  · rintro ⟨r, hx, rfl⟩
    obtain ⟨t, hop, rfl⟩ := onTable_ok_iff.mp hx
    exact ⟨t, hop, rfl⟩
  · rintro ⟨t, hop, rfl⟩
    exact ⟨_, onTable_ok_iff.mpr ⟨t, hop, rfl⟩, rfl⟩

/-- The search of `Replace` goes on from a slot with another key. -/
theorem TranslateTable.replaceBody_of_not_stop {t : TranslateTable b} {j : ℕ}
    (hj : j + 1 < size b - 1) (hns : ¬ t.Stop key j) : t.replaceBody key j = .inl (j + 1) := by
  unfold Stop at hns
  push Not at hns
  rw [replaceBody, if_pos (by omega), if_neg hns.2, if_pos ⟨hj, hns.1⟩]

/-- The search of `Replace` finds the key when the slot where the search stops holds it. -/
theorem TranslateTable.replaceFind_of_probe {t : TranslateTable b} {i : ℕ} (h : t.Probe key i) :
    t.replaceFind key = .ok (if (t.entry i).key = key then some i else none) := by
  have hi := h.window.lt
  have hstop := h.stop
  unfold Stop at hstop
  rw [replaceFind, iterate_of_probe h fun j => replaceBody_of_not_stop]
  · rfl
  · rw [replaceBody, if_pos (by omega)]
    by_cases hk : (t.entry i).key = key
    · rw [if_pos hk, if_pos hk]
    · rw [if_neg hk, if_neg hk, if_neg (by tauto)]

/-- It finds nothing when the window is occupied by other keys. -/
theorem TranslateTable.replaceFind_of_full {t : TranslateTable b}
    (h : ∀ i, Window b key i → ¬ t.Stop key i) : t.replaceFind key = .ok none := by
  rw [replaceFind, iterate_of_full h (r := .ok none) fun j => replaceBody_of_not_stop]
  · rfl
  · intro i hi hlast hns
    unfold Stop at hns
    push Not at hns
    rw [replaceBody, if_pos (by omega), if_neg hns.2, if_neg (by omega)]

/-- The slot that the search of `Replace` finds. -/
theorem TranslateTable.replaceFind_eq_some_iff {t : TranslateTable b} {i : ℕ} :
    t.replaceFind key = .ok (some i) ↔ t.Probe key i ∧ (t.entry i).key = key := by
  -- The search stops at a slot, which has the key or not, or finds its window full.
  rcases probe_or_full t key with ⟨j, hp⟩ | hfull
  · rw [replaceFind_of_probe hp]
    constructor
    · intro h
      split_ifs at h with hk
      · obtain rfl : j = i := Option.some.inj (Except.ok.inj h)
        exact ⟨hp, hk⟩
      · cases h
    · rintro ⟨hi, hk⟩
      obtain rfl := hi.unique hp
      rw [if_pos hk]
  · rw [replaceFind_of_full hfull]
    constructor
    · intro h
      cases h
    · rintro ⟨hi, -⟩
      exact absurd hi.stop (hfull i hi.window)

/-- `Replace` returns when the lock is free and the search finds the key, and has overwritten its
value. -/
theorem lockedReplace_ok_iff :
    lockedReplace key value s = .ok () s' ↔ s.held = false ∧
      ∃ i, s.table.replaceFind key = .ok (some i) ∧
        s' = ⟨s.table.set i ⟨(s.table.entry i).key, value⟩, false⟩ := by
  rw [lockedReplace, withLock_ok_iff]
  refine and_congr_right fun _ => ?_
  simp only [bind_ok_iff, get_ok_iff, ofExcept_ok_iff]
  constructor
  · rintro ⟨r, ⟨_, _, ⟨rfl, rfl⟩, found, _, ⟨hfind, rfl⟩, hrest⟩, rfl⟩
    cases found with
    | some i =>
      obtain rfl := modify_ok_iff.mp hrest
      exact ⟨i, hfind, rfl⟩
    | none =>
      -- `Put` does not get the lock.
      obtain ⟨done, r', hput, -⟩ := bind_ok_iff.mp hrest
      exact absurd (withLock_ok_iff.mp hput).1 (by simp)
  · rintro ⟨i, hfind, rfl⟩
    exact ⟨_, ⟨_, _, ⟨rfl, rfl⟩, some i, _, ⟨hfind, rfl⟩, modify_ok_iff.mpr rfl⟩, rfl⟩

end Spec

namespace TranslateTable

variable {b : ℕ} {s s' : LockedTable b} {key value : UInt64}

/-- What holds between the operations: the representation invariant, and the lock is free. -/
structure Idle (s : LockedTable b) : Prop where
  /-- The representation invariant. -/
  chained : s.table.Chained
  /-- The lock is free. -/
  free : s.held = false

/-- An operation that returns keeps it. -/
theorem Idle.step {op : StoreOp} (h : Idle s) (hkey : op.key ≠ 0) (hexec : op.Exec s s') :
    Idle s' := by
  -- Each operation gives the lock back, and keeps the chains.
  cases op with
  | put key value =>
    obtain ⟨done, hput⟩ := hexec
    obtain ⟨-, t, hok, rfl⟩ := withLock_onTable_ok_iff.mp hput
    have hins : s.table.Inserted t := inserted_of_exec (.put key value) hkey ⟨done, hok⟩
    exact ⟨hins.chained h.chained, rfl⟩
  | getOrPut key value =>
    obtain ⟨slot, hget⟩ := hexec
    obtain ⟨-, t, hok, rfl⟩ := withLock_onTable_ok_iff.mp hget
    have hins : s.table.Inserted t := inserted_of_exec (.getOrPut key value) hkey ⟨slot, hok⟩
    exact ⟨hins.chained h.chained, rfl⟩
  | replace key value =>
    obtain ⟨-, i, hfind, rfl⟩ := lockedReplace_ok_iff.mp hexec
    obtain ⟨hp, hk⟩ := replaceFind_eq_some_iff.mp hfind
    refine ⟨?_, rfl⟩
    rw [hk]
    exact h.chained.set hp hkey value

/-- After any run of the operations with nonzero keys on a constructed table, and for a nonzero key
and a value that `Put` stores: `Replace` returns with the entries that `Put` leaves and the lock
free if and only if the table has the key. -/
theorem replace_eq_put_iff {t0 : TranslateTable b} (h0 : construct b = some t0) {ops : List StoreOp}
    (hops : ∀ op ∈ ops, op.key ≠ 0) (hrun : Run StoreOp.Exec ops ⟨t0, false⟩ s) (hkey : key ≠ 0)
    (hput : (StoreOp.put key value).Exec s s') :
    (∃ r, lockedReplace key value s = .ok () r ∧ r.table.entries = s'.table.entries ∧
        r.held = false) ↔
      ∃ i, i < size b ∧ (s.table.entry i).key = key := by
  have hidle : Idle s := Run.invariant Idle hrun
    (fun op hop _ _ hexec hs => hs.step (hops op hop) hexec) ⟨chained_construct h0, rfl⟩
  obtain ⟨done, hput⟩ := hput
  obtain ⟨-, t, hok, rfl⟩ := withLock_onTable_ok_iff.mp hput
  obtain ⟨i, hp, hr⟩ := probe_of_put hok
  obtain ⟨-, rfl⟩ := Prod.mk.inj hr
  constructor
  · rintro ⟨r, hreplace, -, -⟩
    obtain ⟨-, j, hfind, -⟩ := lockedReplace_ok_iff.mp hreplace
    obtain ⟨hpj, hk⟩ := replaceFind_eq_some_iff.mp hfind
    exact ⟨j, hpj.window.lt, hk⟩
  · rintro ⟨j, hj, hk⟩
    -- The key is in the slot where the search for it stops, which `Put` writes to.
    have hpj := hidle.chained j hj (by rw [hk]; exact hkey)
    rw [hk] at hpj
    obtain rfl := hpj.unique hp
    refine ⟨_, lockedReplace_ok_iff.mpr ⟨hidle.free, j, replaceFind_eq_some_iff.mpr ⟨hp, hk⟩, rfl⟩,
      ?_, rfl⟩
    rw [hk]

/-- A displaced key is replaced. -/
theorem replace_eq_put_displaced :
    ∃ s s' : LockedTable 4,
      Run StoreOp.Exec [.put 4 7, .getOrPut 64 9] ⟨reset ⟨fun _ => ⟨0, 0⟩⟩, false⟩ s ∧
      (StoreOp.put 64 8).Exec s s' ∧
      ∃ r, lockedReplace 64 8 s = .ok () r ∧ r.table.entries = s'.table.entries ∧
        r.held = false := by
  have hrun : Run StoreOp.Exec [.put 4 7, .getOrPut 64 9] ⟨reset ⟨fun _ => ⟨0, 0⟩⟩, false⟩
      (⟨((reset ⟨fun _ => ⟨0, 0⟩⟩).set 1 ⟨4, 7⟩).set 2 ⟨64, 9⟩, false⟩ : LockedTable 4) :=
    .cons ⟨true, rfl⟩ (.cons ⟨5, rfl⟩ (.nil _))
  have hput : (StoreOp.put 64 8).Exec
      (⟨((reset ⟨fun _ => ⟨0, 0⟩⟩).set 1 ⟨4, 7⟩).set 2 ⟨64, 9⟩, false⟩ : LockedTable 4)
      ⟨(((reset ⟨fun _ => ⟨0, 0⟩⟩).set 1 ⟨4, 7⟩).set 2 ⟨64, 9⟩).set 2 ⟨64, 8⟩, false⟩ :=
    ⟨true, rfl⟩
  exact ⟨_, _, hrun, hput, (replace_eq_put_iff (b := 4) rfl (by decide) hrun (by decide) hput).mpr
    ⟨2, by decide, by decide⟩⟩

/-- `Replace` of a key that an empty table does not have waits for the lock that it holds. -/
theorem replace_endless :
    ¬ ∀ (b : ℕ) (t0 : TranslateTable b) (ops : List StoreOp) (s s' : LockedTable b)
      (key value : UInt64), construct b = some t0 → (∀ op ∈ ops, op.key ≠ 0) →
      Run StoreOp.Exec ops ⟨t0, false⟩ s → key ≠ 0 → (StoreOp.put key value).Exec s s' →
      ∃ r, lockedReplace key value s = .ok () r ∧ r.table.entries = s'.table.entries ∧
        r.held = false := by
  intro h
  obtain ⟨r, hr, -⟩ := h 4 _ [] _ ⟨(reset ⟨fun _ => ⟨0, 0⟩⟩).set 1 ⟨4, 7⟩, false⟩ 4 7 rfl (by simp)
    (.nil _) (by decide) ⟨true, rfl⟩
  have hend : (EStateM.Result.error .endless ⟨reset ⟨fun _ => ⟨0, 0⟩⟩, true⟩ :
      EStateM.Result Fault (LockedTable 4) Unit) = .ok () r := hr
  cases hend

end TranslateTable

end SwiftRuntime.Backend
