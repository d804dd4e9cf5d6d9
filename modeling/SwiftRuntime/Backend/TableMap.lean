import SwiftRuntime.Backend.TranslateTable
import Mathlib.Data.Finset.Card
import Mathlib.Data.Finset.Range

/-!
# The translation table refines a finite map

The abstract side is a map from keys to values. The relation between a table and its map is
`Represents`: the entries of the slots are the pairs of the map, and every occupied slot is the one
where the search for its own key stops (`Chained`). The second half is the representation invariant
of linear probing: it says at once that a key has one slot, and that no slot between its home and
that slot is empty.

Writing to the slot where a search stops keeps the invariant (`Chained.set`), which is all that
`Put` and `GetOrPut` do to a table, so each operation keeps `Represents` against its effect on the
map (`Represents.step`), and `lookup_eq_map` follows along a run. `insert_returns_iff` says when an
insertion returns at all.
-/

namespace SwiftRuntime.Backend

/-- The operations on a table. -/
inductive TableOp
  | put (key value : UInt64)
  | getOrPut (key value : UInt64)
  | clear
  | remove (key : UInt64)
deriving DecidableEq, Repr

namespace TableOp

/-- The operation returns and leaves the second table. -/
def Exec {b : ℕ} : TableOp → TranslateTable b → TranslateTable b → Prop
  | put key value, t, t' => ∃ done, t.put key value = .ok (done, t')
  | getOrPut key value, t, t' => ∃ slot, t.getOrPut key value = .ok (slot, t')
  | clear, t, t' => t' = t.clear
  | remove key, t, t' => t.Removes key t'

/-- An insertion of a nonzero key. -/
def Inserts : TableOp → Prop
  | put key _ => key ≠ 0
  | getOrPut key _ => key ≠ 0
  | _ => False

/-- What an operation does to the abstract map. -/
def onMap : TableOp → (UInt64 → Option UInt64) → UInt64 → Option UInt64
  | put key value, m => Function.update m key (some value)
  | getOrPut key value, m =>
    if m key = none ∨ m key = some 0 then Function.update m key (some value) else m
  | clear, _ => fun _ => none
  | remove key, m => Function.update m key none

/-- The abstract map after a run of operations on the empty one. -/
def mapOf (ops : List TableOp) : UInt64 → Option UInt64 :=
  ops.foldl (fun m op => op.onMap m) fun _ => none

end TableOp

namespace TranslateTable

variable {b : ℕ} {t : TranslateTable b} {key : UInt64}

/-- The representation invariant of insertion: every occupied slot is the one where the search for
its key stops. -/
def Chained (t : TranslateTable b) : Prop :=
  ∀ i, i < size b → (t.entry i).key ≠ 0 → t.Probe (t.entry i).key i

/-- Writing a key to the slot where its search stops keeps the invariant. -/
theorem Chained.set {i : ℕ} (h : t.Chained) (hp : t.Probe key i) (hkey : key ≠ 0)
    (value : UInt64) : (t.set i ⟨key, value⟩).Chained := by
  have hi := hp.window.lt
  have hset := t.entry_set (i := i) (by omega) ⟨key, value⟩
  intro j hj hne
  by_cases hji : j = i
  · -- The written slot: nothing before it has changed.
    subst hji
    have hself : ((t.set j ⟨key, value⟩).entry j).key = key := by rw [hset, if_pos rfl]
    rw [hself]
    refine ⟨hp.window, .inr hself, fun l hl hlj hstop => hp.first l hl hlj ?_⟩
    unfold Stop at hstop ⊢
    rwa [hset, if_neg (by omega)] at hstop
  · -- Another slot: the search for its key passes the written slot only if it is after it.
    have hsame : (t.set i ⟨key, value⟩).entry j = t.entry j := by rw [hset, if_neg hji]
    rw [hsame] at hne ⊢
    have hpj := h j hj hne
    refine ⟨hpj.window, ?_, fun l hl hlj hstop => ?_⟩
    · unfold Stop
      rw [hsame]
      exact hpj.stop
    · unfold Stop at hstop
      rw [hset] at hstop
      by_cases hli : l = i
      · rw [if_pos hli] at hstop
        rcases hstop with h0 | hk
        · exact hkey h0
        · rw [← hk] at hpj
          exact hji (hpj.unique hp)
      · rw [if_neg hli] at hstop
        exact hpj.first l hl hlj hstop

/-- Under the invariant `Lookup` finds a key exactly when some slot holds it. -/
theorem Chained.find_eq (h : t.Chained) (hkey : key ≠ 0) {i : ℕ} (hi : i < size b)
    (hk : (t.entry i).key = key) : t.find key = .ok (true, (t.entry i).value) := by
  have hp := h i hi (by rw [hk]; exact hkey)
  rw [hk] at hp
  rw [find_of_probe hp, if_pos hk]

/-- `Lookup` finds nothing when no slot holds the key. -/
theorem find_eq_of_absent (h : ∀ i, i < size b → (t.entry i).key ≠ key) :
    t.find key = .ok (false, 0) := by
  rcases probe_or_full t key with ⟨i, hp⟩ | hfull
  · rw [find_of_probe hp, if_neg (h i hp.window.lt)]
  · exact find_of_full hfull

/-- A table represents a map: the invariant holds, and the slots hold the pairs of the map. -/
structure Represents (t : TranslateTable b) (m : UInt64 → Option UInt64) : Prop where
  /-- The representation invariant. -/
  chained : t.Chained
  /-- The pairs of the map are the entries of the slots. -/
  pairs : ∀ k, k ≠ 0 → ∀ v, m k = some v ↔ ∃ i, i < size b ∧ t.entry i = ⟨k, v⟩

/-- `Lookup` returns the value of the represented map, zero for an absent key. -/
theorem Represents.lookup_eq {m : UInt64 → Option UInt64} (h : t.Represents m) (hkey : key ≠ 0) :
    t.lookup key = .ok ((m key).getD 0) := by
  cases hm : m key with
  | some v =>
    obtain ⟨i, hi, he⟩ := (h.pairs key hkey v).mp hm
    rw [lookup, h.chained.find_eq hkey hi (by rw [he]), he]
    rfl
  | none =>
    have habs : ∀ i, i < size b → (t.entry i).key ≠ key := by
      intro i hi hk
      have := (h.pairs key hkey (t.entry i).value).mpr ⟨i, hi, by rw [← hk]⟩
      rw [hm] at this
      cases this
    rw [lookup, find_eq_of_absent habs]
    rfl

/-- Writing to the slot where the search stops is an update of the represented map. -/
theorem Represents.set {m : UInt64 → Option UInt64} {i : ℕ} (h : t.Represents m)
    (hp : t.Probe key i) (hkey : key ≠ 0) (value : UInt64) :
    (t.set i ⟨key, value⟩).Represents (Function.update m key (some value)) := by
  have hi := hp.window.lt
  have hset := t.entry_set (i := i) (by omega) ⟨key, value⟩
  have hch := h.chained.set hp hkey value
  refine ⟨hch, fun k hk v => ?_⟩
  by_cases hkk : k = key
  · -- The written key: its only slot is the written one.
    subst hkk
    rw [Function.update_self, Option.some.injEq]
    constructor
    · rintro rfl
      exact ⟨i, hi, by rw [hset, if_pos rfl]⟩
    · rintro ⟨j, hj, he⟩
      have hpj := hch j hj (by rw [he]; exact hk)
      have hpi := hch i hi (by rw [hset, if_pos rfl]; exact hk)
      rw [he] at hpj
      rw [hset, if_pos rfl] at hpi
      obtain rfl := hpj.unique hpi
      rw [hset, if_pos rfl] at he
      exact (TranslateEntry.mk.inj he).2
  · -- Another key: it was not in the written slot, and is not in it now.
    rw [Function.update_of_ne hkk, h.pairs k hk v]
    constructor
    · rintro ⟨j, hj, he⟩
      have hji : j ≠ i := by
        rintro rfl
        have hstop := hp.stop
        unfold Stop at hstop
        rw [he] at hstop
        exact hstop.elim hk hkk
      exact ⟨j, hj, by rw [hset, if_neg hji, he]⟩
    · rintro ⟨j, hj, he⟩
      rw [hset] at he
      split_ifs at he with hji
      · exact absurd (TranslateEntry.mk.inj he).1 (Ne.symm hkk)
      · exact ⟨j, hj, he⟩

/-- A table without keys represents the empty map. -/
theorem represents_empty (h : ∀ i, i < size b → (t.entry i).key = 0) :
    t.Represents fun _ => none := by
  refine ⟨fun i hi hne => absurd (h i hi) hne, fun k hk v => ?_⟩
  constructor
  · intro hm
    cases hm
  · rintro ⟨i, hi, he⟩
    have := h i hi
    rw [he] at this
    exact absurd this hk

/-- The entries of a constructed table: zero, except for the end mark in the last one. -/
theorem entry_construct {t0 : TranslateTable b} (h : construct b = some t0) (i : ℕ) :
    t0.entry i = if i = size b + 9 then ⟨-1, 0⟩ else ⟨0, 0⟩ := by
  have hzero : ∀ j, (⟨fun _ => ⟨0, 0⟩⟩ : TranslateTable b).entry j = ⟨0, 0⟩ := by
    intro j
    simp [entry]
  unfold construct at h
  split_ifs at h
  cases h
  rw [reset, entry_set _ (by omega), hzero, hzero]

/-- An insertion or `Clear` does to the table what it does to the map. -/
theorem Represents.step {m : UInt64 → Option UInt64} {op : TableOp} {t' : TranslateTable b}
    (h : t.Represents m) (hop : op.Inserts ∨ op = .clear) (hexec : op.Exec t t') :
    t'.Represents (op.onMap m) := by
  cases op with
  | put key value =>
    have hkey : key ≠ 0 := by simpa [TableOp.Inserts] using hop
    obtain ⟨done, hput⟩ := hexec
    obtain ⟨i, hp, hr⟩ := probe_of_put hput
    rw [(Prod.mk.inj hr).2]
    exact h.set hp hkey value
  | getOrPut key value =>
    have hkey : key ≠ 0 := by simpa [TableOp.Inserts] using hop
    obtain ⟨slot, hput⟩ := hexec
    obtain ⟨i, hp, hr⟩ := probe_of_getOrPut hput
    rw [(Prod.mk.inj hr).2]
    -- The slot holds the key with a nonzero value exactly when the map has one for it.
    have hiff : ((t.entry i).key = key ∧ (t.entry i).value ≠ 0) ↔
        ¬ (m key = none ∨ m key = some 0) := by
      have hlook := h.lookup_eq hkey
      rw [lookup, find_of_probe hp] at hlook
      have hval := Except.ok.inj hlook
      cases hm : m key with
      | none =>
        rw [hm] at hval
        by_cases hk : (t.entry i).key = key
        · rw [if_pos hk] at hval
          simpa [hk] using hval
        · simp [hk]
      | some v =>
        obtain ⟨j, hj, he⟩ := (h.pairs key hkey v).mp hm
        have hpj := h.chained j hj (by rw [he]; exact hkey)
        rw [he] at hpj
        obtain rfl := hp.unique hpj
        simp [he]
    rw [TableOp.onMap]
    by_cases hc : m key = none ∨ m key = some 0
    · rw [if_neg (by rw [hiff]; exact not_not.mpr hc), if_pos hc]
      exact h.set hp hkey value
    · rw [if_pos (hiff.mpr hc), if_neg hc]
      exact h
  | clear =>
    cases hexec
    exact represents_empty fun i _ => by simp [clear, entry]
  | remove key => simp [TableOp.Inserts] at hop

/-- A run of such calls on a constructed table leaves the abstract map of the calls. -/
theorem represents_of_run {t0 : TranslateTable b} (h0 : construct b = some t0) {ops : List TableOp}
    (hops : ∀ op ∈ ops, op.Inserts ∨ op = .clear) (hrun : Run TableOp.Exec ops t0 t) :
    t.Represents (TableOp.mapOf ops) := by
  have hempty : t0.Represents fun _ => none := by
    refine represents_empty fun i hi => ?_
    rw [entry_construct h0, if_neg (by omega)]
  exact hrun.simulation Represents TableOp.onMap
    (fun op hop s s' m hexec hs => hs.step (hops op hop) hexec) hempty

/-- The table refines a finite map: after any run of `Put`, `GetOrPut` and `Clear` with nonzero
keys on a constructed table, in which no call aborts, `Lookup` returns the value of the abstract
map, every key has at most one slot, and no slot from a key's home to its slot is empty. -/
theorem lookup_eq_map {t0 : TranslateTable b} (h0 : construct b = some t0) {ops : List TableOp}
    (hops : ∀ op ∈ ops, op.Inserts ∨ op = .clear) (hrun : Run TableOp.Exec ops t0 t) :
    (∀ k, k ≠ 0 → t.lookup k = .ok ((TableOp.mapOf ops k).getD 0)) ∧
      (∀ i j, i < size b → j < size b → (t.entry i).key ≠ 0 →
        (t.entry i).key = (t.entry j).key → i = j) ∧
      (∀ i, i < size b → (t.entry i).key ≠ 0 → hash b (t.entry i).key ≤ i ∧
        ∀ j, hash b (t.entry i).key ≤ j → j < i → (t.entry j).key ≠ 0) := by
  have hrep := represents_of_run h0 hops hrun
  -- The values, one slot for each key, and no gap on the way to it.
  refine ⟨fun k hk => hrep.lookup_eq hk, ?_, ?_⟩
  · intro i j hi hj hne heq
    have hpi := hrep.chained i hi hne
    have hpj := hrep.chained j hj (by rw [← heq]; exact hne)
    rw [heq] at hpi
    exact hpi.unique hpj
  · intro i hi hne
    have hp := hrep.chained i hi hne
    exact ⟨hp.window.1, fun j hj hji h0 => hp.first j hj hji (.inl h0)⟩

/-- Two keys with one home slot: the second is displaced, and both are found. -/
theorem lookup_eq_map_collision :
    ∃ t0 t : TranslateTable 4, construct 4 = some t0 ∧
      Run TableOp.Exec [.put 4 7, .getOrPut 64 9] t0 t ∧ hash 4 4 = hash 4 64 ∧
      t.lookup 4 = .ok 7 ∧ t.lookup 64 = .ok 9 := by
  have hrun : Run TableOp.Exec [.put 4 7, .getOrPut 64 9] (reset ⟨fun _ => ⟨0, 0⟩⟩)
      (((reset ⟨fun _ => ⟨0, 0⟩⟩ : TranslateTable 4).set 1 ⟨4, 7⟩).set 2 ⟨64, 9⟩) :=
    .cons ⟨true, rfl⟩ (.cons ⟨5, rfl⟩ (.nil _))
  have hlook := (lookup_eq_map (b := 4) rfl
    (by intro op hop; simp at hop; rcases hop with rfl | rfl <;> simp [TableOp.Inserts]) hrun).1
  exact ⟨_, _, rfl, hrun, rfl, hlook 4 (by decide), hlook 64 (by decide)⟩

/-! ## Whether an insertion returns -/

/-- The keys that the slots of a table hold. -/
def keys (t : TranslateTable b) : Finset UInt64 :=
  ((Finset.range (size b)).image fun i => (t.entry i).key).erase 0

/-- `Put` and `GetOrPut` return instead of aborting if and only if some slot of the key's window is
empty or holds the key, however many keys the table holds. -/
theorem insert_returns_iff (t : TranslateTable b) (key value : UInt64) :
    ((∃ r, t.put key value = .ok r) ∧ ∃ r, t.getOrPut key value = .ok r) ↔
      ∃ i, Window b key i ∧ t.Stop key i := by
  constructor
  · rintro ⟨⟨r, hr⟩, -⟩
    obtain ⟨i, hp, -⟩ := probe_of_put hr
    exact ⟨i, hp.window, hp.stop⟩
  · rintro ⟨i, hw, hs⟩
    rcases probe_or_full t key with ⟨j, hp⟩ | hfull
    · exact ⟨⟨_, put_of_probe hp value⟩, _, getOrPut_of_probe hp value⟩
    · exact absurd hs (hfull i hw)

/-- A table with a single key aborts on the next one: both have the last slot as their home, and a
search may not leave it. -/
theorem insert_aborts :
    ¬ ∀ (b : ℕ) (t0 t : TranslateTable b) (ops : List TableOp), 4 ≤ b → construct b = some t0 →
      (∀ op ∈ ops, op.Inserts) → Run TableOp.Exec ops t0 t → t.keys.card ≤ size b / 2 →
      ∀ key value, key ≠ 0 →
        (∃ r, t.put key value = .ok r) ∧ ∃ r, t.getOrPut key value = .ok r := by
  intro h
  have hrun : Run TableOp.Exec [.put 60 7] (reset ⟨fun _ => ⟨0, 0⟩⟩)
      ((reset ⟨fun _ => ⟨0, 0⟩⟩ : TranslateTable 4).set 15 ⟨60, 7⟩) := .cons ⟨true, rfl⟩ (.nil _)
  obtain ⟨⟨r, hr⟩, -⟩ := h 4 _ _ _ le_rfl rfl (by simp [TableOp.Inserts]) hrun (by decide) 120 9
    (by decide)
  have habort : (Except.error .abort : Except Fault (Bool × TranslateTable 4)) = .ok r := hr
  cases habort

end TranslateTable

end SwiftRuntime.Backend
