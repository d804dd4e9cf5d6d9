import SwiftRuntime.Backend.TableMap

/-!
# What `Remove` does

`Remove` starts at the key's home slot like the other searches, but goes on to `(index + 1) & size`:
slot zero, or, from the last slot, the first entry after the slots. So it sees the home slot and at
most one entry that has nothing to do with the key, and a slot zero that holds another key keeps it
there for ever. It empties the slot it finds without a mark, so a search that went past the slot now
ends in it.

`removes_iff` says what `Remove` returns, on the tables that insertions and removals reach. There
the chains of `Chained` are broken, but a key is still never before its home slot (`Homed`).
`remove_returns_iff` is the exact condition for the loop to end.
`removeExact_iff` is the exact condition, on the table before the call, under which `Remove` removes
its key and nothing else.
-/

namespace SwiftRuntime.Backend.TranslateTable

variable {b : ℕ} {t t' : TranslateTable b} {key : UInt64}

/-- What removals keep of the representation invariant: a key is in the window of its search, and
the entries between the slots and the last entry are empty. -/
structure Homed (t : TranslateTable b) : Prop where
  /-- A key is in its window. -/
  window : ∀ i, i < size b → (t.entry i).key ≠ 0 → Window b (t.entry i).key i
  /-- The entries after the slots, except the last one, are empty. -/
  tail : ∀ i, size b ≤ i → i < size b + 9 → (t.entry i).key = 0

/-- A constructed table has no keys. -/
theorem homed_construct {t0 : TranslateTable b} (h : construct b = some t0) : t0.Homed := by
  refine ⟨fun i hi hne => ?_, fun i hi hi' => ?_⟩
  · rw [entry_construct h, if_neg (by omega)] at hne
    exact absurd rfl hne
  · rw [entry_construct h, if_neg (by omega)]

/-- Writing a key to a slot of its window keeps `Homed`. -/
theorem Homed.set {i : ℕ} (h : t.Homed) (hw : Window b key i) (value : UInt64) :
    (t.set i ⟨key, value⟩).Homed := by
  have hi := hw.lt
  have hset := t.entry_set (i := i) (by omega) ⟨key, value⟩
  refine ⟨fun j hj hne => ?_, fun j hj hj' => ?_⟩
  · rw [hset] at hne ⊢
    split_ifs at hne ⊢ with hji
    · rw [hji]
      exact hw
    · exact h.window j hj hne
  · rw [hset, if_neg (by omega)]
    exact h.tail j hj hj'

/-- Emptying an entry keeps `Homed`. -/
theorem Homed.empty {i : ℕ} (h : t.Homed) (hi : i < size b + 10) (value : UInt64) :
    (t.set i ⟨0, value⟩).Homed := by
  have hset := t.entry_set hi ⟨0, value⟩
  refine ⟨fun j hj hne => ?_, fun j hj hj' => ?_⟩
  · rw [hset] at hne ⊢
    split_ifs at hne ⊢ with hji
    · exact absurd rfl hne
    · exact h.window j hj hne
  · rw [hset]
    split_ifs
    · rfl
    · exact h.tail j hj hj'

/-- The next index of `Remove` from a slot that is not the last: slot zero. -/
theorem and_size_of_lt {i : ℕ} (h : i + 1 < size b) : (i + 1) &&& size b = 0 := by
  unfold size at *
  rw [Nat.and_two_pow, Nat.testBit_lt_two_pow h]
  simp

/-- The next index of `Remove` from the last slot: the first entry after the slots. -/
theorem and_size_of_last {i : ℕ} (h : i + 1 = size b) : (i + 1) &&& size b = size b := by
  rw [h, Nat.and_self]

/-- The table on which `Remove` goes round for ever: the home slot holds another key, the next
index is slot zero and not the end, and slot zero holds a key. -/
def Stuck (t : TranslateTable b) (key : UInt64) : Prop :=
  (t.entry (hash b key)).key ≠ 0 ∧ hash b key ≠ size b - 1 ∧ hash b key ≠ 1 ∧ (t.entry 0).key ≠ 0

section Pass

variable {l i n : ℕ} (hi : i < size b + 10)
include hi

/-- A pass at the key empties its entry. -/
theorem removeBody_of_found (hk : (t.entry i).key = key) :
    t.removeBody key l i = .inr (.ok (t.set i ⟨0, (t.entry i).value⟩)) := by
  rw [removeBody, if_pos hi, if_pos hk]

/-- A pass at an empty entry leaves the loop. -/
theorem removeBody_of_empty (hkey : key ≠ 0) (hz : (t.entry i).key = 0) :
    t.removeBody key l i = .inr (.ok t) := by
  rw [removeBody, if_pos hi, if_neg (by rw [hz]; exact hkey.symm)]
  simp [hz]

/-- A pass at another key goes on, unless the next index is the end. -/
theorem removeBody_of_other (hk : (t.entry i).key ≠ key) (hz : (t.entry i).key ≠ 0)
    (hnext : (i + 1) &&& size b = n) :
    t.removeBody key l i = if n ≠ l then .inl n else .inr (.ok t) := by
  rw [removeBody, if_pos hi, if_neg hk]
  simp [hz, hnext]

end Pass

/-- What `Remove` returns: the table with the home slot emptied when that holds the key, and the
table unchanged otherwise, unless it does not return. -/
theorem removes_iff (hb : b ≤ 30) (h : t.Homed) (hkey : key ≠ 0) :
    t.Removes key t' ↔
      ((t.entry (hash b key)).key = key ∧
        t' = t.set (hash b key) ⟨0, (t.entry (hash b key)).value⟩) ∨
      ((t.entry (hash b key)).key ≠ key ∧ ¬ t.Stuck key ∧ t' = t) := by
  have hlt := hash_lt b key
  have hhome : hash b key < size b + 10 := by omega
  have hsz : size b ≤ 2 ^ 30 := Nat.pow_le_pow_right (by norm_num) hb
  have hend : removeEnd b key = if hash b key = 0 then 2 ^ 32 - 1 else hash b key - 1 := by
    unfold removeEnd
    split_ifs <;> omega
  unfold Removes
  generalize removeEnd b key = last at hend
  by_cases hk : (t.entry (hash b key)).key = key
  · -- The home slot holds the key.
    rw [returns_iff_of_inr (removeBody_of_found hhome hk)]
    simp [hk]
  -- Otherwise the table is unchanged, unless the loop is endless.
  have hunch : ¬ t.Stuck key → (((t.entry (hash b key)).key = key ∧
        t' = t.set (hash b key) ⟨0, (t.entry (hash b key)).value⟩) ∨
      ((t.entry (hash b key)).key ≠ key ∧ ¬ t.Stuck key ∧ t' = t) ↔
        (Except.ok t' : Except Fault (TranslateTable b)) = .ok t) := by
    intro hns
    rw [Except.ok.injEq]
    tauto
  by_cases h0 : (t.entry (hash b key)).key = 0
  · -- The home slot is empty.
    rw [returns_iff_of_inr (removeBody_of_empty hhome hkey h0), hunch fun hs => hs.1 h0]
  by_cases hl : hash b key = size b - 1
  · -- The home slot is the last one: the entry after it is empty.
    have hnext := and_size_of_last (b := b) (i := hash b key) (by omega)
    have hgo := removeBody_of_other (l := last) hhome hk h0 hnext
    rw [if_pos (by rw [hend]; split_ifs <;> omega)] at hgo
    have hstop := removeBody_of_empty (l := last) (by omega) hkey
      (h.tail (size b) le_rfl (by omega))
    rw [returns_iff_of_inl hgo, returns_iff_of_inr hstop, hunch fun hs => hs.2.1 hl]
  have hgo := removeBody_of_other (l := last) hhome hk h0 (and_size_of_lt (by omega))
  by_cases h1 : hash b key = 1
  · -- The next index, slot zero, is the end.
    rw [if_neg (by rw [hend, if_neg (by omega)]; omega)] at hgo
    rw [returns_iff_of_inr hgo, hunch fun hs => hs.2.2.1 h1]
  · -- The next index is slot zero, which is not the end.
    have hne : (0 : ℕ) ≠ last := by rw [hend]; split_ifs <;> omega
    rw [if_pos hne] at hgo
    rw [returns_iff_of_inl hgo]
    by_cases hz : (t.entry 0).key = 0
    · rw [returns_iff_of_inr (removeBody_of_empty (by omega) hkey hz), hunch fun hs => hs.2.2.2 hz]
    · -- Slot zero holds only keys whose home it is, and the next index after it is slot zero again.
      have hk0 : (t.entry 0).key ≠ key := by
        intro he
        by_cases hh : hash b key = 0
        · rw [hh] at hk
          exact hk he
        · have := (h.window 0 (size_pos b) (by rw [he]; exact hkey)).1
          rw [he] at this
          omega
      have hround := removeBody_of_other (l := last) (by omega) hk0 hz (and_size_of_lt (by omega))
      rw [if_pos hne] at hround
      have hdiv : Diverges (t.removeBody key last) 0 :=
        diverges_of_invariant (fun i => i = 0) (fun i hi => ⟨0, by rw [hi, hround], rfl⟩) rfl
      have hs : t.Stuck key := ⟨h0, hl, h1, hz⟩
      simp [hdiv.not_returns, hk, hs]

/-- Every operation with nonzero keys keeps `Homed`. -/
theorem Homed.step {op : TableOp} (hb : b ≤ 30) (h : t.Homed)
    (hop : op.Inserts ∨ ∃ k, k ≠ 0 ∧ op = .remove k) (hexec : op.Exec t t') : t'.Homed := by
  -- The insertions write to the window of their key, and a removal empties the home slot or
  -- nothing.
  cases op with
  | put key value =>
    obtain ⟨done, hput⟩ := hexec
    obtain ⟨i, hp, hr⟩ := probe_of_put hput
    rw [(Prod.mk.inj hr).2]
    exact h.set hp.window value
  | getOrPut key value =>
    obtain ⟨slot, hput⟩ := hexec
    obtain ⟨i, hp, hr⟩ := probe_of_getOrPut hput
    rw [(Prod.mk.inj hr).2]
    split_ifs
    · exact h
    · exact h.set hp.window value
  | clear => simp [TableOp.Inserts] at hop
  | remove key =>
    have hkey : key ≠ 0 := by simpa [TableOp.Inserts] using hop
    rcases (removes_iff hb h hkey).mp hexec with ⟨-, rfl⟩ | ⟨-, -, rfl⟩
    · exact h.empty (by have := hash_lt b key; omega) _
    · exact h

/-- A table that insertions and removals with nonzero keys reach keeps every key in its window. -/
theorem homed_of_run {t0 : TranslateTable b} (h0 : construct b = some t0) {ops : List TableOp}
    (hops : ∀ op ∈ ops, op.Inserts ∨ ∃ k, k ≠ 0 ∧ op = .remove k)
    (hrun : Run TableOp.Exec ops t0 t) : t.Homed :=
  hrun.invariant Homed
    (fun op hop _ _ hexec hs => hs.step (bits_le_of_construct h0) (hops op hop) hexec)
    (homed_construct h0)

/-! ## Whether `Remove` returns -/

/-- On every table that insertions and removals with nonzero keys reach, `Remove` leaves its loop,
and so without an access past the vector, if and only if its key is in its home slot or the table
does not keep the loop at slot zero. -/
theorem remove_returns_iff {t0 : TranslateTable b} (h0 : construct b = some t0)
    {ops : List TableOp} (hops : ∀ op ∈ ops, op.Inserts ∨ ∃ k, k ≠ 0 ∧ op = .remove k)
    (hrun : Run TableOp.Exec ops t0 t) (hkey : key ≠ 0) :
    (∃ t', t.Removes key t') ↔ (t.entry (hash b key)).key = key ∨ ¬ t.Stuck key := by
  have hb := bits_le_of_construct h0
  have hhomed := homed_of_run h0 hops hrun
  constructor
  · rintro ⟨t', ht'⟩
    rcases (removes_iff hb hhomed hkey).mp ht' with ⟨hk, -⟩ | ⟨-, hns, -⟩
    · exact .inl hk
    · exact .inr hns
  · intro h
    by_cases hk : (t.entry (hash b key)).key = key
    · exact ⟨_, (removes_iff hb hhomed hkey).mpr (.inl ⟨hk, rfl⟩)⟩
    · exact ⟨t, (removes_iff hb hhomed hkey).mpr (.inr ⟨hk, h.resolve_left hk, rfl⟩)⟩

/-- A table with one key, which is not in slot zero: `Remove` returns for a key that shares its home
slot. -/
theorem remove_returns_single :
    ∃ t0 t : TranslateTable 4, construct 4 = some t0 ∧ Run TableOp.Exec [.put 8 7] t0 t ∧
      hash 4 8 = hash 4 76 ∧ ∃ t', t.Removes 76 t' := by
  have hrun : Run TableOp.Exec [.put 8 7] (reset ⟨fun _ => ⟨0, 0⟩⟩)
      ((reset ⟨fun _ => ⟨0, 0⟩⟩ : TranslateTable 4).set 2 ⟨8, 7⟩) := .cons ⟨true, rfl⟩ (.nil _)
  refine ⟨_, _, rfl, hrun, rfl, ?_⟩
  rw [remove_returns_iff (b := 4) rfl (by simp [TableOp.Inserts]) hrun (by decide)]
  -- Slot zero is empty.
  exact .inr fun hs => hs.2.2.2 rfl

/-- `Remove` does not return for an absent key whose home slot is slot zero, when that slot is
occupied. -/
theorem remove_endless :
    ¬ ∀ (b : ℕ) (t0 t : TranslateTable b) (ops : List TableOp), 1 ≤ b → construct b = some t0 →
      (∀ op ∈ ops, op.Inserts ∨ ∃ k, k ≠ 0 ∧ op = .remove k) → Run TableOp.Exec ops t0 t →
      ∀ key, key ≠ 0 → ∃ t', t.Removes key t' := by
  intro h
  have hrun : Run TableOp.Exec [.put 68 7] (reset ⟨fun _ => ⟨0, 0⟩⟩)
      ((reset ⟨fun _ => ⟨0, 0⟩⟩ : TranslateTable 4).set 0 ⟨68, 7⟩) := .cons ⟨true, rfl⟩ (.nil _)
  have hops : ∀ op ∈ [TableOp.put 68 7], op.Inserts ∨ ∃ k, k ≠ 0 ∧ op = .remove k := by
    simp [TableOp.Inserts]
  obtain ⟨t', ht'⟩ := h 4 _ _ _ (by decide) rfl hops hrun 136 (by decide)
  have hhomed := homed_of_run (b := 4) rfl hops hrun
  -- The keys 68 and 136 share home slot zero, from which the next index is slot zero.
  rcases (removes_iff (by decide) hhomed (by decide)).mp ht' with ⟨hk, -⟩ | ⟨-, hns, -⟩
  · exact absurd hk (by decide)
  · exact hns ⟨by decide, by decide, by decide, by decide⟩

/-! ## What is found afterwards -/

/-- A key is looked up as zero exactly when the slot where its search stops does not hold it with a
nonzero value. -/
theorem lookup_eq_zero_iff :
    t.lookup key = .ok 0 ↔ ∀ i, t.Probe key i → (t.entry i).key = key → (t.entry i).value = 0 := by
  rcases probe_or_full t key with ⟨i, hp⟩ | hfull
  · rw [lookup, find_of_probe hp]
    constructor
    · intro hl j hpj hk
      obtain rfl := hp.unique hpj
      rw [if_pos hk] at hl
      exact Except.ok.inj hl
    · intro hz
      split_ifs with hk
      · simp [Except.map, hz i hp hk]
      · rfl
  · rw [lookup, find_of_full hfull]
    refine ⟨fun _ i hp => absurd hp.stop (hfull i hp.window), fun _ => rfl⟩

section Empty

variable {h : ℕ} (hh : h < size b) (hk : (t.entry h).key = key) (hkey : key ≠ 0) {k : UInt64}
  (hk0 : k ≠ 0) (hne : k ≠ key) (value : UInt64)
include hh

/-- An emptied slot changes where a search stops at that slot only. -/
theorem stop_empty_of_ne {j : ℕ} (hj : j ≠ h) :
    (t.set h ⟨0, value⟩).Stop k j ↔ t.Stop k j := by
  unfold Stop
  rw [t.entry_set (by omega), if_neg hj]

/-- Every search stops at an emptied slot. -/
theorem stop_empty_self : (t.set h ⟨0, value⟩).Stop k h := by
  unfold Stop
  rw [t.entry_set (by omega), if_pos rfl]
  exact .inl rfl

include hk0 in
/-- A search that stops at an emptied slot finds nothing. -/
theorem lookup_of_probe_empty (hp : (t.set h ⟨0, value⟩).Probe k h) :
    (t.set h ⟨0, value⟩).lookup k = .ok 0 := by
  have hz : (t.set h ⟨0, value⟩).entry h = ⟨0, value⟩ := by rw [t.entry_set (by omega), if_pos rfl]
  rw [lookup, find_of_probe hp, hz, if_neg hk0.symm]
  rfl

include hk0 in
/-- A search that went past a slot finds nothing once the slot is emptied. -/
theorem lookup_empty_of_past {i : ℕ} (hp : t.Probe k i) (hle : hash b k ≤ h) (hlt : h < i) :
    (t.set h ⟨0, value⟩).lookup k = .ok 0 := by
  refine lookup_of_probe_empty hh hk0 value ⟨⟨hle, ?_⟩, stop_empty_self hh value, ?_⟩
  · rcases hp.window.2 with he | he <;> omega
  · intro j hj hjh hs
    exact hp.first j hj (by omega) ((stop_empty_of_ne hh value (by omega)).mp hs)

include hk hkey hk0 hne in
/-- A search for another key that did not go past the slot finds what it found. -/
theorem lookup_empty_of_not_past (hpast : ∀ i, t.Probe k i → hash b k ≤ h → ¬ h < i) :
    (t.set h ⟨0, value⟩).lookup k = t.lookup k := by
  have hns : ¬ t.Stop k h := by
    unfold Stop
    rw [hk]
    exact fun hs => hs.elim hkey hne.symm
  rcases probe_or_full t k with ⟨i, hp⟩ | hfull
  · -- The search stopped elsewhere, and stops there still.
    have hih : i ≠ h := fun he => hns (he ▸ hp.stop)
    have hp' : (t.set h ⟨0, value⟩).Probe k i := by
      refine ⟨hp.window, (stop_empty_of_ne hh value hih).mpr hp.stop, fun j hj hji hs => ?_⟩
      have hjh : j ≠ h := fun he => hpast i hp (he ▸ hj) (he ▸ hji)
      exact hp.first j hj hji ((stop_empty_of_ne hh value hjh).mp hs)
    rw [lookup, lookup, find_of_probe hp, find_of_probe hp', t.entry_set (by omega), if_neg hih]
  · -- The search found its window full: now it stops at the emptied slot or finds it full.
    have hzero : t.lookup k = .ok 0 := by rw [lookup, find_of_full hfull]; rfl
    rw [hzero]
    by_cases hw : Window b k h
    · refine lookup_of_probe_empty hh hk0 value ⟨hw, stop_empty_self hh value, ?_⟩
      intro j hj hjh hs
      exact hfull j ⟨hj, by have := hw.2; omega⟩ ((stop_empty_of_ne hh value (by omega)).mp hs)
    · have hfull' : ∀ j, Window b k j → ¬ (t.set h ⟨0, value⟩).Stop k j := by
        intro j hj hs
        have hjh : j ≠ h := fun he => hw (he ▸ hj)
        exact hfull j hj ((stop_empty_of_ne hh value hjh).mp hs)
      rw [lookup, find_of_full hfull']
      rfl

end Empty

/-- `Remove` deletes exactly its key: whenever it returns, the key is looked up as zero and every
other key as before. -/
def RemoveExact (t : TranslateTable b) (key : UInt64) : Prop :=
  ∀ t', t.Removes key t' →
    t'.lookup key = .ok 0 ∧ ∀ k, k ≠ 0 → k ≠ key → t'.lookup k = t.lookup k

/-- The tables on which it does. With the key in its home slot, no key with a nonzero value may be
found past that slot by a search that crosses it. Otherwise the key itself may not be found, with
a nonzero value, in a slot it was displaced to, unless the loop is endless. -/
def RemoveOk (t : TranslateTable b) (key : UInt64) : Prop :=
  if (t.entry (hash b key)).key = key then
    ∀ i, hash b key < i → t.Probe (t.entry i).key i → (t.entry i).key ≠ 0 →
      hash b (t.entry i).key ≤ hash b key → (t.entry i).value = 0
  else
    t.Stuck key ∨ ∀ i, hash b key < i → t.Probe key i → (t.entry i).key = key →
      (t.entry i).value = 0

/-- On every table that insertions and removals with nonzero keys reach, `Remove` deletes exactly
its key if and only if the table before the call meets `RemoveOk`. -/
theorem removeExact_iff {t0 : TranslateTable b} (h0 : construct b = some t0) {ops : List TableOp}
    (hops : ∀ op ∈ ops, op.Inserts ∨ ∃ k, k ≠ 0 ∧ op = .remove k)
    (hrun : Run TableOp.Exec ops t0 t) (hkey : key ≠ 0) : t.RemoveExact key ↔ t.RemoveOk key := by
  have hb := bits_le_of_construct h0
  have hhomed := homed_of_run h0 hops hrun
  have hlt := hash_lt b key
  unfold RemoveExact RemoveOk
  simp only [removes_iff hb hhomed hkey]
  split_ifs with hk
  · -- The home slot is emptied.
    simp only [hk, true_and, ne_eq, not_true_eq_false, false_and, or_false, forall_eq]
    have hself : (t.set (hash b key) ⟨0, (t.entry (hash b key)).value⟩).lookup key = .ok 0 := by
      refine lookup_of_probe_empty hlt hkey _ ⟨⟨le_rfl, .inl rfl⟩, stop_empty_self hlt _, ?_⟩
      intro j hj hjh
      omega
    constructor
    · rintro ⟨-, hothers⟩ i hi hp hne hle
      have hkk : (t.entry i).key ≠ key := by
        intro he
        rw [he] at hp
        exact hp.first _ le_rfl hi (.inr hk)
      have hz := hothers _ hne hkk
      rw [lookup_empty_of_past hlt hne _ hp hle hi] at hz
      exact lookup_eq_zero_iff.mp hz.symm i hp rfl
    · intro hok
      refine ⟨hself, fun k hk0 hkk => ?_⟩
      by_cases hpast : ∃ i, t.Probe k i ∧ hash b k ≤ hash b key ∧ hash b key < i
      · obtain ⟨i, hp, hle, hi⟩ := hpast
        rw [lookup_empty_of_past hlt hk0 _ hp hle hi, eq_comm, lookup_eq_zero_iff]
        intro j hpj hkj
        obtain rfl := hp.unique hpj
        subst hkj
        exact hok i hi hp hk0 hle
      · push Not at hpast
        exact lookup_empty_of_not_past hlt hk hkey hk0 hkk _ fun i hp hle =>
          Nat.not_lt.mpr (hpast i hp hle)
  · -- The table is unchanged, or the loop is endless.
    simp only [hk, false_and, ne_eq, not_false_eq_true, true_and, false_or, and_imp]
    have hhome : ∀ i, t.Probe key i → (t.entry i).key = key → hash b key < i := by
      intro i hp hki
      rcases Nat.lt_or_ge (hash b key) i with hi | hi
      · exact hi
      · exact absurd (le_antisymm hi hp.window.1 ▸ hki) hk
    constructor
    · intro h
      by_cases hs : t.Stuck key
      · exact .inl hs
      · exact .inr fun i _ hp hki => lookup_eq_zero_iff.mp (h _ hs rfl).1 i hp hki
    · rintro (hs | hz) t' hns rfl
      · exact absurd hs hns
      · exact ⟨lookup_eq_zero_iff.mpr fun i hp hki => hz i (hhome i hp hki) hp hki,
          fun _ _ _ => rfl⟩

/-- Two keys share the home slot 1, so that one of them sits in slot 2, and a third one is in its
home slot 3. `Remove` deletes the third one and nothing else: the search for the displaced key does
not cross its slot. -/
theorem removeExact_beside_displaced :
    ∃ t0 t : TranslateTable 4, construct 4 = some t0 ∧
      Run TableOp.Exec [.put 4 7, .put 64 9, .put 12 5] t0 t ∧ t.lookup 64 = .ok 9 ∧
      t.lookup 12 = .ok 5 ∧ t.RemoveExact 12 := by
  have hrun : Run TableOp.Exec [.put 4 7, .put 64 9, .put 12 5] (reset ⟨fun _ => ⟨0, 0⟩⟩)
      ((((reset ⟨fun _ => ⟨0, 0⟩⟩ : TranslateTable 4).set 1 ⟨4, 7⟩).set 2 ⟨64, 9⟩).set 3 ⟨12, 5⟩) :=
    .cons ⟨true, rfl⟩ (.cons ⟨true, rfl⟩ (.cons ⟨true, rfl⟩ (.nil _)))
  refine ⟨_, _, rfl, hrun, rfl, rfl, ?_⟩
  rw [removeExact_iff (b := 4) rfl (by simp [TableOp.Inserts]) hrun (by decide)]
  unfold RemoveOk
  rw [if_pos (by decide)]
  intro i hi hp hne
  -- No slot after that of the key is occupied, and the end mark is not in a slot.
  have h16 : i < size 4 := hp.window.lt
  have h3 : hash 4 12 = 3 := rfl
  rw [entry_set _ (by decide), if_neg (by omega), entry_set _ (by decide), if_neg (by omega),
    entry_set _ (by decide), if_neg (by omega), entry_construct (b := 4) rfl,
    if_neg (by omega)] at hne
  exact absurd rfl hne

/-- `Remove` loses a key it was not asked for: two keys share the home slot 1, and removing the one
that sits there makes the other one unreachable. -/
theorem remove_loses_key :
    ¬ ∀ (b : ℕ) (t0 t : TranslateTable b) (ops : List TableOp), construct b = some t0 →
      (∀ op ∈ ops, op.Inserts ∨ ∃ k, k ≠ 0 ∧ op = .remove k) → Run TableOp.Exec ops t0 t →
      ∀ key, key ≠ 0 → t.RemoveExact key := by
  intro h
  have hrun : Run TableOp.Exec [.put 4 7, .put 64 9] (reset ⟨fun _ => ⟨0, 0⟩⟩)
      (((reset ⟨fun _ => ⟨0, 0⟩⟩ : TranslateTable 4).set 1 ⟨4, 7⟩).set 2 ⟨64, 9⟩) :=
    .cons ⟨true, rfl⟩ (.cons ⟨true, rfl⟩ (.nil _))
  have hexact := h 4 _ _ _ rfl (by simp [TableOp.Inserts]) hrun 4 (by decide) _ ⟨1, rfl⟩
  have hlost := hexact.2 64 (by decide) (by decide)
  -- Before the removal key 64 is looked up as 9, after it as 0.
  have hbefore : (Except.ok 0 : Except Fault UInt64) = .ok 9 := hlost
  cases hbefore

end SwiftRuntime.Backend.TranslateTable
