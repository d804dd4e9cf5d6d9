import SwiftRuntime.Backend.TableMap

/-!
# Slots as handles

`GetOrPut` returns the position of a value in the vector of entries read as an array of words, and
`RSBFrame` keeps it as a handle. Insertions move no key: a slot that is occupied keeps its key
(`Inserted.key_eq`), so the handle of a key stays good for the rest of a run of insertions
(`slot_stable`).
-/

namespace SwiftRuntime.Backend.TranslateTable

variable {b : ℕ} {t t' : TranslateTable b} {key value : UInt64}

/-- The vector of entries read as an array of words, with the key of an entry before its value. -/
def word (t : TranslateTable b) (p : ℕ) : UInt64 :=
  if p % 2 = 0 then (t.entry (p / 2)).key else (t.entry (p / 2)).value

/-- The odd words of the vector are the values. -/
theorem word_value (t : TranslateTable b) (i : ℕ) : t.word (2 * i + 1) = (t.entry i).value := by
  rw [word, if_neg (by omega), show (2 * i + 1) / 2 = i by omega]

/-- The even words of the vector are the keys. -/
theorem word_key (t : TranslateTable b) (i : ℕ) : t.word (2 * i + 1 - 1) = (t.entry i).key := by
  rw [word, if_pos (by omega), show (2 * i + 1 - 1) / 2 = i by omega]

/-- What an insertion of a nonzero key does to a table: nothing, or it writes the key to the slot
where the search for it stops. -/
def Inserted (t t' : TranslateTable b) : Prop :=
  t' = t ∨ ∃ key value i, key ≠ 0 ∧ t.Probe key i ∧ t' = t.set i ⟨key, value⟩

/-- An insertion writes to the slot where its search ends, or leaves the table as it is. -/
theorem inserted_of_exec (op : TableOp) (hop : op.Inserts) (hexec : op.Exec t t') :
    t.Inserted t' := by
  cases op with
  | put key value =>
    obtain ⟨done, hput⟩ := hexec
    obtain ⟨i, hp, hr⟩ := probe_of_put hput
    exact .inr ⟨key, value, i, hop, hp, (Prod.mk.inj hr).2⟩
  | getOrPut key value =>
    obtain ⟨slot, hget⟩ := hexec
    obtain ⟨i, hp, hr⟩ := probe_of_getOrPut hget
    rw [(Prod.mk.inj hr).2]
    split_ifs
    · exact .inl rfl
    · exact .inr ⟨key, value, i, hop, hp, rfl⟩
  | clear => exact absurd hop id
  | remove key => exact absurd hop id

/-- An insertion keeps the representation invariant. -/
theorem Inserted.chained (h : t.Inserted t') (hc : t.Chained) : t'.Chained := by
  rcases h with rfl | ⟨key, value, i, hkey, hp, rfl⟩
  · exact hc
  · exact hc.set hp hkey value

/-- An insertion leaves the key of an occupied slot alone. -/
theorem Inserted.key_eq (h : t.Inserted t') {i : ℕ} (hne : (t.entry i).key ≠ 0) :
    (t'.entry i).key = (t.entry i).key := by
  rcases h with rfl | ⟨key, value, j, hkey, hp, rfl⟩
  · rfl
  · have hj := hp.window.lt
    rw [t.entry_set (by omega)]
    split_ifs with hij
    · -- The search stops at an occupied slot only if that holds the key.
      subst hij
      exact (hp.stop.resolve_left hne).symm
    · rfl

/-- A run of insertions keeps the representation invariant and the keys of the occupied slots. -/
theorem inserts_run {ops : List TableOp} (hops : ∀ op ∈ ops, op.Inserts)
    (hrun : Run TableOp.Exec ops t t') (hc : t.Chained) :
    t'.Chained ∧ ∀ i, (t.entry i).key ≠ 0 → (t'.entry i).key = (t.entry i).key := by
  refine Run.invariant (fun s => s.Chained ∧ ∀ i, (t.entry i).key ≠ 0 →
    (s.entry i).key = (t.entry i).key) hrun ?_ ⟨hc, fun _ _ => rfl⟩
  rintro op hop s s' hexec ⟨hs, hkeys⟩
  have hins := inserted_of_exec op (hops op hop) hexec
  refine ⟨hins.chained hs, fun i hi => ?_⟩
  rw [hins.key_eq (by rw [hkeys i hi]; exact hi), hkeys i hi]

/-- A constructed table has no keys in its slots. -/
theorem chained_construct {t0 : TranslateTable b} (h : construct b = some t0) : t0.Chained := by
  intro i hi hne
  rw [entry_construct h, if_neg (by omega)] at hne
  exact absurd rfl hne

/-- The result of `GetOrPut` is the position of the value in the slot where the search stops, which
holds the key afterwards. It does not wrap, since a table has at most 30 hash bits. -/
theorem getOrPut_slot (hb : b ≤ 30) {r : ℕ} (h : t.getOrPut key value = .ok (r, t')) :
    ∃ i, t.Probe key i ∧ r = 2 * i + 1 ∧ 2 * i + 1 < 2 ^ 32 ∧ (t'.entry i).key = key := by
  obtain ⟨i, hp, hr⟩ := probe_of_getOrPut h
  obtain ⟨hr, ht⟩ := Prod.mk.inj hr
  have hi := hp.window.lt
  have hsize : size b ≤ 2 ^ 30 := Nat.pow_le_pow_right (by decide) hb
  have hlt : 2 * i + 1 < 2 ^ 32 := by omega
  refine ⟨i, hp, hr.trans (Nat.mod_eq_of_lt hlt), hlt, ?_⟩
  rw [ht]
  split_ifs with hfound
  · exact hfound.1
  · rw [t.entry_set (by omega), if_pos rfl]

/-- Slots are stable handles: in a run of insertions of nonzero keys on a constructed table, a slot
that `GetOrPut` returns for a key is odd and has not wrapped, and at every later point the word
before it is the key, the word at it is what `Lookup` returns for the key, and `GetOrPut` returns it
for this key and for no other. -/
theorem slot_stable {t0 t1 t2 : TranslateTable b} (h0 : construct b = some t0)
    {before after : List TableOp} (hbefore : ∀ op ∈ before, op.Inserts)
    (hafter : ∀ op ∈ after, op.Inserts) (hrun : Run TableOp.Exec before t0 t) {k v : UInt64}
    (hk : k ≠ 0) {r : ℕ} (hget : t.getOrPut k v = .ok (r, t1))
    (hrun' : Run TableOp.Exec after t1 t2) :
    r % 2 = 1 ∧ (∃ i, t.Probe k i ∧ r = 2 * i + 1 ∧ 2 * i + 1 < 2 ^ 32) ∧
      t2.word (r - 1) = k ∧ t2.lookup k = .ok (t2.word r) ∧
      ∀ k' v' r' t3, k' ≠ 0 → t2.getOrPut k' v' = .ok (r', t3) → (r' = r ↔ k' = k) := by
  have hb := bits_le_of_construct h0
  obtain ⟨hchained, -⟩ := inserts_run hbefore hrun (chained_construct h0)
  obtain ⟨i, hp, rfl, hlt, hkey⟩ := getOrPut_slot hb hget
  have hi := hp.window.lt
  have hins : t.Inserted t1 := inserted_of_exec (.getOrPut k v) hk ⟨_, hget⟩
  obtain ⟨hchained2, hkeys⟩ := inserts_run hafter hrun' (hins.chained hchained)
  have hkey2 : (t2.entry i).key = k := by
    rw [hkeys i (by rw [hkey]; exact hk), hkey]
  refine ⟨by omega, ⟨i, hp, rfl, hlt⟩, ?_, ?_, ?_⟩
  · rw [word_key, hkey2]
  · rw [word_value, lookup, hchained2.find_eq hk hi hkey2]
    rfl
  · intro k' v' r' t3 hk' hget'
    obtain ⟨j, hpj, rfl, -, -⟩ := getOrPut_slot hb hget'
    constructor
    · intro hji
      obtain rfl : j = i := by omega
      -- The slot is occupied, so the search for the other key stops there only if it is the same.
      have hstop := hpj.stop.resolve_left (by rw [hkey2]; exact hk)
      exact hstop.symm.trans hkey2
    · rintro rfl
      have hpi := hchained2 i hi (by rw [hkey2]; exact hk)
      rw [hkey2] at hpi
      rw [hpj.unique hpi]

/-- The handle of a displaced key, after another key of the same chain and a new value for it. -/
theorem slot_stable_collision :
    ∃ t t1 t2 : TranslateTable 4,
      Run TableOp.Exec [.put 4 7] (reset ⟨fun _ => ⟨0, 0⟩⟩) t ∧ t.getOrPut 64 9 = .ok (5, t1) ∧
      Run TableOp.Exec [.put 64 8, .getOrPut 68 1] t1 t2 ∧ t2.word 4 = 64 ∧
      t2.lookup 64 = .ok (t2.word 5) ∧ t2.word 5 = 8 := by
  -- Key 64 has the home slot of key 4, and goes into the next one.
  have hrun : Run TableOp.Exec [.put 4 7] (reset ⟨fun _ => ⟨0, 0⟩⟩)
      ((reset ⟨fun _ => ⟨0, 0⟩⟩ : TranslateTable 4).set 1 ⟨4, 7⟩) := .cons ⟨true, rfl⟩ (.nil _)
  have hget : ((reset ⟨fun _ => ⟨0, 0⟩⟩ : TranslateTable 4).set 1 ⟨4, 7⟩).getOrPut 64 9 =
      .ok (5, ((reset ⟨fun _ => ⟨0, 0⟩⟩ : TranslateTable 4).set 1 ⟨4, 7⟩).set 2 ⟨64, 9⟩) := rfl
  have hrun' : Run TableOp.Exec [.put 64 8, .getOrPut 68 1]
      (((reset ⟨fun _ => ⟨0, 0⟩⟩ : TranslateTable 4).set 1 ⟨4, 7⟩).set 2 ⟨64, 9⟩)
      (((((reset ⟨fun _ => ⟨0, 0⟩⟩ : TranslateTable 4).set 1 ⟨4, 7⟩).set 2 ⟨64, 9⟩).set 2
        ⟨64, 8⟩).set 0 ⟨68, 1⟩) := .cons ⟨true, rfl⟩ (.cons ⟨1, rfl⟩ (.nil _))
  obtain ⟨-, -, hword, hlook, -⟩ := slot_stable (b := 4) rfl (by simp [TableOp.Inserts])
    (by simp [TableOp.Inserts]) hrun (by decide) hget hrun'
  exact ⟨_, _, _, hrun, hget, hrun', hword, hlook, rfl⟩

end SwiftRuntime.Backend.TranslateTable
