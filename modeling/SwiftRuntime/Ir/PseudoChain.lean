import SwiftRuntime.Chains
import SwiftRuntime.Ir.NumUse
import Mathlib.Data.List.Perm.Subperm

/-!
# Flag getters

The flag getters that read an instruction hang on it in a chain, and `GetPseudoOperation` looks
there for the one of a given operation. `Use` and `UnUse` keep the chains. The link of a flag getter
is also where a chain of its own would start, so that the chains stay apart only while no flag
getter reads another one, and `GetParity` is not put into a chain at all. `Flat` says which states
are free of both.

As long as the calls go through such states, the links are the chains of the instructions that are
no flag getters (`Tracked`), no call stops, and what is asked of such an instruction is answered. A
flag getter itself is asked in vain: its link leads on to the getters behind it. `pseudo_found_iff`
says that all answers are right exactly when no two flag getters read the same instruction.
-/

namespace SwiftRuntime.Ir

/-- The flag getters of `ir.inc`. -/
def OpCode.isFlagGetter : OpCode → Bool
  | getCarry | getOverFlow | getZero | getNegate | getNegZero | getParity | getNZCV | getAllFlags =>
      true
  | _ => false

section Code

variable (P : Platform)

/-- The assertion of `GetPseudoOperation` about the instruction it has found. `GetArg<Value>` has an
assertion of its own, and without it reads the contents of the slot as what they are not. -/
def assertReads (h : Heap) (d p : InstRef) : Except Stop (Option InstRef) :=
  match (h.inst p).args 0 with
  | .value v => if v = d then .ok (some p) else .error .raised
  | _ => .error (if P.asserts then .aborted else .undefined)

/-- The loop of `GetPseudoOperation`. -/
def getPseudoOperationBody (h : Heap) (d : InstRef) (code : OpCode) :
    Option InstRef → Option InstRef ⊕ Except Stop (Option InstRef)
  | none => .inr (.ok none)
  | some p =>
    if (h.inst p).op = code then .inr (assertReads P h d p) else .inl (h.inst p).nextPseudo

/-- `GetPseudoOperation`. -/
def getPseudoOperation (d : InstRef) (code : OpCode) : InstM (Option InstRef) := do
  let h ← get
  ofExcept ((iterate (getPseudoOperationBody P h d code) (h.count + 1) (h.inst d).nextPseudo).getD
    (.error .endless))

end Code

/-! ## What the calls leave -/

/-- What the slots hold, and the operations of the instructions. -/
structure CodedSlots extends Slots where
  /-- The operations. -/
  op : InstRef → OpCode

namespace CodedSlots

/-- No instructions. -/
def empty : CodedSlots := ⟨.empty, fun _ => .void⟩

/-- A flag getter that is put into chains. -/
def isChained (s : CodedSlots) (g : InstRef) : Bool := (s.op g).isPseudoOperation

/-- A flag getter that is put into chains refers to nothing but the instruction it reads, as a value
and in its first slot, and that instruction is no such flag getter. `GetParity`, which is not put
into chains, reads nothing. -/
structure Flat (s : CodedSlots) : Prop where
  /-- A flag getter refers to a value that is no flag getter. -/
  first : ∀ u ∈ s.live, s.isChained u → ∀ v ∈ (s.args u 0).ref,
    s.args u 0 = .value v ∧ s.isChained v = false
  /-- Its other slots refer to nothing. -/
  rest : ∀ u ∈ s.live, s.isChained u → ∀ i, i ≠ 0 → (s.args u i).ref = none
  /-- `GetParity` reads nothing. -/
  parity : ∀ u ∈ s.live, s.op u = .getParity → (s.args u 0).type ≠ .value

/-- Whether a state is flat can be computed. -/
instance (s : CodedSlots) : Decidable s.Flat :=
  decidable_of_iff ((∀ u ∈ s.live, s.isChained u → ∀ v ∈ (s.args u 0).ref,
      s.args u 0 = .value v ∧ s.isChained v = false) ∧
    (∀ u ∈ s.live, s.isChained u → ∀ i, i ≠ 0 → (s.args u i).ref = none) ∧
    ∀ u ∈ s.live, s.op u = .getParity → (s.args u 0).type ≠ .value)
    ⟨fun h => ⟨h.1, h.2.1, h.2.2⟩, fun h => ⟨h.first, h.rest, h.parity⟩⟩

/-- No two flag getters that are put into chains read the same instruction. -/
def OneGetter (s : CodedSlots) : Prop :=
  ∀ g ∈ s.live, ∀ g' ∈ s.live, s.isChained g → s.isChained g' →
    ∀ d ∈ (s.args g 0).ref, (s.args g' 0).ref = some d → g = g'

/-- Whether there are two such flag getters can be computed. -/
instance (s : CodedSlots) : Decidable s.OneGetter :=
  inferInstanceAs (Decidable (∀ g ∈ s.live, ∀ g' ∈ s.live, s.isChained g → s.isChained g' →
    ∀ d ∈ (s.args g 0).ref, (s.args g' 0).ref = some d → g = g'))

/-- The instructions that chains start at. -/
def IsHead (s : CodedSlots) (d : InstRef) : Prop := d ∈ s.live ∧ s.isChained d = false

/-- The instruction whose chain a flag getter is in. -/
def owner (s : CodedSlots) (g : InstRef) : Option InstRef :=
  if g ∈ s.live ∧ s.isChained g then (s.args g 0).ref else none

end CodedSlots

namespace InstCall

/-- The calls of `SetArg` that `SetArgs` makes. -/
def setArgCalls (u : InstRef) : ℕ → List CallArg → List InstCall
  | _, [] => []
  | i, a :: as => .setArg u i a :: setArgCalls u (i + a.width) as

/-- A call, with `SetArgs` taken apart. -/
def single : InstCall → List InstCall
  | setArgs u as => setArgCalls u 0 as
  | c => [c]

/-- What a call does to the slots and the operations. -/
def onCoded (s : CodedSlots) (c : InstCall) : CodedSlots where
  toSlots := c.onSlots s.toSlots
  op := match c with
    | create op => Function.update s.op s.count op
    | _ => s.op

/-- An argument is written to slots that there are. Of `SetArgs` this is asked for each of its calls
of `SetArg`. -/
def InRange : InstCall → Prop
  | setArg _ index a => index + a.slots.length ≤ 4
  | setArgs _ _ => False
  | create _ | destroy _ => True

/-- Whether a call writes slots that are there can be computed. -/
instance : DecidablePred InRange
  | create _ => isTrue trivial
  | setArg _ index a => inferInstanceAs (Decidable (index + a.slots.length ≤ 4))
  | setArgs _ _ => isFalse id
  | destroy _ => isTrue trivial

/-- Every call of a sequence is allowed where it is made, in range, and leaves the flag getters
flat. -/
def AllFlat : CodedSlots → List InstCall → Prop
  | _, [] => True
  | s, c :: cs => (c.Allowed s.toSlots ∧ c.InRange ∧ (c.onCoded s).Flat) ∧ AllFlat (c.onCoded s) cs

/-- Whether all states of a run are flat can be computed. -/
instance decidableAllFlat : ∀ s cs, Decidable (AllFlat s cs)
  | _, [] => isTrue trivial
  | s, c :: cs =>
    have := decidableAllFlat (c.onCoded s) cs
    inferInstanceAs (Decidable ((c.Allowed s.toSlots ∧ c.InRange ∧ (c.onCoded s).Flat) ∧
      AllFlat (c.onCoded s) cs))

end InstCall

/-- The slots and the operations after a sequence of calls. -/
def codedAfter (cs : List InstCall) : CodedSlots :=
  (cs.flatMap InstCall.single).foldl InstCall.onCoded .empty

/-! ## Links -/

/-- The links of the instructions. -/
def Heap.next (h : Heap) (r : InstRef) : Option InstRef := (h.inst r).nextPseudo

section Links

variable {P : Platform} {u v : InstRef} {h h' : Heap} {gs as bs : List InstRef}

/-- A change of a count changes no link. -/
theorem next_recount (h : Heap) (v : InstRef) (k : UInt8 → UInt8) : (h.recount v k).next = h.next :=
  funext (nextPseudo_recount h v k)

/-- A change of a link changes that one. -/
theorem next_relink (h : Heap) (p : InstRef) (n : Option InstRef) :
    (h.relink p n).next = Function.update h.next p n := by
  funext r
  by_cases hr : r = p
  · subst hr
    simp [Heap.next, Heap.relink, Heap.update]
  · simp [Heap.next, Heap.relink, Heap.update, hr]

/-- A write to a slot changes no link. -/
theorem next_update_args (h : Heap) (u : InstRef) (f : (Fin 4 → Arg) → Fin 4 → Arg) :
    (h.update u fun x => { x with args := f x.args }).next = h.next := by
  funext r
  by_cases hr : r = u
  · subst hr
    simp [Heap.next, Heap.update]
  · simp [Heap.next, Heap.update, hr]

/-- Any other instruction than a flag getter is linked nowhere. -/
theorem use_plain (hop : (h.inst u).op.isPseudoOperation = false) (v : InstRef) :
    ∃ h', use P u v h = .ok () h' ∧ h'.next = h.next :=
  ⟨_, use_ok_iff.mpr (.inl ⟨hop, rfl⟩), next_recount ..⟩

/-- Releasing a value for another operation than a flag getter changes no link. -/
theorem unUse_plain (hop : (h.inst u).op.isPseudoOperation = false) (v : InstRef) :
    ∃ h', unUse P u v h = .ok () h' ∧ h'.next = h.next :=
  ⟨_, unUse_ok_iff.mpr (.inl ⟨hop, rfl⟩), next_recount ..⟩

/-- `Use` links a flag getter at the end of a chain whose members read its head. -/
theorem use_links (hop : (h.inst u).op.isPseudoOperation = true) (hafter : After h.next v gs)
    (hreads : ∀ g ∈ gs, (h.inst g).args 0 = .value v) (hlen : gs.length ≤ h.count) :
    ∃ h', use P u v h = .ok () h' ∧ h'.next = Function.update h.next (gs.getLastD v) (some u) := by
  have hwalk : iterate (useBody P h v) (h.count + 1) v = some (.ok (gs.getLastD v)) := by
    refine hafter.iterate_last (fun q g hq hg => ?_) (fun q hq => ?_) (Nat.lt_succ_of_le hlen)
    · simp only [useBody, show (h.inst q).nextPseudo = some g from hq, hreads g hg]
      simp
    · simp only [useBody, show (h.inst q).nextPseudo = none from hq]
  refine ⟨_, use_ok_iff.mpr (.inr ⟨hop, _, hwalk, rfl⟩), ?_⟩
  rw [next_relink, next_recount]

/-- `UnUse` takes a flag getter out of a chain whose members read its head. -/
theorem unUse_unlinks (hop : (h.inst u).op.isPseudoOperation = true)
    (hafter : After h.next v (as ++ u :: bs)) (hu : u ∉ as)
    (hreads : ∀ g ∈ as, (h.inst g).args 0 = .value v) (hlen : as.length ≤ h.count) :
    ∃ h', unUse P u v h = .ok () h' ∧
      h'.next = Function.update (Function.update h.next (as.getLastD v) (h.next u)) u none := by
  have hwalk : iterate (unUseBody P h u v) (h.count + 1) v = some (.ok (as.getLastD v)) := by
    refine hafter.iterate_before (fun q g hq hg => ?_) (fun q hq => ?_) (Nat.lt_succ_of_le hlen)
    · have hgu : g ≠ u := fun e => hu (e ▸ hg)
      simp only [unUseBody, show (h.inst q).nextPseudo = some g from hq, hreads g hg, hgu]
      simp
    · simp only [unUseBody, show (h.inst q).nextPseudo = some u from hq]
      simp
  refine ⟨_, unUse_ok_iff.mpr (.inr ⟨hop, _, hwalk, rfl⟩), ?_⟩
  rw [next_relink, next_relink, next_recount]
  rfl

/-- A slot that refers to nothing, or is not one of a flag getter, is released without a change to
the links. -/
theorem destroyArg_quiet {i : Fin 4}
    (hquiet : (h.inst u).op.isPseudoOperation = true → ((h.inst u).args i).ref = none) :
    ∃ h', destroyArg P u i h = .ok () h' ∧ h'.next = h.next := by
  rw [destroyArg_eq]
  cases href : ((h.inst u).args i).ref with
  | none => exact ⟨h, rfl, rfl⟩
  | some v =>
    have hop : (h.inst u).op.isPseudoOperation = false := by
      by_contra hne
      rw [hquiet (by simpa using hne)] at href
      cases href
    exact unUse_plain hop v

/-- A slot is written after it has been released. -/
theorem putArg_of_destroyArg {i : ℕ} (hi : i < 4) (a : Arg)
    (hdestroy : destroyArg P u ⟨i, hi⟩ h = .ok () h') :
    ∃ h'', putArg P u i a h = .ok () h'' ∧ h''.next = h'.next := by
  rw [putArg, dif_pos hi, bind_of_ok hdestroy]
  exact ⟨_, rfl, next_update_args h' u fun g => Function.update g ⟨i, hi⟩ a⟩

/-- Slots that refer to nothing, or are not those of a flag getter, are written without a change to
the links. -/
theorem putArgs_quiet {i : ℕ} {as : List Arg} (hlen : i + as.length ≤ 4)
    (hquiet : (h.inst u).op.isPseudoOperation = true →
      ∀ j : Fin 4, i ≤ j.val → ((h.inst u).args j).ref = none) :
    ∃ h', putArgs P u i as h = .ok () h' ∧ h'.next = h.next := by
  induction as generalizing i h with
  | nil => exact ⟨h, rfl, rfl⟩
  | cons a as ih =>
    rw [List.length_cons] at hlen
    have hi : i < 4 := by omega
    -- The slot refers to nothing that would have to be unlinked.
    obtain ⟨h1, hdestroy, hnext1⟩ := destroyArg_quiet (P := P) (i := ⟨i, hi⟩)
      fun hop => hquiet hop ⟨i, hi⟩ (Nat.le_refl i)
    obtain ⟨h2, hput, hnext2⟩ := putArg_of_destroyArg hi a hdestroy
    have hset := (putArg_spec hput).2
    obtain ⟨h3, hputs, hnext3⟩ := ih (i := i + 1) (h := h2) (by omega) fun hop j hj => by
      rw [hset.self]
      dsimp only
      rw [if_neg (by omega)]
      exact hquiet (hset.op u ▸ hop) j (by omega)
    refine ⟨h3, ?_, hnext3.trans (hnext2.trans hnext1)⟩
    rw [putArgs, bind_of_ok hput]
    exact hputs

/-- The values of an argument are used by any other instruction than a flag getter. -/
theorem forM_use_plain (hop : (h.inst u).op.isPseudoOperation = false) (vs : List InstRef) :
    ∃ h', (forM vs (use P u) : InstM Unit) h = .ok () h' ∧ h'.next = h.next := by
  obtain ⟨h', hok, -, hnext⟩ := forM_of_invariant
    (fun k : Heap => (k.inst u).op.isPseudoOperation = false ∧ k.next = h.next)
    (fun v _ k hk => by
      obtain ⟨k', hok, hnext⟩ := use_plain (P := P) hk.1 v
      exact ⟨k', hok, (use_spec hok).op u ▸ hk.1, hnext.trans hk.2⟩) ⟨hop, rfl⟩
  exact ⟨h', hok, hnext⟩

/-- Slots are released without a change to the links. -/
theorem forM_destroyArg_quiet (is : List (Fin 4))
    (hquiet : (h.inst u).op.isPseudoOperation = true → ∀ i ∈ is, ((h.inst u).args i).ref = none) :
    ∃ h', (forM is (destroyArg P u) : InstM Unit) h = .ok () h' ∧ h'.next = h.next := by
  obtain ⟨h', hok, -, hnext⟩ := forM_of_invariant
    (fun k : Heap => SameArgs h k ∧ k.next = h.next)
    (fun i hi k hk => by
      obtain ⟨k', hok, hnext⟩ := destroyArg_quiet (P := P) (u := u) (i := i) (h := k)
        (by rw [hk.1.op, hk.1.args]; exact fun hop => hquiet hop i hi)
      exact ⟨k', hok, hk.1.trans (destroyArg_spec hok), hnext.trans hk.2⟩) ⟨.refl h, rfl⟩
  exact ⟨h', hok, hnext⟩

end Links

/-! ## Chains along a run -/

/-- What holds between the heap and what the calls leave. -/
structure Tracked (s : CodedSlots) (h : Heap) : Prop where
  /-- The slots. -/
  counted : Counted s.toSlots h
  /-- The operations. -/
  op : ∀ r ∈ s.live, (h.inst r).op = s.op r
  /-- The flag getters are flat. -/
  flat : s.Flat
  /-- The links are the chains. -/
  chains : Chains h.next s.IsHead s.owner

section Runs

variable {P : Platform} {s : CodedSlots} {h h' : Heap} {u d g : InstRef} {index : ℕ} {a : CallArg}

/-- In a flat state a flag getter is owned by the value that it reads. -/
theorem CodedSlots.Flat.owner_eq_some_iff (hflat : s.Flat) :
    s.owner g = some d ↔ g ∈ s.live ∧ s.isChained g ∧ s.args g 0 = .value d := by
  unfold CodedSlots.owner
  split_ifs with hg
  · constructor
    · intro href
      exact ⟨hg.1, hg.2, (hflat.first g hg.1 hg.2 d href).1⟩
    · rintro ⟨-, -, hval⟩
      rw [hval]
      rfl
  · constructor
    · intro href
      cases href
    · rintro ⟨hlive, hop, -⟩
      exact absurd ⟨hlive, hop⟩ hg

/-- What decides the owner of a flag getter. -/
theorem CodedSlots.owner_congr {s' : CodedSlots} (hlive : g ∈ s'.live ↔ g ∈ s.live)
    (hop : s'.op g = s.op g) (hargs : s'.args g = s.args g) : s'.owner g = s.owner g := by
  unfold CodedSlots.owner CodedSlots.isChained
  rw [hop, hargs]
  exact if_congr (and_congr_left' hlive) rfl rfl

/-- The owner of a flag getter is what it reads. -/
theorem CodedSlots.owner_of_chained (hu : u ∈ s.live) (hop : s.isChained u) :
    s.owner u = (s.args u 0).ref := if_pos ⟨hu, hop⟩

/-- A flag getter reads its owner. -/
theorem Tracked.reads (ht : Tracked s h) (hg : s.owner g = some d) :
    (h.inst g).args 0 = .value d := by
  rw [ht.counted.args]
  exact (ht.flat.owner_eq_some_iff.mp hg).2.2

/-- A chain is no longer than the heap. -/
theorem Tracked.length_le (ht : Tracked s h) {gs : List InstRef} (hnodup : gs.Nodup)
    (howned : ∀ g ∈ gs, s.owner g = some d) : gs.length ≤ h.count := by
  have hsub : gs ⊆ List.range h.count := by
    intro g hg
    rw [List.mem_range, ht.counted.count]
    exact ht.counted.lt g (ht.flat.owner_eq_some_iff.mp (howned g hg)).1
  simpa using (List.subperm_of_subset hnodup hsub).length_le

/-- When the first slot of a flag getter is released, it is taken out of its chain. -/
theorem Tracked.release (ht : Tracked s h) (hu : u ∈ s.live) (hop : s.isChained u) :
    ∃ h', destroyArg P u 0 h = .ok () h' ∧
      Chains h'.next s.IsHead (Function.update s.owner u none) := by
  have howner := CodedSlots.owner_of_chained hu hop
  cases href : (s.args u 0).ref with
  -- It has left its chain before, or it is between `as` and `bs` in the chain of `d`.
  | none =>
    rw [href] at howner
    obtain ⟨h', hok, hnext⟩ := destroyArg_quiet (P := P) (h := h) (u := u) (i := 0) fun _ => by
      rw [ht.counted.args]
      exact href
    refine ⟨h', hok, ?_⟩
    rw [hnext, Function.update_eq_self_iff.mpr howner.symm]
    exact ht.chains
  | some d =>
    rw [href] at howner
    obtain ⟨gs, hafter, hnodup, hmem⟩ := ht.chains.chain d (ht.chains.owned u d howner).1
    obtain ⟨as, bs, rfl⟩ := List.append_of_mem ((hmem u).mpr howner)
    have hu' : u ∉ as := fun hmemu =>
      (List.disjoint_of_nodup_append hnodup) hmemu List.mem_cons_self
    have howned : ∀ g ∈ as, s.owner g = some d := fun g hg =>
      (hmem g).mp (List.mem_append_left _ hg)
    obtain ⟨h', hok, hnext⟩ := unUse_unlinks (P := P) ((ht.op u hu).symm ▸ hop) hafter hu'
      (fun g hg => ht.reads (howned g hg)) (ht.length_le (hnodup.of_append_left) howned)
    refine ⟨h', ?_, ?_⟩
    · rw [destroyArg_eq, ht.counted.args, href]
      exact hok
    · rw [hnext]
      exact ht.chains.unlink howner hafter hnodup hmem

/-- The slots of an argument of a flag getter refer to nothing, except for the first slot of the
instruction. -/
theorem CodedSlots.Flat.ref_eq_none (hflat : ((InstCall.setArg u index a).onCoded s).Flat)
    (hu : u ∈ s.live) (hop : s.isChained u) (hlen : index + a.slots.length ≤ 4) {k : ℕ} {x : Arg}
    (hx : a.slots[k]? = some x) (hne : index + k ≠ 0) : x.ref = none := by
  have hk : k < a.slots.length := (List.getElem?_eq_some_iff.mp hx).1
  have hrest := hflat.rest u hu hop ⟨index + k, by omega⟩ (by simpa [Fin.ext_iff] using hne)
  have hplaced : ((InstCall.setArg u index a).onCoded s).args u ⟨index + k, by omega⟩ = x := by
    simp only [InstCall.onCoded, InstCall.onSlots, Function.update_self]
    rw [placed_apply, if_neg (by simp), Nat.add_sub_cancel_left, hx, Option.getD_some]
  rwa [hplaced] at hrest

/-- A flag getter uses what its first slot refers to. -/
theorem CodedSlots.Flat.refs_eq (hflat : ((InstCall.setArg u index a).onCoded s).Flat)
    (hu : u ∈ s.live) (hop : s.isChained u) (hlen : index + a.slots.length ≤ 4) {x : Arg}
    {xs : List Arg} (hslots : a.slots = x :: xs) : a.refs = x.ref.toList := by
  have hxs : xs.filterMap Arg.ref = [] := List.filterMap_eq_nil_iff.mpr fun y hy => by
    obtain ⟨k, hk⟩ := List.mem_iff_getElem?.mp hy
    refine hflat.ref_eq_none hu hop hlen (k := k + 1) ?_ (by omega)
    rw [hslots]
    exact hk
  rw [CallArg.refs, hslots]
  cases hx : x.ref with
  | none => rw [List.filterMap_cons_none hx, hxs, Option.toList_none]
  | some v => rw [List.filterMap_cons_some hx, hxs, Option.toList_some]

/-- The slots of a flag getter are written from the first one on: it leaves its chain. -/
theorem Tracked.putArgs_first (ht : Tracked s h) (hu : u ∈ s.live) (hop : s.isChained u) {x : Arg}
    {xs : List Arg} (hlen : 1 + xs.length ≤ 4) :
    ∃ h', putArgs P u 0 (x :: xs) h = .ok () h' ∧
      Chains h'.next s.IsHead (Function.update s.owner u none) := by
  -- The first slot is released. The others of a flag getter refer to nothing.
  obtain ⟨h1, hdestroy, hchains⟩ := ht.release (P := P) hu hop
  obtain ⟨h2, hput, hnext2⟩ := putArg_of_destroyArg (i := 0) (by decide) x hdestroy
  have hset := (putArg_spec hput).2
  obtain ⟨h3, hputs, hnext3⟩ := putArgs_quiet (P := P) (u := u) (h := h2) hlen fun _ j hj => by
    rw [hset.self, ht.counted.args]
    dsimp only
    rw [if_neg (by omega)]
    exact ht.flat.rest u hu hop j fun e => by simp [e] at hj
  refine ⟨h3, ?_, ?_⟩
  · rw [putArgs, bind_of_ok hput]
    exact hputs
  · rw [hnext3, hnext2]
    exact hchains

/-- A flag getter that has left its chain is linked to the one of what it reads now. -/
theorem Tracked.use_first (ht : Tracked s h) {v : InstRef} {x : Fin 4 → Arg} (hu : u ∈ s.live)
    (hop : s.isChained u) (hset : ArgsSet u x h h')
    (hchains : Chains h'.next s.IsHead (Function.update s.owner u none)) (hv : s.IsHead v) :
    ∃ h'', use P u v h' = .ok () h'' ∧
      Chains h''.next s.IsHead (Function.update s.owner u (some v)) := by
  obtain ⟨gs, hafter, hnodup, hmem⟩ := hchains.chain v hv
  -- The members of the chain are the other flag getters of `v`, which the writing of `u` has left
  -- alone.
  have howned : ∀ g ∈ gs, g ≠ u ∧ s.owner g = some v := by
    intro g hg
    have hgv := (hmem g).mp hg
    by_cases hgu : g = u
    · subst hgu
      rw [Function.update_self] at hgv
      cases hgv
    · rw [Function.update_of_ne hgu] at hgv
      exact ⟨hgu, hgv⟩
  have hreads : ∀ g ∈ gs, (h'.inst g).args 0 = .value v := fun g hg => by
    rw [hset.other g (howned g hg).1]
    exact ht.reads (howned g hg).2
  have hlen : gs.length ≤ h'.count := by
    rw [hset.count]
    exact ht.length_le hnodup fun g hg => (howned g hg).2
  obtain ⟨h'', huse, hnext⟩ := use_links (P := P) (u := u)
    (by rw [hset.op, ht.op u hu]; exact hop) hafter hreads hlen
  have hu' : ¬ s.IsHead u := fun hhead => by simpa [hop] using hhead.2
  have hlink := hchains.link hv hu' (Function.update_self ..) hafter hnodup hmem
  rw [Function.update_idem] at hlink
  exact ⟨h'', huse, hnext ▸ hlink⟩

/-- `SetArg` of a flag getter moves it to the chain of what it reads then. -/
theorem Tracked.setArg_chained (ht : Tracked s h) (hu : u ∈ s.live) (hop : s.isChained u)
    (hlive : ∀ v ∈ a.refs, v ∈ s.live) (hlen : index + a.slots.length ≤ 4)
    (hflat : ((InstCall.setArg u index a).onCoded s).Flat) :
    ∃ h', setArg P u index a h = .ok () h' ∧
      Chains h'.next s.IsHead
        (Function.update s.owner u (placed (s.args u) index a.slots 0).ref) := by
  obtain ⟨x, xs, hslots⟩ := List.exists_cons_of_ne_nil a.slots_ne_nil
  have hrefs := hflat.refs_eq hu hop hlen hslots
  rw [setArg]
  by_cases h0 : index = 0
  · subst h0
    have hfirst : placed (s.args u) 0 a.slots 0 = x := by
      rw [placed_apply, hslots]
      rfl
    obtain ⟨h1, hputs, hchains⟩ := ht.putArgs_first (P := P) (x := x) hu hop
      (show 1 + xs.length ≤ 4 by rw [hslots, List.length_cons] at hlen; omega)
    rw [← hslots] at hputs
    rw [bind_of_ok hputs, hrefs, hfirst]
    cases hx : x.ref with
    | none => exact ⟨h1, rfl, hchains⟩
    | some v =>
      -- The value that the getter reads now is the head of a chain, since the new state is flat.
      have hnew := hflat.first u hu hop v (by
        simp only [InstCall.onCoded, InstCall.onSlots, Function.update_self, hfirst]
        exact hx)
      have hhead : s.IsHead v := ⟨hlive v (by simp [hrefs, hx]), hnew.2⟩
      obtain ⟨h2, huse, hchains2⟩ := ht.use_first (P := P) hu hop (putArgs_spec hputs) hchains hhead
      refine ⟨h2, ?_, hchains2⟩
      rw [Option.toList_some]
      exact forM_cons_ok_iff.mpr ⟨h2, huse, rfl⟩
  · -- Away from the first slot nothing is released and nothing is used.
    have hx : x.ref = none :=
      hflat.ref_eq_none hu hop hlen (k := 0) (by rw [hslots]; rfl) (by omega)
    obtain ⟨h1, hputs, hnext⟩ := putArgs_quiet (P := P) (u := u) (h := h) hlen fun _ j hj => by
      rw [ht.counted.args]
      exact ht.flat.rest u hu hop j fun e => h0 (by simpa [e] using hj)
    have hsame : (placed (s.args u) index a.slots 0).ref = s.owner u := by
      rw [CodedSlots.owner_of_chained hu hop, placed_apply, if_pos]
      exact Nat.pos_of_ne_zero h0
    rw [bind_of_ok hputs, hrefs, hx, hsame, Function.update_eq_self]
    exact ⟨h1, rfl, hnext ▸ ht.chains⟩

/-- `SetArg` of any other instruction changes no chain. -/
theorem Tracked.setArg_plain (ht : Tracked s h) (hu : u ∈ s.live) (hop : s.isChained u = false)
    (hlen : index + a.slots.length ≤ 4) :
    ∃ h', setArg P u index a h = .ok () h' ∧ h'.next = h.next := by
  have hpseudo : (h.inst u).op.isPseudoOperation = false := (ht.op u hu).symm ▸ hop
  obtain ⟨h1, hputs, hnext1⟩ := putArgs_quiet (P := P) (u := u) (h := h) hlen
    fun htrue => by rw [hpseudo] at htrue; cases htrue
  obtain ⟨h2, huses, hnext2⟩ := forM_use_plain (P := P) (h := h1) (u := u)
    ((putArgs_spec hputs).op u ▸ hpseudo) a.refs
  refine ⟨h2, ?_, hnext2.trans hnext1⟩
  rw [setArg, bind_of_ok hputs]
  exact huses

/-- What a flag getter reads after `SetArg`. -/
theorem CodedSlots.owner_setArg_chained (hu : u ∈ s.live) (hop : s.isChained u) :
    ((InstCall.setArg u index a).onCoded s).owner =
      Function.update s.owner u (placed (s.args u) index a.slots 0).ref := by
  funext g
  by_cases hg : g = u
  · subst hg
    rw [Function.update_self,
      CodedSlots.owner_of_chained (s := (InstCall.setArg g index a).onCoded s) hu hop]
    simp [InstCall.onCoded, InstCall.onSlots]
  · rw [Function.update_of_ne hg]
    exact CodedSlots.owner_congr .rfl rfl (Function.update_of_ne hg ..)

/-- `SetArg` of any other instruction than a flag getter changes nothing of what these read. -/
theorem CodedSlots.owner_setArg_plain (hop : s.isChained u = false) :
    ((InstCall.setArg u index a).onCoded s).owner = s.owner := by
  funext g
  by_cases hg : g = u
  · subst hg
    have hnew : ((InstCall.setArg g index a).onCoded s).isChained g = false := hop
    simp [CodedSlots.owner, hop, hnew]
  · exact CodedSlots.owner_congr .rfl rfl (Function.update_of_ne hg ..)

/-- `SetArg` in a run. -/
theorem Tracked.setArg (ht : Tracked s h) (hallowed : (InstCall.setArg u index a).Allowed s.toSlots)
    (hlen : index + a.slots.length ≤ 4) (hflat : ((InstCall.setArg u index a).onCoded s).Flat) :
    ∃ h', Ir.setArg P u index a h = .ok () h' ∧
      Tracked ((InstCall.setArg u index a).onCoded s) h' := by
  have hu := hallowed.1
  -- A flag getter goes from one chain to another. Other operations leave the chains alone.
  have hchains : ∃ h', Ir.setArg P u index a h = .ok () h' ∧
      Chains h'.next s.IsHead ((InstCall.setArg u index a).onCoded s).owner := by
    cases hop : s.isChained u with
    | true =>
      rw [CodedSlots.owner_setArg_chained hu hop]
      exact ht.setArg_chained hu hop hallowed.2 hlen hflat
    | false =>
      obtain ⟨h', hok, hnext⟩ := ht.setArg_plain (P := P) hu hop hlen
      rw [CodedSlots.owner_setArg_plain hop]
      exact ⟨h', hok, hnext ▸ ht.chains⟩
  obtain ⟨h', hok, hchains⟩ := hchains
  refine ⟨h', hok, ht.counted.step (c := .setArg u index a) hallowed hok, fun r hr => ?_, hflat,
    hchains⟩
  exact ((setArg_spec hok).op r).trans (ht.op r hr)

/-- A new instruction has no link and no flag getters. -/
theorem Tracked.create (ht : Tracked s h) (op : OpCode)
    (hflat : ((InstCall.create op).onCoded s).Flat) :
    ∃ h', (InstCall.create op).exec P h = .ok () h' ∧
      Tracked ((InstCall.create op).onCoded s) h' := by
  have hok : (InstCall.create op).exec P h = .ok () (h.created op) := rfl
  have hnew : s.count ∉ s.live := fun hmem => (ht.counted.lt _ hmem).false
  have hother : ∀ {r}, r ∈ s.live → r ≠ s.count := fun hr he => hnew (he ▸ hr)
  have hcount := ht.counted.count
  -- It owns nothing, and is owned by nothing.
  have hownerNew : s.owner s.count = none := if_neg fun hmem => hnew hmem.1
  -- It is the head of an empty chain, unless it is a flag getter.
  have hheadNew : ¬ s.IsHead s.count := fun hhead => hnew hhead.1
  -- The place of the new instruction has no link yet.
  have hlink : h.next s.count = none := ht.chains.free _ hheadNew hownerNew
  have hnext : (h.created op).next = h.next := by
    funext r
    by_cases hr : r = s.count
    · subst hr
      rw [hlink]
      simp [Heap.next, Heap.created, hcount]
    · simp [Heap.next, Heap.created, hcount, hr]
  have howner : ((InstCall.create op).onCoded s).owner = s.owner := by
    funext g
    by_cases hg : g = s.count
    · subst hg
      rw [hownerNew]
      simp [CodedSlots.owner, InstCall.onCoded, InstCall.onSlots, Arg.ref]
    · refine CodedSlots.owner_congr ?_ (Function.update_of_ne hg ..) (Function.update_of_ne hg ..)
      simp [InstCall.onCoded, InstCall.onSlots, hg]
  refine ⟨_, hok, ht.counted.create op hok, fun r hr => ?_, hflat, ?_⟩
  · rcases Finset.mem_insert.mp hr with rfl | hr
    · simp [InstCall.onCoded, Heap.created, hcount]
    · have hne := hother hr
      simpa [InstCall.onCoded, Heap.created, hcount, hne] using ht.op r hr
  · have hhead : ∀ d, ((InstCall.create op).onCoded s).IsHead d ↔
        s.IsHead d ∨ d = s.count ∧ op.isPseudoOperation = false := by
      intro d
      by_cases hd : d = s.count
      · subst hd
        simp [CodedSlots.IsHead, CodedSlots.isChained, InstCall.onCoded, InstCall.onSlots, hnew]
      · simp [CodedSlots.IsHead, CodedSlots.isChained, InstCall.onCoded, InstCall.onSlots, hd]
    rw [hnext, howner, funext fun d => propext (hhead d)]
    cases hop : op.isPseudoOperation with
    | true => simpa using ht.chains
    | false =>
      simp only [and_true]
      refine ht.chains.add_head hlink hownerNew fun g hg => ?_
      exact hnew (ht.chains.owned g _ hg).1.1

/-- A destroyed instruction is taken out of its chain, and leaves none behind. -/
theorem Tracked.destroy (ht : Tracked s h) (hallowed : (InstCall.destroy u).Allowed s.toSlots)
    (hflat : ((InstCall.destroy u).onCoded s).Flat) :
    ∃ h', destroyInst P u h = .ok () h' ∧ Tracked ((InstCall.destroy u).onCoded s) h' := by
  have hu := hallowed.1
  have hchains : ∃ h', destroyInst P u h = .ok () h' ∧
      Chains h'.next ((InstCall.destroy u).onCoded s).IsHead
        ((InstCall.destroy u).onCoded s).owner := by
    have hhead : ((InstCall.destroy u).onCoded s).IsHead = fun d => s.IsHead d ∧ d ≠ u := by
      funext d
      simp only [CodedSlots.IsHead, CodedSlots.isChained, InstCall.onCoded, InstCall.onSlots,
        Finset.mem_erase, eq_iff_iff]
      tauto
    have howner : ((InstCall.destroy u).onCoded s).owner = Function.update s.owner u none := by
      funext g
      by_cases hg : g = u
      · subst hg
        simp [CodedSlots.owner, InstCall.onCoded, InstCall.onSlots]
      · rw [Function.update_of_ne hg]
        refine CodedSlots.owner_congr ?_ rfl rfl
        simp [InstCall.onCoded, InstCall.onSlots, hg]
    rw [hhead, howner]
    cases hop : s.isChained u with
    -- A flag getter: its first slot is released, and the others refer to nothing.
    | true =>
      obtain ⟨h1, hdestroy, hchains⟩ := ht.release (P := P) hu hop
      have hsame := destroyArg_spec hdestroy
      obtain ⟨h2, hrest, hnext⟩ := forM_destroyArg_quiet (P := P) (u := u) (h := h1) [1, 2, 3]
        fun _ i hi => by
          rw [hsame.args, ht.counted.args]
          exact ht.flat.rest u hu hop i (by rintro rfl; simp at hi)
      refine ⟨h2, forM_cons_ok_iff.mpr ⟨h1, hdestroy, hrest⟩, ?_⟩
      have hheads : (fun d => s.IsHead d ∧ d ≠ u) = s.IsHead := by
        funext d
        refine propext ⟨fun hd => hd.1, fun hd => ⟨hd, ?_⟩⟩
        rintro rfl
        simpa [hop] using hd.2
      rw [hheads, hnext]
      exact hchains
    -- Another operation: nothing refers to it, so its chain is empty.
    | false =>
      have hpseudo : (h.inst u).op.isPseudoOperation = false := (ht.op u hu).symm ▸ hop
      obtain ⟨h1, hok, hnext⟩ := forM_destroyArg_quiet (P := P) (u := u) (h := h)
        (List.finRange 4) fun htrue => by rw [hpseudo] at htrue; cases htrue
      have hfree : s.owner u = none := if_neg fun hmem => by simp [hop] at hmem
      refine ⟨h1, hok, ?_⟩
      rw [hnext, Function.update_eq_self_iff.mpr hfree.symm]
      refine ht.chains.drop_head fun g hg => ?_
      obtain ⟨hlive, hopg, hval⟩ := ht.flat.owner_eq_some_iff.mp hg
      have hgu : g ≠ u := by
        rintro rfl
        rw [hop] at hopg
        cases hopg
      exact hallowed.2 g hlive hgu 0 (by rw [hval]; rfl)
  obtain ⟨h', hok, hchains⟩ := hchains
  refine ⟨h', hok, ht.counted.destroy hallowed hok, fun r hr => ?_, hflat, hchains⟩
  exact ((destroyInst_counts hok).1.op r).trans (ht.op r (Finset.mem_of_mem_erase hr))

/-- One call returns, and keeps the chains. -/
theorem Tracked.step {c : InstCall} (ht : Tracked s h) (hallowed : c.Allowed s.toSlots)
    (hrange : c.InRange) (hflat : (c.onCoded s).Flat) :
    ∃ h', c.exec P h = .ok () h' ∧ Tracked (c.onCoded s) h' := by
  cases c with
  | create op => exact ht.create op hflat
  | setArg u index a => exact ht.setArg hallowed hrange hflat
  | setArgs u as => exact hrange.elim
  | destroy u => exact ht.destroy hallowed hflat

/-- A run returns, and keeps the chains. -/
theorem Tracked.run {cs : List InstCall} (ht : Tracked s h) (hflat : InstCall.AllFlat s cs) :
    ∃ h', (forM cs (InstCall.exec P) : InstM Unit) h = .ok () h' ∧
      Tracked (cs.foldl InstCall.onCoded s) h' := by
  induction cs generalizing s h with
  | nil => exact ⟨h, rfl, ht⟩
  | cons c cs ih =>
    obtain ⟨⟨hallowed, hrange, hflatc⟩, hrest⟩ := hflat
    obtain ⟨h1, hstep, ht1⟩ := ht.step (P := P) hallowed hrange hflatc
    obtain ⟨h', hrun, ht'⟩ := ih ht1 hrest
    exact ⟨h', forM_cons_ok_iff.mpr ⟨h1, hstep, hrun⟩, ht'⟩

/-- At the start there are no instructions. -/
theorem Tracked.empty : Tracked .empty .empty where
  counted := .empty
  op _ hr := absurd hr (Finset.notMem_empty _)
  flat := ⟨fun _ hu => absurd hu (Finset.notMem_empty _),
    fun _ hu => absurd hu (Finset.notMem_empty _), fun _ hu => absurd hu (Finset.notMem_empty _)⟩
  chains := by
    refine ⟨fun _ hd => absurd hd.1 (Finset.notMem_empty _), fun g d hg => ?_, fun _ _ _ => rfl⟩
    cases hg

/-- `SetArgs` is a sequence of calls of `SetArg`. -/
theorem forM_setArgCalls (as : List CallArg) (i : ℕ) :
    (forM (InstCall.setArgCalls u i as) (InstCall.exec P) : InstM Unit) = setArgs P u i as := by
  induction as generalizing i with
  | nil => rfl
  | cons a as ih =>
    rw [InstCall.setArgCalls, List.forM_cons, ih, setArgs]
    rfl

/-- A run with `SetArgs` taken apart. -/
theorem forM_flatMap_single (cs : List InstCall) :
    (forM (cs.flatMap InstCall.single) (InstCall.exec P) : InstM Unit) =
      forM cs (InstCall.exec P) := by
  induction cs with
  | nil => rfl
  | cons c cs ih =>
    have hone : ∀ c : InstCall, (forM [c] (InstCall.exec P) : InstM Unit) = c.exec P := by
      intro c
      rw [List.forM_cons, List.forM_nil]
      exact bind_pure_unit
    have hc : (forM c.single (InstCall.exec P) : InstM Unit) = c.exec P := by
      cases c with
      | setArgs u as => exact forM_setArgCalls as 0
      | _ => exact hone _
    rw [List.flatMap_cons, List.forM_append, List.forM_cons, hc, ih]

end Runs

/-! ## Answers -/

/-- A live instruction with an operation reads `d`. -/
def Reads (live : Finset InstRef) (h : Heap) (c : OpCode) (d g : InstRef) : Prop :=
  g ∈ live ∧ (h.inst g).op = c ∧ (h.inst g).args 0 = .value d

/-- `GetPseudoOperation` returns, and returns an instruction with the operation that reads `d`
whenever there is one. -/
def Finds (P : Platform) (live : Finset InstRef) (h : Heap) (d : InstRef) (c : OpCode) : Prop :=
  ∃ r, getPseudoOperation P d c h = .ok r h ∧ (∀ g ∈ r, Reads live h c d g) ∧
    (r.isSome ↔ ∃ g, Reads live h c d g)

section Answers

variable {P : Platform} {s : CodedSlots} {h : Heap} {d g : InstRef} {c : OpCode}
  {gs as bs : List InstRef}

/-- `GetParity` is a flag getter that is no pseudo operation. -/
theorem OpCode.isFlagGetter_iff : c.isFlagGetter ↔ c.isPseudoOperation ∨ c = .getParity := by
  cases c <;> decide

/-- The loop of `GetPseudoOperation` comes to the first member with the operation. -/
theorem getPseudoOperation_of_after (hafter : After h.next d gs) (hlen : gs.length ≤ h.count)
    (c : OpCode) : getPseudoOperation P d c h =
      (ofExcept ((gs.find? fun g => (h.inst g).op = c).elim (.ok none) (assertReads P h d)) :
        InstM (Option InstRef)) h := by
  -- The loop passes the members of the chain in turn.
  have hwalk : iterate (getPseudoOperationBody P h d c) (h.count + 1) (h.next d) =
      some ((gs.find? fun g => (h.inst g).op = c).elim (.ok none) (assertReads P h d)) := by
    refine hafter.iterate_find (r := fun o => o.elim (.ok none) (assertReads P h d)) ?_
      (fun g hg => ?_) (fun g hg => ?_) (Nat.lt_succ_of_le hlen)
    · rfl
    · exact if_neg (by simpa using hg)
    · exact if_pos (by simpa using hg)
  have hstart : getPseudoOperation P d c h =
      (ofExcept ((iterate (getPseudoOperationBody P h d c) (h.count + 1) (h.next d)).getD
        (.error .endless)) : InstM (Option InstRef)) h := rfl
  rw [hstart, hwalk]
  rfl

/-- An instruction whose link leads through what it owns is answered. -/
theorem Tracked.finds (ht : Tracked s h) (hafter : After h.next d gs) (hnodup : gs.Nodup)
    (hmem : ∀ g, g ∈ gs ↔ s.owner g = some d) (hc : c.isFlagGetter) : Finds P s.live h d c := by
  have hlen := ht.length_le hnodup fun g hg => (hmem g).mp hg
  -- What reads `d` is in its chain. A `GetParity` would not be, but it reads nothing.
  have howned : ∀ g, Reads s.live h c d g → g ∈ gs := by
    rintro g ⟨hlive, hop, hval⟩
    rw [ht.op g hlive] at hop
    rw [ht.counted.args] at hval
    rcases OpCode.isFlagGetter_iff.mp hc with hpseudo | rfl
    · have hchained : s.isChained g = true := by
        rw [CodedSlots.isChained, hop]
        exact hpseudo
      exact (hmem g).mpr (ht.flat.owner_eq_some_iff.mpr ⟨hlive, hchained, hval⟩)
    · exact absurd (by rw [hval]; rfl) (ht.flat.parity g hlive hop)
  rw [Finds, getPseudoOperation_of_after hafter hlen]
  cases hfind : gs.find? fun g => (h.inst g).op = c with
  -- No member has the operation, or the first one that does reads `d`.
  | none =>
    refine ⟨none, rfl, fun g hg => (by cases hg), ?_⟩
    refine iff_of_false (by simp) ?_
    rintro ⟨g, hg⟩
    have hne := List.find?_eq_none.mp hfind g (howned g hg)
    exact hne (by simpa using hg.2.1)
  | some g =>
    have hop : (h.inst g).op = c := by simpa using List.find?_some hfind
    have hown := (hmem g).mp (List.mem_of_find?_eq_some hfind)
    have hreads : Reads s.live h c d g :=
      ⟨(ht.flat.owner_eq_some_iff.mp hown).1, hop, ht.reads hown⟩
    refine ⟨some g, ?_, fun g' hg' => ?_, iff_of_true rfl ⟨g, hreads⟩⟩
    · simp only [Option.elim_some, assertReads, ht.reads hown]
      simp [ofExcept_ok_iff]
    · exact Option.some.inj hg' ▸ hreads

/-- A flag getter is asked for one behind it in the chain, and stops at the assertion. -/
theorem Tracked.not_finds (ht : Tracked s h) (hafter : After h.next d (as ++ g :: bs))
    (hnodup : (as ++ g :: bs).Nodup) (hmem : ∀ x, x ∈ as ++ g :: bs ↔ s.owner x = some d)
    {g' : InstRef} (hg' : g' ∈ bs) : ¬ Finds P s.live h g (h.inst g').op := by
  have howned : ∀ x ∈ bs, s.owner x = some d := fun x hx => (hmem x).mp (by simp [hx])
  have hne : d ≠ g := by
    rintro rfl
    have hself := ht.chains.owned d d ((hmem d).mp (by simp))
    exact hself.2 hself.1
  have hbs : bs.Nodup := (List.nodup_append'.mp hnodup).2.1.of_cons
  have hlen := ht.length_le hbs howned
  -- The loop comes to a member behind `g`, which reads `d` and not `g`.
  obtain ⟨x, hfind⟩ := Option.isSome_iff_exists.mp
    ((List.find?_isSome (p := fun x => decide ((h.inst x).op = (h.inst g').op))).mpr
      ⟨g', hg', by simp⟩)
  have hreads := ht.reads (howned x (List.mem_of_find?_eq_some hfind))
  rintro ⟨r, hok, -⟩
  rw [getPseudoOperation_of_after hafter.of_append hlen, hfind, ofExcept_ok_iff] at hok
  simp [assertReads, hreads, hne] at hok

/-- Every question is answered exactly when no two flag getters read the same instruction. -/
theorem Tracked.finds_iff (ht : Tracked s h) :
    (∀ d ∈ s.live, ∀ c : OpCode, c.isFlagGetter → Finds P s.live h d c) ↔ s.OneGetter := by
  constructor
  · intro hall g hg g' hg' hop hop' d hd hd'
    have hgd : s.owner g = some d := (CodedSlots.owner_of_chained hg hop).trans hd
    have hgd' : s.owner g' = some d := (CodedSlots.owner_of_chained hg' hop').trans hd'
    obtain ⟨gs, hafter, hnodup, hmem⟩ := ht.chains.chain d (ht.chains.owned g d hgd).1
    have hasked : ∀ {x x'}, x ∈ s.live → x' ∈ s.live → s.isChained x' →
        Finds P s.live h x (h.inst x').op := fun hx hx' hopx' =>
      hall _ hx _ (OpCode.isFlagGetter_iff.mpr (.inl (ht.op _ hx' ▸ hopx')))
    obtain ⟨as, bs, rfl⟩ := List.append_of_mem ((hmem g).mpr hgd)
    -- The one that comes first in the chain is asked for the other one.
    rcases List.mem_append.mp ((hmem g').mpr hgd') with hbefore | hmemg
    · obtain ⟨as1, as2, rfl⟩ := List.append_of_mem hbefore
      rw [List.append_assoc, List.cons_append] at hafter hnodup hmem
      exact absurd (hasked hg' hg hop) (ht.not_finds hafter hnodup hmem (by simp))
    · rcases List.mem_cons.mp hmemg with rfl | hbehind
      · rfl
      · exact absurd (hasked hg hg' hop') (ht.not_finds hafter hnodup hmem hbehind)
  · intro hone d hd c hc
    cases hop : s.isChained d with
    | false =>
      obtain ⟨gs, hafter, hnodup, hmem⟩ := ht.chains.chain d ⟨hd, hop⟩
      exact ht.finds hafter hnodup hmem hc
    | true =>
      -- Nothing reads a flag getter, and it is alone in its chain.
      have hend : h.next d = none := by
        cases hown : s.owner d with
        | none => exact ht.chains.free d (fun hhead => by simpa [hop] using hhead.2) hown
        | some e =>
          obtain ⟨gs, hafter, hnodup, hmem⟩ := ht.chains.chain e (ht.chains.owned d e hown).1
          have halone : ∀ x ∈ gs, x = d := by
            intro x hx
            obtain ⟨hlive, hopx, hval⟩ := ht.flat.owner_eq_some_iff.mp ((hmem x).mp hx)
            refine hone x hlive d hd hopx hop e (by rw [hval]; rfl) ?_
            exact (CodedSlots.owner_of_chained hd hop).symm.trans hown
          obtain ⟨as, bs, rfl⟩ := List.append_of_mem ((hmem d).mpr hown)
          cases bs with
          | nil => exact hafter.of_append
          | cons b bs =>
            have hb : b = d := halone b (by simp)
            have hnot := (List.nodup_cons.mp (List.nodup_append'.mp hnodup).2.1).1
            exact absurd (by simp [hb]) hnot
      refine ht.finds (show After h.next d [] from hend) List.nodup_nil (fun g => ?_) hc
      refine iff_of_false List.not_mem_nil fun hg => ?_
      have hhead := (ht.chains.owned g d hg).1.2
      rw [hop] at hhead
      cases hhead

/-- A run through flat states returns. All its answers are right exactly when no two flag getters
read the same instruction, and those of the instructions that are no flag getters always are. -/
theorem pseudo_found_iff {cs : List InstCall}
    (hflat : InstCall.AllFlat .empty (cs.flatMap InstCall.single)) :
    ∃ h, (forM cs (InstCall.exec P) : InstM Unit) .empty = .ok () h ∧
      ((∀ d ∈ (codedAfter cs).live, ∀ c : OpCode, c.isFlagGetter →
          Finds P (codedAfter cs).live h d c) ↔ (codedAfter cs).OneGetter) ∧
      ∀ d ∈ (codedAfter cs).live, (h.inst d).op.isPseudoOperation = false →
        ∀ c : OpCode, c.isFlagGetter → Finds P (codedAfter cs).live h d c := by
  obtain ⟨h, hok, ht⟩ := Tracked.empty.run (P := P) hflat
  rw [forM_flatMap_single] at hok
  refine ⟨h, hok, ht.finds_iff, fun d hd hop c hc => ?_⟩
  rw [ht.op d hd] at hop
  obtain ⟨gs, hafter, hnodup, hmem⟩ := ht.chains.chain d ⟨hd, hop⟩
  exact ht.finds hafter hnodup hmem hc

end Answers

/-- Two values with a flag getter each: one of them is re-pointed from the first value to the second
one, and a third flag getter of the second value is destroyed. -/
def repointed : List InstCall :=
  [.create .loadImm, .create .loadImm, .create .getCarry, .setArgs 2 [.value 0], .create .getZero,
    .setArgs 3 [.value 0], .create .getNZCV, .setArgs 4 [.value 1], .setArg 3 0 (.value 1),
    .destroy 4]

/-- Every question to the four instructions that are left is answered. -/
theorem pseudo_found_repointed :
    ∃ h, (forM repointed (InstCall.exec .plain) : InstM Unit) .empty = .ok () h ∧
      ∀ d ∈ ({0, 1, 2, 3} : Finset InstRef), ∀ c : OpCode, c.isFlagGetter →
        Finds .plain {0, 1, 2, 3} h d c := by
  have hflat : InstCall.AllFlat .empty (repointed.flatMap InstCall.single) := by decide +kernel
  obtain ⟨h, hok, hiff, -⟩ := pseudo_found_iff (P := .plain) hflat
  have hlive : (codedAfter repointed).live = {0, 1, 2, 3} := by decide +kernel
  have hone : (codedAfter repointed).OneGetter := by decide +kernel
  refine ⟨h, hok, ?_⟩
  rw [← hlive]
  exact hiff.mpr hone

/-- A flag getter that reads another one hangs in the chain of what that one reads, where it is
found and stops the question at the assertion; and a `GetParity` is not found at all. -/
theorem nested_getter_raises :
    (∃ h, (forM [.create .loadImm, .create .getCarry, .setArgs 1 [.value 0], .create .getZero,
        .setArgs 2 [.value 1]] (InstCall.exec .plain) : InstM Unit) .empty = .ok () h ∧
      ∃ h', getPseudoOperation .plain 0 .getZero h = .error .raised h') ∧
    ∃ h, (forM [.create .loadImm, .create .getParity, .setArgs 1 [.value 0]]
        (InstCall.exec .plain) : InstM Unit) .empty = .ok () h ∧
      Reads {0, 1} h .getParity 0 1 ∧ getPseudoOperation .plain 0 .getParity h = .ok none h := by
  constructor
  -- The getter of the zero flag reads that of the carry flag, and so stands behind it in the chain.
  · have hcheck : ((returned ((forM [.create .loadImm, .create .getCarry, .setArgs 1 [.value 0],
        .create .getZero, .setArgs 2 [.value 1]] (InstCall.exec .plain) : InstM Unit) .empty)).any
        fun h => ((stopped (getPseudoOperation .plain 0 .getZero h)).map Prod.fst) =
          some .raised) = true := by
      decide +kernel
    obtain ⟨h, hreturned, hstop⟩ := exists_of_any hcheck
    obtain ⟨⟨e, h'⟩, hstopped, rfl⟩ := Option.map_eq_some_iff.mp hstop
    exact ⟨h, returned_eq_some_iff.mp hreturned, h', stopped_eq_some_iff.mp hstopped⟩
  · refine ⟨_, rfl, ?_, rfl⟩
    exact ⟨by decide, rfl, rfl⟩

end SwiftRuntime.Ir
