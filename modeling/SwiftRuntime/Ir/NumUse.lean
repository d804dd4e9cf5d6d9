import SwiftRuntime.Ir.Inst
import Mathlib.Algebra.BigOperators.Fin

/-!
# Use counts

`num_use` of an instruction counts the argument slots that refer to it. `SetArg` releases what a
slot held before it writes the slot, and uses what it has written afterwards, so that the count of
every instruction moves with the slots (`setArg_balanced`). An instruction that is destroyed
releases its slots (`destroyInst_counts`).

What the calls leave in the slots is said by `Slots`, without counts and chains. `Counted` ties the
heap to it. The count is a byte, so the law that is carried along a run is one of remainders by 256,
and `numUse_exact_iff` says that the count is the number of references as long as there are fewer
than 256 of them.
-/

namespace SwiftRuntime.Ir

/-- `~Inst`: every slot is released. -/
def destroyInst (P : Platform) (u : InstRef) : InstM Unit := forM (List.finRange 4) (destroyArg P u)

/-- Whether a slot refers to an instruction, as a number. -/
def Arg.refersTo (a : Arg) (v : InstRef) : ℕ := if a.ref = some v then 1 else 0

/-- The number of slots of one instruction that refer to another. -/
def slotRefs (g : Fin 4 → Arg) (v : InstRef) : ℕ := ∑ i, (g i).refersTo v

/-- What is done to instructions. -/
inductive InstCall
  | create (op : OpCode)
  | setArg (u : InstRef) (index : ℕ) (a : CallArg)
  | setArgs (u : InstRef) (as : List CallArg)
  | destroy (u : InstRef)
deriving DecidableEq, Repr

/-- A call in the code. -/
def InstCall.exec (P : Platform) : InstCall → InstM Unit
  | create op => do
    let _ ← newInst op
    pure ()
  | setArg u index a => Ir.setArg P u index a
  | setArgs u as => Ir.setArgs P u 0 as
  | destroy u => destroyInst P u

/-- The heap before the first instruction. -/
def Heap.empty : Heap := ⟨fun _ => { op := .void }, 0⟩

/-- What the slots of the instructions hold, and which of these have not been destroyed. -/
structure Slots where
  /-- The number of instructions that have been created. -/
  count : ℕ
  /-- The slots. -/
  args : InstRef → Fin 4 → Arg
  /-- The live instructions. -/
  live : Finset InstRef

namespace Slots

/-- No instructions. -/
def empty : Slots := ⟨0, fun _ _ => .void, ∅⟩

/-- The number of slots of live instructions that refer to an instruction. -/
def references (t : Slots) (v : InstRef) : ℕ := ∑ u ∈ t.live, slotRefs (t.args u) v

end Slots

namespace InstCall

/-- What a call does to the slots. -/
def onSlots (t : Slots) : InstCall → Slots
  | create _ =>
    ⟨t.count + 1, Function.update t.args t.count fun _ => .void, insert t.count t.live⟩
  | setArg u index a =>
      { t with args := Function.update t.args u (placed (t.args u) index a.slots) }
  | setArgs u as => { t with args := Function.update t.args u (placedArgs (t.args u) 0 as) }
  | destroy u => { t with live := t.live.erase u }

/-- The instruction a call is made on and the values it is given are live, and an instruction is
destroyed only when no other one refers to it. -/
def Allowed (t : Slots) : InstCall → Prop
  | create _ => True
  | setArg u _ a => u ∈ t.live ∧ ∀ v ∈ a.refs, v ∈ t.live
  | setArgs u as => u ∈ t.live ∧ ∀ v ∈ as.flatMap CallArg.refs, v ∈ t.live
  | destroy u => u ∈ t.live ∧ ∀ w ∈ t.live, w ≠ u → ∀ i, (t.args w i).ref ≠ some u

/-- Whether a call refers to live instructions only can be computed. -/
instance (t : Slots) : DecidablePred (Allowed t)
  | create _ => isTrue trivial
  | setArg u _ a => inferInstanceAs (Decidable (u ∈ t.live ∧ ∀ v ∈ a.refs, v ∈ t.live))
  | setArgs u as =>
    inferInstanceAs (Decidable (u ∈ t.live ∧ ∀ v ∈ as.flatMap CallArg.refs, v ∈ t.live))
  | destroy u =>
    inferInstanceAs (Decidable (u ∈ t.live ∧
      ∀ w ∈ t.live, w ≠ u → ∀ i, (t.args w i).ref ≠ some u))

/-- Every call of a sequence is allowed where it is made. -/
def AllAllowed : Slots → List InstCall → Prop
  | _, [] => True
  | t, c :: cs => c.Allowed t ∧ AllAllowed (c.onSlots t) cs

/-- Whether all calls of a run do can be computed. -/
instance decidableAllAllowed : ∀ t cs, Decidable (AllAllowed t cs)
  | _, [] => isTrue trivial
  | t, c :: cs =>
    have := decidableAllAllowed (c.onSlots t) cs
    inferInstanceAs (Decidable (c.Allowed t ∧ AllAllowed (c.onSlots t) cs))

end InstCall

/-- The slots after a sequence of calls. -/
def slotsAfter (cs : List InstCall) : Slots := cs.foldl InstCall.onSlots .empty

/-! ## What the code does to use counts -/

section Counts

variable {P : Platform} {u v : InstRef} {h h' : Heap}

/-- From `h` to `h'` the use counts grow by `gain` and fall by `loss`, as bytes do. -/
def Counts (gain loss : InstRef → ℕ) (h h' : Heap) : Prop :=
  ∀ r, ((h'.inst r).numUse.toNat + loss r) % 256 = ((h.inst r).numUse.toNat + gain r) % 256

/-- Nothing is counted. -/
theorem Counts.refl (h : Heap) : Counts 0 0 h h := fun _ => rfl

/-- A change to one instruction that leaves its use count alone. -/
theorem numUse_update (h : Heap) (p : InstRef) {k : Inst → Inst} (hk : ∀ i, (k i).numUse = i.numUse)
    (r : InstRef) : ((h.update p k).inst r).numUse = (h.inst r).numUse := by
  by_cases hr : r = p
  · subst hr
    simp [Heap.update, hk]
  · simp [Heap.update, hr]

/-- A change of a link changes no count. -/
theorem numUse_relink (h : Heap) (p : InstRef) (n : Option InstRef) (r : InstRef) :
    ((h.relink p n).inst r).numUse = (h.inst r).numUse := by
  rw [Heap.relink, numUse_update]
  exact fun _ => rfl

/-- `Use` counts one use. -/
theorem use_counts {user : InstRef} (hok : use P user v h = .ok () h') :
    Counts (fun r => if r = v then 1 else 0) 0 h h' := by
  have hcount : ∀ r, (h'.inst r).numUse = ((h.recount v (· + 1)).inst r).numUse := by
    rcases use_ok_iff.mp hok with ⟨-, rfl⟩ | ⟨-, p, -, rfl⟩
    · exact fun _ => rfl
    · exact numUse_relink _ p _
  intro r
  rw [hcount r]
  by_cases hr : r = v
  · subst hr
    have hone : (1 : UInt8).toNat = 1 := rfl
    simp only [Heap.recount, Heap.update, Function.update_self, UInt8.toNat_add, hone, if_true,
      Pi.zero_apply]
    omega
  · simp [Heap.recount, Heap.update, hr]

/-- `UnUse` takes one use off. -/
theorem unUse_counts {user : InstRef} (hok : unUse P user v h = .ok () h') :
    Counts 0 (fun r => if r = v then 1 else 0) h h' := by
  -- The links that `UnUse` changes are no counts.
  have hcount : ∀ r, (h'.inst r).numUse = ((h.recount v (· - 1)).inst r).numUse := by
    rcases unUse_ok_iff.mp hok with ⟨-, rfl⟩ | ⟨-, p, -, rfl⟩
    · exact fun _ => rfl
    · intro r
      rw [numUse_relink, numUse_relink]
  intro r
  rw [hcount r]
  by_cases hr : r = v
  · subst hr
    have hone : (1 : UInt8).toNat = 1 := rfl
    simp only [Heap.recount, Heap.update, Function.update_self, UInt8.toNat_sub, hone, if_true,
      Pi.zero_apply]
    omega
  · simp [Heap.recount, Heap.update, hr]

/-- `DestroyArg` releases the slot, and changes no slot. -/
theorem destroyArg_counts {i : Fin 4} (hok : destroyArg P u i h = .ok () h') :
    SameArgs h h' ∧ Counts 0 (((h.inst u).args i).refersTo) h h' := by
  rw [destroyArg_eq] at hok
  unfold Arg.refersTo
  cases hr : ((h.inst u).args i).ref with
  | some v =>
    rw [hr] at hok
    refine ⟨unUse_spec hok, fun r => ?_⟩
    have hcount := unUse_counts hok r
    simpa [eq_comm] using hcount
  | none =>
    rw [hr] at hok
    obtain ⟨-, rfl⟩ := pure_ok_iff.mp hok
    exact ⟨.refl _, fun r => rfl⟩

/-! ## The slots of one instruction -/

/-- Overwriting a slot changes the number of references by what it held and what it holds now. -/
theorem slotRefs_set (g : Fin 4 → Arg) {i : ℕ} (hi : i < 4) (a : Arg) (v : InstRef) :
    slotRefs (fun j => if j.val = i then a else g j) v + (g ⟨i, hi⟩).refersTo v =
      slotRefs g v + a.refersTo v := by
  -- The other slots refer to the same.
  have hrest : ∑ j ∈ Finset.univ.erase (⟨i, hi⟩ : Fin 4),
      (if j.val = i then a else g j).refersTo v =
      ∑ j ∈ Finset.univ.erase (⟨i, hi⟩ : Fin 4), (g j).refersTo v := by
    refine Finset.sum_congr rfl fun j hj => ?_
    have hne : j.val ≠ i := fun he => Finset.ne_of_mem_erase hj (Fin.ext he)
    rw [if_neg hne]
  have hnew := Finset.sum_erase_add Finset.univ (fun j : Fin 4 =>
    (if j.val = i then a else g j).refersTo v)
    (Finset.mem_univ ⟨i, hi⟩)
  have hold := Finset.sum_erase_add Finset.univ (fun j : Fin 4 => (g j).refersTo v)
    (Finset.mem_univ ⟨i, hi⟩)
  dsimp only at hnew hold
  rw [if_pos rfl, hrest] at hnew
  simp only [slotRefs]
  omega

/-- The number of references among arguments. -/
def argRefs (as : List Arg) (v : InstRef) : ℕ := (as.map (·.refersTo v)).sum

/-- The references among arguments are the values that are used for them. -/
theorem count_filterMap_ref (as : List Arg) (v : InstRef) :
    (as.filterMap Arg.ref).count v = argRefs as v := by
  induction as with
  | nil => rfl
  | cons a as ih =>
    simp only [argRefs, List.map_cons, List.sum_cons, Arg.refersTo] at ih ⊢
    cases hr : a.ref with
    | none => simp [hr, ih]
    | some w =>
      rw [List.filterMap_cons_some hr, List.count_cons, ih]
      by_cases hw : w = v
      · simp [hw, Nat.add_comm]
      · simp [hw]

/-- Writing slots releases what they held; what they hold now is not counted yet. -/
theorem putArgs_counts {i : ℕ} {as : List Arg} (hok : putArgs P u i as h = .ok () h')
    (r : InstRef) :
    ((h'.inst r).numUse.toNat + slotRefs (h.inst u).args r + argRefs as r) % 256 =
      ((h.inst r).numUse.toNat + slotRefs (h'.inst u).args r) % 256 := by
  induction as generalizing i h with
  | nil =>
    rw [putArgs, pure_ok_iff] at hok
    rw [← hok.2]
    rfl
  | cons a as ih =>
    rw [putArgs, bind_ok_iff] at hok
    obtain ⟨⟨⟩, h1, ha, has⟩ := hok
    obtain ⟨hi, hset⟩ := putArg_spec ha
    have hslot := slotRefs_set (h.inst u).args hi a r
    rw [← hset.self] at hslot
    -- `SetArg` calls `DestroyArg` before it overwrites the slot.
    have hcount : ((h1.inst r).numUse.toNat + ((h.inst u).args ⟨i, hi⟩).refersTo r) % 256 =
        (h.inst r).numUse.toNat % 256 := by
      obtain ⟨_, h2, hd, rfl⟩ := putArg_ok_iff.mp ha
      rw [numUse_update]
      · exact (destroyArg_counts hd).2 r
      · exact fun _ => rfl
    have hrest := ih has
    simp only [argRefs, List.map_cons, List.sum_cons] at hrest ⊢
    omega

/-- The values of one argument are used. -/
theorem forM_use_counts {user : InstRef} {vs : List InstRef}
    (hok : (forM vs (use P user) : InstM Unit) h = .ok () h') :
    Counts (fun r => vs.count r) 0 h h' := by
  refine forM_induction (fun pre => Counts (fun r => pre.count r) 0 h)
    (fun pre v post h1 h2 _ hpre hstep r => ?_) (Counts.refl h) hok
  have h1 := hpre r
  have h2 := use_counts hstep r
  simp only [List.count_append, List.count_singleton, Pi.zero_apply] at h1 h2 ⊢
  by_cases hr : r = v
  · subst hr
    simp only [if_true, beq_self_eq_true] at h2 ⊢
    omega
  · have hne : (v == r) = false := by simpa using Ne.symm hr
    simp only [hr, hne, if_false, Bool.false_eq_true] at h2 ⊢
    omega

/-- From `h` to `h'` the use counts move with the references from the slots of `u`. -/
def Balanced (u : InstRef) (h h' : Heap) : Prop :=
  Counts (slotRefs (h'.inst u).args) (slotRefs (h.inst u).args) h h'

/-- `SetArg` keeps the use counts in step with the slots it writes. -/
theorem setArg_balanced {i : ℕ} {a : CallArg} (hok : setArg P u i a h = .ok () h') :
    Balanced u h h' := by
  rw [setArg, bind_ok_iff] at hok
  obtain ⟨⟨⟩, h1, hput, huse⟩ := hok
  intro r
  have hputs := putArgs_counts hput r
  have huses := forM_use_counts huse r
  simp only [CallArg.refs, count_filterMap_ref, Pi.zero_apply] at huses
  rw [(forM_use_spec huse).args u]
  omega

/-- `SetArgs` keeps the use counts in step with the slots it writes. -/
theorem setArgs_balanced {i : ℕ} {as : List CallArg} (hok : setArgs P u i as h = .ok () h') :
    Balanced u h h' := by
  induction as generalizing i h with
  | nil =>
    rw [setArgs, pure_ok_iff] at hok
    rw [← hok.2]
    exact fun r => rfl
  | cons a as ih =>
    rw [setArgs, bind_ok_iff] at hok
    obtain ⟨⟨⟩, h1, ha, has⟩ := hok
    intro r
    have h1 := setArg_balanced ha r
    have h2 := ih has r
    omega

/-- A destroyed instruction releases all its slots. -/
theorem destroyInst_counts (hok : destroyInst P u h = .ok () h') :
    SameArgs h h' ∧ Counts 0 (slotRefs (h.inst u).args) h h' := by
  -- The slots so far have been released, and the arguments stay where they are.
  have hinv := forM_induction (fun pre s => SameArgs h s ∧
    Counts 0 (fun r => (pre.map fun i => ((h.inst u).args i).refersTo r).sum) h s)
    (fun pre i post h1 h2 _ hpre hstep => ?_) ⟨SameArgs.refl h, Counts.refl h⟩ hok
  · refine ⟨hinv.1, fun r => ?_⟩
    have hcount := hinv.2 r
    rw [slotRefs, Fin.sum_univ_def]
    exact hcount
  · obtain ⟨hsame, hcounts⟩ := hpre
    obtain ⟨hsame', hcounts'⟩ := destroyArg_counts hstep
    refine ⟨hsame.trans hsame', fun r => ?_⟩
    have h1 := hcounts r
    have h2 := hcounts' r
    rw [hsame.args u] at h2
    simp only [List.map_append, List.map_singleton, List.sum_append, List.sum_singleton,
      Pi.zero_apply] at h1 h2 ⊢
    omega

end Counts

/-! ## Runs -/

/-- What holds between the heap and the slots while instructions are created, changed and
destroyed. -/
structure Counted (t : Slots) (h : Heap) : Prop where
  /-- The same instructions have been created. -/
  count : h.count = t.count
  /-- The slots on the heap. -/
  args : ∀ r, (h.inst r).args = t.args r
  /-- A live instruction has been created. -/
  lt : ∀ r ∈ t.live, r < t.count
  /-- A live instruction refers to live ones. -/
  closed : ∀ u ∈ t.live, ∀ i v, (t.args u i).ref = some v → v ∈ t.live
  /-- The use count, as a byte. -/
  numUse : ∀ v ∈ t.live, (h.inst v).numUse.toNat = t.references v % 256

section Runs

variable {P : Platform} {t : Slots} {h h' : Heap} {u : InstRef} {g : Fin 4 → Arg}

/-- At the start there are no instructions. -/
theorem Counted.empty : Counted .empty .empty where
  count := rfl
  args _ := rfl
  lt _ hr := absurd hr (Finset.notMem_empty _)
  closed _ hu := absurd hu (Finset.notMem_empty _)
  numUse _ hv := absurd hv (Finset.notMem_empty _)

/-- Nothing refers to an instruction that is not live. -/
theorem Counted.references_eq_zero (hc : Counted t h) {v : InstRef} (hv : v ∉ t.live) :
    t.references v = 0 := by
  refine Finset.sum_eq_zero fun u hu => Finset.sum_eq_zero fun i _ => ?_
  exact if_neg fun href => hv (hc.closed u hu i v href)

/-- A new instruction refers to nothing, and nothing refers to it. -/
theorem Counted.create (hc : Counted t h) (op : OpCode)
    (hok : (InstCall.create op).exec P h = .ok () h') :
    Counted ((InstCall.create op).onSlots t) h' := by
  simp only [InstCall.exec, bind_ok_iff, newInst_ok_iff, pure_ok_iff] at hok
  obtain ⟨_, _, ⟨-, rfl⟩, -, rfl⟩ := hok
  have hnew : t.count ∉ t.live := fun hmem => (hc.lt _ hmem).false
  have hother : ∀ {r}, r ∈ t.live → r ≠ t.count := fun hr he => hnew (he ▸ hr)
  have hrefs : ∀ v, ((InstCall.create op).onSlots t).references v = t.references v := by
    intro v
    have hvoid : slotRefs (fun _ => Arg.void) v = 0 := Finset.sum_eq_zero fun i _ => rfl
    have hold : ∑ u ∈ t.live, slotRefs (Function.update t.args t.count (fun _ => .void) u) v =
        ∑ u ∈ t.live, slotRefs (t.args u) v :=
      Finset.sum_congr rfl fun u hu => by rw [Function.update_of_ne (hother hu)]
    simp only [InstCall.onSlots, Slots.references, Finset.sum_insert hnew, Function.update_self]
    rw [hvoid, hold, Nat.zero_add]
  -- The fields of the invariant, each for the new instruction and for the others.
  refine ⟨?_, fun r => ?_, fun r hr => ?_, fun u hu i v href => ?_, fun v hv => ?_⟩
  · exact congrArg (· + 1) hc.count
  · rw [InstCall.onSlots, Heap.created, hc.count]
    by_cases hr : r = t.count
    · subst hr
      simp
    · simpa [hr] using hc.args r
  · rcases Finset.mem_insert.mp hr with rfl | hr
    · exact Nat.lt_succ_self _
    · exact Nat.lt_succ_of_lt (hc.lt r hr)
  · rcases Finset.mem_insert.mp hu with rfl | hu
    · simp [InstCall.onSlots, Arg.ref] at href
    · simp only [InstCall.onSlots, Function.update_of_ne (hother hu)] at href
      exact Finset.mem_insert_of_mem (hc.closed u hu i v href)
  · rw [hrefs, Heap.created, hc.count]
    rcases Finset.mem_insert.mp hv with rfl | hv
    · rw [hc.references_eq_zero hnew]
      simp
    · simpa [hother hv] using hc.numUse v hv

/-- Writing the slots of one instruction moves the references from it. -/
theorem Slots.references_write (t : Slots) (hu : u ∈ t.live) (g : Fin 4 → Arg) (v : InstRef) :
    ({ t with args := Function.update t.args u g } : Slots).references v + slotRefs (t.args u) v =
      t.references v + slotRefs g v := by
  have hrest : ∑ w ∈ t.live.erase u, slotRefs (Function.update t.args u g w) v =
      ∑ w ∈ t.live.erase u, slotRefs (t.args w) v :=
    Finset.sum_congr rfl fun w hw => by rw [Function.update_of_ne (Finset.ne_of_mem_erase hw)]
  have hnew := Finset.sum_erase_add t.live (fun w => slotRefs (Function.update t.args u g w) v) hu
  have hold := Finset.sum_erase_add t.live (fun w => slotRefs (t.args w) v) hu
  rw [hrest, Function.update_self] at hnew
  simp only [Slots.references]
  omega

/-- Slots that are written with references to live instructions, and with the use counts in step. -/
theorem Counted.write (hc : Counted t h) (hu : u ∈ t.live) (hset : ArgsSet u g h h')
    (hbal : Balanced u h h') (href : ∀ i v, (g i).ref = some v → v ∈ t.live) :
    Counted { t with args := Function.update t.args u g } h' := by
  refine ⟨hset.count.trans hc.count, fun r => ?_, hc.lt, fun w hw i v hwv => ?_, fun v hv => ?_⟩
  · by_cases hr : r = u
    · subst hr
      simpa using hset.self
    · simpa [hr] using (hset.other r hr).trans (hc.args r)
  · by_cases hwu : w = u
    · subst hwu
      exact href i v (by simpa using hwv)
    · exact hc.closed w hw i v (by simpa [hwu] using hwv)
  -- The counts move with the references, modulo `2^8`.
  · have hmoved := t.references_write hu g v
    have hcount := hbal v
    have hold := hc.numUse v hv
    have hlt := (h'.inst v).numUse.toNat_lt
    rw [hset.self, hc.args u] at hcount
    omega

/-- A destroyed instruction releases its slots. -/
theorem Counted.destroy (hc : Counted t h) (hallowed : (InstCall.destroy u).Allowed t)
    (hok : destroyInst P u h = .ok () h') : Counted ((InstCall.destroy u).onSlots t) h' := by
  obtain ⟨hu, hnone⟩ := hallowed
  obtain ⟨hsame, hcounts⟩ := destroyInst_counts hok
  refine ⟨hsame.count.trans hc.count, fun r => (hsame.args r).trans (hc.args r),
    fun r hr => hc.lt r (Finset.mem_of_mem_erase hr), fun w hw i v href => ?_, fun v hv => ?_⟩
  · obtain ⟨hne, hlive⟩ := Finset.mem_erase.mp hw
    refine Finset.mem_erase.mpr ⟨?_, hc.closed w hlive i v href⟩
    rintro rfl
    exact hnone w hlive hne i href
  -- The other instructions have as many references less as the destroyed one had.
  · have hold := hc.numUse v (Finset.mem_of_mem_erase hv)
    have hcount := hcounts v
    have hsum := Finset.sum_erase_add t.live (fun w => slotRefs (t.args w) v) hu
    have hlt := (h'.inst v).numUse.toNat_lt
    simp only [InstCall.onSlots, Slots.references, hc.args u, Pi.zero_apply] at hold hcount hsum ⊢
    omega

/-- One call keeps what is counted. -/
theorem Counted.step {c : InstCall} (hc : Counted t h) (hallowed : c.Allowed t)
    (hok : c.exec P h = .ok () h') : Counted (c.onSlots t) h' := by
  cases c with
  | create op => exact hc.create op hok
  -- What a slot refers to after the call is an argument of the call, or what it referred to before.
  | setArg u index a =>
    have hset := setArg_spec hok
    rw [hc.args u] at hset
    refine hc.write hallowed.1 hset (setArg_balanced hok) fun i v href => ?_
    have hplaced : placed (t.args u) index a.slots i ∈ a.slots ∨
        placed (t.args u) index a.slots i = t.args u i := placed_mem i
    rcases hplaced with hmem | he
    · exact hallowed.2 v (List.mem_filterMap.mpr ⟨_, hmem, href⟩)
    · rw [he] at href
      exact hc.closed u hallowed.1 i v href
  | setArgs u as =>
    have hset := setArgs_spec hok
    rw [hc.args u] at hset
    refine hc.write hallowed.1 hset (setArgs_balanced hok) fun i v href => ?_
    rcases placedArgs_ref href with hmem | hold
    · exact hallowed.2 v hmem
    · exact hc.closed u hallowed.1 i v hold
  | destroy u => exact hc.destroy hallowed hok

/-- A run keeps what is counted. -/
theorem Counted.run {cs : List InstCall} (hc : Counted t h) (hallowed : InstCall.AllAllowed t cs)
    (hok : (forM cs (InstCall.exec P) : InstM Unit) h = .ok () h') :
    Counted (cs.foldl InstCall.onSlots t) h' := by
  induction cs generalizing t h with
  | nil =>
    rw [List.forM_nil, pure_ok_iff] at hok
    rw [← hok.2]
    exact hc
  | cons c cs ih =>
    obtain ⟨h1, hstep, hrest⟩ := forM_cons_ok_iff.mp hok
    exact ih (hc.step hallowed.1 hstep) hallowed.2 hrest

/-- The references from the slots on the heap to an instruction. -/
def heapReferences (live : Finset InstRef) (h : Heap) (v : InstRef) : ℕ :=
  ∑ u ∈ live, slotRefs (h.inst u).args v

/-- The references that are found in the heap are those of the slots. -/
theorem Counted.heapReferences_eq (hc : Counted t h) (v : InstRef) :
    heapReferences t.live h v = t.references v :=
  Finset.sum_congr rfl fun u _ => by rw [hc.args u]

/-- The use count of every live instruction is the number of slots that refer to it exactly when
the calls leave each of them fewer than 256 references. -/
theorem numUse_exact_iff {cs : List InstCall} (hallowed : InstCall.AllAllowed .empty cs)
    (hok : (forM cs (InstCall.exec P) : InstM Unit) .empty = .ok () h) :
    (∀ v ∈ (slotsAfter cs).live,
        (h.inst v).numUse.toNat = heapReferences (slotsAfter cs).live h v) ↔
      ∀ v ∈ (slotsAfter cs).live, (slotsAfter cs).references v < 256 := by
  have hc : Counted (slotsAfter cs) h := Counted.empty.run hallowed hok
  refine forall₂_congr fun v hv => ?_
  rw [hc.numUse v hv, hc.heapReferences_eq]
  omega

end Runs

/-- A value with four users for each of `n` instructions. -/
def usedBy (n : ℕ) : List InstCall :=
  .create .loadImm :: (List.range n).flatMap fun k =>
    [.create .addPhi, .setArgs (k + 1) [.value 0, .value 0, .value 0, .value 0]]

/-- Two instructions refer to a value eight times; one of them is overwritten and the other one
destroyed, so that three references are left. -/
theorem numUse_exact_small :
    ∃ h, (forM (usedBy 2 ++ [.setArg 1 3 .imm, .destroy 2]) (InstCall.exec .plain) : InstM Unit)
      .empty = .ok () h ∧
      ∀ v ∈ ({0, 1} : Finset InstRef), (h.inst v).numUse.toNat = heapReferences {0, 1} h v := by
  obtain ⟨h, hok⟩ : ∃ h, returned ((forM (usedBy 2 ++ [.setArg 1 3 .imm, .destroy 2])
      (InstCall.exec .plain) : InstM Unit) .empty) = some h :=
    Option.isSome_iff_exists.mp (by decide +kernel)
  have hrun := returned_eq_some_iff.mp hok
  have hlive : (slotsAfter (usedBy 2 ++ [.setArg 1 3 .imm, .destroy 2])).live = {0, 1} := by
    decide +kernel
  refine ⟨h, hrun, ?_⟩
  rw [← hlive]
  exact (numUse_exact_iff (by decide +kernel) hrun).mpr (by decide +kernel)

/-- With 256 references from 64 instructions the use count is zero. -/
theorem numUse_wraps :
    InstCall.AllAllowed .empty (usedBy 64) ∧
      ∃ h, (forM (usedBy 64) (InstCall.exec .plain) : InstM Unit) .empty = .ok () h ∧
        0 ∈ (slotsAfter (usedBy 64)).live ∧ (h.inst 0).numUse = 0 ∧
        heapReferences (slotsAfter (usedBy 64)).live h 0 = 256 := by
  refine ⟨by decide +kernel, ?_⟩
  have hcheck : ((returned ((forM (usedBy 64) (InstCall.exec .plain) : InstM Unit) .empty)).any
      fun h => 0 ∈ (slotsAfter (usedBy 64)).live ∧ (h.inst 0).numUse = 0 ∧
        heapReferences (slotsAfter (usedBy 64)).live h 0 = 256) = true := by
    decide +kernel
  obtain ⟨h, hreturned, hwrap⟩ := exists_of_any hcheck
  exact ⟨h, returned_eq_some_iff.mp hreturned, hwrap⟩

end SwiftRuntime.Ir
