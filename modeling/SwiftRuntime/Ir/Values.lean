import SwiftRuntime.Ir.Edges
import Mathlib.Data.List.Nodup

/-!
# The values of a function

What holds of the instructions and values of every function that `HIRBuilder` builds from its own
values, as long as there are at most `2^16` of them (`Valued`): every instruction is in the list of
one block, arguments refer to values of earlier instructions, the map has exactly the values that
instructions define, it finds them, and the uses on record for a value are the argument slots that
refer to it.

Only an instruction call touches any of this. `Appended` says what it does to the instructions, the
map and the records as a whole, and `Appended.valued` is the step of the invariant. The other calls
leave everything that `Valued` reads alone (`SameValues`).
-/

namespace SwiftRuntime.Ir

namespace HirFunction

variable (f : HirFunction)

/-- The slots of an instruction that refer to a value. -/
def usesIn (v u : InstRef) : List HirUse :=
  (([0, 1, 2, 3] : List (Fin 4)).filter fun i => ((f.heap.inst u).args i).ref = some v).map
    (HirUse.mk u)

/-- All slots that refer to a value, in the order of the instructions. -/
def slotsOf (v : InstRef) : List HirUse := (List.range f.heap.count).flatMap (f.usesIn v)

/-- The instructions that define a value, the last one first. -/
def definitions : List InstRef :=
  ((List.range f.heap.count).filter fun u => (f.heap.inst u).op.hasValue).reverse

/-- The uses of a value in one instruction. -/
theorem mem_usesIn {v u : InstRef} {r : HirUse} :
    r ∈ f.usesIn v u ↔ r.inst = u ∧ ((f.heap.inst u).args r.argIdx).ref = some v := by
  obtain ⟨w, i⟩ := r
  have hall : ∀ j : Fin 4, j ∈ ([0, 1, 2, 3] : List (Fin 4)) := by decide
  simp only [usesIn, List.mem_map, List.mem_filter, hall, true_and, decide_eq_true_eq,
    HirUse.mk.injEq]
  constructor
  · rintro ⟨j, hj, rfl, rfl⟩
    exact ⟨rfl, hj⟩
  · rintro ⟨rfl, hi⟩
    exact ⟨i, hi, rfl, rfl⟩

/-- The uses of a value in all of them. -/
theorem mem_slotsOf {v : InstRef} {r : HirUse} :
    r ∈ f.slotsOf v ↔ r.inst < f.heap.count ∧
      ((f.heap.inst r.inst).args r.argIdx).ref = some v := by
  simp only [slotsOf, List.mem_flatMap, List.mem_range, mem_usesIn]
  constructor
  · rintro ⟨u, hu, rfl, hr⟩
    exact ⟨hu, hr⟩
  · rintro ⟨hu, hr⟩
    exact ⟨r.inst, hu, rfl, hr⟩

/-- The instructions that define values. -/
theorem mem_definitions {v : InstRef} :
    v ∈ f.definitions ↔ v < f.heap.count ∧ (f.heap.inst v).op.hasValue = true := by
  simp [definitions]

/-- An instruction defines one value. -/
theorem nodup_definitions : f.definitions.Nodup := by
  refine List.pairwise_reverse.mpr ?_
  exact (List.nodup_range.filter _).imp Ne.symm

/-- One more instruction defines a value or does not. -/
theorem definitions_succ {f f' : HirFunction} (hcount : f'.heap.count = f.heap.count + 1)
    (hop : ∀ r < f.heap.count, (f'.heap.inst r).op = (f.heap.inst r).op) :
    f'.definitions =
      if (f'.heap.inst f.heap.count).op.hasValue then f.heap.count :: f.definitions
      else f.definitions := by
  have hold : (List.range f.heap.count).filter (fun u => (f'.heap.inst u).op.hasValue) =
      (List.range f.heap.count).filter (fun u => (f.heap.inst u).op.hasValue) :=
    List.filter_congr fun u hu => by rw [hop u (List.mem_range.mp hu)]
  unfold HirFunction.definitions
  rw [hcount, List.range_succ, List.filter_append, hold]
  split_ifs with hval <;> simp [hval]

/-- One more instruction at the end of the list of a block. -/
theorem mem_insts_iff {f f' : HirFunction} {b : BlockRef}
    (hinsts : ∀ x, (f'.block x).insts = (f.block x).insts ++ if x = b then [f.heap.count] else [])
    (x : BlockRef) (u : InstRef) :
    u ∈ (f'.block x).insts ↔ u ∈ (f.block x).insts ∨ x = b ∧ u = f.heap.count := by
  rw [hinsts x, List.mem_append]
  split_ifs with hx <;> simp [hx]

end HirFunction

/-- The invariant of the instructions and values of a function under construction. -/
structure Valued (f : HirFunction) : Prop where
  /-- The current block is one of the blocks. -/
  current_lt : ∀ b, f.current = some b → b < f.blockCount
  /-- Only blocks have instructions. -/
  fresh : ∀ b, f.blockCount ≤ b → (f.block b).insts = []
  /-- A block's list is in the order of creation. -/
  sorted : ∀ b, (f.block b).insts.Pairwise (· < ·)
  /-- An instruction is in the list of one block only. -/
  disjoint : ∀ b c u, u ∈ (f.block b).insts → u ∈ (f.block c).insts → b = c
  /-- Every instruction is in a list. -/
  mem : ∀ u, u < f.heap.count ↔ ∃ b, u ∈ (f.block b).insts
  /-- Arguments refer to values of earlier instructions. -/
  refs : ∀ u < f.heap.count, ∀ i v, ((f.heap.inst u).args i).ref = some v →
    v < u ∧ (f.heap.inst v).op.hasValue = true
  /-- So do terminals. -/
  terminal : ∀ b v, (f.block b).terminal.ref = some v →
    v < f.heap.count ∧ (f.heap.inst v).op.hasValue = true
  /-- The map has the values that instructions define. -/
  values : f.values.toList = f.definitions
  /-- Along the map the ids descend. -/
  ids : f.values.toList.Pairwise fun v w => (f.heap.inst w).id < (f.heap.inst v).id
  /-- The next id is new. -/
  id_lt : ∀ v ∈ f.values.toList, (f.heap.inst v).id < f.valueCount
  /-- The block of a value is that of its instruction. -/
  home : ∀ v ∈ f.values.toList, v ∈ (f.block (f.hirValue v).block).insts
  /-- The uses of a value are the slots that refer to it. -/
  uses : ∀ v ∈ f.values.toList, (f.hirValue v).uses = f.slotsOf v
  /-- `LoadLocal` has a local. -/
  load : ∀ u < f.heap.count, (f.heap.inst u).op = .loadLocal →
    ∃ id ≤ f.maxLocalId, (f.heap.inst u).args 0 = .local_ id
  /-- `StoreLocal` has a local and a value. -/
  store : ∀ u < f.heap.count, (f.heap.inst u).op = .storeLocal →
    ∃ id ≤ f.maxLocalId, ∃ v, (f.heap.inst u).args 0 = .local_ id ∧
      (f.heap.inst u).args 1 = .value v

/-! ## The map of values -/

section Map

variable {f : HirFunction}

/-- A map along which the ids descend finds its values by their ids. -/
theorem HirFunction.getHIRValue_eq_some_iff
    (hids : f.values.toList.Pairwise fun v w => (f.heap.inst w).id < (f.heap.inst v).id)
    {v w : InstRef} :
    f.getHIRValue v = some w ↔ w ∈ f.values.toList ∧ (f.heap.inst w).id = (f.heap.inst v).id := by
  -- The search goes by the ids, and the map is sorted by them.
  have hguided : SearchTree.Guided (f.compareId v) f.values.toList := by
    refine hids.imp fun {a b} hab => ⟨fun hb => ?_, fun ha => ?_⟩
    · have hle : (f.heap.inst v).id ≤ (f.heap.inst b).id := by
        rw [← not_lt]
        exact fun hlt => hb (compare_lt_iff_lt.mpr hlt)
      exact compare_gt_iff_gt.mpr (hle.trans_lt hab)
    · have hle : (f.heap.inst a).id ≤ (f.heap.inst v).id := by
        rw [← not_lt]
        exact fun hlt => ha (compare_gt_iff_gt.mpr hlt)
      exact compare_lt_iff_lt.mpr (hab.trans_le hle)
  rw [HirFunction.getHIRValue, SearchTree.find_eq_some_iff hguided, HirFunction.compareId,
    compare_eq_iff_eq]

/-- Values of such a map with the same id are the same. -/
theorem HirFunction.eq_of_id_eq
    (hids : f.values.toList.Pairwise fun v w => (f.heap.inst w).id < (f.heap.inst v).id)
    {v w : InstRef} (hv : v ∈ f.values.toList) (hw : w ∈ f.values.toList)
    (heq : (f.heap.inst v).id = (f.heap.inst w).id) : v = w := by
  have hnodup : (f.values.toList.map fun v => (f.heap.inst v).id).Nodup :=
    List.pairwise_map.mpr (hids.imp fun hab => hab.ne')
  exact List.inj_on_of_nodup_map hnodup hv hw heq

end Map

/-! ## Calls that append no instruction -/

/-- From `f` to `f'` nothing changes that is about instructions and values. -/
structure SameValues (f f' : HirFunction) : Prop where
  /-- The arguments are the same. -/
  heap : SameArgs f.heap f'.heap
  /-- The map is the same. -/
  values : f'.values = f.values
  /-- The values are the same. -/
  hirValue : f'.hirValue = f.hirValue
  /-- Their number is the same. -/
  valueCount : f'.valueCount = f.valueCount
  /-- The largest local is the same. -/
  maxLocalId : f'.maxLocalId = f.maxLocalId
  /-- No block is lost. -/
  blockCount : f.blockCount ≤ f'.blockCount
  /-- The blocks have the same instructions. -/
  insts : ∀ b, (f'.block b).insts = (f.block b).insts

/-- Counting a use of a terminal changes no argument. -/
theorem sameArgs_used (f : HirFunction) (v : InstRef) : SameArgs f.heap (f.used v).heap :=
  sameArgs_update f.heap v (k := fun i => { i with numUse := i.numUse + 1 }) (fun _ => rfl)
    (fun _ => rfl) fun _ => rfl

namespace Valued

variable {f f' : HirFunction}

/-- What leaves the values alone keeps the invariant, if the current block and the terminals are
right. -/
theorem of_same (hf : Valued f) (hs : SameValues f f')
    (hcur : ∀ b, f'.current = some b → b < f'.blockCount)
    (hterm : ∀ b v, (f'.block b).terminal.ref = some v →
      v < f.heap.count ∧ (f.heap.inst v).op.hasValue = true) : Valued f' := by
  -- The arguments are the same, so the values have the same uses.
  have huses : ∀ v, f'.slotsOf v = f.slotsOf v := by
    intro v
    unfold HirFunction.slotsOf HirFunction.usesIn
    simp only [hs.heap.count, hs.heap.args]
  have hdefs : f'.definitions = f.definitions := by
    unfold HirFunction.definitions
    simp only [hs.heap.count, hs.heap.op]
  refine ⟨hcur, ?_, ?_, ?_, ?_, ?_, ?_, ?_, ?_, ?_, ?_, ?_, ?_, ?_⟩
  · intro b hb
    rw [hs.insts]
    exact hf.fresh b (hs.blockCount.trans hb)
  · simp only [hs.insts]
    exact hf.sorted
  · simp only [hs.insts]
    exact hf.disjoint
  · simp only [hs.insts, hs.heap.count]
    exact hf.mem
  · simp only [hs.heap.count, hs.heap.args, hs.heap.op]
    exact hf.refs
  · simp only [hs.heap.count, hs.heap.op]
    exact hterm
  · rw [hs.values, hdefs]
    exact hf.values
  · simp only [hs.values, hs.heap.id]
    exact hf.ids
  · simp only [hs.values, hs.heap.id, hs.valueCount]
    exact hf.id_lt
  · simp only [hs.values, hs.hirValue, hs.insts]
    exact hf.home
  · simp only [hs.values, hs.hirValue, huses]
    exact hf.uses
  · simp only [hs.heap.count, hs.heap.op, hs.heap.args, hs.maxLocalId]
    exact hf.load
  · simp only [hs.heap.count, hs.heap.op, hs.heap.args, hs.maxLocalId]
    exact hf.store

/-- Counting a use of a terminal. -/
theorem used (hf : Valued f) (v : InstRef) : Valued (f.used v) :=
  hf.of_same ⟨sameArgs_used f v, rfl, rfl, rfl, rfl, le_rfl, fun _ => rfl⟩ hf.current_lt hf.terminal

/-- Ending a block. -/
theorem ended (hf : Valued f) (b : BlockRef) {t : Terminal}
    (ht : ∀ v, t.ref = some v → v < f.heap.count ∧ (f.heap.inst v).op.hasValue = true) :
    Valued (f.ended b t) := by
  refine hf.of_same ⟨.refl _, rfl, rfl, rfl, rfl, le_rfl, fun x => by rw [f.ended_block]⟩ ?_ ?_
  · intro x hx
    cases hx
  · intro x v hv
    rw [f.ended_block] at hv
    dsimp only at hv
    split_ifs at hv
    · exact ht v hv
    · exact hf.terminal x v hv

/-- Selecting a block. -/
theorem appendBlock (hf : Valued f) (start endLoc : Location) :
    Valued (f.appendBlock start endLoc).2 := by
  -- A block that is there has been selected, or a new one has been created, which is empty.
  rcases f.appendBlock_cases start endLoc with ⟨b, hb, -, heq⟩ | ⟨-, heq⟩
  · rw [heq]
    refine hf.of_same ⟨.refl _, rfl, rfl, rfl, rfl, le_rfl, fun x => by rw [f.selected_block]⟩ ?_ ?_
    · intro x hx
      cases hx
      exact hb
    · intro x v hv
      rw [f.selected_block] at hv
      exact hf.terminal x v hv
  · rw [heq]
    have hother : ∀ x, x ≠ f.blockCount → (f.grown start endLoc).block x = f.block x :=
      fun x hx => Function.update_of_ne hx _ _
    refine hf.of_same ⟨.refl _, rfl, rfl, rfl, rfl, Nat.le_succ _, fun x => ?_⟩ ?_ ?_
    · by_cases hx : x = f.blockCount
      · rw [hx, f.grown_block_self, hf.fresh _ le_rfl]
      · rw [hother x hx]
    · intro x hx
      cases hx
      exact Nat.lt_succ_self _
    · intro x v hv
      by_cases hx : x = f.blockCount
      · rw [hx, f.grown_block_self] at hv
        cases hv
      · rw [hother x hx] at hv
        exact hf.terminal x v hv

/-- Adding an edge. -/
theorem addEdge (hf : Valued f) (src dest : BlockRef) (conditional : Bool) :
    Valued (f.addEdge src dest conditional) := by
  refine hf.of_same ⟨.refl _, rfl, rfl, rfl, rfl, le_rfl, fun x => by rw [f.addEdge_block]⟩
    hf.current_lt fun x v hv => ?_
  rw [f.addEdge_block] at hv
  exact hf.terminal x v hv

/-- Linking a block to a location. -/
theorem link (hf : Valued f) (pre : BlockRef) (conditional : Bool) (loc : Location) :
    Valued (f.link pre conditional loc) := (hf.appendBlock loc 0).addEdge _ _ _

/-- Linking a block to several locations. -/
theorem foldl_link (hf : Valued f) (pre : BlockRef) (conditional : Bool) (locs : List Location) :
    Valued (locs.foldl (HirFunction.link pre conditional) f) := by
  induction locs generalizing f with
  | nil => exact hf
  | cons loc locs ih => exact ih (hf.link pre conditional loc)

/-- Finishing a function. -/
theorem withVectors (hf : Valued f) : Valued f.withVectors := by
  refine hf.of_same ⟨.refl _, rfl, rfl, rfl, rfl, le_rfl, fun x => by rw [f.withVectors_block_eq]⟩
    hf.current_lt fun x v hv => ?_
  rw [f.withVectors_block_eq] at hv
  exact hf.terminal x v hv

end Valued

/-! ## Instruction calls -/

/-- `f'` is `f` with one more instruction, at the end of the list of block `b`. -/
structure Appended (f f' : HirFunction) (b : BlockRef) : Prop where
  /-- There is one more instruction. -/
  count : f'.heap.count = f.heap.count + 1
  /-- The operations of the others. -/
  op : ∀ r < f.heap.count, (f'.heap.inst r).op = (f.heap.inst r).op
  /-- The ids of the others. -/
  id : ∀ r < f.heap.count, (f'.heap.inst r).id = (f.heap.inst r).id
  /-- The arguments of the others. -/
  args : ∀ r < f.heap.count, (f'.heap.inst r).args = (f.heap.inst r).args
  /-- The new instruction refers to values of the others. -/
  refs : ∀ i v, ((f'.heap.inst f.heap.count).args i).ref = some v →
    v < f.heap.count ∧ (f.heap.inst v).op.hasValue = true
  /-- The blocks stay. -/
  blockCount : f'.blockCount = f.blockCount
  /-- The current block stays. -/
  current : f'.current = f.current
  /-- The terminals stay. -/
  terminal : ∀ x, (f'.block x).terminal = (f.block x).terminal
  /-- The lists of instructions. -/
  insts : ∀ x, (f'.block x).insts = (f.block x).insts ++ if x = b then [f.heap.count] else []
  /-- The map, and the id of the new value in it. -/
  values : f'.values.toList = f.values.toList ∧ (f'.heap.inst f.heap.count).op.hasValue = false ∧
      f'.valueCount = f.valueCount ∨
    f'.values.toList = f.heap.count :: f.values.toList ∧
      (f'.heap.inst f.heap.count).op.hasValue = true ∧ f'.valueCount = f.valueCount + 1 ∧
      (f'.heap.inst f.heap.count).id = f.valueCount ∧
      f'.hirValue f.heap.count = ⟨b, f'.usesIn f.heap.count f.heap.count⟩
  /-- The other values, with the new uses. -/
  hirValue : ∀ v ∈ f.values.toList, f'.hirValue v =
    ⟨(f.hirValue v).block, (f.hirValue v).uses ++ f'.usesIn v f.heap.count⟩
  /-- The local of a new `LoadLocal`. -/
  load : (f'.heap.inst f.heap.count).op = .loadLocal →
    ∃ id ≤ f'.maxLocalId, (f'.heap.inst f.heap.count).args 0 = .local_ id
  /-- The local and the value of a new `StoreLocal`. -/
  store : (f'.heap.inst f.heap.count).op = .storeLocal →
    ∃ id ≤ f'.maxLocalId, ∃ v, (f'.heap.inst f.heap.count).args 0 = .local_ id ∧
      (f'.heap.inst f.heap.count).args 1 = .value v
  /-- The largest local does not get smaller. -/
  maxLocalId : f.maxLocalId ≤ f'.maxLocalId

namespace Appended

variable {f f' : HirFunction} {b : BlockRef}

/-- The slots of the earlier instructions are the same. -/
theorem slotsOf_eq (ha : Appended f f' b) (v : InstRef) :
    f'.slotsOf v = f.slotsOf v ++ f'.usesIn v f.heap.count := by
  unfold HirFunction.slotsOf
  rw [ha.count, List.range_succ, List.flatMap_append, List.flatMap_singleton]
  congr 1
  refine List.flatMap_congr fun u hu => ?_
  unfold HirFunction.usesIn
  rw [ha.args u (List.mem_range.mp hu)]

/-- No slot of an earlier instruction refers to the new one. -/
theorem slotsOf_count (hf : Valued f) : f.slotsOf f.heap.count = [] := by
  rw [List.eq_nil_iff_forall_not_mem]
  intro r hr
  obtain ⟨hlt, href⟩ := f.mem_slotsOf.mp hr
  exact lt_asymm hlt (hf.refs r.inst hlt r.argIdx _ href).1

/-- A value of the map is defined by an earlier instruction. -/
theorem lt_of_mem (hf : Valued f) {v : InstRef} (hv : v ∈ f.values.toList) : v < f.heap.count := by
  rw [hf.values] at hv
  exact (f.mem_definitions.mp hv).1

/-- The block has one instruction more, and the others have the same. -/
theorem mem_insts (ha : Appended f f' b) (x : BlockRef) (u : InstRef) :
    u ∈ (f'.block x).insts ↔ u ∈ (f.block x).insts ∨ x = b ∧ u = f.heap.count :=
  HirFunction.mem_insts_iff ha.insts x u

/-- An instruction is an earlier one or the new one. -/
theorem lt_or_eq (ha : Appended f f' b) {u : InstRef} (hu : u < f'.heap.count) :
    u < f.heap.count ∨ u = f.heap.count := by
  rw [ha.count] at hu
  exact Nat.lt_succ_iff_lt_or_eq.mp hu

/-- What holds of the earlier values, and of the new instruction if it defines one, holds of all
values. -/
theorem forall_values (ha : Appended f f' b) {Q : InstRef → Prop}
    (hold : ∀ v ∈ f.values.toList, Q v)
    (hnew : f'.valueCount = f.valueCount + 1 → (f'.heap.inst f.heap.count).id = f.valueCount →
      f'.hirValue f.heap.count = ⟨b, f'.usesIn f.heap.count f.heap.count⟩ → Q f.heap.count) :
    ∀ v ∈ f'.values.toList, Q v := by
  rcases ha.values with ⟨hvals, -⟩ | ⟨hvals, -, hcount, hid, hvalue⟩
  · rw [hvals]
    exact hold
  · rw [hvals]
    intro v hv
    rcases List.mem_cons.mp hv with rfl | hv
    · exact hnew hcount hid hvalue
    · exact hold v hv

/-- Every instruction is in the list of one block. -/
theorem mem_iff (ha : Appended f f' b) (hf : Valued f) (u : InstRef) :
    u < f'.heap.count ↔ ∃ x, u ∈ (f'.block x).insts := by
  constructor
  · intro hu
    rcases ha.lt_or_eq hu with hu | rfl
    · obtain ⟨x, hx⟩ := (hf.mem u).mp hu
      exact ⟨x, (ha.mem_insts x u).mpr (.inl hx)⟩
    · exact ⟨b, (ha.mem_insts b _).mpr (.inr ⟨rfl, rfl⟩)⟩
  · rintro ⟨x, hx⟩
    rw [ha.count]
    rcases (ha.mem_insts x u).mp hx with hx | ⟨-, rfl⟩
    · exact Nat.lt_succ_of_lt ((hf.mem u).mpr ⟨x, hx⟩)
    · exact Nat.lt_succ_self _

/-- The ids of the values still descend. -/
theorem ids (ha : Appended f f' b) (hf : Valued f) :
    f'.values.toList.Pairwise fun v w => (f'.heap.inst w).id < (f'.heap.inst v).id := by
  have hold : f.values.toList.Pairwise fun v w => (f'.heap.inst w).id < (f'.heap.inst v).id := by
    refine hf.ids.imp_of_mem fun {v w} hv hw h => ?_
    rw [ha.id v (lt_of_mem hf hv), ha.id w (lt_of_mem hf hw)]
    exact h
  rcases ha.values with ⟨hvals, -⟩ | ⟨hvals, -, -, hid, -⟩
  · rw [hvals]
    exact hold
  · rw [hvals, List.pairwise_cons]
    refine ⟨fun v hv => ?_, hold⟩
    rw [hid, ha.id v (lt_of_mem hf hv)]
    exact hf.id_lt v hv

/-- The step of the invariant. -/
theorem valued (ha : Appended f f' b) (hf : Valued f) (hb : b < f.blockCount) : Valued f' where
  current_lt := by
    rw [ha.current, ha.blockCount]
    exact hf.current_lt
  fresh x hx := by
    rw [ha.blockCount] at hx
    rw [ha.insts x, hf.fresh x hx, if_neg (hb.trans_le hx).ne']
    rfl
  sorted x := by
    rw [ha.insts x, List.pairwise_append]
    refine ⟨hf.sorted x, by split_ifs <;> simp, fun u hu w hw => ?_⟩
    split_ifs at hw
    · rw [List.mem_singleton.mp hw]
      exact (hf.mem u).mpr ⟨x, hu⟩
    · cases hw
  disjoint x y u hx hy := by
    -- The new instruction is in no other list, since that has earlier ones.
    have hold : ∀ {z}, u ∈ (f.block z).insts → u ≠ f.heap.count := fun {z} hz =>
      ((hf.mem u).mpr ⟨z, hz⟩).ne
    rcases (ha.mem_insts x u).mp hx with hx | ⟨hxb, hu⟩ <;>
      rcases (ha.mem_insts y u).mp hy with hy | ⟨hyb, hu'⟩
    · exact hf.disjoint x y u hx hy
    · exact absurd hu' (hold hx)
    · exact absurd hu (hold hy)
    · rw [hxb, hyb]
  mem := ha.mem_iff hf
  refs u hu i v hv := by
    rcases ha.lt_or_eq hu with hu | rfl
    · rw [ha.args u hu] at hv
      obtain ⟨hvu, hval⟩ := hf.refs u hu i v hv
      exact ⟨hvu, by rw [ha.op v (hvu.trans hu)]; exact hval⟩
    · obtain ⟨hvu, hval⟩ := ha.refs i v hv
      exact ⟨hvu, by rw [ha.op v hvu]; exact hval⟩
  terminal x v hv := by
    rw [ha.terminal] at hv
    obtain ⟨hvlt, hval⟩ := hf.terminal x v hv
    exact ⟨by rw [ha.count]; exact Nat.lt_succ_of_lt hvlt, by rw [ha.op v hvlt]; exact hval⟩
  values := by
    rw [HirFunction.definitions_succ ha.count ha.op]
    rcases ha.values with ⟨hvals, hno, -⟩ | ⟨hvals, hyes, -⟩
    · rw [hvals, if_neg (by simp [hno])]
      exact hf.values
    · rw [hvals, if_pos hyes, hf.values]
  ids := ha.ids hf
  id_lt := by
    refine ha.forall_values (fun v hv => ?_) fun hcount hid _ => ?_
    · have hle : f.valueCount ≤ f'.valueCount := by
        rcases ha.values with ⟨-, -, hcount⟩ | ⟨-, -, hcount, -⟩
        · exact hcount.ge
        · exact hcount ▸ Nat.le_succ _
      rw [ha.id v (lt_of_mem hf hv)]
      exact (hf.id_lt v hv).trans_le hle
    · rw [hid, hcount]
      exact Nat.lt_succ_self _
  home := by
    refine ha.forall_values (fun v hv => ?_) fun _ _ hvalue => ?_
    · rw [ha.hirValue v hv]
      exact (ha.mem_insts _ v).mpr (.inl (hf.home v hv))
    · rw [hvalue]
      exact (ha.mem_insts b _).mpr (.inr ⟨rfl, rfl⟩)
  uses := by
    refine ha.forall_values (fun v hv => ?_) fun _ _ hvalue => ?_
    · rw [ha.hirValue v hv, ha.slotsOf_eq]
      dsimp only
      rw [hf.uses v hv]
    · rw [hvalue, ha.slotsOf_eq, slotsOf_count hf]
      rfl
  load u hu hop := by
    rcases ha.lt_or_eq hu with hu | rfl
    · rw [ha.op u hu] at hop
      obtain ⟨id, hid, harg⟩ := hf.load u hu hop
      exact ⟨id, UInt16.le_trans hid ha.maxLocalId, by rw [ha.args u hu]; exact harg⟩
    · exact ha.load hop
  store u hu hop := by
    rcases ha.lt_or_eq hu with hu | rfl
    · rw [ha.op u hu] at hop
      obtain ⟨id, hid, v, harg⟩ := hf.store u hu hop
      exact ⟨id, UInt16.le_trans hid ha.maxLocalId, v, by rw [ha.args u hu]; exact harg⟩
    · exact ha.store hop

end Appended

section Register

variable {P : Platform} {f : HirFunction}

/-- Putting one slot on record, if the map finds what the slots refer to. -/
theorem HirFunction.recordUse_eq {u : InstRef} {i : Fin 4}
    (hfind : ∀ v, ((f.heap.inst u).args i).ref = some v → f.getHIRValue v = some v) :
    f.recordUse u i = { f with hirValue := fun v =>
      ⟨(f.hirValue v).block, (f.hirValue v).uses ++
        if ((f.heap.inst u).args i).ref = some v then [⟨u, i⟩] else []⟩ } := by
  unfold HirFunction.recordUse
  cases href : ((f.heap.inst u).args i).ref with
  -- The slot refers to nothing, or the record of its value gets one more use.
  | none => simp
  | some w =>
    rw [Option.bind_some, hfind w href]
    dsimp only
    congr 1
    funext v
    by_cases hv : v = w
    · subst hv
      simp
    · simp [hv, Ne.symm hv]

/-- Putting several slots on record. -/
theorem HirFunction.foldl_recordUse {u : InstRef} (is : List (Fin 4))
    (hfind : ∀ i v, ((f.heap.inst u).args i).ref = some v → f.getHIRValue v = some v) :
    is.foldl (fun f i => f.recordUse u i) f = { f with hirValue := fun v =>
      ⟨(f.hirValue v).block, (f.hirValue v).uses ++
        (is.filter fun i => ((f.heap.inst u).args i).ref = some v).map (HirUse.mk u)⟩ } := by
  induction is generalizing f with
  | nil => simp
  | cons i is ih =>
    rw [List.foldl_cons, f.recordUse_eq (hfind i), ih]
    · dsimp only
      congr 1
      funext v
      rw [List.filter_cons, List.append_assoc]
      by_cases hi : ((f.heap.inst u).args i).ref = some v
      · simp [hi]
      · simp [hi]
    · exact hfind

/-- The larger one of two locals. -/
theorem le_max_uint16 (a b : UInt16) : a ≤ max a b ∧ b ≤ max a b := by
  have hmax : max a b = if a ≤ b then b else a := rfl
  rw [hmax]
  split_ifs with h
  · exact ⟨h, UInt16.le_refl b⟩
  · exact ⟨UInt16.le_refl a, UInt16.le_of_lt (UInt16.not_le.mp h)⟩

/-- Noting the local of an instruction. -/
theorem HirFunction.noteLocal_spec (f : HirFunction) (u : InstRef) :
    ∃ m, f.noteLocal u = { f with maxLocalId := m } ∧ f.maxLocalId ≤ m ∧
      ∀ id, (f.heap.inst u).op = .loadLocal ∨ (f.heap.inst u).op = .storeLocal →
        (f.heap.inst u).args 0 = .local_ id → id ≤ m := by
  unfold HirFunction.noteLocal
  -- A load or a store of a local, whose id is compared with the largest one, or any other
  -- instruction.
  split
  · next id _ harg =>
    refine ⟨_, rfl, (le_max_uint16 _ _).2, fun id' _ harg' => ?_⟩
    rw [harg] at harg'
    cases harg'
    exact (le_max_uint16 _ _).1
  · next id _ harg =>
    refine ⟨_, rfl, (le_max_uint16 _ _).2, fun id' _ harg' => ?_⟩
    rw [harg] at harg'
    cases harg'
    exact (le_max_uint16 _ _).1
  · next hload hstore =>
    refine ⟨_, rfl, UInt16.le_refl _, fun id hop harg => ?_⟩
    rcases hop with hop | hop
    · exact (hload id hop harg).elim
    · exact (hstore id hop harg).elim

/-- The first part of `AppendInst`: the instruction is put into the block's list and its value into
the map. -/
def HirFunction.enrolled (f : HirFunction) (P : Platform) (u : InstRef) (b : BlockRef) :
    HirFunction :=
  let pushed := f.setBlock b fun x => { x with insts := x.insts ++ [u] }
  if (f.heap.inst u).op.hasValue then pushed.createValue P u b else pushed

/-- What the first part leaves alone. -/
theorem HirFunction.enrolled_frame (f : HirFunction) (P : Platform) (u : InstRef) (b : BlockRef) :
    (f.enrolled P u b).heap.count = f.heap.count ∧
      (∀ r, ((f.enrolled P u b).heap.inst r).op = (f.heap.inst r).op) ∧
      (∀ r, ((f.enrolled P u b).heap.inst r).args = (f.heap.inst r).args) ∧
      (∀ r, r ≠ u → ((f.enrolled P u b).heap.inst r).id = (f.heap.inst r).id ∧
        (f.enrolled P u b).hirValue r = f.hirValue r) ∧
      (f.enrolled P u b).blockCount = f.blockCount ∧
      (f.enrolled P u b).current = f.current ∧
      (f.enrolled P u b).maxLocalId = f.maxLocalId := by
  unfold HirFunction.enrolled
  dsimp only
  -- With a value, the instruction gets an id and a record. Without one nothing changes.
  split_ifs
  · refine ⟨rfl, fun r => ?_, fun r => ?_, fun r hr => ⟨?_, ?_⟩, rfl, rfl, rfl⟩
    · by_cases hr : r = u
      · subst hr
        simp [HirFunction.createValue, HirFunction.setBlock, Heap.update]
      · simp [HirFunction.createValue, HirFunction.setBlock, Heap.update, hr]
    · by_cases hr : r = u
      · subst hr
        simp [HirFunction.createValue, HirFunction.setBlock, Heap.update]
      · simp [HirFunction.createValue, HirFunction.setBlock, Heap.update, hr]
    · simp [HirFunction.createValue, HirFunction.setBlock, Heap.update, hr]
    · simp [HirFunction.createValue, HirFunction.setBlock, hr]
  · exact ⟨rfl, fun _ => rfl, fun _ => rfl, fun _ _ => ⟨rfl, rfl⟩, rfl, rfl, rfl⟩

/-- The blocks after the first part. -/
theorem HirFunction.enrolled_block (f : HirFunction) (P : Platform) (u : InstRef) (b x : BlockRef) :
    (f.enrolled P u b).block x = { f.block x with
      insts := (f.block x).insts ++ if x = b then [u] else [] } := by
  have hblock : (f.enrolled P u b).block =
      (f.setBlock b fun x => { x with insts := x.insts ++ [u] }).block := by
    unfold HirFunction.enrolled
    dsimp only
    split_ifs <;> rfl
  rw [hblock]
  by_cases hx : x = b
  · subst hx
    simp [HirFunction.setBlock]
  · simp [HirFunction.setBlock, hx]

/-- An instruction without a value leaves the map alone. -/
theorem HirFunction.enrolled_of_not_hasValue {u : InstRef}
    (hval : (f.heap.inst u).op.hasValue = false) (b : BlockRef) :
    (f.enrolled P u b).values = f.values ∧ (f.enrolled P u b).valueCount = f.valueCount := by
  unfold HirFunction.enrolled
  rw [hval]
  exact ⟨rfl, rfl⟩

/-- A new value comes to the front of the map. -/
theorem HirFunction.enrolled_of_hasValue {u : InstRef}
    (hval : (f.heap.inst u).op.hasValue = true) (b : BlockRef)
    (hlt : ∀ v ∈ f.values.toList, v ≠ u ∧ (f.heap.inst v).id < f.valueCount)
    (hcount : f.valueCount < 2 ^ 16) :
    (f.enrolled P u b).values.toList = u :: f.values.toList ∧
      ((f.enrolled P u b).heap.inst u).id = f.valueCount ∧
      (f.enrolled P u b).hirValue u = ⟨b, []⟩ := by
  unfold HirFunction.enrolled
  rw [hval]
  simp only [if_true]
  refine ⟨?_, ?_, ?_⟩
  · unfold HirFunction.createValue
    dsimp only
    -- Its id is larger than those of the map, which puts the largest first.
    rw [P.balance.toList_rebalance, SearchTree.toList_insert_of_lt]
    · rfl
    · intro v hv
      obtain ⟨hne, hid⟩ := hlt v hv
      simp only [HirFunction.compareId, HirFunction.setBlock, Heap.update, Function.update_self,
        Function.update_of_ne hne, Nat.mod_eq_of_lt hcount]
      exact compare_lt_iff_lt.mpr hid
  · simp only [HirFunction.createValue, HirFunction.setBlock, Heap.update, Function.update_self]
    exact Nat.mod_eq_of_lt hcount
  · simp [HirFunction.createValue, HirFunction.setBlock]

/-- What the first part of `AppendInst` does to the map of a function under construction. -/
theorem Valued.enrolled_values (hf : Valued f) {k : Heap}
    (hid : ∀ r < f.heap.count, (k.inst r).id = (f.heap.inst r).id) {b : BlockRef} {G : HirFunction}
    (hG : HirFunction.enrolled { f with heap := k } P f.heap.count b = G)
    (hcount : G.valueCount ≤ 2 ^ 16) :
    (G.values.toList = f.values.toList ∧ (k.inst f.heap.count).op.hasValue = false ∧
        G.valueCount = f.valueCount) ∨
      (G.values.toList = f.heap.count :: f.values.toList ∧
        (k.inst f.heap.count).op.hasValue = true ∧ G.valueCount = f.valueCount + 1 ∧
        (G.heap.inst f.heap.count).id = f.valueCount ∧ G.hirValue f.heap.count = ⟨b, []⟩) := by
  subst hG
  cases hval : (k.inst f.heap.count).op.hasValue with
  | false =>
    obtain ⟨hvals, hn⟩ := HirFunction.enrolled_of_not_hasValue (P := P) (f := { f with heap := k })
      (u := f.heap.count) hval b
    exact .inl ⟨by rw [hvals], rfl, hn⟩
  | true =>
    have hn : (HirFunction.enrolled { f with heap := k } P f.heap.count b).valueCount =
        f.valueCount + 1 := by
      unfold HirFunction.enrolled
      dsimp only
      rw [hval]
      rfl
    -- The ids in the map are below the counter.
    have hlt : ∀ v ∈ f.values.toList,
        v ≠ f.heap.count ∧ (k.inst v).id < f.valueCount := by
      intro v hv
      have hv' := Appended.lt_of_mem hf hv
      exact ⟨Nat.ne_of_lt hv', by rw [hid v hv']; exact hf.id_lt v hv⟩
    obtain ⟨hvals, hnew, hhir⟩ := HirFunction.enrolled_of_hasValue (P := P)
      (f := { f with heap := k }) hval b hlt (by dsimp only; omega)
    exact .inr ⟨hvals, rfl, hn, hnew, hhir⟩

/-- After the first part, the map finds the values of the earlier instructions. -/
theorem Valued.enrolled_getHIRValue (hf : Valued f) {k : Heap}
    (hid : ∀ r < f.heap.count, (k.inst r).id = (f.heap.inst r).id) {b : BlockRef} {G : HirFunction}
    (hG : HirFunction.enrolled { f with heap := k } P f.heap.count b = G)
    (hcount : G.valueCount ≤ 2 ^ 16) {v : InstRef} (hv : v < f.heap.count)
    (hval : (f.heap.inst v).op.hasValue = true) : G.getHIRValue v = some v := by
  have hmem : v ∈ f.values.toList := by
    rw [hf.values]
    exact f.mem_definitions.mpr ⟨hv, hval⟩
  -- The earlier instructions keep their ids, so the map is still sorted.
  have hGid : ∀ w ∈ f.values.toList, (G.heap.inst w).id = (f.heap.inst w).id := by
    intro w hw
    have hlt := Appended.lt_of_mem hf hw
    rw [← hG, ← hid w hlt]
    exact ((HirFunction.enrolled_frame { f with heap := k } P f.heap.count b).2.2.2.1 w
      (Nat.ne_of_lt hlt)).1
  have hpair : f.values.toList.Pairwise fun v w => (G.heap.inst w).id < (G.heap.inst v).id :=
    hf.ids.imp_of_mem fun {a c} ha hc h => by rw [hGid a ha, hGid c hc]; exact h
  rcases hf.enrolled_values hid hG hcount with ⟨hvals, -⟩ | ⟨hvals, -, -, hnew, -⟩
  · rw [G.getHIRValue_eq_some_iff (by rw [hvals]; exact hpair), hvals]
    exact ⟨hmem, rfl⟩
  · have hcons : G.values.toList.Pairwise fun v w => (G.heap.inst w).id < (G.heap.inst v).id := by
      rw [hvals]
      refine List.pairwise_cons.mpr ⟨fun w hw => ?_, hpair⟩
      rw [hnew, hGid w hw]
      exact hf.id_lt w hw
    rw [G.getHIRValue_eq_some_iff hcons, hvals]
    exact ⟨List.mem_cons_of_mem _ hmem, rfl⟩

/-- The rest of `AppendInst` changes only the records of uses and the largest local. -/
theorem HirFunction.register_frame (f : HirFunction) (P : Platform) (u : InstRef) (b : BlockRef) :
    f.register P u b = { f.enrolled P u b with
      hirValue := (f.register P u b).hirValue
      maxLocalId := (f.register P u b).maxLocalId } := by
  obtain ⟨m, hnote, -⟩ := HirFunction.noteLocal_spec
    (([0, 1, 2, 3] : List (Fin 4)).foldl (fun f i => f.recordUse u i) (f.enrolled P u b)) u
  -- The uses are recorded first, and the local is noted last.
  have hregister : f.register P u b =
      { f.enrolled P u b with
        hirValue := (([0, 1, 2, 3] : List (Fin 4)).foldl (fun f i => f.recordUse u i)
          (f.enrolled P u b)).hirValue
        maxLocalId := m } := by
    calc f.register P u b
        = (([0, 1, 2, 3] : List (Fin 4)).foldl (fun f i => f.recordUse u i)
            (f.enrolled P u b)).noteLocal u := rfl
      _ = _ := by rw [hnote, HirFunction.recordUses_frame]
  rw [hregister]

/-- The rest of `AppendInst` creates no value. -/
theorem HirFunction.register_valueCount (f : HirFunction) (P : Platform) (u : InstRef)
    (b : BlockRef) : (f.register P u b).valueCount = (f.enrolled P u b).valueCount := by
  rw [f.register_frame P u b]

/-- Putting an accepted instruction into the block appends it. -/
theorem Valued.register_appended (hf : Valued f) {op : OpCode} {args : List CallArg}
    (hrefs : ∀ v ∈ args.flatMap CallArg.refs,
      v < f.heap.count ∧ (f.heap.inst v).op.hasValue = true) {k : Heap}
    (hk : ArgsSet f.heap.count (placedArgs (fun _ => .void) 0 args)
      ⟨Function.update f.heap.inst f.heap.count { op := op }, f.heap.count + 1⟩ k)
    (hok : validate P (k.inst f.heap.count) = true) (b : BlockRef)
    (hcount : (HirFunction.register { f with heap := k } P f.heap.count b).valueCount ≤ 2 ^ 16) :
    Appended f (HirFunction.register { f with heap := k } P f.heap.count b) b := by
  have hold : ∀ r < f.heap.count, (k.inst r).op = (f.heap.inst r).op ∧
      (k.inst r).id = (f.heap.inst r).id ∧ (k.inst r).args = (f.heap.inst r).args := by
    intro r hr
    have hne : r ≠ f.heap.count := Nat.ne_of_lt hr
    rw [hk.op, hk.id, hk.other r hne]
    simp [hne]
  have hnew : ∀ i v, ((k.inst f.heap.count).args i).ref = some v →
      v < f.heap.count ∧ (f.heap.inst v).op.hasValue = true := by
    intro i v hv
    rw [hk.self] at hv
    rcases placedArgs_ref hv with hmem | hvoid
    · exact hrefs v hmem
    · cases hvoid
  rw [HirFunction.register_valueCount] at hcount
  obtain ⟨hGcount, hGop, hGargs, hGold, hGblocks, hGcur, hGmax⟩ :=
    HirFunction.enrolled_frame { f with heap := k } P f.heap.count b
  have hGblock := HirFunction.enrolled_block { f with heap := k } P f.heap.count b
  have hGvals := hf.enrolled_values (P := P) (b := b) (fun r hr => (hold r hr).2.1) rfl hcount
  have hfind : ∀ i v, (((HirFunction.enrolled { f with heap := k } P f.heap.count b).heap.inst
      f.heap.count).args i).ref = some v →
      (HirFunction.enrolled { f with heap := k } P f.heap.count b).getHIRValue v = some v := by
    intro i v hv
    rw [hGargs] at hv
    obtain ⟨hlt, hval⟩ := hnew i v hv
    exact hf.enrolled_getHIRValue (fun r hr => (hold r hr).2.1) rfl hcount hlt hval
  -- What follows the first part changes only the records of uses and the largest local.
  show Appended f ((([0, 1, 2, 3] : List (Fin 4)).foldl (fun g i => g.recordUse f.heap.count i)
    (HirFunction.enrolled { f with heap := k } P f.heap.count b)).noteLocal f.heap.count) b
  rw [HirFunction.foldl_recordUse _ hfind]
  generalize HirFunction.enrolled { f with heap := k } P f.heap.count b = G at *
  clear hfind hcount
  obtain ⟨m, hnote, hmax, hlocal⟩ := HirFunction.noteLocal_spec { G with hirValue := fun v =>
    ⟨(G.hirValue v).block, (G.hirValue v).uses ++ G.usesIn v f.heap.count⟩ } f.heap.count
  change Appended f (HirFunction.noteLocal { G with hirValue := fun v =>
    ⟨(G.hirValue v).block, (G.hirValue v).uses ++ G.usesIn v f.heap.count⟩ } f.heap.count) b
  rw [hnote]
  exact {
    count := hGcount.trans hk.count
    op := fun r hr => (hGop r).trans (hold r hr).1
    id := fun r hr => (hGold r (Nat.ne_of_lt hr)).1.trans (hold r hr).2.1
    args := fun r hr => (hGargs r).trans (hold r hr).2.2
    refs := fun i v hv => hnew i v (by rw [← hGargs]; exact hv)
    blockCount := hGblocks
    current := hGcur
    terminal := fun x => by rw [hGblock x]
    insts := fun x => by rw [hGblock x]
    values := by
      simp only [hGop]
      rcases hGvals with hno | ⟨hvals, hval, hn, hid, hhir⟩
      · exact .inl hno
      · exact .inr ⟨hvals, hval, hn, hid, by rw [hhir]; rfl⟩
    hirValue := fun v hv => by
      have hne : v ≠ f.heap.count := Nat.ne_of_lt (Appended.lt_of_mem hf hv)
      show HirValue.mk _ _ = _
      rw [(hGold v hne).2]
      rfl
    load := fun hop => by
      obtain ⟨id, hid⟩ := validate_loadLocal ((hGop _).symm.trans hop) hok
      rw [← hGargs] at hid
      exact ⟨id, hlocal id (.inl hop) hid, hid⟩
    store := fun hop => by
      obtain ⟨id, v, hid, hv⟩ := validate_storeLocal ((hGop _).symm.trans hop) hok
      rw [← hGargs] at hid hv
      exact ⟨id, hlocal id (.inr hop) hid, v, hid, hv⟩
    maxLocalId := by
      rw [← hGmax]
      exact hmax }

end Register

/-! ## Whole constructions -/

section Construction

variable {P : Platform} {f f' : HirFunction}

/-- What a call does takes no value away. -/
theorem valueCount_kept (P : Platform) (n : ℕ) : Kept P fun f => n ≤ f.valueCount where
  used _ _ hn := hn
  ended _ _ _ hn := hn
  addEdge _ _ _ _ hn := hn
  appendBlock f start endLoc hn := by
    rcases f.appendBlock_cases start endLoc with ⟨b, -, -, heq⟩ | ⟨-, heq⟩ <;> rw [heq] <;> exact hn
  register f k b _ _ hn := by
    rw [HirFunction.register_valueCount]
    unfold HirFunction.enrolled
    dsimp only
    split_ifs
    · exact Nat.le_succ_of_le hn
    · exact hn

/-- No call takes a value away. -/
theorem Call.Step.valueCount_le {c : Call} (h : c.Step P f f') : f.valueCount ≤ f'.valueCount :=
  (valueCount_kept P f.valueCount).step h (Nat.le_refl _)

/-- The calls keep the invariant. -/
theorem Valued.step (hf : Valued f) {c : Call} (h : c.TypedStep P f f')
    (hcount : f'.valueCount ≤ 2 ^ 16) : Valued f' := by
  obtain ⟨htyped, hstep⟩ := h
  have hexec : c.exec P f = .ok () f' := hstep
  cases c with
  | inst op args =>
    obtain ⟨b, k, hcur, hk, hok, rfl⟩ := appendInst_spec hexec
    exact (hf.register_appended htyped hk hok b hcount).valued hf (hf.current_lt b hcur)
  -- What the terminal refers to is a value, since the call is typed.
  | if_ cond then_ else_ =>
    obtain ⟨pre, thenLoc, elseLoc, -, -, -, rfl⟩ := buildIf_spec hexec
    have hcond : ∀ v, (Terminal.if_ cond then_ else_).ref = some v → v < f.heap.count ∧
        ((f.used cond).heap.inst v).op.hasValue = true := by
      rintro v ⟨⟩
      rw [(sameArgs_used f _).op]
      exact htyped cond List.mem_cons_self
    have h1 := ((hf.used cond).ended pre hcond).appendBlock elseLoc 0
    exact ((h1.appendBlock thenLoc 0).addEdge _ _ _).addEdge _ _ _
  | switch value cases =>
    obtain ⟨pre, -, -, rfl⟩ := buildSwitch_spec hexec
    have hvalue : ∀ v, (Terminal.switch value cases).ref = some v → v < f.heap.count ∧
        ((f.used value).heap.inst v).op.hasValue = true := by
      rintro v ⟨⟩
      rw [(sameArgs_used f _).op]
      exact htyped value List.mem_cons_self
    exact ((hf.used value).ended pre hvalue).foldl_link _ _ _
  | linkBlock next =>
    obtain ⟨pre, -, rfl⟩ := buildLinkBlock_spec hexec
    refine (hf.ended pre (t := .linkBlock next) ?_).link _ _ _
    rintro v ⟨⟩
  | appendBlock start endLoc =>
    simp only [Call.exec, bind_ok_iff, selectBlock_ok_iff, pure_ok_iff] at hexec
    obtain ⟨b, _, hb, -, rfl⟩ := hexec
    have h1 := hf.appendBlock start endLoc
    rw [← hb] at h1
    exact h1

/-- The invariant holds when `Create` has made the first block. -/
theorem valued_create (begin_ : Location) : Valued (.create begin_) := by
  have hempty : Valued .empty := by
    refine ⟨?_, ?_, ?_, ?_, ?_, ?_, ?_, rfl, .nil, ?_, ?_, ?_, ?_, ?_⟩ <;>
      simp [HirFunction.empty, SearchTree.toList, Terminal.ref]
  exact hempty.appendBlock begin_ 0

variable {begin_ : Location} {calls : List Call}

/-- The invariant holds throughout a construction. -/
theorem TypedBuilds.valued (h : TypedBuilds P begin_ calls f) (hcount : f.valueCount ≤ 2 ^ 16) :
    Valued f :=
  Run.invariant (fun f => f.valueCount ≤ 2 ^ 16 → Valued f) h
    (fun _ _ _ _ hstep hs hle => (hs (hstep.2.valueCount_le.trans hle)).step hstep hle)
    (fun _ => valued_create begin_) hcount

/-- A construction from the function's own values is a construction. -/
theorem TypedBuilds.builds (h : TypedBuilds P begin_ calls f) : Builds P begin_ calls f :=
  Run.mono h fun _ _ _ hstep => hstep.2

/-- A function that is finished by typed calls is finished. -/
theorem TypedFinishes.finishes (h : TypedFinishes P begin_ calls f) : Finishes P begin_ calls f :=
  let ⟨g, hg, hend⟩ := h
  ⟨g, hg.builds, hend⟩

/-- What holds of a finished function: it has its vector of blocks, and the invariant. -/
theorem TypedFinishes.valued (h : TypedFinishes P begin_ calls f) (hcount : f.valueCount ≤ 2 ^ 16) :
    Valued f ∧ f.blocks = (List.range f.blockCount).map some := by
  obtain ⟨g, hg, hend⟩ := h
  obtain ⟨b, hcur, -, rfl⟩ := endFunction_spec hg.builds.tracks.orderId hend
  have hended := (hg.valued hcount).ended b (t := .popRSBHint) (by rintro v ⟨⟩)
  exact ⟨hended.withVectors, rfl⟩

end Construction

end SwiftRuntime.Ir
