import SwiftRuntime.Ir.Values

/-!
# Uses on record

What a construction has on record, told from its calls. The instruction calls alone say which
instructions there are and what is in their slots (`appended`), and a function that is built by the
calls has these instructions (`HasInsts`). The uses on record for a value are then the slots of the
appended instructions that refer to it, in the order of the calls, and `MaxLocalId` is the largest
local.
-/

namespace SwiftRuntime.Ir

/-- An instruction as it is passed to `AppendInst`: its operation and its slots. -/
abbrev SlotInst := OpCode × (Fin 4 → Arg)

/-- The instruction that a call appends. -/
def Call.appended : Call → Option SlotInst
  | inst op args => some (op, placedArgs (fun _ => .void) 0 args)
  | _ => none

/-- The instructions that the calls append, in order. -/
def appended (calls : List Call) : List SlotInst := calls.filterMap Call.appended

/-- The slots of the instructions of a list that refer to a value, in order. -/
def usesOf (is : List SlotInst) (v : InstRef) : List HirUse :=
  is.zipIdx.flatMap fun (i, u) =>
    (([0, 1, 2, 3] : List (Fin 4)).filter fun k => (i.2 k).ref = some v).map (HirUse.mk u)

/-- The local of a `LoadLocal` or `StoreLocal`. -/
def SlotInst.local? : SlotInst → Option UInt16
  | (op, args) =>
    match op, args 0 with
    | .loadLocal, .local_ id | .storeLocal, .local_ id => some id
    | _, _ => none

/-- A number is the largest one of a list, or zero if the list is empty. -/
def IsLargest (m : UInt16) (ids : List UInt16) : Prop :=
  (∀ id ∈ ids, id ≤ m) ∧ (m ∈ ids ∨ ids = [] ∧ m = 0)

/-- A function has the instructions of a list, and their largest local. -/
structure HasInsts (is : List SlotInst) (f : HirFunction) : Prop where
  /-- The number of instructions. -/
  count : f.heap.count = is.length
  /-- The instructions. -/
  inst : ∀ u i, is[u]? = some i → (f.heap.inst u).op = i.1 ∧ (f.heap.inst u).args = i.2
  /-- The largest local. -/
  maxLocalId : IsLargest f.maxLocalId (is.filterMap SlotInst.local?)

section Locals

/-- One more number. -/
theorem IsLargest.concat {m id : UInt16} {ids : List UInt16} (h : IsLargest m ids) :
    IsLargest (max id m) (ids ++ [id]) := by
  obtain ⟨hle, hmem⟩ := h
  have hbound := le_max_uint16 id m
  refine ⟨fun x hx => ?_, .inl ?_⟩
  · rcases List.mem_append.mp hx with hx | hx
    · exact UInt16.le_trans (hle x hx) hbound.2
    · exact List.mem_singleton.mp hx ▸ hbound.1
  · have hmax : max id m = if id ≤ m then m else id := rfl
    rw [hmax, List.mem_append, List.mem_singleton]
    split_ifs with hid
    · rcases hmem with hmem | ⟨-, rfl⟩
      · exact .inl hmem
      · -- The only number up to zero is zero.
        exact .inr (UInt16.le_antisymm (UInt16.zero_le) hid)
    · exact .inr rfl

/-- Noting the local of an instruction. -/
theorem HirFunction.noteLocal_maxLocalId (f : HirFunction) (u : InstRef) :
    (f.noteLocal u).maxLocalId =
      match SlotInst.local? ((f.heap.inst u).op, (f.heap.inst u).args) with
      | some id => max id f.maxLocalId
      | none => f.maxLocalId := by
  unfold HirFunction.noteLocal SlotInst.local?
  dsimp only
  split <;> simp_all

end Locals

section Construction

variable {P : Platform} {begin_ : Location} {calls : List Call} {f f' : HirFunction}
  {is : List SlotInst}

/-- What leaves the arguments and the largest local alone keeps the instructions. -/
theorem HasInsts.of_same (h : HasInsts is f) (hs : SameArgs f.heap f'.heap)
    (hmax : f'.maxLocalId = f.maxLocalId) : HasInsts is f' where
  count := hs.count.trans h.count
  inst u i hi := by
    rw [hs.op, hs.args]
    exact h.inst u i hi
  maxLocalId := hmax ▸ h.maxLocalId

/-- Only an instruction call changes the instructions and the largest local. -/
theorem hasInsts_keptApart (is : List SlotInst) : KeptApart (HasInsts is) where
  used f v h := h.of_same (sameArgs_used f v) rfl
  ended f b t h := h.of_same (.refl _) rfl
  addEdge f src dest conditional h := h.of_same (.refl _) rfl
  appendBlock f start endLoc h := by
    rcases f.appendBlock_cases start endLoc with ⟨b, -, -, heq⟩ | ⟨-, heq⟩
    · rw [heq]
      exact h.of_same (.refl _) rfl
    · rw [heq]
      exact h.of_same (.refl _) rfl

/-- An instruction call appends its instruction. -/
theorem HasInsts.register (h : HasInsts is f) {op : OpCode} {args : Fin 4 → Arg} {k : Heap}
    (hk : ArgsSet f.heap.count args (f.heap.created op) k) (b : BlockRef) :
    HasInsts (is ++ [(op, args)]) (HirFunction.register { f with heap := k } P f.heap.count b) := by
  obtain ⟨hcount, hop, hargs, -, -, -, hmax⟩ :=
    HirFunction.enrolled_frame { f with heap := k } P f.heap.count b
  have hframe := HirFunction.register_frame { f with heap := k } P f.heap.count b
  have hnew : (k.inst f.heap.count).op = op ∧ (k.inst f.heap.count).args = args :=
    ⟨by rw [hk.op, Heap.created_self], hk.self⟩
  refine ⟨?_, fun u i hi => ?_, ?_⟩
  · rw [hframe, List.length_append, ← h.count]
    exact hcount.trans hk.count
  · rw [hframe]
    show ((HirFunction.enrolled { f with heap := k } P f.heap.count b).heap.inst u).op = i.1 ∧
      ((HirFunction.enrolled { f with heap := k } P f.heap.count b).heap.inst u).args = i.2
    rw [hop, hargs]
    rcases Nat.lt_or_ge u is.length with hu | hu
    · rw [List.getElem?_append_left hu] at hi
      rw [← h.count] at hu
      rw [hk.op, hk.other u (Nat.ne_of_lt hu), Heap.created_of_lt hu]
      exact h.inst u i hi
    · rw [List.getElem?_append_right hu, List.getElem?_singleton] at hi
      split_ifs at hi with hzero
      cases hi
      rw [h.count, ← Nat.le_antisymm (Nat.sub_eq_zero_iff_le.mp hzero) hu] at hnew
      exact hnew
  · -- The uses that are put on record before the local is noted do not matter for it.
    have hlocal : (HirFunction.register { f with heap := k } P f.heap.count b).maxLocalId =
        match SlotInst.local? (op, args) with
        | some id => max id f.maxLocalId
        | none => f.maxLocalId := by
      show ((([0, 1, 2, 3] : List (Fin 4)).foldl (fun g i => g.recordUse f.heap.count i)
        (HirFunction.enrolled { f with heap := k } P f.heap.count b)).noteLocal
          f.heap.count).maxLocalId = _
      rw [HirFunction.noteLocal_maxLocalId, HirFunction.recordUses_frame]
      dsimp only
      rw [hop, hargs, hmax, hnew.1, hnew.2]
    rw [hlocal, List.filterMap_append]
    cases hid : SlotInst.local? (op, args) with
    | none => simpa [hid] using h.maxLocalId
    | some id => simpa [hid] using h.maxLocalId.concat

/-- A function has the instructions that its calls append. -/
theorem Builds.hasInsts (h : Builds P begin_ calls f) : HasInsts (appended calls) f := by
  have hcreate : HasInsts [] (.create begin_) := by
    refine (hasInsts_keptApart []).appendBlock .empty begin_ 0 ⟨rfl, fun u i hi => ?_, ?_,
      .inr ⟨rfl, rfl⟩⟩
    · cases hi
    · exact fun id hid => nomatch hid
  -- The run goes along with the list of instructions that have been appended.
  have hrun := Run.simulation (fun f is => HasInsts is f)
    (fun (c : Call) (is : List SlotInst) => is ++ c.appended.toList) h
    (fun c _ f f' is hstep hf => ?_) hcreate
  · have hfold : ∀ (cs : List Call) (is : List SlotInst),
        cs.foldl (fun is c => is ++ c.appended.toList) is = is ++ appended cs := by
      intro cs
      induction cs with
      | nil => exact fun is => (List.append_nil is).symm
      | cons c cs ih =>
        intro is
        rw [List.foldl_cons, ih, List.append_assoc, appended, appended, List.filterMap_cons]
        cases c.appended <;> rfl
    rw [hfold, List.nil_append] at hrun
    exact hrun
  -- Only a call for an instruction appends one.
  · by_cases hc : ∃ op args, c = .inst op args
    · obtain ⟨op, args, rfl⟩ := hc
      obtain ⟨b, k, -, hk, -, rfl⟩ := appendInst_spec hstep
      exact hf.register hk b
    · have hnone : c.appended = none := by
        cases c with
        | inst op args => exact absurd ⟨op, args, rfl⟩ hc
        | _ => rfl
      rw [hnone, Option.toList_none, List.append_nil]
      exact (hasInsts_keptApart is).step (fun op args he => hc ⟨op, args, he⟩) hstep hf

/-- The slots on the heap that refer to a value. -/
theorem HasInsts.slotsOf_eq (h : HasInsts is f) (v : InstRef) : f.slotsOf v = usesOf is v := by
  have hzip : is.zipIdx = (List.range f.heap.count).map fun u =>
      (((f.heap.inst u).op, (f.heap.inst u).args), u) := by
    apply List.ext_getElem?
    intro u
    rw [List.getElem?_zipIdx, List.getElem?_map, h.count]
    rcases Nat.lt_or_ge u is.length with hu | hu
    · obtain ⟨hop, hargs⟩ := h.inst u is[u] (List.getElem?_eq_getElem hu)
      rw [List.getElem?_eq_getElem hu, List.getElem?_range hu]
      simp [hop, hargs]
    · rw [List.getElem?_eq_none hu, List.getElem?_eq_none (by simpa using hu)]
      rfl
  rw [usesOf, hzip, List.flatMap_map]
  rfl

/-- In every function with at most `2^16` values that is built from its own values: the map has the
values that the appended instructions define, the uses on record for a value are the slots of
appended instructions that refer to it, each of them once and in the order of the calls, and the
largest local is that of the appended `LoadLocal`s and `StoreLocal`s. -/
theorem uses_recorded (h : TypedBuilds P begin_ calls f) (hcount : f.valueCount ≤ 2 ^ 16) :
    (∀ v, v ∈ f.values.toList ↔ ∃ i, (appended calls)[v]? = some i ∧ i.1.hasValue = true) ∧
      (∀ v ∈ f.values.toList, (f.hirValue v).uses = usesOf (appended calls) v) ∧
      IsLargest f.maxLocalId ((appended calls).filterMap SlotInst.local?) := by
  have hv := h.valued hcount
  have hh := h.builds.hasInsts
  refine ⟨fun v => ?_, fun v hmem => ?_, hh.maxLocalId⟩
  · rw [hv.values, f.mem_definitions, hh.count]
    constructor
    · rintro ⟨hlt, hval⟩
      have hget := List.getElem?_eq_getElem hlt
      exact ⟨_, hget, (hh.inst v _ hget).1 ▸ hval⟩
    · rintro ⟨i, hi, hval⟩
      exact ⟨(List.getElem?_eq_some_iff.mp hi).1, (hh.inst v i hi).1.symm ▸ hval⟩
  · rw [hv.uses v hmem, hh.slotsOf_eq]

/-- A value that is used directly, on both sides of an operand and as the address of a lambda. -/
theorem uses_recorded_shapes :
    ∃ f, TypedBuilds .plain 0
        [.inst .loadLocal [.local_ 7], .inst .add [.value 0, .operand (.value 0 0)],
        .inst .callDynamic [.lambda (.value 0)], .inst .storeLocal [.local_ 3, .value 1]] f ∧
      (f.hirValue 0).uses = [⟨1, 0⟩, ⟨1, 2⟩, ⟨1, 3⟩, ⟨2, 0⟩] ∧ (f.hirValue 1).uses = [⟨3, 1⟩] ∧
      f.maxLocalId = 7 := by
  obtain ⟨f, hrun, hcount, hmem, hmax⟩ := exists_of_any
    (o := runCalls .plain
      [.inst .loadLocal [.local_ 7], .inst .add [.value 0, .operand (.value 0 0)],
      .inst .callDynamic [.lambda (.value 0)], .inst .storeLocal [.local_ 3, .value 1]] (.create 0))
    (Q := fun f => f.valueCount ≤ 2 ^ 16 ∧ (0 ∈ f.values.toList ∧ 1 ∈ f.values.toList) ∧
      f.maxLocalId = 7) (by decide +kernel)
  have h : TypedBuilds .plain 0 _ f := run_of_runCalls hrun
  obtain ⟨-, huses, -⟩ := uses_recorded h hcount
  exact ⟨f, h, huses 0 hmem.1, huses 1 hmem.2, hmax⟩

end Construction

end SwiftRuntime.Ir
