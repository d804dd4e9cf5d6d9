import SwiftRuntime.Ir.LocalElimination
import SwiftRuntime.Ir.Signatures

/-!
# Phi functions

`HIRBlock::AppendPhi` and `HIRPhi::AddInput` of `ir/hir_builder.cpp`, and `LocalEliminationPass`
where values are inputs of phi functions.

A phi function is an instruction `AddPhi` without arguments whose inputs are kept apart from it. But
it is appended to its block like every other instruction, and `Validate` wants the four values that
`ir.inc` declares for `AddPhi`. So there is no function that has one (`appendPhi_not_ok`).

An input is put on the record of uses with the index `USE_PHI` in the place of a slot, and the pass
takes it for the index of a slot (`forwardUses`). Apart from that the pass is the one of
`LocalElimination`.
-/

namespace SwiftRuntime.Ir

/-- `HIRUse::USE_PHI`. -/
def usePhi : ℕ := 254

/-- `HIRPhi`. Values go by the instructions that define them. -/
structure HirPhi where
  /-- `value`. -/
  value : InstRef
  /-- `inputs`. -/
  inputs : List InstRef
deriving DecidableEq, Repr

/-- A function with the phi functions of its blocks. -/
structure PhiFunction where
  /-- The function. -/
  function : HirFunction
  /-- `phis` of a block. -/
  phis : BlockRef → List HirPhi
  /-- The instructions on the record of uses of a value whose index is `USE_PHI`. The other ones are
  in the `HIRValue`; in which order the two kinds are is not modelled. -/
  phiUses : InstRef → List InstRef
  /-- The indices of argument slots that `LocalEliminationPass` has taken from the records. -/
  indexed : List ℕ

/-- Code that works on a function with phi functions. -/
abbrev PhiM := EStateM Stop PhiFunction

/-- Code that works on the function. -/
def onFunction {α : Type} (x : Build α) : PhiM α :=
  zoom PhiFunction.function (fun f t => { t with function := f }) x

namespace PhiFunction

variable (t : PhiFunction)

/-- `AddInput` of a phi function of a block. -/
def addInput (b : BlockRef) (phi input : InstRef) : PhiFunction :=
  { t with
    phis := Function.update t.phis b ((t.phis b).map fun p =>
      if p.value = phi then { p with inputs := p.inputs ++ [input] } else p)
    phiUses := Function.update t.phiUses input (t.phiUses input ++ [phi]) }

/-- Any number of inputs. -/
def addInputs (b : BlockRef) (phi : InstRef) (inputs : List InstRef) : PhiFunction :=
  inputs.foldl (fun t input => t.addInput b phi input) t

end PhiFunction

namespace Phi

section Code

variable (P : Platform)

/-- `AppendPhi` of a block. It returns the phi function, which goes by its instruction. -/
def appendPhi (b : BlockRef) : PhiM InstRef := do
  -- `AddPhi` without arguments.
  let u ← onFunction (onHeap (create P .addPhi []))
  let t ← get
  validated P (t.function.heap.inst u)
  modify fun t => { t with
    function :=
      (t.function.setBlock b fun x => { x with insts := x.insts ++ [u] }).createValue P u b
    phis := Function.update t.phis b (t.phis b ++ [⟨u, []⟩]) }
  return u

/-- The pass over the uses on record, see `Ir.forwardUses`. -/
def forwardUses (v w : InstRef) : PhiM Unit := do
  let t ← get
  forM (t.function.hirValue v).uses fun use => do
    modify fun t => { t with indexed := t.indexed ++ [use.argIdx.val] }
    onFunction (onHeap (forwardUse P w use))
  forM (t.phiUses v) fun _ => do
    modify fun t => { t with indexed := t.indexed ++ [usePhi] }
    -- `ArgAt` has four slots.
    require (usePhi < 4) .undefined
  modify fun t => { t with function := t.function.destroyHIRValue P v }

/-- The case `LoadLocal`, see `Ir.eliminateLoad`. -/
def eliminateLoad (b : BlockRef) (u : InstRef) (locals : Locals) : PhiM Locals := do
  let t ← get
  let f := t.function
  let id ← ofExcept (getLocal P ((f.heap.inst u).args 0))
  let localValue ← ofOption locals[id.toNat]? .undefined
  match localValue.filter (fun w => (f.hirValue w).block = b), f.getHIRValue u with
  | some w, some v => forwardUses P v w
  | _, _ => pure ()
  return locals

/-- The pass at one instruction of a block. -/
def eliminateInst (b : BlockRef) (locals : Locals) (u : InstRef) : PhiM Locals := do
  let t ← get
  if (t.function.heap.inst u).op = .loadLocal then eliminateLoad P b u locals
  else if (t.function.heap.inst u).op = .storeLocal then onFunction (eliminateStore P u locals)
  else return locals

/-- The pass over one block. -/
def eliminateBlock (locals : Locals) (block : Option BlockRef) : PhiM Locals := do
  let b ← ofOption block .undefined
  let t ← get
  (t.function.block b).insts.foldlM (eliminateInst P b) locals

/-- `LocalEliminationPass::Run` on a function with phi functions. -/
def localEliminationPass : PhiM Unit := do
  let t ← get
  let _ ← t.function.blocks.foldlM (eliminateBlock P)
    (List.replicate (t.function.maxLocalId.toNat + 1) none)
  return ()

end Code

/-- The inputs of a phi function are on record, once for every time they were added. The pass takes
only indices of slots from the records, and if it returns, the inputs of the block's phi functions
are values that the map has. -/
structure Survives (P : Platform) (b : BlockRef) (phi : InstRef) (inputs : List InstRef)
    (t : PhiFunction) : Prop where
  /-- Each input is on record as often as it has been added. -/
  recorded : ∀ v, ((t.addInputs b phi inputs).phiUses v).count phi = inputs.count v
  /-- The pass indexes slots that are there. -/
  indexed : ∀ i ∈ (leaves (localEliminationPass P) (t.addInputs b phi inputs)).indexed, i < 4
  /-- After the pass the inputs are in the map. -/
  registered : ∀ t', localEliminationPass P (t.addInputs b phi inputs) = .ok () t' →
    ∀ p ∈ t'.phis b, ∀ v ∈ p.inputs, t'.function.getHIRValue v = some v

/-- `AppendPhi` returns a phi function whose value is a new one that the map has, and that survives
with any inputs. -/
def Appends (P : Platform) (b : BlockRef) (t : PhiFunction) : Prop :=
  ∃ phi t', appendPhi P b t = .ok phi t' ∧ phi ∉ t.function.values.toList ∧
    t'.function.getHIRValue phi = some phi ∧
    ∀ inputs, (∀ v ∈ inputs, t'.function.getHIRValue v = some v) → Survives P b phi inputs t'

variable {P : Platform} {b : BlockRef} {t t' : PhiFunction} {phi : InstRef}

/-- `Validate` accepts no `AddPhi` without arguments. -/
theorem validate_addPhi {i : Inst} (hop : i.op = .addPhi) (harg : i.args 0 = .void) :
    validate P i = false := by
  -- The first slot is void, and the first of the declared types is not.
  have hbody : validateBody P i (0, 0) = .inr false := by
    have htype : expectedType P i.op 0 = some .value := by
      rw [hop]
      rfl
    simp [validateBody, htype, harg, Arg.type]
  simp only [validate, hop]
  rw [iterate_inr hbody]
  rfl

/-- There is no way to append a phi function. -/
theorem appendPhi_not_ok : appendPhi P b t ≠ .ok phi t' := by
  intro h
  simp only [appendPhi, bind_ok_iff, onFunction, onHeap, zoom_ok_iff, get_ok_iff,
    validated_ok_iff] at h
  obtain ⟨u, _, ⟨_, ⟨heap, hcreate, rfl⟩, rfl⟩, _, _, ⟨rfl, rfl⟩, _, _, ⟨-, hvalid, -⟩, -⟩ := h
  simp only [create, setArgs, bind_ok_iff, newInst_ok_iff, pure_ok_iff] at hcreate
  obtain ⟨_, _, ⟨rfl, rfl⟩, _, _, ⟨-, rfl⟩, rfl, rfl⟩ := hcreate
  rw [validate_addPhi] at hvalid
  · cases hvalid
  · exact congrArg Inst.op (Heap.created_self ..)
  · exact congrArg (fun i => i.args 0) (Heap.created_self ..)

/-- No function and no block has the phi functions that it should have. -/
theorem not_appends (P : Platform) (b : BlockRef) (t : PhiFunction) : ¬ Appends P b t := by
  rintro ⟨phi, t', hok, -⟩
  exact appendPhi_not_ok hok

/-- The first block of a new function. -/
theorem not_appends_first :
    ¬ Appends .plain 0 ⟨HirFunction.create 0, fun _ => [], fun _ => [], []⟩ := by
  rintro ⟨phi, t', hok, -⟩
  exact appendPhi_not_ok hok

end Phi

end SwiftRuntime.Ir
