import SwiftRuntime.Loop
import SwiftRuntime.Effect
import SwiftRuntime.SearchTree
import Mathlib.Algebra.Group.Nat.Defs
import Mathlib.Logic.Function.Basic
import Mathlib.Data.Fin.Basic

/-!
# Instructions

`Inst` of `ir/instr.h` with its arguments, and what `SetArg` does to them. Instructions live on a
heap and refer to each other: an argument slot names the instruction that defines a value, every
instruction counts its uses, and the flag getters that read an instruction's flags form a chain that
starts at it (`nextPseudo`).

`SetArg` keeps the counts and the chains on the way. Most of the development does not look at these,
so the effect of `SetArg` is stated as `ArgsSet`: the argument slots of one instruction are
replaced, and nothing else that is not a count or a chain changes.

The contents of immediates, uniforms, conditions, flags and operand operators are not modelled,
since no function looks at them.
-/

namespace SwiftRuntime.Ir

/-- `ArgType`. -/
inductive ArgType
  | void
  | value
  | imm
  | uniform
  | local_
  | cond
  | flags
  | operand
  | lambda
deriving DecidableEq, Repr

/-- `OpCode`: the instructions of `ir.inc`, between the markers of `opcodes.h`. -/
inductive OpCode
  | void
  | loadLocal
  | storeLocal
  | loadUniform
  | storeUniform
  | loadMemory
  | storeMemory
  | loadMemoryTSO
  | storeMemoryTSO
  | compareAndSwap
  | callLambda
  | callLocation
  | callDynamic
  | addPhi
  | loadImm
  | pushRSB
  | popRSB
  | add
  | sub
  | adc
  | sbb
  | mul
  | div
  | zeroExtend
  | signExtend
  | andImm
  | orImm
  | andValue
  | orValue
  | xorValue
  | getCarry
  | getOverFlow
  | getZero
  | getNegate
  | getNegZero
  | getParity
  | getNZCV
  | getAllFlags
  | lslImm
  | lslValue
  | lsrImm
  | lsrValue
  | asrImm
  | asrValue
  | rorImm
  | rorValue
  | bitExtract
  | bitInsert
  | bitClear
  | testBit
  | baseCount
  | setLocation
  | count
deriving DecidableEq, Repr

namespace OpCode

/-- The return type in `ir_meta_infos`, where `BOOL` is another name for `Value`. -/
def returnType : OpCode → ArgType
  | void | storeLocal | storeUniform | storeMemory | storeMemoryTSO | pushRSB | popRSB
  | baseCount | setLocation | count => .void
  | _ => .value

/-- The argument types in `ir_meta_infos`. -/
def argTypes : OpCode → List ArgType
  | void | popRSB | baseCount | count => []
  | loadLocal => [.local_]
  | storeLocal => [.local_, .value]
  | loadUniform => [.uniform]
  | storeUniform => [.uniform, .value]
  | loadMemory | loadMemoryTSO => [.operand]
  | storeMemory | storeMemoryTSO => [.operand, .value]
  | compareAndSwap => [.value, .value, .value]
  | callLambda => [.lambda, .value, .value, .value]
  | callLocation | callDynamic => [.lambda]
  | addPhi => [.value, .value, .value, .value]
  | loadImm | setLocation => [.imm]
  | pushRSB => [.value]
  | add | sub | adc | sbb | mul | div => [.value, .operand]
  | zeroExtend | signExtend | andImm | orImm | lslImm | lsrImm | asrImm | rorImm | testBit =>
    [.value, .imm]
  | andValue | orValue | xorValue | lslValue | lsrValue | asrValue | rorValue => [.value, .value]
  | getCarry | getOverFlow | getZero | getNegate | getNegZero | getParity | getNZCV
  | getAllFlags => [.value]
  | bitExtract | bitClear => [.value, .imm, .imm]
  | bitInsert => [.value, .value, .imm, .imm]

/-- `HasValue`. -/
def hasValue (op : OpCode) : Bool := op.returnType = .value

/-- `IsPseudoOperation`: the flag getters that are chained. `GetParity` is not among them. -/
def isPseudoOperation : OpCode → Bool
  | getCarry | getOverFlow | getNegate | getZero | getNZCV | getNegZero | getAllFlags => true
  | _ => false

end OpCode

/-- What stops a call that does not return: `ASSERT` throws, `assert` aborts the process, the
behaviour is undefined (a null pointer or an index out of bounds), or a loop does not end. -/
inductive Stop
  | raised
  | aborted
  | undefined
  | endless
deriving DecidableEq, Repr

/-- What the code leaves to its build and its libraries. -/
structure Platform where
  /-- Whether `assert` is compiled in. -/
  asserts : Bool
  /-- Whether the assertions of the list library, `AMS_ASSERT`, are compiled in. -/
  listAsserts : Bool
  /-- The byte at an index behind an instruction's argument type list, which `Validate` reads;
  `none` when it is not the number of an argument type. -/
  pastArgTypes : OpCode → ℕ → Option ArgType
  /-- The capacity the builder is constructed with. -/
  funcCap : ℕ
  /-- The rotations of the red-black tree. -/
  balance : Balance ℕ

/-- A platform with assertions but without those of the list library, as the build has it, with zero
bytes behind the argument type lists, and a tree that is never rotated. -/
def Platform.plain : Platform where
  asserts := true
  listAsserts := false
  pastArgTypes _ _ := some .void
  funcCap := 1
  balance := .plain ℕ

/-- An instruction on the heap, by its number in the order of creation. -/
abbrev InstRef := ℕ

/-- `Lambda`: an address that is a value, an immediate, or nothing yet. -/
inductive Lambda
  | empty
  | value (v : InstRef)
  | imm
deriving DecidableEq, Repr

/-- `Arg`: the contents of an argument slot. -/
inductive Arg
  | void
  | value (v : InstRef)
  | imm
  | uniform
  | local_ (id : UInt16)
  | cond
  | flags
  | operand
  | lambda (l : Lambda)
deriving DecidableEq, Repr

namespace Arg

/-- `GetType`. -/
def type : Arg → ArgType
  | void => .void
  | value _ => .value
  | imm => .imm
  | uniform => .uniform
  | local_ _ => .local_
  | cond => .cond
  | flags => .flags
  | operand => .operand
  | lambda _ => .lambda

/-- The value a slot refers to, directly or as the address of a lambda. -/
def ref : Arg → Option InstRef
  | value v => some v
  | lambda (.value v) => some v
  | _ => none

end Arg

/-- `Operand`: an operator with a left side and a right side. -/
inductive Operand
  | empty
  | imm (left : InstRef)
  | value (left right : InstRef)
deriving DecidableEq, Repr

/-- An argument as it is passed to `SetArgs`. -/
inductive CallArg
  | void
  | value (v : InstRef)
  | imm
  | uniform
  | local_ (id : UInt16)
  | cond
  | flags
  | operandOp
  | operand (o : Operand)
  | lambda (l : Lambda)
deriving DecidableEq, Repr

namespace CallArg

/-- The slots an argument is written to: an operand has three, for the operator and its sides. -/
def slots : CallArg → List Arg
  | void => [.void]
  | value v => [.value v]
  | imm => [.imm]
  | uniform => [.uniform]
  | local_ id => [.local_ id]
  | cond => [.cond]
  | flags => [.flags]
  | operandOp => [.operand]
  | operand .empty => [.operand, .void, .void]
  | operand (.imm left) => [.operand, .value left, .imm]
  | operand (.value left right) => [.operand, .value left, .value right]
  | lambda l => [.lambda l]

/-- Every argument has a slot. -/
theorem slots_ne_nil (a : CallArg) : a.slots ≠ [] := by
  rcases a with _ | _ | _ | _ | _ | _ | _ | _ | (_ | _ | _) | _ <;> exact List.cons_ne_nil _ _

/-- By how much `SetArgs` moves its index on. -/
def width : CallArg → ℕ
  | operandOp | operand _ => 3
  | _ => 1

/-- The values an argument refers to. -/
def refs (a : CallArg) : List InstRef := a.slots.filterMap Arg.ref

end CallArg

/-- The number of arguments of an instruction, for numerals as indices. -/
instance neZero_args : @NeZero ℕ Zero.ofOfNat0 4 := ⟨by decide⟩

/-- `Inst`. -/
structure Inst where
  /-- `op_code`. -/
  op : OpCode
  /-- `arguments`. -/
  args : Fin 4 → Arg := fun _ => .void
  /-- `id`. -/
  id : ℕ := 0
  /-- `num_use`. -/
  numUse : UInt8 := 0
  /-- `next_pseudo_inst`. -/
  nextPseudo : Option InstRef := none

/-- The instructions that have been created. -/
structure Heap where
  /-- The instruction of a number. -/
  inst : InstRef → Inst
  /-- How many there are. -/
  count : ℕ

/-- The heap with one instruction changed. -/
def Heap.update (h : Heap) (r : InstRef) (g : Inst → Inst) : Heap :=
  { h with inst := Function.update h.inst r (g (h.inst r)) }

/-- Code that works on instructions. -/
abbrev InstM := EStateM Stop Heap

section Code

variable (P : Platform)

/-- `new Inst(op)`. -/
def newInst (op : OpCode) : InstM InstRef := do
  let h ← get
  modify fun h => { inst := Function.update h.inst h.count { op := op }, count := h.count + 1 }
  return h.count

/-- The loop of `Use`: it goes to the end of the chain. -/
def useBody (h : Heap) (v p : InstRef) : InstRef ⊕ Except Stop InstRef :=
  match (h.inst p).nextPseudo with
  | none => .inr (.ok p)
  | some n =>
    if P.asserts ∧ (h.inst n).args 0 ≠ .value v then .inr (.error .aborted) else .inl n

/-- `Use` of a value by an instruction. The chain has at most as many members as there are
instructions, unless it is a ring. -/
def use (user v : InstRef) : InstM Unit := do
  modify fun h => h.update v fun i => { i with numUse := i.numUse + 1 }
  let h ← get
  if (h.inst user).op.isPseudoOperation then
    let p ← ofExcept ((iterate (useBody P h v) (h.count + 1) v).getD (.error .endless))
    modify fun h => h.update p fun i => { i with nextPseudo := some user }

/-- The loop of `UnUse`: it goes to the member before `user`, or off the end of the chain. -/
def unUseBody (h : Heap) (user v p : InstRef) : InstRef ⊕ Except Stop InstRef :=
  match (h.inst p).nextPseudo with
  | none => .inr (.error .undefined)
  | some n =>
    if n = user then .inr (.ok p)
    else if P.asserts ∧ (h.inst n).args 0 ≠ .value v then .inr (.error .aborted)
    else .inl n

/-- `UnUse`. -/
def unUse (user v : InstRef) : InstM Unit := do
  modify fun h => h.update v fun i => { i with numUse := i.numUse - 1 }
  let h ← get
  if (h.inst user).op.isPseudoOperation then
    let p ← ofExcept ((iterate (unUseBody P h user v) (h.count + 1) v).getD (.error .endless))
    modify fun h => h.update p fun i => { i with nextPseudo := (h.inst user).nextPseudo }
    modify fun h => h.update user fun i => { i with nextPseudo := none }

/-- `DestroyArg`. -/
def destroyArg (u : InstRef) (i : Fin 4) : InstM Unit := do
  let h ← get
  match ((h.inst u).args i).ref with
  | some v => unUse P u v
  | none => pure ()

/-- What every overload of `SetArg` does to a slot it writes. -/
def putArg (u : InstRef) (i : ℕ) (a : Arg) : InstM Unit :=
  if hi : i < 4 then do
    destroyArg P u ⟨i, hi⟩
    modify fun h => h.update u fun x => { x with args := Function.update x.args ⟨i, hi⟩ a }
  else throw .undefined

/-- The slots of one argument, from an index on. -/
def putArgs (u : InstRef) : ℕ → List Arg → InstM Unit
  | _, [] => pure ()
  | i, a :: as => do
    putArg P u i a
    putArgs u (i + 1) as

/-- `SetArg`, for every type of argument: the slots are written, then the values used. -/
def setArg (u : InstRef) (i : ℕ) (a : CallArg) : InstM Unit := do
  putArgs P u i a.slots
  forM a.refs (use P u)

/-- `SetArgs`. -/
def setArgs (u : InstRef) : ℕ → List CallArg → InstM Unit
  | _, [] => pure ()
  | i, a :: as => do
    setArg P u i a
    setArgs u (i + a.width) as

/-- The type `Validate` expects at an index: a declared one, or what lies behind the list. -/
def expectedType (op : OpCode) (k : ℕ) : Option ArgType :=
  if k < op.argTypes.length then op.argTypes[k]? else P.pastArgTypes op k

/-- The loop of `Validate` over the slot and the index of the expected type. -/
def validateBody (i : Inst) : ℕ × ℕ → (ℕ × ℕ) ⊕ Bool
  | (slot, k) =>
    if h : slot < 4 then
      if expectedType P i.op k = some (i.args ⟨slot, h⟩).type then
        .inl (slot + (if (i.args ⟨slot, h⟩).type = .operand then 3 else 1), k + 1)
      else .inr false
    else .inr true

/-- `Validate`: whether the instruction is accepted. -/
def validate (i : Inst) : Bool :=
  match i.op with
  | .callLambda | .callLocation | .callDynamic => (i.args 0).type = .lambda
  | .setLocation => (i.args 0).type = .imm
  | .void | .baseCount | .count => false
  | _ => (iterate (validateBody P i) 5 (0, 0)).getD false

/-- A call of `Validate`. It raises when the instruction is not accepted. The argument type list of
`PopRSB` is empty and has no memory, so there the first read goes to a null pointer. -/
def validated {σ : Type} (i : Inst) : EStateM Stop σ Unit := do
  require (i.op ≠ .popRSB) .undefined
  require (validate P i) .raised

end Code

/-! ## What the code does to argument slots -/

/-- From `h` to `h'` only use counts and flag chains change. -/
structure SameArgs (h h' : Heap) : Prop where
  /-- No instruction is created. -/
  count : h'.count = h.count
  /-- No operation changes. -/
  op : ∀ r, (h'.inst r).op = (h.inst r).op
  /-- No id changes. -/
  id : ∀ r, (h'.inst r).id = (h.inst r).id
  /-- No argument slot changes. -/
  args : ∀ r, (h'.inst r).args = (h.inst r).args

/-- From `h` to `h'` the argument slots of `u` become `g`, and nothing changes apart from that but
use counts and flag chains. -/
structure ArgsSet (u : InstRef) (g : Fin 4 → Arg) (h h' : Heap) : Prop where
  /-- No instruction is created. -/
  count : h'.count = h.count
  /-- No operation changes. -/
  op : ∀ r, (h'.inst r).op = (h.inst r).op
  /-- No id changes. -/
  id : ∀ r, (h'.inst r).id = (h.inst r).id
  /-- The slots of `u`. -/
  self : (h'.inst u).args = g
  /-- The slots of the others. -/
  other : ∀ r, r ≠ u → (h'.inst r).args = (h.inst r).args

/-- The slots of one instruction after arguments are written to them from an index on. -/
def placed (g : Fin 4 → Arg) : ℕ → List Arg → Fin 4 → Arg
  | _, [] => g
  | i, a :: as => placed (fun j => if j.val = i then a else g j) (i + 1) as

/-- The slots of a new instruction after `SetArgs`. -/
def placedArgs (g : Fin 4 → Arg) : ℕ → List CallArg → Fin 4 → Arg
  | _, [] => g
  | i, a :: as => placedArgs (placed g i a.slots) (i + a.width) as

section Spec

variable {P : Platform} {u v : InstRef} {g g' : Fin 4 → Arg} {h h' h'' : Heap}

/-- Nothing is changed. -/
theorem SameArgs.refl (h : Heap) : SameArgs h h := ⟨rfl, fun _ => rfl, fun _ => rfl, fun _ => rfl⟩

/-- Two changes that leave the arguments alone. -/
theorem SameArgs.trans (h1 : SameArgs h h') (h2 : SameArgs h' h'') : SameArgs h h'' where
  count := h2.count.trans h1.count
  op r := (h2.op r).trans (h1.op r)
  id r := (h2.id r).trans (h1.id r)
  args r := (h2.args r).trans (h1.args r)

/-- The arguments of an instruction stay what they were. -/
theorem SameArgs.argsSet (h1 : SameArgs h h') (u : InstRef) : ArgsSet u (h.inst u).args h h' :=
  ⟨h1.count, h1.op, h1.id, h1.args u, fun r _ => h1.args r⟩

/-- Arguments that are set twice. -/
theorem ArgsSet.trans (h1 : ArgsSet u g h h') (h2 : ArgsSet u g' h' h'') :
    ArgsSet u g' h h'' where
  count := h2.count.trans h1.count
  op r := (h2.op r).trans (h1.op r)
  id r := (h2.id r).trans (h1.id r)
  self := h2.self
  other r hr := (h2.other r hr).trans (h1.other r hr)

/-- A change afterwards that leaves the arguments alone. -/
theorem ArgsSet.trans_same (h1 : ArgsSet u g h h') (h2 : SameArgs h' h'') : ArgsSet u g h h'' := by
  have h3 := h2.argsSet u
  rw [h1.self] at h3
  exact h1.trans h3

/-- Changing a count or a chain link changes no argument. -/
theorem sameArgs_update (h : Heap) (r : InstRef) {k : Inst → Inst} (hop : ∀ i, (k i).op = i.op)
    (hid : ∀ i, (k i).id = i.id) (hargs : ∀ i, (k i).args = i.args) :
    SameArgs h (h.update r k) := by
  -- An instruction is the one that is changed, or it stays as it was.
  have hcases : ∀ x, (h.update r k).inst x = h.inst x ∨
      (h.update r k).inst x = k (h.inst x) := by
    intro x
    by_cases hx : x = r
    · subst hx
      exact .inr (by simp [Heap.update])
    · exact .inl (by simp [Heap.update, hx])
  refine ⟨rfl, fun x => ?_, fun x => ?_, fun x => ?_⟩
  · rcases hcases x with e | e <;> rw [e]
    exact hop _
  · rcases hcases x with e | e <;> rw [e]
    exact hid _
  · rcases hcases x with e | e <;> rw [e]
    exact hargs _

/-- The heap with one more instruction. -/
def Heap.created (h : Heap) (op : OpCode) : Heap :=
  { inst := Function.update h.inst h.count { op := op }, count := h.count + 1 }

/-- A new instruction has its operation and nothing else. -/
theorem Heap.created_self (h : Heap) (op : OpCode) : (h.created op).inst h.count = { op := op } :=
  Function.update_self ..

/-- The other instructions stay as they were. -/
theorem Heap.created_of_lt {r : InstRef} (hr : r < h.count) (op : OpCode) :
    (h.created op).inst r = h.inst r := Function.update_of_ne (Nat.ne_of_lt hr) _ _

/-- A new instruction is the next one of the heap. -/
theorem newInst_ok_iff {op : OpCode} :
    newInst op h = .ok u h' ↔ u = h.count ∧ h' = h.created op := by
  simp only [newInst, bind_ok_iff, get_ok_iff, modify_ok_iff, pure_ok_iff]
  constructor
  · rintro ⟨_, _, ⟨rfl, rfl⟩, ⟨⟩, _, rfl, rfl, rfl⟩
    exact ⟨rfl, rfl⟩
  · rintro ⟨rfl, rfl⟩
    exact ⟨h, h, ⟨rfl, rfl⟩, (), _, rfl, rfl, rfl⟩

/-- The heap with one use count changed. -/
def Heap.recount (h : Heap) (v : InstRef) (k : UInt8 → UInt8) : Heap :=
  h.update v fun i => { i with numUse := k i.numUse }

/-- The heap with one link changed. -/
def Heap.relink (h : Heap) (p : InstRef) (n : Option InstRef) : Heap :=
  h.update p fun i => { i with nextPseudo := n }

/-- A change of a count. -/
theorem sameArgs_recount (h : Heap) (v : InstRef) (k : UInt8 → UInt8) :
    SameArgs h (h.recount v k) :=
  sameArgs_update h v (fun _ => rfl) (fun _ => rfl) fun _ => rfl

/-- A change of a link. -/
theorem sameArgs_relink (h : Heap) (p : InstRef) (n : Option InstRef) : SameArgs h (h.relink p n) :=
  sameArgs_update h p (fun _ => rfl) (fun _ => rfl) fun _ => rfl

/-- A use count is no link. -/
theorem nextPseudo_recount (h : Heap) (v : InstRef) (k : UInt8 → UInt8) (r : InstRef) :
    ((h.recount v k).inst r).nextPseudo = (h.inst r).nextPseudo := by
  by_cases hr : r = v
  · subst hr
    simp [Heap.recount, Heap.update]
  · simp [Heap.recount, Heap.update, hr]

/-- The loop of `Use` does not look at use counts. -/
theorem useBody_recount (h : Heap) (w : InstRef) (k : UInt8 → UInt8) :
    useBody P (h.recount w k) v = useBody P h v := by
  funext p
  simp only [useBody, nextPseudo_recount, (sameArgs_recount h w k).args]

/-- The loop of `UnUse` does not look at use counts. -/
theorem unUseBody_recount (h : Heap) (w : InstRef) (k : UInt8 → UInt8) :
    unUseBody P (h.recount w k) u v = unUseBody P h u v := by
  funext p
  simp only [unUseBody, nextPseudo_recount, (sameArgs_recount h w k).args]

/-- What `Use` does: it counts a use, and puts a flag getter at the place that its loop finds. -/
theorem use_ok_iff {user : InstRef} : use P user v h = .ok () h' ↔
    ((h.inst user).op.isPseudoOperation = false ∧ h' = h.recount v (· + 1)) ∨
      ((h.inst user).op.isPseudoOperation = true ∧ ∃ p,
        iterate (useBody P h v) (h.count + 1) v = some (.ok p) ∧
        h' = (h.recount v (· + 1)).relink p (some user)) := by
  -- The loop does not see the count, which has been changed before it.
  have hstart : use P user v h = (do
      if (h.inst user).op.isPseudoOperation then
        let p ← ofExcept ((iterate (useBody P h v) (h.count + 1) v).getD (.error .endless))
        modify fun h => h.relink p (some user) : InstM Unit) (h.recount v (· + 1)) := by
    rw [← (sameArgs_recount h v (· + 1)).op user, ← useBody_recount h v (· + 1)]
    rfl
  rw [hstart]
  cases hpseudo : (h.inst user).op.isPseudoOperation with
  | false => simpa [pure_ok_iff] using eq_comm
  | true =>
    simp only [if_true, bind_ok_iff, ofExcept_ok_iff, getD_error_eq_ok_iff, modify_ok_iff]
    constructor
    · rintro ⟨p, _, ⟨hiter, rfl⟩, rfl⟩
      exact .inr ⟨trivial, p, hiter, rfl⟩
    · rintro (⟨hfalse, -⟩ | ⟨-, p, hiter, rfl⟩)
      · cases hfalse
      · exact ⟨p, _, ⟨hiter, rfl⟩, rfl⟩

/-- What `UnUse` does: it takes a use off, and takes a flag getter out behind the place that its
loop finds. -/
theorem unUse_ok_iff {user : InstRef} : unUse P user v h = .ok () h' ↔
    ((h.inst user).op.isPseudoOperation = false ∧ h' = h.recount v (· - 1)) ∨
      ((h.inst user).op.isPseudoOperation = true ∧ ∃ p,
        iterate (unUseBody P h user v) (h.count + 1) v = some (.ok p) ∧
        h' = ((h.recount v (· - 1)).relink p (h.inst user).nextPseudo).relink user none) := by
  -- The loop does not see the count, which has been changed before it.
  have hstart : unUse P user v h = (do
      if (h.inst user).op.isPseudoOperation then
        let p ← ofExcept ((iterate (unUseBody P h user v) (h.count + 1) v).getD (.error .endless))
        modify fun h => h.relink p (h.inst user).nextPseudo
        modify fun h => h.relink user none : InstM Unit) (h.recount v (· - 1)) := by
    rw [← (sameArgs_recount h v (· - 1)).op user, ← unUseBody_recount h v (· - 1)]
    rfl
  rw [hstart]
  cases hpseudo : (h.inst user).op.isPseudoOperation with
  | false => simpa [pure_ok_iff] using eq_comm
  | true =>
    simp only [if_true, bind_ok_iff, ofExcept_ok_iff, getD_error_eq_ok_iff, modify_ok_iff]
    constructor
    · rintro ⟨p, _, ⟨hiter, rfl⟩, ⟨⟩, _, rfl, rfl⟩
      exact .inr ⟨trivial, p, hiter, by rw [nextPseudo_recount]⟩
    · rintro (⟨hfalse, -⟩ | ⟨-, p, hiter, rfl⟩)
      · cases hfalse
      · exact ⟨p, _, ⟨hiter, rfl⟩, (), _, rfl, by rw [nextPseudo_recount]⟩

/-- The loop of `Use` finds the end of a chain. -/
theorem nextPseudo_of_useBody {n : ℕ} {s p : InstRef}
    (hiter : iterate (useBody P h v) n s = some (.ok p)) : (h.inst p).nextPseudo = none := by
  refine iterate_result (Q := fun r => r = .ok p → (h.inst p).nextPseudo = none)
    (fun s r hbody hr => ?_) hiter rfl
  unfold useBody at hbody
  cases hnext : (h.inst s).nextPseudo with
  -- Only an instruction without a link ends the loop.
  | none =>
    rw [hnext] at hbody
    subst hr
    cases hbody
    exact hnext
  | some n =>
    rw [hnext] at hbody
    subst hr
    dsimp only at hbody
    split_ifs at hbody
    cases hbody

/-- `Use` changes no argument. -/
theorem use_spec {user : InstRef} (hok : use P user v h = .ok () h') : SameArgs h h' := by
  have hcount := sameArgs_recount h v (· + 1)
  rcases use_ok_iff.mp hok with ⟨-, rfl⟩ | ⟨-, p, -, rfl⟩
  · exact hcount
  · exact hcount.trans (sameArgs_relink _ p _)

/-- `UnUse` changes no argument. -/
theorem unUse_spec {user : InstRef} (hok : unUse P user v h = .ok () h') : SameArgs h h' := by
  have hcount := sameArgs_recount h v (· - 1)
  rcases unUse_ok_iff.mp hok with ⟨-, rfl⟩ | ⟨-, p, -, rfl⟩
  · exact hcount
  · exact (hcount.trans (sameArgs_relink _ p _)).trans (sameArgs_relink _ user _)

/-- What `DestroyArg` does depends on the slot. -/
theorem destroyArg_eq (u : InstRef) (i : Fin 4) (h : Heap) :
    destroyArg P u i h = (match ((h.inst u).args i).ref with
      | some v => unUse P u v
      | none => pure () : InstM Unit) h := rfl

/-- `DestroyArg` changes no argument. -/
theorem destroyArg_spec {i : Fin 4} (hok : destroyArg P u i h = .ok () h') : SameArgs h h' := by
  rw [destroyArg_eq] at hok
  cases hr : ((h.inst u).args i).ref with
  | some v =>
    rw [hr] at hok
    exact unUse_spec hok
  | none =>
    rw [hr] at hok
    rw [← (pure_ok_iff.mp hok).2]
    exact .refl _

/-- A slot is written after what it held has been released. -/
theorem putArg_ok_iff {i : ℕ} {a : Arg} :
    putArg P u i a h = .ok () h' ↔
      ∃ (hi : i < 4) (h1 : Heap), destroyArg P u ⟨i, hi⟩ h = .ok () h1 ∧
      h' = h1.update u fun x => { x with args := Function.update x.args ⟨i, hi⟩ a } := by
  unfold putArg
  split_ifs with hi
  · simp only [bind_ok_iff, modify_ok_iff]
    constructor
    · rintro ⟨⟨⟩, h1, hd, rfl⟩
      exact ⟨hi, h1, hd, rfl⟩
    · rintro ⟨_, h1, hd, rfl⟩
      exact ⟨(), h1, hd, rfl⟩
  · simp [throw_ok_iff, hi]

/-- A slot that is written gets the new contents, and its index is in range. -/
theorem putArg_spec {i : ℕ} {a : Arg} (hok : putArg P u i a h = .ok () h') :
    i < 4 ∧ ArgsSet u (fun j => if j.val = i then a else (h.inst u).args j) h h' := by
  obtain ⟨hi, h1, hd, rfl⟩ := putArg_ok_iff.mp hok
  have hsame := destroyArg_spec hd
  -- The operation and the id, the slot, and the other instructions.
  refine ⟨hi, hsame.count, fun r => ?_, fun r => ?_, ?_, fun r hr => ?_⟩
  · by_cases hr : r = u
    · subst hr
      simpa [Heap.update] using hsame.op r
    · simpa [Heap.update, hr] using hsame.op r
  · by_cases hr : r = u
    · subst hr
      simpa [Heap.update] using hsame.id r
    · simpa [Heap.update, hr] using hsame.id r
  · funext j
    simp only [Heap.update, Function.update_self, hsame.args u, Function.update_apply, Fin.ext_iff]
  · simpa [Heap.update, hr] using hsame.args r

/-- The slots of one argument. -/
theorem putArgs_spec {i : ℕ} {as : List Arg} (hok : putArgs P u i as h = .ok () h') :
    ArgsSet u (placed (h.inst u).args i as) h h' := by
  induction as generalizing i h with
  | nil =>
    rw [putArgs, pure_ok_iff] at hok
    rw [← hok.2]
    exact (SameArgs.refl h).argsSet u
  | cons a as ih =>
    rw [putArgs, bind_ok_iff] at hok
    obtain ⟨⟨⟩, h1, ha, has⟩ := hok
    have h1 := (putArg_spec ha).2
    have h2 := ih has
    rw [h1.self] at h2
    exact h1.trans h2

/-- The values of one argument are used. -/
theorem forM_use_spec {user : InstRef} {vs : List InstRef}
    (hok : (forM vs (use P user) : InstM Unit) h = .ok () h') : SameArgs h h' :=
  forM_induction (fun _ => SameArgs h)
    (fun _ _ _ _ _ _ hs hu => hs.trans (use_spec hu)) (SameArgs.refl h) hok

/-- `SetArg` writes the slots of its argument. -/
theorem setArg_spec {i : ℕ} {a : CallArg} (hok : setArg P u i a h = .ok () h') :
    ArgsSet u (placed (h.inst u).args i a.slots) h h' := by
  rw [setArg, bind_ok_iff] at hok
  obtain ⟨⟨⟩, h1, hput, huse⟩ := hok
  exact (putArgs_spec hput).trans_same (forM_use_spec huse)

/-- `SetArgs` writes the slots of all its arguments. -/
theorem setArgs_spec {i : ℕ} {as : List CallArg} (hok : setArgs P u i as h = .ok () h') :
    ArgsSet u (placedArgs (h.inst u).args i as) h h' := by
  induction as generalizing i h with
  | nil =>
    rw [setArgs, pure_ok_iff] at hok
    rw [← hok.2]
    exact (SameArgs.refl h).argsSet u
  | cons a as ih =>
    rw [setArgs, bind_ok_iff] at hok
    obtain ⟨⟨⟩, h1, ha, has⟩ := hok
    have h1 := setArg_spec ha
    have h2 := ih has
    rw [h1.self] at h2
    exact h1.trans h2

/-- The arguments stand in the slots from the index on. -/
theorem placed_apply {i : ℕ} {j : Fin 4} (as : List Arg) :
    placed g i as j = if j.val < i then g j else (as[j.val - i]?).getD (g j) := by
  induction as generalizing g i with
  | nil => simp [placed]
  | cons a as ih =>
    rw [placed, ih]
    rcases Nat.lt_trichotomy j.val i with hlt | heq | hgt
    · rw [if_pos (by omega), if_pos hlt, if_neg (by omega)]
    · rw [if_pos (by omega), if_pos heq, if_neg (by omega), heq, Nat.sub_self]
      rfl
    · rw [if_neg (by omega), if_neg (by omega), if_neg (by omega),
        show j.val - i = (j.val - (i + 1)) + 1 by omega, List.getElem?_cons_succ]

/-- A slot that was written holds one of the arguments. -/
theorem placed_mem {i : ℕ} {as : List Arg} (j : Fin 4) :
    placed g i as j ∈ as ∨ placed g i as j = g j := by
  induction as generalizing g i with
  | nil => exact .inr rfl
  | cons a as ih =>
    rw [placed]
    rcases ih (g := fun j => if j.val = i then a else g j) (i := i + 1) with hm | he
    · exact .inl (List.mem_cons_of_mem _ hm)
    · rw [he]
      split_ifs
      · exact .inl List.mem_cons_self
      · exact .inr rfl

/-- The values that the slots of a new instruction refer to are among those passed. -/
theorem placedArgs_ref {i : ℕ} {as : List CallArg} {j : Fin 4}
    (href : (placedArgs g i as j).ref = some v) : v ∈ as.flatMap CallArg.refs ∨
      (g j).ref = some v := by
  induction as generalizing g i with
  | nil => exact .inr href
  | cons a as ih =>
    rw [placedArgs] at href
    rw [List.flatMap_cons, List.mem_append]
    rcases ih href with hm | hg
    · exact .inl (.inr hm)
    · have hplaced : placed g i a.slots j ∈ a.slots ∨ placed g i a.slots j = g j := placed_mem j
      rcases hplaced with hmem | he
      · exact .inl (.inl (List.mem_filterMap.mpr ⟨_, hmem, hg⟩))
      · rw [he] at hg
        exact .inr hg

/-- `Validate` returns for an instruction that it accepts, unless it reads a null pointer. -/
theorem validated_ok_iff {σ : Type} {i : Inst} {s s' : σ} {x : Unit} :
    validated P i s = .ok x s' ↔ i.op ≠ .popRSB ∧ validate P i = true ∧ s' = s := by
  simp only [validated, bind_ok_iff, require_ok_iff]
  constructor
  · rintro ⟨⟨⟩, _, ⟨hop, rfl⟩, hvalid, rfl⟩
    exact ⟨hop, hvalid, rfl⟩
  · rintro ⟨hop, hvalid, rfl⟩
    exact ⟨(), _, ⟨hop, rfl⟩, hvalid, rfl⟩

/-- An accepted `LoadLocal` has a local in its first slot. -/
theorem validate_loadLocal {i : Inst} (hop : i.op = .loadLocal) (hok : validate P i = true) :
    ∃ id, i.args 0 = .local_ id := by
  have h0 : (i.args 0).type = .local_ := by
    by_contra hne
    simp [validate, hop, iterate, validateBody, expectedType, OpCode.argTypes, Ne.symm hne] at hok
  cases ha : i.args 0 <;> simp_all [Arg.type]

/-- An accepted `StoreLocal` has a local in its first slot and a value in its second. -/
theorem validate_storeLocal {i : Inst} (hop : i.op = .storeLocal) (hok : validate P i = true) :
    ∃ id v, i.args 0 = .local_ id ∧ i.args 1 = .value v := by
  have h0 : (i.args 0).type = .local_ := by
    by_contra hne
    simp [validate, hop, iterate, validateBody, expectedType, OpCode.argTypes, Ne.symm hne] at hok
  have h1 : (i.args 1).type = .value := by
    by_contra hne
    simp [validate, hop, iterate, validateBody, expectedType, OpCode.argTypes, h0, Ne.symm hne]
      at hok
  cases ha : i.args 0 <;> cases hb : i.args 1 <;> simp_all [Arg.type]

end Spec

end SwiftRuntime.Ir
