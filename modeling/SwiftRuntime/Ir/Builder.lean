import SwiftRuntime.Common.MemArena
import SwiftRuntime.IntrusiveList
import SwiftRuntime.Ir.Inst

/-!
# Building a function

`HIRFunction` and `HIRBuilder` of `ir/hir_builder.h`: a function is a list of blocks with
instructions, terminals and edges, and a map of the values its instructions define. The calls of the
builder, `Call`, change it, and `endFunction` (the builder's `Return`) finishes it.

The pieces that cannot stop are functions on the state (`appendBlock`, `addEdge`, `register`,
`ended`). The calls put them together in `EStateM`, which keeps the state that a call leaves when it
stops on the way. The `_spec` lemmas say what a call that returns has done, in terms of the pieces.

Blocks, edges and instructions are numbered in the order of their creation, which is the order of
the lists they are kept in. A `HIRValue` goes by the number of the instruction that defines it. The
list nodes of the blocks are modelled link by link as well, since a later pass puts the blocks into
a second list through the same nodes.
-/

namespace SwiftRuntime.Ir

/-- `Location`. -/
abbrev Location := UInt64

/-- A block, by its number in the order of creation. -/
abbrev BlockRef := ℕ

/-- An edge, by its number in the order of creation. -/
abbrev EdgeRef := ℕ

/-- A list node: that of a block, or the root of one of the two lists of blocks. -/
inductive ListNode
  | block (b : BlockRef)
  | blockList
  | blocksRpo
deriving DecidableEq, Repr

/-- `Terminal`. The case values of a switch are not modelled. -/
inductive Terminal
  | invalid
  | returnToDispatch
  | linkBlock (next : Location)
  | linkBlockFast (next : Location)
  | popRSBHint
  | if_ (cond : InstRef) (then_ else_ : Terminal)
  | switch (value : InstRef) (cases : List Terminal)
  | checkHalt (else_ : Terminal)

namespace Terminal

/-- `GetNextLocation`, which raises where this is `none`. -/
def next : Terminal → Option Location
  | linkBlock l => some l
  | linkBlockFast l => some l
  | _ => none

/-- The value a terminal refers to. -/
def ref : Terminal → Option InstRef
  | if_ cond _ _ => some cond
  | switch value _ => some value
  | _ => none

end Terminal

/-- `Edge`. -/
structure Edge where
  /-- `src_block`. -/
  src : BlockRef
  /-- `dest_block`. -/
  dest : BlockRef
  /-- The flag `CONDITIONAL`. -/
  conditional : Bool
  /-- The flag `DOMINATES`. -/
  dominates : Bool := false
deriving DecidableEq, Repr

/-- `HIRUse`. -/
structure HirUse where
  /-- `inst`. -/
  inst : InstRef
  /-- `arg_idx`. -/
  argIdx : Fin 4
deriving DecidableEq, Repr

/-- `HIRValue`, apart from the value itself. -/
structure HirValue where
  /-- `block`. -/
  block : BlockRef
  /-- `uses`. -/
  uses : List HirUse
deriving DecidableEq, Repr

/-- `HIRBlock` with its `Block`. -/
structure HirBlock where
  /-- `order_id`. -/
  orderId : ℕ
  /-- `location`. -/
  start : Location
  /-- `end`. -/
  endLoc : Location := 0
  /-- `inst_list`. -/
  insts : List InstRef := []
  /-- `block_term`. -/
  terminal : Terminal := .invalid
  /-- `outgoing_edges`. -/
  outgoing : List EdgeRef := []
  /-- `incoming_edges`. -/
  incoming : List EdgeRef := []
  /-- `predecessors`. -/
  predecessors : List (Option BlockRef) := []
  /-- `successors`. -/
  successors : List (Option BlockRef) := []
  /-- `back_edges`, by their targets. -/
  backEdges : List BlockRef := []
  /-- `dominator`. -/
  dominator : Option BlockRef := none

/-- `HIRFunction` with the instructions of its blocks. -/
structure HirFunction where
  /-- The instructions. -/
  heap : Heap
  /-- The blocks of `block_list`. -/
  block : BlockRef → HirBlock
  /-- Their number; `block_order_id` is this modulo `2^16`. -/
  blockCount : ℕ
  /-- The edges. -/
  edge : EdgeRef → Edge
  /-- Their number. -/
  edgeCount : ℕ
  /-- `values`. -/
  values : SearchTree InstRef
  /-- The `HIRValue` of an instruction that defines a value. -/
  hirValue : InstRef → HirValue
  /-- The number of values; `value_order_id` is this modulo `2^16`. -/
  valueCount : ℕ
  /-- `max_local_id`. -/
  maxLocalId : UInt16
  /-- `current_block`. -/
  current : Option BlockRef
  /-- `blocks`. -/
  blocks : List (Option BlockRef)
  /-- The list nodes. -/
  links : Links ListNode

namespace HirFunction

variable (f : HirFunction)

/-- The function with one block changed. -/
def setBlock (b : BlockRef) (g : HirBlock → HirBlock) : HirFunction :=
  { f with block := Function.update f.block b (g (f.block b)) }

/-- The block that starts at a location. -/
def findBlock (location : Location) : Option BlockRef :=
  (List.range f.blockCount).find? fun b => (f.block b).start = location

/-- `CreateOrGetBlock`. -/
def createOrGetBlock (location : Location) : BlockRef × HirFunction :=
  match f.findBlock location with
  | some b => (b, f)
  | none => (f.blockCount, { f with
      block := Function.update f.block f.blockCount
        { orderId := f.blockCount % 2 ^ 16, start := location }
      blockCount := f.blockCount + 1
      links := f.links.pushBack .blockList (.block f.blockCount) })

/-- `AppendBlock`. -/
def appendBlock (start endLoc : Location) : BlockRef × HirFunction :=
  let r := f.createOrGetBlock start
  (r.1, { r.2.setBlock r.1 fun b => { b with endLoc := endLoc } with current := some r.1 })

/-- `AddEdge` between two blocks. -/
def addEdge (src dest : BlockRef) (conditional : Bool) : HirFunction :=
  let linked := (f.setBlock src fun b =>
    { b with outgoing := b.outgoing ++ [f.edgeCount] }).setBlock
    dest fun b => { b with incoming := b.incoming ++ [f.edgeCount] }
  let edge := Function.update f.edge f.edgeCount { src, dest, conditional }
  { linked with
    -- A second edge to a block takes the flag from all of them.
    edge := fun e =>
      if (f.block dest).incoming ≠ [] ∧ e ∈ (linked.block dest).incoming then
        { edge e with dominates := false }
      else edge e
    edgeCount := f.edgeCount + 1 }

/-- `EndBlock` of a block. -/
def ended (b : BlockRef) (terminal : Terminal) : HirFunction :=
  { f.setBlock b fun x => { x with terminal := terminal } with current := none }

/-- `HIRValue::Compare` of the value of an instruction with that of another, as the tree asks it:
the ids are in descending order. -/
def compareId (v w : InstRef) : Ordering := compare (f.heap.inst w).id (f.heap.inst v).id

/-- `GetHIRValue`. -/
def getHIRValue (v : InstRef) : Option InstRef := f.values.find (f.compareId v)

/-- `DestroyHIRValue`. -/
def destroyHIRValue (P : Platform) (v : InstRef) : HirFunction :=
  { f with values := P.balance.remove v f.values }

/-- The creation of the `HIRValue` of an instruction and its insertion into the map. -/
def createValue (P : Platform) (u : InstRef) (b : BlockRef) : HirFunction :=
  let numbered := { f with
    heap := f.heap.update u fun i => { i with id := f.valueCount % 2 ^ 16 }
    hirValue := Function.update f.hirValue u ⟨b, []⟩
    valueCount := f.valueCount + 1 }
  { numbered with
    values := P.balance.rebalance (f.values.insert (numbered.compareId u) u) }

/-- The use of a slot of an instruction is put on record, if the map has the value. -/
def recordUse (u : InstRef) (i : Fin 4) : HirFunction :=
  match (((f.heap.inst u).args i).ref).bind f.getHIRValue with
  | none => f
  | some v => { f with
      hirValue := Function.update f.hirValue v
        { f.hirValue v with uses := (f.hirValue v).uses ++ [⟨u, i⟩] } }

/-- The largest local id is kept. -/
def noteLocal (u : InstRef) : HirFunction :=
  match (f.heap.inst u).op, (f.heap.inst u).args 0 with
  | .loadLocal, .local_ id | .storeLocal, .local_ id =>
    { f with maxLocalId := max id f.maxLocalId }
  | _, _ => f

/-- `AppendInst` of an accepted instruction to a block: it is put into the block's list, its value
into the map, and its slots on record. -/
def register (P : Platform) (u : InstRef) (b : BlockRef) : HirFunction :=
  let pushed := f.setBlock b fun x => { x with insts := x.insts ++ [u] }
  let valued := if (f.heap.inst u).op.hasValue then pushed.createValue P u b else pushed
  (([0, 1, 2, 3] : List (Fin 4)).foldl (fun f i => f.recordUse u i) valued).noteLocal u

end HirFunction

/-- Code that works on a function. -/
abbrev Build := EStateM Stop HirFunction

/-- Code that works on the instructions of a function. -/
def onHeap {α : Type} (x : InstM α) : Build α :=
  zoom HirFunction.heap (fun h f => { f with heap := h }) x

section Code

variable (P : Platform)

/-- `AppendInst` of an instruction that has its arguments. -/
def appendCreated (u : InstRef) : Build Unit := do
  let f ← get
  let b ← ofOption f.current .undefined
  validated P (f.heap.inst u)
  modify fun f => f.register P u b

/-- `AppendInst` with an operation and arguments. -/
def appendInst (op : OpCode) (args : List CallArg) : Build Unit := do
  let f ← get
  require f.current.isSome .raised
  let u ← onHeap (newInst op)
  onHeap (setArgs P u 0 args)
  appendCreated P u

/-- `EndBlock`, with the block it ends. -/
def endBlock (terminal : Terminal) : Build BlockRef := do
  let f ← get
  let b ← ofOption f.current .undefined
  modify fun f => f.ended b terminal
  return b

/-- `AppendBlock`, which also selects the block. -/
def selectBlock (start endLoc : Location) : Build BlockRef := do
  let f ← get
  modify fun f => (f.appendBlock start endLoc).2
  return (f.appendBlock start endLoc).1

/-- `Value::Use`, which the terminals call on their value when they are constructed. -/
def useValue (v : InstRef) : InstM Unit :=
  modify fun h => h.update v fun i => { i with numUse := i.numUse + 1 }

/-- `HIRBuilder::If`. -/
def buildIf (cond : InstRef) (then_ else_ : Terminal) : Build Unit := do
  onHeap (useValue cond)
  let pre ← endBlock (.if_ cond then_ else_)
  let elseLoc ← ofOption else_.next .raised
  let thenLoc ← ofOption then_.next .raised
  let elseBlock ← selectBlock elseLoc 0
  let thenBlock ← selectBlock thenLoc 0
  modify fun f => (f.addEdge pre thenBlock true).addEdge pre elseBlock true

/-- One case of `HIRBuilder::Switch`. -/
def buildCase (pre : BlockRef) (then_ : Terminal) : Build Unit := do
  let nextLoc ← ofOption then_.next .raised
  let nextBlock ← selectBlock nextLoc 0
  modify fun f => f.addEdge pre nextBlock true

/-- `HIRBuilder::Switch`. -/
def buildSwitch (value : InstRef) (cases : List Terminal) : Build Unit := do
  onHeap (useValue value)
  let pre ← endBlock (.switch value cases)
  forM cases (buildCase pre)

/-- `HIRBuilder::LinkBlock`. -/
def buildLinkBlock (next : Location) : Build Unit := do
  let pre ← endBlock (.linkBlock next)
  let nextBlock ← selectBlock next 0
  modify fun f => f.addEdge pre nextBlock false

/-- `CreateBlockVector`. The arena's chunks have `func_cap * 512` bytes, computed in 32 bits, also
the one that a larger vector is put into. -/
def createBlockVector (n : ℕ) : Build (List (Option BlockRef)) := do
  require (8 * n ≤ P.funcCap * 512 % 2 ^ 32) .undefined
  return List.replicate n none

/-- The loops of `EndFunction` that copy the ends of a block's edges into a vector. Their index is a
`u16`. -/
def fill : ℕ → List BlockRef → List (Option BlockRef) → List (Option BlockRef)
  | _, [], v => v
  | i, b :: bs, v => fill ((i + 1) % 2 ^ 16) bs (v.set i (some b))

/-- One pass of the loop of `EndFunction` over the blocks. -/
def finishBlock (b : BlockRef) : Build Unit := do
  let f ← get
  require ((f.block b).orderId < f.blocks.length) .undefined
  let predecessors ← createBlockVector P (f.block b).incoming.length
  let successors ← createBlockVector P (f.block b).outgoing.length
  modify fun f => { f.setBlock b fun x => { x with
      predecessors := fill 0 (x.incoming.map fun e => (f.edge e).src) predecessors
      successors := fill 0 (x.outgoing.map fun e => (f.edge e).dest) successors } with
    blocks := f.blocks.set (f.block b).orderId (some b) }

/-- `EndFunction`, which is all that `HIRBuilder::Return` does to the function. -/
def endFunction : Build Unit := do
  let _ ← endBlock .popRSBHint
  let f ← get
  let blocks ← createBlockVector P (f.blockCount % 2 ^ 16)
  modify fun f => { f with blocks := blocks }
  forM (List.range f.blockCount) (finishBlock P)

end Code

/-- The calls that build a function. -/
inductive Call
  | inst (op : OpCode) (args : List CallArg)
  | if_ (cond : InstRef) (then_ else_ : Terminal)
  | switch (value : InstRef) (cases : List Terminal)
  | linkBlock (next : Location)
  | appendBlock (start endLoc : Location)

namespace Call

/-- What a call does. -/
def exec (P : Platform) : Call → Build Unit
  | inst op args => appendInst P op args
  | if_ cond then_ else_ => buildIf cond then_ else_
  | switch value cases => buildSwitch value cases
  | linkBlock next => buildLinkBlock next
  | appendBlock start endLoc => do
    let _ ← selectBlock start endLoc
    return ()

/-- The values a call is given. -/
def refs : Call → List InstRef
  | inst _ args => args.flatMap CallArg.refs
  | if_ cond _ _ => [cond]
  | switch value _ => [value]
  | _ => []

/-- The values a call is given are those of instructions of the function, as the types of the
interface have it: only an instruction that returns a `Value` gives one. -/
def Typed (f : HirFunction) (c : Call) : Prop :=
  ∀ v ∈ c.refs, v < f.heap.count ∧ (f.heap.inst v).op.hasValue

/-- Whether the values that a call uses are there can be computed. -/
instance (f : HirFunction) (c : Call) : Decidable (c.Typed f) :=
  inferInstanceAs (Decidable (∀ v ∈ c.refs, v < f.heap.count ∧ (f.heap.inst v).op.hasValue))

/-- A call returns. -/
def Step (P : Platform) (c : Call) (f f' : HirFunction) : Prop := c.exec P f = .ok () f'

/-- A call with values of the function returns. -/
def TypedStep (P : Platform) (c : Call) (f f' : HirFunction) : Prop := c.Typed f ∧ c.Step P f f'

end Call

/-- A function before its first block. -/
def HirFunction.empty : HirFunction where
  heap := ⟨fun _ => { op := .void }, 0⟩
  block _ := { orderId := 0, start := 0 }
  blockCount := 0
  edge _ := { src := 0, dest := 0, conditional := false }
  edgeCount := 0
  values := .leaf
  hirValue _ := ⟨0, []⟩
  valueCount := 0
  maxLocalId := 0
  current := none
  blocks := []
  links := .unlinked

/-- The constructor, as `AppendFunction` calls it. -/
def HirFunction.create (begin_ : Location) : HirFunction := (empty.appendBlock begin_ 0).2

/-- `f` is a function under construction: the calls lead to it. -/
def Builds (P : Platform) (begin_ : Location) (calls : List Call) (f : HirFunction) : Prop :=
  Run (Call.Step P) calls (.create begin_) f

/-- `f` is a finished function: the calls and a final `Return` lead to it. -/
def Finishes (P : Platform) (begin_ : Location) (calls : List Call) (f : HirFunction) : Prop :=
  ∃ g, Builds P begin_ calls g ∧ endFunction P g = .ok () f

/-- `f` is a function under construction whose calls were given its own values. -/
def TypedBuilds (P : Platform) (begin_ : Location) (calls : List Call) (f : HirFunction) : Prop :=
  Run (Call.TypedStep P) calls (.create begin_) f

/-- `f` is a finished function whose calls were given its own values. -/
def TypedFinishes (P : Platform) (begin_ : Location) (calls : List Call) (f : HirFunction) : Prop :=
  ∃ g, TypedBuilds P begin_ calls g ∧ endFunction P g = .ok () f

/-- The calls one after the other, as long as they are given values of the function and return. -/
def runCalls (P : Platform) : List Call → HirFunction → Option HirFunction
  | [], f => some f
  | c :: calls, f =>
    if c.Typed f then (returned (c.exec P f)).bind (runCalls P calls) else none

/-- The function that the calls and a final `Return` build. -/
def finish (P : Platform) (begin_ : Location) (calls : List Call) : Option HirFunction :=
  (runCalls P calls (.create begin_)).bind fun g => returned (endFunction P g)

/-- The function that runs the calls takes their steps. -/
theorem run_of_runCalls {P : Platform} {calls : List Call} {f f' : HirFunction}
    (h : runCalls P calls f = some f') : Run (Call.TypedStep P) calls f f' := by
  induction calls generalizing f with
  | nil =>
    cases h
    exact .nil _
  | cons c calls ih =>
    rw [runCalls] at h
    split_ifs at h with htyped
    obtain ⟨g, hg, hrest⟩ := Option.bind_eq_some_iff.mp h
    exact .cons ⟨htyped, returned_eq_some_iff.mp hg⟩ (ih hrest)

/-- The same with `EndFunction` at the end. -/
theorem typedFinishes_of_finish {P : Platform} {begin_ : Location} {calls : List Call}
    {f : HirFunction} (h : finish P begin_ calls = some f) : TypedFinishes P begin_ calls f := by
  obtain ⟨g, hg, hend⟩ := Option.bind_eq_some_iff.mp h
  exact ⟨g, run_of_runCalls hg, returned_eq_some_iff.mp hend⟩

/-! ## What the calls do -/

section Pieces

variable (f : HirFunction)

/-- The block that `findBlock` finds starts at the location. -/
theorem HirFunction.findBlock_spec {loc : Location} {b : BlockRef} (h : f.findBlock loc = some b) :
    b < f.blockCount ∧ (f.block b).start = loc := by
  unfold HirFunction.findBlock at h
  exact ⟨List.mem_range.mp (List.mem_of_find?_eq_some h), by simpa using List.find?_some h⟩

/-- An existing block is selected. -/
def HirFunction.selected (b : BlockRef) (endLoc : Location) : HirFunction :=
  { f.setBlock b fun x => { x with endLoc := endLoc } with current := some b }

/-- A new block is created and selected. -/
def HirFunction.grown (start endLoc : Location) : HirFunction :=
  { f with
    block := Function.update f.block f.blockCount
      { orderId := f.blockCount % 2 ^ 16, start, endLoc }
    blockCount := f.blockCount + 1
    current := some f.blockCount
    links := f.links.pushBack .blockList (.block f.blockCount) }

/-- The blocks after one of them is selected. -/
theorem HirFunction.selected_block (b : BlockRef) (endLoc : Location) (x : BlockRef) :
    (f.selected b endLoc).block x =
      { f.block x with endLoc := if x = b then endLoc else (f.block x).endLoc } := by
  unfold HirFunction.selected HirFunction.setBlock
  by_cases hx : x = b
  · subst hx
    simp
  · simp [hx]

/-- The new block. -/
theorem HirFunction.grown_block_self (start endLoc : Location) :
    (f.grown start endLoc).block f.blockCount =
      { orderId := f.blockCount % 2 ^ 16, start, endLoc } := Function.update_self ..

/-- The other blocks stay. -/
theorem HirFunction.grown_block {x : BlockRef} (hx : x < f.blockCount) (start endLoc : Location) :
    (f.grown start endLoc).block x = f.block x := Function.update_of_ne (Nat.ne_of_lt hx) _ _

/-- The blocks after one of them is ended. -/
theorem HirFunction.ended_block (b : BlockRef) (t : Terminal) (x : BlockRef) :
    (f.ended b t).block x =
      { f.block x with terminal := if x = b then t else (f.block x).terminal } := by
  unfold HirFunction.ended HirFunction.setBlock
  by_cases hx : x = b
  · subst hx
    simp
  · simp [hx]

/-- `AppendBlock` selects the block that starts at the location, or creates one if there is none. -/
theorem HirFunction.appendBlock_cases (start endLoc : Location) :
    (∃ b < f.blockCount, (f.block b).start = start ∧
        f.appendBlock start endLoc = (b, f.selected b endLoc)) ∨
      ((∀ b < f.blockCount, (f.block b).start ≠ start) ∧
        f.appendBlock start endLoc = (f.blockCount, f.grown start endLoc)) := by
  unfold HirFunction.appendBlock HirFunction.createOrGetBlock
  cases hfind : f.findBlock start with
  | some b =>
    obtain ⟨hb, hstart⟩ := f.findBlock_spec hfind
    exact .inl ⟨b, hb, hstart, rfl⟩
  | none =>
    refine .inr ⟨fun b hb hstart => ?_, ?_⟩
    · have := List.find?_eq_none.mp hfind b (List.mem_range.mpr hb)
      simp [hstart] at this
    · simp [HirFunction.setBlock, HirFunction.grown]

/-- The fields of the blocks after `AddEdge`. -/
theorem HirFunction.addEdge_block (src dest : BlockRef) (conditional : Bool) (b : BlockRef) :
    (f.addEdge src dest conditional).block b = { f.block b with
      outgoing := (f.block b).outgoing ++ if b = src then [f.edgeCount] else []
      incoming := (f.block b).incoming ++ if b = dest then [f.edgeCount] else [] } := by
  unfold HirFunction.addEdge HirFunction.setBlock
  by_cases hs : b = src <;> by_cases hd : b = dest
  · subst hs hd
    simp
  · subst hs
    simp [hd]
  · subst hd
    simp [hs]
  · simp [hs, hd]

/-- The ends of the edges after `AddEdge`. -/
theorem HirFunction.addEdge_edge (src dest : BlockRef) (conditional : Bool) (e : EdgeRef) :
    ((f.addEdge src dest conditional).edge e).src =
        (if e = f.edgeCount then src else (f.edge e).src) ∧
      ((f.addEdge src dest conditional).edge e).dest =
        (if e = f.edgeCount then dest else (f.edge e).dest) := by
  simp only [HirFunction.addEdge, apply_ite Edge.src, apply_ite Edge.dest, ite_self,
    Function.update_apply, and_self]

end Pieces

section Spec

variable {P : Platform} {f f' : HirFunction}

/-- A computation on the heap returns in the function with the heap that it leaves. -/
theorem onHeap_ok_iff {α : Type} {x : InstM α} {a : α} :
    onHeap x f = .ok a f' ↔ ∃ h, x f.heap = .ok a h ∧ f' = { f with heap := h } := zoom_ok_iff

/-- The function with the use of a value counted by a terminal. -/
def HirFunction.used (f : HirFunction) (v : InstRef) : HirFunction :=
  { f with heap := f.heap.update v fun i => { i with numUse := i.numUse + 1 } }

/-- Using a value counts the use. -/
theorem useValue_spec {v : InstRef} (h : onHeap (useValue v) f = .ok () f') : f' = f.used v := by
  rw [onHeap_ok_iff] at h
  obtain ⟨k, hk, rfl⟩ := h
  rw [useValue, modify_ok_iff] at hk
  rw [hk]
  rfl

/-- Putting slots on record changes the records of uses only. -/
theorem HirFunction.recordUses_frame (f : HirFunction) (u : InstRef) (is : List (Fin 4)) :
    is.foldl (fun g i => g.recordUse u i) f =
      { f with hirValue := (is.foldl (fun g i => g.recordUse u i) f).hirValue } := by
  induction is generalizing f with
  | nil => rfl
  | cons i is ih =>
    have hone : f.recordUse u i = { f with hirValue := (f.recordUse u i).hirValue } := by
      unfold HirFunction.recordUse
      split <;> rfl
    rw [List.foldl_cons, ih, hone]

/-- A block is ended if there is a current one. -/
theorem endBlock_ok_iff {terminal : Terminal} {b : BlockRef} :
    endBlock terminal f = .ok b f' ↔ f.current = some b ∧ f' = f.ended b terminal := by
  simp only [endBlock, bind_ok_iff, get_ok_iff, ofOption_ok_iff, modify_ok_iff, pure_ok_iff]
  constructor
  · rintro ⟨g, _, ⟨rfl, rfl⟩, x, _, ⟨hcur, rfl⟩, ⟨⟩, _, rfl, rfl, rfl⟩
    exact ⟨hcur, rfl⟩
  · rintro ⟨hcur, rfl⟩
    exact ⟨f, f, ⟨rfl, rfl⟩, b, f, ⟨hcur, rfl⟩, (), _, rfl, rfl, rfl⟩

/-- A block is selected in any function. -/
theorem selectBlock_ok_iff {start endLoc : Location} {b : BlockRef} :
    selectBlock start endLoc f = .ok b f' ↔ (b, f') = f.appendBlock start endLoc := by
  simp only [selectBlock, bind_ok_iff, get_ok_iff, modify_ok_iff, pure_ok_iff]
  constructor
  · rintro ⟨g, _, ⟨rfl, rfl⟩, ⟨⟩, _, rfl, rfl, rfl⟩
    rfl
  · intro h
    exact ⟨f, f, ⟨rfl, rfl⟩, (), _, rfl, by rw [← h], by rw [← h]⟩

/-- What an instruction call does: it creates an instruction with the given arguments, which is
accepted, and puts it into the current block. -/
theorem appendInst_spec {op : OpCode} {args : List CallArg}
    (h : appendInst P op args f = .ok () f') :
    ∃ b k, f.current = some b ∧
      ArgsSet f.heap.count (placedArgs (fun _ => .void) 0 args)
        ⟨Function.update f.heap.inst f.heap.count { op := op }, f.heap.count + 1⟩ k ∧
      validate P (k.inst f.heap.count) = true ∧
      f' = HirFunction.register { f with heap := k } P f.heap.count b := by
  simp only [appendInst, bind_ok_iff, get_ok_iff, require_ok_iff, onHeap_ok_iff,
    newInst_ok_iff] at h
  obtain ⟨g, _, ⟨rfl, rfl⟩, ⟨⟩, _, ⟨_, rfl⟩, u, _, ⟨_, ⟨rfl, rfl⟩, rfl⟩, ⟨⟩, _, ⟨k, hset, rfl⟩,
    happ⟩ := h
  -- The new instruction gets its arguments before `Validate` sees it.
  have hset := setArgs_spec hset
  rw [Heap.created_self] at hset
  simp only [appendCreated, bind_ok_iff, get_ok_iff, ofOption_ok_iff, validated_ok_iff,
    modify_ok_iff] at happ
  obtain ⟨g, _, ⟨rfl, rfl⟩, b, _, ⟨hcur, rfl⟩, ⟨⟩, _, ⟨-, hval, rfl⟩, rfl⟩ := happ
  exact ⟨b, k, hcur, hset, hval, rfl⟩

/-- What `If` does: the current block is ended, the two targets are looked up or created, first the
one for else, and get their edges, first the one for then. -/
theorem buildIf_spec {cond : InstRef} {then_ else_ : Terminal}
    (h : buildIf cond then_ else_ f = .ok () f') :
    ∃ pre thenLoc elseLoc, f.current = some pre ∧ then_.next = some thenLoc ∧
      else_.next = some elseLoc ∧
      let f1 := ((f.used cond).ended pre (.if_ cond then_ else_)).appendBlock elseLoc 0
      let f2 := f1.2.appendBlock thenLoc 0
      f' = (f2.2.addEdge pre f2.1 true).addEdge pre f1.1 true := by
  simp only [buildIf, bind_ok_iff, endBlock_ok_iff, ofOption_ok_iff, selectBlock_ok_iff,
    modify_ok_iff] at h
  obtain ⟨⟨⟩, g, hu, pre, _, ⟨hcur, rfl⟩, elseLoc, _, ⟨helse, rfl⟩, thenLoc, _, ⟨hthen, rfl⟩, eb,
    f1, h1, tb, f2, h2, rfl⟩ := h
  -- The block for else is selected first.
  obtain rfl := useValue_spec hu
  refine ⟨pre, thenLoc, elseLoc, hcur, hthen, helse, ?_⟩
  rw [← h1]
  dsimp only
  rw [← h2]

/-- What `If` does from a current block. -/
theorem buildIf_eq {b : BlockRef} (hcur : f.current = some b) (cond : InstRef)
    (then_ else_ : Terminal) :
    buildIf cond then_ else_ f =
      match else_.next, then_.next with
      | some elseLoc, some thenLoc =>
        let f1 := ((f.used cond).ended b (.if_ cond then_ else_)).appendBlock elseLoc 0
        let f2 := f1.2.appendBlock thenLoc 0
        .ok () ((f2.2.addEdge b f2.1 true).addEdge b f1.1 true)
      | _, _ => .error .raised ((f.used cond).ended b (.if_ cond then_ else_)) := by
  have hused : onHeap (useValue cond) f = .ok () (f.used cond) := rfl
  have hend : endBlock (.if_ cond then_ else_) (f.used cond) =
      .ok b ((f.used cond).ended b (.if_ cond then_ else_)) := endBlock_ok_iff.mpr ⟨hcur, rfl⟩
  rw [buildIf, bind_of_ok hused, bind_of_ok hend]
  cases else_.next <;> cases then_.next <;> rfl

/-- The function with a block for a location, selected, and an edge to it. -/
def HirFunction.link (pre : BlockRef) (conditional : Bool) (f : HirFunction) (loc : Location) :
    HirFunction :=
  let r := f.appendBlock loc 0
  r.2.addEdge pre r.1 conditional

/-- The cases of `Switch` are linked up to the first one that has no location. -/
theorem forM_buildCase (pre : BlockRef) (cases : List Terminal) (f : HirFunction) :
    (forM cases (buildCase pre) : Build Unit) f =
      if cases.all (·.next.isSome) then
        .ok () ((cases.filterMap Terminal.next).foldl (HirFunction.link pre true) f)
      else .error .raised (((cases.takeWhile (·.next.isSome)).filterMap Terminal.next).foldl
        (HirFunction.link pre true) f) := by
  induction cases generalizing f with
  | nil => rfl
  | cons c cases ih =>
    rw [List.forM_cons]
    cases hc : c.next with
    -- The first case without a location stops the loop.
    | none =>
      have hstop : buildCase pre c f = .error .raised f := by
        rw [buildCase, hc]
        rfl
      rw [if_neg (by simp [hc]), List.takeWhile_cons_of_neg (by simp [hc])]
      exact bind_error_iff.mpr (.inl hstop)
    | some loc =>
      have hstep : buildCase pre c f = .ok () (f.link pre true loc) := by
        rw [buildCase, hc]
        rfl
      rw [bind_of_ok hstep, ih, List.takeWhile_cons_of_pos (by simp [hc]),
        List.filterMap_cons_some hc, List.filterMap_cons_some hc, List.all_cons, hc]
      rfl

/-- What `Switch` does from a current block. -/
theorem buildSwitch_eq {b : BlockRef} (hcur : f.current = some b) (value : InstRef)
    (cases : List Terminal) :
    buildSwitch value cases f =
      (forM cases (buildCase b) : Build Unit) ((f.used value).ended b (.switch value cases)) := by
  have hused : onHeap (useValue value) f = .ok () (f.used value) := rfl
  have hend : endBlock (.switch value cases) (f.used value) =
      .ok b ((f.used value).ended b (.switch value cases)) := endBlock_ok_iff.mpr ⟨hcur, rfl⟩
  rw [buildSwitch, bind_of_ok hused, bind_of_ok hend]

/-- What `Switch` does: the current block is ended, and its targets are linked one after the
other. -/
theorem buildSwitch_spec {value : InstRef} {cases : List Terminal}
    (h : buildSwitch value cases f = .ok () f') :
    ∃ pre, f.current = some pre ∧ (∀ c ∈ cases, c.next.isSome) ∧
      f' = (cases.filterMap Terminal.next).foldl (HirFunction.link pre true)
        ((f.used value).ended pre (.switch value cases)) := by
  simp only [buildSwitch, bind_ok_iff, endBlock_ok_iff] at h
  obtain ⟨⟨⟩, g, hu, pre, f1, ⟨hcur, rfl⟩, hfor⟩ := h
  obtain rfl := useValue_spec hu
  rw [forM_buildCase] at hfor
  split_ifs at hfor with hall
  cases hfor
  exact ⟨pre, hcur, by simpa using hall, rfl⟩

/-- What `LinkBlock` does: the current block is ended and its target linked. -/
theorem buildLinkBlock_spec {next : Location} (h : buildLinkBlock next f = .ok () f') :
    ∃ pre, f.current = some pre ∧ f' = (f.ended pre (.linkBlock next)).link pre false next := by
  simp only [buildLinkBlock, bind_ok_iff, endBlock_ok_iff, selectBlock_ok_iff, modify_ok_iff] at h
  obtain ⟨pre, _, ⟨hcur, rfl⟩, b, f1, h1, rfl⟩ := h
  exact ⟨pre, hcur, by rw [HirFunction.link, ← h1]⟩

/-- A vector that is returned has as many null pointers as were asked for. -/
theorem createBlockVector_ok {n : ℕ} {v : List (Option BlockRef)}
    (h : createBlockVector P n f = .ok v f') : v = List.replicate n none ∧ f' = f := by
  simp only [createBlockVector, bind_ok_iff, require_ok_iff, pure_ok_iff] at h
  obtain ⟨⟨⟩, _, ⟨_, rfl⟩, rfl, rfl⟩ := h
  exact ⟨rfl, rfl⟩

/-- A block with its vectors of predecessors and successors. -/
def HirFunction.finished (f : HirFunction) (b : BlockRef) : HirBlock :=
  { f.block b with
    predecessors := fill 0 ((f.block b).incoming.map fun e => (f.edge e).src)
      (List.replicate (f.block b).incoming.length none)
    successors := fill 0 ((f.block b).outgoing.map fun e => (f.edge e).dest)
      (List.replicate (f.block b).outgoing.length none) }

/-- The function whose blocks all have their vectors, with the vector of the blocks. -/
def HirFunction.withVectors (f : HirFunction) : HirFunction :=
  { f with
    block := fun b => if b < f.blockCount then f.finished b else f.block b
    blocks := (List.range f.blockCount).map some }

/-- The blocks of a finished function. -/
theorem HirFunction.withVectors_block {b : BlockRef} (hb : b < f.blockCount) :
    f.withVectors.block b = f.finished b := if_pos hb

/-- The vectors are all that is new in a block. -/
theorem HirFunction.withVectors_block_eq (f : HirFunction) (b : BlockRef) :
    f.withVectors.block b = { f.block b with
      predecessors := (f.withVectors.block b).predecessors
      successors := (f.withVectors.block b).successors } := by
  show (if b < f.blockCount then f.finished b else f.block b) = _
  unfold withVectors
  dsimp only
  split_ifs <;> rfl

/-- What a pass of `EndFunction` does: the block gets its vectors and its place in `blocks`. -/
theorem finishBlock_spec {b : BlockRef} (h : finishBlock P b f = .ok () f') :
    (f.block b).orderId < f.blocks.length ∧
      f' = { f with
        block := Function.update f.block b (f.finished b)
        blocks := f.blocks.set (f.block b).orderId (some b) } := by
  simp only [finishBlock, bind_ok_iff, get_ok_iff, require_ok_iff, modify_ok_iff] at h
  obtain ⟨_, _, ⟨rfl, rfl⟩, ⟨⟩, _, ⟨hfits, rfl⟩, ps, _, hps, ss, _, hss, rfl⟩ := h
  obtain ⟨rfl, rfl⟩ := createBlockVector_ok hps
  obtain ⟨rfl, rfl⟩ := createBlockVector_ok hss
  exact ⟨hfits, rfl⟩

/-- The loop of `EndFunction` goes through only if there are fewer than `2^16` blocks: the place of
block `2^16 - 1` is never in the vector. -/
theorem blockCount_lt_of_finish {n : ℕ} (horder : ∀ b < n, (f.block b).orderId = b % 2 ^ 16)
    (hlen : f.blocks.length = n % 2 ^ 16)
    (h : (forM (List.range n) (finishBlock P) : Build Unit) f = .ok () f') : n < 2 ^ 16 := by
  -- The blocks so far have fitted into the vector.
  have hinv := forM_induction (fun pre s =>
    s.blocks.length = n % 2 ^ 16 ∧ (∀ b, (s.block b).orderId = (f.block b).orderId) ∧
      ∀ b ∈ pre, b % 2 ^ 16 < n % 2 ^ 16) ?_ ⟨hlen, fun _ => rfl, by simp⟩ h
  -- Block `2^16 - 1` has the largest number there is, which the vector is too short for.
  · by_contra hge
    have := hinv.2.2 (2 ^ 16 - 1) (List.mem_range.mpr (by omega))
    omega
  · rintro pre b post s s' hsplit ⟨hlen, hsame, hfit⟩ hstep
    have hb : b < n := List.mem_range.mp (by rw [hsplit]; simp)
    obtain ⟨hfits, rfl⟩ := finishBlock_spec hstep
    refine ⟨by simpa using hlen, fun x => ?_, fun x hx => ?_⟩
    · by_cases hx : x = b
      · subst hx
        simpa [HirFunction.finished] using hsame x
      · simpa [hx] using hsame x
    · rcases List.mem_append.mp hx with hx | hx
      · exact hfit x hx
      · rw [List.mem_singleton.mp hx, ← horder b hb, ← hsame b, ← hlen]
        exact hfits

/-- The loop of `EndFunction` gives every block its vectors and its place. -/
theorem finish_spec (horder : ∀ b < f.blockCount, (f.block b).orderId = b)
    (hlen : f.blocks.length = f.blockCount)
    (h : (forM (List.range f.blockCount) (finishBlock P) : Build Unit) f = .ok () f') :
    f' = f.withVectors := by
  -- The blocks so far have their vectors and their places, and the others are as they were.
  have hinv := forM_induction (fun pre s =>
    (s.blocks.length = f.blockCount ∧ ∀ b ∈ pre, s.blocks[b]? = some (some b)) ∧
    s = { f with
      block := fun b => if b ∈ pre then f.finished b else f.block b
      blocks := s.blocks }) ?_ ⟨⟨hlen, by simp⟩, by simp⟩ h
  · obtain ⟨⟨hlen', hplace⟩, hs⟩ := hinv
    -- At the end every place is filled.
    have hblocks : f'.blocks = (List.range f.blockCount).map some := by
      apply List.ext_getElem?
      intro i
      rcases Nat.lt_or_ge i f.blockCount with hi | hi
      · rw [hplace i (List.mem_range.mpr hi)]
        simp [hi]
      · rw [List.getElem?_eq_none (by omega), List.getElem?_eq_none (by simpa using hi)]
    rw [hs, hblocks]
    simp only [List.mem_range]
    rfl
  · rintro pre b post s s' hsplit ⟨⟨hlen', hplace⟩, hs⟩ hstep
    have hb : b < f.blockCount := List.mem_range.mp (by rw [hsplit]; simp)
    have hnew : b ∉ pre := by
      intro hmem
      have hnodup := List.nodup_range (n := f.blockCount)
      rw [hsplit, List.nodup_append] at hnodup
      exact hnodup.2.2 b hmem b List.mem_cons_self rfl
    have hblock : s.block b = f.block b := by rw [hs]; simp [hnew]
    have hedge : s.edge = f.edge := by rw [hs]
    have hfin : s.finished b = f.finished b := by
      unfold HirFunction.finished
      rw [hblock, hedge]
    obtain ⟨hfits, rfl⟩ := finishBlock_spec hstep
    rw [hblock, horder b hb] at hfits ⊢
    refine ⟨⟨by simpa using hlen', fun x hx => ?_⟩, ?_⟩
    · rcases List.mem_append.mp hx with hx | hx
      · have hxb : b ≠ x := fun he => hnew (he ▸ hx)
        rw [List.getElem?_set_ne hxb]
        exact hplace x hx
      · obtain rfl := List.mem_singleton.mp hx
        simp [hfits]
    · rw [hfin, hs]
      dsimp only
      congr 1
      funext x
      by_cases hx : x = b
      · subst hx
        simp
      · simp [hx]

/-- What `EndFunction` does: the current block is ended, the blocks get their vectors, and `blocks`
lists them in the order of their creation. This needs fewer than `2^16` blocks. -/
theorem endFunction_spec (horder : ∀ b < f.blockCount, (f.block b).orderId = b % 2 ^ 16)
    (h : endFunction P f = .ok () f') :
    ∃ b, f.current = some b ∧ f.blockCount < 2 ^ 16 ∧
      f' = (f.ended b .popRSBHint).withVectors := by
  simp only [endFunction, bind_ok_iff, endBlock_ok_iff, get_ok_iff, modify_ok_iff] at h
  obtain ⟨b, _, ⟨hcur, rfl⟩, _, _, ⟨rfl, rfl⟩, v, _, hv, ⟨⟩, _, rfl, hfor⟩ := h
  obtain ⟨rfl, rfl⟩ := createBlockVector_ok hv
  -- Ending the current block renumbers nothing.
  have horder' : ∀ x < f.blockCount,
      ((f.ended b .popRSBHint).block x).orderId = x % 2 ^ 16 := by
    intro x hx
    rw [← horder x hx]
    by_cases hxb : x = b
    · subst hxb
      simp [HirFunction.ended, HirFunction.setBlock]
    · simp [HirFunction.ended, HirFunction.setBlock, hxb]
  have hlt : f.blockCount < 2 ^ 16 := blockCount_lt_of_finish (f := { f.ended b .popRSBHint with
    blocks := List.replicate (f.blockCount % 2 ^ 16) none }) horder' (by simp) hfor
  refine ⟨b, hcur, hlt, finish_spec (f := { f.ended b .popRSBHint with
    blocks := List.replicate (f.blockCount % 2 ^ 16) none }) (fun x hx => ?_) ?_ hfor⟩
  · exact (horder' x hx).trans (Nat.mod_eq_of_lt (hx.trans hlt))
  · rw [List.length_replicate]
    exact Nat.mod_eq_of_lt hlt

end Spec

/-! ## Invariants of a construction -/

/-- A property of functions that everything a call does keeps. -/
structure Kept (P : Platform) (Inv : HirFunction → Prop) : Prop where
  /-- The use of a value by a terminal. -/
  used : ∀ f v, Inv f → Inv (f.used v)
  /-- The end of a block. -/
  ended : ∀ f b t, Inv f → Inv (f.ended b t)
  /-- A new edge. -/
  addEdge : ∀ f src dest conditional, Inv f → Inv (f.addEdge src dest conditional)
  /-- A block that is looked up or created. -/
  appendBlock : ∀ f start endLoc, Inv f → Inv (f.appendBlock start endLoc).2
  /-- A new instruction that is put into a block. The ids of the others have not changed. -/
  register : ∀ f k b, k.count = f.heap.count + 1 →
    (∀ r < f.heap.count, (k.inst r).id = (f.heap.inst r).id) → Inv f →
    Inv (HirFunction.register { f with heap := k } P f.heap.count b)

/-- A property of functions that everything but an instruction call keeps. -/
structure KeptApart (Inv : HirFunction → Prop) : Prop where
  /-- The use of a value by a terminal. -/
  used : ∀ f v, Inv f → Inv (f.used v)
  /-- The end of a block. -/
  ended : ∀ f b t, Inv f → Inv (f.ended b t)
  /-- A new edge. -/
  addEdge : ∀ f src dest conditional, Inv f → Inv (f.addEdge src dest conditional)
  /-- A block that is looked up or created. -/
  appendBlock : ∀ f start endLoc, Inv f → Inv (f.appendBlock start endLoc).2

namespace KeptApart

variable {P : Platform} {Inv : HirFunction → Prop} {f f' : HirFunction}

/-- A branch to a location keeps it. -/
theorem link (h : KeptApart Inv) (hf : Inv f) (pre : BlockRef) (conditional : Bool)
    (loc : Location) : Inv (f.link pre conditional loc) :=
  h.addEdge _ _ _ _ (h.appendBlock f loc 0 hf)

/-- So do several branches. -/
theorem foldl_link (h : KeptApart Inv) (hf : Inv f) (pre : BlockRef) (conditional : Bool)
    (locs : List Location) : Inv (locs.foldl (HirFunction.link pre conditional) f) := by
  induction locs generalizing f with
  | nil => exact hf
  | cons loc locs ih => exact ih (h.link hf pre conditional loc)

/-- The other calls keep it. -/
theorem step (h : KeptApart Inv) {c : Call} (hc : ∀ op args, c ≠ .inst op args)
    (hstep : c.Step P f f') (hf : Inv f) : Inv f' := by
  have hexec : c.exec P f = .ok () f' := hstep
  cases c with
  | inst op args => exact absurd rfl (hc op args)
  -- Each call is a sequence of the operations that keep it.
  | if_ cond then_ else_ =>
    obtain ⟨pre, thenLoc, elseLoc, -, -, -, rfl⟩ := buildIf_spec hexec
    have h1 := h.appendBlock _ elseLoc 0
      (h.ended _ pre (.if_ cond then_ else_) (h.used f cond hf))
    exact h.addEdge _ _ _ _ (h.addEdge _ _ _ _ (h.appendBlock _ thenLoc 0 h1))
  | switch value cases =>
    obtain ⟨pre, -, -, rfl⟩ := buildSwitch_spec hexec
    exact h.foldl_link (h.ended _ pre _ (h.used f value hf)) _ _ _
  | linkBlock next =>
    obtain ⟨pre, -, rfl⟩ := buildLinkBlock_spec hexec
    exact h.link (h.ended f pre _ hf) _ _ _
  | appendBlock start endLoc =>
    simp only [Call.exec, bind_ok_iff, selectBlock_ok_iff, pure_ok_iff] at hexec
    obtain ⟨b, _, hb, -, rfl⟩ := hexec
    have h1 := h.appendBlock f start endLoc hf
    rw [← hb] at h1
    exact h1

end KeptApart

namespace Kept

variable {P : Platform} {Inv : HirFunction → Prop} {f f' : HirFunction}

/-- What all calls keep is kept by those without instructions. -/
theorem apart (h : Kept P Inv) : KeptApart Inv := ⟨h.used, h.ended, h.addEdge, h.appendBlock⟩

/-- The calls keep it. -/
theorem step (h : Kept P Inv) {c : Call} (hstep : c.Step P f f') (hf : Inv f) : Inv f' := by
  by_cases hc : ∃ op args, c = .inst op args
  · obtain ⟨op, args, rfl⟩ := hc
    obtain ⟨b, k, -, hk, -, rfl⟩ := appendInst_spec hstep
    refine h.register f k b hk.count (fun r hr => ?_) hf
    rw [hk.id]
    simp [Nat.ne_of_lt hr]
  · exact h.apart.step (fun op args he => hc ⟨op, args, he⟩) hstep hf

/-- It holds throughout a construction. -/
theorem builds (h : Kept P Inv) (hempty : Inv .empty) {begin_ : Location} {calls : List Call}
    (hf : Builds P begin_ calls f) : Inv f :=
  Run.invariant Inv hf (fun _ _ _ _ hstep hs => h.step hstep hs) (h.appendBlock _ begin_ 0 hempty)

end Kept

end SwiftRuntime.Ir
