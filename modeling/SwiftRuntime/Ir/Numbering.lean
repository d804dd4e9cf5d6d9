import SwiftRuntime.Ir.IdByRpo
import Mathlib.Data.Finset.Card
import Mathlib.Data.Finset.Image

/-!
# The numbers of values and blocks

A value gets its id and a block its order id from a counter of 16 bits. The ids are the keys of the
map of values, and the order ids are the indices into the vector of blocks, so that both have to be
different (`Numbered`, `BlocksListed`).

The counters of the model have no bound, and `Listed` says what the instructions of a function under
construction have to do with them: the `i`-th value that is defined has the id `i % 2^16`. So the
numbers are different exactly as long as there are at most `2^16` values and blocks, and `Return`
needs one block less, since the size of the vector of blocks is read off the counter
(`numbered_iff`). How many there are follows from the calls: `valuesOf` counts the instruction calls
that define a value, and `startsOf` collects the locations that blocks are asked for at.
-/

namespace SwiftRuntime.Ir

namespace HirFunction

variable (f : HirFunction)

/-- Values and blocks have different numbers, and the map finds a value with the block that has its
instruction. -/
structure Numbered : Prop where
  /-- Values have different ids. -/
  ids : ∀ b < f.blockCount, ∀ c < f.blockCount, ∀ u ∈ (f.block b).insts, ∀ w ∈ (f.block c).insts,
    (f.heap.inst u).op.hasValue = true → (f.heap.inst w).op.hasValue = true → u ≠ w →
    (f.heap.inst u).id ≠ (f.heap.inst w).id
  /-- The map finds them. -/
  found : ∀ b < f.blockCount, ∀ u ∈ (f.block b).insts, (f.heap.inst u).op.hasValue = true →
    f.getHIRValue u = some u ∧ (f.hirValue u).block < f.blockCount ∧
      u ∈ (f.block (f.hirValue u).block).insts
  /-- Blocks start at different locations. -/
  starts : ∀ b < f.blockCount, ∀ c < f.blockCount, b ≠ c → (f.block b).start ≠ (f.block c).start
  /-- Blocks have different order ids. -/
  orderIds : ∀ b < f.blockCount, ∀ c < f.blockCount, b ≠ c →
    (f.block b).orderId ≠ (f.block c).orderId

/-- The vector of blocks has every block at its order id, and nothing else. -/
def BlocksListed : Prop :=
  f.blocks.length = f.blockCount ∧
    ∀ b < f.blockCount, f.blocks[(f.block b).orderId]? = some (some b)

/-- The locations that blocks start at. -/
def starts : Finset Location := (Finset.range f.blockCount).image fun b => (f.block b).start

/-- The locations at which blocks start. -/
theorem mem_starts {l : Location} :
    l ∈ f.starts ↔ ∃ b < f.blockCount, (f.block b).start = l := by
  simp [starts]

/-- `Return` finds a current block, and the arena has room for its vectors. -/
structure Returnable (P : Platform) : Prop where
  /-- There is a block to end. -/
  current : f.current.isSome
  /-- The vector of blocks has room. -/
  blocks : 8 * (f.blockCount % 2 ^ 16) ≤ P.funcCap * 512 % 2 ^ 32
  /-- The vectors of predecessors have room. -/
  incoming : ∀ b < f.blockCount, 8 * (f.block b).incoming.length ≤ P.funcCap * 512 % 2 ^ 32
  /-- The vectors of successors have room. -/
  outgoing : ∀ b < f.blockCount, 8 * (f.block b).outgoing.length ≤ P.funcCap * 512 % 2 ^ 32

/-- Whether these conditions hold can be computed. -/
instance (P : Platform) : Decidable (f.Returnable P) :=
  decidable_of_iff (f.current.isSome ∧ 8 * (f.blockCount % 2 ^ 16) ≤ P.funcCap * 512 % 2 ^ 32 ∧
    (∀ b < f.blockCount, 8 * (f.block b).incoming.length ≤ P.funcCap * 512 % 2 ^ 32) ∧
    ∀ b < f.blockCount, 8 * (f.block b).outgoing.length ≤ P.funcCap * 512 % 2 ^ 32)
    ⟨fun ⟨h1, h2, h3, h4⟩ => ⟨h1, h2, h3, h4⟩, fun ⟨h1, h2, h3, h4⟩ => ⟨h1, h2, h3, h4⟩⟩

end HirFunction

/-- Whether a call defines a value. -/
def Call.definesValue : Call → Bool
  | inst op _ => op.hasValue
  | _ => false

/-- The number of calls that define a value. -/
def valuesOf (calls : List Call) : ℕ := calls.countP Call.definesValue

/-- The locations at which a call asks for blocks. -/
def Call.starts : Call → List Location
  | inst _ _ => []
  | if_ _ then_ else_ => [else_, then_].filterMap Terminal.next
  | switch _ cases => cases.filterMap Terminal.next
  | linkBlock next => [next]
  | appendBlock start _ => [start]

/-- The locations at which a construction asks for blocks. -/
def startsOf (begin_ : Location) (calls : List Call) : Finset Location :=
  (begin_ :: calls.flatMap Call.starts).toFinset

/-! ## The values in the order of their definitions -/

/-- The instructions of a function under construction and the numbers they got. -/
structure Listed (f : HirFunction) : Prop where
  /-- The current block is one of the blocks. -/
  current_lt : ∀ b, f.current = some b → b < f.blockCount
  /-- Every instruction is in the list of a block. -/
  mem : ∀ u, u < f.heap.count ↔ ∃ b < f.blockCount, u ∈ (f.block b).insts
  /-- The values are counted. -/
  length : f.definitions.length = f.valueCount
  /-- A value's id is its place. -/
  id : ∀ i v, f.definitions.reverse[i]? = some v → (f.heap.inst v).id = i % 2 ^ 16
  /-- The map has nothing else. -/
  mapped : ∀ v ∈ f.values.toList, v ∈ f.definitions
  /-- A value knows the block of its instruction. -/
  home : ∀ v ∈ f.definitions, (f.hirValue v).block < f.blockCount ∧
    v ∈ (f.block (f.hirValue v).block).insts

namespace Listed

variable {P : Platform} {f f' : HirFunction}

/-- What leaves the instructions and values alone keeps the invariant. -/
theorem of_same (hf : Listed f) (hcur : ∀ b, f'.current = some b → b < f'.blockCount)
    (hheap : SameArgs f.heap f'.heap) (hvalues : f'.values = f.values)
    (hhir : f'.hirValue = f.hirValue) (hcount : f'.valueCount = f.valueCount)
    (hle : f.blockCount ≤ f'.blockCount)
    (hold : ∀ b < f.blockCount, (f'.block b).insts = (f.block b).insts)
    (hnew : ∀ b < f'.blockCount, f.blockCount ≤ b → (f'.block b).insts = []) : Listed f' := by
  have hdefs : f'.definitions = f.definitions := by
    unfold HirFunction.definitions
    simp only [hheap.count, hheap.op]
  refine ⟨hcur, fun u => ?_, ?_, ?_, ?_, fun v hv => ?_⟩
  -- The blocks have the same instructions, and new blocks have none.
  · rw [hheap.count, hf.mem u]
    constructor
    · rintro ⟨b, hb, hu⟩
      exact ⟨b, hb.trans_le hle, by rwa [hold b hb]⟩
    · rintro ⟨b, hb, hu⟩
      rcases Nat.lt_or_ge b f.blockCount with hlt | hge
      · exact ⟨b, hlt, by rwa [hold b hlt] at hu⟩
      · rw [hnew b hb hge] at hu
        cases hu
  · rw [hdefs, hcount]
    exact hf.length
  · simp only [hdefs, hheap.id]
    exact hf.id
  · rw [hvalues, hdefs]
    exact hf.mapped
  · rw [hdefs] at hv
    obtain ⟨hlt, hmem⟩ := hf.home v hv
    rw [hhir, hold _ hlt]
    exact ⟨hlt.trans_le hle, hmem⟩

/-- What leaves the list of instructions of every block alone as well. -/
theorem of_same_blocks (hf : Listed f) (hcur : ∀ b, f'.current = some b → b < f'.blockCount)
    (hheap : SameArgs f.heap f'.heap) (hvalues : f'.values = f.values)
    (hhir : f'.hirValue = f.hirValue) (hcount : f'.valueCount = f.valueCount)
    (hblocks : f'.blockCount = f.blockCount)
    (hinsts : ∀ b, (f'.block b).insts = (f.block b).insts) : Listed f' :=
  hf.of_same hcur hheap hvalues hhir hcount hblocks.ge (fun b _ => hinsts b)
    fun b hb hge => absurd hb (by omega)

/-- The calls other than those for instructions keep the invariant. -/
theorem kept : KeptApart Listed where
  used f v hf := hf.of_same_blocks hf.current_lt (sameArgs_used f v) rfl rfl rfl rfl fun _ => rfl
  ended f b t hf := hf.of_same_blocks (fun _ h => nomatch h) (.refl _) rfl rfl rfl rfl fun x => by
    rw [f.ended_block]
  addEdge f src dest conditional hf :=
    hf.of_same_blocks hf.current_lt (.refl _) rfl rfl rfl rfl fun x => by rw [f.addEdge_block]
  appendBlock f start endLoc hf := by
    -- A block that is there has been selected, or a new one has been created, which is empty.
    rcases f.appendBlock_cases start endLoc with ⟨b, hb, -, heq⟩ | ⟨-, heq⟩
    · rw [heq]
      refine hf.of_same_blocks ?_ (.refl _) rfl rfl rfl rfl fun x => by rw [f.selected_block]
      rintro x ⟨⟩
      exact hb
    · rw [heq]
      refine hf.of_same ?_ (.refl _) rfl rfl rfl (Nat.le_succ _) (fun x hx => ?_) fun x hx hge => ?_
      · rintro x ⟨⟩
        exact Nat.lt_succ_self _
      · rw [f.grown_block hx]
      · obtain rfl : x = f.blockCount := Nat.le_antisymm (Nat.lt_succ_iff.mp hx) hge
        rw [f.grown_block_self]

/-- The vectors that `EndFunction` creates. -/
theorem withVectors (hf : Listed f) : Listed f.withVectors :=
  hf.of_same_blocks hf.current_lt (.refl _) rfl rfl rfl rfl fun x => by rw [f.withVectors_block_eq]

end Listed

/-- Registering an instruction puts its uses on record, but moves no value to another block. -/
theorem HirFunction.register_home (f : HirFunction) (P : Platform) (u : InstRef) (b : BlockRef)
    (v : InstRef) :
    ((f.register P u b).hirValue v).block = ((f.enrolled P u b).hirValue v).block := by
  -- Recording the uses adds to the lists of uses only.
  have hrecord : ∀ (is : List (Fin 4)) (g : HirFunction),
      ((is.foldl (fun f i => f.recordUse u i) g).hirValue v).block = (g.hirValue v).block := by
    intro is
    induction is with
    | nil => exact fun _ => rfl
    | cons i is ih =>
      intro g
      rw [List.foldl_cons, ih]
      unfold HirFunction.recordUse
      split
      · rfl
      · next w _ =>
        by_cases hw : v = w
        · subst hw
          simp
        · simp [hw]
  obtain ⟨m, hnote, -⟩ := HirFunction.noteLocal_spec
    (([0, 1, 2, 3] : List (Fin 4)).foldl (fun f i => f.recordUse u i) (f.enrolled P u b)) u
  calc ((f.register P u b).hirValue v).block
      = (((([0, 1, 2, 3] : List (Fin 4)).foldl (fun f i => f.recordUse u i)
          (f.enrolled P u b)).noteLocal u).hirValue v).block := rfl
    _ = ((f.enrolled P u b).hirValue v).block := by rw [hnote, hrecord]

/-- What an instruction that defines a value gets. -/
theorem HirFunction.enrolled_new {f : HirFunction} {P : Platform} {u : InstRef}
    (hval : (f.heap.inst u).op.hasValue = true) (b : BlockRef) :
    (f.enrolled P u b).valueCount = f.valueCount + 1 ∧
      ((f.enrolled P u b).heap.inst u).id = f.valueCount % 2 ^ 16 ∧
      (f.enrolled P u b).hirValue u = ⟨b, []⟩ := by
  unfold HirFunction.enrolled
  rw [hval]
  simp only [if_true]
  exact ⟨rfl, by simp [HirFunction.createValue, HirFunction.setBlock, Heap.update],
    by simp [HirFunction.createValue, HirFunction.setBlock]⟩

/-- `f'` is `f` with one more instruction in the list of block `b`, and its value if it defines one.
Unlike `Appended` it says nothing about arguments and uses, and asks nothing of the calls. -/
structure OneMore (f f' : HirFunction) (b : BlockRef) : Prop where
  /-- There is one more instruction. -/
  count : f'.heap.count = f.heap.count + 1
  /-- The operations of the others. -/
  op : ∀ r < f.heap.count, (f'.heap.inst r).op = (f.heap.inst r).op
  /-- The ids of the others. -/
  id : ∀ r < f.heap.count, (f'.heap.inst r).id = (f.heap.inst r).id
  /-- The blocks stay. -/
  blockCount : f'.blockCount = f.blockCount
  /-- The current block stays. -/
  current : f'.current = f.current
  /-- The lists of instructions. -/
  insts : ∀ x, (f'.block x).insts = (f.block x).insts ++ if x = b then [f.heap.count] else []
  /-- The blocks of the other values. -/
  home : ∀ v < f.heap.count, (f'.hirValue v).block = (f.hirValue v).block
  /-- What the new value gets, if there is one. -/
  value : (f'.heap.inst f.heap.count).op.hasValue = false ∧ f'.valueCount = f.valueCount ∧
      f'.values = f.values ∨
    (f'.heap.inst f.heap.count).op.hasValue = true ∧ f'.valueCount = f.valueCount + 1 ∧
      (f'.heap.inst f.heap.count).id = f.valueCount % 2 ^ 16 ∧
      (f'.hirValue f.heap.count).block = b ∧
      ∀ v ∈ f'.values.toList, v ∈ f.values.toList ∨ v = f.heap.count

section Calls

variable {P : Platform} {f f' : HirFunction} {b : BlockRef}

/-- An instruction call adds one instruction. -/
theorem Mapped.oneMore (hm : Mapped f) {k : Heap} (hcount : k.count = f.heap.count + 1)
    (hold : ∀ r < f.heap.count, (k.inst r).op = (f.heap.inst r).op ∧
      (k.inst r).id = (f.heap.inst r).id) (b : BlockRef) :
    OneMore f (HirFunction.register { f with heap := k } P f.heap.count b) b := by
  have hhome := HirFunction.register_home { f with heap := k } P f.heap.count b
  obtain ⟨hGcount, hGop, -, hGold, hGblocks, hGcur, -⟩ :=
    HirFunction.enrolled_frame { f with heap := k } P f.heap.count b
  have hGblock := HirFunction.enrolled_block { f with heap := k } P f.heap.count b
  have hframe := HirFunction.register_frame { f with heap := k } P f.heap.count b
  have hheap := congrArg HirFunction.heap hframe
  have hblock := congrArg HirFunction.block hframe
  have hvalues := congrArg HirFunction.values hframe
  -- What `AppendInst` leaves alone, before what it does to the values.
  refine ⟨?_, fun r hr => ?_, fun r hr => ?_, ?_, ?_, fun x => ?_, fun v hv => ?_, ?_⟩
  · rw [hheap]
    exact hGcount.trans hcount
  · rw [hheap]
    exact (hGop r).trans (hold r hr).1
  · rw [hheap]
    exact (hGold r (Nat.ne_of_lt hr)).1.trans (hold r hr).2
  · exact (congrArg HirFunction.blockCount hframe).trans hGblocks
  · exact (congrArg HirFunction.current hframe).trans hGcur
  · rw [hblock]
    exact congrArg HirBlock.insts (hGblock x)
  · rw [hhome, (hGold v (Nat.ne_of_lt hv)).2]
  -- The instruction has a value or not. The map may refuse a value whose id is there.
  · rw [HirFunction.register_valueCount, hhome, hheap, hvalues]
    dsimp only
    rw [hGop]
    cases hval : (k.inst f.heap.count).op.hasValue with
    | false =>
      obtain ⟨hvals, hn⟩ := HirFunction.enrolled_of_not_hasValue (P := P)
        (f := { f with heap := k }) (u := f.heap.count) hval b
      exact .inl ⟨rfl, hn, hvals⟩
    | true =>
      obtain ⟨hn, hid, hhir⟩ := HirFunction.enrolled_new (P := P) (f := { f with heap := k })
        (u := f.heap.count) hval b
      refine .inr ⟨rfl, hn, hid, by rw [hhir], fun v hv => ?_⟩
      rcases hm.toList_enrolled (P := P) (fun r hr => (hold r hr).2) b with ⟨heq, -⟩ | ⟨heq, -⟩
      · exact .inl (heq ▸ hv)
      · exact (List.mem_cons.mp (heq ▸ hv)).symm

/-- One more instruction keeps the numbers in order. -/
theorem OneMore.listed (ha : OneMore f f' b) (hf : Listed f) (hb : b < f.blockCount) :
    Listed f' := by
  have hmem := HirFunction.mem_insts_iff ha.insts
  have hlt : ∀ v ∈ f.definitions, v < f.heap.count := fun v hv => (f.mem_definitions.mp hv).1
  have hdefs := HirFunction.definitions_succ ha.count ha.op
  have hhome : ∀ v ∈ f.definitions, (f'.hirValue v).block < f'.blockCount ∧
      v ∈ (f'.block (f'.hirValue v).block).insts := by
    intro v hv
    rw [ha.home v (hlt v hv), ha.blockCount, hmem]
    exact ⟨(hf.home v hv).1, .inl (hf.home v hv).2⟩
  have hids : ∀ i v, f.definitions.reverse[i]? = some v → (f'.heap.inst v).id = i % 2 ^ 16 := by
    intro i v hv
    have hv' : v ∈ f.definitions := List.mem_reverse.mp (List.mem_of_getElem? hv)
    rw [ha.id v (hlt v hv')]
    exact hf.id i v hv
  have hinsts : ∀ u, u < f'.heap.count ↔ ∃ x < f'.blockCount, u ∈ (f'.block x).insts := by
    intro u
    simp only [ha.count, ha.blockCount, hmem, Nat.lt_succ_iff_lt_or_eq, hf.mem u]
    constructor
    · rintro (⟨x, hx, hu⟩ | rfl)
      · exact ⟨x, hx, .inl hu⟩
      · exact ⟨b, hb, .inr ⟨rfl, rfl⟩⟩
    · rintro ⟨x, hx, hu | ⟨-, rfl⟩⟩
      · exact .inl ⟨x, hx, hu⟩
      · exact .inr rfl
  have hcur : ∀ x, f'.current = some x → x < f'.blockCount := by
    rw [ha.current, ha.blockCount]
    exact hf.current_lt
  -- An instruction without a value leaves the definitions as they are.
  rcases ha.value with ⟨hval, hn, hvals⟩ | ⟨hval, hn, hid, hhir, hvals⟩
  · rw [hval, if_neg (by simp)] at hdefs
    refine ⟨hcur, hinsts, ?_, ?_, ?_, ?_⟩
    · rw [hdefs, hn]
      exact hf.length
    · rw [hdefs]
      exact hids
    · rw [hdefs, hvals]
      exact hf.mapped
    · rw [hdefs]
      exact hhome
  · rw [hval, if_pos rfl] at hdefs
    refine ⟨hcur, hinsts, ?_, fun i v hv => ?_, fun v hv => ?_, fun v hv => ?_⟩
    · rw [hdefs, hn, List.length_cons, hf.length]
    · rw [hdefs, List.reverse_cons] at hv
      rcases Nat.lt_or_ge i f.definitions.reverse.length with hi | hi
      · rw [List.getElem?_append_left hi] at hv
        exact hids i v hv
      · -- The new value is the last one.
        rw [List.getElem?_append_right hi] at hv
        have hlen : f.definitions.reverse.length = f.valueCount := by
          rw [List.length_reverse, hf.length]
        obtain ⟨hi', hv'⟩ := List.getElem?_eq_some_iff.mp hv
        rw [List.length_singleton] at hi'
        obtain rfl : i = f.valueCount := by omega
        rw [← hid, ← hv']
        simp
    · rw [hdefs]
      rcases hvals v hv with hv | rfl
      · exact List.mem_cons_of_mem _ (hf.mapped v hv)
      · exact List.mem_cons_self
    · rw [hdefs] at hv
      rcases List.mem_cons.mp hv with rfl | hv
      · rw [hhir, ha.blockCount, hmem]
        exact ⟨hb, .inr ⟨rfl, rfl⟩⟩
      · exact hhome v hv

/-- What an instruction call that returns does. -/
theorem Mapped.oneMore_of_step (hm : Mapped f) {op : OpCode} {args : List CallArg}
    (h : (Call.inst op args).Step P f f') :
    ∃ b, f.current = some b ∧ OneMore f f' b ∧ (f'.heap.inst f.heap.count).op = op := by
  obtain ⟨b, k, hcur, hk, -, rfl⟩ := appendInst_spec h
  have hold : ∀ r < f.heap.count, (k.inst r).op = (f.heap.inst r).op ∧
      (k.inst r).id = (f.heap.inst r).id := by
    intro r hr
    rw [hk.op, hk.id]
    simp [Nat.ne_of_lt hr]
  refine ⟨b, hcur, hm.oneMore hk.count hold b, ?_⟩
  rw [HirFunction.register_frame]
  show (((HirFunction.enrolled { f with heap := k } P f.heap.count b).heap).inst f.heap.count).op =
    op
  rw [(HirFunction.enrolled_frame { f with heap := k } P f.heap.count b).2.1, hk.op]
  simp

/-- The calls keep the numbers in order. -/
theorem Listed.step (hf : Listed f) (hm : Mapped f) {c : Call} (h : c.Step P f f') : Listed f' := by
  by_cases hc : ∃ op args, c = .inst op args
  · obtain ⟨op, args, rfl⟩ := hc
    obtain ⟨b, hcur, hmore, -⟩ := hm.oneMore_of_step h
    exact hmore.listed hf (hf.current_lt b hcur)
  · exact Listed.kept.step (fun op args he => hc ⟨op, args, he⟩) h hf

variable {begin_ : Location} {calls : List Call}

/-- The invariant of the map holds in a function under construction. -/
theorem Builds.mapped (h : Builds P begin_ calls f) : Mapped f :=
  (mapped_kept P).builds mapped_empty h

/-- So does that of the lists of instructions. -/
theorem Builds.listed (h : Builds P begin_ calls f) : Listed f := by
  have hempty : Listed .empty := by
    refine ⟨?_, ?_, rfl, ?_, ?_, ?_⟩ <;>
      simp [HirFunction.empty, SearchTree.toList, HirFunction.definitions]
  have hinv := Run.invariant (fun f => Mapped f ∧ Listed f) h
    (fun c _ s s' hstep hs => ⟨(mapped_kept P).step hstep hs.1, hs.2.step hs.1 hstep⟩)
    ⟨mapped_empty.appendBlock begin_ 0, Listed.kept.appendBlock _ begin_ 0 hempty⟩
  exact hinv.2

/-! ## How many values and blocks there are -/

/-- A call defines as many values as it says. -/
theorem Mapped.valueCount_step (hm : Mapped f) {c : Call} (h : c.Step P f f') :
    f'.valueCount = f.valueCount + if c.definesValue then 1 else 0 := by
  by_cases hc : ∃ op args, c = .inst op args
  -- Only a call for an instruction defines a value.
  · obtain ⟨op, args, rfl⟩ := hc
    obtain ⟨b, -, hmore, hop⟩ := hm.oneMore_of_step h
    rcases hmore.value with ⟨hval, hn, -⟩ | ⟨hval, hn, -⟩
    · rw [hop] at hval
      simp [Call.definesValue, hval, hn]
    · rw [hop] at hval
      simp [Call.definesValue, hval, hn]
  · have hkept : KeptApart fun g => g.valueCount = f.valueCount := by
      refine ⟨fun _ _ h => h, fun _ _ _ h => h, fun _ _ _ _ h => h, fun g start endLoc hg => ?_⟩
      rcases g.appendBlock_cases start endLoc with ⟨b, -, -, heq⟩ | ⟨-, heq⟩ <;>
        rw [heq] <;> exact hg
    have hsame := hkept.step (fun op args he => hc ⟨op, args, he⟩) h rfl
    have hnone : c.definesValue = false := by
      cases c with
      | inst op args => exact absurd ⟨op, args, rfl⟩ hc
      | _ => rfl
    rw [hsame, hnone]
    rfl

/-- A function counts the values that its calls have defined. -/
theorem Builds.valueCount (h : Builds P begin_ calls f) : f.valueCount = valuesOf calls := by
  -- By induction over the calls, from any function.
  have hrun : ∀ (calls : List Call) (g : HirFunction), Mapped g → Run (Call.Step P) calls g f →
      f.valueCount = g.valueCount + valuesOf calls := by
    intro calls
    induction calls with
    | nil =>
      intro g _ hrun
      cases hrun
      rfl
    | cons c calls ih =>
      intro g hg hrun
      cases hrun with
      | cons hstep hrest =>
        rw [ih _ ((mapped_kept P).step hstep hg) hrest, hg.valueCount_step hstep, valuesOf,
          valuesOf, List.countP_cons]
        omega
  have hcreate := hrun calls (.create begin_) (mapped_empty.appendBlock begin_ 0) h
  rw [hcreate]
  exact Nat.zero_add _

/-- Blocks that start where they did. -/
theorem HirFunction.starts_eq (hcount : f'.blockCount = f.blockCount)
    (hstart : ∀ b, (f'.block b).start = (f.block b).start) : f'.starts = f.starts := by
  simp only [HirFunction.starts, hcount, hstart]

/-- Ending a block starts none. -/
theorem HirFunction.starts_ended (f : HirFunction) (b : BlockRef) (t : Terminal) :
    (f.ended b t).starts = f.starts := starts_eq rfl fun x => by rw [f.ended_block]

/-- An edge starts no block. -/
theorem HirFunction.starts_addEdge (f : HirFunction) (src dest : BlockRef) (conditional : Bool) :
    (f.addEdge src dest conditional).starts = f.starts :=
  starts_eq rfl fun x => by rw [f.addEdge_block]

/-- After a block is asked for at a location there is one. -/
theorem HirFunction.starts_appendBlock (f : HirFunction) (start endLoc : Location) :
    (f.appendBlock start endLoc).2.starts = insert start f.starts := by
  rcases f.appendBlock_cases start endLoc with ⟨b, hb, hstart, heq⟩ | ⟨-, heq⟩
  · have hsame : (f.selected b endLoc).starts = f.starts :=
      starts_eq rfl fun x => by rw [f.selected_block]
    rw [heq, hsame, Finset.insert_eq_of_mem (f.mem_starts.mpr ⟨b, hb, hstart⟩)]
  · rw [heq]
    show (Finset.range (f.blockCount + 1)).image _ = _
    rw [Finset.range_add_one, Finset.image_insert, f.grown_block_self]
    congr 1
    refine Finset.image_congr fun x hx => ?_
    rw [f.grown_block (Finset.mem_range.mp hx)]

/-- A branch asks for the block that starts at its location. -/
theorem HirFunction.starts_link (f : HirFunction) (pre : BlockRef) (conditional : Bool)
    (loc : Location) : (f.link pre conditional loc).starts = insert loc f.starts := by
  rw [HirFunction.link, starts_addEdge, starts_appendBlock]

/-- The branches of `Switch` ask for the blocks at their locations. -/
theorem HirFunction.starts_foldl_link (pre : BlockRef) (conditional : Bool) (locs : List Location)
    (f : HirFunction) :
    (locs.foldl (HirFunction.link pre conditional) f).starts = f.starts ∪ locs.toFinset := by
  induction locs generalizing f with
  | nil => simp
  | cons loc locs ih =>
    rw [List.foldl_cons, ih, starts_link, List.toFinset_cons, Finset.insert_union,
      Finset.union_insert]

/-- A call asks for the blocks it says. -/
theorem Call.Step.starts {c : Call} (h : c.Step P f f') :
    f'.starts = f.starts ∪ c.starts.toFinset := by
  have hused : ∀ v, (f.used v).starts = f.starts := fun v => rfl
  have hexec : c.exec P f = .ok () f' := h
  cases c with
  -- `AppendInst` leaves the blocks alone. The others select blocks, which creates those that are
  -- missing.
  | inst op args =>
    obtain ⟨b, k, -, -, -, rfl⟩ := appendInst_spec hexec
    have hsame := sameCfg_register P { f with heap := k } f.heap.count b
    rw [HirFunction.starts_eq hsame.blockCount fun x => by rw [hsame.block]]
    exact (Finset.union_empty _).symm
  | if_ cond then_ else_ =>
    obtain ⟨pre, thenLoc, elseLoc, -, hthen, helse, rfl⟩ := buildIf_spec hexec
    simp only [HirFunction.starts_addEdge, HirFunction.starts_appendBlock,
      HirFunction.starts_ended, hused]
    ext l
    simp [Call.starts, hthen, helse]
    tauto
  | switch value cases =>
    obtain ⟨pre, -, -, rfl⟩ := buildSwitch_spec hexec
    rw [HirFunction.starts_foldl_link, HirFunction.starts_ended, hused]
    rfl
  | linkBlock next =>
    obtain ⟨pre, -, rfl⟩ := buildLinkBlock_spec hexec
    rw [HirFunction.starts_link, HirFunction.starts_ended]
    ext l
    simp [Call.starts]
  | appendBlock start endLoc =>
    simp only [Call.exec, bind_ok_iff, selectBlock_ok_iff, pure_ok_iff] at hexec
    obtain ⟨b, _, hb, -, rfl⟩ := hexec
    have hstarts := f.starts_appendBlock start endLoc
    rw [← hb] at hstarts
    rw [hstarts]
    ext l
    simp [Call.starts]

/-- The blocks of a function start at the locations that its calls have asked for. -/
theorem Builds.starts (h : Builds P begin_ calls f) : f.starts = startsOf begin_ calls := by
  -- By induction over the calls, from any function.
  have hrun : ∀ (calls : List Call) (g : HirFunction), Run (Call.Step P) calls g f →
      f.starts = g.starts ∪ (calls.flatMap Call.starts).toFinset := by
    intro calls
    induction calls with
    | nil =>
      intro g hrun
      cases hrun
      simp
    | cons c calls ih =>
      intro g hrun
      cases hrun with
      | cons hstep hrest =>
        rw [ih _ hrest, hstep.starts, List.flatMap_cons, List.toFinset_append, Finset.union_assoc]
  have hcreate : (HirFunction.create begin_).starts = {begin_} := by
    rw [HirFunction.create, HirFunction.starts_appendBlock]
    rfl
  rw [hrun calls _ h, hcreate, startsOf, List.toFinset_cons]
  rfl

/-- There is one block for every location. -/
theorem Builds.blockCount (h : Builds P begin_ calls f) :
    f.blockCount = (startsOf begin_ calls).card := by
  have hinj : Set.InjOn (fun b => (f.block b).start) (Finset.range f.blockCount) := by
    intro b hb c hc he
    exact h.tracks.starts b (Finset.mem_range.mp hb) c (Finset.mem_range.mp hc) he
  rw [← h.starts, HirFunction.starts, Finset.card_image_of_injOn hinj, Finset.card_range]

end Calls

/-! ## When the numbers are different -/

section Results

variable {P : Platform} {f f' : HirFunction} {begin_ : Location} {calls : List Call}

/-- The place of a value that is defined. -/
theorem Listed.exists_place (hf : Listed f) {v : InstRef} (hv : v ∈ f.definitions) :
    ∃ i < f.valueCount, f.definitions.reverse[i]? = some v := by
  obtain ⟨i, hi, hget⟩ := List.mem_iff_getElem.mp (List.mem_reverse.mpr hv)
  refine ⟨i, ?_, List.getElem?_eq_some_iff.mpr ⟨hi, hget⟩⟩
  rw [← hf.length, ← List.length_reverse]
  exact hi

/-- Up to `2^16` values have different ids. -/
theorem Listed.eq_of_id_eq (hf : Listed f) (hle : f.valueCount ≤ 2 ^ 16) {v w : InstRef}
    (hv : v ∈ f.definitions) (hw : w ∈ f.definitions)
    (heq : (f.heap.inst v).id = (f.heap.inst w).id) : v = w := by
  obtain ⟨i, hi, hiv⟩ := hf.exists_place hv
  obtain ⟨j, hj, hjw⟩ := hf.exists_place hw
  rw [hf.id i v hiv, hf.id j w hjw, Nat.mod_eq_of_lt (hi.trans_le hle),
    Nat.mod_eq_of_lt (hj.trans_le hle)] at heq
  subst heq
  exact Option.some.inj (hiv.symm.trans hjw)

/-- Up to `2^16` values are all in the map. -/
theorem Listed.mem_values (hf : Listed f) (hm : Mapped f) (hle : f.valueCount ≤ 2 ^ 16)
    {v : InstRef} (hv : v ∈ f.definitions) : v ∈ f.values.toList := by
  obtain ⟨i, hi, hiv⟩ := hf.exists_place hv
  have hid : (f.heap.inst v).id = i := by
    rw [hf.id i v hiv, Nat.mod_eq_of_lt (hi.trans_le hle)]
  obtain ⟨w, hw, hwid⟩ := hm.taken i (by omega)
  rw [hf.eq_of_id_eq hle hv (hf.mapped w hw) (hid.trans hwid.symm)]
  exact hw

/-- The value number `2^16` has the id of the first one. -/
theorem Listed.exists_same_id (hf : Listed f) (hlt : 2 ^ 16 < f.valueCount) :
    ∃ v ∈ f.definitions, ∃ w ∈ f.definitions, v ≠ w ∧
      (f.heap.inst v).id = (f.heap.inst w).id := by
  have hget : ∀ i < f.valueCount, ∃ v, f.definitions.reverse[i]? = some v := by
    intro i hi
    rw [← hf.length, ← List.length_reverse] at hi
    exact ⟨_, List.getElem?_eq_getElem hi⟩
  obtain ⟨v, hv⟩ := hget 0 (Nat.zero_lt_of_lt hlt)
  obtain ⟨w, hw⟩ := hget (2 ^ 16) hlt
  refine ⟨v, List.mem_reverse.mp (List.mem_of_getElem? hv), w,
    List.mem_reverse.mp (List.mem_of_getElem? hw), ?_, ?_⟩
  -- They are different, since no instruction is listed twice.
  · rintro rfl
    have hnodup : f.definitions.reverse.Nodup := List.nodup_reverse.mpr f.nodup_definitions
    have hpos : 0 < f.definitions.reverse.length := by
      rw [List.length_reverse, hf.length]
      exact Nat.zero_lt_of_lt hlt
    have hzero := (List.getElem?_inj hpos hnodup).mp (hv.trans hw.symm)
    exact absurd hzero (by decide)
  -- The id of a value is its number modulo `2^16`.
  · rw [hf.id 0 v hv, hf.id (2 ^ 16) w hw, Nat.mod_self]
    rfl

/-- The instructions of the blocks that define a value are the definitions. -/
theorem Listed.mem_definitions_iff (hf : Listed f) {u : InstRef} :
    u ∈ f.definitions ↔
      (f.heap.inst u).op.hasValue = true ∧ ∃ b < f.blockCount, u ∈ (f.block b).insts := by
  rw [f.mem_definitions, hf.mem u, and_comm]

/-- The numbers are different exactly as long as the counters do not wrap. -/
theorem Listed.numbered_iff_counts (hf : Listed f) (hm : Mapped f)
    (horder : ∀ b < f.blockCount, (f.block b).orderId = b % 2 ^ 16)
    (hstarts : ∀ b < f.blockCount, ∀ c < f.blockCount, (f.block b).start = (f.block c).start →
      b = c) :
    f.Numbered ↔ f.valueCount ≤ 2 ^ 16 ∧ f.blockCount ≤ 2 ^ 16 := by
  constructor
  -- Too many values or blocks, and two of them have the same number.
  · intro h
    constructor
    · by_contra hlt
      obtain ⟨v, hv, w, hw, hne, hid⟩ := hf.exists_same_id (not_le.mp hlt)
      obtain ⟨hvval, b, hb, hvb⟩ := hf.mem_definitions_iff.mp hv
      obtain ⟨hwval, c, hc, hwc⟩ := hf.mem_definitions_iff.mp hw
      exact h.ids b hb c hc v hvb w hwc hvval hwval hne hid
    · by_contra hlt
      rw [not_le] at hlt
      refine h.orderIds 0 (Nat.zero_lt_of_lt hlt) (2 ^ 16) hlt (by decide) ?_
      rw [horder 0 (Nat.zero_lt_of_lt hlt), horder _ hlt, Nat.mod_self]
      rfl
  -- Otherwise the numbers are those of the counters.
  · rintro ⟨hvalues, hblocks⟩
    refine ⟨fun b hb c hc u hu w hw huval hwval hne heq => ?_, fun b hb u hu huval => ?_,
      fun b hb c hc hne he => hne (hstarts b hb c hc he), fun b hb c hc hne he => ?_⟩
    · exact hne (hf.eq_of_id_eq hvalues (hf.mem_definitions_iff.mpr ⟨huval, b, hb, hu⟩)
        (hf.mem_definitions_iff.mpr ⟨hwval, c, hc, hw⟩) heq)
    · have hdef := hf.mem_definitions_iff.mpr ⟨huval, b, hb, hu⟩
      exact ⟨(f.getHIRValue_eq_some_iff hm.ids).mpr ⟨hf.mem_values hm hvalues hdef, rfl⟩,
        hf.home u hdef⟩
    · rw [horder b hb, horder c hc, Nat.mod_eq_of_lt (hb.trans_le hblocks),
        Nat.mod_eq_of_lt (hc.trans_le hblocks)] at he
      exact hne he

/-- A pass of `EndFunction` returns if the block's place is in the vector and there is room for its
own vectors. -/
theorem finishBlock_returns {b : BlockRef} (hplace : (f.block b).orderId < f.blocks.length)
    (hin : 8 * (f.block b).incoming.length ≤ P.funcCap * 512 % 2 ^ 32)
    (hout : 8 * (f.block b).outgoing.length ≤ P.funcCap * 512 % 2 ^ 32) :
    ∃ f', finishBlock P b f = .ok () f' := by
  simp only [finishBlock, bind_ok_iff, get_ok_iff, require_ok_iff, modify_ok_iff,
    createBlockVector, pure_ok_iff]
  exact ⟨_, _, _, ⟨rfl, rfl⟩, (), _, ⟨hplace, rfl⟩, _, _, ⟨(), _, ⟨hin, rfl⟩, rfl, rfl⟩, _, _,
    ⟨(), _, ⟨hout, rfl⟩, rfl, rfl⟩, rfl⟩

/-- `EndFunction` returns below `2^16` blocks, if there is a current block and room for the
vectors. -/
theorem endFunction_returns (hret : f.Returnable P)
    (horder : ∀ b < f.blockCount, (f.block b).orderId = b % 2 ^ 16) (hlt : f.blockCount < 2 ^ 16) :
    ∃ f', endFunction P f = .ok () f' := by
  obtain ⟨b, hcur⟩ := Option.isSome_iff_exists.mp hret.current
  -- The passes change neither order ids nor edge lists, and the vector keeps its length.
  let Inv : HirFunction → Prop := fun s => s.blocks.length = f.blockCount ∧
    ∀ x, (s.block x).orderId = (f.block x).orderId ∧
      (s.block x).incoming = (f.block x).incoming ∧ (s.block x).outgoing = (f.block x).outgoing
  have hpass : ∀ x ∈ List.range f.blockCount, ∀ s, Inv s →
      ∃ s', finishBlock P x s = .ok () s' ∧ Inv s' := by
    rintro x hx s ⟨hlen, hsame⟩
    have hx := List.mem_range.mp hx
    obtain ⟨hid, hin, hout⟩ := hsame x
    have hplace : (s.block x).orderId < s.blocks.length := by
      rw [hid, hlen, horder x hx, Nat.mod_eq_of_lt (hx.trans hlt)]
      exact hx
    obtain ⟨s', hs'⟩ := finishBlock_returns hplace (by rw [hin]; exact hret.incoming x hx)
      (by rw [hout]; exact hret.outgoing x hx)
    refine ⟨s', hs', ?_⟩
    obtain ⟨-, rfl⟩ := finishBlock_spec hs'
    refine ⟨by simpa using hlen, fun y => ?_⟩
    by_cases hy : y = x
    · subst hy
      simpa [HirFunction.finished] using hsame y
    · simpa [hy] using hsame y
  have hstart : Inv { f.ended b .popRSBHint with blocks := List.replicate f.blockCount none } :=
    ⟨List.length_replicate, fun x => by simp [f.ended_block b .popRSBHint]⟩
  obtain ⟨f', hfor, -⟩ := forM_of_invariant Inv hpass hstart
  refine ⟨f', ?_⟩
  simp only [endFunction, bind_ok_iff, endBlock_ok_iff, get_ok_iff, modify_ok_iff,
    createBlockVector, require_ok_iff, pure_ok_iff]
  refine ⟨b, _, ⟨hcur, rfl⟩, _, _, ⟨rfl, rfl⟩, _, _, ⟨(), _, ⟨hret.blocks, rfl⟩, rfl, rfl⟩, (), _,
    rfl, ?_⟩
  rw [show (f.ended b .popRSBHint).blockCount % 2 ^ 16 = f.blockCount from Nat.mod_eq_of_lt hlt]
  exact hfor

/-- What `Return` leaves is numbered and lists its blocks exactly when there are at most `2^16`
values and fewer than `2^16` blocks. -/
theorem Builds.returns_numbered_iff (h : Builds P begin_ calls f) (hret : f.Returnable P) :
    (∃ f', endFunction P f = .ok () f' ∧ f'.Numbered ∧ f'.BlocksListed) ↔
      f.valueCount ≤ 2 ^ 16 ∧ f.blockCount < 2 ^ 16 := by
  have ht := h.tracks
  -- The values and the blocks of what `Return` leaves are those from before.
  have hiff : ∀ b, ((f.ended b .popRSBHint).withVectors).Numbered ↔
      f.valueCount ≤ 2 ^ 16 ∧ f.blockCount ≤ 2 ^ 16 := by
    intro b
    have hstart : ∀ x, ((f.ended b .popRSBHint).withVectors.block x).start = (f.block x).start :=
      fun x => by rw [HirFunction.withVectors_block_eq, HirFunction.ended_block]
    refine (Listed.withVectors (Listed.kept.ended f b _ h.listed)).numbered_iff_counts
      (h.mapped.ended b _).withVectors (fun x hx => ?_) fun x hx y hy he => ?_
    · rw [HirFunction.withVectors_block_eq, HirFunction.ended_block]
      exact ht.orderId x hx
    · rw [hstart, hstart] at he
      exact ht.starts x hx y hy he
  constructor
  · rintro ⟨f', hend, hnum, -⟩
    obtain ⟨b, -, hlt, rfl⟩ := endFunction_spec ht.orderId hend
    exact ⟨((hiff b).mp hnum).1, hlt⟩
  · rintro ⟨hvalues, hlt⟩
    obtain ⟨f', hend⟩ := endFunction_returns hret ht.orderId hlt
    obtain ⟨b, -, -, rfl⟩ := endFunction_spec ht.orderId hend
    refine ⟨_, hend, (hiff b).mpr ⟨hvalues, hlt.le⟩, ?_, fun x hx => ?_⟩
    · simp [HirFunction.withVectors]
    · rw [HirFunction.withVectors_block_eq, HirFunction.ended_block]
      show ((List.range f.blockCount).map some)[(f.block x).orderId]? = some (some x)
      rw [ht.orderId x hx, Nat.mod_eq_of_lt (Nat.lt_trans hx hlt)]
      simp [show x < f.blockCount from hx]

/-- Values and blocks of a function under construction have different numbers exactly when its calls
define at most `2^16` values and ask for blocks at no more than `2^16` locations. So have those of a
function that `Return` has finished, and then its vector lists the blocks, exactly when there are at
most `2^16` values and fewer than `2^16` blocks. -/
theorem numbered_iff (h : Builds P begin_ calls f) :
    (f.Numbered ↔ valuesOf calls ≤ 2 ^ 16 ∧ (startsOf begin_ calls).card ≤ 2 ^ 16) ∧
      (f.Returnable P →
        ((∃ f', endFunction P f = .ok () f' ∧ f'.Numbered ∧ f'.BlocksListed) ↔
          valuesOf calls ≤ 2 ^ 16 ∧ (startsOf begin_ calls).card < 2 ^ 16)) := by
  rw [← h.valueCount, ← h.blockCount]
  exact ⟨h.listed.numbered_iff_counts h.mapped h.tracks.orderId h.tracks.starts,
    h.returns_numbered_iff⟩

/-- Two values and three blocks. -/
theorem numbered_three_blocks :
    ∃ f f', Builds .plain 0 [.inst .loadImm [.imm], .if_ 0 (.linkBlock 1) (.linkBlock 2),
        .inst .loadImm [.imm]] f ∧
      f.Numbered ∧ endFunction .plain f = .ok () f' ∧ f'.Numbered ∧ f'.BlocksListed := by
  obtain ⟨f, hrun, hret⟩ := exists_of_any
    (o := runCalls .plain [.inst .loadImm [.imm], .if_ 0 (.linkBlock 1) (.linkBlock 2),
      .inst .loadImm [.imm]] (.create 0))
    (Q := fun f => f.Returnable .plain) (by decide +kernel)
  have h : Builds .plain 0 _ f := TypedBuilds.builds (run_of_runCalls hrun)
  obtain ⟨hnum, hreturn⟩ := numbered_iff h
  obtain ⟨f', hend, hnum', hlisted⟩ := (hreturn hret).mpr (by decide)
  exact ⟨f, f', h, hnum.mpr (by decide), hend, hnum', hlisted⟩

/-- An immediate is written into the first slot of a new instruction. -/
theorem setArgs_imm (P : Platform) (h : Heap) (op : OpCode) (u : InstRef) :
    ∃ h', setArgs P u 0 [.imm]
      ⟨Function.update h.inst u { op := op }, h.count + 1⟩ = .ok () h' := by
  simp only [setArgs, setArg, CallArg.slots, putArgs, putArg, zero_lt_four, ↓reduceDIte, destroyArg,
    bind_assoc, bind_ok_iff, get_ok_iff, modify_ok_iff, pure_ok_iff, exists_eq_left, exists_const,
    ↓existsAndEq, and_true, true_and, Function.update_self, Arg.ref]
  exact ⟨_, (), rfl⟩

/-- A call that loads an immediate returns where there is a current block. -/
theorem exists_loadImm_step {b : BlockRef} (hcur : f.current = some b) :
    ∃ f', (Call.inst .loadImm [.imm]).Step .plain f f' ∧ f'.current = some b := by
  obtain ⟨k, hset⟩ := setArgs_imm .plain f.heap .loadImm f.heap.count
  have hk := setArgs_spec hset
  have hop : (k.inst f.heap.count).op = .loadImm := by simpa using hk.op f.heap.count
  -- `Validate` accepts the instruction: it has the one argument that is declared.
  have hvalid : validate .plain (k.inst f.heap.count) = true := by
    have hargs := hk.self
    simp only [Function.update_self] at hargs
    generalize k.inst f.heap.count = i at hop hargs
    obtain ⟨op, args, id, numUse, next⟩ := i
    subst hop hargs
    have haccepted : validate .plain
        { op := .loadImm, args := placedArgs (fun _ => .void) 0 [.imm] } = true := by
      decide +kernel
    exact haccepted
  refine ⟨HirFunction.register { f with heap := k } .plain f.heap.count b, ?_, ?_⟩
  · simp only [Call.Step, Call.exec, appendInst, bind_ok_iff, get_ok_iff, require_ok_iff,
      onHeap_ok_iff, newInst_ok_iff, modify_ok_iff, appendCreated, ofOption_ok_iff,
      validated_ok_iff]
    exact ⟨f, f, ⟨rfl, rfl⟩, (), f, ⟨by rw [hcur]; rfl, rfl⟩, f.heap.count, _,
      ⟨_, ⟨rfl, rfl⟩, rfl⟩, (), _, ⟨k, hset, rfl⟩, _, _, ⟨rfl, rfl⟩, b, _, ⟨hcur, rfl⟩, (), _,
      ⟨by simp [hop], hvalid, rfl⟩, rfl⟩
  · exact (sameCfg_register .plain { f with heap := k } f.heap.count b).current.trans hcur

/-- Any number of values in one block. -/
theorem exists_builds_loadImm (n : ℕ) :
    ∃ f, Builds .plain 0 (List.replicate n (.inst .loadImm [.imm])) f := by
  have hrun : ∀ n f b, f.current = some b →
      ∃ f', Run (Call.Step .plain) (List.replicate n (.inst .loadImm [.imm])) f f' := by
    intro n
    induction n with
    | zero => exact fun f _ _ => ⟨f, .nil f⟩
    | succ n ih =>
      intro f b hcur
      obtain ⟨f1, hstep, hcur1⟩ := exists_loadImm_step hcur
      obtain ⟨f', hrest⟩ := ih f1 b hcur1
      exact ⟨f', .cons hstep hrest⟩
  exact hrun n (.create 0) 0 rfl

/-- With `2^16 + 1` values in one block, the last one has the id of the first. -/
theorem ids_wrap :
    ¬ ∀ (P : Platform) (begin_ : Location) (calls : List Call) (f : HirFunction),
      Builds P begin_ calls f → f.Numbered := by
  intro h
  obtain ⟨f, hf⟩ := exists_builds_loadImm (2 ^ 16 + 1)
  have hnum := (hf.listed.numbered_iff_counts hf.mapped hf.tracks.orderId hf.tracks.starts).mp
    (h _ _ _ f hf)
  have hcount := hf.valueCount
  rw [valuesOf, List.countP_replicate, if_pos (by decide)] at hcount
  omega

end Results

end SwiftRuntime.Ir
