import SwiftRuntime.Ir.CommonDominator
import SwiftRuntime.Ir.Edges

/-!
# The analysis of the control flow graph

`CFGAnalysisPass` of `ir/opts/cfg_analysis_pass.cpp`, on one function. It flags the edges that are
the only ones to their block, records the edges that lead back to a block on the stack of a
depth-first search, and then sweeps over the blocks once more: a block is released when as many of
its incoming edges have been seen as are not recorded, and on the way every edge updates the
dominator of the block it goes to. The blocks are put into `blocks_rpo` in the order of their
release.

The loops take a bound on their passes, `fuel`. The tables that are indexed by order ids are
functions: the ids of a finished function are below the size of the tables. Their `u16` counters
wrap.

Nothing keeps the pass from putting a block into `blocks_rpo` that is in `block_list` through the
same list node, except an assertion of the list library.
-/

namespace SwiftRuntime.Ir

/-- The tables and the stack of `FindBackEdges`, the top of the stack first. -/
structure Search where
  /-- `visited`. -/
  visited : ℕ → Bool
  /-- `visiting`. -/
  visiting : ℕ → Bool
  /-- `successors_visited`. -/
  successorsVisited : ℕ → ℕ
  /-- `worklist`. -/
  worklist : List BlockRef

/-- The tables and the stack of `ComputeDominanceInformation`, the top of the stack first. -/
structure Sweep where
  /-- `visits`. -/
  visits : ℕ → ℕ
  /-- `successors_visited`. -/
  successorsVisited : ℕ → ℕ
  /-- `worklist`. -/
  worklist : List BlockRef

section Code

variable (P : Platform) (fuel : ℕ)

/-- `FindDominateEdges`. -/
def findDominateEdges : Build Unit := do
  let f ← get
  forM f.blocks fun block => do
    let b ← ofOption block .undefined
    modify fun f =>
      match (f.block b).incoming with
      -- Only the edge to a block that has no other incoming edge is marked.
      | [e] => { f with edge := Function.update f.edge e { f.edge e with dominates := true } }
      | _ => f

/-- The successor of a block at an index. -/
def successorAt (f : HirFunction) (b : BlockRef) (i : ℕ) : Build BlockRef :=
  ofOption ((f.block b).successors[i]?.join) .undefined

/-- `AddBackEdge`. -/
def HirFunction.addBackEdge (f : HirFunction) (b target : BlockRef) : HirFunction :=
  f.setBlock b fun x => { x with backEdges := x.backEdges ++ [target] }

/-- The part of the loop of `FindBackEdges` that looks at a successor. -/
def visitSuccessor (s : Search) (current successor : BlockRef) : Build (Search ⊕ Unit) := do
  let f ← get
  let successorId := (f.block successor).orderId
  if s.visiting successorId then
    -- The `ASSERT` looks the successor up on the stack.
    require (successor ∈ s.worklist) .raised
    modify fun f => f.addBackEdge successor current
    return .inl s
  else if !s.visited successorId then
    return .inl { s with
      visited := Function.update s.visited successorId true
      visiting := Function.update s.visiting successorId true
      worklist := successor :: s.worklist }
  else return .inl s

/-- A pass of the loop of `FindBackEdges`. -/
def findBackEdgesBody (s : Search) : Build (Search ⊕ Unit) := do
  let f ← get
  match s.worklist with
  | [] => return .inr ()
  | current :: rest =>
    let currentId := (f.block current).orderId
    if s.successorsVisited currentId = (f.block current).successors.length then
      return .inl { s with
        visiting := Function.update s.visiting currentId false
        worklist := rest }
    else
      let successor ← successorAt f current (s.successorsVisited currentId)
      visitSuccessor { s with
        successorsVisited := Function.update s.successorsVisited currentId
          ((s.successorsVisited currentId + 1) % 2 ^ 16) } current successor

/-- `FindBackEdges`. -/
def findBackEdges : Build Unit := do
  let f ← get
  let entry ← ofOption (f.blocks[0]?.join) .undefined
  let entryId := (f.block entry).orderId
  loopM findBackEdgesBody .endless fuel {
    visited := Function.update (fun _ => false) entryId true
    visiting := Function.update (fun _ => false) entryId true
    successorsVisited := fun _ => 0
    worklist := [entry] }

/-- `UpdateDominatorOfSuccessor`. Its result is not used. -/
def updateDominatorOfSuccessor (block successor : BlockRef) : Build Unit := do
  let f ← get
  require (some successor ∈ (f.block block).successors) .raised
  let newDominator ← ofExcept <|
    match (f.block successor).dominator with
    | none => .ok (some block)
    | some old => CommonDominator.forPair (fun b => (f.block b).dominator) fuel (some old)
        (some block)
  if (f.block successor).dominator ≠ newDominator then
    modify fun f => f.setBlock successor fun x => { x with dominator := newDominator }

/-- `push_back` to `blocks_rpo`. -/
def pushRpo (b : BlockRef) : Build Unit := do
  let f ← get
  require (P.listAsserts = true → f.links.next (.block b) = .block b) .aborted
  modify fun f => { f with links := f.links.pushBack .blocksRpo (.block b) }

/-- The part of the loop of `ComputeDominanceInformation` that counts a visit. The code compares the
count with the difference of the two sizes. -/
def countVisit (s : Sweep) (successor : BlockRef) : Build (Sweep ⊕ Unit) := do
  let f ← get
  let successorId := (f.block successor).orderId
  let s := { s with
    visits := Function.update s.visits successorId ((s.visits successorId + 1) % 2 ^ 16) }
  if s.visits successorId + (f.block successor).backEdges.length =
      (f.block successor).predecessors.length then
    pushRpo P successor
    return .inl { s with worklist := successor :: s.worklist }
  else return .inl s

/-- A pass of the loop of `ComputeDominanceInformation`. -/
def computeDominanceBody (s : Sweep) : Build (Sweep ⊕ Unit) := do
  let f ← get
  match s.worklist with
  | [] => return .inr ()
  | current :: rest =>
    let currentId := (f.block current).orderId
    -- The bound is the number of outgoing edges here, of successors in `FindBackEdges`.
    if s.successorsVisited currentId = (f.block current).outgoing.length then
      return .inl { s with worklist := rest }
    else
      let successor ← successorAt f current (s.successorsVisited currentId)
      updateDominatorOfSuccessor fuel current successor
      countVisit P { s with
        successorsVisited := Function.update s.successorsVisited currentId
          ((s.successorsVisited currentId + 1) % 2 ^ 16) } successor

/-- `ComputeDominanceInformation`. -/
def computeDominanceInformation : Build Unit := do
  let f ← get
  let entry ← ofOption (f.blocks[0]?.join) .undefined
  loopM (computeDominanceBody P fuel) .endless fuel {
    visits := fun _ => 0
    successorsVisited := fun _ => 0
    worklist := [entry] }

/-- `CFGAnalysisPass::Run`. -/
def cfgAnalysisPass : Build Unit := do
  let f ← get
  require (f.blocks ≠ []) .raised
  findDominateEdges
  findBackEdges fuel
  computeDominanceInformation P fuel

end Code

/-! ## A function before the pass -/

/-- What a function under construction has not been through the pass: its blocks have no back edges
and no dominator, `block_list` has the blocks in the order of their creation, and `blocks_rpo` is
empty. -/
structure Unanalysed (f : HirFunction) : Prop where
  /-- The blocks. -/
  block : ∀ b, (f.block b).backEdges = [] ∧ (f.block b).dominator = none
  /-- `block_list`. -/
  blockList : f.links.IsList .blockList ((List.range f.blockCount).map .block)
  /-- `blocks_rpo`. -/
  blocksRpo : f.links.next .blocksRpo = .blocksRpo ∧ f.links.prev .blocksRpo = .blocksRpo
  /-- The node of a block to come is in no list. -/
  fresh : ∀ b, f.blockCount ≤ b → f.links.prev (.block b) = .block b

namespace Unanalysed

variable {P : Platform} {f f' : HirFunction}

/-- What leaves the lists and the results of the analysis alone keeps the function unanalysed. -/
theorem of_same (hf : Unanalysed f) (hlinks : f'.links = f.links)
    (hcount : f'.blockCount = f.blockCount)
    (hblock : ∀ b, (f'.block b).backEdges = (f.block b).backEdges ∧
      (f'.block b).dominator = (f.block b).dominator) : Unanalysed f' :=
  ⟨fun b => ⟨(hblock b).1.trans (hf.block b).1, (hblock b).2.trans (hf.block b).2⟩,
    hlinks ▸ hcount ▸ hf.blockList, hlinks ▸ hf.blocksRpo, hlinks ▸ hcount ▸ hf.fresh⟩

/-- Counting a use. -/
theorem used (hf : Unanalysed f) (v : InstRef) : Unanalysed (f.used v) :=
  hf.of_same rfl rfl fun _ => ⟨rfl, rfl⟩

/-- Ending a block. -/
theorem ended (hf : Unanalysed f) (b : BlockRef) (t : Terminal) : Unanalysed (f.ended b t) :=
  hf.of_same rfl rfl fun x => by rw [f.ended_block]; exact ⟨rfl, rfl⟩

/-- A new edge. -/
theorem addEdge (hf : Unanalysed f) (src dest : BlockRef) (conditional : Bool) :
    Unanalysed (f.addEdge src dest conditional) :=
  hf.of_same rfl rfl fun x => by rw [f.addEdge_block]; exact ⟨rfl, rfl⟩

/-- The vectors that `EndFunction` creates. -/
theorem withVectors (hf : Unanalysed f) : Unanalysed f.withVectors :=
  hf.of_same rfl rfl fun x => by rw [f.withVectors_block_eq]; exact ⟨rfl, rfl⟩

/-- A new block comes to the end of `block_list`. -/
theorem appendBlock (hf : Unanalysed f) (start endLoc : Location) :
    Unanalysed (f.appendBlock start endLoc).2 := by
  rcases f.appendBlock_cases start endLoc with ⟨b, -, -, heq⟩ | ⟨-, heq⟩
  · rw [heq]
    exact hf.of_same rfl rfl fun x => by rw [f.selected_block]; exact ⟨rfl, rfl⟩
  · rw [heq]
    have hnew : ∀ c, f.blockCount ≤ c →
        ListNode.block c ∉ .blockList :: (List.range f.blockCount).map .block := by
      intro c hc
      simpa using hc
    have hnode := hf.fresh f.blockCount le_rfl
    have hother : ∀ x, x ≠ .block f.blockCount →
        x ∉ ListNode.blockList :: (List.range f.blockCount).map .block →
        (f.grown start endLoc).links.next x = f.links.next x ∧
          (f.grown start endLoc).links.prev x = f.links.prev x :=
      fun x => hf.blockList.pushBack_other hnode (hnew _ le_rfl)
    refine ⟨fun x => ?_, ?_, ?_, fun c hc => ?_⟩
    -- The results of the analysis, which a new block does not have.
    · by_cases hx : x = f.blockCount
      · rw [hx, f.grown_block_self]
        exact ⟨rfl, rfl⟩
      · rw [show (f.grown start endLoc).block x = f.block x from Function.update_of_ne hx _ _]
        exact hf.block x
    -- The block comes to the end of `block_list`.
    · show (f.links.pushBack .blockList (.block f.blockCount)).IsList .blockList
        ((List.range (f.blockCount + 1)).map .block)
      rw [List.range_succ, List.map_append]
      refine hf.blockList.pushBack ?_ hnode (hnew _ le_rfl)
      refine List.nodup_cons.mpr ⟨by simp, List.nodup_range.map ?_⟩
      exact fun a b hab => ListNode.block.inj hab
    -- `blocks_rpo` is a different list.
    · obtain ⟨hnext, hprev⟩ := hother .blocksRpo (by simp) (by simp)
      rw [hnext, hprev]
      exact hf.blocksRpo
    · have hlt : f.blockCount < c := hc
      rw [(hother (.block c) (by simpa using Nat.ne_of_gt hlt) (hnew c hlt.le)).2]
      exact hf.fresh c hlt.le

/-- An instruction is no matter of the pass. -/
theorem register (hf : Unanalysed f) (k : Heap) (b : BlockRef) :
    Unanalysed (HirFunction.register { f with heap := k } P f.heap.count b) := by
  have hsame := sameCfg_register P { f with heap := k } f.heap.count b
  exact hf.of_same hsame.links hsame.blockCount fun x => by
    rw [hsame.block x]
    exact ⟨rfl, rfl⟩

end Unanalysed

/-- The calls of the assembler do not analyse the function. -/
theorem unanalysed_kept (P : Platform) : Kept P Unanalysed where
  used _ v hf := hf.used v
  ended _ b t hf := hf.ended b t
  addEdge _ src dest conditional hf := hf.addEdge src dest conditional
  appendBlock _ start endLoc hf := hf.appendBlock start endLoc
  register _ k b _ _ hf := hf.register k b

/-- The function without blocks. -/
theorem unanalysed_empty : Unanalysed .empty :=
  ⟨fun _ => ⟨rfl, rfl⟩, List.isChain_pair.mpr ⟨rfl, rfl⟩, ⟨rfl, rfl⟩, fun _ _ => rfl⟩

section Finished

variable {P : Platform} {begin_ : Location} {calls : List Call} {f : HirFunction}

/-- A finished function comes to the analysis as such a one. -/
theorem Finishes.unanalysed (h : Finishes P begin_ calls f) : Unanalysed f :=
  (unanalysed_kept P).finishes unanalysed_empty (fun _ hf => hf.withVectors) h

/-- In a finished function, an iteration over `block_list` meets the blocks in the order of their
creation, and one over `blocks_rpo` meets nothing. -/
theorem Finishes.walk_lists (h : Finishes P begin_ calls f) :
    f.links.walk .blockList (f.blockCount + 1) (f.links.next .blockList) =
        some ((List.range f.blockCount).map .block) ∧
      f.links.walk .blocksRpo 1 (f.links.next .blocksRpo) = some [] := by
  refine ⟨?_, ?_⟩
  · have hwalk := h.unanalysed.blockList.walk (by simp)
    rwa [List.length_map, List.length_range] at hwalk
  · rw [h.unanalysed.blocksRpo.1]
    rfl

end Finished

/-! ## What the pass leaves alone -/

/-- The pass changes blocks only in the back edges and the dominator, edges only in a flag, and the
links. -/
structure Analysed (f f' : HirFunction) : Prop where
  /-- Outside of the blocks, the edges and the links nothing changes. -/
  rest : f' = { f with block := f'.block, edge := f'.edge, links := f'.links }
  /-- The blocks. -/
  block : ∀ b, f'.block b = { f.block b with
    backEdges := (f'.block b).backEdges
    dominator := (f'.block b).dominator }
  /-- The edges. -/
  edge : ∀ e, f'.edge e = { f.edge e with dominates := (f'.edge e).dominates }

section Frame

variable {P : Platform} {fuel : ℕ} {f f' f'' : HirFunction}

/-- An analysis that does nothing. -/
theorem Analysed.refl (f : HirFunction) : Analysed f f := ⟨rfl, fun _ => rfl, fun _ => rfl⟩

/-- One part of the analysis after another. -/
theorem Analysed.trans (h : Analysed f f') (h' : Analysed f' f'') : Analysed f f'' := by
  refine ⟨?_, fun b => ?_, fun e => ?_⟩
  · rw [h'.rest, h.rest]
  · rw [h'.block b, h.block b]
  · rw [h'.edge e, h.edge e]

/-- A block is changed in its back edges and its dominator. -/
theorem analysed_setBlock (f : HirFunction) (b : BlockRef) {g : HirBlock → HirBlock}
    (hg : ∀ x, g x = { x with backEdges := (g x).backEdges, dominator := (g x).dominator }) :
    Analysed f (f.setBlock b g) := by
  refine ⟨rfl, fun x => ?_, fun _ => rfl⟩
  by_cases hx : x = b
  · subst hx
    show Function.update f.block x (g (f.block x)) x = _
    simp only [HirFunction.setBlock, Function.update_self]
    exact hg _
  · simp [HirFunction.setBlock, hx]

/-- `FindDominateEdges` marks edges, and leaves the lists alone. -/
theorem findDominateEdges_spec (h : findDominateEdges f = .ok () f') :
    Analysed f f' ∧ f'.links = f.links := by
  simp only [findDominateEdges, bind_ok_iff, get_ok_iff] at h
  obtain ⟨_, f, ⟨rfl, rfl⟩, hfor⟩ := h
  -- Each pass of the loop changes one edge at most.
  refine forM_induction (fun _ s => Analysed f s ∧ s.links = f.links) ?_ ⟨.refl f, rfl⟩ hfor
  intro _ block _ s s' _ hs hstep
  simp only [bind_ok_iff, ofOption_ok_iff, modify_ok_iff] at hstep
  obtain ⟨b, _, ⟨_, rfl⟩, rfl⟩ := hstep
  split
  · next e _ =>
    refine ⟨hs.1.trans ⟨rfl, fun _ => rfl, fun x => ?_⟩, hs.2⟩
    by_cases hx : x = e
    · subst hx
      simp
    · simp [hx]
  · exact hs

/-- What `FindBackEdges` does with a successor. -/
theorem visitSuccessor_cases {s : Search} {r : Search ⊕ Unit} {b c : BlockRef}
    (h : visitSuccessor s b c f = .ok r f') :
    ∃ s', r = .inl s' ∧ s'.successorsVisited = s.successorsVisited ∧
      (∀ x ∈ s.worklist, x ∈ s'.worklist) ∧ (f' = f ∨ f' = f.addBackEdge c b) := by
  simp only [visitSuccessor, bind_ok_iff, get_ok_iff] at h
  obtain ⟨_, _, ⟨rfl, rfl⟩, h⟩ := h
  split_ifs at h with hvisiting hvisited
  · simp only [bind_ok_iff, require_ok_iff, modify_ok_iff, pure_ok_iff] at h
    obtain ⟨⟨⟩, _, ⟨-, rfl⟩, ⟨⟩, _, rfl, rfl, rfl⟩ := h
    exact ⟨_, rfl, rfl, fun _ hx => hx, .inr rfl⟩
  · obtain ⟨rfl, rfl⟩ := pure_ok_iff.mp h
    exact ⟨_, rfl, rfl, fun _ hx => List.mem_cons_of_mem _ hx, .inl rfl⟩
  · obtain ⟨rfl, rfl⟩ := pure_ok_iff.mp h
    exact ⟨_, rfl, rfl, fun _ hx => hx, .inl rfl⟩

/-- The state of the search after the index of the next successor has been read. -/
def Search.scan (s : Search) (id : ℕ) : Search :=
  { s with
    successorsVisited := Function.update s.successorsVisited id
      ((s.successorsVisited id + 1) % 2 ^ 16) }

/-- The loop of `FindBackEdges` ends with the worklist. -/
theorem findBackEdgesBody_nil {s : Search} (hw : s.worklist = []) :
    findBackEdgesBody s f = .ok (.inr ()) f := by
  simp only [findBackEdgesBody, bind_ok_iff, get_ok_iff]
  refine ⟨f, f, ⟨rfl, rfl⟩, ?_⟩
  rw [hw]
  rfl

/-- A pass of the loop of `FindBackEdges` returns after it has left a block or has looked at a
successor. -/
theorem findBackEdgesBody_cons_iff {s : Search} {r : Search ⊕ Unit} {current : BlockRef}
    {rest : List BlockRef} (hw : s.worklist = current :: rest) :
    findBackEdgesBody s f = .ok r f' ↔
      (s.successorsVisited (f.block current).orderId = (f.block current).successors.length ∧
        r = .inl { s with
          visiting := Function.update s.visiting (f.block current).orderId false
          worklist := rest } ∧ f' = f) ∨
      (s.successorsVisited (f.block current).orderId ≠ (f.block current).successors.length ∧
        ∃ successor,
          (f.block current).successors[s.successorsVisited (f.block current).orderId]?.join =
            some successor ∧
          visitSuccessor (s.scan (f.block current).orderId) current successor f = .ok r f') := by
  obtain ⟨visited, visiting, successorsVisited, worklist⟩ := s
  cases hw
  simp only [findBackEdgesBody, bind_ok_iff, get_ok_iff]
  constructor
  -- A pass that has returned has read the successor.
  · rintro ⟨_, _, ⟨rfl, rfl⟩, h⟩
    split_ifs at h with hdone
    · obtain ⟨rfl, rfl⟩ := pure_ok_iff.mp h
      exact .inl ⟨hdone, rfl, rfl⟩
    · simp only [successorAt, bind_ok_iff, ofOption_ok_iff] at h
      obtain ⟨successor, _, ⟨hsucc, rfl⟩, h⟩ := h
      exact .inr ⟨hdone, successor, hsucc, h⟩
  · rintro (⟨hdone, rfl, rfl⟩ | ⟨hmore, successor, hsucc, h⟩)
    · refine ⟨_, _, ⟨rfl, rfl⟩, ?_⟩
      rw [if_pos hdone]
      rfl
    · refine ⟨f, f, ⟨rfl, rfl⟩, ?_⟩
      rw [if_neg hmore, bind_ok_iff]
      exact ⟨successor, f, ofOption_ok_iff.mpr ⟨hsucc, rfl⟩, h⟩

/-- A pass of the loop of `FindBackEdges` changes back edges. -/
theorem findBackEdgesBody_spec {s : Search} {r : Search ⊕ Unit}
    (h : findBackEdgesBody s f = .ok r f') : Analysed f f' ∧ f'.links = f.links := by
  cases hw : s.worklist with
  | nil =>
    rw [findBackEdgesBody_nil hw] at h
    cases h
    exact ⟨.refl f, rfl⟩
  | cons current rest =>
    rcases (findBackEdgesBody_cons_iff hw).mp h with ⟨-, -, rfl⟩ | ⟨-, successor, -, hvisit⟩
    · exact ⟨.refl _, rfl⟩
    · obtain ⟨-, -, -, -, rfl | rfl⟩ := visitSuccessor_cases hvisit
      · exact ⟨.refl _, rfl⟩
      · exact ⟨analysed_setBlock _ _ fun _ => rfl, rfl⟩

/-- `FindBackEdges` changes back edges. -/
theorem findBackEdges_spec (h : findBackEdges fuel f = .ok () f') :
    Analysed f f' ∧ f'.links = f.links := by
  simp only [findBackEdges, bind_ok_iff, get_ok_iff, ofOption_ok_iff] at h
  obtain ⟨_, _, ⟨rfl, rfl⟩, _, f, ⟨-, rfl⟩, hloop⟩ := h
  refine loopM_invariant (fun s => Analysed f s ∧ s.links = f.links)
    (fun _ _ _ _ hs hbody => ?_) ⟨.refl f, rfl⟩ hloop
  obtain ⟨ha, hlinks⟩ := findBackEdgesBody_spec hbody
  exact ⟨hs.1.trans ha, hlinks.trans hs.2⟩

/-- Setting a dominator is part of the analysis. -/
theorem updateDominatorOfSuccessor_analysed {b c : BlockRef}
    (h : updateDominatorOfSuccessor fuel b c f = .ok () f') : Analysed f f' := by
  simp only [updateDominatorOfSuccessor, bind_ok_iff, get_ok_iff, require_ok_iff,
    ofExcept_ok_iff] at h
  obtain ⟨_, _, ⟨rfl, rfl⟩, ⟨⟩, _, ⟨-, rfl⟩, d, _, ⟨-, rfl⟩, h⟩ := h
  split_ifs at h
  · rw [modify_ok_iff.mp h]
    exact analysed_setBlock _ _ fun _ => rfl
  · obtain ⟨-, rfl⟩ := pure_ok_iff.mp h
    exact .refl _

/-- So is putting a block into `blocks_rpo`. -/
theorem pushRpo_analysed {b : BlockRef} (h : pushRpo P b f = .ok () f') : Analysed f f' := by
  simp only [pushRpo, bind_ok_iff, get_ok_iff, require_ok_iff, modify_ok_iff] at h
  obtain ⟨_, _, ⟨rfl, rfl⟩, ⟨⟩, _, ⟨-, rfl⟩, rfl⟩ := h
  exact ⟨rfl, fun _ => rfl, fun _ => rfl⟩

/-- So is counting a visit. -/
theorem countVisit_analysed {s : Sweep} {r : Sweep ⊕ Unit} {b : BlockRef}
    (h : countVisit P s b f = .ok r f') : Analysed f f' := by
  simp only [countVisit, bind_ok_iff, get_ok_iff] at h
  obtain ⟨_, _, ⟨rfl, rfl⟩, h⟩ := h
  split_ifs at h with hall
  · simp only [bind_ok_iff, pure_ok_iff] at h
    obtain ⟨⟨⟩, _, hpush, -, rfl⟩ := h
    exact pushRpo_analysed hpush
  · obtain ⟨-, rfl⟩ := pure_ok_iff.mp h
    exact .refl _

/-- The state of the sweep after the index of the next successor has been read. -/
def Sweep.scan (s : Sweep) (id : ℕ) : Sweep :=
  { s with
    successorsVisited := Function.update s.successorsVisited id
      ((s.successorsVisited id + 1) % 2 ^ 16) }

/-- The loop of `ComputeDominance` ends with the worklist. -/
theorem computeDominanceBody_nil {s : Sweep} (hw : s.worklist = []) :
    computeDominanceBody P fuel s f = .ok (.inr ()) f := by
  simp only [computeDominanceBody, bind_ok_iff, get_ok_iff]
  refine ⟨f, f, ⟨rfl, rfl⟩, ?_⟩
  rw [hw]
  rfl

/-- A pass of the loop of `ComputeDominanceInformation` returns after it has left a block, or after
an edge has updated the dominator of its target and has been counted. -/
theorem computeDominanceBody_cons_iff {s : Sweep} {r : Sweep ⊕ Unit} {current : BlockRef}
    {rest : List BlockRef} (hw : s.worklist = current :: rest) :
    computeDominanceBody P fuel s f = .ok r f' ↔
      (s.successorsVisited (f.block current).orderId = (f.block current).outgoing.length ∧
        r = .inl { s with worklist := rest } ∧ f' = f) ∨
      (s.successorsVisited (f.block current).orderId ≠ (f.block current).outgoing.length ∧
        ∃ successor f1,
          (f.block current).successors[s.successorsVisited (f.block current).orderId]?.join =
            some successor ∧
          updateDominatorOfSuccessor fuel current successor f = .ok () f1 ∧
          countVisit P (s.scan (f.block current).orderId) successor f1 = .ok r f') := by
  obtain ⟨visits, successorsVisited, worklist⟩ := s
  cases hw
  simp only [computeDominanceBody, bind_ok_iff, get_ok_iff]
  constructor
  -- A pass that has returned has read the successor and updated its dominator.
  · rintro ⟨_, _, ⟨rfl, rfl⟩, h⟩
    split_ifs at h with hdone
    · obtain ⟨rfl, rfl⟩ := pure_ok_iff.mp h
      exact .inl ⟨hdone, rfl, rfl⟩
    · simp only [successorAt, bind_ok_iff, ofOption_ok_iff] at h
      obtain ⟨successor, _, ⟨hsucc, rfl⟩, ⟨⟩, f1, hupdate, hcount⟩ := h
      exact .inr ⟨hdone, successor, f1, hsucc, hupdate, hcount⟩
  · rintro (⟨hdone, rfl, rfl⟩ | ⟨hmore, successor, f1, hsucc, hupdate, hcount⟩)
    · refine ⟨_, _, ⟨rfl, rfl⟩, ?_⟩
      rw [if_pos hdone]
      rfl
    · refine ⟨f, f, ⟨rfl, rfl⟩, ?_⟩
      rw [if_neg hmore, bind_ok_iff]
      refine ⟨successor, f, ofOption_ok_iff.mpr ⟨hsucc, rfl⟩, ?_⟩
      exact bind_ok_iff.mpr ⟨(), f1, hupdate, hcount⟩

/-- A pass of the loop of `ComputeDominance` is part of the analysis. -/
theorem computeDominanceBody_analysed {s : Sweep} {r : Sweep ⊕ Unit}
    (h : computeDominanceBody P fuel s f = .ok r f') : Analysed f f' := by
  cases hw : s.worklist with
  | nil =>
    rw [computeDominanceBody_nil hw] at h
    cases h
    exact .refl f
  | cons current rest =>
    rcases (computeDominanceBody_cons_iff hw).mp h with
      ⟨-, -, rfl⟩ | ⟨-, successor, f1, -, hupdate, hcount⟩
    · exact .refl _
    · exact (updateDominatorOfSuccessor_analysed hupdate).trans (countVisit_analysed hcount)

/-- The pass returns when its parts do. -/
theorem cfgAnalysisPass_ok_iff :
    cfgAnalysisPass P fuel f = .ok () f' ↔ f.blocks ≠ [] ∧ ∃ f1 f2,
      findDominateEdges f = .ok () f1 ∧ findBackEdges fuel f1 = .ok () f2 ∧
        computeDominanceInformation P fuel f2 = .ok () f' := by
  simp only [cfgAnalysisPass, bind_ok_iff, get_ok_iff, require_ok_iff]
  constructor
  · rintro ⟨_, _, ⟨rfl, rfl⟩, ⟨⟩, _, ⟨hne, rfl⟩, ⟨⟩, f1, hedges, ⟨⟩, f2, hback, hdom⟩
    exact ⟨hne, f1, f2, hedges, hback, hdom⟩
  · rintro ⟨hne, f1, f2, hedges, hback, hdom⟩
    exact ⟨f, f, ⟨rfl, rfl⟩, (), f, ⟨hne, rfl⟩, (), f1, hedges, (), f2, hback, hdom⟩

/-- What the pass leaves alone. -/
theorem cfgAnalysisPass_analysed (h : cfgAnalysisPass P fuel f = .ok () f') : Analysed f f' := by
  obtain ⟨-, f1, f2, hedges, hback, hdom⟩ := cfgAnalysisPass_ok_iff.mp h
  have h2 := (findDominateEdges_spec hedges).1.trans (findBackEdges_spec hback).1
  simp only [computeDominanceInformation, bind_ok_iff, get_ok_iff, ofOption_ok_iff] at hdom
  obtain ⟨_, _, ⟨rfl, rfl⟩, _, _, ⟨-, rfl⟩, hloop⟩ := hdom
  exact loopM_invariant (fun s => Analysed f s)
    (fun _ _ _ _ hs hbody => hs.trans (computeDominanceBody_analysed hbody)) h2 hloop

end Frame

end SwiftRuntime.Ir
