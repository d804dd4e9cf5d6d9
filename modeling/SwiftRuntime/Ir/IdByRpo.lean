import SwiftRuntime.Ir.Values
import SwiftRuntime.Ir.CfgAnalysis
import Mathlib.Tactic.Ring

/-!
# Renumbering the values

`IdByRPO` of `ir/hir_builder.cpp` gives the values new ids, in one round for every block of
`blocks_rpo`. Every block refers to the one map of the function, so each round goes through the
whole map, in the map's own order, which is the order of descending ids; the last round decides. The
ids are the keys of the map, and after a round they ascend along it.

The invariant of the map here, `Mapped`, needs no bound on the number of values: after `2^16` of
them every id is taken, and the map does not take a value whose id it finds.
-/

namespace SwiftRuntime.Ir

/-- A round of `IdByRPO`: values get the ids from a number on. -/
def numberValues : List InstRef → ℕ → Heap → Heap
  | [], _, h => h
  | v :: vs, n, h => numberValues vs (n + 1) (h.update v fun i => { i with id := n % 2 ^ 16 })

/-- The loop of `IdByRPO` from a list node on. The root of `block_list` is not part of a block. -/
def idByRPOFrom : ℕ → ListNode → ℕ → Build Unit
  | 0, _, _ => throw .endless
  | _ + 1, .blocksRpo, _ => return ()
  | _ + 1, .blockList, _ => throw .undefined
  | fuel + 1, .block b, curValueId => do
    let f ← get
    modify fun f => { f with heap := numberValues f.values.toList curValueId f.heap }
    idByRPOFrom fuel (f.links.next (.block b)) (curValueId + f.values.toList.length)

/-- `IdByRPO`. -/
def idByRPO (fuel : ℕ) : Build Unit := do
  let f ← get
  idByRPOFrom fuel (f.links.next .blocksRpo) 0

/-- An iteration over `blocks_rpo` ends, and meets these blocks and nothing else. -/
def HirFunction.RpoBlocks (f : HirFunction) (bs : List BlockRef) : Prop :=
  ∃ fuel, f.links.walk .blocksRpo fuel (f.links.next .blocksRpo) = some (bs.map .block)

/-- What renumbering is for: from `f` to `f'` the values of `f` get ids that are different, in the
order of the definitions, and found. -/
structure Renumbers (f f' : HirFunction) : Prop where
  /-- The ids are different. -/
  distinct : ∀ v ∈ f.values.toList, ∀ w ∈ f.values.toList, v ≠ w →
    (f'.heap.inst v).id ≠ (f'.heap.inst w).id
  /-- They are in the order of the blocks. -/
  rpo : ∀ v ∈ f.values.toList, ∀ w ∈ f.values.toList, ∀ bs before after, f.RpoBlocks bs →
    bs = before ++ (f.hirValue v).block :: after → (f.hirValue w).block ∈ after →
    (f'.heap.inst v).id < (f'.heap.inst w).id
  /-- Within a block they are in the order of the instructions. -/
  block : ∀ v ∈ f.values.toList, ∀ w ∈ f.values.toList, ∀ b < f.blockCount, ∀ before after,
    (f.block b).insts = before ++ v :: after → w ∈ after →
    (f'.heap.inst v).id < (f'.heap.inst w).id
  /-- The map finds the values. -/
  found : ∀ v ∈ f.values.toList, f'.getHIRValue v = some v

/-! ## The map of any function -/

/-- The invariant of the map of a function under construction. -/
structure Mapped (f : HirFunction) : Prop where
  /-- A block's list is in the order of creation. -/
  sorted : ∀ b < f.blockCount, (f.block b).insts.Pairwise (· < ·)
  /-- It has instructions of the function. -/
  inst_lt : ∀ b < f.blockCount, ∀ u ∈ (f.block b).insts, u < f.heap.count
  /-- So has the map. -/
  value_lt : ∀ v ∈ f.values.toList, v < f.heap.count
  /-- Along the map the values get older and the ids smaller. -/
  order : f.values.toList.Pairwise fun v w => w < v ∧ (f.heap.inst w).id < (f.heap.inst v).id
  /-- The ids are those given out so far. -/
  id_lt : ∀ v ∈ f.values.toList, (f.heap.inst v).id < min f.valueCount (2 ^ 16)
  /-- Each of them is taken. -/
  taken : ∀ n < min f.valueCount (2 ^ 16), ∃ v ∈ f.values.toList, (f.heap.inst v).id = n

namespace Mapped

variable {P : Platform} {f f' : HirFunction}

/-- What leaves the instructions and the map alone keeps the invariant. -/
theorem of_same (hf : Mapped f) (hheap : SameArgs f.heap f'.heap) (hvalues : f'.values = f.values)
    (hcount : f'.valueCount = f.valueCount)
    (hinsts : ∀ b < f'.blockCount, (f'.block b).insts = [] ∨
      b < f.blockCount ∧ (f'.block b).insts = (f.block b).insts) : Mapped f' := by
  refine ⟨fun b hb => ?_, fun b hb u hu => ?_, ?_, ?_, ?_, ?_⟩
  · rcases hinsts b hb with hnil | ⟨hlt, heq⟩
    · rw [hnil]
      exact .nil
    · rw [heq]
      exact hf.sorted b hlt
  · rcases hinsts b hb with hnil | ⟨hlt, heq⟩
    · rw [hnil] at hu
      cases hu
    · rw [heq] at hu
      rw [hheap.count]
      exact hf.inst_lt b hlt u hu
  · rw [hvalues, hheap.count]
    exact hf.value_lt
  · simp only [hvalues, hheap.id]
    exact hf.order
  · simp only [hvalues, hheap.id, hcount]
    exact hf.id_lt
  · simp only [hvalues, hheap.id, hcount]
    exact hf.taken

/-- Counting a use. -/
theorem used (hf : Mapped f) (v : InstRef) : Mapped (f.used v) :=
  hf.of_same (sameArgs_used f v) rfl rfl fun _ hb => .inr ⟨hb, rfl⟩

/-- Ending a block. -/
theorem ended (hf : Mapped f) (b : BlockRef) (t : Terminal) : Mapped (f.ended b t) :=
  hf.of_same (.refl _) rfl rfl fun x hx => .inr ⟨hx, by rw [f.ended_block]⟩

/-- A new edge. -/
theorem addEdge (hf : Mapped f) (src dest : BlockRef) (conditional : Bool) :
    Mapped (f.addEdge src dest conditional) :=
  hf.of_same (.refl _) rfl rfl fun x hx => .inr ⟨hx, by rw [f.addEdge_block]⟩

/-- The vectors that `EndFunction` creates. -/
theorem withVectors (hf : Mapped f) : Mapped f.withVectors :=
  hf.of_same (.refl _) rfl rfl fun x hx => .inr ⟨hx, by rw [f.withVectors_block_eq]⟩

/-- Selecting a block. -/
theorem appendBlock (hf : Mapped f) (start endLoc : Location) :
    Mapped (f.appendBlock start endLoc).2 := by
  rcases f.appendBlock_cases start endLoc with ⟨b, -, -, heq⟩ | ⟨-, heq⟩
  · rw [heq]
    exact hf.of_same (.refl _) rfl rfl fun x hx => .inr ⟨hx, by rw [f.selected_block]⟩
  · rw [heq]
    refine hf.of_same (.refl _) rfl rfl fun x hx => ?_
    rcases Nat.lt_succ_iff_lt_or_eq.mp hx with hlt | rfl
    · exact .inr ⟨hlt, by rw [f.grown_block hlt]⟩
    · exact .inl (by rw [f.grown_block_self])

/-- Along the map the ids descend. -/
theorem ids (hf : Mapped f) :
    f.values.toList.Pairwise fun v w => (f.heap.inst w).id < (f.heap.inst v).id :=
  hf.order.imp And.right

/-- An older value has a smaller id. -/
theorem id_lt_of_lt (hf : Mapped f) {v w : InstRef} (hv : v ∈ f.values.toList)
    (hw : w ∈ f.values.toList) (h : v < w) : (f.heap.inst v).id < (f.heap.inst w).id := by
  have key : ∀ vs : List InstRef,
      (vs.Pairwise fun v w => w < v ∧ (f.heap.inst w).id < (f.heap.inst v).id) → v ∈ vs → w ∈ vs →
      (f.heap.inst v).id < (f.heap.inst w).id := by
    intro vs hpair hv hw
    obtain ⟨before, after, rfl⟩ := List.append_of_mem hv
    rw [List.pairwise_append, List.pairwise_cons] at hpair
    rcases List.mem_append.mp hw with hw | hw
    · exact (hpair.2.2 w hw v List.mem_cons_self).2
    · rcases List.mem_cons.mp hw with rfl | hw
      · exact absurd h (lt_irrefl _)
      · exact absurd (hpair.2.1.1 w hw).1 (lt_asymm h)
  exact key _ hf.order hv hw

/-- A value whose id is taken does not get into the map. -/
theorem toList_enrolled_of_taken {u : InstRef} (hval : (f.heap.inst u).op.hasValue = true)
    (b : BlockRef)
    (hids : f.values.toList.Pairwise fun v w => (f.heap.inst w).id < (f.heap.inst v).id)
    (hu : u ∉ f.values.toList)
    (htaken : ∃ v ∈ f.values.toList, (f.heap.inst v).id = f.valueCount % 2 ^ 16) :
    (f.enrolled P u b).values.toList = f.values.toList := by
  obtain ⟨v, hv, hid⟩ := htaken
  -- The search for the place of the new value ends at the one that has its id.
  let g : HirFunction := { f with
    heap := f.heap.update u fun i => { i with id := f.valueCount % 2 ^ 16 } }
  have hself : (g.heap.inst u).id = f.valueCount % 2 ^ 16 := by simp [g, Heap.update]
  have hother : ∀ w ∈ f.values.toList, (g.heap.inst w).id = (f.heap.inst w).id := by
    intro w hw
    have hne : w ≠ u := fun he => hu (he ▸ hw)
    simp [g, Heap.update, hne]
  have hids' : g.values.toList.Pairwise fun v w => (g.heap.inst w).id < (g.heap.inst v).id :=
    hids.imp_of_mem fun {a c} ha hc h => by
      rw [hother a ha, hother c hc]
      exact h
  have hfind : f.values.find (g.compareId u) = some v :=
    (g.getHIRValue_eq_some_iff hids').mpr ⟨hv, by rw [hother v hv, hself, hid]⟩
  unfold HirFunction.enrolled
  rw [hval]
  show (P.balance.rebalance (f.values.insert (g.compareId u) u)).toList = f.values.toList
  rw [P.balance.toList_rebalance, SearchTree.insert_of_find hfind]

/-- What an instruction call does to the map: the value gets the next id and comes first, or its id
is taken and the map stays. -/
theorem toList_enrolled (hf : Mapped f) {k : Heap}
    (hid : ∀ r < f.heap.count, (k.inst r).id = (f.heap.inst r).id) (b : BlockRef) :
    let G := HirFunction.enrolled { f with heap := k } P f.heap.count b
    (G.values.toList = f.values.toList ∧
        (G.valueCount = f.valueCount ∨
          2 ^ 16 ≤ f.valueCount ∧ G.valueCount = f.valueCount + 1)) ∨
      (G.values.toList = f.heap.count :: f.values.toList ∧ f.valueCount < 2 ^ 16 ∧
        G.valueCount = f.valueCount + 1 ∧ (G.heap.inst f.heap.count).id = f.valueCount) := by
  intro G
  have hnew : f.heap.count ∉ f.values.toList := fun hmem => lt_irrefl _ (hf.value_lt _ hmem)
  -- The map is sorted by the ids of the earlier instructions, which stay.
  have hids : f.values.toList.Pairwise fun v w => (k.inst w).id < (k.inst v).id :=
    hf.ids.imp_of_mem fun {a c} ha hc h => by
      rw [hid a (hf.value_lt a ha), hid c (hf.value_lt c hc)]
      exact h
  cases hval : (k.inst f.heap.count).op.hasValue with
  | false =>
    obtain ⟨hvals, hn⟩ := HirFunction.enrolled_of_not_hasValue (P := P) (f := { f with heap := k })
      (u := f.heap.count) hval b
    exact .inl ⟨congrArg _ hvals, .inl hn⟩
  | true =>
    have hn : G.valueCount = f.valueCount + 1 := by
      simp only [G, HirFunction.enrolled, hval]
      rfl
    -- The next id is a new one until the counter wraps. After that every id is taken.
    rcases Nat.lt_or_ge f.valueCount (2 ^ 16) with hlt | hge
    · obtain ⟨hvals, hid', -⟩ := HirFunction.enrolled_of_hasValue (P := P)
        (f := { f with heap := k }) hval b (fun v hv => by
          have hvlt := hf.value_lt v hv
          have := hf.id_lt v hv
          exact ⟨Nat.ne_of_lt hvlt, by rw [hid v hvlt]; dsimp only; omega⟩) hlt
      exact .inr ⟨hvals, hlt, hn, hid'⟩
    · obtain ⟨v, hv, hvid⟩ := hf.taken (f.valueCount % 2 ^ 16)
        (by have := Nat.mod_lt f.valueCount (Nat.two_pow_pos 16); omega)
      exact .inl ⟨toList_enrolled_of_taken (f := { f with heap := k }) hval b hids hnew
        ⟨v, hv, by rw [hid v (hf.value_lt v hv), hvid]⟩, .inr ⟨hge, hn⟩⟩

/-- One more instruction at the end of a block's list. -/
theorem insts_appended (hf : Mapped f) {b : BlockRef} (hblocks : f'.blockCount = f.blockCount)
    (hcount : f'.heap.count = f.heap.count + 1)
    (hinsts : ∀ x, (f'.block x).insts = (f.block x).insts ++ if x = b then [f.heap.count] else []) :
    (∀ x < f'.blockCount, (f'.block x).insts.Pairwise (· < ·)) ∧
      ∀ x < f'.blockCount, ∀ u ∈ (f'.block x).insts, u < f'.heap.count := by
  refine ⟨fun x hx => ?_, fun x hx u hu => ?_⟩
  -- The new instruction is the last one of its block, and larger than the others.
  · rw [hinsts x]
    refine List.pairwise_append.mpr ⟨hf.sorted x (hblocks ▸ hx), ?_, fun u hu w hw => ?_⟩
    · split_ifs <;> simp
    · split_ifs at hw
      · rw [List.mem_singleton.mp hw]
        exact hf.inst_lt x (hblocks ▸ hx) u hu
      · cases hw
  · rw [hcount]
    rcases (HirFunction.mem_insts_iff hinsts x u).mp hu with hu | ⟨-, rfl⟩
    · exact Nat.lt_succ_of_lt (hf.inst_lt x (hblocks ▸ hx) u hu)
    · exact Nat.lt_succ_self _

section Grown

variable (hf : Mapped f) (hcount : f'.heap.count = f.heap.count + 1)
  (hinsts : (∀ x < f'.blockCount, (f'.block x).insts.Pairwise (· < ·)) ∧
    ∀ x < f'.blockCount, ∀ u ∈ (f'.block x).insts, u < f'.heap.count)
  (hid : ∀ r < f.heap.count, (f'.heap.inst r).id = (f.heap.inst r).id)

include hf hid in
/-- The values of the map keep their order. -/
theorem order_of_id : f.values.toList.Pairwise
    fun v w => w < v ∧ (f'.heap.inst w).id < (f'.heap.inst v).id :=
  hf.order.imp_of_mem fun {a c} ha hc h => by
    rw [hid a (hf.value_lt a ha), hid c (hf.value_lt c hc)]
    exact h

include hf hcount hinsts hid in
/-- The instruction leaves the map as it is: it has no value, or its id is taken. -/
theorem of_same_values (hvals : f'.values.toList = f.values.toList)
    (hmin : min f'.valueCount (2 ^ 16) = min f.valueCount (2 ^ 16)) : Mapped f' where
  sorted := hinsts.1
  inst_lt := hinsts.2
  value_lt v hv := hcount ▸ Nat.lt_succ_of_lt (hf.value_lt v (hvals ▸ hv))
  order := hvals ▸ hf.order_of_id hid
  id_lt v hv := by
    rw [hmin, hid v (hf.value_lt v (hvals ▸ hv))]
    exact hf.id_lt v (hvals ▸ hv)
  taken n hn := by
    obtain ⟨v, hv, rfl⟩ := hf.taken n (hmin ▸ hn)
    exact ⟨v, hvals.symm ▸ hv, hid v (hf.value_lt v hv)⟩

include hf hcount hinsts hid in
/-- The instruction enters the map, with the next id. -/
theorem of_new_value (hvals : f'.values.toList = f.heap.count :: f.values.toList)
    (hfits : f.valueCount < 2 ^ 16) (hvalueCount : f'.valueCount = f.valueCount + 1)
    (hnew : (f'.heap.inst f.heap.count).id = f.valueCount) : Mapped f' := by
  have hmin : min f.valueCount (2 ^ 16) = f.valueCount := by omega
  have hmin' : min f'.valueCount (2 ^ 16) = f.valueCount + 1 := by omega
  -- The ids in the map are below the new one.
  have hid_lt : ∀ v ∈ f.values.toList, (f'.heap.inst v).id < f.valueCount := by
    intro v hv
    rw [hid v (hf.value_lt v hv), ← hmin]
    exact hf.id_lt v hv
  refine ⟨hinsts.1, hinsts.2, fun v hv => ?_, ?_, fun v hv => ?_, fun n hn => ?_⟩
  · rw [hcount]
    rcases List.mem_cons.mp (hvals ▸ hv) with rfl | hv
    · exact Nat.lt_succ_self _
    · exact Nat.lt_succ_of_lt (hf.value_lt v hv)
  · rw [hvals]
    refine List.pairwise_cons.mpr ⟨fun v hv => ⟨hf.value_lt v hv, ?_⟩, hf.order_of_id hid⟩
    rw [hnew]
    exact hid_lt v hv
  · rw [hmin']
    rcases List.mem_cons.mp (hvals ▸ hv) with rfl | hv
    · exact hnew ▸ Nat.lt_succ_self _
    · exact Nat.lt_succ_of_lt (hid_lt v hv)
  · rw [hvals]
    rcases Nat.lt_succ_iff_lt_or_eq.mp (hmin' ▸ hn) with hn | rfl
    · obtain ⟨v, hv, hvn⟩ := hf.taken n (hmin.symm ▸ hn)
      exact ⟨v, List.mem_cons_of_mem _ hv, (hid v (hf.value_lt v hv)).trans hvn⟩
    · exact ⟨_, List.mem_cons_self, hnew⟩

end Grown

/-- An instruction call. -/
theorem register (hf : Mapped f) {k : Heap} (hcount : k.count = f.heap.count + 1)
    (hid : ∀ r < f.heap.count, (k.inst r).id = (f.heap.inst r).id) (b : BlockRef) :
    Mapped (HirFunction.register { f with heap := k } P f.heap.count b) := by
  obtain ⟨hGcount, -, -, hGold, hGblocks, -, -⟩ :=
    HirFunction.enrolled_frame { f with heap := k } P f.heap.count b
  have hGblock := HirFunction.enrolled_block { f with heap := k } P f.heap.count b
  have hGvals := hf.toList_enrolled (P := P) hid b
  have hGid : ∀ r < f.heap.count,
      ((HirFunction.enrolled { f with heap := k } P f.heap.count b).heap.inst r).id =
        (f.heap.inst r).id :=
    fun r hr => (hGold r (Nat.ne_of_lt hr)).1.trans (hid r hr)
  rw [HirFunction.register_frame]
  dsimp only at hGvals
  -- What follows the first part changes only the records of uses and the largest local.
  generalize HirFunction.enrolled { f with heap := k } P f.heap.count b = G at *
  have hinsts := hf.insts_appended hGblocks (hGcount.trans hcount) fun x => by rw [hGblock x]
  rcases hGvals with ⟨hvals, hn⟩ | ⟨hvals, hfits, hn, hnew⟩
  · have hmin : min G.valueCount (2 ^ 16) = min f.valueCount (2 ^ 16) := by omega
    exact hf.of_same_values (hGcount.trans hcount) hinsts hGid hvals hmin
  · exact hf.of_new_value (hGcount.trans hcount) hinsts hGid hvals hfits hn hnew

end Mapped

/-- The calls of the assembler keep the invariant. -/
theorem mapped_kept (P : Platform) : Kept P Mapped where
  used _ v hf := hf.used v
  ended _ b t hf := hf.ended b t
  addEdge _ src dest conditional hf := hf.addEdge src dest conditional
  appendBlock _ start endLoc hf := hf.appendBlock start endLoc
  register _ _ b hcount hid hf := hf.register hcount hid b

/-- The function without blocks. -/
theorem mapped_empty : Mapped .empty := by
  refine ⟨?_, ?_, ?_, .nil, ?_, ?_⟩ <;> simp [HirFunction.empty, SearchTree.toList]

/-- The invariant holds of every finished function. -/
theorem Finishes.mapped {P : Platform} {begin_ : Location} {calls : List Call} {f : HirFunction}
    (h : Finishes P begin_ calls f) : Mapped f :=
  (mapped_kept P).finishes mapped_empty (fun _ hf => hf.withVectors) h

/-- The analysis keeps it. -/
theorem Analysed.mapped {f f' : HirFunction} (h : Analysed f f') (hf : Mapped f) : Mapped f' := by
  have hrest := h.rest
  refine hf.of_same ?_ (by rw [hrest]) (by rw [hrest]) fun b hb => .inr ⟨?_, ?_⟩
  · rw [hrest]
    exact .refl _
  · rw [hrest] at hb
    exact hb
  · rw [h.block b]

/-! ## The rounds -/

section Rounds

variable {h : Heap} {vs before after : List InstRef} {v : InstRef} {n k : ℕ}

/-- A round leaves the other ids alone. -/
theorem numberValues_of_notMem (hv : v ∉ vs) :
    ((numberValues vs n h).inst v).id = (h.inst v).id := by
  induction vs generalizing n h with
  | nil => rfl
  | cons w vs ih =>
    rw [List.mem_cons, not_or] at hv
    rw [numberValues, ih hv.2]
    simp [Heap.update, hv.1]

/-- A round numbers the values along the list. -/
theorem numberValues_id (hnodup : (before ++ v :: after).Nodup) :
    ((numberValues (before ++ v :: after) n h).inst v).id = (n + before.length) % 2 ^ 16 := by
  induction before generalizing n h with
  | nil =>
    rw [List.nil_append, numberValues, numberValues_of_notMem (List.nodup_cons.mp hnodup).1]
    simp [Heap.update]
  | cons w before ih =>
    rw [List.cons_append, numberValues, ih (List.nodup_cons.mp hnodup).2, List.length_cons]
    congr 1
    omega

/-- A number of rounds. -/
def numberRounds (vs : List InstRef) : ℕ → ℕ → Heap → Heap
  | 0, _, h => h
  | k + 1, n, h => numberRounds vs k (n + vs.length) (numberValues vs n h)

/-- The last round decides. -/
theorem numberRounds_id (hnodup : (before ++ v :: after).Nodup) :
    ((numberRounds (before ++ v :: after) (k + 1) n h).inst v).id =
      (n + k * (before ++ v :: after).length + before.length) % 2 ^ 16 := by
  induction k generalizing n h with
  | zero => rw [numberRounds, numberRounds, numberValues_id hnodup, Nat.zero_mul, Nat.add_zero]
  | succ k ih =>
    rw [numberRounds, ih]
    congr 1
    ring

end Rounds

/-- What `IdByRPO` does when it returns: a round for every block that the iteration over
`blocks_rpo` meets, which are blocks only. -/
theorem idByRPOFrom_ok_iff {fuel n : ℕ} {x : ListNode} {f f' : HirFunction} :
    idByRPOFrom fuel x n f = .ok () f' ↔
      ∃ bs : List BlockRef, f.links.walk .blocksRpo fuel x = some (bs.map .block) ∧
        f' = { f with heap := numberRounds f.values.toList bs.length n f.heap } := by
  induction fuel generalizing x n f with
  | zero => simp [idByRPOFrom, throw_ok_iff, Links.walk]
  | succ fuel ih =>
    cases x with
    -- The iteration ends at the head of `blocks_rpo`. The head of `block_list` is no block.
    | blocksRpo =>
      rw [idByRPOFrom, pure_ok_iff, Links.walk, if_pos rfl]
      constructor
      · rintro ⟨-, rfl⟩
        exact ⟨[], rfl, rfl⟩
      · rintro ⟨bs, hbs, rfl⟩
        obtain rfl : bs = [] := by simpa using hbs.symm
        exact ⟨rfl, rfl⟩
    | blockList =>
      rw [idByRPOFrom, throw_ok_iff, Links.walk, if_neg (by simp)]
      refine ⟨False.elim, ?_⟩
      rintro ⟨bs, hbs, -⟩
      obtain ⟨rest, -, hcons⟩ := Option.map_eq_some_iff.mp hbs
      cases bs <;> simp at hcons
    | block b =>
      simp only [idByRPOFrom, bind_ok_iff, get_ok_iff, modify_ok_iff, ih]
      rw [Links.walk, if_neg (by simp)]
      constructor
      · rintro ⟨_, _, ⟨rfl, rfl⟩, ⟨⟩, _, rfl, bs, hbs, rfl⟩
        exact ⟨b :: bs, by simp [hbs], rfl⟩
      · rintro ⟨bs, hbs, rfl⟩
        obtain ⟨rest, hrest, hcons⟩ := Option.map_eq_some_iff.mp hbs
        cases bs with
        | nil => simp at hcons
        | cons c bs =>
          rw [List.map_cons, List.cons.injEq, ListNode.block.injEq] at hcons
          obtain ⟨rfl, rfl⟩ := hcons
          exact ⟨f, f, ⟨rfl, rfl⟩, (), _, rfl, bs, hrest, rfl⟩

/-- `IdByRPO` numbers the values once for each block that it meets, from zero on. -/
theorem idByRPO_ok_iff {fuel : ℕ} {f f' : HirFunction} :
    idByRPO fuel f = .ok () f' ↔ ∃ bs : List BlockRef,
      f.links.walk .blocksRpo fuel (f.links.next .blocksRpo) = some (bs.map .block) ∧
        f' = { f with heap := numberRounds f.values.toList bs.length 0 f.heap } := by
  rw [← idByRPOFrom_ok_iff]
  simp only [idByRPO, bind_ok_iff, get_ok_iff]
  constructor
  · rintro ⟨_, _, ⟨rfl, rfl⟩, hfrom⟩
    exact hfrom
  · exact fun hfrom => ⟨f, f, ⟨rfl, rfl⟩, hfrom⟩

/-- What `IdByRPO` leaves does not depend on the bound on its passes. -/
theorem idByRPO_unique {n m : ℕ} {f f' f'' : HirFunction} (h : idByRPO n f = .ok () f')
    (h' : idByRPO m f = .ok () f'') : f' = f'' := by
  obtain ⟨bs, hwalk, rfl⟩ := idByRPO_ok_iff.mp h
  obtain ⟨bs', hwalk', rfl⟩ := idByRPO_ok_iff.mp h'
  have hlen := congrArg List.length (Links.walk_unique hwalk hwalk')
  rw [List.length_map, List.length_map] at hlen
  rw [hlen]

/-- With two or more values, somewhere along the map the new ids ascend: only one pair of neighbours
can have the wrap of `u16` between them, and of two values alone the first gets an even id. -/
theorem exists_ascending {vs : List InstRef} (hnodup : vs.Nodup) (hlen : 2 ≤ vs.length) (k : ℕ)
    (h : Heap) : ∃ before v w after, vs = before ++ v :: w :: after ∧
      ((numberRounds vs (k + 1) 0 h).inst v).id < ((numberRounds vs (k + 1) 0 h).inst w).id := by
  obtain ⟨a, b, rest, rfl⟩ : ∃ a b rest, vs = a :: b :: rest := by
    rcases vs with - | ⟨a, - | ⟨b, rest⟩⟩
    · simp at hlen
    · simp at hlen
    · exact ⟨a, b, rest, rfl⟩
  -- The ids of the last round.
  have hid : ∀ before v after, before ++ v :: after = a :: b :: rest →
      ((numberRounds (a :: b :: rest) (k + 1) 0 h).inst v).id =
        (k * (rest.length + 2) + before.length) % 2 ^ 16 := by
    intro before v after heq
    rw [← heq, numberRounds_id (heq ▸ hnodup), heq, Nat.zero_add]
    rfl
  have ha := hid [] a (b :: rest) rfl
  have hb := hid [a] b rest rfl
  rw [List.length_nil] at ha
  rw [List.length_singleton] at hb
  rcases rest with - | ⟨c, rest⟩
  · refine ⟨[], a, b, [], rfl, ?_⟩
    rw [ha, hb, List.length_nil]
    omega
  · have hc := hid [a, b] c rest rfl
    rw [show [a, b].length = 2 from rfl] at hc
    generalize k * ((c :: rest).length + 2) = m at ha hb hc
    -- If the first id is the largest there is, the second and the third one ascend.
    by_cases hwrap : m % 2 ^ 16 = 2 ^ 16 - 1
    · exact ⟨[a], b, c, rest, rfl, by rw [hb, hc]; omega⟩
    · exact ⟨[], a, b, c :: rest, rfl, by rw [ha, hb]; omega⟩

section Results

variable {P : Platform} {begin_ : Location} {calls : List Call} {f f' : HirFunction}

/-- A map that is not renumbered keeps what it has. -/
theorem Mapped.renumbers_self (hf : Mapped f) (hrpo : f.RpoBlocks []) : Renumbers f f := by
  refine ⟨fun v hv w hw hne heq => ?_, ?_, ?_, fun v hv => ?_⟩
  · exact hne (f.eq_of_id_eq hf.ids hv hw heq)
  · rintro v hv w hw bs before after ⟨n, hbs⟩ rfl -
    obtain ⟨m, hnil⟩ := hrpo
    have := Links.walk_unique hbs hnil
    simp at this
  · intro v hv w hw b hb before after hsplit hafter
    have hsorted := hf.sorted b hb
    rw [hsplit, List.pairwise_append, List.pairwise_cons] at hsorted
    exact hf.id_lt_of_lt hv hw (hsorted.2.1.1 w hafter)
  · exact (f.getHIRValue_eq_some_iff hf.ids).mpr ⟨hv, rfl⟩

/-- Whatever id the only value of a map has, it is found by it. -/
theorem Mapped.renumbers_single (hf : Mapped f) (hlen : f.values.toList.length ≤ 1)
    (hvalues : f'.values = f.values) : Renumbers f f' := by
  have hsingle : ∀ v ∈ f.values.toList, ∀ w ∈ f.values.toList, v = w := by
    intro v hv w hw
    obtain ⟨i, hi, rfl⟩ := List.mem_iff_getElem.mp hv
    obtain ⟨j, hj, rfl⟩ := List.mem_iff_getElem.mp hw
    congr 1
    omega
  refine ⟨fun v hv w hw hne => absurd (hsingle v hv w hw) hne, ?_, ?_, fun v hv => ?_⟩
  · rintro v hv w hw bs before after ⟨n, hbs⟩ rfl hafter
    -- An iteration meets no block twice.
    have hnodup := (Links.walk_nodup hbs).of_map
    rw [← hsingle v hv w hw] at hafter
    exact absurd hafter (List.nodup_cons.mp (List.nodup_append.mp hnodup).2.1).1
  · intro v hv w hw b hb before after hsplit hafter
    have hsorted := hf.sorted b hb
    rw [hsplit, List.pairwise_append, List.pairwise_cons] at hsorted
    have := hsorted.2.1.1 w hafter
    rw [hsingle v hv w hw] at this
    exact absurd this (lt_irrefl _)
  · have hpair : f'.values.toList.Pairwise fun v w =>
        (f'.heap.inst w).id < (f'.heap.inst v).id := by
      rw [hvalues]
      exact hf.order.imp_of_mem fun {a c} ha hc h => by
        rw [hsingle a ha c hc] at h
        exact absurd h.1 (lt_irrefl _)
    exact (f'.getHIRValue_eq_some_iff hpair).mpr ⟨hvalues ▸ hv, rfl⟩

/-- After a round over two or more values the map has lost one. -/
theorem Mapped.not_renumbers (hf : Mapped f) (hlen : 2 ≤ f.values.toList.length) (k : ℕ) :
    ¬ Renumbers f { f with heap := numberRounds f.values.toList (k + 1) 0 f.heap } := by
  intro h
  have hnodup : f.values.toList.Nodup := hf.order.imp fun hvw => (Nat.ne_of_lt hvw.1).symm
  obtain ⟨before, v, w, after, hsplit, hlt⟩ := exists_ascending hnodup hlen k f.heap
  exact SearchTree.not_find_of_ascending hnodup hsplit hlt
    (h.found v (by simp [hsplit])) (h.found w (by simp [hsplit]))

/-- `IdByRPO` does what it is for exactly when there is nothing to do for it: `blocks_rpo` is a list
of blocks, and it is empty, or the map has at most one value. -/
theorem renumbers_iff {fuel : ℕ} (h : Finishes P begin_ calls f)
    (hpass : cfgAnalysisPass P fuel f = .ok () f') :
    (∃ fuel f'', idByRPO fuel f' = .ok () f'' ∧ Renumbers f' f'') ↔
      ∃ bs, f'.RpoBlocks bs ∧ (bs = [] ∨ f'.values.toList.length ≤ 1) := by
  have hf' : Mapped f' := (cfgAnalysisPass_analysed hpass).mapped h.mapped
  constructor
  -- Two values and a block: in the last round some value gets a smaller id than the next.
  · rintro ⟨n, f'', hid, hren⟩
    obtain ⟨bs, hwalk, rfl⟩ := idByRPO_ok_iff.mp hid
    refine ⟨bs, ⟨n, hwalk⟩, ?_⟩
    by_contra hcond
    rw [not_or, not_le] at hcond
    obtain ⟨k, hk⟩ := Nat.exists_eq_succ_of_ne_zero (mt List.length_eq_zero_iff.mp hcond.1)
    rw [hk] at hren
    exact hf'.not_renumbers hcond.2 k hren
  · rintro ⟨bs, ⟨n, hwalk⟩, hcond⟩
    refine ⟨n, _, idByRPO_ok_iff.mpr ⟨bs, hwalk, rfl⟩, ?_⟩
    rcases hcond with rfl | hlen
    · exact hf'.renumbers_self ⟨n, hwalk⟩
    · exact hf'.renumbers_single hlen rfl

/-- Three blocks in a row with one value: the iteration over `blocks_rpo` meets the second block. -/
theorem renumbers_one_value :
    ∃ f f', Finishes .plain 0 [.inst .loadImm [.imm], .linkBlock 1, .linkBlock 2] f ∧
      cfgAnalysisPass .plain 20 f = .ok () f' ∧ f'.values.toList = [0] ∧ f'.RpoBlocks [1] ∧
      ∃ fuel f'', idByRPO fuel f' = .ok () f'' ∧ Renumbers f' f'' := by
  obtain ⟨f, hfin, hpass⟩ := exists_of_any
    (o := finish .plain 0 [.inst .loadImm [.imm], .linkBlock 1, .linkBlock 2])
    (Q := fun f => ((returned (cfgAnalysisPass .plain 20 f)).any fun f' =>
      f'.values.toList = [0] ∧
        f'.links.walk .blocksRpo 5 (f'.links.next .blocksRpo) = some [.block 1]) = true)
    (by decide +kernel)
  obtain ⟨f', hf', hvalues, hwalk⟩ := exists_of_any hpass
  have hf := (typedFinishes_of_finish hfin).finishes
  have hok := returned_eq_some_iff.mp hf'
  have hrpo : f'.RpoBlocks [1] := ⟨5, hwalk⟩
  exact ⟨f, f', hf, hok, hvalues, hrpo,
    (renumbers_iff hf hok).mpr ⟨[1], hrpo, .inr (by rw [hvalues]; decide)⟩⟩

/-- With two values in the first of three blocks in a row, `IdByRPO` swaps their ids, and the map
does not find the second one any more. -/
theorem second_value_lost :
    ¬ ∀ (P : Platform) (begin_ : Location) (calls : List Call) (f f' : HirFunction) (fuel : ℕ),
      Finishes P begin_ calls f → cfgAnalysisPass P fuel f = .ok () f' →
        ∃ fuel f'', idByRPO fuel f' = .ok () f'' ∧ Renumbers f' f'' := by
  intro h
  -- The values 1 and 0 stand in the map in this order and get the ids 0 and 1.
  obtain ⟨f, hfin, hpass⟩ := exists_of_any
    (o := finish .plain 0
      [.inst .loadImm [.imm], .inst .loadImm [.imm], .linkBlock 1, .linkBlock 2])
    (Q := fun f => ((returned (cfgAnalysisPass .plain 20 f)).any fun f' =>
      f'.values.toList = [1, 0] ∧
        ((returned (idByRPO 5 f')).any fun f'' => f''.getHIRValue 1 = none) = true) = true)
    (by decide +kernel)
  obtain ⟨f', hf', hvalues, hid⟩ := exists_of_any hpass
  obtain ⟨f'', hf'', hlost⟩ := exists_of_any hid
  obtain ⟨n, g, hg, hren⟩ := h _ _ _ f f' 20 (typedFinishes_of_finish hfin).finishes
    (returned_eq_some_iff.mp hf')
  obtain rfl := idByRPO_unique hg (returned_eq_some_iff.mp hf'')
  have hfound := hren.found 1 (by rw [hvalues]; decide)
  rw [hlost] at hfound
  cases hfound

end Results

end SwiftRuntime.Ir
