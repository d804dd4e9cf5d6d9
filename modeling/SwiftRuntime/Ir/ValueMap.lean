import SwiftRuntime.Vapours.IntrusiveRedBlackTree
import SwiftRuntime.Ir.Numbering

/-!
# The value map of a function as an intrusive tree

A function's `values` is a search tree here, with whatever rotations a `Balance` makes. In the code
it is an intrusive red-black tree. Both have the same values in the same order, that of descending
ids, and find the same ones (`value_map_of_build`), so nothing that is said of `values` depends on
the `Balance`.
-/

namespace SwiftRuntime.Ir

open Freebsd Vapours

namespace HirFunction

variable (f : HirFunction)

/-- `HIRValue::Compare`. -/
def compareValue : InstRef → InstRef → ℤ := compareDescending fun v => (f.heap.inst v).id

/-- The order of the map, which is that of descending ids. -/
def byId (v : InstRef) : ℕᵒᵈ := OrderDual.toDual (f.heap.inst v).id

/-- The comparison of values is that of their ids, with the largest first. -/
theorem orders_compareValue : Orders f.compareValue f.byId :=
  orders_compareDescending id (fun _ _ => Iff.rfl) _

end HirFunction

variable {P : Platform} {f f' : HirFunction} {begin_ : Location} {calls : List Call}

/-- The searches of the map compare as the order does. -/
theorem HirFunction.compareId_eq (f : HirFunction) (v w : InstRef) :
    f.compareId v w = compare (f.byId v) (f.byId w) := rfl

/-- What a search in the map finds. -/
theorem HirFunction.getHIRValue_eq_lookup (hids : Ascending f.byId f.values.toList) (v : InstRef) :
    f.getHIRValue v = lookup f.byId v f.values.toList :=
  find_eq_lookup hids (f.compareId_eq v)

/-- An instruction that defines a value is inserted into the map. -/
theorem Mapped.values_enrolled (hm : Mapped f) {k : Heap}
    (hid : ∀ r < f.heap.count, (k.inst r).id = (f.heap.inst r).id)
    (hval : (k.inst f.heap.count).op.hasValue = true) (b : BlockRef) :
    let g := HirFunction.enrolled { f with heap := k } P f.heap.count b
    g.values.toList = orderedInsert g.byId f.heap.count f.values.toList := by
  intro g
  -- The earlier instructions keep their ids, so the map is still sorted.
  have hgid : ∀ v ∈ f.values.toList, (g.heap.inst v).id = (f.heap.inst v).id := by
    intro v hv
    have hlt := hm.value_lt v hv
    obtain ⟨-, -, -, hold, -⟩ := HirFunction.enrolled_frame { f with heap := k } P f.heap.count b
    exact (hold v (Nat.ne_of_lt hlt)).1.trans (hid v hlt)
  have hasc : Ascending g.byId f.values.toList := hm.ids.imp_of_mem fun {v w} hv hw h => by
    show (g.heap.inst w).id < (g.heap.inst v).id
    rw [hgid v hv, hgid w hw]
    exact h
  have hvalues : g.values.toList =
      (f.values.insert (g.compareId f.heap.count) f.heap.count).toList := by
    simp only [g, HirFunction.enrolled, hval]
    exact P.balance.toList_rebalance _
  rw [hvalues]
  exact insert_eq_orderedInsert hasc (g.compareId_eq _)

/-- The values of the map are those that instructions define, inserted one after the other. -/
def Inserted (f : HirFunction) : Prop :=
  f.values.toList = f.definitions.reverse.foldl (fun vs v => orderedInsert f.byId v vs) []

namespace Inserted

/-- What leaves the ids and the map alone keeps the invariant. -/
theorem of_same (hf : Inserted f) (hheap : SameArgs f.heap f'.heap)
    (hvalues : f'.values = f.values) :
    Inserted f' := by
  have hdefs : f'.definitions = f.definitions := by
    simp only [HirFunction.definitions, hheap.count, hheap.op]
  have hid : f'.byId = f.byId := funext fun v => congrArg OrderDual.toDual (hheap.id v)
  rw [Inserted, hvalues, hdefs, hid]
  exact hf

/-- The calls other than those for instructions do so. -/
theorem kept : KeptApart Inserted where
  used f v hf := hf.of_same (sameArgs_used f v) rfl
  ended f b t hf := hf.of_same (.refl _) rfl
  addEdge f src dest conditional hf := hf.of_same (.refl _) rfl
  appendBlock f start endLoc hf := by
    rcases f.appendBlock_cases start endLoc with ⟨b, -, -, heq⟩ | ⟨-, heq⟩ <;> rw [heq] <;>
      exact hf.of_same (.refl _) rfl

/-- An instruction call inserts the value that the instruction defines, if it defines one. -/
theorem inst (hf : Inserted f) (hm : Mapped f) {op : OpCode} {args : List CallArg}
    (h : (Call.inst op args).Step P f f') : Inserted f' := by
  obtain ⟨_, -, hmore, -⟩ := hm.oneMore_of_step h
  have hdefs := HirFunction.definitions_succ hmore.count hmore.op
  have hold : ∀ v ∈ f.definitions.reverse, f'.byId v = f.byId v := fun v hv =>
    congrArg OrderDual.toDual (hmore.id v (f.mem_definitions.mp (List.mem_reverse.mp hv)).1)
  -- The insertions so far compare the same ids.
  have hfold : f.definitions.reverse.foldl (fun vs v => orderedInsert f'.byId v vs) [] =
      f.values.toList :=
    (foldl_orderedInsert_congr (by simp) hold).trans hf.symm
  -- An instruction without a value leaves the map alone.
  rcases hmore.value with ⟨hval, -, hvals⟩ | ⟨hval, -⟩
  · rw [hval, if_neg (by simp)] at hdefs
    rw [Inserted, hdefs, hfold, hvals]
  · rw [hval, if_pos rfl] at hdefs
    rw [Inserted, hdefs, List.reverse_cons, List.foldl_append, hfold]
    obtain ⟨b, k, -, hk, -, rfl⟩ := appendInst_spec h
    have hframe := HirFunction.register_frame { f with heap := k } P f.heap.count b
    have hid : ∀ r < f.heap.count, (k.inst r).id = (f.heap.inst r).id := by
      intro r hr
      rw [hk.id]
      simp [Nat.ne_of_lt hr]
    have hheap := congrArg HirFunction.heap hframe
    have hop : (k.inst f.heap.count).op.hasValue = true := by
      rw [← hval, hheap]
      exact congrArg OpCode.hasValue
        ((HirFunction.enrolled_frame { f with heap := k } P f.heap.count b).2.1 f.heap.count).symm
    have hbyId : HirFunction.byId (HirFunction.register { f with heap := k } P f.heap.count b) =
        HirFunction.byId (HirFunction.enrolled { f with heap := k } P f.heap.count b) := by
      unfold HirFunction.byId
      rw [hheap]
    rw [congrArg HirFunction.values hframe, hbyId]
    exact hm.values_enrolled hid hop b

/-- Each call keeps it. -/
theorem step (hf : Inserted f) (hm : Mapped f) {c : Call} (h : c.Step P f f') : Inserted f' := by
  by_cases hc : ∃ op args, c = .inst op args
  · obtain ⟨op, args, rfl⟩ := hc
    exact hf.inst hm h
  · exact kept.step (fun op args he => hc ⟨op, args, he⟩) h hf

end Inserted

/-- The map of a function under construction has its definitions inserted in turn. -/
theorem Builds.inserted (h : Builds P begin_ calls f) : Inserted f := by
  have hinv := Run.invariant (fun f => Mapped f ∧ Inserted f) h
    (fun c _ s s' hstep hs => ⟨(mapped_kept P).step hstep hs.1, hs.2.step hs.1 hstep⟩)
    ⟨mapped_empty.appendBlock begin_ 0, Inserted.kept.appendBlock _ begin_ 0 rfl⟩
  exact hinv.2

/-- Values that are destroyed one after the other. -/
def HirFunction.destroyHIRValues (P : Platform) (f : HirFunction) (vs : List InstRef) :
    HirFunction :=
  vs.foldl (fun f v => f.destroyHIRValue P v) f

/-- Destroying values takes them out of the map. -/
theorem HirFunction.destroyHIRValues_spec (P : Platform) (f : HirFunction) (vs : List InstRef) :
    (f.destroyHIRValues P vs).values.toList = vs.foldl List.erase f.values.toList ∧
      (f.destroyHIRValues P vs).heap = f.heap := by
  induction vs generalizing f with
  | nil => exact ⟨rfl, rfl⟩
  | cons v vs ih =>
    obtain ⟨hvalues, hheap⟩ := ih (f.destroyHIRValue P v)
    refine ⟨hvalues.trans ?_, hheap⟩
    show vs.foldl List.erase (P.balance.remove v f.values).toList = _
    rw [P.balance.toList_remove]
    rfl

/-- The calls that the code makes on the tree: an insertion for each instruction that defines a
value, and an erasure for each value that is destroyed. -/
def HirFunction.valueCalls (f : HirFunction) (vs : List InstRef) : List (TreeOp InstRef) :=
  f.definitions.reverse.map .insert ++ vs.map .erase

section ValueCalls

variable {vs : List InstRef} (h : Builds P begin_ calls f)
include h

/-- One call for each value that was defined, and one for each that is destroyed. -/
theorem Builds.length_valueCalls : (f.valueCalls vs).length = f.valueCount + vs.length := by
  simp [HirFunction.valueCalls, h.listed.length]

/-- On a set, the calls leave the values of the map. -/
theorem Builds.foldl_valueCalls :
    (f.valueCalls vs).foldl (fun xs op => op.apply f.byId xs) [] =
      (f.destroyHIRValues P vs).values.toList := by
  rw [HirFunction.valueCalls, List.foldl_append, List.foldl_map, List.foldl_map,
    (f.destroyHIRValues_spec P vs).1, h.inserted]
  rfl

/-- A value is inserted once, and only values of the map are destroyed. -/
theorem Builds.allAdmissible_valueCalls (hnodup : vs.Nodup) (hvs : vs ⊆ f.values.toList) :
    TreeOp.AllAdmissible f.byId [] (f.valueCalls vs) := by
  refine TreeOp.allAdmissible_append.mpr ⟨TreeOp.allAdmissible_insert,
    TreeOp.allAdmissible_erase hnodup ?_⟩
  rw [List.foldl_map]
  rw [h.inserted] at hvs
  exact hvs

end ValueCalls

/-- The tree of the code has the values of the map. After the insertions for a function under
construction, and erasures of any of its values, an iteration comes to the values of the map in the
order of descending ids, and every search finds what it finds in the map. -/
theorem value_map_of_build (h : Builds P begin_ calls f) (entry : InstRef → RbEntry InstRef)
    (limit passes : ℕ) (vs : List InstRef) (hnodup : vs.Nodup) (hvs : vs ⊆ f.values.toList)
    (hlimit : 2 * Nat.log 2 (f.valueCount + vs.length + 1) + 1 < limit)
    (hpasses : f.valueCount + vs.length < passes) :
    ∃ r s, TreeOp.execAll limit passes f.compareValue (f.valueCalls vs)
        ⟨⟨entry, none⟩, 0⟩ = .ok r s ∧
      IntrusiveRedBlackTree.forEach limit passes s = .ok (f.destroyHIRValues P vs).values.toList s ∧
      ((f.destroyHIRValues P vs).values.toList.map fun v => (f.heap.inst v).id).Pairwise (· > ·) ∧
      ∀ v, IntrusiveRedBlackTree.find limit f.compareValue v s =
        .ok ((f.destroyHIRValues P vs).getHIRValue v) s := by
  have hlen : (f.valueCalls vs).length = f.valueCount + vs.length := h.length_valueCalls
  have hfold : (f.valueCalls vs).foldl (fun xs op => op.apply f.byId xs) [] = _ :=
    h.foldl_valueCalls
  rw [← hlen] at hlimit hpasses
  -- The calls run on the tree of the library, which then represents what they do to a list.
  obtain ⟨s, hrun, hs⟩ := (represents_nil f.byId Set.univ entry).execAll f.orders_compareValue
    (h.allAdmissible_valueCalls hnodup hvs) (fun v _ => Set.mem_univ v) (by simp) hlimit hpasses
  have hle := TreeOp.length_foldl_apply_le f.byId (f.valueCalls vs) []
  rw [hfold] at hs hle
  rw [List.length_nil, Nat.zero_add] at hle
  have hlog := Nat.log_mono_right (b := 2) (Nat.add_le_add_right hle 1)
  refine ⟨_, s, hrun, forEach_eq hs.holds (by omega) (by omega),
    List.pairwise_map.mpr (hs.ascending.imp fun {v w} hlt => OrderDual.toDual_lt_toDual.mp hlt),
    fun v => ?_⟩
  -- Destroying a value does not change the ids.
  have hbyId : (f.destroyHIRValues P vs).byId = f.byId := by
    unfold HirFunction.byId
    rw [(f.destroyHIRValues_spec P vs).2]
  rw [HirFunction.getHIRValue_eq_lookup (by rw [hbyId]; exact hs.ascending), hbyId]
  exact hs.find f.orders_compareValue v (by omega)

/-- Of three values the second one is destroyed. The last one comes first. -/
theorem value_map_of_three_values :
    ∃ f r s, Builds .plain 0 [.inst .loadImm [.imm], .inst .loadImm [.imm],
      .inst .loadImm [.imm]] f ∧
      TreeOp.execAll 8 8 f.compareValue (f.valueCalls [1])
        ⟨⟨fun _ => ⟨none, none, none, .black⟩, none⟩, 0⟩ = .ok r s ∧
      IntrusiveRedBlackTree.forEach 8 8 s = .ok [2, 0] s ∧
        (f.heap.inst 2).id > (f.heap.inst 0).id := by
  obtain ⟨f, hrun, hcount, hvalues⟩ := exists_of_any
    (o := runCalls .plain [.inst .loadImm [.imm], .inst .loadImm [.imm],
      .inst .loadImm [.imm]] (.create 0))
    (Q := fun f => f.valueCount = 3 ∧ f.values.toList = [2, 1, 0]) (by decide +kernel)
  have h : Builds .plain 0 _ f := TypedBuilds.builds (run_of_runCalls hrun)
  obtain ⟨r, s, hcalls, hforEach, hids, -⟩ :=
    value_map_of_build h (fun _ => ⟨none, none, none, .black⟩) 8 8 [1]
    (by simp) (by simp [hvalues]) (by rw [hcount]; decide) (by rw [hcount]; decide)
  rw [(f.destroyHIRValues_spec .plain [1]).1, hvalues] at hforEach hids
  exact ⟨f, r, s, h, hcalls, hforEach, by simpa using hids⟩

end SwiftRuntime.Ir
