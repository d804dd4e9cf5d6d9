import SwiftRuntime.Ir.Rejected
import Mathlib.Data.List.Find
import Mathlib.Data.List.TakeWhile

/-!
# Branches to blocks that exist

`If`, `Switch` and `LinkBlock` find the blocks of their branches with `AppendBlock`, whose second
parameter is the end of the block. They leave it out, so the end of a block that exists already is
set to the default, location zero. `Branched` says what linking the branches to some locations does
to the blocks that were there: those at the locations get another end, and incoming edges may be
added. Apart from the end, a branch leaves the blocks that it goes to alone.
-/

namespace SwiftRuntime.Ir

namespace Call

/-- Whether a call is an `If`, a `Switch` or a `LinkBlock`. -/
def isBranch : Call → Bool
  | if_ _ _ _ | switch _ _ | linkBlock _ => true
  | _ => false

/-- The locations that the branches of a call go to. -/
def branches : Call → List Location
  | if_ _ then_ else_ => [else_, then_].filterMap Terminal.next
  | switch _ cases => cases.filterMap Terminal.next
  | linkBlock next => [next]
  | _ => []

/-- Those for which the call comes to look up a block: a branch without a location stops it
before. -/
def reached : Call → List Location
  | if_ _ then_ else_ =>
    if else_.next.isSome ∧ then_.next.isSome then [else_, then_].filterMap Terminal.next else []
  | switch _ cases => (cases.takeWhile (·.next.isSome)).filterMap Terminal.next
  | linkBlock next => [next]
  | _ => []

/-- The locations that are looked up are among those that are branched to. -/
theorem mem_branches_of_reached {c : Call} {loc : Location} (h : loc ∈ c.reached) :
    loc ∈ c.branches := by
  cases c with
  | if_ cond then_ else_ =>
    rw [reached] at h
    split_ifs at h
    · exact h
    · cases h
  | switch value cases =>
    obtain ⟨t, ht, hloc⟩ := List.mem_filterMap.mp h
    exact List.mem_filterMap.mpr ⟨t, List.takeWhile_subset _ ht, hloc⟩
  | linkBlock next => exact h
  | inst op args => exact h
  | appendBlock start endLoc => exact h

end Call

/-- From `f` to `f'` the block `pre` has been linked to blocks at some locations. -/
structure Branched (pre : BlockRef) (locs : List Location) (f f' : HirFunction) : Prop where
  /-- No block is lost. -/
  count_le : f.blockCount ≤ f'.blockCount
  /-- The blocks that were there are found at the same locations. -/
  find : ∀ loc, ∀ t < f.blockCount, f'.findBlock loc = some t ↔ f.findBlock loc = some t
  /-- The blocks at the locations have lost their end. -/
  block : ∀ t < f.blockCount, t ≠ pre → f'.block t = { f.block t with
    endLoc := if some t ∈ locs.map f.findBlock then 0 else (f.block t).endLoc
    incoming := (f'.block t).incoming }
  /-- Incoming edges have been added. -/
  incoming : ∀ t < f.blockCount, (f.block t).incoming <+: (f'.block t).incoming

/-- A block is as before, but for more incoming edges. -/
structure Unaltered (x x' : HirBlock) : Prop where
  /-- The location. -/
  start : x'.start = x.start
  /-- The end. -/
  endLoc : x'.endLoc = x.endLoc
  /-- The instructions. -/
  insts : x'.insts = x.insts
  /-- The terminal. -/
  terminal : x'.terminal = x.terminal
  /-- The order id. -/
  orderId : x'.orderId = x.orderId
  /-- The outgoing edges. -/
  outgoing : x'.outgoing = x.outgoing
  /-- The incoming edges. -/
  incoming : x.incoming <+: x'.incoming

section Branched

variable {f f' f'' : HirFunction} {pre : BlockRef} {locs locs' : List Location}

/-- Where blocks are found is a matter of their locations. -/
theorem findBlock_congr (hcount : f'.blockCount = f.blockCount)
    (hstart : ∀ b, (f'.block b).start = (f.block b).start) (loc : Location) :
    f'.findBlock loc = f.findBlock loc := by
  simp only [HirFunction.findBlock, hcount, hstart]

/-- What leaves the other blocks alone up to their incoming edges. -/
theorem branched_of_same (hcount : f'.blockCount = f.blockCount)
    (hblock : ∀ t, t ≠ pre → f'.block t = { f.block t with incoming := (f'.block t).incoming })
    (hstart : (f'.block pre).start = (f.block pre).start)
    (hincoming : ∀ t, (f.block t).incoming <+: (f'.block t).incoming) : Branched pre [] f f' where
  count_le := hcount.ge
  find loc t _ := by
    rw [findBlock_congr hcount fun b => ?_]
    by_cases hb : b = pre
    · rw [hb, hstart]
    · rw [hblock b hb]
  block t _ ht := by
    simpa using hblock t ht
  incoming t _ := hincoming t

/-- One part of a branch after another. -/
theorem Branched.trans (h1 : Branched pre locs f f') (h2 : Branched pre locs' f' f'') :
    Branched pre (locs ++ locs') f f'' where
  count_le := h1.count_le.trans h2.count_le
  find loc t ht := (h2.find loc t (ht.trans_le h1.count_le)).trans (h1.find loc t ht)
  block t ht hne := by
    have hmem : some t ∈ locs'.map f'.findBlock ↔ some t ∈ locs'.map f.findBlock := by
      simp only [List.mem_map, h1.find _ t ht]
    rw [h2.block t (ht.trans_le h1.count_le) hne, h1.block t ht hne]
    simp only [hmem, List.map_append, List.mem_append]
    by_cases hlater : some t ∈ locs'.map f.findBlock
    · simp only [hlater, or_true, if_true]
    · simp only [hlater, or_false, if_false]
  incoming t ht := (h1.incoming t ht).trans (h2.incoming t (ht.trans_le h1.count_le))

/-- Using the condition. -/
theorem branched_used (v : InstRef) : Branched pre [] f (f.used v) :=
  branched_of_same rfl (fun _ _ => rfl) rfl fun _ => List.prefix_rfl

/-- Ending the current block. -/
theorem branched_ended (t : Terminal) : Branched pre [] f (f.ended pre t) := by
  refine branched_of_same rfl (fun x hx => ?_) ?_ fun x => ?_
  · rw [f.ended_block, if_neg hx]
  · rw [f.ended_block]
  · simp [f.ended_block]

/-- An edge from the current block. -/
theorem branched_addEdge (dest : BlockRef) (conditional : Bool) :
    Branched pre [] f (f.addEdge pre dest conditional) := by
  refine branched_of_same rfl (fun x hx => ?_) ?_ fun x => ?_
  · rw [f.addEdge_block, if_neg hx, List.append_nil]
  · rw [f.addEdge_block]
  · rw [f.addEdge_block]
    exact List.prefix_append _ _

/-- `AppendBlock` without an end. -/
theorem branched_appendBlock (loc : Location) : Branched pre [loc] f (f.appendBlock loc 0).2 := by
  cases hfind : f.findBlock loc with
  | some b =>
    have heq : f.appendBlock loc 0 = (b, f.selected b 0) := by
      rw [HirFunction.appendBlock, HirFunction.createOrGetBlock, hfind]
      rfl
    rw [heq]
    refine ⟨le_rfl, fun l t _ => ?_, fun t _ _ => ?_, fun t _ => ?_⟩
    · have hcount : (f.selected b 0).blockCount = f.blockCount := rfl
      rw [findBlock_congr hcount (fun x => by rw [f.selected_block]) l]
    · rw [f.selected_block]
      simp [hfind, eq_comm]
    · simp [f.selected_block]
  | none =>
    have heq : f.appendBlock loc 0 = (f.blockCount, f.grown loc 0) := by
      rcases f.appendBlock_cases loc 0 with ⟨b, hb, hstart, -⟩ | ⟨-, heq⟩
      · have := List.find?_eq_none.mp hfind b (List.mem_range.mpr hb)
        simp [hstart] at this
      · exact heq
    rw [heq]
    refine ⟨Nat.le_succ _, fun l t ht => ?_, fun t ht _ => ?_, fun t ht => ?_⟩
    · -- The new block is looked at after the others.
      have hold : ∀ b ∈ List.range f.blockCount, ((f.grown loc 0).block b).start =
          (f.block b).start :=
        fun b hb => by rw [f.grown_block (List.mem_range.mp hb)]
      have happ : (f.grown loc 0).findBlock l = (f.findBlock l).or
          ([f.blockCount].find? fun b => ((f.grown loc 0).block b).start = l) := by
        rw [HirFunction.findBlock, show (f.grown loc 0).blockCount = f.blockCount + 1 from rfl,
          List.range_succ, List.find?_append]
        congr 1
        exact List.find?_congr fun b hb => by rw [hold b hb]
      rw [happ]
      cases f.findBlock l with
      | some b => rfl
      | none =>
        simp only [Option.none_or, List.find?_singleton]
        split_ifs
        · simpa using Nat.ne_of_gt ht
        · rfl
    · rw [f.grown_block ht]
      simp [hfind]
    · simp [f.grown_block ht]

/-- Selecting a block and adding the edge to it. -/
theorem branched_link (loc : Location) (conditional : Bool) :
    Branched pre [loc] f (f.link pre conditional loc) :=
  (branched_appendBlock loc).trans (branched_addEdge _ _)

/-- The cases of `Switch`. -/
theorem branched_foldl (locs : List Location) (conditional : Bool) :
    Branched pre locs f (locs.foldl (HirFunction.link pre conditional) f) := by
  induction locs generalizing f with
  | nil => exact branched_of_same rfl (fun _ _ => rfl) rfl fun _ => List.prefix_rfl
  | cons loc locs ih => exact (branched_link loc conditional).trans ih

/-- What a branch does to the blocks that were there, whether it returns or not. -/
theorem branched_exec (P : Platform) {c : Call} (hc : c.isBranch = true)
    (hcur : f.current = some pre) : Branched pre c.reached f (leaves (c.exec P) f) := by
  cases c with
  -- `If` selects both blocks before it adds an edge, and neither if a location is missing.
  | if_ cond then_ else_ =>
    have hended : Branched pre ([] ++ []) f ((f.used cond).ended pre (.if_ cond then_ else_)) :=
      (branched_used cond).trans (branched_ended _)
    rw [leaves, Call.exec, buildIf_eq hcur, Call.reached]
    cases helse : else_.next with
    | none => exact hended
    | some elseLoc =>
      cases hthen : then_.next with
      | none => exact hended
      | some thenLoc =>
        rw [if_pos ⟨rfl, rfl⟩, List.filterMap_cons_some helse, List.filterMap_cons_some hthen]
        exact (((hended.trans (branched_appendBlock elseLoc)).trans
          (branched_appendBlock thenLoc)).trans (branched_addEdge _ _)).trans (branched_addEdge _ _)
  -- `Switch` comes to the first case without a location.
  | switch value cases =>
    have hended : Branched pre ([] ++ []) f ((f.used value).ended pre (.switch value cases)) :=
      (branched_used value).trans (branched_ended _)
    rw [leaves, Call.exec, buildSwitch_eq hcur, forM_buildCase, Call.reached]
    split_ifs with hall
    · have hwhole : cases.takeWhile (·.next.isSome) = cases :=
        List.takeWhile_eq_self_iff.mpr (List.all_eq_true.mp hall)
      rw [hwhole]
      exact hended.trans (branched_foldl _ _)
    · exact hended.trans (branched_foldl _ _)
  | linkBlock next =>
    have hend : endBlock (.linkBlock next) f = .ok pre (f.ended pre (.linkBlock next)) :=
      endBlock_ok_iff.mpr ⟨hcur, rfl⟩
    rw [Call.exec, buildLinkBlock, leaves_bind_ok hend]
    exact (branched_ended (.linkBlock next)).trans (branched_link next false)
  | inst op args => cases hc
  | appendBlock start endLoc => cases hc

/-- In every state with a current block, an `If`, `Switch` or `LinkBlock` leaves the existing blocks
that its branches go to, other than the one that it ends, as they are but for more incoming edges,
if and only if those of them that it looks up have location zero as their end. -/
theorem branch_target_unaltered_iff (P : Platform) {c : Call} (hc : c.isBranch = true)
    (hcur : f.current = some pre) :
    (∀ loc ∈ c.branches, ∀ t, f.findBlock loc = some t → t ≠ pre →
        Unaltered (f.block t) ((leaves (c.exec P) f).block t)) ↔
      ∀ loc ∈ c.reached, ∀ t, f.findBlock loc = some t → t ≠ pre → (f.block t).endLoc = 0 := by
  have hb := branched_exec P hc hcur
  constructor
  -- A block that is looked up gets location zero as its end.
  · intro hall loc hloc t hfind hne
    have hsame := (hall loc (Call.mem_branches_of_reached hloc) t hfind hne).endLoc
    rw [hb.block t (f.findBlock_spec hfind).1 hne] at hsame
    rw [← hsame]
    exact if_pos (List.mem_map.mpr ⟨loc, hloc, hfind⟩)
  -- The other fields of a block are left alone.
  · intro hzero loc _ t hfind hne
    have ht := (f.findBlock_spec hfind).1
    have hblock := hb.block t ht hne
    refine ⟨by rw [hblock], ?_, by rw [hblock], by rw [hblock], by rw [hblock], by rw [hblock],
      hb.incoming t ht⟩
    rw [hblock]
    dsimp only
    split_ifs with hmem
    · obtain ⟨loc', hloc', hfind'⟩ := List.mem_map.mp hmem
      exact (hzero loc' hloc' t hfind' hne).symm
    · rfl

/-- A link to a block that was created without an end. -/
theorem branch_target_unaltered_link :
    ∃ f, TypedBuilds .plain 0 [.appendBlock 4 0, .appendBlock 0 0] f ∧ f.current = some 0 ∧
      f.findBlock 4 = some 1 ∧
      Unaltered (f.block 1) ((leaves ((Call.linkBlock 4).exec .plain) f).block 1) := by
  obtain ⟨f, hrun, hcur, hfind, hend⟩ := exists_of_any
    (o := runCalls .plain [.appendBlock 4 0, .appendBlock 0 0] (.create 0))
    (Q := fun f => f.current = some 0 ∧ f.findBlock 4 = some 1 ∧ (f.block 1).endLoc = 0)
    (by decide +kernel)
  refine ⟨f, run_of_runCalls hrun, hcur, hfind, (branch_target_unaltered_iff .plain
    (c := .linkBlock 4) rfl hcur).mpr (fun loc hloc t ht _ => ?_) 4 List.mem_cons_self 1 hfind
    (by decide)⟩
  rw [List.mem_singleton.mp hloc, hfind] at ht
  cases ht
  exact hend

/-- A link to a block that was created with an end takes the end away. -/
theorem branch_target_loses_end :
    ∃ f f', TypedBuilds .plain 0 [.appendBlock 4 8, .appendBlock 0 0] f ∧
      (Call.linkBlock 4).exec .plain f = .ok () f' ∧ f.findBlock 4 = some 1 ∧
      f.current = some 0 ∧ (f.block 1).endLoc = 8 ∧ (f'.block 1).endLoc = 0 := by
  obtain ⟨f, hrun, hcur, hfind, hend, hlink⟩ := exists_of_any
    (o := runCalls .plain [.appendBlock 4 8, .appendBlock 0 0] (.create 0))
    (Q := fun f => f.current = some 0 ∧ f.findBlock 4 = some 1 ∧ (f.block 1).endLoc = 8 ∧
      ((returned ((Call.linkBlock 4).exec .plain f)).any fun f' => (f'.block 1).endLoc = 0) = true)
    (by decide +kernel)
  obtain ⟨f', hf', hend'⟩ := exists_of_any hlink
  exact ⟨f, f', run_of_runCalls hrun, returned_eq_some_iff.mp hf', hfind, hcur, hend, hend'⟩

end Branched

end SwiftRuntime.Ir
