import SwiftRuntime.Ir.Sweep
import SwiftRuntime.Ir.Values

/-!
# The tree of dominators

`GetDominator` leads from every block that has one up to the entry, and the entry has none, as long
as the pass follows no edge to the entry: then every update of a dominator moves it up its own
chain, and chains end at the entry. Nothing in the pass keeps it from following such an edge. The
first one makes the entry point to the block that the edge comes from, which leaves a cycle, and a
later one may run round the cycle for ever.

The pass follows the edges of a block when it releases the block. A block that the search comes to
is not released only if it waits for an edge that is never followed, and in the end that is an edge
from a block that cannot be reached (`DominatorSweep.HeldUp`). So the blocks with an edge to the
entry have to be such blocks, or blocks that cannot be reached.
-/

namespace SwiftRuntime.Ir

/-- The entry has no dominator, and going up from every block that has one leads to the entry. -/
def HirFunction.EntryRooted (f : HirFunction) : Prop :=
  (f.block 0).dominator = none ∧
    ∀ b, (f.block b).dominator ≠ none → Ascends (fun b => (f.block b).dominator) b 0

/-- A block that the search comes to, and that has an edge to the entry, waits for an edge from a
block that the search does not come to. -/
def HirFunction.EntryHeldUp (f : HirFunction) : Prop :=
  ∀ d, DepthFirst.Explores f.graph 0 d → ∀ e ∈ f.graph.edges, f.graph.dest e = 0 →
    f.graph.src e ∈ d.finished → DominatorSweep.HeldUp f.graph 0 d (f.graph.src e)

/-- A state of the sweep in which no edge to the entry has been followed. -/
structure RootedSweep (f₀ : HirFunction) (d : DepthFirst.State BlockRef EdgeRef)
    (t : DominatorSweep.State BlockRef EdgeRef) (parent : BlockRef → Option BlockRef) : Prop where
  /-- The sweep keeps its invariant. -/
  invariant : DominatorSweep.Invariant f₀.graph 0 d.back t
  /-- The search has come to the blocks that have been released. -/
  finished : ∀ v ∈ t.released, v ∈ d.finished
  /-- The dominators lead to the entry. -/
  rooted : DominatorSweep.Rooted f₀.graph 0 t.seen parent

section Rooted

variable {P : Platform} {fuel : ℕ} {f₀ f f' : HirFunction} {d : DepthFirst.State BlockRef EdgeRef}
  {t : DominatorSweep.State BlockRef EdgeRef} {u : BlockRef} {e : EdgeRef}

/-- A chain of dominators is not longer than there are blocks. -/
theorem RootedSweep.chain_length_le {parent : BlockRef → Option BlockRef} (hg : Graphed f₀)
    (h : RootedSweep f₀ d t parent) {xs : List BlockRef} (hxs : Chain parent u xs) (h0 : 0 ∈ xs) :
    xs.length ≤ f₀.blockCount := by
  have hsub : xs.Subperm (List.range f₀.blockCount) := by
    refine List.subperm_of_subset hxs.nodup fun x hx => List.mem_range.mpr ?_
    obtain rfl | ⟨e, he, rfl⟩ := h.rooted.mem_chain hxs h0 hx
    · exact hg.pos
    · exact (hg.edge_lt e (h.invariant.scanned.mem_edges he)).2
  simpa using hsub.length_le

/-- An edge to another block than the entry updates the dominator of its target. -/
theorem RootedSweep.update (hg : Graphed f₀) (hfuel : f₀.blockCount < fuel)
    (h : RootedSweep f₀ d t fun b => (f.block b).dominator) (hu : u ∈ t.released)
    (hmem : some (f₀.graph.dest e) ∈ (f.block u).successors) (hne : f₀.graph.dest e ≠ 0) :
    ∃ f', updateDominatorOfSuccessor fuel u (f₀.graph.dest e) f = .ok () f' ∧
      DominatorSweep.Rooted f₀.graph 0 (t.seen ++ [e]) fun b => (f'.block b).dominator := by
  obtain ⟨ys, hys, hy0⟩ := h.rooted.released_chain h.invariant hu
  cases hp : (f.block (f₀.graph.dest e)).dominator with
  -- The first edge puts the block below its source.
  | none =>
    obtain ⟨f', hok, hdominator⟩ := updateDominatorOfSuccessor_ok fuel (d := u) hmem (by rw [hp])
    refine ⟨f', hok, ?_⟩
    rw [hdominator]
    exact h.rooted.first hys hy0 hp hne
  -- A further one moves it up to where the chains meet, on the chain that it had.
  | some p =>
    obtain ⟨xs, hdest, hxs, hx0⟩ := h.rooted.parent_chain hp
    have hxlen := h.chain_length_le hg hxs hx0
    have hylen := h.chain_length_le hg hys hy0
    obtain ⟨q, zs, f', hok, hdominator, hzs, hzmem⟩ :=
      updateDominatorOfSuccessor_meets hmem hp hxs hys
      ⟨0, hx0, hy0⟩ (hxlen.trans_lt hfuel) (hylen.trans_lt hfuel)
    refine ⟨f', hok, ?_⟩
    rw [hdominator]
    exact h.rooted.meet hdest hzs (fun x hx => ((hzmem x).mp hx).1) ((hzmem 0).mpr ⟨hx0, hy0⟩)

/-- An edge from a released block does not go to the entry. -/
theorem RootedSweep.dest_ne {parent : BlockRef → Option BlockRef} (hheld : f₀.EntryHeldUp)
    (hd : DepthFirst.Explores f₀.graph 0 d) (h : RootedSweep f₀ d t parent)
    (he : e ∈ f₀.graph.edges) (hu : f₀.graph.src e ∈ t.released) : f₀.graph.dest e ≠ 0 := fun h0 =>
  h.invariant.not_heldUp h.finished hu (hheld d hd e he h0 (h.finished _ hu))

/-- The sweep keeps the tree. -/
theorem Graphed.rooted_rule (hg : Graphed f₀) (hheld : f₀.EntryHeldUp)
    (hfuel : f₀.blockCount < fuel) (d : DepthFirst.State BlockRef EdgeRef)
    (hd : DepthFirst.Explores f₀.graph 0 d) :
    SweepRule f₀ d fuel (RootedSweep f₀ d) where
  start := ⟨DominatorSweep.invariant_start d.back,
    by simpa [DominatorSweep.start] using hd.explored.closed 0 .refl, DominatorSweep.rooted_nil⟩
  pop t parent u rest ht hstack hnext :=
    ⟨ht.invariant.pop _ hstack hnext, ht.finished, ht.rooted⟩
  update t s f u rest e _ ht hstack hnext hmem := by
    have hu : u ∈ t.released := ht.invariant.stack_sub u (by simp [hstack])
    obtain ⟨hedge, hsrc, -, -⟩ := ht.invariant.scanned.next_spec hnext
    -- A block with an edge to the entry is held up, so that it is not on the stack.
    have hne := ht.dest_ne hheld hd hedge (hsrc ▸ hu)
    obtain ⟨f', hok, hrooted⟩ := ht.update hg hfuel hu hmem hne
    refine ⟨f', hok, ht.invariant.follow hd.explored ht.finished hstack hnext,
      ht.invariant.follow_finished hd.explored ht.finished hstack hnext, ?_⟩
    rw [DominatorSweep.State.follow_seen]
    exact hrooted

/-- If the pass follows an edge, then the target has a dominator when it returns. -/
theorem Graphed.dominator_ne_none (hg : Graphed f₀) (hd : DepthFirst.Explores f₀.graph 0 d)
    (hout : ∀ b < f₀.blockCount, (f₀.block b).outgoing.length < 2 ^ 16)
    (hin : ∀ b < f₀.blockCount, (f₀.block b).incoming.length < 2 ^ 16) (ha : Analysed f₀ f)
    (hback : ∀ b < f₀.blockCount, (f.block b).backEdges = (f₀.graph.into d.back b).map f₀.graph.src)
    (hloop : loopM (computeDominanceBody P fuel) .endless fuel (.start 0) f = .ok () f')
    (he : e ∈ f₀.graph.edges) (hsrc : f₀.graph.src e ∈ d.finished)
    (hfree : ¬ DominatorSweep.HeldUp f₀.graph 0 d (f₀.graph.src e)) :
    (f'.block (f₀.graph.dest e)).dominator ≠ none := by
  have hentry : ∀ v ∈ (DominatorSweep.start 0 : DominatorSweep.State BlockRef EdgeRef).released,
      v ∈ d.finished := by simpa [DominatorSweep.start] using hd.explored.closed 0 .refl
  -- The loop takes the steps of a sweep, and the targets of the edges have dominators.
  have hend := computeDominance_induction
    (fun _ s f => ∃ t, Follows f₀ d t s f ∧ DominatorSweep.Invariant f₀.graph 0 d.back t ∧
      (∀ v ∈ t.released, v ∈ d.finished) ∧
      ∀ e ∈ t.seen, (f.block (f₀.graph.dest e)).dominator ≠ none) ?_
    ⟨_, .start hg ha hback, DominatorSweep.invariant_start d.back, hentry,
      by simp [DominatorSweep.start]⟩
    hloop
  · obtain ⟨s, hw, t, h, hinv, -, hdom⟩ := hend
    have hstack := h.worklist.symm.trans hw
    have hrel := hinv.released_of_not_heldUp hd.explored hstack hsrc hfree
    exact hdom e (hinv.done _ hrel (by simp [hstack]) e he rfl)
  · rintro - s f s' f' ⟨t, h, hinv, hfin, hdom⟩ hbody
    obtain ⟨u, rest, hw⟩ := computeDominanceBody_inl hbody
    have hstack := h.worklist.symm.trans hw
    obtain ⟨t', s1, hs1, h', -, hcases⟩ := h.body_returned hg hstack
      (hout u (h.stack_lt u (by simp [hstack]))) (fun e => h.into_lt hg hin) hbody
    cases hs1
    obtain ⟨hnext, rfl, rfl⟩ | ⟨e', f1, hnext, rfl, hupdate, hblock⟩ := hcases
    · exact ⟨_, h', hinv.pop _ hstack hnext, hfin, hdom⟩
    · obtain ⟨hnew, hold, -, -⟩ := updateDominatorOfSuccessor_spec hupdate
      refine ⟨_, h', hinv.follow hd.explored hfin hstack hnext,
        hinv.follow_finished hd.explored hfin hstack hnext, fun e he => ?_⟩
      rw [DominatorSweep.State.follow_seen] at he
      rw [hblock]
      rcases List.mem_append.mp he with he | he
      · exact hold _ (hdom e he)
      · rw [List.mem_singleton.mp he]
        exact hnew

end Rooted

section Pass

variable {P : Platform} {begin_ : Location} {calls : List Call} {f f' : HirFunction} {fuel : ℕ}

/-- Whenever the pass returns, the targets of the edges of the blocks that are not held up have
dominators. -/
theorem Finishes.dominator_of_not_heldUp (h : Finishes P begin_ calls f)
    (hout : ∀ b < f.blockCount, (f.block b).outgoing.length < 2 ^ 16)
    (hin : ∀ b < f.blockCount, (f.block b).incoming.length < 2 ^ 16)
    (hpass : cfgAnalysisPass P fuel f = .ok () f') :
    ∃ d, DepthFirst.Explores f.graph 0 d ∧ ∀ e ∈ f.graph.edges, f.graph.src e ∈ d.finished →
      ¬ DominatorSweep.HeldUp f.graph 0 d (f.graph.src e) →
      (f'.block (f.graph.dest e)).dominator ≠ none := by
  have hg := h.graphed
  obtain ⟨-, f1, f2, hedges, hsearch, hsweep⟩ := cfgAnalysisPass_ok_iff.mp hpass
  obtain ⟨f1', hedges', ha1, hblock⟩ := hg.findDominateEdges_ok
  rw [hedges] at hedges'
  cases hedges'
  -- The search that the sweep is based on.
  obtain ⟨d, hd, ha2, -, hback, -⟩ := hg.findBackEdges_returned (fun b => h.length_successors) ha1
    hblock (fun b => (h.unanalysed.block b).1) hsearch
  have hloop := (hg.computeDominanceInformation_ok_iff ha2).mp hsweep
  exact ⟨d, hd, fun e => hg.dominator_ne_none hd hout hin ha2 hback hloop⟩

/-- In a finished function whose blocks have less than `2^16` edges in and out: the pass returns,
with a tree of dominators below the entry, exactly if the blocks with an edge to the entry are held
up. -/
theorem entry_rooted_iff (h : Finishes P begin_ calls f) (hP : P.listAsserts = false)
    (hout : ∀ b < f.blockCount, (f.block b).outgoing.length < 2 ^ 16)
    (hin : ∀ b < f.blockCount, (f.block b).incoming.length < 2 ^ 16) :
    (∃ fuel f', cfgAnalysisPass P fuel f = .ok () f' ∧ f'.EntryRooted) ↔ f.EntryHeldUp := by
  constructor
  -- An edge to the entry that is followed gives it a dominator.
  · rintro ⟨fuel, f', hpass, hroot, -⟩ d hd e he h0 hsrc
    by_contra hfree
    obtain ⟨d', hd', hdom⟩ := h.dominator_of_not_heldUp hout hin hpass
    obtain rfl := hd.unique hd'
    exact hdom e he hsrc hfree (by rw [h0]; exact hroot)
  -- If none is, the sweep keeps the tree.
  · intro hheld
    obtain ⟨f', d, t, hok, -, ht, -⟩ := h.pass_ok hP hout hin (Nat.lt_succ_self _)
      (h.graphed.rooted_rule hheld (by omega))
    refine ⟨_, f', hok, ht.rooted.root, fun b hb => ?_⟩
    obtain ⟨p, hp⟩ := Option.ne_none_iff_exists'.mp hb
    obtain ⟨e, he, rfl⟩ := ht.rooted.seen b p hp
    exact ht.rooted.ascends e he

/-- Blocks 0 to 2 with the edges 0 → 1, 1 → 0 and 2 → 1. Block 1 waits for the edge from block 2,
which cannot be reached, so the edge to the entry is not followed. -/
theorem entry_rooted_unreachable :
    ∃ f, Finishes .plain 0 [.linkBlock 1, .linkBlock 0, .appendBlock 2 0, .linkBlock 1] f ∧
      (∃ e ∈ f.graph.edges, f.graph.dest e = 0) ∧
      ∃ fuel f', cfgAnalysisPass .plain fuel f = .ok () f' ∧ f'.EntryRooted := by
  obtain ⟨f, hfin, hedge, hclosed, hback, hcount, hdegree⟩ := exists_of_any
    (o := finish .plain 0 [.linkBlock 1, .linkBlock 0, .appendBlock 2 0, .linkBlock 1])
    (Q := fun f => (∃ e ∈ f.graph.edges, f.graph.dest e = 0) ∧
      (∀ e ∈ f.graph.edges, f.graph.src e ≤ 1 → f.graph.dest e ≤ 1) ∧
      (∀ e ∈ f.graph.edges, f.graph.dest e = 0 → ∃ e' ∈ f.graph.edges,
        f.graph.src e' = 2 ∧ f.graph.dest e' = f.graph.src e ∧ f.graph.src e = 1) ∧
      f.blockCount = 3 ∧
      ∀ b < 3, (f.block b).outgoing.length < 2 ^ 16 ∧ (f.block b).incoming.length < 2 ^ 16)
    (by decide +kernel)
  have h := (typedFinishes_of_finish hfin).finishes
  rw [← hcount] at hdegree
  refine ⟨f, h, hedge, (entry_rooted_iff h rfl (fun b hb => (hdegree b hb).1)
    fun b hb => (hdegree b hb).2).mpr fun d hd e he h0 hsrc => ?_⟩
  -- No edge leads from the first two blocks to the third.
  have hreach : ∀ {a b}, a ≤ 1 → Relation.ReflTransGen (f.graph.AdjExcept d.back) a b → b ≤ 1 := by
    intro a b ha hab
    induction hab with
    | refl => exact ha
    | tail _ hadj ih =>
      obtain ⟨e, he, -, rfl, rfl⟩ := hadj
      exact hclosed e he ih
  obtain ⟨e', he', hsrc', hdest', hone⟩ := hback e he h0
  have hnot : 2 ∉ d.finished := fun hmem =>
    absurd (hreach (Nat.zero_le 1) (hd.explored.reach 2 hmem)) (by decide)
  refine ⟨2, hnot, .single ⟨⟨e', he', fun hb => ?_, hsrc', hdest'⟩, by rw [hone]; decide⟩⟩
  have hle := hreach (by rw [hdest', hone]) (hd.explored.back_reach e' hb)
  rw [hsrc'] at hle
  exact absurd hle (by decide)

/-- An entry that goes to itself becomes its own dominator. -/
theorem entry_dominates_itself :
    ∃ f, Finishes .plain 0 [.linkBlock 0] f ∧
      (∀ b < f.blockCount,
        (f.block b).outgoing.length < 2 ^ 16 ∧ (f.block b).incoming.length < 2 ^ 16) ∧
      (∃ f', cfgAnalysisPass .plain 10 f = .ok () f' ∧ (f'.block 0).dominator = some 0) ∧
      ¬ ∃ fuel f', cfgAnalysisPass .plain fuel f = .ok () f' ∧ f'.EntryRooted := by
  obtain ⟨f, hfin, hedge, hcount, hdegree, hpass⟩ := exists_of_any
    (o := finish .plain 0 [.linkBlock 0])
    (Q := fun f => (∃ e ∈ f.graph.edges, f.graph.src e = 0 ∧ f.graph.dest e = 0) ∧
      f.blockCount = 1 ∧
      (∀ b < 1, (f.block b).outgoing.length < 2 ^ 16 ∧ (f.block b).incoming.length < 2 ^ 16) ∧
      ((returned (cfgAnalysisPass .plain 10 f)).any fun f' =>
        (f'.block 0).dominator = some 0) = true)
    (by decide +kernel)
  have h := (typedFinishes_of_finish hfin).finishes
  rw [← hcount] at hdegree
  obtain ⟨g, hg, hdominator⟩ := exists_of_any hpass
  refine ⟨f, h, hdegree, ⟨g, returned_eq_some_iff.mp hg, hdominator⟩, ?_⟩
  rintro ⟨fuel, f', hok, hroot, -⟩
  obtain ⟨d, hd, hdom⟩ := h.dominator_of_not_heldUp (fun b hb => (hdegree b hb).1)
    (fun b hb => (hdegree b hb).2) hok
  obtain ⟨e, he, hsrc, hdest⟩ := hedge
  have hentry : 0 ∈ d.finished := hd.explored.closed 0 .refl
  -- The entry itself is not held up.
  refine hdom e he (hsrc ▸ hentry) ?_ (by rw [hdest]; exact hroot)
  rw [hsrc]
  exact DominatorSweep.not_heldUp_entry hentry

end Pass

end SwiftRuntime.Ir
