import SwiftRuntime.Ir.Sweep
import SwiftRuntime.Ir.Values

/-!
# The dominators that the analysis finds

`CFGAnalysisPass` on a finished function is a depth-first search and a sweep over the graph of the
function's edges, and `CommonDominator` finds where two chains of dominators meet. So the pass
returns, and the dominators are immediate dominators, if no block has `2^16` edges and no edge that
the search finds to lead back raises a dominator, as in every reducible graph.

In general they are not. A back edge is followed last of all edges to its block. If it raises the
dominator of the block, then the dominators of the blocks after it have been found with the old one.
-/

namespace SwiftRuntime.Ir

open FlowGraph

/-! ## The sweep -/

/-- The loop of `ComputeDominanceInformation` takes the steps of a sweep: how its state and the
function go with a state of the sweep after the search that has come to `d`. -/
structure Sweeps (f₀ : HirFunction) (d : DepthFirst.State BlockRef EdgeRef)
    (t : DominatorSweep.State BlockRef EdgeRef) (s : Sweep) (f : HirFunction) : Prop where
  /-- What the pass leaves alone. -/
  analysed : Analysed f₀ f
  /-- The sweep keeps its invariant. -/
  invariant : DominatorSweep.Invariant f₀.graph 0 d.back t
  /-- The dominators are the parents of the sweep. -/
  dominators : DominatorSweep.Dominators f₀.graph 0 d.back t.seen fun b => (f.block b).dominator
  /-- The back edges are those of the search. -/
  backEdges : ∀ b < f₀.blockCount,
    (f.block b).backEdges.length = (f₀.graph.into d.back b).length
  /-- `worklist` is the stack. -/
  worklist : s.worklist = t.stack
  /-- `visits` counts the edges to a block that have been followed. -/
  visits : ∀ b < f₀.blockCount, s.visits b = (f₀.graph.into t.seen b).length
  /-- `successors_visited` counts the edges of a block that have been followed. -/
  successorsVisited : ∀ b < f₀.blockCount,
    s.successorsVisited b = (f₀.graph.outOf t.seen b).length

/-- A state of the sweep, and the dominators. -/
theorem Follows.sweeps {f₀ f : HirFunction} {d : DepthFirst.State BlockRef EdgeRef}
    {t : DominatorSweep.State BlockRef EdgeRef} {s : Sweep} (h : Follows f₀ d t s f)
    (hinv : DominatorSweep.Invariant f₀.graph 0 d.back t)
    (hdom : DominatorSweep.Dominators f₀.graph 0 d.back t.seen fun b => (f.block b).dominator) :
    Sweeps f₀ d t s f where
  analysed := h.analysed
  invariant := hinv
  dominators := hdom
  backEdges b hb := by rw [h.backEdges b hb, List.length_map]
  worklist := h.worklist
  visits := h.visits
  successorsVisited := h.successorsVisited

namespace Sweeps

variable {fuel : ℕ} {f₀ f : HirFunction} {d : DepthFirst.State BlockRef EdgeRef}
  {t : DominatorSweep.State BlockRef EdgeRef} {s : Sweep} {u : BlockRef} {e : EdgeRef}

/-- Only blocks are released. -/
theorem released_lt (h : Sweeps f₀ d t s f) (hg : Graphed f₀) {v : BlockRef}
    (hv : v ∈ t.released) : v < f₀.blockCount := by
  by_cases hve : v = 0
  · exact hve ▸ hg.pos
  · obtain ⟨⟨w, e, he, -, -, rfl⟩, -⟩ := (h.invariant.released_iff v hve).mp hv
    exact (hg.edge_lt e he).2

/-- A chain of released blocks is not longer than there are blocks. -/
theorem chain_length_le (h : Sweeps f₀ d t s f) (hg : Graphed f₀) {xs : List BlockRef}
    (hxs : Chain (fun b => (f.block b).dominator) u xs) (hrel : ∀ x ∈ xs, x ∈ t.released) :
    xs.length ≤ f₀.blockCount := by
  have hsub : xs.Subperm (List.range f₀.blockCount) := List.subperm_of_subset hxs.nodup
    fun x hx => List.mem_range.mpr (h.released_lt hg (hrel x hx))
  simpa using hsub.length_le

section Follow

variable (hg : Graphed f₀) (hd : DepthFirst.Explored f₀.graph 0 d)
  (hentry : ∀ e ∈ f₀.graph.edges, f₀.graph.dest e ≠ 0)
  (hsrc : ∀ e ∈ f₀.graph.edges, f₀.graph.src e ∈ d.finished)
  (hkeep : DominatorSweep.Keeps f₀.graph 0 d.back) (hfuel : f₀.blockCount < fuel)

include hg hd hentry hsrc hkeep hfuel in
/-- An edge updates the dominator of its target. -/
theorem update (h : Sweeps f₀ d t s f) (hu : u ∈ t.released)
    (hnext : f₀.graph.next t.seen u = some e)
    (hmem : some (f₀.graph.dest e) ∈ (f.block u).successors) :
    ∃ f', updateDominatorOfSuccessor fuel u (f₀.graph.dest e) f = .ok () f' ∧
      DominatorSweep.Dominators f₀.graph 0 d.back (t.seen ++ [e])
        fun b => (f'.block b).dominator := by
  cases hp : (f.block (f₀.graph.dest e)).dominator with
  -- The first edge to a block makes its source the dominator.
  | none =>
    obtain ⟨f', hok, hdominator⟩ := updateDominatorOfSuccessor_ok fuel (d := u) hmem (by rw [hp])
    refine ⟨f', hok, ?_⟩
    rw [hdominator]
    exact h.dominators.first hd hentry hsrc h.invariant hnext hu hp
  -- A further one makes it the nearest common dominator, where the two chains meet.
  | some p =>
    obtain ⟨xs, ys, hxs, hys, hx0, hy0, -, -, hxrel, hyrel⟩ :=
      h.dominators.chains hd hentry hsrc h.invariant hu hp
    have hxlen := h.chain_length_le hg hxs hxrel
    have hylen := h.chain_length_le hg hys hyrel
    obtain ⟨q, zs, f', hok, hdominator, hzs, hzmem⟩ :=
      updateDominatorOfSuccessor_meets hmem hp hxs hys
      ⟨0, hx0, hy0⟩ (hxlen.trans_lt hfuel) (hylen.trans_lt hfuel)
    refine ⟨f', hok, ?_⟩
    rw [hdominator]
    exact h.dominators.meet hd hentry hsrc h.invariant hkeep hnext hu hp hxs hys hzs hzmem

end Follow

end Sweeps

/-! ## The pass -/

/-- No edge that a depth-first search, with the edges of a block in order, finds to lead back raises
a dominator: what strictly dominates its target along the other edges dominates its source along
them. -/
def HirFunction.KeepsDominators (f : HirFunction) : Prop :=
  ∀ d, DepthFirst.Explores f.graph 0 d → DominatorSweep.Keeps f.graph 0 d.back

section Pass

variable {P : Platform} {begin_ : Location} {calls : List Call} {f f₀ : HirFunction} {fuel : ℕ}

/-- It is so in a reducible graph. -/
theorem Graphed.keepsDominators (hg : Graphed f)
    (hreach : ∀ b < f.blockCount, Reachable f.graph.Adj 0 b)
    (hred : Reducible f.graph.Adj 0) : f.KeepsDominators := by
  intro d hd
  have hsrc : ∀ e ∈ f.graph.edges, f.graph.src e ∈ d.finished := fun e he =>
    mem_finished hreach hd.explored (hg.edge_lt e he).1
  exact DominatorSweep.keeps_of_reducible hd.explored hsrc hred

/-- Where no back edge raises a dominator, a sweep keeps the dominators along the other edges. -/
theorem Graphed.dominators_rule (hg : Graphed f₀)
    (hreach : ∀ b < f₀.blockCount, Reachable f₀.graph.Adj 0 b)
    (hentry : ∀ e ∈ f₀.graph.edges, f₀.graph.dest e ≠ 0) (hkeeps : f₀.KeepsDominators)
    (hfuel : f₀.blockCount < fuel) (d : DepthFirst.State BlockRef EdgeRef)
    (hd : DepthFirst.Explores f₀.graph 0 d) :
    SweepRule f₀ d fuel fun t parent => DominatorSweep.Invariant f₀.graph 0 d.back t ∧
      DominatorSweep.Dominators f₀.graph 0 d.back t.seen parent where
  start := ⟨DominatorSweep.invariant_start d.back, DominatorSweep.dominators_nil d.back⟩
  pop t parent u rest hR hstack hnext := ⟨hR.1.pop _ hstack hnext, hR.2⟩
  update t s f u rest e ht hR hstack hnext hmem := by
    -- All blocks can be reached, so the search has finished them.
    have hsrc : ∀ e ∈ f₀.graph.edges, f₀.graph.src e ∈ d.finished := fun e he =>
      mem_finished hreach hd.explored (hg.edge_lt e he).1
    have hu : u ∈ t.released := hR.1.stack_sub u (by simp [hstack])
    obtain ⟨f1, hok, hdom⟩ := (ht.sweeps hR.1 hR.2).update hg hd.explored hentry hsrc (hkeeps d hd)
      hfuel hu hnext hmem
    refine ⟨f1, hok, hR.1.follow hd.explored (fun _ => hR.1.finished hd.explored hsrc) hstack hnext,
      ?_⟩
    rw [DominatorSweep.State.follow_seen]
    exact hdom

/-- In a finished function whose blocks can all be reached from an entry that no edge goes to, where
no block has `2^16` edges in or out, and where no back edge raises a dominator: the pass returns,
and the dominator of every block but the entry is its immediate dominator. -/
theorem dominators_immediate (h : Finishes P begin_ calls f) (hP : P.listAsserts = false)
    (hreach : ∀ b < f.blockCount, Reachable f.graph.Adj 0 b)
    (hentry : ∀ e ∈ f.graph.edges, f.graph.dest e ≠ 0)
    (hout : ∀ b < f.blockCount, (f.block b).outgoing.length < 2 ^ 16)
    (hin : ∀ b < f.blockCount, (f.block b).incoming.length < 2 ^ 16)
    (hkeeps : f.KeepsDominators) (hfuel : f.blockCount + 2 * f.edgeCount + 1 < fuel) :
    ∃ f', cfgAnalysisPass P fuel f = .ok () f' ∧ ∀ b < f.blockCount, b ≠ 0 →
      ∃ d, (f'.block b).dominator = some d ∧ IsIdom f.graph.Adj 0 d b := by
  have hg := h.graphed
  have hblocks : f.blockCount < fuel := by omega
  obtain ⟨f', d, t, hok, hd, ⟨hinv, hdom⟩, hend, -, -⟩ := h.pass_ok hP hout hin hfuel
    (hg.dominators_rule hreach hentry hkeeps hblocks)
  have hsrc : ∀ e ∈ f.graph.edges, f.graph.src e ∈ d.finished := fun e he =>
    Graphed.mem_finished hreach hd.explored (hg.edge_lt e he).1
  exact ⟨f', hok, fun b hb hb0 => hdom.isIdom hd.explored hentry hsrc hinv (hkeeps d hd) hend
    (Graphed.mem_finished hreach hd.explored hb) hb0⟩

/-- Two ways to a block that goes back to itself or on: the entry is the immediate dominator of the
block, which is the one of the next. -/
theorem dominators_immediate_loop :
    ∃ f f', Finishes .plain 0 [.inst .loadImm [.imm], .if_ 0 (.linkBlock 1) (.linkBlock 2),
        .appendBlock 1 0, .linkBlock 3, .appendBlock 2 0, .linkBlock 3,
        .if_ 0 (.linkBlock 3) (.linkBlock 4)] f ∧
      cfgAnalysisPass .plain 20 f = .ok () f' ∧
      (f'.block 3).dominator = some 0 ∧ (f'.block 4).dominator = some 3 ∧
      ∀ b < f.blockCount, b ≠ 0 →
        ∃ d, (f'.block b).dominator = some d ∧ IsIdom f.graph.Adj 0 d b := by
  obtain ⟨f, hfin, hcount, hpath, hup, hentry, hdegree, hpass⟩ := exists_of_any
    (o := finish .plain 0 [.inst .loadImm [.imm], .if_ 0 (.linkBlock 1) (.linkBlock 2),
      .appendBlock 1 0, .linkBlock 3, .appendBlock 2 0, .linkBlock 3,
      .if_ 0 (.linkBlock 3) (.linkBlock 4)])
    (Q := fun f => (f.blockCount = 5 ∧ f.edgeCount = 6) ∧
      (∀ b < 5, IsPath f.graph.Adj 0 ([[], [0], [0], [0, 1], [0, 1, 3]].getD b [] ++ [b])) ∧
      (∀ e ∈ f.graph.edges, f.graph.src e ≤ f.graph.dest e) ∧
      (∀ e ∈ f.graph.edges, f.graph.dest e ≠ 0) ∧
      (∀ b < 5, (f.block b).outgoing.length < 2 ^ 16 ∧ (f.block b).incoming.length < 2 ^ 16) ∧
      ((returned (cfgAnalysisPass .plain 20 f)).any fun f' =>
        (f'.block 3).dominator = some 0 ∧ (f'.block 4).dominator = some 3) = true)
    (by decide +kernel)
  have h := (typedFinishes_of_finish hfin).finishes
  rw [← hcount.1] at hpath hdegree
  have hreach : ∀ b < f.blockCount, Reachable f.graph.Adj 0 b := fun b hb => ⟨_, hpath b hb⟩
  -- The only edge that does not go up goes from a block to itself.
  have hred : Reducible f.graph.Adj 0 := by
    have hlt : ∀ u w, f.graph.Adj u w ∧ ¬ Dominates f.graph.Adj 0 w u → u < w := by
      rintro u w ⟨⟨e, he, rfl, rfl⟩, hdom⟩
      exact lt_of_le_of_ne (hup e he) fun heq => hdom (heq ▸ dominates_refl)
    intro v hv
    have hvw : ∀ {w}, Relation.TransGen
        (fun u w => f.graph.Adj u w ∧ ¬ Dominates f.graph.Adj 0 w u) v w → v < w := by
      intro w hw
      induction hw with
      | single hadj => exact hlt _ _ hadj
      | tail _ hadj ih => exact ih.trans (hlt _ _ hadj)
    exact lt_irrefl v (hvw hv)
  have hfuel : f.blockCount + 2 * f.edgeCount + 1 < 20 := by
    rw [hcount.1, hcount.2]
    decide
  obtain ⟨f', hok, hidom⟩ := dominators_immediate h rfl hreach hentry
    (fun b hb => (hdegree b hb).1) (fun b hb => (hdegree b hb).2)
    (h.graphed.keepsDominators hreach hred) hfuel
  obtain ⟨g, hg, h3, h4⟩ := exists_of_any hpass
  obtain rfl : f' = g := by
    rw [returned_eq_some_iff, hok] at hg
    cases hg
    rfl
  exact ⟨f, f', h, hok, h3, h4, hidom⟩

/-- Blocks 0 to 5 with the edges 0 → 2, 0 → 1, 2 → 4, 2 → 3, 4 → 1, 4 → 5, 1 → 4 and 3 → 5. The edge
from 1 to 4 is found to lead back. When it raises the dominator of 4 to 0, the dominator of 5 is
settled at 2, which is not on the path 0, 1, 4, 5. -/
theorem dominator_not_raised :
    ¬ ∀ (P : Platform) (begin_ : Location) (calls : List Call) (f f' : HirFunction) (fuel : ℕ),
      Finishes P begin_ calls f → (∀ b < f.blockCount, Reachable f.graph.Adj 0 b) →
      (∀ e ∈ f.graph.edges, f.graph.dest e ≠ 0) → cfgAnalysisPass P fuel f = .ok () f' →
      ∀ b < f.blockCount, b ≠ 0 →
        ∃ d, (f'.block b).dominator = some d ∧ IsIdom f.graph.Adj 0 d b := by
  intro h
  obtain ⟨f, hfin, hcount, hpath, hentry, hpass⟩ := exists_of_any
    (o := finish .plain 0 [.inst .loadImm [.imm], .if_ 0 (.linkBlock 1) (.linkBlock 2),
      .appendBlock 1 0, .if_ 0 (.linkBlock 3) (.linkBlock 4), .appendBlock 3 0,
      .if_ 0 (.linkBlock 2) (.linkBlock 5), .appendBlock 2 0, .linkBlock 3, .appendBlock 4 0,
      .linkBlock 5])
    (Q := fun f => f.blockCount = 6 ∧
      (∀ b < 6, IsPath f.graph.Adj 0
        ([[], [0], [0], [0, 2], [0, 1], [0, 1, 4]].getD b [] ++ [b])) ∧
      (∀ e ∈ f.graph.edges, f.graph.dest e ≠ 0) ∧
      ((returned (cfgAnalysisPass .plain 30 f)).any fun f' =>
        (f'.block 5).dominator = some 2) = true)
    (by decide +kernel)
  obtain ⟨f', hf', hdominator⟩ := exists_of_any hpass
  have hpath5 := hpath 5 (by decide)
  rw [← hcount] at hpath
  obtain ⟨d, hd, hidom⟩ := h _ _ _ f f' 30 (typedFinishes_of_finish hfin).finishes
    (fun b hb => ⟨_, hpath b hb⟩) hentry (returned_eq_some_iff.mp hf') 5
    (by rw [hcount]; decide) (by decide)
  -- The pass has made block 2 the dominator of block 5.
  obtain rfl : 2 = d := Option.some.inj (hdominator.symm.trans hd)
  exact absurd (hidom.dominates _ hpath5) (by decide)

end Pass

end SwiftRuntime.Ir
