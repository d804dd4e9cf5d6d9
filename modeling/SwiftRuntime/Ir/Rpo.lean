import SwiftRuntime.Ir.BlockLists
import SwiftRuntime.Ir.DominatorTree

/-!
# The order in which the analysis releases blocks

If every block can be reached and no edge goes to the entry, then `ComputeDominanceInformation` puts
every block but the entry into `blocks_rpo` once. A block comes after all blocks that have an edge
to it, other than the entry and than the blocks that `FindBackEdges` has recorded with it. So the
order is a topological order of what remains of the graph.

This is the order of the calls of `push_back`, which make the links of `blocks_rpo` what they are
after the pass. What an iteration over the list then meets is another matter, since the blocks are
in `block_list` through the same nodes (`lists_kept_iff`).
-/

namespace SwiftRuntime.Ir

open FlowGraph

section Order

variable {P : Platform} {begin_ : Location} {calls : List Call} {f f₀ : HirFunction} {fuel : ℕ}

/-- The sweep keeps the order, if no edge goes to the entry. -/
theorem Graphed.ordered_rule (hg : Graphed f₀) (hentry : ∀ e ∈ f₀.graph.edges, f₀.graph.dest e ≠ 0)
    (hfuel : f₀.blockCount < fuel) (d : DepthFirst.State BlockRef EdgeRef)
    (hd : DepthFirst.Explores f₀.graph 0 d) :
    SweepRule f₀ d fuel fun t parent =>
      RootedSweep f₀ d t parent ∧ DominatorSweep.Ordered f₀.graph 0 d.back t := by
  have hheld : f₀.EntryHeldUp := fun d _ e he h0 _ => absurd h0 (hentry e he)
  have hrule := hg.rooted_rule hheld hfuel d hd
  refine ⟨⟨hrule.start, DominatorSweep.ordered_start⟩, ?_, ?_⟩
  · intro t parent u rest ht hstack hnext
    exact ⟨hrule.pop t parent u rest ht.1 hstack hnext, ht.2.nodup, ht.2.before⟩
  · intro t s f u rest e h ht hstack hnext hmem
    obtain ⟨f', hok, hrooted⟩ := hrule.update t s f u rest e h ht.1 hstack hnext hmem
    obtain ⟨hedge, -, -, -⟩ := h.scanned.next_spec hnext
    exact ⟨f', hok, hrooted, ht.2.follow hd.explored ht.1.invariant ht.1.finished hstack hnext
      (hentry e hedge)⟩

/-- In a finished function whose blocks can all be reached from an entry that no edge goes to, and
where no block has `2^16` edges in or out: the pass returns, and what it has done to the links is to
put the blocks of `rpoPushes` into `blocks_rpo`, in their order. It has put every block but the
entry there once, after all blocks but the entry that have an edge to it and are not recorded as its
back edges. -/
theorem rpo_topological (h : Finishes P begin_ calls f) (hP : P.listAsserts = false)
    (hreach : ∀ b < f.blockCount, Reachable f.graph.Adj 0 b)
    (hentry : ∀ e ∈ f.graph.edges, f.graph.dest e ≠ 0)
    (hout : ∀ b < f.blockCount, (f.block b).outgoing.length < 2 ^ 16)
    (hin : ∀ b < f.blockCount, (f.block b).incoming.length < 2 ^ 16)
    (hfuel : f.blockCount + 2 * f.edgeCount + 1 < fuel) :
    ∃ f', cfgAnalysisPass P fuel f = .ok () f' ∧
      f'.links = (rpoPushes P fuel f).foldl (fun L b => L.pushBack .blocksRpo (.block b)) f.links ∧
      (rpoPushes P fuel f).Nodup ∧
      (∀ b, b ∈ rpoPushes P fuel f ↔ b < f.blockCount ∧ b ≠ 0) ∧
      ∀ e ∈ f.graph.edges, f.graph.src e ≠ 0 →
        f.graph.src e ∉ (f'.block (f.graph.dest e)).backEdges →
        (rpoPushes P fuel f).idxOf (f.graph.src e) <
          (rpoPushes P fuel f).idxOf (f.graph.dest e) := by
  have hg := h.graphed
  have hblocks : f.blockCount < fuel := by omega
  obtain ⟨f', d, t, hok, hd, ⟨hrooted, hordered⟩, hend, hreleased, hback⟩ :=
    h.pass_ok hP hout hin hfuel (hg.ordered_rule hentry hblocks)
  have hlinks := h.links_eq hok
  generalize rpoPushes P fuel f = pushes at hreleased hlinks ⊢
  have hinv := hrooted.invariant
  have hfin : ∀ b < f.blockCount, b ∈ d.finished := fun b => Graphed.mem_finished hreach hd.explored
  have hsrc : ∀ e ∈ f.graph.edges, f.graph.src e ∈ d.finished := fun e he =>
    hfin _ (hg.edge_lt e he).1
  -- The entry is on the stack from the start: it is released, but never pushed.
  have hnodup := hordered.nodup
  rw [hreleased, List.nodup_append] at hnodup
  have h0 : 0 ∉ pushes := fun hmem =>
    hnodup.2.2 0 (List.mem_reverse.mpr hmem) 0 (List.mem_singleton_self 0) rfl
  have hpushes : pushes.Nodup := List.nodup_reverse.mp hnodup.1
  have hmem : ∀ b, b ∈ pushes ↔ b < f.blockCount ∧ b ≠ 0 := by
    intro b
    have hrel : b ∈ t.released ↔ b ∈ pushes ∨ b = 0 := by simp [hreleased]
    constructor
    · intro hb
      have hb0 : b ≠ 0 := fun he => h0 (he ▸ hb)
      obtain ⟨⟨w, e, he, -, -, rfl⟩, -⟩ := (hinv.released_iff b hb0).mp (hrel.mpr (.inl hb))
      exact ⟨(hg.edge_lt e he).2, hb0⟩
    · rintro ⟨hb, hb0⟩
      exact (hrel.mp (hinv.all_released hd.explored hsrc hend (hfin b hb))).resolve_right hb0
  refine ⟨f', hok, hlinks, hpushes, hmem, fun e he hsrc0 hrec => ?_⟩
  have hdest := (hg.edge_lt e he).2
  have hnot : e ∉ d.back := fun hb => hrec (by
    rw [hback _ hdest]
    exact List.mem_map_of_mem (Multigraph.mem_into.mpr ⟨hb, rfl⟩))
  exact hordered.idxOf_lt hreleased he hnot hsrc0 (hentry e he)
    ((hmem _).mpr ⟨hdest, hentry e he⟩)

/-- Two ways to a block that goes back to itself or on. -/
theorem rpo_topological_loop :
    ∃ f f', Finishes .plain 0 [.inst .loadImm [.imm], .if_ 0 (.linkBlock 1) (.linkBlock 2),
        .appendBlock 1 0, .linkBlock 3, .appendBlock 2 0, .linkBlock 3,
        .if_ 0 (.linkBlock 3) (.linkBlock 4)] f ∧
      cfgAnalysisPass .plain 20 f = .ok () f' ∧ (f'.block 3).backEdges = [3] ∧
      rpoPushes .plain 20 f = [2, 1, 3, 4] ∧
      f'.links = [2, 1, 3, 4].foldl (fun L b => L.pushBack .blocksRpo (.block b)) f.links ∧
      ∀ e ∈ f.graph.edges, f.graph.src e ≠ 0 →
        f.graph.src e ∉ (f'.block (f.graph.dest e)).backEdges →
        (rpoPushes .plain 20 f).idxOf (f.graph.src e) <
          (rpoPushes .plain 20 f).idxOf (f.graph.dest e) := by
  obtain ⟨f, hfin, hcount, hpath, hentry, hdegree, hpushes, hpass⟩ := exists_of_any
    (o := finish .plain 0 [.inst .loadImm [.imm], .if_ 0 (.linkBlock 1) (.linkBlock 2),
      .appendBlock 1 0, .linkBlock 3, .appendBlock 2 0, .linkBlock 3,
      .if_ 0 (.linkBlock 3) (.linkBlock 4)])
    (Q := fun f => (f.blockCount = 5 ∧ f.edgeCount = 6) ∧
      (∀ b < 5, IsPath f.graph.Adj 0 ([[], [0], [0], [0, 1], [0, 1, 3]].getD b [] ++ [b])) ∧
      (∀ e ∈ f.graph.edges, f.graph.dest e ≠ 0) ∧
      (∀ b < 5, (f.block b).outgoing.length < 2 ^ 16 ∧ (f.block b).incoming.length < 2 ^ 16) ∧
      rpoPushes .plain 20 f = [2, 1, 3, 4] ∧
      ((returned (cfgAnalysisPass .plain 20 f)).any fun f' => (f'.block 3).backEdges = [3]) = true)
    (by decide +kernel)
  have h := (typedFinishes_of_finish hfin).finishes
  rw [← hcount.1] at hpath hdegree
  have hfuel : f.blockCount + 2 * f.edgeCount + 1 < 20 := by
    rw [hcount.1, hcount.2]
    decide
  obtain ⟨f', hok, hlinks, -, -, horder⟩ :=
    rpo_topological h rfl (fun b hb => ⟨_, hpath b hb⟩) hentry
    (fun b hb => (hdegree b hb).1) (fun b hb => (hdegree b hb).2) hfuel
  obtain ⟨g, hg, hback⟩ := exists_of_any hpass
  obtain rfl : f' = g := by
    rw [returned_eq_some_iff, hok] at hg
    cases hg
    rfl
  exact ⟨f, f', h, hok, hback, hpushes, hpushes ▸ hlinks, horder⟩

end Order

end SwiftRuntime.Ir
