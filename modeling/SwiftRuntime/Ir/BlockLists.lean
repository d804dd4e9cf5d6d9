import SwiftRuntime.Ir.Sweep
import SwiftRuntime.Ir.Values

/-!
# The two lists of blocks after the analysis

`block_list` and `blocks_rpo` hold their blocks through the same member, `list_node`. The pass puts
blocks into `blocks_rpo` that are in `block_list`, and `push_back` then joins the two rings or cuts
them apart elsewhere. A block belongs to one ring at a time, so as soon as one block is put into
`blocks_rpo`, not both lists can be what they should be.

Nothing is put into `blocks_rpo` only if the edges of the entry complete the count of no block:
after they have been followed the stack is empty, and the loop ends.
-/

namespace SwiftRuntime.Ir

/-- The edges of the entry alone release no block, after the search. -/
def HirFunction.ReleasesNothing (f : HirFunction) : Prop :=
  ∀ d, DepthFirst.Explores f.graph 0 d → ∀ v, ¬ DominatorSweep.ReleasedByEntry f.graph 0 d.back v

section Links

variable {P : Platform} {begin_ : Location} {calls : List Call} {fuel : ℕ} {f f' : HirFunction}

/-- A pass of the loop puts the blocks into `blocks_rpo` that it puts on the stack. -/
theorem computeDominanceBody_links {s s' : Sweep}
    (h : computeDominanceBody P fuel s f = .ok (.inl s') f') :
    f'.links = (pushedBy s s').foldl (fun L b => L.pushBack .blocksRpo (.block b)) f.links := by
  obtain ⟨current, rest, hw⟩ := computeDominanceBody_inl h
  rcases (computeDominanceBody_cons_iff hw).mp h with
    ⟨-, hr, rfl⟩ | ⟨-, successor, f1, -, hupdate, hcount⟩
  -- The pass has left a block.
  · cases hr
    rw [pushedBy_pop hw]
    rfl
  -- It has followed an edge, which may complete the count of its target.
  · obtain ⟨-, -, -, hlinks⟩ := updateDominatorOfSuccessor_spec hupdate
    obtain ⟨hr, hcases⟩ := countVisit_ok_iff.mp hcount
    cases hr
    rw [pushedBy_visit]
    split_ifs at hcases ⊢ with hfull
    · rw [hcases.2, ← hlinks]
      rfl
    · rw [hcases, ← hlinks]
      rfl

/-- What the pass does to the links is to put the blocks of `rpoPushes` into `blocks_rpo`. -/
theorem Finishes.links_eq (h : Finishes P begin_ calls f)
    (hpass : cfgAnalysisPass P fuel f = .ok () f') :
    f'.links =
      (rpoPushes P fuel f).foldl (fun L b => L.pushBack .blocksRpo (.block b)) f.links := by
  obtain ⟨-, f1, f2, hedges, hsearch, hsweep⟩ := cfgAnalysisPass_ok_iff.mp hpass
  obtain ⟨ha1, hlinks1⟩ := findDominateEdges_spec hedges
  obtain ⟨ha2, hlinks2⟩ := findBackEdges_spec hsearch
  have ha := ha1.trans ha2
  rw [h.graphed.rpoPushes_eq ha hedges hsearch]
  obtain ⟨-, -, hlinks⟩ := computeDominance_induction
    (fun log _ g => g.links = log.foldl (fun L b => L.pushBack .blocksRpo (.block b)) f.links)
    (fun log s g s' g' hg hbody => by rw [computeDominanceBody_links hbody, hg, List.foldl_append])
    (hlinks2.trans hlinks1) ((h.graphed.computeDominanceInformation_ok_iff ha).mp hsweep)
  exact hlinks

end Links

section Pushes

variable {P : Platform} {begin_ : Location} {calls : List Call} {fuel : ℕ} {f f₀ f' : HirFunction}
  {d : DepthFirst.State BlockRef EdgeRef}

/-- A loop that returns has put a block into `blocks_rpo` that the edges of the entry release, or
has put none there and there is no such block. -/
theorem Graphed.log_of_returned (hg : Graphed f₀)
    (hout : (f₀.block 0).outgoing.length < 2 ^ 16) (ha : Analysed f₀ f)
    (hback : ∀ b < f₀.blockCount, (f.block b).backEdges = (f₀.graph.into d.back b).map f₀.graph.src)
    (hloop : loopM (computeDominanceBody P fuel) .endless fuel (.start 0) f = .ok () f') :
    (∃ v ∈ loopLog (computeDominanceBody P fuel) pushedBy fuel (.start 0) f,
        v < f₀.blockCount ∧ DominatorSweep.ReleasedByEntry f₀.graph 0 d.back v) ∨
      loopLog (computeDominanceBody P fuel) pushedBy fuel (.start 0) f = [] ∧
        ∀ v, ¬ DominatorSweep.ReleasedByEntry f₀.graph 0 d.back v := by
  -- The entry has less than `2^16` edges to count.
  have hin : ∀ {t u rest}, DominatorSweep.Quiet f₀.graph 0 d.back t → t.stack = u :: rest →
      ∀ e, f₀.graph.next t.seen u = some e →
        (f₀.graph.into (t.seen ++ [e]) (f₀.graph.dest e)).length < 2 ^ 16 := by
    intro t u rest hquiet hstack e hnext
    refine (hquiet.length_into_le hstack hnext _).trans_lt (lt_of_le_of_lt ?_ hout)
    rw [hg.outgoing 0 hg.pos]
    exact List.length_filter_le _ _
  have hend := computeDominance_induction
    (fun log s f => (∃ v ∈ log, v < f₀.blockCount ∧
        DominatorSweep.ReleasedByEntry f₀.graph 0 d.back v) ∨
      log = [] ∧ ∃ t, Follows f₀ d t s f ∧ DominatorSweep.Quiet f₀.graph 0 d.back t) ?_
    (.inr ⟨rfl, _, .start hg ha hback, DominatorSweep.quiet_start⟩) hloop
  · obtain ⟨s, hw, hpushed | ⟨hnone, t, h, hquiet⟩⟩ := hend
    · exact .inl hpushed
    · exact .inr ⟨hnone, hquiet.not_releasedByEntry (h.worklist.symm.trans hw)⟩
  · rintro log s f s' f' (⟨v, hv, hrel⟩ | ⟨rfl, t, h, hquiet⟩) hbody
    · exact .inl ⟨v, List.mem_append_left _ hv, hrel⟩
    · obtain ⟨u, rest, hw⟩ := computeDominanceBody_inl hbody
      have hstack := h.worklist.symm.trans hw
      obtain ⟨rfl, rfl⟩ := hquiet.eq_entry hstack
      obtain ⟨t', s1, hs1, h', hreleased, hcases⟩ :=
        h.body_returned hg hstack hout (hin hquiet hstack) hbody
      cases hs1
      obtain ⟨hnext, rfl, -⟩ | ⟨e, f1, hnext, rfl, -, -⟩ := hcases
      · have hnone : pushedBy s s' = [] := by simpa using hreleased
        exact .inr ⟨by simp [hnone], _, h', hquiet.pop hstack hnext⟩
      · obtain ⟨hquiet', hsame⟩ | ⟨hrel, hnew⟩ := hquiet.follow hstack hnext
        · have hnone : pushedBy s s' = [] := by
            rw [hsame] at hreleased
            simpa using hreleased
          exact .inr ⟨by simp [hnone], _, h', hquiet'⟩
        · -- The target of the edge is the block that has been put on the stack.
          rw [hnew, ← List.singleton_append] at hreleased
          have hone : pushedBy s s' = [f₀.graph.dest e] := by
            rw [← List.reverse_inj, ← List.append_cancel_right hreleased]
            rfl
          obtain ⟨hedge, -, -, -⟩ := h.scanned.next_spec hnext
          exact .inl ⟨_, by simp [hone], (hg.edge_lt e hedge).2, hrel⟩

/-- Whenever the pass returns, it has put a block into `blocks_rpo`, or has put none there and there
is no block that the edges of the entry release. -/
theorem Finishes.pushes_of_returned (h : Finishes P begin_ calls f)
    (hpass : cfgAnalysisPass P fuel f = .ok () f') :
    ((∃ v ∈ rpoPushes P fuel f, v < f.blockCount) ∧ ¬ f.ReleasesNothing) ∨
      rpoPushes P fuel f = [] ∧ f.ReleasesNothing := by
  have hg := h.graphed
  obtain ⟨-, f1, f2, hedges, hsearch, hsweep⟩ := cfgAnalysisPass_ok_iff.mp hpass
  obtain ⟨f1', hedges', ha1, hblock⟩ := hg.findDominateEdges_ok
  rw [hedges] at hedges'
  cases hedges'
  -- Since the search has returned, the entry has few enough edges for the sweep to follow.
  obtain ⟨d, hd, ha2, -, hback, hsmall⟩ :=
    hg.findBackEdges_returned (fun b => h.length_successors) ha1
    hblock (fun b => (h.unanalysed.block b).1) hsearch
  have hlog := hg.log_of_returned (hsmall 0 (hd.explored.closed 0 .refl)) ha2 hback
    ((hg.computeDominanceInformation_ok_iff ha2).mp hsweep)
  rw [← hg.rpoPushes_eq ha2 hedges hsearch] at hlog
  rcases hlog with ⟨v, hv, hlt, hrel⟩ | ⟨hnone, hall⟩
  · exact .inl ⟨⟨v, hv, hlt⟩, fun hnothing => hnothing d hd v hrel⟩
  · exact .inr ⟨hnone, fun d' hd' => hd'.unique hd ▸ hall⟩

/-- After the pass has returned: an iteration over `block_list` meets the blocks in the order of
their creation, and one over `blocks_rpo` meets the blocks that were put there, exactly if the edges
of the entry release no block. -/
theorem lists_kept_iff (h : Finishes P begin_ calls f)
    (hpass : cfgAnalysisPass P fuel f = .ok () f') :
    ((∃ n, f'.links.walk .blockList n (f'.links.next .blockList) =
          some ((List.range f.blockCount).map .block)) ∧
        ∃ n, f'.links.walk .blocksRpo n (f'.links.next .blocksRpo) =
          some ((rpoPushes P fuel f).map .block)) ↔
      f.ReleasesNothing := by
  have hlinks := h.links_eq hpass
  rcases h.pushes_of_returned hpass with ⟨⟨v, hv, hlt⟩, hsome⟩ | ⟨hnone, hnothing⟩
  · refine iff_of_false ?_ hsome
    rintro ⟨⟨n, hwalk⟩, m, hwalk'⟩
    -- From the block on, both iterations go the same way, and neither comes to the other's root.
    obtain ⟨xs, ys, hsplit⟩ := List.append_of_mem
      (List.mem_map_of_mem (f := ListNode.block) (List.mem_range.mpr hlt))
    obtain ⟨xs', ys', hsplit'⟩ := List.append_of_mem (List.mem_map_of_mem (f := ListNode.block) hv)
    have hroot : ListNode.blocksRpo ∉ (List.range f.blockCount).map ListNode.block := by simp
    have hroot' : ListNode.blockList ∉ (rpoPushes P fuel f).map ListNode.block := by simp
    rw [hsplit] at hwalk hroot
    rw [hsplit'] at hwalk' hroot'
    obtain ⟨k, hk⟩ := Links.walk_suffix hwalk
    obtain ⟨k', hk'⟩ := Links.walk_suffix hwalk'
    exact hroot' (List.mem_append_right _ (Links.walk_meets (by simp) hk hk'
      fun hmem => hroot (List.mem_append_right _ hmem)))
  · rw [hnone] at hlinks ⊢
    rw [show f'.links = f.links from hlinks]
    obtain ⟨hlist, hrpo⟩ := h.walk_lists
    exact iff_of_true ⟨⟨_, hlist⟩, _, hrpo⟩ hnothing

/-- Blocks 0 to 2 with the edges 0 → 1 and 2 → 1. Block 1 waits for the edge from block 2, which
cannot be reached, so nothing is put into `blocks_rpo`. -/
theorem lists_kept_unreachable :
    ∃ f f', Finishes .plain 0 [.linkBlock 1, .appendBlock 2 0, .linkBlock 1] f ∧
      cfgAnalysisPass .plain 10 f = .ok () f' ∧ rpoPushes .plain 10 f = [] ∧ f.blockCount = 3 ∧
      (∃ n, f'.links.walk .blockList n (f'.links.next .blockList) =
        some ((List.range f.blockCount).map .block)) ∧
      ∃ n, f'.links.walk .blocksRpo n (f'.links.next .blocksRpo) =
        some ((rpoPushes .plain 10 f).map .block) := by
  obtain ⟨f, hfin, hcount, hpushes, hpass⟩ := exists_of_any
    (o := finish .plain 0 [.linkBlock 1, .appendBlock 2 0, .linkBlock 1])
    (Q := fun f => f.blockCount = 3 ∧ rpoPushes .plain 10 f = [] ∧
      ((returned (cfgAnalysisPass .plain 10 f)).any fun _ => True) = true)
    (by decide +kernel)
  have h := (typedFinishes_of_finish hfin).finishes
  obtain ⟨f', hf', -⟩ := exists_of_any hpass
  have hok := returned_eq_some_iff.mp hf'
  have hnothing : f.ReleasesNothing := by
    rcases h.pushes_of_returned hok with ⟨⟨v, hv, -⟩, -⟩ | ⟨-, hnothing⟩
    · rw [hpushes] at hv
      cases hv
    · exact hnothing
  obtain ⟨hlist, hrpo⟩ := (lists_kept_iff h hok).mpr hnothing
  exact ⟨f, f', h, hok, hpushes, hcount, hlist, hrpo⟩

/-- Blocks 0 and 1 with the edge 0 → 1. Block 1 is put into `blocks_rpo`, and the two rings become
one: an iteration over `block_list` comes by the root of `blocks_rpo`, and one over `blocks_rpo` by
the root of `block_list` and by the entry. -/
theorem lists_joined :
    ∃ f f', Finishes .plain 0 [.linkBlock 1] f ∧ cfgAnalysisPass .plain 10 f = .ok () f' ∧
      rpoPushes .plain 10 f = [1] ∧
      f'.links.walk .blockList 4 (f'.links.next .blockList) =
        some [.block 0, .blocksRpo, .block 1] ∧
      f'.links.walk .blocksRpo 4 (f'.links.next .blocksRpo) =
        some [.block 1, .blockList, .block 0] ∧
      (¬ ∃ n, f'.links.walk .blockList n (f'.links.next .blockList) =
        some ((List.range f.blockCount).map .block)) ∧
      ¬ ∃ n, f'.links.walk .blocksRpo n (f'.links.next .blocksRpo) =
        some ((rpoPushes .plain 10 f).map .block) := by
  obtain ⟨f, hfin, hcount, hpushes, hpass⟩ := exists_of_any (o := finish .plain 0 [.linkBlock 1])
    (Q := fun f => f.blockCount = 2 ∧ rpoPushes .plain 10 f = [1] ∧
      ((returned (cfgAnalysisPass .plain 10 f)).any fun f' =>
        f'.links.walk .blockList 4 (f'.links.next .blockList) =
            some [.block 0, .blocksRpo, .block 1] ∧
          f'.links.walk .blocksRpo 4 (f'.links.next .blocksRpo) =
            some [.block 1, .blockList, .block 0]) = true)
    (by decide +kernel)
  obtain ⟨f', hf', hlist, hrpo⟩ := exists_of_any hpass
  refine ⟨f, f', (typedFinishes_of_finish hfin).finishes, returned_eq_some_iff.mp hf', hpushes,
    hlist, hrpo, ?_, ?_⟩
  -- Neither walk is the one of a list of its own.
  · rintro ⟨n, hn⟩
    have heq := Links.walk_unique hlist hn
    rw [hcount] at heq
    exact absurd heq (by decide)
  · rintro ⟨n, hn⟩
    have heq := Links.walk_unique hrpo hn
    rw [hpushes] at heq
    exact absurd heq (by decide)

end Pushes

end SwiftRuntime.Ir
