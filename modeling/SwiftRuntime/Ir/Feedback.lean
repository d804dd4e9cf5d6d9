import SwiftRuntime.Ir.BackEdges
import SwiftRuntime.Ir.Values

/-!
# The back edges break the cycles

`FindBackEdges` on a finished function whose blocks have fewer than `2^16` outgoing edges. The loop
ends, its table `visited` marks the blocks that can be reached from the entry, and the recorded
edges are different edges that lead back to where they can be reached from. Without them the part of
the graph that can be reached has no cycles.
-/

namespace SwiftRuntime.Ir

open Relation

/-- The tables of `FindBackEdges` as the last pass of its loop finds them. -/
def searchTables (fuel : ℕ) (f : HirFunction) : Option Search :=
  f.blocks[0]?.join.map fun entry =>
    loopLast findBackEdgesBody fuel {
      visited := Function.update (fun _ => false) (f.block entry).orderId true
      visiting := Function.update (fun _ => false) (f.block entry).orderId true
      successorsVisited := fun _ => 0
      worklist := [entry] } f

section Feedback

variable {P : Platform} {begin_ : Location} {calls : List Call} {f f1 f' : HirFunction} {fuel : ℕ}

/-- When the loop of `FindBackEdges` ends, its tables are those of a search that is through. -/
theorem Graphed.searchTables_spec (hg : Graphed f) (ha : Analysed f f1)
    (hblock : f1.block = f.block) (hback : ∀ b, (f.block b).backEdges = [])
    (hout : ∀ b < f.blockCount, (f.block b).outgoing.length < 2 ^ 16)
    (hok : findBackEdges fuel f1 = .ok () f') :
    ∃ t s, searchTables fuel f1 = some s ∧ Searches f t s f' ∧ t.stack = [] := by
  simp only [findBackEdges, bind_ok_iff, get_ok_iff, ofOption_ok_iff] at hok
  obtain ⟨_, f1, ⟨rfl, rfl⟩, entry, _, ⟨hentry, rfl⟩, hloop⟩ := hok
  obtain rfl : 0 = entry := Option.some.inj ((hg.entry ha).symm.trans hentry)
  have hstep : ∀ s g s' g', (∃ t, Searches f t s g) → findBackEdgesBody s g = .ok (.inl s') g' →
      ∃ t, Searches f t s' g' := by
    rintro s g s' g' ⟨t, ht⟩ hbody
    cases hstack : t.stack with
    | nil =>
      rw [findBackEdgesBody_nil (ht.worklist.trans hstack)] at hbody
      cases hbody
    | cons u rest =>
      obtain ⟨t1, s1, g1, hbody1, ht1, -⟩ :=
        ht.body hg hstack (hout u (ht.stack_lt u (by simp [hstack])))
      rw [hbody] at hbody1
      cases hbody1
      exact ⟨t1, ht1⟩
  obtain ⟨g, ⟨t, ht⟩, hleave⟩ := loopM_last (fun s g => ∃ t, Searches f t s g) hstep
    ⟨_, Searches.start hg ha hblock hback⟩ hloop
  refine ⟨t, _, by rw [searchTables, hentry]; rfl, ?_⟩
  -- A pass over a stack that is not empty goes round again.
  cases hstack : t.stack with
  | nil =>
    rw [findBackEdgesBody_nil (ht.worklist.trans hstack)] at hleave
    cases hleave
    exact ⟨ht, rfl⟩
  | cons u rest =>
    obtain ⟨t1, s1, g1, hbody1, -, -⟩ :=
      ht.body hg hstack (hout u (ht.stack_lt u (by simp [hstack])))
    rw [hleave] at hbody1
    cases hbody1

/-- In every finished function whose blocks have fewer than `2^16` outgoing edges, before or after
the edges are marked: `FindBackEdges` returns, the marked blocks are those that can be reached from
the entry, the entries in the lists of back edges are those of different edges that each lead back
to a block from which they can be reached, and without these edges there is no cycle that can be
reached. -/
theorem findBackEdges_feedback (h : Finishes P begin_ calls f)
    (hout : ∀ b < f.blockCount, (f.block b).outgoing.length < 2 ^ 16)
    (hmark : f1 = f ∨ findDominateEdges f = .ok () f1) (hfuel : 2 * f.edgeCount + 1 < fuel) :
    ∃ f' s back, findBackEdges fuel f1 = .ok () f' ∧ searchTables fuel f1 = some s ∧
      (∀ b < f.blockCount, s.visited (f.block b).orderId = true ↔ ReflTransGen f.graph.Adj 0 b) ∧
      (∀ v < f.blockCount, (f'.block v).backEdges = (f.graph.into back v).map f.graph.src) ∧
      back.Nodup ∧
      (∀ e ∈ back, e ∈ f.graph.edges ∧ ReflTransGen f.graph.Adj (f.graph.dest e) (f.graph.src e)) ∧
      ∀ u v, ReflTransGen f.graph.Adj 0 u → f.graph.AdjExcept back u v →
        ¬ ReflTransGen (f.graph.AdjExcept back) v u := by
  have hg := h.graphed
  have hun := fun b => (h.unanalysed.block b).1
  -- Marking the edges before the search changes no block.
  have hsame : Analysed f f1 ∧ f1.block = f.block := by
    rcases hmark with rfl | hmark
    · exact ⟨Analysed.refl f1, rfl⟩
    · obtain ⟨g, hmark', ha, hblock⟩ := hg.findDominateEdges_ok
      rw [hmark] at hmark'
      cases hmark'
      exact ⟨ha, hblock⟩
  obtain ⟨f', -, hok, -⟩ := hg.findBackEdges_ok hsame.1 hsame.2 hun hout hfuel
  obtain ⟨t, s, htables, ht, hstack⟩ := hg.searchTables_spec hsame.1 hsame.2 hun hout hok
  -- The state of the search at the end, as the library describes it.
  have hex := DepthFirst.Explores.explored ⟨ht.steps, hstack⟩
  have hadj : ∀ u v, ReflTransGen (f.graph.AdjExcept t.back) u v → ReflTransGen f.graph.Adj u v :=
    ReflTransGen.mono fun _ _ => Multigraph.AdjExcept.adj
  refine ⟨f', s, t.back, hok, htables, fun b hb => ?_, ht.backEdges, hex.back_nodup,
    fun e he => ⟨hex.back e he, hadj _ _ (hex.back_reach e he)⟩,
    fun u v hu huv => hex.acyclic (hex.closed u hu) huv⟩
  rw [hg.orderId b hb, ht.visited b hb, hstack]
  simp only [List.not_mem_nil, false_or]
  exact ⟨fun hmem => hadj _ _ (hex.reach b hmem), hex.closed b⟩

/-- A loop of two blocks: the edge from the second one to the entry is recorded. -/
theorem findBackEdges_feedback_loop :
    ∃ f f' s back, Finishes .plain 0 [.linkBlock 4, .linkBlock 0] f ∧
      findBackEdges 10 f = .ok () f' ∧ searchTables 10 f = some s ∧
      (∀ b < f.blockCount, s.visited (f.block b).orderId = true ↔ ReflTransGen f.graph.Adj 0 b) ∧
      (f'.block 0).backEdges = [1] ∧ (f.graph.into back 0).map f.graph.src = [1] ∧
      ∀ u v, ReflTransGen f.graph.Adj 0 u → f.graph.AdjExcept back u v →
        ¬ ReflTransGen (f.graph.AdjExcept back) v u := by
  obtain ⟨f, hfin, hpos, hfuel, hout, hrun⟩ := exists_of_any
    (o := finish .plain 0 [.linkBlock 4, .linkBlock 0])
    (Q := fun f => 0 < f.blockCount ∧ 2 * f.edgeCount + 1 < 10 ∧
      (∀ b < f.blockCount, (f.block b).outgoing.length < 2 ^ 16) ∧
      ((returned (findBackEdges 10 f)).any fun f' => (f'.block 0).backEdges = [1]) = true)
    (by decide +kernel)
  have h := (typedFinishes_of_finish hfin).finishes
  obtain ⟨g, hg, hgback⟩ := exists_of_any hrun
  obtain ⟨f', s, back, hok, htables, hvisited, hback, -, -, hacyclic⟩ :=
    findBackEdges_feedback h hout (.inl rfl) hfuel
  rw [returned_eq_some_iff, hok] at hg
  cases hg
  exact ⟨f, g, s, back, h, hok, htables, hvisited, hgback,
    (hback 0 hpos).symm.trans hgback, hacyclic⟩

end Feedback

end SwiftRuntime.Ir
