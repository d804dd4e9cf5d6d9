import SwiftRuntime.Ir.BackEdges
import SwiftRuntime.Ir.Values

/-!
# Edges with the flag `DOMINATES`

`FindDominateEdges` sets the flag on the edge of every block that has no other incoming edge
(`marked_iff`), and the rest of the pass does not touch it, whether it returns or not. A block other
than the entry that can be reached is entered by one of its edges, so the only one is on every path
to it. The entry is reached without any edge: its only incoming edge is marked all the same
(`marked_dominates_iff`).
-/

namespace SwiftRuntime.Ir

/-! ## The flags under the rest of the pass -/

section Keeps

variable {P : Platform} {E : EdgeRef → Edge}

/-- Visiting a successor marks no edge. -/
theorem visitSuccessor_keeps (s : Search) (current successor : BlockRef) :
    Keeps (fun f => f.edge = E) (visitSuccessor s current successor) := by
  refine keeps_get.bind fun f => ?_
  dsimp only
  split_ifs
  · refine (keeps_require _ _).bind fun _ => Keeps.bind ?_ fun _ => keeps_pure _
    exact keeps_modify fun _ hs => hs
  · exact keeps_pure _
  · exact keeps_pure _

/-- So `FindBackEdges` marks none. -/
theorem findBackEdges_keeps (fuel : ℕ) : Keeps (fun f => f.edge = E) (findBackEdges fuel) := by
  refine keeps_get.bind fun f => (keeps_ofOption _ _).bind fun entry => ?_
  refine keeps_loopM (fun s => keeps_get.bind fun f => ?_) _ _ _
  split
  · exact keeps_pure _
  · dsimp only
    split_ifs
    · exact keeps_pure _
    · exact (keeps_ofOption _ _).bind fun successor => visitSuccessor_keeps _ _ _

/-- Setting a dominator marks no edge. -/
theorem updateDominatorOfSuccessor_keeps (fuel : ℕ) (block successor : BlockRef) :
    Keeps (fun f => f.edge = E) (updateDominatorOfSuccessor fuel block successor) := by
  refine keeps_get.bind fun f => (keeps_require _ _).bind fun _ =>
    (keeps_ofExcept _).bind fun d => ?_
  split_ifs
  · exact keeps_modify fun _ hs => hs
  · exact keeps_pure _

/-- Neither does counting a visit. -/
theorem countVisit_keeps (s : Sweep) (successor : BlockRef) :
    Keeps (fun f => f.edge = E) (countVisit P s successor) := by
  refine keeps_get.bind fun f => ?_
  dsimp only
  split_ifs
  · refine Keeps.bind ?_ fun _ => keeps_pure _
    exact keeps_get.bind fun f => (keeps_require _ _).bind fun _ => keeps_modify fun _ hs => hs
  · exact keeps_pure _

/-- So `ComputeDominanceInformation` marks none. -/
theorem computeDominanceInformation_keeps (fuel : ℕ) :
    Keeps (fun f => f.edge = E) (computeDominanceInformation P fuel) := by
  refine keeps_get.bind fun f => (keeps_ofOption _ _).bind fun entry => ?_
  refine keeps_loopM (fun s => keeps_get.bind fun f => ?_) _ _ _
  split
  · exact keeps_pure _
  · dsimp only
    split_ifs
    · exact keeps_pure _
    · refine (keeps_ofOption _ _).bind fun successor => ?_
      exact (updateDominatorOfSuccessor_keeps _ _ _).bind fun _ => countVisit_keeps _ _

end Keeps

/-- The edges after the pass are those after `FindDominateEdges`. -/
theorem cfgAnalysisPass_edge {P : Platform} {fuel : ℕ} {f f1 : HirFunction} (hne : f.blocks ≠ [])
    (hmark : findDominateEdges f = .ok () f1) :
    (leaves (cfgAnalysisPass P fuel) f).edge = f1.edge := by
  have hget : (get : Build HirFunction) f = .ok f f := rfl
  have hreq : (require (f.blocks ≠ []) .raised : Build Unit) f = .ok () f :=
    require_ok_iff.mpr ⟨hne, rfl⟩
  unfold cfgAnalysisPass
  rw [leaves_bind_ok hget, leaves_bind_ok hreq, leaves_bind_ok hmark]
  exact (findBackEdges_keeps fuel).bind (fun _ => computeDominanceInformation_keeps fuel) f1 rfl

/-! ## The marked edges -/

/-- No edge of a function under construction is marked. -/
theorem unmarked_kept (P : Platform) : Kept P fun f => ∀ e, (f.edge e).dominates = false where
  used _ _ hf := hf
  ended _ _ _ hf := hf
  addEdge f src dest conditional hf e := by
    simp only [HirFunction.addEdge]
    -- An edge is created without a mark.
    split_ifs
    · rfl
    · by_cases he : e = f.edgeCount
      · simp [he]
      · simpa [he] using hf e
  appendBlock f start endLoc hf := by
    rcases f.appendBlock_cases start endLoc with ⟨b, -, -, heq⟩ | ⟨-, heq⟩
    · rw [heq]
      exact hf
    · rw [heq]
      exact hf
  register f k b _ _ hf := by
    have hsame := sameCfg_register P { f with heap := k } f.heap.count b
    rw [hsame.edge]
    exact hf

section Marked

variable {P : Platform} {begin_ : Location} {calls : List Call} {f f1 : HirFunction} {fuel : ℕ}

/-- One more block that does not have the property. -/
theorem exists_mem_concat_iff {pre : List (Option BlockRef)} {b : BlockRef} {Q : BlockRef → Prop}
    (hb : ¬ Q b) : (∃ c, some c ∈ pre ++ [some b] ∧ Q c) ↔ ∃ c, some c ∈ pre ∧ Q c := by
  simp only [List.mem_append, List.mem_singleton, Option.some.injEq]
  constructor
  · rintro ⟨c, hc | rfl, hQ⟩
    · exact ⟨c, hc, hQ⟩
    · exact absurd hQ hb
  · rintro ⟨c, hc, hQ⟩
    exact ⟨c, .inl hc, hQ⟩

/-- `FindDominateEdges` marks the edge of every block with a single one. -/
theorem Graphed.marked_iff (hg : Graphed f) (hf : ∀ e, (f.edge e).dominates = false)
    (hmark : findDominateEdges f = .ok () f1) (e : EdgeRef) :
    (f1.edge e).dominates = true ↔ ∃ b < f.blockCount, (f.block b).incoming = [e] := by
  simp only [findDominateEdges, bind_ok_iff, get_ok_iff] at hmark
  obtain ⟨_, f, ⟨rfl, rfl⟩, hfor⟩ := hmark
  -- What the loop has marked when it has been through the blocks of a prefix.
  have hinv := forM_induction (fun pre s => s.block = f.block ∧ ∀ e, (s.edge e).dominates = true ↔
    ∃ b, some b ∈ pre ∧ (f.block b).incoming = [e]) ?_ ⟨rfl, fun e => by simp [hf e]⟩ hfor
  · rw [hinv.2 e, hg.blocks]
    simp
  · rintro pre block post s s' - ⟨hblock, hmarked⟩ hstep
    simp only [bind_ok_iff, ofOption_ok_iff, modify_ok_iff] at hstep
    obtain ⟨b, _, ⟨rfl, rfl⟩, rfl⟩ := hstep
    split
    · next e' hin =>
      rw [hblock] at hin
      refine ⟨hblock, fun e => ?_⟩
      dsimp only
      by_cases he : e = e'
      · subst he
        simp only [Function.update_self, List.mem_append, List.mem_singleton, true_iff]
        exact ⟨b, .inr rfl, hin⟩
      · rw [Function.update_of_ne he, hmarked e]
        refine (exists_mem_concat_iff fun hinc => ?_).symm
        rw [hin] at hinc
        exact he (List.cons.inj hinc).1.symm
    · next hno =>
      rw [hblock] at hno
      refine ⟨hblock, fun e => ?_⟩
      rw [hmarked e]
      exact (exists_mem_concat_iff (hno e)).symm

/-- An edge is marked after the pass if its target has no other incoming edge. -/
theorem Finishes.marked_iff (h : Finishes P begin_ calls f) {e : EdgeRef} (he : e ∈ f.graph.edges) :
    ((leaves (cfgAnalysisPass P fuel) f).edge e).dominates = true ↔
      (f.block (f.graph.dest e)).incoming = [e] := by
  have hg := h.graphed
  have hun : ∀ e, (f.edge e).dominates = false :=
    (unmarked_kept P).finishes (fun _ => rfl) (fun _ hf => hf) h
  obtain ⟨f1, hmark, -, -⟩ := hg.findDominateEdges_ok
  rw [cfgAnalysisPass_edge hg.blocks_ne_nil hmark, hg.marked_iff hun hmark e]
  constructor
  -- The block that an edge is the only one of is its target.
  · rintro ⟨b, hb, hin⟩
    have hmem : e ∈ f.graph.into f.graph.edges b := by
      rw [← hg.incoming b hb, hin]
      exact List.mem_singleton_self e
    rw [(Multigraph.mem_into.mp hmem).2]
    exact hin
  · intro hin
    exact ⟨_, (hg.edge_lt e he).2, hin⟩

/-- In every finished function, after the pass, whether it returns or not: every marked edge whose
target can be reached is on every path from the entry to its target if and only if the entry does
not have exactly one incoming edge. -/
theorem marked_dominates_iff (h : Finishes P begin_ calls f) (fuel : ℕ) :
    (∀ e ∈ f.graph.edges, ((leaves (cfgAnalysisPass P fuel) f).edge e).dominates = true →
        (∃ path, f.graph.IsWalk 0 path (f.graph.dest e)) →
        ∀ path, f.graph.IsWalk 0 path (f.graph.dest e) → e ∈ path) ↔
      (f.block 0).incoming.length ≠ 1 := by
  have hg := h.graphed
  constructor
  · intro hall hone
    obtain ⟨e, hin⟩ := List.length_eq_one_iff.mp hone
    have hmem : e ∈ f.graph.into f.graph.edges 0 := by
      rw [← hg.incoming 0 hg.pos, hin]
      exact List.mem_singleton_self e
    obtain ⟨he, hdest⟩ := Multigraph.mem_into.mp hmem
    -- The empty path leads to the entry.
    have hnil : f.graph.IsWalk 0 [] (f.graph.dest e) := hdest.symm
    have hmark : ((leaves (cfgAnalysisPass P fuel) f).edge e).dominates = true :=
      (h.marked_iff he).mpr (by rw [hdest]; exact hin)
    exact absurd (hall e he hmark ⟨[], hnil⟩ [] hnil) List.not_mem_nil
  · intro hne e he hmark _ path hpath
    have hin := (h.marked_iff he).mp hmark
    have hentry : 0 ≠ f.graph.dest e := by
      intro h0
      rw [← h0] at hin
      exact hne (by rw [hin]; rfl)
    obtain ⟨e', he', hedge, hdest⟩ := hpath.exists_last hentry
    have hmem : e' ∈ (f.block (f.graph.dest e)).incoming := by
      rw [hg.incoming _ (hg.edge_lt e he).2]
      exact Multigraph.mem_into.mpr ⟨hedge, hdest⟩
    rw [hin, List.mem_singleton] at hmem
    exact hmem ▸ he'

/-- A function of two blocks, with an edge from the entry to the other one. -/
theorem marked_dominates_link :
    ∃ f, Finishes .plain 0 [.linkBlock 4] f ∧ (f.block 0).incoming.length ≠ 1 ∧
      ∀ e ∈ f.graph.edges, ((leaves (cfgAnalysisPass .plain 10) f).edge e).dominates = true ∧
        f.graph.IsWalk 0 [e] (f.graph.dest e) ∧
        ∀ path, f.graph.IsWalk 0 path (f.graph.dest e) → e ∈ path := by
  obtain ⟨f, hfin, hentry, hedges⟩ := exists_of_any (o := finish .plain 0 [.linkBlock 4])
    (Q := fun f => (f.block 0).incoming.length ≠ 1 ∧ ∀ e ∈ f.graph.edges,
      ((leaves (cfgAnalysisPass .plain 10) f).edge e).dominates = true ∧ f.graph.src e = 0)
    (by decide +kernel)
  have h := (typedFinishes_of_finish hfin).finishes
  refine ⟨f, h, hentry, fun e he => ?_⟩
  obtain ⟨hmark, hsrc⟩ := hedges e he
  have hwalk : f.graph.IsWalk 0 [e] (f.graph.dest e) := ⟨he, hsrc, rfl⟩
  exact ⟨hmark, hwalk, (marked_dominates_iff h 10).mpr hentry e he hmark ⟨[e], hwalk⟩⟩

/-- The edge of an entry that goes to itself is marked, and the empty path leads to the entry. -/
theorem entry_loop_marked :
    ∃ f, Finishes .plain 0 [.linkBlock 0] f ∧
      (∃ f', cfgAnalysisPass .plain 10 f = .ok () f' ∧ (f'.edge 0).dominates = true) ∧
      0 ∈ f.graph.edges ∧ f.graph.IsWalk 0 [] (f.graph.dest 0) := by
  obtain ⟨f, hfin, hedge, hdest, hpass⟩ := exists_of_any (o := finish .plain 0 [.linkBlock 0])
    (Q := fun f => 0 ∈ f.graph.edges ∧ f.graph.dest 0 = 0 ∧
      ((returned (cfgAnalysisPass .plain 10 f)).any fun f' => (f'.edge 0).dominates = true) = true)
    (by decide +kernel)
  obtain ⟨g, hg, hmark⟩ := exists_of_any hpass
  exact ⟨f, (typedFinishes_of_finish hfin).finishes, ⟨g, returned_eq_some_iff.mp hg, hmark⟩, hedge,
    hdest.symm⟩

end Marked

end SwiftRuntime.Ir
