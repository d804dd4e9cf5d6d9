import SwiftRuntime.DepthFirst
import SwiftRuntime.Ir.CfgAnalysis

/-!
# The search for back edges

The graph of the edges of a finished function, and `FindBackEdges` on it. The loop takes the steps
of a depth-first search (`Searches`), so it returns, and a block is given a back edge for every edge
that the search finds to lead back to it. The `u16` counters of the loop do not wrap as long as no
block has `2^16` outgoing edges. A block that has as many stays on the stack for ever, so the search
does not return if it comes to one (`Graphed.findBackEdges_returned`).
-/

namespace SwiftRuntime.Ir

/-- The edges of a function as a graph. -/
def HirFunction.graph (f : HirFunction) : Multigraph BlockRef EdgeRef where
  edges := List.range f.edgeCount
  nodup := List.nodup_range
  src e := (f.edge e).src
  dest e := (f.edge e).dest

/-- What the pass relies on in a finished function. -/
structure Graphed (f : HirFunction) : Prop where
  /-- The vector of blocks. -/
  blocks : f.blocks = (List.range f.blockCount).map some
  /-- There is a block. -/
  pos : 0 < f.blockCount
  /-- The order ids are the places in the vector. -/
  orderId : ∀ b < f.blockCount, (f.block b).orderId = b
  /-- Edges are between blocks. -/
  edge_lt : ∀ e ∈ f.graph.edges, f.graph.src e < f.blockCount ∧ f.graph.dest e < f.blockCount
  /-- The outgoing edges. -/
  outgoing : ∀ b < f.blockCount, (f.block b).outgoing = f.graph.outOf f.graph.edges b
  /-- The incoming edges. -/
  incoming : ∀ b < f.blockCount, (f.block b).incoming = f.graph.into f.graph.edges b
  /-- The vector of successors, as far as its index goes. -/
  successors : ∀ b < f.blockCount, (f.block b).outgoing.length ≤ 2 ^ 16 →
    (f.block b).successors = (f.block b).outgoing.map fun e => some (f.graph.dest e)
  /-- The size of the vector of predecessors. -/
  predecessors : ∀ b < f.blockCount, (f.block b).predecessors.length = (f.block b).incoming.length

/-- A finished function is a graph of its edges, with the numbers and vectors of `EndFunction`. -/
theorem Finishes.graphed {P : Platform} {begin_ : Location} {calls : List Call} {f : HirFunction}
    (h : Finishes P begin_ calls f) : Graphed f := by
  obtain ⟨g, b, hg, hcur, hlt, rfl⟩ := h.exists_ended
  have ht := hg.tracks_ended hcur
  have hb : b < g.blockCount := hg.tracks.current_lt b hcur
  have hblock := fun x (hx : x < g.blockCount) =>
    HirFunction.withVectors_block (f := g.ended b .popRSBHint) (b := x) hx
  refine ⟨rfl, Nat.zero_lt_of_lt hb, fun x hx => ?_,
    fun e he => ht.edge_lt e (List.mem_range.mp he),
    fun x hx => ?_, fun x hx => ?_, fun x hx hlen => ?_, fun x hx => ?_⟩
  · rw [hblock x hx]
    exact (ht.orderId x hx).trans (Nat.mod_eq_of_lt (Nat.lt_trans hx hlt))
  · rw [hblock x hx]
    exact ht.outgoing x hx
  · rw [hblock x hx]
    exact ht.incoming x hx
  -- The vector of successors is filled from the edges, and is wide enough for them.
  · rw [hblock x hx] at hlen ⊢
    show fill 0 _ (List.replicate _ none) = _
    have hlen' : (((g.ended b .popRSBHint).block x).outgoing.map
        fun e => ((g.ended b .popRSBHint).edge e).dest).length ≤ 2 ^ 16 := by
      rw [List.length_map]
      exact hlen
    have hfill := fill_eq_map hlen'
    rw [List.length_map] at hfill
    rw [hfill, List.map_map]
    rfl
  · rw [hblock x hx]
    show (fill 0 _ (List.replicate _ none)).length = _
    rw [length_fill, List.length_replicate]
    rfl

/-- The vector of successors of a finished function has a place for every outgoing edge. -/
theorem Finishes.length_successors {P : Platform} {begin_ : Location} {calls : List Call}
    {f : HirFunction} (h : Finishes P begin_ calls f) {b : BlockRef} (hb : b < f.blockCount) :
    (f.block b).successors.length = (f.block b).outgoing.length := by
  obtain ⟨g, c, -, -, -, rfl⟩ := h.exists_ended
  rw [HirFunction.withVectors_block (f := g.ended c .popRSBHint) (b := b) hb]
  show (fill 0 _ (List.replicate _ none)).length = _
  rw [length_fill, List.length_replicate]
  rfl

/-! ## Going through the edges of a block -/

section Scan

variable {f₀ f : HirFunction} {b : BlockRef} {seen : List EdgeRef} {e : EdgeRef}

/-- A block whose edges have all been seen. -/
theorem Graphed.next_none (hg : Graphed f₀) (ha : Analysed f₀ f) (hb : b < f₀.blockCount)
    (hout : (f₀.block b).outgoing.length < 2 ^ 16) (hscan : f₀.graph.Scanned seen)
    (hnext : f₀.graph.next seen b = none) :
    (f₀.graph.outOf seen b).length = (f.block b).successors.length ∧
      (f₀.graph.outOf seen b).length = (f.block b).outgoing.length := by
  have hlen : (f₀.graph.outOf seen b).length = (f₀.block b).outgoing.length := by
    rw [hg.outgoing b hb]
    exact le_antisymm (hscan.initial b).length_le (List.getElem?_eq_none_iff.mp hnext)
  rw [ha.block b, hg.successors b hb hout.le, List.length_map]
  exact ⟨hlen, hlen⟩

/-- A block that has a next edge. -/
theorem Graphed.next_some (hg : Graphed f₀) (ha : Analysed f₀ f) (hb : b < f₀.blockCount)
    (hout : (f₀.block b).outgoing.length < 2 ^ 16) (hnext : f₀.graph.next seen b = some e) :
    (f₀.graph.outOf seen b).length < (f.block b).successors.length ∧
      (f₀.graph.outOf seen b).length < (f.block b).outgoing.length ∧
      (f.block b).successors[(f₀.graph.outOf seen b).length]?.join = some (f₀.graph.dest e) ∧
      ((f₀.graph.outOf seen b).length + 1) % 2 ^ 16 = (f₀.graph.outOf seen b).length + 1 ∧
      some (f₀.graph.dest e) ∈ (f.block b).successors := by
  have hlt : (f₀.graph.outOf seen b).length < (f₀.block b).outgoing.length := by
    rw [hg.outgoing b hb]
    exact (List.getElem?_eq_some_iff.mp hnext).1
  -- The next edge of the graph is the next one of the block, and its target the next successor.
  have hget : (f₀.block b).outgoing[(f₀.graph.outOf seen b).length]? = some e := by
    rw [hg.outgoing b hb]
    exact hnext
  have hsucc : (f.block b).successors =
      (f₀.block b).outgoing.map fun e => some (f₀.graph.dest e) := by
    rw [ha.block b]
    exact hg.successors b hb hout.le
  have hget' : (f.block b).successors[(f₀.graph.outOf seen b).length]? =
      some (some (f₀.graph.dest e)) := by
    rw [hsucc, List.getElem?_map, hget]
    rfl
  refine ⟨?_, ?_, by rw [hget']; rfl, Nat.mod_eq_of_lt (by omega), List.mem_of_getElem? hget'⟩
  · rw [hsucc, List.length_map]
    exact hlt
  · rw [ha.block b]
    exact hlt

/-- A `u16` table that counts the edges of the blocks that have been followed, after one more. -/
theorem update_counted {count : ℕ → ℕ} {u : BlockRef}
    (hcount : ∀ b < f₀.blockCount, count b = (f₀.graph.outOf seen b).length)
    (hu : u < f₀.blockCount) (hsrc : f₀.graph.src e = u)
    (hmod : ((f₀.graph.outOf seen u).length + 1) % 2 ^ 16 = (f₀.graph.outOf seen u).length + 1)
    (hb : b < f₀.blockCount) :
    Function.update count u ((count u + 1) % 2 ^ 16) b =
      (f₀.graph.outOf (seen ++ [e]) b).length := by
  rw [Multigraph.length_outOf_concat, hsrc]
  by_cases hbu : b = u
  · subst hbu
    rw [Function.update_self, if_pos rfl, hcount b hb, hmod]
  · rw [Function.update_of_ne hbu, if_neg (Ne.symm hbu), hcount b hb, Nat.add_zero]

end Scan

/-! ## The loop -/

section Search

variable {s : Search} {f : HirFunction} {current successor : BlockRef} {rest : List BlockRef}

/-- A successor that is being visited gets a back edge. -/
theorem visitSuccessor_back (hvisiting : s.visiting (f.block successor).orderId = true)
    (hmem : successor ∈ s.worklist) :
    visitSuccessor s current successor f = .ok (.inl s) (f.addBackEdge successor current) := by
  simp only [visitSuccessor, bind_ok_iff, get_ok_iff]
  refine ⟨f, f, ⟨rfl, rfl⟩, ?_⟩
  rw [if_pos hvisiting]
  simp only [bind_ok_iff, require_ok_iff, modify_ok_iff]
  exact ⟨(), f, ⟨hmem, rfl⟩, (), _, rfl, rfl⟩

/-- One that has been visited is passed over. -/
theorem visitSuccessor_known (hvisiting : s.visiting (f.block successor).orderId = false)
    (hvisited : s.visited (f.block successor).orderId = true) :
    visitSuccessor s current successor f = .ok (.inl s) f := by
  simp only [visitSuccessor, bind_ok_iff, get_ok_iff]
  refine ⟨f, f, ⟨rfl, rfl⟩, ?_⟩
  rw [if_neg (by simp [hvisiting]), if_neg (by simp [hvisited])]
  rfl

/-- A new one comes on the worklist. -/
theorem visitSuccessor_new (hvisiting : s.visiting (f.block successor).orderId = false)
    (hvisited : s.visited (f.block successor).orderId = false) :
    visitSuccessor s current successor f = .ok (.inl { s with
      visited := Function.update s.visited (f.block successor).orderId true
      visiting := Function.update s.visiting (f.block successor).orderId true
      worklist := successor :: s.worklist }) f := by
  simp only [visitSuccessor, bind_ok_iff, get_ok_iff]
  refine ⟨f, f, ⟨rfl, rfl⟩, ?_⟩
  rw [if_neg (by simp [hvisiting]), if_pos (by simp [hvisited])]
  rfl

end Search

/-- The loop of `FindBackEdges` takes the steps of a depth-first search: how its state and the
function go with a state of the search. -/
structure Searches (f₀ : HirFunction) (t : DepthFirst.State BlockRef EdgeRef) (s : Search)
    (f : HirFunction) : Prop where
  /-- The search has come to this state. -/
  steps : Relation.ReflTransGen (fun t t' => DepthFirst.step f₀.graph t = some t')
    (DepthFirst.start 0) t
  /-- What the pass leaves alone. -/
  analysed : Analysed f₀ f
  /-- There are no dominators yet. -/
  dominator : ∀ b, (f.block b).dominator = (f₀.block b).dominator
  /-- The back edges are the recorded ones. -/
  backEdges : ∀ b < f₀.blockCount,
    (f.block b).backEdges = (f₀.graph.into t.back b).map f₀.graph.src
  /-- The stack has blocks. -/
  stack_lt : ∀ b ∈ t.stack, b < f₀.blockCount
  /-- `worklist` is the stack. -/
  worklist : s.worklist = t.stack
  /-- `visiting` marks the stack. -/
  visiting : ∀ b < f₀.blockCount, s.visiting b = true ↔ b ∈ t.stack
  /-- `visited` marks what has been met. -/
  visited : ∀ b < f₀.blockCount, s.visited b = true ↔ b ∈ t.stack ∨ b ∈ t.finished
  /-- `successors_visited` counts the edges that have been followed. -/
  successorsVisited : ∀ b < f₀.blockCount,
    s.successorsVisited b = (f₀.graph.outOf t.seen b).length

namespace Searches

variable {f₀ f : HirFunction} {t : DepthFirst.State BlockRef EdgeRef} {s : Search}

/-- A bound on the steps that a search has still to go. -/
def remaining (f₀ : HirFunction) (t : DepthFirst.State BlockRef EdgeRef) : ℕ :=
  2 * (f₀.edgeCount - t.seen.length) + t.stack.length

variable {u : BlockRef} {rest : List BlockRef} {e : EdgeRef}

/-- The search leaves a block. -/
theorem pop (h : Searches f₀ t s f) (hstack : t.stack = u :: rest)
    (hnext : f₀.graph.next t.seen u = none) :
    Searches f₀ { t with stack := rest, finished := u :: t.finished }
      { s with visiting := Function.update s.visiting u false, worklist := rest } f := by
  have hnodup := (DepthFirst.invariant_of_steps h.steps).nodup
  rw [hstack] at hnodup
  -- A block is on the stack once, so that it is not being visited any more.
  have hu : u ∉ rest := fun hmem => (List.nodup_cons.mp hnodup).1 (List.mem_append_left _ hmem)
  refine { h with
    steps := h.steps.tail (DepthFirst.step_pop hstack hnext)
    stack_lt := fun b hb => h.stack_lt b (hstack ▸ List.mem_cons_of_mem _ hb)
    worklist := rfl
    visiting := fun b hb => ?_
    visited := fun b hb => ?_ }
  · by_cases hbu : b = u
    · subst hbu
      simp [hu]
    · dsimp only
      rw [Function.update_of_ne hbu, h.visiting b hb, hstack, List.mem_cons, or_iff_right hbu]
  · rw [h.visited b hb, hstack, List.mem_cons, List.mem_cons]
    tauto

/-- The search records an edge that leads back. -/
theorem seeBack (h : Searches f₀ t s f) (hstack : t.stack = u :: rest)
    (hnext : f₀.graph.next t.seen u = some e) (hdest : f₀.graph.dest e ∈ t.stack)
    (hmod : ((f₀.graph.outOf t.seen u).length + 1) % 2 ^ 16 =
      (f₀.graph.outOf t.seen u).length + 1) :
    Searches f₀ { t with seen := t.seen ++ [e], back := t.back ++ [e] }
      (s.scan u) (f.addBackEdge (f₀.graph.dest e) u) := by
  have hu := h.stack_lt u (by simp [hstack])
  obtain ⟨-, hsrc, -, -⟩ :=
    (DepthFirst.invariant_of_steps h.steps).scanned.next_spec hnext
  refine { h with
    steps := h.steps.tail (by rw [DepthFirst.step_follow hstack hnext, if_pos hdest])
    analysed := h.analysed.trans (analysed_setBlock _ _ fun _ => rfl)
    dominator := fun b => ?_
    backEdges := fun b hb => ?_
    successorsVisited := fun b hb => update_counted h.successorsVisited hu hsrc hmod hb }
  -- The target of the edge gets a back edge, and keeps its dominator.
  · by_cases hbd : b = f₀.graph.dest e
    · subst hbd
      simpa [HirFunction.addBackEdge, HirFunction.setBlock] using h.dominator _
    · simpa [HirFunction.addBackEdge, HirFunction.setBlock, hbd] using h.dominator b
  · by_cases hbd : b = f₀.graph.dest e
    · subst hbd
      simp [HirFunction.addBackEdge, HirFunction.setBlock, Multigraph.into, h.backEdges _ hb, hsrc]
    · simp [HirFunction.addBackEdge, HirFunction.setBlock, Multigraph.into, hbd, Ne.symm hbd,
        h.backEdges b hb]

/-- The search follows an edge to a block that it has left. -/
theorem see (h : Searches f₀ t s f) (hstack : t.stack = u :: rest)
    (hnext : f₀.graph.next t.seen u = some e) (hdest : f₀.graph.dest e ∉ t.stack)
    (hdest' : f₀.graph.dest e ∈ t.finished)
    (hmod : ((f₀.graph.outOf t.seen u).length + 1) % 2 ^ 16 =
      (f₀.graph.outOf t.seen u).length + 1) :
    Searches f₀ { t with seen := t.seen ++ [e] } (s.scan u) f := by
  have hu := h.stack_lt u (by simp [hstack])
  obtain ⟨-, hsrc, -, -⟩ :=
    (DepthFirst.invariant_of_steps h.steps).scanned.next_spec hnext
  exact { h with
    steps := h.steps.tail (by
      rw [DepthFirst.step_follow hstack hnext, if_neg hdest, if_pos hdest'])
    successorsVisited := fun b hb => update_counted h.successorsVisited hu hsrc hmod hb }

/-- The search comes to a new block. -/
theorem push (h : Searches f₀ t s f) (hg : Graphed f₀) (hstack : t.stack = u :: rest)
    (hnext : f₀.graph.next t.seen u = some e) (hdest : f₀.graph.dest e ∉ t.stack)
    (hdest' : f₀.graph.dest e ∉ t.finished)
    (hmod : ((f₀.graph.outOf t.seen u).length + 1) % 2 ^ 16 =
      (f₀.graph.outOf t.seen u).length + 1) :
    Searches f₀ { t with
        stack := f₀.graph.dest e :: t.stack
        seen := t.seen ++ [e]
        tree := t.tree ++ [e] }
      { s.scan u with
        visited := Function.update s.visited (f₀.graph.dest e) true
        visiting := Function.update s.visiting (f₀.graph.dest e) true
        worklist := f₀.graph.dest e :: s.worklist } f := by
  have hu := h.stack_lt u (by simp [hstack])
  obtain ⟨hedge, hsrc, -, -⟩ :=
    (DepthFirst.invariant_of_steps h.steps).scanned.next_spec hnext
  refine { h with
    steps := h.steps.tail (by
      rw [DepthFirst.step_follow hstack hnext, if_neg hdest, if_neg hdest'])
    stack_lt := fun b hb => ?_
    worklist := by rw [h.worklist]
    visiting := fun b hb => ?_
    visited := fun b hb => ?_
    successorsVisited := fun b hb => update_counted h.successorsVisited hu hsrc hmod hb }
  -- The new block is on the stack, is being visited and has been visited.
  · rcases List.mem_cons.mp hb with rfl | hb
    · exact (hg.edge_lt e hedge).2
    · exact h.stack_lt b hb
  · by_cases hbd : b = f₀.graph.dest e
    · subst hbd
      simp
    · dsimp only
      rw [Function.update_of_ne hbd, h.visiting b hb, List.mem_cons, or_iff_right hbd]
  · by_cases hbd : b = f₀.graph.dest e
    · subst hbd
      simp
    · dsimp only
      rw [Function.update_of_ne hbd, h.visited b hb, List.mem_cons, or_iff_right hbd]

/-- A pass of the loop is a step of the search. -/
theorem body (h : Searches f₀ t s f) (hg : Graphed f₀) (hstack : t.stack = u :: rest)
    (hout : (f₀.block u).outgoing.length < 2 ^ 16) :
    ∃ t' s' f', findBackEdgesBody s f = .ok (.inl s') f' ∧ Searches f₀ t' s' f' ∧
      (∀ b ∈ t'.finished, b ∈ t.stack ∨ b ∈ t.finished) ∧ remaining f₀ t' < remaining f₀ t := by
  have hinv := DepthFirst.invariant_of_steps h.steps
  have hu : u < f₀.blockCount := h.stack_lt u (by simp [hstack])
  have hid : ∀ b < f₀.blockCount, (f.block b).orderId = b := by
    intro b hb
    rw [h.analysed.block b]
    exact hg.orderId b hb
  have hw : s.worklist = u :: rest := h.worklist.trans hstack
  cases hnext : f₀.graph.next t.seen u with
  | none =>
    obtain ⟨hdone, -⟩ := hg.next_none h.analysed hu hout hinv.scanned hnext
    have hbody := (findBackEdgesBody_cons_iff hw).mpr
      (.inl ⟨by rw [hid u hu, h.successorsVisited u hu, hdone], rfl, rfl⟩)
    rw [hid u hu] at hbody
    refine ⟨_, _, f, hbody, h.pop hstack hnext, fun b hb => ?_, by simp [remaining, hstack]⟩
    rcases List.mem_cons.mp hb with rfl | hb
    · exact .inl (by simp [hstack])
    · exact .inr hb
  | some e =>
    obtain ⟨hedge, hsrc, hnew, -⟩ := hinv.scanned.next_spec hnext
    obtain ⟨hlt, -, hget, hmod, -⟩ := hg.next_some h.analysed hu hout hnext
    have hdest := (hg.edge_lt e hedge).2
    have hseen : t.seen.length < f₀.edgeCount := by
      have := hinv.scanned.length_lt hedge hnew
      rwa [show f₀.graph.edges.length = f₀.edgeCount from List.length_range] at this
    have hscan : ∀ {r f'}, visitSuccessor (s.scan u) u (f₀.graph.dest e) f = .ok r f' →
        findBackEdgesBody s f = .ok r f' := by
      intro r f' hvisit
      rw [findBackEdgesBody_cons_iff hw, hid u hu, h.successorsVisited u hu]
      exact .inr ⟨Nat.ne_of_lt hlt, _, hget, hvisit⟩
    -- Where the edge leads.
    by_cases hs : f₀.graph.dest e ∈ t.stack
    · have hvisiting : s.visiting (f.block (f₀.graph.dest e)).orderId = true := by
        rw [hid _ hdest]
        exact (h.visiting _ hdest).mpr hs
      refine ⟨_, _, _, hscan (visitSuccessor_back hvisiting (h.worklist ▸ hs)),
        h.seeBack hstack hnext hs hmod, fun _ => .inr, ?_⟩
      simp only [remaining, List.length_append, List.length_singleton]
      omega
    · have hvisiting : s.visiting (f.block (f₀.graph.dest e)).orderId = false := by
        rw [hid _ hdest, ← Bool.not_eq_true]
        exact mt (h.visiting _ hdest).mp hs
      by_cases hf : f₀.graph.dest e ∈ t.finished
      · have hvisited : s.visited (f.block (f₀.graph.dest e)).orderId = true := by
          rw [hid _ hdest]
          exact (h.visited _ hdest).mpr (.inr hf)
        refine ⟨_, _, _, hscan (visitSuccessor_known hvisiting hvisited),
          h.see hstack hnext hs hf hmod, fun _ => .inr, ?_⟩
        simp only [remaining, List.length_append, List.length_singleton]
        omega
      · have hvisited : s.visited (f.block (f₀.graph.dest e)).orderId = false := by
          rw [hid _ hdest, ← Bool.not_eq_true]
          exact mt (h.visited _ hdest).mp (not_or.mpr ⟨hs, hf⟩)
        have hbody := hscan (visitSuccessor_new hvisiting hvisited)
        rw [hid _ hdest] at hbody
        refine ⟨_, _, _, hbody, h.push hg hstack hnext hs hf hmod, fun _ => .inr, ?_⟩
        simp only [remaining, List.length_append, List.length_cons]
        omega

/-- The loop goes round until the stack is empty. -/
theorem loop {n : ℕ} (h : Searches f₀ t s f) (hg : Graphed f₀)
    (hout : ∀ b < f₀.blockCount, (f₀.block b).outgoing.length < 2 ^ 16)
    (hn : remaining f₀ t < n) :
    ∃ f', loopM findBackEdgesBody .endless n s f = .ok () f' ∧
      ∃ t' s', Searches f₀ t' s' f' ∧ t'.stack = [] := by
  -- Each pass sees an edge or leaves a block, so what remains decreases.
  have hloop : ∃ c f', loopM findBackEdgesBody .endless n s f = .ok c f' ∧
      ∃ t' s', Searches f₀ t' s' f' ∧ t'.stack = [] := by
    refine loopM_of_measure (fun k s f => ∃ t, Searches f₀ t s f ∧ remaining f₀ t = k) _ ?_
      ⟨t, h, rfl⟩ hn
    rintro k s f ⟨t, ht, rfl⟩
    cases hstack : t.stack with
    | nil => exact .inr ⟨(), f, findBackEdgesBody_nil (ht.worklist.trans hstack), t, s, ht, hstack⟩
    | cons u rest =>
      have hu := ht.stack_lt u (by simp [hstack])
      obtain ⟨t', s', f', hbody, ht', -, hlt⟩ := ht.body hg hstack (hout u hu)
      exact .inl ⟨_, s', f', hlt, hbody, t', ht', rfl⟩
  obtain ⟨⟨⟩, f', hloop, hend⟩ := hloop
  exact ⟨f', hloop, hend⟩

end Searches

/-! ## Blocks with too many edges -/

section Stuck

variable {f₀ f f' : HirFunction} {s : Search} {r : Search ⊕ Unit}

/-- A block on the stack has more successors than the `u16` table can count. -/
def Search.Stuck (s : Search) (f : HirFunction) : Prop :=
  ∃ b ∈ s.worklist, 2 ^ 16 ≤ (f.block b).successors.length

/-- A pass of the loop keeps the `u16` table in its range, and does not leave such a block. -/
theorem findBackEdgesBody_stuck (hcount : ∀ i, s.successorsVisited i < 2 ^ 16)
    (h : findBackEdgesBody s f = .ok r f') :
    (∀ s', r = .inl s' → ∀ i, s'.successorsVisited i < 2 ^ 16) ∧
      (s.Stuck f → ∃ s', r = .inl s' ∧ s'.Stuck f') := by
  have hsucc : ∀ b, (f'.block b).successors = (f.block b).successors := fun b => by
    rw [(findBackEdgesBody_spec h).1.block b]
  unfold Search.Stuck
  cases hw : s.worklist with
  | nil =>
    rw [findBackEdgesBody_nil hw] at h
    cases h
    exact ⟨by simp, by simp⟩
  | cons current rest =>
    rcases (findBackEdgesBody_cons_iff hw).mp h with ⟨hdone, rfl, -⟩ | ⟨-, successor, -, hvisit⟩
    · -- The block that is left is not the big one, whose index would have to reach `2^16`.
      refine ⟨fun s' hs' => Sum.inl.inj hs' ▸ hcount, fun ⟨b, hb, hbig⟩ => ⟨_, rfl, b, ?_, ?_⟩⟩
      · refine (List.mem_cons.mp hb).resolve_left ?_
        rintro rfl
        exact absurd (hcount (f.block b).orderId) (by rw [hdone]; exact Nat.not_lt.mpr hbig)
      · rw [hsucc]
        exact hbig
    · obtain ⟨s1, rfl, hvisited, hsub, -⟩ := visitSuccessor_cases hvisit
      refine ⟨fun s' hs' i => ?_,
        fun ⟨b, hb, hbig⟩ => ⟨s1, rfl, b, hsub b (hw ▸ hb), by rw [hsucc]; exact hbig⟩⟩
      rw [← Sum.inl.inj hs', hvisited]
      simp only [Search.scan]
      by_cases hi : i = (f.block current).orderId
      · rw [hi, Function.update_self]
        exact Nat.mod_lt _ (by decide)
      · rw [Function.update_of_ne hi]
        exact hcount i

/-- The loop takes the steps of the search, and the search has come to no block with `2^16`
edges. -/
def SearchesSmall (f₀ : HirFunction) (s : Search) (f : HirFunction) : Prop :=
  ∃ t, Searches f₀ t s f ∧
    ∀ b, b ∈ t.stack ∨ b ∈ t.finished → (f₀.block b).outgoing.length < 2 ^ 16

/-- The loop takes the steps of the search as long as it is not stuck. -/
theorem Searches.small_or_stuck
    (hlen : ∀ b < f₀.blockCount, (f₀.block b).successors.length = (f₀.block b).outgoing.length)
    {t : DepthFirst.State BlockRef EdgeRef} (h : Searches f₀ t s f)
    (hsmall : ∀ b ∈ t.finished, (f₀.block b).outgoing.length < 2 ^ 16) :
    SearchesSmall f₀ s f ∨ s.Stuck f := by
  by_cases hstuck : s.Stuck f
  · exact .inr hstuck
  · refine .inl ⟨t, h, fun b hb => hb.elim (fun hb => ?_) (hsmall b)⟩
    rw [← hlen b (h.stack_lt b hb), ← Nat.not_le]
    intro hle
    refine hstuck ⟨b, h.worklist ▸ hb, ?_⟩
    rw [h.analysed.block b]
    exact hle

/-- A pass of the loop from such a state. -/
theorem SearchesSmall.body (hg : Graphed f₀)
    (hlen : ∀ b < f₀.blockCount, (f₀.block b).successors.length = (f₀.block b).outgoing.length)
    (h : SearchesSmall f₀ s f) (hbody : findBackEdgesBody s f = .ok r f') :
    (r = .inr () ∧ f' = f ∧ s.worklist = []) ∨
      ∃ s', r = .inl s' ∧ (SearchesSmall f₀ s' f' ∨ s'.Stuck f') := by
  obtain ⟨t, ht, hsmall⟩ := h
  cases hstack : t.stack with
  -- The loop ends with an empty stack. Otherwise the block on top has few enough edges.
  | nil =>
    have hw := ht.worklist.trans hstack
    rw [findBackEdgesBody_nil hw] at hbody
    cases hbody
    exact .inl ⟨rfl, rfl, hw⟩
  | cons u rest =>
    obtain ⟨t1, s1, f1, hbody1, ht1, hfin, -⟩ :=
      ht.body hg hstack (hsmall u (.inl (by simp [hstack])))
    rw [hbody] at hbody1
    cases hbody1
    exact .inr ⟨s1, rfl, ht1.small_or_stuck hlen fun b hb => hsmall b (hfin b hb)⟩

/-- A loop that returns has searched the graph, and has not come to a block with `2^16` edges. -/
theorem Searches.loop_returned {n : ℕ} (hg : Graphed f₀)
    (hlen : ∀ b < f₀.blockCount, (f₀.block b).successors.length = (f₀.block b).outgoing.length)
    {t : DepthFirst.State BlockRef EdgeRef} (h : Searches f₀ t s f) (hfinished : t.finished = [])
    (hcount : ∀ i, s.successorsVisited i < 2 ^ 16)
    (hloop : loopM findBackEdgesBody .endless n s f = .ok () f') :
    ∃ t' s', Searches f₀ t' s' f' ∧ t'.stack = [] ∧
      ∀ b ∈ t'.finished, (f₀.block b).outgoing.length < 2 ^ 16 := by
  refine loopM_induction (fun s f => (∀ i, s.successorsVisited i < 2 ^ 16) ∧
      (SearchesSmall f₀ s f ∨ s.Stuck f))
    (fun _ f' => ∃ t' s', Searches f₀ t' s' f' ∧ t'.stack = [] ∧
      ∀ b ∈ t'.finished, (f₀.block b).outgoing.length < 2 ^ 16) ?_ ?_
    ⟨hcount, h.small_or_stuck hlen (by simp [hfinished])⟩ hloop
  · rintro s f s' f' ⟨hcount, hcases⟩ hbody
    obtain ⟨hcount', hstuck⟩ := findBackEdgesBody_stuck hcount hbody
    refine ⟨hcount' s' rfl, ?_⟩
    rcases hcases with hsmall | hs
    · obtain ⟨hr, -⟩ | ⟨s1, hs1, hnext⟩ := hsmall.body hg hlen hbody
      · cases hr
      · cases hs1
        exact hnext
    · obtain ⟨s1, hs1, hs'⟩ := hstuck hs
      cases hs1
      exact .inr hs'
  · rintro s f ⟨⟩ f' ⟨hcount, hcases⟩ hbody
    rcases hcases with hsmall | hs
    · obtain ⟨-, rfl, hw⟩ | ⟨s1, hs1, -⟩ := hsmall.body hg hlen hbody
      · obtain ⟨t, ht, hsmall⟩ := hsmall
        exact ⟨t, s, ht, ht.worklist.symm.trans hw, fun b hb => hsmall b (.inr hb)⟩
      · cases hs1
    · -- A loop that is stuck does not end.
      obtain ⟨s1, hs1, -⟩ := (findBackEdgesBody_stuck hcount hbody).2 hs
      cases hs1

end Stuck

/-! ## The part of the pass before the dominators -/

section Total

variable {f₀ f : HirFunction}

/-- The first block of the vector, as the pass looks it up. -/
theorem Graphed.entry (hg : Graphed f₀) (ha : Analysed f₀ f) : f.blocks[0]?.join = some 0 := by
  rw [congrArg HirFunction.blocks ha.rest]
  show f₀.blocks[0]?.join = some 0
  rw [hg.blocks, List.getElem?_map, List.getElem?_range hg.pos]
  rfl

/-- There is an entry. -/
theorem Graphed.blocks_ne_nil (hg : Graphed f₀) : f₀.blocks ≠ [] := by
  rw [hg.blocks]
  simpa using Nat.ne_of_gt hg.pos

/-- `FindDominateEdges` returns, and has changed no block. -/
theorem Graphed.findDominateEdges_ok (hg : Graphed f₀) :
    ∃ f, findDominateEdges f₀ = .ok () f ∧ Analysed f₀ f ∧ f.block = f₀.block := by
  have hex : ∃ f, findDominateEdges f₀ = .ok () f ∧ f.block = f₀.block := by
    refine forM_of_invariant (fun f : HirFunction => f.block = f₀.block)
      (fun block hblock f hf => ?_) rfl
    rw [hg.blocks] at hblock
    obtain ⟨b, -, rfl⟩ := List.mem_map.mp hblock
    simp only [bind_ok_iff, ofOption_ok_iff, modify_ok_iff]
    refine ⟨_, ⟨b, f, ⟨rfl, rfl⟩, rfl⟩, ?_⟩
    split <;> exact hf
  obtain ⟨f, hok, hblock⟩ := hex
  exact ⟨f, hok, (findDominateEdges_spec hok).1, hblock⟩

/-- The start of the search. -/
theorem Searches.start (hg : Graphed f₀) (ha : Analysed f₀ f) (hblock : f.block = f₀.block)
    (hback : ∀ b, (f₀.block b).backEdges = []) :
    Searches f₀ (DepthFirst.start 0) {
      visited := Function.update (fun _ => false) (f.block 0).orderId true
      visiting := Function.update (fun _ => false) (f.block 0).orderId true
      successorsVisited := fun _ => 0
      worklist := [0] } f := by
  have hid : (f.block 0).orderId = 0 := by
    rw [hblock]
    exact hg.orderId 0 hg.pos
  refine ⟨.refl, ha, fun b => by rw [hblock], fun b _ => by rw [hblock]; exact hback b, ?_, rfl,
    fun b _ => ?_, fun b _ => ?_, fun _ _ => rfl⟩
  · simpa [DepthFirst.start] using hg.pos
  · simp [DepthFirst.start, hid, Function.update_apply]
  · simp [DepthFirst.start, hid, Function.update_apply]

/-- `FindBackEdges` returns, and has recorded what a depth-first search finds. -/
theorem Graphed.findBackEdges_ok {fuel : ℕ} (hg : Graphed f₀) (ha : Analysed f₀ f)
    (hblock : f.block = f₀.block) (hback : ∀ b, (f₀.block b).backEdges = [])
    (hout : ∀ b < f₀.blockCount, (f₀.block b).outgoing.length < 2 ^ 16)
    (hfuel : 2 * f₀.edgeCount + 1 < fuel) :
    ∃ f' d, findBackEdges fuel f = .ok () f' ∧ DepthFirst.Explores f₀.graph 0 d ∧
      Analysed f₀ f' ∧ (∀ b, (f'.block b).dominator = (f₀.block b).dominator) ∧
      ∀ b < f₀.blockCount,
        (f'.block b).backEdges = (f₀.graph.into d.back b).map f₀.graph.src := by
  obtain ⟨f', hloop, t, s, ht, hend⟩ := (Searches.start hg ha hblock hback).loop hg hout
    (show Searches.remaining f₀ (DepthFirst.start 0) < fuel by
      simpa [Searches.remaining, DepthFirst.start] using hfuel)
  refine ⟨f', t, ?_, ⟨ht.steps, hend⟩, ht.analysed, ht.dominator, ht.backEdges⟩
  simp only [findBackEdges, bind_ok_iff, get_ok_iff, ofOption_ok_iff]
  exact ⟨f, f, ⟨rfl, rfl⟩, 0, f, ⟨hg.entry ha, rfl⟩, hloop⟩

/-- Whenever `FindBackEdges` returns, it has recorded what a depth-first search finds, and the
search has come to no block with `2^16` outgoing edges. -/
theorem Graphed.findBackEdges_returned {fuel : ℕ} {f' : HirFunction} (hg : Graphed f₀)
    (hlen : ∀ b < f₀.blockCount, (f₀.block b).successors.length = (f₀.block b).outgoing.length)
    (ha : Analysed f₀ f) (hblock : f.block = f₀.block) (hback : ∀ b, (f₀.block b).backEdges = [])
    (h : findBackEdges fuel f = .ok () f') :
    ∃ d, DepthFirst.Explores f₀.graph 0 d ∧ Analysed f₀ f' ∧
      (∀ b, (f'.block b).dominator = (f₀.block b).dominator) ∧
      (∀ b < f₀.blockCount,
        (f'.block b).backEdges = (f₀.graph.into d.back b).map f₀.graph.src) ∧
      ∀ b ∈ d.finished, (f₀.block b).outgoing.length < 2 ^ 16 := by
  simp only [findBackEdges, bind_ok_iff, get_ok_iff, ofOption_ok_iff] at h
  obtain ⟨_, _, ⟨rfl, rfl⟩, entry, _, ⟨hentry, rfl⟩, hloop⟩ := h
  obtain rfl : 0 = entry := Option.some.inj ((hg.entry ha).symm.trans hentry)
  obtain ⟨t, s, ht, hend, hsmall⟩ := Searches.loop_returned hg hlen
    (Searches.start hg ha hblock hback) rfl (fun _ => Nat.two_pow_pos 16) hloop
  exact ⟨t, ⟨ht.steps, hend⟩, ht.analysed, ht.dominator, ht.backEdges, hsmall⟩

end Total

end SwiftRuntime.Ir
