import SwiftRuntime.DominatorSweep
import SwiftRuntime.Ir.BackEdges
import SwiftRuntime.Ir.CommonDominator

/-!
# The sweep of the analysis

`ComputeDominanceInformation` takes the steps of `DominatorSweep` after the search of
`FindBackEdges` (`Follows`): the stack is `worklist`, and the `u16` tables count the edges of a
block that have been followed, in and out, as long as there are not `2^16` of them. What an edge
does to the dominators is left open here, and so is what the sweep keeps: a proof about the pass
gives it as a `SweepRule`, and `Finishes.pass_ok` takes it through the whole pass.

A block is put into `blocks_rpo` when it is put on `worklist`, and only then. So `rpoPushes` reads
off `worklist` what the loop has put into the list.
-/

namespace SwiftRuntime.Ir

/-! ## A pass of the loop -/

section Sweep

variable {P : Platform} {fuel : ℕ} {s : Sweep} {f f' : HirFunction} {current successor : BlockRef}
  {rest : List BlockRef} {r : Sweep ⊕ Unit}

/-- One more visit is the last one that a block waits for. -/
def Sweep.Full (s : Sweep) (f : HirFunction) (successor : BlockRef) : Prop :=
  (s.visits (f.block successor).orderId + 1) % 2 ^ 16 + (f.block successor).backEdges.length =
    (f.block successor).predecessors.length

/-- Whether the count of a block is complete can be computed. -/
instance : Decidable (s.Full f successor) := inferInstanceAs (Decidable (_ = _))

/-- The state after the visit. -/
def Sweep.visit (s : Sweep) (f : HirFunction) (successor : BlockRef) : Sweep :=
  { s with
    visits := Function.update s.visits (f.block successor).orderId
      ((s.visits (f.block successor).orderId + 1) % 2 ^ 16)
    worklist := if s.Full f successor then successor :: s.worklist else s.worklist }

/-- The start of the loop. -/
def Sweep.start (entry : BlockRef) : Sweep where
  visits _ := 0
  successorsVisited _ := 0
  worklist := [entry]

/-- The blocks that a pass of the loop has put on `worklist`. -/
def pushedBy (s s' : Sweep) : List BlockRef :=
  s'.worklist.take (s'.worklist.length - s.worklist.length)

/-- The blocks that the pass puts into `blocks_rpo`, in order. -/
def rpoPushes (P : Platform) (fuel : ℕ) (f : HirFunction) : List BlockRef :=
  match (do findDominateEdges; findBackEdges fuel : Build Unit) f with
  | .ok _ f =>
    match f.blocks[0]?.join with
    | some entry => loopLog (computeDominanceBody P fuel) pushedBy fuel (.start entry) f
    | none => []
  | .error _ _ => []

/-- Leaving a block puts none on the stack. -/
theorem pushedBy_pop (hw : s.worklist = current :: rest) :
    pushedBy s { s with worklist := rest } = [] := by
  simp [pushedBy, hw]

/-- A visit puts the block on the stack that it completes the count of. -/
theorem pushedBy_visit (s : Sweep) (f : HirFunction) (successor : BlockRef) (id : ℕ) :
    pushedBy s ((s.scan id).visit f successor) =
      if (s.scan id).Full f successor then [successor] else [] := by
  unfold pushedBy Sweep.visit
  split_ifs <;> simp [Sweep.scan]

/-- The count of a visit puts the block into `blocks_rpo` and on the stack if it is complete. -/
theorem countVisit_ok_iff :
    countVisit P s successor f = .ok r f' ↔ r = .inl (s.visit f successor) ∧
      if s.Full f successor then
        (P.listAsserts = true → f.links.next (.block successor) = .block successor) ∧
          f' = { f with links := f.links.pushBack .blocksRpo (.block successor) }
      else f' = f := by
  simp only [countVisit, bind_ok_iff, get_ok_iff, Function.update_self]
  unfold Sweep.visit
  -- With the count complete the block is put into the list, after the assertion of the list.
  by_cases hfull : s.Full f successor
  · rw [if_pos hfull, if_pos hfull]
    have hfull' := hfull
    unfold Sweep.Full at hfull'
    constructor
    · rintro ⟨_, _, ⟨rfl, rfl⟩, h⟩
      rw [if_pos hfull'] at h
      simp only [pushRpo, bind_ok_iff, get_ok_iff, require_ok_iff, modify_ok_iff] at h
      obtain ⟨⟨⟩, _, ⟨_, _, ⟨rfl, rfl⟩, ⟨⟩, _, ⟨hassert, rfl⟩, rfl⟩, h⟩ := h
      obtain ⟨rfl, rfl⟩ := pure_ok_iff.mp h
      exact ⟨rfl, hassert, rfl⟩
    · rintro ⟨rfl, hassert, rfl⟩
      refine ⟨f, f, ⟨rfl, rfl⟩, ?_⟩
      rw [if_pos hfull']
      simp only [pushRpo, bind_ok_iff, get_ok_iff, require_ok_iff, modify_ok_iff]
      exact ⟨(), _, ⟨f, f, ⟨rfl, rfl⟩, (), f, ⟨hassert, rfl⟩, rfl⟩, rfl⟩
  · rw [if_neg hfull, if_neg hfull]
    have hfull' := hfull
    unfold Sweep.Full at hfull'
    constructor
    · rintro ⟨_, _, ⟨rfl, rfl⟩, h⟩
      rw [if_neg hfull'] at h
      obtain ⟨rfl, rfl⟩ := pure_ok_iff.mp h
      exact ⟨rfl, rfl⟩
    · rintro ⟨rfl, rfl⟩
      refine ⟨_, _, ⟨rfl, rfl⟩, ?_⟩
      rw [if_neg hfull']
      rfl

/-- `UpdateDominatorOfSuccessor` makes the block that it has found the dominator. -/
theorem updateDominatorOfSuccessor_ok (fuel : ℕ) {d : BlockRef}
    (hmem : some successor ∈ (f.block current).successors)
    (hnew : (match (f.block successor).dominator with
      | none => .ok (some current)
      | some old =>
        CommonDominator.forPair (fun b => (f.block b).dominator) fuel (some old) (some current)) =
        Except.ok (some d)) :
    ∃ f', updateDominatorOfSuccessor fuel current successor f = .ok () f' ∧
      (fun b => (f'.block b).dominator) =
        Function.update (fun b => (f.block b).dominator) successor (some d) := by
  -- The block is set only if it is another one than before.
  have heval : ∀ f', (if (f.block successor).dominator ≠ some d then
        modify fun f => f.setBlock successor fun x => { x with dominator := some d }
      else pure () : Build Unit) f = .ok () f' →
      updateDominatorOfSuccessor fuel current successor f = .ok () f' := by
    intro f' hif
    simp only [updateDominatorOfSuccessor, bind_ok_iff, get_ok_iff, require_ok_iff, ofExcept_ok_iff]
    exact ⟨f, f, ⟨rfl, rfl⟩, (), f, ⟨hmem, rfl⟩, some d, f, ⟨hnew, rfl⟩, hif⟩
  by_cases hsame : (f.block successor).dominator = some d
  · refine ⟨f, heval f (by rw [if_neg (not_not.mpr hsame)]; rfl), ?_⟩
    rw [← hsame, Function.update_eq_self]
  · refine ⟨_, heval _ (by rw [if_pos hsame]; rfl), ?_⟩
    funext b
    by_cases hb : b = successor
    · subst hb
      simp [HirFunction.setBlock]
    · simp [HirFunction.setBlock, hb]

/-- A block with a dominator gets the nearest common one, if the chains have a block in common. -/
theorem updateDominatorOfSuccessor_meets {old : BlockRef} {xs ys : List BlockRef}
    (hmem : some successor ∈ (f.block current).successors)
    (hold : (f.block successor).dominator = some old)
    (hxs : Chain (fun b => (f.block b).dominator) old xs)
    (hys : Chain (fun b => (f.block b).dominator) current ys) (hcommon : ∃ x, x ∈ xs ∧ x ∈ ys)
    (hxlen : xs.length < fuel) (hylen : ys.length < fuel) :
    ∃ q zs f', updateDominatorOfSuccessor fuel current successor f = .ok () f' ∧
      (fun b => (f'.block b).dominator) =
        Function.update (fun b => (f.block b).dominator) successor (some q) ∧
      Chain (fun b => (f.block b).dominator) q zs ∧ ∀ x, x ∈ zs ↔ x ∈ xs ∧ x ∈ ys := by
  obtain ⟨q, zs, hpair, hzs, hzmem⟩ := CommonDominator.forPair_spec hxs hys hcommon hxlen hylen
  obtain ⟨f', hok, hdominator⟩ :=
    updateDominatorOfSuccessor_ok fuel (d := q) hmem (by rw [hold]; exact hpair)
  exact ⟨q, zs, f', hok, hdominator, hzs, hzmem⟩

/-- A pass that goes round again has found a block on the stack. -/
theorem computeDominanceBody_inl {s' : Sweep}
    (h : computeDominanceBody P fuel s f = .ok (.inl s') f') :
    ∃ current rest, s.worklist = current :: rest := by
  refine List.exists_cons_of_ne_nil fun hw => ?_
  rw [computeDominanceBody_nil hw] at h
  cases h

/-- A pass that leaves the loop has found the stack empty. -/
theorem computeDominanceBody_inr {c : Unit}
    (h : computeDominanceBody P fuel s f = .ok (.inr c) f') : s.worklist = [] ∧ f' = f := by
  cases hw : s.worklist with
  | nil =>
    rw [computeDominanceBody_nil hw] at h
    cases h
    exact ⟨rfl, rfl⟩
  | cons current rest =>
    obtain ⟨-, hr, -⟩ | ⟨-, _, _, -, -, hcount⟩ := (computeDominanceBody_cons_iff hw).mp h
    · cases hr
    · cases (countVisit_ok_iff.mp hcount).1

/-- The invariant rule for the loop, with the blocks that have been put on the stack. -/
theorem computeDominance_induction (Inv : List BlockRef → Sweep → HirFunction → Prop)
    (hstep : ∀ log s f s' f', Inv log s f → computeDominanceBody P fuel s f = .ok (.inl s') f' →
      Inv (log ++ pushedBy s s') s' f') (h0 : Inv [] s f) {n : ℕ}
    (h : loopM (computeDominanceBody P fuel) .endless n s f = .ok () f') :
    ∃ s', s'.worklist = [] ∧ Inv (loopLog (computeDominanceBody P fuel) pushedBy n s f) s' f' := by
  refine loopM_log_induction pushedBy Inv (fun log _ f => ∃ s', s'.worklist = [] ∧ Inv log s' f)
    hstep (fun log s f c f' hinv hbody => ?_) h0 h
  obtain ⟨hw, rfl⟩ := computeDominanceBody_inr hbody
  exact ⟨s, hw, hinv⟩

/-- What `UpdateDominatorOfSuccessor` has changed when it returns. -/
theorem updateDominatorOfSuccessor_spec
    (h : updateDominatorOfSuccessor fuel current successor f = .ok () f') :
    (f'.block successor).dominator ≠ none ∧
      (∀ b, (f.block b).dominator ≠ none → (f'.block b).dominator ≠ none) ∧
      (∀ b, (f'.block b).backEdges = (f.block b).backEdges) ∧ f'.links = f.links := by
  simp only [updateDominatorOfSuccessor, bind_ok_iff, get_ok_iff, require_ok_iff,
    ofExcept_ok_iff] at h
  obtain ⟨_, _, ⟨rfl, rfl⟩, ⟨⟩, _, ⟨-, rfl⟩, d, f, ⟨hnew, rfl⟩, h⟩ := h
  -- The block that is found is the source of the edge, or the one that the finder has.
  have hd : d ≠ none := by
    cases hold : (f.block successor).dominator with
    | none =>
      rw [hold] at hnew
      cases hnew
      exact Option.some_ne_none current
    | some old =>
      rw [hold] at hnew
      exact CommonDominator.forPair_ne_none hnew
  split_ifs at h with hsame
  · rw [modify_ok_iff.mp h]
    refine ⟨by simpa [HirFunction.setBlock] using hd, fun b hb => ?_, fun b => ?_, rfl⟩ <;>
      by_cases hbs : b = successor
    · simpa [HirFunction.setBlock, hbs] using hd
    · simpa [HirFunction.setBlock, hbs] using hb
    · simp [HirFunction.setBlock, hbs]
    · simp [HirFunction.setBlock, hbs]
  · obtain ⟨-, rfl⟩ := pure_ok_iff.mp h
    exact ⟨not_not.mp hsame ▸ hd, fun _ hb => hb, fun _ => rfl, rfl⟩

end Sweep

/-! ## The steps of the sweep -/

/-- The loop of `ComputeDominanceInformation` takes the steps of a sweep: how its state and the
function go with a state of the sweep after the search that has come to `d`, whatever the dominators
are. -/
structure Follows (f₀ : HirFunction) (d : DepthFirst.State BlockRef EdgeRef)
    (t : DominatorSweep.State BlockRef EdgeRef) (s : Sweep) (f : HirFunction) : Prop where
  /-- What the pass leaves alone. -/
  analysed : Analysed f₀ f
  /-- The edges of a block are followed in order. -/
  scanned : f₀.graph.Scanned t.seen
  /-- The stack has blocks. -/
  stack_lt : ∀ b ∈ t.stack, b < f₀.blockCount
  /-- The back edges are those of the search. -/
  backEdges : ∀ b < f₀.blockCount, (f.block b).backEdges = (f₀.graph.into d.back b).map f₀.graph.src
  /-- `worklist` is the stack. -/
  worklist : s.worklist = t.stack
  /-- `visits` counts the edges to a block that have been followed. -/
  visits : ∀ b < f₀.blockCount, s.visits b = (f₀.graph.into t.seen b).length
  /-- `successors_visited` counts the edges of a block that have been followed. -/
  successorsVisited : ∀ b < f₀.blockCount,
    s.successorsVisited b = (f₀.graph.outOf t.seen b).length

/-- What a sweep keeps, if every edge that it follows can update the dominator of its target: a
relation between the states of the sweep and the dominators. -/
structure SweepRule (f₀ : HirFunction) (d : DepthFirst.State BlockRef EdgeRef) (fuel : ℕ)
    (R : DominatorSweep.State BlockRef EdgeRef → (BlockRef → Option BlockRef) → Prop) : Prop where
  /-- At the start there are no dominators. -/
  start : R (DominatorSweep.start 0) fun _ => none
  /-- The sweep leaves a block. -/
  pop : ∀ t parent u rest, R t parent → t.stack = u :: rest → f₀.graph.next t.seen u = none →
    R { t with stack := rest } parent
  /-- The sweep follows an edge. -/
  update : ∀ t s f u rest e, Follows f₀ d t s f → R t (fun b => (f.block b).dominator) →
    t.stack = u :: rest → f₀.graph.next t.seen u = some e →
    some (f₀.graph.dest e) ∈ (f.block u).successors →
    ∃ f', updateDominatorOfSuccessor fuel u (f₀.graph.dest e) f = .ok () f' ∧
      R (t.follow f₀.graph d.back e) fun b => (f'.block b).dominator

namespace Follows

variable {P : Platform} {fuel : ℕ} {f₀ f f1 f' : HirFunction}
  {d : DepthFirst.State BlockRef EdgeRef} {t : DominatorSweep.State BlockRef EdgeRef} {s : Sweep}
  {u : BlockRef} {rest : List BlockRef} {e : EdgeRef} {r : Sweep ⊕ Unit}

/-- A bound on the steps that a sweep has still to go. -/
def remaining (f₀ : HirFunction) (t : DominatorSweep.State BlockRef EdgeRef) : ℕ :=
  2 * (f₀.edgeCount - t.seen.length) + t.stack.length

/-- The start of the loop. -/
theorem start (hg : Graphed f₀) (ha : Analysed f₀ f) (hback : ∀ b < f₀.blockCount,
      (f.block b).backEdges = (f₀.graph.into d.back b).map f₀.graph.src) :
    Follows f₀ d (DominatorSweep.start 0) (.start 0) f :=
  ⟨ha, Multigraph.scanned_nil, by simpa [DominatorSweep.start] using hg.pos, hback, rfl,
    fun _ _ => rfl, fun _ _ => rfl⟩

/-- The blocks keep their numbers. -/
theorem orderId (h : Follows f₀ d t s f) (hg : Graphed f₀) {b : BlockRef} (hb : b < f₀.blockCount) :
    (f.block b).orderId = b := by
  rw [h.analysed.block b]
  exact hg.orderId b hb

/-- The sweep leaves a block. -/
theorem pop (h : Follows f₀ d t s f) (hstack : t.stack = u :: rest) :
    Follows f₀ d { t with stack := rest } { s with worklist := rest } f :=
  { h with
    stack_lt := fun b hb => h.stack_lt b (hstack ▸ List.mem_cons_of_mem _ hb)
    worklist := rfl }

section Step

variable (hg : Graphed f₀) (h : Follows f₀ d t s f) (hstack : t.stack = u :: rest)
  (hout : (f₀.block u).outgoing.length < 2 ^ 16)

include hg h hstack hout in
/-- A pass of the loop at a block whose edges have all been followed. -/
theorem body_pop (hnext : f₀.graph.next t.seen u = none) :
    computeDominanceBody P fuel s f = .ok (.inl { s with worklist := rest }) f := by
  have hu := h.stack_lt u (by simp [hstack])
  obtain ⟨-, hdone⟩ := hg.next_none h.analysed hu hout h.scanned hnext
  refine (computeDominanceBody_cons_iff (h.worklist.trans hstack)).mpr (.inl ⟨?_, rfl, rfl⟩)
  rw [h.orderId hg hu, h.successorsVisited u hu, hdone]

include hg h hstack hout in
/-- A pass of the loop at another block. -/
theorem body_follow_iff (hnext : f₀.graph.next t.seen u = some e) :
    computeDominanceBody P fuel s f = .ok r f' ↔ ∃ f1,
      updateDominatorOfSuccessor fuel u (f₀.graph.dest e) f = .ok () f1 ∧
        countVisit P (s.scan u) (f₀.graph.dest e) f1 = .ok r f' := by
  have hu := h.stack_lt u (by simp [hstack])
  obtain ⟨-, hlt, hget, -, -⟩ := hg.next_some h.analysed hu hout hnext
  rw [computeDominanceBody_cons_iff (h.worklist.trans hstack), h.orderId hg hu,
    h.successorsVisited u hu, hget]
  constructor
  · rintro (⟨hdone, -⟩ | ⟨-, successor, f1, hsucc, hupdate, hcount⟩)
    · exact absurd hdone (Nat.ne_of_lt hlt)
    · cases hsucc
      exact ⟨f1, hupdate, hcount⟩
  · rintro ⟨f1, hupdate, hcount⟩
    exact .inr ⟨Nat.ne_of_lt hlt, _, f1, rfl, hupdate, hcount⟩

variable (hnext : f₀.graph.next t.seen u = some e)
  (hin : (f₀.graph.into (t.seen ++ [e]) (f₀.graph.dest e)).length < 2 ^ 16) (ha : Analysed f f1)
  (hback : ∀ b, (f1.block b).backEdges = (f.block b).backEdges)

include hg h hnext hin ha in
/-- The count of visits does not wrap. -/
theorem visits_succ :
    (s.visits (f1.block (f₀.graph.dest e)).orderId + 1) % 2 ^ 16 =
      (f₀.graph.into (t.seen ++ [e]) (f₀.graph.dest e)).length := by
  obtain ⟨hedge, -, -, -⟩ := h.scanned.next_spec hnext
  have hdest := (hg.edge_lt e hedge).2
  have hinto : (f₀.graph.into (t.seen ++ [e]) (f₀.graph.dest e)).length =
      (f₀.graph.into t.seen (f₀.graph.dest e)).length + 1 := by
    rw [Multigraph.length_into_concat, if_pos rfl]
  have hid : (f1.block (f₀.graph.dest e)).orderId = f₀.graph.dest e := by
    rw [(h.analysed.trans ha).block]
    exact hg.orderId _ hdest
  rw [hid, h.visits _ hdest, hinto]
  exact Nat.mod_eq_of_lt (hinto ▸ hin)

include hg h hnext hin ha hback in
/-- The code compares the count of visits with what the sweep does. -/
theorem full_iff :
    (s.scan u).Full f1 (f₀.graph.dest e) ↔
      DominatorSweep.Complete f₀.graph d.back (t.seen ++ [e]) (f₀.graph.dest e) := by
  obtain ⟨hedge, -, -, -⟩ := h.scanned.next_spec hnext
  have hdest := (hg.edge_lt e hedge).2
  unfold Sweep.Full
  rw [show (s.scan u).visits = s.visits from rfl, h.visits_succ hg hnext hin ha, hback,
    h.backEdges _ hdest, List.length_map, (h.analysed.trans ha).block]
  show _ = (f₀.block (f₀.graph.dest e)).predecessors.length ↔ _
  rw [hg.predecessors _ hdest, hg.incoming _ hdest]
  rfl

include hg h hstack hout hnext hin ha hback in
/-- The state after an edge has been followed. -/
theorem follow (ha' : Analysed f1 f') (hblock : f'.block = f1.block) :
    Follows f₀ d (t.follow f₀.graph d.back e) ((s.scan u).visit f1 (f₀.graph.dest e)) f' := by
  have hu := h.stack_lt u (by simp [hstack])
  obtain ⟨hedge, hsrc, -, hscanned⟩ := h.scanned.next_spec hnext
  have hdest := (hg.edge_lt e hedge).2
  have hmod := (hg.next_some h.analysed hu hout hnext).2.2.2.1
  have hid : (f1.block (f₀.graph.dest e)).orderId = f₀.graph.dest e := by
    rw [(h.analysed.trans ha).block]
    exact hg.orderId _ hdest
  have hfull := h.full_iff hg hnext hin ha hback
  refine ⟨(h.analysed.trans ha).trans ha', ?_, fun b hb => ?_, fun b hb => ?_, ?_, fun b hb => ?_,
    fun b hb => ?_⟩
  · rw [DominatorSweep.State.follow_seen]
    exact hscanned
  -- The stack has the same blocks, and the target if it is released.
  · unfold DominatorSweep.State.follow at hb
    split_ifs at hb
    · rcases List.mem_cons.mp hb with rfl | hb
      · exact hdest
      · exact h.stack_lt b hb
    · exact h.stack_lt b hb
  · rw [hblock, hback]
    exact h.backEdges b hb
  -- The code counts visits where the sweep counts edges.
  · show (if _ then _ else s.worklist) = _
    rw [h.worklist]
    unfold DominatorSweep.State.follow
    by_cases hc : DominatorSweep.Complete f₀.graph d.back (t.seen ++ [e]) (f₀.graph.dest e)
    · rw [if_pos (hfull.mpr hc), if_pos hc]
      exact congrArg _ h.worklist
    · rw [if_neg (mt hfull.mp hc), if_neg hc]
  -- Only the target has been visited once more.
  · show Function.update s.visits _ _ b = _
    rw [show (s.scan u).visits = s.visits from rfl, h.visits_succ hg hnext hin ha, hid,
      DominatorSweep.State.follow_seen]
    by_cases hbd : b = f₀.graph.dest e
    · subst hbd
      rw [Function.update_self]
    · rw [Function.update_of_ne hbd, Multigraph.length_into_concat, if_neg (Ne.symm hbd),
        h.visits b hb, Nat.add_zero]
  · rw [DominatorSweep.State.follow_seen]
    exact update_counted h.successorsVisited hu hsrc hmod hb

end Step

section Returned

variable (hg : Graphed f₀) (h : Follows f₀ d t s f) (hstack : t.stack = u :: rest)
  (hout : (f₀.block u).outgoing.length < 2 ^ 16)
  (hin : ∀ e, f₀.graph.next t.seen u = some e →
    (f₀.graph.into (t.seen ++ [e]) (f₀.graph.dest e)).length < 2 ^ 16)

include hg h hstack hout hin in
/-- A pass of the loop that returns has taken a step of the sweep. -/
theorem body_returned (hbody : computeDominanceBody P fuel s f = .ok r f') :
    ∃ t' s', r = .inl s' ∧ Follows f₀ d t' s' f' ∧
      t'.released = (pushedBy s s').reverse ++ t.released ∧
      ((f₀.graph.next t.seen u = none ∧ t' = { t with stack := rest } ∧ f' = f) ∨
        ∃ e f1, f₀.graph.next t.seen u = some e ∧ t' = t.follow f₀.graph d.back e ∧
          updateDominatorOfSuccessor fuel u (f₀.graph.dest e) f = .ok () f1 ∧
          f'.block = f1.block) := by
  cases hnext : f₀.graph.next t.seen u with
  -- All edges of the block have been followed, or the next one is.
  | none =>
    rw [h.body_pop hg hstack hout hnext] at hbody
    cases hbody
    refine ⟨_, _, rfl, h.pop hstack, ?_, .inl ⟨rfl, rfl, rfl⟩⟩
    rw [pushedBy_pop (h.worklist.trans hstack)]
    rfl
  | some e =>
    obtain ⟨f1, hupdate, hcount⟩ := (h.body_follow_iff hg hstack hout hnext).mp hbody
    obtain ⟨-, -, hback, -⟩ := updateDominatorOfSuccessor_spec hupdate
    have ha := updateDominatorOfSuccessor_analysed hupdate
    have hfull := h.full_iff hg hnext (hin e hnext) ha hback
    obtain ⟨rfl, hcases⟩ := countVisit_ok_iff.mp hcount
    have hblock : f'.block = f1.block := by
      split_ifs at hcases with hf
      · rw [hcases.2]
      · rw [hcases]
    refine ⟨_, _, rfl, h.follow hg hstack hout hnext (hin e hnext) ha hback
      (countVisit_analysed hcount) hblock, ?_, .inr ⟨e, f1, rfl, rfl, hupdate, hblock⟩⟩
    rw [pushedBy_visit]
    unfold DominatorSweep.State.follow
    by_cases hc : DominatorSweep.Complete f₀.graph d.back (t.seen ++ [e]) (f₀.graph.dest e)
    · rw [if_pos (hfull.mpr hc), if_pos hc]
      rfl
    · rw [if_neg (mt hfull.mp hc), if_neg hc]
      rfl

end Returned

section Loop

variable {R : DominatorSweep.State BlockRef EdgeRef → (BlockRef → Option BlockRef) → Prop}
  (hR : SweepRule f₀ d fuel R) (hg : Graphed f₀) (hP : P.listAsserts = false)
  (hout : ∀ b < f₀.blockCount, (f₀.block b).outgoing.length < 2 ^ 16)
  (hin : ∀ b < f₀.blockCount, (f₀.block b).incoming.length < 2 ^ 16)

include hg hin in
/-- No more edges to a block are followed than there are. -/
theorem into_lt (h : Follows f₀ d t s f) (hnext : f₀.graph.next t.seen u = some e) :
    (f₀.graph.into (t.seen ++ [e]) (f₀.graph.dest e)).length < 2 ^ 16 := by
  obtain ⟨hedge, -, -, hscanned⟩ := h.scanned.next_spec hnext
  have hdest := (hg.edge_lt e hedge).2
  refine (hscanned.length_into_le _).trans_lt ?_
  rw [← hg.incoming _ hdest]
  exact hin _ hdest

include hR hg hP hout hin in
/-- A pass of the loop. -/
theorem step (h : Follows f₀ d t s f) (ht : R t fun b => (f.block b).dominator)
    (hstack : t.stack = u :: rest) :
    ∃ t' s' f', computeDominanceBody P fuel s f = .ok (.inl s') f' ∧ Follows f₀ d t' s' f' ∧
      R t' (fun b => (f'.block b).dominator) ∧
      t'.released = (pushedBy s s').reverse ++ t.released ∧ remaining f₀ t' < remaining f₀ t := by
  have hu := h.stack_lt u (by simp [hstack])
  have hinto := fun e => h.into_lt (u := u) (e := e) hg hin
  cases hnext : f₀.graph.next t.seen u with
  | none =>
    have hbody : computeDominanceBody P fuel s f = .ok (.inl { s with worklist := rest }) f :=
      h.body_pop hg hstack (hout u hu) hnext
    obtain ⟨t', s', hs', ht', hreleased, ⟨-, rfl, -⟩ | ⟨e, f1, he, -⟩⟩ :=
      h.body_returned hg hstack (hout u hu) hinto hbody
    · cases hs'
      exact ⟨_, _, f, hbody, ht', hR.pop t _ u rest ht hstack hnext, hreleased,
        by simp [remaining, hstack]⟩
    · rw [hnext] at he
      cases he
  | some e =>
    obtain ⟨hedge, -, hnew, -⟩ := h.scanned.next_spec hnext
    have hmem := (hg.next_some h.analysed hu (hout u hu) hnext).2.2.2.2
    obtain ⟨f1, hok, hkept⟩ := hR.update t s f u rest e h ht hstack hnext hmem
    -- Without the assertion of the list library, counting a visit returns.
    obtain ⟨f', hcount⟩ : ∃ f', countVisit P (s.scan u) (f₀.graph.dest e) f1 =
        .ok (.inl ((s.scan u).visit f1 (f₀.graph.dest e))) f' := by
      by_cases hf : (s.scan u).Full f1 (f₀.graph.dest e)
      · exact ⟨_, countVisit_ok_iff.mpr ⟨rfl, by rw [if_pos hf]; exact ⟨by simp [hP], rfl⟩⟩⟩
      · exact ⟨_, countVisit_ok_iff.mpr ⟨rfl, by rw [if_neg hf]⟩⟩
    have hbody := (h.body_follow_iff hg hstack (hout u hu) hnext).mpr ⟨f1, hok, hcount⟩
    obtain ⟨t', s', hs', ht', hreleased, ⟨he, -⟩ | ⟨e', f1', he, rfl, hok', hblock⟩⟩ :=
      h.body_returned hg hstack (hout u hu) hinto hbody
    · rw [hnext] at he
      cases he
    · obtain rfl : e = e' := Option.some.inj (hnext.symm.trans he)
      rw [hok] at hok'
      cases hok'
      refine ⟨_, s', f', by rw [hbody, hs'], ht', by rw [hblock]; exact hkept, hreleased, ?_⟩
      -- One more edge outweighs the block that may have come to the stack.
      have hseen : t.seen.length < f₀.edgeCount := by
        have := h.scanned.length_lt hedge hnew
        rwa [show f₀.graph.edges.length = f₀.edgeCount from List.length_range] at this
      have hlen : (t.follow f₀.graph d.back e).stack.length ≤ t.stack.length + 1 := by
        unfold DominatorSweep.State.follow
        split_ifs
        · exact Nat.le_refl _
        · exact Nat.le_succ _
      simp only [remaining, DominatorSweep.State.follow_seen, List.length_append,
        List.length_singleton]
      omega

include hR hg hP hout hin in
/-- The loop goes round until the stack is empty. -/
theorem loop {n : ℕ} (h : Follows f₀ d t s f) (ht : R t fun b => (f.block b).dominator)
    (hn : remaining f₀ t < n) :
    ∃ f', loopM (computeDominanceBody P fuel) .endless n s f = .ok () f' ∧
      ∃ t' s', Follows f₀ d t' s' f' ∧ R t' (fun b => (f'.block b).dominator) ∧ t'.stack = [] ∧
        t'.released =
          (loopLog (computeDominanceBody P fuel) pushedBy n s f).reverse ++ t.released := by
  -- First that the loop returns, by the measure, and then by induction on its passes what it has
  -- kept.
  have hreturns : ∃ c f', loopM (computeDominanceBody P fuel) .endless n s f = .ok c f' ∧ True := by
    refine loopM_of_measure (fun k s f => ∃ t, Follows f₀ d t s f ∧
      R t (fun b => (f.block b).dominator) ∧ remaining f₀ t = k) _ ?_ ⟨t, h, ht, rfl⟩ hn
    rintro k s f ⟨t, h, ht, rfl⟩
    cases hstack : t.stack with
    | nil => exact .inr ⟨(), f, computeDominanceBody_nil (h.worklist.trans hstack), trivial⟩
    | cons u rest =>
      obtain ⟨t', s', f', hbody, h', ht', -, hlt⟩ := h.step hR hg hP hout hin ht hstack
      exact .inl ⟨_, s', f', hlt, hbody, t', h', ht', rfl⟩
  obtain ⟨⟨⟩, f', hloop, -⟩ := hreturns
  refine ⟨f', hloop, ?_⟩
  have hend := computeDominance_induction
    (fun log s f => ∃ t', Follows f₀ d t' s f ∧ R t' (fun b => (f.block b).dominator) ∧
      t'.released = log.reverse ++ t.released) ?_ ⟨t, h, ht, rfl⟩ hloop
  · obtain ⟨s', hw, t', h', ht', hreleased⟩ := hend
    exact ⟨t', s', h', ht', h'.worklist.symm.trans hw, hreleased⟩
  · rintro log s f s' f' ⟨t', h', ht', hreleased⟩ hbody
    obtain ⟨u, rest, hw⟩ := computeDominanceBody_inl hbody
    obtain ⟨t'', s'', f'', hbody', h'', ht'', hreleased', -⟩ :=
      h'.step hR hg hP hout hin ht' (h'.worklist.symm.trans hw)
    rw [hbody] at hbody'
    cases hbody'
    exact ⟨t'', h'', ht'', by rw [hreleased', hreleased]; simp⟩

end Loop

end Follows

/-! ## The pass -/

section Pass

variable {P : Platform} {fuel : ℕ} {f f' f2 : HirFunction}

/-- The search comes to every block. -/
theorem Graphed.mem_finished (hreach : ∀ b < f.blockCount, FlowGraph.Reachable f.graph.Adj 0 b)
    {d : DepthFirst.State BlockRef EdgeRef} (hd : DepthFirst.Explored f.graph 0 d) {b : BlockRef}
    (hb : b < f.blockCount) : b ∈ d.finished :=
  hd.closed b (FlowGraph.reachable_iff.mp (hreach b hb))

/-- `ComputeDominanceInformation` is a loop that starts at block 0. -/
theorem Graphed.computeDominanceInformation_ok_iff (hg : Graphed f) (ha : Analysed f f2) :
    computeDominanceInformation P fuel f2 = .ok () f' ↔
      loopM (computeDominanceBody P fuel) .endless fuel (.start 0) f2 = .ok () f' := by
  simp only [computeDominanceInformation, bind_ok_iff, get_ok_iff, ofOption_ok_iff]
  constructor
  · rintro ⟨_, _, ⟨rfl, rfl⟩, entry, _, ⟨hentry, rfl⟩, hloop⟩
    obtain rfl : 0 = entry := Option.some.inj ((hg.entry ha).symm.trans hentry)
    exact hloop
  · exact fun hloop => ⟨f2, f2, ⟨rfl, rfl⟩, 0, f2, ⟨hg.entry ha, rfl⟩, hloop⟩

/-- What the pass puts into `blocks_rpo` is what its last loop does. -/
theorem Graphed.rpoPushes_eq (hg : Graphed f) {f1 : HirFunction} (ha : Analysed f f2)
    (hedges : findDominateEdges f = .ok () f1) (hback : findBackEdges fuel f1 = .ok () f2) :
    rpoPushes P fuel f = loopLog (computeDominanceBody P fuel) pushedBy fuel (.start 0) f2 := by
  have hsearch : (do findDominateEdges; findBackEdges fuel : Build Unit) f = .ok () f2 :=
    bind_ok_iff.mpr ⟨(), f1, hedges, hback⟩
  simp only [rpoPushes, hsearch, hg.entry ha]

/-- If every block has less than `2^16` edges in and out, then the pass returns, and has kept what a
sweep after the search keeps. -/
theorem Finishes.pass_ok {begin_ : Location} {calls : List Call} (h : Finishes P begin_ calls f)
    (hP : P.listAsserts = false)
    (hout : ∀ b < f.blockCount, (f.block b).outgoing.length < 2 ^ 16)
    (hin : ∀ b < f.blockCount, (f.block b).incoming.length < 2 ^ 16)
    (hfuel : f.blockCount + 2 * f.edgeCount + 1 < fuel)
    {R : DepthFirst.State BlockRef EdgeRef → DominatorSweep.State BlockRef EdgeRef →
      (BlockRef → Option BlockRef) → Prop}
    (hR : ∀ d, DepthFirst.Explores f.graph 0 d → SweepRule f d fuel (R d)) :
    ∃ f' d t, cfgAnalysisPass P fuel f = .ok () f' ∧ DepthFirst.Explores f.graph 0 d ∧
      R d t (fun b => (f'.block b).dominator) ∧ t.stack = [] ∧
      t.released = (rpoPushes P fuel f).reverse ++ [0] ∧
      ∀ b < f.blockCount, (f'.block b).backEdges = (f.graph.into d.back b).map f.graph.src := by
  have hg := h.graphed
  have hun := h.unanalysed.block
  obtain ⟨f1, hedges, ha1, hblock⟩ := hg.findDominateEdges_ok
  have hedgeCount : 2 * f.edgeCount + 1 < fuel := by omega
  -- The search for back edges, and the sweep that it prepares.
  obtain ⟨f2, d, hsearch, hd, ha2, hdominator, hback⟩ :=
    hg.findBackEdges_ok ha1 hblock (fun b => (hun b).1) hout hedgeCount
  have hnone : (fun b => (f2.block b).dominator) = fun _ => none :=
    funext fun b => (hdominator b).trans (hun b).2
  have hpasses : Follows.remaining f (DominatorSweep.start 0) < fuel := by
    simp only [Follows.remaining, DominatorSweep.start, List.length_nil, List.length_singleton]
    omega
  obtain ⟨f', hloop, t, s, ht, hkept, hend, hreleased⟩ := (Follows.start hg ha2 hback).loop
    (hR d hd) hg hP hout hin (hnone ▸ (hR d hd).start) hpasses
  refine ⟨f', d, t, ?_, hd, hkept, hend, ?_, ht.backEdges⟩
  · exact cfgAnalysisPass_ok_iff.mpr ⟨hg.blocks_ne_nil, f1, f2, hedges, hsearch,
      (hg.computeDominanceInformation_ok_iff ha2).mpr hloop⟩
  · rw [hreleased, hg.rpoPushes_eq ha2 hedges hsearch]
    rfl

end Pass

end SwiftRuntime.Ir
