import SwiftRuntime.Ancestors
import SwiftRuntime.DepthFirst
import SwiftRuntime.FlowGraph

/-!
# Dominators in one sweep

A sweep over a graph after a depth-first search. It starts at the entry, follows the edges of the
nodes on a stack, and releases a node, which puts it on the stack, when as many edges to it have
been followed as are not recorded as back edges. So a node is released when all edges to it that are
not recorded have been followed, and a back edge is followed only after its target has been released
(`complete_iff`). The order of release is a topological order of the edges that are not recorded
(`Ordered`). A node that the search has met is not released only if it waits for one that the search
has not met (`HeldUp`).

On the way every edge updates the parent of its target: the first one makes its source the parent,
and the others move the parent up to where its chain meets that of their source. Along the edges
that are not recorded, the chain of a released node has its dominators (`Dominators`). If no back
edge moves a parent (`Keeps`), then dominance along these edges is dominance in the graph, and at
the end every node but the entry has its immediate dominator as its parent (`Dominators.isIdom`). In
a reducible graph it is so (`keeps_of_reducible`). Whatever back edges do, the parents are a tree
below the entry as long as no edge to the entry is followed (`Rooted`).

Until the first release a sweep is a scan of the edges of the entry, which tells whether there is
one (`Quiet`).
-/

namespace SwiftRuntime.DominatorSweep

open Relation FlowGraph

/-- The state of a sweep. -/
structure State (V ι : Type*) where
  /-- The nodes whose edges are being followed, the last one first. -/
  stack : List V
  /-- The edges that have been followed. -/
  seen : List ι
  /-- The nodes that have been released. -/
  released : List V

variable {V ι : Type*} [DecidableEq V]

/-- The start of a sweep. -/
def start (entry : V) : State V ι := ⟨[entry], [], [entry]⟩

/-- As many edges to a node have been followed as are not back edges. -/
def Complete (G : Multigraph V ι) (back seen : List ι) (v : V) : Prop :=
  (G.into seen v).length + (G.into back v).length = (G.into G.edges v).length

/-- Whether the edges to a node are complete can be counted. -/
instance (G : Multigraph V ι) (back seen : List ι) (v : V) : Decidable (Complete G back seen v) :=
  inferInstanceAs (Decidable (_ = _))

variable (G : Multigraph V ι) (entry : V) (back : List ι)

/-- An edge is followed, and its target released if that completes the count. -/
def State.follow (s : State V ι) (e : ι) : State V ι :=
  if Complete G back (s.seen ++ [e]) (G.dest e) then
    ⟨G.dest e :: s.stack, s.seen ++ [e], G.dest e :: s.released⟩
  else { s with seen := s.seen ++ [e] }

/-- The invariant of a sweep. -/
structure Invariant (s : State V ι) : Prop where
  /-- The edges of a node are followed in order. -/
  scanned : G.Scanned s.seen
  /-- Edges are followed from released nodes. -/
  src_mem : ∀ e ∈ s.seen, G.src e ∈ s.released
  /-- The entry is released. -/
  entry_mem : entry ∈ s.released
  /-- Another node is released when all edges to it that are no back edges have been followed. -/
  released_iff : ∀ v, v ≠ entry → (v ∈ s.released ↔ (∃ u, G.AdjExcept back u v) ∧
    ∀ e ∈ G.edges, e ∉ back → G.dest e = v → e ∈ s.seen)
  /-- The nodes on the stack are released. -/
  stack_sub : ∀ v ∈ s.stack, v ∈ s.released
  /-- From the other released nodes all edges have been followed. -/
  done : ∀ v ∈ s.released, v ∉ s.stack → ∀ e ∈ G.edges, G.src e = v → e ∈ s.seen

/-- What the parents are after some edges have been followed. -/
structure Dominators (seen : List ι) (parent : V → Option V) : Prop where
  /-- A node that no edge has been followed to has no parent. -/
  unseen : ∀ v, (∀ e ∈ seen, G.dest e ≠ v) → parent v = none
  /-- The chain of the parent of another node has what dominates the sources of the edges to it that
  have been followed and are no back edges. -/
  seen : ∀ e ∈ seen, ∃ p xs, parent (G.dest e) = some p ∧ Chain parent p xs ∧ ∀ x, x ∈ xs ↔
    ∀ e' ∈ seen, e' ∉ back → G.dest e' = G.dest e →
      Dominates (G.AdjExcept back) entry x (G.src e')

/-- What strictly dominates the target of a back edge dominates its source as well, both along the
other edges. So where the chain of the target's parent meets that of the source is the parent. -/
def Keeps : Prop :=
  ∀ e ∈ back, ∀ x, Dominates (G.AdjExcept back) entry x (G.dest e) → x ≠ G.dest e →
    Dominates (G.AdjExcept back) entry x (G.src e)

section Order

variable {G entry} {s : State V ι} {d : DepthFirst.State V ι} {u v : V} {e : ι}

/-- The invariant holds at the start, with the entry released. -/
theorem invariant_start : Invariant G entry back (start entry) where
  scanned := Multigraph.scanned_nil
  src_mem := by simp [start]
  entry_mem := by simp [start]
  released_iff := by
    intro v hv
    refine ⟨fun hmem => absurd (by simpa [start] using hmem) hv, ?_⟩
    rintro ⟨⟨u, e, he, hback, -, hdest⟩, hall⟩
    exact absurd (hall e he hback hdest) (by simp [start])
  stack_sub := by simp [start]
  done := by simp [start]

variable (hd : DepthFirst.Explored G entry d) (hsrc : ∀ e ∈ G.edges, G.src e ∈ d.finished)
  (hs : Invariant G entry d.back s) (hw : ∀ v ∈ s.released, v ∈ d.finished)

include hd hs in
/-- What leads to a released node without back edges is released. -/
theorem Invariant.released_of_reach (hv : v ∈ d.finished) (hu : u ∈ s.released)
    (hvu : ReflTransGen (G.AdjExcept d.back) v u) : v ∈ s.released := by
  induction hvu with
  | refl => exact hu
  | tail hreach hadj ih =>
    obtain ⟨e, he, hback, rfl, rfl⟩ := hadj
    have hne : G.dest e ≠ entry :=
      mt (hd.mem_back_of_entry he (hd.mem_of_reach hv hreach)) hback
    have hall := ((hs.released_iff _ hne).mp hu).2
    exact ih (hs.src_mem e (hall e he hback rfl))

include hd hs hw in
/-- The target of a back edge from a released node is released. -/
theorem Invariant.released_of_back (he : e ∈ d.back) (hu : G.src e ∈ s.released) :
    G.dest e ∈ s.released :=
  hs.released_of_reach hd (hd.mem_of_adj (hw _ hu) ⟨e, hd.back e he, rfl, rfl⟩) hu
    (hd.back_reach e he)

include hs in
/-- The target of a new edge that is no back edge is not released. -/
theorem Invariant.not_released (he : e ∈ G.edges) (hnew : e ∉ s.seen) (hback : e ∉ d.back)
    (hne : G.dest e ≠ entry) : G.dest e ∉ s.released := fun hmem =>
  hnew (((hs.released_iff _ hne).mp hmem).2 e he hback rfl)

/-- The edges into a node are back edges or have been followed. -/
theorem into_subset {seen back : List ι}
    (hall : ∀ e ∈ G.edges, e ∉ back → G.dest e = v → e ∈ seen) :
    G.into G.edges v ⊆ G.into seen v ++ G.into back v := by
  intro e he
  obtain ⟨hedge, hdest⟩ := Multigraph.mem_into.mp he
  by_cases hb : e ∈ back
  · exact List.mem_append_right _ (Multigraph.mem_into.mpr ⟨hb, hdest⟩)
  · exact List.mem_append_left _ (Multigraph.mem_into.mpr ⟨hall e hedge hb hdest, hdest⟩)

include hd hs hw in
/-- When the count is complete: the edge is no back edge, and it is the last one to its target. -/
theorem Invariant.complete_iff (hnext : G.next s.seen u = some e) (hu : u ∈ s.released)
    (hne : G.dest e ≠ entry) :
    Complete G d.back (s.seen ++ [e]) (G.dest e) ↔ e ∉ d.back ∧
      ∀ e' ∈ G.edges, e' ∉ d.back → G.dest e' = G.dest e → e' ∈ s.seen ++ [e] := by
  obtain ⟨hedge, rfl, hnew, hscanned⟩ := hs.scanned.next_spec hnext
  unfold Complete
  have hT : (G.into G.edges (G.dest e)).Nodup := G.nodup.filter _
  by_cases hback : e ∈ d.back
  · -- All other edges have been followed before, and the edge is counted twice.
    have hrel := hs.released_of_back hd hw hback hu
    have hall := ((hs.released_iff _ hne).mp hrel).2
    have hle := (List.subperm_of_subset hT (into_subset hall)).length_le
    have hcount : (G.into (s.seen ++ [e]) (G.dest e)).length =
        (G.into s.seen (G.dest e)).length + 1 := by simp [Multigraph.into]
    rw [List.length_append] at hle
    constructor
    · intro heq
      omega
    · exact fun h => absurd hback h.1
  · have hfresh := hs.not_released hedge hnew hback hne
    have hdisj : (G.into (s.seen ++ [e]) (G.dest e) ++ G.into d.back (G.dest e)).Nodup := by
      refine List.nodup_append.mpr ⟨hscanned.nodup.filter _, hd.back_nodup.filter _, ?_⟩
      rintro e' he' _ hb rfl
      obtain ⟨hseen, hdest⟩ := Multigraph.mem_into.mp he'
      have hb' := (Multigraph.mem_into.mp hb).1
      rcases List.mem_append.mp hseen with hseen | hseen
      · exact hfresh (hdest ▸ hs.released_of_back hd hw hb' (hs.src_mem e' hseen))
      · exact hback (List.mem_singleton.mp hseen ▸ hb')
    have hsub : G.into (s.seen ++ [e]) (G.dest e) ++ G.into d.back (G.dest e) ⊆
        G.into G.edges (G.dest e) := by
      intro e' he'
      rcases List.mem_append.mp he' with he' | he' <;> rw [Multigraph.mem_into] at he' ⊢
      · exact ⟨hscanned.mem_edges he'.1, he'.2⟩
      · exact ⟨hd.back e' he'.1, he'.2⟩
    have hsubperm := List.subperm_of_subset hdisj hsub
    rw [← List.length_append]
    constructor
    · refine fun heq => ⟨hback, fun e' hedge' hb hdest => ?_⟩
      have hperm := hsubperm.perm_of_length_le heq.ge
      have hmem := hperm.mem_iff.mpr (Multigraph.mem_into.mpr ⟨hedge', hdest⟩)
      rcases List.mem_append.mp hmem with hmem | hmem
      · exact (Multigraph.mem_into.mp hmem).1
      · exact absurd (Multigraph.mem_into.mp hmem).1 hb
    · rintro ⟨-, hall⟩
      exact le_antisymm hsubperm.length_le (List.subperm_of_subset hT (into_subset hall)).length_le

/-- The node on top of the stack is left. -/
theorem Invariant.pop (hs : Invariant G entry back s) {rest : List V} (hstack : s.stack = u :: rest)
    (hnext : G.next s.seen u = none) : Invariant G entry back { s with stack := rest } := by
  refine { hs with
    stack_sub := fun v hv => hs.stack_sub v (hstack ▸ List.mem_cons_of_mem _ hv)
    done := fun v hv hrest e he hsrc => ?_ }
  by_cases hvu : v = u
  · exact hs.scanned.mem_of_next_none hnext he (hsrc.trans hvu)
  · exact hs.done v hv (by simp [hstack, hvu, hrest]) e he hsrc

/-- The edge that is followed has been seen then. -/
theorem State.follow_seen (s : State V ι) (e : ι) :
    (s.follow G back e).seen = s.seen ++ [e] := by
  unfold State.follow
  split_ifs <;> rfl

include hd hs hw in
/-- An edge is followed. -/
theorem Invariant.follow {rest : List V} (hstack : s.stack = u :: rest)
    (hnext : G.next s.seen u = some e) : Invariant G entry d.back (s.follow G d.back e) := by
  have hu : u ∈ s.released := hs.stack_sub u (by simp [hstack])
  have hiff := hs.complete_iff hd hw hnext hu
  obtain ⟨hedge, rfl, hnew, hscanned⟩ := hs.scanned.next_spec hnext
  -- The edges to the other nodes are the same as before.
  have hother : ∀ v, v ≠ G.dest e →
      ((∀ e' ∈ G.edges, e' ∉ d.back → G.dest e' = v → e' ∈ s.seen ++ [e])
      ↔ ∀ e' ∈ G.edges, e' ∉ d.back → G.dest e' = v → e' ∈ s.seen) := by
    intro v hv
    refine forall₄_congr fun e' _ _ hdest => ?_
    rw [List.mem_append, List.mem_singleton, or_iff_left]
    rintro rfl
    exact hv hdest.symm
  have hsrc : ∀ e' ∈ s.seen ++ [e], G.src e' ∈ s.released := by
    intro e' he'
    rcases List.mem_append.mp he' with he' | he'
    · exact hs.src_mem e' he'
    · rw [List.mem_singleton.mp he']
      exact hu
  have hdone : ∀ v ∈ s.released, v ∉ s.stack → ∀ e' ∈ G.edges, G.src e' = v → e' ∈ s.seen ++ [e] :=
    fun v hv hvs e' he' hve => List.mem_append_left _ (hs.done v hv hvs e' he' hve)
  unfold State.follow
  split_ifs with hcomplete
  · refine ⟨hscanned, fun e' he' => List.mem_cons_of_mem _ (hsrc e' he'),
      List.mem_cons_of_mem _ hs.entry_mem, fun v hv => ?_, fun v hv => ?_, fun v hv hvs => ?_⟩
    · by_cases hve : v = G.dest e
      · subst hve
        obtain ⟨hback, hall⟩ := (hiff hv).mp hcomplete
        exact ⟨fun _ => ⟨⟨_, e, hedge, hback, rfl, rfl⟩, hall⟩, fun _ => List.mem_cons_self⟩
      · rw [List.mem_cons, or_iff_right hve, hs.released_iff v hv]
        exact and_congr_right fun _ => (hother v hve).symm
    · rcases List.mem_cons.mp hv with rfl | hv
      · exact List.mem_cons_self
      · exact List.mem_cons_of_mem _ (hs.stack_sub v hv)
    · obtain ⟨hve, hvs⟩ := not_or.mp (mt List.mem_cons.mpr hvs)
      exact hdone v ((List.mem_cons.mp hv).resolve_left hve) hvs
  · have hrel : e ∈ d.back → G.dest e ∈ s.released :=
      fun hback => hs.released_of_back hd hw hback hu
    refine ⟨hscanned, hsrc, hs.entry_mem, fun v hv => ?_, hs.stack_sub, hdone⟩
    by_cases hve : v = G.dest e
    · subst hve
      by_cases hback : e ∈ d.back
      · refine ⟨fun hmem => ?_, fun _ => hrel hback⟩
        obtain ⟨hex, hall⟩ := (hs.released_iff _ hv).mp hmem
        exact ⟨hex, fun e' he' hb hdest => List.mem_append_left _ (hall e' he' hb hdest)⟩
      · refine ⟨fun hmem => absurd hmem (hs.not_released hedge hnew hback hv), ?_⟩
        exact fun ⟨_, hall⟩ => absurd ((hiff hv).mpr ⟨hback, hall⟩) hcomplete
    · rw [hs.released_iff v hv]
      exact and_congr_right fun _ => (hother v hve).symm

include hd hs hw in
/-- Following an edge releases only nodes that the search has met. -/
theorem Invariant.follow_finished {rest : List V} (hstack : s.stack = u :: rest)
    (hnext : G.next s.seen u = some e) : ∀ v ∈ (s.follow G d.back e).released, v ∈ d.finished := by
  have hu : u ∈ s.released := hs.stack_sub u (by simp [hstack])
  obtain ⟨hedge, rfl, -, -⟩ := hs.scanned.next_spec hnext
  unfold State.follow
  split_ifs
  · intro v hv
    rcases List.mem_cons.mp hv with rfl | hv
    · exact hd.mem_of_adj (hw _ hu) ⟨e, hedge, rfl, rfl⟩
    · exact hw v hv
  · exact hw

/-- A node is held up if the edges that are not recorded lead to it from a node that the search has
not met, and not by way of the entry. -/
def HeldUp (G : Multigraph V ι) (entry : V) (d : DepthFirst.State V ι) (v : V) : Prop :=
  ∃ w, w ∉ d.finished ∧ ReflTransGen (fun a b => G.AdjExcept d.back a b ∧ b ≠ entry) w v

include hs hw in
/-- A released node is not held up. -/
theorem Invariant.not_heldUp (hv : v ∈ s.released) : ¬ HeldUp G entry d v := by
  rintro ⟨w, hwd, hreach⟩
  induction hreach with
  | refl => exact hwd (hw _ hv)
  | tail _ hadj ih =>
    obtain ⟨⟨e, he, hback, rfl, rfl⟩, hne⟩ := hadj
    exact ih (hs.src_mem e (((hs.released_iff _ hne).mp hv).2 e he hback rfl))

include hd hs in
/-- When the stack is empty, every node that the search has met is released or held up. -/
theorem Invariant.released_of_not_heldUp (hstack : s.stack = []) (hu : u ∈ d.finished)
    (hfree : ¬ HeldUp G entry d u) : u ∈ s.released := by
  -- By induction on the order of finishing: an edge comes from a node that is finished later.
  induction hn : d.finished.idxOf u using Nat.strong_induction_on generalizing u with
  | _ n ih =>
    by_cases hue : u = entry
    · exact hue ▸ hs.entry_mem
    · refine (hs.released_iff u hue).mpr ⟨?_, fun e he hback hdest => ?_⟩
      · rcases (hd.reach u hu).cases_tail with heq | ⟨w, -, hadj⟩
        · exact absurd heq hue
        · exact ⟨w, hadj⟩
      · have hadj : G.AdjExcept d.back (G.src e) u := ⟨e, he, hback, rfl, hdest⟩
        have hsrc : G.src e ∈ d.finished := by
          by_contra hsrc
          exact hfree ⟨_, hsrc, .single ⟨hadj, hue⟩⟩
        have hrel := ih _ (hn ▸ hd.idxOf_lt hsrc hadj) hsrc
          (fun ⟨w, hwd, hreach⟩ => hfree ⟨w, hwd, hreach.tail ⟨hadj, hue⟩⟩) rfl
        exact hs.done _ hrel (by simp [hstack]) e he rfl

omit [DecidableEq V] in
/-- The entry waits for nothing. -/
theorem not_heldUp_entry (hentry : entry ∈ d.finished) : ¬ HeldUp G entry d entry := by
  rintro ⟨w, hwd, hreach⟩
  rcases hreach.cases_tail with rfl | ⟨b, -, -, hne⟩
  · exact hwd hentry
  · exact hne rfl

omit [DecidableEq V] in
include hsrc in
/-- If all edges come from nodes that the search has met, then none of these is held up. -/
theorem not_heldUp_of_src (hu : u ∈ d.finished) : ¬ HeldUp G entry d u := by
  rintro ⟨w, hwd, hreach⟩
  rcases hreach.cases_head with rfl | ⟨b, ⟨⟨e, he, -, rfl, -⟩, -⟩, -⟩
  · exact hwd hu
  · exact hwd (hsrc e he)

include hd hsrc hs in
/-- Released nodes have been met by the search. -/
theorem Invariant.finished (hu : u ∈ s.released) : u ∈ d.finished := by
  by_cases hue : u = entry
  · exact hue ▸ hd.closed entry .refl
  · obtain ⟨⟨w, e, he, -, rfl, rfl⟩, -⟩ := (hs.released_iff u hue).mp hu
    exact hd.mem_of_adj (hsrc e he) ⟨e, he, rfl, rfl⟩

include hd hsrc hs in
/-- When the stack is empty, every node that the search has met is released. -/
theorem Invariant.all_released (hstack : s.stack = []) (hu : u ∈ d.finished) : u ∈ s.released :=
  hs.released_of_not_heldUp hd hstack hu (not_heldUp_of_src hsrc hu)

/-- Before a node is released, all nodes are that have an edge to it that is no back edge. -/
structure Ordered (G : Multigraph V ι) (entry : V) (back : List ι) (s : State V ι) : Prop where
  /-- No node is released twice. -/
  nodup : s.released.Nodup
  /-- The list of the released nodes has the last one first. -/
  before : ∀ later v earlier, s.released = later ++ v :: earlier → v ≠ entry → ∀ e ∈ G.edges,
    e ∉ back → G.dest e = v → G.src e ∈ earlier

omit [DecidableEq V] in
/-- At the start only the entry has been released. -/
theorem ordered_start {back : List ι} : Ordered G entry back (start entry) := by
  refine ⟨List.nodup_singleton _, fun later v earlier hsplit hv => ?_⟩
  have hmem : v ∈ (start entry : State V ι).released := by simp [hsplit]
  exact absurd (List.mem_singleton.mp hmem) hv

include hd hs hw in
/-- Following an edge to another node than the entry keeps the order. -/
theorem Ordered.follow (ho : Ordered G entry d.back s) {rest : List V}
    (hstack : s.stack = u :: rest) (hnext : G.next s.seen u = some e) (hne : G.dest e ≠ entry) :
    Ordered G entry d.back (s.follow G d.back e) := by
  have hu : u ∈ s.released := hs.stack_sub u (by simp [hstack])
  have hiff := hs.complete_iff hd hw hnext hu hne
  obtain ⟨hedge, rfl, hnew, -⟩ := hs.scanned.next_spec hnext
  unfold State.follow
  -- The edge completes the count of its target, whose other edges have been seen by then.
  split_ifs with hcomplete
  · obtain ⟨hback, hall⟩ := hiff.mp hcomplete
    refine ⟨List.nodup_cons.mpr ⟨hs.not_released hedge hnew hback hne, ho.nodup⟩, ?_⟩
    intro later v earlier hsplit hv e' he' hb' hdest'
    cases later with
    | nil =>
      obtain ⟨rfl, rfl⟩ := List.cons.inj hsplit
      rcases List.mem_append.mp (hall e' he' hb' hdest') with hseen | hlast
      · exact hs.src_mem e' hseen
      · rw [List.mem_singleton.mp hlast]
        exact hu
    | cons x later => exact ho.before later v earlier (List.cons.inj hsplit).2 hv e' he' hb' hdest'
  · exact ⟨ho.nodup, ho.before⟩

/-- The nodes in the order of their release, after the entry: an edge that is no back edge goes up
in it. -/
theorem Ordered.idxOf_lt {back : List ι} (ho : Ordered G entry back s) {order : List V}
    (horder : s.released = order.reverse ++ [entry]) (he : e ∈ G.edges) (hback : e ∉ back)
    (hsrc : G.src e ≠ entry) (hne : G.dest e ≠ entry) (hdest : G.dest e ∈ order) :
    order.idxOf (G.src e) < order.idxOf (G.dest e) := by
  obtain ⟨before, after, rfl⟩ := List.append_of_mem hdest
  have hsplit : s.released = after.reverse ++ G.dest e :: (before.reverse ++ [entry]) := by
    simp [horder]
  have hmem : G.src e ∈ before := by
    simpa [hsrc] using ho.before _ _ _ hsplit hne e he hback rfl
  have hnot : G.dest e ∉ before := by
    have hnodup := ho.nodup
    rw [hsplit, List.nodup_append, List.nodup_cons] at hnodup
    exact fun hb => hnodup.2.1.1 (List.mem_append_left _ (List.mem_reverse.mpr hb))
  rw [List.idxOf_append_of_mem hmem, List.idxOf_append_of_notMem hnot]
  exact (List.idxOf_lt_length_of_mem hmem).trans_le (Nat.le_add_right _ _)

end Order

section Quiet

variable {G entry back} {s : State V ι} {u v : V} {e : ι} {rest : List V}

/-- The edges of the entry alone release a node: not all edges to the node are back edges, and as
many as are not come from the entry. -/
def ReleasedByEntry (G : Multigraph V ι) (entry : V) (back : List ι) (v : V) : Prop :=
  (G.into back v).length < (G.into G.edges v).length ∧ (G.into G.edges v).length ≤
    (G.into (G.outOf G.edges entry) v).length + (G.into back v).length

/-- A sweep that has released nothing but the entry, at the start. -/
structure Quiet (G : Multigraph V ι) (entry : V) (back : List ι) (s : State V ι) : Prop where
  /-- The edges of a node are followed in order. -/
  scanned : G.Scanned s.seen
  /-- Edges are followed from the entry. -/
  src_eq : ∀ e ∈ s.seen, G.src e = entry
  /-- The entry is on the stack until its edges have been followed. -/
  stack : s.stack = [entry] ∨ s.stack = [] ∧ G.next s.seen entry = none
  /-- The nodes that wait for an edge still do. -/
  waits : ∀ v, (G.into back v).length < (G.into G.edges v).length →
    (G.into s.seen v).length + (G.into back v).length < (G.into G.edges v).length

/-- At the start nothing but the entry has been released. -/
theorem quiet_start : Quiet G entry back (start entry) :=
  ⟨Multigraph.scanned_nil,
    by simp [start], .inl rfl, fun v hv => by simpa [start, Multigraph.into] using hv⟩

/-- Only the entry is on the stack. -/
theorem Quiet.eq_entry (h : Quiet G entry back s) (hstack : s.stack = u :: rest) :
    u = entry ∧ rest = [] := by
  rcases h.stack with hs | ⟨hs, -⟩
  · exact List.cons.inj (hstack.symm.trans hs)
  · rw [hstack] at hs
    cases hs

/-- The entry is left. -/
theorem Quiet.pop (h : Quiet G entry back s) (hstack : s.stack = u :: rest)
    (hnext : G.next s.seen u = none) : Quiet G entry back { s with stack := rest } := by
  obtain ⟨rfl, rfl⟩ := h.eq_entry hstack
  exact { h with stack := .inr ⟨rfl, hnext⟩ }

/-- The edge that is followed comes from the entry, as those before. -/
theorem Quiet.src_eq_concat (h : Quiet G entry back s) (hstack : s.stack = u :: rest)
    (hnext : G.next s.seen u = some e) : ∀ e' ∈ s.seen ++ [e], G.src e' = entry := by
  obtain ⟨rfl, rfl⟩ := h.eq_entry hstack
  intro e' he'
  rcases List.mem_append.mp he' with he' | he'
  · exact h.src_eq e' he'
  · rw [List.mem_singleton.mp he']
    exact (h.scanned.next_spec hnext).2.1

/-- No more edges to a node are followed than the entry has to it. -/
theorem Quiet.length_into_le (h : Quiet G entry back s) (hstack : s.stack = u :: rest)
    (hnext : G.next s.seen u = some e) (v : V) :
    (G.into (s.seen ++ [e]) v).length ≤ (G.into (G.outOf G.edges entry) v).length := by
  obtain ⟨-, -, -, hscan⟩ := h.scanned.next_spec hnext
  refine (List.subperm_of_subset (hscan.nodup.filter _) fun e' he' => ?_).length_le
  obtain ⟨hseen, hdest⟩ := Multigraph.mem_into.mp he'
  exact Multigraph.mem_into.mpr ⟨Multigraph.mem_outOf.mpr
    ⟨hscan.mem_edges hseen, h.src_eq_concat hstack hnext e' hseen⟩, hdest⟩

/-- Following an edge of the entry releases nothing, unless the edges of the entry release a
node. -/
theorem Quiet.follow (h : Quiet G entry back s) (hstack : s.stack = u :: rest)
    (hnext : G.next s.seen u = some e) :
    Quiet G entry back (s.follow G back e) ∧ (s.follow G back e).released = s.released ∨
      ReleasedByEntry G entry back (G.dest e) ∧
        (s.follow G back e).released = G.dest e :: s.released := by
  have hle := h.length_into_le hstack hnext (G.dest e)
  have hall := h.src_eq_concat hstack hnext
  obtain ⟨-, -, -, hscan⟩ := h.scanned.next_spec hnext
  obtain ⟨rfl, rfl⟩ := h.eq_entry hstack
  have hlen := Multigraph.length_into_concat (G := G) s.seen e (G.dest e)
  rw [if_pos rfl] at hlen
  unfold State.follow
  -- Only edges of the entry have been seen, so a complete count is complete by them alone.
  split_ifs with hcomplete
  · unfold Complete at hcomplete
    exact .inr ⟨⟨by omega, by omega⟩, rfl⟩
  · refine .inl ⟨⟨hscan, hall, .inl (by simp [hstack]), fun v hv => ?_⟩, rfl⟩
    have hwaits := h.waits v hv
    have hlen' := Multigraph.length_into_concat (G := G) s.seen e v
    dsimp only
    by_cases hve : G.dest e = v
    · unfold Complete at hcomplete
      rw [hve] at hcomplete
      rw [if_pos hve] at hlen'
      omega
    · rw [if_neg hve] at hlen'
      omega

/-- A sweep that ends like this has no node that the edges of the entry release. -/
theorem Quiet.not_releasedByEntry (h : Quiet G entry back s) (hstack : s.stack = []) (v : V) :
    ¬ ReleasedByEntry G entry back v := by
  rintro ⟨hlt, hle⟩
  have hnext : G.next s.seen entry = none := by
    rcases h.stack with hs | ⟨-, hs⟩
    · rw [hstack] at hs
      cases hs
    · exact hs
  have hsub : (G.into (G.outOf G.edges entry) v).length ≤ (G.into s.seen v).length := by
    refine (List.subperm_of_subset ((G.nodup.filter _).filter _) fun e he => ?_).length_le
    obtain ⟨hout, hdest⟩ := Multigraph.mem_into.mp he
    obtain ⟨hedge, hsrc⟩ := Multigraph.mem_outOf.mp hout
    exact Multigraph.mem_into.mpr ⟨h.scanned.mem_of_next_none hnext hedge hsrc, hdest⟩
  have hwaits := h.waits v hlt
  omega

end Quiet

section Rooted

variable {G entry} {s : State V ι} {u p q : V} {e : ι} {parent : V → Option V} {seen : List ι}

/-- Whatever back edges do to the parents: as long as no edge to the entry is followed, going up
from the target of an edge that has been followed leads to the entry, and other nodes have no
parent. -/
structure Rooted (G : Multigraph V ι) (entry : V) (seen : List ι) (parent : V → Option V) :
    Prop where
  /-- The entry is a root. -/
  root : parent entry = none
  /-- Going up leads to it. -/
  ascends : ∀ e ∈ seen, Ascends parent (G.dest e) entry
  /-- Only the targets of edges have parents. -/
  seen : ∀ v p, parent v = some p → ∃ e ∈ seen, G.dest e = v

omit [DecidableEq V] in
/-- At the start no node has a parent. -/
theorem rooted_nil : Rooted G entry [] fun _ => none := ⟨rfl, by simp, by simp⟩

omit [DecidableEq V] in
/-- The chain of a node with a parent. -/
theorem Rooted.parent_chain (h : Rooted G entry seen parent) {v : V} (hp : parent v = some p) :
    ∃ xs, Chain parent v (v :: xs) ∧ Chain parent p xs ∧ entry ∈ xs := by
  obtain ⟨e, he, rfl⟩ := h.seen v p hp
  obtain ⟨ys, hys, hmem⟩ := (h.ascends e he).exists_chain h.root
  cases hys with
  | root hroot =>
    rw [hroot] at hp
    cases hp
  | @up _ p' xs hp' hxs =>
    obtain rfl : p' = p := Option.some.inj (hp'.symm.trans hp)
    refine ⟨xs, .up hp hxs, hxs, (List.mem_cons.mp hmem).resolve_left ?_⟩
    intro he
    rw [← he, h.root] at hp
    cases hp

/-- The chain of a released node. -/
theorem Rooted.released_chain {back : List ι} (hs : Invariant G entry back s)
    (h : Rooted G entry s.seen parent) (hu : u ∈ s.released) :
    ∃ xs, Chain parent u xs ∧ entry ∈ xs := by
  by_cases hue : u = entry
  · exact ⟨[u], .root (hue ▸ h.root), by simp [hue]⟩
  · obtain ⟨⟨w, e, he, hback, -, hdest⟩, hall⟩ := (hs.released_iff u hue).mp hu
    have hascends := h.ascends e (hall e he hback hdest)
    rw [hdest] at hascends
    exact hascends.exists_chain h.root

omit [DecidableEq V] in
/-- The nodes of a chain that comes to the entry are the entry and targets of edges. -/
theorem Rooted.mem_chain (h : Rooted G entry seen parent) {xs : List V} (hxs : Chain parent u xs)
    (hentry : entry ∈ xs) {x : V} (hx : x ∈ xs) : x = entry ∨ ∃ e ∈ seen, G.dest e = x := by
  cases hp : parent x with
  | none => exact .inl (hxs.root_unique hx hp hentry h.root)
  | some p => exact .inr (h.seen x p hp)

/-- A node gets a parent from which going up leads to the entry, without coming by the node. -/
theorem Rooted.update (h : Rooted G entry seen parent) {zs : List V} (hzs : Chain parent q zs)
    (hentry : entry ∈ zs) (hdest : G.dest e ∉ zs) :
    Rooted G entry (seen ++ [e]) (Function.update parent (G.dest e) (some q)) := by
  have hne : entry ≠ G.dest e := fun he => hdest (he ▸ hentry)
  have hq := (hzs.update hdest (some q)).ascends hentry
  refine ⟨by rw [Function.update_of_ne hne]; exact h.root, fun e' he' => ?_, fun v p hp => ?_⟩
  · rcases List.mem_append.mp he' with he' | he'
    · exact (h.ascends e' he').update hq
    · rw [List.mem_singleton.mp he']
      exact .head (Function.update_self ..) hq
  · by_cases hv : v = G.dest e
    · exact ⟨e, by simp, hv.symm⟩
    · rw [Function.update_of_ne hv] at hp
      obtain ⟨e', he', hdest'⟩ := h.seen v p hp
      exact ⟨e', List.mem_append_left _ he', hdest'⟩

/-- The first edge to a node makes its source the parent. -/
theorem Rooted.first (h : Rooted G entry seen parent) {ys : List V} (hys : Chain parent u ys)
    (hentry : entry ∈ ys) (hp : parent (G.dest e) = none) (hne : G.dest e ≠ entry) :
    Rooted G entry (seen ++ [e]) (Function.update parent (G.dest e) (some u)) :=
  h.update hys hentry fun hmem => hne (hys.root_unique hmem hp hentry h.root)

/-- Another edge to a node moves the parent up its own chain. -/
theorem Rooted.meet (h : Rooted G entry seen parent) {xs zs : List V}
    (hxs : Chain parent (G.dest e) (G.dest e :: xs)) (hzs : Chain parent q zs)
    (hsub : ∀ x ∈ zs, x ∈ xs) (hentry : entry ∈ zs) :
    Rooted G entry (seen ++ [e]) (Function.update parent (G.dest e) (some q)) :=
  h.update hzs hentry fun hmem => (List.nodup_cons.mp hxs.nodup).1 (hsub _ hmem)

end Rooted

section Dominance

variable {G entry} {s : State V ι} {d : DepthFirst.State V ι} {u v p : V} {e : ι}
  {parent : V → Option V}

omit [DecidableEq V] in
/-- At the start no edge has been seen, and no node has a parent. -/
theorem dominators_nil : Dominators G entry back [] fun _ => none :=
  ⟨fun _ _ => rfl, by simp⟩

variable (hd : DepthFirst.Explored G entry d) (hentry : ∀ e ∈ G.edges, G.dest e ≠ entry)
  (hsrc : ∀ e ∈ G.edges, G.src e ∈ d.finished) (hs : Invariant G entry d.back s)

include hd hsrc hs in
/-- What dominates a released node is released. -/
theorem Invariant.released_of_dominates (hu : u ∈ s.released)
    (hvu : Dominates (G.AdjExcept d.back) entry v u) : v ∈ s.released := by
  have hfin := hs.finished hd hsrc hu
  have hreach := hvu.reaches (reachable_iff.mpr (hd.reach u hfin))
  refine hs.released_of_reach hd ?_ hu hreach
  rcases hreach.cases_head with rfl | ⟨w, ⟨e, he, -, rfl, -⟩, -⟩
  · exact hfin
  · exact hsrc e he

include hd hsrc in
/-- The target of an edge that is no back edge does not dominate its source. -/
theorem not_dominates (he : e ∈ G.edges) (hback : e ∉ d.back) :
    ¬ Dominates (G.AdjExcept d.back) entry (G.dest e) (G.src e) := fun hdom =>
  hd.acyclic (hsrc e he) ⟨e, he, hback, rfl, rfl⟩
    (hdom.reaches (reachable_iff.mpr (hd.reach _ (hsrc e he))))

include hd hentry hsrc hs in
/-- When an edge to a node has been followed, then so has one that is no back edge. -/
theorem Invariant.exists_forward (he : e ∈ s.seen) :
    ∃ e' ∈ s.seen, e' ∉ d.back ∧ G.dest e' = G.dest e := by
  by_cases hback : e ∈ d.back
  · have hedge := hs.scanned.mem_edges he
    have hrel := hs.released_of_back hd (fun _ => hs.finished hd hsrc) hback (hs.src_mem e he)
    obtain ⟨⟨w, e', he', hback', -, hdest⟩, hall⟩ := (hs.released_iff _ (hentry e hedge)).mp hrel
    exact ⟨e', hall e' he' hback' hdest, hback', hdest⟩
  · exact ⟨e, he, hback, rfl⟩

include hentry hs in
/-- The chain of a released node has its dominators. -/
theorem Dominators.chain (hD : Dominators G entry d.back s.seen parent) (hu : u ∈ s.released) :
    ∃ xs, Chain parent u xs ∧ ∀ x, x ∈ xs ↔ Dominates (G.AdjExcept d.back) entry x u := by
  -- The chain of the entry is the entry. All edges to another released node have been seen.
  by_cases hue : u = entry
  · subst hue
    refine ⟨[u], .root (hD.unseen u fun e he => hentry e (hs.scanned.mem_edges he)), fun x => ?_⟩
    rw [List.mem_singleton, dominates_entry_iff]
  · obtain ⟨⟨w, e, he, hback, -, hdest⟩, hall⟩ := (hs.released_iff u hue).mp hu
    subst hdest
    obtain ⟨p, xs, hp, hchain, hxs⟩ := hD.seen e (hall e he hback rfl)
    refine ⟨G.dest e :: xs, .up hp hchain, fun x => ?_⟩
    rw [List.mem_cons, hxs]
    constructor
    · rintro (rfl | hx)
      · exact dominates_refl
      · refine dominates_of_forall_edge hue ?_
        rintro w ⟨e', he', hb', rfl, hdest'⟩
        exact hx e' (hall e' he' hb' hdest') hb' hdest'
    · intro hx
      by_cases hxe : x = G.dest e
      · exact .inl hxe
      · refine .inr fun e' he' hb' hdest' => ?_
        exact hx.of_edge hxe ⟨e', hs.scanned.mem_edges he', hb', rfl, hdest'⟩

include hd hentry hsrc hs in
/-- The chains that an edge to a node with a parent brings together. They meet at the entry at the
latest. -/
theorem Dominators.chains (hD : Dominators G entry d.back s.seen parent) (hu : u ∈ s.released)
    (hp : parent (G.dest e) = some p) :
    ∃ xs ys, Chain parent p xs ∧ Chain parent u ys ∧ entry ∈ xs ∧ entry ∈ ys ∧
      (∀ x, x ∈ xs ↔ ∀ e' ∈ s.seen, e' ∉ d.back → G.dest e' = G.dest e →
        Dominates (G.AdjExcept d.back) entry x (G.src e')) ∧
      (∀ x, x ∈ ys ↔ Dominates (G.AdjExcept d.back) entry x u) ∧
      (∀ x ∈ xs, x ∈ s.released) ∧ ∀ x ∈ ys, x ∈ s.released := by
  obtain ⟨ys, hys, hymem⟩ := hD.chain hentry hs hu
  -- A node with a parent has been seen, and its chain has what dominates the sources of the edges
  -- so far.
  obtain ⟨e0, he0, hdest0⟩ : ∃ e0 ∈ s.seen, G.dest e0 = G.dest e := by
    by_contra hno
    have := hD.unseen (G.dest e) fun e0 he0 heq => hno ⟨e0, he0, heq⟩
    rw [hp] at this
    cases this
  obtain ⟨q, xs, hq, hxs, hxmem⟩ := hD.seen e0 he0
  rw [hdest0] at hq hxmem
  rw [hp] at hq
  cases hq
  refine ⟨xs, ys, hxs, hys, (hxmem entry).mpr fun _ _ _ _ => entry_dominates,
    (hymem entry).mpr entry_dominates, hxmem, hymem, fun x hx => ?_, fun x hx => ?_⟩
  · obtain ⟨e', he', hback', hdest'⟩ := hs.exists_forward hd hentry hsrc he0
    exact hs.released_of_dominates hd hsrc (hs.src_mem e' he')
      ((hxmem x).mp hx e' he' hback' (hdest'.trans hdest0))
  · exact hs.released_of_dominates hd hsrc hu ((hymem x).mp hx)

include hd hentry hsrc hs in
/-- An edge that is no back edge gives its target a parent whose chain has what dominates the
sources so far. -/
theorem Dominators.forward (hD : Dominators G entry d.back s.seen parent)
    (hnext : G.next s.seen u = some e) (hu : u ∈ s.released) (hback : e ∉ d.back) {zs : List V}
    (hzs : Chain parent p zs) (hmem : ∀ x, x ∈ zs ↔ Dominates (G.AdjExcept d.back) entry x u ∧
      ∀ e' ∈ s.seen, e' ∉ d.back → G.dest e' = G.dest e →
        Dominates (G.AdjExcept d.back) entry x (G.src e')) :
    Dominators G entry d.back (s.seen ++ [e])
      (Function.update parent (G.dest e) (some p)) := by
  obtain ⟨hedge, rfl, hnew, -⟩ := hs.scanned.next_spec hnext
  have hfresh := hs.not_released hedge hnew hback (hentry e hedge)
  -- The target is on no chain, since it is not released.
  have hz : G.dest e ∉ zs := fun hz =>
    hfresh (hs.released_of_dominates hd hsrc hu ((hmem _).mp hz).1)
  refine ⟨fun v hv => ?_, fun e0 he0 => ?_⟩
  · have hve : v ≠ G.dest e := fun heq => hv e (by simp) heq.symm
    rw [Function.update_of_ne hve]
    exact hD.unseen v fun e' he' => hv e' (List.mem_append_left _ he')
  · by_cases hdest : G.dest e0 = G.dest e
    · rw [hdest]
      refine ⟨p, zs, Function.update_self .., hzs.update hz _, fun x => ?_⟩
      rw [hmem]
      constructor
      · rintro ⟨hx, hall⟩ e' he' hb' hdest'
        rcases List.mem_append.mp he' with he' | he'
        · exact hall e' he' hb' hdest'
        · rw [List.mem_singleton.mp he']
          exact hx
      · exact fun hall => ⟨hall e (by simp) hback rfl, fun e' he' =>
          hall e' (List.mem_append_left _ he')⟩
    · have he0' : e0 ∈ s.seen := by
        rcases List.mem_append.mp he0 with he0 | he0
        · exact he0
        · exact absurd (congrArg G.dest (List.mem_singleton.mp he0)) hdest
      obtain ⟨q, xs, hq, hxs, hxmem⟩ := hD.seen e0 he0'
      have hx : G.dest e ∉ xs := by
        intro hx
        obtain ⟨e', he', hb', hdest'⟩ := hs.exists_forward hd hentry hsrc he0'
        exact hfresh (hs.released_of_dominates hd hsrc (hs.src_mem e' he')
          ((hxmem _).mp hx e' he' hb' hdest'))
      refine ⟨q, xs, by rw [Function.update_of_ne hdest]; exact hq, hxs.update hx _, fun x => ?_⟩
      rw [hxmem]
      refine ⟨fun hall e' he' hb' hdest' => ?_, fun hall e' he' =>
        hall e' (List.mem_append_left _ he')⟩
      rcases List.mem_append.mp he' with he' | he'
      · exact hall e' he' hb' hdest'
      · rw [List.mem_singleton.mp he'] at hdest'
        exact absurd hdest'.symm hdest

variable (hkeep : Keeps G entry d.back)

omit [DecidableEq V] in
include hkeep in
/-- Then dominance without back edges is dominance in the graph. -/
theorem Keeps.dominates {x : V} (h : Dominates (G.AdjExcept d.back) entry x v) :
    Dominates G.Adj entry x v := by
  refine fun path hpath => hpath.induction (motive := fun path v =>
    Dominates (G.AdjExcept d.back) entry x v → x ∈ path ++ [v]) (fun h => ?_) ?_ h
  · exact List.mem_singleton.mpr (dominates_entry_iff.mp h)
  · rintro path u _ _ ⟨e, he, rfl, rfl⟩ ih h
    by_cases hx : x = G.dest e
    · simp [hx]
    · refine List.mem_append_left _ (ih ?_)
      by_cases hback : e ∈ d.back
      · exact hkeep e hback x h hx
      · exact h.of_edge hx ⟨e, he, hback, rfl, rfl⟩

include hd hsrc hs in
/-- The parent of a node that has edges without back edges to it dominates it strictly. -/
theorem Dominators.parent_spec (hD : Dominators G entry d.back s.seen parent)
    (hv : v ∈ s.released) (hve : v ≠ entry) : ∃ q xs, parent v = some q ∧ Chain parent q xs ∧
      q ≠ v ∧ q ∈ s.released ∧
      ∀ x, x ∈ xs ↔ Dominates (G.AdjExcept d.back) entry x v ∧ x ≠ v := by
  obtain ⟨⟨w, e, he, hback, -, rfl⟩, hall⟩ := (hs.released_iff v hve).mp hv
  have hseen := hall e he hback rfl
  obtain ⟨q, xs, hq, hxs, hxmem⟩ := hD.seen e hseen
  -- Since all edges have been seen, what dominates their sources dominates the node.
  have hxmem' : ∀ x, x ∈ xs ↔ Dominates (G.AdjExcept d.back) entry x (G.dest e) ∧ x ≠ G.dest e := by
    intro x
    rw [hxmem]
    constructor
    · refine fun hx => ⟨dominates_of_forall_edge hve ?_, ?_⟩
      · rintro w ⟨e', he', hb', rfl, hdest'⟩
        exact hx e' (hall e' he' hb' hdest') hb' hdest'
      · rintro rfl
        exact not_dominates hd hsrc he hback (hx e hseen hback rfl)
    · rintro ⟨hx, hne⟩ e' he' hb' hdest'
      exact hx.of_edge hne ⟨e', hs.scanned.mem_edges he', hb', rfl, hdest'⟩
  refine ⟨q, xs, hq, hxs, ((hxmem' q).mp hxs.self_mem).2, ?_, hxmem'⟩
  exact hs.released_of_dominates hd hsrc hv ((hxmem' q).mp hxs.self_mem).1

include hd hentry hsrc hs hkeep in
/-- A back edge does not move the parent of its target. -/
theorem Dominators.backward (hD : Dominators G entry d.back s.seen parent)
    (hnext : G.next s.seen u = some e) (hu : u ∈ s.released) (hback : e ∈ d.back) :
    Dominators G entry d.back (s.seen ++ [e]) parent ∧ ∃ q xs ys, parent (G.dest e) = some q ∧
      Chain parent q xs ∧ Chain parent u ys ∧ q ∈ ys := by
  obtain ⟨hedge, rfl, hnew, -⟩ := hs.scanned.next_spec hnext
  have hrel := hs.released_of_back hd (fun _ => hs.finished hd hsrc) hback hu
  have hve := hentry e hedge
  obtain ⟨q, xs, hq, hxs, hqv, -, hxmem⟩ := hD.parent_spec hd hsrc hs hrel hve
  obtain ⟨ys, hys, hymem⟩ := hD.chain hentry hs hu
  have hqu : Dominates (G.AdjExcept d.back) entry q (G.src e) :=
    hkeep e hback q ((hxmem q).mp hxs.self_mem).1 hqv
  refine ⟨⟨fun v hv => hD.unseen v fun e' he' => hv e' (List.mem_append_left _ he'),
    fun e0 he0 => ?_⟩, q, xs, ys, hq, hxs, hys, (hymem q).mpr hqu⟩
  -- An edge without back edges to the same target has been followed before.
  obtain ⟨e1, he1, hdest1⟩ : ∃ e1 ∈ s.seen, G.dest e1 = G.dest e0 := by
    rcases List.mem_append.mp he0 with he0 | he0
    · exact ⟨e0, he0, rfl⟩
    · obtain ⟨⟨w, e1, he1, hb1, -, hdest1⟩, hall⟩ := (hs.released_iff _ hve).mp hrel
      rw [List.mem_singleton.mp he0]
      exact ⟨e1, hall e1 he1 hb1 hdest1, hdest1⟩
  obtain ⟨q1, xs1, hq1, hxs1, hmem1⟩ := hD.seen e1 he1
  rw [hdest1] at hq1 hmem1
  refine ⟨q1, xs1, hq1, hxs1, fun x => (hmem1 x).trans ?_⟩
  refine ⟨fun hall e' he' hb' => ?_, fun hall e' he' => hall e' (List.mem_append_left _ he')⟩
  rcases List.mem_append.mp he' with he' | he'
  · exact hall e' he' hb'
  · exact absurd (List.mem_singleton.mp he' ▸ hback) hb'

include hd hentry hsrc hs in
/-- The first edge to a node makes its source the parent. -/
theorem Dominators.first (hD : Dominators G entry d.back s.seen parent)
    (hnext : G.next s.seen u = some e) (hu : u ∈ s.released) (hp : parent (G.dest e) = none) :
    Dominators G entry d.back (s.seen ++ [e]) (Function.update parent (G.dest e) (some u)) := by
  have hnone : ∀ e' ∈ s.seen, G.dest e' ≠ G.dest e := by
    intro e' he' heq
    obtain ⟨q, _, hq, -⟩ := hD.seen e' he'
    rw [heq, hp] at hq
    cases hq
  obtain ⟨ys, hys, hymem⟩ := hD.chain hentry hs hu
  obtain ⟨hedge, rfl, -, -⟩ := hs.scanned.next_spec hnext
  -- A back edge leads to a released node, which has been seen before.
  have hback : e ∉ d.back := by
    intro hback
    have hrel := hs.released_of_back hd (fun _ => hs.finished hd hsrc) hback hu
    obtain ⟨⟨w, e', he', hb', -, hdest'⟩, hall⟩ := (hs.released_iff _ (hentry e hedge)).mp hrel
    exact hnone e' (hall e' he' hb' hdest') hdest'
  refine hD.forward hd hentry hsrc hs hnext hu hback hys fun x => ?_
  rw [hymem, and_iff_left]
  exact fun e' he' _ hdest' => absurd hdest' (hnone e' he')

include hd hentry hsrc hs hkeep in
/-- Another edge to a node moves the parent up to where the chains meet. -/
theorem Dominators.meet (hD : Dominators G entry d.back s.seen parent)
    (hnext : G.next s.seen u = some e) (hu : u ∈ s.released) (hp : parent (G.dest e) = some p)
    {q : V} {xs ys zs : List V} (hxs : Chain parent p xs) (hys : Chain parent u ys)
    (hzs : Chain parent q zs) (hmem : ∀ x, x ∈ zs ↔ x ∈ xs ∧ x ∈ ys) :
    Dominators G entry d.back (s.seen ++ [e]) (Function.update parent (G.dest e) (some q)) := by
  by_cases hback : e ∈ d.back
  · obtain ⟨hD', p', xs', ys', hp', -, hys', hmem'⟩ :=
      hD.backward hd hentry hsrc hs hkeep hnext hu hback
    obtain rfl : p = p' := Option.some.inj (hp.symm.trans hp')
    obtain rfl := hys.unique hys'
    -- The parent is on both chains, so they meet there.
    have hpz : p ∈ zs := (hmem p).mpr ⟨hxs.self_mem, hmem'⟩
    have hle : zs.length ≤ xs.length :=
      (List.subperm_of_subset hzs.nodup fun x hx => ((hmem x).mp hx).1).length_le
    obtain rfl := hxs.eq_of_mem hzs hpz hle
    rwa [← hp, Function.update_eq_self]
  · obtain ⟨xs', ys', hxs', hys', -, -, hxmem, hymem, -⟩ := hD.chains hd hentry hsrc hs hu hp
    obtain rfl := hxs.unique hxs'
    obtain rfl := hys.unique hys'
    refine hD.forward hd hentry hsrc hs hnext hu hback hzs fun x => ?_
    rw [hmem, hxmem, hymem, and_comm]

include hd hentry hsrc hs hkeep in
/-- At the end of a sweep the parents are the immediate dominators. -/
theorem Dominators.isIdom (hD : Dominators G entry d.back s.seen parent) (hstack : s.stack = [])
    (hv : v ∈ d.finished) (hve : v ≠ entry) :
    ∃ q, parent v = some q ∧ IsIdom G.Adj entry q v := by
  have hrel := hs.all_released hd hsrc hstack hv
  obtain ⟨q, xs, hq, hxs, hqv, hqrel, hxmem⟩ := hD.parent_spec hd hsrc hs hrel hve
  obtain ⟨ys, hys, hymem⟩ := hD.chain hentry hs hqrel
  obtain rfl := hxs.unique hys
  refine ⟨q, hq, hkeep.dominates ((hxmem q).mp hxs.self_mem).1, hqv, fun x hx hne => ?_⟩
  have hx' : Dominates (G.AdjExcept d.back) entry x v :=
    hx.mono fun _ _ => Multigraph.AdjExcept.adj
  exact hkeep.dominates ((hymem x).mp ((hxmem x).mpr ⟨hx', hne⟩))

include hd hsrc in
/-- In a reducible graph back edges move no parent: the target of a back edge dominates its source,
since the edges on the way from the one to the other do not go to dominators. -/
theorem keeps_of_reducible (hred : Reducible G.Adj entry) : Keeps G entry d.back := by
  intro e hback x hx _
  have he := hd.back e hback
  have hforward : ∀ a b, G.AdjExcept d.back a b → G.Adj a b ∧ ¬ Dominates G.Adj entry b a := by
    rintro a b ⟨e, he, hback, rfl, rfl⟩
    exact ⟨⟨e, he, rfl, rfl⟩, fun hdom => not_dominates hd hsrc he hback
      (hdom.mono fun _ _ => Multigraph.AdjExcept.adj)⟩
  have hdom : Dominates G.Adj entry (G.dest e) (G.src e) := by
    by_contra hdom
    exact hred (G.dest e)
      (.tail' (ReflTransGen.mono hforward _ _ (hd.back_reach e hback)) ⟨⟨e, he, rfl, rfl⟩, hdom⟩)
  exact hx.trans (hdom.mono fun _ _ => Multigraph.AdjExcept.adj)

end Dominance

end SwiftRuntime.DominatorSweep
