import Mathlib.Data.List.Nodup
import Mathlib.Data.List.Perm.Subperm
import Mathlib.Tactic.Common

/-!
# Graphs with named edges, and scans over their edges

Several edges may go from one node to another, so edges have names. A search through such a graph
goes through the edges of each node in order, with interruptions: what it has seen is a list of
edges in which the edges of every node are the first ones that the node has (`Scanned`), and the
edge to go on with is a matter of how many of a node's edges have been seen (`next`).
-/

namespace SwiftRuntime

/-- A graph with a list of named edges. -/
structure Multigraph (V ι : Type*) where
  /-- The edges. -/
  edges : List ι
  /-- They are different. -/
  nodup : edges.Nodup
  /-- Where an edge starts. -/
  src : ι → V
  /-- Where an edge goes. -/
  dest : ι → V

namespace Multigraph

variable {V ι : Type*} [DecidableEq V] (G : Multigraph V ι)

/-- The edges of a list that start at a node. -/
def outOf (es : List ι) (u : V) : List ι := es.filter fun e => G.src e = u

/-- The edges of a list that go to a node. -/
def into (es : List ι) (v : V) : List ι := es.filter fun e => G.dest e = v

omit [DecidableEq V] in
/-- The nodes with an edge between them that is not in a list. -/
def AdjExcept (back : List ι) (u v : V) : Prop :=
  ∃ e ∈ G.edges, e ∉ back ∧ G.src e = u ∧ G.dest e = v

omit [DecidableEq V] in
/-- The nodes with an edge between them. -/
def Adj (u v : V) : Prop := ∃ e ∈ G.edges, G.src e = u ∧ G.dest e = v

omit [DecidableEq V] in
/-- A list of edges along which one comes from a node to another. -/
def IsWalk : V → List ι → V → Prop
  | u, [], v => u = v
  | u, e :: es, v => e ∈ G.edges ∧ G.src e = u ∧ IsWalk (G.dest e) es v

/-- Whether an edge leads from one vertex to another is found by looking at all edges. -/
instance : DecidableRel G.Adj := fun u v =>
  inferInstanceAs (Decidable (∃ e ∈ G.edges, G.src e = u ∧ G.dest e = v))

/-- The edge of a node that comes after those that have been seen. -/
def next (seen : List ι) (u : V) : Option ι := (G.outOf G.edges u)[(G.outOf seen u).length]?

/-- The edges seen so far are the first ones of every node. -/
structure Scanned (seen : List ι) : Prop where
  /-- Node by node. -/
  initial : ∀ u, G.outOf seen u <+: G.outOf G.edges u
  /-- No edge is seen twice. -/
  nodup : seen.Nodup

variable {G} {seen es : List ι} {e : ι} {u v : V}

/-- The edges of a selection that leave a vertex. -/
theorem mem_outOf : e ∈ G.outOf es u ↔ e ∈ es ∧ G.src e = u := by simp [outOf]

/-- The edges of a selection that enter a vertex. -/
theorem mem_into : e ∈ G.into es v ↔ e ∈ es ∧ G.dest e = v := by simp [into]

/-- One more edge that has been seen counts at its source. -/
theorem length_outOf_concat (seen : List ι) (e : ι) (u : V) :
    (G.outOf (seen ++ [e]) u).length =
      (G.outOf seen u).length + if G.src e = u then 1 else 0 := by
  simp only [outOf, List.filter_append, List.length_append]
  split_ifs with h <;> simp [h]

/-- One more edge that has been seen counts at its target. -/
theorem length_into_concat (seen : List ι) (e : ι) (v : V) :
    (G.into (seen ++ [e]) v).length =
      (G.into seen v).length + if G.dest e = v then 1 else 0 := by
  simp only [into, List.filter_append, List.length_append]
  split_ifs with h <;> simp [h]

omit [DecidableEq V] in
/-- What is connected without some edges is connected. -/
theorem AdjExcept.adj {back : List ι} (h : G.AdjExcept back u v) : G.Adj u v :=
  let ⟨e, he, _, hu, hv⟩ := h
  ⟨e, he, hu, hv⟩

omit [DecidableEq V] in
/-- A walk to another node takes an edge to that node. -/
theorem IsWalk.exists_last (h : G.IsWalk u es v) (hne : u ≠ v) :
    ∃ e ∈ es, e ∈ G.edges ∧ G.dest e = v := by
  induction es generalizing u with
  | nil => exact absurd h hne
  | cons e es ih =>
    obtain ⟨hedge, -, hrest⟩ := h
    by_cases hdest : G.dest e = v
    · exact ⟨e, List.mem_cons_self, hedge, hdest⟩
    · obtain ⟨e', he', hlast⟩ := ih hrest hdest
      exact ⟨e', List.mem_cons_of_mem _ he', hlast⟩

/-- No edge has been scanned at the start. -/
theorem scanned_nil : G.Scanned [] := ⟨fun _ => List.nil_prefix, List.nodup_nil⟩

namespace Scanned

/-- What has been scanned is an edge of the graph. -/
theorem mem_edges (h : G.Scanned seen) (he : e ∈ seen) : e ∈ G.edges :=
  (mem_outOf.mp ((h.initial (G.src e)).subset (mem_outOf.mpr ⟨he, rfl⟩))).1

/-- A node without a next edge has been scanned completely. -/
theorem mem_of_next_none (h : G.Scanned seen) (hnext : G.next seen u = none) (he : e ∈ G.edges)
    (hu : G.src e = u) : e ∈ seen := by
  have hle : (G.outOf G.edges u).length ≤ (G.outOf seen u).length :=
    List.getElem?_eq_none_iff.mp hnext
  have heq := (h.initial u).eq_of_length_le hle
  exact (mem_outOf.mp (heq.symm ▸ mem_outOf.mpr ⟨he, hu⟩)).1

/-- The next edge is one of the node's, and it is new. -/
theorem next_spec (h : G.Scanned seen) (hnext : G.next seen u = some e) :
    e ∈ G.edges ∧ G.src e = u ∧ e ∉ seen ∧ G.Scanned (seen ++ [e]) := by
  obtain ⟨rest, hrest⟩ := h.initial u
  -- The edges of the node are those seen, the next one, and the others.
  have hhead : rest[0]? = some e := by
    have := hnext
    rwa [next, ← hrest, List.getElem?_append_right (Nat.le_refl _), Nat.sub_self] at this
  obtain ⟨others, rfl⟩ : ∃ others, rest = e :: others := by
    cases rest with
    | nil => cases hhead
    | cons x others =>
      obtain rfl := Option.some.inj hhead
      exact ⟨others, rfl⟩
  obtain ⟨hedge, hsrc⟩ := mem_outOf.mp (hrest ▸ by simp : e ∈ G.outOf G.edges u)
  have hnew : e ∉ seen := by
    intro hseen
    have hnodup : (G.outOf seen u ++ e :: others).Nodup := hrest ▸ G.nodup.filter _
    exact (List.nodup_append.mp hnodup).2.2 e (mem_outOf.mpr ⟨hseen, hsrc⟩) e List.mem_cons_self rfl
  refine ⟨hedge, hsrc, hnew, fun w => ?_, ?_⟩
  · by_cases hw : G.src e = w
    · obtain rfl : w = u := hw.symm.trans hsrc
      refine ⟨others, ?_⟩
      rw [← hrest]
      simp [outOf, hsrc]
    · have hsame : G.outOf (seen ++ [e]) w = G.outOf seen w := by simp [outOf, hw]
      rw [hsame]
      exact h.initial w
  · exact List.nodup_append.mpr ⟨h.nodup, List.nodup_singleton e, by
      rintro a ha b hb rfl
      exact hnew (List.mem_singleton.mp hb ▸ ha)⟩

/-- As long as an edge is new, fewer edges have been seen than there are. -/
theorem length_lt (h : G.Scanned seen) (he : e ∈ G.edges) (hnew : e ∉ seen) :
    seen.length < G.edges.length := by
  have hsub : (e :: seen).Subperm G.edges :=
    List.subperm_of_subset (List.nodup_cons.mpr ⟨hnew, h.nodup⟩) fun x hx => by
      rcases List.mem_cons.mp hx with rfl | hx
      · exact he
      · exact h.mem_edges hx
  exact hsub.length_le

/-- No more edges to a node have been seen than there are. -/
theorem length_into_le (h : G.Scanned seen) (v : V) :
    (G.into seen v).length ≤ (G.into G.edges v).length := by
  refine (List.subperm_of_subset (h.nodup.filter _) fun e he => ?_).length_le
  obtain ⟨hseen, hdest⟩ := mem_into.mp he
  exact mem_into.mpr ⟨h.mem_edges hseen, hdest⟩

end Scanned

end Multigraph

end SwiftRuntime
