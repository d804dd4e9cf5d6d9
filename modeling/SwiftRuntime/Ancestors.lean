import Mathlib.Data.List.Nodup
import Mathlib.Logic.Function.Basic
import Mathlib.Logic.Relation
import Mathlib.Tactic.Common

/-!
# Chains of parents

A tree that is kept by the parents of its nodes: `Chain parent v xs` says that `xs` is the way from
`v` up to a root. What a node has above it is fixed by the node, so chains that have a node in
common have the same nodes from there on, and the start of the longer one of two chains is not on
the other one (`mem_and_mem_iff`). So the way to the nodes in common is up on the longer chain
first, and then up on both at once.

`Ascends` says only that the way from a node comes by another one. It survives a new parent of a
node, if the way from the new parent does (`Ascends.update`). The nearest node above several ones
(`NearestCommon`) is found one node at a time.
-/

namespace SwiftRuntime

variable {V : Type*} {parent : V → Option V}

/-- The way from a node up to a root. -/
inductive Chain (parent : V → Option V) : V → List V → Prop
  | root {v : V} (h : parent v = none) : Chain parent v [v]
  | up {v p : V} {xs : List V} (h : parent v = some p) (hp : Chain parent p xs) :
    Chain parent v (v :: xs)

namespace Chain

variable {v w x : V} {xs ys : List V}

/-- A chain starts with its node. -/
theorem exists_eq_cons (h : Chain parent v xs) : ∃ rest, xs = v :: rest := by
  cases h with
  | root _ => exact ⟨[], rfl⟩
  | up _ _ => exact ⟨_, rfl⟩

/-- A node is on its chain. -/
theorem self_mem (h : Chain parent v xs) : v ∈ xs := by
  obtain ⟨rest, rfl⟩ := h.exists_eq_cons
  exact List.mem_cons_self

/-- A chain has at least its node. -/
theorem length_pos (h : Chain parent v xs) : 0 < xs.length := List.length_pos_of_mem h.self_mem

/-- A node has one chain. -/
theorem unique (h : Chain parent v xs) (h' : Chain parent v ys) : xs = ys := by
  induction h generalizing ys with
  -- A root is not below another node, so both chains end here.
  | root hroot =>
    cases h' with
    | root _ => rfl
    | up hp _ =>
      rw [hroot] at hp
      cases hp
  -- The node above is the same for both chains.
  | up hp _ ih =>
    cases h' with
    | root hroot =>
      rw [hroot] at hp
      cases hp
    | up hp' hrest =>
      rw [hp] at hp'
      cases hp'
      rw [ih hrest]

/-- The part of a chain from a node on is the chain of the node. -/
theorem exists_of_mem (h : Chain parent v xs) (hx : x ∈ xs) :
    ∃ before after, xs = before ++ x :: after ∧ Chain parent x (x :: after) := by
  induction h with
  | root hroot =>
    obtain rfl := List.mem_singleton.mp hx
    exact ⟨[], [], rfl, .root hroot⟩
  | @up v p xs hp hrest ih =>
    rcases List.mem_cons.mp hx with rfl | hx
    · exact ⟨[], xs, rfl, .up hp hrest⟩
    · obtain ⟨before, after, rfl, hchain⟩ := ih hx
      exact ⟨v :: before, after, rfl, hchain⟩

/-- No node is above itself. -/
theorem nodup (h : Chain parent v xs) : xs.Nodup := by
  induction h with
  | root _ => exact List.nodup_singleton _
  | @up v p xs hp hrest ih =>
    refine List.nodup_cons.mpr ⟨fun hv => ?_, ih⟩
    obtain ⟨before, after, rfl, hv'⟩ := hrest.exists_of_mem hv
    have hlen := congrArg List.length (hv'.unique (.up hp hrest))
    simp at hlen
    omega

/-- A chain depends on the parents of its nodes. -/
theorem congr {parent' : V → Option V} (h : Chain parent v xs)
    (hsame : ∀ x ∈ xs, parent' x = parent x) : Chain parent' v xs := by
  induction h with
  | root hroot => exact .root ((hsame _ List.mem_cons_self).trans hroot)
  | up hp _ ih =>
    exact .up ((hsame _ List.mem_cons_self).trans hp)
      (ih fun x hx => hsame x (List.mem_cons_of_mem _ hx))

/-- A new parent of a node that is not on a chain does not matter to the chain. -/
theorem update [DecidableEq V] (h : Chain parent v xs) (hx : x ∉ xs) (p : Option V) :
    Chain (Function.update parent x p) v xs := by
  refine h.congr fun y hy => Function.update_of_ne ?_ ..
  rintro rfl
  exact hx hy

/-- A node that is on a chain of the same length or less is where the chain starts. -/
theorem eq_of_mem (h : Chain parent v xs) (h' : Chain parent w ys) (hv : v ∈ ys)
    (hlen : ys.length ≤ xs.length) : v = w := by
  obtain ⟨before, after, rfl, hv'⟩ := h'.exists_of_mem hv
  obtain rfl := h.unique hv'
  cases before with
  | nil =>
    obtain ⟨rest, heq⟩ := h'.exists_eq_cons
    exact (List.cons.inj heq).1
  | cons y before =>
    simp at hlen
    omega

/-- What two chains have in common is not in the part of the longer one that the other has no room
for. -/
theorem mem_drop_of_mem (h : Chain parent v xs) (h' : Chain parent w ys) (hx : x ∈ xs) (hy : x ∈ ys)
    {k : ℕ} (hk : k + xs.length ≤ ys.length) : x ∈ ys.drop k := by
  obtain ⟨before, after, rfl, hchain⟩ := h.exists_of_mem hx
  obtain ⟨before', after', rfl, hchain'⟩ := h'.exists_of_mem hy
  have hlen := congrArg List.length (hchain.unique hchain')
  simp only [List.length_append, List.length_cons] at hlen hk
  rw [List.drop_append_of_le_length (by omega)]
  simp

/-- The start of a chain that is no shorter than another one, and starts elsewhere, is not among the
nodes that they have in common. -/
theorem mem_and_mem_iff (h : Chain parent v (v :: xs)) (h' : Chain parent w ys)
    (hlen : ys.length ≤ xs.length + 1) (hne : v ≠ w) :
    x ∈ v :: xs ∧ x ∈ ys ↔ x ∈ xs ∧ x ∈ ys := by
  constructor
  · rintro ⟨hx, hy⟩
    rcases List.mem_cons.mp hx with rfl | hx
    · exact absurd (h.eq_of_mem h' hy hlen) hne
    · exact ⟨hx, hy⟩
  · rintro ⟨hx, hy⟩
    exact ⟨List.mem_cons_of_mem _ hx, hy⟩

/-- A chain has one root. -/
theorem root_unique (h : Chain parent v xs) (hx : x ∈ xs) (hxroot : parent x = none) (hw : w ∈ xs)
    (hwroot : parent w = none) : x = w := by
  induction h with
  | root _ => rw [List.mem_singleton.mp hx, List.mem_singleton.mp hw]
  | @up v p xs hp _ ih =>
    -- The first node has a parent, so it is not the root.
    have htail : ∀ y ∈ v :: xs, parent y = none → y ∈ xs := fun y hy hroot =>
      (List.mem_cons.mp hy).resolve_left fun he => by
        rw [he, hp] at hroot
        cases hroot
    exact ih (htail x hx hxroot) (htail w hw hwroot)

end Chain

/-- Going up from a node leads to another one. -/
def Ascends (parent : V → Option V) : V → V → Prop :=
  Relation.ReflTransGen fun v p => parent v = some p

section Ascends

variable {v r x q : V} {xs : List V}

/-- Going up leads to the nodes of the chain. -/
theorem Chain.ascends (h : Chain parent v xs) (hx : x ∈ xs) : Ascends parent v x := by
  induction h with
  | root _ =>
    rw [List.mem_singleton.mp hx]
    exact .refl
  | up hp _ ih =>
    rcases List.mem_cons.mp hx with rfl | hx
    · exact .refl
    · exact .head hp (ih hx)

/-- A node from which going up leads to a root has a chain. -/
theorem Ascends.exists_chain (h : Ascends parent v r) (hr : parent r = none) :
    ∃ xs, Chain parent v xs ∧ r ∈ xs := by
  induction h using Relation.ReflTransGen.head_induction_on with
  | refl => exact ⟨[r], .root hr, List.mem_cons_self⟩
  | head hp _ ih =>
    obtain ⟨xs, hchain, hmem⟩ := ih
    exact ⟨_ :: xs, .up hp hchain, List.mem_cons_of_mem _ hmem⟩

/-- The nodes of the chain are those that going up leads to. -/
theorem Chain.mem_iff_ascends (h : Chain parent v xs) : x ∈ xs ↔ Ascends parent v x := by
  refine ⟨h.ascends, fun hx => ?_⟩
  induction hx with
  | refl => exact h.self_mem
  | @tail a b _ hp ih =>
    obtain ⟨before, after, rfl, ha⟩ := h.exists_of_mem ih
    -- The chain goes on from a node that has a parent.
    cases ha with
    | root hroot =>
      rw [hroot] at hp
      cases hp
    | up hp' hb =>
      rw [hp] at hp'
      cases hp'
      simp [hb.self_mem]

/-- A node that gets a new parent, from which going up leads to `r`, cuts no way to `r`. -/
theorem Ascends.update [DecidableEq V] (h : Ascends parent v r)
    (hq : Ascends (Function.update parent x (some q)) q r) :
    Ascends (Function.update parent x (some q)) v r := by
  induction h using Relation.ReflTransGen.head_induction_on with
  | refl => exact .refl
  | @head a b hp _ ih =>
    by_cases ha : a = x
    · exact .head (by rw [ha, Function.update_self]) hq
    · exact .head (by rw [Function.update_of_ne ha]; exact hp) ih

end Ascends

/-- The nearest node above all nodes of a list: what is above all of them is above it. -/
structure NearestCommon (parent : V → Option V) (vs : List V) (d : V) : Prop where
  /-- It is above every node of the list. -/
  above : ∀ v ∈ vs, Ascends parent v d
  /-- Going up from it leads to every such node. -/
  nearest : ∀ x, (∀ v ∈ vs, Ascends parent v x) → Ascends parent d x

namespace NearestCommon

variable {v d e : V} {vs xs ys zs : List V}

/-- The nearest common node above a single one is the node itself. -/
theorem singleton (v : V) : NearestCommon parent [v] v :=
  ⟨by simp [Ascends, Relation.ReflTransGen.refl], fun _ hx => hx v List.mem_cons_self⟩

/-- One more node: the node where its chain meets the chain of the nearest one so far. -/
theorem concat (h : NearestCommon parent vs d) (hd : Chain parent d xs) (hv : Chain parent v ys)
    (he : Chain parent e zs) (hzs : ∀ x, x ∈ zs ↔ x ∈ xs ∧ x ∈ ys) :
    NearestCommon parent (vs ++ [v]) e := by
  obtain ⟨hde, hve⟩ := (hzs e).mp he.self_mem
  constructor
  · intro w hw
    rcases List.mem_append.mp hw with hw | hw
    · exact (h.above w hw).trans (hd.ascends hde)
    · rw [List.mem_singleton.mp hw]
      exact hv.ascends hve
  · intro x hx
    have hdx : Ascends parent d x := h.nearest x fun w hw => hx w (List.mem_append_left _ hw)
    have hvx : Ascends parent v x := hx v (by simp)
    exact he.ascends ((hzs x).mpr ⟨hd.mem_iff_ascends.mpr hdx, hv.mem_iff_ascends.mpr hvx⟩)

end NearestCommon

end SwiftRuntime
