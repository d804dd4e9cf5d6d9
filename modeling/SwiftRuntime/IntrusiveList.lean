import Mathlib.Data.List.Chain
import Mathlib.Data.List.Nodup
import Mathlib.Logic.Function.Basic
import Mathlib.Tactic.Common

/-!
# Intrusive lists

The elements of an intrusive list hold its links: every node points to a node before it and a node
after it, and a list is the ring of nodes through its root. `pushBack` is the sequence of writes
that links a node before the root. It keeps lists when the node is in none (`IsList.pushBack`).
Nothing keeps it from being applied to a node that is in a list already, and then it cuts the rings
apart, so what an iteration over a list meets is a question about the links alone (`walk`). In no
case does a node belong to two lists (`walk_meets`). `unlink` takes a node out of its list and
leaves it with links to itself (`next_unlink`).
-/

namespace SwiftRuntime

/-- The links of nodes. -/
structure Links (ν : Type*) where
  /-- The node before a node. -/
  prev : ν → ν
  /-- The node after a node. -/
  next : ν → ν

namespace Links

variable {ν : Type*}

/-- Nodes that are in no list point to themselves. -/
def unlinked : Links ν := ⟨id, id⟩

variable [DecidableEq ν] (L : Links ν) (root : ν)

/-- A write to the link of a node to the one before it. -/
def setPrev (x y : ν) : Links ν := { L with prev := Function.update L.prev x y }

/-- A write to the link of a node to the one after it. -/
def setNext (x y : ν) : Links ν := { L with next := Function.update L.next x y }

/-- The writes that link a node before a root. -/
def pushBack (x : ν) : Links ν :=
  let last := L.prev x
  let L := L.setPrev x (L.prev root)
  let L := L.setNext last root
  let L := L.setNext (L.prev root) x
  L.setPrev root last

/-- The writes that take a node out of its list. -/
def unlink (x : ν) : Links ν :=
  let last := L.next x
  let lastPrev := L.prev last
  let L := L.setNext (L.prev x) last
  let L := L.setPrev last (L.prev x)
  let L := L.setNext lastPrev x
  L.setPrev x lastPrev

/-- The nodes that an iteration meets from a node on, until it comes to the root; `none` if it does
not within a number of steps. -/
def walk : ℕ → ν → Option (List ν)
  | 0, _ => none
  | n + 1, x => if x = root then some [] else (walk n (L.next x)).map (x :: ·)

/-- The list of a root: a ring of links in both directions. -/
def IsList (xs : List ν) : Prop :=
  (root :: xs ++ [root]).IsChain fun x y => L.next x = y ∧ L.prev y = x

variable {L root} {x y : ν} {xs ys : List ν}

/-- What the links are after a node is pushed that was in no list. -/
theorem pushBack_of_unlinked (hx : L.prev x = x) (hroot : x ≠ root) :
    (L.pushBack root x).next =
        Function.update (Function.update L.next x root) (L.prev root) x ∧
      (L.pushBack root x).prev =
        Function.update (Function.update L.prev x (L.prev root)) root x := by
  have hlast : Function.update L.prev x (L.prev root) root = L.prev root :=
    Function.update_of_ne hroot.symm _ _
  constructor
  · show Function.update (Function.update L.next (L.prev x) root)
      (Function.update L.prev x (L.prev root) root) x = _
    rw [hx, hlast]
  · show Function.update (Function.update L.prev x (L.prev root)) root (L.prev x) = _
    rw [hx]

/-- Pushing a node that is in no list adds it at the end of the list. -/
theorem IsList.pushBack (h : L.IsList root xs) (hnodup : (root :: xs).Nodup) (hx : L.prev x = x)
    (hnew : x ∉ root :: xs) : (L.pushBack root x).IsList root (xs ++ [x]) := by
  have hroot : x ≠ root := fun he => hnew (he ▸ List.mem_cons_self)
  obtain ⟨hnext, hprev⟩ := pushBack_of_unlinked hx hroot
  -- The last node of the list, which may be the root.
  obtain ⟨init, last, hsplit⟩ : ∃ init last, root :: xs = init ++ [last] :=
    (List.eq_nil_or_concat' (root :: xs)).resolve_left (List.cons_ne_nil _ _)
  have htail : ∀ y ∈ (init ++ [last]).tail, y ≠ root := by
    rw [← hsplit]
    rintro y hy rfl
    exact (List.nodup_cons.mp hnodup).1 hy
  unfold IsList at h ⊢
  rw [hsplit] at hnew h
  rw [show root :: (xs ++ [x]) ++ [root] = init ++ last :: x :: [root] by
    rw [← List.cons_append, hsplit]
    simp]
  rw [List.append_assoc, List.singleton_append, List.isChain_append_cons_cons] at h
  obtain ⟨hinit, ⟨hfirst, hlast⟩, -⟩ := h
  rw [hlast] at hnext hprev
  have hxlast : x ≠ last := fun he => hnew (by simp [he])
  rw [List.isChain_append_cons_cons, List.isChain_cons_cons]
  refine ⟨?_, ⟨?_, ?_⟩, ⟨?_, ?_⟩, List.isChain_singleton _⟩
  · -- Within the list nothing is written.
    refine List.IsChain.imp_of_mem_tail_imp (fun y z hy hz hyz => ?_) hinit
    have hylast : y ≠ last := by
      rintro rfl
      exact htail z hz (hyz.1.symm.trans hfirst)
    have hyx : y ≠ x := fun he => hnew (he ▸ hy)
    have hzx : z ≠ x := fun he => hnew (he ▸ List.mem_of_mem_tail hz)
    rw [hnext, hprev, Function.update_of_ne hylast, Function.update_of_ne hyx,
      Function.update_of_ne (htail z hz), Function.update_of_ne hzx]
    exact hyz
  · rw [hnext, Function.update_self]
  · rw [hprev, Function.update_of_ne hroot, Function.update_self]
  · rw [hnext, Function.update_of_ne hxlast, Function.update_self]
  · rw [hprev, Function.update_self]

/-- Pushing a node that is in no list leaves the links of the nodes outside of the list alone. -/
theorem IsList.pushBack_other (h : L.IsList root xs) (hx : L.prev x = x) (hnew : x ∉ root :: xs)
    (hyx : y ≠ x) (hy : y ∉ root :: xs) :
    (L.pushBack root x).next y = L.next y ∧ (L.pushBack root x).prev y = L.prev y := by
  have hroot : x ≠ root := fun he => hnew (he ▸ List.mem_cons_self)
  have hyroot : y ≠ root := fun he => hy (he ▸ List.mem_cons_self)
  obtain ⟨hnext, hprev⟩ := pushBack_of_unlinked hx hroot
  -- The node before the root is the last one of the list, so it is not `y`.
  have hylast : y ≠ L.prev root := by
    obtain ⟨init, last, hsplit⟩ : ∃ init last, root :: xs = init ++ [last] :=
      (List.eq_nil_or_concat' (root :: xs)).resolve_left (List.cons_ne_nil _ _)
    unfold IsList at h
    rw [hsplit, List.append_assoc, List.singleton_append, List.isChain_append_cons_cons] at h
    rintro rfl
    exact hy (by rw [hsplit, h.2.1.2]; simp)
  rw [hnext, hprev, Function.update_of_ne hylast, Function.update_of_ne hyx,
    Function.update_of_ne hyroot, Function.update_of_ne hyx]
  exact ⟨rfl, rfl⟩

/-- A node that has been taken out of its list is followed by itself. -/
theorem next_unlink (h : L.prev (L.next x) = x ∨ L.next x = x) : (L.unlink x).next x = x := by
  show Function.update (Function.update L.next (L.prev x) (L.next x)) (L.prev (L.next x)) x x = x
  rcases h with h | h
  · rw [h, Function.update_self]
  · rw [h]
    by_cases hx : x = L.prev x
    · rw [← hx, Function.update_self]
    · rw [Function.update_of_ne hx, Function.update_of_ne hx, h]

omit [DecidableEq ν] in
/-- The first node of a list is the one after the root, and the one before the node after it. -/
theorem IsList.first (h : L.IsList root (x :: xs)) : L.next root = x ∧ L.prev (L.next x) = x := by
  unfold IsList at h
  obtain ⟨⟨hfirst, -⟩, hrest⟩ := List.isChain_cons_cons.mp h
  refine ⟨hfirst, ?_⟩
  cases xs with
  | nil =>
    obtain ⟨hnext, hprev⟩ := List.isChain_pair.mp hrest
    rw [hnext, hprev]
  | cons y xs =>
    obtain ⟨⟨hnext, hprev⟩, -⟩ := List.isChain_cons_cons.mp hrest
    rw [hnext, hprev]

/-- An iteration over a list meets its nodes. -/
theorem IsList.walk (h : L.IsList root xs) (hroot : root ∉ xs) :
    L.walk root (xs.length + 1) (L.next root) = some xs := by
  -- From any node of the ring on, up to the root.
  suffices ∀ ys x, (x :: ys ++ [root]).IsChain (fun x y => L.next x = y ∧ L.prev y = x) →
      root ∉ ys → L.walk root (ys.length + 1) (L.next x) = some ys from this xs root h hroot
  intro ys
  induction ys with
  | nil =>
    intro x h _
    have hx : L.next x = root := (List.isChain_pair.mp h).1
    simp [Links.walk, hx]
  | cons y ys ih =>
    intro x h hroot
    obtain ⟨⟨hx, -⟩, hrest⟩ := List.isChain_cons_cons.mp h
    rw [List.mem_cons, not_or] at hroot
    rw [hx, List.length_cons, Links.walk, if_neg (Ne.symm hroot.1), ih y hrest hroot.2]
    rfl

/-- The nodes that an iteration meets do not depend on the number of steps it is given. -/
theorem walk_unique {n m : ℕ} (h : L.walk root n x = some xs) (h' : L.walk root m x = some ys) :
    xs = ys := by
  -- Both iterations make their first step from `x`, and end there or go on from one node.
  induction n generalizing m x xs ys with
  | zero => cases h
  | succ n ih =>
    cases m with
    | zero => cases h'
    | succ m =>
      rw [walk] at h h'
      split_ifs at h h' with hx
      · cases h
        cases h'
        rfl
      · obtain ⟨xs', hxs, rfl⟩ := Option.map_eq_some_iff.mp h
        obtain ⟨ys', hys, rfl⟩ := Option.map_eq_some_iff.mp h'
        rw [ih hxs hys]

/-- The first node that an iteration meets is the one it starts from. -/
theorem walk_cons {n : ℕ} (h : L.walk root n x = some (y :: ys)) :
    x = y ∧ ∃ m, L.walk root m (L.next y) = some ys := by
  cases n with
  | zero => cases h
  | succ n =>
    by_cases hx : x = root
    · rw [walk, if_pos hx] at h
      cases h
    · rw [walk, if_neg hx] at h
      obtain ⟨zs, hrest, he⟩ := Option.map_eq_some_iff.mp h
      cases he
      exact ⟨rfl, n, hrest⟩

/-- An iteration that ends would go the same way from each of its nodes. -/
theorem walk_suffix {n : ℕ} (h : L.walk root n x = some (xs ++ y :: ys)) :
    ∃ m, L.walk root m y = some (y :: ys) := by
  induction xs generalizing n x with
  | nil =>
    obtain ⟨rfl, -⟩ := walk_cons h
    exact ⟨n, h⟩
  | cons z xs ih =>
    obtain ⟨-, m, hrest⟩ := walk_cons h
    exact ih hrest

/-- An iteration that ends meets no node twice. -/
theorem walk_nodup {n : ℕ} (h : L.walk root n x = some xs) : xs.Nodup := by
  induction xs generalizing n x with
  | nil => exact List.nodup_nil
  | cons y ys ih =>
    obtain ⟨rfl, m, hrest⟩ := walk_cons h
    refine List.nodup_cons.mpr ⟨fun hmem => ?_, ih hrest⟩
    -- From the second time on it would go the same way again.
    obtain ⟨before, after, rfl⟩ := List.append_of_mem hmem
    obtain ⟨k, hagain⟩ := walk_suffix hrest
    have hlen := congrArg List.length (walk_unique h hagain)
    simp at hlen
    omega

/-- Iterations to two roots from one node: one of them meets the other's root. -/
theorem walk_meets {root' : ν} {n m : ℕ} (hne : root ≠ root') (h : L.walk root n x = some xs)
    (h' : L.walk root' m x = some ys) (hroot : root' ∉ xs) : root ∈ ys := by
  induction n generalizing m x xs ys with
  | zero => cases h
  | succ n ih =>
    cases m with
    | zero => cases h'
    | succ m =>
      rw [walk] at h h'
      -- Where one iteration ends at its root, the other one meets that root; or both go on.
      split_ifs at h h' with hx hx' hx'
      · exact absurd (hx.symm.trans hx') hne
      · obtain ⟨zs, -, rfl⟩ := Option.map_eq_some_iff.mp h'
        exact hx ▸ List.mem_cons_self
      · obtain ⟨zs, -, rfl⟩ := Option.map_eq_some_iff.mp h
        exact absurd List.mem_cons_self (hx' ▸ hroot)
      · obtain ⟨xs', hxs, rfl⟩ := Option.map_eq_some_iff.mp h
        obtain ⟨ys', hys, rfl⟩ := Option.map_eq_some_iff.mp h'
        exact List.mem_cons_of_mem _ (ih hxs hys fun hmem => hroot (List.mem_cons_of_mem _ hmem))

end Links

end SwiftRuntime
