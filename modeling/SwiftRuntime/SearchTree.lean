import Mathlib.Data.List.Pairwise
import Mathlib.Tactic.Common

/-!
# Binary search trees, by their in-order list

A search in a binary tree asks at every node on which side to go on. Here that question is a
function `dir` on the elements: `lt` goes left, `gt` goes right, `eq` ends the search. What a search
finds, and where an insertion puts its element, depends on `dir` along the in-order list of the tree
only, as long as `dir` reads `gt`, then at most one `eq`, then `lt` along that list (`Guided`). So a
proof that uses these lemmas never looks at the shape of a tree, and what a self-balancing tree does
to the shape is a parameter (`Balance`).
-/

namespace SwiftRuntime

/-- A binary tree with elements at its nodes. -/
inductive SearchTree (α : Type*)
  | leaf
  | node (left : SearchTree α) (x : α) (right : SearchTree α)

namespace SearchTree

variable {α : Type*} {dir : α → Ordering}

/-- The elements in order. -/
def toList : SearchTree α → List α
  | leaf => []
  | node l x r => l.toList ++ x :: r.toList

/-- The search that `dir` guides. -/
def find (dir : α → Ordering) : SearchTree α → Option α
  | leaf => none
  | node l x r =>
    match dir x with
    | .lt => l.find dir
    | .eq => some x
    | .gt => r.find dir

/-- Insertion at the place where the search ends; an element that the search finds stays. -/
def insert (dir : α → Ordering) (a : α) : SearchTree α → SearchTree α
  | leaf => node leaf a leaf
  | node l x r =>
    match dir x with
    | .lt => node (l.insert dir a) x r
    | .eq => node l x r
    | .gt => node l x (r.insert dir a)

/-- The tree without a left child anywhere that has a list as its elements. -/
def ofList : List α → SearchTree α
  | [] => leaf
  | x :: xs => node leaf x (ofList xs)

/-- The tree of a list has the elements of the list, in their order. -/
@[simp]
theorem toList_ofList (xs : List α) : (ofList xs).toList = xs := by
  induction xs with
  | nil => rfl
  | cons x xs ih => simp [ofList, toList, ih]

/-- Along the list, `dir` reads `gt`, then at most one `eq`, then `lt`. -/
def Guided (dir : α → Ordering) (xs : List α) : Prop :=
  xs.Pairwise fun a b => (dir b ≠ .lt → dir a = .gt) ∧ (dir a ≠ .gt → dir b = .lt)

/-- A guided search finds exactly the element where it ends. -/
theorem find_eq_some_iff {t : SearchTree α} (h : Guided dir t.toList) {x : α} :
    t.find dir = some x ↔ x ∈ t.toList ∧ dir x = .eq := by
  induction t with
  | leaf => simp [find, toList]
  | node l y r ihl ihr =>
    unfold Guided at h ihl ihr
    rw [toList, List.pairwise_append, List.pairwise_cons] at h
    obtain ⟨hl, ⟨hyr, hr⟩, hlyr⟩ := h
    rw [find, toList, List.mem_append, List.mem_cons]
    cases hy : dir y with
    | lt =>
      -- Everything from the node on is to the right of the end of the search.
      simp only [ihl hl]
      constructor
      · rintro ⟨hx, hd⟩
        exact ⟨.inl hx, hd⟩
      · rintro ⟨hx | rfl | hx, hd⟩
        · exact ⟨hx, hd⟩
        · rw [hy] at hd
          cases hd
        · rw [(hyr x hx).2 (by simp [hy])] at hd
          cases hd
    | eq =>
      simp only [Option.some.injEq]
      constructor
      · rintro rfl
        exact ⟨.inr (.inl rfl), hy⟩
      · rintro ⟨hx | rfl | hx, hd⟩
        · rw [(hlyr x hx y List.mem_cons_self).1 (by simp [hy])] at hd
          cases hd
        · rfl
        · rw [(hyr x hx).2 (by simp [hy])] at hd
          cases hd
    | gt =>
      -- Everything up to the node is to the left of the end of the search.
      simp only [ihr hr]
      constructor
      · rintro ⟨hx, hd⟩
        exact ⟨.inr (.inr hx), hd⟩
      · rintro ⟨hx | rfl | hx, hd⟩
        · rw [(hlyr x hx y List.mem_cons_self).1 (by simp [hy])] at hd
          cases hd
        · rw [hy] at hd
          cases hd
        · exact ⟨hx, hd⟩

/-- What a search finds is in the tree. -/
theorem mem_of_find {t : SearchTree α} {x : α} (h : t.find dir = some x) : x ∈ t.toList := by
  induction t with
  | leaf => cases h
  | node l y r ihl ihr =>
    rw [find] at h
    rw [toList, List.mem_append, List.mem_cons]
    -- The search goes on in the half that the direction points to.
    cases hy : dir y with
    | lt =>
      rw [hy] at h
      exact .inl (ihl h)
    | eq =>
      rw [hy] at h
      exact .inr (.inl (Option.some.inj h).symm)
    | gt =>
      rw [hy] at h
      exact .inr (.inr (ihr h))

/-- A search for an element that is only on the left goes left. -/
theorem find_left {l r : SearchTree α} {x y : α} (hx : x ∉ y :: r.toList)
    (h : (node l y r).find dir = some x) : dir y = .lt ∧ l.find dir = some x := by
  rw [find] at h
  cases hy : dir y with
  | lt =>
    rw [hy] at h
    exact ⟨rfl, h⟩
  | eq =>
    rw [hy] at h
    exact absurd (by simp [Option.some.inj h]) hx
  | gt =>
    rw [hy] at h
    exact absurd (List.mem_cons_of_mem _ (mem_of_find h)) hx

/-- A search for an element that is only on the right goes right. -/
theorem find_right {l r : SearchTree α} {x y : α} (hx : x ∉ l.toList ++ [y])
    (h : (node l y r).find dir = some x) : dir y = .gt ∧ r.find dir = some x := by
  rw [find] at h
  cases hy : dir y with
  | lt =>
    rw [hy] at h
    exact absurd (List.mem_append_left _ (mem_of_find h)) hx
  | eq =>
    rw [hy] at h
    exact absurd (by simp [Option.some.inj h]) hx
  | gt =>
    rw [hy] at h
    exact ⟨rfl, h⟩

/-- If the keys of two neighbours in the tree ascend, where searches take them to descend, then one
of the two is not found by its key: one of them is below the other, and on the side where the search
for it does not go. -/
theorem not_find_of_ascending {t : SearchTree α} {key : α → ℕ} {a b : α} {before after : List α}
    (hnodup : t.toList.Nodup) (hsplit : t.toList = before ++ a :: b :: after)
    (hlt : key a < key b) (ha : t.find (fun x => compare (key x) (key a)) = some a)
    (hb : t.find (fun x => compare (key x) (key b)) = some b) : False := by
  induction t generalizing before after with
  | leaf => simp [toList] at hsplit
  | node l y r ihl ihr =>
    rw [toList] at hnodup hsplit
    have hl : ∀ x ∈ l.toList, x ∉ y :: r.toList := fun x hx hx' =>
      (List.nodup_append.mp hnodup).2.2 x hx x hx' rfl
    have hr : ∀ x ∈ r.toList, x ∉ l.toList ++ [y] := by
      rw [← List.singleton_append, ← List.append_assoc] at hnodup
      exact fun x hx hx' => (List.nodup_append.mp hnodup).2.2 x hx' x hx rfl
    rcases List.append_eq_append_iff.mp hsplit with ⟨c, -, hc⟩ | ⟨c, hc, hc'⟩
    · cases c with
      | nil =>
        -- The first is the node, and the second is on its right.
        obtain ⟨rfl, hright⟩ := List.cons.inj hc
        have hgt := (find_right (hr b (by simp [hright])) hb).1
        exact absurd (Nat.compare_eq_gt.mp hgt) (by omega)
      | cons z c =>
        obtain ⟨-, hright⟩ := List.cons.inj hc
        exact ihr (List.nodup_cons.mp (List.nodup_append.mp hnodup).2.1).2 hright
          (find_right (hr a (by simp [hright])) ha).2 (find_right (hr b (by simp [hright])) hb).2
    · rcases c with - | ⟨z, - | ⟨w, c⟩⟩
      · obtain ⟨rfl, hright⟩ := List.cons.inj hc'
        have hgt := (find_right (hr b (by simp [← hright])) hb).1
        exact absurd (Nat.compare_eq_gt.mp hgt) (by omega)
      · -- The second is the node, and the first is on its left.
        obtain ⟨rfl, hrest⟩ := List.cons.inj hc'
        obtain ⟨rfl, -⟩ := List.cons.inj hrest
        have hlt' := (find_left (hl a (by simp [hc])) ha).1
        exact absurd (Nat.compare_eq_lt.mp hlt') (by omega)
      · obtain ⟨rfl, hrest⟩ := List.cons.inj hc'
        obtain ⟨rfl, -⟩ := List.cons.inj hrest
        exact ihl (List.nodup_append.mp hnodup).1 hc (find_left (hl a (by simp [hc])) ha).2
          (find_left (hl b (by simp [hc])) hb).2

/-- An insertion changes nothing when the search finds an element. -/
theorem insert_of_find {t : SearchTree α} {x : α} (h : t.find dir = some x) (a : α) :
    t.insert dir a = t := by
  induction t with
  | leaf => cases h
  | node l y r ihl ihr =>
    rw [find] at h
    rw [insert]
    cases hy : dir y with
    | lt =>
      rw [hy] at h
      simp only [ihl h]
    | eq => rfl
    | gt =>
      rw [hy] at h
      simp only [ihr h]

/-- An insertion puts its element between those to the left of the end of its search and those to
the right. -/
theorem toList_insert {t : SearchTree α} (h : Guided dir t.toList) (hnone : t.find dir = none)
    (a : α) :
    (t.insert dir a).toList =
      t.toList.filter (dir · = .gt) ++ a :: t.toList.filter (dir · = .lt) := by
  induction t with
  | leaf => rfl
  | node l y r ihl ihr =>
    unfold Guided at h ihl ihr
    rw [toList, List.pairwise_append, List.pairwise_cons] at h
    obtain ⟨hl, ⟨hyr, hr⟩, hlyr⟩ := h
    rw [find] at hnone
    rw [insert, toList, List.filter_append, List.filter_append]
    cases hy : dir y with
    | lt =>
      rw [hy] at hnone
      -- The search goes left: everything from the root on is larger.
      have hright : ∀ z ∈ y :: r.toList, dir z = .lt := by
        intro z hz
        rcases List.mem_cons.mp hz with rfl | hz
        · exact hy
        · exact (hyr z hz).2 (by simp [hy])
      have hgt : (y :: r.toList).filter (dir · = .gt) = [] :=
        List.filter_eq_nil_iff.mpr fun z hz => by simp [hright z hz]
      have hlt : (y :: r.toList).filter (dir · = .lt) = y :: r.toList :=
        List.filter_eq_self.mpr fun z hz => by simp [hright z hz]
      simp only [toList]
      rw [ihl hl hnone, hgt, hlt]
      simp
    | eq =>
      rw [hy] at hnone
      cases hnone
    | gt =>
      rw [hy] at hnone
      -- The search goes right: everything in the left half is smaller.
      have hleft : ∀ z ∈ l.toList, dir z = .gt := fun z hz =>
        (hlyr z hz y List.mem_cons_self).1 (by simp [hy])
      have hgt : l.toList.filter (dir · = .gt) = l.toList :=
        List.filter_eq_self.mpr fun z hz => by simp [hleft z hz]
      have hlt : l.toList.filter (dir · = .lt) = [] :=
        List.filter_eq_nil_iff.mpr fun z hz => by simp [hleft z hz]
      simp only [toList]
      rw [ihr hr hnone, hgt, hlt]
      simp [hy]

/-- An element that is not found is put somewhere among the others. -/
theorem exists_toList_insert {t : SearchTree α} (hnone : t.find dir = none) (a : α) :
    ∃ before after, t.toList = before ++ after ∧
      (t.insert dir a).toList = before ++ a :: after := by
  induction t with
  | leaf => exact ⟨[], [], rfl, rfl⟩
  | node l x r ihl ihr =>
    rw [find] at hnone
    -- The element goes into one half, and the rest of the tree stays around it.
    cases hx : dir x with
    | lt =>
      rw [hx] at hnone
      obtain ⟨before, after, hl, hins⟩ := ihl hnone
      exact ⟨before, after ++ x :: r.toList,
        by simp [toList, hl], by simp [insert, hx, toList, hins]⟩
    | eq => simp [hx] at hnone
    | gt =>
      rw [hx] at hnone
      obtain ⟨before, after, hr, hins⟩ := ihr hnone
      exact ⟨l.toList ++ x :: before, after,
        by simp [toList, hr], by simp [insert, hx, toList, hins]⟩

/-- An element that goes to the left of all others becomes the first one. -/
theorem toList_insert_of_lt {t : SearchTree α} (h : ∀ x ∈ t.toList, dir x = .lt) (a : α) :
    (t.insert dir a).toList = a :: t.toList := by
  induction t with
  | leaf => rfl
  | node l y r ihl ihr =>
    have hy : dir y = .lt := h y (by simp [toList])
    rw [insert, hy]
    simp only [toList]
    rw [ihl fun x hx => h x (by simp [toList, hx]), List.cons_append]

end SearchTree

/-- What a self-balancing tree does to the shape: after an insertion, and for the removal of an
element. Both are fixed on the in-order list and free otherwise. -/
structure Balance (α : Type*) [DecidableEq α] where
  /-- The rotations after an insertion. -/
  rebalance : SearchTree α → SearchTree α
  /-- They keep the order of the elements. -/
  toList_rebalance : ∀ t, (rebalance t).toList = t.toList
  /-- The removal of an element. -/
  remove : α → SearchTree α → SearchTree α
  /-- It keeps the order of the other elements. -/
  toList_remove : ∀ x t, (remove x t).toList = t.toList.erase x

/-- Balancing that never rotates, and rebuilds the tree after a removal. -/
def Balance.plain (α : Type*) [DecidableEq α] : Balance α where
  rebalance := id
  toList_rebalance _ := rfl
  remove x t := .ofList (t.toList.erase x)
  toList_remove _ _ := SearchTree.toList_ofList _

end SwiftRuntime
