import Mathlib.Data.List.Perm.Basic
import Mathlib.Data.List.Nodup
import Mathlib.Data.Nat.Log
import Mathlib.Tactic.Common
import Mathlib.Tactic.Ring
import SwiftRuntime.SearchTree

/-!
# Red-black trees with a hole

A tree with colours at its nodes, and the path from a place in it up to the root: a list of frames,
each with the node above, the side on which the path came up to it, and the subtree on the other
side. `plug` fills the hole at the start of the path. Nodes are built with `branch`, which takes the
side of its first subtree, so that what holds on the left holds on the right by the same proof.

`Valid` is the red-black condition: a black root, black children of red nodes, and as many black
nodes on every path down. `Wants` is what the condition says of the path alone, for a hole of a
given black height, so that a repair that works its way up (`valid_plug_iff`) only looks at the
nodes around the hole. A valid tree is low (`Valid.height_le`).
-/

namespace SwiftRuntime

/-- The colours of nodes. -/
inductive Color
  | black
  | red
deriving DecidableEq, Repr

/-- The sides of a node. -/
inductive Side
  | left
  | right
deriving DecidableEq, Repr

/-- The opposite side. -/
def Side.other : Side → Side
  | .left => .right
  | .right => .left

/-- The other side of the other side is the side itself. -/
@[simp]
theorem Side.other_other (d : Side) : d.other.other = d := by cases d <;> rfl

/-- A side is not its other side. -/
@[simp]
theorem Side.other_ne (d : Side) : d.other ≠ d := by cases d <;> decide

/-- There are two sides. -/
theorem Side.eq_other_of_ne {d e : Side} (h : d ≠ e) : d = e.other := by
  cases d <;> cases e <;> simp_all [Side.other]

/-- A binary tree with elements and colours at its nodes. -/
inductive ColorTree (α : Type*)
  | nil
  | node (c : Color) (l : ColorTree α) (x : α) (r : ColorTree α)
deriving DecidableEq, Repr

namespace ColorTree

section Basic

variable {α : Type*}

/-- The elements in order. -/
def toList : ColorTree α → List α
  | nil => []
  | node _ l x r => l.toList ++ x :: r.toList

/-- The colour of the root; an empty tree is black. -/
def color : ColorTree α → Color
  | nil => .black
  | node c _ _ _ => c

/-- The element at the root. -/
def root : ColorTree α → Option α
  | nil => none
  | node _ _ x _ => some x

/-- The tree with a black root. -/
def blacken : ColorTree α → ColorTree α
  | nil => nil
  | node _ l x r => node .black l x r

/-- The number of nodes on the longest path down. -/
def height : ColorTree α → ℕ
  | nil => 0
  | node _ l _ r => max l.height r.height + 1

/-- The tree without its colours. -/
def forget : ColorTree α → SearchTree α
  | nil => .leaf
  | node _ l x r => .node l.forget x r.forget

/-- The node with the subtree `a` on the side `d` and `b` on the other one. -/
def branch (d : Side) (c : Color) (a : ColorTree α) (x : α) (b : ColorTree α) : ColorTree α :=
  match d with
  | .left => node c a x b
  | .right => node c b x a

variable {d : Side} {c c' : Color} {a b t : ColorTree α} {x y : α}

/-- A tree has the same elements without its colors. -/
@[simp]
theorem toList_forget (t : ColorTree α) : t.forget.toList = t.toList := by
  induction t with
  | nil => rfl
  | node c l x r ihl ihr => simp [forget, SearchTree.toList, toList, ihl, ihr]

/-- A branch seen from the other side has its halves exchanged. -/
theorem branch_other : branch d.other c a x b = branch d c b x a := by cases d <;> rfl

/-- The root of a branch, from either side. -/
@[simp]
theorem root_branch : (branch d c a x b).root = some x := by cases d <;> rfl

/-- The color of a branch, from either side. -/
@[simp]
theorem color_branch : (branch d c a x b).color = c := by cases d <;> rfl

/-- A branch is blackened at its root. -/
@[simp]
theorem blacken_branch : (branch d c a x b).blacken = branch d .black a x b := by cases d <;> rfl

/-- Blackening leaves the elements alone. -/
@[simp]
theorem toList_blacken : t.blacken.toList = t.toList := by cases t <;> rfl

/-- Only the empty tree has no root. -/
theorem root_eq_none_iff : t.root = none ↔ t = nil := by cases t <;> simp [root]

/-- The root is an element. -/
@[grind →]
theorem mem_of_root (h : t.root = some x) : x ∈ t.toList := by
  cases t with
  | nil => cases h
  | node c l y r => simp_all [root, toList]

/-- A tree with a root is a node, seen from either side. -/
theorem exists_branch (d : Side) (h : t ≠ nil) : ∃ c a x b, t = branch d c a x b := by
  cases t with
  | nil => exact absurd rfl h
  | node c l x r =>
    cases d
    · exact ⟨c, l, x, r, rfl⟩
    · exact ⟨c, r, x, l, rfl⟩

/-- The elements of a branch are its root and those of its halves. -/
theorem toList_branch_perm (d : Side) (c : Color) (a : ColorTree α) (x : α) (b : ColorTree α) :
    (branch d c a x b).toList.Perm (x :: (a.toList ++ b.toList)) := by
  cases d
  · exact List.perm_middle
  · exact List.perm_middle.trans (List.perm_append_comm.cons x)

/-- A rotation keeps the order of the elements. -/
theorem toList_rotate {g : ColorTree α} :
    (branch d c' (branch d c a x b) y g).toList = (branch d c a x (branch d c' b y g)).toList := by
  cases d <;> simp [branch, toList]

end Basic

/-! ## Paths -/

/-- A node above a hole: the hole is on its side `side`, and `sibling` is its subtree on the other
one. -/
structure Frame (α : Type*) where
  /-- The side of the hole. -/
  side : Side
  /-- The colour of the node. -/
  color : Color
  /-- The element at the node. -/
  node : α
  /-- The subtree on the other side. -/
  sibling : ColorTree α

/-- A node with its hole filled. -/
def Frame.attach {α : Type*} (f : Frame α) (t : ColorTree α) : ColorTree α :=
  branch f.side f.color t f.node f.sibling

/-- The tree that has `t` in the hole at the start of a path. -/
def plug {α : Type*} : List (Frame α) → ColorTree α → ColorTree α
  | [], t => t
  | f :: ctx, t => plug ctx (f.attach t)

/-- The elements of a path and of the subtrees beside it. -/
def nodes {α : Type*} : List (Frame α) → List α
  | [] => []
  | f :: ctx => f.node :: (f.sibling.toList ++ nodes ctx)

/-- The elements before the hole, in order. -/
def before {α : Type*} : List (Frame α) → List α
  | [] => []
  | f :: ctx =>
    match f.side with
    | .left => before ctx
    | .right => before ctx ++ (f.sibling.toList ++ [f.node])

/-- The elements after the hole, in order. -/
def after {α : Type*} : List (Frame α) → List α
  | [] => []
  | f :: ctx =>
    match f.side with
    | .left => f.node :: (f.sibling.toList ++ after ctx)
    | .right => after ctx

/-- The element above the hole. -/
def above {α : Type*} (ctx : List (Frame α)) : Option α := ctx.head?.map Frame.node

/-- The root of a plugged tree, by the root of what is in the hole. -/
def rootFrom {α : Type*} : List (Frame α) → Option α → Option α
  | [], p => p
  | f :: ctx, _ => rootFrom ctx (some f.node)

section Paths

variable {α : Type*} {ctx ctx' : List (Frame α)} {t t' : ColorTree α}

/-- A path of two parts is plugged part by part. -/
theorem plug_append : plug (ctx ++ ctx') t = plug ctx' (plug ctx t) := by
  induction ctx generalizing t with
  | nil => rfl
  | cons f ctx ih => exact ih

/-- The nodes on a path of two parts. -/
theorem nodes_append : nodes (ctx ++ ctx') = nodes ctx ++ nodes ctx' := by
  induction ctx with
  | nil => rfl
  | cons f ctx ih => simp [nodes, ih]

/-- The elements of a plugged tree: those before the hole, in it and after it. -/
theorem toList_plug : (plug ctx t).toList = before ctx ++ (t.toList ++ after ctx) := by
  induction ctx generalizing t with
  | nil => simp [plug, before, after]
  | cons f ctx ih =>
    obtain ⟨side, c, x, s⟩ := f
    cases side <;> simp [plug, ih, before, after, Frame.attach, branch, toList]

/-- Down on the left there is nothing before the hole. -/
theorem before_eq_nil (h : ∀ f ∈ ctx, f.side = .left) : before ctx = [] := by
  induction ctx with
  | nil => rfl
  | cons f ctx ih =>
    obtain ⟨hf, hctx⟩ := List.forall_mem_cons.mp h
    simp only [before, hf, ih hctx]

/-- The elements of a plugged tree are those in the hole and those on the path. -/
theorem toList_plug_perm : (plug ctx t).toList.Perm (t.toList ++ nodes ctx) := by
  induction ctx generalizing t with
  | nil => simp [plug, nodes]
  | cons f ctx ih =>
    refine ih.trans (((toList_branch_perm _ _ _ _ _).append_right _).trans ?_)
    simp only [nodes, List.cons_append, List.append_assoc]
    exact List.perm_middle.symm

/-- The node above the hole is on the path. -/
@[grind →]
theorem mem_nodes_of_above {x : α} (h : above ctx = some x) : x ∈ nodes ctx := by
  cases ctx with
  | nil => cases h
  | cons f ctx =>
    cases h
    exact List.mem_cons_self

/-- Every element is at the top of what is in some hole. -/
theorem exists_plug_of_mem {x : α} (h : x ∈ t.toList) :
    ∃ ctx c l r, t = plug ctx (node c l x r) := by
  induction t with
  | nil => cases h
  | node c l y r ihl ihr =>
    rcases List.mem_append.mp h with h | h
    · obtain ⟨ctx, c', l', r', hl⟩ := ihl h
      exact ⟨ctx ++ [⟨.left, c, y, r⟩], c', l', r', by rw [plug_append, ← hl]; rfl⟩
    · rcases List.mem_cons.mp h with rfl | h
      · exact ⟨[], c, l, r, rfl⟩
      · obtain ⟨ctx, c', l', r', hr⟩ := ihr h
        exact ⟨ctx ++ [⟨.right, c, y, l⟩], c', l', r', by rw [plug_append, ← hr]; rfl⟩

/-- If there is a node above the hole, then the root of the tree is on the path. -/
theorem exists_rootFrom_cons (f : Frame α) (ctx : List (Frame α)) (p : Option α) :
    ∃ z ∈ nodes (f :: ctx), rootFrom (f :: ctx) p = some z := by
  induction ctx generalizing f p with
  | nil => exact ⟨f.node, by simp [nodes], rfl⟩
  | cons f' ctx ih =>
    obtain ⟨z, hz, hroot⟩ := ih f' (some f.node)
    exact ⟨z, List.mem_cons_of_mem _ (List.mem_append_right _ hz), hroot⟩

/-- A tree with something in its hole is not empty. -/
theorem plug_ne_nil (h : t ≠ nil) : plug ctx t ≠ nil := by
  induction ctx generalizing t with
  | nil => exact h
  | cons f ctx ih =>
    refine ih fun hf => ?_
    have := congrArg root hf
    rw [Frame.attach, root_branch] at this
    cases this

/-- The hole is no deeper than the tree is high. -/
theorem length_add_height_le (ctx : List (Frame α)) (t : ColorTree α) :
    ctx.length + t.height ≤ (plug ctx t).height := by
  induction ctx generalizing t with
  | nil => simp [plug]
  | cons f ctx ih =>
    have hle : t.height + 1 ≤ (f.attach t).height := by
      obtain ⟨side, c, x, s⟩ := f
      cases side <;> simp [Frame.attach, branch, height]
    have := ih (f.attach t)
    rw [plug, List.length_cons]
    omega

variable {dir : α → Ordering}

/-- The search that `dir` guides comes up this path. -/
def Follows (dir : α → Ordering) (ctx : List (Frame α)) : Prop :=
  ∀ f ∈ ctx, dir f.node = match f.side with
    | .left => .lt
    | .right => .gt

/-- A search that has followed a path goes on to the side that the direction points to. -/
theorem Follows.cons {f : Frame α} (h : Follows dir ctx)
    (hf : dir f.node = match f.side with
      | .left => .lt
      | .right => .gt) : Follows dir (f :: ctx) :=
  List.forall_mem_cons.mpr ⟨hf, h⟩

/-- A search goes down its path to the hole. -/
theorem Follows.find_plug (h : Follows dir ctx) :
    (plug ctx t).forget.find dir = t.forget.find dir := by
  induction ctx generalizing t with
  | nil => rfl
  | cons f ctx ih =>
    obtain ⟨hf, hctx⟩ := List.forall_mem_cons.mp h
    obtain ⟨side, c, x, s⟩ := f
    rw [plug, ih hctx]
    cases side <;> simp_all [Frame.attach, branch, forget, SearchTree.find]

/-- An insertion goes down its path to the hole. -/
theorem Follows.insert_plug (h : Follows dir ctx) {a : α}
    (ht : t.forget.insert dir a = t'.forget) :
    (plug ctx t).forget.insert dir a = (plug ctx t').forget := by
  induction ctx generalizing t t' with
  | nil => exact ht
  | cons f ctx ih =>
    obtain ⟨hf, hctx⟩ := List.forall_mem_cons.mp h
    obtain ⟨side, c, x, s⟩ := f
    refine ih hctx ?_
    cases side <;> simp_all [Frame.attach, branch, forget, SearchTree.insert]

end Paths

/-! ## Walks -/

/-- The elements in the order of a walk towards a side. -/
def walk {α : Type*} (d : Side) (t : ColorTree α) : List α :=
  match d with
  | .left => t.toList.reverse
  | .right => t.toList

/-- The elements that a walk towards a side comes to after the hole. -/
def rest {α : Type*} (d : Side) (ctx : List (Frame α)) : List α :=
  match d with
  | .left => (before ctx).reverse
  | .right => after ctx

section Walks

variable {α : Type*} {d : Side} {c : Color} {a b s t : ColorTree α} {x : α} {ctx : List (Frame α)}

/-- A walk over a branch goes over one half, the root and the other half. -/
theorem walk_branch : walk d (branch d.other c a x b) = walk d a ++ x :: walk d b := by
  cases d <;> simp [walk, Side.other, branch, toList]

/-- If the hole is on the side that the walk comes from, the node above it and its other half come
next. -/
theorem rest_other : rest d (⟨d.other, c, x, s⟩ :: ctx) = x :: (walk d s ++ rest d ctx) := by
  cases d <;> simp [rest, walk, Side.other, before, after]

/-- If the hole is on the side that the walk goes to, the node above it has been passed. -/
theorem rest_same : rest d (⟨d, c, x, s⟩ :: ctx) = rest d ctx := by
  cases d <;> simp [rest, before, after]

/-- A walk over a plugged tree comes to the hole on the way. -/
theorem walk_plug :
    walk d (plug ctx t) = (rest d.other ctx).reverse ++ (walk d t ++ rest d ctx) := by
  cases d <;> simp [walk, rest, Side.other, toList_plug]

/-- Down on one side there is nothing beyond the hole. -/
theorem rest_eq_nil (h : ∀ f ∈ ctx, f.side = d) : rest d ctx = [] := by
  induction ctx with
  | nil => cases d <;> rfl
  | cons f ctx ih =>
    obtain ⟨hf, hctx⟩ := List.forall_mem_cons.mp h
    obtain ⟨side, c, x, s⟩ := f
    obtain rfl : side = d := hf
    rw [rest_same, ih hctx]

variable {dir : α → Ordering}

/-- Where a search comes to a hole in a tree that guides it, it has left smaller elements behind on
the left and larger ones on the right. -/
theorem Follows.guided (h : Follows dir ctx) (hg : SearchTree.Guided dir (plug ctx t).toList) :
    (∀ z ∈ before ctx, dir z = .gt) ∧ ∀ z ∈ after ctx, dir z = .lt := by
  induction ctx generalizing t with
  | nil => simp [before, after]
  | cons f ctx ih =>
    obtain ⟨hf, hctx⟩ := List.forall_mem_cons.mp h
    obtain ⟨hbefore, hafter⟩ := ih hctx hg
    obtain ⟨side, c, x, s⟩ := f
    rw [plug, toList_plug] at hg
    have hg := (List.pairwise_append.mp (List.pairwise_append.mp hg).2.1).1
    -- The frame adds its node and its other half, on the right of a left hole or on the left of a
    -- right one.
    cases side with
    | left =>
      obtain ⟨hx, -⟩ := List.pairwise_cons.mp (List.pairwise_append.mp hg).2.1
      refine ⟨hbefore, fun z hz => ?_⟩
      simp only [after, List.mem_cons, List.mem_append] at hz
      rcases hz with rfl | hz | hz
      · exact hf
      · exact (hx z hz).2 (by rw [show dir x = .lt from hf]; simp)
      · exact hafter z hz
    | right =>
      have hx := (List.pairwise_append.mp hg).2.2
      refine ⟨fun z hz => ?_, hafter⟩
      simp only [before, List.mem_append, List.mem_singleton] at hz
      rcases hz with hz | hz | rfl
      · exact hbefore z hz
      · exact (hx z hz x List.mem_cons_self).1 (by rw [show dir x = .gt from hf]; simp)
      · exact hf

end Walks

/-! ## The red-black condition -/

section Valid

variable {α : Type*} {d : Side} {c : Color} {a b t : ColorTree α} {x : α} {ctx : List (Frame α)}
  {n : ℕ}

/-- Red nodes have black children, and there are `n` black nodes on every path down. -/
def Balanced : ColorTree α → ℕ → Prop
  | nil, n => n = 0
  | node .red l _ r, n => (l.color = .black ∧ r.color = .black) ∧ l.Balanced n ∧ r.Balanced n
  | node .black l _ r, n => ∃ m, n = m + 1 ∧ l.Balanced m ∧ r.Balanced m

/-- The red-black condition. -/
def Valid (t : ColorTree α) : Prop := t.color = .black ∧ ∃ n, t.Balanced n

/-- The node above the hole is black. -/
def BlackAbove : List (Frame α) → Prop
  | [] => False
  | f :: _ => f.color = .black

/-- What the red-black condition says of a path with a hole of black height `n`. -/
def Wants : List (Frame α) → ℕ → Prop
  | [], _ => True
  | f :: ctx, n =>
    match f.color with
    | .red => f.sibling.color = .black ∧ f.sibling.Balanced n ∧ BlackAbove ctx ∧ Wants ctx n
    | .black => f.sibling.Balanced n ∧ Wants ctx (n + 1)

/-- The empty tree has no black nodes on its paths. -/
@[simp]
theorem balanced_nil : (nil : ColorTree α).Balanced n ↔ n = 0 := by simp [Balanced]

/-- A red branch has black halves with as many black nodes on their paths. -/
theorem balanced_red : (branch d .red a x b).Balanced n ↔
    (a.color = .black ∧ b.color = .black) ∧ a.Balanced n ∧ b.Balanced n := by
  cases d
  · rfl
  · simp only [branch, Balanced]
    tauto

/-- A black branch counts once more than its halves. -/
theorem balanced_black : (branch d .black a x b).Balanced (n + 1) ↔
    a.Balanced n ∧ b.Balanced n := by
  cases d <;> simp [branch, Balanced, and_comm]

/-- A black branch has a count that is not zero, and its halves have one less. -/
theorem balanced_black_iff : (branch d .black a x b).Balanced n ↔
    ∃ m, n = m + 1 ∧ a.Balanced m ∧ b.Balanced m := by
  cases d <;> simp [branch, Balanced, and_comm]

/-- A tree of a positive black height has a root. -/
theorem Balanced.ne_nil (h : t.Balanced (n + 1)) : t ≠ nil := by
  rintro rfl
  exact absurd (balanced_nil.mp h) (Nat.succ_ne_zero n)

/-- A red root can be made black. -/
theorem Balanced.blacken (h : t.Balanced n) (hred : t.color = .red) :
    t.blacken.Balanced (n + 1) := by
  cases t with
  | nil => cases hred
  | node c l x r =>
    cases hred
    exact ⟨n, rfl, h.2.1, h.2.2⟩

/-- A black tree is not changed by blackening. -/
theorem blacken_of_black (h : t.color = .black) : t.blacken = t := by
  cases t with
  | nil => rfl
  | node c l x r => cases h; rfl

/-- A balanced tree is valid once its root is black. -/
theorem Balanced.valid_blacken (h : t.Balanced n) : t.blacken.Valid := by
  cases t with
  | nil => exact ⟨rfl, n, h⟩
  | node c l x r =>
    cases c with
    | black => exact ⟨rfl, n, h⟩
    | red => exact ⟨rfl, n + 1, h.blacken rfl⟩

/-- Whether a plugged tree is valid, by the path and what is in the hole. -/
theorem valid_plug_iff : (plug ctx t).Valid ↔
    ∃ n, Wants ctx n ∧ t.Balanced n ∧ (t.color = .black ∨ BlackAbove ctx) := by
  induction ctx generalizing t with
  | nil => simp [plug, Valid, Wants, BlackAbove, and_comm]
  | cons f ctx ih =>
    obtain ⟨side, c, x, s⟩ := f
    rw [plug, ih]
    -- A red node passes the count on and needs a black hole, a black one takes one off.
    cases c with
    | red =>
      simp only [Frame.attach, color_branch, balanced_red, Wants, BlackAbove, reduceCtorEq,
        false_or, or_false]
      exact exists_congr fun n => by tauto
    | black =>
      simp only [Frame.attach, color_branch, balanced_black_iff, Wants, BlackAbove, true_or,
        or_true, and_true]
      constructor
      · rintro ⟨_, hw, n, rfl, ht, hs⟩
        exact ⟨n, ⟨hs, hw⟩, ht⟩
      · rintro ⟨n, ⟨hs, hw⟩, ht⟩
        exact ⟨n + 1, hw, n, rfl, ht, hs⟩

/-- What a path wants does not depend on the elements. -/
theorem wants_relabel_iff {ctx' : List (Frame α)} {s : ColorTree α} (y : α) :
    Wants (ctx' ++ ⟨d, c, x, s⟩ :: ctx) n ↔ Wants (ctx' ++ ⟨d, c, y, s⟩ :: ctx) n := by
  induction ctx' generalizing n with
  | nil => cases c <;> rfl
  | cons f ctx' ih =>
    have habove : BlackAbove (ctx' ++ ⟨d, c, x, s⟩ :: ctx) ↔
        BlackAbove (ctx' ++ ⟨d, c, y, s⟩ :: ctx) := by
      cases ctx' <;> rfl
    simp only [List.cons_append, Wants, ih, habove]

/-- Above black subtrees, a node of the colour that the path has there. -/
theorem Wants.valid_branch {f : Frame α} (h : Wants (f :: ctx) n) (ha : a.Balanced n)
    (hb : b.Balanced n) (hac : a.color = .black) (hbc : b.color = .black) :
    (plug ctx (branch d f.color a x b)).Valid := by
  obtain ⟨side, c, y, s⟩ := f
  rw [valid_plug_iff]
  cases c with
  | red => exact ⟨n, h.2.2.2, balanced_red.mpr ⟨⟨hac, hbc⟩, ha, hb⟩, .inr h.2.2.1⟩
  | black => exact ⟨n + 1, h.2, balanced_black.mpr ⟨ha, hb⟩, .inl (by simp)⟩

/-- Black nodes on every path down make a tree large. -/
theorem Balanced.two_pow_le (h : t.Balanced n) : 2 ^ n ≤ t.toList.length + 1 := by
  induction t generalizing n with
  | nil => simp [balanced_nil.mp h]
  | node c l x r ihl ihr =>
    simp only [toList, List.length_append, List.length_cons]
    cases c with
    | red =>
      have := ihl h.2.1
      omega
    | black =>
      obtain ⟨m, rfl, hl, hr⟩ := h
      have := ihl hl
      have := ihr hr
      rw [Nat.pow_succ]
      omega

/-- Of the nodes on a path down at most every other one is red. -/
theorem Balanced.height_le (h : t.Balanced n) :
    t.height ≤ 2 * n + if t.color = .red then 1 else 0 := by
  induction t generalizing n with
  | nil => simp [height]
  | node c l x r ihl ihr =>
    -- The halves of a red node are black, so the extra one is not needed twice.
    cases c with
    | red =>
      obtain ⟨⟨hlc, hrc⟩, hl, hr⟩ := h
      have hl := ihl hl
      have hr := ihr hr
      simp only [hlc, hrc, reduceCtorEq, if_false] at hl hr
      simp only [height, color, if_true]
      omega
    | black =>
      obtain ⟨m, rfl, hl, hr⟩ := h
      have hl := ihl hl
      have hr := ihr hr
      simp only [height, color, reduceCtorEq, if_false]
      split_ifs at hl hr <;> omega

/-- A valid tree is at most twice as high as a complete one with as many elements. -/
theorem Valid.height_le (h : t.Valid) : t.height ≤ 2 * Nat.log 2 (t.toList.length + 1) := by
  obtain ⟨hc, n, hn⟩ := h
  have hheight := hn.height_le
  simp only [hc, reduceCtorEq, if_false, Nat.add_zero] at hheight
  have hlog : n ≤ Nat.log 2 (t.toList.length + 1) :=
    Nat.le_log_of_pow_le (by omega) hn.two_pow_le
  omega

end Valid

end ColorTree

end SwiftRuntime
