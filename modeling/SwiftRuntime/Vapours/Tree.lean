import SwiftRuntime.ColorTree
import SwiftRuntime.Effect
import Mathlib.Order.Compare

/-!
# The intrusive red-black tree of `freebsd/tree.hpp`

A node has its links and its colour in itself, so the state of a tree is the entries of all nodes
and a root (`RbHeap`). The macros of the header are code on that state: reading through a null
pointer stops it, and so does a loop that goes round more often than `limit`. A macro that has a
left and a right copy of a branch takes the side as an argument here.

`At S base σ ctx t` says that the heap `σ` holds a tree in memory with the subtree `t` below the
path `ctx`. Its nodes are all different and in `S`, and the entries outside `S` are those of `base`.
The path is a list of frames, each with its side, so that what is proved of one side is proved of
both.
-/

namespace SwiftRuntime.Freebsd

open ColorTree

/-- What stops the code: a null pointer that is read or written through, or a loop that is not left
within its bound. -/
inductive Fault
  | null
  | endless
deriving DecidableEq, Repr

/-- `RBEntry`. -/
@[ext]
structure RbEntry (ν : Type) where
  /-- `m_rbe_left`. -/
  left : Option ν
  /-- `m_rbe_right`. -/
  right : Option ν
  /-- `m_rbe_parent`. -/
  parent : Option ν
  /-- `m_rbe_color`. -/
  color : Color
deriving DecidableEq, Repr

/-- The entries of all nodes, and the `RBHead` of a tree. -/
structure RbHeap (ν : Type) where
  /-- The entry of a node. -/
  entry : ν → RbEntry ν
  /-- `m_rbh_root`. -/
  root : Option ν

variable {ν : Type}

/-- The child on a side. -/
def RbEntry.child (e : RbEntry ν) : Side → Option ν
  | .left => e.left
  | .right => e.right

/-- The entry with another child on a side. -/
def RbEntry.setChild (d : Side) (p : Option ν) (e : RbEntry ν) : RbEntry ν :=
  match d with
  | .left => { e with left := p }
  | .right => { e with right := p }

/-- The entry with another parent. -/
def RbEntry.setParent (p : Option ν) (e : RbEntry ν) : RbEntry ν := { e with parent := p }

/-- The entry with another colour. -/
def RbEntry.setColor (c : Color) (e : RbEntry ν) : RbEntry ν := { e with color := c }

variable [DecidableEq ν]

/-- A write to the entry of a node. -/
def RbHeap.modifyAt (x : ν) (g : RbEntry ν → RbEntry ν) (σ : RbHeap ν) : RbHeap ν :=
  { σ with entry := Function.update σ.entry x (g (σ.entry x)) }

/-- The heap with another root. -/
def RbHeap.setRoot (p : Option ν) (σ : RbHeap ν) : RbHeap ν := { σ with root := p }

/-- Code on the nodes of a tree. -/
abbrev RbM (ν : Type) := EStateM Fault (RbHeap ν)

/-! ## Fields -/

/-- `GetRBEntry`. -/
def rbEntry (t : Option ν) : RbM ν (RbEntry ν) := do
  let x ← ofOption t .null
  return (← get).entry x

/-- `RB_LEFT` and `RB_RIGHT`. -/
def rbChild (d : Side) (t : Option ν) : RbM ν (Option ν) := do
  let x ← ofOption t .null
  return ((← get).entry x).child d

/-- `RB_LEFT`. -/
abbrev rbLeft (t : Option ν) : RbM ν (Option ν) := rbChild .left t

/-- `RB_RIGHT`. -/
abbrev rbRight (t : Option ν) : RbM ν (Option ν) := rbChild .right t

/-- `RB_PARENT`. -/
def rbParent (t : Option ν) : RbM ν (Option ν) := do
  let x ← ofOption t .null
  return ((← get).entry x).parent

/-- `RB_COLOR`. -/
def rbColor (t : Option ν) : RbM ν Color := do
  let x ← ofOption t .null
  return ((← get).entry x).color

/-- `RB_IS_BLACK`. -/
def rbIsBlack (t : Option ν) : RbM ν Bool := return (← rbColor t) = .black

/-- `RB_IS_RED`. -/
def rbIsRed (t : Option ν) : RbM ν Bool := return (← rbColor t) = .red

/-- A write through a pointer to a node. -/
def rbModify (t : Option ν) (g : RbEntry ν → RbEntry ν) : RbM ν Unit := do
  let x ← ofOption t .null
  modify (RbHeap.modifyAt x g)

/-- `SetRBEntry`. -/
def rbSetEntry (t : Option ν) (e : RbEntry ν) : RbM ν Unit := rbModify t fun _ => e

/-- `RB_SET_LEFT` and `RB_SET_RIGHT`. -/
def rbSetChild (d : Side) (t e : Option ν) : RbM ν Unit := rbModify t (.setChild d e)

/-- `RB_SET_LEFT`. -/
abbrev rbSetLeft (t e : Option ν) : RbM ν Unit := rbSetChild .left t e

/-- `RB_SET_RIGHT`. -/
abbrev rbSetRight (t e : Option ν) : RbM ν Unit := rbSetChild .right t e

/-- `RB_SET_PARENT`. -/
def rbSetParent (t e : Option ν) : RbM ν Unit := rbModify t (.setParent e)

/-- `RB_SET_COLOR`. -/
def rbSetColor (t : Option ν) (c : Color) : RbM ν Unit := rbModify t (.setColor c)

/-- `RBHead::SetRoot`. -/
def setRoot (p : Option ν) : RbM ν Unit := modify (RbHeap.setRoot p)

/-- `RB_SET`. -/
def rbSet (elm parent : Option ν) : RbM ν Unit :=
  rbModify elm fun _ => ⟨none, none, parent, .red⟩

/-- `RB_SET_BLACKRED`. -/
def rbSetBlackRed (black red : Option ν) : RbM ν Unit := do
  rbSetColor black .black
  rbSetColor red .red

/-- `t == nullptr || RB_IS_BLACK(t)`. -/
def nullOrBlack (t : Option ν) : RbM ν Bool :=
  match t with
  | none => return true
  | some _ => rbIsBlack t

/-- `t && RB_IS_RED(t)`. -/
def nodeAndRed (t : Option ν) : RbM ν Bool :=
  match t with
  | none => return false
  | some _ => rbIsRed t

/-- The link from above to `elm`, which is a child of `parent` or the root, is made to `new`. -/
def replaceChild (parent elm new : Option ν) : RbM ν Unit :=
  if parent ≠ none then do
    if (← rbLeft parent) = elm then rbSetLeft parent new
    else rbSetRight parent new
  else setRoot new

/-- `RB_ROTATE_LEFT` and `RB_ROTATE_RIGHT`, with the value of `tmp` as the result. -/
def rbRotate (d : Side) (elm : Option ν) : RbM ν (Option ν) := do
  let tmp ← rbChild d.other elm
  rbSetChild d.other elm (← rbChild d tmp)
  if (← rbChild d.other elm) ≠ none then
    rbSetParent (← rbChild d tmp) elm
  rbSetParent tmp (← rbParent elm)
  replaceChild (← rbParent elm) elm tmp
  rbSetChild d tmp elm
  rbSetParent elm tmp
  return tmp

/-- The loops that go down on one side: `while (RB_LEFT(elm)) elm = RB_LEFT(elm)` and its mirror
image. -/
def outermost (limit : ℕ) (d : Side) (elm : Option ν) : RbM ν (Option ν) :=
  loopM (fun elm => do
    let child ← rbChild d elm
    if child ≠ none then return .inl child
    else return .inr elm) .endless limit elm

/-! ## Heaps that hold a tree -/

/-- The nodes of the tree are linked as it says, with `par` above its root. -/
def Holds (σ : RbHeap ν) : Option ν → ColorTree ν → Prop
  | _, .nil => True
  | par, .node c l x r =>
    σ.entry x = ⟨l.root, r.root, par, c⟩ ∧ Holds σ (some x) l ∧ Holds σ (some x) r

/-- The entry of a node, by side. -/
def link (d : Side) (c : Color) (p q par : Option ν) : RbEntry ν :=
  match d with
  | .left => ⟨p, q, par, c⟩
  | .right => ⟨q, p, par, c⟩

/-- The nodes of a path and beside it are linked as it says, with `p` in the hole. -/
def HoldsPath (σ : RbHeap ν) : List (Frame ν) → Option ν → Prop
  | [], _ => True
  | f :: ctx, p =>
    σ.entry f.node = link f.side f.color p f.sibling.root (above ctx) ∧
      Holds σ (some f.node) f.sibling ∧ HoldsPath σ ctx (some f.node)

/-- The parent of `p`, where there is one, becomes `q`. -/
def RbHeap.adopt (p q : Option ν) (σ : RbHeap ν) : RbHeap ν :=
  match p with
  | none => σ
  | some z => σ.modifyAt z (.setParent q)

/-- The link from the path to its hole becomes `q`. -/
def RbHeap.relink (ctx : List (Frame ν)) (q : Option ν) (σ : RbHeap ν) : RbHeap ν :=
  match ctx with
  | [] => σ.setRoot q
  | f :: _ => σ.modifyAt f.node (.setChild f.side q)

section Links

variable {p q r par : Option ν} {d : Side} {c : Color}

omit [DecidableEq ν]

/-- The child on the side of the link. -/
@[simp]
theorem child_link : (link d c p q par).child d = p := by cases d <;> rfl

/-- The child on the other side. -/
@[simp]
theorem child_other_link : (link d c p q par).child d.other = q := by cases d <;> rfl

/-- The parent of a linked node, by either side. -/
@[simp]
theorem parent_link : (link d c p q par).parent = par := by cases d <;> rfl

/-- The colour of a linked node, by either side. -/
@[simp]
theorem color_link : (link d c p q par).color = c := by cases d <;> rfl

/-- Another child on the side of the link. -/
@[simp]
theorem setChild_link : (link d c p q par).setChild d r = link d c r q par := by cases d <;> rfl

/-- Another child on the other side. -/
@[simp]
theorem setChild_other_link : (link d c p q par).setChild d.other r = link d c p r par := by
  cases d <;> rfl

/-- Another parent of a linked node. -/
@[simp]
theorem setParent_link : (link d c p q par).setParent r = link d c p q r := by cases d <;> rfl

/-- Another colour of a linked node. -/
@[simp]
theorem setColor_link {c' : Color} : (link d c p q par).setColor c' = link d c' p q par := by
  cases d <;> rfl

end Links

section Entries

variable {σ : RbHeap ν} {x z : ν} {g : RbEntry ν → RbEntry ν} {p q : Option ν} {f : Frame ν}
  {ctx : List (Frame ν)}

/-- A write changes the entry of its node only. -/
theorem entry_modifyAt :
    (σ.modifyAt x g).entry z = if z = x then g (σ.entry z) else σ.entry z := by
  simp only [RbHeap.modifyAt, Function.update_apply]
  split_ifs with h
  · rw [h]
  · rfl

/-- A new parent is written to the entry of the child only. -/
theorem entry_adopt :
    (σ.adopt p q).entry z = if p = some z then (σ.entry z).setParent q else σ.entry z := by
  cases p with
  | none => simp [RbHeap.adopt]
  | some y => simp [RbHeap.adopt, entry_modifyAt, eq_comm]

/-- The node above the hole gets the new link on the side of the hole. -/
theorem entry_relink_head :
    (σ.relink (f :: ctx) q).entry f.node = (σ.entry f.node).setChild f.side q := by
  simp [RbHeap.relink, entry_modifyAt]

/-- Other nodes are not relinked. -/
theorem entry_relink_of_ne (h : above ctx ≠ some z) : (σ.relink ctx q).entry z = σ.entry z := by
  cases ctx with
  | nil => rfl
  | cons f ctx =>
    rw [RbHeap.relink, entry_modifyAt, if_neg]
    rintro rfl
    exact h rfl

/-- A write to an entry leaves the root alone. -/
@[simp]
theorem root_modifyAt : (σ.modifyAt x g).root = σ.root := rfl

/-- A new parent leaves the root alone. -/
@[simp]
theorem root_adopt : (σ.adopt p q).root = σ.root := by cases p <;> rfl

/-- The root after a change of the link to the hole. -/
theorem root_relink (h : σ.root = rootFrom ctx p) : (σ.relink ctx q).root = rootFrom ctx q := by
  cases ctx with
  | nil => rfl
  | cons f ctx => exact h

end Entries

section Frame

variable {σ σ' : RbHeap ν} {x y : ν} {t : ColorTree ν} {par p q : Option ν} {ctx : List (Frame ν)}
  {d : Side} {c : Color}

omit [DecidableEq ν]

/-- What a heap holds of a branch, by either side. -/
theorem holds_branch {a b : ColorTree ν} : Holds σ par (branch d c a x b) ↔
    σ.entry x = link d c a.root b.root par ∧ Holds σ (some x) a ∧ Holds σ (some x) b := by
  cases d
  · rfl
  · simp only [branch, Holds, link]
    tauto

/-- What a heap holds depends on the entries of the nodes only. -/
theorem Holds.congr (h : Holds σ par t) (he : ∀ z ∈ t.toList, σ'.entry z = σ.entry z) :
    Holds σ' par t := by
  induction t generalizing par with
  | nil => trivial
  | node c l x r ihl ihr =>
    obtain ⟨hx, hl, hr⟩ := h
    refine ⟨(he x (by simp [toList])).trans hx, ihl hl fun z hz => he z ?_,
      ihr hr fun z hz => he z ?_⟩
    · simp [toList, hz]
    · simp [toList, hz]

/-- A path is held by the entries of its nodes and of those beside it. -/
theorem HoldsPath.congr (h : HoldsPath σ ctx p) (he : ∀ z ∈ nodes ctx, σ'.entry z = σ.entry z) :
    HoldsPath σ' ctx p := by
  induction ctx generalizing p with
  | nil => trivial
  | cons f ctx ih =>
    obtain ⟨hf, hs, hctx⟩ := h
    refine ⟨(he _ (by simp [nodes])).trans hf, hs.congr fun z hz => he z ?_,
      ih hctx fun z hz => he z ?_⟩
    · simp [nodes, hz]
    · simp [nodes, hz]

/-- A subtree that comes under another node. -/
theorem Holds.reparent (h : Holds σ par t) (hnodup : t.toList.Nodup)
    (hroot : ∀ z, t.root = some z → σ'.entry z = (σ.entry z).setParent q)
    (hrest : ∀ z ∈ t.toList, t.root ≠ some z → σ'.entry z = σ.entry z) : Holds σ' q t := by
  cases t with
  | nil => trivial
  | node c l x r =>
    obtain ⟨hx, hl, hr⟩ := h
    obtain ⟨-, ⟨hxr, -⟩, hlr⟩ : l.toList.Nodup ∧ (x ∉ r.toList ∧ r.toList.Nodup) ∧ _ := by
      simpa only [toList, List.nodup_append, List.nodup_cons] using hnodup
    -- Only the entry of the root names the parent, and it is in neither half.
    refine ⟨by rw [hroot x rfl, hx]; rfl, hl.congr fun z hz => hrest z ?_ ?_,
      hr.congr fun z hz => hrest z ?_ ?_⟩
    · simp [toList, hz]
    · rintro ⟨⟩
      exact hlr x hz x List.mem_cons_self rfl
    · simp [toList, hz]
    · rintro ⟨⟩
      exact hxr hz

/-- A path whose hole gets other contents. -/
theorem HoldsPath.refill (h : HoldsPath σ ctx p) (hnodup : (nodes ctx).Nodup)
    (hhead : ∀ f rest, ctx = f :: rest → σ'.entry f.node = (σ.entry f.node).setChild f.side q)
    (hrest : ∀ z ∈ nodes ctx, above ctx ≠ some z → σ'.entry z = σ.entry z) :
    HoldsPath σ' ctx q := by
  cases ctx with
  | nil => trivial
  | cons f ctx =>
    obtain ⟨hf, hs, hctx⟩ := h
    have hne : ∀ z ∈ f.sibling.toList ++ nodes ctx, above (f :: ctx) ≠ some z := by
      rintro z hz ⟨⟩
      exact (List.nodup_cons.mp hnodup).1 hz
    refine ⟨by rw [hhead f ctx rfl, hf, setChild_link], hs.congr fun z hz => ?_,
      hctx.congr fun z hz => ?_⟩
    · exact hrest z (by simp [nodes, hz]) (hne z (by simp [hz]))
    · exact hrest z (by simp [nodes, hz]) (hne z (by simp [hz]))

end Frame

/-- The heap holds the tree with `t` in the hole of the path `ctx`, whose nodes are in `S`; outside
of `S` the entries are those of `base`. -/
structure At (S : Set ν) (base : ν → RbEntry ν) (σ : RbHeap ν) (ctx : List (Frame ν))
    (t : ColorTree ν) : Prop where
  /-- The nodes are different ones. -/
  nodup : (t.toList ++ nodes ctx).Nodup
  /-- The root of the tree. -/
  root : σ.root = rootFrom ctx t.root
  /-- The path from there to the hole. -/
  path : HoldsPath σ ctx t.root
  /-- The tree at the hole. -/
  tree : Holds σ (above ctx) t
  /-- The nodes are in `S`. -/
  inside : ∀ z ∈ t.toList ++ nodes ctx, z ∈ S
  /-- The entries outside `S` are those of `base`. -/
  outside : ∀ z ∉ S, σ.entry z = base z

/-- The heap holds a valid tree with these elements. -/
def HoldsValid (S : Set ν) (base : ν → RbEntry ν) (xs : List ν) (σ : RbHeap ν) : Prop :=
  ∃ T, At S base σ [] T ∧ T.Valid ∧ T.toList = xs

section HoldsValid

variable {S : Set ν} {base : ν → RbEntry ν} {σ : RbHeap ν} {xs : List ν}

omit [DecidableEq ν]

/-- A valid tree in memory has no node twice. -/
theorem HoldsValid.nodup (h : HoldsValid S base xs σ) : xs.Nodup := by
  obtain ⟨T, hat, -, rfl⟩ := h
  simpa [nodes] using hat.nodup

/-- The entries of nodes that are not of the tree's own are as they were. -/
theorem HoldsValid.outside (h : HoldsValid S base xs σ) {z : ν} (hz : z ∉ S) :
    σ.entry z = base z := by
  obtain ⟨T, hat, -⟩ := h
  exact hat.outside z hz

/-- The empty tree. -/
theorem holdsValid_nil : HoldsValid S base [] ⟨base, none⟩ :=
  ⟨.nil, ⟨by simp [toList, nodes], rfl, trivial, trivial, by simp [toList, nodes], fun _ _ => rfl⟩,
    ⟨rfl, 0, rfl⟩, rfl⟩

end HoldsValid

section Moves

variable {S : Set ν} {base : ν → RbEntry ν} {σ : RbHeap ν} {ctx : List (Frame ν)} {t : ColorTree ν}
  {f : Frame ν}

omit [DecidableEq ν]

/-- The hole can be moved down. -/
theorem at_cons_iff : At S base σ (f :: ctx) t ↔ At S base σ ctx (f.attach t) := by
  -- The same nodes, the same links and the same root, seen from one frame further down.
  have hperm : ((f.attach t).toList ++ nodes ctx).Perm (t.toList ++ nodes (f :: ctx)) := by
    refine ((toList_branch_perm _ _ _ _ _).append_right _).trans ?_
    simp only [nodes, List.cons_append, List.append_assoc]
    exact List.perm_middle.symm
  have hlinks : (HoldsPath σ (f :: ctx) t.root ∧ Holds σ (above (f :: ctx)) t) ↔
      HoldsPath σ ctx (f.attach t).root ∧ Holds σ (above ctx) (f.attach t) := by
    rw [Frame.attach, root_branch, holds_branch]
    show (_ ∧ _ ∧ _) ∧ Holds σ (some f.node) t ↔ _
    tauto
  have hroot : rootFrom (f :: ctx) t.root = rootFrom ctx (f.attach t).root := by
    rw [Frame.attach, root_branch, rootFrom]
  constructor
  · rintro ⟨hnodup, hr, hpath, htree, hin, hout⟩
    obtain ⟨hpath', htree'⟩ := hlinks.mp ⟨hpath, htree⟩
    exact ⟨hperm.nodup_iff.mpr hnodup, hr.trans hroot, hpath', htree',
      fun z hz => hin z (hperm.mem_iff.mp hz), hout⟩
  · rintro ⟨hnodup, hr, hpath, htree, hin, hout⟩
    obtain ⟨hpath', htree'⟩ := hlinks.mpr ⟨hpath, htree⟩
    exact ⟨hperm.nodup_iff.mp hnodup, hr.trans hroot.symm, hpath', htree',
      fun z hz => hin z (hperm.mem_iff.mpr hz), hout⟩

/-- The hole can be moved down on the near side. -/
theorem at_frame_iff {d : Side} {c : Color} {x : ν} {s : ColorTree ν} :
    At S base σ (⟨d, c, x, s⟩ :: ctx) t ↔ At S base σ ctx (branch d c t x s) := at_cons_iff

/-- The hole can be moved down on the far side. -/
theorem at_far_iff {d : Side} {c : Color} {x : ν} {s : ColorTree ν} :
    At S base σ (⟨d.other, c, x, s⟩ :: ctx) t ↔ At S base σ ctx (branch d c s x t) := by
  rw [at_frame_iff, branch_other]

/-- The hole can be moved up to the root. -/
theorem at_plug_iff : At S base σ ctx t ↔ At S base σ [] (plug ctx t) := by
  induction ctx generalizing t with
  | nil => rfl
  | cons f ctx ih => rw [at_cons_iff, ih, plug]

/-- The hole can be moved down a path. -/
theorem at_append_iff {ctx' : List (Frame ν)} :
    At S base σ (ctx' ++ ctx) t ↔ At S base σ ctx (plug ctx' t) := by
  rw [at_plug_iff, plug_append, ← at_plug_iff]

/-- The hole can be moved to the other side of the node above. -/
theorem at_sibling_iff {d : Side} {c : Color} {x : ν} {s : ColorTree ν} :
    At S base σ (⟨d, c, x, s⟩ :: ctx) t ↔ At S base σ (⟨d.other, c, x, t⟩ :: ctx) s := by
  rw [at_frame_iff, at_frame_iff, branch_other]

/-- The entry of the node at the hole. -/
theorem At.entry {d : Side} {c : Color} {a b : ColorTree ν} {x : ν}
    (h : At S base σ ctx (branch d c a x b)) : σ.entry x = link d c a.root b.root (above ctx) :=
  (holds_branch.mp h.tree).1

/-- What is at the hole is the child of the node above on its own side only. -/
theorem At.child_eq_iff {d e : Side} {c : Color} {x : ν} {s : ColorTree ν}
    (h : At S base σ (⟨d, c, x, s⟩ :: ctx) t) (hne : t ≠ .nil ∨ s ≠ .nil) :
    (σ.entry x).child e = t.root ↔ d = e := by
  have hnodup := h.nodup
  simp only [nodes, List.nodup_append, List.mem_cons, List.mem_append] at hnodup
  rw [show σ.entry x = _ from h.path.1]
  by_cases hde : d = e
  · subst hde
    simp
  · obtain rfl : e = d.other := Side.eq_other_of_ne (Ne.symm hde)
    rw [child_other_link]
    -- Equal children would be both empty, or a node twice.
    refine iff_of_false (fun hst => ?_) hde
    cases ht : t.root with
    | none =>
      rw [ht, root_eq_none_iff] at hst
      exact hne.elim (fun h => h (root_eq_none_iff.mp ht)) fun h => h hst
    | some y =>
      exact hnodup.2.2 y (mem_of_root ht) y (.inr (.inl (mem_of_root (hst.trans ht)))) rfl

/-- The entry of the node above the hole. -/
theorem At.entry_above (h : At S base σ (f :: ctx) t) :
    σ.entry f.node = link f.side f.color t.root f.sibling.root (above ctx) := h.path.1

end Moves

section Steps

variable {σ : RbHeap ν} {x y : ν} {d : Side} {c : Color} {p par : Option ν} {t : ColorTree ν}
  {β : Type}

/-- What follows a write of a child sees the new entry. -/
@[simp]
theorem rbSetChild_bind (k : Unit → RbM ν β) :
    (rbSetChild d (some x) p >>= k) σ = k () (σ.modifyAt x (.setChild d p)) := rfl

/-- What follows a write of a parent sees the new entry. -/
@[simp]
theorem rbSetParent_bind (k : Unit → RbM ν β) :
    (rbSetParent (some x) p >>= k) σ = k () (σ.modifyAt x (.setParent p)) := rfl

/-- What follows a write of a colour sees the new entry. -/
@[simp]
theorem rbSetColor_bind (k : Unit → RbM ν β) :
    (rbSetColor (some x) c >>= k) σ = k () (σ.modifyAt x (.setColor c)) := rfl

/-- What follows a write of a whole entry sees it. -/
@[simp]
theorem rbSetEntry_bind {e : RbEntry ν} (k : Unit → RbM ν β) :
    (rbSetEntry (some x) e >>= k) σ = k () (σ.modifyAt x fun _ => e) := rfl

/-- What follows `RB_SET_BLACKRED` sees both colours. -/
@[simp]
theorem rbSetBlackRed_bind (k : Unit → RbM ν β) :
    (rbSetBlackRed (some x) (some y) >>= k) σ =
      k () ((σ.modifyAt x (.setColor .black)).modifyAt y (.setColor .red)) := rfl

omit [DecidableEq ν]

/-- What follows a look at the heap. -/
theorem get_bind (k : RbHeap ν → RbM ν β) : (get >>= k) σ = k σ σ := rfl

/-- What follows the read of an entry. -/
@[simp]
theorem rbEntry_bind (k : RbEntry ν → RbM ν β) : (rbEntry (some x) >>= k) σ = k (σ.entry x) σ := rfl

/-- What follows the read of a child. -/
@[simp]
theorem rbChild_bind (k : Option ν → RbM ν β) :
    (rbChild d (some x) >>= k) σ = k ((σ.entry x).child d) σ := rfl

/-- What follows the read of a parent. -/
@[simp]
theorem rbParent_bind (k : Option ν → RbM ν β) :
    (rbParent (some x) >>= k) σ = k (σ.entry x).parent σ := rfl

/-- What follows the read of a colour. -/
@[simp]
theorem rbColor_bind (k : Color → RbM ν β) :
    (rbColor (some x) >>= k) σ = k (σ.entry x).color σ := rfl

/-- What follows the test of a node for red. -/
@[simp]
theorem rbIsRed_bind (k : Bool → RbM ν β) :
    (rbIsRed (some x) >>= k) σ = k ((σ.entry x).color = .red) σ := rfl

/-- The colour of a subtree, read through the pointer to it. -/
theorem nullOrBlack_eq (h : Holds σ par t) : nullOrBlack t.root σ = .ok (t.color = .black) σ := by
  cases t with
  | nil => rfl
  | node c l x r =>
    show EStateM.Result.ok (decide ((σ.entry x).color = .black)) σ = _
    rw [h.1]
    rfl

/-- What follows the test of a subtree for black. -/
theorem nullOrBlack_bind (h : Holds σ par t) (k : Bool → RbM ν β) :
    (nullOrBlack t.root >>= k) σ = k (t.color = .black) σ := bind_of_ok (nullOrBlack_eq h) k

/-- What follows the test of a subtree for red. -/
theorem nodeAndRed_bind (h : Holds σ par t) (k : Bool → RbM ν β) :
    (nodeAndRed t.root >>= k) σ = k (t.color = .red) σ := by
  cases t with
  | nil => rfl
  | node c l x r =>
    show k ((σ.entry x).color = .red) σ = _
    rw [h.1]
    rfl

end Steps

section Descent

variable {S : Set ν} {base : ν → RbEntry ν} {σ : RbHeap ν} {T : ColorTree ν} {limit : ℕ}
  {β γ : Type}

/-- Where a comparison with a node sends a search. -/
def toward (comp : ν → ℤ) (x : ν) : Ordering := compare (comp x) 0

omit [DecidableEq ν] in
/-- The rule for a loop that goes down the tree as comparisons say: `Inv` holds of the path behind
it, of the subtree before it and of the variables of the loop. -/
theorem descent (comp : ν → ℤ) {body : β → RbM ν (β ⊕ γ)} (h : At S base σ [] T)
    (Inv : List (Frame ν) → ColorTree ν → β → Prop) (Post : γ → Prop)
    (hnil : ∀ ctx b, T = plug ctx .nil → Follows (toward comp) ctx → Inv ctx .nil b →
      ∃ r, body b σ = .ok (.inr r) σ ∧ Post r)
    (heq : ∀ ctx c l x r b, T = plug ctx (.node c l x r) → Follows (toward comp) ctx → comp x = 0 →
      Inv ctx (.node c l x r) b → ∃ r, body b σ = .ok (.inr r) σ ∧ Post r)
    (hlt : ∀ ctx c l x r b, σ.entry x = ⟨l.root, r.root, above ctx, c⟩ → comp x < 0 →
      Inv ctx (.node c l x r) b → ∃ b', body b σ = .ok (.inl b') σ ∧
        Inv (⟨.left, c, x, r⟩ :: ctx) l b')
    (hgt : ∀ ctx c l x r b, σ.entry x = ⟨l.root, r.root, above ctx, c⟩ → 0 < comp x →
      Inv ctx (.node c l x r) b → ∃ b', body b σ = .ok (.inl b') σ ∧
        Inv (⟨.right, c, x, l⟩ :: ctx) r b')
    {b : β} (h0 : Inv [] T b) (hlimit : T.height < limit) :
    ∃ r, loopM body .endless limit b σ = .ok r σ ∧ Post r := by
  -- The measure is the height of the subtree that the loop has come to.
  obtain ⟨r, τ, hloop, rfl, hpost⟩ : ∃ r τ, loopM body .endless limit b σ = .ok r τ ∧ τ = σ ∧
    Post r :=
    loopM_of_measure
    (fun k b τ => τ = σ ∧ ∃ ctx t, T = plug ctx t ∧ Follows (toward comp) ctx ∧ Inv ctx t b ∧
      k = t.height)
    _ (by
      rintro k b τ ⟨rfl, ctx, t, hT, hfollows, hinv, rfl⟩
      cases t with
      | nil =>
        obtain ⟨r, hbody, hpost⟩ := hnil ctx b hT hfollows hinv
        exact .inr ⟨r, τ, hbody, rfl, hpost⟩
      | node c l x r =>
        have hat : At S base τ ctx (.node c l x r) := at_plug_iff.mpr (hT ▸ h)
        have hx := hat.tree.1
        -- The comparison decides: down on the left, found, or down on the right.
        rcases lt_trichotomy (comp x) 0 with hc | hc | hc
        · obtain ⟨b', hbody, hinv'⟩ := hlt ctx c l x r b hx hc hinv
          exact .inl ⟨l.height, b', τ,
            by simp only [height]; omega, hbody, rfl, ⟨.left, c, x, r⟩ :: ctx, l, hT,
            hfollows.cons (compare_lt_iff_lt.mpr hc), hinv', rfl⟩
        · obtain ⟨r', hbody, hpost⟩ := heq ctx c l x r b hT hfollows hc hinv
          exact .inr ⟨r', τ, hbody, rfl, hpost⟩
        · obtain ⟨b', hbody, hinv'⟩ := hgt ctx c l x r b hx hc hinv
          exact .inl ⟨r.height, b', τ,
            by simp only [height]; omega, hbody, rfl, ⟨.right, c, x, l⟩ :: ctx, r,
            hT, hfollows.cons (compare_gt_iff_gt.mpr hc), hinv', rfl⟩)
    ⟨rfl, [], T, rfl, by simp [Follows], h0, rfl⟩ hlimit
  exact ⟨r, hloop, hpost⟩

end Descent

section Outermost

variable {S : Set ν} {base : ν → RbEntry ν} {σ : RbHeap ν} {ctx : List (Frame ν)} {t : ColorTree ν}

omit [DecidableEq ν] in
/-- The loops end at the first node, or the last one, of a subtree. -/
theorem outermost_eq (h : At S base σ ctx t) (ht : t ≠ .nil) (d : Side) {limit : ℕ}
    (hlimit : t.height < limit) :
    ∃ ctx' c a y, t = plug ctx' (branch d c .nil y a) ∧ (∀ f ∈ ctx', f.side = d) ∧
      outermost limit d t.root σ = .ok (some y) σ := by
  suffices hloop : ∃ elm τ, outermost limit d t.root σ = .ok elm τ ∧ τ = σ ∧
      ∃ ctx' c a y, t = plug ctx' (branch d c .nil y a) ∧ (∀ f ∈ ctx', f.side = d) ∧ elm = some y by
    obtain ⟨elm, τ, hrun, rfl, ctx', c, a, y, ht', hside, rfl⟩ := hloop
    exact ⟨ctx', c, a, y, ht', hside, hrun⟩
  -- The measure is the height of what is below, and the frames passed are all of one side.
  refine loopM_of_measure
    (fun k b τ => τ = σ ∧ ∃ ctx' t', t = plug ctx' t' ∧ t' ≠ .nil ∧ (∀ f ∈ ctx', f.side = d) ∧
      b = t'.root ∧ k = t'.height) _ ?_ ⟨rfl, [], t, rfl, ht, by simp, rfl, rfl⟩ hlimit
  · rintro k b τ ⟨rfl, ctx', t', rfl, ht', hside, rfl, rfl⟩
    obtain ⟨c, a, y, b, rfl⟩ := exists_branch d ht'
    have hy := (at_append_iff.mpr h).entry
    cases a with
    | nil =>
      refine .inr ⟨some y, τ, ?_, rfl, ctx', c, b, y, rfl, hside, rfl⟩
      rw [root_branch, rbChild_bind, hy, child_link]
      rfl
    | node ca l z r =>
      refine .inl ⟨_, some z, τ, ?_, ?_, rfl, ⟨d, c, y, b⟩ :: ctx', .node ca l z r, rfl,
        by simp, ?_, rfl, rfl⟩
      · cases d <;> simp only [branch, height] <;> omega
      · rw [root_branch, rbChild_bind, hy, child_link]
        rfl
      · simpa using hside

end Outermost

section Rotate

variable {S : Set ν} {base : ν → RbEntry ν} {σ : RbHeap ν} {ctx : List (Frame ν)} {x y : ν}
  {d : Side} {c c' : Color} {new : Option ν} {a b g : ColorTree ν}

/-- What is in the hole is linked from above, and what comes there instead is linked in its
place. -/
theorem replaceChild_eq (h : HoldsPath σ ctx (some x)) (hx : x ∉ nodes ctx) :
    replaceChild (above ctx) (some x) new σ = .ok () (σ.relink ctx new) := by
  cases ctx with
  | nil => rfl
  | cons f ctx =>
    obtain ⟨side, c, z, s⟩ := f
    have hz := h.1
    simp only [nodes, List.mem_cons, List.mem_append, not_or] at hx
    have hne : s.root ≠ some x := fun hs => hx.2.1 (mem_of_root hs)
    show replaceChild (some z) (some x) new σ = _
    unfold replaceChild
    rw [if_pos (by simp)]
    cases side <;> simp [hz, link, RbEntry.child, hne, RbHeap.relink] <;> rfl

/-- The writes of a rotation at `x`, whose child `y` has the subtree `q` on the side of `x`. -/
def RbHeap.rotate (d : Side) (ctx : List (Frame ν)) (x y : ν) (q : Option ν) (σ : RbHeap ν) :
    RbHeap ν :=
  ((((((σ.modifyAt x (.setChild d.other q)).adopt q (some x)).modifyAt y
    (.setParent (above ctx))).relink ctx (some y)).modifyAt y
    (.setChild d (some x))).modifyAt x (.setParent (some y)))

omit [DecidableEq ν] in
/-- The nodes and subtrees that a rotation touches. -/
theorem perm_rotate (l : List ν) :
    ((branch d c a x (branch d c' b y g)).toList ++ l).Perm
      (x :: y :: (a.toList ++ (b.toList ++ (g.toList ++ l)))) := by
  have hy : (a.toList ++ (branch d c' b y g).toList).Perm
      (y :: (a.toList ++ (b.toList ++ g.toList))) :=
    ((toList_branch_perm _ _ _ _ _).append_left _).trans List.perm_middle
  simpa using ((toList_branch_perm d c a x (branch d c' b y g)).trans (hy.cons x)).append_right l

/-- A rotation does the four writes of `rotate`, with the branch between the two nodes adopted. -/
theorem rbRotate_eq (h : At S base σ ctx (branch d c a x (branch d c' b y g))) :
    rbRotate d (some x) σ = .ok (some y) (σ.rotate d ctx x y b.root) := by
  have hnodup := (perm_rotate _).nodup h.nodup
  simp only [List.nodup_append, List.nodup_cons, List.mem_append, List.mem_cons] at hnodup
  obtain ⟨hx, -, hy⟩ := holds_branch.mp h.tree
  obtain ⟨hy, -, -⟩ := holds_branch.mp hy
  have hpath := h.path
  rw [root_branch] at hpath hx
  -- The path to `x` is not touched by writes to the rotated nodes.
  have hpath' : ∀ {w h}, w ∉ nodes ctx → ∀ {τ : RbHeap ν}, HoldsPath τ ctx (some x) →
      HoldsPath (τ.modifyAt w h) ctx (some x) := fun hw τ hτ => hτ.congr fun z hz => by
    rw [entry_modifyAt, if_neg (ne_of_mem_of_not_mem hz hw)]
  have hxy : x ≠ y := by grind
  have hxc : x ∉ nodes ctx := by grind
  have hyc : y ∉ nodes ctx := by grind
  unfold rbRotate
  simp only [rbChild_bind, hx, hy, child_other_link, child_link, rbSetChild_bind, entry_modifyAt,
    if_true, setChild_other_link]
  -- The branch between the two nodes gets its new parent, if it is not empty.
  cases hb : b.root with
  | none =>
    simp only [ne_eq, not_true_eq_false, if_false, rbParent_bind, entry_modifyAt, if_true, hx,
      setChild_other_link, parent_link, rbSetParent_bind, hxy]
    rw [bind_of_ok (replaceChild_eq (hpath' hyc (hpath' hxc hpath)) hxc)]
    rfl
  | some w =>
    have hwx : x ≠ w := by grind
    have hwc : w ∉ nodes ctx := by grind
    simp only [ne_eq, reduceCtorEq, not_false_eq_true, if_true, rbChild_bind, entry_modifyAt,
      hxy.symm, if_false, hy, child_link, rbSetParent_bind, rbParent_bind, hx, setChild_other_link,
      parent_link, hwx, hb, hxy]
    rw [bind_of_ok (replaceChild_eq (hpath' hyc (hpath' hwc (hpath' hxc hpath))) hxc)]
    rfl

/-- A rotation turns the tree around `x` and `y`, and keeps everything else. -/
theorem At.rotate (h : At S base σ ctx (branch d c a x (branch d c' b y g))) :
    At S base (σ.rotate d ctx x y b.root) ctx (branch d c' (branch d c a x b) y g) := by
  have hnodup := (perm_rotate _).nodup h.nodup
  have hin := fun z hz => h.inside z ((perm_rotate _).mem_iff.mpr hz)
  simp only [List.nodup_append, List.nodup_cons, List.mem_append, List.mem_cons] at hnodup hin
  obtain ⟨hx, ha, hy⟩ := holds_branch.mp h.tree
  obtain ⟨hy, hb, hg⟩ := holds_branch.mp hy
  have hroot := h.root
  have hpath := h.path
  rw [root_branch] at hpath hx hroot
  -- The entries: of `x`, of `y`, at the root of `b`, above, and the others.
  have hxc : above ctx ≠ some x := by grind
  have hyc : above ctx ≠ some y := by grind
  have hbx : b.root ≠ some x := by grind
  have hby : b.root ≠ some y := by grind
  have hxy : x ≠ y := by grind
  have hother : ∀ z, z ≠ x → z ≠ y → b.root ≠ some z → above ctx ≠ some z →
      (σ.rotate d ctx x y b.root).entry z = σ.entry z := by
    intro z hzx hzy hzb hzc
    simp only [RbHeap.rotate, entry_modifyAt, hzx, hzy, if_false, entry_relink_of_ne hzc,
      entry_adopt, hzb]
  have hx' : (σ.rotate d ctx x y b.root).entry x = link d c a.root b.root (some y) := by
    simp [RbHeap.rotate, entry_modifyAt, hxy, entry_relink_of_ne hxc, entry_adopt, hbx, hx]
  have hy' : (σ.rotate d ctx x y b.root).entry y = link d c' (some x) g.root (above ctx) := by
    simp [RbHeap.rotate, entry_modifyAt, hxy.symm, entry_relink_of_ne hyc, entry_adopt, hby, hy]
  have hb' : ∀ z, b.root = some z →
      (σ.rotate d ctx x y b.root).entry z = (σ.entry z).setParent (some x) := by
    intro z hz
    have hzc : above ctx ≠ some z := by grind
    have hzx : z ≠ x := by grind
    have hzy : z ≠ y := by grind
    simp [RbHeap.rotate, entry_modifyAt, hzx, hzy, entry_relink_of_ne hzc, entry_adopt, hz]
  have hf' : ∀ f rest, ctx = f :: rest →
      (σ.rotate d ctx x y b.root).entry f.node = (σ.entry f.node).setChild f.side (some y) := by
    rintro f rest rfl
    have hfx : f.node ≠ x := by grind [above]
    have hfy : f.node ≠ y := by grind [above]
    have hfb : b.root ≠ some f.node := by grind [nodes]
    simp [RbHeap.rotate, entry_modifyAt, hfx, hfy, entry_relink_head, entry_adopt, hfb]
  refine ⟨by rw [toList_rotate]; exact h.nodup, ?_, ?_, ?_,
    by rw [toList_rotate]; exact h.inside, ?_⟩
  · rw [root_branch]
    exact root_relink (by simpa using hroot)
  · rw [root_branch]
    exact hpath.refill (by grind) hf' fun z hz hne => hother z (by grind) (by grind) (by grind) hne
  · rw [holds_branch, holds_branch, root_branch]
    refine ⟨hy', ⟨hx', ha.congr fun z hz => ?_, hb.reparent (by grind) hb' fun z hz hne => ?_⟩,
      hg.congr fun z hz => ?_⟩
    · exact hother z (by grind) (by grind) (by grind) (by grind)
    · exact hother z (by grind) (by grind) hne (by grind)
    · exact hother z (by grind) (by grind) (by grind) (by grind)
  · intro z hz
    rw [hother z (by grind) (by grind) (by grind) (by grind), h.outside z hz]

end Rotate

section Writes

variable {S : Set ν} {base : ν → RbEntry ν} {σ : RbHeap ν} {ctx : List (Frame ν)} {x y : ν}
  {d : Side} {c c' : Color} {a b t : ColorTree ν}

omit [DecidableEq ν] in
/-- The nodes of a branch and a rest, with the root first. -/
theorem perm_branch_append (l : List ν) : ((branch d c a x b).toList ++ l).Perm
    (x :: (a.toList ++ (b.toList ++ l))) := by
  simpa using (toList_branch_perm d c a x b).append_right l

/-- A node gets another colour. -/
theorem At.setColor (h : At S base σ ctx (branch d c a x b)) (c' : Color) :
    At S base (σ.modifyAt x (.setColor c')) ctx (branch d c' a x b) := by
  have hnodup := (perm_branch_append _).nodup h.nodup
  have hin := fun z hz => h.inside z ((perm_branch_append _).mem_iff.mpr hz)
  simp only [List.nodup_append, List.nodup_cons, List.mem_append, List.mem_cons] at hnodup hin
  obtain ⟨hx, ha, hb⟩ := holds_branch.mp h.tree
  have hroot := h.root
  have hpath := h.path
  rw [root_branch] at hpath hroot
  have hlist : (branch d c' a x b).toList = (branch d c a x b).toList := by cases d <;> rfl
  -- One entry changes, and of that only the colour.
  have hother : ∀ z, z ≠ x → (σ.modifyAt x (.setColor c')).entry z = σ.entry z := fun z hz => by
    rw [entry_modifyAt, if_neg hz]
  refine ⟨by rw [hlist]; exact h.nodup, by rw [root_branch]; exact hroot, ?_, ?_,
    by rw [hlist]; exact h.inside, fun z hz => ?_⟩
  · rw [root_branch]
    exact hpath.congr fun z hz => hother z (by grind)
  · refine holds_branch.mpr ⟨?_, ha.congr fun z hz => hother z (by grind),
      hb.congr fun z hz => hother z (by grind)⟩
    rw [entry_modifyAt, if_pos rfl, hx, setColor_link]
  · rw [hother z (by grind), h.outside z hz]

/-- The root gets black. -/
theorem At.blackenRoot (h : At S base σ [] t) (ht : t ≠ .nil) :
    ∃ σ', rbSetColor σ.root .black σ = .ok () σ' ∧ At S base σ' [] t.blacken := by
  obtain ⟨c, a, x, b, rfl⟩ := exists_branch .left ht
  have hroot : σ.root = some x := h.root
  rw [blacken_branch]
  exact ⟨_, by rw [hroot]; rfl, h.setColor .black⟩

/-- A new node in the empty hole. -/
theorem At.link (h : At S base σ ctx .nil) (hx : x ∉ nodes ctx) (hS : x ∈ S) :
    At S base ((σ.modifyAt x fun _ => ⟨none, none, above ctx, .red⟩).relink ctx (some x)) ctx
      (.node .red .nil x .nil) := by
  have hnodup := h.nodup
  have hin := h.inside
  simp only [toList, List.nil_append] at hnodup hin
  have hxc : above ctx ≠ some x := by grind
  -- Distinct nodes, the root, the path, the tree, and the nodes inside and outside, in turn.
  refine ⟨?_, ?_, ?_, ?_, ?_, ?_⟩
  · simp [toList, hx, hnodup]
  · exact root_relink (p := none) h.root
  · refine h.path.refill hnodup ?_ fun z hz hne => ?_
    · rintro f rest rfl
      have hf : f.node ≠ x := by grind [above]
      rw [entry_relink_head, entry_modifyAt, if_neg hf]
      rfl
    · rw [entry_relink_of_ne hne, entry_modifyAt, if_neg (by grind)]
  · refine ⟨?_, trivial, trivial⟩
    rw [entry_relink_of_ne hxc, entry_modifyAt, if_pos rfl]
    rfl
  · grind [toList]
  · intro z hz
    rw [entry_relink_of_ne (by grind), entry_modifyAt, if_neg (by grind), h.outside z hz]

/-- A node with an empty side is taken out. -/
theorem At.splice (h : At S base σ ctx (branch d c t x .nil)) :
    At S base ((σ.adopt t.root (above ctx)).relink ctx t.root) ctx t := by
  have hnodup := (perm_branch_append _).nodup h.nodup
  have hin := fun z hz => h.inside z ((perm_branch_append _).mem_iff.mpr hz)
  simp only [List.nodup_append, List.nodup_cons, List.mem_append, List.mem_cons, toList,
    List.not_mem_nil, false_or] at hnodup hin
  obtain ⟨-, ht, -⟩ := holds_branch.mp h.tree
  -- Two entries change: those of the root of the subtree and of the node above the hole.
  have hother : ∀ z, t.root ≠ some z → above ctx ≠ some z →
      ((σ.adopt t.root (above ctx)).relink ctx t.root).entry z = σ.entry z := by
    intro z hzt hzc
    rw [entry_relink_of_ne hzc, entry_adopt, if_neg hzt]
  refine ⟨?_, ?_, ?_, ?_, ?_, ?_⟩
  · simp only [List.nodup_append]
    grind
  · exact root_relink (p := some x) (by rw [root_adopt, h.root, root_branch])
  · refine h.path.refill (by grind) ?_ fun z hz hne => hother z (by grind) hne
    rintro f rest rfl
    rw [entry_relink_head, entry_adopt, if_neg (by grind [nodes])]
  · refine ht.reparent (by grind) (fun z hz => ?_) fun z hz hne => hother z hne (by grind)
    rw [entry_relink_of_ne (by grind), entry_adopt, if_pos hz]
  · grind
  · intro z hz
    rw [hother z (by grind) (by grind), h.outside z hz]

/-- A node takes the place of another one, with a copy of its entry. -/
theorem At.replace (h : At S base σ ctx (branch d c a x b))
    (hy : y ∉ (branch d c a x b).toList ++ nodes ctx) (hS : y ∈ S) :
    At S base ((((σ.modifyAt y fun _ => σ.entry x).relink ctx (some y)).adopt a.root (some y)).adopt
      b.root (some y)) ctx (branch d c a y b) := by
  have hnodup := (perm_branch_append _).nodup h.nodup
  have hin := fun z hz => h.inside z ((perm_branch_append _).mem_iff.mpr hz)
  rw [(perm_branch_append _).mem_iff] at hy
  simp only [List.nodup_append, List.nodup_cons, List.mem_append, List.mem_cons] at hnodup hin hy
  obtain ⟨hx, ha, hb⟩ := holds_branch.mp h.tree
  have hpath := h.path
  have hroot := h.root
  rw [root_branch] at hpath hroot
  -- At most four entries change: those of `y`, of the two children and of the node above the hole.
  have hother : ∀ z, z ≠ y → a.root ≠ some z → b.root ≠ some z → above ctx ≠ some z →
      ((((σ.modifyAt y fun _ => σ.entry x).relink ctx (some y)).adopt a.root (some y)).adopt
        b.root (some y)).entry z = σ.entry z := by
    intro z hzy hza hzb hzc
    rw [entry_adopt, if_neg hzb, entry_adopt, if_neg hza, entry_relink_of_ne hzc, entry_modifyAt,
      if_neg hzy]
  -- Distinct nodes, the root, the path, the tree, and the nodes inside and outside, in turn.
  refine ⟨?_, ?_, ?_, ?_, ?_, ?_⟩
  · rw [(perm_branch_append _).nodup_iff]
    simp only [List.nodup_append, List.nodup_cons, List.mem_append]
    grind
  · rw [root_branch, root_adopt, root_adopt]
    exact root_relink (p := some x) hroot
  · rw [root_branch]
    refine hpath.refill (by grind) ?_ fun z hz hne => hother z (by grind) (by grind) (by grind) hne
    rintro f rest rfl
    rw [entry_adopt, if_neg (by grind [nodes]), entry_adopt, if_neg (by grind [nodes]),
      entry_relink_head, entry_modifyAt, if_neg (by grind [nodes])]
  · refine holds_branch.mpr ⟨?_, ha.reparent (by grind) (fun z hz => ?_) fun z hz hne => ?_,
      hb.reparent (by grind) (fun z hz => ?_) fun z hz hne => ?_⟩
    · rw [entry_adopt, if_neg (by grind), entry_adopt, if_neg (by grind),
        entry_relink_of_ne (by grind), entry_modifyAt, if_pos rfl, hx]
    · rw [entry_adopt, if_neg (by grind), entry_adopt, if_pos hz, entry_relink_of_ne (by grind),
        entry_modifyAt, if_neg (by grind)]
    · exact hother z (by grind) hne (by grind) (by grind)
    · rw [entry_adopt, if_pos hz, entry_adopt, if_neg (by grind), entry_relink_of_ne (by grind),
        entry_modifyAt, if_neg (by grind)]
    · exact hother z (by grind) (by grind) hne (by grind)
  · intro z hz
    rw [(perm_branch_append _).mem_iff] at hz
    simp only [List.mem_append, List.mem_cons] at hz
    grind
  · intro z hz
    rw [hother z (by grind) (by grind) (by grind) (by grind), h.outside z hz]

end Writes

end SwiftRuntime.Freebsd
