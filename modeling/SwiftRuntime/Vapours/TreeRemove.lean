import SwiftRuntime.Vapours.Tree

/-!
# `RB_REMOVE`

A node with two children is replaced by the first one to its right, and what is taken out of its
place has at most one child. If it was black, `RB_REMOVE_COLOR` repairs the tree on the way up. The
invariant of the repair is `Removing`: the subtree at the hole is one black node short. The case of
a red sibling goes round without going up, so the passes are counted by `passesLeft`.
-/

namespace SwiftRuntime.Freebsd

open ColorTree

variable {ν : Type} [DecidableEq ν]

/-- Both children of `tmp` are null or black. -/
def bothBlack (tmp : Option ν) : RbM ν Bool := do
  if ← nullOrBlack (← rbLeft tmp) then nullOrBlack (← rbRight tmp)
  else return false

/-- The end of a pass of `RB_REMOVE_COLOR` with `elm` on the side `d`, where `tmp` has a red child
on the other side. -/
def removeFinish (d : Side) (parent tmp : Option ν) : RbM ν ((Option ν × Option ν) ⊕ Option ν) := do
  rbSetColor tmp (← rbColor parent)
  rbSetColor parent .black
  if (← rbChild d.other tmp) ≠ none then
    rbSetColor (← rbChild d.other tmp) .black
  let _ ← rbRotate d parent
  return .inr (← get).root

/-- The part of a pass where `tmp` is black. -/
def removeBlack (d : Side) (parent tmp : Option ν) : RbM ν ((Option ν × Option ν) ⊕ Option ν) := do
  if ← bothBlack tmp then
    rbSetColor tmp .red
    return .inl (← rbParent parent, parent)
  else if ← nullOrBlack (← rbChild d.other tmp) then
    let near ← rbChild d tmp
    if near ≠ none then
      rbSetColor near .black
    rbSetColor tmp .red
    let _ ← rbRotate d.other tmp
    removeFinish d parent (← rbChild d.other parent)
  else
    removeFinish d parent tmp

/-- A pass of `RB_REMOVE_COLOR` with `elm` on the side `d` of its parent. -/
def removeFixup (d : Side) (parent : Option ν) : RbM ν ((Option ν × Option ν) ⊕ Option ν) := do
  let tmp ← rbChild d.other parent
  if ← rbIsRed tmp then
    rbSetBlackRed tmp parent
    let _ ← rbRotate d parent
    removeBlack d parent (← rbChild d.other parent)
  else
    removeBlack d parent tmp

/-- A pass of the loop of `RB_REMOVE_COLOR`, with `parent` and `elm`. -/
def removeColorBody : Option ν × Option ν → RbM ν ((Option ν × Option ν) ⊕ Option ν)
  | (parent, elm) => do
    if ← nullOrBlack elm then
      if elm ≠ (← get).root then
        if (← rbLeft parent) = elm then removeFixup .left parent
        else removeFixup .right parent
      else return .inr elm
    else return .inr elm

/-- `RB_REMOVE_COLOR`. -/
def rbRemoveColor (limit : ℕ) (parent elm : Option ν) : RbM ν Unit := do
  let elm ← loopM removeColorBody .endless limit (parent, elm)
  if elm ≠ none then
    rbSetColor elm .black

/-- The part of `RB_REMOVE` that puts `child` in the place of `elm`. -/
def unlink (elm child : Option ν) : RbM ν (Option ν × Color) := do
  let parent ← rbParent elm
  let color ← rbColor elm
  if child ≠ none then
    rbSetParent child parent
  replaceChild parent elm child
  return (parent, color)

/-- The part of `RB_REMOVE` that puts `elm` in the place of `old`, with a copy of its entry. -/
def takePlace (old elm : Option ν) : RbM ν Unit := do
  rbSetEntry elm (← rbEntry old)
  replaceChild (← rbParent old) old elm
  rbSetParent (← rbLeft old) elm
  if (← rbRight old) ≠ none then
    rbSetParent (← rbRight old) elm

/-- `RB_REMOVE` of a node with two children: the next node is taken out and put in its place. -/
def removeTwo (limit : ℕ) (old : Option ν) : RbM ν (Option ν × Option ν × Color) := do
  let elm ← outermost limit .left (← rbRight old)
  let child ← rbRight elm
  let (parent, color) ← unlink elm child
  let parent := if (← rbParent elm) = old then elm else parent
  takePlace old elm
  return (parent, child, color)

/-- `RB_REMOVE` of a node with one child at most. -/
def removeOne (elm child : Option ν) : RbM ν (Option ν × Option ν × Color) := do
  let (parent, color) ← unlink elm child
  return (parent, child, color)

/-- The part of `RB_REMOVE` before the repair, with the values of `parent`, `child` and `color`
there. -/
def removeNode (limit : ℕ) (elm : Option ν) : RbM ν (Option ν × Option ν × Color) := do
  if (← rbLeft elm) = none then
    removeOne elm (← rbRight elm)
  else if (← rbRight elm) = none then
    removeOne elm (← rbLeft elm)
  else
    removeTwo limit elm

/-- `RB_REMOVE`. -/
def rbRemove (limit : ℕ) (elm : Option ν) : RbM ν (Option ν) := do
  let (parent, child, color) ← removeNode limit elm
  if color = .black then
    rbRemoveColor limit parent child
  return elm

section Color

variable {S : Set ν} {base : ν → RbEntry ν} {σ : RbHeap ν} {ctx : List (Frame ν)}
  {t s₁ s₂ : ColorTree ν} {d : Side} {c c' : Color} {p y : ν} {n : ℕ}

/-- The parent is rotated down, and the red child of its other child becomes black. -/
theorem removeFinish_eq (h : At S base σ (⟨d, c, p, branch d c' s₁ y s₂⟩ :: ctx) t)
    (hs₂ : s₂.color = .red) :
    ∃ σ', removeFinish d (some p) (some y) σ = .ok (.inr σ'.root) σ' ∧
      At S base σ' ctx (branch d c (branch d .black t p s₁) y s₂.blacken) := by
  obtain ⟨c₂, a, z, b, rfl⟩ := exists_branch .left (t := s₂) (by rintro rfl; cases hs₂)
  -- The three writes of colours, seen with the hole where each of them is made.
  have hy := (at_sibling_iff.mp h).setColor c
  have hp := (at_frame_iff.mp (at_sibling_iff.mpr hy)).setColor .black
  have hz := at_far_iff.mpr (at_far_iff.mpr hp)
  have hrot := at_far_iff.mp (at_far_iff.mp (hz.setColor .black))
  rw [blacken_branch]
  refine ⟨_, ?_, hrot.rotate⟩
  unfold removeFinish
  rw [rbColor_bind, h.entry_above, color_link]
  simp only [rbSetColor_bind, rbChild_bind]
  rw [(at_far_iff.mpr hp).entry, child_other_link, root_branch, if_pos (by simp), rbChild_bind,
    (at_far_iff.mpr hp).entry, child_other_link, root_branch, rbSetColor_bind,
    bind_of_ok (rbRotate_eq hrot)]
  rfl

omit [DecidableEq ν] in
/-- What follows the test of both children for black. -/
theorem bothBlack_bind {β : Type} (h : At S base σ ctx (branch d c s₁ y s₂)) (k : Bool → RbM ν β) :
    (bothBlack (some y) >>= k) σ = k (s₁.color = .black ∧ s₂.color = .black) σ := by
  obtain ⟨hy, h₁, h₂⟩ := holds_branch.mp h.tree
  suffices bothBlack (some y) σ = .ok (s₁.color = .black ∧ s₂.color = .black) σ from
    bind_of_ok this k
  unfold bothBlack
  rw [rbChild_bind, hy]
  -- The code looks at the left child first, which is the near or the far one.
  cases d with
  | left =>
    refine (nullOrBlack_bind h₁ _).trans ?_
    cases s₁.color with
    | black =>
      show (rbRight (some y) >>= nullOrBlack) σ = _
      rw [rbChild_bind, hy]
      refine (nullOrBlack_eq h₂).trans ?_
      simp
    | red => rfl
  | right =>
    refine (nullOrBlack_bind h₂ _).trans ?_
    cases s₂.color with
    | black =>
      show (rbRight (some y) >>= nullOrBlack) σ = _
      rw [rbChild_bind, hy]
      refine (nullOrBlack_eq h₁).trans ?_
      simp
    | red =>
      simp
      rfl

/-- With black nephews the sibling becomes red, and the hole moves up. -/
theorem removeBlack_both (h : At S base σ (⟨d, c, p, branch d .black s₁ y s₂⟩ :: ctx) t)
    (hs₁ : s₁.color = .black) (hs₂ : s₂.color = .black) :
    ∃ σ', removeBlack d (some p) (some y) σ = .ok (.inl (above ctx, some p)) σ' ∧
      At S base σ' ctx (branch d c t p (branch d .red s₁ y s₂)) := by
  have hy := (at_sibling_iff.mp h)
  have hp := at_frame_iff.mp (at_sibling_iff.mpr (hy.setColor .red))
  refine ⟨_, ?_, hp⟩
  unfold removeBlack
  rw [bothBlack_bind hy, hs₁, hs₂]
  simp only [and_self, decide_true, if_true, rbSetColor_bind, rbParent_bind]
  rw [hp.entry, parent_link]
  rfl

/-- With a red nephew on the far side. -/
theorem removeBlack_far (h : At S base σ (⟨d, c, p, branch d .black s₁ y s₂⟩ :: ctx) t)
    (hs₂ : s₂.color = .red) :
    ∃ σ', removeBlack d (some p) (some y) σ = .ok (.inr σ'.root) σ' ∧
      At S base σ' ctx (branch d c (branch d .black t p s₁) y s₂.blacken) := by
  have hy := (at_sibling_iff.mp h)
  obtain ⟨σ', hfinish, hat⟩ := removeFinish_eq h hs₂
  refine ⟨σ', ?_, hat⟩
  unfold removeBlack
  rw [bothBlack_bind hy, hs₂]
  simp only [reduceCtorEq, and_false, decide_false, Bool.false_eq_true, if_false, rbChild_bind]
  rw [hy.entry, child_other_link, nullOrBlack_bind (holds_branch.mp hy.tree).2.2, hs₂]
  exact hfinish

/-- With a red nephew on the near side only, the sibling is rotated first. -/
theorem removeBlack_near {a b : ColorTree ν} {z : ν}
    (h : At S base σ (⟨d, c, p, branch d .black (branch d .red a z b) y s₂⟩ :: ctx) t)
    (hs₂ : s₂.color = .black) :
    ∃ σ', removeBlack d (some p) (some y) σ = .ok (.inr σ'.root) σ' ∧
      At S base σ' ctx (branch d c (branch d .black t p a) z (branch d .black b y s₂)) := by
  have hy := (at_sibling_iff.mp h)
  -- The nephew becomes black and the sibling red, then they are rotated.
  have hz := at_frame_iff.mp ((at_frame_iff.mpr hy).setColor .black)
  have hy' := hz.setColor .red
  rw [← branch_other, ← branch_other (b := a)] at hy'
  have hrot := hy'.rotate
  rw [branch_other, branch_other] at hrot
  obtain ⟨σ', hfinish, hat⟩ := removeFinish_eq (at_sibling_iff.mpr hrot) (by simp)
  refine ⟨σ', ?_, by rw [blacken_branch] at hat; exact hat⟩
  -- The tests find the near nephew red and the far one black.
  unfold removeBlack
  rw [bothBlack_bind hy, color_branch]
  simp only [reduceCtorEq, false_and, decide_false, Bool.false_eq_true, if_false, rbChild_bind]
  rw [hy.entry, child_other_link, nullOrBlack_bind (holds_branch.mp hy.tree).2.2, hs₂]
  simp only [decide_true, if_true, rbChild_bind, hy.entry, child_link, root_branch, ne_eq,
    reduceCtorEq, not_false_eq_true, rbSetColor_bind]
  rw [bind_of_ok (rbRotate_eq hy'), rbChild_bind, (at_far_iff.mp hrot).entry, child_other_link,
    root_branch]
  exact hfinish

/-- What `RB_REMOVE_COLOR` has done at each pass: the tree has its elements in the same order, and
is valid but for a black node that is missing at the hole, or there is a red node that can be
black. -/
structure Removing (S : Set ν) (base : ν → RbEntry ν) (xs : List ν) (σ : RbHeap ν)
    (ctx : List (Frame ν)) (t : ColorTree ν) (n : ℕ) : Prop extends At S base σ ctx t where
  /-- Below a black node at the hole the tree is balanced. -/
  black : t.color = .black → t.Balanced n
  /-- A red node there can be made black, and then the height is the one that is missing. -/
  red : t.color = .red → t.blacken.Balanced (n + 1)
  /-- The path wants one black node more. -/
  wants : Wants ctx (n + 1)
  /-- The nodes in order. -/
  order : (plug ctx t).toList = xs

/-- A pass with a black sibling moves the hole up, or makes the tree valid. -/
theorem Removing.step_black {xs : List ν}
    (h : Removing S base xs σ (⟨d, c, p, branch d .black s₁ y s₂⟩ :: ctx) t n)
    (ht : t.color = .black) :
    (∃ σ' t' m, removeBlack d (some p) (some y) σ = .ok (.inl (above ctx, t'.root)) σ' ∧
        Removing S base xs σ' ctx t' m ∧ t'.color = c) ∨
      ∃ σ', removeBlack d (some p) (some y) σ = .ok (.inr σ'.root) σ' ∧
        HoldsValid S base xs σ' := by
  obtain ⟨hat, htb, -, hwants, rfl⟩ := h
  have htb := htb ht
  simp only [plug, Frame.attach, toList_plug]
  have hs : (branch d .black s₁ y s₂).Balanced (n + 1) := by
    cases c with
    | red => exact hwants.2.1
    | black => exact hwants.1
  obtain ⟨hs₁b, hs₂b⟩ := balanced_black.mp hs
  -- The nephews decide. Two black ones: the sibling becomes red, and the missing count moves up. A
  -- red one: the tree is valid after a rotation or two.
  rcases hs₂ : s₂.color with - | -
  · rcases hs₁ : s₁.color with - | -
    · left
      obtain ⟨σ', hrun, hat'⟩ := removeBlack_both hat hs₁ hs₂
      have hred : (branch d .red s₁ y s₂).Balanced n := balanced_red.mpr ⟨⟨hs₁, hs₂⟩, hs₁b, hs₂b⟩
      have horder : (plug ctx (branch d c t p (branch d .red s₁ y s₂))).toList =
          before ctx ++ ((branch d c t p (branch d .black s₁ y s₂)).toList ++ after ctx) := by
        rw [toList_plug]
        cases d <;> simp [branch, toList]
      cases c with
      | red =>
        refine ⟨σ', _, n,
          by rw [root_branch]; exact hrun, ⟨hat', by simp, fun _ => ?_, hwants.2.2.2,
          horder⟩, by simp⟩
        rw [blacken_branch]
        exact balanced_black.mpr ⟨htb, hred⟩
      | black =>
        exact ⟨σ', _, n + 1, by rw [root_branch]; exact hrun, ⟨hat', fun _ =>
          balanced_black.mpr ⟨htb, hred⟩, by simp, hwants.2, horder⟩, by simp⟩
    · right
      obtain ⟨c₁, a, z, b, rfl⟩ := exists_branch d (t := s₁) (by rintro rfl; cases hs₁)
      obtain rfl : c₁ = .red := by simpa using hs₁
      obtain ⟨⟨ha, hb⟩, hab, hbb⟩ := balanced_red.mp hs₁b
      obtain ⟨σ', hrun, hat'⟩ := removeBlack_near hat hs₂
      refine ⟨σ', hrun, _, at_plug_iff.mp hat', hwants.valid_branch (balanced_black.mpr ⟨htb, hab⟩)
        (balanced_black.mpr ⟨hbb, hs₂b⟩) (by simp) (by simp), ?_⟩
      rw [toList_plug]
      cases d <;> simp [branch, toList]
  · right
    obtain ⟨σ', hrun, hat'⟩ := removeBlack_far hat hs₂
    refine ⟨σ', hrun, _, at_plug_iff.mp hat', hwants.valid_branch (balanced_black.mpr ⟨htb, hs₁b⟩)
      (hs₂b.blacken hs₂) (by simp) (by cases s₂ <;> rfl), ?_⟩
    rw [toList_plug]
    cases d <;> simp [branch, toList]

/-- How many passes are left at most: none at a red node, and one for each node above a black
one. -/
def passesLeft (ctx : List (Frame ν)) (t : ColorTree ν) : ℕ :=
  if t.color = .black then ctx.length + 1 else 0

/-- A red sibling is rotated up, so that the sibling is black. -/
theorem Removing.step {xs : List ν} {s : ColorTree ν}
    (h : Removing S base xs σ (⟨d, c, p, s⟩ :: ctx) t n) (ht : t.color = .black) :
    (∃ σ' ctx' t' m, removeFixup d (some p) σ = .ok (.inl (above ctx', t'.root)) σ' ∧
        Removing S base xs σ' ctx' t' m ∧ passesLeft ctx' t' < ctx.length + 2) ∨
      ∃ σ', removeFixup d (some p) σ = .ok (.inr σ'.root) σ' ∧ HoldsValid S base xs σ' := by
  have hs : s.Balanced (n + 1) := by
    cases c with
    | red => exact h.wants.2.1
    | black => exact h.wants.1
  obtain ⟨cs, s₁, y, s₂, rfl⟩ := exists_branch d hs.ne_nil
  have hy := at_sibling_iff.mp h.toAt
  have hstart : removeFixup d (some p) σ =
      (if cs = .red then do
        rbSetBlackRed (some y) (some p)
        let _ ← rbRotate d (some p)
        removeBlack d (some p) (← rbChild d.other (some p))
      else removeBlack d (some p) (some y) : RbM ν _) σ := by
    unfold removeFixup
    rw [rbChild_bind, h.entry_above, child_other_link, root_branch, rbIsRed_bind, hy.entry,
      color_link]
    cases cs <;> rfl
  cases cs with
  | black =>
    rw [hstart, if_neg (by simp)]
    rcases h.step_black ht with ⟨σ', t', m, hrun, hrem, -⟩ | hdone
    · refine .inl ⟨σ', ctx, t', m, hrun, hrem, ?_⟩
      unfold passesLeft
      split_ifs <;> omega
    · exact .inr hdone
  | red =>
    -- The parent of a red sibling is black.
    obtain rfl : c = .black := by
      cases c with
      | black => rfl
      | red => exact absurd h.wants.1 (by simp)
    obtain ⟨⟨hs₁c, hs₂c⟩, hs₁, hs₂⟩ := balanced_red.mp hs
    have hp := (at_frame_iff.mp (at_sibling_iff.mpr (hy.setColor .black))).setColor .red
    have hrot := at_frame_iff.mpr (at_frame_iff.mpr hp.rotate)
    obtain ⟨cs₁, a, z, b, rfl⟩ := exists_branch d hs₁.ne_nil
    obtain rfl : cs₁ = .black := by simpa using hs₁c
    rw [root_branch] at hrot
    have horder :
        (plug (⟨d, .red, p, branch d .black a z b⟩ :: ⟨d, .black, y, s₂⟩ :: ctx) t).toList =
          xs := by
      rw [← h.order]
      simp only [plug, Frame.attach, toList_plug]
      cases d <;> simp [branch, toList]
    have hrem : Removing S base xs _ _ t n :=
      ⟨hrot, h.black, h.red, ⟨by simp, hs₁, rfl, hs₂, h.wants.2⟩, horder⟩
    rw [hstart, if_pos rfl, rbSetBlackRed_bind, bind_of_ok (rbRotate_eq hp), rbChild_bind,
      root_branch, hrot.entry_above, child_other_link, root_branch]
    rcases hrem.step_black ht with ⟨σ', t', m, hrun, hrem, hred⟩ | hdone
    · exact .inl ⟨σ', _, t', m, hrun, hrem, by simp [passesLeft, hred]⟩
    · exact .inr hdone

/-- The loop goes on at a black node below others. -/
theorem Removing.body_eq {xs : List ν} {s : ColorTree ν}
    (h : Removing S base xs σ (⟨d, c, p, s⟩ :: ctx) t n) (ht : t.color = .black) :
    removeColorBody (some p, t.root) σ = removeFixup d (some p) σ := by
  have hs : s ≠ .nil := by
    cases c with
    | red => exact h.wants.2.1.ne_nil
    | black => exact h.wants.1.ne_nil
  have hleft := h.child_eq_iff (e := .left) (.inr hs)
  -- There is a node above, so the loop is not at the root.
  have hroot : t.root ≠ σ.root := by
    obtain ⟨z, hz, hroot⟩ := exists_rootFrom_cons ⟨d, c, p, s⟩ ctx t.root
    rw [h.root, hroot]
    intro hzt
    exact (List.nodup_append.mp h.nodup).2.2 z (mem_of_root hzt) z hz rfl
  refine (nullOrBlack_bind h.tree _).trans ?_
  rw [ht]
  show (if t.root ≠ σ.root then _ else _ : RbM ν _) σ = _
  rw [if_pos hroot, rbChild_bind]
  cases d with
  | left => rw [if_pos (hleft.mpr rfl)]
  | right => rw [if_neg fun h => nomatch hleft.mp h]

/-- The loop is left at a red node and at the root. -/
theorem removeColorBody_exit {parent : Option ν} (h : At S base σ ctx t)
    (hexit : t.color = .red ∨ ctx = []) :
    removeColorBody (parent, t.root) σ = .ok (.inr t.root) σ := by
  refine (nullOrBlack_bind h.tree _).trans ?_
  rcases hc : t.color with - | -
  · obtain rfl := hexit.resolve_left (by simp [hc])
    have hroot : σ.root = t.root := h.root
    show (if t.root ≠ σ.root then _ else _ : RbM ν _) σ = _
    rw [if_neg (by simp [hroot])]
    rfl
  · rfl

/-- `RB_REMOVE_COLOR` makes the tree valid. -/
theorem Removing.repair {xs : List ν} (h : Removing S base xs σ ctx t n) {limit : ℕ}
    (hlimit : ctx.length + 1 < limit) :
    ∃ σ', rbRemoveColor limit (above ctx) t.root σ = .ok () σ' ∧ HoldsValid S base xs σ' := by
  -- The loop ends at a node that only has to become black.
  have hloop : ∃ elm τ, loopM removeColorBody .endless limit (above ctx, t.root) σ = .ok elm τ ∧
      ∃ ctx t, At S base τ ctx t ∧ elm = t.root ∧ (plug ctx t.blacken).Valid ∧
        (plug ctx t).toList = xs := by
    refine loopM_of_measure
      (fun k b τ => ∃ ctx t n, Removing S base xs τ ctx t n ∧ b = (above ctx, t.root) ∧
        k = passesLeft ctx t)
      _ ?_ ⟨ctx, t, n, h, rfl, rfl⟩ (by unfold passesLeft; split_ifs <;> omega)
    rintro k b τ ⟨ctx, t, n, h, rfl, rfl⟩
    -- A black node below others is repaired in one pass; at the root or at a red node the loop is
    -- left.
    rcases hc : t.color with - | -
    · rcases ctx with - | ⟨⟨d, c, p, s⟩, ctx⟩
      · exact .inr ⟨_, τ, removeColorBody_exit h.toAt (.inr rfl), [], t, h.toAt, rfl,
          (h.black hc).valid_blacken, h.order⟩
      · rw [show above (_ :: ctx) = some p from rfl, h.body_eq hc]
        rcases h.step hc with
          ⟨σ', ctx', t', m, hrun, hrem, hlt⟩ | ⟨σ', hrun, T, hat, hvalid, horder⟩
        · refine .inl ⟨_, _, σ', ?_, hrun, ctx', t', m, hrem, rfl, rfl⟩
          rw [passesLeft.eq_def (_ :: ctx) t, if_pos hc]
          exact hlt
        · refine .inr ⟨_, σ', hrun, [], T, hat, hat.root, ?_, horder⟩
          show T.blacken.Valid
          rw [blacken_of_black hvalid.1]
          exact hvalid
    · refine .inr ⟨_, τ, removeColorBody_exit h.toAt (.inl hc), ctx, t, h.toAt, rfl, ?_, h.order⟩
      exact valid_plug_iff.mpr ⟨_, h.wants, h.red hc, .inl (by cases t <;> rfl)⟩
  obtain ⟨elm, τ, hτ, ctx, t, hat, rfl, hvalid, horder⟩ := hloop
  -- The last write makes the node black, if there is one.
  unfold rbRemoveColor
  rw [bind_of_ok hτ]
  cases t with
  | nil => exact ⟨τ, rfl, _, at_plug_iff.mp hat, hvalid, horder⟩
  | node c l x r =>
    refine ⟨_, rfl, _, at_plug_iff.mp (hat.setColor (d := .left) .black), hvalid, ?_⟩
    rw [← horder, toList_plug, toList_plug]
    rfl

end Color

section Remove

variable {S : Set ν} {base : ν → RbEntry ν} {σ : RbHeap ν} {ctx : List (Frame ν)}
  {t a b T : ColorTree ν} {d : Side} {c : Color} {x y : ν} {n limit : ℕ}

/-- A node without a child on one side is taken out: its child is linked in its place. -/
theorem unlink_eq (h : At S base σ ctx (branch d c t x .nil)) :
    unlink (some x) t.root σ =
      .ok (above ctx, c) ((σ.adopt t.root (above ctx)).relink ctx t.root) := by
  have hnodup := (perm_branch_append _).nodup h.nodup
  simp only [List.nodup_append, List.nodup_cons, List.mem_append, toList] at hnodup
  have hpath := h.path
  rw [root_branch] at hpath
  unfold unlink
  rw [rbParent_bind, h.entry, parent_link, rbColor_bind, h.entry, color_link]
  -- The child gets its new parent, if there is a child.
  cases ht : t.root with
  | none =>
    rw [if_neg (by simp)]
    exact bind_of_ok (replaceChild_eq hpath (by grind)) _
  | some w =>
    have hpath' : HoldsPath (σ.modifyAt w (.setParent (above ctx))) ctx (some x) :=
      hpath.congr fun z hz => by rw [entry_modifyAt, if_neg (by grind)]
    rw [if_pos (by simp), rbSetParent_bind]
    exact bind_of_ok (replaceChild_eq hpath' (by grind)) _

/-- A node takes over the entry of another one, and is linked above and below in its place. -/
theorem takePlace_eq (h : At S base σ ctx (.node c a x b)) (ha : a ≠ .nil)
    (hy : y ∉ (ColorTree.node c a x b).toList ++ nodes ctx) :
    takePlace (some x) (some y) σ = .ok () ((((σ.modifyAt y fun _ => σ.entry x).relink ctx
      (some y)).adopt a.root (some y)).adopt b.root (some y)) := by
  have hnodup := h.nodup
  simp only [List.nodup_append, List.nodup_cons, List.mem_append, List.mem_cons,
    toList] at hnodup hy
  have hx := h.tree.1
  have hpath : HoldsPath (σ.modifyAt y fun _ => σ.entry x) ctx (some x) :=
    h.path.congr fun z hz => by rw [entry_modifyAt, if_neg (by grind)]
  have hxy : x ≠ y := by grind
  have hxc : above ctx ≠ some x := by grind
  -- The left child is there, and is not the node itself.
  obtain ⟨w, hw⟩ := Option.ne_none_iff_exists'.mp (mt root_eq_none_iff.mp ha)
  have hxw : x ≠ w := by grind
  rw [hx] at hpath
  -- The entry is copied, the link above is moved, then the children get their new parent.
  unfold takePlace
  rw [rbEntry_bind, rbSetEntry_bind, rbParent_bind, entry_modifyAt, if_neg hxy, hx]
  refine (bind_of_ok (replaceChild_eq hpath (by grind)) _).trans ?_
  rw [rbChild_bind, entry_relink_of_ne hxc, entry_modifyAt, if_neg hxy, hx]
  show (rbSetParent a.root (some y) >>= _) _ = _
  rw [hw, rbSetParent_bind, rbChild_bind, entry_modifyAt, if_neg hxw, entry_relink_of_ne hxc,
    entry_modifyAt, if_neg hxy, hx]
  show (if b.root ≠ none then _ else _ : RbM ν Unit) _ = _
  -- The right child may be missing.
  cases hb : b.root with
  | none =>
    rw [if_neg (by simp)]
    rfl
  | some v =>
    rw [if_pos (by simp), rbChild_bind, entry_modifyAt, if_neg hxw, entry_relink_of_ne hxc,
      entry_modifyAt, if_neg hxy, hx]
    show rbSetParent b.root (some y) _ = _
    rw [hb]
    rfl

/-- A node with two children is replaced by the next one, which is taken out below. -/
theorem removeTwo_eq (h : At S base σ ctx (.node c a x b)) (ha : a ≠ .nil) (hb : b ≠ .nil)
    (hlimit : b.height < limit) :
    ∃ σ' ctx' c' y t, b = plug ctx' (branch .right c' t y .nil) ∧ (∀ f ∈ ctx', f.side = .left) ∧
      removeTwo limit (some x) σ =
        .ok (above (ctx' ++ ⟨.right, c, y, a⟩ :: ctx), t.root, c') σ' ∧
      At S base σ' (ctx' ++ ⟨.right, c, y, a⟩ :: ctx) t := by
  have hr : At S base σ (⟨.right, c, x, a⟩ :: ctx) b := at_frame_iff.mpr h
  obtain ⟨ctx', c', t, y, rfl, hside, hmost⟩ := outermost_eq hr hb .left hlimit
  have hy : At S base σ (ctx' ++ ⟨.right, c, x, a⟩ :: ctx) (branch .right c' t y .nil) :=
    at_append_iff.mpr hr
  have hx : At S base _ ctx (.node c a x (plug ctx' t)) :=
    at_frame_iff.mp (at_append_iff.mp hy.splice)
  have hyS : y ∈ S := hy.inside y (List.mem_append_left _ (mem_of_root root_branch))
  have hnodup := (perm_branch_append _).nodup hy.nodup
  have hfresh : y ∉ (ColorTree.node c a x (plug ctx' t)).toList ++ nodes ctx := by
    have hperm : (plug ctx (.node c a x (plug ctx' t))).toList.Perm _ := toList_plug_perm
    rw [← hperm.mem_iff]
    have hplug : plug ctx (.node c a x (plug ctx' t)) =
        plug (ctx' ++ ⟨.right, c, x, a⟩ :: ctx) t := by
      rw [plug_append]
      rfl
    rw [hplug, toList_plug_perm.mem_iff]
    exact (List.nodup_cons.mp hnodup).1
  refine ⟨_, ctx', c', y, t, rfl, hside, ?_,
    at_append_iff.mpr (at_frame_iff.mpr (hx.replace (d := .left) hfresh hyS))⟩
  -- Whether the next node is a child of the removed one or further down.
  have hparent : (if above (ctx' ++ ⟨.right, c, x, a⟩ :: ctx) = some x then some y
      else above (ctx' ++ ⟨.right, c, x, a⟩ :: ctx)) =
        above (ctx' ++ ⟨.right, c, y, a⟩ :: ctx) := by
    cases ctx' with
    | nil => exact if_pos rfl
    | cons f ctx' =>
      refine if_neg fun hf => ?_
      have hnodes := (List.nodup_append.mp hy.nodup).2.1
      rw [List.cons_append, nodes, List.nodup_cons, nodes_append] at hnodes
      refine hnodes.1 ?_
      rw [Option.some.inj hf]
      simp [nodes]
  have hy' := hy.entry
  unfold removeTwo
  rw [rbChild_bind, h.tree.1]
  refine (bind_of_ok hmost _).trans ?_
  rw [rbChild_bind, hy', child_link]
  refine (bind_of_ok (unlink_eq hy) _).trans ?_
  simp only [toList, List.nil_append, List.nodup_cons, List.mem_append] at hnodup
  have hentry : ((σ.adopt t.root (above (ctx' ++ ⟨.right, c, x, a⟩ :: ctx))).relink
      (ctx' ++ ⟨.right, c, x, a⟩ :: ctx) t.root).entry y = σ.entry y := by
    rw [entry_relink_of_ne (by grind), entry_adopt, if_neg (by grind)]
  refine (rbParent_bind _).trans ?_
  rw [hentry, hy', parent_link, hparent]
  exact bind_of_ok (takePlace_eq hx ha hfresh) _

/-- `RB_REMOVE` looks at the children of its node. -/
theorem removeNode_eq {p q par : Option ν} (hx : σ.entry x = ⟨p, q, par, c⟩) :
    removeNode limit (some x) σ =
      (if p = none then removeOne (some x) q
      else if q = none then removeOne (some x) p
      else removeTwo limit (some x)) σ := by
  unfold removeNode
  rw [rbChild_bind, hx]
  show (if p = none then _ else _ : RbM ν _) σ = _
  -- No left child, no right child, or both.
  split_ifs with hp
  · rw [rbChild_bind, hx]
    rfl
  · rw [rbChild_bind, hx]
    show (if q = none then _ else _ : RbM ν _) σ = _
    rw [if_pos ‹_›, rbChild_bind, hx]
    rfl
  · rw [rbChild_bind, hx]
    show (if q = none then _ else _ : RbM ν _) σ = _
    rw [if_neg ‹_›]

/-- The end of a removal: a black node has been taken out above `t`, or a red one. -/
theorem repair_of_splice {xs : List ν} (h : At S base σ ctx t) (hwants : Wants ctx n)
    (hbal : (branch d c t y .nil).Balanced n) (horder : (plug ctx t).toList = xs)
    (hlimit : ctx.length + 1 < limit) :
    ∃ σ', (if c = .black then rbRemoveColor limit (above ctx) t.root else pure () : RbM ν Unit) σ =
      .ok () σ' ∧
      HoldsValid S base xs σ' := by
  cases c with
  | black =>
    obtain ⟨m, rfl, ht, -⟩ := balanced_black_iff.mp hbal
    have hrem : Removing S base xs σ ctx t m := ⟨h, fun _ => ht, ht.blacken, hwants, horder⟩
    rw [if_pos rfl]
    exact hrem.repair hlimit
  | red =>
    obtain ⟨⟨hcolor, -⟩, ht, -⟩ := balanced_red.mp hbal
    exact ⟨σ, rfl, _, at_plug_iff.mp h, valid_plug_iff.mpr ⟨n, hwants, ht, .inl hcolor⟩, horder⟩

/-- A node of a valid tree is taken out, and the tree stays valid. -/
theorem rbRemove_eq (h : At S base σ [] T) (hvalid : T.Valid) (hx : x ∈ T.toList)
    (hlimit : T.height + 1 < limit) :
    ∃ σ', rbRemove limit (some x) σ = .ok (some x) σ' ∧
      HoldsValid S base (T.toList.erase x) σ' := by
  obtain ⟨ctx, c, l, r, rfl⟩ := exists_plug_of_mem hx
  have hlen := length_add_height_le ctx (.node c l x r)
  simp only [height] at hlen
  have hat := at_plug_iff.mpr h
  obtain ⟨n, hwants, hbal, hcolor⟩ := valid_plug_iff.mp hvalid
  have hx := hat.tree.1
  have herase : (plug ctx (.node c l x r)).toList.erase x =
      before ctx ++ (l.toList ++ (r.toList ++ after ctx)) := by
    have hsplit : (plug ctx (.node c l x r)).toList =
        (before ctx ++ l.toList) ++ x :: (r.toList ++ after ctx) := by
      rw [toList_plug]
      simp [toList]
    have hnodup := toList_plug_perm.nodup_iff.mpr hat.nodup
    rw [hsplit] at hnodup ⊢
    have hmem : x ∉ before ctx ++ l.toList := fun hmem =>
      (List.nodup_append.mp hnodup).2.2 x hmem x List.mem_cons_self rfl
    rw [List.erase_append_right _ hmem, List.erase_cons_head, List.append_assoc]
  rw [herase]
  -- In each case: what is taken out, and where the repair starts.
  suffices ∃ σ₁ ctx' d' c' y t m, removeNode limit (some x) σ = .ok (above ctx', t.root, c') σ₁ ∧
      At S base σ₁ ctx' t ∧ Wants ctx' m ∧ (branch d' c' t y .nil).Balanced m ∧
      (plug ctx' t).toList = before ctx ++ (l.toList ++ (r.toList ++ after ctx)) ∧
      ctx'.length + 1 < limit by
    obtain ⟨σ₁, ctx', d', c', y, t, m, hrun, hat', hwants', hbal', horder, hlen'⟩ := this
    obtain ⟨σ', hrepair, hholds⟩ := repair_of_splice hat' hwants' hbal' horder hlen'
    refine ⟨σ', ?_, hholds⟩
    refine (bind_of_ok hrun _).trans ?_
    cases c' with
    | black => exact bind_of_ok hrepair _
    | red => exact bind_of_ok hrepair (fun _ => pure (some x))
  rw [removeNode_eq hx]
  by_cases hl : l = .nil
  · subst hl
    have hone : At S base σ ctx (branch .right c r x .nil) := hat
    exact ⟨_, ctx, .right, c, x, r, n, bind_of_ok (unlink_eq hone) _, hone.splice, hwants, hbal,
      by rw [toList_plug]; rfl, by omega⟩
  · rw [if_neg (mt root_eq_none_iff.mp hl)]
    by_cases hr : r = .nil
    · subst hr
      have hone : At S base σ ctx (branch .left c l x .nil) := hat
      exact ⟨_, ctx, .left, c, x, l, n, bind_of_ok (unlink_eq hone) _, hone.splice, hwants, hbal,
        by simp [toList_plug, toList], by omega⟩
    · rw [if_neg (mt root_eq_none_iff.mp hr)]
      have hright : r.height < limit := by omega
      obtain ⟨σ', ctx', c', y, t, rfl, hside, hrun, hat'⟩ := removeTwo_eq hat hl hr hright
      have hplug : plug ctx (.node c l x (plug ctx' (branch .right c' t y .nil))) =
          plug (ctx' ++ ⟨.right, c, x, l⟩ :: ctx) (branch .right c' t y .nil) := by
        rw [plug_append]
        rfl
      have hlen' := length_add_height_le (ctx' ++ ⟨.right, c, x, l⟩ :: ctx)
        (branch .right c' t y .nil)
      rw [hplug] at hvalid hlimit
      obtain ⟨m, hwants', hbal', -⟩ := valid_plug_iff.mp hvalid
      refine ⟨σ', _, .right, c', y, t, m, hrun, hat', (wants_relabel_iff y).mp hwants', hbal', ?_,
        ?_⟩
      · rw [plug_append]
        simp [plug, Frame.attach, branch, toList_plug, toList, before_eq_nil hside]
      · simp only [List.length_append, List.length_cons] at hlen' ⊢
        omega

end Remove

end SwiftRuntime.Freebsd
