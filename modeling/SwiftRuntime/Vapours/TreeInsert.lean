import SwiftRuntime.Vapours.Tree

/-!
# `RB_INSERT`

The insertion goes down to a null link, puts a red node there, and repairs the colours on the way up
(`RB_INSERT_COLOR`). The invariant of the repair is `Inserting`: the tree is balanced but for the
node at the hole, which is red below a node of any colour. `rbInsert_eq` asks nothing of the
comparison.
-/

namespace SwiftRuntime.Freebsd

open ColorTree

variable {ν : Type} [DecidableEq ν]

/-- A pass of `RB_INSERT_COLOR` where `parent` is the child of `gparent` on the side `d`. -/
def insertFixup (d : Side) (elm parent gparent : Option ν) : RbM ν (Option ν) := do
  let tmp ← rbChild d.other gparent
  if ← nodeAndRed tmp then
    rbSetColor tmp .black
    rbSetBlackRed parent gparent
    return gparent
  else
    let (parent, elm) ←
      if (← rbChild d.other parent) = elm then do
        let _ ← rbRotate d parent
        pure (elm, parent)
      else
        pure (parent, elm)
    rbSetBlackRed parent gparent
    let _ ← rbRotate d.other gparent
    return elm

/-- A pass of the loop of `RB_INSERT_COLOR`. -/
def insertColorBody (elm : Option ν) : RbM ν (Option ν ⊕ Unit) := do
  let parent ← rbParent elm
  if ← nodeAndRed parent then
    let gparent ← rbParent parent
    if parent = (← rbLeft gparent) then
      return .inl (← insertFixup .left elm parent gparent)
    else
      return .inl (← insertFixup .right elm parent gparent)
  else
    return .inr ()

/-- `RB_INSERT_COLOR`. -/
def rbInsertColor (limit : ℕ) (elm : Option ν) : RbM ν Unit := do
  loopM insertColorBody .endless limit elm
  rbSetColor (← get).root .black

/-- A pass of the loop of `RB_INSERT`, with `tmp`, `parent` and `comp`. It is left with the node
that the element is equal to, or with the place for the element. -/
def insertBody (cmp : ν → ν → ℤ) (elm : ν) :
    Option ν × Option ν × ℤ → RbM ν ((Option ν × Option ν × ℤ) ⊕ (ν ⊕ Option ν × ℤ))
  | (none, parent, comp) => return .inr (.inr (parent, comp))
  | (some tmp, _, _) => do
    let comp := cmp elm tmp
    if comp < 0 then
      return .inl (← rbLeft (some tmp), some tmp, comp)
    else if comp > 0 then
      return .inl (← rbRight (some tmp), some tmp, comp)
    else
      return .inr (.inl tmp)

/-- The part of `RB_INSERT` that puts the element below `parent`. -/
def insertBelow (parent : Option ν) (comp : ℤ) (elm : ν) : RbM ν Unit := do
  rbSet (some elm) parent
  if parent ≠ none then
    if comp < 0 then
      rbSetLeft parent (some elm)
    else
      rbSetRight parent (some elm)
  else
    setRoot (some elm)

/-- `RB_INSERT`. -/
def rbInsert (limit : ℕ) (cmp : ν → ν → ℤ) (elm : ν) : RbM ν (Option ν) := do
  match ← loopM (insertBody cmp elm) .endless limit ((← get).root, none, 0) with
  | .inl tmp => return some tmp
  | .inr (parent, comp) =>
    insertBelow parent comp elm
    rbInsertColor limit (some elm)
    return none

section Color

variable {S : Set ν} {base : ν → RbEntry ν} {σ : RbHeap ν} {ctx : List (Frame ν)}
  {t s u : ColorTree ν} {d e : Side} {p g : ν} {n : ℕ}

/-- A pass with a red uncle: the red colours move up. -/
theorem insertFixup_red (h : At S base σ (⟨d, .red, p, s⟩ :: ⟨e, .black, g, u⟩ :: ctx) t)
    (hu : u.color = .red) :
    ∃ σ', insertFixup e t.root (some p) (some g) σ = .ok (some g) σ' ∧
      At S base σ' ctx (branch e .red (branch d .black t p s) g u.blacken) := by
  obtain ⟨c, a, y, b, rfl⟩ := exists_branch .left (t := u) (by rintro rfl; cases hu)
  obtain rfl : c = .red := by simpa using hu
  have hp : At S base σ (⟨e, .black, g, branch .left .red a y b⟩ :: ctx) (branch d .red t p s) :=
    at_frame_iff.mp h
  have hy := at_sibling_iff.mpr ((at_sibling_iff.mp hp).setColor .black)
  have hg := (at_frame_iff.mp (hy.setColor .black)).setColor .red
  refine ⟨_, ?_, by rw [blacken_branch]; exact hg⟩
  unfold insertFixup
  rw [rbChild_bind, hp.entry_above, child_other_link, nodeAndRed_bind hp.path.2.1, color_branch,
    root_branch]
  rfl

/-- With a black uncle and the red nodes on one side, the grandparent is rotated down. -/
theorem At.rotateDown (h : At S base σ (⟨e, .black, g, u⟩ :: ctx) (branch e .red t p s)) :
    ∃ σ', rbRotate e.other (some g)
      ((σ.modifyAt p (.setColor .black)).modifyAt g (.setColor .red)) =
        .ok (some p) σ' ∧
      At S base σ' ctx (branch e .black t p (branch e .red s g u)) := by
  have hg := (at_frame_iff.mp (h.setColor .black)).setColor .red
  rw [← branch_other, ← branch_other (b := t)] at hg
  refine ⟨_, rbRotate_eq hg, ?_⟩
  have hrot := hg.rotate
  rwa [branch_other, branch_other] at hrot

/-- A pass with a black uncle that is left with red nodes on one side. -/
theorem insertFixup_outer (h : At S base σ (⟨e, .red, p, s⟩ :: ⟨e, .black, g, u⟩ :: ctx) t)
    (hu : u.color = .black) (ht : t.color = .red) :
    ∃ σ', insertFixup e t.root (some p) (some g) σ = .ok t.root σ' ∧
      At S base σ' ctx (branch e .black t p (branch e .red s g u)) := by
  have hp : At S base σ (⟨e, .black, g, u⟩ :: ctx) (branch e .red t p s) := at_frame_iff.mp h
  obtain ⟨σ', hrot, hat⟩ := hp.rotateDown
  refine ⟨σ', ?_, hat⟩
  -- The node is not also the other child of its parent, so no rotation comes first.
  have hne : s.root ≠ t.root := by
    intro hst
    cases htr : t.root with
    | none => rw [root_eq_none_iff.mp htr] at ht; cases ht
    | some x =>
      have hx := mem_of_root htr
      have hx' := mem_of_root (hst.trans htr)
      have := h.nodup
      simp only [nodes, List.nodup_append, List.mem_cons, List.mem_append] at this
      grind
  -- Recolouring and the rotation of the grandparent.
  unfold insertFixup
  rw [rbChild_bind, hp.entry_above, child_other_link, nodeAndRed_bind hp.path.2.1, hu]
  simp only [reduceCtorEq, decide_false, Bool.false_eq_true, if_false, rbChild_bind]
  rw [h.entry_above, child_other_link, if_neg hne, pure_bind]
  simp only [rbSetBlackRed_bind]
  rw [bind_of_ok hrot]
  rfl

/-- A pass with a black uncle and red nodes on both sides: the parent is rotated first. -/
theorem insertFixup_inner {a b : ColorTree ν} {x : ν}
    (h : At S base σ (⟨e.other, .red, p, s⟩ :: ⟨e, .black, g, u⟩ :: ctx) (branch e .red a x b))
    (hu : u.color = .black) :
    ∃ σ', insertFixup e (some x) (some p) (some g) σ = .ok (some p) σ' ∧
      At S base σ' ctx (branch e .black (branch e .red s p a) x (branch e .red b g u)) := by
  have hp := at_frame_iff.mp h
  rw [branch_other] at hp
  obtain ⟨σ', hrot, hat⟩ := hp.rotate.rotateDown
  refine ⟨σ', ?_, hat⟩
  -- The rotation of the parent, recolouring and the rotation of the grandparent.
  unfold insertFixup
  rw [rbChild_bind, hp.entry_above, child_other_link, nodeAndRed_bind hp.path.2.1, hu]
  simp only [reduceCtorEq, decide_false, Bool.false_eq_true, if_false, rbChild_bind]
  rw [hp.entry, child_other_link, root_branch, if_pos rfl]
  simp only [pure_bind]
  rw [bind_of_ok (rbRotate_eq hp)]
  simp only [rbSetBlackRed_bind]
  rw [bind_of_ok hrot]
  rfl

/-- The loop is left where the node above is black or there is none. -/
theorem insertColorBody_exit (h : At S base σ ctx t) (ht : t ≠ .nil)
    (hctx : ctx = [] ∨ BlackAbove ctx) :
    insertColorBody t.root σ = .ok (.inr ()) σ := by
  obtain ⟨c, a, x, b, rfl⟩ := exists_branch .left ht
  unfold insertColorBody
  rw [root_branch, rbParent_bind, h.entry, parent_link]
  rcases ctx with - | ⟨⟨d, c', p, s⟩, ctx⟩
  · rfl
  · obtain rfl : c' = .black := hctx.resolve_left (by simp)
    have hp := (at_frame_iff.mp h).tree
    rw [show above (_ :: ctx) = (branch d .black (branch .left c a x b) p s).root by
      rw [root_branch]; rfl, nodeAndRed_bind hp, color_branch]
    rfl

/-- Where the node above is red, the pass depends on the side of the grandparent on which it is. -/
theorem insertColorBody_red {c : Color}
    (h : At S base σ (⟨d, .red, p, s⟩ :: ⟨e, c, g, u⟩ :: ctx) t) (ht : t ≠ .nil) :
    insertColorBody t.root σ =
      (do return .inl (← insertFixup e t.root (some p) (some g)) : RbM ν (Option ν ⊕ Unit)) σ := by
  have hp := at_frame_iff.mp h
  obtain ⟨c, a, x, b, rfl⟩ := exists_branch .left ht
  unfold insertColorBody
  rw [root_branch, rbParent_bind, h.entry, parent_link]
  rw [show above (_ :: _) = (branch d .red (branch .left c a x b) p s).root by
    rw [root_branch]; rfl, nodeAndRed_bind hp.tree, color_branch]
  simp only [root_branch, decide_true, if_true, rbParent_bind, hp.entry, parent_link]
  -- The code compares the parent with the left child of the grandparent.
  have hleft := hp.child_eq_iff (e := .left) (.inl (by cases d <;> simp [branch]))
  rw [root_branch] at hleft
  show (rbLeft (some g) >>= _) σ = _
  rw [rbChild_bind]
  cases e with
  | left => rw [if_pos (hleft.mpr rfl).symm]; rfl
  | right => rw [if_neg (mt (fun h => hleft.mp h.symm) (by decide))]; rfl

/-- What `RB_INSERT_COLOR` has done at each pass: the tree has its elements in the same order, is
balanced below and above the hole, and is red at the hole. -/
structure Inserting (S : Set ν) (base : ν → RbEntry ν) (xs : List ν) (σ : RbHeap ν)
    (ctx : List (Frame ν)) (t : ColorTree ν) (n : ℕ) : Prop extends At S base σ ctx t where
  /-- The node at the hole is red. -/
  red : t.color = .red
  /-- Below the hole the tree is balanced. -/
  balanced : t.Balanced n
  /-- Above it too. -/
  wants : Wants ctx n
  /-- The nodes in order. -/
  order : (plug ctx t).toList = xs

/-- Below a red node, a pass moves the hole up. -/
theorem Inserting.step {xs : List ν}
    (h : Inserting S base xs σ (⟨d, .red, p, s⟩ :: ⟨e, .black, g, u⟩ :: ctx) t n) :
    ∃ σ' ctx' t' n', insertColorBody t.root σ = .ok (.inl t'.root) σ' ∧
      ctx'.length < ctx.length + 2 ∧ Inserting S base xs σ' ctx' t' n' := by
  obtain ⟨hat, ht, hbal, ⟨hs, hsbal, -, hubal, hwants⟩, horder⟩ := h
  have hne : t ≠ .nil := by rintro rfl; cases ht
  rw [insertColorBody_red hat hne]
  simp only [plug, Frame.attach, toList_plug] at horder
  subst horder
  -- A black uncle: one or two rotations, and the hole is below a black node. A red one:
  -- recolouring, and the hole is two levels higher.
  rcases hu : u.color with - | -
  · by_cases hde : d = e
    · subst hde
      obtain ⟨σ', hfix, hat'⟩ := insertFixup_outer hat hu ht
      refine ⟨σ', ⟨d, .black, p, branch d .red s g u⟩ :: ctx, t, n,
        by rw [bind_of_ok hfix]; rfl, by simp, at_frame_iff.mpr hat', ht, hbal,
        ⟨balanced_red.mpr ⟨⟨hs, hu⟩, hsbal, hubal⟩, hwants⟩, ?_⟩
      simp only [plug, Frame.attach, toList_plug]
      cases d <;> simp [branch, toList]
    · obtain rfl := Side.eq_other_of_ne hde
      obtain ⟨c, a, x, b, rfl⟩ := exists_branch e hne
      obtain rfl : c = .red := by simpa using ht
      obtain ⟨⟨ha, hb⟩, habal, hbbal⟩ := balanced_red.mp hbal
      obtain ⟨σ', hfix, hat'⟩ := insertFixup_inner hat hu
      refine ⟨σ', ⟨e, .black, x, branch e .red b g u⟩ :: ctx, branch e .red s p a, n, ?_, by simp,
        at_frame_iff.mpr hat', by simp, balanced_red.mpr ⟨⟨hs, ha⟩, hsbal, habal⟩,
        ⟨balanced_red.mpr ⟨⟨hb, hu⟩, hbbal, hubal⟩, hwants⟩, ?_⟩
      · rw [root_branch, root_branch, bind_of_ok hfix]
        rfl
      · simp only [plug, Frame.attach, toList_plug]
        cases e <;> simp [branch, toList, Side.other]
  · obtain ⟨σ', hfix, hat'⟩ := insertFixup_red hat hu
    refine ⟨σ', ctx, _, n + 1,
      by rw [bind_of_ok hfix, root_branch]; rfl, by simp, hat', by simp, ?_, hwants, ?_⟩
    · have hcolor : u.blacken.color = .black := by cases u <;> rfl
      exact balanced_red.mpr ⟨⟨by simp, hcolor⟩, balanced_black.mpr ⟨hbal, hsbal⟩, hubal.blacken hu⟩
    · rw [toList_plug]
      cases d <;> cases e <;> simp [branch, toList]

/-- `RB_INSERT_COLOR` makes a tree valid that is so but for a red node at the hole. -/
theorem Inserting.repair {xs : List ν} (h : Inserting S base xs σ ctx t n) {limit : ℕ}
    (hlimit : ctx.length < limit) :
    ∃ σ', rbInsertColor limit t.root σ = .ok () σ' ∧ HoldsValid S base xs σ' := by
  have hloop : ∃ u τ, loopM insertColorBody .endless limit t.root σ = .ok u τ ∧
      ∃ ctx t n, Inserting S base xs τ ctx t n ∧ (ctx = [] ∨ BlackAbove ctx) := by
    refine loopM_of_measure
      (fun k elm τ => ∃ ctx t n, Inserting S base xs τ ctx t n ∧ elm = t.root ∧ k = ctx.length)
      _ ?_ ⟨ctx, t, n, h, rfl, rfl⟩ hlimit
    rintro k elm τ ⟨ctx, t, n, h, rfl, rfl⟩
    have hne : t ≠ .nil := by rintro rfl; cases h.red
    rcases ctx with - | ⟨⟨d, - | -, p, s⟩, ctx⟩
    · exact .inr ⟨(), τ, insertColorBody_exit h.toAt hne (.inl rfl), _, _, _, h, .inl rfl⟩
    · exact .inr ⟨(), τ, insertColorBody_exit h.toAt hne (.inr rfl), _, _, _, h, .inr rfl⟩
    · obtain ⟨-, -, habove, -⟩ := h.wants
      rcases ctx with - | ⟨⟨e, c, g, u⟩, ctx⟩
      · cases habove
      · obtain rfl : c = .black := habove
        obtain ⟨τ', ctx', t', n', hbody, hlt, h'⟩ := h.step
        exact .inl ⟨_, _, τ', hlt, hbody, _, _, _, h', rfl, rfl⟩
  obtain ⟨⟨⟩, τ, hτ, ctx', t', n', h', hctx⟩ := hloop
  have hne : plug ctx' t' ≠ .nil := plug_ne_nil (by rintro rfl; cases h'.red)
  -- The root becomes black. It is the node at the hole, or black already.
  have hbal : ∃ m, (plug ctx' t').Balanced m := by
    rcases hctx with rfl | habove
    · exact ⟨n', h'.balanced⟩
    · exact (valid_plug_iff.mpr ⟨n', h'.wants, h'.balanced, .inr habove⟩).2
  obtain ⟨m, hm⟩ := hbal
  obtain ⟨σ', hcolor, hat⟩ := (at_plug_iff.mp h'.toAt).blackenRoot hne
  refine ⟨σ', ?_, _, hat, hm.valid_blacken, by rw [toList_blacken, h'.order]⟩
  unfold rbInsertColor
  rw [bind_of_ok hτ]
  exact hcolor

end Color

section Insert

variable {S : Set ν} {base : ν → RbEntry ν} {σ : RbHeap ν} {T : ColorTree ν} {cmp : ν → ν → ℤ}
  {elm : ν} {limit : ℕ}

omit [DecidableEq ν] in
/-- The loop of `RB_INSERT` goes down the tree, to the node that the element is equal to or to the
place for the element. -/
theorem insertLoop (cmp : ν → ν → ℤ) (elm : ν) (h : At S base σ [] T) (hlimit : T.height < limit) :
    ∃ r, loopM (insertBody cmp elm) .endless limit (σ.root, none, 0) σ = .ok r σ ∧
      match r with
      | .inl y => T.forget.find (toward (cmp elm)) = some y
      | .inr (parent, comp) => ∃ ctx, T = plug ctx .nil ∧ Follows (toward (cmp elm)) ctx ∧
          parent = above ctx ∧ ∀ f rest, ctx = f :: rest → (comp < 0 ↔ f.side = .left) := by
  -- The variables of the loop are the subtree, the node above it and the last comparison.
  refine descent (cmp elm) h
    (fun ctx t b => b.1 = t.root ∧ b.2.1 = above ctx ∧
      ∀ f rest, ctx = f :: rest → (b.2.2 < 0 ↔ f.side = .left)) _ ?_ ?_ ?_ ?_
    ⟨h.root, rfl, by simp⟩ hlimit
  · rintro ctx ⟨tmp, parent, comp⟩ hT hfollows ⟨rfl, hparent, hcomp⟩
    exact ⟨.inr (parent, comp), rfl, ctx, hT, hfollows, hparent, hcomp⟩
  · rintro ctx c l x r ⟨tmp, parent, comp⟩ rfl hfollows hc ⟨rfl, -, -⟩
    refine ⟨.inl x, ?_, ?_⟩
    · simp only [insertBody, ColorTree.root, hc, lt_irrefl, if_false]
      rfl
    · simp only [hfollows.find_plug, forget, SearchTree.find, toward, hc, compare_eq_iff_eq.mpr]
  · rintro ctx c l x r ⟨tmp, parent, comp⟩ hx hc ⟨rfl, -, -⟩
    refine ⟨(l.root, some x, cmp elm x), ?_, rfl, rfl, ?_⟩
    · simp only [insertBody, ColorTree.root, hc, if_true, rbChild_bind, hx]
      rfl
    · rintro f rest ⟨⟩
      simpa using hc
  · rintro ctx c l x r ⟨tmp, parent, comp⟩ hx hc ⟨rfl, -, -⟩
    refine ⟨(r.root, some x, cmp elm x), ?_, rfl, rfl, ?_⟩
    · simp only [insertBody, ColorTree.root, hc, hc.not_gt, if_true, if_false, rbChild_bind, hx]
      rfl
    · rintro f rest ⟨⟩
      simpa using hc.le

/-- The new node is written as a red leaf, and linked to the hole. -/
theorem insertBelow_eq {ctx : List (Frame ν)} {comp : ℤ}
    (hcomp : ∀ f rest, ctx = f :: rest → (comp < 0 ↔ f.side = .left)) :
    insertBelow (above ctx) comp elm σ =
      .ok () ((σ.modifyAt elm fun _ => ⟨none, none, above ctx, .red⟩).relink ctx (some elm)) := by
  cases ctx with
  | nil => rfl
  | cons f ctx =>
    obtain ⟨side, c, x, s⟩ := f
    have hside := hcomp _ _ rfl
    unfold insertBelow
    cases side with
    | left => rw [if_pos (by simp [above]), if_pos (hside.mpr rfl)]; rfl
    | right => rw [if_pos (by simp [above]), if_neg (mt hside.mp (by simp))]; rfl

/-- An element that is equal to none in a valid tree is put in its place, and the tree stays valid.
An element that is equal to one changes nothing. -/
theorem rbInsert_eq (h : At S base σ [] T) (hvalid : T.Valid) (hS : elm ∈ S)
    (helm : T.forget.find (toward (cmp elm)) = none → elm ∉ T.toList) (hlimit : T.height < limit) :
    ∃ σ', rbInsert limit cmp elm σ = .ok (T.forget.find (toward (cmp elm))) σ' ∧
      HoldsValid S base (T.forget.insert (toward (cmp elm)) elm).toList σ' := by
  obtain ⟨r, hloop, hr⟩ := insertLoop cmp elm h hlimit
  unfold rbInsert
  rw [get_bind, bind_of_ok hloop]
  -- The search has found an element, and nothing changes; or it has come to a hole.
  rcases r with y | ⟨parent, comp⟩
  · exact ⟨σ, by rw [hr]; rfl, T, h, hvalid, by rw [SearchTree.insert_of_find hr, toList_forget]⟩
  · obtain ⟨ctx, rfl, hfollows, rfl, hcomp⟩ := hr
    have hnone : (plug ctx .nil).forget.find (toward (cmp elm)) = none := by
      rw [hfollows.find_plug]
      rfl
    have hmem : elm ∉ nodes ctx := fun hm =>
      helm hnone (toList_plug_perm.mem_iff.mpr (List.mem_append_right _ hm))
    -- The new leaf is red, so the counts stay right and only the node above may be red too.
    have hlink := (at_plug_iff.mpr h).link hmem hS
    obtain ⟨n, hwants, hbal, -⟩ := valid_plug_iff.mp hvalid
    have hins : Inserting S base (plug ctx (.node .red .nil elm .nil)).toList _ ctx
        (.node .red .nil elm .nil) n :=
      ⟨hlink, rfl, ⟨⟨rfl, rfl⟩, hbal, hbal⟩, hwants, rfl⟩
    have hlen : ctx.length < limit := by
      have := length_add_height_le ctx (.nil : ColorTree ν)
      omega
    -- The place of the leaf is that of the insertion into the search tree.
    have hput : (plug ctx .nil).forget.insert (toward (cmp elm)) elm =
        (plug ctx (.node .red .nil elm .nil)).forget := hfollows.insert_plug rfl
    have horder : (plug ctx (.node .red .nil elm .nil)).toList =
        ((plug ctx .nil).forget.insert (toward (cmp elm)) elm).toList := by
      rw [hput, toList_forget]
    obtain ⟨σ', hcolor, hholds⟩ := hins.repair hlen
    refine ⟨σ', ?_, horder ▸ hholds⟩
    rw [hnone]
    refine (bind_of_ok (insertBelow_eq hcomp) _).trans ?_
    exact bind_of_ok hcolor _

end Insert

end SwiftRuntime.Freebsd
