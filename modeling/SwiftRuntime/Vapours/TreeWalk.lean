import SwiftRuntime.Vapours.Tree

/-!
# `RB_FIND`, `RB_NFIND`, `RB_MINMAX`, `RB_NEXT` and `RB_PREV`

None of them writes. A search goes where the comparisons lead, and a walk goes on to the next node
in the order of the tree: down to the outermost node of the subtree on its side, or up to the first
node that it comes to from the other side.
-/

namespace SwiftRuntime.Freebsd

open ColorTree

variable {ν : Type}

/-- A pass of the loop of `RB_FIND`, where `comp` compares what is searched with a node. -/
def findBody (comp : ν → ℤ) : Option ν → RbM ν (Option ν ⊕ Option ν)
  | none => return .inr none
  | some tmp => do
    if comp tmp < 0 then
      return .inl (← rbLeft (some tmp))
    else if comp tmp > 0 then
      return .inl (← rbRight (some tmp))
    else
      return .inr (some tmp)

/-- `RB_FIND` and `RB_FIND_KEY`. -/
def rbFind (limit : ℕ) (comp : ν → ℤ) : RbM ν (Option ν) := do
  loopM (findBody comp) .endless limit (← get).root

/-- A pass of the loop of `RB_NFIND`, with `tmp` and `res`. -/
def nfindBody (comp : ν → ℤ) : Option ν × Option ν → RbM ν ((Option ν × Option ν) ⊕ Option ν)
  | (none, res) => return .inr res
  | (some tmp, res) => do
    if comp tmp < 0 then
      return .inl (← rbLeft (some tmp), some tmp)
    else if comp tmp > 0 then
      return .inl (← rbRight (some tmp), res)
    else
      return .inr (some tmp)

/-- `RB_NFIND` and `RB_NFIND_KEY`. -/
def rbNfind (limit : ℕ) (comp : ν → ℤ) : RbM ν (Option ν) := do
  loopM (nfindBody comp) .endless limit ((← get).root, none)

/-- One pass of the loop of `RB_MINMAX`, from a node and the one above it. -/
def endBody (d : Side) : Option ν × Option ν → RbM ν ((Option ν × Option ν) ⊕ Option ν)
  | (tmp, parent) => do
    if tmp ≠ none then return .inl (← rbChild d tmp, tmp)
    else return .inr parent

/-- `RB_MIN` on the left, `RB_MAX` on the right. -/
def rbEnd (limit : ℕ) (d : Side) : RbM ν (Option ν) := do
  loopM (endBody d) .endless limit ((← get).root, none)

/-- `RB_MIN`. -/
def rbMin (limit : ℕ) : RbM ν (Option ν) := rbEnd limit .left

/-- `RB_MAX`. -/
def rbMax (limit : ℕ) : RbM ν (Option ν) := rbEnd limit .right

variable [DecidableEq ν]

/-- `parent && elm == RB_LEFT(parent)` and `parent && elm == RB_RIGHT(parent)`. -/
def isChild (d : Side) (elm parent : Option ν) : RbM ν Bool := do
  if parent ≠ none then return elm = (← rbChild d parent)
  else return false

/-- One pass of the loop of `RB_NEXT` and `RB_PREV`, which goes up while the node is the child on
the side of the walk. -/
def climbBody (d : Side) (elm : Option ν) : RbM ν (Option ν ⊕ Option ν) := do
  if ← isChild d elm (← rbParent elm) then return .inl (← rbParent elm)
  else return .inr elm

/-- `RB_NEXT` on the right, `RB_PREV` on the left. -/
def rbAdvance (limit : ℕ) (d : Side) (elm : Option ν) : RbM ν (Option ν) := do
  if (← rbChild d elm) ≠ none then
    outermost limit d.other (← rbChild d elm)
  else if ← isChild d.other elm (← rbParent elm) then
    rbParent elm
  else
    let elm ← loopM (climbBody d) .endless limit elm
    rbParent elm

/-- `RB_NEXT`. -/
def rbNext (limit : ℕ) (elm : Option ν) : RbM ν (Option ν) := rbAdvance limit .right elm

/-- `RB_PREV`. -/
def rbPrev (limit : ℕ) (elm : Option ν) : RbM ν (Option ν) := rbAdvance limit .left elm

section Search

variable {S : Set ν} {base : ν → RbEntry ν} {σ : RbHeap ν} {T : ColorTree ν} {comp : ν → ℤ}
  {limit : ℕ}

omit [DecidableEq ν]

/-- A search finds the node that a search in the tree finds. -/
theorem rbFind_eq (comp : ν → ℤ) (h : At S base σ [] T) (hlimit : T.height < limit) :
    rbFind limit comp σ = .ok (T.forget.find (toward comp)) σ := by
  -- The invariant is that the loop is at the root of the subtree; then the four cases of the
  -- descent.
  obtain ⟨r, hloop, rfl⟩ : ∃ r, loopM (findBody comp) .endless limit σ.root σ = .ok r σ ∧
      r = T.forget.find (toward comp) := descent comp h (fun _ t b => b = t.root) _
    (by
      rintro ctx b rfl hfollows rfl
      exact ⟨none, rfl, by rw [hfollows.find_plug]; rfl⟩)
    (by
      rintro ctx c l x r b rfl hfollows hc rfl
      refine ⟨some x, ?_, ?_⟩
      · simp only [findBody, ColorTree.root, hc, lt_irrefl, if_false]
        rfl
      · simp only [hfollows.find_plug, forget, SearchTree.find, toward, hc, compare_eq_iff_eq.mpr])
    (by
      rintro ctx c l x r b hx hc rfl
      refine ⟨l.root, ?_, rfl⟩
      simp only [findBody, ColorTree.root, hc, if_true, rbChild_bind, hx]
      rfl)
    (by
      rintro ctx c l x r b hx hc rfl
      refine ⟨r.root, ?_, rfl⟩
      simp only [findBody, ColorTree.root, hc, hc.not_gt, if_true, if_false, rbChild_bind, hx]
      rfl)
    h.root hlimit
  exact hloop

/-- Where the comparisons guide the search, `RB_NFIND` finds the first node that is not too
small. -/
theorem rbNfind_eq (h : At S base σ [] T) (hg : SearchTree.Guided (toward comp) T.toList)
    (hlimit : T.height < limit) :
    rbNfind limit comp σ = .ok (T.toList.find? (toward comp · ≠ .gt)) σ := by
  obtain ⟨r, hloop, rfl⟩ : ∃ r, loopM (nfindBody comp) .endless limit (σ.root, none) σ = .ok r σ ∧
      r = T.toList.find? (toward comp · ≠ .gt) :=
    -- The second variable of the loop is the first node after the hole.
    descent comp h (fun ctx t b => b = (t.root, (after ctx).head?)) _
    (by
      rintro ctx b rfl hfollows rfl
      obtain ⟨hbefore, hafter⟩ := hfollows.guided hg
      -- At the end everything before the hole is too small, and the first node after it is the one.
      have hskip : (before ctx).find? (toward comp · ≠ .gt) = none :=
        List.find?_eq_none.mpr fun z hz => by simp [hbefore z hz]
      refine ⟨_, rfl, ?_⟩
      rw [toList_plug, List.find?_append, hskip, Option.none_or]
      show _ = (after ctx).find? _
      cases hrest : after ctx with
      | nil => rfl
      | cons y ys =>
        rw [List.find?_cons_of_pos (by simp [hafter y (by simp [hrest])])]
        rfl)
    (by
      rintro ctx c l x r b rfl hfollows hc rfl
      have hx : toward comp x = .eq := compare_eq_iff_eq.mpr hc
      rw [toList_plug, toList, List.append_assoc, List.cons_append, ← List.append_assoc] at hg ⊢
      -- An equal node is the one, since everything before it is too small.
      have hskip : (before ctx ++ l.toList).find? (toward comp · ≠ .gt) = none := by
        refine List.find?_eq_none.mpr fun z hz => ?_
        have := ((List.pairwise_append.mp hg).2.2 z hz x List.mem_cons_self).1 (by simp [hx])
        simp [this]
      refine ⟨some x, ?_, ?_⟩
      · simp only [nfindBody, ColorTree.root, hc, lt_irrefl, if_false]
        rfl
      · rw [List.find?_append, hskip, Option.none_or, List.find?_cons_of_pos (by simp [hx])])
    (by
      rintro ctx c l x r b hx hc rfl
      refine ⟨(l.root, some x), ?_, rfl⟩
      simp only [nfindBody, ColorTree.root, hc, if_true, rbChild_bind, hx]
      rfl)
    (by
      rintro ctx c l x r b hx hc rfl
      refine ⟨(r.root, (after ctx).head?), ?_, rfl⟩
      simp only [nfindBody, ColorTree.root, hc, hc.not_gt, if_true, if_false, rbChild_bind, hx]
      rfl)
    (by rw [h.root]; rfl) hlimit
  exact hloop

/-- Whatever the comparisons, what `RB_NFIND` finds is a node of the tree. -/
theorem rbNfind_mem (comp : ν → ℤ) (h : At S base σ [] T) (hlimit : T.height < limit) :
    ∃ r, rbNfind limit comp σ = .ok r σ ∧ ∀ y, r = some y → y ∈ T.toList := by
  suffices ∃ r, loopM (nfindBody comp) .endless limit (σ.root, none) σ = .ok r σ ∧
      ∀ y, r = some y → y ∈ T.toList from this
  have hmem : ∀ {ctx c l r} {x : ν}, T = plug ctx (.node c l x r) → x ∈ T.toList := by
    rintro ctx c l r x rfl
    exact toList_plug_perm.mem_iff.mpr (List.mem_append_left _ (mem_of_root rfl))
  -- What the second variable holds is a node that the loop has come by.
  refine descent comp h
    (fun ctx t b => T = plug ctx t ∧ b.1 = t.root ∧ ∀ y, b.2 = some y → y ∈ T.toList) _ ?_ ?_ ?_ ?_
    ⟨rfl, h.root, by simp⟩ hlimit
  · rintro ctx ⟨tmp, res⟩ - - ⟨-, rfl, hres⟩
    exact ⟨res, rfl, hres⟩
  · rintro ctx c l x r ⟨tmp, res⟩ - - hc ⟨hT, rfl, -⟩
    refine ⟨some x, ?_, fun y hy => Option.some.inj hy ▸ hmem hT⟩
    simp only [nfindBody, ColorTree.root, hc, lt_irrefl, if_false]
    rfl
  · rintro ctx c l x r ⟨tmp, res⟩ hx hc ⟨hT, rfl, -⟩
    refine ⟨(l.root, some x), ?_, hT, rfl, fun y hy => Option.some.inj hy ▸ hmem hT⟩
    simp only [nfindBody, ColorTree.root, hc, if_true, rbChild_bind, hx]
    rfl
  · rintro ctx c l x r ⟨tmp, res⟩ hx hc ⟨hT, rfl, hres⟩
    refine ⟨(r.root, res), ?_, hT, rfl, hres⟩
    simp only [nfindBody, ColorTree.root, hc, hc.not_gt, if_true, if_false, rbChild_bind, hx]
    rfl

/-- `RB_MIN` and `RB_MAX` are where the walks start. -/
theorem rbEnd_eq (h : At S base σ [] T) (d : Side) (hlimit : T.height < limit) :
    rbEnd limit d σ = .ok (walk d.other T).head? σ := by
  obtain ⟨r, τ, hloop, rfl, rfl⟩ :
      ∃ r τ, loopM (endBody d) .endless limit (σ.root, none) σ = .ok r τ ∧
      τ = σ ∧ r = (walk d.other T).head? := loopM_of_measure
    (fun k b τ => τ = σ ∧ ∃ ctx t, T = plug ctx t ∧ (∀ f ∈ ctx, f.side = d) ∧
      b = (t.root, above ctx) ∧ k = t.height) _ (by
      rintro k b τ ⟨rfl, ctx, t, rfl, hside, rfl, rfl⟩
      -- The loop has come to a hole on the outside: the node above it is the outermost one.
      by_cases ht : t = .nil
      · subst ht
        refine .inr ⟨above ctx, τ, rfl, rfl, ?_⟩
        rw [walk_plug, Side.other_other, rest_eq_nil hside]
        cases ctx with
        | nil => cases d <;> rfl
        | cons f ctx =>
          obtain ⟨side, c, x, s⟩ := f
          obtain rfl : side = d := hside _ List.mem_cons_self
          have hrest : rest side.other (⟨side.other.other, c, x, s⟩ :: ctx) = _ := rest_other
          rw [Side.other_other] at hrest
          rw [hrest]
          cases side <;> rfl
      -- Otherwise it goes on down on that side.
      · obtain ⟨c, a, x, b, rfl⟩ := exists_branch d ht
        refine .inl ⟨a.height, (a.root, some x), τ, ?_, ?_, rfl, ⟨d, c, x, b⟩ :: ctx, a, rfl, ?_,
          rfl, rfl⟩
        · cases d <;> simp only [branch, height] <;> omega
        · show (if (branch d c a x b).root ≠ none then _ else _ : RbM ν _) τ = _
          rw [root_branch, if_pos (by simp), rbChild_bind, (at_plug_iff.mpr h).entry, child_link]
          rfl
        · simpa using hside)
    ⟨rfl, [], T, rfl, by simp, by rw [h.root]; rfl, rfl⟩ hlimit
  exact hloop

end Search

section Advance

variable {S : Set ν} {base : ν → RbEntry ν} {σ : RbHeap ν} {ctx : List (Frame ν)}
  {t a b : ColorTree ν} {d e : Side} {c : Color} {x p : ν} {s : ColorTree ν} {limit : ℕ}

/-- A node is compared with the children of the node above it. -/
theorem isChild_eq (h : At S base σ (⟨e, c, p, s⟩ :: ctx) t) (ht : t ≠ .nil) (d : Side) :
    isChild d t.root (some p) σ = .ok (e = d) σ := by
  have hchild := h.child_eq_iff (e := d) (.inl ht)
  show EStateM.Result.ok (decide (t.root = (σ.entry p).child d)) σ = _
  simp only [eq_comm (a := t.root), hchild]

/-- Where there is nothing below on the side of the walk, it goes up to the first node that it comes
to from the other side. -/
theorem climb_eq (h : At S base σ ctx t) (ht : t ≠ .nil) (hlimit : ctx.length < limit) :
    ∃ elm, loopM (climbBody d) .endless limit t.root σ = .ok (some elm) σ ∧
      (σ.entry elm).parent = (rest d ctx).head? := by
  obtain ⟨r, τ, hloop, rfl, elm, rfl, hparent⟩ :
      ∃ r τ, loopM (climbBody d) .endless limit t.root σ = .ok r τ ∧
      τ = σ ∧ ∃ elm, r = some elm ∧ (σ.entry elm).parent = (rest d ctx).head? := loopM_of_measure
    (fun k b τ => τ = σ ∧ ∃ ctx' t', At S base σ ctx' t' ∧ t' ≠ .nil ∧ rest d ctx' = rest d ctx ∧
      b = t'.root ∧ k = ctx'.length) _ (by
      rintro k b τ ⟨rfl, ctx', t', hat, ht', hrest, rfl, rfl⟩
      obtain ⟨c, a, x, b, rfl⟩ := exists_branch .left ht'
      unfold climbBody
      rw [root_branch, rbParent_bind, hat.entry, parent_link, ← hrest]
      -- At the root there is no node to go on with.
      rcases ctx' with - | ⟨⟨e, c', p, s⟩, ctx'⟩
      · refine .inr ⟨some x, τ, rfl, rfl, x, rfl, ?_⟩
        rw [hat.entry, parent_link]
        cases d <;> rfl
      · have hbind := isChild_eq hat ht' d
        rw [root_branch] at hbind
        -- A child on the side of the walk: go on up. A child on the other side: the node above
        -- comes next.
        refine (em (e = d)).imp (fun hed => ?_) fun hed => ?_
        · subst hed
          have hup := at_frame_iff.mp hat
          refine ⟨ctx'.length, some p, τ, by simp, ?_, rfl, ctx', _, hup, ?_, ?_, ?_, rfl⟩
          · refine (bind_of_ok hbind _).trans ?_
            simp only [decide_true, if_true, rbParent_bind, hat.entry, parent_link]
            rfl
          · cases e <;> simp [branch]
          · rw [rest_same]
          · rw [root_branch]
        · obtain rfl := Side.eq_other_of_ne hed
          refine ⟨some x, τ, ?_, rfl, x, rfl, ?_⟩
          · refine (bind_of_ok hbind _).trans ?_
            simp only [Side.other_ne, decide_false]
            rfl
          · rw [hat.entry, parent_link, rest_other]
            rfl)
    ⟨rfl, ctx, t, h, ht, rfl, rfl, rfl⟩ hlimit
  exact ⟨elm, hloop, hparent⟩

/-- `RB_NEXT` and `RB_PREV` go on to the next element of the walk. -/
theorem rbAdvance_eq (h : At S base σ ctx (branch d.other c a x b))
    (hlimit : b.height + ctx.length < limit) :
    rbAdvance limit d (some x) σ = .ok (walk d b ++ rest d ctx).head? σ := by
  have hx := h.entry
  have hchild : (σ.entry x).child d = b.root := by
    rw [hx]
    cases d <;> rfl
  unfold rbAdvance
  rw [rbChild_bind, hchild]
  -- Without a subtree on the side of the walk the way is up, and with one it is down there.
  by_cases hb : b = .nil
  · subst hb
    have hne : branch d.other c a x .nil ≠ .nil := by cases d <;> simp [branch, Side.other]
    have hup : ctx.length < limit := by omega
    obtain ⟨elm, hclimb, hparent⟩ := climb_eq (d := d) h hne hup
    rw [root_branch] at hclimb
    have hwalk : walk d (.nil : ColorTree ν) = [] := by cases d <;> rfl
    rw [if_neg (by simp [ColorTree.root]), rbParent_bind, hx, parent_link, hwalk, List.nil_append]
    rcases ctx with - | ⟨⟨e, c', p, s⟩, ctx⟩
    · refine (bind_of_ok hclimb _).trans ?_
      rw [← hparent]
      rfl
    · have hbind := isChild_eq h hne d.other
      rw [root_branch] at hbind
      refine (bind_of_ok hbind _).trans ?_
      -- The code tests first whether the node is a child on the other side.
      by_cases hed : e = d.other
      · subst hed
        rw [rest_other, if_pos (by simp)]
        show EStateM.Result.ok (σ.entry x).parent σ = _
        rw [hx, parent_link]
        rfl
      · simp only [hed, decide_false]
        refine (bind_of_ok hclimb _).trans ?_
        rw [← hparent]
        rfl
  · have hb' : At S base σ (⟨d, c, x, a⟩ :: ctx) b := by
      rw [at_frame_iff, ← branch_other]
      exact h
    have hdown : b.height < limit := by omega
    obtain ⟨ctx', c', a', y, rfl, hside, hmost⟩ := outermost_eq hb' hb d.other hdown
    rw [if_pos (mt root_eq_none_iff.mp hb), rbChild_bind, hchild]
    refine hmost.trans ?_
    have hwalk : walk d (.nil : ColorTree ν) = [] := by cases d <;> rfl
    rw [walk_plug, rest_eq_nil hside, walk_branch, hwalk]
    rfl

end Advance

end SwiftRuntime.Freebsd
