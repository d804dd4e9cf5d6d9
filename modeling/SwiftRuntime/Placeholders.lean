import Mathlib.Data.List.Basic
import Mathlib.Tactic.Common

/-!
# An address range of placeholders and views

A reserved range of addresses is tiled by regions: free placeholders, and views of a host object
that have replaced a placeholder. Four calls change the tiling, and each one fails, and changes
nothing, unless its precondition holds: a placeholder is split at a proper part of it, adjacent
placeholders are coalesced, a view replaces a placeholder of exactly its bounds, and a view is
unmapped to a placeholder of its bounds.

`fill p ms q` is the tiling of the range from `p` to `q` in which the mappings `ms` are views and
everything between two of them is a single placeholder. The `_at` lemmas say what a call does at a
place in a tiling, and `fill_append` opens a tiling at such a place. `free_mem_fill_iff` says that
the placeholders of `fill` are the maximal gaps.
-/

namespace SwiftRuntime.Placeholders

/-- A region of the address range, from its first address to the one after its last. -/
inductive Region
  /-- A free placeholder. -/
  | free (lower upper : ℕ)
  /-- A view, with the host offset of its first address. -/
  | view (lower upper host : ℕ)
deriving DecidableEq, Repr

namespace Region

/-- The first address. -/
def lower : Region → ℕ
  | free lower _ => lower
  | view lower _ _ => lower

/-- The address after the last one. -/
def upper : Region → ℕ
  | free _ upper => upper
  | view _ upper _ => upper

/-- The host offset of an address, if the region is a view that holds it. -/
def hostAt : Region → ℕ → Option ℕ
  | free _ _, _ => none
  | view lower upper host, x => if lower ≤ x ∧ x < upper then some (host + (x - lower)) else none

end Region

/-! ## The calls -/

section RewriteFirst

variable {α : Type*} {f : List α → Option (List α)}

/-- The list with its first suffix that `f` applies to rewritten. -/
def rewriteFirst (f : List α → Option (List α)) : List α → Option (List α)
  | [] => none
  | r :: rs =>
    match f (r :: rs) with
    | some rs' => some rs'
    | none => (rewriteFirst f rs).map (r :: ·)

/-- The suffix that is rewritten is the first one that `f` applies to. -/
theorem rewriteFirst_at {before rs rs' : List α} {r : α}
    (hskip : ∀ x ∈ before, ∀ xs, f (x :: xs) = none) (h : f (r :: rs) = some rs') :
    rewriteFirst f (before ++ r :: rs) = some (before ++ rs') := by
  induction before with
  | nil => simp [rewriteFirst, h]
  | cons x xs ih =>
    have hx := hskip x List.mem_cons_self
    have hxs := ih fun y hy => hskip y (List.mem_cons_of_mem _ hy)
    simp [rewriteFirst, hx, hxs]

end RewriteFirst

/-- What lies between two addresses when nothing is mapped there. -/
def gap (p q : ℕ) : List Region := if p < q then [.free p q] else []

/-- A gap between two different addresses is one free region. -/
theorem gap_of_lt {p q : ℕ} (h : p < q) : gap p q = [.free p q] := if_pos h

/-- There is no gap at a single address. -/
@[simp]
theorem gap_self (p : ℕ) : gap p p = [] := if_neg (Nat.lt_irrefl p)

/-- Splitting the first region, a placeholder, at a proper part. -/
def splitHead (a b : ℕ) : List Region → Option (List Region)
  | .free p q :: rs =>
    if p ≤ a ∧ b ≤ q ∧ ¬ (p = a ∧ q = b) then some (gap p a ++ .free a b :: (gap b q ++ rs))
    else none
  | _ => none

/-- A placeholder is split at a proper part of it. -/
def split (a b : ℕ) : List Region → Option (List Region) := rewriteFirst (splitHead a b)

/-- The regions after the placeholders that tile the range from `p` to `b`. -/
def absorb (b : ℕ) : ℕ → List Region → Option (List Region)
  | p, .free lower upper :: rs =>
    if lower = p then if upper = b then some rs else absorb b upper rs else none
  | _, _ => none

/-- Coalescing the first region, a placeholder, with one or more after it. -/
def coalesceHead (a b : ℕ) : List Region → Option (List Region)
  | .free p q :: rs =>
    if p = a ∧ q < b then (absorb b q rs).map (.free a b :: ·) else none
  | _ => none

/-- Two or more adjacent placeholders are coalesced. -/
def coalesce (a b : ℕ) : List Region → Option (List Region) := rewriteFirst (coalesceHead a b)

/-- Replacing the first region, a placeholder of given bounds, by a view. -/
def mapHead (a b host : ℕ) : List Region → Option (List Region)
  | .free p q :: rs => if p = a ∧ q = b then some (.view a b host :: rs) else none
  | _ => none

/-- A view replaces a placeholder of exactly its bounds. -/
def mapView (a b host : ℕ) : List Region → Option (List Region) := rewriteFirst (mapHead a b host)

/-- Replacing the first region, a view that begins at a given address, by a placeholder. -/
def unmapHead (a : ℕ) : List Region → Option (List Region)
  | .view p q _ :: rs => if p = a then some (.free p q :: rs) else none
  | _ => none

/-- A view is unmapped, and a placeholder of its bounds stays. -/
def unmapView (a : ℕ) : List Region → Option (List Region) := rewriteFirst (unmapHead a)

/-- All regions begin before `a` and end there at the latest. -/
def Below (a : ℕ) (rs : List Region) : Prop := ∀ r ∈ rs, r.lower < a ∧ r.upper ≤ a

/-- Where there are no regions, they are below every address. -/
theorem below_nil (a : ℕ) : Below a [] := by simp [Below]

/-- Regions below an address, put together. -/
theorem Below.append {a : ℕ} {rs rs' : List Region} (h : Below a rs) (h' : Below a rs') :
    Below a (rs ++ rs') := by
  intro r hr
  rcases List.mem_append.mp hr with hr | hr
  · exact h r hr
  · exact h' r hr

/-- What is below an address is below a higher one. -/
theorem Below.mono {a b : ℕ} {rs : List Region} (h : Below a rs) (hle : a ≤ b) : Below b rs := by
  intro r hr
  have := h r hr
  omega

/-- A gap is below its upper end. -/
theorem below_gap {p q : ℕ} : Below q (gap p q) := by
  intro r hr
  unfold gap at hr
  split_ifs at hr with hlt
  · rw [List.mem_singleton.mp hr]
    exact ⟨hlt, Nat.le_refl q⟩
  · cases hr

section At

variable {before rest : List Region} {a b p q host : ℕ}

/-- Splitting a placeholder leaves what is around the new one. -/
theorem split_at (hbefore : Below a before) (hp : p ≤ a) (hab : a < b) (hq : b ≤ q)
    (hproper : ¬ (p = a ∧ q = b)) :
    split a b (before ++ .free p q :: rest) =
      some (before ++ (gap p a ++ .free a b :: (gap b q ++ rest))) := by
  refine rewriteFirst_at (fun r hr rs => ?_) (if_pos ⟨hp, hq, hproper⟩)
  have hr := hbefore r hr
  cases r with
  | free lower upper =>
    refine if_neg fun h => ?_
    simp only [Region.lower, Region.upper] at hr
    omega
  | view => rfl

/-- Two placeholders in a row become one. -/
theorem coalesce_at (hbefore : Below a before) (hpb : p < b) :
    coalesce a b (before ++ .free a p :: .free p b :: rest) =
      some (before ++ .free a b :: rest) := by
  refine rewriteFirst_at (fun r hr rs => ?_) ?_
  · have hr := hbefore r hr
    cases r with
    | free lower upper =>
      refine if_neg fun h => ?_
      simp only [Region.lower] at hr
      omega
    | view => rfl
  · simp [coalesceHead, absorb, hpb]

/-- A view takes the place of the placeholder of its range. -/
theorem mapView_at (hbefore : Below a before) :
    mapView a b host (before ++ .free a b :: rest) = some (before ++ .view a b host :: rest) := by
  refine rewriteFirst_at (fun r hr rs => ?_) (if_pos ⟨rfl, rfl⟩)
  have hr := hbefore r hr
  cases r with
  | free lower upper =>
    refine if_neg fun h => ?_
    simp only [Region.lower] at hr
    omega
  | view => rfl

/-- A placeholder takes the place of the view. -/
theorem unmapView_at (hbefore : Below a before) :
    unmapView a (before ++ .view a b host :: rest) = some (before ++ .free a b :: rest) := by
  refine rewriteFirst_at (fun r hr rs => ?_) (if_pos rfl)
  have hr := hbefore r hr
  cases r with
  | free => rfl
  | view lower upper host =>
    refine if_neg fun h => ?_
    simp only [Region.lower] at hr
    omega

end At

/-! ## Tilings -/

/-- A mapping of the addresses from `lower` to `upper` to host offsets from `host` on. -/
structure Mapping where
  /-- The first address. -/
  lower : ℕ
  /-- The address after the last one. -/
  upper : ℕ
  /-- The host offset of the first address. -/
  host : ℕ
deriving DecidableEq, Repr

namespace Mapping

/-- The view of a mapping. -/
def region (m : Mapping) : Region := .view m.lower m.upper m.host

end Mapping

/-- The mappings lie one after the other between `p` and `q`, and none is empty. -/
def Inside : ℕ → List Mapping → ℕ → Prop
  | p, [], q => p ≤ q
  | p, m :: ms, q => p ≤ m.lower ∧ m.lower < m.upper ∧ Inside m.upper ms q

/-- Where the mappings end. -/
def endOf (p : ℕ) : List Mapping → ℕ
  | [] => p
  | m :: ms => endOf m.upper ms

/-- Where the mappings begin. -/
def startOf (q : ℕ) : List Mapping → ℕ
  | [] => q
  | m :: _ => m.lower

/-- The tiling with one view for every mapping and one placeholder between two of them. -/
def fill (p : ℕ) : List Mapping → ℕ → List Region
  | [], q => gap p q
  | m :: ms, q => gap p m.lower ++ m.region :: fill m.upper ms q

/-- The tiling up to the last view. -/
def fillTo (p : ℕ) : List Mapping → List Region
  | [] => []
  | m :: ms => gap p m.lower ++ m.region :: fillTo m.upper ms

/-- The tiling from the first view on. -/
def fillFrom (q : ℕ) : List Mapping → List Region
  | [] => []
  | m :: ms => m.region :: fill m.upper ms q

variable {p q : ℕ} {ms ms' : List Mapping} {m : Mapping}

/-- The range that mappings are inside of does not end before it starts. -/
theorem Inside.le (h : Inside p ms q) : p ≤ q := by
  induction ms generalizing p with
  | nil => exact h
  | cons m ms ih =>
    obtain ⟨h1, h2, h3⟩ := h
    have := ih h3
    omega

/-- Mappings inside of a range are inside of one that starts earlier. -/
theorem Inside.mono {p' : ℕ} (h : Inside p ms q) (hle : p' ≤ p) : Inside p' ms q := by
  cases ms with
  | nil => exact Nat.le_trans hle h
  | cons m ms => exact ⟨Nat.le_trans hle h.1, h.2⟩

/-- The second part of the mappings lies behind the end of the first part. -/
theorem inside_append_iff :
    Inside p (ms ++ ms') q ↔ Inside p ms (endOf p ms) ∧ Inside (endOf p ms) ms' q := by
  induction ms generalizing p with
  | nil => simp [Inside, endOf]
  | cons m ms ih =>
    simp only [List.cons_append, Inside, endOf, ih]
    tauto

/-- The mappings end inside of their range. -/
theorem Inside.endOf_le (h : Inside p ms q) : p ≤ endOf p ms ∧ endOf p ms ≤ q := by
  rw [← ms.append_nil, inside_append_iff] at h
  exact ⟨h.1.le, h.2⟩

/-- The mappings start inside of their range. -/
theorem Inside.startOf_le (h : Inside p ms q) : p ≤ startOf q ms ∧ startOf q ms ≤ q := by
  cases ms with
  | nil => exact ⟨h, Nat.le_refl q⟩
  | cons m ms =>
    obtain ⟨h1, h2, h3⟩ := h
    have := h3.le
    exact ⟨h1, by simp only [startOf]; omega⟩

/-- Every mapping lies inside of the range, and is not empty. -/
theorem Inside.mem (h : Inside p ms q) (hm : m ∈ ms) :
    p ≤ m.lower ∧ m.lower < m.upper ∧ m.upper ≤ q := by
  induction ms generalizing p with
  | nil => cases hm
  | cons m' ms ih =>
    obtain ⟨h1, h2, h3⟩ := h
    rcases List.mem_cons.mp hm with rfl | hm
    · exact ⟨h1, h2, h3.le⟩
    · have := ih h3 hm
      exact ⟨by omega, this.2⟩

/-- A range that is not empty meets a first mapping, or lies between two of them. -/
theorem Inside.overlap_or_between {a b : ℕ} (h : Inside p ms q) :
    (∃ before m after, ms = before ++ m :: after ∧ (∀ x ∈ before, x.upper ≤ a) ∧ a < m.upper ∧
        m.lower < b) ∨
      ∃ before after, ms = before ++ after ∧ (∀ x ∈ before, x.upper ≤ a) ∧
        ∀ x ∈ after, b ≤ x.lower := by
  induction ms generalizing p with
  | nil => exact .inr ⟨[], [], rfl, by simp, by simp⟩
  | cons m ms ih =>
    obtain ⟨h1, h2, h3⟩ := h
    -- A mapping that ends before the range is passed over, and the next ones decide.
    by_cases hle : m.upper ≤ a
    · have hcons : ∀ before : List Mapping, (∀ x ∈ before, x.upper ≤ a) →
          ∀ x ∈ m :: before, x.upper ≤ a := by
        intro before hbefore x hx
        rcases List.mem_cons.mp hx with rfl | hx
        · exact hle
        · exact hbefore x hx
      rcases ih h3 with
        ⟨before, m', after, rfl, hbefore, hm'⟩ | ⟨before, after, rfl, hbefore, hafter⟩
      · exact .inl ⟨m :: before, m', after, rfl, hcons before hbefore, hm'⟩
      · exact .inr ⟨m :: before, after, rfl, hcons before hbefore, hafter⟩
    -- Otherwise the mapping meets the range, or comes after it like all that follow.
    · by_cases hlt : m.lower < b
      · exact .inl ⟨[], m, ms, rfl, by simp, by omega, hlt⟩
      · refine .inr ⟨[], m :: ms, rfl, by simp, fun x hx => ?_⟩
        rcases List.mem_cons.mp hx with rfl | hx
        · omega
        · have := h3.mem hx
          omega

/-- The mappings end where the last one does. -/
theorem endOf_concat : endOf p (ms ++ [m]) = m.upper := by
  induction ms generalizing p with
  | nil => rfl
  | cons _ ms ih => exact ih

/-- One more mapping fills up to its end: first the gap before it, then the mapping. -/
theorem fillTo_concat :
    fillTo p (ms ++ [m]) = fillTo p ms ++ (gap (endOf p ms) m.lower ++ [m.region]) := by
  induction ms generalizing p with
  | nil => rfl
  | cons m' ms ih => simp [fillTo, endOf, ih]

/-- The regions of a range start with the gap before the first mapping. -/
theorem fill_eq : fill p ms q = gap p (startOf q ms) ++ fillFrom q ms := by
  cases ms with
  | nil => simp [fill, startOf, fillFrom]
  | cons m ms => rfl

/-- The regions from a mapping on: the mapping, the gap behind it, and the rest. -/
theorem fillFrom_cons :
    fillFrom q (m :: ms) = m.region :: (gap m.upper (startOf q ms) ++ fillFrom q ms) := by
  rw [← fill_eq]
  rfl

/-- A tiling, opened between two of its mappings. -/
theorem fill_append :
    fill p (ms ++ ms') q =
      fillTo p ms ++ (gap (endOf p ms) (startOf q ms') ++ fillFrom q ms') := by
  induction ms generalizing p with
  | nil => exact fill_eq
  | cons m ms ih => simp [fill, fillTo, endOf, ih]

/-- The regions up to the end of the mappings are below that end. -/
theorem Inside.below_fillTo (h : Inside p ms q) : Below (endOf p ms) (fillTo p ms) := by
  induction ms generalizing p with
  | nil => exact below_nil p
  | cons m ms ih =>
    obtain ⟨h1, h2, h3⟩ := h
    have hend := h3.endOf_le.1
    have hlast : Below (endOf m.upper ms) (m.region :: fillTo m.upper ms) := by
      intro r hr
      rcases List.mem_cons.mp hr with rfl | hr
      · exact ⟨by simp only [Mapping.region, Region.lower]; omega, hend⟩
      · exact ih h3 r hr
    have hfirst : m.lower ≤ endOf m.upper ms := by omega
    exact (below_gap.mono hfirst).append hlast

/-! ## The function of a tiling -/

/-- The host offset of an address in a tiling. -/
def viewAt (rs : List Region) (x : ℕ) : Option ℕ := rs.findSome? (·.hostAt x)

/-- The host offset of an address under mappings. -/
def hostAt (ms : List Mapping) (x : ℕ) : Option ℕ := ms.findSome? (·.region.hostAt x)

/-- The host address behind an address of a mapping. -/
theorem Mapping.hostAt_region (m : Mapping) (x : ℕ) :
    m.region.hostAt x =
      if m.lower ≤ x ∧ x < m.upper then some (m.host + (x - m.lower)) else none := rfl

/-- Without mappings no address has a host address. -/
@[simp]
theorem hostAt_nil (x : ℕ) : hostAt [] x = none := rfl

/-- The host address is that of the first mapping, or of the others. -/
theorem hostAt_cons (x : ℕ) : hostAt (m :: ms) x = (m.region.hostAt x).or (hostAt ms x) := by
  simp only [hostAt, List.findSome?_cons]
  cases m.region.hostAt x <;> rfl

/-- The host address is that of the first part of the mappings, or of the second. -/
theorem hostAt_append (x : ℕ) : hostAt (ms ++ ms') x = (hostAt ms x).or (hostAt ms' x) := by
  simp [hostAt]

/-- An address has no host offset exactly when no mapping holds it. -/
theorem hostAt_eq_none_iff {x : ℕ} :
    hostAt ms x = none ↔ ∀ m ∈ ms, ¬ (m.lower ≤ x ∧ x < m.upper) := by
  simp [hostAt, Mapping.hostAt_region]

/-- No view is in a gap. -/
theorem viewAt_gap (x : ℕ) : viewAt (gap p q) x = none := by
  unfold gap
  split_ifs <;> rfl

/-- A tiling has the function of its mappings. -/
theorem viewAt_fill (x : ℕ) : viewAt (fill p ms q) x = hostAt ms x := by
  induction ms generalizing p with
  | nil => exact viewAt_gap x
  | cons m ms ih =>
    rw [hostAt_cons, ← ih]
    have hgap : (gap p m.lower).findSome? (·.hostAt x) = none := viewAt_gap x
    simp only [fill, viewAt, List.findSome?_append, hgap, Option.none_or, List.findSome?_cons]
    cases m.region.hostAt x <;> rfl

/-- The range from `a` to `b` is a gap that no address can be added to. -/
def MaximalGap (p q : ℕ) (f : ℕ → Option ℕ) (a b : ℕ) : Prop :=
  p ≤ a ∧ a < b ∧ b ≤ q ∧ (∀ x, a ≤ x → x < b → f x = none) ∧
    (a = p ∨ p < a ∧ f (a - 1) ≠ none) ∧ (b = q ∨ f b ≠ none)

/-- Where nothing is mapped, the whole range is the one maximal gap. -/
theorem maximalGap_nil_iff {a b : ℕ} :
    MaximalGap p q (hostAt []) a b ↔ a = p ∧ b = q ∧ p < q := by
  unfold MaximalGap
  simp only [hostAt_nil, ne_eq, not_true_eq_false, and_false, or_false, implies_true, true_and]
  omega

/-- A maximal gap lies before the first mapping, and fills what is there, or is one after it. -/
theorem maximalGap_cons_iff {a b : ℕ} (h : Inside p (m :: ms) q) :
    MaximalGap p q (hostAt (m :: ms)) a b ↔
      (a = p ∧ b = m.lower ∧ p < m.lower) ∨ MaximalGap m.upper q (hostAt ms) a b := by
  obtain ⟨h1, h2, h3⟩ := h
  have hq := h3.le
  -- Before the end of the first mapping, the others map nothing.
  have hrest : ∀ x, x < m.upper → hostAt ms x = none := fun x hx =>
    hostAt_eq_none_iff.mpr fun m' hm' => by
      have := h3.mem hm'
      omega
  have hin : ∀ x, m.lower ≤ x → x < m.upper → hostAt (m :: ms) x ≠ none := by
    intro x hl hu
    rw [hostAt_cons, m.hostAt_region, if_pos ⟨hl, hu⟩]
    simp
  have hout : ∀ x, ¬ (m.lower ≤ x ∧ x < m.upper) → hostAt (m :: ms) x = hostAt ms x := by
    intro x hx
    rw [hostAt_cons, m.hostAt_region, if_neg hx, Option.none_or]
  constructor
  · rintro ⟨ha, hab, hb, hnone, hleft, hright⟩
    have hside : b ≤ m.lower ∨ m.upper ≤ a := by
      by_contra hcon
      have := hnone (max a m.lower) (by omega) (by omega)
      exact hin _ (by omega) (by omega) this
    rcases hside with hside | hside
    · left
      have hap : a = p := by
        rcases hleft with hleft | ⟨hlt, hleft⟩
        · exact hleft
        · rw [hout _ (by omega), hrest _ (by omega)] at hleft
          exact absurd rfl hleft
      have hbm : b = m.lower := by
        rcases hright with hright | hright
        · omega
        · by_contra hne
          rw [hout _ (by omega), hrest _ (by omega)] at hright
          exact absurd rfl hright
      exact ⟨hap, hbm, by omega⟩
    · right
      refine ⟨hside, hab, hb, fun x hl hu => ?_, ?_, ?_⟩
      · rw [← hout x (by omega)]
        exact hnone x hl hu
      · rcases Nat.eq_or_lt_of_le hside with heq | hlt
        · exact .inl heq.symm
        · rcases hleft with hleft | ⟨-, hleft⟩
          · omega
          · rw [hout _ (by omega)] at hleft
            exact .inr ⟨hlt, hleft⟩
      · rw [← hout b (by omega)]
        exact hright
  · rintro (⟨rfl, rfl, hlt⟩ | ⟨ha, hab, hb, hnone, hleft, hright⟩)
    · refine ⟨Nat.le_refl a, hlt, by omega, fun x hl hu => ?_, .inl rfl,
        .inr (hin _ (Nat.le_refl _) h2)⟩
      rw [hout x (by omega), hrest x (by omega)]
    · refine ⟨by omega, hab, hb, fun x hl hu => ?_, .inr ⟨by omega, ?_⟩, ?_⟩
      · rw [hout x (by omega), hnone x hl hu]
      · rcases hleft with rfl | ⟨hlt, hleft⟩
        · exact hin _ (by omega) (by omega)
        · rw [hout _ (by omega)]
          exact hleft
      · rw [hout b (by omega)]
        exact hright

/-- The placeholders of a tiling are the maximal gaps between its mappings. -/
theorem free_mem_fill_iff {a b : ℕ} (h : Inside p ms q) :
    .free a b ∈ fill p ms q ↔ MaximalGap p q (hostAt ms) a b := by
  induction ms generalizing p with
  | nil =>
    rw [maximalGap_nil_iff]
    simp only [fill, gap]
    split_ifs with hlt <;> simp [hlt]
  | cons m ms ih =>
    rw [maximalGap_cons_iff h, ← ih h.2.2]
    simp only [fill, gap, Mapping.region, List.mem_append, List.mem_cons, reduceCtorEq, false_or]
    split_ifs with hlt <;> simp [hlt]

end SwiftRuntime.Placeholders
