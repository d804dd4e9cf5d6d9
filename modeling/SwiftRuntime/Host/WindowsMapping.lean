import SwiftRuntime.Host.WindowsImpl

/-!
# The tracker represents the mapping

`Represents` ties the trackers of the Windows implementation and the regions of the system to one
list of mappings. `Represents.map` and `Represents.unmapOnePlaceholder` are the step lemmas: they
say what a call does to the list. `Represents.unmap` goes on to the loop of `Unmap`, in which every
pass takes one mapping out of the range, and `Represents.exec` to the function from offsets to host
offsets. `tracker_represents_mapping` carries it along a run.
-/

namespace SwiftRuntime.Host

open Placeholders

namespace WindowsImpl

/-! ## The steps -/

/-- The trackers, the placeholders and views of the system, and the mappings agree, and no call of
the system has failed. -/
structure Represents (s : WindowsImpl) (ms : List Mapping) : Prop extends s.Tracks ms where
  /-- The mappings lie inside the reservation. -/
  inside : Inside 0 ms s.virtualSize
  /-- Every gap between them is a single placeholder. -/
  regions : s.regions = fill 0 ms s.virtualSize
  /-- No warning has been logged. -/
  calm : s.warnings = []

/-- The whole space is one placeholder at the start. -/
theorem represents_construct {size : ℕ} (h : 0 < size) : (construct size).Represents [] where
  placeholders := rfl
  hosts := by simp
  keys := by simp [construct]
  inside := Nat.zero_le size
  regions := (gap_of_lt h).symm
  calm := rfl

section Steps

variable {s : WindowsImpl} {before after ms : List Mapping} {m : Mapping} {a len : ℕ}

/-- The trackers define the function of the mappings. -/
theorem Represents.trackedAt_eq (h : s.Represents ms) (x : ℕ) : s.trackedAt x = hostAt ms x := by
  have hhosts := h.hosts
  unfold trackedAt
  rw [h.placeholders]
  clear h
  induction ms with
  | nil => rfl
  | cons m ms ih =>
    have ih := ih fun m' hm' => hhosts m' (List.mem_cons_of_mem _ hm')
    rw [hostAt_cons, m.hostAt_region, ← ih, List.map_cons, List.find?_cons]
    -- The first interval with the address is that of the first mapping with it.
    by_cases hx : m.lower ≤ x ∧ x < m.upper
    · have htest : decide ((interval m).lower ≤ x ∧ x < (interval m).upper) = true :=
        decide_eq_true hx
      rw [htest, if_pos hx]
      simp [interval, hhosts m List.mem_cons_self]
    · have htest : decide ((interval m).lower ≤ x ∧ x < (interval m).upper) = false :=
        decide_eq_false hx
      rw [htest, if_neg hx, Option.none_or]

/-- The calls of the system that `UnmapOnePlaceholder` makes leave the tiling of the mappings that
stay. -/
theorem Represents.reopen_coalesce {unmapBegin unmapEnd : ℕ}
    (h : s.Represents (before ++ m :: after)) (hb : m.lower ≤ unmapBegin)
    (hlt : unmapBegin < unmapEnd) (he : unmapEnd ≤ m.upper) :
    (s.reopen (interval m) m.host unmapBegin unmapEnd).coalesceAround before.length (interval m)
        unmapBegin unmapEnd =
      { s with regions := fill 0 ((before ++ leftPart m unmapBegin) ++
          (rightPart m unmapEnd ++ after)) s.virtualSize } := by
  obtain ⟨hin, hm, -⟩ := inside_append_iff.mp h.inside
  have hregions : s.regions = (fillTo 0 before ++ gap (endOf 0 before) m.lower) ++ m.region ::
      (gap m.upper (startOf s.virtualSize after) ++ fillFrom s.virtualSize after) := by
    rw [h.regions, fill_append, fillFrom_cons, List.append_assoc]
    rfl
  have hfront : Below m.lower (fillTo 0 before ++ gap (endOf 0 before) m.lower) :=
    (hin.below_fillTo.mono hm).append below_gap
  rw [reopen_spec hregions hfront hb hlt he, List.append_assoc]
  exact coalesceAround_spec h.placeholders h.inside hb hlt rfl he

/-- The parts of a mapping that stay lie where the mapping was. -/
theorem inside_parts {p q unmapBegin unmapEnd : ℕ} (h : Inside p (before ++ m :: after) q)
    (hlt : unmapBegin < unmapEnd) (hb : m.lower ≤ unmapBegin) (he : unmapEnd ≤ m.upper) :
    Inside p ((before ++ leftPart m unmapBegin) ++ (rightPart m unmapEnd ++ after)) q := by
  obtain ⟨hin, hm, hm', hafter⟩ := inside_append_iff.mp h
  -- What stays on the right starts after the range that goes.
  have hright : ∀ x, x ≤ unmapEnd → Inside x (rightPart m unmapEnd ++ after) q := by
    intro x hx
    unfold rightPart
    split_ifs with hsplit
    · exact ⟨hx, hsplit, hafter⟩
    · exact hafter.mono (by omega)
  rw [List.append_assoc]
  refine inside_append_iff.mpr ⟨hin, ?_⟩
  unfold leftPart
  split_ifs with hsplit
  · exact ⟨hm, hsplit, hright unmapBegin hlt.le⟩
  · exact hright _ (by omega)

/-- `UnmapOnePlaceholder` on the first mapping that meets the range. -/
theorem Represents.unmapOnePlaceholder (h : s.Represents (before ++ m :: after))
    (hbefore : ∀ x ∈ before, x.upper ≤ a) (hlow : a < m.upper) (hhigh : m.lower < a + len)
    (hlen : 0 < len) :
    ∃ s', s.unmapOnePlaceholder a len = some (true, s') ∧ s'.virtualSize = s.virtualSize ∧
      s'.Represents ((before ++ leftPart m (max a m.lower)) ++
        (rightPart m (min (a + len) m.upper) ++ after)) := by
  obtain ⟨-, -, hm, -⟩ := inside_append_iff.mp h.inside
  have hfind : IntervalSet.find a (a + len) s.placeholders = before.length := by
    rw [h.placeholders, List.map_append, List.map_cons, IntervalSet.find]
    refine (findIdx_at (fun i hi => ?_) ?_).trans (List.length_map _)
    · obtain ⟨x, hx, rfl⟩ := List.mem_map.mp hi
      have := hbefore x hx
      exact decide_eq_false fun hn => absurd hn.1 (Nat.not_lt.mpr this)
    · exact decide_eq_true ⟨hlow, hhigh⟩
  have hget : s.placeholders[before.length]? = some (interval m) := by
    rw [h.placeholders]
    exact getElem?_map_interval
  have hhost : s.placeholderHostPointers (interval m).lower = some m.host :=
    h.hosts m (List.mem_append_right _ List.mem_cons_self)
  have hbegin : m.lower ≤ max a m.lower := Nat.le_max_right ..
  have hpart : max a m.lower < min (a + len) m.upper := by omega
  have hend : min (a + len) m.upper ≤ m.upper := Nat.min_le_right ..
  have hasserts : (max a (interval m).lower ≥ (interval m).lower ∧
      max a (interval m).lower < (interval m).upper) ∧
      min (a + len) (interval m).upper ≤ (interval m).upper ∧
      min (a + len) (interval m).upper > (interval m).lower := by
    dsimp only [interval]
    omega
  have hsystem := h.reopen_coalesce hbegin hpart hend
  -- The trackers of the state after the calls of the system are those from before.
  generalize hs1 : (s.reopen (interval m) m.host (max a m.lower)
    (min (a + len) m.upper)).coalesceAround before.length (interval m) (max a m.lower)
    (min (a + len) m.upper) = s1 at hsystem
  have htracks : s1.Tracks (before ++ m :: after) := by
    rw [hsystem]
    exact ⟨h.placeholders, h.hosts, h.keys⟩
  obtain ⟨hsize, hregions, hwarnings⟩ := s1.retrack_frame before.length (interval m) m.host
    (max a m.lower) (min (a + len) m.upper)
  refine ⟨s1.retrack before.length (interval m) m.host (max a m.lower) (min (a + len) m.upper), ?_,
    ?_, htracks.retrack h.inside hbegin hpart, ?_, ?_, ?_⟩
  · rw [WindowsImpl.unmapOnePlaceholder, hfind]
    simp only [hget, hasserts, hhost]
    rw [← hs1]
    rfl
  · rw [hsize, hsystem]
  · rw [hsize, hsystem]
    exact inside_parts h.inside hpart hbegin hend
  · rw [hregions, hsize, hsystem]
  · rw [hwarnings, hsystem]
    exact h.calm

/-- `UnmapOnePlaceholder` on a range that meets no mapping. -/
theorem Represents.unmapOnePlaceholder_none (h : s.Represents ms)
    (hms : ∀ x ∈ ms, ¬ (a < x.upper ∧ x.lower < a + len)) :
    s.unmapOnePlaceholder a len = some (false, s) := by
  have hfind : IntervalSet.find a (a + len) s.placeholders = s.placeholders.length := by
    refine List.findIdx_eq_length.mpr fun i hi => ?_
    rw [h.placeholders] at hi
    obtain ⟨x, hx, rfl⟩ := List.mem_map.mp hi
    exact decide_eq_false (hms x hx)
  rw [WindowsImpl.unmapOnePlaceholder, hfind]
  simp

/-- The host addresses of what stays on the left. -/
theorem hostAt_leftPart (c x : ℕ) : hostAt (leftPart m c) x =
    if m.lower ≤ x ∧ x < c then some (m.host + (x - m.lower)) else none := by
  unfold leftPart
  split_ifs with hsplit hx hx
  · simp [hostAt_cons, Mapping.hostAt_region, hx]
  · simp [hostAt_cons, Mapping.hostAt_region, hx]
  · omega
  · rfl

/-- The host addresses of what stays on the right, which keeps its offset. -/
theorem hostAt_rightPart {c : ℕ} (hc : m.lower ≤ c) (x : ℕ) : hostAt (rightPart m c) x =
    if c ≤ x ∧ x < m.upper then some (m.host + (x - m.lower)) else none := by
  unfold rightPart
  split_ifs with hsplit hx hx
  · have hhost : m.host + c - m.lower + (x - c) = m.host + (x - m.lower) := by omega
    simp [hostAt_cons, Mapping.hostAt_region, hx, hhost]
  · simp [hostAt_cons, Mapping.hostAt_region, hx]
  · omega
  · rfl

/-- The parts of a mapping that stay have its function outside the range. -/
theorem hostAt_parts {b x : ℕ} (hx : ¬ (a ≤ x ∧ x < b)) (hlow : a < m.upper) (hhigh : m.lower < b)
    (hm : m.lower < m.upper) :
    (hostAt (leftPart m (max a m.lower)) x).or (hostAt (rightPart m (min b m.upper)) x) =
      m.region.hostAt x := by
  rw [hostAt_leftPart, hostAt_rightPart (by omega), m.hostAt_region]
  by_cases hin : m.lower ≤ x ∧ x < m.upper
  · rw [if_pos hin]
    by_cases hleft : x < a
    · rw [if_pos (by omega), Option.some_or]
    · rw [if_neg (by omega), if_pos (by omega), Option.none_or]
  · rw [if_neg hin, if_neg (by omega), if_neg (by omega), Option.none_or]

/-- The number of mappings that meet a range. -/
def meeting (a b : ℕ) (ms : List Mapping) : ℕ := ms.countP fun m => a < m.upper ∧ m.lower < b

/-- The parts of a mapping that stay do not meet the range. -/
theorem meeting_parts {b : ℕ} (hlow : a < m.upper) (hhigh : m.lower < b) :
    meeting a b ((before ++ leftPart m (max a m.lower)) ++ (rightPart m (min b m.upper) ++ after)) <
      meeting a b (before ++ m :: after) := by
  -- Neither part meets the range, so the mapping is the one that no longer does.
  have hleft : meeting a b (leftPart m (max a m.lower)) = 0 := by
    unfold leftPart
    split_ifs
    · simp only [meeting, List.countP_singleton]
      rw [if_neg]
      simp only [decide_eq_true_eq]
      omega
    · rfl
  have hright : meeting a b (rightPart m (min b m.upper)) = 0 := by
    unfold rightPart
    split_ifs
    · simp only [meeting, List.countP_singleton]
      rw [if_neg]
      simp only [decide_eq_true_eq]
      omega
    · rfl
  have hcons : meeting a b (m :: after) = meeting a b after + 1 :=
    List.countP_cons_of_pos (decide_eq_true ⟨hlow, hhigh⟩)
  unfold meeting at *
  rw [List.countP_append, List.countP_append, List.countP_append, List.countP_append, hleft, hright,
    hcons]
  omega

/-- `Unmap` returns, and takes exactly the range out of the mapping. -/
theorem Represents.unmap (h : s.Represents ms) (hlen : 0 < len) :
    ∃ s' ms', Returns (unmapBody a len) s (some s') ∧ s'.virtualSize = s.virtualSize ∧
      s'.Represents ms' ∧
      ∀ x, hostAt ms' x = if a ≤ x ∧ x < a + len then none else hostAt ms x := by
  -- Every pass takes one mapping out of the range.
  induction hn : meeting a (a + len) ms using Nat.strong_induction_on generalizing s ms with
  | _ n ih =>
    subst hn
    rcases h.inside.overlap_or_between (a := a) (b := a + len) with
      ⟨before, m, after, rfl, hbefore, hlow, hhigh⟩ | ⟨before, after, rfl, hbefore, hafter⟩
    · obtain ⟨s1, hs1, hsize1, hrep1⟩ := h.unmapOnePlaceholder hbefore hlow hhigh hlen
      obtain ⟨s', ms', hret, hsize', hrep', hhost'⟩ := ih _ (meeting_parts hlow hhigh) hrep1 rfl
      refine ⟨s', ms', (returns_iff_of_inl (by simp [unmapBody, hs1])).mpr hret,
        hsize'.trans hsize1, hrep', fun x => ?_⟩
      rw [hhost' x]
      split_ifs with hx
      · rfl
      · obtain ⟨-, -, hm, -⟩ := inside_append_iff.mp h.inside
        have hparts := hostAt_parts hx hlow hhigh hm
        simp only [hostAt_append, hostAt_cons, Option.or_assoc, ← hparts]
    · have hnone : ∀ x ∈ before ++ after, ¬ (a < x.upper ∧ x.lower < a + len) := by
        intro x hx
        rcases List.mem_append.mp hx with hx | hx
        · have := hbefore x hx
          omega
        · have := hafter x hx
          omega
      refine ⟨s, before ++ after, .of_inr (by simp [unmapBody, h.unmapOnePlaceholder_none hnone]),
        rfl, h, fun x => ?_⟩
      split_ifs with hx
      · refine hostAt_eq_none_iff.mpr fun m hm => ?_
        have := hnone m hm
        omega
      · rfl

/-- A range strictly inside the reservation is a nieche exactly when it fills the gap it lies in. -/
theorem Represents.isNieche_iff (h : s.Represents (before ++ after))
    (hbefore : ∀ x ∈ before, x.upper ≤ a) (hafter : ∀ x ∈ after, a + len ≤ x.lower) (ha : 0 < a)
    (hlen : 0 < len) (hend : a + len < s.virtualSize) :
    s.isNiechePlaceholder a len = true ↔
      endOf 0 before = a ∧ startOf s.virtualSize after = a + len := by
  obtain ⟨hin, -⟩ := inside_append_iff.mp h.inside
  have hbound : IntervalSet.upperBound (a + len) s.placeholders = before.length := by
    have hfalse : ∀ i ∈ before.map interval, decide (a + len ≤ i.lower) = false := by
      intro i hi
      obtain ⟨x, hx, rfl⟩ := List.mem_map.mp hi
      have := hbefore x hx
      have := hin.mem hx
      exact decide_eq_false fun hn => by dsimp only [interval] at hn; omega
    rw [IntervalSet.upperBound, h.placeholders]
    cases after with
    | nil =>
      rw [List.append_nil, List.findIdx_eq_length.mpr hfalse, List.length_map]
    | cons x xs =>
      rw [List.map_append, List.map_cons]
      exact (findIdx_at hfalse (decide_eq_true (hafter x List.mem_cons_self))).trans
        (List.length_map _)
  have hprev : IntervalSet.prevUpper s.placeholders before.length = endOf 0 before := by
    rw [h.placeholders, prevUpper_at]
  unfold isNiechePlaceholder
  rw [hbound]
  cases after with
  | nil =>
    -- The gap goes to the end of the reservation, which the range does not reach.
    have hget : s.placeholders[before.length]? = none := by simp [h.placeholders]
    simp only [hget, startOf]
    constructor
    · intro hn
      cases hn
    · omega
  | cons x xs =>
    have hget : s.placeholders[before.length]? = some (interval x) := by
      rw [h.placeholders]
      exact getElem?_map_interval
    have hlower : (interval x).lower = x.lower := rfl
    simp only [hget, startOf, hlower, hprev]
    rcases List.eq_nil_or_concat before with rfl | ⟨before', m', rfl⟩
    · -- The gap goes from the beginning of the reservation, where the range does not begin.
      simp only [endOf, List.length_nil]
      split_ifs <;> simp <;> omega
    · have hne : (before'.concat m').length ≠ 0 := by simp
      split_ifs with hx
      · simp [hx]
      · simp [hx]

section Map

variable {host : ℕ} (h : s.Represents (before ++ after)) (hbefore : ∀ x ∈ before, x.upper ≤ a)
  (hafter : ∀ x ∈ after, a + len ≤ x.lower) (ha : 0 < a) (hlen : 0 < len)
  (hend : a + len < s.virtualSize)
include h hbefore hafter

/-- The range lies in the gap between the mappings before and after it. -/
theorem Represents.between (hend : a + len < s.virtualSize) :
    endOf 0 before ≤ a ∧ a + len ≤ startOf s.virtualSize after := by
  constructor
  · rcases List.eq_nil_or_concat before with rfl | ⟨before', m', rfl⟩
    · exact Nat.zero_le a
    · rw [List.concat_eq_append, endOf_concat]
      exact hbefore m' (by simp)
  · cases after with
    | nil => exact hend.le
    | cons x xs => exact hafter x List.mem_cons_self

include ha hlen hend

/-- Before the view is mapped, the range is a placeholder of its own: either it fills its gap, or
the placeholder of the gap is split at the range, which is a proper part of it. -/
theorem Represents.opened :
    (if s.isNiechePlaceholder a len then s else s.split a len) =
      { s with regions := fillTo 0 before ++ (gap (endOf 0 before) a ++ .free a (a + len) ::
          (gap (a + len) (startOf s.virtualSize after) ++ fillFrom s.virtualSize after)) } := by
  obtain ⟨hin, -⟩ := inside_append_iff.mp h.inside
  obtain ⟨hlow, hhigh⟩ := h.between hbefore hafter hend
  have hnieche := h.isNieche_iff hbefore hafter ha hlen hend
  have hregions := h.regions
  rw [fill_append, gap_of_lt (by omega)] at hregions
  -- A range that is the whole gap has its placeholder already.
  by_cases hn : s.isNiechePlaceholder a len = true
  · obtain ⟨he, hs⟩ := hnieche.mp hn
    rw [if_pos hn, he, hs, gap_self, gap_self, List.nil_append, List.nil_append]
    rw [he, hs] at hregions
    rw [← List.singleton_append, ← hregions]
  · rw [if_neg hn]
    refine issue_ok ?_
    rw [hregions]
    exact split_at (hin.below_fillTo.mono hlow) hlow (by omega) hhigh fun he => hn (hnieche.mpr he)

/-- `Map` adds its range to the mapping. -/
theorem Represents.map :
    ∃ s', s.map a host len = some s' ∧ s'.virtualSize = s.virtualSize ∧
      s'.Represents (before ++ ⟨a, a + len, host⟩ :: after) := by
  obtain ⟨hin, hin'⟩ := inside_append_iff.mp h.inside
  obtain ⟨hlow, hhigh⟩ := h.between hbefore hafter hend
  have hopened := h.opened hbefore hafter ha hlen hend
  generalize hs1 : (if s.isNiechePlaceholder a len then s else s.split a len) = s1 at hopened
  have htracks1 : s1.Tracks (before ++ after) := by
    rw [hopened]
    exact ⟨h.placeholders, h.hosts, h.keys⟩
  have hfind : IntervalSet.find a (a + len) s1.placeholders = s1.placeholders.length := by
    refine List.findIdx_eq_length.mpr fun i hi => ?_
    rw [htracks1.placeholders] at hi
    obtain ⟨x, hx, rfl⟩ := List.mem_map.mp hi
    refine decide_eq_false fun hn => ?_
    dsimp only [interval] at hn
    rcases List.mem_append.mp hx with hx | hx
    · have := hbefore x hx
      omega
    · have := hafter x hx
      omega
  have htracks := htracks1.track (m := ⟨a, a + len, host⟩)
    (fun x hx => by have := hbefore x hx; have := hin.mem hx; dsimp only; omega)
    (fun x hx => by have := hafter x hx; dsimp only; omega) (by dsimp only; omega)
  rw [Nat.add_sub_cancel_left] at htracks
  generalize hs2 : s1.trackPlaceholder a host len = s2 at htracks
  have hframe : s2.regions = s1.regions ∧ s2.virtualSize = s1.virtualSize ∧
      s2.warnings = s1.warnings := by
    rw [← hs2]
    exact ⟨rfl, rfl, rfl⟩
  -- The placeholder of the range becomes a view.
  have hview : s2.mapView a host len = { s2 with regions := fillTo 0 before ++
      (gap (endOf 0 before) a ++ .view a (a + len) host ::
        (gap (a + len) (startOf s.virtualSize after) ++ fillFrom s.virtualSize after)) } := by
    refine issue_ok ?_
    rw [hframe.1, hopened, ← List.append_assoc, ← List.append_assoc]
    exact mapView_at ((hin.below_fillTo.mono hlow).append below_gap)
  refine ⟨s2.mapView a host len, ?_, ?_, ?_⟩
  · rw [WindowsImpl.map, hs1, if_pos hfind, hs2]
  · rw [hview, hframe.2.1, hopened]
  · rw [hview]
    refine ⟨⟨htracks.placeholders, htracks.hosts, htracks.keys⟩, ?_, ?_, ?_⟩
    · dsimp only
      rw [hframe.2.1, hopened]
      refine inside_append_iff.mpr ⟨hin, hlow, by dsimp only; omega, ?_⟩
      cases after with
      | nil => exact hend.le
      | cons x xs => exact ⟨hhigh, hin'.2⟩
    · dsimp only
      rw [hframe.2.1, hopened, fill_append, fillFrom_cons]
      rfl
    · dsimp only
      rw [hframe.2.2, hopened]
      exact h.calm

end Map

end Steps

end WindowsImpl

/-! ## Runs -/

namespace ImplCall

/-- What a call does to the function from offsets to host offsets, one offset at a time. -/
def onMapping : ImplCall → (ℕ → Option ℕ) → ℕ → Option ℕ
  | map virtualOffset hostOffset length, f, x =>
    if virtualOffset.toNat ≤ x ∧ x < virtualOffset.toNat + length.toNat then
      some (hostOffset.toNat + (x - virtualOffset.toNat))
    else f x
  | unmap virtualOffset length, f, x =>
    if virtualOffset.toNat ≤ x ∧ x < virtualOffset.toNat + length.toNat then none else f x
  | free .., f, x => f x
  | protect .., f, x => f x

/-- The function after a run of calls on an empty mapping. -/
def naive (calls : List ImplCall) : ℕ → Option ℕ :=
  calls.foldl (fun f c => c.onMapping f) fun _ => none

/-- The range of a call is not empty and lies strictly inside the reservation. -/
def StrictlyInside (size : ℕ) : ImplCall → Prop
  | map virtualOffset _ length | unmap virtualOffset length =>
    0 < virtualOffset.toNat ∧ 0 < length.toNat ∧ virtualOffset.toNat + length.toNat < size
  | free .. | protect .. => True

/-- The range of a `Map` is not mapped. -/
def Disjoint (f : ℕ → Option ℕ) : ImplCall → Prop
  | map virtualOffset _ length =>
    ∀ x, virtualOffset.toNat ≤ x → x < virtualOffset.toNat + length.toNat → f x = none
  | _ => True

/-- Every `Map` of a run is disjoint from what is mapped when it is called. -/
def AllDisjoint : (ℕ → Option ℕ) → List ImplCall → Prop
  | _, [] => True
  | f, c :: calls => c.Disjoint f ∧ AllDisjoint (c.onMapping f) calls

end ImplCall

section Through

open HostMemory

/-- A call whose range lies in the window has it strictly inside the reservation, if the window
is. -/
theorem ImplCall.strictlyInside_of_callInside {m : HostMemory} {impl : Impl} {op : MemoryOp}
    {c : ImplCall} (hlow : impl.virtualBase.toNat < m.virtualBase.toNat)
    (hhigh : m.virtualBase.toNat + m.virtualSize.toNat <
      impl.virtualBase.toNat + impl.virtualSize.toNat)
    (hcall : m.CallInside impl c) (hexec : op.exec m = some (some c)) :
    c.StrictlyInside impl.virtualSize.toNat := by
  -- A call is only made when its length is not zero.
  have hpos : ∀ length : UInt64, length ≠ 0 → 0 < length.toNat := fun length hne =>
    Nat.pos_of_ne_zero fun h => hne (UInt64.toNat_inj.mp h)
  cases op with
  | map virtualOffset hostOffset length =>
    obtain ⟨-, hr⟩ := checked_eq_some_iff.mp hexec
    split_ifs at hr with hn
    cases hr
    obtain ⟨⟨h1, h2⟩, -⟩ := hcall
    exact ⟨by omega, hpos length fun h => hn (.inl h), by omega⟩
  | unmap virtualOffset length =>
    obtain ⟨-, hr⟩ := checked_eq_some_iff.mp hexec
    split_ifs at hr with hn
    cases hr
    obtain ⟨h1, h2⟩ := hcall
    exact ⟨by omega, hpos length fun h => hn (.inl h), by omega⟩
  | free hostOffset length =>
    obtain ⟨-, hr⟩ := checked_eq_some_iff.mp hexec
    split_ifs at hr with hn
    cases hr
    trivial
  | protect virtualOffset length read write exec =>
    obtain ⟨-, hr⟩ := checked_eq_some_iff.mp hexec
    split_ifs at hr with hn
    cases hr
    trivial

/-- A call that a host memory makes has a range strictly inside the reservation, as long as no sum
wraps. -/
theorem MemoryOp.strictlyInside {pageAlignment backingSize virtualSize base : UInt64}
    (hvirtual : virtualSize % pageAlignment = 0)
    (hmmap : MmapReturns (reservedSize pageAlignment virtualSize) base)
    (hsize : virtualSize.toNat + 3 * hugePageSize.toNat < 2 ^ 64) {op : MemoryOp} {c : ImplCall}
    (hexec : op.exec (createForUser pageAlignment backingSize virtualSize (some base)) =
      some (some c))
    (hw : op.NoWrap) : c.StrictlyInside (reservedSize pageAlignment virtualSize).toNat := by
  obtain ⟨-, hlow, hhigh⟩ := window_spec hvirtual hmmap hsize
  have hfits := hmmap.fits
  have hH : hugePageSize.toNat = 0x200000 := rfl
  rw [createForUser_some hmmap.base_pos] at hexec
  -- A call inside the window is strictly inside the reservation, which is larger on both sides.
  have hcall := (callInside_iff rfl rfl hmmap.base_pos (by dsimp only; omega) (by dsimp only; omega)
    hexec).mpr hw c rfl
  have hstrict := ImplCall.strictlyInside_of_callInside (by dsimp only; omega) (by exact hhigh)
    hcall hexec
  exact hstrict

end Through

namespace WindowsImpl

variable {s s' : WindowsImpl} {ms : List Mapping} {c : ImplCall} {calls : List ImplCall}

/-- A call does to the mapping what it does one offset at a time. -/
theorem Represents.exec (h : s.Represents ms) (hin : c.StrictlyInside s.virtualSize)
    (hdisj : c.Disjoint (hostAt ms)) :
    ∃ s' ms', Exec c s s' ∧ s'.virtualSize = s.virtualSize ∧ s'.Represents ms' ∧
      hostAt ms' = c.onMapping (hostAt ms) := by
  cases c with
  | map virtualOffset hostOffset length =>
    obtain ⟨hpos, hlen, hend⟩ := hin
    rcases h.inside.overlap_or_between (a := virtualOffset.toNat)
      (b := virtualOffset.toNat + length.toNat) with
      ⟨before, m, after, rfl, -, hlow, hhigh⟩ | ⟨before, after, rfl, hbefore, hafter⟩
    · -- A mapping in the range would map its first offset there.
      obtain ⟨-, -, hm, -⟩ := inside_append_iff.mp h.inside
      have hnone := hdisj (max virtualOffset.toNat m.lower) (by omega) (by omega)
      have := hostAt_eq_none_iff.mp hnone m (by simp)
      omega
    · obtain ⟨s', hmap, hsize, hrep⟩ := h.map hbefore hafter hpos hlen hend
      refine ⟨s', _, hmap, hsize, hrep, funext fun x => ?_⟩
      simp only [ImplCall.onMapping, hostAt_append, hostAt_cons, Mapping.hostAt_region]
      split_ifs with hx
      · have hnone : hostAt before x = none := hostAt_eq_none_iff.mpr fun m hm => by
          have := hbefore m hm
          omega
        rw [hnone, Option.none_or, Option.some_or]
      · rw [Option.none_or]
  | unmap virtualOffset length =>
    obtain ⟨-, hlen, -⟩ := hin
    obtain ⟨s', ms', hret, hsize, hrep, hhost⟩ := h.unmap (a := virtualOffset.toNat) hlen
    exact ⟨s', ms', hret, hsize, hrep, funext hhost⟩
  | free => exact ⟨s, ms, rfl, rfl, h, rfl⟩
  | protect => exact ⟨s, ms, rfl, rfl, h, rfl⟩

/-- A call has one result. -/
theorem Exec.unique {s'' : WindowsImpl} (h : Exec c s s') (h' : Exec c s s'') : s' = s'' := by
  cases c with
  | map => exact Option.some.inj (Eq.trans (Eq.symm h) h')
  | unmap => exact Option.some.inj (Returns.unique h h')
  | free => exact Eq.trans h (Eq.symm h')
  | protect => exact Eq.trans h (Eq.symm h')

/-- A run of calls returns and does to the mapping what it does one offset at a time. -/
theorem Represents.run (h : s.Represents ms) (hin : ∀ c ∈ calls, c.StrictlyInside s.virtualSize)
    (hdisj : ImplCall.AllDisjoint (hostAt ms) calls) :
    ∃ s' ms', Run Exec calls s s' ∧ s'.virtualSize = s.virtualSize ∧ s'.Represents ms' ∧
      hostAt ms' = calls.foldl (fun f c => c.onMapping f) (hostAt ms) := by
  induction calls generalizing s ms with
  | nil => exact ⟨s, ms, .nil s, rfl, h, rfl⟩
  | cons c calls ih =>
    obtain ⟨s1, ms1, hexec, hsize1, hrep1, hhost1⟩ := h.exec (hin c List.mem_cons_self) hdisj.1
    obtain ⟨s', ms', hrun, hsize', hrep', hhost'⟩ := ih hrep1
      (fun c' hc' => hsize1 ▸ hin c' (List.mem_cons_of_mem _ hc')) (hhost1 ▸ hdisj.2)
    refine ⟨s', ms', .cons hexec hrun, hsize'.trans hsize1, hrep', ?_⟩
    rw [hhost', hhost1, List.foldl_cons]

/-- The tracker represents the real mapping: every run of calls with ranges strictly inside the
reservation, in which no `Map` overlaps what is mapped, returns. Then the trackers and the views of
the system define the function of the naive model, the placeholders of the system are exactly the
maximal gaps of that function, and no call of the system has failed. -/
theorem tracker_represents_mapping {size : ℕ} (hsize : 0 < size)
    (hin : ∀ c ∈ calls, c.StrictlyInside size)
    (hdisj : ImplCall.AllDisjoint (fun _ => none) calls) :
    (∃ s, Run Exec calls (construct size) s) ∧
      ∀ s, Run Exec calls (construct size) s →
        (∀ x, s.trackedAt x = ImplCall.naive calls x) ∧
        (∀ x, viewAt s.regions x = ImplCall.naive calls x) ∧
        (∀ a b, .free a b ∈ s.regions ↔ MaximalGap 0 size (ImplCall.naive calls) a b) ∧
        s.warnings = [] := by
  obtain ⟨s, ms, hrun, hvirtual, hrep, hhost⟩ :=
    (represents_construct hsize).run hin hdisj
  have hnaive : hostAt ms = ImplCall.naive calls := hhost
  -- The calls have one outcome, so what holds of the run above holds of any.
  refine ⟨⟨s, hrun⟩, fun s' hrun' => ?_⟩
  obtain rfl := hrun.unique (fun _ _ _ _ => Exec.unique) hrun'
  have hvirtual : s.virtualSize = size := hvirtual
  refine ⟨fun x => ?_, fun x => ?_, fun a b => ?_, hrep.calm⟩
  · rw [hrep.trackedAt_eq, hnaive]
  · rw [hrep.regions, viewAt_fill, hnaive]
  · rw [hrep.regions, free_mem_fill_iff hrep.inside, hnaive, hvirtual]

/-- Two pages of a memory of 16 pages are mapped, and the second one is unmapped again. -/
theorem tracker_represents_partial_unmap :
    ∃ s, Run Exec [.map 0x401000 0x3000 0x2000, .unmap 0x402000 0x1000]
        (construct (HostMemory.reservedSize 0x1000 0x10000).toNat) s ∧
      s.trackedAt 0x401010 = some 0x3010 ∧ s.trackedAt 0x402010 = none ∧ s.warnings = [] := by
  have hin : ∀ c ∈ [ImplCall.map 0x401000 0x3000 0x2000, .unmap 0x402000 0x1000],
      c.StrictlyInside (HostMemory.reservedSize 0x1000 0x10000).toNat := by
    have hmmap : MmapReturns (HostMemory.reservedSize 0x1000 0x10000) 0x7f0000001000 :=
      ⟨by decide, by decide, by decide⟩
    -- Both calls are made by the host memory over a reservation at 0x7f0000001000.
    have hmap : MemoryOp.exec (.createForUser 0x1000 0x10000 0x10000 (some 0x7f0000001000))
        (.map 0x2000 0x3000 0x2000) = some (some (.map 0x401000 0x3000 0x2000)) := by decide
    have hunmap : MemoryOp.exec (.createForUser 0x1000 0x10000 0x10000 (some 0x7f0000001000))
        (.unmap 0x3000 0x1000) = some (some (.unmap 0x402000 0x1000)) := by decide
    simp only [List.mem_cons, List.not_mem_nil, or_false, forall_eq_or_imp, forall_eq]
    exact ⟨MemoryOp.strictlyInside (by decide) hmmap (by decide) hmap (by decide),
      MemoryOp.strictlyInside (by decide) hmmap (by decide) hunmap (by decide)⟩
  obtain ⟨⟨s, hrun⟩, hall⟩ := tracker_represents_mapping (by decide) hin
    ⟨fun _ _ _ => rfl, trivial, trivial⟩
  obtain ⟨htracked, -, -, hcalm⟩ := hall s hrun
  refine ⟨s, hrun, ?_, ?_, hcalm⟩
  · rw [htracked]
    decide
  · rw [htracked]
    decide

end WindowsImpl

end SwiftRuntime.Host
