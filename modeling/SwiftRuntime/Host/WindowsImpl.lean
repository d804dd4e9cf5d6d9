import SwiftRuntime.Loop
import SwiftRuntime.Placeholders
import SwiftRuntime.Host.HostMemory

/-!
# The placeholder tracker of the Windows implementation

The Windows `HostMemory::Impl` keeps the intervals it has mapped in `placeholders`, a
`boost::icl::separate_interval_set`, and the host offset of each one in `placeholder_host_pointers`,
and maintains the placeholders of the system beside them.

The interval set is a sorted list, with positions as iterators and the length as `end()`. The
reservation is a tiling of `Placeholders`: a call of the system whose precondition fails leaves it
as it is and logs a warning, as the source does. Offsets are natural numbers: the calls that are
treated here lie inside the reservation, so that no sum of the source wraps.

The lemmas here take the parts of the code one by one: what the trackers do to a list of mappings
(`Tracks`), and what the calls of the system do to the tiling of the list, `reopen_spec` for the
views and `coalesceAround_spec` for the placeholders. `Host/WindowsMapping.lean` puts them together.
-/

namespace SwiftRuntime.Host

open Placeholders

/-- A half-open interval of the interval set. -/
structure Interval where
  /-- `lower()`. -/
  lower : ℕ
  /-- `upper()`. -/
  upper : ℕ
deriving DecidableEq, Repr

namespace IntervalSet

/-- `find`: the position of the first interval that overlaps the range. -/
def find (a b : ℕ) (l : List Interval) : ℕ := l.findIdx fun i => a < i.upper ∧ i.lower < b

/-- `upper_bound`: the position of the first interval after the range. -/
def upperBound (b : ℕ) (l : List Interval) : ℕ := l.findIdx fun i => b ≤ i.lower

/-- `insert` of an interval that overlaps none. -/
def insert (i : Interval) : List Interval → List Interval
  | [] => [i]
  | j :: l => if i.lower < j.lower then i :: j :: l else j :: insert i l

/-- Where the interval before a position ends, zero at the first position. -/
def prevUpper (l : List Interval) (it : ℕ) : ℕ :=
  if it = 0 then 0 else (l[it - 1]?.map Interval.upper).getD 0

/-- Where the interval after a position begins, or the given number after the last position. -/
def nextLower (l : List Interval) (it last : ℕ) : ℕ := (l[it + 1]?.map Interval.lower).getD last

end IntervalSet

/-- The Windows `HostMemory::Impl`, with the state of its reservation in the system and the warnings
it has logged. -/
structure WindowsImpl where
  /-- `virtual_size`. -/
  virtualSize : ℕ
  /-- `placeholders`. -/
  placeholders : List Interval
  /-- `placeholder_host_pointers`. -/
  placeholderHostPointers : ℕ → Option ℕ
  /-- The regions that the reservation consists of. -/
  regions : List Region
  /-- The warnings. -/
  warnings : List String

namespace WindowsImpl

/-- The constructor: the reservation is one placeholder. -/
def construct (virtualSize : ℕ) : WindowsImpl :=
  ⟨virtualSize, [], fun _ => none, [.free 0 virtualSize], []⟩

section Code

variable (s : WindowsImpl)

/-- A call of the system. When it fails, the warning is logged. -/
def issue (call : List Region → Option (List Region)) (warning : String) : WindowsImpl :=
  match call s.regions with
  | some regions => { s with regions := regions }
  | none => { s with warnings := warning :: s.warnings }

/-- `UnmapViewOfFile2`, as `UnmapOnePlaceholder` calls it. -/
def unmapViewOfFile2 (virtualOffset : ℕ) : WindowsImpl :=
  s.issue (Placeholders.unmapView virtualOffset) "Failed to unmap placeholder"

/-- `MapView`. -/
def mapView (virtualOffset hostOffset length : ℕ) : WindowsImpl :=
  s.issue (Placeholders.mapView virtualOffset (virtualOffset + length) hostOffset)
    "Failed to map placeholder"

/-- `Split`. -/
def split (virtualOffset length : ℕ) : WindowsImpl :=
  s.issue (Placeholders.split virtualOffset (virtualOffset + length)) "Failed to split placeholder"

/-- `Coalesce`. -/
def coalesce (virtualOffset length : ℕ) : WindowsImpl :=
  s.issue (Placeholders.coalesce virtualOffset (virtualOffset + length))
    "Failed to coalesce placeholders"

/-- `TrackPlaceholder`. An `emplace` leaves the pair of a key that is there already. -/
def trackPlaceholder (virtualOffset hostOffset length : ℕ) : WindowsImpl :=
  { s with
    placeholders := IntervalSet.insert ⟨virtualOffset, virtualOffset + length⟩ s.placeholders
    placeholderHostPointers :=
      if s.placeholderHostPointers virtualOffset = none then
        Function.update s.placeholderHostPointers virtualOffset (some hostOffset)
      else s.placeholderHostPointers }

/-- `UntrackPlaceholder`. -/
def untrackPlaceholder (it : ℕ) (placeholder : Interval) : WindowsImpl :=
  { s with
    placeholderHostPointers := Function.update s.placeholderHostPointers placeholder.lower none
    placeholders := s.placeholders.eraseIdx it }

/-- `IsNiechePlaceholder`. -/
def isNiechePlaceholder (virtualOffset length : ℕ) : Bool :=
  let it := IntervalSet.upperBound (virtualOffset + length) s.placeholders
  match s.placeholders[it]? with
  | some next =>
    if next.lower = virtualOffset + length then
      if it = 0 then virtualOffset = 0
      else IntervalSet.prevUpper s.placeholders it = virtualOffset
    else false
  | none => false

/-- `Map`. There is no result when its `ASSERT` fails. -/
def map (virtualOffset hostOffset length : ℕ) : Option WindowsImpl :=
  let s := if s.isNiechePlaceholder virtualOffset length then s else s.split virtualOffset length
  if IntervalSet.find virtualOffset (virtualOffset + length) s.placeholders =
      s.placeholders.length then
    some ((s.trackPlaceholder virtualOffset hostOffset length).mapView virtualOffset hostOffset
      length)
  else none

/-- The first part of `UnmapOnePlaceholder`, up to the end of the panic region: the view is
unmapped, and what is to stay of it is mapped again, on the left when `split_left` holds, which is
the test `unmapBegin > placeholder.lower`, and on the right when `split_right` does. -/
def reopen (placeholder : Interval) (hostOffset unmapBegin unmapEnd : ℕ) : WindowsImpl :=
  let s := s.unmapViewOfFile2 placeholder.lower
  let s :=
    if unmapBegin > placeholder.lower ∨ unmapEnd < placeholder.upper then
      s.split unmapBegin (unmapEnd - unmapBegin)
    else s
  let s :=
    if unmapBegin > placeholder.lower then
      s.mapView placeholder.lower hostOffset (unmapBegin - placeholder.lower)
    else s
  if unmapEnd < placeholder.upper then
    s.mapView unmapEnd (hostOffset + unmapEnd - placeholder.lower) (placeholder.upper - unmapEnd)
  else s

/-- The local `coalesce_begin` of `UnmapOnePlaceholder`, where the placeholder of the unmapped part
begins once it is coalesced to the left. -/
def coalesceBegin (it : ℕ) (placeholder : Interval) (unmapBegin : ℕ) : ℕ :=
  if unmapBegin > placeholder.lower then unmapBegin else IntervalSet.prevUpper s.placeholders it

/-- The second part of `UnmapOnePlaceholder`: the part that was unmapped is coalesced with the
placeholders beside it. -/
def coalesceAround (it : ℕ) (placeholder : Interval) (unmapBegin unmapEnd : ℕ) : WindowsImpl :=
  let coalesceBegin := s.coalesceBegin it placeholder unmapBegin
  let s' :=
    if ¬ unmapBegin > placeholder.lower ∧ coalesceBegin ≠ placeholder.lower then
      s.coalesce coalesceBegin (unmapEnd - coalesceBegin)
    else s
  let nextBegin := IntervalSet.nextLower s.placeholders it s.virtualSize
  if ¬ unmapEnd < placeholder.upper ∧ placeholder.upper ≠ nextBegin then
    s'.coalesce coalesceBegin (nextBegin - coalesceBegin)
  else s'

/-- The third part of `UnmapOnePlaceholder`: the trackers of the interval and of the parts that
stay. -/
def retrack (it : ℕ) (placeholder : Interval) (hostOffset unmapBegin unmapEnd : ℕ) : WindowsImpl :=
  let s := s.untrackPlaceholder it placeholder
  let s :=
    if unmapBegin > placeholder.lower then
      s.trackPlaceholder placeholder.lower hostOffset (unmapBegin - placeholder.lower)
    else s
  if unmapEnd < placeholder.upper then
    s.trackPlaceholder unmapEnd (hostOffset + unmapEnd - placeholder.lower)
      (placeholder.upper - unmapEnd)
  else s

/-- `UnmapOnePlaceholder`. There is no result when an `ASSERT` fails. -/
def unmapOnePlaceholder (virtualOffset length : ℕ) : Option (Bool × WindowsImpl) :=
  let it := IntervalSet.find virtualOffset (virtualOffset + length) s.placeholders
  match s.placeholders[it]? with
  | none => some (false, s)
  | some placeholder =>
    let unmapBegin := max virtualOffset placeholder.lower
    let unmapEnd := min (virtualOffset + length) placeholder.upper
    if (unmapBegin ≥ placeholder.lower ∧ unmapBegin < placeholder.upper) ∧
        unmapEnd ≤ placeholder.upper ∧ unmapEnd > placeholder.lower then
      match s.placeholderHostPointers placeholder.lower with
      | none => none
      | some hostOffset =>
        let s := s.reopen placeholder hostOffset unmapBegin unmapEnd
        let s := s.coalesceAround it placeholder unmapBegin unmapEnd
        some (true, s.retrack it placeholder hostOffset unmapBegin unmapEnd)
    else none

end Code

/-- One pass of the loop of `Unmap`. -/
def unmapBody (virtualOffset length : ℕ) (s : WindowsImpl) : WindowsImpl ⊕ Option WindowsImpl :=
  match s.unmapOnePlaceholder virtualOffset length with
  | some (true, s') => .inl s'
  | some (false, s') => .inr (some s')
  | none => .inr none

/-- A call returns and leaves the second state. `Free` is empty, and `Protect` changes only the
protection of pages. -/
def Exec : ImplCall → WindowsImpl → WindowsImpl → Prop
  | .map virtualOffset hostOffset length, s, s' =>
    s.map virtualOffset.toNat hostOffset.toNat length.toNat = some s'
  | .unmap virtualOffset length, s, s' =>
    Returns (unmapBody virtualOffset.toNat length.toNat) s (some s')
  | .free _ _, s, s' => s' = s
  | .protect .., s, s' => s' = s

/-- The function from offsets to host offsets that the trackers define. -/
def trackedAt (s : WindowsImpl) (x : ℕ) : Option ℕ :=
  (s.placeholders.find? fun i => i.lower ≤ x ∧ x < i.upper).bind fun i =>
    (s.placeholderHostPointers i.lower).map (· + (x - i.lower))

/-! ## The interval set -/

/-- The interval of a mapping. -/
def interval (m : Mapping) : Interval := ⟨m.lower, m.upper⟩

section Sets

variable {before after : List Mapping} {m : Mapping} {a b p q : ℕ}

/-- A search comes to the first element that passes the test. -/
theorem findIdx_at {α : Type*} {f : α → Bool} {l l' : List α} {x : α}
    (hbefore : ∀ y ∈ l, f y = false) (hx : f x = true) : (l ++ x :: l').findIdx f = l.length := by
  induction l with
  | nil => simp [List.findIdx_cons, hx]
  | cons y l ih =>
    have hy := hbefore y List.mem_cons_self
    have := ih fun z hz => hbefore z (List.mem_cons_of_mem _ hz)
    simp [List.findIdx_cons, hy, this]

/-- The mapping at the position after the mappings before it. -/
theorem getElem?_map_interval :
    ((before ++ m :: after).map interval)[before.length]? = some (interval m) := by
  simp

/-- The interval before the found one ends where the mappings before it do. -/
theorem prevUpper_at :
    IntervalSet.prevUpper ((before ++ after).map interval) before.length = endOf 0 before := by
  rcases List.eq_nil_or_concat before with rfl | ⟨before', m', rfl⟩
  · rfl
  · simp [IntervalSet.prevUpper, endOf_concat, interval]

/-- The interval after the found one starts where the mappings after it do. -/
theorem nextLower_at :
    IntervalSet.nextLower ((before ++ m :: after).map interval) before.length q =
      startOf q after := by
  cases after <;> simp [IntervalSet.nextLower, startOf, interval]

/-- An interval is inserted between those that begin before it and those that begin after it. -/
theorem insert_at (hbefore : ∀ x ∈ before, x.lower < m.lower)
    (hafter : ∀ x ∈ after, m.lower < x.lower) :
    IntervalSet.insert (interval m) ((before ++ after).map interval) =
      (before ++ m :: after).map interval := by
  -- The intervals that begin earlier are passed over.
  induction before with
  | nil =>
    cases after with
    | nil => rfl
    | cons x xs =>
      have hlt : (interval m).lower < (interval x).lower := hafter x List.mem_cons_self
      simp [IntervalSet.insert, hlt]
  | cons x xs ih =>
    have hx : ¬ (interval m).lower < (interval x).lower :=
      Nat.not_lt.mpr (hbefore x List.mem_cons_self).le
    have hxs := ih fun y hy => hbefore y (List.mem_cons_of_mem _ hy)
    simp only [List.cons_append, List.map_cons, IntervalSet.insert, hx, if_false, hxs]

end Sets

/-! ## The trackers -/

/-- The trackers hold the mappings. -/
structure Tracks (s : WindowsImpl) (ms : List Mapping) : Prop where
  /-- The intervals are those of the mappings. -/
  placeholders : s.placeholders = ms.map interval
  /-- The host offsets are those of the mappings. -/
  hosts : ∀ m ∈ ms, s.placeholderHostPointers m.lower = some m.host
  /-- There are no other host offsets. -/
  keys : ∀ k h, s.placeholderHostPointers k = some h → ∃ m ∈ ms, m.lower = k

/-- What stays of a mapping to the left of an offset. -/
def leftPart (m : Mapping) (c : ℕ) : List Mapping :=
  if m.lower < c then [⟨m.lower, c, m.host⟩] else []

/-- What stays of a mapping from an offset on. -/
def rightPart (m : Mapping) (c : ℕ) : List Mapping :=
  if c < m.upper then [⟨c, m.upper, m.host + c - m.lower⟩] else []

section Trackers

variable {s : WindowsImpl} {before after : List Mapping} {m : Mapping} {p q : ℕ}

/-- `TrackPlaceholder` adds the interval of a mapping. -/
theorem Tracks.track (h : s.Tracks (before ++ after)) (hbefore : ∀ x ∈ before, x.lower < m.lower)
    (hafter : ∀ x ∈ after, m.lower < x.lower) (hm : m.lower ≤ m.upper) :
    (s.trackPlaceholder m.lower m.host (m.upper - m.lower)).Tracks (before ++ m :: after) := by
  have hne : ∀ x ∈ before ++ after, x.lower ≠ m.lower := by
    intro x hx
    rcases List.mem_append.mp hx with hx | hx
    · exact (hbefore x hx).ne
    · exact (hafter x hx).ne'
  -- The key is new, so `emplace` puts the pair in.
  have hfree : s.placeholderHostPointers m.lower = none := by
    by_contra hcon
    obtain ⟨h', hh'⟩ := Option.ne_none_iff_exists'.mp hcon
    obtain ⟨x, hx, hlow⟩ := h.keys _ _ hh'
    exact hne x hx hlow
  have hmem : ∀ x, x ∈ before ++ m :: after ↔ x = m ∨ x ∈ before ++ after := by
    intro x
    simp only [List.mem_append, List.mem_cons]
    tauto
  unfold trackPlaceholder
  rw [if_pos hfree, Nat.add_sub_cancel' hm]
  refine ⟨?_, fun x hx => ?_, fun k h' hk => ?_⟩
  · dsimp only
    rw [h.placeholders]
    exact insert_at hbefore hafter
  · rcases (hmem x).mp hx with rfl | hx
    · exact Function.update_self ..
    · dsimp only
      rw [Function.update_of_ne (hne x hx)]
      exact h.hosts x hx
  · by_cases hkm : k = m.lower
    · exact ⟨m, (hmem m).mpr (.inl rfl), hkm.symm⟩
    · dsimp only at hk
      rw [Function.update_of_ne hkm] at hk
      obtain ⟨x, hx, hlow⟩ := h.keys k h' hk
      exact ⟨x, (hmem x).mpr (.inr hx), hlow⟩

/-- `UntrackPlaceholder` takes the interval of a mapping out. -/
theorem Tracks.untrack (h : s.Tracks (before ++ m :: after))
    (hne : ∀ x ∈ before ++ after, x.lower ≠ m.lower) :
    (s.untrackPlaceholder before.length (interval m)).Tracks (before ++ after) := by
  have hmem : ∀ x ∈ before ++ after, x ∈ before ++ m :: after := by
    intro x hx
    simp only [List.mem_append, List.mem_cons] at hx ⊢
    tauto
  -- The intervals, the host addresses of those that stay, and no other host addresses.
  refine ⟨?_, fun x hx => ?_, fun k h' hk => ?_⟩
  · simp [untrackPlaceholder, h.placeholders, List.eraseIdx_append_of_length_le]
  · dsimp only [untrackPlaceholder, interval]
    rw [Function.update_of_ne (hne x hx)]
    exact h.hosts x (hmem x hx)
  · dsimp only [untrackPlaceholder, interval] at hk
    by_cases hkm : k = m.lower
    · rw [hkm, Function.update_self] at hk
      cases hk
    · rw [Function.update_of_ne hkm] at hk
      obtain ⟨x, hx, hlow⟩ := h.keys k h' hk
      refine ⟨x, ?_, hlow⟩
      simp only [List.mem_append, List.mem_cons] at hx ⊢
      rcases hx with hx | rfl | hx
      · exact .inl hx
      · exact absurd hlow.symm hkm
      · exact .inr hx

/-- The mappings around one of them lie below and above it. -/
theorem bounds_of_inside (h : Inside p (before ++ m :: after) q) :
    (∀ x ∈ before, x.lower < m.lower ∧ x.upper ≤ m.lower) ∧ m.lower < m.upper ∧
      ∀ x ∈ after, m.upper ≤ x.lower ∧ x.lower < x.upper := by
  obtain ⟨hbefore, hm, hlt, hafter⟩ := inside_append_iff.mp h
  refine ⟨fun x hx => ?_, hlt, fun x hx => ?_⟩
  · have := hbefore.mem hx
    omega
  · have := hafter.mem hx
    omega

/-- `retrack` leaves the trackers of the parts that stay. -/
theorem Tracks.retrack {unmapBegin unmapEnd : ℕ} (h : s.Tracks (before ++ m :: after))
    (hinside : Inside p (before ++ m :: after) q) (hb : m.lower ≤ unmapBegin)
    (hlt : unmapBegin < unmapEnd) :
    (s.retrack before.length (interval m) m.host unmapBegin unmapEnd).Tracks
      ((before ++ leftPart m unmapBegin) ++ (rightPart m unmapEnd ++ after)) := by
  obtain ⟨hbefore, hm, hafter⟩ := bounds_of_inside hinside
  have huntracked : (s.untrackPlaceholder before.length (interval m)).Tracks (before ++ after) := by
    refine h.untrack fun x hx => ?_
    rcases List.mem_append.mp hx with hx | hx
    · exact (hbefore x hx).1.ne
    · have := hafter x hx
      omega
  -- The left part is put between the mappings before and after, then the right part after it.
  have hleft : ((if unmapBegin > (interval m).lower then
        (s.untrackPlaceholder before.length (interval m)).trackPlaceholder (interval m).lower m.host
          (unmapBegin - (interval m).lower)
      else s.untrackPlaceholder before.length (interval m))).Tracks
      ((before ++ leftPart m unmapBegin) ++ after) := by
    by_cases hsplit : m.lower < unmapBegin
    · rw [if_pos (show unmapBegin > (interval m).lower from hsplit), leftPart, if_pos hsplit]
      have := huntracked.track (m := ⟨m.lower, unmapBegin, m.host⟩) (fun x hx => (hbefore x hx).1)
        (fun x hx => by have := hafter x hx; dsimp only; omega) hb
      rw [List.append_assoc]
      exact this
    · rw [if_neg (show ¬ unmapBegin > (interval m).lower from hsplit), leftPart, if_neg hsplit]
      simpa using huntracked
  unfold WindowsImpl.retrack
  by_cases hsplit : unmapEnd < m.upper
  · rw [if_pos (show unmapEnd < (interval m).upper from hsplit), rightPart, if_pos hsplit]
    refine hleft.track (m := ⟨unmapEnd, m.upper, m.host + unmapEnd - m.lower⟩) (fun x hx => ?_)
      (fun x hx => ?_) hsplit.le
    · rcases List.mem_append.mp hx with hx | hx
      · have := hbefore x hx
        dsimp only
        omega
      · unfold leftPart at hx
        split_ifs at hx
        · rw [List.mem_singleton.mp hx]
          dsimp only
          omega
        · cases hx
    · have := hafter x hx
      dsimp only
      omega
  · rw [if_neg (show ¬ unmapEnd < (interval m).upper from hsplit), rightPart, if_neg hsplit]
    exact hleft

/-- `retrack` makes no call of the system. -/
theorem retrack_frame (it : ℕ) (placeholder : Interval) (hostOffset unmapBegin unmapEnd : ℕ) :
    (s.retrack it placeholder hostOffset unmapBegin unmapEnd).virtualSize = s.virtualSize ∧
      (s.retrack it placeholder hostOffset unmapBegin unmapEnd).regions = s.regions ∧
      (s.retrack it placeholder hostOffset unmapBegin unmapEnd).warnings = s.warnings := by
  unfold WindowsImpl.retrack
  split_ifs <;> exact ⟨rfl, rfl, rfl⟩

end Trackers

/-! ## The calls of the system -/

section System

variable {s : WindowsImpl} {before after : List Mapping} {m : Mapping}
  {unmapBegin unmapEnd : ℕ}

/-- A call of the system whose precondition holds. -/
theorem issue_ok {call : List Region → Option (List Region)} {warning : String}
    {regions : List Region} (h : call s.regions = some regions) :
    s.issue call warning = { s with regions := regions } := by
  simp [issue, h]

section Reopen

variable {front rest : List Region} (hregions : s.regions = front ++ m.region :: rest)
  (hfront : Below m.lower front) (hb : m.lower ≤ unmapBegin) (hlt : unmapBegin < unmapEnd)
  (he : unmapEnd ≤ m.upper)
include hregions hfront hb hlt he

/-- The view is unmapped and split at the part that is to go: a proper part, when anything stays. -/
theorem split_reopened :
    (if unmapBegin > (interval m).lower ∨ unmapEnd < (interval m).upper then
        (s.unmapViewOfFile2 (interval m).lower).split unmapBegin (unmapEnd - unmapBegin)
      else s.unmapViewOfFile2 (interval m).lower) =
      { s with regions := front ++ (gap m.lower unmapBegin ++
          .free unmapBegin unmapEnd :: (gap unmapEnd m.upper ++ rest)) } := by
  have hunmap : s.unmapViewOfFile2 (interval m).lower =
      { s with regions := front ++ .free m.lower m.upper :: rest } :=
    issue_ok (by rw [hregions]; exact unmapView_at hfront)
  rw [hunmap]
  by_cases hsplit : unmapBegin > m.lower ∨ unmapEnd < m.upper
  · rw [if_pos (show unmapBegin > (interval m).lower ∨ unmapEnd < (interval m).upper from hsplit)]
    refine issue_ok ?_
    rw [Nat.add_sub_cancel' hlt.le]
    exact split_at (hfront.mono hb) hb hlt he (by omega)
  · -- Nothing stays, and the placeholder is the part that is to go.
    rw [if_neg (show ¬ (unmapBegin > (interval m).lower ∨ unmapEnd < (interval m).upper)
      from hsplit)]
    obtain ⟨rfl, rfl⟩ : unmapBegin = m.lower ∧ unmapEnd = m.upper := by omega
    simp

/-- `reopen` leaves a placeholder between the views of the parts that stay. -/
theorem reopen_spec :
    s.reopen (interval m) m.host unmapBegin unmapEnd =
      { s with regions := front ++ ((leftPart m unmapBegin).map Mapping.region ++
          .free unmapBegin unmapEnd :: ((rightPart m unmapEnd).map Mapping.region ++ rest)) } := by
  have hsplit := split_reopened hregions hfront hb hlt he
  -- The placeholder on the left becomes a view, if there is one.
  have hleft : (if unmapBegin > (interval m).lower then
        ({ s with regions := front ++ (gap m.lower unmapBegin ++
          .free unmapBegin unmapEnd :: (gap unmapEnd m.upper ++ rest)) } : WindowsImpl).mapView
            (interval m).lower m.host (unmapBegin - (interval m).lower)
      else { s with regions := front ++ (gap m.lower unmapBegin ++
          .free unmapBegin unmapEnd :: (gap unmapEnd m.upper ++ rest)) }) =
      { s with regions := front ++ ((leftPart m unmapBegin).map Mapping.region ++
          .free unmapBegin unmapEnd :: (gap unmapEnd m.upper ++ rest)) } := by
    by_cases h : m.lower < unmapBegin
    · rw [if_pos (show unmapBegin > (interval m).lower from h), leftPart, if_pos h, gap_of_lt h]
      refine issue_ok ?_
      rw [Nat.add_sub_cancel' (show (interval m).lower ≤ unmapBegin from hb)]
      exact mapView_at hfront
    · rw [if_neg (show ¬ unmapBegin > (interval m).lower from h), leftPart, if_neg h]
      obtain rfl : unmapBegin = m.lower := by omega
      simp
  have hbelow : Below unmapEnd (front ++ ((leftPart m unmapBegin).map Mapping.region ++
      [.free unmapBegin unmapEnd])) := by
    refine (hfront.mono (by omega)).append (Below.append ?_ ?_)
    · intro r hr
      unfold leftPart at hr
      split_ifs at hr with h
      · rw [List.map_singleton, List.mem_singleton] at hr
        rw [hr]
        exact ⟨by simp only [Mapping.region, Region.lower]; omega,
          by simp only [Mapping.region, Region.upper]; omega⟩
      · cases hr
    · intro r hr
      rw [List.mem_singleton.mp hr]
      exact ⟨hlt, Nat.le_refl _⟩
  rw [reopen, hsplit, hleft]
  by_cases h : unmapEnd < m.upper
  · rw [if_pos (show unmapEnd < (interval m).upper from h), rightPart, if_pos h, gap_of_lt h]
    refine issue_ok ?_
    rw [Nat.add_sub_cancel' (show unmapEnd ≤ (interval m).upper from he)]
    have hmap : Placeholders.mapView unmapEnd m.upper (m.host + unmapEnd - m.lower)
        ((front ++ ((leftPart m unmapBegin).map Mapping.region ++ [.free unmapBegin unmapEnd])) ++
          .free unmapEnd m.upper :: rest) = some _ := mapView_at hbelow
    simp only [List.append_assoc, List.singleton_append] at hmap
    exact hmap
  · rw [if_neg (show ¬ unmapEnd < (interval m).upper from h), rightPart, if_neg h]
    obtain rfl : unmapEnd = m.upper := by omega
    simp

end Reopen

section Coalesce

variable {front rest : List Region} {a b c : ℕ}

/-- Coalescing with the placeholder on the left, if there is one. -/
theorem coalesce_left (hregions : s.regions = front ++ (gap a b ++ .free b c :: rest))
    (hfront : Below a front) (hab : a ≤ b) (hbc : b < c) :
    (if a ≠ b then s.coalesce a (c - a) else s) =
      { s with regions := front ++ .free a c :: rest } := by
  by_cases h : a = b
  · subst h
    rw [if_neg (by simp)]
    rw [gap_self, List.nil_append] at hregions
    rw [← hregions]
  · rw [if_pos h]
    refine issue_ok ?_
    rw [hregions, gap_of_lt (by omega), Nat.add_sub_cancel' (by omega)]
    exact coalesce_at hfront hbc

/-- Coalescing with the placeholder on the right, if there is one. -/
theorem coalesce_right (hregions : s.regions = front ++ .free a b :: (gap b c ++ rest))
    (hfront : Below a front) (hab : a < b) (hbc : b ≤ c) :
    (if b ≠ c then s.coalesce a (c - a) else s) =
      { s with regions := front ++ .free a c :: rest } := by
  by_cases h : b = c
  · subst h
    rw [if_neg (by simp)]
    rw [gap_self, List.nil_append] at hregions
    rw [← hregions]
  · rw [if_pos h]
    refine issue_ok ?_
    rw [hregions, gap_of_lt (by omega), Nat.add_sub_cancel' (by omega)]
    exact coalesce_at hfront (by omega)

end Coalesce

section CoalesceAround

variable (hp : s.placeholders = (before ++ m :: after).map interval)
  (hinside : Inside 0 (before ++ m :: after) s.virtualSize) (hb : m.lower ≤ unmapBegin)
  (hlt : unmapBegin < unmapEnd)
include hp

/-- The free range starts at the end of what stays on the left. -/
theorem coalesceBegin_eq (unmapBegin : ℕ) :
    s.coalesceBegin before.length (interval m) unmapBegin =
      endOf 0 (before ++ leftPart m unmapBegin) := by
  unfold coalesceBegin
  by_cases h : m.lower < unmapBegin
  · rw [if_pos (show unmapBegin > (interval m).lower from h), leftPart, if_pos h, endOf_concat]
  · rw [if_neg (show ¬ unmapBegin > (interval m).lower from h), leftPart, if_neg h,
      List.append_nil, hp, prevUpper_at]

include hinside hb hlt in
/-- On the left: the mappings up to the part that is to go, and the placeholder from their end
on. -/
theorem coalesceAround_left {rest : List Region}
    (hregions : s.regions = fillTo 0 before ++ (gap (endOf 0 before) m.lower ++
      ((leftPart m unmapBegin).map Mapping.region ++ .free unmapBegin unmapEnd :: rest))) :
    (if ¬ unmapBegin > (interval m).lower ∧
          s.coalesceBegin before.length (interval m) unmapBegin ≠ (interval m).lower then
        s.coalesce (s.coalesceBegin before.length (interval m) unmapBegin)
          (unmapEnd - s.coalesceBegin before.length (interval m) unmapBegin)
      else s) =
      { s with regions := fillTo 0 (before ++ leftPart m unmapBegin) ++
          .free (endOf 0 (before ++ leftPart m unmapBegin)) unmapEnd :: rest } := by
  obtain ⟨hbefore, hm, -⟩ := inside_append_iff.mp hinside
  rw [coalesceBegin_eq hp]
  -- A part of the mapping stays on the left: nothing to coalesce. Otherwise the gap before it is
  -- joined.
  by_cases h : m.lower < unmapBegin
  · have hpart : leftPart m unmapBegin = [⟨m.lower, unmapBegin, m.host⟩] := if_pos h
    rw [if_neg fun hn => hn.1 (show unmapBegin > (interval m).lower from h), hpart, endOf_concat,
      fillTo_concat]
    rw [hpart] at hregions
    simp only [List.map_singleton, List.singleton_append, List.append_assoc] at hregions ⊢
    rw [← hregions]
  · have hneg : ¬ unmapBegin > (interval m).lower := h
    have hpart : leftPart m unmapBegin = [] := if_neg h
    obtain rfl : unmapBegin = m.lower := by omega
    simp only [hneg, not_false_eq_true, true_and, hpart, List.append_nil]
    rw [hpart] at hregions
    exact coalesce_left hregions hbefore.below_fillTo hm hlt

include hinside hb hlt in
/-- `coalesceAround` leaves the tiling of the mappings that stay. -/
theorem coalesceAround_spec
    (hregions : s.regions = fillTo 0 before ++ (gap (endOf 0 before) m.lower ++
      ((leftPart m unmapBegin).map Mapping.region ++ .free unmapBegin unmapEnd ::
        ((rightPart m unmapEnd).map Mapping.region ++
          (gap m.upper (startOf s.virtualSize after) ++ fillFrom s.virtualSize after)))))
    (he : unmapEnd ≤ m.upper) :
    s.coalesceAround before.length (interval m) unmapBegin unmapEnd =
      { s with regions := fill 0 ((before ++ leftPart m unmapBegin) ++
          (rightPart m unmapEnd ++ after)) s.virtualSize } := by
  obtain ⟨hbefore, hm, -, hafter⟩ := inside_append_iff.mp hinside
  have hnext := hafter.startOf_le.1
  -- What stays on the left lies before the range.
  have hinside' : Inside 0 (before ++ leftPart m unmapBegin)
      (endOf 0 (before ++ leftPart m unmapBegin)) ∧
      endOf 0 (before ++ leftPart m unmapBegin) ≤ unmapBegin := by
    unfold leftPart
    split_ifs with h
    · rw [endOf_concat]
      refine ⟨inside_append_iff.mpr ⟨hbefore, hm, h, Nat.le_refl _⟩, Nat.le_refl _⟩
    · rw [List.append_nil]
      exact ⟨hbefore, hm.trans hb⟩
  have hbelow := hinside'.1.below_fillTo
  rw [fill_append, coalesceAround, coalesceAround_left hp hinside hb hlt hregions,
    coalesceBegin_eq hp, hp, nextLower_at]
  -- A part of the mapping stays on the right: nothing to coalesce. Otherwise the gap behind it is
  -- joined.
  by_cases h : unmapEnd < m.upper
  · have hpart : rightPart m unmapEnd = [⟨unmapEnd, m.upper, m.host + unmapEnd - m.lower⟩] :=
      if_pos h
    rw [if_neg fun hn => hn.1 (show unmapEnd < (interval m).upper from h), hpart]
    have hgap := gap_of_lt (lt_of_le_of_lt hinside'.2 hlt)
    simp only [List.map_singleton, List.singleton_append, startOf, fillFrom_cons, hgap]
  · have hneg : ¬ unmapEnd < (interval m).upper := h
    have hpart : rightPart m unmapEnd = [] := if_neg h
    obtain rfl : unmapEnd = m.upper := by omega
    have hlt' : endOf 0 (before ++ leftPart m unmapBegin) < m.upper :=
      lt_of_le_of_lt hinside'.2 hlt
    simp only [hneg, not_false_eq_true, true_and, hpart, List.nil_append]
    refine (coalesce_right (by simp; rfl) hbelow hlt' hnext).trans ?_
    rw [gap_of_lt (lt_of_lt_of_le hlt' hnext)]
    rfl

end CoalesceAround

end System

end WindowsImpl

end SwiftRuntime.Host
