import Mathlib.Data.Nat.Basic
import Mathlib.Tactic.Common

/-!
# Loops and runs

A loop of the source is a body that, from the loop's state, either goes round again with a new state
or leaves the loop with a result. `iterate` runs a body for a bounded number of passes, and
`Returns` and `Diverges` say what the loop does when nothing bounds it. An invariant that never
leaves makes a loop endless (`diverges_of_invariant`), and a scan over consecutive indices stops at
the first index where its body leaves (`iterate_scan`).

`Run` is the run of a labelled transition relation along a list of labels, with the rules that an
invariant, a simulation and a refinement carry along it. `Traced` adds to each label the events that
a step makes.
-/

namespace SwiftRuntime

section Loop

variable {σ ρ : Type*} {body : σ → σ ⊕ ρ} {s s' : σ} {r r' : ρ}

/-- At most `n` passes of a loop: the result if the loop is left within them, `none` otherwise. -/
def iterate (body : σ → σ ⊕ ρ) : ℕ → σ → Option ρ
  | 0, _ => none
  | n + 1, s =>
    match body s with
    | .inl s' => iterate body n s'
    | .inr r => some r

/-- The states from which a loop makes its passes, of which there are at most `n`. -/
def passes (body : σ → σ ⊕ ρ) : ℕ → σ → List σ
  | 0, _ => []
  | n + 1, s =>
    match body s with
    | .inl s' => s :: passes body n s'
    | .inr _ => [s]

/-- The loop, started in `s`, is left with the result `r`. -/
def Returns (body : σ → σ ⊕ ρ) (s : σ) (r : ρ) : Prop := ∃ n, iterate body n s = some r

/-- The loop, started in `s`, is never left. -/
def Diverges (body : σ → σ ⊕ ρ) (s : σ) : Prop := ∀ n, iterate body n s = none

/-- A pass that goes round again. -/
theorem iterate_inl (h : body s = .inl s') (n : ℕ) :
    iterate body (n + 1) s = iterate body n s' := by
  simp [iterate, h]

/-- A pass that leaves the loop. -/
theorem iterate_inr (h : body s = .inr r) (n : ℕ) : iterate body (n + 1) s = some r := by
  simp [iterate, h]

/-- A pass that goes round again comes before the passes from where it leads to. -/
theorem passes_inl (h : body s = .inl s') (n : ℕ) :
    passes body (n + 1) s = s :: passes body n s' := by
  simp [passes, h]

/-- A pass that leaves the loop is the last one. -/
theorem passes_inr (h : body s = .inr r) (n : ℕ) : passes body (n + 1) s = [s] := by
  simp [passes, h]

/-- More passes do not change a result. -/
theorem iterate_mono {n m : ℕ} (h : iterate body n s = some r) (hle : n ≤ m) :
    iterate body m s = some r := by
  induction n generalizing s m with
  | zero => simp [iterate] at h
  | succ n ih =>
    obtain ⟨m, rfl⟩ : ∃ k, m = k + 1 := ⟨m - 1, by omega⟩
    cases hb : body s with
    | inl s' =>
      rw [iterate_inl hb] at h ⊢
      exact ih h (by omega)
    | inr r' =>
      rw [iterate_inr hb] at h ⊢
      exact h

/-- What holds of the results of the passes that leave a loop holds of the result of the loop. -/
theorem iterate_result {Q : ρ → Prop} (hQ : ∀ s r, body s = .inr r → Q r) {n : ℕ}
    (h : iterate body n s = some r) : Q r := by
  induction n generalizing s with
  | zero => simp [iterate] at h
  | succ n ih =>
    cases hb : body s with
    | inl s' =>
      rw [iterate_inl hb] at h
      exact ih h
    | inr r' =>
      rw [iterate_inr hb] at h
      exact Option.some.inj h ▸ hQ s r' hb

/-- A loop has one result. -/
theorem Returns.unique (h : Returns body s r) (h' : Returns body s r') : r = r' := by
  obtain ⟨n, hn⟩ := h
  obtain ⟨m, hm⟩ := h'
  have h1 := iterate_mono hn (Nat.le_max_left n m)
  have h2 := iterate_mono hm (Nat.le_max_right n m)
  rw [h1] at h2
  exact Option.some.inj h2

/-- A loop whose first pass leaves it. -/
theorem Returns.of_inr (h : body s = .inr r) : Returns body s r := ⟨1, iterate_inr h 0⟩

/-- A loop whose first pass goes round again does what it does from there. -/
theorem returns_iff_of_inl (h : body s = .inl s') : Returns body s r ↔ Returns body s' r := by
  constructor
  · rintro ⟨n, hn⟩
    cases n with
    | zero => simp [iterate] at hn
    | succ n => exact ⟨n, by rwa [iterate_inl h] at hn⟩
  · rintro ⟨n, hn⟩
    exact ⟨n + 1, by rwa [iterate_inl h]⟩

/-- A loop whose first pass leaves it has that result only. -/
theorem returns_iff_of_inr (h : body s = .inr r) : Returns body s r' ↔ r' = r :=
  ⟨fun h' => h'.unique (.of_inr h), fun e => e ▸ .of_inr h⟩

/-- An endless loop has no result. -/
theorem Diverges.not_returns (h : Diverges body s) : ¬ Returns body s r := by
  rintro ⟨n, hn⟩
  rw [h n] at hn
  cases hn

/-- The endless rule: an invariant under which every pass goes round again. -/
theorem diverges_of_invariant (Inv : σ → Prop)
    (hstep : ∀ s, Inv s → ∃ s', body s = .inl s' ∧ Inv s') (hs : Inv s) : Diverges body s := by
  intro n
  induction n generalizing s with
  | zero => rfl
  | succ n ih =>
    obtain ⟨s', hb, hs'⟩ := hstep s hs
    rw [iterate_inl hb]
    exact ih hs'

/-- The scan rule: a loop over consecutive indices that goes on from every index before `i` and
leaves at `i`. -/
theorem iterate_scan {body : ℕ → ℕ ⊕ ρ} {h i : ℕ} {r : ρ} (hle : h ≤ i)
    (hgo : ∀ j, h ≤ j → j < i → body j = .inl (j + 1)) (hstop : body i = .inr r) {n : ℕ}
    (hn : i - h < n) : iterate body n h = some r := by
  induction n generalizing h with
  | zero => omega
  | succ n ih =>
    rcases Nat.eq_or_lt_of_le hle with rfl | hlt
    · exact iterate_inr hstop n
    · rw [iterate_inl (hgo h le_rfl hlt)]
      exact ih hlt (fun j hj hji => hgo j (by omega) hji) (by omega)

end Loop

section Run

variable {ι σ τ : Type*} {step : ι → σ → σ → Prop}

/-- The runs of a labelled transition relation along a list of labels. -/
inductive Run (step : ι → σ → σ → Prop) : List ι → σ → σ → Prop
  | nil (s : σ) : Run step [] s s
  | cons {a : ι} {as : List ι} {s s' s'' : σ} : step a s s' → Run step as s' s'' →
      Run step (a :: as) s s''

/-- A run followed by one more step. -/
theorem Run.concat {a : ι} {as : List ι} {s s' s'' : σ} (h : Run step as s s')
    (ha : step a s' s'') : Run step (as ++ [a]) s s'' := by
  induction h with
  | nil => exact .cons ha (.nil _)
  | cons hst _ ih => exact .cons hst (ih ha)

/-- A run is one of every relation that allows its steps. -/
theorem Run.mono {step' : ι → σ → σ → Prop} {as : List ι} {s s' : σ} (h : Run step as s s')
    (himp : ∀ a s s', step a s s' → step' a s s') : Run step' as s s' := by
  induction h with
  | nil => exact .nil _
  | cons hst _ ih => exact .cons (himp _ _ _ hst) ih

/-- The runs of a relation with one result have one result. -/
theorem Run.unique {as : List ι} {s s' s'' : σ} (h : Run step as s s')
    (hstep : ∀ a s s' s'', step a s s' → step a s s'' → s' = s'') (h' : Run step as s s'') :
    s' = s'' := by
  induction h with
  | nil =>
    cases h'
    rfl
  | cons hst _ ih =>
    cases h' with
    | cons hst' hrun' =>
      rw [← hstep _ _ _ _ hst hst'] at hrun'
      exact ih hrun'

/-- One run after another. -/
theorem Run.append {as bs : List ι} {s s' s'' : σ} (h : Run step as s s')
    (h' : Run step bs s' s'') :
    Run step (as ++ bs) s s'' := by
  induction h with
  | nil => exact h'
  | cons hst _ ih => exact .cons hst (ih h')

/-- An invariant that the steps of a run preserve holds at its end. -/
theorem Run.invariant (Inv : σ → Prop) {as : List ι} {s s' : σ} (h : Run step as s s')
    (hstep : ∀ a ∈ as, ∀ s s', step a s s' → Inv s → Inv s') (hs : Inv s) : Inv s' := by
  induction h with
  | nil => exact hs
  | cons hst _ ih =>
    exact ih (fun a ha => hstep a (List.mem_cons_of_mem _ ha))
      (hstep _ List.mem_cons_self _ _ hst hs)

/-- The history rule: an invariant of the state and the labels so far. -/
theorem Run.history (Inv : List ι → σ → Prop) {as : List ι} {s s' : σ} (h : Run step as s s')
    (hstep : ∀ as a s s', step a s s' → Inv as s → Inv (as ++ [a]) s') (hs : Inv [] s) :
    Inv as s' := by
  suffices hgen : ∀ pre, Inv pre s → Inv (pre ++ as) s' from hgen [] hs
  clear hs
  induction h with
  | nil => simp
  | cons hst _ ih =>
    intro pre hs
    rw [List.append_cons]
    exact ih _ (hstep _ _ _ _ hst hs)

/-- A relation that every step preserves, against a function on the abstract side, relates the end
of a run to the fold of the function along it. -/
theorem Run.simulation (R : σ → τ → Prop) (f : ι → τ → τ) {as : List ι} {s s' : σ} {m : τ}
    (h : Run step as s s')
    (hstep : ∀ a ∈ as, ∀ s s' m, step a s s' → R s m → R s' (f a m)) (hs : R s m) :
    R s' (as.foldl (fun m a => f a m) m) := by
  induction h generalizing m with
  | nil => exact hs
  | cons hst _ ih =>
    exact ih (fun a ha => hstep a (List.mem_cons_of_mem _ ha))
      (hstep _ List.mem_cons_self _ _ _ hst hs)

/-- The steps that a condition allows, each labelled with the events that it makes. -/
def Traced {κ : Type*} (step : ι → σ → σ → Prop) (allowed : ι → σ → Prop) (events : σ → ι → List κ)
    (a : ι × List κ) (s s' : σ) : Prop :=
  step a.1 s s' ∧ allowed a.1 s ∧ a.2 = events s a.1

section Traced

variable {κ : Type*} {allowed : ι → σ → Prop} {events : σ → ι → List κ} {as : List (ι × List κ)}
  {s s' : σ}

/-- The refinement rule: where the events of every step are steps of another relation, the events of
every run are a run of that relation. -/
theorem Run.refines {step' : κ → τ → τ → Prop} (R : σ → τ → Prop) {t : τ}
    (h : Run (Traced step allowed events) as s s')
    (hstep : ∀ a s s' t, step a s s' → allowed a s → R s t → ∃ t', Run step' (events s a) t t' ∧
      R s' t')
    (hs : R s t) : ∃ t', Run step' (as.flatMap Prod.snd) t t' ∧ R s' t' := by
  refine h.history (fun as s => ∃ t', Run step' (as.flatMap Prod.snd) t t' ∧ R s t')
    (fun as a s s' => ?_) ⟨t, .nil t, hs⟩
  rintro ⟨hst, hallowed, hevents⟩ ⟨t₁, hrun, hR⟩
  obtain ⟨t', hrun', hR'⟩ := hstep a.1 s s' t₁ hst hallowed hR
  refine ⟨t', ?_, hR'⟩
  rw [List.flatMap_append, List.flatMap_singleton, hevents]
  exact hrun.append hrun'

end Traced

end Run

end SwiftRuntime
