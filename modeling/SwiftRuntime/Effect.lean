import Mathlib.Tactic.Common

/-!
# Computations that change a state and may stop

Code that changes objects in place and may throw on the way is modelled in `EStateM`: a result is a
value with the state after it, or what stopped the code with the state at that point. A proof about
such code starts from the fact that it returned, and takes it apart step by step. The lemmas below
say what a returned step is for each construct, and how an invariant goes through a loop over a list
or through a loop with a bound on its passes (`loopM`).

Where it does not matter whether code returns or stops, `leaves` is the state after it, and `Keeps`
is a property of states that the code keeps either way. Code that stops is taken apart in the same
way as code that returns (`bind_error_iff` and the lemmas after it), and `Throws` says with what it
can stop.
-/

namespace SwiftRuntime

section Steps

variable {ε σ α β : Type} {s s' s'' : σ}

/-- A sequence returns when both of its parts do. -/
theorem bind_ok_iff {x : EStateM ε σ α} {g : α → EStateM ε σ β} {b : β} :
    (x >>= g) s = .ok b s'' ↔ ∃ a s', x s = .ok a s' ∧ g a s' = .ok b s'' := by
  show EStateM.bind x g s = .ok b s'' ↔ _
  unfold EStateM.bind
  cases x s with
  | ok a s' => simp
  | error e s' => simp

/-- A sequence whose first part returns goes on with the second. -/
theorem bind_of_ok {x : EStateM ε σ α} {a : α} (h : x s = .ok a s') (g : α → EStateM ε σ β) :
    (x >>= g) s = g a s' := by
  show EStateM.bind x g s = _
  rw [EStateM.bind, h]

/-- Returning a value leaves the state alone. -/
theorem pure_ok_iff {a b : α} :
    (pure a : EStateM ε σ α) s = .ok b s' ↔ a = b ∧ s = s' := by
  show EStateM.Result.ok a s = .ok b s' ↔ _
  simp

/-- Throwing does not return. -/
theorem throw_ok_iff {e : ε} {b : α} :
    (throw e : EStateM ε σ α) s = .ok b s' ↔ False := by
  show EStateM.Result.error e s = .ok b s' ↔ _
  simp

/-- Reading the state. -/
theorem get_ok_iff {a : σ} : (get : EStateM ε σ σ) s = .ok a s' ↔ a = s ∧ s' = s := by
  show EStateM.Result.ok s s = .ok a s' ↔ _
  simp [eq_comm]

/-- Changing the state. -/
theorem modify_ok_iff {g : σ → σ} {u : Unit} :
    (modify g : EStateM ε σ Unit) s = .ok u s' ↔ s' = g s := by
  show EStateM.Result.ok () (g s) = .ok u s' ↔ _
  simp [eq_comm]

/-- `x` in the code is a check: it stops with `e` unless the condition holds. -/
def require (c : Prop) [Decidable c] (e : ε) : EStateM ε σ Unit :=
  if c then pure () else throw e

/-- A check returns when its condition holds, and leaves the state alone. -/
theorem require_ok_iff {c : Prop} [Decidable c] {e : ε} {u : Unit} :
    (require c e : EStateM ε σ Unit) s = .ok u s' ↔ c ∧ s' = s := by
  unfold require
  split_ifs with h
  · simp [pure_ok_iff, h, eq_comm]
  · simp [throw_ok_iff, h]

/-- The value of an option; the code stops with `e` where there is none. -/
def ofOption (o : Option α) (e : ε) : EStateM ε σ α :=
  match o with
  | some a => pure a
  | none => throw e

/-- Taking the value of an option returns when there is one. -/
theorem ofOption_ok_iff {o : Option α} {e : ε} {a : α} :
    (ofOption o e : EStateM ε σ α) s = .ok a s' ↔ o = some a ∧ s' = s := by
  cases o with
  | some b => simp [ofOption, pure_ok_iff, eq_comm]
  | none => simp [ofOption, throw_ok_iff]

/-- The value of a computation without state, or what stopped it. -/
def ofExcept (x : Except ε α) : EStateM ε σ α :=
  match x with
  | .ok a => pure a
  | .error e => throw e

/-- Such a computation returns when it has a value, and leaves the state alone. -/
theorem ofExcept_ok_iff {x : Except ε α} {a : α} :
    (ofExcept x : EStateM ε σ α) s = .ok a s' ↔ x = .ok a ∧ s' = s := by
  cases x with
  | ok b => simp [ofExcept, pure_ok_iff, eq_comm]
  | error e => simp [ofExcept, throw_ok_iff]

/-- A sequence of computations without state has a value when both of its parts do. -/
theorem except_bind_eq_ok_iff {x : Except ε α} {g : α → Except ε β} {b : β} :
    (x >>= g) = .ok b ↔ ∃ a, x = .ok a ∧ g a = .ok b := by
  cases x with
  | ok a => simp [bind, Except.bind]
  | error e => simp [bind, Except.bind]

/-- A bounded loop has a value when it ends with one. -/
theorem getD_error_eq_ok_iff {o : Option (Except ε α)} {e : ε} {a : α} :
    o.getD (.error e) = .ok a ↔ o = some (.ok a) := by
  cases o with
  | none => simp
  | some x => simp

/-- The state that code leaves when it returns. -/
def returned {ε σ : Type} : EStateM.Result ε σ Unit → Option σ
  | .ok _ s => some s
  | .error _ _ => none

/-- The state that code has left is the one with which it returned. -/
theorem returned_eq_some_iff {ε σ : Type} {r : EStateM.Result ε σ Unit} {s : σ} :
    returned r = some s ↔ r = .ok () s := by
  cases r with
  | ok a s' => simp [returned]
  | error e s' => simp [returned]

/-- A check on a value that is there. -/
theorem exists_of_any {α : Type*} {o : Option α} {Q : α → Prop} [DecidablePred Q]
    (h : (o.any fun a => Q a) = true) : ∃ a, o = some a ∧ Q a := by
  cases o with
  | none => cases h
  | some a => exact ⟨a, rfl, by simpa using h⟩

end Steps

section Zoom

variable {ε σ τ α β : Type}

/-- Code that works on a part of the state, given how the part is read and put back. -/
def zoom (part : σ → τ) (put : τ → σ → σ) (x : EStateM ε τ α) : EStateM ε σ α := fun s =>
  match x (part s) with
  | .ok a t => .ok a (put t s)
  | .error e t => .error e (put t s)

/-- Such code returns when it does on the part. -/
theorem zoom_ok_iff {part : σ → τ} {put : τ → σ → σ} {x : EStateM ε τ α} {s s' : σ} {a : α} :
    zoom part put x s = .ok a s' ↔ ∃ t, x (part s) = .ok a t ∧ s' = put t s := by
  unfold zoom
  cases x (part s) with
  | ok b t => simp [eq_comm, and_assoc]
  | error e t => simp

end Zoom

section ForM

variable {ε σ α : Type} {s s' : σ}

/-- A loop over a list returns when its first pass does and the rest does from there. -/
theorem forM_cons_ok_iff {f : α → EStateM ε σ Unit} {a : α} {as : List α} {u : Unit} :
    (forM (a :: as) f : EStateM ε σ Unit) s = .ok u s' ↔
      ∃ s1, f a s = .ok () s1 ∧ (forM as f : EStateM ε σ Unit) s1 = .ok u s' := by
  rw [List.forM_cons, bind_ok_iff]
  constructor
  · rintro ⟨⟨⟩, s1, h1, h2⟩
    exact ⟨s1, h1, h2⟩
  · rintro ⟨s1, h1, h2⟩
    exact ⟨(), s1, h1, h2⟩

/-- The invariant rule for a loop over a list: what holds at the start, and is carried by every
pass from one prefix of the list to the next, holds of the whole list at the end. -/
theorem forM_induction {f : α → EStateM ε σ Unit} {u : Unit} (Inv : List α → σ → Prop)
    {as : List α} (hstep : ∀ pre a post s s', as = pre ++ a :: post → Inv pre s →
      f a s = .ok () s' → Inv (pre ++ [a]) s')
    (h0 : Inv [] s) (h : (forM as f : EStateM ε σ Unit) s = .ok u s') : Inv as s' := by
  -- Generalised to a loop that has the prefix `pre` behind it.
  suffices ∀ post pre s, as = pre ++ post → Inv pre s →
      (forM post f : EStateM ε σ Unit) s = .ok u s' → Inv as s' from
    this as [] s rfl h0 h
  intro post
  induction post with
  | nil =>
    intro pre s has hinv h
    rw [List.forM_nil, pure_ok_iff] at h
    rw [has, List.append_nil, ← h.2]
    exact hinv
  | cons a post ih =>
    intro pre s has hinv h
    obtain ⟨s1, h1, h2⟩ := forM_cons_ok_iff.mp h
    exact ih (pre ++ [a]) s1 (by simp [has]) (hstep pre a post s s1 has hinv h1) h2

/-- The rule for total correctness: a loop whose passes return and keep an invariant returns. -/
theorem forM_of_invariant {f : α → EStateM ε σ Unit} (Inv : σ → Prop) {as : List α}
    (hstep : ∀ a ∈ as, ∀ s, Inv s → ∃ s', f a s = .ok () s' ∧ Inv s') (h0 : Inv s) :
    ∃ s', (forM as f : EStateM ε σ Unit) s = .ok () s' ∧ Inv s' := by
  induction as generalizing s with
  | nil => exact ⟨s, rfl, h0⟩
  | cons a as ih =>
    obtain ⟨s1, h1, hinv⟩ := hstep a List.mem_cons_self s h0
    obtain ⟨s', h2, hinv'⟩ := ih (fun a ha => hstep a (List.mem_cons_of_mem _ ha)) hinv
    exact ⟨s', forM_cons_ok_iff.mpr ⟨s1, h1, h2⟩, hinv'⟩

end ForM

section FoldM

variable {ε σ α β : Type} {s s' : σ} {b b' : β}

/-- A loop over a list that hands a value on returns when its first pass does and the rest does from
there. -/
theorem foldlM_cons_ok_iff {f : β → α → EStateM ε σ β} {a : α} {as : List α} :
    (List.foldlM f b (a :: as) : EStateM ε σ β) s = .ok b' s' ↔
      ∃ b1 s1, f b a s = .ok b1 s1 ∧ (List.foldlM f b1 as : EStateM ε σ β) s1 = .ok b' s' := by
  rw [List.foldlM_cons, bind_ok_iff]

/-- The invariant rule for such a loop. -/
theorem foldlM_induction {f : β → α → EStateM ε σ β} (Inv : List α → β → σ → Prop) {as : List α}
    (hstep : ∀ pre a post b b' s s', as = pre ++ a :: post → Inv pre b s →
      f b a s = .ok b' s' → Inv (pre ++ [a]) b' s')
    (h0 : Inv [] b s) (h : (List.foldlM f b as : EStateM ε σ β) s = .ok b' s') : Inv as b' s' := by
  -- Generalised to a loop that has the prefix `pre` behind it, as for `forM`.
  suffices ∀ post pre b s, as = pre ++ post → Inv pre b s →
      (List.foldlM f b post : EStateM ε σ β) s = .ok b' s' → Inv as b' s' from
    this as [] b s rfl h0 h
  intro post
  induction post with
  | nil =>
    intro pre b s has hinv h
    rw [List.foldlM_nil, pure_ok_iff] at h
    rw [has, List.append_nil, ← h.1, ← h.2]
    exact hinv
  | cons a post ih =>
    intro pre b s has hinv h
    obtain ⟨b1, s1, h1, h2⟩ := foldlM_cons_ok_iff.mp h
    exact ih (pre ++ [a]) b1 s1 (by simp [has]) (hstep pre a post b b1 s s1 has hinv h1) h2

end FoldM

section LoopM

variable {ε σ β γ : Type} {body : β → EStateM ε σ (β ⊕ γ)} {e : ε} {n : ℕ} {b : β} {c : γ}
  {s s' : σ}

/-- A loop with a bound on its passes. A pass goes round again with a value or leaves the loop with
a result; a loop that is not left within the bound stops with `e`. -/
def loopM (body : β → EStateM ε σ (β ⊕ γ)) (e : ε) : ℕ → β → EStateM ε σ γ
  | 0, _ => throw e
  | n + 1, b => do
    match ← body b with
    | .inl b' => loopM body e n b'
    | .inr c => return c

/-- A loop returns when its first pass leaves it, or goes round again and the rest returns. -/
theorem loopM_succ_ok_iff :
    loopM body e (n + 1) b s = .ok c s' ↔
      body b s = .ok (.inr c) s' ∨
        ∃ b1 s1, body b s = .ok (.inl b1) s1 ∧ loopM body e n b1 s1 = .ok c s' := by
  rw [loopM, bind_ok_iff]
  constructor
  · rintro ⟨b1 | c1, s1, hbody, hrest⟩
    · exact .inr ⟨b1, s1, hbody, hrest⟩
    · obtain ⟨rfl, rfl⟩ := pure_ok_iff.mp hrest
      exact .inl hbody
  · rintro (hbody | ⟨b1, s1, hbody, hrest⟩)
    · exact ⟨.inr c, s', hbody, pure_ok_iff.mpr ⟨rfl, rfl⟩⟩
    · exact ⟨.inl b1, s1, hbody, hrest⟩

/-- The invariant rule for such a loop: what holds at the start and is kept by every pass that
returns holds at the end of a loop that returns. -/
theorem loopM_invariant (Inv : σ → Prop)
    (hstep : ∀ b r s s', Inv s → body b s = .ok r s' → Inv s') (h0 : Inv s)
    (h : loopM body e n b s = .ok c s') : Inv s' := by
  induction n generalizing b s with
  | zero => exact absurd h (by simp [loopM, throw_ok_iff])
  | succ n ih =>
    rcases loopM_succ_ok_iff.mp h with hbody | ⟨b1, s1, hbody, hrest⟩
    · exact hstep b _ s s' h0 hbody
    · exact ih (hstep b _ s s1 h0 hbody) hrest

/-- What is noted of the passes of a loop that go round again, by the values before and after a
pass. -/
def loopLog {α : Type} (body : β → EStateM ε σ (β ⊕ γ)) (note : β → β → List α) :
    ℕ → β → σ → List α
  | 0, _, _ => []
  | n + 1, b, s =>
    match body b s with
    | .ok (.inl b') s' => note b b' ++ loopLog body note n b' s'
    | _ => []

/-- The invariant rule for the value that a loop hands on, the state and what has been noted: what
the pass that leaves the loop establishes holds at the end. -/
theorem loopM_log_induction {α : Type} (note : β → β → List α) (Inv : List α → β → σ → Prop)
    (Post : List α → γ → σ → Prop)
    (hstep : ∀ log b s b' s', Inv log b s → body b s = .ok (.inl b') s' →
      Inv (log ++ note b b') b' s')
    (hleave : ∀ log b s c s', Inv log b s → body b s = .ok (.inr c) s' → Post log c s')
    (h0 : Inv [] b s) (h : loopM body e n b s = .ok c s') :
    Post (loopLog body note n b s) c s' := by
  -- Generalised to a loop of which something has been noted already.
  suffices ∀ log b s, Inv log b s → loopM body e n b s = .ok c s' →
      Post (log ++ loopLog body note n b s) c s' from this [] b s h0 h
  clear h0 h
  induction n with
  | zero => exact fun _ _ _ _ h => absurd h (by simp [loopM, throw_ok_iff])
  | succ n ih =>
    intro log b s h0 h
    rcases loopM_succ_ok_iff.mp h with hbody | ⟨b1, s1, hbody, hrest⟩
    · simp only [loopLog, hbody, List.append_nil]
      exact hleave log b s c s' h0 hbody
    · simp only [loopLog, hbody]
      rw [← List.append_assoc]
      exact ih _ b1 s1 (hstep log b s b1 s1 h0 hbody) hrest

/-- The same where nothing is noted. -/
theorem loopM_induction (Inv : β → σ → Prop) (Post : γ → σ → Prop)
    (hstep : ∀ b s b' s', Inv b s → body b s = .ok (.inl b') s' → Inv b' s')
    (hleave : ∀ b s c s', Inv b s → body b s = .ok (.inr c) s' → Post c s') (h0 : Inv b s)
    (h : loopM body e n b s = .ok c s') : Post c s' :=
  loopM_log_induction (fun _ _ => ([] : List Unit)) (fun _ b s => Inv b s) (fun _ c s => Post c s)
    (fun _ => hstep) (fun _ => hleave) h0 h

/-- The value with which a loop makes its last pass. -/
def loopLast (body : β → EStateM ε σ (β ⊕ γ)) : ℕ → β → σ → β
  | 0, b, _ => b
  | n + 1, b, s =>
    match body b s with
    | .ok (.inl b') s' => loopLast body n b' s'
    | _ => b

/-- The invariant holds of the last value, from which a pass leaves the loop. -/
theorem loopM_last (Inv : β → σ → Prop)
    (hstep : ∀ b s b' s', Inv b s → body b s = .ok (.inl b') s' → Inv b' s') (h0 : Inv b s)
    (h : loopM body e n b s = .ok c s') :
    ∃ s1, Inv (loopLast body n b s) s1 ∧ body (loopLast body n b s) s1 = .ok (.inr c) s' := by
  induction n generalizing b s with
  | zero => exact absurd h (by simp [loopM, throw_ok_iff])
  | succ n ih =>
    rcases loopM_succ_ok_iff.mp h with hbody | ⟨b1, s1, hbody, hrest⟩
    · simp only [loopLast, hbody]
      exact ⟨s, h0, hbody⟩
    · simp only [loopLast, hbody]
      exact ih (hstep b s b1 s1 h0 hbody) hrest

/-- The rule for total correctness: a loop whose passes return and keep an invariant with a smaller
measure returns within as many passes as the measure says, and what the pass that leaves it
establishes holds then. -/
theorem loopM_of_measure (Inv : ℕ → β → σ → Prop) (Post : γ → σ → Prop)
    (hstep : ∀ k b s, Inv k b s →
      (∃ k' b' s', k' < k ∧ body b s = .ok (.inl b') s' ∧ Inv k' b' s') ∨
        ∃ c s', body b s = .ok (.inr c) s' ∧ Post c s')
    {k : ℕ} (h0 : Inv k b s) (hn : k < n) :
    ∃ c s', loopM body e n b s = .ok c s' ∧ Post c s' := by
  induction n generalizing k b s with
  | zero => exact absurd hn (Nat.not_lt_zero _)
  | succ n ih =>
    rcases hstep k b s h0 with ⟨k', b1, s1, hlt, hbody, hinv⟩ | ⟨c, s', hbody, hpost⟩
    · obtain ⟨c, s', hrest, hpost⟩ := ih hinv (by omega)
      exact ⟨c, s', loopM_succ_ok_iff.mpr (.inr ⟨b1, s1, hbody, hrest⟩), hpost⟩
    · exact ⟨c, s', loopM_succ_ok_iff.mpr (.inl hbody), hpost⟩

end LoopM

section Keeps

variable {ε σ α β γ : Type} {Inv : σ → Prop}

/-- The state that code leaves, whether it returns or stops. -/
def leaves (x : EStateM ε σ α) (s : σ) : σ :=
  match x s with
  | .ok _ s' => s'
  | .error _ s' => s'

/-- Code that returns leaves the state with which it returns. -/
theorem leaves_ok {x : EStateM ε σ α} {a : α} {s s' : σ} (h : x s = .ok a s') :
    leaves x s = s' := by
  rw [leaves, h]

/-- Code that stops leaves the state in which it has stopped. -/
theorem leaves_error {x : EStateM ε σ α} {e : ε} {s s' : σ} (h : x s = .error e s') :
    leaves x s = s' := by
  rw [leaves, h]

/-- What a sequence leaves, when its first part returns. -/
theorem leaves_bind_ok {x : EStateM ε σ α} {g : α → EStateM ε σ β} {a : α} {s s' : σ}
    (h : x s = .ok a s') : leaves (x >>= g) s = leaves (g a) s' := by
  rw [leaves, bind_of_ok h]
  rfl

/-- What a sequence leaves, when its first part stops. -/
theorem leaves_bind_error {x : EStateM ε σ α} {g : α → EStateM ε σ β} {e : ε} {s s' : σ}
    (h : x s = .error e s') : leaves (x >>= g) s = s' := by
  show (match EStateM.bind x g s with | .ok _ t => t | .error _ t => t) = _
  simp only [EStateM.bind, h]

/-- Code that keeps a property of the state, also when it stops. -/
def Keeps (Inv : σ → Prop) (x : EStateM ε σ α) : Prop := ∀ s, Inv s → Inv (leaves x s)

/-- Returning a value keeps everything. -/
theorem keeps_pure (a : α) : Keeps Inv (pure a : EStateM ε σ α) := fun _ hs => hs

/-- Stopping keeps everything. -/
theorem keeps_throw (e : ε) : Keeps Inv (throw e : EStateM ε σ α) := fun _ hs => hs

/-- Reading the state keeps everything. -/
theorem keeps_get : Keeps Inv (get : EStateM ε σ σ) := fun _ hs => hs

/-- A change of the state keeps what the change keeps. -/
theorem keeps_modify {g : σ → σ} (h : ∀ s, Inv s → Inv (g s)) :
    Keeps Inv (modify g : EStateM ε σ Unit) := h

/-- A check keeps everything, whether it stops the code or not. -/
theorem keeps_require (c : Prop) [Decidable c] (e : ε) :
    Keeps Inv (require c e : EStateM ε σ Unit) := by
  unfold require
  split_ifs
  · exact keeps_pure ()
  · exact keeps_throw e

/-- Taking the value of an option keeps everything. -/
theorem keeps_ofOption (o : Option α) (e : ε) : Keeps Inv (ofOption o e : EStateM ε σ α) := by
  cases o with
  | some a => exact keeps_pure a
  | none => exact keeps_throw e

/-- A computation without state keeps everything. -/
theorem keeps_ofExcept (x : Except ε α) : Keeps Inv (ofExcept x : EStateM ε σ α) := by
  cases x with
  | ok a => exact keeps_pure a
  | error e => exact keeps_throw e

/-- A sequence keeps what its parts keep. -/
theorem Keeps.bind {x : EStateM ε σ α} {g : α → EStateM ε σ β} (hx : Keeps Inv x)
    (hg : ∀ a, Keeps Inv (g a)) : Keeps Inv (x >>= g) := by
  intro s hs
  have hs' := hx s hs
  cases h : x s with
  | ok a s' =>
    rw [leaves_ok h] at hs'
    rw [leaves_bind_ok h]
    exact hg a s' hs'
  | error e s' =>
    rw [leaves_error h] at hs'
    rw [leaves_bind_error h]
    exact hs'

/-- What code keeps holds when it has returned. -/
theorem Keeps.of_ok {x : EStateM ε σ α} {a : α} {s s' : σ} (hx : Keeps Inv x) (h : x s = .ok a s')
    (hs : Inv s) : Inv s' := by
  have hs' := hx s hs
  rwa [leaves_ok h] at hs'

/-- A loop over a list keeps what its passes keep. -/
theorem keeps_forM {f : α → EStateM ε σ Unit} (h : ∀ a, Keeps Inv (f a)) (as : List α) :
    Keeps Inv (forM as f : EStateM ε σ Unit) := by
  induction as with
  | nil => exact keeps_pure ()
  | cons a as ih =>
    rw [List.forM_cons]
    exact (h a).bind fun _ => ih

/-- Code on a part of the state keeps what does not depend on the part. -/
theorem keeps_zoom {τ : Type} {part : σ → τ} {put : τ → σ → σ} (h : ∀ t s, Inv s → Inv (put t s))
    (x : EStateM ε τ α) : Keeps Inv (zoom part put x) := by
  intro s hs
  unfold leaves zoom
  cases x (part s) <;> exact h _ s hs

/-- A loop keeps what its passes keep. -/
theorem keeps_loopM {body : β → EStateM ε σ (β ⊕ γ)} (h : ∀ b, Keeps Inv (body b)) (e : ε) (n : ℕ)
    (b : β) : Keeps Inv (loopM body e n b) := by
  induction n generalizing b with
  | zero => exact keeps_throw e
  | succ n ih =>
    rw [loopM]
    refine (h b).bind fun r => ?_
    cases r with
    | inl b' => exact ih b'
    | inr c => exact keeps_pure c

end Keeps

section Errors

variable {ε σ α β : Type} {s s' s'' : σ} {e e' : ε}

/-- A sequence stops when its first part does, or its second part after the first has returned. -/
theorem bind_error_iff {x : EStateM ε σ α} {g : α → EStateM ε σ β} :
    (x >>= g) s = .error e s'' ↔
      x s = .error e s'' ∨ ∃ a s', x s = .ok a s' ∧ g a s' = .error e s'' := by
  show EStateM.bind x g s = .error e s'' ↔ _
  unfold EStateM.bind
  cases x s with
  | ok a s' => simp
  | error e s' => simp

/-- Returning a value does not stop. -/
theorem pure_error_iff {a : α} : (pure a : EStateM ε σ α) s = .error e s' ↔ False :=
  iff_of_false (fun h => nomatch h) id

/-- Changing the state does not stop. -/
theorem modify_error_iff {g : σ → σ} : (modify g : EStateM ε σ Unit) s = .error e s' ↔ False :=
  iff_of_false (fun h => nomatch h) id

/-- Throwing stops with what is thrown, and leaves the state alone. -/
theorem throw_error_iff : (throw e : EStateM ε σ α) s = .error e' s' ↔ e = e' ∧ s = s' := by
  show EStateM.Result.error e s = .error e' s' ↔ _
  simp

/-- A check stops when its condition does not hold. -/
theorem require_error_iff {c : Prop} [Decidable c] :
    (require c e : EStateM ε σ Unit) s = .error e' s' ↔ ¬ c ∧ e = e' ∧ s = s' := by
  unfold require
  split_ifs with h
  · simp [pure_error_iff, h]
  · simp [throw_error_iff, h]

/-- A computation without state stops with its error, and leaves the state alone. -/
theorem ofExcept_error_iff {x : Except ε α} :
    (ofExcept x : EStateM ε σ α) s = .error e s' ↔ x = .error e ∧ s = s' := by
  cases x with
  | ok a => simp [ofExcept, pure_error_iff]
  | error e' => simp [ofExcept, throw_error_iff]

/-- Code on a part of the state stops when it does on the part. -/
theorem zoom_error_iff {τ : Type} {part : σ → τ} {put : τ → σ → σ} {x : EStateM ε τ α} :
    zoom part put x s = .error e s' ↔ ∃ t, x (part s) = .error e t ∧ s' = put t s := by
  unfold zoom
  cases x (part s) with
  | ok b t => simp
  | error e t => simp [eq_comm, and_assoc]

/-- What stopped code, with the state that it leaves. -/
def stopped : EStateM.Result ε σ α → Option (ε × σ)
  | .ok _ _ => none
  | .error e s => some (e, s)

/-- What stopped code is its error, with the state at that point. -/
theorem stopped_eq_some_iff {r : EStateM.Result ε σ α} :
    stopped r = some (e, s) ↔ r = .error e s := by
  cases r with
  | ok a s' => simp [stopped]
  | error e s' => simp [stopped]

/-- Code that can stop only in certain ways. -/
def Throws (E : ε → Prop) (x : EStateM ε σ α) : Prop := ∀ s e s', x s = .error e s' → E e

variable {E : ε → Prop}

/-- Returning a value does not throw. -/
theorem throws_pure (a : α) : Throws E (pure a : EStateM ε σ α) := fun _ _ _ h => nomatch h

/-- Reading the state does not throw. -/
theorem throws_get : Throws E (get : EStateM ε σ σ) := fun _ _ _ h => nomatch h

/-- Changing the state does not throw. -/
theorem throws_modify (g : σ → σ) : Throws E (modify g : EStateM ε σ Unit) :=
  fun _ _ _ h => nomatch h

/-- Throwing throws what is thrown. -/
theorem throws_throw (he : E e) : Throws E (throw e : EStateM ε σ α) :=
  fun _ _ _ h => (throw_error_iff.mp h).1 ▸ he

/-- A computation without state throws its error. -/
theorem throws_ofExcept {x : Except ε α} (h : ∀ e, x = .error e → E e) :
    Throws E (ofExcept x : EStateM ε σ α) :=
  fun _ _ _ hx => h _ (ofExcept_error_iff.mp hx).1

/-- A sequence throws what its parts throw. -/
theorem Throws.bind {x : EStateM ε σ α} {g : α → EStateM ε σ β} (hx : Throws E x)
    (hg : ∀ a, Throws E (g a)) : Throws E (x >>= g) := by
  intro s e s'' h
  rcases bind_error_iff.mp h with h | ⟨a, s', -, h⟩
  · exact hx _ _ _ h
  · exact hg a _ _ _ h

/-- A loop over a list throws what its passes throw. -/
theorem throws_forM {f : α → EStateM ε σ Unit} {as : List α} (h : ∀ a ∈ as, Throws E (f a)) :
    Throws E (forM as f : EStateM ε σ Unit) := by
  induction as with
  | nil => exact throws_pure ()
  | cons a as ih =>
    rw [List.forM_cons]
    exact (h a List.mem_cons_self).bind fun _ => ih fun b hb => h b (List.mem_cons_of_mem _ hb)

end Errors

end SwiftRuntime
