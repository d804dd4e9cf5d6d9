import Mathlib.Logic.Function.Basic
import Mathlib.Data.List.Nodup
import Mathlib.Tactic.Common

/-!
# Forwarding stored values to loads

A pass over a list of instructions that replaces loads of variables by the values last stored to
them. An instruction is also the name of the value it defines, and `home` groups values. The pass
keeps the value that each variable holds (`cur`), and forwards a load to it if both have the same
home: from then on the load stands for that value (`fwd`), and its own value is given up. A store
puts the value that its argument stands for into the variable, unless that value has itself been
given up.

`Forwardable` says from the list alone which loads the pass would forward if no value were ever
given up under the hands of a store: those with a last store before them (`Reaching`) whose argument
has the same home. The pass forwards no other loads (`exists_reaching`), and exactly these when the
list is `Settled` (`fwd_of_settled`). The other lemmas are about the case that it is not, and about
passes that follow the first one.
-/

namespace SwiftRuntime.Forwarding

/-- What an instruction does to the variables. -/
inductive Act (ι L : Type*)
  | load (l : L)
  | store (l : L) (a : ι)
  | other
deriving DecidableEq

/-- The state of the pass. -/
structure State (ι L : Type*) where
  /-- The value that a forwarded load stands for. -/
  fwd : ι → Option ι
  /-- The value that a variable holds. -/
  cur : L → Option ι

/-- The state before a pass: no variable holds a value. -/
def State.start {ι L : Type*} (fwd : ι → Option ι) : State ι L := ⟨fwd, fun _ => none⟩

/-- What a value stands for. -/
def State.subst {ι L : Type*} (σ : State ι L) (a : ι) : ι := (σ.fwd a).getD a

/-- What a store of a value puts into its variable. -/
def State.stored {ι L : Type*} (σ : State ι L) (a : ι) : Option ι :=
  if (σ.fwd (σ.subst a)).isNone then some (σ.subst a) else none

section Pass

variable {ι L B : Type*} [DecidableEq ι] [DecidableEq L] [DecidableEq B] (act : ι → Act ι L)
  (home : ι → B)

/-- The pass at one instruction. -/
def step (σ : State ι L) (u : ι) : State ι L :=
  match act u with
  | .load l =>
    match σ.cur l with
    | some w =>
      if home w = home u ∧ (σ.fwd u).isNone then { σ with fwd := Function.update σ.fwd u (some w) }
      else σ
    | none => σ
  | .store l a => { σ with cur := Function.update σ.cur l (σ.stored a) }
  | .other => σ

/-- The pass over a list. -/
def run (σ : State ι L) (us : List ι) : State ι L := us.foldl (step act home) σ

/-- In the list `xs`, the load `x` comes after the store `s` of `a` with no other store to its
variable between them, and `p` is what comes before the store. -/
def Reaching (xs p : List ι) (s a x : ι) : Prop :=
  ∃ l q post, xs = p ++ s :: (q ++ x :: post) ∧ act x = .load l ∧ act s = .store l a ∧
    ∀ u ∈ q, ∀ c, act u ≠ .store l c

/-- The last value stored before a load has the home of the load. -/
def Forwardable (xs : List ι) (x : ι) : Prop := ∃ p s a, Reaching act xs p s a x ∧ home a = home x

/-- Where the argument of a reaching store is itself forwardable, it comes before the store. -/
def Settled (used : ι → Prop) (xs : List ι) : Prop :=
  ∀ x p s a, used x → Reaching act xs p s a x → home a = home x → Forwardable act home xs a → a ∈ p

/-- Forwarding keeps to homes. -/
def AtHome (fwd : ι → Option ι) : Prop := ∀ x w, fwd x = some w → home w = home x

end Pass

section Stores

variable {ι L B : Type*} {act : ι → Act ι L} {home : ι → B} {σ : State ι L} {a w : ι} {l : L}

/-- At the start nothing is forwarded, so nothing away from home. -/
theorem AtHome.start : AtHome home (State.start (L := L) fun _ : ι => none).fwd := by
  intro x w h
  cases h

/-- What a store puts into its variable: the argument, or what it has been forwarded to. -/
theorem stored_eq_some_iff :
    σ.stored a = some w ↔ σ.fwd w = none ∧ (w = a ∨ σ.fwd a = some w) := by
  unfold State.stored State.subst
  cases ha : σ.fwd a with
  -- An argument that is not forwarded is stored itself.
  | none =>
    simp only [Option.getD_none, ha, Option.isNone_none, if_true, Option.some.injEq, reduceCtorEq,
      or_false]
    constructor
    · rintro rfl
      exact ⟨ha, rfl⟩
    · exact fun h => h.2.symm
  -- A forwarded one is replaced, unless its replacement has been given up as well.
  | some v =>
    simp only [Option.getD_some, Option.some.injEq]
    split_ifs with hv
    · rw [Option.isNone_iff_eq_none] at hv
      constructor
      · intro h
        cases h
        exact ⟨hv, .inr rfl⟩
      · rintro ⟨hw, rfl | rfl⟩
        · rw [hw] at ha
          cases ha
        · rfl
    · constructor
      · intro h
        cases h
      · rintro ⟨hw, rfl | rfl⟩
        · rw [hw] at ha
          cases ha
        · rw [hw] at hv
          exact absurd rfl hv

/-- A store puts nothing into its variable only if its argument was forwarded to a value that was
given up. -/
theorem exists_of_stored_eq_none (h : σ.stored a = none) :
    ∃ w, σ.fwd a = some w ∧ σ.fwd w ≠ none := by
  cases ha : σ.fwd a with
  | none =>
    have := stored_eq_some_iff.mpr ⟨ha, .inl rfl⟩
    rw [h] at this
    cases this
  | some w =>
    refine ⟨w, rfl, fun hw => ?_⟩
    have := stored_eq_some_iff.mpr ⟨hw, .inr ha⟩
    rw [h] at this
    cases this

/-- The last store to a variable in a list that has one. -/
theorem exists_last_store {us : List ι} (h : ∃ u ∈ us, ∃ c, act u = .store l c) :
    ∃ p s q a, us = p ++ s :: q ∧ act s = .store l a ∧ ∀ u ∈ q, ∀ c, act u ≠ .store l c := by
  induction us with
  | nil =>
    obtain ⟨u, hu, -⟩ := h
    cases hu
  | cons v us ih =>
    by_cases hus : ∃ u ∈ us, ∃ c, act u = .store l c
    · obtain ⟨p, s, q, a, rfl, hs, hq⟩ := ih hus
      exact ⟨v :: p, s, q, a, rfl, hs, hq⟩
    · obtain ⟨u, hu, c, hc⟩ := h
      rcases List.mem_cons.mp hu with rfl | hu
      · exact ⟨[], u, us, c, rfl, hc, fun w hw d hd => hus ⟨w, hw, d, hd⟩⟩
      · exact absurd ⟨u, hu, c, hc⟩ hus

end Stores

section Lemmas

variable {ι L B : Type*} [DecidableEq ι] [DecidableEq L] [DecidableEq B] {act : ι → Act ι L}
  {home : ι → B} {σ : State ι L} {xs p q : List ι} {u s a x w : ι} {l : L}

/-! ## One step -/

/-- A load is forwarded to what its variable holds, if that is of the same home. -/
theorem step_load (hu : act u = .load l) :
    step act home σ u =
      match σ.cur l with
      | some w =>
        if home w = home u ∧ (σ.fwd u).isNone then
          { σ with fwd := Function.update σ.fwd u (some w) }
        else σ
      | none => σ := by
  unfold step
  rw [hu]

/-- A store changes what its variable holds, and nothing else. -/
theorem step_store (hu : act u = .store l a) :
    step act home σ u = { σ with cur := Function.update σ.cur l (σ.stored a) } := by
  unfold step
  rw [hu]

/-- Other instructions change nothing. -/
theorem step_other (hu : act u = .other) : step act home σ u = σ := by
  unfold step
  rw [hu]

variable (act home σ u) in
/-- A step changes what an instruction stands for only at the instruction itself, where it is a load
of a variable with a value of its home. -/
theorem step_fwd_cases (x : ι) :
    (step act home σ u).fwd x = σ.fwd x ∨
      ∃ l w, x = u ∧ act u = .load l ∧ σ.cur l = some w ∧ home w = home u ∧ σ.fwd u = none ∧
        (step act home σ u).fwd u = some w := by
  cases hu : act u with
  -- Only a load changes what is forwarded, and only for itself.
  | load l =>
    rw [step_load hu]
    cases hcur : σ.cur l with
    | none => exact .inl rfl
    | some w =>
      dsimp only
      split_ifs with hif
      · by_cases hx : x = u
        · subst hx
          exact .inr ⟨l, w, rfl, rfl, hcur, hif.1, Option.isNone_iff_eq_none.mp hif.2, by simp⟩
        · exact .inl (by simp [hx])
      · exact .inl rfl
  | store l a => exact .inl (by rw [step_store hu])
  | other => exact .inl (by rw [step_other hu])

/-- A forwarded load is never forwarded again. -/
theorem step_fwd_of_some (h : σ.fwd x = some w) : (step act home σ u).fwd x = some w := by
  rcases step_fwd_cases act home σ u x with
    heq | ⟨l, w', rfl, -, -, -, hnone, -⟩
  · rw [heq, h]
  · rw [h] at hnone
    cases hnone

/-- An instruction forwards no other one. -/
theorem step_fwd_of_ne (h : x ≠ u) : (step act home σ u).fwd x = σ.fwd x := by
  rcases step_fwd_cases act home σ u x with heq | ⟨_, _, rfl, -⟩
  · exact heq
  · exact absurd rfl h

/-- A variable changes only by a store to it. -/
theorem step_cur_of_not_store (h : ∀ c, act u ≠ .store l c) :
    (step act home σ u).cur l = σ.cur l := by
  cases hu : act u with
  | load l' =>
    rw [step_load hu]
    cases σ.cur l' with
    | none => rfl
    | some w =>
      dsimp only
      split_ifs <;> rfl
  | store l' a =>
    have hl : l ≠ l' := fun e => h a (e ▸ hu)
    simp [step_store hu, hl]
  | other => rw [step_other hu]

/-- A step keeps to homes. -/
theorem AtHome.step (h : AtHome home σ.fwd) : AtHome home (step act home σ u).fwd := by
  intro x w hx
  rcases step_fwd_cases act home σ u x with
    heq | ⟨l, w', rfl, -, -, hhome, -, hfwd⟩
  · rw [heq] at hx
    exact h x w hx
  · rw [hfwd] at hx
    cases hx
    exact hhome

/-! ## Whole passes -/

/-- A run over two parts, one after the other. -/
theorem run_append (us vs : List ι) :
    run act home σ (us ++ vs) = run act home (run act home σ us) vs :=
  List.foldl_append ..

/-- A run starts with the step of the first instruction. -/
theorem run_cons (us : List ι) :
    run act home σ (u :: us) = run act home (step act home σ u) us := rfl

/-- What has been forwarded stays forwarded. -/
theorem run_fwd_of_some (h : σ.fwd x = some w) (us : List ι) :
    (run act home σ us).fwd x = some w := by
  induction us generalizing σ with
  | nil => exact h
  | cons u us ih => exact ih (step_fwd_of_some h)

/-- A run does not forward instructions that are not in it. -/
theorem run_fwd_of_notMem {us : List ι} (h : x ∉ us) : (run act home σ us).fwd x = σ.fwd x := by
  induction us generalizing σ with
  | nil => rfl
  | cons u us ih =>
    rw [run_cons, ih (fun hm => h (List.mem_cons_of_mem _ hm)),
      step_fwd_of_ne (List.ne_of_not_mem_cons h)]

/-- A run without stores to a variable leaves what it holds. -/
theorem run_cur_of_not_store {us : List ι} (h : ∀ u ∈ us, ∀ c, act u ≠ .store l c) :
    (run act home σ us).cur l = σ.cur l := by
  induction us generalizing σ with
  | nil => rfl
  | cons u us ih =>
    rw [run_cons, ih (fun v hv => h v (List.mem_cons_of_mem _ hv)),
      step_cur_of_not_store (h u List.mem_cons_self)]

/-- A variable holds what the last store to it has put there. -/
theorem run_cur_of_last (hs : act s = .store l a) (hq : ∀ u ∈ q, ∀ c, act u ≠ .store l c) :
    (run act home σ (p ++ s :: q)).cur l = (run act home σ p).stored a := by
  rw [run_append, run_cons, run_cur_of_not_store hq, step_store hs]
  exact Function.update_self ..

/-- A run forwards loads inside of their homes only. -/
theorem AtHome.run (h : AtHome home σ.fwd) (us : List ι) : AtHome home (run act home σ us).fwd := by
  induction us generalizing σ with
  | nil => exact h
  | cons u us ih => exact ih h.step

/-! ## Loads and the stores that reach them -/

/-- A variable that holds a value has been stored to. -/
theorem exists_store_of_cur {fwd : ι → Option ι} {us : List ι}
    (h : (run act home (.start fwd) us).cur l = some w) : ∃ u ∈ us, ∃ c, act u = .store l c := by
  by_contra hno
  push Not at hno
  rw [run_cur_of_not_store hno] at h
  cases h

/-- In a list without repetitions, a pass over a prefix has forwarded what the whole pass forwards,
up to there. -/
theorem run_of_append (hxs : (p ++ q).Nodup) (hσ : ∀ y ∈ q, σ.fwd y = none) (y : ι) :
    (run act home σ p).fwd y = if y ∈ q then none else (run act home σ (p ++ q)).fwd y := by
  split_ifs with hy
  · have hp : y ∉ p := fun hp => (List.nodup_append.mp hxs).2.2 y hp y hy rfl
    rw [run_fwd_of_notMem hp, hσ y hy]
  · rw [run_append, run_fwd_of_notMem hy]

/-- A load that a pass forwards has a reaching store, and goes to what that store has put into the
variable. -/
theorem exists_reaching {fwd : ι → Option ι} (hxs : xs.Nodup) (hx : fwd x = none)
    (h : (run act home (.start fwd) xs).fwd x = some w) :
    ∃ p s a, Reaching act xs p s a x ∧ (run act home (.start fwd) p).stored a = some w ∧
      home w = home x := by
  -- What is not in the run is not forwarded by it.
  have hmem : x ∈ xs := by
    by_contra hno
    rw [run_fwd_of_notMem hno] at h
    exact absurd h (by simp [State.start, hx])
  obtain ⟨pre, post, rfl⟩ := List.append_of_mem hmem
  have hpre : x ∉ pre := fun hp => (List.nodup_append.mp hxs).2.2 x hp x List.mem_cons_self rfl
  have hpost : x ∉ post := (List.nodup_cons.mp (List.nodup_append.mp hxs).2.1).1
  rw [run_append, run_cons, run_fwd_of_notMem hpost] at h
  -- So the step at `x` forwards it, to what the last store has left in the variable.
  rcases step_fwd_cases act home (run act home (.start fwd) pre) x x with
    heq | ⟨l, w', -, hload, hcur, hhome, -, hfwd⟩
  · rw [heq, run_fwd_of_notMem hpre] at h
    exact absurd h (by simp [State.start, hx])
  · rw [hfwd] at h
    cases h
    obtain ⟨p, s, q, a, rfl, hs, hq⟩ := exists_last_store (exists_store_of_cur hcur)
    rw [run_cur_of_last hs hq] at hcur
    exact ⟨p, s, a, ⟨l, q, post, by simp, hload, hs, hq⟩, hcur, hhome⟩

/-- The converse: a load goes to what a reaching store has put into the variable. -/
theorem fwd_of_reaching {fwd : ι → Option ι} (hxs : xs.Nodup) (hx : fwd x = none)
    (hr : Reaching act xs p s a x) (hst : (run act home (.start fwd) p).stored a = some w)
    (hhome : home w = home x) : (run act home (.start fwd) xs).fwd x = some w := by
  obtain ⟨l, q, post, rfl, hload, hs, hq⟩ := hr
  rw [show p ++ s :: (q ++ x :: post) = (p ++ s :: q) ++ x :: post by simp] at hxs ⊢
  have hpre : x ∉ p ++ s :: q := fun hp =>
    (List.nodup_append.mp hxs).2.2 x hp x List.mem_cons_self rfl
  -- When the run comes to `x` the variable holds `w`, and `x` is not forwarded yet.
  have hcur : (run act home (.start fwd) (p ++ s :: q)).cur l = some w :=
    (run_cur_of_last hs hq).trans hst
  have hnone : (run act home (.start fwd) (p ++ s :: q)).fwd x = none := by
    rw [run_fwd_of_notMem hpre]
    exact hx
  rw [run_append, run_cons]
  refine run_fwd_of_some ?_ post
  rw [step_load hload, hcur]
  simp [hhome, hnone]

/-- A load that a first pass forwards is forwardable. -/
theorem forwardable_of_fwd (hxs : xs.Nodup)
    (h : (run act home (.start fun _ => none) xs).fwd x = some w) : Forwardable act home xs x := by
  obtain ⟨p, s, a, hr, hst, hhome⟩ := exists_reaching hxs rfl h
  refine ⟨p, s, a, hr, ?_⟩
  rw [← hhome]
  rcases (stored_eq_some_iff.mp hst).2 with rfl | ha
  · rfl
  · exact ((AtHome.start (L := L)).run p a w ha).symm

/-- A reaching store whose argument comes later gives its argument to the load. -/
theorem fwd_of_reaching_of_notMem (hxs : xs.Nodup) (hr : Reaching act xs p s a x)
    (hhome : home a = home x) (ha : a ∉ p) :
    (run act home (.start fun _ => none) xs).fwd x = some a := by
  have hnone : (run act home (.start fun _ => none) p).fwd a = none := by
    rw [run_fwd_of_notMem ha]
    rfl
  exact fwd_of_reaching hxs rfl hr (stored_eq_some_iff.mpr ⟨hnone, .inl rfl⟩) hhome

/-- A forwardable load that a first pass does not forward: some store has an argument that was
forwarded to a value which was given up. -/
theorem exists_broken (hxs : xs.Nodup) (hx : Forwardable act home xs x)
    (h : (run act home (.start fun _ => none) xs).fwd x = none) :
    ∃ s ∈ xs, ∃ l a w, act s = .store l a ∧
      (run act home (.start fun _ => none) xs).fwd a = some w ∧
      (run act home (.start fun _ => none) xs).fwd w ≠ none := by
  obtain ⟨p, s, a, hr, hhome⟩ := hx
  -- Otherwise the load would go to what the store has put into the variable.
  have hst : (run act home (.start fun _ => none) p).stored a = none := by
    by_contra hne
    obtain ⟨w, hw⟩ := Option.ne_none_iff_exists'.mp hne
    have hwhome : home w = home x := by
      rcases (stored_eq_some_iff.mp hw).2 with rfl | ha
      · exact hhome
      · exact ((AtHome.start (L := L)).run p a w ha).trans hhome
    rw [fwd_of_reaching hxs rfl hr hw hwhome] at h
    cases h
  obtain ⟨w, ha, hw⟩ := exists_of_stored_eq_none hst
  obtain ⟨v, hv⟩ := Option.ne_none_iff_exists'.mp hw
  obtain ⟨l, q, post, rfl, -, hs, -⟩ := hr
  rw [run_append]
  exact ⟨s, by simp, l, a, w, hs, run_fwd_of_some ha _, by rw [run_fwd_of_some hv]; simp⟩

/-- In a settled list a first pass forwards every forwardable load, and a load that is used to a
value that it does not give up. -/
theorem fwd_of_settled {used : ι → Prop} (hxs : xs.Nodup)
    (hused : ∀ s ∈ xs, ∀ l a, act s = .store l a → used a) (hset : Settled act home used xs)
    (hx : Forwardable act home xs x) :
    ∃ w, (run act home (.start fun _ => none) xs).fwd x = some w ∧
      (used x → ¬ Forwardable act home xs w) := by
  -- Induction on the place of the load: the argument of its store is settled before the store.
  suffices H : ∀ n, ∀ x p s a, p.length < n → Reaching act xs p s a x → home a = home x →
      ∃ w, (run act home (.start fun _ => none) xs).fwd x = some w ∧
        (used x → ¬ Forwardable act home xs w) by
    obtain ⟨p, s, a, hr, hhome⟩ := hx
    exact H _ x p s a (Nat.lt_succ_self _) hr hhome
  intro n
  induction n with
  | zero => intro x p s a hlt; omega
  | succ n ih =>
    intro x p s a hlt hr hhome
    have hsxs : s ∈ xs := by
      obtain ⟨l, q, post, rfl, -⟩ := hr
      simp
    have hsa : used a := by
      obtain ⟨l, q, post, -, -, hs, -⟩ := hr
      exact hused s hsxs l a hs
    have hsplit : p ++ xs.drop p.length = xs := by
      obtain ⟨l, q, post, rfl, -⟩ := hr
      simp
    have hpre : ∀ y, (run act home (.start fun _ => none) p).fwd y =
        if y ∈ xs.drop p.length then none else (run act home (.start fun _ => none) xs).fwd y := by
      intro y
      rw [run_of_append (hsplit.symm ▸ hxs) (fun _ _ => rfl) y, hsplit]
    -- A value that comes before the store and is forwardable has been forwarded when the store
    -- comes.
    have hbefore : a ∈ p → Forwardable act home xs a →
        ∃ w, (run act home (.start fun _ => none) p).fwd a = some w ∧
          ¬ Forwardable act home xs w := by
      rintro ha ⟨p', s', a', hr', hhome'⟩
      have hna : a ∉ xs.drop p.length := by
        rw [← hsplit] at hxs
        exact fun hd => (List.nodup_append.mp hxs).2.2 a ha a hd rfl
      have hlen : p'.length < n := by
        obtain ⟨l', q', post', hxs', -⟩ := hr'
        by_contra hge
        apply hna
        have hle : p.length ≤ p'.length := by omega
        rw [hxs', List.drop_append_of_le_length hle]
        simp
      obtain ⟨w, hw, hnot⟩ := ih a p' s' a' hlen hr' hhome'
      refine ⟨w, ?_, hnot hsa⟩
      rw [hpre a, if_neg hna, hw]
    cases ha : (run act home (.start fun _ => none) p).fwd a with
    | some w =>
      have hap : a ∈ p := by
        by_contra hno
        rw [run_fwd_of_notMem hno] at ha
        cases ha
      have hFa : (run act home (.start fun _ => none) xs).fwd a = some w := by
        rw [← hsplit, run_append]
        exact run_fwd_of_some ha _
      obtain ⟨w', hw', hnot⟩ := hbefore hap (forwardable_of_fwd hxs hFa)
      rw [ha] at hw'
      cases hw'
      have hnone : (run act home (.start fun _ => none) p).fwd w = none := by
        by_contra hne
        obtain ⟨v, hv⟩ := Option.ne_none_iff_exists'.mp hne
        refine hnot (forwardable_of_fwd (w := v) hxs ?_)
        rw [← hsplit, run_append]
        exact run_fwd_of_some hv _
      refine ⟨w, fwd_of_reaching hxs rfl hr (stored_eq_some_iff.mpr ⟨hnone, .inr ha⟩) ?_,
        fun _ => hnot⟩
      exact ((AtHome.start (L := L)).run p a w ha).trans hhome
    | none =>
      refine ⟨a, fwd_of_reaching hxs rfl hr (stored_eq_some_iff.mpr ⟨ha, .inl rfl⟩) hhome, ?_⟩
      intro hux hfa
      obtain ⟨w, hw, -⟩ := hbefore (hset x p s a hux hr hhome hfa) hfa
      rw [ha] at hw
      cases hw

end Lemmas

end SwiftRuntime.Forwarding
