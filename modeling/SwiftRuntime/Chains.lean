import SwiftRuntime.Loop
import Mathlib.Data.List.Nodup
import Mathlib.Logic.Function.Basic
import Mathlib.Tactic.Common

/-!
# Chains through one link

Every node has one link, to the node after it. Some nodes are heads, and each of the others may be
owned by a head. `Chains` says that the links from a head lead through the nodes it owns, each of
them once, and end there. A node that is owned by nobody is linked at the end of a chain
(`Chains.link`) and taken out from the middle of one (`Chains.unlink`).

A loop along a chain comes to its end (`After.iterate_last`), to the node before a given one
(`After.iterate_before`), or to the first node it looks for (`After.iterate_find`).
-/

namespace SwiftRuntime

variable {ι : Type*}

/-- The nodes after a node, up to one without a link. -/
def After (next : ι → Option ι) : ι → List ι → Prop
  | p, [] => next p = none
  | p, g :: gs => next p = some g ∧ After next g gs

namespace After

variable {next next' : ι → Option ι} {p u : ι} {gs as bs : List ι}

/-- The nodes after a node depend on the links of these nodes. -/
theorem congr (h : After next p gs) (hsame : ∀ q ∈ p :: gs, next' q = next q) :
    After next' p gs := by
  induction gs generalizing p with
  | nil => exact (hsame p List.mem_cons_self).trans h
  | cons g gs ih =>
    exact ⟨(hsame p List.mem_cons_self).trans h.1,
      ih h.2 fun q hq => hsame q (List.mem_cons_of_mem p hq)⟩

/-- What comes after a node in the middle. -/
theorem of_append (h : After next p (as ++ u :: bs)) : After next u bs := by
  induction as generalizing p with
  | nil => exact h.2
  | cons a as ih => exact ih h.2

variable [DecidableEq ι]

/-- A node that is linked at the end comes last. -/
theorem snoc (h : After next p gs) (hnodup : (p :: gs).Nodup) (hu : u ∉ p :: gs)
    (hnone : next u = none) :
    After (Function.update next (gs.getLastD p) (some u)) p (gs ++ [u]) := by
  induction gs generalizing p with
  | nil =>
    have hne : u ≠ p := fun e => hu (e ▸ List.mem_cons_self)
    refine ⟨Function.update_self .., ?_⟩
    exact (Function.update_of_ne hne ..).trans hnone
  | cons g gs ih =>
    obtain ⟨hp, hnodup⟩ := List.nodup_cons.mp hnodup
    have hne : p ≠ gs.getLastD g := fun e => hp (e ▸ List.getLastD_mem_cons)
    rw [List.getLastD_cons]
    refine ⟨(Function.update_of_ne hne ..).trans h.1, ?_⟩
    exact ih h.2 hnodup fun hmem => hu (List.mem_cons_of_mem p hmem)

/-- A node that is taken out gives its link to the one before it. -/
theorem remove (h : After next p (as ++ u :: bs)) (hnodup : (p :: (as ++ u :: bs)).Nodup) :
    After (Function.update (Function.update next (as.getLastD p) (next u)) u none) p
      (as ++ bs) := by
  induction as generalizing p with
  -- The node comes right after `p`, which takes over its link.
  | nil =>
    rw [List.getLastD_nil]
    obtain ⟨hp, hnodup⟩ := List.nodup_cons.mp hnodup
    have hpu : p ≠ u := fun e => hp (e ▸ List.mem_cons_self)
    have hlink : Function.update (Function.update next p (next u)) u none p = next u := by
      rw [Function.update_of_ne hpu, Function.update_self]
    cases bs with
    | nil => exact hlink.trans h.2
    | cons b bs =>
      refine ⟨hlink.trans h.2.1, h.2.2.congr fun q hq => ?_⟩
      have hqu : q ≠ u := fun e => (List.nodup_cons.mp hnodup).1 (e ▸ hq)
      have hqp : q ≠ p := fun e => hp (e ▸ List.mem_cons_of_mem u hq)
      rw [Function.update_of_ne hqu, Function.update_of_ne hqp]
  -- The node comes later: the link of `p` stays, and the rest of the chain loses the node.
  | cons a as ih =>
    obtain ⟨hp, hnodup⟩ := List.nodup_cons.mp hnodup
    have hpu : p ≠ u := fun e => hp (e ▸ by simp)
    have hpa : p ≠ as.getLastD a := by
      intro e
      have hmem : as.getLastD a ∈ a :: as := List.getLastD_mem_cons
      exact hp (e ▸ List.mem_append_left _ hmem)
    rw [List.getLastD_cons]
    refine ⟨?_, ih h.2 hnodup⟩
    rw [Function.update_of_ne hpu, Function.update_of_ne hpa]
    exact h.1

end After

/-! ## Loops along a chain -/

namespace After

variable {ρ : Type*} {next : ι → Option ι} {p u : ι} {gs as bs : List ι} {n : ℕ}

/-- A loop that goes on as long as there is a link stops at the end. -/
theorem iterate_last {body : ι → ι ⊕ ρ} {r : ι → ρ} (h : After next p gs)
    (hgo : ∀ q g, next q = some g → g ∈ gs → body q = .inl g)
    (hend : ∀ q, next q = none → body q = .inr (r q)) (hn : gs.length < n) :
    iterate body n p = some (r (gs.getLastD p)) := by
  induction gs generalizing p n with
  | nil =>
    obtain ⟨n, rfl⟩ : ∃ k, n = k + 1 := ⟨n - 1, by omega⟩
    exact iterate_inr (hend p h) n
  | cons g gs ih =>
    obtain ⟨n, rfl⟩ : ∃ k, n = k + 1 := ⟨n - 1, by omega⟩
    rw [List.length_cons] at hn
    rw [iterate_inl (hgo p g h.1 List.mem_cons_self), List.getLastD_cons]
    exact ih h.2 (fun q g hq hg => hgo q g hq (List.mem_cons_of_mem _ hg)) (by omega)

/-- A loop that goes on until the link is one to `u` stops before `u`. -/
theorem iterate_before {body : ι → ι ⊕ ρ} {r : ι → ρ} (h : After next p (as ++ u :: bs))
    (hgo : ∀ q g, next q = some g → g ∈ as → body q = .inl g)
    (hstop : ∀ q, next q = some u → body q = .inr (r q)) (hn : as.length < n) :
    iterate body n p = some (r (as.getLastD p)) := by
  induction as generalizing p n with
  | nil =>
    obtain ⟨n, rfl⟩ : ∃ k, n = k + 1 := ⟨n - 1, by omega⟩
    exact iterate_inr (hstop p h.1) n
  | cons a as ih =>
    obtain ⟨n, rfl⟩ : ∃ k, n = k + 1 := ⟨n - 1, by omega⟩
    rw [List.length_cons] at hn
    rw [iterate_inl (hgo p a h.1 List.mem_cons_self), List.getLastD_cons]
    exact ih h.2 (fun q g hq hg => hgo q g hq (List.mem_cons_of_mem _ hg)) (by omega)

/-- A loop over the nodes after a node that looks at each of them stops at the first one it looks
for, or at the end. -/
theorem iterate_find {body : Option ι → Option ι ⊕ ρ} {hit : ι → Bool} {r : Option ι → ρ}
    (h : After next p gs) (hend : body none = .inr (r none))
    (hgo : ∀ g, hit g = false → body (some g) = .inl (next g))
    (hhit : ∀ g, hit g = true → body (some g) = .inr (r (some g))) (hn : gs.length < n) :
    iterate body n (next p) = some (r (gs.find? hit)) := by
  -- The loop looks at one node of the list in each pass.
  induction gs generalizing p n with
  | nil =>
    obtain ⟨n, rfl⟩ : ∃ k, n = k + 1 := ⟨n - 1, by omega⟩
    rw [show next p = none from h]
    exact iterate_inr hend n
  | cons g gs ih =>
    obtain ⟨n, rfl⟩ : ∃ k, n = k + 1 := ⟨n - 1, by omega⟩
    rw [List.length_cons] at hn
    rw [h.1]
    cases hg : hit g with
    | true =>
      rw [iterate_inr (hhit g hg), List.find?_cons_of_pos hg]
    | false =>
      rw [iterate_inl (hgo g hg), List.find?_cons_of_neg (by simp [hg])]
      exact ih h.2 (by omega)

end After

/-! ## All chains -/

/-- The links lead from every head through the nodes it owns. -/
structure Chains (next : ι → Option ι) (head : ι → Prop) (owner : ι → Option ι) : Prop where
  /-- The chain of a head. -/
  chain : ∀ d, head d → ∃ gs, After next d gs ∧ gs.Nodup ∧ ∀ g, g ∈ gs ↔ owner g = some d
  /-- Owned nodes are not heads, and their owners are. -/
  owned : ∀ g d, owner g = some d → head d ∧ ¬ head g
  /-- The other nodes have no link. -/
  free : ∀ g, ¬ head g → owner g = none → next g = none

namespace Chains

variable {next : ι → Option ι} {head : ι → Prop} {owner : ι → Option ι} {d u : ι}
  {gs as bs : List ι}

/-- A head with its chain has no node twice. -/
theorem nodup_cons (h : Chains next head owner) (hd : head d) (hnodup : gs.Nodup)
    (hmem : ∀ g, g ∈ gs ↔ owner g = some d) : (d :: gs).Nodup :=
  List.nodup_cons.mpr ⟨fun hdg => (h.owned d d ((hmem d).mp hdg)).2 hd, hnodup⟩

/-- A node without a link and an owner becomes a head. -/
theorem add_head (h : Chains next head owner) (hnext : next u = none) (hfree : owner u = none)
    (hnone : ∀ g, owner g ≠ some u) : Chains next (fun d => head d ∨ d = u) owner where
  chain d hd := by
    rcases hd with hd | rfl
    · exact h.chain d hd
    · exact ⟨[], hnext, List.nodup_nil, fun g => by simpa using hnone g⟩
  owned g d hg := by
    obtain ⟨hd, hng⟩ := h.owned g d hg
    refine ⟨.inl hd, ?_⟩
    rintro (hg' | rfl)
    · exact hng hg'
    · rw [hfree] at hg
      cases hg
  free g hg hown := h.free g (fun hg' => hg (.inl hg')) hown

/-- A head that owns nothing stops being one. -/
theorem drop_head (h : Chains next head owner) (hnone : ∀ g, owner g ≠ some u) :
    Chains next (fun d => head d ∧ d ≠ u) owner where
  chain d hd := h.chain d hd.1
  owned g d hg := by
    obtain ⟨hd, hng⟩ := h.owned g d hg
    exact ⟨⟨hd, fun e => hnone g (e ▸ hg)⟩, fun hg' => hng hg'.1⟩
  free g hg hown := by
    -- A node that is no head any more was `u` itself, whose chain was empty, or was none before.
    by_cases hhead : head g
    · obtain rfl : g = u := by
        by_contra hne
        exact hg ⟨hhead, hne⟩
      obtain ⟨gs, hafter, -, hmem⟩ := h.chain g hhead
      cases gs with
      | nil => exact hafter
      | cons a gs => exact absurd ((hmem a).mp List.mem_cons_self) (hnone a)
    · exact h.free g hhead hown

variable [DecidableEq ι]

/-- The rule for a change to one chain: its links and the owner of one node change, so that the
links lead through the nodes that the head owns then. -/
theorem change {next' : ι → Option ι} {o : Option ι} (h : Chains next head owner) (hd : head d)
    (hu : ¬ head u) (hold : ∀ e, owner u = some e → e = d) (hnew : ∀ e, o = some e → e = d)
    (hsame : ∀ q, q ≠ u → q ≠ d → owner q ≠ some d → next' q = next q) (hafter : After next' d gs)
    (hnodup : gs.Nodup) (hmem : ∀ g, g ∈ gs ↔ Function.update owner u o g = some d)
    (hfree : o = none → next' u = none) : Chains next' head (Function.update owner u o) := by
  -- The chain of every head, the owners, and the nodes without an owner, in turn.
  refine ⟨fun e he => ?_, fun g e hg => ?_, fun g hg hown => ?_⟩
  · by_cases hed : e = d
    · exact hed ▸ ⟨gs, hafter, hnodup, hmem⟩
    · -- The chain of another head has none of the nodes that change.
      obtain ⟨gs', hafter', hnodup', hmem'⟩ := h.chain e he
      have hown : ∀ {q}, q ∈ e :: gs' → q ≠ u ∧ q ≠ d ∧ owner q ≠ some d := by
        intro q hq
        rcases List.mem_cons.mp hq with rfl | hq
        · exact ⟨fun hqu => hu (hqu ▸ he), hed, fun hqd => (h.owned q d hqd).2 he⟩
        · have hqe := (hmem' q).mp hq
          refine ⟨?_, fun hqd => (h.owned q e hqe).2 (hqd ▸ hd), fun hqd => ?_⟩
          · rintro rfl
            exact hed (hold e hqe)
          · exact hed (Option.some.inj (hqe.symm.trans hqd))
      refine ⟨gs', hafter'.congr fun q hq => ?_, hnodup', fun g => ?_⟩
      · obtain ⟨hqu, hqd, hqo⟩ := hown hq
        exact hsame q hqu hqd hqo
      · by_cases hgu : g = u
        · subst hgu
          rw [hmem', Function.update_self]
          exact iff_of_false (fun he' => hed (hold e he')) fun he' => hed (hnew e he')
        · rw [hmem', Function.update_of_ne hgu]
  · by_cases hgu : g = u
    · subst hgu
      rw [Function.update_self] at hg
      exact ⟨hnew e hg ▸ hd, hu⟩
    · rw [Function.update_of_ne hgu] at hg
      exact h.owned g e hg
  · by_cases hgu : g = u
    · subst hgu
      rw [Function.update_self] at hown
      exact hfree hown
    · rw [Function.update_of_ne hgu] at hown
      have hgd : g ≠ d := fun e => hg (e ▸ hd)
      rw [hsame g hgu hgd (by rw [hown]; exact Option.some_ne_none d ∘ Eq.symm)]
      exact h.free g hg hown

/-- A node that nobody owns is linked at the end of a chain. -/
theorem link (h : Chains next head owner) (hd : head d) (hu : ¬ head u) (hfree : owner u = none)
    (hafter : After next d gs) (hnodup : gs.Nodup) (hmem : ∀ g, g ∈ gs ↔ owner g = some d) :
    Chains (Function.update next (gs.getLastD d) (some u)) head
      (Function.update owner u (some d)) := by
  have hugs : u ∉ gs := fun hmemu => by simpa [hfree] using (hmem u).mp hmemu
  have hud : u ≠ d := fun e => hu (e ▸ hd)
  -- The links that do not belong to the chain of `d` stay, and the chain gets `u` at its end.
  refine h.change hd hu (fun e he => by simp [hfree] at he) (fun e he => (Option.some.inj he).symm)
    (fun q _ hqd hqo => ?_)
    (hafter.snoc (h.nodup_cons hd hnodup hmem) (by simp [hud, hugs]) (h.free u hu hfree)) ?_
    (fun g => ?_) fun ho => nomatch ho
  · refine Function.update_of_ne (fun e => ?_) ..
    rcases List.mem_cons.mp (e ▸ List.getLastD_mem_cons : q ∈ d :: gs) with hq | hq
    · exact hqd hq
    · exact hqo ((hmem q).mp hq)
  · exact List.nodup_append'.mpr ⟨hnodup, List.nodup_singleton u, by simpa using hugs⟩
  · by_cases hgu : g = u
    · simp [hgu]
    · simp [hgu, hmem g]

/-- An owned node is taken out of the chain of its owner. -/
theorem unlink (h : Chains next head owner) (hown : owner u = some d)
    (hafter : After next d (as ++ u :: bs)) (hnodup : (as ++ u :: bs).Nodup)
    (hmem : ∀ g, g ∈ as ++ u :: bs ↔ owner g = some d) :
    Chains (Function.update (Function.update next (as.getLastD d) (next u)) u none) head
      (Function.update owner u none) := by
  obtain ⟨hd, hu⟩ := h.owned u d hown
  obtain ⟨hnot, hrest⟩ := List.nodup_cons.mp (List.nodup_middle.mp hnodup)
  -- The links that do not belong to the chain of `d` stay, and the chain loses `u`.
  refine h.change hd hu (fun e he => Option.some.inj (he.symm.trans hown)) (fun e he => nomatch he)
    (fun q hqu hqd hqo => ?_) (hafter.remove (h.nodup_cons hd hnodup hmem)) hrest (fun g => ?_)
    fun _ => Function.update_self ..
  · rw [Function.update_of_ne hqu]
    refine Function.update_of_ne (fun e => ?_) ..
    rcases List.mem_cons.mp (e ▸ List.getLastD_mem_cons : q ∈ d :: as) with hq | hq
    · exact hqd hq
    · exact hqo ((hmem q).mp (List.mem_append_left _ hq))
  · have hg := hmem g
    by_cases hgu : g = u
    · subst hgu
      simpa using hnot
    · simpa [hgu] using hg

end Chains

end SwiftRuntime
