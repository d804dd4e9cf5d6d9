import SwiftRuntime.Ancestors
import SwiftRuntime.Ir.Builder

/-!
# The finder of common dominators

The class `CommonDominator` of `ir/opts/cfg_analysis_pass.cpp`. A finder keeps the common dominator
of the blocks it has been updated with, and next to it the length of its chain, so that an update
has to measure the chain of the new block only. `ForPair`, which the pass calls, is a finder that is
updated once.

The loops that go up a chain take a bound on their passes, `fuel`.

The lengths are `size_t` in the source. A chain has every block once, so it is not longer than there
are addresses, and the counters do not wrap.
-/

namespace SwiftRuntime.Ir

namespace CommonDominator

/-- The fields of `CommonDominator`. -/
structure Finder where
  /-- `dominator`. -/
  dominator : Option BlockRef
  /-- `chain_length_`. -/
  chainLength : ℕ
  deriving DecidableEq

/-- `Get`. -/
def Finder.get (finder : Finder) : Option BlockRef := finder.dominator

section Code

variable (dominator : BlockRef → Option BlockRef)

/-- `ChainLength`. -/
def chainLength : ℕ → Option BlockRef → Except Stop ℕ
  | 0, _ => .error .endless
  | _ + 1, none => .ok 0
  | fuel + 1, some block => (chainLength fuel (dominator block)).map (· + 1)

/-- The loops of `Update` that equalize the chain lengths: a number of steps up the chain. -/
def equalize : ℕ → BlockRef → Except Stop BlockRef
  | 0, block => .ok block
  | k + 1, block =>
    match dominator block with
    | none => .error .raised
    | some d => equalize k d

/-- The loop of `Update` that runs up both chains until they meet, with the length that it counts
down. -/
def runUp : ℕ → ℕ → BlockRef → BlockRef → Except Stop (BlockRef × ℕ)
  | 0, _, _, _ => .error .endless
  | fuel + 1, length, block, block2 =>
    if block = block2 then .ok (block, length)
    else
      match dominator block, dominator block2 with
      | some d, some d2 => runUp fuel (length - 1) d d2
      | _, _ => .error .raised

/-- The constructor. -/
def create (fuel : ℕ) (block : Option BlockRef) : Except Stop Finder := do
  let length ← chainLength dominator fuel block
  return ⟨block, length⟩

/-- `Update`. -/
def update (fuel : ℕ) (finder : Finder) : Option BlockRef → Except Stop Finder
  | none => .error .raised
  | some block =>
    match finder.dominator with
    | none => create dominator fuel (some block)
    | some block2 => do
      if block = block2 then return finder
      let length ← chainLength dominator fuel (some block)
      let up ← equalize dominator (length - finder.chainLength) block
      let up2 ← equalize dominator (finder.chainLength - length) block2
      -- The loops that equalize the lengths leave the smaller one in both counters.
      let (d, length) ← runUp dominator fuel (min length finder.chainLength) up up2
      return ⟨some d, length⟩

/-- `ForPair`. -/
def forPair (fuel : ℕ) (block1 block2 : Option BlockRef) : Except Stop (Option BlockRef) := do
  let finder ← create dominator fuel block1
  let finder ← update dominator fuel finder block2
  return finder.get

/-- A finder that is created with a block and updated with others in turn. -/
def find (fuel : ℕ) (start : BlockRef) (blocks : List BlockRef) : Except Stop Finder := do
  let finder ← create dominator fuel (some start)
  blocks.foldlM (fun finder block => update dominator fuel finder (some block)) finder

end Code

variable {dominator : BlockRef → Option BlockRef} {b c d : BlockRef} {xs ys : List BlockRef}
  {fuel : ℕ}

/-- `ChainLength` measures the chain of its block. -/
theorem chainLength_spec (h : Chain dominator b xs) (hfuel : xs.length < fuel) :
    chainLength dominator fuel (some b) = .ok xs.length := by
  induction h generalizing fuel with
  | root hroot =>
    obtain ⟨fuel, rfl⟩ : ∃ k, fuel = k + 2 := ⟨fuel - 2, by simp at hfuel; omega⟩
    rw [chainLength, hroot]
    rfl
  | up hp _ ih =>
    obtain ⟨fuel, rfl⟩ : ∃ k, fuel = k + 1 := ⟨fuel - 1, by omega⟩
    rw [chainLength, hp, ih (by simpa using hfuel)]
    rfl

/-- Equalizing takes as many blocks from a chain as there are steps. -/
theorem equalize_spec (h : Chain dominator b xs) {k : ℕ} (hk : k < xs.length) :
    ∃ d, equalize dominator k b = .ok d ∧ Chain dominator d (xs.drop k) := by
  induction k generalizing b xs with
  | zero => exact ⟨b, rfl, h⟩
  | succ k ih =>
    cases h with
    | root _ => simp at hk
    | up hp hrest =>
      obtain ⟨d, hd, hchain⟩ := ih hrest (by simpa using hk)
      exact ⟨d, by rw [equalize, hp]; exact hd, hchain⟩

/-- Two chains of the same length that have a block in common: going up on both leads to the blocks
that they have in common, and counts the length of the chain there. -/
theorem runUp_spec (hb : Chain dominator b xs) (hc : Chain dominator c ys)
    (hlen : xs.length = ys.length) (hcommon : ∃ x, x ∈ xs ∧ x ∈ ys) (hfuel : xs.length ≤ fuel) :
    ∃ d zs, runUp dominator fuel xs.length b c = .ok (d, zs.length) ∧ Chain dominator d zs ∧
      ∀ x, x ∈ zs ↔ x ∈ xs ∧ x ∈ ys := by
  induction hb generalizing c ys fuel with
  | @root b hroot =>
    obtain ⟨rest, rfl⟩ := hc.exists_eq_cons
    obtain rfl : rest = [] := by simpa using hlen.symm
    obtain ⟨x, hx, hy⟩ := hcommon
    obtain rfl : b = c := (List.mem_singleton.mp hx).symm.trans (List.mem_singleton.mp hy)
    obtain ⟨fuel, rfl⟩ : ∃ k, fuel = k + 1 := ⟨fuel - 1, by simp at hfuel; omega⟩
    exact ⟨b, [b], by rw [runUp, if_pos rfl], .root hroot, fun x => by simp⟩
  | @up b p xs hp hrest ih =>
    obtain ⟨fuel, rfl⟩ : ∃ k, fuel = k + 1 := ⟨fuel - 1, by simp at hfuel; omega⟩
    have hb : Chain dominator b (b :: xs) := .up hp hrest
    by_cases hbc : b = c
    -- The chains have met.
    · subst hbc
      obtain rfl := hb.unique hc
      exact ⟨b, b :: xs, by rw [runUp, if_pos rfl], hb, fun x => by simp⟩
    · cases hc with
      | root _ => exact absurd hrest.length_pos (by simp at hlen; simp [hlen])
      | @up _ q ys hq hrest' =>
        have hc : Chain dominator c (c :: ys) := .up hq hrest'
        have hlen' : xs.length = ys.length := by simpa using hlen
        -- Neither block is on the other chain, since the chains are of the same length.
        have hmem : ∀ x, x ∈ b :: xs ∧ x ∈ c :: ys ↔ x ∈ xs ∧ x ∈ ys := by
          intro x
          rw [hb.mem_and_mem_iff hc (by simp [hlen']) hbc, and_comm, List.mem_cons, or_and_right]
          constructor
          · rintro (⟨rfl, hx⟩ | hx)
            · exact absurd (hc.eq_of_mem hb (List.mem_cons_of_mem _ hx) (by simp [hlen'])).symm hbc
            · exact hx.symm
          · exact fun hx => .inr hx.symm
        obtain ⟨d, zs, hrun, hchain, hzs⟩ := ih hrest' hlen'
          (hcommon.imp fun x => (hmem x).mp) (by simpa using hfuel)
        refine ⟨d, zs, ?_, hchain, fun x => (hzs x).trans (hmem x).symm⟩
        rw [runUp, if_neg hbc, hp, hq]
        exact hrun

/-- Two chains that have a block in common: equalizing their lengths and going up on both leads to
the blocks that they have in common, and counts the length of the chain there. -/
theorem meet_spec (hb : Chain dominator b xs) (hc : Chain dominator c ys)
    (hcommon : ∃ x, x ∈ xs ∧ x ∈ ys) (hfuel : ys.length ≤ fuel) :
    ∃ up up2 d zs, equalize dominator (ys.length - xs.length) c = .ok up ∧
      equalize dominator (xs.length - ys.length) b = .ok up2 ∧
      runUp dominator fuel (min ys.length xs.length) up up2 = .ok (d, zs.length) ∧
      Chain dominator d zs ∧ ∀ x, x ∈ zs ↔ x ∈ xs ∧ x ∈ ys := by
  have hposx := hb.length_pos
  have hposy := hc.length_pos
  obtain ⟨up, hup, hchain⟩ := equalize_spec hc (k := ys.length - xs.length) (by omega)
  obtain ⟨up2, hup2, hchain2⟩ := equalize_spec hb (k := xs.length - ys.length) (by omega)
  -- Equalizing takes nothing away that the chains have in common.
  have hmem : ∀ x, x ∈ ys.drop (ys.length - xs.length) ∧ x ∈ xs.drop (xs.length - ys.length) ↔
      x ∈ xs ∧ x ∈ ys := by
    intro x
    constructor
    · exact fun ⟨hy, hx⟩ => ⟨List.mem_of_mem_drop hx, List.mem_of_mem_drop hy⟩
    · rintro ⟨hx, hy⟩
      constructor
      · rcases Nat.le_total xs.length ys.length with hle | hle
        · exact hb.mem_drop_of_mem hc hx hy (by omega)
        · rwa [Nat.sub_eq_zero_of_le hle]
      · rcases Nat.le_total ys.length xs.length with hle | hle
        · exact hc.mem_drop_of_mem hb hy hx (by omega)
        · rwa [Nat.sub_eq_zero_of_le hle]
  obtain ⟨d, zs, hrun, hd, hzs⟩ := runUp_spec hchain hchain2
    (by simp only [List.length_drop]; omega) (hcommon.imp fun x => (hmem x).mpr)
    (by simp only [List.length_drop]; omega : _ ≤ fuel)
  have hlen : (ys.drop (ys.length - xs.length)).length = min ys.length xs.length := by
    rw [List.length_drop]
    omega
  rw [hlen] at hrun
  exact ⟨up, up2, d, zs, hup, hup2, hrun, hd, fun x => (hzs x).trans (hmem x)⟩

/-- `Update` of a finder for `b` whose chain has a block in common with that of the new block. -/
theorem update_spec (hb : Chain dominator b xs) (hc : Chain dominator c ys)
    (hcommon : ∃ x, x ∈ xs ∧ x ∈ ys) (hfuel : ys.length < fuel) :
    ∃ d zs, update dominator fuel ⟨some b, xs.length⟩ (some c) = .ok ⟨some d, zs.length⟩ ∧
      Chain dominator d zs ∧ ∀ x, x ∈ zs ↔ x ∈ xs ∧ x ∈ ys := by
  by_cases hcb : c = b
  · subst hcb
    obtain rfl := hb.unique hc
    exact ⟨c, xs, by simp [update, pure, Except.pure], hb, fun x => by simp⟩
  · obtain ⟨up, up2, d, zs, hup, hup2, hrun, hd, hzs⟩ := meet_spec hb hc hcommon hfuel.le
    refine ⟨d, zs, ?_, hd, hzs⟩
    simp [update, hcb, chainLength_spec hc hfuel, hup, hup2, hrun, bind, Except.bind, pure,
      Except.pure]

/-- A new finder has its block, and the length of its chain. -/
theorem create_spec (hb : Chain dominator b xs) (hfuel : xs.length < fuel) :
    create dominator fuel (some b) = .ok ⟨some b, xs.length⟩ := by
  rw [create, chainLength_spec hb hfuel]
  rfl

/-- `ForPair` of two blocks whose chains have a block in common. -/
theorem forPair_spec (hb : Chain dominator b xs) (hc : Chain dominator c ys)
    (hcommon : ∃ x, x ∈ xs ∧ x ∈ ys) (hxs : xs.length < fuel) (hys : ys.length < fuel) :
    ∃ d zs, forPair dominator fuel (some b) (some c) = .ok (some d) ∧ Chain dominator d zs ∧
      ∀ x, x ∈ zs ↔ x ∈ xs ∧ x ∈ ys := by
  obtain ⟨d, zs, hupdate, hd, hzs⟩ := update_spec hb hc hcommon hys
  refine ⟨d, zs, ?_, hd, hzs⟩
  rw [forPair, except_bind_eq_ok_iff]
  refine ⟨_, create_spec hb hxs, ?_⟩
  rw [hupdate]
  rfl

/-- A finder that has been updated has a block. -/
theorem update_ne_none {finder finder' : Finder} {block : Option BlockRef}
    (h : update dominator fuel finder block = .ok finder') : finder'.get ≠ none := by
  cases block with
  | none => cases h
  | some c =>
    cases hfinder : finder.dominator with
    | none =>
      -- The finder starts with its first block.
      simp only [update, hfinder, create, except_bind_eq_ok_iff] at h
      obtain ⟨length, -, h⟩ := h
      cases h
      simp [Finder.get]
    | some b =>
      simp only [update, hfinder] at h
      split_ifs at h with hcb
      · cases h
        simp [Finder.get, hfinder]
      -- Otherwise both blocks run up until they meet.
      · simp only [except_bind_eq_ok_iff] at h
        obtain ⟨length, -, up, -, up2, -, ⟨d, length'⟩, -, h⟩ := h
        cases h
        simp [Finder.get]

/-- `ForPair` finds a block whenever it returns. -/
theorem forPair_ne_none {block1 block2 block : Option BlockRef}
    (h : forPair dominator fuel block1 block2 = .ok block) : block ≠ none := by
  simp only [forPair, except_bind_eq_ok_iff] at h
  obtain ⟨finder, -, finder', hupdate, h⟩ := h
  cases h
  exact update_ne_none hupdate

/-! ## Any number of updates -/

/-- What a finder keeps: the nearest common dominator of the blocks so far, the length of its chain,
and that the chain leads to the root. -/
structure Tracks (dominator : BlockRef → Option BlockRef) (root : BlockRef) (blocks : List BlockRef)
    (d : BlockRef) (up : List BlockRef) (finder : Finder) : Prop where
  /-- The fields of the finder. -/
  eq : finder = ⟨some d, up.length⟩
  /-- The chain of the block. -/
  chain : Chain dominator d up
  /-- It leads to the root. -/
  root_mem : root ∈ up
  /-- The block is the nearest common dominator. -/
  nearest : NearestCommon dominator blocks d

variable {root : BlockRef} {blocks : List BlockRef} {finder : Finder}

/-- A further block: the finder has the nearest common dominator of all of them. -/
theorem Tracks.update (h : Tracks dominator root blocks d xs finder) (hc : Chain dominator c ys)
    (hroot : root ∈ ys) (hfuel : ys.length < fuel) :
    ∃ finder' e zs, update dominator fuel finder (some c) = .ok finder' ∧
      Tracks dominator root (blocks ++ [c]) e zs finder' := by
  obtain ⟨e, zs, hupdate, he, hzs⟩ := update_spec h.chain hc ⟨root, h.root_mem, hroot⟩ hfuel
  refine ⟨⟨some e, zs.length⟩, e, zs, by rw [h.eq, hupdate], rfl, he, ?_, ?_⟩
  · exact (hzs root).mpr ⟨h.root_mem, hroot⟩
  · exact h.nearest.concat h.chain hc he hzs

/-- The updates of a finder with blocks whose chains lead to the root. -/
theorem Tracks.updates (h : Tracks dominator root blocks d xs finder) (more : List BlockRef)
    (hmore : ∀ c ∈ more, ∃ ys, Chain dominator c ys ∧ root ∈ ys ∧ ys.length < fuel) :
    ∃ finder' e zs, more.foldlM (fun finder block => CommonDominator.update dominator fuel finder
        (some block)) finder = .ok finder' ∧
      Tracks dominator root (blocks ++ more) e zs finder' := by
  induction more generalizing blocks d xs finder with
  | nil => exact ⟨finder, d, xs, rfl, by rwa [List.append_nil]⟩
  | cons c more ih =>
    obtain ⟨ys, hc, hroot, hfuel⟩ := hmore c List.mem_cons_self
    obtain ⟨finder', e, zs, hupdate, htracks⟩ := h.update hc hroot hfuel
    obtain ⟨finder'', e', zs', hrest, htracks'⟩ := ih htracks fun c hc =>
      hmore c (List.mem_cons_of_mem _ hc)
    refine ⟨finder'', e', zs', ?_, by rwa [List.append_assoc] at htracks'⟩
    rw [List.foldlM_cons, hupdate]
    exact hrest

/-- The chains of finitely many blocks have a bound. -/
theorem exists_chains_lt (hroot : dominator root = none)
    (hreach : ∀ block, Ascends dominator block root) (blocks : List BlockRef) :
    ∃ n, ∀ c ∈ blocks, ∃ ys, Chain dominator c ys ∧ root ∈ ys ∧ ys.length < n := by
  induction blocks with
  | nil => exact ⟨0, by simp⟩
  | cons b blocks ih =>
    obtain ⟨n, hn⟩ := ih
    obtain ⟨xs, hb, hmem⟩ := (hreach b).exists_chain hroot
    refine ⟨max n (xs.length + 1), fun c hc => ?_⟩
    rcases List.mem_cons.mp hc with rfl | hc
    · exact ⟨xs, hb, hmem, by omega⟩
    · obtain ⟨ys, hchain, hmem', hlt⟩ := hn c hc
      exact ⟨ys, hchain, hmem', by omega⟩

/-- Where going up from every block leads to one root, a finder that is created with a block and
updated any number of times returns from every call, without a failed assertion. It then has the
nearest common dominator of all the blocks and the length of its chain. -/
theorem find_nearestCommon (dominator : BlockRef → Option BlockRef) (root : BlockRef)
    (hroot : dominator root = none) (hreach : ∀ block, Ascends dominator block root)
    (start : BlockRef) (blocks : List BlockRef) :
    ∃ n, ∀ fuel ≥ n, ∃ finder d chain, find dominator fuel start blocks = .ok finder ∧
      finder.get = some d ∧ NearestCommon dominator (start :: blocks) d ∧
      Chain dominator d chain ∧ finder.chainLength = chain.length := by
  obtain ⟨n, hn⟩ := exists_chains_lt hroot hreach (start :: blocks)
  refine ⟨n, fun fuel hfuel => ?_⟩
  obtain ⟨xs, hstart, hmem, hlt⟩ := hn start List.mem_cons_self
  -- The finder starts with the block itself, and is updated with the others in turn.
  have hcreate : Tracks dominator root [start] start xs ⟨some start, xs.length⟩ :=
    ⟨rfl, hstart, hmem, .singleton start⟩
  have hblocks : ∀ c ∈ blocks, ∃ ys, Chain dominator c ys ∧ root ∈ ys ∧ ys.length < fuel := by
    intro c hc
    obtain ⟨ys, hchain, hmem, hlt⟩ := hn c (List.mem_cons_of_mem _ hc)
    exact ⟨ys, hchain, hmem, by omega⟩
  obtain ⟨finder, d, chain, hrun, htracks⟩ := hcreate.updates blocks hblocks
  refine ⟨finder, d, chain, ?_, by rw [htracks.eq]; rfl, htracks.nearest, htracks.chain,
    by rw [htracks.eq]⟩
  rw [find, create_spec hstart (by omega)]
  exact hrun

/-- The blocks of a binary tree, numbered from its root: the parent of a block is half of what is
before it. -/
def halves (block : BlockRef) : Option BlockRef :=
    if block = 0 then none else some ((block - 1) / 2)

/-- Halving leads to zero. -/
theorem ascends_halves (block : BlockRef) : Ascends halves block (0 : ℕ) := by
  induction block using Nat.strong_induction_on with
  | _ block ih =>
    by_cases h : block = 0
    · rw [h]
      exact .refl
    · exact .head (if_neg h) (ih _ (by omega))

/-- A finder for block 9 of the tree that is updated with the blocks 10 and 3 finds block 1. -/
theorem find_halves :
    find halves 5 9 [10, 3] = .ok ⟨some 1, 2⟩ ∧
      ∃ n, ∀ fuel ≥ n, ∃ finder d chain, find halves fuel 9 [10, 3] = .ok finder ∧
        finder.get = some d ∧ NearestCommon halves [9, 10, 3] d ∧
        Chain halves d chain ∧ finder.chainLength = chain.length :=
  ⟨by decide, find_nearestCommon halves (0 : ℕ) rfl ascends_halves 9 [10, 3]⟩

end CommonDominator

end SwiftRuntime.Ir
