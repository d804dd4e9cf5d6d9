import SwiftRuntime.Ir.LocalElimination
import SwiftRuntime.FlowGraph

/-!
# What loads of locals yield

`LocalEliminationPass` replaces a load of a local by the value that was stored last in the order of
the pass, if that is a value of the block of the load. On a path through the blocks the value stored
last may be another one: the order of the pass is that of the creation of the blocks, and the block
that counts is the one that defines the value, not the one that stores it.

`PreservesLoads` says that the loads that passes have replaced yield what they are replaced by: on
every path from the entry, the last store to the local has stored the current instance of the value.
That is the case exactly if the store of every replaced load with uses is in the block of the load
(`preserves_loads_iff`). Then the store, and the value before it, are executed on the way through
the block every time. Otherwise the value is not there yet when a path comes to the block first.
-/

namespace SwiftRuntime.Ir

section Statement

variable (f f' : HirFunction)

/-- The edges of the blocks. -/
def HirFunction.Succ (b c : BlockRef) : Prop := some c ∈ (f.block b).successors

/-- A path through the blocks, from the entry block. -/
def HirFunction.Path (path : List BlockRef) : Prop := FlowGraph.IsPath f.Succ 0 path

/-- The instructions that are executed on a path. -/
def HirFunction.trace (path : List BlockRef) : List InstRef :=
  path.flatMap fun b => (f.block b).insts

/-- After a trace, the last `StoreLocal` to the local has stored the current instance of `v`: `v`
has been executed before it, and not since. -/
def HirFunction.HoldsCurrent (trace : List InstRef) (l : UInt16) (v : InstRef) : Prop :=
  ∃ before s after, trace = before ++ s :: after ∧ f.act s = .store l v ∧
    (∀ u ∈ after, ∀ c, f.act u ≠ .store l c) ∧ v ∈ before ∧ v ∉ after

/-- Between `f` and `f'` the load `x` has been taken out of the map and a use of it rewritten to
`v`. -/
def Rewrites (x v : InstRef) : Prop :=
  x ∉ f'.values.toList ∧ ∃ r ∈ f.slotsOf x, ((f'.heap.inst r.inst).args r.argIdx).ref = some v

/-- Every load that is rewritten yields the value it is rewritten to, on every path. -/
def PreservesLoads : Prop :=
  ∀ path b before x after l v, f.Path (path ++ [b]) → (f.block b).insts = before ++ x :: after →
    f.act x = .load l → Rewrites f f' x v → f'.HoldsCurrent (f.trace path ++ before) l v

/-- The loads with uses that are replaced, in blocks that can be reached, have their store in their
own block. -/
def HirFunction.StoredInBlock : Prop :=
  ∀ x s a, (f.hirValue x).uses ≠ [] → FlowGraph.Reachable f.Succ 0 (f.home x) →
    f.ReachingStore s a x → f.home a = f.home x → s ∈ (f.block (f.home x)).insts

/-- On every path to an instruction the values of its arguments are defined. -/
def HirFunction.DefsDominate : Prop :=
  ∀ path b before u after, f.Path (path ++ [b]) → (f.block b).insts = before ++ u :: after →
    ∀ i v, ((f.heap.inst u).args i).ref = some v → v ∈ f.trace path ++ before

end Statement

section Stores

variable {f f' : HirFunction} {fwd : InstRef → Option InstRef}

/-- A store stores what its argument stands for. -/
theorem Rewritten.act_store (hr : Rewritten f fwd f') {s a : InstRef} {l : UInt16}
    (hs : s < f.heap.count) (hact : f.act s = .store l a) :
    f'.act s = .store l ((fwd a).getD a) := by
  obtain ⟨hop, hl, ha⟩ := HirFunction.args_of_act_store hact
  simp [HirFunction.act, hr.op, hr.args s hs, hop, hl, ha, Arg.redirect]

/-- The stores are the same instructions. -/
theorem Rewritten.exists_act_store (hr : Rewritten f fwd f') (hf : Valued f) {s a : InstRef}
    {l : UInt16} (hs : s < f.heap.count) (hact : f'.act s = .store l a) :
    ∃ c, f.act s = .store l c := by
  obtain ⟨hop, hl, -⟩ := HirFunction.args_of_act_store hact
  rw [hr.op] at hop
  obtain ⟨id, -, v, hid, -, hv⟩ := hf.act_store hs hop
  rw [hr.args s hs, hid] at hl
  cases hl
  exact ⟨v, hv⟩

/-- In a sorted list, what is smaller than an element comes before it. -/
theorem mem_left_of_lt {xs before after : List ℕ} {x y : ℕ} (hsorted : xs.Pairwise (· < ·))
    (hxs : xs = before ++ x :: after) (hy : y ∈ xs) (hlt : y < x) : y ∈ before := by
  rw [hxs] at hy hsorted
  rcases List.mem_append.mp hy with hy | hy
  · exact hy
  · exfalso
    rcases List.mem_cons.mp hy with rfl | hy
    · exact lt_irrefl _ hlt
    · have := (List.pairwise_cons.mp (List.pairwise_append.mp hsorted).2.1).1 y hy
      exact lt_asymm hlt this

/-- A store in the block of the load it reaches comes before it, and between the two in the block
there is no other store to the local. -/
theorem Valued.reaching_in_block (hf : Valued f) {p : List InstRef} {s a x : InstRef} {l : UInt16}
    {b : BlockRef} (hr : Forwarding.Reaching f.act f.scan p s a x) (hx : x ∈ (f.block b).insts)
    (hs : s ∈ (f.block b).insts) (hact : f.act x = .load l) :
    s < x ∧ f.act s = .store l a ∧
      ∀ u ∈ (f.block b).insts, s < u → u < x → ∀ c, f.act u ≠ .store l c := by
  obtain ⟨l', q, post, hscan, hxact, hsact, hq⟩ := hr
  rw [hact] at hxact
  cases hxact
  have hscan' : f.scan = (p ++ s :: q) ++ x :: post := by simp [hscan]
  -- In one block the scan goes by the numbers of the instructions.
  have hsx : s < x := by
    rcases (hf.mem_prefix_iff hscan' hx hs).mp (by simp) with h | ⟨-, h⟩
    · exact absurd h (lt_irrefl _)
    · exact h
  refine ⟨hsx, hsact, fun u hu hsu hux => ?_⟩
  have hmem : u ∈ p ++ s :: q := (hf.mem_prefix_iff hscan' hx hu).mpr (.inr ⟨rfl, hux⟩)
  -- A store between them would be in `q`, where there is none to the local.
  rcases List.mem_append.mp hmem with hup | hmem
  · exfalso
    rcases (hf.mem_prefix_iff hscan hs hu).mp hup with h | ⟨-, h⟩
    · exact lt_irrefl _ h
    · exact lt_asymm hsu h
  · rcases List.mem_cons.mp hmem with rfl | huq
    · exact absurd hsu (lt_irrefl _)
    · exact hq u huq

/-- Where stores are in the blocks of their loads, a load with uses is replaced by what its store
stores, a value from before the store that is not replaced itself. -/
theorem Valued.forwarding_in_block (hf : Valued f) (hin : f.StoredInBlock) {x w : InstRef}
    (hx : f.forwarding x = some w) (hused : f.slotsOf x ≠ [])
    (hreach : FlowGraph.Reachable f.Succ 0 (f.home x)) :
    ∃ p s a, Forwarding.Reaching f.act f.scan p s a x ∧ f.home w = f.home x ∧
      s ∈ (f.block (f.home x)).insts ∧ (f.forwarding a).getD a = w ∧ w < s ∧
        f.forwarding w = none := by
  -- Induction on the number of the load: the stored value may be a replaced load from before.
  induction x using Nat.strong_induction_on generalizing w with
  | _ x ih =>
    obtain ⟨p, s, a, hr, hst, hwx⟩ := Forwarding.exists_reaching hf.scan_nodup rfl hx
    obtain ⟨-, -, has, hxv, hav, hslot⟩ := hf.reaching hr
    have hatHome : Forwarding.AtHome f.home
        (Forwarding.run f.act f.home (.start fun _ => none) p).fwd :=
      (Forwarding.AtHome.start (L := UInt16)).run p
    obtain ⟨hwnone, hwa⟩ := Forwarding.stored_eq_some_iff.mp hst
    have hax : f.home a = f.home x := by
      rw [← hwx]
      rcases hwa with rfl | ha
      · rfl
      · exact (hatHome a w ha).symm
    have hs : s ∈ (f.block (f.home x)).insts :=
      hin x s a (by rw [hf.uses x hxv]; exact hused) hreach ⟨p, hr⟩ hax
    have hap : a ∈ p := (hf.store_mem_iff hr hax).mp hs
    obtain ⟨l, q, post, hscan, hxact, -⟩ := id hr
    have hsx := (hf.reaching_in_block hr (hf.home x hxv) hs hxact).1
    refine ⟨p, s, a, hr, hwx, hs, ?_⟩
    -- The argument comes before the store, so its forwarding is settled when the store comes.
    have hsettled : f.forwarding a =
        (Forwarding.run f.act f.home (.start fun _ => none) p).fwd a := by
      have hnodup := hf.scan_nodup
      rw [hscan, List.nodup_append] at hnodup
      have hna : a ∉ s :: (q ++ x :: post) := fun h => hnodup.2.2 a hap a h rfl
      unfold HirFunction.forwarding
      rw [hscan, Forwarding.run_append, Forwarding.run_fwd_of_notMem hna]
    rcases hwa with rfl | ha
    · exact ⟨by rw [hsettled, hwnone]; rfl, has, hsettled.trans hwnone⟩
    · rw [← hsettled] at ha
      obtain ⟨p', s', a', hr', -, hs', -, hlt, hlast⟩ := ih a (has.trans hsx) ha
        (List.ne_nil_of_mem hslot) (hax ▸ hreach)
      obtain ⟨l', q', post', -, haact, -⟩ := id hr'
      have hsa := (hf.reaching_in_block hr' (hf.home a hav) hs' haact).1
      exact ⟨by rw [ha]; rfl, hlt.trans (hsa.trans has), hlast⟩

/-- Where stores are in the blocks of their loads, passes after the first one forward nothing more
in the blocks that can be reached. -/
theorem HirFunction.Later.eq_forwarding (h : f.Later fwd) (hf : Valued f) (hin : f.StoredInBlock)
    {x : InstRef} (hreach : FlowGraph.Reachable f.Succ 0 (f.home x)) : fwd x = f.forwarding x := by
  cases hfirst : f.forwarding x with
  | some v => exact h.first x v hfirst
  | none =>
    by_contra hne
    obtain ⟨w, hx⟩ := Option.ne_none_iff_exists'.mp hne
    obtain ⟨s, a, ⟨p, hr⟩, hax⟩ := h.forwarded x w hx
    obtain ⟨-, -, -, hxv, -, hslot⟩ := hf.reaching hr
    -- When the pass comes to the store, the argument has been forwarded to a value that has been
    -- given up.
    have hst : (Forwarding.run f.act f.home (.start fun _ => none) p).stored a = none := by
      by_contra hne
      obtain ⟨v, hv⟩ := Option.ne_none_iff_exists'.mp hne
      have hvx : f.home v = f.home x := by
        rcases (Forwarding.stored_eq_some_iff.mp hv).2 with rfl | ha
        · exact hax
        · exact ((Forwarding.AtHome.start (L := UInt16)).run p a v ha).trans hax
      have hfwd := Forwarding.fwd_of_reaching hf.scan_nodup rfl hr hv hvx
      rw [show (Forwarding.run f.act f.home (.start fun _ => none) f.scan).fwd x = none
        from hfirst] at hfwd
      cases hfwd
    obtain ⟨v, ha, hv⟩ := Forwarding.exists_of_stored_eq_none hst
    obtain ⟨y, hv⟩ := Option.ne_none_iff_exists'.mp hv
    obtain ⟨l, q, post, hscan, -⟩ := hr
    have hkeep : ∀ {c d}, (Forwarding.run f.act f.home (.start fun _ => none) p).fwd c = some d →
        f.forwarding c = some d := by
      intro c d hc
      unfold HirFunction.forwarding
      rw [hscan, Forwarding.run_append]
      exact Forwarding.run_fwd_of_some hc _
    obtain ⟨_, _, _, -, -, -, -, -, hlast⟩ := hf.forwarding_in_block hin (hkeep ha)
      (List.ne_nil_of_mem hslot) (hax ▸ hreach)
    rw [hkeep hv] at hlast
    cases hlast

end Stores

section Results

variable {P : Platform} {f f' : HirFunction} {fwd : InstRef → Option InstRef}

/-- A rewritten load has been forwarded, to the value of the rewritten use. -/
theorem Rewritten.eq_of_rewrites (hr : Rewritten f fwd f') {x v : InstRef}
    (hx : x ∈ f.values.toList) (hrw : Rewrites f f' x v) : fwd x = some v ∧ f.slotsOf x ≠ [] := by
  obtain ⟨hout, r, hrx, hv⟩ := hrw
  obtain ⟨hlt, href⟩ := f.mem_slotsOf.mp hrx
  refine ⟨?_, List.ne_nil_of_mem hrx⟩
  rw [hr.values, List.mem_filter] at hout
  rw [hr.ref hlt, href, Option.map_some, Option.some.injEq] at hv
  cases hfwd : fwd x with
  | none => exact absurd ⟨hx, by rw [hfwd]; rfl⟩ hout
  | some w =>
    rw [hfwd, Option.getD_some] at hv
    rw [hv]

/-- Where stores are in the blocks of their loads, loads yield what they are replaced by. -/
theorem Rewritten.preservesLoads (hr : Rewritten f fwd f') (hfwd : f.Later fwd) (hf : Valued f)
    (hin : f.StoredInBlock) : PreservesLoads f f' := by
  intro path b before x after l v hpath hinsts hact hrw
  have hxb : x ∈ (f.block b).insts := by rw [hinsts]; simp
  have hxlt : x < f.heap.count := (hf.mem x).mpr ⟨b, hxb⟩
  have hxv : x ∈ f.values.toList :=
    hf.mem_values.mpr ⟨hxlt, by rw [HirFunction.op_of_act_load hact]; rfl⟩
  have hb : f.home x = b := hf.home_eq hxb hxv
  obtain ⟨hxfwd, hused⟩ := hr.eq_of_rewrites hxv hrw
  have hreachable : FlowGraph.Reachable f.Succ 0 (f.home x) := ⟨path, hb ▸ hpath⟩
  obtain ⟨p, s, a, hreach, hvx, hs, hva, hlt, -⟩ := hf.forwarding_in_block hin
    ((hfwd.eq_forwarding hf hin hreachable).symm.trans hxfwd) hused hreachable
  have hax : f.home a = f.home x := by
    rw [← hvx, ← hva]
    cases ha : f.forwarding a with
    | none => rfl
    | some w => exact (hf.later_forwarding.atHome a w ha).symm
  rw [← hfwd.eq_forwarding hf hin (hax ▸ hreachable)] at hva
  rw [hb] at hs hvx
  obtain ⟨hsx, hsact, hbetween⟩ := hf.reaching_in_block hreach hxb hs hact
  -- The block from its start: up to the value, to the store, to the load.
  have hsorted := hf.sorted b
  obtain ⟨before₁, after₁, rfl⟩ :=
    List.append_of_mem (mem_left_of_lt hsorted hinsts hs hsx)
  have hvb : v ∈ (f.block b).insts := hvx ▸ hf.home v (hr.target x v hxfwd)
  have hinsts' : (f.block b).insts = before₁ ++ s :: (after₁ ++ x :: after) := by simp [hinsts]
  have hafter : ∀ u ∈ after₁, u ∈ (f.block b).insts ∧ s < u ∧ u < x := by
    intro u hu
    rw [hinsts', List.pairwise_append, List.pairwise_cons, List.pairwise_append] at hsorted
    refine ⟨by rw [hinsts']; simp [hu], hsorted.2.1.1 u (by simp [hu]),
      hsorted.2.1.2.2.2 u hu x List.mem_cons_self⟩
  refine ⟨f.trace path ++ before₁, s, after₁, by simp, ?_, ?_, ?_, ?_⟩
  · rw [← hva]
    exact hr.act_store ((hf.mem s).mpr ⟨b, hs⟩) hsact
  · intro u hu c hc
    obtain ⟨hub, hsu, hux⟩ := hafter u hu
    obtain ⟨d, hd⟩ := hr.exists_act_store hf ((hf.mem u).mpr ⟨b, hub⟩) hc
    exact hbetween u hub hsu hux d hd
  · exact List.mem_append_right _ (mem_left_of_lt (hf.sorted b) hinsts' hvb hlt)
  · exact fun hv => lt_asymm hlt (hafter v hv).2.1

/-- Where loads yield what they are replaced by, stores are in the blocks of their loads. -/
theorem Rewritten.storedInBlock (hr : Rewritten f fwd f') (hlater : f.Later fwd) (hf : Valued f)
    (hpres : PreservesLoads f f') : f.StoredInBlock := by
  rintro x s a hused hreachable ⟨p, hreach⟩ hax
  by_contra hs
  obtain ⟨hslt, -, -, hxv, hav, -⟩ := hf.reaching hreach
  rw [hf.uses x hxv] at hused
  -- The pass comes to the store before it comes to the value, and so replaces the load by it.
  have hap : a ∉ p := fun h => hs ((hf.store_mem_iff hreach hax).mpr h)
  have hfwd : fwd x = some a :=
    hlater.first x a (Forwarding.fwd_of_reaching_of_notMem hf.scan_nodup hreach hax hap)
  obtain ⟨r, hrx⟩ := List.exists_mem_of_ne_nil _ hused
  obtain ⟨hrlt, href⟩ := f.mem_slotsOf.mp hrx
  have hrw : Rewrites f f' x a := by
    refine ⟨fun h => ?_, r, hrx, ?_⟩
    · rw [hr.values, List.mem_filter, hfwd] at h
      cases h.2
    · rw [hr.ref hrlt, href, Option.map_some, hfwd, Option.getD_some]
  -- Now follow a path that comes to the block of the load for the first time.
  obtain ⟨path, hpath, hfirst⟩ := hreachable.exists_first
  have hxb : x ∈ (f.block (f.home x)).insts := hf.home x hxv
  have hab : a ∈ (f.block (f.home x)).insts := hax ▸ hf.home a hav
  obtain ⟨before, after, hinsts⟩ := List.append_of_mem hxb
  obtain ⟨l, q, post, hscan, hxact, -, hq⟩ := hreach
  obtain ⟨before', s', after', hsplit, hs'act, -, hbefore, -⟩ :=
    hpres path _ before x after l a hpath hinsts hxact hrw
  rcases List.append_eq_append_iff.mp hsplit with ⟨mid, -, hmid⟩ | ⟨mid, htrace, -⟩
  · -- The store would be in the block of the load, after the one that reaches it.
    have hs'b : s' ∈ (f.block (f.home x)).insts := by rw [hinsts, hmid]; simp
    have hs'x : s' < x := by
      have hsorted := hf.sorted (f.home x)
      rw [hinsts, List.pairwise_append] at hsorted
      exact hsorted.2.2 s' (by rw [hmid]; simp) x List.mem_cons_self
    obtain ⟨c, hc⟩ := (hf.mem s).mp hslt
    obtain ⟨d, hd⟩ := hr.exists_act_store hf ((hf.mem s').mpr ⟨_, hs'b⟩) hs'act
    have hscan' : f.scan = (p ++ s :: q) ++ x :: post := by simp [hscan]
    have hcx : c < f.home x := by
      rcases (hf.mem_prefix_iff hscan' hxb hc).mp (by simp) with h | ⟨rfl, -⟩
      · exact h
      · exact absurd hc hs
    have hmem : s' ∈ p ++ s :: q := (hf.mem_prefix_iff hscan' hxb hs'b).mpr (.inr ⟨rfl, hs'x⟩)
    rcases List.mem_append.mp hmem with hp | hmem
    · rcases (hf.mem_prefix_iff hscan hc hs'b).mp hp with h | ⟨h, -⟩
      · exact lt_asymm h hcx
      · exact absurd hcx (h ▸ lt_irrefl _)
    · rcases List.mem_cons.mp hmem with rfl | hmem
      · exact hs hs'b
      · exact hq s' hmem d hd
  · -- The value would have been executed in an earlier block of the path.
    have ha : a ∈ f.trace path := by
      rw [htrace]
      exact List.mem_append_left _ hbefore
    obtain ⟨c, hcpath, hac⟩ := List.mem_flatMap.mp ha
    exact hfirst (hf.disjoint _ _ a hab hac ▸ hcpath)

variable {begin_ : Location} {calls : List Call}

/-- The loads that the pass replaces, or that any number of passes replace, yield what they are
replaced by, exactly if the store of every replaced load with uses, in a block that can be reached,
is in the block of the load. -/
theorem preserves_loads_iff {f₁ : HirFunction} (h : TypedFinishes P begin_ calls f)
    (hcount : f.valueCount ≤ 2 ^ 16) (hpass : localEliminationPass P f = .ok () f₁)
    (hlater : Relation.ReflTransGen (fun g g' => localEliminationPass P g = .ok () g') f₁ f') :
    PreservesLoads f f' ↔ f.StoredInBlock := by
  obtain ⟨hf, hblocks⟩ := h.valued hcount
  obtain ⟨fwd, hr, hfwd⟩ := hf.passes hblocks hpass hlater
  exact ⟨hr.storedInBlock hfwd hf, hr.preservesLoads hfwd hf⟩

/-- A store, a load and a use of the load in one block, and two passes. -/
theorem preserves_loads_one_block :
    ∃ f f₁ f₂, TypedFinishes .plain 0 (storeLoad ++ [.inst .pushRSB [.value 2]]) f ∧
      localEliminationPass .plain f = .ok () f₁ ∧ localEliminationPass .plain f₁ = .ok () f₂ ∧
      Rewrites f f₁ 2 0 ∧ PreservesLoads f f₁ ∧ PreservesLoads f f₂ := by
  obtain ⟨f, hfin, hcount, hblock, hpass⟩ := exists_of_any
    (o := finish .plain 0 (storeLoad ++ [.inst .pushRSB [.value 2]]))
    (Q := fun f => f.valueCount ≤ 2 ^ 16 ∧
      (∀ x < f.heap.count, ∀ s < f.heap.count, s ∈ (f.block (f.home x)).insts) ∧
      ((returned (localEliminationPass .plain f)).any fun f₁ => (2 ∉ f₁.values.toList ∧
        ∃ r ∈ f.slotsOf 2, ((f₁.heap.inst r.inst).args r.argIdx).ref = some 0) ∧
        (returned (localEliminationPass .plain f₁)).isSome = true) = true)
    (by decide +kernel)
  obtain ⟨f₁, hf₁, hrw, hpass₁⟩ := exists_of_any hpass
  obtain ⟨f₂, hf₂⟩ := Option.isSome_iff_exists.mp hpass₁
  have hf := typedFinishes_of_finish hfin
  have hrun₁ := returned_eq_some_iff.mp hf₁
  have hrun₂ := returned_eq_some_iff.mp hf₂
  -- All instructions are in the block of the load.
  have hin : f.StoredInBlock := by
    rintro x s a - - ⟨p, hr⟩ -
    have hplaces := (hf.valued hcount).1.reaching hr
    exact hblock x hplaces.2.1 s hplaces.1
  exact ⟨f, f₁, f₂, hf, hrun₁, hrun₂, hrw, (preserves_loads_iff hf hcount hrun₁ .refl).mpr hin,
    (preserves_loads_iff hf hcount hrun₁ (.single hrun₂)).mpr hin⟩

/-- The block with the store is created before the one with the load, and runs after it. The pass
meets the store first, and replaces the load by a value that has not been stored when the load
runs. -/
def lateStore : List Call :=
  [.appendBlock 1 0, .appendBlock 0 0, .linkBlock 2, .inst .loadImm [.imm],
    .inst .loadLocal [.local_ 0], .inst .pushRSB [.value 1], .linkBlock 1,
    .inst .storeLocal [.local_ 0, .value 0]]

/-- The definitions dominate their uses in `lateStore`, but the load does not yield the value that
it is replaced by. -/
theorem load_before_store_replaced :
    ¬ ∀ (P : Platform) (begin_ : Location) (calls : List Call) (f f' : HirFunction),
      TypedFinishes P begin_ calls f → f.DefsDominate → localEliminationPass P f = .ok () f' →
        PreservesLoads f f' := by
  intro h
  obtain ⟨f, hfin, hinsts, hsucc, hrefs, hact, hpass⟩ := exists_of_any
    (o := finish .plain 0 lateStore)
    (Q := fun f => ((f.block 0).insts = [] ∧ (f.block 1).insts = [3] ∧
        (f.block 2).insts = [0, 1, 2]) ∧
      ((f.block 0).successors = [some 2] ∧ (f.block 1).successors = [] ∧
        (f.block 2).successors = [some 1]) ∧
      (∀ i, ((f.heap.inst 0).args i).ref = none ∧ ((f.heap.inst 1).args i).ref = none ∧
        ((f.heap.inst 2).args i).ref ∈ [none, some 1] ∧
        ((f.heap.inst 3).args i).ref ∈ [none, some 0]) ∧
      f.act 1 = .load 0 ∧
      ((returned (localEliminationPass .plain f)).any fun f' => f'.act 0 = .other ∧
        1 ∉ f'.values.toList ∧
        ∃ r ∈ f.slotsOf 1, ((f'.heap.inst r.inst).args r.argIdx).ref = some 0) = true)
    (by decide +kernel)
  obtain ⟨f', hf', hother, hrw⟩ := exists_of_any hpass
  obtain ⟨hinsts0, hinsts1, hinsts2⟩ := hinsts
  obtain ⟨hsucc0, hsucc1, hsucc2⟩ := hsucc
  have hdom : f.DefsDominate := by
    intro path b before u after hpath hsplit i v hv
    obtain ⟨href0, href1, href2, href3⟩ := hrefs i
    have hblocks : ∀ c ∈ path ++ [b], c = 0 ∨ c = 1 ∨ c = 2 := by
      refine hpath.invariant (fun c => c = 0 ∨ c = 1 ∨ c = 2) (.inl rfl) ?_
      rintro c d (rfl | rfl | rfl) hcd <;> unfold HirFunction.Succ at hcd
      · rw [hsucc0] at hcd
        simp_all
      · rw [hsucc1] at hcd
        cases hcd
      · rw [hsucc2] at hcd
        simp_all
    rcases hblocks b (by simp) with rfl | rfl | rfl
    · rw [hinsts0] at hsplit
      simp at hsplit
    · -- The only way into the block of the store is from the block of the load.
      rw [hinsts1] at hsplit
      obtain rfl : u = 3 := by
        rcases before with - | ⟨x, before⟩ <;> simp_all
      obtain rfl : v = 0 := by
        rw [hv] at href3
        simpa using href3
      rcases List.eq_nil_or_concat' path with rfl | ⟨path', c, rfl⟩
      · cases FlowGraph.isPath_singleton.mp hpath
      · have hedge := (FlowGraph.isPath_concat_iff.mp hpath).2
        obtain rfl : c = 2 := by
          rcases hblocks c (by simp) with rfl | rfl | rfl
          · simp [HirFunction.Succ, hsucc0] at hedge
          · simp [HirFunction.Succ, hsucc1] at hedge
          · rfl
        simp [HirFunction.trace, hinsts2]
    · rw [hinsts2] at hsplit
      rcases before with - | ⟨x, - | ⟨y, - | ⟨z, before⟩⟩⟩ <;>
        simp only [List.cons_append, List.nil_append, List.cons.injEq] at hsplit
      · obtain ⟨rfl, -⟩ := hsplit
        rw [href0] at hv
        cases hv
      · obtain ⟨rfl, rfl, -⟩ := hsplit
        rw [href1] at hv
        cases hv
      · obtain ⟨rfl, rfl, rfl, -⟩ := hsplit
        rw [hv] at href2
        simp_all
      · simp at hsplit
  have htrace := h _ _ _ f f' (typedFinishes_of_finish hfin) hdom (returned_eq_some_iff.mp hf')
    [0] 2 [0] 1 [2] 0 0 ⟨rfl, by simp [HirFunction.Succ, hsucc0]⟩ hinsts2 hact hrw
  obtain ⟨before, s, after, hsplit, hs, -⟩ := htrace
  rw [HirFunction.trace, List.flatMap_singleton, hinsts0] at hsplit
  obtain ⟨rfl, rfl⟩ : before = [] ∧ s = 0 := by
    rcases before with - | ⟨x, before⟩ <;> simp_all
  rw [hother] at hs
  cases hs

end Results

end SwiftRuntime.Ir
