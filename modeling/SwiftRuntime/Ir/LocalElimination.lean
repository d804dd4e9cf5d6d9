import SwiftRuntime.Ir.Values
import SwiftRuntime.Forwarding
import Mathlib.Logic.Relation

/-!
# `LocalEliminationPass`

The pass of `ir/opts/local_elimination_pass.cpp` goes over the blocks in the order of their creation
and over their instructions in order. It keeps, for every local, the `HIRValue` that was stored
last. A `LoadLocal` of a local with such a value of the same block is taken out of the map, after
the argument slots on its record of uses have been rewritten to that value.

On the level of values this is `Forwarding`: `Rewritten` says that a function is the one the passes
started from with every slot rewritten to what its value stands for and the forwarded loads taken
out of the map, and every step of the pass keeps it (`Rewritten.eliminateInst`), so that whole
passes do (`Rewritten.pass`). What the pass leaves then follows from which loads are forwarded.

The records of uses are not touched when a slot is rewritten, and neither are the terminals. So the
records stay exact only where nothing is rewritten (`Rewritten.usesExact`), and a value that a
terminal refers to can be lost (`Rewritten.refsFound_iff`).
-/

namespace SwiftRuntime.Ir

/-! ## The pass -/

/-- `GetArg<Local>`. A slot with something else is an assertion, or a wrong read without
assertions. -/
def getLocal (P : Platform) : Arg → Except Stop UInt16
  | .local_ id => .ok id
  | _ => .error (if P.asserts then .aborted else .undefined)

/-- `GetArg<Value>`. -/
def getValue (P : Platform) : Arg → Except Stop InstRef
  | .value v => .ok v
  | _ => .error (if P.asserts then .aborted else .undefined)

/-- `current_locals`: the value of every local, if there is one. -/
abbrev Locals := List (Option InstRef)

section Code

variable (P : Platform)

/-- The rewriting of one slot on the record of a load, to the value `w`. -/
def forwardUse (w : InstRef) (use : HirUse) : InstM Unit := do
  let h ← get
  match (h.inst use.inst).args use.argIdx with
  | .value _ => setArg P use.inst use.argIdx (.value w)
  | .lambda _ => setArg P use.inst use.argIdx (.lambda (.value w))
  | _ => pure ()

/-- The rewriting of all slots on the record of the value `v`, which is then taken out of the
map. -/
def forwardUses (v w : InstRef) : Build Unit := do
  let f ← get
  onHeap (forM (f.hirValue v).uses (forwardUse P w))
  modify fun f => f.destroyHIRValue P v

/-- The case `LoadLocal`. -/
def eliminateLoad (b : BlockRef) (u : InstRef) (locals : Locals) : Build Locals := do
  let f ← get
  let id ← ofExcept (getLocal P ((f.heap.inst u).args 0))
  let localValue ← ofOption locals[id.toNat]? .undefined
  match localValue.filter (fun w => (f.hirValue w).block = b), f.getHIRValue u with
  | some w, some v => forwardUses P v w
  | _, _ => pure ()
  return locals

/-- The case `StoreLocal`. -/
def eliminateStore (u : InstRef) (locals : Locals) : Build Locals := do
  let f ← get
  let id ← ofExcept (getLocal P ((f.heap.inst u).args 0))
  let v ← ofExcept (getValue P ((f.heap.inst u).args 1))
  require (id.toNat < locals.length) .undefined
  return locals.set id.toNat (f.getHIRValue v)

/-- The pass at one instruction of a block. -/
def eliminateInst (b : BlockRef) (locals : Locals) (u : InstRef) : Build Locals := do
  let f ← get
  if (f.heap.inst u).op = .loadLocal then eliminateLoad P b u locals
  else if (f.heap.inst u).op = .storeLocal then eliminateStore P u locals
  else return locals

/-- The pass over one block. -/
def eliminateBlock (locals : Locals) (block : Option BlockRef) : Build Locals := do
  let b ← ofOption block .undefined
  let f ← get
  (f.block b).insts.foldlM (eliminateInst P b) locals

/-- `LocalEliminationPass::Run` on a function. -/
def localEliminationPass : Build Unit := do
  let f ← get
  let _ ← f.blocks.foldlM (eliminateBlock P) (List.replicate (f.maxLocalId.toNat + 1) none)
  return ()

end Code

/-! ## The pass as forwarding -/

namespace HirFunction

variable (f : HirFunction)

/-- The instructions in the order of the pass. -/
def scan : List InstRef := (List.range f.blockCount).flatMap fun b => (f.block b).insts

/-- What an instruction does to the locals. -/
def act (u : InstRef) : Forwarding.Act InstRef UInt16 :=
  match (f.heap.inst u).op, (f.heap.inst u).args 0, (f.heap.inst u).args 1 with
  | .loadLocal, .local_ id, _ => .load id
  | .storeLocal, .local_ id, .value v => .store id v
  | _, _, _ => .other

/-- The block of a value. -/
def home (v : InstRef) : BlockRef := (f.hirValue v).block

end HirFunction

/-- A slot with its value replaced. -/
def Arg.redirect (g : InstRef → InstRef) : Arg → Arg
  | value v => value (g v)
  | lambda (.value v) => lambda (.value (g v))
  | a => a

/-- A slot that is rewritten to a value. -/
def Arg.retarget (w : InstRef) : Arg → Arg
  | value _ => value w
  | lambda _ => lambda (.value w)
  | a => a

/-- `f` is `f₀` after loads have been forwarded. -/
structure Rewritten (f₀ : HirFunction) (fwd : InstRef → Option InstRef) (f : HirFunction) :
    Prop where
  /-- The instructions are the same. -/
  count : f.heap.count = f₀.heap.count
  /-- Their operations are the same. -/
  op : ∀ r, (f.heap.inst r).op = (f₀.heap.inst r).op
  /-- Their ids are the same. -/
  id : ∀ r, (f.heap.inst r).id = (f₀.heap.inst r).id
  /-- A slot has what its value stands for. -/
  args : ∀ u < f₀.heap.count, ∀ i,
    (f.heap.inst u).args i = ((f₀.heap.inst u).args i).redirect fun v => (fwd v).getD v
  /-- Only instructions and the map are different. -/
  rest : f = { f₀ with heap := f.heap, values := f.values }
  /-- The map has lost the forwarded loads. -/
  values : f.values.toList = f₀.values.toList.filter fun v => (fwd v).isNone
  /-- Loads are forwarded to values. -/
  target : ∀ x w, fwd x = some w → w ∈ f₀.values.toList

/-- The table of the pass and the values that the locals hold. -/
structure Holds (f₀ : HirFunction) (cur : UInt16 → Option InstRef) (locals : Locals) : Prop where
  /-- The table has an entry for every local. -/
  length : locals.length = f₀.maxLocalId.toNat + 1
  /-- The entries. -/
  get : ∀ l ≤ f₀.maxLocalId, locals[l.toNat]? = some (cur l)
  /-- Locals hold values. -/
  value : ∀ l w, cur l = some w → w ∈ f₀.values.toList

section Args

variable {P : Platform} {h h' : Heap}

/-- From `h` to `h'` the argument slots become `g`, and nothing changes apart from that but use
counts and flag chains. -/
structure SlotsSet (g : InstRef → Fin 4 → Arg) (h h' : Heap) : Prop where
  /-- No instruction is created. -/
  count : h'.count = h.count
  /-- No operation changes. -/
  op : ∀ r, (h'.inst r).op = (h.inst r).op
  /-- No id changes. -/
  id : ∀ r, (h'.inst r).id = (h.inst r).id
  /-- The slots. -/
  args : ∀ u i, (h'.inst u).args i = g u i

/-- Writing a slot of an instruction. -/
theorem ArgsSet.slotsSet {v : InstRef} {j : Fin 4} {a : Arg}
    (hs : ArgsSet v (placed (h.inst v).args j [a]) h h') :
    SlotsSet (fun u i => if HirUse.mk u i = ⟨v, j⟩ then a else (h.inst u).args i) h h' := by
  refine ⟨hs.count, hs.op, hs.id, fun u i => ?_⟩
  by_cases hu : u = v
  · subst hu
    rw [hs.self]
    simp [placed, Fin.val_inj]
  · rw [hs.other u hu]
    simp [hu]

/-- Rewriting one slot. -/
theorem forwardUse_spec {w : InstRef} {use : HirUse} (hok : forwardUse P w use h = .ok () h') :
    SlotsSet (fun u i => if HirUse.mk u i = use then ((h.inst u).args i).retarget w
      else (h.inst u).args i) h h' := by
  obtain ⟨v, j⟩ := use
  simp only [forwardUse, bind_ok_iff, get_ok_iff] at hok
  obtain ⟨k, k', ⟨hk, hk'⟩, hok⟩ := hok
  rw [hk, hk'] at hok
  -- Whatever is written is what `retarget` makes of the slot.
  have hwritten : ∀ {a : Arg}, ((h.inst v).args j).retarget w = a →
      SlotsSet (fun u i => if HirUse.mk u i = ⟨v, j⟩ then a else (h.inst u).args i) h h' →
      SlotsSet (fun u i => if HirUse.mk u i = ⟨v, j⟩ then ((h.inst u).args i).retarget w
        else (h.inst u).args i) h h' := by
    rintro a rfl hs
    refine ⟨hs.count, hs.op, hs.id, fun u i => ?_⟩
    rw [hs.args]
    split_ifs with hui
    · cases hui
      rfl
    · rfl
  have hkept : ∀ {a : Arg}, (h.inst v).args j = a → a.retarget w = a → h' = h →
      SlotsSet (fun u i => if HirUse.mk u i = ⟨v, j⟩ then ((h.inst u).args i).retarget w
        else (h.inst u).args i) h h' := by
    rintro a ha hra rfl
    refine ⟨rfl, fun _ => rfl, fun _ => rfl, fun u i => ?_⟩
    split_ifs with hui
    · cases hui
      rw [ha, hra]
    · rfl
  cases ha : (h.inst v).args j with
  | value x =>
    rw [ha] at hok
    exact hwritten (by rw [ha]; rfl) (setArg_spec hok).slotsSet
  | lambda l =>
    rw [ha] at hok
    exact hwritten (by rw [ha]; rfl) (setArg_spec hok).slotsSet
  | _ =>
    rw [ha] at hok
    exact hkept ha rfl (pure_ok_iff.mp hok).2.symm

/-- Rewriting twice is rewriting once. -/
theorem Arg.retarget_retarget (w : InstRef) (a : Arg) :
    (a.retarget w).retarget w = a.retarget w := by
  cases a <;> rfl

/-- Rewriting the slots of a record. -/
theorem forM_forwardUse_spec {w : InstRef} {uses : List HirUse}
    (hok : (forM uses (forwardUse P w) : InstM Unit) h = .ok () h') :
    SlotsSet (fun u i => if HirUse.mk u i ∈ uses then ((h.inst u).args i).retarget w
      else (h.inst u).args i) h h' := by
  refine forM_induction (fun pre => SlotsSet (fun u i => if HirUse.mk u i ∈ pre then
    ((h.inst u).args i).retarget w else (h.inst u).args i) h) ?_ ?_ hok
  · intro pre use post k k' _ hk hstep
    have hk' := forwardUse_spec hstep
    refine ⟨hk'.count.trans hk.count, fun r => (hk'.op r).trans (hk.op r),
      fun r => (hk'.id r).trans (hk.id r), fun u i => ?_⟩
    rw [hk'.args, hk.args]
    -- A slot that is rewritten twice refers to the same value afterwards.
    rcases eq_or_ne (HirUse.mk u i) use with rfl | hu
    · by_cases hp : HirUse.mk u i ∈ pre
      · simp [hp, Arg.retarget_retarget]
      · simp [hp]
    · simp [hu]
  · exact ⟨rfl, fun _ => rfl, fun _ => rfl, fun u i => by simp⟩

/-- What rewriting the uses of a load does to a slot, if the load stands for nothing else yet. -/
theorem Arg.redirect_update {fwd : InstRef → Option InstRef} {x : InstRef} (hx : fwd x = none)
    (w : InstRef) (a : Arg) :
    a.redirect (fun v => (Function.update fwd x (some w) v).getD v) =
      if a.ref = some x then (a.redirect fun v => (fwd v).getD v).retarget w
      else a.redirect fun v => (fwd v).getD v := by
  have hv : ∀ v, (Function.update fwd x (some w) v).getD v =
      if v = x then w else (fwd v).getD v := by
    intro v
    by_cases hvx : v = x
    · subst hvx
      simp
    · simp [hvx]
  cases a with
  -- Only a value, or a lambda with one, refers to something.
  | value v =>
    simp only [redirect, ref, hv, Option.some.injEq]
    split_ifs <;> rfl
  | lambda l =>
    cases l with
    | value v =>
      simp only [redirect, ref, hv, Option.some.injEq]
      split_ifs <;> rfl
    | _ => simp [redirect, ref]
  | _ => simp [redirect, ref]

end Args

section Simulation

variable {P : Platform} {f₀ f f' : HirFunction} {fwd : InstRef → Option InstRef}

/-- Nothing has been forwarded. -/
theorem Rewritten.refl (f : HirFunction) : Rewritten f (fun _ => none) f where
  count := rfl
  op _ := rfl
  id _ := rfl
  args u _ i := by
    cases (f.heap.inst u).args i with
    | lambda l => cases l <;> rfl
    | _ => rfl
  rest := rfl
  values := by simp
  target x w h := by cases h

/-- What a slot refers to after loads have been forwarded. -/
theorem Arg.ref_redirect (g : InstRef → InstRef) (a : Arg) : (a.redirect g).ref = a.ref.map g := by
  cases a with
  | lambda l => cases l <;> rfl
  | _ => rfl

/-- A value of the function is found unless it has been forwarded. -/
theorem Rewritten.getHIRValue (hr : Rewritten f₀ fwd f) (hf : Valued f₀) {v : InstRef}
    (hv : v ∈ f₀.values.toList) : f.getHIRValue v = if (fwd v).isNone then some v else none := by
  have hids : f.values.toList.Pairwise fun v w => (f.heap.inst w).id < (f.heap.inst v).id := by
    rw [hr.values]
    simp only [hr.id]
    exact hf.ids.sublist List.filter_sublist
  split_ifs with hnone
  · rw [f.getHIRValue_eq_some_iff hids, hr.values]
    exact ⟨List.mem_filter.mpr ⟨hv, hnone⟩, rfl⟩
  · rw [Option.eq_none_iff_forall_ne_some]
    intro w hw
    rw [f.getHIRValue_eq_some_iff hids, hr.values, hr.id, hr.id, List.mem_filter] at hw
    obtain rfl := HirFunction.eq_of_id_eq hf.ids hw.1.1 hv hw.2
    exact hnone hw.1.2

/-- Forwarding a load. -/
theorem Rewritten.forwardUses (hr : Rewritten f₀ fwd f) (hf : Valued f₀) {x w : InstRef}
    (hx : x ∈ f₀.values.toList) (hw : w ∈ f₀.values.toList) (hnone : fwd x = none)
    (hok : forwardUses P x w f = .ok () f') :
    Rewritten f₀ (Function.update fwd x (some w)) f' := by
  simp only [Ir.forwardUses, bind_ok_iff, get_ok_iff, onHeap_ok_iff, modify_ok_iff] at hok
  obtain ⟨k, k', ⟨hk, hk'⟩, ⟨⟩, g, ⟨h', hfor, rfl⟩, rfl⟩ := hok
  rw [hk, hk'] at hfor
  rw [hk']
  have hset := forM_forwardUse_spec hfor
  -- The record of the load has the slots of the function before the passes.
  have huses : (f.hirValue x).uses = f₀.slotsOf x := by
    rw [hr.rest]
    exact hf.uses x hx
  have hnodup : f₀.values.toList.Nodup := by
    rw [hf.values]
    exact f₀.nodup_definitions
  refine ⟨hset.count.trans hr.count, fun r => (hset.op r).trans (hr.op r),
    fun r => (hset.id r).trans (hr.id r), fun u hu i => ?_, ?_, ?_, fun y v hy => ?_⟩
  · show (h'.inst u).args i = _
    rw [hset.args, huses, hr.args u hu, Arg.redirect_update hnone]
    simp only [f₀.mem_slotsOf, hu, true_and]
  · rw [hr.rest]
    rfl
  -- The load is taken out of the map.
  · show (P.balance.remove x f.values).toList = _
    rw [P.balance.toList_remove, hr.values, (hnodup.filter _).erase_eq_filter, List.filter_filter]
    refine List.filter_congr fun v _ => ?_
    by_cases hvx : v = x
    · subst hvx
      simp
    · simp [hvx]
  · by_cases hyx : y = x
    · subst hyx
      rw [Function.update_self] at hy
      cases hy
      exact hw
    · rw [Function.update_of_ne hyx] at hy
      exact hr.target y v hy

/-- A `LoadLocal` loads its local. -/
theorem Valued.act_load (hf : Valued f) {u : InstRef} (hu : u < f.heap.count)
    (hop : (f.heap.inst u).op = .loadLocal) :
    ∃ id ≤ f.maxLocalId, (f.heap.inst u).args 0 = .local_ id ∧ f.act u = .load id := by
  obtain ⟨id, hid, harg⟩ := hf.load u hu hop
  exact ⟨id, hid, harg, by simp [HirFunction.act, hop, harg]⟩

/-- A `StoreLocal` stores its value to its local. -/
theorem Valued.act_store (hf : Valued f) {u : InstRef} (hu : u < f.heap.count)
    (hop : (f.heap.inst u).op = .storeLocal) :
    ∃ id ≤ f.maxLocalId, ∃ v, (f.heap.inst u).args 0 = .local_ id ∧
      (f.heap.inst u).args 1 = .value v ∧ f.act u = .store id v := by
  obtain ⟨id, hid, v, harg, hval⟩ := hf.store u hu hop
  exact ⟨id, hid, v, harg, hval, by simp [HirFunction.act, hop, harg, hval]⟩

/-- The other instructions do nothing to the locals. -/
theorem HirFunction.act_other {u : InstRef} (hload : (f.heap.inst u).op ≠ .loadLocal)
    (hstore : (f.heap.inst u).op ≠ .storeLocal) : f.act u = .other := by
  unfold HirFunction.act
  split
  · next h _ => exact absurd h hload
  · next h _ _ => exact absurd h hstore
  · rfl

/-- A value of an instruction of a block has that block. -/
theorem Valued.home_eq (hf : Valued f) {b : BlockRef} {u : InstRef} (hu : u ∈ (f.block b).insts)
    (hv : u ∈ f.values.toList) : f.home u = b := hf.disjoint _ _ u (hf.home u hv) hu

/-- The values of a function. -/
theorem Valued.mem_values (hf : Valued f) {v : InstRef} :
    v ∈ f.values.toList ↔ v < f.heap.count ∧ (f.heap.inst v).op.hasValue = true := by
  rw [hf.values]
  exact f.mem_definitions

variable {σ : Forwarding.State InstRef UInt16} {locals locals' : Locals} {b : BlockRef}
  {u : InstRef}

/-- The pass at a load. -/
theorem Rewritten.eliminateLoad (hr : Rewritten f₀ σ.fwd f) (hh : Holds f₀ σ.cur locals)
    (hf : Valued f₀) (hu : u ∈ (f₀.block b).insts) (hop : (f₀.heap.inst u).op = .loadLocal)
    (hok : eliminateLoad P b u locals f = .ok locals' f') :
    Rewritten f₀ (Forwarding.step f₀.act f₀.home σ u).fwd f' ∧
      Holds f₀ (Forwarding.step f₀.act f₀.home σ u).cur locals' := by
  have hlt : u < f₀.heap.count := (hf.mem u).mpr ⟨b, hu⟩
  have hval : u ∈ f₀.values.toList := hf.mem_values.mpr ⟨hlt, by rw [hop]; rfl⟩
  obtain ⟨id, hid, harg, hact⟩ := hf.act_load hlt hop
  simp only [Ir.eliminateLoad, bind_ok_iff, get_ok_iff, ofExcept_ok_iff, ofOption_ok_iff] at hok
  obtain ⟨g, g', ⟨hg, hg'⟩, id', _, ⟨hid', rfl⟩, cell, _, ⟨hcell, rfl⟩, hmatch⟩ := hok
  rw [hg, hg'] at hmatch
  rw [hg, hr.args u hlt 0, harg] at hid'
  cases hid'
  rw [hh.get id hid] at hcell
  cases hcell
  have hhome : ∀ w, (f.hirValue w).block = f₀.home w := fun w => by rw [hr.rest]; rfl
  have hb : f₀.home u = b := hf.home_eq hu hval
  rw [hr.getHIRValue hf hval] at hmatch
  -- Where the pass does nothing, neither does the step.
  have hnothing : (pure locals : Build Locals) f = .ok locals' f' →
      Rewritten f₀ σ.fwd f' ∧ Holds f₀ σ.cur locals' := by
    intro h
    obtain ⟨rfl, rfl⟩ := pure_ok_iff.mp h
    exact ⟨hr, hh⟩
  rw [Forwarding.step_load hact]
  cases hcur : σ.cur id with
  | none =>
    rw [hcur] at hmatch
    exact hnothing hmatch
  | some w =>
    rw [hcur, Option.filter_some, hhome] at hmatch
    dsimp only
    by_cases hw : f₀.home w = f₀.home u
    · rw [← hb, if_pos (by simp [hw])] at hmatch
      cases hfwd : σ.fwd u with
      | some v =>
        rw [hfwd] at hmatch
        rw [if_neg (by simp)]
        exact hnothing hmatch
      | none =>
        rw [hfwd] at hmatch
        rw [if_pos ⟨hw, rfl⟩]
        simp only [Option.isNone_none, if_true, bind_ok_iff, pure_ok_iff] at hmatch
        obtain ⟨⟨⟩, f1, hforward, rfl, rfl⟩ := hmatch
        exact ⟨hr.forwardUses hf hval (hh.value id w hcur) hfwd hforward, hh⟩
    · rw [← hb, if_neg (by simp [hw])] at hmatch
      rw [if_neg fun h => hw h.1]
      exact hnothing hmatch

/-- The pass at a store. -/
theorem Rewritten.eliminateStore (hr : Rewritten f₀ σ.fwd f) (hh : Holds f₀ σ.cur locals)
    (hf : Valued f₀) (hu : u ∈ (f₀.block b).insts) (hop : (f₀.heap.inst u).op = .storeLocal)
    (hok : eliminateStore P u locals f = .ok locals' f') :
    Rewritten f₀ (Forwarding.step f₀.act f₀.home σ u).fwd f' ∧
      Holds f₀ (Forwarding.step f₀.act f₀.home σ u).cur locals' := by
  have hlt : u < f₀.heap.count := (hf.mem u).mpr ⟨b, hu⟩
  obtain ⟨id, hid, v, harg, hvarg, hact⟩ := hf.act_store hlt hop
  simp only [Ir.eliminateStore, bind_ok_iff, get_ok_iff, ofExcept_ok_iff, require_ok_iff,
    pure_ok_iff] at hok
  obtain ⟨g, g', ⟨hg, hg'⟩, id', _, ⟨hid', rfl⟩, v', _, ⟨hv', rfl⟩, ⟨⟩, _, ⟨hlen, rfl⟩, rfl, rfl⟩ :=
    hok
  rw [hg']
  rw [hg, hr.args u hlt 0, harg] at hid'
  rw [hg, hr.args u hlt 1, hvarg] at hv'
  cases hid'
  cases hv'
  rw [hg, Forwarding.step_store hact]
  -- What the store finds is what `stored` says.
  have hmem : σ.subst v ∈ f₀.values.toList := by
    unfold Forwarding.State.subst
    cases hv : σ.fwd v with
    | none =>
      obtain ⟨hvlt, hvv⟩ := hf.refs u hlt 1 v (by rw [hvarg]; rfl)
      exact hf.mem_values.mpr ⟨hvlt.trans hlt, hvv⟩
    | some w => exact hr.target v w hv
  have hfound : f.getHIRValue (σ.subst v) = σ.stored v := hr.getHIRValue hf hmem
  dsimp only
  refine ⟨hr, ?_, ?_, ?_⟩
  · rw [List.length_set]
    exact hh.length
  · intro l hl
    show (locals.set id.toNat (f.getHIRValue (σ.subst v)))[l.toNat]? = _
    rw [hfound]
    by_cases hli : l = id
    · subst hli
      simp [hlen]
    · have hne : id.toNat ≠ l.toNat := fun h => hli (UInt16.toNat_inj.mp h).symm
      rw [List.getElem?_set_ne hne, hh.get l hl, Function.update_of_ne hli]
  · intro l w hw
    by_cases hli : l = id
    · subst hli
      rw [Function.update_self, ← hfound, hr.getHIRValue hf hmem] at hw
      split_ifs at hw
      cases hw
      exact hmem
    · rw [Function.update_of_ne hli] at hw
      exact hh.value l w hw

/-- The pass at one instruction is a step of forwarding. -/
theorem Rewritten.eliminateInst (hr : Rewritten f₀ σ.fwd f) (hh : Holds f₀ σ.cur locals)
    (hf : Valued f₀) (hu : u ∈ (f₀.block b).insts)
    (hok : eliminateInst P b locals u f = .ok locals' f') :
    Rewritten f₀ (Forwarding.step f₀.act f₀.home σ u).fwd f' ∧
      Holds f₀ (Forwarding.step f₀.act f₀.home σ u).cur locals' := by
  simp only [Ir.eliminateInst, bind_ok_iff, get_ok_iff] at hok
  obtain ⟨g, g', ⟨hg, hg'⟩, hok⟩ := hok
  rw [hg, hg', hr.op] at hok
  split_ifs at hok with hload hstore
  · exact hr.eliminateLoad hh hf hu hload hok
  · exact hr.eliminateStore hh hf hu hstore hok
  · obtain ⟨rfl, rfl⟩ := pure_ok_iff.mp hok
    rw [Forwarding.step_other (HirFunction.act_other hload hstore)]
    exact ⟨hr, hh⟩

/-- The pass over a block. -/
theorem Rewritten.eliminateBlock (hr : Rewritten f₀ σ.fwd f) (hh : Holds f₀ σ.cur locals)
    (hf : Valued f₀) (hok : eliminateBlock P locals (some b) f = .ok locals' f') :
    Rewritten f₀ (Forwarding.run f₀.act f₀.home σ (f₀.block b).insts).fwd f' ∧
      Holds f₀ (Forwarding.run f₀.act f₀.home σ (f₀.block b).insts).cur locals' := by
  simp only [Ir.eliminateBlock, bind_ok_iff, get_ok_iff, ofOption_ok_iff, Option.some.injEq] at hok
  obtain ⟨_, _, ⟨rfl, rfl⟩, g, g', ⟨hg, hg'⟩, hok⟩ := hok
  have hinsts : (g.block b).insts = (f₀.block b).insts := by rw [hg, hr.rest]
  rw [hinsts, hg'] at hok
  refine foldlM_induction (fun pre locals f =>
    Rewritten f₀ (Forwarding.run f₀.act f₀.home σ pre).fwd f ∧
      Holds f₀ (Forwarding.run f₀.act f₀.home σ pre).cur locals) ?_ ⟨hr, hh⟩ hok
  rintro pre u post l l' k k' hsplit ⟨hk, hl⟩ hstep
  have hu : u ∈ (f₀.block b).insts := by rw [hsplit]; simp
  rw [Forwarding.run_append]
  exact hk.eliminateInst hl hf hu hstep

/-- The whole pass is a pass of forwarding over the scan of the function. -/
theorem Rewritten.pass (hr : Rewritten f₀ fwd f) (hf : Valued f₀)
    (hblocks : f₀.blocks = (List.range f₀.blockCount).map some)
    (hok : localEliminationPass P f = .ok () f') :
    Rewritten f₀ (Forwarding.run f₀.act f₀.home (.start fwd) f₀.scan).fwd f' := by
  simp only [localEliminationPass, bind_ok_iff, get_ok_iff, pure_ok_iff] at hok
  obtain ⟨g, g', ⟨hg, hg'⟩, locals', f1, hfold, -, rfl⟩ := hok
  have hsame : g.blocks = f₀.blocks ∧ g.maxLocalId = f₀.maxLocalId := by rw [hg, hr.rest]; simp
  rw [hsame.1, hsame.2, hg', hblocks] at hfold
  -- The table of the locals is empty at the start.
  have hstart : Holds f₀ (fun _ => none) (List.replicate (f₀.maxLocalId.toNat + 1) none) := by
    refine ⟨by simp, fun l hl => ?_, fun l w hw => by cases hw⟩
    rw [List.getElem?_replicate, if_pos (Nat.lt_succ_of_le (UInt16.le_iff_toNat_le.mp hl))]
  rw [List.foldlM_map] at hfold
  -- The blocks so far are the part of the scan that the pass has come to.
  refine (foldlM_induction (fun (pre : List BlockRef) locals f =>
    Rewritten f₀ (Forwarding.run f₀.act f₀.home (.start fwd)
        (pre.flatMap fun b => (f₀.block b).insts)).fwd f ∧
      Holds f₀ (Forwarding.run f₀.act f₀.home (.start fwd)
        (pre.flatMap fun b => (f₀.block b).insts)).cur locals) ?_ ⟨hr, hstart⟩ hfold).1
  rintro pre b post l l' k k' - ⟨hk, hl⟩ hstep
  rw [List.flatMap_append, List.flatMap_singleton, Forwarding.run_append]
  exact hk.eliminateBlock hl hf hstep

end Simulation

/-! ## The order of the pass -/

section Scan

variable {f : HirFunction}

/-- The scan comes to every instruction. -/
theorem Valued.mem_scan (hf : Valued f) {u : InstRef} : u ∈ f.scan ↔ u < f.heap.count := by
  rw [hf.mem u, HirFunction.scan, List.mem_flatMap]
  constructor
  · rintro ⟨b, -, hu⟩
    exact ⟨b, hu⟩
  · rintro ⟨b, hu⟩
    refine ⟨b, List.mem_range.mpr ?_, hu⟩
    by_contra hge
    rw [hf.fresh b (not_lt.mp hge)] at hu
    cases hu

/-- Along the scan, an instruction comes before another one if its block does, or if they are in one
block and it was created before. -/
theorem Valued.scan_pairwise (hf : Valued f) : f.scan.Pairwise fun u v =>
    ∀ b c, u ∈ (f.block b).insts → v ∈ (f.block c).insts → b < c ∨ b = c ∧ u < v := by
  unfold HirFunction.scan
  rw [List.pairwise_flatMap]
  constructor
  · intro x _
    refine (hf.sorted x).imp_of_mem fun {u v} hu hv huv b c hb hc => .inr ⟨?_, huv⟩
    exact (hf.disjoint b x u hb hu).trans (hf.disjoint c x v hc hv).symm
  · refine List.pairwise_lt_range.imp fun {x y} hxy u hu v hv b c hb hc => .inl ?_
    rw [hf.disjoint b x u hb hu, hf.disjoint c y v hc hv]
    exact hxy

/-- It comes to an instruction once. -/
theorem Valued.scan_nodup (hf : Valued f) : f.scan.Nodup := by
  refine hf.scan_pairwise.imp_of_mem fun {u v} hu _ h huv => ?_
  subst huv
  obtain ⟨b, hb⟩ := (hf.mem u).mp (hf.mem_scan.mp hu)
  rcases h b b hb hb with hlt | ⟨-, hlt⟩ <;> exact lt_irrefl _ hlt

/-- What comes before an instruction in the scan: the instructions of earlier blocks, and those of
its own block that were created before it. -/
theorem Valued.mem_prefix_iff (hf : Valued f) {p q : List InstRef} {s u : InstRef} {b c : BlockRef}
    (hscan : f.scan = p ++ s :: q) (hs : s ∈ (f.block b).insts) (hu : u ∈ (f.block c).insts) :
    u ∈ p ↔ c < b ∨ c = b ∧ u < s := by
  have hpair := hf.scan_pairwise
  rw [hscan, List.pairwise_append] at hpair
  constructor
  · exact fun hp => hpair.2.2 u hp s List.mem_cons_self c b hu hs
  -- An instruction that comes later in the scan is in a later block, or later in the same one.
  · intro hbefore
    have hmem : u ∈ p ++ s :: q := by
      rw [← hscan]
      exact hf.mem_scan.mpr ((hf.mem u).mpr ⟨c, hu⟩)
    rcases List.mem_append.mp hmem with hp | hp
    · exact hp
    · exfalso
      rcases List.mem_cons.mp hp with rfl | hq
      · obtain rfl := hf.disjoint b c u hs hu
        rcases hbefore with h | ⟨-, h⟩ <;> exact lt_irrefl _ h
      · rcases (List.pairwise_cons.mp hpair.2.1).1 u hq b c hs hu with h' | ⟨rfl, h'⟩
        · rcases hbefore with h | ⟨rfl, -⟩
          · exact lt_asymm h h'
          · exact lt_irrefl _ h'
        · rcases hbefore with h | ⟨-, h⟩
          · exact lt_irrefl _ h
          · exact lt_asymm h h'

end Scan

/-! ## Which loads are forwarded -/

section Forwarded

variable (f : HirFunction)

/-- `s` is the last `StoreLocal` to the local of the `LoadLocal` `x` that the pass meets before `x`,
and stores `a`. -/
def HirFunction.ReachingStore (s a x : InstRef) : Prop :=
  ∃ p, Forwarding.Reaching f.act f.scan p s a x

/-- The last value stored before a load, in the order of the pass, is one of the block of the
load. -/
def HirFunction.Forwarded (x : InstRef) : Prop :=
  ∃ s a, f.ReachingStore s a x ∧ f.home a = f.home x

/-- Loads with uses on record get their value from a store in their own block, or from a store of a
value that is not forwarded itself. -/
def HirFunction.NotCrossed : Prop :=
  ∀ x s a, (f.hirValue x).uses ≠ [] → f.ReachingStore s a x → f.home a = f.home x →
    f.Forwarded a → s ∈ (f.block (f.home x)).insts

variable {f}

/-- A load is forwarded in the sense of the library. -/
theorem HirFunction.forwarded_iff {x : InstRef} :
    f.Forwarded x ↔ Forwarding.Forwardable f.act f.home f.scan x := by
  constructor
  · rintro ⟨s, a, ⟨p, hr⟩, hhome⟩
    exact ⟨p, s, a, hr, hhome⟩
  · rintro ⟨p, s, a, hr, hhome⟩
    exact ⟨s, a, ⟨p, hr⟩, hhome⟩

/-- What `act` says about a load. -/
theorem HirFunction.op_of_act_load {x : InstRef} {l : UInt16} (h : f.act x = .load l) :
    (f.heap.inst x).op = .loadLocal := by
  unfold HirFunction.act at h
  split at h
  · assumption
  · cases h
  · cases h

/-- What `act` says about a store. -/
theorem HirFunction.args_of_act_store {s a : InstRef} {l : UInt16} (h : f.act s = .store l a) :
    (f.heap.inst s).op = .storeLocal ∧ (f.heap.inst s).args 0 = .local_ l ∧
      (f.heap.inst s).args 1 = .value a := by
  unfold HirFunction.act at h
  split at h
  · cases h
  · cases h
    exact ⟨by assumption, by assumption, by assumption⟩
  · cases h

/-- The places of a load, the store that reaches it, and what that stores. -/
theorem Valued.reaching (hf : Valued f) {p : List InstRef} {s a x : InstRef}
    (hr : Forwarding.Reaching f.act f.scan p s a x) :
    s < f.heap.count ∧ x < f.heap.count ∧ a < s ∧ x ∈ f.values.toList ∧ a ∈ f.values.toList ∧
      ⟨s, 1⟩ ∈ f.slotsOf a := by
  obtain ⟨l, q, post, hscan, hx, hs, -⟩ := hr
  have hslt : s < f.heap.count := hf.mem_scan.mp (by rw [hscan]; simp)
  have hxlt : x < f.heap.count := hf.mem_scan.mp (by rw [hscan]; simp)
  have href : ((f.heap.inst s).args 1).ref = some a := by
    rw [(HirFunction.args_of_act_store hs).2.2]
    rfl
  obtain ⟨halt, haval⟩ := hf.refs s hslt 1 a href
  refine ⟨hslt, hxlt, halt, hf.mem_values.mpr ⟨hxlt, ?_⟩,
    hf.mem_values.mpr ⟨halt.trans hslt, haval⟩, f.mem_slotsOf.mpr ⟨hslt, href⟩⟩
  rw [HirFunction.op_of_act_load hx]
  rfl

/-- Only loads are forwarded. -/
theorem Valued.load_of_forwarded (hf : Valued f) {x : InstRef} (hx : f.Forwarded x) :
    x < f.heap.count ∧ (f.heap.inst x).op = .loadLocal := by
  obtain ⟨s, a, ⟨p, hr⟩, -⟩ := hx
  refine ⟨(hf.reaching hr).2.1, ?_⟩
  obtain ⟨l, q, post, -, hact, -⟩ := hr
  exact HirFunction.op_of_act_load hact

/-- For a load whose last stored value is one of its block, the store is in that block exactly if
the value comes before it in the order of the pass. -/
theorem Valued.store_mem_iff (hf : Valued f) {p : List InstRef} {s a x : InstRef}
    (hr : Forwarding.Reaching f.act f.scan p s a x) (hhome : f.home a = f.home x) :
    s ∈ (f.block (f.home x)).insts ↔ a ∈ p := by
  obtain ⟨hs, hx, has, hxv, hav, -⟩ := hf.reaching hr
  obtain ⟨l, q, post, hscan, -, -, -⟩ := hr
  obtain ⟨c, hc⟩ := (hf.mem s).mp hs
  have ha : a ∈ (f.block (f.home x)).insts := hhome ▸ hf.home a hav
  rw [hf.mem_prefix_iff hscan hc ha]
  constructor
  · intro h
    exact .inr ⟨hf.disjoint _ _ s h hc, has⟩
  · -- The store comes before the load, so its block is not a later one.
    have hsx : s ∈ p ++ s :: q := by simp
    rw [show p ++ s :: (q ++ x :: post) = (p ++ s :: q) ++ x :: post by simp] at hscan
    have hle := (hf.mem_prefix_iff hscan (hf.home x hxv) hc).mp hsx
    rintro (h | ⟨h, -⟩)
    · rcases hle with h' | ⟨h', -⟩
      · exact absurd h (lt_asymm h')
      · exact absurd h (h' ▸ lt_irrefl _)
    · rw [h]
      exact hc

/-- The function's condition is that of forwarding. -/
theorem Valued.settled_iff (hf : Valued f) :
    Forwarding.Settled f.act f.home (fun x => f.slotsOf x ≠ []) f.scan ↔ f.NotCrossed := by
  constructor
  · rintro hset x s a huses ⟨p, hr⟩ hhome hfa
    have hx := (hf.reaching hr).2.2.2.1
    rw [hf.uses x hx] at huses
    exact (hf.store_mem_iff hr hhome).mpr
      (hset x p s a huses hr hhome (HirFunction.forwarded_iff.mp hfa))
  · intro hnot x p s a huses hr hhome hfa
    have hx := (hf.reaching hr).2.2.2.1
    rw [← hf.uses x hx] at huses
    exact (hf.store_mem_iff hr hhome).mp
      (hnot x s a huses ⟨p, hr⟩ hhome (HirFunction.forwarded_iff.mpr hfa))

/-- The stores of a function use what they store. -/
theorem Valued.store_used (hf : Valued f) : ∀ s ∈ f.scan, ∀ l a, f.act s = .store l a →
    f.slotsOf a ≠ [] := by
  intro s hs l a hact
  have href : ((f.heap.inst s).args 1).ref = some a := by
    rw [(HirFunction.args_of_act_store hact).2.2]
    rfl
  have hmem : HirUse.mk s 1 ∈ f.slotsOf a := f.mem_slotsOf.mpr ⟨hf.mem_scan.mp hs, href⟩
  exact List.ne_nil_of_mem hmem

end Forwarded

/-! ## What the pass leaves -/

section Results

variable {P : Platform} {f f' : HirFunction}

/-- What a first pass forwards. -/
def HirFunction.forwarding (f : HirFunction) : InstRef → Option InstRef :=
  (Forwarding.run f.act f.home (.start fun _ => none) f.scan).fwd

/-- The uses on record for every value of the map are the slots that refer to it. -/
def HirFunction.UsesExact (f : HirFunction) : Prop :=
  ∀ v ∈ f.values.toList, (f.hirValue v).uses.Perm (f.slotsOf v)

/-- Every value that a slot or a terminal refers to is found. -/
structure HirFunction.RefsFound (f : HirFunction) : Prop where
  /-- The values of slots. -/
  slot : ∀ u < f.heap.count, ∀ i v, ((f.heap.inst u).args i).ref = some v → f.getHIRValue v = some v
  /-- The values of terminals. -/
  terminal : ∀ b < f.blockCount, ∀ v, (f.block b).terminal.ref = some v → f.getHIRValue v = some v

/-- What a slot refers to after passes. -/
theorem Rewritten.ref {fwd : InstRef → Option InstRef} (hr : Rewritten f fwd f') {u : InstRef}
    (hu : u < f.heap.count) (i : Fin 4) :
    ((f'.heap.inst u).args i).ref = ((f.heap.inst u).args i).ref.map fun v => (fwd v).getD v := by
  rw [hr.args u hu, Arg.ref_redirect]

/-- The records stay exact where only loads without uses are forwarded. -/
theorem Rewritten.usesExact {fwd : InstRef → Option InstRef} (hr : Rewritten f fwd f')
    (hf : Valued f) (hunused : ∀ x w, fwd x = some w → f.slotsOf x = []) : f'.UsesExact := by
  intro v hv
  rw [hr.values, List.mem_filter] at hv
  -- No slot has been rewritten: the loads that are forwarded have none.
  have hslots : f'.slotsOf v = f.slotsOf v := by
    unfold HirFunction.slotsOf HirFunction.usesIn
    rw [hr.count]
    refine List.flatMap_congr fun u hu => ?_
    congr 1
    refine List.filter_congr fun i _ => ?_
    have hu' := List.mem_range.mp hu
    rw [hr.ref hu']
    cases href : ((f.heap.inst u).args i).ref with
    | none => rfl
    | some a =>
      have hnone : fwd a = none := by
        by_contra hne
        obtain ⟨w, hw⟩ := Option.ne_none_iff_exists'.mp hne
        have hmem : HirUse.mk u i ∈ f.slotsOf a := f.mem_slotsOf.mpr ⟨hu', href⟩
        rw [hunused a w hw] at hmem
        cases hmem
      rw [Option.map_some, hnone, Option.getD_none]
  rw [hslots, hr.rest]
  exact .of_eq (hf.uses v hv.1)

/-- Where the records are exact, a load with uses was not forwarded to a value of the map. -/
theorem Rewritten.slotsOf_eq_nil {fwd : InstRef → Option InstRef} (hr : Rewritten f fwd f')
    (hf : Valued f) (hexact : f'.UsesExact) {x w : InstRef} (hx : fwd x = some w)
    (hw : fwd w = none) : f.slotsOf x = [] := by
  rw [List.eq_nil_iff_forall_not_mem]
  intro r hrx
  obtain ⟨hlt, href⟩ := f.mem_slotsOf.mp hrx
  have hwv : w ∈ f.values.toList := hr.target x w hx
  have hw' : w ∈ f'.values.toList := by
    rw [hr.values]
    exact List.mem_filter.mpr ⟨hwv, by rw [hw]; rfl⟩
  -- The slot refers to `w` now, so it is on the record of `w`, and it did so before.
  have hr' : r ∈ f'.slotsOf w := by
    refine f'.mem_slotsOf.mpr ⟨by rw [hr.count]; exact hlt, ?_⟩
    rw [hr.ref hlt, href, Option.map_some, hx, Option.getD_some]
  have hrec := (hexact w hw').mem_iff.mpr hr'
  rw [hr.rest] at hrec
  have hrec' : r ∈ (f.hirValue w).uses := hrec
  rw [hf.uses w hwv] at hrec'
  have hsame := (f.mem_slotsOf.mp hrec').2
  rw [href] at hsame
  cases hsame
  rw [hw] at hx
  cases hx

/-- Every value that is referred to is found exactly if no slot was rewritten to a value that was
taken out of the map, and no terminal refers to one. -/
theorem Rewritten.refsFound_iff {fwd : InstRef → Option InstRef} (hr : Rewritten f fwd f')
    (hf : Valued f) : f'.RefsFound ↔
      (∀ a w, f.slotsOf a ≠ [] → fwd a = some w → fwd w = none) ∧
        ∀ b < f.blockCount, ∀ v, (f.block b).terminal.ref = some v → fwd v = none := by
  have hfound : ∀ v ∈ f.values.toList, (f'.getHIRValue v = some v ↔ fwd v = none) := by
    intro v hv
    rw [hr.getHIRValue hf hv]
    cases fwd v <;> simp
  have hterm : ∀ b, (f'.block b).terminal = (f.block b).terminal := fun b => by rw [hr.rest]
  have hcount : f'.blockCount = f.blockCount := by rw [hr.rest]
  constructor
  -- A slot of a load that is forwarded refers to the value that was stored.
  · rintro ⟨hslot, hterminal⟩
    refine ⟨fun a w hused ha => ?_, fun b hb v hv => ?_⟩
    · obtain ⟨r, hmem⟩ := List.exists_mem_of_ne_nil _ hused
      obtain ⟨hlt, href⟩ := f.mem_slotsOf.mp hmem
      refine (hfound w (hr.target a w ha)).mp
        (hslot r.inst (by rw [hr.count]; exact hlt) r.argIdx w ?_)
      rw [hr.ref hlt, href, Option.map_some, ha, Option.getD_some]
    · refine (hfound v (hf.mem_values.mpr (hf.terminal b v hv))).mp ?_
      exact hterminal b (by rw [hcount]; exact hb) v (by rw [hterm]; exact hv)
  -- A slot has been rewritten or not, and what it refers to is in the map in both cases.
  · rintro ⟨hslot, hterminal⟩
    refine ⟨fun u hu i v hv => ?_, fun b hb v hv => ?_⟩
    · rw [hr.count] at hu
      rw [hr.ref hu] at hv
      cases href : ((f.heap.inst u).args i).ref with
      | none =>
        rw [href] at hv
        cases hv
      | some a =>
        rw [href, Option.map_some, Option.some.injEq] at hv
        obtain ⟨halt, haval⟩ := hf.refs u hu i a href
        have hmem : HirUse.mk u i ∈ f.slotsOf a := f.mem_slotsOf.mpr ⟨hu, href⟩
        cases ha : fwd a with
        | none =>
          rw [ha, Option.getD_none] at hv
          subst hv
          exact (hfound a (hf.mem_values.mpr ⟨halt.trans hu, haval⟩)).mpr ha
        | some w =>
          rw [ha, Option.getD_some] at hv
          subst hv
          exact (hfound w (hr.target a w ha)).mpr (hslot a w (List.ne_nil_of_mem hmem) ha)
    · rw [hterm] at hv
      exact (hfound v (hf.mem_values.mpr (hf.terminal b v hv))).mpr
        (hterminal b (by rw [← hcount]; exact hb) v hv)

/-- A first pass gives what `forwarding` says. -/
theorem Valued.pass (hf : Valued f) (hblocks : f.blocks = (List.range f.blockCount).map some)
    (hok : localEliminationPass P f = .ok () f') : Rewritten f f.forwarding f' :=
  (Rewritten.refl f).pass hf hblocks hok

/-- Only loads that are `Forwarded` are forwarded. -/
theorem Valued.forwarded_of_forwarding (hf : Valued f) {x w : InstRef}
    (h : f.forwarding x = some w) : f.Forwarded x :=
  HirFunction.forwarded_iff.mpr (Forwarding.forwardable_of_fwd hf.scan_nodup h)

/-- What passes can have forwarded, the first of them on the function as it was built: what the
first one has, and other loads that are `Forwarded`, to values of their block. -/
structure HirFunction.Later (f : HirFunction) (fwd : InstRef → Option InstRef) : Prop where
  /-- What the first pass has forwarded. -/
  first : ∀ x w, f.forwarding x = some w → fwd x = some w
  /-- A load is forwarded to a value of its own block. -/
  atHome : Forwarding.AtHome f.home fwd
  /-- What is forwarded is `Forwarded` in the function as it was built. -/
  forwarded : ∀ x w, fwd x = some w → f.Forwarded x

/-- The first pass. -/
theorem Valued.later_forwarding (hf : Valued f) : f.Later f.forwarding where
  first _ _ h := h
  atHome := (Forwarding.AtHome.start (L := UInt16)).run f.scan
  forwarded _ _ h := hf.forwarded_of_forwarding h

/-- One more pass. -/
theorem HirFunction.Later.run {fwd : InstRef → Option InstRef} (h : f.Later fwd) (hf : Valued f) :
    f.Later (Forwarding.run f.act f.home (.start fwd) f.scan).fwd where
  first x w hx := Forwarding.run_fwd_of_some (h.first x w hx) f.scan
  atHome := Forwarding.AtHome.run (σ := .start fwd) h.atHome f.scan
  forwarded x w hx := by
    cases hfwd : fwd x with
    | some v => exact h.forwarded x v hfwd
    | none =>
      -- The load is forwarded to what its store stores, which has the block of the argument.
      obtain ⟨p, s, a, hreach, hst, hhome⟩ := Forwarding.exists_reaching hf.scan_nodup hfwd hx
      refine ⟨s, a, ⟨p, hreach⟩, ?_⟩
      rw [← hhome]
      rcases (Forwarding.stored_eq_some_iff.mp hst).2 with rfl | ha
      · rfl
      · exact (Forwarding.AtHome.run (σ := .start fwd) h.atHome p a w ha).symm

/-- What any number of passes leaves. -/
theorem Valued.passes {f₁ : HirFunction} (hf : Valued f)
    (hblocks : f.blocks = (List.range f.blockCount).map some)
    (hpass : localEliminationPass P f = .ok () f₁)
    (hlater : Relation.ReflTransGen (fun g g' => localEliminationPass P g = .ok () g') f₁ f') :
    ∃ fwd, Rewritten f fwd f' ∧ f.Later fwd := by
  induction hlater with
  | refl => exact ⟨_, hf.pass hblocks hpass, hf.later_forwarding⟩
  | tail _ hstep ih =>
    obtain ⟨fwd, hr, hfwd⟩ := ih
    exact ⟨_, hr.pass hf hblocks hstep, hfwd.run hf⟩

/-- What is forwarded where no load is crossed. -/
theorem Valued.forwarding_of_notCrossed (hf : Valued f) (hnot : f.NotCrossed) {x : InstRef}
    (hx : f.Forwarded x) :
    ∃ w, f.forwarding x = some w ∧ (f.slotsOf x ≠ [] → f.forwarding w = none) := by
  obtain ⟨w, hw, hlast⟩ := Forwarding.fwd_of_settled hf.scan_nodup hf.store_used
    (hf.settled_iff.mpr hnot) (HirFunction.forwarded_iff.mp hx)
  refine ⟨w, hw, fun hused => ?_⟩
  by_contra hne
  obtain ⟨v, hv⟩ := Option.ne_none_iff_exists'.mp hne
  exact hlast hused (HirFunction.forwarded_iff.mp (hf.forwarded_of_forwarding hv))

/-- Passes after the first one forward nothing more there. -/
theorem HirFunction.Later.eq_none {fwd : InstRef → Option InstRef} (h : f.Later fwd) (hf : Valued f)
    (hnot : f.NotCrossed) {w : InstRef} (hw : f.forwarding w = none) : fwd w = none := by
  by_contra hne
  obtain ⟨v, hv⟩ := Option.ne_none_iff_exists'.mp hne
  obtain ⟨v', hv', -⟩ := hf.forwarding_of_notCrossed hnot (h.forwarded w v hv)
  rw [hw] at hv'
  cases hv'

variable {begin_ : Location} {calls : List Call}

/-- The records of uses stay exact, through any number of passes, if no load with uses on record is
forwarded; and, where no load is crossed, only then. -/
theorem uses_exact_after_pass {f₁ : HirFunction} (h : TypedFinishes P begin_ calls f)
    (hcount : f.valueCount ≤ 2 ^ 16) (hpass : localEliminationPass P f = .ok () f₁)
    (hlater : Relation.ReflTransGen (fun g g' => localEliminationPass P g = .ok () g') f₁ f') :
    f.UsesExact ∧
      ((∀ x, f.Forwarded x → (f.hirValue x).uses = []) → f'.UsesExact) ∧
      (f.NotCrossed → f'.UsesExact → ∀ x, f.Forwarded x → (f.hirValue x).uses = []) := by
  obtain ⟨hf, hblocks⟩ := h.valued hcount
  obtain ⟨fwd, hr, hfwd⟩ := hf.passes hblocks hpass hlater
  have huses : ∀ x, f.Forwarded x → (f.hirValue x).uses = f.slotsOf x := by
    rintro x ⟨s, a, ⟨p, hreach⟩, -⟩
    exact hf.uses x (hf.reaching hreach).2.2.2.1
  refine ⟨fun v hv => .of_eq (hf.uses v hv), fun hunused => ?_, fun hnot hexact x hx => ?_⟩
  -- If the loads that are forwarded have no uses, nothing is rewritten.
  · refine hr.usesExact hf fun x w hx => ?_
    have hx' := hfwd.forwarded x w hx
    rw [← huses x hx', hunused x hx']
  -- A slot of such a load is rewritten, but no record gets the use.
  · rw [huses x hx]
    by_contra hused
    obtain ⟨w, hw, hlast⟩ := hf.forwarding_of_notCrossed hnot hx
    exact hused (hr.slotsOf_eq_nil hf hexact (hfwd.first x w hw)
      (hfwd.eq_none hf hnot (hlast hused)))

/-- A value is stored to a local and loaded again. -/
def storeLoad : List Call :=
  [.inst .loadImm [.imm], .inst .storeLocal [.local_ 0, .value 0], .inst .loadLocal [.local_ 0]]

/-- A load that nothing uses is forwarded, and the records stay exact through two passes. -/
theorem uses_exact_unused_load :
    ∃ f f₁ f₂, TypedFinishes .plain 0 storeLoad f ∧ localEliminationPass .plain f = .ok () f₁ ∧
      localEliminationPass .plain f₁ = .ok () f₂ ∧ 2 ∈ f.values.toList ∧ 2 ∉ f₁.values.toList ∧
      f₂.UsesExact := by
  obtain ⟨f, hfin, hcount, hload, hvalue, hpass⟩ := exists_of_any (o := finish .plain 0 storeLoad)
    (Q := fun f => f.valueCount ≤ 2 ^ 16 ∧
      (∀ x < f.heap.count, (f.heap.inst x).op = .loadLocal → (f.hirValue x).uses = []) ∧
      2 ∈ f.values.toList ∧ ((returned (localEliminationPass .plain f)).any fun f₁ =>
        2 ∉ f₁.values.toList ∧ (returned (localEliminationPass .plain f₁)).isSome = true) = true)
    (by decide +kernel)
  obtain ⟨f₁, hf₁, hout, hpass₁⟩ := exists_of_any hpass
  obtain ⟨f₂, hf₂⟩ := Option.isSome_iff_exists.mp hpass₁
  have hf := typedFinishes_of_finish hfin
  have hrun₁ := returned_eq_some_iff.mp hf₁
  have hrun₂ := returned_eq_some_iff.mp hf₂
  refine ⟨f, f₁, f₂, hf, hrun₁, hrun₂, hvalue, hout,
    (uses_exact_after_pass hf hcount hrun₁ (.single hrun₂)).2.1 fun x hx => ?_⟩
  obtain ⟨hlt, hop⟩ := (hf.valued hcount).1.load_of_forwarded hx
  exact hload x hlt hop

/-- A store, a load and a use of the load in one block: the use is rewritten to the stored value,
which has no record of it. -/
theorem rewritten_use_not_recorded :
    ¬ ∀ (P : Platform) (begin_ : Location) (calls : List Call) (f f' : HirFunction),
      TypedFinishes P begin_ calls f → f.UsesExact → localEliminationPass P f = .ok () f' →
        f'.UsesExact := by
  intro h
  obtain ⟨f, hfin, hcount, hpass⟩ := exists_of_any
    (o := finish .plain 0 (storeLoad ++ [.inst .pushRSB [.value 2]]))
    (Q := fun f => f.valueCount ≤ 2 ^ 16 ∧ ((returned (localEliminationPass .plain f)).any fun f' =>
      0 ∈ f'.values.toList ∧ (f'.hirValue 0).uses.length ≠ (f'.slotsOf 0).length) = true)
    (by decide +kernel)
  obtain ⟨f', hf', hmem, hlen⟩ := exists_of_any hpass
  have hf := typedFinishes_of_finish hfin
  have hexact : f.UsesExact := fun v hv => .of_eq ((hf.valued hcount).1.uses v hv)
  exact hlen (h _ _ _ f f' hf hexact (returned_eq_some_iff.mp hf') 0 hmem).length_eq

/-- Every value that is referred to is found after any number of passes, exactly if no terminal
refers to a load that is forwarded, and no load is crossed. -/
theorem refs_found_after_passes_iff {f₁ : HirFunction} (h : TypedFinishes P begin_ calls f)
    (hcount : f.valueCount ≤ 2 ^ 16) (hpass : localEliminationPass P f = .ok () f₁) :
    (∀ f', Relation.ReflTransGen (fun g g' => localEliminationPass P g = .ok () g') f f' →
        f'.RefsFound) ↔
      (∀ b < f.blockCount, ∀ x, (f.block b).terminal.ref = some x → ¬ f.Forwarded x) ∧
        f.NotCrossed := by
  obtain ⟨hf, hblocks⟩ := h.valued hcount
  constructor
  · intro hall
    have hr := hf.pass hblocks hpass
    obtain ⟨hslot, hterm⟩ := (hr.refsFound_iff hf).mp (hall f₁ (.single hpass))
    -- A load that should have been forwarded was: otherwise a store refers to a value that is lost.
    have hforward : ∀ x, f.Forwarded x → f.forwarding x ≠ none := by
      intro x hx hnone
      obtain ⟨s, hs, l, a, w, hact, ha, hw⟩ :=
        Forwarding.exists_broken hf.scan_nodup (HirFunction.forwarded_iff.mp hx) hnone
      exact hw (hslot a w (hf.store_used s hs l a hact) ha)
    refine ⟨fun b hb x hx hfx => hforward x hfx (hterm b hb x hx), ?_⟩
    rintro x s a hused ⟨p, hreach⟩ hhome hfa
    by_contra hs
    rw [hf.store_mem_iff hreach hhome] at hs
    have hx := Forwarding.fwd_of_reaching_of_notMem hf.scan_nodup hreach hhome hs
    rw [hf.uses x (hf.reaching hreach).2.2.2.1] at hused
    exact hforward a hfa (hslot x a hused hx)
  · rintro ⟨hterm, hnot⟩ f' hruns
    rcases Relation.ReflTransGen.cases_head hruns with rfl | ⟨g, hfirst, hlater⟩
    · exact ((Rewritten.refl f).refsFound_iff hf).mpr ⟨fun _ _ _ _ => rfl, fun _ _ _ _ => rfl⟩
    obtain ⟨fwd, hr, hfwd⟩ := hf.passes hblocks hfirst hlater
    refine (hr.refsFound_iff hf).mpr ⟨fun a w hused ha => ?_, fun b hb v hv => ?_⟩
    · obtain ⟨w', hw', hlast⟩ := hf.forwarding_of_notCrossed hnot (hfwd.forwarded a w ha)
      rw [hfwd.first a w' hw'] at ha
      cases ha
      exact hfwd.eq_none hf hnot (hlast hused)
    · by_contra hne
      obtain ⟨w, hw⟩ := Option.ne_none_iff_exists'.mp hne
      exact hterm b hb v hv (hfwd.forwarded v w hw)

/-- A load that is used is forwarded within its block, and two passes later every value is found. -/
theorem refs_found_used_load :
    ∃ f f₁ f₂, TypedFinishes .plain 0 (storeLoad ++ [.inst .pushRSB [.value 2]]) f ∧
      localEliminationPass .plain f = .ok () f₁ ∧ localEliminationPass .plain f₁ = .ok () f₂ ∧
      f₂.RefsFound := by
  obtain ⟨f, hfin, hcount, hterm, hblock, hpass⟩ := exists_of_any
    (o := finish .plain 0 (storeLoad ++ [.inst .pushRSB [.value 2]]))
    (Q := fun f => f.valueCount ≤ 2 ^ 16 ∧ (∀ b < f.blockCount, (f.block b).terminal.ref = none) ∧
      (∀ x < f.heap.count, ∀ s < f.heap.count, s ∈ (f.block (f.home x)).insts) ∧
      ((returned (localEliminationPass .plain f)).any fun f₁ =>
        (returned (localEliminationPass .plain f₁)).isSome = true) = true) (by decide +kernel)
  obtain ⟨f₁, hf₁, hpass₁⟩ := exists_of_any hpass
  obtain ⟨f₂, hf₂⟩ := Option.isSome_iff_exists.mp hpass₁
  have hf := typedFinishes_of_finish hfin
  have hrun₁ := returned_eq_some_iff.mp hf₁
  have hrun₂ := returned_eq_some_iff.mp hf₂
  have hruns : Relation.ReflTransGen (fun g g' => localEliminationPass .plain g = .ok () g') f f₂ :=
    .tail (.single hrun₁) hrun₂
  refine ⟨f, f₁, f₂, hf, hrun₁, hrun₂,
    (refs_found_after_passes_iff hf hcount hrun₁).mpr ⟨?_, ?_⟩ f₂ hruns⟩
  · intro b hb x hx
    rw [hterm b hb] at hx
    cases hx
  · rintro x s a - ⟨p, hr⟩ - -
    have hplaces := (hf.valued hcount).1.reaching hr
    exact hblock x hplaces.2.1 s hplaces.1

/-- A load that an `If` tests is forwarded, as in the repository's own test: its value is taken out
of the map while the terminal still refers to it. -/
theorem condition_value_destroyed :
    ¬ ∀ (P : Platform) (begin_ : Location) (calls : List Call) (f f' : HirFunction),
      TypedFinishes P begin_ calls f → f.RefsFound → localEliminationPass P f = .ok () f' →
        f'.RefsFound := by
  intro h
  -- The condition of the terminal is the load.
  obtain ⟨f, hfin, hcount, hpass⟩ := exists_of_any
    (o := finish .plain 0 (storeLoad ++ [.if_ 2 (.linkBlock 1) (.linkBlock 2)]))
    (Q := fun f => f.valueCount ≤ 2 ^ 16 ∧ ((returned (localEliminationPass .plain f)).any fun f' =>
      0 < f'.blockCount ∧ (f'.block 0).terminal.ref = some 2 ∧ f'.getHIRValue 2 = none) = true)
    (by decide +kernel)
  obtain ⟨f', hf', hblock, hterm, hlost⟩ := exists_of_any hpass
  have hf := typedFinishes_of_finish hfin
  have hbefore : f.RefsFound := ((Rewritten.refl f).refsFound_iff (hf.valued hcount).1).mpr
    ⟨fun _ _ _ _ => rfl, fun _ _ _ _ => rfl⟩
  have hfound :=
    (h _ _ _ f f' hf hbefore (returned_eq_some_iff.mp hf')).terminal 0 hblock 2 hterm
  rw [hlost] at hfound
  cases hfound

end Results

end SwiftRuntime.Ir
