import SwiftRuntime.Ir.LoadPaths

/-!
# Executing a function before and after `LocalEliminationPass`

An execution goes through the blocks of a function along their edges and executes the instructions
of each in order. `LoadLocal` and `StoreLocal` read and write the locals. What the other
instructions do is left open: it may be anything that depends on the values their slots refer to and
on the state of the guest, as it may be for the terminals, which say where the execution goes on
(`Meaning`).

A slot that passes have rewritten refers to another value than before. Where the stores of the
replaced loads are in the blocks of their loads, and values are defined before they are used, the
two values are the same whenever the slot is read (`env_forwarded`): the load has been executed
since the value it is replaced by was computed last, on the same way through their block. So the
function does the same before and after any number of passes, whatever its instructions mean
(`elimination_preserves_runs`).
-/

namespace SwiftRuntime.Ir

/-! ## Executions -/

variable {V W : Type*}

/-- What instructions and terminals mean, apart from the loads and stores of locals. -/
structure Meaning (V W : Type*) where
  /-- The value of an instruction, from what is in its slots, and the state of the guest after it.
  The number of the instruction stands for its immediates, which the pass does not touch. -/
  inst : InstRef → OpCode → (Fin 4 → Arg × Option V) → W → V × W
  /-- The block that a terminal goes to, from the value that it refers to. -/
  next : Terminal → Option V → W → Option BlockRef

/-- The state of an execution: the values of the instructions executed last, the locals and the
guest. -/
structure Machine (V W : Type*) where
  /-- The values of the instructions. -/
  env : InstRef → V
  /-- The values of the locals. -/
  locals : UInt16 → V
  /-- The state of the guest. -/
  guest : W

/-- What is in a slot: its kind, and the value that it refers to. -/
def Arg.eval (env : InstRef → V) (a : Arg) : Arg × Option V :=
  (a.redirect fun _ => 0, a.ref.map env)

namespace HirFunction

variable (f : HirFunction) (sem : Meaning V W)

/-- An instruction is executed. -/
def execInst (σ : Machine V W) (u : InstRef) : Machine V W :=
  match f.act u with
  | .load l => { σ with env := Function.update σ.env u (σ.locals l) }
  | .store l v => { σ with locals := Function.update σ.locals l (σ.env v) }
  | .other =>
    let r := sem.inst u (f.heap.inst u).op (fun i => ((f.heap.inst u).args i).eval σ.env) σ.guest
    { σ with env := Function.update σ.env u r.1, guest := r.2 }

/-- Instructions are executed one after the other. -/
def execTrace (trace : List InstRef) (σ : Machine V W) : Machine V W :=
  trace.foldl (f.execInst sem) σ

/-- The execution goes through the blocks of a path from the entry block: the terminal of each goes
to the next one. -/
def Runs (σ : Machine V W) (path : List BlockRef) : Prop :=
  f.Path path ∧ ∀ before b c after, path = before ++ b :: c :: after →
    let τ := f.execTrace sem (f.trace (before ++ [b])) σ
    sem.next (f.block b).terminal ((f.block b).terminal.ref.map τ.env) τ.guest = some c

end HirFunction

section Execution

variable {f f' : HirFunction} {sem : Meaning V W} {σ : Machine V W} {u v : InstRef} {l : UInt16}
  {trace : List InstRef}

/-- A trace that is executed in two parts. -/
theorem HirFunction.execTrace_append (trace' : List InstRef) :
    f.execTrace sem (trace ++ trace') σ = f.execTrace sem trace' (f.execTrace sem trace σ) :=
  List.foldl_append

/-- An instruction has no effect on the values of the others. -/
theorem HirFunction.env_execInst (hv : v ≠ u) : (f.execInst sem σ u).env v = σ.env v := by
  unfold execInst
  split
  · exact Function.update_of_ne hv ..
  · rfl
  · exact Function.update_of_ne hv ..

/-- Only a store has an effect on a local. -/
theorem HirFunction.locals_execInst (hu : ∀ c, f.act u ≠ .store l c) :
    (f.execInst sem σ u).locals l = σ.locals l := by
  unfold execInst
  split
  · rfl
  · rename_i l' c hact
    refine Function.update_of_ne ?_ ..
    rintro rfl
    exact hu c hact
  · rfl

/-- A load has the value of its local. -/
theorem HirFunction.env_execInst_load (hu : f.act u = .load l) :
    (f.execInst sem σ u).env u = σ.locals l := by
  unfold execInst
  rw [hu]
  exact Function.update_self ..

/-- A store gives its local the value. -/
theorem HirFunction.locals_execInst_store (hu : f.act u = .store l v) :
    (f.execInst sem σ u).locals l = σ.env v := by
  unfold execInst
  rw [hu]
  exact Function.update_self ..

/-- A store has no effect on the values. -/
theorem HirFunction.env_execInst_store (hu : f.act u = .store l v) :
    (f.execInst sem σ u).env = σ.env := by
  unfold execInst
  rw [hu]

/-- A trace without an instruction leaves its value alone. -/
theorem HirFunction.env_execTrace (hv : v ∉ trace) : (f.execTrace sem trace σ).env v = σ.env v := by
  induction trace generalizing σ with
  | nil => rfl
  | cons u trace ih =>
    rw [List.mem_cons, not_or] at hv
    exact (ih hv.2).trans (f.env_execInst hv.1)

/-- A trace without a store to a local leaves the local alone. -/
theorem HirFunction.locals_execTrace (htrace : ∀ u ∈ trace, ∀ c, f.act u ≠ .store l c) :
    (f.execTrace sem trace σ).locals l = σ.locals l := by
  induction trace generalizing σ with
  | nil => rfl
  | cons u trace ih =>
    exact (ih fun w hw => htrace w (List.mem_cons_of_mem _ hw)).trans
      (f.locals_execInst (htrace u List.mem_cons_self))

/-- A local that holds the current instance of a value has that value. -/
theorem HirFunction.HoldsCurrent.locals_eq (h : f.HoldsCurrent trace l v) :
    (f.execTrace sem trace σ).locals l = (f.execTrace sem trace σ).env v := by
  obtain ⟨before, s, after, rfl, hs, hafter, -, hv⟩ := h
  rw [f.execTrace_append]
  generalize f.execTrace sem before σ = τ
  change (f.execTrace sem after (f.execInst sem τ s)).locals l =
    (f.execTrace sem after (f.execInst sem τ s)).env v
  rw [f.locals_execTrace hafter, f.env_execTrace hv, f.locals_execInst_store hs,
    f.env_execInst_store hs]

end Execution

section Pass

variable {f f' : HirFunction} {sem : Meaning V W} {σ : Machine V W} {path : List BlockRef}
  {b : BlockRef} {before after : List InstRef} {u x v : InstRef} {fwd : InstRef → Option InstRef}

/-- Instructions that have been executed are in blocks of the path. -/
theorem HirFunction.mem_path_of_mem_trace (hinsts : (f.block b).insts = before ++ after)
    (hx : x ∈ f.trace path ++ before) : ∃ c ∈ path ++ [b], x ∈ (f.block c).insts := by
  rcases List.mem_append.mp hx with hx | hx
  · obtain ⟨c, hc, hxc⟩ := List.mem_flatMap.mp hx
    exact ⟨c, List.mem_append_left _ hc, hxc⟩
  · exact ⟨b, by simp, by rw [hinsts]; simp [hx]⟩

/-- In a list with an element there is a last occurrence of it. -/
theorem exists_last_of_mem {α : Type*} {xs : List α} {a : α} (h : a ∈ xs) :
    ∃ before after, xs = before ++ a :: after ∧ a ∉ after := by
  obtain ⟨as, bs, heq, has⟩ := List.eq_append_cons_of_mem (List.mem_reverse.mpr h)
  refine ⟨bs.reverse, as.reverse, ?_, by simpa using has⟩
  rw [← List.reverse_reverse xs, heq]
  simp

/-- When an instruction is executed that comes after another one, and the other one has been
executed on the path, nothing that stands before that one in its block has been executed since. -/
theorem Valued.exists_since (hf : Valued f) (hpath : f.Path (path ++ [b]))
    (hinsts : (f.block b).insts = before ++ u :: after) (hx : x ∈ f.trace path ++ before)
    (hxu : x < u) {c : BlockRef} (hxc : x ∈ (f.block c).insts) :
    ∃ path₁ before₁ after₁ since, f.Path (path₁ ++ [c]) ∧
      (f.block c).insts = before₁ ++ x :: after₁ ∧
      f.trace path ++ before = (f.trace path₁ ++ before₁) ++ x :: since ∧
      ∀ v ∈ (f.block c).insts, v ≤ x → v ∉ since := by
  by_cases hcb : c = b
  · -- The block of the instruction itself.
    subst hcb
    obtain ⟨before₁, mid, rfl⟩ := List.append_of_mem (mem_left_of_lt (hf.sorted c) hinsts hxc hxu)
    refine ⟨path, before₁, mid ++ u :: after, mid, hpath,
      by simp [hinsts], by simp, fun v hv hvx hmid => ?_⟩
    have hsorted := hf.sorted c
    rw [hinsts, List.append_assoc, List.cons_append, List.pairwise_append,
      List.pairwise_cons] at hsorted
    exact absurd (hsorted.2.1.1 v (by simp [hmid])) (not_lt.mpr hvx)
  · -- An earlier block: take its last occurrence on the path.
    obtain ⟨d, hd, hxd⟩ := f.mem_path_of_mem_trace hinsts hx
    obtain rfl := hf.disjoint _ _ x hxd hxc
    obtain ⟨path₁, path₂, rfl, hlast⟩ :=
      exists_last_of_mem ((List.mem_append.mp hd).resolve_right (by simpa using hcb))
    obtain ⟨before₁, after₁, hd₁⟩ := List.append_of_mem hxd
    refine ⟨path₁, before₁, after₁, after₁ ++ f.trace path₂ ++ before, ?_, hd₁, ?_,
      fun v hv hvx hsince => ?_⟩
    · rw [List.append_assoc, List.cons_append] at hpath
      exact hpath.cut
    · simp [HirFunction.trace, hd₁]
    · rcases List.mem_append.mp hsince with hmem | hmem
      · rcases List.mem_append.mp hmem with hmem | hmem
        · have hsorted := hf.sorted d
          rw [hd₁, List.pairwise_append, List.pairwise_cons] at hsorted
          exact absurd (hsorted.2.1.1 v hmem) (not_lt.mpr hvx)
        · obtain ⟨e, he, hve⟩ := List.mem_flatMap.mp hmem
          exact hlast (hf.disjoint _ _ v hv hve ▸ he)
      · exact hcb (hf.disjoint _ _ v hv (by rw [hinsts]; simp [hmem]))

/-- What the pass leaves of the loads and stores of locals. -/
theorem Rewritten.act_eq (hr : Rewritten f fwd f') (hu : u < f.heap.count) :
    f'.act u = match f.act u with
      | .store l v => .store l ((fwd v).getD v)
      | a => a := by
  simp only [HirFunction.act, hr.op, hr.args u hu]
  cases (f.heap.inst u).op <;> try rfl
  -- A load of a local, whose argument is no value.
  · cases (f.heap.inst u).args 0 with
    | lambda l => cases l <;> rfl
    | _ => rfl
  -- A store, whose second argument is one.
  · cases (f.heap.inst u).args 0 with
    | local_ id =>
      cases (f.heap.inst u).args 1 with
      | lambda l => cases l <;> rfl
      | _ => rfl
    | lambda l => cases l <;> rfl
    | _ => rfl

/-- A use of a forwarded load is rewritten. -/
theorem Rewritten.rewrites_of_forwarding (hr : Rewritten f fwd f') (hu : u < f.heap.count)
    {i : Fin 4} (href : ((f.heap.inst u).args i).ref = some x) (hfwd : fwd x = some v) :
    Rewrites f f' x v := by
  refine ⟨fun hx => ?_, ⟨u, i⟩, f.mem_slotsOf.mpr ⟨hu, href⟩, ?_⟩
  · rw [hr.values, List.mem_filter, hfwd] at hx
    cases hx.2
  · rw [hr.ref hu, href, Option.map_some, hfwd, Option.getD_some]

/-- Whenever a slot is read, the value that it has been rewritten to is the one that it referred
to. -/
theorem Rewritten.env_forwarded (hr : Rewritten f fwd f') (hlater : f.Later fwd) (hf : Valued f)
    (hin : f.StoredInBlock) (hdom : f.DefsDominate) (hpath : f.Path (path ++ [b]))
    (hinsts : (f.block b).insts = before ++ u :: after) {i : Fin 4}
    (href : ((f.heap.inst u).args i).ref = some x) :
    (f'.execTrace sem (f.trace path ++ before) σ).env ((fwd x).getD x) =
      (f'.execTrace sem (f.trace path ++ before) σ).env x := by
  cases hfwd : fwd x with
  | none => rfl
  | some v =>
    have hub : u ∈ (f.block b).insts := by rw [hinsts]; simp
    have hu : u < f.heap.count := (hf.mem u).mpr ⟨b, hub⟩
    obtain ⟨hxu, hvalue⟩ := hf.refs u hu i x href
    have hxv : x ∈ f.values.toList := hf.mem_values.mpr ⟨hxu.trans hu, hvalue⟩
    have hxc : x ∈ (f.block (f.home x)).insts := hf.home x hxv
    have hxt := hdom path b before u after hpath hinsts i x href
    obtain ⟨path₁, before₁, after₁, since, hpath₁, hinsts₁, htrace, hsince⟩ :=
      hf.exists_since hpath hinsts hxt hxu hxc
    have hslot : ⟨u, i⟩ ∈ f.slotsOf x := f.mem_slotsOf.mpr ⟨hu, href⟩
    obtain ⟨p, s, a, hreach, hvx, hs, -, hvs, -⟩ := hf.forwarding_in_block hin
      ((hlater.eq_forwarding hf hin ⟨path₁, hpath₁⟩).symm.trans hfwd) (List.ne_nil_of_mem hslot)
      ⟨path₁, hpath₁⟩
    have ⟨l, _, _, _, hact, _⟩ := hreach
    have hlt : v < x := hvs.trans (hf.reaching_in_block hreach hxc hs hact).1
    -- When the load was executed last, its local held the value.
    have hholds := hr.preservesLoads hlater hf hin path₁ _ before₁ x after₁ l v hpath₁ hinsts₁ hact
      (hr.rewrites_of_forwarding hu href hfwd)
    have hact' : f'.act x = .load l := by rw [hr.act_eq (hxu.trans hu), hact]
    rw [htrace, f'.execTrace_append, Option.getD_some]
    generalize hτ : f'.execTrace sem (f.trace path₁ ++ before₁) σ = τ
    have hlocal : τ.locals l = τ.env v := by
      rw [← hτ]
      exact hholds.locals_eq
    change (f'.execTrace sem since (f'.execInst sem τ x)).env v =
      (f'.execTrace sem since (f'.execInst sem τ x)).env x
    rw [f'.env_execTrace (hsince v (hvx ▸ hf.home v (hr.target x v hfwd)) hlt.le),
      f'.env_execTrace (hsince x hxc le_rfl), f'.env_execInst hlt.ne, f'.env_execInst_load hact',
      hlocal]

/-- What is in a slot does not change if it is made to refer to a value that is the same. -/
theorem Arg.eval_redirect {env : InstRef → V} {g : InstRef → InstRef} {a : Arg}
    (h : ∀ x, a.ref = some x → env (g x) = env x) : (a.redirect g).eval env = a.eval env := by
  cases a with
  | value x => simp [eval, redirect, ref, h x rfl]
  | lambda l =>
    cases l with
    | value x => simp [eval, redirect, ref, h x rfl]
    | _ => rfl
  | _ => rfl

/-- So an instruction does the same after the passes. -/
theorem Rewritten.execInst_eq (hr : Rewritten f fwd f') (hlater : f.Later fwd) (hf : Valued f)
    (hin : f.StoredInBlock) (hdom : f.DefsDominate) (hpath : f.Path (path ++ [b]))
    (hinsts : (f.block b).insts = before ++ u :: after) {τ : Machine V W}
    (hτ : τ = f'.execTrace sem (f.trace path ++ before) σ) :
    f.execInst sem τ u = f'.execInst sem τ u := by
  have hu : u < f.heap.count := (hf.mem u).mpr ⟨b, by rw [hinsts]; simp⟩
  -- A value that has been put in the place of a load is what the load has read.
  have henv : ∀ i x, ((f.heap.inst u).args i).ref = some x → τ.env ((fwd x).getD x) = τ.env x := by
    intro i x href
    rw [hτ]
    exact hr.env_forwarded hlater hf hin hdom hpath hinsts href
  have hargs : ∀ i, ((f'.heap.inst u).args i).eval τ.env = ((f.heap.inst u).args i).eval τ.env := by
    intro i
    rw [hr.args u hu]
    exact Arg.eval_redirect (henv i)
  unfold HirFunction.execInst
  simp only [hr.act_eq hu, hr.op, hargs]
  cases hact : f.act u with
  | load l => rfl
  | store l a =>
    obtain ⟨-, -, ha⟩ := HirFunction.args_of_act_store hact
    simp only [henv 1 a (by rw [ha]; rfl)]
  | other => rfl

/-- Up to every instruction of a path the executions before and after the passes are in the same
state. -/
theorem Rewritten.execTrace_eq (hr : Rewritten f fwd f') (hlater : f.Later fwd) (hf : Valued f)
    (hin : f.StoredInBlock) (hdom : f.DefsDominate) (sem : Meaning V W) (σ : Machine V W)
    (hpath : f.Path (path ++ [b])) (hinsts : (f.block b).insts = before ++ after) :
    f.execTrace sem (f.trace path ++ before) σ = f'.execTrace sem (f.trace path ++ before) σ := by
  -- From the start of a block to each of its instructions.
  have hblock : ∀ {path : List BlockRef} {b : BlockRef}, f.Path (path ++ [b]) →
      f.execTrace sem (f.trace path) σ = f'.execTrace sem (f.trace path) σ →
      ∀ {before after : List InstRef}, (f.block b).insts = before ++ after →
        f.execTrace sem (f.trace path ++ before) σ =
          f'.execTrace sem (f.trace path ++ before) σ := by
    intro path b hpath hstart before
    induction before using List.reverseRecOn with
    | nil => simpa using hstart
    | append_singleton before u ih =>
      intro after hinsts
      rw [List.append_assoc, List.singleton_append] at hinsts
      have hstep := ih hinsts
      rw [← List.append_assoc, f.execTrace_append, f'.execTrace_append, ← hstep]
      exact hr.execInst_eq hlater hf hin hdom hpath hinsts hstep
  -- From the start of the path to the start of each block.
  refine hblock hpath ?_ hinsts
  refine FlowGraph.IsPath.induction (motive := fun path _ =>
    f.execTrace sem (f.trace path) σ = f'.execTrace sem (f.trace path) σ) rfl ?_ hpath
  intro path c _ hc _ ih
  have hend := hblock hc ih (List.append_nil _).symm
  simpa [HirFunction.trace] using hend

/-- At the end of every path the executions are in the same state. -/
theorem Rewritten.execPath_eq (hr : Rewritten f fwd f') (hlater : f.Later fwd) (hf : Valued f)
    (hin : f.StoredInBlock) (hdom : f.DefsDominate) (sem : Meaning V W) (σ : Machine V W)
    (hpath : f.Path path) :
    f.execTrace sem (f.trace path) σ = f'.execTrace sem (f.trace path) σ := by
  rcases List.eq_nil_or_concat' path with rfl | ⟨path, b, rfl⟩
  · rfl
  · have hend := hr.execTrace_eq hlater hf hin hdom sem σ hpath (List.append_nil _).symm
    simpa [HirFunction.trace] using hend

variable {P : Platform} {begin_ : Location} {calls : List Call}

/-- `LocalEliminationPass` preserves executions: where values are defined before they are used and
the stores of the loads that the pass replaces are in the blocks of their loads, a built function of
at most `2 ^ 16` values takes the same ways through its blocks before and after any number of
passes, whatever its instructions and terminals mean and in whatever state it starts, and on each of
them it ends with the same values, locals and guest. -/
theorem elimination_preserves_runs {f₁ : HirFunction} (h : TypedFinishes P begin_ calls f)
    (hcount : f.valueCount ≤ 2 ^ 16) (hpass : localEliminationPass P f = .ok () f₁)
    (hlater : Relation.ReflTransGen (fun g g' => localEliminationPass P g = .ok () g') f₁ f')
    (hin : f.StoredInBlock) (hdom : f.DefsDominate) (sem : Meaning V W) (σ : Machine V W)
    (path : List BlockRef) :
    (f.Runs sem σ path ↔ f'.Runs sem σ path) ∧
      (f.Path path → f.execTrace sem (f.trace path) σ = f'.execTrace sem (f'.trace path) σ) := by
  obtain ⟨hf, hblocks⟩ := h.valued hcount
  obtain ⟨fwd, hr, hfwd⟩ := hf.passes hblocks hpass hlater
  -- The passes leave the blocks as they are, and so the paths and what is executed on them.
  have hblock : f'.block = f.block := by
    have hrest := congrArg HirFunction.block hr.rest
    exact hrest
  have htrace : ∀ path, f'.trace path = f.trace path := fun path => by
    unfold HirFunction.trace
    rw [hblock]
  have hPath : f'.Path = f.Path := by
    unfold HirFunction.Path HirFunction.Succ
    rw [hblock]
  have hend : ∀ path, f.Path path →
      f.execTrace sem (f.trace path) σ = f'.execTrace sem (f.trace path) σ :=
    fun path => hr.execPath_eq hfwd hf hin hdom sem σ
  refine ⟨?_, fun hpath => by rw [htrace, hend path hpath]⟩
  unfold HirFunction.Runs
  rw [hPath]
  refine and_congr_right fun hpath => forall_congr' fun before => forall_congr' fun b =>
    forall_congr' fun c => forall_congr' fun after => forall_congr' fun heq => ?_
  have hbefore : f.Path (before ++ [b]) := by
    rw [heq] at hpath
    exact hpath.cut
  rw [htrace, hend _ hbefore, hblock]

omit V W in
/-- In a function with one block every value is defined before it is used. -/
theorem Valued.defsDominate_of_one_block (hf : Valued f)
    (hone : ∀ u < f.heap.count, u ∈ (f.block b).insts) :
    f.DefsDominate := by
  intro path c before u after _ hinsts i v hv
  have huc : u ∈ (f.block c).insts := by rw [hinsts]; simp
  have hu : u < f.heap.count := (hf.mem u).mpr ⟨c, huc⟩
  obtain rfl := hf.disjoint _ _ u (hone u hu) huc
  obtain ⟨hvu, -⟩ := hf.refs u hu i v hv
  exact List.mem_append_right _ (mem_left_of_lt (hf.sorted b) hinsts (hone v (hvu.trans hu)) hvu)

/-- A store, a load and a use of the load in one block, and two passes. -/
theorem elimination_preserves_one_block :
    ∃ f f₁ f₂, TypedFinishes .plain 0 (storeLoad ++ [.inst .pushRSB [.value 2]]) f ∧
      localEliminationPass .plain f = .ok () f₁ ∧ localEliminationPass .plain f₁ = .ok () f₂ ∧
      Rewrites f f₁ 2 0 ∧ f.Path [0] ∧
      ∀ (sem : Meaning ℕ ℕ) σ, (f.Runs sem σ [0] ↔ f₂.Runs sem σ [0]) ∧
        f.execTrace sem (f.trace [0]) σ = f₂.execTrace sem (f₂.trace [0]) σ := by
  obtain ⟨f, hfin, hcount, hone, hpass⟩ := exists_of_any
    (o := finish .plain 0 (storeLoad ++ [.inst .pushRSB [.value 2]]))
    (Q := fun f => f.valueCount ≤ 2 ^ 16 ∧ (∀ u < f.heap.count, u ∈ (f.block 0).insts) ∧
      ((returned (localEliminationPass .plain f)).any fun f₁ => (2 ∉ f₁.values.toList ∧
        ∃ r ∈ f.slotsOf 2, ((f₁.heap.inst r.inst).args r.argIdx).ref = some 0) ∧
        (returned (localEliminationPass .plain f₁)).isSome = true) = true)
    (by decide +kernel)
  obtain ⟨f₁, hf₁, hrw, hpass₁⟩ := exists_of_any hpass
  obtain ⟨f₂, hf₂⟩ := Option.isSome_iff_exists.mp hpass₁
  have hbuilt := typedFinishes_of_finish hfin
  have hf := (hbuilt.valued hcount).1
  have hrun₁ := returned_eq_some_iff.mp hf₁
  have hrun₂ := returned_eq_some_iff.mp hf₂
  -- All instructions are in the one block.
  have hin : f.StoredInBlock := by
    rintro x s a - - ⟨p, hr⟩ -
    obtain ⟨hs, hx, -, hxv, -⟩ := hf.reaching hr
    rw [hf.home_eq (hone x hx) hxv]
    exact hone s hs
  have hpath : f.Path [0] := FlowGraph.isPath_singleton.mpr rfl
  refine ⟨f, f₁, f₂, hbuilt, hrun₁, hrun₂, hrw, hpath, fun sem σ => ?_⟩
  have hsame := elimination_preserves_runs hbuilt hcount hrun₁ (.single hrun₂) hin
    (hf.defsDominate_of_one_block hone) sem σ [0]
  exact ⟨hsame.1, hsame.2 hpath⟩

end Pass

end SwiftRuntime.Ir
