import SwiftRuntime.Ir.Signatures
import SwiftRuntime.Ir.Builder

/-!
# Rejected calls

A check that fails throws, and nothing undoes what was done before it. An instruction has its
arguments before `Validate` looks at them, so a rejected one has already been counted as a user of
its values and, if it is a flag getter, put at the end of their chains (`Attached`). `If` and
`Switch` end the current block before they look at their branches, and `Switch` looks at a branch
only when the branches before it have their blocks and edges.

The function itself keeps its blocks, values and ids when an instruction is rejected.
-/

namespace SwiftRuntime.Ir

/-! ## Arguments that are attached -/

/-- From `h` to `h'` the instruction `u` has come to use the values `vs`. The other instructions
change in their use counts, and in their links where a flag getter is put at the end of a chain. -/
structure Attached (u : InstRef) (vs : List InstRef) (h h' : Heap) : Prop where
  /-- No instruction is created. -/
  count : h'.count = h.count
  /-- The operation of `u` stays. -/
  op : (h'.inst u).op = (h.inst u).op
  /-- The other instructions. -/
  inst : ∀ r, r ≠ u → h'.inst r = { h.inst r with
    numUse := (h.inst r).numUse + UInt8.ofNat (vs.count r)
    nextPseudo := (h'.inst r).nextPseudo }
  /-- Their links. -/
  link : ∀ r, r ≠ u → (h'.inst r).nextPseudo ≠ (h.inst r).nextPseudo →
    vs ≠ [] ∧ (h.inst u).op.isPseudoOperation = true ∧ (h.inst r).nextPseudo = none ∧
      (h'.inst r).nextPseudo = some u

section Attached

variable {P : Platform} {u v : InstRef} {vs ws : List InstRef} {h h' h'' : Heap}

/-- What is attached in two steps. -/
theorem Attached.trans (h1 : Attached u vs h h') (h2 : Attached u ws h' h'') :
    Attached u (vs ++ ws) h h'' where
  count := h2.count.trans h1.count
  op := h2.op.trans h1.op
  inst r hr := by
    rw [h2.inst r hr, h1.inst r hr, List.count_append, UInt8.ofNat_add, UInt8.add_assoc]
  link r hr hne := by
    by_cases hsame : (h''.inst r).nextPseudo = (h'.inst r).nextPseudo
    · rw [hsame] at hne ⊢
      obtain ⟨hvs, hrest⟩ := h1.link r hr hne
      exact ⟨fun hnil => hvs (List.append_eq_nil_iff.mp hnil).1, hrest⟩
    · obtain ⟨hws, hop, hnone, hsome⟩ := h2.link r hr hsame
      refine ⟨fun hnil => hws (List.append_eq_nil_iff.mp hnil).2, h1.op ▸ hop, ?_, hsome⟩
      -- A link that was set in the first part would not be empty now.
      by_contra hold
      have hmoved : (h'.inst r).nextPseudo ≠ (h.inst r).nextPseudo := by
        rw [hnone]
        exact Ne.symm hold
      rw [(h1.link r hr hmoved).2.2.2] at hnone
      cases hnone

/-- Nothing is attached. -/
theorem Attached.refl (h : Heap) : Attached u [] h h :=
  ⟨rfl, rfl, fun r _ => by simp, fun r _ hne => absurd rfl hne⟩

/-- A change to `u` itself. -/
theorem attached_update {k : Inst → Inst} (hop : ∀ i, (k i).op = i.op) :
    Attached u [] h (h.update u k) where
  count := rfl
  op := by simp [Heap.update, hop]
  inst r hr := by simp [Heap.update, hr]
  link r hr hne := absurd (by simp [Heap.update, hr]) hne

/-- A flag getter is put at the end of a chain. -/
theorem Attached.linked (h1 : Attached u vs h h') (hvs : vs ≠ [])
    (hpseudo : (h.inst u).op.isPseudoOperation = true) {p : InstRef}
    (hend : (h'.inst p).nextPseudo = none) :
    Attached u vs h (h'.relink p (some u)) := by
  -- The link that has been changed was empty, also before `u` was attached.
  refine ⟨h1.count, ?_, fun r hr => ?_, fun r hr hne => ?_⟩
  · rw [← h1.op]
    by_cases hu : u = p
    · subst hu
      simp [Heap.relink, Heap.update]
    · simp [Heap.relink, Heap.update, hu]
  · by_cases hrp : r = p
    · subst hrp
      simp only [Heap.relink, Heap.update, Function.update_self]
      rw [h1.inst r hr]
    · simp only [Heap.relink, Heap.update, Function.update_of_ne hrp]
      exact h1.inst r hr
  · by_cases hrp : r = p
    · subst hrp
      refine ⟨hvs, hpseudo, ?_, by simp [Heap.relink, Heap.update]⟩
      by_contra hold
      have hmoved : (h'.inst r).nextPseudo ≠ (h.inst r).nextPseudo := by
        rw [hend]
        exact Ne.symm hold
      rw [(h1.link r hr hmoved).2.2.2] at hend
      cases hend
    · simp only [Heap.relink, Heap.update, Function.update_of_ne hrp] at hne ⊢
      exact h1.link r hr hne

/-- `Use` counts a use, and puts a flag getter at the end of a chain. -/
theorem use_attached (hok : use P u v h = .ok () h') : Attached u [v] h h' := by
  -- The count, and then the link of the last member of the chain.
  have hused : Attached u [v] h (h.recount v (· + 1)) := by
    refine ⟨rfl, ?_, fun r hr => ?_, fun r hr hne => absurd ?_ hne⟩
    · by_cases hu : u = v
      · subst hu
        simp [Heap.recount, Heap.update]
      · simp [Heap.recount, Heap.update, hu]
    · by_cases hrv : r = v
      · subst hrv
        simp [Heap.recount, Heap.update]
      · simp [Heap.recount, Heap.update, hrv, Ne.symm hrv]
    · by_cases hrv : r = v
      · subst hrv
        simp [Heap.recount, Heap.update]
      · simp [Heap.recount, Heap.update, hrv]
  rcases use_ok_iff.mp hok with ⟨-, rfl⟩ | ⟨hpseudo, p, hchain, rfl⟩
  · exact hused
  · exact hused.linked (List.cons_ne_nil _ _) hpseudo
      ((nextPseudo_recount ..).trans (nextPseudo_of_useBody hchain))

/-- The slots of a new instruction are written without releasing anything. -/
theorem putArgs_attached {i : ℕ} {as : List Arg}
    (hfresh : ∀ j : Fin 4, i ≤ j.val → ((h.inst u).args j).ref = none)
    (hok : putArgs P u i as h = .ok () h') : Attached u [] h h' := by
  induction as generalizing i h with
  | nil =>
    rw [putArgs, pure_ok_iff] at hok
    rw [← hok.2]
    exact .refl h
  | cons a as ih =>
    rw [putArgs, bind_ok_iff] at hok
    obtain ⟨⟨⟩, h1, ha, has⟩ := hok
    obtain ⟨hi, hset⟩ := putArg_spec ha
    -- Nothing is released: the slot is still empty.
    have hput : Attached u [] h h1 := by
      obtain ⟨_, h2, hd, rfl⟩ := putArg_ok_iff.mp ha
      rw [destroyArg_eq, hfresh ⟨i, hi⟩ (Nat.le_refl _)] at hd
      rw [← (pure_ok_iff.mp hd).2]
      exact attached_update fun _ => rfl
    refine hput.trans (ih (fun j hj => ?_) has)
    rw [hset.self]
    dsimp only
    rw [if_neg (by omega)]
    exact hfresh j (by omega)

/-- The values of an argument are used. -/
theorem forM_use_attached (hok : (forM vs (use P u) : InstM Unit) h = .ok () h') :
    Attached u vs h h' := by
  refine forM_induction (fun pre => Attached u pre h) (fun _ _ _ _ _ _ hpre hstep => ?_) ?_ hok
  · exact hpre.trans (use_attached hstep)
  · exact .refl h

/-- `SetArgs` of a new instruction. -/
theorem setArgs_attached {i : ℕ} {as : List CallArg}
    (hfresh : ∀ j : Fin 4, i ≤ j.val → ((h.inst u).args j).ref = none)
    (hok : setArgs P u i as h = .ok () h') : Attached u (as.flatMap CallArg.refs) h h' := by
  induction as generalizing i h with
  | nil =>
    rw [setArgs, pure_ok_iff] at hok
    rw [← hok.2]
    exact .refl h
  | cons a as ih =>
    rw [setArgs, bind_ok_iff] at hok
    obtain ⟨⟨⟩, h1, ha, has⟩ := hok
    have hset := setArg_spec ha
    rw [setArg, bind_ok_iff] at ha
    obtain ⟨⟨⟩, h2, hput, huse⟩ := ha
    -- The slots of the first argument are written, and its values used.
    have harg : Attached u ([] ++ a.refs) h h1 :=
      (putArgs_attached hfresh hput).trans (forM_use_attached huse)
    rw [List.flatMap_cons]
    refine harg.trans (ih (fun j hj => ?_) has)
    have hwidth := a.length_slots_le
    rw [hset.self, placed_apply, if_neg (by omega), List.getElem?_eq_none (by omega)]
    exact hfresh j (by omega)

end Attached

/-! ## Attaching arguments does not throw -/

section Throws

variable {P : Platform}

/-- A loop that raises nothing: it stops for lack of fuel, or for what a pass stops for. -/
theorem throws_iterate {σ : Type} {body : σ → σ ⊕ Except Stop InstRef}
    (hbody : ∀ s e, body s = .inr (.error e) → e ≠ .raised) (n : ℕ) (s : σ) :
    Throws (· ≠ Stop.raised)
      (ofExcept ((iterate body n s).getD (.error .endless)) : InstM InstRef) := by
  refine throws_ofExcept fun e he => ?_
  cases hiter : iterate body n s with
  | none =>
    rw [hiter] at he
    cases he
    decide
  | some r =>
    rw [hiter] at he
    change r = .error e at he
    refine iterate_result (Q := fun r => r = .error e → e ≠ .raised) (fun s r hr he => ?_) hiter he
    subst he
    exact hbody s e hr

/-- A new instruction raises nothing. -/
theorem newInst_throws (op : OpCode) : Throws (· ≠ Stop.raised) (newInst op) :=
  throws_get.bind fun _ => (throws_modify _).bind fun _ => throws_pure _

/-- `Use` raises nothing. -/
theorem use_throws (u v : InstRef) : Throws (· ≠ Stop.raised) (use P u v) := by
  refine (throws_modify _).bind fun _ => throws_get.bind fun h => ?_
  split_ifs
  -- The `assert` in the loop aborts the process.
  · refine (throws_iterate (fun s e he => ?_) _ _).bind fun p => throws_modify _
    unfold useBody at he
    cases hnext : (h.inst s).nextPseudo with
    | none =>
      rw [hnext] at he
      cases he
    | some n =>
      rw [hnext] at he
      dsimp only at he
      split_ifs at he
      cases he
      decide
  · exact throws_pure _

/-- `UnUse` raises nothing. -/
theorem unUse_throws (u v : InstRef) : Throws (· ≠ Stop.raised) (unUse P u v) := by
  refine (throws_modify _).bind fun _ => throws_get.bind fun h => ?_
  split_ifs
  -- The loop aborts at its `assert`, or follows a null pointer at the end of the chain.
  · refine (throws_iterate (fun s e he => ?_) _ _).bind fun p =>
      (throws_modify _).bind fun _ => throws_modify _
    unfold unUseBody at he
    cases hnext : (h.inst s).nextPseudo with
    | none =>
      rw [hnext] at he
      cases he
      decide
    | some n =>
      rw [hnext] at he
      dsimp only at he
      split_ifs at he <;> cases he
      decide
  · exact throws_pure _

/-- `SetArg` raises nothing. -/
theorem setArg_throws (u : InstRef) (i : ℕ) (a : CallArg) :
    Throws (· ≠ Stop.raised) (setArg P u i a) := by
  have hput : ∀ (as : List Arg) (i : ℕ), Throws (· ≠ Stop.raised) (putArgs P u i as) := by
    intro as
    induction as with
    | nil => exact fun _ => throws_pure _
    | cons a as ih =>
      refine fun i => Throws.bind ?_ fun _ => ih (i + 1)
      unfold putArg
      split_ifs
      · refine Throws.bind (throws_get.bind fun h => ?_) fun _ => throws_modify _
        split
        · exact unUse_throws _ _
        · exact throws_pure _
      · exact throws_throw (by decide)
  exact (hput _ _).bind fun _ => throws_forM fun v _ => use_throws u v

/-- `SetArgs` raises nothing. -/
theorem setArgs_throws (u : InstRef) (i : ℕ) (as : List CallArg) :
    Throws (· ≠ Stop.raised) (setArgs P u i as) := by
  induction as generalizing i with
  | nil => exact throws_pure _
  | cons a as ih => exact (setArg_throws u i a).bind fun _ => ih _

end Throws

/-! ## Rejected instructions -/

/-- What a rejected instruction leaves of the instructions that were there before. -/
structure RejectedInst (op : OpCode) (args : List CallArg) (h h' : Heap) : Prop where
  /-- The rejected instruction stays on the heap. -/
  count : h'.count = h.count + 1
  /-- The values among its arguments have been used. -/
  inst : ∀ r < h.count, h'.inst r = { h.inst r with
    numUse := (h.inst r).numUse + UInt8.ofNat ((args.flatMap CallArg.refs).count r)
    nextPseudo := (h'.inst r).nextPseudo }
  /-- The rejected instruction may be at the end of a chain. -/
  link : ∀ r < h.count, (h'.inst r).nextPseudo ≠ (h.inst r).nextPseudo →
    op.isPseudoOperation = true ∧ (h.inst r).nextPseudo = none ∧
      (h'.inst r).nextPseudo = some h.count
  /-- Nothing has changed only if there were no values among the arguments. -/
  unchanged_iff : (∀ r < h.count, h'.inst r = h.inst r) ↔ args.flatMap CallArg.refs = []

/-- A block with the instructions of a program. -/
structure BlockState where
  /-- The instructions. -/
  heap : Heap
  /-- `inst_list`. -/
  insts : List InstRef

/-- `Block::AppendInst` with an operation and arguments. -/
def blockAppendInst (P : Platform) (op : OpCode) (args : List CallArg) :
    EStateM Stop BlockState Unit := do
  let u ← zoom BlockState.heap (fun h s => { s with heap := h }) (create P op args)
  let s ← get
  validated P (s.heap.inst u)
  modify fun s => { s with insts := s.insts ++ [u] }

section Inst

variable {P : Platform} {op : OpCode} {args : List CallArg}

/-- Arguments that fit the slots refer to four values at most. -/
theorem length_refs_le {i : ℕ} (hfit : CallArg.Fit i args) :
    (args.flatMap CallArg.refs).length ≤ 4 - i := by
  induction args generalizing i with
  | nil => exact Nat.zero_le _
  | cons a as ih =>
    have hrefs : a.refs.length ≤ a.slots.length := List.length_filterMap_le _ _
    have hslots := a.length_slots_le
    have hrest := ih hfit.2
    have hfirst := hfit.1
    rw [List.flatMap_cons, List.length_append]
    omega

/-- What `SetArgs` of a new instruction leaves of the others. -/
theorem rejectedInst_of_setArgs {h h' : Heap}
    (hrefs : ∀ v ∈ args.flatMap CallArg.refs, v < h.count)
    (hok : setArgs P h.count 0 args (h.created op) = .ok () h') :
    RejectedInst op args h h' := by
  have hatt := setArgs_attached (fun j _ => by rw [Heap.created_self]; rfl) hok
  have hlen := length_refs_le (fit_of_setArgs hok)
  have hinst : ∀ r < h.count, h'.inst r = { h.inst r with
      numUse := (h.inst r).numUse + UInt8.ofNat ((args.flatMap CallArg.refs).count r)
      nextPseudo := (h'.inst r).nextPseudo } := by
    intro r hr
    have hother := hatt.inst r (Nat.ne_of_lt hr)
    rwa [Heap.created_of_lt hr] at hother
  have hlink : ∀ r < h.count, (h'.inst r).nextPseudo ≠ (h.inst r).nextPseudo →
      args.flatMap CallArg.refs ≠ [] ∧ op.isPseudoOperation = true ∧
        (h.inst r).nextPseudo = none ∧ (h'.inst r).nextPseudo = some h.count := by
    intro r hr hne
    have hother := hatt.link r (Nat.ne_of_lt hr)
    rw [Heap.created_of_lt hr, Heap.created_self] at hother
    exact hother hne
  refine ⟨hatt.count, hinst, fun r hr hne => (hlink r hr hne).2, fun hsame => ?_,
    fun hnil r hr => ?_⟩
  · -- A value among the arguments has been used between one and four times.
    by_contra hne
    obtain ⟨v, hv⟩ := List.exists_mem_of_ne_nil _ hne
    have hpos := List.count_pos_iff.mpr hv
    have hle := List.count_le_length (a := v) (l := args.flatMap CallArg.refs)
    have hcount := congrArg Inst.numUse ((hsame v (hrefs v hv)).symm.trans (hinst v (hrefs v hv)))
    dsimp only at hcount
    have hnat := congrArg UInt8.toNat hcount
    rw [UInt8.toNat_add, UInt8.toNat_ofNat'] at hnat
    have hbyte := (h.inst v).numUse.toNat_lt
    omega
  · have hsame : (h'.inst r).nextPseudo = (h.inst r).nextPseudo := by
      by_contra hne
      exact (hlink r hr hne).1 hnil
    rw [hinst r hr, hsame, hnil]
    simp

/-- When `Validate` raises, it has changed nothing. -/
theorem validated_raised {σ : Type} {i : Inst} {s s' : σ}
    (h : validated P i s = .error .raised s') : s' = s := by
  rcases bind_error_iff.mp h with hnull | ⟨⟨⟩, s1, hok, hvalid⟩
  · obtain ⟨-, hstop, -⟩ := require_error_iff.mp hnull
    cases hstop
  · obtain ⟨-, rfl⟩ := require_ok_iff.mp hok
    exact (require_error_iff.mp hvalid).2.2.symm

/-- An instruction of a function is rejected by `Validate` when it has its arguments. -/
theorem appendInst_raised {f f' : HirFunction} (hcur : f.current.isSome = true)
    (h : appendInst P op args f = .error .raised f') :
    ∃ k, setArgs P f.heap.count 0 args (f.heap.created op) = .ok () k ∧
      f' = { f with heap := k } := by
  have hget : (get : Build HirFunction) f = .ok f f := rfl
  have hnew : onHeap (newInst op) f = .ok f.heap.count { f with heap := f.heap.created op } :=
    onHeap_ok_iff.mpr ⟨_, newInst_ok_iff.mpr ⟨rfl, rfl⟩, rfl⟩
  have hcheck : (require (f.current.isSome = true) .raised : Build Unit) f = .ok () f :=
    require_ok_iff.mpr ⟨hcur, rfl⟩
  rw [appendInst, bind_of_ok hget, bind_of_ok hcheck, bind_of_ok hnew] at h
  -- Only `Validate` raises, after the arguments have been set.
  rcases bind_error_iff.mp h with hset | ⟨⟨⟩, f1, hset, happ⟩
  · obtain ⟨k, hk, -⟩ := zoom_error_iff.mp hset
    exact absurd rfl (setArgs_throws _ _ _ _ _ _ hk)
  obtain ⟨k, hk, rfl⟩ := onHeap_ok_iff.mp hset
  refine ⟨k, hk, ?_⟩
  obtain ⟨b, hb⟩ := Option.isSome_iff_exists.mp hcur
  have hget' : (get : Build HirFunction) { f with heap := k } = .ok { f with heap := k } _ := rfl
  rw [appendCreated, bind_of_ok hget', bind_of_ok (ofOption_ok_iff.mpr ⟨hb, rfl⟩)] at happ
  rcases bind_error_iff.mp happ with hval | ⟨⟨⟩, f2, -, hreg⟩
  · exact validated_raised hval
  · exact (modify_error_iff.mp hreg).elim

/-- So is an instruction of a block. -/
theorem blockAppendInst_raised {s s' : BlockState}
    (h : blockAppendInst P op args s = .error .raised s') :
    ∃ k, setArgs P s.heap.count 0 args (s.heap.created op) = .ok () k ∧
      s' = { s with heap := k } := by
  have hthrows : Throws (· ≠ Stop.raised) (create P op args) :=
    (newInst_throws op).bind fun u => (setArgs_throws u 0 args).bind fun _ => throws_pure u
  -- Only `Validate` raises, after the arguments have been set.
  rcases bind_error_iff.mp h with hcreate | ⟨u, s1, hcreate, happ⟩
  · obtain ⟨k, hk, -⟩ := zoom_error_iff.mp hcreate
    exact absurd rfl (hthrows _ _ _ hk)
  obtain ⟨k, hk, rfl⟩ := zoom_ok_iff.mp hcreate
  simp only [create, newInst_ok_iff, bind_ok_iff, pure_ok_iff] at hk
  obtain ⟨_, _, ⟨rfl, rfl⟩, ⟨⟩, k', hset, rfl, rfl⟩ := hk
  refine ⟨k', hset, ?_⟩
  have hget : (get : EStateM Stop BlockState BlockState) { s with heap := k' } =
      .ok { s with heap := k' } _ := rfl
  rw [bind_of_ok hget] at happ
  rcases bind_error_iff.mp happ with hval | ⟨⟨⟩, s2, -, hpush⟩
  · exact validated_raised hval
  · exact (modify_error_iff.mp hpush).elim

/-- When `Validate` rejects an instruction, the function keeps everything but the instructions, and
a block its list. Of the instructions that were there, those among the arguments have been used, and
a flag getter may be at the end of a chain; they are as before if and only if the arguments have no
values. -/
theorem rejected_inst (P : Platform) (op : OpCode) (args : List CallArg) :
    (∀ f f' : HirFunction, f.current.isSome = true →
      (∀ v ∈ args.flatMap CallArg.refs, v < f.heap.count) →
      appendInst P op args f = .error .raised f' →
      f' = { f with heap := f'.heap } ∧ RejectedInst op args f.heap f'.heap) ∧
    ∀ s s' : BlockState, (∀ v ∈ args.flatMap CallArg.refs, v < s.heap.count) →
      blockAppendInst P op args s = .error .raised s' →
      s'.insts = s.insts ∧ RejectedInst op args s.heap s'.heap := by
  refine ⟨fun f f' hcur hrefs h => ?_, fun s s' hrefs h => ?_⟩
  · obtain ⟨k, hset, rfl⟩ := appendInst_raised hcur h
    exact ⟨rfl, rejectedInst_of_setArgs hrefs hset⟩
  · obtain ⟨k, hset, rfl⟩ := blockAppendInst_raised h
    exact ⟨rfl, rejectedInst_of_setArgs hrefs hset⟩

/-- `LoadLocal` with a value in the place of its local. -/
theorem rejected_inst_loadLocal :
    ∃ f f', TypedBuilds .plain 0 [.inst .loadImm [.imm]] f ∧
      appendInst .plain .loadLocal [.value 0] f = .error .raised f' ∧
      f' = { f with heap := f'.heap } ∧ (f'.heap.inst 0).numUse = 1 ∧
      RejectedInst .loadLocal [.value 0] f.heap f'.heap := by
  obtain ⟨f, hrun, hrefs, hcur, hstop⟩ := exists_of_any
    (o := runCalls .plain [.inst .loadImm [.imm]] (.create 0))
    (Q := fun f => (∀ v ∈ [CallArg.value 0].flatMap CallArg.refs, v < f.heap.count) ∧
      f.current.isSome = true ∧
      ((stopped (appendInst .plain .loadLocal [.value 0] f)).any fun r =>
        r.1 = .raised ∧ (r.2.heap.inst 0).numUse = 1) = true)
    (by decide +kernel)
  obtain ⟨⟨e, f'⟩, hr, rfl, huse⟩ := exists_of_any hstop
  have h := stopped_eq_some_iff.mp hr
  obtain ⟨hrest, hrej⟩ := (rejected_inst .plain .loadLocal [.value 0]).1 f f' hcur hrefs h
  exact ⟨f, f', run_of_runCalls hrun, h, hrest, huse, hrej⟩

/-- A rejected `GetCarry` of a value has been counted as its user and is in its chain. -/
theorem rejected_getCarry_traced :
    ∃ f f', TypedBuilds .plain 0 [.inst .loadImm [.imm]] f ∧
      appendInst .plain .getCarry [.value 0, .imm] f = .error .raised f' ∧
      (f.heap.inst 0).numUse = 0 ∧ (f'.heap.inst 0).numUse = 1 ∧
      (f.heap.inst 0).nextPseudo = none ∧ (f'.heap.inst 0).nextPseudo = some 1 := by
  obtain ⟨f, hrun, hnone, hzero, hstop⟩ := exists_of_any
    (o := runCalls .plain [.inst .loadImm [.imm]] (.create 0))
    (Q := fun f => (f.heap.inst 0).nextPseudo = none ∧ (f.heap.inst 0).numUse = 0 ∧
      ((stopped (appendInst .plain .getCarry [.value 0, .imm] f)).any fun r =>
        r.1 = .raised ∧ (r.2.heap.inst 0).numUse = 1 ∧ (r.2.heap.inst 0).nextPseudo = some 1) =
        true)
    (by decide +kernel)
  obtain ⟨⟨e, f'⟩, hr, rfl, huse, hlink⟩ := exists_of_any hstop
  exact ⟨f, f', run_of_runCalls hrun, stopped_eq_some_iff.mp hr, hzero, huse, hnone, hlink⟩

end Inst

/-! ## Rejected branches -/

section Branch

variable {f : HirFunction} {b : BlockRef}

/-- Every linked case adds an edge. -/
theorem foldl_link_edgeCount (pre : BlockRef) (locs : List Location) (f : HirFunction) :
    (locs.foldl (HirFunction.link pre true) f).edgeCount = f.edgeCount + locs.length := by
  induction locs generalizing f with
  | nil => rfl
  | cons loc locs ih =>
    have hlink : (f.link pre true loc).edgeCount = f.edgeCount + 1 := by
      rcases f.appendBlock_cases loc 0 with ⟨x, -, -, heq⟩ | ⟨-, heq⟩
      · simp only [HirFunction.link, heq]
        rfl
      · simp only [HirFunction.link, heq]
        rfl
    rw [List.foldl_cons, ih, hlink, List.length_cons]
    omega

/-- An `If` or `Switch` with a branch that has no location throws, and the current block has been
ended. A rejected `If` has changed nothing else; a rejected `Switch` has linked the cases before the
first one without a location. The function is never as before. -/
theorem rejected_branch (hcur : f.current = some b) :
    (∀ cond then_ else_, then_.next = none ∨ else_.next = none →
      buildIf cond then_ else_ f = .error .raised ((f.used cond).ended b (.if_ cond then_ else_)) ∧
        (f.used cond).ended b (.if_ cond then_ else_) ≠ f.used cond) ∧
    ∀ value cases, (∃ c ∈ cases, c.next = none) →
      ∃ f', f' = ((cases.takeWhile (·.next.isSome)).filterMap Terminal.next).foldl
          (HirFunction.link b true) ((f.used value).ended b (.switch value cases)) ∧
        buildSwitch value cases f = .error .raised f' ∧ f' ≠ f.used value := by
  have hended : ∀ v t, ((f.used v).ended b t).current ≠ (f.used v).current := by
    intro v t
    rw [show (f.used v).current = some b from hcur]
    exact Option.some_ne_none b ∘ Eq.symm
  refine ⟨fun cond then_ else_ hnone => ⟨?_,
    fun heq => hended _ _ (congrArg HirFunction.current heq)⟩,
    fun value cases hnone => ⟨_, rfl, ?_, fun heq => ?_⟩⟩
  · rw [buildIf_eq hcur]
    rcases hnone with hnone | hnone
    · rw [hnone]
      cases else_.next <;> rfl
    · rw [hnone]
  · obtain ⟨c, hc, hnone⟩ := hnone
    rw [buildSwitch_eq hcur, forM_buildCase, if_neg]
    intro hall
    have hsome := List.all_eq_true.mp hall c hc
    rw [hnone] at hsome
    cases hsome
  · -- Without a linked case there is no current block, with one there is another edge.
    have hcount := congrArg HirFunction.edgeCount heq
    rw [foldl_link_edgeCount] at hcount
    have hnil : (cases.takeWhile (·.next.isSome)).filterMap Terminal.next = [] :=
      List.length_eq_zero_iff.mp (Nat.add_eq_left.mp hcount)
    rw [hnil] at heq
    exact hended _ _ (congrArg HirFunction.current heq)

/-- An `If` with a branch that ends the program, in the first block of a function. -/
theorem rejected_branch_if :
    ∃ f, TypedBuilds .plain 0 [.inst .loadImm [.imm]] f ∧ f.current = some 0 ∧
      buildIf 0 (.linkBlock 4) .popRSBHint f =
        .error .raised ((f.used 0).ended 0 (.if_ 0 (.linkBlock 4) .popRSBHint)) := by
  obtain ⟨f, hrun, hcur⟩ := exists_of_any (o := runCalls .plain [.inst .loadImm [.imm]] (.create 0))
    (Q := fun f => f.current = some 0) (by decide +kernel)
  exact ⟨f, run_of_runCalls hrun, hcur, ((rejected_branch hcur).1 0 _ _ (.inr rfl)).1⟩

/-- A `Switch` whose second case ends the program has created a block and an edge for the first
one. -/
theorem rejected_switch_traced :
    ∃ f f', TypedBuilds .plain 0 [.inst .loadImm [.imm]] f ∧
      buildSwitch 0 [.linkBlock 4, .popRSBHint] f = .error .raised f' ∧
      f.current = some 0 ∧ f'.current = some 1 ∧ f.blockCount = 1 ∧ f'.blockCount = 2 ∧
      f.edgeCount = 0 ∧ f'.edgeCount = 1 := by
  obtain ⟨f, hrun, hcur, hblocks, hedges, hstop⟩ := exists_of_any
    (o := runCalls .plain [.inst .loadImm [.imm]] (.create 0))
    (Q := fun f => f.current = some 0 ∧ f.blockCount = 1 ∧ f.edgeCount = 0 ∧
      ((stopped (buildSwitch 0 [.linkBlock 4, .popRSBHint] f)).any fun r =>
        r.1 = .raised ∧ r.2.current = some 1 ∧ r.2.blockCount = 2 ∧ r.2.edgeCount = 1) = true)
    (by decide +kernel)
  obtain ⟨⟨e, f'⟩, hr, rfl, hcur', hblocks', hedges'⟩ := exists_of_any hstop
  exact ⟨f, f', run_of_runCalls hrun, stopped_eq_some_iff.mp hr, hcur, hcur', hblocks, hblocks',
    hedges, hedges'⟩

end Branch

end SwiftRuntime.Ir
