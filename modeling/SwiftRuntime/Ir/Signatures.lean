import SwiftRuntime.Ir.Inst
import Mathlib.Algebra.GroupWithZero.Nat

/-!
# Declared signatures

`Validate` goes through the four argument slots of an instruction and, with an index of its own,
through the argument types that are declared for its operation. The arguments of a call stand in the
slots one after the other, an operand in three of them (`placedArgs_apply`), so the two indices go
together as long as the kinds of the arguments are the declared ones.

The loop is bounded by the slots and not by the declared list. It stays inside the list if it comes
to a mismatch, or if the list takes all four slots; otherwise it goes on behind the end of the
vector (`validate_signature_iff`).
-/

namespace SwiftRuntime.Ir

/-- The operations of `ir.inc` for which `Validate` goes through the declared list. -/
def OpCode.isGeneric : OpCode → Bool
  | void | callLambda | callLocation | callDynamic | baseCount | setLocation | count => false
  | _ => true

/-- How many slots a type in a declared list stands for. -/
def ArgType.width : ArgType → ℕ
  | operand => 3
  | _ => 1

/-- Every type takes a slot at least. -/
theorem ArgType.width_pos (d : ArgType) : 0 < d.width := by
  cases d <;> decide

namespace CallArg

/-- The kind of an argument. -/
def kind : CallArg → ArgType
  | void => .void
  | value _ => .value
  | imm => .imm
  | uniform => .uniform
  | local_ _ => .local_
  | cond => .cond
  | flags => .flags
  | operandOp => .operand
  | operand _ => .operand
  | lambda _ => .lambda

/-- The slots that an argument takes in a new instruction: an operator alone leaves two of them as
they are. -/
def raw (a : CallArg) : List Arg := a.slots ++ List.replicate (a.width - a.slots.length) .void

/-- The arguments can be put into the slots from an index on. -/
def Fit : ℕ → List CallArg → Prop
  | _, [] => True
  | i, a :: as => i + a.slots.length ≤ 4 ∧ Fit (i + a.width) as

/-- An argument fills as many slots as it is wide. -/
theorem length_raw (a : CallArg) : a.raw.length = a.width := by
  rcases a with _ | _ | _ | _ | _ | _ | _ | _ | (_ | _ | _) | _ <;> rfl

/-- The type of an argument is as wide as the argument. -/
theorem width_kind (a : CallArg) : a.kind.width = a.width := by
  cases a <;> rfl

/-- The slots that are written are among them. -/
theorem length_slots_le (a : CallArg) : a.slots.length ≤ a.width := by
  rcases a with _ | _ | _ | _ | _ | _ | _ | _ | (_ | _ | _) | _ <;> exact Nat.le_of_ble_eq_true rfl

/-- The first slot of an argument shows its kind. -/
theorem exists_raw_eq_cons (a : CallArg) : ∃ x rest, a.raw = x :: rest ∧ x.type = a.kind := by
  rcases a with _ | _ | _ | _ | _ | _ | _ | _ | (_ | _ | _) | _ <;> exact ⟨_, _, rfl, rfl⟩

end CallArg

/-- `Create`. -/
def create (P : Platform) (op : OpCode) (args : List CallArg) : InstM InstRef := do
  let u ← newInst op
  setArgs P u 0 args
  return u

/-- The indices at which the loop of `Validate` reads the declared argument types. -/
def readsFrom (P : Platform) (i : Inst) (n : ℕ) (s : ℕ × ℕ) : List ℕ :=
  ((passes (validateBody P i) n s).filter fun s => s.1 < 4).map Prod.snd

/-- The indices at which `Validate` reads the declared argument types. -/
def argTypesRead (P : Platform) (i : Inst) : List ℕ :=
  if i.op.isGeneric then readsFrom P i 5 (0, 0) else []

/-! ## The slots of a new instruction -/

section Placed

variable {P : Platform} {g : Fin 4 → Arg} {i : ℕ} {j : Fin 4}

/-- The arguments stand in the slots one after the other. -/
theorem placedArgs_apply (hg : ∀ j : Fin 4, i ≤ j.val → g j = .void) (as : List CallArg) :
    placedArgs g i as j =
      if j.val < i then g j else ((as.flatMap CallArg.raw)[j.val - i]?).getD .void := by
  induction as generalizing g i with
  | nil =>
    simp only [placedArgs, List.flatMap_nil, List.getElem?_nil, Option.getD_none]
    split_ifs with hlt
    · rfl
    · exact hg j (by omega)
  | cons a as ih =>
    have hwidth := a.length_raw
    -- The slots of the first argument, in which the rest of its width is void.
    have hslots : ∀ j : Fin 4, i ≤ j.val →
        placed g i a.slots j = (a.raw[j.val - i]?).getD .void := by
      intro j hj
      rw [placed_apply, if_neg (by omega), hg j hj, CallArg.raw]
      rcases Nat.lt_or_ge (j.val - i) a.slots.length with hlt | hge
      · rw [List.getElem?_append_left hlt]
      · rw [List.getElem?_append_right hge, List.getElem?_eq_none hge, List.getElem?_replicate]
        split_ifs <;> rfl
    rw [placedArgs, ih]
    -- A slot before the argument, one of its own, or one after it.
    · by_cases hlt : j.val < i
      · rw [if_pos (by omega), if_pos hlt, placed_apply, if_pos hlt]
      · rw [if_neg hlt, List.flatMap_cons]
        by_cases hin : j.val < i + a.width
        · rw [if_pos hin, hslots j (by omega), List.getElem?_append_left (by omega)]
        · rw [if_neg hin, List.getElem?_append_right (by omega), hwidth, Nat.sub_sub]
    · intro j hj
      rw [hslots j (by omega), List.getElem?_eq_none (by omega)]
      rfl

/-- If `SetArgs` returns, the arguments fit. -/
theorem fit_of_setArgs {u : InstRef} {as : List CallArg} {h h' : Heap}
    (hok : setArgs P u i as h = .ok () h') : CallArg.Fit i as := by
  induction as generalizing i h with
  | nil => trivial
  | cons a as ih =>
    rw [setArgs, bind_ok_iff] at hok
    obtain ⟨⟨⟩, h1, ha, has⟩ := hok
    refine ⟨?_, ih has⟩
    rw [setArg, bind_ok_iff] at ha
    obtain ⟨⟨⟩, h2, hput, -⟩ := ha
    -- Every slot that is written has an index in range.
    have hrange : ∀ (as : List Arg) (i : ℕ) (h h' : Heap), putArgs P u i as h = .ok () h' →
        as ≠ [] → i + as.length ≤ 4 := by
      intro as
      induction as with
      | nil => exact fun _ _ _ _ hne => absurd rfl hne
      | cons a as ih =>
        intro i h h' hok _
        rw [putArgs, bind_ok_iff] at hok
        obtain ⟨⟨⟩, h1, hput, hrest⟩ := hok
        have hi := (putArg_spec hput).1
        cases as with
        | nil => exact hi
        | cons b as =>
          have := ih (i + 1) h1 h' hrest (List.cons_ne_nil _ _)
          simp only [List.length_cons] at this ⊢
          omega
    exact hrange _ _ _ _ hput a.slots_ne_nil

/-- An instruction as `Create` makes it. -/
theorem create_spec {op : OpCode} {args : List CallArg} {u : InstRef} {h h' : Heap}
    (hok : create P op args h = .ok u h') :
    CallArg.Fit 0 args ∧ (h'.inst u).op = op ∧
      (h'.inst u).args = placedArgs (fun _ => .void) 0 args := by
  simp only [create, newInst_ok_iff, bind_ok_iff, pure_ok_iff] at hok
  obtain ⟨_, _, ⟨rfl, rfl⟩, ⟨⟩, h1, hset, rfl, rfl⟩ := hok
  have hspec := setArgs_spec hset
  refine ⟨fit_of_setArgs hset, ?_, ?_⟩
  · rw [hspec.op, Heap.created_self]
  · rw [hspec.self, Heap.created_self]

end Placed

/-! ## The loop over the slots -/

/-- The slots of an instruction from an index on hold arguments, and nothing behind them. -/
def SlotsFrom (i : Inst) (slot : ℕ) (as : List CallArg) : Prop :=
  ∀ j : Fin 4, slot ≤ j.val → i.args j = ((as.flatMap CallArg.raw)[j.val - slot]?).getD .void

section Walk

variable {P : Platform} {i : Inst} {slot k : ℕ} {a : CallArg} {as : List CallArg} {d : ArgType}
  {ds : List ArgType}

/-- After the last argument the slots are void. -/
theorem SlotsFrom.type_nil (h : SlotsFrom i slot []) (hlt : slot < 4) :
    (i.args ⟨slot, hlt⟩).type = .void := by
  rw [h ⟨slot, hlt⟩ (Nat.le_refl _)]
  rfl

/-- A slot where an argument begins has its type. -/
theorem SlotsFrom.type_cons (h : SlotsFrom i slot (a :: as)) (hlt : slot < 4) :
    (i.args ⟨slot, hlt⟩).type = a.kind := by
  obtain ⟨x, rest, hraw, htype⟩ := a.exists_raw_eq_cons
  rw [h ⟨slot, hlt⟩ (Nat.le_refl _), Nat.sub_self, List.flatMap_cons, hraw]
  exact htype

/-- The next argument begins after it. -/
theorem SlotsFrom.tail (h : SlotsFrom i slot (a :: as)) : SlotsFrom i (slot + a.width) as := by
  intro j hj
  have hwidth := a.length_raw
  rw [h j (by omega), List.flatMap_cons, List.getElem?_append_right (by omega), hwidth, Nat.sub_sub]

/-- The declared type at an index is the first of those that are left. -/
theorem expectedType_of_drop (h : i.op.argTypes.drop k = d :: ds) :
    k < i.op.argTypes.length ∧ expectedType P i.op k = some d ∧
      i.op.argTypes.drop (k + 1) = ds := by
  have hget : i.op.argTypes[k]? = some d := by
    rw [← List.head?_drop, h]
    rfl
  have hlt := (List.getElem?_eq_some_iff.mp hget).1
  refine ⟨hlt, by rw [expectedType, if_pos hlt, hget], ?_⟩
  rw [← List.tail_drop, h]
  rfl

/-- A pass over a slot of the expected type. -/
theorem validateBody_match (hlt : slot < 4)
    (hd : expectedType P i.op k = some (i.args ⟨slot, hlt⟩).type) :
    validateBody P i (slot, k) = .inl (slot + (i.args ⟨slot, hlt⟩).type.width, k + 1) := by
  rw [validateBody, dif_pos hlt, if_pos hd]
  cases (i.args ⟨slot, hlt⟩).type <;> rfl

/-- A pass over a slot of another type. -/
theorem validateBody_mismatch (hlt : slot < 4)
    (hd : expectedType P i.op k ≠ some (i.args ⟨slot, hlt⟩).type) :
    validateBody P i (slot, k) = .inr false := by
  rw [validateBody, dif_pos hlt, if_neg hd]

/-- A type that matches is read, and the loop goes on. -/
theorem readsFrom_match (hlt : slot < 4)
    (hd : expectedType P i.op k = some (i.args ⟨slot, hlt⟩).type) (n : ℕ) :
    readsFrom P i (n + 1) (slot, k) =
      k :: readsFrom P i n (slot + (i.args ⟨slot, hlt⟩).type.width, k + 1) := by
  rw [readsFrom, passes_inl (validateBody_match hlt hd),
    List.filter_cons_of_pos (by simpa using hlt)]
  rfl

/-- One that does not match is the last to be read. -/
theorem readsFrom_mismatch (hlt : slot < 4)
    (hd : expectedType P i.op k ≠ some (i.args ⟨slot, hlt⟩).type) (n : ℕ) :
    readsFrom P i (n + 1) (slot, k) = [k] := by
  rw [readsFrom, passes_inr (validateBody_mismatch hlt hd),
    List.filter_cons_of_pos (by simpa using hlt)]
  rfl

/-- Whatever the types are, the loop reads at its index if there is a slot left. -/
theorem mem_readsFrom (hlt : slot < 4) (n : ℕ) : k ∈ readsFrom P i (n + 1) (slot, k) := by
  by_cases hd : expectedType P i.op k = some (i.args ⟨slot, hlt⟩).type
  · rw [readsFrom_match hlt hd]
    exact List.mem_cons_self
  · rw [readsFrom_mismatch hlt hd]
    exact List.mem_cons_self

/-- Where the arguments begin with those that are declared, the loop goes through the declared
list. -/
theorem walk_of_prefix (hdecl : i.op.argTypes.drop k = ds)
    (hwidth : slot + (ds.map ArgType.width).sum ≤ 4) (hslots : SlotsFrom i slot as)
    (hpre : ds <+: as.map CallArg.kind) (n : ℕ) :
    iterate (validateBody P i) (n + ds.length) (slot, k) =
        iterate (validateBody P i) n (slot + (ds.map ArgType.width).sum, k + ds.length) ∧
      readsFrom P i (n + ds.length) (slot, k) = List.range' k ds.length ++
        readsFrom P i n (slot + (ds.map ArgType.width).sum, k + ds.length) := by
  induction ds generalizing slot k as with
  | nil => exact ⟨rfl, rfl⟩
  -- The next argument has the type that is declared, so the loop goes on behind it.
  | cons d ds ih =>
    cases as with
    | nil => exact absurd (List.prefix_nil.mp hpre) (List.cons_ne_nil _ _)
    | cons a as =>
      obtain ⟨rfl, hrest⟩ := List.cons_prefix_cons.mp hpre
      obtain ⟨-, hd, hnext⟩ := expectedType_of_drop (P := P) hdecl
      have hpos := a.kind.width_pos
      rw [List.map_cons, List.sum_cons, ← Nat.add_assoc] at hwidth
      have hlt : slot < 4 := by omega
      rw [← hslots.type_cons hlt] at hd
      have htail := hslots.tail
      rw [← a.width_kind] at htail
      obtain ⟨hiter, hreads⟩ := ih hnext hwidth htail hrest
      rw [List.length_cons, ← Nat.add_assoc, List.map_cons, List.sum_cons, ← Nat.add_assoc,
        iterate_inl (validateBody_match hlt hd), readsFrom_match hlt hd, hslots.type_cons hlt,
        hiter, hreads, Nat.add_right_comm k]
      exact ⟨rfl, rfl⟩

/-- Otherwise it comes to a mismatch inside the declared list. -/
theorem walk_of_not_prefix (hdecl : i.op.argTypes.drop k = ds) (hvoid : .void ∉ ds)
    (hwidth : slot + (ds.map ArgType.width).sum ≤ 4) (hslots : SlotsFrom i slot as)
    (hpre : ¬ ds <+: as.map CallArg.kind) {n : ℕ} (hn : ds.length < n) :
    iterate (validateBody P i) n (slot, k) = some false ∧
      ∀ x ∈ readsFrom P i n (slot, k), x < i.op.argTypes.length := by
  induction ds generalizing slot k as n with
  | nil => exact absurd List.nil_prefix hpre
  | cons d ds ih =>
    obtain ⟨n, rfl⟩ : ∃ m, n = m + 1 := ⟨n - 1, by omega⟩
    obtain ⟨hk, hd, hnext⟩ := expectedType_of_drop (P := P) hdecl
    rw [List.mem_cons, not_or] at hvoid
    rw [List.map_cons, List.sum_cons, ← Nat.add_assoc] at hwidth
    have hpos := d.width_pos
    have hlt : slot < 4 := by omega
    -- The types differ here, or the lists do after this argument.
    by_cases hmatch : expectedType P i.op k = some (i.args ⟨slot, hlt⟩).type
    · cases as with
      | nil =>
        rw [hd, hslots.type_nil hlt, Option.some.injEq] at hmatch
        exact absurd hmatch.symm hvoid.1
      | cons a as =>
        have hkind : d = a.kind := by
          rw [hd, hslots.type_cons hlt, Option.some.injEq] at hmatch
          exact hmatch
        subst hkind
        have htail := hslots.tail
        rw [← a.width_kind] at htail
        obtain ⟨hiter, hreads⟩ := ih hnext hvoid.2 hwidth htail
          (fun hrest => hpre (List.cons_prefix_cons.mpr ⟨rfl, hrest⟩)) (Nat.lt_of_succ_lt_succ hn)
        rw [iterate_inl (validateBody_match hlt hmatch), readsFrom_match hlt hmatch,
          hslots.type_cons hlt]
        refine ⟨hiter, fun x hx => ?_⟩
        rcases List.mem_cons.mp hx with rfl | hx
        · exact hk
        · exact hreads x hx
    · rw [iterate_inr (validateBody_mismatch hlt hmatch), readsFrom_mismatch hlt hmatch]
      exact ⟨rfl, fun x hx => List.mem_singleton.mp hx ▸ hk⟩

end Walk

/-! ## What is accepted -/

section Accepted

variable {P : Platform} {i : Inst} {op : OpCode} {args : List CallArg}

/-- An operation without a special case is checked by the loop. -/
theorem validate_of_isGeneric (h : i.op.isGeneric = true) :
    validate P i = (iterate (validateBody P i) 5 (0, 0)).getD false := by
  unfold validate
  split <;> simp_all [OpCode.isGeneric]

/-- A declared list has no `Void` in it and fits the slots. -/
theorem argTypes_fit (op : OpCode) :
    .void ∉ op.argTypes ∧ (op.argTypes.map ArgType.width).sum ≤ 4 ∧ op.argTypes.length ≤ 4 := by
  cases op <;> decide

/-- There is no place behind arguments that take all slots. -/
theorem eq_nil_of_fit {slot : ℕ} {as : List CallArg} (hfit : CallArg.Fit slot as)
    (hslot : 4 ≤ slot) :
    as = [] := by
  cases as with
  | nil => rfl
  | cons a as =>
    have hpos := List.length_pos_iff.mpr a.slots_ne_nil
    exact absurd hfit.1 (by omega)

/-- Arguments that begin with kinds that take all slots have no others. -/
theorem kinds_eq_of_fit {slot : ℕ} {ds : List ArgType} (hfit : CallArg.Fit slot args)
    (hwidth : slot + (ds.map ArgType.width).sum = 4) (hpre : ds <+: args.map CallArg.kind) :
    args.map CallArg.kind = ds := by
  induction ds generalizing slot args with
  | nil => rw [eq_nil_of_fit hfit (by simpa using hwidth.ge), List.map_nil]
  | cons d ds ih =>
    cases args with
    | nil => exact absurd (List.prefix_nil.mp hpre) (List.cons_ne_nil _ _)
    | cons a as =>
      obtain ⟨rfl, hrest⟩ := List.cons_prefix_cons.mp hpre
      rw [List.map_cons, List.sum_cons, a.width_kind, ← Nat.add_assoc] at hwidth
      rw [List.map_cons, ih hfit.2 hwidth hrest]

/-- For every operation of `ir.inc` but the calls, and all arguments that fit the slots: `Validate`
stays inside the declared list and accepts exactly the declared kinds, if and only if the declared
list takes all four slots or the arguments do not begin with what it declares. -/
theorem validate_signature_iff (P : Platform) (hgen : op.isGeneric = true)
    (hfit : CallArg.Fit 0 args) (hop : i.op = op)
    (hargs : i.args = placedArgs (fun _ => .void) 0 args) :
    ((∀ k ∈ argTypesRead P i, k < op.argTypes.length) ∧
        (validate P i = true ↔ args.map CallArg.kind = op.argTypes)) ↔
      (op.argTypes.map ArgType.width).sum = 4 ∨ ¬ op.argTypes <+: args.map CallArg.kind := by
  subst hop
  obtain ⟨hvoid, hwidth, hlen⟩ := argTypes_fit i.op
  have hslots : SlotsFrom i 0 args := by
    intro j _
    rw [hargs, placedArgs_apply fun _ _ => rfl, if_neg (Nat.not_lt_zero _)]
  rw [← Nat.zero_add (List.sum _)] at hwidth
  rw [validate_of_isGeneric hgen, argTypesRead, if_pos hgen]
  by_cases hpre : i.op.argTypes <+: args.map CallArg.kind
  · obtain ⟨hiter, hreads⟩ := walk_of_prefix (P := P) List.drop_zero hwidth hslots hpre
      (5 - i.op.argTypes.length)
    rw [Nat.sub_add_cancel (by omega), Nat.zero_add, Nat.zero_add] at hiter hreads
    obtain ⟨n, hn⟩ : ∃ n, 5 - i.op.argTypes.length = n + 1 := ⟨4 - i.op.argTypes.length, by omega⟩
    rw [hn] at hiter hreads
    rw [hiter, hreads]
    simp only [hpre, not_true_eq_false, or_false]
    constructor
    · -- With a slot left the loop reads behind the list.
      rintro ⟨hbound, -⟩
      by_contra hne
      have hlt : (i.op.argTypes.map ArgType.width).sum < 4 := by omega
      exact lt_irrefl _ (hbound _ (List.mem_append_right _ (mem_readsFrom hlt n)))
    · intro hfull
      have hend : validateBody P i ((i.op.argTypes.map ArgType.width).sum, i.op.argTypes.length) =
          .inr true := by
        rw [validateBody, dif_neg (by omega)]
      refine ⟨fun k hk => ?_, ?_⟩
      · rw [readsFrom, passes_inr hend, List.filter_cons_of_neg (by simp [hfull])] at hk
        simpa using hk
      · rw [iterate_inr hend]
        simp only [Option.getD_some, true_iff]
        exact kinds_eq_of_fit hfit (by omega) hpre
  · obtain ⟨hiter, hreads⟩ := walk_of_not_prefix (P := P) List.drop_zero hvoid hwidth hslots hpre
      (Nat.lt_succ_of_le hlen)
    rw [hiter]
    refine iff_of_true ⟨hreads, ?_⟩ (.inr hpre)
    simp only [Option.getD_some, Bool.false_eq_true, false_iff]
    exact fun heq => hpre (heq ▸ List.prefix_rfl)

/-- `Add` of a value and an operand, whose declared list takes all four slots. -/
theorem validate_signature_add :
    ∃ u h', create .plain .add [.value 0, .operand (.imm 0)] ⟨fun _ => { op := .loadImm }, 1⟩ =
        .ok u h' ∧
      (∀ k ∈ argTypesRead .plain (h'.inst u), k < OpCode.add.argTypes.length) ∧
      validate .plain (h'.inst u) = true := by
  have hok : create .plain .add [.value 0, .operand (.imm 0)] ⟨fun _ => { op := .loadImm }, 1⟩ =
      .ok _ _ := rfl
  refine ⟨_, _, hok, ?_⟩
  obtain ⟨hfit, hop, hargs⟩ := create_spec hok
  obtain ⟨hreads, hvalid⟩ := (validate_signature_iff .plain rfl hfit hop hargs).mpr (.inl rfl)
  exact ⟨hreads, hvalid.mpr rfl⟩

/-- `LoadImm` of an immediate: `Validate` reads behind its list, which has one type. -/
theorem loadImm_reads_past :
    ∃ u h', create .plain .loadImm [.imm] ⟨fun _ => { op := .void }, 0⟩ = .ok u h' ∧
      [CallArg.imm].map CallArg.kind = OpCode.loadImm.argTypes ∧
      1 ∈ argTypesRead .plain (h'.inst u) ∧ ¬ 1 < OpCode.loadImm.argTypes.length :=
  ⟨_, _, rfl, rfl, by decide, by decide⟩

end Accepted

end SwiftRuntime.Ir
