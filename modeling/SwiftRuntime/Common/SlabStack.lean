import SwiftRuntime.Common.SlabSteps

/-!
# When the list of a slab is a stack

`Allocate` may put an object on the list that a client owns, where the object that it takes has come
back to the list since its link was read. Two ways to use the list rule that out. One is not to push
an object while a client is about to take it by a link that it has read (`Clear`), as hazard
pointers or epochs do. The other is a lock around `Allocate` alone (`Alone`): `Free` can go on
without one.

In both cases every run of the clients is a run of a stack on which the calls are made one at a time
(`stack_of_clear`, `stack_of_alone`). A call of `Allocate` that returns an object is made at its
exchange, one that returns null at its last load, and a call of `Free` at its exchange.
-/

namespace SwiftRuntime.Common

/-- The calls on a stack of objects. -/
inductive StackCall (α : Type*)
  /-- `Allocate` returns an object. -/
  | take (x : α)
  /-- `Allocate` returns null. -/
  | none
  /-- `Free`. -/
  | give (x : α)

/-- A call of a client on a stack. -/
inductive StackStep {ι α : Type*} : ι × StackCall α → List α → List α → Prop
  | take {c : ι} {x : α} {gs : List α} : StackStep (c, .take x) (x :: gs) gs
  | none {c : ι} : StackStep (c, .none) [] []
  | give {c : ι} {x : α} {gs : List α} : StackStep (c, .give x) gs (x :: gs)

namespace Activity

variable {α : Type*}

/-- The client is in `Allocate`. -/
def InAllocate : Activity α → Prop
  | test _ | pop _ _ => True
  | _ => False

/-- The object that the client is about to take. -/
def ret : Activity α → Option α
  | test ret => ret
  | pop ret _ => some ret
  | _ => none

end Activity

namespace Clients

variable {ι α : Type*}

/-- The call that a load of the head makes: a null head is returned. -/
def loadCalls (s : Clients ι α) (c : ι) : List (ι × StackCall α) :=
  match s.head with
  | some _ => []
  | none => [(c, .none)]

/-- The call on the stack that a step makes, if it makes one. -/
def calls (s : Clients ι α) : ι × Action α → List (ι × StackCall α)
  | (c, .popped) =>
    match s.client c with
    | .pop ret _ => [(c, .take ret)]
    | _ => []
  | (c, .pushed) =>
    match s.client c with
    | .push node _ => [(c, .give node)]
    | _ => []
  | (c, .allocate) | (c, .popFailed) => s.loadCalls c
  | _ => []

/-- No object is pushed that a client is about to take by a link that it has read. -/
def Clear (a : ι × Action α) (s : Clients ι α) : Prop :=
  ∀ c node cur d next, a = (c, .pushed) → s.client c = .push node cur → s.client d ≠ .pop node next

/-- No client begins `Allocate` while another one is in it. -/
def Alone (a : ι × Action α) (s : Clients ι α) : Prop :=
  ∀ c d, a = (c, .allocate) → ¬ (s.client d).InAllocate

/-- The list is a stack with `gs` on it, and no object is lost. -/
structure IsStack (objects : List α) (s : Clients ι α) (gs : List α) : Prop extends s.Inv gs where
  /-- A link that has been read is that of its object, as long as the object is on the list. -/
  read : ∀ c ret next, s.client c = .pop ret next → ret ∈ gs → s.next ret = next
  /-- Every object is on the list or owned. -/
  cover : ∀ x, x ∈ objects ↔ x ∈ gs ∨ ∃ d, x ∈ s.owns d

section IsStack

variable {objects gs : List α} {s s' : Clients ι α} {c : ι} {a : ι × Action α}

namespace IsStack

/-- A client links an object of its own, which is not on the stack. -/
theorem setNext [DecidableEq α] (h : s.IsStack objects gs) {object : α} (howns : object ∈ s.owns c)
    (hpush : ∀ cur, s.client c ≠ .push object cur) (value : Option α) :
    (s.setNext object value).IsStack objects gs := by
  refine ⟨h.toInv.setNext howns hpush value, fun d ret next hd hret => ?_, h.cover⟩
  have hne : ret ≠ object := by
    rintro rfl
    exact h.not_listed c ret howns hret
  exact (Function.update_of_ne hne ..).trans (h.read d ret next hd hret)

variable [DecidableEq ι]

/-- A client goes on without an exchange. -/
theorem goto (h : s.IsStack objects gs) {activity : Activity α}
    (hstore : ∀ x cur, activity = .store x cur → x ∈ s.owns c)
    (hpush : ∀ x cur, activity = .push x cur → x ∈ s.owns c ∧ s.next x = cur)
    (hread : ∀ ret next, activity = .pop ret next → s.next ret = next) :
    (s.goto c activity).IsStack objects gs := by
  refine ⟨h.toInv.goto hstore hpush, fun d ret next hd hret => ?_, h.cover⟩
  rw [client_goto] at hd
  split_ifs at hd with hdc
  · exact hread ret next hd
  · exact h.read d ret next hd hret

variable [DecidableEq α]

/-- The object on top is taken. -/
theorem take (h : s.IsStack objects gs) {ret : α} (hhead : s.head = some ret) :
    ∃ rest, gs = ret :: rest ∧ (s.take c ret (s.next ret)).IsStack objects rest := by
  have hthreaded := h.threaded
  rw [hhead] at hthreaded
  obtain ⟨rest, rfl, hrest⟩ := hthreaded.pop
  -- The rest of the list is what the links say, so it is what the exchange leaves.
  obtain ⟨gs', hinv⟩ := h.toInv.take (c := c) hhead fun x hx => ⟨x, hx, .refl⟩
  obtain rfl : gs' = rest := hinv.threaded.unique hrest
  refine ⟨gs', rfl, hinv, fun d r next hd hr => h.read d r next hd (List.mem_cons_of_mem _ hr),
    fun x => (h.cover x).trans ?_⟩
  simp only [Clients.take, mem_update_insert, List.mem_cons]
  -- The object goes from the list to its new owner.
  constructor
  · rintro ((rfl | hx) | ⟨d, hd⟩)
    · exact .inr ⟨c, .inl ⟨rfl, rfl⟩⟩
    · exact .inl hx
    · exact .inr ⟨d, .inr hd⟩
  · rintro (hx | ⟨d, ⟨-, rfl⟩ | hd⟩)
    · exact .inl (.inr hx)
    · exact .inl (.inl rfl)
    · exact .inr ⟨d, hd⟩

/-- An object is given back that no client is about to take. -/
theorem give (h : s.IsStack objects gs) {node : α} (hc : s.client c = .idle)
    (howns : node ∈ s.owns c) (hlink : s.next node = s.head)
    (hclear : ∀ d next, s.client d ≠ .pop node next) :
    (s.give c node).IsStack objects (node :: gs) := by
  -- A link that was read for another object is still right, and nobody has read that of this one.
  refine ⟨h.toInv.give hc howns hlink, fun d ret next hd hret => ?_, fun x => (h.cover x).trans ?_⟩
  · rcases List.mem_cons.mp hret with rfl | hret
    · exact absurd hd (hclear d next)
    · exact h.read d ret next hd hret
  · simp only [Clients.give, mem_update_erase, List.mem_cons]
    constructor
    · rintro (hx | ⟨d, hd⟩)
      · exact .inl (.inr hx)
      · by_cases he : d = c ∧ x = node
        · exact .inl (.inl he.2)
        · exact .inr ⟨d, he, hd⟩
    · rintro ((rfl | hx) | ⟨d, -, hd⟩)
      · exact .inr ⟨c, howns⟩
      · exact .inl hx
      · exact .inr ⟨d, hd⟩

omit [DecidableEq ι] [DecidableEq α] in
/-- A load of the head is a call that returns null, if the list is empty. -/
theorem load (h : s.IsStack objects gs) (c : ι) : Run StackStep (s.loadCalls c) gs gs := by
  have hthreaded := h.threaded
  unfold loadCalls
  cases hhead : s.head with
  | some x => exact .nil gs
  | none =>
    rw [hhead] at hthreaded
    obtain rfl : gs = [] := hthreaded
    exact .cons .none (.nil [])

/-- Each step makes its call on the stack. -/
theorem step (h : s.IsStack objects gs) (hclear : Clear a s) (hstep : Step a s s') :
    ∃ gs', Run StackStep (s.calls a) gs gs' ∧ s'.IsStack objects gs' := by
  cases hstep with
  | allocate hc => exact ⟨gs, h.load _, h.goto (by simp) (by simp) (by simp)⟩
  | returnNull hc => exact ⟨gs, .nil gs, h.goto (by simp) (by simp) (by simp)⟩
  | readNext hc =>
    refine ⟨gs, .nil gs, h.goto (by simp) (by simp) fun ret next heq => ?_⟩
    obtain ⟨rfl, rfl⟩ := Activity.pop.inj heq
    rfl
  -- The link that was read is still right, so the rest of the stack becomes the list.
  | @popped _ c ret next hc hhead =>
    have hidle : (s.goto c .idle).IsStack objects gs := h.goto (by simp) (by simp) (by simp)
    obtain ⟨rest, rfl, htake⟩ := hidle.take hhead
    obtain rfl : s.next ret = next := h.read c ret next hc List.mem_cons_self
    refine ⟨rest, ?_, htake⟩
    simp only [calls, hc]
    exact .cons .take (.nil rest)
  | popFailed hc => exact ⟨gs, h.load _, h.goto (by simp) (by simp) (by simp)⟩
  | free hc howns => exact ⟨gs, .nil gs, h.goto (by simpa using howns) (by simp) (by simp)⟩
  | @storeNext _ c node curHead hc =>
    have howns := h.owns_store _ _ _ hc
    have hset := h.setNext howns (by simp [hc]) curHead
    refine ⟨gs, .nil gs, hset.goto (by simp) (fun x cur heq => ?_) (by simp)⟩
    obtain ⟨rfl, rfl⟩ := Activity.push.inj heq
    exact ⟨howns, Function.update_self ..⟩
  -- No client is about to pop the object that comes on top.
  | @pushed _ c node curHead hc hhead =>
    have hidle : (s.goto c .idle).IsStack objects gs := h.goto (by simp) (by simp) (by simp)
    have hlink : s.next node = s.head := (h.linked _ _ _ hc).trans hhead.symm
    refine ⟨node :: gs, ?_,
      hidle.give (by rw [client_goto, if_pos rfl]) (h.owns_push _ _ _ hc) hlink ?_⟩
    · simp only [calls, hc]
      exact .cons .give (.nil _)
    · intro d next hd
      rw [client_goto] at hd
      split_ifs at hd
      exact hclear c node curHead d next rfl hc hd
  | pushFailed hc =>
    have howns := h.owns_push _ _ _ hc
    exact ⟨gs, .nil gs, h.goto (by simpa using howns) (by simp) (by simp)⟩
  | write hc howns => exact ⟨gs, .nil gs, h.setNext howns (by simp [hc]) _⟩

end IsStack

/-- The objects that are on the list before the first call. -/
theorem Started.isStack (h : s.Started) (hgs : Threaded s.next s.head gs) : s.IsStack gs gs := by
  obtain ⟨gs', hinv⟩ := h.inv
  obtain rfl := hinv.threaded.unique hgs
  exact ⟨hinv, by simp [h.idle], by simp [h.owns_nothing]⟩

end IsStack

/-! ## A lock around `Allocate` -/

/-- At most one client is in `Allocate`, and the object that it is about to take is on the list. -/
structure Locked (s : Clients ι α) (gs : List α) : Prop where
  /-- One client at most is in `Allocate`. -/
  one : ∀ c d, (s.client c).InAllocate → (s.client d).InAllocate → c = d
  /-- The object that it is about to take is on the list. -/
  ret_mem : ∀ c x, (s.client c).ret = some x → x ∈ gs

section Locked

variable {objects gs : List α} {s s' : Clients ι α} {c : ι} {a : ι × Action α}

namespace Locked

/-- A client goes on without an exchange, alone in `Allocate` if it is there. -/
theorem goto [DecidableEq ι] (h : s.Locked gs) {activity : Activity α}
    (hone : activity.InAllocate → ∀ d, (s.client d).InAllocate → d = c)
    (hret : ∀ x, activity.ret = some x → x ∈ gs) : (s.goto c activity).Locked gs := by
  refine ⟨fun d e hd he => ?_, fun d x hd => ?_⟩
  · simp only [client_goto] at hd he
    split_ifs at hd he with hdc hec hec
    · rw [hdc, hec]
    · exact hdc.trans (hone hd e he).symm
    · exact (hone he d hd).trans hec.symm
    · exact h.one d e hd he
  · rw [client_goto] at hd
    split_ifs at hd
    · exact hret x hd
    · exact h.ret_mem d x hd

/-- Where the only client in `Allocate` leaves it, no client is about to take an object. -/
theorem ret_eq_none [DecidableEq ι] (h : s.Locked gs) (hc : (s.client c).InAllocate) (d : ι) :
    ((s.goto c .idle).client d).ret = none := by
  rw [client_goto]
  split_ifs with hdc
  · rfl
  · have hd : ¬ (s.client d).InAllocate := fun hd => hdc (h.one d c hd hc)
    revert hd
    cases s.client d <;> simp [Activity.InAllocate, Activity.ret]

/-- An object on the list is not one that a client is about to push. -/
theorem clear (h : s.Locked gs) (hs : s.Inv gs) : Clear a s := by
  rintro c node cur d next rfl hc hd
  exact hs.not_listed c node (hs.owns_push c node cur hc) (h.ret_mem d node (by rw [hd]; rfl))

/-- What a load of the head finds is on the list. -/
theorem load [DecidableEq ι] (h : s.Locked gs) (hs : s.IsStack objects gs)
    (hone : ∀ d, (s.client d).InAllocate → d = c) : (s.goto c (.test s.head)).Locked gs := by
  refine h.goto (fun _ => hone) fun x hx => ?_
  exact hs.threaded.mem_iff_onList.mpr ⟨x, hx, .refl⟩

variable [DecidableEq ι] [DecidableEq α]

/-- Each step keeps the lock. -/
theorem step (h : s.Locked gs) (hs : s.IsStack objects gs) (halone : Alone a s)
    (hstep : Step a s s') :
    ∃ gs', Run StackStep (s.calls a) gs gs' ∧ s'.IsStack objects gs' ∧ s'.Locked gs' := by
  obtain ⟨gs', hrun, hs'⟩ := hs.step (h.clear hs.toInv) hstep
  refine ⟨gs', hrun, hs', ?_⟩
  cases hstep with
  | @allocate _ c hc =>
    obtain rfl : gs' = gs := hs'.threaded.unique hs.threaded
    exact h.load hs fun d hd => absurd hd (halone c d rfl)
  | returnNull hc =>
    obtain rfl : gs' = gs := hs'.threaded.unique hs.threaded
    exact h.goto (by simp [Activity.InAllocate]) (by simp [Activity.ret])
  | @readNext _ c ret hc =>
    obtain rfl : gs' = gs := hs'.threaded.unique hs.threaded
    refine h.goto (fun _ d hd => h.one d c hd (by rw [hc]; trivial)) fun x hx => ?_
    exact h.ret_mem c x (by rw [hc]; exact hx)
  -- The client was the only one in `Allocate`, so nobody holds a link any more.
  | @popped _ c ret next hc hhead =>
    have hnone := h.ret_eq_none (c := c) (by rw [hc]; trivial)
    have hidle : (s.goto c .idle).Locked gs :=
      h.goto (by simp [Activity.InAllocate]) (by simp [Activity.ret])
    exact ⟨hidle.one, fun d x hd => absurd ((hnone d).symm.trans hd) (by simp)⟩
  | @popFailed _ c ret next hc =>
    obtain rfl : gs' = gs := hs'.threaded.unique hs.threaded
    exact h.load hs fun d hd => h.one d c hd (by rw [hc]; trivial)
  | free hc howns =>
    obtain rfl : gs' = gs := hs'.threaded.unique hs.threaded
    exact h.goto (by simp [Activity.InAllocate]) (by simp [Activity.ret])
  | @storeNext _ c node curHead hc =>
    cases hrun
    have hset : (s.setNext node curHead).Locked gs := ⟨h.one, h.ret_mem⟩
    exact hset.goto (by simp [Activity.InAllocate]) (by simp [Activity.ret])
  -- The stack grows, so the objects that are held stay on it.
  | @pushed _ c node curHead hc hhead =>
    have hidle : (s.goto c .idle).Locked gs :=
      h.goto (by simp [Activity.InAllocate]) (by simp [Activity.ret])
    have hlink : s.next node = s.head := (hs.linked _ _ _ hc).trans hhead.symm
    obtain rfl : gs' = node :: gs := hs'.threaded.unique (hs.threaded.push hlink)
    exact ⟨hidle.one, fun d x hd => List.mem_cons_of_mem _ (hidle.ret_mem d x hd)⟩
  | pushFailed hc =>
    obtain rfl : gs' = gs := hs'.threaded.unique hs.threaded
    exact h.goto (by simp [Activity.InAllocate]) (by simp [Activity.ret])
  | write hc howns =>
    cases hrun
    exact ⟨h.one, h.ret_mem⟩

end Locked

/-- At the start no client is in `Allocate`. -/
theorem Started.locked (h : s.Started) (gs : List α) : s.Locked gs :=
  ⟨by simp [h.idle, Activity.InAllocate], by simp [h.idle, Activity.ret]⟩

end Locked

/-! ## The runs -/

section Runs

variable [DecidableEq ι] [DecidableEq α]

/-- If no object is pushed while a client is about to take it by a link that it has read, the
clients use a stack: every run makes its calls on a stack one at a time, and at its end the list is
what is on the stack, every object of the first list is either on it or owned by one client, and
there are no others. -/
theorem stack_of_clear (s s' : Clients ι α) (gs : List α)
    (as : List ((ι × Action α) × List (ι × StackCall α))) (hstart : s.Started)
    (hgs : Threaded s.next s.head gs) (hrun : Run (Traced Step Clear calls) as s s') :
    ∃ gs', Run StackStep (as.flatMap Prod.snd) gs gs' ∧ Threaded s'.next s'.head gs' ∧ s'.Safe ∧
      ∀ x, x ∈ gs ↔ x ∈ gs' ∨ ∃ d, x ∈ s'.owns d := by
  obtain ⟨gs', hcalls, h'⟩ := hrun.refines (fun s gs' => s.IsStack gs gs')
    (fun a s s' t hstep hclear h => h.step hclear hstep) (hstart.isStack hgs)
  exact ⟨gs', hcalls, h'.threaded, h'.toInv.safe, h'.cover⟩

/-- Both clients read the link of object 0. One of them takes it, and gives it back after the
exchange of the other one has failed. -/
theorem stack_twoObjects_of_clear :
    ∃ (s : Clients Bool ℕ) (gs : List ℕ), Run (Traced Step Clear calls)
        [((false, .allocate), []), ((false, .readNext), []), ((true, .allocate), []),
          ((true, .readNext), []), ((true, .popped), [(true, .take 0)]), ((false, .popFailed), []),
          ((true, .free 0), []), ((true, .storeNext), []),
          ((true, .pushed), [(true, .give 0)])] twoObjects s ∧
      Run StackStep [(true, .take 0), (true, .give 0)] [0, 1] gs ∧
      Threaded s.next s.head gs ∧ s.Safe := by
  -- The first client has read the link of object 0, but its exchange has failed before object 0 is
  -- pushed.
  obtain ⟨s, hrun⟩ : ∃ s, Run (Traced Step Clear calls)
      [((false, .allocate), []), ((false, .readNext), []), ((true, .allocate), []),
        ((true, .readNext), []), ((true, .popped), [(true, .take 0)]), ((false, .popFailed), []),
        ((true, .free 0), []), ((true, .storeNext), []),
        ((true, .pushed), [(true, .give 0)])] twoObjects s :=
    ⟨_, .cons ⟨.allocate rfl, by simp [Clear], rfl⟩ <|
      .cons ⟨.readNext rfl, by simp [Clear], rfl⟩ <|
      .cons ⟨.allocate rfl, by simp [Clear], rfl⟩ <|
      .cons ⟨.readNext rfl, by simp [Clear], rfl⟩ <|
      .cons ⟨.popped rfl rfl, by simp [Clear], rfl⟩ <|
      .cons ⟨.popFailed rfl, by simp [Clear], rfl⟩ <|
      .cons ⟨.free rfl (by decide), by simp [Clear], rfl⟩ <|
      .cons ⟨.storeNext rfl, by simp [Clear], rfl⟩ <|
      .cons ⟨.pushed rfl rfl, by
        intro c node cur d next _ _ hd
        cases d with
        | false => exact absurd (show Activity.test (some 1) = .pop node next from hd) (by simp)
        | true =>
          exact absurd (show Activity.push 0 (some 1) = .pop node next from hd) (by simp), rfl⟩ <|
      .nil _⟩
  obtain ⟨gs, hcalls, hgs, hsafe, -⟩ := stack_of_clear twoObjects s [0, 1] _ started_twoObjects
    (.up rfl (.root rfl)) hrun
  exact ⟨s, gs, hrun, hcalls, hgs, hsafe⟩

/-- With a lock around `Allocate` the clients use a stack, however many of them are in `Free`. -/
theorem stack_of_alone (s s' : Clients ι α) (gs : List α)
    (as : List ((ι × Action α) × List (ι × StackCall α))) (hstart : s.Started)
    (hgs : Threaded s.next s.head gs) (hrun : Run (Traced Step Alone calls) as s s') :
    ∃ gs', Run StackStep (as.flatMap Prod.snd) gs gs' ∧ Threaded s'.next s'.head gs' ∧ s'.Safe ∧
      ∀ x, x ∈ gs ↔ x ∈ gs' ∨ ∃ d, x ∈ s'.owns d := by
  obtain ⟨gs', hcalls, h', -⟩ := hrun.refines (fun s gs' => s.IsStack gs gs' ∧ s.Locked gs')
    (fun a s s' t hstep halone h => h.2.step h.1 halone hstep)
    ⟨hstart.isStack hgs, hstart.locked gs⟩
  exact ⟨gs', hcalls, h'.threaded, h'.toInv.safe, h'.cover⟩

/-- A client takes object 0. While the other one takes object 1, it gives object 0 back. -/
theorem stack_twoObjects_of_alone :
    ∃ (s : Clients Bool ℕ) (gs : List ℕ), Run (Traced Step Alone calls)
        [((true, .allocate), []), ((true, .readNext), []), ((true, .popped), [(true, .take 0)]),
          ((false, .allocate), []), ((true, .free 0), []), ((false, .readNext), []),
          ((false, .popped), [(false, .take 1)]), ((true, .storeNext), []),
          ((true, .pushFailed), []), ((true, .storeNext), []),
          ((true, .pushed), [(true, .give 0)])] twoObjects s ∧
      Run StackStep [(true, .take 0), (false, .take 1), (true, .give 0)] [0, 1] gs ∧
      Threaded s.next s.head gs ∧ s.Safe := by
  -- Only one client at a time is inside `Allocate`.
  obtain ⟨s, hrun⟩ : ∃ s, Run (Traced Step Alone calls)
      [((true, .allocate), []), ((true, .readNext), []), ((true, .popped), [(true, .take 0)]),
        ((false, .allocate), []), ((true, .free 0), []), ((false, .readNext), []),
        ((false, .popped), [(false, .take 1)]), ((true, .storeNext), []), ((true, .pushFailed), []),
        ((true, .storeNext), []), ((true, .pushed), [(true, .give 0)])] twoObjects s :=
    ⟨_, .cons ⟨.allocate rfl, fun _ _ _ h => h, rfl⟩ <|
      .cons ⟨.readNext rfl, by simp [Alone], rfl⟩ <|
      .cons ⟨.popped rfl rfl, by simp [Alone], rfl⟩ <|
      .cons ⟨.allocate rfl, fun _ d _ h => by cases d <;> exact h, rfl⟩ <|
      .cons ⟨.free rfl (by decide), by simp [Alone], rfl⟩ <|
      .cons ⟨.readNext rfl, by simp [Alone], rfl⟩ <|
      .cons ⟨.popped rfl rfl, by simp [Alone], rfl⟩ <|
      .cons ⟨.storeNext rfl, by simp [Alone], rfl⟩ <|
      .cons ⟨.pushFailed rfl, by simp [Alone], rfl⟩ <|
      .cons ⟨.storeNext rfl, by simp [Alone], rfl⟩ <|
      .cons ⟨.pushed rfl rfl, by simp [Alone], rfl⟩ <| .nil _⟩
  obtain ⟨gs, hcalls, hgs, hsafe, -⟩ := stack_of_alone twoObjects s [0, 1] _ started_twoObjects
    (.up rfl (.root rfl)) hrun
  exact ⟨s, gs, hrun, hcalls, hgs, hsafe⟩

end Runs

end Clients

end SwiftRuntime.Common
