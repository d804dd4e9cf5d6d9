import Mathlib.Data.Finset.Erase
import Mathlib.Data.Finset.Insert
import SwiftRuntime.FreeList
import SwiftRuntime.Loop

/-!
# The list of a slab under several clients

`SlabAllocator::Allocate` and `Free` of `runtime/common/slab_alloc.cc`, run by any number of clients
at the same time. A step is one access to the memory they share: a load of the head, the read or the
store of a link, or a compare-exchange of the head. The steps of the clients may come in any order.

`Allocate` installs a link that it has read some steps before. The exchange makes sure that the head
is the object the link was read from, but not that the object has been on the list all the time with
the same link: others may have taken it together with the ones below, and put it back
(`handed_out_twice`). The links that are installed must lead to the list behind the object that is
taken (`Guarded`), and that is all that is needed (`safe_of_guarded`). Any other link leads to an
object that a client owns, or to one that is lost (`not_safe_of_not_guarded`).
-/

namespace SwiftRuntime.Common

/-- Where a client is. -/
inductive Activity (α : Type*)
  /-- Outside of the two functions. -/
  | idle
  /-- In `Allocate`, before the test of `ret`. -/
  | test (ret : Option α)
  /-- In `Allocate`, before the exchange of `ret` for the link that has been read. -/
  | pop (ret : α) (next : Option α)
  /-- In `Free`, before the store of `cur_head` to the link of `node`. -/
  | store (node : α) (curHead : Option α)
  /-- In `Free`, before the exchange of `cur_head` for `node`. -/
  | push (node : α) (curHead : Option α)

/-- The steps of a client. -/
inductive Action (α : Type*)
  /-- `Allocate` loads the head. -/
  | allocate
  /-- `ret` is null, and is returned. -/
  | returnNull
  /-- `ret->next` is read. -/
  | readNext
  /-- The exchange of `Allocate` succeeds. -/
  | popped
  /-- The exchange of `Allocate` fails. -/
  | popFailed
  /-- `Free` loads the head. -/
  | free (node : α)
  /-- `node->next` is stored. -/
  | storeNext
  /-- The exchange of `Free` succeeds. -/
  | pushed
  /-- The exchange of `Free` fails. -/
  | pushFailed
  /-- A client that owns an object writes to where its link was. -/
  | write (object : α) (value : Option α)

/-- The list, the clients and the objects that they own. -/
structure Clients (ι α : Type*) where
  /-- `head`. -/
  head : Option α
  /-- The links in the objects. -/
  next : α → Option α
  /-- Where the clients are. -/
  client : ι → Activity α
  /-- The objects that a client owns, from the exchange that takes them to the one that gives them
  back. -/
  owns : ι → Finset α

namespace Clients

section Steps

variable {ι α : Type*} [DecidableEq ι] [DecidableEq α]

/-- A client goes on to another place. -/
def goto (s : Clients ι α) (c : ι) (activity : Activity α) : Clients ι α :=
  { s with client := Function.update s.client c activity }

/-- The exchange of `Allocate`: the client owns `ret`. -/
def take (s : Clients ι α) (c : ι) (ret : α) (next : Option α) : Clients ι α :=
  { s with
    head := next
    owns := Function.update s.owns c (insert ret (s.owns c)) }

/-- The exchange of `Free`: the client does not own `node` any more. -/
def give (s : Clients ι α) (c : ι) (node : α) : Clients ι α :=
  { s with
    head := some node
    owns := Function.update s.owns c ((s.owns c).erase node) }

/-- A store to the link of an object. -/
def setNext (s : Clients ι α) (object : α) (value : Option α) : Clients ι α :=
  { s with next := Function.update s.next object value }

/-- The steps. An exchange may fail for no reason, and a failed one loads the head. -/
inductive Step : ι × Action α → Clients ι α → Clients ι α → Prop
  | allocate {s : Clients ι α} {c : ι} (h : s.client c = .idle) :
    Step (c, .allocate) s (s.goto c (.test s.head))
  | returnNull {s : Clients ι α} {c : ι} (h : s.client c = .test none) :
    Step (c, .returnNull) s (s.goto c .idle)
  | readNext {s : Clients ι α} {c : ι} {ret : α} (h : s.client c = .test (some ret)) :
    Step (c, .readNext) s (s.goto c (.pop ret (s.next ret)))
  | popped {s : Clients ι α} {c : ι} {ret : α} {next : Option α} (h : s.client c = .pop ret next)
      (hhead : s.head = some ret) :
    Step (c, .popped) s ((s.goto c .idle).take c ret next)
  | popFailed {s : Clients ι α} {c : ι} {ret : α} {next : Option α}
      (h : s.client c = .pop ret next) :
    Step (c, .popFailed) s (s.goto c (.test s.head))
  | free {s : Clients ι α} {c : ι} {node : α} (h : s.client c = .idle) (howns : node ∈ s.owns c) :
    Step (c, .free node) s (s.goto c (.store node s.head))
  | storeNext {s : Clients ι α} {c : ι} {node : α} {curHead : Option α}
      (h : s.client c = .store node curHead) :
    Step (c, .storeNext) s ((s.setNext node curHead).goto c (.push node curHead))
  | pushed {s : Clients ι α} {c : ι} {node : α} {curHead : Option α}
      (h : s.client c = .push node curHead) (hhead : s.head = curHead) :
    Step (c, .pushed) s ((s.goto c .idle).give c node)
  | pushFailed {s : Clients ι α} {c : ι} {node : α} {curHead : Option α}
      (h : s.client c = .push node curHead) :
    Step (c, .pushFailed) s (s.goto c (.store node s.head))
  | write {s : Clients ι α} {c : ι} {object : α} {value : Option α} (h : s.client c = .idle)
      (howns : object ∈ s.owns c) :
    Step (c, .write object value) s (s.setNext object value)

end Steps

variable {ι α : Type*}

/-- Before the first call: no client owns an object, and the head leads through a list. -/
structure Started (s : Clients ι α) : Prop where
  /-- No client is at work. -/
  idle : ∀ c, s.client c = .idle
  /-- No client has an object. -/
  owns_nothing : ∀ c, s.owns c = ∅
  /-- The links from the head end. -/
  threaded : ∃ gs, Threaded s.next s.head gs

/-- No object is owned by two clients, or owned by one and on the list. -/
structure Safe (s : Clients ι α) : Prop where
  /-- No two clients own the same object. -/
  owned_once : ∀ c d x, x ∈ s.owns c → x ∈ s.owns d → c = d
  /-- Objects on the list are owned by no client. -/
  not_onList : ∀ c x, x ∈ s.owns c → ¬ OnList s.next s.head x

/-- The condition on an exchange of `Allocate` that succeeds: the link that it installs is null or
one to an object on the list behind the object that is taken. -/
def Guarded (a : ι × Action α) (s : Clients ι α) : Prop :=
  ∀ c ret x, a = (c, .popped) → s.client c = .pop ret (some x) → OnList s.next (s.next ret) x

/-! ## The invariant -/

/-- The state of the clients while the head leads through the objects `gs`. -/
structure Inv (s : Clients ι α) (gs : List α) : Prop where
  /-- The list. -/
  threaded : Threaded s.next s.head gs
  /-- No two clients own the same object. -/
  owned_once : ∀ c d x, x ∈ s.owns c → x ∈ s.owns d → c = d
  /-- No client owns an object of the list. -/
  not_listed : ∀ c x, x ∈ s.owns c → x ∉ gs
  /-- A client owns the object that it is about to link or to push. -/
  owns_store : ∀ c x h, s.client c = .store x h → x ∈ s.owns c
  /-- A client owns the object that it is about to push. -/
  owns_push : ∀ c x h, s.client c = .push x h → x ∈ s.owns c
  /-- The link of an object that is about to be pushed. -/
  linked : ∀ c x h, s.client c = .push x h → s.next x = h

variable {s s' : Clients ι α} {gs : List α} {c : ι} {a : ι × Action α} {as : List (ι × Action α)}

/-- The other clients are where they were. -/
theorem client_goto [DecidableEq ι] {d : ι} {activity : Activity α} :
    (s.goto c activity).client d = if d = c then activity else s.client d :=
  Function.update_apply ..

/-- A client takes an object. -/
theorem mem_update_insert [DecidableEq ι] [DecidableEq α] {owns : ι → Finset α} {d : ι} {x y : α} :
    x ∈ Function.update owns c (insert y (owns c)) d ↔ d = c ∧ x = y ∨ x ∈ owns d := by
  by_cases h : d = c
  · subst h
    simp
  · simp [h]

/-- A client gives an object back. -/
theorem mem_update_erase [DecidableEq ι] [DecidableEq α] {owns : ι → Finset α} {d : ι} {x y : α} :
    x ∈ Function.update owns c ((owns c).erase y) d ↔ ¬ (d = c ∧ x = y) ∧ x ∈ owns d := by
  by_cases h : d = c
  · subst h
    simp
  · simp [h]

namespace Inv

/-- A write to an object that a client owns, when the client is not about to push it. -/
theorem setNext [DecidableEq α] (h : s.Inv gs) {object : α} (howns : object ∈ s.owns c)
    (hpush : ∀ cur, s.client c ≠ .push object cur) (value : Option α) :
    (s.setNext object value).Inv gs := by
  refine ⟨?_, h.owned_once, h.not_listed, h.owns_store, h.owns_push, fun d x cur hd => ?_⟩
  · refine h.threaded.congr fun x hx => Function.update_of_ne ?_ ..
    rintro rfl
    exact h.not_listed c x howns hx
  · -- Another client is about to push another object.
    have hne : x ≠ object := by
      rintro rfl
      obtain rfl := h.owned_once c d x howns (h.owns_push d x cur hd)
      exact hpush cur hd
    exact (Function.update_of_ne hne ..).trans (h.linked d x cur hd)

variable [DecidableEq ι]

/-- A client that goes on, with an object of its own if it is about to link or to push one. -/
theorem goto (h : s.Inv gs) {activity : Activity α}
    (hstore : ∀ x cur, activity = .store x cur → x ∈ s.owns c)
    (hpush : ∀ x cur, activity = .push x cur → x ∈ s.owns c ∧ s.next x = cur) :
    (s.goto c activity).Inv gs := by
  -- Only client `c` is somewhere else.
  have hclient : ∀ d (b : Activity α), (s.goto c activity).client d = b →
      d = c ∧ activity = b ∨ s.client d = b := by
    intro d b hd
    rw [client_goto] at hd
    split_ifs at hd with hdc
    · exact .inl ⟨hdc, hd⟩
    · exact .inr hd
  refine ⟨h.threaded, h.owned_once, h.not_listed, fun d x cur hd => ?_, fun d x cur hd => ?_,
    fun d x cur hd => ?_⟩
  · rcases hclient d _ hd with ⟨rfl, hb⟩ | hd
    · exact hstore x cur hb
    · exact h.owns_store d x cur hd
  · rcases hclient d _ hd with ⟨rfl, hb⟩ | hd
    · exact (hpush x cur hb).1
    · exact h.owns_push d x cur hd
  · rcases hclient d _ hd with ⟨rfl, hb⟩ | hd
    · exact (hpush x cur hb).2
    · exact h.linked d x cur hd

variable [DecidableEq α]

/-- An object is taken, and the head is set to null or to an object behind it. -/
theorem take (h : s.Inv gs) {ret : α} {next : Option α} (hhead : s.head = some ret)
    (hnext : ∀ x, next = some x → OnList s.next (s.next ret) x) :
    ∃ gs', (s.take c ret next).Inv gs' := by
  have hthreaded := h.threaded
  rw [hhead] at hthreaded
  obtain ⟨rest, rfl, hrest⟩ := hthreaded.pop
  have hret : ret ∉ rest := (List.nodup_cons.mp hthreaded.nodup).1
  have hfree : ∀ d, ret ∉ s.owns d := fun d hd => h.not_listed d ret hd List.mem_cons_self
  -- The list behind the object that the head is set to.
  obtain ⟨gs', hgs', hsub⟩ : ∃ gs', Threaded s.next next gs' ∧ gs' ⊆ rest := by
    cases next with
    | none => exact ⟨[], rfl, List.nil_subset _⟩
    | some x =>
      obtain ⟨above, below, rfl, hcut⟩ := hrest.cut (hrest.mem_iff_onList.mpr (hnext x rfl))
      exact ⟨x :: below, hcut, List.subset_append_right _ _⟩
  refine ⟨gs', hgs', fun d e x hd he => ?_, fun d x hd hx => ?_, fun d x cur hd => ?_,
    fun d x cur hd => ?_, h.linked⟩
  · rcases mem_update_insert.mp hd with ⟨rfl, rfl⟩ | hd'
    · rcases mem_update_insert.mp he with ⟨rfl, -⟩ | he'
      · rfl
      · exact absurd he' (hfree e)
    · rcases mem_update_insert.mp he with ⟨-, rfl⟩ | he'
      · exact absurd hd' (hfree d)
      · exact h.owned_once d e x hd' he'
  · rcases mem_update_insert.mp hd with ⟨-, rfl⟩ | hd'
    · exact hret (hsub hx)
    · exact h.not_listed d x hd' (List.mem_cons_of_mem _ (hsub hx))
  · exact mem_update_insert.mpr (.inr (h.owns_store d x cur hd))
  · exact mem_update_insert.mpr (.inr (h.owns_push d x cur hd))

/-- An object with a link to the head is given back by a client that is done with it. -/
theorem give (h : s.Inv gs) {node : α} (hc : s.client c = .idle) (howns : node ∈ s.owns c)
    (hlink : s.next node = s.head) : (s.give c node).Inv (node :: gs) := by
  -- A client that is about to link or to push an object is another one.
  have hother : ∀ d x b, s.client d = b → b ≠ .idle → ¬ (d = c ∧ x = node) := by
    rintro d x b hd hb ⟨rfl, -⟩
    exact hb (hd.symm.trans hc)
  refine ⟨h.threaded.push hlink, fun d e x hd he => ?_, fun d x hd hx => ?_, fun d x cur hd => ?_,
    fun d x cur hd => ?_, h.linked⟩
  · exact h.owned_once d e x (mem_update_erase.mp hd).2 (mem_update_erase.mp he).2
  · obtain ⟨hne, howns'⟩ := mem_update_erase.mp hd
    rcases List.mem_cons.mp hx with rfl | hx
    · exact hne ⟨h.owned_once d c x howns' howns, rfl⟩
    · exact h.not_listed d x howns' hx
  · exact mem_update_erase.mpr ⟨hother d x _ hd (by simp), h.owns_store d x cur hd⟩
  · exact mem_update_erase.mpr ⟨hother d x _ hd (by simp), h.owns_push d x cur hd⟩

/-- A guarded step keeps the invariant. -/
theorem step (h : s.Inv gs) (hguard : Guarded a s) (hstep : Step a s s') : ∃ gs', s'.Inv gs' := by
  cases hstep with
  | allocate hc => exact ⟨gs, h.goto (by simp) (by simp)⟩
  | returnNull hc => exact ⟨gs, h.goto (by simp) (by simp)⟩
  | readNext hc => exact ⟨gs, h.goto (by simp) (by simp)⟩
  -- The exchange takes the head off, and the link that was read is still that of the object.
  | @popped _ c ret next hc hhead =>
    have hidle : (s.goto c .idle).Inv gs := h.goto (by simp) (by simp)
    refine hidle.take hhead fun x hx => ?_
    subst hx
    exact hguard c ret x rfl hc
  | popFailed hc => exact ⟨gs, h.goto (by simp) (by simp)⟩
  | free hc howns => exact ⟨gs, h.goto (by simpa using howns) (by simp)⟩
  -- The client owns the object that it links.
  | @storeNext _ c node curHead hc =>
    have howns := h.owns_store _ _ _ hc
    have hset := h.setNext howns (by simp [hc]) curHead
    refine ⟨gs, hset.goto (by simp) fun x cur heq => ?_⟩
    obtain ⟨rfl, rfl⟩ := Activity.push.inj heq
    exact ⟨howns, Function.update_self ..⟩
  -- The object has been linked to what is still the head.
  | @pushed _ c node curHead hc hhead =>
    have hidle : (s.goto c .idle).Inv gs := h.goto (by simp) (by simp)
    have hlink : s.next node = s.head := (h.linked _ _ _ hc).trans hhead.symm
    exact ⟨_, hidle.give (by rw [client_goto, if_pos rfl]) (h.owns_push _ _ _ hc) hlink⟩
  | pushFailed hc =>
    have howns := h.owns_push _ _ _ hc
    exact ⟨gs, h.goto (by simpa using howns) (by simp)⟩
  | write hc howns => exact ⟨gs, h.setNext howns (by simp [hc]) _⟩

end Inv

/-- The invariant holds at the start. -/
theorem Started.inv (h : s.Started) : ∃ gs, s.Inv gs := by
  obtain ⟨gs, hgs⟩ := h.threaded
  exact ⟨gs, hgs, by simp [h.owns_nothing], by simp [h.owns_nothing], by simp [h.idle],
    by simp [h.idle], by simp [h.idle]⟩

/-- The invariant says that no object is handed out twice. -/
theorem Inv.safe (h : s.Inv gs) : s.Safe :=
  ⟨h.owned_once, fun c x hx hon => h.not_listed c x hx (h.threaded.mem_iff_onList.mpr hon)⟩

variable [DecidableEq ι] [DecidableEq α]

/-- In every state that the clients come to by guarded steps, no object is owned by two clients, or
owned by one and on the list. -/
theorem safe_of_guarded (s s' : Clients ι α) (as : List (ι × Action α)) (hstart : s.Started)
    (hrun : Run (fun a s s' => Step a s s' ∧ Guarded a s) as s s') : s'.Safe := by
  have hinv : ∃ gs, s'.Inv gs := by
    refine hrun.invariant (fun s => ∃ gs, s.Inv gs) ?_ hstart.inv
    rintro a - s s' ⟨hstep, hguard⟩ ⟨gs, h⟩
    exact h.step hguard hstep
  obtain ⟨gs, hinv⟩ := hinv
  exact hinv.safe

/-- Where no object is lost, an exchange that is not guarded puts an object on the list that a
client owns. -/
theorem not_safe_of_not_guarded (h : s.Inv gs) (hcover : ∀ x, x ∈ gs ∨ ∃ d, x ∈ s.owns d)
    (hstep : Step a s s') (hguard : ¬ Guarded a s) : ¬ s'.Safe := by
  intro hsafe
  refine hguard fun c ret x ha hc => ?_
  subst ha
  cases hstep with
  | @popped _ _ ret' next hc' hhead =>
    obtain ⟨rfl, rfl⟩ := Activity.pop.inj (hc.symm.trans hc')
    have hthreaded := h.threaded
    rw [hhead] at hthreaded
    obtain ⟨rest, rfl, hrest⟩ := hthreaded.pop
    -- The head leads to the object now, so no client owns it.
    have hnot : ∀ d, ¬ (d = c ∧ x = ret ∨ x ∈ s.owns d) := fun d hd =>
      hsafe.not_onList d x (mem_update_insert.mpr hd) ⟨x, rfl, .refl⟩
    rcases hcover x with hmem | ⟨d, hd⟩
    · rcases List.mem_cons.mp hmem with hret | hmem
      · exact absurd (.inl ⟨rfl, hret⟩) (hnot c)
      · exact hrest.mem_iff_onList.mp hmem
    · exact absurd (.inr hd) (hnot d)

omit [DecidableEq ι] [DecidableEq α] in
/-- An exchange is guarded if the link has not changed since it was read. -/
theorem guarded_popped {ret : α} (hc : s.client c = .pop ret (s.next ret)) :
    Guarded (c, .popped) s := by
  rintro d ret' x heq hd
  obtain ⟨rfl, -⟩ := Prod.mk.inj heq
  obtain ⟨rfl, hx⟩ := Activity.pop.inj (hc.symm.trans hd)
  exact ⟨x, hx, .refl⟩

/-- Two clients, and a list of the objects 0 and 1. -/
def twoObjects : Clients Bool ℕ where
  head := some 0
  next x := if x = 0 then some 1 else none
  client _ := .idle
  owns _ := ∅

/-- Two objects on the list, and no client at work. -/
theorem started_twoObjects : twoObjects.Started :=
  ⟨fun _ => rfl, fun _ => rfl, [0, 1], .up rfl (.root rfl)⟩

/-- Both clients read the link of object 0, and one of them takes it. The exchange of the other one
fails, and it takes object 1. -/
theorem safe_twoObjects : ∃ s : Clients Bool ℕ, s.Safe ∧ s.owns false = {1} ∧
    s.owns true = {0} := by
  refine ⟨_, safe_of_guarded twoObjects _
    [(false, .allocate), (false, .readNext), (true, .allocate), (true, .readNext), (true, .popped),
      (false, .popFailed), (false, .readNext), (false, .popped)] started_twoObjects
    (.cons ⟨.allocate rfl, by simp [Guarded]⟩ <| .cons ⟨.readNext rfl, by simp [Guarded]⟩ <|
      .cons ⟨.allocate rfl, by simp [Guarded]⟩ <| .cons ⟨.readNext rfl, by simp [Guarded]⟩ <|
      .cons ⟨.popped rfl rfl, guarded_popped rfl⟩ <| .cons ⟨.popFailed rfl, by simp [Guarded]⟩ <|
      .cons ⟨.readNext rfl, by simp [Guarded]⟩ <| .cons ⟨.popped rfl rfl, guarded_popped rfl⟩ <|
      .nil _), ?_, ?_⟩
  · decide
  · decide

/-- A client reads the link of object 0. Before its exchange the other client takes both objects and
gives object 0 back, so that the exchange puts object 1 on the list that the other client owns. -/
theorem handed_out_twice :
    ∃ s : Clients Bool ℕ, twoObjects.Started ∧ Run Step
      [(false, .allocate), (false, .readNext),
        (true, .allocate), (true, .readNext), (true, .popped),
        (true, .allocate), (true, .readNext), (true, .popped),
        (true, .free 0), (true, .storeNext), (true, .pushed),
        (false, .popped), (false, .allocate), (false, .readNext), (false, .popped)] twoObjects s ∧
      1 ∈ s.owns false ∧ 1 ∈ s.owns true ∧ ¬ s.Safe := by
  -- The first client reads the link of object 0. The other one takes both objects and gives object
  -- 0 back.
  refine ⟨_, started_twoObjects,
    .cons (.allocate rfl) <| .cons (.readNext rfl) <|
      .cons (.allocate rfl) <| .cons (.readNext rfl) <| .cons (.popped rfl rfl) <|
      .cons (.allocate rfl) <| .cons (.readNext rfl) <| .cons (.popped rfl rfl) <|
      .cons (.free rfl (by decide)) <| .cons (.storeNext rfl) <| .cons (.pushed rfl rfl) <|
      .cons (.popped rfl rfl) <| .cons (.allocate rfl) <| .cons (.readNext rfl) <|
      .cons (.popped rfl rfl) <| .nil _, by decide, by decide, fun hsafe => ?_⟩
  exact absurd (hsafe.owned_once false true 1 (by decide) (by decide)) (by decide)

end Clients

end SwiftRuntime.Common
