import SwiftRuntime.Ancestors

/-!
# Free lists

A stack of nodes that is kept in the nodes themselves: the head is the node on top, and every node
has a link to the one below it. `Threaded next head gs` says that the links from the head lead
through the nodes `gs` and end there. The nodes are then different ones, and they are those that
following the links from the head leads to (`mem_iff_onList`).

A node is pushed by a link to the head (`push`). The link of the node on top is the head after it
has been popped (`pop`), and a link to a node farther down cuts off what is in between (`cut`).
-/

namespace SwiftRuntime

variable {ι : Type*} {next next' : ι → Option ι} {head : Option ι} {g x : ι} {gs : List ι}

/-- Following the links from the head leads to a node. -/
def OnList (next : ι → Option ι) (head : Option ι) (x : ι) : Prop :=
  ∃ g, head = some g ∧ Ascends next g x

/-- The links from the head lead through the nodes of a list. -/
def Threaded (next : ι → Option ι) : Option ι → List ι → Prop
  | none, gs => gs = []
  | some g, gs => Chain next g gs

namespace Threaded

/-- A list that ends has no node twice. -/
theorem nodup (h : Threaded next head gs) : gs.Nodup := by
  cases head with
  | none =>
    rw [show gs = [] from h]
    exact List.nodup_nil
  | some g => exact Chain.nodup h

/-- The nodes of a list are those that are met from its head. -/
theorem mem_iff_onList (h : Threaded next head gs) : x ∈ gs ↔ OnList next head x := by
  cases head with
  | none =>
    rw [show gs = [] from h]
    simp [OnList]
  | some g => simpa [OnList] using Chain.mem_iff_ascends h

/-- The list depends on the links of its nodes. -/
theorem congr (h : Threaded next head gs) (hsame : ∀ x ∈ gs, next' x = next x) :
    Threaded next' head gs := by
  cases head with
  | none => exact h
  | some g => exact Chain.congr h hsame

/-- A node with a link to the head is the new head. -/
theorem push (h : Threaded next head gs) (hx : next x = head) :
    Threaded next (some x) (x :: gs) := by
  cases head with
  | none =>
    rw [show gs = [] from h]
    exact .root hx
  | some g => exact .up hx h

/-- Below the node on top is the list of its link. -/
theorem pop (h : Threaded next (some g) gs) :
    ∃ rest, gs = g :: rest ∧ Threaded next (next g) rest := by
  cases h with
  | root hroot => exact ⟨[], rfl, by rw [hroot]; rfl⟩
  | up hp hrest => exact ⟨_, rfl, by rw [hp]; exact hrest⟩

/-- The links determine the list. -/
theorem unique {gs' : List ι} (h : Threaded next head gs) (h' : Threaded next head gs') :
    gs = gs' := by
  cases head with
  | none => exact (show gs = [] from h).trans (show gs' = [] from h').symm
  | some g => exact Chain.unique h h'

/-- From a node of the list on, the links lead through the rest of the list. -/
theorem cut (h : Threaded next head gs) (hx : x ∈ gs) :
    ∃ above below, gs = above ++ x :: below ∧ Threaded next (some x) (x :: below) := by
  cases head with
  | none =>
    rw [show gs = [] from h] at hx
    cases hx
  | some g => exact Chain.exists_of_mem h hx

end Threaded

end SwiftRuntime
