import SwiftRuntime.IntrusiveList
import SwiftRuntime.Ir.Inst

/-!
# The destructor of a block

`Block::~Block` of `ir/block.cpp` goes over the list of the block's instructions and gives each of
them to `DestroyInst`, which takes the instruction out of the list and deletes it. The iterator of
the loop stands on the instruction meanwhile. Its increment reads the link of an instruction that
has been deleted, and the link leads to the instruction itself since it was taken out.

An instruction that has been deleted may not be accessed any more. Its memory goes back to a slab,
so it may as well still hold what it did, and then the loop destroys the same instruction again.
Both are followed here. In neither case does the destructor of a block with instructions return
(`destroyBlock_iff`).
-/

namespace SwiftRuntime.Ir

/-- What the destructor does, in order. -/
inductive DestroyEvent
  /-- A call of `DestroyInst`. -/
  | destroyInst (u : InstRef)
  /-- A call of `UnUse` on the definition of an argument. -/
  | unUse (v : InstRef)
  /-- The end of the `delete` of an instruction. -/
  | deleted (u : InstRef)
deriving DecidableEq, Repr

/-- The instructions and the links of the list of a block, whose root is `none`. -/
structure BlockMemory where
  /-- The instructions. -/
  heap : Heap
  /-- The links of the list. -/
  links : Links (Option InstRef)
  /-- What has been done. -/
  events : List DestroyEvent

/-- Code of the destructor. -/
abbrev DestroyM := EStateM Stop BlockMemory

section Code

variable (P : Platform) (keeps : Bool)

/-- An access to an instruction, where `keeps` tells whether the memory of a deleted one still holds
what it did. -/
def access (u : InstRef) : DestroyM Unit := do
  let s ← get
  require (keeps = true ∨ .deleted u ∉ s.events) .undefined

/-- An access to a node of the list. The root is a part of the block. -/
def accessNode : Option InstRef → DestroyM Unit
  | none => pure ()
  | some u => access keeps u

/-- Takes note of what is done. -/
def record (e : DestroyEvent) : DestroyM Unit :=
  modify fun s => { s with events := s.events ++ [e] }

/-- `erase` on the list. -/
def eraseInst (u : InstRef) : DestroyM Unit := do
  access keeps u
  let s ← get
  -- `iterator_to` asserts that the instruction is linked.
  require (P.listAsserts = true → s.links.next (some u) ≠ some u) .aborted
  let last := s.links.next (some u)
  forM [last, s.links.prev last, s.links.prev (some u)] (accessNode keeps)
  modify fun s => { s with links := s.links.unlink (some u) }

/-- `DestroyArg`, with the instructions that `UnUse` accesses: the definition, and the chain from
there to the instruction if it is a flag getter. -/
def releaseArg (u : InstRef) (i : Fin 4) : DestroyM Unit := do
  let s ← get
  match ((s.heap.inst u).args i).ref with
  | none => pure ()
  | some v => do
    record (.unUse v)
    access keeps v
    if (s.heap.inst u).op.isPseudoOperation then
      forM (passes (unUseBody P s.heap u v) (s.heap.count + 1) v) (access keeps)
    zoom BlockMemory.heap (fun h s => { s with heap := h }) (destroyArg P u i)

/-- `Block::DestroyInst`. -/
def blockDestroyInst (u : InstRef) : DestroyM Unit := do
  record (.destroyInst u)
  eraseInst P keeps u
  forM (List.finRange 4) (releaseArg P keeps u)
  record (.deleted u)

/-- The loop of the destructor from a node on, for a bounded number of passes. -/
def destroyLoop : ℕ → Option InstRef → DestroyM Unit
  | 0, _ => throw .endless
  | _ + 1, none => pure ()
  | fuel + 1, some u => do
    blockDestroyInst P keeps u
    -- The increment reads the link of the instruction.
    access keeps u
    let s ← get
    destroyLoop fuel (s.links.next (some u))

/-- `Block::~Block`. -/
def destroyBlock (fuel : ℕ) : DestroyM Unit := do
  let s ← get
  destroyLoop P keeps fuel (s.links.next none)

/-- Every instruction is destroyed once and no other one, and the definitions that are addressed
have not been deleted. -/
structure DestroyedOnce (insts : List InstRef) (events : List DestroyEvent) : Prop where
  /-- Each instruction is destroyed once. -/
  once : ∀ u ∈ insts, events.count (.destroyInst u) = 1
  /-- No other one is destroyed. -/
  only : ∀ u, .destroyInst u ∈ events → u ∈ insts
  /-- A definition whose use is removed has not been deleted. -/
  alive : ∀ before v after, events = before ++ .unUse v :: after → .deleted v ∉ before

/-- The destructor returns and has destroyed the instructions. -/
def Destroys (s : BlockMemory) (insts : List InstRef) : Prop :=
  ∃ fuel s', destroyBlock P keeps fuel s = .ok () s' ∧ DestroyedOnce insts s'.events

end Code

/-! ## The links -/

section Spec

variable {P : Platform} {keeps : Bool} {s s' : BlockMemory} {u : InstRef} {insts : List InstRef}
  {L : Links (Option InstRef)}

/-- Reading an instruction leaves the links alone. -/
theorem access_links (v : InstRef) : Keeps (fun s => s.links = L) (access keeps v) :=
  keeps_get.bind fun _ => keeps_require _ _

/-- So does reading a node of the list. -/
theorem accessNode_links (x : Option InstRef) :
    Keeps (fun s => s.links = L) (accessNode keeps x) := by
  cases x with
  | none => exact keeps_pure ()
  | some v => exact access_links v

/-- So does putting an event on record. -/
theorem record_links (e : DestroyEvent) : Keeps (fun s => s.links = L) (record e) :=
  keeps_modify fun _ h => h

/-- The destructor of an instruction does not change the list. -/
theorem releaseArg_links (i : Fin 4) : Keeps (fun s => s.links = L) (releaseArg P keeps u i) := by
  refine keeps_get.bind fun s => ?_
  cases ((s.heap.inst u).args i).ref with
  | none => exact keeps_pure ()
  | some v =>
    refine (record_links _).bind fun _ => (access_links v).bind fun _ => ?_
    have hheap : Keeps (fun s => s.links = L)
        (zoom BlockMemory.heap (fun h s => { s with heap := h }) (destroyArg P u i)) := by
      apply keeps_zoom
      exact fun _ _ h => h
    split_ifs
    · exact (keeps_forM access_links _).bind fun _ => hheap
    · exact hheap

/-- `DestroyInst` takes the instruction out of the list. -/
theorem blockDestroyInst_links (h : blockDestroyInst P keeps u s = .ok () s') :
    s'.links = s.links.unlink (some u) := by
  simp only [blockDestroyInst, bind_ok_iff] at h
  obtain ⟨⟨⟩, s1, hrecord, ⟨⟩, s2, herase, ⟨⟩, s3, hrelease, hdeleted⟩ := h
  have h1 : s1.links = s.links := (record_links _).of_ok hrecord rfl
  have h2 : s2.links = s1.links.unlink (some u) := by
    simp only [eraseInst, bind_ok_iff, get_ok_iff, require_ok_iff, modify_ok_iff] at herase
    obtain ⟨⟨⟩, _, haccess, _, _, ⟨rfl, rfl⟩, ⟨⟩, t1, ⟨-, rfl⟩, ⟨⟩, t2, hnodes, rfl⟩ := herase
    have ht1 : t1.links = s1.links := (access_links u).of_ok haccess rfl
    have ht2 : t2.links = t1.links := (keeps_forM accessNode_links _).of_ok hnodes rfl
    show t2.links.unlink (some u) = _
    rw [ht2, ht1]
  have h3 : s3.links = s2.links := (keeps_forM releaseArg_links _).of_ok hrelease rfl
  have h4 : s'.links = s3.links := (record_links _).of_ok hdeleted rfl
  rw [h4, h3, h2, h1]

/-- The loop does not return from an instruction that is followed by itself when it has been taken
out of the list: it comes to the instruction again. -/
theorem destroyLoop_not_ok {fuel : ℕ} (hself : (s.links.unlink (some u)).next (some u) = some u) :
    destroyLoop P keeps fuel (some u) s ≠ .ok () s' := by
  induction fuel generalizing s with
  | zero => exact fun h => nomatch h
  | succ fuel ih =>
    intro h
    simp only [destroyLoop, bind_ok_iff, get_ok_iff] at h
    obtain ⟨⟨⟩, s1, hdestroy, ⟨⟩, s2, haccess, _, t, ⟨rfl, rfl⟩, hrest⟩ := h
    have hlinks : t.links = s.links.unlink (some u) :=
      ((access_links u).of_ok haccess rfl).trans (blockDestroyInst_links hdestroy)
    have hnext : t.links.next (some u) = some u := by
      rw [hlinks]
      exact hself
    rw [hnext] at hrest
    exact ih (Links.next_unlink (.inr hnext)) hrest

/-- The destructor of a block with instructions does not return. -/
theorem not_destroys_cons (hlist : s.links.IsList none ((u :: insts).map some)) :
    ¬ Destroys P keeps s (u :: insts) := by
  rintro ⟨fuel, s', hrun, -⟩
  obtain ⟨hfirst, hprev⟩ := Links.IsList.first hlist
  simp only [destroyBlock, bind_ok_iff, get_ok_iff] at hrun
  obtain ⟨_, t, ⟨rfl, rfl⟩, hloop⟩ := hrun
  rw [hfirst] at hloop
  exact destroyLoop_not_ok (Links.next_unlink (.inl hprev)) hloop

/-- The destructor of a block destroys the instructions of the block as it should if there are none,
and only then. -/
theorem destroyBlock_iff (P : Platform) (keeps : Bool) (s : BlockMemory) (insts : List InstRef)
    (hlist : s.links.IsList none (insts.map some)) (hevents : s.events = []) :
    Destroys P keeps s insts ↔ insts = [] := by
  constructor
  · intro hdestroys
    cases insts with
    | nil => rfl
    | cons u insts => exact absurd hdestroys (not_destroys_cons hlist)
  · rintro rfl
    have hempty : s.links.next none = none := (List.isChain_pair.mp hlist).1
    refine ⟨1, s, ?_, ⟨by simp, by simp [hevents], by simp [hevents]⟩⟩
    simp only [destroyBlock, bind_ok_iff, get_ok_iff]
    exact ⟨s, s, ⟨rfl, rfl⟩, by rw [hempty]; rfl⟩

/-- A block without instructions. -/
theorem destroyBlock_empty :
    Destroys .plain false ⟨⟨fun _ => { op := .void }, 0⟩, .unlinked, []⟩ [] :=
  (destroyBlock_iff .plain false _ [] (List.isChain_pair.mpr ⟨rfl, rfl⟩) rfl).mpr rfl

/-- A block with the one instruction `LoadImm`. -/
def loadImmBlock : BlockMemory :=
  ⟨⟨fun _ => { op := .loadImm, args := fun i => if i = 0 then .imm else .void }, 1⟩,
    Links.unlinked.pushBack none (some 0), []⟩

/-- The block has one instruction. -/
theorem isList_loadImmBlock : loadImmBlock.links.IsList none ([0].map some) := by
  simp only [Links.IsList, List.map_cons, List.map_nil, List.cons_append, List.nil_append,
    List.isChain_cons_cons, List.isChain_singleton, and_true]
  decide

/-- Its destructor fails, whether the memory of a deleted instruction still holds its links or
not. -/
theorem not_destroys_loadImm :
    ¬ Destroys .plain false loadImmBlock [0] ∧ ¬ Destroys .plain true loadImmBlock [0] :=
  ⟨not_destroys_cons isList_loadImmBlock, not_destroys_cons isList_loadImmBlock⟩

end Spec

end SwiftRuntime.Ir
