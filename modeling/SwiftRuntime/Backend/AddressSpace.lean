import SwiftRuntime.Vapours.IntrusiveRedBlackTree
import SwiftRuntime.Ir.Builder

/-!
# `AddressSpace`

The blocks and functions of an address space are in two intrusive trees, by location. `Push` puts a
block or a function into its tree, and says nothing when there is one at its location.
-/

namespace SwiftRuntime.Backend

open Freebsd Vapours Ir

/-- `Block::Compare` and `Function::Compare`. -/
def compareLocation {ν : Type} (location : ν → Location) : ν → ν → ℤ := compareDescending location

/-- The maps of `AddressSpace`. -/
structure AddressSpace (β φ : Type) where
  /-- `ir_blocks`. -/
  irBlocks : IntrusiveRedBlackTree β
  /-- `ir_functions`. -/
  irFunctions : IntrusiveRedBlackTree φ

/-- Code on an address space. -/
abbrev SpaceM (β φ : Type) := EStateM Freebsd.Fault (AddressSpace β φ)

/-- The argument of a `Push`. -/
inductive Pushed (β φ : Type)
  | block (block : Option β)
  | function (func : Option φ)

/-- `ASSERT` of a pointer, and the insertion. -/
def pushInto {ν : Type} [DecidableEq ν] (limit : ℕ) (location : ν → Location) (node : Option ν) :
    TreeM ν Unit := do
  let node ← ofOption node Freebsd.Fault.null
  let _ ← IntrusiveRedBlackTree.insert limit (compareLocation location) node

section Push

variable {β φ : Type} [DecidableEq β] [DecidableEq φ] (blockAt : β → Location)
  (functionAt : φ → Location)

/-- `Push`. -/
def push (limit : ℕ) : Pushed β φ → SpaceM β φ Unit
  | .block block => zoom AddressSpace.irBlocks (fun t s => { s with irBlocks := t })
      (pushInto limit blockAt block)
  | .function func => zoom AddressSpace.irFunctions (fun t s => { s with irFunctions := t })
      (pushInto limit functionAt func)

/-- One `Push` after the other. -/
def pushAll (limit : ℕ) : List (Pushed β φ) → SpaceM β φ Unit
  | [] => return
  | p :: ps => do
    push blockAt functionAt limit p
    pushAll limit ps

end Push

/-! ## The first at each location -/

section First

variable {ν : Type}

/-- The order of a map by location, which is a descending one. -/
def byLocation (location : ν → Location) (x : ν) : ℕᵒᵈ := OrderDual.toDual (location x).toNat

/-- Higher locations come first. -/
theorem byLocation_lt_iff {location : ν → Location} {x y : ν} :
    byLocation location x < byLocation location y ↔ location y < location x :=
  OrderDual.toDual_lt_toDual.trans UInt64.lt_iff_toNat_lt.symm

/-- Nodes are taken for equal where their locations are. -/
theorem byLocation_eq_iff {location : ν → Location} {x y : ν} :
    byLocation location x = byLocation location y ↔ location x = location y :=
  OrderDual.toDual_inj.trans UInt64.toNat_inj

/-- `Compare` orders the nodes by their locations, the higher ones first. -/
theorem orders_compareLocation (location : ν → Location) :
    Orders (compareLocation location) (byLocation location) :=
  orders_compareDescending UInt64.toNat (fun _ _ => UInt64.lt_iff_toNat_lt) location

variable [DecidableEq ν] {location : ν → Location} {base : ν → RbEntry ν} {nodes : List ν}
  {t : IntrusiveRedBlackTree ν} {limit passes : ℕ}

/-- The set of what is pushed. -/
def pushedSet (location : ν → Location) (nodes : List ν) : List ν :=
  nodes.foldl (fun xs x => orderedInsert (byLocation location) x xs) []

/-- At most as many nodes are linked as have been pushed. -/
theorem length_pushedSet_le (location : ν → Location) (nodes : List ν) :
    (pushedSet location nodes).length ≤ nodes.length := by
  have hle := TreeOp.length_foldl_apply_le (byLocation location) (nodes.map .insert) []
  rw [List.foldl_map, List.length_nil, Nat.zero_add, List.length_map] at hle
  exact hle

/-- The nodes of a tree are the first at each location, in descending order. -/
structure KeepsFirst (location : ν → Location) (nodes : List ν) (limit passes : ℕ)
    (t : IntrusiveRedBlackTree ν) : Prop where
  /-- `find` finds the first that was pushed. -/
  find : ∀ x, IntrusiveRedBlackTree.find limit (compareLocation location) x t =
    .ok (nodes.find? (location · = location x)) t
  /-- An iteration comes to them from the last location to the first. -/
  forEach : ∃ ys, IntrusiveRedBlackTree.forEach limit passes t = .ok ys t ∧
    ys.Pairwise (location · > location ·) ∧ ∀ y, y ∈ ys ↔
      nodes.find? (location · = location y) = some y
  /-- `size` counts them all. -/
  size : t.size = UInt64.ofNat nodes.length

/-- The tree after the nodes were pushed into an empty one. -/
abbrev Holding (location : ν → Location) (base : ν → RbEntry ν) (nodes : List ν)
    (t : IntrusiveRedBlackTree ν) : Prop :=
  Represents (byLocation location) Set.univ base t (pushedSet location nodes)
    (UInt64.ofNat nodes.length)

/-- One more node. -/
theorem Holding.pushInto (h : Holding location base nodes t) (x : ν)
    (hlimit : 2 * Nat.log 2 (nodes.length + 1) < limit) :
    ∃ t', pushInto limit location (some x) t = .ok () t' ∧
      Holding location base (nodes ++ [x]) t' := by
  have hlog := Nat.log_mono_right (b := 2)
    (Nat.add_le_add_right (length_pushedSet_le location nodes) 1)
  have hfar : 2 * Nat.log 2 ((pushedSet location nodes).length + 1) < limit := by omega
  obtain ⟨t', hrun, h'⟩ := h.insert (orders_compareLocation location) (Set.mem_univ x) hfar
  refine ⟨t', bind_of_ok hrun _, ?_⟩
  rw [Holding, pushedSet, List.foldl_append, List.length_append, UInt64.ofNat_add]
  exact h'

/-- What is in the tree. -/
theorem Holding.keepsFirst (h : Holding location base nodes t)
    (hlimit : 2 * Nat.log 2 (nodes.length + 1) < limit) (hpasses : nodes.length < passes) :
    KeepsFirst location nodes limit passes t := by
  have hle := length_pushedSet_le location nodes
  have hlog := Nat.log_mono_right (b := 2) (Nat.add_le_add_right hle 1)
  -- A search in the set finds the first node that was pushed for the location.
  have hlookup (x : ν) : lookup (byLocation location) x (pushedSet location nodes) =
      nodes.find? (location · = location x) := by
    rw [pushedSet, lookup_foldl_orderedInsert .nil]
    simp only [byLocation_eq_iff]
    rfl
  refine ⟨fun x => ?_, ⟨_, forEach_eq h.holds (by omega) (by omega), ?_, fun y => ?_⟩, h.size⟩
  · rw [← hlookup]
    exact h.find (orders_compareLocation location) x (by omega)
  · exact h.ascending.imp byLocation_lt_iff.mp
  · rw [← hlookup, lookup_eq_some_iff h.ascending]
    simp

end First

section Run

variable {β φ : Type} [DecidableEq β] [DecidableEq φ] {blockAt : β → Location}
  {functionAt : φ → Location} {limit passes : ℕ}

/-- The block that is pushed, if it is one. -/
def Pushed.block? : Pushed β φ → Option β
  | block b => b
  | function _ => none

/-- The function that is pushed, if it is one. -/
def Pushed.function? : Pushed β φ → Option φ
  | block _ => none
  | function f => f

/-- No null pointer is pushed. -/
def Pushed.NonNull : Pushed β φ → Prop
  | block b => b ≠ none
  | function f => f ≠ none

/-- A sequence of pushes, each into the tree of its kind. -/
theorem pushAll_holding {baseB : β → RbEntry β} {baseF : φ → RbEntry φ} {bs : List β} {fs : List φ}
    {s : AddressSpace β φ} (hb : Holding blockAt baseB bs s.irBlocks)
    (hf : Holding functionAt baseF fs s.irFunctions) {ps : List (Pushed β φ)}
    (hps : ∀ p ∈ ps, p.NonNull) {m : ℕ} (hbs : bs.length + ps.length ≤ m)
    (hfs : fs.length + ps.length ≤ m) (hlimit : 2 * Nat.log 2 (m + 1) < limit) :
    ∃ s', pushAll blockAt functionAt limit ps s = .ok () s' ∧
      Holding blockAt baseB (bs ++ ps.filterMap Pushed.block?) s'.irBlocks ∧
      Holding functionAt baseF (fs ++ ps.filterMap Pushed.function?) s'.irFunctions := by
  induction ps generalizing s bs fs with
  | nil => exact ⟨s, rfl, by simpa using hb, by simpa using hf⟩
  | cons p ps ih =>
    have hp := hps p List.mem_cons_self
    replace hps := fun q hq => hps q (List.mem_cons_of_mem p hq)
    rw [List.length_cons] at hbs hfs
    have hlogb : Nat.log 2 (bs.length + 1) ≤ Nat.log 2 (m + 1) := Nat.log_mono_right (by omega)
    have hlogf : Nat.log 2 (fs.length + 1) ≤ Nat.log 2 (m + 1) := Nat.log_mono_right (by omega)
    -- A block, then a function. A null pointer is not pushed.
    rcases p with (- | b) | (- | f)
    · exact absurd rfl hp
    · have hfar : 2 * Nat.log 2 (bs.length + 1) < limit := by omega
      obtain ⟨t', hrun, hb'⟩ := hb.pushInto b hfar
      obtain ⟨s', hrest, hb', hf'⟩ :=
        ih (s := { s with irBlocks := t' }) hb' hf hps (by simp; omega)
        (by omega)
      refine ⟨s', (bind_of_ok (zoom_ok_iff.mpr ⟨t', hrun, rfl⟩) _).trans hrest, ?_, hf'⟩
      simpa [Pushed.block?] using hb'
    · exact absurd rfl hp
    · have hfar : 2 * Nat.log 2 (fs.length + 1) < limit := by omega
      obtain ⟨t', hrun, hf'⟩ := hf.pushInto f hfar
      obtain ⟨s', hrest, hb', hf'⟩ := ih (s := { s with irFunctions := t' }) hb hf' hps (by omega)
        (by simp; omega)
      refine ⟨s', (bind_of_ok (zoom_ok_iff.mpr ⟨t', hrun, rfl⟩) _).trans hrest, hb', ?_⟩
      simpa [Pushed.function?] using hf'

/-- After any pushes of blocks and functions, both maps have the first block and the first function
at each location, in descending order. A later one at a location is left out, and counted. -/
theorem push_keeps_first (blockAt : β → Location) (functionAt : φ → Location)
    (baseB : β → RbEntry β) (baseF : φ → RbEntry φ) (limit passes : ℕ) (ps : List (Pushed β φ))
    (hps : ∀ p ∈ ps, p.NonNull)
    (hlimit : 2 * Nat.log 2 (ps.length + 1) < limit) (hpasses : ps.length < passes) :
    ∃ s', pushAll blockAt functionAt limit ps ⟨⟨⟨baseB, none⟩, 0⟩, ⟨⟨baseF, none⟩, 0⟩⟩ = .ok () s' ∧
      KeepsFirst blockAt (ps.filterMap Pushed.block?) limit passes s'.irBlocks ∧
      KeepsFirst functionAt (ps.filterMap Pushed.function?) limit passes s'.irFunctions := by
  have hb : Holding blockAt baseB [] ⟨⟨baseB, none⟩, 0⟩ := represents_nil _ _ baseB
  have hf : Holding functionAt baseF [] ⟨⟨baseF, none⟩, 0⟩ := represents_nil _ _ baseF
  obtain ⟨s', hrun, hb', hf'⟩ :=
    pushAll_holding (s := ⟨⟨⟨baseB, none⟩, 0⟩, ⟨⟨baseF, none⟩, 0⟩⟩) hb hf hps
    (by simp) (by simp) hlimit
  rw [List.nil_append] at hb' hf'
  -- Neither tree has more nodes than there were pushes.
  have hblocks := List.length_filterMap_le Pushed.block? ps
  have hfunctions := List.length_filterMap_le Pushed.function? ps
  have hlogb := Nat.log_mono_right (b := 2) (Nat.add_le_add_right hblocks 1)
  have hlogf := Nat.log_mono_right (b := 2) (Nat.add_le_add_right hfunctions 1)
  exact ⟨s', hrun, hb'.keepsFirst (by omega) (by omega), hf'.keepsFirst (by omega) (by omega)⟩

/-- Of three blocks, the second is at the location of the first. -/
theorem push_keeps_first_of_three :
    ∃ s', pushAll (fun b : ℕ => if b = 2 then 0x2000 else 0x1000) (fun _ : ℕ => 0) 8
        [.block (some 0), .block (some 1), .function (some 0), .block (some 2)]
        ⟨⟨⟨fun _ => ⟨none, none, none, .black⟩, none⟩, 0⟩,
          ⟨⟨fun _ => ⟨none, none, none, .black⟩, none⟩, 0⟩⟩ =
          .ok () s' ∧
      (∃ ys, IntrusiveRedBlackTree.forEach 8 8 s'.irBlocks = .ok ys s'.irBlocks ∧ 0 ∈ ys ∧ 1 ∉ ys) ∧
      s'.irBlocks.size = 3 := by
  obtain ⟨s', hrun, hb, -⟩ := push_keeps_first (fun b : ℕ => if b = 2 then 0x2000 else 0x1000)
    (fun _ : ℕ => 0) (fun _ => ⟨none, none, none, .black⟩) (fun _ => ⟨none, none, none, .black⟩) 8 8
    [.block (some 0), .block (some 1), .function (some 0), .block (some 2)]
    (by simp [Pushed.NonNull]) (by decide) (by decide)
  obtain ⟨ys, hys, -, hmem⟩ := hb.forEach
  exact ⟨s', hrun, ⟨ys, hys, (hmem 0).mpr (by decide), mt (hmem 1).mp (by decide)⟩, hb.size⟩

end Run

end SwiftRuntime.Backend
