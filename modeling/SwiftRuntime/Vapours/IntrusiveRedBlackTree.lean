import SwiftRuntime.Vapours.TreeInsert
import SwiftRuntime.Vapours.TreeRemove
import SwiftRuntime.Vapours.TreeWalk

/-!
# `IntrusiveRedBlackTree`

The class over `freebsd/tree.hpp` that the maps of values, blocks and functions are made of. What it
is for is a set in the order of its keys, here an ascending list with `orderedInsert`, `lookup` and
`successor`. `Represents` relates the two, every call keeps it, and a sequence of calls on an empty
tree returns what it returns for the set (`run_is_ordered_set`). `m_size` is another matter: an
insertion counts whether or not it puts something in (`size_eq_length_add_duplicates`).

Where the keys of linked nodes change, no order holds. The tree is still a valid one after each call
(`run_safe_for_any_comparison`).
-/

namespace SwiftRuntime.Vapours

open ColorTree Freebsd

/-- `IntrusiveRedBlackTreeImpl`, with the entries of the nodes. -/
structure IntrusiveRedBlackTree (ν : Type) where
  /-- `m_root`. -/
  root : RbHeap ν
  /-- `m_size`. -/
  size : UInt64

/-- Code on a tree with its size. -/
abbrev TreeM (ν : Type) := EStateM Fault (IntrusiveRedBlackTree ν)

namespace IntrusiveRedBlackTree

variable {ν : Type}

/-- Code on `m_root`. -/
def onRoot {α : Type} (x : RbM ν α) : TreeM ν α := zoom root (fun r s => { s with root := r }) x

/-- `begin`. -/
def begin_ (limit : ℕ) : TreeM ν (Option ν) := onRoot (rbMin limit)

/-- `front`. -/
def front (limit : ℕ) : TreeM ν ν := do ofOption (← onRoot (rbMin limit)) .null

/-- `back`. -/
def back (limit : ℕ) : TreeM ν ν := do ofOption (← onRoot (rbMax limit)) .null

/-- `empty`. -/
def empty : TreeM ν Bool := return (← get).root.root.isNone

/-- `find`. -/
def find (limit : ℕ) (cmp : ν → ν → ℤ) (ref : ν) : TreeM ν (Option ν) :=
  onRoot (rbFind limit (cmp ref))

/-- `nfind`. -/
def nfind (limit : ℕ) (cmp : ν → ν → ℤ) (ref : ν) : TreeM ν (Option ν) :=
  onRoot (rbNfind limit (cmp ref))

variable [DecidableEq ν]

/-- `operator++`. -/
def next (limit : ℕ) (it : Option ν) : TreeM ν (Option ν) := onRoot (rbNext limit it)

/-- `operator--`. -/
def prev (limit : ℕ) (it : Option ν) : TreeM ν (Option ν) := onRoot (rbPrev limit it)

/-- `InsertImpl`. -/
def insertImpl (limit : ℕ) (cmp : ν → ν → ℤ) (node : ν) : TreeM ν (Option ν) := do
  modify fun s => { s with size := s.size + 1 }
  onRoot (rbInsert limit cmp node)

/-- `insert`. The iterator that it returns is to the node it was given. -/
def insert (limit : ℕ) (cmp : ν → ν → ℤ) (ref : ν) : TreeM ν (Option ν) := do
  let _ ← insertImpl limit cmp ref
  return some ref

/-- `erase`. -/
def erase (limit : ℕ) (it : Option ν) : TreeM ν (Option ν) := do
  let next ← next limit it
  let _ ← onRoot (rbRemove limit it)
  modify fun s => { s with size := s.size - 1 }
  return next

/-- One pass of a loop `for (auto &x : tree)`, from an iterator and the nodes before it. -/
def forEachBody (limit : ℕ) : Option ν × List ν → TreeM ν ((Option ν × List ν) ⊕ List ν)
  | (none, visited) => return .inr visited
  | (some x, visited) => return .inl (← next limit (some x), visited ++ [x])

/-- A loop `for (auto &x : tree)`, with the nodes it comes to. -/
def forEach (limit passes : ℕ) : TreeM ν (List ν) := do
  loopM (forEachBody limit) .endless passes (← begin_ limit, [])

end IntrusiveRedBlackTree

/-! ## Sets in the order of their keys -/

section Spec

variable {ν κ : Type} [DecidableEq ν] [LinearOrder κ] (key : ν → κ)

/-- The element with the key of `x`. -/
def lookup (x : ν) (xs : List ν) : Option ν := xs.find? (key · = key x)

/-- The set with `x`, unless its key is there already. -/
def orderedInsert (x : ν) (xs : List ν) : List ν :=
  if (lookup key x xs).isSome then xs
  else xs.filter (key · < key x) ++ x :: xs.filter (key x < key ·)

/-- The first element with at least the key of `x`. -/
def lookupFrom (x : ν) (xs : List ν) : Option ν := xs.find? (key x ≤ key ·)

/-- The element after `x`. -/
def successor (x : ν) (xs : List ν) : Option ν := (xs.dropWhile (· ≠ x)).tail.head?

/-- The element before `x`. -/
def predecessor (x : ν) (xs : List ν) : Option ν := successor x xs.reverse

/-- The comparison is that of the keys. -/
structure Orders (cmp : ν → ν → ℤ) (key : ν → κ) : Prop where
  /-- It is negative for a smaller key. -/
  neg : ∀ a b, cmp a b < 0 ↔ key a < key b
  /-- It is positive for a larger key. -/
  pos : ∀ a b, 0 < cmp a b ↔ key b < key a

/-- In strictly ascending order of the keys. -/
def Ascending (xs : List ν) : Prop := xs.Pairwise (key · < key ·)

end Spec

section Agree

variable {ν κ : Type} [DecidableEq ν] [LinearOrder κ] {key : ν → κ} {cmp : ν → ν → ℤ} {x : ν}
  {xs : List ν}

omit [DecidableEq ν]

/-- The search goes where the keys say. -/
theorem Orders.toward_eq (h : Orders cmp key) (x y : ν) :
    toward (cmp x) y = compare (key x) (key y) := by
  unfold toward
  rcases lt_trichotomy (cmp x y) 0 with hc | hc | hc
  · rw [compare_lt_iff_lt.mpr hc, compare_lt_iff_lt.mpr ((h.neg x y).mp hc)]
  · have hlt : ¬ key x < key y := fun hk => absurd ((h.neg x y).mpr hk) (by omega)
    have hgt : ¬ key y < key x := fun hk => absurd ((h.pos x y).mpr hk) (by omega)
    rw [compare_eq_iff_eq.mpr hc,
      compare_eq_iff_eq.mpr (le_antisymm (not_lt.mp hgt) (not_lt.mp hlt))]
  · rw [compare_gt_iff_gt.mpr hc, compare_gt_iff_gt.mpr ((h.pos x y).mp hc)]

/-- Along an ascending list comparisons of the keys guide every search. -/
theorem Ascending.guided (hxs : Ascending key xs) {dir : ν → Ordering}
    (hdir : ∀ y, dir y = compare (key x) (key y)) : SearchTree.Guided dir xs := by
  refine hxs.imp fun {a b} hab => ?_
  rw [hdir, hdir]
  constructor
  · intro hb
    rw [Ne, compare_lt_iff_lt, not_lt] at hb
    exact compare_gt_iff_gt.mpr (hab.trans_le hb)
  · intro ha
    rw [Ne, compare_gt_iff_gt, not_lt] at ha
    exact compare_lt_iff_lt.mpr (ha.trans_lt hab)

/-- In an ascending list a key determines its element. -/
theorem lookup_eq_some_iff (hxs : Ascending key xs) {y : ν} :
    lookup key x xs = some y ↔ y ∈ xs ∧ key y = key x := by
  constructor
  · intro h
    exact ⟨List.mem_of_find?_eq_some h, by simpa using List.find?_some h⟩
  · rintro ⟨hy, hkey⟩
    obtain ⟨as, bs, rfl⟩ := List.append_of_mem hy
    rw [lookup, List.find?_append, List.find?_eq_none.mpr, Option.none_or,
      List.find?_cons_of_pos (by simpa using hkey)]
    intro z hz
    have := (List.pairwise_append.mp hxs).2.2 z hz y List.mem_cons_self
    simpa [← hkey] using this.ne

/-- A new element between the smaller and the larger ones keeps the order. -/
theorem Ascending.filter_eq (hxs : Ascending key xs) (hnone : lookup key x xs = none) :
    Ascending key (xs.filter (key · < key x) ++ x :: xs.filter (key x < key ·)) := by
  refine List.pairwise_append.mpr ⟨hxs.filter _, List.pairwise_cons.mpr ⟨?_, hxs.filter _⟩, ?_⟩
  · intro z hz
    simpa using List.of_mem_filter hz
  · intro a ha b hb
    have ha : key a < key x := by simpa using List.of_mem_filter ha
    rcases List.mem_cons.mp hb with rfl | hb
    · exact ha
    · exact ha.trans (by simpa using List.of_mem_filter hb)

/-- What a tree finds is what the list has. -/
theorem find_eq_lookup {t : SearchTree ν} (ht : Ascending key t.toList) {dir : ν → Ordering}
    (hdir : ∀ y, dir y = compare (key x) (key y)) : t.find dir = lookup key x t.toList := by
  refine Option.ext fun y => ?_
  rw [lookup_eq_some_iff ht, SearchTree.find_eq_some_iff (ht.guided hdir), hdir, compare_eq_iff_eq,
    eq_comm (a := key y)]

/-- Where a tree puts an element is where the list has it. -/
theorem insert_eq_orderedInsert {t : SearchTree ν} (ht : Ascending key t.toList)
    {dir : ν → Ordering} (hdir : ∀ y, dir y = compare (key x) (key y)) :
    (t.insert dir x).toList = orderedInsert key x t.toList := by
  unfold orderedInsert
  rw [← find_eq_lookup ht hdir]
  cases hfind : t.find dir with
  | some y =>
    rw [SearchTree.insert_of_find hfind]
    rfl
  | none =>
    rw [SearchTree.toList_insert (ht.guided hdir) hfind]
    simp only [hdir, compare_gt_iff_gt, compare_lt_iff_lt]
    rfl

/-- An insertion keeps the order. -/
theorem ascending_orderedInsert (hxs : Ascending key xs) (x : ν) :
    Ascending key (orderedInsert key x xs) := by
  unfold orderedInsert
  split_ifs with hsome
  · exact hxs
  · exact hxs.filter_eq (by simpa using hsome)

/-- An insertion adds the element, unless there is one with its key. -/
theorem mem_orderedInsert {z : ν} :
    z ∈ orderedInsert key x xs ↔ z ∈ xs ∨ lookup key x xs = none ∧ z = x := by
  unfold orderedInsert
  split_ifs with hsome
  · simp [Option.isSome_iff_ne_none.mp hsome]
  · have hnone : lookup key x xs = none := by simpa using hsome
    have hne : ∀ y ∈ xs, key y ≠ key x := by simpa [lookup] using hnone
    simp only [List.mem_append, List.mem_cons, List.mem_filter, decide_eq_true_eq, hnone, true_and]
    constructor
    · rintro (⟨hz, -⟩ | rfl | ⟨hz, -⟩)
      exacts [.inl hz, .inr rfl, .inl hz]
    · rintro (hz | rfl)
      · exact (lt_or_gt_of_ne (hne z hz)).imp (fun h => ⟨hz, h⟩) fun h => .inr ⟨hz, h⟩
      · exact .inr (.inl rfl)

/-- An insertion adds the element for its key, unless there is one. -/
theorem lookup_orderedInsert (hxs : Ascending key xs) (x y : ν) :
    lookup key y (orderedInsert key x xs) =
      (lookup key y xs).or (if key x = key y then some x else none) := by
  have hcongr (h : key x = key y) : lookup key y xs = lookup key x xs := by rw [lookup, lookup, h]
  refine Option.ext fun z => ?_
  rw [lookup_eq_some_iff (ascending_orderedInsert hxs x), mem_orderedInsert, Option.or_eq_some_iff,
    lookup_eq_some_iff hxs]
  -- An element with the key was there before, or is the new one.
  constructor
  · rintro ⟨hz | ⟨hnone, rfl⟩, hkey⟩
    · exact .inl ⟨hz, hkey⟩
    · exact .inr ⟨(hcongr hkey).trans hnone, if_pos hkey⟩
  · rintro (⟨hz, hkey⟩ | ⟨hnone, hz⟩)
    · exact ⟨.inl hz, hkey⟩
    · split_ifs at hz with hkey
      obtain rfl := Option.some.inj hz
      exact ⟨.inr ⟨(hcongr hkey).symm.trans hnone, rfl⟩, hkey⟩

/-- After insertions one after the other, a set has the first element for each key. -/
theorem lookup_foldl_orderedInsert (hxs : Ascending key xs) (ys : List ν) (y : ν) :
    lookup key y (ys.foldl (fun xs x => orderedInsert key x xs) xs) =
      (lookup key y xs).or (ys.find? (key · = key y)) := by
  induction ys generalizing xs with
  | nil => simp
  | cons x ys ih =>
    rw [List.foldl_cons, ih (ascending_orderedInsert hxs x), lookup_orderedInsert hxs,
      Option.or_assoc, List.find?_cons]
    by_cases hkey : key x = key y <;> simp [hkey]

/-- What insertions do depends on the keys of the elements only. -/
theorem foldl_orderedInsert_congr {key' : ν → κ} {ys : List ν} (hxs : ∀ y ∈ xs, key' y = key y)
    (hys : ∀ y ∈ ys, key' y = key y) :
    ys.foldl (fun xs x => orderedInsert key' x xs) xs =
      ys.foldl (fun xs x => orderedInsert key x xs) xs := by
  induction ys generalizing xs with
  | nil => rfl
  | cons x ys ih =>
    have hx := hys x List.mem_cons_self
    -- The first insertion looks at keys only, so it does the same for both.
    have hlookup : lookup key' x xs = lookup key x xs := by
      rw [lookup, lookup, ← List.head?_filter, ← List.head?_filter]
      rw [List.filter_congr fun y hy => by rw [hx, hxs y hy]]
    have hins : orderedInsert key' x xs = orderedInsert key x xs := by
      unfold orderedInsert
      rw [hlookup, List.filter_congr fun y hy => by rw [hx, hxs y hy],
        List.filter_congr (p := (key' x < key' ·)) fun y hy => by rw [hx, hxs y hy]]
    rw [List.foldl_cons, List.foldl_cons, hins]
    refine ih (fun y hy => ?_) fun y hy => hys y (List.mem_cons_of_mem _ hy)
    rcases mem_orderedInsert.mp hy with hy | ⟨-, rfl⟩
    · exact hxs y hy
    · exact hx

/-- A set grows by an element whose key is not there. -/
theorem length_orderedInsert (key : ν → κ) (x : ν) (xs : List ν) :
    (orderedInsert key x xs).length + (if (lookup key x xs).isSome then 1 else 0) =
      xs.length + 1 := by
  unfold orderedInsert
  split_ifs with hsome
  · rfl
  · have hne : ∀ y ∈ xs, key y ≠ key x := by simpa [lookup] using hsome
    have hpart : xs.filter (key x < key ·) = xs.filter (fun y => !decide (key y < key x)) :=
      List.filter_congr fun y hy => by
        rw [← decide_not, decide_eq_decide, not_lt]
        exact ⟨le_of_lt, fun h => lt_of_le_of_ne h (hne y hy).symm⟩
    rw [hpart, List.length_append, List.length_cons, ← List.countP_eq_length_filter,
      ← List.countP_eq_length_filter,
      List.length_eq_countP_add_countP (fun y => decide (key y < key x))]
    simp only [Bool.not_eq_true, Bool.decide_eq_false]
    omega

/-- The element after the first occurrence of another one. -/
theorem successor_eq [DecidableEq ν] {as bs : List ν} (hx : x ∉ as) :
    successor x (as ++ x :: bs) = bs.head? := by
  have hdrop : (as ++ x :: bs).dropWhile (· ≠ x) = x :: bs := by
    rw [List.dropWhile_append_of_pos, List.dropWhile_cons_of_neg (by simp)]
    intro z hz
    simpa using ne_of_mem_of_not_mem hz hx
  rw [successor, hdrop]
  rfl

/-- The `Compare` functions of values, blocks and functions, which put the greater key first. -/
def compareDescending {ι : Type} [LT ι] [DecidableLT ι] (key : ν → ι) (lhs rhs : ν) : ℤ :=
  if key rhs > key lhs then 1
  else if key rhs < key lhs then -1
  else 0

/-- They compare as the keys do, in the opposite order. -/
theorem orders_compareDescending {ι : Type} [LT ι] [DecidableLT ι] (rank : ι → ℕ)
    (hrank : ∀ i j, i < j ↔ rank i < rank j) (key : ν → ι) :
    Orders (compareDescending key) fun x => OrderDual.toDual (rank (key x)) where
  neg a b := by
    simp only [compareDescending, OrderDual.toDual_lt_toDual, gt_iff_lt, hrank]
    split_ifs <;> omega
  pos a b := by
    simp only [compareDescending, OrderDual.toDual_lt_toDual, gt_iff_lt, hrank]
    split_ifs <;> omega

end Agree

/-! ## Runs -/

/-- The calls of the interface. -/
inductive TreeOp (ν : Type)
  | insert (x : ν)
  | erase (x : ν)
  | find (x : ν)
  | nfind (x : ν)
  | next (x : ν)
  | prev (x : ν)
  | front
  | back
  | empty
  | forEach
  | size
deriving DecidableEq, Repr

/-- What a call returns. -/
inductive Reply (ν : Type)
  | iterator (it : Option ν)
  | visited (xs : List ν)
  | empty (b : Bool)
  | size (n : UInt64)
deriving DecidableEq, Repr

namespace TreeOp

variable {ν κ : Type} [DecidableEq ν]

/-- A call, with bounds on the passes of loops in the tree and of loops over it. -/
def exec (limit passes : ℕ) (cmp : ν → ν → ℤ) : TreeOp ν → TreeM ν (Reply ν)
  | insert x => return .iterator (← IntrusiveRedBlackTree.insert limit cmp x)
  | erase x => return .iterator (← IntrusiveRedBlackTree.erase limit (some x))
  | find x => return .iterator (← IntrusiveRedBlackTree.find limit cmp x)
  | nfind x => return .iterator (← IntrusiveRedBlackTree.nfind limit cmp x)
  | next x => return .iterator (← IntrusiveRedBlackTree.next limit (some x))
  | prev x => return .iterator (← IntrusiveRedBlackTree.prev limit (some x))
  | front => return .iterator (some (← IntrusiveRedBlackTree.front limit))
  | back => return .iterator (some (← IntrusiveRedBlackTree.back limit))
  | empty => return .empty (← IntrusiveRedBlackTree.empty)
  | forEach => return .visited (← IntrusiveRedBlackTree.forEach limit passes)
  | size => return .size (← get).size

/-- One call after the other. -/
def execAll (limit passes : ℕ) (cmp : ν → ν → ℤ) : List (TreeOp ν) → TreeM ν (List (Reply ν))
  | [] => return []
  | op :: ops => do
    let reply ← op.exec limit passes cmp
    return reply :: (← execAll limit passes cmp ops)

variable [LinearOrder κ] (key : ν → κ)

/-- What a call does to a set in the order of its keys. -/
def apply (op : TreeOp ν) (xs : List ν) : List ν :=
  match op with
  | insert x => orderedInsert key x xs
  | erase x => xs.erase x
  | _ => xs

/-- What a call does to `m_size`: every insertion counts. -/
def count (op : TreeOp ν) (n : UInt64) : UInt64 :=
  match op with
  | insert _ => n + 1
  | erase _ => n - 1
  | _ => n

/-- What a call returns for a set. -/
def reply (op : TreeOp ν) (xs : List ν) (n : UInt64) : Reply ν :=
  match op with
  | insert x => .iterator (some x)
  | erase x => .iterator (successor x xs)
  | find x => .iterator (lookup key x xs)
  | nfind x => .iterator (lookupFrom key x xs)
  | next x => .iterator (successor x xs)
  | prev x => .iterator (predecessor x xs)
  | front => .iterator xs.head?
  | back => .iterator xs.getLast?
  | empty => .empty xs.isEmpty
  | forEach => .visited xs
  | size => .size n

/-- The nodes that are erased or walked on from are there, and so is a first or last one. -/
def Admissible (xs : List ν) : TreeOp ν → Prop
  | erase x | next x | prev x => x ∈ xs
  | front | back => xs ≠ []
  | _ => True

/-- Whether a call is admissible can be decided. -/
instance (xs : List ν) : DecidablePred (Admissible xs)
  | erase x | next x | prev x => inferInstanceAs (Decidable (x ∈ xs))
  | front | back => inferInstanceAs (Decidable (xs ≠ []))
  | insert _ | find _ | nfind _ | empty | forEach | size => .isTrue trivial

/-- Every call of a sequence is admissible. -/
def AllAdmissible (xs : List ν) : List (TreeOp ν) → Prop
  | [] => True
  | op :: ops => op.Admissible xs ∧ AllAdmissible (op.apply key xs) ops

/-- Whether the calls of a sequence are admissible can be decided, call by call. -/
instance decidableAllAdmissible (xs : List ν) : DecidablePred (AllAdmissible key xs)
  | [] => .isTrue trivial
  | op :: ops =>
    have := decidableAllAdmissible (op.apply key xs) ops
    inferInstanceAs (Decidable (_ ∧ _))

variable {key} in
/-- A sequence of two parts is admissible if the second one is after the first. -/
theorem allAdmissible_append {xs : List ν} {ops ops' : List (TreeOp ν)} :
    AllAdmissible key xs (ops ++ ops') ↔
      AllAdmissible key xs ops ∧
        AllAdmissible key (ops.foldl (fun xs op => op.apply key xs) xs) ops' := by
  induction ops generalizing xs with
  | nil => simp [AllAdmissible]
  | cons op ops ih => simp [AllAdmissible, ih, and_assoc]

variable {key} in
/-- Insertions are admissible. -/
theorem allAdmissible_insert {xs ys : List ν} : AllAdmissible key xs (ys.map .insert) := by
  induction ys generalizing xs with
  | nil => trivial
  | cons y ys ih => exact ⟨trivial, ih⟩

variable {key} in
/-- Erasures of different elements are admissible. -/
theorem allAdmissible_erase {xs ys : List ν} (hys : ys.Nodup) (hsub : ys ⊆ xs) :
    AllAdmissible key xs (ys.map .erase) := by
  induction ys generalizing xs with
  | nil => trivial
  | cons y ys ih =>
    obtain ⟨hy, hys⟩ := List.nodup_cons.mp hys
    refine ⟨hsub List.mem_cons_self, ih hys fun z hz => ?_⟩
    exact (List.mem_erase_of_ne (ne_of_mem_of_not_mem hz hy)).mpr (hsub (List.mem_cons_of_mem _ hz))

/-- What the calls of a sequence return. -/
def replies (xs : List ν) (n : UInt64) : List (TreeOp ν) → List (Reply ν)
  | [] => []
  | op :: ops => op.reply key xs n :: replies (op.apply key xs) (op.count n) ops

end TreeOp

section Runs

variable {ν κ : Type} [DecidableEq ν] {S : Set ν} {base : ν → RbEntry ν}
  {s : IntrusiveRedBlackTree ν} {xs : List ν} {limit passes : ℕ}

omit [DecidableEq ν] in
/-- A call on the root leaves the size alone. -/
theorem onRoot_eq {α : Type} {x : RbM ν α} {a : α} {σ' : RbHeap ν} (h : x s.root = .ok a σ') :
    IntrusiveRedBlackTree.onRoot x s = .ok a { s with root := σ' } :=
  zoom_ok_iff.mpr ⟨σ', h, rfl⟩

/-! ### Calls that compare nothing -/

/-- From a node of the tree, a walk towards a side goes on to the next one on its way. -/
theorem advance_eq {T : ColorTree ν} (h : At S base s.root [] T) (hvalid : T.Valid) {x : ν}
    (hx : x ∈ T.toList) (d : Side) (hlimit : 2 * Nat.log 2 (T.toList.length + 1) < limit) :
    IntrusiveRedBlackTree.onRoot (rbAdvance limit d (some x)) s =
      .ok (successor x (walk d T)) s := by
  have hheight := hvalid.height_le
  have hnodup : (walk d T).Nodup := by
    have := h.nodup
    cases d <;> simpa [walk, nodes] using this
  -- The node is at the top of a hole, with the rest of the walk on the path and in one half.
  obtain ⟨ctx, c, l, r, rfl⟩ := exists_plug_of_mem hx
  have hlen := length_add_height_le ctx (.node c l x r)
  obtain ⟨a, b, hnode⟩ : ∃ a b, ColorTree.node c l x r = branch d.other c a x b := by
    cases d
    · exact ⟨r, l, rfl⟩
    · exact ⟨l, r, rfl⟩
  rw [hnode] at h hnodup hlen hheight hlimit ⊢
  -- The way up and the way down together are not longer than the tree is high.
  have hfar : b.height + ctx.length < limit := by
    have : b.height + 1 ≤ (branch d.other c a x b).height := by
      cases d <;> simp [Side.other, branch, height]
    omega
  have hadv := rbAdvance_eq (at_plug_iff.mpr h) hfar
  rw [show walk d (plug ctx (branch d.other c a x b)) =
      ((rest d.other ctx).reverse ++ walk d a) ++ x :: (walk d b ++ rest d ctx) by
    simp [walk_plug, walk_branch]] at hnodup ⊢
  -- The node is met once, so what follows it in the walk is its successor.
  have hfirst : x ∉ (rest d.other ctx).reverse ++ walk d a := fun hmem =>
    (List.nodup_append.mp hnodup).2.2 x hmem x List.mem_cons_self rfl
  rw [successor_eq hfirst]
  exact onRoot_eq hadv

/-- `operator++` goes on to the next node. -/
theorem next_eq (h : HoldsValid S base xs s.root) {x : ν} (hx : x ∈ xs)
    (hlimit : 2 * Nat.log 2 (xs.length + 1) < limit) :
    IntrusiveRedBlackTree.next limit (some x) s = .ok (successor x xs) s := by
  obtain ⟨T, hat, hvalid, rfl⟩ := h
  exact advance_eq hat hvalid hx .right hlimit

/-- `operator--` goes back to the node before. -/
theorem prev_eq (h : HoldsValid S base xs s.root) {x : ν} (hx : x ∈ xs)
    (hlimit : 2 * Nat.log 2 (xs.length + 1) < limit) :
    IntrusiveRedBlackTree.prev limit (some x) s = .ok (predecessor x xs) s := by
  obtain ⟨T, hat, hvalid, rfl⟩ := h
  exact advance_eq hat hvalid hx .left hlimit

omit [DecidableEq ν] in
/-- `RB_MIN` and `RB_MAX` are the first and the last node. -/
theorem ends_eq (h : HoldsValid S base xs s.root) (hlimit : 2 * Nat.log 2 (xs.length + 1) < limit) :
    rbMin limit s.root = .ok xs.head? s.root ∧ rbMax limit s.root = .ok xs.getLast? s.root := by
  obtain ⟨T, hat, hvalid, rfl⟩ := h
  have hheight := hvalid.height_le
  rw [List.getLast?_eq_head?_reverse]
  exact ⟨rbEnd_eq hat .left (by omega), rbEnd_eq hat .right (by omega)⟩

omit [DecidableEq ν] in
/-- `front` returns the first element. -/
theorem front_eq (h : HoldsValid S base (x :: xs) s.root)
    (hlimit : 2 * Nat.log 2 ((x :: xs).length + 1) < limit) :
    IntrusiveRedBlackTree.front limit s = .ok x s :=
  bind_of_ok (onRoot_eq (ends_eq h hlimit).1) _

omit [DecidableEq ν] in
/-- `back` returns the last element. -/
theorem back_eq (h : HoldsValid S base (xs ++ [x]) s.root)
    (hlimit : 2 * Nat.log 2 ((xs ++ [x]).length + 1) < limit) :
    IntrusiveRedBlackTree.back limit s = .ok x s := by
  have hback := (ends_eq h hlimit).2
  rw [List.getLast?_concat] at hback
  exact bind_of_ok (onRoot_eq hback) _

omit [DecidableEq ν] in
/-- `empty` says whether there is no element. -/
theorem empty_eq (h : HoldsValid S base xs s.root) :
    IntrusiveRedBlackTree.empty s = .ok xs.isEmpty s := by
  obtain ⟨T, hat, hvalid, rfl⟩ := h
  have hroot : s.root.root = T.root := hat.root
  show EStateM.Result.ok s.root.root.isNone s = _
  rw [hroot]
  cases T with
  | nil => rfl
  | node c l x r => simp [ColorTree.root, toList]

/-- A loop over the tree comes to all nodes in order. -/
theorem forEach_eq (h : HoldsValid S base xs s.root)
    (hlimit : 2 * Nat.log 2 (xs.length + 1) < limit) (hpasses : xs.length < passes) :
    IntrusiveRedBlackTree.forEach limit passes s = .ok xs s := by
  have hbegin : IntrusiveRedBlackTree.begin_ limit s = .ok xs.head? s :=
    onRoot_eq (ends_eq h hlimit).1
  -- The loop has visited `as` and is at the first element of `bs`.
  obtain ⟨r, τ, hloop, rfl, rfl⟩ :
      ∃ r τ, loopM (IntrusiveRedBlackTree.forEachBody limit) .endless passes
      (xs.head?, []) s = .ok r τ ∧ τ = s ∧ r = xs := loopM_of_measure
    (fun k b τ => τ = s ∧ ∃ as bs, xs = as ++ bs ∧ b = (bs.head?, as) ∧ k = bs.length) _ (by
      rintro k b τ ⟨rfl, as, bs, rfl, rfl, rfl⟩
      cases bs with
      | nil => exact .inr ⟨as, τ, rfl, rfl, by simp⟩
      | cons x bs =>
        have hfirst : x ∉ as := fun hmem =>
          (List.nodup_append.mp h.nodup).2.2 x hmem x List.mem_cons_self rfl
        have hnext := next_eq h (x := x) (by simp) hlimit
        rw [successor_eq hfirst] at hnext
        refine .inl ⟨bs.length, (bs.head?, as ++ [x]), τ,
          by simp, ?_, rfl, as ++ [x], bs, by simp, rfl, rfl⟩
        exact bind_of_ok hnext _)
    ⟨rfl, [], xs, rfl, rfl, rfl⟩ hpasses
  exact (bind_of_ok hbegin _).trans hloop

/-- A removal from the tree is one from the list of its nodes. -/
theorem erase_eq (h : HoldsValid S base xs s.root) {x : ν} (hx : x ∈ xs)
    (hlimit : 2 * Nat.log 2 (xs.length + 1) + 1 < limit) :
    ∃ σ', IntrusiveRedBlackTree.erase limit (some x) s = .ok (successor x xs) ⟨σ', s.size - 1⟩ ∧
      HoldsValid S base (xs.erase x) σ' := by
  have hfar : 2 * Nat.log 2 (xs.length + 1) < limit := by omega
  have hnext := next_eq h hx hfar
  obtain ⟨T, hat, hvalid, rfl⟩ := h
  have hheight := hvalid.height_le
  have hdown : T.height + 1 < limit := by omega
  obtain ⟨σ', hrun, hholds⟩ := rbRemove_eq hat hvalid hx hdown
  refine ⟨σ', ?_, hholds⟩
  refine (bind_of_ok hnext _).trans ?_
  exact bind_of_ok (onRoot_eq hrun) _

/-! ### Calls that compare -/

/-- An insertion puts a node where the comparisons lead, unless they lead to a node that is
equal. -/
theorem insert_eq (cmp : ν → ν → ℤ) {T : ColorTree ν} (h : At S base s.root [] T) (hvalid : T.Valid)
    {x : ν} (hS : x ∈ S) (hfresh : T.forget.find (toward (cmp x)) = none → x ∉ T.toList)
    (hlimit : 2 * Nat.log 2 (T.toList.length + 1) < limit) :
    ∃ σ', IntrusiveRedBlackTree.insert limit cmp x s = .ok (some x) ⟨σ', s.size + 1⟩ ∧
      HoldsValid S base (T.forget.insert (toward (cmp x)) x).toList σ' := by
  have hheight := hvalid.height_le
  have hdown : T.height < limit := by omega
  obtain ⟨σ', hrun, hholds⟩ := rbInsert_eq h hvalid hS hfresh hdown
  refine ⟨σ', ?_, hholds⟩
  have himpl : IntrusiveRedBlackTree.insertImpl limit cmp x s = .ok _ ⟨σ', s.size + 1⟩ :=
    onRoot_eq (s := { s with size := s.size + 1 }) hrun
  exact bind_of_ok himpl _

variable [LinearOrder κ] {key : ν → κ} {cmp : ν → ν → ℤ} {n : UInt64}

/-- The tree is that of a set, in the order of its keys. -/
structure Represents (key : ν → κ) (S : Set ν) (base : ν → RbEntry ν) (s : IntrusiveRedBlackTree ν)
    (xs : List ν) (n : UInt64) : Prop where
  /-- The tree is valid and has these elements. -/
  holds : HoldsValid S base xs s.root
  /-- They stand in the order of their keys. -/
  ascending : Ascending key xs
  /-- `m_size`. -/
  size : s.size = n

/-- An insertion into the tree is one into the set. -/
theorem Represents.insert (h : Represents key S base s xs n) (hcmp : Orders cmp key) {x : ν}
    (hS : x ∈ S) (hlimit : 2 * Nat.log 2 (xs.length + 1) < limit) :
    ∃ s', IntrusiveRedBlackTree.insert limit cmp x s = .ok (some x) s' ∧
      Represents key S base s' (orderedInsert key x xs) (n + 1) := by
  obtain ⟨T, hat, hvalid, rfl⟩ := h.holds
  have hxs : Ascending key T.forget.toList := by
    rw [toList_forget]
    exact h.ascending
  -- A node that is there would be found by its key.
  have hfresh : T.forget.find (toward (cmp x)) = none → x ∉ T.toList := by
    intro hnone hx
    rw [find_eq_lookup hxs (hcmp.toward_eq x), toList_forget,
      (lookup_eq_some_iff h.ascending).mpr ⟨hx, rfl⟩] at hnone
    cases hnone
  obtain ⟨σ', hrun, hholds⟩ := insert_eq cmp hat hvalid hS hfresh hlimit
  rw [insert_eq_orderedInsert hxs (hcmp.toward_eq x), toList_forget] at hholds
  exact ⟨_, hrun, hholds, ascending_orderedInsert h.ascending x, by rw [h.size]⟩

omit [DecidableEq ν] in
/-- A search in the tree is one in the set. -/
theorem Represents.find (h : Represents key S base s xs n) (hcmp : Orders cmp key) (x : ν)
    (hlimit : 2 * Nat.log 2 (xs.length + 1) < limit) :
    IntrusiveRedBlackTree.find limit cmp x s = .ok (lookup key x xs) s := by
  obtain ⟨T, hat, hvalid, rfl⟩ := h.holds
  have hheight := hvalid.height_le
  have hfind : T.forget.find (toward (cmp x)) = lookup key x T.toList := by
    rw [← toList_forget]
    exact find_eq_lookup (by rw [toList_forget]; exact h.ascending) (hcmp.toward_eq x)
  rw [← hfind]
  exact onRoot_eq (rbFind_eq _ hat (by omega))

/-- Every admissible call returns what it returns for the set, and does to the tree what it does to
the set. -/
theorem Represents.exec (h : Represents key S base s xs n) (hcmp : Orders cmp key) {op : TreeOp ν}
    (hop : op.Admissible xs) (hS : ∀ x, op = .insert x → x ∈ S)
    (hlimit : 2 * Nat.log 2 (xs.length + 1) + 1 < limit) (hpasses : xs.length < passes) :
    ∃ s', op.exec limit passes cmp s = .ok (op.reply key xs n) s' ∧
      Represents key S base s' (op.apply key xs) (op.count n) := by
  have hfar : 2 * Nat.log 2 (xs.length + 1) < limit := by omega
  cases op with
  | insert x =>
    obtain ⟨s', hrun, h'⟩ := h.insert hcmp (hS x rfl) hfar
    exact ⟨s', bind_of_ok hrun _, h'⟩
  | erase x =>
    obtain ⟨σ', hrun, hholds⟩ := erase_eq h.holds hop hlimit
    exact ⟨_, bind_of_ok hrun _, hholds, h.ascending.sublist List.erase_sublist,
      by rw [h.size]; rfl⟩
  | find x => exact ⟨s, bind_of_ok (h.find hcmp x hfar) _, h⟩
  -- The first element that is not smaller, which the comparison describes as well.
  | nfind x =>
    refine ⟨s, bind_of_ok (a := lookupFrom key x xs) ?_ _, h⟩
    obtain ⟨T, hat, hvalid, rfl⟩ := h.holds
    have hheight := hvalid.height_le
    have hdown : T.height < limit := by omega
    have hrun := rbNfind_eq hat (h.ascending.guided (hcmp.toward_eq x)) hdown
    have hpred : lookupFrom key x T.toList = T.toList.find? (toward (cmp x) · ≠ .gt) := by
      simp only [lookupFrom, hcmp.toward_eq, ne_eq, compare_gt_iff_gt, not_lt]
    rw [hpred]
    exact onRoot_eq hrun
  | next x => exact ⟨s, bind_of_ok (next_eq h.holds hop hfar) _, h⟩
  | prev x => exact ⟨s, bind_of_ok (prev_eq h.holds hop hfar) _, h⟩
  | front =>
    obtain ⟨x, ys, rfl⟩ := List.exists_cons_of_ne_nil hop
    exact ⟨s, bind_of_ok (front_eq h.holds hfar) _, h⟩
  | back =>
    obtain ⟨ys, x, rfl⟩ := (List.eq_nil_or_concat' _).resolve_left hop
    rw [TreeOp.reply, List.getLast?_concat]
    exact ⟨s, bind_of_ok (back_eq h.holds hfar) _, h⟩
  | empty => exact ⟨s, bind_of_ok (empty_eq h.holds) _, h⟩
  | forEach => exact ⟨s, bind_of_ok (forEach_eq h.holds hfar hpasses) _, h⟩
  | size => exact ⟨s, by rw [TreeOp.reply, ← h.size]; rfl, h⟩

/-- A call makes the set larger by at most one. -/
theorem TreeOp.length_apply_le (key : ν → κ) (op : TreeOp ν) (xs : List ν) :
    (op.apply key xs).length ≤ xs.length + 1 := by
  cases op with
  | insert x => exact (Nat.le_add_right _ _).trans_eq (length_orderedInsert key x xs)
  | erase x => exact (List.erase_sublist.length_le).trans (Nat.le_succ _)
  | _ => exact Nat.le_succ _

/-- A sequence of admissible calls. -/
theorem Represents.execAll (h : Represents key S base s xs n) (hcmp : Orders cmp key)
    {ops : List (TreeOp ν)} (hops : TreeOp.AllAdmissible key xs ops)
    (hS : ∀ x, .insert x ∈ ops → x ∈ S) {m : ℕ} (hm : xs.length + ops.length ≤ m)
    (hlimit : 2 * Nat.log 2 (m + 1) + 1 < limit) (hpasses : m < passes) :
    ∃ s', TreeOp.execAll limit passes cmp ops s = .ok (TreeOp.replies key xs n ops) s' ∧
      Represents key S base s' (ops.foldl (fun xs op => op.apply key xs) xs)
        (ops.foldl (fun n op => op.count n) n) := by
  induction ops generalizing s xs n with
  | nil => exact ⟨s, rfl, h⟩
  | cons op ops ih =>
    rw [List.length_cons] at hm
    -- The tree never has more than `m` elements, so one bound serves for all calls.
    have hlog : Nat.log 2 (xs.length + 1) ≤ Nat.log 2 (m + 1) := Nat.log_mono_right (by omega)
    have hfar : 2 * Nat.log 2 (xs.length + 1) + 1 < limit := by omega
    have hlong : xs.length < passes := by omega
    obtain ⟨s₁, hrun, h₁⟩ := h.exec hcmp hops.1 (fun x hx => hS x (by simp [hx])) hfar hlong
    have hlen := op.length_apply_le key xs
    obtain ⟨s', hrest, h'⟩ := ih h₁ hops.2 (fun x hx => hS x (List.mem_cons_of_mem _ hx)) (by omega)
    refine ⟨s', ?_, h'⟩
    refine (bind_of_ok hrun _).trans ?_
    exact bind_of_ok hrest _

/-- A sequence of calls makes the set larger by at most as many elements. -/
theorem TreeOp.length_foldl_apply_le (key : ν → κ) (ops : List (TreeOp ν)) (xs : List ν) :
    (ops.foldl (fun xs op => op.apply key xs) xs).length ≤ xs.length + ops.length := by
  induction ops generalizing xs with
  | nil => rfl
  | cons op ops ih =>
    have hlen := op.length_apply_le key xs
    have := ih (op.apply key xs)
    rw [List.foldl_cons, List.length_cons]
    omega

omit [DecidableEq ν] in
/-- The empty tree represents the empty set. -/
theorem represents_nil (key : ν → κ) (S : Set ν) (base : ν → RbEntry ν) :
    Represents key S base ⟨⟨base, none⟩, 0⟩ [] 0 :=
  ⟨holdsValid_nil, .nil, rfl⟩

/-- The insertions of a sequence whose key is there already. -/
def TreeOp.duplicates (key : ν → κ) : List ν → List (TreeOp ν) → ℕ
  | _, [] => 0
  | xs, .insert x :: ops =>
    (if (lookup key x xs).isSome then 1 else 0) + duplicates key (orderedInsert key x xs) ops
  | xs, op :: ops => duplicates key (op.apply key xs) ops

/-- While nothing wraps, `m_size` is the number of the elements and of the insertions that put
nothing in. -/
theorem count_eq {ops : List (TreeOp ν)} {d : ℕ} (hops : TreeOp.AllAdmissible key xs ops)
    (hn : n.toNat = xs.length + d) (hlen : xs.length + d + ops.length < 2 ^ 64) :
    (ops.foldl (fun n op => op.count n) n).toNat =
      (ops.foldl (fun xs op => op.apply key xs) xs).length +
        (d + TreeOp.duplicates key xs ops) := by
  induction ops generalizing xs n d with
  | nil => exact hn
  | cons op ops ih =>
    obtain ⟨hop, hops⟩ := hops
    rw [List.length_cons] at hlen
    cases op with
    | insert x =>
      have hlen' := length_orderedInsert key x xs
      -- Neither `+ 1` nor `- 1` wraps: the count stays below the number of calls.
      have hcount : (n + 1).toNat = n.toNat + 1 := by
        rw [UInt64.toNat_add, Nat.mod_eq_of_lt]
        · rfl
        · show n.toNat + 1 < _
          omega
      rw [TreeOp.duplicates, ← add_assoc d]
      refine ih hops ?_ ?_
      · show (n + 1).toNat = (orderedInsert key x xs).length + _
        omega
      · show (orderedInsert key x xs).length + _ + _ < _
        omega
    | erase x =>
      have hpos : 0 < xs.length := List.length_pos_of_mem hop
      have hlen' : (xs.erase x).length = xs.length - 1 := List.length_erase_of_mem hop
      have hcount : (n - 1).toNat = n.toNat - 1 := UInt64.toNat_sub_of_le _ _ (by
        rw [UInt64.le_iff_toNat_le, hn]
        show 1 ≤ _
        omega)
      refine ih hops ?_ ?_
      · show (n - 1).toNat = (xs.erase x).length + _
        omega
      · show (xs.erase x).length + _ + _ < _
        omega
    | find => exact ih hops hn (Nat.lt_of_succ_lt hlen)
    | nfind => exact ih hops hn (Nat.lt_of_succ_lt hlen)
    | next => exact ih hops hn (Nat.lt_of_succ_lt hlen)
    | prev => exact ih hops hn (Nat.lt_of_succ_lt hlen)
    | front => exact ih hops hn (Nat.lt_of_succ_lt hlen)
    | back => exact ih hops hn (Nat.lt_of_succ_lt hlen)
    | empty => exact ih hops hn (Nat.lt_of_succ_lt hlen)
    | forEach => exact ih hops hn (Nat.lt_of_succ_lt hlen)
    | size => exact ih hops hn (Nat.lt_of_succ_lt hlen)

/-- After a sequence of calls on an empty tree `size` is the number of the elements, plus one for
each insertion of a key that was there. -/
theorem size_eq_length_add_duplicates (hcmp : Orders cmp key) (entry : ν → RbEntry ν)
    (limit passes : ℕ) (ops : List (TreeOp ν)) (hops : TreeOp.AllAdmissible key [] ops)
    (hlen : ops.length < 2 ^ 64) (hlimit : 2 * Nat.log 2 (ops.length + 1) + 1 < limit)
    (hpasses : ops.length < passes) :
    ∃ r s' ys, TreeOp.execAll limit passes cmp ops ⟨⟨entry, none⟩, 0⟩ = .ok r s' ∧
      IntrusiveRedBlackTree.forEach limit passes s' = .ok ys s' ∧
      s'.size.toNat = ys.length + TreeOp.duplicates key [] ops := by
  obtain ⟨s', hrun, h'⟩ := (represents_nil key Set.univ entry).execAll hcmp hops
    (fun x _ => Set.mem_univ x) (by simp) hlimit hpasses
  have hcount := count_eq (n := 0) (d := 0) hops rfl (by simpa using hlen)
  have hle := TreeOp.length_foldl_apply_le key ops []
  rw [List.length_nil, Nat.zero_add] at hle
  have hlog := Nat.log_mono_right (b := 2) (Nat.add_le_add_right hle 1)
  refine ⟨_, s', _, hrun, forEach_eq h'.holds (by omega) (by omega), ?_⟩
  rw [h'.size, hcount, Nat.zero_add]

/-- Two of three insertions are of one key. -/
theorem size_eq_length_add_duplicates_of_three :
    ∃ r s' ys, TreeOp.execAll 6 6 (fun a b : ℕ => (a : ℤ) - b) [.insert 2, .insert 1, .insert 2]
        ⟨⟨fun _ => ⟨none, none, none, .black⟩, none⟩, 0⟩ = .ok r s' ∧
      IntrusiveRedBlackTree.forEach 6 6 s' = .ok ys s' ∧ s'.size.toNat = ys.length + 1 := by
  have hcmp : Orders (fun a b : ℕ => (a : ℤ) - b) id := ⟨fun a b => by simp, fun a b => by simp⟩
  exact size_eq_length_add_duplicates hcmp (fun _ => ⟨none, none, none, .black⟩) 6 6
    [.insert 2, .insert 1, .insert 2] (by decide) (by decide) (by decide) (by decide)

end Runs

/-! ## Keys that change

The key of a node can change while the node is in a tree: `Function::IdByRPO` numbers values anew.
Each call is then made with a comparison of its own. -/

section Comparisons

variable {ν : Type} [DecidableEq ν] {S : Set ν} {base : ν → RbEntry ν} {s : IntrusiveRedBlackTree ν}
  {xs : List ν} {limit passes : ℕ}

namespace TreeOp

/-- The calls are admissible, and no node that is there is inserted. -/
def Permitted (xs : List ν) : TreeOp ν → Prop
  | insert x => x ∉ xs
  | op => op.Admissible xs

/-- What a call can do whatever the comparison: an insertion puts the node somewhere or nowhere, and
a search comes to some node or to none. -/
def Outcome (s : IntrusiveRedBlackTree ν) (xs : List ν) (r : Reply ν) (xs' : List ν) :
    TreeOp ν → Prop
  | insert x => r = .iterator (some x) ∧
      (xs' = xs ∨ ∃ before after, xs = before ++ after ∧ xs' = before ++ x :: after)
  | erase x => r = .iterator (successor x xs) ∧ xs' = xs.erase x
  | find _ | nfind _ => xs' = xs ∧ ∃ it, r = .iterator it ∧ ∀ y, it = some y → y ∈ xs
  | next x => xs' = xs ∧ r = .iterator (successor x xs)
  | prev x => xs' = xs ∧ r = .iterator (predecessor x xs)
  | front => xs' = xs ∧ r = .iterator xs.head?
  | back => xs' = xs ∧ r = .iterator xs.getLast?
  | empty => xs' = xs ∧ r = .empty xs.isEmpty
  | forEach => xs' = xs ∧ r = .visited xs
  | size => xs' = xs ∧ r = .size s.size

/-- Each call of a sequence, as long as the calls are permitted, returns with such an outcome, and
leaves a valid tree. -/
def Safe (S : Set ν) (base : ν → RbEntry ν) (limit passes : ℕ) :
    List ((ν → ν → ℤ) × TreeOp ν) → IntrusiveRedBlackTree ν → List ν → Prop
  | [], _, _ => True
  | (cmp, op) :: calls, s, xs => op.Permitted xs →
      ∃ r s' xs', op.exec limit passes cmp s = .ok r s' ∧ op.Outcome s xs r xs' ∧
        HoldsValid S base xs' s'.root ∧ Safe S base limit passes calls s' xs'

/-- A call adds at most one element. -/
theorem Outcome.length_le {op : TreeOp ν} {r : Reply ν} {xs' : List ν} (h : op.Outcome s xs r xs') :
    xs'.length ≤ xs.length + 1 := by
  cases op with
  | insert x =>
    obtain ⟨-, rfl | ⟨before, after, rfl, rfl⟩⟩ := h
    · omega
    · simp
      omega
  | erase x =>
    obtain ⟨-, rfl⟩ := h
    exact List.erase_sublist.length_le.trans (Nat.le_succ _)
  | _ =>
    obtain ⟨rfl, -⟩ := h
    omega

/-- One call, whatever the comparison. -/
theorem exec_of_permitted (h : HoldsValid S base xs s.root) (cmp : ν → ν → ℤ) {op : TreeOp ν}
    (hop : op.Permitted xs) (hS : ∀ x, op = .insert x → x ∈ S)
    (hlimit : 2 * Nat.log 2 (xs.length + 1) + 1 < limit) (hpasses : xs.length < passes) :
    ∃ r s' xs', op.exec limit passes cmp s = .ok r s' ∧ op.Outcome s xs r xs' ∧
      HoldsValid S base xs' s'.root := by
  have hfar : 2 * Nat.log 2 (xs.length + 1) < limit := by omega
  -- The set is not known to be in order here. What an insertion and a search do is known from the
  -- tree that is in memory, and the other calls do not compare.
  cases op with
  | insert x =>
    obtain ⟨T, hat, hvalid, rfl⟩ := h
    obtain ⟨σ', hrun, hholds⟩ := insert_eq cmp hat hvalid (hS x rfl) (fun _ => hop) hfar
    refine ⟨_, _, _, bind_of_ok hrun _, ⟨rfl, ?_⟩, hholds⟩
    cases hfind : T.forget.find (toward (cmp x)) with
    | some y => exact .inl (by rw [SearchTree.insert_of_find hfind, toList_forget])
    | none =>
      obtain ⟨before, after, hsplit, hins⟩ := SearchTree.exists_toList_insert hfind x
      exact .inr ⟨before, after, by rw [← toList_forget, hsplit], hins⟩
  | erase x =>
    obtain ⟨σ', hrun, hholds⟩ := erase_eq h hop hlimit
    exact ⟨_, _, _, bind_of_ok hrun _, ⟨rfl, rfl⟩, hholds⟩
  | find x =>
    obtain ⟨T, hat, hvalid, rfl⟩ := h
    have hheight := hvalid.height_le
    have hdown : T.height < limit := by omega
    refine ⟨_, s, _, bind_of_ok (onRoot_eq (rbFind_eq (cmp x) hat hdown)) _, ⟨rfl, _, rfl, ?_⟩, T,
      hat, hvalid, rfl⟩
    intro y hy
    rw [← toList_forget]
    exact SearchTree.mem_of_find hy
  | nfind x =>
    obtain ⟨T, hat, hvalid, rfl⟩ := h
    have hheight := hvalid.height_le
    have hdown : T.height < limit := by omega
    obtain ⟨r, hrun, hmem⟩ := rbNfind_mem (cmp x) hat hdown
    exact ⟨_, s, _, bind_of_ok (onRoot_eq hrun) _, ⟨rfl, _, rfl, hmem⟩, T, hat, hvalid, rfl⟩
  | next x => exact ⟨_, s, xs, bind_of_ok (next_eq h hop hfar) _, ⟨rfl, rfl⟩, h⟩
  | prev x => exact ⟨_, s, xs, bind_of_ok (prev_eq h hop hfar) _, ⟨rfl, rfl⟩, h⟩
  | front =>
    obtain ⟨x, ys, rfl⟩ := List.exists_cons_of_ne_nil hop
    exact ⟨_, s, _, bind_of_ok (front_eq h hfar) _, ⟨rfl, rfl⟩, h⟩
  | back =>
    obtain ⟨ys, x, rfl⟩ := (List.eq_nil_or_concat' _).resolve_left hop
    exact ⟨_, s, _, bind_of_ok (back_eq h hfar) _, ⟨rfl, by rw [List.getLast?_concat]⟩, h⟩
  | empty => exact ⟨_, s, xs, bind_of_ok (empty_eq h) _, ⟨rfl, rfl⟩, h⟩
  | forEach => exact ⟨_, s, xs, bind_of_ok (forEach_eq h hfar hpasses) _, ⟨rfl, rfl⟩, h⟩
  | size => exact ⟨_, s, xs, rfl, ⟨rfl, rfl⟩, h⟩

/-- A sequence of calls, each with its own comparison. -/
theorem safe_of_holdsValid {calls : List ((ν → ν → ℤ) × TreeOp ν)} (h : HoldsValid S base xs s.root)
    (hS : ∀ x, .insert x ∈ calls.map Prod.snd → x ∈ S) {m : ℕ} (hm : xs.length + calls.length ≤ m)
    (hlimit : 2 * Nat.log 2 (m + 1) + 1 < limit) (hpasses : m < passes) :
    Safe S base limit passes calls s xs := by
  induction calls generalizing s xs with
  | nil => trivial
  | cons call calls ih =>
    obtain ⟨cmp, op⟩ := call
    intro hop
    rw [List.length_cons] at hm
    have hlog : Nat.log 2 (xs.length + 1) ≤ Nat.log 2 (m + 1) := Nat.log_mono_right (by omega)
    obtain ⟨r, s', xs', hrun, hout, h'⟩ :=
      exec_of_permitted h cmp hop (fun x hx => hS x (by simp [hx]))
      (by omega : 2 * Nat.log 2 (xs.length + 1) + 1 < limit) (by omega : xs.length < passes)
    have hlen := hout.length_le
    exact ⟨r, s', xs', hrun, hout, h',
      ih h' (fun x hx => hS x (List.mem_cons_of_mem _ hx)) (by omega)⟩

end TreeOp

/-- Whatever the comparisons of the calls and however they change from call to call, a sequence of
calls on an empty tree returns and leaves a valid tree after each call, as long as no node that is
linked is inserted and no node that is not linked is erased. -/
theorem run_safe_for_any_comparison (entry : ν → RbEntry ν) (limit passes : ℕ)
    (calls : List ((ν → ν → ℤ) × TreeOp ν)) (hlimit : 2 * Nat.log 2 (calls.length + 1) + 1 < limit)
    (hpasses : calls.length < passes) :
    TreeOp.Safe {x | .insert x ∈ calls.map Prod.snd} entry limit passes calls
      ⟨⟨entry, none⟩, 0⟩ [] :=
  TreeOp.safe_of_holdsValid holdsValid_nil (fun _ hx => hx) (by simp) hlimit hpasses

/-- Every node is put to the right, then every node is put to the left. -/
theorem run_safe_for_any_comparison_of_three :
    TreeOp.Safe {x | TreeOp.insert x ∈ [TreeOp.insert 0, .insert 1, .insert 2]}
      (fun _ => ⟨none, none, none, .black⟩) 6 6
      [(fun _ _ => 1, .insert 0), (fun _ _ => 1, .insert 1), (fun _ _ => -1, .insert 2)]
      ⟨⟨fun _ => ⟨none, none, none, .black⟩, none⟩, 0⟩ [] :=
  run_safe_for_any_comparison (fun _ => ⟨none, none, none, .black⟩) 6 6
    [(fun _ _ => 1, .insert 0), (fun _ _ => 1, .insert 1), (fun _ _ => -1, .insert 2)]
    (by decide) (by decide)

end Comparisons

end SwiftRuntime.Vapours
