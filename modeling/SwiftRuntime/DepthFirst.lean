import SwiftRuntime.Multigraph
import Mathlib.Data.List.Chain
import Mathlib.Logic.Relation

/-!
# Depth-first search

A depth-first search with an explicit stack, from one node, over the named edges of a graph. It
records an edge that leads to a node on the stack as a back edge. When it is through, the edges that
are not recorded have no cycles, since such an edge goes to a node that is finished before the one
it comes from, and they still lead from the entry to every node that the search has met, and from
the target of a back edge to its source (`Explored`).

The invariant says what the stack is: a path of tree edges, on which every node has been scanned up
to the edge to the node above it.
-/

namespace SwiftRuntime.DepthFirst

open Relation

/-- The state of a search. -/
structure State (V ι : Type*) where
  /-- The nodes that are being visited, the last one first. -/
  stack : List V
  /-- The edges that have been followed. -/
  seen : List ι
  /-- The nodes that are done, the last one first. -/
  finished : List V
  /-- The edges that were found to lead back to the stack. -/
  back : List ι
  /-- The edges by which nodes were found. -/
  tree : List ι

variable {V ι : Type*} [DecidableEq V] (G : Multigraph V ι) (entry : V)

/-- The start of a search. -/
def start : State V ι := ⟨[entry], [], [], [], []⟩

/-- A step of a search: the node on top of the stack is left, or its next edge is followed. -/
def step (s : State V ι) : Option (State V ι) :=
  match s.stack with
  | [] => none
  | u :: rest =>
    match G.next s.seen u with
    | none => some { s with stack := rest, finished := u :: s.finished }
    | some e =>
      if G.dest e ∈ s.stack then some { s with seen := s.seen ++ [e], back := s.back ++ [e] }
      else if G.dest e ∈ s.finished then some { s with seen := s.seen ++ [e] }
      else some { s with
        stack := G.dest e :: s.stack
        seen := s.seen ++ [e]
        tree := s.tree ++ [e] }

/-- The search comes to an end in a state. -/
def Explores (s : State V ι) : Prop :=
  ReflTransGen (fun s t => step G s = some t) (start entry) s ∧ s.stack = []

omit [DecidableEq V] in
/-- Nodes with a tree edge between them. -/
def TreeAdj (s : State V ι) (u v : V) : Prop := ∃ e ∈ s.tree, G.src e = u ∧ G.dest e = v

/-- The invariant of a search. -/
structure Invariant (s : State V ι) : Prop where
  /-- The edges of a node are followed in order. -/
  scanned : G.Scanned s.seen
  /-- A node is met once. -/
  nodup : (s.stack ++ s.finished).Nodup
  /-- The ends of edges that have been followed have been met. -/
  visited : ∀ e ∈ s.seen, G.src e ∈ s.stack ++ s.finished ∧ G.dest e ∈ s.stack ++ s.finished
  /-- The entry has been met. -/
  entry_mem : entry ∈ s.stack ++ s.finished
  /-- Back edges have been followed. -/
  back : s.back.Sublist s.seen
  /-- So have tree edges, which are no back edges. -/
  tree : ∀ e ∈ s.tree, e ∈ s.seen ∧ e ∉ s.back
  /-- The stack is a path of tree edges. -/
  chain : s.stack.IsChain fun v u => TreeAdj G s u v
  /-- Tree edges lead to every node that has been met. -/
  reach : ∀ u ∈ s.stack ++ s.finished, ReflTransGen (TreeAdj G s) entry u
  /-- They lead from the target of a back edge to its source. -/
  back_reach : ∀ e ∈ s.back, ReflTransGen (TreeAdj G s) (G.dest e) (G.src e)
  /-- The edges followed from a node on the stack are back edges, or lead to finished nodes, or to
  the node above. -/
  scan : ∀ above u below, s.stack = above ++ u :: below → ∀ e ∈ s.seen, G.src e = u →
    e ∈ s.back ∨ G.dest e ∈ s.finished ∨ ∃ rest, above = rest ++ [G.dest e]
  /-- The edges of a finished node are back edges or lead to nodes finished earlier. -/
  order : ∀ later u earlier, s.finished = later ++ u :: earlier → ∀ e ∈ G.edges, G.src e = u →
    e ∈ s.back ∨ G.dest e ∈ earlier

/-- What a search has found when it is through. -/
structure Explored (s : State V ι) : Prop where
  /-- A node is finished once. -/
  nodup : s.finished.Nodup
  /-- Back edges are edges. -/
  back : ∀ e ∈ s.back, e ∈ G.edges
  /-- A back edge is recorded once. -/
  back_nodup : s.back.Nodup
  /-- The other edges of a finished node lead to nodes finished earlier. -/
  order : ∀ later u earlier, s.finished = later ++ u :: earlier → ∀ v, G.AdjExcept s.back u v →
    v ∈ earlier
  /-- The other edges lead from the entry to the finished nodes. -/
  reach : ∀ u ∈ s.finished, ReflTransGen (G.AdjExcept s.back) entry u
  /-- They lead from the target of a back edge to its source. -/
  back_reach : ∀ e ∈ s.back, ReflTransGen (G.AdjExcept s.back) (G.dest e) (G.src e)
  /-- The nodes that can be reached are finished. -/
  closed : ∀ u, ReflTransGen G.Adj entry u → u ∈ s.finished

section Steps

variable {G entry} {s t : State V ι} {u : V} {rest : List V} {e : ι}

/-- The invariant holds at the start, with the entry on the stack. -/
theorem invariant_start : Invariant G entry (start entry) where
  scanned := Multigraph.scanned_nil
  nodup := List.nodup_singleton entry
  visited := by simp [start]
  entry_mem := by simp [start]
  back := List.Sublist.refl _
  tree := by simp [start]
  chain := List.isChain_singleton entry
  reach u hu := by
    rw [show u = entry by simpa [start] using hu]
  back_reach := by simp [start]
  scan := by simp [start]
  order := by simp [start]

omit [DecidableEq V] in
/-- Nodes on the stack lead to the top of it. -/
theorem reach_top {stack : List V} (h : (u :: stack).IsChain fun v u => TreeAdj G s u v) {v : V}
    (hv : v ∈ u :: stack) : ReflTransGen (TreeAdj G s) v u := by
  induction stack generalizing u with
  | nil => rw [List.mem_singleton.mp hv]
  | cons w stack ih =>
    obtain ⟨hwu, hrest⟩ := List.isChain_cons_cons.mp h
    rcases List.mem_cons.mp hv with rfl | hv
    · exact .refl
    · exact (ih hrest hv).tail hwu

/-- The node on top of the stack is left. -/
theorem Invariant.pop (h : Invariant G entry s) (hstack : s.stack = u :: rest)
    (hnext : G.next s.seen u = none) :
    Invariant G entry { s with stack := rest, finished := u :: s.finished } := by
  have hmem : ∀ v, v ∈ rest ++ u :: s.finished ↔ v ∈ s.stack ++ s.finished := by
    intro v
    rw [hstack]
    simp only [List.mem_append, List.mem_cons]
    tauto
  have hperm : (rest ++ u :: s.finished).Perm (s.stack ++ s.finished) := by
    rw [hstack]
    exact List.perm_middle
  have hchain := h.chain
  rw [hstack] at hchain
  refine { h with
    nodup := hperm.nodup_iff.mpr h.nodup
    visited := fun e he => ⟨(hmem _).mpr (h.visited e he).1, (hmem _).mpr (h.visited e he).2⟩
    entry_mem := (hmem _).mpr h.entry_mem
    chain := hchain.tail
    reach := fun v hv => h.reach v ((hmem v).mp hv)
    scan := ?_
    order := ?_ }
  · intro above w below hsplit e he hw
    rcases h.scan (u :: above) w below (by rw [hstack, List.cons_append]; exact congrArg _ hsplit) e
      he hw with hb | hf | ⟨rest', habove⟩
    · exact .inl hb
    · exact .inr (.inl (List.mem_cons_of_mem _ hf))
    · -- The node above may be the one that is left.
      cases rest' with
      | nil =>
        obtain ⟨hu, -⟩ := List.cons.inj habove
        exact .inr (.inl (hu ▸ List.mem_cons_self))
      | cons x rest' => exact .inr (.inr ⟨rest', (List.cons.inj habove).2⟩)
  · intro later w earlier hsplit e he hw
    cases later with
    | nil =>
      obtain ⟨rfl, rfl⟩ := List.cons.inj hsplit
      rcases h.scan [] u rest hstack e (h.scanned.mem_of_next_none hnext he hw) hw with
        hb | hf | ⟨rest', habove⟩
      · exact .inl hb
      · exact .inr hf
      · simp at habove
    | cons x later => exact h.order later w earlier (List.cons.inj hsplit).2 e he hw

/-- What is common to all steps that follow an edge. -/
theorem Invariant.mem_seen (h : Invariant G entry s) (hnext : G.next s.seen u = some e) {e' : ι}
    (he' : e' ∈ s.seen ++ [e]) (hne : G.src e' ≠ u) : e' ∈ s.seen := by
  rcases List.mem_append.mp he' with he' | he'
  · exact he'
  · rw [List.mem_singleton.mp he'] at hne
    exact absurd (h.scanned.next_spec hnext).2.1 hne

/-- An edge is followed to a node on the stack. -/
theorem Invariant.seeBack (h : Invariant G entry s) (hstack : s.stack = u :: rest)
    (hnext : G.next s.seen u = some e) (hdest : G.dest e ∈ s.stack) :
    Invariant G entry { s with seen := s.seen ++ [e], back := s.back ++ [e] } := by
  -- The edge leads to a node below the top of the stack, from where tree edges lead up to its
  -- source.
  obtain ⟨hedge, hsrc, hnew, hscanned⟩ := h.scanned.next_spec hnext
  refine { h with
    scanned := hscanned
    visited := ?_
    back := h.back.append (List.Sublist.refl _)
    tree := ?_
    back_reach := ?_
    scan := ?_
    order := ?_ }
  · intro e' he'
    rcases List.mem_append.mp he' with he' | he'
    · exact h.visited e' he'
    · rw [List.mem_singleton.mp he', hsrc]
      exact ⟨by simp [hstack], List.mem_append_left _ hdest⟩
  · intro e' he'
    obtain ⟨hseen, hback⟩ := h.tree e' he'
    refine ⟨List.mem_append_left _ hseen, fun hb => ?_⟩
    rcases List.mem_append.mp hb with hb | hb
    · exact hback hb
    · exact hnew (List.mem_singleton.mp hb ▸ hseen)
  · intro e' he'
    rcases List.mem_append.mp he' with he' | he'
    · exact h.back_reach e' he'
    · rw [List.mem_singleton.mp he', hsrc]
      have hchain := h.chain
      rw [hstack] at hchain hdest
      exact reach_top hchain hdest
  · intro above w below hsplit e' he' hw
    rcases List.mem_append.mp he' with he' | he'
    · rcases h.scan above w below hsplit e' he' hw with hb | hother
      · exact .inl (List.mem_append_left _ hb)
      · exact .inr hother
    · exact .inl (List.mem_append_right _ he')
  · intro later w earlier hsplit e' he' hw
    rcases h.order later w earlier hsplit e' he' hw with hb | hearlier
    · exact .inl (List.mem_append_left _ hb)
    · exact .inr hearlier

/-- An edge is followed to a finished node. -/
theorem Invariant.see (h : Invariant G entry s) (hstack : s.stack = u :: rest)
    (hnext : G.next s.seen u = some e) (hdest : G.dest e ∈ s.finished) :
    Invariant G entry { s with seen := s.seen ++ [e] } := by
  -- The node has been finished before, so it comes earlier in the order.
  obtain ⟨hedge, hsrc, hnew, hscanned⟩ := h.scanned.next_spec hnext
  refine { h with
    scanned := hscanned
    visited := ?_
    back := h.back.trans (List.sublist_append_left _ _)
    tree := fun e' he' => ⟨List.mem_append_left _ (h.tree e' he').1, (h.tree e' he').2⟩
    scan := ?_ }
  · intro e' he'
    rcases List.mem_append.mp he' with he' | he'
    · exact h.visited e' he'
    · rw [List.mem_singleton.mp he', hsrc]
      exact ⟨by simp [hstack], List.mem_append_right _ hdest⟩
  · intro above w below hsplit e' he' hw
    rcases List.mem_append.mp he' with he' | he'
    · exact h.scan above w below hsplit e' he' hw
    · exact .inr (.inl (List.mem_singleton.mp he' ▸ hdest))

/-- An edge is followed to a new node. -/
theorem Invariant.push (h : Invariant G entry s) (hstack : s.stack = u :: rest)
    (hnext : G.next s.seen u = some e) (hdest : G.dest e ∉ s.stack)
    (hdest' : G.dest e ∉ s.finished) :
    Invariant G entry { s with
      stack := G.dest e :: s.stack
      seen := s.seen ++ [e]
      tree := s.tree ++ [e] } := by
  obtain ⟨hedge, hsrc, hnew, hscanned⟩ := h.scanned.next_spec hnext
  have hfresh : G.dest e ∉ s.stack ++ s.finished := by simp [hdest, hdest']
  have hu : u ∈ s.stack ++ s.finished := by simp [hstack]
  have hmono : ∀ x y, TreeAdj G s x y → TreeAdj G { s with
      stack := G.dest e :: s.stack
      seen := s.seen ++ [e]
      tree := s.tree ++ [e] } x y :=
    fun x y ⟨e', he', hx, hy⟩ => ⟨e', List.mem_append_left _ he', hx, hy⟩
  have hadj : TreeAdj G { s with
      stack := G.dest e :: s.stack
      seen := s.seen ++ [e]
      tree := s.tree ++ [e] } u (G.dest e) := ⟨e, by simp, hsrc, rfl⟩
  refine {
    scanned := hscanned
    nodup := List.nodup_cons.mpr ⟨hfresh, h.nodup⟩
    visited := ?_
    entry_mem := List.mem_cons_of_mem _ h.entry_mem
    back := h.back.trans (List.sublist_append_left _ _)
    tree := ?_
    chain := ?_
    reach := ?_
    back_reach := fun e' he' => ReflTransGen.mono hmono _ _ (h.back_reach e' he')
    scan := ?_
    order := h.order }
  · intro e' he'
    rcases List.mem_append.mp he' with he' | he'
    · obtain ⟨hs, hd⟩ := h.visited e' he'
      exact ⟨List.mem_cons_of_mem _ hs, List.mem_cons_of_mem _ hd⟩
    · rw [List.mem_singleton.mp he', hsrc]
      exact ⟨List.mem_cons_of_mem _ hu, List.mem_cons_self⟩
  · intro e' he'
    rcases List.mem_append.mp he' with he' | he'
    · exact ⟨List.mem_append_left _ (h.tree e' he').1, (h.tree e' he').2⟩
    · rw [List.mem_singleton.mp he']
      exact ⟨by simp, fun hb => hnew (h.back.subset hb)⟩
  · have hchain := h.chain.imp fun x y => hmono y x
    rw [hstack] at hchain ⊢
    exact List.isChain_cons_cons.mpr ⟨hadj, hchain⟩
  · intro v hv
    rcases List.mem_cons.mp hv with rfl | hv
    · exact (ReflTransGen.mono hmono _ _ (h.reach u hu)).tail hadj
    · exact ReflTransGen.mono hmono _ _ (h.reach v hv)
  · intro above w below hsplit e' he' hw
    cases above with
    | nil =>
      -- No edge has been followed from the new node.
      obtain ⟨rfl, -⟩ := List.cons.inj hsplit
      have hne : G.src e' ≠ u := fun heq => hfresh (by rw [← hw, heq]; exact hu)
      exact absurd (h.visited e' (h.mem_seen hnext he' hne)).1 (hw ▸ hfresh)
    | cons x above =>
      obtain ⟨rfl, hsplit'⟩ := List.cons.inj hsplit
      rcases List.mem_append.mp he' with he' | he'
      · rcases h.scan above w below hsplit' e' he' hw with hb | hf | ⟨rest', rfl⟩
        · exact .inl hb
        · exact .inr (.inl hf)
        · exact .inr (.inr ⟨G.dest e :: rest', rfl⟩)
      · -- The new edge is the one to the node above.
        obtain rfl := List.mem_singleton.mp he'
        rw [hstack] at hsplit'
        have hnodup := h.nodup
        rw [hstack] at hnodup
        cases above with
        | nil => exact .inr (.inr ⟨[], rfl⟩)
        | cons y above =>
          obtain ⟨rfl, hrest⟩ := List.cons.inj hsplit'
          rw [← hw, hsrc] at hrest
          refine absurd ?_ (List.nodup_cons.mp hnodup).1
          simp [hrest]

/-- The step that leaves the node on top of the stack. -/
theorem step_pop (hstack : s.stack = u :: rest) (hnext : G.next s.seen u = none) :
    step G s = some { s with stack := rest, finished := u :: s.finished } := by
  obtain ⟨stack, seen, finished, back, tree⟩ := s
  cases hstack
  simp only [step, hnext]

/-- The steps that follow an edge. -/
theorem step_follow (hstack : s.stack = u :: rest) (hnext : G.next s.seen u = some e) :
    step G s =
      if G.dest e ∈ s.stack then some { s with seen := s.seen ++ [e], back := s.back ++ [e] }
      else if G.dest e ∈ s.finished then some { s with seen := s.seen ++ [e] }
      else some { s with
        stack := G.dest e :: s.stack
        seen := s.seen ++ [e]
        tree := s.tree ++ [e] } := by
  obtain ⟨stack, seen, finished, back, tree⟩ := s
  cases hstack
  simp only [step, hnext]

/-- A step keeps the invariant. -/
theorem Invariant.step (h : Invariant G entry s) (hstep : step G s = some t) :
    Invariant G entry t := by
  cases hstack : s.stack with
  | nil =>
    rw [DepthFirst.step, hstack] at hstep
    cases hstep
  | cons u rest =>
    cases hnext : G.next s.seen u with
    | none =>
      rw [step_pop hstack hnext] at hstep
      cases hstep
      exact h.pop hstack hnext
    | some e =>
      rw [step_follow hstack hnext] at hstep
      -- To a node on the stack, to a finished one, or to a new one.
      split_ifs at hstep with hs hf
      · cases hstep
        exact h.seeBack hstack hnext hs
      · cases hstep
        exact h.see hstack hnext hf
      · cases hstep
        exact h.push hstack hnext hs hf

end Steps

section Through

variable {G : Multigraph V ι} {entry : V} {s : State V ι}

/-- The invariant holds throughout a search. -/
theorem invariant_of_steps
    (h : ReflTransGen (fun s t => step G s = some t) (start entry) s) : Invariant G entry s := by
  induction h with
  | refl => exact invariant_start
  | tail _ hstep ih => exact ih.step hstep

/-- A search comes to one end. -/
theorem Explores.unique {s' : State V ι} (h : Explores G entry s) (h' : Explores G entry s') :
    s = s' := by
  have hlast : ∀ {s t : State V ι}, s.stack = [] →
      ReflTransGen (fun s t => step G s = some t) s t → s = t := by
    intro s t hstack hst
    rcases hst.cases_head with rfl | ⟨t', hstep, -⟩
    · rfl
    · simp [step, hstack] at hstep
  have hdet : Relator.RightUnique fun s t : State V ι => step G s = some t :=
    fun _ _ _ hb hc => Option.some.inj (hb.symm.trans hc)
  rcases ReflTransGen.total_of_right_unique hdet h.1 h'.1 with hss | hss
  · exact hlast h.2 hss
  · exact (hlast h'.2 hss).symm

/-- What a search has found when it is through. -/
theorem Explores.explored (h : Explores G entry s) : Explored G entry s := by
  obtain ⟨hsteps, hstack⟩ := h
  have hinv := invariant_of_steps hsteps
  have hmem : ∀ v, v ∈ s.stack ++ s.finished ↔ v ∈ s.finished := by simp [hstack]
  -- The stack is empty: what has been visited is finished, and the tree edges are no back edges.
  have htree : ∀ u v, TreeAdj G s u v → G.AdjExcept s.back u v := by
    rintro u v ⟨e, he, hu, hv⟩
    obtain ⟨hseen, hback⟩ := hinv.tree e he
    exact ⟨e, hinv.scanned.mem_edges hseen, hback, hu, hv⟩
  refine ⟨?_, fun e he => hinv.scanned.mem_edges (hinv.back.subset he),
    hinv.scanned.nodup.sublist hinv.back, ?_, fun u hu => ?_, fun e he => ?_, fun u hu => ?_⟩
  · simpa [hstack] using hinv.nodup
  · rintro later u earlier hsplit v ⟨e, he, hback, hu, rfl⟩
    exact (hinv.order later u earlier hsplit e he hu).resolve_left hback
  · exact ReflTransGen.mono htree _ _ (hinv.reach u ((hmem u).mpr hu))
  · exact ReflTransGen.mono htree _ _ (hinv.back_reach e he)
  -- What can be reached is finished: every edge of a finished node leads to a visited one.
  · induction hu with
    | refl => exact (hmem _).mp hinv.entry_mem
    | tail _ hadj ih =>
      obtain ⟨e, he, hu, rfl⟩ := hadj
      obtain ⟨later, earlier, hsplit⟩ := List.append_of_mem ih
      rcases hinv.order later _ earlier hsplit e he hu with hback | hearlier
      · exact (hmem _).mp (hinv.visited e (hinv.back.subset hback)).2
      · rw [hsplit]
        simp [hearlier]

variable {u v : V}

/-- An edge that is not recorded goes to a node that is finished earlier, that is further back in
the list. -/
theorem Explored.idxOf_lt (h : Explored G entry s) (hu : u ∈ s.finished)
    (huv : G.AdjExcept s.back u v) :
    s.finished.idxOf u < s.finished.idxOf v := by
  obtain ⟨later, earlier, hsplit⟩ := List.append_of_mem hu
  have hv := h.order later u earlier hsplit v huv
  have hnodup := h.nodup
  rw [hsplit, List.nodup_append, List.nodup_cons] at hnodup
  have hu' : u ∉ later := fun hmem => hnodup.2.2 u hmem u List.mem_cons_self rfl
  have hv' : v ∉ later := fun hmem => hnodup.2.2 v hmem v (List.mem_cons_of_mem _ hv) rfl
  have hne : u ≠ v := fun he => hnodup.2.1.1 (he ▸ hv)
  rw [hsplit, List.idxOf_append_of_notMem hu', List.idxOf_append_of_notMem hv',
    List.idxOf_cons_self, List.idxOf_cons_ne _ hne]
  omega

omit [DecidableEq V] in
/-- The nodes that edges from finished nodes lead to are finished. -/
theorem Explored.mem_of_adj (h : Explored G entry s) (hu : u ∈ s.finished) (huv : G.Adj u v) :
    v ∈ s.finished :=
  h.closed v ((ReflTransGen.mono (fun _ _ => Multigraph.AdjExcept.adj) _ _ (h.reach u hu)).tail huv)

/-- The edges that are not recorded have no cycles. -/
theorem Explored.acyclic (h : Explored G entry s) (hu : u ∈ s.finished)
    (huv : G.AdjExcept s.back u v) :
    ¬ ReflTransGen (G.AdjExcept s.back) v u := by
  have key : ∀ w, ReflTransGen (G.AdjExcept s.back) v w →
      w ∈ s.finished ∧ s.finished.idxOf u < s.finished.idxOf w := by
    intro w hw
    induction hw with
    | refl => exact ⟨h.mem_of_adj hu huv.adj, h.idxOf_lt hu huv⟩
    | tail _ hadj ih =>
      exact ⟨h.mem_of_adj ih.1 hadj.adj, ih.2.trans (h.idxOf_lt ih.1 hadj)⟩
  exact fun hvu => lt_irrefl _ (key u hvu).2

omit [DecidableEq V] in
/-- What can be reached from finished nodes is finished. -/
theorem Explored.mem_of_reach (h : Explored G entry s) (hu : u ∈ s.finished)
    (huv : ReflTransGen (G.AdjExcept s.back) u v) : v ∈ s.finished := by
  induction huv with
  | refl => exact hu
  | tail _ hadj ih => exact h.mem_of_adj ih hadj.adj

/-- An edge from a finished node to the entry is a back edge. -/
theorem Explored.mem_back_of_entry (h : Explored G entry s) {e : ι} (he : e ∈ G.edges)
    (hu : G.src e ∈ s.finished) (hdest : G.dest e = entry) : e ∈ s.back := by
  by_contra hback
  exact h.acyclic hu ⟨e, he, hback, rfl, hdest⟩ (h.reach _ hu)

end Through

end SwiftRuntime.DepthFirst
