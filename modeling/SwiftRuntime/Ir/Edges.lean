import SwiftRuntime.Ir.Builder
import Mathlib.Data.List.Perm.Subperm
import Mathlib.Data.List.Count

/-!
# Edges and terminals

A call that ends a block stores its terminal and adds an edge for every link target of it. When the
same block is ended again, the terminal is overwritten, but the edges of the first one stay. So the
edges of a finished function agree with its terminals (`Agrees`) exactly when no block is ended
again after a terminal with link targets, and no block has more edges than the 16 bit index of
`EndFunction` can count (`EndsOnce`).

That condition is about the calls alone: `History` follows them on the level of locations, where a
block is named by its start. `Tracks` relates a function under construction to its history, each
piece of a call keeps it, and so do the calls (`Tracks.step`).
-/

namespace SwiftRuntime.Ir

/-- The locations a terminal links to. -/
def Terminal.linkTargets : Terminal → List Location
  | linkBlock l | linkBlockFast l => [l]
  | if_ _ then_ else_ => [then_, else_].filterMap next
  | switch _ cases => cases.filterMap next
  | _ => []

/-- The edges of a function agree with the terminals of its blocks: the successors of a block are
the blocks at the link targets of its terminal, and predecessors mirror successors. -/
structure HirFunction.Agrees (f : HirFunction) : Prop where
  /-- Successors and link targets, with their multiplicities. -/
  successors : ∀ b < f.blockCount,
    (f.block b).successors.Perm ((f.block b).terminal.linkTargets.map f.findBlock)
  /-- Predecessors and successors, with their multiplicities. -/
  predecessors : ∀ p < f.blockCount, ∀ b < f.blockCount,
    (f.block b).predecessors.count (some p) = (f.block p).successors.count (some b)

/-! ## The history of a construction -/

/-- What the calls do on the level of locations: where the current block starts, and which blocks
have been ended with which link targets. -/
structure History where
  /-- The start of the current block. -/
  current : Option Location
  /-- The ends of blocks so far. -/
  ends : List (Location × List Location)

/-- The current block is ended. -/
def History.ended (h : History) (targets : List Location) : List (Location × List Location) :=
  h.ends ++ h.current.toList.map fun l => (l, targets)

/-- What a call adds to the history. -/
def Call.onHistory : Call → History → History
  | inst _ _, h => h
  | if_ cond then_ else_, h => ⟨then_.next, h.ended (Terminal.if_ cond then_ else_).linkTargets⟩
  | switch value cases, h =>
    ⟨(cases.filterMap Terminal.next).getLast?, h.ended (Terminal.switch value cases).linkTargets⟩
  | linkBlock next, h => ⟨some next, h.ended [next]⟩
  | appendBlock start _, h => ⟨some start, h.ends⟩

/-- All ends of blocks in a construction, with the one by the final `Return`. -/
def endsOf (begin_ : Location) (calls : List Call) : List (Location × List Location) :=
  History.ended (calls.foldl (fun h c => Call.onHistory c h) ⟨some begin_, []⟩) []

/-- The link targets of all ends of the block at a location. -/
def targetsOf (ends : List (Location × List Location)) (l : Location) : List Location :=
  (ends.filter fun e => e.1 = l).flatMap Prod.snd

/-- No block is ended again after a terminal with link targets, and no block has more than `2^16`
outgoing or incoming edges. -/
structure EndsOnce (ends : List (Location × List Location)) : Prop where
  /-- An earlier end of the same block has no link targets. -/
  once : ends.Pairwise fun x y => x.1 = y.1 → x.2 = []
  /-- The bound on outgoing edges. -/
  outgoing : ∀ l, (targetsOf ends l).length ≤ 2 ^ 16
  /-- The bound on incoming edges. -/
  incoming : ∀ l, (ends.flatMap Prod.snd).count l ≤ 2 ^ 16

/-- The links that the ends of blocks stand for. -/
def linksOf (ends : List (Location × List Location)) : List (Location × Location) :=
  ends.flatMap fun e => e.2.map fun l => (e.1, l)

/-- The links from a location go to its targets. -/
theorem map_snd_linksOf (ends : List (Location × List Location)) (l : Location) :
    ((linksOf ends).filter fun p => p.1 = l).map Prod.snd = targetsOf ends l := by
  unfold linksOf targetsOf
  induction ends with
  | nil => rfl
  | cons e ends ih =>
    rw [List.flatMap_cons, List.filter_append, List.map_append, ih, List.filter_cons]
    by_cases he : e.1 = l
    · simp [he, List.filter_map, Function.comp_def]
    · simp [he, List.filter_map, Function.comp_def]

/-- All links go to all targets. -/
theorem map_snd_linksOf_all (ends : List (Location × List Location)) :
    (linksOf ends).map Prod.snd = ends.flatMap Prod.snd := by
  unfold linksOf
  induction ends with
  | nil => rfl
  | cons e ends ih => simp [ih, Function.comp_def]

/-- The links of one more end. -/
theorem linksOf_append (ends : List (Location × List Location)) (l : Location)
    (targets : List Location) :
    linksOf (ends ++ [(l, targets)]) = linksOf ends ++ targets.map fun t => (l, t) := by
  simp [linksOf]

/-- Ending a block that starts at a location. -/
theorem History.ended_eq {h : History} {l : Location} (hl : h.current = some l)
    (targets : List Location) : h.ended targets = h.ends ++ [(l, targets)] := by
  rw [History.ended, hl]
  rfl

/-! ## The function follows its history -/

/-- A function under construction and what has happened on the level of locations: the start of the
current block, the links of the edges, and the ends of blocks. -/
structure Tracks (f : HirFunction) (cur : Option Location) (links : List (Location × Location))
    (ends : List (Location × List Location)) : Prop where
  /-- Blocks are numbered in the order of their creation. -/
  orderId : ∀ b < f.blockCount, (f.block b).orderId = b % 2 ^ 16
  /-- Blocks start at different locations. -/
  starts : ∀ b < f.blockCount, ∀ c < f.blockCount, (f.block b).start = (f.block c).start → b = c
  /-- The current block is one of the blocks. -/
  current_lt : ∀ b, f.current = some b → b < f.blockCount
  /-- Where it starts. -/
  current : (f.current.map fun b => (f.block b).start) = cur
  /-- Edges are between blocks. -/
  edge_lt : ∀ e < f.edgeCount, (f.edge e).src < f.blockCount ∧ (f.edge e).dest < f.blockCount
  /-- A block's list of outgoing edges. -/
  outgoing : ∀ b < f.blockCount,
    (f.block b).outgoing = (List.range f.edgeCount).filter fun e => (f.edge e).src = b
  /-- A block's list of incoming edges. -/
  incoming : ∀ b < f.blockCount,
    (f.block b).incoming = (List.range f.edgeCount).filter fun e => (f.edge e).dest = b
  /-- The edges are the links. -/
  links : (List.range f.edgeCount).map (fun e =>
    ((f.block (f.edge e).src).start, (f.block (f.edge e).dest).start)) = links
  /-- A block's terminal is that of its last end. -/
  terminal : ∀ b < f.blockCount, (f.block b).terminal.linkTargets =
    ((ends.filter fun e => e.1 = (f.block b).start).getLast?.map Prod.snd).getD []
  /-- Only blocks are ended. -/
  known : ∀ e ∈ ends, ∃ b < f.blockCount, (f.block b).start = e.1

/-- Two functions with the same blocks and edges, apart from the blocks' instructions. -/
structure SameCfg (f f' : HirFunction) : Prop where
  /-- The same number of blocks. -/
  blockCount : f'.blockCount = f.blockCount
  /-- The same edges. -/
  edge : f'.edge = f.edge
  /-- The same number of edges. -/
  edgeCount : f'.edgeCount = f.edgeCount
  /-- The same current block. -/
  current : f'.current = f.current
  /-- The same list nodes. -/
  links : f'.links = f.links
  /-- The same fields of blocks. -/
  block : ∀ b, f'.block b = { f.block b with insts := (f'.block b).insts }

/-- Two changes that leave the blocks alone up to their instructions. -/
theorem SameCfg.trans {f g k : HirFunction} (h1 : SameCfg f g) (h2 : SameCfg g k) :
    SameCfg f k := by
  refine ⟨h2.blockCount.trans h1.blockCount, h2.edge.trans h1.edge,
    h2.edgeCount.trans h1.edgeCount, h2.current.trans h1.current, h2.links.trans h1.links,
    fun b => ?_⟩
  have h := h2.block b
  rw [h1.block b] at h
  exact h

/-- Registering an instruction changes no block in anything but its instructions. -/
theorem sameCfg_register (P : Platform) (f : HirFunction) (u : InstRef) (b : BlockRef) :
    SameCfg f (f.register P u b) := by
  -- Recording the uses and noting the local, and before them the list of instructions.
  have hrecords : ∀ g : HirFunction,
      SameCfg g (([0, 1, 2, 3] : List (Fin 4)).foldl (fun f i => f.recordUse u i) g) := by
    intro g
    rw [g.recordUses_frame]
    exact ⟨rfl, rfl, rfl, rfl, rfl, fun _ => rfl⟩
  have hnote : ∀ g : HirFunction, SameCfg g (g.noteLocal u) := by
    intro g
    unfold HirFunction.noteLocal
    split <;> exact ⟨rfl, rfl, rfl, rfl, rfl, fun _ => rfl⟩
  have hpush : SameCfg f (f.setBlock b fun x => { x with insts := x.insts ++ [u] }) := by
    refine ⟨rfl, rfl, rfl, rfl, rfl, fun x => ?_⟩
    unfold HirFunction.setBlock
    by_cases hx : x = b
    · subst hx
      simp
    · simp [hx]
  unfold HirFunction.register
  refine SameCfg.trans ?_ ((hrecords _).trans (hnote _))
  split_ifs
  · exact hpush.trans ⟨rfl, rfl, rfl, rfl, rfl, fun _ => rfl⟩
  · exact hpush

namespace Tracks

variable {f f' : HirFunction} {cur : Option Location} {links : List (Location × Location)}
  {ends : List (Location × List Location)}

/-- As long as the blocks keep their places, starts and edges, only the current block and the ends
of blocks are to be looked at. -/
theorem of_frame (h : Tracks f cur links ends) (hcount : f'.blockCount = f.blockCount)
    (hedge : f'.edge = f.edge ∧ f'.edgeCount = f.edgeCount)
    (hblock : ∀ b, (f'.block b).orderId = (f.block b).orderId ∧
      (f'.block b).start = (f.block b).start ∧ (f'.block b).outgoing = (f.block b).outgoing ∧
      (f'.block b).incoming = (f.block b).incoming)
    {cur' : Option Location} {ends' : List (Location × List Location)}
    (hlt : ∀ b, f'.current = some b → b < f.blockCount)
    (hcur : (f'.current.map fun b => (f.block b).start) = cur')
    (hterminal : ∀ b < f.blockCount, (f'.block b).terminal.linkTargets =
      ((ends'.filter fun e => e.1 = (f.block b).start).getLast?.map Prod.snd).getD [])
    (hknown : ∀ e ∈ ends', ∃ b < f.blockCount, (f.block b).start = e.1) :
    Tracks f' cur' links ends' := by
  have hstart : ∀ b, (f'.block b).start = (f.block b).start := fun b => (hblock b).2.1
  obtain ⟨hedge, hedgeCount⟩ := hedge
  refine ⟨fun b hb => ?_, fun b hb c hc he => ?_, fun b hb => ?_, ?_, ?_, fun b hb => ?_,
    fun b hb => ?_, ?_, fun b hb => ?_, fun e he => ?_⟩
  · rw [(hblock b).1]
    exact h.orderId b (hcount ▸ hb)
  · rw [hstart, hstart] at he
    exact h.starts b (hcount ▸ hb) c (hcount ▸ hc) he
  · rw [hcount]
    exact hlt b hb
  · simp only [hstart]
    exact hcur
  · rw [hedge, hedgeCount, hcount]
    exact h.edge_lt
  · rw [(hblock b).2.2.1, hedge, hedgeCount]
    exact h.outgoing b (hcount ▸ hb)
  · rw [(hblock b).2.2.2, hedge, hedgeCount]
    exact h.incoming b (hcount ▸ hb)
  · simp only [hedge, hedgeCount, hstart]
    exact h.links
  · rw [hstart]
    exact hterminal b (hcount ▸ hb)
  · rw [hcount]
    simp only [hstart]
    exact hknown e he

/-- What leaves the blocks alone up to their instructions keeps the history. -/
theorem of_same (h : Tracks f cur links ends) (hs : SameCfg f f') : Tracks f' cur links ends := by
  refine h.of_frame hs.blockCount ⟨hs.edge, hs.edgeCount⟩ (fun b => by rw [hs.block b]; simp)
    ?_ ?_ ?_ h.known
  · rw [hs.current]
    exact h.current_lt
  · rw [hs.current]
    exact h.current
  · intro b hb
    rw [hs.block b]
    exact h.terminal b hb

/-- Ending a block adds an end to the history. -/
theorem ended (h : Tracks f cur links ends) {b : BlockRef} (hb : b < f.blockCount)
    (t : Terminal) :
    Tracks (f.ended b t) none links (ends ++ [((f.block b).start, t.linkTargets)]) := by
  have hcount : (f.ended b t).blockCount = f.blockCount := rfl
  refine h.of_frame hcount ⟨rfl, rfl⟩ (fun x => by rw [f.ended_block]; simp)
    (by simp [HirFunction.ended]) rfl (fun x hx => ?_) fun e he => ?_
  · rw [f.ended_block, List.filter_append]
    -- The last end of the block is the new one. Other blocks start elsewhere.
    by_cases hxb : x = b
    · subst hxb
      simp
    · have hne : (f.block b).start ≠ (f.block x).start := fun he => hxb (h.starts b hb x hx he).symm
      simp [hxb, hne, h.terminal x hx]
  · rcases List.mem_append.mp he with he | he
    · exact h.known e he
    · rw [List.mem_singleton.mp he]
      exact ⟨b, hb, rfl⟩

/-- Selecting a block that exists changes its end location. -/
theorem selected (h : Tracks f cur links ends) {b : BlockRef} (hb : b < f.blockCount)
    (endLoc : Location) : Tracks (f.selected b endLoc) (some (f.block b).start) links ends := by
  have hcount : (f.selected b endLoc).blockCount = f.blockCount := rfl
  refine h.of_frame hcount ⟨rfl, rfl⟩ (fun x => by rw [f.selected_block]; simp) (fun x hx => ?_) rfl
    (fun x hx => ?_) h.known
  · cases hx
    exact hb
  · rw [f.selected_block]
    exact h.terminal x hx

/-- A new block has no edges and was never ended. -/
theorem grown (h : Tracks f cur links ends) {start : Location}
    (hnew : ∀ b < f.blockCount, (f.block b).start ≠ start) (endLoc : Location) :
    Tracks (f.grown start endLoc) (some start) links ends := by
  have hold : ∀ x < f.blockCount, (f.grown start endLoc).block x = f.block x :=
    fun x hx => f.grown_block hx start endLoc
  have hself := f.grown_block_self start endLoc
  have hcases : ∀ x < (f.grown start endLoc).blockCount, x < f.blockCount ∨ x = f.blockCount :=
    fun x hx => Nat.lt_succ_iff_lt_or_eq.mp hx
  -- No edge ends at the new block.
  have hnoedge : ∀ e ∈ List.range f.edgeCount,
      (f.edge e).src ≠ f.blockCount ∧ (f.edge e).dest ≠ f.blockCount := by
    intro e he
    obtain ⟨hs, hd⟩ := h.edge_lt e (List.mem_range.mp he)
    exact ⟨Nat.ne_of_lt hs, Nat.ne_of_lt hd⟩
  -- No end is known at its start.
  have hnone : (ends.filter fun e => e.1 = start) = [] := by
    rw [List.filter_eq_nil_iff]
    intro e he
    obtain ⟨b, hb, hbs⟩ := h.known e he
    simpa [← hbs] using hnew b hb
  refine ⟨fun x hx => ?_, fun x hx y hy he => ?_, fun x hx => ?_, ?_, fun e he => ?_,
    fun x hx => ?_, fun x hx => ?_, ?_, fun x hx => ?_, fun e he => ?_⟩
  · rcases hcases x hx with hx | rfl
    · rw [hold x hx]
      exact h.orderId x hx
    · rw [hself]
  · rcases hcases x hx with hx | rfl <;> rcases hcases y hy with hy | rfl
    · rw [hold x hx, hold y hy] at he
      exact h.starts x hx y hy he
    · rw [hold x hx, hself] at he
      exact absurd he (hnew x hx)
    · rw [hold y hy, hself] at he
      exact absurd he.symm (hnew y hy)
    · rfl
  · cases hx
    exact Nat.lt_succ_self _
  · show some ((f.grown start endLoc).block f.blockCount).start = some start
    rw [hself]
  · obtain ⟨hs, hd⟩ := h.edge_lt e he
    exact ⟨Nat.lt_succ_of_lt hs, Nat.lt_succ_of_lt hd⟩
  · rcases hcases x hx with hx | rfl
    · rw [hold x hx]
      exact h.outgoing x hx
    · rw [hself, eq_comm, List.filter_eq_nil_iff]
      intro e he
      show ¬ decide ((f.edge e).src = f.blockCount) = true
      simpa using (hnoedge e he).1
  · rcases hcases x hx with hx | rfl
    · rw [hold x hx]
      exact h.incoming x hx
    · rw [hself, eq_comm, List.filter_eq_nil_iff]
      intro e he
      show ¬ decide ((f.edge e).dest = f.blockCount) = true
      simpa using (hnoedge e he).2
  · rw [← h.links]
    refine List.map_congr_left fun e he => ?_
    obtain ⟨hs, hd⟩ := h.edge_lt e (List.mem_range.mp he)
    exact Prod.ext (by rw [← hold _ hs]; rfl) (by rw [← hold _ hd]; rfl)
  · rcases hcases x hx with hx | rfl
    · rw [hold x hx]
      exact h.terminal x hx
    · rw [hself, hnone]
      rfl
  · obtain ⟨b, hb, hbs⟩ := h.known e he
    exact ⟨b, Nat.lt_succ_of_lt hb, by rw [hold b hb]; exact hbs⟩

/-- Selecting a block moves the history's current location. -/
theorem appendBlock (h : Tracks f cur links ends) (start endLoc : Location) :
    Tracks (f.appendBlock start endLoc).2 (some start) links ends := by
  rcases f.appendBlock_cases start endLoc with ⟨b, hb, rfl, heq⟩ | ⟨hnew, heq⟩
  · rw [heq]
    exact h.selected hb endLoc
  · rw [heq]
    exact h.grown hnew endLoc

/-- Selecting a block keeps where the others start, and the selected one starts at the location. -/
theorem appendBlock_start (start endLoc : Location) :
    (f.appendBlock start endLoc).1 < (f.appendBlock start endLoc).2.blockCount ∧
      ((f.appendBlock start endLoc).2.block (f.appendBlock start endLoc).1).start = start ∧
      ∀ b < f.blockCount, b < (f.appendBlock start endLoc).2.blockCount ∧
        ((f.appendBlock start endLoc).2.block b).start = (f.block b).start := by
  rcases f.appendBlock_cases start endLoc with ⟨b, hb, hstart, heq⟩ | ⟨-, heq⟩
  · rw [heq]
    exact ⟨hb, by rw [f.selected_block]; exact hstart, fun x hx => ⟨hx, by rw [f.selected_block]⟩⟩
  · rw [heq]
    exact ⟨Nat.lt_succ_self _, by rw [f.grown_block_self], fun x hx =>
      ⟨Nat.lt_succ_of_lt hx, by rw [f.grown_block hx]⟩⟩

/-- Adding an edge adds a link. -/
theorem addEdge (h : Tracks f cur links ends) {src dest : BlockRef} (hs : src < f.blockCount)
    (hd : dest < f.blockCount) (conditional : Bool) :
    Tracks (f.addEdge src dest conditional) cur
      (links ++ [((f.block src).start, (f.block dest).start)]) ends := by
  have hblock := f.addEdge_block src dest conditional
  have hsrc := fun e => (f.addEdge_edge src dest conditional e).1
  have hdest := fun e => (f.addEdge_edge src dest conditional e).2
  have hcount : (f.addEdge src dest conditional).edgeCount = f.edgeCount + 1 := rfl
  -- The new edge has a number of its own.
  have hold : ∀ e ∈ List.range f.edgeCount, e ≠ f.edgeCount := by
    intro e he
    have := List.mem_range.mp he
    omega
  refine ⟨?_, ?_, h.current_lt, ?_, ?_, ?_, ?_, ?_, ?_, ?_⟩
  · intro b hb
    rw [hblock]
    exact h.orderId b hb
  · intro b hb c hc he
    rw [hblock, hblock] at he
    exact h.starts b hb c hc he
  · rw [← h.current]
    simp only [hblock]
    rfl
  · intro e he
    rw [hsrc, hdest]
    split_ifs with hec
    · exact ⟨hs, hd⟩
    · exact h.edge_lt e (Nat.lt_of_le_of_ne (Nat.lt_succ_iff.mp he) hec)
  · intro b hb
    -- It is the last of the outgoing edges of its source, and of the incoming ones of its target.
    rw [hblock, hcount, List.range_succ, List.filter_append, h.outgoing b hb]
    simp only [hsrc]
    congr 1
    · refine List.filter_congr fun e he => ?_
      rw [if_neg (hold e he)]
    · by_cases hbs : b = src
      · simp [hbs]
      · simp [hbs, Ne.symm hbs]
  · intro b hb
    rw [hblock, hcount, List.range_succ, List.filter_append, h.incoming b hb]
    simp only [hdest]
    congr 1
    · refine List.filter_congr fun e he => ?_
      rw [if_neg (hold e he)]
    · by_cases hbd : b = dest
      · simp [hbd]
      · simp [hbd, Ne.symm hbd]
  · rw [hcount, List.range_succ, List.map_append, ← h.links]
    simp only [hsrc, hdest, hblock]
    congr 1
    · refine List.map_congr_left fun e he => ?_
      rw [if_neg (hold e he), if_neg (hold e he)]
    · simp
  · intro b hb
    rw [hblock]
    exact h.terminal b hb
  · simp only [hblock]
    exact h.known

/-- Linking a location to the block being ended adds a link. -/
theorem link (h : Tracks f cur links ends) {pre : BlockRef} (hpre : pre < f.blockCount)
    (conditional : Bool) (loc : Location) :
    Tracks (f.link pre conditional loc) (some loc) (links ++ [((f.block pre).start, loc)]) ends ∧
      pre < (f.link pre conditional loc).blockCount ∧
      ((f.link pre conditional loc).block pre).start = (f.block pre).start := by
  obtain ⟨hb, hbs, hold⟩ := appendBlock_start (f := f) loc 0
  obtain ⟨hpre', hpres⟩ := hold pre hpre
  have hadd := (h.appendBlock loc 0).addEdge hpre' hb conditional
  rw [hbs, hpres] at hadd
  refine ⟨hadd, hpre', ?_⟩
  unfold HirFunction.link
  rw [HirFunction.addEdge_block]
  exact hpres

/-- Linking locations one after the other. -/
theorem foldl_link (h : Tracks f cur links ends) {pre : BlockRef} (hpre : pre < f.blockCount)
    (conditional : Bool) (locs : List Location) :
    Tracks (locs.foldl (HirFunction.link pre conditional) f) (locs.getLast?.or cur)
      (links ++ locs.map fun l => ((f.block pre).start, l)) ends := by
  induction locs generalizing f cur links with
  | nil => simpa using h
  | cons loc locs ih =>
    obtain ⟨hlink, hpre', hpres⟩ := h.link hpre conditional loc
    have hrest := ih hlink hpre'
    rw [hpres, List.append_assoc] at hrest
    have hlast : (loc :: locs).getLast?.or cur = locs.getLast?.or (some loc) := by
      rw [List.getLast?_cons]
      cases locs.getLast? <;> rfl
    rw [List.foldl_cons, hlast]
    exact hrest

/-- A call keeps the function and its history together. -/
theorem step {P : Platform} {c : Call} {h : History}
    (ht : Tracks f h.current (linksOf h.ends) h.ends) (hstep : c.Step P f f') :
    Tracks f' (c.onHistory h).current (linksOf (c.onHistory h).ends) (c.onHistory h).ends := by
  have hused : ∀ v, SameCfg f (f.used v) := fun v => ⟨rfl, rfl, rfl, rfl, rfl, fun _ => rfl⟩
  have hexec : c.exec P f = .ok () f' := hstep
  cases c with
  | inst op args =>
    obtain ⟨b, k, -, -, -, rfl⟩ := appendInst_spec hexec
    have hheap : SameCfg f { f with heap := k } := ⟨rfl, rfl, rfl, rfl, rfl, fun _ => rfl⟩
    exact ht.of_same (hheap.trans (sameCfg_register P _ _ b))
  | if_ cond then_ else_ =>
    obtain ⟨pre, thenLoc, elseLoc, hcur, hthen, helse, rfl⟩ := buildIf_spec hexec
    have hpre := ht.current_lt pre hcur
    have hloc : h.current = some (f.block pre).start := by rw [← ht.current, hcur]; rfl
    have htargets : (Terminal.if_ cond then_ else_).linkTargets = [thenLoc, elseLoc] := by
      simp [Terminal.linkTargets, hthen, helse]
    have h1 := (ht.of_same (hused cond)).ended hpre (.if_ cond then_ else_)
    have h2 := h1.appendBlock elseLoc 0
    have h3 := h2.appendBlock thenLoc 0
    -- The blocks involved, and where they start, once both targets exist.
    obtain ⟨heb, hebs, hold1⟩ :=
      appendBlock_start (f := (f.used cond).ended pre (.if_ cond then_ else_)) elseLoc 0
    obtain ⟨hpre1, hpres1⟩ := hold1 pre hpre
    rw [HirFunction.ended_block] at hpres1
    generalize ((f.used cond).ended pre (.if_ cond then_ else_)).appendBlock elseLoc 0 = r1 at *
    obtain ⟨htb, htbs, hold2⟩ := appendBlock_start (f := r1.2) thenLoc 0
    obtain ⟨hpre2, hpres2⟩ := hold2 pre hpre1
    obtain ⟨heb2, hebs2⟩ := hold2 r1.1 heb
    generalize r1.2.appendBlock thenLoc 0 = r2 at *
    have h4 := (h3.addEdge hpre2 htb true).addEdge hpre2 heb2 true
    simp only [HirFunction.addEdge_block, hpres2, hpres1, htbs, hebs2, hebs] at h4
    rw [htargets, List.append_assoc] at h4
    rw [Call.onHistory, History.ended_eq hloc, htargets, hthen, linksOf_append]
    exact h4
  | switch value cases =>
    obtain ⟨pre, hcur, -, rfl⟩ := buildSwitch_spec hexec
    have hpre := ht.current_lt pre hcur
    have hloc : h.current = some (f.block pre).start := by rw [← ht.current, hcur]; rfl
    have h1 := (ht.of_same (hused value)).ended hpre (.switch value cases)
    have h2 := h1.foldl_link hpre true (cases.filterMap Terminal.next)
    rw [HirFunction.ended_block, Option.or_none] at h2
    rw [Call.onHistory, History.ended_eq hloc, linksOf_append]
    exact h2
  | linkBlock next =>
    obtain ⟨pre, hcur, rfl⟩ := buildLinkBlock_spec hexec
    have hpre := ht.current_lt pre hcur
    have hloc : h.current = some (f.block pre).start := by rw [← ht.current, hcur]; rfl
    have h1 := ht.ended hpre (.linkBlock next)
    have h2 := (h1.link hpre false next).1
    rw [HirFunction.ended_block] at h2
    rw [Call.onHistory, History.ended_eq hloc, linksOf_append]
    exact h2
  | appendBlock start endLoc =>
    simp only [Call.exec, bind_ok_iff, selectBlock_ok_iff, pure_ok_iff] at hexec
    obtain ⟨b, _, hb, -, rfl⟩ := hexec
    have h1 := ht.appendBlock start endLoc
    rw [← hb] at h1
    exact h1

end Tracks

/-- A constructed function has one block and no history. -/
theorem tracks_create (begin_ : Location) :
    Tracks (.create begin_) (some begin_) (linksOf []) [] := by
  have hempty : Tracks .empty none [] [] := by
    refine ⟨?_, ?_, ?_, rfl, ?_, ?_, ?_, rfl, ?_, ?_⟩ <;> intro b hb <;>
      simp [HirFunction.empty] at hb
  exact hempty.appendBlock begin_ 0

/-- A function under construction follows the history of its calls. -/
theorem Builds.tracks {P : Platform} {begin_ : Location} {calls : List Call} {f : HirFunction}
    (h : Builds P begin_ calls f) :
    let hist := calls.foldl (fun h c => Call.onHistory c h) ⟨some begin_, []⟩
    Tracks f hist.current (linksOf hist.ends) hist.ends :=
  Run.simulation (fun f hist => Tracks f hist.current (linksOf hist.ends) hist.ends)
    Call.onHistory h (fun _ _ _ _ _ hstep ht => ht.step hstep) (tracks_create begin_)

/-- A finished function is one under construction whose current block is ended and whose blocks have
their vectors. -/
theorem Finishes.exists_ended {P : Platform} {begin_ : Location} {calls : List Call}
    {f : HirFunction} (h : Finishes P begin_ calls f) :
    ∃ g b, Builds P begin_ calls g ∧ g.current = some b ∧ g.blockCount < 2 ^ 16 ∧
      f = (g.ended b .popRSBHint).withVectors := by
  obtain ⟨g, hg, hend⟩ := h
  obtain ⟨b, hcur, hlt, rfl⟩ := endFunction_spec hg.tracks.orderId hend
  exact ⟨g, b, hg, hcur, hlt, rfl⟩

/-- What everything that a call does keeps, and the vectors as well, holds of every finished
function. -/
theorem Kept.finishes {P : Platform} {Inv : HirFunction → Prop} (h : Kept P Inv)
    (hempty : Inv .empty) (hvectors : ∀ f, Inv f → Inv f.withVectors) {begin_ : Location}
    {calls : List Call} {f : HirFunction} (hf : Finishes P begin_ calls f) : Inv f := by
  obtain ⟨g, b, hg, -, -, rfl⟩ := hf.exists_ended
  exact hvectors _ (h.ended g b _ (h.builds hempty hg))

/-- Finishing follows the history up to its last end. -/
theorem Builds.tracks_ended {P : Platform} {begin_ : Location} {calls : List Call}
    {g : HirFunction} (h : Builds P begin_ calls g) {b : BlockRef} (hcur : g.current = some b) :
    Tracks (g.ended b .popRSBHint) none (linksOf (endsOf begin_ calls)) (endsOf begin_ calls) := by
  have ht := h.tracks
  have hloc := ht.current
  rw [hcur] at hloc
  have hended := ht.ended (ht.current_lt b hcur) .popRSBHint
  rw [endsOf, History.ended_eq hloc.symm, linksOf_append, List.map_nil, List.append_nil]
  exact hended

/-! ## The vectors of a block -/

/-- A vector that is filled has the length it was created with. -/
theorem length_fill (i : ℕ) (xs : List BlockRef) (v : List (Option BlockRef)) :
    (fill i xs v).length = v.length := by
  induction xs generalizing i v with
  | nil => rfl
  | cons x xs ih => rw [fill, ih, List.length_set]

/-- Below `2^16` elements the vector is filled with the elements. -/
theorem fill_of_le {i : ℕ} {xs : List BlockRef} {v : List (Option BlockRef)}
    (hi : i + xs.length ≤ 2 ^ 16) (hv : v.length = i + xs.length) :
    fill i xs v = v.take i ++ xs.map some := by
  induction xs generalizing i v with
  | nil =>
    simp only [List.length_nil, Nat.add_zero] at hv
    simp [fill, ← hv]
  | cons x xs ih =>
    simp only [List.length_cons] at hi hv
    rcases Nat.eq_or_lt_of_le (show i + 1 ≤ 2 ^ 16 by omega) with hwrap | hlt
    · -- The index wraps after the last element.
      have hxs : xs = [] := List.length_eq_zero_iff.mp (by omega)
      subst hxs
      simp only [List.length_nil] at hv
      rw [fill, fill, List.set_eq_take_append_cons_drop, if_pos (by omega),
        List.drop_eq_nil_of_le (by omega)]
      rfl
    · rw [fill, Nat.mod_eq_of_lt hlt, ih (by omega) (by rw [List.length_set]; omega),
        List.take_add_one, List.take_set_of_le le_rfl, List.getElem?_set_self (by omega)]
      simp

/-- The entries from `2^16` on are never written. -/
theorem getElem?_fill {i j : ℕ} {xs : List BlockRef} {v : List (Option BlockRef)}
    (hi : i < 2 ^ 16) (hj : 2 ^ 16 ≤ j) : (fill i xs v)[j]? = v[j]? := by
  induction xs generalizing i v with
  | nil => rfl
  | cons x xs ih =>
    rw [fill, ih (Nat.mod_lt _ (Nat.two_pow_pos 16)), List.getElem?_set_ne (by omega)]

/-- The vector of up to `2^16` elements holds the elements. -/
theorem fill_eq_map {xs : List BlockRef} (h : xs.length ≤ 2 ^ 16) :
    fill 0 xs (List.replicate xs.length none) = xs.map some := by
  rw [fill_of_le (by omega) (by simp)]
  simp

/-- The vector of more elements has an empty entry. -/
theorem none_mem_fill {xs : List BlockRef} (h : 2 ^ 16 < xs.length) :
    none ∈ fill 0 xs (List.replicate xs.length none) := by
  refine List.mem_of_getElem? (i := 2 ^ 16) ?_
  rw [getElem?_fill (Nat.two_pow_pos 16) le_rfl, List.getElem?_replicate, if_pos h]

/-! ## When edges and terminals agree -/

/-- The targets of all ends of a block are those of its last end, after those of the earlier
ones. -/
theorem exists_flatMap_snd (ends : List (Location × List Location)) :
    ∃ earlier, ends.flatMap Prod.snd = earlier ++ (ends.getLast?.map Prod.snd).getD [] ∧
      (earlier = [] ↔ ends.Pairwise fun x _ => x.2 = []) := by
  rcases List.eq_nil_or_concat ends with rfl | ⟨init, last, rfl⟩
  · exact ⟨[], rfl, by simp⟩
  · refine ⟨init.flatMap Prod.snd, by simp, ?_⟩
    rw [List.concat_eq_append, List.pairwise_append]
    constructor
    · intro hnil
      have hall : ∀ x ∈ init, x.2 = [] := List.flatMap_eq_nil_iff.mp hnil
      exact ⟨List.Pairwise.imp_of_mem (fun hx _ _ => hall _ hx) (List.pairwise_of_forall fun _ _ =>
        trivial), List.pairwise_singleton _ _, fun x hx _ _ => hall x hx⟩
    · rintro ⟨-, -, hall⟩
      exact List.flatMap_eq_nil_iff.mpr fun x hx => hall x hx last (List.mem_singleton_self last)

/-- Ending once, location by location. -/
theorem once_iff (ends : List (Location × List Location)) :
    (ends.Pairwise fun x y => x.1 = y.1 → x.2 = []) ↔
      ∀ l, (ends.filter fun e => e.1 = l).Pairwise fun x _ => x.2 = [] := by
  simp only [List.pairwise_filter, decide_eq_true_eq]
  constructor
  · intro h l
    exact h.imp fun hxy hx hy => hxy (hx.trans hy.symm)
  · intro h
    rw [List.pairwise_iff_forall_sublist]
    intro x y hxy he
    exact List.pairwise_iff_forall_sublist.mp (h x.1) hxy rfl he.symm

namespace Tracks

variable {g : HirFunction} {ends : List (Location × List Location)}
  (h : Tracks g none (linksOf ends) ends)
include h

/-- A block is the one at its start. -/
theorem findBlock_start {b : BlockRef} (hb : b < g.blockCount) :
    g.findBlock (g.block b).start = some b := by
  unfold HirFunction.findBlock
  cases hfind : (List.range g.blockCount).find?
      fun c => (g.block c).start = (g.block b).start with
  | none =>
    have := List.find?_eq_none.mp hfind b (List.mem_range.mpr hb)
    simp at this
  | some c =>
    have hc := List.mem_range.mp (List.mem_of_find?_eq_some hfind)
    have hs := List.find?_some hfind
    rw [h.starts c hc b hb (by simpa using hs)]

/-- The edges of a block go to the blocks at the targets of the block's ends. -/
theorem map_findBlock_targets {b : BlockRef} (hb : b < g.blockCount) :
    (targetsOf ends (g.block b).start).map g.findBlock =
      ((g.block b).outgoing.map fun e => (g.edge e).dest).map some := by
  -- The blocks start at different locations, so an edge belongs to a block if its source starts
  -- there.
  have hstart : ((g.block b).outgoing.map fun e => (g.block (g.edge e).dest).start) =
      targetsOf ends (g.block b).start := by
    rw [← map_snd_linksOf, ← h.links, List.filter_map, List.map_map, h.outgoing b hb]
    congr 1
    refine List.filter_congr fun e he => ?_
    have hs := (h.edge_lt e (List.mem_range.mp he)).1
    show decide _ = decide ((g.block (g.edge e).src).start = (g.block b).start)
    rw [decide_eq_decide]
    exact ⟨fun hsrc => by rw [hsrc], h.starts _ hs b hb⟩
  rw [← hstart, List.map_map, List.map_map]
  refine List.map_congr_left fun e he => ?_
  rw [h.outgoing b hb] at he
  have he' := List.mem_range.mp (List.mem_of_mem_filter he)
  exact h.findBlock_start (h.edge_lt e he').2

/-- As many edges go to a block as there are targets at its start. -/
theorem length_incoming {b : BlockRef} (hb : b < g.blockCount) :
    (g.block b).incoming.length = (ends.flatMap Prod.snd).count (g.block b).start := by
  rw [h.incoming b hb, ← map_snd_linksOf_all, ← h.links, List.map_map, List.count,
    List.countP_map, List.countP_eq_length_filter]
  congr 1
  refine List.filter_congr fun e he => ?_
  have hd := (h.edge_lt e (List.mem_range.mp he)).2
  show decide _ = ((g.block (g.edge e).dest).start == (g.block b).start)
  rw [Bool.eq_iff_iff, decide_eq_true_iff, beq_iff_eq]
  exact ⟨fun hdest => by rw [hdest], h.starts _ hd b hb⟩

/-- The edges from one block to another, counted at either end. -/
theorem count_edges {p b : BlockRef} (hp : p < g.blockCount) (hb : b < g.blockCount) :
    ((g.block b).incoming.map fun e => (g.edge e).src).count p =
      ((g.block p).outgoing.map fun e => (g.edge e).dest).count b := by
  rw [h.incoming b hb, h.outgoing p hp, List.count, List.count, List.countP_map, List.countP_map,
    List.countP_filter, List.countP_filter]
  refine List.countP_congr fun e _ => ?_
  simp [and_comm]

/-- Locations without a block are neither ended nor linked to. -/
theorem exists_block_of_mem {l : Location} (hl : l ∈ ends.flatMap Prod.snd) :
    ∃ b < g.blockCount, (g.block b).start = l := by
  rw [← map_snd_linksOf_all, ← h.links, List.map_map] at hl
  obtain ⟨e, he, rfl⟩ := List.mem_map.mp hl
  exact ⟨_, (h.edge_lt e (List.mem_range.mp he)).2, rfl⟩

/-- The bounds on outgoing edges are those of the blocks. -/
theorem length_outgoing {b : BlockRef} (hb : b < g.blockCount) :
    (g.block b).outgoing.length = (targetsOf ends (g.block b).start).length := by
  have := congrArg List.length (h.map_findBlock_targets hb)
  simpa using this.symm

/-- The successors of all blocks are the blocks at the link targets exactly when no block is ended
again after a terminal with link targets and no block has too many outgoing edges. -/
theorem successors_iff :
    (∀ b < g.blockCount, (g.finished b).successors.Perm
      ((g.block b).terminal.linkTargets.map g.findBlock)) ↔
    (ends.Pairwise fun x y => x.1 = y.1 → x.2 = []) ∧
      ∀ l, (targetsOf ends l).length ≤ 2 ^ 16 := by
  -- A block is right when its vector did not overflow and its earlier ends had no targets.
  have hblock : ∀ b < g.blockCount, (g.finished b).successors.Perm
      ((g.block b).terminal.linkTargets.map g.findBlock) ↔
      ((ends.filter fun e => e.1 = (g.block b).start).Pairwise fun x _ => x.2 = []) ∧
        (targetsOf ends (g.block b).start).length ≤ 2 ^ 16 := by
    intro b hb
    obtain ⟨earlier, hsplit, hearlier⟩ :=
      exists_flatMap_snd (ends.filter fun e => e.1 = (g.block b).start)
    rw [← h.terminal b hb] at hsplit
    have htargets := h.map_findBlock_targets hb
    rw [targetsOf, hsplit, List.map_append] at htargets
    rw [← hearlier, ← h.length_outgoing hb]
    have hvector : (g.finished b).successors =
        fill 0 ((g.block b).outgoing.map fun e => (g.edge e).dest)
          (List.replicate ((g.block b).outgoing.map fun e => (g.edge e).dest).length none) := by
      simp [HirFunction.finished]
    rw [hvector]
    rcases Nat.lt_or_ge (2 ^ 16) (g.block b).outgoing.length with hgt | hle
    · -- The vector has an empty entry, and the targets are all blocks.
      refine iff_of_false (fun hperm => ?_) fun hc => absurd hc.2 (by omega)
      have hnone := hperm.mem_iff.mp (none_mem_fill (by simpa using hgt))
      have hmem : none ∈ ((g.block b).outgoing.map fun e => (g.edge e).dest).map some := by
        rw [← htargets]
        exact List.mem_append_right _ hnone
      simp at hmem
    · rw [fill_eq_map (by simpa using hle), ← htargets]
      constructor
      · intro hperm
        have hlen := hperm.length_eq
        simp only [List.length_append, List.length_map] at hlen
        exact ⟨List.length_eq_zero_iff.mp (by omega), hle⟩
      · rintro ⟨rfl, -⟩
        exact .refl _
  rw [once_iff]
  constructor
  · intro hall
    have hloc : ∀ l, ((ends.filter fun e => e.1 = l).Pairwise fun x _ => x.2 = []) ∧
        (targetsOf ends l).length ≤ 2 ^ 16 := by
      intro l
      by_cases hl : ∃ b < g.blockCount, (g.block b).start = l
      · obtain ⟨b, hb, rfl⟩ := hl
        exact (hblock b hb).mp (hall b hb)
      · -- No block, no ends.
        have hnil : (ends.filter fun e => e.1 = l) = [] := by
          rw [List.filter_eq_nil_iff]
          intro e he hel
          obtain ⟨b, hb, hbs⟩ := h.known e he
          exact hl ⟨b, hb, hbs.trans (by simpa using hel)⟩
        rw [targetsOf, hnil]
        exact ⟨.nil, Nat.zero_le _⟩
    exact ⟨fun l => (hloc l).1, fun l => (hloc l).2⟩
  · rintro ⟨honce, hout⟩ b hb
    exact (hblock b hb).mpr ⟨honce _, hout _⟩

/-- Given that the vectors of successors did not overflow, predecessors mirror successors exactly
when no block has too many incoming edges. -/
theorem predecessors_iff (hout : ∀ l, (targetsOf ends l).length ≤ 2 ^ 16) :
    (∀ p < g.blockCount, ∀ b < g.blockCount,
      (g.finished b).predecessors.count (some p) = (g.finished p).successors.count (some b)) ↔
    ∀ l, (ends.flatMap Prod.snd).count l ≤ 2 ^ 16 := by
  have hsucc : ∀ p < g.blockCount, (g.finished p).successors =
      ((g.block p).outgoing.map fun e => (g.edge e).dest).map some := by
    intro p hp
    have hle := hout (g.block p).start
    rw [← h.length_outgoing hp] at hle
    rw [← fill_eq_map (by simpa using hle)]
    simp [HirFunction.finished]
  have hpred : ∀ b, (g.finished b).predecessors =
      fill 0 ((g.block b).incoming.map fun e => (g.edge e).src)
        (List.replicate ((g.block b).incoming.map fun e => (g.edge e).src).length none) := by
    intro b
    simp [HirFunction.finished]
  have hcount : ∀ p < g.blockCount, ∀ b < g.blockCount, (g.finished p).successors.count (some b) =
      (((g.block b).incoming.map fun e => (g.edge e).src).map some).count (some p) := by
    intro p hp b hb
    rw [hsucc p hp, List.count_map_of_injective _ _ (fun _ _ => Option.some.inj),
      List.count_map_of_injective _ _ (fun _ _ => Option.some.inj), h.count_edges hp hb]
  constructor
  · intro hall l
    by_contra hgt
    -- The location is that of a block, whose vector of predecessors has an empty entry.
    obtain ⟨b, hb, rfl⟩ := h.exists_block_of_mem (l := l)
      (List.count_pos_iff.mp (by omega))
    rw [← h.length_incoming hb] at hgt
    have hsub : (((g.block b).incoming.map fun e => (g.edge e).src).map some).Subperm
        (g.finished b).predecessors := by
      rw [List.subperm_ext_iff]
      intro x hx
      obtain ⟨p, hp, rfl⟩ := List.mem_map.mp hx
      obtain ⟨e, he, rfl⟩ := List.mem_map.mp hp
      rw [h.incoming b hb] at he
      have hsrc := (h.edge_lt e (List.mem_range.mp (List.mem_of_mem_filter he))).1
      rw [hall _ hsrc b hb, hcount _ hsrc b hb]
    have hperm := hsub.perm_of_length_le (by rw [hpred, length_fill]; simp)
    have hnone := hperm.mem_iff.mpr (by
      rw [hpred]
      exact none_mem_fill (by simpa using Nat.lt_of_not_ge hgt))
    simp at hnone
  · intro hin p hp b hb
    have hle := hin (g.block b).start
    rw [← h.length_incoming hb] at hle
    rw [hcount p hp b hb, hpred, fill_eq_map (by simpa using hle)]

end Tracks

/-- The edges of a finished function agree with its terminals if and only if, among the calls that
built it, no call ends a block again after a terminal with link targets, and no block gets more than
`2^16` outgoing or incoming edges. -/
theorem agrees_iff_endsOnce {P : Platform} {begin_ : Location} {calls : List Call}
    {f : HirFunction} (h : Finishes P begin_ calls f) :
    f.Agrees ↔ EndsOnce (endsOf begin_ calls) := by
  obtain ⟨g, b, hg, hcur, -, rfl⟩ := h.exists_ended
  have ht := hg.tracks_ended hcur
  generalize g.ended b .popRSBHint = k at ht
  -- The vectors do not change where the blocks start.
  have hfind : k.withVectors.findBlock = k.findBlock := by
    funext l
    unfold HirFunction.findBlock
    congr 1
    funext x
    rw [k.withVectors_block_eq]
  -- The conditions in terms of the function before the vectors.
  have hsucc : ∀ x < k.blockCount,
      (k.withVectors.block x).successors.Perm
        ((k.withVectors.block x).terminal.linkTargets.map k.withVectors.findBlock) ↔
      (k.finished x).successors.Perm ((k.block x).terminal.linkTargets.map k.findBlock) := by
    intro x hx
    rw [k.withVectors_block hx, hfind]
    rfl
  have hpred : ∀ p < k.blockCount, ∀ x < k.blockCount,
      (k.withVectors.block x).predecessors.count (some p) =
        (k.withVectors.block p).successors.count (some x) ↔
      (k.finished x).predecessors.count (some p) = (k.finished p).successors.count (some x) := by
    intro p hp x hx
    rw [k.withVectors_block hx, k.withVectors_block hp]
  constructor
  · rintro ⟨hs, hp⟩
    obtain ⟨honce, hlen⟩ := ht.successors_iff.mp fun x hx => (hsucc x hx).mp (hs x hx)
    exact ⟨honce, hlen, (ht.predecessors_iff hlen).mp fun p hpc x hx =>
      (hpred p hpc x hx).mp (hp p hpc x hx)⟩
  · rintro ⟨honce, hlen, hin⟩
    exact ⟨fun x hx => (hsucc x hx).mpr (ht.successors_iff.mpr ⟨honce, hlen⟩ x hx),
      fun p hpc x hx => (hpred p hpc x hx).mpr ((ht.predecessors_iff hlen).mpr hin p hpc x hx)⟩

/-- A function of two blocks, each ended once. -/
theorem agrees_two_blocks :
    ∃ f, Finishes .plain 0 [.linkBlock 3] f ∧ f.blockCount = 2 ∧ f.Agrees := by
  have hf : Finishes .plain 0 [.linkBlock 3] _ := ⟨_, .cons rfl (.nil _), rfl⟩
  refine ⟨_, hf, rfl, (agrees_iff_endsOnce hf).mpr ⟨by decide, fun l => ?_, fun l => ?_⟩⟩
  · show (([((0 : Location), [(3 : Location)]), (3, [])].filter fun e => e.1 = l).flatMap
      Prod.snd).length ≤ 2 ^ 16
    simp only [List.filter_cons, List.filter_nil]
    split_ifs <;> simp
  · show [(3 : Location)].count l ≤ 2 ^ 16
    exact List.count_le_length.trans (by simp)

/-- A block that links to itself and is then ended by `Return`, as in the repository's own test:
it keeps the edge to itself, while its terminal has no link target. -/
theorem reended_block_keeps_edge :
    ¬ ∀ (P : Platform) (begin_ : Location) (calls : List Call) (f : HirFunction),
      Finishes P begin_ calls f → f.Agrees := by
  intro h
  have hf : Finishes .plain 0 [.linkBlock 3, .linkBlock 3] _ :=
    ⟨_, .cons rfl (.cons rfl (.nil _)), rfl⟩
  have hperm := (h _ _ _ _ hf).successors 1 (by decide)
  have hlen : ([some 1] : List (Option BlockRef)).length = 0 := hperm.length_eq
  cases hlen

end SwiftRuntime.Ir
