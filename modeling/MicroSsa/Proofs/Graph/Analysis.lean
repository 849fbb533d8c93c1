import MicroSsa.Proofs.Graph.Tree
import MicroSsa.Proofs.Graph.Search
/-!
# The stages of the dominator analysis

`BlockGraph.analyzeDominators` clears the results of an earlier run, searches the graph depth
first from the entry, iterates the immediate dominators, stores the dominator tree, the
dominance frontiers and the natural loops, and marks the unreached blocks dead. This module
follows one run through its stages:

* frame lemmas: the frontier pass touches the frontiers only, the loop pass the loop flags and
  the edge labels only, the last pass the dead flag only (`dominanceFrontiers_get_eq`,
  `labelLoops_get_eq`, `markDead_get_eq`);
* `Stages` collects what the stages establish, and `stages` proves it for every well-formed
  graph with an entry;
* `analyzeDominators_tree`: the summary, the dead flags and the stored dominator tree are the
  ones the paths of the graph define, and the dominator loop ends at a pass that changes
  nothing.
-/

namespace MicroSsa

namespace BlockGraph

variable {g : BlockGraph}

/-! ## Clearing -/

@[simp] theorem size_clearDominators : g.clearDominators.size = g.size := by
  simp [clearDominators, size]

@[simp] theorem entry_clearDominators : g.clearDominators.entry = g.entry := rfl

/-- Clearing keeps the edges. -/
theorem clearDominators_get_edges (x : Nat) :
    (g.clearDominators.get x).ins = (g.get x).ins ∧
      (g.clearDominators.get x).outs.toList.map (·.target) = (g.get x).outs.toList.map (·.target) := by
  unfold clearDominators get
  cases h : g.blocks[x]? <;> simp [h, Function.comp_def]

@[simp] theorem succs_clearDominators (x : Nat) : g.clearDominators.succs x = g.succs x :=
  (clearDominators_get_edges x).2

@[simp] theorem preds_clearDominators (x : Nat) : g.clearDominators.preds x = g.preds x := by
  unfold preds
  rw [(clearDominators_get_edges x).1]

/-- Clearing forgets every result of the analysis. -/
theorem clearDominators_get_results (x : Nat) :
    (g.clearDominators.get x).idom = none ∧ (g.clearDominators.get x).depth = 0 ∧
      (g.clearDominators.get x).children = #[] ∧ (g.clearDominators.get x).frontier = #[] ∧
      (g.clearDominators.get x).preorder = none ∧ (g.clearDominators.get x).flags.dead = false := by
  unfold clearDominators get
  cases h : g.blocks[x]? <;> simp [h]

/-! ## The frontier pass touches the frontiers only -/

/-- One step of `dominanceFrontiers`: the join `b` with two or more reached in-edges is added to
the frontiers on the way up from each such predecessor to the join's dominator. -/
def frontierStep (g : BlockGraph) (b : Nat) : BlockGraph :=
  let ps := (g.preds b).filter fun p => (g.get p).preorder.isSome
  if ps.length < 2 then g
  else
    let stop := (g.get b).idom
    ps.foldl (fun g p => runUp b stop (g.size + 1) g p) g

theorem dominanceFrontiers_eq (g : BlockGraph) (rpo : List Nat) :
    g.dominanceFrontiers rpo = rpo.foldl frontierStep g := rfl

section FrontierFrame

variable {β : Type} (π : Block → β) (hπ : ∀ blk fr, π { blk with frontier := fr } = π blk)
include hπ

theorem runUp_get_eq (b : Nat) (stop : Option Nat) :
    ∀ (fuel : Nat) (g : BlockGraph) (r x : Nat), π ((runUp b stop fuel g r).get x) = π (g.get x) := by
  -- the block a step touches gets at most a new frontier
  have hf : ∀ blk : Block, π (if blk.frontier.contains b then blk
      else { blk with frontier := blk.frontier.push b }) = π blk := by
    intro blk
    split
    · rfl
    · exact hπ blk _
  intro fuel
  induction fuel with
  | zero => intro g r x; rfl
  | succ fuel ih =>
    intro g r x
    simp only [runUp]
    split
    · rfl
    · split
      · rw [ih, modify_get_eq π hf]
      · rw [modify_get_eq π hf]

theorem foldl_runUp_get_eq (b : Nat) (stop : Option Nat) :
    ∀ (ps : List Nat) (g : BlockGraph) (x : Nat),
      π ((ps.foldl (fun g p => runUp b stop (g.size + 1) g p) g).get x) = π (g.get x) := by
  intro ps
  induction ps with
  | nil => intro g x; rfl
  | cons p ps ih => intro g x; rw [List.foldl_cons, ih, runUp_get_eq π hπ]

theorem frontierStep_get_eq (g : BlockGraph) (b x : Nat) :
    π ((frontierStep g b).get x) = π (g.get x) := by
  unfold frontierStep
  simp only []
  split
  · rfl
  · exact foldl_runUp_get_eq π hπ b _ _ g x

theorem dominanceFrontiers_get_eq (rpo : List Nat) :
    ∀ (g : BlockGraph) (x : Nat), π ((g.dominanceFrontiers rpo).get x) = π (g.get x) := by
  induction rpo with
  | nil => intro g x; rfl
  | cons b rpo ih =>
    intro g x
    rw [dominanceFrontiers_eq, List.foldl_cons, ← dominanceFrontiers_eq, ih,
      frontierStep_get_eq π hπ]

end FrontierFrame

@[simp] theorem size_runUp (b : Nat) (stop : Option Nat) :
    ∀ (fuel : Nat) (g : BlockGraph) (r : Nat), (runUp b stop fuel g r).size = g.size := by
  intro fuel
  induction fuel with
  | zero => intro g r; rfl
  | succ fuel ih =>
    intro g r
    simp only [runUp]
    split
    · rfl
    · split <;> simp [ih]

theorem size_foldl_runUp (b : Nat) (stop : Option Nat) :
    ∀ (ps : List Nat) (g : BlockGraph),
      (ps.foldl (fun g p => runUp b stop (g.size + 1) g p) g).size = g.size := by
  intro ps
  induction ps with
  | nil => intro g; rfl
  | cons p ps ih => intro g; rw [List.foldl_cons, ih, size_runUp]

@[simp] theorem size_frontierStep (g : BlockGraph) (b : Nat) : (frontierStep g b).size = g.size := by
  unfold frontierStep
  simp only []
  split
  · rfl
  · exact size_foldl_runUp b _ _ g

@[simp] theorem size_dominanceFrontiers (rpo : List Nat) :
    ∀ g : BlockGraph, (g.dominanceFrontiers rpo).size = g.size := by
  induction rpo with
  | nil => intro g; rfl
  | cons b rpo ih =>
    intro g
    rw [dominanceFrontiers_eq, List.foldl_cons, ← dominanceFrontiers_eq, ih, size_frontierStep]

/-! ## The loop pass touches the loop flags and the edge labels only -/

/-- One step of `labelLoops`: the back edge `src → header` out of slot `slot`. -/
def loopStep (g : BlockGraph) : Nat × Nat × Nat → BlockGraph
  | (src, slot, header) =>
    if !g.dominates header src then g
    else
      let l := (((g.get src).outs[slot]?).map (·.label)).getD {}
      let g := g.setLabel src slot { l with loop := true }
      let g := g.modify header fun blk =>
        { blk with flags := { blk.flags with loopHeader := true, loopBody := true } }
      markBody header (g.edgeCount + g.size + 2) g (Array.replicate g.size false) [src]

theorem labelLoops_eq (g : BlockGraph) : g.labelLoops = g.backEdges.foldl loopStep g := rfl

section LoopFrame

variable {β : Type} (π : Block → β)
  (hflags : ∀ blk lh lb,
    π { blk with flags := { blk.flags with loopHeader := lh, loopBody := lb } } = π blk)
include hflags

theorem markBody_get_eq (header : Nat) :
    ∀ (fuel : Nat) (g : BlockGraph) (seen : Array Bool) (work : List Nat) (x : Nat),
      π ((markBody header fuel g seen work).get x) = π (g.get x) := by
  intro fuel
  induction fuel with
  | zero => intro g seen work x; rfl
  | succ fuel ih =>
    intro g seen work x
    cases work with
    | nil => rfl
    | cons b work =>
      simp only [markBody]
      split
      · exact ih _ _ _ x
      · rw [ih, modify_get_eq π (fun blk => hflags blk blk.flags.loopHeader true)]

variable (hout : ∀ blk o, π { blk with outs := o } = π blk)
include hout

theorem loopStep_get_eq (g : BlockGraph) (edge : Nat × Nat × Nat) (x : Nat) :
    π ((loopStep g edge).get x) = π (g.get x) := by
  obtain ⟨src, slot, header⟩ := edge
  simp only [loopStep]
  split
  · rfl
  · rw [markBody_get_eq π hflags, modify_get_eq π (fun blk => hflags blk true true),
      setLabel, modify_get_eq π (fun blk => hout blk _)]

theorem labelLoops_get_eq (g : BlockGraph) (x : Nat) : π (g.labelLoops.get x) = π (g.get x) := by
  rw [labelLoops_eq]
  generalize g.backEdges = edges
  induction edges generalizing g with
  | nil => rfl
  | cons edge edges ih => rw [List.foldl_cons, ih, loopStep_get_eq π hflags hout]

end LoopFrame

theorem size_markBody (header : Nat) :
    ∀ (fuel : Nat) (g : BlockGraph) (seen : Array Bool) (work : List Nat),
      (markBody header fuel g seen work).size = g.size := by
  intro fuel
  induction fuel with
  | zero => intro g seen work; rfl
  | succ fuel ih =>
    intro g seen work
    cases work with
    | nil => rfl
    | cons b work =>
      simp only [markBody]
      split
      · exact ih _ _ _
      · rw [ih, size_modify]

@[simp] theorem size_labelLoops (g : BlockGraph) : g.labelLoops.size = g.size := by
  rw [labelLoops_eq]
  generalize g.backEdges = edges
  induction edges generalizing g with
  | nil => rfl
  | cons edge edges ih =>
    obtain ⟨src, slot, header⟩ := edge
    rw [List.foldl_cons, ih]
    simp only [loopStep]
    split
    · rfl
    · rw [size_markBody]
      simp [setLabel]

/-! ## Marking the unreached blocks -/

/-- The blocks without a preorder number, in number order. -/
def unreachedBlocks (g : BlockGraph) : List Nat :=
  (List.range g.size).filter fun b => (g.get b).preorder.isNone

/-- Marks the blocks of `bs` dead. -/
def markDead (g : BlockGraph) (bs : List Nat) : BlockGraph :=
  bs.foldl (fun g b => g.modify b fun blk => { blk with flags := { blk.flags with dead := true } }) g

theorem markDead_get_eq {β : Type} (π : Block → β)
    (hdead : ∀ blk, π { blk with flags := { blk.flags with dead := true } } = π blk) :
    ∀ (bs : List Nat) (g : BlockGraph) (x : Nat), π ((g.markDead bs).get x) = π (g.get x) := by
  intro bs
  induction bs with
  | nil => intro g x; rfl
  | cons b bs ih =>
    intro g x
    simp only [markDead, List.foldl_cons] at ih ⊢
    rw [ih, modify_get_eq π hdead]

@[simp] theorem size_markDead : ∀ (bs : List Nat) (g : BlockGraph), (g.markDead bs).size = g.size := by
  intro bs
  induction bs with
  | nil => intro g; rfl
  | cons b bs ih =>
    intro g
    simp only [markDead, List.foldl_cons] at ih ⊢
    rw [ih, size_modify]

/-- A block is dead after the marking when it was marked or was dead before. -/
theorem dead_markDead :
    ∀ (bs : List Nat) (g : BlockGraph) (x : Nat),
      ((g.markDead bs).get x).flags.dead = (decide (x ∈ bs ∧ x < g.size) || (g.get x).flags.dead) := by
  intro bs
  induction bs with
  | nil => intro g x; simp [markDead]
  | cons b bs ih =>
    intro g x
    simp only [markDead, List.foldl_cons] at ih ⊢
    rw [ih, size_modify, get_modify]
    by_cases hbx : b = x
    · subst hbx
      by_cases hb : b < g.size <;> simp [hb]
    · simp [hbx, Ne.symm hbx]

/-- The stages after the dominator tree is stored: the frontiers, the loops, the dead marks. -/
def finishAnalysis (tree : BlockGraph) (rpo : List Nat) : BlockGraph :=
  ((tree.dominanceFrontiers rpo).labelLoops).markDead
    ((tree.dominanceFrontiers rpo).labelLoops).unreachedBlocks

/-- The run from the entry `e`, stage by stage. -/
theorem analyzeDominators_eq {e : Nat} (he : g.entry = some e) :
    g.analyzeDominators =
      let s := g.clearDominators.spanningTree e
      let tree := s.1.buildTree s.2.tail (s.1.immediateDominators s.2)
      (finishAnalysis tree s.2,
        { rpo := s.2, unreachable := ((tree.dominanceFrontiers s.2).labelLoops).unreachedBlocks }) := by
  simp only [analyzeDominators, entry_clearDominators, he]
  rfl

/-- The last stages keep every part of the blocks but the frontiers, the loop flags, the edge
labels and the dead flag. -/
theorem finishAnalysis_get_eq {β : Type} (π : Block → β)
    (hπ : ∀ blk fr, π { blk with frontier := fr } = π blk)
    (hflags : ∀ blk lh lb,
      π { blk with flags := { blk.flags with loopHeader := lh, loopBody := lb } } = π blk)
    (hout : ∀ blk o, π { blk with outs := o } = π blk)
    (hdead : ∀ blk, π { blk with flags := { blk.flags with dead := true } } = π blk)
    (tree : BlockGraph) (rpo : List Nat) (x : Nat) :
    π ((finishAnalysis tree rpo).get x) = π (tree.get x) := by
  rw [finishAnalysis, markDead_get_eq π hdead, labelLoops_get_eq π hflags hout,
    dominanceFrontiers_get_eq π hπ]

/-- The frontiers are those of the frontier pass. -/
theorem frontier_finishAnalysis (tree : BlockGraph) (rpo : List Nat) (x : Nat) :
    ((finishAnalysis tree rpo).get x).frontier = ((tree.dominanceFrontiers rpo).get x).frontier := by
  rw [finishAnalysis, markDead_get_eq Block.frontier (fun _ => rfl),
    labelLoops_get_eq Block.frontier (fun _ _ _ => rfl) (fun _ _ => rfl)]

@[simp] theorem size_finishAnalysis (tree : BlockGraph) (rpo : List Nat) :
    (finishAnalysis tree rpo).size = tree.size := by
  simp [finishAnalysis]

/-! ## What the stages establish -/

/-- What a run of the analysis from the entry `e` establishes, in terms of the paths of `g`:
the order of visit `e :: rest`, the numbering and the pointer array `idom` the iteration ends
with, and the graph `tree` once the dominator tree is stored. -/
structure Stages (g : BlockGraph) (e : Nat) (rest : List Nat) (rpoNum : Array Nat)
    (idom : Array (Option Nat)) (tree : BlockGraph) : Prop where
  order : VisitOrder g e rest
  dfs : ∃ seen, g.Dfs [] [] [e] seen (e :: rest)
  idomTree : IdomTree idom rpoNum e
  isSome_iff : ∀ v, (idom[v]?.join).isSome ↔ v ∈ e :: rest
  ancestor_iff : ∀ {v x : Nat}, g.Reaches e v → (Ancestor idom x v ↔ g.Dominates e x v)
  isIdom : ∀ v ∈ rest, ∃ d, idom[v]?.join = some d ∧ g.IsIdom e d v
  stores : StoresTree tree rest idom
  size_eq : tree.size = g.size
  preds_eq : ∀ x, tree.preds x = g.preds x
  reached : ∀ x, (tree.get x).preorder.isSome ↔ g.Reaches e x
  frontier_nil : ∀ x, (tree.get x).frontier = #[]
  dead_false : ∀ x, (tree.get x).flags.dead = false

/-- **The stages of a run.** For a well-formed graph with an entry `e`, the search visits
`e :: rest`; the iteration ends at a pass that changes nothing; and `Stages` holds of its
pointers and of the stored tree. -/
theorem stages (hg : g.Wf) {e : Nat} (hlt : e < g.size) :
    ∃ rest, (g.clearDominators.spanningTree e).2 = e :: rest ∧
      (g.clearDominators.spanningTree e).1.idomPass
          (rpoNumbering (g.clearDominators.spanningTree e).1 (e :: rest)) rest
          ((g.clearDominators.spanningTree e).1.immediateDominators (e :: rest)) =
        ((g.clearDominators.spanningTree e).1.immediateDominators (e :: rest), false) ∧
      Stages g e rest (rpoNumbering (g.clearDominators.spanningTree e).1 (e :: rest))
        ((g.clearDominators.spanningTree e).1.immediateDominators (e :: rest))
        ((g.clearDominators.spanningTree e).1.buildTree rest
          ((g.clearDominators.spanningTree e).1.immediateDominators (e :: rest))) := by
  have hg₀ : g.clearDominators.Wf :=
    hg.congr size_clearDominators succs_clearDominators preds_clearDominators
  have hpre : ∀ x, (g.clearDominators.get x).preorder = none :=
    fun x => (clearDominators_get_results x).2.2.2.2.1
  obtain ⟨seen, hdfs, htr⟩ := spanningTree_spec hg₀ (by simpa using hlt) hpre
  generalize hs : g.clearDominators.spanningTree e = s at hdfs htr
  obtain ⟨G₁, rpo⟩ := s
  obtain ⟨hseen, hnd, hmem, hhead, hpred⟩ := Dfs.from_entry hdfs
  -- the order starts at the entry
  obtain ⟨rest, rfl⟩ : ∃ rest, rpo = e :: rest := by
    cases rpo with
    | nil => simp at hhead
    | cons e' rest =>
      obtain rfl : e' = e := by simpa using hhead
      exact ⟨rest, rfl⟩
  -- the search graph has the edges of `g`
  have hsucc₁ : ∀ x, G₁.succs x = g.succs x := fun x => (htr.succs_eq x).trans (by simp)
  have hpred₁ : ∀ x, G₁.preds x = g.preds x := fun x => (htr.preds_eq x).trans (by simp)
  have hsize₁ : G₁.size = g.size := htr.size_eq.trans (by simp)
  have hg₁ : G₁.Wf := hg.congr hsize₁ hsucc₁ hpred₁
  have hreach₀ : ∀ x, g.clearDominators.Reaches e x ↔ g.Reaches e x :=
    fun _ => reaches_congr succs_clearDominators
  have hreach₁ : ∀ x, G₁.Reaches e x ↔ g.Reaches e x := fun _ => reaches_congr hsucc₁
  have hmem' : ∀ v, v ∈ e :: rest ↔ g.Reaches e v := fun v => (hmem v).trans (hreach₀ v)
  have hbefore : ∀ v ∈ rest, ∃ p, v ∈ g.succs p ∧ [p, v].Sublist (e :: rest) := by
    intro v hv
    have hve : v ≠ e := fun h => (List.nodup_cons.mp hnd).1 (h ▸ hv)
    obtain ⟨p, hp, hsub⟩ := hpred v (List.mem_cons_of_mem e hv) hve
    exact ⟨p, by simpa using hp, hsub⟩
  have ho : VisitOrder g e rest := ⟨hlt, hnd, hmem', hbefore⟩
  have ho₁ : VisitOrder G₁ e rest :=
    ⟨hsize₁ ▸ hlt, hnd, fun v => (hmem' v).trans (hreach₁ v).symm,
      fun v hv => by simpa [hsucc₁] using hbefore v hv⟩
  obtain ⟨par, hn, hinv, hfix⟩ := immediateDominators_fixpoint hg₁ ho₁
  -- the fields the search keeps are those clearing left
  have hfields : ∀ x, (G₁.get x).flags = (g.clearDominators.get x).flags ∧
      (G₁.get x).idom = (g.clearDominators.get x).idom ∧
      (G₁.get x).children = (g.clearDominators.get x).children ∧
      (G₁.get x).depth = (g.clearDominators.get x).depth ∧
      (G₁.get x).frontier = (g.clearDominators.get x).frontier := fun x => by
    have h := htr.fields_eq x
    simp only [Block.treeFields, Prod.mk.injEq] at h
    exact h
  have hidom : ∀ v ∈ rest, ∃ d, (G₁.immediateDominators (e :: rest))[v]?.join = some d ∧
      g.IsIdom e d v ∧ (e :: rest).idxOf d < (e :: rest).idxOf v := by
    intro v hv
    obtain ⟨d, hd, hid, hidx⟩ := immediateDominators_isIdom hg₁ ho₁ hv
    exact ⟨d, hd, (isIdom_congr hsucc₁).mp hid, hidx⟩
  have hbuild : ∀ {β : Type} (π : Block → β),
      (∀ blk d k, π { blk with idom := some d, depth := k } = π blk) →
      (∀ blk c, π { blk with children := blk.children.push c } = π blk) →
      ∀ x, π ((G₁.buildTree rest (G₁.immediateDominators (e :: rest))).get x) = π (G₁.get x) :=
    fun π h₁ h₂ x => buildTree_get_eq π h₁ h₂ _ rest G₁ x
  refine ⟨rest, rfl, ?_, ?_⟩
  · rw [idomPass_eq]
    exact foldl_idomStep_of_fixed _ _ _ rest hfix
  exact
    { order := ho
      dfs := ⟨seen, Dfs.congr succs_clearDominators hdfs⟩
      idomTree := hinv.idomTree hn
      isSome_iff := fun v =>
        (immediateDominators_isSome_iff hg₁ ho₁ v).trans ((hreach₁ v).trans (hmem' v).symm)
      ancestor_iff := fun hv =>
        (ancestor_immediateDominators_iff hg₁ ho₁ ((hreach₁ _).mpr hv)).trans
          (dominates_congr hsucc₁)
      isIdom := fun v hv => by
        obtain ⟨d, hd, hid, _⟩ := hidom v hv
        exact ⟨d, hd, hid⟩
      stores := by
        refine buildTree_stores hnd (fun b hb => ?_)
          (fun v hv => Reaches.lt_size hg₁ ho₁.entry_lt ((ho₁.mem_iff v).mp hv)) (fun x => ?_)
        · obtain ⟨d, hd, _, hidx⟩ := hidom b hb
          exact ⟨d, hd, hidx⟩
        · obtain ⟨_, hidom', hchildren, hdepth, _⟩ := hfields x
          obtain ⟨h₁, h₂, h₃, _⟩ := @clearDominators_get_results g x
          exact ⟨hidom'.trans h₁, hdepth.trans h₂, hchildren.trans h₃⟩
      size_eq := by rw [size_buildTree, hsize₁]
      preds_eq := fun x => by
        unfold preds
        rw [hbuild Block.ins (fun _ _ _ => rfl) (fun _ _ => rfl) x]
        exact hpred₁ x
      reached := fun x => by
        rw [hbuild Block.preorder (fun _ _ _ => rfl) (fun _ _ => rfl) x, htr.entered, hseen,
          hreach₀]
      frontier_nil := fun x => by
        rw [hbuild Block.frontier (fun _ _ _ => rfl) (fun _ _ => rfl) x, (hfields x).2.2.2.2]
        exact (clearDominators_get_results x).2.2.2.1
      dead_false := fun x => by
        rw [hbuild (fun blk => blk.flags.dead) (fun _ _ _ => rfl) (fun _ _ => rfl) x,
          (hfields x).1]
        exact (clearDominators_get_results x).2.2.2.2.2 }

/-! ## The dominator tree -/

/-- What a correct run `r` of the analysis on `g` from the entry `e` gives: the dominator loop
stopped at a pass that changes nothing; the dead blocks and the unreachable list (in number
order) are the blocks with no path from `e`, and the order of the summary is the finish order of
the depth-first search from `e`, each reachable block once; the entry has no stored dominator,
every other reachable block its immediate dominator, and every unreachable block none and depth
`0`; the children of `d` are the blocks whose stored dominator is `d`, each once, and the depth
of a reachable block is the number of its strict dominators; `dominates` answers dominance
between reachable blocks. -/
structure AnalysisCorrect (g : BlockGraph) (e : Nat) (r : BlockGraph × DominatorSummary) :
    Prop where
  passes_stop : (g.clearDominators.spanningTree e).1.idomPass
      (rpoNumbering (g.clearDominators.spanningTree e).1 (g.clearDominators.spanningTree e).2)
      (g.clearDominators.spanningTree e).2.tail
      ((g.clearDominators.spanningTree e).1.immediateDominators
        (g.clearDominators.spanningTree e).2) =
    ((g.clearDominators.spanningTree e).1.immediateDominators
      (g.clearDominators.spanningTree e).2, false)
  dead_iff : ∀ b < g.size, ((r.1.get b).flags.dead = true ↔ ¬g.Reaches e b)
  mem_unreachable : ∀ b, b ∈ r.2.unreachable ↔ b < g.size ∧ ¬g.Reaches e b
  unreachable_sorted : r.2.unreachable.Pairwise (· < ·)
  rpo_dfs : ∃ seen, g.Dfs [] [] [e] seen r.2.rpo
  rpo_nodup : r.2.rpo.Nodup
  mem_rpo : ∀ b, b ∈ r.2.rpo ↔ g.Reaches e b
  idom_entry : (r.1.get e).idom = none
  idom_reachable : ∀ b, g.Reaches e b → b ≠ e → ∃ d, (r.1.get b).idom = some d ∧ g.IsIdom e d b
  idom_unreachable : ∀ b, ¬g.Reaches e b → (r.1.get b).idom = none ∧ (r.1.get b).depth = 0
  children_count : ∀ d b,
    (r.1.get d).children.toList.count b = if (r.1.get b).idom = some d then 1 else 0
  depth_eq : ∀ b, g.Reaches e b → ∃ l : List Nat, l.Nodup ∧
    (∀ a, a ∈ l ↔ g.StrictlyDominates e a b) ∧ (r.1.get b).depth = l.length
  dominates_iff : ∀ a b, g.Reaches e a → g.Reaches e b →
    (r.1.dominates a b = true ↔ g.Dominates e a b)

/-- From the stages, the last stages give a correct run. -/
theorem Stages.correct (hg : g.Wf) {e : Nat} {rest : List Nat} {rpoNum : Array Nat}
    {idom : Array (Option Nat)} {tree : BlockGraph} (hst : Stages g e rest rpoNum idom tree)
    (hspan : (g.clearDominators.spanningTree e).2 = e :: rest)
    (hidom : (g.clearDominators.spanningTree e).1.immediateDominators (e :: rest) = idom)
    (hfix : (g.clearDominators.spanningTree e).1.idomPass
      (rpoNumbering (g.clearDominators.spanningTree e).1 (e :: rest)) rest idom = (idom, false)) :
    AnalysisCorrect g e (finishAnalysis tree (e :: rest),
      { rpo := e :: rest
        unreachable := ((tree.dominanceFrontiers (e :: rest)).labelLoops).unreachedBlocks }) := by
  have hnd := hst.order.nodup
  have hnd' := (List.nodup_cons.mp hnd).2
  have he' : e ∉ rest := (List.nodup_cons.mp hnd).1
  -- the last stages keep the stored tree, the preorder numbers and the dead flags
  have hstores : StoresTree (finishAnalysis tree (e :: rest)) rest idom :=
    hst.stores.congr fun x =>
      ⟨finishAnalysis_get_eq Block.idom (fun _ _ => rfl) (fun _ _ _ => rfl) (fun _ _ => rfl)
          (fun _ => rfl) tree _ x,
        finishAnalysis_get_eq Block.depth (fun _ _ => rfl) (fun _ _ _ => rfl) (fun _ _ => rfl)
          (fun _ => rfl) tree _ x,
        finishAnalysis_get_eq Block.children (fun _ _ => rfl) (fun _ _ _ => rfl) (fun _ _ => rfl)
          (fun _ => rfl) tree _ x⟩
  have hlabel : ∀ x, ((tree.dominanceFrontiers (e :: rest)).labelLoops.get x).preorder =
      (tree.get x).preorder ∧
      ((tree.dominanceFrontiers (e :: rest)).labelLoops.get x).flags.dead =
        (tree.get x).flags.dead :=
    fun x => ⟨by rw [labelLoops_get_eq Block.preorder (fun _ _ _ => rfl) (fun _ _ => rfl),
        dominanceFrontiers_get_eq Block.preorder (fun _ _ => rfl)],
      by rw [labelLoops_get_eq (fun blk => blk.flags.dead) (fun _ _ _ => rfl) (fun _ _ => rfl),
        dominanceFrontiers_get_eq (fun blk => blk.flags.dead) (fun _ _ => rfl)]⟩
  have hunreached : ∀ b, b ∈ ((tree.dominanceFrontiers (e :: rest)).labelLoops).unreachedBlocks ↔
      b < g.size ∧ ¬g.Reaches e b := by
    intro b
    simp only [unreachedBlocks, List.mem_filter, List.mem_range, size_labelLoops,
      size_dominanceFrontiers, hst.size_eq, (hlabel b).1]
    rw [← hst.reached b]
    simp
  have hsize : (finishAnalysis tree (e :: rest)).size = g.size := by
    rw [size_finishAnalysis, hst.size_eq]
  have hmemr : ∀ {b}, g.Reaches e b → b ≠ e → b ∈ rest := fun hb hbe =>
    Numbering.mem_rest ((hst.order.mem_iff _).mpr hb) hbe
  have hunr : ∀ {b}, ¬g.Reaches e b → b ∉ rest := fun hb hbr =>
    hb ((hst.order.mem_iff _).mp (List.mem_cons_of_mem e hbr))
  refine
    { passes_stop := by rw [hspan, hidom]; exact hfix
      mem_unreachable := hunreached
      unreachable_sorted := List.Pairwise.filter _ List.pairwise_lt_range
      rpo_dfs := hst.dfs
      rpo_nodup := hnd
      mem_rpo := hst.order.mem_iff
      children_count := fun d b => by simpa using hstores.count_children hnd' d b
      dead_iff := fun b hb => ?_
      idom_entry := by rw [hstores.idom_eq e, if_neg he']
      idom_reachable := fun b hb hbe => ?_
      idom_unreachable := fun b hb =>
        ⟨by rw [hstores.idom_eq b, if_neg (hunr hb)], hstores.depth_out b (hunr hb)⟩
      depth_eq := fun b hb => ?_
      dominates_iff := fun a b ha hb => ?_ }
  · -- the dead flag is set by the last stage exactly on the unreached blocks
    dsimp only
    rw [finishAnalysis, dead_markDead, (hlabel b).2, hst.dead_false, Bool.or_false,
      decide_eq_true_iff, hunreached, size_labelLoops, size_dominanceFrontiers, hst.size_eq]
    simp [hb]
  · obtain ⟨d, hd, hid⟩ := hst.isIdom b (hmemr hb hbe)
    exact ⟨d, by rw [hstores.idom_eq b, if_pos (hmemr hb hbe), hd], hid⟩
  · obtain ⟨L, hL, hLmem, hLlen⟩ := hstores.depth_chain hst.idomTree hst.isSome_iff hnd b
      ((hst.order.mem_iff b).mpr hb)
    refine ⟨L, hL, fun a => ?_, hLlen⟩
    rw [hLmem, hst.ancestor_iff hb]
    exact And.comm
  · show (finishAnalysis tree (e :: rest)).dominates a b = true ↔ _
    rw [hstores.dominates_iff hst.idomTree hst.isSome_iff hnd
      (by rw [hsize]; exact hst.order.length_le hg) ((hst.order.mem_iff a).mpr ha)
      ((hst.order.mem_iff b).mpr hb)]
    exact hst.ancestor_iff hb

/-- **The dominator analysis is correct** on every well-formed graph with an entry, as every
graph built by adding edges is, self-loops and parallel edges included. -/
theorem analyzeDominators_tree (hg : g.Wf) {e : Nat} (he : g.entry = some e) (hlt : e < g.size) :
    AnalysisCorrect g e g.analyzeDominators := by
  obtain ⟨rest, hspan, hfix, hst⟩ := stages hg hlt
  rw [analyzeDominators_eq he]
  simp only [hspan]
  exact hst.correct hg hspan rfl hfix

/-- The analysis of the diamond `0 → 1, 0 → 2, 1 → 3, 2 → 3` from `0`. -/
theorem analyzeDominators_tree_diamond :
    (ofEdges 4 [(0, 1, {}), (0, 2, {}), (1, 3, {}), (2, 3, {})] (some 0)).Wf ∧
      (ofEdges 4 [(0, 1, {}), (0, 2, {}), (1, 3, {}), (2, 3, {})] (some 0)).entry = some 0 ∧
      0 < (ofEdges 4 [(0, 1, {}), (0, 2, {}), (1, 3, {}), (2, 3, {})] (some 0)).size ∧
      AnalysisCorrect (ofEdges 4 [(0, 1, {}), (0, 2, {}), (1, 3, {}), (2, 3, {})] (some 0)) 0
        (ofEdges 4 [(0, 1, {}), (0, 2, {}), (1, 3, {}), (2, 3, {})] (some 0)).analyzeDominators :=
  ⟨ofEdges_wf 4 _ (some 0) (by decide), rfl, by decide,
    analyzeDominators_tree (ofEdges_wf 4 _ (some 0) (by decide)) rfl (by decide)⟩

end BlockGraph

end MicroSsa
