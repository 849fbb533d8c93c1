import MicroSsa.Proofs.Graph.Analysis
/-!
# Running the dominator analysis again

The dominator analysis keeps nothing of an earlier run. `BlockGraph.clearDominators` forgets
every result a run writes: the dead and loop marks, the dominator tree, the frontiers, the search
numbers, and the spanning-tree classes and loop marks of the edge labels. Every stage of the
analysis writes only there, so each keeps the graph's cleared form, and so does the whole run
(`clearDominators_analyzeDominators`).

Two graphs with one cleared form are analysed alike. Hence a second run repeats the first exactly,
summary included, and the analysis reads of a graph only its **shape** (`BlockGraph.SameShape`):
the entry, and each block's operations, edges, switch-default edge marks, marks other than the
dead and loop marks, jump table and start (`analyzeDominators_idempotent`).
-/

namespace MicroSsa

/-- A block with the results of a dominator pass forgotten, as `BlockGraph.clearDominators`
leaves every block. -/
def Block.cleared (blk : Block) : Block :=
  { blk with
    flags := { blk.flags with dead := false, loopHeader := false, loopBody := false }
    idom := none, children := #[], depth := 0, frontier := #[]
    preorder := none, postorder := none
    outs := blk.outs.map fun e => { e with label := e.label.unclassified } }

@[simp] theorem EdgeLabel.unclassified_unclassified (l : EdgeLabel) :
    l.unclassified.unclassified = l.unclassified := rfl

@[simp] theorem EdgeLabel.unclassified_withClass (l : EdgeLabel) (c : EdgeClass) :
    (l.withClass c).unclassified = l.unclassified := by
  cases c <;> rfl

namespace Block

@[simp] theorem cleared_cleared (blk : Block) : blk.cleared.cleared = blk.cleared := by
  simp [cleared, Array.map_map, Function.comp_def, EdgeLabel.unclassified]

/-- Relabelling an out-edge keeps the cleared block when the new label keeps the edge's
switch-default mark. -/
theorem cleared_relabel (blk : Block) (slot : Nat) (l : EdgeLabel)
    (hl : ∀ e, blk.outs[slot]? = some e → l.unclassified = e.label.unclassified) :
    { blk with outs := blk.outs.modify slot fun e => { e with label := l } }.cleared =
      blk.cleared := by
  have houts : (blk.outs.modify slot fun e => { e with label := l }).map
      (fun e => { e with label := e.label.unclassified }) =
      blk.outs.map fun e => { e with label := e.label.unclassified } := by
    refine Array.ext (by simp) fun i h₁ h₂ => ?_
    simp only [Array.getElem_map, Array.getElem_modify]
    split
    · rename_i hi
      subst hi
      rw [hl _ (Array.getElem?_eq_getElem (by simpa using h₂))]
    · rfl
  simp only [cleared, houts]

end Block

namespace BlockGraph

variable {g : BlockGraph}

theorem clearDominators_eq_map (g : BlockGraph) :
    g.clearDominators = { g with blocks := g.blocks.map Block.cleared } := rfl

theorem get_of_lt {g : BlockGraph} {x : Nat} (h : x < g.size) : g.get x = g.blocks[x] := by
  simp [get, Array.getElem?_eq_getElem h]

/-- Graphs with one entry, as many blocks and the same blocks once cleared have one cleared
form. -/
theorem clearDominators_eq_of_get {g' : BlockGraph} (he : g'.entry = g.entry)
    (hs : g'.size = g.size) (hget : ∀ x < g.size, (g'.get x).cleared = (g.get x).cleared) :
    g'.clearDominators = g.clearDominators := by
  rw [clearDominators_eq_map, clearDominators_eq_map, he]
  congr 1
  refine Array.ext (by simpa [size] using hs) fun i h₁ h₂ => ?_
  have hi : i < g.size := by simpa [size] using h₂
  have h := hget i hi
  rw [get_of_lt hi, get_of_lt (hs ▸ hi)] at h
  simp only [Array.getElem_map]
  exact h

@[simp] theorem clearDominators_clearDominators (g : BlockGraph) :
    g.clearDominators.clearDominators = g.clearDominators := by
  simp [clearDominators_eq_map, Array.map_map, Function.comp_def]

/-- A change of one block that keeps it cleared keeps the graph's cleared form. -/
theorem clearDominators_modify {b : Nat} {f : Block → Block}
    (hf : b < g.size → (f (g.get b)).cleared = (g.get b).cleared) :
    (g.modify b f).clearDominators = g.clearDominators := by
  refine clearDominators_eq_of_get rfl (size_modify _ _ _) fun x hx => ?_
  rw [get_modify]
  split
  · rename_i h
    obtain ⟨rfl, -⟩ := h
    exact hf hx
  · rfl

/-- Relabelling an out-edge keeps the cleared form when the new label keeps the edge's
switch-default mark. -/
theorem clearDominators_setLabel {a slot : Nat} {l : EdgeLabel}
    (hl : ∀ e, (g.get a).outs[slot]? = some e → l.unclassified = e.label.unclassified) :
    (g.setLabel a slot l).clearDominators = g.clearDominators :=
  clearDominators_modify fun _ => Block.cleared_relabel _ _ _ hl

/-- A fold whose every step keeps the cleared form keeps it. -/
theorem clearDominators_foldl {α : Type} (step : BlockGraph → α → BlockGraph)
    (hstep : ∀ g x, (step g x).clearDominators = g.clearDominators) :
    ∀ (xs : List α) (g : BlockGraph), (xs.foldl step g).clearDominators = g.clearDominators := by
  intro xs
  induction xs with
  | nil => intro g; rfl
  | cons x xs ih => intro g; rw [List.foldl_cons, ih, hstep]

/-! ## Each stage keeps the cleared form -/

/-- The search only numbers blocks and adds a spanning-tree class to the labels it examines. -/
theorem clearDominators_searchLoop :
    ∀ (fuel : Nat) (s : Search), (searchLoop fuel s).graph.clearDominators =
      s.graph.clearDominators := by
  intro fuel
  induction fuel with
  | zero => intro s; rfl
  | succ fuel ih =>
    intro s
    rcases hst : s.stack with _ | ⟨⟨b, slot⟩, rest⟩
    · rw [searchLoop_nil hst]
    cases hed : (s.graph.get b).outs[slot]? with
    | none =>
      obtain ⟨s₁, hrun, hg, -, -⟩ := searchLoop_pop hst hed
      rw [hrun, ih, hg]
      exact clearDominators_modify fun _ => rfl
    | some ed =>
      -- the examined edge keeps its switch-default mark whatever class it gets
      have hl : ∀ c : EdgeClass, (s.graph.setLabel b slot (ed.label.withClass c)).clearDominators =
          s.graph.clearDominators := fun c =>
        clearDominators_setLabel fun e he => by
          rw [hed] at he
          cases he
          exact EdgeLabel.unclassified_withClass _ _
      cases hnew : (s.graph.get ed.target).preorder with
      | none =>
        obtain ⟨s₁, hrun, hg, -, -⟩ := searchLoop_tree hst hed hnew
        rw [hrun, ih, hg, clearDominators_modify fun _ => rfl, hl]
      | some _ =>
        obtain ⟨s₁, hrun, hg, -, -⟩ := searchLoop_seen hst hed (by simp [hnew])
        rw [hrun, ih, hg, hl]

theorem clearDominators_spanningTree (g : BlockGraph) (e : Nat) :
    (g.spanningTree e).1.clearDominators = g.clearDominators := by
  simp only [spanningTree]
  rw [clearDominators_searchLoop, clearDominators_modify fun _ => rfl]

theorem clearDominators_buildTree (rest : List Nat) (idom : Array (Option Nat)) (g : BlockGraph) :
    (g.buildTree rest idom).clearDominators = g.clearDominators := by
  rw [buildTree_eq]
  refine clearDominators_foldl _ (fun g b => ?_) rest g
  unfold treeStep
  split
  · rw [clearDominators_modify fun _ => rfl, clearDominators_modify fun _ => rfl]
  · rfl

theorem clearDominators_runUp (b : Nat) (stop : Option Nat) :
    ∀ (fuel : Nat) (g : BlockGraph) (r : Nat),
      (runUp b stop fuel g r).clearDominators = g.clearDominators := by
  intro fuel
  induction fuel with
  | zero => intro g r; rfl
  | succ fuel ih =>
    intro g r
    -- the block the walk passes gets at most a new frontier
    have hmod : (g.modify r fun blk =>
        if blk.frontier.contains b then blk else { blk with frontier := blk.frontier.push b }).clearDominators =
        g.clearDominators :=
      clearDominators_modify fun _ => by split <;> rfl
    simp only [runUp]
    split
    · rfl
    · split
      · rw [ih, hmod]
      · exact hmod

theorem clearDominators_dominanceFrontiers (rpo : List Nat) (g : BlockGraph) :
    (g.dominanceFrontiers rpo).clearDominators = g.clearDominators := by
  rw [dominanceFrontiers_eq]
  refine clearDominators_foldl _ (fun g b => ?_) rpo g
  unfold frontierStep
  simp only []
  split
  · rfl
  · exact clearDominators_foldl _ (fun g p => clearDominators_runUp b _ _ g p) _ g

theorem clearDominators_markBody (header : Nat) :
    ∀ (fuel : Nat) (g : BlockGraph) (seen : Array Bool) (work : List Nat),
      (markBody header fuel g seen work).clearDominators = g.clearDominators := by
  intro fuel
  induction fuel with
  | zero => intro g seen work; rfl
  | succ fuel ih =>
    intro g seen work
    cases work with
    | nil => rfl
    | cons b work =>
      simp only [markBody]
      split
      · exact ih _ _ _
      · rw [ih, clearDominators_modify fun _ => rfl]

theorem clearDominators_labelLoops (g : BlockGraph) :
    g.labelLoops.clearDominators = g.clearDominators := by
  rw [labelLoops_eq]
  refine clearDominators_foldl _ (fun g edge => ?_) _ g
  obtain ⟨src, slot, header⟩ := edge
  simp only [loopStep]
  split
  · rfl
  · -- the loop mark goes on the label the back edge has
    rw [clearDominators_markBody, clearDominators_modify fun _ => rfl]
    refine clearDominators_setLabel fun e he => ?_
    simp [he, EdgeLabel.unclassified]

theorem clearDominators_markDead (bs : List Nat) (g : BlockGraph) :
    (g.markDead bs).clearDominators = g.clearDominators :=
  clearDominators_foldl _ (fun _ _ => clearDominators_modify fun _ => rfl) bs g

theorem clearDominators_finishAnalysis (tree : BlockGraph) (rpo : List Nat) :
    (finishAnalysis tree rpo).clearDominators = tree.clearDominators := by
  rw [finishAnalysis, clearDominators_markDead, clearDominators_labelLoops,
    clearDominators_dominanceFrontiers]

/-- **A run writes only its results.** The graph an analysis leaves differs from the one it
was given only in what `clearDominators` forgets. -/
theorem clearDominators_analyzeDominators (g : BlockGraph) :
    g.analyzeDominators.1.clearDominators = g.clearDominators := by
  cases he : g.entry with
  | none =>
    -- with no entry every block is marked dead, which clearing forgets again
    simp only [analyzeDominators, entry_clearDominators, he]
    simp [clearDominators_eq_map, Array.map_map, Function.comp_def, Block.cleared, he]
  | some e =>
    rw [analyzeDominators_eq he]
    simp only []
    rw [clearDominators_finishAnalysis, clearDominators_buildTree, clearDominators_spanningTree,
      clearDominators_clearDominators]

/-- The analysis reads a graph only through its cleared form. -/
theorem analyzeDominators_congr {g' : BlockGraph} (h : g'.clearDominators = g.clearDominators) :
    g'.analyzeDominators = g.analyzeDominators := by
  unfold analyzeDominators
  rw [h]

end BlockGraph

/-! ## The shape of a graph -/

/-- What the dominator analysis reads of a block: its operations, its in-edges, the target,
in-slot and switch-default mark of each out-edge, its marks other than the dead and loop marks,
its jump table and its start. -/
structure Block.SameShape (a b : Block) : Prop where
  ops : a.ops = b.ops
  ins : a.ins = b.ins
  outs : a.outs.map (fun e => (e.target, e.inSlot, e.label.switchDefault)) =
    b.outs.map (fun e => (e.target, e.inSlot, e.label.switchDefault))
  entryPoint : a.flags.entryPoint = b.flags.entryPoint
  switchCase : a.flags.switchCase = b.flags.switchCase
  switchDefault : a.flags.switchDefault = b.flags.switchDefault
  ret : a.flags.ret = b.flags.ret
  unreachableRisk : a.flags.unreachableRisk = b.flags.unreachableRisk
  badData : a.flags.badData = b.flags.badData
  jumpTable : a.jumpTable = b.jumpTable
  start : a.start = b.start

/-- Two graphs of one shape: one entry, as many blocks, and each block of one shape with the
block of the same number. -/
structure BlockGraph.SameShape (g g' : BlockGraph) : Prop where
  entry : g.entry = g'.entry
  size : g.size = g'.size
  block : ∀ x < g.size, (g.get x).SameShape (g'.get x)

namespace Block

/-- An out-edge with its label cleared is its target, in-slot and switch-default mark. -/
theorem unlabel_eq_iff (e e' : OutEdge) :
    ({ e with label := e.label.unclassified } : OutEdge) = { e' with label := e'.label.unclassified } ↔
      (e.target, e.inSlot, e.label.switchDefault) = (e'.target, e'.inSlot, e'.label.switchDefault) := by
  cases e
  cases e'
  simp only [EdgeLabel.unclassified, OutEdge.mk.injEq, EdgeLabel.mk.injEq, Prod.mk.injEq, true_and]
  tauto

theorem cleared_eq_iff (a b : Block) : a.cleared = b.cleared ↔ a.SameShape b := by
  -- the cleared out-edges agree exactly when their targets, in-slots and marks do
  have houts : (a.outs.map fun e => { e with label := e.label.unclassified }) =
      (b.outs.map fun e => { e with label := e.label.unclassified }) ↔
      a.outs.map (fun e => (e.target, e.inSlot, e.label.switchDefault)) =
        b.outs.map (fun e => (e.target, e.inSlot, e.label.switchDefault)) := by
    simp only [Array.ext_iff, Array.size_map, Array.getElem_map]
    exact and_congr_right fun _ => forall_congr' fun i => forall_congr' fun _ =>
      forall_congr' fun _ => unlabel_eq_iff _ _
  constructor
  · intro h
    exact ⟨(congrArg Block.ops h :), (congrArg Block.ins h :), houts.mp (congrArg Block.outs h),
      (congrArg (·.flags.entryPoint) h :), (congrArg (·.flags.switchCase) h :),
      (congrArg (·.flags.switchDefault) h :), (congrArg (·.flags.ret) h :),
      (congrArg (·.flags.unreachableRisk) h :), (congrArg (·.flags.badData) h :),
      (congrArg Block.jumpTable h :), (congrArg Block.start h :)⟩
  · intro h
    obtain ⟨⟨ep, dd, sc, sd, rt, ur, bd, lh, lb⟩, ops, ins, outs, idom, ch, dp, fr, jt, st, pre, post⟩ := a
    obtain ⟨⟨ep', dd', sc', sd', rt', ur', bd', lh', lb'⟩, ops', ins', outs', idom', ch', dp', fr', jt',
      st', pre', post'⟩ := b
    obtain ⟨h₁, h₂, h₃, h₄, h₅, h₆, h₇, h₈, h₉, h₁₀, h₁₁⟩ := h
    simp only at h₁ h₂ h₄ h₅ h₆ h₇ h₈ h₉ h₁₀ h₁₁
    subst h₁ h₂ h₄ h₅ h₆ h₇ h₈ h₉ h₁₀ h₁₁
    simp only [cleared, houts.mpr h₃]

end Block

namespace BlockGraph

variable {g g' : BlockGraph}

theorem SameShape.clearDominators_eq (h : g.SameShape g') :
    g.clearDominators = g'.clearDominators :=
  clearDominators_eq_of_get h.entry h.size fun x hx =>
    (Block.cleared_eq_iff _ _).mpr (h.block x (h.size ▸ hx))

/-- The analysis keeps the shape of the graph it is given. -/
theorem sameShape_analyzeDominators (g : BlockGraph) : g.analyzeDominators.1.SameShape g := by
  have h := clearDominators_analyzeDominators g
  have hsize : g.analyzeDominators.1.size = g.size := by simpa using congrArg BlockGraph.size h
  refine ⟨by simpa using congrArg BlockGraph.entry h, hsize, fun x hx => ?_⟩
  -- block `x` of both graphs, read off the one cleared form
  have hx' : x < g.size := hsize ▸ hx
  have hb := congrArg (fun g => g.blocks[x]?) h
  simp only [clearDominators_eq_map, Array.getElem?_map] at hb
  rw [Array.getElem?_eq_getElem hx, Array.getElem?_eq_getElem (by simpa [size] using hx')] at hb
  rw [get_of_lt hx, get_of_lt hx', ← Block.cleared_eq_iff]
  simpa using hb

/-- **The dominator analysis is idempotent and ignores stale results.** Running it on the graph
it leaves gives that graph and the same summary again; and any graph of the same shape, whatever
marks, labels and dominator fields an earlier run left in it, is analysed to the same graph and
summary. -/
theorem analyzeDominators_idempotent (g : BlockGraph) :
    g.analyzeDominators.1.analyzeDominators = g.analyzeDominators ∧
      ∀ g' : BlockGraph, g'.SameShape g → g'.analyzeDominators = g.analyzeDominators :=
  ⟨analyzeDominators_congr (clearDominators_analyzeDominators g),
    fun _ h => analyzeDominators_congr h.clearDominators_eq⟩

/-- The loop `0 → 1, 1 → 1, 1 → 2, 2 → 0` after one run (back edges labelled, loop marks set)
still has the loop's shape, and is analysed as the loop is. -/
theorem analyzeDominators_idempotent_loop :
    (ofEdges 3 [(0, 1, {}), (1, 1, {}), (1, 2, {}), (2, 0, {})] (some 0)).analyzeDominators.1.SameShape
        (ofEdges 3 [(0, 1, {}), (1, 1, {}), (1, 2, {}), (2, 0, {})] (some 0)) ∧
      (ofEdges 3 [(0, 1, {}), (1, 1, {}), (1, 2, {}), (2, 0, {})] (some 0)).analyzeDominators.1.analyzeDominators =
        (ofEdges 3 [(0, 1, {}), (1, 1, {}), (1, 2, {}), (2, 0, {})] (some 0)).analyzeDominators :=
  ⟨sameShape_analyzeDominators _,
    (analyzeDominators_idempotent _).2 _ (sameShape_analyzeDominators _)⟩

end BlockGraph

end MicroSsa
