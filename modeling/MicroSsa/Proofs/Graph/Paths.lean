import MicroSsa.Graph.Report
/-!
# Paths and dominance

The declarative side of the dominator analysis. A **walk** from the entry `e` lists the blocks
of a path through out-edges, last block first (`BlockGraph.Walk`). A block `a` **dominates**
`b` when every walk from the entry to `b` passes through `a`; the **immediate dominator** of
`b` is the strict dominator of `b` that every other strict dominator of `b` dominates.

A graph is **well formed** (`BlockGraph.Wf`) when its out-edges end at blocks of the graph and
the in-edges of every block name exactly the blocks whose out-edges reach it. `addBlock` and
`addEdge` between existing blocks keep a graph well formed (`Wf.addEdge`), so every graph that
`BlockGraph.ofEdges` builds from edges between its blocks is (`ofEdges_wf`).

The rest of the file holds the small facts about `get`, `modify`, `succs` and `preds` that the
proofs about the analysis use in place of unfolding them.
-/

namespace MicroSsa

/-- The parts of a block that only the dominator analysis writes. -/
def Block.treeFields (blk : Block) : BlockFlags × Option Nat × Array Nat × Nat × Array Nat :=
  (blk.flags, blk.idom, blk.children, blk.depth, blk.frontier)

namespace BlockGraph

/-! ## Reading and changing blocks -/

@[simp] theorem size_modify (g : BlockGraph) (b : Nat) (f : Block → Block) :
    (g.modify b f).size = g.size := by
  simp [modify, size]

theorem get_modify (g : BlockGraph) (b : Nat) (f : Block → Block) (a : Nat) :
    (g.modify b f).get a = if b = a ∧ a < g.size then f (g.get a) else g.get a := by
  simp only [get, modify, size, Array.getElem?_modify]
  by_cases hba : b = a
  · subst hba
    by_cases ha : b < g.blocks.size <;> simp [ha]
  · simp [hba]

@[simp] theorem get_modify_ne (g : BlockGraph) {b a : Nat} (f : Block → Block) (h : b ≠ a) :
    (g.modify b f).get a = g.get a := by
  simp [get_modify, h]

/-- A change that keeps one part of every block keeps that part of the graph's blocks. -/
theorem modify_get_eq {β : Type} (π : Block → β) {f : Block → Block} (hf : ∀ blk, π (f blk) = π blk)
    (g : BlockGraph) (b a : Nat) : π ((g.modify b f).get a) = π (g.get a) := by
  rw [get_modify]
  split <;> simp [hf]

/-- A block outside the graph reads as the empty block. -/
theorem get_of_size_le {g : BlockGraph} {a : Nat} (h : g.size ≤ a) : g.get a = {} := by
  simp [get, size] at h ⊢
  simp [Array.getElem?_eq_none h]

/-- Changing a block by a function that keeps its out-edge targets keeps the successors. -/
theorem succs_modify {g : BlockGraph} {b : Nat} {f : Block → Block}
    (hf : ∀ blk : Block, (f blk).outs.toList.map (·.target) = blk.outs.toList.map (·.target))
    (a : Nat) : (g.modify b f).succs a = g.succs a := by
  simp only [succs, get_modify]
  split <;> simp [hf]

/-- Changing a block by a function that keeps its in-edge sources keeps the predecessors. -/
theorem preds_modify {g : BlockGraph} {b : Nat} {f : Block → Block}
    (hf : ∀ blk : Block, (f blk).ins.toList.map (·.source) = blk.ins.toList.map (·.source))
    (a : Nat) : (g.modify b f).preds a = g.preds a := by
  simp only [preds, get_modify]
  split <;> simp [hf]

@[simp] theorem succs_setLabel (g : BlockGraph) (a slot : Nat) (l : EdgeLabel) (b : Nat) :
    (g.setLabel a slot l).succs b = g.succs b := by
  refine succs_modify (fun blk => ?_) b
  apply List.ext_getElem?
  intro i
  simp only [List.getElem?_map, Array.getElem?_toList, Array.getElem?_modify]
  split <;> simp [Option.map_map, Function.comp_def]

@[simp] theorem preds_setLabel (g : BlockGraph) (a slot : Nat) (l : EdgeLabel) (b : Nat) :
    (g.setLabel a slot l).preds b = g.preds b := by
  unfold setLabel
  refine preds_modify (fun blk => ?_) b
  rfl

@[simp] theorem size_setLabel (g : BlockGraph) (a slot : Nat) (l : EdgeLabel) :
    (g.setLabel a slot l).size = g.size := size_modify _ _ _

/-- Blocks outside the graph have no out-edges. -/
theorem lt_size_of_mem_succs {g : BlockGraph} {a b : Nat} (h : b ∈ g.succs a) : a < g.size := by
  refine Nat.lt_of_not_le fun hle => ?_
  simp [succs, get_of_size_le hle] at h

/-- The `slot`-th successor is the target of out-edge `slot`. -/
theorem succs_getElem? (g : BlockGraph) (a slot : Nat) :
    (g.succs a)[slot]? = (g.get a).outs[slot]?.map (·.target) := by
  simp [succs]

@[simp] theorem succs_setEntry (g : BlockGraph) (b a : Nat) : (g.setEntry b).succs a = g.succs a := by
  unfold setEntry
  change (BlockGraph.modify _ b _).succs a = _
  refine (succs_modify (fun blk => ?_) a).trans ?_
  · rfl
  · split
    · refine succs_modify (fun blk => ?_) a
      rfl
    · rfl

@[simp] theorem preds_setEntry (g : BlockGraph) (b a : Nat) : (g.setEntry b).preds a = g.preds a := by
  unfold setEntry
  change (BlockGraph.modify _ b _).preds a = _
  refine (preds_modify (fun blk => ?_) a).trans ?_
  · rfl
  · split
    · refine preds_modify (fun blk => ?_) a
      rfl
    · rfl

@[simp] theorem size_setEntry (g : BlockGraph) (b : Nat) : (g.setEntry b).size = g.size := by
  unfold setEntry
  change (BlockGraph.modify _ b _).size = _
  rw [size_modify]
  split
  · exact size_modify _ _ _
  · rfl

/-! ## Well-formed graphs -/

/-- Every out-edge ends at a block of the graph, and in-edges mirror out-edges. -/
structure Wf (g : BlockGraph) : Prop where
  succ_lt : ∀ {a b : Nat}, b ∈ g.succs a → b < g.size
  mem_preds : ∀ {a b : Nat}, a ∈ g.preds b ↔ b ∈ g.succs a

theorem Wf.pred_lt {g : BlockGraph} (hg : g.Wf) {a b : Nat} (h : a ∈ g.preds b) : a < g.size :=
  lt_size_of_mem_succs (hg.mem_preds.mp h)

/-- The empty graph of `n` blocks is well formed. -/
theorem wf_replicate (n : Nat) : (BlockGraph.mk (Array.replicate n {}) none).Wf where
  succ_lt h := by simp [succs, get] at h; grind
  mem_preds := by simp [succs, preds, get]; grind

theorem succs_addEdge (g : BlockGraph) {a b : Nat} (l : EdgeLabel) (ha : a < g.size) (c : Nat) :
    (g.addEdge a b l).succs c = if c = a then g.succs c ++ [b] else g.succs c := by
  simp only [addEdge, succs, get_modify, size_modify]
  by_cases hc : c = a
  · subst hc
    by_cases hb : b = c <;> simp [hb, ha]
  · by_cases hb : b = c <;> simp [hb, hc, Ne.symm hc]
    · split <;> simp

theorem preds_addEdge (g : BlockGraph) {a b : Nat} (l : EdgeLabel) (hb : b < g.size) (c : Nat) :
    (g.addEdge a b l).preds c = if c = b then g.preds c ++ [a] else g.preds c := by
  simp only [addEdge, preds, get_modify, size_modify]
  by_cases hc : c = b
  · subst hc
    by_cases hac : a = c <;> simp [hac, hb]
  · by_cases hac : a = c
    · simp only [hac, hc, Ne.symm hc, false_and, if_false, true_and]
      split <;> rfl
    · simp [hac, hc, Ne.symm hc]

@[simp] theorem size_addEdge (g : BlockGraph) (a b : Nat) (l : EdgeLabel) :
    (g.addEdge a b l).size = g.size := by
  simp [addEdge]

/-- An edge between two blocks of a well-formed graph keeps it well formed. -/
theorem Wf.addEdge {g : BlockGraph} (hg : g.Wf) {a b : Nat} (l : EdgeLabel) (ha : a < g.size)
    (hb : b < g.size) : (g.addEdge a b l).Wf where
  succ_lt {x y} h := by
    rw [succs_addEdge g l ha] at h
    rw [size_addEdge]
    split at h
    · rcases List.mem_append.mp h with h | h
      · exact hg.succ_lt h
      · simp at h; omega
    · exact hg.succ_lt h
  mem_preds {x y} := by
    rw [succs_addEdge g l ha, preds_addEdge g l hb]
    by_cases hx : x = a <;> by_cases hy : y = b <;> simp [hx, hy, hg.mem_preds]

/-- A graph built from edges between its `n` blocks is well formed. -/
theorem ofEdges_wf (n : Nat) (edges : List (Nat × Nat × EdgeLabel)) (entry : Option Nat)
    (h : ∀ e ∈ edges, e.1 < n ∧ e.2.1 < n) : (ofEdges n edges entry).Wf := by
  have hfold : ∀ (es : List (Nat × Nat × EdgeLabel)) (g : BlockGraph), g.Wf → g.size = n →
      (∀ e ∈ es, e.1 < n ∧ e.2.1 < n) →
      (es.foldl (fun g e => g.addEdge e.1 e.2.1 e.2.2) g).Wf ∧
        (es.foldl (fun g e => g.addEdge e.1 e.2.1 e.2.2) g).size = n := by
    intro es
    induction es with
    | nil => intro g hg hn _; exact ⟨hg, hn⟩
    | cons e es ih =>
      intro g hg hn hes
      have hab := hes e List.mem_cons_self
      exact ih _ (hg.addEdge e.2.2 (hn ▸ hab.1) (hn ▸ hab.2)) (by simp [hn])
        (fun e he => hes e (List.mem_cons_of_mem _ he))
  obtain ⟨hwf, -⟩ := hfold edges _ (wf_replicate n) (by simp [size]) h
  unfold ofEdges
  split
  · refine ⟨fun hm => ?_, fun {a b} => ?_⟩
    · simpa using hwf.succ_lt (by simpa using hm)
    · simpa using @Wf.mem_preds _ hwf a b
  · exact hwf

/-! ## Walks and dominance -/

/-- `g.Walk e b p`: `p` lists the blocks of a path from `e` to `b` along out-edges, the last
block first. -/
inductive Walk (g : BlockGraph) (e : Nat) : Nat → List Nat → Prop
  | here : Walk g e e [e]
  | step {a b : Nat} {p : List Nat} : Walk g e a p → b ∈ g.succs a → Walk g e b (b :: p)

/-- Some path leads from `e` to `b`. -/
def Reaches (g : BlockGraph) (e b : Nat) : Prop := ∃ p, g.Walk e b p

/-- Every path from the entry `e` to `b` passes through `a`. -/
def Dominates (g : BlockGraph) (e a b : Nat) : Prop := ∀ p, g.Walk e b p → a ∈ p

/-- `a` dominates `b` and is another block. -/
def StrictlyDominates (g : BlockGraph) (e a b : Nat) : Prop := a ≠ b ∧ g.Dominates e a b

/-- `d` strictly dominates `b`, and every other strict dominator of `b` dominates `d`. -/
def IsIdom (g : BlockGraph) (e d b : Nat) : Prop :=
  g.StrictlyDominates e d b ∧ ∀ c, g.StrictlyDominates e c b → g.Dominates e c d

variable {g : BlockGraph} {e : Nat}

theorem Walk.mem_self {b : Nat} {p : List Nat} (h : g.Walk e b p) : b ∈ p := by
  cases h <;> simp

theorem Walk.reaches {b : Nat} {p : List Nat} (h : g.Walk e b p) : g.Reaches e b := ⟨p, h⟩

theorem reaches_refl (g : BlockGraph) (e : Nat) : g.Reaches e e := ⟨[e], .here⟩

theorem Reaches.step {a b : Nat} (h : g.Reaches e a) (hab : b ∈ g.succs a) : g.Reaches e b :=
  let ⟨p, hp⟩ := h; ⟨b :: p, hp.step hab⟩

/-- Every block of a graph that the entry reaches lies in the graph. -/
theorem Reaches.lt_size (hg : g.Wf) (he : e < g.size) {b : Nat} (h : g.Reaches e b) :
    b < g.size := by
  obtain ⟨p, hp⟩ := h
  cases hp with
  | here => exact he
  | step _ hab => exact hg.succ_lt hab

theorem Dominates.refl (g : BlockGraph) (e b : Nat) : g.Dominates e b b :=
  fun _ hp => hp.mem_self

/-- The entry dominates every block. -/
theorem dominates_entry (g : BlockGraph) (e b : Nat) : g.Dominates e e b := by
  intro p hp
  induction hp with
  | here => simp
  | step _ _ ih => exact List.mem_cons_of_mem _ ih

/-- A strict dominator of a block dominates each of its predecessors. -/
theorem Dominates.of_succ {a b p : Nat} (h : g.Dominates e a b) (hab : a ≠ b)
    (hp : b ∈ g.succs p) : g.Dominates e a p := by
  intro q hq
  rcases List.mem_cons.mp (h _ (hq.step hp)) with rfl | hmem
  · exact absurd rfl hab
  · exact hmem

/-- Only the entry dominates the entry. -/
theorem eq_of_dominates_entry {a : Nat} (h : g.Dominates e a e) : a = e := by
  simpa using h _ .here

/-! ## Graphs with the same edges -/

section Congr

variable {g' : BlockGraph} (h : ∀ x, g'.succs x = g.succs x)
include h

/-- Walks, and so reachability and dominance, depend on the successors only. -/
theorem walk_congr {b : Nat} {p : List Nat} : g'.Walk e b p ↔ g.Walk e b p := by
  constructor
  · intro hw
    induction hw with
    | here => exact .here
    | step _ hab ih => exact ih.step (h _ ▸ hab)
  · intro hw
    induction hw with
    | here => exact .here
    | step _ hab ih => exact ih.step ((h _).symm ▸ hab)

theorem reaches_congr {b : Nat} : g'.Reaches e b ↔ g.Reaches e b :=
  exists_congr fun _ => walk_congr h

theorem dominates_congr {a b : Nat} : g'.Dominates e a b ↔ g.Dominates e a b :=
  forall_congr' fun _ => imp_congr_left (walk_congr h)

theorem strictlyDominates_congr {a b : Nat} :
    g'.StrictlyDominates e a b ↔ g.StrictlyDominates e a b :=
  and_congr_right' (dominates_congr h)

theorem isIdom_congr {d b : Nat} : g'.IsIdom e d b ↔ g.IsIdom e d b := by
  unfold IsIdom
  simp only [strictlyDominates_congr h, dominates_congr h]

end Congr

/-- Well-formedness depends on the size, the successors and the predecessors only. -/
theorem Wf.congr {g' : BlockGraph} (hg : g.Wf) (hsize : g'.size = g.size)
    (hsuccs : ∀ x, g'.succs x = g.succs x) (hpreds : ∀ x, g'.preds x = g.preds x) : g'.Wf where
  succ_lt hab := hsize ▸ hg.succ_lt (hsuccs _ ▸ hab)
  mem_preds := by
    intro a b
    rw [hpreds, hsuccs]
    exact hg.mem_preds

end BlockGraph

end MicroSsa
