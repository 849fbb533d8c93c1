import MicroSsa.Proofs.Graph.Classes
import MicroSsa.Proofs.Graph.Analysis
/-!
# Natural loops

After the depth-first search, `BlockGraph.labelLoops` goes through the back edges. A back edge
`s → h` whose target dominates its source becomes a **loop edge**: `h` is marked a loop header,
and every block of its **natural loop**, `h` and the reached blocks that reach `s` without
passing `h`, is marked part of a loop body. `markBody` finds the natural loop by a worklist walk
backwards from `s` through reached predecessors, stopping at `h`, with a fresh scratch array for
every loop.

* `markBody_loopBody`: the walk marks exactly the natural loop, when its fuel covers one step
  per in-edge;
* `labelLoops_spec`: after the pass the loop edges are the back edges whose target dominates
  their source, the headers are their targets and the bodies the union of their natural loops;
* `SpanningTreeLabels.dominates_of_back`: on a reducible graph (`BlockGraph.Reducible`: the edges
  whose target does not dominate their source form no cycle) the target of every back edge
  dominates its source, since a tree edge never enters a dominator of its source;
* `analyzeDominators_loops` puts this together with the labels of the search
  (`SpanningTreeLabels`) for the whole analysis, on every graph with no more in-edges than
  out-edges (`InEdgesBounded`), as every graph built edge by edge (`ofEdges_inEdgesBounded`).
-/

namespace MicroSsa

namespace BlockGraph

variable {g G : BlockGraph} {e : Nat}

/-! ## Paths that avoid a block -/

/-- A walk from `e` extends backwards by an edge into `e`. -/
theorem Walk.prepend {a b : Nat} {p : List Nat} (hw : g.Walk e b p) (ha : e ∈ g.succs a) :
    g.Walk a b (p ++ [a]) := by
  induction hw with
  | here => exact Walk.here.step ha
  | step _ hab ih => exact ih.step hab

/-- A property of blocks closed under successors holds along every walk. -/
theorem Walk.of_closed {P : Nat → Prop} (hP : ∀ x y, P x → y ∈ g.succs x → P y) {b : Nat}
    {p : List Nat} (hw : g.Walk e b p) (he : P e) : P b := by
  induction hw with
  | here => exact he
  | step _ hab ih => exact hP _ _ ih hab

/-- `x` reaches `s` along a path that never passes `h`. -/
def ReachesAvoiding (g : BlockGraph) (h x s : Nat) : Prop := ∃ p, g.Walk x s p ∧ h ∉ p

theorem reachesAvoiding_congr {g' : BlockGraph} (hs : ∀ x, g'.succs x = g.succs x)
    {h x s : Nat} : g'.ReachesAvoiding h x s ↔ g.ReachesAvoiding h x s :=
  exists_congr fun _ => and_congr_left' (walk_congr hs)

/-! ## The loop body walk -/

/-- Whether the scratch array of `markBody` marks a block. -/
def marks (seen : Array Bool) (x : Nat) : Bool := seen[x]?.getD false

theorem marks_set (seen : Array Bool) (b x : Nat) :
    marks (seen.set! b true) x = if x = b ∧ b < seen.size then true else marks seen x := by
  simp only [marks, Array.set!_eq_setIfInBounds, Array.getElem?_setIfInBounds]
  by_cases hx : x = b
  · subst hx
    by_cases hb : x < seen.size <;> simp [hb]
  · simp [hx, Ne.symm hx]

@[simp] theorem marks_replicate (n x : Nat) : marks (Array.replicate n false) x = false := by
  simp only [marks, Array.getElem?_replicate]
  split <;> rfl

/-- The in-edges of the blocks the scratch array does not mark: what the walk can still add to
its work list. -/
def unmarkedPreds (G : BlockGraph) (seen : Array Bool) : Nat :=
  ∑ x ∈ Finset.range G.size, if marks seen x then 0 else (G.preds x).length

/-- Marking a block spends its in-edges. -/
theorem unmarkedPreds_set {seen : Array Bool} {b : Nat} (hb : b < G.size)
    (hsize : seen.size = G.size) (hn : marks seen b = false) :
    G.unmarkedPreds seen = G.unmarkedPreds (seen.set! b true) + (G.preds b).length := by
  have hsplit : ∀ x, (if marks seen x then 0 else (G.preds x).length) =
      (if marks (seen.set! b true) x then 0 else (G.preds x).length) +
        (if x = b then (G.preds x).length else 0) := by
    intro x
    rw [marks_set, hsize]
    by_cases hxb : x = b
    · subst hxb; simp [hn, hb]
    · simp [hxb]
  simp only [unmarkedPreds]
  rw [Finset.sum_congr rfl (fun x _ => hsplit x), Finset.sum_add_distrib, Finset.sum_ite_eq']
  simp [hb]

section MarkBody

variable (G₀ : BlockGraph) (h s : Nat)

/-- What the walk of `markBody` from `s` towards the header `h` keeps, on the graph `G₀` it
starts from: it changes the loop-body marks only, setting exactly those of the blocks it marked;
every marked block is in the natural loop, and so is every block of the work list but `h`; the
reached predecessors of a marked block other than `h` are marked or waiting; `s` is marked or
waiting. -/
structure MarkInv (g : BlockGraph) (seen : Array Bool) (work : List Nat) : Prop where
  size_eq : seen.size = G₀.size
  graph_size : g.size = G₀.size
  preds_eq : ∀ x, g.preds x = G₀.preds x
  pre_eq : ∀ x, (g.get x).preorder = (G₀.get x).preorder
  body_iff : ∀ x, (g.get x).flags.loopBody = true ↔
    (G₀.get x).flags.loopBody = true ∨ marks seen x = true
  marked : ∀ x, marks seen x = true →
    (G₀.get x).preorder.isSome ∧ G₀.ReachesAvoiding h x s
  waiting : ∀ x ∈ work, x = h ∨ ((G₀.get x).preorder.isSome ∧ G₀.ReachesAvoiding h x s)
  closed : ∀ x, marks seen x = true → ∀ p ∈ G₀.preds x, (G₀.get p).preorder.isSome → p ≠ h →
    marks seen p = true ∨ p ∈ work
  source : s ≠ h → marks seen s = true ∨ s ∈ work

variable {G₀ h s}

namespace MarkInv

/-- The walk starts with nothing marked and `s` waiting. -/
theorem start (hs : (G₀.get s).preorder.isSome) :
    MarkInv G₀ h s G₀ (Array.replicate G₀.size false) [s] where
  size_eq := Array.size_replicate
  graph_size := rfl
  preds_eq _ := rfl
  pre_eq _ := rfl
  body_iff x := by simp
  marked x hx := by simp at hx
  waiting x hx := by
    rw [List.mem_singleton.mp hx]
    by_cases hsh : s = h
    · exact Or.inl hsh
    · exact Or.inr ⟨hs, [s], .here, by simpa [eq_comm] using hsh⟩
  closed x hx := by simp at hx
  source _ := Or.inr List.mem_cons_self

variable {g : BlockGraph} {seen : Array Bool} {b : Nat} {work : List Nat}
  (hinv : MarkInv G₀ h s g seen (b :: work))
include hinv

/-- A marked block, or the header, leaves the work list without change. -/
theorem skip (hb : marks seen b = true ∨ b = h) : MarkInv G₀ h s g seen work where
  size_eq := hinv.size_eq
  graph_size := hinv.graph_size
  preds_eq := hinv.preds_eq
  pre_eq := hinv.pre_eq
  body_iff := hinv.body_iff
  marked := hinv.marked
  waiting x hx := hinv.waiting x (List.mem_cons_of_mem _ hx)
  closed x hx p hp hpe hph := by
    rcases hinv.closed x hx p hp hpe hph with hm | hw
    · exact Or.inl hm
    · rcases List.mem_cons.mp hw with rfl | hw
      · exact Or.inl (hb.resolve_right hph)
      · exact Or.inr hw
  source hsh := by
    rcases hinv.source hsh with hm | hw
    · exact Or.inl hm
    · rcases List.mem_cons.mp hw with rfl | hw
      · exact Or.inl (hb.resolve_right hsh)
      · exact Or.inr hw

/-- **The step lemma of the walk.** An unmarked block other than the header is marked, and its
reached predecessors join the work list. -/
theorem mark (hg : G₀.Wf) (hb : marks seen b = false) (hbh : b ≠ h) {g' : BlockGraph}
    (hg' : g' = g.modify b fun blk => { blk with flags := { blk.flags with loopBody := true } }) :
    MarkInv G₀ h s g' (seen.set! b true)
      (((g'.preds b).filter fun p => (g'.get p).preorder.isSome).reverse ++ work) := by
  subst hg'
  have hbB := (hinv.waiting b List.mem_cons_self).resolve_left hbh
  have hblt : b < G₀.size := lt_size_of_preorder hbB.1
  have hbs : b < seen.size := hinv.size_eq ▸ hblt
  have hpre : ∀ x, ((g.modify b fun blk => { blk with flags := { blk.flags with loopBody := true } }).get
      x).preorder = (G₀.get x).preorder := fun x => by
    rw [modify_get_eq Block.preorder (fun _ => by rfl)]
    exact hinv.pre_eq x
  have hwork : ∀ p, p ∈ (((g.modify b fun blk => { blk with flags := { blk.flags with
      loopBody := true } }).preds b).filter fun p => ((g.modify b fun blk => { blk with flags :=
      { blk.flags with loopBody := true } }).get p).preorder.isSome).reverse ↔
      p ∈ G₀.preds b ∧ (G₀.get p).preorder.isSome := by
    intro p
    rw [List.mem_reverse, List.mem_filter, preds_modify (fun _ => by rfl), hinv.preds_eq, hpre]
  refine ⟨by rw [Array.size_set!]; exact hinv.size_eq, by rw [size_modify]; exact hinv.graph_size,
    fun x => ?_, hpre, fun x => ?_,
    fun x hx => ?_, fun x hx => ?_, fun x hx p hp hpe hph => ?_, fun hsh => ?_⟩
  · rw [preds_modify (fun _ => by rfl)]
    exact hinv.preds_eq x
  · rw [get_modify, marks_set, hinv.size_eq, hinv.graph_size]
    by_cases hxb : x = b
    · subst hxb
      simp [hblt]
    · rw [if_neg (fun h' => hxb h'.1.symm), if_neg (fun h' => hxb h'.1)]
      exact hinv.body_iff x
  · rw [marks_set] at hx
    split at hx
    · rename_i hxb
      rw [hxb.1]
      exact hbB
    · exact hinv.marked x hx
  · -- a reached predecessor of a block of the natural loop is in it, or is the header
    rcases List.mem_append.mp hx with hx | hx
    · obtain ⟨hxp, hxe⟩ := (hwork x).mp hx
      by_cases hxh : x = h
      · exact Or.inl hxh
      · obtain ⟨q, hq, hhq⟩ := hbB.2
        refine Or.inr ⟨hxe, q ++ [x], hq.prepend (hg.mem_preds.mp hxp), ?_⟩
        simp [hhq, Ne.symm hxh]
    · exact hinv.waiting x (List.mem_cons_of_mem _ hx)
  · rw [marks_set] at hx ⊢
    split at hx
    · -- the block just marked: its reached predecessors were all put on the list
      rename_i hxb
      rw [hxb.1] at hp
      exact Or.inr (List.mem_append_left _ ((hwork p).mpr ⟨hp, hpe⟩))
    · rcases hinv.closed x hx p hp hpe hph with hm | hw
      · exact Or.inl (by rw [if_neg (fun h' => by simp_all)]; exact hm)
      · rcases List.mem_cons.mp hw with rfl | hw
        · exact Or.inl (by simp [hbs])
        · exact Or.inr (List.mem_append_right _ hw)
  · rw [marks_set]
    rcases hinv.source hsh with hm | hw
    · split
      · exact Or.inl rfl
      · exact Or.inl hm
    · rcases List.mem_cons.mp hw with rfl | hw
      · exact Or.inl (by simp [hbs])
      · exact Or.inr (List.mem_append_right _ hw)

/-- Marking a block spends at least the work it adds. -/
theorem mark_measure (hb : marks seen b = false) (hbh : b ≠ h) {g' : BlockGraph}
    (hg' : g' = g.modify b fun blk => { blk with flags := { blk.flags with loopBody := true } }) :
    (((g'.preds b).filter fun p => (g'.get p).preorder.isSome).reverse ++ work).length +
      G₀.unmarkedPreds (seen.set! b true) < (b :: work).length + G₀.unmarkedPreds seen := by
  have hbB := (hinv.waiting b List.mem_cons_self).resolve_left hbh
  have hspend := unmarkedPreds_set (lt_size_of_preorder hbB.1) hinv.size_eq hb
  have hlen : ((g'.preds b).filter fun p => (g'.get p).preorder.isSome).length ≤
      (G₀.preds b).length := by
    have hpreds : g'.preds b = G₀.preds b := by
      rw [hg', preds_modify (fun _ => by rfl), hinv.preds_eq]
    rw [← hpreds]
    exact List.length_filter_le _ _
  simp only [List.length_append, List.length_reverse, List.length_cons]
  omega

end MarkInv

/-- With the work list empty, the marked blocks are exactly the natural loop: it is closed
under reached predecessors, so every block on a path to `s` that avoids `h` is marked. -/
theorem MarkInv.marks_iff {g : BlockGraph} {seen : Array Bool} (hinv : MarkInv G₀ h s g seen [])
    (hg : G₀.Wf)
    (hP : ∀ x y, (G₀.get x).preorder.isSome → y ∈ G₀.succs x → (G₀.get y).preorder.isSome)
    (x : Nat) : marks seen x = true ↔ (G₀.get x).preorder.isSome ∧ G₀.ReachesAvoiding h x s := by
  refine ⟨hinv.marked x, fun ⟨hx, q, hq, hhq⟩ => ?_⟩
  have hs : marks seen s = true :=
    (hinv.source fun hsh => hhq (hsh ▸ hq.mem_self)).resolve_right List.not_mem_nil
  -- back along the path from `s`: each block's predecessor on it is reached and not `h`
  suffices hback : ∀ {b : Nat} {p : List Nat}, G₀.Walk x b p → h ∉ p → marks seen b = true →
      marks seen x = true from hback hq hhq hs
  intro b p hw
  induction hw with
  | here => exact fun _ hm => hm
  | @step a b p hw hab ih =>
    intro hhp hb
    have hah : a ≠ h := fun hah => hhp (List.mem_cons_of_mem _ (hah ▸ hw.mem_self))
    have hae : (G₀.get a).preorder.isSome := hw.of_closed hP hx
    refine ih (fun hm => hhp (List.mem_cons_of_mem _ hm)) ?_
    exact (hinv.closed b hb a (hg.mem_preds.mpr hab) hae hah).resolve_right List.not_mem_nil

/-- **The walk marks the natural loop** of the edge `s → h`, given fuel for every block of the
work list and every in-edge of an unmarked block. -/
theorem MarkInv.loopBody (hg : G₀.Wf)
    (hP : ∀ x y, (G₀.get x).preorder.isSome → y ∈ G₀.succs x → (G₀.get y).preorder.isSome) :
    ∀ (fuel : Nat) {g : BlockGraph} {seen : Array Bool} {work : List Nat},
      MarkInv G₀ h s g seen work → work.length + G₀.unmarkedPreds seen < fuel →
      ∀ x, ((markBody h fuel g seen work).get x).flags.loopBody = true ↔
        (G₀.get x).flags.loopBody = true ∨
          ((G₀.get x).preorder.isSome ∧ G₀.ReachesAvoiding h x s)
  | 0, _, _, _, _, hfuel => absurd hfuel (Nat.not_lt_zero _)
  | fuel + 1, g, seen, [], hinv, _ => fun x => by
    rw [markBody, hinv.body_iff, hinv.marks_iff hg hP]
  | fuel + 1, g, seen, b :: work, hinv, hfuel => by
    rw [markBody]
    split
    · rename_i hb
      have hb' : marks seen b = true ∨ b = h := by simpa [marks] using hb
      exact loopBody hg hP fuel (hinv.skip hb') (by simp at hfuel; omega)
    · rename_i hb
      have hb' : marks seen b = false ∧ b ≠ h := by simpa [marks] using hb
      exact loopBody hg hP fuel (hinv.mark hg hb'.1 hb'.2 rfl)
        (lt_of_lt_of_le (hinv.mark_measure hb'.1 hb'.2 rfl) (Nat.le_of_lt_succ hfuel))

end MarkBody

/-- **The walk marks the natural loop.** Started from `s` with a fresh scratch array and fuel
beyond the in-edges, on a well-formed graph whose reached blocks are closed under successors,
`markBody` marks as loop body exactly the reached blocks that reach `s` avoiding `h`. -/
theorem markBody_loopBody {G₀ : BlockGraph} {h s fuel : Nat} (hg : G₀.Wf)
    (hP : ∀ x y, (G₀.get x).preorder.isSome → y ∈ G₀.succs x → (G₀.get y).preorder.isSome)
    (hs : (G₀.get s).preorder.isSome)
    (hfuel : ∑ x ∈ Finset.range G₀.size, (G₀.preds x).length < fuel) (x : Nat) :
    ((markBody h (fuel + 1) G₀ (Array.replicate G₀.size false) [s]).get x).flags.loopBody = true ↔
      (G₀.get x).flags.loopBody = true ∨
        ((G₀.get x).preorder.isSome ∧ G₀.ReachesAvoiding h x s) :=
  MarkInv.loopBody hg hP (fuel + 1) (MarkInv.start hs)
    (by simp only [unmarkedPreds, marks_replicate, Bool.false_eq_true, if_false,
      List.length_singleton]; omega) x

/-- `markBody` changes the loop-body marks only. -/
theorem markBody_keeps {β : Type} (π : Block → β)
    (hπ : ∀ blk, π { blk with flags := { blk.flags with loopBody := true } } = π blk) (h : Nat) :
    ∀ (fuel : Nat) (g : BlockGraph) (seen : Array Bool) (work : List Nat) (x : Nat),
      π ((markBody h fuel g seen work).get x) = π (g.get x) := by
  intro fuel
  induction fuel with
  | zero => intro g seen work x; rfl
  | succ fuel ih =>
    intro g seen work x
    cases work with
    | nil => rfl
    | cons b work =>
      rw [markBody]
      split
      · exact ih _ _ _ x
      · rw [ih, modify_get_eq π hπ]

/-! ## One loop edge -/

/-- The graph of a loop edge `s → h`, out-slot `i`, before its body is marked: the edge
labelled `loop`, and `h` marked loop header and part of a loop body. -/
def loopEdgeMarked (g : BlockGraph) (s i h : Nat) : BlockGraph :=
  (g.setLabel s i { (((g.get s).outs[i]?).map (·.label)).getD {} with loop := true }).modify h
    fun blk => { blk with flags := { blk.flags with loopHeader := true, loopBody := true } }

/-- A back edge whose target dominates its source marks the edge, the header, and then the
natural loop. -/
theorem loopStep_of_dominates {s i h : Nat} (hd : g.dominates h s = true) :
    loopStep g (s, i, h) =
      markBody h ((g.loopEdgeMarked s i h).edgeCount + (g.loopEdgeMarked s i h).size + 2)
        (g.loopEdgeMarked s i h) (Array.replicate (g.loopEdgeMarked s i h).size false) [s] := by
  simp only [loopStep, hd, Bool.not_true, Bool.false_eq_true, if_false]
  rfl

theorem loopStep_of_not {s i h : Nat} (hd : g.dominates h s = false) : loopStep g (s, i, h) = g := by
  simp [loopStep, hd]

section LoopEdgeMarked

variable (g : BlockGraph) (s i h : Nat)

/-- Marking a loop edge keeps every part of the blocks but the loop flags and the edge
labels. -/
theorem loopEdgeMarked_get_eq {β : Type} (π : Block → β)
    (hflags : ∀ blk, π { blk with flags := { blk.flags with loopHeader := true, loopBody := true } } =
      π blk)
    (hout : ∀ blk o, π { blk with outs := o } = π blk) (x : Nat) :
    π ((g.loopEdgeMarked s i h).get x) = π (g.get x) := by
  rw [loopEdgeMarked, modify_get_eq π hflags, setLabel, modify_get_eq π (fun blk => hout blk _)]

@[simp] theorem size_loopEdgeMarked : (g.loopEdgeMarked s i h).size = g.size := by
  simp [loopEdgeMarked]

theorem succs_loopEdgeMarked (x : Nat) : (g.loopEdgeMarked s i h).succs x = g.succs x := by
  rw [loopEdgeMarked, succs_modify (fun _ => by rfl), succs_setLabel]

theorem preds_loopEdgeMarked (x : Nat) : (g.loopEdgeMarked s i h).preds x = g.preds x := by
  unfold preds
  rw [loopEdgeMarked_get_eq g s i h Block.ins (fun _ => rfl) (fun _ _ => rfl)]

/-- The loop edge gets the `loop` mark and keeps the rest of its label. -/
theorem outs_loopEdgeMarked (x j : Nat) :
    ((g.loopEdgeMarked s i h).get x).outs[j]? =
      if s = x ∧ j = i then ((g.get x).outs[j]?).map fun ed => { ed with label := { ed.label with loop := true } }
      else (g.get x).outs[j]? := by
  rw [loopEdgeMarked, modify_get_eq Block.outs (fun _ => by rfl), outs_setLabel]
  split
  · rename_i hsj
    rw [← hsj.1, hsj.2]
    cases (g.get s).outs[i]? <;> rfl
  · rfl

theorem loopHeader_loopEdgeMarked (x : Nat) :
    ((g.loopEdgeMarked s i h).get x).flags.loopHeader =
      (decide (h = x ∧ x < g.size) || (g.get x).flags.loopHeader) := by
  rw [loopEdgeMarked, get_modify, size_setLabel]
  have hl : ((g.setLabel s i { (((g.get s).outs[i]?).map (·.label)).getD {} with loop := true }).get
      x).flags = (g.get x).flags := modify_get_eq (fun blk => blk.flags) (fun _ => by rfl) _ _ _
  split <;> simp_all

theorem loopBody_loopEdgeMarked (x : Nat) :
    ((g.loopEdgeMarked s i h).get x).flags.loopBody =
      (decide (h = x ∧ x < g.size) || (g.get x).flags.loopBody) := by
  rw [loopEdgeMarked, get_modify, size_setLabel]
  have hl : ((g.setLabel s i { (((g.get s).outs[i]?).map (·.label)).getD {} with loop := true }).get
      x).flags = (g.get x).flags := modify_get_eq (fun blk => blk.flags) (fun _ => by rfl) _ _ _
  split <;> simp_all

theorem edgeCount_loopEdgeMarked : (g.loopEdgeMarked s i h).edgeCount = g.edgeCount := by
  simp only [edgeCount_eq, size_loopEdgeMarked, succs_loopEdgeMarked]

theorem classView_loopEdgeMarked (x : Nat) :
    classView ((g.loopEdgeMarked s i h).get x) = classView (g.get x) := by
  apply List.ext_getElem?
  intro k
  simp only [classView, List.getElem?_map, Array.getElem?_toList, outs_loopEdgeMarked]
  split
  · cases (g.get x).outs[k]? <;> rfl
  · rfl

end LoopEdgeMarked

/-- `dominates` reads the stored dominators and depths only. -/
theorem dominatesFrom_eq_of_tree {g' : BlockGraph}
    (ht : ∀ x, (g'.get x).idom = (g.get x).idom ∧ (g'.get x).depth = (g.get x).depth)
    (a d : Nat) : ∀ fuel cur, g'.dominatesFrom a d fuel cur = g.dominatesFrom a d fuel cur
  | 0, _ => rfl
  | fuel + 1, cur => by
    simp only [dominatesFrom, (ht cur).1, (ht cur).2, dominatesFrom_eq_of_tree ht a d fuel]

theorem dominates_eq_of_tree {g' : BlockGraph} (hsize : g'.size = g.size)
    (ht : ∀ x, (g'.get x).idom = (g.get x).idom ∧ (g'.get x).depth = (g.get x).depth) :
    g'.dominates = g.dominates := by
  funext a b
  unfold dominates
  rw [hsize, (ht a).2, dominatesFrom_eq_of_tree ht]

/-! ## The loop pass -/

/-- What the loop pass has done to the graph `T` it started from once it is through the back
edges `done`, each a source, an out-slot and a target: only the loop marks and labels changed;
an edge is labelled `loop` exactly when it is one of `done` whose target dominates its source; a
block is a loop header exactly when it is the target of such an edge, and part of a loop body
exactly when it is in the natural loop of one. -/
structure LoopPass (T : BlockGraph) (done : List (Nat × Nat × Nat)) (g : BlockGraph) : Prop where
  size_eq : g.size = T.size
  succs_eq : ∀ x, g.succs x = T.succs x
  preds_eq : ∀ x, g.preds x = T.preds x
  pre_eq : ∀ x, (g.get x).preorder = (T.get x).preorder
  tree_eq : ∀ x, (g.get x).idom = (T.get x).idom ∧ (g.get x).depth = (T.get x).depth
  view_eq : ∀ x, classView (g.get x) = classView (T.get x)
  loop_iff : ∀ (x j : Nat) (ed : OutEdge), (g.get x).outs[j]? = some ed →
    (ed.label.loop = true ↔ ∃ h, (x, j, h) ∈ done ∧ T.dominates h x = true)
  header_iff : ∀ x, (g.get x).flags.loopHeader = true ↔
    ∃ s j, (s, j, x) ∈ done ∧ T.dominates x s = true
  body_iff : ∀ x, (g.get x).flags.loopBody = true ↔
    ∃ s j h, (s, j, h) ∈ done ∧ T.dominates h s = true ∧
      (x = h ∨ ((T.get x).preorder.isSome ∧ T.ReachesAvoiding h x s))

namespace LoopPass

variable {T : BlockGraph} {done : List (Nat × Nat × Nat)}

/-- The pass starts on a graph with no loop marks. -/
theorem start (hloop : ∀ (x j : Nat) (ed : OutEdge), (T.get x).outs[j]? = some ed →
      ed.label.loop = false)
    (hheader : ∀ x, (T.get x).flags.loopHeader = false)
    (hbody : ∀ x, (T.get x).flags.loopBody = false) : LoopPass T [] T where
  size_eq := rfl
  succs_eq _ := rfl
  preds_eq _ := rfl
  pre_eq _ := rfl
  tree_eq _ := ⟨rfl, rfl⟩
  view_eq _ := rfl
  loop_iff x j ed hed := by simp [hloop x j ed hed]
  header_iff x := by simp [hheader x]
  body_iff x := by simp [hbody x]

/-- **The step lemma of the loop pass.** A back edge `s → h` out of a reached block, into a
block of the graph, is processed. -/
theorem step (hp : LoopPass T done g) (hT : T.Wf)
    (hTP : ∀ x y, (T.get x).preorder.isSome → y ∈ T.succs x → (T.get y).preorder.isSome)
    (hin : ∑ x ∈ Finset.range T.size, (T.preds x).length ≤ T.edgeCount)
    {s j h : Nat} (hh : h < T.size) (hs : (T.get s).preorder.isSome) :
    LoopPass T (done ++ [(s, j, h)]) (loopStep g (s, j, h)) := by
  have hdom : g.dominates = T.dominates := dominates_eq_of_tree hp.size_eq hp.tree_eq
  by_cases hd : T.dominates h s = true
  · -- a loop edge: mark it, its header and its natural loop
    rw [loopStep_of_dominates (by rw [hdom]; exact hd)]
    set g₂ := g.loopEdgeMarked s j h with hg₂
    have hsize₂ : g₂.size = T.size := by rw [hg₂, size_loopEdgeMarked, hp.size_eq]
    have hsuccs₂ : ∀ x, g₂.succs x = T.succs x := fun x => by
      rw [hg₂, succs_loopEdgeMarked, hp.succs_eq]
    have hpreds₂ : ∀ x, g₂.preds x = T.preds x := fun x => by
      rw [hg₂, preds_loopEdgeMarked, hp.preds_eq]
    have hpre₂ : ∀ x, (g₂.get x).preorder = (T.get x).preorder := fun x => by
      rw [hg₂, loopEdgeMarked_get_eq g s j h Block.preorder (fun _ => rfl) (fun _ _ => rfl),
        hp.pre_eq]
    have hwf₂ : g₂.Wf := hT.congr hsize₂ hsuccs₂ hpreds₂
    have hP₂ : ∀ x y, (g₂.get x).preorder.isSome → y ∈ g₂.succs x →
        (g₂.get y).preorder.isSome := fun x y hx hy => by
      rw [hpre₂] at hx ⊢
      exact hTP x y hx (hsuccs₂ x ▸ hy)
    have hfuel : ∑ x ∈ Finset.range g₂.size, (g₂.preds x).length <
        g₂.edgeCount + g₂.size + 1 := by
      have hcount : g₂.edgeCount = T.edgeCount := by
        simp only [edgeCount_eq, hsize₂, hsuccs₂]
      simp only [hsize₂, hpreds₂, hcount]
      omega
    -- the walk keeps all but the loop-body marks
    have hkeep : ∀ {β : Type} (π : Block → β),
        (∀ blk, π { blk with flags := { blk.flags with loopBody := true } } = π blk) → ∀ x,
        π ((markBody h (g₂.edgeCount + g₂.size + 2) g₂ (Array.replicate g₂.size false) [s]).get x) =
          π (g₂.get x) :=
      fun π hπ x => markBody_keeps π hπ h _ _ _ _ x
    have houts : ∀ x, ((markBody h (g₂.edgeCount + g₂.size + 2) g₂ (Array.replicate g₂.size false)
        [s]).get x).outs = (g₂.get x).outs := hkeep Block.outs (fun _ => rfl)
    refine ⟨?_, fun x => ?_, fun x => ?_, fun x => ?_, fun x => ?_, fun x => ?_,
      fun x k ed hed => ?_, fun x => ?_, fun x => ?_⟩
    · rw [size_markBody, hsize₂]
    · unfold succs
      rw [houts]
      exact hsuccs₂ x
    · unfold preds
      rw [hkeep Block.ins (fun _ => rfl)]
      exact hpreds₂ x
    · rw [hkeep Block.preorder (fun _ => rfl)]
      exact hpre₂ x
    · rw [hkeep Block.idom (fun _ => rfl), hkeep Block.depth (fun _ => rfl), hg₂,
        loopEdgeMarked_get_eq g s j h Block.idom (fun _ => rfl) (fun _ _ => rfl),
        loopEdgeMarked_get_eq g s j h Block.depth (fun _ => rfl) (fun _ _ => rfl)]
      exact hp.tree_eq x
    · rw [hkeep classView (fun _ => rfl), hg₂, classView_loopEdgeMarked]
      exact hp.view_eq x
    · rw [houts, hg₂, outs_loopEdgeMarked] at hed
      simp only [List.mem_append, List.mem_singleton, Prod.mk.injEq]
      split at hed
      · -- the loop edge itself
        rename_i hxk
        obtain ⟨rfl, rfl⟩ : s = x ∧ j = k := ⟨hxk.1, hxk.2.symm⟩
        obtain ⟨ed₀, -, rfl⟩ := Option.map_eq_some_iff.mp hed
        exact iff_of_true rfl ⟨h, Or.inr ⟨rfl, rfl, rfl⟩, hd⟩
      · rename_i hxk
        rw [hp.loop_iff x k ed hed]
        refine exists_congr fun h' => and_congr_left fun _ => ?_
        exact (or_iff_left fun hc => hxk ⟨hc.1.symm, hc.2.1⟩).symm
    · rw [hkeep (fun blk => blk.flags.loopHeader) (fun _ => rfl), hg₂,
        loopHeader_loopEdgeMarked, Bool.or_eq_true, hp.header_iff, hp.size_eq]
      simp only [List.mem_append, List.mem_singleton, Prod.mk.injEq, decide_eq_true_eq]
      constructor
      · rintro (⟨rfl, -⟩ | ⟨s', j', hmem, hds⟩)
        · exact ⟨s, j, Or.inr ⟨rfl, rfl, rfl⟩, hd⟩
        · exact ⟨s', j', Or.inl hmem, hds⟩
      · rintro ⟨s', j', hmem | ⟨rfl, rfl, rfl⟩, hds⟩
        · exact Or.inr ⟨s', j', hmem, hds⟩
        · exact Or.inl ⟨rfl, hh⟩
    · rw [markBody_loopBody hwf₂ hP₂ (by rw [hpre₂]; exact hs) hfuel, hg₂, loopBody_loopEdgeMarked,
        Bool.or_eq_true, hp.body_iff, hp.size_eq, ← hg₂, hpre₂,
        reachesAvoiding_congr hsuccs₂]
      simp only [List.mem_append, List.mem_singleton, Prod.mk.injEq, decide_eq_true_eq]
      constructor
      · rintro ((⟨rfl, -⟩ | ⟨s', j', h', hmem, hds, hx⟩) | hB)
        · exact ⟨s, j, h, Or.inr ⟨rfl, rfl, rfl⟩, hd, Or.inl rfl⟩
        · exact ⟨s', j', h', Or.inl hmem, hds, hx⟩
        · exact ⟨s, j, h, Or.inr ⟨rfl, rfl, rfl⟩, hd, Or.inr hB⟩
      · rintro ⟨s', j', h', hmem | ⟨rfl, rfl, rfl⟩, hds, hx⟩
        · exact Or.inl (Or.inr ⟨s', j', h', hmem, hds, hx⟩)
        · rcases hx with rfl | hB
          · exact Or.inl (Or.inl ⟨rfl, hh⟩)
          · exact Or.inr hB
  · -- no loop edge: nothing changes, and the new triple adds nothing
    have hd' : T.dominates h s = false := by simpa using hd
    rw [loopStep_of_not (by rw [hdom]; exact hd')]
    refine ⟨hp.size_eq, hp.succs_eq, hp.preds_eq, hp.pre_eq, hp.tree_eq, hp.view_eq,
      fun x k ed hed => ?_, fun x => ?_, fun x => ?_⟩
    · rw [hp.loop_iff x k ed hed]
      simp only [List.mem_append, List.mem_singleton, Prod.mk.injEq]
      refine exists_congr fun h' => ⟨fun ⟨hm, hdx⟩ => ⟨Or.inl hm, hdx⟩, ?_⟩
      rintro ⟨hm | ⟨rfl, -, rfl⟩, hdx⟩
      · exact ⟨hm, hdx⟩
      · exact absurd hdx (by simp [hd'])
    · rw [hp.header_iff]
      simp only [List.mem_append, List.mem_singleton, Prod.mk.injEq]
      constructor
      · rintro ⟨s', j', hm, hds⟩
        exact ⟨s', j', Or.inl hm, hds⟩
      · rintro ⟨s', j', hm | ⟨rfl, -, rfl⟩, hds⟩
        · exact ⟨s', j', hm, hds⟩
        · exact absurd hds (by simp [hd'])
    · rw [hp.body_iff]
      simp only [List.mem_append, List.mem_singleton, Prod.mk.injEq]
      constructor
      · rintro ⟨s', j', h', hm, hds, hx⟩
        exact ⟨s', j', h', Or.inl hm, hds, hx⟩
      · rintro ⟨s', j', h', hm | ⟨rfl, -, rfl⟩, hds, hx⟩
        · exact ⟨s', j', h', hm, hds, hx⟩
        · exact absurd hds (by simp [hd'])

/-- **The run lemma of the loop pass**, over back edges out of reached blocks into blocks of the
graph. -/
theorem foldl (hT : T.Wf)
    (hTP : ∀ x y, (T.get x).preorder.isSome → y ∈ T.succs x → (T.get y).preorder.isSome)
    (hin : ∑ x ∈ Finset.range T.size, (T.preds x).length ≤ T.edgeCount) :
    ∀ (es : List (Nat × Nat × Nat)) {done : List (Nat × Nat × Nat)} {g : BlockGraph},
      LoopPass T done g → (∀ t ∈ es, t.2.2 < T.size ∧ (T.get t.1).preorder.isSome) →
      LoopPass T (done ++ es) (es.foldl loopStep g)
  | [], _, _, hp, _ => by simpa using hp
  | t :: es, done, g, hp, hes => by
    obtain ⟨s, j, h⟩ := t
    have ht := hes _ List.mem_cons_self
    have hstep : LoopPass T (done ++ [(s, j, h)]) (loopStep g (s, j, h)) :=
      hp.step hT hTP hin ht.1 ht.2
    rw [List.foldl_cons, show done ++ (s, j, h) :: es = (done ++ [(s, j, h)]) ++ es by simp]
    exact foldl hT hTP hin es hstep fun t' ht' => hes t' (List.mem_cons_of_mem _ ht')

end LoopPass

theorem mem_backEdges {T : BlockGraph} {b slot t : Nat} :
    (b, slot, t) ∈ T.backEdges ↔ b < T.size ∧
      ∃ ed : OutEdge, (T.get b).outs[slot]? = some ed ∧ ed.label.back = true ∧ ed.target = t := by
  simp only [backEdges, List.mem_flatMap, List.mem_range, List.mem_filterMap]
  constructor
  · rintro ⟨b', hb', ⟨ed, slot'⟩, hmem, hsome⟩
    split at hsome
    · rename_i hback
      simp only [Option.some.injEq, Prod.mk.injEq] at hsome
      obtain ⟨rfl, rfl, rfl⟩ := hsome
      rw [List.mem_zipIdx_iff_getElem?, Array.getElem?_toList] at hmem
      exact ⟨hb', ed, hmem, hback, rfl⟩
    · cases hsome
  · rintro ⟨hb, ed, hed, hback, rfl⟩
    refine ⟨b, hb, (ed, slot), ?_, by simp [hback]⟩
    rw [List.mem_zipIdx_iff_getElem?, Array.getElem?_toList]
    exact hed

/-- **The loop pass.** Started on a well-formed graph with no loop marks, whose reached blocks
are closed under successors, whose back edges leave reached blocks, and with no more in-edges
than out-edges, the pass labels `loop` exactly the back edges whose target dominates their
source, marks their targets as headers and their natural loops as bodies. -/
theorem labelLoops_spec {T : BlockGraph} (hT : T.Wf)
    (hTP : ∀ x y, (T.get x).preorder.isSome → y ∈ T.succs x → (T.get y).preorder.isSome)
    (hin : ∑ x ∈ Finset.range T.size, (T.preds x).length ≤ T.edgeCount)
    (hback : ∀ (x j : Nat) (ed : OutEdge), (T.get x).outs[j]? = some ed → ed.label.back = true →
      (T.get x).preorder.isSome)
    (hloop : ∀ (x j : Nat) (ed : OutEdge), (T.get x).outs[j]? = some ed → ed.label.loop = false)
    (hheader : ∀ x, (T.get x).flags.loopHeader = false)
    (hbody : ∀ x, (T.get x).flags.loopBody = false) :
    LoopPass T T.backEdges T.labelLoops := by
  rw [labelLoops_eq]
  refine LoopPass.foldl hT hTP hin T.backEdges (LoopPass.start hloop hheader hbody) ?_
  rintro ⟨b, slot, t⟩ ht
  obtain ⟨_, ed, hed, hb, rfl⟩ := mem_backEdges.mp ht
  exact ⟨hT.succ_lt (target_mem_succs hed), hback b slot ed hed hb⟩

/-! ## The labels after the search -/

/-- No out-edge carries the `loop` mark. -/
def Unlooped (G : BlockGraph) : Prop :=
  ∀ (x slot : Nat) (ed : OutEdge), (G.get x).outs[slot]? = some ed → ed.label.loop = false

theorem Unlooped.setLabel (hG : G.Unlooped) {b slot : Nat} {l : EdgeLabel} (hl : l.loop = false) :
    (G.setLabel b slot l).Unlooped := by
  intro x j ed hed
  rw [outs_setLabel] at hed
  split at hed
  · obtain ⟨_, -, rfl⟩ := Option.map_eq_some_iff.mp hed
    exact hl
  · exact hG x j ed hed

theorem Unlooped.modify (hG : G.Unlooped) {b : Nat} {f : Block → Block}
    (hf : ∀ blk, (f blk).outs = blk.outs) : (G.modify b f).Unlooped := by
  intro x j ed hed
  rw [modify_get_eq Block.outs hf] at hed
  exact hG x j ed hed

/-- The search adds spanning-tree classes only. -/
theorem unlooped_searchLoop :
    ∀ (fuel : Nat) {s : Search}, s.graph.Unlooped → (searchLoop fuel s).graph.Unlooped := by
  intro fuel
  induction fuel with
  | zero => intro s hs; exact hs
  | succ fuel ih =>
    intro s hs
    rcases hst : s.stack with _ | ⟨⟨b, slot⟩, rest⟩
    · rw [searchLoop_nil hst]
      exact hs
    cases hed : (s.graph.get b).outs[slot]? with
    | none =>
      obtain ⟨s₁, hrun, hg, -, -⟩ := searchLoop_pop hst hed
      rw [hrun]
      exact ih (by rw [hg]; exact hs.modify fun _ => rfl)
    | some ed =>
      -- whatever class the examined edge gets, it keeps its `loop` mark
      have hl : ∀ c, (ed.label.withClass c).loop = false := fun c => by
        cases c <;> exact hs b slot ed hed
      cases hnew : (s.graph.get ed.target).preorder with
      | none =>
        obtain ⟨s₁, hrun, hg, -, -⟩ := searchLoop_tree hst hed hnew
        rw [hrun]
        exact ih (by rw [hg]; exact (hs.setLabel (hl _)).modify fun _ => rfl)
      | some _ =>
        obtain ⟨s₁, hrun, hg, -, -⟩ := searchLoop_seen hst hed (by simp [hnew])
        rw [hrun]
        exact ih (by rw [hg]; exact hs.setLabel (hl _))

/-- Clearing drops the loop marks and the completion numbers. -/
theorem clearDominators_get_marks (x : Nat) :
    (g.clearDominators.get x).flags.loopHeader = false ∧
      (g.clearDominators.get x).flags.loopBody = false ∧
      (g.clearDominators.get x).postorder = none := by
  unfold clearDominators get
  cases h : g.blocks[x]? <;> simp [h]

/-- Clearing strips every label to its switch-default mark. -/
theorem clearDominators_outs (x slot : Nat) :
    (g.clearDominators.get x).outs[slot]? =
      ((g.get x).outs[slot]?).map fun ed => { ed with label := ed.label.unclassified } := by
  unfold clearDominators get
  cases h : g.blocks[x]? <;> simp [h]

theorem unlooped_clearDominators : g.clearDominators.Unlooped := by
  intro x slot ed hed
  rw [clearDominators_outs] at hed
  obtain ⟨_, -, rfl⟩ := Option.map_eq_some_iff.mp hed
  rfl

/-- The labels of the search depend on the paths of `g` only. -/
theorem SpanningTreeLabels.of_succs {g' : BlockGraph} (hs : ∀ x, g'.succs x = g.succs x)
    (h : SpanningTreeLabels g' e G) : SpanningTreeLabels g e G where
  reached x := (h.reached x).trans (reaches_congr hs)
  spanning x := (h.spanning x).trans (reaches_congr hs)
  root := h.root
  parent c hc := h.parent c ((reaches_congr hs).mpr hc)
  tree_pre := h.tree_pre
  labelled x hx := h.labelled x ((reaches_congr hs).mpr hx)
  unlabelled x hx := h.unlabelled x fun h' => hx ((reaches_congr hs).mp h')

/-- **The search stage.** From the cleared graph, the search labels the edges by its tree,
marks no loop edge, keeps the edges and keeps the flags of the cleared graph. -/
theorem spanningTree_labels (hg : g.Wf) (hlt : e < g.size) :
    SpanningTreeLabels g e (g.clearDominators.spanningTree e).1 ∧
      (g.clearDominators.spanningTree e).1.Unlooped ∧
      (∀ x, (g.clearDominators.spanningTree e).1.succs x = g.succs x) ∧
      ∀ x, ((g.clearDominators.spanningTree e).1.get x).flags = (g.clearDominators.get x).flags := by
  have hg₀ : g.clearDominators.Wf :=
    hg.congr size_clearDominators succs_clearDominators preds_clearDominators
  have hlt₀ : e < g.clearDominators.size := by rwa [size_clearDominators]
  have hpre : ∀ x, (g.clearDominators.get x).preorder = none := fun x =>
    (clearDominators_get_results x).2.2.2.2.1
  have hlab : ∀ (x slot : Nat) (ed : OutEdge), (g.clearDominators.get x).outs[slot]? = some ed →
      ed.label.classes = [] := by
    intro x slot ed hed
    rw [clearDominators_outs] at hed
    obtain ⟨_, -, rfl⟩ := Option.map_eq_some_iff.mp hed
    rfl
  have hstart : (startSearch g.clearDominators e).graph.Unlooped :=
    unlooped_clearDominators.modify fun _ => rfl
  obtain ⟨seen, -, htr, -⟩ := endSearch_spec hg₀ hlt₀ hpre
  have hG : (g.clearDominators.spanningTree e).1 = (endSearch g.clearDominators e).graph := by
    rw [spanningTree_eq_endSearch]
  rw [hG]
  refine ⟨(endSearch_labels hg₀ hlt₀ hpre (fun x => (clearDominators_get_marks x).2.2)
      hlab).of_succs succs_clearDominators, ?_, fun x => ?_, fun x => ?_⟩
  · unfold endSearch
    exact unlooped_searchLoop _ hstart
  · exact (htr.succs_eq x).trans (succs_clearDominators x)
  · have hx := htr.fields_eq x
    simp only [Block.treeFields, Prod.mk.injEq] at hx
    exact hx.1

/-! ## Reducible graphs -/

/-- An edge `a → b` out of a block reached from `e` whose target does not dominate its source. -/
def UndominatedEdge (g : BlockGraph) (e a b : Nat) : Prop :=
  g.Reaches e a ∧ b ∈ g.succs a ∧ ¬g.Dominates e b a

/-- A graph is **reducible** from the entry `e` when its edges whose target does not dominate
their source form no cycle. -/
def Reducible (g : BlockGraph) (e : Nat) : Prop :=
  ∀ x, ¬Relation.TransGen (g.UndominatedEdge e) x x

/-- A path of `g` down the tree from `a` to `b`, through ancestors of `b` only. -/
theorem walk_of_dfsAnc (hs : ∀ x, G.succs x = g.succs x) {a b : Nat} (h : G.DfsAnc a b) :
    ∃ q, g.Walk a b q ∧ ∀ c ∈ q, G.DfsAnc c b := by
  induction h with
  | refl => exact ⟨[a], .here, fun c hc => by rw [List.mem_singleton.mp hc]; exact .refl⟩
  | @tail b c _ hbc ih =>
    obtain ⟨q, hq, hanc⟩ := ih
    refine ⟨c :: q, hq.step (by rw [← hs]; exact hbc.mem_succs), fun d hd => ?_⟩
    rcases List.mem_cons.mp hd with rfl | hd
    · exact .refl
    · exact (hanc d hd).tail hbc

/-- A tree edge never enters a dominator of its source: the tree path from the entry to the
source passes only blocks numbered before the target. -/
theorem SpanningTreeLabels.not_dominates_of_tree (h : SpanningTreeLabels g e G)
    (hs : ∀ x, G.succs x = g.succs x) {p c : Nat} (hpc : G.TreeEdge p c) : ¬g.Dominates e c p := by
  obtain ⟨m, n, hp, hc, hmn⟩ := h.tree_pre p c hpc
  obtain ⟨q, hq, hanc⟩ := walk_of_dfsAnc hs ((h.spanning p).mpr ((h.reached p).mp (by simp [hp])))
  intro hdom
  rcases dfsAnc_pre_lt h.tree_pre (hanc c (hdom q hq)) with rfl | ⟨m', n', hc', hp', hlt⟩
  · have hmn' : m = n := Option.some.inj (hp.symm.trans hc)
    omega
  · have h₁ : n = m' := Option.some.inj (hc.symm.trans hc')
    have h₂ : m = n' := Option.some.inj (hp.symm.trans hp')
    omega

/-- **Back edges on a reducible graph.** The target of a back edge out of a reached block
dominates its source: otherwise the tree path from the target down to the source, closed by the
back edge, would be a cycle of edges whose targets do not dominate their sources. -/
theorem SpanningTreeLabels.dominates_of_back (h : SpanningTreeLabels g e G)
    (hs : ∀ x, G.succs x = g.succs x) (hred : g.Reducible e) {x slot : Nat} {ed : OutEdge}
    (hx : g.Reaches e x) (hed : (G.get x).outs[slot]? = some ed) (hback : ed.label.back = true) :
    g.Dominates e ed.target x := by
  by_contra hnd
  have hanc : G.DfsAnc ed.target x := ((h.labelled x hx slot ed hed).back_iff).mp hback
  -- every tree edge on the way down from the target is an edge of the cycle
  have hdown : Relation.ReflTransGen (g.UndominatedEdge e) ed.target x := by
    refine Relation.ReflTransGen.mono (fun a b hab => ?_) _ _ hanc
    obtain ⟨m, n, ha, -, -⟩ := h.tree_pre a b hab
    exact ⟨(h.reached a).mp (by simp [ha]), by rw [← hs]; exact hab.mem_succs,
      h.not_dominates_of_tree hs hab⟩
  exact hred _ (Relation.TransGen.tail' hdown ⟨hx, by rw [← hs]; exact target_mem_succs hed, hnd⟩)

/-- A back edge leaves a reached block: the search labels no edge out of the others. -/
theorem SpanningTreeLabels.reaches_of_back (h : SpanningTreeLabels g e G) {x slot : Nat}
    {ed : OutEdge} (hed : (G.get x).outs[slot]? = some ed) (hback : ed.label.back = true) :
    g.Reaches e x := by
  by_contra hx
  have hnone := EdgeLabel.classes_eq_nil.mp (h.unlabelled x hx slot ed hed)
  rw [hnone.2.2.2] at hback
  cases hback

/-! ## Graphs built edge by edge -/

/-- No more in-edges in all than out-edges, as in every graph built edge by edge: the fuel of the
loop-body walk counts on it. -/
def InEdgesBounded (g : BlockGraph) : Prop :=
  ∑ x ∈ Finset.range g.size, (g.preds x).length ≤ g.edgeCount

theorem InEdgesBounded.congr {g' : BlockGraph} (h : g.InEdgesBounded) (hsize : g'.size = g.size)
    (hsuccs : ∀ x, g'.succs x = g.succs x) (hpreds : ∀ x, g'.preds x = g.preds x) :
    g'.InEdgesBounded := by
  unfold InEdgesBounded at h ⊢
  simp only [edgeCount_eq, hsize, hsuccs, hpreds] at h ⊢
  exact h

/-- An edge added at a block of the graph adds one to the lengths of its lists. -/
theorem sum_length_append_of_lt {f : Nat → List Nat} {a n : Nat} (ha : a < n) (y : Nat) :
    ∑ x ∈ Finset.range n, (if x = a then f x ++ [y] else f x).length =
      ∑ x ∈ Finset.range n, (f x).length + 1 := by
  have hsplit : ∀ x, (if x = a then f x ++ [y] else f x).length =
      (f x).length + if x = a then 1 else 0 := by
    intro x
    split <;> simp
  rw [Finset.sum_congr rfl fun x _ => hsplit x, Finset.sum_add_distrib]
  simp [ha]

theorem InEdgesBounded.addEdge (h : g.InEdgesBounded) {a b : Nat} (l : EdgeLabel)
    (ha : a < g.size) (hb : b < g.size) : (g.addEdge a b l).InEdgesBounded := by
  unfold InEdgesBounded at h ⊢
  rw [edgeCount_eq] at h ⊢
  simp only [size_addEdge, succs_addEdge g l ha, preds_addEdge g l hb]
  rw [sum_length_append_of_lt hb, sum_length_append_of_lt ha]
  omega

/-- Every graph built from edges between its blocks has as many in-edges as out-edges. -/
theorem ofEdges_inEdgesBounded (n : Nat) (edges : List (Nat × Nat × EdgeLabel))
    (entry : Option Nat) (h : ∀ e ∈ edges, e.1 < n ∧ e.2.1 < n) :
    (ofEdges n edges entry).InEdgesBounded := by
  have hfold : ∀ (es : List (Nat × Nat × EdgeLabel)) (g : BlockGraph), g.InEdgesBounded →
      g.size = n → (∀ e ∈ es, e.1 < n ∧ e.2.1 < n) →
      (es.foldl (fun g e => g.addEdge e.1 e.2.1 e.2.2) g).InEdgesBounded := by
    intro es
    induction es with
    | nil => intro g hg _ _; exact hg
    | cons e es ih =>
      intro g hg hn hes
      have hab := hes e List.mem_cons_self
      exact ih _ (hg.addEdge e.2.2 (hn ▸ hab.1) (hn ▸ hab.2)) (by simp [hn])
        (fun e he => hes e (List.mem_cons_of_mem _ he))
  have hempty : (BlockGraph.mk (Array.replicate n {}) none).InEdgesBounded := by
    have hnil : ∀ x, ((BlockGraph.mk (Array.replicate n {}) none).preds x).length = 0 := fun x => by
      simp only [preds, get, Array.getElem?_replicate]
      split <;> rfl
    unfold InEdgesBounded
    simp only [hnil, Finset.sum_const_zero]
    exact Nat.zero_le _
  have hbuilt := hfold edges _ hempty (by simp [size]) h
  unfold ofEdges
  split
  · exact hbuilt.congr (size_setEntry _ _) (fun x => succs_setEntry _ _ x)
      (fun x => preds_setEntry _ _ x)
  · exact hbuilt

/-! ## The loops of the whole analysis -/

/-- No block is marked `MARK`: the marks of a block are its nine flags, and the loop-body walk
keeps its own marks in a scratch array. -/
theorem mark_not_mem_names (f : BlockFlags) : "MARK" ∉ f.names := by
  intro hm
  obtain ⟨⟨n, b⟩, hmem, hf⟩ := List.mem_filterMap.mp hm
  have hn : n = "MARK" := by
    cases b
    · simp at hf
    · simpa using hf
  subst hn
  simp at hmem

/-- What the analysis from the entry `e` of `g` leaves in the labels and loop marks of the
graph `G` it returns: the labels of the depth-first search; the loop edges are the back edges
whose target dominates their source, and on a reducible graph all back edges; the loop headers
are the targets of loop edges; the loop bodies are the union of their natural loops; and no
block is marked `MARK`. -/
structure LoopsCorrect (g : BlockGraph) (e : Nat) (G : BlockGraph) : Prop where
  search : SpanningTreeLabels g e G
  loop_iff : ∀ (x slot : Nat) (ed : OutEdge), (G.get x).outs[slot]? = some ed →
    (ed.label.loop = true ↔ ed.label.back = true ∧ g.Dominates e ed.target x)
  reducible : g.Reducible e → ∀ (x slot : Nat) (ed : OutEdge), (G.get x).outs[slot]? = some ed →
    ed.label.back = true → ed.label.loop = true
  header_iff : ∀ x, (G.get x).flags.loopHeader = true ↔
    ∃ (s slot : Nat) (ed : OutEdge), (G.get s).outs[slot]? = some ed ∧ ed.label.loop = true ∧
      ed.target = x
  body_iff : ∀ x, (G.get x).flags.loopBody = true ↔
    ∃ (s slot : Nat) (ed : OutEdge), (G.get s).outs[slot]? = some ed ∧ ed.label.loop = true ∧
      (x = ed.target ∨ (g.Reaches e x ∧ g.ReachesAvoiding ed.target x s))
  no_mark : ∀ x, "MARK" ∉ (G.get x).flags.names

/-- **The last stages.** From a graph `tree` with the edges of `g`, no loop mark and the labels
of the search, the frontier pass keeps everything the loops read, the loop pass marks the loops,
and the dead marks keep them. -/
theorem finishAnalysis_loops {tree : BlockGraph} (rpo : List Nat) (hwf : tree.Wf)
    (hin : tree.InEdgesBounded) (hlabels : SpanningTreeLabels g e tree)
    (hsuccs : ∀ x, tree.succs x = g.succs x) (hunlooped : tree.Unlooped)
    (hheader : ∀ x, (tree.get x).flags.loopHeader = false)
    (hbody : ∀ x, (tree.get x).flags.loopBody = false)
    (hdom : ∀ a b, g.Reaches e a → g.Reaches e b →
      ((finishAnalysis tree rpo).dominates a b = true ↔ g.Dominates e a b)) :
    LoopsCorrect g e (finishAnalysis tree rpo) := by
  -- the frontier pass, to `T`, keeps all but the frontiers
  set T := tree.dominanceFrontiers rpo with hT
  have hTget : ∀ {β : Type} (π : Block → β), (∀ blk fr, π { blk with frontier := fr } = π blk) →
      ∀ x, π (T.get x) = π (tree.get x) := fun π hπ x => dominanceFrontiers_get_eq π hπ rpo tree x
  have hTsize : T.size = tree.size := size_dominanceFrontiers rpo tree
  have hTsuccs : ∀ x, T.succs x = g.succs x := fun x => by
    simp only [succs, hTget Block.outs (fun _ _ => rfl)]
    exact hsuccs x
  have hTpreds : ∀ x, T.preds x = tree.preds x := fun x => by
    simp only [preds, hTget Block.ins (fun _ _ => rfl)]
  have hTlabels : SpanningTreeLabels g e T :=
    hlabels.transfer (hTget Block.preorder (fun _ _ => rfl)) (hTget classView (fun _ _ => rfl))
  -- the loop pass, to `T.labelLoops`
  have hp : LoopPass T T.backEdges T.labelLoops := by
    refine labelLoops_spec (hwf.congr hTsize (fun x => (hTsuccs x).trans (hsuccs x).symm) hTpreds)
      (fun x y hx hy => ?_) (hin.congr hTsize (fun x => (hTsuccs x).trans (hsuccs x).symm) hTpreds)
      (fun x j ed hed hb => (hTlabels.reached x).mpr (hTlabels.reaches_of_back hed hb))
      (fun x j ed hed => hunlooped x j ed (by rwa [hTget Block.outs (fun _ _ => rfl)] at hed))
      (fun x => by rw [hTget (fun blk => blk.flags) (fun _ _ => rfl)]; exact hheader x)
      (fun x => by rw [hTget (fun blk => blk.flags) (fun _ _ => rfl)]; exact hbody x)
    rw [hTsuccs] at hy
    exact (hTlabels.reached y).mpr (((hTlabels.reached x).mp hx).step hy)
  -- the dead marks keep all but the dead flags
  have hGget : ∀ {β : Type} (π : Block → β),
      (∀ blk, π { blk with flags := { blk.flags with dead := true } } = π blk) →
      ∀ x, π ((finishAnalysis tree rpo).get x) = π (T.labelLoops.get x) := fun π hπ x => by
    rw [finishAnalysis]
    exact markDead_get_eq π hπ _ _ x
  have hGouts : ∀ x, ((finishAnalysis tree rpo).get x).outs = (T.labelLoops.get x).outs :=
    hGget Block.outs (fun _ => rfl)
  have hGview : ∀ x, classView ((finishAnalysis tree rpo).get x) = classView (T.get x) := fun x =>
    (hGget classView (fun _ => rfl) x).trans (hp.view_eq x)
  have hGsuccs : ∀ x, (finishAnalysis tree rpo).succs x = g.succs x := fun x => by
    simp only [succs, hGouts]
    exact (hp.succs_eq x).trans (hTsuccs x)
  have hGlabels : SpanningTreeLabels g e (finishAnalysis tree rpo) :=
    hTlabels.transfer (fun x => (hGget Block.preorder (fun _ => rfl) x).trans (hp.pre_eq x)) hGview
  have hdomT : (finishAnalysis tree rpo).dominates = T.dominates := by
    refine dominates_eq_of_tree (by rw [size_finishAnalysis, hTsize]) fun x => ⟨?_, ?_⟩
    · exact (hGget Block.idom (fun _ => rfl) x).trans (hp.tree_eq x).1
    · exact (hGget Block.depth (fun _ => rfl) x).trans (hp.tree_eq x).2
  -- an edge is a loop edge iff it is a back edge whose target dominates its source
  have hloopT : ∀ (x slot : Nat) (ed : OutEdge), ((finishAnalysis tree rpo).get x).outs[slot]? =
      some ed → (ed.label.loop = true ↔ ed.label.back = true ∧ T.dominates ed.target x = true) := by
    intro x slot ed hed
    rw [hGouts] at hed
    obtain ⟨ed₀, hed₀, ht, hc⟩ := exists_of_classView (hp.view_eq x) hed
    have hb : ed.label.back = ed₀.label.back := EdgeLabel.has_congr hc .back
    rw [hp.loop_iff x slot ed hed, hb, ht]
    constructor
    · rintro ⟨h, hmem, hd⟩
      obtain ⟨-, ed₁, hed₁, hb₁, rfl⟩ := mem_backEdges.mp hmem
      obtain rfl : ed₁ = ed₀ := Option.some.inj (hed₁.symm.trans hed₀)
      exact ⟨hb₁, hd⟩
    · rintro ⟨hb₀, hd⟩
      exact ⟨ed₀.target, mem_backEdges.mpr ⟨lt_size_of_mem_succs (target_mem_succs hed₀), ed₀,
        hed₀, hb₀, rfl⟩, hd⟩
  have hloop : ∀ (x slot : Nat) (ed : OutEdge), ((finishAnalysis tree rpo).get x).outs[slot]? =
      some ed → (ed.label.loop = true ↔ ed.label.back = true ∧ g.Dominates e ed.target x) := by
    intro x slot ed hed
    rw [hloopT x slot ed hed]
    refine and_congr_right fun hb => ?_
    have hx := hGlabels.reaches_of_back hed hb
    rw [← hdomT]
    exact hdom _ _ (hx.step (by rw [← hGsuccs]; exact target_mem_succs hed)) hx
  -- the loop edges of the pass are those of the returned graph
  have hloopEdge : ∀ s j h, ((s, j, h) ∈ T.backEdges ∧ T.dominates h s = true) ↔
      ∃ ed : OutEdge, ((finishAnalysis tree rpo).get s).outs[j]? = some ed ∧
        ed.label.loop = true ∧ ed.target = h := by
    intro s j h
    constructor
    · rintro ⟨hmem, hd⟩
      obtain ⟨-, ed₀, hed₀, hb₀, rfl⟩ := mem_backEdges.mp hmem
      obtain ⟨ed, hed, ht, hc⟩ := exists_of_classView (hGview s).symm hed₀
      have hb : ed₀.label.back = ed.label.back := EdgeLabel.has_congr hc .back
      refine ⟨ed, hed, (hloopT s j ed hed).mpr ⟨hb ▸ hb₀, ?_⟩, ht.symm⟩
      rw [← ht]
      exact hd
    · rintro ⟨ed, hed, hl, rfl⟩
      obtain ⟨hb, hd⟩ := (hloopT s j ed hed).mp hl
      obtain ⟨ed₀, hed₀, ht, hc⟩ := exists_of_classView (hGview s) hed
      have hb₀ : ed.label.back = ed₀.label.back := EdgeLabel.has_congr hc .back
      exact ⟨mem_backEdges.mpr ⟨lt_size_of_mem_succs (target_mem_succs hed₀), ed₀, hed₀, hb₀ ▸ hb,
        ht.symm⟩, hd⟩
  refine ⟨hGlabels, hloop, fun hred x slot ed hed hb => ?_, fun x => ?_, fun x => ?_,
    fun x => mark_not_mem_names _⟩
  · exact (hloop x slot ed hed).mpr ⟨hb, hGlabels.dominates_of_back hGsuccs hred
      (hGlabels.reaches_of_back hed hb) hed hb⟩
  · rw [hGget (fun blk => blk.flags.loopHeader) (fun _ => rfl), hp.header_iff]
    exact exists_congr fun s => exists_congr fun j => hloopEdge s j x
  · rw [hGget (fun blk => blk.flags.loopBody) (fun _ => rfl), hp.body_iff]
    simp only [hTlabels.reached, reachesAvoiding_congr hTsuccs]
    constructor
    · rintro ⟨s, j, h, hmem, hd, hx⟩
      obtain ⟨ed, hed, hl, rfl⟩ := (hloopEdge s j h).mp ⟨hmem, hd⟩
      exact ⟨s, j, ed, hed, hl, hx⟩
    · rintro ⟨s, j, ed, hed, hl, hx⟩
      obtain ⟨hmem, hd⟩ := (hloopEdge s j ed.target).mpr ⟨ed, hed, hl, rfl⟩
      exact ⟨s, j, ed.target, hmem, hd, hx⟩

/-- **Edge classes and natural loops.** On every well-formed graph with an entry `e` and no
more in-edges than out-edges, as every graph built edge by edge, the analysis labels each edge
out of a reached block with its class in the depth-first search from `e` and no other edge; the
loop edges are the back edges whose target dominates their source, every back edge on a
reducible graph; the loop headers are their targets and the loop bodies their natural loops. -/
theorem analyzeDominators_loops (hg : g.Wf) (hin : g.InEdgesBounded) (he : g.entry = some e)
    (hlt : e < g.size) : LoopsCorrect g e g.analyzeDominators.1 := by
  obtain ⟨rest, hspan, hfix, hst⟩ := stages hg hlt
  have hcorrect := hst.correct hg hspan rfl hfix
  obtain ⟨hlabels, hunlooped, hsuccs, hflags⟩ := spanningTree_labels hg hlt
  rw [analyzeDominators_eq he]
  simp only [hspan, List.tail_cons]
  -- storing the tree keeps the edges, the numbers and the flags of the search
  have hkeep : ∀ {β : Type} (π : Block → β),
      (∀ blk d k, π { blk with idom := some d, depth := k } = π blk) →
      (∀ blk c, π { blk with children := blk.children.push c } = π blk) → ∀ x,
      π (((g.clearDominators.spanningTree e).1.buildTree rest
        ((g.clearDominators.spanningTree e).1.immediateDominators (e :: rest))).get x) =
        π ((g.clearDominators.spanningTree e).1.get x) :=
    fun π h₁ h₂ x => buildTree_get_eq π h₁ h₂ _ _ _ x
  have htsuccs : ∀ x, ((g.clearDominators.spanningTree e).1.buildTree rest
      ((g.clearDominators.spanningTree e).1.immediateDominators (e :: rest))).succs x =
        g.succs x := fun x => by
    simp only [succs, hkeep Block.outs (fun _ _ _ => rfl) (fun _ _ => rfl)]
    exact hsuccs x
  have hflags' : ∀ x, (((g.clearDominators.spanningTree e).1.buildTree rest
      ((g.clearDominators.spanningTree e).1.immediateDominators (e :: rest))).get x).flags =
        (g.clearDominators.get x).flags := fun x =>
    (hkeep (fun blk => blk.flags) (fun _ _ _ => rfl) (fun _ _ => rfl) x).trans (hflags x)
  refine finishAnalysis_loops (e :: rest) (hg.congr hst.size_eq htsuccs hst.preds_eq)
    (hin.congr hst.size_eq htsuccs hst.preds_eq)
    (hlabels.transfer (hkeep Block.preorder (fun _ _ _ => rfl) (fun _ _ => rfl))
      (hkeep classView (fun _ _ _ => rfl) (fun _ _ => rfl))) htsuccs
    (fun x j ed hed => hunlooped x j ed
      (by rwa [hkeep Block.outs (fun _ _ _ => rfl) (fun _ _ => rfl)] at hed))
    (fun x => by rw [hflags']; exact (clearDominators_get_marks x).1)
    (fun x => by rw [hflags']; exact (clearDominators_get_marks x).2.1)
    hcorrect.dominates_iff

/-- The loop `1 → 2 → 1` with the exit `1 → 3`, entered from `0`. -/
theorem analyzeDominators_loops_withExit :
    (ofEdges 4 [(0, 1, {}), (1, 2, {}), (2, 1, {}), (1, 3, {})] (some 0)).Wf ∧
      (ofEdges 4 [(0, 1, {}), (1, 2, {}), (2, 1, {}), (1, 3, {})] (some 0)).InEdgesBounded ∧
      (ofEdges 4 [(0, 1, {}), (1, 2, {}), (2, 1, {}), (1, 3, {})] (some 0)).entry = some 0 ∧
      0 < (ofEdges 4 [(0, 1, {}), (1, 2, {}), (2, 1, {}), (1, 3, {})] (some 0)).size ∧
      LoopsCorrect (ofEdges 4 [(0, 1, {}), (1, 2, {}), (2, 1, {}), (1, 3, {})] (some 0)) 0
        (ofEdges 4 [(0, 1, {}), (1, 2, {}), (2, 1, {}), (1, 3, {})] (some 0)).analyzeDominators.1 :=
  ⟨ofEdges_wf 4 _ (some 0) (by decide), ofEdges_inEdgesBounded 4 _ (some 0) (by decide), rfl,
    by decide,
    analyzeDominators_loops (ofEdges_wf 4 _ (some 0) (by decide))
      (ofEdges_inEdgesBounded 4 _ (some 0) (by decide)) rfl (by decide)⟩

end BlockGraph

end MicroSsa
