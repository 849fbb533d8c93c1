import MicroSsa.Proofs.Graph.Search
/-!
# Edge classes of the depth-first search

The search of `BlockGraph.spanningTree` labels every out-edge it examines with a class. Its
**tree edges** (`BlockGraph.TreeSlot`) form a spanning tree of the reached blocks rooted at the
entry, and `G.DfsAnc a b` says that `a` is `b` or an ancestor of `b` in that tree. An edge
`x → t` out of a reached block carries exactly one class, and (`BlockGraph.EdgeOk`)

* `back` exactly when `t` is an ancestor of `x` or `x` itself,
* `forward` exactly when `t` is a proper descendant of `x` and the edge is no tree edge,
* `cross` exactly when neither of `x` and `t` is an ancestor of the other; then `t` was
  entered before `x`.

Edges out of unreached blocks carry no class.

The search keeps the invariant `Search.Classified`. Its shape part, `Search.Numbered`, says that
the open blocks, bottom to top, are a path of tree edges, that a block entered while another is
open descends from it, and that the descendants of a finished block are finished; the rest says
that the edges examined so far are labelled as above. One lemma per kind of step keeps it
(`Classified.seen`, `Classified.tree`, `Classified.pop`), `Classified.searchLoop` carries it
through the run, and `endSearch_labels` reads the labels off the finished search
(`SpanningTreeLabels`).
-/

namespace MicroSsa

namespace EdgeLabel

/-- Whether a label carries a spanning-tree class. -/
def has (l : EdgeLabel) : EdgeClass → Bool
  | .tree => l.tree
  | .back => l.back
  | .forward => l.forward
  | .cross => l.cross

/-- The spanning-tree classes a label carries, in the order of their bits. -/
def classes (l : EdgeLabel) : List EdgeClass :=
  [EdgeClass.tree, .forward, .cross, .back].filter l.has

theorem mem_classes {l : EdgeLabel} {c : EdgeClass} : c ∈ l.classes ↔ l.has c = true := by
  cases c <;> simp [classes]

theorem classes_eq_nil {l : EdgeLabel} :
    l.classes = [] ↔ l.tree = false ∧ l.forward = false ∧ l.cross = false ∧ l.back = false := by
  rw [List.eq_nil_iff_forall_not_mem]
  simp only [mem_classes, Bool.not_eq_true]
  constructor
  · intro h
    exact ⟨h .tree, h .forward, h .cross, h .back⟩
  · rintro ⟨h₁, h₂, h₃, h₄⟩ c
    cases c <;> assumption

@[simp] theorem classes_unclassified (l : EdgeLabel) : l.unclassified.classes = [] := rfl

/-- A label of one class has exactly that bit among the four. -/
theorem has_of_classes {l : EdgeLabel} {c : EdgeClass} (h : l.classes = [c]) (c' : EdgeClass) :
    l.has c' = decide (c' = c) := by
  have hmem : l.has c' = true ↔ c' = c := by rw [← mem_classes, h, List.mem_singleton]
  by_cases hc : c' = c
  · simpa [hc] using hmem
  · simpa [hc] using hmem

/-- Two labels with the same classes have the same four bits. -/
theorem has_congr {l l' : EdgeLabel} (h : l'.classes = l.classes) (c : EdgeClass) :
    l'.has c = l.has c :=
  Bool.eq_iff_iff.mpr (by rw [← mem_classes, ← mem_classes, h])

theorem classes_withClass {l : EdgeLabel} (hl : l.classes = []) (c : EdgeClass) :
    (l.withClass c).classes = [c] := by
  obtain ⟨h₁, h₂, h₃, h₄⟩ := classes_eq_nil.mp hl
  cases c <;> simp [classes, List.filter_cons, has, withClass, h₁, h₂, h₃, h₄]

end EdgeLabel

namespace BlockGraph

/-! ## The tree of tree edges -/

/-- The target and the tree bit of out-edge `slot` of `p`. -/
def treeView (G : BlockGraph) (p slot : Nat) : Option (Nat × Bool) :=
  ((G.get p).outs[slot]?).map fun ed => (ed.target, ed.label.tree)

/-- Out-edge `slot` of `p` is a tree edge into `c`. -/
def TreeSlot (G : BlockGraph) (p slot c : Nat) : Prop := G.treeView p slot = some (c, true)

/-- Some tree edge leads from `p` to `c`. -/
def TreeEdge (G : BlockGraph) (p c : Nat) : Prop := ∃ slot, G.TreeSlot p slot c

/-- `a` is `b` or an ancestor of `b` in the tree of tree edges. -/
def DfsAnc (G : BlockGraph) : Nat → Nat → Prop := Relation.ReflTransGen G.TreeEdge

variable {G G' : BlockGraph}

theorem treeSlot_iff {p slot c : Nat} :
    G.TreeSlot p slot c ↔
      ∃ ed, (G.get p).outs[slot]? = some ed ∧ ed.target = c ∧ ed.label.tree = true := by
  simp [TreeSlot, treeView, Option.map_eq_some_iff]

theorem target_mem_succs {x slot : Nat} {ed : OutEdge} (hed : (G.get x).outs[slot]? = some ed) :
    ed.target ∈ G.succs x :=
  List.mem_of_getElem? (by rw [succs_getElem?, hed]; rfl)

theorem TreeEdge.mem_succs {p c : Nat} (h : G.TreeEdge p c) : c ∈ G.succs p := by
  obtain ⟨slot, hs⟩ := h
  obtain ⟨ed, hed, rfl, -⟩ := treeSlot_iff.mp hs
  exact target_mem_succs hed

theorem treeEdge_congr (h : G'.treeView = G.treeView) : G'.TreeEdge = G.TreeEdge := by
  funext p c
  simp only [TreeEdge, TreeSlot, h]

theorem dfsAnc_congr (h : G'.treeView = G.treeView) : G'.DfsAnc = G.DfsAnc := by
  unfold DfsAnc
  rw [treeEdge_congr h]

/-- Relabelling an out-edge changes its tree bit only. -/
theorem outs_setLabel (G : BlockGraph) (b slot : Nat) (l : EdgeLabel) (x i : Nat) :
    ((G.setLabel b slot l).get x).outs[i]? =
      if b = x ∧ i = slot then ((G.get x).outs[i]?).map fun ed => { ed with label := l }
      else (G.get x).outs[i]? := by
  unfold setLabel
  rw [get_modify]
  by_cases hbx : b = x
  · subst hbx
    by_cases hb : b < G.size
    · by_cases hi : i = slot
      · subst hi; simp [hb, Array.getElem?_modify]
      · simp [hb, hi, Array.getElem?_modify, Ne.symm hi]
    · simp [hb, get_of_size_le (Nat.le_of_not_lt hb)]
  · simp [hbx]

theorem treeView_setLabel (G : BlockGraph) (b slot : Nat) (l : EdgeLabel) (x i : Nat) :
    (G.setLabel b slot l).treeView x i =
      if b = x ∧ i = slot then (G.treeView x i).map fun v => (v.1, l.tree)
      else G.treeView x i := by
  unfold treeView
  rw [outs_setLabel]
  split <;> simp [Option.map_map, Function.comp_def]

theorem treeView_modify {b : Nat} {f : Block → Block} (hf : ∀ blk, (f blk).outs = blk.outs) :
    (G.modify b f).treeView = G.treeView := by
  funext x i
  simp only [treeView, modify_get_eq Block.outs hf]

/-- A relabelling that keeps the tree bit keeps the tree. -/
theorem treeView_setLabel_of_tree {b slot : Nat} {l : EdgeLabel}
    (h : ∀ ed, (G.get b).outs[slot]? = some ed → l.tree = ed.label.tree) :
    (G.setLabel b slot l).treeView = G.treeView := by
  funext x i
  rw [treeView_setLabel]
  split
  · rename_i hbi
    rw [← hbi.1, hbi.2]
    cases hed : (G.get b).outs[slot]? with
    | none => simp [treeView, hed]
    | some ed => simp [treeView, hed, h ed hed]
  · rfl

section Leaf

/-! ### Adding a leaf

A tree step turns out-edge `slot` of `b` into a tree edge into a block `t` that has no tree
edge out of it yet. -/

variable {b slot t : Nat}
  (hview : ∀ x i, G'.treeView x i = if b = x ∧ i = slot then some (t, true) else G.treeView x i)
  (hold : ∀ c, ¬G.TreeSlot b slot c) (hbt : b ≠ t) (hleaf : ∀ z, ¬G.TreeEdge t z)
include hview hold

theorem treeSlot_leaf {p i c : Nat} :
    G'.TreeSlot p i c ↔ G.TreeSlot p i c ∨ (p = b ∧ i = slot ∧ c = t) := by
  simp only [TreeSlot, hview]
  split
  · rename_i hbi
    obtain ⟨hb, hi⟩ := hbi
    subst hb hi
    simp only [Option.some.injEq, Prod.mk.injEq, and_true, true_and]
    exact ⟨fun h => Or.inr h.symm, fun h => h.elim (fun h' => absurd h' (hold c)) Eq.symm⟩
  · rename_i hbi
    exact ⟨Or.inl, fun h => h.elim id fun ⟨hp, hi, _⟩ => absurd ⟨hp.symm, hi⟩ hbi⟩

theorem treeEdge_leaf {p c : Nat} : G'.TreeEdge p c ↔ G.TreeEdge p c ∨ (p = b ∧ c = t) := by
  simp only [TreeEdge, treeSlot_leaf hview hold]
  constructor
  · rintro ⟨i, hi | ⟨rfl, -, rfl⟩⟩
    · exact Or.inl ⟨i, hi⟩
    · exact Or.inr ⟨rfl, rfl⟩
  · rintro (⟨i, hi⟩ | ⟨rfl, rfl⟩)
    · exact ⟨i, Or.inl hi⟩
    · exact ⟨slot, Or.inr ⟨rfl, rfl, rfl⟩⟩

theorem dfsAnc_of_leaf {x y : Nat} (h : G.DfsAnc x y) : G'.DfsAnc x y :=
  Relation.ReflTransGen.mono (fun _ _ hpc => (treeEdge_leaf hview hold).mpr (Or.inl hpc)) x y h

include hbt hleaf in
/-- The ancestors in the tree with a new leaf: those of before, and for the leaf those of its
parent. -/
theorem dfsAnc_leaf {x y : Nat} : G'.DfsAnc x y ↔ G.DfsAnc x y ∨ (y = t ∧ G.DfsAnc x b) := by
  constructor
  · intro h
    induction h with
    | refl => exact Or.inl .refl
    | tail _ hzy ih =>
      rcases (treeEdge_leaf hview hold).mp hzy with hzy | ⟨rfl, rfl⟩
      · rcases ih with ih | ⟨rfl, _⟩
        · exact Or.inl (ih.tail hzy)
        · exact absurd hzy (hleaf _)
      · rcases ih with ih | ⟨rfl, _⟩
        · exact Or.inr ⟨rfl, ih⟩
        · exact absurd rfl hbt
  · rintro (h | ⟨rfl, h⟩)
    · exact dfsAnc_of_leaf hview hold h
    · exact (dfsAnc_of_leaf hview hold h).tail ((treeEdge_leaf hview hold).mpr (Or.inr ⟨rfl, rfl⟩))

end Leaf

/-! ## What an examined edge's label says -/

/-- The label of the out-edge `ed` of `x` agrees with the tree of `G`: it carries one class,
`back` exactly to an ancestor or `x` itself, `forward` exactly along a path of tree edges that
is not the edge itself, `cross` exactly to a block neither above nor below `x`, which was then
entered earlier. The target is entered. -/
structure EdgeOk (G : BlockGraph) (x : Nat) (ed : OutEdge) : Prop where
  one : ∃ c, ed.label.classes = [c]
  back_iff : ed.label.back = true ↔ G.DfsAnc ed.target x
  forward_iff : ed.label.forward = true ↔
    G.DfsAnc x ed.target ∧ ed.target ≠ x ∧ ed.label.tree = false
  cross_iff : ed.label.cross = true ↔ ¬G.DfsAnc ed.target x ∧ ¬G.DfsAnc x ed.target
  cross_earlier : ed.label.cross = true → ∃ m n, (G.get ed.target).preorder = some m ∧
    (G.get x).preorder = some n ∧ m < n
  entered : (G.get ed.target).preorder.isSome

/-- The label check reads the tree between the two ends and their numbers only. -/
theorem EdgeOk.transfer {x : Nat} {ed : OutEdge} (h : G.EdgeOk x ed)
    (hup : G'.DfsAnc ed.target x ↔ G.DfsAnc ed.target x)
    (hdown : G'.DfsAnc x ed.target ↔ G.DfsAnc x ed.target)
    (hx : (G'.get x).preorder = (G.get x).preorder)
    (ht : (G'.get ed.target).preorder = (G.get ed.target).preorder) : G'.EdgeOk x ed where
  one := h.one
  back_iff := h.back_iff.trans hup.symm
  forward_iff := by rw [hdown]; exact h.forward_iff
  cross_iff := by rw [hup, hdown]; exact h.cross_iff
  cross_earlier hc := by rw [hx, ht]; exact h.cross_earlier hc
  entered := by rw [ht]; exact h.entered

/-! ## Numbered trees -/

/-- Where the numbers grow along every tree edge, they grow strictly down the tree. -/
theorem dfsAnc_pre_lt (htree : ∀ p c, G.TreeEdge p c → ∃ m n, (G.get p).preorder = some m ∧
      (G.get c).preorder = some n ∧ m < n) {x y : Nat} (hxy : G.DfsAnc x y) :
    x = y ∨ ∃ m n, (G.get x).preorder = some m ∧ (G.get y).preorder = some n ∧ m < n := by
  induction hxy with
  | refl => exact Or.inl rfl
  | tail _ hzy ih =>
    obtain ⟨a, c, hz, hy, hac⟩ := htree _ _ hzy
    rcases ih with rfl | ⟨m, n, hx, hz', hmn⟩
    · exact Or.inr ⟨a, c, hz, hy, hac⟩
    · obtain rfl : n = a := Option.some.inj (hz'.symm.trans hz)
      exact Or.inr ⟨m, c, hx, hy, by omega⟩

/-- The tree edges of `G` form a tree over the numbered blocks rooted at `r`: every numbered
block descends from `r`, every other numbered block has exactly one tree edge into it, and the
numbers, each below `next` and used once, grow along tree edges (so `r`, numbered `0`, has no
tree edge into it). -/
structure TreeNumbering (G : BlockGraph) (r next : Nat) : Prop where
  pre_lt : ∀ x n, (G.get x).preorder = some n → n < next
  pre_inj : ∀ x y n, (G.get x).preorder = some n → (G.get y).preorder = some n → x = y
  root_pre : (G.get r).preorder = some 0
  root_anc : ∀ x, (G.get x).preorder.isSome → G.DfsAnc r x
  tree_pre : ∀ p c, G.TreeEdge p c → ∃ m n, (G.get p).preorder = some m ∧
    (G.get c).preorder = some n ∧ m < n
  parent : ∀ c, c ≠ r → (G.get c).preorder.isSome → ∃ p slot, G.TreeSlot p slot c ∧
    ∀ p' slot', G.TreeSlot p' slot' c → p' = p ∧ slot' = slot

namespace TreeNumbering

variable {r next : Nat} (h : G.TreeNumbering r next)
include h

/-- Numbers grow strictly down the tree. -/
theorem anc_lt {x y : Nat} (hxy : G.DfsAnc x y) :
    x = y ∨ ∃ m n, (G.get x).preorder = some m ∧ (G.get y).preorder = some n ∧ m < n :=
  dfsAnc_pre_lt h.tree_pre hxy

theorem anc_antisymm {x y : Nat} (hxy : G.DfsAnc x y) (hyx : G.DfsAnc y x) : x = y := by
  rcases h.anc_lt hxy with hxy | ⟨m, n, hx, hy, hmn⟩
  · exact hxy
  · rcases h.anc_lt hyx with hyx | ⟨n', m', hy', hx', hnm⟩
    · exact hyx.symm
    · rw [hx] at hx'
      rw [hy] at hy'
      cases hx'
      cases hy'
      omega

/-- A block below a numbered block is numbered. -/
theorem entered_of_anc {x y : Nat} (hxy : G.DfsAnc x y) (hx : (G.get x).preorder.isSome) :
    (G.get y).preorder.isSome := by
  rcases h.anc_lt hxy with rfl | ⟨_, _, _, hy, _⟩
  · exact hx
  · simp [hy]

/-- The tree depends on the tree edges and the numbers only. -/
theorem congr {G' : BlockGraph} (hview : G'.treeView = G.treeView)
    (hpre : ∀ x, (G'.get x).preorder = (G.get x).preorder) : G'.TreeNumbering r next where
  pre_lt x n hx := h.pre_lt x n (by rwa [← hpre])
  pre_inj x y n hx hy := h.pre_inj x y n (by rwa [← hpre]) (by rwa [← hpre])
  root_pre := by rw [hpre]; exact h.root_pre
  root_anc x hx := by rw [dfsAnc_congr hview]; exact h.root_anc x (by rwa [← hpre])
  tree_pre p c hpc := by
    simp only [hpre]
    exact h.tree_pre p c (by rwa [← treeEdge_congr hview])
  parent c hc hpre' := by
    simp only [TreeSlot, hview]
    exact h.parent c hc (by rwa [← hpre])

/-- **The step lemma of the tree.** Turning out-edge `slot` of the numbered block `b` into a
tree edge to the unnumbered block `t`, and numbering `t` with `next`, adds `t` as a leaf. -/
theorem leaf {G' : BlockGraph} {b slot t : Nat}
    (hview : ∀ x i, G'.treeView x i = if b = x ∧ i = slot then some (t, true) else G.treeView x i)
    (hold : ∀ c, ¬G.TreeSlot b slot c) (hb : (G.get b).preorder.isSome)
    (ht : (G.get t).preorder = none)
    (hpre : ∀ x, (G'.get x).preorder = if x = t then some next else (G.get x).preorder) :
    G'.TreeNumbering r (next + 1) := by
  have hbt : b ≠ t := by rintro rfl; simp [ht] at hb
  have hleaf : ∀ z, ¬G.TreeEdge t z := by
    intro z hz
    obtain ⟨m, _, ht', _⟩ := h.tree_pre t z hz
    simp [ht] at ht'
  have hrt : r ≠ t := by rintro rfl; simp [h.root_pre] at ht
  -- a numbered block of `G` keeps its number
  have hold_pre : ∀ x, (G.get x).preorder.isSome → (G'.get x).preorder = (G.get x).preorder := by
    intro x hx
    rw [hpre, if_neg]
    rintro rfl
    simp [ht] at hx
  obtain ⟨m, hbm⟩ := Option.isSome_iff_exists.mp hb
  refine ⟨fun x n hx => ?_, fun x y n hx hy => ?_, ?_, fun x hx => ?_, fun p c hpc => ?_,
    fun c hc hc' => ?_⟩
  · -- numbers stay below the next one
    rw [hpre] at hx
    split at hx
    · cases hx; omega
    · exact Nat.lt_succ_of_lt (h.pre_lt x n hx)
  · -- the new number is used once
    rw [hpre] at hx hy
    by_cases hxt : x = t <;> by_cases hyt : y = t
    · rw [hxt, hyt]
    · rw [if_pos hxt] at hx
      rw [if_neg hyt] at hy
      cases hx
      exact absurd (h.pre_lt y _ hy) (Nat.lt_irrefl _)
    · rw [if_neg hxt] at hx
      rw [if_pos hyt] at hy
      cases hy
      exact absurd (h.pre_lt x _ hx) (Nat.lt_irrefl _)
    · rw [if_neg hxt] at hx
      rw [if_neg hyt] at hy
      exact h.pre_inj x y n hx hy
  · rw [hpre, if_neg hrt]
    exact h.root_pre
  · -- the leaf descends from the root through its parent
    have hanc : ∀ y, (G.get y).preorder.isSome → G'.DfsAnc r y :=
      fun y hy => dfsAnc_of_leaf hview hold (h.root_anc y hy)
    by_cases hxt : x = t
    · subst hxt
      exact (hanc b hb).tail ((treeEdge_leaf hview hold).mpr (Or.inr ⟨rfl, rfl⟩))
    · rw [hpre, if_neg hxt] at hx
      exact hanc x hx
  · rcases (treeEdge_leaf hview hold).mp hpc with hpc | ⟨rfl, rfl⟩
    · obtain ⟨m', n', hp, hc, hlt⟩ := h.tree_pre p c hpc
      exact ⟨m', n', by rw [hold_pre p (by simp [hp]), hp], by rw [hold_pre c (by simp [hc]), hc], hlt⟩
    · exact ⟨m, next, by rw [hold_pre p hb, hbm], by rw [hpre, if_pos rfl],
        h.pre_lt p m hbm⟩
  · by_cases hct : c = t
    · -- the leaf's one tree edge is the new one
      subst hct
      refine ⟨b, slot, (treeSlot_leaf hview hold).mpr (Or.inr ⟨rfl, rfl, rfl⟩), fun p' i' hp' => ?_⟩
      rcases (treeSlot_leaf hview hold).mp hp' with hp' | ⟨rfl, rfl, -⟩
      · obtain ⟨_, _, _, hc, _⟩ := h.tree_pre p' _ ⟨i', hp'⟩
        simp [ht] at hc
      · exact ⟨rfl, rfl⟩
    · rw [hpre, if_neg hct] at hc'
      obtain ⟨p, i, hpi, huniq⟩ := h.parent c hc hc'
      refine ⟨p, i, (treeSlot_leaf hview hold).mpr (Or.inl hpi), fun p' i' hp' => ?_⟩
      rcases (treeSlot_leaf hview hold).mp hp' with hp' | ⟨-, -, rfl⟩
      · exact huniq p' i' hp'
      · exact absurd rfl hct

end TreeNumbering

/-- A numbered block is a block of the graph. -/
theorem lt_size_of_preorder {x : Nat} (h : (G.get x).preorder.isSome) : x < G.size := by
  refine Nat.lt_of_not_le fun hle => ?_
  simp [get_of_size_le hle] at h

/-- Along a chain of tree edges, listed from child to parent, every block is an ancestor of
the first. -/
theorem dfsAnc_of_chain :
    ∀ {b : Nat} {l : List Nat}, (b :: l).IsChain (fun c p => G.TreeEdge p c) →
      ∀ x ∈ b :: l, G.DfsAnc x b
  | _, [], _, x, hx => by
    rw [List.mem_singleton.mp hx]
    exact .refl
  | _, _ :: _, hch, x, hx => by
    rw [List.isChain_cons_cons] at hch
    rcases List.mem_cons.mp hx with rfl | hx
    · exact .refl
    · exact (dfsAnc_of_chain hch.2 x hx).tail hch.1

/-! ## The invariant of the search -/

namespace Search

/-- Out-edge `slot` of `x` has been examined: `x` is finished, or open with its next slot past
`slot`. -/
def Examined (s : Search) (x slot : Nat) : Prop :=
  (s.graph.get x).postorder.isSome ∨ ∃ k, (x, k) ∈ s.stack ∧ slot < k

/-- The shape of a search from the root `r`: the tree edges so far form a numbered tree; the
open blocks are the numbered blocks not finished, each once, and each is the parent of the
one above it on the stack; every block numbered after an open block descends from it; the
descendants of a finished block are finished. -/
structure Numbered (r : Nat) (s : Search) : Prop extends
    BlockGraph.TreeNumbering s.graph r s.nextPre where
  succ_lt : ∀ {x y}, y ∈ s.graph.succs x → y < s.graph.size
  done_entered : ∀ x, (s.graph.get x).postorder.isSome → (s.graph.get x).preorder.isSome
  open_iff : ∀ x, x ∈ s.stack.map Prod.fst ↔
    (s.graph.get x).preorder.isSome ∧ (s.graph.get x).postorder = none
  nodup : (s.stack.map Prod.fst).Nodup
  chain : (s.stack.map Prod.fst).IsChain fun c p => s.graph.TreeEdge p c
  open_desc : ∀ x ∈ s.stack.map Prod.fst, ∀ y m n, (s.graph.get x).preorder = some m →
    (s.graph.get y).preorder = some n → m ≤ n → s.graph.DfsAnc x y
  done_desc : ∀ x y, (s.graph.get x).postorder.isSome → s.graph.DfsAnc x y →
    (s.graph.get y).postorder.isSome

namespace Numbered

variable {r : Nat} {s : Search} (h : s.Numbered r)
include h

/-- Every open block is an ancestor of the top one. -/
theorem anc_top {b slot : Nat} {rest : List (Nat × Nat)} (hst : s.stack = (b, slot) :: rest)
    {x : Nat} (hx : x ∈ s.stack.map Prod.fst) : s.graph.DfsAnc x b := by
  have hch := h.chain
  rw [hst, List.map_cons] at hch hx
  exact dfsAnc_of_chain hch x hx

/-- A finished block is no ancestor of an open one. -/
theorem not_anc_of_done {t x : Nat} (ht : (s.graph.get t).postorder.isSome)
    (hx : x ∈ s.stack.map Prod.fst) : ¬s.graph.DfsAnc t x := by
  intro hanc
  have hdone := h.done_desc t x ht hanc
  rw [((h.open_iff x).mp hx).2] at hdone
  simp at hdone

theorem entered_of_examined {x i : Nat} (hx : s.Examined x i) :
    (s.graph.get x).preorder.isSome := by
  rcases hx with hx | ⟨k, hk, -⟩
  · exact h.done_entered x hx
  · exact ((h.open_iff x).mp (List.mem_map.mpr ⟨(x, k), hk, rfl⟩)).1

/-- The slots of the top block examined so far are those below its next slot. -/
theorem examined_top_iff {b slot : Nat} {rest : List (Nat × Nat)}
    (hst : s.stack = (b, slot) :: rest) (i : Nat) : s.Examined b i ↔ i < slot := by
  have hb := (h.open_iff b).mp (by simp [hst])
  have hnd := h.nodup
  rw [hst, List.map_cons, List.nodup_cons] at hnd
  unfold Examined
  rw [hb.2, hst]
  constructor
  · rintro (hpost | ⟨k, hk, hik⟩)
    · simp at hpost
    · rcases List.mem_cons.mp hk with hk | hk
      · cases hk
        exact hik
      · exact absurd (List.mem_map.mpr ⟨(b, k), hk, rfl⟩) hnd.1
  · intro hi
    exact Or.inr ⟨slot, List.mem_cons_self, hi⟩

/-- Only labels that keep the tree changed, and the stack moved within its top block: the
shape stays. -/
theorem of_frame {s₁ : Search} (hview : s₁.graph.treeView = s.graph.treeView)
    (hpre : ∀ x, (s₁.graph.get x).preorder = (s.graph.get x).preorder)
    (hpost : ∀ x, (s₁.graph.get x).postorder = (s.graph.get x).postorder)
    (hsucc : ∀ x, s₁.graph.succs x = s.graph.succs x) (hsize : s₁.graph.size = s.graph.size)
    (hblocks : s₁.stack.map Prod.fst = s.stack.map Prod.fst) (hnext : s₁.nextPre = s.nextPre) :
    s₁.Numbered r where
  toTreeNumbering := by rw [hnext]; exact h.toTreeNumbering.congr hview hpre
  succ_lt hxy := by rw [hsize]; exact h.succ_lt (by rwa [← hsucc])
  done_entered x hx := by rw [hpre]; exact h.done_entered x (by rwa [← hpost])
  open_iff x := by rw [hblocks, hpre, hpost]; exact h.open_iff x
  nodup := by rw [hblocks]; exact h.nodup
  chain := by rw [hblocks, treeEdge_congr hview]; exact h.chain
  open_desc x hx y m n hm hn hmn := by
    rw [dfsAnc_congr hview]
    exact h.open_desc x (by rwa [← hblocks]) y m n (by rwa [← hpre]) (by rwa [← hpre]) hmn
  done_desc x y hx hxy := by
    rw [hpost]
    exact h.done_desc x y (by rwa [← hpost]) (by rwa [← dfsAnc_congr hview])

/-- **Finishing the top block** keeps the shape: all its descendants are finished already. -/
theorem pop {b slot : Nat} {rest : List (Nat × Nat)} (hst : s.stack = (b, slot) :: rest)
    {s₁ : Search} {k : Nat} (hgraph : s₁.graph = s.graph.modify b fun t => { t with postorder := some k })
    (hst₁ : s₁.stack = rest) (hnext : s₁.nextPre = s.nextPre) : s₁.Numbered r := by
  have hb := (h.open_iff b).mp (by simp [hst])
  have hblt : b < s.graph.size := lt_size_of_preorder hb.1
  have hview : s₁.graph.treeView = s.graph.treeView := by
    rw [hgraph]
    exact treeView_modify fun _ => by rfl
  have hanc := dfsAnc_congr hview
  have hpre : ∀ x, (s₁.graph.get x).preorder = (s.graph.get x).preorder := fun x => by
    rw [hgraph]
    exact modify_get_eq Block.preorder (fun _ => by rfl) _ _ _
  have hpost : ∀ x, (s₁.graph.get x).postorder =
      if x = b then some k else (s.graph.get x).postorder := fun x => by
    rw [hgraph, get_modify]
    by_cases hx : x = b
    · subst hx; simp [hblt]
    · simp [hx, Ne.symm hx]
  have hnd := h.nodup
  rw [hst, List.map_cons, List.nodup_cons] at hnd
  have hrest : ∀ x, x ∈ rest.map Prod.fst → x ∈ s.stack.map Prod.fst := fun x hx => by
    rw [hst, List.map_cons]
    exact List.mem_cons_of_mem _ hx
  refine
    { toTreeNumbering := by rw [hnext]; exact h.toTreeNumbering.congr hview hpre
      succ_lt := fun hxy => by
        rw [hgraph, size_modify]
        exact h.succ_lt (by rwa [hgraph, succs_modify (fun _ => by rfl)] at hxy)
      done_entered := fun x hx => ?_
      open_iff := fun x => ?_
      nodup := by rw [hst₁]; exact hnd.2
      chain := by
        have hch := h.chain
        rw [hst, List.map_cons] at hch
        rw [hst₁, treeEdge_congr hview]
        exact hch.tail
      open_desc := fun x hx y m n hm hn hmn => by
        rw [hanc]
        rw [hst₁] at hx
        exact h.open_desc x (hrest x hx) y m n (by rwa [← hpre]) (by rwa [← hpre]) hmn
      done_desc := fun x y hx hxy => ?_ }
  · rw [hpre]
    rw [hpost] at hx
    split at hx
    · rename_i hxb
      rw [hxb]
      exact hb.1
    · exact h.done_entered x hx
  · rw [hst₁, hpre, hpost]
    by_cases hxb : x = b
    · subst hxb
      simp [hnd.1]
    · rw [if_neg hxb, ← h.open_iff x, hst, List.map_cons, List.mem_cons]
      simp [hxb]
  · -- a descendant of the block being finished is finished, or is that block
    rw [hanc] at hxy
    rw [hpost] at hx ⊢
    by_cases hyb : y = b
    · simp [hyb]
    rw [if_neg hyb]
    split at hx
    · rename_i hxb
      subst hxb
      by_contra hy
      have hy' : (s.graph.get y).postorder = none := by simpa using hy
      have hye := h.entered_of_anc hxy hb.1
      have hys := (h.open_iff y).mpr ⟨hye, hy'⟩
      exact hyb (h.anc_antisymm (h.anc_top hst hys) hxy)
    · exact h.done_desc x y hx hxy

/-- **Entering a block** through out-edge `slot` of the top block `b`: the new block becomes a
leaf under `b`, numbered last and open on top of `b`. -/
theorem tree {b slot : Nat} {rest : List (Nat × Nat)} {ed : OutEdge}
    (hst : s.stack = (b, slot) :: rest) (hed : (s.graph.get b).outs[slot]? = some ed)
    (hnew : (s.graph.get ed.target).preorder = none) (hold : ed.label.tree = false)
    {s₁ : Search}
    (hgraph : s₁.graph = (s.graph.setLabel b slot (ed.label.withClass .tree)).modify ed.target
      fun t => { t with preorder := some s.nextPre })
    (hst₁ : s₁.stack = (ed.target, 0) :: (b, slot + 1) :: rest)
    (hnext : s₁.nextPre = s.nextPre + 1) : s₁.Numbered r := by
  have hb := (h.open_iff b).mp (by simp [hst])
  have hbt : b ≠ ed.target := by rintro hbt; rw [hbt, hnew] at hb; simp at hb
  have htlt : ed.target < s.graph.size :=
    h.succ_lt (target_mem_succs hed)
  have hview : ∀ x i, s₁.graph.treeView x i =
      if b = x ∧ i = slot then some (ed.target, true) else s.graph.treeView x i := by
    intro x i
    rw [hgraph, treeView_modify (fun _ => by rfl), treeView_setLabel]
    split
    · rename_i hbi
      rw [← hbi.1, hbi.2]
      simp [treeView, hed, EdgeLabel.withClass]
    · rfl
  have hold' : ∀ c, ¬s.graph.TreeSlot b slot c := by
    intro c hc
    simp [TreeSlot, treeView, hed, hold] at hc
  have hleaf : ∀ z, ¬s.graph.TreeEdge ed.target z := by
    intro z hz
    obtain ⟨_, _, ht, _, _⟩ := h.tree_pre _ z hz
    simp [hnew] at ht
  have hanc : ∀ x y, s₁.graph.DfsAnc x y ↔
      s.graph.DfsAnc x y ∨ (y = ed.target ∧ s.graph.DfsAnc x b) :=
    fun x y => dfsAnc_leaf hview hold' hbt hleaf
  have hpre : ∀ x, (s₁.graph.get x).preorder =
      if x = ed.target then some s.nextPre else (s.graph.get x).preorder := by
    intro x
    rw [hgraph, get_modify, size_setLabel]
    have hl : ((s.graph.setLabel b slot (ed.label.withClass .tree)).get x).preorder =
        (s.graph.get x).preorder := modify_get_eq Block.preorder (fun _ => by rfl) _ _ _
    by_cases hx : x = ed.target
    · subst hx; simp [htlt]
    · simp [hx, Ne.symm hx, hl]
  have hpost : ∀ x, (s₁.graph.get x).postorder = (s.graph.get x).postorder := by
    intro x
    rw [hgraph, modify_get_eq Block.postorder (fun _ => by rfl)]
    exact modify_get_eq Block.postorder (fun _ => by rfl) _ _ _
  have hnotin : ed.target ∉ s.stack.map Prod.fst := fun ht => by
    simpa [hnew] using ((h.open_iff _).mp ht).1
  have hblocks : s₁.stack.map Prod.fst = ed.target :: s.stack.map Prod.fst := by
    rw [hst₁, hst]
    rfl
  have tn := h.toTreeNumbering.leaf hview hold' hb.1 hnew hpre
  refine
    { toTreeNumbering := by rw [hnext]; exact tn
      succ_lt := fun {x y} hxy => by
        have hs : s₁.graph.succs x = s.graph.succs x := by
          rw [hgraph, succs_modify (fun _ => by rfl), succs_setLabel]
        rw [hgraph, size_modify, size_setLabel]
        exact h.succ_lt (hs ▸ hxy)
      done_entered := fun x hx => ?_
      open_iff := fun x => ?_
      nodup := by rw [hblocks]; exact List.nodup_cons.mpr ⟨hnotin, h.nodup⟩
      chain := by
        rw [hblocks, hst, List.map_cons, List.isChain_cons_cons]
        refine ⟨(treeEdge_leaf hview hold').mpr (Or.inr ⟨rfl, rfl⟩), ?_⟩
        have hch := h.chain
        rw [hst, List.map_cons] at hch
        exact hch.imp fun c p hpc => (treeEdge_leaf hview hold').mpr (Or.inl hpc)
      open_desc := fun x hx y m n hm hn hmn => ?_
      done_desc := fun x y hx hxy => ?_ }
  · rw [hpre]
    rw [hpost] at hx
    split
    · rfl
    · exact h.done_entered x hx
  · rw [hblocks, hpre, hpost, List.mem_cons]
    by_cases hx : x = ed.target
    · subst hx
      have hpost' : (s.graph.get ed.target).postorder = none := by
        cases hp : (s.graph.get ed.target).postorder with
        | none => rfl
        | some _ => simpa [hnew] using h.done_entered ed.target (by simp [hp])
      simp [hpost']
    · simp [hx, h.open_iff x]
  · -- a block numbered after an open block descends from it; the new leaf is numbered last
    rw [hblocks, List.mem_cons] at hx
    rw [hpre] at hm hn
    rcases hx with rfl | hx
    · rw [if_pos rfl] at hm
      cases hm
      by_cases hy : y = ed.target
      · rw [hy]
        exact .refl
      · rw [if_neg hy] at hn
        exact absurd (h.pre_lt y n hn) (by omega)
    · have hxt : x ≠ ed.target := fun hxt => hnotin (hxt ▸ hx)
      rw [if_neg hxt] at hm
      by_cases hy : y = ed.target
      · exact (hanc x y).mpr (Or.inr ⟨hy, h.anc_top hst hx⟩)
      · rw [if_neg hy] at hn
        exact (hanc x y).mpr (Or.inl (h.open_desc x hx y m n hm hn hmn))
  · rw [hpost] at hx ⊢
    rcases (hanc x y).mp hxy with hxy | ⟨-, hxb⟩
    · exact h.done_desc x y hx hxy
    · have hdone := h.done_desc x b hx hxb
      rw [hb.2] at hdone
      simp at hdone

/-- **The class of an edge to a numbered block**, as the search reads it off the numbers,
agrees with the tree: to an open block it is `back`, to a finished one numbered later
`forward`, and otherwise `cross`. -/
theorem edgeOk_classify {b slot : Nat} {rest : List (Nat × Nat)} (hst : s.stack = (b, slot) :: rest)
    {ed : OutEdge} (hl : ed.label.classes = []) (ht : (s.graph.get ed.target).preorder.isSome) :
    s.graph.EdgeOk b { ed with label := ed.label.withClass (s.graph.classify b ed.target) } := by
  obtain ⟨h₁, h₂, h₃, h₄⟩ := EdgeLabel.classes_eq_nil.mp hl
  have hbs : b ∈ s.stack.map Prod.fst := by simp [hst]
  have hb := (h.open_iff b).mp hbs
  obtain ⟨tp, htp⟩ := Option.isSome_iff_exists.mp ht
  obtain ⟨bp, hbp⟩ := Option.isSome_iff_exists.mp hb.1
  have hone := EdgeLabel.classes_withClass hl (s.graph.classify b ed.target)
  cases hpost : (s.graph.get ed.target).postorder with
  | none =>
    -- an open target is an ancestor
    have hc : s.graph.classify b ed.target = .back := by simp [classify, htp, hpost]
    have hup : s.graph.DfsAnc ed.target b :=
      h.anc_top hst ((h.open_iff _).mpr ⟨ht, hpost⟩)
    rw [hc] at hone ⊢
    refine ⟨⟨_, hone⟩, ?_, ?_, ?_, ?_, ht⟩ <;> simp only [EdgeLabel.withClass, h₂, h₃]
    · exact iff_of_true trivial hup
    · exact iff_of_false (by simp) fun ⟨hdown, hne, _⟩ => hne (h.anc_antisymm hup hdown)
    · exact iff_of_false (by simp) fun ⟨hn, _⟩ => hn hup
    · simp
  | some _ =>
    -- a finished target is no ancestor of the open block `b`
    have hnup : ¬s.graph.DfsAnc ed.target b := h.not_anc_of_done (by simp [hpost]) hbs
    have hne : ed.target ≠ b := by
      rintro hbt
      rw [hbt, hb.2] at hpost
      cases hpost
    by_cases hlt : bp < tp
    · have hc : s.graph.classify b ed.target = .forward := by
        simp [classify, htp, hpost, hbp, hlt]
      have hdown : s.graph.DfsAnc b ed.target := h.open_desc b hbs _ bp tp hbp htp (by omega)
      rw [hc] at hone ⊢
      refine ⟨⟨_, hone⟩, ?_, ?_, ?_, ?_, ht⟩ <;> simp only [EdgeLabel.withClass, h₁, h₃, h₄]
      · exact iff_of_false (by simp) hnup
      · exact iff_of_true trivial ⟨hdown, hne, trivial⟩
      · exact iff_of_false (by simp) fun ⟨_, hn⟩ => hn hdown
      · simp
    · have hc : s.graph.classify b ed.target = .cross := by
        simp [classify, htp, hpost, hbp, hlt]
      -- below `b` the numbers grow, and the target's is not above `b`'s
      have hndown : ¬s.graph.DfsAnc b ed.target := by
        intro hdown
        rcases h.anc_lt hdown with hbt | ⟨m, n, hm, hn, hmn⟩
        · exact hne hbt.symm
        · rw [hbp] at hm
          rw [htp] at hn
          cases hm
          cases hn
          exact hlt hmn
      have htb : tp < bp := by
        rcases Nat.lt_or_ge tp bp with h' | h'
        · exact h'
        · exact absurd (h.pre_inj _ _ tp htp (by rw [hbp]; congr; omega)) hne
      rw [hc] at hone ⊢
      refine ⟨⟨_, hone⟩, ?_, ?_, ?_, ?_, ht⟩ <;> simp only [EdgeLabel.withClass, h₁, h₂, h₄]
      · exact iff_of_false (by simp) hnup
      · exact iff_of_false (by simp) fun ⟨hdown, _⟩ => hndown hdown
      · exact iff_of_true trivial ⟨hnup, hndown⟩
      · exact fun _ => ⟨tp, bp, htp, hbp, htb⟩

end Numbered

/-- Examining out-edge `slot` of the top block `b`, and perhaps opening blocks above it at their
first slot, adds exactly that edge to the examined ones. -/
theorem examined_step {s s₁ : Search} {b slot : Nat} {rest new : List (Nat × Nat)}
    (hst : s.stack = (b, slot) :: rest) (hst₁ : s₁.stack = new ++ (b, slot + 1) :: rest)
    (hnew : ∀ p ∈ new, p.2 = 0)
    (hpost : ∀ x, (s₁.graph.get x).postorder = (s.graph.get x).postorder) (x i : Nat) :
    s₁.Examined x i ↔ s.Examined x i ∨ (x = b ∧ i = slot) := by
  unfold Examined
  rw [hpost, hst, hst₁]
  constructor
  · rintro (hx | ⟨k, hk, hik⟩)
    · exact Or.inl (Or.inl hx)
    · rcases List.mem_append.mp hk with hk | hk
      · have := hnew _ hk
        simp only at this
        omega
      · rcases List.mem_cons.mp hk with hk | hk
        · simp only [Prod.mk.injEq] at hk
          obtain ⟨rfl, rfl⟩ := hk
          rcases Nat.lt_succ_iff_lt_or_eq.mp hik with hik | rfl
          · exact Or.inl (Or.inr ⟨slot, List.mem_cons_self, hik⟩)
          · exact Or.inr ⟨rfl, rfl⟩
        · exact Or.inl (Or.inr ⟨k, List.mem_cons_of_mem _ hk, hik⟩)
  · rintro ((hx | ⟨k, hk, hik⟩) | ⟨rfl, rfl⟩)
    · exact Or.inl hx
    · rcases List.mem_cons.mp hk with hk | hk
      · simp only [Prod.mk.injEq] at hk
        obtain ⟨rfl, rfl⟩ := hk
        exact Or.inr ⟨k + 1, by simp, by omega⟩
      · exact Or.inr ⟨k, by simp [hk], hik⟩
    · exact Or.inr ⟨i + 1, by simp, by omega⟩

/-- The invariant of the search: its shape, and every examined edge is labelled by the tree
while the others carry no class. -/
structure Classified (r : Nat) (s : Search) : Prop extends Numbered r s where
  edges : ∀ x slot ed, (s.graph.get x).outs[slot]? = some ed →
    (s.Examined x slot → s.graph.EdgeOk x ed) ∧ (¬s.Examined x slot → ed.label.classes = [])

namespace Classified

variable {r : Nat} {s : Search} (h : s.Classified r)
include h

/-- The next edge of the top block has not been examined, so it carries no class. -/
theorem classes_top {b slot : Nat} {rest : List (Nat × Nat)} (hst : s.stack = (b, slot) :: rest)
    {ed : OutEdge} (hed : (s.graph.get b).outs[slot]? = some ed) : ed.label.classes = [] :=
  (h.edges b slot ed hed).2 fun hex => Nat.lt_irrefl _ ((h.examined_top_iff hst slot).mp hex)

/-- **Examining an edge to a numbered block** labels it with the class `classify` reads off
the numbers. -/
theorem seen {b slot : Nat} {rest : List (Nat × Nat)} {ed : OutEdge}
    (hst : s.stack = (b, slot) :: rest) (hed : (s.graph.get b).outs[slot]? = some ed)
    (ht : (s.graph.get ed.target).preorder.isSome) {s₁ : Search}
    (hgraph : s₁.graph = s.graph.setLabel b slot (ed.label.withClass (s.graph.classify b ed.target)))
    (hst₁ : s₁.stack = (b, slot + 1) :: rest) (hnext : s₁.nextPre = s.nextPre) :
    s₁.Classified r := by
  have hl := h.classes_top hst hed
  have hc : s.graph.classify b ed.target ≠ .tree := by
    rw [Ne, classify_eq_tree_iff]
    intro hn
    simp [hn] at ht
  have hview : s₁.graph.treeView = s.graph.treeView := by
    rw [hgraph]
    refine treeView_setLabel_of_tree fun ed' hed' => ?_
    rw [hed] at hed'
    cases hed'
    cases hcl : s.graph.classify b ed.target with
    | tree => exact absurd hcl hc
    | back | forward | cross => rfl
  have hpre : ∀ x, (s₁.graph.get x).preorder = (s.graph.get x).preorder := fun x => by
    rw [hgraph]
    exact modify_get_eq Block.preorder (fun _ => by rfl) _ _ _
  have hpost : ∀ x, (s₁.graph.get x).postorder = (s.graph.get x).postorder := fun x => by
    rw [hgraph]
    exact modify_get_eq Block.postorder (fun _ => by rfl) _ _ _
  have hnum : s₁.Numbered r :=
    h.of_frame hview hpre hpost (fun x => by rw [hgraph, succs_setLabel])
      (by rw [hgraph, size_setLabel]) (by rw [hst₁, hst]; rfl) hnext
  refine ⟨hnum, fun x i ed' hed' => ?_⟩
  have hex := examined_step hst (show s₁.stack = [] ++ (b, slot + 1) :: rest by simpa using hst₁)
    (by simp) hpost x i
  rw [hgraph, outs_setLabel] at hed'
  split at hed'
  · -- the edge just examined
    rename_i hxi
    obtain ⟨rfl, rfl⟩ : b = x ∧ slot = i := ⟨hxi.1, hxi.2.symm⟩
    rw [hed] at hed'
    cases hed'
    refine ⟨fun _ => ?_, fun hn => absurd (hex.mpr (Or.inr ⟨rfl, rfl⟩)) hn⟩
    refine (h.edgeOk_classify hst hl ht).transfer ?_ ?_ (hpre _) (hpre _)
    · rw [dfsAnc_congr hview]
    · rw [dfsAnc_congr hview]
  · rename_i hxi
    have hex' : s₁.Examined x i ↔ s.Examined x i :=
      hex.trans (or_iff_left fun ⟨hx, hi⟩ => hxi ⟨hx.symm, hi⟩)
    rw [hex']
    refine ⟨fun hx => ((h.edges x i ed' hed').1 hx).transfer ?_ ?_ (hpre _) (hpre _),
      (h.edges x i ed' hed').2⟩
    · rw [dfsAnc_congr hview]
    · rw [dfsAnc_congr hview]

/-- **Examining an edge to an unnumbered block** makes it a tree edge, which agrees with the
grown tree, and keeps every earlier label right. -/
theorem tree {b slot : Nat} {rest : List (Nat × Nat)} {ed : OutEdge}
    (hst : s.stack = (b, slot) :: rest) (hed : (s.graph.get b).outs[slot]? = some ed)
    (hnew : (s.graph.get ed.target).preorder = none) {s₁ : Search}
    (hgraph : s₁.graph = (s.graph.setLabel b slot (ed.label.withClass .tree)).modify ed.target
      fun t => { t with preorder := some s.nextPre })
    (hst₁ : s₁.stack = (ed.target, 0) :: (b, slot + 1) :: rest)
    (hnext : s₁.nextPre = s.nextPre + 1) : s₁.Classified r := by
  have hl := h.classes_top hst hed
  have hold : ed.label.tree = false := (EdgeLabel.classes_eq_nil.mp hl).1
  have hnum := h.toNumbered.tree hst hed hnew hold hgraph hst₁ hnext
  have hb := (h.open_iff b).mp (by simp [hst])
  have hbt : b ≠ ed.target := by rintro hbt; rw [hbt, hnew] at hb; simp at hb
  have hview : ∀ x i, s₁.graph.treeView x i =
      if b = x ∧ i = slot then some (ed.target, true) else s.graph.treeView x i := by
    intro x i
    rw [hgraph, treeView_modify (fun _ => by rfl), treeView_setLabel]
    split
    · rename_i hbi
      rw [← hbi.1, hbi.2]
      simp [treeView, hed, EdgeLabel.withClass]
    · rfl
  have hold' : ∀ c, ¬s.graph.TreeSlot b slot c := by
    intro c hc
    simp [TreeSlot, treeView, hed, hold] at hc
  have hleaf : ∀ z, ¬s.graph.TreeEdge ed.target z := by
    intro z hz
    obtain ⟨_, _, ht, _, _⟩ := h.tree_pre _ z hz
    simp [hnew] at ht
  have hanc : ∀ x y, s₁.graph.DfsAnc x y ↔
      s.graph.DfsAnc x y ∨ (y = ed.target ∧ s.graph.DfsAnc x b) :=
    fun x y => dfsAnc_leaf hview hold' hbt hleaf
  -- blocks numbered before keep their numbers
  have hpre : ∀ x, (s.graph.get x).preorder.isSome →
      (s₁.graph.get x).preorder = (s.graph.get x).preorder := by
    intro x hx
    have hxt : ed.target ≠ x := by rintro rfl; simp [hnew] at hx
    rw [hgraph, get_modify_ne _ _ hxt]
    exact modify_get_eq Block.preorder (fun _ => by rfl) _ _ _
  have hpost : ∀ x, (s₁.graph.get x).postorder = (s.graph.get x).postorder := by
    intro x
    rw [hgraph, modify_get_eq Block.postorder (fun _ => by rfl)]
    exact modify_get_eq Block.postorder (fun _ => by rfl) _ _ _
  -- between blocks numbered before, the grown tree has the ancestors of the old one
  have hanc_old : ∀ x y, (s.graph.get x).preorder.isSome → (s.graph.get y).preorder.isSome →
      (s₁.graph.DfsAnc x y ↔ s.graph.DfsAnc x y) := by
    intro x y _ hy
    rw [hanc]
    refine or_iff_left fun ⟨hyt, _⟩ => ?_
    rw [hyt, hnew] at hy
    simp at hy
  refine ⟨hnum, fun x i ed' hed' => ?_⟩
  have hex := examined_step hst
    (show s₁.stack = [(ed.target, 0)] ++ (b, slot + 1) :: rest by simpa using hst₁) (by simp) hpost x i
  have hed₁ : (s₁.graph.get x).outs[i]? = ((s.graph.setLabel b slot
      (ed.label.withClass .tree)).get x).outs[i]? := by
    rw [hgraph, modify_get_eq Block.outs (fun _ => by rfl)]
  rw [hed₁, outs_setLabel] at hed'
  split at hed'
  · -- the new tree edge
    rename_i hxi
    obtain ⟨rfl, rfl⟩ : b = x ∧ slot = i := ⟨hxi.1, hxi.2.symm⟩
    rw [hed] at hed'
    cases hed'
    refine ⟨fun _ => ?_, fun hn => absurd (hex.mpr (Or.inr ⟨rfl, rfl⟩)) hn⟩
    obtain ⟨h₁, h₂, h₃, h₄⟩ := EdgeLabel.classes_eq_nil.mp hl
    have htlt : ed.target < s.graph.size :=
      h.succ_lt (target_mem_succs hed)
    have hpre_t : (s₁.graph.get ed.target).preorder = some s.nextPre := by
      rw [hgraph, get_modify, size_setLabel, if_pos ⟨rfl, htlt⟩]
    have hdown : s₁.graph.DfsAnc b ed.target :=
      (hanc b ed.target).mpr (Or.inr ⟨rfl, .refl⟩)
    -- the leaf is numbered after `b`, so it is no ancestor of `b`
    have hnup : ¬s₁.graph.DfsAnc ed.target b := by
      intro hup
      rcases hnum.anc_lt hup with htb | ⟨m, n, hm, hn, hmn⟩
      · exact hbt htb.symm
      · rw [hpre b hb.1] at hn
        rw [hpre_t] at hm
        cases hm
        exact absurd (h.pre_lt b n hn) (by omega)
    refine ⟨⟨.tree, EdgeLabel.classes_withClass hl .tree⟩, ?_, ?_, ?_, ?_, ?_⟩ <;>
      simp only [EdgeLabel.withClass, h₂, h₃, h₄]
    · exact iff_of_false (by simp) hnup
    · exact iff_of_false (by simp) fun ⟨_, _, htr⟩ => by simp at htr
    · exact iff_of_false (by simp) fun ⟨_, hn⟩ => hn hdown
    · simp
    · rw [hpre_t]
      rfl
  · rename_i hxi
    have hex' : s₁.Examined x i ↔ s.Examined x i :=
      hex.trans (or_iff_left fun ⟨hx, hi⟩ => hxi ⟨hx.symm, hi⟩)
    rw [hex']
    refine ⟨fun hx => ?_, (h.edges x i ed' hed').2⟩
    have hok := (h.edges x i ed' hed').1 hx
    have hxe := h.entered_of_examined hx
    exact hok.transfer (hanc_old _ _ hok.entered hxe) (hanc_old _ _ hxe hok.entered)
      (hpre _ hxe) (hpre _ hok.entered)

/-- **Finishing the top block** keeps the labels: all its edges are examined already. -/
theorem pop {b slot : Nat} {rest : List (Nat × Nat)} (hst : s.stack = (b, slot) :: rest)
    (hed : (s.graph.get b).outs[slot]? = none) {s₁ : Search} {k : Nat}
    (hgraph : s₁.graph = s.graph.modify b fun t => { t with postorder := some k })
    (hst₁ : s₁.stack = rest) (hnext : s₁.nextPre = s.nextPre) : s₁.Classified r := by
  have hnum := h.toNumbered.pop hst hgraph hst₁ hnext
  have hview : s₁.graph.treeView = s.graph.treeView := by
    rw [hgraph]
    exact treeView_modify fun _ => by rfl
  have hpre : ∀ x, (s₁.graph.get x).preorder = (s.graph.get x).preorder := fun x => by
    rw [hgraph]
    exact modify_get_eq Block.preorder (fun _ => by rfl) _ _ _
  have hb := (h.open_iff b).mp (by simp [hst])
  have hnd := h.nodup
  rw [hst, List.map_cons, List.nodup_cons] at hnd
  refine ⟨hnum, fun x i ed hed' => ?_⟩
  rw [hgraph, modify_get_eq Block.outs (fun _ => by rfl)] at hed'
  -- every slot of `b` with an edge lies below the first without one
  have hex : s₁.Examined x i ↔ s.Examined x i := by
    by_cases hxb : x = b
    · subst hxb
      have hi : i < slot := by
        by_contra hi
        have hlen := Array.getElem?_eq_none_iff.mp hed
        have := Array.getElem?_eq_none_iff.mpr (show (s.graph.get x).outs.size ≤ i by omega)
        rw [hed'] at this
        cases this
      refine iff_of_true (Or.inl ?_) ((h.examined_top_iff hst i).mpr hi)
      rw [hgraph, get_modify, if_pos ⟨rfl, lt_size_of_preorder hb.1⟩]
      rfl
    · unfold Examined
      rw [hgraph, get_modify_ne _ _ (Ne.symm hxb), hst₁, hst]
      refine or_congr_right ⟨fun ⟨k', hk', hik⟩ => ⟨k', List.mem_cons_of_mem _ hk', hik⟩, ?_⟩
      rintro ⟨k', hk', hik⟩
      rcases List.mem_cons.mp hk' with hk' | hk'
      · simp only [Prod.mk.injEq] at hk'
        exact absurd hk'.1 hxb
      · exact ⟨k', hk', hik⟩
  rw [hex]
  refine ⟨fun hx => ((h.edges x i ed hed').1 hx).transfer ?_ ?_ (hpre _) (hpre _),
    (h.edges x i ed hed').2⟩
  · rw [dfsAnc_congr hview]
  · rw [dfsAnc_congr hview]

end Classified

/-- **The run lemma.** The invariant holds after any number of steps. -/
theorem Classified.run {r : Nat} : ∀ (n : Nat) {s : Search}, s.Classified r →
    (BlockGraph.searchLoop n s).Classified r
  | 0, _, h => h
  | n + 1, s, h => by
    cases hst : s.stack with
    | nil => rw [searchLoop_nil hst]; exact h
    | cons top rest =>
      obtain ⟨b, slot⟩ := top
      cases hed : (s.graph.get b).outs[slot]? with
      | none =>
        obtain ⟨s₁, hstep, hgraph, -, hst₁, hnext⟩ := searchLoop_pop hst hed
        rw [hstep]
        exact run n (h.pop hst hed hgraph hst₁ hnext)
      | some ed =>
        by_cases ht : (s.graph.get ed.target).preorder.isSome
        · obtain ⟨s₁, hstep, hgraph, -, hst₁, hnext⟩ := searchLoop_seen hst hed ht
          rw [hstep]
          exact run n (h.seen hst hed ht hgraph hst₁ hnext)
        · have hnew : (s.graph.get ed.target).preorder = none := by simpa using ht
          obtain ⟨s₁, hstep, hgraph, -, hst₁, hnext⟩ := searchLoop_tree hst hed hnew
          rw [hstep]
          exact run n (h.tree hst hed hnew hgraph hst₁ hnext)

end Search

/-! ## The finished search -/

/-- The search starts in the invariant on a graph with no numbers and no classes. -/
theorem classified_startSearch {g : BlockGraph} (hg : g.Wf) {e : Nat} (he : e < g.size)
    (hpre : ∀ x, (g.get x).preorder = none) (hpost : ∀ x, (g.get x).postorder = none)
    (hlab : ∀ (x slot : Nat) (ed : OutEdge), (g.get x).outs[slot]? = some ed →
      ed.label.classes = []) :
    (startSearch g e).Classified e := by
  have hpre₀ : ∀ x, ((startSearch g e).graph.get x).preorder = if x = e then some 0 else none := by
    intro x
    simp only [startSearch]
    rw [get_modify]
    by_cases hx : x = e
    · subst hx; simp [he]
    · simp [hx, Ne.symm hx, hpre]
  have hpost₀ : ∀ x, ((startSearch g e).graph.get x).postorder = none := fun x => by
    simp only [startSearch]
    rw [modify_get_eq Block.postorder (fun _ => by rfl)]
    exact hpost x
  have houts₀ : ∀ x, ((startSearch g e).graph.get x).outs = (g.get x).outs := fun x => by
    simp only [startSearch]
    exact modify_get_eq Block.outs (fun _ => by rfl) _ _ _
  have hentered : ∀ x, ((startSearch g e).graph.get x).preorder.isSome ↔ x = e := fun x => by
    rw [hpre₀]
    split <;> simp_all
  -- no edge carries a class yet, so there is no tree edge
  have hnotree : ∀ p c, ¬(startSearch g e).graph.TreeEdge p c := by
    rintro p c ⟨i, hi⟩
    obtain ⟨ed, hed, -, htr⟩ := treeSlot_iff.mp hi
    rw [houts₀] at hed
    rw [(EdgeLabel.classes_eq_nil.mp (hlab p i ed hed)).1] at htr
    cases htr
  have hstack : (startSearch g e).stack.map Prod.fst = [e] := rfl
  refine ⟨⟨⟨fun x n hx => ?_, fun x y n hx hy => ?_, by rw [hpre₀, if_pos rfl],
    fun x hx => ?_, fun p c hpc => absurd hpc (hnotree p c), fun c hc hc' => ?_⟩,
    fun {x y} hxy => ?_, fun x hx => by simp [hpost₀] at hx, fun x => ?_, by rw [hstack]; simp,
    by rw [hstack]; exact List.isChain_singleton _, fun x hx y m n _ hn _ => ?_,
    fun x y hx => by simp [hpost₀] at hx⟩, fun x i ed hed => ?_⟩
  · rw [hpre₀] at hx
    split at hx
    · cases hx
      exact Nat.zero_lt_one
    · cases hx
  · rw [(hentered x).mp (by simp [hx]), (hentered y).mp (by simp [hy])]
  · rw [(hentered x).mp hx]
    exact .refl
  · exact absurd ((hentered c).mp hc') hc
  · have hs : (startSearch g e).graph.succs x = g.succs x := succs_modify (fun _ => by rfl) x
    have hsize : (startSearch g e).graph.size = g.size := size_modify _ _ _
    rw [hsize]
    exact hg.succ_lt (hs ▸ hxy)
  · rw [hstack, hentered, hpost₀]
    simp
  · rw [hstack, List.mem_singleton] at hx
    rw [hx, (hentered y).mp (by simp [hn])]
    exact .refl
  · rw [houts₀] at hed
    refine ⟨fun hex => ?_, fun _ => hlab x i ed hed⟩
    rcases hex with hx | ⟨k, hk, hik⟩
    · simp [hpost₀] at hx
    · simp only [startSearch, List.mem_singleton, Prod.mk.injEq] at hk
      omega

/-- What a finished search from `e` leaves on the blocks of `g`, in the graph `G`: the
numbered blocks are those `e` reaches; the tree edges form a tree over them rooted at `e`,
along which the numbers grow; the edges out of reached blocks are labelled by that tree, and
those out of the other blocks carry no class. -/
structure SpanningTreeLabels (g : BlockGraph) (e : Nat) (G : BlockGraph) : Prop where
  reached : ∀ x, (G.get x).preorder.isSome ↔ g.Reaches e x
  spanning : ∀ x, G.DfsAnc e x ↔ g.Reaches e x
  root : ∀ p slot, ¬G.TreeSlot p slot e
  parent : ∀ c, g.Reaches e c → c ≠ e → ∃ p slot, G.TreeSlot p slot c ∧
    ∀ p' slot', G.TreeSlot p' slot' c → p' = p ∧ slot' = slot
  tree_pre : ∀ p c, G.TreeEdge p c → ∃ m n, (G.get p).preorder = some m ∧
    (G.get c).preorder = some n ∧ m < n
  labelled : ∀ x, g.Reaches e x → ∀ (slot : Nat) (ed : OutEdge), (G.get x).outs[slot]? = some ed →
    G.EdgeOk x ed
  unlabelled : ∀ x, ¬g.Reaches e x → ∀ (slot : Nat) (ed : OutEdge),
    (G.get x).outs[slot]? = some ed → ed.label.classes = []

/-- **The labels of the search.** On a well-formed graph with no numbers and no classes yet,
the search from a block `e` of the graph labels the edges by the depth-first tree it builds. -/
theorem endSearch_labels {g : BlockGraph} (hg : g.Wf) {e : Nat} (he : e < g.size)
    (hpre : ∀ x, (g.get x).preorder = none) (hpost : ∀ x, (g.get x).postorder = none)
    (hlab : ∀ (x slot : Nat) (ed : OutEdge), (g.get x).outs[slot]? = some ed →
      ed.label.classes = []) :
    SpanningTreeLabels g e (endSearch g e).graph := by
  have hc : (endSearch g e).Classified e :=
    Search.Classified.run _ (classified_startSearch hg he hpre hpost hlab)
  obtain ⟨seen, hdfs, htr, hstack⟩ := endSearch_spec hg he hpre
  have hreach : ∀ x, ((endSearch g e).graph.get x).preorder.isSome ↔ g.Reaches e x :=
    fun x => (htr.entered x).trans ((Dfs.from_entry hdfs).1 x)
  -- with the stack empty, every numbered block is finished
  have hdone : ∀ x, ((endSearch g e).graph.get x).preorder.isSome →
      ((endSearch g e).graph.get x).postorder.isSome := by
    intro x hx
    by_contra hn
    have hopen := (hc.open_iff x).mpr ⟨hx, by simpa using hn⟩
    simp [hstack] at hopen
  refine ⟨hreach, fun x => ⟨fun hx => ?_, fun hx => hc.root_anc x ((hreach x).mpr hx)⟩,
    fun p slot hps => ?_, fun c hr hce => hc.parent c hce ((hreach c).mpr hr), hc.tree_pre,
    fun x hr slot ed hed => (hc.edges x slot ed hed).1 (Or.inl (hdone x ((hreach x).mpr hr))),
    fun x hr slot ed hed => (hc.edges x slot ed hed).2
      fun hex => hr ((hreach x).mp (hc.entered_of_examined hex))⟩
  · rcases hc.anc_lt hx with rfl | ⟨_, _, _, hn, _⟩
    · exact reaches_refl g _
    · exact (hreach x).mp (by simp [hn])
  · obtain ⟨m, n, _, hn, hmn⟩ := hc.tree_pre p e ⟨slot, hps⟩
    rw [hc.root_pre] at hn
    cases hn
    omega

/-- The target and the classes of every out-edge of a block. -/
def classView (blk : Block) : List (Nat × List EdgeClass) :=
  blk.outs.toList.map fun ed => (ed.target, ed.label.classes)

/-- Each out-edge of a block has one with its target and classes in a block of the same class
view. -/
theorem exists_of_classView {blk blk' : Block} (hview : classView blk' = classView blk) {i : Nat}
    {ed' : OutEdge} (hed' : blk'.outs[i]? = some ed') :
    ∃ ed : OutEdge, blk.outs[i]? = some ed ∧ ed'.target = ed.target ∧
      ed'.label.classes = ed.label.classes := by
  have hi := congrArg (fun l => l[i]?) hview
  simp only [classView, List.getElem?_map, Array.getElem?_toList, hed'] at hi
  cases hed : blk.outs[i]? with
  | none => simp [hed] at hi
  | some ed =>
    simp only [hed, Option.map_some, Option.some.injEq, Prod.mk.injEq] at hi
    exact ⟨ed, rfl, hi⟩

/-- Out-edges with the same targets and classes carry the same tree. -/
theorem treeView_eq_of_classView (h : ∀ x, classView (G'.get x) = classView (G.get x)) :
    G'.treeView = G.treeView := by
  funext x i
  have hi := congrArg (fun l => l[i]?) (h x)
  simp only [classView, List.getElem?_map, Array.getElem?_toList] at hi
  simp only [treeView]
  cases h₁ : (G'.get x).outs[i]? <;> cases h₂ : (G.get x).outs[i]? <;>
    simp only [h₁, h₂, Option.map_none, Option.map_some, Option.some.injEq, Prod.mk.injEq,
      reduceCtorEq] at hi ⊢
  exact ⟨hi.1, EdgeLabel.has_congr hi.2 .tree⟩

/-- An edge with the target and classes of a labelled edge is labelled alike. -/
theorem EdgeOk.of_classes {x : Nat} {ed ed' : OutEdge} (h : G.EdgeOk x ed)
    (ht : ed'.target = ed.target) (hc : ed'.label.classes = ed.label.classes) : G.EdgeOk x ed' where
  one := hc ▸ h.one
  back_iff := by
    rw [ht, show ed'.label.back = ed.label.back from EdgeLabel.has_congr hc .back]
    exact h.back_iff
  forward_iff := by
    rw [ht, show ed'.label.forward = ed.label.forward from EdgeLabel.has_congr hc .forward,
      show ed'.label.tree = ed.label.tree from EdgeLabel.has_congr hc .tree]
    exact h.forward_iff
  cross_iff := by
    rw [ht, show ed'.label.cross = ed.label.cross from EdgeLabel.has_congr hc .cross]
    exact h.cross_iff
  cross_earlier hcr := by
    rw [ht]
    exact h.cross_earlier (by rwa [show ed'.label.cross = ed.label.cross from
      EdgeLabel.has_congr hc .cross] at hcr)
  entered := ht ▸ h.entered

/-- The labels of the search read the numbers and the targets and classes of the out-edges
only. -/
theorem SpanningTreeLabels.transfer {g : BlockGraph} {e : Nat} (h : SpanningTreeLabels g e G)
    (hpre : ∀ x, (G'.get x).preorder = (G.get x).preorder)
    (hview : ∀ x, classView (G'.get x) = classView (G.get x)) : SpanningTreeLabels g e G' := by
  have htree := treeView_eq_of_classView hview
  have hok : ∀ x ed, G.EdgeOk x ed → G'.EdgeOk x ed := fun x ed hok =>
    hok.transfer (by rw [dfsAnc_congr htree]) (by rw [dfsAnc_congr htree]) (hpre x) (hpre _)
  refine ⟨fun x => by rw [hpre]; exact h.reached x, fun x => ?_, fun p slot => ?_,
    fun c hr hce => ?_, fun p c hpc => ?_, fun x hr slot ed' hed' => ?_,
    fun x hr slot ed' hed' => ?_⟩
  · rw [dfsAnc_congr htree]
    exact h.spanning x
  · unfold TreeSlot
    rw [htree]
    exact h.root p slot
  · simp only [TreeSlot, htree]
    exact h.parent c hr hce
  · simp only [hpre]
    exact h.tree_pre p c (by rwa [← treeEdge_congr htree])
  · obtain ⟨ed, hed, ht, hc⟩ := exists_of_classView (hview x) hed'
    exact hok x ed' ((h.labelled x hr slot ed hed).of_classes ht hc)
  · obtain ⟨ed, hed, -, hc⟩ := exists_of_classView (hview x) hed'
    rw [hc]
    exact h.unlabelled x hr slot ed hed

end BlockGraph

end MicroSsa
