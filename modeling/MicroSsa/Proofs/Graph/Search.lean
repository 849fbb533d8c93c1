import MicroSsa.Proofs.Graph.Paths
import MicroSsa.Graph.Dominators
import Mathlib.Algebra.BigOperators.Group.Finset.Piecewise
import Mathlib.Algebra.Order.BigOperators.Group.Finset
/-!
# Depth-first search

`BlockGraph.Dfs` is depth-first search written the way a textbook writes it, as a big-step
relation: search from each start block in turn; entering a block searches from its successors
in slot order and then finishes it. Its last argument lists the finished blocks, last finished
first, which is reverse postorder.

`BlockGraph.spanningTree` runs the same search with an explicit stack. The main statement,
`spanningTree_spec`, says that the list it answers is the finish order of `Dfs` from the entry,
that it holds every block the entry reaches exactly once with the entry first, that each other
block in it has a predecessor earlier in it, and that exactly these blocks get a preorder number.
The fuel of the loop is enough: each step spends one unit of the weight
`BlockGraph.unseenWeight` (one per edge and one per block not yet entered), which the whole
search cannot exceed.
-/

namespace MicroSsa

namespace BlockGraph

/-- `g.Dfs seen fin bs seen' fin'`: searching depth first from each block of `bs` in turn, with
the blocks of `seen` entered already and `fin` finished (last finished first), ends with
`seen'` entered and `fin'` finished. -/
inductive Dfs (g : BlockGraph) : List Nat → List Nat → List Nat → List Nat → List Nat → Prop
  | nil {seen fin : List Nat} : Dfs g seen fin [] seen fin
  | skip {seen fin bs seen' fin' : List Nat} {b : Nat} :
      b ∈ seen → Dfs g seen fin bs seen' fin' → Dfs g seen fin (b :: bs) seen' fin'
  | enter {seen fin bs s₁ f₁ seen' fin' : List Nat} {b : Nat} :
      b ∉ seen → Dfs g (b :: seen) fin (g.succs b) s₁ f₁ →
      Dfs g s₁ (b :: f₁) bs seen' fin' → Dfs g seen fin (b :: bs) seen' fin'

variable {g : BlockGraph}

namespace Dfs

theorem subset {seen fin bs seen' fin' : List Nat} (h : g.Dfs seen fin bs seen' fin') :
    seen ⊆ seen' := by
  induction h with
  | nil => exact List.Subset.refl _
  | skip _ _ ih => exact ih
  | enter _ _ _ ih₁ ih₃ => exact fun x hx => ih₃ (ih₁ (List.mem_cons_of_mem _ hx))

/-- Every start block is entered. -/
theorem mem_of_start {seen fin bs seen' fin' : List Nat} (h : g.Dfs seen fin bs seen' fin') :
    ∀ b ∈ bs, b ∈ seen' := by
  induction h with
  | nil => simp
  | skip hb h ih =>
    intro x hx
    rcases List.mem_cons.mp hx with rfl | hx
    · exact h.subset hb
    · exact ih x hx
  | enter _ h₁ h₃ _ ih₃ =>
    intro x hx
    rcases List.mem_cons.mp hx with rfl | hx
    · exact h₃.subset (h₁.subset List.mem_cons_self)
    · exact ih₃ x hx

/-- The successors of a newly entered block are entered. -/
theorem succs_mem {seen fin bs seen' fin' : List Nat} (h : g.Dfs seen fin bs seen' fin') :
    ∀ x ∈ seen', x ∉ seen → ∀ y ∈ g.succs x, y ∈ seen' := by
  induction h with
  | nil => intro x hx hn; exact absurd hx hn
  | skip _ _ ih => exact ih
  | @enter seen fin bs s₁ f₁ seen' fin' b hb h₁ h₃ ih₁ ih₃ =>
    intro x hx hn y hy
    by_cases hx₁ : x ∈ s₁
    · by_cases hxb : x = b
      · subst hxb
        exact h₃.subset (h₁.mem_of_start y hy)
      · exact h₃.subset (ih₁ x hx₁ (by simp [hxb, hn]) y hy)
    · exact ih₃ x hx hx₁ y hy

/-- Only blocks the entry reaches are entered, when the search starts from such blocks. -/
theorem reaches (e : Nat) {seen fin bs seen' fin' : List Nat} (h : g.Dfs seen fin bs seen' fin') :
    (∀ x ∈ seen, g.Reaches e x) → (∀ b ∈ bs, g.Reaches e b) → ∀ x ∈ seen', g.Reaches e x := by
  induction h with
  | nil => exact fun hs _ => hs
  | skip _ _ ih => exact fun hs hbs => ih hs (fun b hb => hbs b (List.mem_cons_of_mem _ hb))
  | @enter seen fin bs s₁ f₁ seen' fin' b _ _ _ ih₁ ih₃ =>
    intro hs hbs
    have hb : g.Reaches e b := hbs b List.mem_cons_self
    refine ih₃ (ih₁ ?_ (fun y hy => hb.step hy)) (fun x hx => hbs x (List.mem_cons_of_mem _ hx))
    intro x hx
    rcases List.mem_cons.mp hx with rfl | hx
    · exact hb
    · exact hs x hx

/-- The blocks a search finishes: each block it enters exactly once, and each of them either a
start block or a successor of a block finished after it. -/
theorem finished {seen fin bs seen' fin' : List Nat} (h : g.Dfs seen fin bs seen' fin') :
    ∃ new, fin' = new ++ fin ∧ new.Nodup ∧ (∀ x, x ∈ new ↔ x ∈ seen' ∧ x ∉ seen) ∧
      ∀ x ∈ new, x ∈ bs ∨ ∃ p, x ∈ g.succs p ∧ [p, x].Sublist new := by
  induction h with
  | nil => exact ⟨[], by simp, List.nodup_nil, by simp, by simp⟩
  | skip hb _ ih =>
    obtain ⟨new, rfl, hnd, hmem, hpar⟩ := ih
    exact ⟨new, rfl, hnd, hmem, fun x hx => (hpar x hx).imp_left (List.mem_cons_of_mem _)⟩
  | @enter seen fin bs s₁ f₁ seen' fin' b hb h₁ h₃ ih₁ ih₃ =>
    obtain ⟨new₁, rfl, hnd₁, hmem₁, hpar₁⟩ := ih₁
    obtain ⟨new₃, rfl, hnd₃, hmem₃, hpar₃⟩ := ih₃
    have hbs₁ : b ∈ s₁ := h₁.subset List.mem_cons_self
    refine ⟨new₃ ++ b :: new₁, by simp, ?_, ?_, ?_⟩
    · refine List.nodup_append.mpr ⟨hnd₃, List.nodup_cons.mpr ⟨?_, hnd₁⟩, ?_⟩
      · intro hb₁
        exact ((hmem₁ b).mp hb₁).2 List.mem_cons_self
      · intro x hx₃ y hy hxy
        subst hxy
        have hx₁ : x ∈ s₁ := by
          rcases List.mem_cons.mp hy with rfl | hy
          · exact hbs₁
          · exact ((hmem₁ x).mp hy).1
        exact ((hmem₃ x).mp hx₃).2 hx₁
    · intro x
      simp only [List.mem_append, List.mem_cons, hmem₁, hmem₃]
      constructor
      · rintro (⟨hx, hx₁⟩ | rfl | ⟨hx₁, hxs⟩)
        · refine ⟨hx, fun hxs => hx₁ ?_⟩
          exact h₁.subset (List.mem_cons_of_mem _ hxs)
        · exact ⟨h₃.subset hbs₁, hb⟩
        · exact ⟨h₃.subset hx₁, fun h => hxs (Or.inr h)⟩
      · rintro ⟨hx, hxs⟩
        by_cases hx₁ : x ∈ s₁
        · by_cases hxb : x = b
          · exact Or.inr (Or.inl hxb)
          · exact Or.inr (Or.inr ⟨hx₁, by simp [hxb, hxs]⟩)
        · exact Or.inl ⟨hx, hx₁⟩
    · intro x hx
      rcases List.mem_append.mp hx with hx | hx
      · rcases hpar₃ x hx with hx | ⟨p, hp, hsub⟩
        · exact Or.inl (List.mem_cons_of_mem _ hx)
        · exact Or.inr ⟨p, hp, hsub.trans (List.sublist_append_left _ _)⟩
      · rcases List.mem_cons.mp hx with rfl | hx
        · exact Or.inl List.mem_cons_self
        · refine Or.inr ?_
          rcases hpar₁ x hx with hx' | ⟨p, hp, hsub⟩
          · refine ⟨b, hx', ?_⟩
            exact ((List.cons_sublist_cons.mpr
              (List.singleton_sublist.mpr hx)).trans (List.sublist_append_right _ _))
          · exact ⟨p, hp, (hsub.trans (List.sublist_cons_self _ _)).trans
              (List.sublist_append_right _ _)⟩

/-- The search is determined by where it starts. -/
theorem unique {seen fin bs s f s' f' : List Nat} (h : g.Dfs seen fin bs s f)
    (h' : g.Dfs seen fin bs s' f') : s = s' ∧ f = f' := by
  induction h generalizing s' f' with
  | nil => cases h'; exact ⟨rfl, rfl⟩
  | skip hb _ ih =>
    cases h' with
    | skip _ h' => exact ih h'
    | enter hb' _ _ => exact absurd hb hb'
  | enter hb _ _ ih₁ ih₃ =>
    cases h' with
    | skip hb' _ => exact absurd hb' hb
    | enter _ h₁' h₃' =>
      obtain ⟨rfl, rfl⟩ := ih₁ h₁'
      exact ih₃ h₃'

end Dfs

/-! ## What a search can still spend -/

/-- One unit for each out-edge of a block outside `seen` and one for the block itself. -/
def unseenWeight (g : BlockGraph) (seen : List Nat) : Nat :=
  ∑ x ∈ Finset.range g.size, if x ∈ seen then 0 else (g.succs x).length + 1

/-- Entering a block spends its weight. -/
theorem unseenWeight_cons {seen : List Nat} {b : Nat} (hb : b < g.size) (hn : b ∉ seen) :
    g.unseenWeight seen = g.unseenWeight (b :: seen) + ((g.succs b).length + 1) := by
  have hsplit : ∀ x, (if x ∈ seen then 0 else (g.succs x).length + 1) =
      (if x ∈ b :: seen then 0 else (g.succs x).length + 1) +
        (if x = b then (g.succs x).length + 1 else 0) := by
    intro x
    by_cases hxb : x = b
    · subst hxb; simp [hn]
    · simp [hxb]
  simp only [unseenWeight]
  rw [Finset.sum_congr rfl (fun x _ => hsplit x), Finset.sum_add_distrib, Finset.sum_ite_eq']
  simp [hb]

theorem unseenWeight_anti {seen seen' : List Nat} (h : seen ⊆ seen') :
    g.unseenWeight seen' ≤ g.unseenWeight seen := by
  refine Finset.sum_le_sum fun x _ => ?_
  by_cases hx : x ∈ seen'
  · simp [hx]
  · have : x ∉ seen := fun hs => hx (h hs)
    simp [hx, this]

/-- `edgeCount` counts the out-edges block by block. -/
theorem edgeCount_eq (g : BlockGraph) :
    g.edgeCount = ∑ x ∈ Finset.range g.size, (g.succs x).length := by
  have hlist : ∀ (l : List Block) (k : Nat),
      l.foldl (fun n blk => n + blk.outs.size) k =
        k + ∑ i ∈ Finset.range l.length, (l[i]?.getD {}).outs.size := by
    intro l
    induction l with
    | nil => simp
    | cons blk l ih =>
      intro k
      rw [List.foldl_cons, ih, List.length_cons, Finset.sum_range_succ']
      simp [Nat.add_assoc, Nat.add_comm]
  simp only [edgeCount, ← Array.foldl_toList, hlist, Nat.zero_add, succs, get, size]
  simp [Array.length_toList]

theorem unseenWeight_nil (g : BlockGraph) : g.unseenWeight [] = g.edgeCount + g.size := by
  simp [unseenWeight, Finset.sum_add_distrib, edgeCount_eq]

/-- From any start, a search of a well-formed graph runs to its end. -/
theorem Dfs.exists (hg : g.Wf) (seen fin bs : List Nat) (hbs : ∀ b ∈ bs, b < g.size) :
    ∃ s f, g.Dfs seen fin bs s f := by
  -- on the weight left, and inside on the start list
  suffices h : ∀ n seen fin bs, g.unseenWeight seen < n → (∀ b ∈ bs, b < g.size) →
      ∃ s f, g.Dfs seen fin bs s f from h _ seen fin bs (Nat.lt_succ_self _) hbs
  intro n
  induction n with
  | zero => intro _ _ _ h; omega
  | succ n ih =>
    intro seen fin bs hw hbs
    induction bs generalizing seen fin with
    | nil => exact ⟨seen, fin, .nil⟩
    | cons b bs ihbs =>
      have hrest : ∀ x ∈ bs, x < g.size := fun x hx => hbs x (List.mem_cons_of_mem _ hx)
      by_cases hb : b ∈ seen
      · obtain ⟨s, f, h⟩ := ihbs seen fin hw hrest
        exact ⟨s, f, .skip hb h⟩
      · have hw' : g.unseenWeight (b :: seen) < n := by
          have := unseenWeight_cons (hbs b List.mem_cons_self) hb
          omega
        obtain ⟨s₁, f₁, h₁⟩ := ih (b :: seen) fin (g.succs b) hw' (fun y hy => hg.succ_lt hy)
        obtain ⟨s, f, h₃⟩ := ih s₁ (b :: f₁) bs
          (Nat.lt_of_le_of_lt (unseenWeight_anti h₁.subset) hw') hrest
        exact ⟨s, f, .enter hb h₁ h₃⟩

/-! ## The search with an explicit stack -/

theorem classify_eq_tree_iff (g : BlockGraph) (b t : Nat) :
    g.classify b t = .tree ↔ (g.get t).preorder = none := by
  unfold classify
  cases ht : (g.get t).preorder with
  | none => simp [ht]
  | some tp =>
    cases hp : (g.get t).postorder with
    | none => simp [ht, hp]
    | some _ =>
      cases (g.get b).preorder with
      | none => simp [ht, hp]
      | some bp => by_cases h : bp < tp <;> simp [ht, hp, h]

theorem searchLoop_nil {s : Search} (h : s.stack = []) : ∀ n, searchLoop n s = s
  | 0 => rfl
  | _ + 1 => by simp [searchLoop, h]

/-- Examining an out-edge to a block entered already relabels it and moves to the next slot. -/
theorem searchLoop_seen {s : Search} {b slot : Nat} {rest : List (Nat × Nat)} {ed : OutEdge}
    (hst : s.stack = (b, slot) :: rest) (hed : (s.graph.get b).outs[slot]? = some ed)
    (hseen : (s.graph.get ed.target).preorder.isSome) :
    ∃ s₁ : Search, (∀ n, searchLoop (n + 1) s = searchLoop n s₁) ∧
      s₁.graph = s.graph.setLabel b slot (ed.label.withClass (s.graph.classify b ed.target)) ∧
      s₁.finished = s.finished ∧ s₁.stack = (b, slot + 1) :: rest ∧ s₁.nextPre = s.nextPre := by
  have hc : s.graph.classify b ed.target ≠ .tree := by
    rw [Ne, classify_eq_tree_iff]
    intro h
    simp [h] at hseen
  refine ⟨⟨s.graph.setLabel b slot (ed.label.withClass (s.graph.classify b ed.target)), s.nextPre,
    s.finished, (b, slot + 1) :: rest⟩, fun n => ?_, rfl, rfl, rfl, rfl⟩
  simp [searchLoop, hst, hed, hc]

/-- Examining an out-edge to a block not entered yet numbers that block and opens it. -/
theorem searchLoop_tree {s : Search} {b slot : Nat} {rest : List (Nat × Nat)} {ed : OutEdge}
    (hst : s.stack = (b, slot) :: rest) (hed : (s.graph.get b).outs[slot]? = some ed)
    (hnew : (s.graph.get ed.target).preorder = none) :
    ∃ s₁ : Search, (∀ n, searchLoop (n + 1) s = searchLoop n s₁) ∧
      s₁.graph = (s.graph.setLabel b slot (ed.label.withClass .tree)).modify ed.target
        (fun t => { t with preorder := some s.nextPre }) ∧
      s₁.finished = s.finished ∧ s₁.stack = (ed.target, 0) :: (b, slot + 1) :: rest ∧
      s₁.nextPre = s.nextPre + 1 := by
  have hc : s.graph.classify b ed.target = .tree := (classify_eq_tree_iff _ _ _).mpr hnew
  refine ⟨{ graph := (s.graph.setLabel b slot (ed.label.withClass .tree)).modify ed.target
                (fun t => { t with preorder := some s.nextPre }),
              nextPre := s.nextPre + 1, finished := s.finished,
              stack := (ed.target, 0) :: (b, slot + 1) :: rest }, fun n => ?_, rfl, rfl, rfl, rfl⟩
  simp [searchLoop, hst, hed, hc]

/-- With no out-edge left, the top block is finished. -/
theorem searchLoop_pop {s : Search} {b slot : Nat} {rest : List (Nat × Nat)}
    (hst : s.stack = (b, slot) :: rest) (hed : (s.graph.get b).outs[slot]? = none) :
    ∃ s₁ : Search, (∀ n, searchLoop (n + 1) s = searchLoop n s₁) ∧
      s₁.graph = s.graph.modify b (fun t => { t with postorder := some s.finished.length }) ∧
      s₁.finished = b :: s.finished ∧ s₁.stack = rest ∧ s₁.nextPre = s.nextPre := by
  refine ⟨⟨s.graph.modify b (fun t => { t with postorder := some s.finished.length }), s.nextPre,
    b :: s.finished, rest⟩, fun n => ?_, rfl, rfl, rfl, rfl⟩
  simp [searchLoop, hst, hed]

/-- The stack search state `s` stands for the search state `seen`, `fin` of `g`: same blocks
and edges, the blocks with a preorder number are those of `seen`, and `fin` is finished. -/
structure Tracks (g : BlockGraph) (s : Search) (seen fin : List Nat) : Prop where
  size_eq : s.graph.size = g.size
  succs_eq : ∀ x, s.graph.succs x = g.succs x
  preds_eq : ∀ x, s.graph.preds x = g.preds x
  fields_eq : ∀ x, (s.graph.get x).treeFields = (g.get x).treeFields
  entered : ∀ x, (s.graph.get x).preorder.isSome ↔ x ∈ seen
  finished_eq : s.finished = fin

namespace Tracks

variable {s : Search} {seen fin : List Nat}

theorem edge_of_drop (hs : g.Tracks s seen fin) {b slot t : Nat} {ts : List Nat}
    (h : (g.succs b).drop slot = t :: ts) :
    ∃ ed, (s.graph.get b).outs[slot]? = some ed ∧ ed.target = t := by
  have hget : ((g.succs b).drop slot)[0]? = some t := by rw [h]; rfl
  rw [List.getElem?_drop, Nat.add_zero] at hget
  rw [← hs.succs_eq, succs_getElem?] at hget
  obtain ⟨ed, hed, rfl⟩ := Option.map_eq_some_iff.mp hget
  exact ⟨ed, hed, rfl⟩

theorem no_edge_of_drop (hs : g.Tracks s seen fin) {b slot : Nat}
    (h : (g.succs b).drop slot = []) : (s.graph.get b).outs[slot]? = none := by
  have hget : (g.succs b)[slot]? = none :=
    List.getElem?_eq_none (List.drop_eq_nil_iff.mp h)
  rw [← hs.succs_eq, succs_getElem?] at hget
  simpa using hget

/-- Only the graph and the finished list of a search state matter. -/
theorem of_eq (hs : g.Tracks s seen fin) {s' : Search} (hgraph : s'.graph = s.graph)
    (hfin : s'.finished = s.finished) : g.Tracks s' seen fin where
  size_eq := by rw [hgraph]; exact hs.size_eq
  succs_eq x := by rw [hgraph]; exact hs.succs_eq x
  preds_eq x := by rw [hgraph]; exact hs.preds_eq x
  fields_eq x := by rw [hgraph]; exact hs.fields_eq x
  entered x := by rw [hgraph]; exact hs.entered x
  finished_eq := hfin.trans hs.finished_eq

/-- Relabelling an edge changes nothing the search relation sees. -/
theorem setLabel (hs : g.Tracks s seen fin) {s' : Search} {b slot : Nat} {l : EdgeLabel}
    (hgraph : s'.graph = s.graph.setLabel b slot l) (hfin : s'.finished = s.finished) :
    g.Tracks s' seen fin where
  size_eq := by simpa [hgraph] using hs.size_eq
  succs_eq x := by simpa [hgraph] using hs.succs_eq x
  preds_eq x := by simpa [hgraph] using hs.preds_eq x
  fields_eq x := by
    rw [← hs.fields_eq x, hgraph]
    exact modify_get_eq _ (fun _ => by rfl) _ _ _
  entered x := by
    have h : ((s.graph.setLabel b slot l).get x).preorder = (s.graph.get x).preorder :=
      modify_get_eq _ (fun _ => by rfl) _ _ _
    simp [hgraph, h, hs.entered x]
  finished_eq := hfin.trans hs.finished_eq

/-- Numbering a block enters it. -/
theorem enter (hs : g.Tracks s seen fin) {s' : Search} {t k : Nat} (ht : t < g.size)
    (hgraph : s'.graph = s.graph.modify t (fun x => { x with preorder := some k }))
    (hfin : s'.finished = s.finished) : g.Tracks s' (t :: seen) fin where
  size_eq := by simpa [hgraph] using hs.size_eq
  succs_eq x := by
    rw [← hs.succs_eq x, hgraph]
    exact succs_modify (fun _ => by rfl) x
  preds_eq x := by
    rw [← hs.preds_eq x, hgraph]
    exact preds_modify (fun _ => by rfl) x
  fields_eq x := by
    rw [← hs.fields_eq x, hgraph]
    exact modify_get_eq _ (fun _ => by rfl) _ _ _
  entered x := by
    rw [hgraph, get_modify, List.mem_cons, ← hs.entered x]
    by_cases hx : t = x
    · subst hx; simp [hs.size_eq, ht]
    · simp [hx, Ne.symm hx]
  finished_eq := hfin.trans hs.finished_eq

/-- Finishing a block puts it in front of the finished list. -/
theorem pop (hs : g.Tracks s seen fin) {s' : Search} {b k : Nat}
    (hgraph : s'.graph = s.graph.modify b (fun x => { x with postorder := some k }))
    (hfin : s'.finished = b :: s.finished) : g.Tracks s' seen (b :: fin) where
  size_eq := by simpa [hgraph] using hs.size_eq
  succs_eq x := by
    rw [← hs.succs_eq x, hgraph]
    exact succs_modify (fun _ => by rfl) x
  preds_eq x := by
    rw [← hs.preds_eq x, hgraph]
    exact preds_modify (fun _ => by rfl) x
  fields_eq x := by
    rw [← hs.fields_eq x, hgraph]
    exact modify_get_eq _ (fun _ => by rfl) _ _ _
  entered x := by
    have h : ((s.graph.modify b fun x => { x with postorder := some k }).get x).preorder =
        (s.graph.get x).preorder := modify_get_eq _ (fun _ => by rfl) _ _ _
    simp [hgraph, h, hs.entered x]
  finished_eq := by simp [hfin, hs.finished_eq]

end Tracks

/-- The stack search follows the search relation. Started inside block `b` at out-slot `slot`,
with the rest of `b`'s successors as start list, it reaches the end of `b`'s out-edges in the
state where the relation ends, spending one unit of weight per step. -/
theorem Dfs.run (hg : g.Wf) {seen fin bs seen' fin' : List Nat}
    (h : g.Dfs seen fin bs seen' fin') :
    ∀ (s : Search) (b slot : Nat) (rest : List (Nat × Nat)),
      (g.succs b).drop slot = bs → g.Tracks s seen fin → s.stack = (b, slot) :: rest →
      ∃ n s', (∀ k, searchLoop (n + k) s = searchLoop k s') ∧ g.Tracks s' seen' fin' ∧
        s'.stack = (b, slot + bs.length) :: rest ∧
        n + g.unseenWeight seen' = bs.length + g.unseenWeight seen := by
  induction h with
  | nil =>
    intro s b slot rest _ hs hst
    exact ⟨0, s, fun k => by simp, hs, by simpa using hst, by simp⟩
  | @skip seen fin bs seen' fin' t ht _ ih =>
    intro s b slot rest hdrop hs hst
    obtain ⟨ed, hed, rfl⟩ := hs.edge_of_drop hdrop
    obtain ⟨s₁, hstep, hgraph, hfin, hst₁, -⟩ := searchLoop_seen hst hed ((hs.entered _).mpr ht)
    obtain ⟨n, s', hrun, hs', hst', hw⟩ := ih s₁ b (slot + 1) rest
      (by rw [List.drop_add_one_eq_tail_drop, hdrop]; rfl) (hs.setLabel hgraph hfin) hst₁
    refine ⟨n + 1, s', fun k => ?_, hs', ?_, ?_⟩
    · rw [Nat.add_right_comm, hstep]
      exact hrun k
    · simp only [hst', List.length_cons, List.cons.injEq, Prod.mk.injEq, true_and, and_true]
      omega
    · simp only [List.length_cons]
      omega
  | @enter seen fin bs s₁ f₁ seen' fin' t ht h₁ h₃ ih₁ ih₃ =>
    intro s b slot rest hdrop hs hst
    obtain ⟨ed, hed, rfl⟩ := hs.edge_of_drop hdrop
    have hnew : (s.graph.get ed.target).preorder = none := by
      simpa using (hs.entered ed.target).not.mpr ht
    have htlt : ed.target < g.size :=
      hg.succ_lt (List.mem_of_mem_drop (hdrop ▸ List.mem_cons_self : ed.target ∈ _))
    -- enter the target, search below it, finish it, then go on with `b`
    obtain ⟨sa, hstepa, hgrapha, hfina, hsta, -⟩ := searchLoop_tree hst hed hnew
    have hsl : g.Tracks ⟨s.graph.setLabel b slot (ed.label.withClass .tree), 0, s.finished, []⟩
        seen fin := hs.setLabel rfl rfl
    obtain ⟨n₁, sb, hrun₁, hsb, hstb, hw₁⟩ := ih₁ sa ed.target 0 ((b, slot + 1) :: rest)
      List.drop_zero (hsl.enter htlt hgrapha hfina) hsta
    obtain ⟨sc, hstepc, hgraphc, hfinc, hstc, -⟩ :=
      searchLoop_pop hstb (hsb.no_edge_of_drop (by simp))
    obtain ⟨n₃, s', hrun₃, hs', hst', hw₃⟩ := ih₃ sc b (slot + 1) rest
      (by rw [List.drop_add_one_eq_tail_drop, hdrop]; rfl)
      (hsb.pop hgraphc (by rw [hfinc])) hstc
    have hweight := unseenWeight_cons htlt ht
    refine ⟨n₃ + 1 + n₁ + 1, s', fun k => ?_, hs', ?_, ?_⟩
    · rw [show n₃ + 1 + n₁ + 1 + k = (n₁ + (n₃ + k + 1)) + 1 by omega, hstepa, hrun₁, hstepc]
      exact hrun₃ k
    · simp only [hst', List.length_cons, List.cons.injEq, Prod.mk.injEq, true_and, and_true]
      omega
    · simp only [List.length_cons]
      omega

/-! ## The search from the entry -/

/-- The search depends on the successors only. -/
theorem Dfs.congr {g' : BlockGraph} (h : ∀ x, g'.succs x = g.succs x) {seen fin bs seen' fin' : List Nat}
    (hd : g'.Dfs seen fin bs seen' fin') : g.Dfs seen fin bs seen' fin' := by
  induction hd with
  | nil => exact .nil
  | skip hb _ ih => exact .skip hb ih
  | @enter _ _ _ _ _ _ _ b hb _ _ ih₁ ih₂ => exact .enter hb (h b ▸ ih₁) ih₂

/-- A search from the entry of a well-formed graph enters exactly the blocks the entry reaches,
finishes each of them once, the entry last, and finishes every other block after one of its
predecessors. -/
theorem Dfs.from_entry {e : Nat} {seen rpo : List Nat} (h : g.Dfs [] [] [e] seen rpo) :
    (∀ x, x ∈ seen ↔ g.Reaches e x) ∧ rpo.Nodup ∧ (∀ x, x ∈ rpo ↔ g.Reaches e x) ∧
      rpo.head? = some e ∧ ∀ x ∈ rpo, x ≠ e → ∃ p, x ∈ g.succs p ∧ [p, x].Sublist rpo := by
  have hseen : ∀ x, x ∈ seen ↔ g.Reaches e x := by
    intro x
    constructor
    · exact Dfs.reaches e h (by simp) (by simp [reaches_refl]) x
    · rintro ⟨p, hp⟩
      induction hp with
      | here => exact h.mem_of_start e List.mem_cons_self
      | step _ hab ih => exact h.succs_mem _ ih (by simp) _ hab
  obtain ⟨new, hnew, hnd, hmem, hpar⟩ := h.finished
  simp only [List.append_nil] at hnew
  subst hnew
  refine ⟨hseen, hnd, fun x => by simp [hmem, hseen], ?_, fun x hx hxe => ?_⟩
  · cases h with
    | skip hb _ => simp at hb
    | enter _ _ h₃ =>
      cases h₃ with
      | nil => rfl
  · rcases hpar x hx with hx' | hp
    · exact absurd (List.mem_singleton.mp hx') hxe
    · exact hp

/-- The state the search of `spanningTree` starts in: the entry numbered `0` and open. -/
def startSearch (g : BlockGraph) (e : Nat) : Search :=
  ⟨g.modify e fun t => { t with preorder := some 0 }, 1, [], [(e, 0)]⟩

/-- The state the search of `spanningTree` ends in. -/
def endSearch (g : BlockGraph) (e : Nat) : Search :=
  searchLoop ((startSearch g e).graph.edgeCount + (startSearch g e).graph.size + 1) (startSearch g e)

theorem spanningTree_eq_endSearch (g : BlockGraph) (e : Nat) :
    g.spanningTree e = ((endSearch g e).graph, (endSearch g e).finished) := rfl

/-- The search of `spanningTree` ends with an empty stack, in the state where the search
relation from the entry ends. -/
theorem endSearch_spec (hg : g.Wf) {e : Nat} (he : e < g.size)
    (hpre : ∀ x, (g.get x).preorder = none) :
    ∃ seen, g.Dfs [] [] [e] seen (endSearch g e).finished ∧
      g.Tracks (endSearch g e) seen (endSearch g e).finished ∧ (endSearch g e).stack = [] := by
  obtain ⟨seen, rpo, h⟩ := Dfs.exists hg [] [] [e] (by simpa using he)
  cases h with
  | skip hb _ => simp at hb
  | @enter _ _ _ s₁ f₁ _ _ _ _ h₁ h₃ =>
    cases h₃ with
    | nil =>
      let s₀ : Search := { graph := g.modify e fun t => { t with preorder := some 0 }
                           nextPre := 1, finished := [], stack := [(e, 0)] }
      have hinit : g.Tracks ⟨g, 0, [], []⟩ [] [] :=
        ⟨rfl, fun _ => rfl, fun _ => rfl, fun _ => rfl, fun x => by simp [hpre x], rfl⟩
      obtain ⟨n, s', hrun, hs', hst', hw⟩ :=
        h₁.run hg s₀ e 0 [] List.drop_zero (hinit.enter he rfl rfl) rfl
      obtain ⟨sf, hstepf, hgraphf, hfinf, hstf, -⟩ := searchLoop_pop hst' (hs'.no_edge_of_drop (by simp))
      have hfuel : n + 1 ≤ g.edgeCount + g.size + 1 := by
        have h0 := unseenWeight_cons he (List.not_mem_nil : e ∉ ([] : List Nat))
        rw [unseenWeight_nil] at h0
        omega
      have hsucc : ∀ x, s₀.graph.succs x = g.succs x := fun x => succs_modify (fun _ => by rfl) x
      have hsize : s₀.graph.size = g.size := size_modify _ _ _
      have hcount : s₀.graph.edgeCount = g.edgeCount := by
        simp only [edgeCount_eq, hsize, hsucc]
      have hfinal : searchLoop (s₀.graph.edgeCount + s₀.graph.size + 1) s₀ = sf := by
        rw [hcount, hsize]
        obtain ⟨k, hk⟩ : ∃ k, g.edgeCount + g.size + 1 = n + (k + 1) :=
          ⟨g.edgeCount + g.size - n, by omega⟩
        rw [hk, hrun, hstepf]
        exact searchLoop_nil hstf k
      have hfin : sf.finished = e :: f₁ := by simp [hfinf, hs'.finished_eq]
      show ∃ seen, g.Dfs [] [] [e] seen (searchLoop (s₀.graph.edgeCount + s₀.graph.size + 1) s₀).finished ∧
        g.Tracks (searchLoop (s₀.graph.edgeCount + s₀.graph.size + 1) s₀) seen
          (searchLoop (s₀.graph.edgeCount + s₀.graph.size + 1) s₀).finished ∧
        (searchLoop (s₀.graph.edgeCount + s₀.graph.size + 1) s₀).stack = []
      rw [hfinal, hfin]
      exact ⟨_, .enter (by simp) h₁ .nil, hs'.pop hgraphf hfinf, hstf⟩

/-- **The spanning tree search.** On a well-formed graph whose blocks carry no preorder number
yet, `spanningTree` from a block `e` of the graph answers the finish order of the depth-first
search from `e` (so reverse postorder), numbers exactly the blocks `e` reaches, and leaves the
graph's edges and every result of the dominator analysis alone. -/
theorem spanningTree_spec (hg : g.Wf) {e : Nat} (he : e < g.size)
    (hpre : ∀ x, (g.get x).preorder = none) :
    ∃ seen, g.Dfs [] [] [e] seen (g.spanningTree e).2 ∧
      g.Tracks ⟨(g.spanningTree e).1, 0, (g.spanningTree e).2, []⟩ seen (g.spanningTree e).2 := by
  obtain ⟨seen, hdfs, htr, -⟩ := endSearch_spec hg he hpre
  exact ⟨seen, hdfs, htr.of_eq rfl rfl⟩

end BlockGraph

end MicroSsa
