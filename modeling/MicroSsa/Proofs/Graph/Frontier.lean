import MicroSsa.Proofs.Graph.Analysis
/-!
# Dominance frontiers

The frontier pass visits the reached blocks in reverse postorder. For a join `b` with two or more
in-edges from reached blocks it walks the stored dominator tree up from each such predecessor,
adding `b` to the frontier of every block it passes, and stops at the stored dominator of `b`.
This module proves what the pass stores:

* `runUp_frontier`: one walk adds `b` to the frontiers of exactly the ancestors of its start
  that lie strictly below the stop;
* `mem_dominanceFrontiers_iff`: after the pass, `y` is in the frontier of `x` exactly when a walk
  for the join `y` passes `x` (`Climbs`);
* `climbs_iff`: a walk for `y` passes `x` exactly when `y` is in the dominance frontier of `x`
  (`InFrontier`), unless `y` is the entry and exactly one in-edge from a reached block enters it;
* `analyzeDominators_frontier`: the stored frontiers of a run have no repeats, are empty for the
  unreachable blocks, and are the dominance frontiers with that one exception. A self-loop on the
  entry is the smallest case: the entry is in its own dominance frontier and in no stored
  frontier (`entry_selfLoop_frontier_empty`).

For a join other than the entry, skipping it when one reached in-edge enters it loses nothing:
that predecessor dominates the join (`dominates_of_only_pred`), so every block that dominates the
predecessor strictly dominates the join.
-/

namespace MicroSsa

namespace BlockGraph

variable {g : BlockGraph} {e : Nat}

/-! ## Dominance frontiers of the paths -/

/-- `Y` is in the dominance frontier of `X`: `Y` is reachable from the entry `e`, an in-edge of
`Y` comes from a reachable block that `X` dominates, and `X` does not strictly dominate `Y`. -/
def InFrontier (g : BlockGraph) (e X Y : Nat) : Prop :=
  g.Reaches e Y ∧ (∃ P ∈ g.preds Y, g.Reaches e P ∧ g.Dominates e X P) ∧
    ¬g.StrictlyDominates e X Y

/-- A block other than the entry whose reachable in-edges all come from `P` is dominated by `P`:
every path arrives through one of them. -/
theorem dominates_of_only_pred (hg : g.Wf) {P Y : Nat} (hYe : Y ≠ e)
    (honly : ∀ p ∈ g.preds Y, g.Reaches e p → p = P) : g.Dominates e P Y := by
  intro w hw
  cases hw with
  | here => exact absurd rfl hYe
  | step ha hab =>
    obtain rfl := honly _ (hg.mem_preds.mpr hab) ha.reaches
    exact List.mem_cons_of_mem _ ha.mem_self

/-- Such a `P` is another block when `Y` is reachable: a path first arrives at `Y` from
elsewhere. -/
theorem ne_of_only_pred (hg : g.Wf) {P Y : Nat} (hYe : Y ≠ e) (hY : g.Reaches e Y)
    (honly : ∀ p ∈ g.preds Y, g.Reaches e p → p = P) : P ≠ Y := by
  rintro rfl
  -- by induction on a path: its last step into `P` would come from `P` itself
  have hnot : ∀ v w, g.Walk e v w → v ≠ P := by
    intro v w hw
    induction hw with
    | here => exact Ne.symm hYe
    | step ha hab ih =>
      rintro rfl
      exact ih (honly _ (hg.mem_preds.mpr hab) ha.reaches)
  obtain ⟨w, hw⟩ := hY
  exact hnot _ _ hw rfl

/-! ## Graphs that differ in their frontiers only -/

/-- `G` is `T` with other frontiers: the sizes, stored dominators, preorder numbers and edges
that the frontier pass reads are those of `T`. -/
structure SameButFrontiers (T G : BlockGraph) : Prop where
  size_eq : G.size = T.size
  idom_eq : ∀ x, (G.get x).idom = (T.get x).idom
  preorder_eq : ∀ x, (G.get x).preorder = (T.get x).preorder
  preds_eq : ∀ x, G.preds x = T.preds x

namespace SameButFrontiers

theorem refl (T : BlockGraph) : SameButFrontiers T T :=
  ⟨rfl, fun _ => rfl, fun _ => rfl, fun _ => rfl⟩

/-- A change that keeps all but the frontiers keeps `SameButFrontiers`. -/
theorem of_frame {T G G' : BlockGraph} (h : SameButFrontiers T G) (hsize : G'.size = G.size)
    (hframe : ∀ {β : Type} (π : Block → β), (∀ blk fr, π { blk with frontier := fr } = π blk) →
      ∀ x, π (G'.get x) = π (G.get x)) :
    SameButFrontiers T G' where
  size_eq := hsize.trans h.size_eq
  idom_eq x := (hframe Block.idom (fun _ _ => rfl) x).trans (h.idom_eq x)
  preorder_eq x := (hframe Block.preorder (fun _ _ => rfl) x).trans (h.preorder_eq x)
  preds_eq x := by
    unfold preds
    rw [hframe Block.ins (fun _ _ => rfl) x]
    exact h.preds_eq x

end SameButFrontiers

/-! ## One walk up the tree -/

theorem mem_frontier_addOnce (blk : Block) (b y : Nat) :
    y ∈ (if blk.frontier.contains b then blk
      else { blk with frontier := blk.frontier.push b }).frontier ↔ y ∈ blk.frontier ∨ y = b := by
  split
  · rename_i hb
    constructor
    · exact Or.inl
    · rintro (hy | rfl)
      · exact hy
      · exact Array.contains_iff_mem.mp hb
  · exact Array.mem_push

theorem nodup_frontier_addOnce {blk : Block} (h : blk.frontier.toList.Nodup) (b : Nat) :
    (if blk.frontier.contains b then blk
      else { blk with frontier := blk.frontier.push b }).frontier.toList.Nodup := by
  split
  · exact h
  · rename_i hb
    have hb' : ∀ a ∈ blk.frontier, a ≠ b := fun a ha hab =>
      hb (Array.contains_iff_mem.mpr (hab ▸ ha))
    simpa [List.nodup_append, h] using hb'

/-- The frontiers once `b` is added to that of `r`. -/
theorem mem_frontier_modify_addOnce {G : BlockGraph} {r : Nat} (hr : r < G.size) (b x y : Nat) :
    y ∈ ((G.modify r fun blk => if blk.frontier.contains b then blk
      else { blk with frontier := blk.frontier.push b }).get x).frontier ↔
      y ∈ (G.get x).frontier ∨ (x = r ∧ y = b) := by
  rw [get_modify]
  by_cases hrx : r = x
  · subst hrx
    rw [if_pos ⟨rfl, hr⟩, mem_frontier_addOnce]
    simp
  · rw [if_neg fun h => hrx h.1]
    simp [Ne.symm hrx]

/-- No walk adds a block twice to a frontier. -/
theorem runUp_nodup (b : Nat) (stop : Option Nat) :
    ∀ (fuel : Nat) (G : BlockGraph) (r : Nat), (∀ x, (G.get x).frontier.toList.Nodup) →
      ∀ x, ((runUp b stop fuel G r).get x).frontier.toList.Nodup := by
  intro fuel
  induction fuel with
  | zero => intro G r h; exact h
  | succ fuel ih =>
    intro G r h
    have h₁ : ∀ x, ((G.modify r fun blk => if blk.frontier.contains b then blk
        else { blk with frontier := blk.frontier.push b }).get x).frontier.toList.Nodup := by
      intro x
      rw [get_modify]
      split
      · exact nodup_frontier_addOnce (h x) b
      · exact h x
    simp only [runUp]
    split
    · exact h
    · split
      · exact ih _ _ h₁
      · exact h₁

section Walks

variable {rest : List Nat} {rpoNum : Array Nat} {idom : Array (Option Nat)} {T : BlockGraph}

/-- **One walk up the tree.** Walking up from a reached block `r` towards `stop` adds `b` to the
frontiers of exactly the ancestors of `r` that are not at or above the stop, when the stop, if
any, is an ancestor of `r` and the fuel exceeds the depth of `r`. -/
theorem runUp_frontier (hg : g.Wf) (hst : Stages g e rest rpoNum idom T) (b : Nat)
    (stop : Option Nat) :
    ∀ (fuel : Nat) (G : BlockGraph) (r : Nat), SameButFrontiers T G → r ∈ e :: rest →
      (T.get r).depth < fuel → (∀ d, stop = some d → Ancestor idom d r) →
      ∀ x y, y ∈ ((runUp b stop fuel G r).get x).frontier ↔ y ∈ (G.get x).frontier ∨
        (y = b ∧ Ancestor idom x r ∧ ∀ d, stop = some d → ¬Ancestor idom x d) := by
  intro fuel
  induction fuel with
  | zero => intro _ _ _ _ hdepth; omega
  | succ fuel ih =>
    intro G r hG hr hdepth hstop x y
    have ht := hst.idomTree
    simp only [runUp]
    by_cases hrs : some r = stop
    · -- the walk starts at the stop, at or above every block it would pass
      rw [if_pos hrs]
      subst hrs
      exact ⟨Or.inl, fun h => h.resolve_right fun hb => hb.2.2 r rfl hb.2.1⟩
    rw [if_neg hrs]
    have hbelow : ∀ d, stop = some d → ¬Ancestor idom r d := by
      intro d hd hrd
      obtain rfl := hrd.antisymm ht (hstop d hd)
      exact hrs hd.symm
    have hrlt : r < G.size := by
      rw [hG.size_eq, hst.size_eq]
      exact hst.order.lt_size hg hr
    have hG₁ : SameButFrontiers T (G.modify r fun blk => if blk.frontier.contains b then blk
        else { blk with frontier := blk.frontier.push b }) :=
      hG.of_frame (size_modify _ _ _) fun π hπ x => modify_get_eq π (fun blk => by
        split
        · rfl
        · exact hπ blk _) G r x
    rw [hG₁.idom_eq r, hst.stores.idom_eq r]
    by_cases hrr : r ∈ rest
    · -- one step up, to the pointer `c` of `r`
      obtain ⟨c, hc, hcmem, -⟩ := StoresTree.ptr_of_mem ht hst.isSome_iff hst.order.nodup hrr
      have hdepth' := hst.stores.depth_succ r hrr c hc
      have hstop' : ∀ d, stop = some d → Ancestor idom d c := fun d hd =>
        (hstop d hd).of_up (fun hdr => hrs (by rw [hd, hdr])) hc
      simp only [if_pos hrr, hc]
      rw [ih _ c hG₁ hcmem (by omega) hstop', mem_frontier_modify_addOnce hrlt,
        Ancestor.iff_up hc]
      constructor
      · rintro ((h | ⟨rfl, rfl⟩) | ⟨rfl, hxc, hn⟩)
        · exact Or.inl h
        · exact Or.inr ⟨rfl, Or.inl rfl, hbelow⟩
        · exact Or.inr ⟨rfl, Or.inr hxc, hn⟩
      · rintro (h | ⟨rfl, rfl | hxc, hn⟩)
        · exact Or.inl (Or.inl h)
        · exact Or.inl (Or.inr ⟨rfl, rfl⟩)
        · exact Or.inr ⟨rfl, hxc, hn⟩
    · -- the walk ends at the entry, which has no stored dominator
      obtain rfl : r = e := (List.mem_cons.mp hr).resolve_right hrr
      simp only [if_neg hrr]
      rw [mem_frontier_modify_addOnce hrlt]
      constructor
      · rintro (h | ⟨rfl, rfl⟩)
        · exact Or.inl h
        · exact Or.inr ⟨rfl, .refl _, hbelow⟩
      · rintro (h | ⟨rfl, hxe, -⟩)
        · exact Or.inl h
        · exact Or.inr ⟨hxe.eq_of_entry ht, rfl⟩

/-- The walks from the predecessors `ps` of `b`, one after another. -/
theorem foldl_runUp_frontier (hg : g.Wf) (hst : Stages g e rest rpoNum idom T) (b : Nat)
    (stop : Option Nat) :
    ∀ (ps : List Nat) (G : BlockGraph), SameButFrontiers T G →
      (∀ p ∈ ps, p ∈ e :: rest ∧ ∀ d, stop = some d → Ancestor idom d p) →
      ∀ x y, y ∈ ((ps.foldl (fun G p => runUp b stop (G.size + 1) G p) G).get x).frontier ↔
        y ∈ (G.get x).frontier ∨
          (y = b ∧ ∃ p ∈ ps, Ancestor idom x p ∧ ∀ d, stop = some d → ¬Ancestor idom x d) := by
  intro ps
  induction ps with
  | nil => intro G _ _ x y; simp
  | cons p ps ih =>
    intro G hG hps x y
    obtain ⟨hp, hpstop⟩ := hps p List.mem_cons_self
    have hdepth : (T.get p).depth < G.size + 1 := by
      have := hst.stores.depth_lt_length hst.idomTree hst.isSome_iff hst.order.nodup hp
      have := hst.order.length_le hg
      rw [hG.size_eq, hst.size_eq]
      omega
    have hG' : SameButFrontiers T (runUp b stop (G.size + 1) G p) :=
      hG.of_frame (size_runUp _ _ _ _ _) fun π hπ x => runUp_get_eq π hπ b stop _ G p x
    rw [List.foldl_cons, ih _ hG' fun q hq => hps q (List.mem_cons_of_mem p hq),
      runUp_frontier hg hst b stop _ G p hG hp hdepth hpstop x y]
    simp only [List.mem_cons, exists_eq_or_imp, and_or_left, or_assoc]

/-! ## The frontier pass -/

/-- The predecessors of `b` that the search reached, one per in-edge. -/
def reachedPreds (G : BlockGraph) (b : Nat) : List Nat :=
  (G.preds b).filter fun p => (G.get p).preorder.isSome

theorem frontierStep_eq (G : BlockGraph) (b : Nat) :
    frontierStep G b =
      if (reachedPreds G b).length < 2 then G
      else (reachedPreds G b).foldl (fun G' p => runUp b (G.get b).idom (G'.size + 1) G' p) G :=
  rfl

/-- `x` is passed by a walk of the frontier pass for the join `b`: `b` has two or more in-edges
from reached blocks, and `x` is an ancestor of one of them that lies strictly below the stored
dominator of `b`. -/
def Climbs (T : BlockGraph) (idom : Array (Option Nat)) (b x : Nat) : Prop :=
  2 ≤ (reachedPreds T b).length ∧ ∃ p ∈ reachedPreds T b,
    Ancestor idom x p ∧ ∀ d, (T.get b).idom = some d → ¬Ancestor idom x d

theorem mem_reachedPreds (hst : Stages g e rest rpoNum idom T) {b p : Nat} :
    p ∈ reachedPreds T b ↔ p ∈ g.preds b ∧ g.Reaches e p := by
  simp only [reachedPreds, List.mem_filter, hst.preds_eq, hst.reached]

/-- The stored dominator of a join is an ancestor of each of its reachable predecessors. -/
theorem Stages.ancestor_of_pred (hg : g.Wf) (hst : Stages g e rest rpoNum idom T) {b d p : Nat}
    (hd : (T.get b).idom = some d) (hp : p ∈ g.preds b) (hpr : g.Reaches e p) :
    Ancestor idom d p := by
  rw [hst.stores.idom_eq b] at hd
  split at hd
  · rename_i hb
    obtain ⟨d', hd', hsd, -⟩ := hst.isIdom b hb
    rw [hd] at hd'
    cases hd'
    exact (hst.ancestor_iff hpr).mpr (hsd.2.of_succ hsd.1 (hg.mem_preds.mp hp))
  · cases hd

/-- **One join.** The step for `b` adds `b` to the frontiers of the blocks its walks pass. -/
theorem frontierStep_frontier (hg : g.Wf) (hst : Stages g e rest rpoNum idom T) {G : BlockGraph}
    (hG : SameButFrontiers T G) {b : Nat} (x y : Nat) :
    y ∈ ((frontierStep G b).get x).frontier ↔
      y ∈ (G.get x).frontier ∨ (y = b ∧ Climbs T idom b x) := by
  have hps : reachedPreds G b = reachedPreds T b := by
    unfold reachedPreds
    rw [hG.preds_eq]
    exact List.filter_congr fun p _ => by rw [hG.preorder_eq]
  rw [frontierStep_eq, hps, hG.idom_eq b]
  by_cases hlt : (reachedPreds T b).length < 2
  · rw [if_pos hlt]
    exact ⟨Or.inl, fun h => h.resolve_right fun hb => by have := hb.2.1; omega⟩
  · rw [if_neg hlt]
    have hok : ∀ p ∈ reachedPreds T b,
        p ∈ e :: rest ∧ ∀ d, (T.get b).idom = some d → Ancestor idom d p := by
      intro p hp
      obtain ⟨hpred, hpr⟩ := (mem_reachedPreds hst).mp hp
      exact ⟨(hst.order.mem_iff p).mpr hpr, fun d hd => hst.ancestor_of_pred hg hd hpred hpr⟩
    rw [foldl_runUp_frontier hg hst b _ _ G hG hok, Climbs,
      and_iff_right (show 2 ≤ (reachedPreds T b).length by omega)]

/-- The pass over the blocks `todo`, once those of `done` are through. -/
theorem foldl_frontierStep_frontier (hg : g.Wf) (hst : Stages g e rest rpoNum idom T) :
    ∀ (todo done : List Nat) (G : BlockGraph), SameButFrontiers T G →
      (∀ x y, y ∈ (G.get x).frontier ↔ y ∈ done ∧ Climbs T idom y x) →
      ∀ x y, y ∈ ((todo.foldl frontierStep G).get x).frontier ↔
        y ∈ done ++ todo ∧ Climbs T idom y x := by
  intro todo
  induction todo with
  | nil => intro done G _ h; simpa using h
  | cons b todo ih =>
    intro done G hG hinv x y
    have hG' : SameButFrontiers T (frontierStep G b) :=
      hG.of_frame (size_frontierStep G b) fun π hπ x => frontierStep_get_eq π hπ G b x
    have hinv' : ∀ x y, y ∈ ((frontierStep G b).get x).frontier ↔
        y ∈ done ++ [b] ∧ Climbs T idom y x := by
      intro x y
      rw [frontierStep_frontier hg hst hG, hinv, List.mem_append, List.mem_singleton, or_and_right]
      constructor
      · rintro (h | ⟨rfl, h⟩)
        · exact Or.inl h
        · exact Or.inr ⟨rfl, h⟩
      · rintro (h | ⟨rfl, h⟩)
        · exact Or.inl h
        · exact Or.inr ⟨rfl, h⟩
    rw [List.foldl_cons, ih (done ++ [b]) _ hG' hinv', List.append_assoc, List.singleton_append]

/-- **The frontier pass.** After it, `y` is in the frontier of `x` exactly when `y` is reached and
a walk for the join `y` passes `x`. -/
theorem mem_dominanceFrontiers_iff (hg : g.Wf) (hst : Stages g e rest rpoNum idom T) (x y : Nat) :
    y ∈ ((T.dominanceFrontiers (e :: rest)).get x).frontier ↔ y ∈ e :: rest ∧ Climbs T idom y x := by
  rw [dominanceFrontiers_eq]
  exact foldl_frontierStep_frontier hg hst (e :: rest) [] T (SameButFrontiers.refl T)
    (fun x y => by simp [hst.frontier_nil]) x y

open Classical in
/-- **The walks find the dominance frontier.** For a reachable `y`, a walk for the join `y`
passes `x` exactly when `y` is in the dominance frontier of `x`, unless `y` is the entry and
exactly one in-edge from a reachable block enters it; then no walk starts from it. -/
theorem climbs_iff (hg : g.Wf) (hst : Stages g e rest rpoNum idom T) {x y : Nat}
    (hy : g.Reaches e y) :
    Climbs T idom y x ↔
      g.InFrontier e x y ∧ ¬(y = e ∧ (g.preds e).countP (fun p => decide (g.Reaches e p)) = 1) := by
  have ht := hst.idomTree
  have hlen : (reachedPreds T y).length = (g.preds y).countP fun p => decide (g.Reaches e p) := by
    rw [List.countP_eq_length_filter, reachedPreds, hst.preds_eq]
    congr 1
    exact List.filter_congr fun p _ => by rw [Bool.eq_iff_iff, decide_eq_true_iff]; exact hst.reached p
  -- the stored dominator of `y`, for `y` after the entry
  have hstored : ∀ d, (T.get y).idom = some d ↔ y ∈ rest ∧ idom[y]?.join = some d := by
    intro d
    rw [hst.stores.idom_eq y]
    split
    · rename_i hyr
      exact ⟨fun h => ⟨hyr, h⟩, fun h => h.2⟩
    · rename_i hyr
      exact ⟨nofun, fun h => absurd h.1 hyr⟩
  have hrest : y ≠ e → y ∈ rest := fun hye =>
    (List.mem_cons.mp ((hst.order.mem_iff y).mpr hy)).resolve_left hye
  constructor
  · rintro ⟨h2, p, hp, hxp, hbelow⟩
    obtain ⟨hpred, hpr⟩ := (mem_reachedPreds hst).mp hp
    refine ⟨⟨hy, ⟨p, hpred, hpr, (hst.ancestor_iff hpr).mp hxp⟩, ?_⟩, ?_⟩
    -- a strict dominator of `y` lies at or above its stored dominator
    rintro ⟨hxy, hdom⟩
    have hxy' : Ancestor idom x y := (hst.ancestor_iff hy).mpr hdom
    by_cases hye : y = e
    · subst hye
      exact hxy (hxy'.eq_of_entry ht)
    · obtain ⟨d, hd, -, -⟩ := StoresTree.ptr_of_mem ht hst.isSome_iff hst.order.nodup (hrest hye)
      exact hbelow d ((hstored d).mpr ⟨hrest hye, hd⟩) (hxy'.of_up hxy hd)
    · -- two reached in-edges enter `y`
      rintro ⟨rfl, h1⟩
      omega
  · rintro ⟨⟨-, ⟨P, hP, hPr, hxP⟩, hnsd⟩, hnot⟩
    have hPmem : P ∈ reachedPreds T y := (mem_reachedPreds hst).mpr ⟨hP, hPr⟩
    have hxP' : Ancestor idom x P := (hst.ancestor_iff hPr).mpr hxP
    refine ⟨?_, P, hPmem, hxP', ?_⟩
    · -- one reached in-edge would come from a dominator of `y`, which `x` does not allow
      by_contra hlt
      have h1 : (reachedPreds T y).length = 1 := by
        have := List.length_pos_of_mem hPmem
        omega
      obtain ⟨q, hq⟩ := List.length_eq_one_iff.mp h1
      have honly : ∀ p ∈ g.preds y, g.Reaches e p → p = P := by
        intro p hp hpr
        have hpq : p ∈ reachedPreds T y := (mem_reachedPreds hst).mpr ⟨hp, hpr⟩
        rw [hq, List.mem_singleton] at hpq
        rw [hq, List.mem_singleton] at hPmem
        rw [hpq, hPmem]
      by_cases hye : y = e
      · subst hye
        exact hnot ⟨rfl, hlen ▸ h1⟩
      · have hPy : Ancestor idom P y := (hst.ancestor_iff hy).mpr (dominates_of_only_pred hg hye honly)
        refine hnsd ⟨fun hxy => ?_, (hst.ancestor_iff hy).mp (hxP'.trans hPy)⟩
        rw [hxy] at hxP'
        exact ne_of_only_pred hg hye hy honly (hPy.antisymm ht hxP')
    · -- at or above the stored dominator, `x` would strictly dominate `y`
      intro d hd hxd
      obtain ⟨hyr, hd'⟩ := (hstored d).mp hd
      have hdy : Ancestor idom d y := .parent hd'
      refine hnsd ⟨fun hxy => ?_, (hst.ancestor_iff hy).mp (hxd.trans hdy)⟩
      rw [hxy] at hxd
      have hyd : y = d := hxd.antisymm ht hdy
      have hye : y ≠ e := fun h => (List.nodup_cons.mp hst.order.nodup).1 (h ▸ hyr)
      have := ht.rank_lt hye hd'
      rw [← hyd] at this
      exact Nat.lt_irrefl _ this

end Walks

/-- The frontier pass keeps frontiers free of repeats. -/
theorem nodup_dominanceFrontiers (rpo : List Nat) :
    ∀ G : BlockGraph, (∀ x, (G.get x).frontier.toList.Nodup) →
      ∀ x, ((G.dominanceFrontiers rpo).get x).frontier.toList.Nodup := by
  -- each walk of each step keeps them so
  have hwalks : ∀ b stop (ps : List Nat) (G : BlockGraph), (∀ x, (G.get x).frontier.toList.Nodup) →
      ∀ x, ((ps.foldl (fun G p => runUp b stop (G.size + 1) G p) G).get x).frontier.toList.Nodup := by
    intro b stop ps
    induction ps with
    | nil => intro G h; exact h
    | cons p ps ih => intro G h; exact ih _ (runUp_nodup b stop _ G p h)
  induction rpo with
  | nil => intro G h; exact h
  | cons b rpo ih =>
    intro G h
    rw [dominanceFrontiers_eq, List.foldl_cons, ← dominanceFrontiers_eq]
    refine ih _ ?_
    rw [frontierStep_eq]
    split
    · exact h
    · exact hwalks b _ _ G h

/-! ## The frontiers of a run -/

open Classical in
/-- What the frontiers of a run `G` of the analysis on `g` from the entry `e` hold: no block
twice; nothing for an unreachable block; and the dominance frontier of every block, less the
entry when exactly one in-edge from a reachable block enters the entry. -/
structure FrontiersCorrect (g : BlockGraph) (e : Nat) (G : BlockGraph) : Prop where
  nodup : ∀ X, (G.get X).frontier.toList.Nodup
  unreachable_nil : ∀ X, ¬g.Reaches e X → (G.get X).frontier = #[]
  mem_iff : ∀ X Y, Y ∈ (G.get X).frontier ↔
    g.InFrontier e X Y ∧ ¬(Y = e ∧ (g.preds e).countP (fun p => decide (g.Reaches e p)) = 1)

/-- From the stages, the frontier pass stores the frontiers `FrontiersCorrect` describes. -/
theorem Stages.frontiers (hg : g.Wf) {rest : List Nat} {rpoNum : Array Nat}
    {idom : Array (Option Nat)} {T : BlockGraph} (hst : Stages g e rest rpoNum idom T) :
    FrontiersCorrect g e (finishAnalysis T (e :: rest)) := by
  have hmem : ∀ x y, y ∈ ((finishAnalysis T (e :: rest)).get x).frontier ↔
      y ∈ e :: rest ∧ Climbs T idom y x := fun x y => by
    rw [frontier_finishAnalysis]
    exact mem_dominanceFrontiers_iff hg hst x y
  refine ⟨fun x => ?_, fun x hx => ?_, fun x y => ?_⟩
  · rw [frontier_finishAnalysis]
    exact nodup_dominanceFrontiers _ T (fun x => by simp [hst.frontier_nil]) x
  · -- a walk passes only ancestors of reached blocks, and those are reached
    refine Array.eq_empty_iff_forall_not_mem.mpr fun y hy => hx ?_
    obtain ⟨-, -, p, hp, hxp, -⟩ := (hmem x y).mp hy
    have hpr := ((mem_reachedPreds hst).mp hp).2
    have hps := (hst.isSome_iff p).mpr ((hst.order.mem_iff p).mpr hpr)
    exact (hst.order.mem_iff x).mp ((hst.isSome_iff x).mp (hxp.isSome hst.idomTree hps))
  · rw [hmem]
    by_cases hy : g.Reaches e y
    · rw [climbs_iff hg hst hy, and_iff_right ((hst.order.mem_iff y).mpr hy)]
    · exact ⟨fun h => absurd ((hst.order.mem_iff y).mp h.1) hy, fun h => absurd h.1.1 hy⟩

/-- **The stored dominance frontiers.** On every well-formed graph with an entry, the analysis
stores frontiers without repeats, empty for the unreachable blocks, and equal to the dominance
frontiers, except that the entry is in none of them when exactly one in-edge from a reachable
block enters it (the pass skips every join with fewer than two such in-edges). -/
theorem analyzeDominators_frontier (hg : g.Wf) (he : g.entry = some e) (hlt : e < g.size) :
    FrontiersCorrect g e g.analyzeDominators.1 := by
  obtain ⟨rest, hspan, -, hst⟩ := stages hg hlt
  rw [analyzeDominators_eq he]
  simp only [hspan]
  exact hst.frontiers hg

/-- The frontiers of a loop with an exit, `0 → 1 → 2 → 1 → 3`. -/
theorem analyzeDominators_frontier_loop :
    (ofEdges 4 [(0, 1, {}), (1, 2, {}), (2, 1, {}), (1, 3, {})] (some 0)).Wf ∧
      (ofEdges 4 [(0, 1, {}), (1, 2, {}), (2, 1, {}), (1, 3, {})] (some 0)).entry = some 0 ∧
      0 < (ofEdges 4 [(0, 1, {}), (1, 2, {}), (2, 1, {}), (1, 3, {})] (some 0)).size ∧
      FrontiersCorrect (ofEdges 4 [(0, 1, {}), (1, 2, {}), (2, 1, {}), (1, 3, {})] (some 0)) 0
        (ofEdges 4 [(0, 1, {}), (1, 2, {}), (2, 1, {}), (1, 3, {})] (some 0)).analyzeDominators.1 :=
  ⟨ofEdges_wf 4 _ (some 0) (by decide), rfl, by decide,
    analyzeDominators_frontier (ofEdges_wf 4 _ (some 0) (by decide)) rfl (by decide)⟩

/-- On a self-loop at the entry, the entry is in its own dominance frontier, and the analysis
leaves its frontier empty. -/
theorem entry_selfLoop_frontier_empty :
    (ofEdges 1 [(0, 0, {})] (some 0)).InFrontier 0 0 0 ∧
      ((ofEdges 1 [(0, 0, {})] (some 0)).analyzeDominators.1.get 0).frontier = #[] :=
  ⟨⟨reaches_refl _ _, ⟨0, by decide, reaches_refl _ _, Dominates.refl _ _ _⟩, fun h => h.1 rfl⟩,
    by decide +kernel⟩

end BlockGraph

end MicroSsa
