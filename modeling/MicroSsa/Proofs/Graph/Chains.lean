import MicroSsa.Proofs.Graph.Rerun
import MicroSsa.Proofs.Graph.Frontier
/-!
# Dominator chains and the writes that reach a block

Dominance is a tree order: it is transitive (`Dominates.trans`), antisymmetric on reached blocks
(`Dominates.antisymm`), and the strict dominators of a block are the dominators of its immediate
dominator (`IsIdom.strictlyDominates_iff`). A graph the dominator analysis has run on, with no
edge into its entry, stores that tree (`BlockGraph.Analyzed`, `analyzeDominators_analyzed`):
following the stored immediate dominators up from a reached block lists exactly its dominators
(`BlockGraph.DomChain`), and the stored frontiers are the dominance frontiers.

The main result, `lastWhere_walk_eq_chain`, is the path form of the dominance frontier. Mark
some operations (the writes of one variable), and suppose that the dominance frontier of a block
holding a marked operation holds blocks with marked operations only. Then along every walk from
the entry, the last marked operation is the last marked operation of the dominator chain of the
block the walk ends at. Renaming reads stacks of writes kept along the dominator tree; this is
why what it reads is what every path delivers.
-/

namespace MicroSsa

/-- The last element of `L` that `w` marks. -/
def lastWhere (w : Nat → Bool) (L : List Nat) : Option Nat := (L.filter w).getLast?

theorem lastWhere_append (w : Nat → Bool) (L₁ L₂ : List Nat) :
    lastWhere w (L₁ ++ L₂) = (lastWhere w L₂).or (lastWhere w L₁) := by
  simp [lastWhere, List.filter_append, List.getLast?_append]

theorem lastWhere_eq_none_iff {w : Nat → Bool} {L : List Nat} :
    lastWhere w L = none ↔ ∀ o ∈ L, w o = false := by
  simp [lastWhere]

namespace BlockGraph

variable {g : BlockGraph} {e : Nat}

/-! ## Dominance is a tree order -/

theorem Walk.head? {b : Nat} {p : List Nat} (h : g.Walk e b p) : p.head? = some b := by
  cases h <;> rfl

/-- A walk through `a` begins with a walk to `a`: the blocks of the walk up to `a`, which the
list holds as a suffix. -/
theorem Walk.prefix {b : Nat} {p : List Nat} (h : g.Walk e b p) {a : Nat} (ha : a ∈ p) :
    ∃ q, g.Walk e a q ∧ q <:+ p := by
  induction h with
  | here =>
    rw [List.mem_singleton.mp ha]
    exact ⟨[e], .here, List.suffix_refl _⟩
  | step hp hcb ih =>
    rcases List.mem_cons.mp ha with rfl | ha
    · exact ⟨_, hp.step hcb, List.suffix_refl _⟩
    · obtain ⟨q, hq, hsuf⟩ := ih ha
      exact ⟨q, hq, hsuf.trans (List.suffix_cons _ _)⟩

theorem Dominates.trans {a b c : Nat} (hab : g.Dominates e a b) (hbc : g.Dominates e b c) :
    g.Dominates e a c := fun p hp => by
  obtain ⟨q, hq, hsuf⟩ := hp.prefix (hbc p hp)
  exact hsuf.subset (hab q hq)

/-- A dominator of a reached block is reached. -/
theorem Dominates.reaches {a b : Nat} (h : g.Dominates e a b) (hb : g.Reaches e b) :
    g.Reaches e a := by
  obtain ⟨p, hp⟩ := hb
  obtain ⟨q, hq, -⟩ := hp.prefix (h p hp)
  exact ⟨q, hq⟩

/-- Two blocks that dominate each other, one of them reached, are one block. -/
theorem Dominates.antisymm {a b : Nat} (hab : g.Dominates e a b) (hba : g.Dominates e b a)
    (hb : g.Reaches e b) : a = b := by
  by_contra hne
  -- cutting a walk to `b` at `a`, then at `b` again, gives a strictly shorter walk to `b`
  have hshorter : ∀ p, g.Walk e b p → ∃ p', g.Walk e b p' ∧ p'.length < p.length := by
    intro p hp
    obtain ⟨q, hq, hqp⟩ := hp.prefix (hab p hp)
    obtain ⟨r, hr, hrq⟩ := hq.prefix (hba q hq)
    have hlt : q.length < p.length := by
      refine lt_of_le_of_ne hqp.length_le fun hlen => hne ?_
      have hq' := hq.head?
      rw [hqp.eq_of_length hlen, hp.head?] at hq'
      exact (Option.some.inj hq').symm
    exact ⟨r, hr, lt_of_le_of_lt hrq.length_le hlt⟩
  have hnone : ∀ n p, p.length < n → ¬g.Walk e b p := by
    intro n
    induction n with
    | zero => intro p hp; omega
    | succ n ih =>
      intro p hlen hp
      obtain ⟨p', hp', hlt⟩ := hshorter p hp
      exact ih p' (by omega) hp'
  obtain ⟨p, hp⟩ := hb
  exact hnone _ p (Nat.lt_succ_self _) hp

/-- The strict dominators of a reached block are the dominators of its immediate dominator. -/
theorem IsIdom.strictlyDominates_iff {d b : Nat} (h : g.IsIdom e d b) (hb : g.Reaches e b)
    {x : Nat} : g.StrictlyDominates e x b ↔ g.Dominates e x d := by
  refine ⟨h.2 x, fun hxd => ⟨?_, hxd.trans h.1.2⟩⟩
  rintro rfl
  exact h.1.1 (h.1.2.antisymm hxd hb)

/-- A set of blocks closed under dominance frontiers: across an edge `P → c` into a block
outside it, its blocks that dominate `P` are exactly its blocks that strictly dominate `c`. A
block of the set that dominates `P` without strictly dominating `c` would put `c` in its
frontier. -/
theorem strictlyDominates_iff_of_edge (hg : g.Wf) {S : Nat → Prop}
    (hS : ∀ x y, S x → g.InFrontier e x y → S y) {P c : Nat} (hP : g.Reaches e P)
    (hPc : c ∈ g.succs P) (hc : ¬S c) {D : Nat} (hD : S D) :
    g.Dominates e D P ↔ g.StrictlyDominates e D c := by
  constructor
  · intro hDP
    by_contra hnot
    exact hc (hS D c hD ⟨hP.step hPc, ⟨P, hg.mem_preds.mpr hPc, hP, hDP⟩, hnot⟩)
  · intro hDc
    exact hDc.2.of_succ hDc.1 hPc

theorem inFrontier_congr {g' : BlockGraph} (hs : ∀ x, g'.succs x = g.succs x)
    (hp : ∀ x, g'.preds x = g.preds x) {X Y : Nat} :
    g'.InFrontier e X Y ↔ g.InFrontier e X Y := by
  unfold InFrontier
  simp only [reaches_congr hs, dominates_congr hs, strictlyDominates_congr hs, hp]

/-! ## Graphs the analysis has run on -/

/-- A graph with entry `e`, nothing entering the entry, whose stored dominator tree, depths,
frontiers and dead marks are the ones its paths define. -/
structure Analyzed (G : BlockGraph) (e : Nat) : Prop where
  wf : G.Wf
  entry_lt : e < G.size
  no_pred : G.preds e = []
  idom_entry : (G.get e).idom = none
  idom_reachable : ∀ b, G.Reaches e b → b ≠ e → ∃ d, (G.get b).idom = some d ∧ G.IsIdom e d b
  idom_unreachable : ∀ b, ¬G.Reaches e b → (G.get b).idom = none
  children_count : ∀ d b,
    (G.get d).children.toList.count b = if (G.get b).idom = some d then 1 else 0
  depth_eq : ∀ b, G.Reaches e b → ∃ l : List Nat, l.Nodup ∧
    (∀ a, a ∈ l ↔ G.StrictlyDominates e a b) ∧ (G.get b).depth = l.length
  dead_iff : ∀ b < G.size, ((G.get b).flags.dead = true ↔ ¬G.Reaches e b)
  frontier_iff : ∀ X Y, Y ∈ (G.get X).frontier ↔ G.InFrontier e X Y

theorem SameShape.succs_eq {g' : BlockGraph} (h : g.SameShape g') (x : Nat) :
    g.succs x = g'.succs x := by
  by_cases hx : x < g.size
  · have hout := congrArg (fun a => a.toList.map fun t => t.1) (h.block x hx).outs
    simpa [succs, Function.comp_def] using hout
  · rw [succs, succs, get_of_size_le (by omega), get_of_size_le (by rw [← h.size]; omega)]

theorem SameShape.preds_eq {g' : BlockGraph} (h : g.SameShape g') (x : Nat) :
    g.preds x = g'.preds x := by
  by_cases hx : x < g.size
  · simp [preds, (h.block x hx).ins]
  · rw [preds, preds, get_of_size_le (by omega), get_of_size_le (by rw [← h.size]; omega)]

/-- **The analysis stores the dominator tree of its graph.** Run on a well-formed graph whose
entry no edge enters, as block generation leaves every graph, the dominator analysis leaves an
analyzed graph. -/
theorem analyzeDominators_analyzed (hg : g.Wf) (he : g.entry = some e) (hlt : e < g.size)
    (hpre : g.preds e = []) : g.analyzeDominators.1.Analyzed e := by
  have hA := analyzeDominators_tree hg he hlt
  have hF := analyzeDominators_frontier hg he hlt
  have hsh := sameShape_analyzeDominators g
  -- the analysis keeps the edges, so the paths are those of `g`
  have hs := hsh.succs_eq
  have hp := hsh.preds_eq
  refine
    { wf := hg.congr hsh.size hs hp
      entry_lt := hsh.size ▸ hlt
      no_pred := (hp e).trans hpre
      idom_entry := hA.idom_entry
      idom_reachable := fun b hb hbe => ?_
      idom_unreachable := fun b hb => (hA.idom_unreachable b ((reaches_congr hs).not.mp hb)).1
      children_count := hA.children_count
      depth_eq := fun b hb => ?_
      dead_iff := fun b hb => ?_
      frontier_iff := fun X Y => ?_ }
  · obtain ⟨d, hd, hid⟩ := hA.idom_reachable b ((reaches_congr hs).mp hb) hbe
    exact ⟨d, hd, (isIdom_congr hs).mpr hid⟩
  · obtain ⟨l, hl, hmem, hdepth⟩ := hA.depth_eq b ((reaches_congr hs).mp hb)
    exact ⟨l, hl, fun a => (hmem a).trans (strictlyDominates_congr hs).symm, hdepth⟩
  · rw [reaches_congr hs]
    exact hA.dead_iff b (hsh.size ▸ hb)
  · -- with no edge into the entry, the frontier pass leaves out nothing
    rw [hF.mem_iff, inFrontier_congr hs hp, hpre]
    simp

/-- Changing the operations of the blocks keeps a graph analyzed. -/
theorem Analyzed.of_shape {G G' : BlockGraph} (h : G.Analyzed e) (hsize : G'.size = G.size)
    (hshape : ∀ b, { G'.get b with ops := #[] } = { G.get b with ops := #[] }) : G'.Analyzed e := by
  have hfield : ∀ {β : Type} (π : Block → β), (∀ blk : Block, π { blk with ops := #[] } = π blk) →
      ∀ b, π (G'.get b) = π (G.get b) := fun π hπ b => by
    rw [← hπ (G'.get b), hshape b, hπ]
  have hs : ∀ x, G'.succs x = G.succs x := fun x => by
    simp only [succs, hfield Block.outs fun _ => rfl]
  have hp : ∀ x, G'.preds x = G.preds x := fun x => by
    simp only [preds, hfield Block.ins fun _ => rfl]
  refine
    { wf := h.wf.congr hsize hs hp
      entry_lt := hsize ▸ h.entry_lt
      no_pred := (hp e).trans h.no_pred
      idom_entry := (hfield Block.idom fun _ => rfl) e ▸ h.idom_entry
      idom_reachable := fun b hb hbe => ?_
      idom_unreachable := fun b hb => ?_
      children_count := fun d b => ?_
      depth_eq := fun b hb => ?_
      dead_iff := fun b hb => ?_
      frontier_iff := fun X Y => ?_ }
  · obtain ⟨d, hd, hid⟩ := h.idom_reachable b ((reaches_congr hs).mp hb) hbe
    exact ⟨d, by rw [hfield Block.idom fun _ => rfl, hd], (isIdom_congr hs).mpr hid⟩
  · rw [hfield Block.idom fun _ => rfl]
    exact h.idom_unreachable b ((reaches_congr hs).not.mp hb)
  · rw [hfield Block.children fun _ => rfl, hfield Block.idom fun _ => rfl]
    exact h.children_count d b
  · obtain ⟨l, hl, hmem, hdepth⟩ := h.depth_eq b ((reaches_congr hs).mp hb)
    exact ⟨l, hl, fun a => (hmem a).trans (strictlyDominates_congr hs).symm,
      by rw [hfield Block.depth fun _ => rfl, hdepth]⟩
  · rw [hfield (fun blk => blk.flags.dead) fun _ => rfl, reaches_congr hs]
    exact h.dead_iff b (hsize ▸ hb)
  · rw [hfield Block.frontier fun _ => rfl, inFrontier_congr hs hp]
    exact h.frontier_iff X Y

/-! ## Dominator chains -/

/-- `G.DomChain e b q`: `q` lists the blocks met following the stored immediate dominators up
from `b` to the entry `e`, `b` first. -/
inductive DomChain (G : BlockGraph) (e : Nat) : Nat → List Nat → Prop
  | entry : DomChain G e e [e]
  | up {b d : Nat} {q : List Nat} : (G.get b).idom = some d → DomChain G e d q →
      DomChain G e b (b :: q)

/-- A chain starts at its block. -/
theorem DomChain.eq_cons {G : BlockGraph} {b : Nat} {q : List Nat} (hq : G.DomChain e b q) :
    q = b :: q.tail := by
  cases hq <;> rfl

/-- A chain that passes `b` after starting below it passes a block whose stored immediate
dominator is `b`. -/
theorem DomChain.exists_child {G : BlockGraph} {x b : Nat} {q : List Nat} (hq : G.DomChain e x q) (hb : b ∈ q)
    (hxb : x ≠ b) : ∃ c ∈ q, (G.get c).idom = some b := by
  induction hq with
  | entry => exact absurd (List.mem_singleton.mp hb).symm hxb
  | @up x d q hxd hq ih =>
    have hbq : b ∈ q := (List.mem_cons.mp hb).resolve_left (Ne.symm hxb)
    by_cases hdb : d = b
    · exact ⟨x, List.mem_cons_self, hdb ▸ hxd⟩
    · obtain ⟨c, hc, hcb⟩ := ih hbq hdb
      exact ⟨c, List.mem_cons_of_mem _ hc, hcb⟩

section Chains

variable {G : BlockGraph} (hA : G.Analyzed e)
include hA

/-- A block with a stored immediate dominator is a reached block other than the entry, and what
is stored is its immediate dominator. -/
theorem Analyzed.isIdom_of_idom {b d : Nat} (h : (G.get b).idom = some d) :
    G.Reaches e b ∧ b ≠ e ∧ G.IsIdom e d b := by
  have hb : G.Reaches e b := by
    by_contra hb
    rw [hA.idom_unreachable b hb] at h
    cases h
  have hbe : b ≠ e := by
    rintro rfl
    rw [hA.idom_entry] at h
    cases h
  obtain ⟨d', hd', hid⟩ := hA.idom_reachable b hb hbe
  rw [h] at hd'
  cases hd'
  exact ⟨hb, hbe, hid⟩

/-- The immediate dominator of a reached block is less deep. -/
theorem Analyzed.depth_lt {d b : Nat} (hid : G.IsIdom e d b) (hb : G.Reaches e b) :
    (G.get d).depth < (G.get b).depth := by
  obtain ⟨ld, hld, hmemd, hdd⟩ := hA.depth_eq d (hid.1.2.reaches hb)
  obtain ⟨lb, -, hmemb, hdb⟩ := hA.depth_eq b hb
  rw [hdd, hdb]
  -- the strict dominators of `d` are the strict dominators of `b` other than `d`
  have hsub : ld ⊆ lb.erase d := by
    intro x hx
    have hxd := (hmemd x).mp hx
    exact (List.mem_erase_of_ne hxd.1).mpr ((hmemb x).mpr ((hid.strictlyDominates_iff hb).mpr hxd.2))
  have hlen := (hld.subperm hsub).length_le
  have hdmem := (hmemb d).mpr hid.1
  rw [List.length_erase_of_mem hdmem] at hlen
  have := List.length_pos_of_mem hdmem
  omega

theorem DomChain.reaches {b : Nat} {q : List Nat} (hq : G.DomChain e b q) : G.Reaches e b := by
  cases hq with
  | entry => exact reaches_refl G e
  | up hd _ => exact (hA.isIdom_of_idom hd).1

/-- The chain of a block lists exactly its dominators. -/
theorem DomChain.mem_iff {b : Nat} {q : List Nat} (hq : G.DomChain e b q) {x : Nat} :
    x ∈ q ↔ G.Dominates e x b := by
  induction hq with
  | entry =>
    rw [List.mem_singleton]
    exact ⟨fun h => h ▸ Dominates.refl G e e, eq_of_dominates_entry⟩
  | @up b d q hd _ ih =>
    obtain ⟨hb, -, hid⟩ := hA.isIdom_of_idom hd
    rw [List.mem_cons, ih, ← hid.strictlyDominates_iff hb]
    constructor
    · rintro (rfl | h)
      · exact Dominates.refl G e x
      · exact h.2
    · intro h
      by_cases hx : x = b
      · exact .inl hx
      · exact .inr ⟨hx, h⟩

theorem DomChain.unique {b : Nat} {q q' : List Nat} (hq : G.DomChain e b q)
    (hq' : G.DomChain e b q') : q = q' := by
  induction hq generalizing q' with
  | entry =>
    cases hq' with
    | entry => rfl
    | up hd _ => rw [hA.idom_entry] at hd; cases hd
  | up hd _ ih =>
    cases hq' with
    | entry => rw [hA.idom_entry] at hd; cases hd
    | up hd' hq' =>
      rw [hd] at hd'
      cases hd'
      rw [ih hq']

/-- Every reached block has a chain: by induction on its depth. -/
theorem Analyzed.exists_domChain {b : Nat} (hb : G.Reaches e b) : ∃ q, G.DomChain e b q := by
  obtain ⟨n, hn⟩ : ∃ n, (G.get b).depth < n := ⟨_, Nat.lt_succ_self _⟩
  induction n generalizing b with
  | zero => omega
  | succ n ih =>
    by_cases hbe : b = e
    · subst hbe
      exact ⟨[b], .entry⟩
    · obtain ⟨d, hd, hid⟩ := hA.idom_reachable b hb hbe
      have hdb := hA.depth_lt hid hb
      obtain ⟨q, hq⟩ := ih (hid.1.2.reaches hb) (by omega)
      exact ⟨b :: q, .up hd hq⟩

/-- The chain of a dominator `d` of `P` is the end of the chain of `P`; the blocks in front of
it are strictly dominated by `d`. -/
theorem DomChain.suffix_of_dominates {P d : Nat} {qP qd : List Nat} (hP : G.DomChain e P qP)
    (hd : G.DomChain e d qd) (hdP : G.Dominates e d P) :
    ∃ extra, qP = extra ++ qd ∧ ∀ x ∈ extra, G.StrictlyDominates e d x := by
  induction hP with
  | entry =>
    obtain rfl := eq_of_dominates_entry hdP
    exact ⟨[], by rw [hd.unique hA .entry]; rfl, by simp⟩
  | @up b p q hbp hq ih =>
    by_cases hdb : d = b
    · subst hdb
      exact ⟨[], (hd.unique hA (.up hbp hq)).symm, by simp⟩
    · obtain ⟨hb, -, hid⟩ := hA.isIdom_of_idom hbp
      obtain ⟨extra, rfl, hx⟩ := ih ((hid.strictlyDominates_iff hb).mp ⟨hdb, hdP⟩)
      refine ⟨b :: extra, rfl, fun x hxm => ?_⟩
      rcases List.mem_cons.mp hxm with rfl | hxm
      · exact ⟨hdb, hdP⟩
      · exact hx x hxm

theorem DomChain.nodup {b : Nat} {q : List Nat} (hq : G.DomChain e b q) : q.Nodup := by
  induction hq with
  | entry => simp
  | @up b d q hd hq ih =>
    obtain ⟨hb, -, hid⟩ := hA.isIdom_of_idom hd
    -- `b` would dominate its own immediate dominator
    refine List.nodup_cons.mpr ⟨fun hbq => hid.1.1 (hid.1.2.antisymm ((hq.mem_iff hA).mp hbq) hb), ih⟩

/-- A chain passes each block of the graph at most once. -/
theorem DomChain.length_le {b : Nat} {q : List Nat} (hq : G.DomChain e b q) :
    q.length ≤ G.size := by
  have hsub : q ⊆ List.range G.size := fun x hx =>
    List.mem_range.mpr ((((hq.mem_iff hA).mp hx).reaches (hq.reaches hA)).lt_size hA.wf hA.entry_lt)
  simpa using ((hq.nodup hA).subperm hsub).length_le

/-- A chain through a block with a stored immediate dominator goes on through that dominator. -/
theorem DomChain.mem_of_idom {x c b : Nat} {q : List Nat} (hq : G.DomChain e x q) (hc : c ∈ q)
    (hcb : (G.get c).idom = some b) : b ∈ q := by
  induction hq with
  | entry =>
    rw [List.mem_singleton.mp hc, hA.idom_entry] at hcb
    cases hcb
  | @up x d q hxd hq ih =>
    rcases List.mem_cons.mp hc with rfl | hc
    · rw [hxd] at hcb
      cases hcb
      rw [hq.eq_cons]
      exact List.mem_cons_of_mem _ List.mem_cons_self
    · exact List.mem_cons_of_mem _ (ih hc)

/-- The blocks of a chain are ordered by dominance. -/
theorem DomChain.dominates_total {x u w : Nat} {q : List Nat} (hq : G.DomChain e x q) (hu : u ∈ q)
    (hw : w ∈ q) : G.Dominates e u w ∨ G.Dominates e w u := by
  induction hq with
  | entry =>
    rw [List.mem_singleton.mp hu, List.mem_singleton.mp hw]
    exact .inl (Dominates.refl G _ _)
  | @up x d q hxd hq ih =>
    rcases List.mem_cons.mp hu with rfl | hu'
    · exact .inr (((DomChain.up hxd hq).mem_iff hA).mp hw)
    · rcases List.mem_cons.mp hw with rfl | hw'
      · exact .inl (((DomChain.up hxd hq).mem_iff hA).mp (List.mem_cons_of_mem _ hu'))
      · exact ih hu' hw'

/-! ## Dominator subtrees -/

theorem Analyzed.mem_children_iff {d b : Nat} :
    d ∈ (G.get b).children ↔ (G.get d).idom = some b := by
  rw [← Array.mem_toList_iff, ← List.count_pos_iff, hA.children_count]
  split <;> simp_all

theorem Analyzed.children_nodup (b : Nat) : (G.get b).children.toList.Nodup := by
  refine List.nodup_iff_count_le_one.mpr fun d => ?_
  rw [hA.children_count]
  split <;> simp

/-- The chain of `c` passes `b`: `c` lies in the dominator subtree of `b`. -/
def Below (G : BlockGraph) (e b c : Nat) : Prop := ∃ q, G.DomChain e c q ∧ b ∈ q

omit hA in
theorem DomChain.below_self {b : Nat} {q : List Nat} (hq : G.DomChain e b q) : G.Below e b b :=
  ⟨q, hq, by rw [hq.eq_cons]; exact List.mem_cons_self⟩

/-- The subtree of a child lies in the subtree of its parent. -/
theorem Below.of_child {b d c : Nat} (hd : d ∈ (G.get b).children) (h : G.Below e d c) :
    G.Below e b c := by
  obtain ⟨q, hq, hdq⟩ := h
  exact ⟨q, hq, hq.mem_of_idom hA hdq ((hA.mem_children_iff).mp hd)⟩

/-- The subtree of a block is the block and the subtrees of its children. -/
theorem below_iff {b c : Nat} (hb : G.Reaches e b) :
    G.Below e b c ↔ c = b ∨ ∃ d ∈ (G.get b).children, G.Below e d c := by
  constructor
  · rintro ⟨q, hq, hbq⟩
    by_cases hcb : c = b
    · exact .inl hcb
    · obtain ⟨d, hdq, hdb⟩ := hq.exists_child hbq hcb
      exact .inr ⟨d, (hA.mem_children_iff).mpr hdb, q, hq, hdq⟩
  · rintro (rfl | ⟨d, hd, h⟩)
    · obtain ⟨q, hq⟩ := hA.exists_domChain hb
      exact hq.below_self
    · exact h.of_child hA hd

/-- A child's subtree does not hold its parent. -/
theorem Below.not_parent {b d : Nat} (hd : d ∈ (G.get b).children) : ¬G.Below e d b := by
  rintro ⟨q, hq, hdq⟩
  obtain ⟨hdr, -, hid⟩ := hA.isIdom_of_idom ((hA.mem_children_iff).mp hd)
  exact hid.1.1 (hid.1.2.antisymm ((hq.mem_iff hA).mp hdq) hdr)

/-- The subtrees of two children are disjoint. -/
theorem Below.disjoint {b d d' c : Nat} (hd : d ∈ (G.get b).children)
    (hd' : d' ∈ (G.get b).children) (hne : d ≠ d') (h : G.Below e d c) (h' : G.Below e d' c) :
    False := by
  obtain ⟨q, hq, hdq⟩ := h
  obtain ⟨q', hq', hdq'⟩ := h'
  rw [hq'.unique hA hq] at hdq'
  obtain ⟨hdr, -, hid⟩ := hA.isIdom_of_idom ((hA.mem_children_iff).mp hd)
  obtain ⟨hdr', -, hid'⟩ := hA.isIdom_of_idom ((hA.mem_children_iff).mp hd')
  -- of two children on one chain, the upper would dominate the parent of the lower
  have key : ∀ u w : Nat, G.IsIdom e b u → G.Reaches e u → G.IsIdom e b w → G.Reaches e w →
      u ≠ w → G.Dominates e u w → False := fun u w hu hur hw hwr huw hdom => by
    have hub : G.Dominates e u b := (hw.strictlyDominates_iff hwr).mp ⟨huw, hdom⟩
    exact hu.1.1 (hu.1.2.antisymm hub hur)
  rcases hq.dominates_total hA hdq hdq' with hdom | hdom
  · exact key d d' hid hdr hid' hdr' hne hdom
  · exact key d' d hid' hdr' hid hdr (Ne.symm hne) hdom

/-- The subtree of the entry holds exactly the reached blocks. -/
theorem below_entry_iff {c : Nat} : G.Below e e c ↔ G.Reaches e c := by
  constructor
  · rintro ⟨q, hq, -⟩
    exact hq.reaches hA
  · intro hc
    obtain ⟨q, hq⟩ := hA.exists_domChain hc
    exact ⟨q, hq, (hq.mem_iff hA).mpr (dominates_entry G e c)⟩

end Chains

/-! ## The last mark along a walk -/

/-- Nothing enters the entry. -/
theorem Analyzed.ne_entry_of_succ {G : BlockGraph} (hA : G.Analyzed e) {P c : Nat}
    (hPc : c ∈ G.succs P) : c ≠ e := by
  rintro rfl
  have hmem := hA.wf.mem_preds.mpr hPc
  rw [hA.no_pred] at hmem
  cases hmem

/-- The operations of the blocks `bs` (the last block first, as walks and chains list them), in
the order a run through the blocks meets them. -/
def runOps (G : BlockGraph) (bs : List Nat) : List Nat :=
  bs.reverse.flatMap fun c => (G.get c).ops.toList

@[simp] theorem runOps_nil (G : BlockGraph) : G.runOps [] = [] := rfl

@[simp] theorem runOps_cons (G : BlockGraph) (c : Nat) (bs : List Nat) :
    G.runOps (c :: bs) = G.runOps bs ++ (G.get c).ops.toList := by
  simp [runOps]

theorem runOps_append (G : BlockGraph) (bs cs : List Nat) :
    G.runOps (bs ++ cs) = G.runOps cs ++ G.runOps bs := by
  simp [runOps]

theorem mem_runOps {G : BlockGraph} {bs : List Nat} {o : Nat} :
    o ∈ G.runOps bs ↔ ∃ c ∈ bs, o ∈ (G.get c).ops.toList := by
  simp [runOps]

/-- **The last mark along a walk is the last mark along the dominator chain.** Let `w` mark
operations so that the dominance frontier of a block holding a marked operation holds only
blocks that hold one. Then every walk from the entry to `c` meets, last, the marked operation
that the chain of `c` meets last (or none, if the chain meets none).

By induction on the walk: across its last edge `P → c`, either `c` holds a mark, which decides
both sides, or the chain of `P` is that of the immediate dominator of `c` with blocks in front
that hold no mark, since a marked block dominating `P` strictly dominates `c`. -/
theorem lastWhere_walk_eq_chain {G : BlockGraph} (hA : G.Analyzed e) (w : Nat → Bool)
    (hS : ∀ x y, (∃ o ∈ (G.get x).ops.toList, w o = true) → G.InFrontier e x y →
      ∃ o ∈ (G.get y).ops.toList, w o = true) :
    ∀ {c : Nat} {p : List Nat}, G.Walk e c p → ∀ {q : List Nat}, G.DomChain e c q →
      lastWhere w (G.runOps p) = lastWhere w (G.runOps q) := by
  intro c p hp
  induction hp with
  | here =>
    intro q hq
    rw [hq.unique hA .entry]
  | @step P c p hp hPc ih =>
    intro q hq
    have hce := hA.ne_entry_of_succ hPc
    have hc : G.Reaches e c := hp.reaches.step hPc
    obtain ⟨d, hd, hid⟩ := hA.idom_reachable c hc hce
    cases hq with
    | entry => exact absurd rfl hce
    | @up _ d' qd hd' hqd =>
      rw [hd] at hd'
      cases hd'
      obtain ⟨qP, hqP⟩ := hA.exists_domChain hp.reaches
      rw [runOps_cons, runOps_cons, lastWhere_append, lastWhere_append, ih hqP]
      cases hlast : lastWhere w (G.get c).ops.toList with
      | some o => rfl
      | none =>
        have hnc : ¬∃ o ∈ (G.get c).ops.toList, w o = true := fun ⟨o, ho, hwo⟩ => by
          rw [lastWhere_eq_none_iff.mp hlast o ho] at hwo
          cases hwo
        -- the chain of `P` is that of `d` with unmarked blocks in front
        obtain ⟨extra, rfl, hextra⟩ :=
          hqP.suffix_of_dominates hA hqd (hid.1.2.of_succ hid.1.1 hPc)
        have hnone : lastWhere w (G.runOps extra) = none := by
          refine lastWhere_eq_none_iff.mpr fun o ho => ?_
          obtain ⟨x, hx, hox⟩ := mem_runOps.mp ho
          by_contra hwo
          -- a marked block dominating `P` strictly dominates `c`, so it dominates `d`
          have hxP : G.Dominates e x P := (hqP.mem_iff hA).mp (List.mem_append_left _ hx)
          have hxc := (strictlyDominates_iff_of_edge (S := fun x => ∃ o ∈ (G.get x).ops.toList,
            w o = true) hA.wf hS hp.reaches hPc hnc ⟨o, hox, by simpa using hwo⟩).mp hxP
          have hxd := (hid.strictlyDominates_iff hc).mp hxc
          exact (hextra x hx).1 ((hextra x hx).2.antisymm hxd (hxP.reaches hp.reaches))
        rw [runOps_append, lastWhere_append, hnone, Option.none_or]

/-- **The last mark before an operation.** Let the frontier blocks of a block holding a marked
operation hold a marked operation among those that open them, `T y`. Then along every walk from
the entry to `c`, cut inside `c` after a run `pre` that holds what opens `c`, the last marked
operation is the last one of the dominator chain of `c`, cut the same way.

If `pre` holds a mark, it decides both sides. If not, no frontier block of a marked block is
`c`: so, across the last edge `P → c` of the walk, a marked block on the chain of `P` strictly
dominates `c`, and the chain of `P` is that of the immediate dominator of `c` with unmarked
blocks in front. -/
theorem lastWhere_walk_before {G : BlockGraph} (hA : G.Analyzed e) (w : Nat → Bool)
    (T : Nat → List Nat) (hT : ∀ y, T y ⊆ (G.get y).ops.toList)
    (hS : ∀ x y, (∃ o ∈ (G.get x).ops.toList, w o = true) → G.InFrontier e x y →
      ∃ o ∈ T y, w o = true)
    {c : Nat} {p : List Nat} (hp : G.Walk e c p) {q : List Nat} (hq : G.DomChain e c q)
    {pre : List Nat} (hpre : T c ⊆ pre) :
    lastWhere w (G.runOps p.tail ++ pre) = lastWhere w (G.runOps q.tail ++ pre) := by
  rw [lastWhere_append, lastWhere_append]
  cases hlast : lastWhere w pre with
  | some o => rfl
  | none =>
    have hnc : ¬∃ o ∈ T c, w o = true := fun ⟨o, ho, hwo⟩ => by
      rw [lastWhere_eq_none_iff.mp hlast o (hpre ho)] at hwo
      cases hwo
    simp only [Option.none_or]
    cases hp with
    | here => rw [hq.unique hA .entry]
    | @step P _ p hp hPc =>
      have hc : G.Reaches e c := hp.reaches.step hPc
      obtain ⟨d, hd, hid⟩ := hA.idom_reachable c hc (hA.ne_entry_of_succ hPc)
      cases hq with
      | entry => exact absurd rfl (hA.ne_entry_of_succ hPc)
      | @up _ d' qd hd' hqd =>
        rw [hd] at hd'
        cases hd'
        obtain ⟨qP, hqP⟩ := hA.exists_domChain hp.reaches
        have hS' : ∀ x y, (∃ o ∈ (G.get x).ops.toList, w o = true) → G.InFrontier e x y →
            ∃ o ∈ (G.get y).ops.toList, w o = true := fun x y hx hxy =>
          (hS x y hx hxy).imp fun o ho => ⟨hT y ho.1, ho.2⟩
        rw [List.tail_cons, List.tail_cons, lastWhere_walk_eq_chain hA w hS' hp hqP]
        obtain ⟨extra, rfl, hextra⟩ :=
          hqP.suffix_of_dominates hA hqd (hid.1.2.of_succ hid.1.1 hPc)
        have hnone : lastWhere w (G.runOps extra) = none := by
          refine lastWhere_eq_none_iff.mpr fun o ho => ?_
          obtain ⟨x, hx, hox⟩ := mem_runOps.mp ho
          by_contra hwo
          have hxP : G.Dominates e x P := (hqP.mem_iff hA).mp (List.mem_append_left _ hx)
          -- a marked block dominating `P` strictly dominates `c`, so it dominates `d`
          have hxc : G.StrictlyDominates e x c := by
            by_contra hxc
            exact hnc (hS x c ⟨o, hox, by simpa using hwo⟩
              ⟨hc, ⟨P, hA.wf.mem_preds.mpr hPc, hp.reaches, hxP⟩, hxc⟩)
          have hxd := (hid.strictlyDominates_iff hc).mp hxc
          exact (hextra x hx).1 ((hextra x hx).2.antisymm hxd (hxP.reaches hp.reaches))
        rw [runOps_append, lastWhere_append, hnone, Option.none_or]

end BlockGraph

end MicroSsa
