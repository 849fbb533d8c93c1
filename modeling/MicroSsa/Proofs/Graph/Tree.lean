import MicroSsa.Proofs.Graph.Iteration
/-!
# The stored dominator tree

`BlockGraph.buildTree` stores the immediate dominators on the blocks, in the order of visit:
each block after the entry gets its dominator and a depth one more than the dominator's, and
joins the dominator's children. `StoresTree` says what the stored fields then are, as a function
of the pointer array (`buildTree_stores`); since a dominator comes before the blocks it
dominates, the depth it reads is already final.

From it, with the pointers forming a tree ordered by reverse postorder (`IdomTree`):

* `StoresTree.depth_chain` — the depth of a block is the number of its strict ancestors;
* `StoresTree.count_children` — the children of `d` are the blocks whose stored dominator is
  `d`, each once;
* `StoresTree.dominates_iff` — `BlockGraph.dominates`, which walks up the stored dominators and
  gives up at the depth of the block it looks for, answers ancestry.
-/

namespace MicroSsa

namespace BlockGraph

/-- One step of `buildTree`: store the dominator and depth of `b`, and add `b` to the
dominator's children. -/
def treeStep (idom : Array (Option Nat)) (g : BlockGraph) (b : Nat) : BlockGraph :=
  match idom[b]?.join with
  | some d =>
    let depth := (g.get d).depth + 1
    let g := g.modify b fun blk => { blk with idom := some d, depth := depth }
    g.modify d fun blk => { blk with children := blk.children.push b }
  | none => g

theorem buildTree_eq (g : BlockGraph) (rest : List Nat) (idom : Array (Option Nat)) :
    g.buildTree rest idom = rest.foldl (treeStep idom) g := rfl

@[simp] theorem size_treeStep (idom : Array (Option Nat)) (g : BlockGraph) (b : Nat) :
    (treeStep idom g b).size = g.size := by
  unfold treeStep
  split <;> simp

section Frame

variable {β : Type} (π : Block → β)
  (h₁ : ∀ blk d k, π { blk with idom := some d, depth := k } = π blk)
  (h₂ : ∀ blk c, π { blk with children := blk.children.push c } = π blk)
include h₁ h₂

/-- A part of the blocks that neither the dominator, the depth nor the children touch is
kept by a step. -/
theorem treeStep_get_eq (idom : Array (Option Nat)) (g : BlockGraph) (b x : Nat) :
    π ((treeStep idom g b).get x) = π (g.get x) := by
  unfold treeStep
  split
  · rw [modify_get_eq π (fun blk => h₂ blk b), modify_get_eq π (fun blk => h₁ blk _ _)]
  · rfl

theorem buildTree_get_eq (idom : Array (Option Nat)) (rest : List Nat) :
    ∀ (g : BlockGraph) (x : Nat), π ((g.buildTree rest idom).get x) = π (g.get x) := by
  induction rest with
  | nil => intro g x; rfl
  | cons b rest ih =>
    intro g x
    rw [buildTree_eq, List.foldl_cons, ← buildTree_eq, ih, treeStep_get_eq π h₁ h₂]

end Frame

@[simp] theorem size_buildTree (g : BlockGraph) (rest : List Nat) (idom : Array (Option Nat)) :
    (g.buildTree rest idom).size = g.size := by
  rw [buildTree_eq]
  induction rest generalizing g with
  | nil => rfl
  | cons b rest ih => rw [List.foldl_cons, ih, size_treeStep]

/-- `g` stores the tree of the pointers `idom` over the blocks `rest`: their pointers as
dominators and nothing for the other blocks; depth `0` off `rest`, and on `rest` one more than
the dominator's; as children of `d` the blocks of `rest` pointing to `d`, in order. -/
structure StoresTree (g : BlockGraph) (rest : List Nat) (idom : Array (Option Nat)) : Prop where
  idom_eq : ∀ x, (g.get x).idom = if x ∈ rest then idom[x]?.join else none
  depth_out : ∀ x, x ∉ rest → (g.get x).depth = 0
  depth_succ : ∀ x ∈ rest, ∀ d, idom[x]?.join = some d → (g.get x).depth = (g.get d).depth + 1
  children_eq : ∀ d, (g.get d).children.toList = rest.filter fun b => idom[b]?.join = some d

namespace StoresTree

variable {g : BlockGraph} {rest : List Nat} {idom : Array (Option Nat)}

/-- The stored tree depends on the dominators, depths and children only. -/
theorem congr {g' : BlockGraph} (hs : StoresTree g rest idom)
    (h : ∀ x, (g'.get x).idom = (g.get x).idom ∧ (g'.get x).depth = (g.get x).depth ∧
      (g'.get x).children = (g.get x).children) : StoresTree g' rest idom where
  idom_eq x := (h x).1.trans (hs.idom_eq x)
  depth_out x hx := (h x).2.1.trans (hs.depth_out x hx)
  depth_succ x hx d hd := by rw [(h x).2.1, (h d).2.1]; exact hs.depth_succ x hx d hd
  children_eq d := by rw [(h d).2.2]; exact hs.children_eq d

/-- A graph with no stored tree stores the empty one. -/
theorem nil (h : ∀ x, (g.get x).idom = none ∧ (g.get x).depth = 0 ∧ (g.get x).children = #[]) :
    StoresTree g [] idom where
  idom_eq x := by simp [(h x).1]
  depth_out x _ := (h x).2.1
  depth_succ x hx := by simp at hx
  children_eq d := by simp [(h d).2.2]

/-- **The step lemma of `buildTree`.** Storing the block `b`, which points to an earlier `d`
and to which no stored block points, extends the stored tree by `b`. -/
theorem step (hs : StoresTree g rest idom) {b d : Nat} (hbd : idom[b]?.join = some d)
    (hb : b ∉ rest) (hdb : d ≠ b) (hfresh : ∀ x ∈ rest, idom[x]?.join ≠ some b)
    (hbs : b < g.size) (hds : d < g.size) : StoresTree (treeStep idom g b) (rest ++ [b]) idom := by
  have hstep : treeStep idom g b = (g.modify b fun blk =>
      { blk with idom := some d, depth := (g.get d).depth + 1 }).modify d
      fun blk => { blk with children := blk.children.push b } := by
    simp only [treeStep, hbd]
  -- the three kinds of blocks after the step
  have hget_b : (treeStep idom g b).get b =
      { g.get b with idom := some d, depth := (g.get d).depth + 1 } := by
    rw [hstep, get_modify_ne _ _ hdb, get_modify, if_pos ⟨rfl, hbs⟩]
  have hget_d : (treeStep idom g b).get d =
      { g.get d with children := (g.get d).children.push b } := by
    rw [hstep, get_modify, if_pos ⟨rfl, by simpa using hds⟩, get_modify_ne _ _ (Ne.symm hdb)]
  have hget : ∀ x, x ≠ b → x ≠ d → (treeStep idom g b).get x = g.get x := by
    intro x hxb hxd
    rw [hstep, get_modify_ne _ _ (Ne.symm hxd), get_modify_ne _ _ (Ne.symm hxb)]
  -- the dominator and the depth of every block but `b` are kept
  have hkeep : ∀ x, x ≠ b → ((treeStep idom g b).get x).idom = (g.get x).idom ∧
      ((treeStep idom g b).get x).depth = (g.get x).depth := by
    intro x hxb
    by_cases hxd : x = d
    · subst hxd
      rw [hget_d]
      exact ⟨rfl, rfl⟩
    · rw [hget x hxb hxd]
      exact ⟨rfl, rfl⟩
  refine ⟨fun x => ?_, fun x hx => ?_, fun x hx d' hd' => ?_, fun d₀ => ?_⟩
  · by_cases hxb : x = b
    · subst hxb
      rw [hget_b]
      simp [hbd]
    · rw [(hkeep x hxb).1, hs.idom_eq x]
      simp [hxb]
  · have hxb : x ≠ b := fun h => hx (by simp [h])
    rw [(hkeep x hxb).2]
    exact hs.depth_out x (fun h => hx (List.mem_append_left _ h))
  · by_cases hxb : x = b
    · subst hxb
      rw [hbd] at hd'
      cases hd'
      rw [hget_b, (hkeep d hdb).2]
    · have hxr : x ∈ rest := by simpa [hxb] using hx
      have hd'b : d' ≠ b := fun h => hfresh x hxr (h ▸ hd')
      rw [(hkeep x hxb).2, (hkeep d' hd'b).2]
      exact hs.depth_succ x hxr d' hd'
  · rw [List.filter_append, ← hs.children_eq d₀]
    by_cases hd₀ : d₀ = d
    · subst hd₀
      rw [hget_d]
      simp [hbd]
    · have hnot : ¬idom[b]?.join = some d₀ := by
        rw [hbd]
        exact fun h => hd₀ (Option.some.inj h).symm
      by_cases hd₀b : d₀ = b
      · subst hd₀b
        rw [hget_b]
        simp [hnot]
      · rw [hget d₀ hd₀b hd₀]
        simp [hnot]

end StoresTree

/-- **`buildTree` stores the tree.** Over an order of visit `e :: rest` without repeats in
which every block after the entry points to an earlier block, a graph with no stored tree gets
the tree of the pointers. -/
theorem buildTree_stores {e : Nat} {rest : List Nat} {idom : Array (Option Nat)}
    (hnd : (e :: rest).Nodup)
    (hptr : ∀ b ∈ rest, ∃ d, idom[b]?.join = some d ∧ (e :: rest).idxOf d < (e :: rest).idxOf b)
    {g : BlockGraph} (hlt : ∀ v ∈ e :: rest, v < g.size)
    (hclear : ∀ x, (g.get x).idom = none ∧ (g.get x).depth = 0 ∧ (g.get x).children = #[]) :
    StoresTree (g.buildTree rest idom) rest idom := by
  -- the run lemma: the order split as `done ++ todo`, the blocks of `done` stored
  have hrun : ∀ (todo done : List Nat) (g' : BlockGraph), rest = done ++ todo →
      g'.size = g.size → StoresTree g' done idom → StoresTree (todo.foldl (treeStep idom) g') rest idom := by
    intro todo
    induction todo with
    | nil =>
      intro done g' hsplit _ hs
      rw [List.append_nil] at hsplit
      subst hsplit
      exact hs
    | cons b todo ih =>
      intro done g' hsplit hsize hs
      have hl : e :: rest = (e :: done) ++ (b :: todo) := by simp [hsplit]
      have hndl := hnd
      rw [hl] at hndl
      -- a block of `e :: done` comes before every block of `b :: todo`
      have hbefore : ∀ x ∈ e :: done, ∀ y ∈ b :: todo, (e :: rest).idxOf x < (e :: rest).idxOf y := by
        intro x hx y hy
        have hyx : y ∉ e :: done := fun hy' => (List.nodup_append.mp hndl).2.2 y hy' y hy rfl
        rw [hl, List.idxOf_append, List.idxOf_append, if_pos hx, if_neg hyx]
        have := List.idxOf_lt_length_of_mem hx
        omega
      have hbr : b ∈ rest := by simp [hsplit]
      obtain ⟨d, hbd, hidx⟩ := hptr b hbr
      have hdmem : d ∈ e :: rest := List.idxOf_lt_length_iff.mp
        (Nat.lt_of_lt_of_le hidx List.idxOf_le_length)
      have hdb : d ≠ b := fun h => by rw [h] at hidx; omega
      have hb : b ∉ done := fun h => (List.nodup_append.mp hndl).2.2 b
        (List.mem_cons_of_mem e h) b List.mem_cons_self rfl
      have hfresh : ∀ x ∈ done, idom[x]?.join ≠ some b := by
        intro x hx hxb
        obtain ⟨d', hd', hidx'⟩ := hptr x (by simp [hsplit, hx])
        rw [hxb] at hd'
        cases hd'
        have := hbefore x (List.mem_cons_of_mem e hx) b List.mem_cons_self
        omega
      have hs' := hs.step hbd hb hdb hfresh (hsize ▸ hlt b (List.mem_cons_of_mem e hbr))
        (hsize ▸ hlt d hdmem)
      rw [List.foldl_cons]
      exact ih (done ++ [b]) _ (by simp [hsplit]) (by simp [hsize]) hs'
  exact hrun rest [] g (by simp) rfl (StoresTree.nil hclear)

namespace StoresTree

variable {g : BlockGraph} {e : Nat} {rest : List Nat} {idom : Array (Option Nat)}
  {rpoNum : Array Nat}

/-- The pointer of a block after the entry. -/
theorem ptr_of_mem (ht : IdomTree idom rpoNum e)
    (hmem : ∀ v, (idom[v]?.join).isSome ↔ v ∈ e :: rest) (hnd : (e :: rest).Nodup) {x : Nat} (hx : x ∈ rest) : ∃ d, idom[x]?.join = some d ∧ d ∈ e :: rest ∧
    rank rpoNum d < rank rpoNum x := by
  have hxe : x ≠ e := fun h => (List.nodup_cons.mp hnd).1 (h ▸ hx)
  obtain ⟨d, hd⟩ := Option.isSome_iff_exists.mp ((hmem x).mpr (List.mem_cons_of_mem e hx))
  exact ⟨d, hd, (hmem d).mp (ht.target hd), ht.rank_lt hxe hd⟩

section Tree

variable (hs : StoresTree g rest idom) (ht : IdomTree idom rpoNum e)
  (hmem : ∀ v, (idom[v]?.join).isSome ↔ v ∈ e :: rest) (hnd : (e :: rest).Nodup)
include hs ht hmem hnd

/-- Depths grow strictly down the tree. -/
theorem depth_lt {a x : Nat} (hax : Ancestor idom a x) (hne : a ≠ x) :
    (g.get a).depth < (g.get x).depth := by
  induction hax with
  | refl => exact absurd rfl hne
  | @up x c hc hac ih =>
    have hxs : (idom[x]?.join).isSome := by simp [hc]
    by_cases hxe : x = e
    · subst hxe
      rw [ht.entry] at hc
      cases hc
      exact absurd (hac.eq_of_entry ht) hne
    · have hxr : x ∈ rest := Numbering.mem_rest ((hmem x).mp hxs) hxe
      rw [hs.depth_succ x hxr c hc]
      by_cases hac' : a = c
      · subst hac'
        omega
      · have := ih hac'
        omega

/-- **The depth counts the strict ancestors.** -/
theorem depth_chain : ∀ x ∈ e :: rest, ∃ L : List Nat, L.Nodup ∧
    (∀ y, y ∈ L ↔ Ancestor idom y x ∧ y ≠ x) ∧ (g.get x).depth = L.length := by
  -- by induction on the number of the block: its dominator has a smaller one
  suffices h : ∀ n x, rank rpoNum x < n → x ∈ e :: rest → ∃ L : List Nat, L.Nodup ∧
      (∀ y, y ∈ L ↔ Ancestor idom y x ∧ y ≠ x) ∧ (g.get x).depth = L.length from
    fun x hx => h _ x (Nat.lt_succ_self _) hx
  intro n
  induction n with
  | zero => intro x hx; omega
  | succ n ih =>
    intro x hxn hx
    by_cases hxe : x = e
    · subst hxe
      refine ⟨[], List.nodup_nil, fun y => ?_, ?_⟩
      · simp only [List.not_mem_nil, false_iff, not_and]
        exact fun hy hne => hne (hy.eq_of_entry ht)
      · exact hs.depth_out x (List.nodup_cons.mp hnd).1
    · have hxr := Numbering.mem_rest hx hxe
      obtain ⟨d, hd, hdmem, hdrank⟩ := ptr_of_mem ht hmem hnd hxr
      obtain ⟨L, hL, hLmem, hLlen⟩ := ih d (by omega) hdmem
      have hdx : d ≠ x := fun h => by rw [h] at hdrank; omega
      refine ⟨d :: L, List.nodup_cons.mpr ⟨fun h => ((hLmem d).mp h).2 rfl, hL⟩, fun y => ?_, ?_⟩
      · rw [List.mem_cons, hLmem]
        constructor
        · rintro (rfl | ⟨hyd, _⟩)
          · exact ⟨Ancestor.parent hd, hdx⟩
          · refine ⟨.up hd hyd, fun hyx => ?_⟩
            subst hyx
            exact hdx (Ancestor.antisymm ht (Ancestor.parent hd) hyd)
        · rintro ⟨hyx, hne⟩
          by_cases hyd : y = d
          · exact Or.inl hyd
          · exact Or.inr ⟨hyx.of_up hne hd, hyd⟩
      · rw [hs.depth_succ x hxr d hd, hLlen, List.length_cons]

/-- The walk of `dominatesFrom` from a block `cur` with depth below the fuel answers whether
`a` is an ancestor of `cur`. -/
theorem dominatesFrom_iff {a : Nat} (ha : a ∈ e :: rest) :
    ∀ (fuel cur : Nat), cur ∈ e :: rest → (g.get cur).depth < fuel →
      (g.dominatesFrom a (g.get a).depth fuel cur = true ↔ Ancestor idom a cur) := by
  intro fuel
  induction fuel with
  | zero => intro _ _ h; omega
  | succ fuel ih =>
    intro cur hcur hfuel
    unfold dominatesFrom
    by_cases hca : cur = a
    · subst hca
      simp only [if_true, true_iff]
      exact .refl _
    · simp only [hca, if_false]
      by_cases hdep : (g.get cur).depth ≤ (g.get a).depth
      · -- `a` is at least as deep, so it is no strict ancestor
        simp only [hdep, if_true, Bool.false_eq_true, false_iff]
        exact fun hac => absurd (depth_lt hs ht hmem hnd hac (Ne.symm hca)) (by omega)
      · have hce : cur ≠ e := by
          rintro rfl
          rw [hs.depth_out _ (List.nodup_cons.mp hnd).1] at hdep
          omega
        have hcr := Numbering.mem_rest hcur hce
        obtain ⟨d, hd, hdmem, _⟩ := ptr_of_mem ht hmem hnd hcr
        have hstored : (g.get cur).idom = some d := by rw [hs.idom_eq cur, if_pos hcr, hd]
        have hdepth := hs.depth_succ cur hcr d hd
        simp only [hdep, if_false, hstored]
        rw [ih d hdmem (by omega)]
        exact ⟨fun had => .up hd had, fun hac => hac.of_up (Ne.symm hca) hd⟩

/-- A depth is below the length of the order: the strict ancestors and the block itself are
distinct blocks of the order. -/
theorem depth_lt_length {x : Nat} (hx : x ∈ e :: rest) : (g.get x).depth < (e :: rest).length := by
  obtain ⟨L, hL, hLmem, hLlen⟩ := depth_chain hs ht hmem hnd x hx
  have hsub : x :: L ⊆ e :: rest := by
    intro y hy
    rcases List.mem_cons.mp hy with rfl | hy
    · exact hx
    · exact (hmem y).mp (((hLmem y).mp hy).1.isSome ht ((hmem x).mpr hx))
  have hle := (List.nodup_cons.mpr ⟨fun h => ((hLmem x).mp h).2 rfl, hL⟩).length_le_of_subset hsub
  rw [List.length_cons] at hle
  omega

/-- **`dominates` answers ancestry** for the blocks of the order, the fuel `size + 1` exceeding
every depth. -/
theorem dominates_iff (hlen : (e :: rest).length ≤ g.size) {a b : Nat} (ha : a ∈ e :: rest)
    (hb : b ∈ e :: rest) : g.dominates a b = true ↔ Ancestor idom a b := by
  have := depth_lt_length hs ht hmem hnd hb
  exact dominatesFrom_iff hs ht hmem hnd ha _ b hb (by omega)

end Tree

/-- **Each child once.** The children of `d` are the blocks whose stored dominator is `d`, each
exactly once. -/
theorem count_children (hs : StoresTree g rest idom) (hnd : rest.Nodup) (d b : Nat) :
    (g.get d).children.toList.count b = if (g.get b).idom = some d then 1 else 0 := by
  rw [hs.children_eq d, hs.idom_eq b, List.Nodup.count (hnd.filter _)]
  by_cases hb : b ∈ rest
  · simp [hb, List.mem_filter]
  · simp [hb, List.mem_filter]

end StoresTree

end BlockGraph

end MicroSsa
