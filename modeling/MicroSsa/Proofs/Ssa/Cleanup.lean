import MicroSsa.Proofs.Ssa.Destroy
/-!
# Pruning the merges and sweeping the varnodes

After renaming, `Function.pruneMerges` destroys the merges of reached blocks whose results reach
no operation other than a merge (`Function.Prunable`), in creation order, and SSA construction
then deletes every free varnode that nothing reads.

`Dropped D f g` says what destroying the operations `D` one after the other does: the block lists
lose them, the store loses them and logs them in that order, and every other operation is kept
up to its start-of-block mark (`dropAll_spec`, from `opDestroy_spec`). `pruneMerges_spec` puts
the worklist of `liveMerges` together with it: pruning destroys exactly the prunable merges.
Since a merge whose result reaches a real use makes every merge it reads from reach one too, no
operation left reads the result of a destroyed merge (`Dropped.unread`). Counting the merges
left at the top of the reached blocks, the destroyed ones are gone from the count
(`Dropped.numMerges`).

The sweep deletes the varnodes it lists one by one; each is free and unread, and deleting one
changes no other, so every one goes (`sweep_spec`).
-/

namespace MicroSsa

namespace Function

variable {f g : Function}

/-! ## Destroying operations one after the other -/

/-- `g` is `f` with the operations `D` taken out of their blocks and destroyed, in the order of
`D`: the block lists and the store lose them, the log gains them, and every other operation is
kept up to its start-of-block mark. -/
structure Dropped (D : List Nat) (f g : Function) : Prop where
  sound : g.store.Sound
  graph : f.graph.Thinned (fun o => !D.contains o) g.graph
  gone : ∀ o ∈ D, g.store.op? o = none
  kept : ∀ o, o ∉ D → (g.store.op? o).map Op.unstarted = (f.store.op? o).map Op.unstarted
  log : g.store.destroyed.toList =
    f.store.destroyed.toList ++ D.filterMap fun o => (f.store.op? o).map fun x => (x.seq, x.opcode)

/-- An operation kept up to its start-of-block mark keeps its sequence number and opcode. -/
theorem seq_opcode_of_unstarted {s t : Store} {o : Nat}
    (h : (t.op? o).map Op.unstarted = (s.op? o).map Op.unstarted) :
    (t.op? o).map (fun x => (x.seq, x.opcode)) = (s.op? o).map fun x => (x.seq, x.opcode) := by
  have h' := congrArg (Option.map fun x : Op => (x.seq, x.opcode)) h
  simpa [Option.map_map, Function.comp_def] using h'

/-- The block lists of a function whose operations were dropped hold. -/
theorem Dropped.blocksHold {D : List Nat} (h : Dropped D f g) (hB : f.BlocksHold) : g.BlocksHold where
  member {b o} ho := by
    have ho' := Array.mem_toList_iff.mpr ho
    rw [h.graph.ops, List.mem_filter] at ho'
    obtain ⟨ho', hD⟩ := ho'
    obtain ⟨x, hx, hp, hd⟩ := hB.member (Array.mem_toList_iff.mp ho')
    have hk := h.kept o (by simpa using hD)
    rw [hx, Option.map_some] at hk
    obtain ⟨y, hy, hu⟩ := Option.map_eq_some_iff.mp hk
    refine ⟨y, hy, ?_, ?_⟩
    · rw [← Op.unstarted_parent, hu, Op.unstarted_parent, hp]
    · rw [← Op.unstarted_dead, hu, Op.unstarted_dead, hd]
  listed {o y b} hy hp := by
    have hD : o ∉ D := fun hD => by rw [h.gone o hD] at hy; cases hy
    have hk := h.kept o hD
    rw [hy, Option.map_some] at hk
    obtain ⟨x, hx, hu⟩ := Option.map_eq_some_iff.mp hk.symm
    have hxp : x.parent = some b := by rw [← Op.unstarted_parent, hu, Op.unstarted_parent, hp]
    rw [← Array.mem_toList_iff, h.graph.ops, List.mem_filter]
    exact ⟨Array.mem_toList_iff.mpr (hB.listed hx hxp), by simpa using hD⟩
  nodup b := by
    rw [h.graph.ops]
    exact (hB.nodup b).filter _

theorem Dropped.nil (f : Function) (hS : f.store.Sound) : Dropped [] f f :=
  ⟨hS, BlockGraph.Thinned.refl f.graph, fun _ h => absurd h List.not_mem_nil, fun _ _ => rfl,
    by simp⟩

/-- Destroying one operation, then the operations `D`. -/
theorem Dropped.cons {g₁ : Function} {m : Nat} {D : List Nat} (hm : m ∉ D)
    (hG : f.graph.Thinned (· != m) g₁.graph) (hgone : g₁.store.op? m = none)
    (hkept : ∀ o, o ≠ m → (g₁.store.op? o).map Op.unstarted = (f.store.op? o).map Op.unstarted)
    {x : Op} (hx : f.store.op? m = some x)
    (hlog : g₁.store.destroyed = f.store.destroyed.push (x.seq, x.opcode)) (h : Dropped D g₁ g) :
    Dropped (m :: D) f g where
  sound := h.sound
  graph := by
    have hT := hG.trans h.graph
    have hkeep : (fun o => (o != m) && !D.contains o) = fun o => !(m :: D).contains o := by
      funext o
      by_cases ho : o = m <;> simp [ho]
    rwa [hkeep] at hT
  gone o ho := by
    rcases List.mem_cons.mp ho with rfl | ho
    · have hk := h.kept o hm
      rw [hgone, Option.map_none] at hk
      exact Option.map_eq_none_iff.mp hk
    · exact h.gone o ho
  kept o ho := by
    rw [List.mem_cons, not_or] at ho
    rw [h.kept o ho.2, hkept o ho.1]
  log := by
    rw [h.log, hlog, Array.toList_push, List.filterMap_cons, hx, Option.map_some,
      List.filterMap_congr fun o ho => seq_opcode_of_unstarted (hkept o fun e => hm (e ▸ ho))]
    simp

/-- Destroying distinct operations that blocks list, one after the other, succeeds and drops
them. -/
theorem dropAll_spec : ∀ (D : List Nat) (f : Function), f.store.Sound → f.BlocksHold → D.Nodup →
    (∀ o ∈ D, ∃ b, o ∈ (f.graph.get b).ops) →
    ∃ g, D.foldlM (fun f m => f.opDestroy m) f = .ok g ∧ Dropped D f g
  | [], f, hS, _, _, _ => ⟨f, rfl, Dropped.nil f hS⟩
  | m :: D, f, hS, hB, hnd, hlisted => by
    obtain ⟨b, hb⟩ := hlisted m List.mem_cons_self
    obtain ⟨g₁, h₁, hS₁, hG, hgone, hkept, x, hx, hlog⟩ := opDestroy_spec hS hB hb
    rw [List.nodup_cons] at hnd
    -- the first destroy drops one operation, which keeps the block lists holding
    have hB₁ : g₁.BlocksHold :=
      (Dropped.cons List.not_mem_nil hG hgone hkept hx hlog (Dropped.nil g₁ hS₁)).blocksHold hB
    have hlisted₁ : ∀ o ∈ D, ∃ b, o ∈ (g₁.graph.get b).ops := by
      intro o ho
      obtain ⟨b', hb'⟩ := hlisted o (List.mem_cons_of_mem m ho)
      refine ⟨b', Array.mem_toList_iff.mp ?_⟩
      rw [hG.ops, List.mem_filter]
      exact ⟨Array.mem_toList_iff.mpr hb', by simpa using fun e : o = m => hnd.1 (e ▸ ho)⟩
    obtain ⟨g, hrun, hd⟩ := dropAll_spec D g₁ hS₁ hB₁ hnd.2 hlisted₁
    exact ⟨g, by rw [List.foldlM_cons, h₁]; exact hrun, Dropped.cons hnd.1 hG hgone hkept hx hlog hd⟩

/-! ## Pruning -/

/-- Merge `m` is listed by a reached block, and its result reaches no operation other than a
merge. -/
def Prunable (f : Function) (m : Nat) : Prop :=
  (∃ b, f.graph.Live b ∧ m ∈ (f.graph.get b).ops) ∧ f.isMerge m = true ∧ ¬f.ReachesNonMerge m

/-- Every merge is listed by a reached block. -/
def MergesListed (f : Function) : Prop :=
  ∀ m, f.isMerge m = true → ∃ b, f.graph.Live b ∧ m ∈ (f.graph.get b).ops

theorem mem_liveBlocks {b : Nat} : b ∈ f.liveBlocks ↔ f.graph.Live b := by
  simp [liveBlocks, BlockGraph.Live]

/-- Distinct blocks list distinct operations, each once. -/
theorem BlocksHold.nodup_flatMap (hB : f.BlocksHold) {bs : List Nat} (hbs : bs.Nodup) :
    (bs.flatMap fun b => (f.graph.get b).ops.toList).Nodup := by
  refine List.nodup_flatMap.mpr ⟨fun b _ => hB.nodup b, hbs.imp fun {b b'} hne o ho ho' => hne ?_⟩
  obtain ⟨x, hx, hp, -⟩ := hB.member (Array.mem_toList_iff.mp ho)
  obtain ⟨x', hx', hp', -⟩ := hB.member (Array.mem_toList_iff.mp ho')
  rw [hx] at hx'
  cases hx'
  rw [hp] at hp'
  exact Option.some.inj hp'

/-- The merges pruning looks at: those of the reached blocks, in creation order. -/
theorem mem_pruneCandidates {m : Nat} :
    m ∈ ((f.liveBlocks.flatMap fun b => (f.graph.get b).ops.toList).filter f.isMerge).mergeSort
        (· ≤ ·) ↔ (∃ b, f.graph.Live b ∧ m ∈ (f.graph.get b).ops) ∧ f.isMerge m = true := by
  simp [List.mem_mergeSort, mem_liveBlocks]

/-- **Pruning.** In a sound function whose block lists hold and whose merges are all listed by
reached blocks, pruning succeeds and destroys exactly the prunable merges, in increasing order. -/
theorem pruneMerges_spec (hS : f.store.Sound) (hB : f.BlocksHold) (hlisted : f.MergesListed) :
    ∃ g D, f.pruneMerges = .ok g ∧ D.Pairwise (· < ·) ∧ (∀ m, m ∈ D ↔ f.Prunable m) ∧
      Dropped D f g := by
  let merges := ((f.liveBlocks.flatMap fun b => (f.graph.get b).ops.toList).filter f.isMerge).mergeSort
    (· ≤ ·)
  have hnd : merges.Nodup := by
    refine (List.mergeSort_perm _ _).nodup_iff.mpr ((hB.nodup_flatMap ?_).filter _)
    exact List.nodup_range.filter _
  have hsorted : merges.Pairwise (· < ·) := by
    refine ((List.pairwise_mergeSort (fun a b c hab hbc => ?_) (fun a b => ?_) _).and hnd).imp ?_
    · simp only [decide_eq_true_eq] at hab hbc ⊢
      omega
    · simp only [decide_eq_true_eq, Bool.or_eq_true]
      omega
    · rintro a b ⟨hab, hne⟩
      simp only [decide_eq_true_eq] at hab
      omega
  have hlive : ∀ m ∈ merges, m ∈ f.liveMerges merges ↔ f.ReachesNonMerge m :=
    fun m hm => mem_liveMerges_iff hS (fun u hu => mem_pruneCandidates.mpr ⟨hlisted u hu, hu⟩)
      (fun m hm => (mem_pruneCandidates.mp hm).2) hm
  let D := merges.filter fun m => !(f.liveMerges merges).contains m
  have hD : ∀ m, m ∈ D ↔ f.Prunable m := by
    intro m
    simp only [D, List.mem_filter, Bool.not_eq_true', List.contains_eq_mem, decide_eq_false_iff_not]
    constructor
    · rintro ⟨hm, hnot⟩
      obtain ⟨hb, hmerge⟩ := mem_pruneCandidates.mp hm
      exact ⟨hb, hmerge, fun hr => hnot ((hlive m hm).mpr hr)⟩
    · rintro ⟨hb, hmerge, hnot⟩
      have hm := mem_pruneCandidates.mpr ⟨hb, hmerge⟩
      exact ⟨hm, fun hl => hnot ((hlive m hm).mp hl)⟩
  obtain ⟨g, hrun, hdrop⟩ := dropAll_spec D f hS hB (hnd.filter _)
    fun m hm => by
      obtain ⟨⟨b, -, hb⟩, -⟩ := (hD m).mp hm
      exact ⟨b, hb⟩
  exact ⟨g, D, hrun, hsorted.filter _, hD, hdrop⟩

/-- Destroying operations one after the other keeps the node of every varnode that none of them
outputs. -/
theorem foldlM_opDestroy_node : ∀ (D : List Nat) (f g : Function),
    D.foldlM (fun f m => f.opDestroy m) f = .ok g → ∀ v,
      (∀ m ∈ D, ∀ x, f.store.op? m = some x → x.output ≠ some v) → g.store.node v = f.store.node v
  | [], f, g, h, _, _ => by
    cases h
    rfl
  | m :: D, f, g, h, v, hv => by
    rw [List.foldlM_cons] at h
    obtain ⟨g₁, h₁, h⟩ := Except.bind_eq_ok h
    obtain ⟨hgone, hout⟩ := opDestroy_outputs h₁
    -- the operations still to destroy output in `g₁` what they output in `f`
    refine (foldlM_opDestroy_node D g₁ g h v fun m' hm' x hx => ?_).trans
      (opDestroy_node h₁ (hv m List.mem_cons_self))
    by_cases hmm : m' = m
    · rw [hmm, hgone] at hx
      cases hx
    · have h' := hout m' hmm
      rw [hx] at h'
      obtain ⟨x₀, hx₀, hx₀v⟩ := Option.map_eq_some_iff.mp h'.symm
      exact hx₀v ▸ hv m' (List.mem_cons_of_mem m hm') x₀ hx₀

/-- A merge that pruning destroys is prunable. -/
theorem prunable_of_mem_pruned (hS : f.store.Sound) (hlisted : f.MergesListed) {m : Nat}
    (hm : m ∈ (((f.liveBlocks.flatMap fun b => (f.graph.get b).ops.toList).filter f.isMerge).mergeSort
      (· ≤ ·)).filter fun m => !(f.liveMerges (((f.liveBlocks.flatMap fun b =>
        (f.graph.get b).ops.toList).filter f.isMerge).mergeSort (· ≤ ·))).contains m) :
    f.Prunable m := by
  simp only [List.mem_filter, Bool.not_eq_true', List.contains_eq_mem, decide_eq_false_iff_not] at hm
  obtain ⟨hm, hnot⟩ := hm
  obtain ⟨hb, hmerge⟩ := mem_pruneCandidates.mp hm
  exact ⟨hb, hmerge, fun hr => hnot ((mem_liveMerges_iff hS
    (fun u hu => mem_pruneCandidates.mpr ⟨hlisted u hu, hu⟩)
    (fun m hm => (mem_pruneCandidates.mp hm).2) hm).mpr hr)⟩

/-- Pruning keeps the node of every varnode that no prunable merge outputs. -/
theorem pruneMerges_node (hS : f.store.Sound) (hlisted : f.MergesListed) (h : f.pruneMerges = .ok g)
    {v : Nat} (hv : ∀ m, f.Prunable m → ∀ x, f.store.op? m = some x → x.output ≠ some v) :
    g.store.node v = f.store.node v := by
  unfold pruneMerges at h
  exact foldlM_opDestroy_node _ f g h v fun m hm x hx =>
    hv m (prunable_of_mem_pruned hS hlisted hm) x hx

/-- No operation left reads the result of a destroyed merge: every reader of a prunable merge is
a prunable merge itself, and goes too. -/
theorem Dropped.unread (hlisted : f.MergesListed) {D : List Nat} (h : Dropped D f g)
    (hD : ∀ m, m ∈ D ↔ f.Prunable m) {m : Nat} (hm : m ∈ D) {x : Op} {v : Nat}
    (hx : f.store.op? m = some x) (hv : x.output = some v) {u : Nat} {y : Op}
    (hy : g.store.op? u = some y) : v ∉ y.inputs := by
  intro hin
  have hu : u ∉ D := fun hu => by rw [h.gone u hu] at hy; cases hy
  have hk := h.kept u hu
  rw [hy, Option.map_some] at hk
  obtain ⟨y', hy', hyu⟩ := Option.map_eq_some_iff.mp hk.symm
  have hreads : f.ReadsOutput m u :=
    ⟨x, v, y', hx, hv, hy', by rw [← Op.unstarted_inputs, hyu, Op.unstarted_inputs]; exact hin⟩
  obtain ⟨-, -, hnot⟩ := (hD m).mp hm
  cases hum : f.isMerge u
  · exact hnot (.direct hreads hum)
  · exact hu ((hD u).mpr ⟨hlisted u hum, hum, fun hr => hnot (.through hreads hum hr)⟩)

/-! ## Counting the merges -/

/-- The merges of the reached blocks, block by block. -/
def reachedMerges (f : Function) : List Nat :=
  (f.liveBlocks.flatMap fun b => (f.graph.get b).ops.toList).filter f.isMerge

/-- Each block lists its merges first. -/
def MergesLead (f : Function) : Prop :=
  ∀ b, ∃ M R, (f.graph.get b).ops.toList = M ++ R ∧ (∀ m ∈ M, f.isMerge m = true) ∧
    ∀ r ∈ R, f.isMerge r = false

theorem foldl_add_eq_sum (w : Nat → Nat) :
    ∀ (l : List Nat) (k : Nat), l.foldl (fun n b => n + w b) k = k + (l.map w).sum
  | [], k => rfl
  | b :: l, k => by
    rw [List.foldl_cons, foldl_add_eq_sum w l, List.map_cons, List.sum_cons]
    omega

theorem leadingMerges_eq_length_filter (h : f.MergesLead) (b : Nat) :
    f.leadingMerges b = ((f.graph.get b).ops.toList.filter f.isMerge).length := by
  obtain ⟨M, R, hops, hM, hR⟩ := h b
  have htake : (f.graph.get b).ops.toList.takeWhile f.isMerge = M := by
    rw [hops, List.takeWhile_append_of_pos hM]
    cases R with
    | nil => simp
    | cons r R => simp [hR r List.mem_cons_self]
  have hfilter : (f.graph.get b).ops.toList.filter f.isMerge = M := by
    rw [hops, List.filter_append, List.filter_eq_self.mpr hM,
      List.filter_eq_nil_iff.mpr fun r hr => by simp [hR r hr], List.append_nil]
  rw [hfilter, ← htake]
  rfl

/-- With the merges first in every block, the merge count is the number of merges of the
reached blocks. -/
theorem numMerges_eq_length (h : f.MergesLead) : f.numMerges = f.reachedMerges.length := by
  rw [numMerges, foldl_add_eq_sum, Nat.zero_add, reachedMerges, List.filter_flatMap,
    List.length_flatMap]
  congr 1
  exact List.map_congr_left fun b _ => leadingMerges_eq_length_filter h b

/-- Whether an operation is a merge depends on its opcode alone. -/
theorem isMerge_eq_of_opcode {o : Nat}
    (h : (g.store.op? o).map Op.opcode = (f.store.op? o).map Op.opcode) :
    g.isMerge o = f.isMerge o := by
  unfold isMerge
  cases hg : g.store.op? o <;> cases hf : f.store.op? o <;> simp_all

theorem isMerge_eq_of_unstarted {o : Nat}
    (h : (g.store.op? o).map Op.unstarted = (f.store.op? o).map Op.unstarted) :
    g.isMerge o = f.isMerge o := by
  refine isMerge_eq_of_opcode ?_
  have h' := congrArg (Option.map Op.opcode) h
  simpa only [Option.map_map, Function.comp_def, Op.unstarted_opcode] using h'

theorem Dropped.liveBlocks {D : List Nat} (h : Dropped D f g) : g.liveBlocks = f.liveBlocks := by
  have hflags : ∀ b, (g.graph.get b).flags = (f.graph.get b).flags := fun b => by
    have h' := congrArg Block.flags (h.graph.shape b)
    exact h'
  simp [Function.liveBlocks, h.graph.size, hflags]

theorem Dropped.mergesLead {D : List Nat} (h : Dropped D f g) (hlead : f.MergesLead) :
    g.MergesLead := by
  intro b
  obtain ⟨M, R, hops, hM, hR⟩ := hlead b
  have hkeep : ∀ o ∈ (g.graph.get b).ops.toList, g.isMerge o = f.isMerge o := fun o ho => by
    rw [h.graph.ops, List.mem_filter] at ho
    exact isMerge_eq_of_unstarted (h.kept o (by simpa using ho.2))
  refine ⟨M.filter (fun o => !D.contains o), R.filter (fun o => !D.contains o),
    by rw [h.graph.ops, hops, List.filter_append], fun m hm => ?_, fun r hr => ?_⟩
  · have hmem : m ∈ (g.graph.get b).ops.toList := by
      rw [h.graph.ops, hops, List.filter_append]
      exact List.mem_append_left _ hm
    rw [hkeep m hmem]
    exact hM m (List.mem_filter.mp hm).1
  · have hmem : r ∈ (g.graph.get b).ops.toList := by
      rw [h.graph.ops, hops, List.filter_append]
      exact List.mem_append_right _ hr
    rw [hkeep r hmem]
    exact hR r (List.mem_filter.mp hr).1

/-- Dropping merges of the reached blocks takes them off the merge count, one each. -/
theorem Dropped.numMerges {D : List Nat} (h : Dropped D f g) (hB : f.BlocksHold)
    (hlead : f.MergesLead) (hnd : D.Nodup) (hD : ∀ m ∈ D, m ∈ f.reachedMerges) :
    g.numMerges + D.length = f.numMerges := by
  have hX : f.reachedMerges.Nodup :=
    (hB.nodup_flatMap (List.nodup_range.filter _)).filter _
  -- the merges left are those of `f` not dropped
  have hleft : g.reachedMerges = f.reachedMerges.filter fun o => !D.contains o := by
    unfold reachedMerges
    rw [h.liveBlocks, List.filter_flatMap, List.filter_flatMap, List.filter_flatMap]
    refine List.flatMap_congr fun b _ => ?_
    rw [h.graph.ops, List.filter_filter, List.filter_filter]
    refine List.filter_congr fun o _ => ?_
    by_cases ho : o ∈ D
    · simp [ho]
    · rw [isMerge_eq_of_unstarted (h.kept o ho)]
      simp [ho, Bool.and_comm]
  -- the dropped merges are the merges of `f` that `D` holds
  have hperm : (f.reachedMerges.filter fun o => D.contains o).Perm D :=
    (List.perm_ext_iff_of_nodup (hX.filter _) hnd).mpr fun o => by
      simp only [List.mem_filter, List.contains_eq_mem, decide_eq_true_eq]
      exact ⟨fun h => h.2, fun h => ⟨hD o h, h⟩⟩
  have hsplit := @List.length_eq_length_filter_add _ f.reachedMerges fun o => !D.contains o
  simp only [Bool.not_not] at hsplit
  rw [numMerges_eq_length (h.mergesLead hlead), numMerges_eq_length hlead, hleft, ← hperm.length_eq]
  omega

end Function

/-! ## Sweeping the varnodes -/

namespace Store

variable {s : Store}

/-- `t` is `s` with every free varnode that nothing reads deleted, and nothing else changed. -/
structure Swept (s t : Store) : Prop where
  sound : t.Sound
  ops : ∀ o, t.op? o = s.op? o
  destroyed : t.destroyed = s.destroyed
  vn : ∀ v, t.vn? v = if (s.vn? v).any (fun x => x.isFree && x.uses.isEmpty) then none else s.vn? v

/-- A free varnode is not written. -/
theorem defOp_eq_none_of_isFree (hL : s.Linked) {v : Nat} {y : Varnode} (hy : s.vn? v = some y)
    (hf : y.isFree = true) : y.defOp = none := by
  have hw := hL.written hy
  simp only [Varnode.isFree, Bool.and_eq_true, Bool.not_eq_true'] at hf
  rw [hf.1.2] at hw
  exact Option.not_isSome_iff_eq_none.mp (by simp [← hw])

/-- Deleting distinct free varnodes that nothing reads, one after the other, deletes every one
of them and changes nothing else. -/
theorem foldl_delete_spec {step : Store → Nat → Store}
    (hstep : ∀ s v t, s.deleteVarnode v = .ok t → step s v = t) :
    ∀ (vs : List Nat) (s : Store), s.Sound → vs.Nodup →
      (∀ v ∈ vs, ∃ y, s.vn? v = some y ∧ y.isFree = true ∧ y.uses.size = 0) →
      (vs.foldl step s).Sound ∧ (∀ o, (vs.foldl step s).op? o = s.op? o) ∧
        (vs.foldl step s).destroyed = s.destroyed ∧
        ∀ w, (vs.foldl step s).vn? w = if w ∈ vs then none else s.vn? w
  | [], s, hS, _, _ => ⟨hS, fun _ => rfl, rfl, fun _ => by simp⟩
  | v :: vs, s, hS, hnd, hfree => by
    obtain ⟨y, hy, hf, hu⟩ := hfree v List.mem_cons_self
    obtain ⟨t, ht, -, hop, hvn, -⟩ :=
      deleteVarnode_spec hS.linked hy hu (defOp_eq_none_of_isFree hS.linked hy hf)
    rw [List.nodup_cons] at hnd
    -- the varnodes still to delete are untouched by this deletion
    have hfree' : ∀ w ∈ vs, ∃ y, t.vn? w = some y ∧ y.isFree = true ∧ y.uses.size = 0 := by
      intro w hw
      rw [hvn, if_neg fun e : w = v => hnd.1 (e ▸ hw)]
      exact hfree w (List.mem_cons_of_mem v hw)
    obtain ⟨hS', hop', hd', hvn'⟩ := foldl_delete_spec hstep vs t (hS.deleteVarnode ht) hnd.2 hfree'
    rw [List.foldl_cons, hstep s v t ht]
    refine ⟨hS', fun o => by rw [hop', hop], by rw [hd', (touches_deleteVarnode ht : s.Touches 0 t).destroyed],
      fun w => ?_⟩
    rw [hvn', hvn]
    by_cases hw : w = v
    · subst hw
      simp [hnd.1]
    · simp [hw]

/-- The sweep over the varnodes in location order deletes exactly the free varnodes that nothing
reads. -/
theorem swept_foldl {step : Store → Nat → Store}
    (hstep : ∀ s v t, s.deleteVarnode v = .ok t → step s v = t) (hS : s.Sound) :
    Swept s ((s.locOrder.filter fun v => (s.vn? v).any fun x => x.isFree && x.uses.isEmpty).foldl
      step s) := by
  obtain ⟨hS', hop, hd, hvn⟩ := foldl_delete_spec hstep _ s hS ((nodup_locOrder s).filter _)
    fun v hv => by
      obtain ⟨-, hp⟩ := List.mem_filter.mp hv
      obtain ⟨y, hy, hp⟩ := (Option.any_eq_true _ _).mp hp
      rw [Bool.and_eq_true] at hp
      exact ⟨y, hy, hp.1, Array.isEmpty_iff_size_eq_zero.mp hp.2⟩
  refine ⟨hS', hop, hd, fun v => ?_⟩
  simp only [hvn v, List.mem_filter, mem_locOrder]
  cases hy : s.vn? v <;> simp

/-- After the sweep, every free varnode is read. -/
theorem Swept.uses_ne {t : Store} (h : Swept s t) {v : Nat} {y : Varnode}
    (hy : t.vn? v = some y) (hf : y.isFree = true) : y.uses ≠ #[] := by
  rw [h.vn v] at hy
  split at hy
  · cases hy
  · rename_i hnot
    rw [hy, Option.any_some, hf, Bool.true_and, Bool.not_eq_true] at hnot
    intro hu
    simp [hu] at hnot

end Store

end MicroSsa
