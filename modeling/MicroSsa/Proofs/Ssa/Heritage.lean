import MicroSsa.Proofs.Ssa.Cleanup
/-!
# Merge placement and pruning in SSA construction

`Function.buildSsa` runs in stages: it places the merges of every variable (`Function.placeAll`),
renames along the dominator tree from the entry (`Function.renameAll`), prunes the merges, and
sweeps the free varnodes that nothing reads (`buildSsa_of_stages`).

On a function ready for it (`SsaReady`: sound, block lists that hold, no merge yet, frontiers of
reached blocks made of reached blocks, and no read linked yet), `buildSsa_merges` says what the
stages do to the merges:

* placement puts at the top of each block exactly one merge of each variable read in a reached
  block whose writers' iterated dominance frontier holds the block, with one input per in-edge,
  and nothing else (`MergesPlaced`); it creates exactly the merges it places;
* renaming keeps every operation up to its inputs, and the blocks;
* pruning destroys exactly the merges whose results reach no operation other than a merge, and
  afterwards no operation reads the result of one of them, no free varnode without readers is
  left, and the block lists hold (`MergesPruned`); the merge count then is the number of merges
  placed less the number destroyed.
-/

namespace MicroSsa

theorem BlockGraph.InIdf.mono {G : BlockGraph} {W W' : Nat → Prop} (h : ∀ w, W w → W' w) {b : Nat}
    (hb : G.InIdf W b) : G.InIdf W' b :=
  InIdf.least (G.InIdf W') (fun x hx _ hy => InIdf.closed (hx.imp (h x) id) hy) hb

namespace Function

variable {f : Function}

/-! ## The stages -/

/-- The deepest dominator-tree depth of the blocks. -/
def maxDepth (f : Function) : Nat := f.graph.blocks.foldl (fun m blk => max m blk.depth) 0

/-- The first stage of SSA construction: the merges of every variable, in location order. -/
def placeAll (f : Function) : Except Fault Function :=
  f.collectVariables.foldlM (fun g e => g.placeMerges f.maxDepth e.1 e.2) f

/-- The second stage: renaming the dominator tree from the entry `e`, each variable of `vars`
starting with an empty stack. -/
def renameAll (f : Function) (vars : List (Location × List Nat)) (e : Nat) :
    Except Fault (Function × Stacks) :=
  renameTree (f.graph.size + 1) f (vars.map fun p => (p.1, [])) e

/-- SSA construction is placement, renaming, pruning, and the sweep of the free varnodes that
nothing reads. -/
theorem buildSsa_of_stages {e : Nat} (he : f.graph.entry = some e) {f₁ f₂ f₃ : Function}
    {st : Stacks} (h₁ : f.placeAll = .ok f₁) (h₂ : f₁.renameAll f.collectVariables e = .ok (f₂, st))
    (h₃ : f₂.pruneMerges = .ok f₃) (hS₃ : f₃.store.Sound) :
    ∃ g, f.buildSsa = .ok g ∧ g.graph = f₃.graph ∧ Store.Swept f₃.store g.store := by
  unfold buildSsa
  rw [he]
  refine Except.exists_ok_bind (show ∃ a, _ = Except.ok a ∧ a = f₁ from ⟨f₁, h₁, rfl⟩) ?_
  rintro _ rfl
  refine Except.exists_ok_bind (show ∃ a, _ = Except.ok a ∧ a = (f₂, st) from ⟨(f₂, st), h₂, rfl⟩) ?_
  rintro _ rfl
  refine Except.exists_ok_bind (show ∃ a, _ = Except.ok a ∧ a = f₃ from ⟨f₃, h₃, rfl⟩) ?_
  rintro _ rfl
  exact ⟨_, rfl, rfl, Store.swept_foldl (fun s v t h => by simp only [h]) hS₃⟩

/-! ## Placement -/

/-- What SSA construction expects of a function: a sound store, block lists that hold, no merge
yet, frontiers of reached blocks made of reached blocks, and no read of a reached block linked
yet. -/
structure SsaReady (f : Function) : Prop where
  sound : f.store.Sound
  blocks : f.BlocksHold
  noMerges : NoMerges f
  frontiers : f.graph.FrontiersLive
  readsFree : f.ReadsFree

/-- `g` is `f` with the merges of every variable placed: at the top of each block, above the
operations `f` has there, one merge of each variable read in a reached block whose writers'
iterated dominance frontier holds the block, and no other merge; every new operation is such a
merge. -/
structure MergesPlaced (f g : Function) : Prop where
  top : ∀ b, ∃ M, (g.graph.get b).ops.toList = M ++ (f.graph.get b).ops.toList ∧
    ∀ m ∈ M, f.graph.Live b ∧ ∃ k, g.IsMerge k b m
  new : ∀ o, f.store.ops.size ≤ o → o < g.store.ops.size → ∃ k b, g.IsMerge k b o
  keyed : ∀ k b, (g.mergesOf k b).length ≤ 1 ∧
    (g.mergesOf k b ≠ [] ↔ f.ReadsKey k ∧ f.graph.InIdf (f.Writes k) b)

/-- The variables placement works through are the variables read in reached blocks, each with
the reached blocks that write it. -/
theorem exists_collected_iff (hR : f.SsaReady) (k : Location) (b : Nat) :
    (∃ ws, (k, ws) ∈ f.collectVariables ∧ f.graph.InIdf (· ∈ ws) b) ↔
      f.ReadsKey k ∧ f.graph.InIdf (f.Writes k) b := by
  obtain ⟨-, hkeys, hws⟩ := collectVariables_spec hR.sound hR.blocks hR.readsFree
  constructor
  · rintro ⟨ws, hmem, hidf⟩
    have hw := (hws _ hmem).2
    exact ⟨(hkeys k).mp (List.mem_map_of_mem hmem), hidf.mono fun w h => (hw w).mp h⟩
  · rintro ⟨hk, hidf⟩
    obtain ⟨⟨k', ws⟩, hmem, rfl⟩ := List.mem_map.mp ((hkeys k).mpr hk)
    have hw := (hws _ hmem).2
    exact ⟨ws, hmem, hidf.mono fun w h => (hw w).mpr h⟩

/-- **Placement.** On a function ready for SSA construction, placing the merges succeeds and
places them at the iterated dominance frontiers of the writers. -/
theorem placeAll_placed (hR : f.SsaReady) :
    ∃ f₁, f.placeAll = .ok f₁ ∧ AllPlaced f f₁ f.collectVariables ∧ MergesPlaced f f₁ := by
  obtain ⟨f₁, h₁, hP⟩ :=
    placeAll_spec hR.sound hR.blocks hR.noMerges hR.frontiers hR.readsFree f.maxDepth
  refine ⟨f₁, h₁, hP, hP.top, hP.new, fun k b => ?_⟩
  obtain ⟨hle, hiff⟩ := hP.keyed k b
  exact ⟨hle, hiff.trans (exists_collected_iff hR k b)⟩

theorem IsMerge.isMerge {k : Location} {b m : Nat} (h : f.IsMerge k b m) : f.isMerge m = true := by
  obtain ⟨x, hx, hop, -⟩ := h
  simp [Function.isMerge, hx, hop]

section Placed

variable {f₀ : Function} {done : List (Location × List Nat)}

theorem Extends.isMerge_old (hext : Extends f₀ f) (h₀ : NoMerges f₀) {o : Nat}
    (ho : o < f₀.store.ops.size) : f.isMerge o = false := by
  unfold isMerge
  cases hx : f.store.op? o with
  | none => rfl
  | some x => simp [hext.opcode_old h₀ ho hx]

/-- After placement, the merges are the operations placement created. -/
theorem AllPlaced.isMerge_iff (h : AllPlaced f₀ f done) (h₀ : NoMerges f₀) {o : Nat} :
    f.isMerge o = true ↔ f₀.store.ops.size ≤ o ∧ o < f.store.ops.size := by
  constructor
  · intro hm
    have hsome : (f.store.op? o).isSome := by
      unfold isMerge at hm
      cases hx : f.store.op? o <;> simp_all
    refine ⟨Nat.le_of_not_lt fun hlt => ?_, Store.lt_of_isSome_op? hsome⟩
    rw [h.ext.isMerge_old h₀ hlt] at hm
    cases hm
  · rintro ⟨hle, hlt⟩
    obtain ⟨k, b, hk⟩ := h.new o hle hlt
    exact hk.isMerge

/-- An operation other than a merge after placement is an operation of the function placement
started from, with the same inputs. -/
theorem AllPlaced.op_of_not_merge (h : AllPlaced f₀ f done) (h₀ : NoMerges f₀) {o : Nat} {x : Op}
    (hx : f.store.op? o = some x) (hm : f.isMerge o = false) :
    ∃ x₀, f₀.store.op? o = some x₀ ∧ x₀.inputs = x.inputs := by
  have hlt₀ : o < f₀.store.ops.size := by
    by_contra hge
    have hmerge := (h.isMerge_iff h₀).mpr
      ⟨Nat.le_of_not_lt hge, Store.lt_of_isSome_op? (by simp [hx])⟩
    rw [hm] at hmerge
    cases hmerge
  have hold := h.ext.ops o hlt₀
  rw [hx, Option.map_some] at hold
  obtain ⟨x₀, hx₀, hu⟩ := Option.map_eq_some_iff.mp hold.symm
  exact ⟨x₀, hx₀, by rw [← Op.unstarted_inputs, hu, Op.unstarted_inputs]⟩

/-- A merge placed is listed at the top of its block, a reached block. -/
theorem AllPlaced.listed (h : AllPlaced f₀ f done) (hB₀ : f₀.BlocksHold) {k : Location} {b m : Nat}
    (hm : f.IsMerge k b m) (hle : f₀.store.ops.size ≤ m) :
    f₀.graph.Live b ∧ m ∈ (f.graph.get b).ops := by
  obtain ⟨x, hx, -, hp, -⟩ := hm
  have hlisted := h.blocks.listed hx hp
  obtain ⟨M, hops, hM⟩ := h.top b
  have hmem := Array.mem_toList_iff.mpr hlisted
  rw [hops, List.mem_append] at hmem
  rcases hmem with hmem | hmem
  · exact ⟨(hM m hmem).1, hlisted⟩
  · exact absurd (hB₀.lt_size (Array.mem_toList_iff.mp hmem)) (Nat.not_lt.mpr hle)

theorem AllPlaced.mergesListed (h : AllPlaced f₀ f done) (hB₀ : f₀.BlocksHold) (h₀ : NoMerges f₀) :
    f.MergesListed := by
  intro m hm
  obtain ⟨hle, hlt⟩ := (h.isMerge_iff h₀).mp hm
  obtain ⟨k, b, hk⟩ := h.new m hle hlt
  obtain ⟨hlive, hmem⟩ := h.listed hB₀ hk hle
  exact ⟨b, (h.ext.live_iff b).mpr hlive, hmem⟩

theorem AllPlaced.mergesLead (h : AllPlaced f₀ f done) (hB₀ : f₀.BlocksHold) (h₀ : NoMerges f₀) :
    f.MergesLead := by
  intro b
  obtain ⟨M, hops, hM⟩ := h.top b
  refine ⟨M, (f₀.graph.get b).ops.toList, hops, fun m hm => ?_, fun r hr => ?_⟩
  · obtain ⟨-, k, hk⟩ := hM m hm
    exact hk.isMerge
  · exact h.ext.isMerge_old h₀ (hB₀.lt_size (Array.mem_toList_iff.mp hr))

/-- Placement creates exactly the merges it places: the merge count after placement is the number
of operations created. -/
theorem AllPlaced.numMerges (h : AllPlaced f₀ f done) (hB₀ : f₀.BlocksHold) (h₀ : NoMerges f₀) :
    f.numMerges = f.store.ops.size - f₀.store.ops.size := by
  have hperm : f.reachedMerges.Perm (List.range' f₀.store.ops.size
      (f.store.ops.size - f₀.store.ops.size)) := by
    refine (List.perm_ext_iff_of_nodup ((h.blocks.nodup_flatMap (List.nodup_range.filter _)).filter _)
      List.nodup_range').mpr fun o => ?_
    rw [List.mem_range'_1, List.mem_filter, List.mem_flatMap]
    constructor
    · rintro ⟨-, hm⟩
      have := (h.isMerge_iff h₀).mp hm
      omega
    · intro ho
      have hr : f₀.store.ops.size ≤ o ∧ o < f.store.ops.size := ⟨ho.1, by omega⟩
      obtain ⟨k, b, hk⟩ := h.new o hr.1 hr.2
      obtain ⟨hlive, hmem⟩ := h.listed hB₀ hk hr.1
      exact ⟨⟨b, mem_liveBlocks.mpr ((h.ext.live_iff b).mpr hlive), Array.mem_toList_iff.mpr hmem⟩,
        hk.isMerge⟩
  rw [numMerges_eq_length (h.mergesLead hB₀ h₀), hperm.length_eq, List.length_range']

end Placed

/-! ## Renaming -/

section Renaming

variable {f₁ : Function} {st : Stacks}

theorem Renamed.isMerge_eq (h : Renamed f₁ f st) (o : Nat) : f.isMerge o = f₁.isMerge o := by
  refine isMerge_eq_of_opcode ?_
  have h' := congrArg (Option.map Op.opcode) (h.ops o)
  simpa only [Option.map_map, Function.comp_def, Op.skeleton_opcode] using h'

theorem Renamed.reachedMerges (h : Renamed f₁ f st) : f.reachedMerges = f₁.reachedMerges := by
  unfold Function.reachedMerges Function.liveBlocks
  rw [h.graph]
  exact List.filter_congr fun o _ => by rw [h.isMerge_eq]

theorem Renamed.mergesListed (h : Renamed f₁ f st) (hL : f₁.MergesListed) : f.MergesListed :=
  fun m hm => by
    rw [h.graph]
    exact hL m (by rwa [← h.isMerge_eq])

theorem Renamed.mergesLead (h : Renamed f₁ f st) (hL : f₁.MergesLead) : f.MergesLead := by
  intro b
  obtain ⟨M, R, hops, hM, hR⟩ := hL b
  exact ⟨M, R, by rw [h.graph]; exact hops, fun m hm => by rw [h.isMerge_eq]; exact hM m hm,
    fun r hr => by rw [h.isMerge_eq]; exact hR r hr⟩

/-- Renaming starts from empty stacks, which hold no varnode. -/
theorem Renamed.start (hS : f₁.store.Sound) (vars : List (Location × List Nat)) :
    Renamed f₁ f₁ (vars.map fun p => (p.1, [])) := by
  refine ⟨hS, rfl, fun _ => rfl, fun e he v hv => ?_⟩
  obtain ⟨p, -, rfl⟩ := List.mem_map.mp he
  exact absurd hv List.not_mem_nil

end Renaming

/-! ## Pruning and the sweep -/

/-- `g` is `f` with the prunable merges `D` destroyed, in increasing order, and the free
varnodes that nothing reads deleted: the block lists hold and list no destroyed merge, no
operation left reads the result of a destroyed merge, and every free varnode left is read. -/
structure MergesPruned (f g : Function) (D : List Nat) : Prop where
  sorted : D.Pairwise (· < ·)
  mem_iff : ∀ m, m ∈ D ↔ f.Prunable m
  dropped : Dropped D f g
  blocks : g.BlocksHold
  unlisted : ∀ m ∈ D, ∀ b, m ∉ (g.graph.get b).ops
  unread : ∀ m ∈ D, ∀ x v, f.store.op? m = some x → x.output = some v →
    ∀ u y, g.store.op? u = some y → v ∉ y.inputs
  swept : ∀ v y, g.store.vn? v = some y → y.isFree = true → y.uses ≠ #[]

/-- The sweep keeps what dropping the merges did. -/
theorem Dropped.swept {f₃ g : Function} {D : List Nat} (h : Dropped D f f₃)
    (hg : g.graph = f₃.graph) (hs : Store.Swept f₃.store g.store) : Dropped D f g where
  sound := hs.sound
  graph := hg ▸ h.graph
  gone o ho := by rw [hs.ops]; exact h.gone o ho
  kept o ho := by rw [hs.ops]; exact h.kept o ho
  log := by rw [hs.destroyed]; exact h.log

/-- **Merge placement and pruning.** On a function ready for SSA construction with an entry,
SSA construction succeeds. Placement puts at the top of each block exactly one merge of each
variable read in a reached block whose writers' iterated dominance frontier holds the block, with
one input per in-edge, and creates nothing else; renaming keeps every operation but for its
inputs, and the blocks; pruning then destroys exactly the merges whose results reach no operation
other than a merge, no operation left reads the result of one of them, no free varnode without
readers is left, and the merge count is the number of merges placed less the number destroyed. -/
theorem buildSsa_merges (hR : f.SsaReady) {e : Nat} (he : f.graph.entry = some e) :
    ∃ f₁ f₂ g D, f.placeAll = .ok f₁ ∧ (∃ st, f₁.renameAll f.collectVariables e = .ok (f₂, st)) ∧
      f.buildSsa = .ok g ∧ MergesPlaced f f₁ ∧ f₂.graph = f₁.graph ∧
      (∀ o, (f₂.store.op? o).map Op.skeleton = (f₁.store.op? o).map Op.skeleton) ∧
      MergesPruned f₂ g D ∧ f₁.numMerges = f₁.store.ops.size - f.store.ops.size ∧
      g.numMerges + D.length = f₁.numMerges := by
  obtain ⟨f₁, h₁, hP, hM⟩ := placeAll_placed hR
  obtain ⟨⟨f₂, st⟩, h₂, hR₂⟩ := renameTree_spec f₁ (f₁.graph.size + 1) f₁ _ e
    (Renamed.start hP.sound f.collectVariables)
  have hB₂ := hR₂.blocksHold hP.blocks
  have hL₂ := hR₂.mergesListed (hP.mergesListed hR.blocks hR.noMerges)
  obtain ⟨f₃, D, h₃, hsort, hD, hdrop₃⟩ := pruneMerges_spec hR₂.sound hB₂ hL₂
  obtain ⟨g, hg, hgraph, hsw⟩ := buildSsa_of_stages he h₁ h₂ h₃ hdrop₃.sound
  have hdrop := hdrop₃.swept hgraph hsw
  have hBg := hdrop.blocksHold hB₂
  -- the merges destroyed are merges of reached blocks, counted by the merge count
  have hcount := hdrop.numMerges hB₂ (hR₂.mergesLead (hP.mergesLead hR.blocks hR.noMerges))
    (hsort.imp Nat.ne_of_lt) fun m hm => by
      obtain ⟨⟨b, hb, hmem⟩, hmerge, -⟩ := (hD m).mp hm
      exact List.mem_filter.mpr ⟨List.mem_flatMap.mpr ⟨b, mem_liveBlocks.mpr hb,
        Array.mem_toList_iff.mpr hmem⟩, hmerge⟩
  refine ⟨f₁, f₂, g, D, h₁, ⟨st, h₂⟩, hg, hM, hR₂.graph, hR₂.ops,
    ⟨hsort, hD, hdrop, hBg, fun m hm b hmem => ?_, fun m hm x v hx hv u y hy =>
      hdrop.unread hL₂ hD hm hx hv hy, fun v y hy hf => hsw.uses_ne hy hf⟩,
    hP.numMerges hR.blocks hR.noMerges, ?_⟩
  · obtain ⟨x, hx, -⟩ := hBg.member hmem
    rw [hdrop.gone m hm] at hx
    cases hx
  · rw [hcount, numMerges_eq_length (hR₂.mergesLead (hP.mergesLead hR.blocks hR.noMerges)),
      numMerges_eq_length (hP.mergesLead hR.blocks hR.noMerges), hR₂.reachedMerges]

/-! ## Readiness, checked -/

section Checks

/-- The block lists hold when every operation a block lists is alive with the block as parent,
every operation with a parent is listed there, and no block lists an operation twice. -/
theorem BlocksHold.of_check
    (hm : ∀ b < f.graph.size, ∀ o ∈ (f.graph.get b).ops.toList,
      ((f.store.op? o).any fun x => x.parent == some b && !x.flags.dead) = true)
    (hl : ∀ o < f.store.ops.size,
      ((f.store.op? o).all fun x => x.parent.all fun b => (f.graph.get b).ops.contains o) = true)
    (hn : ∀ b < f.graph.size, (f.graph.get b).ops.toList.Nodup) : f.BlocksHold where
  member {b o} ho := by
    obtain ⟨x, hx, hp⟩ := (Option.any_eq_true _ _).mp
      (hm b (lt_size_of_mem_ops ho) o (Array.mem_toList_iff.mpr ho))
    simp only [Bool.and_eq_true, beq_iff_eq, Bool.not_eq_true'] at hp
    exact ⟨x, hx, hp.1, hp.2⟩
  listed {o x b} hx hp := by
    have h := hl o (Store.lt_of_isSome_op? (by simp [hx]))
    simpa [hx, hp] using h
  nodup b := by
    by_cases hb : b < f.graph.size
    · exact hn b hb
    · rw [BlockGraph.get_of_size_le (Nat.le_of_not_lt hb)]
      exact List.nodup_nil

theorem noMerges_of_check
    (h : ∀ o < f.store.ops.size, ((f.store.op? o).all fun x => x.opcode != .multiEqual) = true) :
    NoMerges f := by
  intro o x hx
  have h' := h o (Store.lt_of_isSome_op? (by simp [hx]))
  simpa [hx] using h'

theorem BlockGraph.frontiersLive_of_check {G : BlockGraph}
    (h : ∀ x < G.size, (G.get x).flags.dead = false →
      ∀ y ∈ (G.get x).frontier.toList, y < G.size ∧ (G.get y).flags.dead = false) :
    G.FrontiersLive :=
  fun x y hx hy => h x hx.1 hx.2 y (Array.mem_toList_iff.mpr hy)

theorem readsFree_of_check
    (h : ∀ b < f.graph.size, ∀ o ∈ (f.graph.get b).ops.toList, ((f.store.op? o).all fun x =>
      x.inputs.all fun v => (f.store.vn? v).all fun y =>
        y.isFree || y.flags.constant || y.flags.annotation) = true) :
    f.ReadsFree := by
  intro b hb o ho x v y hx hv hy
  have h' := h b hb.1 o (Array.mem_toList_iff.mpr ho)
  rw [hx, Option.all_some, Array.all_eq_true'] at h'
  have h'' := h' v hv
  simpa [hy, or_assoc] using h''

end Checks

/-! ## A loop that needs two merges and keeps one

Block `0` copies `r1` into `r2` and sets `r0`; block `1` loops on itself, adding one to `r0` and
setting `r1`. Both variables get a merge at the top of the loop, the iterated frontier of their
writers; the merge of `r0` feeds the addition and stays, the merge of `r1` feeds nothing and goes.
-/

/-- The requests that build the store: registers in space `1`, constants in space `3`. -/
def selfLoopSteps : List Store.Step :=
  [.newVarnode 1 0x4 4, .newOp .copy 0 0x1000, .setInput 0 0 0, .createOutput 0 1 0x8 4,
   .newConstant 4 0, .newOp .copy 0 0x1004, .setInput 1 2 0, .createOutput 1 1 0x0 4,
   .newVarnode 1 0x0 4, .newConstant 4 1, .newOp .intAdd 0 0x1008, .setInput 2 4 0,
   .setInput 2 5 1, .createOutput 2 1 0x0 4,
   .newConstant 4 7, .newOp .copy 0 0x100c, .setInput 3 7 0, .createOutput 3 1 0x4 4,
   .markAlive 0, .markAlive 1, .markAlive 2, .markAlive 3]

/-- The store the requests build. -/
def selfLoopBase : Store :=
  ((selfLoopSteps.foldlM (fun (s : Store) (st : Store.Step) => Prod.snd <$> st.apply s)
    (Store.empty 3 (some 2))).toOption).getD (Store.empty 3 (some 2))

/-- The function, with the graph the dominator analysis gives to `0 → 1 → 1`. -/
def selfLoop : Function :=
  { name := "main", addr := ⟨0, 0x1000⟩, instMax := 0,
    store := (((selfLoopBase.setParent 0 (some 0)).setParent 1 (some 0)).setParent 2 (some 1)).setParent 3
      (some 1),
    graph :=
      { blocks := #[
          { flags := { entryPoint := true }, ops := #[0, 1], outs := #[⟨1, {}, 0⟩], children := #[1] },
          { ops := #[2, 3], ins := #[⟨0, 0⟩, ⟨1, 0⟩], outs := #[⟨1, {}, 1⟩], idom := some 0,
            depth := 1, frontier := #[1] }],
        entry := some 0 } }

theorem selfLoop_ready : selfLoop.SsaReady := by
  have h : selfLoopSteps.foldlM (fun s st => Prod.snd <$> st.apply s) (Store.empty 3 (some 2)) =
      .ok selfLoopBase := rfl
  have hr := (Store.Reachable.init 3 (some 2)).foldSteps h
  exact ⟨((((hr.setParent 0 (some 0)).setParent 1 (some 0)).setParent 2 (some 1)).setParent 3
      (some 1)).sound,
    BlocksHold.of_check (by decide +kernel) (by decide +kernel) (by decide +kernel),
    noMerges_of_check (by decide +kernel), BlockGraph.frontiersLive_of_check (by decide +kernel),
    readsFree_of_check (by decide +kernel)⟩

/-- Merge placement and pruning on the loop. -/
theorem buildSsa_merges_selfLoop :
    selfLoop.SsaReady ∧ selfLoop.graph.entry = some 0 ∧
      ∃ f₁ f₂ g D, selfLoop.placeAll = .ok f₁ ∧
        (∃ st, f₁.renameAll selfLoop.collectVariables 0 = .ok (f₂, st)) ∧
        selfLoop.buildSsa = .ok g ∧ MergesPlaced selfLoop f₁ ∧ f₂.graph = f₁.graph ∧
        (∀ o, (f₂.store.op? o).map Op.skeleton = (f₁.store.op? o).map Op.skeleton) ∧
        MergesPruned f₂ g D ∧ f₁.numMerges = f₁.store.ops.size - selfLoop.store.ops.size ∧
        g.numMerges + D.length = f₁.numMerges :=
  ⟨selfLoop_ready, rfl, buildSsa_merges selfLoop_ready rfl⟩

end Function

end MicroSsa
