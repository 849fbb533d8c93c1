import MicroSsa.Proofs.Blocks.Cfg
import MicroSsa.Proofs.Function.Guards
import MicroSsa.Proofs.Function.Instructions
/-!
# Switch blocks

A block that ends in an indirect branch with a jump table goes to the table's distinct targets
(`Function.tableTargets`): the entries in order of first appearance, then the default when it
differs from every entry. Block generation adds one out-edge per target that starts a block,
labels the edge to the default address as the default, marks the block as bad data when a target
starts no block, and records which table the block reads.

`generateBlocks_switch` says all this of the function block generation ends with. It rests on
the control-flow graph of `generateBlocks_cfg` for the out-edges and on a second look at the
connect stage for what that graph does not record: the default labels (`defaultView`), the bad
data mark and the table of the block (`KeepsBlock`, `connectAll_switch`).

`recoverTable_table` says what a recovered table holds: between one entry and the largest table
allowed, each read from the image at its place in the table and pointing into code, followed by
the default target a guard supplies.
-/

namespace MicroSsa

namespace BlockGraph

/-- The out-edges of block `x`, each as its target and whether it is labelled as the default. -/
def defaultView (g : BlockGraph) (x : Nat) : List (Nat × Bool) :=
  (g.get x).outs.toList.map fun e => (e.target, e.label.switchDefault)

theorem defaultView_addEdge (g : BlockGraph) {a b : Nat} (l : EdgeLabel) (c : Nat) :
    (g.addEdge a b l).defaultView c =
      if c = a ∧ a < g.size then g.defaultView c ++ [(b, l.switchDefault)] else g.defaultView c := by
  simp only [addEdge, defaultView, get_modify, size_modify]
  by_cases hc : c = a
  · subst hc
    by_cases ha : c < g.size <;> by_cases hb : b = c <;> simp [ha, hb]
  · by_cases hb : b = c <;> simp [hb, hc, Ne.symm hc]
    · split <;> simp

theorem succs_eq_map_defaultView (g : BlockGraph) (x : Nat) :
    g.succs x = (g.defaultView x).map (·.1) := by
  simp [succs, defaultView]

theorem defaultView_setJumpTable (g : BlockGraph) (b idx x : Nat) :
    (g.modify b fun blk => { blk with jumpTable := some idx }).defaultView x = g.defaultView x := by
  simp only [defaultView, get_modify]
  split <;> rfl

theorem defaultView_setEntry (g : BlockGraph) (e x : Nat) :
    (g.setEntry e).defaultView x = g.defaultView x := by
  unfold defaultView
  rw [Function.setEntry_get_eq (·.outs) (fun _ _ => rfl)]

theorem jumpTable_addEdge (g : BlockGraph) (a b : Nat) (l : EdgeLabel) (x : Nat) :
    ((g.addEdge a b l).get x).jumpTable = (g.get x).jumpTable := by
  simp only [addEdge, get_modify, size_modify]
  split <;> split <;> rfl

end BlockGraph

namespace Function

/-! ## What the connect stage keeps of a block -/

/-- `g` keeps the out-edges of block `x` of `f`, with their default labels, and its table. -/
structure KeepsBlock (x : Nat) (f g : Function) : Prop where
  view : g.graph.defaultView x = f.graph.defaultView x
  jumpTable : (g.graph.get x).jumpTable = (f.graph.get x).jumpTable

namespace KeepsBlock

variable {x : Nat} {f g h : Function}

theorem refl (x : Nat) (f : Function) : KeepsBlock x f f := ⟨rfl, rfl⟩

theorem trans (h₁ : KeepsBlock x f g) (h₂ : KeepsBlock x g h) : KeepsBlock x f h :=
  ⟨h₂.view.trans h₁.view, h₂.jumpTable.trans h₁.jumpTable⟩

end KeepsBlock

section Keeps

variable {x b : Nat} (f : Function)

theorem keepsBlock_addEdge (hx : x ≠ b) (t : Nat) (l : EdgeLabel) :
    KeepsBlock x f { f with graph := f.graph.addEdge b t l } :=
  ⟨by simp [BlockGraph.defaultView_addEdge, hx], BlockGraph.jumpTable_addEdge _ _ _ _ _⟩

theorem keepsBlock_modifyBlockFlags (y : Nat) (m : BlockFlags → BlockFlags) :
    KeepsBlock x f (f.modifyBlockFlags y m) := by
  constructor <;> simp only [modifyBlockFlags, BlockGraph.defaultView, BlockGraph.get_modify] <;>
    split <;> rfl

theorem keepsBlock_edgeIf (hx : x ≠ b) (t? : Option Nat) : KeepsBlock x f (f.edgeIf b t?) := by
  cases t? with
  | none => exact KeepsBlock.refl x f
  | some t => exact keepsBlock_addEdge f hx t {}

theorem keepsBlock_edgeOrBad (hx : x ≠ b) (t? : Option Nat) : KeepsBlock x f (f.edgeOrBad b t?) := by
  cases t? with
  | none => exact keepsBlock_modifyBlockFlags f b fun fl => { fl with badData := true }
  | some t => exact keepsBlock_addEdge f hx t {}

theorem keepsBlock_tableEdge (hx : x ≠ b) (dflt : Option Nat) (ai : Address × Nat) :
    KeepsBlock x f (tableEdge b dflt f ai) := by
  unfold tableEdge
  split
  · exact keepsBlock_modifyBlockFlags f b fun fl => { fl with badData := true }
  · split
    · exact (keepsBlock_addEdge f hx _ _).trans (keepsBlock_modifyBlockFlags _ _ _)
    · exact (keepsBlock_addEdge f hx _ _).trans (keepsBlock_modifyBlockFlags _ _ _)

theorem keepsBlock_foldl_tableEdge (hx : x ≠ b) (dflt : Option Nat) :
    ∀ (l : List (Address × Nat)) (f : Function), KeepsBlock x f (l.foldl (tableEdge b dflt) f)
  | [], f => KeepsBlock.refl x f
  | ai :: l, f => (keepsBlock_tableEdge f hx dflt ai).trans (keepsBlock_foldl_tableEdge hx dflt l _)

theorem keepsBlock_setJumpTable (hx : x ≠ b) (idx : Nat) :
    KeepsBlock x f { f with graph := f.graph.modify b fun blk => { blk with jumpTable := some idx } } := by
  constructor <;> simp only [BlockGraph.defaultView, BlockGraph.get_modify_ne _ _ (Ne.symm hx)]

theorem keepsBlock_connectIndirect (hx : x ≠ b) (last : Nat) :
    KeepsBlock x f (f.connectIndirect b last) := by
  unfold connectIndirect
  dsimp only
  split
  · -- the flags of the function change too, which `KeepsBlock` does not look at
    have h := keepsBlock_modifyBlockFlags (x := x) f b fun fl => { fl with unreachableRisk := true }
    exact ⟨h.view, h.jumpTable⟩
  · exact (keepsBlock_foldl_tableEdge hx _ _ f).trans (keepsBlock_setJumpTable _ hx _)

/-- Connecting block `b` keeps every other block's out-edges and table. -/
theorem keepsBlock_connectBlock (hx : x ≠ b) : KeepsBlock x f (connectBlock f b) := by
  unfold connectBlock
  split
  · exact KeepsBlock.refl x f
  · split
    · exact keepsBlock_edgeOrBad f hx _
    · dsimp only
      split
      · exact (keepsBlock_edgeIf f hx _).trans (keepsBlock_edgeIf _ hx _)
      · exact ((keepsBlock_modifyBlockFlags f b fun fl => { fl with badData := true }).trans
          (keepsBlock_edgeIf _ hx _)).trans (keepsBlock_edgeIf _ hx _)
    · exact keepsBlock_connectIndirect f hx _
    · exact keepsBlock_modifyBlockFlags f b _
    · exact keepsBlock_edgeOrBad f hx _

theorem keepsBlock_foldl_connectBlock :
    ∀ (l : List Nat) (f : Function), x ∉ l → KeepsBlock x f (l.foldl connectBlock f)
  | [], f, _ => KeepsBlock.refl x f
  | b :: l, f, hx =>
    (keepsBlock_connectBlock f fun h => hx (List.mem_cons.2 (Or.inl h))).trans
      (keepsBlock_foldl_connectBlock l _ fun h => hx (List.mem_cons_of_mem b h))

/-- Choosing the entry keeps the out-edges and the table of every block there was. -/
theorem keepsBlock_placeEntry (hx : x < f.graph.size) : KeepsBlock x f (placeEntry f) := by
  unfold placeEntry
  split
  · split
    · exact ⟨BlockGraph.defaultView_setEntry _ _ _, setEntry_get_eq (·.jumpTable) (fun _ _ => rfl) _ _ _⟩
    · -- the empty block in front is `f.graph.size`, after every block there was
      rw [show f.graph.addBlock = (f.graph.size, f.graph.addBlock.2) from rfl]
      dsimp only
      have hold : (f.graph.addBlock.2.modify f.graph.size fun blk => { blk with start := some f.addr }).get x =
          f.graph.get x := by
        rw [get_addBlock_start, if_neg (Nat.ne_of_lt hx)]
      constructor
      · rw [BlockGraph.defaultView_setEntry, BlockGraph.defaultView_addEdge,
          if_neg fun h => Nat.ne_of_lt hx h.1]
        simp only [BlockGraph.defaultView, hold]
      · rw [setEntry_get_eq (·.jumpTable) (fun _ _ => rfl), BlockGraph.jumpTable_addEdge, hold]
  · exact KeepsBlock.refl x f

end Keeps

/-! ## The edges of a switch block -/

theorem tableTargets_nodup (jt : JumpTable) : (tableTargets jt).Nodup :=
  InsertionSet.nodup_eraseDups _

/-- The position of the default among the table's targets is that of the default address, also
when a case goes there too. -/
theorem tableSet_fst_eq_some_iff (jt : JumpTable) {j : Nat} {a : Address}
    (hj : (tableTargets jt)[j]? = some a) :
    (tableSet jt).1 = some j ↔ jt.defaultIndex.map (jt.addresses[·]!) = some a := by
  have hmem := tableSet_members jt
  unfold tableSet at hmem ⊢
  cases hd : jt.defaultIndex with
  | none => simp
  | some i =>
    simp only [hd, Option.map_some, Option.some.injEq] at hmem ⊢
    have hpos := InsertionSet.getElem?_insert
      (InsertionSet.consistent_empty.insertAll (jt.addresses.toList.take jt.size)) jt.addresses[i]!
    rw [hmem] at hpos
    constructor
    · rintro rfl
      exact Option.some.inj (hpos.symm.trans hj)
    · rintro rfl
      have hk := (List.getElem?_eq_some_iff.mp hpos).1
      exact (List.getElem?_inj hk (tableTargets_nodup jt)).mp (hpos.trans hj.symm)

section View

variable (f : Function) {b : Nat}

/-- A table edge appends the target's block, labelled as the default when its position is the
default's. -/
theorem tableEdge_view (hb : b < f.graph.size) (dflt : Option Nat) (ai : Address × Nat) :
    (tableEdge b dflt f ai).graph.defaultView b = f.graph.defaultView b ++
      ((f.blockOf (f.store.firstOpAt ai.1)).map fun t => (t, dflt == some ai.2)).toList := by
  unfold tableEdge
  cases ht : f.blockOf (f.store.firstOpAt ai.1) with
  | none =>
    simp only [Option.map_none, Option.toList_none, List.append_nil]
    exact (keepsBlock_modifyBlockFlags (x := b) f b fun fl => { fl with badData := true }).view
  | some t =>
    simp only [Option.map_some, Option.toList_some]
    split
    · rename_i hdef
      rw [(keepsBlock_modifyBlockFlags _ t _).view, BlockGraph.defaultView_addEdge, if_pos ⟨rfl, hb⟩,
        hdef]
    · rename_i hdef
      rw [(keepsBlock_modifyBlockFlags _ t _).view, BlockGraph.defaultView_addEdge, if_pos ⟨rfl, hb⟩,
        Bool.eq_false_iff.mpr hdef]

end View

theorem foldl_tableEdge_view {b : Nat} (dflt : Option Nat) :
    ∀ (l : List (Address × Nat)) (f : Function), b < f.graph.size →
      (l.foldl (tableEdge b dflt) f).graph.defaultView b = f.graph.defaultView b ++
        l.filterMap fun ai => (f.blockOf (f.store.firstOpAt ai.1)).map fun t => (t, dflt == some ai.2)
  | [], f, _ => by simp
  | ai :: l, f, hb => by
    obtain ⟨hc, -, -⟩ := tableEdge_spec f hb dflt ai
    rw [List.foldl_cons, foldl_tableEdge_view dflt l _ (by rw [hc.size]; exact hb),
      tableEdge_view f hb, List.filterMap_cons]
    -- the later targets are looked up in the same store
    simp only [blockOf_congr hc.store, hc.store]
    cases f.blockOf (f.store.firstOpAt ai.1) <;> simp


/-- The targets of a table, each with its position, labelled by position or by address alike. -/
theorem filterMap_tableSet_zipIdx (jt : JumpTable) (look : Address → Option Nat) :
    (tableTargets jt).zipIdx.filterMap (fun ai => (look ai.1).map fun t => (t, (tableSet jt).1 == some ai.2)) =
      (tableTargets jt).filterMap fun a =>
        (look a).map fun t => (t, jt.defaultIndex.map (jt.addresses[·]!) == some a) := by
  rw [← filterMap_zipIdx_fst (tableTargets jt) fun a =>
    (look a).map fun t => (t, jt.defaultIndex.map (jt.addresses[·]!) == some a)]
  refine List.filterMap_congr fun ai hai => ?_
  have hlabel : ((tableSet jt).1 == some ai.2) =
      (jt.defaultIndex.map (jt.addresses[·]!) == some ai.1) := by
    rw [Bool.eq_iff_iff, beq_iff_eq, beq_iff_eq]
    exact tableSet_fst_eq_some_iff jt (List.mem_zipIdx_iff_getElem?.mp hai)
  rw [hlabel]

/-- An indirect branch with a table gets one edge per target that has a block, in the order of
the targets, the edge to the default address labelled as the default. -/
theorem connectIndirect_view (f : Function) {b last : Nat} (hb : b < f.graph.size) {jt : JumpTable}
    (ht : f.tableOf last = some jt) :
    (f.connectIndirect b last).graph.defaultView b = f.graph.defaultView b ++
      (tableTargets jt).filterMap fun a =>
        (f.blockOf (f.store.firstOpAt a)).map fun t => (t, jt.defaultIndex.map (jt.addresses[·]!) == some a) := by
  rw [tableOf_eq] at ht
  obtain ⟨idx, hidx, rfl⟩ := Option.map_eq_some_iff.mp ht
  unfold connectIndirect
  dsimp only
  rw [hidx]
  dsimp only
  rw [BlockGraph.defaultView_setJumpTable, foldl_tableEdge_view _ _ _ hb, tableSet_members]
  exact congrArg (f.graph.defaultView b ++ ·)
    (filterMap_tableSet_zipIdx _ fun a => f.blockOf (f.store.firstOpAt a))

/-- The block of an indirect branch with a table records the table's index. -/
theorem connectIndirect_jumpTable (f : Function) {b last : Nat} (hb : b < f.graph.size)
    {jt : JumpTable} (ht : f.tableOf last = some jt) :
    ∃ idx, ((f.connectIndirect b last).graph.get b).jumpTable = some idx ∧ f.jumpTables[idx]? = some jt := by
  rw [tableOf_eq] at ht
  obtain ⟨idx, hidx, rfl⟩ := Option.map_eq_some_iff.mp ht
  have hlt := (Array.findIdx?_eq_some_iff_getElem.mp hidx).1
  refine ⟨idx, ?_, by rw [getElem!_pos f.jumpTables idx hlt, Array.getElem?_eq_getElem hlt]⟩
  unfold connectIndirect
  dsimp only
  rw [hidx]
  dsimp only
  have hsize := (foldl_tableEdge_spec (tableSet f.jumpTables[idx]!).1
    (tableSet f.jumpTables[idx]!).2.members.toList.zipIdx f hb).1.size
  rw [BlockGraph.get_modify, if_pos ⟨rfl, by rw [hsize]; exact hb⟩]

/-- Block `b` of `g` is connected as a switch on the table `jt`: its out-edges go to the blocks of
the table's targets that start one, in the order of the targets, labelled as the default exactly
on the edge to the default address; a target that starts no block marks it as bad data; and it
records where `jt` is among the function's tables. -/
structure SwitchEdges (g : Function) (b : Nat) (jt : JumpTable) : Prop where
  view : g.graph.defaultView b = (tableTargets jt).filterMap fun a =>
    (g.blockOf (g.store.firstOpAt a)).map fun t => (t, jt.defaultIndex.map (jt.addresses[·]!) == some a)
  badData : (∃ a ∈ tableTargets jt, g.blockOf (g.store.firstOpAt a) = none) →
    (g.graph.get b).flags.badData = true
  jumpTable : ∃ idx, (g.graph.get b).jumpTable = some idx ∧ g.jumpTables[idx]? = some jt

/-- Stages that keep the store, the tables, the block's out-edges and table, and its end marks
keep a switch block connected. -/
theorem SwitchEdges.keep {f g : Function} {b : Nat} {jt : JumpTable} (h : SwitchEdges f b jt)
    (hs : g.store = f.store) (hj : g.jumpTables = f.jumpTables) (hk : KeepsBlock b f g)
    (hm : EndMarksLe (f.graph.get b).flags (g.graph.get b).flags) : SwitchEdges g b jt where
  view := by rw [hk.view, h.view, hs]; simp only [blockOf_congr hs]
  badData hnone := by
    simp only [blockOf_congr hs, hs] at hnone
    exact hm.badData (h.badData hnone)
  jumpTable := by rw [hk.jumpTable, hj]; exact h.jumpTable

/-- **The connect stage and switch blocks**: a block without out-edges before the stage, ending in
an indirect branch with a table, comes out connected as a switch on that table. -/
theorem connectAll_switch (F : Function) {b o : Nat} {jt : JumpTable} (hb : b < F.graph.size)
    (hout : F.graph.defaultView b = []) (hlast : (F.graph.get b).ops.back? = some o)
    (hop : (F.store.op? o).map Op.opcode = some .branchInd) (ht : F.tableOf o = some jt) :
    SwitchEdges (connectAll F) b jt := by
  -- the blocks before `b`, then `b`, then the blocks after it
  have hsplit : List.range F.graph.size =
      List.range b ++ b :: (List.range (F.graph.size - (b + 1))).map (b + 1 + ·) := by
    conv_lhs => rw [show F.graph.size = b + 1 + (F.graph.size - (b + 1)) by omega]
    rw [List.range_add, List.range_succ, List.append_assoc, List.singleton_append]
  unfold connectAll
  rw [hsplit, List.foldl_append, List.foldl_cons]
  obtain ⟨hc₁, -⟩ := foldl_connectBlock_spec (List.range b) F
    (fun x hx => (List.mem_range.mp hx).trans hb) List.nodup_range
  have hk₁ := keepsBlock_foldl_connectBlock (x := b) (List.range b) F (by simp)
  generalize (List.range b).foldl connectBlock F = F₁ at hc₁ hk₁ ⊢
  -- the visit of `b` goes through its table
  have hb₁ : b < F₁.graph.size := by rw [hc₁.size]; exact hb
  have ht₁ : F₁.tableOf o = some jt := by rw [tableOf_congr hc₁.sameFlow]; exact ht
  have hvisit : connectBlock F₁ b = F₁.connectIndirect b o := by
    unfold connectBlock
    rw [hc₁.ops, hlast]
    dsimp only
    rw [hc₁.store, hop]
  obtain ⟨hc₂, -, -, hbad₂⟩ := connectIndirect_spec F₁ hb₁ o
  have hS : SwitchEdges (F₁.connectIndirect b o) b jt := by
    refine ⟨?_, fun hnone => hbad₂ jt ht₁ ?_, ?_⟩
    · rw [connectIndirect_view F₁ hb₁ ht₁, hk₁.view, hout, List.nil_append, hc₂.store]
      simp only [blockOf_congr hc₂.store]
    · simpa only [blockOf_congr hc₂.store, hc₂.store] using hnone
    · rw [hc₂.jumpTables]
      exact connectIndirect_jumpTable F₁ hb₁ ht₁
  -- the blocks after `b` keep it
  rw [hvisit]
  have hnot : b ∉ (List.range (F.graph.size - (b + 1))).map (b + 1 + ·) := by
    simp only [List.mem_map, List.mem_range, not_exists, not_and]
    intro k _
    omega
  have hlt : ∀ x ∈ (List.range (F.graph.size - (b + 1))).map (b + 1 + ·),
      x < (F₁.connectIndirect b o).graph.size := by
    intro x hx
    obtain ⟨k, hk, rfl⟩ := List.mem_map.mp hx
    have := List.mem_range.mp hk
    rw [hc₂.size, hc₁.size]
    omega
  have hnd : ((List.range (F.graph.size - (b + 1))).map (b + 1 + ·)).Nodup :=
    List.nodup_range.map fun _ _ h => by omega
  obtain ⟨hc₃, -⟩ := foldl_connectBlock_spec _ _ hlt hnd
  exact hS.keep hc₃.store hc₃.jumpTables (keepsBlock_foldl_connectBlock _ _ hnot) (hc₃.marks b)

/-- **Block generation and switch blocks**: every block that ends in an indirect branch with a
table comes out of block generation connected as a switch on that table. -/
theorem generateBlocks_switch (f : Function) {b o : Nat} {jt : JumpTable}
    (hb : b < f.generateBlocks.graph.size) (hlast : (f.generateBlocks.graph.get b).ops.back? = some o)
    (hop : (f.generateBlocks.store.op? o).map Op.opcode = some .branchInd)
    (ht : f.generateBlocks.tableOf o = some jt) : SwitchEdges f.generateBlocks b jt := by
  have h₀ := sameFlow_clearBlocks f
  rw [generateBlocks_eq] at hb hlast hop ht ⊢
  split
  · rename_i hempty
    rw [if_pos hempty] at hb
    exact absurd hb (Nat.not_lt_zero b)
  · rename_i hne
    rw [if_neg hne] at hb hlast hop ht
    -- the stages, as for the control-flow graph
    have hM := markedFrom_marks f.clearBlocks
    rw [Store.aliveOps_congr h₀.flow] at hM
    dsimp only at hb hlast hop ht ⊢
    generalize f.store.aliveOps.foldl markBranch
      (f.clearBlocks.startAddrs.foldl markAddr f.clearBlocks) = M at hM hb hlast hop ht ⊢
    have hLM : M.store.aliveOps = f.store.aliveOps := Store.aliveOps_congr (h₀.trans hM.flow).flow
    have hP := parted_foldl M f.store.aliveOps [] M none none (parted_start hM.graph)
      (by simpa using Store.nodup_aliveOps f.store) (fun o ho => by rw [hLM]; exact ho)
    generalize f.store.aliveOps.foldl partitionStep (M, none, none) = R at hP hb hlast hop ht ⊢
    obtain ⟨hG, -⟩ := connectAll_spec R.1
    have hE := placeEntry_spec (connectAll R.1)
    -- `b` is a block of the partition: a block put in front of the entry holds nothing
    have hbR : b < R.1.graph.size := by
      by_contra hge
      have hpre := hE.pre b (by rw [hG.size]; omega) hb
      rw [hpre.1] at hlast
      cases hlast
    have hbC : b < (connectAll R.1).graph.size := by rw [hG.size]; exact hbR
    have hlastR : (R.1.graph.get b).ops.back? = some o := by
      rw [← hG.ops, ← hE.ops b hbC]
      exact hlast
    have hopR : (R.1.store.op? o).map Op.opcode = some .branchInd := by
      rw [← hG.store, ← hE.store]
      exact hop
    have htR : R.1.tableOf o = some jt := by
      rw [← tableOf_congr (hG.sameFlow.trans hE.sameFlow)]
      exact ht
    have hout : R.1.graph.defaultView b = [] := by simp [BlockGraph.defaultView, hP.outs b]
    have hS := (connectAll_switch R.1 hbR hout hlastR hopR htR).keep hE.store hE.jumpTables
      (keepsBlock_placeEntry _ hbC) (hE.marks b hbC)
    exact ⟨hS.view, hS.badData, hS.jumpTable⟩

theorem SwitchEdges.succs_eq {g : Function} {b : Nat} {jt : JumpTable} (h : SwitchEdges g b jt) :
    g.graph.succs b = (tableTargets jt).filterMap fun a => g.blockOf (g.store.firstOpAt a) := by
  rw [BlockGraph.succs_eq_map_defaultView, h.view, List.map_filterMap]
  refine List.filterMap_congr fun a _ => ?_
  cases g.blockOf (g.store.firstOpAt a) <;> rfl

/-- In a correct control-flow graph a switch block has no two out-edges to one block: two targets
of its table that start the same block are the same address. -/
theorem CfgCorrect.switch_succs_nodup {g : Function} (hcfg : CfgCorrect g) {b o : Nat}
    {jt : JumpTable} (hb : b < g.graph.size) (hlast : (g.graph.get b).ops.back? = some o)
    (hop : (g.store.op? o).map Op.opcode = some .branchInd) (ht : g.tableOf o = some jt) :
    (g.graph.succs b).Nodup := by
  have hsucc : g.successorOps o = (tableTargets jt).filterMap g.store.firstOpAt := by
    unfold successorOps
    rw [hop, ht]
    rfl
  -- distinct addresses have distinct first operations
  have hops : (g.successorOps o).Nodup := by
    rw [hsucc]
    exact (tableTargets_nodup jt).filterMap fun a a' s ha ha' =>
      Store.firstOpAt_inj (Option.mem_def.mp ha) (Option.mem_def.mp ha')
  -- and distinct successor operations begin distinct blocks
  rw [hcfg.succs b hb o hlast]
  refine (List.Pairwise.and_mem.mp hops).filterMap _ fun s s' hss' t hs t' hs' htt' => ?_
  obtain ⟨hsm, hsm', hne⟩ := hss'
  obtain ⟨u, hu, hhead⟩ := hcfg.begins b hb o hlast s hsm
  obtain ⟨u', hu', hhead'⟩ := hcfg.begins b hb o hlast s' hsm'
  rw [hs] at hu
  rw [hs'] at hu'
  cases hu
  cases hu'
  rw [htt', hhead'] at hhead
  exact hne (Option.some.inj hhead).symm

/-! ## Recovered tables and their switch blocks -/

/-- **A recovered table holds the image's entries, and its switch block gets one edge per distinct
target.** The table is read off the image, one entry at a time, and a default follows the entries
only when a guard supplied it. After block generation, a block ending in an indirect branch whose
table it is goes to the blocks of the distinct targets that start one, labels the edge to the
default address as the default, is marked as bad data when a target starts no block, and records
the table; when block generation may run, no two of its out-edges go to one block. -/
theorem recoveredTable_switchEdges {f : Function} {ctx : Context} {o : Nat} {t : JumpTable}
    (ht : f.recoverTable ctx o = .ok t) :
    (∃ ptr base idx scale default, f.tablePointer o = some ptr ∧
      f.matchTableAddress ptr = some (base, idx, scale) ∧ t.tableAddr.offset = base ∧
      TableRead ctx scale default t ∧
      ∀ d, default = some d → ∃ switch chain bound,
        f.guardLoop switch chain (f.graph.size + 1) switch = some bound ∧ bound.default = some d) ∧
    ∀ (g : Function) (b last : Nat), b < g.generateBlocks.graph.size →
      (g.generateBlocks.graph.get b).ops.back? = some last →
      (g.generateBlocks.store.op? last).map Op.opcode = some .branchInd →
      g.generateBlocks.tableOf last = some t →
      SwitchEdges g.generateBlocks b t ∧ (g.BlocksReady → (g.generateBlocks.graph.succs b).Nodup) := by
  refine ⟨?_, fun g b last hb hlast hop htab =>
    ⟨generateBlocks_switch g hb hlast hop htab, fun hg =>
      (generateBlocks_cfg g hg).switch_succs_nodup hb hlast hop htab⟩⟩
  obtain ⟨-, switch, ptr, base, idx, scale, bound, -, -, hptr, hm, hbound, -, hbase, -, hread⟩ :=
    recoverTable_eq_ok_read ht
  refine ⟨ptr, base, idx, scale, bound.default, hptr, hm, hbase, hread, fun d hd => ?_⟩
  rcases hbound with hguard | ⟨-, hmask⟩
  · exact ⟨switch, _, bound, hguard, hd⟩
  · rw [maskBound_default hmask] at hd
    cases hd

/-- The four-entry table behind the indirect branch of `guardBypass` is read off the image. -/
theorem recoveredTable_switchEdges_guardBypass :
    ∃ t, (propagateConstants guardContext guardBypass).recoverTable guardContext 6 = .ok t ∧
      t.size = 4 ∧ ∃ scale default, TableRead guardContext scale default t := by
  have htable : ((propagateConstants guardContext guardBypass).recoverTable guardContext 6).toOption.map
      (·.size) = some 4 := by
    unfold propagateConstants
    rw [propagateValues_eq, startValues_eq]
    decide +kernel
  obtain ⟨t, ht, hsize⟩ := Except.exists_eq_ok_of_toOption htable
  obtain ⟨⟨-, -, -, scale, default, -, -, -, hread, -⟩, -⟩ := recoveredTable_switchEdges ht
  exact ⟨t, ht, hsize, scale, default, hread⟩

end Function

end MicroSsa
