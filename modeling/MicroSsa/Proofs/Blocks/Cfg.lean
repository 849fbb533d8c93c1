import MicroSsa.Proofs.Blocks.Connect
/-!
# Block generation builds the control-flow graph

`Function.generateBlocks` cuts the alive operations of a function into basic blocks and
connects them. The main statement, `generateBlocks_cfg`, says that when no two alive operations
share a sequence number and every jump table is well formed (`BlocksReady`), the graph it
builds matches control flow (`CfgCorrect`):

* every alive operation is in exactly one block, which its parent names; a block holds alive
  operations that stand together in program order; only the empty block put in front of the
  entry holds none;
* inside a block no operation branches, and each is followed by its fallthrough;
* the out-edges of a block go to the blocks of its last operation's successors
  (`successorOps`), in order, and each of these blocks begins with that successor;
* a block without out-edges returns, ends in an unresolved indirect branch or is marked as bad
  data.

The proof follows the stages of `generateBlocks_eq`: the marks (`MarkedFrom`), the partition
(`Parted`), the connect stage (`Connects`, `Connected`) and the entry (`EntryPlaced`). The two
assumptions are where the stages have to agree: distinct sequence numbers make the fallthrough
of a block's last operation the first of its block, and a well-formed table has targets, all
among the addresses marked as block starts.
-/

namespace MicroSsa

/-- A jump table as recovery builds it: at least one entry, an address for each entry, and the
default, if any, among the addresses. -/
structure JumpTable.WellFormed (jt : JumpTable) : Prop where
  size_pos : 0 < jt.size
  size_le : jt.size ≤ jt.addresses.size
  default_lt : ∀ i, jt.defaultIndex = some i → i < jt.addresses.size

namespace JumpTable.WellFormed

theorem tableTargets_ne_nil {jt : JumpTable} (h : jt.WellFormed) :
    Function.tableTargets jt ≠ [] := by
  have h0 : 0 < jt.addresses.size := Nat.lt_of_lt_of_le h.size_pos h.size_le
  have hmem : jt.addresses[0] ∈ Function.tableTargets jt := by
    unfold Function.tableTargets
    rw [List.mem_eraseDups]
    refine List.mem_append_left _ (List.mem_iff_getElem.mpr ⟨0, ?_, ?_⟩)
    · simp only [List.length_take, Array.length_toList]
      exact Nat.lt_min.mpr ⟨h.size_pos, h0⟩
    · simp
  exact List.ne_nil_of_mem hmem

theorem mem_addresses {jt : JumpTable} (h : jt.WellFormed) {a : Address}
    (ha : a ∈ Function.tableTargets jt) : a ∈ jt.addresses := by
  unfold Function.tableTargets at ha
  rw [List.mem_eraseDups, List.mem_append] at ha
  rcases ha with ha | ha
  · exact Array.mem_toList_iff.mp (List.mem_of_mem_take ha)
  · cases hd : jt.defaultIndex with
    | none => rw [hd] at ha; cases ha
    | some i =>
      rw [hd] at ha
      have hi := h.default_lt i hd
      simp only [Option.map_some, Option.toList_some, List.mem_singleton] at ha
      rw [ha, getElem!_pos jt.addresses i hi]
      exact Array.getElem_mem hi

end JumpTable.WellFormed

namespace Function

/-- What block generation expects of a function: no two alive operations share a sequence
number, and every jump table is well formed. -/
structure BlocksReady (f : Function) : Prop where
  distinct_seqs : (f.store.aliveSeqs.map (·.2)).Nodup
  tables : ∀ jt ∈ f.jumpTables, jt.WellFormed

/-- The control-flow graph of `g` matches its operations. -/
structure CfgCorrect (g : Function) : Prop where
  /-- Every alive operation is in exactly one block. -/
  one_block : ∀ o ∈ g.store.aliveOps, ∃ b < g.graph.size, o ∈ (g.graph.get b).ops ∧
    ∀ b' < g.graph.size, o ∈ (g.graph.get b').ops → b' = b
  /-- An operation's parent is its block. -/
  parent : ∀ b < g.graph.size, ∀ o ∈ (g.graph.get b).ops, g.blockOf (some o) = some b
  /-- A block's operations stand together in program order. -/
  consecutive : ∀ b < g.graph.size,
    ∃ l₁ l₂, g.store.aliveOps = l₁ ++ (g.graph.get b).ops.toList ++ l₂
  /-- Only the pre-entry block is empty. -/
  nonempty : ∀ b < g.graph.size, (g.graph.get b).ops ≠ #[] ∨ g.IsPreEntry b
  /-- Inside a block, an operation does not branch and the next one is its fallthrough. -/
  inner : ∀ b < g.graph.size, ∀ l₁ l₂ o o', (g.graph.get b).ops.toList = l₁ ++ o :: o' :: l₂ →
    (∀ x, g.store.op? o = some x → x.opcode.isBranch = false) ∧ g.fallthroughOp o = some o'
  /-- The out-edges of a block go to the blocks of its last operation's successors. -/
  succs : ∀ b < g.graph.size, ∀ o, (g.graph.get b).ops.back? = some o →
    g.graph.succs b = (g.successorOps o).filterMap fun s => g.blockOf (some s)
  /-- Each successor begins its block. -/
  begins : ∀ b < g.graph.size, ∀ o, (g.graph.get b).ops.back? = some o →
    ∀ s ∈ g.successorOps o, ∃ t, g.blockOf (some s) = some t ∧ (g.graph.get t).ops.toList.head? = some s
  /-- A block without out-edges says why. -/
  no_edge : ∀ b < g.graph.size, g.graph.succs b = [] →
    ∃ o, (g.graph.get b).ops.back? = some o ∧ g.NoEdgeReason b o

/-! ## The marks -/

/-- `M` is `f` with the operations that must start a block marked: the flow is kept, and so is
the graph; the first operation at each start address, the operation after each branch and the
target of each direct branch are marked. -/
structure MarkedFrom (f M : Function) : Prop where
  flow : SameFlow f M
  graph : M.graph = f.graph
  addr : ∀ a ∈ f.startAddrs, ∀ o, f.store.firstOpAt a = some o → M.Marked o
  next : ∀ o ∈ f.store.aliveOps, ∀ x, f.store.op? o = some x → x.opcode.isBranch = true →
    ∀ n, f.store.nextAfter x.seq = some n → M.Marked n
  target : ∀ o ∈ f.store.aliveOps, ∀ x, f.store.op? o = some x →
    (x.opcode = .branch ∨ x.opcode = .cbranch) → ∀ t, f.branchTargetOp o = some t → M.Marked t

/-- A fold of steps that keep the graph keeps it. -/
theorem foldl_graph {α : Type} (step : Function → α → Function)
    (h : ∀ f a, (step f a).graph = f.graph) : ∀ (l : List α) (f : Function),
    (l.foldl step f).graph = f.graph
  | [], _ => rfl
  | a :: l, f => (foldl_graph step h l (step f a)).trans (h f a)

theorem graph_markAddr (f : Function) (a : Address) : (markAddr f a).graph = f.graph := by
  unfold markAddr
  split <;> rfl

theorem graph_markBranch (f : Function) (o : Nat) : (markBranch f o).graph = f.graph := by
  have hnext : (f.markNext o).graph = f.graph := by unfold markNext; split <;> rfl
  have htarget : ∀ g : Function, (g.markTarget o).graph = g.graph := by
    intro g; unfold markTarget; split <;> rfl
  unfold markBranch
  split
  · split
    · split
      · rw [htarget, hnext]
      · exact hnext
    · rfl
  · rfl

/-- **The marking stages** mark every operation that must start a block. -/
theorem markedFrom_marks (f : Function) :
    MarkedFrom f (f.store.aliveOps.foldl markBranch (f.startAddrs.foldl markAddr f)) := by
  obtain ⟨hflow₁, -, hmark₁⟩ := markAddrs_spec f.startAddrs f
  have halive : ∀ o ∈ f.store.aliveOps, o ∈ (f.startAddrs.foldl markAddr f).store.aliveOps :=
    fun o ho => by rw [Store.aliveOps_congr hflow₁.flow]; exact ho
  obtain ⟨hflow₂, hkeep₂, hmark₂⟩ := markBranches_spec f.store.aliveOps _ halive
  refine ⟨hflow₁.trans hflow₂, ?_, fun a ha o ho => hkeep₂ o (hmark₁ a ha o ho), ?_, ?_⟩
  · rw [foldl_graph markBranch graph_markBranch, foldl_graph markAddr graph_markAddr]
  -- the operation is the same, as flow sees it, after the marks by address
  · intro o ho x hx hbr n hn
    obtain ⟨y, hy, hyflow⟩ := hflow₁.exists_op hx
    have hyop : y.opcode = x.opcode := congrArg (·.1) hyflow
    have hyseq : y.seq = x.seq := congrArg (·.2.1) hyflow
    refine (hmark₂ o ho y hy (hyop ▸ hbr)).1 n ?_
    rw [hyseq, Store.nextAfter_congr hflow₁.flow]
    exact hn
  · intro o ho x hx hdir t ht
    obtain ⟨y, hy, hyflow⟩ := hflow₁.exists_op hx
    have hyop : y.opcode = x.opcode := congrArg (·.1) hyflow
    have hbr : y.opcode.isBranch = true := by
      rw [hyop]
      rcases hdir with h | h <;> rw [h] <;> rfl
    refine (hmark₂ o ho y hy hbr).2 (hyop ▸ hdir) t ?_
    rw [branchTargetOp_congr hflow₁]
    exact ht

/-- Clearing the parents keeps the flow. -/
theorem sameFlow_clearBlocks (f : Function) : SameFlow f f.clearBlocks := by
  have key : ∀ (l : List Nat) (g : Function),
      SameFlow g { g with store := l.foldl (fun s o => s.setParent o none) g.store, graph := {} } := by
    intro l
    induction l with
    | nil => exact fun g => sameFlow_graph g {}
    | cons o l ih => exact fun g => (sameFlow_setParent g o none).trans (ih _)
  exact key _ f

/-! ## From the stages to the graph -/

section Stages

variable {f₀ M F G H : Function} {cur prev : Option Nat}
  (hM : MarkedFrom f₀ M) (hP : Parted M M.store.aliveOps F cur prev)
  (hG : Connects (List.range F.graph.size) F G)
  (hconn : ∀ b < F.graph.size, ∀ last, (F.graph.get b).ops.back? = some last →
    Connected F G b last)
  (hE : EntryPlaced G H)

include hP hG hE in
theorem Parted.sameFlow_final : SameFlow M H :=
  hP.flow.trans (hG.sameFlow.trans hE.sameFlow)

include hG hE in
theorem Connects.ops_final {b : Nat} (hb : b < F.graph.size) :
    (H.graph.get b).ops = (F.graph.get b).ops := by
  rw [hE.ops b (by rw [hG.size]; exact hb), hG.ops b]

include hG hE in
/-- Only the blocks of the partition hold operations. -/
theorem Connects.lt_of_ops_ne {b : Nat} (hb : b < H.graph.size) (h : (H.graph.get b).ops ≠ #[]) :
    b < F.graph.size := by
  by_contra hlt
  exact h (hE.pre b (by rw [hG.size]; omega) hb).1

include hG hE in
theorem Connects.mem_ops_final {b o : Nat} (hb : b < H.graph.size) (ho : o ∈ (H.graph.get b).ops) :
    b < F.graph.size ∧ o ∈ (F.graph.get b).ops := by
  have hbF := hG.lt_of_ops_ne hE hb (Array.ne_empty_of_mem ho)
  exact ⟨hbF, by rw [← hG.ops_final hE hbF]; exact ho⟩

include hG hE in
theorem Connects.back?_final {b o : Nat} (hb : b < H.graph.size)
    (ho : (H.graph.get b).ops.back? = some o) :
    b < F.graph.size ∧ (F.graph.get b).ops.back? = some o := by
  obtain ⟨hbF, -⟩ := hG.mem_ops_final hE hb (Array.mem_of_back? ho)
  exact ⟨hbF, by rw [← hG.ops_final hE hbF]; exact ho⟩

include hP hG hE in
theorem Parted.one_block_final : ∀ o ∈ H.store.aliveOps, ∃ b < H.graph.size,
    o ∈ (H.graph.get b).ops ∧ ∀ b' < H.graph.size, o ∈ (H.graph.get b').ops → b' = b := by
  intro o ho
  rw [Store.aliveOps_congr (hP.sameFlow_final hG hE).flow] at ho
  obtain ⟨b, hb, hob⟩ := hP.mem_iff.mp ho
  refine ⟨b, Nat.lt_of_lt_of_le (by rw [hG.size]; exact hb) hE.size_le,
    by rw [hG.ops_final hE hb]; exact hob, fun b' hb' hob' => ?_⟩
  obtain ⟨hb'F, hob'F⟩ := hG.mem_ops_final hE hb' hob'
  exact hP.block_eq hb'F hb hob'F hob

include hP hG hE in
theorem Parted.parent_final : ∀ b < H.graph.size, ∀ o ∈ (H.graph.get b).ops,
    H.blockOf (some o) = some b := by
  intro b hb o ho
  obtain ⟨hbF, hoF⟩ := hG.mem_ops_final hE hb ho
  show (H.store.op? o).bind (·.parent) = some b
  rw [hE.store, hG.store]
  exact hP.parent b hbF o hoF

include hP hG hE in
theorem Parted.consecutive_final : ∀ b < H.graph.size,
    ∃ l₁ l₂, H.store.aliveOps = l₁ ++ (H.graph.get b).ops.toList ++ l₂ := by
  intro b hb
  rw [Store.aliveOps_congr (hP.sameFlow_final hG hE).flow]
  by_cases hbF : b < F.graph.size
  · rw [hG.ops_final hE hbF]
    exact hP.consecutive hbF
  · rw [(hE.pre b (by rw [hG.size]; omega) hb).1]
    exact ⟨M.store.aliveOps, [], by simp⟩

include hP hG hE in
theorem Parted.nonempty_final : ∀ b < H.graph.size, (H.graph.get b).ops ≠ #[] ∨ H.IsPreEntry b := by
  intro b hb
  by_cases hbF : b < F.graph.size
  · refine Or.inl fun h => hP.nonempty b hbF ?_
    rw [← hG.ops_final hE hbF, h]
  · exact Or.inr (hE.pre b (by rw [hG.size]; omega) hb)

include hM hP hG hE in
theorem Parted.inner_final : ∀ b < H.graph.size, ∀ l₁ l₂ o o',
    (H.graph.get b).ops.toList = l₁ ++ o :: o' :: l₂ →
      (∀ x, H.store.op? o = some x → x.opcode.isBranch = false) ∧ H.fallthroughOp o = some o' := by
  intro b hb l₁ l₂ o o' h
  have hne : (H.graph.get b).ops ≠ #[] := by
    intro he
    rw [he] at h
    simp at h
  have hbF := hG.lt_of_ops_ne hE hb hne
  rw [hG.ops_final hE hbF] at h
  obtain ⟨hunmarked, hfall⟩ := hP.inner h
  have hs := hP.sameFlow_final hG hE
  refine ⟨fun x hx => ?_, by rw [fallthroughOp_congr hs]; exact hfall⟩
  -- after a branch, the next operation is marked, so it would start a block
  by_contra hbr
  rw [Bool.not_eq_false] at hbr
  have ho : o ∈ f₀.store.aliveOps := by
    rw [← Store.aliveOps_congr hM.flow.flow]
    exact hP.mem_iff.mpr ⟨b, hbF, Array.mem_toList_iff.mp (by rw [h]; simp)⟩
  obtain ⟨x₀, hx₀, hnext⟩ := fallthroughOp_spec (by rw [← fallthroughOp_congr hM.flow]; exact hfall)
  have hop : x₀.opcode = x.opcode := by
    have h' := (hM.flow.trans hs).opcode o
    rw [hx, hx₀] at h'
    exact (Option.some.inj h').symm
  exact hunmarked (hM.next o ho x₀ hx₀ (hop ▸ hbr) o' hnext)

include hP hG hconn hE in
theorem Parted.succs_final : ∀ b < H.graph.size, ∀ o, (H.graph.get b).ops.back? = some o →
    H.graph.succs b = (H.successorOps o).filterMap fun s => H.blockOf (some s) := by
  intro b hb o ho
  obtain ⟨hbF, hoF⟩ := hG.back?_final hE hb ho
  have hs : SameFlow F H := hG.sameFlow.trans hE.sameFlow
  have hnil : F.graph.succs b = [] := by simp [BlockGraph.succs, hP.outs b]
  rw [hE.succs b (by rw [hG.size]; exact hbF), (hconn b hbF o hoF).succs, hnil, List.nil_append,
    successorOps_congr hs]
  simp only [blockOf_congr (hE.store.trans hG.store)]

include hM hP hG hE in
/-- **Each successor begins its block**: a branch target or a jump-table target because it is
marked, a fallthrough because it follows the last operation of a block. -/
theorem Parted.begins_final (hd : (M.store.aliveSeqs.map (·.2)).Nodup)
    (hwf : ∀ jt ∈ f₀.jumpTables, jt.WellFormed) :
    ∀ b < H.graph.size, ∀ o, (H.graph.get b).ops.back? = some o → ∀ s ∈ H.successorOps o,
      ∃ t, H.blockOf (some s) = some t ∧ (H.graph.get t).ops.toList.head? = some s := by
  intro b hb o ho s hsucc
  obtain ⟨hbF, hoF⟩ := hG.back?_final hE hb ho
  have hs₀ : SameFlow f₀ H := hM.flow.trans (hP.sameFlow_final hG hE)
  rw [successorOps_congr hs₀] at hsucc
  have hoM : o ∈ M.store.aliveOps := hP.mem_iff.mpr ⟨b, hbF, Array.mem_of_back? hoF⟩
  have ho₀ : o ∈ f₀.store.aliveOps := by rw [← Store.aliveOps_congr hM.flow.flow]; exact hoM
  have hsM : s ∈ M.store.aliveOps := by
    rw [Store.aliveOps_congr hM.flow.flow]
    exact mem_aliveOps_of_mem_successorOps ho₀ hsucc
  -- a marked successor begins its block
  have hmarked : M.Marked s →
      ∃ t < F.graph.size, s ∈ (F.graph.get t).ops ∧ (F.graph.get t).ops.toList.head? = some s := by
    intro hm
    obtain ⟨t, ht, hst⟩ := hP.mem_iff.mp hsM
    exact ⟨t, ht, hst, hP.head_of_marked hst hm⟩
  have hhead : ∃ t < F.graph.size, s ∈ (F.graph.get t).ops ∧
      (F.graph.get t).ops.toList.head? = some s := by
    rcases mem_successorOps hsucc with ⟨hop, hbt⟩ | hft | ⟨jt, hjt, a, ha, hfirst⟩
    · obtain ⟨x, hx, -⟩ := Store.mem_aliveOps.mp ho₀
      have hdir : x.opcode = .branch ∨ x.opcode = .cbranch := by
        rw [hx] at hop
        simpa using hop
      exact hmarked (hM.target o ho₀ x hx hdir s hbt)
    · exact hP.head_of_fallthrough hd hbF hoF (by rw [fallthroughOp_congr hM.flow]; exact hft)
    · have haddr : a ∈ f₀.startAddrs := by
        simp only [startAddrs, List.mem_cons, List.mem_append, List.mem_flatMap, Array.mem_toList_iff]
        exact Or.inr ⟨jt, hjt, (hwf jt hjt).mem_addresses ha⟩
      exact hmarked (hM.addr a haddr s hfirst)
  obtain ⟨t, ht, hst, hhd⟩ := hhead
  have htH : t < H.graph.size := Nat.lt_of_lt_of_le (by rw [hG.size]; exact ht) hE.size_le
  refine ⟨t, hP.parent_final hG hE t htH s (by rw [hG.ops_final hE ht]; exact hst), ?_⟩
  rw [hG.ops_final hE ht]
  exact hhd

include hM hP hG hconn hE in
/-- **A block without out-edges says why**: the connect stage left a reason, and the pre-entry
block has an out-edge. -/
theorem Parted.no_edge_final (hwf : ∀ jt ∈ f₀.jumpTables, jt.WellFormed) :
    ∀ b < H.graph.size, H.graph.succs b = [] →
      ∃ o, (H.graph.get b).ops.back? = some o ∧ H.NoEdgeReason b o := by
  intro b hb hnil
  by_cases hbF : b < F.graph.size
  · obtain ⟨o, ho⟩ : ∃ o, (F.graph.get b).ops.back? = some o := by
      cases h : (F.graph.get b).ops.back? with
      | none =>
        rw [Array.back?_eq_none_iff] at h
        exact absurd (by rw [h]) (hP.nonempty b hbF)
      | some o => exact ⟨o, rfl⟩
    have hc := hconn b hbF o ho
    have hbG : b < G.graph.size := by rw [hG.size]; exact hbF
    have hempty : (F.successorOps o).filterMap (fun s => F.blockOf (some s)) = [] := by
      have h := hc.succs
      rw [← hE.succs b hbG, hnil] at h
      exact (List.append_eq_nil_iff.mp h.symm).2
    have htab : ∀ jt, F.tableOf o = some jt → tableTargets jt ≠ [] := by
      intro jt hjt
      have hmem : jt ∈ f₀.jumpTables := by
        rw [← (hM.flow.trans hP.flow).jumpTables]
        exact Array.mem_of_find?_eq_some hjt
      exact (hwf jt hmem).tableTargets_ne_nil
    exact ⟨o, by rw [hG.ops_final hE hbF]; exact ho, hE.noEdgeReason hbG (hc.reason htab hempty)⟩
  · obtain ⟨-, -, e, -, he⟩ := hE.pre b (by rw [hG.size]; omega) hb
    rw [he] at hnil
    cases hnil

end Stages

/-- The function's own marks are no part of its graph. -/
theorem CfgCorrect.setFlags {g : Function} (h : CfgCorrect g) (fl : FuncFlags) :
    CfgCorrect { g with flags := fl } := by
  have hs : SameFlow g { g with flags := fl } := ⟨rfl, rfl, rfl, rfl, rfl⟩
  refine ⟨h.one_block, h.parent, h.consecutive, h.nonempty, h.inner, fun b hb o ho => ?_,
    fun b hb o ho => ?_, h.no_edge⟩
  · rw [successorOps_congr hs]
    exact h.succs b hb o ho
  · rw [successorOps_congr hs]
    exact h.begins b hb o ho

/-- With nothing alive there is no block. -/
theorem cfgCorrect_of_empty {g : Function} (halive : g.store.aliveOps = [])
    (hsize : g.graph.size = 0) : CfgCorrect g where
  one_block o ho := by rw [halive] at ho; cases ho
  parent b hb := absurd hb (by omega)
  consecutive b hb := absurd hb (by omega)
  nonempty b hb := absurd hb (by omega)
  inner b hb := absurd hb (by omega)
  succs b hb := absurd hb (by omega)
  begins b hb := absurd hb (by omega)
  no_edge b hb := absurd hb (by omega)

/-- **Block generation builds the control-flow graph**: when no two alive operations share a
sequence number and every jump table is well formed, every alive operation lands in exactly one
block, blocks run along fallthroughs and end at branches, and the out-edges of each block are
those of its last operation. -/
theorem generateBlocks_cfg (f : Function) (hf : BlocksReady f) : CfgCorrect f.generateBlocks := by
  have h₀ := sameFlow_clearBlocks f
  rw [generateBlocks_eq]
  split
  · rename_i hempty
    refine cfgCorrect_of_empty ?_ rfl
    rw [Store.aliveOps_congr h₀.flow]
    exact List.isEmpty_iff.mp hempty
  · -- the stages, one after another
    have hM := markedFrom_marks f.clearBlocks
    rw [Store.aliveOps_congr h₀.flow] at hM
    dsimp only
    generalize f.store.aliveOps.foldl markBranch
      (f.clearBlocks.startAddrs.foldl markAddr f.clearBlocks) = M at hM ⊢
    have hLM : M.store.aliveOps = f.store.aliveOps := Store.aliveOps_congr (h₀.trans hM.flow).flow
    have hP := parted_foldl M f.store.aliveOps [] M none none (parted_start hM.graph)
      (by simpa using Store.nodup_aliveOps f.store) (fun o ho => by rw [hLM]; exact ho)
    generalize f.store.aliveOps.foldl partitionStep (M, none, none) = R at hP ⊢
    rw [List.nil_append, ← hLM] at hP
    obtain ⟨hG, hconn⟩ := connectAll_spec R.1
    have hE := placeEntry_spec (connectAll R.1)
    have hd : (M.store.aliveSeqs.map (·.2)).Nodup := by
      rw [Store.aliveSeqs_congr (h₀.trans hM.flow).flow]
      exact hf.distinct_seqs
    have hwf : ∀ jt ∈ f.clearBlocks.jumpTables, jt.WellFormed := hf.tables
    refine CfgCorrect.setFlags ⟨hP.one_block_final hG hE, hP.parent_final hG hE,
      hP.consecutive_final hG hE, hP.nonempty_final hG hE, hP.inner_final hM hG hE,
      hP.succs_final hG hconn hE, hP.begins_final hM hG hE hd hwf,
      hP.no_edge_final hM hG hconn hE hwf⟩ _

/-- A one-instruction loop through a jump table: an indirect branch whose one target is itself,
so that the entry gets an empty block in front of it. -/
def tableLoop : Function where
  name := "loop"
  addr := ⟨0, 0x1000⟩
  store := { ops := #[some { opcode := .branchInd, seq := ⟨⟨0, 0x1000⟩, 0⟩ }], constSpace := 1,
             uniqueSpace := none }
  jumpTables := #[{ opSeq := ⟨⟨0, 0x1000⟩, 0⟩, opAddr := ⟨0, 0x1000⟩, addresses := #[⟨0, 0x1000⟩],
                    defaultIndex := none, lastIndex := 0, size := 1, tableAddr := ⟨0, 0x2000⟩,
                    entrySize := 8 }]
  instMax := 1

theorem generateBlocks_cfg_tableLoop :
    tableLoop.BlocksReady ∧ CfgCorrect tableLoop.generateBlocks := by
  have h : tableLoop.BlocksReady := by
    refine ⟨by decide +kernel, fun jt hjt => ?_⟩
    simp only [tableLoop, Array.mem_singleton] at hjt
    subst hjt
    exact ⟨by decide, by decide, fun i hi => by cases hi⟩
  exact ⟨h, generateBlocks_cfg tableLoop h⟩

end Function

end MicroSsa
