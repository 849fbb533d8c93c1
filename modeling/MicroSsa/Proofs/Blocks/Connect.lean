import MicroSsa.Proofs.Blocks.Partition
import MicroSsa.Proofs.Containers.InsertionSet
/-!
# Connecting the blocks

The connect stage of `Function.generateBlocks` visits the blocks in turn and gives each its
out-edges, read off its last operation (`connectBlock`). This module says what one visit and
the whole stage do.

* `successorOps`: the operations control can go to from a block's last operation, by its
  opcode — the target of a branch, the fallthrough and then the target of a conditional
  branch, the distinct targets of an indirect branch's jump table (`tableTargets`), nothing
  after a return, and the fallthrough otherwise.
* `Connects`: the frame of the stage — the store, the jump tables and the blocks' operations are
  kept, out-edges are added only to the visited blocks, and a block never loses the marks that
  say why it may have no out-edge.
* `connectBlock_spec`, `connectAll_spec`: after the stage, the out-edges of every block are the
  blocks of its successor operations, in order; a block left without one returns, ends in an
  unresolved indirect branch or is marked as bad data (`NoEdgeReason`).
* `placeEntry_spec`: picking the entry keeps all this, and the empty block it may add in front
  is the entry with one out-edge, to the block of the function's first operation.
-/

namespace MicroSsa

namespace Function

/-! ## Successor operations -/

/-- The distinct targets of a jump table in order of first appearance: its entries, then its
default. -/
def tableTargets (jt : JumpTable) : List Address :=
  (jt.addresses.toList.take jt.size ++ (jt.defaultIndex.map (jt.addresses[·]!)).toList).eraseDups

theorem tableSet_members (jt : JumpTable) : (tableSet jt).2.members.toList = tableTargets jt := by
  have hall := InsertionSet.members_insertAll (jt.addresses.toList.take jt.size)
  have hc := InsertionSet.consistent_empty.insertAll (jt.addresses.toList.take jt.size)
  unfold tableSet tableTargets
  cases hd : jt.defaultIndex with
  | none => simpa using hall
  | some i =>
    simp only [Option.map_some, Option.toList_some]
    rw [InsertionSet.eraseDups_concat, InsertionSet.members_insert hc, hall]
    simp only [List.mem_eraseDups]

/-- The jump table recorded for the indirect branch `o`: the first one with its sequence
number. -/
def tableOf (f : Function) (o : Nat) : Option JumpTable :=
  f.jumpTables.find? (·.opSeq == ((f.store.op? o).map (·.seq)).getD default)

/-- The operations control can go to from a block ending in `o`, read off `o`'s opcode. -/
def successorOps (f : Function) (o : Nat) : List Nat :=
  match (f.store.op? o).map Op.opcode with
  | some .branch => (f.branchTargetOp o).toList
  | some .cbranch => (f.fallthroughOp o).toList ++ (f.branchTargetOp o).toList
  | some .branchInd =>
    ((f.tableOf o).map fun jt => (tableTargets jt).filterMap f.store.firstOpAt).getD []
  | some .ret => []
  | _ => (f.fallthroughOp o).toList

/-- A block ending in `last` may have no out-edge in `f` because it returns, because it ends in
an indirect branch marked as unresolved, or because it is marked as bad data. -/
def NoEdgeReason (f : Function) (b last : Nat) : Prop :=
  (f.store.op? last).map Op.opcode = some .ret ∨
    ((f.store.op? last).map Op.opcode = some .branchInd ∧
      (f.graph.get b).flags.unreachableRisk = true) ∨
    (f.graph.get b).flags.badData = true

theorem blockOf_eq_bind (f : Function) (o : Option Nat) :
    f.blockOf o = o.bind fun s => f.blockOf (some s) := by
  cases o <;> rfl

theorem filterMap_blockOf_toList (f : Function) (o : Option Nat) :
    o.toList.filterMap (fun s => f.blockOf (some s)) = (f.blockOf o).toList := by
  cases o with
  | none => rfl
  | some s =>
    simp only [Option.toList_some, List.filterMap_cons, List.filterMap_nil]
    cases f.blockOf (some s) <;> rfl

theorem blockOf_congr {f g : Function} (h : g.store = f.store) (o : Option Nat) :
    g.blockOf o = f.blockOf o := by
  unfold blockOf
  rw [h]

theorem tableOf_congr {f g : Function} (hs : SameFlow f g) (o : Nat) : g.tableOf o = f.tableOf o := by
  unfold tableOf
  rw [hs.jumpTables, hs.seq o]

theorem successorOps_congr {f g : Function} (hs : SameFlow f g) (o : Nat) :
    g.successorOps o = f.successorOps o := by
  have hfirst : g.store.firstOpAt = f.store.firstOpAt := funext (Store.firstOpAt_congr hs.flow)
  unfold successorOps
  rw [hs.opcode o, fallthroughOp_congr hs, branchTargetOp_congr hs, tableOf_congr hs, hfirst]

/-- Where a successor operation comes from: the target of a direct branch, the fallthrough, or
the first operation at a target of a jump table. -/
theorem mem_successorOps {f : Function} {o s : Nat} (h : s ∈ f.successorOps o) :
    (((f.store.op? o).map Op.opcode = some .branch ∨ (f.store.op? o).map Op.opcode = some .cbranch) ∧
        f.branchTargetOp o = some s) ∨
      f.fallthroughOp o = some s ∨
      ∃ jt ∈ f.jumpTables, ∃ a ∈ tableTargets jt, f.store.firstOpAt a = some s := by
  unfold successorOps at h
  split at h
  · rename_i heq
    exact Or.inl ⟨Or.inl heq, Option.mem_toList.mp h⟩
  · rename_i heq
    rcases List.mem_append.mp h with h | h
    · exact Or.inr (Or.inl (Option.mem_toList.mp h))
    · exact Or.inl ⟨Or.inr heq, Option.mem_toList.mp h⟩
  · cases ht : f.tableOf o with
    | none => rw [ht] at h; cases h
    | some jt =>
      rw [ht] at h
      obtain ⟨a, ha, has⟩ := List.mem_filterMap.mp h
      exact Or.inr (Or.inr ⟨jt, Array.mem_of_find?_eq_some ht, a, ha, has⟩)
  · cases h
  · exact Or.inr (Or.inl (Option.mem_toList.mp h))

/-- Each successor operation of an alive operation is alive. -/
theorem mem_aliveOps_of_mem_successorOps {f : Function} {o s : Nat} (ho : o ∈ f.store.aliveOps)
    (h : s ∈ f.successorOps o) : s ∈ f.store.aliveOps := by
  rcases mem_successorOps h with ⟨-, ht⟩ | ht | ⟨_, _, _, _, ht⟩
  · exact branchTargetOp_mem ho ht
  · exact fallthroughOp_mem ht
  · exact Store.firstOpAt_mem ht

/-! ## The frame of the connect stage -/

/-- The marks that say why a block may end without an out-edge, each kept once set. -/
structure EndMarksLe (fl fl' : BlockFlags) : Prop where
  ret : fl.ret = true → fl'.ret = true
  unreachableRisk : fl.unreachableRisk = true → fl'.unreachableRisk = true
  badData : fl.badData = true → fl'.badData = true

theorem EndMarksLe.refl (fl : BlockFlags) : EndMarksLe fl fl := ⟨id, id, id⟩

theorem EndMarksLe.trans {fl fl' fl'' : BlockFlags} (h₁ : EndMarksLe fl fl')
    (h₂ : EndMarksLe fl' fl'') : EndMarksLe fl fl'' :=
  ⟨h₂.ret ∘ h₁.ret, h₂.unreachableRisk ∘ h₁.unreachableRisk, h₂.badData ∘ h₁.badData⟩

/-- A reason to have no out-edge survives in the same store, with the end marks kept. -/
theorem NoEdgeReason.mono {f g : Function} {b last : Nat} (h : f.NoEdgeReason b last)
    (hs : g.store = f.store) (hm : EndMarksLe (f.graph.get b).flags (g.graph.get b).flags) :
    g.NoEdgeReason b last := by
  unfold NoEdgeReason at h ⊢
  rw [hs]
  rcases h with h | ⟨h, hr⟩ | hbad
  · exact Or.inl h
  · exact Or.inr (Or.inl ⟨h, hm.unreachableRisk hr⟩)
  · exact Or.inr (Or.inr (hm.badData hbad))

/-- `g` is `f` with out-edges added to the blocks `bs` only: the store, the decoded
instructions, the jump tables, the address and the blocks with their operations are kept,
every other block keeps its out-edges, and no block loses an end mark. -/
structure Connects (bs : List Nat) (f g : Function) : Prop where
  store : g.store = f.store
  visited : g.visited = f.visited
  jumpTables : g.jumpTables = f.jumpTables
  addr : g.addr = f.addr
  size : g.graph.size = f.graph.size
  ops : ∀ x, (g.graph.get x).ops = (f.graph.get x).ops
  succs : ∀ x, x ∉ bs → g.graph.succs x = f.graph.succs x
  marks : ∀ x, EndMarksLe (f.graph.get x).flags (g.graph.get x).flags

namespace Connects

variable {bs bs' : List Nat} {f g h : Function}

theorem refl (bs : List Nat) (f : Function) : Connects bs f f :=
  ⟨rfl, rfl, rfl, rfl, rfl, fun _ => rfl, fun _ _ => rfl, fun _ => EndMarksLe.refl _⟩

theorem trans (h₁ : Connects bs f g) (h₂ : Connects bs' g h) : Connects (bs ++ bs') f h where
  store := h₂.store.trans h₁.store
  visited := h₂.visited.trans h₁.visited
  jumpTables := h₂.jumpTables.trans h₁.jumpTables
  addr := h₂.addr.trans h₁.addr
  size := h₂.size.trans h₁.size
  ops x := (h₂.ops x).trans (h₁.ops x)
  succs x hx := by
    rw [List.mem_append, not_or] at hx
    exact (h₂.succs x hx.2).trans (h₁.succs x hx.1)
  marks x := (h₁.marks x).trans (h₂.marks x)

theorem mono (h₁ : Connects bs f g) (hsub : bs ⊆ bs') : Connects bs' f g :=
  { h₁ with succs := fun x hx => h₁.succs x fun h => hx (hsub h) }

theorem sameFlow (hc : Connects bs f g) : SameFlow f g :=
  ⟨by rw [hc.store], by rw [hc.store], hc.visited, hc.jumpTables, hc.addr⟩

theorem noEdgeReason (hc : Connects bs f g) {b last : Nat} (h : f.NoEdgeReason b last) :
    g.NoEdgeReason b last :=
  h.mono hc.store (hc.marks b)

end Connects

theorem ops_addEdge (G : BlockGraph) (a b x : Nat) (l : EdgeLabel) :
    ((G.addEdge a b l).get x).ops = (G.get x).ops := by
  simp only [BlockGraph.addEdge, BlockGraph.get_modify, BlockGraph.size_modify]
  split <;> split <;> rfl

theorem flags_addEdge (G : BlockGraph) (a b x : Nat) (l : EdgeLabel) :
    ((G.addEdge a b l).get x).flags = (G.get x).flags := by
  simp only [BlockGraph.addEdge, BlockGraph.get_modify, BlockGraph.size_modify]
  split <;> split <;> rfl

/-- An edge out of `b` connects `b`, and appends its target to `b`'s successors. -/
theorem connects_addEdge (f : Function) {b : Nat} (hb : b < f.graph.size) (t : Nat) (l : EdgeLabel) :
    Connects [b] f { f with graph := f.graph.addEdge b t l } ∧
      (f.graph.addEdge b t l).succs b = f.graph.succs b ++ [t] := by
  refine ⟨⟨rfl, rfl, rfl, rfl, BlockGraph.size_addEdge _ _ _ _, fun x => ops_addEdge _ _ _ _ _,
    fun x hx => ?_, fun x => ?_⟩, ?_⟩
  · rw [BlockGraph.succs_addEdge _ _ hb, if_neg (fun h => hx (List.mem_singleton.mpr h))]
  · show EndMarksLe _ ((f.graph.addEdge b t l).get x).flags
    rw [flags_addEdge]
    exact EndMarksLe.refl _
  · rw [BlockGraph.succs_addEdge _ _ hb, if_pos rfl]

/-- Marking a block keeps every out-edge; a change of marks that keeps the end marks connects
nothing. -/
theorem connects_modifyBlockFlags (f : Function) (x : Nat) (m : BlockFlags → BlockFlags)
    (hm : ∀ fl, EndMarksLe fl (m fl)) : Connects [] f (f.modifyBlockFlags x m) := by
  refine ⟨rfl, rfl, rfl, rfl, BlockGraph.size_modify _ _ _, fun y => ?_, fun y _ => ?_, fun y => ?_⟩
  · show ((f.graph.modify x _).get y).ops = _
    rw [BlockGraph.get_modify]
    split <;> rfl
  · show (f.graph.modify x _).succs y = _
    refine BlockGraph.succs_modify (fun blk => ?_) y
    rfl
  · show EndMarksLe _ ((f.graph.modify x _).get y).flags
    rw [BlockGraph.get_modify]
    split
    · exact hm _
    · exact EndMarksLe.refl _

theorem flags_modifyBlockFlags_self (f : Function) {x : Nat} (hx : x < f.graph.size)
    (m : BlockFlags → BlockFlags) :
    ((f.modifyBlockFlags x m).graph.get x).flags = m (f.graph.get x).flags := by
  show ((f.graph.modify x _).get x).flags = _
  rw [BlockGraph.get_modify, if_pos ⟨rfl, hx⟩]

/-- The function's own marks are no part of the graph. -/
theorem connects_setFlags (f : Function) (fl : FuncFlags) : Connects [] f { f with flags := fl } :=
  ⟨rfl, rfl, rfl, rfl, rfl, fun _ => rfl, fun _ _ => rfl, fun _ => EndMarksLe.refl _⟩

/-- Recording a block's jump table keeps every out-edge and every mark. -/
theorem connects_setJumpTable (f : Function) (b idx : Nat) :
    Connects [] f { f with graph := f.graph.modify b fun blk => { blk with jumpTable := some idx } } := by
  refine ⟨rfl, rfl, rfl, rfl, BlockGraph.size_modify _ _ _, fun y => ?_, fun y _ => ?_, fun y => ?_⟩
  · show ((f.graph.modify b _).get y).ops = _
    rw [BlockGraph.get_modify]
    split <;> rfl
  · refine BlockGraph.succs_modify (fun blk => ?_) y
    rfl
  · show EndMarksLe _ ((f.graph.modify b _).get y).flags
    rw [BlockGraph.get_modify]
    split <;> exact EndMarksLe.refl _

/-- An edge out of `b` with a mark on its target. -/
theorem connects_addEdge_mark (f : Function) {b : Nat} (hb : b < f.graph.size) (t : Nat)
    (l : EdgeLabel) (m : BlockFlags → BlockFlags) (hm : ∀ fl, EndMarksLe fl (m fl)) :
    Connects [b] f (({ f with graph := f.graph.addEdge b t l } : Function).modifyBlockFlags t m) ∧
      (({ f with graph := f.graph.addEdge b t l } : Function).modifyBlockFlags t m).graph.succs b =
        f.graph.succs b ++ [t] := by
  obtain ⟨hc₁, hs₁⟩ := connects_addEdge f hb t l
  have hc₂ := connects_modifyBlockFlags { f with graph := f.graph.addEdge b t l } t m hm
  exact ⟨hc₁.trans hc₂, (hc₂.succs b List.not_mem_nil).trans hs₁⟩

/-! ## One visit -/

section Visit

variable (f : Function) {b : Nat}

theorem edgeTo_spec (hb : b < f.graph.size) (t : Nat) :
    Connects [b] f (f.edgeTo b t) ∧ (f.edgeTo b t).graph.succs b = f.graph.succs b ++ [t] :=
  connects_addEdge f hb t {}

theorem markBad_spec (hb : b < f.graph.size) :
    Connects [] f (f.markBad b) ∧ ((f.markBad b).graph.get b).flags.badData = true :=
  ⟨connects_modifyBlockFlags f b _ fun _ => ⟨id, id, fun _ => rfl⟩,
    by rw [markBad, flags_modifyBlockFlags_self f hb]⟩

theorem edgeIf_spec (hb : b < f.graph.size) (t? : Option Nat) :
    Connects [b] f (f.edgeIf b t?) ∧ (f.edgeIf b t?).graph.succs b = f.graph.succs b ++ t?.toList := by
  cases t? with
  | none => exact ⟨Connects.refl _ _, by simp [edgeIf]⟩
  | some t => exact edgeTo_spec f hb t

theorem edgeOrBad_spec (hb : b < f.graph.size) (t? : Option Nat) :
    Connects [b] f (f.edgeOrBad b t?) ∧
      (f.edgeOrBad b t?).graph.succs b = f.graph.succs b ++ t?.toList ∧
      (t? = none → ((f.edgeOrBad b t?).graph.get b).flags.badData = true) := by
  cases t? with
  | none =>
    obtain ⟨hc, hbad⟩ := markBad_spec f hb
    exact ⟨hc.mono (List.nil_subset _), by simp [edgeOrBad, hc.succs b List.not_mem_nil],
      fun _ => hbad⟩
  | some t => exact ⟨(edgeTo_spec f hb t).1, (edgeTo_spec f hb t).2, nofun⟩

theorem tableEdge_spec (hb : b < f.graph.size) (dflt : Option Nat) (ai : Address × Nat) :
    Connects [b] f (tableEdge b dflt f ai) ∧
      (tableEdge b dflt f ai).graph.succs b =
        f.graph.succs b ++ (f.blockOf (f.store.firstOpAt ai.1)).toList ∧
      (f.blockOf (f.store.firstOpAt ai.1) = none →
        ((tableEdge b dflt f ai).graph.get b).flags.badData = true) := by
  unfold tableEdge
  cases ht : f.blockOf (f.store.firstOpAt ai.1) with
  | none =>
    simp only
    obtain ⟨hc, hbad⟩ := markBad_spec f hb
    exact ⟨hc.mono (List.nil_subset _), by rw [hc.succs b List.not_mem_nil]; simp, fun _ => hbad⟩
  | some t =>
    simp only
    -- the default target and a case target differ only in labels and marks
    split
    · obtain ⟨hc, hs⟩ := connects_addEdge_mark f hb t { switchDefault := true }
        (fun fl => { fl with switchDefault := true }) fun _ => ⟨id, id, id⟩
      exact ⟨hc, hs, nofun⟩
    · obtain ⟨hc, hs⟩ := connects_addEdge_mark f hb t {} (fun fl => { fl with switchCase := true })
        fun _ => ⟨id, id, id⟩
      exact ⟨hc, hs, nofun⟩

end Visit

theorem foldl_tableEdge_spec {b : Nat} (dflt : Option Nat) :
    ∀ (l : List (Address × Nat)) (f : Function), b < f.graph.size →
      Connects [b] f (l.foldl (tableEdge b dflt) f) ∧
      (l.foldl (tableEdge b dflt) f).graph.succs b =
        f.graph.succs b ++ l.filterMap (fun ai => f.blockOf (f.store.firstOpAt ai.1)) ∧
      ((∃ ai ∈ l, f.blockOf (f.store.firstOpAt ai.1) = none) →
        ((l.foldl (tableEdge b dflt) f).graph.get b).flags.badData = true)
  | [], f, _ => ⟨Connects.refl _ _, by simp, fun ⟨_, h, _⟩ => nomatch h⟩
  | ai :: l, f, hb => by
    obtain ⟨hc₁, hs₁, hbad₁⟩ := tableEdge_spec f hb dflt ai
    obtain ⟨hc₂, hs₂, hbad₂⟩ :=
      foldl_tableEdge_spec dflt l (tableEdge b dflt f ai) (by rw [hc₁.size]; exact hb)
    -- the later targets are looked up in the same store
    simp only [blockOf_congr hc₁.store, hc₁.store] at hs₂ hbad₂
    rw [List.foldl_cons]
    refine ⟨(hc₁.trans hc₂).mono (by simp), ?_, ?_⟩
    · rw [hs₂, hs₁, List.filterMap_cons]
      cases f.blockOf (f.store.firstOpAt ai.1) <;> simp
    · rintro ⟨ai', hai', hnone⟩
      rcases List.mem_cons.mp hai' with rfl | hai'
      · exact (hc₂.marks b).badData (hbad₁ hnone)
      · exact hbad₂ ⟨ai', hai', hnone⟩

theorem tableOf_eq (f : Function) (o : Nat) :
    f.tableOf o = (f.jumpTables.findIdx? (·.opSeq == ((f.store.op? o).map (·.seq)).getD default)).map
      (f.jumpTables[·]!) := by
  rw [tableOf, Array.find?_eq_bind_findIdx?_getElem?]
  cases h : f.jumpTables.findIdx? (·.opSeq == ((f.store.op? o).map (·.seq)).getD default) with
  | none => rfl
  | some i =>
    obtain ⟨hi, -⟩ := Array.findIdx?_eq_some_iff_getElem.mp h
    simp [hi]

theorem filterMap_zipIdx_fst {β : Type} (l : List Address) (g : Address → Option β) :
    l.zipIdx.filterMap (fun ai => g ai.1) = l.filterMap g := by
  conv_rhs => rw [← List.zipIdx_map_fst 0 l]
  rw [List.filterMap_map]
  rfl

/-- An indirect branch goes to the blocks of its table's targets; without a table its block is
marked as unresolved, and a target without a block marks it as bad data. -/
theorem connectIndirect_spec (f : Function) {b : Nat} (hb : b < f.graph.size) (last : Nat) :
    Connects [b] f (f.connectIndirect b last) ∧
      (f.connectIndirect b last).graph.succs b = f.graph.succs b ++
        ((f.tableOf last).map fun jt =>
          (tableTargets jt).filterMap fun a => f.blockOf (f.store.firstOpAt a)).getD [] ∧
      (f.tableOf last = none →
        ((f.connectIndirect b last).graph.get b).flags.unreachableRisk = true) ∧
      (∀ jt, f.tableOf last = some jt →
        (∃ a ∈ tableTargets jt, f.blockOf (f.store.firstOpAt a) = none) →
        ((f.connectIndirect b last).graph.get b).flags.badData = true) := by
  rw [tableOf_eq]
  unfold connectIndirect
  dsimp only
  split
  · rename_i hidx
    simp only [hidx, Option.map_none]
    have hc₁ := connects_modifyBlockFlags f b (fun fl => { fl with unreachableRisk := true })
      fun _ => ⟨id, fun _ => rfl, id⟩
    have hc₂ := connects_setFlags (f.modifyBlockFlags b fun fl => { fl with unreachableRisk := true })
      { f.flags with unresolvedIndirect := true }
    refine ⟨(hc₁.trans hc₂).mono (List.nil_subset _), ?_, fun _ => ?_, nofun⟩
    · rw [(hc₁.trans hc₂).succs b List.not_mem_nil]
      simp
    · show ((f.modifyBlockFlags b _).graph.get b).flags.unreachableRisk = true
      rw [flags_modifyBlockFlags_self f hb]
  · rename_i idx hidx
    simp only [hidx, Option.map_some]
    have hT := tableSet_members f.jumpTables[idx]!
    generalize tableSet f.jumpTables[idx]! = p at hT ⊢
    obtain ⟨dflt, T⟩ := p
    simp only at hT ⊢
    obtain ⟨hc₁, hs₁, hbad₁⟩ := foldl_tableEdge_spec dflt T.members.toList.zipIdx f hb
    have hc₂ := connects_setJumpTable (T.members.toList.zipIdx.foldl (tableEdge b dflt) f) b idx
    refine ⟨(hc₁.trans hc₂).mono (by simp), ?_, nofun, ?_⟩
    · rw [hc₂.succs b List.not_mem_nil, hs₁,
        filterMap_zipIdx_fst _ fun a => f.blockOf (f.store.firstOpAt a), hT]
      rfl
    · rintro jt ⟨⟩ ⟨a, ha, hnone⟩
      rw [← hT, ← List.zipIdx_map_fst 0 T.members.toList] at ha
      obtain ⟨ai, hai, rfl⟩ := List.mem_map.mp ha
      exact (hc₂.marks b).badData (hbad₁ ⟨ai, hai, hnone⟩)

/-- Block `b` of `g`, ending in `last`, has been connected from `f`: its out-edges are those it
had in `f` followed by the blocks of `last`'s successor operations, and when there are none,
`last` or a mark of `b` says why — as long as a jump table `last` reads has targets. -/
structure Connected (f g : Function) (b last : Nat) : Prop where
  succs : g.graph.succs b =
    f.graph.succs b ++ (f.successorOps last).filterMap fun s => f.blockOf (some s)
  reason : (∀ jt, f.tableOf last = some jt → tableTargets jt ≠ []) →
    (f.successorOps last).filterMap (fun s => f.blockOf (some s)) = [] → g.NoEdgeReason b last

namespace Connected

variable {bs : List Nat} {f g h : Function} {b last : Nat}

/-- Connecting other blocks afterwards keeps a connected block. -/
theorem keep (hb : Connected f g b last) (hc : Connects bs g h) (hbs : b ∉ bs) :
    Connected f h b last where
  succs := (hc.succs b hbs).trans hb.succs
  reason htab hnil := hc.noEdgeReason (hb.reason htab hnil)

/-- Connecting other blocks before keeps what the visit of a block reads. -/
theorem of_earlier (hb : Connected g h b last) (hc : Connects bs f g) (hbs : b ∉ bs) :
    Connected f h b last := by
  have hsucc := successorOps_congr hc.sameFlow last
  have hblk : ∀ o, g.blockOf o = f.blockOf o := blockOf_congr hc.store
  refine ⟨?_, fun htab hnil => hb.reason (fun jt hjt => htab jt ?_) ?_⟩
  · rw [hb.succs, hc.succs b hbs, hsucc]
    simp only [hblk]
  · rwa [tableOf_congr hc.sameFlow] at hjt
  · rw [hsucc]
    simpa only [hblk] using hnil

end Connected

/-- A visit that connects `b` to the block of one successor, or marks it as bad data. -/
theorem connected_edgeOrBad (f : Function) {b last : Nat} (hb : b < f.graph.size)
    {s? : Option Nat} (hsucc : f.successorOps last = s?.toList) :
    Connects [b] f (f.edgeOrBad b (f.blockOf s?)) ∧
      Connected f (f.edgeOrBad b (f.blockOf s?)) b last := by
  obtain ⟨hc, hs, hbad⟩ := edgeOrBad_spec f hb (f.blockOf s?)
  refine ⟨hc, ⟨?_, fun _ hnil => ?_⟩⟩
  · rw [hs, hsucc, filterMap_blockOf_toList]
  · rw [hsucc, filterMap_blockOf_toList, Option.toList_eq_nil_iff] at hnil
    exact Or.inr (Or.inr (hbad hnil))

/-- **One visit**: block `b` gets the out-edges of its last operation, and nothing else changes
but marks. -/
theorem connectBlock_spec (f : Function) {b : Nat} (hb : b < f.graph.size) :
    Connects [b] f (connectBlock f b) ∧
      ∀ last, (f.graph.get b).ops.back? = some last → Connected f (connectBlock f b) b last := by
  cases hlast : (f.graph.get b).ops.back? with
  | none =>
    have h : connectBlock f b = f := by unfold connectBlock; rw [hlast]
    rw [h]
    exact ⟨Connects.refl _ _, fun _ h => nomatch h⟩
  | some last =>
    suffices h : Connects [b] f (connectBlock f b) ∧ Connected f (connectBlock f b) b last from
      ⟨h.1, fun last' h' => by cases h'; exact h.2⟩
    unfold connectBlock
    rw [hlast]
    dsimp only
    -- the visit and the successor operations split on the same opcode
    split
    · rename_i heq
      exact connected_edgeOrBad f hb (by unfold successorOps; rw [heq])
    · rename_i heq
      have hmap : (f.successorOps last).filterMap (fun s => f.blockOf (some s)) =
          (f.blockOf (f.fallthroughOp last)).toList ++ (f.blockOf (f.branchTargetOp last)).toList := by
        have hsucc : f.successorOps last =
            (f.fallthroughOp last).toList ++ (f.branchTargetOp last).toList := by
          unfold successorOps; rw [heq]
        rw [hsucc, List.filterMap_append, filterMap_blockOf_toList, filterMap_blockOf_toList]
      split
      · -- both successors have blocks: two edges
        rename_i hboth
        obtain ⟨hc₁, hs₁⟩ := edgeIf_spec f hb (f.blockOf (f.fallthroughOp last))
        obtain ⟨hc₂, hs₂⟩ := edgeIf_spec _ (by rw [hc₁.size]; exact hb) (f.blockOf (f.branchTargetOp last))
        refine ⟨(hc₁.trans hc₂).mono (by simp), ⟨?_, fun _ hnil => ?_⟩⟩
        · rw [hs₂, hs₁, hmap, List.append_assoc]
        · rw [hmap] at hnil
          simp only [List.append_eq_nil_iff, Option.toList_eq_nil_iff] at hnil
          simp [hnil.1] at hboth
      · -- a missing successor: bad data, then the edges there are
        obtain ⟨hc₀, hbad⟩ := markBad_spec f hb
        obtain ⟨hc₁, hs₁⟩ := edgeIf_spec (f.markBad b) (by rw [hc₀.size]; exact hb)
          (f.blockOf (f.fallthroughOp last))
        obtain ⟨hc₂, hs₂⟩ := edgeIf_spec _ (by rw [hc₁.size, hc₀.size]; exact hb)
          (f.blockOf (f.branchTargetOp last))
        refine ⟨((hc₀.trans hc₁).trans hc₂).mono (by simp), ⟨?_, fun _ _ => ?_⟩⟩
        · rw [hs₂, hs₁, hc₀.succs b List.not_mem_nil, hmap, List.append_assoc]
        · exact Or.inr (Or.inr ((hc₂.marks b).badData ((hc₁.marks b).badData hbad)))
    · rename_i heq
      have hsucc : f.successorOps last = ((f.tableOf last).map fun jt =>
          (tableTargets jt).filterMap f.store.firstOpAt).getD [] := by
        unfold successorOps; rw [heq]
      -- looking targets up by address, then by operation, is looking them up at once
      have hcomp : ∀ jt : JumpTable, ((tableTargets jt).filterMap f.store.firstOpAt).filterMap
          (fun s => f.blockOf (some s)) = (tableTargets jt).filterMap fun a => f.blockOf (f.store.firstOpAt a) := by
        intro jt
        rw [List.filterMap_filterMap]
        exact List.filterMap_congr fun a _ => (blockOf_eq_bind f _).symm
      obtain ⟨hc, hs, hunres, hbad⟩ := connectIndirect_spec f hb last
      refine ⟨hc, ⟨?_, fun htab hnil => ?_⟩⟩
      · rw [hs, hsucc]
        cases f.tableOf last with
        | none => rfl
        | some jt => exact congrArg _ (hcomp jt).symm
      · cases ht : f.tableOf last with
        | none => exact Or.inr (Or.inl ⟨by rw [hc.store]; exact heq, hunres ht⟩)
        | some jt =>
          rw [hsucc, ht, Option.map_some, Option.getD_some, hcomp jt] at hnil
          obtain ⟨a, ha⟩ := List.exists_mem_of_ne_nil _ (htab jt ht)
          exact Or.inr (Or.inr (hbad jt ht ⟨a, ha, List.filterMap_eq_nil_iff.mp hnil a ha⟩))
    · rename_i heq
      have hc := connects_modifyBlockFlags f b (fun fl => { fl with ret := true })
        fun _ => ⟨fun _ => rfl, id, id⟩
      refine ⟨hc.mono (List.nil_subset _), ⟨?_, fun _ _ => Or.inl ?_⟩⟩
      · rw [hc.succs b List.not_mem_nil]
        unfold successorOps
        rw [heq]
        simp
      · rw [hc.store]
        exact heq
    · rename_i h₁ h₂ h₃ h₄
      refine connected_edgeOrBad f hb ?_
      unfold successorOps
      split
      · rename_i h; exact absurd h h₁
      · rename_i h; exact absurd h h₂
      · rename_i h; exact absurd h h₃
      · rename_i h; exact absurd h h₄
      · rfl

/-- Visiting the blocks of a list, each once. -/
theorem foldl_connectBlock_spec : ∀ (l : List Nat) (f : Function),
    (∀ b ∈ l, b < f.graph.size) → l.Nodup →
      Connects l f (l.foldl connectBlock f) ∧
      ∀ b ∈ l, ∀ last, (f.graph.get b).ops.back? = some last →
        Connected f (l.foldl connectBlock f) b last
  | [], f, _, _ => ⟨Connects.refl _ _, fun _ h => nomatch h⟩
  | b :: l, f, hl, hnd => by
    have hb := hl b List.mem_cons_self
    have hbl : b ∉ l := (List.nodup_cons.mp hnd).1
    obtain ⟨hc₁, hvisit⟩ := connectBlock_spec f hb
    have hl' : ∀ x ∈ l, x < (connectBlock f b).graph.size := fun x hx => by
      rw [hc₁.size]; exact hl x (List.mem_cons_of_mem b hx)
    obtain ⟨hc₂, hrest⟩ := foldl_connectBlock_spec l (connectBlock f b) hl' (List.nodup_cons.mp hnd).2
    rw [List.foldl_cons]
    refine ⟨hc₁.trans hc₂, fun x hx last hlast => ?_⟩
    rcases List.mem_cons.mp hx with rfl | hx
    · exact (hvisit last hlast).keep hc₂ hbl
    · have hxb : x ∉ [b] := fun h => hbl (List.mem_singleton.mp h ▸ hx)
      exact (hrest x hx last (by rw [hc₁.ops]; exact hlast)).of_earlier hc₁ hxb

/-- **The connect stage**: every block gets the out-edges of its last operation. -/
theorem connectAll_spec (F : Function) :
    Connects (List.range F.graph.size) F (connectAll F) ∧
      ∀ b < F.graph.size, ∀ last, (F.graph.get b).ops.back? = some last →
        Connected F (connectAll F) b last := by
  obtain ⟨hc, hb⟩ := foldl_connectBlock_spec (List.range F.graph.size) F
    (fun b hb => List.mem_range.mp hb) List.nodup_range
  exact ⟨hc, fun b hlt => hb b (List.mem_range.mpr hlt)⟩

/-! ## The entry -/

/-- Choosing the entry changes no part of a block but its entry mark. -/
theorem setEntry_get_eq {β : Type} (π : Block → β)
    (hπ : ∀ (blk : Block) v, π { blk with flags := { blk.flags with entryPoint := v } } = π blk)
    (G : BlockGraph) (e x : Nat) : π ((G.setEntry e).get x) = π (G.get x) := by
  unfold BlockGraph.setEntry
  change π ((BlockGraph.modify _ e _).get x) = _
  refine (BlockGraph.modify_get_eq π (fun blk => hπ blk true) _ _ _).trans ?_
  split
  · exact BlockGraph.modify_get_eq π (fun blk => hπ blk false) _ _ _
  · rfl

theorem endMarksLe_setEntry (G : BlockGraph) (e x : Nat) :
    EndMarksLe (G.get x).flags ((G.setEntry e).get x).flags := by
  have h := setEntry_get_eq (fun blk => (blk.flags.ret, blk.flags.unreachableRisk, blk.flags.badData))
    (fun _ _ => rfl) G e x
  simp only [Prod.mk.injEq] at h
  exact ⟨fun hr => h.1 ▸ hr, fun hr => h.2.1 ▸ hr, fun hr => h.2.2 ▸ hr⟩

@[simp] theorem entry_setEntry (G : BlockGraph) (e : Nat) : (G.setEntry e).entry = some e := by
  unfold BlockGraph.setEntry
  split <;> rfl

/-- Block `x` of `g` is the empty block put in front of the entry: it holds no operation, it is
the entry, and its one out-edge goes to the block of the function's first operation. -/
def IsPreEntry (g : Function) (x : Nat) : Prop :=
  (g.graph.get x).ops = #[] ∧ g.graph.entry = some x ∧
    ∃ e, g.blockOf (g.store.firstOpAt g.addr) = some e ∧ g.graph.succs x = [e]

/-- `H` is `G` with its entry chosen: what the blocks are read from is kept, the blocks of `G`
keep their operations, out-edges and end marks, and a block added is an empty pre-entry
block. -/
structure EntryPlaced (G H : Function) : Prop where
  store : H.store = G.store
  visited : H.visited = G.visited
  jumpTables : H.jumpTables = G.jumpTables
  addr : H.addr = G.addr
  size_le : G.graph.size ≤ H.graph.size
  ops : ∀ x < G.graph.size, (H.graph.get x).ops = (G.graph.get x).ops
  succs : ∀ x < G.graph.size, H.graph.succs x = G.graph.succs x
  marks : ∀ x < G.graph.size, EndMarksLe (G.graph.get x).flags (H.graph.get x).flags
  pre : ∀ x, G.graph.size ≤ x → x < H.graph.size → IsPreEntry H x

namespace EntryPlaced

variable {G H : Function}

theorem sameFlow (hE : EntryPlaced G H) : SameFlow G H :=
  ⟨by rw [hE.store], by rw [hE.store], hE.visited, hE.jumpTables, hE.addr⟩

theorem noEdgeReason (hE : EntryPlaced G H) {b last : Nat} (hb : b < G.graph.size)
    (h : G.NoEdgeReason b last) : H.NoEdgeReason b last :=
  h.mono hE.store (hE.marks b hb)

end EntryPlaced

/-- A new block `G.size`, holding nothing but its start address. -/
theorem get_addBlock_start (G : BlockGraph) (a : Address) (x : Nat) :
    (G.addBlock.2.modify G.size fun blk => { blk with start := some a }).get x =
      if x = G.size then { start := some a } else G.get x := by
  rw [BlockGraph.get_modify, get_addBlock, size_addBlock]
  by_cases hx : x = G.size
  · subst hx
    simp
  · simp [hx, Ne.symm hx]

/-- **Choosing the entry**: the block of the function's first operation, or an empty block in
front of it when it has in-edges. -/
theorem placeEntry_spec (G : Function) : EntryPlaced G (placeEntry G) := by
  unfold placeEntry
  cases he : G.blockOf (G.store.firstOpAt G.addr) with
  | none =>
    exact ⟨rfl, rfl, rfl, rfl, le_refl _, fun _ _ => rfl, fun _ _ => rfl,
      fun _ _ => EndMarksLe.refl _, fun _ h₁ h₂ => absurd h₂ (Nat.not_lt.mpr h₁)⟩
  | some e =>
    dsimp only
    split
    · -- no way back into the entry block: it is the entry
      refine ⟨rfl, rfl, rfl, rfl, by simp, fun x _ => setEntry_get_eq (·.ops) (fun _ _ => rfl) _ _ _,
        fun x _ => BlockGraph.succs_setEntry _ _ _, fun x _ => endMarksLe_setEntry _ _ _,
        fun x h₁ h₂ => ?_⟩
      simp only [BlockGraph.size_setEntry] at h₂
      omega
    · -- an empty block `G.size` in front of it
      rw [show G.graph.addBlock = (G.graph.size, G.graph.addBlock.2) from rfl]
      dsimp only
      have hG₁ := get_addBlock_start G.graph G.addr
      have hsize₁ : (G.graph.addBlock.2.modify G.graph.size fun blk => { blk with start := some G.addr }).size =
          G.graph.size + 1 := by simp
      have hlt : G.graph.size < (G.graph.addBlock.2.modify G.graph.size
          fun blk => { blk with start := some G.addr }).size := by omega
      -- the blocks of `G`, unchanged below the new one
      have hold : ∀ x < G.graph.size, (G.graph.addBlock.2.modify G.graph.size
          fun blk => { blk with start := some G.addr }).get x = G.graph.get x := by
        intro x hx
        rw [hG₁, if_neg (Nat.ne_of_lt hx)]
      refine ⟨rfl, rfl, rfl, rfl, by simp, fun x hx => ?_, fun x hx => ?_, fun x hx => ?_,
        fun x h₁ h₂ => ?_⟩
      · rw [setEntry_get_eq (·.ops) (fun _ _ => rfl), ops_addEdge, hold x hx]
      · rw [BlockGraph.succs_setEntry, BlockGraph.succs_addEdge _ _ hlt, if_neg (Nat.ne_of_lt hx)]
        simp only [BlockGraph.succs, hold x hx]
      · have h := endMarksLe_setEntry ((G.graph.addBlock.2.modify G.graph.size
          fun blk => { blk with start := some G.addr }).addEdge G.graph.size e {}) G.graph.size x
        rwa [flags_addEdge, hold x hx] at h
      · simp only [BlockGraph.size_setEntry, BlockGraph.size_addEdge, hsize₁] at h₂
        obtain rfl : x = G.graph.size := by omega
        refine ⟨?_, entry_setEntry _ _, e, he, ?_⟩
        · rw [setEntry_get_eq (·.ops) (fun _ _ => rfl), ops_addEdge, hG₁, if_pos rfl]
        · rw [BlockGraph.succs_setEntry, BlockGraph.succs_addEdge _ _ hlt, if_pos rfl]
          simp [BlockGraph.succs, hG₁]

end Function

end MicroSsa
