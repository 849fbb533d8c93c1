import MicroSsa.Proofs.Blocks.Flow
import MicroSsa.Proofs.Graph.Paths
import MicroSsa.Proofs.Store.Links
/-!
# Marking block starts and partitioning

`Function.generateBlocks` runs in stages (`generateBlocks_eq`): it clears the parents of the
alive operations and the graph, marks the operations that must start a block
(`markAddr`, `markBranch`), cuts the alive operations into blocks (`partitionStep`), connects
each block by its last operation (`connectBlock`) and picks the entry (`placeEntry`).

This module proves what the first three stages give:

* `marked_markAddrs`, `marked_markBranches`: the first operation at the function's address, at
  every queued block start and at every jump-table target is marked, and so are the operation
  after every branch and the target of every direct branch;
* `Parted`: the invariant of the partition — the blocks hold the operations seen so far, in
  program order and each once, every block holds at least one, every operation names its block,
  and inside a block each operation is unmarked and is the fallthrough of the one before it;
  `partition_parted` proves it after all alive operations.
-/

namespace MicroSsa

namespace Function

/-! ## The stages -/

/-- **The stages of block generation.** -/
theorem generateBlocks_eq (f : Function) :
    f.generateBlocks =
      if f.store.aliveOps.isEmpty then
        { f.clearBlocks with flags := { f.clearBlocks.flags with blocksGenerated := true } }
      else
        let M := f.store.aliveOps.foldl markBranch
          (f.clearBlocks.startAddrs.foldl markAddr f.clearBlocks)
        let g := placeEntry (connectAll (f.store.aliveOps.foldl partitionStep (M, none, none)).1)
        { g with flags := { g.flags with blocksGenerated := true } } := by
  rfl

/-! ## Marks -/

/-- The operation `o` carries the start-of-block mark. -/
def Marked (f : Function) (o : Nat) : Prop :=
  (f.store.op? o).any (·.flags.startBlock) = true

theorem op?_setStartBlock (f : Function) (o : Nat) (v : Bool) (x : Nat) :
    (f.setStartBlock o v).store.op? x =
      if o = x then (f.store.op? x).map fun y => { y with flags := { y.flags with startBlock := v } }
      else f.store.op? x :=
  Store.op?_modifyOp _ _ _ _

theorem Marked.setStartBlock {f : Function} {x : Nat} (h : f.Marked x) (o : Nat) :
    (f.setStartBlock o true).Marked x := by
  unfold Marked at h ⊢
  rw [op?_setStartBlock]
  split
  · cases hx : f.store.op? x with
    | none => rw [hx] at h; cases h
    | some y => rfl
  · exact h

theorem marked_setStartBlock_self {f : Function} {o : Nat} (h : o ∈ f.store.aliveOps) :
    (f.setStartBlock o true).Marked o := by
  obtain ⟨x, hx, -⟩ := Store.mem_aliveOps.mp h
  unfold Marked
  rw [op?_setStartBlock, if_pos rfl, hx]
  rfl

/-- Marking one address keeps the flow and the marks, and marks the first operation there. -/
theorem markAddr_spec (f : Function) (a : Address) :
    SameFlow f (markAddr f a) ∧ (∀ x, f.Marked x → (markAddr f a).Marked x) ∧
      ∀ o, f.store.firstOpAt a = some o → (markAddr f a).Marked o := by
  unfold markAddr
  cases ho : f.store.firstOpAt a with
  | none => exact ⟨SameFlow.refl f, fun _ h => h, fun _ h => by cases h⟩
  | some o =>
    refine ⟨sameFlow_setStartBlock f o true, fun x h => h.setStartBlock o, ?_⟩
    rintro o' ⟨⟩
    exact marked_setStartBlock_self (Store.firstOpAt_mem ho)

/-- Marking by address keeps the flow and the marks, and marks the first operation at every
address of the list. -/
theorem markAddrs_spec : ∀ (starts : List Address) (f : Function),
    SameFlow f (starts.foldl markAddr f) ∧ (∀ x, f.Marked x → (starts.foldl markAddr f).Marked x) ∧
      ∀ a ∈ starts, ∀ o, f.store.firstOpAt a = some o → (starts.foldl markAddr f).Marked o := by
  intro starts
  induction starts with
  | nil => intro f; exact ⟨SameFlow.refl f, fun _ h => h, fun _ h => by cases h⟩
  | cons a starts ih =>
    intro f
    have hstep := markAddr_spec f a
    obtain ⟨hflow, hkeep, hmark⟩ := ih (markAddr f a)
    rw [List.foldl_cons]
    refine ⟨hstep.1.trans hflow, fun x h => hkeep x (hstep.2.1 x h), ?_⟩
    rintro a' ha' o ho
    rcases List.mem_cons.mp ha' with rfl | ha'
    · exact hkeep o (hstep.2.2 o ho)
    · exact hmark a' ha' o (by rw [Store.firstOpAt_congr hstep.1.flow]; exact ho)

/-- Marking after `o` keeps the flow and the marks, and marks the operation after it. -/
theorem markNext_spec (f : Function) (o : Nat) :
    SameFlow f (f.markNext o) ∧ (∀ y, f.Marked y → (f.markNext o).Marked y) ∧
      ∀ x, f.store.op? o = some x → ∀ n, f.store.nextAfter x.seq = some n →
        (f.markNext o).Marked n := by
  unfold markNext
  split
  · rename_i n hn
    refine ⟨sameFlow_setStartBlock f n true, fun y h => h.setStartBlock n, ?_⟩
    intro x hx n' hn'
    rw [hx, Option.bind_some, hn'] at hn
    cases hn
    exact marked_setStartBlock_self (Store.nextAfter_mem hn')
  · rename_i hn
    refine ⟨SameFlow.refl f, fun _ h => h, ?_⟩
    intro x hx n' hn'
    rw [hx, Option.bind_some, hn'] at hn
    cases hn

/-- Marking the target of `o` keeps the flow and the marks, and marks that target. -/
theorem markTarget_spec (f : Function) {o : Nat} (ho : o ∈ f.store.aliveOps) :
    SameFlow f (f.markTarget o) ∧ (∀ y, f.Marked y → (f.markTarget o).Marked y) ∧
      ∀ t, f.branchTargetOp o = some t → (f.markTarget o).Marked t := by
  unfold markTarget
  cases ht : f.branchTargetOp o with
  | none => exact ⟨SameFlow.refl f, fun _ h => h, fun _ h => by cases h⟩
  | some t =>
    refine ⟨sameFlow_setStartBlock f t true, fun y h => h.setStartBlock t, ?_⟩
    rintro t' ⟨⟩
    exact marked_setStartBlock_self (branchTargetOp_mem ho ht)

/-- Marking after one operation keeps the flow and the marks; after a branch it marks the
operation after it, and after a direct branch its target. -/
theorem markBranch_spec (f : Function) (o : Nat) (ho : o ∈ f.store.aliveOps) :
    SameFlow f (markBranch f o) ∧ (∀ y, f.Marked y → (markBranch f o).Marked y) ∧
      ∀ x, f.store.op? o = some x → x.opcode.isBranch = true →
        (∀ n, f.store.nextAfter x.seq = some n → (markBranch f o).Marked n) ∧
        ((x.opcode = .branch ∨ x.opcode = .cbranch) →
          ∀ t, f.branchTargetOp o = some t → (markBranch f o).Marked t) := by
  obtain ⟨hflow₁, hkeep₁, hmark₁⟩ := markNext_spec f o
  have hho : o ∈ (f.markNext o).store.aliveOps := by
    rw [Store.aliveOps_congr hflow₁.flow]; exact ho
  obtain ⟨hflow₂, hkeep₂, hmark₂⟩ := markTarget_spec (f.markNext o) hho
  unfold markBranch
  cases hx : f.store.op? o with
  | none => exact ⟨SameFlow.refl f, fun _ h => h, fun _ h => by cases h⟩
  | some x =>
    simp only [Option.map_some]
    by_cases hbr : x.opcode.isBranch = true
    · rw [if_pos hbr]
      by_cases hdir : (x.opcode == .branch || x.opcode == .cbranch) = true
      · -- a direct branch: the operation after it, then its target
        rw [if_pos hdir]
        refine ⟨hflow₁.trans hflow₂, fun y h => hkeep₂ y (hkeep₁ y h), ?_⟩
        intro x' hx' _
        cases hx'
        refine ⟨fun n hn => hkeep₂ n (hmark₁ x hx n hn), fun _ t ht => hmark₂ t ?_⟩
        rw [branchTargetOp_congr hflow₁]
        exact ht
      · rw [if_neg hdir]
        refine ⟨hflow₁, hkeep₁, ?_⟩
        intro x' hx' _
        cases hx'
        refine ⟨hmark₁ x hx, fun hor => ?_⟩
        rcases hor with h | h <;> simp [h] at hdir
    · rw [if_neg hbr]
      refine ⟨SameFlow.refl f, fun _ h => h, ?_⟩
      rintro x' ⟨⟩ h
      exact absurd h hbr

/-- Marking after branches keeps the flow and the marks, and marks the operation after every
branch of the list and the target of every direct branch of it. -/
theorem markBranches_spec : ∀ (l : List Nat) (f : Function), (∀ o ∈ l, o ∈ f.store.aliveOps) →
    SameFlow f (l.foldl markBranch f) ∧ (∀ x, f.Marked x → (l.foldl markBranch f).Marked x) ∧
      ∀ o ∈ l, ∀ x, f.store.op? o = some x → x.opcode.isBranch = true →
        (∀ n, f.store.nextAfter x.seq = some n → (l.foldl markBranch f).Marked n) ∧
        ((x.opcode = .branch ∨ x.opcode = .cbranch) →
          ∀ t, f.branchTargetOp o = some t → (l.foldl markBranch f).Marked t) := by
  intro l
  induction l with
  | nil => intro f _; exact ⟨SameFlow.refl f, fun _ h => h, fun _ h => by cases h⟩
  | cons o l ih =>
    intro f hl
    have hstep := markBranch_spec f o (hl o List.mem_cons_self)
    have hl' : ∀ o' ∈ l, o' ∈ (markBranch f o).store.aliveOps := fun o' h => by
      rw [Store.aliveOps_congr hstep.1.flow]; exact hl o' (List.mem_cons_of_mem o h)
    obtain ⟨hflow, hkeep, hmark⟩ := ih (markBranch f o) hl'
    rw [List.foldl_cons]
    refine ⟨hstep.1.trans hflow, fun x h => hkeep x (hstep.2.1 x h), ?_⟩
    rintro o' ho' x hx hbr
    rcases List.mem_cons.mp ho' with rfl | ho'
    · obtain ⟨hn, ht⟩ := hstep.2.2 x hx hbr
      exact ⟨fun n h => hkeep n (hn n h), fun hor t h => hkeep t (ht hor t h)⟩
    · -- the flow the later steps see is that of `f`
      obtain ⟨y, hy, hyflow⟩ := hstep.1.exists_op hx
      have hyseq : y.seq = x.seq := congrArg (·.2.1) hyflow
      have hyop : y.opcode = x.opcode := congrArg (·.1) hyflow
      obtain ⟨hn, ht⟩ := hmark o' ho' y hy (hyop ▸ hbr)
      refine ⟨fun n h => hn n ?_, fun hor t h => ht (hyop ▸ hor) t ?_⟩
      · rw [hyseq, Store.nextAfter_congr hstep.1.flow]; exact h
      · rw [branchTargetOp_congr hstep.1]; exact h

/-! ## The partition -/

/-- A pair of neighbours in a list with one more element at the end is a pair of the list, or
its last element and the new one. -/
theorem pair_of_append_singleton {l l₁ l₂ : List Nat} {p q z : Nat}
    (h : l ++ [z] = l₁ ++ p :: q :: l₂) :
    (∃ l₂', l = l₁ ++ p :: q :: l₂') ∨ (l = l₁ ++ [p] ∧ q = z) := by
  rcases List.eq_nil_or_concat l₂ with rfl | ⟨l₂', w, rfl⟩
  · have h' : l ++ [z] = (l₁ ++ [p]) ++ [q] := by simpa using h
    have := List.append_inj' h' rfl
    exact Or.inr ⟨this.1, (List.singleton_inj.mp this.2).symm⟩
  · have h' : l ++ [z] = (l₁ ++ p :: q :: l₂') ++ [w] := by simpa using h
    have := List.append_inj' h' rfl
    exact Or.inl ⟨l₂', this.1⟩

/-- The operations of the blocks, block by block. -/
def blockOps (G : BlockGraph) : List Nat :=
  (List.range G.size).flatMap fun b => (G.get b).ops.toList

theorem blockOps_of_size {G : BlockGraph} {n : Nat} (h : G.size = n + 1) :
    blockOps G = (List.range n).flatMap (fun b => (G.get b).ops.toList) ++ (G.get n).ops.toList := by
  rw [blockOps, h, List.range_succ, List.flatMap_append, List.flatMap_singleton]

/-- What the partition has built after the operations `done`, started from the marked function
`M`: `F` with the current block `cur` and the last operation `prev`. -/
structure Parted (M : Function) (done : List Nat) (F : Function) (cur prev : Option Nat) :
    Prop where
  flow : SameFlow M F
  untouched : ∀ o, o ∉ done → F.store.op? o = M.store.op? o
  concat : blockOps F.graph = done
  nonempty : ∀ b < F.graph.size, (F.graph.get b).ops.toList ≠ []
  outs : ∀ b, (F.graph.get b).outs = #[]
  cur_eq : cur = if F.graph.size = 0 then none else some (F.graph.size - 1)
  prev_eq : prev = done.getLast?
  within : ∀ b l₁ l₂ p q, (F.graph.get b).ops.toList = l₁ ++ p :: q :: l₂ →
    M.startsBlock (some p) q = false
  parent : ∀ b < F.graph.size, ∀ o ∈ (F.graph.get b).ops, (F.store.op? o).bind (·.parent) = some b

theorem parted_start {M : Function} (hG : M.graph = {}) : Parted M [] M none none where
  flow := SameFlow.refl M
  untouched _ _ := rfl
  concat := by rw [blockOps, hG]; rfl
  nonempty _ h := by rw [hG] at h; exact absurd h (Nat.not_lt_zero _)
  outs _ := by rw [hG]; rfl
  cur_eq := by rw [hG]; rfl
  prev_eq := rfl
  within _ l₁ l₂ p q h := by rw [hG] at h; simp [BlockGraph.get] at h
  parent _ h := by rw [hG] at h; exact absurd h (Nat.not_lt_zero _)

theorem sameFlow_setParent_graph (f : Function) (o : Nat) (b : Option Nat) (G : BlockGraph) :
    SameFlow f { f with graph := G, store := f.store.setParent o b } :=
  ⟨Store.flow_modifyOp _ _ fun _ => rfl, rfl, rfl, rfl, rfl⟩

theorem op?_setParent (s : Store) (o : Nat) (b : Option Nat) (x : Nat) :
    (s.setParent o b).op? x = if o = x then (s.op? x).map fun y => { y with parent := b }
      else s.op? x :=
  Store.op?_modifyOp _ _ _ _

theorem get_addBlock (G : BlockGraph) (x : Nat) :
    G.addBlock.2.get x = if x = G.size then {} else G.get x := by
  unfold BlockGraph.addBlock BlockGraph.get BlockGraph.size
  simp only [Array.getElem?_push]
  split <;> simp_all

@[simp] theorem addBlock_fst (G : BlockGraph) : G.addBlock.1 = G.size := rfl

@[simp] theorem size_addBlock (G : BlockGraph) : G.addBlock.2.size = G.size + 1 := by
  simp [BlockGraph.addBlock, BlockGraph.size]

/-- One step of the partition: open a block at `o`, or append `o` to the current one. -/
theorem partitionStep_eq (F : Function) (cur prev : Option Nat) (o : Nat) :
    partitionStep (F, cur, prev) o =
      cur.elim (pushOp (F.openBlock o).1 (F.openBlock o).2 o, some (F.openBlock o).2, some o)
        fun b => if F.startsBlock prev o then
            (pushOp (F.openBlock o).1 (F.openBlock o).2 o, some (F.openBlock o).2, some o)
          else (pushOp F b o, some b, some o) := by
  cases cur with
  | none => rfl
  | some b =>
    show (let p := if F.startsBlock prev o then F.openBlock o else (F, b)
      (pushOp p.1 p.2 o, some p.2, some o)) = _
    split <;> rfl

theorem size_pushOp (f : Function) (b o : Nat) : (pushOp f b o).graph.size = f.graph.size :=
  BlockGraph.size_modify _ _ _

theorem ops_pushOp (f : Function) (b o y : Nat) :
    ((pushOp f b o).graph.get y).ops =
      if b = y ∧ y < f.graph.size then (f.graph.get y).ops.push o else (f.graph.get y).ops := by
  simp only [pushOp, BlockGraph.get_modify]
  split <;> rfl

theorem outs_pushOp (f : Function) (b o y : Nat) :
    ((pushOp f b o).graph.get y).outs = (f.graph.get y).outs := by
  simp only [pushOp, BlockGraph.get_modify]
  split <;> rfl

theorem op?_pushOp (f : Function) (b o y : Nat) :
    (pushOp f b o).store.op? y =
      if o = y then (f.store.op? y).map fun x => { x with parent := some b } else f.store.op? y :=
  op?_setParent _ _ _ _

theorem sameFlow_pushOp (f : Function) (b o : Nat) : SameFlow f (pushOp f b o) :=
  sameFlow_setParent_graph _ _ _ _

theorem openBlock_snd (F : Function) (o : Nat) : (F.openBlock o).2 = F.graph.size := rfl

theorem size_openBlock (F : Function) (o : Nat) :
    (F.openBlock o).1.graph.size = F.graph.size + 1 := by
  simp [openBlock, setStartBlock]

/-- The block a new block starts empty, the others are kept. -/
theorem get_openBlock (F : Function) (o y : Nat) :
    ((F.openBlock o).1.graph.get y).ops = (if y = F.graph.size then #[] else (F.graph.get y).ops) ∧
      ((F.openBlock o).1.graph.get y).outs =
        (if y = F.graph.size then #[] else (F.graph.get y).outs) := by
  simp only [openBlock, setStartBlock, BlockGraph.get_modify, size_addBlock, get_addBlock]
  by_cases hy : y = F.graph.size
  · subst hy
    simp
  · simp [hy, Ne.symm hy]

theorem op?_openBlock (F : Function) (o y : Nat) (hy : y ≠ o) :
    (F.openBlock o).1.store.op? y = F.store.op? y := by
  simp only [openBlock]
  rw [op?_setStartBlock, if_neg (Ne.symm hy)]

theorem sameFlow_openBlock (F : Function) (o : Nat) : SameFlow F (F.openBlock o).1 :=
  (sameFlow_graph F _).trans (sameFlow_setStartBlock _ o true)

/-- Opening a block at `o`: the new block holds `o` alone, the others are kept. -/
theorem Parted.openStep {M F : Function} {done : List Nat} {cur prev : Option Nat}
    (hP : Parted M done F cur prev) {o : Nat} (ho : o ∉ done) (halive : o ∈ M.store.aliveOps) :
    Parted M (done ++ [o]) (pushOp (F.openBlock o).1 (F.openBlock o).2 o)
      (some (F.openBlock o).2) (some o) := by
  obtain ⟨x, hx, -⟩ := Store.mem_aliveOps.mp halive
  have hsize : (pushOp (F.openBlock o).1 (F.openBlock o).2 o).graph.size = F.graph.size + 1 := by
    rw [size_pushOp, size_openBlock]
  -- the blocks: the new one holds `o` alone, the others are kept
  have hops : ∀ y, ((pushOp (F.openBlock o).1 (F.openBlock o).2 o).graph.get y).ops =
      if y = F.graph.size then #[o] else (F.graph.get y).ops := by
    intro y
    rw [ops_pushOp, (get_openBlock F o y).1, openBlock_snd, size_openBlock]
    by_cases hy : y = F.graph.size
    · simp [hy]
    · simp [hy, Ne.symm hy]
  have hopk : ∀ y, y ≠ o → (pushOp (F.openBlock o).1 (F.openBlock o).2 o).store.op? y =
      F.store.op? y := by
    intro y hy
    rw [op?_pushOp, if_neg (Ne.symm hy), op?_openBlock F o y hy]
  refine
    { flow := hP.flow.trans ((sameFlow_openBlock F o).trans (sameFlow_pushOp _ _ o))
      untouched := fun y hy => ?_
      concat := ?_
      nonempty := fun b hb => ?_
      outs := fun b => ?_
      cur_eq := by rw [hsize, openBlock_snd]; simp
      prev_eq := by simp
      within := fun b l₁ l₂ p q h => ?_
      parent := fun b hb y hy => ?_ }
  · have hyo : y ≠ o := fun h => hy (by simp [h])
    exact (hopk y hyo).trans (hP.untouched y fun h => hy (List.mem_append_left _ h))
  · rw [blockOps_of_size hsize, hops, if_pos rfl, ← hP.concat]
    congr 1
    exact List.flatMap_congr fun b hb => by
      rw [hops, if_neg (Nat.ne_of_lt (List.mem_range.mp hb))]
  · rw [hops]
    split
    · simp
    · exact hP.nonempty b (by omega)
  · rw [outs_pushOp, (get_openBlock F o b).2]
    split
    · rfl
    · exact hP.outs b
  · rw [hops] at h
    split at h
    · have hl := congrArg List.length h
      simp at hl
      omega
    · exact hP.within b l₁ l₂ p q h
  · rw [hops] at hy
    split at hy
    · rename_i hbk
      have : y = o := by simpa using hy
      subst this
      have hFo : F.store.op? y = some x := (hP.untouched y ho).trans hx
      have h₁ : (F.openBlock y).1.store.op? y =
          some { x with flags := { x.flags with startBlock := true } } := by
        simp only [openBlock]
        rw [op?_setStartBlock, if_pos rfl]
        simp [hFo]
      rw [op?_pushOp, if_pos rfl, h₁, openBlock_snd, hbk]
      rfl
    · rename_i hbk
      have hyd : y ∈ done := by
        rw [← hP.concat]
        exact List.mem_flatMap.mpr ⟨b, List.mem_range.mpr (by omega), Array.mem_toList_iff.mpr hy⟩
      rw [hopk y fun h => ho (h ▸ hyd)]
      exact hP.parent b (by omega) y hy

/-- Appending `o` to the current block, when `o` does not start a block. -/
theorem Parted.joinStep {M F : Function} {done : List Nat} {b : Nat} {prev : Option Nat}
    (hP : Parted M done F (some b) prev) {o : Nat} (ho : o ∉ done)
    (halive : o ∈ M.store.aliveOps) (hstarts : M.startsBlock prev o = false) :
    Parted M (done ++ [o]) (pushOp F b o) (some b) (some o) := by
  obtain ⟨x, hx, -⟩ := Store.mem_aliveOps.mp halive
  -- the current block is the last one
  have hsize : F.graph.size = b + 1 := by
    have h := hP.cur_eq
    split at h
    · cases h
    · cases h; omega
  have hops : ∀ y, ((pushOp F b o).graph.get y).ops =
      if y = b then (F.graph.get y).ops.push o else (F.graph.get y).ops := by
    intro y
    rw [ops_pushOp]
    by_cases hy : y = b
    · simp [hy, hsize]
    · simp [hy, Ne.symm hy]
  have hopk : ∀ y, y ≠ o → (pushOp F b o).store.op? y = F.store.op? y := by
    intro y hy
    rw [op?_pushOp, if_neg (Ne.symm hy)]
  have hdone : done = (List.range b).flatMap (fun y => (F.graph.get y).ops.toList) ++
      (F.graph.get b).ops.toList := by
    rw [← hP.concat, blockOps_of_size hsize]
  refine
    { flow := hP.flow.trans (sameFlow_pushOp F b o)
      untouched := fun y hy => ?_
      concat := ?_
      nonempty := fun c hc => ?_
      outs := fun c => by rw [outs_pushOp]; exact hP.outs c
      cur_eq := by rw [size_pushOp]; exact hP.cur_eq
      prev_eq := by simp
      within := fun c l₁ l₂ p q h => ?_
      parent := fun c hc y hy => ?_ }
  · have hyo : y ≠ o := fun h => hy (by simp [h])
    exact (hopk y hyo).trans (hP.untouched y fun h => hy (List.mem_append_left _ h))
  · rw [blockOps_of_size (by rw [size_pushOp, hsize]), hops, if_pos rfl, hdone,
      Array.toList_push, ← List.append_assoc]
    congr 2
    exact List.flatMap_congr fun y hy => by
      rw [hops, if_neg (Nat.ne_of_lt (List.mem_range.mp hy))]
  · rw [hops]
    split
    · simp
    · exact hP.nonempty c (by rw [size_pushOp] at hc; exact hc)
  · rw [hops] at h
    split at h
    · rename_i hcb
      subst hcb
      rw [Array.toList_push] at h
      rcases pair_of_append_singleton h with ⟨l₂', hl⟩ | ⟨hl, rfl⟩
      · exact hP.within c l₁ l₂' p q hl
      · -- the new neighbours: the last operation so far, then `o`
        have hprev : prev = some p := by
          rw [hP.prev_eq, hdone, hl, ← List.append_assoc, List.getLast?_concat]
        rw [hprev] at hstarts
        exact hstarts
    · exact hP.within c l₁ l₂ p q h
  · rw [hops] at hy
    rw [size_pushOp] at hc
    split at hy
    · rename_i hcb
      subst hcb
      rcases Array.mem_push.mp hy with hy | rfl
      · have hyd : y ∈ done := by
          rw [hdone]
          exact List.mem_append_right _ (Array.mem_toList_iff.mpr hy)
        rw [hopk y fun h => ho (h ▸ hyd)]
        exact hP.parent c hc y hy
      · have hFo : F.store.op? y = some x := (hP.untouched y ho).trans hx
        rw [op?_pushOp, if_pos rfl, hFo]
        rfl
    · have hyd : y ∈ done := by
        rw [← hP.concat]
        exact List.mem_flatMap.mpr ⟨c, List.mem_range.mpr hc, Array.mem_toList_iff.mpr hy⟩
      rw [hopk y fun h => ho (h ▸ hyd)]
      exact hP.parent c hc y hy

/-- Whether an operation not yet placed starts a block is read off the marked function. -/
theorem Parted.startsBlock_eq {M F : Function} {done : List Nat} {cur prev : Option Nat}
    (hP : Parted M done F cur prev) {o : Nat} (ho : o ∉ done) (prev' : Option Nat) :
    F.startsBlock prev' o = M.startsBlock prev' o := by
  unfold startsBlock
  rw [hP.untouched o ho]
  cases prev' with
  | none => rfl
  | some p => simp only [fallthroughOp_congr hP.flow]

/-- **The partition**, one operation after another. -/
theorem parted_foldl (M : Function) : ∀ (todo done : List Nat) (F : Function)
    (cur prev : Option Nat), Parted M done F cur prev → (done ++ todo).Nodup →
      (∀ o ∈ todo, o ∈ M.store.aliveOps) →
      Parted M (done ++ todo) (todo.foldl partitionStep (F, cur, prev)).1
        (todo.foldl partitionStep (F, cur, prev)).2.1 (todo.foldl partitionStep (F, cur, prev)).2.2 := by
  intro todo
  induction todo with
  | nil => intro done F cur prev hP _ _; simpa using hP
  | cons o todo ih =>
    intro done F cur prev hP hnd halive
    have ho : o ∉ done := fun h => (List.nodup_append.mp hnd).2.2 o h o List.mem_cons_self rfl
    have ho' := halive o List.mem_cons_self
    have hnd' : (done ++ [o] ++ todo).Nodup := by simpa using hnd
    have hrest : ∀ o' ∈ todo, o' ∈ M.store.aliveOps := fun o' h =>
      halive o' (List.mem_cons_of_mem o h)
    -- the step at `o` keeps the invariant
    have hstep : Parted M (done ++ [o]) (partitionStep (F, cur, prev) o).1
        (partitionStep (F, cur, prev) o).2.1 (partitionStep (F, cur, prev) o).2.2 := by
      rw [partitionStep_eq]
      cases cur with
      | none => exact hP.openStep ho ho'
      | some b =>
        by_cases hs : F.startsBlock prev o = true
        · simp only [Option.elim_some, if_pos hs]
          exact hP.openStep ho ho'
        · simp only [Option.elim_some, if_neg hs]
          exact hP.joinStep ho ho' (by rw [← hP.startsBlock_eq ho]; simpa using hs)
    rw [List.foldl_cons]
    simpa using ih (done ++ [o]) _ _ _ hstep hnd' hrest

/-! ## The finished partition -/

/-- In a list without repeats, the element right before a given one is unique. -/
theorem eq_of_adjacent {l l₁ l₂ r₁ r₂ : List Nat} {p q n : Nat} (hnd : l.Nodup)
    (h₁ : l = l₁ ++ p :: n :: r₁) (h₂ : l = l₂ ++ q :: n :: r₂) : p = q := by
  -- what comes before `n` is what comes before its only occurrence
  have key : ∀ A B : List Nat, l = A ++ n :: B → l.takeWhile (· != n) = A := by
    intro A B h
    have hA : n ∉ A := by
      rw [h] at hnd
      exact fun hn => (List.nodup_append.mp hnd).2.2 n hn n List.mem_cons_self rfl
    rw [h, List.takeWhile_append_of_pos, List.takeWhile_cons_of_neg (by simp), List.append_nil]
    intro a ha
    rw [bne_iff_ne]
    rintro rfl
    exact hA ha
  have h := (key (l₁ ++ [p]) r₁ (by simp [h₁])).symm.trans (key (l₂ ++ [q]) r₂ (by simp [h₂]))
  exact List.singleton_inj.mp (List.append_inj' h rfl).2

/-- The last element of a list without repeats is followed by nothing. -/
theorem getLast?_ne_of_adjacent {l s t : List Nat} {p n : Nat} (hnd : l.Nodup)
    (h : l = s ++ p :: n :: t) : l.getLast? ≠ some p := by
  intro hl
  rw [h] at hl hnd
  have hnd' : (p :: n :: t).Nodup := (List.nodup_append.mp hnd).2.1
  have hl' : (n :: t).getLast? = some p := by
    rw [show s ++ p :: n :: t = (s ++ [p]) ++ n :: t by simp,
      List.getLast?_append_of_ne_nil _ (List.cons_ne_nil _ _)] at hl
    exact hl
  exact (List.nodup_cons.mp hnd').1 (List.mem_of_getLast? hl')

section Finished

variable {M F : Function} {done : List Nat} {cur prev : Option Nat}

theorem Parted.mem_iff (hP : Parted M done F cur prev) {o : Nat} :
    o ∈ done ↔ ∃ b < F.graph.size, o ∈ (F.graph.get b).ops := by
  rw [← hP.concat, blockOps, List.mem_flatMap]
  simp only [List.mem_range, Array.mem_toList_iff]

/-- An operation is in one block only: its parent. -/
theorem Parted.block_eq (hP : Parted M done F cur prev) {b b' o : Nat} (hb : b < F.graph.size)
    (hb' : b' < F.graph.size) (ho : o ∈ (F.graph.get b).ops) (ho' : o ∈ (F.graph.get b').ops) :
    b = b' := by
  have h := hP.parent b hb o ho
  rw [hP.parent b' hb' o ho'] at h
  exact (Option.some.inj h).symm

/-- A block's operations stand together in the partitioned list. -/
theorem Parted.consecutive (hP : Parted M done F cur prev) {b : Nat} (hb : b < F.graph.size) :
    ∃ l₁ l₂, done = l₁ ++ (F.graph.get b).ops.toList ++ l₂ := by
  obtain ⟨s, t, hst⟩ := List.append_of_mem (List.mem_range.mpr hb)
  refine ⟨s.flatMap fun b => (F.graph.get b).ops.toList, t.flatMap fun b => (F.graph.get b).ops.toList,
    ?_⟩
  rw [← hP.concat, blockOps, hst, List.flatMap_append, List.flatMap_cons, List.append_assoc]

theorem Parted.nodup_ops (hP : Parted M done F cur prev) (hnd : done.Nodup) {b : Nat}
    (hb : b < F.graph.size) : (F.graph.get b).ops.toList.Nodup := by
  obtain ⟨l₁, l₂, h⟩ := hP.consecutive hb
  rw [h] at hnd
  exact (List.nodup_append.mp (List.nodup_append.mp hnd).1).2.1

/-- Inside a block, an operation is unmarked and the fallthrough of the one before it. -/
theorem Parted.inner (hP : Parted M done F cur prev) {b p q : Nat} {l₁ l₂ : List Nat}
    (h : (F.graph.get b).ops.toList = l₁ ++ p :: q :: l₂) :
    ¬M.Marked q ∧ M.fallthroughOp p = some q := by
  have hw := hP.within b l₁ l₂ p q h
  simp only [startsBlock, Bool.or_eq_false_iff, bne_eq_false_iff_eq] at hw
  refine ⟨fun hm => ?_, hw.2⟩
  rw [Marked, hw.1] at hm
  cases hm

/-- A marked operation begins its block. -/
theorem Parted.head_of_marked (hP : Parted M done F cur prev) {b o : Nat}
    (ho : o ∈ (F.graph.get b).ops) (hm : M.Marked o) : (F.graph.get b).ops.toList.head? = some o := by
  obtain ⟨s, t, hst⟩ := List.append_of_mem (Array.mem_toList_iff.mpr ho)
  rcases List.eq_nil_or_concat s with rfl | ⟨s', p, rfl⟩
  · rw [hst]
    rfl
  · have hst' : (F.graph.get b).ops.toList = s' ++ p :: o :: t := by rw [hst]; simp
    exact absurd hm (hP.inner hst').1

/-- **The fallthrough of a block's last operation begins a block**, when no two alive
operations share a sequence number: its operation before in program order is the last one. -/
theorem Parted.head_of_fallthrough (hP : Parted M M.store.aliveOps F cur prev)
    (hd : (M.store.aliveSeqs.map (·.2)).Nodup) {b p n : Nat} (hb : b < F.graph.size)
    (hlast : (F.graph.get b).ops.back? = some p) (hn : M.fallthroughOp p = some n) :
    ∃ b' < F.graph.size, n ∈ (F.graph.get b').ops ∧ (F.graph.get b').ops.toList.head? = some n := by
  have hnd := Store.nodup_aliveOps M.store
  obtain ⟨b', hb', hnb'⟩ := hP.mem_iff.mp (fallthroughOp_mem hn)
  refine ⟨b', hb', hnb', ?_⟩
  obtain ⟨s, t, hst⟩ := List.append_of_mem (Array.mem_toList_iff.mpr hnb')
  rcases List.eq_nil_or_concat s with rfl | ⟨s', q, rfl⟩
  · rw [hst]
    rfl
  -- `n` follows some `q` in its block; both `p` and `q` come right before `n` in program order
  have hst' : (F.graph.get b').ops.toList = s' ++ q :: n :: t := by rw [hst]; simp
  have hq := (hP.inner hst').2
  have hadj : ∀ r, r ∈ M.store.aliveOps → M.fallthroughOp r = some n →
      ∃ l₁ r₁, M.store.aliveOps = l₁ ++ r :: n :: r₁ := by
    intro r hr hrn
    obtain ⟨x, hx, hxn⟩ := fallthroughOp_spec hrn
    obtain ⟨x', hx', hdead⟩ := Store.mem_aliveOps.mp hr
    rw [hx] at hx'
    cases hx'
    exact Store.nextAfter_adjacent hd hx hdead hxn
  have hpmem : p ∈ (F.graph.get b).ops := Array.mem_of_back? hlast
  have hqmem : q ∈ (F.graph.get b').ops := by
    rw [← Array.mem_toList_iff, hst']
    simp
  obtain ⟨l₁, r₁, hp⟩ := hadj p (hP.mem_iff.mpr ⟨b, hb, hpmem⟩) hn
  obtain ⟨l₂, r₂, hq'⟩ := hadj q (hP.mem_iff.mpr ⟨b', hb', hqmem⟩) hq
  obtain rfl : p = q := eq_of_adjacent hnd hp hq'
  -- so `p` is in block `b'`, followed by `n`, and yet last in it
  obtain rfl : b = b' := hP.block_eq hb hb' hpmem hqmem
  exact absurd (by rw [Array.getLast?_toList]; exact hlast)
    (getLast?_ne_of_adjacent (hP.nodup_ops hnd hb) hst')

end Finished

end Function

end MicroSsa
