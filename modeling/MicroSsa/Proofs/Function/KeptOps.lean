import MicroSsa.Proofs.Store.Kept
import MicroSsa.Proofs.Session.KeptCalls
import MicroSsa.Proofs.Blocks.Cfg
/-!
# The analysis keeps what every operation is

Jump-table recovery analyses a scratch copy of the function and reads the recovered tables back
by the sequence number of their indirect branch. That reading is sound because no pass of the
analysis changes the opcode or sequence number of an operation it does not destroy: block
generation keeps the flow, SSA construction only adds merges, rewires inputs and destroys
merges, and constant propagation changes values (`opsKept_analyzeBody`).

Every pass but merge pruning keeps every operation (`Store.Extends`); pruning destroys merges,
so the whole analysis keeps only `Store.OpsKept`. Each pass gets one lemma, and the loops among
them a fold lemma over the steps, as for the calls.
-/

namespace MicroSsa

/-- Two stores with the same flow have the same operations, as far as heads go. -/
theorem Store.extends_of_flow {s t : Store} (h : t.flow = s.flow) : s.Extends t := by
  have hhead : ∀ (u : Store) (o : Nat),
      (u.op? o).map Op.head = ((u.op? o).map Op.flow).map fun p => (p.1, p.2.1) := by
    intro u o
    rw [Option.map_map]
    rfl
  refine ⟨?_, fun o _ => by rw [hhead, hhead, Store.op?_flow_congr h]⟩
  have hsize := congrArg Array.size h
  simp only [Store.flow, Array.size_map] at hsize
  exact Nat.le_of_eq hsize.symm

namespace Function

section Body

variable {f g : Function}

theorem extends_setStartBlock (f : Function) (o : Nat) (v : Bool) :
    f.store.Extends (f.setStartBlock o v).store :=
  Store.extends_modifyOp _ _ fun _ => rfl

theorem extends_opInsert {o b pos : Nat} (h : f.opInsert o b pos = .ok g) :
    f.store.Extends g.store := by
  unfold opInsert at h
  obtain ⟨x, -, h⟩ := Except.bind_eq_ok h
  dsimp only at h
  split at h
  · cases h
  · obtain ⟨store, hs, h⟩ := Except.bind_eq_ok h
    cases h
    -- the operation is placed and made alive, then the start marks move
    have h₁ : f.store.Extends store :=
      (Store.extends_setParent _ _ _).trans (Store.extends_markAlive hs)
    dsimp only
    split
    · split
      · exact (h₁.trans (extends_setStartBlock { f with store := store } _ _)).trans
          (extends_setStartBlock _ _ _)
      · exact h₁.trans (extends_setStartBlock { f with store := store } _ _)
    · exact h₁

theorem extends_insertMerge {key : Location} {b : Nat} (h : f.insertMerge key b = .ok g) :
    f.store.Extends g.store := by
  unfold insertMerge at h
  obtain ⟨⟨o, s⟩, h₁, h⟩ := Except.bind_eq_ok h
  obtain ⟨s₁, h₂, h⟩ := Except.bind_eq_ok h
  obtain ⟨s₂, h₃, h⟩ := Except.bind_eq_ok h
  -- a new merge, one fresh input per in-edge, a fresh output, then its place in the block
  have hs : f.store.Extends s :=
    (Store.extends_of_ops (by exact rfl)).trans (Store.extends_newOp h₁)
  have hs₁ : f.store.Extends s₁ := by
    refine foldlM_ok_invariant (fun s' => f.store.Extends s') h₂ hs ?_
    intro slot _ x y hx hy
    dsimp only [Store.newVarnode] at hy
    exact hx.trans ((Store.extends_of_ops (by exact rfl)).trans (Store.extends_setInput hy))
  exact ((hs₁.trans (Store.extends_of_ops (by exact rfl))).trans (Store.extends_setOutput h₃)).trans
    (extends_opInsert h)

theorem extends_placeLoop (key : Location) :
    ∀ (fuel : Nat) {p p' : Placement}, placeLoop key fuel p = .ok p' →
      p.func.store.Extends p'.func.store
  | 0, p, p', h => by
    cases h
    exact Store.Extends.refl _
  | fuel + 1, p, p', h => by
    rw [placeLoop] at h
    split at h
    · cases h
      exact Store.Extends.refl _
    · obtain ⟨p₁, h₁, h⟩ := Except.bind_eq_ok h
      refine Store.Extends.trans ?_ (extends_placeLoop key fuel h)
      refine foldlM_ok_invariant (fun p' : Placement => p.func.store.Extends p'.func.store) h₁
        (Store.Extends.refl _) ?_
      intro fb _ x y hx hy
      split at hy
      · cases hy
        exact hx
      · obtain ⟨func, hfunc, hy⟩ := Except.bind_eq_ok hy
        dsimp only at hy
        split at hy <;> cases hy <;> exact hx.trans (extends_insertMerge hfunc)

theorem extends_placeMerges {maxDepth : Nat} {key : Location} {writers : List Nat}
    (h : f.placeMerges maxDepth key writers = .ok g) : f.store.Extends g.store := by
  unfold placeMerges at h
  obtain ⟨p, hp, h⟩ := Except.bind_eq_ok h
  cases h
  exact extends_placeLoop key _ hp

theorem extends_renameRead {st st' : Stacks} {o slot placeholder : Nat}
    (h : f.renameRead st o slot placeholder = .ok (g, st')) : f.store.Extends g.store := by
  unfold renameRead at h
  split at h
  · split at h
    · split at h
      · dsimp only at h
        -- the current write is the top of the stack, or a new input of the function
        split at h
        · obtain ⟨_, h₁, h⟩ := Except.bind_eq_ok h
          obtain ⟨s₂, h₂, h⟩ := Except.bind_eq_ok h
          cases h₁
          cases h
          dsimp only
          split
          · exact (Store.extends_setInput h₂).trans (Store.extends_deleteVarnode ‹_›)
          · exact Store.extends_setInput h₂
        · obtain ⟨s₁, h₁, h⟩ := Except.bind_eq_ok h
          obtain ⟨_, h₂, h⟩ := Except.bind_eq_ok h
          obtain ⟨s₂, h₃, h⟩ := Except.bind_eq_ok h
          cases h₂
          cases h
          have hs₂ : f.store.Extends s₂ := ((Store.extends_newVarnode _ _ _).trans
            (Store.extends_setVarnodeInput h₁)).trans (Store.extends_setInput h₃)
          dsimp only
          split
          · exact hs₂.trans (Store.extends_deleteVarnode ‹_›)
          · exact hs₂
      · cases h
        exact Store.Extends.refl _
    · cases h
      exact Store.Extends.refl _
  · cases h
    exact Store.Extends.refl _

theorem extends_renameBlock {st st' : Stacks} {b : Nat} {defs : List Location}
    (h : f.renameBlock st b = .ok (g, st', defs)) : f.store.Extends g.store := by
  unfold renameBlock at h
  obtain ⟨⟨f₁, st₁, defs₁⟩, h₁, h⟩ := Except.bind_eq_ok h
  obtain ⟨⟨f₂, st₂⟩, h₂, h⟩ := Except.bind_eq_ok h
  cases h
  -- renaming the reads of the block's operations
  have hf₁ : f.store.Extends f₁.store := by
    refine foldlM_ok_invariant
      (fun acc : Function × Stacks × List Location => f.store.Extends acc.1.store) h₁
      (Store.Extends.refl _) ?_
    rintro o - ⟨fa, sta, da⟩ y hx hy
    dsimp -zeta only at hy hx
    -- pushing the output of `o` changes only the stacks
    extract_lets jp at hy
    have hjp : ∀ p, jp p = .ok y → y.1 = p.1 := by
      intro p hp
      dsimp only [jp] at hp
      split at hp
      · split at hp
        · split at hp <;> cases hp <;> rfl
        · cases hp
          rfl
      · cases hp
        rfl
    split at hy
    · obtain ⟨p, hp, hy⟩ := Except.bind_eq_ok hy
      cases hp
      rw [hjp _ hy]
      exact hx
    · obtain ⟨p, hp, hy⟩ := Except.bind_eq_ok hy
      rw [hjp _ hy]
      refine foldlM_ok_invariant (fun acc : Function × Stacks => f.store.Extends acc.1.store) hp hx ?_
      rintro ⟨v, slot⟩ - ⟨fc, stc⟩ z hz hs
      dsimp only at hs
      split at hs
      · exact hz.trans (extends_renameRead hs)
      · cases hs
        exact hz
  -- renaming the merge inputs of the successors
  refine foldlM_ok_invariant (fun acc : Function × Stacks => f.store.Extends acc.1.store) h₂ hf₁ ?_
  rintro e - ⟨fa, sta⟩ y hx hy
  refine foldlM_ok_invariant (fun acc : Function × Stacks => f.store.Extends acc.1.store) hy hx ?_
  rintro m - ⟨fc, stc⟩ z hz hs
  split at hs
  · split at hs
    · exact hz.trans (extends_renameRead hs)
    · cases hs
      exact hz
  · cases hs
    exact hz

theorem extends_renameTree :
    ∀ (fuel : Nat) {f g : Function} {st st' : Stacks} {b : Nat},
      renameTree fuel f st b = .ok (g, st') → f.store.Extends g.store
  | 0, f, g, st, st', b, h => by
    cases h
    exact Store.Extends.refl _
  | fuel + 1, f, g, st, st', b, h => by
    rw [renameTree] at h
    obtain ⟨⟨f₁, st₁, defs⟩, h₁, h⟩ := Except.bind_eq_ok h
    obtain ⟨⟨f₂, st₂⟩, h₂, h⟩ := Except.bind_eq_ok h
    cases h
    refine foldlM_ok_invariant (fun acc : Function × Stacks => f.store.Extends acc.1.store) h₂
      (extends_renameBlock h₁) ?_
    rintro c - ⟨fa, sta⟩ y hx hy
    exact hx.trans (extends_renameTree fuel hy)

theorem extends_opUninsert {o : Nat} (h : f.opUninsert o = .ok g) : f.store.Extends g.store := by
  unfold opUninsert at h
  obtain ⟨x, -, h⟩ := Except.bind_eq_ok h
  extract_lets jp at h
  -- the operation goes to the dead list last
  have hjp : ∀ f', jp f' = .ok g → f'.store.Extends g.store := by
    intro f' hf'
    obtain ⟨s, hs, hf'⟩ := Except.bind_eq_ok hf'
    cases hf'
    exact Store.extends_markDead hs
  split at h
  · split at h
    · dsimp only at h
      obtain ⟨f', hf', h⟩ := Except.bind_eq_ok h
      cases hf'
      refine Store.Extends.trans ?_ (hjp _ h)
      refine Store.Extends.trans ?_ (Store.extends_setParent _ _ _)
      split
      · split
        · exact extends_setStartBlock _ _ _
        · exact Store.Extends.refl _
      · exact Store.Extends.refl _
    · obtain ⟨f', hf', h⟩ := Except.bind_eq_ok h
      cases hf'
      exact (Store.extends_setParent _ _ _).trans (hjp _ h)
  · obtain ⟨f', hf', h⟩ := Except.bind_eq_ok h
    cases hf'
    exact hjp _ h

theorem opsKept_opDestroy {o : Nat} (h : f.opDestroy o = .ok g) : f.store.OpsKept g.store := by
  unfold opDestroy at h
  obtain ⟨f₁, h₁, h⟩ := Except.bind_eq_ok h
  obtain ⟨s, hs, h⟩ := Except.bind_eq_ok h
  cases h
  exact (extends_opUninsert h₁).opsKept.trans (Store.opsKept_destroyOp hs)

theorem opsKept_pruneMerges (h : f.pruneMerges = .ok g) : f.store.OpsKept g.store :=
  foldlM_ok_invariant (fun g : Function => f.store.OpsKept g.store) h (Store.OpsKept.refl _)
    fun _ _ _ _ hx hy => hx.trans (opsKept_opDestroy hy)

/-- SSA construction keeps what every operation it does not destroy is. -/
theorem opsKept_buildSsa (h : f.buildSsa = .ok g) : f.store.OpsKept g.store := by
  unfold buildSsa at h
  split at h
  · obtain ⟨f₁, h₁, h⟩ := Except.bind_eq_ok h
    obtain ⟨⟨f₂, st⟩, h₂, h⟩ := Except.bind_eq_ok h
    obtain ⟨f₃, h₃, h⟩ := Except.bind_eq_ok h
    cases h
    have hf₁ : f.store.Extends f₁.store :=
      foldlM_ok_invariant (fun g : Function => f.store.Extends g.store) h₁ (Store.Extends.refl _)
        fun _ _ _ _ hx hy => hx.trans (extends_placeMerges hy)
    have hf₃ := (hf₁.trans (extends_renameTree _ h₂)).opsKept.trans (opsKept_pruneMerges h₃)
    -- the sweep deletes unused varnodes only
    refine foldl_invariant (fun s => f.store.OpsKept s) ?_ _ _ hf₃
    intro s v hs
    split
    · exact hs.trans (Store.extends_deleteVarnode ‹_›).opsKept
    · exact hs
  · cases h
    exact Store.OpsKept.refl _

/-- Block generation keeps the flow: it only marks block starts, sets parents and builds the
graph. -/
theorem sameFlow_generateBlocks (f : Function) : SameFlow f f.generateBlocks := by
  have h₀ := sameFlow_clearBlocks f
  rw [generateBlocks_eq]
  split
  · exact h₀.trans ⟨rfl, rfl, rfl, rfl, rfl⟩
  · -- the stages, as for the control-flow graph
    have hM := markedFrom_marks f.clearBlocks
    rw [Store.aliveOps_congr h₀.flow] at hM
    dsimp only
    generalize f.store.aliveOps.foldl markBranch
      (f.clearBlocks.startAddrs.foldl markAddr f.clearBlocks) = M at hM ⊢
    have hLM : M.store.aliveOps = f.store.aliveOps := Store.aliveOps_congr (h₀.trans hM.flow).flow
    have hP := parted_foldl M f.store.aliveOps [] M none none (parted_start hM.graph)
      (by simpa using Store.nodup_aliveOps f.store) (fun o ho => by rw [hLM]; exact ho)
    generalize f.store.aliveOps.foldl partitionStep (M, none, none) = R at hP ⊢
    obtain ⟨hG, -⟩ := connectAll_spec R.1
    have hE := placeEntry_spec (connectAll R.1)
    exact ((h₀.trans hM.flow).trans (hP.flow.trans (hG.sameFlow.trans hE.sameFlow))).trans
      ⟨rfl, rfl, rfl, rfl, rfl⟩

@[simp] theorem ops_visit (ctx : Context) (loads stores : List Nat) (p : Propagation) (o : Nat) :
    (p.visit ctx loads stores o).func.store.ops = p.func.store.ops := by
  cases hw : (p.func.store.op? o).bind (·.output) with
  | none =>
    rw [(Propagation.visit_of_not_lowered loads fun w h => by simp [hw] at h).1]
  | some w =>
    cases ha : (p.func.valueOf w).loweredBy (evalOp ctx p.func stores o).value with
    | none =>
      refine congrArg (·.store.ops) (Propagation.visit_of_not_lowered loads fun w' h => ?_).1
      rw [hw] at h
      cases h
      exact ha
    | some a =>
      rw [(Propagation.visit_of_lowered loads hw ha).1]
      rfl

theorem ops_propagateLoop (ctx : Context) (loads stores : List Nat) :
    ∀ (fuel : Nat) (p : Propagation),
      (propagateLoop ctx loads stores fuel p).func.store.ops = p.func.store.ops
  | 0, _ => rfl
  | fuel + 1, p => by
    rw [propagateLoop]
    split
    · rfl
    · rw [ops_propagateLoop ctx loads stores fuel, ops_visit]

/-- Constant propagation changes values and the stack depth, never an operation. -/
theorem ops_propagateConstants (ctx : Context) (f : Function) :
    (propagateConstants ctx f).store.ops = f.store.ops := by
  unfold propagateConstants
  dsimp only
  have hp : (propagateValues ctx f).func.store.ops = f.store.ops := by
    unfold propagateValues
    dsimp only
    rw [ops_propagateLoop, Propagation.func_foldl_enqueue]
    dsimp only [startValues]
    exact foldl_proj_eq Store.ops (fun _ _ => by exact rfl) _ _
  split <;> exact hp

/-- **The scratch analysis keeps the operations**: every operation of the analysed copy that
has the number of an operation of the function is that operation, with its opcode and
sequence number. -/
theorem opsKept_analyzeBody {ctx : Context} (h : f.analyzeBody ctx = .ok g) :
    f.store.OpsKept g.store := by
  unfold analyzeBody at h
  obtain ⟨f₁, h₁, h⟩ := Except.bind_eq_ok h
  cases h
  have hblocks : f.store.Extends f.generateBlocks.store :=
    Store.extends_of_flow (sameFlow_generateBlocks f).flow
  exact hblocks.opsKept.trans ((opsKept_buildSsa h₁).trans
    (Store.extends_of_ops (ops_propagateConstants ctx f₁)).opsKept)

end Body

end Function

end MicroSsa
