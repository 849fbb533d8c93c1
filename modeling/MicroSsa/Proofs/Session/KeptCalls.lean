import MicroSsa.Session.Basic
import MicroSsa.Proofs.Store.Requests
import MicroSsa.Proofs.Propagation.Worklist
import MicroSsa.Proofs.Blocks.Partition
/-!
# The analysis after flow following keeps the calls

Once flow following has recorded a function's calls, a session links them to their callees
and only then finishes the function: blocks, dominators, SSA form and constants. None of these
passes touches the calls (`calls_finishAnalysis`), so the links survive into the function the
session stores. Each pass gets one lemma, and the loops among them a fold lemma over the steps.
-/

namespace MicroSsa

/-- A property kept by every step of a fold that succeeds holds at its end. -/
theorem foldlM_ok_invariant {ε α β : Type} {step : β → α → Except ε β} (P : β → Prop)
    {l : List α} {b b' : β} (h : l.foldlM step b = .ok b') (hb : P b)
    (hstep : ∀ a ∈ l, ∀ x y, P x → step x a = .ok y → P y) : P b' := by
  induction l generalizing b with
  | nil =>
    cases h
    exact hb
  | cons a l ih =>
    rw [List.foldlM_cons] at h
    obtain ⟨c, hc, h⟩ := Except.bind_eq_ok h
    exact ih h (hstep a List.mem_cons_self b c hb hc) fun a' ha' => hstep a' (List.mem_cons_of_mem _ ha')

/-- A property kept by every step of a fold holds at its end. -/
theorem foldl_invariant {α β : Type} {step : β → α → β} (P : β → Prop)
    (hstep : ∀ x a, P x → P (step x a)) : ∀ (l : List α) (b : β), P b → P (l.foldl step b)
  | [], _, hb => hb
  | a :: l, b, hb => foldl_invariant P hstep l (step b a) (hstep b a hb)

/-- A fold of steps that keep a projection keeps it. -/
theorem foldl_proj_eq {α β γ : Type} (π : α → γ) {step : α → β → α}
    (h : ∀ a b, π (step a b) = π a) : ∀ (l : List β) (a : α), π (l.foldl step a) = π a
  | [], _ => rfl
  | b :: l, a => (foldl_proj_eq π h l (step a b)).trans (h a b)

namespace Function

section Body

variable {f g : Function}

@[simp] theorem calls_setStartBlock (f : Function) (o : Nat) (v : Bool) :
    (f.setStartBlock o v).calls = f.calls := rfl

@[simp] theorem calls_modifyBlockFlags (f : Function) (b : Nat) (m : BlockFlags → BlockFlags) :
    (f.modifyBlockFlags b m).calls = f.calls := rfl

@[simp] theorem calls_edgeTo (f : Function) (b t : Nat) : (f.edgeTo b t).calls = f.calls := rfl

@[simp] theorem calls_markBad (f : Function) (b : Nat) : (f.markBad b).calls = f.calls := rfl

@[simp] theorem calls_edgeIf (f : Function) (b : Nat) (t : Option Nat) :
    (f.edgeIf b t).calls = f.calls := by
  cases t <;> rfl

@[simp] theorem calls_edgeOrBad (f : Function) (b : Nat) (t : Option Nat) :
    (f.edgeOrBad b t).calls = f.calls := by
  cases t <;> rfl

@[simp] theorem calls_tableEdge (b : Nat) (dflt : Option Nat) (f : Function) (ai : Address × Nat) :
    (tableEdge b dflt f ai).calls = f.calls := by
  unfold tableEdge
  split
  · rfl
  · split <;> rfl

@[simp] theorem calls_connectIndirect (f : Function) (b last : Nat) :
    (f.connectIndirect b last).calls = f.calls := by
  unfold connectIndirect
  dsimp only
  split
  · rfl
  · exact foldl_proj_eq Function.calls (fun _ _ => by simp) _ _

@[simp] theorem calls_connectBlock (f : Function) (b : Nat) : (f.connectBlock b).calls = f.calls := by
  unfold connectBlock
  split
  · rfl
  · split
    case h_2 =>
      dsimp only
      split <;> simp
    all_goals simp

@[simp] theorem calls_markAddr (f : Function) (a : Address) : (f.markAddr a).calls = f.calls := by
  unfold markAddr
  split <;> rfl

@[simp] theorem calls_markBranch (f : Function) (o : Nat) : (f.markBranch o).calls = f.calls := by
  have hnext : ∀ g : Function, (g.markNext o).calls = g.calls := by
    intro g
    unfold markNext
    split <;> rfl
  have htarget : ∀ g : Function, (g.markTarget o).calls = g.calls := by
    intro g
    unfold markTarget
    split <;> rfl
  unfold markBranch
  split
  · split
    · split
      · rw [htarget, hnext]
      · exact hnext f
    · rfl
  · rfl

@[simp] theorem calls_partitionStep (acc : Function × Option Nat × Option Nat) (o : Nat) :
    (partitionStep acc o).1.calls = acc.1.calls := by
  obtain ⟨F, cur, prev⟩ := acc
  rw [partitionStep_eq]
  cases cur with
  | none => rfl
  | some b =>
    dsimp only [Option.elim]
    split <;> rfl

@[simp] theorem calls_placeEntry (f : Function) : (placeEntry f).calls = f.calls := by
  unfold placeEntry
  split
  · split <;> rfl
  · rfl

theorem calls_generateBlocks (f : Function) : f.generateBlocks.calls = f.calls := by
  rw [generateBlocks_eq]
  split
  · rfl
  · dsimp only
    rw [calls_placeEntry, connectAll, foldl_proj_eq Function.calls calls_connectBlock,
      foldl_proj_eq (fun acc : Function × Option Nat × Option Nat => acc.1.calls) calls_partitionStep,
      foldl_proj_eq Function.calls calls_markBranch, foldl_proj_eq Function.calls calls_markAddr]
    rfl

theorem calls_opInsert {o b pos : Nat} (h : f.opInsert o b pos = .ok g) : g.calls = f.calls := by
  unfold opInsert at h
  obtain ⟨x, -, h⟩ := Except.bind_eq_ok h
  dsimp only at h
  split at h
  · cases h
  · obtain ⟨store, -, h⟩ := Except.bind_eq_ok h
    cases h
    dsimp only
    split
    · split <;> rfl
    · rfl

theorem calls_opInsertBegin {o b : Nat} (h : f.opInsertBegin o b = .ok g) : g.calls = f.calls :=
  calls_opInsert h

theorem calls_insertMerge {key : Location} {b : Nat} (h : f.insertMerge key b = .ok g) :
    g.calls = f.calls := by
  unfold insertMerge at h
  obtain ⟨⟨o, s⟩, -, h⟩ := Except.bind_eq_ok h
  obtain ⟨s₁, -, h⟩ := Except.bind_eq_ok h
  obtain ⟨s₂, -, h⟩ := Except.bind_eq_ok h
  exact (calls_opInsertBegin h).trans rfl

theorem calls_placeLoop (key : Location) :
    ∀ (fuel : Nat) {p p' : Placement}, placeLoop key fuel p = .ok p' → p'.func.calls = p.func.calls
  | 0, p, p', h => by
    cases h
    rfl
  | fuel + 1, p, p', h => by
    rw [placeLoop] at h
    split at h
    · cases h
      rfl
    · obtain ⟨p₁, h₁, h⟩ := Except.bind_eq_ok h
      rw [calls_placeLoop key fuel h]
      refine foldlM_ok_invariant (fun p' : Placement => p'.func.calls = p.func.calls) h₁ rfl ?_
      intro fb _ x y hx hy
      split at hy
      · cases hy
        exact hx
      · obtain ⟨func, hfunc, hy⟩ := Except.bind_eq_ok hy
        dsimp only at hy
        split at hy <;> cases hy <;> exact (calls_insertMerge hfunc).trans hx

theorem calls_placeMerges {maxDepth : Nat} {key : Location} {writers : List Nat}
    (h : f.placeMerges maxDepth key writers = .ok g) : g.calls = f.calls := by
  unfold placeMerges at h
  obtain ⟨p, hp, h⟩ := Except.bind_eq_ok h
  cases h
  exact calls_placeLoop key _ hp

theorem calls_renameRead {st st' : Stacks} {o slot placeholder : Nat}
    (h : f.renameRead st o slot placeholder = .ok (g, st')) : g.calls = f.calls := by
  unfold renameRead at h
  split at h
  · split at h
    · split at h
      · dsimp only at h
        split at h
        · obtain ⟨_, -, h⟩ := Except.bind_eq_ok h
          obtain ⟨_, -, h⟩ := Except.bind_eq_ok h
          cases h
          rfl
        · obtain ⟨_, -, h⟩ := Except.bind_eq_ok h
          obtain ⟨_, -, h⟩ := Except.bind_eq_ok h
          obtain ⟨_, -, h⟩ := Except.bind_eq_ok h
          cases h
          rfl
      · cases h
        rfl
    · cases h
      rfl
  · cases h
    rfl

theorem calls_renameBlock {st st' : Stacks} {b : Nat} {defs : List Location}
    (h : f.renameBlock st b = .ok (g, st', defs)) : g.calls = f.calls := by
  unfold renameBlock at h
  obtain ⟨⟨f₁, st₁, defs₁⟩, h₁, h⟩ := Except.bind_eq_ok h
  obtain ⟨⟨f₂, st₂⟩, h₂, h⟩ := Except.bind_eq_ok h
  cases h
  -- renaming the reads of the block's operations
  have hf₁ : f₁.calls = f.calls := by
    refine foldlM_ok_invariant (fun acc : Function × Stacks × List Location => acc.1.calls = f.calls)
      h₁ rfl ?_
    rintro o - ⟨fa, sta, da⟩ y hx hy
    dsimp -zeta only at hy hx
    -- pushing the output of `o` changes only the stacks
    extract_lets jp at hy
    have hjp : ∀ p, jp p = .ok y → y.1 = p.1 := by
      intro p hp
      dsimp only [jp] at hp
      split at hp
      · split at hp
        · split at hp <;> cases hp <;> rfl
        · cases hp
          rfl
      · cases hp
        rfl
    split at hy
    · obtain ⟨p, hp, hy⟩ := Except.bind_eq_ok hy
      cases hp
      rw [hjp _ hy]
      exact hx
    · obtain ⟨p, hp, hy⟩ := Except.bind_eq_ok hy
      rw [hjp _ hy]
      refine foldlM_ok_invariant (fun acc : Function × Stacks => acc.1.calls = f.calls) hp hx ?_
      rintro ⟨v, slot⟩ - ⟨fc, stc⟩ z hz hs
      dsimp only at hs
      split at hs
      · exact (calls_renameRead hs).trans hz
      · cases hs
        exact hz
  -- renaming the merge inputs of the successors
  refine foldlM_ok_invariant (fun acc : Function × Stacks => acc.1.calls = f.calls) h₂ hf₁ ?_
  rintro e - ⟨fa, sta⟩ y hx hy
  refine foldlM_ok_invariant (fun acc : Function × Stacks => acc.1.calls = f.calls) hy hx ?_
  rintro m - ⟨fc, stc⟩ z hz hs
  split at hs
  · split at hs
    · exact (calls_renameRead hs).trans hz
    · cases hs
      exact hz
  · cases hs
    exact hz

theorem calls_renameTree :
    ∀ (fuel : Nat) {f g : Function} {st st' : Stacks} {b : Nat},
      renameTree fuel f st b = .ok (g, st') → g.calls = f.calls
  | 0, f, g, st, st', b, h => by
    cases h
    rfl
  | fuel + 1, f, g, st, st', b, h => by
    rw [renameTree] at h
    obtain ⟨⟨f₁, st₁, defs⟩, h₁, h⟩ := Except.bind_eq_ok h
    obtain ⟨⟨f₂, st₂⟩, h₂, h⟩ := Except.bind_eq_ok h
    cases h
    refine foldlM_ok_invariant (fun acc : Function × Stacks => acc.1.calls = f.calls) h₂
      (calls_renameBlock h₁) ?_
    rintro c - ⟨fa, sta⟩ y hx hy
    exact (calls_renameTree fuel hy).trans hx

theorem calls_opUninsert {o : Nat} (h : f.opUninsert o = .ok g) : g.calls = f.calls := by
  unfold opUninsert at h
  obtain ⟨x, -, h⟩ := Except.bind_eq_ok h
  extract_lets jp at h
  -- the operation goes to the dead list last
  have hjp : ∀ f', jp f' = .ok g → g.calls = f'.calls := by
    intro f' hf'
    obtain ⟨s, -, hf'⟩ := Except.bind_eq_ok hf'
    cases hf'
    rfl
  split at h
  · split at h
    · dsimp only at h
      obtain ⟨f', hf', h⟩ := Except.bind_eq_ok h
      cases hf'
      rw [hjp _ h]
      split
      · split <;> rfl
      · rfl
    · obtain ⟨f', hf', h⟩ := Except.bind_eq_ok h
      cases hf'
      exact (hjp _ h).trans rfl
  · obtain ⟨f', hf', h⟩ := Except.bind_eq_ok h
    cases hf'
    exact hjp _ h

theorem calls_opDestroy {o : Nat} (h : f.opDestroy o = .ok g) : g.calls = f.calls := by
  unfold opDestroy at h
  obtain ⟨f₁, h₁, h⟩ := Except.bind_eq_ok h
  obtain ⟨s, -, h⟩ := Except.bind_eq_ok h
  cases h
  show f₁.calls = f.calls
  exact calls_opUninsert h₁

theorem calls_pruneMerges (h : f.pruneMerges = .ok g) : g.calls = f.calls :=
  foldlM_ok_invariant (fun g : Function => g.calls = f.calls) h rfl
    fun _ _ _ _ hx hy => (calls_opDestroy hy).trans hx

/-- SSA form is built without touching the calls. -/
theorem calls_buildSsa (h : f.buildSsa = .ok g) : g.calls = f.calls := by
  unfold buildSsa at h
  split at h
  · obtain ⟨f₁, h₁, h⟩ := Except.bind_eq_ok h
    obtain ⟨⟨f₂, st⟩, h₂, h⟩ := Except.bind_eq_ok h
    obtain ⟨f₃, h₃, h⟩ := Except.bind_eq_ok h
    cases h
    have hf₁ : f₁.calls = f.calls :=
      foldlM_ok_invariant (fun g : Function => g.calls = f.calls) h₁ rfl
        fun _ _ _ _ hx hy => (calls_placeMerges hy).trans hx
    exact (calls_pruneMerges h₃).trans ((calls_renameTree _ h₂).trans hf₁)
  · cases h
    rfl

@[simp] theorem calls_visit (ctx : Context) (loads stores : List Nat) (p : Propagation) (o : Nat) :
    (p.visit ctx loads stores o).func.calls = p.func.calls := by
  cases hw : (p.func.store.op? o).bind (·.output) with
  | none =>
    rw [(Propagation.visit_of_not_lowered loads fun w h => by simp [hw] at h).1]
  | some w =>
    cases ha : (p.func.valueOf w).loweredBy (evalOp ctx p.func stores o).value with
    | none =>
      refine congrArg Function.calls (Propagation.visit_of_not_lowered loads fun w' h => ?_).1
      rw [hw] at h
      cases h
      exact ha
    | some a =>
      rw [(Propagation.visit_of_lowered loads hw ha).1]
      rfl

theorem calls_propagateLoop (ctx : Context) (loads stores : List Nat) :
    ∀ (fuel : Nat) (p : Propagation), (propagateLoop ctx loads stores fuel p).func.calls = p.func.calls
  | 0, _ => rfl
  | fuel + 1, p => by
    rw [propagateLoop]
    split
    · rfl
    · rw [calls_propagateLoop ctx loads stores fuel, calls_visit]

/-- Constant propagation changes values and the stack depth, never the calls. -/
@[simp] theorem calls_propagateConstants (ctx : Context) (f : Function) :
    (propagateConstants ctx f).calls = f.calls := by
  unfold propagateConstants
  dsimp only
  have hp : (propagateValues ctx f).func.calls = f.calls := by
    unfold propagateValues
    dsimp only
    rw [calls_propagateLoop, Propagation.func_foldl_enqueue]
    rfl
  split <;> exact hp

/-- The analysis after flow following keeps the calls as linking left them. -/
theorem calls_finishAnalysis {ctx : Context} (h : f.finishAnalysis ctx = .ok g) : g.calls = f.calls := by
  unfold finishAnalysis analyzeBody at h
  obtain ⟨f₁, h₁, h⟩ := Except.bind_eq_ok h
  cases h
  obtain ⟨f₂, h₂, h₁⟩ := Except.bind_eq_ok h₁
  cases h₁
  show (propagateConstants ctx f₂).calls = f.calls
  rw [calls_propagateConstants, calls_buildSsa h₂]
  exact calls_generateBlocks f

end Body

end Function

end MicroSsa
