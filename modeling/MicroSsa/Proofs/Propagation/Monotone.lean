import MicroSsa.Function.Propagation
import MicroSsa.Proofs.Propagation.Lattice
import MicroSsa.Proofs.Store.Links
/-!
# Evaluation is monotone in the values of varnodes

Constant propagation changes nothing of a function but the values of its varnodes, so every
function it passes through is its start with other values: `Function.withValues f σ`.

The evaluation of an operation (`Function.evalOp`) reads the values of the operation's inputs
and, for a load, those of the inputs of every store; everything else it reads (sizes, constants
of the constant space, blocks, dominance) does not depend on values. `evalOp_mono` says that
lowering the values an operation reads lowers its evaluation; with the same values on what it
reads, the evaluation is the same (`evalOp_congr`).
-/

namespace MicroSsa

namespace Function

variable {ctx : Context} {f : Function}

/-- The function whose varnodes hold the values `σ`, with nothing else changed. -/
def withValues (f : Function) (σ : Nat → Value) : Function :=
  let varnodes := f.store.varnodes.mapIdx fun v y => y.map fun y => { y with value := σ v }
  { f with store := { f.store with varnodes := varnodes } }

@[simp] theorem op?_withValues (f : Function) (σ : Nat → Value) (o : Nat) :
    (f.withValues σ).store.op? o = f.store.op? o := rfl

@[simp] theorem graph_withValues (f : Function) (σ : Nat → Value) : (f.withValues σ).graph = f.graph :=
  rfl

theorem vn?_withValues (f : Function) (σ : Nat → Value) (v : Nat) :
    (f.withValues σ).store.vn? v = (f.store.vn? v).map fun y => { y with value := σ v } := by
  simp only [withValues, Store.vn?, Array.getElem?_mapIdx]
  cases f.store.varnodes[v]? with
  | none => rfl
  | some y => cases y <;> rfl

/-- The value of a varnode under `σ`; a varnode that does not exist is `bottom`. -/
theorem valueOf_withValues (f : Function) (σ : Nat → Value) (v : Nat) :
    (f.withValues σ).valueOf v = if (f.store.vn? v).isSome then σ v else .bottom := by
  simp only [valueOf, vn?_withValues]
  cases f.store.vn? v <;> rfl

theorem valueOf_withValues_mono {σ' σ : Nat → Value} {v : Nat} (h : σ' v ≤ σ v) :
    (f.withValues σ').valueOf v ≤ (f.withValues σ).valueOf v := by
  rw [valueOf_withValues, valueOf_withValues]
  split
  · exact h
  · exact le_refl _

/-- Values read back from a function with values `σ` give that function again. -/
theorem withValues_valueOf_withValues (f : Function) (σ : Nat → Value) :
    f.withValues (f.withValues σ).valueOf = f.withValues σ := by
  have h : ∀ v, (f.store.vn? v).isSome → (f.withValues σ).valueOf v = σ v := fun v hv => by
    rw [valueOf_withValues, if_pos hv]
  generalize (f.withValues σ).valueOf = τ at h
  simp only [withValues, Function.mk.injEq, Store.mk.injEq, and_true, true_and]
  refine Array.ext_getElem? fun v => ?_
  simp only [Array.getElem?_mapIdx]
  cases hv : f.store.varnodes[v]? with
  | none => rfl
  | some y =>
    cases y with
    | none => rfl
    | some y => rw [h v (by simp [Store.vn?, hv])]

/-- The function with value `a` stored into varnode `w`. -/
def setValue (f : Function) (w : Nat) (a : Value) : Function :=
  { f with store := f.store.modifyVn w fun y => { y with value := a } }

/-- Storing value `a` into varnode `w` of a function with values `σ` gives the function with
`σ` updated at `w`. -/
theorem setValue_withValues (f : Function) (σ : Nat → Value) (w : Nat) (a : Value) :
    (f.withValues σ).setValue w a = f.withValues (Function.update σ w a) := by
  simp only [setValue, withValues, Store.modifyVn, Function.mk.injEq, Store.mk.injEq, and_true,
    true_and]
  refine Array.ext_getElem? fun v => ?_
  simp only [Array.getElem?_modify, Array.getElem?_mapIdx]
  by_cases hw : w = v
  · subst hw
    simp only [if_true, Function.update_self]
    cases f.store.varnodes[w]? with
    | none => rfl
    | some y => cases y <;> rfl
  · simp only [hw, if_false, Function.update_of_ne (Ne.symm hw)]

/-- Storing into an existing varnode changes its value and no other. -/
theorem valueOf_setValue {w : Nat} (hw : (f.store.vn? w).isSome) (a : Value) :
    (f.setValue w a).valueOf = Function.update f.valueOf w a := by
  funext v
  simp only [valueOf, setValue, Store.vn?_modifyVn]
  by_cases h : w = v
  · subst h
    obtain ⟨y, hy⟩ := Option.isSome_iff_exists.mp hw
    simp [hy]
  · simp [h, Function.update_of_ne (Ne.symm h), valueOf]

/-- What a varnode is apart from its value does not depend on values. -/
theorem map_vn?_withValues (σ : Nat → Value) (v : Nat) {β : Type} (g : Varnode → β)
    (hg : ∀ y (a : Value), g { y with value := a } = g y) :
    ((f.withValues σ).store.vn? v).map g = (f.store.vn? v).map g := by
  rw [vn?_withValues]
  cases f.store.vn? v with
  | none => rfl
  | some y => exact congrArg some (hg y (σ v))

theorem map_bind_vn?_withValues (σ : Nat → Value) (ov : Option Nat) {β : Type} (g : Varnode → β)
    (hg : ∀ y (a : Value), g { y with value := a } = g y) :
    (ov.bind (f.withValues σ).store.vn?).map g = (ov.bind f.store.vn?).map g := by
  cases ov with
  | none => rfl
  | some v => exact map_vn?_withValues σ v g hg

theorem bind_vn?_withValues (σ : Nat → Value) (ov : Option Nat) {β : Type}
    (g : Varnode → Option β) (hg : ∀ y (a : Value), g { y with value := a } = g y) :
    (ov.bind (f.withValues σ).store.vn?).bind g = (ov.bind f.store.vn?).bind g := by
  cases ov with
  | none => rfl
  | some v =>
    simp only [Option.bind_some, vn?_withValues]
    cases f.store.vn? v with
    | none => rfl
    | some y => exact hg y (σ v)

theorem accessSpace_withValues (σ : Nat → Value) (o : Nat) :
    accessSpace ctx (f.withValues σ) o = accessSpace ctx f o := by
  simp only [accessSpace, op?_withValues, Option.bind_eq_bind]
  rw [bind_vn?_withValues σ _ Varnode.constValue? fun _ _ => rfl]

theorem opDominates_withValues (σ : Nat → Value) (a b : Nat) :
    (f.withValues σ).opDominates a b = f.opDominates a b := rfl

/-- What an operation reads: its inputs, and for a load also the inputs of the stores. -/
def Reads (f : Function) (stores : List Nat) (o v : Nat) : Prop :=
  ∃ x, f.store.op? o = some x ∧
    (v ∈ x.inputs ∨ (x.opcode = .load ∧ ∃ st ∈ stores, ∃ y, f.store.op? st = some y ∧ v ∈ y.inputs))

theorem inputValue_mono {σ' σ : Nat → Value} {o : Nat}
    (h : ∀ x, f.store.op? o = some x → ∀ v ∈ x.inputs, σ' v ≤ σ v) (slot : Nat) :
    (f.withValues σ').inputValue o slot ≤ (f.withValues σ).inputValue o slot := by
  simp only [inputValue, op?_withValues]
  split
  · rename_i v hv
    obtain ⟨x, hx, hs⟩ := Option.bind_eq_some_iff.mp hv
    exact valueOf_withValues_mono (h x hx v (Array.mem_of_getElem? hs))
  · exact le_refl _

/-- The meet of the values of a list of varnodes, folded onto a start value, is monotone. -/
theorem foldl_meet_mono {σ' σ : Nat → Value} :
    ∀ (vs : List Nat) {a' a : Value}, a' ≤ a → (∀ v ∈ vs, σ' v ≤ σ v) →
      vs.foldl (fun acc v => acc.meet ((f.withValues σ').valueOf v)) a' ≤
        vs.foldl (fun acc v => acc.meet ((f.withValues σ).valueOf v)) a
  | [], _, _, ha, _ => ha
  | v :: vs, _, _, ha, h =>
    foldl_meet_mono vs (Value.meet_mono ha (valueOf_withValues_mono (h v (List.mem_cons_self ..))))
      fun w hw => h w (List.mem_cons_of_mem v hw)

/-- The stack-slot walk over the stores is monotone in their pointers and stored values, and in
the meet gathered so far. -/
theorem stackLoad_go_mono {σ' σ : Nat → Value} {load : Nat} {offset : Int64} {size space : Nat}
    (sts : List Nat) {acc' acc : Option Value} (hacc : Option.Rel (· ≤ ·) acc' acc)
    (h : ∀ st ∈ sts, ∀ y, f.store.op? st = some y → ∀ v ∈ y.inputs, σ' v ≤ σ v) :
    stackLoad.go ctx (f.withValues σ') load offset size space sts acc' ≤
      stackLoad.go ctx (f.withValues σ) load offset size space sts acc := by
  induction sts generalizing acc' acc with
  | nil =>
    cases hacc with
    | some h => exact h
    | none => exact le_refl _
  | cons st rest ih =>
    have ih := fun {acc' acc : Option Value} (hacc : Option.Rel (· ≤ ·) acc' acc) =>
      ih hacc fun st' hst' => h st' (List.mem_cons_of_mem st hst')
    have hst := h st (List.mem_cons_self ..)
    simp only [stackLoad.go, accessSpace_withValues, op?_withValues, Option.bind_eq_bind,
      map_bind_vn?_withValues _ _ (·.loc.size) fun _ _ => rfl, opDominates_withValues]
    split
    · exact ih hacc
    · -- the two walks part only where the pointer of `st` is `bottom` below or `top` above
      rcases inputValue_mono hst 1 with hb | ht | he
      · rw [hb]
        exact Value.bottom_le _
      · rw [ht]
        exact Value.le_top _
      · rw [he]
        split
        · exact le_refl _
        · exact ih hacc
        · exact le_refl _
        · by_cases hd : (!f.opDominates st load) = true
          · simp only [hd, ↓reduceIte]
            exact le_refl _
          · simp only [hd]
            have hv := inputValue_mono hst 2
            apply ih
            cases hacc with
            | some ha => exact Option.Rel.some (Value.meet_mono ha hv)
            | none => exact Option.Rel.some hv

theorem loadValue_mono {σ' σ : Nat → Value} {stores : List Nat} {o size : Nat}
    (ho : ∀ x, f.store.op? o = some x → ∀ v ∈ x.inputs, σ' v ≤ σ v)
    (hst : ∀ st ∈ stores, ∀ y, f.store.op? st = some y → ∀ v ∈ y.inputs, σ' v ≤ σ v) :
    loadValue ctx (f.withValues σ') stores o size ≤ loadValue ctx (f.withValues σ) stores o size := by
  unfold loadValue
  -- as in the walk: the loads part only where the pointer is `bottom` below or `top` above
  rcases inputValue_mono ho 1 with hb | ht | he
  · rw [hb]
    exact Value.bottom_le _
  · rw [ht]
    exact Value.le_top _
  · rw [he]
    split
    · exact le_refl _
    · simp only [accessSpace_withValues]
      exact le_refl _
    · split
      · simp only [stackLoad, accessSpace_withValues]
        exact stackLoad_go_mono stores Option.Rel.none hst
      · exact le_refl _
    · exact le_refl _

/-- Lowering what an operation reads lowers its evaluation. -/
theorem evalOp_mono {σ' σ : Nat → Value} {stores : List Nat} {o : Nat}
    (h : ∀ v, f.Reads stores o v → σ' v ≤ σ v) :
    (evalOp ctx (f.withValues σ') stores o).value ≤ (evalOp ctx (f.withValues σ) stores o).value := by
  unfold evalOp
  simp only [op?_withValues, graph_withValues]
  cases hx : f.store.op? o with
  | none => exact le_refl Value.bottom
  | some x =>
    have hin : ∀ v ∈ x.inputs, σ' v ≤ σ v := fun v hv => h v ⟨x, hx, Or.inl hv⟩
    dsimp only
    cases hout : x.output with
    | none => exact le_refl Value.bottom
    | some w =>
      simp only [Option.bind_some, vn?_withValues]
      cases hy : f.store.vn? w with
      | none => exact le_refl Value.bottom
      | some y =>
        cases hp : x.parent with
        | none => exact le_refl Value.bottom
        | some b =>
          dsimp only [Option.map_some]
          split
          · exact le_refl _
          · split
            case h_1 =>
              rw [← Array.foldl_toList, ← Array.foldl_toList]
              exact foldl_meet_mono _ (le_refl _) fun v hv => hin v (Array.mem_toList_iff.mp hv)
            case h_2 hload =>
              refine loadValue_mono (fun x' hx' => ?_) fun st hst y hy v hv => ?_
              · rw [hx] at hx'
                cases hx'
                exact hin
              · exact h v ⟨x, hx, Or.inr ⟨hload, st, hst, y, hy, hv⟩⟩
            case h_6 =>
              apply Opcode.evaluate_mono
              simp only [Opcode.InputsLe, List.forall₂_map_left_iff, List.forall₂_map_right_iff,
                List.forall₂_same, Option.map_map]
              exact fun v hv => ⟨valueOf_withValues_mono (hin v (Array.mem_toList_iff.mp hv)), rfl⟩
            all_goals exact le_refl _

theorem stackLoad_go_eq_of_store_graph {g : Function} (hs : g.store = f.store)
    (hg : g.graph = f.graph) (load : Nat) (offset : Int64) (size space : Nat) (sts : List Nat)
    (acc : Option Value) :
    stackLoad.go ctx g load offset size space sts acc = stackLoad.go ctx f load offset size space sts acc := by
  obtain ⟨⟩ := f
  obtain ⟨⟩ := g
  dsimp only at hs hg
  subst hs hg
  induction sts generalizing acc with
  | nil => rfl
  | cons st rest ih =>
    simp only [stackLoad.go, ih]
    rfl

/-- Evaluation reads a function's store and blocks and nothing else of it. -/
theorem evalOp_eq_of_store_graph {g : Function} (hs : g.store = f.store) (hg : g.graph = f.graph)
    (stores : List Nat) (o : Nat) : evalOp ctx g stores o = evalOp ctx f stores o := by
  -- the walk over the stores recurses on the list, so it is the one part that needs its lemma
  simp only [evalOp, loadValue, stackLoad, stackLoad_go_eq_of_store_graph hs hg]
  obtain ⟨⟩ := f
  obtain ⟨⟩ := g
  dsimp only at hs hg
  subst hs hg
  rfl

/-- With the same values on what an operation reads, its evaluation is the same. -/
theorem evalOp_congr {σ' σ : Nat → Value} {stores : List Nat} {o : Nat}
    (h : ∀ v, f.Reads stores o v → σ' v = σ v) :
    (evalOp ctx (f.withValues σ') stores o).value = (evalOp ctx (f.withValues σ) stores o).value :=
  le_antisymm (evalOp_mono fun v hv => le_of_eq (h v hv)) (evalOp_mono fun v hv => le_of_eq (h v hv).symm)

end Function

end MicroSsa
