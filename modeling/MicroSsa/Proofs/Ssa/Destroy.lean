import MicroSsa.Proofs.Ssa.Pruning
/-!
# Destroying an operation

Pruning takes each merge it drops out of its block (`Function.opUninsert`) and then destroys it
(`Store.destroyOp`): its inputs are released one by one, its output is freed and deleted unless
a reader is left, and the operation is cleared and logged as destroyed.

Every edit on the way changes the one operation, the varnodes, or the graph; no other operation
changes but for the start-of-block mark that the next operation of the block takes
(`Store.Touches`). `opDestroy_spec` puts this together for an operation that a block lists in a
function whose store is sound: destroying it succeeds, keeps the store sound, erases the
operation from its block (`BlockGraph.Thinned`) and from the store, appends it to the log, and
keeps every other operation up to its start-of-block mark.
-/

namespace MicroSsa

namespace Store

variable {s t u : Store} {o : Nat}

/-! ## Edits that touch one operation -/

/-- `t` is `s` with at most operation `o` changed among the operations, and the same log of
destroyed operations; the varnodes may differ. -/
structure Touches (o : Nat) (s t : Store) : Prop where
  ops : ∀ o', o' ≠ o → t.op? o' = s.op? o'
  destroyed : t.destroyed = s.destroyed

theorem Touches.refl (o : Nat) (s : Store) : s.Touches o s := ⟨fun _ _ => rfl, rfl⟩

theorem Touches.trans (h₁ : s.Touches o t) (h₂ : t.Touches o u) : s.Touches o u :=
  ⟨fun o' h => (h₂.ops o' h).trans (h₁.ops o' h), h₂.destroyed.trans h₁.destroyed⟩

theorem touches_modifyOp (s : Store) (o : Nat) (g : Op → Op) : s.Touches o (s.modifyOp o g) :=
  ⟨fun o' h => by rw [op?_modifyOp, if_neg fun e => h e.symm], rfl⟩

theorem touches_modifyVn (s : Store) (o v : Nat) (g : Varnode → Varnode) :
    s.Touches o (s.modifyVn v g) :=
  ⟨fun _ _ => rfl, rfl⟩

theorem touches_removeInput {slot w : Nat} (h : s.removeInput o slot = .ok (w, t)) :
    s.Touches o t := by
  obtain ⟨x, -, -, -, -, rfl⟩ := removeInput_ok h
  exact (touches_modifyOp s o _).trans (touches_modifyVn _ o _ _)

theorem touches_clearInputs (o : Nat) :
    ∀ (fuel : Nat) {s t : Store}, s.clearInputs o fuel = .ok t → s.Touches o t
  | 0, s, t, h => by
    cases h
    exact Touches.refl o s
  | fuel + 1, s, t, h => by
    rw [clearInputs] at h
    obtain ⟨x, -, h⟩ := Except.bind_eq_ok h
    split at h
    · cases h
      exact Touches.refl o s
    · obtain ⟨⟨old, s₁⟩, h₁, h⟩ := Except.bind_eq_ok h
      exact (touches_removeInput h₁).trans (touches_clearInputs o fuel h)

theorem touches_unsetOutput {out : Option Nat} (h : s.unsetOutput o = .ok (out, t)) :
    s.Touches o t := by
  unfold unsetOutput at h
  obtain ⟨x, -, h⟩ := Except.bind_eq_ok h
  split at h
  · cases h
    exact Touches.refl o s
  · cases h
    exact (touches_modifyOp s o _).trans (touches_modifyVn _ o _ _)

theorem touches_deleteVarnode {v : Nat} (h : s.deleteVarnode v = .ok t) : s.Touches o t := by
  unfold deleteVarnode at h
  split at h
  · cases h
  · split at h
    · cases h
    · split at h
      · cases h
      · cases h
        exact ⟨fun _ _ => rfl, rfl⟩

theorem op?_clear (h : t.ops = s.ops.set! o none) (o' : Nat) :
    t.op? o' = if o' = o then none else s.op? o' := by
  simp only [op?, h, Array.set!_eq_setIfInBounds, Array.getElem?_setIfInBounds]
  split
  · subst_vars
    split <;> simp_all
  · simp_all [eq_comm]

/-! ## Destroying -/

/-- Releasing the inputs of an operation, with fuel for all of them, succeeds when the varnodes
they name exist, as they do in a linked store. -/
theorem clearInputs_ok (o : Nat) :
    ∀ (fuel : Nat) {s : Store} {x : Op}, s.Linked → s.op? o = some x → x.inputs.size ≤ fuel →
      ∃ t, s.clearInputs o fuel = .ok t
  | 0, s, _, _, _, _ => ⟨s, rfl⟩
  | fuel + 1, s, x, hL, hx, hf => by
    by_cases h0 : x.inputs.size = 0
    · exact ⟨s, by simp [clearInputs, op_eq_ok hx, h0, bind, Except.bind, pure, Except.pure]⟩
    · have hslot : x.inputs.size - 1 < x.inputs.size := by omega
      have hv := hL.input_exists hx (Array.getElem_mem hslot)
      -- the last input goes, and the rest with one step less of fuel
      let s₁ := (s.modifyOp o fun y => { y with inputs := y.inputs.eraseIdxIfInBounds (x.inputs.size - 1) }).modifyVn
        x.inputs[x.inputs.size - 1] fun y => { y with uses := y.uses.erase o }
      have h₁ : s.removeInput o (x.inputs.size - 1) = .ok (x.inputs[x.inputs.size - 1], s₁) := by
        simp only [removeInput, op_eq_ok hx, bind, Except.bind, Array.getElem?_eq_getElem hslot]
        rw [removeUse_eq (by rw [vn?_modifyOp]; exact hv)]
        rfl
      have hx₁ : s₁.op? o = some { x with inputs := x.inputs.eraseIdxIfInBounds (x.inputs.size - 1) } := by
        rw [op?_modifyVn, op?_modifyOp, if_pos rfl, hx]
        rfl
      obtain ⟨t, ht⟩ := clearInputs_ok o fuel (hL.removeInput h₁) hx₁ (by
        simp only [Array.eraseIdxIfInBounds, dif_pos hslot, Array.size_eraseIdx]
        omega)
      refine ⟨t, ?_⟩
      simp only [clearInputs, op_eq_ok hx, bind, Except.bind, h0, if_false, h₁]
      exact ht

/-- Destroying an operation that is in no block succeeds in a sound store. -/
theorem destroyOp_ok (hS : s.Sound) {x : Op} (hx : s.op? o = some x) (hp : x.parent = none) :
    ∃ t, s.destroyOp o = .ok t := by
  obtain ⟨s₁, h₁⟩ := clearInputs_ok o _ hS.linked hx (Nat.le_refl _)
  obtain ⟨-, x₁, hx₁, -⟩ := Sound.clearInputs _ hS hx (Nat.le_refl _) h₁
  obtain ⟨r, s₂, h₂⟩ : ∃ r s₂, s₁.unsetOutput o = .ok (r, s₂) := by
    cases hout : x₁.output with
    | none => exact ⟨_, _, unsetOutput_of_none hx₁ hout⟩
    | some v => exact ⟨_, _, unsetOutput_of_some hx₁ hout⟩
  cases hd : s.destroyOp o with
  | ok t => exact ⟨t, rfl⟩
  | error e =>
    simp [destroyOp, op_eq_ok hx, hp, h₁, h₂, bind, Except.bind, pure, Except.pure] at hd

/-- What destroying does: the operation, in no block, is cleared from the store and logged;
every other operation is kept as it was. -/
theorem destroyOp_spec (h : s.destroyOp o = .ok t) :
    ∃ x, s.op? o = some x ∧ t.op? o = none ∧ (∀ o', o' ≠ o → t.op? o' = s.op? o') ∧
      t.destroyed = s.destroyed.push (x.seq, x.opcode) := by
  unfold destroyOp at h
  obtain ⟨x, hx, h⟩ := Except.bind_eq_ok h
  have hx : s.op? o = some x := by
    cases h' : s.op? o with
    | none => simp [op, h'] at hx
    | some x' => simp [op, h'] at hx; rw [hx]
  split at h
  · cases h
  obtain ⟨s₁, h₁, h⟩ := Except.bind_eq_ok h
  obtain ⟨⟨out, s₂⟩, h₂, h⟩ := Except.bind_eq_ok h
  have hk := (touches_clearInputs o _ h₁).trans (touches_unsetOutput h₂)
  -- the freed output may be deleted; then the operation is cleared and logged
  have hclear : ∀ s₃ : Store, s.Touches o s₃ →
      pure { s₃ with ops := s₃.ops.set! o none, destroyed := s₃.destroyed.push (x.seq, x.opcode) } =
        (Except.ok t : Except Fault Store) →
      t.op? o = none ∧ (∀ o', o' ≠ o → t.op? o' = s.op? o') ∧
        t.destroyed = s.destroyed.push (x.seq, x.opcode) := by
    intro s₃ h₃ h
    cases h
    refine ⟨by rw [op?_clear rfl, if_pos rfl], fun o' ho' => ?_, by rw [h₃.destroyed]⟩
    rw [op?_clear rfl, if_neg ho', h₃.ops o' ho']
  refine ⟨x, hx, ?_⟩
  simp only at h
  split at h
  · split at h
    · exact hclear _ (hk.trans (touches_deleteVarnode ‹_›)) h
    · exact hclear _ hk h
  · exact hclear _ hk h

end Store

namespace Function

variable {f : Function}

/-! ## Taking an operation out of its block -/


theorem erase_eq_eraseIdxIfInBounds {xs : Array Nat} {o pos : Nat} (h : xs.idxOf? o = some pos) :
    xs.eraseIdxIfInBounds pos = xs.erase o := by
  rcases xs with ⟨xs⟩
  simp only [List.idxOf?_toArray] at h
  apply Array.toList_inj.mp
  rw [Array.toList_eraseIdxIfInBounds, Array.toList_erase, List.erase_eq_eraseIdx, h]

theorem opUninsert_spec (hS : f.store.Sound) {o b pos : Nat} {x : Op} (hx : f.store.op? o = some x)
    (hp : x.parent = some b) (hpos : (f.graph.get b).ops.idxOf? o = some pos) :
    ∃ g, f.opUninsert o = .ok g ∧ g.store.Sound ∧ g.store.destroyed = f.store.destroyed ∧
      (∃ y, g.store.op? o = some y ∧ y.parent = none ∧ y.seq = x.seq ∧ y.opcode = x.opcode) ∧
      (∀ o', o' ≠ o → (g.store.op? o').map Op.unstarted = (f.store.op? o').map Op.unstarted) ∧
      g.graph = f.graph.modify b fun blk => { blk with ops := blk.ops.eraseIdxIfInBounds pos } := by
  let f₁ : Function := { f with graph := f.graph.modify b fun blk =>
    { blk with ops := blk.ops.eraseIdxIfInBounds pos } }
  -- whichever operation takes the start-of-block mark, the operation then loses its parent and
  -- goes to the dead list
  have hlast : ∀ F : Function, MarksMoved f₁ F → F.store.destroyed = f.store.destroyed → ∃ g,
      ((F.store.setParent o none).markDead o >>= fun s => pure { F with store := s }) = .ok g ∧
      g.store.Sound ∧ g.store.destroyed = f.store.destroyed ∧
      (∃ y, g.store.op? o = some y ∧ y.parent = none ∧ y.seq = x.seq ∧ y.opcode = x.opcode) ∧
      (∀ o', o' ≠ o → (g.store.op? o').map Op.unstarted = (f.store.op? o').map Op.unstarted) ∧
      g.graph = f.graph.modify b fun blk => { blk with ops := blk.ops.eraseIdxIfInBounds pos } := by
    intro F hF hd
    obtain ⟨x₂, hx₂, hu⟩ : ∃ x₂, F.store.op? o = some x₂ ∧ x₂.unstarted = x.unstarted := by
      have hm := hF.unstarted o
      simp only [f₁, hx, Option.map_some] at hm
      exact Option.map_eq_some_iff.mp hm
    have hx₃ : (F.store.setParent o none).op? o = some { x₂ with parent := none } := by
      rw [op?_setParent, if_pos rfl, hx₂]
      rfl
    have hS₃ : (F.store.setParent o none).Sound := (hF.sound hS).modifyOp o fun _ => ⟨rfl, rfl, rfl⟩
    refine ⟨{ F with store := (F.store.setParent o none).modifyOp o fun y =>
      { y with flags := { y.flags with dead := true } } }, by
        simp only [Store.markDead, Store.op_eq_ok hx₃, bind, Except.bind, pure, Except.pure],
      hS₃.modifyOp o fun _ => ⟨rfl, rfl, rfl⟩, hd, ?_, fun o' ho' => ?_, hF.graph⟩
    · refine ⟨_, by rw [Store.op?_modifyOp, if_pos rfl, hx₃]; rfl, rfl, ?_, ?_⟩
      · have h := congrArg Op.seq hu
        exact h
      · have h := congrArg Op.opcode hu
        exact h
    · rw [Store.op?_modifyOp, if_neg (Ne.symm ho'), op?_setParent, if_neg (Ne.symm ho')]
      exact hF.unstarted o'
  unfold opUninsert
  rw [show f.store.op o = pure x from Store.op_eq_ok hx]
  simp only [pure_bind, hp, hpos]
  refine hlast _ ?_ ?_
  · split
    · split
      · exact (MarksMoved.refl f₁).setStartBlock _ true
      · exact MarksMoved.refl f₁
    · exact MarksMoved.refl f₁
  · split
    · split <;> rfl
    · rfl

end Function

namespace BlockGraph

/-- `H` is `G` with operations taken out of the block lists: every block keeps all but its list,
and its list keeps, in order, the operations `keep` accepts. -/
structure Thinned (keep : Nat → Bool) (G H : BlockGraph) : Prop where
  size : H.size = G.size
  entry : H.entry = G.entry
  shape : ∀ a, { H.get a with ops := #[] } = { G.get a with ops := #[] }
  ops : ∀ a, (H.get a).ops.toList = (G.get a).ops.toList.filter keep

theorem Thinned.refl (G : BlockGraph) : G.Thinned (fun _ => true) G :=
  ⟨rfl, rfl, fun _ => rfl, fun _ => by simp⟩

theorem Thinned.trans {p q : Nat → Bool} {G H K : BlockGraph} (h₁ : G.Thinned p H) (h₂ : H.Thinned q K) :
    G.Thinned (fun o => p o && q o) K :=
  ⟨h₂.size.trans h₁.size, h₂.entry.trans h₁.entry, fun a => (h₂.shape a).trans (h₁.shape a),
    fun a => by rw [h₂.ops, h₁.ops, List.filter_filter]; congr 1; funext o; exact Bool.and_comm _ _⟩

end BlockGraph

namespace Function

variable {f : Function}

/-- Taking an operation out of the one block that lists it, once, thins the graph by it. -/
theorem thinned_eraseIdx (hB : f.BlocksHold) {o b pos : Nat} (hpos : (f.graph.get b).ops.idxOf? o = some pos) :
    f.graph.Thinned (· != o) (f.graph.modify b fun blk => { blk with ops := blk.ops.eraseIdxIfInBounds pos }) := by
  have ho : o ∈ (f.graph.get b).ops := by
    have := Option.isSome_iff_exists.mpr ⟨pos, hpos⟩
    simpa using this
  obtain ⟨x, hx, hp, -⟩ := hB.member ho
  refine ⟨BlockGraph.size_modify _ _ _, rfl, fun a => ?_, fun a => ?_⟩
  · rw [BlockGraph.get_modify]
    split <;> rfl
  · rw [BlockGraph.get_modify]
    split
    · rename_i h
      obtain ⟨rfl, -⟩ := h
      rw [erase_eq_eraseIdxIfInBounds hpos, Array.toList_erase, (hB.nodup _).erase_eq_filter]
    · -- another block does not list the operation
      refine (List.filter_eq_self.mpr fun o' ho' => ?_).symm
      have hne : o' ≠ o := by
        rintro rfl
        obtain ⟨x', hx', hp', -⟩ := hB.member (Array.mem_toList_iff.mp ho')
        rw [hx] at hx'
        cases hx'
        rw [hp] at hp'
        cases hp'
        rename_i h
        exact h ⟨rfl, lt_size_of_mem_ops (Array.mem_toList_iff.mp ho')⟩
      simpa using hne

/-- **Destroying an operation of a block.** In a sound function whose block lists hold,
destroying an operation a block lists succeeds, keeps the store sound, thins the graph by the
operation, clears it from the store and logs it, and keeps every other operation up to its
start-of-block mark. -/
theorem opDestroy_spec (hS : f.store.Sound) (hB : f.BlocksHold) {o b : Nat}
    (ho : o ∈ (f.graph.get b).ops) :
    ∃ g, f.opDestroy o = .ok g ∧ g.store.Sound ∧ f.graph.Thinned (· != o) g.graph ∧
      g.store.op? o = none ∧
      (∀ o', o' ≠ o → (g.store.op? o').map Op.unstarted = (f.store.op? o').map Op.unstarted) ∧
      ∃ x, f.store.op? o = some x ∧ g.store.destroyed = f.store.destroyed.push (x.seq, x.opcode) := by
  obtain ⟨x, hx, hp, -⟩ := hB.member ho
  obtain ⟨pos, hpos⟩ : ∃ pos, (f.graph.get b).ops.idxOf? o = some pos :=
    Option.isSome_iff_exists.mp (by simpa using ho)
  obtain ⟨g₁, h₁, hS₁, hd₁, ⟨y, hy, hyp, hys, hyo⟩, hkeep, hG⟩ := opUninsert_spec hS hx hp hpos
  obtain ⟨t, ht⟩ := Store.destroyOp_ok hS₁ hy hyp
  obtain ⟨y', hy', hto, hother, hlog⟩ := Store.destroyOp_spec ht
  rw [hy] at hy'
  cases hy'
  refine ⟨{ g₁ with store := t }, by simp [opDestroy, h₁, ht, bind, Except.bind, pure, Except.pure],
    hS₁.destroyOp ht, hG ▸ thinned_eraseIdx hB hpos, hto, fun o' ho' => ?_, x, hx, ?_⟩
  · rw [hother o' ho', hkeep o' ho']
  · rw [hlog, hd₁, hys, hyo]

end Function

/-! ## What destroying keeps of the varnodes -/

namespace Store

variable {s t u : Store} {o : Nat}

/-- `t` has the varnodes of `s` up to their readers, and the operations of `s` with their
outputs. -/
structure OutputsKept (s t : Store) : Prop where
  node : t.node = s.node
  outputs : ∀ o, (t.op? o).map Op.output = (s.op? o).map Op.output

theorem OutputsKept.refl (s : Store) : s.OutputsKept s := ⟨rfl, fun _ => rfl⟩

theorem OutputsKept.trans (h₁ : s.OutputsKept t) (h₂ : t.OutputsKept u) : s.OutputsKept u :=
  ⟨h₂.node.trans h₁.node, fun o => (h₂.outputs o).trans (h₁.outputs o)⟩

theorem outputsKept_modifyOp (s : Store) (o : Nat) {g : Op → Op}
    (hg : ∀ x, (g x).output = x.output) : s.OutputsKept (s.modifyOp o g) := by
  refine ⟨rfl, fun o' => ?_⟩
  rw [op?_modifyOp]
  split
  · cases s.op? o' <;> simp [hg]
  · rfl

theorem outputsKept_removeInput {slot w : Nat} (h : s.removeInput o slot = .ok (w, t)) :
    s.OutputsKept t := by
  obtain ⟨x, -, -, -, -, rfl⟩ := removeInput_ok h
  refine ⟨node_modifyVn fun _ => rfl, fun o' => ?_⟩
  rw [op?_modifyVn]
  exact (outputsKept_modifyOp s o (by intro; rfl)).outputs o'

theorem outputsKept_clearInputs (o : Nat) :
    ∀ (fuel : Nat) {s t : Store}, s.clearInputs o fuel = .ok t → s.OutputsKept t
  | 0, s, t, h => by
    cases h
    exact OutputsKept.refl s
  | fuel + 1, s, t, h => by
    rw [clearInputs] at h
    obtain ⟨x, -, h⟩ := Except.bind_eq_ok h
    split at h
    · cases h
      exact OutputsKept.refl s
    · obtain ⟨⟨old, s₁⟩, h₁, h⟩ := Except.bind_eq_ok h
      exact (outputsKept_removeInput h₁).trans (outputsKept_clearInputs o fuel h)

/-- Deleting a varnode keeps the node of every other. -/
theorem node_of_deleteVarnode {v w : Nat} (h : s.deleteVarnode v = .ok t) (hw : w ≠ v) :
    t.node w = s.node w := by
  unfold deleteVarnode at h
  split at h
  · cases h
  · split at h
    · cases h
    · split at h
      · cases h
      · cases h
        simp [node, vn?, Array.set!_eq_setIfInBounds, Ne.symm hw]

/-- Destroying `o` keeps the node of every varnode but its output: its inputs lose a reader,
and its output is freed and perhaps deleted. -/
theorem destroyOp_node (h : s.destroyOp o = .ok t) {v : Nat}
    (hv : ∀ x, s.op? o = some x → x.output ≠ some v) : t.node v = s.node v := by
  unfold destroyOp at h
  obtain ⟨x, hx, h⟩ := Except.bind_eq_ok h
  have hx : s.op? o = some x := by
    cases h' : s.op? o with
    | none => simp [op, h'] at hx
    | some x' => simp [op, h'] at hx; rw [hx]
  split at h
  · cases h
  obtain ⟨s₁, h₁, h⟩ := Except.bind_eq_ok h
  obtain ⟨⟨out, s₂⟩, h₂, h⟩ := Except.bind_eq_ok h
  have hk₁ := outputsKept_clearInputs o _ h₁
  -- the output freed is the output of `o`, which is not `v`
  have h₂v : s₂.node v = s.node v ∧ out ≠ some v := by
    unfold unsetOutput at h₂
    obtain ⟨x₁, hx₁, h₂⟩ := Except.bind_eq_ok h₂
    have hx₁ : s₁.op? o = some x₁ := by
      cases h' : s₁.op? o with
      | none => simp [op, h'] at hx₁
      | some x' => simp [op, h'] at hx₁; rw [hx₁]
    have hout : x₁.output = x.output := by
      have h' := hk₁.outputs o
      rw [hx, hx₁] at h'
      exact Option.some.inj h'
    rw [← hk₁.node]
    split at h₂
    · cases h₂
      exact ⟨rfl, by simp⟩
    · rename_i v' hv'
      cases h₂
      have hne : v' ≠ v := fun e => hv x hx (by rw [← hout, hv', e])
      refine ⟨?_, fun e => hne (Option.some.inj e)⟩
      simp only [node, vn?_modifyVn, vn?_modifyOp, if_neg hne]
  have hfin : ∀ s₃ : Store, s₃.node v = s.node v →
      pure { s₃ with ops := s₃.ops.set! o none, destroyed := s₃.destroyed.push (x.seq, x.opcode) } =
        (Except.ok t : Except Fault Store) → t.node v = s.node v := by
    intro s₃ h₃ h
    cases h
    exact h₃
  simp only at h
  split at h
  · split at h
    · rename_i v' _ hd
      refine hfin _ ?_ h
      rw [node_of_deleteVarnode hd fun e => h₂v.2 (by rw [e]), h₂v.1]
    · exact hfin _ h₂v.1 h
  · exact hfin _ h₂v.1 h

end Store

namespace Function

variable {f g : Function}

/-- Taking an operation out of its block changes no varnode and no output. -/
theorem opUninsert_outputsKept {o : Nat} (h : f.opUninsert o = .ok g) :
    f.store.OutputsKept g.store := by
  -- the last step marks the operation dead
  have hlast : ∀ F : Function, f.store.OutputsKept F.store →
      (F.store.markDead o >>= fun s => pure { F with store := s }) = .ok g →
      f.store.OutputsKept g.store := by
    intro F hF h
    obtain ⟨s', hs', h⟩ := Except.bind_eq_ok h
    cases h
    unfold Store.markDead at hs'
    obtain ⟨-, -, hs'⟩ := Except.bind_eq_ok hs'
    cases hs'
    exact hF.trans (Store.outputsKept_modifyOp _ _ (by intro; rfl))
  unfold opUninsert at h
  obtain ⟨x, -, h⟩ := Except.bind_eq_ok h
  cases hp : x.parent with
  | none =>
    simp only [hp] at h
    exact hlast f (Store.OutputsKept.refl _) h
  | some b =>
    cases hpos : (f.graph.get b).ops.idxOf? o with
    | none =>
      simp only [hp, hpos] at h
      exact hlast _ (Store.outputsKept_modifyOp _ _ (by intro; rfl)) h
    | some pos =>
      simp only [hp, hpos] at h
      refine hlast _ ?_ h
      refine Store.OutputsKept.trans ?_ (Store.outputsKept_modifyOp _ _ (by intro; rfl))
      split
      · split
        · exact Store.outputsKept_modifyOp _ _ (by intro; rfl)
        · exact Store.OutputsKept.refl _
      · exact Store.OutputsKept.refl _

/-- Destroying an operation takes it out of the store and keeps the outputs of the others. -/
theorem opDestroy_outputs {o : Nat} (h : f.opDestroy o = .ok g) :
    g.store.op? o = none ∧
      ∀ o', o' ≠ o → (g.store.op? o').map Op.output = (f.store.op? o').map Op.output := by
  unfold opDestroy at h
  obtain ⟨g₁, h₁, h⟩ := Except.bind_eq_ok h
  obtain ⟨t, ht, h⟩ := Except.bind_eq_ok h
  cases h
  obtain ⟨-, -, hgone, hother, -⟩ := Store.destroyOp_spec ht
  exact ⟨hgone, fun o' ho' => by rw [hother o' ho']; exact (opUninsert_outputsKept h₁).outputs o'⟩

/-- Destroying an operation keeps the node of every varnode but its output. -/
theorem opDestroy_node {o : Nat} (h : f.opDestroy o = .ok g) {v : Nat}
    (hv : ∀ x, f.store.op? o = some x → x.output ≠ some v) : g.store.node v = f.store.node v := by
  unfold opDestroy at h
  obtain ⟨g₁, h₁, h⟩ := Except.bind_eq_ok h
  obtain ⟨t, ht, h⟩ := Except.bind_eq_ok h
  cases h
  have hk := opUninsert_outputsKept h₁
  refine (Store.destroyOp_node ht fun x hx hxv => ?_).trans (congrFun hk.node v)
  have hout := hk.outputs o
  rw [hx] at hout
  obtain ⟨x₀, hx₀, hx₀v⟩ := Option.map_eq_some_iff.mp hout.symm
  exact hv x₀ hx₀ (hx₀v.trans hxv)

end Function

end MicroSsa
