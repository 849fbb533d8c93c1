import MicroSsa.Proofs.Store.Requests
/-!
# Operations keep their opcode and sequence number

No edit of the store changes what an operation is or where it stands in program order: edits
rewrite inputs, outputs, marks and parents, create operations after the last one, and destroy
operations outright. Two relations between an earlier store `s` and a later one `t` say so:

* `Store.Extends s t`: every operation of `s` is in `t` at its number, with its opcode and
  sequence number (its `Op.head`). Every edit but `destroyOp` keeps it.
* `Store.OpsKept s t`: every operation of `t` at a number of `s` was there in `s`, with the same
  head. `destroyOp` keeps it too, and so does every `Extends`.

Each edit gets one lemma, built from the three ways of changing the array of operations:
rewriting one in place (`extends_modifyOp`), appending one (`extends_push`) and clearing one
(`opsKept_clear`).
-/

namespace MicroSsa

/-- What an operation is and where it stands in program order. -/
def Op.head (x : Op) : Opcode × SeqNum := (x.opcode, x.seq)

namespace Store

/-- `t` has every operation of `s` at its number with its head, and maybe more after them. -/
structure Extends (s t : Store) : Prop where
  size_le : s.ops.size ≤ t.ops.size
  heads : ∀ o < s.ops.size, (t.op? o).map Op.head = (s.op? o).map Op.head

/-- Every operation of `t` at a number of `s` has the head `s` gave it; `t` may have lost
operations of `s`, and gained new ones after them. -/
structure OpsKept (s t : Store) : Prop where
  size_le : s.ops.size ≤ t.ops.size
  kept : ∀ o y, t.op? o = some y → o < s.ops.size → (s.op? o).map Op.head = some y.head

variable {s t u : Store}

namespace Extends

theorem refl (s : Store) : Extends s s :=
  ⟨Nat.le_refl _, fun _ _ => rfl⟩

theorem trans (h₁ : Extends s t) (h₂ : Extends t u) : Extends s u :=
  ⟨Nat.le_trans h₁.size_le h₂.size_le, fun o ho =>
    (h₂.heads o (Nat.lt_of_lt_of_le ho h₁.size_le)).trans (h₁.heads o ho)⟩

theorem opsKept (h : Extends s t) : OpsKept s t :=
  ⟨h.size_le, fun o y hy ho => by rw [← h.heads o ho, hy]; rfl⟩

/-- An operation of `s` is in `t`, with its head. -/
theorem op? (h : Extends s t) {o : Nat} {x : Op} (hx : s.op? o = some x) :
    ∃ y, t.op? o = some y ∧ y.head = x.head := by
  have hh := h.heads o (lt_of_isSome_op? (by rw [hx]; rfl))
  rw [hx] at hh
  exact Option.map_eq_some_iff.mp hh

/-- An operation of `s` keeps its opcode in `t`. -/
theorem opcode (h : Extends s t) {o : Nat} (ho : o < s.ops.size) :
    (t.op? o).map Op.opcode = (s.op? o).map Op.opcode := by
  have hh := congrArg (Option.map Prod.fst) (h.heads o ho)
  simp only [Option.map_map] at hh
  exact hh

end Extends

namespace OpsKept

theorem refl (s : Store) : OpsKept s s :=
  (Extends.refl s).opsKept

theorem trans (h₁ : OpsKept s t) (h₂ : OpsKept t u) : OpsKept s u where
  size_le := Nat.le_trans h₁.size_le h₂.size_le
  kept o z hz ho := by
    have hy := h₂.kept o z hz (Nat.lt_of_lt_of_le ho h₁.size_le)
    obtain ⟨y, hy, hyz⟩ := Option.map_eq_some_iff.mp hy
    rw [h₁.kept o y hy ho, hyz]

/-- An operation of `s` that `t` still holds has its head. -/
theorem head_eq (h : OpsKept s t) {o : Nat} {x y : Op} (hx : s.op? o = some x)
    (hy : t.op? o = some y) : y.head = x.head := by
  have hk := h.kept o y hy (lt_of_isSome_op? (by rw [hx]; rfl))
  rw [hx] at hk
  exact (Option.some.inj hk).symm

end OpsKept

/-! ## The three changes of the array of operations -/

theorem extends_of_ops (h : t.ops = s.ops) : Extends s t :=
  ⟨h ▸ Nat.le_refl _, fun o _ => by simp only [op?, h]⟩

theorem extends_modifyOp (s : Store) (o : Nat) {g : Op → Op} (hg : ∀ x, (g x).head = x.head) :
    Extends s (s.modifyOp o g) := by
  refine ⟨by simp [modifyOp], fun o' _ => ?_⟩
  rw [op?_modifyOp]
  split
  · rw [Option.map_map]
    exact Option.map_congr fun x _ => hg x
  · rfl

theorem extends_push {x : Op} (h : t.ops = s.ops.push (some x)) : Extends s t := by
  refine ⟨by simp [h], fun o ho => ?_⟩
  rw [op?_push h, if_neg (Nat.ne_of_lt ho)]

theorem opsKept_clear (o : Nat) (h : t.ops = s.ops.set! o none) : OpsKept s t := by
  refine ⟨by simp [h], fun o' y hy _ => ?_⟩
  by_cases ho : o = o'
  · subst ho
    simp only [op?, h, Array.set!_eq_setIfInBounds, Array.getElem?_setIfInBounds, if_pos] at hy
    split at hy <;> simp at hy
  · have hy' : s.op? o' = some y := by simpa [op?, h, Array.getElem?_setIfInBounds, ho] using hy
    rw [hy']
    rfl

/-- A new operation is numbered after the others and has the opcode and sequence number it is
given. -/
theorem newOp_eq_ok {opc : Opcode} {q : SeqNum} {o : Nat} (h : s.newOp opc q = .ok (o, t)) :
    o = s.ops.size ∧ Extends s t ∧ (t.op? o).map Op.head = some (opc, q) := by
  unfold newOp at h
  split at h
  · cases h
  · cases h
    exact ⟨rfl, extends_push rfl, by rw [op?_push rfl, if_pos rfl]; rfl⟩

/-! ## The edits -/

theorem extends_modifyVn (s : Store) (v : Nat) (g : Varnode → Varnode) :
    Extends s (s.modifyVn v g) :=
  extends_of_ops rfl

theorem extends_newVarnode (s : Store) (size : Nat) (addr : Address) :
    Extends s (s.newVarnode size addr).2 :=
  extends_of_ops rfl

theorem extends_newSeq (s : Store) (addr : Address) : Extends s (s.newSeq addr).2 :=
  extends_of_ops rfl

theorem extends_setParent (s : Store) (o : Nat) (b : Option Nat) : Extends s (s.setParent o b) :=
  extends_modifyOp s o fun _ => rfl

theorem extends_newOp {opc : Opcode} {q : SeqNum} {o : Nat} (h : s.newOp opc q = .ok (o, t)) :
    Extends s t :=
  (newOp_eq_ok h).2.1

theorem extends_addUse {v o : Nat} (h : s.addUse v o = .ok t) : Extends s t := by
  obtain ⟨_, -, h⟩ := Except.bind_eq_ok h
  cases h
  exact extends_of_ops rfl

theorem extends_removeUse {v o : Nat} (h : s.removeUse v o = .ok t) : Extends s t := by
  obtain ⟨_, -, h⟩ := Except.bind_eq_ok h
  cases h
  exact extends_of_ops rfl

theorem extends_setInput {o v slot : Nat} (h : s.setInput o v slot = .ok t) : Extends s t := by
  unfold setInput at h
  obtain ⟨x, -, h⟩ := Except.bind_eq_ok h
  dsimp only at h
  split at h
  · cases h
  · -- the slot is rewritten or appended, then the uses follow
    split at h
    · obtain ⟨s₁, h₁, h⟩ := Except.bind_eq_ok h
      exact ((extends_modifyOp s o fun _ => by exact rfl).trans (extends_removeUse h₁)).trans
        (extends_addUse h)
    · exact (extends_modifyOp s o fun _ => by exact rfl).trans (extends_addUse h)

theorem extends_removeInput {o slot old : Nat} (h : s.removeInput o slot = .ok (old, t)) :
    Extends s t := by
  unfold removeInput at h
  obtain ⟨x, -, h⟩ := Except.bind_eq_ok h
  split at h
  · cases h
  · obtain ⟨s₁, h₁, h⟩ := Except.bind_eq_ok h
    cases h
    exact (extends_modifyOp s o fun _ => by exact rfl).trans (extends_removeUse h₁)

theorem extends_unsetOutput {o : Nat} {out : Option Nat} (h : s.unsetOutput o = .ok (out, t)) :
    Extends s t := by
  unfold unsetOutput at h
  obtain ⟨x, -, h⟩ := Except.bind_eq_ok h
  split at h
  · cases h
    exact Extends.refl s
  · cases h
    exact (extends_modifyOp s o fun _ => by exact rfl).trans (extends_modifyVn _ _ _)

theorem extends_setOutput {o v : Nat} (h : s.setOutput o v = .ok t) : Extends s t := by
  unfold setOutput at h
  obtain ⟨y, -, h⟩ := Except.bind_eq_ok h
  split at h
  · cases h
  · obtain ⟨⟨out, s₁⟩, h₁, h⟩ := Except.bind_eq_ok h
    cases h
    exact ((extends_unsetOutput h₁).trans (extends_modifyVn _ _ _)).trans
      (extends_modifyOp _ o fun _ => by exact rfl)

theorem extends_createOutput {o v : Nat} {loc : Location} (h : s.createOutput o loc = .ok (v, t)) :
    Extends s t := by
  unfold createOutput at h
  obtain ⟨s₁, h₁, h⟩ := Except.bind_eq_ok h
  cases h
  exact (extends_newVarnode s loc.size loc.addr).trans (extends_setOutput h₁)

theorem extends_setVarnodeInput {v : Nat} (h : s.setVarnodeInput v = .ok t) : Extends s t := by
  unfold setVarnodeInput at h
  obtain ⟨y, -, h⟩ := Except.bind_eq_ok h
  split at h
  · cases h
  · cases h
    exact extends_of_ops rfl

theorem extends_deleteVarnode {v : Nat} (h : s.deleteVarnode v = .ok t) : Extends s t := by
  unfold deleteVarnode at h
  split at h
  · cases h
  · split at h
    · cases h
    · split at h
      · cases h
      · cases h
        exact extends_of_ops rfl

theorem extends_markDead {o : Nat} (h : s.markDead o = .ok t) : Extends s t := by
  obtain ⟨_, -, h⟩ := Except.bind_eq_ok h
  cases h
  exact extends_modifyOp s o fun _ => rfl

theorem extends_markAlive {o : Nat} (h : s.markAlive o = .ok t) : Extends s t := by
  obtain ⟨_, -, h⟩ := Except.bind_eq_ok h
  cases h
  exact extends_modifyOp s o fun _ => rfl

theorem extends_clearInputs (o : Nat) :
    ∀ (fuel : Nat) {s t : Store}, s.clearInputs o fuel = .ok t → Extends s t
  | 0, s, t, h => by
    cases h
    exact Extends.refl s
  | fuel + 1, s, t, h => by
    rw [clearInputs] at h
    obtain ⟨x, -, h⟩ := Except.bind_eq_ok h
    split at h
    · cases h
      exact Extends.refl s
    · obtain ⟨⟨old, s₁⟩, h₁, h⟩ := Except.bind_eq_ok h
      exact (extends_removeInput h₁).trans (extends_clearInputs o fuel h)

/-- Destroying an operation clears it, and only it. -/
theorem opsKept_destroyOp {o : Nat} (h : s.destroyOp o = .ok t) : OpsKept s t := by
  unfold destroyOp at h
  obtain ⟨x, -, h⟩ := Except.bind_eq_ok h
  split at h
  · cases h
  obtain ⟨s₁, h₁, h⟩ := Except.bind_eq_ok h
  obtain ⟨⟨out, s₂⟩, h₂, h⟩ := Except.bind_eq_ok h
  have hk := (extends_clearInputs o _ h₁).trans (extends_unsetOutput h₂)
  -- the freed output may be deleted; then the operation is cleared
  simp only at h
  split at h
  · split at h
    · cases h
      exact (hk.trans (extends_deleteVarnode ‹_›)).opsKept.trans (opsKept_clear o rfl)
    · cases h
      exact hk.opsKept.trans (opsKept_clear o rfl)
  · cases h
    exact hk.opsKept.trans (opsKept_clear o rfl)

end Store

end MicroSsa
