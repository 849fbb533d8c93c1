import MicroSsa.Value.Evaluate
import Mathlib.Order.Defs.PartialOrder
import Mathlib.Data.List.Forall2
/-!
# The order of the value lattice

`top` lies above every value and `bottom` below; a constant or a relative constant is comparable
only with itself and the two ends. `Value.meet` is the greatest lower bound in this order, and
`Value.loweredBy` on a value that lies lower stores exactly that value.

Evaluating an operation over the lattice is monotone (`Opcode.evaluate_mono`): lower inputs give
a lower value. Because the lattice has height two this needs no case of the folding table: an
input that falls from a constant can only fall to `bottom`, which makes the result `bottom`.
-/

namespace MicroSsa

namespace Value

instance : LE Value := ⟨fun a b => a = bottom ∨ b = top ∨ a = b⟩

theorem le_iff {a b : Value} : a ≤ b ↔ a = bottom ∨ b = top ∨ a = b := Iff.rfl

instance : DecidableRel (α := Value) (· ≤ ·) := fun a b =>
  inferInstanceAs (Decidable (a = bottom ∨ b = top ∨ a = b))

instance : PartialOrder Value where
  le_refl a := Or.inr (Or.inr rfl)
  le_trans a b c hab hbc := by
    rcases hab with rfl | rfl | rfl
    · exact Or.inl rfl
    · rcases hbc with h | rfl | rfl
      · cases h
      · exact Or.inr (Or.inl rfl)
      · exact Or.inr (Or.inl rfl)
    · exact hbc
  le_antisymm a b hab hba := by
    rcases hab with rfl | rfl | rfl
    · rcases hba with h | h | h <;> simp_all
    · rcases hba with h | h | h <;> simp_all
    · rfl

@[simp] theorem le_top (a : Value) : a ≤ top := Or.inr (Or.inl rfl)

@[simp] theorem bottom_le (a : Value) : bottom ≤ a := Or.inl rfl

theorem eq_bottom_of_le_bottom {a : Value} (h : a ≤ bottom) : a = bottom := by
  rcases h with h | h | h
  · exact h
  · cases h
  · exact h

theorem eq_top_of_top_le {a : Value} (h : top ≤ a) : a = top := by
  rcases h with h | h | h
  · cases h
  · exact h
  · exact h.symm

theorem meet_le_left (a b : Value) : a.meet b ≤ a := by
  unfold meet
  split
  · exact le_top _
  · exact le_refl _
  · exact bottom_le _
  · exact bottom_le _
  · split
    · exact le_refl _
    · exact bottom_le _

theorem meet_le_right (a b : Value) : a.meet b ≤ b := by
  unfold meet
  split
  · exact le_refl _
  · exact le_top _
  · exact bottom_le _
  · exact bottom_le _
  · split
    · subst_vars
      exact le_refl _
    · exact bottom_le _

theorem le_meet {a b c : Value} (ha : c ≤ a) (hb : c ≤ b) : c ≤ a.meet b := by
  rcases ha with rfl | rfl | rfl
  · exact bottom_le _
  · rw [meet_top_left]
    exact hb
  · rcases hb with rfl | rfl | rfl
    · exact bottom_le _
    · cases c <;> simp [meet]
    · cases c <;> simp [meet]

/-- The meet is monotone in both arguments. -/
theorem meet_mono {a a' b b' : Value} (ha : a' ≤ a) (hb : b' ≤ b) : a'.meet b' ≤ a.meet b :=
  le_meet (le_trans (meet_le_left _ _) ha) (le_trans (meet_le_right _ _) hb)

theorem height_le_two (a : Value) : a.height ≤ 2 := by
  cases a <;> simp [height]

/-- A lower value lies further from `top`. -/
theorem height_le_of_le {a b : Value} (h : a ≤ b) : b.height ≤ a.height := by
  rcases h with rfl | rfl | rfl
  · cases b <;> simp [height]
  · simp [height]
  · exact Nat.le_refl _

/-- Of two comparable values at one height, neither lies lower. -/
theorem eq_of_le_of_height_le {a b : Value} (h : a ≤ b) (hh : a.height ≤ b.height) : a = b := by
  rcases h with rfl | rfl | rfl
  · cases b <;> simp_all [height]
  · cases a <;> simp_all [height]
  · rfl

/-- An update by a value that lies lower stores that value, or nothing when it is the same. -/
theorem loweredBy_of_le {old new : Value} (h : new ≤ old) :
    old.loweredBy new = if new = old then none else some new := by
  unfold loweredBy
  have hh := height_le_of_le h
  by_cases he : new = old
  · subst he
    simp
  · have hlt : old.height < new.height := by
      rcases Nat.lt_or_ge old.height new.height with hlt | hge
      · exact hlt
      · exact absurd (eq_of_le_of_height_le h hge) he
    simp [he, hlt, Nat.not_lt.mpr (Nat.le_of_lt hlt)]

/-- An update stores a value that lies lower than the old one. -/
theorem lt_of_loweredBy {old new v : Value} (h : old.loweredBy new = some v) :
    v ≤ old ∧ v ≠ old ∧ old.height < v.height := by
  unfold loweredBy at h
  split at h
  · cases h
  · split at h
    · cases h
      rename_i h₁ h₂
      refine ⟨?_, fun he => by simp_all, h₂⟩
      cases old <;> cases new <;> simp_all [height, le_iff]
    · split at h
      · cases h
      · cases h
        rename_i h₁ h₂ h₃
        have hh : old.height = 1 := by
          cases old <;> cases new <;> simp_all [height]
        refine ⟨bottom_le _, ?_, ?_⟩
        · rintro rfl
          simp [height] at hh
        · rw [hh]
          decide

end Value

namespace Opcode

/-- Inputs of one operation, each lower than or equal to the other's, of the same sizes. -/
def InputsLe (ins' ins : List (Value × Nat)) : Prop :=
  List.Forall₂ (fun p q => p.1 ≤ q.1 ∧ p.2 = q.2) ins' ins

/-- Inputs with neither `bottom` below nor `top` above are the same inputs. -/
theorem eq_of_inputsLe {ins' ins : List (Value × Nat)} (h : InputsLe ins' ins)
    (hb : ins'.any (fun p => p.1 == .bottom) = false) (ht : ins.any (fun p => p.1 == .top) = false) :
    ins' = ins := by
  induction h with
  | nil => rfl
  | @cons p q ps qs hpq _ ih =>
    simp only [List.any_cons, Bool.or_eq_false_iff, beq_eq_false_iff_ne] at hb ht
    obtain ⟨hle, hsz⟩ := hpq
    have hv : p.1 = q.1 := by
      rcases hle with h | h | h
      · exact absurd h hb.1
      · exact absurd h ht.1
      · exact h
    rw [ih hb.2 ht.2, Prod.ext hv hsz]

/-- A `bottom` input above has a `bottom` input below it. -/
theorem any_bottom_of_inputsLe {ins' ins : List (Value × Nat)} (h : InputsLe ins' ins)
    (hb : ins.any (fun p => p.1 == .bottom) = true) : ins'.any (fun p => p.1 == .bottom) = true := by
  induction h with
  | nil => cases hb
  | @cons p q ps qs hpq _ ih =>
    simp only [List.any_cons, Bool.or_eq_true, beq_iff_eq] at hb ⊢
    rcases hb with hq | hq
    · rw [hq] at hpq
      exact Or.inl (Value.eq_bottom_of_le_bottom hpq.1)
    · exact Or.inr (ih hq)

/-- Evaluating an operation is monotone in the values of its inputs. -/
theorem evaluate_mono (o : Opcode) {ins' ins : List (Value × Nat)} (h : InputsLe ins' ins)
    (outSize : Nat) (loopRisk : Bool) :
    (o.evaluate ins' outSize loopRisk).value ≤ (o.evaluate ins outSize loopRisk).value := by
  -- a `bottom` below makes the lower result `bottom`; a `top` above makes the upper one `top`
  by_cases hb : ins'.isEmpty || ins'.any (fun p => p.1 == .bottom)
  · simp [evaluate, hb]
  · simp only [Bool.or_eq_true, not_or, Bool.not_eq_true] at hb
    have hlen := h.length_eq
    have hb' : (ins.isEmpty || ins.any (fun p => p.1 == .bottom)) = false := by
      simp only [Bool.or_eq_false_iff]
      refine ⟨by rw [List.isEmpty_eq_false_iff, ← List.length_pos_iff] at hb ⊢; omega, ?_⟩
      cases hany : ins.any (fun p => p.1 == .bottom)
      · rfl
      · exact absurd (any_bottom_of_inputsLe h hany) (by simp [hb.2])
    by_cases ht : ins.any (fun p => p.1 == .top)
    · simp [evaluate, hb', ht]
    · simp only [Bool.not_eq_true] at ht
      rw [eq_of_inputsLe h hb.2 ht]

end Opcode

end MicroSsa
