import MicroSsa.Proofs.Propagation.Lattice
import Mathlib.Order.BoundedOrder.Lattice
/-!
# The meet semilattice of values

The order of `Proofs.Propagation.Lattice` has `Value.meet` as its greatest lower bound, so values
form a meet semilattice with `top` as greatest and `bottom` as least element: commutativity,
associativity and idempotence of the meet, and the laws of its two ends, are then the library's
`inf_comm`, `inf_assoc`, `inf_idem`, `top_inf_eq` and `bot_inf_eq`.

`Value.loweredBy` is written over heights and equality, not through the meet. Its agreement with
the meet (`loweredBy_eq_meet`) is the case analysis the propagator relies on: an update by a
value above or equal stores nothing, by a value below stores that value, and by a value of the
same height that differs stores `bottom`, which is exactly where the two are incomparable. Every
update raises the height, and heights stop at two, so a value changes at most twice
(`changes_length_le`).
-/

namespace MicroSsa

namespace Value

instance : SemilatticeInf Value where
  inf := meet
  inf_le_left := meet_le_left
  inf_le_right := meet_le_right
  le_inf _ _ _ := le_meet

instance : BoundedOrder Value where
  top := top
  le_top := le_top
  bot := bottom
  bot_le := bottom_le

/-- A value that is neither end of the lattice lies at height one. -/
theorem height_eq_one {a : Value} (ht : a ≠ top) (hb : a ≠ bottom) : a.height = 1 := by
  cases a <;> simp_all [height]

/-- Below a value of height one lie only that value and `bottom`. -/
theorem eq_or_eq_bottom_of_le {a c : Value} (hc : c ≤ a) (ht : a ≠ top) :
    c = bottom ∨ c = a := by
  rcases hc with h | h | h
  · exact Or.inl h
  · exact absurd h ht
  · exact Or.inr h

/-- The meet of two incomparable values is `bottom`. -/
theorem meet_eq_bottom_of_incomparable {a b : Value} (hab : ¬ a ≤ b) (hba : ¬ b ≤ a) :
    a.meet b = bottom := by
  have ha : a ≠ top := fun h => hba (h ▸ le_top b)
  rcases eq_or_eq_bottom_of_le (meet_le_left a b) ha with h | h
  · exact h
  · exact absurd (h ▸ meet_le_right a b) hab

/-- Two incomparable values both lie at height one and differ. -/
theorem height_of_incomparable {a b : Value} (hab : ¬ a ≤ b) (hba : ¬ b ≤ a) :
    a.height = 1 ∧ b.height = 1 ∧ a ≠ b := by
  refine ⟨height_eq_one ?_ ?_, height_eq_one ?_ ?_, ?_⟩
  · exact fun h => hba (h ▸ le_top b)
  · exact fun h => hab (h ▸ bottom_le b)
  · exact fun h => hab (h ▸ le_top a)
  · exact fun h => hba (h ▸ bottom_le a)
  · exact fun h => hab (h ▸ le_refl a)

/-- An update by a value strictly above the old one stores nothing. -/
theorem loweredBy_of_lt {a b : Value} (h : a < b) : a.loweredBy b = none := by
  have hle : b.height ≤ a.height := height_le_of_le h.le
  have hne : b.height ≠ a.height := fun he => h.ne (eq_of_le_of_height_le h.le (he ▸ le_refl _))
  simp [loweredBy, Nat.lt_of_le_of_ne hle hne]

/-- An update by a value incomparable with the old one stores `bottom`. -/
theorem loweredBy_of_incomparable {a b : Value} (hab : ¬ a ≤ b) (hba : ¬ b ≤ a) :
    a.loweredBy b = some bottom := by
  obtain ⟨ha, hb, hne⟩ := height_of_incomparable hab hba
  simp [loweredBy, ha, hb, hne]

/-- The change detector agrees with the meet: an update stores nothing when the meet is the old
value, and the meet otherwise. -/
theorem loweredBy_eq_meet (a b : Value) :
    a.loweredBy b = if a.meet b = a then none else some (a.meet b) := by
  by_cases hba : b ≤ a
  · -- the new value lies below: the meet is the new value
    have hm : a.meet b = b := inf_eq_right.mpr hba
    rw [hm, loweredBy_of_le hba]
  · by_cases hab : a ≤ b
    · -- the new value lies strictly above: the meet is the old value
      have hm : a.meet b = a := inf_eq_left.mpr hab
      rw [hm, if_pos rfl]
      exact loweredBy_of_lt (lt_of_le_of_ne hab fun h => hba (h ▸ le_refl a))
    · -- incomparable values meet at `bottom`, which is not the old value
      have hm := meet_eq_bottom_of_incomparable hab hba
      have hne : bottom ≠ a := fun h => hab (h ▸ bottom_le b)
      rw [hm, if_neg hne, loweredBy_of_incomparable hab hba]

/-- One update that changes the stored value. -/
def Changes (old new : Value) : Prop := ∃ v, old.loweredBy v = some new

/-- Along a run of changing updates the height grows by at least one each time, so the values
after `v` number at most two less its height. -/
theorem changes_length_le {v : Value} {vs : List Value} (h : (v :: vs).IsChain Changes) :
    vs.length + v.height ≤ 2 := by
  induction vs generalizing v with
  | nil => simpa using height_le_two v
  | cons w ws ih =>
    rw [List.isChain_cons_cons] at h
    obtain ⟨⟨n, hn⟩, htail⟩ := h
    have hlt := (lt_of_loweredBy hn).2.2
    have := ih htail
    simp only [List.length_cons]
    omega

/-- The value lattice is a meet semilattice with `top` as unit and `bottom` as absorbing element,
`loweredBy` stores exactly the meet when it differs from the old value, every update raises the
height, and a value changes at most twice. -/
theorem meet_semilattice_loweredBy :
    (∀ a b : Value, a.meet b = b.meet a) ∧
    (∀ a b c : Value, (a.meet b).meet c = a.meet (b.meet c)) ∧
    (∀ a : Value, a.meet a = a) ∧
    (∀ a : Value, top.meet a = a ∧ a.meet top = a) ∧
    (∀ a : Value, bottom.meet a = bottom ∧ a.meet bottom = bottom) ∧
    (∀ a b : Value, a.loweredBy b = if a.meet b = a then none else some (a.meet b)) ∧
    (∀ a b v : Value, a.loweredBy b = some v → a.height < v.height) ∧
    (∀ (v : Value) (vs : List Value), (v :: vs).IsChain Changes → vs.length ≤ 2) := by
  refine ⟨inf_comm, inf_assoc, inf_idem, fun a => ⟨top_inf_eq a, inf_top_eq a⟩,
    fun a => ⟨bot_inf_eq a, inf_bot_eq a⟩, loweredBy_eq_meet,
    fun _ _ _ h => (lt_of_loweredBy h).2.2, fun v vs h => ?_⟩
  have := changes_length_le h
  omega

/-- The bound of two changes is reached: `top` lowered to a constant, then to `bottom`. -/
theorem changes_top_const_bottom :
    ([top, const 1, bottom] : List Value).IsChain Changes ∧ [const 1, bottom].length ≤ 2 := by
  have h : ([top, const 1, bottom] : List Value).IsChain Changes := by
    simp only [List.isChain_cons_cons, List.IsChain.singleton, and_true]
    exact ⟨⟨const 1, rfl⟩, ⟨bottom, rfl⟩⟩
  exact ⟨h, meet_semilattice_loweredBy.2.2.2.2.2.2.2 top [const 1, bottom] h⟩

end Value

end MicroSsa
