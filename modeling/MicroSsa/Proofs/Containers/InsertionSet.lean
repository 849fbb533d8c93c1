import Mathlib.Data.List.Induction
import Mathlib.Data.List.Nodup
import MicroSsa.InsertionSet
/-!
# Insertion sets keep the positions of first insertion

An insertion set holds its members in an array and their positions in a reverse map. It is
**consistent** (`InsertionSet.Consistent`) when the reverse map answers exactly the positions of
the members: the member at position `i` maps to `i`, and no value outside the members maps
anywhere. The empty set is consistent, and inserting keeps a set consistent
(`Consistent.insert`): a value the map lacks is no member, so appending it and mapping it to the
new last position keeps array and map in step. A consistent set holds no member twice
(`Consistent.nodup`).

On a consistent set one insertion reads off the list of members (`members_insert`,
`fst_insert`): a value already held keeps its position and changes nothing, a new one is
appended. Hence from the empty set a run of insertions holds the values inserted, without
repeats, in the order of their first insertion, and each insertion answers the position of its
value among the distinct values inserted up to it (`insertAll_firstInsertion`).
-/

namespace MicroSsa

namespace InsertionSet

/-! ## Removing duplicates -/

section Lists

variable {α : Type} [BEq α] [LawfulBEq α]

/-- Removing duplicates from a list with one more value at the end. -/
theorem eraseDups_concat (l : List α) (v : α) :
    (l ++ [v]).eraseDups = if v ∈ l then l.eraseDups else l.eraseDups ++ [v] := by
  rw [List.eraseDups_append]
  by_cases hv : v ∈ l
  · have : [v].removeAll l = [] := by simp [List.removeAll, hv]
    simp [this, hv]
  · have : [v].removeAll l = [v] := by simp [List.removeAll, hv]
    simp [this, hv, List.eraseDups_cons]

theorem nodup_eraseDups (l : List α) : l.eraseDups.Nodup := by
  induction l using List.reverseRecOn with
  | nil => exact List.nodup_nil
  | append_singleton l v ih =>
    rw [eraseDups_concat]
    split
    · exact ih
    · rename_i hv
      refine List.Nodup.append ih (List.nodup_singleton v) ?_
      simpa [List.mem_eraseDups] using hv

end Lists

/-! ## The shape of a run -/

section Shape

variable {α : Type} [BEq α]

/-- One more insertion at the end of a run. -/
theorem insertAll_concat (t : InsertionSet α) (vs : List α) (v : α) :
    t.insertAll (vs ++ [v]) =
      ((t.insertAll vs).1 ++ [((t.insertAll vs).2.insert v).1], ((t.insertAll vs).2.insert v).2) := by
  simp only [insertAll, List.foldl_append, List.foldl_cons, List.foldl_nil, List.reverse_cons]

end Shape

/-! ## The representation invariant -/

variable {α : Type} {s : InsertionSet α}

/-- The reverse map answers exactly the positions of the members. -/
def Consistent (s : InsertionSet α) : Prop :=
  ∀ v i, s.revmap v = some i ↔ s.members[i]? = some v

theorem consistent_empty : ({} : InsertionSet α).Consistent := by
  intro v i
  simp

/-- The member at position `i` maps to `i`. -/
theorem Consistent.revmap_getElem (h : s.Consistent) {i : Nat} (hi : i < s.members.size) :
    s.revmap s.members[i] = some i :=
  (h _ i).mpr (Array.getElem?_eq_getElem hi)

/-- A value the reverse map lacks is no member. -/
theorem Consistent.revmap_eq_none_iff (h : s.Consistent) (v : α) :
    s.revmap v = none ↔ v ∉ s.members := by
  constructor
  · intro hv hmem
    obtain ⟨i, hi, rfl⟩ := Array.getElem_of_mem hmem
    rw [h.revmap_getElem hi] at hv
    cases hv
  · intro hv
    cases hr : s.revmap v with
    | none => rfl
    | some i => exact absurd (Array.mem_of_getElem? ((h v i).mp hr)) hv

/-- A consistent set holds no member twice: the reverse map gives one position per value. -/
theorem Consistent.nodup (h : s.Consistent) : s.members.toList.Nodup := by
  rw [List.nodup_iff_getElem?_ne_getElem?]
  intro i j hij hj heq
  have hj' : j < s.members.size := by simpa using hj
  have hi : s.revmap s.members[j] = some i := (h _ i).mpr (by simpa [hj'] using heq)
  rw [h.revmap_getElem hj'] at hi
  exact absurd (Option.some.inj hi) (Nat.ne_of_gt hij)

variable [BEq α] [LawfulBEq α]

/-- **Inserting keeps a set consistent.** -/
theorem Consistent.insert (h : s.Consistent) (v : α) : (s.insert v).2.Consistent := by
  unfold InsertionSet.insert
  cases hv : s.revmap v with
  | some i => exact h
  | none =>
    have hnot : v ∉ s.members := (h.revmap_eq_none_iff v).mp hv
    intro w j
    simp only [Array.getElem?_push, beq_iff_eq]
    by_cases hw : w = v
    · -- the new value maps to the new last position and is nowhere before it
      subst hw
      have hnone : s.members[j]? ≠ some w := fun hj => hnot (Array.mem_of_getElem? hj)
      by_cases hj : j = s.members.size <;> simp [hj, hnone, eq_comm]
    · -- any other value keeps its position, which lies before the new one
      rw [if_neg (by simpa using hw), h w j]
      by_cases hj : j = s.members.size
      · subst hj
        simp [Ne.symm hw]
      · simp [hj]

/-! ## One insertion through the list of members -/

/-- Inserting into a consistent set appends a value it does not hold yet. -/
theorem members_insert (h : s.Consistent) (v : α) :
    (s.insert v).2.members.toList =
      if v ∈ s.members.toList then s.members.toList else s.members.toList ++ [v] := by
  unfold InsertionSet.insert
  cases hv : s.revmap v with
  | some i =>
    have hmem : v ∈ s.members.toList := Array.mem_def.mp (Array.mem_of_getElem? ((h v i).mp hv))
    simp [hmem]
  | none =>
    have hnot : v ∉ s.members.toList := fun hm => (h.revmap_eq_none_iff v).mp hv (Array.mem_def.mpr hm)
    simp [hnot]

/-- Inserting into a consistent set answers the position the value then holds. -/
theorem fst_insert (h : s.Consistent) (v : α) :
    (s.insert v).1 = (s.insert v).2.members.toList.idxOf v := by
  unfold InsertionSet.insert
  cases hv : s.revmap v with
  | some i =>
    obtain ⟨hi, hvi⟩ := Array.getElem?_eq_some_iff.mp ((h v i).mp hv)
    have hi' : i < s.members.toList.length := by simpa using hi
    have := h.nodup.idxOf_getElem i hi'
    simp only [Array.getElem_toList, hvi] at this
    exact this.symm
  | none =>
    have hnot : v ∉ s.members.toList := fun hm => (h.revmap_eq_none_iff v).mp hv (Array.mem_def.mpr hm)
    simp [List.idxOf_append_of_notMem hnot]

/-- Inserting into a consistent set answers a position that holds the value. -/
theorem getElem?_insert (h : s.Consistent) (v : α) :
    (s.insert v).2.members.toList[(s.insert v).1]? = some v := by
  have hmem : v ∈ (s.insert v).2.members.toList := by
    rw [members_insert h]
    split <;> simp_all
  rw [fst_insert h, List.getElem?_eq_some_iff]
  exact ⟨List.idxOf_lt_length_iff.mpr hmem, List.getElem_idxOf _⟩

/-! ## Runs of insertions -/

/-- Every set a run of insertions reaches from a consistent set is consistent. -/
theorem Consistent.insertAll (h : s.Consistent) (vs : List α) : (s.insertAll vs).2.Consistent := by
  induction vs using List.reverseRecOn with
  | nil => exact h
  | append_singleton vs v ih =>
    rw [insertAll_concat]
    exact ih.insert v

/-- From the empty set, a run of insertions holds the values inserted without repeats, in the
order of their first insertion. -/
theorem members_insertAll (vs : List α) :
    (({} : InsertionSet α).insertAll vs).2.members.toList = vs.eraseDups := by
  induction vs using List.reverseRecOn with
  | nil => rfl
  | append_singleton vs v ih =>
    rw [insertAll_concat, members_insert (consistent_empty.insertAll vs), ih, eraseDups_concat]
    simp only [List.mem_eraseDups]

/-- From the empty set, the `k`-th insertion of a run answers the position of its value among
the distinct values of the first `k + 1` inserted. -/
theorem fst_insertAll (vs : List α) :
    (({} : InsertionSet α).insertAll vs).1 =
      vs.mapIdx fun k v => ((vs.take (k + 1)).eraseDups).idxOf v := by
  induction vs using List.reverseRecOn with
  | nil => rfl
  | append_singleton vs v ih =>
    have hc := consistent_empty.insertAll (α := α) vs
    rw [insertAll_concat]
    dsimp only
    rw [ih, List.mapIdx_concat, fst_insert hc, members_insert hc,
      members_insertAll, List.take_of_length_le (by simp), eraseDups_concat]
    congr 1
    · -- the earlier insertions see only the values before them
      refine List.mapIdx_eq_mapIdx_iff.mpr fun k hk => ?_
      rw [List.take_append_of_le_length (by omega)]
    · simp only [List.mem_eraseDups]

/-- **Insertion sets keep the positions of first insertion.** From the empty set, a run of
insertions answers for each value its position among the distinct values inserted up to it, and
ends with as many members as it inserted distinct values, each listed once, in the order of
their first insertion. Every insertion keeps the reverse map answering exactly the positions of
the members, so every set a run reaches has it so. -/
theorem insertAll_firstInsertion {α : Type} [DecidableEq α] (vs : List α) :
    (({} : InsertionSet α).insertAll vs).1 =
        vs.mapIdx (fun k v => ((vs.take (k + 1)).eraseDups).idxOf v) ∧
      (({} : InsertionSet α).insertAll vs).2.size = vs.eraseDups.length ∧
      (({} : InsertionSet α).insertAll vs).2.members.toList = vs.eraseDups ∧
      (∀ (s : InsertionSet α) (v : α), s.Consistent → (s.insert v).2.Consistent) ∧
      (({} : InsertionSet α).insertAll vs).2.Consistent := by
  have hmembers := members_insertAll vs
  refine ⟨fst_insertAll vs, ?_, hmembers, fun s v h => h.insert v, consistent_empty.insertAll vs⟩
  rw [size, ← Array.length_toList, hmembers]

example : (({} : InsertionSet Nat).insertAll [30, 10, 30]).1 = [0, 1, 0] := by decide

end InsertionSet

end MicroSsa
