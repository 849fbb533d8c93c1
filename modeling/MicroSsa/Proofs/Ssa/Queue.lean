import MicroSsa.DepthQueue
import Mathlib.Algebra.BigOperators.Group.Finset.Piecewise
/-!
# What a depth queue holds

A depth queue is seen through the copies of each number its stacks hold (`DepthQueue.count`)
and the entries of all its stacks (`DepthQueue.entries`). Inserting adds one copy
(`count_insert`); extracting from a well-formed queue takes one copy of some number out
(`count_extract`), or finds the queue empty (`entries_of_extract_none`). A queue is well formed
(`DepthQueue.Wf`) when its current depth is a depth of the row and no stack above it holds a
number; resetting, inserting and extracting keep it so. Merge placement needs no more: which of
the deepest numbers comes out first does not matter to it.
-/

namespace MicroSsa

namespace DepthQueue

/-- The stack at depth `d` of a row of stacks; none past the row. -/
def bucket (bs : Array (List Nat)) (d : Nat) : List Nat := bs[d]?.getD []

/-- A sum over the stacks of a row. -/
def total (F : List Nat → Nat) (bs : Array (List Nat)) : Nat :=
  ∑ d ∈ Finset.range bs.size, F (bucket bs d)

/-- The copies of `x` in all stacks. -/
def count (q : DepthQueue) (x : Nat) : Nat := total (List.count x) q.buckets

/-- The entries of all stacks. -/
def entries (q : DepthQueue) : Nat := total List.length q.buckets

/-- The current depth lies in the row, and every number sits at the current depth or below. -/
structure Wf (q : DepthQueue) : Prop where
  current_lt : ∀ c, q.current = some c → c < q.buckets.size
  below : ∀ d, bucket q.buckets d ≠ [] → ∃ c, q.current = some c ∧ d ≤ c

theorem bucket_of_size_le {bs : Array (List Nat)} {d : Nat} (h : bs.size ≤ d) : bucket bs d = [] := by
  simp [bucket, Array.getElem?_eq_none h]

section total

variable (F : List Nat → Nat)

/-- A sum over the stacks of a row may run over any longer range: the stacks past the row are
empty. -/
theorem sum_bucket_range (hF : F [] = 0) {bs : Array (List Nat)} {N : Nat} (hN : bs.size ≤ N) :
    ∑ d ∈ Finset.range N, F (bucket bs d) = total F bs := by
  refine (Finset.sum_subset (Finset.range_subset_range.mpr hN) fun d _ hd => ?_).symm
  rw [bucket_of_size_le (Nat.le_of_not_lt (by simpa using hd)), hF]

/-- Changing one stack of the row changes one summand. -/
theorem sum_bucket_update (bs bs' : Array (List Nat)) {N i : Nat} (hi : i < N)
    (h : ∀ d, d ≠ i → bucket bs' d = bucket bs d) :
    ∑ d ∈ Finset.range N, F (bucket bs' d) + F (bucket bs i) =
      ∑ d ∈ Finset.range N, F (bucket bs d) + F (bucket bs' i) := by
  have hmem : i ∈ Finset.range N := Finset.mem_range.mpr hi
  rw [← Finset.sum_erase_add _ _ hmem, ← Finset.sum_erase_add _ _ hmem,
    Finset.sum_congr rfl fun d hd => by rw [h d (Finset.ne_of_mem_erase hd)]]
  omega

end total

/-! ## Resetting and inserting -/

@[simp] theorem bucket_reset (n d : Nat) : bucket (reset n).buckets d = [] := by
  simp only [bucket, reset, Array.getElem?_replicate]
  split <;> rfl

theorem count_reset (n x : Nat) : (reset n).count x = 0 := by
  simp [count, total]

theorem entries_reset (n : Nat) : (reset n).entries = 0 := by
  simp [entries, total]

theorem wf_reset (n : Nat) : (reset n).Wf where
  current_lt c h := by simp [reset] at h
  below d h := absurd (bucket_reset n d) h

theorem size_insert (q : DepthQueue) (x depth : Nat) :
    (q.insert x depth).buckets.size = max q.buckets.size (depth + 1) := by
  simp only [insert]
  split <;> simp <;> omega

theorem bucket_insert (q : DepthQueue) (x depth d : Nat) :
    bucket (q.insert x depth).buckets d =
      if d = depth then x :: bucket q.buckets d else bucket q.buckets d := by
  simp only [insert, bucket]
  split
  · rename_i hlt
    rw [Array.getElem?_modify]
    by_cases hd : d = depth
    · subst hd
      simp [Array.getElem?_eq_getElem hlt]
    · simp [Ne.symm hd, hd]
  · rename_i hge
    rw [Array.getElem?_modify]
    by_cases hd : d = depth
    · subst hd
      have hlt : d < (q.buckets ++ Array.replicate (d + 1 - q.buckets.size) []).size := by
        simp; omega
      rw [if_pos rfl, Array.getElem?_eq_getElem hlt, Array.getElem?_eq_none (by omega)]
      simp [Nat.not_lt.mp hge]
    · rw [if_neg (Ne.symm hd), if_neg hd, Array.getElem?_append]
      split
      · rfl
      · rename_i hd'
        rw [Array.getElem?_eq_none (Nat.le_of_not_lt hd')]
        simp only [Array.getElem?_replicate, Option.getD_none]
        split <;> rfl

/-- Inserting makes the current depth at least the depth inserted at, never lowers it, and sets
it either to that depth or leaves it. -/
theorem current_insert (q : DepthQueue) (x depth : Nat) :
    ∃ c, (q.insert x depth).current = some c ∧ depth ≤ c ∧
      (∀ c₀, q.current = some c₀ → c₀ ≤ c) ∧ (c = depth ∨ q.current = some c) := by
  simp only [insert]
  cases hc : q.current with
  | none => exact ⟨depth, rfl, le_refl _, by simp, Or.inl rfl⟩
  | some c₀ =>
    by_cases hlt : c₀ < depth
    · exact ⟨depth, by simp [hlt], le_refl _, by simp; omega, Or.inl rfl⟩
    · exact ⟨c₀, by simp [hlt], by omega, by simp, Or.inr rfl⟩

theorem total_insert (F : List Nat → Nat) (hF : F [] = 0) (q : DepthQueue) (x depth : Nat) :
    total F (q.insert x depth).buckets + F (bucket q.buckets depth) =
      total F q.buckets + F (x :: bucket q.buckets depth) := by
  have hsize := size_insert q x depth
  have hupd := sum_bucket_update F q.buckets (q.insert x depth).buckets
    (show depth < (q.insert x depth).buckets.size by omega)
    fun d hd => by rw [bucket_insert, if_neg hd]
  rwa [bucket_insert, if_pos rfl, sum_bucket_range F hF (le_refl _),
    sum_bucket_range F hF (show q.buckets.size ≤ (q.insert x depth).buckets.size by omega)] at hupd

/-- Inserting adds one copy of the number. -/
theorem count_insert (q : DepthQueue) (x depth y : Nat) :
    (q.insert x depth).count y = q.count y + if y = x then 1 else 0 := by
  have h := total_insert (List.count y) List.count_nil q x depth
  simp only [List.count_cons, beq_iff_eq] at h
  unfold count
  split_ifs at h ⊢ <;> omega

theorem entries_insert (q : DepthQueue) (x depth : Nat) :
    (q.insert x depth).entries = q.entries + 1 := by
  have h := total_insert List.length List.length_nil q x depth
  simp only [List.length_cons] at h
  unfold entries
  omega

theorem Wf.insert {q : DepthQueue} (hq : q.Wf) (x depth : Nat) : (q.insert x depth).Wf := by
  obtain ⟨c, hc, hdc, hmono, hcase⟩ := current_insert q x depth
  refine ⟨fun c' hc' => ?_, fun d hd => ⟨c, hc, ?_⟩⟩
  · obtain rfl : c' = c := Option.some.inj (hc'.symm.trans hc)
    rw [size_insert]
    rcases hcase with rfl | hcur
    · omega
    · have := hq.current_lt c' hcur
      omega
  · rw [bucket_insert] at hd
    split at hd
    · omega
    · obtain ⟨c₀, hc₀, hd₀⟩ := hq.below d hd
      have := hmono c₀ hc₀
      omega

/-- Inserting a list of numbers, each at its own depth. -/
theorem count_foldl_insert (depth : Nat → Nat) (y : Nat) :
    ∀ (l : List Nat) (q : DepthQueue),
      (l.foldl (fun q b => q.insert b (depth b)) q).count y = q.count y + l.count y
  | [], q => rfl
  | b :: l, q => by
    rw [List.foldl_cons, count_foldl_insert depth y l, count_insert]
    simp only [List.count_cons, beq_iff_eq]
    split_ifs <;> omega

theorem entries_foldl_insert (depth : Nat → Nat) :
    ∀ (l : List Nat) (q : DepthQueue),
      (l.foldl (fun q b => q.insert b (depth b)) q).entries = q.entries + l.length
  | [], q => rfl
  | b :: l, q => by
    rw [List.foldl_cons, entries_foldl_insert depth l, entries_insert, List.length_cons]
    omega

theorem Wf.foldl_insert {q : DepthQueue} (hq : q.Wf) (depth : Nat → Nat) (l : List Nat) :
    (l.foldl (fun q b => q.insert b (depth b)) q).Wf := by
  induction l generalizing q with
  | nil => exact hq
  | cons b l ih => exact ih (hq.insert b (depth b))

/-! ## Extracting -/

/-- What \x60popFrom\x60 finds looking down from depth \x60d\x60: the top of the first stack that holds a
number, all stacks between it and \x60d\x60 being empty; or nothing, all stacks up to \x60d\x60 being
empty. -/
theorem popFrom_spec (bs : Array (List Nat)) :
    ∀ d, (∃ e x rest, e ≤ d ∧ bucket bs e = x :: rest ∧
        (∀ e', e < e' → e' ≤ d → bucket bs e' = []) ∧
        popFrom bs d = (some x, some e, bs.set! e rest)) ∨
      ((∀ e ≤ d, bucket bs e = []) ∧ popFrom bs d = (none, none, bs))
  | 0 => by
    unfold popFrom
    cases h : bs[0]?.getD [] with
    | nil =>
      refine Or.inr ⟨fun e he => ?_, rfl⟩
      obtain rfl : e = 0 := by omega
      exact h
    | cons x rest => exact Or.inl ⟨0, x, rest, le_refl 0, h, fun e' h₁ h₂ => by omega, rfl⟩
  | d + 1 => by
    unfold popFrom
    cases h : bs[d + 1]?.getD [] with
    | nil =>
      rcases popFrom_spec bs d with ⟨e, x, rest, hed, he, hbetween, hpop⟩ | ⟨hnone, hpop⟩
      · refine Or.inl ⟨e, x, rest, by omega, he, fun e' h₁ h₂ => ?_, hpop⟩
        by_cases h' : e' = d + 1
        · subst h'
          exact h
        · exact hbetween e' h₁ (by omega)
      · refine Or.inr ⟨fun e he => ?_, hpop⟩
        by_cases h' : e = d + 1
        · subst h'
          exact h
        · exact hnone e (by omega)
    | cons x rest =>
      exact Or.inl ⟨d + 1, x, rest, le_refl _, h, fun e' h₁ h₂ => by omega, rfl⟩

theorem bucket_set {bs : Array (List Nat)} {e : Nat} (rest : List Nat) (he : e < bs.size)
    (d : Nat) : bucket (bs.set! e rest) d = if d = e then rest else bucket bs d := by
  simp only [bucket, Array.set!_eq_setIfInBounds, Array.getElem?_setIfInBounds]
  by_cases hd : d = e
  · subst hd
    simp [he]
  · simp [Ne.symm hd, hd]

theorem total_set (F : List Nat → Nat) {bs : Array (List Nat)} {e : Nat} (rest : List Nat)
    (he : e < bs.size) : total F (bs.set! e rest) + F (bucket bs e) = total F bs + F rest := by
  have hupd := sum_bucket_update F bs (bs.set! e rest) he fun d hd => by
    rw [bucket_set rest he, if_neg hd]
  rw [bucket_set rest he, if_pos rfl] at hupd
  rwa [total, total, Array.size_set!]

/-- Extracting a number pops it off the top of one stack of the row. -/
theorem extract_some {q q' : DepthQueue} {x : Nat} (hq : q.Wf) (h : q.extract = (some x, q')) :
    ∃ e rest, e < q.buckets.size ∧ bucket q.buckets e = x :: rest ∧
      q'.buckets = q.buckets.set! e rest := by
  unfold extract at h
  split at h
  · cases h
  · rename_i d hd
    rcases popFrom_spec q.buckets d with ⟨e, x', rest, hed, he, -, hpop⟩ | ⟨-, hpop⟩
    · rw [hpop] at h
      simp only [Prod.mk.injEq, Option.some.injEq] at h
      obtain ⟨rfl, rfl⟩ := h
      have := hq.current_lt d hd
      exact ⟨e, rest, by omega, he, rfl⟩
    · rw [hpop] at h
      cases h

/-- Extracting a number takes one copy of it out. -/
theorem count_extract {q q' : DepthQueue} {x : Nat} (hq : q.Wf) (h : q.extract = (some x, q'))
    (y : Nat) : q.count y = q'.count y + if y = x then 1 else 0 := by
  obtain ⟨e, rest, he, hbucket, hq'⟩ := extract_some hq h
  have hset := total_set (List.count y) rest he
  rw [hbucket] at hset
  simp only [List.count_cons, beq_iff_eq] at hset
  rw [count, count, hq']
  split_ifs at hset ⊢ <;> omega

theorem entries_extract {q q' : DepthQueue} {x : Nat} (hq : q.Wf) (h : q.extract = (some x, q')) :
    q.entries = q'.entries + 1 := by
  obtain ⟨e, rest, he, hbucket, hq'⟩ := extract_some hq h
  have hset := total_set List.length rest he
  rw [hbucket, List.length_cons] at hset
  rw [entries, entries, hq']
  omega

/-- A well-formed queue that gives nothing back is empty, and stays so. -/
theorem extract_none {q q' : DepthQueue} (hq : q.Wf) (h : q.extract = (none, q')) :
    (∀ d, bucket q.buckets d = []) ∧ q'.buckets = q.buckets := by
  unfold extract at h
  split at h
  · rename_i hcur
    cases h
    refine ⟨fun d => ?_, rfl⟩
    by_contra hd
    obtain ⟨c, hc, -⟩ := hq.below d hd
    rw [hcur] at hc
    cases hc
  · rename_i c hcur
    rcases popFrom_spec q.buckets c with ⟨e, x, rest, -, -, -, hpop⟩ | ⟨hnone, hpop⟩
    · rw [hpop] at h
      cases h
    · rw [hpop] at h
      cases h
      refine ⟨fun d => ?_, rfl⟩
      by_contra hd
      obtain ⟨c', hc', hdc⟩ := hq.below d hd
      rw [hcur] at hc'
      cases hc'
      exact hd (hnone d hdc)

theorem count_of_extract_none {q q' : DepthQueue} (hq : q.Wf) (h : q.extract = (none, q'))
    (y : Nat) : q.count y = 0 ∧ q'.count y = 0 := by
  obtain ⟨hempty, hq'⟩ := extract_none hq h
  simp [count, total, hq', hempty]

theorem Wf.extract {q q' : DepthQueue} {x : Option Nat} (hq : q.Wf) (h : q.extract = (x, q')) :
    q'.Wf := by
  unfold DepthQueue.extract at h
  split at h
  · cases h
    exact hq
  · rename_i d hd
    have hdlt := hq.current_lt d hd
    rcases popFrom_spec q.buckets d with ⟨e, x', rest, hed, he, hbetween, hpop⟩ | ⟨hnone, hpop⟩
    · rw [hpop] at h
      cases h
      have helt : e < q.buckets.size := by omega
      refine ⟨fun c hc => ?_, fun d' hd' => ⟨e, rfl, ?_⟩⟩
      · cases hc
        simpa using helt
      · rw [bucket_set rest helt] at hd'
        split at hd'
        · omega
        · obtain ⟨c, hc, hdc⟩ := hq.below d' hd'
          rw [hd] at hc
          cases hc
          by_contra hlt
          exact hd' (hbetween d' (by omega) hdc)
    · rw [hpop] at h
      cases h
      refine ⟨fun c hc => (by cases hc), fun d' hd' => ?_⟩
      obtain ⟨c, hc, hdc⟩ := hq.below d' hd'
      rw [hd] at hc
      cases hc
      exact absurd (hnone d' hdc) hd'

end DepthQueue

end MicroSsa
