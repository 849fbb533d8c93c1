import MicroSsa.Graph.Dominators
/-!
# Trees of immediate-dominator pointers

During the iteration of `BlockGraph.immediateDominators` the array `idom` holds, for every block
processed so far, a pointer to its current guess of an immediate dominator; the entry points to
itself. `BlockGraph.Ancestor idom a b` says that following the pointers up from `b` reaches `a`:
the set of such `a` is the **chain** of `b`, the guess of its dominator set.

`BlockGraph.IdomTree` collects what makes the pointers a tree rooted at the entry: pointers go to
processed blocks of smaller reverse-postorder number (`BlockGraph.rank`), except the entry's,
which points to itself. Under it:

* `intersect_spec` — `intersect` of two processed blocks is their nearest common ancestor: its
  chain is the intersection of theirs;
* `meetOfPreds_spec` — folding `intersect` over the processed predecessors of a block gives the
  block whose chain is the intersection of all their chains;
* `ancestor_set_iff_of_below` — how chains change when one block's pointer is moved.
-/

namespace MicroSsa

namespace BlockGraph

/-- The reverse-postorder number of a block, as the iteration reads it. -/
def rank (rpoNum : Array Nat) (v : Nat) : Nat := rpoNum[v]?.getD 0

/-- `Ancestor idom a b`: following the pointers of `idom` up from `b` reaches `a`. -/
inductive Ancestor (idom : Array (Option Nat)) : Nat → Nat → Prop
  | refl (a : Nat) : Ancestor idom a a
  | up {a b c : Nat} : idom[b]?.join = some c → Ancestor idom a c → Ancestor idom a b

/-- The pointers form a tree rooted at the entry `e`, ordered by reverse postorder. -/
structure IdomTree (idom : Array (Option Nat)) (rpoNum : Array Nat) (e : Nat) : Prop where
  entry : idom[e]?.join = some e
  entry_min : ∀ b, rank rpoNum e ≤ rank rpoNum b
  rank_lt : ∀ {b c : Nat}, b ≠ e → idom[b]?.join = some c → rank rpoNum c < rank rpoNum b
  target : ∀ {b c : Nat}, idom[b]?.join = some c → (idom[c]?.join).isSome
  inj : ∀ {a b : Nat}, (idom[a]?.join).isSome → (idom[b]?.join).isSome →
    rank rpoNum a = rank rpoNum b → a = b

variable {idom : Array (Option Nat)} {rpoNum : Array Nat} {e : Nat}

namespace Ancestor

theorem trans {a b c : Nat} (h₁ : Ancestor idom a b) (h₂ : Ancestor idom b c) :
    Ancestor idom a c := by
  induction h₂ with
  | refl => exact h₁
  | up hc _ ih => exact .up hc ih

/-- One step up from a block is an ancestor of it. -/
theorem parent {b c : Nat} (h : idom[b]?.join = some c) : Ancestor idom c b :=
  .up h (.refl c)

/-- A strict ancestor of `b` is an ancestor of the block `b` points to. -/
theorem of_up {a b c : Nat} (h : Ancestor idom a b) (hab : a ≠ b) (hc : idom[b]?.join = some c) :
    Ancestor idom a c := by
  cases h with
  | refl => exact absurd rfl hab
  | up hc' h => rw [hc] at hc'; cases hc'; exact h

/-- The ancestors of a block with a pointer: the block, and the ancestors of its pointer. -/
theorem iff_up {a b c : Nat} (hc : idom[b]?.join = some c) :
    Ancestor idom a b ↔ a = b ∨ Ancestor idom a c := by
  constructor
  · intro h
    by_cases hab : a = b
    · exact Or.inl hab
    · exact Or.inr (h.of_up hab hc)
  · rintro (rfl | h)
    · exact .refl a
    · exact .up hc h

/-- Ancestors of a processed block are processed. -/
theorem isSome (ht : IdomTree idom rpoNum e) {a b : Nat} (h : Ancestor idom a b)
    (hb : (idom[b]?.join).isSome) : (idom[a]?.join).isSome := by
  induction h with
  | refl => exact hb
  | up hc _ ih => exact ih (ht.target hc)

theorem rank_le (ht : IdomTree idom rpoNum e) {a b : Nat} (h : Ancestor idom a b) :
    rank rpoNum a ≤ rank rpoNum b ∧ (a ≠ b → rank rpoNum a < rank rpoNum b) := by
  induction h with
  | refl => exact ⟨Nat.le_refl _, fun h => absurd rfl h⟩
  | @up b c hc _ ih =>
    by_cases hb : b = e
    · subst hb
      rw [ht.entry] at hc
      cases hc
      exact ih
    · have := ht.rank_lt hb hc
      exact ⟨by omega, fun _ => by omega⟩

theorem antisymm (ht : IdomTree idom rpoNum e) {a b : Nat} (h₁ : Ancestor idom a b)
    (h₂ : Ancestor idom b a) : a = b := by
  refine Classical.byContradiction fun hne => ?_
  have := (h₁.rank_le ht).2 hne
  have := (h₂.rank_le ht).1
  omega

/-- The ancestors of a block lie on one chain. -/
theorem total {a b v : Nat} (ha : Ancestor idom a v) (hb : Ancestor idom b v) :
    Ancestor idom a b ∨ Ancestor idom b a := by
  induction ha with
  | refl => exact Or.inr hb
  | @up v c hc hac ih =>
    cases hb with
    | refl => exact Or.inl (.up hc hac)
    | up hc' hbc =>
      rw [hc] at hc'
      cases hc'
      exact ih hbc

/-- Only the entry is an ancestor of the entry. -/
theorem eq_of_entry (ht : IdomTree idom rpoNum e) {a : Nat} (h : Ancestor idom a e) : a = e := by
  have hle := (h.rank_le ht).1
  exact ht.inj (h.isSome ht (by simp [ht.entry])) (by simp [ht.entry])
    (Nat.le_antisymm hle (ht.entry_min a))

end Ancestor

/-! ## Meeting two chains -/

/-- **`intersect` finds the nearest common ancestor.** Walking up from whichever of the two
blocks is later in reverse postorder stops at the block whose chain is the intersection of the
two chains, provided the fuel exceeds the sum of their numbers. -/
theorem intersect_spec (ht : IdomTree idom rpoNum e) :
    ∀ (fuel a b : Nat), (idom[a]?.join).isSome → (idom[b]?.join).isSome →
      rank rpoNum a + rank rpoNum b < fuel →
      (idom[intersect idom rpoNum fuel a b]?.join).isSome ∧
      ∀ x, Ancestor idom x (intersect idom rpoNum fuel a b) ↔
        Ancestor idom x a ∧ Ancestor idom x b := by
  intro fuel
  induction fuel with
  | zero => intro _ _ _ _ h; omega
  | succ fuel ih =>
    intro a b ha hb hfuel
    simp only [intersect]
    by_cases hab : a = b
    · subst hab
      simp only [if_true]
      exact ⟨ha, fun x => and_self_iff.symm⟩
    · simp only [hab, if_false]
      by_cases hlt : rank rpoNum b < rank rpoNum a
      · -- `a` is later: it is no ancestor of `b`, so the walk moves up from `a`
        have hae : a ≠ e := fun h => by have := ht.entry_min b; subst h; omega
        obtain ⟨d, hd⟩ := Option.isSome_iff_exists.mp ha
        have hdlt := ht.rank_lt hae hd
        have hlt' : rpoNum[b]?.getD 0 < rpoNum[a]?.getD 0 := hlt
        simp only [hlt', if_true, hd]
        obtain ⟨hres, hanc⟩ := ih d b (ht.target hd) hb (by omega)
        refine ⟨hres, fun x => (hanc x).trans ⟨fun ⟨hxd, hxb⟩ => ⟨.up hd hxd, hxb⟩, ?_⟩⟩
        rintro ⟨hxa, hxb⟩
        refine ⟨hxa.of_up (fun hxa' => ?_) hd, hxb⟩
        subst hxa'
        have := (hxb.rank_le ht).1
        omega
      · -- `b` is later
        have hne : rank rpoNum a ≠ rank rpoNum b := fun h => hab (ht.inj ha hb h)
        have hbe : b ≠ e := fun h => by have := ht.entry_min a; subst h; omega
        obtain ⟨d, hd⟩ := Option.isSome_iff_exists.mp hb
        have hdlt := ht.rank_lt hbe hd
        have hlt' : ¬rpoNum[b]?.getD 0 < rpoNum[a]?.getD 0 := hlt
        simp only [hlt', if_false, hd]
        obtain ⟨hres, hanc⟩ := ih a d ha (ht.target hd) (by omega)
        refine ⟨hres, fun x => (hanc x).trans ⟨fun ⟨hxa, hxd⟩ => ⟨hxa, .up hd hxd⟩, ?_⟩⟩
        rintro ⟨hxa, hxb⟩
        refine ⟨hxa, hxb.of_up (fun hxb' => ?_) hd⟩
        subst hxb'
        have := (hxa.rank_le ht).1
        omega

/-- The meeting point of the chains of the processed blocks of `ps`, as one pass computes it. -/
def meetOfPreds (idom : Array (Option Nat)) (rpoNum : Array Nat) (fuel : Nat) (ps : List Nat) :
    Option Nat :=
  ps.foldl (fun (cur : Option Nat) p =>
    match idom[p]?.join with
    | none => cur
    | some _ =>
      match cur with
      | none => some p
      | some c => some (intersect idom rpoNum fuel p c)) none

/-- Folding `intersect` over a list: from a processed block `c`, the result is processed and its
chain is the chain of `c` cut down to what every processed block of the list shares. -/
theorem foldl_meet_spec (ht : IdomTree idom rpoNum e) {fuel : Nat}
    (hfuel : ∀ a b, (idom[a]?.join).isSome → (idom[b]?.join).isSome →
      rank rpoNum a + rank rpoNum b < fuel) :
    ∀ (ps : List Nat) (c : Nat), (idom[c]?.join).isSome →
      ∃ m, ps.foldl (fun (cur : Option Nat) p =>
          match idom[p]?.join with
          | none => cur
          | some _ =>
            match cur with
            | none => some p
            | some c => some (intersect idom rpoNum fuel p c)) (some c) = some m ∧
        (idom[m]?.join).isSome ∧
        ∀ x, Ancestor idom x m ↔
          Ancestor idom x c ∧ ∀ p ∈ ps, (idom[p]?.join).isSome → Ancestor idom x p := by
  intro ps
  induction ps with
  | nil => intro c hc; exact ⟨c, rfl, hc, by simp⟩
  | cons p ps ih =>
    intro c hc
    cases hp : idom[p]?.join with
    | none =>
      obtain ⟨m, hm, hms, hanc⟩ := ih c hc
      refine ⟨m, by simpa [hp] using hm, hms, fun x => (hanc x).trans ?_⟩
      simp [hp]
    | some d =>
      have hps : (idom[p]?.join).isSome := by simp [hp]
      obtain ⟨hi, hianc⟩ := intersect_spec ht fuel p c hps hc (hfuel p c hps hc)
      obtain ⟨m, hm, hms, hanc⟩ := ih _ hi
      refine ⟨m, by simpa [hp] using hm, hms, fun x => (hanc x).trans ?_⟩
      rw [hianc x]
      simp only [List.mem_cons, forall_eq_or_imp, hps, forall_const]
      exact ⟨fun ⟨⟨h₁, h₂⟩, h₃⟩ => ⟨h₂, h₁, h₃⟩, fun ⟨h₂, h₁, h₃⟩ => ⟨⟨h₁, h₂⟩, h₃⟩⟩

/-- **The meet of a block's predecessors.** When one block of `ps` is processed, `meetOfPreds`
gives a processed block whose chain is exactly what the chains of all processed blocks of `ps`
share. -/
theorem meetOfPreds_spec (ht : IdomTree idom rpoNum e) {fuel : Nat}
    (hfuel : ∀ a b, (idom[a]?.join).isSome → (idom[b]?.join).isSome →
      rank rpoNum a + rank rpoNum b < fuel)
    {ps : List Nat} (hex : ∃ p ∈ ps, (idom[p]?.join).isSome) :
    ∃ m, meetOfPreds idom rpoNum fuel ps = some m ∧ (idom[m]?.join).isSome ∧
      ∀ x, Ancestor idom x m ↔ ∀ p ∈ ps, (idom[p]?.join).isSome → Ancestor idom x p := by
  unfold meetOfPreds
  induction ps with
  | nil => simp at hex
  | cons p ps ih =>
    cases hp : idom[p]?.join with
    | none =>
      have hex' : ∃ q ∈ ps, (idom[q]?.join).isSome := by
        obtain ⟨q, hq, hqs⟩ := hex
        rcases List.mem_cons.mp hq with rfl | hq
        · simp [hp] at hqs
        · exact ⟨q, hq, hqs⟩
      obtain ⟨m, hm, hms, hanc⟩ := ih hex'
      refine ⟨m, by simpa [hp] using hm, hms, fun x => (hanc x).trans ?_⟩
      simp [hp]
    | some d =>
      have hps : (idom[p]?.join).isSome := by simp [hp]
      obtain ⟨m, hm, hms, hanc⟩ := foldl_meet_spec ht hfuel ps p hps
      refine ⟨m, by simpa [hp] using hm, hms, fun x => (hanc x).trans ?_⟩
      simp only [List.mem_cons, forall_eq_or_imp, hps, forall_const]

/-! ## Moving one pointer -/

section SetPointer

variable {b n : Nat}

theorem join_getElem_set (hb : b < idom.size) (w : Nat) :
    (idom.set! b (some n))[w]?.join = if b = w then some n else idom[w]?.join := by
  by_cases hw : b = w
  · subst hw; simp [hb]
  · simp [hw]

/-- After the move, the processed blocks are `b` and those processed before. -/
theorem isSome_set (hb : b < idom.size) (w : Nat) :
    ((idom.set! b (some n))[w]?.join).isSome ↔ b = w ∨ (idom[w]?.join).isSome := by
  rw [join_getElem_set hb]
  by_cases hw : b = w <;> simp [hw]

/-- Off the blocks below `b`, moving the pointer of `b` changes no chain. -/
theorem Ancestor.set_of_not (hb : b < idom.size) {x v : Nat} (hbv : ¬Ancestor idom b v)
    (hxv : Ancestor idom x v) : Ancestor (idom.set! b (some n)) x v := by
  induction hxv with
  | refl => exact .refl _
  | @up v c hc _ ih =>
    have hvb : b ≠ v := fun h => hbv (h ▸ .refl _)
    exact .up (by rw [join_getElem_set hb, if_neg hvb, hc]) (ih fun hbc => hbv (.up hc hbc))

/-- `b` stays an ancestor of the blocks below it. -/
theorem Ancestor.set_self (hb : b < idom.size) {v : Nat} (hbv : Ancestor idom b v) :
    Ancestor (idom.set! b (some n)) b v := by
  induction hbv with
  | refl => exact .refl _
  | @up v c hc _ ih =>
    by_cases hvb : b = v
    · subst hvb; exact .refl _
    · exact .up (by rw [join_getElem_set hb, if_neg hvb, hc]) ih

/-- The stretch of a chain from a block up to `b` is kept. -/
theorem Ancestor.set_segment (ht : IdomTree idom rpoNum e) (hb : b < idom.size) {x v : Nat}
    (hxv : Ancestor idom x v) (hbx : Ancestor idom b x) :
    Ancestor (idom.set! b (some n)) x v := by
  induction hxv with
  | refl => exact .refl _
  | @up v c hc hxc ih =>
    by_cases hvb : b = v
    · subst hvb
      obtain rfl : x = b := Ancestor.antisymm ht (.up hc hxc) hbx
      exact .refl _
    · exact .up (by rw [join_getElem_set hb, if_neg hvb, hc]) ih

/-- After the move, a chain either avoids `b` and is unchanged, or runs as before up to `b` and
then along the chain of `n`. -/
theorem Ancestor.of_set (hb : b < idom.size) (hn : ¬Ancestor idom b n) {x v : Nat}
    (h : Ancestor (idom.set! b (some n)) x v) :
    (Ancestor idom b v ∧ ((Ancestor idom x v ∧ Ancestor idom b x) ∨ Ancestor idom x n)) ∨
      (¬Ancestor idom b v ∧ Ancestor idom x v) := by
  induction h with
  | refl =>
    by_cases hbx : Ancestor idom b x
    · exact Or.inl ⟨hbx, Or.inl ⟨.refl _, hbx⟩⟩
    · exact Or.inr ⟨hbx, .refl _⟩
  | @up v c hc _ ih =>
    rw [join_getElem_set hb] at hc
    by_cases hvb : b = v
    · -- the moved pointer: the rest of the chain is that of `n`, which avoids `b`
      subst hvb
      rw [if_pos rfl] at hc
      cases hc
      refine Or.inl ⟨.refl _, Or.inr ?_⟩
      rcases ih with ⟨hbn, _⟩ | ⟨_, hxn⟩
      · exact absurd hbn hn
      · exact hxn
    · rw [if_neg hvb] at hc
      rcases ih with ⟨hbc, hx⟩ | ⟨hbc, hxc⟩
      · exact Or.inl ⟨.up hc hbc, hx.imp_left fun ⟨h₁, h₂⟩ => ⟨.up hc h₁, h₂⟩⟩
      · exact Or.inr ⟨fun hbv => hbc (hbv.of_up hvb hc), .up hc hxc⟩

/-- Moving the pointer of `b` keeps the chains of the blocks not below `b`. -/
theorem ancestor_set_iff_of_not (hb : b < idom.size) (hn : ¬Ancestor idom b n) {x v : Nat}
    (hbv : ¬Ancestor idom b v) : Ancestor (idom.set! b (some n)) x v ↔ Ancestor idom x v := by
  refine ⟨fun h => ?_, Ancestor.set_of_not hb hbv⟩
  rcases Ancestor.of_set hb hn h with ⟨hbv', _⟩ | ⟨_, hxv⟩
  · exact absurd hbv' hbv
  · exact hxv

/-- **Moving the pointer of `b` to `n`**, where `n` is not below `b`: the chain of a block below
`b` keeps its stretch up to `b` and continues with the chain of `n`. -/
theorem ancestor_set_iff_of_below (ht : IdomTree idom rpoNum e) (hb : b < idom.size)
    (hn : ¬Ancestor idom b n) {x v : Nat} (hbv : Ancestor idom b v) :
    Ancestor (idom.set! b (some n)) x v ↔
      (Ancestor idom x v ∧ Ancestor idom b x) ∨ Ancestor idom x n := by
  constructor
  · intro h
    rcases Ancestor.of_set hb hn h with ⟨_, hx⟩ | ⟨hbv', _⟩
    · exact hx
    · exact absurd hbv hbv'
  · rintro (⟨hxv, hbx⟩ | hxn)
    · exact Ancestor.set_segment ht hb hxv hbx
    · have hxb : Ancestor (idom.set! b (some n)) x b :=
        .up (by rw [join_getElem_set hb, if_pos rfl]) (Ancestor.set_of_not hb hn hxn)
      exact hxb.trans (Ancestor.set_self hb hbv)

end SetPointer

end BlockGraph

end MicroSsa
