import MicroSsa.Proofs.Graph.IdomTree
import MicroSsa.Proofs.Graph.Paths
import Mathlib
/-!
# The iterative computation of immediate dominators

`BlockGraph.immediateDominators` visits the blocks after the entry in reverse postorder, pass
after pass, and points each block at the meeting point of the chains of its processed
predecessors, until a pass changes nothing. This module proves that it computes the immediate
dominators.

The order of visit is described by `Numbering`: the entry first, every reachable block once, and
each later block with a predecessor `par v` earlier in the order (its parent in the depth-first
spanning tree, `TreeAnc`). `PassInv` is the invariant of a pass split at the block it is at:

* pointers go strictly up the spanning tree (`ptr_tree`), so the pointers form a tree ordered by
  reverse-postorder number (`PassInv.idomTree`);
* every dominator of a processed block lies on its chain (`dom`);
* what the chains of a block's processed predecessors share lies above its pointer (`meet`):
  a new pointer is never below the old one, so the chains only shrink and the measure
  `potential` drops at every change (`potential_set_lt`);
* the pointer of a block visited in this pass lies above its tree parent, and for the blocks
  still to visit the part of their chain not yet visited lies above theirs (`done_ptr`,
  `todo_ptr`); these keep `meet` through the updates of blocks above.

`PassInv.step` is the step lemma of one block, `PassInv.pass` the run lemma of a pass and
`idomLoop_spec` that of the loop; at the pass that changes nothing the chains are exactly the
dominator sets (`ancestor_iff_dominates`), and `immediateDominators_isIdom` reads off the
immediate dominators.
-/

namespace MicroSsa

namespace BlockGraph

/-! ## The order of visit -/

/-- `TreeAnc par e a b`: `a` is reached from `b` by following the spanning-tree parent `par`,
which is not followed from the entry `e`. -/
inductive TreeAnc (par : Nat → Nat) (e : Nat) : Nat → Nat → Prop
  | refl (a : Nat) : TreeAnc par e a a
  | up {a b : Nat} : b ≠ e → TreeAnc par e a (par b) → TreeAnc par e a b

/-- The order the passes visit blocks in: the entry `e`, then `rest`; every reachable block
once, numbered by `rpoNum` with its position, and each block after the entry with a
predecessor `par v` earlier in the order. -/
structure Numbering (g : BlockGraph) (e : Nat) (rest : List Nat) (rpoNum : Array Nat)
    (par : Nat → Nat) : Prop where
  nodup : (e :: rest).Nodup
  mem_iff : ∀ v, v ∈ e :: rest ↔ g.Reaches e v
  lt_size : ∀ v ∈ e :: rest, v < g.size
  length_le : rest.length + 1 ≤ g.size
  rank_eq : ∀ v ∈ e :: rest, rank rpoNum v = (e :: rest).idxOf v
  par_pred : ∀ v ∈ rest, par v ∈ g.preds v
  par_mem : ∀ v ∈ rest, par v ∈ e :: rest
  par_lt : ∀ v ∈ rest, rank rpoNum (par v) < rank rpoNum v

variable {g : BlockGraph} {e : Nat} {rest : List Nat} {rpoNum : Array Nat} {par : Nat → Nat}

namespace Numbering

theorem rank_entry (hn : Numbering g e rest rpoNum par) : rank rpoNum e = 0 := by
  rw [hn.rank_eq e List.mem_cons_self, List.idxOf_cons_self]

theorem ne_entry (hn : Numbering g e rest rpoNum par) {v : Nat} (hv : v ∈ rest) : v ≠ e := by
  rintro rfl
  exact (List.nodup_cons.mp hn.nodup).1 hv

theorem mem_rest {v : Nat} (hv : v ∈ e :: rest) (hve : v ≠ e) : v ∈ rest :=
  (List.mem_cons.mp hv).resolve_left hve

theorem rank_inj (hn : Numbering g e rest rpoNum par) {a b : Nat} (ha : a ∈ e :: rest)
    (hb : b ∈ e :: rest) (h : rank rpoNum a = rank rpoNum b) : a = b := by
  rw [hn.rank_eq a ha, hn.rank_eq b hb] at h
  exact (List.idxOf_inj ha).mp h

theorem rank_lt_length (hn : Numbering g e rest rpoNum par) {v : Nat} (hv : v ∈ e :: rest) :
    rank rpoNum v < rest.length + 1 := by
  rw [hn.rank_eq v hv]
  exact List.idxOf_lt_length_of_mem hv

/-- Splitting the order at `b`: the blocks numbered below `b` are the entry and the blocks
before `b`. -/
theorem rank_lt_iff (hn : Numbering g e rest rpoNum par) {done todo : List Nat} {b w : Nat}
    (hsplit : rest = done ++ b :: todo) (hw : w ∈ e :: rest) :
    rank rpoNum w < rank rpoNum b ↔ w ∈ e :: done := by
  have hb : b ∈ e :: rest := by simp [hsplit]
  have hl : e :: rest = (e :: done) ++ (b :: todo) := by simp [hsplit]
  have hbd : b ∉ e :: done := by
    intro hbd
    have hnd := hn.nodup
    rw [hl] at hnd
    exact (List.nodup_append.mp hnd).2.2 b hbd b List.mem_cons_self rfl
  rw [hn.rank_eq w hw, hn.rank_eq b hb, hl, List.idxOf_append, List.idxOf_append, if_neg hbd,
    List.idxOf_cons_self]
  by_cases hwd : w ∈ e :: done
  · have := List.idxOf_lt_length_of_mem hwd
    simp only [hwd, if_true, iff_true]
    omega
  · simp only [hwd, if_false, iff_false]
    omega

end Numbering

namespace TreeAnc

theorem trans {a b c : Nat} (h₁ : TreeAnc par e a b) (h₂ : TreeAnc par e b c) :
    TreeAnc par e a c := by
  induction h₂ with
  | refl => exact h₁
  | up hc _ ih => exact .up hc ih

theorem mem (hn : Numbering g e rest rpoNum par) {a b : Nat} (h : TreeAnc par e a b)
    (hb : b ∈ e :: rest) : a ∈ e :: rest := by
  induction h with
  | refl => exact hb
  | up hbe _ ih => exact ih (hn.par_mem _ (Numbering.mem_rest hb hbe))

theorem rank_le (hn : Numbering g e rest rpoNum par) {a b : Nat} (h : TreeAnc par e a b)
    (hb : b ∈ e :: rest) :
    rank rpoNum a ≤ rank rpoNum b ∧ (a ≠ b → rank rpoNum a < rank rpoNum b) := by
  induction h with
  | refl => exact ⟨Nat.le_refl _, fun h => absurd rfl h⟩
  | @up b hbe _ ih =>
    have hbr := Numbering.mem_rest hb hbe
    have hlt := hn.par_lt b hbr
    have hle := (ih (hn.par_mem b hbr)).1
    exact ⟨by omega, fun _ => by omega⟩

theorem antisymm (hn : Numbering g e rest rpoNum par) {a b : Nat} (h₁ : TreeAnc par e a b)
    (h₂ : TreeAnc par e b a) (hb : b ∈ e :: rest) : a = b := by
  have ha := h₁.mem hn hb
  exact hn.rank_inj ha hb (Nat.le_antisymm (h₁.rank_le hn hb).1 (h₂.rank_le hn ha).1)

/-- A walk to `b` extends down the spanning tree to any block `c` below `b`, through blocks
below `b` only. -/
theorem extend_walk (hg : g.Wf) (hn : Numbering g e rest rpoNum par) {b c : Nat}
    (h : TreeAnc par e b c) (hc : c ∈ e :: rest) {p : List Nat} (hp : g.Walk e b p) :
    ∃ q, g.Walk e c q ∧ ∀ y ∈ q, y ∈ p ∨ TreeAnc par e b y := by
  induction h with
  | refl => exact ⟨p, hp, fun y hy => Or.inl hy⟩
  | @up c hce hpar ih =>
    have hcr := Numbering.mem_rest hc hce
    obtain ⟨q, hq, hqy⟩ := ih (hn.par_mem c hcr)
    have hedge : c ∈ g.succs (par c) := hg.mem_preds.mp (hn.par_pred c hcr)
    refine ⟨c :: q, hq.step hedge, fun y hy => ?_⟩
    rcases List.mem_cons.mp hy with rfl | hy
    · exact Or.inr (.up hce hpar)
    · exact hqy y hy

end TreeAnc

/-- **Dominance passes up the spanning tree.** A block `x` strictly above `b` in the spanning
tree that dominates a block below `b` dominates `b`: a walk to `b` avoiding `x` would extend
down the tree, still avoiding `x`. -/
theorem dominates_of_treeAnc (hg : g.Wf) (hn : Numbering g e rest rpoNum par) {x b c : Nat}
    (hxb : TreeAnc par e x b) (hne : x ≠ b) (hbc : TreeAnc par e b c) (hc : c ∈ e :: rest)
    (hdom : g.Dominates e x c) : g.Dominates e x b := by
  intro p hp
  obtain ⟨q, hq, hqy⟩ := hbc.extend_walk hg hn hc hp
  rcases hqy x (hdom q hq) with hx | hbx
  · exact hx
  · exact absurd (hxb.antisymm hn hbx (hbc.mem hn hc)) hne

/-! ## The invariant of a pass -/

/-- The invariant of the passes, with `rest = done ++ todo` split at the block the current pass
is at. A block is *processed* once it has a pointer. -/
structure PassInv (g : BlockGraph) (e : Nat) (rest : List Nat) (rpoNum : Array Nat)
    (par : Nat → Nat) (idom : Array (Option Nat)) (done todo : List Nat) : Prop where
  size_eq : idom.size = g.size
  entry : idom[e]?.join = some e
  mem : ∀ {v : Nat}, (idom[v]?.join).isSome → v ∈ e :: rest
  ptr_ne : ∀ {v d : Nat}, v ≠ e → idom[v]?.join = some d → d ≠ v
  ptr_tree : ∀ {v d : Nat}, v ≠ e → idom[v]?.join = some d → TreeAnc par e d v
  ptr_some : ∀ {v d : Nat}, idom[v]?.join = some d → (idom[d]?.join).isSome
  par_some : ∀ {v : Nat}, v ≠ e → (idom[v]?.join).isSome → (idom[par v]?.join).isSome
  /-- every dominator of a processed block lies on its chain -/
  dom : ∀ {v x : Nat}, (idom[v]?.join).isSome → g.Dominates e x v → Ancestor idom x v
  /-- what the chains of a block's processed predecessors share lies above its pointer -/
  meet : ∀ {v d : Nat}, v ≠ e → idom[v]?.join = some d → ∀ x,
    (∀ p ∈ g.preds v, (idom[p]?.join).isSome → Ancestor idom x p) → Ancestor idom x d
  done_ptr : ∀ c ∈ done, ∃ d, idom[c]?.join = some d ∧ Ancestor idom d (par c)
  todo_ptr : ∀ c ∈ todo, ∀ {d : Nat}, idom[c]?.join = some d → ∀ w, Ancestor idom w d →
    w ∉ e :: done → Ancestor idom w (par c)

namespace PassInv

variable {idom : Array (Option Nat)} {done todo : List Nat}

theorem idomTree (hn : Numbering g e rest rpoNum par)
    (h : PassInv g e rest rpoNum par idom done todo) : IdomTree idom rpoNum e where
  entry := h.entry
  entry_min b := by rw [hn.rank_entry]; exact Nat.zero_le _
  rank_lt hb hc := ((h.ptr_tree hb hc).rank_le hn (h.mem (by simp [hc]))).2 (h.ptr_ne hb hc)
  target := h.ptr_some
  inj ha hb hab := hn.rank_inj (h.mem ha) (h.mem hb) hab

/-- Chains run up the spanning tree. -/
theorem treeAnc (h : PassInv g e rest rpoNum par idom done todo) {a b : Nat}
    (hab : Ancestor idom a b) (hb : (idom[b]?.join).isSome) : TreeAnc par e a b := by
  induction hab with
  | refl => exact .refl _
  | @up b c hc _ ih =>
    have hac := ih (h.ptr_some hc)
    by_cases hbe : b = e
    · subst hbe
      rw [h.entry] at hc
      cases hc
      exact hac
    · exact hac.trans (h.ptr_tree hbe hc)

/-- `intersect` runs with enough fuel on processed blocks. -/
theorem fuel_ok (hn : Numbering g e rest rpoNum par)
    (h : PassInv g e rest rpoNum par idom done todo) (a c : Nat) (ha : (idom[a]?.join).isSome)
    (hc : (idom[c]?.join).isSome) : rank rpoNum a + rank rpoNum c < 2 * g.size + 2 := by
  have := hn.rank_lt_length (h.mem ha)
  have := hn.rank_lt_length (h.mem hc)
  have := hn.length_le
  omega

/-- The entry and the blocks already visited in this pass are processed. -/
theorem some_of_mem (h : PassInv g e rest rpoNum par idom done todo) {w : Nat}
    (hw : w ∈ e :: done) : (idom[w]?.join).isSome := by
  rcases List.mem_cons.mp hw with rfl | hw
  · simp [h.entry]
  · obtain ⟨d, hd, _⟩ := h.done_ptr w hw
    simp [hd]

/-- At the end of a pass every block of the order is processed. -/
theorem some_of_end (h : PassInv g e rest rpoNum par idom rest []) {v : Nat}
    (hv : v ∈ e :: rest) : (idom[v]?.join).isSome :=
  h.some_of_mem hv

/-- From the end of a pass to the start of the next. -/
theorem restart (h : PassInv g e rest rpoNum par idom rest []) :
    PassInv g e rest rpoNum par idom [] rest where
  size_eq := h.size_eq
  entry := h.entry
  mem := h.mem
  ptr_ne := h.ptr_ne
  ptr_tree := h.ptr_tree
  ptr_some := h.ptr_some
  par_some := h.par_some
  dom := h.dom
  meet := h.meet
  done_ptr := by simp
  todo_ptr := by
    intro c hc d hd w hw _
    obtain ⟨d', hd', hanc⟩ := h.done_ptr c hc
    rw [hd] at hd'
    cases hd'
    exact hw.trans hanc

end PassInv

/-! ## One step of a pass -/

/-- One step of a pass: block `b` is pointed at the meet of its processed predecessors. -/
def idomStep (g : BlockGraph) (rpoNum : Array Nat) :
    Array (Option Nat) × Bool → Nat → Array (Option Nat) × Bool
  | (idom, changed), b =>
    match meetOfPreds idom rpoNum (2 * g.size + 2) (g.preds b) with
    | some d => if idom[b]?.join = some d then (idom, changed) else (idom.set! b (some d), true)
    | none => (idom, changed)

theorem idomPass_eq (g : BlockGraph) (rpoNum : Array Nat) (blocks : List Nat)
    (idom : Array (Option Nat)) :
    g.idomPass rpoNum blocks idom = blocks.foldl (idomStep g rpoNum) (idom, false) := rfl

/-- What a step can do: nothing when no predecessor is processed or the pointer is already the
meet, and otherwise move the pointer to the meet and record the change. -/
theorem idomStep_cases (g : BlockGraph) (rpoNum : Array Nat) (idom : Array (Option Nat)) (ch : Bool)
    (b : Nat) :
    (meetOfPreds idom rpoNum (2 * g.size + 2) (g.preds b) = none ∧
      idomStep g rpoNum (idom, ch) b = (idom, ch)) ∨
    (∃ m, meetOfPreds idom rpoNum (2 * g.size + 2) (g.preds b) = some m ∧
      idom[b]?.join = some m ∧ idomStep g rpoNum (idom, ch) b = (idom, ch)) ∨
    (∃ m, meetOfPreds idom rpoNum (2 * g.size + 2) (g.preds b) = some m ∧
      idom[b]?.join ≠ some m ∧ idomStep g rpoNum (idom, ch) b = (idom.set! b (some m), true)) := by
  cases hm : meetOfPreds idom rpoNum (2 * g.size + 2) (g.preds b) with
  | none => exact Or.inl ⟨rfl, by simp [idomStep, hm]⟩
  | some m =>
    by_cases hb : idom[b]?.join = some m
    · exact Or.inr (Or.inl ⟨m, rfl, hb, by simp [idomStep, hm, hb]⟩)
    · exact Or.inr (Or.inr ⟨m, rfl, hb, by simp [idomStep, hm, hb]⟩)

/-- Once a change is recorded, the rest of the pass keeps the record. -/
theorem foldl_idomStep_true (g : BlockGraph) (rpoNum : Array Nat) :
    ∀ (bs : List Nat) (idom : Array (Option Nat)), (bs.foldl (idomStep g rpoNum) (idom, true)).2 = true := by
  intro bs
  induction bs with
  | nil => intro _; rfl
  | cons b bs ih =>
    intro idom
    rcases idomStep_cases g rpoNum idom true b with
      ⟨_, hs⟩ | ⟨_, _, _, hs⟩ | ⟨_, _, _, hs⟩ <;>
    (rw [List.foldl_cons, hs]; exact ih _)

/-- A pass whose every step changes nothing ends where it started. -/
theorem foldl_idomStep_of_fixed (g : BlockGraph) (rpoNum : Array Nat) (idom : Array (Option Nat)) :
    ∀ bs : List Nat, (∀ b ∈ bs, idomStep g rpoNum (idom, false) b = (idom, false)) →
      bs.foldl (idomStep g rpoNum) (idom, false) = (idom, false) := by
  intro bs
  induction bs with
  | nil => intro _; rfl
  | cons b bs ih =>
    intro h
    rw [List.foldl_cons, h b List.mem_cons_self]
    exact ih fun b' hb' => h b' (List.mem_cons_of_mem b hb')

/-- A pass that records no change changed no pointer. -/
theorem foldl_idomStep_false (g : BlockGraph) (rpoNum : Array Nat) :
    ∀ (bs : List Nat) (idom : Array (Option Nat)) (ch : Bool),
      (bs.foldl (idomStep g rpoNum) (idom, ch)).2 = false →
      ch = false ∧ ∀ b ∈ bs, idomStep g rpoNum (idom, false) b = (idom, false) := by
  intro bs
  induction bs with
  | nil => intro _ ch h; exact ⟨h, by simp⟩
  | cons b bs ih =>
    intro idom ch h
    rw [List.foldl_cons] at h
    rcases idomStep_cases g rpoNum idom ch b with
      ⟨_, hs⟩ | ⟨_, _, _, hs⟩ | ⟨_, _, _, hs⟩
    · rw [hs] at h
      obtain ⟨rfl, hbs⟩ := ih idom ch h
      exact ⟨rfl, by simpa [hs] using hbs⟩
    · rw [hs] at h
      obtain ⟨rfl, hbs⟩ := ih idom ch h
      exact ⟨rfl, by simpa [hs] using hbs⟩
    · rw [hs, foldl_idomStep_true] at h
      cases h

/-- The measure the passes lower: over the blocks after the entry, the number of the block's
pointer, or one more than the last number for a block without one. -/
def potential (rpoNum : Array Nat) (rest : List Nat) (idom : Array (Option Nat)) : Nat :=
  (rest.map fun v => (idom[v]?.join).elim (rest.length + 1) (rank rpoNum)).sum

/-! ## Moving the pointer of the block a pass is at -/

namespace PassInv

section AtBlock

variable {idom : Array (Option Nat)} {done todo : List Nat} {b m : Nat}

/-- The block a pass is at comes after the entry, is not yet visited, and is in range. -/
theorem at_block (hn : Numbering g e rest rpoNum par)
    (h : PassInv g e rest rpoNum par idom done (b :: todo)) (hsplit : rest = done ++ b :: todo) :
    b ∈ rest ∧ b ≠ e ∧ b ∉ e :: done ∧ b < idom.size := by
  have hb : b ∈ rest := by simp [hsplit]
  refine ⟨hb, hn.ne_entry hb, fun hbd => ?_, ?_⟩
  · have := (hn.rank_lt_iff hsplit (List.mem_cons_of_mem e hb)).mpr hbd
    omega
  · rw [h.size_eq]
    exact hn.lt_size b (List.mem_cons_of_mem e hb)

/-- The tree parent of the block a pass is at is processed: it comes earlier in the order. -/
theorem par_some_at (hn : Numbering g e rest rpoNum par)
    (h : PassInv g e rest rpoNum par idom done (b :: todo)) (hsplit : rest = done ++ b :: todo) :
    (idom[par b]?.join).isSome := by
  have hb := (h.at_block hn hsplit).1
  exact h.some_of_mem ((hn.rank_lt_iff hsplit (hn.par_mem b hb)).mp (hn.par_lt b hb))

/-- The tree parent of a block whose pointer is below `b` is below `b` too: by `done_ptr` for
the blocks visited in this pass, by `todo_ptr` for the others, `b` being not yet visited. -/
theorem below_par (hn : Numbering g e rest rpoNum par)
    (h : PassInv g e rest rpoNum par idom done (b :: todo)) (hsplit : rest = done ++ b :: todo)
    {v d : Nat} (hv : v ∈ rest) (hvb : b ≠ v) (hvd : idom[v]?.join = some d)
    (hbd : Ancestor idom b d) : Ancestor idom b (par v) := by
  have hbdone := (h.at_block hn hsplit).2.2.1
  rw [hsplit] at hv
  rcases List.mem_append.mp hv with hv | hv
  · obtain ⟨d', hd', hanc⟩ := h.done_ptr v hv
    rw [hvd] at hd'
    cases hd'
    exact hbd.trans hanc
  · have hvt : v ∈ todo := (List.mem_cons.mp hv).resolve_left (Ne.symm hvb)
    exact h.todo_ptr v (List.mem_cons_of_mem b hvt) hvd b hbd hbdone

/-- A block numbered below `b` is not below `b`. -/
theorem not_below_of_rank (hn : Numbering g e rest rpoNum par)
    (h : PassInv g e rest rpoNum par idom done todo) {w : Nat} (hw : rank rpoNum w < rank rpoNum b) : ¬Ancestor idom b w := by
  intro hbw
  have := (hbw.rank_le (h.idomTree hn)).1
  omega

section Meet

variable (hn : Numbering g e rest rpoNum par)
  (h : PassInv g e rest rpoNum par idom done (b :: todo)) (hsplit : rest = done ++ b :: todo)
  (hm : meetOfPreds idom rpoNum (2 * g.size + 2) (g.preds b) = some m)
include hn h hsplit hm

/-- The meet `m` at the block a pass is at is processed, and its chain is what the chains of
the processed predecessors share. -/
theorem meet_at : (idom[m]?.join).isSome ∧
    ∀ x, Ancestor idom x m ↔ ∀ p ∈ g.preds b, (idom[p]?.join).isSome → Ancestor idom x p := by
  have hb := (h.at_block hn hsplit).1
  obtain ⟨m', hm', hms, hanc⟩ := meetOfPreds_spec (h.idomTree hn) (h.fuel_ok hn)
    ⟨par b, hn.par_pred b hb, h.par_some_at hn hsplit⟩
  rw [hm] at hm'
  cases hm'
  exact ⟨hms, hanc⟩

theorem meet_par : Ancestor idom m (par b) := by
  have hb := (h.at_block hn hsplit).1
  exact ((meet_at hn h hsplit hm).2 m).mp (.refl m) (par b) (hn.par_pred b hb)
    (h.par_some_at hn hsplit)

/-- The meet comes before the block: it is numbered at most as its tree parent. -/
theorem meet_rank_lt : rank rpoNum m < rank rpoNum b := by
  have hb := (h.at_block hn hsplit).1
  have := ((meet_par hn h hsplit hm).rank_le (h.idomTree hn)).1
  have := hn.par_lt b hb
  omega

theorem not_below_meet : ¬Ancestor idom b m := by
  intro hbm
  have := (hbm.rank_le (h.idomTree hn)).1
  have := meet_rank_lt hn h hsplit hm
  omega

theorem meet_tree : TreeAnc par e m b ∧ m ≠ b := by
  obtain ⟨_, hbe, _, _⟩ := h.at_block hn hsplit
  have hmp := h.treeAnc (meet_par hn h hsplit hm) (h.par_some_at hn hsplit)
  refine ⟨.up hbe hmp, fun hmb => ?_⟩
  have := meet_rank_lt hn h hsplit hm
  rw [hmb] at this
  omega

/-- The new pointer is never below the old one: the meet lies above `b` whenever `b` is
processed, which it is as soon as some processed block is below it. -/
theorem meet_above {v : Nat} (hv : (idom[v]?.join).isSome) (hbv : Ancestor idom b v) :
    Ancestor idom m b := by
  obtain ⟨o, ho⟩ := Option.isSome_iff_exists.mp (hbv.isSome (h.idomTree hn) hv)
  have hmo := h.meet (h.at_block hn hsplit).2.1 ho m
    (((meet_at hn h hsplit hm).2 m).mp (.refl m))
  exact .up ho hmo

/-- **Chains only shrink** when the pointer of `b` moves to the meet. -/
theorem shrink {v x : Nat} (hv : (idom[v]?.join).isSome)
    (hx : Ancestor (idom.set! b (some m)) x v) : Ancestor idom x v := by
  have hlt := (h.at_block hn hsplit).2.2.2
  rcases Ancestor.of_set hlt (not_below_meet hn h hsplit hm) hx with
    ⟨hbv, ⟨hxv, _⟩ | hxm⟩ | ⟨_, hxv⟩
  · exact hxv
  · exact hxm.trans ((meet_above hn h hsplit hm hv hbv).trans hbv)
  · exact hxv

/-- A strict dominator of `b` lies on the chain of the meet: it dominates every predecessor. -/
theorem dom_meet (hg : g.Wf) {x : Nat} (hxb : x ≠ b) (hdom : g.Dominates e x b) :
    Ancestor idom x m :=
  ((meet_at hn h hsplit hm).2 x).mpr fun _ hp hps => h.dom hps (hdom.of_succ hxb (hg.mem_preds.mp hp))

/-- **Moving the pointer of the block a pass is at to the meet keeps the invariant.** -/
theorem set (hg : g.Wf) :
    PassInv g e rest rpoNum par (idom.set! b (some m)) (done ++ [b]) todo := by
  obtain ⟨hb, hbe, hbd, hlt⟩ := h.at_block hn hsplit
  have ht := h.idomTree hn
  have hnb := not_below_meet hn h hsplit hm
  obtain ⟨hms, hmanc⟩ := meet_at hn h hsplit hm
  have hptr : ∀ w, (idom.set! b (some m))[w]?.join = if b = w then some m else idom[w]?.join :=
    join_getElem_set hlt
  have hsome : ∀ {w}, (idom[w]?.join).isSome → ((idom.set! b (some m))[w]?.join).isSome :=
    fun hw => (isSome_set hlt _).mpr (Or.inr hw)
  -- the pointers of the blocks other than `b` are unchanged
  have hother : ∀ {v d}, b ≠ v → (idom.set! b (some m))[v]?.join = some d →
      idom[v]?.join = some d := by
    intro v d hvb hvd
    rwa [hptr, if_neg hvb] at hvd
  have hnew : ∀ {d}, (idom.set! b (some m))[b]?.join = some d → d = m := by
    intro d hd
    rw [hptr, if_pos rfl] at hd
    exact (Option.some.inj hd).symm
  have hbpar : ¬Ancestor idom b (par b) :=
    not_below_of_rank hn h (hn.par_lt b hb)
  refine
    { size_eq := by simp [h.size_eq]
      entry := by rw [hptr, if_neg hbe]; exact h.entry
      mem := ?_, ptr_ne := ?_, ptr_tree := ?_, ptr_some := ?_, par_some := ?_, dom := ?_
      meet := ?_, done_ptr := ?_, todo_ptr := ?_ }
  · intro v hv
    rcases (isSome_set hlt v).mp hv with rfl | hv
    · exact List.mem_cons_of_mem e hb
    · exact h.mem hv
  · intro v d hve hvd
    by_cases hvb : b = v
    · subst hvb
      rw [hnew hvd]
      exact (meet_tree hn h hsplit hm).2
    · exact h.ptr_ne hve (hother hvb hvd)
  · intro v d hve hvd
    by_cases hvb : b = v
    · subst hvb
      rw [hnew hvd]
      exact (meet_tree hn h hsplit hm).1
    · exact h.ptr_tree hve (hother hvb hvd)
  · intro v d hvd
    by_cases hvb : b = v
    · subst hvb
      rw [hnew hvd]
      exact hsome hms
    · exact hsome (h.ptr_some (hother hvb hvd))
  · intro v hve hv
    rcases (isSome_set hlt v).mp hv with rfl | hv
    · exact hsome (h.par_some_at hn hsplit)
    · exact hsome (h.par_some hve hv)
  · intro v x hv hdom
    by_cases hvb : b = v
    · subst hvb
      by_cases hxb : x = b
      · subst hxb
        exact .refl _
      · exact .up (by rw [hptr, if_pos rfl])
          (Ancestor.set_of_not hlt hnb (dom_meet hn h hsplit hm hg hxb hdom))
    · have hv' : (idom[v]?.join).isSome := ((isSome_set hlt v).mp hv).resolve_left hvb
      have hxv := h.dom hv' hdom
      by_cases hbv : Ancestor idom b v
      · refine (ancestor_set_iff_of_below ht hlt hnb hbv).mpr ?_
        rcases hxv.total hbv with hxb | hbx
        · -- `x` is above `b`, so it dominates `b` too and lies on the chain of the meet
          by_cases hxb' : x = b
          · subst hxb'
            exact Or.inl ⟨hxv, .refl _⟩
          · have hdomb := dominates_of_treeAnc hg hn (h.treeAnc hxb (hbv.isSome ht hv')) hxb'
              (h.treeAnc hbv hv') (h.mem hv') hdom
            exact Or.inr (dom_meet hn h hsplit hm hg hxb' hdomb)
        · exact Or.inl ⟨hxv, hbx⟩
      · exact (ancestor_set_iff_of_not hlt hnb hbv).mpr hxv
  · intro v d hve hvd x hx
    have hx' : ∀ p ∈ g.preds v, (idom[p]?.join).isSome → Ancestor idom x p :=
      fun p hp hps => shrink hn h hsplit hm hps (hx p hp (hsome hps))
    by_cases hvb : b = v
    · subst hvb
      rw [hnew hvd]
      exact Ancestor.set_of_not hlt hnb ((hmanc x).mpr hx')
    · have hvd' := hother hvb hvd
      have hxd := h.meet hve hvd' x hx'
      by_cases hbdv : Ancestor idom b d
      · -- the pointer of `v` is below `b`: so is its tree parent, which carries `x`
        have hvs : (idom[v]?.join).isSome := by simp [hvd']
        have hvr : v ∈ rest := Numbering.mem_rest (h.mem hvs) hve
        have hbp := below_par hn h hsplit hvr hvb hvd' hbdv
        have hxp := hx (par v) (hn.par_pred v hvr) (hsome (h.par_some hve hvs))
        rw [ancestor_set_iff_of_below ht hlt hnb hbp] at hxp
        rw [ancestor_set_iff_of_below ht hlt hnb hbdv]
        exact hxp.imp_left fun ⟨_, hbx⟩ => ⟨hxd, hbx⟩
      · exact (ancestor_set_iff_of_not hlt hnb hbdv).mpr hxd
  · intro c hc
    rcases List.mem_append.mp hc with hc | hc
    · obtain ⟨d, hd, hdp⟩ := h.done_ptr c hc
      have hcb : b ≠ c := fun hbc => hbd (hbc ▸ List.mem_cons_of_mem e hc)
      have hcr : c ∈ rest := by simp [hsplit, hc]
      -- the tree parent of `c` comes before `c`, which comes before `b`
      have hrank : rank rpoNum (par c) < rank rpoNum b := by
        have := (hn.rank_lt_iff hsplit (List.mem_cons_of_mem e hcr)).mpr
          (List.mem_cons_of_mem e hc)
        have := hn.par_lt c hcr
        omega
      refine ⟨d, by rw [hptr, if_neg hcb]; exact hd, ?_⟩
      exact (ancestor_set_iff_of_not hlt hnb (not_below_of_rank hn h hrank)).mpr hdp
    · obtain rfl : c = b := List.mem_singleton.mp hc
      exact ⟨m, by rw [hptr, if_pos rfl],
        (ancestor_set_iff_of_not hlt hnb hbpar).mpr (meet_par hn h hsplit hm)⟩
  · intro c hc d hd w hw hwn
    have hcb : b ≠ c := by
      rintro rfl
      have hnd := hn.nodup
      rw [hsplit] at hnd
      exact (List.nodup_cons.mp ((List.nodup_append.mp (List.nodup_cons.mp hnd).2).2.1)).1 hc
    have hd' := hother hcb hd
    have hwn' : w ∉ e :: done := fun hw' => hwn (by
      rcases List.mem_cons.mp hw' with rfl | hw'
      · exact List.mem_cons_self
      · exact List.mem_cons_of_mem _ (List.mem_append_left _ hw'))
    have hwb : w ≠ b := fun hwb => hwn (by simp [hwb])
    -- a processed `w` comes after `b`
    have hwrank : (idom[w]?.join).isSome → rank rpoNum b < rank rpoNum w := by
      intro hws
      have hwr := h.mem hws
      have h₁ := (hn.rank_lt_iff hsplit hwr).not.mpr hwn'
      have h₂ : rank rpoNum w ≠ rank rpoNum b := fun heq =>
        hwb (hn.rank_inj hwr (List.mem_cons_of_mem e hb) heq)
      omega
    have hds : (idom[d]?.join).isSome := h.ptr_some hd'
    by_cases hbdc : Ancestor idom b d
    · rw [ancestor_set_iff_of_below ht hlt hnb hbdc] at hw
      rcases hw with ⟨hwd, hbw⟩ | hwm
      · have hwp := h.todo_ptr c (List.mem_cons_of_mem b hc) hd' w hwd hwn'
        exact (ancestor_set_iff_of_below ht hlt hnb (hbw.trans hwp)).mpr (Or.inl ⟨hwp, hbw⟩)
      · have := (hwm.rank_le ht).1
        have := meet_rank_lt hn h hsplit hm
        have := hwrank (hwm.isSome ht hms)
        omega
    · rw [ancestor_set_iff_of_not hlt hnb hbdc] at hw
      have hwp := h.todo_ptr c (List.mem_cons_of_mem b hc) hd' w hw hwn'
      by_cases hbp : Ancestor idom b (par c)
      · refine (ancestor_set_iff_of_below ht hlt hnb hbp).mpr ?_
        rcases hwp.total hbp with hwb' | hbw
        · have := (hwb'.rank_le ht).1
          have := hwrank (hw.isSome ht hds)
          omega
        · exact Or.inl ⟨hwp, hbw⟩
      · exact (ancestor_set_iff_of_not hlt hnb hbp).mpr hwp

/-- A step that finds the pointer already at the meet keeps the invariant. -/
theorem keep (hbm : idom[b]?.join = some m) :
    PassInv g e rest rpoNum par idom (done ++ [b]) todo :=
  { h with
    done_ptr := by
      intro c hc
      rcases List.mem_append.mp hc with hc | hc
      · exact h.done_ptr c hc
      · obtain rfl : c = b := List.mem_singleton.mp hc
        exact ⟨m, hbm, meet_par hn h hsplit hm⟩
    todo_ptr := by
      intro c hc d hd w hw hwn
      refine h.todo_ptr c (List.mem_cons_of_mem b hc) hd w hw fun hw' => hwn ?_
      rcases List.mem_cons.mp hw' with rfl | hw'
      · exact List.mem_cons_self
      · exact List.mem_cons_of_mem _ (List.mem_append_left _ hw') }

/-- **A change lowers the potential**: the new pointer of `b` is numbered below the old one,
or `b` had none. -/
theorem potential_set_lt (hne : idom[b]?.join ≠ some m) :
    potential rpoNum rest (idom.set! b (some m)) < potential rpoNum rest idom := by
  obtain ⟨hb, hbe, _, hlt⟩ := h.at_block hn hsplit
  obtain ⟨hms, hmanc⟩ := meet_at hn h hsplit hm
  have hptr : ∀ w, (idom.set! b (some m))[w]?.join = if b = w then some m else idom[w]?.join :=
    join_getElem_set hlt
  have hdrop : rank rpoNum m < (idom[b]?.join).elim (rest.length + 1) (rank rpoNum) := by
    cases ho : idom[b]?.join with
    | none => exact hn.rank_lt_length (h.mem hms)
    | some o =>
      -- the old pointer lies below the meet, by `meet`
      have hmo : Ancestor idom m o := h.meet hbe ho m ((hmanc m).mp (.refl m))
      have hne' : m ≠ o := fun hmo' => hne (by rw [ho, hmo'])
      exact (hmo.rank_le (h.idomTree hn)).2 hne'
  unfold potential
  apply List.sum_lt_sum
  · intro v _
    rw [hptr]
    by_cases hv : b = v
    · subst hv
      simp only [if_true, Option.elim_some]
      omega
    · simp only [hv, if_false]
      exact Nat.le_refl _
  · refine ⟨b, hb, ?_⟩
    rw [hptr, if_pos rfl, Option.elim_some]
    exact hdrop

end Meet

/-- **The step lemma.** One step keeps the invariant with the split moved one block on; it
either changes nothing, or records a change and lowers the potential. -/
theorem step (hg : g.Wf) (hn : Numbering g e rest rpoNum par)
    (h : PassInv g e rest rpoNum par idom done (b :: todo)) (hsplit : rest = done ++ b :: todo)
    (ch : Bool) :
    PassInv g e rest rpoNum par (idomStep g rpoNum (idom, ch) b).1 (done ++ [b]) todo ∧
      (idomStep g rpoNum (idom, ch) b = (idom, ch) ∨
        ((idomStep g rpoNum (idom, ch) b).2 = true ∧
          potential rpoNum rest (idomStep g rpoNum (idom, ch) b).1 <
            potential rpoNum rest idom)) := by
  rcases idomStep_cases g rpoNum idom ch b with ⟨hm, _⟩ | ⟨m, hm, hbm, hs⟩ | ⟨m, hm, hbm, hs⟩
  · -- the tree parent is a processed predecessor, so the meet exists
    have hb := (h.at_block hn hsplit).1
    obtain ⟨_, hm', _⟩ := meetOfPreds_spec (h.idomTree hn) (h.fuel_ok hn)
      ⟨par b, hn.par_pred b hb, h.par_some_at hn hsplit⟩
    rw [hm] at hm'
    cases hm'
  · rw [hs]
    exact ⟨keep hn h hsplit hm hbm, Or.inl rfl⟩
  · rw [hs]
    exact ⟨set hn h hsplit hm hg, Or.inr ⟨rfl, potential_set_lt hn h hsplit hm hbm⟩⟩

end AtBlock

end PassInv

/-! ## A pass and the loop -/

namespace PassInv

/-- **The run lemma of a pass.** From a split of the order, the rest of the pass ends with the
invariant at the end of the order, having changed nothing or recorded a change and lowered the
potential. -/
theorem pass (hg : g.Wf) (hn : Numbering g e rest rpoNum par) :
    ∀ (todo done : List Nat) (idom : Array (Option Nat)) (ch : Bool),
      rest = done ++ todo → PassInv g e rest rpoNum par idom done todo →
      PassInv g e rest rpoNum par (todo.foldl (idomStep g rpoNum) (idom, ch)).1 rest [] ∧
        (todo.foldl (idomStep g rpoNum) (idom, ch) = (idom, ch) ∨
          ((todo.foldl (idomStep g rpoNum) (idom, ch)).2 = true ∧
            potential rpoNum rest (todo.foldl (idomStep g rpoNum) (idom, ch)).1 <
              potential rpoNum rest idom)) := by
  intro todo
  induction todo with
  | nil =>
    intro done idom ch hsplit h
    rw [List.append_nil] at hsplit
    subst hsplit
    exact ⟨h, Or.inl rfl⟩
  | cons b todo ih =>
    intro done idom ch hsplit h
    obtain ⟨h', hstep⟩ := h.step hg hn hsplit ch
    rw [List.foldl_cons]
    generalize idomStep g rpoNum (idom, ch) b = r at h' hstep ⊢
    obtain ⟨idom', ch'⟩ := r
    obtain ⟨hend, hrun⟩ := ih (done ++ [b]) idom' ch' (by simp [hsplit]) h'
    refine ⟨hend, ?_⟩
    rcases hstep with hs | ⟨hch, hpot⟩
    · obtain ⟨rfl, rfl⟩ := Prod.mk.inj hs
      exact hrun
    · right
      rcases hrun with hr | ⟨hr, hpot'⟩
      · rw [hr]
        exact ⟨hch, hpot⟩
      · exact ⟨hr, Nat.lt_trans hpot' hpot⟩

end PassInv

/-- **The run lemma of the loop.** With more fuel than the potential, the loop ends at a pass
that changes nothing, with the invariant at the end of the order. -/
theorem idomLoop_spec (hg : g.Wf) (hn : Numbering g e rest rpoNum par) :
    ∀ (fuel : Nat) (idom : Array (Option Nat)),
      PassInv g e rest rpoNum par idom [] rest → potential rpoNum rest idom < fuel →
      PassInv g e rest rpoNum par (g.idomLoop rpoNum rest fuel idom) rest [] ∧
        ∀ b ∈ rest, idomStep g rpoNum (g.idomLoop rpoNum rest fuel idom, false) b =
          (g.idomLoop rpoNum rest fuel idom, false) := by
  intro fuel
  induction fuel with
  | zero => intro _ _ h; omega
  | succ fuel ih =>
    intro idom h hpot
    have hloop : g.idomLoop rpoNum rest (fuel + 1) idom =
        if (rest.foldl (idomStep g rpoNum) (idom, false)).2 then
          g.idomLoop rpoNum rest fuel (rest.foldl (idomStep g rpoNum) (idom, false)).1
        else (rest.foldl (idomStep g rpoNum) (idom, false)).1 := rfl
    obtain ⟨hend, hrun⟩ := PassInv.pass hg hn rest [] idom false (by simp) h
    have hfix := foldl_idomStep_false g rpoNum rest idom false
    generalize rest.foldl (idomStep g rpoNum) (idom, false) = r at hloop hend hrun hfix
    obtain ⟨idom', ch⟩ := r
    rw [hloop]
    cases ch with
    | true =>
      have hlt : potential rpoNum rest idom' < potential rpoNum rest idom := by
        rcases hrun with hr | ⟨_, hlt⟩
        · cases hr
        · exact hlt
      exact ih idom' hend.restart (by omega)
    | false =>
      have hid : idom' = idom := by
        rcases hrun with hr | ⟨hr, _⟩
        · exact (Prod.mk.inj hr).1
        · cases hr
      subst hid
      exact ⟨hend, (hfix rfl).2⟩

/-! ## The start and the result -/

/-- The pointers before the first pass: only the entry, pointing to itself. -/
def startIdom (n e : Nat) : Array (Option Nat) := (Array.replicate n none).set! e (some e)

/-- The reverse-postorder numbers as `immediateDominators` builds them. -/
def rpoNumbering (g : BlockGraph) (rpo : List Nat) : Array Nat :=
  rpo.zipIdx.foldl (fun (a : Array Nat) (b, i) => a.set! b i) (Array.replicate g.size g.size)

theorem immediateDominators_cons (g : BlockGraph) (e : Nat) (rest : List Nat) :
    g.immediateDominators (e :: rest) =
      g.idomLoop (rpoNumbering g (e :: rest)) rest (g.size * g.size + 2) (startIdom g.size e) :=
  rfl

theorem join_startIdom {n e : Nat} (he : e < n) (v : Nat) :
    (startIdom n e)[v]?.join = if e = v then some e else none := by
  unfold startIdom
  rw [join_getElem_set (by simpa using he)]
  by_cases hv : e = v
  · simp [hv]
  · simp only [hv, if_false, Array.getElem?_replicate]
    split <;> rfl

/-- Before the first pass the invariant holds at the start of a pass. -/
theorem PassInv.start (hn : Numbering g e rest rpoNum par) :
    PassInv g e rest rpoNum par (startIdom g.size e) [] rest := by
  have hj := join_startIdom (hn.lt_size e List.mem_cons_self)
  -- no block but the entry has a pointer
  have hnone : ∀ {v}, v ≠ e → (startIdom g.size e)[v]?.join = none := fun hv => by
    rw [hj, if_neg (Ne.symm hv)]
  have honly : ∀ {v}, ((startIdom g.size e)[v]?.join).isSome → v = e := fun {v} hv =>
    Classical.byContradiction fun hve => by rw [hnone hve] at hv; cases hv
  exact
    { size_eq := by simp [startIdom]
      entry := by rw [hj, if_pos rfl]
      mem := fun hv => by rw [honly hv]; exact List.mem_cons_self
      ptr_ne := fun hve hvd => by rw [hnone hve] at hvd; cases hvd
      ptr_tree := fun hve hvd => by rw [hnone hve] at hvd; cases hvd
      ptr_some := fun {v d} hvd => by
        obtain rfl : v = e := honly (by simp [hvd])
        rw [hj, if_pos rfl] at hvd
        cases hvd
        simp [hj]
      par_some := fun hve hv => absurd (honly hv) hve
      dom := fun {v x} hv hdom => by
        obtain rfl : v = e := honly hv
        rw [eq_of_dominates_entry hdom]
        exact .refl _
      meet := fun hve hvd => by rw [hnone hve] at hvd; cases hvd
      done_ptr := by simp
      todo_ptr := fun c hc d hd => by rw [hnone (hn.ne_entry hc)] at hd; cases hd }

/-- The loop has fuel to spare: at the start the potential is below `size * size + 2`. -/
theorem potential_start (hn : Numbering g e rest rpoNum par) :
    potential rpoNum rest (startIdom g.size e) < g.size * g.size + 2 := by
  have hj := join_startIdom (hn.lt_size e List.mem_cons_self)
  have hconst : ∀ v ∈ rest,
      ((startIdom g.size e)[v]?.join).elim (rest.length + 1) (rank rpoNum) = rest.length + 1 := by
    intro v hv
    rw [hj, if_neg (Ne.symm (hn.ne_entry hv))]
    rfl
  have hsum : potential rpoNum rest (startIdom g.size e) = rest.length * (rest.length + 1) := by
    unfold potential
    rw [List.map_congr_left hconst, List.map_const', List.sum_replicate_nat]
  have hle : rest.length * (rest.length + 1) ≤ g.size * g.size :=
    Nat.mul_le_mul (by have := hn.length_le; omega) hn.length_le
  omega

/-- Setting each block of a list to its position, counted from `k`. -/
theorem getElem?_foldl_set_zipIdx :
    ∀ (l : List Nat) (k : Nat) (arr : Array Nat), l.Nodup → (∀ v ∈ l, v < arr.size) → ∀ v,
      ((l.zipIdx k).foldl (fun (a : Array Nat) (b, i) => a.set! b i) arr)[v]? =
        if v ∈ l then some (k + l.idxOf v) else arr[v]? := by
  intro l
  induction l with
  | nil => intro k arr _ _ v; simp
  | cons x l ih =>
    intro k arr hnd hlt v
    obtain ⟨hx, hnd'⟩ := List.nodup_cons.mp hnd
    have hxs : x < arr.size := hlt x List.mem_cons_self
    simp only [List.zipIdx_cons, List.foldl_cons]
    rw [ih (k + 1) (arr.set! x k) hnd'
      (fun v hv => by simpa using hlt v (List.mem_cons_of_mem x hv)) v]
    by_cases hvx : v = x
    · subst hvx
      simp [hx, hxs]
    · by_cases hvl : v ∈ l
      · rw [if_pos hvl, if_pos (List.mem_cons_of_mem x hvl), List.idxOf_cons,
          beq_false_of_ne (Ne.symm hvx)]
        simp only [cond_false, Option.some.injEq]
        omega
      · simp [hvl, hvx, Ne.symm hvx]

theorem rank_rpoNumbering {rpo : List Nat} (hnd : rpo.Nodup) (hlt : ∀ v ∈ rpo, v < g.size)
    {v : Nat} (hv : v ∈ rpo) : rank (rpoNumbering g rpo) v = rpo.idxOf v := by
  unfold rank rpoNumbering
  rw [getElem?_foldl_set_zipIdx rpo 0 _ hnd (by simpa using hlt) v, if_pos hv]
  simp

/-- In a list without repeats, a block before another in the list has the smaller index. -/
theorem idxOf_lt_of_sublist {a b : Nat} :
    ∀ {l : List Nat}, [a, b].Sublist l → l.Nodup → l.idxOf a < l.idxOf b := by
  intro l
  induction l with
  | nil => intro h; exact absurd h (by simp)
  | cons x l ih =>
    intro h hnd
    obtain ⟨hx, hnd'⟩ := List.nodup_cons.mp hnd
    cases h with
    | cons _ h' =>
      have hax : x ≠ a := fun hxa => hx (hxa ▸ h'.subset (by simp))
      have hbx : x ≠ b := fun hxb => hx (hxb ▸ h'.subset (by simp))
      have := ih h' hnd'
      rw [List.idxOf_cons, List.idxOf_cons, beq_false_of_ne hax, beq_false_of_ne hbx]
      simp only [cond_false]
      omega
    | cons_cons _ h' =>
      -- here `x` is `a`
      have hab : a ≠ b := fun hab => hx (hab ▸ h'.subset (by simp))
      simp [hab]

/-- An order of visit as the depth-first search yields it: the entry, then `rest`; every block
reachable from the entry exactly once, each block after the entry after one of its
predecessors. -/
structure VisitOrder (g : BlockGraph) (e : Nat) (rest : List Nat) : Prop where
  entry_lt : e < g.size
  nodup : (e :: rest).Nodup
  mem_iff : ∀ v, v ∈ e :: rest ↔ g.Reaches e v
  pred_before : ∀ v ∈ rest, ∃ p, v ∈ g.succs p ∧ [p, v].Sublist (e :: rest)

/-- The blocks of an order of visit lie in the graph. -/
theorem VisitOrder.lt_size (hg : g.Wf) (ho : VisitOrder g e rest) {v : Nat} (hv : v ∈ e :: rest) :
    v < g.size :=
  Reaches.lt_size hg ho.entry_lt ((ho.mem_iff v).mp hv)

/-- An order of visit is no longer than the graph. -/
theorem VisitOrder.length_le (hg : g.Wf) (ho : VisitOrder g e rest) :
    (e :: rest).length ≤ g.size := by
  have hsub : e :: rest ⊆ List.range g.size := fun v hv => List.mem_range.mpr (ho.lt_size hg hv)
  simpa using ho.nodup.length_le_of_subset hsub

/-- An order of visit numbers the blocks as the passes need, with a predecessor before each
block as its tree parent. -/
theorem VisitOrder.numbering (hg : g.Wf) (ho : VisitOrder g e rest) :
    ∃ par, Numbering g e rest (rpoNumbering g (e :: rest)) par := by
  choose! par hpar using ho.pred_before
  have hlt : ∀ v ∈ e :: rest, v < g.size := fun v hv => ho.lt_size hg hv
  have hrank := fun {v} (hv : v ∈ e :: rest) => rank_rpoNumbering ho.nodup hlt hv
  have hpm : ∀ v ∈ rest, par v ∈ e :: rest := fun v hv => (hpar v hv).2.subset (by simp)
  refine ⟨par, ?_⟩
  exact
    { nodup := ho.nodup
      mem_iff := ho.mem_iff
      lt_size := hlt
      length_le := by simpa using ho.length_le hg
      rank_eq := fun v hv => hrank hv
      par_pred := fun v hv => hg.mem_preds.mpr (hpar v hv).1
      par_mem := hpm
      par_lt := fun v hv => by
        rw [hrank (hpm v hv), hrank (List.mem_cons_of_mem e hv)]
        exact idxOf_lt_of_sublist (hpar v hv).2 ho.nodup }

/-! ## The fixpoint -/

namespace PassInv

variable {idom : Array (Option Nat)}

/-- At a pass that changes nothing, the pointer of each block is the meet of its processed
predecessors. -/
theorem fix_meet (hn : Numbering g e rest rpoNum par)
    (h : PassInv g e rest rpoNum par idom rest [])
    (hfix : ∀ b ∈ rest, idomStep g rpoNum (idom, false) b = (idom, false)) {b : Nat}
    (hb : b ∈ rest) :
    ∃ m, idom[b]?.join = some m ∧
      ∀ x, Ancestor idom x m ↔ ∀ p ∈ g.preds b, (idom[p]?.join).isSome → Ancestor idom x p := by
  obtain ⟨m, hm, _, hanc⟩ := meetOfPreds_spec (h.idomTree hn) (h.fuel_ok hn)
    ⟨par b, hn.par_pred b hb, h.some_of_end (hn.par_mem b hb)⟩
  refine ⟨m, ?_, hanc⟩
  rcases idomStep_cases g rpoNum idom false b with ⟨hm', _⟩ | ⟨m', hm', hbm, _⟩ | ⟨_, _, _, hs⟩
  · rw [hm] at hm'
    cases hm'
  · rw [hm] at hm'
    cases hm'
    exact hbm
  · rw [hfix b hb] at hs
    cases (Prod.mk.inj hs).2

/-- **At the fixpoint the chains are the dominator sets**: `x` is on the chain of a reachable
block `v` exactly when it dominates `v`. One way is `dom`; for the other, every walk from the
entry to `v` meets the chain of `v`, by induction on the walk, the chain of a block being the
block and what the chains of its predecessors share. -/
theorem ancestor_iff_dominates (hg : g.Wf) (hn : Numbering g e rest rpoNum par)
    (h : PassInv g e rest rpoNum par idom rest [])
    (hfix : ∀ b ∈ rest, idomStep g rpoNum (idom, false) b = (idom, false)) {v x : Nat}
    (hv : g.Reaches e v) : Ancestor idom x v ↔ g.Dominates e x v := by
  have ht := h.idomTree hn
  have hwalk : ∀ {w q}, g.Walk e w q → ∀ y, Ancestor idom y w → y ∈ q := by
    intro w q hw
    induction hw with
    | here =>
      intro y hy
      rw [hy.eq_of_entry ht]
      exact List.mem_singleton_self _
    | @step a w q hwa haw ih =>
      intro y hy
      by_cases hyw : y = w
      · rw [hyw]
        exact List.mem_cons_self
      · have hwr : w ∈ e :: rest := (hn.mem_iff w).mpr (hwa.step haw).reaches
        have hwe : w ≠ e := fun hwe => hyw (((hwe ▸ hy).eq_of_entry ht).trans hwe.symm)
        obtain ⟨m, hm, hanc⟩ := h.fix_meet hn hfix (Numbering.mem_rest hwr hwe)
        have hya := (hanc y).mp (hy.of_up hyw hm) a (hg.mem_preds.mpr haw)
          (h.some_of_end ((hn.mem_iff a).mpr hwa.reaches))
        exact List.mem_cons_of_mem _ (ih y hya)
  exact ⟨fun hxv q hq => hwalk hq x hxv, h.dom (h.some_of_end ((hn.mem_iff v).mpr hv))⟩

end PassInv

section Result

variable {rest : List Nat}

/-- The loop ends at a fixpoint with the invariant at the end of the order. -/
theorem immediateDominators_fixpoint (hg : g.Wf) (ho : VisitOrder g e rest) :
    ∃ par, Numbering g e rest (rpoNumbering g (e :: rest)) par ∧
      PassInv g e rest (rpoNumbering g (e :: rest)) par (g.immediateDominators (e :: rest)) rest [] ∧
      ∀ b ∈ rest, idomStep g (rpoNumbering g (e :: rest)) (g.immediateDominators (e :: rest), false) b =
        (g.immediateDominators (e :: rest), false) := by
  obtain ⟨par, hn⟩ := ho.numbering hg
  rw [immediateDominators_cons]
  exact ⟨par, hn, idomLoop_spec hg hn _ _ (PassInv.start hn) (potential_start hn)⟩

theorem immediateDominators_size (hg : g.Wf) (ho : VisitOrder g e rest) :
    (g.immediateDominators (e :: rest)).size = g.size := by
  obtain ⟨_, _, h, _⟩ := immediateDominators_fixpoint hg ho
  exact h.size_eq

theorem immediateDominators_entry (hg : g.Wf) (ho : VisitOrder g e rest) :
    (g.immediateDominators (e :: rest))[e]?.join = some e := by
  obtain ⟨_, _, h, _⟩ := immediateDominators_fixpoint hg ho
  exact h.entry

/-- Exactly the reachable blocks get an immediate dominator (the entry itself). -/
theorem immediateDominators_isSome_iff (hg : g.Wf) (ho : VisitOrder g e rest) (v : Nat) :
    ((g.immediateDominators (e :: rest))[v]?.join).isSome ↔ g.Reaches e v := by
  obtain ⟨_, _, h, _⟩ := immediateDominators_fixpoint hg ho
  exact ⟨fun hv => (ho.mem_iff v).mp (h.mem hv), fun hv => h.some_of_end ((ho.mem_iff v).mpr hv)⟩

/-- **The chains are the dominator sets.** -/
theorem ancestor_immediateDominators_iff (hg : g.Wf) (ho : VisitOrder g e rest) {v x : Nat}
    (hv : g.Reaches e v) :
    Ancestor (g.immediateDominators (e :: rest)) x v ↔ g.Dominates e x v := by
  obtain ⟨_, hn, h, hfix⟩ := immediateDominators_fixpoint hg ho
  exact h.ancestor_iff_dominates hg hn hfix hv

/-- **The immediate dominators.** Every reachable block after the entry points to its immediate
dominator, which comes before it in the order. -/
theorem immediateDominators_isIdom (hg : g.Wf) (ho : VisitOrder g e rest) {v : Nat}
    (hv : v ∈ rest) :
    ∃ d, (g.immediateDominators (e :: rest))[v]?.join = some d ∧ g.IsIdom e d v ∧
      (e :: rest).idxOf d < (e :: rest).idxOf v := by
  obtain ⟨_, hn, h, hfix⟩ := immediateDominators_fixpoint hg ho
  have hve := hn.ne_entry hv
  have hvr : v ∈ e :: rest := List.mem_cons_of_mem e hv
  obtain ⟨d, hd⟩ := Option.isSome_iff_exists.mp (h.some_of_end hvr)
  have hdr : d ∈ e :: rest := h.mem (h.ptr_some hd)
  have hreach : ∀ {w}, w ∈ e :: rest → g.Reaches e w := fun hw => (hn.mem_iff _).mp hw
  have hiff : ∀ {w x : Nat}, w ∈ e :: rest →
      (Ancestor (g.immediateDominators (e :: rest)) x w ↔ g.Dominates e x w) :=
    fun hw => h.ancestor_iff_dominates hg hn hfix (hreach hw)
  refine ⟨d, hd, ⟨⟨h.ptr_ne hve hd, (hiff hvr).mp (Ancestor.parent hd)⟩, ?_⟩, ?_⟩
  · -- a strict dominator of `v` is a strict ancestor, hence on the chain of `d`
    rintro c ⟨hcv, hdom⟩
    exact (hiff hdr).mp (((hiff hvr).mpr hdom).of_up hcv hd)
  · rw [← hn.rank_eq d hdr, ← hn.rank_eq v hvr]
    exact (h.idomTree hn).rank_lt hve hd

end Result

end BlockGraph

end MicroSsa
