import MicroSsa.Proofs.Session.CallTargets
import MicroSsa.Proofs.Propagation.Fixpoint
/-!
# The decoded instructions of a function

Flow following records each instruction it decodes, by address, with its length in bytes
(`Function.visited`). Before decoding at an address it looks only at two neighbours: it gives up
when the address lies inside the nearest decoded instruction below it
(`Function.insidePrevious`), or when the new instruction would run into the nearest one at or
above it (`Function.overlapsNext`). Both tests compute an end address on 64-bit words.

When no listed instruction runs past the end of its address space (`Decoder.FitsInSpace`), those
ends are exact and the two neighbours are enough, because the decoded instructions are already
apart: flow following, and the jump-table rounds around it, keep them sorted by address, the
byte ranges of one space pairwise disjoint as ranges of integers, every end below `2 ^ 64`, every
start at code, and every alive operation at the address of one of them
(`Function.WellDecoded`, `Function.discoverFlow_wellDecoded`). The invariant is carried one
decoded instruction at a time (`Function.WellDecoded.addVisit`).

Without that condition the end wraps. An instruction of 32 bytes at `0xfffffffffffffff0` ends at
`0x10` on 64-bit words, so an instruction at `0xfffffffffffffff8`, inside it, is not seen to be
and is decoded as well (`Function.discoverFlow_overlap_at_top`).
-/

namespace MicroSsa

/-! ## Address order -/

namespace Address

theorem lt_iff {a b : Address} :
    a < b ↔ a.space < b.space ∨ a.space = b.space ∧ a.offset.toNat < b.offset.toNat := by
  show Address.compare a b = .lt ↔ _
  simp [Address.compare, Ordering.then_eq_lt, Nat.compare_eq_lt]

theorem compare_eq_gt {a b : Address} : Address.compare a b = .gt ↔ b < a := by
  rw [lt_iff]
  simp [Address.compare, Ordering.then_eq_gt, Nat.compare_eq_gt]
  omega

theorem eq_iff {a b : Address} : a = b ↔ a.space = b.space ∧ a.offset.toNat = b.offset.toNat := by
  obtain ⟨s, o⟩ := a
  obtain ⟨s', o'⟩ := b
  simp [UInt64.toNat_inj]

theorem lt_def {a b : Address} : a < b ↔ Address.compare a b = .lt := Iff.rfl

theorem lt_irrefl (a : Address) : ¬ a < a := by
  rw [lt_iff]
  omega

theorem lt_trans {a b c : Address} (h₁ : a < b) (h₂ : b < c) : a < c := by
  rw [lt_iff] at h₁ h₂ ⊢
  omega

theorem lt_or_gt_of_ne {a b : Address} (h : a ≠ b) : a < b ∨ b < a := by
  rw [Ne, eq_iff] at h
  rw [lt_iff, lt_iff]
  omega

end Address

/-- An end address computed on 64-bit words is exact when it stays below `2 ^ 64`. -/
theorem UInt64.toNat_add_ofNat {x : UInt64} {n : Nat} (h : x.toNat + n < 2 ^ 64) :
    (x + UInt64.ofNat n).toNat = x.toNat + n := by
  rw [UInt64.toNat_add, UInt64.toNat_ofNat', Nat.mod_eq_of_lt (by omega : n < 2 ^ 64),
    Nat.mod_eq_of_lt h]

/-- A computation whose answer, read through `p`, is `b` has an answer. -/
theorem Except.exists_eq_ok_of_toOption {ε α β : Type} {x : Except ε α} {p : α → β} {b : β}
    (h : x.toOption.map p = some b) : ∃ a, x = .ok a ∧ p a = b := by
  cases x with
  | error e => cases h
  | ok a => exact ⟨a, rfl, Option.some_injective _ h⟩

/-! ## Listed instructions that fit in their space -/

namespace Decoder

/-- No listed instruction runs past the end of its address space: its address plus its length,
taken as at least one byte, stays below `2 ^ 64`. -/
def FitsInSpace (d : Decoder) : Prop :=
  ∀ e ∈ d.entries, e.1.offset.toNat + max e.2.len 1 < 2 ^ 64

instance (d : Decoder) : Decidable d.FitsInSpace :=
  inferInstanceAs (Decidable (∀ e ∈ d.entries, _))

/-- An instruction decoded from a listing whose instructions fit ends below `2 ^ 64`. -/
theorem FitsInSpace.decode {d : Decoder} (h : d.FitsInSpace) {a : Address} {len : Nat}
    {ops : List ListedOp} (hd : d.decode a = .instruction len ops) :
    a.offset.toNat + max len 1 < 2 ^ 64 := by
  unfold Decoder.decode at hd
  cases hf : d.entries.find? (·.1 == a) with
  | none => simp [hf] at hd
  | some p =>
    obtain ⟨a', i⟩ := p
    have ha : a' = a := by simpa using List.find?_some hf
    have hlen : len = i.len := by
      simp only [hf] at hd
      split at hd
      · cases hd
      · cases hd
        rfl
    subst ha hlen
    exact h _ (List.mem_of_find?_eq_some hf)

end Decoder

/-! ## Alive operations at decoded addresses -/

namespace Store

/-- Every alive operation of the store is at an address that `P` holds of. -/
def AliveAt (P : Address → Prop) (s : Store) : Prop :=
  ∀ o x, s.op? o = some x → x.flags.dead = false → P x.seq.addr

variable {s t : Store} {P : Address → Prop}

theorem AliveAt.mono (h : s.AliveAt P) {Q : Address → Prop} (hPQ : ∀ a, P a → Q a) :
    s.AliveAt Q :=
  fun o x hx hd => hPQ _ (h o x hx hd)

theorem AliveAt.of_op? (h : s.AliveAt P) (ho : ∀ o, t.op? o = s.op? o) : t.AliveAt P :=
  fun o x hx => h o x ((ho o).symm.trans hx)

/-- A change of an operation that keeps its sequence number and dead mark keeps the invariant. -/
theorem AliveAt.modifyOp (h : s.AliveAt P) (o : Nat) {g : Op → Op}
    (hg : ∀ x, (g x).seq = x.seq ∧ (g x).flags.dead = x.flags.dead) : (s.modifyOp o g).AliveAt P := by
  intro w y hw hd
  rw [op?_modifyOp] at hw
  split at hw
  · obtain ⟨y₀, hy₀, rfl⟩ := Option.map_eq_some_iff.mp hw
    rw [(hg y₀).1]
    exact h w y₀ hy₀ ((hg y₀).2 ▸ hd)
  · exact h w y hw hd

theorem AliveAt.modifyVn (h : s.AliveAt P) (v : Nat) (g : Varnode → Varnode) :
    (s.modifyVn v g).AliveAt P :=
  h.of_op? fun _ => rfl

theorem AliveAt.newVarnode (h : s.AliveAt P) (size : Nat) (addr : Address) :
    (s.newVarnode size addr).2.AliveAt P :=
  h.of_op? fun _ => rfl

theorem AliveAt.addUse (h : s.AliveAt P) {v o : Nat} (hs : s.addUse v o = .ok t) : t.AliveAt P := by
  obtain ⟨_, -, hs⟩ := Except.bind_eq_ok hs
  cases hs
  exact h.modifyVn v _

theorem AliveAt.removeUse (h : s.AliveAt P) {v o : Nat} (hs : s.removeUse v o = .ok t) :
    t.AliveAt P := by
  obtain ⟨_, -, hs⟩ := Except.bind_eq_ok hs
  cases hs
  exact h.modifyVn v _

theorem AliveAt.setInput (h : s.AliveAt P) {o v slot : Nat} (hs : s.setInput o v slot = .ok t) :
    t.AliveAt P := by
  unfold Store.setInput at hs
  obtain ⟨x, -, hs⟩ := Except.bind_eq_ok hs
  dsimp only at hs
  split at hs
  · cases hs
  · split at hs
    · obtain ⟨s₁, h₁, hs⟩ := Except.bind_eq_ok hs
      exact ((h.modifyOp o fun _ => by exact ⟨rfl, rfl⟩).removeUse h₁).addUse hs
    · exact (h.modifyOp o fun _ => by exact ⟨rfl, rfl⟩).addUse hs

theorem AliveAt.setOutput (h : s.AliveAt P) {o v : Nat} (hs : s.setOutput o v = .ok t) :
    t.AliveAt P := by
  unfold Store.setOutput at hs
  obtain ⟨y, -, hs⟩ := Except.bind_eq_ok hs
  split at hs
  · cases hs
  · obtain ⟨⟨r, s₁⟩, h₁, hs⟩ := Except.bind_eq_ok hs
    cases hs
    have h₁' : s₁.AliveAt P := by
      unfold Store.unsetOutput at h₁
      obtain ⟨x, -, h₁⟩ := Except.bind_eq_ok h₁
      split at h₁
      · cases h₁
        exact h
      · cases h₁
        exact (h.modifyOp o fun _ => by exact ⟨rfl, rfl⟩).modifyVn _ _
    exact (h₁'.modifyVn v _).modifyOp o fun _ => by exact ⟨rfl, rfl⟩

theorem AliveAt.createOutput (h : s.AliveAt P) {o : Nat} {loc : Location} {v : Nat}
    (hs : s.createOutput o loc = .ok (v, t)) : t.AliveAt P := by
  unfold Store.createOutput at hs
  obtain ⟨t', ht', hs⟩ := Except.bind_eq_ok hs
  cases hs
  exact (h.newVarnode loc.size loc.addr).setOutput ht'

/-- A new operation has the sequence number it is given. -/
theorem op?_newOp {opc : Opcode} {q : SeqNum} {o : Nat} (hs : s.newOp opc q = .ok (o, t)) :
    ∃ x, t.op? o = some x ∧ x.seq = q := by
  unfold Store.newOp at hs
  split at hs
  · cases hs
  · cases hs
    exact ⟨_, by rw [op?_push rfl, if_pos rfl], rfl⟩

/-- A new operation starts dead, so it keeps the invariant wherever it is. -/
theorem AliveAt.newOp (h : s.AliveAt P) {opc : Opcode} {q : SeqNum} {o : Nat}
    (hs : s.newOp opc q = .ok (o, t)) : t.AliveAt P := by
  unfold Store.newOp at hs
  split at hs
  · cases hs
  · cases hs
    intro w y hw hd
    rw [op?_push rfl] at hw
    split at hw
    · cases hw
      cases hd
    · exact h w y hw hd

/-- Making an operation alive keeps the invariant when it is at an address `P` holds of. -/
theorem AliveAt.markAlive (h : s.AliveAt P) {o : Nat} (hs : s.markAlive o = .ok t)
    (ho : ∀ x, s.op? o = some x → P x.seq.addr) : t.AliveAt P := by
  obtain ⟨_, -, hs⟩ := Except.bind_eq_ok hs
  cases hs
  intro w y hw hd
  rw [op?_modifyOp] at hw
  split at hw
  · obtain ⟨y₀, hy₀, rfl⟩ := Option.map_eq_some_iff.mp hw
    subst_vars
    exact ho y₀ hy₀
  · exact h w y hw hd

theorem aliveAt_empty (P : Address → Prop) (c : Nat) (u : Option Nat) : (Store.empty c u).AliveAt P := by
  intro o x hx
  simp [Store.empty, op?] at hx

end Store

namespace Function

variable {ctx : Context} {f g : Function} {a : Address}

/-- Decoding an instruction at `addr` makes alive only operations at `addr`, and leaves the
decoded instructions alone. -/
theorem aliveAt_instantiate {P : Address → Prop} {addr : Address} {listed : List ListedOp}
    {ops : List Nat} (hi : f.instantiate ctx addr listed = .ok (g, ops)) (h : f.store.AliveAt P)
    (hP : P addr) : g.store.AliveAt P ∧ g.visited = f.visited := by
  unfold instantiate at hi
  dsimp only at hi
  obtain ⟨⟨store, ops'⟩, hfold, hi⟩ := Except.bind_eq_ok hi
  cases hi
  refine ⟨?_, rfl⟩
  have hstore : store.AliveAt P := by
    refine foldlM_ok_invariant (fun acc => acc.1.AliveAt P) hfold h ?_
    rintro e - ⟨s, os⟩ y hs hstep
    dsimp only at hstep hs
    obtain ⟨⟨o, s₁⟩, h₁, hstep⟩ := Except.bind_eq_ok hstep
    obtain ⟨s₂, h₂, hstep⟩ := Except.bind_eq_ok hstep
    obtain ⟨s₃, h₃, hstep⟩ := Except.bind_eq_ok hstep
    -- the operation made alive is the new one, numbered at `addr`
    have hs₂ : s₂.AliveAt P := by
      refine (Store.AliveAt.newOp (s := (s.newSeq addr).2) (hs.of_op? fun _ => rfl) h₁).markAlive h₂
        fun x hx => ?_
      obtain ⟨x', hx', hq⟩ := Store.op?_newOp h₁
      rw [hx] at hx'
      cases hx'
      rw [hq]
      exact hP
    have hs₃ : s₃.AliveAt P := by
      refine foldlM_ok_invariant (fun s => s.AliveAt P) h₃ hs₂ ?_
      rintro ⟨vd, slot⟩ - s y hs hstep
      dsimp only at hstep
      refine Store.AliveAt.setInput ?_ hstep
      split
      · exact (hs.newVarnode vd.size vd.addr).modifyVn _ _
      · exact hs.newVarnode vd.size vd.addr
    split at hstep
    · obtain ⟨⟨v, s₄⟩, h₄, hstep⟩ := Except.bind_eq_ok hstep
      cases hstep
      exact hs₃.createOutput h₄
    · cases hstep
      exact hs₃
  split
  · exact hstore.modifyOp _ fun _ => ⟨rfl, rfl⟩
  · exact hstore

/-! ## The invariant -/

/-- The decoded instructions of a function are well laid out: sorted by address; of two in one
space, the lower ends at or before the start of the higher, so their byte ranges are disjoint;
each ends below `2 ^ 64`, so its end computed on 64-bit words is exact; each starts at code; and
every alive operation is at the address of one of them. -/
structure WellDecoded (ctx : Context) (f : Function) : Prop where
  sorted : f.visited.Pairwise fun a b => a.1 < b.1
  apart : ∀ a ∈ f.visited, ∀ b ∈ f.visited, a.1.space = b.1.space →
    a.1.offset.toNat < b.1.offset.toNat → a.1.offset.toNat + a.2.size ≤ b.1.offset.toNat
  fits : ∀ e ∈ f.visited, e.1.offset.toNat + e.2.size < 2 ^ 64
  code : ∀ e ∈ f.visited, ctx.image.isCode e.1 = true
  alive : f.store.AliveAt (· ∈ f.visited.map Prod.fst)

theorem WellDecoded.of_eq (h : f.WellDecoded ctx) (hv : g.visited = f.visited)
    (hs : g.store = f.store) : g.WellDecoded ctx := by
  obtain ⟨h₁, h₂, h₃, h₄, h₅⟩ := h
  rw [← hv, ← hs] at *
  exact ⟨h₁, h₂, h₃, h₄, h₅⟩

/-- A function with nothing decoded. -/
theorem wellDecoded_init (ctx : Context) (name : String) (addr : Address) (spaces : SpaceTable)
    (n : Nat) : (Function.init name addr spaces n).WellDecoded ctx :=
  ⟨List.Pairwise.nil, by simp [Function.init], by simp [Function.init], by simp [Function.init],
    Store.aliveAt_empty _ _ _⟩

/-- Two decoded instructions at one address are one. -/
theorem eq_of_fst_eq {l : List (Address × VisitStat)} (hs : l.Pairwise fun a b => a.1 < b.1)
    {x y : Address × VisitStat} (hx : x ∈ l) (hy : y ∈ l) (h : x.1 = y.1) : x = y := by
  induction l with
  | nil => cases hx
  | cons c l ih =>
    rw [List.pairwise_cons] at hs
    rcases List.mem_cons.mp hx with rfl | hx' <;> rcases List.mem_cons.mp hy with rfl | hy'
    · rfl
    · exact absurd (h ▸ hs.1 y hy') (Address.lt_irrefl _)
    · exact absurd (h ▸ hs.1 x hx') (Address.lt_irrefl _)
    · exact ih hs.2 hx' hy'

/-- Two decoded instructions of one space occupy disjoint byte ranges. -/
theorem WellDecoded.disjoint (h : f.WellDecoded ctx) {x y : Address × VisitStat}
    (hx : x ∈ f.visited) (hy : y ∈ f.visited) (hne : x ≠ y) (hs : x.1.space = y.1.space) :
    x.1.offset.toNat + x.2.size ≤ y.1.offset.toNat ∨ y.1.offset.toNat + y.2.size ≤ x.1.offset.toNat := by
  have hoff : x.1.offset.toNat ≠ y.1.offset.toNat := fun ho =>
    hne (eq_of_fst_eq h.sorted hx hy (Address.eq_iff.mpr ⟨hs, ho⟩))
  rcases Nat.lt_or_gt_of_ne hoff with hlt | hgt
  · exact .inl (h.apart x hx y hy hs hlt)
  · exact .inr (h.apart y hy x hx hs.symm hgt)

/-- The end of a decoded instruction, computed on 64-bit words, is exact. -/
theorem WellDecoded.end_toNat (h : f.WellDecoded ctx) {e : Address × VisitStat} (he : e ∈ f.visited) :
    (e.1.offset + UInt64.ofNat e.2.size).toNat = e.1.offset.toNat + e.2.size :=
  UInt64.toNat_add_ofNat (h.fits e he)

/-- Every alive operation is at the address of a decoded instruction. -/
theorem WellDecoded.visitAt?_of_alive (h : f.WellDecoded ctx) {o : Nat} (ho : o ∈ f.store.aliveOps) :
    ∃ x v, f.store.op? o = some x ∧ f.visitAt? x.seq.addr = some v := by
  obtain ⟨x, hx, hd⟩ := Store.mem_aliveOps.mp ho
  obtain ⟨e, he, hea⟩ := List.mem_map.mp (h.alive o x hx hd)
  have hfind : (f.visited.find? (·.1 == x.seq.addr)).isSome := by
    rw [List.find?_isSome]
    exact ⟨e, he, by simp [hea]⟩
  obtain ⟨e', he'⟩ := Option.isSome_iff_exists.mp hfind
  exact ⟨x, e'.2, hx, by simp [visitAt?, he']⟩

/-! ## The neighbours flow following compares with -/

section Neighbours

variable (hs : f.visited.Pairwise fun a b => a.1 < b.1)
include hs

/-- The instruction below `a` that flow following compares with is the greatest below `a`. -/
theorem visitBelow?_spec {p : Address × VisitStat} (h : f.visitBelow? a = some p) :
    p ∈ f.visited ∧ p.1 < a ∧ ∀ e ∈ f.visited, e.1 < a → e = p ∨ e.1 < p.1 := by
  unfold visitBelow? at h
  obtain ⟨ys, hys⟩ := List.getLast?_eq_some_iff.mp h
  have hp : p ∈ f.visited.filter fun e => Address.compare e.1 a == .lt := by
    rw [hys]
    exact List.mem_append_right _ (List.mem_singleton_self p)
  rw [List.mem_filter, beq_iff_eq] at hp
  have hsorted : (ys ++ [p]).Pairwise fun a b => a.1 < b.1 := hys ▸ hs.filter _
  refine ⟨hp.1, hp.2, fun e he hlt => ?_⟩
  have he' : e ∈ ys ++ [p] := by
    rw [← hys, List.mem_filter, beq_iff_eq]
    exact ⟨he, hlt⟩
  rcases List.mem_append.mp he' with he' | he'
  · exact .inr ((List.pairwise_append.mp hsorted).2.2 e he' p (List.mem_singleton_self p))
  · exact .inl (List.mem_singleton.mp he')

/-- The instruction at or above `a` that flow following compares with is the least such. -/
theorem visitFrom?_spec {n : Address × VisitStat} (h : f.visitFrom? a = some n) :
    n ∈ f.visited ∧ ¬ n.1 < a ∧ ∀ e ∈ f.visited, ¬ e.1 < a → e = n ∨ n.1 < e.1 := by
  have hn := List.mem_of_find?_eq_some h
  unfold visitFrom? at h
  obtain ⟨hna, as, bs, hl, has⟩ := List.find?_eq_some_iff_append.mp h
  refine ⟨hn, by simpa [Address.lt_def] using hna, fun e he hge => ?_⟩
  rw [hl] at he hs
  rcases List.mem_append.mp he with he | he
  · exact absurd (by simpa [Address.lt_def] using has e he) hge
  · rcases List.mem_cons.mp he with rfl | he
    · exact .inl rfl
    · exact .inr ((List.pairwise_cons.mp (List.pairwise_append.mp hs).2.1).1 e he)

end Neighbours

theorem visitBelow?_eq_none (h : f.visitBelow? a = none) : ∀ e ∈ f.visited, ¬ e.1 < a := by
  intro e he hlt
  unfold visitBelow? at h
  rw [List.getLast?_eq_none_iff, List.filter_eq_nil_iff] at h
  exact h e he (by simpa [Address.lt_def] using hlt)

theorem visitFrom?_eq_none (h : f.visitFrom? a = none) : ∀ e ∈ f.visited, e.1 < a := by
  intro e he
  unfold visitFrom? at h
  simpa [Address.lt_def] using List.find?_eq_none.mp h e he

/-- When `a` is not inside the instruction below it, every decoded instruction of `a`'s space
that starts below `a` ends at or before `a`: the nearest one by the test, the others because
they end before it starts. -/
theorem WellDecoded.end_le_of_below (h : f.WellDecoded ctx) (hin : f.insidePrevious a = false)
    {e : Address × VisitStat} (he : e ∈ f.visited) (hsp : e.1.space = a.space)
    (hlt : e.1.offset.toNat < a.offset.toNat) : e.1.offset.toNat + e.2.size ≤ a.offset.toNat := by
  have hea : e.1 < a := Address.lt_iff.mpr (.inr ⟨hsp, hlt⟩)
  unfold insidePrevious at hin
  cases hb : f.visitBelow? a with
  | none => exact absurd hea (visitBelow?_eq_none hb e he)
  | some q =>
    obtain ⟨p, st⟩ := q
    obtain ⟨hp, hpa, hmax⟩ := visitBelow?_spec h.sorted hb
    rw [hb] at hin
    simp only [Bool.and_eq_false_iff, beq_eq_false_iff_ne, decide_eq_false_iff_not, not_lt,
      h.end_toNat hp] at hin
    rcases hmax e he hea with rfl | hep
    · dsimp only at hin hsp ⊢
      omega
    · -- `e` lies below the nearest instruction, which is then of `a`'s space too
      have hpa' := Address.lt_iff.mp hpa
      have hep' := Address.lt_iff.mp hep
      have hapart := h.apart e he (p, st) hp (by omega) (by omega)
      dsimp only at hin hapart hpa' hep' ⊢
      omega

/-- When an instruction of `size` bytes at `a` does not run into the instruction at or above it,
it ends at or before the start of every decoded instruction of its space above `a`. -/
theorem WellDecoded.le_start_of_above (h : f.WellDecoded ctx) {size : Nat}
    (hfit : a.offset.toNat + size < 2 ^ 64) (hov : f.overlapsNext a size = false)
    {e : Address × VisitStat} (he : e ∈ f.visited) (hsp : e.1.space = a.space)
    (hlt : a.offset.toNat < e.1.offset.toNat) : a.offset.toNat + size ≤ e.1.offset.toNat := by
  have hea : ¬ e.1 < a := by
    rw [Address.lt_iff]
    omega
  unfold overlapsNext at hov
  cases hn : f.visitFrom? a with
  | none => exact absurd (visitFrom?_eq_none hn e he) hea
  | some q =>
    obtain ⟨n, st⟩ := q
    obtain ⟨-, hna, hmin⟩ := visitFrom?_spec h.sorted hn
    rw [hn] at hov
    simp only [Bool.and_eq_false_iff, beq_eq_false_iff_ne, decide_eq_false_iff_not, not_lt,
      UInt64.toNat_add_ofNat hfit] at hov
    rcases hmin e he hea with rfl | hne
    · dsimp only at hov hsp hlt ⊢
      omega
    · -- the nearest instruction lies between `a` and `e`, so in their space
      have hna' : ¬ (n.space < a.space ∨ n.space = a.space ∧ n.offset.toNat < a.offset.toNat) :=
        fun h' => hna (Address.lt_iff.mpr h')
      have hne' := Address.lt_iff.mp hne
      dsimp only at hov hna' hne' ⊢
      omega

/-! ## Recording a decoded instruction -/

theorem mem_addVisit {v : VisitStat} {e : Address × VisitStat} (he : e ∈ (f.addVisit a v).visited) :
    e ∈ f.visited ∨ e = (a, v) := by
  simp only [addVisit, List.append_assoc, List.mem_append, List.mem_filter,
    List.mem_singleton] at he
  rcases he with ⟨he, -⟩ | rfl | ⟨he, -⟩
  · exact .inl he
  · exact .inr rfl
  · exact .inl he

/-- Recording an instruction keeps every decoded address and adds its own. -/
theorem fst_mem_addVisit {v : VisitStat} {k : Address} (hk : k ∈ f.visited.map Prod.fst ∨ k = a) :
    k ∈ (f.addVisit a v).visited.map Prod.fst := by
  simp only [addVisit, List.map_append, List.append_assoc, List.mem_append, List.map_cons,
    List.map_nil, List.mem_cons, List.not_mem_nil, or_false]
  rcases hk with hk | rfl
  · obtain ⟨e, he, rfl⟩ := List.mem_map.mp hk
    by_cases hea : e.1 = a
    · exact .inr (.inl hea)
    · rcases Address.lt_or_gt_of_ne hea with hlt | hgt
      · exact .inl (List.mem_map.mpr ⟨e, List.mem_filter.mpr ⟨he, by simpa [Address.lt_def] using hlt⟩, rfl⟩)
      · refine .inr (.inr (List.mem_map.mpr ⟨e, List.mem_filter.mpr ⟨he, ?_⟩, rfl⟩))
        simpa using Address.compare_eq_gt.mpr hgt
  · exact .inr (.inl rfl)

/-- The decoded instructions stay sorted: those below go before the new one, those above after,
and one already at its address is replaced. -/
theorem sorted_addVisit (hs : f.visited.Pairwise fun a b => a.1 < b.1) (v : VisitStat) :
    (f.addVisit a v).visited.Pairwise fun a b => a.1 < b.1 := by
  have hlow : ∀ e ∈ f.visited.filter fun e => Address.compare e.1 a == .lt, e.1 < a := by
    intro e he
    simpa [Address.lt_def] using (List.mem_filter.mp he).2
  have hhigh : ∀ e ∈ f.visited.filter fun e => Address.compare e.1 a == .gt, a < e.1 := by
    intro e he
    exact Address.compare_eq_gt.mp (by simpa using (List.mem_filter.mp he).2)
  simp only [addVisit]
  refine List.pairwise_append.mpr ⟨List.pairwise_append.mpr ⟨hs.filter _, by simp, ?_⟩,
    hs.filter _, ?_⟩
  · intro e he x hx
    rw [List.mem_singleton.mp hx]
    exact hlow e he
  · intro e he u hu
    rcases List.mem_append.mp he with he | he
    · exact Address.lt_trans (hlow e he) (hhigh u hu)
    · rw [List.mem_singleton.mp he]
      exact hhigh u hu

/-- **One decoded instruction.** Recording an instruction of `size` bytes at `a` keeps the
decoded instructions well laid out when `a` is code and not inside the instruction below, the new
instruction ends below `2 ^ 64` and runs into none above, and every alive operation is at a
decoded address or at `a`. -/
theorem WellDecoded.addVisit (h : f.WellDecoded ctx) (hv : g.visited = f.visited)
    (halive : g.store.AliveAt fun k => k ∈ f.visited.map Prod.fst ∨ k = a)
    (hin : f.insidePrevious a = false) (hcode : ctx.image.isCode a = true) {size : Nat}
    (hfit : a.offset.toNat + size < 2 ^ 64) (hov : f.overlapsNext a size = false) (seq : SeqNum) :
    (g.addVisit a ⟨seq, size⟩).WellDecoded ctx where
  sorted := sorted_addVisit (hv ▸ h.sorted) _
  apart := by
    intro x hx y hy hsp hlt
    rcases mem_addVisit hx with hx | rfl <;> rcases mem_addVisit hy with hy | rfl
    · exact h.apart x (hv ▸ hx) y (hv ▸ hy) hsp hlt
    · exact h.end_le_of_below hin (hv ▸ hx) hsp hlt
    · exact h.le_start_of_above hfit hov (hv ▸ hy) hsp.symm hlt
    · exact absurd hlt (Nat.lt_irrefl _)
  fits := by
    intro e he
    rcases mem_addVisit he with he | rfl
    · exact h.fits e (hv ▸ he)
    · exact hfit
  code := by
    intro e he
    rcases mem_addVisit he with he | rfl
    · exact h.code e (hv ▸ he)
    · exact hcode
  alive := halive.mono fun _ hk => fst_mem_addVisit (hv ▸ hk)

/-! ## Flow following keeps the invariant -/

theorem WellDecoded.setStartBlock (h : f.WellDecoded ctx) (o : Nat) (v : Bool) :
    (f.setStartBlock o v).WellDecoded ctx :=
  ⟨h.sorted, h.apart, h.fits, h.code, h.alive.modifyOp o fun _ => ⟨rfl, rfl⟩⟩

/-- The flow effects of one operation touch no decoded instruction and no dead mark. -/
theorem WellDecoded.examineOp (h : f.WellDecoded ctx) (addr : Address) (size : Nat)
    (ops : List Nat) (i o : Nat) : (f.examineOp addr size ops i o).WellDecoded ctx := by
  unfold Function.examineOp
  split
  · exact h
  · split
    case h_1 | h_2 =>
      split
      · exact h
      · split
        · dsimp only
          split
          · split
            · exact h.setStartBlock _ true
            · exact h
          · split
            · exact h.of_eq rfl rfl
            · exact h.of_eq rfl rfl
        · exact h.of_eq rfl rfl
    all_goals exact h.of_eq rfl rfl

theorem WellDecoded.examineFlow (h : f.WellDecoded ctx) (addr : Address) (size : Nat)
    (ops : List Nat) : (f.examineFlow addr size ops).1.WellDecoded ctx :=
  foldl_invariant (WellDecoded ctx) (fun _ _ hg => hg.examineOp _ _ _ _ _) _ _ h

/-- Decoding along fallthrough keeps the decoded instructions well laid out: each step either
stops, changing neither the decoded instructions nor the store, or decodes one instruction
(`WellDecoded.addVisit`). -/
theorem WellDecoded.processFrom (hd : ctx.decoder.FitsInSpace) :
    ∀ (fuel : Nat) {f g : Function} {cur : Address} {ok : Bool}, f.WellDecoded ctx →
      processFrom ctx fuel f cur = .ok (g, ok) → g.WellDecoded ctx
  | 0, f, g, cur, ok, hf, h => by
    cases h
    exact hf
  | fuel + 1, f, g, cur, ok, hf, h => by
    rcases processFrom_succ_cases h with hs | ⟨len, listed, f₁, ops, seq, F, hD, hi, -, rfl, hnext⟩
    · exact hf.of_eq hs.visited hs.store
    obtain ⟨halive, hv⟩ := aliveAt_instantiate hi
      (hf.alive.mono fun k hk => (Or.inl hk : k ∈ f.visited.map Prod.fst ∨ k = cur)) (Or.inr rfl)
    have h₂ := hf.addVisit hv halive hD.outside hD.code (hd.decode hD.decode) hD.apart seq
    have h₃ := h₂.examineFlow cur (max len 1) ops
    rcases hnext with ⟨-, hnext⟩ | ⟨-, rfl, -⟩
    · exact WellDecoded.processFrom hd fuel h₃ hnext
    · exact h₃

theorem WellDecoded.followLoop (hd : ctx.decoder.FitsInSpace) :
    ∀ (fuel : Nat) {f g : Function}, f.WellDecoded ctx → followLoop ctx fuel f = .ok g →
      g.WellDecoded ctx
  | 0, f, g, hf, h => by
    cases h
    exact hf
  | fuel + 1, f, g, hf, h => by
    rcases followLoop_succ_cases h with ⟨-, rfl⟩ | ⟨a, rest, f₁, ok, -, h₁, hnext⟩
    · exact hf
    have hf₁ := WellDecoded.processFrom hd _ (hf.of_eq (g := { f with pending := rest }) rfl rfl) h₁
    rcases hnext with ⟨-, hnext⟩ | ⟨-, rfl⟩
    · exact WellDecoded.followLoop hd fuel hf₁ hnext
    · exact hf₁.of_eq rfl rfl

theorem WellDecoded.followFlow (hd : ctx.decoder.FitsInSpace) (hf : f.WellDecoded ctx)
    (h : f.followFlow ctx = .ok g) : g.WellDecoded ctx := by
  obtain ⟨f₁, h₁, hs⟩ := followFlow_ok h
  exact (WellDecoded.followLoop hd _ hf h₁).of_eq hs.visited hs.store

theorem recordRecovery_visited (f : Function) (o : Nat) (r : Except RecoveryFailure JumpTable) :
    (f.recordRecovery o r).1.visited = f.visited := by
  unfold recordRecovery
  split
  · dsimp only
    rw [← Array.foldl_toList]
    exact foldl_proj_eq Function.visited (fun _ _ => by rfl) _ _
  · rfl

theorem WellDecoded.discoverLoop (hd : ctx.decoder.FitsInSpace) :
    ∀ (fuel : Nat) {f g : Function}, f.WellDecoded ctx → discoverLoop ctx fuel f = .ok g →
      g.WellDecoded ctx
  | 0, f, g, hf, h => by
    cases h
    exact hf
  | fuel + 1, f, g, hf, h => by
    obtain ⟨f₁, h₁, hnext⟩ := discoverLoop_succ_cases h
    have hf₁ := WellDecoded.followFlow hd hf h₁
    rcases hnext with ⟨-, rfl⟩ | ⟨f₂, n, -, h₂, hnext⟩
    · exact hf₁
    -- jump-table recovery works on a scratch copy
    have hf₂ := hf₁.of_eq (recoverJumpTables_keeps Function.visited recordRecovery_visited h₂)
      (recoverJumpTables_store_calls h₂).1
    rcases hnext with ⟨-, rfl⟩ | ⟨-, hnext⟩
    · exact hf₂
    · exact WellDecoded.discoverLoop hd fuel hf₂ hnext

/-- **Decoded instructions never overlap.** When no listed instruction runs past the end of its
address space, discovering a function's code, by flow following alternated with jump-table
recovery, keeps its decoded instructions well laid out, as those of a new function are: two of
one space occupy disjoint byte ranges, each ends below `2 ^ 64` and starts at code, and every
alive operation is at the address of one of them. -/
theorem discoverFlow_wellDecoded (hd : ctx.decoder.FitsInSpace) (hf : f.WellDecoded ctx)
    (h : f.discoverFlow ctx = .ok g) : g.WellDecoded ctx := by
  unfold Function.discoverFlow at h
  refine WellDecoded.discoverLoop hd _ ?_ h
  split
  · exact hf.of_eq rfl rfl
  · exact hf

/-- Code near the top of the space, from `0xffffffffffffff00` on: an instruction of 8 bytes at
`0xfffffffffffffff0` branching to `0xfffffffffffffff8`, and a return there. -/
def topFitContext : Context :=
  { toyContext with
    image := { space := 0, regions := #[⟨0xffffffffffffff00, .zeros 0xff, .code⟩] }
    decoder := { entries :=
      [(⟨0, 0xfffffffffffffff0⟩,
          ⟨8, [⟨.cbranch, none, [⟨⟨0, 0xfffffffffffffff8⟩, 4⟩, ⟨⟨1, 0⟩, 1⟩]⟩], false⟩),
       (⟨0, 0xfffffffffffffff8⟩, ⟨4, [⟨.ret, none, [⟨⟨1, 0x38⟩, 4⟩]⟩], false⟩)] } }

theorem discoverFlow_wellDecoded_top :
    topFitContext.decoder.FitsInSpace ∧
    ∃ g, (Function.init "main" ⟨0, 0xfffffffffffffff0⟩ toyContext.arch.spaces 1000000).discoverFlow
        topFitContext = .ok g ∧
      g.visited.map (fun e => (e.1.offset.toNat, e.2.size)) =
        [(0xfffffffffffffff0, 8), (0xfffffffffffffff8, 4)] ∧
      g.WellDecoded topFitContext := by
  obtain ⟨g, hg, hv⟩ := Except.exists_eq_ok_of_toOption
    (show ((Function.init "main" ⟨0, 0xfffffffffffffff0⟩ toyContext.arch.spaces 1000000).discoverFlow
        topFitContext).toOption.map (fun g => g.visited.map fun e => (e.1.offset.toNat, e.2.size)) =
      some [(0xfffffffffffffff0, 8), (0xfffffffffffffff8, 4)] by decide +kernel)
  have hd : topFitContext.decoder.FitsInSpace := by decide
  exact ⟨hd, g, hg, hv, discoverFlow_wellDecoded hd (wellDecoded_init _ _ _ _ _) hg⟩

/-- The same code with a first instruction of 32 bytes, which runs past the end of the space. -/
def topOverrunContext : Context :=
  { topFitContext with
    decoder := { entries :=
      [(⟨0, 0xfffffffffffffff0⟩,
          ⟨32, [⟨.cbranch, none, [⟨⟨0, 0xfffffffffffffff8⟩, 4⟩, ⟨⟨1, 0⟩, 1⟩]⟩], false⟩),
       (⟨0, 0xfffffffffffffff8⟩, ⟨4, [⟨.ret, none, [⟨⟨1, 0x38⟩, 4⟩]⟩], false⟩)] } }

/-- **Overlapping instructions at the top of the space.** The first instruction's end wraps to
`0x10`, so the return its branch reaches at `0xfffffffffffffff8`, inside it, is decoded too:
discovery ends with two decoded instructions whose byte ranges overlap. -/
theorem discoverFlow_overlap_at_top :
    ¬ topOverrunContext.decoder.FitsInSpace ∧
    ∃ g, (Function.init "main" ⟨0, 0xfffffffffffffff0⟩ toyContext.arch.spaces 1000000).discoverFlow
        topOverrunContext = .ok g ∧
      g.visited.map (fun e => (e.1, e.2.size)) =
        [(⟨0, 0xfffffffffffffff0⟩, 32), (⟨0, 0xfffffffffffffff8⟩, 4)] ∧
      ¬ g.WellDecoded topOverrunContext := by
  obtain ⟨g, hg, hv⟩ := Except.exists_eq_ok_of_toOption
    (show ((Function.init "main" ⟨0, 0xfffffffffffffff0⟩ toyContext.arch.spaces 1000000).discoverFlow
        topOverrunContext).toOption.map (fun g => g.visited.map fun e => (e.1, e.2.size)) =
      some [(⟨0, 0xfffffffffffffff0⟩, 32), (⟨0, 0xfffffffffffffff8⟩, 4)] by decide +kernel)
  refine ⟨by decide, g, hg, hv, fun hw => ?_⟩
  -- the first instruction ends past the start of the second
  obtain ⟨x, y, hxy⟩ : ∃ x y, g.visited = [x, y] := by
    rcases hl : g.visited with _ | ⟨x, _ | ⟨y, _ | _⟩⟩ <;> rw [hl] at hv <;> simp at hv
    exact ⟨x, y, rfl⟩
  rw [hxy] at hv
  simp only [List.map_cons, List.map_nil, List.cons.injEq, Prod.mk.injEq, and_true] at hv
  have h := hw.apart x (by simp [hxy]) y (by simp [hxy])
  rw [hv.1.1, hv.2.1, hv.1.2] at h
  exact absurd (h rfl (by decide)) (by decide)

end Function

end MicroSsa
