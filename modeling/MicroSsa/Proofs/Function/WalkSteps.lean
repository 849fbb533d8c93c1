import MicroSsa.Function.JumpTable
/-!
# One step of the definition walks

Jump-table recovery walks up the definitions of a varnode: to the operation that writes it, then
to that operation's first input, across copies and extensions (`Function.aliasChain`,
`Function.stripExtensions`) or across boolean negations (`Function.stripNegations`). The walks
keep no record of what they met; each is given fuel.

`Function.defStep` is one step of such a walk, for the opcodes it crosses. `Function.DefPath`
lists the varnodes met by the first steps of a walk, and `Function.DefWalk` those of the whole
walk, up to the first varnode where the step fails. Each fuelled walk takes one `defStep` per unit
of fuel and stops where the step fails (`aliasChain_of_step`, `aliasChain_of_stop` and their
negation counterparts), so it gives the whole walk whenever its fuel covers it
(`DefWalk.aliasChain_eq`, `DefWalk.stripNegations_eq`).
-/

namespace MicroSsa

namespace Function

/-- The operation that writes a varnode, if any. -/
def writerOf (f : Function) (v : Nat) : Option Nat := (f.store.vn? v).bind (·.defOp)

theorem defOf_eq (f : Function) (v : Nat) : f.defOf v = f.writerOf v >>= f.store.op? := rfl

theorem defOf_eq_some_iff {f : Function} {v : Nat} {x : Op} :
    f.defOf v = some x ↔ ∃ d, f.writerOf v = some d ∧ f.store.op? d = some x := by
  simp [defOf, writerOf, Option.bind_eq_some_iff]

/-! ## The walks -/

/-- One step of a walk up the definitions that crosses the operations whose opcode `p` accepts:
from a varnode such an operation writes, to the operation's first input. -/
def defStep (f : Function) (p : Opcode → Bool) (v : Nat) : Option Nat :=
  (f.defOf v).bind fun x => if p x.opcode then x.inputs[0]? else none

/-- Whether an opcode is a boolean negation, the operation that stripping negations crosses. -/
def isNegation (o : Opcode) : Bool := o == .boolNegate

/-- `f.DefPath p v L`: `L` lists the varnodes met by the first steps of the walk along
`defStep p` from `v`, `v` first. -/
inductive DefPath (f : Function) (p : Opcode → Bool) : Nat → List Nat → Prop
  | start (v : Nat) : DefPath f p v [v]
  | step {v w : Nat} {L : List Nat} : f.defStep p v = some w → DefPath f p w L →
      DefPath f p v (v :: L)

/-- `f.DefWalk p v L`: `L` lists the varnodes the walk along `defStep p` from `v` meets, `v`
first, up to the first one where the step fails. -/
inductive DefWalk (f : Function) (p : Opcode → Bool) : Nat → List Nat → Prop
  | stop {v : Nat} : f.defStep p v = none → DefWalk f p v [v]
  | step {v w : Nat} {L : List Nat} : f.defStep p v = some w → DefWalk f p w L →
      DefWalk f p v (v :: L)

section Walks

variable {f : Function} {p : Opcode → Bool} {v w : Nat} {L : List Nat}

theorem defStep_eq_some_iff :
    f.defStep p v = some w ↔ ∃ x, f.defOf v = some x ∧ p x.opcode = true ∧ x.inputs[0]? = some w := by
  unfold defStep
  cases f.defOf v with
  | none => simp
  | some x => by_cases hp : p x.opcode <;> simp [hp]

/-- A walk that crosses no merge stops at a varnode nothing writes and at the output of a
merge. -/
theorem defStep_eq_none_of_stop (hp : p .multiEqual = false)
    (h : f.writerOf v = none ∨ ∃ x, f.defOf v = some x ∧ x.opcode = .multiEqual) :
    f.defStep p v = none := by
  rcases h with h | ⟨x, hx, hop⟩
  · simp [defStep, defOf_eq, h]
  · simp [defStep, hx, hop, hp]

theorem DefPath.eq_cons (h : f.DefPath p v L) : L = v :: L.tail := by
  cases h <;> rfl

theorem DefWalk.eq_cons (h : f.DefWalk p v L) : L = v :: L.tail := by
  cases h <;> rfl

/-- A walk ends at a varnode where the step fails. -/
theorem DefWalk.exists_last (h : f.DefWalk p v L) : ∃ z, L.getLast? = some z ∧ f.defStep p z = none := by
  induction h with
  | @stop v hs => exact ⟨v, rfl, hs⟩
  | @step v w L _ hw ih =>
    obtain ⟨z, hz, hs⟩ := ih
    refine ⟨z, ?_, hs⟩
    rw [hw.eq_cons, List.getLast?_cons_cons, ← hw.eq_cons, hz]

/-- From every varnode the walk can be followed for `n` steps, or to its end if it is shorter. -/
theorem exists_defPath (f : Function) (p : Opcode → Bool) :
    ∀ n v, ∃ L, f.DefPath p v L ∧ (f.DefWalk p v L ∨ L.length = n + 1)
  | 0, v => ⟨[v], .start v, .inr rfl⟩
  | n + 1, v => by
    cases hs : f.defStep p v with
    | none => exact ⟨[v], .start v, .inl (.stop hs)⟩
    | some w =>
      obtain ⟨L, hL, hend⟩ := exists_defPath f p n w
      exact ⟨v :: L, .step hs hL, hend.imp (.step hs) fun hlen => by simp [hlen]⟩

end Walks

/-! ## The fuelled walks of recovery -/

section Fuel

variable {f : Function} {v w : Nat} {L : List Nat}

theorem aliasChain_of_step (h : f.defStep isExtension v = some w) (n : Nat) :
    f.aliasChain (n + 1) v = v :: f.aliasChain n w := by
  obtain ⟨x, hx, hp, hw⟩ := defStep_eq_some_iff.mp h
  simp [aliasChain, hx, hw, hp]

theorem aliasChain_of_stop (h : f.defStep isExtension v = none) (n : Nat) :
    f.aliasChain n v = [v] := by
  cases n with
  | zero => rfl
  | succ n =>
    cases hx : f.defOf v with
    | none => simp [aliasChain, hx]
    | some x =>
      cases hi : x.inputs[0]? with
      | none => simp [aliasChain, hx, hi]
      | some i =>
        -- the step fails on the opcode
        have hp : isExtension x.opcode = false := by simpa [defStep, hx, hi] using h
        simp [aliasChain, hx, hi, hp]

theorem stripNegations_of_step (h : f.defStep isNegation v = some w) (n : Nat)
    (neg : Bool) : f.stripNegations (n + 1) v neg = f.stripNegations n w (!neg) := by
  obtain ⟨x, hx, hp, hw⟩ := defStep_eq_some_iff.mp h
  simp only [isNegation] at hp
  simp [stripNegations, hx, hw, hp]

theorem stripNegations_of_stop (h : f.defStep isNegation v = none) (n : Nat)
    (neg : Bool) : f.stripNegations n v neg = (v, neg) := by
  cases n with
  | zero => rfl
  | succ n =>
    cases hx : f.defOf v with
    | none => simp [stripNegations, hx]
    | some x =>
      cases hi : x.inputs[0]? with
      | none => simp [stripNegations, hx, hi]
      | some i =>
        -- the step fails on the opcode
        have hp : (x.opcode == .boolNegate) = false := by simpa [defStep, isNegation, hx, hi] using h
        simp [stripNegations, hx, hi, hp]

/-- The alias chain is the whole walk along copies and extensions once its fuel covers it. -/
theorem DefWalk.aliasChain_eq (h : f.DefWalk isExtension v L) :
    ∀ n, L.length ≤ n + 1 → f.aliasChain n v = L := by
  induction h with
  | stop hs => exact fun n _ => aliasChain_of_stop hs n
  | step hs hw ih =>
    intro n hn
    cases n with
    | zero =>
      rw [hw.eq_cons] at hn
      simp at hn
    | succ n => rw [aliasChain_of_step hs, ih n (by simpa using hn)]

/-- Stripping negations ends where the walk along negations ends, once its fuel covers the walk,
with the flag flipped once per negation crossed. -/
theorem DefWalk.stripNegations_eq (h : f.DefWalk isNegation v L) {z : Nat}
    (hz : L.getLast? = some z) :
    ∀ n neg, L.length ≤ n + 1 → f.stripNegations n v neg = (z, neg ^^ ((L.length - 1) % 2 == 1)) := by
  induction h with
  | @stop v hs =>
    intro n neg _
    obtain rfl : v = z := by simpa using hz
    rw [stripNegations_of_stop hs]
    simp
  | @step v w L hs hw ih =>
    intro n neg hn
    have hz' : L.getLast? = some z := by
      rw [hw.eq_cons, List.getLast?_cons_cons, ← hw.eq_cons] at hz
      exact hz
    have hpos : 0 < L.length := by
      rw [hw.eq_cons]
      simp
    cases n with
    | zero =>
      simp only [List.length_cons] at hn
      omega
    | succ n =>
      rw [stripNegations_of_step hs, ih hz' n (!neg) (by simp only [List.length_cons] at hn; omega)]
      -- one more negation crossed flips the flag once more
      obtain ⟨m, hm⟩ : ∃ m, L.length = m + 1 := ⟨L.length - 1, by omega⟩
      simp only [List.length_cons, hm, Nat.add_sub_cancel, Prod.mk.injEq, true_and]
      rcases Nat.mod_two_eq_zero_or_one m with h2 | h2 <;> cases neg <;> simp [Nat.add_mod, h2]

end Fuel

end Function

end MicroSsa
