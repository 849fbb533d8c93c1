import MicroSsa.Value.Evaluate
import Mathlib
/-!
# What the lattice values mean

A lattice value of a varnode of `n` bytes stands for a set of concrete values: a constant for
itself, a relative constant `rel base off` for the entry value of the register at `base` moved by
`off` and cut to `n` bytes, `bottom` for every value and `top` for none (`Value.Concretizes`, with
`ρ` giving the entry value of each register). `Opcode.meaning` is what p-code computes from
concrete inputs, each a value with its byte size, for an output of a given size: values of `n`
bytes are the naturals below `2 ^ (8 * n)`, and the signed operations read them in two's
complement.

Evaluating an operation over the lattice is sound when the concrete result of the operation on
any inputs the input values stand for is among the values its output value stands for. The
comparison of two relative constants of one base breaks this: their offsets are kept as 64-bit
numbers while the values they stand for are cut to the varnode's size, so two offsets that differ
by a multiple of `2 ^ 32` name one 4-byte value, and yet compare unequal
(`intEqual_wrapped_offsets`).
-/

namespace MicroSsa

/-- The two's complement reading of a value of `n` bytes. -/
def signedOf (n x : Nat) : Int :=
  if x < 2 ^ (8 * n - 1) then x else (x : Int) - 2 ^ (8 * n)

/-- An integer cut to `n` bytes. -/
def wrapTo (n : Nat) (i : Int) : Nat :=
  (i % 2 ^ (8 * n)).toNat

/-- The number of ones in the binary digits of a value. -/
def onesOf (x : Nat) : Nat :=
  (Nat.digits 2 x).sum

/-- One for a condition that holds, zero for one that fails. -/
def bitOf (p : Prop) [Decidable p] : Nat :=
  if p then 1 else 0

namespace Opcode

/-- What p-code computes from concrete inputs, each a value with its byte size, for an output of
`out` bytes; `none` where p-code gives no value: a division by zero, and the operations that are
no computation on values (memory, control flow, merges). -/
def meaning : Opcode → List (Nat × Nat) → Nat → Option Nat
  | copy, [(x, _)], out => some (wrapTo out x)
  | intZext, [(x, _)], out => some (wrapTo out x)
  | intSext, [(x, n)], out => some (wrapTo out (signedOf n x))
  | intAdd, [(x, _), (y, _)], out => some (wrapTo out (x + y : Nat))
  | intSub, [(x, _), (y, _)], out => some (wrapTo out ((x : Int) - y))
  | intMult, [(x, _), (y, _)], out => some (wrapTo out (x * y : Nat))
  | intDiv, [(x, _), (y, _)], out => if y = 0 then none else some (wrapTo out (x / y : Nat))
  | intRem, [(x, _), (y, _)], out => if y = 0 then none else some (wrapTo out (x % y : Nat))
  | intSDiv, [(x, n), (y, m)], out =>
    if y = 0 then none else some (wrapTo out ((signedOf n x).tdiv (signedOf m y)))
  | intSRem, [(x, n), (y, m)], out =>
    if y = 0 then none else some (wrapTo out ((signedOf n x).tmod (signedOf m y)))
  | intAnd, [(x, _), (y, _)], out => some (wrapTo out (x &&& y : Nat))
  | intOr, [(x, _), (y, _)], out => some (wrapTo out (x ||| y : Nat))
  | intXor, [(x, _), (y, _)], out => some (wrapTo out (x ^^^ y : Nat))
  | intNegate, [(x, n)], out => some (wrapTo out (2 ^ (8 * n) - 1 - x : Nat))
  | int2Comp, [(x, _)], out => some (wrapTo out (-(x : Int)))
  | intLeft, [(x, _), (y, _)], out => some (wrapTo out (x <<< y : Nat))
  | intRight, [(x, _), (y, _)], out => some (wrapTo out (x >>> y : Nat))
  | intSRight, [(x, n), (y, _)], out => some (wrapTo out ((signedOf n x) >>> y))
  | intEqual, [(x, _), (y, _)], _ => some (bitOf (x = y))
  | intNotEqual, [(x, _), (y, _)], _ => some (bitOf (x ≠ y))
  | intLess, [(x, _), (y, _)], _ => some (bitOf (x < y))
  | intLessEqual, [(x, _), (y, _)], _ => some (bitOf (x ≤ y))
  | intSLess, [(x, n), (y, m)], _ => some (bitOf (signedOf n x < signedOf m y))
  | intSLessEqual, [(x, n), (y, m)], _ => some (bitOf (signedOf n x ≤ signedOf m y))
  | intCarry, [(x, n), (y, _)], _ => some (bitOf (2 ^ (8 * n) ≤ x + y))
  | intSCarry, [(x, n), (y, _)], _ =>
    some (bitOf (signedOf n x + signedOf n y < -2 ^ (8 * n - 1) ∨
      2 ^ (8 * n - 1) ≤ signedOf n x + signedOf n y))
  | intSBorrow, [(x, n), (y, _)], _ =>
    some (bitOf (signedOf n x - signedOf n y < -2 ^ (8 * n - 1) ∨
      2 ^ (8 * n - 1) ≤ signedOf n x - signedOf n y))
  | boolNegate, [(x, _)], out => some (wrapTo out (x ^^^ 1 : Nat))
  | boolAnd, [(x, _), (y, _)], out => some (wrapTo out (x &&& y : Nat))
  | boolOr, [(x, _), (y, _)], out => some (wrapTo out (x ||| y : Nat))
  | boolXor, [(x, _), (y, _)], out => some (wrapTo out (x ^^^ y : Nat))
  | piece, [(x, _), (y, m)], out => some (wrapTo out (x * 2 ^ (8 * m) + y : Nat))
  | subpiece, [(x, _), (y, _)], out => some (wrapTo out (x / 2 ^ (8 * y) : Nat))
  | popcount, [(x, _)], out => some (wrapTo out (onesOf x))
  | _, _, _ => none

end Opcode

/-- The concrete values of `size` bytes a lattice value stands for, `ρ` giving the entry value of
each register. -/
def Value.Concretizes (ρ : Address → Nat) (size : Nat) : Value → Nat → Prop
  | .top, _ => False
  | .const c, x => x = c.toNat
  | .rel base off, x => (x : Int) = ((ρ base : Int) + off.toInt) % 2 ^ (8 * size)
  | .bottom, _ => True

/-- Two relative constants of the stack pointer `2 ^ 32` bytes apart name one 4-byte value, yet
compare unequal: the p-code result `1` is not the `0` that evaluation gives. -/
theorem intEqual_wrapped_offsets :
    Value.Concretizes (fun _ => 0x7ff0) 4 (.rel ⟨1, 0x34⟩ 0) 0x7ff0 ∧
    Value.Concretizes (fun _ => 0x7ff0) 4 (.rel ⟨1, 0x34⟩ 4294967296) 0x7ff0 ∧
    Opcode.intEqual.meaning [(0x7ff0, 4), (0x7ff0, 4)] 1 = some 1 ∧
    (Opcode.intEqual.evaluate [(.rel ⟨1, 0x34⟩ 0, 4), (.rel ⟨1, 0x34⟩ 4294967296, 4)] 1
      false).value = .const 0 ∧
    ¬ Value.Concretizes (fun _ => 0x7ff0) 1 (.const 0) 1 := by
  refine ⟨by simp only [Value.Concretizes]; decide, by simp only [Value.Concretizes]; decide, by
    simp [Opcode.meaning, bitOf], by decide, by simp [Value.Concretizes]⟩

end MicroSsa
