import MicroSsa.Proofs.Value.EvaluationSound
/-!
# Folding against bit-vector semantics

P-code defines its operations on bit vectors: an input of `n` bytes is a vector of `8 * n` bits,
arithmetic wraps at that width, the signed operations read the vector in two's complement, and
booleans are single bits. `Opcode.bitVecFold` states this semantics with Lean's `BitVec`: each
operation is computed at the width p-code gives its result and then cut, or zero-extended, to the
output's bytes.

`Opcode.fold` computes instead on 64-bit words and cuts the result to the output's bytes. The
two agree (`Opcode.fold_bitVec_semantics`) whenever p-code's sizes are kept: inputs of one to eight
bytes, both inputs of one size for arithmetic and comparisons, and, for the operations whose
result wraps at the input's width (`Opcode.wrapsAtInputWidth`), an output no wider than the
input. Folding has no value exactly for the operations that compute nothing, for a division by
zero, and for `PIECE` with an eight-byte low part. Wider outputs are where 64-bit words and bit
vectors part: `INT_ADD` of the bytes `0xff` and `0x01` into two bytes folds to `0x100`, where the
bit vectors give `0x00` (`intAdd_fold_wider_output`).

The proof goes through `Opcode.meaning`, p-code's meaning on numbers, which folding already agrees
with (`Opcode.fold_sound`): bit vectors and numbers agree (`meaning_eq_bitVecFold`), and the cases
`fold_sound` leaves out — copies to a wider output and boolean operators on inputs other than
`0` and `1` — are read off the words directly.
-/

namespace MicroSsa

theorem signedOf_eq_zero_iff {n x : Nat} (hx : x < 2 ^ (8 * n)) : signedOf n x = 0 ↔ x = 0 := by
  have hx' : (x : Int) < 2 ^ (8 * n) := by exact_mod_cast hx
  unfold signedOf
  split
  · omega
  · rename_i hge
    have hpos : 0 < x := Nat.lt_of_lt_of_le (Nat.two_pow_pos _) (Nat.le_of_not_lt hge)
    omega

namespace Word

/-- Sign extension reads only the bytes of the size. -/
theorem signExtend_and_mask {n : Nat} (h1 : 1 ≤ n) (h8 : n ≤ 8) (v : UInt64) :
    signExtend (v &&& mask n) n = signExtend v n := by
  rcases Nat.lt_or_ge n 8 with hlt | hge
  · have hlow : (v &&& mask n).toNat % Nat.pow 2 (8 * n) = v.toNat % Nat.pow 2 (8 * n) := by
      rw [toNat_and_mask h8, Nat.pow_eq, Nat.mod_mod]
    have hc : ¬ (n = 0 ∨ 8 ≤ n) := by omega
    unfold signExtend
    simp only [hlow]
    rw [if_neg hc, if_neg hc]
  · have hn : n = 8 := by omega
    subst hn
    rw [and_mask_of_lt h8 v.toNat_lt]

/-- A sign extension is zero exactly when the bytes it reads are. -/
theorem signExtend_eq_zero_iff {n : Nat} (h1 : 1 ≤ n) (h8 : n ≤ 8) (v : UInt64) :
    signExtend v n = 0 ↔ v.toNat % 2 ^ (8 * n) = 0 := by
  have hlt : (v &&& mask n).toNat < 2 ^ (8 * n) := by
    rw [toNat_and_mask h8]
    exact Nat.mod_lt _ (Nat.two_pow_pos _)
  rw [← signExtend_and_mask h1 h8, ← Int64.toInt_inj, Int64.toInt_zero, toInt_signExtend h1 h8 hlt,
    signedOf_eq_zero_iff hlt, toNat_and_mask h8]

end Word

namespace Opcode

/-! ## The bit-vector semantics -/

/-- A constant input as a bit vector of its size: its value cut to `8 * size` bits. -/
def operand (p : UInt64 × Nat) : BitVec (8 * p.2) := BitVec.ofNat _ p.1.toNat

/-- The number of set bits of a bit vector. -/
def onesIn {w : Nat} (x : BitVec w) : Nat := (List.range w).countP x.getLsbD

/-- What p-code's bit-vector semantics gives for an operation on constant inputs, each a value
with its byte size, cut or zero-extended to `out` bytes. The second input of a two-input
operation is brought to the width of the first; a shift amount and a `SUBPIECE` offset are read
as numbers, a boolean as its lowest bit. `none` for a division by zero and for the operations
that compute no value (memory, control flow, calls, merges, `INDIRECT`, `NOP`). -/
def bitVecFold : Opcode → List (UInt64 × Nat) → (out : Nat) → Option (BitVec (8 * out))
  | copy, [p], out | intZext, [p], out => some ((operand p).setWidth (8 * out))
  | intSext, [p], out => some ((operand p).signExtend (8 * out))
  | intNegate, [p], out => some ((~~~operand p).setWidth (8 * out))
  | int2Comp, [p], out => some ((-operand p).setWidth (8 * out))
  | boolNegate, [p], out => some ((BitVec.ofBool !(operand p).getLsbD 0).setWidth (8 * out))
  | popcount, [p], out => some (BitVec.ofNat (8 * out) (onesIn (operand p)))
  | intAdd, [p, q], out => some ((operand p + (operand q).setWidth (8 * p.2)).setWidth (8 * out))
  | intSub, [p, q], out => some ((operand p - (operand q).setWidth (8 * p.2)).setWidth (8 * out))
  | intMult, [p, q], out =>
    some ((operand p * (operand q).setWidth (8 * p.2)).setWidth (8 * out))
  | intDiv, [p, q], out =>
    let y := (operand q).setWidth (8 * p.2)
    if y = 0 then none else some ((operand p / y).setWidth (8 * out))
  | intRem, [p, q], out =>
    let y := (operand q).setWidth (8 * p.2)
    if y = 0 then none else some ((operand p % y).setWidth (8 * out))
  | intSDiv, [p, q], out =>
    let y := (operand q).setWidth (8 * p.2)
    if y = 0 then none else some (((operand p).sdiv y).setWidth (8 * out))
  | intSRem, [p, q], out =>
    let y := (operand q).setWidth (8 * p.2)
    if y = 0 then none else some (((operand p).srem y).setWidth (8 * out))
  | intAnd, [p, q], out =>
    some ((operand p &&& (operand q).setWidth (8 * p.2)).setWidth (8 * out))
  | intOr, [p, q], out =>
    some ((operand p ||| (operand q).setWidth (8 * p.2)).setWidth (8 * out))
  | intXor, [p, q], out =>
    some ((operand p ^^^ (operand q).setWidth (8 * p.2)).setWidth (8 * out))
  | intLeft, [p, q], out => some ((operand p <<< (operand q).toNat).setWidth (8 * out))
  | intRight, [p, q], out => some ((operand p >>> (operand q).toNat).setWidth (8 * out))
  | intSRight, [p, q], out =>
    some (((operand p).sshiftRight (operand q).toNat).setWidth (8 * out))
  | intEqual, [p, q], out =>
    some ((BitVec.ofBool (decide (operand p = (operand q).setWidth (8 * p.2)))).setWidth (8 * out))
  | intNotEqual, [p, q], out =>
    some ((BitVec.ofBool (decide (operand p ≠ (operand q).setWidth (8 * p.2)))).setWidth (8 * out))
  | intLess, [p, q], out =>
    some ((BitVec.ofBool ((operand p).ult ((operand q).setWidth (8 * p.2)))).setWidth (8 * out))
  | intLessEqual, [p, q], out =>
    some ((BitVec.ofBool ((operand p).ule ((operand q).setWidth (8 * p.2)))).setWidth (8 * out))
  | intSLess, [p, q], out =>
    some ((BitVec.ofBool ((operand p).slt ((operand q).setWidth (8 * p.2)))).setWidth (8 * out))
  | intSLessEqual, [p, q], out =>
    some ((BitVec.ofBool ((operand p).sle ((operand q).setWidth (8 * p.2)))).setWidth (8 * out))
  | intCarry, [p, q], out =>
    some ((BitVec.ofBool ((operand p).uaddOverflow ((operand q).setWidth (8 * p.2)))).setWidth
      (8 * out))
  | intSCarry, [p, q], out =>
    some ((BitVec.ofBool ((operand p).saddOverflow ((operand q).setWidth (8 * p.2)))).setWidth
      (8 * out))
  | intSBorrow, [p, q], out =>
    some ((BitVec.ofBool ((operand p).ssubOverflow ((operand q).setWidth (8 * p.2)))).setWidth
      (8 * out))
  | boolAnd, [p, q], out =>
    some ((BitVec.ofBool ((operand p).getLsbD 0 && (operand q).getLsbD 0)).setWidth (8 * out))
  | boolOr, [p, q], out =>
    some ((BitVec.ofBool ((operand p).getLsbD 0 || (operand q).getLsbD 0)).setWidth (8 * out))
  | boolXor, [p, q], out =>
    some ((BitVec.ofBool ((operand p).getLsbD 0 ^^ (operand q).getLsbD 0)).setWidth (8 * out))
  | piece, [p, q], out => some ((operand p ++ operand q).setWidth (8 * out))
  | subpiece, [p, q], out => some ((operand p >>> (8 * (operand q).toNat)).setWidth (8 * out))
  | _, _, _ => none

/-- The operations that compute a value from their inputs: all but memory access, control flow,
calls, merges, `INDIRECT` and `NOP`. -/
def computes : Opcode → Bool
  | load | store | branch | cbranch | branchInd | call | callInd | callOther | ret
  | multiEqual | indirect | nop => false
  | _ => true

/-- The number of inputs of an operation that computes: one for copies, extensions, negations,
`BOOL_NEGATE` and `POPCOUNT`, two for the others. -/
def arity : Opcode → Nat
  | copy | intZext | intSext | int2Comp | intNegate | boolNegate | popcount => 1
  | _ => 2

/-- The operations whose two inputs p-code gives one size: arithmetic, bitwise and boolean
operators, carries and comparisons; not the shifts, `PIECE` or `SUBPIECE`. -/
def sameSizes : Opcode → Bool
  | intAdd | intSub | intMult | intDiv | intRem | intSDiv | intSRem
  | intAnd | intOr | intXor | intEqual | intNotEqual | intLess | intLessEqual
  | intSLess | intSLessEqual | intCarry | intSCarry | intSBorrow
  | boolAnd | boolOr | boolXor => true
  | _ => false

/-- The operations whose p-code result wraps at the width of the first input, into an output of
that size: arithmetic that can carry out of it, the left shift, and the signed operations and
complements, whose 64-bit words carry the sign or the complement above it. -/
def wrapsAtInputWidth : Opcode → Bool
  | intAdd | intSub | intMult | intSDiv | intSRem | intLeft | intSRight | intNegate
  | int2Comp => true
  | _ => false

/-- The divisions and remainders, which have no value for a zero divisor. -/
def divides : Opcode → Bool
  | intDiv | intRem | intSDiv | intSRem => true
  | _ => false

/-! ## Bit vectors as numbers -/

section Bytes

variable {n out : Nat}

theorem toNat_operand (p : UInt64 × Nat) : (operand p).toNat = p.1.toNat % 2 ^ (8 * p.2) := by
  simp [operand]

theorem bmod_two_pow_modEq (i : Int) (w : Nat) : i.bmod (2 ^ w) ≡ i [ZMOD 2 ^ w] := by
  have h := @Int.bmod_emod i (2 ^ w)
  push_cast at h
  exact h

/-- A bit vector's value agrees with its two's complement reading modulo its width. -/
theorem toNat_modEq_toInt {w : Nat} (z : BitVec w) : (z.toNat : Int) ≡ z.toInt [ZMOD 2 ^ w] := by
  rw [BitVec.toInt_eq_toNat_bmod]
  exact (bmod_two_pow_modEq _ w).symm

/-- A bit vector of `n` bytes read in two's complement is `signedOf` of its value. -/
theorem toInt_eq_signedOf (hn : 1 ≤ n) (z : BitVec (8 * n)) : z.toInt = signedOf n z.toNat :=
  (signedOf_eq_of_modEq hn z.isLt (toNat_modEq_toInt z).symm (BitVec.le_toInt z)
    BitVec.toInt_lt).symm

/-- Cutting or extending a bit vector to `out` bytes wraps its value. -/
theorem toNat_setWidth_bytes {w : Nat} (z : BitVec w) (out : Nat) :
    (z.setWidth (8 * out)).toNat = wrapTo out z.toNat := by
  rw [BitVec.toNat_setWidth, wrapTo_natCast]

/-- A bit vector of at least `out` bytes cut to `out` bytes wraps any integer it agrees with. -/
theorem toNat_setWidth_eq_wrapTo (hle : out ≤ n) {z : BitVec (8 * n)} {i : Int}
    (hz : (z.toNat : Int) ≡ i [ZMOD 2 ^ (8 * n)]) : (z.setWidth (8 * out)).toNat = wrapTo out i := by
  rw [toNat_setWidth_bytes]
  exact wrapTo_congr (modEq_bytes_of_le hle hz)

/-- A flag cut or extended to one byte or more is one or zero. -/
theorem toNat_ofBool_setWidth (hout : 1 ≤ out) (c : Bool) :
    ((BitVec.ofBool c).setWidth (8 * out)).toNat = bitOf (c = true) := by
  rw [BitVec.toNat_setWidth_of_le (by omega), BitVec.toNat_ofBool]
  cases c <;> rfl

/-- Sign extension to `out` bytes wraps the two's complement reading. -/
theorem toNat_signExtend_bytes (hn : 1 ≤ n) (z : BitVec (8 * n)) (out : Nat) :
    (z.signExtend (8 * out)).toNat = wrapTo out (signedOf n z.toNat) := by
  rcases le_total out n with hle | hle
  · rw [BitVec.signExtend_eq_setWidth_of_le _ (by omega)]
    exact toNat_setWidth_eq_wrapTo hle ((toNat_modEq_toInt z).trans (by rw [toInt_eq_signedOf hn]))
  · have h := toNat_modEq_toInt (z.signExtend (8 * out))
    rw [BitVec.toInt_signExtend_of_le (by omega), toInt_eq_signedOf hn] at h
    rw [← wrapTo_congr h, wrapTo_natCast, Nat.mod_eq_of_lt (BitVec.isLt _)]

/-- A subtraction of bit vectors agrees with the integer difference modulo the width. -/
theorem toNat_sub_modEq {w : Nat} (x y : BitVec w) :
    ((x - y).toNat : Int) ≡ x.toNat - y.toNat [ZMOD 2 ^ w] := by
  rw [BitVec.toNat_sub]
  refine (natCast_mod_modEq _ _).trans ?_
  rw [Nat.cast_add, Nat.cast_sub y.isLt.le]
  push_cast
  exact Int.modEq_iff_dvd.mpr ⟨-1, by ring⟩

/-- The second input brought to the width of a first input of its size keeps its value. -/
theorem toNat_second {p q : UInt64 × Nat} (hm : q.2 = p.2) :
    ((operand q).setWidth (8 * p.2)).toNat = (operand q).toNat :=
  BitVec.toNat_setWidth_of_le (by omega)

theorem toInt_second {p q : UInt64 × Nat} (hp : 1 ≤ p.2) (hm : q.2 = p.2) :
    ((operand q).setWidth (8 * p.2)).toInt = signedOf p.2 (operand q).toNat := by
  rw [toInt_eq_signedOf hp, toNat_second hm]

/-- The lowest bit of a value of `0` or `1` is whether it is `1`. -/
theorem getLsbD_zero_of_le_one {w : Nat} {z : BitVec w} (h : z.toNat ≤ 1) :
    z.getLsbD 0 = decide (z.toNat = 1) := by
  rw [← BitVec.testBit_toNat, Nat.testBit_zero]
  rcases Nat.le_one_iff_eq_zero_or_eq_one.mp h with h0 | h1 <;> simp [*]

/-- Counting the set bits of a bit vector counts those of its value. -/
theorem onesIn_eq {w : Nat} (z : BitVec w) : onesIn z = onesOf z.toNat := by
  rw [onesIn, ← countP_testBit_range z.isLt]
  simp only [BitVec.testBit_toNat]

end Bytes

/-! ## Numbers and bit vectors agree -/

section Agree

variable {o : Opcode} {p q : UInt64 × Nat} {out : Nat}

/-- On one input, p-code's meaning on numbers is its bit-vector semantics. -/
theorem meaning_eq_bitVecFold_unary (hp : 1 ≤ p.2) (hout : 1 ≤ out)
    (hwide : o.wrapsAtInputWidth = true → out ≤ p.2)
    (hbool : o.readsBools = true → (operand p).toNat ≤ 1) :
    o.meaning [((operand p).toNat, p.2)] out = (o.bitVecFold [p] out).map BitVec.toNat := by
  cases o
  case copy | intZext => simp [meaning, bitVecFold, wrapTo_natCast]
  case intSext => simp [meaning, bitVecFold, toNat_signExtend_bytes hp]
  case intNegate => simp [meaning, bitVecFold, wrapTo_natCast]
  case int2Comp =>
    have hle := hwide rfl
    simp only [meaning, bitVecFold, Option.map_some, Option.some.injEq]
    refine (toNat_setWidth_eq_wrapTo hle ?_).symm
    -- the two's complement of `x` is `2 ^ w - x`, which is `-x` modulo `2 ^ w`
    rw [BitVec.toNat_neg]
    refine (natCast_mod_modEq _ _).trans ?_
    rw [Nat.cast_sub (operand p).isLt.le]
    push_cast
    exact Int.modEq_iff_dvd.mpr ⟨-1, by ring⟩
  case boolNegate =>
    have hx := getLsbD_zero_of_le_one (hbool rfl)
    simp only [meaning, bitVecFold, Option.map_some, Option.some.injEq, toNat_ofBool_setWidth hout,
      hx, wrapTo_natCast]
    rcases Nat.le_one_iff_eq_zero_or_eq_one.mp (hbool rfl) with h | h <;>
      simp [h, bitOf, (by omega : 0 < out)]
  case popcount => simp [meaning, bitVecFold, onesIn_eq, wrapTo_natCast]
  all_goals rfl

/-- On two inputs, p-code's meaning on numbers is its bit-vector semantics. -/
theorem meaning_eq_bitVecFold_binary (hp : 1 ≤ p.2) (hout : 1 ≤ out)
    (hsame : o.sameSizes = true → q.2 = p.2)
    (hwide : o.wrapsAtInputWidth = true → out ≤ p.2)
    (hbool : o.readsBools = true → (operand p).toNat ≤ 1 ∧ (operand q).toNat ≤ 1) :
    o.meaning [((operand p).toNat, p.2), ((operand q).toNat, q.2)] out =
      (o.bitVecFold [p, q] out).map BitVec.toNat := by
  have hflag := toNat_ofBool_setWidth hout
  cases o
  -- arithmetic that wraps at the inputs' width
  case intAdd =>
    simp only [meaning, bitVecFold, Option.map_some, Option.some.injEq]
    refine (toNat_setWidth_eq_wrapTo (hwide rfl) ?_).symm
    rw [BitVec.toNat_add, toNat_second (hsame rfl)]
    exact_mod_cast natCast_mod_modEq _ _
  case intSub =>
    simp only [meaning, bitVecFold, Option.map_some, Option.some.injEq]
    refine (toNat_setWidth_eq_wrapTo (hwide rfl) ?_).symm
    have h := toNat_sub_modEq (operand p) ((operand q).setWidth (8 * p.2))
    rwa [toNat_second (hsame rfl)] at h
  case intMult =>
    simp only [meaning, bitVecFold, Option.map_some, Option.some.injEq]
    refine (toNat_setWidth_eq_wrapTo (hwide rfl) ?_).symm
    rw [BitVec.toNat_mul, toNat_second (hsame rfl)]
    exact_mod_cast natCast_mod_modEq _ _
  case intLeft =>
    simp only [meaning, bitVecFold, Option.map_some, Option.some.injEq]
    refine (toNat_setWidth_eq_wrapTo (hwide rfl) ?_).symm
    rw [BitVec.toNat_shiftLeft]
    exact_mod_cast natCast_mod_modEq _ _
  -- signed operations: the two's complement readings, wrapped at the inputs' width
  case intSDiv =>
    have hm := hsame rfl
    have hzero : (operand q).setWidth (8 * p.2) = 0 ↔ (operand q).toNat = 0 := by
      rw [BitVec.toNat_eq, toNat_second hm]
      simp
    simp only [meaning, bitVecFold]
    by_cases h0 : (operand q).toNat = 0
    · simp [h0, hzero.mpr h0]
    · simp only [h0, hzero, if_false, Option.map_some, Option.some.injEq]
      refine (toNat_setWidth_eq_wrapTo (hwide rfl) ?_).symm
      refine (toNat_modEq_toInt _).trans ?_
      rw [BitVec.toInt_sdiv, toInt_eq_signedOf hp, toInt_second hp hm,
        congrArg (fun k => signedOf k (operand q).toNat) hm]
      exact bmod_two_pow_modEq _ _
  case intSRem =>
    have hm := hsame rfl
    have hzero : (operand q).setWidth (8 * p.2) = 0 ↔ (operand q).toNat = 0 := by
      rw [BitVec.toNat_eq, toNat_second hm]
      simp
    simp only [meaning, bitVecFold]
    by_cases h0 : (operand q).toNat = 0
    · simp [h0, hzero.mpr h0]
    · simp only [h0, hzero, if_false, Option.map_some, Option.some.injEq]
      refine (toNat_setWidth_eq_wrapTo (hwide rfl) ?_).symm
      refine (toNat_modEq_toInt _).trans ?_
      rw [BitVec.toInt_srem, toInt_eq_signedOf hp, toInt_second hp hm,
        congrArg (fun k => signedOf k (operand q).toNat) hm]
  case intSRight =>
    simp only [meaning, bitVecFold, Option.map_some, Option.some.injEq]
    refine (toNat_setWidth_eq_wrapTo (hwide rfl) ?_).symm
    refine (toNat_modEq_toInt _).trans ?_
    rw [BitVec.toInt_sshiftRight, toInt_eq_signedOf hp]
  -- results that fit the inputs' width
  case intDiv =>
    have hzero : (operand q).setWidth (8 * p.2) = 0 ↔ (operand q).toNat = 0 := by
      rw [BitVec.toNat_eq, toNat_second (hsame rfl)]
      simp
    simp only [meaning, bitVecFold]
    by_cases h0 : (operand q).toNat = 0
    · simp [h0, hzero.mpr h0]
    · simp only [h0, hzero, ↓reduceIte, Option.map_some, toNat_setWidth_bytes,
        BitVec.toNat_udiv, toNat_second (hsame rfl)]
  case intRem =>
    have hzero : (operand q).setWidth (8 * p.2) = 0 ↔ (operand q).toNat = 0 := by
      rw [BitVec.toNat_eq, toNat_second (hsame rfl)]
      simp
    simp only [meaning, bitVecFold]
    by_cases h0 : (operand q).toNat = 0
    · simp [h0, hzero.mpr h0]
    · simp only [h0, hzero, ↓reduceIte, Option.map_some, toNat_setWidth_bytes,
        BitVec.toNat_umod, toNat_second (hsame rfl)]
  case intAnd =>
    simp only [meaning, bitVecFold, Option.map_some, toNat_setWidth_bytes, BitVec.toNat_and,
      toNat_second (hsame rfl)]
  case intOr =>
    simp only [meaning, bitVecFold, Option.map_some, toNat_setWidth_bytes, BitVec.toNat_or,
      toNat_second (hsame rfl)]
  case intXor =>
    simp only [meaning, bitVecFold, Option.map_some, toNat_setWidth_bytes, BitVec.toNat_xor,
      toNat_second (hsame rfl)]
  case intRight =>
    simp only [meaning, bitVecFold, Option.map_some, toNat_setWidth_bytes,
      BitVec.toNat_ushiftRight]
  case subpiece =>
    simp only [meaning, bitVecFold, Option.map_some, toNat_setWidth_bytes,
      BitVec.toNat_ushiftRight, Nat.shiftRight_eq_div_pow]
  case piece =>
    simp only [meaning, bitVecFold, Option.map_some, toNat_setWidth_bytes, BitVec.toNat_append, Nat.shiftLeft_eq, mul_comm _ (2 ^ (8 * q.2)),
      ← Nat.two_pow_add_eq_or_of_lt (operand q).isLt]
  -- comparisons and carries: flags
  case intEqual =>
    simp only [meaning, bitVecFold, Option.map_some, hflag]
    exact congrArg some (bitOf_congr (by rw [decide_eq_true_iff, BitVec.toNat_eq,
      toNat_second (hsame rfl)]))
  case intNotEqual =>
    simp only [meaning, bitVecFold, Option.map_some, hflag]
    exact congrArg some (bitOf_congr (by simp only [decide_eq_true_iff, ne_eq, BitVec.toNat_eq,
      toNat_second (hsame rfl)]))
  case intLess =>
    simp only [meaning, bitVecFold, Option.map_some, hflag]
    exact congrArg some (bitOf_congr (by rw [BitVec.ult_iff_lt, BitVec.lt_def,
      toNat_second (hsame rfl)]))
  case intLessEqual =>
    simp only [meaning, bitVecFold, Option.map_some, hflag]
    exact congrArg some (bitOf_congr (by rw [BitVec.ule_iff_le, BitVec.le_def,
      toNat_second (hsame rfl)]))
  case intSLess =>
    have hm := hsame rfl
    simp only [meaning, bitVecFold, Option.map_some, hflag]
    exact congrArg some (bitOf_congr (by rw [BitVec.slt_iff_toInt_lt, toInt_eq_signedOf hp,
      toInt_second hp hm, congrArg (fun k => signedOf k (operand q).toNat) hm]))
  case intSLessEqual =>
    have hm := hsame rfl
    simp only [meaning, bitVecFold, Option.map_some, hflag]
    exact congrArg some (bitOf_congr (by rw [BitVec.sle_iff_toInt_le, toInt_eq_signedOf hp,
      toInt_second hp hm, congrArg (fun k => signedOf k (operand q).toNat) hm]))
  case intCarry =>
    simp only [meaning, bitVecFold, Option.map_some, hflag]
    exact congrArg some (bitOf_congr (by rw [BitVec.uaddOverflow, decide_eq_true_iff,
      toNat_second (hsame rfl), ge_iff_le]))
  case intSCarry =>
    have hm := hsame rfl
    simp only [meaning, bitVecFold, Option.map_some, hflag]
    refine congrArg some (bitOf_congr ?_)
    rw [BitVec.saddOverflow, toInt_eq_signedOf hp, toInt_second hp hm]
    simp only [Bool.or_eq_true, decide_eq_true_iff]
    omega
  case intSBorrow =>
    have hm := hsame rfl
    simp only [meaning, bitVecFold, Option.map_some, hflag]
    refine congrArg some (bitOf_congr ?_)
    rw [BitVec.ssubOverflow, toInt_eq_signedOf hp, toInt_second hp hm]
    simp only [Bool.or_eq_true, decide_eq_true_iff]
    omega
  -- boolean operators on flags
  case boolAnd | boolOr | boolXor =>
    obtain ⟨hx, hy⟩ := hbool rfl
    simp only [meaning, bitVecFold, Option.map_some, hflag, getLsbD_zero_of_le_one hx,
      getLsbD_zero_of_le_one hy, wrapTo_natCast]
    rcases Nat.le_one_iff_eq_zero_or_eq_one.mp hx with h | h <;>
      rcases Nat.le_one_iff_eq_zero_or_eq_one.mp hy with h' | h' <;>
      simp [h, h', bitOf, (by omega : 0 < out)]
  all_goals rfl

end Agree

/-! ## Folding reads inputs cut to their sizes -/

/-- An input cut to its size. -/
def normalize (p : UInt64 × Nat) : UInt64 × Nat := (p.1 &&& Word.mask p.2, p.2)

/-- A division or remainder whose divisor, cut to its size, is zero. -/
def DividesByZero (o : Opcode) (ins : List (UInt64 × Nat)) : Prop :=
  o.divides = true ∧ ∃ q, ins[1]? = some q ∧ operand q = 0

section Cut

variable {ins : List (UInt64 × Nat)}

theorem toNat_normalize {p : UInt64 × Nat} (hp : p.2 ≤ 8) :
    (normalize p).1.toNat = (operand p).toNat := by
  rw [normalize, Word.toNat_and_mask hp, toNat_operand]

theorem unsignedAt_normalize : unsignedAt (ins.map normalize) = unsignedAt ins := by
  funext i
  simp only [unsignedAt, List.getElem?_map, Option.map_map]
  exact Option.map_congr fun p _ => by simp [normalize, UInt64.and_assoc]

theorem signedAt_normalize (hs : ∀ p ∈ ins, 1 ≤ p.2 ∧ p.2 ≤ 8) :
    signedAt (ins.map normalize) = signedAt ins := by
  funext i
  simp only [signedAt, List.getElem?_map, Option.map_map]
  refine Option.map_congr fun p hp => ?_
  have h := hs p (List.mem_of_getElem? hp)
  exact Word.signExtend_and_mask h.1 h.2 p.1

theorem sizeAt_normalize : sizeAt (ins.map normalize) = sizeAt ins := by
  funext i
  simp only [sizeAt, List.getElem?_map, Option.map_map]
  rfl

/-- Folding reads its inputs cut to their sizes only. -/
theorem fold_normalize (hs : ∀ p ∈ ins, 1 ≤ p.2 ∧ p.2 ≤ 8) (o : Opcode) (out : Nat) :
    o.fold (ins.map normalize) out = o.fold ins out := by
  have hraw : o.foldRaw (ins.map normalize) = o.foldRaw ins := by
    simp only [foldRaw, unsignedAt_normalize, signedAt_normalize hs, sizeAt_normalize]
  simp only [fold, hraw, List.any_map]
  rfl

end Cut

/-! ## Folding agrees with the bit vectors -/

/-- The operations of one input that compute: copies, extensions, negations and `POPCOUNT`. -/
theorem eq_of_arity_one (hc : o.computes = true) (ha : o.arity = 1) :
    o = copy ∨ o = intZext ∨ o = intSext ∨ o = int2Comp ∨ o = intNegate ∨ o = boolNegate ∨
      o = popcount := by
  cases o <;> simp only [computes, arity, reduceCtorEq, Nat.reduceEqDiff] at hc ha <;> simp


section Fold

variable {o : Opcode} {p q : UInt64 × Nat} {out : Nat} {r : UInt64}

theorem bitOf_eq_toNat (c : Bool) : bitOf (c = true) = c.toNat := by
  cases c <;> rfl

/-- A flag cut to one byte or more is kept. -/
theorem toNat_flag_and_mask (hout : 1 ≤ out ∧ out ≤ 8) {w : UInt64} (hw : w.toNat < 2) :
    (w &&& Word.mask out).toNat = w.toNat := by
  have h2 : 2 ≤ 2 ^ (8 * out) := by
    calc 2 = 2 ^ 1 := rfl
      _ ≤ 2 ^ (8 * out) := Nat.pow_le_pow_right (by norm_num) (by omega)
  rw [Word.toNat_and_mask hout.2, Nat.mod_eq_of_lt (by omega)]

/-- The lowest bit of a word, as a flag. -/
theorem toNat_and_one (x : UInt64) : (x &&& 1).toNat = (x.toNat.testBit 0).toNat := by
  rw [UInt64.toNat_and, UInt64.toNat_one, Nat.and_one_is_mod, Nat.testBit_zero]
  rcases Nat.mod_two_eq_zero_or_one x.toNat with h | h <;> simp [h]

theorem getLsbD_operand (p : UInt64 × Nat) (hp : p.2 ≤ 8) :
    (operand p).getLsbD 0 = (p.1 &&& Word.mask p.2).toNat.testBit 0 := by
  rw [← BitVec.testBit_toNat, ← toNat_normalize hp]
  rfl

/-- Copies cut or zero-extend their input, to any output size. -/
theorem fold_copy (hp : p.2 ≤ 8) (hout : 1 ≤ out ∧ out ≤ 8) :
    ∃ r v, copy.fold [p] out = some r ∧ copy.bitVecFold [p] out = some v ∧ r.toNat = v.toNat := by
  refine ⟨(p.1 &&& Word.mask p.2) &&& Word.mask out, (operand p).setWidth (8 * out),
    by simp [fold, foldRaw, unsignedAt, hp, hout.2], rfl, ?_⟩
  rw [Word.toNat_and_mask hout.2, Word.toNat_and_mask hp, BitVec.toNat_setWidth, toNat_operand]

/-- `BOOL_NEGATE` reads the lowest bit of its input, whatever the other bits. -/
theorem fold_boolNegate (hp : p.2 ≤ 8) (hout : 1 ≤ out ∧ out ≤ 8) :
    ∃ r v, boolNegate.fold [p] out = some r ∧ boolNegate.bitVecFold [p] out = some v ∧
      r.toNat = v.toNat := by
  refine ⟨((p.1 &&& Word.mask p.2) &&& 1 ^^^ 1) &&& Word.mask out,
    (BitVec.ofBool !(operand p).getLsbD 0).setWidth (8 * out),
    by simp [fold, foldRaw, unsignedAt, hp, hout.2], rfl, ?_⟩
  rw [toNat_ofBool_setWidth hout.1, bitOf_eq_toNat, getLsbD_operand p hp]
  generalize p.1 &&& Word.mask p.2 = a
  have hbit : (a &&& 1 ^^^ 1).toNat = (!a.toNat.testBit 0).toNat := by
    rw [UInt64.toNat_xor, toNat_and_one, UInt64.toNat_one]
    cases a.toNat.testBit 0 <;> rfl
  rw [toNat_flag_and_mask hout (by rw [hbit]; exact Bool.toNat_lt _), hbit]

/-- `BOOL_AND`, `BOOL_OR` and `BOOL_XOR` read the lowest bit of their inputs, whatever the
other bits. -/
theorem fold_readsBools_binary (hb : o.readsBools = true) (ha : o.arity = 2) (hp : p.2 ≤ 8)
    (hq : q.2 ≤ 8) (hout : 1 ≤ out ∧ out ≤ 8) :
    ∃ r v, o.fold [p, q] out = some r ∧ o.bitVecFold [p, q] out = some v ∧ r.toNat = v.toNat := by
  have hflag := toNat_ofBool_setWidth hout.1
  cases o <;> simp only [readsBools, arity, reduceCtorEq, Nat.reduceEqDiff] at hb ha
  case boolAnd =>
    refine ⟨((p.1 &&& Word.mask p.2) &&& (q.1 &&& Word.mask q.2) &&& 1) &&& Word.mask out, _,
      by simp [fold, foldRaw, unsignedAt, hp, hq, hout.2], rfl, ?_⟩
    rw [hflag, bitOf_eq_toNat, getLsbD_operand p hp, getLsbD_operand q hq]
    generalize p.1 &&& Word.mask p.2 = a
    generalize q.1 &&& Word.mask q.2 = b
    have hbit : (a &&& b &&& 1).toNat = (a.toNat.testBit 0 && b.toNat.testBit 0).toNat := by
      rw [toNat_and_one, UInt64.toNat_and, Nat.testBit_and]
    rw [toNat_flag_and_mask hout (by rw [hbit]; exact Bool.toNat_lt _), hbit]
  case boolOr =>
    refine ⟨(((p.1 &&& Word.mask p.2) ||| (q.1 &&& Word.mask q.2)) &&& 1) &&& Word.mask out, _,
      by simp [fold, foldRaw, unsignedAt, hp, hq, hout.2], rfl, ?_⟩
    rw [hflag, bitOf_eq_toNat, getLsbD_operand p hp, getLsbD_operand q hq]
    generalize p.1 &&& Word.mask p.2 = a
    generalize q.1 &&& Word.mask q.2 = b
    have hbit : ((a ||| b) &&& 1).toNat = (a.toNat.testBit 0 || b.toNat.testBit 0).toNat := by
      rw [toNat_and_one, UInt64.toNat_or, Nat.testBit_or]
    rw [toNat_flag_and_mask hout (by rw [hbit]; exact Bool.toNat_lt _), hbit]
  case boolXor =>
    refine ⟨(((p.1 &&& Word.mask p.2) ^^^ (q.1 &&& Word.mask q.2)) &&& 1) &&& Word.mask out, _,
      by simp [fold, foldRaw, unsignedAt, hp, hq, hout.2], rfl, ?_⟩
    rw [hflag, bitOf_eq_toNat, getLsbD_operand p hp, getLsbD_operand q hq]
    generalize p.1 &&& Word.mask p.2 = a
    generalize q.1 &&& Word.mask q.2 = b
    have hbit : ((a ^^^ b) &&& 1).toNat = (a.toNat.testBit 0 ^^ b.toNat.testBit 0).toNat := by
      rw [toNat_and_one, UInt64.toNat_xor, Nat.testBit_xor]
    rw [toNat_flag_and_mask hout (by rw [hbit]; exact Bool.toNat_lt _), hbit]

/-- Folding an operation p-code sizes agrees with its meaning on the inputs cut to their sizes,
the boolean operators apart (`fold_sound`). -/
theorem fold_toNat_of_meaning {ins : List (UInt64 × Nat)} (hs : ∀ p ∈ ins, 1 ≤ p.2 ∧ p.2 ≤ 8)
    (hout : 1 ≤ out ∧ out ≤ 8) (hsized : o.Sized (ins.map (·.2)) out)
    (hb : o.readsBools = false) (hf : o.fold ins out = some r) {v : Nat}
    (hv : o.meaning (ins.map fun p => ((operand p).toNat, p.2)) out = some v) : r.toNat = v := by
  have hcut : (ins.map normalize).map (fun k => (k.1.toNat, k.2)) =
      ins.map fun p => ((operand p).toNat, p.2) := by
    rw [List.map_map]
    refine List.map_congr_left fun p hp => ?_
    show ((normalize p).1.toNat, (normalize p).2) = _
    rw [toNat_normalize (hs p hp).2]
    rfl
  have hfold : o.fold (ins.map normalize) out = some r := (fold_normalize hs o out).trans hf
  refine fold_sound ?_ hout (by rw [List.map_map]; exact hsized) (by simp [hb]) hfold (hcut ▸ hv)
  intro k hk
  obtain ⟨p, hp, rfl⟩ := List.mem_map.mp hk
  exact ⟨(hs p hp).1, (hs p hp).2, (toNat_normalize (hs p hp).2).symm ▸ (operand p).isLt⟩

theorem sized_unary {n : Nat} (hc : o ≠ copy) (hwide : o.wrapsAtInputWidth = true → out ≤ n) :
    o.Sized [n] out := by
  cases o <;> simp_all [Sized, wrapsAtInputWidth]

theorem sized_binary {n m : Nat} (hsame : o.sameSizes = true → m = n)
    (hwide : o.wrapsAtInputWidth = true → out ≤ n) : o.Sized [n, m] out := by
  cases o <;> simp_all [Sized, sameSizes, wrapsAtInputWidth]

/-! ## When folding has no value -/

theorem and_mask_eq_zero_iff (hq : q.2 ≤ 8) : q.1 &&& Word.mask q.2 = 0 ↔ operand q = 0 := by
  rw [← UInt64.toNat_inj, Word.toNat_and_mask hq, BitVec.toNat_eq, toNat_operand]
  simp

theorem signExtend_eq_zero_iff_operand (hq : 1 ≤ q.2 ∧ q.2 ≤ 8) :
    Word.signExtend q.1 q.2 = 0 ↔ operand q = 0 := by
  rw [Word.signExtend_eq_zero_iff hq.1 hq.2, BitVec.toNat_eq, toNat_operand]
  simp

theorem second_eq_zero_iff (hm : q.2 = p.2) : (operand q).setWidth (8 * p.2) = 0 ↔ operand q = 0 := by
  rw [BitVec.toNat_eq, toNat_second hm, BitVec.toNat_eq]
  simp

/-- The operations that compute nothing never fold. -/
theorem fold_eq_none_of_not_computes (hc : o.computes = false) (ins : List (UInt64 × Nat))
    (out : Nat) : o.fold ins out = none := by
  have hraw : o.foldRaw ins = none := by
    cases o <;> simp_all [computes, foldRaw]
  simp [fold, hraw]

theorem bitVecFold_eq_none_of_not_computes (hc : o.computes = false) (ins : List (UInt64 × Nat))
    (out : Nat) : o.bitVecFold ins out = none := by
  cases o <;> simp only [computes, reduceCtorEq] at hc <;> rfl

/-- An operation of two inputs folds unless it divides by zero or is a `PIECE` with an eight-byte
low part. -/
theorem fold_binary_eq_none_iff (hp : 1 ≤ p.2 ∧ p.2 ≤ 8) (hq : 1 ≤ q.2 ∧ q.2 ≤ 8) (hout : out ≤ 8)
    (hc : o.computes = true) (ha : o.arity = 2) :
    o.fold [p, q] out = none ↔ o.DividesByZero [p, q] ∨ (o = piece ∧ q.2 = 8) := by
  have hguard : ¬ (8 < out ∨ [p, q].any (fun k => 8 < k.2)) := by
    simp only [List.any_cons, List.any_nil, Bool.or_false, Bool.or_eq_true, decide_eq_true_eq]
    omega
  have hu := and_mask_eq_zero_iff hq.2
  have hsx := signExtend_eq_zero_iff_operand hq
  have h8 : 8 ≤ q.2 ↔ q.2 = 8 := by omega
  rw [fold, if_neg hguard, Option.map_eq_none_iff]
  cases o <;> simp only [computes, arity, reduceCtorEq, Nat.reduceEqDiff] at hc ha <;>
    simp [foldRaw, unsignedAt, signedAt, sizeAt, DividesByZero, divides, hu, hsx, h8, ite_eq_iff]

/-- The bit vectors give an operation of two inputs a value unless it divides by zero. -/
theorem bitVecFold_binary_eq_none_iff (hc : o.computes = true) (ha : o.arity = 2)
    (hsame : o.sameSizes = true → q.2 = p.2) :
    o.bitVecFold [p, q] out = none ↔ o.DividesByZero [p, q] := by
  cases o <;> simp only [computes, arity, reduceCtorEq, Nat.reduceEqDiff] at hc ha
  case intDiv | intRem | intSDiv | intSRem =>
    simp only [bitVecFold, DividesByZero, divides, ite_eq_left_iff, reduceCtorEq, imp_false,
      not_not, List.getElem?_cons_succ, List.getElem?_cons_zero, Option.some.injEq, exists_eq_left',
      true_and]
    exact second_eq_zero_iff (hsame rfl)
  all_goals simp [bitVecFold, DividesByZero, divides]

/-! ## Folding agrees with the bit vectors -/

/-- An operation of one input always folds, to its bit-vector value. -/
theorem fold_unary (hp : 1 ≤ p.2 ∧ p.2 ≤ 8) (hout : 1 ≤ out ∧ out ≤ 8) (hc : o.computes = true)
    (ha : o.arity = 1) (hwide : o.wrapsAtInputWidth = true → out ≤ p.2) :
    ∃ r v, o.fold [p] out = some r ∧ o.bitVecFold [p] out = some v ∧ r.toNat = v.toNat := by
  by_cases hcopy : o = copy
  · subst hcopy
    exact fold_copy hp.2 hout
  by_cases hneg : o = boolNegate
  · subst hneg
    exact fold_boolNegate hp.2 hout
  -- the others fold to what p-code means, which is their bit-vector value
  have hb : o.readsBools = false := by
    rcases eq_of_arity_one hc ha with rfl | rfl | rfl | rfl | rfl | rfl | rfl <;>
      simp_all [readsBools]
  obtain ⟨r, hr⟩ : ∃ r, o.fold [p] out = some r := by
    rcases eq_of_arity_one hc ha with rfl | rfl | rfl | rfl | rfl | rfl | rfl <;>
      simp_all [fold, foldRaw, unsignedAt, signedAt]
  obtain ⟨v, hv⟩ : ∃ v, o.bitVecFold [p] out = some v := by
    rcases eq_of_arity_one hc ha with rfl | rfl | rfl | rfl | rfl | rfl | rfl <;>
      simp_all [bitVecFold]
  refine ⟨r, v, hr, hv, fold_toNat_of_meaning (by simpa using hp) hout (sized_unary hcopy hwide) hb
    hr ?_⟩
  rw [List.map_singleton, meaning_eq_bitVecFold_unary hp.1 hout.1 hwide (by simp [hb]), hv]
  rfl

/-- When an operation of two inputs folds, it folds to its bit-vector value. -/
theorem fold_binary (hp : 1 ≤ p.2 ∧ p.2 ≤ 8) (hq : 1 ≤ q.2 ∧ q.2 ≤ 8)
    (hout : 1 ≤ out ∧ out ≤ 8) (hc : o.computes = true) (ha : o.arity = 2)
    (hsame : o.sameSizes = true → q.2 = p.2) (hwide : o.wrapsAtInputWidth = true → out ≤ p.2)
    (hf : o.fold [p, q] out = some r) :
    ∃ v, o.bitVecFold [p, q] out = some v ∧ r.toNat = v.toNat := by
  by_cases hb : o.readsBools = true
  · obtain ⟨r', v, hr', hv, heq⟩ := fold_readsBools_binary hb ha hp.2 hq.2 hout
    rw [hf, Option.some.injEq] at hr'
    subst hr'
    exact ⟨v, hv, heq⟩
  -- a division by zero would not fold, so the bit vectors have a value
  obtain ⟨v, hv⟩ : ∃ v, o.bitVecFold [p, q] out = some v := by
    refine Option.ne_none_iff_exists'.mp fun hnone => ?_
    have hfail := (bitVecFold_binary_eq_none_iff hc ha hsame).mp hnone
    have := (fold_binary_eq_none_iff hp hq hout.2 hc ha).mpr (Or.inl hfail)
    rw [hf] at this
    cases this
  refine ⟨v, hv, fold_toNat_of_meaning (by simp [hp, hq]) hout (sized_binary hsame hwide)
    (by simpa using hb) hf ?_⟩
  rw [List.map_cons, List.map_cons, List.map_nil,
    meaning_eq_bitVecFold_binary hp.1 hout.1 hsame hwide (fun h => absurd h hb), hv]
  rfl

end Fold

/-- **Folding is p-code's bit-vector semantics.** For inputs of one to eight bytes, as many as
the operation takes, of one size for arithmetic and comparisons, and an output of one to eight
bytes, no wider than the input for the operations whose result wraps at the input's width:
whenever folding gives a value, it is the bit-vector result cut to the output's bytes; and
folding gives none exactly for the operations that compute nothing, for a division or remainder
by zero, and for a `PIECE` whose low part has eight bytes. -/
theorem fold_bitVec_semantics (o : Opcode) (ins : List (UInt64 × Nat)) (out : Nat)
    (hsizes : ∀ p ∈ ins, 1 ≤ p.2 ∧ p.2 ≤ 8) (hout : 1 ≤ out ∧ out ≤ 8)
    (harity : o.computes = true → ins.length = o.arity)
    (hsame : o.sameSizes = true → ∀ p ∈ ins, ∀ q ∈ ins, p.2 = q.2)
    (hwide : o.wrapsAtInputWidth = true → out ≤ sizeAt ins 0) :
    (∀ r, o.fold ins out = some r → ∃ v, o.bitVecFold ins out = some v ∧ r.toNat = v.toNat) ∧
    (o.fold ins out = none ↔
      o.computes = false ∨ o.DividesByZero ins ∨ (o = piece ∧ sizeAt ins 1 = 8)) := by
  cases hc : o.computes
  case false =>
    have hnone := fold_eq_none_of_not_computes hc ins out
    refine ⟨fun r hr => ?_, iff_of_true hnone (Or.inl rfl)⟩
    rw [hnone] at hr
    cases hr
  case true =>
    have hlen := harity hc
    rcases (by cases o <;> simp [arity] : o.arity = 1 ∨ o.arity = 2) with ha | ha
    · -- one input: always a value, and neither a division nor a `PIECE`
      obtain ⟨p, rfl⟩ := List.length_eq_one_iff.mp (ha ▸ hlen)
      obtain ⟨r, v, hr, hv, heq⟩ :=
        fold_unary (hsizes p (by simp)) hout hc ha (by simpa [sizeAt] using hwide)
      refine ⟨fun r' hr' => ?_, ?_⟩
      · rw [hr, Option.some.injEq] at hr'
        subst hr'
        exact ⟨v, hv, heq⟩
      · have hpiece : o ≠ piece := by
          rintro rfl
          simp [arity] at ha
        simp [hr, DividesByZero, hpiece]
    · -- two inputs
      obtain ⟨p, q, rfl⟩ := List.length_eq_two.mp (ha ▸ hlen)
      have hp := hsizes p (by simp)
      have hq := hsizes q (by simp)
      have hsame' : o.sameSizes = true → q.2 = p.2 := fun h => hsame h q (by simp) p (by simp)
      refine ⟨fun r hr => fold_binary hp hq hout hc ha hsame' (by simpa [sizeAt] using hwide) hr,
        ?_⟩
      rw [fold_binary_eq_none_iff hp hq hout.2 hc ha]
      simp [sizeAt]

/-- A two-byte sum of two bytes: the 64-bit words carry into the second byte, the bit vectors of
one byte do not. -/
theorem intAdd_fold_wider_output :
    intAdd.fold [(0xff, 1), (0x01, 1)] 2 = some 0x100 ∧
      intAdd.bitVecFold [(0xff, 1), (0x01, 1)] 2 = some 0#16 := by
  decide

/-- Dividing the least one-byte number by minus one wraps back to it. -/
theorem fold_bitVec_semantics_sdiv_overflow :
    (∀ p ∈ [((0x80 : UInt64), 1), ((0xff : UInt64), 1)], 1 ≤ p.2 ∧ p.2 ≤ 8) ∧
      (1 ≤ 1 ∧ 1 ≤ 8) ∧
      (intSDiv.computes = true → [((0x80 : UInt64), 1), ((0xff : UInt64), 1)].length = intSDiv.arity) ∧
      (intSDiv.sameSizes = true → ∀ p ∈ [((0x80 : UInt64), 1), ((0xff : UInt64), 1)],
        ∀ q ∈ [((0x80 : UInt64), 1), ((0xff : UInt64), 1)], p.2 = q.2) ∧
      (intSDiv.wrapsAtInputWidth = true → 1 ≤ sizeAt [((0x80 : UInt64), 1), ((0xff : UInt64), 1)] 0) ∧
      intSDiv.fold [(0x80, 1), (0xff, 1)] 1 = some 0x80 ∧
      ((∀ r, intSDiv.fold [(0x80, 1), (0xff, 1)] 1 = some r →
          ∃ v, intSDiv.bitVecFold [(0x80, 1), (0xff, 1)] 1 = some v ∧ r.toNat = v.toNat) ∧
        (intSDiv.fold [(0x80, 1), (0xff, 1)] 1 = none ↔
          intSDiv.computes = false ∨ intSDiv.DividesByZero [(0x80, 1), (0xff, 1)] ∨
            (intSDiv = piece ∧ sizeAt [(0x80, 1), (0xff, 1)] 1 = 8))) := by
  have hs : ∀ p ∈ [((0x80 : UInt64), 1), ((0xff : UInt64), 1)], 1 ≤ p.2 ∧ p.2 ≤ 8 := by decide
  have hsame : intSDiv.sameSizes = true → ∀ p ∈ [((0x80 : UInt64), 1), ((0xff : UInt64), 1)],
      ∀ q ∈ [((0x80 : UInt64), 1), ((0xff : UInt64), 1)], p.2 = q.2 := by decide
  refine ⟨hs, by decide, by decide, hsame, by decide, by decide,
    fold_bitVec_semantics intSDiv _ 1 hs (by decide) (by decide) hsame (by decide)⟩

end Opcode

end MicroSsa
