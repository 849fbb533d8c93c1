import MicroSsa.Opcode
import MicroSsa.Word
/-!
# Folding operations over constants

`Opcode.fold o ins outSize` is the result of the operation `o` on constant inputs, each given
with its byte size, cut to `outSize` bytes. It is `none` when the operation has no value on
constants: memory, control flow and merges, an input missing for the operation's arity, a size
above eight bytes, and a division by zero.

Inputs are read in two ways: `unsignedAt` keeps the low bytes of the size, `signedAt` reads them
as a two's complement number. Arithmetic wraps at 64 bits; shifts by 64 or more give zero,
except the arithmetic right shift, which stops at 63.
-/

namespace MicroSsa

namespace Opcode

/-- Input `i` cut to its size. -/
def unsignedAt (ins : List (UInt64 × Nat)) (i : Nat) : Option UInt64 :=
  ins[i]?.map fun (v, sz) => v &&& Word.mask sz

/-- Input `i` read as a signed number of its size. -/
def signedAt (ins : List (UInt64 × Nat)) (i : Nat) : Option Int64 :=
  ins[i]?.map fun (v, sz) => Word.signExtend v sz

/-- The byte size of input `i`, zero when it is missing. -/
def sizeAt (ins : List (UInt64 × Nat)) (i : Nat) : Nat :=
  (ins[i]?.map (·.2)).getD 0

/-- Whether the top bit of a value of `sz` bytes is set. -/
def signBit (v : UInt64) (sz : Nat) : Bool :=
  sz > 0 && (v >>> UInt64.ofNat (sz * 8 - 1)) &&& 1 == 1

/-- One for true, zero for false. -/
def ofBool (b : Bool) : UInt64 := if b then 1 else 0

/-- The number of set bits of a word. -/
def popCount (v : UInt64) : UInt64 :=
  UInt64.ofNat ((List.range 64).countP fun i => v.toNat.testBit i)

/-- The result of an operation on constants before it is cut to the output size. -/
def foldRaw (o : Opcode) (ins : List (UInt64 × Nat)) : Option UInt64 :=
  let m := unsignedAt ins
  let s := signedAt ins
  match o with
  | copy | intZext => m 0
  | intSext => (s 0).map Int64.toUInt64
  | intAdd => do pure ((← m 0) + (← m 1))
  | intSub => do pure ((← m 0) - (← m 1))
  | intMult => do pure ((← m 0) * (← m 1))
  | intDiv => do
    let a ← m 0
    let b ← m 1
    if b = 0 then none else pure (a / b)
  | intRem => do
    let a ← m 0
    let b ← m 1
    if b = 0 then none else pure (a % b)
  | intSDiv => do
    let b ← s 1
    if b = 0 then none else pure ((← s 0) / b).toUInt64
  | intSRem => do
    let b ← s 1
    if b = 0 then none else pure ((← s 0) % b).toUInt64
  | intAnd => do pure ((← m 0) &&& (← m 1))
  | intOr => do pure ((← m 0) ||| (← m 1))
  | intXor => do pure ((← m 0) ^^^ (← m 1))
  | intLeft => do
    let sh ← m 1
    if 64 ≤ sh.toNat then pure 0 else pure ((← m 0) <<< sh)
  | intRight => do
    let sh ← m 1
    if 64 ≤ sh.toNat then pure 0 else pure ((← m 0) >>> sh)
  | intSRight => do
    let a ← s 0
    let sh ← m 1
    pure (a >>> Int64.ofNat (min sh.toNat 63)).toUInt64
  | intNegate => do pure (~~~(← m 0))
  | int2Comp => do pure (0 - (← m 0))
  | intEqual => do pure (ofBool ((← m 0) == (← m 1)))
  | intNotEqual => do pure (ofBool ((← m 0) != (← m 1)))
  | intLess => do pure (ofBool ((← m 0).toNat < (← m 1).toNat))
  | intLessEqual => do pure (ofBool ((← m 0).toNat ≤ (← m 1).toNat))
  | intSLess => do pure (ofBool ((← s 0).toInt < (← s 1).toInt))
  | intSLessEqual => do pure (ofBool ((← s 0).toInt ≤ (← s 1).toInt))
  | intCarry => do
    let a ← m 0
    let b ← m 1
    pure (ofBool ((Word.mask (sizeAt ins 0)).toNat < a.toNat + b.toNat))
  | intSCarry => do
    let sz := sizeAt ins 0
    let a ← m 0
    let b ← m 1
    let r := (a + b) &&& Word.mask sz
    pure (ofBool (signBit a sz == signBit b sz && signBit r sz != signBit a sz))
  | intSBorrow => do
    let sz := sizeAt ins 0
    let a ← m 0
    let b ← m 1
    let r := (a - b) &&& Word.mask sz
    pure (ofBool (signBit a sz != signBit b sz && signBit r sz != signBit a sz))
  | boolNegate => do pure (((← m 0) &&& 1) ^^^ 1)
  | boolAnd => do pure ((← m 0) &&& (← m 1) &&& 1)
  | boolOr => do pure (((← m 0) ||| (← m 1)) &&& 1)
  | boolXor => do pure (((← m 0) ^^^ (← m 1)) &&& 1)
  | piece => do
    let low := sizeAt ins 1
    if 8 ≤ low then none
    else pure (((← m 0) <<< UInt64.ofNat (low * 8)) ||| (← m 1))
  | subpiece => do
    let sh ← m 1
    if 8 ≤ sh.toNat then pure 0 else pure ((← m 0) >>> UInt64.ofNat (sh.toNat * 8))
  | popcount => do pure (popCount (← m 0))
  | load | store | branch | cbranch | branchInd | call | callInd | callOther | ret
  | multiEqual | indirect | nop => none

/-- The result of an operation on constants, cut to `outSize` bytes; `none` when some size is
above eight bytes or the operation has no value on these inputs. -/
def fold (o : Opcode) (ins : List (UInt64 × Nat)) (outSize : Nat) : Option UInt64 :=
  if 8 < outSize ∨ ins.any (fun p => 8 < p.2) then none
  else (foldRaw o ins).map (· &&& Word.mask outSize)

end Opcode

end MicroSsa
