import MicroSsa.Function.Basic
/-!
# Recovering jump tables

An indirect branch whose destination has the shape, after copies and extensions,

```text
BRANCHIND (LOAD (INT_ADD base (INT_MULT idx scale)))
```

with `base` a known constant (it may itself be loaded from read-only memory) and the scale given
by a multiplication or a left shift, reads a **jump table** at `base`. The number of entries comes
from a **guard**: a conditional branch on `idx` compared with a constant, in a block dominating
the branch, one of whose edges alone leads to the branch (the other edge's block becomes the
default target). Failing a guard, a **mask** `INT_AND idx m` bounds the index to `m + 1`
entries. Every entry must be readable from the image and point into code.

`Function.recoverTable` works on a function in SSA form with constants propagated. Def-use walks
are bounded by the number of operations, which no chain of definitions in SSA form exceeds.
-/

namespace MicroSsa

namespace Function

/-- The defining operation of a varnode. -/
def defOf (f : Function) (v : Nat) : Option Op :=
  (f.store.vn? v).bind (·.defOp) >>= f.store.op?

/-- Whether an opcode only copies or extends its first input. -/
def isExtension (o : Opcode) : Bool :=
  o == .copy || o == .intZext || o == .intSext

/-- The chain of varnodes `v` was copied or extended from, starting with `v`. -/
def aliasChain (f : Function) : Nat → Nat → List Nat
  | 0, v => [v]
  | fuel + 1, v =>
    match f.defOf v with
    | some x =>
      match x.inputs[0]? with
      | some i => if isExtension x.opcode then v :: aliasChain f fuel i else [v]
      | none => [v]
    | none => [v]

/-- The varnode at the end of the chain of copies and extensions defining `v`. -/
def stripExtensions (f : Function) (fuel v : Nat) : Nat :=
  ((f.aliasChain fuel v).getLast?).getD v

/-- The constant a varnode is known to hold. -/
def constantOf (f : Function) (v : Nat) : Option UInt64 :=
  (f.store.vn? v).bind (·.value.asConst?)

/-- Splits a table pointer into base, index and scale. -/
def matchTableAddress (f : Function) (ptr : Nat) : Option (UInt64 × Nat × UInt64) := do
  let add ← f.defOf ptr
  if add.opcode != .intAdd then none
  let a ← add.inputs[0]?
  let b ← add.inputs[1]?
  let (base, scaled) ← match f.constantOf a, f.constantOf b with
    | some c, none => some (c, b)
    | none, some c => some (c, a)
    | _, _ => none
  match f.defOf scaled with
  | none => some (base, scaled, 1)
  | some x =>
    let factor := x.inputs[1]? >>= f.constantOf
    match x.opcode, x.inputs[0]?, factor with
    | .intMult, some idx, some scale => some (base, idx, scale)
    | .intLeft, some idx, some shift =>
      if shift.toNat < 64 then some (base, idx, (1 : UInt64) <<< shift) else some (base, scaled, 1)
    | _, _, _ => some (base, scaled, 1)

/-- A bound on a table index: the number of entries and the default target. -/
structure Bound where
  size : UInt64
  default : Option Address

/-- The condition of a branch with its boolean negations stripped, and whether an odd number of
them was stripped. -/
def stripNegations (f : Function) : Nat → Nat → Bool → Nat × Bool
  | 0, v, neg => (v, neg)
  | fuel + 1, v, neg =>
    match f.defOf v with
    | some x =>
      match x.inputs[0]? with
      | some i => if x.opcode == .boolNegate then stripNegations f fuel i (!neg) else (v, neg)
      | none => (v, neg)
    | none => (v, neg)

/-- What the guard in block `blk` says about the index, if it is one: `none` to look further
up, `some none` to give up, `some (some b)` for a bound. -/
def guardAt (f : Function) (switch : Nat) (chain : List Nat) (blk : Block) :
    Option (Option Bound) := do
  let last ← blk.ops.back?
  let cb ← f.store.op? last
  if cb.opcode != .cbranch || blk.outs.size != 2 then none
  let c0 ← cb.inputs[1]?
  let (cond, negated) := f.stripNegations (f.store.ops.size + 1) c0 false
  let cmp ← f.defOf cond
  let inclusive ← match cmp.opcode with
    | .intLess => some false
    | .intLessEqual => some true
    | _ => none
  let l ← cmp.inputs[0]?
  let r ← cmp.inputs[1]?
  let onLeft ← if chain.contains l then some true else if chain.contains r then some false else none
  let c ← f.constantOf (if onLeft then r else l)
  let leads (slot : Nat) : Bool :=
    match blk.outs[slot]? with
    | some e => f.graph.dominates e.target switch
    | none => false
  let (switchSlot, otherSlot) ← match leads 0, leads 1 with
    | false, true => some (1, 0)
    | true, false => some (0, 1)
    | _, _ => none
  let holds := (switchSlot == 1) != negated
  let default := (blk.outs[otherSlot]?).bind fun e => (f.graph.get e.target).start
  let plusOne : Option Bound := if c.toNat + 1 < Nat.pow 2 64 then some ⟨c + 1, default⟩ else none
  match onLeft, inclusive, holds with
  | true, false, true => some (some ⟨c, default⟩)
  | true, true, true => some plusOne
  | false, false, false => some plusOne
  | false, true, false => some (some ⟨c, default⟩)
  | _, _, _ => none

/-- Looks for a guard in the blocks dominating `cur`, nearest first. -/
def guardLoop (f : Function) (switch : Nat) (chain : List Nat) : Nat → Nat → Option Bound
  | 0, _ => none
  | fuel + 1, cur =>
    match (f.graph.get cur).idom with
    | none => none
    | some d =>
      match f.guardAt switch chain (f.graph.get d) with
      | some r => r
      | none => guardLoop f switch chain fuel d

/-- The bound a mask on some varnode of the chain gives. -/
def maskBound (f : Function) (chain : List Nat) : Option Bound :=
  chain.findSome? fun v => do
    let x ← f.defOf v
    if x.opcode != .intAnd then none
    let a ← x.inputs[0]?
    let b ← x.inputs[1]?
    let m ← [a, b].findSome? f.constantOf
    if m.toNat + 1 < Nat.pow 2 64 then some ⟨m + 1, none⟩ else none

/-- Recovers the jump table behind the indirect branch `o`. -/
def recoverTable (ctx : Context) (f : Function) (o : Nat) : Except RecoveryFailure JumpTable := do
  let some br := f.store.op? o | throw .noTableLoad
  if br.opcode != .branchInd then throw (.notIndirect br.seq)
  let some switch := br.parent | throw (.notIndirect br.seq)
  let fuel := f.store.ops.size + 1
  let some dest := br.inputs[0]? | throw .noTableLoad
  let some load := (f.defOf (f.stripExtensions fuel dest)).filter (·.opcode == .load)
    | throw .noTableLoad
  let some entrySize := (load.output >>= f.store.vn?).map (·.loc.size) |>.filter fun s => 0 < s && s ≤ 8
    | throw .noTableLoad
  let tableSpace := match (load.inputs[0]? >>= f.store.vn?).bind (·.constValue?) with
    | some c => (c &&& 0xff).toNat
    | none => ctx.arch.codeSpace
  let some ptr := load.inputs[1]? | throw .noTableLoad
  let some (base, idx, scale) := f.matchTableAddress ptr | throw .unrecognizedAddress
  let chain := f.aliasChain fuel idx
  let some bound := (f.guardLoop switch chain (f.graph.size + 1) switch).orElse fun _ => f.maskBound chain
    | throw .unbounded
  if bound.size == 0 || ctx.limits.maxJumpTableSize < bound.size.toNat then throw (.tooLarge bound.size)
  let tableAddr : Address := ⟨tableSpace, base⟩
  let entries ← (List.range bound.size.toNat).mapM fun i => do
    let entry := tableAddr.add (UInt64.ofNat i * scale)
    match ctx.image.readValue entry entrySize ctx.arch.endian with
    | .error _ => throw (.unreadable entry)
    | .ok v =>
      let target : Address := ⟨ctx.arch.codeSpace, v⟩
      if !ctx.image.isCode target then throw (.targetNotCode target)
      pure target
  let (addresses, defaultIndex) := match bound.default with
    | some d => (entries ++ [d], some entries.length)
    | none => (entries, none)
  pure { opSeq := br.seq, opAddr := br.seq.addr, addresses := addresses.toArray
         defaultIndex := defaultIndex, lastIndex := bound.size - 1, size := bound.size.toNat
         tableAddr := tableAddr, entrySize := entrySize }

end Function

end MicroSsa
