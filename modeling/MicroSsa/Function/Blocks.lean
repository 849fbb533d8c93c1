import MicroSsa.Function.Basic
import MicroSsa.InsertionSet
/-!
# Basic blocks

`Function.generateBlocks` partitions the alive operations into basic blocks and connects them.

An operation starts a block when it is marked so, or when it is not the **fallthrough** of the
operation before it: the next alive operation of the same instruction, or the first operation of
the instruction that begins right where this one ends. Marks go on the first operation at the
function's address, at every queued block start and jump-table target, after every branch,
and on the target of every direct branch.

The last operation of a block decides its out-edges: a branch goes to its target's block, a
conditional branch to its fallthrough block and then its target's block, an indirect branch to
the distinct targets of its jump table (the default labelled as such), a return nowhere, and
anything else to its fallthrough block. A missing target marks the block as bad data.

The entry block holds the function's first operation; when control can also come back to it,
an empty block in front of it becomes the entry.
-/

namespace MicroSsa

namespace Function

/-- The operation control reaches after `o` when it does not branch. -/
def fallthroughOp (f : Function) (o : Nat) : Option Nat := do
  let x ← f.store.op? o
  let next ← f.store.nextAfter x.seq
  let y ← f.store.op? next
  let a := x.seq.addr
  let n := y.seq.addr
  if a = n then some next
  else
    let st ← f.visitAt? a
    if a.space == n.space && a.offset + UInt64.ofNat st.size == n.offset then some next else none

/-- Steps `steps` operations forward (or backward) from `cur` within the instruction at `addr`;
a forward walk that leaves the instruction on its last step lands on the fallthrough. -/
def walkRelative (f : Function) (addr : Address) (forward : Bool) (steps : Nat) :
    Nat → Nat → Nat → Option Nat
  | 0, _, _ => none
  | fuel + 1, cur, step =>
    if steps < step then some cur
    else
      let next := (f.store.op? cur).bind fun x =>
        if forward then f.store.nextAfter x.seq else f.store.prevBefore x.seq
      match next.bind fun n => (f.store.op? n).map (n, ·) with
      | some (n, y) =>
        if y.seq.addr = addr then walkRelative f addr forward steps fuel n (step + 1)
        else if forward && step == steps then f.fallthroughOp cur else none
      | none => if forward && step == steps then f.fallthroughOp cur else none

/-- The operation a direct branch goes to. A constant destination counts operations within the
instruction; any other destination names the address of an instruction. -/
def branchTargetOp (f : Function) (o : Nat) : Option Nat := do
  let x ← f.store.op? o
  let dest ← x.inputs[0]? >>= f.store.vn?
  match dest.constValue? with
  | some raw =>
    let rel := Word.signExtend raw dest.loc.size
    f.walkRelative x.seq.addr (0 < rel.toInt) rel.toInt.natAbs (f.store.numOps + 2) o 1
  | none => f.store.firstOpAt dest.loc.addr

/-- The block holding an operation. -/
def blockOf (f : Function) (o : Option Nat) : Option Nat :=
  o.bind f.store.op? |>.bind (·.parent)

/-- Marks a block. -/
def modifyBlockFlags (f : Function) (b : Nat) (g : BlockFlags → BlockFlags) : Function :=
  { f with graph := f.graph.modify b fun blk => { blk with flags := g blk.flags } }

/-- Adds the edge `b → t`. -/
def edgeTo (f : Function) (b t : Nat) : Function :=
  { f with graph := f.graph.addEdge b t {} }

/-- Marks block `b` as bad data. -/
def markBad (f : Function) (b : Nat) : Function :=
  f.modifyBlockFlags b fun fl => { fl with badData := true }

/-- Adds the edge from block `b` to the block of a successor, if it has one. -/
def edgeIf (f : Function) (b : Nat) : Option Nat → Function
  | some t => f.edgeTo b t
  | none => f

/-- Adds the edge from block `b` to the block of a successor, or marks `b` as bad data when the
successor has no block. -/
def edgeOrBad (f : Function) (b : Nat) : Option Nat → Function
  | some t => f.edgeTo b t
  | none => f.markBad b

/-- The distinct targets of a jump table, entries first, each at the position of its first
appearance, and the position of the default target if there is one. -/
def tableSet (jt : JumpTable) : Option Nat × InsertionSet Address :=
  let (_, targets) := ({} : InsertionSet Address).insertAll (jt.addresses.toList.take jt.size)
  match jt.defaultIndex with
  | some i => let (k, t) := targets.insert (jt.addresses[i]!); (some k, t)
  | none => (none, targets)

/-- Connects block `b` to the jump-table target `a` at position `i`, labelled as the default when
`i` is the default's position; a target without a block marks `b` as bad data. -/
def tableEdge (b : Nat) (dflt : Option Nat) (f : Function) (ai : Address × Nat) : Function :=
  match f.blockOf (f.store.firstOpAt ai.1) with
  | none => f.markBad b
  | some t =>
    if dflt == some ai.2 then
      let f := { f with graph := f.graph.addEdge b t { switchDefault := true } }
      f.modifyBlockFlags t fun fl => { fl with switchDefault := true }
    else
      let f := { f with graph := f.graph.addEdge b t {} }
      f.modifyBlockFlags t fun fl => { fl with switchCase := true }

/-- Connects a block ending in an indirect branch to the distinct targets of its jump table. -/
def connectIndirect (f : Function) (b last : Nat) : Function :=
  let seq := ((f.store.op? last).map (·.seq)).getD default
  match f.jumpTables.findIdx? (·.opSeq == seq) with
  | none =>
    let f := f.modifyBlockFlags b fun fl => { fl with unreachableRisk := true }
    { f with flags := { f.flags with unresolvedIndirect := true } }
  | some idx =>
    let (dflt, targets) := tableSet f.jumpTables[idx]!
    let f := targets.members.toList.zipIdx.foldl (tableEdge b dflt) f
    { f with graph := f.graph.modify b fun blk => { blk with jumpTable := some idx } }

/-- Connects a block by its last operation. -/
def connectBlock (f : Function) (b : Nat) : Function :=
  match (f.graph.get b).ops.back? with
  | none => f
  | some last =>
    match (f.store.op? last).map Op.opcode with
    | some Opcode.branch => f.edgeOrBad b (f.blockOf (f.branchTargetOp last))
    | some Opcode.cbranch =>
      let fall := f.blockOf (f.fallthroughOp last)
      let taken := f.blockOf (f.branchTargetOp last)
      if fall.isSome && taken.isSome then (f.edgeIf b fall).edgeIf b taken
      else ((f.markBad b).edgeIf b fall).edgeIf b taken
    | some Opcode.branchInd => f.connectIndirect b last
    | some Opcode.ret => f.modifyBlockFlags b fun fl => { fl with ret := true }
    | _ => f.edgeOrBad b (f.blockOf (f.fallthroughOp last))

/-- Opens a new block at operation `o`, starting at its address. -/
def openBlock (f : Function) (o : Nat) : Function × Nat :=
  let (b, g) := f.graph.addBlock
  let addr := (f.store.op? o).map fun (x : Op) => x.seq.addr
  let f := { f with graph := g.modify b fun blk => { blk with start := addr } }
  (f.setStartBlock o true, b)

/-- The addresses whose first operation starts a block: the function's, the queued block
starts and every jump-table target. -/
def startAddrs (f : Function) : List Address :=
  f.addr :: f.blockStarts ++ f.jumpTables.toList.flatMap (·.addresses.toList)

/-- Marks the first operation at an address. -/
def markAddr (f : Function) (a : Address) : Function :=
  match f.store.firstOpAt a with
  | some o => f.setStartBlock o true
  | none => f

/-- Marks the operation after `o` in program order. -/
def markNext (f : Function) (o : Nat) : Function :=
  match (f.store.op? o).bind fun (x : Op) => f.store.nextAfter x.seq with
  | some n => f.setStartBlock n true
  | none => f

/-- Marks the target of the direct branch `o`. -/
def markTarget (f : Function) (o : Nat) : Function :=
  match f.branchTargetOp o with
  | some t => f.setStartBlock t true
  | none => f

/-- Marks the operation after a branch and the target of a direct branch. -/
def markBranch (f : Function) (o : Nat) : Function :=
  match (f.store.op? o).map (·.opcode) with
  | some opc =>
    if opc.isBranch then
      if opc == .branch || opc == .cbranch then (f.markNext o).markTarget o else f.markNext o
    else f
  | none => f

/-- Whether `o` starts a block when it comes after `prev` in program order: it is marked, or it
is not the fallthrough of `prev`. -/
def startsBlock (f : Function) (prev : Option Nat) (o : Nat) : Bool :=
  (f.store.op? o).any (·.flags.startBlock) || match prev with
    | some p => f.fallthroughOp p != some o
    | none => true

/-- Appends `o` to block `b`, which becomes its parent. -/
def pushOp (f : Function) (b o : Nat) : Function :=
  { f with graph := f.graph.modify b fun blk => { blk with ops := blk.ops.push o }
           store := f.store.setParent o (some b) }

/-- One step of the partition: `o` joins the current block, or opens a new one when it starts a
block. -/
def partitionStep (acc : Function × Option Nat × Option Nat) (o : Nat) :
    Function × Option Nat × Option Nat :=
  let (f, cur, prev) := acc
  let (f, b) := match cur with
    | some b => if f.startsBlock prev o then f.openBlock o else (f, b)
    | none => f.openBlock o
  (f.pushOp b o, some b, some o)

/-- Connects every block. -/
def connectAll (f : Function) : Function :=
  (List.range f.graph.size).foldl connectBlock f

/-- Makes the block of the function's first operation the entry, with an empty block in front
of it when control can come back to it. -/
def placeEntry (f : Function) : Function :=
  match f.blockOf (f.store.firstOpAt f.addr) with
  | some e =>
    if (f.graph.get e).ins.isEmpty then { f with graph := f.graph.setEntry e }
    else
      let (pre, g) := f.graph.addBlock
      let g := g.modify pre fun blk => { blk with start := some f.addr }
      { f with graph := (g.addEdge pre e {}).setEntry pre }
  | none => f

/-- The function with the parents of its alive operations and its graph cleared. -/
def clearBlocks (f : Function) : Function :=
  { f with store := f.store.aliveOps.foldl (fun s o => s.setParent o none) f.store, graph := {} }

/-- Partitions the alive operations into blocks, connects them and picks the entry. -/
def generateBlocks (f : Function) : Function :=
  let alive := f.store.aliveOps
  let f := f.clearBlocks
  if alive.isEmpty then { f with flags := { f.flags with blocksGenerated := true } }
  else
    -- operations that must start a block
    let f := alive.foldl markBranch (f.startAddrs.foldl markAddr f)
    -- partition, connect, entry
    let f := placeEntry (connectAll (alive.foldl partitionStep (f, none, none)).1)
    { f with flags := { f.flags with blocksGenerated := true } }

end Function

end MicroSsa
