import MicroSsa.Store.Edit
import MicroSsa.Graph.Basic
import MicroSsa.Listing.Basic
/-!
# Functions under analysis

A **function** is the unit of analysis. It owns the store of its operations and varnodes and its
block graph, and records what flow following found: the instructions decoded (by address), the
calls made, the jump tables recovered and the indirect branches that could not be resolved, and
the addresses where flow ran into bad data.

The analysis of a function runs in stages: flow following interleaved with jump-table recovery
until no new code turns up, then blocks, dominators, SSA form and constant propagation.

This file holds the function record, the switches and limits of an analysis, and the placing
of operations into blocks (`Function.opInsert`, `Function.opUninsert`) that keeps the start
marks of blocks right.
-/

namespace MicroSsa

/-- What the analysis found about a function, and how far it got. -/
structure FuncFlags where
  opGenerated : Bool := false
  blocksGenerated : Bool := false
  /-- Some blocks have no path from the entry. -/
  blocksUnreachable : Bool := false
  processingStarted : Bool := false
  processingComplete : Bool := false
  /-- Nothing could be decoded at the entry point. -/
  noCode : Bool := false
  unimplementedPresent : Bool := false
  /-- Flow reached an address that is not the start of an instruction, or not code. -/
  badDataPresent : Bool := false
  /-- An indirect branch could not be resolved to a jump table. -/
  unresolvedIndirect : Bool := false
  /-- A stack-relative value was moved inside a loop. -/
  stackUnsafe : Bool := false
  /-- A call refers to a function still being analysed further up the call chain. -/
  recursionGuard : Bool := false
  /-- Flow following stopped at the instruction limit. -/
  instructionLimit : Bool := false
  deriving DecidableEq, Repr, Inhabited

/-- The names of the flags that are set, in the order of their bits. -/
def FuncFlags.names (f : FuncFlags) : List String :=
  [("OP_GENERATED", f.opGenerated), ("BLOCKS_GENERATED", f.blocksGenerated),
   ("BLOCKS_UNREACHABLE", f.blocksUnreachable), ("PROCESSING_STARTED", f.processingStarted),
   ("PROCESSING_COMPLETE", f.processingComplete), ("NO_CODE", f.noCode),
   ("UNIMPLEMENTED_PRESENT", f.unimplementedPresent), ("BADDATA_PRESENT", f.badDataPresent),
   ("UNRESOLVED_INDIRECT", f.unresolvedIndirect), ("STACK_UNSAFE", f.stackUnsafe),
   ("RECURSION_GUARD", f.recursionGuard), ("INSTRUCTION_LIMIT", f.instructionLimit)].filterMap
    fun (n, b) => if b then some n else none

/-- What flow following recorded about a decoded instruction: the sequence number of its first
operation and its length in bytes. -/
structure VisitStat where
  seq : SeqNum
  size : Nat
  deriving DecidableEq, Repr, Inhabited

/-- How far a call has been linked to its callee (a function of the session, by number). -/
inductive CallStatus where
  /-- Target known, callee not looked at yet. -/
  | unlinked
  /-- Callee analysed. -/
  | resolved (callee : Nat)
  /-- Callee still under analysis when the call was found. -/
  | inProgress (callee : Nat)
  /-- Indirect call, or a target outside of code. -/
  | unknown
  deriving DecidableEq, Repr, Inhabited

/-- The text of a call's link state. -/
def CallStatus.render : CallStatus → String
  | .unlinked => "Unlinked"
  | .resolved n => "Resolved(FuncId(" ++ toString n ++ "))"
  | .inProgress n => "InProgress(FuncId(" ++ toString n ++ "))"
  | .unknown => "Unknown"

/-- The callee of a linked call. -/
def CallStatus.callee? : CallStatus → Option Nat
  | .resolved n | .inProgress n => some n
  | _ => none

/-- A call made by a function: the call operation, its target if direct, and its link state. -/
structure CallSpec where
  op : Nat
  target : Option Address
  status : CallStatus
  deriving Repr, Inhabited

/-- A recovered table of branch targets. -/
structure JumpTable where
  /-- The indirect branch it resolves. -/
  opSeq : SeqNum
  opAddr : Address
  /-- One target per entry, then the default target if there is one. -/
  addresses : Array Address
  defaultIndex : Option Nat
  /-- The largest index the bound admits. -/
  lastIndex : UInt64
  /-- The number of entries. -/
  size : Nat
  /-- The address of entry `0`. -/
  tableAddr : Address
  /-- The size of one entry in bytes. -/
  entrySize : Nat
  deriving Repr, Inhabited

/-- Why an indirect branch could not be resolved. -/
inductive RecoveryFailure where
  | notIndirect (op : SeqNum)
  | noTableLoad
  | unrecognizedAddress
  | unbounded
  | tooLarge (n : UInt64)
  | unreadable (a : Address)
  | targetNotCode (a : Address)
  deriving DecidableEq, Repr

/-- The text of a recovery failure. -/
def RecoveryFailure.message : RecoveryFailure → String
  | .notIndirect q => q.render ++ " is not an indirect branch"
  | .noTableLoad => "branch destination is not loaded from memory"
  | .unrecognizedAddress => "table address is not base + index * scale"
  | .unbounded => "no guard or mask bounds the index"
  | .tooLarge n => "table of " ++ toString n.toNat ++ " entries exceeds the limit"
  | .unreadable a => "could not read entry at " ++ a.render
  | .targetNotCode a => "entry points to " ++ a.render ++ ", which is not code"

/-- The switches of an analysis. -/
structure Config where
  jumpTableRecovery : Bool := true
  /-- Every register input, not only the stack pointer, starts as a relative constant. -/
  relativeAllRegisters : Bool := false
  /-- Relative constants moved inside a loop body become `bottom`. -/
  degradeInLoops : Bool := true
  stackSlots : Bool := true
  foldReadOnlyLoads : Bool := true
  followCalls : Bool := true
  deriving Repr, Inhabited

/-- Applies a switch given by its command-line name. The two debugging switches only change
diagnostic output, which the analysis does not produce, so they leave the settings alone. -/
def Config.set? (c : Config) : String → Option Config
  | "disable-jump-table-recovery" => some { c with jumpTableRecovery := false }
  | "enable-relative-bases-for-all-register-inputs" => some { c with relativeAllRegisters := true }
  | "disable-degrading-relative-constants-in-loops" => some { c with degradeInLoops := false }
  | "disable-stack-slot-simulation" => some { c with stackSlots := false }
  | "disable-folding-loads-from-readonly-image" => some { c with foldReadOnlyLoads := false }
  | "disable-following-calls" => some { c with followCalls := false }
  | "debug-print-block-boundaries" => some c
  | "debug-print-dead-ops" => some c
  | _ => none

/-- The thresholds of an analysis. -/
structure Limits where
  /-- Instructions decoded per function before flow following gives up. -/
  maxInstructions : Nat := 1000000
  /-- Symbols smaller than this are not functions. -/
  minFuncSymbolSize : UInt64 := 1
  maxBaseTypeSize : Nat := 8
  /-- Jump tables with more entries are rejected. -/
  maxJumpTableSize : Nat := 1024
  deriving Repr, Inhabited

/-- Everything the analysis of a function reads from its session. -/
structure Context where
  arch : Arch
  image : Image
  decoder : Decoder
  limits : Limits
  config : Config
  deriving Inhabited

/-- Inserts into an ordered list of addresses without duplicates. -/
def insertAddr (xs : List Address) (a : Address) : List Address :=
  match xs with
  | [] => [a]
  | x :: rest =>
    match Address.compare a x with
    | .lt => a :: x :: rest
    | .eq => x :: rest
    | .gt => x :: insertAddr rest a

/-- The unit of analysis. -/
structure Function where
  name : String
  addr : Address
  /-- The size given by the symbol table, `0` if unknown. -/
  size : UInt64 := 0
  flags : FuncFlags := {}
  store : Store
  graph : BlockGraph := {}
  /-- The decoded instructions, by address. -/
  visited : List (Address × VisitStat) := []
  calls : Array CallSpec := #[]
  jumpTables : Array JumpTable := #[]
  /-- Indirect branches that could not be resolved, by operation, in creation order. -/
  unresolved : List (Nat × RecoveryFailure) := []
  /-- Addresses where flow ran into bad data, in order. -/
  badAddrs : List Address := []
  /-- The lowest stack-pointer offset constant propagation found. -/
  stackDepth : Int64 := 0
  /-- Addresses still to follow, the next one first. -/
  pending : List Address := []
  /-- Addresses whose first operation must start a block, in order. -/
  blockStarts : List Address := []
  /-- The indirect branches found by flow following. -/
  indirects : Array Nat := #[]
  instCount : Nat := 0
  instMax : Nat
  deriving Inhabited

namespace Function

/-- A function at an address, with nothing decoded yet. -/
def init (name : String) (addr : Address) (spaces : SpaceTable) (instMax : Nat) : Function :=
  { name := name, addr := addr, instMax := instMax
    store := Store.empty spaces.constant (spaces.firstOfKind? .unique) }

/-- The record of the instruction decoded at an address. -/
def visitAt? (f : Function) (a : Address) : Option VisitStat :=
  (f.visited.find? (·.1 == a)).map (·.2)

/-- Records a decoded instruction, keeping address order. -/
def addVisit (f : Function) (a : Address) (v : VisitStat) : Function :=
  let lower := f.visited.filter fun e => Address.compare e.1 a == .lt
  let upper := f.visited.filter fun e => Address.compare e.1 a == .gt
  { f with visited := lower ++ [(a, v)] ++ upper }

/-- Records bad data at an address. -/
def markBadData (f : Function) (a : Address) : Function :=
  { f with flags := { f.flags with badDataPresent := true }, badAddrs := insertAddr f.badAddrs a }

/-- The number of merges at the top of a block. -/
def leadingMerges (f : Function) (b : Nat) : Nat :=
  ((f.graph.get b).ops.toList.takeWhile fun o =>
    (f.store.op? o).any (·.opcode == .multiEqual)).length

/-- Sets or clears the start-of-block mark of an operation. -/
def setStartBlock (f : Function) (o : Nat) (v : Bool) : Function :=
  { f with store := f.store.modifyOp o fun x => { x with flags := { x.flags with startBlock := v } } }

/-- Places `o` at position `pos` of block `b` and makes it alive; an operation at the top of a
block takes the start-of-block mark. An operation already in a block is a fault. -/
def opInsert (f : Function) (o b pos : Nat) : Except Fault Function := do
  let x ← f.store.op o
  if x.parent.isSome then throw .alreadyPlaced
  let store ← (f.store.setParent o (some b)).markAlive o
  let f := { f with store := store }
  let ops := (f.graph.get b).ops
  let f := if pos = 0 then
      let f := match ops[0]? with
        | some first => f.setStartBlock first false
        | none => f
      f.setStartBlock o true
    else f
  pure { f with graph := f.graph.modify b fun blk => { blk with ops := blk.ops.insertIdxIfInBounds pos o } }

/-- Places `o` at the top of block `b`, after the merges there. -/
def opInsertBegin (f : Function) (o b : Nat) : Except Fault Function :=
  f.opInsert o b (f.leadingMerges b)

/-- The position of `o` in its block. -/
def positionInBlock (f : Function) (o : Nat) : Option Nat := do
  let b ← (f.store.op? o).bind (·.parent)
  (f.graph.get b).ops.idxOf? o

/-- Takes `o` out of its block and onto the dead list; the next operation at the top of the
block takes the start-of-block mark. -/
def opUninsert (f : Function) (o : Nat) : Except Fault Function := do
  let x ← f.store.op o
  let f ← match x.parent with
    | some b =>
      match (f.graph.get b).ops.idxOf? o with
      | some pos =>
        let f := { f with graph := f.graph.modify b fun blk => { blk with ops := blk.ops.eraseIdxIfInBounds pos } }
        let f := if pos = 0 then
            match (f.graph.get b).ops[0]? with
            | some first => f.setStartBlock first true
            | none => f
          else f
        pure { f with store := f.store.setParent o none }
      | none => pure { f with store := f.store.setParent o none }
    | none => pure f
  pure { f with store := ← f.store.markDead o }

/-- Takes `o` out of its block and destroys it. -/
def opDestroy (f : Function) (o : Nat) : Except Fault Function := do
  let f ← f.opUninsert o
  pure { f with store := ← f.store.destroyOp o }

/-- Whether `a` runs before `b` on every path that reaches `b`: earlier in the same block, or in
a block that dominates `b`'s. -/
def opDominates (f : Function) (a b : Nat) : Bool :=
  match (f.store.op? a).bind (·.parent), (f.store.op? b).bind (·.parent) with
  | some pa, some pb =>
    if pa = pb then
      match f.positionInBlock a, f.positionInBlock b with
      | some i, some j => i < j
      | _, _ => false
    else f.graph.dominates pa pb
  | _, _ => false

/-- The blocks with a path from the entry, in number order. -/
def liveBlocks (f : Function) : List Nat :=
  (List.range f.graph.size).filter fun b => !(f.graph.get b).flags.dead

/-- The number of merges in the blocks with a path from the entry. -/
def numMerges (f : Function) : Nat :=
  f.liveBlocks.foldl (fun n b => n + f.leadingMerges b) 0

end Function

end MicroSsa
