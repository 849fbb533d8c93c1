import MicroSsa.Opcode
import MicroSsa.Value.Basic
import MicroSsa.Fault
/-!
# The operation store

The **store** of a function owns its **varnodes** (sized locations at a point of the program) and
its **operations**. Both are named by creation number: the `k`-th varnode created is varnode `k`
for the rest of the store's life, and a deleted one leaves a gap that is never reused, so a name
never comes to mean another varnode.

An operation reads varnodes through its numbered input slots and may write one output varnode.
Each varnode records its defining operation and its **uses**, one entry per input slot that
reads it. Every operation is **alive** (in program order), **dead** (set aside), or destroyed
(gone, with its sequence number and opcode kept in the destroyed list).

Three orders are views computed from the entries, never stored beside them:

* `Store.locOrder` — varnodes by location, size, then defining position (inputs first, then by
  the defining operation's sequence number, then free varnodes), then creation;
* `Store.defOrder` — the same keys with the defining position first;
* `Store.aliveOps` and `Store.deadOps` — operations by sequence number.
-/

namespace MicroSsa

/-- The marks of a varnode. -/
structure VarnodeFlags where
  /-- An input of the function: no defining operation, a value on entry. -/
  input : Bool := false
  /-- Defined by an operation. -/
  written : Bool := false
  /-- Names a code address (a branch or call target) rather than holding a value. -/
  annotation : Bool := false
  /-- A temporary made by the analysis. -/
  implied : Bool := false
  /-- Lives in the constant space. -/
  constant : Bool := false
  deriving DecidableEq, Repr, Inhabited

/-- The names of the marks that are set, in the order of their bits. -/
def VarnodeFlags.names (f : VarnodeFlags) : List String :=
  [("INPUT", f.input), ("WRITTEN", f.written), ("ANNOTATION", f.annotation),
   ("IMPLIED", f.implied), ("CONSTANT", f.constant)].filterMap
    fun (n, b) => if b then some n else none

/-- A sized location at a point of the program. -/
structure Varnode where
  loc : Location
  flags : VarnodeFlags := {}
  /-- The defining operation, for a written varnode. -/
  defOp : Option Nat := none
  /-- The reading operations, one entry per input slot that reads this varnode. -/
  uses : Array Nat := #[]
  /-- The current lattice value, kept by constant propagation. -/
  value : Value := .top
  createIndex : Nat
  deriving Repr, Inhabited

namespace Varnode

/-- Neither an input, nor written, nor a constant. -/
def isFree (v : Varnode) : Bool :=
  !v.flags.input && !v.flags.written && !v.flags.constant

/-- The constant held, for a varnode of the constant space. -/
def constValue? (v : Varnode) : Option UInt64 :=
  if v.flags.constant then some v.loc.addr.offset else none

end Varnode

/-- The marks of an operation. -/
structure OpFlags where
  /-- The first operation of a basic block. -/
  startBlock : Bool := false
  branch : Bool := false
  call : Bool := false
  returns : Bool := false
  /-- On the dead list rather than in program order. -/
  dead : Bool := false
  /-- Made by the analysis (merges). -/
  marker : Bool := false
  boolOutput : Bool := false
  /-- The first operation of a machine instruction. -/
  startMark : Bool := false
  /-- Control leaves the function. -/
  exit : Bool := false
  deriving DecidableEq, Repr, Inhabited

namespace OpFlags

/-- The names of the marks that are set, in the order of their bits. -/
def names (f : OpFlags) : List String :=
  [("START_BLOCK", f.startBlock), ("BRANCH", f.branch), ("CALL", f.call),
   ("RETURNS", f.returns), ("DEAD", f.dead), ("MARKER", f.marker),
   ("BOOL_OUTPUT", f.boolOutput), ("START_MARK", f.startMark), ("EXIT", f.exit)].filterMap
    fun (n, b) => if b then some n else none

/-- The marks an opcode brings with it. -/
def ofOpcode (o : Opcode) : OpFlags :=
  { branch := o.isBranch, call := o.isCall, returns := o == .ret, exit := o == .ret
    boolOutput := o.isBoolOutput, marker := o == .multiEqual || o == .indirect }

/-- Replaces the marks that come with an opcode, keeping the others (`exit` is kept). -/
def withOpcode (f : OpFlags) (o : Opcode) : OpFlags :=
  let g := ofOpcode o
  { f with branch := g.branch, call := g.call, returns := g.returns, boolOutput := g.boolOutput
           marker := g.marker, exit := f.exit || g.exit }

end OpFlags

/-- An operation: its opcode, place in program order, inputs, output and block. -/
structure Op where
  opcode : Opcode
  seq : SeqNum
  inputs : Array Nat := #[]
  output : Option Nat := none
  /-- The block holding the operation, once blocks are made. -/
  parent : Option Nat := none
  flags : OpFlags := {}
  deriving Repr, Inhabited

/-- Where a varnode is defined, for ordering: inputs, then written varnodes by the sequence
number of their definition, then free varnodes. -/
inductive DefPos where
  | input
  | written (seq : SeqNum)
  | free
  deriving DecidableEq, Repr

namespace DefPos

/-- Inputs first, then written varnodes in program order, then free varnodes. -/
def compare : DefPos → DefPos → Ordering
  | .input, .input => .eq
  | .input, _ => .lt
  | _, .input => .gt
  | .written a, .written b => SeqNum.compare a b
  | .written _, .free => .lt
  | .free, .written _ => .gt
  | .free, .free => .eq

end DefPos

/-- The varnodes and operations of one function. -/
structure Store where
  /-- Varnodes by creation number; `none` marks a deleted one. -/
  varnodes : Array (Option Varnode) := #[]
  /-- Operations by creation number; `none` marks a destroyed one. -/
  ops : Array (Option Op) := #[]
  /-- The sequence numbers and opcodes of destroyed operations, in order of destruction. -/
  destroyed : Array (SeqNum × Opcode) := #[]
  /-- The counter of the next sequence number. -/
  uniq : Nat := 0
  constSpace : Nat
  /-- The space of temporaries made by the analysis, if the architecture has one. -/
  uniqueSpace : Option Nat
  /-- The offset of the next temporary. -/
  uniqueOffset : UInt64 := 0x10000000
  deriving Repr, Inhabited

namespace Store

/-- An empty store. -/
def empty (constSpace : Nat) (uniqueSpace : Option Nat) : Store :=
  { constSpace := constSpace, uniqueSpace := uniqueSpace }

/-- The varnode named `v`, if it exists. -/
def vn? (s : Store) (v : Nat) : Option Varnode := s.varnodes[v]?.join

/-- The operation named `o`, if it exists. -/
def op? (s : Store) (o : Nat) : Option Op := s.ops[o]?.join

/-- The varnode named `v`; a missing varnode is a fault. -/
def vn (s : Store) (v : Nat) : Except Fault Varnode :=
  match s.vn? v with
  | some x => .ok x
  | none => .error .stale

/-- The operation named `o`; a missing operation is a fault. -/
def op (s : Store) (o : Nat) : Except Fault Op :=
  match s.op? o with
  | some x => .ok x
  | none => .error .stale

/-- Changes an existing varnode. -/
def modifyVn (s : Store) (v : Nat) (f : Varnode → Varnode) : Store :=
  { s with varnodes := s.varnodes.modify v (Option.map f) }

/-- Changes an existing operation. -/
def modifyOp (s : Store) (o : Nat) (f : Op → Op) : Store :=
  { s with ops := s.ops.modify o (Option.map f) }

/-- The number of varnodes that exist. -/
def numVarnodes (s : Store) : Nat := (s.varnodes.filter Option.isSome).size

/-- The number of operations that exist. -/
def numOps (s : Store) : Nat := (s.ops.filter Option.isSome).size

/-- The existing varnodes with their names, in creation order. -/
def liveVarnodes (s : Store) : List (Nat × Varnode) :=
  s.varnodes.toList.zipIdx.filterMap fun (v, i) => v.map (i, ·)

/-- The existing operations with their names, in creation order. -/
def liveOps (s : Store) : List (Nat × Op) :=
  s.ops.toList.zipIdx.filterMap fun (o, i) => o.map (i, ·)

/-- Where a varnode is defined. -/
def defPos (s : Store) (v : Varnode) : DefPos :=
  if v.flags.input then .input
  else match v.defOp.bind s.op? with
    | some o => .written o.seq
    | none => .free

/-- Location order: address, size, defining position, creation. -/
def locCompare (s : Store) (a b : Varnode) : Ordering :=
  (Address.compare a.loc.addr b.loc.addr).then <| (Ord.compare a.loc.size b.loc.size).then <|
    (DefPos.compare (s.defPos a) (s.defPos b)).then (Ord.compare a.createIndex b.createIndex)

/-- Definition order: defining position, address, size, creation. -/
def defCompare (s : Store) (a b : Varnode) : Ordering :=
  (DefPos.compare (s.defPos a) (s.defPos b)).then <| (Address.compare a.loc.addr b.loc.addr).then <|
    (Ord.compare a.loc.size b.loc.size).then (Ord.compare a.createIndex b.createIndex)

/-- The existing varnodes in location order. -/
def locOrder (s : Store) : List Nat :=
  (s.liveVarnodes.mergeSort fun a b => s.locCompare a.2 b.2 != .gt).map (·.1)

/-- The existing varnodes in definition order. -/
def defOrder (s : Store) : List Nat :=
  (s.liveVarnodes.mergeSort fun a b => s.defCompare a.2 b.2 != .gt).map (·.1)

/-- The operations in program order, with their sequence numbers. -/
def aliveSeqs (s : Store) : List (Nat × SeqNum) :=
  ((s.liveOps.filter fun p => !p.2.flags.dead).map fun p => (p.1, p.2.seq)).mergeSort
    fun a b => SeqNum.compare a.2 b.2 != .gt

/-- The alive operations, in program order. -/
def aliveOps (s : Store) : List Nat := s.aliveSeqs.map (·.1)

/-- The dead operations, by sequence number. -/
def deadOps (s : Store) : List Nat :=
  (((s.liveOps.filter fun p => p.2.flags.dead).map fun p => (p.1, p.2.seq)).mergeSort
    fun a b => SeqNum.compare a.2 b.2 != .gt).map (·.1)

/-- The first alive operation of the instruction at `addr`. -/
def firstOpAt (s : Store) (addr : Address) : Option Nat :=
  match s.aliveSeqs.find? fun p => SeqNum.compare p.2 ⟨addr, 0⟩ != .lt with
  | some (o, q) => if q.addr = addr then some o else none
  | none => none

/-- The alive operation after sequence number `q` in program order. -/
def nextAfter (s : Store) (q : SeqNum) : Option Nat :=
  (s.aliveSeqs.find? fun p => SeqNum.compare p.2 q == .gt).map (·.1)

/-- The alive operation before sequence number `q` in program order. -/
def prevBefore (s : Store) (q : SeqNum) : Option Nat :=
  ((s.aliveSeqs.filter fun p => SeqNum.compare p.2 q == .lt).getLast?).map (·.1)

/-- The alive operation after `o` in program order. -/
def nextAlive (s : Store) (o : Nat) : Except Fault (Option Nat) := do
  pure (s.nextAfter (← s.op o).seq)

/-- The alive operation before `o` in program order. -/
def prevAlive (s : Store) (o : Nat) : Except Fault (Option Nat) := do
  pure (s.prevBefore (← s.op o).seq)

/-- The varnodes with exactly this address and size, in location order. -/
def varnodesAt (s : Store) (addr : Address) (size : Nat) : List Nat :=
  s.locOrder.filter fun v => match s.vn? v with
    | some x => x.loc.addr = addr && x.loc.size = size
    | none => false

/-- The varnodes of one space whose offset lies in `[lo, hi)`, in location order; a range
whose start lies after its end is a fault. -/
def varnodesInRange (s : Store) (space : Nat) (lo hi : UInt64) : Except Fault (List Nat) :=
  if hi.toNat < lo.toNat then .error .reversedRange
  else .ok <| s.locOrder.filter fun v => match s.vn? v with
    | some x => x.loc.addr.space = space && lo.toNat ≤ x.loc.addr.offset.toNat &&
        x.loc.addr.offset.toNat < hi.toNat
    | none => false

end Store

end MicroSsa
