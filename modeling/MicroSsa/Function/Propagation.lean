import MicroSsa.Function.Basic
import MicroSsa.Value.Evaluate
/-!
# Constant propagation

`Function.propagateConstants` gives every varnode a lattice value. Values start optimistic and
only ever move down; a change is pushed along def-use links until nothing moves:

* constants hold their value cut to their size; the stack pointer on entry (and, when asked,
  every register input) is `rel(base+0)`; other inputs are `bottom`; everything else starts at
  `top`;
* a merge is the meet of its inputs; a call is `bottom`; an operation in a dead or bad-data block
  is `bottom`; other operations evaluate over the lattice (`Opcode.evaluate`);
* a load through a constant pointer into read-only memory reads the image; a load from a stack
  slot takes the meet of the exact stores to that slot, provided each store runs before the load
  on every path and no other store in the load's space could write the slot;
* a change of a stored value, or of a store pointer, re-evaluates every load.

The work list is first-in first-out, seeded with every operation of the reachable blocks that
has an output. Afterwards the function's stack depth is the lowest stack-pointer offset held by
any varnode (never above zero).
-/

namespace MicroSsa

namespace Function

/-- The value a varnode starts from. -/
def initialValue (ctx : Context) (v : Varnode) : Value :=
  if v.flags.constant then .const (v.loc.addr.offset &&& Word.mask v.loc.size)
  else if !v.flags.input then .top
  else
    let sp := ctx.arch.sp
    if (v.loc.addr == sp.addr && v.loc.size == sp.size) ||
        (ctx.arch.spaces.isRegister v.loc.addr.space && ctx.config.relativeAllRegisters) then
      .rel v.loc.addr 0
    else .bottom

/-- How a store through a pointer relates to the stack slot `[offset, offset + size)`. -/
inductive SlotAccess where
  /-- The pointer is not known yet. -/
  | pending
  | disjoint
  /-- Writes exactly the slot. -/
  | exact
  /-- May write some or all of the slot. -/
  | clobbers
  deriving DecidableEq, Repr

/-- Classifies a store of `storedSize` bytes through `ptr` against a stack slot. Offsets are
64-bit words and their sums wrap. -/
def slotAccess (ptr : Value) (sp : Address) (offset : Int64) (size storedSize : Nat) : SlotAccess :=
  match ptr with
  | .top => .pending
  | .rel base o =>
    if base == sp then
      let overlaps := o.toInt < (offset + Int64.ofNat size).toInt &&
        offset.toInt < (o + Int64.ofNat storedSize).toInt
      if !overlaps then .disjoint
      else if o == offset && storedSize == size then .exact
      else .clobbers
    else .clobbers
  | _ => .clobbers

/-- The value of a varnode (`bottom` when it is missing). -/
def valueOf (f : Function) (v : Nat) : Value :=
  ((f.store.vn? v).map (·.value)).getD .bottom

/-- The value of input `slot` of an operation (`bottom` when there is none). -/
def inputValue (f : Function) (o slot : Nat) : Value :=
  match (f.store.op? o).bind (·.inputs[slot]?) with
  | some v => f.valueOf v
  | none => .bottom

/-- The space a load or store reaches: the constant in its first input (cut to a byte), else
the code space. -/
def accessSpace (ctx : Context) (f : Function) (o : Nat) : Nat :=
  match ((f.store.op? o).bind (·.inputs[0]?) >>= f.store.vn?).bind (·.constValue?) with
  | some c => (c &&& 0xff).toNat
  | none => ctx.arch.codeSpace

/-- The value a load from the stack slot at `offset` reads. -/
def stackLoad (ctx : Context) (f : Function) (stores : List Nat) (load : Nat) (offset : Int64)
    (size : Nat) : Value :=
  let space := accessSpace ctx f load
  let rec go : List Nat → Option Value → Value
    | [], acc => acc.getD .bottom
    | st :: rest, acc =>
      if accessSpace ctx f st != space then go rest acc
      else
        let storedSize := ((f.store.op? st).bind (·.inputs[2]?) >>= f.store.vn? |>.map (·.loc.size)).getD 0
        match slotAccess (f.inputValue st 1) ctx.arch.sp.addr offset size storedSize with
        | .pending => .top
        | .disjoint => go rest acc
        | .clobbers => .bottom
        | .exact =>
          if !f.opDominates st load then .bottom
          else
            let v := f.inputValue st 2
            go rest (some (match acc with
              | some r => r.meet v
              | none => v))
  go stores none

/-- The value a load of `size` bytes reads. -/
def loadValue (ctx : Context) (f : Function) (stores : List Nat) (o size : Nat) : Value :=
  match f.inputValue o 1 with
  | .top => .top
  | .const ptr =>
    if !ctx.config.foldReadOnlyLoads then .bottom
    else
      let addr : Address := ⟨accessSpace ctx f o, ptr⟩
      if !ctx.image.isReadOnly addr size then .bottom
      else match ctx.image.readValue addr size (ctx.arch.spaces.endianOf addr.space) with
        | .ok v => .const (v &&& Word.mask size)
        | .error _ => .bottom
  | .rel base offset =>
    if base == ctx.arch.sp.addr && ctx.config.stackSlots then stackLoad ctx f stores o offset size
    else .bottom
  | .bottom => .bottom

/-- The value of an operation's output, from the current values of its inputs. -/
def evalOp (ctx : Context) (f : Function) (stores : List Nat) (o : Nat) : Evaluation :=
  match f.store.op? o with
  | none => { value := .bottom }
  | some x =>
    match x.output.bind f.store.vn?, x.parent with
    | some out, some b =>
      let blk := f.graph.get b
      if blk.flags.dead || blk.flags.badData then { value := .bottom }
      else match x.opcode with
        | .multiEqual => { value := x.inputs.foldl (fun acc v => acc.meet (f.valueOf v)) .top }
        | .load => { value := loadValue ctx f stores o out.loc.size }
        | .call | .callInd | .callOther => { value := .bottom }
        | opc =>
          let ins := x.inputs.toList.map fun v =>
            (f.valueOf v, ((f.store.vn? v).map (·.loc.size)).getD 0)
          opc.evaluate ins out.loc.size (ctx.config.degradeInLoops && blk.flags.loopBody)
    | _, _ => { value := .bottom }

/-- The state of propagation: the function, the work list (first in, first out), whether the
stack was found unsafe. -/
structure Propagation where
  func : Function
  queue : List Nat
  stackUnsafe : Bool

/-- Adds an operation to the work list unless it is waiting there already. -/
def Propagation.enqueue (p : Propagation) (o : Nat) : Propagation :=
  if p.queue.contains o then p else { p with queue := p.queue ++ [o] }

/-- Queues what must be evaluated again once an input of `u` changed: every load when `u` is a
store, `u` itself when it has an output. -/
def Propagation.queueUser (loads : List Nat) (func : Function) (p : Propagation) (u : Nat) :
    Propagation :=
  match func.store.op? u with
  | some y =>
    if y.opcode == .store then loads.foldl Propagation.enqueue p
    else if y.output.isSome then p.enqueue u
    else p
  | none => p

/-- Evaluates operation `o`; when its output falls, stores the lower value and queues its
users. -/
def Propagation.visit (ctx : Context) (loads stores : List Nat) (p : Propagation) (o : Nat) :
    Propagation :=
  let ev := evalOp ctx p.func stores o
  let p := if ev.stackUnsafe then { p with stackUnsafe := true } else p
  match (p.func.store.op? o).bind (·.output) with
  | none => p
  | some out =>
    match (p.func.valueOf out).loweredBy ev.value with
    | none => p
    | some v =>
      let func := { p.func with store := p.func.store.modifyVn out fun x => { x with value := v } }
      let users := ((func.store.vn? out).map (·.uses.toList)).getD []
      users.foldl (Propagation.queueUser loads func) { p with func := func }

/-- Evaluates operations off the work list until it is empty, at most `fuel` times. -/
def propagateLoop (ctx : Context) (loads stores : List Nat) : Nat → Propagation → Propagation
  | 0, p => p
  | fuel + 1, p =>
    match p.queue with
    | [] => p
    | o :: rest =>
      propagateLoop ctx loads stores fuel (Propagation.visit ctx loads stores { p with queue := rest } o)

/-- The function with every varnode at its starting value. -/
def startValues (ctx : Context) (f : Function) : Function :=
  { f with store := f.store.locOrder.foldl (fun s v =>
    s.modifyVn v fun x => { x with value := initialValue ctx x }) f.store }

/-- The operations of the blocks with a path from the entry that satisfy `p`, block by block in
program order. -/
def liveOpsWith (f : Function) (p : Op → Bool) : List Nat :=
  (f.liveBlocks.flatMap fun b => (f.graph.get b).ops.toList).filter fun o => (f.store.op? o).any p

/-- Propagation from the starting values until the work list is empty. -/
def propagateValues (ctx : Context) (f : Function) : Propagation :=
  let f := startValues ctx f
  let loads := f.liveOpsWith (·.opcode == .load)
  let stores := f.liveOpsWith (·.opcode == .store)
  let seeds := f.liveOpsWith (·.output.isSome)
  let p := seeds.foldl Propagation.enqueue { func := f, queue := [], stackUnsafe := false }
  -- every output moves down at most twice, and each move queues at most every operation
  let fuel := (f.store.ops.size + 1) * (3 * f.store.varnodes.size + 1) + 1
  propagateLoop ctx loads stores fuel p

/-- Gives every varnode its lattice value and records the stack depth. -/
def propagateConstants (ctx : Context) (f : Function) : Function :=
  let p := propagateValues ctx f
  let f := p.func
  let depth := f.store.locOrder.foldl (fun (d : Int64) v =>
    match (f.store.vn? v).map Varnode.value with
    | some (Value.rel base off) => if base == ctx.arch.sp.addr && off.toInt < d.toInt then off else d
    | _ => d) 0
  let f := if p.stackUnsafe then { f with flags := { f.flags with stackUnsafe := true } } else f
  { f with stackDepth := depth }

end Function

end MicroSsa
