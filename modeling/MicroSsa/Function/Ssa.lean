import MicroSsa.Function.Basic
import MicroSsa.DepthQueue
/-!
# Static single assignment form

A **variable** is a storage location of an exact size (`Location`) outside the constant space
and not naming a code address. `Function.buildSsa` links every read of a variable in a block
reached from the entry to the one write that reaches it:

1. collect the variables read in reachable blocks, each with the reachable blocks that write it;
2. for each variable in location order, place a merge at the top of every block of the iterated
   dominance frontier of its writers, visiting blocks deepest first (a `DepthQueue`); a merge
   has one input per in-edge of its block;
3. rename along the dominator tree, keeping for each variable a stack of its current writes: a
   read takes the top of the stack, and a read that no write reaches becomes an input of the
   function, which stays at the bottom of the stack; merge inputs are renamed from the
   predecessor at the end of each edge;
4. destroy the merges whose results reach no operation other than a merge, in creation order;
5. delete every free varnode that nothing reads.
-/

namespace MicroSsa

namespace Function

/-- The block of an operation, if it is reached from the entry. -/
def liveParent (f : Function) (o : Nat) : Option Nat := do
  let b ← (f.store.op? o).bind (·.parent)
  if (f.graph.get b).flags.dead then none else some b

/-- The variable of a varnode: its location, unless it is a constant or names a code
address. -/
def variableOf (v : Varnode) : Option Location :=
  if v.flags.constant || v.flags.annotation then none else some v.loc

/-- Locations order by address, then size. -/
def locationLt (a b : Location) : Bool :=
  match Address.compare a.addr b.addr with
  | .lt => true
  | .gt => false
  | .eq => a.size < b.size

/-- Inserts into an ordered list of numbers without duplicates. -/
def insertNat (xs : List Nat) (n : Nat) : List Nat :=
  match xs with
  | [] => [n]
  | x :: rest => if n < x then n :: x :: rest else if n = x then xs else x :: insertNat rest n

/-- The variables read in reachable blocks, in location order, each with the reachable blocks
that write it, in number order. -/
def collectVariables (f : Function) : List (Location × List Nat) :=
  let order := f.store.locOrder
  let vars := order.foldl (fun (vars : List (Location × List Nat)) v =>
    match f.store.vn? v with
    | some x =>
      if !x.isFree || x.flags.annotation then vars
      else if x.uses.any (fun o => (f.liveParent o).isSome) then
        if vars.any (·.1 == x.loc) then vars
        else
          let lower := vars.filter fun e => locationLt e.1 x.loc
          let upper := vars.filter fun e => locationLt x.loc e.1
          lower ++ [(x.loc, [])] ++ upper
      else vars
    | none => vars) []
  order.foldl (fun vars v =>
    match f.store.vn? v with
    | some x =>
      match x.defOp, variableOf x with
      | some d, some key =>
        match f.liveParent d with
        | some b => vars.map fun (k, ws) => if k == key then (k, insertNat ws b) else (k, ws)
        | none => vars
      | _, _ => vars
    | none => vars) vars

/-- Places a merge of `key` at the top of block `b`: one input per in-edge, and an output. -/
def insertMerge (f : Function) (key : Location) (b : Nat) : Except Fault Function := do
  let blk := f.graph.get b
  let firstAddr := blk.ops[0]? >>= f.store.op? |>.map (·.seq.addr)
  let addr := (blk.start <|> firstAddr).getD f.addr
  let (q, s) := f.store.newSeq addr
  let (o, s) ← s.newOp .multiEqual q
  let s ← (List.range blk.ins.size).foldlM (fun s slot => do
    let (v, s) := s.newVarnode key.size key.addr
    s.setInput o v slot) s
  let (out, s) := s.newVarnode key.size key.addr
  let s ← s.setOutput o out
  { f with store := s }.opInsertBegin o b

/-- The state of merge placement for one variable. -/
structure Placement where
  func : Function
  queue : DepthQueue
  merged : List Nat
  queued : List Nat

/-- Takes blocks out of the queue deepest first, and places merges on their frontiers. -/
def placeLoop (key : Location) : Nat → Placement → Except Fault Placement
  | 0, p => pure p
  | fuel + 1, p =>
    match p.queue.extract with
    | (none, q) => pure { p with queue := q }
    | (some x, q) => do
      let p := { p with queue := q }
      let p ← (p.func.graph.get x).frontier.toList.foldlM (fun (p : Placement) fb => do
        if (p.func.graph.get fb).flags.dead || p.merged.contains fb then pure p
        else
          let func ← p.func.insertMerge key fb
          let p := { p with func := func, merged := fb :: p.merged }
          if p.queued.contains fb then pure p
          else pure { p with queued := fb :: p.queued
                             queue := p.queue.insert fb (p.func.graph.get fb).depth }) p
      placeLoop key fuel p

/-- Places the merges of one variable on the iterated dominance frontier of its writers. -/
def placeMerges (f : Function) (maxDepth : Nat) (key : Location) (writers : List Nat) :
    Except Fault Function := do
  let q := writers.foldl (fun q b => q.insert b (f.graph.get b).depth) (DepthQueue.reset maxDepth)
  let p ← placeLoop key (f.graph.size + 2) { func := f, queue := q, merged := [], queued := writers }
  pure p.func

/-- The write stacks of the variables during renaming (the head of a list is its top). -/
abbrev Stacks := List (Location × List Nat)

/-- Replaces the free read `placeholder` in `slot` of `o` by the current write of its variable;
when no write reaches, a new input of the function is made and stays at the bottom of the
stack. -/
def renameRead (f : Function) (st : Stacks) (o slot placeholder : Nat) :
    Except Fault (Function × Stacks) := do
  let some x := f.store.vn? placeholder | pure (f, st)
  let some key := variableOf x | pure (f, st)
  let some (_, stack) := st.find? (·.1 == key) | pure (f, st)
  let (current, s, st) ← match stack with
    | top :: _ => pure (top, f.store, st)
    | [] => do
      let (v, s) := f.store.newVarnode key.size key.addr
      let s ← s.setVarnodeInput v
      pure (v, s, st.map fun (k, ws) => if k == key then (k, [v]) else (k, ws))
  let s ← s.setInput o current slot
  let s := match s.deleteVarnode placeholder with
    | .ok s => s
    | .error _ => s
  pure ({ f with store := s }, st)

/-- Whether an operation is a merge. -/
def isMerge (f : Function) (o : Nat) : Bool :=
  (f.store.op? o).any (·.opcode == .multiEqual)

/-- Renames the reads of one block, pushes its writes, and renames the merge inputs of its
successors that belong to its out-edges. Answers the variables whose stacks it pushed. -/
def renameBlock (f : Function) (st : Stacks) (b : Nat) :
    Except Fault (Function × Stacks × List Location) := do
  let (f, st, defs) ← (f.graph.get b).ops.toList.foldlM
    (fun (acc : Function × Stacks × List Location) o => do
      let (f, st, defs) := acc
      let (f, st) ← if f.isMerge o then pure (f, st)
        else
          let ins := ((f.store.op? o).map (·.inputs.toList)).getD []
          ins.zipIdx.foldlM (fun (acc : Function × Stacks) (v, slot) =>
            if (acc.1.store.vn? v).any (·.isFree) then renameRead acc.1 acc.2 o slot v
            else pure acc) (f, st)
      let out := (f.store.op? o).bind (·.output)
      match out.bind f.store.vn?, out with
      | some x, some v =>
        match variableOf x with
        | some key =>
          if st.any (·.1 == key) then
            pure (f, st.map (fun (k, ws) => if k == key then (k, v :: ws) else (k, ws)), key :: defs)
          else pure (f, st, defs)
        | none => pure (f, st, defs)
      | _, _ => pure (f, st, defs)) (f, st, [])
  let (f, st) ← (f.graph.get b).outs.toList.foldlM (fun (acc : Function × Stacks) e => do
    let (f, st) := acc
    let merges := (f.graph.get e.target).ops.toList.takeWhile f.isMerge
    merges.foldlM (fun (acc : Function × Stacks) m =>
      match (acc.1.store.op? m).bind (·.inputs[e.inSlot]?) with
      | some v =>
        if (acc.1.store.vn? v).any (·.isFree) then renameRead acc.1 acc.2 m e.inSlot v
        else pure acc
      | none => pure acc) (f, st)) (f, st)
  pure (f, st, defs)

/-- Pops the writes a block pushed. -/
def popDefs (st : Stacks) (defs : List Location) : Stacks :=
  defs.foldl (fun st key => st.map fun (k, ws) => if k == key then (k, ws.drop 1) else (k, ws)) st

/-- Renames the dominator subtree of `b`: the block, then its children in order. -/
def renameTree : Nat → Function → Stacks → Nat → Except Fault (Function × Stacks)
  | 0, f, st, _ => pure (f, st)
  | fuel + 1, f, st, b => do
    let (f, st, defs) ← f.renameBlock st b
    let (f, st) ← (f.graph.get b).children.toList.foldlM
      (fun (acc : Function × Stacks) c => renameTree fuel acc.1 acc.2 c) (f, st)
    pure (f, popDefs st defs)

/-- The merges whose results reach an operation other than a merge, directly or through other
merges. -/
def liveMerges (f : Function) (merges : List Nat) : List Nat :=
  let seeds := merges.filter fun m =>
    ((f.store.op? m).bind (·.output) >>= f.store.vn?).any fun x =>
      x.uses.any fun u => !f.isMerge u
  let fuel := merges.foldl (fun n m => n + ((f.store.op? m).map (·.inputs.size)).getD 0) 0 +
    merges.length + 1
  let rec grow : Nat → List Nat → List Nat → List Nat
    | 0, live, _ => live
    | _ + 1, live, [] => live
    | n + 1, live, m :: todo =>
      if live.contains m then grow n live todo
      else
        let ins := ((f.store.op? m).map (·.inputs.toList)).getD []
        let more := ins.filterMap fun v => (f.store.vn? v).bind (·.defOp) |>.filter fun d =>
          merges.contains d && !live.contains d && d != m
        grow n (m :: live) (more.reverse ++ todo)
  grow fuel [] seeds.reverse

/-- Destroys the merges of reachable blocks whose results reach no operation other than a
merge, in creation order. -/
def pruneMerges (f : Function) : Except Fault Function := do
  let merges := ((f.liveBlocks.flatMap fun b => (f.graph.get b).ops.toList).filter f.isMerge).mergeSort
    (· ≤ ·)
  let live := f.liveMerges merges
  (merges.filter fun m => !live.contains m).foldlM (fun f m => f.opDestroy m) f

/-- Builds SSA form over the blocks reached from the entry. -/
def buildSsa (f : Function) : Except Fault Function := do
  let some entry := f.graph.entry | pure f
  let vars := f.collectVariables
  let maxDepth := f.graph.blocks.foldl (fun m blk => max m blk.depth) 0
  let f ← vars.foldlM (fun f (key, writers) => f.placeMerges maxDepth key writers) f
  let (f, _) ← renameTree (f.graph.size + 1) f (vars.map fun (k, _) => (k, [])) entry
  let f ← f.pruneMerges
  let unused := f.store.locOrder.filter fun v =>
    (f.store.vn? v).any fun x => x.isFree && x.uses.isEmpty
  pure { f with store := unused.foldl (fun s v => match s.deleteVarnode v with
    | .ok s => s
    | .error _ => s) f.store }

end Function

end MicroSsa
