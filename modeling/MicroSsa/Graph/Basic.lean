import MicroSsa.Space
/-!
# Control-flow graphs

A **block graph** is the control-flow graph of one function: blocks numbered from zero, each with
an ordered list of out-edges and an ordered list of in-edges. Adding an edge `a → b` appends it
to the out-edges of `a` and to the in-edges of `b`; each side records the position of the other,
so that the `i`-th in-edge of a block belongs to a definite out-edge of its predecessor. The
order of in-edges matters: input `i` of a merge at the top of a block belongs to in-edge `i`.

An edge's **label** lives on its out-edge only; the in-edge reads it from there
(`BlockGraph.inLabel`), so the two directions never disagree.

The dominator analysis (`MicroSsa.Graph.Dominators`) stores its results on the blocks:
immediate dominator, children and depth in the dominator tree, dominance frontier.
`BlockGraph.dominates` walks the immediate dominators upward.
-/

namespace MicroSsa

/-- The labels of an edge: its class in the depth-first spanning tree (`tree`, `forward`,
`cross`, `back`), `loop` for a back edge whose target dominates its source, and `switchDefault`
for the fallback edge of a switch. -/
structure EdgeLabel where
  tree : Bool := false
  forward : Bool := false
  cross : Bool := false
  back : Bool := false
  loop : Bool := false
  switchDefault : Bool := false
  deriving DecidableEq, Repr, Inhabited

namespace EdgeLabel

/-- The label without its spanning-tree class and loop mark, which each dominator pass
recomputes. -/
def unclassified (l : EdgeLabel) : EdgeLabel :=
  { switchDefault := l.switchDefault }

/-- The names of the labels that are set, in the order of their bits. -/
def names (l : EdgeLabel) : List String :=
  [("TREE", l.tree), ("FORWARD", l.forward), ("CROSS", l.cross), ("BACK", l.back),
   ("LOOP", l.loop), ("SWITCH_DEFAULT", l.switchDefault)].filterMap
    fun (n, b) => if b then some n else none

/-- The labels of a bit set, bit `0` for `tree` up to bit `5` for `switchDefault`; other bits
are dropped. -/
def ofBits (n : Nat) : EdgeLabel :=
  { tree := n.testBit 0, forward := n.testBit 1, cross := n.testBit 2, back := n.testBit 3,
    loop := n.testBit 4, switchDefault := n.testBit 5 }

end EdgeLabel

/-- The marks of a block. -/
structure BlockFlags where
  entryPoint : Bool := false
  /-- No path leads to the block from the entry. -/
  dead : Bool := false
  switchCase : Bool := false
  switchDefault : Bool := false
  /-- The block ends in a return. -/
  ret : Bool := false
  /-- The block ends in an indirect branch that could not be resolved. -/
  unreachableRisk : Bool := false
  /-- The block ends in a branch to an address that holds no instruction. -/
  badData : Bool := false
  loopHeader : Bool := false
  loopBody : Bool := false
  deriving DecidableEq, Repr, Inhabited

/-- The names of the marks that are set, in the order of their bits. -/
def BlockFlags.names (f : BlockFlags) : List String :=
  [("ENTRY_POINT", f.entryPoint), ("DEAD", f.dead), ("SWITCH_CASE", f.switchCase),
   ("SWITCH_DEFAULT", f.switchDefault), ("RETURN", f.ret),
   ("UNREACHABLE_RISK", f.unreachableRisk), ("BAD_DATA", f.badData),
   ("LOOP_HEADER", f.loopHeader), ("LOOP_BODY", f.loopBody)].filterMap
    fun (n, b) => if b then some n else none

/-- An out-edge: its target, its label, and its position among the target's in-edges. -/
structure OutEdge where
  target : Nat
  label : EdgeLabel
  inSlot : Nat
  deriving DecidableEq, Repr, Inhabited

/-- An in-edge: its source and its position among the source's out-edges. -/
structure InEdge where
  source : Nat
  outSlot : Nat
  deriving DecidableEq, Repr, Inhabited

/-- A basic block: a straight run of operations (named by number) and its place in the graph. -/
structure Block where
  flags : BlockFlags := {}
  ops : Array Nat := #[]
  ins : Array InEdge := #[]
  outs : Array OutEdge := #[]
  idom : Option Nat := none
  children : Array Nat := #[]
  /-- Depth in the dominator tree; the entry is at depth `0`. -/
  depth : Nat := 0
  frontier : Array Nat := #[]
  /-- The jump table of a block ending in a resolved indirect branch. -/
  jumpTable : Option Nat := none
  /-- The address of the first operation. -/
  start : Option Address := none
  /-- Position in the depth-first search from the entry; `none` when unreached. -/
  preorder : Option Nat := none
  /-- Position in the completion order of that search. -/
  postorder : Option Nat := none
  deriving Repr, Inhabited

/-- The blocks of a function's control-flow graph and its entry block. -/
structure BlockGraph where
  blocks : Array Block := #[]
  entry : Option Nat := none
  deriving Repr, Inhabited

namespace BlockGraph

/-- The number of blocks. -/
def size (g : BlockGraph) : Nat := g.blocks.size

/-- The block with a number (an empty block when there is none). -/
def get (g : BlockGraph) (b : Nat) : Block := g.blocks[b]?.getD {}

/-- Changes the block with a number. -/
def modify (g : BlockGraph) (b : Nat) (f : Block → Block) : BlockGraph :=
  { g with blocks := g.blocks.modify b f }

/-- Appends an empty block; answers its number. -/
def addBlock (g : BlockGraph) : Nat × BlockGraph :=
  (g.blocks.size, { g with blocks := g.blocks.push {} })

/-- Adds the edge `a → b` as the last out-edge of `a` and the last in-edge of `b`. -/
def addEdge (g : BlockGraph) (a b : Nat) (label : EdgeLabel) : BlockGraph :=
  let outPos := (g.get a).outs.size
  let inPos := (g.get b).ins.size
  let g := g.modify a fun blk => { blk with outs := blk.outs.push ⟨b, label, inPos⟩ }
  g.modify b fun blk => { blk with ins := blk.ins.push ⟨a, outPos⟩ }

/-- Relabels out-edge `slot` of block `a`. -/
def setLabel (g : BlockGraph) (a slot : Nat) (label : EdgeLabel) : BlockGraph :=
  g.modify a fun blk => { blk with outs := blk.outs.modify slot fun e => { e with label := label } }

/-- The label of in-edge `slot` of block `b`: the label of the out-edge it mirrors. -/
def inLabel (g : BlockGraph) (b slot : Nat) : EdgeLabel :=
  match (g.get b).ins[slot]? with
  | some e => (((g.get e.source).outs[e.outSlot]?).map (·.label)).getD {}
  | none => {}

/-- Makes `b` the entry, moving the entry mark from the old entry. -/
def setEntry (g : BlockGraph) (b : Nat) : BlockGraph :=
  let g := match g.entry with
    | some old => g.modify old fun blk => { blk with flags := { blk.flags with entryPoint := false } }
    | none => g
  let g := g.modify b fun blk => { blk with flags := { blk.flags with entryPoint := true } }
  { g with entry := some b }

/-- The predecessors of a block, one per in-edge, in in-edge order. -/
def preds (g : BlockGraph) (b : Nat) : List Nat :=
  (g.get b).ins.toList.map (·.source)

/-- The successors of a block, one per out-edge, in out-edge order. -/
def succs (g : BlockGraph) (b : Nat) : List Nat :=
  (g.get b).outs.toList.map (·.target)

/-- Walks up the immediate dominators from `cur` looking for `a`, giving up at the depth of
`a`; `fuel` bounds the steps. -/
def dominatesFrom (g : BlockGraph) (a targetDepth : Nat) : Nat → Nat → Bool
  | 0, _ => false
  | fuel + 1, cur =>
    if cur = a then true
    else
      let blk := g.get cur
      if blk.depth ≤ targetDepth then false
      else match blk.idom with
        | some d => g.dominatesFrom a targetDepth fuel d
        | none => false

/-- Whether `a` dominates `b`, read off the stored dominator tree. -/
def dominates (g : BlockGraph) (a b : Nat) : Bool :=
  g.dominatesFrom a (g.get a).depth (g.size + 1) b

end BlockGraph

end MicroSsa
