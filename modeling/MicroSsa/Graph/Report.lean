import MicroSsa.Graph.Dominators
import MicroSsa.Doc
/-!
# Reports on block graphs

The record of a block lists its number, marks, immediate dominator, depth, dominator-tree
children, frontier, and its in- and out-edges as pairs of the block at the other end and the
edge's label names, all in stored order.
-/

namespace MicroSsa

namespace BlockGraph

/-- The edge record: the block at the other end and the label names. -/
def edgeDoc (other : Nat) (l : EdgeLabel) : Doc :=
  .arr [.nat other, .strs l.names]

/-- The fields of a block's record that the dominator analysis determines. -/
def blockFields (g : BlockGraph) (b : Nat) : List (String × Doc) :=
  let blk := g.get b
  [("id", .nat b), ("flags", .strs blk.flags.names), ("idom", .opt .nat blk.idom),
   ("depth", .nat blk.depth), ("children", .nats blk.children.toList),
   ("frontier", .nats blk.frontier.toList),
   ("in", .arr (blk.ins.toList.zipIdx.map fun (e, i) => edgeDoc e.source (g.inLabel b i))),
   ("out", .arr (blk.outs.toList.map fun e => edgeDoc e.target e.label))]

/-- A graph of `n` blocks with the given edges, added in order, and an optional entry. -/
def ofEdges (n : Nat) (edges : List (Nat × Nat × EdgeLabel)) (entry : Option Nat) : BlockGraph :=
  let g : BlockGraph := { blocks := Array.replicate n {} }
  let g := edges.foldl (fun g (a, b, l) => g.addEdge a b l) g
  match entry with
  | some e => g.setEntry e
  | none => g

/-- Runs the dominator analysis `rounds` times on one graph; reports every round, and the graph
after the last. -/
def dominatorRounds (g : BlockGraph) : Nat → List Doc × BlockGraph
  | 0 => ([], g)
  | r + 1 =>
    let (g', s) := g.analyzeDominators
    let round := Doc.obj [("rpo", .nats s.rpo), ("unreachable", .nats s.unreachable),
      ("blocks", .list (fun b => .obj (g'.blockFields b)) (List.range g'.size))]
    let (rest, last) := dominatorRounds g' r
    (round :: rest, last)

end BlockGraph

end MicroSsa
