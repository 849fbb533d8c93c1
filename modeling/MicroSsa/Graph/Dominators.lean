import MicroSsa.Graph.Basic
/-!
# Dominators

`BlockGraph.analyzeDominators` computes, from the entry block and from scratch each time:

1. a depth-first search from the entry that takes out-edges in slot order, numbering blocks in
   preorder and completion order and labelling every edge it examines `tree`, `back` (the target
   is still open), `forward` (the target was entered later and is finished) or `cross`;
2. the immediate dominators, by the iterative intersection of predecessors' dominator chains
   over reverse postorder until nothing changes (Cooper, Harvey and Kennedy);
3. the dominator tree: each reachable block's children, in reverse postorder, and its depth;
4. the dominance frontiers, by walking up from each predecessor of a join to the join's
   immediate dominator;
5. natural loops: a back edge whose target dominates its source is labelled `loop`, its target
   becomes a loop header, and every block that reaches the source without passing the header
   joins the loop body.

Blocks with no path from the entry are marked dead. The summary lists the reachable blocks in
reverse postorder and the unreachable ones in number order.
-/

namespace MicroSsa

/-- The reachable blocks in reverse postorder and the unreachable blocks in number order. -/
structure DominatorSummary where
  rpo : List Nat
  unreachable : List Nat
  deriving Repr, Inhabited

namespace BlockGraph

/-- Forgets every result of an earlier dominator pass. -/
def clearDominators (g : BlockGraph) : BlockGraph :=
  { g with blocks := g.blocks.map fun blk =>
    { blk with
      flags := { blk.flags with dead := false, loopHeader := false, loopBody := false }
      idom := none, children := #[], depth := 0, frontier := #[]
      preorder := none, postorder := none
      outs := blk.outs.map fun e => { e with label := e.label.unclassified } } }

end BlockGraph

/-- The class of an edge in the depth-first spanning tree. -/
inductive EdgeClass where
  | tree | back | forward | cross
  deriving DecidableEq, Repr

/-- The label with a spanning-tree class added. -/
def EdgeLabel.withClass (l : EdgeLabel) : EdgeClass → EdgeLabel
  | .tree => { l with tree := true }
  | .back => { l with back := true }
  | .forward => { l with forward := true }
  | .cross => { l with cross := true }

namespace BlockGraph

/-- The class of the edge `b → target` when the search examines it: `tree` to an unreached
block, `back` to an open one, `forward` to a finished block entered after `b`, else `cross`. -/
def classify (g : BlockGraph) (b target : Nat) : EdgeClass :=
  let t := g.get target
  match t.preorder with
  | none => .tree
  | some tp =>
    match t.postorder with
    | none => .back
    | some _ =>
      match (g.get b).preorder with
      | some bp => if bp < tp then .forward else .cross
      | none => .cross

/-- The state of the depth-first search: the graph being numbered, the next preorder number,
the finished blocks (last finished first) and the open blocks with their next out-slot. -/
structure Search where
  graph : BlockGraph
  nextPre : Nat
  finished : List Nat
  stack : List (Nat × Nat)

/-- Runs the depth-first search for at most `fuel` steps. -/
def searchLoop : Nat → Search → Search
  | 0, s => s
  | fuel + 1, s =>
    match s.stack with
    | [] => s
    | (b, slot) :: rest =>
      let blk := s.graph.get b
      match blk.outs[slot]? with
      | some e =>
        let c := s.graph.classify b e.target
        let g := s.graph.setLabel b slot (e.label.withClass c)
        if c = .tree then
          let g := g.modify e.target fun t => { t with preorder := some s.nextPre }
          searchLoop fuel
            { graph := g, nextPre := s.nextPre + 1, finished := s.finished
              stack := (e.target, 0) :: (b, slot + 1) :: rest }
        else
          searchLoop fuel { s with graph := g, stack := (b, slot + 1) :: rest }
      | none =>
        let g := s.graph.modify b fun t => { t with postorder := some s.finished.length }
        searchLoop fuel { s with graph := g, finished := b :: s.finished, stack := rest }

/-- The total number of out-edges. -/
def edgeCount (g : BlockGraph) : Nat :=
  g.blocks.foldl (fun n blk => n + blk.outs.size) 0

/-- Numbers and classifies from the entry; answers the reachable blocks in reverse
postorder. -/
def spanningTree (g : BlockGraph) (entry : Nat) : BlockGraph × List Nat :=
  let g := g.modify entry fun t => { t with preorder := some 0 }
  let s := searchLoop (g.edgeCount + g.size + 1)
    { graph := g, nextPre := 1, finished := [], stack := [(entry, 0)] }
  (s.graph, s.finished)

/-- Walks two dominator chains upward, always from the block later in reverse postorder, until
they meet. -/
def intersect (idom : Array (Option Nat)) (rpoNum : Array Nat) : Nat → Nat → Nat → Nat
  | 0, a, _ => a
  | fuel + 1, a, b =>
    if a = b then a
    else if rpoNum[b]?.getD 0 < rpoNum[a]?.getD 0 then
      match idom[a]?.join with
      | some d => intersect idom rpoNum fuel d b
      | none => a
    else
      match idom[b]?.join with
      | some d => intersect idom rpoNum fuel a d
      | none => a

/-- One pass over the blocks after the entry, in reverse postorder: each block's immediate
dominator becomes the meeting point of its processed predecessors' chains. Answers whether
anything changed. -/
def idomPass (g : BlockGraph) (rpoNum : Array Nat) (blocks : List Nat)
    (idom : Array (Option Nat)) : Array (Option Nat) × Bool :=
  blocks.foldl (fun (acc : Array (Option Nat) × Bool) b =>
    let (idom, changed) := acc
    let found := (g.preds b).foldl (fun (cur : Option Nat) p =>
      match idom[p]?.join with
      | none => cur
      | some _ =>
        match cur with
        | none => some p
        | some c => some (intersect idom rpoNum (2 * g.size + 2) p c)) none
    match found with
    | some d => if idom[b]?.join = some d then (idom, changed) else (idom.set! b (some d), true)
    | none => (idom, changed)) (idom, false)

/-- Repeats passes until one changes nothing, at most `fuel` times. -/
def idomLoop (g : BlockGraph) (rpoNum : Array Nat) (blocks : List Nat) :
    Nat → Array (Option Nat) → Array (Option Nat)
  | 0, idom => idom
  | fuel + 1, idom =>
    let (idom, changed) := idomPass g rpoNum blocks idom
    if changed then idomLoop g rpoNum blocks fuel idom else idom

/-- The immediate dominator of every block reached from `rpo`'s first block (itself for that
block, `none` for the unreached). -/
def immediateDominators (g : BlockGraph) (rpo : List Nat) : Array (Option Nat) :=
  match rpo with
  | [] => Array.replicate g.size none
  | entry :: rest =>
    let rpoNum := rpo.zipIdx.foldl (fun (a : Array Nat) (b, i) => a.set! b i)
      (Array.replicate g.size g.size)
    let idom := (Array.replicate g.size (none : Option Nat)).set! entry (some entry)
    idomLoop g rpoNum rest (g.size * g.size + 2) idom

/-- Stores the dominator tree: immediate dominator, depth, and children in reverse
postorder. -/
def buildTree (g : BlockGraph) (rest : List Nat) (idom : Array (Option Nat)) : BlockGraph :=
  rest.foldl (fun g b =>
    match idom[b]?.join with
    | some d =>
      let depth := (g.get d).depth + 1
      let g := g.modify b fun blk => { blk with idom := some d, depth := depth }
      g.modify d fun blk => { blk with children := blk.children.push b }
    | none => g) g

/-- Adds `b` to the frontier of every block from `r` upward to `stop` (excluded). -/
def runUp (b : Nat) (stop : Option Nat) : Nat → BlockGraph → Nat → BlockGraph
  | 0, g, _ => g
  | fuel + 1, g, r =>
    if some r = stop then g
    else
      let g := g.modify r fun blk =>
        if blk.frontier.contains b then blk else { blk with frontier := blk.frontier.push b }
      match (g.get r).idom with
      | some d => runUp b stop fuel g d
      | none => g

/-- Stores the dominance frontiers: every join with two or more reachable in-edges is added to
the frontier of each block on the way from a predecessor up to the join's immediate
dominator. -/
def dominanceFrontiers (g : BlockGraph) (rpo : List Nat) : BlockGraph :=
  rpo.foldl (fun g b =>
    let ps := (g.preds b).filter fun p => (g.get p).preorder.isSome
    if ps.length < 2 then g
    else
      let stop := (g.get b).idom
      ps.foldl (fun g p => runUp b stop (g.size + 1) g p) g) g

/-- The back edges, as source, out-slot and target, in block and slot order. -/
def backEdges (g : BlockGraph) : List (Nat × Nat × Nat) :=
  (List.range g.size).flatMap fun b =>
    (g.get b).outs.toList.zipIdx.filterMap fun (e, slot) =>
      if e.label.back then some (b, slot, e.target) else none

/-- Marks as loop body every block that reaches a block of `work` backwards through reachable
predecessors without passing `header`. -/
def markBody (header : Nat) : Nat → BlockGraph → Array Bool → List Nat → BlockGraph
  | 0, g, _, _ => g
  | _ + 1, g, _, [] => g
  | fuel + 1, g, seen, b :: work =>
    if seen[b]?.getD false || b = header then markBody header fuel g seen work
    else
      let g := g.modify b fun blk => { blk with flags := { blk.flags with loopBody := true } }
      let ps := (g.preds b).filter fun p => (g.get p).preorder.isSome
      markBody header fuel g (seen.set! b true) (ps.reverse ++ work)

/-- Labels natural loops: a back edge whose target dominates its source. -/
def labelLoops (g : BlockGraph) : BlockGraph :=
  g.backEdges.foldl (fun g (src, slot, header) =>
    if !g.dominates header src then g
    else
      let l := (((g.get src).outs[slot]?).map (·.label)).getD {}
      let g := g.setLabel src slot { l with loop := true }
      let g := g.modify header fun blk =>
        { blk with flags := { blk.flags with loopHeader := true, loopBody := true } }
      markBody header (g.edgeCount + g.size + 2) g (Array.replicate g.size false) [src]) g

/-- The full dominator analysis from the entry, stored on the blocks. -/
def analyzeDominators (g : BlockGraph) : BlockGraph × DominatorSummary :=
  let g := g.clearDominators
  match g.entry with
  | none =>
    let g := { g with blocks := g.blocks.map fun blk => { blk with flags := { blk.flags with dead := true } } }
    (g, { rpo := [], unreachable := List.range g.size })
  | some entry =>
    let (g, rpo) := g.spanningTree entry
    let idom := g.immediateDominators rpo
    let g := g.buildTree rpo.tail idom
    let g := g.dominanceFrontiers rpo
    let g := g.labelLoops
    let unreachable := (List.range g.size).filter fun b => (g.get b).preorder.isNone
    let g := unreachable.foldl (fun g b =>
      g.modify b fun blk => { blk with flags := { blk.flags with dead := true } }) g
    (g, { rpo := rpo, unreachable := unreachable })

end BlockGraph

end MicroSsa
