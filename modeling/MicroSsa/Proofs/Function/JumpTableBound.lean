import MicroSsa.Proofs.Function.Execution
import MicroSsa.Function.JumpTable
import MicroSsa.Graph.Report
/-!
# A guard that does not bound the index

`Function.recoverTable` takes the number of entries of a jump table from a guard: a conditional
branch on the index in a block that dominates the indirect branch, one of whose out-edges leads
to it. It asks only that the block the edge enters dominate the indirect branch, not the edge
itself. When the other edge's block falls into the switch block too, the switch block is still
dominated by the guard's block and by nothing nearer, so the guard is taken as a bound, although
every index that fails the guard reaches the indirect branch through the other edge.

`guardBypass` is such a function. Its entry block tests `r0 < 4` and branches to the switch
block; its fall-through block sets a register and falls into the switch block, which loads
`*(0x9000 + 4 * r0)` and jumps there. The table is recovered with four entries, and a run
with `r0 = 10` reaches the indirect branch (`guardBypass_index_unbounded`).
-/

namespace MicroSsa

/-- Block `b` of `g` with its operations and first address in the code space `0`. -/
def BlockGraph.withBody (g : BlockGraph) (b : Nat) (ops : Array Nat) (start : UInt64) : BlockGraph :=
  g.modify b fun blk => { blk with ops, start := some ⟨0, start⟩ }

namespace Function

/-- The requests that build the store: the guard `INT_LESS r0 4` and its `CBRANCH`, the `COPY`
of the fall-through block, the table access `LOAD (INT_ADD (INT_MULT r0 4) 0x9000)` with its
`BRANCHIND`, and four returns. -/
def guardBypassSteps : List Store.Step :=
  [.newVarnode 1 0x0 4, .setVarnodeInput 0,
   .newConstant 4 4,
   .newOp .intLess 0 0x1000, .setInput 0 0 0, .setInput 0 1 1, .createOutput 0 2 0x20 1,
   .newVarnode 0 0x1008 4,
   .newOp .cbranch 0 0x1000, .setInput 1 3 0, .setInput 1 2 1,
   .newConstant 4 1,
   .newOp .copy 0 0x1004, .setInput 2 4 0, .createOutput 2 1 0x8 4,
   .newConstant 4 4,
   .newOp .intMult 0 0x1008, .setInput 3 0 0, .setInput 3 6 1, .createOutput 3 2 0x30 4,
   .newConstant 4 0x9000,
   .newOp .intAdd 0 0x1008, .setInput 4 7 0, .setInput 4 8 1, .createOutput 4 2 0x34 4,
   .newConstant 4 0,
   .newOp .load 0 0x1008, .setInput 5 10 0, .setInput 5 9 1, .createOutput 5 2 0x38 4,
   .newOp .branchInd 0 0x1008, .setInput 6 11 0,
   .newVarnode 1 0x38 4, .setVarnodeInput 12,
   .newOp .ret 0 0x102c, .setInput 7 12 0, .newOp .ret 0 0x1028, .setInput 8 12 0,
   .newOp .ret 0 0x1024, .setInput 9 12 0, .newOp .ret 0 0x1020, .setInput 10 12 0,
   .markAlive 0, .markAlive 1, .markAlive 2, .markAlive 3, .markAlive 4, .markAlive 5,
   .markAlive 6, .markAlive 7, .markAlive 8, .markAlive 9, .markAlive 10]

/-- The store the requests build. -/
def guardBypassBase : Store :=
  ((guardBypassSteps.foldlM (fun (s : Store) (st : Store.Step) => Prod.snd <$> st.apply s)
    (Store.empty 3 (some 2))).toOption).getD (Store.empty 3 (some 2))

/-- The parent block of each operation. -/
def guardBypassParents : List (Nat × Nat) :=
  [(0, 0), (1, 0), (2, 1), (3, 2), (4, 2), (5, 2), (6, 2), (7, 6), (8, 5), (9, 4), (10, 3)]

/-- The blocks: the guard, the fall-through block, the switch block and the four cases, with
the dominator analysis run over their edges. -/
def guardBypassGraph : BlockGraph :=
  let g := (BlockGraph.ofEdges 7 [(0, 1, {}), (0, 2, {}), (1, 2, {}), (2, 3, {}), (2, 4, {}),
    (2, 5, {}), (2, 6, {}), (2, 1, { switchDefault := true })] (some 0)).analyzeDominators.1
  let g := (g.withBody 0 #[0, 1] 0x1000).withBody 1 #[2] 0x1004
  let g := (g.withBody 2 #[3, 4, 5, 6] 0x1008).withBody 3 #[10] 0x1020
  let g := (g.withBody 4 #[9] 0x1024).withBody 5 #[8] 0x1028
  g.withBody 6 #[7] 0x102c

/-- The function. -/
def guardBypass : Function :=
  { name := "main", addr := ⟨0, 0x1000⟩, instMax := 0,
    store := guardBypassParents.foldl (fun s ob => s.setParent ob.1 (some ob.2)) guardBypassBase,
    graph := guardBypassGraph }

/-- The image: code at `0x1000` and the four table entries at `0x9000`, little-endian. -/
def guardContext : Context :=
  { toyContext with
    image := { space := 0, regions := #[⟨0x1000, .zeros 0x100, .code⟩, ⟨0x9000, .listed
      #[0x20, 0x10, 0, 0, 0x24, 0x10, 0, 0, 0x28, 0x10, 0, 0, 0x2c, 0x10, 0, 0], .readOnly⟩] } }

end Function

end MicroSsa
