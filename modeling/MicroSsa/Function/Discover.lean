import MicroSsa.Function.Flow
import MicroSsa.Function.Blocks
import MicroSsa.Function.Ssa
import MicroSsa.Function.Propagation
import MicroSsa.Function.JumpTable
import MicroSsa.Graph.Dominators
/-!
# Discovering a function's code and finishing its analysis

Flow following stops at indirect branches. To find the code behind them, the function found so
far is analysed on a scratch copy (blocks, dominators, SSA form, constants), jump tables are
recovered from that copy, and their targets are followed in the function itself; this repeats
until no new table turns up. The function is then analysed for good.
-/

namespace MicroSsa

namespace Function

/-- Blocks, dominators, SSA form and constants: everything after flow following. -/
def analyzeBody (ctx : Context) (f : Function) : Except Fault Function := do
  let f := f.generateBlocks
  let (graph, summary) := f.graph.analyzeDominators
  let f := { f with graph := graph,
                    flags := { f.flags with blocksUnreachable := !summary.unreachable.isEmpty } }
  let f ← f.buildSsa
  pure (propagateConstants ctx f)

/-- Records the outcome of recovering the table behind the indirect branch `o`. -/
def recordRecovery (f : Function) (o : Nat) : Except RecoveryFailure JumpTable → Function × Nat
  | .ok jt =>
    let f := jt.addresses.foldl (fun f a =>
      { f with blockStarts := insertAddr f.blockStarts a,
               pending := if (f.visitAt? a).isSome then f.pending else a :: f.pending }) f
    ({ f with jumpTables := f.jumpTables.push jt }, 1)
  | .error e => ({ f with unresolved := f.unresolved ++ [(o, e)] }, 0)

/-- Tries to resolve every indirect branch found so far that has neither a table nor a recorded
failure, queueing the targets of the tables found. Returns how many were found. -/
def recoverJumpTables (ctx : Context) (f : Function) : Except Fault (Function × Nat) := do
  let candidates := f.indirects.toList.filter fun o =>
    !(f.unresolved.any (·.1 == o)) &&
      !(f.jumpTables.any fun jt => some jt.opSeq == (f.store.op? o).map (·.seq))
  if candidates.isEmpty then return (f, 0)
  let scratch ← analyzeBody ctx f
  pure (candidates.foldl (fun (f, n) o =>
    let (f, k) := f.recordRecovery o (recoverTable ctx scratch o)
    (f, n + k)) (f, 0))

/-- Alternates flow following with jump-table recovery until no new table is found. -/
def discoverLoop (ctx : Context) : Nat → Function → Except Fault Function
  | 0, f => pure f
  | fuel + 1, f => do
    let f ← followFlow ctx f
    if !ctx.config.jumpTableRecovery || f.flags.instructionLimit then return f
    let (f, n) ← recoverJumpTables ctx f
    if n == 0 then pure f else discoverLoop ctx fuel f

/-- Finds the function's code, starting at its entry if nothing has been followed yet. Each
round that continues recovers a table for a new indirect branch, and there are no more of those
than decoded operations. -/
def discoverFlow (ctx : Context) (f : Function) : Except Fault Function :=
  let f := if f.visited.isEmpty && f.pending.isEmpty then { f with pending := [f.addr] } else f
  discoverLoop ctx (ctx.decoder.opCount + 2) f

/-- The analysis after flow discovery, marking the function complete. -/
def finishAnalysis (ctx : Context) (f : Function) : Except Fault Function := do
  let f ← analyzeBody ctx f
  pure { f with flags := { f.flags with processingComplete := true } }

end Function

end MicroSsa
