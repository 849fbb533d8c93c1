import MicroSsa.Arena
import MicroSsa.DepthQueue
import MicroSsa.Doc
import MicroSsa.Fault
import MicroSsa.Function.Basic
import MicroSsa.Function.Blocks
import MicroSsa.Function.Discover
import MicroSsa.Function.Flow
import MicroSsa.Function.JumpTable
import MicroSsa.Function.Propagation
import MicroSsa.Function.Ssa
import MicroSsa.Graph.Basic
import MicroSsa.Graph.Dominators
import MicroSsa.Graph.Report
import MicroSsa.Image
import MicroSsa.InsertionSet
import MicroSsa.Listing.Basic
import MicroSsa.Listing.Text
import MicroSsa.Main
import MicroSsa.Opcode
import MicroSsa.Session.Basic
import MicroSsa.Session.Report
import MicroSsa.Space
import MicroSsa.Store.Basic
import MicroSsa.Store.Edit
import MicroSsa.Store.Script
import MicroSsa.Text.Blank
import MicroSsa.Text.Number
import MicroSsa.Text.Printable
import MicroSsa.Text.HexPairs
import MicroSsa.Value.Basic
import MicroSsa.Value.Evaluate
import MicroSsa.Value.Fold
import MicroSsa.Word
import MicroSsa.Proofs.Graph.Paths
import MicroSsa.Proofs.Graph.Search
import MicroSsa.Proofs.Graph.IdomTree
import MicroSsa.Proofs.Graph.Iteration
import MicroSsa.Proofs.Graph.Tree
import MicroSsa.Proofs.Graph.Analysis
import MicroSsa.Proofs.Graph.Frontier
import MicroSsa.Proofs.Graph.Rerun
import MicroSsa.Proofs.Store.Links
import MicroSsa.Proofs.Store.Requests
import MicroSsa.Proofs.Store.Orders
import MicroSsa.Proofs.Propagation.Lattice
import MicroSsa.Proofs.Propagation.Monotone
import MicroSsa.Proofs.Propagation.Worklist
import MicroSsa.Proofs.Propagation.Fixpoint
import MicroSsa.Proofs.Blocks.Flow
import MicroSsa.Proofs.Blocks.Partition
import MicroSsa.Proofs.Containers.InsertionSet
import MicroSsa.Proofs.Containers.Arena
import MicroSsa.Proofs.Blocks.Connect
import MicroSsa.Proofs.Blocks.Cfg
import MicroSsa.Proofs.Session.CallTargets
import MicroSsa.Proofs.Session.Linking
import MicroSsa.Proofs.Session.Registry
import MicroSsa.Proofs.Propagation.Top
import MicroSsa.Proofs.Value.Soundness
import MicroSsa.Proofs.Function.Execution
import MicroSsa.Proofs.Function.JumpTableBound
import MicroSsa.Proofs.Session.Expansion
import MicroSsa.Proofs.Value.EvaluationSound
import MicroSsa.Proofs.Function.Guards
import MicroSsa.Proofs.Value.BitVectors
import MicroSsa.Proofs.Function.Instructions
import MicroSsa.Proofs.Graph.Classes
import MicroSsa.Proofs.Graph.Loops
import MicroSsa.Proofs.Ssa.Merge
import MicroSsa.Proofs.Ssa.Placement
import MicroSsa.Proofs.Ssa.Pruning
import MicroSsa.Proofs.Blocks.Relative
import MicroSsa.Proofs.Propagation.StackSlots
import MicroSsa.Proofs.Blocks.Switch
import MicroSsa.Proofs.Store.Kept
import MicroSsa.Proofs.Function.KeptOps
import MicroSsa.Proofs.Function.FlowWork
import MicroSsa.Proofs.Function.Discovery
import MicroSsa.Proofs.Value.Semilattice
import MicroSsa.Proofs.Ssa.QueueRefinement
import MicroSsa.Proofs.Ssa.Destroy
import MicroSsa.Proofs.Ssa.Cleanup
import MicroSsa.Proofs.Ssa.Heritage
import MicroSsa.Proofs.Image.Lookup
import MicroSsa.Proofs.Listing.Reading
import MicroSsa.Proofs.Listing.Sections
import MicroSsa.Proofs.Listing.Acceptance
import MicroSsa.Proofs.Graph.Chains
import MicroSsa.Proofs.Ssa.Stacks
import MicroSsa.Proofs.Ssa.Traversal
import MicroSsa.Proofs.Ssa.Form
import MicroSsa.Proofs.Function.DefWalks
import MicroSsa.Proofs.Function.UnlinkedReads
