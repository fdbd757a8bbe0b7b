import ObjectFlow.Binary64
import ObjectFlow.CallGraph.Basic
import ObjectFlow.CallGraph.Hierarchy
import ObjectFlow.Config.Analysis
import ObjectFlow.Config.Codec
import ObjectFlow.Config.Document
import ObjectFlow.Config.Error
import ObjectFlow.Config.Stage
import ObjectFlow.ControlFlow
import ObjectFlow.ControlFlow.Codec
import ObjectFlow.Dataflow.Constants
import ObjectFlow.Dataflow.DeadCode
import ObjectFlow.Dataflow.Facts
import ObjectFlow.Dataflow.HeapAccess
import ObjectFlow.Dataflow.InterConstants
import ObjectFlow.Dataflow.Interprocedural
import ObjectFlow.Dataflow.Liveness
import ObjectFlow.Dataflow.Supergraph
import ObjectFlow.Dataflow.Value
import ObjectFlow.Dataflow.Worklist
import ObjectFlow.Digit
import ObjectFlow.Handle
import ObjectFlow.Interner
import ObjectFlow.Iteration
import ObjectFlow.Json.Basic
import ObjectFlow.Json.Decoder
import ObjectFlow.Json.Parser
import ObjectFlow.Json.Printer
import ObjectFlow.Json.Token
import ObjectFlow.PointsTo.Codec
import ObjectFlow.PointsTo.Context
import ObjectFlow.PointsTo.FlowGraph
import ObjectFlow.PointsTo.Heap
import ObjectFlow.PointsTo.Pointer
import ObjectFlow.PointsTo.Result
import ObjectFlow.PointsTo.Solver
import ObjectFlow.Program.Basic
import ObjectFlow.Program.Builder
import ObjectFlow.Program.Codec
import ObjectFlow.Program.Defect
import ObjectFlow.Program.Edit
import ObjectFlow.Program.Index
import ObjectFlow.Program.Listing
import ObjectFlow.Program.Statement
import ObjectFlow.Proofs.CallGraph.Dispatch
import ObjectFlow.Proofs.CallGraph.Hierarchy
import ObjectFlow.Proofs.CallGraph.LeastGraph
import ObjectFlow.Proofs.CallGraph.Notes
import ObjectFlow.Proofs.CallGraph.Tables
import ObjectFlow.Proofs.CallGraph.Targets
import ObjectFlow.Proofs.Config.Overrides
import ObjectFlow.Proofs.ControlFlow
import ObjectFlow.Proofs.ControlTransfer
import ObjectFlow.Proofs.Dataflow.Consistency
import ObjectFlow.Proofs.Dataflow.ConstantPaths
import ObjectFlow.Proofs.Dataflow.Constants
import ObjectFlow.Proofs.Dataflow.Covering
import ObjectFlow.Proofs.Dataflow.DeadCode
import ObjectFlow.Proofs.Dataflow.Draining
import ObjectFlow.Proofs.Dataflow.Elimination
import ObjectFlow.Proofs.Dataflow.Equations
import ObjectFlow.Proofs.Dataflow.FactLattice
import ObjectFlow.Proofs.Dataflow.Folding
import ObjectFlow.Proofs.Dataflow.HeapAccess
import ObjectFlow.Proofs.Dataflow.HeapPairs
import ObjectFlow.Proofs.Dataflow.InterConstants
import ObjectFlow.Proofs.Dataflow.InterSoundness
import ObjectFlow.Proofs.Dataflow.Interprocedural
import ObjectFlow.Proofs.Dataflow.Keeping
import ObjectFlow.Proofs.Dataflow.LivePaths
import ObjectFlow.Proofs.Dataflow.Loads
import ObjectFlow.Proofs.Dataflow.MethodFacts
import ObjectFlow.Proofs.Dataflow.Monotone
import ObjectFlow.Proofs.Dataflow.Sharpening
import ObjectFlow.Proofs.Dataflow.Stitching
import ObjectFlow.Proofs.Dataflow.Supergraph
import ObjectFlow.Proofs.Dataflow.Termination
import ObjectFlow.Proofs.Dataflow.Tracking
import ObjectFlow.Proofs.Dataflow.Value
import ObjectFlow.Proofs.Dataflow.Worklist
import ObjectFlow.Proofs.Execution.Arithmetic
import ObjectFlow.Proofs.Execution.Machine
import ObjectFlow.Proofs.Execution.MethodRun
import ObjectFlow.Proofs.Execution.Numbers
import ObjectFlow.Proofs.Execution.Simulation
import ObjectFlow.Proofs.Interner
import ObjectFlow.Proofs.Iteration
import ObjectFlow.Proofs.Json.Decoder
import ObjectFlow.Proofs.Json.Printer
import ObjectFlow.Proofs.Json.Scalar
import ObjectFlow.Proofs.Outcome
import ObjectFlow.Proofs.PointsTo.Answers
import ObjectFlow.Proofs.PointsTo.Bounds
import ObjectFlow.Proofs.PointsTo.Change
import ObjectFlow.Proofs.PointsTo.Closure
import ObjectFlow.Proofs.PointsTo.Connection
import ObjectFlow.Proofs.PointsTo.ContextBounds
import ObjectFlow.Proofs.PointsTo.Coverage
import ObjectFlow.Proofs.PointsTo.Derivation
import ObjectFlow.Proofs.PointsTo.Growth
import ObjectFlow.Proofs.PointsTo.InTransit
import ObjectFlow.Proofs.PointsTo.Justification
import ObjectFlow.Proofs.PointsTo.LeastModel
import ObjectFlow.Proofs.PointsTo.Orderly
import ObjectFlow.Proofs.PointsTo.Perform
import ObjectFlow.Proofs.PointsTo.Precision
import ObjectFlow.Proofs.PointsTo.Propagate
import ObjectFlow.Proofs.PointsTo.Reading
import ObjectFlow.Proofs.PointsTo.Registry
import ObjectFlow.Proofs.PointsTo.Run
import ObjectFlow.Proofs.PointsTo.Selection
import ObjectFlow.Proofs.PointsTo.SetCodec
import ObjectFlow.Proofs.PointsTo.Soundness
import ObjectFlow.Proofs.PointsTo.Termination
import ObjectFlow.Proofs.PointsTo.Views
import ObjectFlow.Proofs.PointsTo.WithinHierarchy
import ObjectFlow.Proofs.Program.Ancestry
import ObjectFlow.Proofs.Program.Bodies
import ObjectFlow.Proofs.Program.Edits
import ObjectFlow.Proofs.Program.Index
import ObjectFlow.Proofs.Program.Items
import ObjectFlow.Proofs.Program.Locals
import ObjectFlow.Proofs.Program.RoundTrip
import ObjectFlow.Proofs.Program.Scan
import ObjectFlow.Proofs.Program.Size
import ObjectFlow.Proofs.Program.Subtypes
import ObjectFlow.Proofs.Program.Tables
import ObjectFlow.Proofs.Program.WellFormed
import ObjectFlow.Proofs.Program.Writing
import ObjectFlow.Proofs.Safety
import ObjectFlow.Proofs.SetSession
import ObjectFlow.Proofs.SortedSet
import ObjectFlow.Proofs.Table
import ObjectFlow.Queue
import ObjectFlow.Refusal
import ObjectFlow.Report.Flow
import ObjectFlow.Report.PointsTo
import ObjectFlow.Report.Program
import ObjectFlow.SortedSet
import ObjectFlow.Table
import ObjectFlow.Yaml.Basic
import ObjectFlow.Yaml.BlockScalar
import ObjectFlow.Yaml.Decoder
import ObjectFlow.Yaml.FlowScalar
import ObjectFlow.Yaml.Mark
import ObjectFlow.Yaml.Node
import ObjectFlow.Yaml.Parser
import ObjectFlow.Yaml.Scalar
import ObjectFlow.Yaml.Tag
import ObjectFlow.Yaml.Token
