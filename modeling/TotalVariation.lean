import TotalVariation.Decimal.Binary
import TotalVariation.Decimal.Shortest
import TotalVariation.Decimal.Text
import TotalVariation.Failure
import TotalVariation.Figure
import TotalVariation.Flow.Cut
import TotalVariation.Flow.Network
import TotalVariation.Graph.Components
import TotalVariation.Graph.Families
import TotalVariation.Graph.ForwardStar
import TotalVariation.Graph.Labelled
import TotalVariation.Graph.Signal
import TotalVariation.Median
import TotalVariation.Numeric.DenseMatrix
import TotalVariation.Numeric.Elimination
import TotalVariation.Numeric.Scalar
import TotalVariation.Numeric.Tensor
import TotalVariation.Numeric.Vec
import TotalVariation.Partition.Basic
import TotalVariation.Partition.Rebuild
import TotalVariation.Partition.Values
import TotalVariation.Problem.Basic
import TotalVariation.Problem.Evaluate
import TotalVariation.Problem.InteriorPoint
import TotalVariation.Problem.Proximal
import TotalVariation.Problem.Splitting
import TotalVariation.Proofs.Failure
import TotalVariation.Proofs.Flow.Building
import TotalVariation.Proofs.Flow.Completion
import TotalVariation.Proofs.Flow.Cut
import TotalVariation.Proofs.Flow.Distances
import TotalVariation.Proofs.Flow.Instructions
import TotalVariation.Proofs.Flow.Maximal
import TotalVariation.Proofs.Flow.Sending
import TotalVariation.Proofs.Graph.Components
import TotalVariation.Proofs.Graph.EdgeList
import TotalVariation.Proofs.Graph.ForwardStar
import TotalVariation.Proofs.Graph.Labelled
import TotalVariation.Proofs.Median
import TotalVariation.Proofs.MedianDeviation
import TotalVariation.Proofs.MedianOrder
import TotalVariation.Proofs.MedianSegment
import TotalVariation.Proofs.Minimise
import TotalVariation.Proofs.Numeric.Division
import TotalVariation.Proofs.Numeric.Exact
import TotalVariation.Proofs.Numeric.Extended
import TotalVariation.Proofs.Numeric.Finite
import TotalVariation.Proofs.Numeric.Renaming
import TotalVariation.Proofs.Partition.Arena
import TotalVariation.Proofs.Partition.CarriedMarks
import TotalVariation.Proofs.Partition.Coherent
import TotalVariation.Proofs.Partition.Consistent
import TotalVariation.Proofs.Partition.Cuts
import TotalVariation.Proofs.Partition.EdgesFrom
import TotalVariation.Proofs.Partition.Finer
import TotalVariation.Proofs.Partition.Merge
import TotalVariation.Proofs.Partition.MergedRegions
import TotalVariation.Proofs.Partition.Rebuild
import TotalVariation.Proofs.Partition.Reduced
import TotalVariation.Proofs.Partition.RefusedMergers
import TotalVariation.Proofs.Partition.RenamedGraph
import TotalVariation.Proofs.Partition.RenamedMerge
import TotalVariation.Proofs.Partition.RenamedReduced
import TotalVariation.Proofs.Partition.Renaming
import TotalVariation.Proofs.Problem.Decoupled
import TotalVariation.Proofs.Problem.FiniteSplitting
import TotalVariation.Proofs.Problem.FixedPoint
import TotalVariation.Proofs.Problem.Metric
import TotalVariation.Proofs.Problem.Proximal
import TotalVariation.Proofs.Problem.Renaming
import TotalVariation.Proofs.Problem.Slope
import TotalVariation.Proofs.Problem.Splitting
import TotalVariation.Proofs.Problem.Spreading
import TotalVariation.Proofs.Problem.Stopping
import TotalVariation.Proofs.Problem.Subgradient
import TotalVariation.Proofs.Problem.Threshold
import TotalVariation.Proofs.Quadratic.Accepted
import TotalVariation.Proofs.Quadratic.Expansion
import TotalVariation.Proofs.Quadratic.Majorant
import TotalVariation.Proofs.Quadratic.Premultiplied
import TotalVariation.Proofs.Quadratic.ReducedGradient
import TotalVariation.Proofs.Quadratic.Region
import TotalVariation.Proofs.Quadratic.RenamedData
import TotalVariation.Proofs.Quadratic.Renaming
import TotalVariation.Proofs.Quadratic.Restriction
import TotalVariation.Proofs.Quadratic.Value
import TotalVariation.Proofs.Relabelled
import TotalVariation.Proofs.Solver.Answers
import TotalVariation.Proofs.Solver.BestConstant
import TotalVariation.Proofs.Solver.Calls
import TotalVariation.Proofs.Solver.Coherent
import TotalVariation.Proofs.Solver.Configure
import TotalVariation.Proofs.Solver.CutEdges
import TotalVariation.Proofs.Solver.Descent
import TotalVariation.Proofs.Solver.Ending
import TotalVariation.Proofs.Solver.Evolution
import TotalVariation.Proofs.Solver.Feasible
import TotalVariation.Proofs.Solver.FirstOrder
import TotalVariation.Proofs.Solver.Forgetting
import TotalVariation.Proofs.Solver.History
import TotalVariation.Proofs.Solver.JointCut
import TotalVariation.Proofs.Solver.Lockstep
import TotalVariation.Proofs.Solver.MedianCache
import TotalVariation.Proofs.Solver.Merged
import TotalVariation.Proofs.Solver.MergedNeighbours
import TotalVariation.Proofs.Solver.Minimal
import TotalVariation.Proofs.Solver.Objective
import TotalVariation.Proofs.Solver.OneCut
import TotalVariation.Proofs.Solver.PlainRuns
import TotalVariation.Proofs.Solver.Recorded
import TotalVariation.Proofs.Solver.Refine
import TotalVariation.Proofs.Solver.RegionCuts
import TotalVariation.Proofs.Solver.RegionGraph
import TotalVariation.Proofs.Solver.RelabelledSettings
import TotalVariation.Proofs.Solver.RenamedCuts
import TotalVariation.Proofs.Solver.RenamedRounds
import TotalVariation.Proofs.Solver.Representation
import TotalVariation.Proofs.Solver.Residual
import TotalVariation.Proofs.Solver.Restriction
import TotalVariation.Proofs.Solver.Resumed
import TotalVariation.Proofs.Solver.Rounds
import TotalVariation.Proofs.Solver.Settings
import TotalVariation.Proofs.Solver.Slope
import TotalVariation.Proofs.Solver.Split
import TotalVariation.Proofs.Solver.SplitMarks
import TotalVariation.Proofs.Solver.SpreadWeights
import TotalVariation.Proofs.Solver.StaleMarks
import TotalVariation.Proofs.Solver.StaleMedians
import TotalVariation.Proofs.Solver.StaleWeights
import TotalVariation.Proofs.Solver.Steps
import TotalVariation.Proofs.Solver.Validity
import TotalVariation.Proofs.Solver.WarmStart
import TotalVariation.Proofs.Solver.WithinBounds
import TotalVariation.Quadratic.Basic
import TotalVariation.Quadratic.Build
import TotalVariation.Quadratic.Reduction
import TotalVariation.Report
import TotalVariation.Solver.Configure
import TotalVariation.Solver.Minimise
import TotalVariation.Solver.Reduced
import TotalVariation.Solver.Run
import TotalVariation.Solver.Split
import TotalVariation.Solver.State
import TotalVariation.Workload
