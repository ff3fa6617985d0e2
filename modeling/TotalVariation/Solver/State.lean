import TotalVariation.Problem.Splitting
import TotalVariation.Quadratic.Build
import TotalVariation.Quadratic.Reduction

/-! # Solvers

A solver holds a partition of the vertices of a graph, the terms of the problem on that graph, the
parameters of the refinement, and the iterate, one value for each region. A step of the solver
changes it and answers or fails; what a failing step changed before it failed stays changed.
-/

namespace TotalVariation

/-- The methods that solve a problem over the regions. -/
inductive Backend where
  /-- Preconditioned splitting. -/
  | splitting
  /-- The reference method. -/
  | reference
  deriving Repr, DecidableEq

namespace Backend

/-- The name of a method. -/
def name : Backend → String
  | splitting => "pfdr"
  | reference => "cvxpy"

/-- The method of a given name. -/
def ofName? : String → Option Backend
  | "pfdr" => some splitting
  | "cvxpy" => some reference
  | _ => none

end Backend

/-- The parameters of the solution of the problem over the regions. -/
structure InnerParameters (α : Type) where
  /-- The relaxation, between zero and two. -/
  relaxation : α
  /-- The least curvature that counts, relative to the largest. -/
  conditioning : α
  /-- The evolution below which the metric is computed anew. -/
  reconditioning : α
  /-- The largest number of iterations. -/
  maxIterations : Int
  /-- The stopping tolerance, if it is not tied to that of the refinement. -/
  tolerance : Option α
  /-- The method. -/
  backend : Backend

/-- What a run records: the objectives and evolutions of its rounds, the number of times taken, and
what it tells. -/
structure History (α : Type) where
  /-- The objectives, that of the start included. -/
  objectives : List α
  evolutions : List α
  /-- The number of times taken. -/
  times : Nat
  /-- Warnings and lines of the log. -/
  events : List (Event α)

/-- The record of nothing. -/
def History.empty {α : Type} : History α := ⟨[], [], 0, []⟩

/-- A problem on a graph, the parameters of its solution, and the state of the solution. -/
structure Solver (α : Type) where
  /-- The partition of the vertices. -/
  partition : Partition α
  /-- The quadratic term. -/
  quadratic : Quadratic α
  /-- The residual of a direct quadratic term at the iterate. -/
  residual : Option (Vec α)
  targetWeights : Weighting α
  /-- The targets; zero if there are none. -/
  targets : Option (Vec α)
  lower : Weighting (Bound α)
  upper : Weighting (Bound α)
  /-- The evolution at which the iterate has settled. -/
  tolerance : α
  /-- The largest number of rounds. -/
  maxRounds : Int
  /-- Whether to report the rounds. -/
  verbose : Bool
  /-- The relative difference up to which two values count as equal. -/
  mergeTolerance : α
  /-- The parameters of the problem over the regions. -/
  inner : InnerParameters α
  /-- The number of iterations of the last solution over the regions, at first the most allowed. -/
  innerIterations : Int
  /-- The value of each region. -/
  x : Option (Vec α)
  /-- The values of the regions of the kept assignment. -/
  lastX : Option (Vec α)
  /-- Whether a settled iterate ends a run. -/
  monitorsEvolution : Bool
  /-- The record of the present run. -/
  history : History α

/-- A step of a solver: it changes the solver, and answers or fails. -/
abbrev Step (α β : Type) := ExceptT (Failure α) (StateM (Solver α)) β

namespace Solver

variable {α : Type} [Scalar α]

/-- The parameters of the problem over the regions that are in force at first. -/
def defaultInner : InnerParameters α where
  relaxation := 1
  conditioning := Scalar.ratio 1 1000
  reconditioning := 0
  maxIterations := 10000
  tolerance := none
  backend := .splitting

/-- The solver of a graph, before any term of the problem is given. -/
def ofPartition (P : Partition α) : Solver α where
  partition := P
  quadratic := .none P.vertexCount
  residual := none
  targetWeights := ⟨none, 0⟩
  targets := none
  lower := ⟨none, none⟩
  upper := ⟨none, none⟩
  tolerance := Scalar.ratio 1 10000
  maxRounds := 10
  verbose := false
  mergeTolerance := 0
  inner := defaultInner
  innerIterations := 10000
  x := none
  lastX := none
  monitorsEvolution := true
  history := .empty

def vertexCount (s : Solver α) : Nat := s.partition.vertexCount

/-- The weight of the target of each vertex, if there are targets. -/
def targetWeight? (s : Solver α) : Option (Nat → α) :=
  match s.targetWeights.each with
  | some w => some (Vec.entry w)
  | none => if 0 < s.targetWeights.common then some fun _ => s.targetWeights.common else none

/-- The target of a vertex. -/
def target (s : Solver α) (v : Nat) : α :=
  match s.targets with
  | some t => Vec.entry t v
  | none => 0

/-- The bounds of the vertices, if there are any. A common bound that is undefined is none. -/
def boundsOf? (b : Weighting (Bound α)) : Option (Nat → Bound α) :=
  match b.each with
  | some values => some fun v => values.getD v none
  | none => (b.common.filter Scalar.isDefined).map fun l _ => some l

/-- The problem on the vertices of the graph. -/
def problem (s : Solver α) : Problem α where
  quadratic := s.quadratic
  edges := Vec.tabulate s.partition.edgeCount fun e =>
    (s.partition.graph.tailOf e, s.partition.graph.headOf e)
  edgeWeights := s.partition.weights
  targetWeights := s.targetWeight?.map (Vec.tabulate s.vertexCount)
  targets := Vec.tabulate s.vertexCount s.target
  lower := Vec.tabulate s.vertexCount fun v => (boundsOf? s.lower).bind (· v)
  upper := Vec.tabulate s.vertexCount fun v => (boundsOf? s.upper).bind (· v)

end Solver
end TotalVariation
