import TotalVariation.Graph.Labelled
import TotalVariation.Problem.InteriorPoint
import TotalVariation.Solver.Configure
import TotalVariation.Solver.Run

/-! # Minimisation by refinement

The whole computation at once: a solver is configured with a problem and run from the beginning.
Arguments per vertex or per edge may be single numbers that stand for all of them. On a labelled
graph the weights of the edges are an attribute, and the solution has one value for each node.
-/

namespace TotalVariation

namespace Solver

variable {α : Type} [Scalar α]

/-- The parameters of the splitting iteration for the problem over the regions. -/
def splittingParameters (k : InnerParameters α) (tolerance : α) : Splitting.Parameters α where
  relaxation := k.relaxation
  conditioning := k.conditioning
  reconditioning := k.reconditioning
  tolerance := tolerance
  maxIterations := k.maxIterations.toNat
  verbose := false

/-- The method that the parameters name. -/
def innerMethod : InnerMethod α := fun k tolerance p init =>
  match k.backend with
  | .splitting => do
    let answer ← Splitting.solve? p (splittingParameters k tolerance) init
    pure (answer.x, answer.iterations)
  | .reference => do
    let x ← InteriorPoint.solve? p init
    pure (x, 0)

/-- The steps of a solver with the method that its parameters name. -/
def standardSteps : Steps α := steps innerMethod

end Solver

/-- An argument for all vertices or edges: one number, or a number for each. -/
abbrev Spread (α : Type) := Tensor α

/-- Everything that a minimisation is asked for. -/
structure Request (α : Type) where
  observation : Option (Tensor α)
  edgeWeights : Option (Spread α)
  /-- The matrix of the quadratic term. -/
  matrix : Option (Tensor α)
  targetWeights : Option (Spread α)
  targets : Option (Tensor α)
  /-- The lower bounds. -/
  lower : Option (Spread α)
  /-- The upper bounds. -/
  upper : Option (Spread α)
  /-- The bound that a missing lower bound stands for: minus infinity. -/
  noLower : α
  /-- The bound that a missing upper bound stands for: infinity. -/
  noUpper : α
  /-- The representation of the quadratic term, if it is named. -/
  representation : Option String
  /-- The stopping tolerance of the refinement. -/
  tolerance : α
  /-- The largest number of rounds. -/
  maxRounds : Int
  /-- The relaxation of the problem over the regions. -/
  relaxation : α
  /-- Its least relative curvature. -/
  conditioning : α
  /-- Its threshold for a new metric. -/
  reconditioning : α
  /-- Its stopping tolerance. -/
  innerTolerance : Option α
  /-- Its largest number of iterations. -/
  innerIterations : Int
  /-- The name of its method. -/
  backend : String
  /-- The relative difference up to which values count as equal. -/
  mergeTolerance : α
  /-- Whether to report. -/
  verbose : Bool
  recording : Solver.Recording

namespace Request

variable {α : Type} [Scalar α]

/-- An argument split into numbers for each place and a common number. -/
def split? (argument : Option (Spread α)) (common : α) :
    Except (Failure α) (Option (Tensor α) × α) :=
  match argument with
  | none => throw .unset
  | some t => match t.scalar? with
    | some a => pure (none, a)
    | none => pure (some t, common)

/-- The configured solver, and what to tell about the arguments. -/
def configure? (q : Request α) (first adjacent : Array Int) :
    List (Event α) × Except (Failure α) (Solver α) :=
  let prepared : Except (Failure α) (Solver α) := do
    let (each, common) ← split? q.edgeWeights 0
    let P ← Partition.ofIndex? first adjacent (each.map (·.entries)) common
    (Solver.ofPartition P).setRefinement? q.tolerance q.maxRounds q.verbose q.mergeTolerance
  match prepared with
  | .error e => ([], .error e)
  | .ok s =>
    let (events, outcome) := s.setQuadratic q.observation q.matrix 1 q.representation
    (events, do
      let s ← outcome
      let (weights, commonWeight) ← split? q.targetWeights 0
      let s ← s.setTargets? weights commonWeight q.targets
      let (lower, commonLower) ← split? q.lower q.noLower
      let (upper, commonUpper) ← split? q.upper q.noUpper
      let s ← s.setBounds? lower commonLower upper commonUpper
      s.setInner? q.relaxation q.conditioning q.reconditioning q.innerIterations q.innerTolerance
        q.backend)

/-- The result of a minimisation. -/
structure Answer (α : Type) where
  /-- The region of each vertex. -/
  assignment : Array Nat
  /-- The value of each region. -/
  x : Vec α
  rounds : Nat
  /-- The objectives, evolutions and number of times recorded. -/
  history : History α

/-- Minimise by the given method: warnings and log, and the result. -/
def minimiseBy (solve : Solver.InnerMethod α) (q : Request α) (first adjacent : Array Int) :
    List (Event α) × Except (Failure α) (Answer α) :=
  match q.configure? first adjacent with
  | (events, .error e) => (events, .error e)
  | (events, .ok s) =>
    let (outcome, s) := (Solver.run (Solver.steps solve) true q.recording).run s
    (events ++ s.history.events, outcome.map fun rounds =>
      ⟨s.partition.assignment, s.x.getD #[], rounds, s.history⟩)

/-- Minimise on the graph with the given index of edges and ends of edges. -/
def minimise (q : Request α) (first adjacent : Array Int) :
    List (Event α) × Except (Failure α) (Answer α) :=
  minimiseBy Solver.innerMethod q first adjacent

/-- Minimise on a labelled graph. The weights of the edges are those of the given attribute, one if
it is missing, unless the request has weights. -/
def minimiseOn {ν : Type} [DecidableEq ν] (q : Request α) (ownWeights : Bool)
    (G : LabelledGraph ν α) (name : Option String) :
    List (Event α) × Except (Failure α) (List (ν × α) × Answer α) :=
  let (star, weights) := G.toForwardStar name 1
  let q := if ownWeights then q else { q with edgeWeights := some (.ofArray weights) }
  let (events, outcome) :=
    q.minimise (star.first.map Int.ofNat) (star.head.map Int.ofNat)
  (events, outcome.map fun a =>
    (G.nodes.mapIdx fun i v => (v, Vec.entry a.x (a.assignment.getD i 0)), a))

end Request
end TotalVariation
