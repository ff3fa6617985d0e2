import TotalVariation.Decimal.Text

/-! # Failures

The causes for which an operation refuses its arguments or cannot go on, and the one place that
words them. Causes of wrong use that carry no explanation (an index outside an array, a value that
was never set) have no text.
-/

namespace TotalVariation

/-- Why an operation failed. -/
inductive Failure (α : Type) where
  -- graphs
  /-- The graph has no vertex. -/
  | noVertex
  /-- The index of the edges does not run from zero to their number. -/
  | edgeIndexRange (edges : Nat) (first last : Int)
  /-- An edge ends outside the graph. -/
  | adjacentRange (vertices : Nat)
  /-- An edge of a list starts or ends outside the graph. -/
  | endpointRange (vertices : Int)
  /-- There are not as many sources as targets. -/
  | endpointCounts (sources targets : Nat)
  /-- The number of edge weights is not the number of edges. -/
  | edgeWeightShape (edges given : Nat)
  | negativeEdgeWeights
  /-- The common edge weight is negative. -/
  | negativeEdgeWeight (weight : α)
  -- arguments per vertex
  /-- The number of values is not the number of vertices. -/
  | vertexShape (name : String) (vertices : Int) (given : Nat)
  /-- The common weight of the targets is negative. -/
  | negativeTargetWeight (weight : α)
  | negativeTargetWeights
  /-- The common bounds exclude every value. -/
  | crossedCommonBounds (lower upper : α)
  /-- The bounds of some vertex exclude every value. -/
  | crossedBounds
  -- parameters
  /-- The stopping tolerance is negative. -/
  | negativeTolerance (tolerance : α)
  | negativeMergeTolerance (tolerance : α)
  /-- The relaxation parameter is not between zero and two. -/
  | relaxationRange (relaxation : α)
  /-- The least conditioning is not positive, or above one. -/
  | conditioningRange (conditioning : α)
  /-- No backend has this name. -/
  | unknownBackend (name : String)
  -- quadratic terms
  /-- No representation has this name. -/
  | unknownRepresentation (name : String)
  /-- Neither a matrix nor an observation tells the number of vertices. -/
  | unknownSize
  /-- The representation is built from a matrix, and there is none. -/
  | matrixNeeded (representation : String)
  /-- The matrix of products is not square. -/
  | gramNotSquare (shape : List Nat)
  | designNotMatrix (shape : List Nat)
  /-- The number of observations is not the number of rows. -/
  | observationShape (rows given : Nat)
  /-- The number of premultiplied observations is not the number of variables. -/
  | premultipliedShape (unknowns given : Nat)
  /-- The quadratic term is over another number of variables. -/
  | variableCount (unknowns : Nat) (expected : Int)
  -- medians and solvers
  /-- The median of nothing was asked. -/
  | emptyMedian
  /-- The reference solver found no solution. -/
  | unsolved (status : String)
  /-- The operation is left to a choice that was not made. -/
  | unspecified
  -- wrong use without an explanation
  /-- Lengths that do not fit together. -/
  | lengths
  /-- A value that an operation does not take: a negative count, a quantity that is no number, a
  choice among nothing. -/
  | invalidValue
  /-- An index outside its array. -/
  | indexRange
  /-- A name that nothing answers to. -/
  | unknownName
  /-- A value that was never set is needed. -/
  | unset
  /-- An operation was asked of a value that does not have it. -/
  | unsupported
  | divisionByZero
  /-- A flow that can grow without end. -/
  | unboundedFlow
  /-- A graph with a negative number of nodes. -/
  | negativeNodeCount
  /-- Connectivity of a graph without nodes. -/
  | connectivityOfNothing
  deriving Repr, DecidableEq

namespace Failure

/-- A shape in messages: the lengths in parentheses, a comma after a single one. -/
def shapeText : List Nat → String
  | [] => "()"
  | [n] => "(" ++ toString n ++ ",)"
  | n :: ns => "(" ++ ns.foldl (fun s m => s ++ ", " ++ toString m) (toString n) ++ ")"

/-- The explanation of a failure, where there is one. -/
def message? : Failure Float → Option String
  | noVertex => some "A graph needs at least one vertex."
  | edgeIndexRange edges first last =>
    some s!"Forward-star index must run from 0 to {edges}, got {first} to {last}."
  | adjacentRange vertices => some s!"Adjacent vertices must lie in [0, {vertices})."
  | endpointRange vertices => some s!"Edge endpoints must lie in [0, {vertices})."
  | endpointCounts sources targets =>
    some s!"Source and target lists differ in length ({sources} != {targets})."
  | edgeWeightShape edges given =>
    some s!"Expected edge weights with shape ({edges},), got ({given},)."
  | negativeEdgeWeights => some "Edge weights must be nonnegative."
  | negativeEdgeWeight weight =>
    some s!"Negative homogeneous edge weight ({Decimal.shortestText weight})."
  | vertexShape name vertices given =>
    some ("Expected '" ++ name ++ s!"' with shape ({vertices},), got ({given},).")
  | negativeTargetWeight weight =>
    some s!"Negative homogeneous l1 weight ({Decimal.shortestText weight})."
  | negativeTargetWeights => some "l1 weights must be nonnegative."
  | crossedCommonBounds lower upper =>
    some ("Homogeneous lower bound (" ++ Decimal.shortestText lower ++
      ") greater than upper bound (" ++ Decimal.shortestText upper ++ ").")
  | crossedBounds => some "Lower bounds greater than upper bounds at some vertices."
  | negativeTolerance tolerance =>
    some s!"Negative cut-pursuit tolerance ({Decimal.shortestText tolerance})."
  | negativeMergeTolerance tolerance =>
    some s!"Negative merge tolerance ({Decimal.shortestText tolerance})."
  | relaxationRange relaxation =>
    some s!"Relaxation parameter must lie in (0, 2), got {Decimal.shortestText relaxation}."
  | conditioningRange conditioning =>
    some s!"Minimum conditioning must lie in (0, 1], got {Decimal.shortestText conditioning}."
  | unknownBackend name =>
    some ("Unknown backend '" ++ name ++ "', expected one of ['pfdr', 'cvxpy'].")
  | unknownRepresentation name =>
    some ("Unknown quadratic representation '" ++ name ++
      "', expected one of ('none', 'identity', 'diagonal', 'gram', 'direct').")
  | unknownSize => some "Number of vertices needed without A nor Y."
  | matrixNeeded representation =>
    some ("Representation '" ++ representation ++ "' needs a matrix A.")
  | gramNotSquare shape => some s!"Gram matrix must be square, got shape {shapeText shape}."
  | designNotMatrix shape => some s!"Design matrix must be 2-D, got shape {shapeText shape}."
  | observationShape rows given =>
    some s!"Expected observation with shape ({rows},), got ({given},)."
  | premultipliedShape unknowns given =>
    some s!"Expected premultiplied observation with shape ({unknowns},), got ({given},)."
  | variableCount unknowns expected =>
    some s!"Quadratic term has {unknowns} variables, expected {expected}."
  | emptyMedian => some "Median of an empty set is undefined."
  | unsolved status => some s!"CVXPY could not solve the problem (status {status})."
  | unspecified => some ""
  | lengths | invalidValue | indexRange | unknownName | unset | unsupported | divisionByZero
  | unboundedFlow | negativeNodeCount | connectivityOfNothing => none

end Failure
end TotalVariation
