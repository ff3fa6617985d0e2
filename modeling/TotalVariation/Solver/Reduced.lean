import TotalVariation.Median
import TotalVariation.Solver.State

/-! # The problem over the regions

For values that are constant on the regions the problem on the graph becomes a problem with one
variable for each region: the quadratic term is reduced, the weights of edges and targets add up,
the targets of a region are replaced by their weighted median, and the tightest bounds count. With
one region the solution is known in closed form.
-/

namespace TotalVariation.Solver

variable {α : Type} [Scalar α]

/-- Change the partition of the solver. -/
def modifyPartition (f : Partition α → Partition α) : Step α Unit :=
  modify fun s => { s with partition := f s.partition }

/-- A quotient whose divisor must not be zero. -/
def quotient? (a b : α) : Except (Failure α) α :=
  if Scalar.same b 0 then throw .divisionByZero else pure (a / b)

/-- The minimiser of `½ a t² - y t + w |t - m|`, where it is not excluded that `a` is zero. -/
def thresholded? (y a w m : α) : Except (Failure α) α :=
  if a * m < y - w then quotient? (y - w) a
  else if y + w < a * m then quotient? (y + w) a
  else pure m

/-- The value brought between two bounds, of which the upper one is decisive. -/
def clamp (low upp : Bound α) (t : α) : α :=
  let raised := match low with
    | some l => if t < l then l else t
    | none => t
  match upp with
  | some u => if u < raised then u else raised
  | none => raised

/-- The largest lower bound of all vertices. -/
def largestLower (s : Solver α) : Bound α :=
  match s.lower.each with
  | some values => values.foldl Bound.maxLower none
  | none => s.lower.common

/-- The smallest upper bound of all vertices. -/
def smallestUpper (s : Solver α) : Bound α :=
  match s.upper.each with
  | some values => values.foldl Bound.minUpper none
  | none => s.upper.common

/-- The total weight of the targets, if there are any. -/
def totalTargetWeight? (s : Solver α) : Option α :=
  match s.targetWeights.each with
  | some w => some (Vec.sum w)
  | none =>
    if Scalar.same s.targetWeights.common 0 then none
    else some (Nat.cast s.vertexCount * s.targetWeights.common)

/-- The median of the targets over a region; the vertices of the region are left sorted by target.
A region known to be sorted needs no selection. -/
def regionMedian (s : Solver α) (targets : Vec α) (r : Nat) : α × List Nat :=
  let vertices := s.partition.region r
  if s.partition.isSaturated r && s.partition.isMedianCached r then
    (Median.ofSorted targets s.targetWeights.each vertices, vertices)
  else Median.select targets s.targetWeights.each vertices

/-- The best constant over the whole graph: the quadratic term is thresholded around the median of
the targets, and the result is brought between the tightest bounds. The residual follows. -/
def constantSolution : Step α α := do
  let s ← get
  let (y, a, column) := s.quadratic.constantPart
  let weight := s.totalTargetWeight?.getD 0
  let mut median : α := 0
  if s.totalTargetWeight?.isSome then
    if let some targets := s.targets then
      let (m, order) := Median.select targets s.targetWeights.each (s.partition.region 0)
      median := m
      modifyPartition fun P =>
        { P.setRegion 0 order with
          medianCached := P.medianCached.setIfInBounds 0 true
          saturated := P.saturated.setIfInBounds 0 false }
  let t ← thresholded? y a weight median
  let u := clamp s.largestLower s.smallestUpper t
  if let .direct A observation := s.quadratic then
    let residual := Vec.tabulate A.rows fun i =>
      Vec.entry observation i - Vec.entry (column.getD #[]) i * u
    modify fun s => { s with residual := some residual }
  pure u

/-- The weights of the targets of the regions, if there are any. -/
def regionWeights? (s : Solver α) : Option (Vec α) :=
  match s.targetWeights.each with
  | some w => some (s.partition.regionSums w)
  | none =>
    if Scalar.same s.targetWeights.common 0 then none
    else some (s.partition.sizeVec.map (s.targetWeights.common * ·))

/-- The weights and the targets of the regions, as far as there are any. The medians leave all
regions sorted by target, and marked so. -/
def regionTargets : Step α (Option (Vec α) × Option (Vec α)) := do
  let s ← get
  match s.regionWeights?, s.targets with
  | none, _ => pure (none, none)
  | some weights, none => pure (some weights, none)
  | some weights, some targets =>
    let medians := (List.range s.partition.regionCount).map (s.regionMedian targets)
    modifyPartition fun P =>
      { P with
        regions := medians.map (·.2)
        medianCached := Array.replicate P.regionCount true }
    pure (some weights, some (medians.map (·.1)).toArray)

/-- The earlier iterate on the present regions, if one was kept. -/
def warmStart? (s : Solver α) : Except (Failure α) (Option (Vec α)) :=
  match s.lastX, s.partition.lastAssignment with
  | some x, some assignment =>
    let regionBefore (r : Nat) : Nat := assignment.getD (s.partition.representative r) 0
    if (List.range s.partition.regionCount).any fun r => x.size ≤ regionBefore r then
      throw .indexRange
    else
      pure (some (Vec.tabulate s.partition.regionCount fun r => Vec.entry x (regionBefore r)))
  | _, _ => pure none

/-- A whole number as a number. -/
def ofInt (i : Int) : α := if i < 0 then -Nat.cast i.natAbs else Nat.cast i.natAbs

/-- Whether a direct term with `rows` observations over `regions` regions is cheaper to solve when
it is premultiplied, at the given number of iterations. Plain, an iteration takes two products with
the design, `2 · rows · regions` operations; premultiplied, `regions²`, after `rows · regions²`
operations for the matrix of products. -/
def paysPremultiplied? (rows regions iterations : Int) : Except (Failure α) Bool :=
  if rows + iterations = 0 then throw .divisionByZero
  else
    let limit : α := Scalar.two * ofInt rows * ofInt iterations / ofInt (rows + iterations)
    pure (decide (ofInt regions < limit))

def regionLower (s : Solver α) : Array (Bound α) :=
  match s.lower.each with
  | some values => s.partition.regionFold Bound.maxLower fun v => values.getD v none
  | none => Array.replicate s.partition.regionCount s.lower.common

def regionUpper (s : Solver α) : Array (Bound α) :=
  match s.upper.each with
  | some values => s.partition.regionFold Bound.minUpper fun v => values.getD v none
  | none => Array.replicate s.partition.regionCount s.upper.common

/-- The problem over the regions, for a reduced quadratic term and reduced targets. -/
def regionProblem (s : Solver α) (quadratic : Quadratic α) (weights targets : Option (Vec α)) :
    Problem α where
  quadratic := quadratic
  edges := s.partition.reducedEdges
  edgeWeights := s.partition.reducedWeights
  targetWeights := weights
  targets := targets.getD (Vec.constant s.partition.regionCount 0)
  lower := s.regionLower
  upper := s.regionUpper

/-- A method for the problem over the regions: parameters, stopping tolerance, problem and initial
values to the solution and the number of iterations. -/
abbrev InnerMethod (α : Type) :=
  InnerParameters α → α → Problem α → Option (Vec α) → Except (Failure α) (Vec α × Nat)

/-- The tolerance of the problem over the regions: a thousandth of that of the refinement unless it
is given. -/
def innerTolerance (s : Solver α) : α :=
  s.inner.tolerance.getD (Scalar.ratio 1 1000 * s.tolerance)

/-- Solve the problem over the regions by the given method. The residual follows. -/
def reducedSolution (solve : InnerMethod α) : Step α Unit := do
  let s ← get
  let premultiply ← match s.quadratic with
    | .direct A _ => paysPremultiplied? (α := α) A.rows s.partition.regionCount s.innerIterations
    | _ => pure true
  let (reduced, design) ← s.quadratic.reduce? s.partition premultiply
  let (weights, targets) ← regionTargets
  let s ← get
  let init ← s.warmStart?
  let (x, iterations) ←
    solve s.inner s.innerTolerance (s.regionProblem reduced weights targets) init
  modify fun s => { s with x := some x, innerIterations := iterations }
  match s.quadratic, design with
  | .direct _ observation, some rA =>
    modify fun s => { s with residual := some (Quadratic.residualOf rA observation x) }
  | _, _ => pure ()

end TotalVariation.Solver
