import TotalVariation.Problem.Splitting

/-! # Evaluating at a point

The objective of a problem and the metric of its splitting at a point, for arguments whose lengths
are not known to fit. An end of an edge is an index into the point, and a negative one counts from
its end.
-/

namespace TotalVariation.ProblemData

variable {α : Type} [Scalar α]

/-- The positions of the ends of edges in a point. -/
def endsIn? (x : Vec α) (edges : Array (Int × Int)) : Except (Failure α) (Array (Nat × Nat)) :=
  edges.mapM fun e =>
    match position? x.size e.1, position? x.size e.2 with
    | some u, some v => pure (u, v)
    | _, _ => throw .indexRange

/-- The products of two arguments of which one may be repeated, and their sum. -/
def weightedSum? (weights values : Vec α) : Except (Failure α) α :=
  match commonLength? weights.size values.size with
  | some n =>
    let w := stretch n weights
    let a := stretch n values
    pure (Vec.total n fun i => Vec.entry w i * Vec.entry a i)
  | none => throw .lengths

/-- The variation of a point across the edges. -/
def variationAt? (d : ProblemData α) (x : Vec α) : Except (Failure α) α := do
  let ends ← endsIn? x d.edges
  weightedSum? d.edgeWeights.entries
    (ends.map fun e => Scalar.abs (Vec.entry x e.1 - Vec.entry x e.2))

/-- The weighted distance of a point to the targets. -/
def targetDistanceAt? (d : ProblemData α) (x : Vec α) : Except (Failure α) α :=
  match weights? d.targetWeights with
  | none => pure 0
  | some w => do
    let targets := (d.targets.map (·.entries)).getD (Vec.constant x.size 0)
    match commonLength? x.size targets.size with
    | some n =>
      let a := stretch n x
      let t := stretch n targets
      let weights := if w.rank = 0 then stretch x.size w.entries else w.entries
      weightedSum? weights
        (Vec.tabulate n fun v => Scalar.abs (Vec.entry a v - Vec.entry t v))
    | none => throw .lengths

/-- The objective at a point, bounds left out. -/
def objectiveAt? (d : ProblemData α) (x : Vec α) : Except (Failure α) α := do
  let quadratic ← d.quadratic.valueAt? x
  let variation ← d.variationAt? x
  let distance ← d.targetDistanceAt? x
  pure (quadratic + variation + distance)

/-- The metric of the splitting: that of the quadratic term alone, or with the curvature of the
variation at a point. -/
def metric? (q : Quadratic α) (conditioning tolerance : α) (x : Option (Vec α))
    (edges : Option (Array (Int × Int))) (weights : Option (Tensor α)) :
    Except (Failure α) (Vec α) :=
  match x, edges with
  | some x, some edges =>
    if edges.isEmpty then pure (Splitting.plainMetric conditioning q)
    else do
      let ends ← endsIn? x edges
      let some weights := weights | throw .unset
      let some n := commonLength? edges.size weights.entries.size | throw .lengths
      if n ≠ edges.size then throw .lengths
      if edges.any fun e => e.1 < 0 ∨ e.2 < 0 ∨ q.size ≤ e.1 ∨ q.size ≤ e.2 then throw .lengths
      pure (Splitting.metricAt conditioning tolerance q ends (stretch n weights.entries) x)
  | _, _ => pure (Splitting.plainMetric conditioning q)

end TotalVariation.ProblemData
