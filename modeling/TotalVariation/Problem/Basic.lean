import TotalVariation.Problem.Proximal
import TotalVariation.Quadratic.Basic

/-! # Problems on graphs

The problem that the solvers minimise: a quadratic term, the variation of the values across the
edges of a graph, the distance of each value to a target, and bounds on the values. It is given on
the vertices of a graph, or on the regions of a partition.
-/

namespace TotalVariation

/-- A quadratic term, edges with weights, targets with weights, and bounds. -/
structure Problem (α : Type) where
  /-- The quadratic term; its size is the number of variables. -/
  quadratic : Quadratic α
  edges : Array (Nat × Nat)
  edgeWeights : Vec α
  /-- The weights of the targets, if there are targets. -/
  targetWeights : Option (Vec α)
  targets : Vec α
  lower : Array (Bound α)
  upper : Array (Bound α)

namespace Problem

variable {α : Type} [Scalar α]

/-- The number of variables. -/
def size (p : Problem α) : Nat := p.quadratic.size

/-- The first end of an edge. -/
@[inline] def edgeFrom (p : Problem α) (e : Nat) : Nat := (p.edges.getD e (0, 0)).1

/-- The second end of an edge. -/
@[inline] def edgeTo (p : Problem α) (e : Nat) : Nat := (p.edges.getD e (0, 0)).2

/-- The lower bound of a variable. -/
@[inline] def lowerAt (p : Problem α) (v : Nat) : Bound α := p.lower.getD v none

/-- The upper bound of a variable. -/
@[inline] def upperAt (p : Problem α) (v : Nat) : Bound α := p.upper.getD v none

/-- The weight of the target of a variable, if there are targets. -/
@[inline] def targetWeightAt (p : Problem α) (v : Nat) : Option α :=
  p.targetWeights.map (Vec.entry · v)

/-- The variation across the edges. -/
def variation (p : Problem α) (x : Vec α) : α :=
  Vec.total p.edges.size fun e =>
    Vec.entry p.edgeWeights e * Scalar.abs (Vec.entry x (p.edgeFrom e) - Vec.entry x (p.edgeTo e))

/-- The weighted distance to the targets. -/
def targetDistance (p : Problem α) (x : Vec α) : α :=
  match p.targetWeights with
  | none => 0
  | some w =>
    Vec.total x.size fun v => Vec.entry w v * Scalar.abs (Vec.entry x v - Vec.entry p.targets v)

/-- The objective, bounds left out. -/
def objective (p : Problem α) (x : Vec α) : α :=
  p.quadratic.valueAt x + p.variation x + p.targetDistance x

/-- Whether a vector respects the bounds. -/
def isFeasible (p : Problem α) (x : Vec α) : Bool :=
  (List.range p.size).all fun v =>
    (p.lowerAt v).all (fun l => decide (l ≤ Vec.entry x v)) &&
      (p.upperAt v).all (fun u => decide (Vec.entry x v ≤ u))

/-- Whether some variable has a target or an ordinary bound. -/
def isSeparable (p : Problem α) : Bool :=
  p.targetWeights.isSome || p.lower.any Bound.isFinite || p.upper.any Bound.isFinite

end Problem

/-- Arguments of a problem before their lengths are checked; a single number stands for all places,
a missing bound for none. -/
structure ProblemData (α : Type) where
  /-- The quadratic term. -/
  quadratic : Quadratic α
  /-- The edges as pairs of vertices. -/
  edges : Array (Int × Int)
  edgeWeights : Tensor α
  targetWeights : Option (Tensor α)
  targets : Option (Tensor α)
  /-- The lower bounds. -/
  lower : Option (Tensor α)
  /-- The upper bounds. -/
  upper : Option (Tensor α)

namespace ProblemData

variable {α : Type} [Scalar α]

/-- An argument spread over `n` places. -/
def spread? {β : Type} (n : Nat) (t : Tensor β) : Except (Failure α) (Array β) :=
  if t.entries.size = n ∨ t.entries.size = 1 then pure (stretch n t.entries) else throw .lengths

/-- The bounds of `n` variables. -/
def bounds? (n : Nat) (read : α → Bound α) :
    Option (Tensor α) → Except (Failure α) (Array (Bound α))
  | none => pure (Array.replicate n none)
  | some t => do
    let values ← spread? n t
    pure (values.map read)

/-- The weights of targets as a shaped array: a single zero is no weight. -/
def weights? (t : Option (Tensor α)) : Option (Tensor α) :=
  t.filter fun t => !t.scalar?.any (Scalar.same · 0)

/-- The ends of the edges, when they are variables. If the first ends reach beyond the variables as
far as the second ends do, it is an index that is out of range, and otherwise a length that does not
fit. -/
def edges? (n : Nat) (edges : Array (Int × Int)) : Except (Failure α) (Array (Nat × Nat)) := do
  if edges.any fun e => e.1 < 0 ∨ e.2 < 0 then throw .invalidValue
  let reach (f : Int × Int → Int) : Nat := edges.foldl (fun m e => Nat.max m ((f e).toNat + 1)) n
  let (us, vs) := (reach (·.1), reach (·.2))
  if us ≠ vs ∧ us ≠ 1 ∧ vs ≠ 1 then throw .lengths
  if us ≠ n ∨ vs ≠ n then throw .indexRange
  pure (edges.map fun e => (e.1.toNat, e.2.toNat))

/-- The problem of checked arguments. -/
def problem? (d : ProblemData α) : Except (Failure α) (Problem α) := do
  let n := d.quadratic.size
  let edgeWeights ← spread? d.edges.size d.edgeWeights
  let lower ← bounds? n Bound.lower d.lower
  let upper ← bounds? n Bound.upper d.upper
  let edges ← edges? n d.edges
  let (weights, targets) ← match weights? d.targetWeights with
    | none => pure (none, Vec.constant n 0)
    | some w => do
      let w ← spread? n w
      let t ← spread? n (d.targets.getD (.ofScalar 0))
      pure (some w, t)
  pure ⟨d.quadratic, edges, edgeWeights, weights, targets, lower, upper⟩

end ProblemData
end TotalVariation
