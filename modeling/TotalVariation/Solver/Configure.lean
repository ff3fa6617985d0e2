import TotalVariation.Solver.State

/-! # Configuring a solver

The terms of the problem and the parameters of its solution are set in groups. A group is checked
before anything is stored, so a refused setting leaves the solver as it was.
-/

namespace TotalVariation.Solver

variable {α : Type} [Scalar α]

/-- The values of a shaped argument with one value for each vertex; a single number is no such
argument. -/
def perVertex? {β : Type} (name : String) (vertices : Int) (values : Option (Tensor β)) :
    Except (Failure α) (Option (Array β)) :=
  match values with
  | none => pure none
  | some t =>
    if t.rank = 0 then pure none
    else if t.entries.size = vertices then pure (some t.entries)
    else throw (.vertexShape name vertices t.entries.size)

/-- The solver with another quadratic term, and what to tell about the data of the term. The
residual of the former term is forgotten. -/
def setQuadratic (s : Solver α) (observation matrix : Option (Tensor α)) (scale : α)
    (representation : Option String) : List (Event α) × Except (Failure α) (Solver α) :=
  let (events, outcome) := Quadratic.build
    ⟨observation, matrix, scale, representation, some (Int.ofNat s.vertexCount)⟩
  (events, outcome.map fun q => { s with quadratic := q, residual := none })

/-- The targets of the vertices; a single target is one for all. -/
def targetsOf? (s : Solver α) (targets : Option (Tensor α)) :
    Except (Failure α) (Option (Vec α)) :=
  match targets.bind Tensor.scalar? with
  | some t => pure (some (Vec.constant s.vertexCount t))
  | none => perVertex? "Yl1" s.vertexCount targets

/-- The solver with other targets and weights of the targets. -/
def setTargets? (s : Solver α) (weights : Option (Tensor α)) (common : α)
    (targets : Option (Tensor α)) : Except (Failure α) (Solver α) := do
  let each ← perVertex? "l1_weights" s.vertexCount weights
  let targets ← s.targetsOf? targets
  match each with
  | none => if common < 0 then throw (.negativeTargetWeight common)
  | some w => if w.any fun a => a < 0 then throw .negativeTargetWeights
  pure { s with targetWeights := ⟨each, common⟩, targets := targets }

/-- Whether a lower and an upper bound exclude every value. -/
def areCrossed (low upp : Bound α) : Bool :=
  match low, upp with
  | some l, some u => decide (u < l)
  | _, _ => false

/-- The bounds that are stored for the numbers of the arguments. -/
def storedBounds (bound : α → Bound α) (each : Option (Array α)) (common : α) :
    Weighting (Bound α) :=
  ⟨each.map fun values => values.map bound, bound common⟩

/-- The bound of a vertex. -/
def boundAt (b : Weighting (Bound α)) (v : Nat) : Bound α :=
  match b.each with
  | some values => values.getD v none
  | none => b.common

/-- The solver with other bounds. -/
def setBounds? (s : Solver α) (lower : Option (Tensor α)) (commonLower : α)
    (upper : Option (Tensor α)) (commonUpper : α) : Except (Failure α) (Solver α) := do
  let low ← perVertex? "low_bnd" s.vertexCount lower
  let upp ← perVertex? "upp_bnd" s.vertexCount upper
  let low := storedBounds Bound.lower low commonLower
  let upp := storedBounds Bound.upper upp commonUpper
  if low.each.isNone && upp.each.isNone then
    if areCrossed low.common upp.common then throw (.crossedCommonBounds commonLower commonUpper)
  else if (List.range s.vertexCount).any fun v => areCrossed (boundAt low v) (boundAt upp v) then
    throw .crossedBounds
  pure { s with lower := low, upper := upp }

/-- The solver with other parameters for the problem over the regions. -/
def setInner? (s : Solver α) (relaxation conditioning reconditioning : α) (maxIterations : Int)
    (tolerance : Option α) (backend : String) : Except (Failure α) (Solver α) := do
  if ¬(0 < relaxation ∧ relaxation < Scalar.two) then throw (.relaxationRange relaxation)
  if ¬(0 < conditioning ∧ conditioning ≤ 1) then throw (.conditioningRange conditioning)
  let some backend := Backend.ofName? backend | throw (.unknownBackend backend)
  pure { s with
    inner := ⟨relaxation, conditioning, reconditioning, maxIterations, tolerance, backend⟩
    innerIterations := maxIterations }

/-- The solver with other parameters for the refinement. -/
def setRefinement? (s : Solver α) (tolerance : α) (maxRounds : Int) (verbose : Bool)
    (mergeTolerance : α) : Except (Failure α) (Solver α) := do
  if tolerance < 0 then throw (.negativeTolerance tolerance)
  if mergeTolerance < 0 then throw (.negativeMergeTolerance mergeTolerance)
  pure { s with
    tolerance := tolerance
    maxRounds := maxRounds
    verbose := verbose
    mergeTolerance := mergeTolerance }

/-- The solver with other weights of the edges. -/
def setEdgeWeights? (s : Solver α) (each : Option (Array α)) (common : α) :
    Except (Failure α) (Solver α) := do
  let P ← s.partition.setEdgeWeights? each common
  pure { s with partition := P }

end TotalVariation.Solver
