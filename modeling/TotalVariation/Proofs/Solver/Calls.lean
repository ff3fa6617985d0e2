import Mathlib
import TotalVariation.Proofs.Solver.Configure

/-! # Calls that configure a solver

A call checks its arguments and stores them field by field. What a step stored before it failed
stays stored, so a call that stored something before its last check could leave a solver half
configured. None does: a call ends as if the solver with the whole group had been made at once, and
a refused call changes nothing.
-/

namespace TotalVariation

/-- A call that configures a solver, with its arguments. -/
inductive Setting (α : Type) where
  | quadratic (observation matrix : Option (Tensor α)) (scale : α) (representation : Option String)
  | targets (weights : Option (Tensor α)) (common : α) (targets : Option (Tensor α))
  | bounds (lower : Option (Tensor α)) (commonLower : α) (upper : Option (Tensor α))
    (commonUpper : α)
  | inner (relaxation conditioning reconditioning : α) (maxIterations : Int) (tolerance : Option α)
    (backend : String)
  | refinement (tolerance : α) (maxRounds : Int) (verbose : Bool) (mergeTolerance : α)
  | edgeWeights (each : Option (Array α)) (common : α)

namespace Setting

open Solver

variable {α : Type} [Scalar α]

/-- The solver that the call is to make, or why it is refused. -/
def outcome? (s : Solver α) : Setting α → Except (Failure α) (Solver α)
  | quadratic observation matrix scale representation =>
    (s.setQuadratic observation matrix scale representation).2
  | targets weights common values => s.setTargets? weights common values
  | bounds lower commonLower upper commonUpper =>
    s.setBounds? lower commonLower upper commonUpper
  | inner relaxation conditioning reconditioning maxIterations tolerance backend =>
    s.setInner? relaxation conditioning reconditioning maxIterations tolerance backend
  | refinement tolerance maxRounds verbose mergeTolerance =>
    s.setRefinement? tolerance maxRounds verbose mergeTolerance
  | edgeWeights each common => s.setEdgeWeights? each common

/-- The call as a step, one check and one store after the other. -/
def perform : Setting α → Step α Unit
  | quadratic observation matrix scale representation => do
    let s ← get
    let q ← (Quadratic.build
      ⟨observation, matrix, scale, representation, some (Int.ofNat s.vertexCount)⟩).2
    modify fun s => { s with quadratic := q }
    modify fun s => { s with residual := none }
  | targets weights common values => do
    let s ← get
    let each ← perVertex? (α := α) "l1_weights" s.vertexCount weights
    let values ← s.targetsOf? values
    match each with
    | none => if common < 0 then throw (.negativeTargetWeight common)
    | some w => if w.any fun a => a < 0 then throw .negativeTargetWeights
    modify fun s => { s with targetWeights := { s.targetWeights with each := each } }
    modify fun s => { s with targetWeights := { s.targetWeights with common := common } }
    modify fun s => { s with targets := values }
  | bounds lower commonLower upper commonUpper => do
    let s ← get
    let low ← perVertex? (α := α) "low_bnd" s.vertexCount lower
    let upp ← perVertex? (α := α) "upp_bnd" s.vertexCount upper
    let low := storedBounds Bound.lower low commonLower
    let upp := storedBounds Bound.upper upp commonUpper
    if low.each.isNone && upp.each.isNone then
      if areCrossed low.common upp.common then throw (.crossedCommonBounds commonLower commonUpper)
    else if (List.range s.vertexCount).any fun v => areCrossed (boundAt low v) (boundAt upp v) then
      throw .crossedBounds
    modify fun s => { s with lower := { s.lower with each := low.each } }
    modify fun s => { s with lower := { s.lower with common := low.common } }
    modify fun s => { s with upper := { s.upper with each := upp.each } }
    modify fun s => { s with upper := { s.upper with common := upp.common } }
  | inner relaxation conditioning reconditioning maxIterations tolerance backend => do
    if ¬(0 < relaxation ∧ relaxation < Scalar.two) then throw (.relaxationRange relaxation)
    if ¬(0 < conditioning ∧ conditioning ≤ 1) then throw (.conditioningRange conditioning)
    let some backend := Backend.ofName? backend | throw (.unknownBackend backend)
    modify fun s => { s with inner := { s.inner with relaxation := relaxation } }
    modify fun s => { s with inner := { s.inner with conditioning := conditioning } }
    modify fun s => { s with inner := { s.inner with reconditioning := reconditioning } }
    modify fun s => { s with inner := { s.inner with maxIterations := maxIterations } }
    modify fun s => { s with inner := { s.inner with tolerance := tolerance } }
    modify fun s => { s with innerIterations := s.inner.maxIterations }
    modify fun s => { s with inner := { s.inner with backend := backend } }
  | refinement tolerance maxRounds verbose mergeTolerance => do
    if tolerance < 0 then throw (.negativeTolerance tolerance)
    if mergeTolerance < 0 then throw (.negativeMergeTolerance mergeTolerance)
    modify fun s => { s with tolerance := tolerance }
    modify fun s => { s with maxRounds := maxRounds }
    modify fun s => { s with verbose := verbose }
    modify fun s => { s with mergeTolerance := mergeTolerance }
  | edgeWeights each common => do
    let s ← get
    match each with
    | none =>
      if common < 0 then throw (.negativeEdgeWeight common)
      modifyPartition fun P => { P with edgeWeights := { P.edgeWeights with each := none } }
    | some w =>
      if w.size ≠ s.partition.edgeCount then
        throw (.edgeWeightShape s.partition.edgeCount w.size)
      if w.any fun a => a < 0 then throw .negativeEdgeWeights
      modifyPartition fun P => { P with edgeWeights := { P.edgeWeights with each := some w } }
    modifyPartition fun P => { P with edgeWeights := { P.edgeWeights with common := common } }

end Setting

/-! ## One outcome -/

/-- The step makes the solver of the outcome, or fails for its reason and leaves the solver as it
was. -/
def Step.Settles {α : Type} (step : Step α Unit) (s : Solver α)
    (outcome : Except (Failure α) (Solver α)) : Prop :=
  step.run s = match outcome with
    | .ok t => (.ok (), t)
    | .error e => (.error e, s)

namespace Step.Settles

variable {α β : Type} {s : Solver α} {outcome : Except (Failure α) (Solver α)}

theorem get_bind {next : Solver α → Step α Unit} (h : Settles (next s) s outcome) :
    Settles (get >>= next) s outcome := h

theorem lift_bind {x : Except (Failure α) β} {next : β → Step α Unit}
    {made : β → Except (Failure α) (Solver α)} (h : ∀ b, Settles (next b) s (made b)) :
    Settles (liftM x >>= next) s (x >>= made) := by
  cases x with
  | ok b => exact h b
  | error e => rfl

theorem pure_bind {b : β} {next : β → Step α Unit} {made : β → Except (Failure α) (Solver α)}
    (h : Settles (next b) s (made b)) : Settles (pure b >>= next) s (pure b >>= made) := h

theorem lift_bind_map {x : Except (Failure α) β} {next : β → Step α Unit} {f : β → Solver α}
    (h : ∀ b, Settles (next b) s (.ok (f b))) : Settles (liftM x >>= next) s (x.map f) := by
  cases x with
  | ok b => exact h b
  | error e => rfl

theorem ite {c : Prop} [Decidable c] {step step' : Step α Unit}
    {outcome' : Except (Failure α) (Solver α)} (h : Settles step s outcome)
    (h' : Settles step' s outcome') :
    Settles (if c then step else step') s (if c then outcome else outcome') := by
  split
  next => exact h
  next => exact h'

theorem test {c : Prop} [Decidable c] {e : Failure α} {failed : β → Step α Unit}
    {failed' : β → Except (Failure α) (Solver α)} {next : Step α Unit}
    (h : Settles next s outcome) :
    Settles (if c then throw e >>= failed else next) s
      (if c then throw e >>= failed' else outcome) := by
  split
  next => rfl
  next => exact h

end Step.Settles

namespace Setting

open Solver

variable {α : Type} [Scalar α]

theorem settles_refinement (s : Solver α) (tolerance : α) (maxRounds : Int) (verbose : Bool)
    (mergeTolerance : α) : (refinement tolerance maxRounds verbose mergeTolerance).perform.Settles s
      (s.setRefinement? tolerance maxRounds verbose mergeTolerance) := by
  unfold setRefinement?
  dsimp only [perform]
  refine .test (.test ?_)
  rfl

theorem settles_inner (s : Solver α) (relaxation conditioning reconditioning : α)
    (maxIterations : Int) (tolerance : Option α) (backend : String) :
    (inner relaxation conditioning reconditioning maxIterations tolerance backend).perform.Settles s
      (s.setInner? relaxation conditioning reconditioning maxIterations tolerance backend) := by
  unfold setInner?
  dsimp only [perform]
  refine .test (.test ?_)
  cases Backend.ofName? backend with
  | none => rfl
  | some backend => rfl

theorem settles_edgeWeights (s : Solver α) (each : Option (Array α)) (common : α) :
    (edgeWeights each common).perform.Settles s (s.setEdgeWeights? each common) := by
  refine .get_bind ?_
  unfold setEdgeWeights? Partition.setEdgeWeights? Partition.edgeWeighting?
  cases each with
  | none =>
    dsimp only
    by_cases hcommon : common < 0
    · simp only [if_pos hcommon]
      rfl
    · simp only [if_neg hcommon]
      rfl
  | some w =>
    dsimp only
    by_cases hsize : w.size ≠ s.partition.edgeCount
    · simp only [if_pos hsize]
      rfl
    · by_cases hneg : (w.any fun a => a < 0) = true
      · simp only [if_neg hsize, if_pos hneg]
        rfl
      · simp only [if_neg hsize, if_neg hneg]
        rfl

theorem settles_targets (s : Solver α) (weights : Option (Tensor α)) (common : α)
    (values : Option (Tensor α)) :
    (targets weights common values).perform.Settles s (s.setTargets? weights common values) := by
  unfold setTargets?
  refine .get_bind (.lift_bind fun each => .lift_bind fun m => ?_)
  cases each with
  | none =>
    refine .test ?_
    rfl
  | some w =>
    refine .test ?_
    rfl

theorem settles_bounds (s : Solver α) (lower : Option (Tensor α)) (commonLower : α)
    (upper : Option (Tensor α)) (commonUpper : α) :
    (bounds lower commonLower upper commonUpper).perform.Settles s
      (s.setBounds? lower commonLower upper commonUpper) := by
  unfold setBounds?
  refine .get_bind (.lift_bind fun low => .lift_bind fun upp => ?_)
  refine .ite (.test ?_) (.test ?_)
  · rfl
  · rfl

theorem settles_quadratic (s : Solver α) (observation matrix : Option (Tensor α)) (scale : α)
    (representation : Option String) :
    (quadratic observation matrix scale representation).perform.Settles s
      (s.setQuadratic observation matrix scale representation).2 := by
  refine .get_bind (.lift_bind_map fun q => ?_)
  rfl

/-- A call makes the solver that is to be made, or fails and leaves the solver alone. -/
theorem perform_settles (c : Setting α) (s : Solver α) : c.perform.Settles s (c.outcome? s) := by
  cases c with
  | quadratic observation matrix scale representation =>
    exact settles_quadratic s observation matrix scale representation
  | targets weights common values => exact settles_targets s weights common values
  | bounds lower commonLower upper commonUpper =>
    exact settles_bounds s lower commonLower upper commonUpper
  | inner relaxation conditioning reconditioning maxIterations tolerance backend =>
    exact settles_inner s relaxation conditioning reconditioning maxIterations tolerance backend
  | refinement tolerance maxRounds verbose mergeTolerance =>
    exact settles_refinement s tolerance maxRounds verbose mergeTolerance
  | edgeWeights each common => exact settles_edgeWeights s each common

/-- A refused call leaves the solver as it was. -/
theorem eq_of_perform_fails {c : Setting α} {s t : Solver α} {e : Failure α}
    (h : c.perform.run s = (.error e, t)) : t = s := by
  have hsettles : c.perform.run s = _ := c.perform_settles s
  rw [h] at hsettles
  cases hmade : c.outcome? s with
  | ok u =>
      rw [hmade] at hsettles
      cases hsettles
  | error e' =>
      rw [hmade] at hsettles
      exact (Prod.mk.inj hsettles).2

end Setting

namespace Solver

variable {α : Type} [Scalar α]

/-- The solver after calls of which some may have been refused. -/
def afterCalls (s : Solver α) (calls : List (Setting α)) : Solver α :=
  calls.foldl (fun t c => (c.perform.run t).2) s

/-- Whatever accepted calls keep, all calls keep. -/
theorem afterCalls_induction {p : Solver α → Prop} {s : Solver α} {calls : List (Setting α)}
    (hs : p s) (haccepted : ∀ c ∈ calls, ∀ t u, p t → c.outcome? t = .ok u → p u) :
    p (s.afterCalls calls) := by
  induction calls generalizing s with
  | nil => exact hs
  | cons c calls ih =>
      refine ih ?_ fun d hd => haccepted d (List.mem_cons_of_mem _ hd)
      change p (c.perform.run s).2
      have hsettles : c.perform.run s = _ := c.perform_settles s
      rw [hsettles]
      cases hmade : c.outcome? s with
      | ok t => exact haccepted c List.mem_cons_self s t hs hmade
      | error e => exact hs

end Solver
end TotalVariation
