import Mathlib
import TotalVariation.Proofs.Partition.RenamedMerge
import TotalVariation.Proofs.Quadratic.Renaming
import TotalVariation.Proofs.Solver.Slope

/-! # Two descriptions of one problem

Two solvers describe one problem if the graph, the terms and the bounds of one are those of the
other with vertices and edges renamed and some edges turned around, and the parameters are the same.
Where values that differ are merged the direction of an edge counts, so that none is turned there.
They are in step if, besides, corresponding vertices lie in corresponding regions with the same
marks and have the same values, now and when the iterate was kept.
-/

namespace TotalVariation

open TotalVariation.Partition TotalVariation.Bound

variable {π σ : Equiv.Perm ℕ} {flip : ℕ → Bool}

/-- One number for each place under new names, or the same one for all of them. -/
structure Weighting.Renames {β : Type} (π : Equiv.Perm ℕ) (w w' : Weighting β) : Prop where
  each : Option.Rel (TotalVariation.Renames π) w.each w'.each
  common : w'.common = w.common

namespace Solver

variable {K : Type} [ExactField K] {s s' t t' : Solver K}

/-- The second solver describes the problem of the first with its vertices and edges renamed and
some edges turned around. -/
structure Relabels (π σ : Equiv.Perm ℕ) (flip : ℕ → Bool) (s s' : Solver K) : Prop where
  graph : RenamesGraph π σ flip s.partition s'.partition
  quadratic : s.quadratic.Renames π s.vertexCount s'.quadratic
  targetWeights : s.targetWeights.Renames π s'.targetWeights
  targets : Option.Rel (TotalVariation.Renames π) s.targets s'.targets
  lower : s.lower.Renames π s'.lower
  upper : s.upper.Renames π s'.upper
  tolerance : s'.tolerance = s.tolerance
  maxRounds : s'.maxRounds = s.maxRounds
  verbose : s'.verbose = s.verbose
  mergeTolerance : s'.mergeTolerance = s.mergeTolerance
  inner : s'.inner = s.inner
  monitorsEvolution : s'.monitorsEvolution = s.monitorsEvolution
  turned : ∀ e < s.partition.edgeCount, flip e = true → s.mergeTolerance = 0

/-- The weights of the edges and of the targets are not negative. -/
structure HasNonnegWeights (s : Solver K) : Prop where
  edges : ∀ e < s.partition.edgeCount, 0 ≤ s.partition.weight e
  targets : ∀ w, s.targetWeights.each = some w → ∀ v < s.vertexCount, 0 ≤ Vec.entry w v

/-- The value of a vertex. -/
def valueAt (s : Solver K) (v : ℕ) : K := Vec.entry (s.x.getD #[]) (s.partition.regionOf v)

/-- The value of a vertex when the iterate was kept. -/
def keptAt (s : Solver K) (v : ℕ) : K :=
  Vec.entry (s.lastX.getD #[]) ((s.partition.lastAssignment.getD #[]).getD v 0)

/-- Two descriptions of one problem, with corresponding regions, kept values and records. -/
structure Aligned (π σ : Equiv.Perm ℕ) (flip : ℕ → Bool) (t t' : Solver K) : Prop where
  relabels : Relabels π σ flip t t'
  regions : Matches π t.partition t'.partition
  kept : ∀ v < t.vertexCount, t'.keptAt (π v) = t.keptAt v
  innerIterations : t'.innerIterations = t.innerIterations
  history : t'.history = t.history

/-- Two descriptions of one problem at the same point of their solution. -/
structure InStep (π σ : Equiv.Perm ℕ) (flip : ℕ → Bool) (t t' : Solver K) : Prop
    extends Aligned π σ flip t t' where
  values : ∀ v < t.vertexCount, t'.valueAt (π v) = t.valueAt v

/-! ## The terms of the problem -/

omit [ExactField K] in
theorem boundAt_renames {b b' : Weighting (Bound K)} (h : b.Renames π b') (v : ℕ) :
    boundAt b' (π v) = boundAt b v := by
  rw [boundAt, boundAt, h.common]
  have heach := h.each
  generalize b.each = values, b'.each = values' at heach ⊢
  cases heach with
  | none => rfl
  | some hvalues => exact hvalues.getD_eq v none

theorem isNone_boundsOf?_renames {b b' : Weighting (Bound K)} (h : b.Renames π b') :
    (boundsOf? b').isNone = (boundsOf? b).isNone := by
  rw [boundsOf?, boundsOf?, h.common]
  have heach := h.each
  generalize b.each = values, b'.each = values' at heach ⊢
  cases heach <;> rfl

omit [ExactField K] in
/-- The bound that all vertices have together does not depend on their order. -/
theorem foldl_renames {f : Bound K → Bound K → Bound K} (hf : ∀ a b c, f (f a b) c = f (f a c) b)
    {b b' : Weighting (Bound K)} (h : b.Renames π b') :
    (match b'.each with
      | some values => values.foldl f none
      | none => b'.common) =
    match b.each with
      | some values => values.foldl f none
      | none => b.common := by
  rw [h.common]
  have heach := h.each
  generalize b.each = values, b'.each = values' at heach ⊢
  cases heach with
  | none => rfl
  | some hvalues => exact hvalues.foldl_eq hf none

theorem maxLower_right_comm (a b c : Bound K) :
    maxLower (maxLower a b) c = maxLower (maxLower a c) b := by
  cases a <;> cases b <;> cases c <;> simp only [maxLower, Scalar.max_eq]
  case none.some.some b c => rw [max_comm]
  case some.some.some a b c => rw [max_right_comm]

theorem minUpper_right_comm (a b c : Bound K) :
    minUpper (minUpper a b) c = minUpper (minUpper a c) b := by
  cases a <;> cases b <;> cases c <;> simp only [minUpper, Scalar.min_eq]
  case none.some.some b c => rw [min_comm]
  case some.some.some a b c => rw [min_right_comm]

theorem HasNonnegWeights.of_sameSettings (h : s.HasNonnegWeights) (hs : SameSettings s t) :
    t.HasNonnegWeights where
  edges := by
    intro e he
    rw [Partition.edgeCount, hs.graph] at he
    rw [Partition.weight, hs.edgeWeights]
    exact h.edges e he
  targets := by
    rw [hs.targetWeights, hs.vertexCount]
    exact h.targets

namespace Relabels

/-- What leaves the settings alone leaves two descriptions of one problem. -/
theorem of_sameSettings (h : Relabels π σ flip s s') (hs : SameSettings s t)
    (hs' : SameSettings s' t') : Relabels π σ flip t t' where
  graph := h.graph.of_frame hs.graph hs.edgeWeights hs'.graph hs'.edgeWeights
  quadratic := by
    rw [hs.quadratic, hs'.quadratic, hs.vertexCount]
    exact h.quadratic
  targetWeights := by
    rw [hs.targetWeights, hs'.targetWeights]
    exact h.targetWeights
  targets := by
    rw [hs.targets, hs'.targets]
    exact h.targets
  lower := by
    rw [hs.lower, hs'.lower]
    exact h.lower
  upper := by
    rw [hs.upper, hs'.upper]
    exact h.upper
  tolerance := by rw [hs.tolerance, hs'.tolerance, h.tolerance]
  maxRounds := by rw [hs.maxRounds, hs'.maxRounds, h.maxRounds]
  verbose := by rw [hs.verbose, hs'.verbose, h.verbose]
  mergeTolerance := by rw [hs.mergeTolerance, hs'.mergeTolerance, h.mergeTolerance]
  inner := by rw [hs.inner, hs'.inner, h.inner]
  monitorsEvolution := by rw [hs.monitorsEvolution, hs'.monitorsEvolution, h.monitorsEvolution]
  turned := by
    rw [Partition.edgeCount, hs.graph, hs.mergeTolerance]
    exact h.turned

variable (h : Relabels π σ flip t t')

include h

theorem vertexCount_eq : t'.vertexCount = t.vertexCount := h.graph.vertexCount_eq

theorem vertices : Preserves π t.vertexCount := h.graph.vertices

theorem vertex_lt {v : ℕ} (hv : v < t.vertexCount) : π v < t'.vertexCount :=
  (h.graph.vertex_lt_iff v).mpr hv

theorem target_eq (v : ℕ) : t'.target (π v) = t.target v := by
  rw [target, target]
  have htargets := h.targets
  generalize t.targets = targets, t'.targets = targets' at htargets ⊢
  cases htargets with
  | none => rfl
  | some hrenames => exact hrenames.entry_eq v

theorem targetWeight? : Option.Rel (fun w w' => ∀ v, w' (π v) = w v) t.targetWeight?
    t'.targetWeight? := by
  rw [Solver.targetWeight?, Solver.targetWeight?, h.targetWeights.common]
  have heach := h.targetWeights.each
  generalize t.targetWeights.each = w, t'.targetWeights.each = w' at heach ⊢
  cases heach with
  | none =>
      dsimp only
      split
      next => exact .some fun _ => rfl
      next => exact .none
  | some hrenames => exact .some hrenames.entry_eq

theorem penalty_eq (v : ℕ) : t'.penalty (π v) = t.penalty v := by
  rw [penalty, penalty]
  have hweight := h.targetWeight?
  generalize t.targetWeight? = w, t'.targetWeight? = w' at hweight ⊢
  cases hweight with
  | none => rfl
  | some hrenames => exact hrenames v

theorem totalTargetWeight?_eq : t'.totalTargetWeight? = t.totalTargetWeight? := by
  rw [totalTargetWeight?, totalTargetWeight?, h.targetWeights.common, h.vertexCount_eq]
  have heach := h.targetWeights.each
  generalize t.targetWeights.each = w, t'.targetWeights.each = w' at heach ⊢
  cases heach with
  | none => rfl
  | some hrenames => exact congrArg some hrenames.sum_eq

theorem largestLower_eq : t'.largestLower = t.largestLower :=
  foldl_renames maxLower_right_comm h.lower

theorem smallestUpper_eq : t'.smallestUpper = t.smallestUpper :=
  foldl_renames minUpper_right_comm h.upper

theorem needsOneCut_eq : t'.needsOneCut = t.needsOneCut := by
  rw [needsOneCut, needsOneCut, isNone_boundsOf?_renames h.lower, isNone_boundsOf?_renames h.upper]
  have hweight := h.targetWeight?
  generalize t.targetWeight? = w, t'.targetWeight? = w' at hweight ⊢
  cases hweight <;> rfl

theorem innerTolerance_eq : t'.innerTolerance = t.innerTolerance := by
  rw [innerTolerance, innerTolerance, h.inner, h.tolerance]

end Relabels

/-! ## Values -/

section Values

variable {x x' : Vec K}

theorem valueAt_eq (hx : t.x = some x) (v : ℕ) :
    t.valueAt v = Vec.entry x (t.partition.regionOf v) := by
  rw [valueAt, hx, Option.getD_some]

variable (hvertices : Preserves π t.vertexCount) (hcount : t'.vertexCount = t.vertexCount)
  (hvalues : ∀ v < t.vertexCount, t'.valueAt (π v) = t.valueAt v) (hx : t.x = some x)
  (hx' : t'.x = some x')

include hvertices hcount hvalues hx hx'

/-- The values of the vertices are the same under their new names. -/
theorem expand_renames : Renames π (t.partition.expand x) (t'.partition.expand x') := by
  have hcount' : t'.partition.vertexCount = t.partition.vertexCount := hcount
  rw [expand, expand, hcount']
  refine .tabulate hvertices fun v hv => ?_
  rw [← valueAt_eq hx, ← valueAt_eq hx', hvalues v hv]

end Values

/-- Corresponding regions of solvers that are in step have the same values. -/
theorem InStep.entry_eq {ρ : Equiv.Perm ℕ} {x x' : Vec K} (h : InStep π σ flip t t')
    (hP : t.partition.IsConsistent) (hregions : RenamesRegions π ρ t.partition t'.partition)
    (hx : t.x = some x) (hx' : t'.x = some x') {r : ℕ} (hr : r < t.partition.regionCount) :
    Vec.entry x' (ρ r) = Vec.entry x r := by
  obtain ⟨hlt, hregion⟩ := hP.regionOf_representative hr
  have hvalue := h.values _ hlt
  rwa [valueAt_eq hx, valueAt_eq hx', hregions.regionOf_eq _ hlt, hregion] at hvalue

/-- Corresponding regions of solvers that are aligned are solved together. -/
theorem Aligned.isSaturated_eq {ρ : Equiv.Perm ℕ} (h : Aligned π σ flip t t')
    (hP : t.partition.IsConsistent) (hregions : RenamesRegions π ρ t.partition t'.partition) {r : ℕ}
    (hr : r < t.partition.regionCount) :
    t'.partition.isSaturated (ρ r) = t.partition.isSaturated r := by
  obtain ⟨hlt, hregion⟩ := hP.regionOf_representative hr
  have hmark := h.regions.isSaturated_eq _ hlt
  rwa [hregions.regionOf_eq _ hlt, hregion] at hmark

/-- The regions of consistent solvers that are aligned correspond. -/
theorem Aligned.exists_renamesRegions (h : Aligned π σ flip t t') (hP : t.partition.IsConsistent)
    (hP' : t'.partition.IsConsistent) : ∃ ρ, RenamesRegions π ρ t.partition t'.partition :=
  Partition.exists_renamesRegions hP hP' h.relabels.vertexCount_eq h.relabels.vertices
    h.regions.divides

end Solver
end TotalVariation
