import Mathlib
import TotalVariation.Proofs.Solver.Slope

/-! # The expansion of the objective at the iterate

A short step changes the objective by its slope and half the curvature of the quadratic term. The
slope has three parts: that of the gradient, which is computed from the values of the regions or
from the residual, what leaving the targets costs, and what moving the ends of the open edges apart
costs.
-/

namespace TotalVariation.Solver

open TotalVariation.Partition

variable {K : Type} [ExactField K] {s : Solver K} {x : Vec K}

/-- What leaving the targets costs is summed over the vertices that stand at them. -/
theorem sum_kink_mul (s : Solver K) (x : Vec K) (d : Nat → K) :
    ∑ v ∈ Finset.range s.vertexCount, s.kink x v * |d v| =
      ∑ v ∈ Finset.range s.vertexCount with Vec.entry (s.partition.expand x) v = s.target v,
        s.penalty v * |d v| := by
  rw [Finset.sum_filter]
  refine Finset.sum_congr rfl fun v _ => ?_
  rw [kink]
  split
  next => rfl
  next => exact zero_mul _

/-- The gradient is known at a parted solver, and gives the objective on short steps along every
direction. -/
theorem IsParted.objective_step_sub (h : s.IsParted x) :
    ∃ g, s.gradient? = .ok g ∧ g.size = s.vertexCount ∧ ∀ d : Nat → K, ∃ t₀ > 0, ∀ t, 0 ≤ t →
      t ≤ t₀ →
        s.problem.objective ((s.partition.expand x).step fun v => t * d v) -
            s.problem.objective (s.partition.expand x) =
          t * (∑ v ∈ Finset.range s.vertexCount, Vec.entry g v * d v +
              ∑ v ∈ Finset.range s.vertexCount with
                  Vec.entry (s.partition.expand x) v = s.target v, s.penalty v * |d v| +
              ∑ e ∈ s.partition.openEdges, s.partition.weight e *
                |d (s.partition.graph.tailOf e) - d (s.partition.graph.headOf e)|) +
            t * t / 2 * s.quadratic.form d d := by
  obtain ⟨g, hg, hsize, -⟩ := h.gradient?_eq_ok
  refine ⟨g, hg, hsize, fun d => ?_⟩
  have hexpanded : (s.partition.expand x).size = s.problem.size :=
    (s.partition.size_expand x).trans h.size_problem.symm
  obtain ⟨t₀, hpos, hstep⟩ :=
    (isExpandable_problem h.arranged.graph_valid h.fits h.symmetric).onShortSteps_objective
      hexpanded d
  refine ⟨t₀, hpos, fun t ht hle => ?_⟩
  have hform : s.problem.quadratic.form d d = s.quadratic.form d d := rfl
  rw [hstep t ht hle, h.slopeAlong_eq hg d, Finset.sum_add_distrib, sum_kink_mul, hform]
  ring

/-- Four vertices in three regions. The first two regions are joined by parallel boundaries that are
stored from either end, and the second vertex stands at its target. -/
def partedPath : Solver ℚ :=
  { ofPartition (((Partition.whole ⟨#[0, 1, 2, 4, 4], #[0, 1, 2, 2], #[1, 2, 1, 3]⟩
      ⟨some #[1, 2, 3, 4], 1⟩).setActive [1, 2, 3] true).rebuild.reduceGraph) with
    quadratic := .direct ⟨2, 4, #[#[1, 0, 1, 0], #[0, 2, 0, -1]]⟩ #[1, 2]
    residual := some #[-3, 1]
    targetWeights := ⟨some #[1, 2, 0, 1], 0⟩
    targets := some #[0, 1, 0, 0]
    x := some #[1, 3, 1] }

theorem isParted_partedPath : partedPath.IsParted #[1, 3, 1] := by
  have hwhole : Partition.ofIndex? #[0, 1, 2, 4, 4] #[1, 2, 1, 3] (some #[1, 2, 3, 4]) (1 : ℚ) = .ok
      (.whole ⟨#[0, 1, 2, 4, 4], #[0, 1, 2, 2], #[1, 2, 1, 3]⟩ ⟨some #[1, 2, 3, 4], 1⟩) := by
    with_unfolding_all rfl
  have hP : partedPath.partition.IsConsistent :=
    ((isArranged_of_ofIndex? hwhole).setActive [1, 2, 3] true).rebuild_reduceGraph
  exact {
    iterate := rfl
    iterate_size := by decide +kernel
    fits := ⟨by decide +kernel, rfl⟩
    residual := by
      rintro A y ⟨⟩
      decide +kernel
    assignment_lt := by decide +kernel
    distinct := by decide +kernel
    arranged := hP.toIsArranged
    indexed := hP.isIndexed
    isActive_iff := hP.isActive_iff
    symmetric := trivial }

theorem objective_step_sub_partedPath :
    partedPath.IsParted #[1, 3, 1] ∧ partedPath.partition.regions = [[0, 1], [2], [3]] ∧
      partedPath.gradient?.toOption = some #[4, -7, 12, -2] ∧
      ∃ t₀ > 0, ∀ t, 0 ≤ t → t ≤ t₀ →
        partedPath.problem.objective
            ((partedPath.partition.expand #[1, 3, 1]).step fun v =>
              t * Vec.entry #[1, -1, 2, 1] v) -
            partedPath.problem.objective (partedPath.partition.expand #[1, 3, 1]) =
          t * (33 + 2 + 2) + t * t / 2 * 18 := by
  have hgradient : partedPath.gradient?.toOption = some #[4, -7, 12, -2] := by decide +kernel
  obtain ⟨g, hg, -, hstep⟩ := isParted_partedPath.objective_step_sub
  obtain rfl : g = #[4, -7, 12, -2] := by
    rw [hg] at hgradient
    exact Option.some.inj hgradient
  obtain ⟨t₀, hpos, hvalue⟩ := hstep (Vec.entry #[1, -1, 2, 1])
  refine ⟨isParted_partedPath, by decide +kernel, hgradient, t₀, hpos, fun t ht hle => ?_⟩
  have hslope : ∑ v ∈ Finset.range partedPath.vertexCount,
      Vec.entry (#[4, -7, 12, -2] : Vec ℚ) v * Vec.entry #[1, -1, 2, 1] v = 33 := by decide +kernel
  have htargets : ∑ v ∈ Finset.range partedPath.vertexCount with
      Vec.entry (partedPath.partition.expand #[1, 3, 1]) v = partedPath.target v,
        partedPath.penalty v * |Vec.entry (#[1, -1, 2, 1] : Vec ℚ) v| = 2 := by decide +kernel
  have hedges : ∑ e ∈ partedPath.partition.openEdges, partedPath.partition.weight e *
      |Vec.entry (#[1, -1, 2, 1] : Vec ℚ) (partedPath.partition.graph.tailOf e) -
        Vec.entry #[1, -1, 2, 1] (partedPath.partition.graph.headOf e)| = 2 := by decide +kernel
  have hcurvature : partedPath.quadratic.form (Vec.entry #[1, -1, 2, 1]) (Vec.entry #[1, -1, 2, 1]) =
      18 := by decide +kernel
  rw [hvalue t ht hle, hslope, htargets, hedges, hcurvature]

end TotalVariation.Solver
