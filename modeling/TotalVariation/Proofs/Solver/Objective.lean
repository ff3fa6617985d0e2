import Mathlib
import TotalVariation.Proofs.Quadratic.Value
import TotalVariation.Proofs.Solver.Evolution
import TotalVariation.Proofs.Solver.Restriction

/-! # The recorded objective

The objective is computed from the values of the regions: the quadratic term from sums over the
regions or from the residual, the variation from the graph of the regions, the distance to the
targets vertex by vertex. It is the objective of the problem on the vertices at the expanded
iterate.
-/

namespace TotalVariation.Solver

open TotalVariation.Partition

variable {K : Type} [ExactField K] {s : Solver K} {x : Vec K}

/-- The variation of the expanded iterate, edge by edge. -/
theorem variation_expand (hgraph : s.partition.graph.IsValid) (x : Vec K) :
    s.problem.variation (s.partition.expand x) =
      ∑ e ∈ Finset.range s.partition.edgeCount, s.partition.weight e *
        |Vec.entry x (s.partition.regionOf (s.partition.graph.tailOf e)) -
          Vec.entry x (s.partition.regionOf (s.partition.graph.headOf e))| := by
  rw [Problem.variation, Vec.total_eq, size_edges_problem]
  apply Finset.sum_congr rfl
  intro e he
  rw [Finset.mem_range] at he
  obtain ⟨hfrom, hto⟩ := edges_problem he
  rw [edgeWeights_problem he, hfrom, hto, Scalar.abs_eq,
    s.partition.entry_expand x (hgraph.tail_lt e he),
    s.partition.entry_expand x (hgraph.head_lt e he)]

/-- Where the graph of the regions is up to date, it has the variation of the iterate across the
edges between regions. -/
theorem graphVariation?_eq_sum (hP : s.partition.IsConsistent)
    (hgraph : s.partition.HasReducedGraph) (hweights : s.partition.HasReducedWeights)
    (hx : s.x = some x) (hsize : x.size = s.partition.regionCount) :
    s.graphVariation? = .ok (∑ e ∈ Finset.range s.partition.edgeCount, s.partition.weight e *
      |Vec.entry x (s.partition.regionOf (s.partition.graph.tailOf e)) -
        Vec.entry x (s.partition.regionOf (s.partition.graph.headOf e))|) := by
  have hsum := sum_edges_eq hgraph hweights
    (f := fun a b => |Vec.entry x a - Vec.entry x b|) (fun a b => abs_sub_comm _ _)
    fun a => by rw [sub_self, abs_zero]
  rw [← hsum]
  unfold graphVariation?
  dsimp only
  split
  next hzero =>
    have hempty : s.partition.reducedEdges.size = 0 := hzero
    rw [hempty, Finset.range_zero, Finset.sum_empty]
    rfl
  next =>
    have hinside : (s.partition.reducedEdges.any fun p => x.size ≤ p.1 ∨ x.size ≤ p.2) = false := by
      rw [Array.any_eq_false']
      intro p hp
      have hlt := hP.reducedEdges_lt hgraph hp
      rw [hsize]
      simp only [decide_eq_true_eq, not_or]
      exact ⟨Nat.not_le.mpr hlt.1, Nat.not_le.mpr hlt.2⟩
    rw [hx]
    refine bind_eq_ok.mpr ⟨x, rfl, ?_⟩
    rw [hinside, Vec.total_eq]
    simp only [Bool.false_eq_true, if_false, Scalar.abs_eq]
    rfl

/-- Where the weights of the graph of the regions are up to date, it has the variation of the
expanded iterate. -/
theorem graphVariation?_eq_variation (hP : s.partition.IsCoherent)
    (hweights : s.partition.HasReducedWeights) (hx : s.x = some x)
    (hsize : x.size = s.partition.regionCount) :
    s.graphVariation? = .ok (s.problem.variation (s.partition.expand x)) := by
  rw [variation_expand hP.graph_valid]
  exact graphVariation?_eq_sum hP.toIsConsistent hP.toHasReducedGraph hweights hx hsize

/-- The objective adds the variation of the graph of the regions to the value of the quadratic term,
and the distance of the expanded iterate to the targets. -/
theorem objective?_eq_map (hP : s.partition.IsConsistent) (hassigns : s.AssignsVertices)
    (hx : s.x = some x) (hsize : x.size = s.partition.regionCount) {variation : K}
    (hvariation : s.graphVariation? = .ok variation) :
    s.objective? = (s.quadratic.regionValue? s.partition s.x s.residual).map fun value =>
      value + variation + s.problem.targetDistance (s.partition.expand x) := by
  have hexpanded : (s.partition.expand x).size = s.vertexCount := s.partition.size_expand x
  have hweights : s.problem.targetWeights = s.targetWeight?.map (Vec.tabulate s.vertexCount) := rfl
  unfold objective?
  rw [hvariation, Problem.targetDistance, hweights]
  cases s.quadratic.regionValue? s.partition s.x s.residual with
  | error e => rfl
  | ok value =>
      cases s.targetWeight? with
      | none => exact congrArg Except.ok (add_zero _).symm
      | some w =>
          have hexpand := expand?_eq_ok hsize (hP.assignment_lt hassigns)
          have hdistance : (Vec.total (s.partition.expand x).size fun v =>
                w v * Scalar.abs (Vec.entry (s.partition.expand x) v - s.target v)) =
              Vec.total (s.partition.expand x).size fun v =>
                Vec.entry (Vec.tabulate s.vertexCount w) v *
                  Scalar.abs (Vec.entry (s.partition.expand x) v -
                    Vec.entry s.problem.targets v) := by
            rw [Vec.total_eq, Vec.total_eq, hexpanded]
            apply Finset.sum_congr rfl
            intro v hv
            rw [Finset.mem_range] at hv
            rw [Vec.entry_tabulate, if_pos hv, targets_problem hv]
          rw [hx]
          refine bind_eq_ok.mpr ⟨value, rfl, bind_eq_ok.mpr ⟨variation, rfl, bind_eq_ok.mpr
            ⟨x, rfl, bind_eq_ok.mpr ⟨_, hexpand, ?_⟩⟩⟩⟩
          rw [hdistance]
          rfl

/-- A solver whose terms fit its graph, with one value for each region of a coherent partition. The
weights of the graph of the regions are up to date, and so is the residual of a direct term. -/
structure IsValued (s : Solver K) (x : Vec K) : Prop extends s.HasResidual x where
  partition : s.partition.IsCoherent
  assigns : s.AssignsVertices
  reducedWeights : s.partition.HasReducedWeights
  symmetric : s.quadratic.IsSymmetric

namespace IsValued

/-- The graph of the regions has the variation of the expanded iterate. -/
theorem graphVariation?_eq_ok (h : s.IsValued x) :
    s.graphVariation? = .ok (s.problem.variation (s.partition.expand x)) :=
  graphVariation?_eq_variation h.partition h.reducedWeights h.iterate h.iterate_size

/-- The objective from the values of the regions is that of the expanded iterate. -/
theorem objective?_eq_ok (h : s.IsValued x) :
    s.objective? = .ok (s.problem.objective (s.partition.expand x)) := by
  have hquadratic : s.quadratic.regionValue? s.partition s.x s.residual =
      .ok (s.quadratic.valueAt (s.partition.expand x)) := by
    rw [h.iterate]
    exact h.fits.regionValue?_eq_ok h.symmetric h.partition.toIsArranged h.partition.isIndexed
      h.iterate_size h.residual
  rw [objective?_eq_map h.partition.toIsConsistent h.assigns h.iterate h.iterate_size
    h.graphVariation?_eq_ok, hquadratic]
  rfl

end IsValued
end TotalVariation.Solver
