import Mathlib
import TotalVariation.Proofs.Failure
import TotalVariation.Proofs.Partition.Cuts
import TotalVariation.Proofs.Problem.Slope
import TotalVariation.Proofs.Quadratic.Region
import TotalVariation.Proofs.Solver.Feasible
import TotalVariation.Solver.Split

/-! # The slope at the iterate

At an iterate whose boundaries join different values the objective is smooth but for the open edges
and the targets that vertices stand at. The gradient of the smooth part, with prices for leaving
the targets, therefore gives the slope of the objective along every direction. No convexity is
needed, and the regions may be unconnected.
-/

namespace TotalVariation

variable {K : Type} [ExactField K]

namespace Vec

/-- Values added at places in turn. -/
theorem entry_foldl_modify (xs : List Nat) (place : Nat → Nat) (value : Nat → K) (g : Vec K)
    {v : Nat} (hv : v < g.size) :
    entry (xs.foldl (fun g e => g.modify (place e) (· + value e)) g) v =
      entry g v + (xs.map fun e => if place e = v then value e else 0).sum := by
  induction xs generalizing g with
  | nil => simp
  | cons e xs ih =>
      have hmodify : entry (g.modify (place e) (· + value e)) v =
          entry g v + if place e = v then value e else 0 := by
        simp only [entry, Array.getD_eq_getD_getElem?, Array.getElem?_modify,
          Array.getElem?_eq_getElem hv]
        split <;> simp
      rw [List.foldl_cons, ih _ (by simpa using hv), hmodify, List.map_cons, List.sum_cons,
        add_assoc]

theorem size_foldl_modify (xs : List Nat) (place : Nat → Nat) (value : Nat → K) (g : Vec K) :
    (xs.foldl (fun g e => g.modify (place e) (· + value e)) g).size = g.size := by
  induction xs generalizing g with
  | nil => rfl
  | cons e xs ih => rw [List.foldl_cons, ih, Array.size_modify]

end Vec

namespace Partition

variable {P : Partition K}

/-- The known boundaries as a set. -/
def closedEdges (P : Partition K) : Finset Nat :=
  {e ∈ Finset.range P.edgeCount | P.isActive e = true}

theorem sum_activeEdges (P : Partition K) (f : Nat → K) :
    (P.activeEdges.map f).sum = ∑ e ∈ P.closedEdges, f e := by
  have hnodup : P.activeEdges.Nodup := List.nodup_range.filter _
  rw [← List.sum_toFinset f hnodup]
  refine Finset.sum_congr (Finset.ext fun e => ?_) fun _ _ => rfl
  simp [activeEdges, closedEdges]

theorem sum_openEdges_add_closedEdges (P : Partition K) (f : Nat → K) :
    ∑ e ∈ P.openEdges, f e + ∑ e ∈ P.closedEdges, f e = ∑ e ∈ Finset.range P.edgeCount, f e := by
  have hclosed : P.closedEdges =
      {e ∈ Finset.range P.edgeCount | ¬P.isActive e = false} := by
    simp [closedEdges]
  rw [hclosed, openEdges, Finset.sum_filter_add_sum_filter_not]

end Partition

namespace Solver

/-- A solver with values, without negative weights of edges. -/
structure HoldsValues (s : Solver K) (x : Vec K) : Prop where
  iterate : s.x = some x
  edgeWeights_nonneg : ∀ e < s.partition.edgeCount, 0 ≤ s.partition.weight e

/-- A solver with values on a consistent partition, without negative weights of edges: all that the
cuts of a region depend on. -/
structure IsCuttable (s : Solver K) (x : Vec K) : Prop extends s.HoldsValues x where
  consistent : s.partition.IsConsistent

/-- A solver with one value for each region, and a quadratic term that fits the graph. -/
structure IsFitted (s : Solver K) (x : Vec K) : Prop where
  iterate : s.x = some x
  iterate_size : x.size = s.partition.regionCount
  fits : s.quadratic.Fits s.vertexCount

/-- A direct quadratic term has the residual of the values. -/
structure HasResidual (s : Solver K) (x : Vec K) : Prop extends s.IsFitted x where
  residual : ∀ A y, s.quadratic = .direct A y →
    s.residual = some (Quadratic.residualOf A y (s.partition.expand x))

/-- Boundaries join different values. -/
structure IsStepped (s : Solver K) (x : Vec K) : Prop extends s.HasResidual x where
  assignment_lt : ∀ r ∈ s.partition.assignment, r < s.partition.regionCount
  distinct : ∀ e < s.partition.edgeCount, s.partition.isActive e = true →
    Vec.entry x (s.partition.regionOf (s.partition.graph.tailOf e)) ≠
      Vec.entry x (s.partition.regionOf (s.partition.graph.headOf e))

/-- A solver with an iterate on the regions of a consistent partition, of which no region is known
to be solved. Boundaries join different values, and a direct quadratic term has its residual. -/
structure IsReady (s : Solver K) (x : Vec K) : Prop extends s.IsCuttable x, s.IsStepped x where
  saturated_size : s.partition.saturated.size = s.partition.regionCount
  unsaturated : ∀ r < s.partition.regionCount, s.partition.isSaturated r = false
  convex : s.quadratic.IsConvex
  targetWeights_nonneg : ∀ w, s.targetWeight? = some w → ∀ v < s.vertexCount, 0 ≤ w v

/-- A solver with an iterate on the regions of an arranged partition, of which the boundaries are
the edges between regions and join different values. A direct quadratic term has its residual. -/
structure IsParted (s : Solver K) (x : Vec K) : Prop extends s.IsStepped x where
  arranged : s.partition.IsArranged
  indexed : s.partition.IsIndexed
  isActive_iff : ∀ e < s.partition.edgeCount, s.partition.isActive e = true ↔
    s.partition.regionOf (s.partition.graph.tailOf e) ≠
      s.partition.regionOf (s.partition.graph.headOf e)
  symmetric : s.quadratic.IsSymmetric

variable {s : Solver K} {x slope : Vec K}

theorem IsReady.isParted (h : s.IsReady x) : s.IsParted x :=
  ⟨h.toIsStepped, h.consistent.toIsArranged, h.consistent.isIndexed, h.consistent.isActive_iff,
    h.convex.isSymmetric⟩

/-! ## The problem on the vertices -/

/-- The weight of the target of a vertex, zero if there are no targets. -/
def penalty (s : Solver K) (v : Nat) : K := (s.targetWeight?.map (· v)).getD 0

theorem penalty_problem {v : Nat} (hv : v < s.vertexCount) : s.problem.penalty v = s.penalty v := by
  rw [Problem.penalty, Problem.targetWeightAt, penalty, problem]
  cases s.targetWeight? with
  | none => rfl
  | some w => simp [Vec.entry_tabulate, hv]

theorem targets_problem {v : Nat} (hv : v < s.vertexCount) :
    Vec.entry s.problem.targets v = s.target v := by
  rw [problem, Vec.entry_tabulate, if_pos hv]

theorem edgeWeights_problem {e : Nat} (he : e < s.partition.edgeCount) :
    Vec.entry s.problem.edgeWeights e = s.partition.weight e := by
  rw [problem, Partition.weights, Vec.entry_tabulate, if_pos he]

theorem edges_problem {e : Nat} (he : e < s.partition.edgeCount) :
    s.problem.edgeFrom e = s.partition.graph.tailOf e ∧
      s.problem.edgeTo e = s.partition.graph.headOf e := by
  simp [Problem.edgeFrom, Problem.edgeTo, problem, Vec.tabulate, he]

theorem size_edges_problem : s.problem.edges.size = s.partition.edgeCount :=
  Vec.size_tabulate _ _

/-- A problem whose quadratic term fits the graph and is symmetric can be expanded. -/
theorem isExpandable_problem (hgraph : s.partition.graph.IsValid)
    (hfits : s.quadratic.Fits s.vertexCount) (hsymmetric : s.quadratic.IsSymmetric) :
    s.problem.IsExpandable where
  fits := by
    have hsize : s.problem.size = s.vertexCount := hfits.size_eq
    exact hsize.symm ▸ hfits
  symmetric := hsymmetric
  ends_lt := by
    intro e he
    have hsize : s.problem.size = s.vertexCount := hfits.size_eq
    rw [size_edges_problem] at he
    rw [(edges_problem he).1, (edges_problem he).2, hsize]
    exact ⟨hgraph.tail_lt e he, hgraph.head_lt e he⟩

namespace IsReady

theorem size_problem (h : s.IsReady x) : s.problem.size = s.vertexCount := h.fits.size_eq

theorem size_expand (h : s.IsReady x) : (s.partition.expand x).size = s.problem.size :=
  (s.partition.size_expand x).trans h.size_problem.symm

theorem isConvex_problem (h : s.IsReady x) : s.problem.IsConvex where
  fits := h.size_problem.symm ▸ h.fits
  quadratic := h.convex
  ends_lt := (isExpandable_problem h.consistent.graph_valid h.fits h.convex.isSymmetric).ends_lt
  edgeWeights_nonneg := by
    intro e he
    rw [size_edges_problem] at he
    rw [edgeWeights_problem he]
    exact h.edgeWeights_nonneg e he
  penalty_nonneg := by
    intro v hv
    rw [h.size_problem] at hv
    rw [penalty_problem hv, penalty]
    cases hw : s.targetWeight? with
    | none => exact le_rfl
    | some w => exact h.targetWeights_nonneg w hw v hv

end IsReady

/-! ## The gradient of the smooth part -/

/-- What a boundary adds to the slope of its first end: its weight if that end has the larger
value, and its opposite otherwise. -/
def boundaryWeight (P : Partition K) (x : Vec K) (e : Nat) : K :=
  if Vec.entry x (P.graph.headOf e) < Vec.entry x (P.graph.tailOf e) then P.weight e
  else -P.weight e

theorem entry_boundarySlope (P : Partition K) (x g : Vec K) {v : Nat} (hv : v < g.size) :
    Vec.entry (boundarySlope P x g) v = Vec.entry g v +
      ∑ e ∈ P.closedEdges, boundaryWeight P x e *
        (Partition.ones {v} (P.graph.tailOf e) - Partition.ones {v} (P.graph.headOf e)) := by
  have hterm : ∀ e, boundaryWeight P x e *
      (Partition.ones {v} (P.graph.tailOf e) - Partition.ones {v} (P.graph.headOf e)) =
        (if P.graph.tailOf e = v then boundaryWeight P x e else 0) +
          if P.graph.headOf e = v then -boundaryWeight P x e else 0 := by
    intro e
    by_cases htail : P.graph.tailOf e = v <;> by_cases hhead : P.graph.headOf e = v <;>
      simp [Partition.ones, htail, hhead]
  have htails := Vec.entry_foldl_modify P.activeEdges P.graph.tailOf (boundaryWeight P x) g hv
  have hsize := Vec.size_foldl_modify P.activeEdges P.graph.tailOf (boundaryWeight P x) g
  have hheads := Vec.entry_foldl_modify P.activeEdges P.graph.headOf
    (fun e => -boundaryWeight P x e) _ (hsize.symm ▸ hv)
  rw [htails, P.sum_activeEdges, P.sum_activeEdges] at hheads
  simp only [hterm, Finset.sum_add_distrib]
  rw [← add_assoc]
  exact hheads

theorem size_boundarySlope (P : Partition K) (x g : Vec K) :
    (boundarySlope P x g).size = g.size :=
  (Vec.size_foldl_modify _ _ _ _).trans (Vec.size_foldl_modify _ _ _ _)

theorem size_targetSlope (s : Solver K) (x g : Vec K) : (s.targetSlope x g).size = g.size := by
  rw [targetSlope]
  cases s.targetWeight? with
  | none => rfl
  | some w => exact Vec.size_tabulate _ _

theorem entry_targetSlope (s : Solver K) (x g : Vec K) {v : Nat} (hv : v < g.size) :
    Vec.entry (s.targetSlope x g) v =
      Vec.entry g v + s.penalty v * Scalar.sign (Vec.entry x v - s.target v) := by
  rw [targetSlope, penalty]
  cases s.targetWeight? with
  | none => simp
  | some w =>
      dsimp only
      rw [Vec.entry_tabulate, if_pos hv]
      rfl

/-- The slope of the smooth part of the objective at a vertex: that of the quadratic term, of the
boundaries and of the targets that are not met. -/
def smoothSlope (s : Solver K) (x : Vec K) (v : Nat) : K :=
  s.quadratic.slopeAt (s.partition.expand x) v +
    ∑ e ∈ s.partition.closedEdges, boundaryWeight s.partition (s.partition.expand x) e *
      (Partition.ones {v} (s.partition.graph.tailOf e) -
        Partition.ones {v} (s.partition.graph.headOf e)) +
    s.penalty v * Scalar.sign (Vec.entry (s.partition.expand x) v - s.target v)

/-- The gradient is known where the terms fit the graph, the iterate has one value for each region
and a direct term has a residual of the right length. -/
theorem exists_gradient? (hassignment : ∀ r ∈ s.partition.assignment, r < s.partition.regionCount)
    (hx : s.x = some x) (hsize : x.size = s.partition.regionCount)
    (hfits : s.quadratic.Fits s.vertexCount) (hresidual : ∀ A y, s.quadratic = .direct A y →
      ∃ R, s.residual = some R ∧ R.size = A.rows) : ∃ slope, s.gradient? = .ok slope := by
  rw [gradient?, hx]
  exact ⟨_, bind_eq_ok.mpr ⟨_, hfits.regionGradient?_eq hassignment hsize hresidual,
    bind_eq_ok.mpr ⟨_, Partition.expand?_eq_ok hsize hassignment, rfl⟩⟩⟩

/-- Where a direct term has the residual of the iterate the gradient is the slope of the smooth
part. -/
theorem gradient?_eq_ok_of_fits (hP : s.partition.IsArranged) (hindexed : s.partition.IsIndexed)
    (hassignment : ∀ r ∈ s.partition.assignment, r < s.partition.regionCount) (hx : s.x = some x)
    (hsize : x.size = s.partition.regionCount) (hfits : s.quadratic.Fits s.vertexCount)
    (hsymmetric : s.quadratic.IsSymmetric) (hresidual : ∀ A y, s.quadratic = .direct A y →
      s.residual = some (Quadratic.residualOf A y (s.partition.expand x))) :
    ∃ slope, s.gradient? = .ok slope ∧ slope.size = s.vertexCount ∧
      ∀ v < s.vertexCount, Vec.entry slope v = s.smoothSlope x v := by
  obtain ⟨g, hg, hgsize, hentry⟩ :=
    hfits.regionGradient?_eq_ok hsymmetric hP hindexed hassignment hsize hresidual
  have hexpand := Partition.expand?_eq_ok hsize hassignment
  have hboundary := size_boundarySlope s.partition (s.partition.expand x) g
  refine ⟨s.targetSlope (s.partition.expand x)
    (boundarySlope s.partition (s.partition.expand x) g), ?_, ?_, fun v hv => ?_⟩
  · rw [gradient?, hx]
    exact bind_eq_ok.mpr ⟨g, hg, bind_eq_ok.mpr ⟨_, hexpand, rfl⟩⟩
  · rw [size_targetSlope, hboundary, hgsize]
    rfl
  · have hv' : v < g.size := hgsize.symm ▸ hv
    rw [entry_targetSlope s _ _ (hboundary.symm ▸ hv'), entry_boundarySlope _ _ _ hv', hentry v hv,
      smoothSlope]

/-- At a parted solver the gradient is known: the slope of the quadratic term, of the boundaries and
of the targets that are not met. -/
theorem IsParted.gradient?_eq_ok (h : s.IsParted x) : ∃ slope, s.gradient? = .ok slope ∧
    slope.size = s.vertexCount ∧ ∀ v < s.vertexCount, Vec.entry slope v = s.smoothSlope x v :=
  gradient?_eq_ok_of_fits h.arranged h.indexed h.assignment_lt h.iterate h.iterate_size h.fits
    h.symmetric h.residual

/-! ## The slope of the objective -/

/-- The weight of the target of a vertex that stands at it. -/
def kink (s : Solver K) (x : Vec K) (v : Nat) : K :=
  if Vec.entry (s.partition.expand x) v = s.target v then s.penalty v else 0

namespace IsParted

theorem size_problem (h : s.IsParted x) : s.problem.size = s.vertexCount := h.fits.size_eq

theorem sum_ones_singleton (n : Nat) (d : Nat → K) {u : Nat} (hu : u < n) :
    ∑ v ∈ Finset.range n, Partition.ones {v} u * d v = d u := by
  have hterm : ∀ v ∈ Finset.range n, Partition.ones {v} u * d v = if u = v then d v else 0 := by
    intro v _
    simp [Partition.ones]
  rw [Finset.sum_congr rfl hterm, Finset.sum_ite_eq, if_pos (Finset.mem_range.mpr hu)]

theorem entry_eq_of_open (h : s.IsParted x) {e : Nat} (he : e ∈ s.partition.openEdges) :
    Vec.entry (s.partition.expand x) (s.partition.graph.tailOf e) =
      Vec.entry (s.partition.expand x) (s.partition.graph.headOf e) := by
  obtain ⟨hlt, hopen⟩ := Partition.mem_openEdges.mp he
  have hregion := not_not.mp (mt (h.isActive_iff e hlt).mpr (Bool.eq_false_iff.mp hopen))
  rw [s.partition.entry_expand x (h.arranged.graph_valid.tail_lt e hlt),
    s.partition.entry_expand x (h.arranged.graph_valid.head_lt e hlt), hregion]

/-- Along a boundary the slope of the variation is that of its two ends. -/
theorem weight_mul_absSlope (h : s.IsParted x) {e : Nat} (he : e ∈ s.partition.closedEdges) (b : K) :
    s.partition.weight e * absSlope
        (Vec.entry (s.partition.expand x) (s.partition.graph.tailOf e) -
          Vec.entry (s.partition.expand x) (s.partition.graph.headOf e)) b =
      boundaryWeight s.partition (s.partition.expand x) e * b := by
  rw [Partition.closedEdges, Finset.mem_filter, Finset.mem_range] at he
  have hne := h.distinct e he.1 he.2
  rw [← s.partition.entry_expand x (h.arranged.graph_valid.tail_lt e he.1),
    ← s.partition.entry_expand x (h.arranged.graph_valid.head_lt e he.1)] at hne
  rw [absSlope, if_neg (sub_ne_zero.mpr hne), boundaryWeight]
  simp only [sub_pos]
  split <;> ring

/-- A target that is met has a slope in both directions, one that is not met has one slope. -/
theorem penalty_mul_absSlope (s : Solver K) (x : Vec K) (v : Nat) (b : K) :
    s.penalty v * absSlope (Vec.entry (s.partition.expand x) v - s.target v) b =
      s.penalty v * Scalar.sign (Vec.entry (s.partition.expand x) v - s.target v) * b +
        s.kink x v * |b| := by
  by_cases heq : Vec.entry (s.partition.expand x) v = s.target v
  · rw [kink, if_pos heq, heq, sub_self, absSlope_zero, Scalar.sign_eq]
    simp
  · rw [kink, if_neg heq, absSlope_of_ne (sub_ne_zero.mpr heq)]
    ring

/-- The slope of the variation, across the open edges and across the boundaries. -/
theorem sum_absSlope_edges (h : s.IsParted x) (d : Nat → K) :
    ∑ e ∈ Finset.range s.problem.edges.size, Vec.entry s.problem.edgeWeights e *
        absSlope (Vec.entry (s.partition.expand x) (s.problem.edgeFrom e) -
          Vec.entry (s.partition.expand x) (s.problem.edgeTo e))
            (d (s.problem.edgeFrom e) - d (s.problem.edgeTo e)) =
      ∑ e ∈ s.partition.openEdges, s.partition.weight e *
          |d (s.partition.graph.tailOf e) - d (s.partition.graph.headOf e)| +
        ∑ e ∈ s.partition.closedEdges, boundaryWeight s.partition (s.partition.expand x) e *
          (d (s.partition.graph.tailOf e) - d (s.partition.graph.headOf e)) := by
  rw [size_edges_problem]
  calc ∑ e ∈ Finset.range s.partition.edgeCount, _
      = ∑ e ∈ Finset.range s.partition.edgeCount, s.partition.weight e *
          absSlope (Vec.entry (s.partition.expand x) (s.partition.graph.tailOf e) -
            Vec.entry (s.partition.expand x) (s.partition.graph.headOf e))
              (d (s.partition.graph.tailOf e) - d (s.partition.graph.headOf e)) := by
        apply Finset.sum_congr rfl
        intro e he
        rw [Finset.mem_range] at he
        rw [edgeWeights_problem he, (edges_problem he).1, (edges_problem he).2]
    _ = _ := by
        rw [← s.partition.sum_openEdges_add_closedEdges]
        refine congrArg₂ _ (Finset.sum_congr rfl fun e he => ?_)
          (Finset.sum_congr rfl fun e he => h.weight_mul_absSlope he _)
        rw [h.entry_eq_of_open he, sub_self, absSlope_zero]

/-- What the boundaries add to the slopes of the vertices, along a direction. -/
theorem sum_boundaryWeight_mul (h : s.IsParted x) (d : Nat → K) :
    ∑ v ∈ Finset.range s.vertexCount,
        (∑ e ∈ s.partition.closedEdges, boundaryWeight s.partition (s.partition.expand x) e *
          (Partition.ones {v} (s.partition.graph.tailOf e) -
            Partition.ones {v} (s.partition.graph.headOf e))) * d v =
      ∑ e ∈ s.partition.closedEdges, boundaryWeight s.partition (s.partition.expand x) e *
        (d (s.partition.graph.tailOf e) - d (s.partition.graph.headOf e)) := by
  simp only [Finset.sum_mul]
  rw [Finset.sum_comm]
  apply Finset.sum_congr rfl
  intro e he
  rw [Partition.closedEdges, Finset.mem_filter, Finset.mem_range] at he
  rw [← sum_ones_singleton s.vertexCount d (h.arranged.graph_valid.tail_lt e he.1),
    ← sum_ones_singleton s.vertexCount d (h.arranged.graph_valid.head_lt e he.1),
    ← Finset.sum_sub_distrib, Finset.mul_sum]
  exact Finset.sum_congr rfl fun v _ => by ring

/-- The slope of the objective along a direction, from the gradient of the smooth part. -/
theorem slopeAlong_eq (h : s.IsParted x) (hslope : s.gradient? = .ok slope) (d : Nat → K) :
    s.problem.slopeAlong (s.partition.expand x) d =
      ∑ v ∈ Finset.range s.vertexCount, (Vec.entry slope v * d v + s.kink x v * |d v|) +
        ∑ e ∈ s.partition.openEdges, s.partition.weight e *
          |d (s.partition.graph.tailOf e) - d (s.partition.graph.headOf e)| := by
  obtain ⟨g, hg, -, hentry⟩ := h.gradient?_eq_ok
  obtain rfl : g = slope := Except.ok.inj (hg.symm.trans hslope)
  have htargets : ∑ v ∈ Finset.range s.problem.size, s.problem.penalty v *
        absSlope (Vec.entry (s.partition.expand x) v - Vec.entry s.problem.targets v) (d v) =
      ∑ v ∈ Finset.range s.vertexCount,
        (s.penalty v * Scalar.sign (Vec.entry (s.partition.expand x) v - s.target v) * d v +
          s.kink x v * |d v|) := by
    rw [h.size_problem]
    apply Finset.sum_congr rfl
    intro v hv
    rw [Finset.mem_range] at hv
    rw [penalty_problem hv, targets_problem hv, penalty_mul_absSlope]
  have hgradient : ∑ v ∈ Finset.range s.vertexCount, (Vec.entry g v * d v + s.kink x v * |d v|) =
      ∑ v ∈ Finset.range s.vertexCount, s.quadratic.slopeAt (s.partition.expand x) v * d v +
        ∑ v ∈ Finset.range s.vertexCount,
          (∑ e ∈ s.partition.closedEdges, boundaryWeight s.partition (s.partition.expand x) e *
            (Partition.ones {v} (s.partition.graph.tailOf e) -
              Partition.ones {v} (s.partition.graph.headOf e))) * d v +
        ∑ v ∈ Finset.range s.vertexCount,
          (s.penalty v * Scalar.sign (Vec.entry (s.partition.expand x) v - s.target v) * d v +
            s.kink x v * |d v|) := by
    rw [← Finset.sum_add_distrib, ← Finset.sum_add_distrib]
    apply Finset.sum_congr rfl
    intro v hv
    rw [hentry v (Finset.mem_range.mp hv), smoothSlope]
    ring
  rw [Problem.slopeAlong, h.sum_absSlope_edges, htargets, hgradient, h.sum_boundaryWeight_mul,
    h.size_problem]
  have hquadratic : s.problem.quadratic = s.quadratic := rfl
  rw [hquadratic]
  ring

end IsParted
end Solver
end TotalVariation
