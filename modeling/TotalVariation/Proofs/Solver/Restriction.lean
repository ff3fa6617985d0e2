import Mathlib
import TotalVariation.Proofs.Partition.Reduced
import TotalVariation.Proofs.Quadratic.Restriction
import TotalVariation.Proofs.Solver.Slope

/-! # The problem over the regions

The problem that is solved over the regions is the restriction of the problem on the vertices to the
vectors that are constant on the regions, as long as the targets are. Up to a constant it has the
same objective, and it has the same feasible points.
-/

namespace TotalVariation

open TotalVariation.Partition TotalVariation.Bound

namespace Median

variable {α : Type} [Scalar α]

theorem position_lt (weights : Option (Vec α)) {idx : List Nat} (h : idx ≠ []) :
    position weights idx < idx.length := by
  have hpos : 0 < idx.length := List.length_pos_iff.mpr h
  cases weights with
  | none => exact Nat.div_lt_self hpos one_lt_two
  | some w =>
      have hle : position (some w) idx ≤ (idx.map (Vec.entry w)).length - 1 := Nat.min_le_right _ _
      rw [List.length_map] at hle
      omega

/-- The median of a sorted list is one of its values. -/
theorem exists_ofSorted_eq (values : Vec α) (weights : Option (Vec α)) {idx : List Nat}
    (h : idx ≠ []) : ∃ v ∈ idx, ofSorted values weights idx = Vec.entry values v := by
  have hlt := position_lt weights h
  refine ⟨idx[position weights idx], List.getElem_mem hlt, ?_⟩
  rw [ofSorted, List.getD_eq_getElem _ _ hlt]

end Median

namespace Solver

open Step

section Handed

variable {α : Type} [Scalar α]

/-- The problem that a solution over the regions hands to its method. -/
def handedProblem (s : Solver α) (premultiply : Bool) : Problem α :=
  s.sorted.regionProblem (s.quadratic.reduce s.partition premultiply).1 s.regionWeights?
    s.regionTargets?

theorem sorted_frame (s : Solver α) :
    s.sorted.partition.assignment = s.partition.assignment ∧
      s.sorted.partition.active = s.partition.active ∧
      s.sorted.partition.reducedEdges = s.partition.reducedEdges ∧
      s.sorted.partition.reducedWeights = s.partition.reducedWeights ∧
      List.Forall₂ List.Perm s.sorted.partition.regions s.partition.regions := by
  obtain hsorted | ⟨targets, -, hsorted⟩ := s.sorted_cases
  · rw [hsorted]
    exact ⟨rfl, rfl, rfl, rfl, List.forall₂_same.mpr fun vs _ => List.Perm.refl vs⟩
  · rw [hsorted]
    exact ⟨rfl, rfl, rfl, rfl, s.forall₂_perm_regionMedians targets⟩

end Handed

variable {K : Type} [ExactField K] {s : Solver K}

/-- A solver on a consistent partition with an up to date graph of the regions, whose terms fit the
graph and whose targets are constant on the regions. A common weight of targets is not negative. -/
structure IsReducible (s : Solver K) : Prop where
  consistent : s.partition.IsConsistent
  reducedGraph : s.partition.HasReducedGraph
  reducedWeights : s.partition.HasReducedWeights
  fits : s.quadratic.Fits s.vertexCount
  symmetric : s.quadratic.IsSymmetric
  targetWeight_nonneg : s.targetWeights.each = none → 0 ≤ s.targetWeights.common
  targets_eq : ∀ targets, s.targets = some targets → ∀ u < s.vertexCount, ∀ v < s.vertexCount,
    s.partition.regionOf u = s.partition.regionOf v → Vec.entry targets u = Vec.entry targets v

/-! ## Weights and targets of the regions -/

/-- The weight of a region is the total weight of its vertices. -/
theorem IsReducible.entry_regionWeights (h : s.IsReducible) {w : Vec K}
    (hw : s.regionWeights? = some w) {r : Nat} (hr : r < s.partition.regionCount) :
    Vec.entry w r = ∑ v ∈ s.partition.members r, s.penalty v := by
  unfold regionWeights? at hw
  unfold penalty targetWeight?
  cases heach : s.targetWeights.each with
  | some each =>
      simp only [heach, Option.some.injEq] at hw ⊢
      rw [← hw, s.partition.entry_regionSums each hr]
      rfl
  | none =>
      simp only [heach] at hw ⊢
      split at hw
      next => cases hw
      next hne =>
        obtain rfl := Option.some.inj hw
        rw [Scalar.same_iff] at hne
        have hpos : 0 < s.targetWeights.common :=
          lt_of_le_of_ne (h.targetWeight_nonneg heach) fun hzero => hne hzero.symm
        have hsize : Vec.entry (s.partition.sizeVec (α := K)) r = (s.partition.sizeOf r : K) := by
          rw [sizeVec, Vec.entry_tabulate, if_pos hr]
        rw [Vec.entry_map (mul_zero _), hsize, if_pos hpos, h.consistent.sizeOf_eq hr]
        simp [mul_comm]

theorem penalty_eq_zero (hw : s.regionWeights? = none) (v : Nat) : s.penalty v = 0 := by
  unfold regionWeights? at hw
  unfold penalty targetWeight?
  cases heach : s.targetWeights.each with
  | some each =>
      rw [heach] at hw
      cases hw
  | none =>
      simp only [heach] at hw ⊢
      split at hw
      next hzero =>
        rw [(Scalar.same_iff _ _).mp hzero, if_neg (lt_irrefl 0)]
        rfl
      next => cases hw

/-- The median over a region on which the targets are constant is their common value. -/
theorem IsReducible.regionMedian_eq (h : s.IsReducible) {targets : Vec K}
    (htargets : s.targets = some targets) {r v : Nat} (hr : r < s.partition.regionCount)
    (hv : v ∈ s.partition.members r) : (s.regionMedian targets r).1 = Vec.entry targets v := by
  have hnonempty := h.consistent.toIsArranged.region_ne_nil' hr
  -- both ways of finding the median answer the target of some vertex of the region
  have hmedian : ∃ u ∈ s.partition.region r,
      (s.regionMedian targets r).1 = Vec.entry targets u := by
    unfold regionMedian
    split
    next => exact Median.exists_ofSorted_eq targets _ hnonempty
    next =>
      have hperm := Median.sortByValue_perm targets (s.partition.region r)
      have hsorted : Median.sortByValue targets (s.partition.region r) ≠ [] :=
        fun hnil => hnonempty (List.nil_perm.mp (hnil ▸ hperm))
      obtain ⟨u, hu, heq⟩ := Median.exists_ofSorted_eq targets s.targetWeights.each hsorted
      exact ⟨u, hperm.mem_iff.mp hu, heq⟩
  obtain ⟨u, hu, heq⟩ := hmedian
  obtain ⟨hult, huregion⟩ := mem_members.mp ((h.consistent.mem_region_iff hr).mp hu)
  obtain ⟨hvlt, hvregion⟩ := mem_members.mp hv
  rw [heq, h.targets_eq targets htargets u hult v hvlt (huregion.trans hvregion.symm)]

/-- Where there are weights, the target of a region is that of its vertices. -/
theorem IsReducible.entry_targets (h : s.IsReducible) {w : Vec K} (hw : s.regionWeights? = some w)
    (premultiply : Bool) {r v : Nat} (hr : r < s.partition.regionCount)
    (hv : v ∈ s.partition.members r) :
    Vec.entry (s.handedProblem premultiply).targets r = s.target v := by
  have hhanded : (s.handedProblem premultiply).targets =
      s.regionTargets?.getD (Vec.constant s.sorted.partition.regionCount 0) := rfl
  rw [hhanded, regionTargets?, hw, target]
  cases htargets : s.targets with
  | none => simp [Vec.entry_constant]
  | some targets =>
      have hmedian := h.regionMedian_eq htargets hr hv
      simpa [Vec.entry, regionMedians, hr] using hmedian

/-- The distance to the targets over the regions is that over the vertices. -/
theorem IsReducible.sum_penalty (h : s.IsReducible) (premultiply : Bool) (x : Nat → K) :
    ∑ r ∈ Finset.range s.partition.regionCount, (s.handedProblem premultiply).penalty r *
        |x r - Vec.entry (s.handedProblem premultiply).targets r| =
      ∑ v ∈ Finset.range s.partition.vertexCount,
        s.penalty v * |x (s.partition.regionOf v) - s.target v| := by
  rw [← h.consistent.sum_members h.consistent.isIndexed]
  apply Finset.sum_congr rfl
  intro r hr
  rw [Finset.mem_range] at hr
  have hpenalty : (s.handedProblem premultiply).penalty r =
      (s.regionWeights?.map (Vec.entry · r)).getD 0 := rfl
  rw [hpenalty]
  cases hw : s.regionWeights? with
  | none => simp [penalty_eq_zero hw]
  | some w =>
      rw [Option.map_some, Option.getD_some, h.entry_regionWeights hw hr, Finset.sum_mul]
      apply Finset.sum_congr rfl
      intro v hv
      rw [h.entry_targets hw premultiply hr hv, (mem_members.mp hv).2]

/-! ## The restriction -/

theorem IsReducible.objective_handedProblem (h : s.IsReducible) (premultiply : Bool) {x : Vec K}
    (hx : x.size = s.partition.regionCount) :
    (s.handedProblem premultiply).objective x +
        (s.quadratic.offset - (s.quadratic.reduce s.partition premultiply).1.offset) =
      s.problem.objective (s.partition.expand x) := by
  have hsize : (s.handedProblem premultiply).size = s.partition.regionCount :=
    size_reduce s.quadratic s.partition premultiply
  have hvertices : s.problem.size = s.partition.vertexCount := h.fits.size_eq
  have hexpand : ∀ v < s.partition.vertexCount,
      Vec.entry (s.partition.expand x) v = Vec.entry x (s.partition.regionOf v) :=
    fun v hv => s.partition.entry_expand x hv
  have hquadratic := h.fits.valueAt_reduce h.consistent.toIsArranged h.consistent.isIndexed
    h.symmetric premultiply hx
  have hvariation : ∑ k ∈ Finset.range (s.handedProblem premultiply).edges.size,
        Vec.entry (s.handedProblem premultiply).edgeWeights k *
          |Vec.entry x ((s.handedProblem premultiply).edgeFrom k) -
            Vec.entry x ((s.handedProblem premultiply).edgeTo k)| =
      ∑ e ∈ Finset.range s.problem.edges.size, Vec.entry s.problem.edgeWeights e *
        |Vec.entry (s.partition.expand x) (s.problem.edgeFrom e) -
          Vec.entry (s.partition.expand x) (s.problem.edgeTo e)| := by
    obtain ⟨-, -, hedges, hweights, -⟩ := s.sorted_frame
    -- edges inside a region have no variation, and the others add up along the reduced edges
    have hsum := sum_edges_eq h.reducedGraph h.reducedWeights
      (f := fun a b => |Vec.entry x a - Vec.entry x b|) (fun a b => abs_sub_comm _ _)
      fun a => by rw [sub_self, abs_zero]
    have hhandedEdges : (s.handedProblem premultiply).edges = s.partition.reducedEdges := hedges
    have hhandedWeights : (s.handedProblem premultiply).edgeWeights = s.partition.reducedWeights :=
      hweights
    have hhandedFrom (k : Nat) : (s.handedProblem premultiply).edgeFrom k =
        (s.partition.reducedEdges.getD k (0, 0)).1 := by rw [Problem.edgeFrom, hhandedEdges]
    have hhandedTo (k : Nat) : (s.handedProblem premultiply).edgeTo k =
        (s.partition.reducedEdges.getD k (0, 0)).2 := by rw [Problem.edgeTo, hhandedEdges]
    simp only [hhandedEdges, hhandedWeights, hhandedFrom, hhandedTo]
    rw [hsum, size_edges_problem]
    apply Finset.sum_congr rfl
    intro e he
    rw [Finset.mem_range] at he
    obtain ⟨hfrom, hto⟩ := edges_problem he
    rw [edgeWeights_problem he, hfrom, hto, hexpand _ (h.consistent.graph_valid.tail_lt e he),
      hexpand _ (h.consistent.graph_valid.head_lt e he)]
  have hdistance : ∑ v ∈ Finset.range s.problem.size, s.problem.penalty v *
        |Vec.entry (s.partition.expand x) v - Vec.entry s.problem.targets v| =
      ∑ v ∈ Finset.range s.partition.vertexCount,
        s.penalty v * |Vec.entry x (s.partition.regionOf v) - s.target v| := by
    rw [hvertices]
    apply Finset.sum_congr rfl
    intro v hv
    rw [Finset.mem_range] at hv
    rw [penalty_problem hv, targets_problem hv, hexpand v hv]
  rw [Problem.objective_eq _ (hx.trans hsize.symm), Problem.objective_eq _
    ((s.partition.size_expand x).trans hvertices.symm), hvariation, hdistance, hsize,
    h.sum_penalty premultiply (Vec.entry x)]
  have hreduced : (s.handedProblem premultiply).quadratic =
    (s.quadratic.reduce s.partition premultiply).1 := rfl
  have hfull : s.problem.quadratic = s.quadratic := rfl
  rw [hreduced, hfull, ← hquadratic]
  ring

theorem IsReducible.isFeasible_handedProblem (h : s.IsReducible) (premultiply : Bool) (x : Vec K) :
    (s.handedProblem premultiply).isFeasible x = true ↔
      s.problem.isFeasible (s.partition.expand x) = true := by
  obtain ⟨hassignment, hactive, -, -, hperm⟩ := s.sorted_frame
  have hsame := s.sameSettings_sorted
  -- the bounds are combined after sorting, which leaves the members of the regions as they are
  have hconsistent : s.sorted.partition.IsConsistent :=
    h.consistent.of_perm hsame.graph hactive hassignment hperm
  have hcount : s.sorted.partition.regionCount = s.partition.regionCount := hperm.length_eq
  have hvertexCount : s.sorted.partition.vertexCount = s.partition.vertexCount :=
    congrArg ForwardStar.vertices hsame.graph
  have hmembers (r : Nat) : s.sorted.partition.members r = s.partition.members r := by
    ext v
    rw [mem_members, mem_members, hvertexCount, regionOf, hassignment]
    rfl
  have hsize : (s.handedProblem premultiply).size = s.partition.regionCount :=
    size_reduce s.quadratic s.partition premultiply
  have hvertices : s.problem.size = s.partition.vertexCount := h.fits.size_eq
  have hregion : ∀ r < s.partition.regionCount,
      (IsBetween ((s.handedProblem premultiply).lowerAt r)
          ((s.handedProblem premultiply).upperAt r) (Vec.entry x r) ↔
        ∀ v ∈ s.partition.members r, IsBetween (boundAt s.lower v) (boundAt s.upper v)
          (Vec.entry x r)) := by
    intro r hr
    have hlow := isTightest_region tightens_maxLower hconsistent (hcount.symm ▸ hr) s.sorted.lower
    have hupp := isTightest_region tightens_minUpper hconsistent (hcount.symm ▸ hr) s.sorted.upper
    rw [← hmembers, ← hsame.lower, ← hsame.upper]
    exact hlow.isBetween_iff hupp
  rw [Problem.isFeasible_iff, Problem.isFeasible_iff, hsize, hvertices]
  constructor
  · intro hx v hv
    have hr := h.consistent.regionOf_lt hv
    rw [problem_lowerAt s hv, problem_upperAt s hv, s.partition.entry_expand x hv]
    exact (hregion _ hr).mp (hx _ hr) v (mem_members.mpr ⟨hv, rfl⟩)
  · intro hx r hr
    refine (hregion r hr).mpr fun v hv => ?_
    obtain ⟨hlt, heq⟩ := mem_members.mp hv
    have hbetween := hx v hlt
    rwa [problem_lowerAt s hlt, problem_upperAt s hlt, s.partition.entry_expand x hlt, heq]
      at hbetween

/-- Where the quadratic term fits the graph, a solution over the regions can only fail at an earlier
iterate that does not cover the regions, or in its method. -/
theorem chosenSolution_answers_iff (hfits : s.quadratic.Fits s.vertexCount) {solve : InnerMethod K}
    {premultiply : Bool} : (chosenSolution solve s premultiply).Answers s () t ↔
    ∃ init y iterations, s.sorted.warmStart? = .ok init ∧
      solve s.inner s.innerTolerance (s.handedProblem premultiply) init = .ok (y, iterations) ∧
      t = { s.sorted with
        x := some y
        innerIterations := iterations
        residual := solvedResidual s.sorted.quadratic (s.quadratic.reduce s.partition premultiply).2 y
          s.sorted.residual } := by
  have hsame := s.sameSettings_sorted
  have htolerance : s.sorted.innerTolerance = s.innerTolerance := by
    rw [innerTolerance, hsame.inner, hsame.tolerance, innerTolerance]
  rw [chosenSolution, solutionWith, hfits.reduce?_eq_ok, answers_lift_bind]
  constructor
  · rintro ⟨_, ⟨⟩, h⟩
    obtain ⟨⟨w, m⟩, s₁, htargets, h⟩ := answers_bind.mp h
    obtain ⟨⟨rfl, rfl⟩, rfl⟩ := regionTargets_answers.mp htargets
    rw [answers_get_bind, answers_lift_bind] at h
    obtain ⟨init, hinit, h⟩ := h
    obtain ⟨⟨y, iterations⟩, hsolve, h⟩ := answers_lift_bind.mp h
    rw [answers_modify_bind] at h
    rw [hsame.inner, htolerance] at hsolve
    exact ⟨init, y, iterations, hinit, hsolve, storeResidual_answers.mp h⟩
  · rintro ⟨init, y, iterations, hinit, hsolve, heq⟩
    refine ⟨_, rfl, answers_bind.mpr
      ⟨_, _, regionTargets_answers.mpr ⟨⟨rfl, rfl⟩, rfl⟩, ?_⟩⟩
    rw [answers_get_bind, answers_lift_bind]
    refine ⟨init, hinit, answers_lift_bind.mpr ⟨(y, iterations), ?_, ?_⟩⟩
    · rwa [hsame.inner, htolerance]
    · rw [answers_modify_bind]
      exact storeResidual_answers.mpr heq

/-- A solution over the regions answers what its method answers on the problem handed to it. -/
theorem reducedSolution_iff (hfits : s.quadratic.Fits s.vertexCount) (solve : InnerMethod K)
    (y : Vec K) (iterations : Nat) :
    (∃ t, (reducedSolution solve).Answers s () t ∧ t.x = some y ∧
        t.innerIterations = iterations) ↔
      ∃ premultiply init, s.premultiplies? = .ok premultiply ∧ s.sorted.warmStart? = .ok init ∧
        solve s.inner s.innerTolerance (s.handedProblem premultiply) init =
          .ok (y, iterations) := by
  simp only [reducedSolution_answers_iff, chosenSolution_answers_iff hfits]
  constructor
  · rintro ⟨_, ⟨premultiply, hpremultiply, init, y', n, hinit, hsolve, rfl⟩, hy, hn⟩
    obtain rfl := Option.some.inj hy
    obtain rfl := Int.ofNat.inj hn
    exact ⟨premultiply, init, hpremultiply, hinit, hsolve⟩
  · rintro ⟨premultiply, init, hpremultiply, hinit, hsolve⟩
    exact ⟨_, ⟨premultiply, hpremultiply, init, y, iterations, hinit, hsolve, rfl⟩, rfl, rfl⟩

/-- Whether premultiplied or not, the problem handed to the method of the regions is the restriction
of the problem on the vertices to the vectors that are constant on the regions. -/
theorem IsReducible.handedProblem_restricts (h : s.IsReducible) :
    (∀ premultiply, ∃ constant, ∀ x : Vec K, x.size = s.partition.regionCount →
      (s.handedProblem premultiply).objective x + constant =
          s.problem.objective (s.partition.expand x) ∧
        ((s.handedProblem premultiply).isFeasible x = true ↔
          s.problem.isFeasible (s.partition.expand x) = true)) ∧
      ∀ (solve : InnerMethod K) (y : Vec K) (iterations : Nat),
        (∃ t, (reducedSolution solve).Answers s () t ∧ t.x = some y ∧
            t.innerIterations = iterations) ↔
          ∃ premultiply init, s.premultiplies? = .ok premultiply ∧
            s.sorted.warmStart? = .ok init ∧
            solve s.inner s.innerTolerance (s.handedProblem premultiply) init =
              .ok (y, iterations) := by
  constructor
  · intro premultiply
    refine ⟨s.quadratic.offset - (s.quadratic.reduce s.partition premultiply).1.offset,
      fun x hx => ⟨?_, ?_⟩⟩
    · exact h.objective_handedProblem premultiply hx
    · exact h.isFeasible_handedProblem premultiply x
  · exact reducedSolution_iff h.fits

/-- Three vertices in a row, the last in a region of its own, with bounds that the first region has
to combine. -/
def boundedPath : Solver ℚ :=
  { ofPartition (((Partition.whole ⟨#[0, 1, 2, 2], #[0, 1], #[1, 2]⟩ ⟨some #[1, 3], 0⟩).setActive
      [1] true).rebuild.reduceGraph) with
    quadratic := .gram ⟨3, 3, #[#[2, 1, 0], #[1, 2, 0], #[0, 0, 1]]⟩ (some #[1, 2, 3])
    targetWeights := ⟨some #[1, 2, 4], 0⟩
    targets := some #[5, 5, 7]
    lower := ⟨some #[some 0, some 1, none], none⟩
    upper := ⟨some #[some 6, none, some 8], none⟩ }

theorem isReducible_boundedPath : boundedPath.IsReducible := by
  have hpath : Partition.ofIndex? #[0, 1, 2, 2] #[1, 2] (some #[1, 3]) (0 : ℚ) =
      .ok (.whole ⟨#[0, 1, 2, 2], #[0, 1], #[1, 2]⟩ ⟨some #[1, 3], 0⟩) := by
    with_unfolding_all rfl
  have harranged := (Partition.isArranged_of_ofIndex? hpath).setActive [1] true
  exact {
    consistent := harranged.rebuild_reduceGraph
    reducedGraph := harranged.hasReducedGraph
    reducedWeights := harranged.hasReducedWeights
    fits := ⟨rfl, rfl, by rintro l ⟨⟩; rfl⟩
    symmetric := by
      change ∀ i < 3, ∀ j < 3, _
      decide +kernel
    targetWeight_nonneg := by rintro ⟨⟩
    targets_eq := by
      rintro targets ⟨⟩
      change ∀ u < 3, ∀ v < 3, _
      decide +kernel }

theorem handedProblem_restricts_boundedPath :
    ∃ constant, ∀ x : Vec ℚ, x.size = 2 →
      (boundedPath.handedProblem true).objective x + constant =
          boundedPath.problem.objective (boundedPath.partition.expand x) ∧
        ((boundedPath.handedProblem true).isFeasible x = true ↔
          boundedPath.problem.isFeasible (boundedPath.partition.expand x) = true) := by
  obtain ⟨constant, hconstant⟩ := isReducible_boundedPath.handedProblem_restricts.1 true
  have hcount : boundedPath.partition.regionCount = 2 := by decide +kernel
  exact ⟨constant, fun x hx => hconstant x (hx.trans hcount.symm)⟩

end Solver
end TotalVariation
