import Mathlib
import TotalVariation.Proofs.MedianOrder
import TotalVariation.Proofs.Problem.Threshold
import TotalVariation.Proofs.Solver.Feasible
import TotalVariation.Proofs.Solver.Slope
import TotalVariation.Proofs.Solver.Valued

/-! # The best constant

A connected graph has one component, and for one region the solution is a constant. Along constants
there is no variation, and the objective is a quadratic term and the distances from the targets. If
the targets are one value, this is the function that is thresholded, and the constant found has the
least objective among those between the tightest bounds. If they are not, the distances are taken to
be from their median, and the constant is the best for that.
-/

namespace TotalVariation

variable {K : Type} [ExactField K]

/-! ## Connected graphs -/

namespace ForwardStar

/-- The two ends of each edge. -/
def links (G : ForwardStar) : List (ℕ × ℕ) :=
  (List.range G.edges).map fun e => (G.tailOf e, G.headOf e)

/-- There is a vertex, and a chain of edges joins any two. -/
structure IsConnected (G : ForwardStar) : Prop where
  pos : 0 < G.vertices
  linked : ∀ u < G.vertices, ∀ v < G.vertices, Components.Linked G.links u v

end ForwardStar

namespace Solver

open Step TotalVariation.Partition

omit [ExactField K] in
theorem connected_opened {P : Partition K} (h : P.graph.IsConnected) {u v : ℕ}
    (hu : u < P.vertexCount) (hv : v < P.vertexCount) : (opened P).Connected u v := by
  refine (h.linked u hu v hv).mono fun a b hab => ?_
  obtain ⟨e, he, heq⟩ := List.mem_map.mp hab
  exact List.mem_map.mpr
    ⟨e, mem_inactiveEdges.mpr ⟨List.mem_range.mp he, getD_replicate _ _ e⟩, heq⟩

/-- A connected graph has one component. -/
theorem regionCount_components {P : Partition K} (hP : P.IsArranged) (h : P.graph.IsConnected) :
    (components P).regionCount = 1 := by
  have hopened := isArranged_opened hP
  have hrebuilt := hopened.rebuild
  have hcount : (components P).regionCount = (opened P).rebuild.regionCount := rfl
  have hpos : 0 < (opened P).rebuild.regionCount :=
    (Nat.zero_le _).trans_lt (hopened.rebuild_regionOf_lt h.pos)
  have hmany : ¬1 < (opened P).rebuild.regionCount := by
    intro hone
    obtain ⟨hlt, hregion⟩ := (hopened.mem_rebuild_region hpos _).mp (hrebuilt.representative_mem hpos)
    obtain ⟨hlt', hregion'⟩ :=
      (hopened.mem_rebuild_region hone _).mp (hrebuilt.representative_mem hone)
    have hsame := (hopened.rebuild_regionOf_eq_iff hlt hlt').mpr (connected_opened h hlt hlt')
    rw [hregion, hregion'] at hsame
    cases hsame
  omega

/-! ## Weights of the targets -/

variable {s : Solver K}

/-- The weights of the targets are as many as vertices, and none is negative. -/
structure WeighsTargets (s : Solver K) : Prop where
  size : ∀ w, s.targetWeights.each = some w → w.size = s.vertexCount
  nonneg : ∀ w, s.targetWeights.each = some w → ∀ v < s.vertexCount, 0 ≤ Vec.entry w v
  common_nonneg : s.targetWeights.each = none → 0 ≤ s.targetWeights.common

namespace WeighsTargets

theorem penalty_nonneg (h : s.WeighsTargets) {v : ℕ} (hv : v < s.vertexCount) : 0 ≤ s.penalty v := by
  unfold penalty targetWeight?
  split
  next w heach => exact h.nonneg w heach v hv
  next =>
    split
    next hpos => exact hpos.le
    next => exact le_rfl

/-- The total weight, zero where there are no targets, adds up the weights. -/
theorem totalTargetWeight?_getD (h : s.WeighsTargets) :
    s.totalTargetWeight?.getD 0 = ∑ v ∈ Finset.range s.vertexCount, s.penalty v := by
  unfold totalTargetWeight? penalty targetWeight?
  cases heach : s.targetWeights.each with
  | some w =>
      change Vec.sum w = _
      rw [Vec.sum, Vec.total_eq, h.size w heach]
      rfl
  | none =>
      by_cases hzero : s.targetWeights.common = 0
      · have hsame : Scalar.same (0 : K) 0 = true := (Scalar.same_iff 0 0).mpr rfl
        simp [hzero, hsame]
      · have hsame : Scalar.same s.targetWeights.common 0 = false :=
          Bool.eq_false_iff.mpr (mt (Scalar.same_iff _ _).mp hzero)
        have hpos : 0 < s.targetWeights.common := (h.common_nonneg heach).lt_of_ne' hzero
        simp [hsame, hpos]

theorem penalty_eq_zero (h : s.WeighsTargets) (hnone : s.totalTargetWeight?.isSome = false) {v : ℕ}
    (hv : v < s.vertexCount) : s.penalty v = 0 := by
  have htotal := h.totalTargetWeight?_getD
  rw [Option.isNone_iff_eq_none.mp (Option.isSome_eq_false_iff.mp hnone), Option.getD_none] at htotal
  exact (Finset.sum_eq_zero_iff_of_nonneg fun w hw =>
    h.penalty_nonneg (Finset.mem_range.mp hw)).mp htotal.symm v (Finset.mem_range.mpr hv)

end WeighsTargets

/-! ## One region -/

section OneRegion

variable (hP : s.partition.IsArranged) (hone : s.partition.regionCount = 1)
include hP hone

omit [ExactField K] in
/-- One region lists all vertices. -/
theorem region_zero_perm : (s.partition.region 0).Perm (List.range s.vertexCount) := by
  obtain ⟨vertices, hregions⟩ := List.length_eq_one_iff.mp hone
  have harena := hP.arena_perm
  rw [arena, hregions, List.flatten_singleton] at harena
  rwa [region, hregions]

/-- Where there are targets, the median over the region is that of all targets. -/
theorem isMedian_wholeMedian (hweights : s.WeighsTargets) (hsome : s.totalTargetWeight?.isSome = true)
    {targets : Vec K} (htargets : s.targets = some targets) :
    Median.IsMedian targets s.targetWeights.each (List.range s.vertexCount) s.wholeMedian.1 := by
  have hperm := region_zero_perm hP hone
  have hmedian : Median.IsMedian targets s.targetWeights.each (s.partition.region 0) _ :=
    Median.isMedian_select (hP.region_ne_nil' (hone ▸ Nat.one_pos)) fun w heach v hv =>
      hweights.nonneg w heach v (List.mem_range.mp (hperm.mem_iff.mp hv))
  rw [wholeMedian, hsome, htargets]
  exact hmedian.perm hperm.symm

/-- Targets that are one value, zero if there are none, are their median. -/
theorem sum_penalty_mul (hweights : s.WeighsTargets)
    (hlevel : ∀ targets, s.targets = some targets →
      ∃ c, ∀ v < s.vertexCount, Vec.entry targets v = c) (t : K) :
    ∑ v ∈ Finset.range s.vertexCount, s.penalty v * |t - s.target v| =
      (∑ v ∈ Finset.range s.vertexCount, s.penalty v) * |t - s.wholeMedian.1| := by
  rw [Finset.sum_mul]
  refine Finset.sum_congr rfl fun v hv => ?_
  rw [Finset.mem_range] at hv
  cases hsome : s.totalTargetWeight?.isSome with
  | false => rw [hweights.penalty_eq_zero hsome hv, zero_mul, zero_mul]
  | true =>
      cases htargets : s.targets with
      | none =>
          have hmedian : s.wholeMedian.1 = 0 := by rw [wholeMedian, hsome, htargets]
          rw [hmedian, target, htargets]
      | some targets =>
          obtain ⟨c, hc⟩ := hlevel targets htargets
          obtain ⟨i, hi, hvalue⟩ := (isMedian_wholeMedian hP hone hweights hsome htargets).mem
          have htarget : s.target v = Vec.entry targets v := by rw [target, htargets]
          rw [htarget, hc v hv, ← hvalue, hc i (List.mem_range.mp hi)]

/-- There is a median of all targets, and the one that is selected counts as it does. -/
theorem exists_isMedian (hweights : s.WeighsTargets) {targets : Vec K}
    (htargets : s.targets = some targets) :
    ∃ m, Median.IsMedian targets s.targetWeights.each (List.range s.vertexCount) m ∧
      ∀ t, (∑ v ∈ Finset.range s.vertexCount, s.penalty v) * |t - m| =
        (∑ v ∈ Finset.range s.vertexCount, s.penalty v) * |t - s.wholeMedian.1| := by
  cases hsome : s.totalTargetWeight?.isSome with
  | true => exact ⟨_, isMedian_wholeMedian hP hone hweights hsome htargets, fun t => rfl⟩
  | false =>
      have hne : List.range s.vertexCount ≠ [] := fun hnil =>
        hP.region_ne_nil' (hone ▸ Nat.one_pos) (List.perm_nil.mp (hnil ▸ region_zero_perm hP hone))
      have hzero : ∑ v ∈ Finset.range s.vertexCount, s.penalty v = 0 :=
        Finset.sum_eq_zero fun v hv => hweights.penalty_eq_zero hsome (Finset.mem_range.mp hv)
      refine ⟨_, Median.isMedian_select hne fun w heach v hv =>
        hweights.nonneg w heach v (List.mem_range.mp hv), fun t => ?_⟩
      rw [hzero, zero_mul, zero_mul]

end OneRegion

/-! ## The objective along constants -/

/-- Along constants there is no variation. -/
theorem objective_constant (hgraph : s.partition.graph.IsValid)
    (hfits : s.quadratic.Fits s.vertexCount) (t : K) :
    s.problem.objective (Vec.constant s.vertexCount t) =
      s.quadratic.constantPart.2.1 / 2 * t ^ 2 - s.quadratic.constantPart.1 * t +
        s.quadratic.offset +
        ∑ v ∈ Finset.range s.vertexCount, s.penalty v * |t - s.target v| := by
  have hsize : s.problem.size = s.vertexCount := hfits.size_eq
  have hentry : ∀ v < s.vertexCount, Vec.entry (Vec.constant s.vertexCount t) v = t :=
    fun v hv => by rw [Vec.entry_constant, if_pos hv]
  have hconstant : (Vec.constant s.vertexCount t).size = s.problem.size :=
    Array.size_replicate.trans hsize.symm
  have hedges : ∑ e ∈ Finset.range s.problem.edges.size, Vec.entry s.problem.edgeWeights e *
      |Vec.entry (Vec.constant s.vertexCount t) (s.problem.edgeFrom e) -
        Vec.entry (Vec.constant s.vertexCount t) (s.problem.edgeTo e)| = 0 := by
    refine Finset.sum_eq_zero fun e he => ?_
    rw [Finset.mem_range, size_edges_problem] at he
    obtain ⟨hfrom, hto⟩ := edges_problem he
    rw [hfrom, hto, hentry _ (hgraph.tail_lt e he), hentry _ (hgraph.head_lt e he), sub_self,
      abs_zero, mul_zero]
  have hquadratic : s.problem.quadratic = s.quadratic := rfl
  rw [Problem.objective_eq _ hconstant, hedges, add_zero, hquadratic, hfits.valueAt_constant, hsize]
  congr 1
  refine Finset.sum_congr rfl fun v hv => ?_
  rw [Finset.mem_range] at hv
  rw [penalty_problem hv, targets_problem hv, hentry v hv]

/-! ## The constant that is found -/

/-- The bounds of all vertices allow a value. -/
def Allows (s : Solver K) (t : K) : Prop :=
  ∀ v < s.vertexCount, Bound.IsBetween (boundAt s.lower v) (boundAt s.upper v) t

/-- The terms of a solver fit its graph, no lower bound exceeds an upper one, and along constants
the objective is bounded from below: it has a curvature, or the weights of the targets make up for
its slope. -/
structure HasBestConstant (s : Solver K) : Prop where
  fits : s.quadratic.Fits s.vertexCount
  weights : s.WeighsTargets
  bounded : 0 < s.quadratic.constantPart.2.1 ∨ s.quadratic.constantPart.2.1 = 0 ∧
    |s.quadratic.constantPart.1| ≤ ∑ v ∈ Finset.range s.vertexCount, s.penalty v
  size_lower : ∀ values, s.lower.each = some values → values.size = s.vertexCount
  size_upper : ∀ values, s.upper.each = some values → values.size = s.vertexCount
  uncrossed : ∀ u < s.vertexCount, ∀ v < s.vertexCount,
    Bound.AreUncrossed (boundAt s.lower u) (boundAt s.upper v)

/-- A value that is best among the constants. -/
structure IsBestConstant (s : Solver K) (u : K) : Prop where
  allowed : s.Allows u
  /-- If the targets are one value, no other constant has a smaller objective. -/
  objective_le : (∀ targets, s.targets = some targets →
      ∃ c, ∀ v < s.vertexCount, Vec.entry targets v = c) →
    ∀ t, s.Allows t → s.problem.objective (Vec.constant s.vertexCount u) ≤
      s.problem.objective (Vec.constant s.vertexCount t)
  /-- Whatever the targets are, none is better for the distance from their median. -/
  bowl_le : ∀ targets, s.targets = some targets → ∃ m,
    Median.IsMedian targets s.targetWeights.each (List.range s.vertexCount) m ∧
      ∀ t, s.Allows t →
        bowl s.quadratic.constantPart.1 s.quadratic.constantPart.2.1
            (∑ v ∈ Finset.range s.vertexCount, s.penalty v) m u ≤
          bowl s.quadratic.constantPart.1 s.quadratic.constantPart.2.1
            (∑ v ∈ Finset.range s.vertexCount, s.penalty v) m t

/-- The constant solution answers, and what it answers is a best constant. -/
def FindsBestConstant (s : Solver K) : Prop :=
  ∃ u t, constantSolution.Answers s u t ∧ s.IsBestConstant u

namespace HasBestConstant

/-- The tightest bounds are the largest lower and the smallest upper one, and they allow what all
bounds allow. -/
theorem isBetween_iff (h : s.HasBestConstant) (hpos : 0 < s.vertexCount) :
    Bound.AreUncrossed s.largestLower s.smallestUpper ∧
      ∀ t, Bound.IsBetween s.largestLower s.smallestUpper t ↔ s.Allows t := by
  have hlow := isTightest_whole Bound.tightens_maxLower hpos s.lower h.size_lower
  have hupp := isTightest_whole Bound.tightens_minUpper hpos s.upper h.size_upper
  refine ⟨hlow.areUncrossed hupp fun u hu v hv =>
    h.uncrossed u (Finset.mem_range.mp hu) v (Finset.mem_range.mp hv), fun t => ?_⟩
  refine (hlow.isBetween_iff hupp).trans ⟨fun ht v hv => ht v (Finset.mem_range.mpr hv), ?_⟩
  exact fun ht v hv => ht v (Finset.mem_range.mp hv)

/-- With one region the constant solution finds a best constant. -/
theorem findsBestConstant (h : s.HasBestConstant) (hP : s.partition.IsArranged)
    (hone : s.partition.regionCount = 1) : s.FindsBestConstant := by
  have hpos : 0 < s.vertexCount := by
    have hlength := (region_zero_perm hP hone).length_eq
    rw [List.length_range] at hlength
    exact hlength ▸ List.length_pos_iff.mpr (hP.region_ne_nil' (hone ▸ Nat.one_pos))
  obtain ⟨huncrossed, hallows⟩ := h.isBetween_iff hpos
  have htotal := h.weights.totalTargetWeight?_getD
  have hnonneg : 0 ≤ ∑ v ∈ Finset.range s.vertexCount, s.penalty v :=
    Finset.sum_nonneg fun v hv => h.weights.penalty_nonneg (Finset.mem_range.mp hv)
  obtain ⟨value, hvalue, hmin⟩ := thresholded?_minimises s.wholeMedian.1 hnonneg h.bounded
  have hrun := constantSolution_run s
  rw [htotal, hvalue] at hrun
  have hconvex := convexOn_bowl s.quadratic.constantPart.1 s.wholeMedian.1
    (h.bounded.elim le_of_lt fun hflat => hflat.1.ge) hnonneg
  have hbest : ∀ t, s.Allows t → _ :=
    fun t ht => clamp_minimises hconvex hmin ((hallows t).mpr ht)
  refine ⟨_, _, hrun, (hallows _).mp (Bound.isBetween_clamp huncrossed value), fun hlevel t ht => ?_,
    fun targets htargets => ?_⟩
  · have hle := hbest t ht
    rw [bowl_eq, bowl_eq] at hle
    rw [objective_constant hP.graph_valid h.fits, objective_constant hP.graph_valid h.fits,
      sum_penalty_mul hP hone h.weights hlevel, sum_penalty_mul hP hone h.weights hlevel]
    linarith
  · obtain ⟨m, hmedian, hdistance⟩ := exists_isMedian hP hone h.weights htargets
    refine ⟨m, hmedian, fun t ht => ?_⟩
    have hle := hbest t ht
    rw [bowl_eq, bowl_eq] at hle ⊢
    rwa [hdistance, hdistance]

/-- What a run begins with has the terms of the solver. -/
theorem begun (h : s.HasBestConstant) : s.begun.HasBestConstant :=
  ⟨h.fits, ⟨h.weights.size, h.weights.nonneg, h.weights.common_nonneg⟩, h.bounded, h.size_lower,
    h.size_upper, h.uncrossed⟩

end HasBestConstant

/-- On a connected graph a run begins with one region, and the constant solution finds a best
constant, as it does before a run as long as the graph is one region. -/
theorem findsBestConstant_of_isConnected (hP : s.partition.IsArranged)
    (hconnected : s.partition.graph.IsConnected) (h : s.HasBestConstant) :
    s.begun.partition.regionCount = 1 ∧ s.begun.FindsBestConstant ∧
      (s.partition.regionCount = 1 → s.FindsBestConstant) := by
  have hone : s.begun.partition.regionCount = 1 := regionCount_components hP hconnected
  have hcoherent := isCoherent_components hP
  exact ⟨hone, h.begun.findsBestConstant hcoherent.toIsArranged hone, h.findsBestConstant hP⟩

/-- A path of three vertices whose targets differ, with a lower bound above their median. -/
def raisedPath : Solver ℚ :=
  { ofPartition (.whole ⟨#[0, 1, 2, 2], #[0, 1], #[1, 2]⟩ ⟨none, 1⟩) with
    quadratic := .diagonal #[1, 2, 0] (some #[3, 0, 1])
    targetWeights := ⟨some #[1, 0, 3], 0⟩
    targets := some #[5, 1, 1]
    lower := ⟨some #[some 0, none, some 2], none⟩
    upper := ⟨none, some 7⟩ }

theorem isConnected_raisedPath : raisedPath.partition.graph.IsConnected := by
  have hlinks : ∀ link ∈ raisedPath.partition.graph.links, link.1 < 3 ∧ link.2 < 3 := by decide
  have hlabels : ∀ u < 3, ∀ v < 3,
      Components.labelOf (Components.labels 3 raisedPath.partition.graph.links) u =
        Components.labelOf (Components.labels 3 raisedPath.partition.graph.links) v := by
    decide +kernel
  refine ⟨by decide, fun u hu v hv => ?_⟩
  exact (Components.labelOf_labels_eq_iff hlinks hu hv).mp (hlabels u hu v hv)

theorem hasBestConstant_raisedPath : raisedPath.HasBestConstant where
  fits := ⟨rfl, by rintro _ ⟨⟩; rfl⟩
  weights := by
    refine ⟨by rintro _ ⟨⟩; rfl, ?_, fun _ => le_rfl⟩
    rintro _ ⟨⟩
    change ∀ v < 3, _
    decide +kernel
  bounded := by
    refine .inl ?_
    decide +kernel
  size_lower := by
    rintro _ ⟨⟩
    rfl
  size_upper := by rintro _ ⟨⟩
  uncrossed := by
    intro u hu v hv l c hl hc
    obtain rfl : c = 7 := (Option.some.inj hc).symm
    have hlower : ∀ u < 3, ∀ l ∈ boundAt raisedPath.lower u, l ≤ 7 := by decide +kernel
    exact hlower u hu l hl

theorem findsBestConstant_of_isConnected_raisedPath :
    raisedPath.begun.partition.regionCount = 1 ∧ raisedPath.begun.FindsBestConstant ∧
      raisedPath.FindsBestConstant := by
  have hwhole : Partition.ofIndex? #[0, 1, 2, 2] #[1, 2] none (1 : ℚ) =
      .ok (.whole ⟨#[0, 1, 2, 2], #[0, 1], #[1, 2]⟩ ⟨none, 1⟩) := by with_unfolding_all rfl
  obtain ⟨hone, hbegun, hfresh⟩ := findsBestConstant_of_isConnected (s := raisedPath)
    (isArranged_of_ofIndex? hwhole) isConnected_raisedPath hasBestConstant_raisedPath
  exact ⟨hone, hbegun, hfresh rfl⟩

end Solver
end TotalVariation
