import Mathlib
import TotalVariation.Proofs.Partition.MergedValues
import TotalVariation.Proofs.Solver.StaleWeights

/-! # Neighbours after a merger

A merger of equal values changes neither the value of a vertex nor the variation, and leaves
nothing to a second one. With a tolerance the regions of a chain take their mean, and the mean can
be the value of a neighbour to which nothing in the chain was close. Then a boundary joins equal
values, and the slope that it is given depends on the end from which it is stored.
-/

namespace TotalVariation

variable {K : Type} [ExactField K] {P Q : Partition K} {x y : Vec K}

namespace Partition

/-- The variation depends on the values of the vertices only. -/
theorem variationWith_congr (hgraph : Q.graph = P.graph) (hweights : Q.edgeWeights = P.edgeWeights)
    (hvalues : Q.expand y = P.expand x) :
    Q.variationWith Q.edgeWeights y = P.variationWith P.edgeWeights x := by
  have hedges : Q.edgeCount = P.edgeCount := congrArg ForwardStar.edges hgraph
  rw [variationWith, variationWith, hedges, hgraph, hvalues]
  simp only [weight, hweights]

theorem IsUpToDate.graphVariation?_eq (h : P.IsUpToDate) (hx : x.size = P.regionCount)
    {s : Solver K} (hs : s.partition = P) (hvalue : s.x = some x) :
    s.graphVariation? = .ok (P.variationWith P.edgeWeights x) := by
  subst hs
  rw [Solver.graphVariation?_eq_variation h.toIsCoherent h.reducedWeights hvalue hx,
    Solver.variation_problem h.graph_valid]

/-! ## Equal values -/

/-- On a partition that is up to date a merger of equal values keeps the value of every vertex and
the variation, edge by edge and from the graph of the regions. A second one changes nothing. -/
theorem IsUpToDate.merge?_merge? (h : P.IsUpToDate) (hx : x.size = P.regionCount) :
    ∃ Q y merged, P.merge? x 0 = (Q, .ok (y, merged)) ∧ Q.IsUpToDate ∧ y.size = Q.regionCount ∧
      Q.expand y = P.expand x ∧
      Q.variationWith Q.edgeWeights y = P.variationWith P.edgeWeights x ∧
      (∀ s : Solver K, s.partition = P → s.x = some x →
        s.graphVariation? = .ok (P.variationWith P.edgeWeights x)) ∧
      (∀ s : Solver K, s.partition = Q → s.x = some y →
        s.graphVariation? = .ok (P.variationWith P.edgeWeights x)) ∧
      Q.merge? y 0 = (Q, .ok (y, 0)) := by
  obtain ⟨Q, y, merged, hmerge, hm⟩ := h.exists_isMerger hx 0
  have hvalues : Q.expand y = P.expand x := h.expand_eq_of_isMerger hm
  have hvariation : Q.variationWith Q.edgeWeights y = P.variationWith P.edgeWeights x :=
    variationWith_congr hm.frame.1 hm.frame.2.1 hvalues
  refine ⟨Q, y, merged, hmerge, hm.isUpToDate, hm.size_values, hvalues, hvariation,
    fun s hs hvalue => h.graphVariation?_eq hx hs hvalue, fun s hs hvalue => ?_, ?_⟩
  · rw [hm.isUpToDate.graphVariation?_eq hm.size_values hs hvalue, hvariation]
  · exact hm.isUpToDate.merge?_of_joinsDistinct hm.size_values (h.joinsDistinct_of_isMerger hm)

/-- On the path three regions with one value become one. -/
theorem merge?_merge?_fourOnPath :
    let P := fourOnPath.rebuild.reduceGraph
    let Q := (P.merge? #[5, 5, 5, 7] 0).1
    P.IsUpToDate ∧ P.regionCount = 4 ∧
      (P.merge? #[5, 5, 5, 7] 0).2.toOption = some (#[5, 7], 2) ∧
      Q.regions = [[1, 0, 2, 3], [4, 5]] ∧ Q.expand #[5, 7] = P.expand #[5, 5, 5, 7] ∧
      (∀ s : Solver ℚ, s.partition = Q → s.x = some #[5, 7] → s.graphVariation? = .ok 2) ∧
      Q.merge? #[5, 7] 0 = (Q, .ok (#[5, 7], 0)) := by
  intro P Q
  have hP : P.IsUpToDate := isArranged_fourOnPath.isUpToDate_rebuild
  have hanswer : (P.merge? #[5, 5, 5, 7] 0).2.toOption = some (#[5, 7], 2) := by decide +kernel
  obtain ⟨R, y, merged, hmerge, -, -, hvalues, -, -, hvariation, hagain⟩ :=
    hP.merge?_merge? (x := #[5, 5, 5, 7]) (by decide +kernel)
  rw [hmerge] at hanswer
  obtain ⟨rfl, rfl⟩ := Prod.mk.inj (Option.some.inj hanswer)
  obtain rfl : Q = R := congrArg Prod.fst hmerge
  have htwo : P.variationWith P.edgeWeights #[5, 5, 5, 7] = 2 := by decide +kernel
  rw [htwo] at hvariation
  exact ⟨hP, by decide +kernel, by rw [hmerge]; rfl, by decide +kernel, hvalues, hvariation, hagain⟩

/-! ## Close values -/

/-- After a merger each vertex has the mean over the chain of its former region. The boundaries then
join different values exactly if no two chains with one mean were neighbours. -/
theorem IsUpToDate.merge?_joinsDistinct_iff (h : P.IsUpToDate) (hx : x.size = P.regionCount)
    (tolerance : K) :
    ∃ Q y merged, P.merge? x tolerance = (Q, .ok (y, merged)) ∧ Q.IsUpToDate ∧
      y.size = Q.regionCount ∧
      (∀ v < P.vertexCount,
        Vec.entry (Q.expand y) v = P.chainMean x tolerance (P.regionOf v)) ∧
      (Q.JoinsDistinct y ↔ ∀ e < Q.edgeCount, Q.isActive e = true →
        Vec.entry (Q.expand y) (Q.graph.tailOf e) ≠ Vec.entry (Q.expand y) (Q.graph.headOf e)) ∧
      (Q.JoinsDistinct y ↔ ∀ a b, (a, b) ∈ P.reducedEdges → ¬P.Chained x tolerance a b →
        P.chainMean x tolerance a ≠ P.chainMean x tolerance b) ∧
      (tolerance = 0 → Q.JoinsDistinct y) := by
  obtain ⟨Q, y, merged, hmerge, hm⟩ := h.exists_isMerger hx tolerance
  refine ⟨Q, y, merged, hmerge, hm.isUpToDate, hm.size_values, fun v hv => hm.entry_expand h hv,
    hm.isUpToDate.joinsDistinct_iff, hm.joinsDistinct_iff h, ?_⟩
  rintro rfl
  exact h.joinsDistinct_of_isMerger hm

/-- On the path the mean of a chain stays apart from its neighbour. -/
theorem merge?_joinsDistinct_fourOnPath :
    let P := fourOnPath.rebuild.reduceGraph
    let Q := (P.merge? #[10, 11, 12, 20] (1 / 10)).1
    P.IsUpToDate ∧ P.regionCount = 4 ∧
      (P.merge? #[10, 11, 12, 20] (1 / 10)).2.toOption = some (#[43 / 4, 20], 2) ∧
      Q.JoinsDistinct #[43 / 4, 20] ∧
      P.chainMean #[10, 11, 12, 20] (1 / 10) (P.regionOf 2) = 43 / 4 ∧
      ∀ a b, (a, b) ∈ P.reducedEdges → ¬P.Chained #[10, 11, 12, 20] (1 / 10) a b →
        P.chainMean #[10, 11, 12, 20] (1 / 10) a ≠ P.chainMean #[10, 11, 12, 20] (1 / 10) b := by
  intro P Q
  have hP : P.IsUpToDate := isArranged_fourOnPath.isUpToDate_rebuild
  have hanswer : (P.merge? #[10, 11, 12, 20] (1 / 10)).2.toOption = some (#[43 / 4, 20], 2) := by
    decide +kernel
  obtain ⟨R, y, merged, hmerge, -, -, hmean, hactive, hchains, -⟩ :=
    hP.merge?_joinsDistinct_iff (x := #[10, 11, 12, 20]) (by decide +kernel) (1 / 10)
  rw [hmerge] at hanswer
  obtain ⟨rfl, rfl⟩ := Prod.mk.inj (Option.some.inj hanswer)
  obtain rfl : Q = R := congrArg Prod.fst hmerge
  have hdistinct : Q.JoinsDistinct #[43 / 4, 20] := hactive.mpr (by decide +kernel)
  refine ⟨hP, by decide +kernel, by rw [hmerge]; rfl, hdistinct, ?_, hchains.mp hdistinct⟩
  rw [← hmean 2 (by decide +kernel)]
  decide +kernel

/-- Four vertices on a path, each a region. -/
def fourApart (graph : ForwardStar) : Partition ℚ :=
  ((Partition.whole graph ⟨none, 1⟩).setActive [0, 1, 2] true).rebuild.reduceGraph

/-- The path with every edge stored from its first end. -/
def forwardPath : ForwardStar := ⟨#[0, 1, 2, 3, 3], #[0, 1, 2], #[1, 2, 3]⟩

/-- The path with the first edge stored from its second end. -/
def turnedPath : ForwardStar := ⟨#[0, 0, 2, 3, 3], #[1, 1, 2], #[0, 2, 3]⟩

/-- The chain of the last three values has the mean 14, and the first value is 14 too, but close to
none of them. The boundary that is left joins equal values, and the slope at its ends changes its
sign with the end from which it is stored. -/
theorem not_merge?_joinsDistinct_fourApart :
    (∀ graph ∈ [forwardPath, turnedPath], (fourApart graph).IsUpToDate ∧
      (fourApart graph).regionCount = 4 ∧
      ((fourApart graph).merge? #[14, 6, 12, 24] (1 / 2)).2.toOption = some (#[14, 14], 2) ∧
      (0, 1) ∈ ((fourApart graph).merge? #[14, 6, 12, 24] (1 / 2)).1.reducedEdges ∧
      ¬((fourApart graph).merge? #[14, 6, 12, 24] (1 / 2)).1.JoinsDistinct #[14, 14]) ∧
      ({ Solver.ofPartition ((fourApart forwardPath).merge? #[14, 6, 12, 24] (1 / 2)).1 with
        x := some #[14, 14] } : Solver ℚ).gradient?.toOption = some #[-1, 1, 0, 0] ∧
      ({ Solver.ofPartition ((fourApart turnedPath).merge? #[14, 6, 12, 24] (1 / 2)).1 with
        x := some #[14, 14] } : Solver ℚ).gradient?.toOption = some #[1, -1, 0, 0] := by
  have hforward : ofIndex? #[0, 1, 2, 3, 3] #[1, 2, 3] none (1 : ℚ) =
      .ok (whole forwardPath ⟨none, 1⟩) := by with_unfolding_all rfl
  have hturned : ofIndex? #[0, 0, 2, 3, 3] #[0, 2, 3] none (1 : ℚ) =
      .ok (whole turnedPath ⟨none, 1⟩) := by with_unfolding_all rfl
  have hedge : ∀ graph ∈ [forwardPath, turnedPath], (fourApart graph).regionCount = 4 ∧
      ((fourApart graph).merge? #[14, 6, 12, 24] (1 / 2)).2.toOption = some (#[14, 14], 2) ∧
        (0, 1) ∈ ((fourApart graph).merge? #[14, 6, 12, 24] (1 / 2)).1.reducedEdges := by
    decide +kernel
  refine ⟨fun graph hgraph => ?_, by decide +kernel, by decide +kernel⟩
  have harranged : (whole graph ⟨none, (1 : ℚ)⟩).IsArranged := by
    rcases List.mem_pair.mp hgraph with rfl | rfl
    · exact isArranged_of_ofIndex? hforward
    · exact isArranged_of_ofIndex? hturned
  obtain ⟨hcount, hanswer, hjoined⟩ := hedge graph hgraph
  exact ⟨(harranged.setActive _ _).isUpToDate_rebuild, hcount, hanswer, hjoined,
    fun hdistinct => hdistinct 0 1 hjoined rfl⟩

end Partition
end TotalVariation
