import Mathlib
import TotalVariation.Proofs.Solver.Objective

/-! # The graph of the regions after a rebuilding

Edges may have been marked that turn out to lie inside a region, boundaries may join the same two
regions several times and be stored in either direction. Bringing the graph of the regions up to
date unmarks the first, and lists each pair of regions that an edge joins once, in order. The
variation of values of the regions on this graph is then their variation on the vertices.
-/

namespace TotalVariation

open TotalVariation.Partition

variable {K : Type} [ExactField K] {P : Partition K}

namespace Partition.IsComponentwise

variable (h : P.IsComponentwise)

include h

/-- Unmarking edges inside a region connects no further vertices. -/
theorem reduceGraph_connected_iff {u v : Nat} (hu : u < P.vertexCount) (hv : v < P.vertexCount) :
    P.reduceGraph.Connected u v ↔ P.Connected u v := by
  rw [← h.regionOf_eq_iff u hu v hv]
  exact ⟨h.reduceGraph.regionOf_eq_of_connected, h.reduceGraph.connected u hu v hv⟩

/-- The variation of values of the regions on their graph is the variation of the expanded
values. -/
theorem graphVariation?_reduceGraph {s : Solver K} (hs : s.partition = P.reduceGraph) {x : Vec K}
    (hx : s.x = some x) (hsize : x.size = P.regionCount) :
    s.graphVariation? = .ok (∑ e ∈ Finset.range P.edgeCount, P.weight e *
      |Vec.entry (P.expand x) (P.graph.tailOf e) - Vec.entry (P.expand x) (P.graph.headOf e)|) := by
  have hP := h.reduceGraph
  have hgraph := h.hasReducedGraph
  have hweights := h.hasReducedWeights
  rw [← hs] at hP hgraph hweights
  have hcount : x.size = s.partition.regionCount := by
    rw [hs]
    exact hsize
  rw [s.graphVariation?_eq_sum hP hgraph hweights hx hcount, hs]
  refine congrArg Except.ok (Finset.sum_congr rfl fun e he => ?_)
  rw [Finset.mem_range] at he
  rw [P.entry_expand x (h.graph_valid.tail_lt e he), P.entry_expand x (h.graph_valid.head_lt e he)]
  rfl

/-- Once the regions are the components of the open edges, whatever edges were marked before,
bringing the graph of the regions up to date leaves exactly the edges between regions marked, and
the components as they are. It lists each pair of regions that an edge joins once, the smaller
region first, in lexicographic order. On these pairs the variation of values of the regions is that
of the expanded values on all edges. -/
theorem reduceGraph_exact :
    (P.reduceGraph.regions = P.regions ∧ P.reduceGraph.assignment = P.assignment ∧
      ∀ u < P.vertexCount, ∀ v < P.vertexCount,
        (P.reduceGraph.Connected u v ↔ P.Connected u v)) ∧
    (∀ e < P.edgeCount, P.reduceGraph.isActive e = true ↔
      P.regionOf (P.graph.tailOf e) ≠ P.regionOf (P.graph.headOf e)) ∧
    (P.reduceGraph.reducedEdges.toList.Pairwise fun p q => p.1 < q.1 ∨ p.1 = q.1 ∧ p.2 < q.2) ∧
    (∀ a b, (a, b) ∈ P.reduceGraph.reducedEdges ↔ a < b ∧ ∃ e < P.edgeCount,
      (P.regionOf (P.graph.tailOf e) = a ∧ P.regionOf (P.graph.headOf e) = b) ∨
        (P.regionOf (P.graph.tailOf e) = b ∧ P.regionOf (P.graph.headOf e) = a)) ∧
    ∀ (s : Solver K) (x : Vec K), s.partition = P.reduceGraph → s.x = some x →
      x.size = P.regionCount →
        s.graphVariation? = .ok (∑ e ∈ Finset.range P.edgeCount, P.weight e *
          |Vec.entry (P.expand x) (P.graph.tailOf e) -
            Vec.entry (P.expand x) (P.graph.headOf e)|) := by
  refine ⟨⟨rfl, rfl, fun u hu v hv => h.reduceGraph_connected_iff hu hv⟩, h.reduceGraph.isActive_iff,
    P.pairwise_joinedPairs _, fun a b => ?_,
    fun s x hs hx hsize => h.graphVariation?_reduceGraph hs hx hsize⟩
  rw [h.hasReducedGraph.mem_reducedEdges]
  exact and_congr_right fun _ => exists_congr fun e => and_congr_right fun _ => joins_iff

end Partition.IsComponentwise

/-- Five vertices in three regions. The first edge is marked inside the first region, from which two
parallel boundaries in opposite directions lead to the second. -/
def markedInside : Partition ℚ :=
  ((Partition.whole ⟨#[0, 2, 4, 4, 6, 7], #[0, 0, 1, 1, 3, 3, 4], #[1, 2, 2, 3, 0, 4, 2]⟩
    ⟨some #[1, 1, 1, 2, 3, 5, 7], 0⟩).setActive [0, 3, 4, 5, 6] true).rebuild

theorem isComponentwise_markedInside : markedInside.IsComponentwise := by
  have hwhole : Partition.ofIndex? #[0, 2, 4, 4, 6, 7] #[1, 2, 2, 3, 0, 4, 2]
      (some #[1, 1, 1, 2, 3, 5, 7]) (0 : ℚ) = .ok (.whole ⟨#[0, 2, 4, 4, 6, 7],
        #[0, 0, 1, 1, 3, 3, 4], #[1, 2, 2, 3, 0, 4, 2]⟩ ⟨some #[1, 1, 1, 2, 3, 5, 7], 0⟩) := by
    with_unfolding_all rfl
  exact ((isArranged_of_ofIndex? hwhole).setActive [0, 3, 4, 5, 6] true).isComponentwise_rebuild

/-- The edge inside the first region is unmarked, and the parallel boundaries count together. -/
theorem reduceGraph_exact_markedInside :
    markedInside.IsComponentwise ∧ markedInside.regions = [[0, 1, 2], [3], [4]] ∧
      markedInside.isActive 0 = true ∧ markedInside.reduceGraph.isActive 0 = false ∧
      markedInside.reduceGraph.isActive 4 = true ∧ (0, 1) ∈ markedInside.reduceGraph.reducedEdges ∧
      markedInside.reduceGraph.reducedEdges = #[(0, 1), (0, 2), (1, 2)] ∧
      markedInside.reduceGraph.reducedWeights = #[5, 7, 5] ∧
      Solver.graphVariation? { Solver.ofPartition markedInside.reduceGraph with
        x := some #[1, 4, -2] } = .ok 66 := by
  obtain ⟨-, hactive, -, hmem, hvariation⟩ := isComponentwise_markedInside.reduceGraph_exact
  have hinside : ¬markedInside.reduceGraph.isActive 0 = true := by
    rw [hactive 0 (by decide +kernel)]
    decide +kernel
  refine ⟨isComponentwise_markedInside, by decide +kernel, by decide +kernel,
    eq_false_of_ne_true hinside, (hactive 4 (by decide +kernel)).mpr (by decide +kernel),
    (hmem 0 1).mpr ⟨by decide, 4, by decide +kernel, .inr (by decide +kernel)⟩, by decide +kernel,
    by decide +kernel, ?_⟩
  rw [hvariation _ #[1, 4, -2] rfl rfl (by decide +kernel)]
  exact congrArg Except.ok (by decide +kernel)

end TotalVariation
