import Mathlib
import TotalVariation.Proofs.Solver.RenamedStart
import TotalVariation.Proofs.Solver.Valued

/-! # The iterate after a merger

Where only equal values are merged, the boundaries join different values at every record of a run:
at the start there are no boundaries, and a merger opens those between equal values. The iterate has
one value for each region there, and what is stored about the regions is up to date.
-/

namespace TotalVariation.Solver

open Step TotalVariation.Partition

variable {K : Type} [ExactField K] {s t : Solver K} {x : Vec K} {solve : InnerMethod K}
  {r : Recording}

/-- A valued solver with weights that are not negative. Where only equal values are merged its
boundaries join different values. -/
structure IsMerged (s : Solver K) (x : Vec K) : Prop extends s.IsValued x where
  distinct : s.mergeTolerance = 0 → ∀ e < s.partition.edgeCount, s.partition.isActive e = true →
    Vec.entry x (s.partition.regionOf (s.partition.graph.tailOf e)) ≠
      Vec.entry x (s.partition.regionOf (s.partition.graph.headOf e))
  nonneg : s.HasNonnegWeights

/-- An arranged partition, a term that fits the graph, with an exactly symmetric table if it has
one, weights that are not negative and splitting as the method. -/
structure IsPosed (s : Solver K) : Prop where
  arranged : s.partition.IsArranged
  fits : s.quadratic.Fits s.vertexCount
  symmetric : s.quadratic.IsSymmetric
  nonneg : s.HasNonnegWeights
  backend : s.inner.backend = .splitting

theorem IsPosed.isEvaluable (hs : s.IsPosed) : s.IsEvaluable innerMethod where
  arranged := hs.arranged
  fits := hs.fits
  symmetric := hs.symmetric
  answersInSize := answersInSize_innerMethod hs.backend

/-- Boundaries join different values after a merger of equal values. -/
theorem distinct_of_merge {m : Int} (hs : s.IsSolved) (hzero : s.mergeTolerance = 0)
    (h : (merge (steps solve)).Answers s m t) (hx : t.x = some x) :
    ∀ e < t.partition.edgeCount, t.partition.isActive e = true →
      Vec.entry x (t.partition.regionOf (t.partition.graph.tailOf e)) ≠
        Vec.entry x (t.partition.regionOf (t.partition.graph.headOf e)) := by
  obtain ⟨z, hz, hsize⟩ := hs.iterate
  obtain ⟨y, hok, hstored⟩ := stored_of_merge hz h
  obtain rfl : y = x := Option.some.inj ((congrArg Solver.x hstored).symm.trans hx)
  intro e he hactive
  have hpartition := congrArg Solver.partition hstored
  rw [hzero] at hok hpartition
  obtain ⟨hgraph, -, -⟩ := merge?_frame hok
  have hconsistent := (hs.partition.merge? hsize hok).1.toIsConsistent
  rw [hpartition] at he hactive ⊢
  have hsep := (hconsistent.isActive_iff e he).mp hactive
  rw [merge?_edgeCount hok] at he
  rw [hgraph] at hsep ⊢
  exact hs.partition.merge?_distinct hok he hsep

theorem RecordsAt.exists_isMerged (hs : s.IsPosed) (h : RecordsAt standardSteps r s t) :
    ∃ x, t.IsMerged x := by
  have hsame := h.sameSettings
  obtain ⟨x, hx⟩ := h.exists_isValued hs.isEvaluable
  refine ⟨x, hx, fun hzero => ?_, hs.nonneg.of_sameSettings hsame⟩
  cases h with
  | start hstarted =>
      -- all edges are open at the start
      intro e he hactive
      rw [partition_of_start hstarted] at he hactive
      exact absurd hactive (Bool.eq_false_iff.mp (components_isActive s.partition he))
  | round hcompared hchange =>
      obtain @⟨m, u, v, w, hsplits, hsolved, hmerged⟩ := hcompared
      have hone := hsplits.isStored_of_rebuilt hs.isEvaluable hsolved
      rw [(sameSettings_of_evolution hchange).mergeTolerance,
        (sameSettings_of_merge hmerged).mergeTolerance] at hzero
      -- the comparison changes marks of regions only
      obtain ⟨y, lastX, last, -, -, rfl⟩ := evolution_answers hchange
      exact (distinct_of_merge hone.toIsSolved hzero hmerged (x := x) hx.iterate :)

theorem LoopHead.exists_isMerged (hs : s.IsPosed) {left done : ℕ} {e : Option K}
    (h : LoopHead standardSteps r s left done e t) : ∃ x, t.IsMerged x := by
  obtain ⟨u, hrecords, heq⟩ := h.exists_recordsAt
  obtain ⟨x, hx⟩ := hrecords.exists_isMerged hs
  rw [heq]
  exact ⟨x, ⟨⟨⟨hx.iterate, hx.iterate_size, hx.fits⟩, hx.residual⟩, hx.partition, hx.assigns,
    hx.reducedWeights, hx.symmetric⟩, hx.distinct, hx.nonneg.edges, hx.nonneg.targets⟩

/-- Keeping the iterate leaves a merged solver merged. -/
theorem IsMerged.of_keepIterate {u : Unit} (hs : s.IsMerged x) (h : keepIterate.Answers s u t) :
    t.IsMerged x := by
  obtain ⟨y, -, rfl⟩ := keepIterate_answers h
  exact ⟨⟨⟨⟨hs.iterate, hs.iterate_size, hs.fits⟩, hs.residual⟩,
    hs.partition.of_marks rfl rfl rfl rfl rfl rfl rfl, hs.assigns, hs.reducedWeights, hs.symmetric⟩,
    hs.distinct, hs.nonneg.edges, hs.nonneg.targets⟩

end TotalVariation.Solver
