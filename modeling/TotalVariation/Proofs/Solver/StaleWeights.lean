import Mathlib
import TotalVariation.Proofs.Solver.Resumed

/-! # The variation after new weights of the edges

The variation and the objective are computed from the weights of the graph of the regions, and these
are brought up to date only when the regions are rebuilt. So after a run and new weights of the
edges both are still those of the weights with which the regions were rebuilt last, and so is the
first objective that a run records that goes on from there.
-/

namespace TotalVariation

namespace Partition

variable {K : Type} [ExactField K]

/-- The variation of the expanded values of the regions, with these weights of the edges. -/
def variationWith (P : Partition K) (w : Weighting K) (x : Vec K) : K :=
  ∑ e ∈ Finset.range P.edgeCount, weight { P with edgeWeights := w } e *
    |Vec.entry (P.expand x) (P.graph.tailOf e) - Vec.entry (P.expand x) (P.graph.headOf e)|

/-- The variations with two weightings differ by that with the differences of the weights. -/
theorem variationWith_sub (P : Partition K) (w w' : Weighting K) (x : Vec K) :
    P.variationWith w x - P.variationWith w' x =
      ∑ e ∈ Finset.range P.edgeCount,
        (weight { P with edgeWeights := w } e - weight { P with edgeWeights := w' } e) *
          |Vec.entry (P.expand x) (P.graph.tailOf e) -
            Vec.entry (P.expand x) (P.graph.headOf e)| := by
  rw [variationWith, variationWith, ← Finset.sum_sub_distrib]
  exact Finset.sum_congr rfl fun e _ => (sub_mul _ _ _).symm

end Partition

namespace Solver

open Step TotalVariation.Partition

variable {K : Type} [ExactField K] {s t u : Solver K} {solve : InnerMethod K} {w : Weighting K}
  {x : Vec K}

/-- The variation of the problem is that with the present weights. -/
theorem variation_problem (hgraph : s.partition.graph.IsValid) (x : Vec K) :
    s.problem.variation (s.partition.expand x) =
      s.partition.variationWith s.partition.edgeWeights x := by
  rw [variation_expand hgraph]
  refine Finset.sum_congr rfl fun e he => ?_
  have hlt := Finset.mem_range.mp he
  rw [s.partition.entry_expand x (hgraph.tail_lt e hlt),
    s.partition.entry_expand x (hgraph.head_lt e hlt)]

/-- What is computed from the graph of the regions is the variation with the weights that are stored
there. -/
theorem IsStoredWith.graphVariation?_eq (hs : IsStoredWith w s) (hx : s.x = some x)
    (hsize : x.size = s.partition.regionCount) :
    s.graphVariation? = .ok (s.partition.variationWith w x) := by
  -- The variation does not read the weights of the edges, so the stored ones may take their place.
  let former : Solver K := { s with partition := { s.partition with edgeWeights := w } }
  have hcoherent : former.partition.IsCoherent :=
    hs.partition.of_marks rfl rfl rfl rfl rfl rfl rfl
  calc s.graphVariation?
      = former.graphVariation? := rfl
    _ = .ok (former.problem.variation (former.partition.expand x)) :=
        graphVariation?_eq_variation hcoherent hs.reducedWeights hx hsize
    _ = .ok (s.partition.variationWith w x) :=
        congrArg Except.ok (variation_problem hcoherent.graph_valid x)

/-- After a run and accepted weights of the edges the variation, the objective and the first
objective that a run that goes on records are those with the weights with which the regions were
rebuilt last. They are up to date exactly if the iterate has the same variation with the new
weights. -/
theorem HasRun.variation_of_setEdgeWeights (ht : HasRun solve w t) {each : Option (Array K)}
    {common : K} (h : t.setEdgeWeights? each common = .ok u) :
    ∃ x, u.x = some x ∧ x.size = u.partition.regionCount ∧
      u.graphVariation? = .ok (u.partition.variationWith w x) ∧
      u.objective? = (u.quadratic.regionValue? u.partition u.x u.residual).map (fun value =>
        value + u.partition.variationWith w x + u.problem.targetDistance (u.partition.expand x)) ∧
      (∀ (r : Recording) n v, r.objectives = true → (run (steps solve) false r).Answers u n v →
        ∃ b, u.objective? = .ok b ∧ v.history.objectives[0]? = some b) ∧
      (u.graphVariation? = .ok (u.problem.variation (u.partition.expand x)) ↔
        ∑ e ∈ Finset.range u.partition.edgeCount,
          (weight { u.partition with edgeWeights := w } e - u.partition.weight e) *
            |Vec.entry (u.partition.expand x) (u.partition.graph.tailOf e) -
              Vec.entry (u.partition.expand x) (u.partition.graph.headOf e)| = 0) := by
  have hstored : IsStoredWith w u := ht.isStoredWith.of_setsTo (.edgeWeights h)
  obtain ⟨x, hx, hsize⟩ := hstored.iterate
  have hvariation := hstored.graphVariation?_eq hx hsize
  refine ⟨x, hx, hsize, hvariation, objective?_eq_map hstored.partition.toIsConsistent
    hstored.assigns hx hsize hvariation, fun r n v hasked hrun => ?_, ?_⟩
  · obtain ⟨left, e, v', hhead, -, hhistory⟩ := exists_end_of_resumed hrun
    rw [hhistory]
    exact hhead.exists_objective hasked
  · rw [hvariation, variation_problem hstored.partition.graph_valid, Except.ok.injEq, ← sub_eq_zero,
      variationWith_sub]

/-- The far pair with an edge of unit weight. -/
def unitPair : Solver ℚ := farPair (.whole ⟨#[0, 1, 1], #[0], #[1]⟩ ⟨none, 1⟩)

/-- The pair after a run, which parts it. -/
def partedPair : Solver ℚ := ((run standardSteps true ⟨true, false⟩).run unitPair).2

/-- The parted pair with three times the weight of the edge. -/
def tightenedPair : Solver ℚ :=
  { partedPair with partition := { partedPair.partition with edgeWeights := ⟨some #[3], 1⟩ } }

/-- With three times the weight of the edge the pair has three times the variation, but what is
computed does not change. -/
theorem tightenedPair_eq :
    ((run standardSteps true ⟨true, false⟩).run unitPair).1.toOption = some 1 ∧
      partedPair.partition.edgeCount = 1 ∧ tightenedPair.x = some #[1, 9] ∧
      tightenedPair.partition.variationWith ⟨none, 1⟩ #[1, 9] = 8 ∧
      tightenedPair.problem.variation (tightenedPair.partition.expand #[1, 9]) = 24 ∧
      tightenedPair.graphVariation?.toOption = some 8 ∧
      tightenedPair.problem.objective (tightenedPair.partition.expand #[1, 9]) = -25 ∧
      tightenedPair.objective?.toOption = some (-41) ∧
      ((run standardSteps false ⟨true, false⟩).run tightenedPair).1.toOption = some 0 ∧
      ((run standardSteps false ⟨true, false⟩).run tightenedPair).2.history.objectives = [-41] := by
  decide +kernel

theorem hasRun_partedPair : HasRun innerMethod ⟨none, 1⟩ partedPair := by
  have hrun : (run standardSteps true ⟨true, false⟩).Answers unitPair 1 partedPair :=
    answers_of_toOption tightenedPair_eq.1
  exact .fresh (isSound_observedPair rfl _) (answersInSize_innerMethod rfl) hrun

theorem setEdgeWeights?_partedPair :
    partedPair.setEdgeWeights? (some #[3]) 1 = .ok tightenedPair := by
  have haccepted : edgeWeighting? 1 (some #[3]) (1 : ℚ) = .ok ⟨some #[3], 1⟩ := by
    with_unfolding_all rfl
  rw [setEdgeWeights?, Partition.setEdgeWeights?, tightenedPair_eq.2.1, haccepted]
  rfl

theorem variation_of_setEdgeWeights_tightenedPair :
    HasRun innerMethod ⟨none, 1⟩ partedPair ∧
      partedPair.setEdgeWeights? (some #[3]) 1 = .ok tightenedPair ∧
      tightenedPair.graphVariation? = .ok 8 ∧
      ∀ v, (run standardSteps false ⟨true, false⟩).Answers tightenedPair 0 v →
        ∃ b, tightenedPair.objective? = .ok b ∧ v.history.objectives[0]? = some b := by
  obtain ⟨-, -, hvalue, hformer, -⟩ := tightenedPair_eq
  obtain ⟨x, hx, -, hvariation, -, hresumed, -⟩ :=
    hasRun_partedPair.variation_of_setEdgeWeights setEdgeWeights?_partedPair
  obtain rfl := Option.some.inj (hx.symm.trans hvalue)
  refine ⟨hasRun_partedPair, setEdgeWeights?_partedPair, ?_, fun v => hresumed _ 0 v rfl⟩
  rw [hvariation, hformer]

/-- With three times the weight of the edge the pair has three times the variation, but neither it,
nor the objective, nor the first objective of a run that goes on changes. -/
theorem not_variation_of_setEdgeWeights_tightenedPair :
    (run standardSteps true ⟨true, false⟩).Answers unitPair 1 partedPair ∧
      partedPair.setEdgeWeights? (some #[3]) 1 = .ok tightenedPair ∧
      tightenedPair.x = some #[1, 9] ∧
      tightenedPair.problem.variation (tightenedPair.partition.expand #[1, 9]) = 24 ∧
      tightenedPair.graphVariation?.toOption = some 8 ∧
      tightenedPair.problem.objective (tightenedPair.partition.expand #[1, 9]) = -25 ∧
      tightenedPair.objective?.toOption = some (-41) ∧
      ∃ v, (run standardSteps false ⟨true, false⟩).Answers tightenedPair 0 v ∧
        v.history.objectives = [-41] := by
  obtain ⟨hrun, -, hvalue, -, hvariation, hgraph, hobjective, hcomputed, hresumed, hrecorded⟩ :=
    tightenedPair_eq
  exact ⟨answers_of_toOption hrun, setEdgeWeights?_partedPair, hvalue, hvariation, hgraph,
    hobjective, hcomputed, _, answers_of_toOption hresumed, hrecorded⟩

end Solver
end TotalVariation
