import Mathlib
import TotalVariation.Proofs.MedianOrder
import TotalVariation.Proofs.Solver.MedianCache
import TotalVariation.Proofs.Solver.Used

/-! # Medians after new targets

New targets leave the regions in the order of the former ones, and the marks by which that order is
trusted. So the next solution over the regions selects the median of a region that is not believed
to be solved and sorted, but for the others it reads off the target of the vertex that stands at the
median position of the former order. That is the median of the region only by chance.
-/

namespace TotalVariation.Solver

open Step

variable {K : Type} [ExactField K] {s t : Solver K}

/-- Whether the median of a region is read off and not selected. -/
def TrustsOrder (s : Solver K) (r : Nat) : Prop :=
  s.partition.isSaturated r = true ∧ s.partition.isMedianCached r = true

theorem regionMedian_of_trustsOrder {r : Nat} (h : s.TrustsOrder r) (y : Vec K) :
    (s.regionMedian y r).1 = Median.ofSorted y s.targetWeights.each (s.partition.region r) := by
  rw [regionMedian, if_pos (Bool.and_eq_true_iff.mpr h)]

theorem regionMedian_of_not_trustsOrder {r : Nat} (h : ¬s.TrustsOrder r) (y : Vec K) :
    (s.regionMedian y r).1 =
      (Median.select y s.targetWeights.each (s.partition.region r)).1 := by
  rw [regionMedian, if_neg fun hmarks => h (Bool.and_eq_true_iff.mp hmarks)]

/-- Whichever way the medians of a used solver are found, selecting finds the median of a region. -/
theorem IsSound.isMedian_select (hs : s.IsSound) (y : Vec K) {r : Nat}
    (hr : r < s.partition.regionCount) :
    Median.IsMedian y s.targetWeights.each (s.partition.region r)
      (Median.select y s.targetWeights.each (s.partition.region r)).1 := by
  refine Median.isMedian_select (hs.arranged.region_ne_nil' hr) fun w hw v hv => ?_
  exact hs.nonneg.targets w hw v (hs.arranged.lt_of_mem_region hv)

/-- The value that the median of a region is taken to be is the median exactly if a trusted order
happens to have it at the median position. -/
theorem IsSound.regionMedian_eq_select_iff (hs : s.IsSound) (y : Vec K) {r : Nat}
    (hr : r < s.partition.regionCount) :
    (s.regionMedian y r).1 = (Median.select y s.targetWeights.each (s.partition.region r)).1 ↔
      (s.TrustsOrder r → Median.IsMedian y s.targetWeights.each (s.partition.region r)
        (Median.ofSorted y s.targetWeights.each (s.partition.region r))) := by
  have hmedian := hs.isMedian_select y hr
  by_cases htrusts : s.TrustsOrder r
  · rw [regionMedian_of_trustsOrder htrusts]
    exact ⟨fun heq _ => heq ▸ hmedian, fun h => (h htrusts).eq hmedian⟩
  · rw [regionMedian_of_not_trustsOrder htrusts]
    exact iff_of_true rfl fun h => absurd h htrusts

/-- After accepted targets, of which there are some with weights, the next solution over the regions
takes for each region the median of the targets exactly if, in case the order of the region is still
trusted, the vertex at the median position of that order has it. -/
theorem IsUsed.medians_of_setTargets (hs : s.IsUsed) {weights targets : Option (Tensor K)}
    {common : K} (h : s.setTargets? weights common targets = .ok t) {w y : Vec K}
    (hw : t.regionWeights? = some w) (hy : t.targets = some y) :
    t.partition = s.partition ∧ ∃ m u, regionTargets.Answers t (some w, some m) u ∧
      m.size = t.partition.regionCount ∧
      (∀ solve v, (reducedSolution solve).Answers t () v → ∃ problem init x iterations,
        problem.targetWeights = some w ∧ problem.targets = m ∧
        solve t.inner t.innerTolerance problem init = .ok (x, iterations) ∧ v.x = some x) ∧
      ∀ r < t.partition.regionCount,
        Median.IsMedian y t.targetWeights.each (t.partition.region r)
          (Median.select y t.targetWeights.each (t.partition.region r)).1 ∧
        (Vec.entry m r = (Median.select y t.targetWeights.each (t.partition.region r)).1 ↔
          (t.TrustsOrder r → Median.IsMedian y t.targetWeights.each (t.partition.region r)
            (Median.ofSorted y t.targetWeights.each (t.partition.region r)))) := by
  have hsound : t.IsSound := (hs.setTargets h).isSound
  have hanswers := regionTargets_answers_of_some hw hy
  have hframe : t.partition = s.partition := by
    obtain ⟨_, _, rfl, -⟩ := setTargets?_eq_ok h
    rfl
  refine ⟨hframe, _, _, hanswers, by simp [regionMedians], fun solve v hv => ?_, fun r hr => ?_⟩
  · obtain ⟨_, _, _, _, _, s₁, init, x, iterations, -, -, htargets, -, hsolve, rfl⟩ :=
      reducedSolution_answers hv
    obtain ⟨⟨rfl, rfl⟩, rfl⟩ := regionTargets_answers.mp htargets
    obtain ⟨⟨hw', hm⟩, hsorted⟩ := regionTargets_answers.mp hanswers
    rw [← hsorted, ← hw', ← hm] at hsolve
    exact ⟨_, init, x, iterations, rfl, rfl, hsolve, rfl⟩
  · rw [entry_regionMedians t y hr]
    exact ⟨hsound.isMedian_select y hr, hsound.regionMedian_eq_select_iff y hr⟩

/-- Two vertices that an edge holds together, with targets in rising order. -/
def risingPair : Solver ℚ :=
  { ofPartition (.whole ⟨#[0, 1, 1], #[0], #[1]⟩ ⟨none, 100⟩) with
    targetWeights := ⟨some #[1, 1], 0⟩
    targets := some #[0, 1] }

/-- The pair after a run. -/
def settledPair : Solver ℚ := ((run standardSteps true ⟨true, false⟩).run risingPair).2

/-- The pair after a run, with targets in falling order. -/
def turnedPair : Solver ℚ :=
  { settledPair with targetWeights := ⟨some #[1, 1], 0⟩, targets := some #[1, 0] }

theorem setTargets?_pair {s : Solver ℚ} (hs : s.vertexCount = 2) {y : Vec ℚ} (hy : y.size = 2) :
    s.setTargets? (some (.ofArray #[1, 1])) 0 (some (.ofArray y)) =
      .ok { s with targetWeights := ⟨some #[1, 1], 0⟩, targets := some y } := by
  simp [setTargets?, targetsOf?, perVertex?, Tensor.ofArray, Tensor.rank, Tensor.scalar?, hs, hy,
    bind, Except.bind, pure, Except.pure]

theorem isUsed_settledPair : settledPair.IsUsed := by
  have hwhole : Partition.ofIndex? #[0, 1, 1] #[1] none (100 : ℚ) =
      .ok (.whole ⟨#[0, 1, 1], #[0], #[1]⟩ ⟨none, 100⟩) := by
    with_unfolding_all rfl
  exact .run (.setTargets (.ofIndex hwhole) (setTargets?_pair rfl rfl)) true _

theorem setTargets?_settledPair :
    settledPair.setTargets? (some (.ofArray #[1, 1])) 0 (some (.ofArray #[1, 0])) =
      .ok turnedPair :=
  setTargets?_pair ((stepsRetain innerMethod).run true risingPair).vertexCount rfl

/-- The run leaves the pair solved and in the order of the targets that it had, which does not give
the median of those that it has. -/
theorem turnedPair_eq :
    ((run standardSteps true ⟨true, false⟩).run risingPair).1.toOption = some 0 ∧
      turnedPair.partition.regions = [[0, 1]] ∧
      turnedPair.partition.saturated = #[true] ∧ turnedPair.partition.medianCached = #[true] ∧
      turnedPair.regionWeights? = some #[2] ∧
      turnedPair.regionMedians #[1, 0] = [(1, [0, 1])] ∧
      (Median.select #[(1 : ℚ), 0] (some #[1, 1]) [0, 1]).1 = 0 := by
  unfold turnedPair settledPair regionMedians regionMedian run start standardSteps steps
    constantSolution
  rw [Median.select_eq_insertionSort (sortsTotally_of_exactField ℚ)]
  decide +kernel

/-- In the order of the former targets the vertex at the median position does not have the
median. -/
theorem medians_of_setTargets_turnedPair :
    settledPair.IsUsed ∧
      settledPair.setTargets? (some (.ofArray #[1, 1])) 0 (some (.ofArray #[1, 0])) =
        .ok turnedPair ∧
      turnedPair.regionWeights? = some #[2] ∧ turnedPair.targets = some #[1, 0] ∧
      turnedPair.TrustsOrder 0 ∧ ∃ (m : Vec ℚ) (u : Solver ℚ),
        regionTargets.Answers turnedPair (some #[2], some m) u ∧
        (Vec.entry m 0 = (Median.select #[1, 0] (some #[1, 1]) [0, 1]).1 ↔
          (turnedPair.TrustsOrder 0 → Median.IsMedian #[1, 0] (some #[1, 1]) [0, 1]
            (Median.ofSorted #[(1 : ℚ), 0] (some #[1, 1]) [0, 1]))) := by
  obtain ⟨-, hregions, hsaturated, hcached, hweights, -⟩ := turnedPair_eq
  have htrusts : turnedPair.TrustsOrder 0 := by
    rw [TrustsOrder, Partition.isSaturated, Partition.isMedianCached, hsaturated, hcached]
    exact ⟨rfl, rfl⟩
  have hregion : turnedPair.partition.region 0 = [0, 1] := by
    rw [Partition.region, hregions]
    rfl
  have hcount : 0 < turnedPair.partition.regionCount := by
    rw [Partition.regionCount, hregions]
    exact Nat.one_pos
  obtain ⟨-, m, u, hanswers, -, -, hmedians⟩ :=
    isUsed_settledPair.medians_of_setTargets setTargets?_settledPair hweights rfl
  have hmedian := (hmedians 0 hcount).2
  rw [hregion] at hmedian
  exact ⟨isUsed_settledPair, setTargets?_settledPair, hweights, rfl, htrusts, m, u, hanswers,
    hmedian⟩

/-- After new targets a region is given the target of a vertex that is not its median. -/
theorem not_medians_of_setTargets_turnedPair :
    settledPair.IsUsed ∧ (run standardSteps true ⟨true, false⟩).Answers risingPair 0 settledPair ∧
      settledPair.setTargets? (some (.ofArray #[1, 1])) 0 (some (.ofArray #[1, 0])) =
        .ok turnedPair ∧
      turnedPair.targets = some #[1, 0] ∧ turnedPair.partition.region 0 = [0, 1] ∧
      (∃ u, regionTargets.Answers turnedPair (some #[2], some #[1]) u) ∧
      Median.IsMedian #[1, 0] (some #[1, 1]) [0, 1] (0 : ℚ) ∧
      ¬Median.IsMedian #[1, 0] (some #[1, 1]) [0, 1] (1 : ℚ) := by
  obtain ⟨hrun, hregions, -, -, hweights, hmedians, hselect⟩ := turnedPair_eq
  have hregion : turnedPair.partition.region 0 = [0, 1] := by
    rw [Partition.region, hregions]
    rfl
  have hanswers := regionTargets_answers_of_some hweights rfl
  rw [hmedians] at hanswers
  have hmedian : Median.IsMedian #[1, 0] (some #[1, 1]) [0, 1]
      (Median.select #[(1 : ℚ), 0] (some #[1, 1]) [0, 1]).1 :=
    Median.isMedian_select (by decide) (by rintro w ⟨⟩; simp [Vec.entry])
  rw [hselect] at hmedian
  exact ⟨isUsed_settledPair, answers_of_toOption hrun, setTargets?_settledPair, rfl, hregion,
    ⟨_, hanswers⟩, hmedian, fun hone => one_ne_zero (hone.eq hmedian)⟩

end TotalVariation.Solver
