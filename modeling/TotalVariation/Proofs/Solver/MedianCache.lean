import Mathlib
import TotalVariation.Proofs.Median
import TotalVariation.Proofs.MedianSegment
import TotalVariation.Proofs.Solver.Refine
import TotalVariation.Proofs.Solver.Rounds

/-! # The order of the regions is not forgotten

A region is marked as sorted when the median of its targets was selected. The mark is carried to
regions that are rebuilt later, and the median of a marked region is read off instead of selected.
It stays true: a solution sorts all regions, a split makes the regions finer and a merger makes them
coarser, and in either case a mark is carried only to a region that has the vertices of the former
one in their order.
-/

namespace TotalVariation

namespace Partition

variable {α : Type} [Scalar α] {P : Partition α} {targets : Option (Vec α)}

/-- The regions that are marked as sorted are sorted by target. -/
def SortedAsMarked (P : Partition α) (targets : Option (Vec α)) : Prop :=
  ∀ r < P.regionCount, P.isMedianCached r = true →
    ∃ y, targets = some y ∧ Median.IsSorted y (P.region r)

/-- The marks stay true in a rebuilding that makes the regions finer or coarser. -/
theorem IsArranged.sortedAsMarked_rebuild (h : P.IsArranged) (hindexed : P.IsIndexed)
    (hcomparable : P.rebuild.IsFiner P ∨ P.IsFiner P.rebuild) (hsorted : P.SortedAsMarked targets) :
    P.rebuild.reduceGraph.SortedAsMarked targets := by
  intro r hr hmark
  obtain ⟨o, ho, hsame, hformer⟩ := h.exists_region_eq hindexed hcomparable hr hmark
  obtain ⟨y, hy, hin⟩ := hsorted o ho hformer
  refine ⟨y, hy, ?_⟩
  change Median.IsSorted y (P.rebuild.region r)
  rwa [hsame]

end Partition

namespace Solver

open Step TotalVariation.Partition

variable {α : Type} [Scalar α] {s t : Solver α}

/-- The partition is coherent, and sorted by the targets where it is marked so. -/
structure KeepsOrder (s : Solver α) : Prop where
  coherent : s.partition.IsCoherent
  sortedAsMarked : s.partition.SortedAsMarked s.targets

/-! ## Medians -/

theorem region_sortedByTarget (s : Solver α) (y : Vec α) {r : Nat}
    (hr : r < s.partition.regionCount) :
    (s.sortedByTarget y).partition.region r = (s.regionMedian y r).2 := by
  change ((s.regionMedians y).map (·.2)).getD r [] = _
  simp [regionMedians, hr]

/-- Where there are weights and targets, the targets of the regions are their medians. -/
theorem regionTargets_answers_of_some {w y : Vec α} (hw : s.regionWeights? = some w)
    (hy : s.targets = some y) :
    regionTargets.Answers s (some w, some ((s.regionMedians y).map (·.1)).toArray)
      (s.sortedByTarget y) := by
  refine regionTargets_answers.mpr ⟨⟨hw.symm, ?_⟩, ?_⟩
  · rw [regionTargets?, hw, hy]
  · rw [sorted, hw, hy]

theorem entry_regionMedians (s : Solver α) (y : Vec α) {r : Nat}
    (hr : r < s.partition.regionCount) :
    Vec.entry ((s.regionMedians y).map (·.1)).toArray r = (s.regionMedian y r).1 := by
  simp [Vec.entry, regionMedians, hr]

/-- Reading off the median of a marked region is selecting it. -/
theorem KeepsOrder.regionMedian_eq (hs : s.KeepsOrder) {y : Vec α} (hy : s.targets = some y)
    {r : Nat} (hr : r < s.partition.regionCount) :
    s.regionMedian y r = Median.select y s.targetWeights.each (s.partition.region r) := by
  unfold regionMedian
  split
  next hmarks =>
    obtain ⟨y', hy', hsorted⟩ := hs.sortedAsMarked r hr (Bool.and_eq_true_iff.mp hmarks).2
    obtain rfl := Option.some.inj (hy.symm.trans hy')
    exact (hsorted.select_eq _).symm
  next => rfl

/-- Selecting the medians leaves every region sorted. -/
theorem KeepsOrder.of_regionTargets (hsorts : SortsTotally α) {w m : Option (Vec α)}
    (hs : s.KeepsOrder) (h : regionTargets.Answers s (w, m) t) : t.KeepsOrder := by
  obtain ⟨hcoherent, hcount⟩ := isCoherent_of_regionTargets hs.coherent h
  refine ⟨hcoherent, ?_⟩
  obtain ⟨-, rfl⟩ := regionTargets_answers.mp h
  obtain hsame | ⟨y, hy, hsame⟩ := s.sorted_cases
  · rw [hsame]
    exact hs.sortedAsMarked
  · intro r hr _
    have hr' : r < s.partition.regionCount := hcount ▸ hr
    refine ⟨y, s.sameSettings_sorted.targets.trans hy, ?_⟩
    rw [hsame, region_sortedByTarget s y hr', hs.regionMedian_eq hy hr']
    exact Median.isSorted_sortByValue hsorts y _

theorem KeepsOrder.of_reducedSolution (hsorts : SortsTotally α) {solve : InnerMethod α} {u : Unit}
    (hs : s.KeepsOrder) (h : (reducedSolution solve).Answers s u t) : t.KeepsOrder := by
  obtain ⟨premultiply, reduced, design, weights, targets, s₁, init, x, iterations, -, -, htargets,
    -, -, rfl⟩ := reducedSolution_answers h
  have hordered := hs.of_regionTargets hsorts htargets
  exact ⟨hordered.coherent, hordered.sortedAsMarked⟩

/-! ## The start -/

theorem keepsOrder_components (hs : s.partition.IsArranged) :
    KeepsOrder
      { s with history := .empty, lastX := none, partition := components s.partition } := by
  refine ⟨isCoherent_components hs, fun r _ hmark => ?_⟩
  -- No region is marked at first.
  change (Array.replicate _ false).getD r false = true at hmark
  rw [getD_replicate] at hmark
  cases hmark

theorem KeepsOrder.of_wholeMedian (hsorts : SortsTotally α) (hs : s.KeepsOrder)
    (hone : s.partition.regionCount = 1) : s.wholeMedian.2.KeepsOrder := by
  obtain ⟨hcoherent, hcount⟩ := isCoherent_wholeMedian hs.coherent
  refine ⟨hcoherent, fun r hr hmark => ?_⟩
  obtain rfl : r = 0 := Nat.lt_one_iff.mp (hcount.trans hone ▸ hr)
  revert hmark
  unfold wholeMedian
  split
  next y _ hy =>
    intro _
    have hfirst : 0 < s.partition.regions.length := Nat.lt_of_lt_of_eq Nat.one_pos hone.symm
    refine ⟨y, hy, ?_⟩
    change Median.IsSorted y ((s.partition.regions.set 0 _).getD 0 [])
    rw [List.getD_eq_getElem _ _ (by simpa using hfirst), List.getElem_set_self]
    exact Median.isSorted_sortByValue hsorts y _
  next => exact hs.sortedAsMarked 0 (hone ▸ Nat.one_pos)

theorem keepsOrder_of_start (hsorts : SortsTotally α) {solve : InnerMethod α} {u : Unit}
    (hs : s.partition.IsArranged)
    (h : (start (steps solve)).Answers { s with history := .empty } u t) : t.KeepsOrder := by
  have hbegun := keepsOrder_components hs
  rcases start_answers h with ⟨hone, c, s₁, hc, rfl⟩ | ⟨-, hsolved⟩
  · obtain ⟨value, -, -, rfl⟩ := constantSolution_answers hc
    have hmedian := hbegun.of_wholeMedian hsorts hone
    exact ⟨hmedian.coherent, hmedian.sortedAsMarked⟩
  · exact hbegun.of_reducedSolution hsorts hsolved

/-! ## Rounds -/

theorem KeepsOrder.of_keepIterate {u : Unit} (hs : s.KeepsOrder)
    (h : keepIterate.Answers s u t) : t.KeepsOrder := by
  obtain ⟨x, -, rfl⟩ := keepIterate_answers h
  exact ⟨hs.coherent.of_marks rfl rfl rfl rfl rfl rfl rfl, hs.sortedAsMarked⟩

/-- The regions rebuilt after a split are finer. -/
theorem KeepsOrder.of_split {n : Nat} (hs : s.KeepsOrder) (h : split.Answers s n t) :
    KeepsOrder { t with partition := t.partition.rebuild.reduceGraph } := by
  have harranged := isArranged_of_split hs.coherent.toIsArranged h
  have hfiner := isFiner_of_split hs.coherent.toIsConsistent h
  obtain ⟨cuts, slope, rfl, -, -⟩ := split_marks h
  refine ⟨harranged.isCoherent_rebuild, harranged.sortedAsMarked_rebuild ?_ (.inl ?_) ?_⟩
  · rw [markRegions_eq]
    exact hs.coherent.mem_region
  · intro u hu v hv huv
    rw [regionOf, regionOf, (markRegions_frame s.partition cuts).2.2.2]
    exact hfiner u hu v hv huv
  · rw [markRegions_eq]
    exact hs.sortedAsMarked

/-- The regions rebuilt by a merger are coarser. -/
theorem KeepsOrder.of_merge {solve : InnerMethod α} {m : Int} (hs : s.KeepsOrder)
    (h : (merge (steps solve)).Answers s m t) : t.KeepsOrder := by
  have htargets := (sameSettings_of_merge h).targets
  obtain ⟨-, hsame | ⟨links, hrebuilt⟩⟩ := merge_partition h
  · constructor
    · rw [hsame]
      exact hs.coherent
    · rw [hsame, htargets]
      exact hs.sortedAsMarked
  · have hopened := hs.coherent.toIsArranged.openGroups links
    constructor
    · rw [hrebuilt]
      exact hopened.isCoherent_rebuild
    · rw [hrebuilt, htargets]
      exact hopened.sortedAsMarked_rebuild hs.coherent.mem_region
        (.inr (hs.coherent.toIsConsistent.isFiner_openGroups links)) hs.sortedAsMarked

theorem KeepsOrder.of_evolution {change : α} (hs : s.KeepsOrder)
    (h : evolution.Answers s change t) : t.KeepsOrder := by
  obtain ⟨x, lastX, last, -, -, rfl⟩ := evolution_answers h
  refine ⟨hs.coherent.of_marks rfl rfl rfl rfl rfl ?_ rfl, hs.sortedAsMarked⟩
  exact size_foldl_setIfInBounds _ _ _ _

variable {solve : InnerMethod α} {r : Recording}

theorem LoopHead.keepsOrder (hsorts : SortsTotally α) (hs : s.partition.IsArranged)
    {left done : Nat} {e : Option α} (h : LoopHead (steps solve) r s left done e t) :
    t.KeepsOrder := by
  induction h with
  | first hstarted hrecorded =>
      have hone := keepsOrder_of_start hsorts hs hstarted
      rw [recordRound_answers objective_answers hrecorded]
      exact ⟨hone.coherent, hone.sortedAsMarked⟩
  | next _ _ hkept hsplit _ hfinished ih =>
      obtain ⟨s₁, merged, s₂, s₃, hsolved, hmerged, hevolution, heq⟩ :=
        finishRound_answers objective_answers hfinished
      have hthree := ((((ih.of_keepIterate hkept).of_split hsplit).of_reducedSolution hsorts
        hsolved).of_merge hmerged).of_evolution hevolution
      rw [heq]
      exact ⟨hthree.coherent, hthree.sortedAsMarked⟩

theorem SolvesAt.keepsOrder (hsorts : SortsTotally α) (hs : s.partition.IsArranged)
    (h : SolvesAt (steps solve) r s t) : t.KeepsOrder := by
  cases h with
  | start => exact keepsOrder_components hs
  | round hsplit =>
      obtain ⟨hhead, -, hkept, hsplit, -⟩ := hsplit
      exact ((hhead.keepsOrder hsorts hs).of_keepIterate hkept).of_split hsplit

/-- The median of a region at a solution in a run, and the order that is left in the arena, are
those of a selection within the segment of the region. -/
theorem SolvesAt.selectWithin?_eq_ok (hsorts : SortsTotally α) (hs : s.partition.IsArranged)
    (h : SolvesAt (steps solve) r s t) {y : Vec α} (hy : t.targets = some y)
    (hfits : ∀ v < t.vertexCount, v < y.size ∧ ∀ w ∈ t.targetWeights.each, v < w.size) {q : Nat}
    (hq : q < t.partition.regionCount) :
    Median.selectWithin? y t.targetWeights.each (t.partition.arena.map Int.ofNat)
        (t.partition.offsets.getD q 0) (t.partition.sizeOf q) =
      .ok ((t.regionMedian y q).1,
        (t.partition.setRegion q (t.regionMedian y q).2).arena.map Int.ofNat) := by
  have hkeeps := h.keepsOrder hsorts hs
  rw [hkeeps.regionMedian_eq hy hq]
  exact Median.selectWithin?_arena t.partition hq (hkeeps.coherent.region_ne_nil' hq)
    fun v hv => hfits v ((hkeeps.coherent.mem_region q hq v).mp hv).1

/-- At every solution over the regions in a run, the segments of the arena that are marked as sorted
are sorted by target, and the medians are those that selecting from every segment gives, as is the
arena that it leaves. -/
theorem selectsMedians_of_solvesAt (hsorts : SortsTotally α) (hs : s.partition.IsArranged)
    (h : SolvesAt (steps solve) r s t) :
    (∀ q < t.partition.regionCount, t.partition.isMedianCached q = true →
      ∃ y, t.targets = some y ∧ Median.IsSorted y (t.partition.segment q)) ∧
    ∀ w y, t.regionWeights? = some w → t.targets = some y →
      ∃ m u, regionTargets.Answers t (some w, some m) u ∧ m.size = t.partition.regionCount ∧
        u.partition.regionCount = t.partition.regionCount ∧ ∀ q < t.partition.regionCount,
          (Vec.entry m q, u.partition.segment q) =
            Median.select y t.targetWeights.each (t.partition.segment q) := by
  have hkeeps := h.keepsOrder hsorts hs
  refine ⟨fun q hq hmark => ?_, fun w y hw hy => ?_⟩
  · rw [segment_eq_region _ hq]
    exact hkeeps.sortedAsMarked q hq hmark
  · have hanswers := regionTargets_answers_of_some hw hy
    have hcount := (isCoherent_of_regionTargets hkeeps.coherent hanswers).2
    refine ⟨_, _, hanswers, by simp [regionMedians], hcount, fun q hq => ?_⟩
    rw [entry_regionMedians t y hq, segment_eq_region _ (hcount ▸ hq), segment_eq_region _ hq,
      region_sortedByTarget t y hq, ← hkeeps.regionMedian_eq hy hq]

/-- Two pairs of vertices, the first observed apart, and targets for the second in falling order. -/
def twoPairs : Solver ℚ :=
  { ofPartition (.whole ⟨#[0, 1, 1, 2, 2], #[0, 2], #[1, 3]⟩ ⟨some #[1, 100], 1⟩) with
    quadratic := .identity 4 1 (some #[0, 10, 3, 3])
    targetWeights := ⟨some #[0, 0, 1, 1], 0⟩
    targets := some #[0, 0, 5, 1]
    inner := { defaultInner with maxIterations := 1 } }

/-- What the first split of a run of these pairs answers, and the solver that it leaves. -/
def twoPairsSplit : Except (Failure ℚ) Nat × Solver ℚ :=
  split.run (keepIterate.run ((start standardSteps).run { twoPairs with history := .empty }).2).2

/-- The solver once the regions are rebuilt. -/
def twoPairsRebuilt : Solver ℚ :=
  { twoPairsSplit.2 with partition := twoPairsSplit.2.partition.rebuild.reduceGraph }

/-- The first pair is divided; the second is solved, and sorted since the start. -/
theorem twoPairsRebuilt_eq : twoPairsSplit.1.toOption = some 1 ∧
    let t := twoPairsRebuilt
    t.partition.regionCount = 3 ∧ t.partition.segment 2 = [3, 2] ∧
      t.partition.isSaturated 2 = true ∧ t.partition.isMedianCached 2 = true ∧
      t.regionWeights? = some #[0, 0, 2] ∧ t.targets = some #[0, 0, 5, 1] ∧
      t.targetWeights.each = some #[0, 0, 1, 1] := by
  unfold twoPairsRebuilt twoPairsSplit start standardSteps steps reducedSolution regionTargets
    regionMedian
  rw [Median.select_eq_insertionSort (sortsTotally_of_exactField ℚ)]
  decide +kernel

theorem selectsMedians_of_solvesAt_twoPairs : SortsTotally ℚ ∧ twoPairs.partition.IsArranged ∧
    ∃ t, SolvesAt standardSteps ⟨false, false⟩ twoPairs t ∧ t.partition.segment 2 = [3, 2] ∧
      t.partition.isSaturated 2 = true ∧ t.partition.isMedianCached 2 = true ∧
      Median.IsSorted #[(0 : ℚ), 0, 5, 1] [3, 2] ∧
      ∃ (m : Vec ℚ) (u : Solver ℚ), regionTargets.Answers t (some #[0, 0, 2], some m) u ∧
        (Vec.entry m 2, u.partition.segment 2) =
          Median.select #[0, 0, 5, 1] (some #[0, 0, 1, 1]) [3, 2] := by
  have hpairs : Partition.ofIndex? #[0, 1, 1, 2, 2] #[1, 3] (some #[1, (100 : ℚ)]) 1 =
      .ok (.whole ⟨#[0, 1, 1, 2, 2], #[0, 2], #[1, 3]⟩ ⟨some #[1, 100], 1⟩) := by
    with_unfolding_all rfl
  have harranged : twoPairs.partition.IsArranged := isArranged_of_ofIndex? hpairs
  have hsorts := sortsTotally_of_exactField ℚ
  obtain ⟨hone, hcount, hsegment, hsaturated, hcached, hweights, htargets, heach⟩ :=
    twoPairsRebuilt_eq
  have hsolves : SolvesAt standardSteps ⟨false, false⟩ twoPairs twoPairsRebuilt :=
    .round (.of_start (answers_of_toOption (by decide +kernel)) (by decide +kernel)
      (by decide +kernel) (answers_of_toOption (by decide +kernel)) (answers_of_toOption hone)
      Nat.one_ne_zero)
  obtain ⟨hsorted, hselects⟩ := selectsMedians_of_solvesAt hsorts harranged hsolves
  have htwo : 2 < twoPairsRebuilt.partition.regionCount := hcount ▸ (by decide : 2 < 3)
  obtain ⟨y, hy, hin⟩ := hsorted 2 htwo hcached
  obtain rfl := Option.some.inj (htargets.symm.trans hy)
  obtain ⟨m, u, hanswers, -, -, hmedians⟩ := hselects _ _ hweights htargets
  have hmedian := hmedians 2 htwo
  rw [hsegment] at hin hmedian
  rw [heach] at hmedian
  exact ⟨hsorts, harranged, _, hsolves, hsegment, hsaturated, hcached, hin, m, u, hanswers, hmedian⟩

end Solver
end TotalVariation
