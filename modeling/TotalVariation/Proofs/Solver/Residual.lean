import Mathlib
import TotalVariation.Proofs.Partition.Merge
import TotalVariation.Proofs.Quadratic.Restriction
import TotalVariation.Proofs.Solver.Coherent
import TotalVariation.Proofs.Solver.Rounds

/-! # The residual along runs

A direct term takes its gradient and its value from a residual that is stored beside the iterate. It
is computed in three ways: from the sums of the rows for a constant, from the reduced design for a
solution over the regions, and from the design itself after a merger. Between these the iterate on
the vertices does not change, so that the stored residual is always that of the iterate.
-/

namespace TotalVariation

open Step TotalVariation.Partition

variable {K : Type} [ExactField K]

namespace Quadratic

variable {A : DenseMatrix K} {y : Vec K}

/-- The residual of two points is the same if each row of the design has the same product with
both. -/
theorem residualOf_congr {B : DenseMatrix K} {x z : Vec K} (hrows : B.rows = A.rows)
    (hproduct : ∀ i < A.rows, ∑ j ∈ Finset.range B.cols, B.entry i j * Vec.entry x j =
      ∑ j ∈ Finset.range A.cols, A.entry i j * Vec.entry z j) :
    residualOf B y x = residualOf A y z := by
  unfold residualOf
  apply Array.ext
  · simp [hrows]
  · intro i hi _
    have hlt : i < A.rows := by simpa [hrows] using hi
    rw [Vec.getElem_tabulate, Vec.getElem_tabulate, B.entry_mulVec x (hrows ▸ hlt),
      A.entry_mulVec z hlt, hproduct i hlt]

/-- The reduced design leaves the residual of the expanded values, however many values there
are. -/
theorem residualOf_regionColumns {P : Partition K} (hP : P.IsConsistent)
    (hcols : A.cols = P.vertexCount) (x : Vec K) :
    residualOf (regionColumns P A) y x = residualOf A y (P.expand x) := by
  refine residualOf_congr rfl fun i hi => ?_
  rw [sum_regionColumns_mul hP.toIsArranged hP.isIndexed hcols hi]
  apply Finset.sum_congr rfl
  intro v hv
  rw [P.entry_expand x (hcols ▸ Finset.mem_range.mp hv)]

/-- The sums of the rows leave the residual of a constant. -/
theorem constantResidual_eq {P : Partition K} (hone : ∀ v < P.vertexCount, P.regionOf v = 0)
    (hcols : A.cols = P.vertexCount) (u : K) (former : Option (Vec K)) :
    Solver.constantResidual (direct A y) u former = some (residualOf A y (P.expand #[u])) := by
  have hsum : ∀ i < A.rows, Vec.entry A.rowSums i * u =
      ∑ v ∈ Finset.range A.cols, A.entry i v * Vec.entry (P.expand #[u]) v := by
    intro i hi
    rw [DenseMatrix.rowSums, Vec.entry_tabulate, if_pos hi, Vec.total_eq, Finset.sum_mul]
    apply Finset.sum_congr rfl
    intro v hv
    have hlt : v < P.vertexCount := hcols ▸ Finset.mem_range.mp hv
    rw [P.entry_expand _ hlt, hone v hlt]
    rfl
  refine congrArg some (Array.ext (by simp [residualOf]) fun i hi _ => ?_)
  have hlt : i < A.rows := by simpa using hi
  simp only [residualOf, Vec.getElem_tabulate]
  rw [A.entry_mulVec _ hlt, ← hsum i hlt]
  rfl

end Quadratic

namespace Solver

variable {A : DenseMatrix K} {y : Vec K} {s t : Solver K}

/-- The stored residual is that of the iterate on the vertices. -/
def TracksResidual (A : DenseMatrix K) (y : Vec K) (s : Solver K) : Prop :=
  ∃ x, s.x = some x ∧
    s.residual = some (Quadratic.residualOf A y (s.partition.expand x))

/-- What neither moves a vertex nor changes the iterate leaves the residual tracked. -/
theorem TracksResidual.of_frame (h : TracksResidual A y s)
    (hgraph : t.partition.graph = s.partition.graph)
    (hassignment : t.partition.assignment = s.partition.assignment) (hx : t.x = s.x)
    (hresidual : t.residual = s.residual) : TracksResidual A y t := by
  obtain ⟨x, hs, hr⟩ := h
  have hexpand : t.partition.expand x = s.partition.expand x := by
    simp only [Partition.expand, Partition.vertexCount, Partition.regionOf, hgraph, hassignment]
  exact ⟨x, hx.trans hs, by rw [hresidual, hr, hexpand]⟩

/-- The partition is coherent and the residual that of the iterate. -/
structure IsTracking (A : DenseMatrix K) (y : Vec K) (s : Solver K) : Prop where
  partition : s.partition.IsCoherent
  residual : TracksResidual A y s

variable {solve : InnerMethod K} {r : Recording}

/-! ## Steps -/

/-- A solution over the regions keeps the partition coherent, whatever the method answers. -/
theorem isCoherent_of_reducedSolution {u : Unit} (hs : s.partition.IsCoherent)
    (h : (reducedSolution solve).Answers s u t) : t.partition.IsCoherent := by
  obtain ⟨premultiply, reduced, design, weights, targets, s₁, init, x, iterations, -, -, htargets,
    -, -, rfl⟩ := reducedSolution_answers h
  exact (isCoherent_of_regionTargets hs htargets).1

/-- A solution over the regions takes the residual from the reduced design, premultiplied or
not. -/
theorem isTracking_of_reducedSolution {u : Unit} (hs : s.partition.IsCoherent)
    (hdirect : s.quadratic = .direct A y) (hcols : A.cols = s.vertexCount)
    (h : (reducedSolution solve).Answers s u t) : IsTracking A y t := by
  have hcoherent := isCoherent_of_reducedSolution hs h
  have hsettings := sameSettings_of_reducedSolution h
  obtain ⟨premultiply, reduced, design, weights, targets, s₁, init, x, iterations, -, hreduced,
    htargets, -, -, rfl⟩ := reducedSolution_answers h
  refine ⟨hcoherent, x, rfl, ?_⟩
  have hdesign : design = some (Quadratic.regionColumns s.partition A) := by
    have hpair := reduce?_eq_ok hreduced
    rw [hdirect] at hpair
    cases premultiply <;> exact (Prod.mk.inj hpair).2
  have hterm : s₁.quadratic = .direct A y := hsettings.quadratic.trans hdirect
  have hexpand : s₁.partition.expand x = s.partition.expand x := by
    obtain ⟨-, rfl⟩ := regionTargets_answers.mp htargets
    obtain hsorted | ⟨targets, -, hsorted⟩ := s.sorted_cases
    · rw [hsorted]
    · rw [hsorted]
      rfl
  change solvedResidual s₁.quadratic design x s₁.residual = _
  rw [hterm, hdesign, hexpand]
  exact congrArg some
    (Quadratic.residualOf_regionColumns hs.toIsConsistent hcols x)

/-- A run begins with the residual of its first iterate. -/
theorem isTracking_of_start {u : Unit} (hs : s.partition.IsArranged)
    (hdirect : s.quadratic = .direct A y) (hcols : A.cols = s.vertexCount)
    (h : (start (steps solve)).Answers s u t) : IsTracking A y t := by
  have hbegun := isCoherent_components hs
  rcases start_answers h with ⟨hone, c, s₁, hc, rfl⟩ | ⟨-, hsolved⟩
  · obtain ⟨value, -, -, rfl⟩ := constantSolution_answers hc
    obtain ⟨hcoherent, hcount⟩ :=
      isCoherent_wholeMedian (s := { s with lastX := none, partition := components s.partition })
        hbegun
    refine ⟨hcoherent, #[c], rfl, ?_⟩
    set s₁ := wholeMedian { s with lastX := none, partition := components s.partition } with hs₁
    have hvertices : A.cols = s₁.2.partition.vertexCount := by
      rw [hcols, hs₁]
      unfold wholeMedian
      split <;> rfl
    change constantResidual s.quadratic c s₁.2.residual = _
    rw [hdirect]
    refine Quadratic.constantResidual_eq (fun v hv => ?_) hvertices c _
    have hlt := hcoherent.regionOf_lt hv
    rw [hcount.trans hone] at hlt
    exact Nat.lt_one_iff.mp hlt
  · exact isTracking_of_reducedSolution
      (s := { s with lastX := none, partition := components s.partition })
      hbegun hdirect hcols hsolved

/-- A merger that changes the regions makes them fewer, and is followed by a renewal of the
residual; any other leaves the iterate alone. -/
theorem isTracking_of_merge {m : Int} (hs : IsTracking A y s)
    (hdirect : s.quadratic = .direct A y) (h : (merge (steps solve)).Answers s m t) :
    IsTracking A y t := by
  rcases merge_answers h with ⟨-, -, -, rfl⟩ | ⟨x, z, hx, hmerge, hmerged⟩
  · exact hs
  · rcases merge?_eq_ok hmerge with ⟨-, hsame, rfl, rfl⟩ | ⟨hclose, hrebuilt, -, -⟩
    · -- No values are close.
      rcases hmerged with ⟨-, rfl⟩ | ⟨hne, -⟩
      · rw [hsame]
        exact ⟨hs.partition, hs.residual.of_frame rfl rfl hx.symm rfl⟩
      · exact absurd rfl hne
    · have hpos := hs.partition.merge?_merged_pos hmerge hclose
      rcases hmerged with ⟨hzero, -⟩ | ⟨-, hrenewed⟩
      · exact absurd hzero hpos.ne'
      · have hcoherent : (s.partition.merge? x s.mergeTolerance).1.IsCoherent := by
          rw [hrebuilt]
          exact (hs.partition.toIsArranged.openGroups _).isCoherent_rebuild
        rcases renewResidual_answers hrenewed with ⟨hplain, -⟩ |
          ⟨-, x', w, residual, hx', hexpand, hresidual, rfl⟩
        · have htrue : s.quadratic.isDirect = true := by rw [hdirect]; rfl
          exact absurd (htrue.symm.trans hplain) Bool.true_eq_false_eq_False
        · refine ⟨hcoherent, x', hx', ?_⟩
          obtain rfl : w = _ := by
            unfold Partition.expand? at hexpand
            split at hexpand
            next => exact (Except.ok.inj hexpand).symm
            next => cases hexpand
          change s.quadratic.residual? _ = _ at hresidual
          rw [hdirect] at hresidual
          unfold Quadratic.residual? at hresidual
          dsimp only at hresidual
          split at hresidual
          next => exact congrArg some (Except.ok.inj hresidual).symm
          next => cases hresidual

theorem isTracking_of_evolution {change : K} (hs : IsTracking A y s)
    (h : evolution.Answers s change t) : IsTracking A y t := by
  obtain ⟨x, lastX, last, -, -, rfl⟩ := evolution_answers h
  exact ⟨hs.partition.of_marks rfl rfl rfl rfl rfl (size_foldl_setIfInBounds _ _ _ _) rfl,
    hs.residual.of_frame rfl rfl rfl rfl⟩

theorem isTracking_of_keepIterate {u : Unit} (hs : IsTracking A y s)
    (h : keepIterate.Answers s u t) : IsTracking A y t := by
  obtain ⟨x, -, rfl⟩ := keepIterate_answers h
  exact ⟨hs.partition.of_marks rfl rfl rfl rfl rfl rfl rfl, hs.residual.of_frame rfl rfl rfl rfl⟩

/-- A split that finds nothing changes marks only. -/
theorem isTracking_of_split_zero (hs : IsTracking A y s) (h : split.Answers s 0 t) :
    IsTracking A y t := by
  obtain ⟨slope, found, -, -, rfl, hcount⟩ := split_answers.mp h
  obtain ⟨hcoherent, -⟩ := isCoherent_markRegions hs.partition hcount.symm
  obtain ⟨hgraph, -, -, hassignment⟩ :=
    markRegions_frame s.partition ((openRegions s.partition).zip found)
  exact ⟨hcoherent, hs.residual.of_frame hgraph hassignment rfl rfl⟩

/-! ## Runs -/

/-- Recording leaves the residual tracked. -/
theorem IsTracking.of_history (hs : IsTracking A y s) {h : History K}
    (heq : t = { s with history := h }) : IsTracking A y t := by
  rw [heq]
  exact ⟨hs.partition, hs.residual⟩

/-- The solver works on a direct term over the vertices of its graph. -/
structure IsDirect (A : DenseMatrix K) (y : Vec K) (s : Solver K) : Prop where
  quadratic : s.quadratic = .direct A y
  fits : s.quadratic.Fits s.vertexCount

omit [ExactField K] in
theorem IsDirect.cols_eq (h : IsDirect A y s) : A.cols = s.vertexCount := by
  have hfits := h.fits
  rw [h.quadratic] at hfits
  exact hfits.1

omit [ExactField K] in
theorem SameSettings.isDirect (h : SameSettings s t) (hs : IsDirect A y s) : IsDirect A y t where
  quadratic := h.quadratic.trans hs.quadratic
  fits := by
    rw [h.quadratic, h.vertexCount]
    exact hs.fits

/-- Splitting, solving over the rebuilt regions and merging leave the residual tracked. -/
theorem isTracking_of_round {n : Nat} {u v : Solver K} {m : Int} (hs : IsTracking A y s)
    (hdirect : IsDirect A y s) (hsplit : split.Answers s n u)
    (hsolved : (reducedSolution solve).Answers
      { u with partition := u.partition.rebuild.reduceGraph } () v)
    (hmerged : (merge (steps solve)).Answers v m t) : IsTracking A y t := by
  have hdivided : IsDirect A y u := (sameSettings_of_split hsplit).isDirect hdirect
  have harranged : u.partition.IsArranged := by
    obtain ⟨slope, found, -, -, rfl, -⟩ := split_answers.mp hsplit
    exact isArranged_markRegions hs.partition.toIsArranged _
  have hrebuilt : IsTracking A y v := isTracking_of_reducedSolution
    (s := { u with partition := u.partition.rebuild.reduceGraph })
    harranged.isCoherent_rebuild hdivided.quadratic hdivided.cols_eq hsolved
  refine isTracking_of_merge hrebuilt ?_ hmerged
  exact (sameSettings_of_reducedSolution hsolved).quadratic.trans hdivided.quadratic

theorem LoopEnd.isTracking {left : Nat} {e : Option K} {u : Solver K} (ht : IsTracking A y t)
    (h : LoopEnd (steps solve) left e t u) : IsTracking A y u := by
  cases h with
  | exhausted _ heq => exact ht.of_history heq
  | settled _ heq =>
      rw [heq]
      exact ht
  | unsplit _ hkept hsplit =>
      exact isTracking_of_split_zero (isTracking_of_keepIterate ht hkept) hsplit

section Run

variable (hs : s.partition.IsArranged) (hdirect : IsDirect A y s)

include hs hdirect

theorem LoopHead.isTracking {left done : Nat} {e : Option K}
    (h : LoopHead (steps solve) r s left done e t) : IsTracking A y t := by
  induction h with
  | first hstarted hrecorded =>
      have hone := isTracking_of_start (s := { s with history := .empty }) hs hdirect.quadratic
        hdirect.cols_eq hstarted
      exact hone.of_history (recordRound_answers objective_answers hrecorded)
  | next hhead _ hkept hsplit _ hfinished ih =>
      obtain ⟨s₁, merged, s₂, s₃, hsolved, hmerged, hevolution, heq⟩ :=
        finishRound_answers objective_answers hfinished
      have hkeep := isTracking_of_keepIterate ih hkept
      have hround := isTracking_of_round hkeep ((hhead.sameSettings.trans
        (sameSettings_of_keepIterate hkept)).isDirect hdirect) hsplit hsolved hmerged
      exact (isTracking_of_evolution hround hevolution).of_history heq

theorem SplitsAt.isTracking (h : SplitsAt (steps solve) r s t) : IsTracking A y t := by
  obtain ⟨hhead, -, hkept⟩ := h
  exact isTracking_of_keepIterate (hhead.isTracking hs hdirect) hkept

theorem ComparesAt.isTracking (h : ComparesAt (steps solve) r s t) : IsTracking A y t := by
  obtain ⟨⟨hhead, hopen, hkept, hsplit, -⟩, hsolved, hmerged⟩ := h
  have hkeep := (SplitsAt.intro hhead hopen hkept).isTracking hs hdirect
  exact isTracking_of_round hkeep ((hhead.sameSettings.trans
    (sameSettings_of_keepIterate hkept)).isDirect hdirect) hsplit hsolved hmerged

theorem RecordsAt.isTracking (h : RecordsAt (steps solve) r s t) : IsTracking A y t := by
  cases h with
  | start hstarted =>
      exact isTracking_of_start (s := { s with history := .empty }) hs hdirect.quadratic
        hdirect.cols_eq hstarted
  | round hcompared hchange =>
      exact isTracking_of_evolution (hcompared.isTracking hs hdirect) hchange

/-- Whatever the method answers and whatever values count as equal, the stored residual of a direct
term is that of the iterate on the vertices wherever a run takes a gradient or an objective, and at
its end. -/
theorem tracksResidual_of_run :
    (∀ {t : Solver K}, SplitsAt (steps solve) r s t → TracksResidual A y t) ∧
    (∀ {t : Solver K}, RecordsAt (steps solve) r s t → TracksResidual A y t) ∧
    ∀ {n : Nat} {t : Solver K}, (run (steps solve) true r).Answers s n t →
      TracksResidual A y t := by
  refine ⟨fun h => (h.isTracking hs hdirect).residual, fun h => (h.isTracking hs hdirect).residual,
    fun h => ?_⟩
  obtain ⟨left, e, u, hhead, hend⟩ := exists_end_of_run h
  exact (hend.isTracking (hhead.isTracking hs hdirect)).residual

end Run

/-- Two vertices observed twice, first in a mixture, and one iteration for each solution. -/
def mixedPair (P : Partition ℚ) : Solver ℚ :=
  { ofPartition P with
    quadratic := .direct ⟨2, 2, #[#[1, 2], #[0, 1]]⟩ #[0, 10]
    inner := { defaultInner with maxIterations := 1 } }

theorem tracksResidual_of_run_mixedPair :
    ∃ P, Partition.ofIndex? #[0, 1, 1] #[1] none (1 : ℚ) = .ok P ∧
      ∃ t, (run standardSteps true ⟨true, false⟩).Answers (mixedPair P) 1 t ∧
        t.x = some #[1 / 3, 9 / 7] ∧ t.residual = some #[-61 / 21, 61 / 7] ∧
        TracksResidual ⟨2, 2, #[#[1, 2], #[0, 1]]⟩ #[0, 10] t := by
  have hP : Partition.ofIndex? #[0, 1, 1] #[1] none (1 : ℚ) =
      .ok (.whole ⟨#[0, 1, 1], #[0], #[1]⟩ ⟨none, 1⟩) := by with_unfolding_all rfl
  have hrun : (run standardSteps true ⟨true, false⟩).Answers
      (mixedPair (.whole ⟨#[0, 1, 1], #[0], #[1]⟩ ⟨none, 1⟩)) 1 _ :=
    answers_of_toOption (by decide +kernel)
  have hdirect : IsDirect ⟨2, 2, #[#[1, 2], #[0, 1]]⟩ #[0, 10]
      (mixedPair (.whole ⟨#[0, 1, 1], #[0], #[1]⟩ ⟨none, 1⟩)) := ⟨rfl, ⟨rfl, rfl⟩⟩
  exact ⟨_, hP, _, hrun, by decide +kernel, by decide +kernel,
    (tracksResidual_of_run (isArranged_of_ofIndex? hP) hdirect).2.2 hrun⟩

end Solver
end TotalVariation
