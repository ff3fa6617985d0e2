import Mathlib
import TotalVariation.Proofs.Solver.Feasible
import TotalVariation.Proofs.Solver.Valued

/-! # Values within common bounds

Where all vertices have the same bounds, no value ever leaves them: the best constant is brought
between them, a solution by splitting respects them even if no iteration is made, since it then is
the kept iterate or an outcome of the separable map, and the mean of merged values lies between them
again.
-/

namespace TotalVariation

open Step TotalVariation.Partition TotalVariation.Bound

variable {K : Type} [ExactField K]

/-- Means over regions of values between two bounds lie between them. -/
theorem Partition.IsConsistent.isBetween_regionMeans {P : Partition K} (h : P.IsConsistent)
    {low upp : Bound K} {values : Vec K}
    (hvalues : ∀ v < P.vertexCount, IsBetween low upp (Vec.entry values v)) {r : Nat}
    (hr : r < P.regionCount) : IsBetween low upp (Vec.entry (P.regionMeans values) r) := by
  have hcard : (0 : K) < (P.members r).card :=
    Nat.cast_pos.mpr (Finset.card_pos.mpr (h.members_nonempty hr))
  rw [regionMeans, Vec.entry_tabulate, if_pos hr, entry_regionSums P values hr, h.sizeOf_eq hr]
  constructor
  · intro l hl
    rw [le_div_iff₀ hcard, mul_comm, ← nsmul_eq_mul]
    exact Finset.card_nsmul_le_sum _ _ _ fun v hv => (hvalues v (mem_members.mp hv).1).1 l hl
  · intro u hu
    rw [div_le_iff₀ hcard, mul_comm, ← nsmul_eq_mul]
    exact Finset.sum_le_card_nsmul _ _ _ fun v hv => (hvalues v (mem_members.mp hv).1).2 u hu

namespace Solver

variable {s t : Solver K} {low upp : Bound K} {r : Recording}

/-- All vertices have the same two bounds, which leave room for a value. -/
structure HasCommonBounds (low upp : Bound K) (s : Solver K) : Prop where
  lower : s.lower = ⟨none, low⟩
  upper : s.upper = ⟨none, upp⟩
  uncrossed : AreUncrossed low upp

/-- Every entry of a vector lies between two bounds. -/
def Encloses (low upp : Bound K) (x : Vec K) : Prop :=
  ∀ i < x.size, IsBetween low upp (Vec.entry x i)

/-- A solver has an iterate, and all its entries lie between two bounds. -/
def IsWithin (low upp : Bound K) (s : Solver K) : Prop := ∃ x, s.x = some x ∧ Encloses low upp x

theorem HasCommonBounds.of_sameSettings (h : s.HasCommonBounds low upp) (hsame : SameSettings s t) :
    t.HasCommonBounds low upp where
  lower := hsame.lower.trans h.lower
  upper := hsame.upper.trans h.upper
  uncrossed := h.uncrossed

/-! ## Solutions -/

/-- Values from which a solution starts are values of the kept iterate. -/
theorem encloses_of_warmStart? (hlast : ∀ x, s.lastX = some x → Encloses low upp x)
    {init : Option (Vec K)} (h : s.warmStart? = .ok init) {y : Vec K} (hy : init = some y) :
    Encloses low upp y := by
  subst hy
  unfold warmStart? at h
  split at h
  next x assignment hx _ =>
    dsimp only at h
    split at h
    next => cases h
    next hinside =>
      obtain rfl := Option.some.inj (Except.ok.inj h)
      intro i hi
      rw [Vec.size_tabulate] at hi
      rw [Vec.entry_tabulate, if_pos hi]
      refine hlast x hx _ ?_
      by_contra hout
      exact hinside (List.any_eq_true.mpr
        ⟨i, List.mem_range.mpr hi, decide_eq_true (not_lt.mp hout)⟩)
  next => cases h

/-- A solution over the regions stays within the bounds if the kept iterate does. -/
theorem isWithin_of_reducedSolution (hs : s.partition.IsCoherent)
    (hbounds : s.HasCommonBounds low upp) (hbackend : s.inner.backend = .splitting)
    (hlast : ∀ x, s.lastX = some x → Encloses low upp x) {u : Unit}
    (h : (reducedSolution innerMethod).Answers s u t) : t.IsWithin low upp := by
  obtain ⟨y, hy, hysize⟩ :=
    (isSolved_of_reducedSolution (answersInSize_innerMethod hbackend) hs h).iterate
  obtain ⟨premultiply, reduced, design, weights, targets, s₁, init, x, iterations, -, hreduced,
    htargets, hinit, hx, rfl⟩ := reducedSolution_answers h
  obtain rfl := Option.some.inj hy
  obtain ⟨-, hcount⟩ := isCoherent_of_regionTargets hs htargets
  have hsame := sameSettings_of_regionTargets htargets
  have hlast₁ : ∀ y, s₁.lastX = some y → Encloses low upp y := by
    obtain ⟨-, rfl⟩ := regionTargets_answers.mp htargets
    rw [sorted_eq]
    exact hlast
  obtain rfl := innerMethod_eq_ok (hsame.inner ▸ hbackend) hx
  have hsize : (s₁.regionProblem reduced weights targets).size = s₁.partition.regionCount := by
    have hreduce := size_reduce s.quadratic s.partition premultiply
    rw [← reduce?_eq_ok hreduced] at hreduce
    exact hreduce.trans hcount.symm
  refine ⟨_, rfl, fun i hi => ?_⟩
  have hi' : i < s₁.partition.regionCount := hysize ▸ hi
  have hlower : (s₁.regionProblem reduced weights targets).lowerAt i = low := by
    rw [Problem.lowerAt, regionProblem, regionLower, hsame.lower, hbounds.lower]
    simp [hi']
  have hupper : (s₁.regionProblem reduced weights targets).upperAt i = upp := by
    rw [Problem.upperAt, regionProblem, regionUpper, hsame.upper, hbounds.upper]
    simp [hi']
  rw [← hlower, ← hupper]
  refine Splitting.isBetween_solve_of_init (hsize ▸ hi') ?_ fun z hz => ?_
  · rw [hlower, hupper]
    exact hbounds.uncrossed
  · rw [hlower, hupper]
    exact encloses_of_warmStart? hlast₁ hinit hz i ((size_of_warmStart? hinit hz).symm ▸ hi')

/-- A start leaves values within the bounds. -/
theorem isWithin_of_start (hs : s.partition.IsArranged) (hbounds : s.HasCommonBounds low upp)
    (hbackend : s.inner.backend = .splitting) {u : Unit}
    (h : (start standardSteps).Answers s u t) : t.IsWithin low upp := by
  rcases start_answers h with ⟨-, c, s₁, hc, rfl⟩ | ⟨-, hsolved⟩
  · obtain ⟨value, -, rfl, -⟩ := constantSolution_answers hc
    refine ⟨_, rfl, fun i hi => ?_⟩
    obtain rfl : i = 0 := Nat.lt_one_iff.mp hi
    change IsBetween low upp (clamp s.begun.largestLower s.begun.smallestUpper value)
    have hbegun := hbounds.of_sameSettings s.sameSettings_begun
    rw [largestLower, smallestUpper, hbegun.lower, hbegun.upper]
    exact isBetween_clamp hbounds.uncrossed value
  · exact isWithin_of_reducedSolution (s := s.begun) (isCoherent_components hs)
      (hbounds.of_sameSettings s.sameSettings_begun) hbackend (by rintro x ⟨⟩) hsolved

/-- A merger leaves the values within the bounds. -/
theorem isWithin_of_merge {solve : InnerMethod K} {m : Int} (hs : s.IsSolved)
    (hwithin : s.IsWithin low upp) (h : (merge (steps solve)).Answers s m t) :
    t.IsWithin low upp := by
  obtain ⟨x, hx, hsize⟩ := hs.iterate
  obtain ⟨x', hx', hencloses⟩ := hwithin
  obtain rfl := Option.some.inj (hx.symm.trans hx')
  obtain ⟨y, hok, hstored⟩ := stored_of_merge hx h
  rw [hstored]
  refine ⟨y, rfl, ?_⟩
  rcases merge?_eq_ok hok with ⟨-, -, rfl, -⟩ | ⟨-, -, rfl, -⟩
  · exact hencloses
  · have hcoherent := (hs.partition.toIsArranged.openGroups
      (s.partition.closePairs x s.mergeTolerance)).isCoherent_rebuild
    intro i hi
    refine hcoherent.toIsConsistent.isBetween_regionMeans (fun v hv => ?_)
      (hi.trans_eq (Vec.size_tabulate _ _))
    rw [entry_expand s.partition x hv]
    exact hencloses _ (hsize ▸ hs.partition.toIsConsistent.regionOf_lt hv)

theorem IsWithin.of_evolution {change : K} (h : s.IsWithin low upp)
    (hchange : evolution.Answers s change t) : t.IsWithin low upp := by
  obtain ⟨x, lastX, last, -, -, rfl⟩ := evolution_answers hchange
  exact h

/-! ## Along a run -/

/-- The solution of a round starts from the kept iterate. -/
theorem isWithin_of_rebuilt {n : Nat} {u w : Unit} {s₁ s₂ : Solver K} (hs : s.IsSolved)
    (hwithin : s.IsWithin low upp) (hbounds : s.HasCommonBounds low upp)
    (hbackend : s.inner.backend = .splitting) (hkept : keepIterate.Answers s u s₁)
    (hsplit : split.Answers s₁ n s₂)
    (hsolved : (reducedSolution innerMethod).Answers s₂.rebuilt w t) : t.IsWithin low upp := by
  have hsame := ((sameSettings_of_keepIterate hkept).trans (sameSettings_of_split hsplit)).trans
    s₂.sameSettings_rebuilt
  have harranged :=
    isArranged_of_split (isSolved_of_keepIterate hs hkept).partition.toIsArranged hsplit
  refine isWithin_of_reducedSolution (s := s₂.rebuilt) harranged.isCoherent_rebuild
    (hbounds.of_sameSettings hsame) (hsame.inner ▸ hbackend) (fun y hy => ?_) hsolved
  obtain ⟨x, hx, hencloses⟩ := hwithin
  obtain ⟨x', hx', rfl⟩ := keepIterate_answers hkept
  obtain rfl := Option.some.inj (hx.symm.trans hx')
  obtain ⟨slope, found, -, -, rfl, -⟩ := split_answers.mp hsplit
  obtain rfl := Option.some.inj hy
  exact hencloses

section Run

variable (hs : s.partition.IsArranged) (hbounds : s.HasCommonBounds low upp)
  (hbackend : s.inner.backend = .splitting)

include hs hbounds hbackend

theorem LoopHead.isWithin {left done : Nat} {e : Option K}
    (h : LoopHead standardSteps r s left done e t) : t.IsWithin low upp := by
  induction h with
  | first hstarted hrecorded =>
      have hwithin := isWithin_of_start (s := { s with history := .empty }) hs
        ⟨hbounds.lower, hbounds.upper, hbounds.uncrossed⟩ hbackend hstarted
      rw [recordRound_answers objective_answers hrecorded]
      exact hwithin
  | next hhead hopen hkept hsplit hsome hfinished ih =>
      obtain ⟨s₁, merged, s₂, s₃, hsolved, hmerged, hchange, heq⟩ :=
        finishRound_answers objective_answers hfinished
      have hsolve := answersInSize_innerMethod hbackend
      have hsplits : SplitsTo standardSteps r s _ := .intro hhead hopen hkept hsplit hsome
      have hstored := isStored_of_rebuilt (hsplits.sameSettings.inner ▸ hsolve)
        (hsplits.isArranged hs hsolve) hsolved
      have hone := isWithin_of_rebuilt (hhead.isSolved hsolve hs) ih
        (hbounds.of_sameSettings hhead.sameSettings) (hhead.sameSettings.inner ▸ hbackend) hkept
        hsplit hsolved
      have htwo := (isWithin_of_merge hstored.toIsSolved hone hmerged).of_evolution hchange
      rw [heq]
      exact htwo

theorem SolvesAt.isWithin {u : Unit} {v : Solver K} (h : SolvesAt standardSteps r s t)
    (hsolved : (reducedSolution innerMethod).Answers t u v) : v.IsWithin low upp := by
  cases h with
  | start _ =>
      exact isWithin_of_reducedSolution (s := begun { s with history := .empty })
        (isCoherent_components hs) ⟨hbounds.lower, hbounds.upper, hbounds.uncrossed⟩ hbackend
        (by rintro x ⟨⟩) hsolved
  | round hsplits =>
      obtain ⟨hhead, -, hkept, hsplit, -⟩ := hsplits
      exact isWithin_of_rebuilt (hhead.isSolved (answersInSize_innerMethod hbackend) hs)
        (hhead.isWithin hs hbounds hbackend) (hbounds.of_sameSettings hhead.sameSettings)
        (hhead.sameSettings.inner ▸ hbackend) hkept hsplit hsolved

theorem ComparesAt.isWithin (h : ComparesAt standardSteps r s t) : t.IsWithin low upp := by
  obtain ⟨hsplits, hsolved, hmerged⟩ := h
  have hsolve := answersInSize_innerMethod hbackend
  have hstored := isStored_of_rebuilt (hsplits.sameSettings.inner ▸ hsolve)
    (hsplits.isArranged hs hsolve) hsolved
  exact isWithin_of_merge hstored.toIsSolved
    ((SolvesAt.round hsplits).isWithin hs hbounds hbackend hsolved) hmerged

omit hs hbounds hbackend in
theorem LoopEnd.isWithin {left : Nat} {e : Option K} {u : Solver K} (ht : t.IsWithin low upp)
    (h : LoopEnd standardSteps left e t u) : u.IsWithin low upp := by
  cases h with
  | exhausted _ heq =>
      rw [heq]
      exact ht
  | settled _ heq =>
      rw [heq]
      exact ht
  | unsplit _ hkept hsplit =>
      obtain ⟨x, -, rfl⟩ := keepIterate_answers hkept
      obtain ⟨slope, found, -, -, rfl, -⟩ := split_answers.mp hsplit
      exact ht

/-- With splitting as the method, however many iterations it makes, and common bounds, a run has all
values within the bounds after its start, after each solution over the regions, after each merger,
of values however close, and at its end. -/
theorem isWithin_of_run :
    (∀ {u : Unit} {t : Solver K}, (start standardSteps).Answers { s with history := .empty } u t →
      t.IsWithin low upp) ∧
    (∀ {t : Solver K}, SolvesAt standardSteps r s t → ∀ {u : Unit} {v : Solver K},
      (reducedSolution innerMethod).Answers t u v → v.IsWithin low upp) ∧
    (∀ {t : Solver K}, ComparesAt standardSteps r s t → t.IsWithin low upp) ∧
    ∀ {n : Nat} {t : Solver K}, (run standardSteps true r).Answers s n t → t.IsWithin low upp := by
  refine ⟨fun h => ?_, fun h _ _ hsolved => h.isWithin hs hbounds hbackend hsolved,
    fun h => h.isWithin hs hbounds hbackend, fun h => ?_⟩
  · exact isWithin_of_start (s := { s with history := .empty }) hs
      ⟨hbounds.lower, hbounds.upper, hbounds.uncrossed⟩ hbackend h
  · obtain ⟨left, e, u, hhead, hend⟩ := exists_end_of_run h
    exact hend.isWithin (hhead.isWithin hs hbounds hbackend)

end Run

/-- Two pairs of vertices between bounds of one and eight, solved without any iteration. -/
def idlePairs : Solver ℚ :=
  { ofPartition (.whole ⟨#[0, 1, 1, 2, 2], #[0, 2], #[1, 3]⟩ ⟨none, 1⟩) with
    quadratic := .identity 4 1 (some #[0, 10, 2, 16])
    lower := ⟨none, some 1⟩
    upper := ⟨none, some 8⟩
    mergeTolerance := 1 / 2
    inner := { defaultInner with maxIterations := 0 } }

/-- The first iterate is all that is found: the observations ask for five and nine. -/
theorem isWithin_of_run_idlePairs :
    idlePairs.partition.IsArranged ∧ idlePairs.HasCommonBounds (some 1) (some 8) ∧
      idlePairs.inner.backend = .splitting ∧
      ∃ t, (run standardSteps true ⟨true, false⟩).Answers idlePairs 1 t ∧ t.x = some #[5, 8] ∧
        t.IsWithin (some 1) (some 8) := by
  have hpairs : Partition.ofIndex? #[0, 1, 1, 2, 2] #[1, 3] none (1 : ℚ) =
      .ok idlePairs.partition := by with_unfolding_all rfl
  have harranged : idlePairs.partition.IsArranged := isArranged_of_ofIndex? hpairs
  have hbounds : idlePairs.HasCommonBounds (some 1) (some 8) := by
    refine ⟨rfl, rfl, ?_⟩
    rintro l u ⟨⟩ ⟨⟩
    norm_num
  have hrun : (run standardSteps true ⟨true, false⟩).Answers idlePairs 1 _ :=
    answers_of_toOption (by decide +kernel)
  exact ⟨harranged, hbounds, rfl, _, hrun, by decide +kernel,
    (isWithin_of_run harranged hbounds rfl).2.2.2 hrun⟩

end Solver
end TotalVariation
