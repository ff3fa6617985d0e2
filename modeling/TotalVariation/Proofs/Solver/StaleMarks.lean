import Mathlib
import TotalVariation.Proofs.Solver.Minimal
import TotalVariation.Proofs.Solver.Resumed

/-! # Marks of solved regions after new settings

A region that is marked as solved is not tested again, and a setting leaves the marks as they are.
So when a run that goes on ends because its split finds nothing, there is nothing to find in the
regions that were not marked then. In a marked region there may be, if the settings changed since it
was marked.
-/

namespace TotalVariation.Solver

open Step TotalVariation.Partition

/-! ## A split that finds nothing -/

section Unsplit

variable {α : Type}

/-- Regions in which nothing is found are only marked. -/
theorem markRegions_of_nil {P : Partition α} {cuts : List (Nat × List Nat)}
    (h : ∀ cut ∈ cuts, cut.2 = []) : ∃ marks, markRegions P cuts = { P with saturated := marks } := by
  have hcuts : (cuts.map Prod.fst).map (fun r => (r, [])) = cuts := by
    rw [List.map_map]
    calc cuts.map ((fun r => (r, [])) ∘ Prod.fst)
        = cuts.map id := List.map_congr_left fun cut hcut => congrArg (cut.1, ·) (h cut hcut).symm
      _ = cuts := List.map_id _
  rw [← hcuts, markRegions_nil]
  exact ⟨_, rfl⟩

variable [Scalar α] {s t : Solver α} {solve : InnerMethod α} {r : Recording} {left : Nat}
  {e : Option α}

/-- A split that finds nothing changes nothing but marks, and has tested the regions without. -/
theorem unsplit_answers (h : split.Answers s 0 t) :
    ∃ slope marks, s.gradient? = .ok slope ∧
      (∀ q ∈ openRegions s.partition, s.splitRegion? slope s.needsOneCut q = .ok []) ∧
      t = { s with partition := { s.partition with saturated := marks } } := by
  obtain ⟨slope, found, hslope, houtcomes, rfl, hcount⟩ := split_answers.mp h
  have hnil := cutCount_eq_zero.mp hcount.symm
  obtain ⟨marks, hmarks⟩ := markRegions_of_nil (P := s.partition) hnil
  refine ⟨slope, marks, hslope, nil_of_forall₂ (mapM_eq_ok.mp houtcomes) hnil, ?_⟩
  rw [hmarks]

/-- Until its first round is finished, a run that goes on keeps the marks. -/
theorem ResumedHead.saturated_eq (h : ResumedHead (steps solve) r s left 0 e t) :
    t.partition.saturated = s.partition.saturated := by
  cases h with
  | first hrecorded => rw [recordRound_answers objective_answers hrecorded]

end Unsplit

variable {K : Type} [ExactField K] {s u v : Solver K} {solve : InnerMethod K} {r : Recording}
  {w : Weighting K} {n : ℕ}

/-- A run that goes on from `s` ends in `u` after `n` rounds, because the split finds nothing in the
state `v`. -/
structure EndsUnsplit (solve : InnerMethod K) (r : Recording) (s : Solver K) (n : ℕ)
    (v u : Solver K) : Prop where
  head : ∃ left e t, ResumedHead (steps solve) r s (left + 1) n e t ∧
    (t.monitorsEvolution && hasSettled t.tolerance e) = false ∧ keepIterate.Answers t () v
  unsplit : split.Answers v 0 u

namespace EndsUnsplit

theorem run_answers (h : EndsUnsplit solve r s n v u) :
    (run (steps solve) false r).Answers s n u := by
  obtain ⟨left, e, t, hhead, hopen, hkept⟩ := h.head
  refine hhead.run_answers ?_
  unfold rounds
  rw [answers_get_bind, hopen, if_neg Bool.false_ne_true]
  refine answers_bind.mpr ⟨(), v, hkept, answers_bind.mpr ⟨0, u, h.unsplit, ?_⟩⟩
  rw [if_pos rfl]
  exact answers_pure.mpr ⟨rfl, rfl⟩

theorem isSolved (hsolve : AnswersInSize solve s.inner) (hs : s.IsSolved)
    (h : EndsUnsplit solve r s n v u) : u.IsSolved := by
  obtain ⟨left, e, t, hhead, hopen, hkept⟩ := h.head
  have hend : LoopEnd (steps solve) (left + 1) e t u := .unsplit hopen hkept h.unsplit
  exact hend.isSolved (hhead.isSolved hsolve hs)

/-- Without a finished round the marks are those that were left before. -/
theorem saturated_eq (h : EndsUnsplit solve r s 0 v u) :
    v.partition.saturated = s.partition.saturated := by
  obtain ⟨left, e, t, hhead, -, hkept⟩ := h.head
  obtain ⟨x, -, rfl⟩ := keepIterate_answers hkept
  exact hhead.saturated_eq

end EndsUnsplit

/-- Where a run that goes on after any settings ends because nothing is found, there is nothing to
find in a region exactly if, in case it was marked as solved before, no cheapest part of it that may
move up or down takes it apart under the present settings. -/
theorem HasRun.splitRegion?_of_unsplit (hs : HasRun solve w s) (hsolve : AnswersInSize solve s.inner)
    (h : EndsUnsplit solve r s n v u) :
    (n = 0 → v.partition.saturated = s.partition.saturated) ∧
      ∃ x slope, u.x = some x ∧ u.gradient? = .ok slope ∧
        ∀ q < u.partition.regionCount, u.splitRegion? slope u.needsOneCut q = .ok [] ↔
          (v.partition.isSaturated q = true → u.KeepsTogether x slope q) := by
  refine ⟨by rintro rfl; exact h.saturated_eq, ?_⟩
  have hsolved := h.isSolved hsolve hs.isStoredWith.toIsSolved
  obtain ⟨x, hx, -⟩ := hsolved.iterate
  have hsound := hs.isSound.of_retains (((stepsRetain solve).run false _).of_answers h.run_answers)
  have hcuttable : u.IsCuttable x :=
    ⟨⟨hx, hsound.nonneg.edges⟩, hsolved.partition.toIsConsistent⟩
  obtain ⟨slope, marks, hslope, htested, rfl⟩ := unsplit_answers h.unsplit
  refine ⟨x, slope, hx, hslope, fun q hq => ?_⟩
  rw [← hcuttable.splitRegion?_eq_nil_iff hq]
  refine ⟨fun hnil _ => hnil, fun hmarked => ?_⟩
  cases hmark : v.partition.isSaturated q with
  | true => exact hmarked hmark
  | false => exact htested q (mem_openRegions_iff.mpr ⟨hq, hmark⟩)

/-- Two vertices that are observed at the same value. -/
def levelPair : Solver ℚ :=
  { ofPartition (.whole ⟨#[0, 1, 1], #[0], #[1]⟩ ⟨none, 1⟩) with
    quadratic := .identity 2 1 (some #[0, 0]) }

/-- The level pair after a run, which leaves it whole. -/
def restedPair : Solver ℚ := ((run standardSteps true ⟨true, false⟩).run levelPair).2

/-- The rested pair, observed at values that are far from each other. -/
def stirredPair : Solver ℚ :=
  { restedPair with quadratic := .identity 2 1 (some #[-10, 10]), residual := none }

/-- The stirred pair at the beginning of a run that goes on. -/
def resumedPair : Solver ℚ :=
  ((recordRound standardSteps ⟨true, false⟩).run { stirredPair with history := .empty }).2

/-- The resumed pair before its split. -/
def keptPair : Solver ℚ := (keepIterate.run resumedPair).2

/-- The resumed pair after its split. -/
def unsplitPair : Solver ℚ := (split.run keptPair).2

/-- The pair is still believed to be solved, so that a run that goes on ends at once. -/
theorem unsplitPair_eq :
    ((run standardSteps true ⟨true, false⟩).run levelPair).1.toOption = some 0 ∧
      stirredPair.inner.backend = .splitting ∧
      ((recordRound standardSteps ⟨true, false⟩).run
        { stirredPair with history := .empty }).1.toOption = some () ∧
      resumedPair.maxRounds.toNat = 9 + 1 ∧
      (resumedPair.monitorsEvolution && hasSettled resumedPair.tolerance none) = false ∧
      (keepIterate.run resumedPair).1.toOption = some () ∧
      keptPair.partition.isSaturated 0 = true ∧ (split.run keptPair).1.toOption = some 0 ∧
      unsplitPair.partition.regionCount = 1 ∧ unsplitPair.gradient?.toOption = some #[10, -10] ∧
      (unsplitPair.splitRegion? #[10, -10] unsplitPair.needsOneCut 0).toOption = some [0] := by
  decide +kernel

theorem setQuadratic_restedPair :
    (restedPair.setQuadratic (some (.ofArray #[-10, 10])) none 1 none).2 = .ok stirredPair := by
  have hcount : restedPair.vertexCount = 2 :=
    ((stepsRetain innerMethod).run true levelPair).vertexCount
  refine map_eq_ok.mpr ⟨.identity 2 1 (some #[-10, 10]), ?_, rfl⟩
  rw [hcount]
  with_unfolding_all rfl

theorem hasRun_stirredPair : HasRun innerMethod ⟨none, 1⟩ stirredPair := by
  have hrun : (run standardSteps true ⟨true, false⟩).Answers levelPair 0 restedPair :=
    answers_of_toOption unsplitPair_eq.1
  exact .sets (.fresh (isSound_observedPair rfl _) (answersInSize_innerMethod rfl) hrun)
    (.quadratic setQuadratic_restedPair)

theorem endsUnsplit_stirredPair :
    EndsUnsplit innerMethod ⟨true, false⟩ stirredPair 0 keptPair unsplitPair := by
  obtain ⟨-, -, hrecorded, hleft, hopen, hkept, -, hsplit, -⟩ := unsplitPair_eq
  refine ⟨⟨9, none, resumedPair, ?_, hopen, answers_of_toOption hkept⟩, answers_of_toOption hsplit⟩
  rw [← hleft]
  exact .first (answers_of_toOption hrecorded)

theorem splitRegion?_of_unsplit_stirredPair :
    HasRun innerMethod ⟨none, 1⟩ stirredPair ∧
      EndsUnsplit innerMethod ⟨true, false⟩ stirredPair 0 keptPair unsplitPair ∧
      keptPair.partition.isSaturated 0 = true ∧
      ∃ x slope, unsplitPair.x = some x ∧ unsplitPair.gradient? = .ok slope ∧
        (unsplitPair.splitRegion? slope unsplitPair.needsOneCut 0 = .ok [] ↔
          (keptPair.partition.isSaturated 0 = true → unsplitPair.KeepsTogether x slope 0)) := by
  obtain ⟨-, hbackend, -, -, -, -, hmarked, -, hcount, -⟩ := unsplitPair_eq
  obtain ⟨-, x, slope, hx, hslope, hiff⟩ := hasRun_stirredPair.splitRegion?_of_unsplit
    (answersInSize_innerMethod hbackend) endsUnsplit_stirredPair
  exact ⟨hasRun_stirredPair, endsUnsplit_stirredPair, hmarked, x, slope, hx, hslope,
    hiff 0 (hcount ▸ Nat.one_pos)⟩

/-- The run that goes on ends because nothing is found, but under the present settings the edge of
the pair is to be cut. -/
theorem not_splitRegion?_of_unsplit_stirredPair :
    (run standardSteps true ⟨true, false⟩).Answers levelPair 0 restedPair ∧
      (restedPair.setQuadratic (some (.ofArray #[-10, 10])) none 1 none).2 = .ok stirredPair ∧
      (run standardSteps false ⟨true, false⟩).Answers stirredPair 0 unsplitPair ∧
      EndsUnsplit innerMethod ⟨true, false⟩ stirredPair 0 keptPair unsplitPair ∧
      unsplitPair.partition.regionCount = 1 ∧ unsplitPair.gradient?.toOption = some #[10, -10] ∧
      (unsplitPair.splitRegion? #[10, -10] unsplitPair.needsOneCut 0).toOption = some [0] := by
  obtain ⟨hrun, -, -, -, -, -, -, -, hcount, hslope, hfound⟩ := unsplitPair_eq
  exact ⟨answers_of_toOption hrun, setQuadratic_restedPair, endsUnsplit_stirredPair.run_answers,
    endsUnsplit_stirredPair, hcount, hslope, hfound⟩

end TotalVariation.Solver
