import Mathlib
import TotalVariation.Proofs.Solver.Evolution
import TotalVariation.Proofs.Solver.MedianCache

/-! # Runs that take no short cuts

A run reads off the median of a region that is known to be sorted, and compares a region that is
believed to be solved at its first vertex only. A run that selects every median and compares at
every vertex answers the same and leaves the same solver: the marks by which the work is saved are
true wherever a run solves or compares.
-/

namespace TotalVariation.Solver

open Step TotalVariation.Partition

/-! ## Selecting every median -/

section Selection

variable {α : Type} [Scalar α] {s : Solver α} {solve : InnerMethod α}

/-- The medians of the targets over the regions, each selected, with the vertices in the order that
the selection leaves. -/
def selections (s : Solver α) (targets : Vec α) : List (α × List Nat) :=
  (List.range s.partition.regionCount).map fun q =>
    Median.select targets s.targetWeights.each (s.partition.region q)

/-- The weights and the targets of the regions from medians that are all selected. -/
def selectedTargets : Step α (Option (Vec α) × Option (Vec α)) := do
  let s ← get
  match s.regionWeights?, s.targets with
  | some weights, some targets =>
    modifyPartition fun P =>
      { P with
        regions := (s.selections targets).map (·.2)
        medianCached := Array.replicate P.regionCount true }
    pure (some weights, some ((s.selections targets).map (·.1)).toArray)
  | weights, _ => pure (weights, none)

/-- The solution over the regions from medians that are all selected. -/
def plainSolution (solve : InnerMethod α) : Step α Unit := do
  let s ← get
  let premultiply ← s.premultiplies?
  solutionWith selectedTargets solve s premultiply

theorem KeepsOrder.regionMedians_eq (hs : s.KeepsOrder) {y : Vec α} (hy : s.targets = some y) :
    s.regionMedians y = s.selections y :=
  List.map_congr_left fun _ hq => hs.regionMedian_eq hy (List.mem_range.mp hq)

theorem KeepsOrder.selectedTargets_run (hs : s.KeepsOrder) :
    selectedTargets.run s = regionTargets.run s := by
  unfold selectedTargets regionTargets
  rw [run_get_bind, run_get_bind]
  cases s.regionWeights? with
  | none => rfl
  | some weights =>
      cases hy : s.targets with
      | none => rfl
      | some y =>
          dsimp only
          rw [← hs.regionMedians_eq hy]
          rfl

/-- Where the regions are sorted as marked, selecting every median solves alike. -/
theorem KeepsOrder.plainSolution_run (hs : s.KeepsOrder) :
    (plainSolution solve).run s = (reducedSolution solve).run s := by
  rw [reducedSolution_run, plainSolution, run_get_bind]
  refine run_bind_congr rfl fun premultiply t hchoice => ?_
  obtain ⟨-, rfl⟩ := answers_lift.mp hchoice
  unfold chosenSolution solutionWith
  refine run_bind_congr rfl fun reduced t hreduced => ?_
  obtain ⟨-, rfl⟩ := answers_lift.mp hreduced
  exact run_bind_congr hs.selectedTargets_run fun _ _ _ => rfl

end Selection

/-! ## Comparing at every vertex -/

section Comparison

variable {K : Type} [ExactField K] {s : Solver K} {solve : InnerMethod K} {r : Recording}
  {x lastX : Vec K} {assignment : Array Nat}

/-- The solved regions with a vertex that moved by more than the tolerance, relative to its
value. -/
def stirredRegions (P : Partition K) (x last : Vec K) (tolerance : K) : List Nat :=
  (solvedRegions P).filter fun q => (P.region q).any fun v =>
    decide (|Vec.entry x q| * tolerance < |Vec.entry x q - Vec.entry last v|)

/-- The comparison of an iterate with a kept one at every vertex. -/
def plainEvolution : Step K K := do
  let s ← get
  let x := s.x.getD #[]
  let lastX := s.lastX.getD #[]
  let assignment := s.partition.lastAssignment.getD #[]
  let stirred := stirredRegions s.partition x (s.keptValues lastX assignment) s.tolerance
  modifyPartition fun P =>
    { P with saturated := stirred.foldl (fun f q => f.setIfInBounds q false) P.saturated }
  let amplitude := Vec.norm (s.partition.expand x)
  let change := Vec.norm (s.valueChange x lastX assignment)
  pure (if Scalar.epsilon < amplitude then change / amplitude else change / Scalar.epsilon)

/-- A solved region moved with its first vertex. -/
theorem IsComparable.stirredRegions_eq (h : s.IsComparable x lastX assignment) (tolerance : K) :
    stirredRegions s.partition x (s.keptValues lastX assignment) tolerance =
      movedRegions s.partition x (s.keptValues lastX assignment) tolerance := by
  refine List.filter_congr fun q hq => ?_
  obtain ⟨hlt, hsaturated⟩ := mem_solvedRegions.mp hq
  rw [Bool.eq_iff_iff, List.any_eq_true, decide_eq_true_eq, regionChange, Scalar.abs_eq,
    Scalar.abs_eq]
  constructor
  · rintro ⟨v, hv, hmoved⟩
    rw [decide_eq_true_eq, h.keptValues_eq hlt hsaturated hv] at hmoved
    exact hmoved
  · exact fun hmoved => ⟨_, h.consistent.representative_mem hlt, decide_eq_true hmoved⟩

theorem IsComparable.plainEvolution_run (h : s.IsComparable x lastX assignment) :
    plainEvolution.run s = evolution.run s := by
  refine Eq.trans ?_ h.evolution_answers.symm
  unfold plainEvolution modifyPartition
  rw [run_get_bind, run_modify_bind, h.iterate, h.kept, h.keptAssignment]
  dsimp only [Option.getD_some]
  rw [h.stirredRegions_eq]
  rfl

/-- The steps of a run that selects every median and compares at every vertex. -/
def plainSteps (solve : InnerMethod K) : Steps K :=
  exchange (steps solve) (plainSolution solve) plainEvolution

/-- A run that takes no short cuts is the same run. -/
theorem run_plainSteps (hs : s.partition.IsArranged) (hsolve : AnswersInSize solve s.inner) :
    (run (plainSteps solve) true r).run s = (run (steps solve) true r).run s := by
  refine run_exchange (fun t hsolves => ?_) fun t hcompares => ?_
  · exact (hsolves.keepsOrder (sortsTotally_of_exactField K) hs).plainSolution_run
  · obtain ⟨x, lastX, assignment, hcomparable⟩ := hcompares.exists_isComparable hs hsolve
    exact hcomparable.plainEvolution_run

end Comparison

end TotalVariation.Solver
