import Mathlib
import TotalVariation.Proofs.Solver.History
import TotalVariation.Proofs.Solver.Objective
import TotalVariation.Proofs.Solver.Residual

/-! # What is up to date at a record

At every record of a run each region of a coherent partition has a value, and what is stored about
the regions, the weights of their graph and the residual, belongs to it. So the objective can be
computed from the regions.
-/

namespace TotalVariation.Solver

open Step TotalVariation.Partition

variable {K : Type} [ExactField K] {s t : Solver K} {x : Vec K} {solve : InnerMethod K}
  {r : Recording}

/-! ## What the steps leave of a partition -/

/-- Sorting by target changes the order inside the regions and the marks of sorted regions. -/
theorem sorted_eq (s : Solver K) : s.sorted = { s with partition := { s.partition with
    regions := s.sorted.partition.regions
    medianCached := s.sorted.partition.medianCached } } := by
  rcases s.sorted_cases with hsorted | ⟨targets, -, hsorted⟩
  · rw [hsorted]
  · rw [hsorted]
    rfl

/-- The median over one region changes nothing but its order and its marks. -/
theorem wholeMedian_eq (s : Solver K) : s.wholeMedian.2 = { s with partition := { s.partition with
    regions := s.wholeMedian.2.partition.regions
    medianCached := s.wholeMedian.2.partition.medianCached
    saturated := s.wholeMedian.2.partition.saturated } } := by
  unfold wholeMedian
  split <;> rfl

/-- What a run begins with. -/
def begun (s : Solver K) : Solver K := { s with lastX := none, partition := components s.partition }

/-- The partition with all edges open. -/
def opened (P : Partition K) : Partition K :=
  { P with active := Array.replicate P.edgeCount false }

omit [ExactField K] in
theorem isArranged_opened {P : Partition K} (hP : P.IsArranged) : (opened P).IsArranged :=
  ⟨hP.graph_valid, Array.size_replicate, hP.arena_perm, hP.region_ne_nil⟩

theorem hasReducedWeights_begun (hs : s.partition.IsArranged) :
    s.begun.partition.HasReducedWeights :=
  (isArranged_opened hs).hasReducedWeights.of_frame rfl rfl rfl rfl rfl

/-- A solution over the regions changes the order inside the regions and the marks of sorted
regions. -/
theorem partition_of_reducedSolution {u : Unit} (h : (reducedSolution solve).Answers s u t) :
    t.partition = { s.partition with
      regions := t.partition.regions
      medianCached := t.partition.medianCached } := by
  obtain ⟨premultiply, reduced, design, weights, targets, s₁, init, y, iterations, -, -, htargets,
    -, -, rfl⟩ := reducedSolution_answers h
  obtain ⟨-, rfl⟩ := regionTargets_answers.mp htargets
  exact congrArg Solver.partition s.sorted_eq

/-- No edge is a boundary of the components. -/
theorem components_isActive (P : Partition K) {e : ℕ} (he : e < P.edgeCount) :
    (components P).isActive e = false := by
  refine (reduceGraph_isActive (opened P).rebuild he).trans (Bool.and_eq_false_iff.mpr (.inl ?_))
  exact getD_replicate _ _ e

/-- The start leaves the components, up to the order inside them and the marks. -/
theorem partition_of_start {u : Unit} (h : (start (steps solve)).Answers s u t) :
    t.partition = { s.begun.partition with
      regions := t.partition.regions
      medianCached := t.partition.medianCached
      saturated := t.partition.saturated } := by
  rcases start_answers h with ⟨-, c, s₁, hc, rfl⟩ | ⟨-, hsolved⟩
  · obtain ⟨value, -, -, rfl⟩ := constantSolution_answers hc
    exact congrArg Solver.partition s.begun.wholeMedian_eq
  · have hframe := partition_of_reducedSolution (s := s.begun) hsolved
    rw [hframe]

/-- A merger stores the merged regions and their values, and may renew the residual. -/
theorem stored_of_merge {m : Int} (hx : s.x = some x) (h : (merge (steps solve)).Answers s m t) :
    ∃ y, (s.partition.merge? x s.mergeTolerance).2 = .ok (y, m) ∧ t = { s with
      partition := (s.partition.merge? x s.mergeTolerance).1
      x := some y
      residual := t.residual } := by
  rcases merge_answers h with ⟨hnone, -⟩ | ⟨x', y, hx', hmerge, hmerged⟩
  · rw [hx] at hnone
    cases hnone
  · obtain rfl := Option.some.inj (hx.symm.trans hx')
    refine ⟨y, hmerge, ?_⟩
    rcases hmerged with ⟨-, rfl⟩ | ⟨-, hrenewed⟩
    · rfl
    · rcases renewResidual_answers hrenewed with ⟨-, rfl⟩ | ⟨-, _, _, _, -, -, -, rfl⟩
      · rfl
      · rfl

/-! ## Up to date regions -/

/-- The solver with its regions rebuilt. -/
def rebuilt (s : Solver K) : Solver K := { s with partition := s.partition.rebuild.reduceGraph }

theorem sameSettings_begun (s : Solver K) : SameSettings s s.begun := by constructor <;> rfl

theorem sameSettings_rebuilt (s : Solver K) : SameSettings s s.rebuilt := by constructor <;> rfl

/-- A solved solver for which the regions of the vertices and the weights of the graph of the
regions are up to date. -/
structure IsStored (s : Solver K) : Prop extends s.IsSolved where
  assigns : s.AssignsVertices
  reducedWeights : s.partition.HasReducedWeights

theorem isStored_of_start {u : Unit} (hsolve : AnswersInSize solve s.inner)
    (hs : s.partition.IsArranged) (h : (start (steps solve)).Answers s u t) : t.IsStored where
  toIsSolved := isSolved_of_start hsolve hs h
  assigns := assignsVertices_of_start h
  reducedWeights := by
    rw [partition_of_start h]
    exact (hasReducedWeights_begun hs).of_frame rfl rfl rfl rfl rfl

/-- A solution over rebuilt regions is up to date. -/
theorem isStored_of_rebuilt {u : Unit} (hsolve : AnswersInSize solve s.inner)
    (hs : s.partition.IsArranged) (h : (reducedSolution solve).Answers s.rebuilt u t) :
    t.IsStored where
  toIsSolved := isSolved_of_reducedSolution (s := s.rebuilt) hsolve hs.isCoherent_rebuild h
  assigns := (assignsVertices_rebuild s).of_reducedSolution h
  reducedWeights := by
    rw [partition_of_reducedSolution h]
    exact hs.hasReducedWeights.of_frame rfl rfl rfl rfl rfl

namespace IsStored

theorem of_merge {m : Int} (hs : s.IsStored) (h : (merge (steps solve)).Answers s m t) :
    t.IsStored where
  toIsSolved := isSolved_of_merge hs.toIsSolved h
  assigns := hs.assigns.of_merge h
  reducedWeights := by
    obtain ⟨-, hkeep | ⟨links, hrebuilt⟩⟩ := merge_partition h
    · rw [hkeep]
      exact hs.reducedWeights
    · rw [hrebuilt]
      exact (hs.partition.toIsArranged.openGroups links).hasReducedWeights

theorem of_evolution {change : K} (hs : s.IsStored) (h : evolution.Answers s change t) :
    t.IsStored where
  toIsSolved := isSolved_of_evolution hs.toIsSolved h
  assigns := by
    obtain ⟨x, lastX, last, -, -, rfl⟩ := evolution_answers h
    exact hs.assigns
  reducedWeights := by
    obtain ⟨x, lastX, last, -, -, rfl⟩ := evolution_answers h
    exact hs.reducedWeights.of_frame rfl rfl rfl rfl rfl

end IsStored

/-! ## Along a run -/

/-- An arranged partition, a term that fits the graph, with an exactly symmetric table if it has
one, and a method that answers in size. -/
structure IsEvaluable (solve : InnerMethod K) (s : Solver K) : Prop where
  arranged : s.partition.IsArranged
  fits : s.quadratic.Fits s.vertexCount
  symmetric : s.quadratic.IsSymmetric
  answersInSize : AnswersInSize solve s.inner

/-- A solution in a round of a run is up to date. -/
theorem SplitsTo.isStored_of_rebuilt {u : Unit} {v : Solver K} (hs : s.IsEvaluable solve)
    (h : SplitsTo (steps solve) r s t) (hsolved : (reducedSolution solve).Answers t.rebuilt u v) :
    v.IsStored :=
  Solver.isStored_of_rebuilt (h.sameSettings.inner ▸ hs.answersInSize)
    (h.isArranged hs.arranged hs.answersInSize) hsolved

theorem RecordsAt.isStored (hs : s.IsEvaluable solve) (h : RecordsAt (steps solve) r s t) :
    t.IsStored := by
  cases h with
  | start hstarted =>
      exact isStored_of_start (s := { s with history := .empty }) hs.answersInSize hs.arranged
        hstarted
  | round hcompared hchange =>
      obtain ⟨hsplits, hsolved, hmerged⟩ := hcompared
      exact ((hsplits.isStored_of_rebuilt hs hsolved).of_merge hmerged).of_evolution hchange

/-- Where a run records, the objective can be computed from the regions. -/
theorem RecordsAt.exists_isValued (hs : s.IsEvaluable solve) (h : RecordsAt (steps solve) r s t) :
    ∃ x, t.IsValued x := by
  have hsame := h.sameSettings
  have hstored := h.isStored hs
  obtain ⟨x, hx, hsize⟩ := hstored.iterate
  have hfits : t.quadratic.Fits t.vertexCount := by
    rw [hsame.quadratic, hsame.vertexCount]
    exact hs.fits
  refine ⟨x, ⟨⟨hx, hsize, hfits⟩, fun A y hdirect => ?_⟩, hstored.partition, hstored.assigns,
    hstored.reducedWeights, hsame.quadratic ▸ hs.symmetric⟩
  have hdirect' : IsDirect A y s := ⟨hsame.quadratic ▸ hdirect, hs.fits⟩
  obtain ⟨z, hz, hresidual⟩ := (h.isTracking hs.arranged hdirect').residual
  obtain rfl := Option.some.inj (hx.symm.trans hz)
  exact hresidual

/-- Every head of the loop follows a record. -/
theorem LoopHead.exists_recordsAt {left done : ℕ} {e : Option K}
    (h : LoopHead (steps solve) r s left done e t) : ∃ u, RecordsAt (steps solve) r s u ∧
      t = { u with history := t.history } := by
  cases h with
  | first hstarted hrecorded =>
      exact ⟨_, .start hstarted, recordRound_answers objective_answers hrecorded⟩
  | next hhead hopen hkept hsplit hsome hfinished =>
      obtain ⟨s₁, merged, s₂, s₃, hsolved, hmerged, hevolution, heq⟩ :=
        finishRound_answers objective_answers hfinished
      exact ⟨s₃, .round (.intro (.intro hhead hopen hkept hsplit hsome) hsolved hmerged) hevolution,
        heq⟩

end TotalVariation.Solver
