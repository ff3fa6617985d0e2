import Mathlib
import TotalVariation.Proofs.Partition.Coherent
import TotalVariation.Proofs.Solver.Steps

/-! # What a run leaves alone

The steps of a run change the partition, the iterate and the records of a solver. However a step
ends, the graph, the terms of the problem and the parameters stay, and an arranged partition stays
arranged.
-/

namespace TotalVariation

namespace Solver

open Step TotalVariation.Partition

/-- Two solvers have the same graph, the same problem on it and the same parameters. -/
structure SameSettings {α : Type} (s t : Solver α) : Prop where
  graph : t.partition.graph = s.partition.graph
  edgeWeights : t.partition.edgeWeights = s.partition.edgeWeights
  quadratic : t.quadratic = s.quadratic
  targetWeights : t.targetWeights = s.targetWeights
  targets : t.targets = s.targets
  lower : t.lower = s.lower
  upper : t.upper = s.upper
  tolerance : t.tolerance = s.tolerance
  maxRounds : t.maxRounds = s.maxRounds
  verbose : t.verbose = s.verbose
  mergeTolerance : t.mergeTolerance = s.mergeTolerance
  inner : t.inner = s.inner
  monitorsEvolution : t.monitorsEvolution = s.monitorsEvolution

namespace SameSettings

variable {α : Type} {s t u : Solver α}

theorem refl (s : Solver α) : SameSettings s s := by
  constructor <;> rfl

theorem trans (hst : SameSettings s t) (htu : SameSettings t u) : SameSettings s u where
  graph := htu.graph.trans hst.graph
  edgeWeights := htu.edgeWeights.trans hst.edgeWeights
  quadratic := htu.quadratic.trans hst.quadratic
  targetWeights := htu.targetWeights.trans hst.targetWeights
  targets := htu.targets.trans hst.targets
  lower := htu.lower.trans hst.lower
  upper := htu.upper.trans hst.upper
  tolerance := htu.tolerance.trans hst.tolerance
  maxRounds := htu.maxRounds.trans hst.maxRounds
  verbose := htu.verbose.trans hst.verbose
  mergeTolerance := htu.mergeTolerance.trans hst.mergeTolerance
  inner := htu.inner.trans hst.inner
  monitorsEvolution := htu.monitorsEvolution.trans hst.monitorsEvolution

/-- The problem on the vertices is the same. -/
theorem problem [Scalar α] (h : SameSettings s t) : t.problem = s.problem := by
  have hweight : t.partition.weight = s.partition.weight := by
    funext e
    simp only [Partition.weight, h.edgeWeights]
  have htarget : t.target = s.target := by
    funext v
    simp only [Solver.target, h.targets]
  simp only [Solver.problem, Solver.vertexCount, Solver.targetWeight?, Partition.vertexCount,
    Partition.edgeCount, Partition.weights, h.graph, h.quadratic, h.targetWeights, h.lower,
    h.upper, hweight, htarget]

theorem vertexCount (h : SameSettings s t) : t.vertexCount = s.vertexCount := by
  rw [Solver.vertexCount, Partition.vertexCount, h.graph]
  rfl

end SameSettings

/-! ## Retention -/

/-- The second solver has the settings of the first, and its partition is arranged if that of the
first is. -/
structure Retains {α : Type} (s t : Solver α) : Prop extends SameSettings s t where
  arranged : s.partition.IsArranged → t.partition.IsArranged

namespace Retains

variable {α : Type} {s t u : Solver α}

theorem refl (s : Solver α) : s.Retains s := ⟨.refl s, id⟩

theorem trans (hst : s.Retains t) (htu : t.Retains u) : s.Retains u :=
  ⟨hst.toSameSettings.trans htu.toSameSettings, htu.arranged ∘ hst.arranged⟩

/-- The iterate, what is kept of it and the records may change. -/
theorem of_values (s : Solver α) (residual x lastX : Option (Vec α)) (innerIterations : Int)
    (history : History α) : s.Retains { s with
      residual := residual
      x := x
      lastX := lastX
      innerIterations := innerIterations
      history := history } :=
  ⟨by constructor <;> rfl, id⟩

/-- The partition of the graph may change. -/
theorem of_partition {P : Partition α} (hgraph : P.graph = s.partition.graph)
    (hweights : P.edgeWeights = s.partition.edgeWeights)
    (harranged : s.partition.IsArranged → P.IsArranged) : s.Retains { s with partition := P } :=
  ⟨⟨hgraph, hweights, rfl, rfl, rfl, rfl, rfl, rfl, rfl, rfl, rfl, rfl, rfl⟩, harranged⟩

end Retains
end Solver

namespace Step

variable {α β γ : Type} {step : Step α β} {s t : Solver α}

/-- However the step ends, it retains the settings and the arrangement. -/
def Retains (step : Step α β) (s : Solver α) : Prop := s.Retains (step.run s).2

namespace Retains

theorem of_answers (hretains : Retains step s) {b : β} (h : step.Answers s b t) : s.Retains t := by
  rw [eq_of_answers h]
  exact hretains

theorem of_pure (b : β) : Retains (pure b) s := .refl s

theorem of_throw (e : Failure α) : Retains (throw e : Step α β) s := .refl s

theorem of_modify {f : Solver α → Solver α} (h : s.Retains (f s)) : Retains (modify f) s := h

/-- A sequence of two steps retains what both retain. -/
theorem bind {next : β → Step α γ} (h : Retains step s)
    (hnext : ∀ b, Retains (next b) (step.run s).2) : Retains (step >>= next) s := by
  change s.Retains (ExceptT.bindCont next (step.run s).1 (step.run s).2).2
  cases (step.run s).1 with
  | ok b => exact h.trans (hnext b)
  | error e => exact h

theorem get_bind {next : Solver α → Step α γ} (h : Retains (next s) s) :
    Retains (get >>= next) s := h

theorem modify_bind {f : Solver α → Solver α} {next : Unit → Step α γ} (hf : s.Retains (f s))
    (h : Retains (next ()) (f s)) : Retains (modify f >>= next) s := hf.trans h

theorem lift_bind {x : Except (Failure α) β} {next : β → Step α γ} (h : ∀ b, Retains (next b) s) :
    Retains (liftM x >>= next) s := bind (.refl s) h

theorem test {c : Prop} [Decidable c] {e : Failure α} {failed : β → Step α γ} {next : Step α γ}
    (h : Retains next s) : Retains (if c then throw e >>= failed else next) s := by
  split
  next => exact .refl s
  next => exact h

end Retains
end Step

namespace Solver

open Step TotalVariation.Partition

variable {α : Type} [Scalar α] {s t : Solver α}

/-! ## Solutions -/

theorem regionMedian_perm (s : Solver α) (targets : Vec α) (r : Nat) :
    (s.regionMedian targets r).2.Perm (s.partition.region r) := by
  unfold regionMedian
  split
  next => exact List.Perm.refl _
  next => exact Median.sortByValue_perm _ _

theorem forall₂_perm_regionMedians (s : Solver α) (targets : Vec α) :
    List.Forall₂ List.Perm ((s.regionMedians targets).map (·.2)) s.partition.regions := by
  refine List.forall₂_iff_get.mpr ⟨by simp [regionMedians, regionCount], ?_⟩
  intro r hr hr'
  have hregion : s.partition.regions.get ⟨r, hr'⟩ = s.partition.region r := by
    simp [region, hr']
  rw [hregion]
  simpa [regionMedians] using s.regionMedian_perm targets r

/-- Sorting by target changes the order inside the regions and nothing else. -/
theorem retains_sortedByTarget (s : Solver α) (targets : Vec α) :
    s.Retains (s.sortedByTarget targets) :=
  .of_partition rfl rfl fun h => h.of_perm rfl rfl (s.forall₂_perm_regionMedians targets)

theorem sameSettings_sorted (s : Solver α) : SameSettings s s.sorted := by
  obtain hsorted | ⟨targets, -, hsorted⟩ := s.sorted_cases
  · rw [hsorted]
    exact .refl s
  · rw [hsorted]
    exact (s.retains_sortedByTarget targets).toSameSettings

theorem retains_regionTargets (s : Solver α) : regionTargets.Retains s := by
  unfold regionTargets modifyPartition
  refine .get_bind ?_
  split
  next => exact .of_pure _
  next => exact .of_pure _
  next targets _ _ => exact .modify_bind (s.retains_sortedByTarget targets) (.of_pure _)

theorem sameSettings_of_regionTargets {w m : Option (Vec α)}
    (h : regionTargets.Answers s (w, m) t) : SameSettings s t :=
  ((retains_regionTargets s).of_answers h).toSameSettings

theorem retains_reducedSolution (solve : InnerMethod α) (s : Solver α) :
    (reducedSolution solve).Retains s := by
  rw [Step.Retains, reducedSolution_run]
  refine Step.Retains.lift_bind fun premultiply => .lift_bind fun reduced => ?_
  refine .bind (retains_regionTargets s) fun targets => .get_bind (.lift_bind fun init => ?_)
  refine .lift_bind fun answer => .modify_bind (.of_values _ _ _ _ _ _) ?_
  split
  next => exact .of_modify (.of_values _ _ _ _ _ _)
  next => exact .of_pure _

theorem sameSettings_of_reducedSolution {solve : InnerMethod α} {u : Unit}
    (h : (reducedSolution solve).Answers s u t) : SameSettings s t :=
  ((retains_reducedSolution solve s).of_answers h).toSameSettings

theorem retains_wholeMedian (s : Solver α) : s.Retains s.wholeMedian.2 := by
  unfold wholeMedian
  split
  next targets _ _ =>
    refine .of_partition rfl rfl fun h => h.of_perm rfl rfl ?_
    exact forall₂_perm_setRegion s.partition 0 (Median.sortByValue_perm targets _)
  next => exact .refl s

theorem retains_constantSolution (s : Solver α) : constantSolution.Retains s := by
  rw [Step.Retains, constantSolution_run]
  refine s.retains_wholeMedian.trans ?_
  unfold storedConstant
  split
  next => exact .of_values _ _ _ _ _ _
  next => exact .refl _

theorem sameSettings_of_constantSolution {u : α} (h : constantSolution.Answers s u t) :
    SameSettings s t :=
  ((retains_constantSolution s).of_answers h).toSameSettings

/-! ## Splits, mergers and comparisons -/

omit [Scalar α] in
theorem retains_keepIterate (s : Solver α) : keepIterate.Retains s := by
  refine .get_bind (.lift_bind fun x => .of_modify ?_)
  refine Retains.trans (t := { s with partition := s.partition.saveAssignment })
    (.of_partition rfl rfl fun h => ?_) (.of_values _ _ _ _ _ _)
  exact ⟨h.graph_valid, h.active_size, h.arena_perm, h.region_ne_nil⟩

omit [Scalar α] in
theorem sameSettings_of_keepIterate {u : Unit} (h : keepIterate.Answers s u t) :
    SameSettings s t :=
  ((retains_keepIterate s).of_answers h).toSameSettings

omit [Scalar α] in
/-- Marking what was found changes the boundaries and the marks of solved regions only. -/
theorem markRegions_eq (P : Partition α) (cuts : List (Nat × List Nat)) :
    markRegions P cuts = { P with
      active := (markRegions P cuts).active
      saturated := (markRegions P cuts).saturated } := by
  induction cuts generalizing P with
  | nil => rfl
  | cons cut cuts ih => exact ih (markRegion P cut.1 cut.2)

omit [Scalar α] in
theorem markRegions_frame (P : Partition α) (cuts : List (Nat × List Nat)) :
    (markRegions P cuts).graph = P.graph ∧ (markRegions P cuts).edgeWeights = P.edgeWeights ∧
      (markRegions P cuts).regions = P.regions ∧
      (markRegions P cuts).assignment = P.assignment := by
  rw [markRegions_eq]
  exact ⟨rfl, rfl, rfl, rfl⟩

omit [Scalar α] in
theorem isArranged_markRegions {P : Partition α} (h : P.IsArranged)
    (cuts : List (Nat × List Nat)) : (markRegions P cuts).IsArranged := by
  induction cuts generalizing P with
  | nil => exact h
  | cons cut cuts ih =>
      have hmarked := h.setActive cut.2 true
      exact ih ⟨hmarked.graph_valid, hmarked.active_size, hmarked.arena_perm,
        hmarked.region_ne_nil⟩

theorem retains_split (s : Solver α) : split.Retains s := by
  refine .get_bind (.lift_bind fun slope => .lift_bind fun found => .modify_bind ?_ (.of_pure _))
  have hframe := markRegions_frame s.partition ((openRegions s.partition).zip found)
  exact .of_partition hframe.1 hframe.2.1 fun h => isArranged_markRegions h _

theorem sameSettings_of_split {n : Nat} (h : split.Answers s n t) : SameSettings s t :=
  ((retains_split s).of_answers h).toSameSettings

/-- However a merger ends, it opens no more than groups of regions. -/
theorem merge?_cases (P : Partition α) (x : Vec α) (tolerance : α) :
    (P.merge? x tolerance).1 = P ∨ ∃ links, (P.merge? x tolerance).1 = P.openGroups links ∨
      (P.merge? x tolerance).1 = (P.openGroups links).rebuild.reduceGraph := by
  unfold merge?
  split
  next => exact .inl rfl
  next =>
    dsimp only
    split
    next => exact .inl rfl
    next hclose =>
      split
      next =>
        refine .inr ⟨P.closePairs x tolerance, .inr ?_⟩
        rw [Partition.merge, if_neg hclose]
      next => exact .inr ⟨_, .inl rfl⟩

theorem retains_merge? (s : Solver α) (x : Vec α) :
    s.Retains { s with partition := (s.partition.merge? x s.mergeTolerance).1 } := by
  obtain hsame | ⟨links, hopened | hrebuilt⟩ := merge?_cases s.partition x s.mergeTolerance
  · rw [hsame]
    exact .refl s
  · rw [hopened]
    exact .of_partition rfl rfl fun h => h.setActive _ _
  · rw [hrebuilt]
    exact .of_partition rfl rfl fun h =>
      (h.setActive _ _).isCoherent_rebuild.toIsArranged

theorem retains_merge {k : Steps α} (hmerged : ∀ t, k.merged.Retains t) (s : Solver α) :
    (merge k).Retains s := by
  refine .get_bind ?_
  split
  next =>
    split
    next => exact .of_pure _
    next => exact .of_throw _
  next x _ =>
    refine .modify_bind (s.retains_merge? x) (.lift_bind fun outcome => ?_)
    refine .modify_bind (.of_values _ _ _ _ _ _) ?_
    dsimp only
    split
    next => exact .bind (hmerged _) fun _ => .of_pure _
    next => exact .of_pure _

theorem retains_renewResidual (s : Solver α) : renewResidual.Retains s := by
  refine .get_bind ?_
  split
  next =>
    refine .lift_bind fun x => .lift_bind fun y => .lift_bind fun residual => .of_modify ?_
    exact .of_values _ _ _ _ _ _
  next => exact .of_pure _

/-- A merger leaves the kept iterate alone, and the partition unless it opens groups of regions. -/
theorem merge_partition {solve : InnerMethod α} {m : Int}
    (h : (merge (steps solve)).Answers s m t) : t.lastX = s.lastX ∧
      (t.partition = s.partition ∨
        ∃ links, t.partition = (s.partition.openGroups links).rebuild.reduceGraph) := by
  rcases merge_answers h with ⟨-, -, -, rfl⟩ | ⟨x, y, -, hmerge, hmerged⟩
  · exact ⟨rfl, .inl rfl⟩
  · have hpartition : t.lastX = s.lastX ∧
        t.partition = (s.partition.merge? x s.mergeTolerance).1 := by
      rcases hmerged with ⟨-, rfl⟩ | ⟨-, hrenewed⟩
      · exact ⟨rfl, rfl⟩
      · rcases renewResidual_answers hrenewed with ⟨-, rfl⟩ | ⟨-, x, y, residual, -, -, -, rfl⟩
        · exact ⟨rfl, rfl⟩
        · exact ⟨rfl, rfl⟩
    refine ⟨hpartition.1, ?_⟩
    rcases merge?_eq_ok hmerge with ⟨-, hsame, -, -⟩ | ⟨-, hrebuilt, -, -⟩
    · exact .inl (hpartition.2.trans hsame)
    · exact .inr ⟨_, hpartition.2.trans hrebuilt⟩

theorem sameSettings_of_merge {solve : InnerMethod α} {m : Int}
    (h : (merge (steps solve)).Answers s m t) : SameSettings s t :=
  ((retains_merge retains_renewResidual s).of_answers h).toSameSettings

theorem retains_evolution (s : Solver α) : evolution.Retains s := by
  have hmarked : ∀ saturated : Array Bool,
      s.Retains { s with partition := { s.partition with saturated := saturated } } := fun _ =>
    .of_partition rfl rfl fun h => ⟨h.graph_valid, h.active_size, h.arena_perm, h.region_ne_nil⟩
  refine .get_bind (.lift_bind fun lastX => ?_)
  dsimp only
  split
  next =>
    refine .lift_bind fun last => .lift_bind fun x => .test (.test (.modify_bind (hmarked _) ?_))
    exact .lift_bind fun _ => .lift_bind fun _ => .of_pure _
  next =>
    refine .test ?_
    rw [pure_bind]
    refine .lift_bind fun x => .test (.test (.modify_bind (hmarked _) ?_))
    exact .lift_bind fun _ => .lift_bind fun _ => .of_pure _

theorem sameSettings_of_evolution {change : α} (h : evolution.Answers s change t) :
    SameSettings s t :=
  ((retains_evolution s).of_answers h).toSameSettings

/-! ## Runs -/

/-- The steps that depend on the problem retain the settings and the arrangement. -/
structure StepsRetain (k : Steps α) : Prop where
  constantSolution : ∀ t, k.constantSolution.Retains t
  reducedSolution : ∀ t, k.reducedSolution.Retains t
  split : ∀ t, k.split.Retains t
  evolution : ∀ t, k.evolution.Retains t
  objective : ∀ t, k.objective.Retains t
  merged : ∀ t, k.merged.Retains t

theorem stepsRetain (solve : InnerMethod α) : StepsRetain (steps solve) where
  constantSolution := retains_constantSolution
  reducedSolution := retains_reducedSolution solve
  split := retains_split
  evolution := retains_evolution
  objective t := .get_bind (.refl t)
  merged := retains_renewResidual

omit [Scalar α] in
theorem retains_record (f : History α → History α) (s : Solver α) : (record f).Retains s :=
  .of_modify (.of_values _ _ _ _ _ _)

theorem retains_components (s : Solver α) :
    s.Retains { s with partition := components s.partition } := by
  refine .of_partition rfl rfl fun h => ?_
  have hopened : { s.partition with
      active := Array.replicate s.partition.edgeCount false }.IsArranged :=
    ⟨h.graph_valid, Array.size_replicate, h.arena_perm, h.region_ne_nil⟩
  have hrebuilt := hopened.isCoherent_rebuild.toIsArranged
  exact ⟨hrebuilt.graph_valid, hrebuilt.active_size, hrebuilt.arena_perm, hrebuilt.region_ne_nil⟩

namespace StepsRetain

variable {k : Steps α} {r : Recording} (hk : StepsRetain k)

include hk

theorem start (s : Solver α) : (start k).Retains s := by
  refine .modify_bind (s.retains_components.trans (.of_values _ _ _ _ _ _)) (.get_bind ?_)
  split
  next => exact .bind (hk.constantSolution _) fun c => .of_modify (.of_values _ _ _ _ _ _)
  next => exact hk.reducedSolution _

omit [Scalar α] in
theorem recordRound (s : Solver α) : (recordRound k r).Retains s := by
  have htimes : ∀ t : Solver α, Step.Retains
      (do if r.times then record fun h => { h with times := h.times + 1 }) t := by
    intro t
    split
    next => exact retains_record _ t
    next => exact .of_pure _
  unfold Solver.recordRound
  cases r.objectives with
  | false => exact htimes s
  | true =>
      exact .bind (hk.objective s) fun value => .bind (retains_record _ _) fun _ => htimes _

theorem finishRound (number activated : Nat) (s : Solver α) :
    (finishRound k r number activated).Retains s := by
  refine .modify_bind (.of_partition rfl rfl fun h => h.isCoherent_rebuild.toIsArranged) ?_
  refine .bind (hk.reducedSolution _) fun _ => .bind (retains_merge hk.merged _) fun merged => ?_
  refine .bind (hk.evolution _) fun change => .bind (hk.recordRound _) fun _ => ?_
  refine .bind (retains_record _ _) fun _ => .get_bind ?_
  split
  next => exact .bind (retains_record _ _) fun _ => .of_pure _
  next => exact .of_pure _

theorem rounds (left done : Nat) (e : Option α) (s : Solver α) :
    (rounds k r left done e).Retains s := by
  induction left generalizing done e s with
  | zero =>
      unfold Solver.rounds
      refine .get_bind ?_
      dsimp only
      split
      next =>
        split
        next => exact .bind (retains_record _ _) fun _ => .of_pure _
        next => exact .of_pure _
      next => exact .of_pure _
  | succ left ih =>
      unfold Solver.rounds
      refine .get_bind ?_
      split
      next => exact .of_pure _
      next =>
        refine .bind (retains_keepIterate s) fun _ => .bind (hk.split _) fun activated => ?_
        split
        next => exact .of_pure _
        next => exact .bind (hk.finishRound _ _ _) fun change => ih _ _ _

/-- A run, from the beginning or continued, retains the settings and the arrangement. -/
theorem run (fresh : Bool) (s : Solver α) : (run k fresh r).Retains s := by
  refine .modify_bind (.of_values _ _ _ _ _ _) ?_
  dsimp only
  split
  next =>
    exact .bind (hk.start _) fun _ => .bind (hk.recordRound _) fun _ => .get_bind (hk.rounds _ _ _ _)
  next => exact .bind (hk.recordRound _) fun _ => .get_bind (hk.rounds _ _ _ _)

end StepsRetain

theorem sameSettings_of_start {solve : InnerMethod α} {u : Unit}
    (h : (start (steps solve)).Answers s u t) : SameSettings s t :=
  (((stepsRetain solve).start s).of_answers h).toSameSettings

theorem sameSettings_of_finishRound {solve : InnerMethod α} {r : Recording}
    {number activated : Nat} {change : α}
    (h : (finishRound (steps solve) r number activated).Answers s change t) :
    SameSettings s t :=
  (((stepsRetain solve).finishRound number activated s).of_answers h).toSameSettings

theorem LoopHead.sameSettings {solve : InnerMethod α} {r : Recording} {left done : Nat}
    {e : Option α} (h : LoopHead (steps solve) r s left done e t) : SameSettings s t := by
  induction h with
  | first hstarted hrecorded =>
      have hone := sameSettings_of_start hstarted
      rw [recordRound_answers objective_answers hrecorded]
      refine SameSettings.trans ?_ (hone.trans ?_) <;> constructor <;> rfl
  | next _ _ hkept hsplit _ hfinished ih =>
      exact ((ih.trans (sameSettings_of_keepIterate hkept)).trans
        (sameSettings_of_split hsplit)).trans (sameSettings_of_finishRound hfinished)

theorem sameSettings_of_run {solve : InnerMethod α} {r : Recording} {fresh : Bool} {n : Nat}
    (h : (run (steps solve) fresh r).Answers s n t) : SameSettings s t :=
  (((stepsRetain solve).run fresh s).of_answers h).toSameSettings

end Solver
end TotalVariation
