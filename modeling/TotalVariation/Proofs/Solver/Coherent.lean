import Mathlib
import TotalVariation.Proofs.Partition.Coherent
import TotalVariation.Proofs.Problem.Splitting
import TotalVariation.Proofs.Solver.Settings

/-! # Coherence along runs

At the head of the loop of a run, and at its end, the arrays of a solver describe one partition of
the vertices into components of the inactive edges, and the iterate has one value for each region.
In between the steps break this: a split marks boundaries inside regions, a solution reorders the
vertices of the regions, and a merger opens boundaries. Rebuilding restores it.
-/

namespace TotalVariation.Solver

open Step TotalVariation.Partition

variable {α : Type} [Scalar α] {s t : Solver α}

/-- The partition is coherent and the iterate has one value for each region. -/
structure IsSolved (s : Solver α) : Prop where
  partition : s.partition.IsCoherent
  iterate : ∃ x, s.x = some x ∧ x.size = s.partition.regionCount

/-- With these parameters the method, from no initial values or as many as variables, answers one
value for each variable of the problem. -/
def AnswersInSize (solve : InnerMethod α) (k : InnerParameters α) : Prop :=
  ∀ tolerance p init x iterations, (∀ y, init = some y → y.size = p.size) →
    solve k tolerance p init = .ok (x, iterations) → x.size = p.size

/-- The method of splitting answers the solution by splitting. -/
theorem innerMethod_eq_ok {k : InnerParameters α} {tolerance : α} {p : Problem α}
    {init : Option (Vec α)} {x : Vec α} {iterations : Nat} (hbackend : k.backend = .splitting)
    (h : innerMethod k tolerance p init = .ok (x, iterations)) :
    x = (Splitting.solve p (splittingParameters k tolerance) init).x := by
  unfold innerMethod at h
  rw [hbackend] at h
  cases hanswer : Splitting.solve? p (splittingParameters k tolerance) init with
  | error e =>
      simp only [hanswer] at h
      cases h
  | ok answer =>
      simp only [hanswer] at h
      obtain ⟨rfl, -⟩ := Prod.mk.inj (Except.ok.inj h)
      rw [Splitting.solve?_eq_ok hanswer]

theorem answersInSize_innerMethod {k : InnerParameters α} (hbackend : k.backend = .splitting) :
    AnswersInSize innerMethod k := by
  intro tolerance p init x iterations hinit h
  rw [innerMethod_eq_ok hbackend h]
  exact Splitting.size_solve hinit

/-! ## Solutions over the regions -/

theorem isCoherent_of_regionTargets {w m : Option (Vec α)} (hs : s.partition.IsCoherent)
    (h : regionTargets.Answers s (w, m) t) :
    t.partition.IsCoherent ∧ t.partition.regionCount = s.partition.regionCount := by
  obtain ⟨-, rfl⟩ := regionTargets_answers.mp h
  obtain hsorted | ⟨targets, -, hsorted⟩ := s.sorted_cases
  · rw [hsorted]
    exact ⟨hs, rfl⟩
  · rw [hsorted]
    have hperm := s.forall₂_perm_regionMedians targets
    have hcount : (s.sortedByTarget targets).partition.regionCount = s.partition.regionCount :=
      hperm.length_eq
    refine ⟨hs.of_perm rfl rfl rfl hperm rfl ?_ ?_, hcount⟩
    · rw [hcount]
      exact hs.size_saturated
    · rw [hcount]
      exact Array.size_replicate

/-- The term over the regions has one variable for each region. -/
theorem size_reduce (q : Quadratic α) (P : Partition α) (premultiply : Bool) :
    (q.reduce P premultiply).1.size = P.regionCount := by
  cases q with
  | none n => rfl
  | identity n a y => exact Vec.size_tabulate _ _
  | diagonal d y => exact size_regionSums P d
  | gram H y => rfl
  | direct A y => cases premultiply <;> rfl

theorem reduce?_eq_ok {q : Quadratic α} {P : Partition α} {premultiply : Bool}
    {reduced : Quadratic α × Option (DenseMatrix α)} (h : q.reduce? P premultiply = .ok reduced) :
    reduced = q.reduce P premultiply := by
  unfold Quadratic.reduce? at h
  cases q with
  | _ =>
      dsimp only at h
      split at h
      next => exact (Except.ok.inj h).symm
      next => cases h

theorem size_of_warmStart? {init : Option (Vec α)} (h : s.warmStart? = .ok init) {y : Vec α}
    (hy : init = some y) : y.size = s.partition.regionCount := by
  subst hy
  unfold warmStart? at h
  split at h
  next =>
    dsimp only at h
    split at h
    next => cases h
    next =>
      obtain rfl := Option.some.inj (Except.ok.inj h)
      exact Vec.size_tabulate _ _
  next => cases h

theorem isSolved_of_reducedSolution {solve : InnerMethod α} (hsolve : AnswersInSize solve s.inner)
    {u : Unit} (hs : s.partition.IsCoherent) (h : (reducedSolution solve).Answers s u t) :
    t.IsSolved := by
  obtain ⟨premultiply, reduced, design, weights, targets, s₁, init, x, iterations, -, hreduced,
    htargets, hinit, hx, rfl⟩ := reducedSolution_answers h
  obtain ⟨hcoherent, hcount⟩ := isCoherent_of_regionTargets hs htargets
  refine ⟨hcoherent, x, rfl, ?_⟩
  have hsize := size_reduce s.quadratic s.partition premultiply
  rw [← reduce?_eq_ok hreduced] at hsize
  have hproblem : (s₁.regionProblem reduced weights targets).size = s.partition.regionCount := hsize
  rw [(sameSettings_of_regionTargets htargets).inner] at hx
  rw [hcount, ← hproblem]
  refine hsolve _ _ _ _ _ (fun y hy => ?_) hx
  rw [size_of_warmStart? hinit hy, hcount, hproblem]

/-! ## The start -/

theorem isCoherent_components {P : Partition α} (h : P.IsArranged) :
    (components P).IsCoherent := by
  have hopened : { P with active := Array.replicate P.edgeCount false }.IsArranged :=
    ⟨h.graph_valid, Array.size_replicate, h.arena_perm, h.region_ne_nil⟩
  refine hopened.isCoherent_rebuild.of_marks rfl rfl rfl rfl rfl ?_ ?_
  · rw [hopened.isCoherent_rebuild.size_saturated]
    exact Array.size_replicate
  · rw [hopened.isCoherent_rebuild.size_medianCached]
    exact Array.size_replicate

theorem isCoherent_wholeMedian (hs : s.partition.IsCoherent) :
    s.wholeMedian.2.partition.IsCoherent ∧
      s.wholeMedian.2.partition.regionCount = s.partition.regionCount := by
  unfold wholeMedian
  split
  next targets _ _ =>
    have hperm := forall₂_perm_setRegion s.partition 0
      (Median.sortByValue_perm targets (s.partition.region 0))
    have hcount := hperm.length_eq
    refine ⟨hs.of_perm rfl rfl rfl hperm rfl ?_ ?_, hcount⟩
    · refine Array.size_setIfInBounds.trans (hs.size_saturated.trans hcount.symm)
    · refine Array.size_setIfInBounds.trans (hs.size_medianCached.trans hcount.symm)
  next => exact ⟨hs, rfl⟩

/-- A run begins with a coherent partition and a solution. -/
theorem isSolved_of_start {solve : InnerMethod α} (hsolve : AnswersInSize solve s.inner) {u : Unit}
    (hs : s.partition.IsArranged) (h : (start (steps solve)).Answers s u t) : t.IsSolved := by
  rcases start_answers h with ⟨hone, c, s₁, hc, rfl⟩ | ⟨-, hsolved⟩
  · obtain ⟨value, -, -, rfl⟩ := constantSolution_answers hc
    obtain ⟨hcoherent, hcount⟩ :=
      isCoherent_wholeMedian (s := { s with lastX := none, partition := components s.partition })
        (isCoherent_components hs)
    exact ⟨hcoherent, #[c], rfl, (hcount.trans hone).symm⟩
  · exact isSolved_of_reducedSolution
      (s := { s with lastX := none, partition := components s.partition })
      hsolve (isCoherent_components hs) hsolved

/-! ## Splits -/

theorem cutCount_eq_sum (cuts : List (Nat × List Nat)) :
    cutCount cuts = (cuts.map fun cut => cut.2.length).sum := by
  have hfold : ∀ n, cuts.foldl (fun n cut => n + cut.2.length) n =
      n + (cuts.map fun cut => cut.2.length).sum := by
    induction cuts with
    | nil => simp
    | cons cut cuts ih =>
        intro n
        rw [List.foldl_cons, ih, List.map_cons, List.sum_cons, Nat.add_assoc]
  rw [cutCount, hfold, Nat.zero_add]

theorem cutCount_eq_zero {cuts : List (Nat × List Nat)} :
    cutCount cuts = 0 ↔ ∀ cut ∈ cuts, cut.2 = [] := by
  rw [cutCount_eq_sum, List.sum_eq_zero_iff]
  constructor
  · intro hall cut hcut
    exact List.length_eq_zero_iff.mp (hall _ (List.mem_map.mpr ⟨cut, hcut, rfl⟩))
  · intro hall n hn
    obtain ⟨cut, hcut, rfl⟩ := List.mem_map.mp hn
    rw [hall cut hcut, List.length_nil]

omit [Scalar α] in
/-- A split that finds no edge only changes marks of regions. -/
theorem isCoherent_markRegions {P : Partition α} (h : P.IsCoherent)
    {cuts : List (Nat × List Nat)} (hnone : cutCount cuts = 0) :
    (markRegions P cuts).IsCoherent ∧ (markRegions P cuts).regionCount = P.regionCount := by
  rw [cutCount_eq_zero] at hnone
  induction cuts generalizing P with
  | nil => exact ⟨h, rfl⟩
  | cons cut cuts ih =>
      have hnil : cut.2 = [] := hnone cut List.mem_cons_self
      have hmarked : (markRegion P cut.1 cut.2).IsCoherent := by
        rw [hnil]
        refine h.of_marks rfl rfl rfl rfl rfl ?_ rfl
        exact Array.size_setIfInBounds
      exact ih hmarked fun cut hcut => hnone cut (List.mem_cons_of_mem _ hcut)

/-! ## Rounds -/

theorem isSolved_of_evolution {change : α} (hs : s.IsSolved)
    (h : evolution.Answers s change t) : t.IsSolved := by
  obtain ⟨x, lastX, last, -, -, rfl⟩ := evolution_answers h
  refine ⟨hs.partition.of_marks rfl rfl rfl rfl rfl ?_ rfl, hs.iterate⟩
  exact size_foldl_setIfInBounds _ _ _ _

theorem isSolved_of_renewResidual {u : Unit} (hs : s.IsSolved)
    (h : renewResidual.Answers s u t) : t.IsSolved := by
  rcases renewResidual_answers h with ⟨-, rfl⟩ | ⟨-, x, y, residual, -, -, -, rfl⟩
  · exact hs
  · exact ⟨hs.partition, hs.iterate⟩

theorem isSolved_of_merge {solve : InnerMethod α} {m : Int} (hs : s.IsSolved)
    (h : (merge (steps solve)).Answers s m t) : t.IsSolved := by
  rcases merge_answers h with ⟨-, -, -, rfl⟩ | ⟨x, y, hx, hmerge, hmerged⟩
  · exact hs
  · obtain ⟨x', hx', hsize⟩ := hs.iterate
    obtain rfl : x = x' := Option.some.inj (hx.symm.trans hx')
    obtain ⟨hcoherent, hcount⟩ := hs.partition.merge? hsize hmerge
    have hstored : IsSolved { s with
        partition := (s.partition.merge? x s.mergeTolerance).1
        x := some y } := ⟨hcoherent, y, rfl, hcount⟩
    rcases hmerged with ⟨-, rfl⟩ | ⟨-, hrenewed⟩
    · exact hstored
    · exact isSolved_of_renewResidual hstored hrenewed

/-- A round that follows a split restores coherence. -/
theorem isSolved_of_finishRound {solve : InnerMethod α} (hsolve : AnswersInSize solve s.inner)
    {r : Recording} {number activated : Nat} {change : α} (hs : s.partition.IsArranged)
    (h : (finishRound (steps solve) r number activated).Answers s change t) : t.IsSolved := by
  obtain ⟨s₁, merged, s₂, s₃, hsolved, hmerged, hevolution, heq⟩ :=
    finishRound_answers objective_answers h
  have hone : s₁.IsSolved := isSolved_of_reducedSolution
    (s := { s with partition := s.partition.rebuild.reduceGraph })
    hsolve hs.isCoherent_rebuild hsolved
  have hthree := isSolved_of_evolution (isSolved_of_merge hone hmerged) hevolution
  rw [heq]
  exact ⟨hthree.partition, hthree.iterate⟩

variable {solve : InnerMethod α} {r : Recording}

omit [Scalar α] in
theorem isSolved_of_keepIterate {u : Unit} (hs : s.IsSolved) (h : keepIterate.Answers s u t) :
    t.IsSolved := by
  obtain ⟨x, -, rfl⟩ := keepIterate_answers h
  exact ⟨hs.partition.of_marks rfl rfl rfl rfl rfl rfl rfl, hs.iterate⟩

theorem LoopHead.isSolved (hsolve : AnswersInSize solve s.inner) (hs : s.partition.IsArranged)
    {left done : Nat} {e : Option α} (h : LoopHead (steps solve) r s left done e t) :
    t.IsSolved := by
  induction h with
  | first hstarted hrecorded =>
      have hone := isSolved_of_start (s := { s with history := .empty }) hsolve hs hstarted
      rw [recordRound_answers objective_answers hrecorded]
      exact ⟨hone.partition, hone.iterate⟩
  | next hhead _ hkept hsplit _ hfinished ih =>
      -- After the split only the arrangement is left, and that is all that the rest builds on.
      have hkeep := isSolved_of_keepIterate ih hkept
      obtain ⟨slope, found, -, -, rfl, -⟩ := split_answers.mp hsplit
      refine isSolved_of_finishRound ?_
        (isArranged_markRegions hkeep.partition.toIsArranged _) hfinished
      rw [(sameSettings_of_split hsplit).inner, (sameSettings_of_keepIterate hkept).inner,
        hhead.sameSettings.inner]
      exact hsolve

/-- The loop ends in a solved state. -/
theorem LoopEnd.isSolved {left : Nat} {e : Option α} {u : Solver α} (ht : t.IsSolved)
    (h : LoopEnd (steps solve) left e t u) : u.IsSolved := by
  cases h with
  | exhausted _ heq =>
      rw [heq]
      exact ⟨ht.partition, ht.iterate⟩
  | settled _ heq =>
      rw [heq]
      exact ht
  | unsplit _ hkept hsplit =>
      have hkeep := isSolved_of_keepIterate ht hkept
      obtain ⟨slope, found, -, -, rfl, hcount⟩ := split_answers.mp hsplit
      obtain ⟨hcoherent, hregions⟩ := isCoherent_markRegions hkeep.partition hcount.symm
      obtain ⟨x, hx, hsize⟩ := hkeep.iterate
      exact ⟨hcoherent, x, hx, hsize.trans hregions.symm⟩

/-- The arena is a permutation of the vertices, in which each region is the segment between its
offset and the next; regions are connected by inactive edges, the active edges are those between
different regions, marks and values are as many as regions, and the graph of the regions has each
pair of regions that an edge joins once. -/
structure IsCoherent (s : Solver α) : Prop where
  arena_perm : s.partition.arena.Perm (List.range s.vertexCount)
  length_offsets : s.partition.offsets.length = s.partition.regionCount + 1
  offsets_first : s.partition.offsets.getD 0 0 = 0
  offsets_lt : s.partition.offsets.Pairwise (· < ·)
  offsets_last : s.partition.offsets.getD s.partition.regionCount 0 = s.vertexCount
  mem_segment : ∀ r < s.partition.regionCount, ∀ v,
    v ∈ s.partition.segment r ↔ v < s.vertexCount ∧ s.partition.regionOf v = r
  connected : ∀ u < s.vertexCount, ∀ v < s.vertexCount,
    s.partition.regionOf u = s.partition.regionOf v → s.partition.Connected u v
  isActive_iff : ∀ e < s.partition.edgeCount, s.partition.isActive e = true ↔
    s.partition.regionOf (s.partition.graph.tailOf e) ≠
      s.partition.regionOf (s.partition.graph.headOf e)
  size_saturated : s.partition.saturated.size = s.partition.regionCount
  size_medianCached : s.partition.medianCached.size = s.partition.regionCount
  size_iterate : ∃ x, s.x = some x ∧ x.size = s.partition.regionCount
  nodup_reducedEdges : s.partition.reducedEdges.toList.Nodup
  mem_reducedEdges : ∀ a b, (a, b) ∈ s.partition.reducedEdges ↔
    a < b ∧ ∃ e < s.partition.edgeCount, s.partition.joins a b e = true

omit [Scalar α] in
theorem IsSolved.isCoherent (hs : s.IsSolved) : s.IsCoherent where
  arena_perm := hs.partition.arena_perm
  length_offsets := s.partition.length_offsets
  offsets_first := by
    rw [offsets_getD _ (Nat.zero_le _)]
    rfl
  offsets_lt := hs.partition.toIsArranged.offsets_lt
  offsets_last := hs.partition.toIsArranged.offsets_last
  mem_segment := by
    intro r hr v
    rw [segment_eq_region _ hr]
    exact hs.partition.mem_region r hr v
  connected := hs.partition.connected
  isActive_iff := hs.partition.isActive_iff
  size_saturated := hs.partition.size_saturated
  size_medianCached := hs.partition.size_medianCached
  size_iterate := hs.iterate
  nodup_reducedEdges := hs.partition.nodup_reducedEdges
  mem_reducedEdges := hs.partition.mem_reducedEdges

/-- A run from an arranged partition, as the one of an accepted graph is, comes to every head of
its loop with coherent arrays, and ends with coherent arrays if it ends. -/
theorem isCoherent_of_run (hs : s.partition.IsArranged) (hsolve : AnswersInSize solve s.inner) :
    (∀ {left done : Nat} {e : Option α} {t : Solver α},
      LoopHead (steps solve) r s left done e t → t.IsCoherent) ∧
    ∀ {n : Nat} {t : Solver α}, (run (steps solve) true r).Answers s n t → t.IsCoherent := by
  refine ⟨fun hhead => (hhead.isSolved hsolve hs).isCoherent, fun h => ?_⟩
  obtain ⟨left, e, u, hhead, hend⟩ := exists_end_of_run h
  exact (hend.isSolved (hhead.isSolved hsolve hs)).isCoherent

/-- Two vertices that are observed far from each other, and one iteration for each solution. -/
def farPair (P : Partition ℚ) : Solver ℚ :=
  { ofPartition P with
    quadratic := .identity 2 1 (some #[0, 10])
    inner := { defaultInner with maxIterations := 1 } }

theorem isCoherent_of_run_farPair :
    ∃ P, Partition.ofIndex? #[0, 1, 1] #[1] none (1 : ℚ) = .ok P ∧
      ∃ t, (run standardSteps true ⟨true, false⟩).Answers (farPair P) 1 t ∧
        t.x = some #[1, 9] ∧ t.IsCoherent := by
  have hP : Partition.ofIndex? #[0, 1, 1] #[1] none (1 : ℚ) =
      .ok (.whole ⟨#[0, 1, 1], #[0], #[1]⟩ ⟨none, 1⟩) := by with_unfolding_all rfl
  have hrun : (run standardSteps true ⟨true, false⟩).Answers
      (farPair (.whole ⟨#[0, 1, 1], #[0], #[1]⟩ ⟨none, 1⟩)) 1 _ :=
    answers_of_toOption (by decide +kernel)
  exact ⟨_, hP, _, hrun, by decide +kernel,
    (isCoherent_of_run (isArranged_of_ofIndex? hP) (answersInSize_innerMethod rfl)).2 hrun⟩

end TotalVariation.Solver
