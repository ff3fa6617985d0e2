import Mathlib
import TotalVariation.Proofs.Solver.Feasible
import TotalVariation.Proofs.Solver.History
import TotalVariation.Proofs.Solver.Objective
import TotalVariation.Proofs.Solver.Residual

/-! # Descent of the objective

If the method solves each problem over the regions that a run hands to it, no round raises the
objective. The iterate before a split is constant on the finer regions after it, so it is one of the
points over which the method minimises; and a merger of equal values moves no vertex.
-/

namespace TotalVariation

open Step TotalVariation.Partition TotalVariation.Bound

variable {K : Type} [ExactField K]

namespace Solver

variable {s t : Solver K} {solve : InnerMethod K} {r : Recording}

/-- The iterate on the vertices. -/
def vertexValues (s : Solver K) : Vec K := s.partition.expand (s.x.getD #[])

/-- A convex quadratic term, targets and bounds that are the same for all vertices, with room
between the bounds, and equality as the only closeness. -/
structure IsUniform (s : Solver K) : Prop where
  fits : s.quadratic.Fits s.vertexCount
  convex : s.quadratic.IsConvex
  targetWeight_nonneg : s.targetWeights.each = none → 0 ≤ s.targetWeights.common
  targets_eq : ∀ targets, s.targets = some targets →
    ∀ u < s.vertexCount, ∀ v < s.vertexCount, Vec.entry targets u = Vec.entry targets v
  lower_each : s.lower.each = none
  upper_each : s.upper.each = none
  uncrossed : AreUncrossed s.lower.common s.upper.common
  exactMerge : s.mergeTolerance = 0

theorem IsUniform.of_sameSettings (hs : s.IsUniform) (h : SameSettings s t) : t.IsUniform where
  fits := by
    rw [h.quadratic, h.vertexCount]
    exact hs.fits
  convex := h.quadratic ▸ hs.convex
  targetWeight_nonneg := h.targetWeights ▸ hs.targetWeight_nonneg
  targets_eq := by
    rw [h.targets, h.vertexCount]
    exact hs.targets_eq
  lower_each := h.lower ▸ hs.lower_each
  upper_each := h.upper ▸ hs.upper_each
  uncrossed := by
    rw [h.lower, h.upper]
    exact hs.uncrossed
  exactMerge := h.mergeTolerance ▸ hs.exactMerge

/-- The method minimises the problem that is handed to it at a solution over the regions. -/
def SolvesExactly (solve : InnerMethod K) (s : Solver K) : Prop :=
  ∀ premultiply init x iterations, s.premultiplies? = .ok premultiply →
    s.sorted.warmStart? = .ok init →
    solve s.inner s.innerTolerance (s.handedProblem premultiply) init = .ok (x, iterations) →
    (s.handedProblem premultiply).IsMinimal x

/-- A coherent partition whose graph of regions has up to date weights, and an iterate with one
value for each region, between the bounds. -/
structure IsCurrent (s : Solver K) : Prop extends s.IsSolved where
  assigns : s.AssignsVertices
  reducedWeights : s.partition.HasReducedWeights
  feasible : s.problem.isFeasible s.vertexValues = true

/-- The objective at the iterate on the vertices. -/
def value (s : Solver K) : K := s.problem.objective s.vertexValues

/-! ## What leaves the iterate alone -/

/-- Two solvers of one problem have one iterate on the vertices. -/
structure SameValues (s t : Solver K) : Prop extends SameSettings s t where
  vertexValues : t.vertexValues = s.vertexValues

theorem SameValues.value (h : SameValues s t) : t.value = s.value := by
  rw [Solver.value, Solver.value, h.vertexValues, h.problem]

/-- What neither moves a vertex nor changes the iterate leaves the values of the vertices alone. -/
theorem SameSettings.sameValues (h : SameSettings s t)
    (hassignment : t.partition.assignment = s.partition.assignment) (hx : t.x = s.x) :
    SameValues s t where
  toSameSettings := h
  vertexValues := by
    simp only [Solver.vertexValues, Partition.expand, Partition.vertexCount, regionOf, h.graph,
      hassignment, hx]

theorem IsCurrent.of_frame (hs : s.IsCurrent) (h : SameSettings s t)
    (hcoherent : t.partition.IsCoherent)
    (hcount : t.partition.regionCount = s.partition.regionCount)
    (hassignment : t.partition.assignment = s.partition.assignment)
    (hedges : t.partition.reducedEdges = s.partition.reducedEdges)
    (hweights : t.partition.reducedWeights = s.partition.reducedWeights) (hx : t.x = s.x) :
    t.IsCurrent where
  partition := hcoherent
  iterate := by
    rw [hx, hcount]
    exact hs.iterate
  assigns := by
    rw [AssignsVertices, h.vertexCount, hassignment]
    exact hs.assigns
  reducedWeights := hs.reducedWeights.of_frame h.graph h.edgeWeights hassignment hedges hweights
  feasible := by
    rw [h.problem, (h.sameValues hassignment hx).vertexValues]
    exact hs.feasible

/-- The record of a run is not read. -/
theorem IsCurrent.of_history (hs : s.IsCurrent) (h : t = { s with history := t.history }) :
    t.IsCurrent := by
  rw [h]
  exact hs.of_frame (by constructor <;> rfl) hs.partition rfl rfl rfl rfl rfl

/-! ## Solutions -/

theorem IsUniform.isReducible (h : s.IsUniform) (hs : s.partition.IsCoherent)
    (hweights : s.partition.HasReducedWeights) : s.IsReducible where
  consistent := hs.toIsConsistent
  reducedGraph := hs.toHasReducedGraph
  reducedWeights := hweights
  fits := h.fits
  symmetric := h.convex.isSymmetric
  targetWeight_nonneg := h.targetWeight_nonneg
  targets_eq targets htargets u hu v hv _ := h.targets_eq targets htargets u hu v hv

/-- An exact solution over the regions is current, and no feasible vector that is constant on the
regions has a smaller objective. -/
theorem isCurrent_of_reducedSolution {u : Unit} (hs : s.partition.IsCoherent)
    (hassigns : s.AssignsVertices) (hweights : s.partition.HasReducedWeights)
    (huniform : s.IsUniform) (hexact : SolvesExactly solve s)
    (h : (reducedSolution solve).Answers s u t) : t.IsCurrent ∧
      ∀ z : Vec K, z.size = s.partition.regionCount →
        s.problem.isFeasible (s.partition.expand z) = true →
          t.value ≤ s.problem.objective (s.partition.expand z) := by
  have hsame := sameSettings_of_reducedSolution h
  have hcoherent := isCoherent_of_reducedSolution hs h
  have hassigned := hassigns.of_reducedSolution h
  have hreducible := huniform.isReducible hs hweights
  obtain ⟨premultiply, hpremultiply, hchosen⟩ := reducedSolution_answers_iff.mp h
  obtain ⟨init, y, iterations, hinit, hsolve, rfl⟩ :=
    (chosenSolution_answers_iff huniform.fits).mp hchosen
  have hminimal := hexact _ _ _ _ hpremultiply hinit hsolve
  obtain ⟨hassignment, -, hedges, hreduced, hperm⟩ := s.sorted_frame
  have hsize : (s.handedProblem premultiply).size = s.partition.regionCount :=
    size_reduce s.quadratic s.partition premultiply
  have hy : y.size = s.partition.regionCount := hminimal.size_eq.trans hsize
  have hvalues : s.sorted.partition.expand y = s.partition.expand y := by
    simp only [Partition.expand, Partition.vertexCount, regionOf, s.sameSettings_sorted.graph,
      hassignment]
  refine ⟨⟨⟨hcoherent, y, rfl, hy.trans hperm.length_eq.symm⟩, hassigned, ?_, ?_⟩, ?_⟩
  · exact hweights.of_frame hsame.graph hsame.edgeWeights hassignment hedges hreduced
  · rw [hsame.problem]
    change s.problem.isFeasible (s.sorted.partition.expand y) = true
    rw [hvalues]
    exact (hreducible.isFeasible_handedProblem premultiply y).mp hminimal.feasible
  · intro z hz hfeasible
    rw [Solver.value, hsame.problem]
    change s.problem.objective (s.sorted.partition.expand y) ≤ _
    rw [hvalues, ← hreducible.objective_handedProblem premultiply hy,
      ← hreducible.objective_handedProblem premultiply hz, add_le_add_iff_right]
    exact hminimal.le z (hz.trans hsize.symm)
      ((hreducible.isFeasible_handedProblem premultiply z).mpr hfeasible)

theorem IsUniform.boundsAccepted (h : s.IsUniform) : BoundsAccepted s where
  size_lower values hvalues := by
    rw [h.lower_each] at hvalues
    cases hvalues
  size_upper values hvalues := by
    rw [h.upper_each] at hvalues
    cases hvalues
  uncrossed v hv := by
    rw [problem_lowerAt s hv, problem_upperAt s hv, boundAt, boundAt, h.lower_each, h.upper_each]
    exact h.uncrossed

/-- Bounds that are the same for all vertices leave room in every region. -/
theorem IsUniform.hasRoom (h : s.IsUniform) {S : Finset Nat} (hS : ∀ v ∈ S, v < s.vertexCount) :
    HasRoom s.problem S := by
  intro u hu w hw
  rw [problem_lowerAt s (hS u hu), problem_upperAt s (hS w hw), boundAt, boundAt, h.lower_each,
    h.upper_each]
  exact h.uncrossed

theorem IsUniform.isFeasible (h : s.IsUniform) (hs : s.partition.IsCoherent)
    (hrespects : RespectsBounds s.problem s) : s.problem.isFeasible s.vertexValues = true := by
  have hsize : s.problem.size = s.partition.vertexCount := h.fits.size_eq
  refine Problem.isFeasible_iff.mpr fun v hv => ?_
  have hlt : v < s.partition.vertexCount := hsize ▸ hv
  rw [vertexValues, s.partition.entry_expand _ hlt]
  exact hrespects _ (hs.regionOf_lt hlt) (h.hasRoom fun w hw => (mem_members.mp hw).1) v
    (mem_members.mpr ⟨hlt, rfl⟩)

/-- A run begins with a current iterate. -/
theorem isCurrent_of_start {u : Unit} (hs : s.partition.IsArranged) (huniform : s.IsUniform)
    (hexact : (components s.partition).regionCount ≠ 1 → SolvesExactly solve
      { s with lastX := none, partition := components s.partition })
    (h : (start (steps solve)).Answers s u t) : t.IsCurrent := by
  set s₀ : Solver K := { s with lastX := none, partition := components s.partition } with hs₀
  have hbegun : SameSettings s s₀ := by constructor <;> rfl
  have hcoherent : s₀.partition.IsCoherent := isCoherent_components hs
  have hweights : s₀.partition.HasReducedWeights := by
    have hopened : { s.partition with
        active := Array.replicate s.partition.edgeCount false }.IsArranged :=
      ⟨hs.graph_valid, Array.size_replicate, hs.arena_perm, hs.region_ne_nil⟩
    exact hopened.hasReducedWeights.of_frame rfl rfl rfl rfl rfl
  have hassigns := assignsVertices_of_start h
  rcases start_answers h with ⟨hone, c, s₁, hc, rfl⟩ | ⟨hmany, hsolved⟩
  · have hrespects := respectsBounds_of_constantSolution hcoherent hone
      (huniform.of_sameSettings hbegun).boundsAccepted hc
    have hsame : SameSettings s₀ { s₁ with x := some #[c] } := by
      apply (sameSettings_of_constantSolution hc).trans
      constructor <;> rfl
    obtain ⟨value, -, -, rfl⟩ := constantSolution_answers hc
    obtain ⟨hmedian, hcount⟩ := isCoherent_wholeMedian hcoherent
    obtain ⟨hgraph, hassignment⟩ := s₀.wholeMedian_frame
    have huniform₁ := (huniform.of_sameSettings hbegun).of_sameSettings hsame
    refine ⟨⟨hmedian, #[c], rfl, (hcount.trans hone).symm⟩, hassigns, ?_, ?_⟩
    · have hframe : s₀.wholeMedian.2.partition.reducedEdges = s₀.partition.reducedEdges ∧
          s₀.wholeMedian.2.partition.reducedWeights = s₀.partition.reducedWeights := by
        unfold wholeMedian
        split <;> exact ⟨rfl, rfl⟩
      exact hweights.of_frame hgraph hsame.edgeWeights hassignment hframe.1 hframe.2
    · rw [← hsame.problem] at hrespects
      exact huniform₁.isFeasible hmedian hrespects
  · exact (isCurrent_of_reducedSolution hcoherent (Vec.size_tabulate _ _) hweights
      (huniform.of_sameSettings hbegun) (hexact hmany) hsolved).1

/-! ## Rounds -/

/-- The iterate before a split is one on the finer regions after it. -/
theorem exists_kept_values {s₁ : Solver K} {n : Nat} (hs : s.IsCurrent)
    (hkept : keepIterate.Answers s () s₁) (hsplit : split.Answers s₁ n t) :
    ∃ z : Vec K, z.size = t.partition.rebuild.reduceGraph.regionCount ∧
      t.partition.rebuild.reduceGraph.expand z = s.vertexValues := by
  have hconsistent := (isSolved_of_keepIterate hs.toIsSolved hkept).partition.toIsConsistent
  have harranged := isArranged_of_split hconsistent.toIsArranged hsplit
  have hfiner := isFiner_of_split hconsistent hsplit
  have hgraph : t.partition.graph = s.partition.graph :=
    ((sameSettings_of_keepIterate hkept).trans (sameSettings_of_split hsplit)).graph
  have hregionOf : s₁.partition.regionOf = s.partition.regionOf := by
    obtain ⟨x, -, rfl⟩ := keepIterate_answers hkept
    rfl
  set P := t.partition.rebuild with hP
  refine ⟨Vec.tabulate P.regionCount fun r =>
    Vec.entry (s.x.getD #[]) (s.partition.regionOf (P.representative r)), Vec.size_tabulate _ _, ?_⟩
  have hvertices : P.reduceGraph.vertexCount = s.partition.vertexCount := by
    rw [Partition.vertexCount, Partition.vertexCount, ← hgraph]
    rfl
  apply Array.ext
  · rw [size_expand, vertexValues, size_expand, hvertices]
  · intro v hv hv'
    have hlt : v < P.vertexCount := (P.reduceGraph.size_expand _).symm ▸ hv
    have hr : P.regionOf v < P.regionCount := harranged.rebuild_regionOf_lt hlt
    have hrepresentative := harranged.rebuild.representative_mem hr
    obtain ⟨hrlt, hregion⟩ := (harranged.isIndexed_rebuild _ hr _).mp hrepresentative
    have hsame := hfiner _ hrlt v hlt hregion
    rw [hregionOf] at hsame
    simp only [vertexValues, Partition.expand, Vec.getElem_tabulate]
    change Vec.entry (Vec.tabulate P.regionCount _) (P.regionOf v) = _
    rw [Vec.entry_tabulate, if_pos hr, hsame]

/-- A merger of equal values moves no vertex. -/
theorem isCurrent_of_merge {m : Int} (hs : s.IsCurrent) (hzero : s.mergeTolerance = 0)
    (h : (merge (steps solve)).Answers s m t) : t.IsCurrent ∧ SameValues s t := by
  have hsame := sameSettings_of_merge h
  have hvalues : SameValues s t := by
    refine ⟨hsame, ?_⟩
    obtain ⟨x, hx, hsize⟩ := hs.iterate
    rcases merge_answers h with ⟨hnone, -⟩ | ⟨x', y, hx', hmerge, hmerged⟩
    · rw [hx] at hnone
      cases hnone
    · obtain rfl := Option.some.inj (hx.symm.trans hx')
      have hstored : t.x = some y ∧ t.partition = (s.partition.merge? x s.mergeTolerance).1 := by
        rcases hmerged with ⟨-, rfl⟩ | ⟨-, hrenewed⟩
        · exact ⟨rfl, rfl⟩
        · rcases renewResidual_answers hrenewed with ⟨-, rfl⟩ | ⟨-, _, _, _, -, -, -, rfl⟩ <;>
            exact ⟨rfl, rfl⟩
      rw [hzero] at hmerge hstored
      have hvertices : t.partition.vertexCount = s.partition.vertexCount := hsame.vertexCount
      apply Array.ext
      · rw [vertexValues, size_expand, vertexValues, size_expand, hvertices]
      · intro v hv hv'
        have hlt : v < s.partition.vertexCount := by simpa [vertexValues] using hv'
        simp only [vertexValues, Partition.expand, Vec.getElem_tabulate, hstored.1, hstored.2, hx,
          Option.getD_some]
        exact hs.partition.merge?_entry hmerge hlt
  refine ⟨⟨isSolved_of_merge hs.toIsSolved h, hs.assigns.of_merge h, ?_, ?_⟩, hvalues⟩
  · obtain ⟨-, hkeep | ⟨links, hrebuilt⟩⟩ := merge_partition h
    · rw [hkeep]
      exact hs.reducedWeights
    · rw [hrebuilt]
      exact (hs.partition.toIsArranged.openGroups links).hasReducedWeights
  · rw [hvalues.vertexValues, hsame.problem]
    exact hs.feasible

theorem isCurrent_of_evolution {change : K} (hs : s.IsCurrent)
    (h : evolution.Answers s change t) : t.IsCurrent ∧ SameValues s t := by
  have hsame := sameSettings_of_evolution h
  have hsolved := isSolved_of_evolution hs.toIsSolved h
  obtain ⟨x, lastX, last, -, -, rfl⟩ := evolution_answers h
  exact ⟨hs.of_frame hsame hsolved.partition rfl rfl rfl rfl rfl, hsame.sameValues rfl rfl⟩

/-! ## Runs -/

/-- The recorded objectives never rise, and the iterate is not above any of them. -/
structure Descends (s : Solver K) : Prop where
  pairwise : s.history.objectives.Pairwise (· ≥ ·)
  value_le : ∀ b ∈ s.history.objectives, s.value ≤ b

theorem IsCurrent.isValued (hs : s.IsCurrent) (huniform : s.IsUniform)
    (hresidual : ∀ A y, s.quadratic = .direct A y → TracksResidual A y s) :
    ∃ x, s.IsValued x ∧ s.vertexValues = s.partition.expand x := by
  obtain ⟨x, hx, hsize⟩ := hs.iterate
  refine ⟨x, ⟨⟨⟨hx, hsize, huniform.fits⟩, ?_⟩, hs.partition, hs.assigns, hs.reducedWeights,
    huniform.convex.isSymmetric⟩, by rw [vertexValues, hx, Option.getD_some]⟩
  intro A y hdirect
  obtain ⟨x', hx', hr⟩ := hresidual A y hdirect
  obtain rfl := Option.some.inj (hx.symm.trans hx')
  exact hr

theorem Descends.of_objectives (hs : s.Descends) (h : t = { s with history := t.history })
    (hobjectives : t.history.objectives = s.history.objectives) : t.Descends := by
  have hvalue : t.value = s.value := by
    rw [h]
    rfl
  refine ⟨hobjectives ▸ hs.pairwise, fun b hb => ?_⟩
  rw [hvalue]
  exact hs.value_le b (hobjectives ▸ hb)

/-- Recording the objective at a current iterate goes on with the descent. -/
theorem Descends.of_recordRound {u : Unit} (hs : s.Descends) (hcurrent : s.IsCurrent)
    (huniform : s.IsUniform)
    (hresidual : ∀ A y, s.quadratic = .direct A y → TracksResidual A y s)
    (h : (recordRound (steps solve) r).Answers s u t) : t.Descends := by
  have hvalue : t.value = s.value := by
    rw [recordRound_answers objective_answers h]
    rfl
  rcases objectives_of_recordRound h with hsame | ⟨b, hb, hadded⟩
  · exact hs.of_objectives (recordRound_answers objective_answers h) hsame
  · obtain ⟨x, hvalued, hvalues⟩ := hcurrent.isValued huniform hresidual
    obtain rfl : b = s.value := by
      rw [Solver.value, hvalues]
      exact (Except.ok.inj (hvalued.objective?_eq_ok.symm.trans hb)).symm
    refine ⟨?_, ?_⟩
    · rw [hadded, List.pairwise_append]
      refine ⟨hs.pairwise, List.pairwise_singleton _ _, fun a ha c hc => ?_⟩
      obtain rfl := List.mem_singleton.mp hc
      exact hs.value_le a ha
    · rw [hadded, hvalue]
      intro c hc
      rcases List.mem_append.mp hc with hin | hlast
      · exact hs.value_le c hin
      · exact (List.mem_singleton.mp hlast).symm.le

section Run

variable (hs : s.partition.IsArranged) (huniform : s.IsUniform)
  (hexact : ∀ t, SolvesAt (steps solve) r s t → SolvesExactly solve t)

include hs huniform

/-- The residual of a direct term is tracked wherever an objective is recorded. -/
theorem RecordsAt.tracksResidual (h : RecordsAt (steps solve) r s t)
    (hquadratic : t.quadratic = s.quadratic) :
    ∀ A y, t.quadratic = .direct A y → TracksResidual A y t := by
  intro A y hdirect
  exact (h.isTracking hs ⟨hquadratic ▸ hdirect, huniform.fits⟩).residual

/-- Recording the objective where a run does goes on with the descent. -/
theorem RecordsAt.descends {u : Unit} {v : Solver K} (h : RecordsAt (steps solve) r s t)
    (hsame : SameSettings s t) (hcurrent : t.IsCurrent) (hdescends : t.Descends)
    (hrecorded : (recordRound (steps solve) r).Answers t u v) : v.IsCurrent ∧ v.Descends :=
  ⟨hcurrent.of_history (recordRound_answers objective_answers hrecorded),
    hdescends.of_recordRound hcurrent (huniform.of_sameSettings hsame)
      (h.tracksResidual hs huniform hsame.quadratic) hrecorded⟩

include hexact

/-- No round raises the objective: the split leaves the former iterate among the points over which
the method minimises. -/
theorem descends_of_round {left done activated number : Nat} {e : Option K} {change : K}
    {t s₁ s₂ u : Solver K} (hhead : LoopHead (steps solve) r s (left + 1) done e t)
    (hopen : (t.monitorsEvolution && hasSettled t.tolerance e) = false)
    (hkept : keepIterate.Answers t () s₁) (hsplit : split.Answers s₁ activated s₂)
    (hsome : activated ≠ 0)
    (hfinished : (finishRound (steps solve) r number activated).Answers s₂ change u)
    (hcurrent : t.IsCurrent) (hdescends : t.Descends) : u.IsCurrent ∧ u.Descends := by
  obtain ⟨v, merged, w, q, q', hsolved, hmerged, hevolution, hrecorded, heq, hobjectives⟩ :=
    objectives_of_finishRound hfinished
  have hsplits : SplitsTo (steps solve) r s s₂ := .intro hhead hopen hkept hsplit hsome
  have hdivided : SameSettings t { s₂ with partition := s₂.partition.rebuild.reduceGraph } :=
    ((sameSettings_of_keepIterate hkept).trans (sameSettings_of_split hsplit)).trans
      (by constructor <;> rfl)
  have huniform₂ := huniform.of_sameSettings (hhead.sameSettings.trans hdivided)
  have harranged : s₂.partition.IsArranged := isArranged_of_split
    (isSolved_of_keepIterate hcurrent.toIsSolved hkept).partition.toIsArranged hsplit
  obtain ⟨hv, hle⟩ := isCurrent_of_reducedSolution
    (s := { s₂ with partition := s₂.partition.rebuild.reduceGraph }) harranged.isCoherent_rebuild
    (assignsVertices_rebuild s₂) harranged.hasReducedWeights huniform₂ (hexact _ (.round hsplits))
    hsolved
  have hdrop : v.value ≤ t.value := by
    obtain ⟨z, hz, hvalues⟩ := exists_kept_values hcurrent hkept hsplit
    have hformer : t.value = t.problem.objective
        (s₂.partition.rebuild.reduceGraph.expand z) := by rw [Solver.value, hvalues]
    rw [hformer, ← hdivided.problem]
    refine hle z hz ?_
    rw [hdivided.problem]
    exact hvalues ▸ hcurrent.feasible
  have hsolvedSame := sameSettings_of_reducedSolution hsolved
  obtain ⟨hw, hmergedSame⟩ := isCurrent_of_merge hv
    (huniform₂.of_sameSettings hsolvedSame).exactMerge hmerged
  obtain ⟨hq, hcomparedSame⟩ := isCurrent_of_evolution hw hevolution
  have hsettings : SameSettings s q :=
    (((hhead.sameSettings.trans hdivided).trans hsolvedSame).trans
      hmergedSame.toSameSettings).trans hcomparedSame.toSameSettings
  have hhistory := history_of_round hkept hsplit hsolved hmerged hevolution
  have hcontinued : q.Descends := by
    refine ⟨hhistory ▸ hdescends.pairwise, fun b hb => ?_⟩
    calc q.value = v.value := hcomparedSame.value.trans hmergedSame.value
      _ ≤ t.value := hdrop
      _ ≤ b := hdescends.value_le b (hhistory ▸ hb)
  have hrecords : RecordsAt (steps solve) r s q :=
    .round (.intro hsplits hsolved hmerged) hevolution
  obtain ⟨hlast, hlastDescends⟩ :=
    hrecords.descends hs huniform hsettings hq hcontinued hrecorded
  exact ⟨hlast.of_history heq, hlastDescends.of_objectives heq hobjectives⟩

theorem LoopHead.descends {left done : Nat} {e : Option K}
    (h : LoopHead (steps solve) r s left done e t) : t.IsCurrent ∧ t.Descends := by
  induction h with
  | first hstarted hrecorded =>
      have hbegun : SameSettings s { s with history := .empty } := by constructor <;> rfl
      have hsame := hbegun.trans (sameSettings_of_start hstarted)
      have hone := isCurrent_of_start (s := { s with history := .empty }) hs
        (huniform.of_sameSettings hbegun) (fun hmany => hexact _ (.start hmany)) hstarted
      have hempty := history_of_start hstarted
      refine (RecordsAt.start hstarted).descends hs huniform hsame hone ⟨?_, ?_⟩ hrecorded
      · rw [hempty]
        exact List.Pairwise.nil
      · rw [hempty]
        exact fun b hb => absurd hb List.not_mem_nil
  | next hhead hopen hkept hsplit hsome hfinished ih =>
      exact descends_of_round hs huniform hexact hhead hopen hkept hsplit hsome hfinished ih.1 ih.2

/-- With exact solutions over the regions, targets and bounds that are the same for all vertices and
equality as the only closeness, the recorded objectives of a run never rise. -/
theorem objectives_pairwise_of_run {n : Nat} (h : (run (steps solve) true r).Answers s n t) :
    t.history.objectives.Pairwise (· ≥ ·) := by
  obtain ⟨s₁, s₂, hstarted, hrecorded, hrounds⟩ := run_answers h
  obtain ⟨left, e, t', hhead, hsame⟩ :=
    exists_objectives_of_rounds (.first hstarted hrecorded) hrounds
  rw [hsame]
  exact (hhead.descends hs huniform hexact).2.pairwise

end Run

/-! ## A pair that comes apart -/

/-- The values that two vertices observed at zero and ten have once an edge between them is cut. -/
def apartMethod : InnerMethod ℚ := fun _ _ _ _ => .ok (#[1, 9], 0)

/-- Two vertices that are observed far from each other, and a single round. -/
def apartPair : Solver ℚ :=
  { ofPartition (.whole ⟨#[0, 1, 1], #[0], #[1]⟩ ⟨none, 1⟩) with
    quadratic := .identity 2 1 (some #[0, 10])
    maxRounds := 1 }

/-- What the split of a run of the pair answers, and the solver that it leaves. -/
def apartSplit : Except (Failure ℚ) Nat × Solver ℚ :=
  split.run (keepIterate.run ((recordRound (steps apartMethod) ⟨true, false⟩).run
    ((start (steps apartMethod)).run { apartPair with history := .empty }).2).2).2

/-- The solver once the regions are rebuilt. -/
def apartRebuilt : Solver ℚ :=
  { apartSplit.2 with partition := apartSplit.2.partition.rebuild.reduceGraph }

theorem eq_apartRebuilt_of_solvesAt {t : Solver ℚ}
    (h : SolvesAt (steps apartMethod) ⟨true, false⟩ apartPair t) : t = apartRebuilt := by
  cases h with
  | start hmany => exact absurd (by decide +kernel) hmany
  | round hsplits =>
      obtain @⟨left, done, activated, e, u, s₁, _, hhead, -, hkept, hsplit, -⟩ := hsplits
      obtain rfl : done = 0 := by
        have hrounds : left + 1 + done = 1 := hhead.left_add_done
        omega
      obtain ⟨s₁, hstarted, hrecorded⟩ := hhead.begun
      obtain rfl := eq_of_answers hstarted
      obtain rfl := eq_of_answers hrecorded
      obtain rfl := eq_of_answers hkept
      obtain rfl := eq_of_answers hsplit
      rfl

theorem apartRebuilt_eq :
    apartRebuilt.partition.regionCount = 2 ∧
      apartRebuilt.partition.reducedEdges = #[(0, 1)] ∧
      apartRebuilt.partition.reducedWeights = #[1] ∧
      (Vec.tabulate apartRebuilt.partition.regionCount fun r =>
        (1 : ℚ) * Nat.cast (apartRebuilt.partition.sizeOf r)) = #[1, 1] ∧
      apartRebuilt.partition.regionSums #[0, 10] = (#[0, 10] : Vec ℚ) := by
  decide +kernel

/-- Over the two regions there is nothing but the observation and one edge. -/
theorem objective_handedProblem_apartRebuilt (premultiply : Bool) (z : Vec ℚ)
    (hsame : SameSettings apartPair apartRebuilt) :
    (apartRebuilt.handedProblem premultiply).objective z =
      (Vec.entry z 0 * Vec.entry z 0 + Vec.entry z 1 * Vec.entry z 1) / 2 - 10 * Vec.entry z 1 +
        |Vec.entry z 0 - Vec.entry z 1| := by
  obtain ⟨hcount, hedges, hweights, hscale, hsums⟩ := apartRebuilt_eq
  obtain ⟨-, -, hsortedEdges, hsortedWeights, -⟩ := apartRebuilt.sorted_frame
  have hquadratic : (apartRebuilt.handedProblem premultiply).quadratic =
      .diagonal #[1, 1] (some #[0, 10]) := by
    change (apartRebuilt.quadratic.reduce apartRebuilt.partition premultiply).1 = _
    rw [hsame.quadratic, ← hscale, ← hsums]
    rfl
  have hpEdges : (apartRebuilt.handedProblem premultiply).edges = #[(0, 1)] :=
    hsortedEdges.trans hedges
  have hpWeights : (apartRebuilt.handedProblem premultiply).edgeWeights = #[1] :=
    hsortedWeights.trans hweights
  have hpTargets : (apartRebuilt.handedProblem premultiply).targetWeights = none := by
    change apartRebuilt.regionWeights? = none
    rw [regionWeights?, hsame.targetWeights]
    rfl
  simp only [Problem.objective, Problem.variation, Problem.targetDistance, Problem.edgeFrom,
    Problem.edgeTo, hquadratic, hpEdges, hpWeights, hpTargets, Quadratic.valueAt,
    Quadratic.diagonalValue, Quadratic.linearPart, Vec.dot, Vec.total_eq, Scalar.half_eq,
    Scalar.abs_eq]
  simp [Finset.sum_range_succ, Vec.entry]

/-- The values that the method answers minimise the problem over the two regions. -/
theorem solvesExactly_of_solvesAt_apartPair {t : Solver ℚ}
    (h : SolvesAt (steps apartMethod) ⟨true, false⟩ apartPair t) :
    SolvesExactly apartMethod t := by
  have hsame := h.sameSettings
  obtain rfl := eq_apartRebuilt_of_solvesAt h
  intro premultiply init x iterations _ _ hx
  obtain ⟨rfl, -⟩ := Prod.mk.inj (Except.ok.inj hx)
  have hsize : (apartRebuilt.handedProblem premultiply).size = 2 :=
    (size_reduce _ _ premultiply).trans apartRebuilt_eq.1
  have hsorted := hsame.trans apartRebuilt.sameSettings_sorted
  refine ⟨hsize.symm, Problem.isFeasible_iff.mpr fun v _ => ⟨?_, ?_⟩, fun z _ _ => ?_⟩
  · have hnone : (apartRebuilt.handedProblem premultiply).lowerAt v = none := by
      change apartRebuilt.sorted.regionLower.getD v none = none
      rw [regionLower, hsorted.lower]
      simp [apartPair, ofPartition, Array.getD]
    simp [hnone]
  · have hnone : (apartRebuilt.handedProblem premultiply).upperAt v = none := by
      change apartRebuilt.sorted.regionUpper.getD v none = none
      rw [regionUpper, hsorted.upper]
      simp [apartPair, ofPartition, Array.getD]
    simp [hnone]
  · rw [objective_handedProblem_apartRebuilt premultiply _ hsame,
      objective_handedProblem_apartRebuilt premultiply z hsame]
    have hentries : Vec.entry (#[1, 9] : Vec ℚ) 0 = 1 ∧ Vec.entry (#[1, 9] : Vec ℚ) 1 = 9 :=
      ⟨rfl, rfl⟩
    have hfirst := mul_self_nonneg (Vec.entry z 0 - 1)
    have hsecond := mul_self_nonneg (Vec.entry z 1 - 9)
    have hdrop := neg_abs_le (Vec.entry z 0 - Vec.entry z 1)
    rw [hentries.1, hentries.2]
    norm_num
    linarith

theorem objectives_pairwise_of_run_apartPair :
    apartPair.partition.IsArranged ∧ apartPair.IsUniform ∧
      (∀ t, SolvesAt (steps apartMethod) ⟨true, false⟩ apartPair t → SolvesExactly apartMethod t) ∧
      ∃ t, (run (steps apartMethod) true ⟨true, false⟩).Answers apartPair 1 t ∧
        t.history.objectives = [-25, -41] ∧ t.history.objectives.Pairwise (· ≥ ·) := by
  have hpair : Partition.ofIndex? #[0, 1, 1] #[1] none (1 : ℚ) =
      .ok (.whole ⟨#[0, 1, 1], #[0], #[1]⟩ ⟨none, 1⟩) := by with_unfolding_all rfl
  have harranged : apartPair.partition.IsArranged := isArranged_of_ofIndex? hpair
  have huniform : apartPair.IsUniform := {
    fits := ⟨rfl, by rintro l ⟨⟩; rfl⟩
    convex := by
      change (0 : ℚ) ≤ 1
      exact zero_le_one
    targetWeight_nonneg := fun _ => le_rfl
    targets_eq := by rintro targets ⟨⟩
    lower_each := rfl
    upper_each := rfl
    uncrossed := by rintro l u ⟨⟩
    exactMerge := rfl }
  have hexact : ∀ t, SolvesAt (steps apartMethod) ⟨true, false⟩ apartPair t →
      SolvesExactly apartMethod t := fun t => solvesExactly_of_solvesAt_apartPair
  have hrun : (run (steps apartMethod) true ⟨true, false⟩).Answers apartPair 1 _ :=
    answers_of_toOption (by decide +kernel)
  exact ⟨harranged, huniform, hexact, _, hrun, by decide +kernel,
    objectives_pairwise_of_run harranged huniform hexact hrun⟩

end Solver
end TotalVariation
