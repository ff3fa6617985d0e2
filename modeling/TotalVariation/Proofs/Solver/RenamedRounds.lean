import Mathlib
import TotalVariation.Proofs.Solver.RenamedSplit

/-! # Rounds under another description

The rest of a round after a split, the rebuilding of the regions, the merger, the comparison with
the kept iterate and the record, does the same to two descriptions of one problem that are in step.
So their runs make the same rounds and records, and end in step.
-/

namespace TotalVariation.Solver

open Step TotalVariation.Partition

variable {K : Type} [ExactField K] {π σ : Equiv.Perm ℕ} {flip : ℕ → Bool} {s s' t t' : Solver K}
  {x x' : Vec K} {r : Recording}

/-! ## The rebuilding after a split -/

/-- Boundaries were marked in a partition whose regions were indexed. -/
structure IsCut (P : Partition K) : Prop where
  arranged : P.IsArranged
  indexed : P.IsIndexed
  finer : P.rebuild.IsFiner P

theorem CutAlike.aligned_rebuilt (h : CutAlike π σ flip t t') (ht : IsCut t.partition)
    (ht' : IsCut t'.partition) : Aligned π σ flip t.rebuilt t'.rebuilt where
  relabels := h.relabels.of_sameSettings t.sameSettings_rebuilt t'.sameSettings_rebuilt
  regions := h.relabels.graph.matches_rebuild ht.arranged ht'.arranged ht.indexed ht'.indexed
    ht.finer ht'.finer h.isActive_eq h.regions
  kept := h.kept
  innerIterations := h.innerIterations
  history := h.history

/-- The regions after a split of a merged solver lie in those before it, whose values are kept. -/
theorem isWarm_rebuilt {n : ℕ} {u : Unit} {s₁ : Solver K} (hs : s.IsMerged x)
    (hkept : keepIterate.Answers s u s₁) (hsplit : split.Answers s₁ n t) :
    IsCut t.partition ∧ t.rebuilt.IsWarm := by
  have hmerged := hs.of_keepIterate hkept
  have hconsistent := hmerged.partition.toIsConsistent
  have hfiner := isFiner_of_split hconsistent hsplit
  have harranged := isArranged_of_split hconsistent.toIsArranged hsplit
  obtain ⟨cuts, slope, rfl, -, -⟩ := split_marks hsplit
  obtain ⟨hgraph, -, -, hassignment⟩ := markRegions_frame s₁.partition cuts
  refine ⟨⟨harranged, ?_, ?_⟩, ?_⟩
  · rw [markRegions_eq]
    exact hconsistent.mem_region
  · intro u hu v hv huv
    rw [regionOf, regionOf, hassignment]
    exact hfiner u hu v hv huv
  · obtain ⟨y, hy, rfl⟩ := keepIterate_answers hkept
    obtain rfl := Option.some.inj (hs.iterate.symm.trans hy)
    have hvertices : vertexCount (rebuilt { s with
        lastX := some x
        partition := markRegions s.partition.saveAssignment cuts }) = s.partition.vertexCount :=
      congrArg ForwardStar.vertices hgraph
    refine ⟨rfl, s.partition.assignment, ?_, ?_, ?_⟩
    · change (markRegions s.partition.saveAssignment cuts).lastAssignment = _
      rw [markRegions_eq]
      rfl
    · rw [hvertices]
      intro v hv
      change s.partition.regionOf v < x.size
      rw [hs.iterate_size]
      exact hs.partition.toIsConsistent.regionOf_lt hv
    · exact hfiner

/-! ## Mergers -/

section Merge

variable (hs : s.IsSolved) (hassigns : s.AssignsVertices) (hfits : s.quadratic.Fits s.vertexCount)

include hs hassigns hfits

theorem exists_renewResidual_answers : ∃ t, renewResidual.Answers s () t := by
  obtain ⟨x, hx, hsize⟩ := hs.iterate
  unfold renewResidual
  simp only [answers_get_bind]
  split
  next hdirect =>
    have hexpand := expand?_eq_ok hsize (hs.partition.assignment_lt hassigns)
    obtain ⟨residual, hresidual⟩ : ∃ residual,
        s.quadratic.residual? (s.partition.expand x) = .ok residual := by
      cases hq : s.quadratic with
      | direct A y =>
          rw [hq] at hfits
          have hcols : (s.partition.expand x).size = A.cols :=
            (s.partition.size_expand x).trans hfits.1.symm
          exact ⟨_, if_pos hcols⟩
      | _ =>
          rw [hq] at hdirect
          cases hdirect
    exact ⟨_, answers_lift_bind.mpr ⟨x, require_eq_ok.mpr hx, answers_lift_bind.mpr
      ⟨_, hexpand, answers_lift_bind.mpr ⟨residual, hresidual, answers_modify.mpr rfl⟩⟩⟩⟩
  next => exact ⟨s, answers_pure.mpr ⟨rfl, rfl⟩⟩

/-- Where each region has a value a merger answers. -/
theorem exists_merge_answers : ∃ m t, (merge standardSteps).Answers s m t := by
  obtain ⟨x, hx, hsize⟩ := hs.iterate
  have hassignment := hs.partition.assignment_lt hassigns
  obtain ⟨y, m, hok⟩ := hs.partition.exists_merge? hassignment hsize s.mergeTolerance
  obtain ⟨hcoherent, hcount⟩ := hs.partition.merge? hsize hok
  obtain ⟨hgraph, -, -⟩ := merge?_frame hok
  set merged : Solver K :=
    { s with partition := (s.partition.merge? x s.mergeTolerance).1, x := some y }
  have hassigns' : merged.AssignsVertices := by
    rw [AssignsVertices, vertexCount, Partition.vertexCount]
    change (s.partition.merge? x s.mergeTolerance).1.assignment.size =
      (s.partition.merge? x s.mergeTolerance).1.graph.vertices
    rw [hgraph]
    rcases merge?_eq_ok hok with ⟨-, hsame, -⟩ | ⟨-, hrebuilt, -⟩
    · rw [hsame]
      exact hassigns
    · rw [hrebuilt]
      exact Vec.size_tabulate _ _
  have hfits' : merged.quadratic.Fits merged.vertexCount := by
    have hvertices : merged.vertexCount = s.vertexCount := merge?_vertexCount hok
    rw [hvertices]
    exact hfits
  obtain ⟨u, hu⟩ := exists_renewResidual_answers (s := merged) ⟨hcoherent, y, rfl, hcount⟩ hassigns'
    hfits'
  obtain ⟨v, hv⟩ : ∃ v,
      Answers (if m ≠ 0 then renewResidual >>= fun _ => pure m else pure m) merged m v := by
    split
    next => exact ⟨u, answers_bind.mpr ⟨(), u, hu, answers_pure.mpr ⟨rfl, rfl⟩⟩⟩
    next => exact ⟨merged, answers_pure.mpr ⟨rfl, rfl⟩⟩
  refine ⟨m, v, ?_⟩
  unfold merge
  simp only [answers_get_bind, hx, answers_modify_bind, answers_lift_bind]
  exact ⟨(y, m), hok, hv⟩

end Merge

/-- Two descriptions in step are merged alike. -/
theorem InStep.merge_alike (h : InStep π σ flip t t') (ht : t.IsSolved) (ht' : t'.IsSolved)
    (hassigns : t.AssignsVertices) (hassigns' : t'.AssignsVertices) :
    Alike (· = ·) (InStep π σ flip) (merge standardSteps) t (merge standardSteps) t' := by
  have hfits : t.quadratic.Fits t.vertexCount := h.relabels.quadratic.fits
  have hfits' : t'.quadratic.Fits t'.vertexCount :=
    h.relabels.vertexCount_eq.symm ▸ h.relabels.quadratic.fits'
  obtain ⟨m, u, hmerged⟩ := exists_merge_answers ht hassigns hfits
  obtain ⟨m', u', hmerged'⟩ := exists_merge_answers ht' hassigns' hfits'
  obtain ⟨x, hx, hsize⟩ := ht.iterate
  obtain ⟨x', hx', hsize'⟩ := ht'.iterate
  obtain ⟨y, hok, hstored⟩ := stored_of_merge hx hmerged
  obtain ⟨y', hok', hstored'⟩ := stored_of_merge hx' hmerged'
  rw [h.relabels.mergeTolerance] at hok' hstored'
  have hvalues : ∀ v < t.vertexCount, Vec.entry x' (t'.partition.regionOf (π v)) =
      Vec.entry x (t.partition.regionOf v) := fun v hv => by
    rw [← valueAt_eq hx, ← valueAt_eq hx', h.values v hv]
  have hmatches := h.relabels.graph.matches_merge? ht.partition ht'.partition hsize hsize' hvalues
    hok hok' h.regions
  have hentry := fun v hv => h.relabels.graph.merge?_entry_renames ht.partition ht'.partition hsize
    hsize' hvalues hok hok' h.regions.divides hmatches.divides (v := v) hv
  have hsame := sameSettings_of_merge hmerged
  have hsame' := sameSettings_of_merge hmerged'
  have hrelabels := h.relabels.of_sameSettings hsame hsame'
  obtain ⟨-, -, hlast⟩ := merge?_frame hok
  obtain ⟨-, -, hlast'⟩ := merge?_frame hok'
  have hcoherent := (ht.partition.merge? hsize hok).1
  have hcoherent' := (ht'.partition.merge? hsize' hok').1
  rw [hstored, hstored'] at hrelabels
  have hcount : (t'.partition.merge? x' t.mergeTolerance).1.regionCount =
      (t.partition.merge? x t.mergeTolerance).1.regionCount := by
    obtain ⟨ρ, hregions⟩ := exists_renamesRegions hcoherent.toIsConsistent
      hcoherent'.toIsConsistent hrelabels.vertexCount_eq hrelabels.vertices hmatches.divides
    exact hregions.regionCount_eq
  refine .answers hmerged hmerged' ?_ ?_
  · obtain ⟨ρ, hregions⟩ := h.exists_renamesRegions ht.partition.toIsConsistent
      ht'.partition.toIsConsistent
    rw [merge?_merged_eq hok, merge?_merged_eq hok', hcount, hregions.regionCount_eq]
  · have hkept : ∀ v, u.keptAt v = t.keptAt v := keptAt_congr (by rw [hstored])
      ((congrArg (·.partition.lastAssignment) hstored).trans hlast)
    have hkept' : ∀ v, u'.keptAt v = t'.keptAt v := keptAt_congr (by rw [hstored'])
      ((congrArg (·.partition.lastAssignment) hstored').trans hlast')
    rw [hstored] at hkept ⊢
    rw [hstored'] at hkept' ⊢
    have hvertices {v : ℕ} (hv : v < (t.partition.merge? x t.mergeTolerance).1.vertexCount) :
        v < t.vertexCount := Nat.lt_of_lt_of_eq hv (merge?_vertexCount hok)
    refine ⟨⟨hrelabels, hmatches, fun v hv => ?_, h.innerIterations, h.history⟩, fun v hv => ?_⟩
    · rw [hkept, hkept', h.kept v (hvertices hv)]
    · refine (valueAt_eq rfl _).trans (Eq.trans ?_ (valueAt_eq rfl _).symm)
      exact hentry v (hvertices hv)

/-! ## Comparisons -/

theorem IsComparable.entry_keptValues_eq {lastX : Vec K} {assignment : Array ℕ}
    (h : s.IsComparable x lastX assignment) {v : ℕ} (hv : v < s.vertexCount) :
    Vec.entry (s.keptValues lastX assignment) v = s.keptAt v := by
  rw [entry_keptValues s _ _ hv, keptAt, h.kept, h.keptAssignment]
  rfl

/-- Two descriptions in step have moved as far, and the same regions have moved. -/
theorem InStep.evolution_alike {lastX lastX' : Vec K} {assignment assignment' : Array ℕ}
    (h : InStep π σ flip t t') (ht : t.IsComparable x lastX assignment)
    (ht' : t'.IsComparable x' lastX' assignment') :
    Alike (· = ·) (InStep π σ flip) evolution t evolution t' := by
  have hexpand : Renames π (t.partition.expand x) (t'.partition.expand x') :=
    Solver.expand_renames h.relabels.vertices h.relabels.vertexCount_eq h.values ht.iterate ht'.iterate
  have hkept : ∀ v < t.vertexCount, Vec.entry (t'.keptValues lastX' assignment') (π v) =
      Vec.entry (t.keptValues lastX assignment) v := fun v hv => by
    rw [ht.entry_keptValues_eq hv, ht'.entry_keptValues_eq (h.relabels.vertex_lt hv), h.kept v hv]
  have hchange : Renames π (t.valueChange x lastX assignment)
      (t'.valueChange x' lastX' assignment') := by
    rw [valueChange, valueChange, h.relabels.vertexCount_eq]
    refine .tabulate h.relabels.vertices fun v hv => ?_
    rw [hexpand.entry_eq, hkept v hv]
  refine .answers ht.evolution_answers ht'.evolution_answers ?_ (h.of_marks fun v hv => ?_)
  · rw [hexpand.norm_eq, hchange.norm_eq]
  · have hvalue := h.values v hv
    rw [valueAt_eq ht.iterate, valueAt_eq ht'.iterate] at hvalue
    rw [Bool.eq_iff_iff, ht.getD_marks_eq_true_iff hv,
      ht'.getD_marks_eq_true_iff (h.relabels.vertex_lt hv), h.regions.isSaturated_eq v hv, hvalue,
      hkept v hv, h.relabels.tolerance]

/-! ## Records -/

/-- The objective does not depend on the names of vertices and edges, nor on the direction in which
edges are stored. -/
theorem Relabels.objective_eq (h : Relabels π σ flip t t') {y y' : Vec K} (hy : Renames π y y')
    (hsize : y.size = t.vertexCount) :
    t'.problem.objective y' = t.problem.objective y := by
  have hcount : t.problem.size = t.vertexCount := h.quadratic.fits.size_eq
  have hcount' : t'.problem.size = t.vertexCount := h.quadratic.fits'.size_eq
  rw [Problem.objective_eq _ (hsize.trans hcount.symm),
    Problem.objective_eq _ ((hy.size_eq.trans hsize).trans hcount'.symm), size_edges_problem,
    size_edges_problem, hcount, hcount', h.graph.edgeCount_eq]
  refine congrArg₂ (· + ·) (congrArg₂ (· + ·) ?_ ?_) ?_
  · exact h.quadratic.valueAt_eq h.vertices hy hsize
  · refine h.graph.edges.sum_range fun e he => ?_
    have he' := (h.graph.edge_lt_iff e).mpr he
    obtain ⟨hfrom, hto⟩ := edges_problem he
    obtain ⟨hfrom', hto'⟩ := edges_problem he'
    rw [edgeWeights_problem he, edgeWeights_problem he', hfrom, hto, hfrom', hto', h.graph.weight e he]
    rcases h.graph.ends_eq he with ⟨htail, hhead⟩ | ⟨htail, hhead⟩
    · rw [htail, hhead, hy.entry_eq, hy.entry_eq]
    · rw [htail, hhead, hy.entry_eq, hy.entry_eq, abs_sub_comm]
  · refine h.vertices.sum_range fun v hv => ?_
    rw [penalty_problem hv, penalty_problem (h.vertex_lt hv), targets_problem hv,
      targets_problem (h.vertex_lt hv), h.penalty_eq, h.target_eq, hy.entry_eq]

theorem InStep.objective?_eq (h : InStep π σ flip t t') (ht : t.IsValued x) (ht' : t'.IsValued x') :
    t'.objective? = t.objective? := by
  have hexpand : Renames π (t.partition.expand x) (t'.partition.expand x') :=
    Solver.expand_renames h.relabels.vertices h.relabels.vertexCount_eq h.values ht.iterate ht'.iterate
  rw [ht.objective?_eq_ok, ht'.objective?_eq_ok,
    h.relabels.objective_eq hexpand (t.partition.size_expand x)]

/-! ## Runs -/

/-- Two descriptions in step at a head of the loop. -/
structure AtHead (π σ : Equiv.Perm ℕ) (flip : ℕ → Bool) (t t' : Solver K) : Prop
    extends InStep π σ flip t t' where
  coherent : t.partition.IsCoherent
  coherent' : t'.partition.IsCoherent

namespace AtHead

theorem record (f : History K → History K) (h : AtHead π σ flip t t') : AtHead π σ flip
    { t with history := f t.history } { t' with history := f t'.history } where
  relabels := h.relabels.of_sameSettings (by constructor <;> rfl) (by constructor <;> rfl)
  regions := h.regions
  kept := h.kept
  innerIterations := h.innerIterations
  history := congrArg f h.history
  values := h.values
  coherent := h.coherent
  coherent' := h.coherent'

/-- What is reported of a round is the same. -/
theorem counts_eq (h : AtHead π σ flip t t') :
    t'.partition.regionCount = t.partition.regionCount ∧
      t'.partition.reducedEdgeCount = t.partition.reducedEdgeCount := by
  obtain ⟨ρ, hregions⟩ := h.exists_renamesRegions h.coherent.toIsConsistent
    h.coherent'.toIsConsistent
  exact ⟨hregions.regionCount_eq,
    reducedEdges_size_eq h.relabels.graph hregions h.coherent h.coherent'⟩

end AtHead

/-- The regions after a split in a run were marked in regions whose values are kept. -/
theorem SplitsTo.isWarm_rebuilt (hs : s.IsPosed) (h : SplitsTo standardSteps r s t) :
    IsCut t.partition ∧ t.rebuilt.IsWarm := by
  obtain ⟨hhead, -, hkept, hsplit, -⟩ := h
  obtain ⟨x, hx⟩ := hhead.exists_isMerged hs
  exact Solver.isWarm_rebuilt hx hkept hsplit

theorem SplitsTo.isPrepared_rebuilt (hs : s.IsPosed) (h : SplitsTo standardSteps r s t) :
    t.rebuilt.IsPrepared where
  toKeepsOrder := (SolvesAt.round h).keepsOrder (sortsTotally_of_exactField K) hs.arranged
  reducedWeights := (h.isArranged hs.arranged hs.isEvaluable.answersInSize).hasReducedWeights
  nonneg := hs.nonneg.of_sameSettings (h.sameSettings.trans t.sameSettings_rebuilt)

/-- Two descriptions of one problem make the same run. -/
theorem Relabels.lockstep (h : Relabels π σ flip s s') (hs : s.IsPosed) (hs' : s'.IsPosed)
    (hiterations : s'.innerIterations = s.innerIterations) (r : Recording) :
    Lockstep standardSteps r s s' (AtHead π σ flip) (CutAlike π σ flip) where
  start := by
    have hbegun : Relabels π σ flip { s with history := .empty } { s' with history := .empty } :=
      h.of_sameSettings (by constructor <;> rfl) (by constructor <;> rfl)
    refine .bind (hbegun.start_alike hs.arranged hs'.arranged (hs.nonneg.of_sameSettings
      (by constructor <;> rfl)) (hs'.nonneg.of_sameSettings (by constructor <;> rfl)) hs.backend
      hiterations rfl) ?_
    rintro _ _ t t' hstarted hstarted' - hrelated
    obtain ⟨x, hx⟩ := (RecordsAt.start (r := r) hstarted).exists_isMerged hs
    obtain ⟨x', hx'⟩ := (RecordsAt.start (r := r) hstarted').exists_isMerged hs'
    have hhead : AtHead π σ flip t t' := ⟨hrelated, hx.partition, hx'.partition⟩
    exact (recordRound_alike AtHead.record (objective_alike_of_eq
      (hrelated.objective?_eq hx.toIsValued hx'.toIsValued) hhead) hhead).imp
      (fun _ _ _ => trivial) fun _ _ hrecorded => hrecorded
  split := by
    intro left done e t t' hhead hhead' hrelated _
    obtain ⟨x, hx⟩ := hhead.exists_isMerged hs
    obtain ⟨x', hx'⟩ := hhead'.exists_isMerged hs'
    refine .bind (hrelated.keepIterate_alike hx.iterate hx'.iterate) ?_
    rintro _ _ u u' hkept hkept' - hkeptAlike
    exact hkeptAlike.split_alike (hx.of_keepIterate hkept) (hx'.of_keepIterate hkept')
  finish := by
    intro number activated t t' hsplits hsplits' hrelated
    obtain ⟨hcut, hwarm⟩ := hsplits.isWarm_rebuilt hs
    obtain ⟨hcut', hwarm'⟩ := hsplits'.isWarm_rebuilt hs'
    have hsame := hsplits.sameSettings.trans t.sameSettings_rebuilt
    have hsame' := hsplits'.sameSettings.trans t'.sameSettings_rebuilt
    have hsolution := (hrelated.aligned_rebuilt hcut hcut').reducedSolution_alike
      (hsplits.isPrepared_rebuilt hs) (hsplits'.isPrepared_rebuilt hs') (.inr ⟨hwarm, hwarm'⟩)
      (hsame.inner ▸ hs.backend)
    have hmerge : ∀ {u u' : Solver K}, standardSteps.reducedSolution.Answers t.rebuilt () u →
        standardSteps.reducedSolution.Answers t'.rebuilt () u' → InStep π σ flip u u' →
        Alike (· = ·) (InStep π σ flip) (merge standardSteps) u (merge standardSteps) u' := by
      intro u u' hsolved hsolved' hu
      have hstored := hsplits.isStored_of_rebuilt hs.isEvaluable hsolved
      have hstored' := hsplits'.isStored_of_rebuilt hs'.isEvaluable hsolved'
      exact hu.merge_alike hstored.toIsSolved hstored'.toIsSolved hstored.assigns hstored'.assigns
    refine finishRound_alike AtHead.record hsolution hmerge ?_ ?_
    · intro m u u' v v' hsolved hsolved' hmerged hmerged' hv
      have hcompares : ComparesAt standardSteps r s v := .intro hsplits hsolved hmerged
      have hcompares' : ComparesAt standardSteps r s' v' := .intro hsplits' hsolved' hmerged'
      obtain ⟨y, last, assignment, hcomparable⟩ :=
        hcompares.exists_isComparable hs.arranged hs.isEvaluable.answersInSize
      obtain ⟨y', last', assignment', hcomparable'⟩ :=
        hcompares'.exists_isComparable hs'.arranged hs'.isEvaluable.answersInSize
      refine .bind (hv.evolution_alike hcomparable hcomparable') ?_
      rintro e _ w w' hchange hchange' rfl hw
      obtain ⟨x, hx⟩ := (RecordsAt.round hcompares hchange).exists_isMerged hs
      obtain ⟨x', hx'⟩ := (RecordsAt.round hcompares' hchange').exists_isMerged hs'
      have hhead : AtHead π σ flip w w' := ⟨hw, hx.partition, hx'.partition⟩
      refine .bind (recordRound_alike AtHead.record (objective_alike_of_eq
        (hw.objective?_eq hx.toIsValued hx'.toIsValued) hhead) hhead) ?_
      rintro _ _ z z' - - - hz
      exact .of_pure rfl hz
    · intro u u' hu
      obtain ⟨hregions, hedges⟩ := hu.counts_eq
      exact ⟨hu.relabels.verbose, hu.relabels.maxRounds, hregions, hedges⟩
  maxRounds hrelated := hrelated.relabels.maxRounds
  tolerance hrelated := hrelated.relabels.tolerance
  monitorsEvolution hrelated := hrelated.relabels.monitorsEvolution
  record := AtHead.record

end TotalVariation.Solver
