import Mathlib
import TotalVariation.Proofs.MedianOrder
import TotalVariation.Proofs.Partition.RenamedReduced
import TotalVariation.Proofs.Solver.MedianCache
import TotalVariation.Proofs.Solver.Relabelling
import TotalVariation.Proofs.Solver.Representation
import TotalVariation.Proofs.Solver.Valued
import TotalVariation.Proofs.Solver.WarmStart

/-! # Solutions over the regions under another description

The problems over corresponding regions describe one problem: sums over the regions, medians of
their targets and their tightest bounds do not depend on the order of the vertices, and the graphs
of the regions correspond. Solved from corresponding values they give corresponding values again.
-/

namespace TotalVariation

open TotalVariation.Partition TotalVariation.Bound

variable {K : Type} [ExactField K] {π σ ρ : Equiv.Perm ℕ} {flip : ℕ → Bool}

omit [ExactField K] in
/-- The tightest bound does not depend on the names of the vertices. -/
theorem Bound.IsTightest.eq_of_renames {rel : K → K → Prop} [Std.Antisymm rel] {S S' : Finset ℕ}
    {bound bound' : ℕ → Bound K} {b b' : Bound K} (hmem : ∀ v, π v ∈ S' ↔ v ∈ S)
    (hbound : ∀ v ∈ S, bound' (π v) = bound v) (h : IsTightest rel S bound b)
    (h' : IsTightest rel S' bound' b') : b' = b := by
  have hback : ∀ c', b' = some c' → ∃ c, b = some c ∧ rel c' c := by
    intro c' hc'
    obtain ⟨v', hv', heq⟩ := h'.attained c' hc'
    obtain ⟨v, rfl⟩ := π.surjective v'
    have hv := (hmem v).mp hv'
    exact h.dominates v hv c' ((hbound v hv).symm.trans heq)
  have hforth : ∀ c, b = some c → ∃ c', b' = some c' ∧ rel c c' := by
    intro c hc
    obtain ⟨v, hv, heq⟩ := h.attained c hc
    exact h'.dominates (π v) ((hmem v).mpr hv) c ((hbound v hv).trans heq)
  cases b with
  | none =>
      cases b' with
      | none => rfl
      | some c' =>
          obtain ⟨c, hc, -⟩ := hback c' rfl
          cases hc
  | some c =>
      obtain ⟨c', hc', hle⟩ := hforth c rfl
      obtain ⟨d, hd, hge⟩ := hback c' hc'
      obtain rfl := Option.some.inj hd
      rw [hc', Std.Antisymm.antisymm _ _ hge hle]

omit [ExactField K] in
/-- Nothing but the graph, the assignment of the vertices and the marks counts. -/
theorem Partition.Matches.of_frame {P P' Q Q' : Partition K} (h : Matches π P P')
    (hgraph : Q.graph = P.graph) (hassignment : Q.assignment = P.assignment)
    (hsaturated : Q.saturated = P.saturated) (hassignment' : Q'.assignment = P'.assignment)
    (hsaturated' : Q'.saturated = P'.saturated) : Matches π Q Q' := by
  have hdivides := h.divides
  have hmarks := h.isSaturated_eq
  constructor
  · simpa only [DividesAlike, Partition.vertexCount, regionOf, hgraph, hassignment, hassignment']
      using hdivides
  · simpa only [Partition.vertexCount, regionOf, isSaturated, hgraph, hassignment, hassignment',
      hsaturated, hsaturated'] using hmarks

namespace Solver

variable {s s' t t' : Solver K}

/-! ## The problem over the regions -/

section Regions

variable (h : Relabels π σ flip t t') (hregions : RenamesRegions π ρ t.partition t'.partition)

include h hregions

theorem regionWeights?_renames (hP : t.partition.IsConsistent) (hP' : t'.partition.IsConsistent) :
    Option.Rel (Renames ρ) t.regionWeights? t'.regionWeights? := by
  rw [regionWeights?, regionWeights?, h.targetWeights.common]
  have heach := h.targetWeights.each
  generalize t.targetWeights.each = w, t'.targetWeights.each = w' at heach ⊢
  cases heach with
  | none =>
      dsimp only
      split
      next => exact .none
      next =>
        refine .some (Renames.map ?_ _)
        rw [sizeVec, sizeVec, hregions.regionCount_eq]
        refine .tabulate hregions.regions fun r hr => ?_
        rw [hregions.sizeOf_eq hP hP' hr]
  | some hweights => exact .some (hregions.regionSums_renames hweights)

/-- The medians of the targets over corresponding regions are the same. -/
theorem regionMedian_renames (ht : t.KeepsOrder) (ht' : t'.KeepsOrder) (hnonneg : t.HasNonnegWeights)
    {y y' : Vec K} (hy : t.targets = some y) (hy' : t'.targets = some y') {r : ℕ}
    (hr : r < t.partition.regionCount) :
    (t'.regionMedian y' (ρ r)).1 = (t.regionMedian y r).1 := by
  have hP := ht.coherent.toIsConsistent
  have htargets : Renames π y y' := by
    have htargets := h.targets
    rw [hy, hy'] at htargets
    cases htargets with
    | some hrenames => exact hrenames
  rw [ht.regionMedian_eq hy hr, ht'.regionMedian_eq hy' (hregions.region_lt hr)]
  refine Median.select_renames (hregions.region_perm hP ht'.coherent.toIsConsistent hr)
    (fun v _ => htargets.entry_eq v) (hP.toIsArranged.region_ne_nil' hr) ?_
  have hnonneg := hnonneg.targets
  have heach := h.targetWeights.each
  generalize t.targetWeights.each = w, t'.targetWeights.each = w' at heach hnonneg ⊢
  cases heach with
  | none => exact .none
  | some hweights =>
      refine .some fun v hv => ⟨hnonneg _ rfl v ?_, hweights.entry_eq v⟩
      exact ((hP.mem_region r hr v).mp hv).1

theorem regionTargets?_renames (ht : t.KeepsOrder) (ht' : t'.KeepsOrder)
    (hnonneg : t.HasNonnegWeights) :
    Option.Rel (Renames ρ) t.regionTargets? t'.regionTargets? := by
  have hweights := regionWeights?_renames h hregions ht.coherent.toIsConsistent
    ht'.coherent.toIsConsistent
  have hmedian : ∀ (u : Solver K) (y : Vec K) {r : ℕ}, r < u.partition.regionCount →
      Vec.entry ((u.regionMedians y).map (·.1)).toArray r = (u.regionMedian y r).1 := by
    intro u y r hr
    simp [Vec.entry, regionMedians, hr]
  have htargets := h.targets
  rw [regionTargets?, regionTargets?]
  generalize t.regionWeights? = w, t'.regionWeights? = w' at hweights ⊢
  cases hy : t.targets with
  | none =>
      rw [hy] at htargets
      cases hy' : t'.targets with
      | none => cases hweights <;> exact .none
      | some y' =>
          rw [hy'] at htargets
          cases htargets
  | some y =>
      rw [hy] at htargets
      cases hy' : t'.targets with
      | none =>
          rw [hy'] at htargets
          cases htargets
      | some y' =>
          cases hweights with
          | none => exact .none
          | some =>
              refine .some (.of_entry hregions.regions (by simp [regionMedians])
                (by simp [regionMedians, hregions.regionCount_eq]) fun r hr => ?_)
              rw [hmedian t y hr, hmedian t' y' (hregions.region_lt hr)]
              exact regionMedian_renames h hregions ht ht' hnonneg hy hy' hr

omit [ExactField K] h in
/-- The tightest bounds of corresponding regions are the same. -/
theorem regionBound_renames (hP : t.partition.IsConsistent) (hP' : t'.partition.IsConsistent)
    {rel : K → K → Prop} {f : Bound K → Bound K → Bound K} [Std.Refl rel] [IsTrans K rel]
    [Std.Antisymm rel] (htightens : Tightens rel f) {b b' : Weighting (Bound K)}
    (hbounds : b.Renames π b') :
    Renames ρ
      (match b.each with
        | some values => t.partition.regionFold f fun v => values.getD v none
        | none => Array.replicate t.partition.regionCount b.common)
      (match b'.each with
        | some values => t'.partition.regionFold f fun v => values.getD v none
        | none => Array.replicate t'.partition.regionCount b'.common) := by
  have hat : ∀ r < t.partition.regionCount, _ = _ := fun r hr =>
    IsTightest.eq_of_renames (fun _ => hregions.mem_members_iff)
      (fun v _ => boundAt_renames hbounds v) (isTightest_region htightens hP hr b)
      (isTightest_region htightens hP' (hregions.region_lt hr) b')
  rw [hbounds.common] at hat ⊢
  have heach := hbounds.each
  generalize b.each = values, b'.each = values' at heach hat ⊢
  cases heach with
  | none =>
      dsimp only
      rw [hregions.regionCount_eq]
      exact .replicate hregions.regions _
  | some =>
      dsimp only [regionFold] at hat ⊢
      rw [hregions.regionCount_eq] at hat ⊢
      refine .tabulate hregions.regions fun r hr => ?_
      have hr' : ρ r < t.partition.regionCount := (hregions.regions r).mpr hr
      simpa [Vec.tabulate, hr, hr'] using hat r hr

theorem regionLower_renames (hP : t.partition.IsConsistent) (hP' : t'.partition.IsConsistent) :
    Renames ρ t.regionLower t'.regionLower :=
  regionBound_renames hregions hP hP' tightens_maxLower h.lower

theorem regionUpper_renames (hP : t.partition.IsConsistent) (hP' : t'.partition.IsConsistent) :
    Renames ρ t.regionUpper t'.regionUpper :=
  regionBound_renames hregions hP hP' tightens_minUpper h.upper

end Regions

theorem regionOf_sorted (s : Solver K) (v : ℕ) :
    s.sorted.partition.regionOf v = s.partition.regionOf v := by
  rw [sorted_eq]
  rfl

theorem regionCount_sorted (s : Solver K) :
    s.sorted.partition.regionCount = s.partition.regionCount :=
  s.sorted_frame.2.2.2.2.length_eq

theorem isConsistent_sorted (hs : s.partition.IsConsistent) : s.sorted.partition.IsConsistent := by
  obtain ⟨hassignment, hactive, -, -, hperm⟩ := s.sorted_frame
  exact hs.of_perm s.sameSettings_sorted.graph hactive hassignment hperm

theorem renamesRegions_sorted (hregions : RenamesRegions π ρ t.partition t'.partition) :
    RenamesRegions π ρ t.sorted.partition t'.sorted.partition := by
  have hvertices : ∀ u : Solver K, u.sorted.partition.vertexCount = u.partition.vertexCount :=
    fun u => congrArg ForwardStar.vertices u.sameSettings_sorted.graph
  refine ⟨?_, ?_, ?_, ?_, fun v hv => ?_⟩
  · rw [hvertices, hvertices, hregions.vertexCount_eq]
  · rw [regionCount_sorted, regionCount_sorted, hregions.regionCount_eq]
  · rw [hvertices]
    exact hregions.vertices
  · rw [regionCount_sorted]
    exact hregions.regions
  · rw [hvertices] at hv
    rw [regionOf_sorted, regionOf_sorted, hregions.regionOf_eq v hv]

/-- What a solution over the regions relies on: an order that is kept, up to date weights of the
graph of the regions, and weights that are not negative. -/
structure IsPrepared (s : Solver K) : Prop extends s.KeepsOrder where
  reducedWeights : s.partition.HasReducedWeights
  nonneg : s.HasNonnegWeights

section Prepared

variable (h : Relabels π σ flip t t') (hregions : RenamesRegions π ρ t.partition t'.partition)
  (ht : t.IsPrepared) (ht' : t'.IsPrepared)

include h hregions ht ht'

/-- The targets that the problem is given, zeros if there are none. -/
theorem handedTargets_renames (premultiply : Bool) :
    Renames ρ (t.handedProblem premultiply).targets (t'.handedProblem premultiply).targets := by
  have htargets := regionTargets?_renames h hregions ht.toKeepsOrder ht'.toKeepsOrder ht.nonneg
  have hregions' := renamesRegions_sorted hregions
  change Renames ρ (t.regionTargets?.getD (Vec.constant t.sorted.partition.regionCount 0))
    (t'.regionTargets?.getD (Vec.constant t'.sorted.partition.regionCount 0))
  generalize t.regionTargets? = m, t'.regionTargets? = m' at htargets ⊢
  cases htargets with
  | none =>
      dsimp only [Option.getD_none]
      rw [hregions'.regionCount_eq]
      exact .replicate hregions'.regions 0
  | some htargets => exact htargets

/-- The problems over corresponding regions are one problem. -/
theorem exists_handedProblem_renames (premultiply : Bool) : ∃ (τ : Equiv.Perm ℕ) (flipped : ℕ → Bool),
    Problem.Renames ρ τ flipped (t.handedProblem premultiply) (t'.handedProblem premultiply) := by
  have hP := ht.coherent.toIsConsistent
  have hP' := ht'.coherent.toIsConsistent
  have hsorted := isConsistent_sorted hP
  have hsorted' := isConsistent_sorted hP'
  have hregions' := renamesRegions_sorted hregions
  have hrelabels := h.of_sameSettings t.sameSettings_sorted t'.sameSettings_sorted
  obtain ⟨-, -, hedges, hweights, -⟩ := t.sorted_frame
  obtain ⟨-, -, hedges', hweights', -⟩ := t'.sorted_frame
  obtain ⟨τ, flipped, hτ, hreduced⟩ := exists_reducedEdges_renames h.graph hregions ht.coherent
    ht'.coherent ht.reducedWeights ht'.reducedWeights
  have hfrom : ∀ e, (t.handedProblem premultiply).edges.getD e (0, 0) =
      t.partition.reducedEdges.getD e (0, 0) := fun e => congrArg (·.getD e (0, 0)) hedges
  have hfrom' : ∀ e, (t'.handedProblem premultiply).edges.getD e (0, 0) =
      t'.partition.reducedEdges.getD e (0, 0) := fun e => congrArg (·.getD e (0, 0)) hedges'
  have hsize : (t.handedProblem premultiply).edges.size = t.partition.reducedEdges.size :=
    congrArg Array.size hedges
  exact ⟨τ, flipped, {
    quadratic := (h.quadratic.reduce hP hP' hregions premultiply).actsAs hregions.regions
    preserves_edges := hsize.symm ▸ hτ
    edges_size := by
      rw [hsize, ← reducedEdges_size_eq h.graph hregions ht.coherent ht'.coherent]
      exact congrArg Array.size hedges'
    ends_lt := by
      intro e he
      have hmem : t.partition.reducedEdges.getD e (0, 0) ∈ t.partition.reducedEdges := by
        simp [hsize ▸ he]
      have hcount : (t.handedProblem premultiply).size = t.partition.regionCount :=
        size_reduce t.quadratic t.partition premultiply
      rw [Problem.edgeFrom, Problem.edgeTo, hfrom, hcount]
      exact ht.coherent.reducedEdges_lt hmem
    ends := by
      intro e he
      rw [Problem.edgeFrom, Problem.edgeTo, Problem.edgeFrom, Problem.edgeTo, hfrom, hfrom']
      exact (hreduced e (hsize ▸ he)).1
    edgeWeights := fun e he => (congrArg (Vec.entry · (τ e)) hweights').trans
      (((hreduced e (hsize ▸ he)).2).trans (congrArg (Vec.entry · e) hweights.symm))
    targetWeights := regionWeights?_renames h hregions hP hP'
    targets := handedTargets_renames h hregions ht ht' premultiply
    lower := regionLower_renames hrelabels hregions' hsorted hsorted'
    upper := regionUpper_renames hrelabels hregions' hsorted hsorted' }⟩

end Prepared

/-! ## The former iterate -/

/-- There is a kept iterate with a value for each vertex, and the kept assignment divides no
region. -/
structure IsWarm (s : Solver K) : Prop where
  lastX_isSome : s.lastX.isSome
  keptAssignment : ∃ assignment, s.partition.lastAssignment = some assignment ∧
    (∀ v < s.vertexCount, assignment.getD v 0 < (s.lastX.getD #[]).size) ∧
    ∀ u < s.vertexCount, ∀ v < s.vertexCount, s.partition.regionOf u = s.partition.regionOf v →
      assignment.getD u 0 = assignment.getD v 0

theorem keptAt_congr (hlastX : t.lastX = s.lastX)
    (hassignment : t.partition.lastAssignment = s.partition.lastAssignment) (v : ℕ) :
    t.keptAt v = s.keptAt v := by
  rw [keptAt, keptAt, hlastX, hassignment]

theorem keptAt_eq_zero (h : s.lastX = none) (v : ℕ) : s.keptAt v = 0 := by
  rw [keptAt, h]
  rfl

namespace IsWarm

theorem sorted (h : s.IsWarm) : s.sorted.IsWarm := by
  rw [sorted_eq]
  exact ⟨h.lastX_isSome, h.keptAssignment⟩

/-- The vertices of a region had one value when the iterate was kept. -/
theorem keptAt_eq (h : s.IsWarm) {u v : ℕ} (hu : u < s.vertexCount) (hv : v < s.vertexCount)
    (huv : s.partition.regionOf u = s.partition.regionOf v) : s.keptAt u = s.keptAt v := by
  obtain ⟨assignment, hassignment, -, hfiner⟩ := h.keptAssignment
  rw [keptAt, keptAt, hassignment, Option.getD_some, hfiner u hu v hv huv]

/-- A solution over the regions starts from the values that their first vertices had. -/
theorem warmStart?_eq_ok (h : s.IsWarm) (hP : s.partition.IsConsistent) :
    s.warmStart? = .ok (some (Vec.tabulate s.partition.regionCount fun r =>
      s.keptAt (s.partition.representative r))) := by
  obtain ⟨lastX, hlastX⟩ := Option.isSome_iff_exists.mp h.lastX_isSome
  obtain ⟨assignment, hassignment, hlt, -⟩ := h.keptAssignment
  rw [hlastX, Option.getD_some] at hlt
  rw [warmStart?_eq_firstValues hP hlastX hassignment hlt]
  simp only [firstValues, keptAt, hlastX, hassignment, Option.getD_some]

end IsWarm

/-- Both solutions start without values, or from values under other names. -/
theorem exists_warmStart?_renames (hregions : RenamesRegions π ρ t.partition t'.partition)
    (hP : t.partition.IsConsistent) (hP' : t'.partition.IsConsistent)
    (hkept : ∀ v < t.vertexCount, t'.keptAt (π v) = t.keptAt v)
    (hwarm : (t.lastX = none ∧ t'.lastX = none) ∨ (t.IsWarm ∧ t'.IsWarm)) :
    ∃ init init', t.warmStart? = .ok init ∧ t'.warmStart? = .ok init' ∧
      Option.Rel (Renames ρ) init init' := by
  rcases hwarm with ⟨hcold, hcold'⟩ | ⟨hwarm, hwarm'⟩
  · refine ⟨none, none, ?_, ?_, .none⟩
    · rw [warmStart?, hcold]
      rfl
    · rw [warmStart?, hcold']
      rfl
  · refine ⟨_, _, hwarm.warmStart?_eq_ok hP, hwarm'.warmStart?_eq_ok hP', .some ?_⟩
    rw [hregions.regionCount_eq]
    refine .tabulate hregions.regions fun r hr => ?_
    obtain ⟨hlt, hregion⟩ := hP.regionOf_representative hr
    obtain ⟨hlt', hregion'⟩ := hP'.regionOf_representative (hregions.region_lt hr)
    have hrenamed : π (t.partition.representative r) < t'.partition.vertexCount :=
      hregions.vertexCount_eq.symm ▸ (hregions.vertices _).mpr hlt
    rw [← hkept _ hlt]
    refine hwarm'.keptAt_eq hlt' hrenamed ?_
    rw [hregion', hregions.regionOf_eq _ hlt, hregion]

/-! ## The solution over the regions -/

namespace Aligned

open Step

variable (h : Aligned π σ flip t t')

include h

theorem premultiplies?_eq (hregions : RenamesRegions π ρ t.partition t'.partition) :
    t'.premultiplies? = t.premultiplies? := by
  have hquadratic := h.relabels.quadratic
  generalize hq : t.quadratic = q, hq' : t'.quadratic = q' at hquadratic
  cases hquadratic with
  | premultiplied hplain hplain' =>
      rw [premultiplies?_of_isDirect (hq' ▸ hplain'.isDirect),
        premultiplies?_of_isDirect (hq ▸ hplain.isDirect)]
  | direct _ _ _ hrows =>
      rw [premultiplies?, premultiplies?, hq, hq', hregions.regionCount_eq, h.innerIterations]
      dsimp only
      rw [hrows]

/-- Solved over corresponding regions from corresponding values the two descriptions are in step. -/
theorem reducedSolution_alike (ht : t.IsPrepared) (ht' : t'.IsPrepared)
    (hwarm : (t.lastX = none ∧ t'.lastX = none) ∨ (t.IsWarm ∧ t'.IsWarm))
    (hbackend : t.inner.backend = .splitting) :
    Alike (· = ·) (InStep π σ flip) (reducedSolution innerMethod) t (reducedSolution innerMethod)
      t' := by
  have hP := ht.coherent.toIsConsistent
  have hP' := ht'.coherent.toIsConsistent
  obtain ⟨ρ, hregions⟩ := h.exists_renamesRegions hP hP'
  have hsame := h.premultiplies?_eq hregions
  refine .congr (reducedSolution_run _ _) (reducedSolution_run _ _) ?_
  rw [hsame]
  refine .lift_bind fun premultiply hpremultiply => ?_
  obtain ⟨τ, flipped, hproblem⟩ := exists_handedProblem_renames h.relabels hregions ht ht' premultiply
  have hregions' := renamesRegions_sorted hregions
  have hsorted (u : Solver K) (v : ℕ) : u.sorted.keptAt v = u.keptAt v := by
    rw [sorted_eq]
    rfl
  obtain ⟨init, init', hinit, hinit', hvalues⟩ := exists_warmStart?_renames hregions'
    (isConsistent_sorted hP) (isConsistent_sorted hP')
    (fun v hv => by
      rw [hsorted, hsorted]
      exact h.kept v (t.sameSettings_sorted.vertexCount ▸ hv))
    (hwarm.imp (fun hcold => by rwa [sorted_eq t, sorted_eq t']) (.imp IsWarm.sorted IsWarm.sorted))
  have hsize : ∀ y ∈ init, y.size = (t.handedProblem premultiply).size := by
    intro y hy
    rw [size_of_warmStart? hinit hy, regionCount_sorted]
    exact (size_reduce t.quadratic t.partition premultiply).symm
  obtain ⟨x, x', iterations, hx, hx', hrenames⟩ := innerMethod_renames hproblem hbackend
    t.innerTolerance hvalues hsize
  rw [← h.relabels.innerTolerance_eq, ← h.relabels.inner] at hx'
  have hfits : t.quadratic.Fits t.vertexCount := h.relabels.quadratic.fits
  have hfits' : t'.quadratic.Fits t'.vertexCount :=
    h.relabels.vertexCount_eq.symm ▸ h.relabels.quadratic.fits'
  have hchosen := (chosenSolution_answers_iff hfits).mpr ⟨init, x, iterations, hinit, hx, rfl⟩
  have hchosen' := (chosenSolution_answers_iff hfits').mpr ⟨init', x', iterations, hinit', hx', rfl⟩
  refine .answers hchosen hchosen' rfl ?_
  have hsolved := reducedSolution_answers_iff.mpr ⟨premultiply, hpremultiply, hchosen⟩
  have hsolved' := reducedSolution_answers_iff.mpr ⟨premultiply, hsame.trans hpremultiply, hchosen'⟩
  obtain ⟨hassignment, hlastX, hlastAssignment⟩ := reducedSolution_frame hsolved
  obtain ⟨hassignment', hlastX', hlastAssignment'⟩ := reducedSolution_frame hsolved'
  have hsettings := sameSettings_of_reducedSolution hsolved
  have hsaturated (u : Solver K) : u.sorted.partition.saturated = u.partition.saturated := by
    rw [sorted_eq]
  exact {
    relabels := h.relabels.of_sameSettings hsettings (sameSettings_of_reducedSolution hsolved')
    regions := h.regions.of_frame hsettings.graph hassignment (hsaturated t) hassignment'
      (hsaturated t')
    kept := by
      intro v hv
      rw [keptAt_congr hlastX hlastAssignment, keptAt_congr hlastX' hlastAssignment']
      exact h.kept v (hsettings.vertexCount ▸ hv)
    innerIterations := rfl
    history := by
      rw [history_of_reducedSolution hsolved, history_of_reducedSolution hsolved', h.history]
    values := by
      intro v hv
      refine (valueAt_eq rfl _).trans (Eq.trans ?_ (valueAt_eq rfl _).symm)
      exact (congrArg (Vec.entry x') (hregions'.regionOf_eq v hv)).trans (hrenames.entry_eq _) }

end Aligned

end Solver
end TotalVariation
