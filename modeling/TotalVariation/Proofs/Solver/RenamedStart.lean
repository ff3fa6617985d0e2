import Mathlib
import TotalVariation.Proofs.Solver.RenamedReduction

/-! # The start under another description

Two descriptions of one problem begin in step: the components of the graph correspond, and over one
component the best constant depends on sums over all vertices, on the median of their targets and on
their tightest bounds.
-/

namespace TotalVariation.Solver

open Step TotalVariation.Partition

variable {K : Type} [ExactField K] {π σ ρ : Equiv.Perm ℕ} {flip : ℕ → Bool} {s s' t t' : Solver K}

/-! ## One component -/

omit [ExactField K] in
/-- One region corresponds to one region. -/
theorem eq_zero_of_renamesRegions (hregions : RenamesRegions π ρ t.partition t'.partition)
    (hone : t.partition.regionCount = 1) : ρ 0 = 0 := by
  have hlt := (hregions.regions 0).mpr (hone ▸ Nat.one_pos)
  rw [hone] at hlt
  exact Nat.lt_one_iff.mp hlt

section Constant

variable (h : Relabels π σ flip t t') (hregions : RenamesRegions π ρ t.partition t'.partition)
  (hP : t.partition.IsConsistent) (hP' : t'.partition.IsConsistent)
  (hone : t.partition.regionCount = 1)

include h hregions hP hP' hone

/-- The median of all targets does not depend on the names of the vertices, nor whether there is
one. -/
theorem wholeMedian_renames (hnonneg : t.HasNonnegWeights) :
    t'.wholeMedian.1 = t.wholeMedian.1 ∧
      (t'.wholeMedian.2 = t' ∧ t.wholeMedian.2 = t ∨
        t'.wholeMedian.2.partition.saturated = t'.partition.saturated.setIfInBounds 0 false ∧
          t.wholeMedian.2.partition.saturated = t.partition.saturated.setIfInBounds 0 false) := by
  have hzero := eq_zero_of_renamesRegions hregions hone
  have hpos : 0 < t.partition.regionCount := hone ▸ Nat.one_pos
  have hperm := hregions.region_perm hP hP' hpos
  rw [hzero] at hperm
  have htargets := h.targets
  have heach := h.targetWeights.each
  have hweights := hnonneg.targets
  rw [wholeMedian, wholeMedian, h.totalTargetWeight?_eq]
  generalize t.targets = y, t'.targets = y' at htargets ⊢
  cases t.totalTargetWeight?.isSome with
  | false => exact ⟨rfl, .inl ⟨rfl, rfl⟩⟩
  | true =>
      cases htargets with
      | none => exact ⟨rfl, .inl ⟨rfl, rfl⟩⟩
      | some htargets =>
          refine ⟨?_, .inr ⟨rfl, rfl⟩⟩
          refine Median.select_renames hperm (fun v _ => htargets.entry_eq v)
            (hP.toIsArranged.region_ne_nil' hpos) ?_
          generalize t.targetWeights.each = w, t'.targetWeights.each = w' at heach hweights ⊢
          cases heach with
          | none => exact .none
          | some hrenames =>
              refine .some fun v hv => ⟨hweights _ rfl v ?_, hrenames.entry_eq v⟩
              exact ((hP.mem_region 0 hpos v).mp hv).1

end Constant

namespace Aligned

variable (h : Aligned π σ flip t t') (hP : t.partition.IsConsistent)
  (hP' : t'.partition.IsConsistent) (hone : t.partition.regionCount = 1)

include h hP hP' hone

/-- Selecting the median over the one region leaves the descriptions aligned. -/
theorem wholeMedian (hnonneg : t.HasNonnegWeights) :
    t'.wholeMedian.1 = t.wholeMedian.1 ∧ Aligned π σ flip t.wholeMedian.2 t'.wholeMedian.2 := by
  obtain ⟨ρ, hregions⟩ := h.exists_renamesRegions hP hP'
  obtain ⟨hmedian, hmarks⟩ := wholeMedian_renames h.relabels hregions hP hP' hone hnonneg
  refine ⟨hmedian, ?_⟩
  rcases hmarks with ⟨hsame', hsame⟩ | ⟨hsaturated', hsaturated⟩
  · rw [hsame, hsame']
    exact h
  · have hcleared : ∀ marks : Array Bool, (marks.setIfInBounds 0 false).getD 0 false = false := by
      intro marks
      have hset := getD_foldl_setIfInBounds_false [0] marks 0
      rw [List.foldl_cons, List.foldl_nil] at hset
      rw [hset]
      simp
    have hregion : ∀ v < t.vertexCount, t.partition.regionOf v = 0 := fun v hv =>
      Nat.lt_one_iff.mp (hone ▸ hP.regionOf_lt hv)
    have hregion' : ∀ v < t.vertexCount, t'.partition.regionOf (π v) = 0 := fun v hv => by
      rw [hregions.regionOf_eq v hv, hregion v hv, eq_zero_of_renamesRegions hregions hone]
    rw [t.wholeMedian_eq, t'.wholeMedian_eq, hsaturated, hsaturated']
    refine ⟨h.relabels.of_sameSettings ?_ ?_, ⟨h.regions.divides, fun v hv => ?_⟩, h.kept,
      h.innerIterations, h.history⟩
    · constructor <;> rfl
    · constructor <;> rfl
    · have hmark : ∀ marks : Array Bool, ∀ q, q = 0 →
          (marks.setIfInBounds 0 false).getD q false = false := by
        rintro marks _ rfl
        exact hcleared marks
      exact (hmark _ _ (hregion' v hv)).trans (hmark _ _ (hregion v hv)).symm

/-- Over one region both solutions are the same constant. -/
theorem constantSolution_alike (hnonneg : t.HasNonnegWeights) :
    Alike (fun _ _ => True) (InStep π σ flip)
      (constantSolution >>= fun c => modify fun s => { s with x := some #[c] }) t
      (constantSolution >>= fun c => modify fun s => { s with x := some #[c] }) t' := by
  obtain ⟨ρ, hregions⟩ := h.exists_renamesRegions hP hP'
  obtain ⟨hmedian, haligned⟩ := h.wholeMedian hP hP' hone hnonneg
  refine .bind (V := (· = ·)) (R := fun u u' => (∃ former, u = { t.wholeMedian.2 with
    residual := former }) ∧ ∃ former, u' = { t'.wholeMedian.2 with residual := former }) ?_ ?_
  · refine constantSolution_alike_of_eq ?_ h.relabels.largestLower_eq h.relabels.smallestUpper_eq
      fun c => ⟨⟨_, rfl⟩, _, rfl⟩
    rw [h.relabels.totalTargetWeight?_eq, hmedian,
      h.relabels.quadratic.constantPart_eq h.relabels.vertices]
  · rintro c _ _ _ - - rfl ⟨⟨former, rfl⟩, former', rfl⟩
    refine .of_modify trivial ⟨⟨haligned.relabels.of_sameSettings ?_ ?_, haligned.regions,
      haligned.kept, haligned.innerIterations, haligned.history⟩, fun v hv => ?_⟩
    · constructor <;> rfl
    · constructor <;> rfl
    · have hframe := t.wholeMedian_frame
      have hframe' := t'.wholeMedian_frame
      have hv' : v < t.vertexCount := by
        rwa [vertexCount, Partition.vertexCount, hframe.1] at hv
      have hregion : ∀ {u : Solver K} {w : ℕ}, u.partition.regionOf w = 0 →
          u.wholeMedian.2.partition.regionOf w = 0 := by
        intro u w hw
        rwa [regionOf, u.wholeMedian_frame.2]
      have hzero : t.partition.regionOf v = 0 := Nat.lt_one_iff.mp (hone ▸ hP.regionOf_lt hv')
      have hzero' : t'.partition.regionOf (π v) = 0 := by
        rw [hregions.regionOf_eq v hv', hzero, eq_zero_of_renamesRegions hregions hone]
      refine (valueAt_eq rfl _).trans (Eq.trans ?_ (valueAt_eq rfl _).symm)
      exact congrArg (Vec.entry #[c]) ((hregion hzero').trans (hregion hzero).symm)

end Aligned

/-! ## The components -/

theorem isPrepared_begun (hs : s.partition.IsArranged) (hnonneg : s.HasNonnegWeights) :
    s.begun.IsPrepared where
  toKeepsOrder := ⟨(keepsOrder_components hs).coherent, (keepsOrder_components hs).sortedAsMarked⟩
  reducedWeights := hasReducedWeights_begun hs
  nonneg := hnonneg.of_sameSettings (by constructor <;> rfl)

/-- The components of a graph correspond under its two descriptions, and none is solved. -/
theorem matches_components {P P' : Partition K} (h : RenamesGraph π σ flip P P') (hP : P.IsArranged)
    (hP' : P'.IsArranged) : Matches π (components P) (components P') := by
  have hopened : RenamesGraph π σ flip (opened P) (opened P') := h.of_frame rfl rfl rfl rfl
  have hnone : ∀ n e : ℕ, (Array.replicate n false).getD e false = false :=
    fun n e => getD_replicate n false e
  constructor
  · exact hopened.dividesAlike_rebuild (isArranged_opened hP) (isArranged_opened hP')
      fun e _ => (hnone _ (σ e)).trans (hnone _ e).symm
  · exact fun v _ => (hnone _ _).trans (hnone _ _).symm

/-- Two descriptions of one problem begin aligned. -/
theorem Relabels.aligned_begun (h : Relabels π σ flip s s') (hs : s.partition.IsArranged)
    (hs' : s'.partition.IsArranged) (hiterations : s'.innerIterations = s.innerIterations)
    (hhistory : s'.history = s.history) : Aligned π σ flip s.begun s'.begun where
  relabels := h.of_sameSettings (by constructor <;> rfl) (by constructor <;> rfl)
  regions := matches_components h.graph hs hs'
  kept v _ := by rw [keptAt_eq_zero rfl, keptAt_eq_zero rfl]
  innerIterations := hiterations
  history := hhistory

/-- The starts of two descriptions of one problem come to the same values. -/
theorem Relabels.start_alike (h : Relabels π σ flip s s') (hs : s.partition.IsArranged)
    (hs' : s'.partition.IsArranged) (hnonneg : s.HasNonnegWeights) (hnonneg' : s'.HasNonnegWeights)
    (hbackend : s.inner.backend = .splitting)
    (hiterations : s'.innerIterations = s.innerIterations) (hhistory : s'.history = s.history) :
    Alike (fun _ _ => True) (InStep π σ flip) (start standardSteps) s (start standardSteps) s' := by
  have haligned := h.aligned_begun hs hs' hiterations hhistory
  have hprepared := isPrepared_begun hs hnonneg
  have hprepared' := isPrepared_begun hs' hnonneg'
  have hP := hprepared.coherent.toIsConsistent
  have hP' := hprepared'.coherent.toIsConsistent
  obtain ⟨ρ, hregions⟩ := haligned.exists_renamesRegions hP hP'
  unfold start
  refine .modify_bind (.get_bind ?_)
  change Alike _ _ (if s.begun.partition.regionCount = 1 then _ else _) s.begun
    (if s'.begun.partition.regionCount = 1 then _ else _) s'.begun
  rw [hregions.regionCount_eq]
  split
  next hone => exact haligned.constantSolution_alike hP hP' hone hprepared.nonneg
  next =>
    exact (haligned.reducedSolution_alike hprepared hprepared' (.inl ⟨rfl, rfl⟩) hbackend).imp
      (fun _ _ _ => trivial) fun _ _ hinStep => hinStep

end TotalVariation.Solver
