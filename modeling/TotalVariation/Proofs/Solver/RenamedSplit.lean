import Mathlib
import TotalVariation.Proofs.Solver.Merged
import TotalVariation.Proofs.Solver.Refine
import TotalVariation.Proofs.Solver.RenamedCuts

/-! # Splits under another description

Where boundaries join different values the slope of a boundary does not depend on which of its ends
is stored first. Corresponding vertices then have the same prices, corresponding edges are cut, and
two descriptions of one problem stay in step.
-/

namespace TotalVariation.Solver

open Step TotalVariation.Partition

variable {K : Type} [ExactField K] {π σ ρ : Equiv.Perm ℕ} {flip : ℕ → Bool} {s t t' : Solver K}
  {x x' slope slope' : Vec K}

/-! ## The gradient -/

section Gradient

variable (h : InStep π σ flip t t') (ht : t.IsMerged x) (ht' : t'.IsMerged x')

include h ht ht'

theorem InStep.expand_renames : Renames π (t.partition.expand x) (t'.partition.expand x') :=
  Solver.expand_renames h.relabels.vertices h.relabels.vertexCount_eq h.values ht.iterate ht'.iterate

theorem InStep.isActive_eq {e : ℕ} (he : e < t.partition.edgeCount) :
    t'.partition.isActive (σ e) = t.partition.isActive e :=
  h.relabels.graph.isActive_eq ht.partition.toIsConsistent ht'.partition.toIsConsistent
    h.regions.divides he

/-- A boundary adds the same to the slope of a vertex, whichever of its ends is stored first. -/
theorem boundaryTerm_renames {e v : ℕ} (he : e < t.partition.edgeCount)
    (hactive : t.partition.isActive e = true) :
    boundaryWeight t'.partition (t'.partition.expand x') (σ e) *
        (Partition.ones {π v} (t'.partition.graph.tailOf (σ e)) -
          Partition.ones {π v} (t'.partition.graph.headOf (σ e))) =
      boundaryWeight t.partition (t.partition.expand x) e *
        (Partition.ones {v} (t.partition.graph.tailOf e) -
          Partition.ones {v} (t.partition.graph.headOf e)) := by
  have hexpand := h.expand_renames ht ht'
  have hgraph := ht.partition.graph_valid
  have hones : ∀ u, Partition.ones {π v} (π u) = (Partition.ones {v} u : K) := by
    intro u
    simp [Partition.ones]
  rw [boundaryWeight, boundaryWeight, h.relabels.graph.weight e he]
  have hends := h.relabels.graph.ends e he
  cases hflip : flip e with
  | false =>
    rw [hflip] at hends
    obtain ⟨htail, hhead⟩ := Prod.mk.inj hends
    rw [htail, hhead, hexpand.entry_eq, hexpand.entry_eq, hones, hones]
  | true =>
    -- the ends have changed places, and with them both signs
    rw [hflip] at hends
    obtain ⟨htail, hhead⟩ := Prod.mk.inj hends
    have hne := ht.distinct (h.relabels.turned e he hflip) e he hactive
    rw [← t.partition.entry_expand x (hgraph.tail_lt e he),
      ← t.partition.entry_expand x (hgraph.head_lt e he)] at hne
    rw [htail, hhead, hexpand.entry_eq, hexpand.entry_eq, hones, hones]
    rcases lt_or_gt_of_ne hne with hlt | hlt
    · rw [if_pos hlt, if_neg hlt.not_gt]
      ring
    · rw [if_pos hlt, if_neg hlt.not_gt]
      ring

theorem smoothSlope_renames {v : ℕ} (hv : v < t.vertexCount) :
    t'.smoothSlope x' (π v) = t.smoothSlope x v := by
  have hexpand := h.expand_renames ht ht'
  have hboundary : ∑ e ∈ t'.partition.closedEdges,
        boundaryWeight t'.partition (t'.partition.expand x') e *
          (Partition.ones {π v} (t'.partition.graph.tailOf e) -
            Partition.ones {π v} (t'.partition.graph.headOf e)) =
      ∑ e ∈ t.partition.closedEdges, boundaryWeight t.partition (t.partition.expand x) e *
        (Partition.ones {v} (t.partition.graph.tailOf e) -
          Partition.ones {v} (t.partition.graph.headOf e)) := by
    refine (Finset.sum_equiv σ (fun e => ?_) fun e he => ?_).symm
    · simp only [closedEdges, Finset.mem_filter, Finset.mem_range]
      rw [h.relabels.graph.edge_lt_iff]
      exact and_congr_right fun he => by rw [h.isActive_eq ht ht' he]
    · obtain ⟨he, hactive⟩ := Finset.mem_filter.mp he
      exact (boundaryTerm_renames h ht ht' (Finset.mem_range.mp he) hactive).symm
  rw [smoothSlope, smoothSlope, hboundary, h.relabels.penalty_eq, h.relabels.target_eq,
    hexpand.entry_eq, h.relabels.quadratic.slopeAt_eq h.relabels.vertices hexpand hv]

/-- The gradients of solvers in step are the same under the other names. -/
theorem exists_gradient?_renames : ∃ slope slope', t.gradient? = .ok slope ∧
    t'.gradient? = .ok slope' ∧
      ∀ v < t.vertexCount, Vec.entry slope' (π v) = Vec.entry slope v := by
  have hgradient {u : Solver K} {y : Vec K} (hu : u.IsMerged y) :=
    gradient?_eq_ok_of_fits hu.partition.toIsArranged hu.partition.isIndexed
      (hu.partition.toIsConsistent.assignment_lt hu.assigns) hu.iterate hu.iterate_size hu.fits
      hu.symmetric hu.residual
  obtain ⟨slope, hslope, -, hentry⟩ := hgradient ht
  obtain ⟨slope', hslope', -, hentry'⟩ := hgradient ht'
  refine ⟨slope, slope', hslope, hslope', fun v hv => ?_⟩
  rw [hentry v hv, hentry' _ (h.relabels.vertex_lt hv), smoothSlope_renames h ht ht' hv]

end Gradient

/-! ## Prices -/

section Prices

variable (h : Relabels π σ flip t t')

theorem isAtBound_renames {b b' : Weighting (Bound K)} (h : b.Renames π b') (y : K) (v : ℕ) :
    isAtBound (boundsOf? b') y (π v) = isAtBound (boundsOf? b) y v := by
  rw [Bool.eq_iff_iff, isAtBound_iff, isAtBound_iff, boundAt_renames h]

include h

/-- The prices of corresponding vertices are the same, in both directions. -/
theorem prices_renames {v : ℕ} (hslope : Vec.entry slope' (π v) = Vec.entry slope v) (y : K) :
    t'.upwardPrice slope' y (π v) = t.upwardPrice slope y v ∧
      t'.downwardPrice slope' y (π v) = t.downwardPrice slope y v := by
  have hatTarget : t'.isAtTarget y (π v) = t.isAtTarget y v := by
    rw [isAtTarget, isAtTarget, h.target_eq]
  have hweight := h.targetWeight?
  rw [upwardPrice, upwardPrice, downwardPrice, downwardPrice, isAtBound_renames h.lower,
    isAtBound_renames h.upper, hatTarget, hslope]
  generalize t.targetWeight? = w, t'.targetWeight? = w' at hweight ⊢
  cases hweight with
  | none => exact ⟨rfl, rfl⟩
  | some hrenames =>
      dsimp only
      rw [hrenames v]
      exact ⟨rfl, rfl⟩

end Prices

/-! ## One region -/

/-- The open edges of corresponding regions correspond. -/
theorem regionEdges_perm {P P' : Partition K} (h : RenamesGraph π σ flip P P')
    (hregions : RenamesRegions π ρ P P') (hP : P.IsConsistent) (hP' : P'.IsConsistent) {r : ℕ}
    (hr : r < P.regionCount) : (P'.regionEdges (ρ r)).Perm ((P.regionEdges r).map σ) := by
  have hr' := hregions.region_lt hr
  refine (List.perm_ext_iff_of_nodup (hP'.isComponentwise.nodup_regionEdges hr')
    ((hP.isComponentwise.nodup_regionEdges hr).map σ.injective)).mpr fun e' => ?_
  obtain ⟨e, rfl⟩ := σ.surjective e'
  rw [List.mem_map_of_injective σ.injective, hP'.isComponentwise.mem_regionEdges hr',
    hP.isComponentwise.mem_regionEdges hr, mem_openEdges, mem_openEdges, h.edge_lt_iff, and_assoc,
    and_assoc]
  refine and_congr_right fun he => ?_
  rw [h.isActive_eq hP hP' hregions.dividesAlike he]
  refine and_congr_right fun hopen => ?_
  rcases h.ends_eq he with ⟨htail, -⟩ | ⟨htail, -⟩
  · rw [htail, hregions.mem_members_iff]
  · rw [htail, hregions.mem_members_iff, ← hP.tail_mem_iff (mem_openEdges.mpr ⟨he, hopen⟩)]

section Region

variable (h : InStep π σ flip t t') (hregions : RenamesRegions π ρ t.partition t'.partition)
  (ht : t.IsMerged x) (ht' : t'.IsMerged x')
  (hslope : ∀ v < t.vertexCount, Vec.entry slope' (π v) = Vec.entry slope v)

include h hregions ht ht' hslope

/-- In corresponding regions corresponding edges are found. -/
theorem exists_splitRegion?_renames (oneCut : Bool) {r : ℕ} (hr : r < t.partition.regionCount) :
    ∃ found found', t.splitRegion? slope oneCut r = .ok found ∧
      t'.splitRegion? slope' oneCut (ρ r) = .ok found' ∧ found'.Perm (found.map σ) := by
  have hP := ht.partition.toIsConsistent
  have hP' := ht'.partition.toIsConsistent
  have hgraph := h.relabels.graph
  have hvertices := hregions.region_perm hP hP' hr
  have hedges := regionEdges_perm hgraph hregions hP hP' hr
  have hvalue : Vec.entry x' (ρ r) = Vec.entry x r :=
    h.entry_eq hP hregions ht.iterate ht'.iterate hr
  have hprices : ∀ v ∈ t.partition.region r, _ ∧ _ := fun v hv =>
    prices_renames h.relabels (hslope v ((hP.mem_region r hr v).mp hv).1) (Vec.entry x r)
  have hlt : ∀ e ∈ t.partition.regionEdges r, e < t.partition.edgeCount := fun e he =>
    (mem_openEdges.mp ((hP.isComponentwise.mem_regionEdges hr).mp he).1).1
  have hcut (price price' : ℕ → Terminal K)
      (hprice : ∀ v ∈ t.partition.region r, price' (π v) = price v) {edges edges' : List ℕ}
      (hsublist : ∀ e ∈ edges, e ∈ t.partition.regionEdges r) (hperm : edges'.Perm (edges.map σ)) :=
    exists_cutEdges?_renames hgraph ⟨hvertices, hprice, hperm⟩ (fun e he => hlt e (hsublist e he))
      (hP.nodup_region hr)
      (fun e he => hP.isComponentwise.ends_of_mem_regionEdges hr (hsublist e he))
      fun e he => ht.nonneg.edges e (hlt e (hsublist e he))
  rw [splitRegion?_eq_bind ht.iterate, splitRegion?_eq_bind ht'.iterate, hvertices.length_eq,
    List.length_map, hedges.isEmpty_eq, List.isEmpty_map, hvalue]
  split
  next => exact ⟨[], [], rfl, rfl, .nil⟩
  next =>
    split
    next => exact ⟨[], [], rfl, rfl, .nil⟩
    next =>
      obtain ⟨upward, upward', hupward, hupward', -, hup⟩ :=
        hcut _ _ (fun v hv => (hprices v hv).1) (fun _ he => he) hedges
      rw [hupward, hupward', ok_bind, ok_bind]
      have hremaining : ((t'.partition.regionEdges (ρ r)).filter fun e => !upward'.contains e).Perm
          (((t.partition.regionEdges r).filter fun e => !upward.contains e).map σ) := by
        refine (hedges.filter _).trans (.of_eq ?_)
        rw [List.filter_map]
        refine congrArg (List.map σ) (List.filter_congr fun e _ => ?_)
        rw [Function.comp_apply, List.contains_eq_mem, List.contains_eq_mem,
          decide_eq_decide.mpr (hup.mem_iff.trans (List.mem_map_of_injective σ.injective))]
      dsimp only
      rw [hremaining.isEmpty_eq, List.isEmpty_map]
      split
      next => exact ⟨upward, upward', rfl, rfl, hup⟩
      next =>
        obtain ⟨downward, downward', hdownward, hdownward', -, hdown⟩ := hcut _ _
          (fun v hv => (hprices v hv).2) (fun _ he => List.mem_of_mem_filter he) hremaining
        rw [hdownward, hdownward', ok_bind, ok_bind]
        refine ⟨_, _, rfl, rfl, (hup.append hdown).trans (.of_eq ?_)⟩
        rw [List.map_append]

end Region

/-! ## Marks -/

/-- Solvers in step stay so when their boundaries and corresponding marks of regions change. -/
theorem InStep.of_marks (h : InStep π σ flip t t') {active active' saturated saturated' : Array Bool}
    (hmarks : ∀ v < t.vertexCount, saturated'.getD (t'.partition.regionOf (π v)) false =
      saturated.getD (t.partition.regionOf v) false) :
    InStep π σ flip
      { t with partition := { t.partition with active := active, saturated := saturated } }
      { t' with partition := { t'.partition with active := active', saturated := saturated' } } where
  relabels := h.relabels.of_sameSettings (by constructor <;> rfl) (by constructor <;> rfl)
  regions := ⟨h.regions.divides, hmarks⟩
  kept := h.kept
  innerIterations := h.innerIterations
  history := h.history
  values := h.values

/-- Solvers in step whose marked boundaries correspond. -/
structure CutAlike (π σ : Equiv.Perm ℕ) (flip : ℕ → Bool) (t t' : Solver K) : Prop
    extends InStep π σ flip t t' where
  isActive_eq : ∀ e < t.partition.edgeCount,
    t'.partition.isActive (σ e) = t.partition.isActive e

/-- The same regions are open under their other names. -/
theorem openRegions_perm (h : InStep π σ flip t t') (hP : t.partition.IsConsistent)
    (hregions : RenamesRegions π ρ t.partition t'.partition) :
    (openRegions t'.partition).Perm ((openRegions t.partition).map ρ) := by
  have hnodup (Q : Partition K) : (openRegions Q).Nodup := List.nodup_range.filter _
  refine (List.perm_ext_iff_of_nodup (hnodup _) ((hnodup _).map ρ.injective)).mpr fun r' => ?_
  obtain ⟨r, rfl⟩ := ρ.surjective r'
  rw [List.mem_map_of_injective ρ.injective, mem_openRegions_iff, mem_openRegions_iff,
    hregions.regionCount_eq, hregions.regions r]
  exact and_congr_right fun hr => by rw [h.isSaturated_eq hP hregions hr]

section Found

variable {regions regions' : List ℕ} {found renamed : ℕ → List ℕ}
  (hregions : regions'.Perm (regions.map ρ))
  (hfound : ∀ r ∈ regions, (renamed (ρ r)).Perm ((found r).map σ))

include hregions hfound

theorem cutCount_renames : cutCount (regions'.map fun r => (r, renamed r)) =
    cutCount (regions.map fun r => (r, found r)) := by
  rw [cutCount_map, cutCount_map, (hregions.map _).sum_eq, List.map_map]
  refine congrArg List.sum (List.map_congr_left fun r hr => ?_)
  rw [Function.comp_apply, (hfound r hr).length_eq, List.length_map]

theorem mem_found_renames (e : ℕ) :
    (∃ cut ∈ regions'.map fun r => (r, renamed r), σ e ∈ cut.2) ↔
      ∃ cut ∈ regions.map fun r => (r, found r), e ∈ cut.2 := by
  have hin : ∀ r ∈ regions, (σ e ∈ renamed (ρ r) ↔ e ∈ found r) := by
    intro r hr
    rw [(hfound r hr).mem_iff, List.mem_map_of_injective σ.injective]
  simp only [List.mem_map, exists_exists_and_eq_and, hregions.mem_iff]
  exact exists_congr fun r => and_congr_right (hin r)

end Found

/-- Marking corresponding findings in the open regions of solvers in step. -/
theorem InStep.markRegions_alike {found renamed : ℕ → List ℕ} (h : InStep π σ flip t t')
    (ht : t.IsMerged x) (ht' : t'.IsMerged x') (hregions : RenamesRegions π ρ t.partition t'.partition)
    (hfound : ∀ r < t.partition.regionCount, (renamed (ρ r)).Perm ((found r).map σ)) :
    CutAlike π σ flip
      { t with partition :=
        markRegions t.partition ((openRegions t.partition).map fun r => (r, found r)) }
      { t' with partition :=
        markRegions t'.partition ((openRegions t'.partition).map fun r => (r, renamed r)) } := by
  have hP := ht.partition.toIsConsistent
  have hP' := ht'.partition.toIsConsistent
  have hopen := openRegions_perm h hP hregions
  refine ⟨?_, fun e he => ?_⟩
  · rw [markRegions_eq, markRegions_eq t'.partition]
    refine h.of_marks fun v hv => ?_
    have hr := hP.regionOf_lt hv
    have hmark := markRegions_isSaturated (P := t.partition) found (openRegions t.partition)
      (t.partition.regionOf v)
    have hmark' := markRegions_isSaturated (P := t'.partition) renamed (openRegions t'.partition)
      (ρ (t.partition.regionOf v))
    have hempty : (renamed (ρ (t.partition.regionOf v))).isEmpty =
        (found (t.partition.regionOf v)).isEmpty := by
      rw [(hfound _ hr).isEmpty_eq, List.isEmpty_map]
    rw [hempty, h.isSaturated_eq hP hregions hr] at hmark'
    rw [hregions.regionOf_eq v hv]
    refine hmark'.trans (Eq.trans (if_congr ?_ rfl rfl) hmark.symm)
    rw [hopen.mem_iff, List.mem_map_of_injective ρ.injective, ht.partition.size_saturated,
      ht'.partition.size_saturated, hregions.regionCount_eq, hregions.regions]
  · have he' : e < t.partition.edgeCount := by rwa [edgeCount, markRegions_graph] at he
    have hmem := mem_found_renames hopen
      (fun r hr => hfound r (mem_openRegions_iff.mp hr).1) e
    rw [Bool.eq_iff_iff, markRegions_isActive, markRegions_isActive, h.isActive_eq ht ht' he', hmem,
      hP.active_size, hP'.active_size, h.relabels.graph.edge_lt_iff]

/-- Two descriptions of one problem in step are split alike. -/
theorem InStep.split_alike (h : InStep π σ flip t t') (ht : t.IsMerged x) (ht' : t'.IsMerged x') :
    Alike (· = ·) (CutAlike π σ flip) split t split t' := by
  have hP := ht.partition.toIsConsistent
  obtain ⟨ρ, hregions⟩ := h.exists_renamesRegions hP ht'.partition.toIsConsistent
  obtain ⟨slope, slope', hgradient, hgradient', hslope⟩ := exists_gradient?_renames h ht ht'
  have hfinds := fun r (hr : r < t.partition.regionCount) =>
    exists_splitRegion?_renames h hregions ht ht' hslope t.needsOneCut hr
  choose! found found' hfound hfound' hperm using hfinds
  -- what is found in a region of the second description is named after that of the first
  set renamed : ℕ → List ℕ := fun r' => found' (ρ.symm r')
  have hback : ∀ r, renamed (ρ r) = found' r := fun r => congrArg found' (ρ.symm_apply_apply r)
  have hrenamed : ∀ r < t.partition.regionCount, (renamed (ρ r)).Perm ((found r).map σ) :=
    fun r hr => (hback r).symm ▸ hperm r hr
  have hopen := openRegions_perm h hP hregions
  have hopenlt : ∀ r ∈ openRegions t.partition, r < t.partition.regionCount := fun r hr =>
    (mem_openRegions_iff.mp hr).1
  have houtcomes := outcomes_eq_ok fun r hr => hfound r (hopenlt r hr)
  have houtcomes' : Workload.outcomes (t'.splitRegion? slope' t'.needsOneCut)
      (openRegions t'.partition) = .ok ((openRegions t'.partition).map renamed) := by
    refine outcomes_eq_ok fun r' hr' => ?_
    obtain ⟨r, hr, rfl⟩ := List.mem_map.mp (hopen.mem_iff.mp hr')
    rw [h.relabels.needsOneCut_eq, hback]
    exact hfound' r (hopenlt r hr)
  have hsplit := split_answers.mpr ⟨slope, _, hgradient, houtcomes, rfl, rfl⟩
  have hsplit' := split_answers.mpr ⟨slope', _, hgradient', houtcomes', rfl, rfl⟩
  rw [zip_map_self] at hsplit hsplit'
  exact .answers hsplit hsplit'
    (cutCount_renames hopen fun r hr => hrenamed r (hopenlt r hr)).symm
    (h.markRegions_alike ht ht' hregions hrenamed)

/-! ## Keeping the iterate -/

/-- Two descriptions in step keep corresponding iterates. -/
theorem InStep.keepIterate_alike (h : InStep π σ flip t t') (hx : t.x = some x)
    (hx' : t'.x = some x') : Alike (· = ·) (InStep π σ flip) keepIterate t keepIterate t' := by
  have hanswers {u : Solver K} {y : Vec K} (hy : u.x = some y) : keepIterate.Answers u ()
      { u with lastX := some y, partition := u.partition.saveAssignment } := by
    unfold keepIterate
    rw [answers_get_bind, answers_lift_bind]
    exact ⟨y, require_eq_ok.mpr hy, answers_modify.mpr rfl⟩
  refine .answers (hanswers hx) (hanswers hx') rfl
    ⟨⟨h.relabels.of_sameSettings ?_ ?_, ⟨h.regions.divides, h.regions.isSaturated_eq⟩, fun v hv => ?_,
      h.innerIterations, h.history⟩, h.values⟩
  · constructor <;> rfl
  · constructor <;> rfl
  · have hvalue := h.values v hv
    rwa [valueAt_eq hx, valueAt_eq hx'] at hvalue

end TotalVariation.Solver
