import Mathlib
import TotalVariation.Proofs.Solver.RegionCuts

/-! # Splitting one region

The slope of the objective along any direction is made of the slopes of moving parts of the regions
up and down. Where the split finds nothing in a region no part of it moves with a negative slope,
unless the whole region does.
-/

namespace TotalVariation

variable {K : Type} [ExactField K]

/-! ## Directions -/

theorem abs_sub_eq_parts (a b : K) :
    |a - b| = |max a 0 - max b 0| + |max (-a) 0 - max (-b) 0| := by
  rcases le_total 0 a with ha | ha <;> rcases le_total 0 b with hb | hb
  · simp [ha, hb]
  · simp only [max_eq_left ha, max_eq_right hb, max_eq_right (neg_nonpos.mpr ha),
      max_eq_left (neg_nonneg.mpr hb), sub_zero, zero_sub, neg_neg]
    rw [abs_of_nonneg (by linarith), abs_of_nonneg ha, abs_of_nonpos hb]
    ring
  · simp only [max_eq_right ha, max_eq_left hb, max_eq_left (neg_nonneg.mpr ha),
      max_eq_right (neg_nonpos.mpr hb), sub_zero, zero_sub]
    rw [abs_of_nonpos (by linarith), abs_neg, abs_neg, abs_of_nonneg hb, abs_of_nonpos ha]
    ring
  · simp only [max_eq_right ha, max_eq_right hb, max_eq_left (neg_nonneg.mpr ha),
      max_eq_left (neg_nonneg.mpr hb), sub_zero, abs_zero, zero_add]
    rw [← abs_neg, neg_sub, neg_sub_neg]

namespace Partition

theorem cutSlope_congr {P : Partition K} (hgraph : P.graph.IsValid) {cost c d : Nat → K}
    (h : ∀ v < P.vertexCount, c v = d v) : P.cutSlope cost c = P.cutSlope cost d := by
  refine congrArg₂ (· + ·) (Finset.sum_congr rfl fun v hv => ?_)
    (Finset.sum_congr rfl fun e he => ?_)
  · rw [h v (Finset.mem_range.mp hv)]
  · have hlt := (mem_openEdges.mp he).1
    rw [h _ (hgraph.tail_lt e hlt), h _ (hgraph.head_lt e hlt)]

theorem cutSlope_zero (P : Partition K) (cost : Nat → K) : P.cutSlope cost (fun _ => 0) = 0 := by
  simp [cutSlope]

theorem cutSlope_empty (P : Partition K) (cost : Nat → K) : P.cutSlope cost (ones ∅) = 0 := by
  rw [cutSlope_ones cost (by simp)]
  simp [leaves]

end Partition

namespace Solver

variable {s t : Solver K} {x slope : Vec K} {r : Nat} {U : Finset Nat}

namespace IsReady

/-- The slope along a direction is that of what moves up and that of what moves down. -/
theorem slopeAlong_eq_parts (h : s.IsReady x) (hslope : s.gradient? = .ok slope) (d : Nat → K) :
    s.problem.slopeAlong (s.partition.expand x) d =
      s.partition.cutSlope (s.upwardCost x slope) (fun v => max (d v) 0) +
        s.partition.cutSlope (s.downwardCost x slope) (fun v => max (-d v) 0) := by
  have hvertex : ∀ v, Vec.entry slope v * d v + s.kink x v * |d v| =
      s.upwardCost x slope v * max (d v) 0 + s.downwardCost x slope v * max (-d v) 0 := by
    intro v
    rw [upwardCost, downwardCost]
    rcases le_total 0 (d v) with hd | hd
    · rw [max_eq_left hd, max_eq_right (neg_nonpos.mpr hd), abs_of_nonneg hd]
      ring
    · rw [max_eq_right hd, max_eq_left (neg_nonneg.mpr hd), abs_of_nonpos hd]
      ring
  rw [h.isParted.slopeAlong_eq hslope, Partition.cutSlope, Partition.cutSlope]
  simp only [hvertex, abs_sub_eq_parts (d _) (d _), mul_add, Finset.sum_add_distrib]
  change _ = _ + _ + (_ + _)
  rw [vertexCount]
  ring

theorem slopeAlong_ones (h : s.IsReady x) (hslope : s.gradient? = .ok slope) (U : Finset Nat) :
    s.problem.slopeAlong (s.partition.expand x) (Partition.ones U) =
      s.partition.cutSlope (s.upwardCost x slope) (Partition.ones U) := by
  have hup : s.partition.cutSlope (s.upwardCost x slope) (fun v => max (Partition.ones U v) 0) =
      s.partition.cutSlope (s.upwardCost x slope) (Partition.ones U) :=
    Partition.cutSlope_congr h.consistent.graph_valid fun v _ => by
      by_cases hv : v ∈ U <;> simp [Partition.ones, hv]
  have hdown : s.partition.cutSlope (s.downwardCost x slope)
      (fun v => max (-Partition.ones U v) 0) = 0 := by
    refine Eq.trans ?_ (s.partition.cutSlope_zero (s.downwardCost x slope))
    exact Partition.cutSlope_congr h.consistent.graph_valid fun v _ => by
      by_cases hv : v ∈ U <;> simp [Partition.ones, hv]
  rw [h.slopeAlong_eq_parts hslope, hup, hdown, add_zero]

theorem slopeAlong_neg_ones (h : s.IsReady x) (hslope : s.gradient? = .ok slope)
    (U : Finset Nat) :
    s.problem.slopeAlong (s.partition.expand x) (fun v => -Partition.ones U v) =
      s.partition.cutSlope (s.downwardCost x slope) (Partition.ones U) := by
  have hup : s.partition.cutSlope (s.upwardCost x slope)
      (fun v => max (-Partition.ones U v) 0) = 0 := by
    refine Eq.trans ?_ (s.partition.cutSlope_zero (s.upwardCost x slope))
    exact Partition.cutSlope_congr h.consistent.graph_valid fun v _ => by
      by_cases hv : v ∈ U <;> simp [Partition.ones, hv]
  have hdown : s.partition.cutSlope (s.downwardCost x slope)
      (fun v => max (- -Partition.ones U v) 0) =
        s.partition.cutSlope (s.downwardCost x slope) (Partition.ones U) :=
    Partition.cutSlope_congr h.consistent.graph_valid fun v _ => by
      by_cases hv : v ∈ U <;> simp [Partition.ones, hv]
  rw [h.slopeAlong_eq_parts hslope, hup, hdown, zero_add]

theorem lowerAt_problem (h : s.IsReady x) {v : Nat} (hv : v < s.problem.size) :
    s.problem.lowerAt v = some (Vec.entry (s.partition.expand x) v) ↔ s.AtLower x v := by
  rw [problem_lowerAt s (h.size_problem ▸ hv), AtLower]

theorem upperAt_problem (h : s.IsReady x) {v : Nat} (hv : v < s.problem.size) :
    s.problem.upperAt v = some (Vec.entry (s.partition.expand x) v) ↔ s.AtUpper x v := by
  rw [problem_upperAt s (h.size_problem ▸ hv), AtUpper]

theorem isAdmissible_ones (h : s.IsReady x) (hU : ∀ v ∈ U, ¬s.AtUpper x v) :
    s.problem.IsAdmissible (s.partition.expand x) (Partition.ones U) := by
  intro v hv
  rw [h.upperAt_problem hv]
  by_cases hmem : v ∈ U
  · simp [Partition.ones, hmem, hU v hmem]
  · simp [Partition.ones, hmem]

theorem isAdmissible_neg_ones (h : s.IsReady x) (hU : ∀ v ∈ U, ¬s.AtLower x v) :
    s.problem.IsAdmissible (s.partition.expand x) (fun v => -Partition.ones U v) := by
  intro v hv
  rw [h.lowerAt_problem hv]
  by_cases hmem : v ∈ U
  · simp [Partition.ones, hmem, hU v hmem]
  · simp [Partition.ones, hmem]

/-- The slope along every admissible direction is not negative, if it is not along the parts of
regions that may move up or down. -/
theorem slopeAlong_nonneg (h : s.IsReady x) (hslope : s.gradient? = .ok slope)
    (hup : ∀ r < s.partition.regionCount, ∀ U ⊆ s.partition.members r,
      (∀ v ∈ U, ¬s.AtUpper x v) →
        0 ≤ s.partition.cutSlope (s.upwardCost x slope) (Partition.ones U))
    (hdown : ∀ r < s.partition.regionCount, ∀ U ⊆ s.partition.members r,
      (∀ v ∈ U, ¬s.AtLower x v) →
        0 ≤ s.partition.cutSlope (s.downwardCost x slope) (Partition.ones U)) {d : Nat → K}
    (hd : s.problem.IsAdmissible (s.partition.expand x) d) :
    0 ≤ s.problem.slopeAlong (s.partition.expand x) d := by
  have hgraph := h.consistent.graph_valid
  have hsize : ∀ {v}, v < s.partition.vertexCount → v < s.problem.size :=
    fun hv => h.size_problem.symm ▸ hv
  rw [h.slopeAlong_eq_parts hslope]
  refine add_nonneg
    (Partition.cutSlope_nonneg hgraph (fun v => ¬s.AtUpper x v)
      (fun U hU => h.consistent.cutSlope_ones_nonneg hup hU) (fun v _ => le_max_right _ _) ?_)
    (Partition.cutSlope_nonneg hgraph (fun v => ¬s.AtLower x v)
      (fun U hU => h.consistent.cutSlope_ones_nonneg hdown hU) (fun v _ => le_max_right _ _) ?_)
  · intro v hv hne hbound
    exact hne (max_eq_right ((hd v (hsize hv)).2 ((h.upperAt_problem (hsize hv)).mpr hbound)))
  · intro v hv hne hbound
    have hnonneg := (hd v (hsize hv)).1 ((h.lowerAt_problem (hsize hv)).mpr hbound)
    exact hne (max_eq_right (neg_nonpos.mpr hnonneg))

end IsReady

/-! ## The test of one region -/

/-- If the cheapest part is empty or the whole region, every part costs as much as none. -/
theorem IsCheapest.nonneg {P : Partition K} {cost : Nat → K} {barred : Nat → Prop}
    (hU : IsCheapest P r cost barred U) (hwhole : U = ∅ ∨ U = P.members r)
    (hmembers : (∀ v ∈ P.members r, ¬barred v) →
      0 ≤ P.cutSlope cost (Partition.ones (P.members r))) :
    ∀ V ⊆ P.members r, (∀ v ∈ V, ¬barred v) → 0 ≤ P.cutSlope cost (Partition.ones V) := by
  intro V hV hfree
  refine le_trans ?_ (hU.le V hV hfree)
  rcases hwhole with rfl | rfl
  · rw [Partition.cutSlope_empty]
  · exact hmembers hU.free

/-- Nothing is cheaper than the empty part if no part has a negative cost. -/
theorem isCheapest_iff {P : Partition K} {cost : Nat → K} {barred : Nat → Prop}
    (hnonneg : ∀ V ⊆ P.members r, (∀ v ∈ V, ¬barred v) → 0 ≤ P.cutSlope cost (Partition.ones V)) :
    IsCheapest P r cost barred U ↔ U ⊆ P.members r ∧ (∀ v ∈ U, ¬barred v) ∧
      P.cutSlope cost (Partition.ones U) = 0 := by
  constructor
  · intro hU
    refine ⟨hU.subset, hU.free, le_antisymm ?_ (hnonneg U hU.subset hU.free)⟩
    have hle := hU.le ∅ (Finset.empty_subset _) (by simp)
    rwa [Partition.cutSlope_empty] at hle
  · rintro ⟨hsubset, hfree, hzero⟩
    refine ⟨hsubset, hfree, fun V hV hVfree => ?_⟩
    rw [hzero]
    exact hnonneg V hV hVfree

/-- A region that is not tested: it has one vertex, or no open edges. -/
def IsSmall (P : Partition K) (r : Nat) : Prop :=
  (P.region r).length < 2 ∨ P.regionEdges r = []

namespace IsCuttable

/-- A small region has no proper part to move. -/
theorem eq_empty_or_eq_of_small (h : s.IsCuttable x) (hr : r < s.partition.regionCount)
    (hsmall : IsSmall s.partition r)
    (hU : U ⊆ s.partition.members r) : U = ∅ ∨ U = s.partition.members r := by
  rcases hsmall with hlength | hnil
  · have hcard : (s.partition.members r).card < 2 := by
      rw [← h.consistent.sizeOf_eq hr]
      exact hlength
    rcases U.eq_empty_or_nonempty with hempty | hnonempty
    · exact .inl hempty
    · refine .inr (Finset.eq_of_subset_of_card_le hU ?_)
      have := hnonempty.card_pos
      omega
  · apply h.consistent.eq_empty_or_eq_of_filter_eq_nil hr hU
    rw [hnil]
    rfl

/-- Where nothing but the variation is not smooth, moving a part down costs what moving the rest up
costs beyond the whole region. -/
theorem cutSlope_downward_eq (h : s.IsCuttable x) (htargets : s.targetWeight? = none)
    (hU : U ⊆ s.partition.members r) :
    s.partition.cutSlope (s.downwardCost x slope) (Partition.ones U) =
      s.partition.cutSlope (s.upwardCost x slope) (Partition.ones (s.partition.members r \ U)) -
        s.partition.cutSlope (s.upwardCost x slope) (Partition.ones (s.partition.members r)) := by
  have hkink : ∀ v, s.kink x v = 0 := by
    intro v
    rw [kink, penalty, htargets]
    exact ite_self _
  have hmembers : ∑ e ∈ s.partition.openEdges,
      (if s.partition.leaves (s.partition.members r) e then s.partition.weight e else 0) = 0 := by
    apply Finset.sum_eq_zero
    intro e he
    rw [Partition.leaves_eq_false.mpr (h.consistent.tail_mem_iff he r)]
    simp
  have hrest : ∑ e ∈ s.partition.openEdges,
      (if s.partition.leaves (s.partition.members r \ U) e then s.partition.weight e else 0) =
        ∑ e ∈ s.partition.openEdges, if s.partition.leaves U e then s.partition.weight e else 0 := by
    apply Finset.sum_congr rfl
    intro e he
    rw [Partition.leaves_sdiff hU (h.consistent.tail_mem_iff he r)]
  rw [Partition.cutSlope_ones _ (lt_of_subset_members hU),
    Partition.cutSlope_ones _ (lt_of_subset_members Finset.sdiff_subset),
    Partition.cutSlope_ones _ (lt_of_subset_members subset_rfl), hmembers, hrest,
    ← Finset.sum_sdiff hU]
  simp only [upwardCost, downwardCost, hkink, add_zero, zero_sub, Finset.sum_neg_distrib]
  ring

end IsCuttable

/-- Without bounds no vertex stands at one. -/
theorem not_at_bound_of_needsOneCut (h : s.needsOneCut = true) (x : Vec K) (v : Nat) :
    s.targetWeight? = none ∧ ¬s.AtLower x v ∧ ¬s.AtUpper x v := by
  simp only [needsOneCut, Bool.and_eq_true, Option.isNone_iff_eq_none] at h
  obtain ⟨⟨htargets, hlower⟩, hupper⟩ := h
  rw [AtLower, AtUpper, ← boundsOf?_bind, ← boundsOf?_bind, hlower, hupper]
  exact ⟨htargets, by simp, by simp⟩

/-- Nothing is found in a small region. -/
theorem splitRegion?_of_small (oneCut : Bool) (hsmall : IsSmall s.partition r) :
    s.splitRegion? slope oneCut r = .ok [] := by
  rw [splitRegion?]
  dsimp only
  split
  next => rfl
  next hlength =>
    rw [if_pos]
    · rfl
    · exact List.isEmpty_iff.mpr (hsmall.resolve_left hlength)

namespace IsCuttable

/-- After the upward cut the edges that are left are cut downward, if one cut is not enough. -/
theorem splitRegion?_eq (h : s.IsCuttable x) (oneCut : Bool) (hlarge : ¬IsSmall s.partition r)
    {upward : List Nat} (hupward : cutEdges? s.partition (s.partition.region r)
      (s.upwardPrice slope (Vec.entry x r)) (s.partition.regionEdges r) = .ok upward) :
    s.splitRegion? slope oneCut r =
      let remaining := (s.partition.regionEdges r).filter fun e => !upward.contains e
      if (oneCut || remaining.isEmpty) = true then .ok upward
      else (cutEdges? s.partition (s.partition.region r) (s.downwardPrice slope (Vec.entry x r))
        remaining).map (upward ++ ·) := by
  obtain ⟨hlength, hedges⟩ := not_or.mp hlarge
  have hvalue : s.x.getD #[] = x := by rw [h.iterate]; rfl
  have hedges' : ¬(s.partition.regionEdges r).isEmpty = true := mt List.isEmpty_iff.mp hedges
  rw [splitRegion?]
  dsimp only
  rw [if_neg hlength]
  change (if (s.partition.regionEdges r).isEmpty = true then pure [] else _) = _
  rw [if_neg hedges', hvalue]
  change (cutEdges? s.partition (s.partition.region r) (s.upwardPrice slope (Vec.entry x r))
    (s.partition.regionEdges r) >>= _) = _
  rw [hupward]
  rfl

/-- If nothing is cut upward all edges are cut downward. -/
theorem splitRegion?_of_upward_nil (h : s.IsCuttable x) (oneCut : Bool)
    (hlarge : ¬IsSmall s.partition r) (hupward : cutEdges? s.partition (s.partition.region r)
      (s.upwardPrice slope (Vec.entry x r)) (s.partition.regionEdges r) = .ok []) :
    s.splitRegion? slope oneCut r = if oneCut then .ok []
      else cutEdges? s.partition (s.partition.region r) (s.downwardPrice slope (Vec.entry x r))
        (s.partition.regionEdges r) := by
  have hedges' : ¬(s.partition.regionEdges r).isEmpty = true :=
    mt List.isEmpty_iff.mp (not_or.mp hlarge).2
  have hremaining : (s.partition.regionEdges r).filter (fun e => !([] : List Nat).contains e) =
      s.partition.regionEdges r :=
    List.filter_eq_self.mpr fun _ _ => rfl
  rw [h.splitRegion?_eq oneCut hlarge hupward]
  dsimp only
  rw [hremaining]
  cases oneCut with
  | true => rfl
  | false =>
      simp only [Bool.false_or, Bool.false_eq_true, if_false, if_neg hedges']
      cases cutEdges? s.partition (s.partition.region r) (s.downwardPrice slope (Vec.entry x r))
        (s.partition.regionEdges r) <;> rfl

/-- Nothing is found in a region only if nothing is cut upward. -/
theorem upward_eq_nil (h : s.IsCuttable x) {oneCut : Bool} (hlarge : ¬IsSmall s.partition r)
    {upward : List Nat} (hupward : cutEdges? s.partition (s.partition.region r)
      (s.upwardPrice slope (Vec.entry x r)) (s.partition.regionEdges r) = .ok upward)
    (hnone : s.splitRegion? slope oneCut r = .ok []) : upward = [] := by
  rw [h.splitRegion?_eq oneCut hlarge hupward] at hnone
  dsimp only at hnone
  split at hnone
  next => exact Except.ok.inj hnone
  next =>
    obtain ⟨downward, -, happend⟩ := map_eq_ok.mp hnone
    exact (List.append_eq_nil_iff.mp happend).1

/-- If nothing is found in a region, no part of it moves with a negative slope, unless the whole
region does. -/
theorem parts_nonneg_of_splitRegion?_eq_nil (h : s.IsCuttable x) (hr : r < s.partition.regionCount)
    (hnone : s.splitRegion? slope s.needsOneCut r = .ok [])
    (hup : (∀ v ∈ s.partition.members r, ¬s.AtUpper x v) →
      0 ≤ s.partition.cutSlope (s.upwardCost x slope) (Partition.ones (s.partition.members r)))
    (hdown : (∀ v ∈ s.partition.members r, ¬s.AtLower x v) →
      0 ≤ s.partition.cutSlope (s.downwardCost x slope)
        (Partition.ones (s.partition.members r))) :
    (∀ U ⊆ s.partition.members r, (∀ v ∈ U, ¬s.AtUpper x v) →
        0 ≤ s.partition.cutSlope (s.upwardCost x slope) (Partition.ones U)) ∧
      ∀ U ⊆ s.partition.members r, (∀ v ∈ U, ¬s.AtLower x v) →
        0 ≤ s.partition.cutSlope (s.downwardCost x slope) (Partition.ones U) := by
  by_cases hsmall : IsSmall s.partition r
  · constructor
    · intro U hU hfree
      rcases h.eq_empty_or_eq_of_small hr hsmall hU with rfl | rfl
      · rw [Partition.cutSlope_empty]
      · exact hup hfree
    · intro U hU hfree
      rcases h.eq_empty_or_eq_of_small hr hsmall hU with rfl | rfl
      · rw [Partition.cutSlope_empty]
      · exact hdown hfree
  · obtain ⟨U, hU, -, hcutUp⟩ := h.upward_cut hr slope
    have hnil := h.upward_eq_nil hsmall hcutUp hnone
    have hupward := hU.nonneg
      (h.consistent.eq_empty_or_eq_of_filter_eq_nil hr hU.subset hnil) hup
    refine ⟨hupward, ?_⟩
    rw [hnil] at hcutUp
    rw [h.splitRegion?_of_upward_nil _ hsmall hcutUp] at hnone
    cases hone : s.needsOneCut with
    | false =>
        obtain ⟨D, hD, -, hcutDown⟩ := h.downward_cut hr slope
        rw [hone, if_neg Bool.false_ne_true, hcutDown] at hnone
        exact hD.nonneg (h.consistent.eq_empty_or_eq_of_filter_eq_nil hr hD.subset
          (Except.ok.inj hnone)) hdown
    | true =>
        -- There was no downward cut: the rest of a part that moves down moves up instead.
        have hnobound := not_at_bound_of_needsOneCut hone x
        have htargets := (hnobound 0).1
        have hwholeDown := hdown fun v _ => (hnobound v).2.1
        rw [h.cutSlope_downward_eq htargets subset_rfl, Finset.sdiff_self,
          Partition.cutSlope_empty] at hwholeDown
        intro V hV _
        rw [h.cutSlope_downward_eq htargets hV]
        have hrest := hupward (s.partition.members r \ V) Finset.sdiff_subset
          fun v _ => (hnobound v).2.2
        linarith

end IsCuttable

/-- The least of the cheapest parts of a region that may move up is no proper part of it, and
neither is the largest of those that may move down, where that is not the same. -/
structure KeepsTogether (s : Solver K) (x slope : Vec K) (r : Nat) : Prop where
  upward : ∀ U, IsCheapest s.partition r (s.upwardCost x slope) (s.AtUpper x) U →
    (∀ V, IsCheapest s.partition r (s.upwardCost x slope) (s.AtUpper x) V → U ⊆ V) →
      U = ∅ ∨ U = s.partition.members r
  downward : s.needsOneCut = false →
    ∀ U, IsCheapest s.partition r (s.downwardCost x slope) (s.AtLower x) U →
      (∀ V, IsCheapest s.partition r (s.downwardCost x slope) (s.AtLower x) V → V ⊆ U) →
        U = ∅ ∨ U = s.partition.members r

namespace IsCuttable

/-- Nothing is found in a region exactly if no cheapest part takes it apart. -/
theorem splitRegion?_eq_nil_iff (h : s.IsCuttable x) (hr : r < s.partition.regionCount) :
    s.splitRegion? slope s.needsOneCut r = .ok [] ↔ s.KeepsTogether x slope r := by
  by_cases hsmall : IsSmall s.partition r
  · exact iff_of_true (splitRegion?_of_small _ hsmall)
      ⟨fun U hU _ => h.eq_empty_or_eq_of_small hr hsmall hU.subset,
        fun _ U hU _ => h.eq_empty_or_eq_of_small hr hsmall hU.subset⟩
  obtain ⟨U, hU, hleast, hcutUp⟩ := h.upward_cut hr slope
  obtain ⟨D, hD, hlargest, hcutDown⟩ := h.downward_cut hr slope
  constructor
  · intro hnone
    have hnil := h.upward_eq_nil hsmall hcutUp hnone
    refine ⟨fun U' hU' hleast' => ?_, fun hone D' hD' hlargest' => ?_⟩
    · rw [Finset.Subset.antisymm (hleast' U hU) (hleast U' hU')]
      exact (h.consistent.filter_leaves_eq_nil_iff hr hU.subset).mp hnil
    · rw [hnil] at hcutUp
      rw [h.splitRegion?_of_upward_nil _ hsmall hcutUp, hone, if_neg Bool.false_ne_true,
        hcutDown] at hnone
      rw [Finset.Subset.antisymm (hlargest D' hD') (hlargest' D hD)]
      exact (h.consistent.filter_leaves_eq_nil_iff hr hD.subset).mp (Except.ok.inj hnone)
  · intro htogether
    have hnil := (h.consistent.filter_leaves_eq_nil_iff hr hU.subset).mpr
      (htogether.upward U hU hleast)
    rw [hnil] at hcutUp
    rw [h.splitRegion?_of_upward_nil _ hsmall hcutUp]
    cases hone : s.needsOneCut with
    | true => rfl
    | false =>
        rw [if_neg Bool.false_ne_true, hcutDown]
        exact congrArg Except.ok ((h.consistent.filter_leaves_eq_nil_iff hr hD.subset).mpr
          (htogether.downward hone D hD hlargest))

end IsCuttable
end Solver
end TotalVariation
