import Mathlib
import TotalVariation.Proofs.Partition.Finer

/-! # Which marks are carried

A rebuilt region takes the marks of the last former region whose first vertex it has and that had as
many vertices. A former region that is there again is always this one. But where edges were marked
and others unmarked before the rebuilding, a region may have lost some vertices and won as many
others; it then looks unchanged and carries its marks, although they were set for other vertices.
-/

namespace TotalVariation.Partition

variable {α : Type} {P Q : Partition α}

/-- The former region whose marks a rebuilt region takes. -/
structure IsMarkSource (P : Partition α) (r o : Nat) : Prop where
  lt : o < P.regionCount
  looksUnchanged : LooksUnchanged P.regions P.rebuild.regions P.rebuild.regionOf r o
  last : ∀ p < P.regionCount,
    LooksUnchanged P.regions P.rebuild.regions P.rebuild.regionOf r p → p ≤ o

/-- Exactly those rebuilt regions have a mark whose vertices were a region with that mark. -/
def MarksByVertices (P : Partition α) (former rebuilt : Nat → Bool) : Prop :=
  ∀ r < P.rebuild.regionCount, rebuilt r = true ↔
    ∃ o < P.regionCount, former o = true ∧ ∀ v, v ∈ P.rebuild.region r ↔ v ∈ P.region o

theorem IsMarkSource.unique {r o p : Nat} (ho : P.IsMarkSource r o) (hp : P.IsMarkSource r p) :
    o = p :=
  le_antisymm (hp.last o ho.lt ho.looksUnchanged) (ho.last p hp.lt hp.looksUnchanged)

theorem getD_carryMarks_iff (P : Partition α) (marks : Array Bool) {r : Nat}
    (hr : r < P.rebuild.regionCount) :
    (carryMarks P.regions marks P.rebuild.regionOf P.rebuild.regions).getD r false = true ↔
      ∃ o, P.IsMarkSource r o ∧ marks.getD o false = true := by
  rw [carryMarks_eq_true_iff hr]
  constructor
  · rintro ⟨o, ho, hlooks, hlast, hmark⟩
    exact ⟨o, ⟨ho, hlooks, hlast⟩, hmark⟩
  · rintro ⟨o, hsource, hmark⟩
    exact ⟨o, hsource.lt, hsource.looksUnchanged, hsource.last, hmark⟩

namespace IsArranged

variable (h : P.IsArranged) (hindexed : P.IsIndexed)

include h

/-- A rebuilt region and a former one with the same vertices list them alike. -/
theorem rebuild_region_eq_region {r o : Nat}
    (hsame : ∀ v, v ∈ P.rebuild.region r ↔ v ∈ P.region o) : P.rebuild.region r = P.region o :=
  h.eq_of_sublist (P.rebuild_region_sublist_arena r) (P.region_sublist_arena o) hsame

/-- As many vertices among which are all of a former region are that region. -/
theorem mem_region_iff_of_isMarkSource {r o : Nat} (hsource : P.IsMarkSource r o)
    (hstay : ∀ v ∈ P.region o, v ∈ P.rebuild.region r) (v : Nat) :
    v ∈ P.rebuild.region r ↔ v ∈ P.region o := by
  rw [eq_of_subset_of_length_eq h.nodup_arena (P.region_sublist_arena o)
    (P.rebuild_region_sublist_arena r) hstay hsource.looksUnchanged.2.symm]

include hindexed

/-- A former region that is there again gives its marks to itself. -/
theorem isMarkSource_of_mem_iff {r o : Nat} (hr : r < P.rebuild.regionCount)
    (ho : o < P.regionCount) (hsame : ∀ v, v ∈ P.rebuild.region r ↔ v ∈ P.region o) :
    P.IsMarkSource r o := by
  have heq := h.rebuild_region_eq_region hsame
  refine ⟨ho, (h.looksUnchanged_iff hindexed hr ho ho heq).mpr rfl, fun p hp hlooks => ?_⟩
  exact ((h.looksUnchanged_iff hindexed hr ho hp heq).mp hlooks).le

/-- Marks are carried by vertices exactly if each region that has a mark and looks unchanged keeps
its vertices. -/
theorem marksByVertices_carryMarks_iff (marks : Array Bool) :
    P.MarksByVertices (fun o => marks.getD o false)
        (fun r => (carryMarks P.regions marks P.rebuild.regionOf P.rebuild.regions).getD r false) ↔
      ∀ r < P.rebuild.regionCount, ∀ o, P.IsMarkSource r o → marks.getD o false = true →
        ∀ v ∈ P.region o, v ∈ P.rebuild.region r := by
  constructor
  · intro hmarks r hr o hsource hmark v hv
    obtain ⟨p, hp, -, hsame⟩ :=
      (hmarks r hr).mp ((P.getD_carryMarks_iff marks hr).mpr ⟨o, hsource, hmark⟩)
    obtain rfl := hsource.unique (h.isMarkSource_of_mem_iff hindexed hr hp hsame)
    exact (hsame v).mpr hv
  · intro hstay r hr
    rw [P.getD_carryMarks_iff marks hr]
    constructor
    · rintro ⟨o, hsource, hmark⟩
      exact ⟨o, hsource.lt, hmark,
        h.mem_region_iff_of_isMarkSource hsource (hstay r hr o hsource hmark)⟩
    · rintro ⟨o, ho, hmark, hsame⟩
      exact ⟨o, h.isMarkSource_of_mem_iff hindexed hr ho hsame, hmark⟩

end IsArranged

/-- Where edges were only marked, or only unmarked, since the regions were the components,
rebuilding makes them finer, or coarser. -/
theorem IsArranged.isFiner_or_isFiner (h : P.IsArranged) (hQ : Q.IsComponentwise)
    (hgraph : P.graph = Q.graph) (hassignment : P.assignment = Q.assignment)
    (hactive : (∀ e < P.edgeCount, Q.isActive e = true → P.isActive e = true) ∨
      ∀ e < P.edgeCount, P.isActive e = true → Q.isActive e = true) :
    P.rebuild.IsFiner P ∨ P.IsFiner P.rebuild := by
  have hregionOf (v : Nat) : P.regionOf v = Q.regionOf v := by
    rw [regionOf, hassignment, regionOf]
  have hvertices : P.vertexCount = Q.vertexCount := by rw [vertexCount, hgraph, vertexCount]
  have hedges : P.edgeCount = Q.edgeCount := by rw [edgeCount, hgraph, edgeCount]
  refine hactive.imp (fun hmarked u hu v hv huv => ?_) fun hunmarked u hu v hv huv => ?_
  · rw [hregionOf, hregionOf, hQ.regionOf_eq_iff u (hvertices ▸ hu) v (hvertices ▸ hv)]
    refine connected_of_inactive_imp ((h.rebuild_regionOf_eq_iff hu hv).mp huv) hgraph.symm
      fun e he hopen => ?_
    exact Bool.eq_false_iff.mpr fun hformer => by simp [hmarked e he hformer] at hopen
  · rw [hregionOf, hregionOf, hQ.regionOf_eq_iff u (hvertices ▸ hu) v (hvertices ▸ hv)] at huv
    refine (h.rebuild_regionOf_eq_iff hu hv).mpr
      (connected_of_inactive_imp huv hgraph fun e he hopen => ?_)
    exact Bool.eq_false_iff.mpr fun hnow => by simp [hunmarked e (hedges ▸ he) hnow] at hopen

/-- Marking and unmarking edges and regions leaves a partition as arranged as it was. -/
theorem IsComponentwise.remarked (hQ : Q.IsComponentwise) {active : Array Bool}
    (hsize : active.size = Q.edgeCount) (saturated medianCached : Array Bool) :
    IsArranged { Q with active, saturated, medianCached } ∧
      IsIndexed { Q with active, saturated, medianCached } :=
  ⟨⟨hQ.graph_valid, hsize, hQ.arena_perm, hQ.region_ne_nil⟩, hQ.indexed⟩

/-- Which marks a rebuilding leaves, whatever edges were marked and unmarked before. Each rebuilt
region takes those of its source; so the marks are those of unchanged vertices exactly if every
source with a mark keeps its vertices. Where edges were only marked or only unmarked, they always
are. -/
theorem IsArranged.rebuild_marksByVertices_iff (h : P.IsArranged) (hindexed : P.IsIndexed) :
    (∀ r < P.rebuild.regionCount,
      (P.rebuild.isSaturated r = true ↔ ∃ o, P.IsMarkSource r o ∧ P.isSaturated o = true) ∧
      (P.rebuild.isMedianCached r = true ↔ ∃ o, P.IsMarkSource r o ∧ P.isMedianCached o = true)) ∧
    (P.MarksByVertices P.isSaturated P.rebuild.isSaturated ↔
      ∀ r < P.rebuild.regionCount, ∀ o, P.IsMarkSource r o → P.isSaturated o = true →
        ∀ v ∈ P.region o, v ∈ P.rebuild.region r) ∧
    (P.MarksByVertices P.isMedianCached P.rebuild.isMedianCached ↔
      ∀ r < P.rebuild.regionCount, ∀ o, P.IsMarkSource r o → P.isMedianCached o = true →
        ∀ v ∈ P.region o, v ∈ P.rebuild.region r) ∧
    ∀ Q : Partition α, Q.IsComponentwise → P.graph = Q.graph → P.assignment = Q.assignment →
      ((∀ e < P.edgeCount, Q.isActive e = true → P.isActive e = true) ∨
        ∀ e < P.edgeCount, P.isActive e = true → Q.isActive e = true) →
      P.MarksByVertices P.isSaturated P.rebuild.isSaturated ∧
        P.MarksByVertices P.isMedianCached P.rebuild.isMedianCached := by
  have hsaturated := h.marksByVertices_carryMarks_iff hindexed P.saturated
  have hcached := h.marksByVertices_carryMarks_iff hindexed P.medianCached
  refine ⟨fun r hr => ⟨P.getD_carryMarks_iff _ hr, P.getD_carryMarks_iff _ hr⟩, hsaturated, hcached,
    fun Q hQ hgraph hassignment hactive => ?_⟩
  have hstay : ∀ r < P.rebuild.regionCount, ∀ o, P.IsMarkSource r o →
      ∀ v ∈ P.region o, v ∈ P.rebuild.region r := by
    intro r hr o hsource v hv
    have hcomparable := h.isFiner_or_isFiner hQ hgraph hassignment hactive
    rwa [h.region_eq_of_looksUnchanged hindexed hcomparable hr hsource.lt hsource.looksUnchanged]
  exact ⟨hsaturated.mpr fun r hr o hsource _ => hstay r hr o hsource,
    hcached.mpr fun r hr o hsource _ => hstay r hr o hsource⟩

/-- Six vertices on a path, in three regions of two. The first two have marks; since then the last
boundary was unmarked and the last edge marked. -/
def shiftedEnd : Partition ℚ :=
  { ((Partition.whole ⟨#[0, 1, 2, 3, 4, 5, 5], #[0, 1, 2, 3, 4], #[1, 2, 3, 4, 5]⟩
      ⟨none, 1⟩).setActive [1, 3] true).rebuild with
    saturated := #[true, true, false]
    medianCached := #[true, false, true]
    active := #[false, true, false, false, true] }

theorem isArranged_shiftedEnd : shiftedEnd.IsArranged ∧ shiftedEnd.IsIndexed := by
  have hwhole : Partition.ofIndex? #[0, 1, 2, 3, 4, 5, 5] #[1, 2, 3, 4, 5] none (1 : ℚ) =
      .ok (.whole ⟨#[0, 1, 2, 3, 4, 5, 5], #[0, 1, 2, 3, 4], #[1, 2, 3, 4, 5]⟩ ⟨none, 1⟩) := by
    with_unfolding_all rfl
  exact ((isArranged_of_ofIndex? hwhole).setActive [1, 3] true).isComponentwise_rebuild.remarked
    rfl _ _

/-- The first region is there again and keeps its marks; the second grew and lost its mark. -/
theorem rebuild_marksByVertices_shiftedEnd :
    shiftedEnd.IsArranged ∧ shiftedEnd.IsIndexed ∧
      shiftedEnd.regions = [[0, 1], [2, 3], [4, 5]] ∧
      shiftedEnd.rebuild.regions = [[0, 1], [2, 3, 4], [5]] ∧
      shiftedEnd.rebuild.saturated = #[true, false, false] ∧
      shiftedEnd.MarksByVertices shiftedEnd.isSaturated shiftedEnd.rebuild.isSaturated := by
  obtain ⟨harranged, hindexed⟩ := isArranged_shiftedEnd
  refine ⟨harranged, hindexed, by decide +kernel, by decide +kernel, by decide +kernel, ?_⟩
  refine (harranged.rebuild_marksByVertices_iff hindexed).2.1.mpr fun r hr o hsource _ v hv => ?_
  have hcheck : ∀ o < shiftedEnd.regionCount, (shiftedEnd.rebuild.region
      (shiftedEnd.rebuild.regionOf (shiftedEnd.representative o))).length =
        (shiftedEnd.region o).length → ∀ v ∈ shiftedEnd.region o, v ∈ shiftedEnd.rebuild.region
          (shiftedEnd.rebuild.regionOf (shiftedEnd.representative o)) := by decide +kernel
  obtain ⟨hhead, hlength⟩ := hsource.looksUnchanged
  obtain rfl : shiftedEnd.rebuild.regionOf (shiftedEnd.representative o) = r := hhead
  exact hcheck o hsource.lt hlength v hv

/-- Three vertices on a path that starts in the middle. The middle was in one region with the one
end, which had marks; since then that edge was marked and the other unmarked. -/
def swappedEnds : Partition ℚ :=
  { ((Partition.whole ⟨#[0, 2, 2, 2], #[0, 0], #[1, 2]⟩ ⟨none, 1⟩).setActive [1] true).rebuild with
    saturated := #[true, false]
    medianCached := #[true, false]
    active := #[true, false] }

theorem isArranged_swappedEnds : swappedEnds.IsArranged ∧ swappedEnds.IsIndexed := by
  have hwhole : Partition.ofIndex? #[0, 2, 2, 2] #[1, 2] none (1 : ℚ) =
      .ok (.whole ⟨#[0, 2, 2, 2], #[0, 0], #[1, 2]⟩ ⟨none, 1⟩) := by with_unfolding_all rfl
  exact ((isArranged_of_ofIndex? hwhole).setActive [1] true).isComponentwise_rebuild.remarked rfl _ _

/-- The middle is now in one region with the other end, and this region has the marks. -/
theorem not_marksByVertices_swappedEnds :
    swappedEnds.IsArranged ∧ swappedEnds.IsIndexed ∧ swappedEnds.regions = [[0, 1], [2]] ∧
      swappedEnds.rebuild.regions = [[0, 2], [1]] ∧
      swappedEnds.rebuild.saturated = #[true, false] ∧
      swappedEnds.rebuild.medianCached = #[true, false] ∧
      ¬swappedEnds.MarksByVertices swappedEnds.isSaturated swappedEnds.rebuild.isSaturated ∧
      ¬swappedEnds.MarksByVertices swappedEnds.isMedianCached
        swappedEnds.rebuild.isMedianCached := by
  have hnone {former : Nat → Bool} (hone : former 1 = false) :
      ¬∃ o < swappedEnds.regionCount, former o = true ∧
        ∀ v, v ∈ swappedEnds.rebuild.region 0 ↔ v ∈ swappedEnds.region o := by
    rintro ⟨o, ho, hmark, hsame⟩
    have hin : 2 ∈ swappedEnds.region o := (hsame 2).mp (by decide +kernel)
    have hother : ∀ o < swappedEnds.regionCount, 2 ∈ swappedEnds.region o → o = 1 := by
      decide +kernel
    rw [hother o ho hin, hone] at hmark
    cases hmark
  refine ⟨isArranged_swappedEnds.1, isArranged_swappedEnds.2, by decide +kernel, by decide +kernel,
    by decide +kernel, by decide +kernel, fun hmarks => ?_, fun hmarks => ?_⟩
  · exact hnone (by decide +kernel) ((hmarks 0 (by decide +kernel)).mp (by decide +kernel))
  · exact hnone (by decide +kernel) ((hmarks 0 (by decide +kernel)).mp (by decide +kernel))

end TotalVariation.Partition
