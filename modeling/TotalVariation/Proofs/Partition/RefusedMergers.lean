import Mathlib
import TotalVariation.Proofs.Partition.MergedRegions

/-! # Refused mergers

A merger may be given fewer values than there are regions. Where a region that has a neighbour lacks
its value, the merger is refused before anything changes. Where only regions without neighbours lack
theirs, it is refused after the boundaries between close values were opened. Then the regions are
those from before, but they are no longer the components of the inactive edges.
-/

namespace TotalVariation.Partition

variable {K : Type} [ExactField K] {P Q : Partition K} {x : Vec K} {tolerance : K}

/-- Some region that has a neighbour has none of `n` values. -/
def LacksNeighbour (P : Partition K) (n : Nat) : Prop :=
  ∃ a b, (a, b) ∈ P.reducedEdges ∧ (n ≤ a ∨ n ≤ b)

/-! ## The outcomes -/

omit [ExactField K] in
theorem lacksNeighbour_iff {n : Nat} :
    P.LacksNeighbour n ↔ (P.reducedEdges.any fun p => n ≤ p.1 ∨ n ≤ p.2) = true := by
  simp only [LacksNeighbour, Array.any_eq_true', Prod.exists, decide_eq_true_eq]

/-- A merger is refused as it begins where a region that has a neighbour lacks its value. -/
theorem LacksNeighbour.merge?_eq (h : P.LacksNeighbour x.size) (tolerance : K) :
    P.merge? x tolerance = (P, .error .indexRange) := by
  rw [merge?, if_pos (lacksNeighbour_iff.mp h)]

namespace IsUpToDate

/-- The last of too few values leaves a region without one. -/
theorem not_covers (h : P.IsUpToDate) {n : Nat} (hn : n < P.regionCount) : ¬P.covers n = true := by
  obtain ⟨hlt, hregion⟩ := h.regionOf_representative hn
  have hsize : P.representative n < P.assignment.size := h.assignment_size ▸ hlt
  have hvalue : P.assignment[P.representative n] = n := by simpa [regionOf, hsize] using hregion
  intro hcovers
  have hmem := Array.all_eq_true'.mp hcovers _ (Array.getElem_mem hsize)
  rw [hvalue] at hmem
  exact lt_irrefl n (of_decide_eq_true hmem)

variable (h : P.IsUpToDate) (hx : x.size < P.regionCount)

include h hx

/-- Where the regions that have neighbours have values, a merger with too few values is refused
exactly if it has found close ones, and has opened their boundaries by then. -/
theorem merge?_eq_of_not_lacksNeighbour (hvalued : ¬P.LacksNeighbour x.size) (tolerance : K) :
    ((∀ a b, ¬P.JoinsClose x tolerance a b) → P.merge? x tolerance = (P, .ok (x, 0))) ∧
      ((∃ a b, P.JoinsClose x tolerance a b) → P.merge? x tolerance =
        (P.openGroups (P.closePairs x tolerance), .error .indexRange)) := by
  rw [merge?, if_neg (mt lacksNeighbour_iff.mpr hvalued)]
  dsimp only
  rw [if_neg (h.not_covers hx)]
  constructor
  · intro hnone
    rw [if_pos (List.isEmpty_iff.mpr (closePairs_eq_nil_iff.mpr hnone))]
  · rintro ⟨a, b, hab⟩
    rw [if_neg fun hempty => closePairs_eq_nil_iff.mp (List.isEmpty_iff.mp hempty) a b hab]

/-- A merger with too few values is refused where a region that has a neighbour lacks its value, and
where neighbours are close. -/
theorem merge?_refused_iff : (∃ f, (P.merge? x tolerance).2 = .error f) ↔
    P.LacksNeighbour x.size ∨ ∃ a b, P.JoinsClose x tolerance a b := by
  by_cases hlacks : P.LacksNeighbour x.size
  · rw [hlacks.merge?_eq]
    exact iff_of_true ⟨_, rfl⟩ (.inl hlacks)
  · obtain ⟨hnone, hsome⟩ := h.merge?_eq_of_not_lacksNeighbour hx hlacks tolerance
    by_cases hclose : ∃ a b, P.JoinsClose x tolerance a b
    · rw [hsome hclose]
      exact iff_of_true ⟨_, rfl⟩ (.inr hclose)
    · rw [hnone fun a b hab => hclose ⟨a, b, hab⟩]
      exact iff_of_false (by rintro ⟨f, hf⟩; cases hf) (not_or.mpr ⟨hlacks, hclose⟩)

end IsUpToDate

/-! ## What the opened boundaries leave -/

namespace IsUpToDate

variable (h : P.IsUpToDate)

include h

/-- The boundaries that opening close pairs leaves are those that no chain of them bridges. -/
theorem openGroups_isActive_iff {e : Nat} (he : e < P.edgeCount) :
    (P.openGroups (P.closePairs x tolerance)).isActive e = true ↔ P.isActive e = true ∧
      ¬P.Chained x tolerance (P.regionOf (P.graph.tailOf e)) (P.regionOf (P.graph.headOf e)) := by
  rw [openGroups_isActive, ← linked_closePairs_iff, ← Components.labelOf_labels_eq_iff
    (h.closePairs_lt x tolerance) (h.regionOf_lt (h.graph_valid.tail_lt e he))
    (h.regionOf_lt (h.graph_valid.head_lt e he)), or_iff_right (Nat.not_le.mpr he)]

/-- Once a boundary between two regions is open, they are not the components of the inactive
edges. -/
theorem not_isComponentwise_openGroups {a b : Nat} (hab : P.JoinsClose x tolerance a b) :
    ¬(P.openGroups (P.closePairs x tolerance)).IsComponentwise := by
  obtain ⟨hlt, e, he, hjoin⟩ := (h.mem_reducedEdges a b).mp hab.1
  have hchained : P.Chained x tolerance (P.regionOf (P.graph.tailOf e))
      (P.regionOf (P.graph.headOf e)) :=
    linked_closePairs_iff.mp (linked_of_joins (mem_closePairs_iff.mpr hab) hjoin)
  have hopen : (P.openGroups (P.closePairs x tolerance)).isActive e = false := by
    rw [Bool.eq_false_iff, ne_eq, h.openGroups_isActive_iff he, not_and_not_right]
    exact fun _ => hchained
  exact fun hcomponents => separates_iff.mp (separates_of_joins hlt hjoin)
    (hcomponents.regionOf_eq_of_inactive he hopen)

/-- A merger with fewer values than regions is refused where a region that has a neighbour lacks its
value, and where neighbours are close. The partition stays as it was in the first case alone. In the
second the boundaries that chains of close values bridge are open, while all the rest stays: regions
are left that are not the components of the inactive edges. -/
theorem merge?_unchanged_iff (hx : x.size < P.regionCount) (tolerance : K) :
    ((∃ f, (P.merge? x tolerance).2 = .error f) ↔
      P.LacksNeighbour x.size ∨ ∃ a b, P.JoinsClose x tolerance a b) ∧
    ∀ Q f, P.merge? x tolerance = (Q, .error f) → f = .indexRange ∧
      (Q = P ↔ P.LacksNeighbour x.size) ∧ (Q.IsComponentwise ↔ P.LacksNeighbour x.size) ∧
      Q = { P with active := Q.active } ∧
      ∀ e < P.edgeCount, Q.isActive e = true ↔ P.isActive e = true ∧ (P.LacksNeighbour x.size ∨
        ¬P.Chained x tolerance (P.regionOf (P.graph.tailOf e))
          (P.regionOf (P.graph.headOf e))) := by
  refine ⟨h.merge?_refused_iff hx, fun Q f hrefused => ?_⟩
  by_cases hlacks : P.LacksNeighbour x.size
  · rw [hlacks.merge?_eq] at hrefused
    obtain ⟨rfl, hf⟩ := Prod.mk.inj hrefused
    exact ⟨(Except.error.inj hf).symm, iff_of_true rfl hlacks,
      iff_of_true h.toIsConsistent.isComponentwise hlacks, rfl,
      fun e _ => (and_iff_left (.inl hlacks)).symm⟩
  · have hclose : ∃ a b, P.JoinsClose x tolerance a b :=
      ((h.merge?_refused_iff hx).mp ⟨f, by rw [hrefused]⟩).resolve_left hlacks
    rw [(h.merge?_eq_of_not_lacksNeighbour hx hlacks tolerance).2 hclose] at hrefused
    obtain ⟨rfl, hf⟩ := Prod.mk.inj hrefused
    obtain ⟨a, b, hab⟩ := hclose
    have hbroken := h.not_isComponentwise_openGroups hab
    refine ⟨(Except.error.inj hf).symm, iff_of_false (fun hsame => hbroken ?_) hlacks,
      iff_of_false hbroken hlacks, rfl, fun e he => ?_⟩
    · rw [hsame]
      exact h.toIsConsistent.isComponentwise
    · rw [h.openGroups_isActive_iff he, or_iff_right hlacks]

end IsUpToDate

/-- Three vertices on a path and one without neighbours, each a region. -/
def pathAndPoint : Partition ℚ :=
  ((whole ⟨#[0, 1, 2, 2, 2], #[0, 1], #[1, 2]⟩ ⟨none, 1⟩).setActive [0, 1] true).rebuild.reduceGraph

theorem isUpToDate_pathAndPoint : pathAndPoint.IsUpToDate := by
  have hwhole : ofIndex? #[0, 1, 2, 2, 2] #[1, 2] none (1 : ℚ) =
      .ok (whole ⟨#[0, 1, 2, 2, 2], #[0, 1], #[1, 2]⟩ ⟨none, 1⟩) := by with_unfolding_all rfl
  exact ((isArranged_of_ofIndex? hwhole).setActive _ _).isUpToDate_rebuild

/-- Without a value for the end of the path nothing changes; with one, a boundary is opened. -/
theorem merge?_unchanged_iff_pathAndPoint :
    pathAndPoint.IsUpToDate ∧ pathAndPoint.regionCount = 4 ∧
      pathAndPoint.LacksNeighbour 2 ∧ ¬pathAndPoint.LacksNeighbour 3 ∧
      (∃ f, (pathAndPoint.merge? #[1, 1] 0).2 = .error f) ∧
      (pathAndPoint.merge? #[1, 1] 0).1 = pathAndPoint ∧
      (∃ f, (pathAndPoint.merge? #[1, 1, 5] 0).2 = .error f) ∧
      ¬(pathAndPoint.merge? #[1, 1, 5] 0).1.IsComponentwise := by
  have hcount : pathAndPoint.regionCount = 4 := by decide +kernel
  have htwo : pathAndPoint.LacksNeighbour 2 := lacksNeighbour_iff.mpr (by decide +kernel)
  have hthree : ¬pathAndPoint.LacksNeighbour 3 := mt lacksNeighbour_iff.mp (by decide +kernel)
  have hclose : ∃ a b, pathAndPoint.JoinsClose #[1, 1, 5] 0 a b :=
    ⟨0, 1, mem_closePairs_iff.mp (by decide +kernel)⟩
  obtain ⟨hrefused, hleft⟩ :=
    isUpToDate_pathAndPoint.merge?_unchanged_iff (x := #[1, 1]) (by rw [hcount]; decide) 0
  obtain ⟨hrefused', hleft'⟩ :=
    isUpToDate_pathAndPoint.merge?_unchanged_iff (x := #[1, 1, 5]) (by rw [hcount]; decide) 0
  obtain ⟨f, hf⟩ := hrefused.mpr (.inl htwo)
  obtain ⟨f', hf'⟩ := hrefused'.mpr (.inr hclose)
  exact ⟨isUpToDate_pathAndPoint, hcount, htwo, hthree, ⟨f, hf⟩,
    (hleft _ f (Prod.ext rfl hf)).2.1.mpr htwo, ⟨f', hf'⟩,
    fun hcomponents => hthree ((hleft' _ f' (Prod.ext rfl hf')).2.2.1.mp hcomponents)⟩

/-- With values for the path alone a merger without tolerance is refused, and leaves the boundary
between the two equal values open. -/
theorem not_merge?_unchanged_pathAndPoint :
    pathAndPoint.IsUpToDate ∧ (#[1, 1, 5] : Vec ℚ).size < pathAndPoint.regionCount ∧
      (pathAndPoint.merge? #[1, 1, 5] 0).2 = .error .indexRange ∧
      pathAndPoint.active = #[true, true] ∧
      (pathAndPoint.merge? #[1, 1, 5] 0).1.active = #[false, true] ∧
      (pathAndPoint.merge? #[1, 1, 5] 0).1 ≠ pathAndPoint := by
  have hcount : (#[1, 1, 5] : Vec ℚ).size < pathAndPoint.regionCount := by decide +kernel
  have hvalued : ¬pathAndPoint.LacksNeighbour (#[1, 1, 5] : Vec ℚ).size :=
    mt lacksNeighbour_iff.mp (by decide +kernel)
  have hclose : pathAndPoint.JoinsClose #[1, 1, 5] 0 0 1 :=
    mem_closePairs_iff.mp (by decide +kernel)
  have hrefused :=
    (isUpToDate_pathAndPoint.merge?_eq_of_not_lacksNeighbour hcount hvalued 0).2 ⟨0, 1, hclose⟩
  have hactive : pathAndPoint.active = #[true, true] := by decide +kernel
  have hopened : (pathAndPoint.merge? #[1, 1, 5] 0).1.active = #[false, true] := by decide +kernel
  refine ⟨isUpToDate_pathAndPoint, hcount, by rw [hrefused], hactive, hopened, fun hsame => ?_⟩
  rw [hsame, hactive] at hopened
  exact absurd hopened (by decide)

end TotalVariation.Partition
