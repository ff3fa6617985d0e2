import Mathlib
import TotalVariation.Proofs.Partition.Merge
import TotalVariation.Proofs.Partition.Reduced

/-! # The regions that a merger leaves

On a partition that is up to date a merger is never refused. If no edge of the graph of the regions
joins close values it does nothing. Otherwise the regions that chains of such edges join become one;
the regions that no chain joins to another keep their vertices, their order and their marks.
-/

namespace TotalVariation.Partition

open Components (Linked)

variable {K : Type} [ExactField K] {P Q : Partition K} {x y : Vec K} {tolerance : K} {merged : Int}

/-! ## Chains of close values -/

/-- An edge of the graph of the regions joins two regions with close values. -/
def JoinsClose (P : Partition K) (x : Vec K) (tolerance : K) (a b : Nat) : Prop :=
  (a, b) ∈ P.reducedEdges ∧
    |Vec.entry x a - Vec.entry x b| ≤ tolerance * max |Vec.entry x a| |Vec.entry x b|

/-- A chain of edges that join close values joins two regions. -/
abbrev Chained (P : Partition K) (x : Vec K) (tolerance : K) : Nat → Nat → Prop :=
  Relation.EqvGen (P.JoinsClose x tolerance)

/-- No chain of close values joins a region to another. -/
def IsAlone (P : Partition K) (x : Vec K) (tolerance : K) (r : Nat) : Prop :=
  ∀ o, P.Chained x tolerance o r → o = r

theorem areClose_iff (tolerance a b : K) :
    areClose tolerance a b = true ↔ |a - b| ≤ tolerance * max |a| |b| := by
  rw [areClose, decide_eq_true_eq, Scalar.abs_eq, Scalar.abs_eq, Scalar.abs_eq, Scalar.max_eq]

theorem mem_closePairs_iff {a b : Nat} :
    (a, b) ∈ P.closePairs x tolerance ↔ P.JoinsClose x tolerance a b := by
  rw [closePairs, List.mem_filter, areClose_iff, Array.mem_toList_iff]
  exact Iff.rfl

theorem closePairs_eq_nil_iff :
    P.closePairs x tolerance = [] ↔ ∀ a b, ¬P.JoinsClose x tolerance a b := by
  rw [List.eq_nil_iff_forall_not_mem, Prod.forall]
  exact forall₂_congr fun _ _ => not_congr mem_closePairs_iff

theorem linked_closePairs_iff {a b : Nat} :
    Linked (P.closePairs x tolerance) a b ↔ P.Chained x tolerance a b := by
  have hrel : (fun a b => (a, b) ∈ P.closePairs x tolerance) = P.JoinsClose x tolerance :=
    funext₂ fun _ _ => propext mem_closePairs_iff
  rw [Linked, hrel]

/-! ## Partitions that are up to date -/

/-- The regions, the arena that lists them, their marks and their graph with its weights all
describe one partition, and every vertex is assigned to a region. -/
structure IsUpToDate (P : Partition K) : Prop extends P.IsCoherent where
  assignment_size : P.assignment.size = P.vertexCount
  reducedWeights : P.HasReducedWeights

/-- Rebuilding the regions and their graph brings a partition up to date. -/
theorem IsArranged.isUpToDate_rebuild (h : P.IsArranged) : P.rebuild.reduceGraph.IsUpToDate where
  toIsCoherent := h.isCoherent_rebuild
  assignment_size := Vec.size_tabulate _ _
  reducedWeights := h.hasReducedWeights

/-! ## The merged regions -/

/-- What merging the regions of `P` along chains of close values leaves: the partition `Q`, the
values `y` of its regions, and the number of regions that went. -/
structure IsMerger (P : Partition K) (x : Vec K) (tolerance : K) (Q : Partition K) (y : Vec K)
    (merged : Int) : Prop where
  /-- The merged partition is up to date, with the graph of the new regions. -/
  isUpToDate : Q.IsUpToDate
  regionOf_eq_iff : ∀ u < P.vertexCount, ∀ v < P.vertexCount,
    Q.regionOf u = Q.regionOf v ↔ P.Chained x tolerance (P.regionOf u) (P.regionOf v)
  merged_eq : merged = P.regionCount - Q.regionCount
  isActive_iff : ∀ e < P.edgeCount, Q.isActive e = true ↔ P.isActive e = true ∧
    ¬P.Chained x tolerance (P.regionOf (P.graph.tailOf e)) (P.regionOf (P.graph.headOf e))
  region_eq : ∀ v < P.vertexCount, P.IsAlone x tolerance (P.regionOf v) →
    Q.region (Q.regionOf v) = P.region (P.regionOf v)
  isSaturated_iff : ∀ v < P.vertexCount, Q.isSaturated (Q.regionOf v) = true ↔
    P.isSaturated (P.regionOf v) = true ∧ P.IsAlone x tolerance (P.regionOf v)
  isMedianCached_iff : ∀ v < P.vertexCount, Q.isMedianCached (Q.regionOf v) = true ↔
    P.isMedianCached (P.regionOf v) = true ∧ P.IsAlone x tolerance (P.regionOf v)
  size_values : y.size = Q.regionCount
  entry_mul_sizeOf : ∀ q < Q.regionCount, Vec.entry y q * (Q.sizeOf q : K) =
    ∑ v ∈ Q.members q, Vec.entry (P.expand x) v
  frame : Q.graph = P.graph ∧ Q.edgeWeights = P.edgeWeights ∧ Q.lastAssignment = P.lastAssignment

/-- The mean over a region, times its size, is the sum over it. -/
theorem IsConsistent.entry_regionMeans_mul (h : P.IsConsistent) (values : Vec K) {r : Nat}
    (hr : r < P.regionCount) :
    Vec.entry (P.regionMeans values) r * (P.sizeOf r : K) = ∑ v ∈ P.members r, Vec.entry values v := by
  have hcard : (0 : K) < (P.sizeOf r : K) := by
    rw [h.sizeOf_eq hr, Nat.cast_pos, Finset.card_pos]
    exact h.members_nonempty hr
  rw [regionMeans, Vec.entry_tabulate, if_pos hr, entry_regionSums P values hr,
    div_mul_cancel₀ _ hcard.ne']

namespace IsUpToDate

/-- The groups that a merger opens are the chains of close values. -/
theorem connected_openGroups_iff (h : P.IsUpToDate) (x : Vec K) (tolerance : K) {u v : Nat}
    (hu : u < P.vertexCount) (hv : v < P.vertexCount) :
    (P.openGroups (P.closePairs x tolerance)).Connected u v ↔
      P.Chained x tolerance (P.regionOf u) (P.regionOf v) := by
  rw [← linked_closePairs_iff]
  exact h.toIsCoherent.connected_openGroups_iff
    (fun _ => mem_reducedEdges_of_mem_closePairs) hu hv

/-- A region is alone exactly if no vertex of another region is chained to it. -/
theorem isAlone_iff (h : P.IsUpToDate) {v : Nat} (hv : v < P.vertexCount) :
    P.IsAlone x tolerance (P.regionOf v) ↔ ∀ u < P.vertexCount,
      (P.Chained x tolerance (P.regionOf u) (P.regionOf v) ↔ P.regionOf u = P.regionOf v) := by
  constructor
  · intro halone u _
    exact ⟨halone _, fun heq => heq ▸ Relation.EqvGen.refl _⟩
  · intro hall o ho
    have hlt : o < P.regionCount :=
      (Components.Linked.lt_iff (h.closePairs_lt x tolerance) (linked_closePairs_iff.mpr ho)).mpr
        (h.regionOf_lt hv)
    obtain ⟨hult, hregion⟩ := h.regionOf_representative hlt
    rw [← hregion] at ho
    exact hregion.symm.trans ((hall _ hult).mp ho)

/-- Merging along chains of close values leaves the regions of the chains. -/
theorem isMerger (h : P.IsUpToDate) (x : Vec K) (tolerance : K) :
    let Q := (P.openGroups (P.closePairs x tolerance)).rebuild.reduceGraph
    P.IsMerger x tolerance Q (Q.regionMeans (P.expand x))
      (Int.ofNat P.regionCount - Int.ofNat Q.regionCount) := by
  intro Q
  have hopened : (P.openGroups (P.closePairs x tolerance)).IsArranged :=
    h.toIsArranged.openGroups _
  have hcoarser : P.IsFiner (P.openGroups (P.closePairs x tolerance)).rebuild :=
    h.isFiner_openGroups _
  have hQ : Q.IsUpToDate := hopened.isUpToDate_rebuild
  have hregion : ∀ u < P.vertexCount, ∀ v < P.vertexCount,
      Q.regionOf u = Q.regionOf v ↔ P.Chained x tolerance (P.regionOf u) (P.regionOf v) :=
    fun u hu v hv => (hopened.rebuild_regionOf_eq_iff hu hv).trans
      (h.connected_openGroups_iff x tolerance hu hv)
  have halone : ∀ v < P.vertexCount, P.IsAlone x tolerance (P.regionOf v) ↔
      ∀ u < P.vertexCount, (Q.regionOf u = Q.regionOf v ↔ P.regionOf u = P.regionOf v) := by
    intro v hv
    rw [h.isAlone_iff hv]
    exact forall₂_congr fun u hu => iff_congr (hregion u hu v hv).symm Iff.rfl
  refine ⟨hQ, hregion, rfl, ?_, ?_, ?_, ?_, Vec.size_tabulate _ _, ?_, rfl, rfl, rfl⟩
  · intro e he
    have htail := h.graph_valid.tail_lt e he
    have hhead := h.graph_valid.head_lt e he
    rw [hQ.isActive_iff e he, ← hregion _ htail _ hhead, h.isActive_iff e he]
    -- regions of one region stay together, so that an edge between merged regions was active
    exact (and_iff_right_of_imp (mt (hcoarser _ htail _ hhead))).symm
  · intro v hv hv'
    exact hopened.rebuild_region_eq h.mem_region hv ((halone v hv).mp hv')
  · intro v hv
    rw [halone v hv]
    exact hopened.rebuild_isSaturated_iff h.mem_region (.inr hcoarser) hv
  · intro v hv
    rw [halone v hv]
    exact hopened.rebuild_isMedianCached_iff h.mem_region (.inr hcoarser) hv
  · exact fun q hq => hQ.entry_regionMeans_mul _ hq

/-- Where no edge of the graph of the regions joins close values, a merger changes nothing.
Otherwise it leaves the regions that the chains of such edges join. -/
theorem merge?_chained (h : P.IsUpToDate) (hx : x.size = P.regionCount) (tolerance : K) :
    ((∀ a b, ¬P.JoinsClose x tolerance a b) → P.merge? x tolerance = (P, .ok (x, 0))) ∧
      ((∃ a b, P.JoinsClose x tolerance a b) → ∃ Q y merged,
        P.merge? x tolerance = (Q, .ok (y, merged)) ∧ P.IsMerger x tolerance Q y merged) := by
  obtain ⟨y, merged, hok⟩ := h.exists_merge? (h.assignment_lt h.assignment_size) hx tolerance
  have houtcome : P.merge? x tolerance = ((P.merge? x tolerance).1, .ok (y, merged)) :=
    Prod.ext rfl hok
  constructor
  · intro hnone
    rcases merge?_eq_ok hok with ⟨-, hsame, rfl, rfl⟩ | ⟨hsome, -⟩
    · rw [houtcome, hsame]
    · exact absurd (closePairs_eq_nil_iff.mpr hnone) hsome
  · rintro ⟨a, b, hab⟩
    rcases merge?_eq_ok hok with ⟨hnone, -⟩ | ⟨-, hrebuilt, rfl, rfl⟩
    · exact absurd hab (closePairs_eq_nil_iff.mp hnone a b)
    · exact ⟨_, _, _, houtcome, hrebuilt ▸ h.isMerger x tolerance⟩

end IsUpToDate

/-- A path of six vertices with two parallel edges, in regions of which the first is listed out of
order. All but the second are solved, and the first and the last are sorted by target. -/
def fourOnPath : Partition ℚ :=
  let whole := whole ⟨#[0, 1, 3, 4, 5, 6, 6], #[0, 1, 1, 2, 3, 4], #[1, 2, 2, 3, 4, 5]⟩ ⟨none, 1⟩
  { whole with
    active := #[false, true, true, true, true, false]
    regions := [[1, 0], [2], [3], [4, 5]]
    saturated := #[true, false, true, true]
    medianCached := #[true, false, false, true] }

theorem isArranged_fourOnPath : fourOnPath.IsArranged := by
  have hwhole : ofIndex? #[0, 1, 3, 4, 5, 6, 6] #[1, 2, 2, 3, 4, 5] none (1 : ℚ) = .ok
      (whole ⟨#[0, 1, 3, 4, 5, 6, 6], #[0, 1, 1, 2, 3, 4], #[1, 2, 2, 3, 4, 5]⟩ ⟨none, 1⟩) := by
    with_unfolding_all rfl
  exact ⟨(isArranged_of_ofIndex? hwhole).graph_valid, rfl, by decide, by decide⟩

/-- A chain merges three regions, although the values of the first and the last are not close. -/
theorem merge?_chained_fourOnPath :
    let P := fourOnPath.rebuild.reduceGraph
    let x : Vec ℚ := #[10, 11, 12, 20]
    P.IsUpToDate ∧ x.size = P.regionCount ∧
      ((∀ a b, ¬P.JoinsClose x 0 a b) ∧ P.merge? x 0 = (P, .ok (x, 0))) ∧
      ((∃ a b, P.JoinsClose x (1 / 10) a b) ∧ ¬P.JoinsClose x (1 / 10) 0 2 ∧ ∃ Q y merged,
        P.merge? x (1 / 10) = (Q, .ok (y, merged)) ∧ P.IsMerger x (1 / 10) Q y merged) ∧
      (P.merge? x (1 / 10)).1.regions = [[1, 0, 2, 3], [4, 5]] ∧
      (P.merge? x (1 / 10)).2.toOption = some (#[43 / 4, 20], 2) := by
  intro P x
  have hP : P.IsUpToDate := isArranged_fourOnPath.isUpToDate_rebuild
  have hnone : ∀ a b, ¬P.JoinsClose x 0 a b := closePairs_eq_nil_iff.mp (by decide +kernel)
  have hsome : ∃ a b, P.JoinsClose x (1 / 10) a b :=
    ⟨0, 1, mem_closePairs_iff.mp (by decide +kernel)⟩
  exact ⟨hP, by decide +kernel, ⟨hnone, (hP.merge?_chained (by decide +kernel) 0).1 hnone⟩,
    ⟨hsome, mt mem_closePairs_iff.mpr (by decide +kernel),
      (hP.merge?_chained (by decide +kernel) (1 / 10)).2 hsome⟩, by decide +kernel, by decide +kernel⟩

end TotalVariation.Partition
