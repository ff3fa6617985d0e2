import Mathlib
import TotalVariation.Proofs.Partition.Arena

/-! # Consistent partitions

In a consistent partition the regions are the components of the inactive edges, and the active
edges are those between different regions. Rebuilding the regions and the graph of the regions
makes any arranged partition consistent.
-/

namespace TotalVariation.Partition

variable {α : Type}

/-- The regions are the components of the inactive edges, the active edges join different
regions, and the arena lists the vertices by region. -/
structure IsConsistent (P : Partition α) : Prop extends P.IsArranged where
  mem_region : ∀ r < P.regionCount, ∀ v,
    v ∈ P.region r ↔ v < P.vertexCount ∧ P.regionOf v = r
  connected : ∀ u < P.vertexCount, ∀ v < P.vertexCount,
    P.regionOf u = P.regionOf v → P.Connected u v
  isActive_iff : ∀ e < P.edgeCount,
    P.isActive e = true ↔ P.regionOf (P.graph.tailOf e) ≠ P.regionOf (P.graph.headOf e)

/-- The graph of the regions has one edge for each pair of different regions that an edge
joins. -/
structure HasReducedGraph (P : Partition α) : Prop where
  nodup_reducedEdges : P.reducedEdges.toList.Nodup
  mem_reducedEdges : ∀ a b, (a, b) ∈ P.reducedEdges ↔
    a < b ∧ ∃ e < P.edgeCount, P.joins a b e = true

theorem joins_iff {P : Partition α} {a b e : Nat} : P.joins a b e = true ↔
    (P.regionOf (P.graph.tailOf e) = a ∧ P.regionOf (P.graph.headOf e) = b) ∨
      (P.regionOf (P.graph.tailOf e) = b ∧ P.regionOf (P.graph.headOf e) = a) := by
  simp [joins]

theorem separates_iff {P : Partition α} {e : Nat} : P.separates e = true ↔
    P.regionOf (P.graph.tailOf e) ≠ P.regionOf (P.graph.headOf e) := by
  simp [separates]

/-- An edge that joins two different regions separates them. -/
theorem separates_of_joins {P : Partition α} {a b e : Nat} (hab : a < b)
    (hjoin : P.joins a b e = true) : P.separates e = true := by
  rw [separates_iff]
  rcases joins_iff.mp hjoin with ⟨htail, hhead⟩ | ⟨htail, hhead⟩
  · exact fun heq => hab.ne (htail.symm.trans (heq.trans hhead))
  · exact fun heq => hab.ne (hhead.symm.trans (heq.symm.trans htail))

theorem forall₂_perm_setRegion (P : Partition α) (r : Nat) {order : List Nat}
    (h : order.Perm (P.region r)) : List.Forall₂ List.Perm (P.setRegion r order).regions P.regions := by
  rw [setRegion]
  refine List.forall₂_iff_get.mpr ⟨List.length_set, fun i hi hi' => ?_⟩
  simp only [List.get_eq_getElem, List.getElem_set]
  split
  next heq =>
    subst heq
    simpa [region, hi'] using h
  next => exact List.Perm.refl _

/-- Reordering the vertices inside the regions keeps a partition arranged. -/
theorem IsArranged.of_perm {P Q : Partition α} (h : P.IsArranged) (hgraph : Q.graph = P.graph)
    (hactive : Q.active.size = P.active.size)
    (hregions : List.Forall₂ List.Perm Q.regions P.regions) : Q.IsArranged where
  graph_valid := hgraph ▸ h.graph_valid
  active_size := by rw [hactive, h.active_size, edgeCount, edgeCount, hgraph]
  arena_perm := by
    rw [vertexCount, hgraph]
    exact (List.Perm.flatten_congr hregions).trans h.arena_perm
  region_ne_nil := by
    intro vertices hmem hnil
    obtain ⟨r, hr, rfl⟩ := List.mem_iff_getElem.mp hmem
    have hperm := hregions.get hr (hregions.length_eq ▸ hr)
    simp only [List.get_eq_getElem, hnil] at hperm
    exact h.region_ne_nil _ (List.getElem_mem _) (List.nil_perm.mp hperm)

namespace IsConsistent

variable {P Q : Partition α}

theorem isIndexed (h : P.IsConsistent) : P.IsIndexed := h.mem_region

theorem regionOf_lt (h : P.IsConsistent) {v : Nat} (hv : v < P.vertexCount) :
    P.regionOf v < P.regionCount :=
  h.toIsArranged.regionOf_lt h.isIndexed hv

/-- The first vertex of a region lies in it. -/
theorem regionOf_representative (h : P.IsConsistent) {r : Nat} (hr : r < P.regionCount) :
    P.representative r < P.vertexCount ∧ P.regionOf (P.representative r) = r :=
  (h.mem_region r hr _).mp (h.representative_mem hr)

theorem assignment_lt (h : P.IsConsistent) (hsize : P.assignment.size = P.vertexCount) :
    ∀ r ∈ P.assignment, r < P.regionCount :=
  h.toIsArranged.assignment_lt h.isIndexed hsize

theorem regionOf_eq_of_inactive (h : P.IsConsistent) {e : Nat} (he : e < P.edgeCount)
    (hopen : P.isActive e = false) :
    P.regionOf (P.graph.tailOf e) = P.regionOf (P.graph.headOf e) := by
  by_contra hne
  rw [(h.isActive_iff e he).mpr hne] at hopen
  cases hopen

/-- Connected vertices lie in one region. -/
theorem regionOf_eq_of_connected (h : P.IsConsistent) {u v : Nat} (huv : P.Connected u v) :
    P.regionOf u = P.regionOf v :=
  eq_of_connected (fun _ he hopen => h.regionOf_eq_of_inactive he hopen) huv

/-- Reordering the vertices inside the regions, and changing marks, keeps a partition
consistent. -/
theorem of_perm (h : P.IsConsistent) (hgraph : Q.graph = P.graph) (hactive : Q.active = P.active)
    (hassignment : Q.assignment = P.assignment)
    (hregions : List.Forall₂ List.Perm Q.regions P.regions) : Q.IsConsistent := by
  have hcount : Q.regionCount = P.regionCount := hregions.length_eq
  have hvertices : Q.vertexCount = P.vertexCount := by rw [vertexCount, hgraph, vertexCount]
  have hedges : Q.edgeCount = P.edgeCount := by rw [edgeCount, hgraph, edgeCount]
  have hregionOf (v : Nat) : Q.regionOf v = P.regionOf v := by
    rw [regionOf, hassignment, regionOf]
  have hisActive (e : Nat) : Q.isActive e = P.isActive e := by rw [isActive, hactive, isActive]
  have hlinks : Q.openLinks = P.openLinks := by
    simp only [openLinks, inactiveEdges, hedges, hisActive, hgraph]
  refine ⟨h.toIsArranged.of_perm hgraph (congrArg Array.size hactive) hregions, ?_, ?_, ?_⟩
  · intro r hr v
    have hr' : r < P.regionCount := hcount ▸ hr
    have hperm : (Q.region r).Perm (P.region r) := by
      have hget := hregions.get hr hr'
      rw [regionCount] at hr hr'
      simpa [region, hr, hr'] using hget
    rw [hperm.mem_iff, h.mem_region r hr' v, hvertices, hregionOf]
  · intro u hu v hv huv
    rw [hregionOf, hregionOf] at huv
    rw [Connected, hlinks]
    exact h.connected u (hvertices ▸ hu) v (hvertices ▸ hv) huv
  · intro e he
    rw [hisActive, hgraph, hregionOf, hregionOf]
    exact h.isActive_iff e (hedges ▸ he)

end IsConsistent

/-- The regions of an arranged partition are the components of the inactive edges. Active edges may
lie inside a region. -/
structure IsComponentwise (P : Partition α) : Prop extends P.IsArranged where
  indexed : P.IsIndexed
  regionOf_eq_iff : ∀ u < P.vertexCount, ∀ v < P.vertexCount,
    P.regionOf u = P.regionOf v ↔ P.Connected u v

theorem IsConsistent.isComponentwise {P : Partition α} (h : P.IsConsistent) : P.IsComponentwise :=
  ⟨h.toIsArranged, h.isIndexed, fun u hu v hv => ⟨h.connected u hu v hv, h.regionOf_eq_of_connected⟩⟩

theorem IsComponentwise.regionOf_eq_of_inactive {P : Partition α} (h : P.IsComponentwise) {e : Nat}
    (he : e < P.edgeCount) (hopen : P.isActive e = false) :
    P.regionOf (P.graph.tailOf e) = P.regionOf (P.graph.headOf e) :=
  (h.regionOf_eq_iff _ (h.graph_valid.tail_lt e he) _ (h.graph_valid.head_lt e he)).mpr
    (connected_of_inactive he hopen)

/-! ## The rebuilt partition -/

theorem IsArranged.isComponentwise_rebuild {P : Partition α} (h : P.IsArranged) :
    P.rebuild.IsComponentwise where
  toIsArranged := h.rebuild
  indexed := fun _ hr _ => h.mem_rebuild_region hr _
  regionOf_eq_iff := fun _ hu _ hv => h.rebuild_regionOf_eq_iff hu hv

theorem mem_joinedPairs {P : Partition α} {edges : List Nat} {a b : Nat} :
    (a, b) ∈ P.joinedPairs edges ↔
      a < b ∧ b < P.regionCount ∧ ∃ e ∈ edges, P.joins a b e = true := by
  simp only [joinedPairs, List.mem_flatMap, List.mem_map, List.mem_filter, List.mem_range,
    Bool.and_eq_true, decide_eq_true_eq, List.any_eq_true, Prod.mk.injEq]
  constructor
  · rintro ⟨r, -, s, ⟨hs, hrs, hjoin⟩, rfl, rfl⟩
    exact ⟨hrs, hs, hjoin⟩
  · rintro ⟨hab, hb, hjoin⟩
    exact ⟨a, hab.trans hb, b, ⟨hb, hab, hjoin⟩, rfl, rfl⟩

/-- The pairs come in the order of their first regions, and for one first region in the order of the
second. -/
theorem pairwise_joinedPairs (P : Partition α) (edges : List Nat) :
    (P.joinedPairs edges).Pairwise fun p q => p.1 < q.1 ∨ p.1 = q.1 ∧ p.2 < q.2 := by
  rw [joinedPairs, List.pairwise_flatMap]
  constructor
  · intro r _
    rw [List.pairwise_map]
    exact (List.pairwise_lt_range.filter _).imp fun hlt => .inr ⟨rfl, hlt⟩
  · refine List.pairwise_lt_range.imp fun {r s} hrs p hp q hq => ?_
    obtain ⟨_, -, rfl⟩ := List.mem_map.mp hp
    obtain ⟨_, -, rfl⟩ := List.mem_map.mp hq
    exact .inl hrs

theorem nodup_joinedPairs (P : Partition α) (edges : List Nat) :
    (P.joinedPairs edges).Nodup := by
  refine (P.pairwise_joinedPairs edges).imp ?_
  rintro p _ hlt rfl
  rcases hlt with hlt | ⟨-, hlt⟩ <;> exact lt_irrefl _ hlt

/-- An edge between two regions is active. -/
theorem IsComponentwise.isActive_of_separates {P : Partition α} (h : P.IsComponentwise) {e : Nat}
    (he : e < P.edgeCount) (hsep : P.separates e = true) : P.isActive e = true := by
  by_contra hnot
  exact separates_iff.mp hsep (h.regionOf_eq_of_inactive he (by simpa using hnot))

section Reduce

variable [Scalar α]

theorem reduceGraph_isActive (P : Partition α) {e : Nat} (he : e < P.edgeCount) :
    P.reduceGraph.isActive e = (P.isActive e && P.separates e) := by
  change (Vec.tabulate P.edgeCount fun e => P.isActive e && P.separates e).getD e false = _
  simp [Vec.tabulate, he]

/-- Where all active edges separate regions, none is opened. -/
theorem IsArranged.reduceGraph_active {P : Partition α} (h : P.IsArranged)
    (hseparates : ∀ e < P.edgeCount, P.isActive e = true → P.separates e = true) :
    P.reduceGraph.active = P.active := by
  have hsize : P.reduceGraph.active.size = P.edgeCount := Vec.size_tabulate _ _
  apply Array.ext
  · rw [hsize, h.active_size]
  · intro e he he'
    have hlt : e < P.edgeCount := hsize ▸ he
    have hentry := reduceGraph_isActive P hlt
    have hsame : (P.isActive e && P.separates e) = P.isActive e := by
      cases hactive : P.isActive e with
      | true => rw [hseparates e hlt hactive, Bool.and_self]
      | false => rw [Bool.false_and]
    rw [hsame] at hentry
    simpa [isActive, he, he'] using hentry

namespace IsComponentwise

variable {P : Partition α} (h : P.IsComponentwise)

include h

/-- Bringing the graph of the regions up to date leaves exactly the edges between regions active. -/
theorem reduceGraph_isActive {e : Nat} (he : e < P.edgeCount) :
    P.reduceGraph.isActive e = P.separates e := by
  rw [Partition.reduceGraph_isActive P he]
  cases hsep : P.separates e with
  | false => rw [Bool.and_false]
  | true => rw [h.isActive_of_separates he hsep, Bool.and_self]

/-- Bringing the graph of the regions up to date makes the partition consistent. -/
theorem reduceGraph : P.reduceGraph.IsConsistent where
  graph_valid := h.graph_valid
  active_size := Vec.size_tabulate _ _
  arena_perm := h.arena_perm
  region_ne_nil := h.region_ne_nil
  mem_region := h.indexed
  connected := by
    intro u hu v hv huv
    refine connected_of_inactive_imp ((h.regionOf_eq_iff u hu v hv).mp huv) rfl fun e he hopen => ?_
    rw [Partition.reduceGraph_isActive P he, hopen, Bool.false_and]
  isActive_iff := fun e he => by
    rw [h.reduceGraph_isActive he]
    exact separates_iff

theorem hasReducedGraph : P.reduceGraph.HasReducedGraph where
  nodup_reducedEdges := nodup_joinedPairs _ _
  mem_reducedEdges := by
    intro a b
    change (a, b) ∈ (P.joinedPairs _).toArray ↔ _
    rw [List.mem_toArray, mem_joinedPairs]
    constructor
    · rintro ⟨hab, -, e, he, hjoin⟩
      exact ⟨hab, e, (mem_activeEdges.mp (List.mem_filter.mp he).1).1, hjoin⟩
    · rintro ⟨hab, e, he, hjoin⟩
      have hsep := separates_of_joins hab hjoin
      have hlt {v : Nat} (hv : v < P.vertexCount) : P.regionOf v < P.regionCount :=
        h.regionOf_lt h.indexed hv
      refine ⟨hab, ?_, e, ?_, hjoin⟩
      · rcases joins_iff.mp hjoin with ⟨-, hhead⟩ | ⟨htail, -⟩
        · exact hhead ▸ hlt (h.graph_valid.head_lt e he)
        · exact htail ▸ hlt (h.graph_valid.tail_lt e he)
      · exact List.mem_filter.mpr
          ⟨mem_activeEdges.mpr ⟨he, h.isActive_of_separates he hsep⟩, hsep⟩

end IsComponentwise

/-- Rebuilding the regions and their graph makes an arranged partition consistent. -/
theorem IsArranged.rebuild_reduceGraph {P : Partition α} (h : P.IsArranged) :
    P.rebuild.reduceGraph.IsConsistent :=
  h.isComponentwise_rebuild.reduceGraph

theorem IsArranged.hasReducedGraph {P : Partition α} (h : P.IsArranged) :
    P.rebuild.reduceGraph.HasReducedGraph :=
  h.isComponentwise_rebuild.hasReducedGraph

end Reduce

end TotalVariation.Partition
