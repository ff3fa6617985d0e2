import Mathlib
import TotalVariation.Proofs.Partition.Merge
import TotalVariation.Proofs.Partition.RenamedReduced

/-! # Marks and mergers under another description

Which marks a rebuilding carries, and which boundaries a merger opens, does not depend on the
numbers of the regions: a region keeps its mark if its vertices stay together and no others join
them, and an edge stays a boundary if no chain of close values joins the regions of its ends. So
partitions that match under other names match after a rebuilding and after a merger.
-/

namespace TotalVariation.Partition

open Components (Linked)

/-! ## Matching partitions -/

variable {K : Type} [ExactField K] {π σ ρ : Equiv.Perm ℕ} {flip : ℕ → Bool}
  {P P' : Partition K}

/-- Corresponding vertices share a region together, and lie in regions that are solved together. -/
structure Matches (π : Equiv.Perm ℕ) (P P' : Partition K) : Prop where
  divides : DividesAlike π P P'
  isSaturated_eq : ∀ v < P.vertexCount,
    P'.isSaturated (P'.regionOf (π v)) = P.isSaturated (P.regionOf v)

omit [ExactField K] in
/-- Where the marks that are left are told by the vertices that stay together, matching partitions
leave the same marks. -/
theorem Matches.isSaturated_eq_of_iff (hmatches : Matches π P P') {Q Q' : Partition K}
    (hcount : P'.vertexCount = P.vertexCount) (hvertices : Preserves π P.vertexCount)
    (hdivides : ∀ u < P.vertexCount, ∀ v < P.vertexCount,
      (Q'.regionOf (π u) = Q'.regionOf (π v) ↔ Q.regionOf u = Q.regionOf v))
    (hiff : ∀ v < P.vertexCount, Q.isSaturated (Q.regionOf v) = true ↔
      P.isSaturated (P.regionOf v) = true ∧ ∀ u < P.vertexCount,
        (Q.regionOf u = Q.regionOf v ↔ P.regionOf u = P.regionOf v))
    (hiff' : ∀ v < P'.vertexCount, Q'.isSaturated (Q'.regionOf v) = true ↔
      P'.isSaturated (P'.regionOf v) = true ∧ ∀ u < P'.vertexCount,
        (Q'.regionOf u = Q'.regionOf v ↔ P'.regionOf u = P'.regionOf v)) {v : ℕ}
    (hv : v < P.vertexCount) :
    Q'.isSaturated (Q'.regionOf (π v)) = Q.isSaturated (Q.regionOf v) := by
  have hv' : π v < P'.vertexCount := hcount ▸ (hvertices v).mpr hv
  rw [Bool.eq_iff_iff, hiff v hv, hiff' _ hv', hmatches.isSaturated_eq v hv]
  refine and_congr_right fun _ => ?_
  have htogether : ∀ u < P.vertexCount,
      ((Q'.regionOf (π u) = Q'.regionOf (π v) ↔ P'.regionOf (π u) = P'.regionOf (π v)) ↔
        (Q.regionOf u = Q.regionOf v ↔ P.regionOf u = P.regionOf v)) := fun u hu => by
    rw [hdivides u hu v hv, hmatches.divides u hu v hv]
  constructor
  · exact fun hall u hu => (htogether u hu).mp (hall _ (hcount ▸ (hvertices u).mpr hu))
  · intro hall u' hu'
    obtain ⟨u, hu, rfl⟩ := hvertices.exists_eq (hcount ▸ hu')
    exact (htogether u hu).mpr (hall u hu)

namespace RenamesGraph

variable (h : RenamesGraph π σ flip P P')

include h

/-- In consistent partitions with the same active edges corresponding vertices share a region
together. -/
theorem dividesAlike (hP : P.IsConsistent) (hP' : P'.IsConsistent)
    (hactive : ∀ e < P.edgeCount, P'.isActive (σ e) = P.isActive e) : DividesAlike π P P' := by
  have hconnected {Q : Partition K} (hQ : Q.IsConsistent) {u v : ℕ} (hu : u < Q.vertexCount)
      (hv : v < Q.vertexCount) : Q.regionOf u = Q.regionOf v ↔ Q.Connected u v :=
    ⟨hQ.connected u hu v hv, hQ.regionOf_eq_of_connected⟩
  intro u hu v hv
  rw [hconnected hP hu hv,
    hconnected hP' ((h.vertex_lt_iff u).mpr hu) ((h.vertex_lt_iff v).mpr hv)]
  exact h.connected_iff hactive

/-- Rebuilt after boundaries were marked, matching partitions match. -/
theorem matches_rebuild (hP : P.IsArranged) (hP' : P'.IsArranged) (hindexed : P.IsIndexed)
    (hindexed' : P'.IsIndexed) (hfiner : P.rebuild.IsFiner P) (hfiner' : P'.rebuild.IsFiner P')
    (hactive : ∀ e < P.edgeCount, P'.isActive (σ e) = P.isActive e) (hmatches : Matches π P P') :
    Matches π P.rebuild.reduceGraph P'.rebuild.reduceGraph where
  divides := h.dividesAlike_rebuild hP hP' hactive
  isSaturated_eq _ hv := hmatches.isSaturated_eq_of_iff h.vertexCount_eq h.vertices
    (h.dividesAlike_rebuild hP hP' hactive)
    (fun _ hv => hP.rebuild_isSaturated_iff hindexed (.inl hfiner) hv)
    (fun _ hv => hP'.rebuild_isSaturated_iff hindexed' (.inl hfiner') hv) hv

end RenamesGraph

/-! ## Mergers -/

theorem areClose_comm (tolerance a b : K) : areClose tolerance a b = areClose tolerance b a := by
  simp only [areClose, Scalar.abs_eq, Scalar.max_eq, abs_sub_comm a b, max_comm |a|]

namespace RenamesGraph

variable (h : RenamesGraph π σ flip P P')

include h

section Values

variable {x x' : Vec K} (hregions : RenamesRegions π ρ P P') (hP : P.IsCoherent)
  (hP' : P'.IsCoherent) (hvalues : ∀ r < P.regionCount, Vec.entry x' (ρ r) = Vec.entry x r)

include hregions hP hP' hvalues

/-- Regions with close values correspond. -/
theorem mem_closePairs_renames {tolerance : K} {p : ℕ × ℕ} (hp : p ∈ P.closePairs x tolerance) :
    renamedPair ρ p ∈ P'.closePairs x' tolerance := by
  obtain ⟨hreduced, hclose⟩ := List.mem_filter.mp hp
  have hmem : p ∈ P.reducedEdges := Array.mem_def.mpr hreduced
  obtain ⟨hfirst, hsecond⟩ := hP.reducedEdges_lt hmem
  refine List.mem_filter.mpr ⟨Array.mem_def.mp (mem_reducedEdges_renames h hregions
    hP.toIsConsistent hP.toHasReducedGraph hP'.toHasReducedGraph hmem), ?_⟩
  obtain ⟨-, heq | heq⟩ := renamedPair_cases (ρ := ρ) ((hP.mem_reducedEdges p.1 p.2).mp hmem).1
  · rw [heq, hvalues _ hfirst, hvalues _ hsecond]
    exact hclose
  · rw [heq, hvalues _ hfirst, hvalues _ hsecond, areClose_comm]
    exact hclose

theorem closePairs_ne_nil_of_renames {tolerance : K} (hsome : P.closePairs x tolerance ≠ []) :
    P'.closePairs x' tolerance ≠ [] := by
  obtain ⟨p, hp⟩ := List.exists_mem_of_ne_nil _ hsome
  exact List.ne_nil_of_mem (h.mem_closePairs_renames hregions hP hP' hvalues hp)

/-- Chains of close values join corresponding regions. -/
theorem linked_of_linked {tolerance : K} {a b : ℕ} (hab : Linked (P.closePairs x tolerance) a b) :
    Linked (P'.closePairs x' tolerance) (ρ a) (ρ b) := by
  induction hab with
  | rel a b hab =>
      have hlt : a < b :=
        ((hP.mem_reducedEdges a b).mp (mem_reducedEdges_of_mem_closePairs hab)).1
      have hrenamed := h.mem_closePairs_renames hregions hP hP' hvalues hab
      obtain ⟨-, heq | heq⟩ := renamedPair_cases (ρ := ρ) (p := (a, b)) hlt
      · exact .rel _ _ (heq ▸ hrenamed)
      · exact (Relation.EqvGen.rel _ _ (heq ▸ hrenamed)).symm
  | refl => exact .refl _
  | symm _ _ _ ih => exact ih.symm
  | trans _ _ _ _ _ hab hbc => exact hab.trans _ _ _ hbc

omit h hP hP' in
theorem entry_renames_symm {r : ℕ} (hr : r < P'.regionCount) :
    Vec.entry x (ρ.symm r) = Vec.entry x' r := by
  rw [← hvalues _ (hregions.symm.region_lt hr), ρ.apply_symm_apply]

theorem linked_iff {tolerance : K} {a b : ℕ} :
    Linked (P'.closePairs x' tolerance) (ρ a) (ρ b) ↔ Linked (P.closePairs x tolerance) a b := by
  refine ⟨fun hab => ?_, h.linked_of_linked hregions hP hP' hvalues⟩
  have hback := h.symm.linked_of_linked hregions.symm hP' hP
    (fun r => entry_renames_symm hregions hvalues) hab
  rwa [ρ.symm_apply_apply, ρ.symm_apply_apply] at hback

end Values

section Outcomes

variable {x x' y y' : Vec K} {tolerance : K} {merged merged' : Int} (hP : P.IsCoherent)
  (hP' : P'.IsCoherent) (hx : x.size = P.regionCount) (hx' : x'.size = P'.regionCount)
  (hvalues : ∀ v < P.vertexCount, Vec.entry x' (P'.regionOf (π v)) = Vec.entry x (P.regionOf v))
  (hok : (P.merge? x tolerance).2 = .ok (y, merged))
  (hok' : (P'.merge? x' tolerance).2 = .ok (y', merged'))

include hok hok' in
/-- A merger leaves its graph alone, so what is merged describes the same two graphs. -/
theorem of_merge? : RenamesGraph π σ flip (P.merge? x tolerance).1 (P'.merge? x' tolerance).1 := by
  obtain ⟨hgraph, hweights, -⟩ := merge?_frame hok
  obtain ⟨hgraph', hweights', -⟩ := merge?_frame hok'
  exact h.of_frame hgraph hweights hgraph' hweights'

include hP hvalues

omit h in
theorem entry_renames_of_vertices (hregions : RenamesRegions π ρ P P') {r : ℕ}
    (hr : r < P.regionCount) : Vec.entry x' (ρ r) = Vec.entry x r := by
  obtain ⟨hlt, hregion⟩ := hP.toIsConsistent.regionOf_representative hr
  rw [← hregion, ← hregions.regionOf_eq _ hlt, hvalues _ hlt]

include hP' hx hx' hok hok'

/-- The same edges are boundaries after a merger. -/
theorem merge?_isActive_eq (hdivides : DividesAlike π P P') {e : ℕ} (he : e < P.edgeCount) :
    (P'.merge? x' tolerance).1.isActive (σ e) = (P.merge? x tolerance).1.isActive e := by
  obtain ⟨ρ, hregions⟩ := exists_renamesRegions hP.toIsConsistent hP'.toIsConsistent
    h.vertexCount_eq h.vertices hdivides
  rw [Bool.eq_iff_iff, hP.merge?_isActive_iff hx hok he,
    hP'.merge?_isActive_iff hx' hok' ((h.edge_lt_iff e).mpr he),
    h.ends_rel (r := fun a b => ¬Linked (P'.closePairs x' tolerance) (P'.regionOf a)
      (P'.regionOf b)) (fun hab hba => hab hba.symm) he,
    hregions.regionOf_eq _ (hP.graph_valid.tail_lt e he),
    hregions.regionOf_eq _ (hP.graph_valid.head_lt e he),
    h.linked_iff hregions hP hP' fun _ => entry_renames_of_vertices hP hvalues hregions]

/-- Matching partitions with the same values on corresponding vertices match after a merger. -/
theorem matches_merge? (hmatches : Matches π P P') :
    Matches π (P.merge? x tolerance).1 (P'.merge? x' tolerance).1 := by
  obtain ⟨hcoherent, -⟩ := hP.merge? hx hok
  obtain ⟨hcoherent', -⟩ := hP'.merge? hx' hok'
  have hdivides : DividesAlike π (P.merge? x tolerance).1 (P'.merge? x' tolerance).1 := by
    refine (h.of_merge? hok hok').dividesAlike hcoherent.toIsConsistent
      hcoherent'.toIsConsistent fun e he => ?_
    rw [merge?_edgeCount hok] at he
    exact h.merge?_isActive_eq hP hP' hx hx' hvalues hok hok' hmatches.divides he
  refine ⟨hdivides, fun v hv => ?_⟩
  rw [merge?_vertexCount hok] at hv
  refine hmatches.isSaturated_eq_of_iff h.vertexCount_eq h.vertices ?_
    (fun _ hv => hP.merge?_isSaturated_iff hok hv) (fun _ hv => hP'.merge?_isSaturated_iff hok' hv) hv
  rwa [DividesAlike, merge?_vertexCount hok] at hdivides

/-- Corresponding vertices have the same values after a merger. -/
theorem merge?_entry_renames (hdivides : DividesAlike π P P')
    (hdivides' : DividesAlike π (P.merge? x tolerance).1 (P'.merge? x' tolerance).1) {v : ℕ}
    (hv : v < P.vertexCount) :
    Vec.entry y' ((P'.merge? x' tolerance).1.regionOf (π v)) =
      Vec.entry y ((P.merge? x tolerance).1.regionOf v) := by
  obtain ⟨ρ, hregions⟩ := exists_renamesRegions hP.toIsConsistent hP'.toIsConsistent
    h.vertexCount_eq h.vertices hdivides
  have hforth {r : ℕ} (hr : r < P.regionCount) : Vec.entry x' (ρ r) = Vec.entry x r :=
    entry_renames_of_vertices hP hvalues hregions hr
  have hback {r : ℕ} (hr : r < P'.regionCount) : Vec.entry x (ρ.symm r) = Vec.entry x' r :=
    entry_renames_symm hregions (fun _ => hforth) hr
  obtain ⟨hcoherent, -⟩ := hP.merge? hx hok
  obtain ⟨hcoherent', -⟩ := hP'.merge? hx' hok'
  have hgraphs := h.of_merge? hok hok'
  obtain ⟨τ, hmerged⟩ := exists_renamesRegions hcoherent.toIsConsistent
    hcoherent'.toIsConsistent hgraphs.vertexCount_eq hgraphs.vertices hdivides'
  -- close values are found in both or in neither
  rcases merge?_eq_ok hok with ⟨hnone, hsame, rfl, -⟩ | ⟨hsome, hrebuilt, rfl, -⟩
  · rcases merge?_eq_ok hok' with ⟨-, hsame', rfl, -⟩ | ⟨hsome', -⟩
    · rw [hsame, hsame']
      exact hvalues v hv
    · exact absurd hnone (h.symm.closePairs_ne_nil_of_renames hregions.symm hP' hP
        (fun _ => hback) hsome')
  · rcases merge?_eq_ok hok' with ⟨hnone', -⟩ | ⟨-, hrebuilt', rfl, -⟩
    · exact absurd hnone' (h.closePairs_ne_nil_of_renames hregions hP hP' (fun _ => hforth) hsome)
    · rw [hmerged.regionOf_eq v (merge?_vertexCount hok ▸ hv)]
      rw [hrebuilt, hrebuilt'] at hmerged
      rw [hrebuilt] at hcoherent ⊢
      rw [hrebuilt'] at hcoherent'
      have hexpand : Renames π (P.expand x) (P'.expand x') := hregions.expand_renames
        (.of_entry hregions.regions hx (hx'.trans hregions.regionCount_eq) fun _ => hforth)
      exact (hmerged.regionMeans_renames hcoherent.toIsConsistent hcoherent'.toIsConsistent
        hexpand).entry_eq _

end Outcomes
end RenamesGraph
end TotalVariation.Partition
