import Mathlib
import TotalVariation.Proofs.Marks
import TotalVariation.Proofs.Partition.Consistent

/-! # Coherent partitions

A coherent partition is consistent, its graph of regions is up to date, and it has one mark of each
kind for every region. Every operation that changes the boundaries ends by rebuilding the regions
and their graph, and so leaves a coherent partition.
-/

namespace TotalVariation.Partition

variable {α : Type} {P Q : Partition α}

/-- The regions, their graph and their marks all describe one partition. -/
structure IsCoherent (P : Partition α) : Prop extends P.IsConsistent, P.HasReducedGraph where
  size_saturated : P.saturated.size = P.regionCount
  size_medianCached : P.medianCached.size = P.regionCount

/-- The partition of an accepted graph into one region is arranged. -/
theorem isArranged_of_ofIndex? [Scalar α] {first adjacent : Array Int} {each : Option (Array α)}
    {common : α} (h : ofIndex? first adjacent each common = .ok P) : P.IsArranged := by
  unfold ofIndex? at h
  cases hgraph : ForwardStar.ofIndex? (α := α) first adjacent with
  | error => rw [hgraph] at h; cases h
  | ok G =>
      rw [hgraph] at h
      cases hweights : edgeWeighting? G.edges each common with
      | error => simp [hweights, bind, Except.bind] at h
      | ok w =>
          simp only [hweights, bind, Except.bind, pure, Except.pure] at h
          obtain rfl := Except.ok.inj h
          have hsize : 0 < G.vertices := by
            obtain ⟨htwo, -, -, -, tails, -, rfl⟩ := ForwardStar.ofIndex?_eq_ok hgraph
            simp only [ForwardStar.vertices, Array.size_map]
            omega
          refine ⟨ForwardStar.isValid_of_ofIndex? hgraph, ?_, ?_, ?_⟩
          · simp [whole, edgeCount]
          · simp [whole, arena, vertexCount]
          · intro vertices hmem
            obtain rfl : vertices = List.range G.vertices := by simpa [whole] using hmem
            simpa using hsize.ne'

/-! ## What keeps the arrangement -/

theorem IsArranged.setActive (h : P.IsArranged) (edges : List Nat) (value : Bool) :
    (P.setActive edges value).IsArranged where
  graph_valid := h.graph_valid
  active_size := by
    change (edges.foldl (fun a e => a.setIfInBounds e value) P.active).size = _
    rw [size_foldl_setIfInBounds]
    exact h.active_size
  arena_perm := h.arena_perm
  region_ne_nil := h.region_ne_nil

namespace IsCoherent

/-- Reordering the vertices inside the regions, and changing marks, keeps a partition coherent. -/
theorem of_perm (h : P.IsCoherent) (hgraph : Q.graph = P.graph) (hactive : Q.active = P.active)
    (hassignment : Q.assignment = P.assignment)
    (hregions : List.Forall₂ List.Perm Q.regions P.regions)
    (hreduced : Q.reducedEdges = P.reducedEdges)
    (hsaturated : Q.saturated.size = Q.regionCount)
    (hmedianCached : Q.medianCached.size = Q.regionCount) : Q.IsCoherent where
  toIsConsistent := h.toIsConsistent.of_perm hgraph hactive hassignment hregions
  nodup_reducedEdges := hreduced ▸ h.nodup_reducedEdges
  mem_reducedEdges := by
    intro a b
    have hedges : Q.edgeCount = P.edgeCount := by rw [edgeCount, hgraph, edgeCount]
    have hjoins (e : Nat) : Q.joins a b e = P.joins a b e := by
      simp only [joins, regionOf, hassignment, hgraph]
    simp only [hreduced, hedges, hjoins]
    exact h.mem_reducedEdges a b
  size_saturated := hsaturated
  size_medianCached := hmedianCached

/-- Changing marks keeps a partition coherent. -/
theorem of_marks (h : P.IsCoherent) (hgraph : Q.graph = P.graph) (hactive : Q.active = P.active)
    (hassignment : Q.assignment = P.assignment) (hregions : Q.regions = P.regions)
    (hreduced : Q.reducedEdges = P.reducedEdges)
    (hsaturated : Q.saturated.size = P.saturated.size)
    (hmedianCached : Q.medianCached.size = P.medianCached.size) : Q.IsCoherent := by
  have hcount : Q.regionCount = P.regionCount := congrArg List.length hregions
  refine h.of_perm hgraph hactive hassignment ?_ hreduced ?_ ?_
  · rw [hregions]
    exact List.forall₂_same.mpr fun vertices _ => List.Perm.refl vertices
  · rw [hsaturated, hcount, h.size_saturated]
  · rw [hmedianCached, hcount, h.size_medianCached]

end IsCoherent

variable [Scalar α]

/-- Rebuilding the regions and their graph makes an arranged partition coherent. -/
theorem IsArranged.isCoherent_rebuild (h : P.IsArranged) : P.rebuild.reduceGraph.IsCoherent where
  toIsConsistent := h.rebuild_reduceGraph
  toHasReducedGraph := h.hasReducedGraph
  size_saturated := size_rebuild_saturated P
  size_medianCached := size_rebuild_medianCached P

/-! ## Mergers -/

/-- A merger that is not refused either finds no close pair, or opens the groups of close regions
and rebuilds. -/
theorem merge?_eq_ok {x y : Vec α} {tolerance : α} {merged : Int}
    (h : (P.merge? x tolerance).2 = .ok (y, merged)) :
    (P.closePairs x tolerance = [] ∧ (P.merge? x tolerance).1 = P ∧ y = x ∧ merged = 0) ∨
      (P.closePairs x tolerance ≠ [] ∧
        let Q := (P.openGroups (P.closePairs x tolerance)).rebuild.reduceGraph
        (P.merge? x tolerance).1 = Q ∧ y = Q.regionMeans (P.expand x) ∧
        merged = Int.ofNat P.regionCount - Int.ofNat Q.regionCount) := by
  unfold merge? at h ⊢
  split at h
  next => cases h
  next hshort =>
    rw [if_neg hshort]
    dsimp only at h ⊢
    split at h
    next hempty =>
      rw [if_pos hempty]
      obtain ⟨rfl, rfl⟩ := Prod.mk.inj (Except.ok.inj h)
      exact .inl ⟨List.isEmpty_iff.mp hempty, rfl, rfl, rfl⟩
    next hclose =>
      rw [if_neg hclose]
      split at h
      next hcovers =>
        rw [if_pos hcovers]
        rw [merge, if_neg hclose] at h ⊢
        obtain ⟨rfl, rfl⟩ := Prod.mk.inj (Except.ok.inj h)
        exact .inr ⟨fun hnil => hclose (List.isEmpty_iff.mpr hnil), rfl, rfl, rfl⟩
      next => cases h

theorem IsCoherent.merge? (h : P.IsCoherent) {x y : Vec α} {tolerance : α} {merged : Int}
    (hx : x.size = P.regionCount) (hok : (P.merge? x tolerance).2 = .ok (y, merged)) :
    (P.merge? x tolerance).1.IsCoherent ∧ y.size = (P.merge? x tolerance).1.regionCount := by
  rcases merge?_eq_ok hok with ⟨-, hsame, rfl, -⟩ | ⟨-, hrebuilt, rfl, -⟩
  · rw [hsame]
    exact ⟨h, hx⟩
  · rw [hrebuilt]
    exact ⟨(h.toIsArranged.setActive _ _).isCoherent_rebuild, Vec.size_tabulate _ _⟩

end TotalVariation.Partition
