import Mathlib
import TotalVariation.Proofs.Marks
import TotalVariation.Proofs.Partition.Finer
import TotalVariation.Proofs.Partition.Values

/-! # Mergers

A merger opens the boundaries inside groups of regions that chains of close values join. It makes
the regions coarser. Without tolerance close values are equal, so the values of the vertices stay.
-/

namespace TotalVariation.Partition

open Components (Linked labelOf)

section Groups

variable {α : Type} {P : Partition α}

/-- An edge stays a boundary unless the groups of its two regions are the same. -/
theorem openGroups_isActive (P : Partition α) (links : List (Nat × Nat)) (e : Nat) :
    (P.openGroups links).isActive e = true ↔ P.isActive e = true ∧ (P.edgeCount ≤ e ∨
      labelOf (Components.labels P.regionCount links) (P.regionOf (P.graph.tailOf e)) ≠
        labelOf (Components.labels P.regionCount links) (P.regionOf (P.graph.headOf e))) := by
  rw [isActive]
  change (List.foldl _ P.active _).getD e false = true ↔ _
  rw [getD_foldl_setIfInBounds_false]
  simp only [Bool.and_eq_true, Bool.not_eq_true', List.contains_eq_mem, decide_eq_false_iff_not,
    List.mem_filter, mem_activeEdges, beq_iff_eq]
  change P.isActive e = true ∧ _ ↔ _
  apply and_congr_right
  intro hactive
  rw [hactive]
  by_cases he : e < P.edgeCount
  · simp [he, Nat.not_le.mpr he]
  · simp [he, Nat.not_lt.mp he]

theorem IsArranged.openGroups (h : P.IsArranged) (links : List (Nat × Nat)) :
    (P.openGroups links).IsArranged :=
  h.setActive _ _

theorem connected_openGroups (links : List (Nat × Nat)) {u v : Nat} (h : P.Connected u v) :
    (P.openGroups links).Connected u v := by
  refine connected_of_inactive_imp h rfl ?_
  intro e he hopen
  by_contra hactive
  rw [((openGroups_isActive P links e).mp (by simpa using hactive)).1] at hopen
  cases hopen

/-- Opening groups of regions makes the regions coarser. -/
theorem IsConsistent.isFiner_openGroups (h : P.IsConsistent) (links : List (Nat × Nat)) :
    P.IsFiner (P.openGroups links).rebuild := by
  intro u hu v hv huv
  exact ((h.toIsArranged.openGroups links).rebuild_regionOf_eq_iff hu hv).mpr
    (connected_openGroups links (h.connected u hu v hv huv))

/-- Vertices that become connected lie in regions of one group. -/
theorem IsConsistent.linked_of_connected_openGroups (h : P.IsConsistent)
    {links : List (Nat × Nat)} (hlinks : ∀ link ∈ links, link.1 < P.regionCount ∧
      link.2 < P.regionCount) {u v : Nat} (huv : (P.openGroups links).Connected u v) :
    Linked links (P.regionOf u) (P.regionOf v) := by
  induction huv with
  | rel a b hab =>
      -- An edge that was opened joins regions of one group, one that was open joins no two.
      obtain ⟨e, he, heq⟩ := List.mem_map.mp hab
      obtain ⟨rfl, rfl⟩ := Prod.mk.inj heq
      obtain ⟨hlt, hopen⟩ := mem_inactiveEdges.mp he
      have hlt' : e < P.edgeCount := hlt
      have htail := h.regionOf_lt (h.graph_valid.tail_lt e hlt')
      have hhead := h.regionOf_lt (h.graph_valid.head_lt e hlt')
      apply (Components.labelOf_labels_eq_iff hlinks htail hhead).mp
      by_contra hne
      by_cases hactive : P.isActive e = true
      · have hstill := (openGroups_isActive P links e).mpr ⟨hactive, .inr hne⟩
        rw [hstill] at hopen
        cases hopen
      · exact hne (congrArg _ (h.regionOf_eq_of_inactive hlt' (by simpa using hactive)))
  | refl => exact Relation.EqvGen.refl _
  | symm _ _ _ ih => exact ih.symm
  | trans _ _ _ _ _ hab hbc => exact hab.trans _ _ _ hbc

/-- The ends of an edge that joins two linked regions lie in linked regions. -/
theorem linked_of_joins {links : List (Nat × Nat)} {a b e : Nat} (hlink : (a, b) ∈ links)
    (hjoin : P.joins a b e = true) :
    Linked links (P.regionOf (P.graph.tailOf e)) (P.regionOf (P.graph.headOf e)) := by
  rcases joins_iff.mp hjoin with ⟨rfl, rfl⟩ | ⟨rfl, rfl⟩
  · exact Relation.EqvGen.rel _ _ hlink
  · exact (Relation.EqvGen.rel _ _ hlink).symm

/-- An edge between regions of one group is opened. -/
theorem IsConsistent.connected_of_linked (h : P.IsConsistent) {links : List (Nat × Nat)}
    (hlinks : ∀ link ∈ links, link.1 < P.regionCount ∧ link.2 < P.regionCount) {e : Nat}
    (he : e < P.edgeCount)
    (hlinked : Linked links (P.regionOf (P.graph.tailOf e)) (P.regionOf (P.graph.headOf e))) :
    (P.openGroups links).Connected (P.graph.tailOf e) (P.graph.headOf e) := by
  refine connected_of_inactive he (by_contra fun hclosed => ?_)
  rcases (openGroups_isActive P links e).mp (by simpa using hclosed) with ⟨-, hout | hne⟩
  · exact Nat.not_lt.mpr hout he
  · exact hne ((Components.labelOf_labels_eq_iff hlinks
      (h.regionOf_lt (h.graph_valid.tail_lt e he))
      (h.regionOf_lt (h.graph_valid.head_lt e he))).mpr hlinked)

/-- The ends of the edges of the graph of the regions are regions. -/
theorem IsConsistent.reducedEdges_lt (h : P.IsConsistent) (hgraph : P.HasReducedGraph)
    {link : Nat × Nat} (hlink : link ∈ P.reducedEdges) :
    link.1 < P.regionCount ∧ link.2 < P.regionCount := by
  obtain ⟨a, b⟩ := link
  obtain ⟨-, e, he, hjoin⟩ := (hgraph.mem_reducedEdges a b).mp hlink
  have htail := h.regionOf_lt (h.graph_valid.tail_lt e he)
  have hhead := h.regionOf_lt (h.graph_valid.head_lt e he)
  rcases joins_iff.mp hjoin with ⟨rfl, rfl⟩ | ⟨rfl, rfl⟩
  · exact ⟨htail, hhead⟩
  · exact ⟨hhead, htail⟩

theorem IsCoherent.reducedEdges_lt (h : P.IsCoherent) {link : Nat × Nat}
    (hlink : link ∈ P.reducedEdges) : link.1 < P.regionCount ∧ link.2 < P.regionCount :=
  h.toIsConsistent.reducedEdges_lt h.toHasReducedGraph hlink

/-- The groups that are opened are those that chains of the links join. -/
theorem IsCoherent.connected_openGroups_iff (h : P.IsCoherent) {links : List (Nat × Nat)}
    (hlinks : ∀ link ∈ links, link ∈ P.reducedEdges) {u v : Nat} (hu : u < P.vertexCount)
    (hv : v < P.vertexCount) :
    (P.openGroups links).Connected u v ↔ Linked links (P.regionOf u) (P.regionOf v) := by
  have hlt : ∀ link ∈ links, link.1 < P.regionCount ∧ link.2 < P.regionCount :=
    fun link hlink => h.reducedEdges_lt (hlinks link hlink)
  refine ⟨h.linked_of_connected_openGroups hlt, fun hlinked => ?_⟩
  have hinside : ∀ {u v}, u < P.vertexCount → v < P.vertexCount → P.regionOf u = P.regionOf v →
      (P.openGroups links).Connected u v := fun hu hv heq =>
    connected_openGroups links (h.connected _ hu _ hv heq)
  generalize ha : P.regionOf u = a at hlinked
  generalize hb : P.regionOf v = b at hlinked
  induction hlinked generalizing u v with
  | rel a b hab =>
      -- the link stands for an edge, whose ends are connected to all vertices of the two regions
      obtain ⟨-, e, he, hjoin⟩ := (h.mem_reducedEdges a b).mp (hlinks _ hab)
      have htail := h.graph_valid.tail_lt e he
      have hhead := h.graph_valid.head_lt e he
      have hedge := h.connected_of_linked hlt he (linked_of_joins hab hjoin)
      rcases joins_iff.mp hjoin with ⟨hta, hhb⟩ | ⟨htb, hha⟩
      · exact (hinside hu htail (ha.trans hta.symm)).trans _ _ _
          (hedge.trans _ _ _ (hinside hhead hv (hhb.trans hb.symm)))
      · exact (hinside hu hhead (ha.trans hha.symm)).trans _ _ _
          (hedge.symm.trans _ _ _ (hinside htail hv (htb.trans hb.symm)))
  | refl => exact hinside hu hv (ha.trans hb.symm)
  | symm _ _ _ ih => exact (ih hv hu hb ha).symm
  | trans a b c hab _ ihab ihbc =>
      have hblt : b < P.regionCount := (Linked.lt_iff hlt hab).mp (ha ▸ h.regionOf_lt hu)
      obtain ⟨hwlt, hw⟩ := h.regionOf_representative hblt
      exact (ihab hu hwlt ha hw).trans _ _ _ (ihbc hwlt hv hw hb)

end Groups

variable {K : Type} [ExactField K] {P : Partition K}

theorem areClose_zero_iff (a b : K) : areClose 0 a b = true ↔ a = b := by
  rw [areClose, decide_eq_true_eq, Scalar.abs_eq, zero_mul, abs_nonpos_iff, sub_eq_zero]

theorem mem_reducedEdges_of_mem_closePairs {x : Vec K} {tolerance : K} {link : Nat × Nat}
    (h : link ∈ P.closePairs x tolerance) : link ∈ P.reducedEdges :=
  Array.mem_def.mpr (List.mem_filter.mp h).1

/-- The pairs of regions with close values are pairs of regions. -/
theorem IsCoherent.closePairs_lt (h : P.IsCoherent) (x : Vec K) (tolerance : K) :
    ∀ link ∈ P.closePairs x tolerance, link.1 < P.regionCount ∧ link.2 < P.regionCount :=
  fun _ hlink => h.reducedEdges_lt (mem_reducedEdges_of_mem_closePairs hlink)

/-- Regions of one group have one value, where only equal values are close. -/
theorem eq_of_linked_closePairs {x : Vec K} {a b : Nat} (h : Linked (P.closePairs x 0) a b) :
    Vec.entry x a = Vec.entry x b := by
  induction h with
  | rel a b hab => exact (areClose_zero_iff _ _).mp (List.mem_filter.mp hab).2
  | refl => rfl
  | symm _ _ _ ih => exact ih.symm
  | trans _ _ _ _ _ hab hbc => exact hab.trans hbc

/-- A merger makes the regions coarser. -/
theorem IsCoherent.merge?_coarser (h : P.IsCoherent) {x y : Vec K} {tolerance : K} {merged : Int}
    (hok : (P.merge? x tolerance).2 = .ok (y, merged)) {u v : Nat} (hu : u < P.vertexCount)
    (hv : v < P.vertexCount) (huv : P.regionOf u = P.regionOf v) :
    (P.merge? x tolerance).1.regionOf u = (P.merge? x tolerance).1.regionOf v := by
  rcases merge?_eq_ok hok with ⟨-, hsame, -, -⟩ | ⟨-, hrebuilt, -, -⟩
  · rw [hsame, huv]
  · rw [hrebuilt]
    exact h.isFiner_openGroups _ u hu v hv huv

/-- A merger of equal values keeps the value of every vertex. -/
theorem IsCoherent.merge?_entry (h : P.IsCoherent) {x y : Vec K} {merged : Int}
    (hok : (P.merge? x 0).2 = .ok (y, merged)) {v : Nat} (hv : v < P.vertexCount) :
    Vec.entry y ((P.merge? x 0).1.regionOf v) = Vec.entry x (P.regionOf v) := by
  rcases merge?_eq_ok hok with ⟨-, hsame, rfl, -⟩ | ⟨-, hrebuilt, rfl, -⟩
  · rw [hsame]
  · have hopened := h.toIsArranged.openGroups (P.closePairs x 0)
    have hQ : (P.openGroups (P.closePairs x 0)).rebuild.reduceGraph.IsCoherent :=
      hopened.isCoherent_rebuild
    rw [hrebuilt]
    apply hQ.entry_regionMeans (hQ.regionOf_lt hv)
    intro w hw
    obtain ⟨hlt, hregion⟩ := mem_members.mp hw
    rw [entry_expand P x hlt]
    refine eq_of_linked_closePairs (h.linked_of_connected_openGroups (h.closePairs_lt x 0) ?_)
    exact (hopened.rebuild_regionOf_eq_iff hlt hv).mp hregion

/-! ## What a merger leaves -/

/-- Opening a group of several regions makes them fewer. -/
theorem IsCoherent.regionCount_openGroups_lt (h : P.IsCoherent) {links : List (Nat × Nat)}
    (hlinks : ∀ link ∈ links, link ∈ P.reducedEdges) (hsome : links ≠ []) :
    (P.openGroups links).rebuild.regionCount < P.regionCount := by
  have hopened := h.toIsArranged.openGroups links
  have hindexed : P.IsIndexed := h.mem_region
  have hlt : ∀ link ∈ links, link.1 < P.regionCount ∧ link.2 < P.regionCount :=
    fun link hlink => h.reducedEdges_lt (hlinks link hlink)
  obtain ⟨⟨a, b⟩, hlink⟩ := List.exists_mem_of_ne_nil links hsome
  obtain ⟨hab, e, he, hjoin⟩ := (h.mem_reducedEdges a b).mp (hlinks _ hlink)
  have htail := h.graph_valid.tail_lt e he
  have hhead := h.graph_valid.head_lt e he
  have hsame := (hopened.rebuild_regionOf_eq_iff htail hhead).mpr
    (h.connected_of_linked hlt he (linked_of_joins hlink hjoin))
  exact regionCount_lt_of_isFiner (P := (P.openGroups links).rebuild.reduceGraph)
    hopened.rebuild_reduceGraph h.toIsArranged hindexed rfl (h.isFiner_openGroups links) htail hhead
    hsame (separates_iff.mp (separates_of_joins hab hjoin))

/-- A merger that finds close values makes the regions fewer. -/
theorem IsCoherent.merge?_merged_pos (h : P.IsCoherent) {x y : Vec K} {tolerance : K} {merged : Int}
    (hok : (P.merge? x tolerance).2 = .ok (y, merged)) (hsome : P.closePairs x tolerance ≠ []) :
    0 < merged := by
  rcases merge?_eq_ok hok with ⟨hnone, -⟩ | ⟨-, -, -, rfl⟩
  · exact absurd hnone hsome
  · have hlt := h.regionCount_openGroups_lt (fun _ => mem_reducedEdges_of_mem_closePairs) hsome
    exact sub_pos.mpr (Int.ofNat_lt.mpr hlt)

/-- Two regions that an edge joins are a close pair if their values are equal. -/
theorem IsCoherent.exists_mem_closePairs (h : P.IsCoherent) {x : Vec K} {e : Nat}
    (he : e < P.edgeCount) (hsep : P.separates e = true)
    (heq : Vec.entry x (P.regionOf (P.graph.tailOf e)) =
      Vec.entry x (P.regionOf (P.graph.headOf e))) :
    ∃ a b, (a, b) ∈ P.closePairs x 0 ∧ P.joins a b e = true := by
  have hmem : ∀ a b, a < b → P.joins a b e = true → Vec.entry x a = Vec.entry x b →
      ∃ a b, (a, b) ∈ P.closePairs x 0 ∧ P.joins a b e = true := by
    intro a b hab hjoin hvalue
    refine ⟨a, b, List.mem_filter.mpr ⟨?_, (areClose_zero_iff _ _).mpr hvalue⟩, hjoin⟩
    exact Array.mem_def.mp ((h.mem_reducedEdges a b).mpr ⟨hab, e, he, hjoin⟩)
  rcases lt_or_gt_of_ne (separates_iff.mp hsep) with hlt | hlt
  · exact hmem _ _ hlt (joins_iff.mpr (.inl ⟨rfl, rfl⟩)) heq
  · exact hmem _ _ hlt (joins_iff.mpr (.inr ⟨rfl, rfl⟩)) heq.symm

/-- After a merger of equal values the regions that an edge joins have different values. -/
theorem IsCoherent.merge?_distinct (h : P.IsCoherent) {x y : Vec K} {merged : Int}
    (hok : (P.merge? x 0).2 = .ok (y, merged)) {e : Nat} (he : e < P.edgeCount)
    (hsep : (P.merge? x 0).1.regionOf (P.graph.tailOf e) ≠
      (P.merge? x 0).1.regionOf (P.graph.headOf e)) :
    Vec.entry y ((P.merge? x 0).1.regionOf (P.graph.tailOf e)) ≠
      Vec.entry y ((P.merge? x 0).1.regionOf (P.graph.headOf e)) := by
  have htail := h.graph_valid.tail_lt e he
  have hhead := h.graph_valid.head_lt e he
  rw [h.merge?_entry hok htail, h.merge?_entry hok hhead]
  intro heq
  have hformer : P.separates e = true :=
    separates_iff.mpr fun hsame => hsep (h.merge?_coarser hok htail hhead hsame)
  obtain ⟨a, b, hclose, hjoin⟩ := h.exists_mem_closePairs he hformer heq
  rcases merge?_eq_ok hok with ⟨hnone, -⟩ | ⟨-, hrebuilt, -⟩
  · rw [hnone] at hclose
    exact absurd hclose List.not_mem_nil
  · rw [hrebuilt] at hsep
    exact hsep (((h.toIsArranged.openGroups _).rebuild_regionOf_eq_iff htail hhead).mpr
      (h.connected_of_linked (h.closePairs_lt x 0) he (linked_of_joins hclose hjoin)))

section Outcome

variable {x y : Vec K} {tolerance : K} {merged : Int}

/-- A merger is not refused where each region has a value. -/
theorem IsCoherent.exists_merge? (h : P.IsCoherent) (hassigns : ∀ r ∈ P.assignment, r < P.regionCount)
    (hx : x.size = P.regionCount) (tolerance : K) :
    ∃ y merged, (P.merge? x tolerance).2 = .ok (y, merged) := by
  have hinside : ¬(P.reducedEdges.any fun p => x.size ≤ p.1 ∨ x.size ≤ p.2) = true := by
    rw [Bool.not_eq_true, Array.any_eq_false']
    intro p hp
    obtain ⟨hfirst, hsecond⟩ := h.reducedEdges_lt hp
    rw [hx, decide_eq_true_eq, not_or]
    exact ⟨Nat.not_le.mpr hfirst, Nat.not_le.mpr hsecond⟩
  have hcovers : P.covers x.size = true :=
    Array.all_eq_true'.mpr fun r hr => decide_eq_true (hx ▸ hassigns r hr)
  unfold Partition.merge?
  rw [if_neg hinside]
  dsimp only
  rw [if_pos hcovers]
  split
  next => exact ⟨x, 0, rfl⟩
  next => exact ⟨_, _, rfl⟩

/-- A merger takes away as many regions as it counts. -/
theorem merge?_merged_eq (hok : (P.merge? x tolerance).2 = .ok (y, merged)) :
    merged = Int.ofNat P.regionCount - Int.ofNat (P.merge? x tolerance).1.regionCount := by
  rcases merge?_eq_ok hok with ⟨-, hsame, -, rfl⟩ | ⟨-, hrebuilt, -, rfl⟩
  · rw [hsame, sub_self]
  · rw [hrebuilt]

theorem merge?_frame (hok : (P.merge? x tolerance).2 = .ok (y, merged)) :
    (P.merge? x tolerance).1.graph = P.graph ∧
      (P.merge? x tolerance).1.edgeWeights = P.edgeWeights ∧
      (P.merge? x tolerance).1.lastAssignment = P.lastAssignment := by
  rcases merge?_eq_ok hok with ⟨-, hsame, -⟩ | ⟨-, hrebuilt, -⟩
  · rw [hsame]
    exact ⟨rfl, rfl, rfl⟩
  · rw [hrebuilt]
    exact ⟨rfl, rfl, rfl⟩

theorem merge?_vertexCount (hok : (P.merge? x tolerance).2 = .ok (y, merged)) :
    (P.merge? x tolerance).1.vertexCount = P.vertexCount :=
  congrArg ForwardStar.vertices (merge?_frame hok).1

theorem merge?_edgeCount (hok : (P.merge? x tolerance).2 = .ok (y, merged)) :
    (P.merge? x tolerance).1.edgeCount = P.edgeCount :=
  congrArg ForwardStar.edges (merge?_frame hok).1

/-- After a merger an edge is a boundary unless a chain of close values joins the regions of its
ends. -/
theorem IsCoherent.merge?_isActive_iff (h : P.IsCoherent) (hx : x.size = P.regionCount)
    (hok : (P.merge? x tolerance).2 = .ok (y, merged)) {e : Nat} (he : e < P.edgeCount) :
    (P.merge? x tolerance).1.isActive e = true ↔ ¬Linked (P.closePairs x tolerance)
      (P.regionOf (P.graph.tailOf e)) (P.regionOf (P.graph.headOf e)) := by
  obtain ⟨hcoherent, -⟩ := h.merge? hx hok
  obtain ⟨hgraph, -, -⟩ := merge?_frame hok
  have htail := h.graph_valid.tail_lt e he
  have hhead := h.graph_valid.head_lt e he
  rw [hcoherent.isActive_iff e (merge?_edgeCount hok ▸ he), hgraph, not_iff_not]
  rcases merge?_eq_ok hok with ⟨hnone, hsame, -⟩ | ⟨-, hrebuilt, -⟩
  · rw [hsame, hnone]
    exact Components.linked_nil_iff.symm
  · rw [hrebuilt]
    change (P.openGroups _).rebuild.regionOf _ = (P.openGroups _).rebuild.regionOf _ ↔ _
    rw [(h.toIsArranged.openGroups _).rebuild_regionOf_eq_iff htail hhead]
    exact ⟨h.linked_of_connected_openGroups (h.closePairs_lt x tolerance),
      h.connected_of_linked (h.closePairs_lt x tolerance) he⟩

/-- After a merger a region is solved exactly if its vertices were a solved region. -/
theorem IsCoherent.merge?_isSaturated_iff (h : P.IsCoherent)
    (hok : (P.merge? x tolerance).2 = .ok (y, merged)) {v : Nat} (hv : v < P.vertexCount) :
    (P.merge? x tolerance).1.isSaturated ((P.merge? x tolerance).1.regionOf v) = true ↔
      P.isSaturated (P.regionOf v) = true ∧ ∀ u < P.vertexCount,
        ((P.merge? x tolerance).1.regionOf u = (P.merge? x tolerance).1.regionOf v ↔
          P.regionOf u = P.regionOf v) := by
  rcases merge?_eq_ok hok with ⟨-, hsame, -⟩ | ⟨-, hrebuilt, -⟩
  · rw [hsame]
    exact ⟨fun hmark => ⟨hmark, fun _ _ => Iff.rfl⟩, fun hmark => hmark.1⟩
  · rw [hrebuilt]
    exact (h.toIsArranged.openGroups _).rebuild_isSaturated_iff h.mem_region
      (.inr (h.isFiner_openGroups _)) hv

end Outcome

end TotalVariation.Partition
