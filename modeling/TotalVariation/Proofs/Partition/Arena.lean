import Mathlib
import TotalVariation.Partition.Rebuild
import TotalVariation.Proofs.Graph.Components
import TotalVariation.Proofs.Graph.ForwardStar
import TotalVariation.Proofs.Marks

/-! # The arena of a partition

The vertices of a graph are arranged, region by region, in one list. Rebuilding the regions turns
any arrangement into that of the components of the inactive edges.
-/

namespace TotalVariation.Partition

open Components (Linked labelOf)

variable {α : Type}

/-- Every vertex of a valid graph lies once in the arena, and no region is empty. -/
structure IsArranged (P : Partition α) : Prop where
  graph_valid : P.graph.IsValid
  active_size : P.active.size = P.edgeCount
  arena_perm : P.arena.Perm (List.range P.vertexCount)
  region_ne_nil : ∀ vertices ∈ P.regions, vertices ≠ []

/-- The assignment names for each vertex the region that lists it. -/
def IsIndexed (P : Partition α) : Prop :=
  ∀ r < P.regionCount, ∀ v, v ∈ P.region r ↔ v < P.vertexCount ∧ P.regionOf v = r

/-- The two ends of each inactive edge. -/
def openLinks (P : Partition α) : List (Nat × Nat) :=
  P.inactiveEdges.map fun e => (P.graph.tailOf e, P.graph.headOf e)

/-- A chain of inactive edges joins two vertices. -/
abbrev Connected (P : Partition α) : Nat → Nat → Prop := Linked P.openLinks

theorem mem_inactiveEdges {P : Partition α} {e : Nat} :
    e ∈ P.inactiveEdges ↔ e < P.edgeCount ∧ P.isActive e = false := by
  simp [inactiveEdges]

theorem mem_activeEdges {P : Partition α} {e : Nat} :
    e ∈ P.activeEdges ↔ e < P.edgeCount ∧ P.isActive e = true := by
  simp [activeEdges]

theorem connected_of_inactive {P : Partition α} {e : Nat} (he : e < P.edgeCount)
    (hopen : P.isActive e = false) : P.Connected (P.graph.tailOf e) (P.graph.headOf e) :=
  Relation.EqvGen.rel _ _ (List.mem_map.mpr ⟨e, mem_inactiveEdges.mpr ⟨he, hopen⟩, rfl⟩)

/-- What the two ends of every inactive edge share, connected vertices share. -/
theorem eq_of_connected {P : Partition α} {β : Type} {f : Nat → β}
    (hf : ∀ e < P.edgeCount, P.isActive e = false →
      f (P.graph.tailOf e) = f (P.graph.headOf e)) {u v : Nat} (huv : P.Connected u v) :
    f u = f v := by
  induction huv with
  | rel a b hab =>
      obtain ⟨e, he, heq⟩ := List.mem_map.mp hab
      obtain ⟨hlt, hopen⟩ := mem_inactiveEdges.mp he
      obtain ⟨rfl, rfl⟩ := Prod.mk.inj heq
      exact hf e hlt hopen
  | refl => rfl
  | symm a b _ ih => exact ih.symm
  | trans a b c _ _ hab hbc => exact hab.trans hbc

/-- Vertices stay connected if no inactive edge becomes active. -/
theorem connected_of_inactive_imp {P Q : Partition α} {u v : Nat} (huv : P.Connected u v)
    (hgraph : Q.graph = P.graph)
    (hopen : ∀ e < P.edgeCount, P.isActive e = false → Q.isActive e = false) :
    Q.Connected u v := by
  apply huv.mono
  intro a b hab
  obtain ⟨e, he, heq⟩ := List.mem_map.mp hab
  obtain ⟨hlt, hinactive⟩ := mem_inactiveEdges.mp he
  have hlt' : e < Q.edgeCount := by rwa [edgeCount, hgraph]
  exact List.mem_map.mpr
    ⟨e, mem_inactiveEdges.mpr ⟨hlt', hopen e hlt hinactive⟩, by rw [hgraph, heq]⟩

namespace IsArranged

variable {P : Partition α}

theorem mem_arena (h : P.IsArranged) {v : Nat} : v ∈ P.arena ↔ v < P.vertexCount := by
  rw [h.arena_perm.mem_iff, List.mem_range]

theorem nodup_arena (h : P.IsArranged) : P.arena.Nodup :=
  h.arena_perm.nodup_iff.mpr List.nodup_range

theorem region_ne_nil' (h : P.IsArranged) {r : Nat} (hr : r < P.regionCount) :
    P.region r ≠ [] := by
  have hr' : r < P.regions.length := hr
  exact h.region_ne_nil _ (by simp [region, hr'])

theorem representative_mem (h : P.IsArranged) {r : Nat} (hr : r < P.regionCount) :
    P.representative r ∈ P.region r := by
  obtain ⟨v, rest, hcons⟩ := List.exists_cons_of_ne_nil (h.region_ne_nil' hr)
  rw [representative, hcons]
  exact List.mem_cons_self

theorem regionOf_lt (h : P.IsArranged) (hindexed : P.IsIndexed) {v : Nat}
    (hv : v < P.vertexCount) : P.regionOf v < P.regionCount := by
  obtain ⟨vertices, hvertices, hmem⟩ := List.mem_flatten.mp (h.mem_arena.mpr hv)
  obtain ⟨r, hr, rfl⟩ := List.mem_iff_getElem.mp hvertices
  have hregion : P.region r = P.regions[r] := by simp [region, hr]
  rw [((hindexed r hr v).mp (hregion ▸ hmem)).2]
  exact hr

theorem assignment_lt (h : P.IsArranged) (hindexed : P.IsIndexed)
    (hsize : P.assignment.size = P.vertexCount) : ∀ r ∈ P.assignment, r < P.regionCount := by
  intro r hr
  obtain ⟨v, hv, rfl⟩ := Array.mem_iff_getElem.mp hr
  have hentry : P.regionOf v = P.assignment[v] := by simp [regionOf, hv]
  rw [← hentry]
  exact h.regionOf_lt hindexed (hsize ▸ hv)

theorem openLinks_lt (h : P.IsArranged) :
    ∀ link ∈ P.openLinks, link.1 < P.vertexCount ∧ link.2 < P.vertexCount := by
  intro link hlink
  obtain ⟨e, he, rfl⟩ := List.mem_map.mp hlink
  have hlt := (mem_inactiveEdges.mp he).1
  exact ⟨h.graph_valid.tail_lt e hlt, h.graph_valid.head_lt e hlt⟩

/-- The labels of the components tell which vertices are connected. -/
theorem label_eq_iff (h : P.IsArranged) {u v : Nat} (hu : u < P.vertexCount)
    (hv : v < P.vertexCount) :
    labelOf P.componentLabels u = labelOf P.componentLabels v ↔ P.Connected u v :=
  Components.labelOf_labels_eq_iff h.openLinks_lt hu hv

end IsArranged

/-! ## Order of first appearance -/

theorem mem_firstAppearances {seen xs : List Nat} {x : Nat} :
    x ∈ firstAppearances seen xs ↔ x ∈ xs ∧ x ∉ seen := by
  induction xs generalizing seen with
  | nil => simp [firstAppearances]
  | cons y ys ih =>
      unfold firstAppearances
      split
      next hseen =>
        have hy : y ∈ seen := by simpa using hseen
        rw [ih, List.mem_cons]
        constructor
        · rintro ⟨hx, hnot⟩
          exact ⟨.inr hx, hnot⟩
        · rintro ⟨rfl | hx, hnot⟩
          · exact absurd hy hnot
          · exact ⟨hx, hnot⟩
      next hseen =>
        have hy : y ∉ seen := by simpa using hseen
        rw [List.mem_cons, ih, List.mem_cons, List.mem_cons]
        by_cases hxy : x = y
        · subst hxy
          simp [hy]
        · simp [hxy]

theorem nodup_firstAppearances (seen xs : List Nat) : (firstAppearances seen xs).Nodup := by
  induction xs generalizing seen with
  | nil => exact List.nodup_nil
  | cons y ys ih =>
      unfold firstAppearances
      split
      next => exact ih seen
      next =>
        refine List.nodup_cons.mpr ⟨?_, ih _⟩
        intro hmem
        exact (mem_firstAppearances.mp hmem).2 List.mem_cons_self

/-! ## The rebuilt arena -/

/-- The labels of the components in the order in which the arena meets them. -/
def labelOrder (P : Partition α) : List Nat :=
  firstAppearances [] (P.arena.map (labelOf P.componentLabels))

theorem rebuild_regions (P : Partition α) :
    P.rebuild.regions =
      P.labelOrder.map fun l => P.arena.filter fun v => labelOf P.componentLabels v == l := rfl

theorem rebuild_regionCount (P : Partition α) : P.rebuild.regionCount = P.labelOrder.length := by
  simp [regionCount, rebuild_regions]

theorem rebuild_regionOf (P : Partition α) {v : Nat} (hv : v < P.vertexCount) :
    P.rebuild.regionOf v = P.labelOrder.idxOf (labelOf P.componentLabels v) := by
  change (Vec.tabulate P.vertexCount fun v =>
    P.labelOrder.idxOf (labelOf P.componentLabels v)).getD v 0 = _
  simp [Vec.tabulate, hv]

theorem rebuild_region (P : Partition α) {r : Nat} (hr : r < P.labelOrder.length) :
    P.rebuild.region r =
      P.arena.filter fun v => labelOf P.componentLabels v == P.labelOrder[r] := by
  simp [region, rebuild_regions, hr]

namespace IsArranged

variable {P : Partition α}

theorem label_mem_labelOrder (h : P.IsArranged) {v : Nat} (hv : v < P.vertexCount) :
    labelOf P.componentLabels v ∈ P.labelOrder :=
  mem_firstAppearances.mpr
    ⟨List.mem_map.mpr ⟨v, h.mem_arena.mpr hv, rfl⟩, List.not_mem_nil⟩

theorem rebuild_regionOf_lt (h : P.IsArranged) {v : Nat} (hv : v < P.vertexCount) :
    P.rebuild.regionOf v < P.rebuild.regionCount := by
  rw [rebuild_regionOf P hv, rebuild_regionCount]
  exact List.idxOf_lt_length_iff.mpr (h.label_mem_labelOrder hv)

/-- The rebuilt regions are the components of the inactive edges. -/
theorem rebuild_regionOf_eq_iff (h : P.IsArranged) {u v : Nat} (hu : u < P.vertexCount)
    (hv : v < P.vertexCount) :
    P.rebuild.regionOf u = P.rebuild.regionOf v ↔ P.Connected u v := by
  rw [rebuild_regionOf P hu, rebuild_regionOf P hv, ← h.label_eq_iff hu hv]
  exact List.idxOf_inj (h.label_mem_labelOrder hu)

theorem mem_rebuild_region (h : P.IsArranged) {r : Nat} (hr : r < P.rebuild.regionCount)
    (v : Nat) : v ∈ P.rebuild.region r ↔ v < P.vertexCount ∧ P.rebuild.regionOf v = r := by
  rw [rebuild_regionCount] at hr
  rw [rebuild_region P hr, List.mem_filter, h.mem_arena, beq_iff_eq]
  apply and_congr_right
  intro hv
  rw [rebuild_regionOf P hv]
  constructor
  · intro heq
    rw [heq]
    exact (nodup_firstAppearances _ _).idxOf_getElem r hr
  · rintro rfl
    exact (List.getElem_idxOf hr).symm

theorem rebuild_arena_nodup (h : P.IsArranged) : P.rebuild.arena.Nodup := by
  rw [arena, rebuild_regions, List.nodup_flatten]
  constructor
  · intro vertices hvertices
    obtain ⟨l, -, rfl⟩ := List.mem_map.mp hvertices
    exact h.nodup_arena.filter _
  · rw [List.pairwise_map]
    refine (nodup_firstAppearances _ _).imp fun {a b} hab => ?_
    intro v hva hvb
    have ha := (List.mem_filter.mp hva).2
    have hb := (List.mem_filter.mp hvb).2
    rw [beq_iff_eq] at ha hb
    exact hab (ha.symm.trans hb)

/-- Rebuilding keeps the arena an arrangement of all vertices. -/
theorem rebuild (h : P.IsArranged) : P.rebuild.IsArranged where
  graph_valid := h.graph_valid
  active_size := h.active_size
  arena_perm := by
    apply (List.perm_ext_iff_of_nodup h.rebuild_arena_nodup List.nodup_range).mpr
    intro v
    rw [List.mem_range, arena, List.mem_flatten, rebuild_regions]
    constructor
    · rintro ⟨vertices, hvertices, hv⟩
      obtain ⟨l, -, rfl⟩ := List.mem_map.mp hvertices
      exact h.mem_arena.mp (List.mem_filter.mp hv).1
    · intro hv
      refine ⟨_, List.mem_map.mpr ⟨_, h.label_mem_labelOrder hv, rfl⟩, ?_⟩
      exact List.mem_filter.mpr ⟨h.mem_arena.mpr hv, beq_self_eq_true _⟩
  region_ne_nil := by
    intro vertices hvertices hnil
    rw [rebuild_regions] at hvertices
    obtain ⟨l, hl, rfl⟩ := List.mem_map.mp hvertices
    obtain ⟨v, hv, hlabel⟩ := List.mem_map.mp (mem_firstAppearances.mp hl).1
    have hmem : v ∈ P.arena.filter fun v => labelOf P.componentLabels v == l :=
      List.mem_filter.mpr ⟨hv, by simpa using hlabel⟩
    rw [hnil] at hmem
    exact List.not_mem_nil hmem

end IsArranged

/-! ## Segments -/

/-- The part of the arena between the offsets of a region and of the next one. -/
def segment (P : Partition α) (r : Nat) : List Nat :=
  (P.arena.drop (P.offsets.getD r 0)).take (P.offsets.getD (r + 1) 0 - P.offsets.getD r 0)

theorem offsets_getD (P : Partition α) {r : Nat} (hr : r ≤ P.regionCount) :
    P.offsets.getD r 0 = ((P.regions.take r).map List.length).sum := by
  rw [offsets, ForwardStar.getD_runningSums 0 _ (by simpa [regionCount] using hr), Nat.zero_add,
    List.map_take]

/-- A region starts in the arena after the regions before it. -/
theorem offsets_getD_eq_length (P : Partition α) {r : Nat} (hr : r ≤ P.regionCount) :
    P.offsets.getD r 0 = (P.regions.take r).flatten.length := by
  rw [offsets_getD P hr, List.length_flatten]

/-- The arena is what lies before a region, the region, and what lies behind it. -/
theorem arena_eq_append (P : Partition α) {r : Nat} (hr : r < P.regionCount) :
    P.arena =
      (P.regions.take r).flatten ++ (P.region r ++ (P.regions.drop (r + 1)).flatten) := by
  have hr' : r < P.regions.length := hr
  have hregion : P.region r = P.regions[r] := by simp [region, hr']
  rw [hregion, ← List.flatten_cons, ← List.drop_eq_getElem_cons hr', ← List.flatten_append,
    List.take_append_drop, arena]

/-- The segment of a region is the list of its vertices. -/
theorem segment_eq_region (P : Partition α) {r : Nat} (hr : r < P.regionCount) :
    P.segment r = P.region r := by
  have hr' : r < P.regions.length := hr
  have hregion : P.region r = P.regions[r] := by simp [region, hr']
  have hcount : P.offsets.getD (r + 1) 0 - P.offsets.getD r 0 = (P.region r).length := by
    rw [offsets_getD P (Nat.le_of_lt hr), offsets_getD P hr,
      List.take_succ_eq_append_getElem hr', List.map_append, List.sum_append,
      Nat.add_sub_cancel_left, hregion]
    simp
  rw [segment, hcount, offsets_getD_eq_length P (Nat.le_of_lt hr), arena_eq_append P hr,
    List.drop_left, List.take_left]

theorem runningSums_lt (start : Nat) (ns : List Nat) (hpos : ∀ n ∈ ns, 0 < n) :
    (ForwardStar.runningSums start ns).Pairwise (· < ·) := by
  induction ns generalizing start with
  | nil => simp [ForwardStar.runningSums]
  | cons n ns ih =>
      have hn := hpos n List.mem_cons_self
      have htail := ih (start + n) fun m hm => hpos m (List.mem_cons_of_mem _ hm)
      refine List.pairwise_cons.mpr ⟨?_, htail⟩
      have hhead : ∀ (a : Nat) (ms : List Nat), ∀ m ∈ ForwardStar.runningSums a ms, a ≤ m := by
        intro a ms
        induction ms generalizing a with
        | nil => simp [ForwardStar.runningSums]
        | cons k ms ihms =>
            intro m hm
            rcases List.mem_cons.mp hm with rfl | hm
            · exact le_rfl
            · exact (Nat.le_add_right a k).trans (ihms _ m hm)
      intro m hm
      have := hhead _ _ m hm
      omega

namespace IsArranged

variable {P : Partition α}

/-- The offsets increase strictly. -/
theorem offsets_lt (h : P.IsArranged) : P.offsets.Pairwise (· < ·) := by
  apply runningSums_lt 0 _
  intro n hn
  obtain ⟨vertices, hmem, rfl⟩ := List.mem_map.mp hn
  exact List.length_pos_of_ne_nil (h.region_ne_nil vertices hmem)

theorem offsets_last (h : P.IsArranged) :
    P.offsets.getD P.regionCount 0 = P.vertexCount := by
  rw [offsets_getD P le_rfl, regionCount, List.take_length, ← List.length_flatten]
  have hlen := h.arena_perm.length_eq
  rwa [List.length_range] at hlen

end IsArranged

/-! ## Marks -/

/-- The former regions that have as many vertices as the new region of their first vertex give it
their marks, one after the other. -/
theorem carryMarks_eq_foldl (old : List (List Nat)) (marks : Array Bool) (regionOf : Nat → Nat)
    (regions : List (List Nat)) : carryMarks old marks regionOf regions =
      ((List.range old.length).filter fun o =>
        decide ((regions.getD (regionOf ((old.getD o []).headD 0)) []).length =
          (old.getD o []).length)).foldl
        (fun acc o => acc.setIfInBounds (regionOf ((old.getD o []).headD 0)) (marks.getD o false))
        (Array.replicate regions.length false) := by
  rw [List.foldl_filter, carryMarks]
  simp only [decide_eq_true_eq]

theorem size_carryMarks (old : List (List Nat)) (marks : Array Bool) (regionOf : Nat → Nat)
    (regions : List (List Nat)) : (carryMarks old marks regionOf regions).size = regions.length := by
  rw [carryMarks_eq_foldl, size_foldl_setIfInBounds, Array.size_replicate]

@[simp] theorem size_rebuild_saturated (P : Partition α) :
    P.rebuild.saturated.size = P.rebuild.regionCount :=
  size_carryMarks _ _ _ _

@[simp] theorem size_rebuild_medianCached (P : Partition α) :
    P.rebuild.medianCached.size = P.rebuild.regionCount :=
  size_carryMarks _ _ _ _

end TotalVariation.Partition
