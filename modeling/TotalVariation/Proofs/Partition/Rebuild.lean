import Mathlib
import TotalVariation.Proofs.Numeric.Exact
import TotalVariation.Proofs.Partition.Coherent

/-! # Rebuilt regions

The rebuilt regions are the components of the inactive edges. They are numbered in the order in
which the former arena meets them, and each lists its vertices in their former order. So nothing is
left to do for a second rebuilding.
-/

namespace TotalVariation.Partition

open Components (labelOf)

variable {α : Type} {P : Partition α}

/-! ## Lists in the order of the arena -/

theorem IsArranged.isIndexed_rebuild (h : P.IsArranged) : P.rebuild.IsIndexed :=
  fun _ hr v => h.mem_rebuild_region hr v

theorem region_sublist_arena (P : Partition α) (r : Nat) : (P.region r).Sublist P.arena := by
  by_cases hr : r < P.regions.length
  · have hmem : P.region r ∈ P.regions := by simp [region, hr]
    exact List.sublist_flatten_of_mem hmem
  · have hnil : P.region r = [] := by simp [region, hr]
    rw [hnil]
    exact List.nil_sublist _

theorem IsArranged.lt_of_mem_region (h : P.IsArranged) {r v : Nat} (hv : v ∈ P.region r) :
    v < P.vertexCount :=
  h.mem_arena.mp ((P.region_sublist_arena r).mem hv)

/-- Lists in the order of the arena are equal if they have the same vertices. -/
theorem IsArranged.eq_of_sublist (h : P.IsArranged) {xs ys : List Nat} (hxs : xs.Sublist P.arena)
    (hys : ys.Sublist P.arena) (hmem : ∀ v, v ∈ xs ↔ v ∈ ys) : xs = ys := by
  apply (h.nodup_arena.perm_iff_eq_of_sublist hxs hys).mp
  have hnodup := h.nodup_arena
  exact (List.perm_ext_iff_of_nodup (hnodup.sublist hxs) (hnodup.sublist hys)).mpr hmem

theorem rebuild_region_sublist_arena (P : Partition α) (r : Nat) :
    (P.rebuild.region r).Sublist P.arena := by
  by_cases hr : r < P.labelOrder.length
  · rw [rebuild_region P hr]
    exact List.filter_sublist
  · have hnil : P.rebuild.region r = [] := by simp [region, rebuild_regions, hr]
    rw [hnil]
    exact List.nil_sublist _

/-- A rebuilt region lists its vertices in the order of the former arena. -/
theorem IsArranged.rebuild_region_eq_filter (h : P.IsArranged) {r : Nat}
    (hr : r < P.rebuild.regionCount) :
    P.rebuild.region r = P.arena.filter fun v => P.rebuild.regionOf v == r := by
  apply h.eq_of_sublist (P.rebuild_region_sublist_arena r) List.filter_sublist
  intro v
  rw [h.mem_rebuild_region hr, List.mem_filter, h.mem_arena, beq_iff_eq]

/-! ## The order of first appearance -/

theorem pairwise_firstAppearances (seen xs : List Nat) :
    (firstAppearances seen xs).Pairwise fun a b => xs.idxOf a < xs.idxOf b := by
  -- Past the head all positions grow by one, as long as the head itself is none of the later.
  have hlater : ∀ {y : Nat} {ys seen : List Nat}, y ∈ seen →
      (firstAppearances seen ys).Pairwise (fun a b => ys.idxOf a < ys.idxOf b) →
      (firstAppearances seen ys).Pairwise fun a b => (y :: ys).idxOf a < (y :: ys).idxOf b := by
    intro y ys seen hy hpairwise
    apply hpairwise.imp_of_mem
    intro a b ha hb hab
    have hne : ∀ {c : Nat}, c ∈ firstAppearances seen ys → y ≠ c := by
      rintro c hc rfl
      exact (mem_firstAppearances.mp hc).2 hy
    rw [List.idxOf_cons_ne _ (hne ha), List.idxOf_cons_ne _ (hne hb)]
    exact Nat.succ_lt_succ hab
  induction xs generalizing seen with
  | nil => exact List.Pairwise.nil
  | cons y ys ih =>
      unfold firstAppearances
      split
      next hseen => exact hlater (by simpa using hseen) (ih seen)
      next =>
        refine List.pairwise_cons.mpr ⟨?_, hlater List.mem_cons_self (ih _)⟩
        intro b hb
        have hne : y ≠ b := by
          rintro rfl
          exact (mem_firstAppearances.mp hb).2 List.mem_cons_self
        rw [List.idxOf_cons_self, List.idxOf_cons_ne _ hne]
        exact Nat.succ_pos _

/-- What was seen before does not appear first. -/
theorem firstAppearances_append_of_seen {seen xs : List Nat} (ys : List Nat)
    (h : ∀ x ∈ xs, x ∈ seen) : firstAppearances seen (xs ++ ys) = firstAppearances seen ys := by
  induction xs with
  | nil => rfl
  | cons x xs ih =>
      have hx : seen.contains x = true := by simpa using h x List.mem_cons_self
      rw [List.cons_append, firstAppearances, if_pos hx]
      exact ih fun x hmem => h x (List.mem_cons_of_mem _ hmem)

/-- In a list made of blocks, one for each of different numbers, the numbers appear in the order of
their blocks. -/
theorem firstAppearances_flatMap {order seen : List Nat} {block : Nat → List Nat}
    (hnodup : order.Nodup) (hseen : ∀ l ∈ order, l ∉ seen)
    (hblock : ∀ l ∈ order, block l ≠ [] ∧ ∀ x ∈ block l, x = l) :
    firstAppearances seen (order.flatMap block) = order := by
  induction order generalizing seen with
  | nil => rfl
  | cons l order ih =>
      obtain ⟨hnot, hrest⟩ := List.nodup_cons.mp hnodup
      obtain ⟨hne, hall⟩ := hblock l List.mem_cons_self
      obtain ⟨x, rest, hcons⟩ := List.exists_cons_of_ne_nil hne
      rw [hcons] at hall
      obtain rfl : x = l := hall x List.mem_cons_self
      have hnew : ¬seen.contains x = true := by simpa using hseen x List.mem_cons_self
      rw [List.flatMap_cons, hcons, List.cons_append, firstAppearances, if_neg hnew,
        firstAppearances_append_of_seen]
      · congr 1
        apply ih hrest
        · intro m hm hmem
          rcases List.mem_cons.mp hmem with rfl | hmem
          · exact hnot hm
          · exact hseen m (List.mem_cons_of_mem _ hm) hmem
        · exact fun m hm => hblock m (List.mem_cons_of_mem _ hm)
      · intro y hy
        rw [hall y (List.mem_cons_of_mem _ hy)]
        exact List.mem_cons_self

theorem findIdx_congr {β : Type} {p q : β → Bool} {xs : List β} (h : ∀ x ∈ xs, p x = q x) :
    xs.findIdx p = xs.findIdx q := by
  have hmap (f : β → Bool) : xs.findIdx f = (xs.map f).findIdx id := by
    rw [List.findIdx_map, Function.id_comp]
  rw [hmap p, hmap q, List.map_congr_left h]

/-- The former arena meets the rebuilt regions in the order of their numbers. -/
theorem IsArranged.findIdx_rebuild_lt (h : P.IsArranged) {r s : Nat} (hrs : r < s)
    (hs : s < P.rebuild.regionCount) :
    P.arena.findIdx (fun v => P.rebuild.regionOf v == r) <
      P.arena.findIdx fun v => P.rebuild.regionOf v == s := by
  rw [rebuild_regionCount] at hs
  have hposition : ∀ {i : Nat} (hi : i < P.labelOrder.length),
      P.arena.findIdx (fun v => P.rebuild.regionOf v == i) =
        (P.arena.map (labelOf P.componentLabels)).idxOf P.labelOrder[i] := by
    intro i hi
    rw [List.idxOf, List.findIdx_map]
    apply findIdx_congr
    intro v hv
    have hlt := h.mem_arena.mp hv
    have hregion := (h.mem_rebuild_region (P.rebuild_regionCount ▸ hi) v)
    rw [rebuild_region P hi, List.mem_filter, h.mem_arena, and_iff_right hlt,
      and_iff_right hlt] at hregion
    exact (Bool.eq_iff_iff.mpr (hregion.trans beq_iff_eq.symm)).symm
  rw [hposition (hrs.trans hs), hposition hs]
  exact List.pairwise_iff_getElem.mp (pairwise_firstAppearances _ _) r s _ _ hrs

/-! ## Rebuilding twice -/

/-- Regions that stay keep their marks. -/
theorem carryMarks_self {regions : List (List Nat)} {marks : Array Bool} {regionOf : Nat → Nat}
    (hsize : marks.size = regions.length)
    (hhead : ∀ r < regions.length, regionOf ((regions.getD r []).headD 0) = r) :
    carryMarks regions marks regionOf regions = marks := by
  have hcarry : carryMarks regions marks regionOf regions =
      (List.range regions.length).foldl (fun a r => a.setIfInBounds r (marks.getD r false))
        (Array.replicate regions.length false) := by
    apply List.foldl_ext
    intro a r hr
    dsimp only
    rw [hhead r (List.mem_range.mp hr), if_pos rfl]
  apply Array.ext
  · rw [size_carryMarks, hsize]
  · intro r hr hr'
    have hentry := getD_foldl_range regions.length (fun r => marks.getD r false)
      (Array.replicate regions.length false) r false
    rw [← hcarry, Array.size_replicate, if_pos ⟨hsize ▸ hr', hsize ▸ hr'⟩] at hentry
    simpa [hr, hr'] using hentry

theorem labels_region {l v : Nat}
    (hv : v ∈ P.arena.filter fun v => labelOf P.componentLabels v == l) :
    labelOf P.componentLabels v = l :=
  beq_iff_eq.mp (List.mem_filter.mp hv).2

namespace IsArranged

/-- The rebuilt arena meets the components in the order in which the former one does. -/
theorem labelOrder_rebuild (h : P.IsArranged) : P.rebuild.labelOrder = P.labelOrder := by
  have hblocks : P.rebuild.arena.map (labelOf P.componentLabels) =
      P.labelOrder.flatMap fun l =>
        (P.arena.filter fun v => labelOf P.componentLabels v == l).map
          (labelOf P.componentLabels) := by
    rw [arena, rebuild_regions, List.map_flatten, List.map_map, List.flatMap_def]
    rfl
  change firstAppearances [] (P.rebuild.arena.map (labelOf P.componentLabels)) = P.labelOrder
  rw [hblocks]
  apply firstAppearances_flatMap (nodup_firstAppearances _ _)
  · exact fun l _ => List.not_mem_nil
  · intro l hl
    constructor
    · have hne := h.rebuild.region_ne_nil _ (P.rebuild_regions ▸ List.mem_map_of_mem hl)
      simpa using hne
    · intro m hm
      obtain ⟨v, hv, rfl⟩ := List.mem_map.mp hm
      exact labels_region hv

theorem regions_rebuild_rebuild (h : P.IsArranged) :
    P.rebuild.rebuild.regions = P.rebuild.regions := by
  change (P.rebuild.labelOrder.map fun l => P.rebuild.arena.filter fun v =>
    labelOf P.componentLabels v == l) = P.rebuild.regions
  rw [h.labelOrder_rebuild, rebuild_regions]
  apply List.map_congr_left
  intro l hl
  have hmem : (P.arena.filter fun v => labelOf P.componentLabels v == l) ∈ P.rebuild.regions :=
    List.mem_map_of_mem hl
  apply h.rebuild.eq_of_sublist List.filter_sublist (List.sublist_flatten_of_mem hmem)
  intro v
  rw [List.mem_filter, List.mem_filter, h.rebuild.mem_arena, h.mem_arena]
  rfl

theorem assignment_rebuild_rebuild (h : P.IsArranged) :
    P.rebuild.rebuild.assignment = P.rebuild.assignment := by
  change (Vec.tabulate P.vertexCount fun v =>
    P.rebuild.labelOrder.idxOf (labelOf P.componentLabels v)) = P.rebuild.assignment
  rw [h.labelOrder_rebuild]
  rfl

theorem regionOf_representative (h : P.IsArranged) (hindexed : P.IsIndexed) {r : Nat}
    (hr : r < P.regionCount) : P.regionOf (P.representative r) = r :=
  ((hindexed r hr _).mp (h.representative_mem hr)).2

/-- The marks of the rebuilt regions are carried over to themselves. -/
theorem carryMarks_rebuild (h : P.IsArranged) {marks : Array Bool}
    (hsize : marks.size = P.rebuild.regionCount) :
    carryMarks P.rebuild.regions marks P.rebuild.rebuild.regionOf P.rebuild.rebuild.regions =
      marks := by
  rw [h.regions_rebuild_rebuild]
  apply carryMarks_self hsize
  intro r hr
  rw [regionOf, h.assignment_rebuild_rebuild]
  exact h.rebuild.regionOf_representative h.isIndexed_rebuild hr

/-- A second rebuilding changes nothing. -/
theorem rebuild_rebuild (h : P.IsArranged) : P.rebuild.rebuild = P.rebuild := by
  have heq : P.rebuild.rebuild = { P.rebuild with
      assignment := P.rebuild.rebuild.assignment
      regions := P.rebuild.rebuild.regions
      saturated := carryMarks P.rebuild.regions P.rebuild.saturated P.rebuild.rebuild.regionOf
        P.rebuild.rebuild.regions
      medianCached := carryMarks P.rebuild.regions P.rebuild.medianCached
        P.rebuild.rebuild.regionOf P.rebuild.rebuild.regions } := rfl
  rw [heq, h.carryMarks_rebuild (size_rebuild_saturated P),
    h.carryMarks_rebuild (size_rebuild_medianCached P), h.assignment_rebuild_rebuild,
    h.regions_rebuild_rebuild]

end IsArranged

/-! ## The arrangement of the components -/

/-- The regions of `Q` are the components of the inactive edges of `P`. None of them is empty, and
one after the other, between their offsets, they make up a permutation of the vertices. The arena of
`P` meets them in the order of their numbers, and their vertices in the order in which they are
listed. -/
structure ArrangesComponents (P Q : Partition α) : Prop where
  regionOf_eq_iff : ∀ u < P.vertexCount, ∀ v < P.vertexCount,
    Q.regionOf u = Q.regionOf v ↔ P.Connected u v
  arena_perm : Q.arena.Perm (List.range P.vertexCount)
  length_offsets : Q.offsets.length = Q.regionCount + 1
  offsets_first : Q.offsets.getD 0 0 = 0
  offsets_lt : Q.offsets.Pairwise (· < ·)
  offsets_last : Q.offsets.getD Q.regionCount 0 = P.vertexCount
  findIdx_lt : ∀ r s, r < s → s < Q.regionCount →
    P.arena.findIdx (fun v => Q.regionOf v == r) < P.arena.findIdx fun v => Q.regionOf v == s
  segment_eq : ∀ r < Q.regionCount, Q.segment r = P.arena.filter fun v => Q.regionOf v == r

theorem IsArranged.arrangesComponents_rebuild (h : P.IsArranged) :
    P.ArrangesComponents P.rebuild where
  regionOf_eq_iff := fun _ hu _ hv => h.rebuild_regionOf_eq_iff hu hv
  arena_perm := h.rebuild.arena_perm
  length_offsets := P.rebuild.length_offsets
  offsets_first := by
    rw [offsets_getD _ (Nat.zero_le _)]
    rfl
  offsets_lt := h.rebuild.offsets_lt
  offsets_last := h.rebuild.offsets_last
  findIdx_lt := fun _ _ hrs hs => h.findIdx_rebuild_lt hrs hs
  segment_eq := by
    intro r hr
    rw [segment_eq_region _ hr]
    exact h.rebuild_region_eq_filter hr

/-- Whatever edges are active, rebuilding an arranged partition arranges the components of the
others, and rebuilding it again changes nothing. -/
theorem arrangesComponents_of_flags (h : P.IsArranged) {flags : Array Bool}
    (hsize : flags.size = P.edgeCount) :
    let Q := { P with active := flags }
    Q.ArrangesComponents Q.rebuild ∧ Q.rebuild.rebuild = Q.rebuild := by
  have hflags : { P with active := flags }.IsArranged :=
    ⟨h.graph_valid, hsize, h.arena_perm, h.region_ne_nil⟩
  exact ⟨hflags.arrangesComponents_rebuild, hflags.rebuild_rebuild⟩

/-- Five vertices and six edges, two of them parallel, in an arena that is out of order. -/
def shuffled : Partition ℚ :=
  (whole ⟨#[0, 2, 3, 4, 6, 6], #[0, 0, 1, 2, 3, 3], #[1, 2, 2, 3, 4, 4]⟩ ⟨none, 1⟩).setRegion 0
    [3, 1, 4, 0, 2]

theorem isArranged_shuffled : shuffled.IsArranged := by
  have hwhole : ofIndex? #[0, 2, 3, 4, 6, 6] #[1, 2, 2, 3, 4, 4] none (1 : ℚ) = .ok
      (whole ⟨#[0, 2, 3, 4, 6, 6], #[0, 0, 1, 2, 3, 3], #[1, 2, 2, 3, 4, 4]⟩ ⟨none, 1⟩) := by
    with_unfolding_all rfl
  exact ⟨(isArranged_of_ofIndex? hwhole).graph_valid, rfl, by decide, by decide⟩

theorem arrangesComponents_of_flags_shuffled :
    let Q := { shuffled with active := #[true, false, true, true, false, true] }
    Q.rebuild.regions = [[3, 4], [1], [0, 2]] ∧ Q.ArrangesComponents Q.rebuild ∧
      Q.rebuild.rebuild = Q.rebuild :=
  ⟨by decide +kernel, arrangesComponents_of_flags isArranged_shuffled rfl⟩

end TotalVariation.Partition
