import Mathlib
import TotalVariation.Proofs.Partition.Rebuild

/-! # Finer and coarser partitions

Opening boundaries makes the regions coarser, closing edges makes them finer. As long as only one of
the two happened, a rebuilt region that has as many vertices as a former one has the same, and in
the same order, so that it carries its marks with right. A finer partition that divides some region
has more of them.
-/

namespace TotalVariation.Partition

variable {α : Type} {P Q : Partition α}

/-- Vertices that share a region of `P` share a region of `Q`. -/
def IsFiner (P Q : Partition α) : Prop :=
  ∀ u < P.vertexCount, ∀ v < P.vertexCount,
    P.regionOf u = P.regionOf v → Q.regionOf u = Q.regionOf v

/-! ## Carried marks -/

/-- A former region looks unchanged where a new region has its first vertex and as many vertices. -/
def LooksUnchanged (old regions : List (List Nat)) (regionOf : Nat → Nat) (r o : Nat) : Prop :=
  regionOf ((old.getD o []).headD 0) = r ∧ (regions.getD r []).length = (old.getD o []).length

theorem getLast?_eq_some_iff_of_pairwise {l : List Nat} (h : l.Pairwise (· < ·)) {o : Nat} :
    l.getLast? = some o ↔ o ∈ l ∧ ∀ p ∈ l, p ≤ o := by
  rcases l.eq_nil_or_concat' with rfl | ⟨front, last, rfl⟩
  · simp
  · obtain ⟨-, -, hlast⟩ := List.pairwise_append.mp h
    have hle : ∀ p ∈ front ++ [last], p ≤ last := by
      intro p hp
      rcases List.mem_append.mp hp with hfront | hsame
      · exact (hlast p hfront last (List.mem_singleton.mpr rfl)).le
      · exact (List.mem_singleton.mp hsame).le
    have hmem : last ∈ front ++ [last] := List.mem_append_right _ (List.mem_singleton.mpr rfl)
    rw [List.getLast?_concat, Option.some.injEq]
    constructor
    · rintro rfl
      exact ⟨hmem, hle⟩
    · rintro ⟨ho, hmax⟩
      exact le_antisymm (hmax last hmem) (hle o ho)

/-- A new region takes the mark of the last former region that looks unchanged in it. -/
theorem carryMarks_eq_true_iff {old regions : List (List Nat)} {marks : Array Bool}
    {regionOf : Nat → Nat} {r : Nat} (hr : r < regions.length) :
    (carryMarks old marks regionOf regions).getD r false = true ↔
      ∃ o < old.length, LooksUnchanged old regions regionOf r o ∧
        (∀ p < old.length, LooksUnchanged old regions regionOf r p → p ≤ o) ∧
        marks.getD o false = true := by
  have hsize : r < (Array.replicate regions.length false).size := by rwa [Array.size_replicate]
  rw [carryMarks_eq_foldl, getD_foldl_setIfInBounds_last _ _ _ _ hsize, getD_replicate,
    List.filter_filter]
  set candidates := (List.range old.length).filter fun o =>
    (regionOf ((old.getD o []).headD 0) == r) &&
      decide ((regions.getD (regionOf ((old.getD o []).headD 0)) []).length =
        (old.getD o []).length) with hcandidates
  have hmem {o : Nat} : o ∈ candidates ↔ o < old.length ∧ LooksUnchanged old regions regionOf r o := by
    rw [hcandidates, List.mem_filter, List.mem_range, Bool.and_eq_true, beq_iff_eq, decide_eq_true_iff,
      LooksUnchanged]
    exact and_congr_right fun _ => and_congr_right fun hregion => by rw [hregion]
  have hlast {o : Nat} : candidates.getLast? = some o ↔ o ∈ candidates ∧ ∀ p ∈ candidates, p ≤ o :=
    getLast?_eq_some_iff_of_pairwise (List.pairwise_lt_range.filter _)
  have hsome : ((candidates.getLast?.map fun o => marks.getD o false).getD false = true) ↔
      ∃ o, candidates.getLast? = some o ∧ marks.getD o false = true := by
    cases candidates.getLast? <;> simp
  rw [hsome]
  refine exists_congr fun o => ?_
  rw [hlast, hmem, and_assoc, and_assoc]
  refine and_congr_right fun _ => and_congr_right fun _ => and_congr_left fun _ => ?_
  exact forall_congr' fun p => by rw [hmem, and_imp]

theorem eq_of_subset_of_length_eq {xs ys zs : List Nat} (hnodup : zs.Nodup) (hxs : xs.Sublist zs)
    (hys : ys.Sublist zs) (hsubset : xs ⊆ ys) (hlength : xs.length = ys.length) : xs = ys := by
  apply (hnodup.perm_iff_eq_of_sublist hxs hys).mp
  exact (List.subperm_of_subset (hnodup.sublist hxs) hsubset).perm_of_length_le hlength.ge

/-- Where the rebuilt regions are finer or coarser than the former ones, a region in which a former
one looks unchanged is that region. -/
theorem IsArranged.region_eq_of_looksUnchanged (h : P.IsArranged) (hindexed : P.IsIndexed)
    (hcomparable : P.rebuild.IsFiner P ∨ P.IsFiner P.rebuild) {r o : Nat}
    (hr : r < P.rebuild.regionCount) (ho : o < P.regionCount)
    (hlooks : LooksUnchanged P.regions P.rebuild.regions P.rebuild.regionOf r o) :
    P.rebuild.region r = P.region o := by
  obtain ⟨hhead, hlength⟩ := hlooks
  obtain ⟨hlt, hregion⟩ := (hindexed o ho _).mp (h.representative_mem ho)
  have hnew := P.rebuild_region_sublist_arena r
  rcases hcomparable with hfiner | hcoarser
  · apply eq_of_subset_of_length_eq h.nodup_arena hnew (P.region_sublist_arena o) ?_ hlength
    intro v hv
    obtain ⟨hvlt, hvregion⟩ := (h.mem_rebuild_region hr v).mp hv
    have hsame := hfiner v hvlt _ hlt (hvregion.trans hhead.symm)
    exact (hindexed o ho v).mpr ⟨hvlt, hsame.trans hregion⟩
  · symm
    apply eq_of_subset_of_length_eq h.nodup_arena (P.region_sublist_arena o) hnew ?_ hlength.symm
    intro v hv
    obtain ⟨hvlt, hvregion⟩ := (hindexed o ho v).mp hv
    have hsame := hcoarser v hvlt _ hlt (hvregion.trans hregion.symm)
    exact (h.mem_rebuild_region hr v).mpr ⟨hvlt, hsame.trans hhead⟩

/-- Where the rebuilt regions are finer or coarser than the former ones, a mark is carried to a
region from itself. -/
theorem IsArranged.exists_region_eq (h : P.IsArranged) (hindexed : P.IsIndexed)
    (hcomparable : P.rebuild.IsFiner P ∨ P.IsFiner P.rebuild) {marks : Array Bool} {r : Nat}
    (hr : r < P.rebuild.regionCount)
    (hmark : (carryMarks P.regions marks P.rebuild.regionOf P.rebuild.regions).getD r false =
      true) :
    ∃ o < P.regionCount, P.rebuild.region r = P.region o ∧ marks.getD o false = true := by
  obtain ⟨o, ho, hlooks, -, hmark⟩ := (carryMarks_eq_true_iff hr).mp hmark
  exact ⟨o, ho, h.region_eq_of_looksUnchanged hindexed hcomparable hr ho hlooks, hmark⟩

/-- A former region that is a rebuilt one looks unchanged there, and no other does. -/
theorem IsArranged.looksUnchanged_iff (h : P.IsArranged) (hindexed : P.IsIndexed) {r o p : Nat}
    (hr : r < P.rebuild.regionCount) (ho : o < P.regionCount) (hp : p < P.regionCount)
    (hsame : P.rebuild.region r = P.region o) :
    LooksUnchanged P.regions P.rebuild.regions P.rebuild.regionOf r p ↔ p = o := by
  have hhead {q : Nat} (hq : q < P.regionCount) :
      P.rebuild.regionOf (P.representative q) = r ↔ q = o := by
    obtain ⟨hlt, hregion⟩ := (hindexed q hq _).mp (h.representative_mem hq)
    have hin := h.mem_rebuild_region hr (P.representative q)
    rw [hsame, hindexed o ho, hregion, and_iff_right hlt, and_iff_right hlt] at hin
    exact hin.symm
  refine ⟨fun hlooks => (hhead hp).mp hlooks.1, ?_⟩
  rintro rfl
  exact ⟨(hhead hp).mpr rfl, congrArg List.length hsame⟩

/-- A rebuilt region with the vertices of a former one lists them as that one did. -/
theorem IsArranged.rebuild_region_eq (h : P.IsArranged) (hindexed : P.IsIndexed) {v : Nat}
    (hv : v < P.vertexCount) (hsame : ∀ u < P.vertexCount,
      (P.rebuild.regionOf u = P.rebuild.regionOf v ↔ P.regionOf u = P.regionOf v)) :
    P.rebuild.region (P.rebuild.regionOf v) = P.region (P.regionOf v) := by
  apply h.eq_of_sublist (P.rebuild_region_sublist_arena _) (P.region_sublist_arena _)
  intro u
  rw [h.mem_rebuild_region (h.rebuild_regionOf_lt hv), hindexed _ (h.regionOf_lt hindexed hv)]
  exact and_congr_right fun hu => hsame u hu

/-- Where the rebuilt regions are finer or coarser than the former ones, a region has a mark exactly
if its vertices were a region with that mark. -/
theorem IsArranged.carryMarks_iff (h : P.IsArranged) (hindexed : P.IsIndexed)
    (hcomparable : P.rebuild.IsFiner P ∨ P.IsFiner P.rebuild) (marks : Array Bool) {v : Nat}
    (hv : v < P.vertexCount) :
    (carryMarks P.regions marks P.rebuild.regionOf P.rebuild.regions).getD
        (P.rebuild.regionOf v) false = true ↔
      marks.getD (P.regionOf v) false = true ∧ ∀ u < P.vertexCount,
        (P.rebuild.regionOf u = P.rebuild.regionOf v ↔ P.regionOf u = P.regionOf v) := by
  have hr := h.rebuild_regionOf_lt hv
  constructor
  · intro hmark
    obtain ⟨o, ho, hsame, hformer⟩ := h.exists_region_eq hindexed hcomparable hr hmark
    have hregion : ∀ {u}, u < P.vertexCount →
        (P.rebuild.regionOf u = P.rebuild.regionOf v ↔ P.regionOf u = o) := by
      intro u hu
      have hin := h.mem_rebuild_region hr u
      rw [hsame, hindexed o ho u, and_iff_right hu, and_iff_right hu] at hin
      exact hin.symm
    have hv' : P.regionOf v = o := (hregion hv).mp rfl
    rw [hv']
    exact ⟨hformer, fun u hu => hregion hu⟩
  · rintro ⟨hformer, hsame⟩
    have ho := h.regionOf_lt hindexed hv
    have hequal := h.rebuild_region_eq hindexed hv hsame
    refine (carryMarks_eq_true_iff hr).mpr ⟨_, ho, ?_, fun p hp hlooks => ?_, hformer⟩
    · exact (h.looksUnchanged_iff hindexed hr ho ho hequal).mpr rfl
    · exact ((h.looksUnchanged_iff hindexed hr ho hp hequal).mp hlooks).le

/-- A rebuilt region is solved exactly if its vertices were a solved region. -/
theorem IsArranged.rebuild_isSaturated_iff (h : P.IsArranged) (hindexed : P.IsIndexed)
    (hcomparable : P.rebuild.IsFiner P ∨ P.IsFiner P.rebuild) {v : Nat} (hv : v < P.vertexCount) :
    P.rebuild.isSaturated (P.rebuild.regionOf v) = true ↔
      P.isSaturated (P.regionOf v) = true ∧ ∀ u < P.vertexCount,
        (P.rebuild.regionOf u = P.rebuild.regionOf v ↔ P.regionOf u = P.regionOf v) :=
  h.carryMarks_iff hindexed hcomparable P.saturated hv

/-- A rebuilt region is sorted by target exactly if its vertices were a region sorted by target. -/
theorem IsArranged.rebuild_isMedianCached_iff (h : P.IsArranged) (hindexed : P.IsIndexed)
    (hcomparable : P.rebuild.IsFiner P ∨ P.IsFiner P.rebuild) {v : Nat} (hv : v < P.vertexCount) :
    P.rebuild.isMedianCached (P.rebuild.regionOf v) = true ↔
      P.isMedianCached (P.regionOf v) = true ∧ ∀ u < P.vertexCount,
        (P.rebuild.regionOf u = P.rebuild.regionOf v ↔ P.regionOf u = P.regionOf v) :=
  h.carryMarks_iff hindexed hcomparable P.medianCached hv

/-! ## The number of regions -/

/-- Each region of a finer partition is a part of a region. -/
theorem exists_region_subset_of_isFiner (hP : P.IsConsistent) (hQ : Q.IsArranged)
    (hindexed : Q.IsIndexed) (hvertices : Q.vertexCount = P.vertexCount) (hfiner : Q.IsFiner P)
    {r : Nat} (hr : r < Q.regionCount) : ∃ o < P.regionCount, Q.region r ⊆ P.region o := by
  obtain ⟨hlt, hregion⟩ := (hindexed r hr _).mp (hQ.representative_mem hr)
  have ho : P.regionOf (Q.representative r) < P.regionCount := hP.regionOf_lt (hvertices ▸ hlt)
  refine ⟨_, ho, fun v hv => ?_⟩
  obtain ⟨hvlt, hvregion⟩ := (hindexed r hr v).mp hv
  exact (hP.mem_region _ ho v).mpr
    ⟨hvertices ▸ hvlt, hfiner v hvlt _ hlt (hvregion.trans hregion.symm)⟩

/-- A finer partition that divides a region has more regions. -/
theorem regionCount_lt_of_isFiner (hP : P.IsConsistent) (hQ : Q.IsArranged) (hindexed : Q.IsIndexed)
    (hvertices : Q.vertexCount = P.vertexCount) (hfiner : Q.IsFiner P) {u v : Nat}
    (hu : u < P.vertexCount) (hv : v < P.vertexCount) (hsame : P.regionOf u = P.regionOf v)
    (hdivided : Q.regionOf u ≠ Q.regionOf v) : P.regionCount < Q.regionCount := by
  -- Each region of `Q` lies in the region of `P` that its first vertex lies in.
  let former (r : Nat) : Nat := P.regionOf (Q.representative r)
  have hrepresentative : ∀ r < Q.regionCount,
      Q.representative r < P.vertexCount ∧ Q.regionOf (Q.representative r) = r := fun r hr =>
    hvertices ▸ (hindexed r hr _).mp (hQ.representative_mem hr)
  have hlt : ∀ w < P.vertexCount, Q.regionOf w < Q.regionCount := fun w hw =>
    hQ.regionOf_lt hindexed (hvertices ▸ hw)
  have hformer : ∀ w < P.vertexCount, former (Q.regionOf w) = P.regionOf w := by
    intro w hw
    obtain ⟨hrlt, hrregion⟩ := hrepresentative _ (hlt w hw)
    exact hfiner _ (hvertices ▸ hrlt) w (hvertices ▸ hw) hrregion
  have himage : (Finset.range Q.regionCount).image former = Finset.range P.regionCount := by
    ext o
    rw [Finset.mem_image, Finset.mem_range]
    constructor
    · rintro ⟨r, hr, rfl⟩
      exact hP.regionOf_lt (hrepresentative r (Finset.mem_range.mp hr)).1
    · intro ho
      obtain ⟨hwlt, hwregion⟩ := hP.regionOf_representative ho
      exact ⟨_, Finset.mem_range.mpr (hlt _ hwlt), (hformer _ hwlt).trans hwregion⟩
  by_contra hle
  have hcard : ((Finset.range Q.regionCount).image former).card =
      (Finset.range Q.regionCount).card := by
    apply le_antisymm Finset.card_image_le
    rw [himage, Finset.card_range, Finset.card_range]
    exact Nat.not_lt.mp hle
  have hinjective := Finset.card_image_iff.mp hcard
  refine hdivided (hinjective ?_ ?_ ?_)
  · exact Finset.mem_coe.mpr (Finset.mem_range.mpr (hlt u hu))
  · exact Finset.mem_coe.mpr (Finset.mem_range.mpr (hlt v hv))
  · rw [hformer u hu, hformer v hv, hsame]

end TotalVariation.Partition
