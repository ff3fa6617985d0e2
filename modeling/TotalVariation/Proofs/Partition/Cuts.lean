import Mathlib
import TotalVariation.Proofs.Partition.Values

/-! # Cuts of regions

A price for each vertex and the variation across the open edges give a slope along each direction.
On nonnegative directions the slope is a sum of slopes along sets of vertices, one for each level of
the direction, and the slope along a set is the sum over the regions of the slopes along its parts.
-/

namespace TotalVariation.Partition

section Sets

variable {α : Type} {P : Partition α}

/-- The edges that are no known boundary. -/
def openEdges (P : Partition α) : Finset Nat :=
  {e ∈ Finset.range P.edgeCount | P.isActive e = false}

theorem mem_openEdges {e : Nat} : e ∈ P.openEdges ↔ e < P.edgeCount ∧ P.isActive e = false := by
  rw [openEdges, Finset.mem_filter, Finset.mem_range]

/-- Whether exactly one end of an edge lies in a set of vertices. -/
def leaves (P : Partition α) (U : Finset Nat) (e : Nat) : Bool :=
  decide (P.graph.tailOf e ∈ U) != decide (P.graph.headOf e ∈ U)

theorem leaves_eq_false {U : Finset Nat} {e : Nat} :
    P.leaves U e = false ↔ (P.graph.tailOf e ∈ U ↔ P.graph.headOf e ∈ U) := by
  simp [leaves]

theorem leaves_congr {T U : Finset Nat} {e : Nat}
    (htail : P.graph.tailOf e ∈ T ↔ P.graph.tailOf e ∈ U)
    (hhead : P.graph.headOf e ∈ T ↔ P.graph.headOf e ∈ U) : P.leaves T e = P.leaves U e := by
  rw [leaves, leaves, decide_eq_decide.mpr htail, decide_eq_decide.mpr hhead]

/-- An edge leaves a part of a region exactly if it leaves the rest of the region. -/
theorem leaves_sdiff {R U : Finset Nat} (hU : U ⊆ R) {e : Nat}
    (he : P.graph.tailOf e ∈ R ↔ P.graph.headOf e ∈ R) : P.leaves (R \ U) e = P.leaves U e := by
  by_cases htail : P.graph.tailOf e ∈ R
  · have hhead := he.mp htail
    simp [leaves, htail, hhead]
  · have hhead := mt he.mpr htail
    have htailU : P.graph.tailOf e ∉ U := fun h => htail (hU h)
    have hheadU : P.graph.headOf e ∉ U := fun h => hhead (hU h)
    simp [leaves, htail, hhead, htailU, hheadU]

/-- The ends of an open edge lie in one region. -/
theorem IsConsistent.tail_mem_iff (h : P.IsConsistent) {e : Nat} (he : e ∈ P.openEdges) (r : Nat) :
    P.graph.tailOf e ∈ P.members r ↔ P.graph.headOf e ∈ P.members r := by
  obtain ⟨hlt, hopen⟩ := mem_openEdges.mp he
  have htail : P.graph.tailOf e < P.vertexCount := h.graph_valid.tail_lt e hlt
  have hhead : P.graph.headOf e < P.vertexCount := h.graph_valid.head_lt e hlt
  rw [mem_members, mem_members, h.regionOf_eq_of_inactive hlt hopen]
  simp only [htail, hhead, true_and]

/-- A part of a region that no open edge leaves is empty or the whole region. -/
theorem IsConsistent.eq_empty_or_eq_members (h : P.IsConsistent) {r : Nat} {U : Finset Nat}
    (hU : U ⊆ P.members r) (hclosed : ∀ e ∈ P.openEdges, P.leaves U e = false) :
    U = ∅ ∨ U = P.members r := by
  have hchain : ∀ {u v}, P.Connected u v → (u ∈ U ↔ v ∈ U) := fun huv =>
    iff_of_eq (eq_of_connected (f := fun v => v ∈ U) (fun e he hopen =>
      propext (leaves_eq_false.mp (hclosed e (mem_openEdges.mpr ⟨he, hopen⟩)))) huv)
  rcases U.eq_empty_or_nonempty with hempty | ⟨u, hu⟩
  · exact .inl hempty
  · refine .inr (Finset.Subset.antisymm hU fun v hv => ?_)
    obtain ⟨hult, huregion⟩ := mem_members.mp (hU hu)
    obtain ⟨hvlt, hvregion⟩ := mem_members.mp hv
    exact (hchain (h.connected u hult v hvlt (huregion.trans hvregion.symm))).mp hu

end Sets

variable {K : Type} [ExactField K] {P : Partition K} {price d : Nat → K} {U : Finset Nat}

/-- The slope along a direction, from a price for each vertex and the variation across the open
edges. -/
def cutSlope (P : Partition K) (price d : Nat → K) : K :=
  ∑ v ∈ Finset.range P.vertexCount, price v * d v +
    ∑ e ∈ P.openEdges, P.weight e * |d (P.graph.tailOf e) - d (P.graph.headOf e)|

/-- The direction that moves a set of vertices. -/
def ones (U : Finset Nat) (v : Nat) : K := if v ∈ U then 1 else 0

/-- Moving a set costs its prices and the weights of the open edges that leave it. -/
theorem cutSlope_ones (price : Nat → K) (hU : ∀ v ∈ U, v < P.vertexCount) :
    P.cutSlope price (ones U) =
      ∑ v ∈ U, price v + ∑ e ∈ P.openEdges, if P.leaves U e then P.weight e else 0 := by
  rw [cutSlope]
  congr 1
  · have hprice : ∀ v ∈ Finset.range P.vertexCount,
        price v * ones U v = if v ∈ U then price v else 0 := by
      intro v _
      rw [ones, mul_ite, mul_one, mul_zero]
    rw [Finset.sum_congr rfl hprice, ← Finset.sum_filter]
    refine Finset.sum_congr (Finset.ext fun v => ?_) fun _ _ => rfl
    rw [Finset.mem_filter, Finset.mem_range]
    exact and_iff_right_of_imp (hU v)
  · apply Finset.sum_congr rfl
    intro e _
    by_cases htail : P.graph.tailOf e ∈ U <;> by_cases hhead : P.graph.headOf e ∈ U <;>
      simp [ones, leaves, htail, hhead]

/-! ## Levels -/

/-- The lowest level of a direction can be taken off. -/
theorem cutSlope_eq_add_level (hgraph : P.graph.IsValid) {m : K}
    (hin : ∀ v ∈ U, m ≤ d v) (hm : 0 ≤ m) (hout : ∀ v < P.vertexCount, v ∉ U → d v = 0)
    (price : Nat → K) : P.cutSlope price d =
      m * P.cutSlope price (ones U) + P.cutSlope price fun v => d v - m * ones U v := by
  have hedge : ∀ e ∈ P.openEdges, |d (P.graph.tailOf e) - d (P.graph.headOf e)| =
      m * |ones U (P.graph.tailOf e) - ones U (P.graph.headOf e)| +
        |d (P.graph.tailOf e) - m * ones U (P.graph.tailOf e) -
          (d (P.graph.headOf e) - m * ones U (P.graph.headOf e))| := by
    intro e he
    have hlt := (mem_openEdges.mp he).1
    have htailOut := hout _ (hgraph.tail_lt e hlt)
    have hheadOut := hout _ (hgraph.head_lt e hlt)
    by_cases htail : P.graph.tailOf e ∈ U <;> by_cases hhead : P.graph.headOf e ∈ U
    · simp [ones, htail, hhead]
    · have hle := hin _ htail
      rw [hheadOut hhead]
      simp only [ones, htail, hhead, if_true, if_false, mul_one, mul_zero, sub_zero, abs_one]
      rw [abs_of_nonneg (hm.trans hle), abs_of_nonneg (sub_nonneg.mpr hle)]
      ring
    · have hle := hin _ hhead
      rw [htailOut htail]
      simp only [ones, htail, hhead, if_true, if_false, mul_one, mul_zero, sub_zero, zero_sub,
        abs_neg, abs_one]
      rw [abs_of_nonneg (hm.trans hle), abs_of_nonneg (sub_nonneg.mpr hle)]
      ring
    · simp [ones, htail, hhead]
  have hprice : ∀ v ∈ Finset.range P.vertexCount,
      price v * d v = m * (price v * ones U v) + price v * (d v - m * ones U v) :=
    fun v _ => by ring
  have hvariation : ∀ e ∈ P.openEdges,
      P.weight e * |d (P.graph.tailOf e) - d (P.graph.headOf e)| =
        m * (P.weight e * |ones U (P.graph.tailOf e) - ones U (P.graph.headOf e)|) +
          P.weight e * |d (P.graph.tailOf e) - m * ones U (P.graph.tailOf e) -
            (d (P.graph.headOf e) - m * ones U (P.graph.headOf e))| := by
    intro e he
    rw [hedge e he]
    ring
  simp only [cutSlope]
  rw [Finset.sum_congr rfl hprice, Finset.sum_congr rfl hvariation, Finset.sum_add_distrib,
    Finset.sum_add_distrib, mul_add, Finset.mul_sum, Finset.mul_sum]
  ring

/-- The slope along a nonnegative direction is not negative if it is not along the sets of vertices
that may move. -/
theorem cutSlope_nonneg (hgraph : P.graph.IsValid) (allowed : Nat → Prop)
    (hones : ∀ U, (∀ v ∈ U, v < P.vertexCount ∧ allowed v) → 0 ≤ P.cutSlope price (ones U))
    (hd : ∀ v < P.vertexCount, 0 ≤ d v) (hallowed : ∀ v < P.vertexCount, d v ≠ 0 → allowed v) :
    0 ≤ P.cutSlope price d := by
  classical
  -- Induction on the set of vertices that move: taking off the lowest level stops one of them.
  generalize hS : (Finset.range P.vertexCount).filter (fun v => d v ≠ 0) = S
  induction S using Finset.strongInduction generalizing d with
  | H S ih =>
      have hmem : ∀ v, v ∈ S ↔ v < P.vertexCount ∧ d v ≠ 0 := by
        intro v
        rw [← hS, Finset.mem_filter, Finset.mem_range]
      have hout : ∀ v < P.vertexCount, v ∉ S → d v = 0 := by
        intro v hv hnot
        by_contra hne
        exact hnot ((hmem v).mpr ⟨hv, hne⟩)
      rcases S.eq_empty_or_nonempty with hempty | hnonempty
      · have hzero : ∀ v < P.vertexCount, d v = 0 :=
          fun v hv => hout v hv (hempty ▸ Finset.notMem_empty v)
        refine add_nonneg (Finset.sum_nonneg fun v hv => ?_) (Finset.sum_nonneg fun e he => ?_)
        · rw [hzero v (Finset.mem_range.mp hv), mul_zero]
        · have hlt := (mem_openEdges.mp he).1
          rw [hzero _ (hgraph.tail_lt e hlt), hzero _ (hgraph.head_lt e hlt), sub_zero, abs_zero,
            mul_zero]
      · obtain ⟨u, hu, hmin⟩ := Finset.exists_min_image S d hnonempty
        have hm : 0 ≤ d u := hd u ((hmem u).mp hu).1
        rw [cutSlope_eq_add_level hgraph hmin hm hout price]
        have hlevel := hones S fun v hv =>
          ⟨((hmem v).mp hv).1, hallowed v ((hmem v).mp hv).1 ((hmem v).mp hv).2⟩
        refine add_nonneg (mul_nonneg hm hlevel) (ih _ ?_ ?_ ?_ rfl)
        · refine (Finset.ssubset_iff_of_subset fun v hv => ?_).mpr ⟨u, hu, ?_⟩
          · rw [Finset.mem_filter, Finset.mem_range] at hv
            by_contra hnot
            apply hv.2
            rw [hout v hv.1 hnot, ones, if_neg hnot, mul_zero, sub_zero]
          · rw [Finset.mem_filter, ones, if_pos hu, mul_one, sub_self]
            exact fun h => h.2 rfl
        · intro v hv
          by_cases hvS : v ∈ S
          · rw [ones, if_pos hvS, mul_one]
            exact sub_nonneg.mpr (hmin v hvS)
          · rw [ones, if_neg hvS, mul_zero, sub_zero]
            exact hd v hv
        · intro v hv hne
          by_cases hvS : v ∈ S
          · exact hallowed v hv ((hmem v).mp hvS).2
          · rw [ones, if_neg hvS, mul_zero, sub_zero] at hne
            exact hallowed v hv hne

/-! ## Regions -/

/-- Moving a set costs as much as moving its part in a region and the rest of it. -/
theorem IsConsistent.cutSlope_ones_split (h : P.IsConsistent) (price : Nat → K)
    (hU : ∀ v ∈ U, v < P.vertexCount) (r : Nat) :
    P.cutSlope price (ones U) = P.cutSlope price (ones (U ∩ P.members r)) +
      P.cutSlope price (ones (U \ P.members r)) := by
  have hinter : ∀ v ∈ U ∩ P.members r, v < P.vertexCount :=
    fun v hv => hU v (Finset.mem_inter.mp hv).1
  have hdiff : ∀ v ∈ U \ P.members r, v < P.vertexCount :=
    fun v hv => hU v (Finset.mem_sdiff.mp hv).1
  have hedge : ∀ e ∈ P.openEdges, (if P.leaves U e then P.weight e else 0) =
      (if P.leaves (U ∩ P.members r) e then P.weight e else 0) +
        if P.leaves (U \ P.members r) e then P.weight e else 0 := by
    intro e he
    have hends := h.tail_mem_iff he r
    by_cases htail : P.graph.tailOf e ∈ P.members r
    · have hhead := hends.mp htail
      simp [leaves, htail, hhead]
    · have hhead := mt hends.mpr htail
      simp [leaves, htail, hhead]
  rw [cutSlope_ones price hU, cutSlope_ones price hinter, cutSlope_ones price hdiff,
    ← Finset.sum_inter_add_sum_sdiff U (P.members r) price, Finset.sum_congr rfl hedge,
    Finset.sum_add_distrib]
  ring

/-- The slope along the sets that may move is not negative if it is not along the sets inside
regions. -/
theorem IsConsistent.cutSlope_ones_nonneg (h : P.IsConsistent) {allowed : Nat → Prop}
    (hregion : ∀ r < P.regionCount, ∀ U ⊆ P.members r, (∀ v ∈ U, allowed v) →
      0 ≤ P.cutSlope price (ones U)) (hU : ∀ v ∈ U, v < P.vertexCount ∧ allowed v) :
    0 ≤ P.cutSlope price (ones U) := by
  -- Open edges stay inside regions, so one region after another can be taken out of the set.
  induction U using Finset.strongInduction with
  | H U ih =>
      rcases U.eq_empty_or_nonempty with rfl | ⟨u, hu⟩
      · rw [cutSlope_ones price (by simp)]
        simp [leaves]
      · have hr := h.regionOf_lt (hU u hu).1
        rw [h.cutSlope_ones_split price (fun v hv => (hU v hv).1) (P.regionOf u)]
        refine add_nonneg (hregion _ hr _ Finset.inter_subset_right fun v hv => ?_) (ih _ ?_ ?_)
        · exact (hU v (Finset.mem_inter.mp hv).1).2
        · refine (Finset.ssubset_iff_of_subset Finset.sdiff_subset).mpr ⟨u, hu, fun hnot => ?_⟩
          exact (Finset.mem_sdiff.mp hnot).2 (mem_members.mpr ⟨(hU u hu).1, rfl⟩)
        · exact fun v hv => hU v (Finset.mem_sdiff.mp hv).1

end TotalVariation.Partition
