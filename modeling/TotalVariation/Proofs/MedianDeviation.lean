import Mathlib
import TotalVariation.Proofs.MedianOrder
import TotalVariation.Proofs.MedianSegment

/-! # The median minimises the deviation

The weighted sum of the distances from a value grows on the way to another one if at least half of
the weight is left behind. From a median this is so in both directions.
-/

namespace TotalVariation.Median

variable {K : Type} [ExactField K] {values : Vec K} {weights : Option (Vec K)} {idx : List ℕ}
  {m t : K}

/-! ## Halving the weight -/

/-- The weight with which an index counts, one without weights. -/
def weightAt (weights : Option (Vec K)) (i : ℕ) : K := weights.elim 1 fun w => Vec.entry w i

/-- The weight of the indices whose values have a property. -/
def weightOn (weights : Option (Vec K)) (idx : List ℕ) (p : ℕ → Bool) : K :=
  (idx.map fun i => if p i then weightAt weights i else 0).sum

/-- At most half of the weight lies below a value, and at least half of it up to the value. -/
structure Halves (values : Vec K) (weights : Option (Vec K)) (idx : List ℕ) (m : K) : Prop where
  below_le : weightOn weights idx (fun i => Vec.entry values i < m) ≤
    (idx.map (weightAt weights)).sum / 2
  half_le : (idx.map (weightAt weights)).sum / 2 ≤
    weightOn weights idx fun i => Vec.entry values i ≤ m

/-- Without weights the indices are counted. -/
theorem weightOn_none (idx : List ℕ) (p : ℕ → Bool) :
    weightOn (K := K) none idx p = idx.countP p := by
  induction idx with
  | nil => simp [weightOn]
  | cons i idx ih =>
      rw [weightOn] at ih ⊢
      rw [List.map_cons, List.sum_cons, ih, List.countP_cons, Nat.cast_add, add_comm, Nat.cast_ite,
        Nat.cast_one, Nat.cast_zero]
      rfl

theorem IsMiddle.halves (h : IsMiddle values idx m) : Halves values none idx m := by
  have htotal : (idx.map (weightAt (K := K) none)).sum = idx.length := by
    simpa [weightOn] using weightOn_none (K := K) idx fun _ => true
  have hbelow : (2 * idx.countP (fun i => Vec.entry values i < m) : K) ≤ idx.length := by
    exact_mod_cast h.smaller_le
  have hupTo : (idx.length : K) ≤ 2 * idx.countP fun i => Vec.entry values i ≤ m := by
    exact_mod_cast h.lt_upTo.le
  constructor
  · rw [htotal, weightOn_none]
    linarith
  · rw [htotal, weightOn_none]
    linarith

theorem IsWeightedMedian.halves {w : Vec K} (hweights : ∀ i ∈ idx, 0 ≤ Vec.entry w i)
    (h : IsWeightedMedian values w idx m) : Halves values (some w) idx m := by
  have hupTo : ∀ c, weightOn (some w) idx (fun i => Vec.entry values i ≤ c) =
      weightUpTo values w idx c := fun c => by simp [weightOn, weightUpTo, weightAt]
  refine ⟨?_, (hupTo m).symm ▸ h.half_le⟩
  -- what lies below the median lies up to the largest smaller value
  by_cases hsmaller : ∃ i ∈ idx, Vec.entry values i < m
  · obtain ⟨i, hi, hless⟩ := hsmaller
    obtain ⟨j, hj, hmax⟩ := (idx.toFinset.filter (Vec.entry values · < m)).exists_max_image
      (Vec.entry values) ⟨i, Finset.mem_filter.mpr ⟨List.mem_toFinset.mpr hi, hless⟩⟩
    rw [Finset.mem_filter, List.mem_toFinset] at hj
    refine le_trans ?_ (h.lt_half j hj.1 hj.2).le
    rw [← hupTo]
    refine List.sum_le_sum fun k hk => ?_
    by_cases hbelow : Vec.entry values k < m
    · have hle := hmax k (Finset.mem_filter.mpr ⟨List.mem_toFinset.mpr hk, hbelow⟩)
      simp [hbelow, hle]
    · simp only [hbelow, decide_false, Bool.false_eq_true, if_false]
      split
      next => exact hweights k hk
      next => exact le_rfl
  · have hzero : weightOn (some w) idx (fun i => Vec.entry values i < m) = 0 := by
      refine List.sum_eq_zero fun v hv => ?_
      obtain ⟨i, hi, rfl⟩ := List.mem_map.mp hv
      have hnot : ¬Vec.entry values i < m := fun hless => hsmaller ⟨i, hi, hless⟩
      simp [hnot]
    rw [hzero]
    refine div_nonneg (List.sum_nonneg fun v hv => ?_) zero_le_two
    obtain ⟨i, hi, rfl⟩ := List.mem_map.mp hv
    exact hweights i hi

theorem IsMedian.halves (hweights : ∀ w ∈ weights, ∀ i ∈ idx, 0 ≤ Vec.entry w i)
    (h : IsMedian values weights idx m) : Halves values weights idx m := by
  cases weights with
  | none => exact IsMiddle.halves h
  | some w => exact IsWeightedMedian.halves (hweights w rfl) h

/-! ## The deviation -/

/-- The weighted sum of the distances of the values from a given one. -/
def deviation (values : Vec K) (weights : Option (Vec K)) (idx : List ℕ) (t : K) : K :=
  (idx.map fun i => weightAt weights i * |Vec.entry values i - t|).sum

/-- What the distance grows by at each index adds up. -/
theorem deviation_add_le {gain loss : ℕ → K} {c : K}
    (hone : ∀ i ∈ idx, weightAt weights i * |Vec.entry values i - m| + c * (gain i - loss i) ≤
      weightAt weights i * |Vec.entry values i - t|) :
    deviation values weights idx m + c * ((idx.map gain).sum - (idx.map loss).sum) ≤
      deviation values weights idx t := by
  have hsum : (idx.map fun i => weightAt weights i * |Vec.entry values i - m| + c * gain i).sum ≤
      (idx.map fun i => weightAt weights i * |Vec.entry values i - t| + c * loss i).sum :=
    List.sum_le_sum fun i hi => by linarith [hone i hi]
  rw [List.sum_map_add, List.sum_map_add, List.sum_map_mul_left, List.sum_map_mul_left] at hsum
  rw [deviation, deviation]
  linarith

/-- On the way up the deviation grows by the weight up to the value less the weight beyond. -/
theorem le_deviation_of_le (hweights : ∀ i ∈ idx, 0 ≤ weightAt weights i) (hle : m ≤ t) :
    deviation values weights idx m + (t - m) *
      (2 * weightOn weights idx (fun i => Vec.entry values i ≤ m) -
        (idx.map (weightAt weights)).sum) ≤ deviation values weights idx t := by
  rw [weightOn, ← List.sum_map_mul_left]
  refine deviation_add_le fun i hi => ?_
  simp only [decide_eq_true_eq]
  split
  next hupTo =>
    rw [abs_of_nonpos (sub_nonpos.mpr hupTo), abs_of_nonpos (sub_nonpos.mpr (hupTo.trans hle))]
    linarith
  next hbeyond =>
    have hdistance : |Vec.entry values i - m| - (t - m) ≤ |Vec.entry values i - t| := by
      rw [abs_of_pos (sub_pos.mpr (not_le.mp hbeyond))]
      linarith [le_abs_self (Vec.entry values i - t)]
    linarith [mul_le_mul_of_nonneg_left hdistance (hweights i hi)]

/-- On the way down the deviation grows by the weight from the value on less the weight below. -/
theorem le_deviation_of_ge (hweights : ∀ i ∈ idx, 0 ≤ weightAt weights i) (hle : t ≤ m) :
    deviation values weights idx m + (m - t) * ((idx.map (weightAt weights)).sum -
      2 * weightOn weights idx fun i => Vec.entry values i < m) ≤ deviation values weights idx t := by
  rw [weightOn, ← List.sum_map_mul_left]
  refine deviation_add_le fun i hi => ?_
  simp only [decide_eq_true_eq]
  split
  next hbelow =>
    have hdistance : |Vec.entry values i - m| - (m - t) ≤ |Vec.entry values i - t| := by
      rw [abs_of_neg (sub_neg.mpr hbelow)]
      linarith [neg_abs_le (Vec.entry values i - t)]
    linarith [mul_le_mul_of_nonneg_left hdistance (hweights i hi)]
  next hfrom =>
    rw [abs_of_nonneg (sub_nonneg.mpr (not_lt.mp hfrom)),
      abs_of_nonneg (sub_nonneg.mpr (hle.trans (not_lt.mp hfrom)))]
    linarith

/-- A value that halves the weight has the least deviation. -/
theorem Halves.deviation_le (h : Halves values weights idx m)
    (hweights : ∀ i ∈ idx, 0 ≤ weightAt weights i) (t : K) :
    deviation values weights idx m ≤ deviation values weights idx t := by
  rcases le_total m t with hle | hle
  · refine le_trans ?_ (le_deviation_of_le hweights hle)
    refine le_add_of_nonneg_right (mul_nonneg (sub_nonneg.mpr hle) ?_)
    linarith [h.half_le]
  · refine le_trans ?_ (le_deviation_of_ge hweights hle)
    refine le_add_of_nonneg_right (mul_nonneg (sub_nonneg.mpr hle) ?_)
    linarith [h.below_le]

/-! ## The median of all values -/

theorem sum_map_range (f : ℕ → K) (n : ℕ) :
    ((List.range n).map f).sum = ∑ i ∈ Finset.range n, f i := by
  rw [← List.toFinset_range, List.sum_toFinset f List.nodup_range]

/-- The median of a list of values is selected from all positions. -/
theorem ofValues?_eq_ok (hpos : 0 < values.size) (hsize : ∀ w ∈ weights, w.size = values.size) :
    ofValues? values weights = .ok (select values weights (List.range values.size)).1 := by
  have hplaces : NamesPlaces values weights ((List.range values.size).map Int.ofNat) :=
    namesPlaces_map_ofNat fun v hv =>
      ⟨List.mem_range.mp hv, fun w hw => (hsize w hw).symm ▸ List.mem_range.mp hv⟩
  have hne : (List.range values.size).map Int.ofNat ≠ [] := by simpa using hpos.ne'
  rw [ofValues?, select?_eq_ok hne hplaces,
    map_place_map_ofNat fun v hv => List.mem_range.mp hv]
  rfl

/-- The value up to which half of the weight is reached first is the least one of that kind. -/
theorem IsWeightedMedian.isLeast {w : Vec K} {n : ℕ}
    (h : IsWeightedMedian values w (List.range n) m) :
    IsLeast {c | (∃ i < n, Vec.entry values i = c) ∧
      (∑ i ∈ Finset.range n, Vec.entry w i) / 2 ≤
        ∑ i ∈ Finset.range n with Vec.entry values i ≤ c, Vec.entry w i} m := by
  have hupTo : ∀ c, weightUpTo values w (List.range n) c =
      ∑ i ∈ Finset.range n with Vec.entry values i ≤ c, Vec.entry w i := fun c => by
    rw [weightUpTo, sum_map_range, Finset.sum_filter]
  constructor
  · obtain ⟨i, hi, hvalue⟩ := h.mem
    have hhalf := h.half_le
    rw [hupTo, sum_map_range] at hhalf
    exact ⟨⟨i, List.mem_range.mp hi, hvalue⟩, hhalf⟩
  · rintro c ⟨⟨i, hi, rfl⟩, hreached⟩
    by_contra hless
    have hbefore := h.lt_half i (List.mem_range.mpr hi) (not_le.mp hless)
    rw [hupTo, sum_map_range] at hbefore
    exact hbefore.not_ge hreached

/-- The median of a nonempty list of values is found, and no other value has a smaller weighted sum
of distances from them. With weights it is the least of the values up to which half of the weight is
reached. -/
theorem ofValues?_minimises (hpos : 0 < values.size)
    (hsize : ∀ w ∈ weights, w.size = values.size)
    (hweights : ∀ w ∈ weights, ∀ i < w.size, 0 ≤ Vec.entry w i) :
    ∃ m, ofValues? values weights = .ok m ∧
      (∀ t, ∑ i ∈ Finset.range values.size, weightAt weights i * |Vec.entry values i - m| ≤
        ∑ i ∈ Finset.range values.size, weightAt weights i * |Vec.entry values i - t|) ∧
      ∀ w ∈ weights, IsLeast {c | (∃ i < values.size, Vec.entry values i = c) ∧
        (∑ i ∈ Finset.range values.size, Vec.entry w i) / 2 ≤
          ∑ i ∈ Finset.range values.size with Vec.entry values i ≤ c, Vec.entry w i} m := by
  have hnonneg : ∀ w ∈ weights, ∀ i ∈ List.range values.size, 0 ≤ Vec.entry w i :=
    fun w hw i hi => hweights w hw i ((hsize w hw).symm ▸ List.mem_range.mp hi)
  have hmedian : IsMedian values weights (List.range values.size) _ :=
    isMedian_select (by simpa using hpos.ne') hnonneg
  refine ⟨_, ofValues?_eq_ok hpos hsize, fun t => ?_, fun w hw => ?_⟩
  · have hcounts : ∀ i ∈ List.range values.size, 0 ≤ weightAt weights i := by
      cases weights with
      | none => exact fun _ _ => zero_le_one
      | some w => exact hnonneg w rfl
    have hleast := (hmedian.halves hnonneg).deviation_le hcounts t
    rwa [deviation, deviation, sum_map_range, sum_map_range] at hleast
  · cases hw
    exact IsWeightedMedian.isLeast hmedian

/-- Values with ties, the largest of which have no weight. -/
def halvedValues : Vec ℚ := #[3, 1, 2, 1, 3]

/-- Weights whose half is reached exactly at the smallest of these values. -/
def halvedWeights : Vec ℚ := #[0, 1, 2, 1, 0]

theorem ofValues?_minimises_halved :
    ∃ m, ofValues? halvedValues (some halvedWeights) = .ok m ∧
      (∀ t, ∑ i ∈ Finset.range 5, weightAt (some halvedWeights) i * |Vec.entry halvedValues i - m| ≤
        ∑ i ∈ Finset.range 5, weightAt (some halvedWeights) i * |Vec.entry halvedValues i - t|) ∧
      IsLeast {c | (∃ i < 5, Vec.entry halvedValues i = c) ∧
        (∑ i ∈ Finset.range 5, Vec.entry halvedWeights i) / 2 ≤
          ∑ i ∈ Finset.range 5 with Vec.entry halvedValues i ≤ c, Vec.entry halvedWeights i} m := by
  have hweights : ∀ w ∈ some halvedWeights, ∀ i < w.size, 0 ≤ Vec.entry w i := by
    rintro _ ⟨⟩
    change ∀ i < 5, _
    decide +kernel
  have hsize : ∀ w ∈ some halvedWeights, w.size = halvedValues.size := by
    rintro _ ⟨⟩
    rfl
  have hpos : 0 < halvedValues.size := Nat.zero_lt_succ 4
  obtain ⟨m, hm, hleast, hfirst⟩ := ofValues?_minimises hpos hsize hweights
  exact ⟨m, hm, hleast, hfirst halvedWeights rfl⟩

end TotalVariation.Median
