import Mathlib
import TotalVariation.Proofs.Numeric.Extended
import TotalVariation.Proofs.Problem.Spreading
import TotalVariation.Proofs.Problem.Subgradient

/-! # Proximal maps and minima

A proximal map answers the only point at which its term, weighed against the squared distance to the
argument, is least: away from the answer the sum grows at least by half the squared distance in the
metric. The maps work on whole arrays, in which a single number stands for all places.
-/

namespace TotalVariation

open TotalVariation.Bound

/-- On a set, a function has its least value at this point and at no other. -/
structure IsOnlyMinimum {β K : Type} [LT K] (s : Set β) (f : β → K) (z : β) : Prop where
  mem : z ∈ s
  lt : ∀ y ∈ s, y ≠ z → f z < f y

namespace Proximal

variable {K : Type} [ExactField K] {n : Nat} {cu cv c w l target pu pv p : K} {low upp : Bound K}

/-! ## One edge -/

/-- The variation `w |a - b|`, weighed against the squared distance to `(pu, pv)` in the metric
`(cu, cv)`. -/
def pairCost (cu cv w pu pv : K) (z : K × K) : K :=
  w * |z.1 - z.2| + Scalar.half cu * (z.1 - pu) ^ 2 + Scalar.half cv * (z.2 - pv) ^ 2

/-- Away from where the pulls of the metric are a subgradient, the cost grows at least by half the
squared distance. -/
theorem pairCost_add_le {a b : K} (h : IsPairSubgradient w a b (cu * (pu - a)) (cv * (pv - b)))
    (z : K × K) : pairCost cu cv w pu pv (a, b) +
      (cu / 2 * (z.1 - a) ^ 2 + cv / 2 * (z.2 - b) ^ 2) ≤ pairCost cu cv w pu pv z := by
  have hexpand : pairCost cu cv w pu pv z = pairCost cu cv w pu pv (a, b) +
      (cu / 2 * (z.1 - a) ^ 2 + cv / 2 * (z.2 - b) ^ 2) + (w * |z.1 - z.2| -
        (w * |a - b| + cu * (pu - a) * (z.1 - a) + cv * (pv - b) * (z.2 - b))) := by
    simp only [pairCost, Scalar.half_eq]
    ring
  linarith [h z.1 z.2]

/-- The map of the variation answers the only pair of least cost, on both sides of the threshold. -/
theorem isOnlyMinimum_pair (hcu : 0 < cu) (hcv : 0 < cv) (hw : 0 ≤ w) (pu pv : K) :
    IsOnlyMinimum Set.univ (pairCost cu cv w pu pv) (pair cu cv w pu pv) where
  mem := Set.mem_univ _
  lt z _ hne := by
    have hgrowth := pairCost_add_le (isPairSubgradient_pair hcu hcv hw pu pv) z
    set y := pair cu cv w pu pv
    have hu : 0 ≤ cu / 2 * (z.1 - y.1) ^ 2 := by positivity
    have hv : 0 ≤ cv / 2 * (z.2 - y.2) ^ 2 := by positivity
    by_cases hfirst : z.1 = y.1
    · have hsecond : z.2 - y.2 ≠ 0 := sub_ne_zero.mpr fun heq => hne (Prod.ext hfirst heq)
      have hpos : 0 < cv / 2 * (z.2 - y.2) ^ 2 := by positivity
      linarith
    · have hdiff : z.1 - y.1 ≠ 0 := sub_ne_zero.mpr hfirst
      have hpos : 0 < cu / 2 * (z.1 - y.1) ^ 2 := by positivity
      linarith

omit [ExactField K] in
theorem mem_of_scalar? {t : Tensor K} {a : K} (h : t.scalar? = some a) : a ∈ t.entries := by
  unfold Tensor.scalar? at h
  split at h
  next => exact Array.mem_of_getElem? h
  next => cases h

theorem isZero_eq_false {t : Tensor K} (h : ∀ a ∈ t.entries, 0 < a) : isZero t = false := by
  rw [isZero, Option.any_eq_false]
  intro a ha
  rw [Bool.eq_false_iff, ne_eq, Scalar.same_iff]
  exact (h a (mem_of_scalar? ha)).ne'

theorem hasNoMean_eq_false (pu pv : Tensor K) {cu cv : Tensor K} (hu : ∀ a ∈ cu.entries, 0 < a)
    (hv : ∀ a ∈ cv.entries, 0 < a) : hasNoMean pu pv cu cv = false := by
  unfold hasNoMean
  split
  next a b _ _ ha hb =>
    rw [Bool.eq_false_iff, ne_eq, Scalar.same_iff]
    exact (add_pos (hu a (mem_of_scalar? ha)) (hv b (mem_of_scalar? hb))).ne'
  next => rfl

/-- Arrays of pairs are mapped place by place: whatever lists and single numbers are combined, the
answer at each place is the only pair of least cost there. -/
theorem pair?_minimises {pu pv cu cv w : Tensor K}
    (hspread : ∀ t ∈ [pu, pv, cu, cv, w], IsSpread n t)
    (hfilled : n = 1 ∨ ∃ t ∈ [pu, pv, cu, cv, w], t.shape = [n])
    (hcu : ∀ a ∈ cu.entries, 0 < a) (hcv : ∀ a ∈ cv.entries, 0 < a)
    (hw : ∀ a ∈ w.entries, 0 ≤ a) :
    ∃ zu zv, pair? pu pv cu cv w = .ok (zu, zv) ∧ zu.entries.size = n ∧ zv.entries.size = n ∧
      ∀ i < n, IsOnlyMinimum Set.univ
        (pairCost (placed n cu i) (placed n cv i) (placed n w i) (placed n pu i) (placed n pv i))
        (Vec.entry zu.entries i, Vec.entry zv.entries i) := by
  obtain ⟨length, hlength, rfl⟩ :=
    (fillPlaces_map hspread hfilled).commonLength?_eq (α := K)
  simp only [List.map_cons, List.map_nil] at hlength
  unfold pair?
  simp only [isZero_eq_false hcu, isZero_eq_false hcv, hasNoMean_eq_false pu pv hcu hcv, hlength]
  set places := length.getD 1
  refine ⟨_, _, rfl, ?_, ?_, fun i hi => ?_⟩
  · rw [entries_shaped, Array.size_map, Vec.size_tabulate]
  · rw [entries_shaped, Array.size_map, Vec.size_tabulate]
  · have hmem : ∀ t ∈ [pu, pv, cu, cv, w], placed places t i ∈ t.entries :=
      fun t ht => (hspread t ht).placed_mem hi
    rw [entries_shaped, entries_shaped, map_tabulate fun _ _ => rfl, map_tabulate fun _ _ => rfl,
      Vec.entry_tabulate, Vec.entry_tabulate, if_pos hi, if_pos hi]
    exact isOnlyMinimum_pair (hcu _ (hmem cu (by simp))) (hcv _ (hmem cv (by simp)))
      (hw _ (hmem w (by simp))) _ _

/-- Metrics at the second ends of four edges. -/
def unevenMetric : Tensor ℚ := .ofArray #[1, 2, 4, 1]

/-- Differences above, within, below and at the threshold. -/
def apartValues : Tensor ℚ := .ofArray #[3, 1, -4, 2]

theorem pair?_minimises_apartValues :
    (∀ a ∈ unevenMetric.entries, 0 < a) ∧
      ∃ zu zv, pair? apartValues (.ofScalar 0) (.ofScalar 1) unevenMetric (.ofScalar 1) = .ok (zu, zv) ∧
        zu.entries.size = 4 ∧ zv.entries.size = 4 ∧ ∀ i < 4, IsOnlyMinimum Set.univ
          (pairCost (placed 4 (.ofScalar 1) i) (placed 4 unevenMetric i) (placed 4 (.ofScalar 1) i)
            (placed 4 apartValues i) (placed 4 (.ofScalar 0) i))
          (Vec.entry zu.entries i, Vec.entry zv.entries i) := by
  have hnumber : ∀ a : ℚ, IsSpread 4 (.ofScalar a) := fun a => .number rfl rfl
  have hmetric : ∀ a ∈ unevenMetric.entries, 0 < a := by decide +kernel
  refine ⟨hmetric, pair?_minimises ?_ (.inr ⟨apartValues, by simp, rfl⟩) ?_ hmetric ?_⟩
  · simp only [List.forall_mem_cons]
    exact ⟨.list rfl (.inl rfl), hnumber 0, hnumber 1, .list rfl (.inl rfl), hnumber 1, by simp⟩
  · decide +kernel
  · decide +kernel

/-! ## One vertex -/

/-- The distance `l |z - target|`, weighed against the squared distance to `p` in the metric `c`. -/
def separableCost (c l target p z : K) : K := l * |z - target| + Scalar.half c * (z - p) ^ 2

/-- Away from where the pull of the metric is a subgradient, the cost grows between the bounds at
least by half the squared distance. -/
theorem separableCost_add_le {z : K}
    (h : IsBoundedSubgradient l target low upp z (c * (p - z))) {y : K} (hy : IsBetween low upp y) :
    separableCost c l target p z + c / 2 * (y - z) ^ 2 ≤ separableCost c l target p y := by
  have hexpand : separableCost c l target p y = separableCost c l target p z +
      c / 2 * (y - z) ^ 2 + (l * |y - target| -
        (l * |z - target| + c * (p - z) * (y - z))) := by
    simp only [separableCost, Scalar.half_eq]
    ring
  linarith [h.le y hy]

/-- The separable map answers the only value of least cost between the bounds. -/
theorem isOnlyMinimum_separable (hc : 0 < c) {weight : Option K} (hl : 0 ≤ weight.getD 0)
    (h : AreUncrossed low upp) (target p : K) :
    IsOnlyMinimum {y | IsBetween low upp y} (separableCost c (weight.getD 0) target p)
      (separable c weight target low upp p) := by
  have hanswer : IsBoundedSubgradient (weight.getD 0) target low upp
      (separable c weight target low upp p) (c * (p - separable c weight target low upp p)) :=
    (separable_eq_iff hc hl h).mp rfl
  refine ⟨hanswer.between, fun y hy hne => ?_⟩
  have hgrowth := separableCost_add_le hanswer hy
  have hdiff : y - separable c weight target low upp p ≠ 0 := sub_ne_zero.mpr hne
  have hpos : 0 < c / 2 * (y - separable c weight target low upp p) ^ 2 := by positivity
  linarith

section Infinite

open Extended

/-- Finite arguments have a finite outcome. -/
theorem shrink_finite (target p : K) (hc : c ≠ 0) :
    shrink (finite target) (finite l / finite c) (finite p) = finite (shrink target (l / c) p) := by
  simp [shrink, finite_div l hc]

theorem separable_finite (weight : Option K) (target p : K) (hc : c ≠ 0) {low upp : Extended K}
    (hlow : low < above) (hupp : below < upp) :
    separable (finite c) (weight.map finite) (finite target) (.lower low) (.upper upp) (finite p) =
      finite (separable c weight target low.bound upp.bound p) := by
  rw [lower_eq hlow, upper_eq hupp]
  cases weight with
  | none => simp [separable, raise_finite, cap_finite]
  | some l => simp [separable, shrink_finite _ _ hc, raise_finite, cap_finite]

/-- A lower and an upper bound, of which each may be infinite, with a number between them. -/
structure IsBox (low upp : Extended K) : Prop where
  le : low ≤ upp
  lower_lt : low < above
  upper_gt : below < upp

theorem IsBox.areUncrossed {low upp : Extended K} (h : IsBox low upp) :
    AreUncrossed low.bound upp.bound := by
  intro l u hl hu
  cases low <;> cases upp <;> cases hl <;> cases hu
  exact h.le

theorem IsBox.isBetween_iff {low upp : Extended K} (h : IsBox low upp) (y : K) :
    IsBetween low.bound upp.bound y ↔ low ≤ finite y ∧ finite y ≤ upp := by
  have hlow : (∀ l, low.bound = some l → l ≤ y) ↔ low ≤ finite y := by
    cases low with
    | below => exact ⟨fun _ => trivial, fun _ _ hnone => by cases hnone⟩
    | finite a => simp [bound]
    | above => exact absurd h.lower_lt.1 h.lower_lt.2
    | undefined => exact h.le.elim
  have hupp : (∀ u, upp.bound = some u → y ≤ u) ↔ finite y ≤ upp := by
    cases upp with
    | below => exact absurd h.upper_gt.1 h.upper_gt.2
    | finite a => simp [bound]
    | above => exact ⟨fun _ => trivial, fun _ _ hnone => by cases hnone⟩
    | undefined => exact h.upper_gt.1.elim
  exact and_congr hlow hupp

/-- Arguments of the separable map that fill `n` places. Without weights the metric and the targets
are not read. -/
structure AreSpread (n : Nat) (p c target : Tensor K) (weight : Option (Tensor K))
    (low upp : Tensor (Extended K)) : Prop where
  point : IsSpread n p
  metric : IsSpread n c
  weights : ∀ l ∈ weight, IsSpread n l ∧ IsSpread n target
  lower : IsSpread n low
  upper : IsSpread n upp
  filled : n = 1 ∨ p.shape = [n] ∨ low.shape = [n] ∨ upp.shape = [n] ∨
    ∃ l ∈ weight, l.shape = [n] ∨ c.shape = [n] ∨ target.shape = [n]

/-- Arguments that combine are mapped place by place, unless a single metric is zero. -/
theorem separable?_eq_ok {α : Type} [Scalar α] {p c target low upp : Tensor α}
    {weight : Option (Tensor α)} {length : Option Nat} (hc : isZero c = false)
    (hlength : commonLength? (α := α) (lengthOf p ::
      (weight.elim [] fun l => [lengthOf l, lengthOf c, lengthOf target]) ++
        [lengthOf low, lengthOf upp]) = .ok length) :
    let n := length.getD 1
    let z := Vec.tabulate n fun i => separable (placed n c i) (weight.map (placed n · i))
      (placed n target i) (.lower (placed n low i)) (.upper (placed n upp i)) (placed n p i)
    separable? p c weight target low upp =
      .ok (if length.isNone then ⟨[], z⟩ else .ofArray z) := by
  cases weight with
  | none =>
      have hall : commonLength? (α := α) ([lengthOf p] ++ [lengthOf low, lengthOf upp]) = .ok length :=
        hlength
      simp only [separable?, hc, Bool.false_and, hall]
      rfl
  | some l =>
      have hall : commonLength? (α := α)
          (lengthOf p :: [lengthOf l, lengthOf c, lengthOf target] ++ [lengthOf low, lengthOf upp]) =
            .ok length := hlength
      simp only [separable?, hc, Bool.false_and, hall]
      rfl

omit [ExactField K] in
theorem AreSpread.fillPlaces {p c target : Tensor K} {weight : Option (Tensor K)}
    {low upp : Tensor (Extended K)} (h : AreSpread n p c target weight low upp) :
    FillPlaces n (lengthOf p :: (weight.elim [] fun l => [lengthOf l, lengthOf c, lengthOf target]) ++
      [lengthOf low, lengthOf upp]) := by
  have hpoint := h.point.lengthOf_eq_some
  have hlower := h.lower.lengthOf_eq_some
  have hupper := h.upper.lengthOf_eq_some
  cases weight with
  | none =>
      constructor
      · simp [h.point.lengthOf_eq, h.lower.lengthOf_eq, h.upper.lengthOf_eq]
      · rcases h.filled with hone | hp | hlow | hupp | ⟨l, hl, -⟩
        · exact .inl hone
        · simp [hpoint hp]
        · simp [hlower hlow]
        · simp [hupper hupp]
        · cases hl
  | some l =>
      obtain ⟨hl, htarget⟩ := h.weights l rfl
      constructor
      · simp [h.point.lengthOf_eq, h.lower.lengthOf_eq, h.upper.lengthOf_eq, hl.lengthOf_eq,
          h.metric.lengthOf_eq, htarget.lengthOf_eq]
      · rcases h.filled with hone | hp | hlow | hupp | ⟨_, ⟨⟩, hweight | hc | ht⟩
        · exact .inl hone
        · simp [hpoint hp]
        · simp [hlower hlow]
        · simp [hupper hupp]
        · simp [hl.lengthOf_eq_some hweight]
        · simp [h.metric.lengthOf_eq_some hc]
        · simp [htarget.lengthOf_eq_some ht]

theorem placed_map (n : Nat) (t : Tensor K) (i : Nat) :
    placed n (t.map finite) i = finite (placed n t i) := by
  have hstretch : stretch n (t.entries.map finite) = (stretch n t.entries).map finite := by
    unfold stretch
    cases hfirst : t.entries[0]? with
    | none => simp [hfirst]
    | some a =>
        obtain ⟨_, rfl⟩ := Array.getElem?_eq_some_iff.mp hfirst
        by_cases hone : t.entries.size = 1 <;> simp [hfirst, hone]
  rw [placed, Tensor.map, hstretch, Vec.entry_map rfl]
  rfl

theorem isZero_map (t : Tensor K) : isZero (t.map finite) = isZero t := by
  have hscalar : (t.map finite).scalar? = t.scalar?.map finite := by
    simp [Tensor.scalar?, Tensor.map, apply_ite (Option.map finite)]
  rw [isZero, isZero, hscalar, Option.any_map]
  rfl

/-- At a place where the metric is not zero the outcome is finite, and that of the bounds which are
finite there. -/
theorem separable_placed {p c target : Tensor K} {low upp : Tensor (Extended K)} {i : Nat}
    (weight : Option (Tensor K)) (hc : placed n c i ≠ 0)
    (hbox : IsBox (placed n low i) (placed n upp i)) :
    separable (placed n (c.map finite) i) ((weight.map (·.map finite)).map (placed n · i))
        (placed n (target.map finite) i) (.lower (placed n low i)) (.upper (placed n upp i))
        (placed n (p.map finite) i) =
      finite (separable (placed n c i) (weight.map (placed n · i)) (placed n target i)
        (placed n low i).bound (placed n upp i).bound (placed n p i)) := by
  have hweight : (weight.map (·.map finite)).map (placed n · i) =
      (weight.map (placed n · i)).map finite := by
    cases weight with
    | none => rfl
    | some l => exact congrArg some (placed_map n l i)
  rw [placed_map, placed_map, placed_map, hweight,
    separable_finite _ _ _ hc hbox.lower_lt hbox.upper_gt]

/-- Arrays are mapped place by place, with bounds of which each may be infinite: the answer at each
place is the only value of least cost between the bounds there. -/
theorem separable?_minimises {p c target : Tensor K} {weight : Option (Tensor K)}
    {low upp : Tensor (Extended K)} (hspread : AreSpread n p c target weight low upp)
    (hc : ∀ a ∈ c.entries, 0 < a) (hl : ∀ l ∈ weight, ∀ a ∈ l.entries, 0 ≤ a)
    (hbounds : ∀ i < n, IsBox (placed n low i) (placed n upp i)) :
    ∃ z : Tensor K, separable? (p.map finite) (c.map finite) (weight.map (·.map finite))
        (target.map finite) low upp = .ok (z.map finite) ∧ z.entries.size = n ∧
      ∀ i < n, IsOnlyMinimum
        {y | placed n low i ≤ finite y ∧ finite y ≤ placed n upp i}
        (separableCost (placed n c i) ((weight.map (placed n · i)).getD 0) (placed n target i)
          (placed n p i)) (Vec.entry z.entries i) := by
  have hpos : ∀ i < n, 0 < placed n c i := fun i hi => hc _ (hspread.metric.placed_mem hi)
  have hnonneg : ∀ i < n, 0 ≤ (weight.map (placed n · i)).getD 0 := by
    intro i hi
    cases weight with
    | none => exact le_rfl
    | some l => exact hl l rfl _ ((hspread.weights l rfl).1.placed_mem hi)
  obtain ⟨length, hlength, rfl⟩ := hspread.fillPlaces.commonLength?_eq (α := Extended K)
  set n := length.getD 1
  let z : Vec K := Vec.tabulate n fun i => separable (placed n c i) (weight.map (placed n · i))
    (placed n target i) (placed n low i).bound (placed n upp i).bound (placed n p i)
  refine ⟨if length.isNone then ⟨[], z⟩ else .ofArray z, ?_, ?_, fun i hi => ?_⟩
  · have hlengths : commonLength? (lengthOf (p.map finite) :: ((weight.map (·.map finite)).elim []
        fun l => [lengthOf l, lengthOf (c.map finite), lengthOf (target.map finite)]) ++
          [lengthOf low, lengthOf upp]) = Except.ok (ε := Failure (Extended K)) length := by
      cases weight <;> simpa using hlength
    rw [separable?_eq_ok (by rw [isZero_map, isZero_eq_false hc]) hlengths, map_shaped,
      map_tabulate fun i hi => (separable_placed weight (hpos i hi).ne' (hbounds i hi)).symm]
  · rw [entries_shaped, Vec.size_tabulate]
  · have hbox := hbounds i hi
    have hmin := isOnlyMinimum_separable (hpos i hi) (hnonneg i hi) hbox.areUncrossed
      (placed n target i) (placed n p i)
    simp only [hbox.isBetween_iff] at hmin
    rwa [entries_shaped, Vec.entry_tabulate, if_pos hi]

/-- Lower bounds of which the first is missing. -/
def openLower : Tensor (Extended ℚ) := .ofArray #[below, finite (-1), finite 2]

/-- Upper bounds of which only the last is there. -/
def openUpper : Tensor (Extended ℚ) := .ofArray #[above, above, finite 2]

theorem separable?_minimises_openLower :
    (∀ i < 3, IsBox (placed 3 openLower i) (placed 3 openUpper i)) ∧
      ∃ z : Tensor ℚ, separable? ((Tensor.ofArray #[3, -5, 1]).map finite)
          ((Tensor.ofScalar 2).map finite) ((some (Tensor.ofScalar 4)).map (·.map finite))
          ((Tensor.ofScalar 0).map finite) openLower openUpper = .ok (z.map finite) ∧
        z.entries.size = 3 ∧ ∀ i < 3, IsOnlyMinimum
          {y | placed 3 openLower i ≤ finite y ∧ finite y ≤ placed 3 openUpper i}
          (separableCost (placed 3 (.ofScalar 2) i)
            (((some (Tensor.ofScalar 4)).map (placed 3 · i)).getD 0) (placed 3 (.ofScalar 0) i)
            (placed 3 (.ofArray #[3, -5, 1]) i)) (Vec.entry z.entries i) := by
  have hnumber : ∀ a : ℚ, IsSpread 3 (.ofScalar a) := fun a => .number rfl rfl
  have hbounds : ∀ i < 3, IsBox (placed 3 openLower i) (placed 3 openUpper i) := by
    intro i hi
    interval_cases i
    · exact ⟨trivial, ⟨trivial, id⟩, ⟨trivial, id⟩⟩
    · exact ⟨trivial, ⟨trivial, id⟩, ⟨trivial, id⟩⟩
    · exact ⟨(finite_le 2 2).mpr le_rfl, ⟨trivial, id⟩, ⟨trivial, id⟩⟩
  have hspread : AreSpread 3 (.ofArray #[3, -5, 1]) (.ofScalar (2 : ℚ)) (.ofScalar 0)
      (some (.ofScalar 4)) openLower openUpper := by
    refine ⟨.list rfl (.inl rfl), hnumber 2, ?_, .list rfl (.inl rfl), .list rfl (.inl rfl),
      .inr (.inl rfl)⟩
    rintro _ ⟨⟩
    exact ⟨hnumber 4, hnumber 0⟩
  refine ⟨hbounds, separable?_minimises hspread ?_ ?_ hbounds⟩
  · decide +kernel
  · rintro _ ⟨⟩
    decide +kernel

end Infinite

end Proximal
end TotalVariation
