import Mathlib
import TotalVariation.Proofs.Problem.Bounds

/-! # Proximal maps and subgradients

A proximal map answers the one point at which the pull of the metric towards the argument is a
subgradient of the term. For the distance to a target with bounds the unbounded answer is found
first and then brought between the bounds.
-/

namespace TotalVariation

open TotalVariation.Bound

variable {K : Type} [ExactField K]

/-- The slopes `s` and `t` support the variation `w |a - b|` from below. -/
def IsPairSubgradient (w a b s t : K) : Prop :=
  ∀ a' b', w * |a - b| + s * (a' - a) + t * (b' - b) ≤ w * |a' - b'|

/-- The value is between the bounds, and the slope `s` supports the distance `l |z - target|` from
below between the bounds. -/
structure IsBoundedSubgradient (l target : K) (low upp : Bound K) (z s : K) : Prop where
  between : IsBetween low upp z
  le : ∀ z', IsBetween low upp z' → l * |z - target| + s * (z' - z) ≤ l * |z' - target|

namespace Proximal

variable {cu cv c w l target pu pv p : K} {low upp : Bound K}

/-! ## One edge -/

/-- Values that are near enough meet at their mean. -/
theorem isPairSubgradient_mean (hcu : 0 < cu) (hcv : 0 < cv)
    (hnear : |pu - pv| ≤ w * (1 / cu + 1 / cv)) :
    let m := (cu * pu + cv * pv) / (cu + cv)
    IsPairSubgradient w m m (cu * (pu - m)) (cv * (pv - m)) := by
  intro m a b
  have hsum : 0 < cu + cv := add_pos hcu hcv
  set s := cu * cv * (pu - pv) / (cu + cv) with hs
  have hfirst : cu * (pu - m) = s := by
    rw [hs]
    simp only [m]
    field_simp
    ring
  have hsecond : cv * (pv - m) = -s := by
    rw [hs]
    simp only [m]
    field_simp
    ring
  have hle : |s| ≤ w := by
    have hproduct : 0 < cu * cv / (cu + cv) := div_pos (mul_pos hcu hcv) hsum
    calc |s| = cu * cv / (cu + cv) * |pu - pv| := by
          rw [hs, mul_div_right_comm, abs_mul, abs_of_pos hproduct]
      _ ≤ cu * cv / (cu + cv) * (w * (1 / cu + 1 / cv)) :=
          mul_le_mul_of_nonneg_left hnear hproduct.le
      _ = w := by
          field_simp
          ring
  rw [hfirst, hsecond, sub_self, abs_zero, mul_zero, zero_add]
  calc s * (a - m) + -s * (b - m) = s * (a - b) := by ring
    _ ≤ |s * (a - b)| := le_abs_self _
    _ = |s| * |a - b| := abs_mul _ _
    _ ≤ w * |a - b| := mul_le_mul_of_nonneg_right hle (abs_nonneg _)

/-- Values that are far apart move towards each other, by steps that keep their order. -/
theorem isPairSubgradient_far (hcu : 0 < cu) (hcv : 0 < cv) (hw : 0 ≤ w)
    (hfar : w * (1 / cu + 1 / cv) < |pu - pv|) :
    let s := Scalar.sign (pu - pv)
    IsPairSubgradient w (pu - s * w / cu) (pv + s * w / cv) (cu * (pu - (pu - s * w / cu)))
      (cv * (pv - (pv + s * w / cv))) := by
  intro s a b
  have hone : s * (pu - pv) = |pu - pv| ∧ |s| = 1 ∧ s * s = 1 := by
    have hne : pu - pv ≠ 0 := by
      rintro heq
      rw [heq, abs_zero] at hfar
      exact absurd hfar (not_lt.mpr (by positivity))
    simp only [s]
    rw [Scalar.sign_eq]
    rcases lt_or_gt_of_ne hne with hneg | hpos
    · rw [if_neg hneg.not_gt, if_pos hneg, abs_of_neg hneg]
      simp
    · rw [if_pos hpos, abs_of_pos hpos]
      simp
  obtain ⟨hsign, habs, hsquare⟩ := hone
  have hfirst : cu * (pu - (pu - s * w / cu)) = s * w := by
    field_simp
    ring
  have hsecond : cv * (pv - (pv + s * w / cv)) = -(s * w) := by
    field_simp
    ring
  -- the difference keeps its sign, so the variation is linear between the two pairs
  have hkept : |pu - s * w / cu - (pv + s * w / cv)| =
      s * (pu - s * w / cu - (pv + s * w / cv)) := by
    have hproduct : s * (pu - s * w / cu - (pv + s * w / cv)) =
        |pu - pv| - w * (1 / cu + 1 / cv) := by
      calc s * (pu - s * w / cu - (pv + s * w / cv))
          = s * (pu - pv) - s * s * (w * (1 / cu + 1 / cv)) := by ring
        _ = _ := by rw [hsign, hsquare, one_mul]
    have hnonneg : 0 ≤ s * (pu - s * w / cu - (pv + s * w / cv)) := by
      rw [hproduct]
      linarith
    rw [← abs_of_nonneg hnonneg, abs_mul, habs, one_mul]
  rw [hkept, hfirst, hsecond]
  calc w * (s * (pu - s * w / cu - (pv + s * w / cv))) + s * w * (a - (pu - s * w / cu)) +
        -(s * w) * (b - (pv + s * w / cv)) = w * (s * (a - b)) := by ring
    _ ≤ w * |a - b| := by
        refine mul_le_mul_of_nonneg_left ?_ hw
        calc s * (a - b) ≤ |s * (a - b)| := le_abs_self _
          _ = |a - b| := by rw [abs_mul, habs, one_mul]

theorem isPairSubgradient_pair (hcu : 0 < cu) (hcv : 0 < cv) (hw : 0 ≤ w) (pu pv : K) :
    IsPairSubgradient w (pair cu cv w pu pv).1 (pair cu cv w pu pv).2
      (cu * (pu - (pair cu cv w pu pv).1)) (cv * (pv - (pair cu cv w pu pv).2)) := by
  unfold pair
  simp only [Scalar.abs_eq]
  by_cases hnear : |pu - pv| ≤ w * (1 / cu + 1 / cv)
  · simp only [if_pos hnear]
    exact isPairSubgradient_mean hcu hcv hnear
  · simp only [if_neg hnear]
    exact isPairSubgradient_far hcu hcv hw (not_le.mp hnear)

/-- The map of the variation answers the pair at which the pulls are a subgradient. -/
theorem pair_eq_iff (hcu : 0 < cu) (hcv : 0 < cv) (hw : 0 ≤ w) {a b : K} :
    pair cu cv w pu pv = (a, b) ↔ IsPairSubgradient w a b (cu * (pu - a)) (cv * (pv - b)) := by
  have hpair := isPairSubgradient_pair hcu hcv hw pu pv
  constructor
  · intro h
    rw [h] at hpair
    exact hpair
  · intro h
    set z := pair cu cv w pu pv
    -- the two inequalities between the pairs add up to a square distance that is not positive
    have hforth := hpair a b
    have hback := h z.1 z.2
    have hsquares : cu * ((z.1 - a) * (z.1 - a)) + cv * ((z.2 - b) * (z.2 - b)) ≤ 0 := by
      linarith
    have hu := mul_nonneg hcu.le (mul_self_nonneg (z.1 - a))
    have hv := mul_nonneg hcv.le (mul_self_nonneg (z.2 - b))
    have hu' : cu * ((z.1 - a) * (z.1 - a)) = 0 := by linarith
    have hv' : cv * ((z.2 - b) * (z.2 - b)) = 0 := by linarith
    refine Prod.ext (sub_eq_zero.mp ?_) (sub_eq_zero.mp ?_)
    · exact mul_self_eq_zero.mp ((mul_eq_zero.mp hu').resolve_left hcu.ne')
    · exact mul_self_eq_zero.mp ((mul_eq_zero.mp hv').resolve_left hcv.ne')

/-! ## One vertex -/

/-- Shrinking towards a target leaves a pull that supports the distance. -/
theorem le_shrink (hc : 0 < c) (hl : 0 ≤ l) (target p z : K) :
    l * |shrink target (l / c) p - target| + c * (p - shrink target (l / c) p) *
      (z - shrink target (l / c) p) ≤ l * |z - target| := by
  unfold shrink
  simp only [Scalar.abs_eq, Scalar.max_eq]
  set d := p - target with hd
  have hp : p = target + d := by rw [hd, add_sub_cancel]
  have hcl : c * (l / c) = l := mul_div_cancel₀ l hc.ne'
  have hupper : l * (z - target) ≤ l * |z - target| :=
    mul_le_mul_of_nonneg_left (le_abs_self _) hl
  have hlower : l * -(z - target) ≤ l * |z - target| :=
    mul_le_mul_of_nonneg_left (neg_le_abs _) hl
  have hthreshold : 0 ≤ l / c := div_nonneg hl hc.le
  by_cases hnear : |d| ≤ l / c
  · -- the value comes to rest at the target
    rw [max_eq_right (sub_nonpos.mpr hnear), mul_zero, add_zero, sub_self, abs_zero, mul_zero,
      zero_add]
    have hpull : |c * d| ≤ l := by
      rw [abs_mul, abs_of_pos hc, ← hcl]
      exact mul_le_mul_of_nonneg_left hnear hc.le
    calc c * (p - target) * (z - target) ≤ |c * d * (z - target)| := le_abs_self _
      _ = |c * d| * |z - target| := abs_mul _ _
      _ ≤ l * |z - target| := mul_le_mul_of_nonneg_right hpull (abs_nonneg _)
  · have hfar : l / c < |d| := not_le.mp hnear
    rw [max_eq_left (sub_nonneg.mpr hfar.le), Scalar.sign_eq]
    rcases lt_trichotomy 0 d with hpos | hzero | hneg
    · rw [abs_of_pos hpos] at hfar ⊢
      rw [if_pos hpos, one_mul, add_sub_cancel_left, abs_of_pos (sub_pos.mpr hfar), hp]
      refine le_trans (le_of_eq ?_) hupper
      linear_combination (z - target - d + l / c) * hcl
    · rw [← hzero, abs_zero] at hfar
      exact absurd hfar (not_lt.mpr hthreshold)
    · rw [abs_of_neg hneg] at hfar ⊢
      have hmoved : target + -1 * (-d - l / c) - target = -(-d - l / c) := by ring
      rw [if_neg hneg.not_gt, if_pos hneg, hmoved, abs_neg, abs_of_pos (sub_pos.mpr hfar), hp]
      refine le_trans (le_of_eq ?_) hlower
      linear_combination -(z - target - d - l / c) * hcl

/-- A value that is brought between the bounds lies between where it came from and any other value
between the bounds. -/
theorem mul_sub_cap_raise_nonneg (h : AreUncrossed low upp) (m : K) {z : K}
    (hz : IsBetween low upp z) :
    0 ≤ (upp.cap (low.raise m) - m) * (z - upp.cap (low.raise m)) := by
  have habove : ∀ {b : K}, b ≤ z → m ≤ b → 0 ≤ (b - m) * (z - b) :=
    fun hbz hmb => mul_nonneg (sub_nonneg.mpr hmb) (sub_nonneg.mpr hbz)
  have hbelow : ∀ {u : K}, z ≤ u → u ≤ m → 0 ≤ (u - m) * (z - u) :=
    fun hzu hum => mul_nonneg_of_nonpos_of_nonpos (sub_nonpos.mpr hum) (sub_nonpos.mpr hzu)
  have hstay : 0 ≤ (m - m) * (z - m) := by rw [sub_self, zero_mul]
  cases low with
  | none =>
      cases upp with
      | none => exact hstay
      | some u =>
          simp only [Bound.cap, Bound.raise, Scalar.min_eq]
          rcases le_total m u with hmu | hum
          · rwa [min_eq_left hmu]
          · rw [min_eq_right hum]
            exact hbelow (hz.2 u rfl) hum
  | some b =>
      cases upp with
      | none =>
          simp only [Bound.cap, Bound.raise, Scalar.max_eq]
          rcases le_total b m with hbm | hmb
          · rwa [max_eq_left hbm]
          · rw [max_eq_right hmb]
            exact habove (hz.1 b rfl) hmb
      | some u =>
          simp only [Bound.cap, Bound.raise, Scalar.max_eq, Scalar.min_eq]
          rcases le_total b m with hbm | hmb
          · rw [max_eq_left hbm]
            rcases le_total m u with hmu | hum
            · rwa [min_eq_left hmu]
            · rw [min_eq_right hum]
              exact hbelow (hz.2 u rfl) hum
          · rw [max_eq_right hmb, min_eq_left (h b u rfl rfl)]
            exact habove (hz.1 b rfl) hmb

/-- Past a value the distance grows at least as before it, in proportion to the way. -/
theorem add_mul_abs_sub_le {r : K} (hr : 0 ≤ r) (m y target : K) :
    (1 + r) * |y - target| ≤ |y + r * (y - m) - target| + r * |m - target| := by
  calc (1 + r) * |y - target| = |(1 + r) * (y - target)| := by
        rw [abs_mul, abs_of_nonneg (add_nonneg zero_le_one hr)]
    _ = |(y + r * (y - m) - target) + r * (m - target)| := by
        congr 1
        ring
    _ ≤ |y + r * (y - m) - target| + |r * (m - target)| := abs_add_le _ _
    _ = |y + r * (y - m) - target| + r * |m - target| := by rw [abs_mul, abs_of_nonneg hr]

/-- A pull that supports the distance at a value supports it between the bounds when the value is
brought there. -/
theorem isBoundedSubgradient_cap_raise (hc : 0 < c) (hl : 0 ≤ l) (h : AreUncrossed low upp)
    {m : K} (hm : ∀ z, l * |m - target| + c * (p - m) * (z - m) ≤ l * |z - target|) :
    IsBoundedSubgradient l target low upp (upp.cap (low.raise m))
      (c * (p - upp.cap (low.raise m))) := by
  refine ⟨isBetween_cap_raise h m, fun z hz => ?_⟩
  have hside := mul_sub_cap_raise_nonneg h m hz
  set y := upp.cap (low.raise m)
  by_cases hstay : y = m
  · rw [hstay]
    exact hm z
  · have hne : y - m ≠ 0 := sub_ne_zero.mpr hstay
    obtain ⟨r, hr, rfl⟩ : ∃ r, 0 ≤ r ∧ z = y + r * (y - m) := by
      refine ⟨(z - y) / (y - m), ?_, by field_simp; ring⟩
      rw [← mul_div_mul_left _ _ hne]
      exact div_nonneg hside (mul_self_nonneg _)
    have hgrowth := mul_le_mul_of_nonneg_left (add_mul_abs_sub_le hr m y target) hl
    have hslope := mul_le_mul_of_nonneg_left (hm y) hr
    have hsquare : 0 ≤ r * (c * ((y - m) * (y - m))) :=
      mul_nonneg hr (mul_nonneg hc.le (mul_self_nonneg _))
    have hpull : c * (p - y) * (y + r * (y - m) - y) =
        r * (c * (p - m) * (y - m)) - r * (c * ((y - m) * (y - m))) := by ring
    rw [hpull]
    linarith

/-- A missing weight is a weight of zero. -/
theorem separable_eq_getD (c : K) (weight : Option K) (target : K) (low upp : Bound K) (p : K) :
    separable c weight target low upp p =
      upp.cap (low.raise (shrink target (weight.getD 0 / c) p)) := by
  cases weight with
  | some l => rfl
  | none =>
      have hplain : shrink target (0 / c) p = p := by
        unfold shrink
        simp only [Scalar.abs_eq, Scalar.max_eq, zero_div, sub_zero]
        rw [max_eq_left (abs_nonneg (p - target)), Scalar.sign_eq]
        rcases lt_trichotomy 0 (p - target) with hpos | hzero | hneg
        · rw [if_pos hpos, abs_of_pos hpos]
          ring
        · rw [← hzero, abs_zero, mul_zero, add_zero]
          exact (sub_eq_zero.mp hzero.symm).symm
        · rw [if_neg hneg.not_gt, if_pos hneg, abs_of_neg hneg]
          ring
      rw [Option.getD_none, hplain]
      rfl

/-- The separable map answers the value between the bounds at which the pull is a subgradient. -/
theorem separable_eq_iff (hc : 0 < c) {weight : Option K} (hl : 0 ≤ weight.getD 0)
    (h : AreUncrossed low upp) {z : K} :
    separable c weight target low upp p = z ↔
      IsBoundedSubgradient (weight.getD 0) target low upp z (c * (p - z)) := by
  rw [separable_eq_getD]
  have hanswer := isBoundedSubgradient_cap_raise hc hl h (le_shrink hc hl target p)
  constructor
  · rintro rfl
    exact hanswer
  · intro hz
    set y := upp.cap (low.raise (shrink target (weight.getD 0 / c) p))
    have hforth := hanswer.le z hz.between
    have hback := hz.le y hanswer.between
    have hsquare : c * ((z - y) * (z - y)) ≤ 0 := by linarith
    have hzero : c * ((z - y) * (z - y)) = 0 :=
      le_antisymm hsquare (mul_nonneg hc.le (mul_self_nonneg _))
    have hdiff := mul_self_eq_zero.mp ((mul_eq_zero.mp hzero).resolve_left hc.ne')
    exact (sub_eq_zero.mp hdiff).symm

end Proximal
end TotalVariation
