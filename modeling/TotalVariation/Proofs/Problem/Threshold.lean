import Mathlib
import TotalVariation.Proofs.Failure
import TotalVariation.Proofs.Problem.Bounds

/-! # Thresholding between bounds

Along a line a quadratic term and the weighted distance from one value make a convex function. The
thresholded value is where it has its minimum, also where the curvature is zero and the weight
outweighs the slope. Brought between two bounds, the value minimises among those between them: on
the way from a minimum a convex function does not fall.
-/

namespace TotalVariation

variable {K : Type} [ExactField K] {low upp : Bound K} {y a w m : K}

/-- A quadratic term with a curvature and a slope, and the weighted distance from a value. -/
def bowl (y a w m t : K) : K := Scalar.half (a * t ^ 2) - y * t + w * |t - m|

theorem bowl_eq (y a w m t : K) : bowl y a w m t = a / 2 * t ^ 2 - y * t + w * |t - m| := by
  rw [bowl, Scalar.half_eq, mul_div_right_comm]

theorem convexOn_bowl (y m : K) (ha : 0 ≤ a) (hw : 0 ≤ w) :
    ConvexOn K Set.univ (bowl y a w m) := by
  have hsquare : ConvexOn K Set.univ fun t : K => a / 2 * t ^ 2 :=
    (even_two.convexOn_pow).smul (div_nonneg ha zero_le_two)
  have hline (b c : K) : ConvexOn K Set.univ fun t : K => b * t + c :=
    ⟨convex_univ, fun s _ t _ p r _ _ hpr => by
      refine le_of_eq ?_
      obtain rfl : p = 1 - r := eq_sub_of_add_eq hpr
      simp only [smul_eq_mul]
      ring⟩
  have hdistance : ConvexOn K Set.univ fun t : K => w * |t - m| := by
    have habs : ((fun t : K => 1 * t + -m) ⊔ fun t => -1 * t + m) = fun t => |t - m| := by
      funext t
      change (1 * t + -m) ⊔ (-1 * t + m) = (t - m) ⊔ -(t - m)
      congr 1 <;> ring
    exact (habs ▸ (hline 1 (-m)).sup (hline (-1) m)).smul hw
  have hsum := (hsquare.add (hline (-y) 0)).add hdistance
  refine hsum.congr fun t _ => ?_
  simp only [Pi.add_apply, bowl_eq]
  ring

/-- Where the slopes add up to zero the minimum is attained. -/
theorem bowl_le_of_slope {v σ : K} (ha : 0 ≤ a)
    (hσ : ∀ t, w * |v - m| + σ * (t - v) ≤ w * |t - m|) (hzero : a * v - y + σ = 0) (t : K) :
    bowl y a w m v ≤ bowl y a w m t := by
  have hcurvature : 0 ≤ a / 2 * (t - v) ^ 2 :=
    mul_nonneg (div_nonneg ha zero_le_two) (sq_nonneg _)
  have hexpand : bowl y a w m t - bowl y a w m v = a / 2 * (t - v) ^ 2 +
      (a * v - y + σ) * (t - v) + (w * |t - m| - (w * |v - m| + σ * (t - v))) := by
    rw [bowl_eq, bowl_eq]
    ring
  rw [hzero, zero_mul, add_zero] at hexpand
  linarith [hσ t]

/-- The thresholded value exists and has the least value. -/
theorem thresholded?_minimises (m : K) (hw : 0 ≤ w) (h : 0 < a ∨ a = 0 ∧ |y| ≤ w) :
    ∃ v, Solver.thresholded? y a w m = .ok v ∧ ∀ t, bowl y a w m v ≤ bowl y a w m t := by
  have ha : 0 ≤ a := h.elim le_of_lt fun hflat => hflat.1.ge
  have hquotient : ∀ b : K, a ≠ 0 → Solver.quotient? b a = .ok (b / a) := by
    intro b hne
    rw [Solver.quotient?, if_neg (mt (Scalar.same_iff a 0).mp hne)]
    rfl
  -- without curvature the slope does not outweigh the distance
  have hflat : a = 0 → |y| ≤ w := fun hzero => h.elim (fun hpos => absurd hzero hpos.ne') And.right
  unfold Solver.thresholded?
  split
  next habove =>
    have hne : a ≠ 0 := by
      rintro rfl
      linarith [le_abs_self y, hflat rfl]
    have hpos : 0 < a := ha.lt_of_ne' hne
    have hv : m ≤ (y - w) / a := (le_div_iff₀ hpos).mpr (by linarith)
    refine ⟨_, hquotient _ hne, bowl_le_of_slope (σ := w) ha (fun t => ?_) ?_⟩
    · rw [abs_of_nonneg (sub_nonneg.mpr hv)]
      linarith [mul_le_mul_of_nonneg_left (le_abs_self (t - m)) hw]
    · rw [mul_div_cancel₀ _ hne]
      ring
  next hnotAbove =>
    split
    next hbelow =>
      have hne : a ≠ 0 := by
        rintro rfl
        linarith [neg_abs_le y, hflat rfl]
      have hpos : 0 < a := ha.lt_of_ne' hne
      have hv : (y + w) / a ≤ m := (div_le_iff₀ hpos).mpr (by linarith)
      refine ⟨_, hquotient _ hne, bowl_le_of_slope (σ := -w) ha (fun t => ?_) ?_⟩
      · rw [abs_of_nonpos (sub_nonpos.mpr hv)]
        linarith [mul_le_mul_of_nonneg_left (neg_abs_le (t - m)) hw]
      · rw [mul_div_cancel₀ _ hne]
        ring
    next hnotBelow =>
      have hslope : |y - a * m| ≤ w := abs_le.mpr ⟨by linarith, by linarith⟩
      refine ⟨m, rfl, bowl_le_of_slope (σ := y - a * m) ha (fun t => ?_) (by ring)⟩
      rw [sub_self, abs_zero, mul_zero, zero_add]
      calc (y - a * m) * (t - m) ≤ |(y - a * m) * (t - m)| := le_abs_self _
        _ = |y - a * m| * |t - m| := abs_mul _ _
        _ ≤ w * |t - m| := mul_le_mul_of_nonneg_right hslope (abs_nonneg _)

/-- A value brought between two bounds lies on the way to each value between them. -/
theorem clamp_mem_uIcc (s : K) {t : K} (ht : Bound.IsBetween low upp t) :
    Solver.clamp low upp s ∈ Set.uIcc s t := by
  have hraise : low.raise s ∈ Set.uIcc s t := by
    cases low with
    | none => exact Set.left_mem_uIcc
    | some l =>
        rw [Bound.raise, Scalar.max_eq]
        exact ⟨inf_le_left.trans le_sup_left, sup_le_sup_left (ht.1 l rfl) s⟩
  rw [Bound.clamp_eq]
  cases upp with
  | none => exact hraise
  | some u =>
      rw [Bound.cap, Scalar.min_eq]
      exact ⟨le_inf hraise.1 (inf_le_right.trans (ht.2 u rfl)), inf_le_left.trans hraise.2⟩

/-- A minimum of a convex function, brought between two bounds, is one among the values between
them. -/
theorem clamp_minimises {f : K → K} (hf : ConvexOn K Set.univ f) {v : K} (hmin : ∀ t, f v ≤ f t)
    {t : K} (ht : Bound.IsBetween low upp t) : f (Solver.clamp low upp v) ≤ f t := by
  have hway : Solver.clamp low upp v ∈ segment K v t :=
    segment_eq_uIcc v t ▸ clamp_mem_uIcc v ht
  have hmax := hf.le_max_of_mem_segment (Set.mem_univ v) (Set.mem_univ t) hway
  rwa [max_eq_right (hmin t)] at hmax

end TotalVariation
