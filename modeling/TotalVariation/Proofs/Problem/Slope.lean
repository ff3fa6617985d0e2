import Mathlib
import TotalVariation.Proofs.Problem.Bounds
import TotalVariation.Proofs.Quadratic.Expansion

/-! # Slopes of the objective

The objective of a convex problem has a slope along every direction. It never falls short of its
first order expansion, and on a short step it differs from it by a square. A feasible point is
therefore minimal exactly if no admissible direction has a negative slope.
-/

namespace TotalVariation

variable {K : Type} [ExactField K]

/-! ## The distance to zero -/

/-- The slope of the distance to zero at a value, along a direction. -/
def absSlope (a b : K) : K := if a = 0 then |b| else if 0 < a then b else -b

theorem absSlope_zero (b : K) : absSlope 0 b = |b| := if_pos rfl

theorem absSlope_of_ne {a : K} (ha : a ≠ 0) (b : K) : absSlope a b = Scalar.sign a * b := by
  rw [absSlope, if_neg ha, Scalar.sign_eq]
  rcases lt_or_gt_of_ne ha with hneg | hpos
  · rw [if_neg hneg.not_gt, if_neg hneg.not_gt, if_pos hneg, neg_one_mul]
  · rw [if_pos hpos, if_pos hpos, one_mul]

theorem abs_add_absSlope_le (a b : K) : |a| + absSlope a b ≤ |a + b| := by
  rcases lt_trichotomy a 0 with hneg | rfl | hpos
  · rw [absSlope, if_neg hneg.ne, if_neg hneg.not_gt, abs_of_neg hneg]
    linarith [neg_abs_le (a + b)]
  · rw [absSlope_zero, abs_zero, zero_add, zero_add]
  · rw [absSlope, if_neg hpos.ne', if_pos hpos, abs_of_pos hpos]
    exact le_abs_self (a + b)

/-- A property that holds on a short enough step. -/
def OnShortSteps (p : K → Prop) : Prop := ∃ ε > 0, ∀ t, 0 ≤ t → t ≤ ε → p t

theorem OnShortSteps.and {p q : K → Prop} (hp : OnShortSteps p) (hq : OnShortSteps q) :
    OnShortSteps fun t => p t ∧ q t := by
  obtain ⟨ε, hε, hp⟩ := hp
  obtain ⟨δ, hδ, hq⟩ := hq
  refine ⟨min ε δ, lt_min hε hδ, fun t ht hle => ⟨hp t ht ?_, hq t ht ?_⟩⟩
  · exact hle.trans (min_le_left ε δ)
  · exact hle.trans (min_le_right ε δ)

theorem OnShortSteps.forall_mem {ι : Type} (s : Finset ι) {p : ι → K → Prop}
    (h : ∀ i ∈ s, OnShortSteps (p i)) : OnShortSteps fun t => ∀ i ∈ s, p i t := by
  classical
  induction s using Finset.induction with
  | empty => exact ⟨1, one_pos, by simp⟩
  | insert i s _ ih =>
      obtain ⟨ε, hε, hboth⟩ := (h i (Finset.mem_insert_self i s)).and
        (ih fun j hj => h j (Finset.mem_insert_of_mem hj))
      refine ⟨ε, hε, fun t ht hle j hj => ?_⟩
      obtain ⟨hi, hrest⟩ := hboth t ht hle
      rcases Finset.mem_insert.mp hj with rfl | hj
      · exact hi
      · exact hrest j hj

/-- A short step does not cross zero. -/
theorem onShortSteps_abs (a b : K) :
    OnShortSteps fun t => |a + t * b| = |a| + t * absSlope a b := by
  rcases eq_or_ne a 0 with rfl | ha
  · refine ⟨1, one_pos, fun t ht _ => ?_⟩
    change |0 + t * b| = |0| + t * absSlope 0 b
    rw [absSlope_zero, abs_zero, zero_add, zero_add, abs_mul, abs_of_nonneg ht]
  · have hden : 0 < |b| + 1 := by positivity
    refine ⟨|a| / (|b| + 1), div_pos (abs_pos.mpr ha) hden, fun t ht hle => ?_⟩
    change |a + t * b| = |a| + t * absSlope a b
    have hstep : t * |b| ≤ |a| := by
      calc t * |b| ≤ t * (|b| + 1) := mul_le_mul_of_nonneg_left (by linarith) ht
        _ ≤ |a| := (le_div_iff₀ hden).mp hle
    have hlower : -(t * |b|) ≤ t * b := by
      rw [← mul_neg]
      exact mul_le_mul_of_nonneg_left (neg_abs_le b) ht
    have hupper : t * b ≤ t * |b| := mul_le_mul_of_nonneg_left (le_abs_self b) ht
    rcases lt_or_gt_of_ne ha with hneg | hpos
    · rw [abs_of_neg hneg] at hstep ⊢
      rw [absSlope, if_neg ha, if_neg hneg.not_gt, abs_of_nonpos (by linarith)]
      ring
    · rw [abs_of_pos hpos] at hstep ⊢
      rw [absSlope, if_neg ha, if_pos hpos, abs_of_nonneg (by linarith)]

/-- A step along a direction. -/
def Vec.step (x : Vec K) (d : Nat → K) : Vec K := Vec.tabulate x.size fun i => Vec.entry x i + d i

@[simp] theorem Vec.size_step (x : Vec K) (d : Nat → K) : (x.step d).size = x.size :=
  Vec.size_tabulate _ _

theorem Vec.entry_step (x : Vec K) (d : Nat → K) {i : Nat} (hi : i < x.size) :
    Vec.entry (x.step d) i = Vec.entry x i + d i := by
  rw [step, Vec.entry_tabulate, if_pos hi]

theorem onShortSteps_le {a b c : K} (hle : a ≤ b) (hc : a = b → c ≤ 0) :
    OnShortSteps fun t => a + t * c ≤ b := by
  rcases hle.eq_or_lt with heq | hlt
  · refine ⟨1, one_pos, fun t ht _ => ?_⟩
    have hstep : t * c ≤ 0 := mul_nonpos_of_nonneg_of_nonpos ht (hc heq)
    linarith
  · have hden : 0 < |c| + 1 := by positivity
    refine ⟨(b - a) / (|c| + 1), div_pos (sub_pos.mpr hlt) hden, fun t ht hshort => ?_⟩
    have hstep : t * c ≤ b - a := by
      calc t * c ≤ t * (|c| + 1) :=
            mul_le_mul_of_nonneg_left ((le_abs_self c).trans (by linarith)) ht
        _ ≤ b - a := (le_div_iff₀ hden).mp hshort
    linarith

namespace Problem

variable {p : Problem K} {x z : Vec K} {d : Nat → K}

/-! ## The slope of the objective -/

/-- The weight of the target of a variable, zero if there are no targets. -/
def penalty (p : Problem K) (v : Nat) : K := (p.targetWeightAt v).getD 0

/-- The terms of the objective fit one another, and the quadratic term is symmetric. -/
structure IsExpandable (p : Problem K) : Prop where
  fits : p.quadratic.Fits p.size
  symmetric : p.quadratic.IsSymmetric
  ends_lt : ∀ e < p.edges.size, p.edgeFrom e < p.size ∧ p.edgeTo e < p.size

/-- The terms of the objective fit one another, the quadratic term is convex and no weight is
negative. -/
structure IsConvex (p : Problem K) : Prop where
  fits : p.quadratic.Fits p.size
  quadratic : p.quadratic.IsConvex
  ends_lt : ∀ e < p.edges.size, p.edgeFrom e < p.size ∧ p.edgeTo e < p.size
  edgeWeights_nonneg : ∀ e < p.edges.size, 0 ≤ Vec.entry p.edgeWeights e
  penalty_nonneg : ∀ v < p.size, 0 ≤ p.penalty v

theorem IsConvex.isExpandable (h : p.IsConvex) : p.IsExpandable :=
  ⟨h.fits, h.quadratic.isSymmetric, h.ends_lt⟩

/-- The slope of the objective at a point along a direction. -/
def slopeAlong (p : Problem K) (x : Vec K) (d : Nat → K) : K :=
  ∑ v ∈ Finset.range p.size, p.quadratic.slopeAt x v * d v +
    ∑ e ∈ Finset.range p.edges.size, Vec.entry p.edgeWeights e *
      absSlope (Vec.entry x (p.edgeFrom e) - Vec.entry x (p.edgeTo e))
        (d (p.edgeFrom e) - d (p.edgeTo e)) +
    ∑ v ∈ Finset.range p.size, p.penalty v * absSlope (Vec.entry x v - Vec.entry p.targets v) (d v)

theorem objective_eq (p : Problem K) (hx : x.size = p.size) : p.objective x =
    p.quadratic.valueAt x +
      ∑ e ∈ Finset.range p.edges.size, Vec.entry p.edgeWeights e *
        |Vec.entry x (p.edgeFrom e) - Vec.entry x (p.edgeTo e)| +
      ∑ v ∈ Finset.range p.size, p.penalty v * |Vec.entry x v - Vec.entry p.targets v| := by
  rw [objective, variation, targetDistance, Vec.total_eq]
  simp only [Scalar.abs_eq]
  congr 1
  cases hweights : p.targetWeights with
  | none => simp [penalty, targetWeightAt, hweights]
  | some w => simp [penalty, targetWeightAt, hweights, Vec.total_eq, hx]

/-- The objective lies above its first order expansion. -/
theorem IsConvex.objective_ge (h : p.IsConvex) (hx : x.size = p.size) (hz : z.size = p.size) :
    p.objective x + p.slopeAlong x (fun v => Vec.entry z v - Vec.entry x v) ≤ p.objective z := by
  have hquadratic := h.fits.valueAt_add h.quadratic.isSymmetric hx hz
    (d := fun v => Vec.entry z v - Vec.entry x v) fun i _ => by ring
  have hform := h.quadratic.form_self_nonneg fun v => Vec.entry z v - Vec.entry x v
  have hedges : ∑ e ∈ Finset.range p.edges.size, Vec.entry p.edgeWeights e *
        |Vec.entry x (p.edgeFrom e) - Vec.entry x (p.edgeTo e)| +
      ∑ e ∈ Finset.range p.edges.size, Vec.entry p.edgeWeights e *
        absSlope (Vec.entry x (p.edgeFrom e) - Vec.entry x (p.edgeTo e))
          (Vec.entry z (p.edgeFrom e) - Vec.entry x (p.edgeFrom e) -
            (Vec.entry z (p.edgeTo e) - Vec.entry x (p.edgeTo e))) ≤
      ∑ e ∈ Finset.range p.edges.size, Vec.entry p.edgeWeights e *
        |Vec.entry z (p.edgeFrom e) - Vec.entry z (p.edgeTo e)| := by
    rw [← Finset.sum_add_distrib]
    apply Finset.sum_le_sum
    intro e he
    rw [← mul_add]
    refine mul_le_mul_of_nonneg_left ?_ (h.edgeWeights_nonneg e (Finset.mem_range.mp he))
    refine (abs_add_absSlope_le _ _).trans_eq (congrArg _ ?_)
    ring
  have htargets : ∑ v ∈ Finset.range p.size, p.penalty v *
        |Vec.entry x v - Vec.entry p.targets v| +
      ∑ v ∈ Finset.range p.size, p.penalty v *
        absSlope (Vec.entry x v - Vec.entry p.targets v) (Vec.entry z v - Vec.entry x v) ≤
      ∑ v ∈ Finset.range p.size, p.penalty v * |Vec.entry z v - Vec.entry p.targets v| := by
    rw [← Finset.sum_add_distrib]
    apply Finset.sum_le_sum
    intro v hv
    rw [← mul_add]
    refine mul_le_mul_of_nonneg_left ?_ (h.penalty_nonneg v (Finset.mem_range.mp hv))
    refine (abs_add_absSlope_le _ _).trans_eq (congrArg _ ?_)
    ring
  rw [p.objective_eq hx, p.objective_eq hz, hquadratic, slopeAlong]
  linarith

/-- A short step changes the objective by the slope and a square. -/
theorem IsExpandable.onShortSteps_objective (h : p.IsExpandable) (hx : x.size = p.size)
    (d : Nat → K) :
    OnShortSteps fun t => p.objective (x.step fun v => t * d v) =
      p.objective x + t * p.slopeAlong x d + t * t * (p.quadratic.form d d / 2) := by
  have hedges := OnShortSteps.forall_mem (Finset.range p.edges.size) fun e _ =>
    onShortSteps_abs (Vec.entry x (p.edgeFrom e) - Vec.entry x (p.edgeTo e))
      (d (p.edgeFrom e) - d (p.edgeTo e))
  have htargets := OnShortSteps.forall_mem (Finset.range p.size) fun v _ =>
    onShortSteps_abs (Vec.entry x v - Vec.entry p.targets v) (d v)
  obtain ⟨ε, hε, hboth⟩ := hedges.and htargets
  refine ⟨ε, hε, fun t ht hle => ?_⟩
  obtain ⟨hedge, htarget⟩ := hboth t ht hle
  have hstep : (x.step fun v => t * d v).size = p.size := (Vec.size_step x _).trans hx
  have hentry : ∀ v < p.size, Vec.entry (x.step fun v => t * d v) v = Vec.entry x v + t * d v :=
    fun v hv => Vec.entry_step x _ (hx.symm ▸ hv)
  have hform : p.quadratic.form (fun v => t * d v) (fun v => t * d v) =
      t * t * p.quadratic.form d d := by
    simp only [Quadratic.form, Finset.mul_sum]
    exact Finset.sum_congr rfl fun i _ => Finset.sum_congr rfl fun j _ => by ring
  have hquadratic := h.fits.valueAt_add h.symmetric hx hstep hentry
  have hvariation : ∑ e ∈ Finset.range p.edges.size, Vec.entry p.edgeWeights e *
        |Vec.entry (x.step fun v => t * d v) (p.edgeFrom e) -
          Vec.entry (x.step fun v => t * d v) (p.edgeTo e)| =
      ∑ e ∈ Finset.range p.edges.size, Vec.entry p.edgeWeights e *
        |Vec.entry x (p.edgeFrom e) - Vec.entry x (p.edgeTo e)| +
      t * ∑ e ∈ Finset.range p.edges.size, Vec.entry p.edgeWeights e *
        absSlope (Vec.entry x (p.edgeFrom e) - Vec.entry x (p.edgeTo e))
          (d (p.edgeFrom e) - d (p.edgeTo e)) := by
    rw [Finset.mul_sum, ← Finset.sum_add_distrib]
    apply Finset.sum_congr rfl
    intro e he
    obtain ⟨hfrom, hto⟩ := h.ends_lt e (Finset.mem_range.mp he)
    have hmoved : Vec.entry x (p.edgeFrom e) + t * d (p.edgeFrom e) -
          (Vec.entry x (p.edgeTo e) + t * d (p.edgeTo e)) =
        Vec.entry x (p.edgeFrom e) - Vec.entry x (p.edgeTo e) +
          t * (d (p.edgeFrom e) - d (p.edgeTo e)) := by ring
    rw [hentry _ hfrom, hentry _ hto, hmoved, hedge e he]
    ring
  have hdistance : ∑ v ∈ Finset.range p.size, p.penalty v *
        |Vec.entry (x.step fun v => t * d v) v - Vec.entry p.targets v| =
      ∑ v ∈ Finset.range p.size, p.penalty v * |Vec.entry x v - Vec.entry p.targets v| +
      t * ∑ v ∈ Finset.range p.size, p.penalty v *
        absSlope (Vec.entry x v - Vec.entry p.targets v) (d v) := by
    rw [Finset.mul_sum, ← Finset.sum_add_distrib]
    apply Finset.sum_congr rfl
    intro v hv
    have hmoved : Vec.entry x v + t * d v - Vec.entry p.targets v =
        Vec.entry x v - Vec.entry p.targets v + t * d v := by ring
    rw [hentry v (Finset.mem_range.mp hv), hmoved, htarget v hv]
    ring
  have hslope : ∑ v ∈ Finset.range p.size, p.quadratic.slopeAt x v * (t * d v) =
      t * ∑ v ∈ Finset.range p.size, p.quadratic.slopeAt x v * d v := by
    rw [Finset.mul_sum]
    exact Finset.sum_congr rfl fun v _ => by ring
  rw [p.objective_eq hx, p.objective_eq hstep, hquadratic, hvariation, hdistance, hslope, hform,
    slopeAlong]
  ring

/-! ## Minimal points -/

/-- No variable at a bound moves across it. -/
def IsAdmissible (p : Problem K) (x : Vec K) (d : Nat → K) : Prop :=
  ∀ v < p.size, (p.lowerAt v = some (Vec.entry x v) → 0 ≤ d v) ∧
    (p.upperAt v = some (Vec.entry x v) → d v ≤ 0)

/-- A feasible point with the least objective among the feasible points. -/
structure IsMinimal (p : Problem K) (x : Vec K) : Prop where
  size_eq : x.size = p.size
  feasible : p.isFeasible x = true
  le : ∀ z : Vec K, z.size = p.size → p.isFeasible z = true → p.objective x ≤ p.objective z

theorem isFeasible_iff : p.isFeasible x = true ↔
    ∀ v < p.size, Bound.IsBetween (p.lowerAt v) (p.upperAt v) (Vec.entry x v) := by
  simp only [isFeasible, List.all_eq_true, List.mem_range, Bool.and_eq_true, Option.all_eq_true,
    decide_eq_true_eq, Bound.IsBetween]

/-- The way from a feasible point to another is admissible. -/
theorem isAdmissible_sub (hz : p.isFeasible z = true) :
    p.IsAdmissible x fun v => Vec.entry z v - Vec.entry x v := by
  intro v hv
  obtain ⟨hlower, hupper⟩ := isFeasible_iff.mp hz v hv
  exact ⟨fun hl => sub_nonneg.mpr (hlower _ hl), fun hu => sub_nonpos.mpr (hupper _ hu)⟩

/-- A short step along an admissible direction stays feasible. -/
theorem IsAdmissible.onShortSteps_isFeasible (hd : p.IsAdmissible x d) (hx : x.size = p.size)
    (hfeasible : p.isFeasible x = true) :
    OnShortSteps fun t => p.isFeasible (x.step fun v => t * d v) = true := by
  have hbetween : ∀ v ∈ Finset.range p.size, OnShortSteps fun t =>
      Bound.IsBetween (p.lowerAt v) (p.upperAt v) (Vec.entry x v + t * d v) := by
    intro v hv
    rw [Finset.mem_range] at hv
    obtain ⟨hlower, hupper⟩ := isFeasible_iff.mp hfeasible v hv
    have hbelow : OnShortSteps fun t => ∀ l, p.lowerAt v = some l → l ≤ Vec.entry x v + t * d v := by
      cases hl : p.lowerAt v with
      | none => exact ⟨1, one_pos, by simp⟩
      | some l =>
          obtain ⟨ε, hε, hshort⟩ := onShortSteps_le (c := -d v)
            (neg_le_neg (hlower l hl)) fun heq =>
              neg_nonpos.mpr ((hd v hv).1 (by rw [hl, neg_inj.mp heq]))
          refine ⟨ε, hε, fun t ht hle l' hl' => ?_⟩
          obtain rfl := Option.some.inj hl'
          linarith [hshort t ht hle]
    have habove : OnShortSteps fun t => ∀ u, p.upperAt v = some u → Vec.entry x v + t * d v ≤ u := by
      cases hu : p.upperAt v with
      | none => exact ⟨1, one_pos, by simp⟩
      | some u =>
          obtain ⟨ε, hε, hshort⟩ := onShortSteps_le (c := d v) (hupper u hu) fun heq =>
            (hd v hv).2 (by rw [hu, heq])
          refine ⟨ε, hε, fun t ht hle u' hu' => ?_⟩
          obtain rfl := Option.some.inj hu'
          exact hshort t ht hle
    exact hbelow.and habove
  obtain ⟨ε, hε, hshort⟩ := OnShortSteps.forall_mem _ hbetween
  refine ⟨ε, hε, fun t ht hle => isFeasible_iff.mpr fun v hv => ?_⟩
  rw [Vec.entry_step x _ (hx.symm ▸ hv)]
  exact hshort t ht hle v (Finset.mem_range.mpr hv)

/-- A direction along which short steps do not improve has no negative slope. -/
theorem IsConvex.slopeAlong_nonneg (h : p.IsConvex) (hx : x.size = p.size)
    (hle : OnShortSteps fun t => p.objective x ≤ p.objective (x.step fun v => t * d v)) :
    0 ≤ p.slopeAlong x d := by
  by_contra hneg
  have hslope : p.slopeAlong x d < 0 := not_le.mp hneg
  obtain ⟨ε, hε, hall⟩ := (hle.and (h.isExpandable.onShortSteps_objective hx d)).and
    (onShortSteps_le (a := p.slopeAlong x d) (b := p.slopeAlong x d / 2)
      (c := p.quadratic.form d d / 2) (by linarith) fun heq => by linarith)
  obtain ⟨⟨hge, hexpansion⟩, hsquare⟩ := hall ε hε.le le_rfl
  rw [hexpansion] at hge
  have hproduct : ε * (p.slopeAlong x d + ε * (p.quadratic.form d d / 2)) < 0 :=
    mul_neg_of_pos_of_neg hε (by linarith)
  linarith

/-- A feasible point is minimal exactly if no admissible direction has a negative slope. -/
theorem IsConvex.isMinimal_iff (h : p.IsConvex) (hx : x.size = p.size)
    (hfeasible : p.isFeasible x = true) :
    p.IsMinimal x ↔ ∀ d, p.IsAdmissible x d → 0 ≤ p.slopeAlong x d := by
  constructor
  · intro hminimal d hd
    obtain ⟨ε, hε, hshort⟩ := hd.onShortSteps_isFeasible hx hfeasible
    exact h.slopeAlong_nonneg hx ⟨ε, hε, fun t ht hle =>
      hminimal.le _ ((Vec.size_step x _).trans hx) (hshort t ht hle)⟩
  · intro hslope
    refine ⟨hx, hfeasible, fun z hz hzfeasible => ?_⟩
    have hge := h.objective_ge hx hz
    linarith [hslope _ (isAdmissible_sub (x := x) hzfeasible)]

end Problem
end TotalVariation
