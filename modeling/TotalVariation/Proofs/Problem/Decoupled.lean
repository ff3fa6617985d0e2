import Mathlib
import TotalVariation.Proofs.Problem.Proximal
import TotalVariation.Proofs.Problem.Stopping

/-! # Decoupled problems

Without edges, a problem with a diagonal quadratic term falls apart into one problem for each
variable. If no curvature has to be raised, the metric inverts the curvatures, and the step from
zero that gives the first iterate solves each of these problems. The iteration then finds the same
values again: no copy moves, whatever the relaxation is, and the first iteration is the last.
-/

namespace TotalVariation

open TotalVariation.Bound

variable {K : Type} [ExactField K]

/-- A diagonal Hessian is symmetric. -/
theorem Quadratic.isSymmetric_of_diagonal {q : Quadratic K} {w : ℕ → K}
    (h : ∀ i < q.size, ∀ j < q.size, q.hessian.entry i j = if i = j then w i else 0) :
    q.IsSymmetric := by
  cases q with
  | gram H y =>
      intro i hi j hj
      rcases eq_or_ne i j with rfl | hne
      · rfl
      · exact ((h i hi j hj).trans (if_neg hne)).trans
          ((h j hj i hi).trans (if_neg hne.symm)).symm
  | none | identity | diagonal | direct => trivial

namespace Splitting

variable {p : Problem K} {k : Parameters K} {w : ℕ → K}

/-- Curvatures of which none is below the share of another are inverted as they are. -/
theorem entry_invertCurvature_of_level {conditioning : K} {curvature : Vec K}
    (hpos : ∀ v < curvature.size, 0 < Vec.entry curvature v)
    (hlevel : ∀ u < curvature.size, ∀ v < curvature.size,
      conditioning * Vec.entry curvature u ≤ Vec.entry curvature v)
    {v : ℕ} (hv : v < curvature.size) :
    Vec.entry (invertCurvature conditioning curvature) v = 1 / Vec.entry curvature v := by
  obtain ⟨top, htop⟩ : ∃ top, Vec.largest? curvature = some top := by
    rw [Vec.largest?, if_neg (by omega)]
    exact ⟨_, rfl⟩
  obtain ⟨u, hu, hentry⟩ := Array.mem_iff_getElem.mp
    (Array.mem_toList_iff.mp (Vec.largest?_eq_some.mp htop).1)
  obtain rfl : Vec.entry curvature u = top := by simpa [Vec.entry, hu] using hentry
  rw [entry_invertCurvature conditioning hv, htop, Option.getD_some, if_neg (hpos u hu).not_ge,
    Scalar.max_eq, max_eq_left (hlevel u hu v hv)]

/-- A vector does not evolve towards itself. -/
theorem evolution_self (hroot : Scalar.sqrt (0 : K) = 0) (x : Vec K) : evolution x x = 0 := by
  have hchange : Vec.norm (Vec.tabulate x.size fun v => Vec.entry x v - Vec.entry x v) = 0 := by
    rw [Vec.norm, Vec.dot_eq, Finset.sum_eq_zero, hroot]
    intro v _
    rw [Vec.entry_tabulate, sub_self, ite_self, mul_zero]
  unfold evolution
  dsimp only
  rw [hchange, zero_div, ite_self]

/-- The first iterate is what the separable map makes of a step along the gradient at zero. -/
theorem entry_firstIterate (metric : Vec K) {v : ℕ} (hv : v < p.size) :
    Vec.entry (firstIterate p metric) v = Proximal.separable (1 / Vec.entry metric v)
      (p.targetWeightAt v) (Vec.entry p.targets v) (p.lowerAt v) (p.upperAt v)
      (-Vec.entry metric v * Vec.entry (p.quadratic.gradientAt (Vec.constant p.size 0)) v) := by
  rw [firstIterate, separableStep, Vec.entry_tabulate, if_pos hv]

/-! ## One problem for each variable -/

/-- No edges, and a quadratic term with the curvatures `w` of which none is zero or below the share
`conditioning` of another; weights that are not negative, and bounds that do not exclude each other.
-/
structure IsDecoupled (p : Problem K) (conditioning : K) (w : ℕ → K) : Prop where
  edges : p.edges = #[]
  isDirect : p.quadratic.isDirect = false
  fits : p.quadratic.Fits p.size
  hessian : ∀ u < p.size, ∀ v < p.size,
    p.quadratic.hessian.entry u v = if u = v then w u else 0
  pos : ∀ v < p.size, 0 < w v
  level : ∀ u < p.size, ∀ v < p.size, conditioning * w u ≤ w v
  penalty_nonneg : ∀ v < p.size, 0 ≤ p.penalty v
  uncrossed : ∀ v < p.size, AreUncrossed (p.lowerAt v) (p.upperAt v)

namespace IsDecoupled

variable {v : ℕ} (h : IsDecoupled p k.conditioning w)
include h

theorem isRegular : IsRegular p where
  ends_lt e he := by simp [h.edges] at he
  edgeWeights_nonneg e he := by simp [h.edges] at he
  penalty_nonneg := h.penalty_nonneg
  uncrossed := h.uncrossed

theorem entry_majorant (hv : v < p.size) : Vec.entry p.quadratic.majorant v = w v := by
  rw [h.fits.isSquare.entry_majorant h.isDirect hv, ← abs_of_pos (h.pos v hv)]
  exact Quadratic.sum_abs_row hv (h.hessian v hv)

/-- The metric inverts the curvatures. -/
theorem entry_metric (hv : v < p.size) :
    Vec.entry (start p k none).metric v = 1 / w v := by
  have hsize : p.quadratic.majorant.size = p.size := p.quadratic.size_majorant
  change Vec.entry (invertCurvature k.conditioning p.quadratic.majorant) v = _
  rw [entry_invertCurvature_of_level (fun u hu => ?_) (fun u hu v hv => ?_) (hsize.symm ▸ hv),
    h.entry_majorant hv]
  · rw [hsize] at hu
    rw [h.entry_majorant hu]
    exact h.pos u hu
  · rw [hsize] at hu hv
    rw [h.entry_majorant hu, h.entry_majorant hv]
    exact h.level u hu v hv

/-- Each vertex has one copy. -/
theorem entry_shares_eq_one (hv : v < p.size) : Vec.entry (shares p) v = 1 := by
  rw [entry_shares hv, copies, h.edges]
  simp

theorem entry_gradientAt {x : Vec K} (hx : x.size = p.size) (hv : v < p.size) :
    Vec.entry (p.quadratic.gradientAt x) v =
      w v * Vec.entry x v - Vec.entry p.quadratic.linear v := by
  rw [h.fits.entry_gradientAt hx hv]
  exact Quadratic.slopeAt_of_diagonal h.hessian x hv

/-- From the first iterate the separable map is asked for the same value as the first time. -/
theorem vertexMap_start (hv : v < p.size) :
    vertexMap p (start p k none) v = Vec.entry (start p k none).x v := by
  have hw := (h.pos v hv).ne'
  have hx : (start p k none).x.size = p.size := (fits_start (by simp)).size_x
  have hzero : (Vec.constant p.size (0 : K)).size = p.size := Array.size_replicate
  have htwo : (Scalar.two : K) = 2 := one_add_one_eq_two
  have hmetric := h.entry_metric hv
  have hiterate := entry_firstIterate (start p k none).metric hv
  have hcopy : (start p k none).atVertex = (start p k none).x := rfl
  -- both arguments are the step along the whole gradient, to the point without slope
  have hfirst : -(1 / w v) * Vec.entry (p.quadratic.gradientAt (Vec.constant p.size 0)) v =
      Vec.entry p.quadratic.linear v / w v := by
    rw [h.entry_gradientAt hzero hv, Vec.entry_constant, if_pos hv]
    field_simp
    ring
  have hagain : reflected p (start p k none) v (Vec.entry (start p k none).x v) =
      Vec.entry p.quadratic.linear v / w v := by
    rw [reflected, htwo, hmetric, h.entry_gradientAt hx hv]
    field_simp
    ring
  rw [hmetric, hfirst] at hiterate
  rw [vertexMap, hcopy, hagain, hmetric, h.entry_shares_eq_one hv]
  exact hiterate.symm

/-- The first iteration changes no copy. -/
theorem isFixed_start (hrelaxation : k.relaxation ≠ 0) :
    (start p k none).IsFixed p k.relaxation := by
  have hassembled : (start p k none).IsAssembled p := IsHead.first.isAssembled (by simp)
  refine (hassembled.isFixed_iff h.isRegular hrelaxation).mpr ⟨fun e he => ?_, fun v hv => ?_⟩
  · simp [h.edges] at he
  · exact h.vertexMap_start hv

theorem form_pos {d : ℕ → K} (hd : ∃ v < p.quadratic.size, d v ≠ 0) :
    0 < p.quadratic.form d d := by
  obtain ⟨v, hv, hne⟩ := hd
  rw [Quadratic.form_eq_of_diagonal h.hessian]
  refine Finset.sum_pos' (fun u hu => ?_) ⟨v, Finset.mem_range.mpr hv, ?_⟩
  · exact mul_nonneg (h.pos u (Finset.mem_range.mp hu)).le (mul_self_nonneg _)
  · exact mul_pos (h.pos v hv) (mul_self_pos.mpr hne)

/-- A decoupled problem is solved by exactly one iteration: its answer is feasible, and every other
feasible point is worse. -/
theorem solve?_isOnlyMinimum (hroot : Scalar.sqrt (0 : K) = 0)
    (hrelaxation : 0 < k.relaxation ∧ k.relaxation < 2) (htolerance : 0 < k.tolerance)
    (hmax : 1 ≤ k.maxIterations) :
    ∃ answer, solve? p k none = .ok answer ∧ answer.iterations = 1 ∧
      IsOnlyMinimum {z | z.size = p.size ∧ p.isFeasible z = true} p.objective answer.x := by
  have hinit : ∀ x : Vec K, none = some x → x.size = p.size := by simp
  have hhead : IsHead p k none 0 (start p k none) := .first
  have hassembled := hhead.isAssembled hinit
  have hfixed := h.isFixed_start hrelaxation.1.ne'
  have hmetric : ∀ v < p.size, 0 < Vec.entry (start p k none).metric v := fun v hv => by
    rw [h.entry_metric hv]
    exact one_div_pos.mpr (h.pos v hv)
  have hstationary := (hassembled.isFixed_iff_isStationary h.isRegular hmetric
    hrelaxation.1.ne').mp hfixed
  have hevolution : evolutionAfter p k (start p k none) = 0 := by
    change evolution (start p k none).x (step p k.relaxation (shares p) (start p k none)).x = 0
    rw [hassembled.step_x_eq hfixed, evolution_self hroot]
  have hlast : IsLast p k 0 (start p k none) := ⟨hmax, .inl (hevolution.trans_lt htolerance)⟩
  refine ⟨_, rfl, (hhead.solve_eq hlast).2, ?_⟩
  rw [hhead.solve_x_eq h.isRegular hrelaxation.1.ne' hinit hlast hfixed]
  exact ⟨⟨hassembled.size_x, hstationary.isFeasible⟩, fun z hz hne =>
    hstationary.objective_lt h.isRegular h.fits (Quadratic.isSymmetric_of_diagonal h.hessian)
      (fun d => h.form_pos) hassembled.size_x hz.1 hz.2 hne⟩

end IsDecoupled

/-- Four variables: one ends at its upper bound, one at its target, one at its lower bound, and one
between its target and where the quadratic term would have it. -/
def fourEndings : Problem ℚ :=
  ⟨.diagonal #[2, 1 / 2, 1, 4] (some #[6, 1, -3, 1 / 2]), #[], #[], some #[1, 1, 0, 3],
    #[0, 1, 0, 2], #[none, some 0, some (-1), none], #[some 2, none, none, none]⟩

/-- Parameters with steps beyond the proximal maps, and the least curvature that is not raised. -/
def overrelaxed : Parameters ℚ := ⟨3 / 2, 1 / 8, 1, 1 / 10000, 5, false⟩

theorem solve?_isOnlyMinimum_fourEndings :
    ∃ answer, solve? fourEndings overrelaxed none = .ok answer ∧ answer.iterations = 1 ∧
      IsOnlyMinimum {z | z.size = fourEndings.size ∧ fourEndings.isFeasible z = true}
        fourEndings.objective answer.x := by
  have hdecoupled : IsDecoupled fourEndings overrelaxed.conditioning
      (Vec.entry #[2, 1 / 2, 1, 4]) := by
    refine ⟨rfl, rfl, ⟨rfl, ?_⟩, ?_, ?_, ?_, ?_, ?_⟩
    · rintro _ ⟨⟩
      rfl
    · exact fun u hu v hv => Quadratic.entry_hessian_diagonal _ _ hu hv
    · change ∀ v < 4, _
      decide +kernel
    · change ∀ u < 4, ∀ v < 4, _
      decide +kernel
    · change ∀ v < 4, _
      decide +kernel
    · change ∀ v < 4, _
      intro v hv l u hl hu
      interval_cases v <;> cases hl <;> cases hu
  exact hdecoupled.solve?_isOnlyMinimum (by decide +kernel) (by decide +kernel) (by decide +kernel)
    (by decide)

end Splitting
end TotalVariation
