import Mathlib
import TotalVariation.Proofs.Problem.FixedPoint
import TotalVariation.Proofs.Problem.Metric

/-! # Iterations that change nothing

The loop ends when the iterate hardly changes, but the iterate may stand still while the copies
whose mean it is still move. If the copies at the edges stand still too, those of the vertices do,
and for a strictly convex quadratic term the solution is the only minimal point.
-/

namespace TotalVariation

open TotalVariation.Bound

variable {K : Type} [ExactField K]

/-! ## Strictly convex terms -/

namespace Quadratic

variable {q : Quadratic K}

/-- The curvature is positive along every direction. -/
structure IsStrictlyConvex (q : Quadratic K) : Prop where
  isConvex : q.IsConvex
  form_pos : ∀ d : Nat → K, (∃ i < q.size, d i ≠ 0) → 0 < q.form d d

theorem form_single (q : Quadratic K) {i : Nat} (hi : i < q.size) :
    q.form (fun j => if i = j then 1 else 0) (fun j => if i = j then 1 else 0) =
      q.hessian.entry i i := by
  have hmem : i ∈ Finset.range q.size := Finset.mem_range.mpr hi
  simp only [form, mul_ite, mul_one, mul_zero, Finset.sum_ite_eq, if_pos hmem]

theorem IsStrictlyConvex.hessian_pos (h : q.IsStrictlyConvex) {i : Nat} (hi : i < q.size) :
    0 < q.hessian.entry i i := by
  rw [← q.form_single hi]
  exact h.form_pos _ ⟨i, hi, by simp⟩

/-- A strictly convex term has a positive majorant. -/
theorem IsStrictlyConvex.majorant_pos (h : q.IsStrictlyConvex) {n : Nat} (hfits : q.Fits n) {i : Nat}
    (hi : i < n) : 0 < Vec.entry q.majorant i := by
  rw [← hfits.size_eq] at hi
  exact (h.hessian_pos hi).trans_le (hfits.isSquare.hessian_le_majorant hi)

end Quadratic

namespace Splitting

variable {p : Problem K} {k : Parameters K} {init : Option (Vec K)} {n : Nat} {s : State K}

/-! ## The metric -/

/-- Positive curvatures have a positive metric, whatever the conditioning. -/
theorem invertCurvature_pos (conditioning : K) {curvature : Vec K}
    (hpos : ∀ v < curvature.size, 0 < Vec.entry curvature v) {v : Nat} (hv : v < curvature.size) :
    0 < Vec.entry (invertCurvature conditioning curvature) v := by
  rw [entry_invertCurvature conditioning hv]
  split
  next => exact one_pos
  next =>
    rw [Scalar.max_eq]
    exact one_div_pos.mpr (lt_max_of_lt_left (hpos v hv))

theorem plainMetric_pos (conditioning : K) (hfits : p.quadratic.Fits p.size)
    (hstrict : p.quadratic.IsStrictlyConvex) {v : Nat} (hv : v < p.size) :
    0 < Vec.entry (plainMetric conditioning p.quadratic) v := by
  have hsize : p.quadratic.majorant.size = p.size := p.quadratic.size_majorant
  exact invertCurvature_pos conditioning (fun i hi => hstrict.majorant_pos hfits (hsize ▸ hi))
    (hsize.symm ▸ hv)

theorem metricAt_pos (conditioning tolerance : K) (hp : IsRegular p)
    (hfits : p.quadratic.Fits p.size) (hstrict : p.quadratic.IsStrictlyConvex) (x : Vec K) {v : Nat}
    (hv : v < p.size) :
    0 < Vec.entry (metricAt conditioning tolerance p.quadratic p.edges p.edgeWeights x) v := by
  have hsize : (curvatureAt tolerance p.quadratic p.edges p.edgeWeights x).size = p.size :=
    size_curvatureAt _ _ _ _ _
  rw [metricAt_eq]
  refine invertCurvature_pos conditioning (fun i hi => ?_) (hsize.symm ▸ hv)
  rw [hsize] at hi
  exact (hstrict.majorant_pos hfits hi).trans_le
    (majorant_le_curvatureAt tolerance hp.edgeWeights_nonneg x hi)

/-- The metric is positive at every head of the loop. -/
theorem IsHead.metric_pos (h : IsHead p k init n s) (hp : IsRegular p)
    (hfits : p.quadratic.Fits p.size) (hstrict : p.quadratic.IsStrictlyConvex) {v : Nat}
    (hv : v < p.size) : 0 < Vec.entry s.metric v := by
  induction h with
  | first => exact plainMetric_pos k.conditioning hfits hstrict hv
  | next _ _ _ ih =>
      unfold recondition
      split
      next => exact metricAt_pos _ _ hp hfits hstrict _ hv
      next => exact ih

/-! ## The last iteration -/

/-- The loop ends with the iteration that follows a head. -/
structure IsLast (p : Problem K) (k : Parameters K) (n : Nat) (s : State K) : Prop where
  lt_max : n < k.maxIterations
  leaves : evolutionAfter p k s < k.tolerance ∨ n + 1 = k.maxIterations

/-- The solution is read off the state after the last iteration. -/
theorem IsHead.solve_eq (h : IsHead p k init n s) (hlast : IsLast p k n s) :
    (solve p k init).x = (if p.isSeparable then (step p k.relaxation (shares p) s).separable
        else (step p k.relaxation (shares p) s).x) ∧
      (solve p k init).iterations = n + 1 := by
  obtain ⟨-, earlier, hreach⟩ := h.iterate_eq
  obtain ⟨fuel, hfuel⟩ : ∃ fuel, k.maxIterations - n = fuel + 1 :=
    Nat.exists_eq_succ_of_ne_zero (Nat.sub_ne_zero_of_lt hlast.lt_max)
  obtain ⟨reported, hturn⟩ := iterate_succ p k fuel n s earlier
  rw [hfuel, hturn] at hreach
  unfold solve
  rw [hreach]
  by_cases hsettled : evolutionAfter p k s < k.tolerance
  · rw [if_pos hsettled]
    exact ⟨rfl, rfl⟩
  · have hzero : fuel = 0 := by
      have hmax := hlast.leaves.resolve_left hsettled
      omega
    rw [if_neg hsettled, hzero, iterate]
    simp

/-- If the iterate and the copies at the edges stand still, so do the copies at the vertices. -/
theorem State.IsAssembled.isFixed_of_step (h : s.IsAssembled p) {relaxation : K}
    (hx : (step p relaxation (shares p) s).x = s.x)
    (hfrom : (step p relaxation (shares p) s).atFrom = s.atFrom)
    (hto : (step p relaxation (shares p) s).atTo = s.atTo) : s.IsFixed p relaxation := by
  refine ⟨hfrom, hto, ?_⟩
  have hstep := isAssembled_step p relaxation s
  refine Vec.ext_entry (hstep.size_atVertex.trans h.size_atVertex.symm) fun v hv => ?_
  have hv' : v < p.size := hstep.size_atVertex ▸ hv
  -- both iterates are the same mean, and the copies at the edges drop out
  have hmean := congrArg (Vec.entry · v) (hstep.x_eq.symm.trans (hx.trans h.x_eq))
  rw [hfrom, hto, entry_assemble _ _ _ _ hv', entry_assemble _ _ _ _ hv'] at hmean
  exact add_left_cancel (mul_left_cancel₀ (shares_pos hv').ne' hmean)

/-- An iteration that changes no copy leaves the iterate. -/
theorem State.IsAssembled.step_x_eq (h : s.IsAssembled p) {relaxation : K}
    (hfixed : s.IsFixed p relaxation) : (step p relaxation (shares p) s).x = s.x := by
  have hstep := isAssembled_step p relaxation s
  rw [hstep.x_eq, h.x_eq, hfixed.atFrom, hfixed.atTo, hfixed.atVertex]

/-- The solution that is left by an iteration which changes no copy is the iterate. -/
theorem IsHead.solve_x_eq (h : IsHead p k init n s) (hp : IsRegular p)
    (hrelaxation : k.relaxation ≠ 0) (hinit : ∀ x, init = some x → x.size = p.size)
    (hlast : IsLast p k n s) (hfixed : s.IsFixed p k.relaxation) : (solve p k init).x = s.x := by
  have hassembled := h.isAssembled hinit
  have hmaps := (hassembled.isFixed_iff hp hrelaxation).mp hfixed
  have hseparable : (step p k.relaxation (shares p) s).separable = s.x := by
    have hsize := (fits_step p k.relaxation (shares p) s).size_separable
    refine Vec.ext_entry (hsize.trans hassembled.size_x.symm) fun v hv => ?_
    have hv' : v < p.size := hsize ▸ hv
    rw [entry_step_separable _ hv', hmaps.2 v hv']
  rw [(h.solve_eq hlast).1, hseparable, hassembled.step_x_eq hfixed, ite_self]

/-- If the curvature is positive along every direction, every other feasible point is worse than the
iterate of a stationary state. -/
theorem IsStationary.objective_lt (h : IsStationary p s) (hp : IsRegular p)
    (hfits : p.quadratic.Fits p.size) (hsymmetric : p.quadratic.IsSymmetric)
    (hpos : ∀ d : Nat → K, (∃ v < p.quadratic.size, d v ≠ 0) → 0 < p.quadratic.form d d)
    (hx : s.x.size = p.size) {z : Vec K} (hz : z.size = p.size) (hfeasible : p.isFeasible z = true)
    (hne : z ≠ s.x) : p.objective s.x < p.objective z := by
  have hdirection : ∃ v < p.quadratic.size, Vec.entry z v - Vec.entry s.x v ≠ 0 := by
    by_contra hall
    refine hne (Vec.ext_entry (hz.trans hx.symm) fun v hv => ?_)
    have hv' : v < p.size := hz ▸ hv
    by_contra hdiff
    exact hall ⟨v, hv', sub_ne_zero.mpr hdiff⟩
  have hform := hpos _ hdirection
  have hworse := h.objective_add_form_le hp hfits hsymmetric hx hz hfeasible
    (d := fun v => Vec.entry z v - Vec.entry s.x v) fun v _ => by ring
  linarith

/-- With a strictly convex quadratic term, a solution that is left by an iteration which changes
neither the iterate nor the copies at the edges is the only minimal point. -/
theorem IsHead.isMinimal_of_last (h : IsHead p k init n s) (hp : IsRegular p)
    (hfits : p.quadratic.Fits p.size) (hstrict : p.quadratic.IsStrictlyConvex)
    (hrelaxation : 0 < k.relaxation ∧ k.relaxation < 2)
    (hinit : ∀ x, init = some x → x.size = p.size) (hlast : IsLast p k n s)
    (hx : (step p k.relaxation (shares p) s).x = s.x)
    (hfrom : (step p k.relaxation (shares p) s).atFrom = s.atFrom)
    (hto : (step p k.relaxation (shares p) s).atTo = s.atTo) :
    p.IsMinimal (solve p k init).x ∧ ∀ z, p.IsMinimal z → z = (solve p k init).x := by
  have hassembled := h.isAssembled hinit
  have hfixed := hassembled.isFixed_of_step hx hfrom hto
  have hmetric := fun v (hv : v < p.size) => h.metric_pos hp hfits hstrict hv
  have hstationary := (hassembled.isFixed_iff_isStationary hp hmetric hrelaxation.1.ne').mp hfixed
  have hminimal := hstationary.isMinimal hp hfits hstrict.isConvex hassembled.size_x
  rw [h.solve_x_eq hp hrelaxation.1.ne' hinit hlast hfixed]
  refine ⟨hminimal, fun z hz => ?_⟩
  by_contra hne
  have hworse := hstationary.objective_lt hp hfits hstrict.isConvex.isSymmetric hstrict.form_pos
    hassembled.size_x hz.size_eq hz.feasible hne
  exact hworse.not_ge (hz.le _ hminimal.size_eq hminimal.feasible)

/-- Two observations with an edge between them, and targets of weight one at zero. -/
def pulledPair (observation : Vec ℚ) : Problem ℚ :=
  ⟨.diagonal #[1, 1] (some observation), #[(0, 1)], #[1], some #[1, 1], #[0, 0], #[none, none],
    #[none, none]⟩

theorem isRegular_pulledPair (observation : Vec ℚ) : IsRegular (pulledPair observation) where
  ends_lt := by
    change ∀ e < 1, _
    intro e he
    interval_cases e
    exact ⟨two_pos, one_lt_two⟩
  edgeWeights_nonneg := by
    change ∀ e < 1, _
    intro e he
    interval_cases e
    exact zero_le_one
  penalty_nonneg := by
    change ∀ v < 2, _
    intro v hv
    interval_cases v <;> exact zero_le_one
  uncrossed := by
    change ∀ v < 2, _
    intro v hv l u hl
    interval_cases v <;> cases hl

theorem isStrictlyConvex_unitPair (y : Option (Vec ℚ)) :
    (Quadratic.diagonal (#[1, 1] : Vec ℚ) y).IsStrictlyConvex where
  isConvex := by
    change ∀ i < 2, _
    decide +kernel
  form_pos := by
    rintro d ⟨i, hi, hne⟩
    have hi' : i < 2 := hi
    rw [Quadratic.form_diagonal]
    have hsum : ∑ i ∈ Finset.range (#[1, 1] : Vec ℚ).size, Vec.entry (#[1, 1] : Vec ℚ) i * (d i * d i) =
        d 0 * d 0 + d 1 * d 1 := by
      simp [Finset.sum_range_succ, Vec.entry]
    rw [hsum]
    have hfirst := mul_self_nonneg (d 0)
    have hsecond := mul_self_nonneg (d 1)
    interval_cases i
    · linarith [mul_self_pos.mpr hne]
    · linarith [mul_self_pos.mpr hne]

/-- Two values apart that the targets hold at zero together with the edge. -/
def heldValues : Problem ℚ := pulledPair #[-2, 2]

theorem isMinimal_of_last_heldValues :
    heldValues.IsMinimal (solve heldValues plainParameters (some #[0, 0])).x ∧
      ∀ z, heldValues.IsMinimal z →
        z = (solve heldValues plainParameters (some #[0, 0])).x := by
  refine IsHead.first.isMinimal_of_last (isRegular_pulledPair _) ⟨rfl, ?_⟩
    (isStrictlyConvex_unitPair _) ⟨one_pos, one_lt_two⟩ ?_ ⟨by decide, .inl ?_⟩ ?_ ?_ ?_
  · rintro l ⟨⟩
    rfl
  · rintro x ⟨⟩
    rfl
  · decide +kernel
  · decide +kernel
  · decide +kernel
  · decide +kernel

/-- Two equal observations. -/
def alikePair : Problem ℚ := pulledPair #[10, 10]

/-- From the first iterate of the method itself, which is the minimal point, an iteration leaves the
iterate while the copies at the edge and at the vertices move by opposite amounts; what is answered
is the outcome of the separable map on the way. -/
theorem not_isMinimal_of_last_alikePair :
    IsRegular alikePair ∧ alikePair.quadratic.Fits alikePair.size ∧
      alikePair.quadratic.IsStrictlyConvex ∧
      IsHead alikePair plainParameters none 0 (start alikePair plainParameters none) ∧
      IsLast alikePair plainParameters 0 (start alikePair plainParameters none) ∧
      (start alikePair plainParameters none).x = #[9, 9] ∧
      evolutionAfter alikePair plainParameters (start alikePair plainParameters none) = 0 ∧
      (step alikePair plainParameters.relaxation (shares alikePair)
        (start alikePair plainParameters none)).x = #[9, 9] ∧
      (solve alikePair plainParameters none).x = #[8, 8] ∧
      (solve alikePair plainParameters none).iterations = 1 ∧ ¬alikePair.IsMinimal #[8, 8] := by
  have hlast : IsLast alikePair plainParameters 0 (start alikePair plainParameters none) :=
    ⟨by decide, .inl (by decide +kernel)⟩
  obtain ⟨hx, hiterations⟩ := IsHead.first.solve_eq hlast
  refine ⟨isRegular_pulledPair _, ⟨rfl, ?_⟩, isStrictlyConvex_unitPair _, .first, hlast, ?_, ?_, ?_,
    hx.trans ?_, hiterations, fun h => ?_⟩
  · rintro l ⟨⟩
    rfl
  · decide +kernel
  · decide +kernel
  · decide +kernel
  · decide +kernel
  · have hle := h.le #[9, 9] rfl (by decide +kernel)
    revert hle
    decide +kernel

end Splitting
end TotalVariation
