import Mathlib
import TotalVariation.Proofs.Numeric.Finite
import TotalVariation.Proofs.Problem.FixedPoint
import TotalVariation.Proofs.Problem.Metric
import TotalVariation.Proofs.Problem.Proximal

/-! # Splitting among the extended numbers

The metric of the splitting inverts a curvature. Where that is zero, the metric is infinite, and its
product with a gradient of zero is undefined; an undefined value passes through the clamping between
the bounds. So a solution by splitting respects the bounds exactly where its value is defined. If
the data are numbers, and the least relative curvature is positive or the majorant of the quadratic
term is, nothing is divided by zero and all values are numbers.
-/

namespace TotalVariation

open Extended Proximal

variable {K : Type} [ExactField K]

/-! ## Quadratic terms -/

theorem DenseMatrix.allFinite_mulVec {M : DenseMatrix (Extended K)} {x : Vec (Extended K)}
    (hM : ∀ i j, (M.entry i j).IsFinite) (hx : AllFinite x) : AllFinite (M.mulVec x) :=
  allFinite_tabulate fun i _ => isFinite_total fun j _ => (hM i j).mul (hx j)

namespace Quadratic

variable {q : Quadratic (Extended K)} {x : Vec (Extended K)}

/-- The data of the term are numbers. -/
def IsFinite : Quadratic (Extended K) → Prop
  | .none _ => True
  | .identity _ a y => a.IsFinite ∧ ∀ l ∈ y, AllFinite l
  | .diagonal d y => AllFinite d ∧ ∀ l ∈ y, AllFinite l
  | .gram H y => (∀ i j, (H.entry i j).IsFinite) ∧ ∀ l ∈ y, AllFinite l
  | .direct A y => (∀ i j, (A.entry i j).IsFinite) ∧ AllFinite y

theorem allFinite_linearPart (n : Nat) {y : Option (Vec (Extended K))}
    (hy : ∀ l ∈ y, AllFinite l) : AllFinite (linearPart n y) := by
  cases y with
  | none => exact allFinite_constant n isFinite_zero
  | some l => exact hy l rfl

theorem allFinite_diagonalGradient (n : Nat) {d y : Vec (Extended K)} (hd : AllFinite d)
    (hy : AllFinite y) (hx : AllFinite x) : AllFinite (diagonalGradient n d y x) :=
  allFinite_tabulate fun i _ => ((hd i).mul (hx i)).sub (hy i)

/-- The gradient at a point of numbers. -/
theorem IsFinite.gradientAt (hq : q.IsFinite) (hx : AllFinite x) : AllFinite (q.gradientAt x) := by
  cases q with
  | none n => exact allFinite_constant _ isFinite_zero
  | identity n a y =>
      have hscale := allFinite_constant n hq.1
      exact allFinite_diagonalGradient n hscale (allFinite_linearPart n hq.2) hx
  | diagonal d y => exact allFinite_diagonalGradient _ hq.1 (allFinite_linearPart _ hq.2) hx
  | gram H y =>
      exact allFinite_tabulate fun i _ =>
        (DenseMatrix.allFinite_mulVec hq.1 hx i).sub (allFinite_linearPart _ hq.2 i)
  | direct A y =>
      refine allFinite_tabulate fun j _ => isFinite_total fun i _ => (hq.1 i j).mul ?_
      exact allFinite_tabulate (fun i _ => (DenseMatrix.allFinite_mulVec hq.1 hx i).sub (hq.2 i)) i

theorem IsFinite.majorant (hq : q.IsFinite) : AllFinite q.majorant := by
  cases q with
  | none n => exact allFinite_constant n isFinite_zero
  | identity n a y => exact allFinite_constant n hq.1.abs.isFinite
  | diagonal d y => exact hq.1.map fun _ ha => ha.abs.isFinite
  | gram H y =>
      exact allFinite_tabulate fun i _ => isFinite_total fun j _ => (hq.1 i j).abs.isFinite
  | direct A y =>
      refine allFinite_tabulate fun j _ => isFinite_total fun i _ => (hq.1 i j).abs.isFinite.mul ?_
      exact allFinite_tabulate
        (fun i _ => isFinite_total fun j _ => (hq.1 i j).abs.isFinite) i

end Quadratic

/-! ## Proximal maps -/

namespace Proximal

variable {c cu cv w target p pu pv : Extended K} {weight : Option (Extended K)}
  {low upp : Bound (Extended K)}

/-- In a positive metric the separable map takes numbers to numbers. -/
theorem isFinite_separable (hc : c.IsPositive) (hweight : ∀ l ∈ weight, l.IsFinite)
    (htarget : target.IsFinite) (hlow : ∀ l ∈ low, l.IsFinite) (hupp : ∀ u ∈ upp, u.IsFinite)
    (hp : p.IsFinite) : (separable c weight target low upp p).IsFinite := by
  have hraise : ∀ y : Extended K, y.IsFinite → (low.raise y).IsFinite := by
    intro y hy
    cases low with
    | none => exact hy
    | some l => exact hy.max (hlow l rfl)
  have hcap : ∀ y : Extended K, y.IsFinite → (upp.cap y).IsFinite := by
    intro y hy
    cases upp with
    | none => exact hy
    | some u => exact hy.min (hupp u rfl)
  refine hcap _ (hraise _ ?_)
  cases weight with
  | none => exact hp
  | some l =>
      have hdistance := hp.sub htarget
      have hexcess := hdistance.abs.isFinite.sub ((hweight l rfl).div hc)
      exact htarget.add (hdistance.sign.mul (hexcess.max isFinite_zero))

/-- In positive metrics the map of the variation takes numbers to numbers. -/
theorem isFinite_pair (hcu : cu.IsPositive) (hcv : cv.IsPositive) (hw : w.IsFinite)
    (hpu : pu.IsFinite) (hpv : pv.IsFinite) :
    (pair cu cv w pu pv).1.IsFinite ∧ (pair cu cv w pu pv).2.IsFinite := by
  unfold pair
  dsimp only
  split
  next =>
    have hmean := ((hcu.isFinite.mul hpu).add (hcv.isFinite.mul hpv)).div (hcu.add hcv.isNonneg)
    exact ⟨hmean, hmean⟩
  next =>
    have hpull := (hpu.sub hpv).sign.mul hw
    exact ⟨hpu.sub (hpull.div hcu), hpv.add (hpull.div hcv)⟩

end Proximal

/-! ## Problems -/

/-- The data of the problem are numbers; bounds may be missing. -/
structure Problem.IsFinite (p : Problem (Extended K)) : Prop where
  quadratic : p.quadratic.IsFinite
  edgeWeights : AllFinite p.edgeWeights
  targetWeights : ∀ w ∈ p.targetWeights, AllFinite w
  targets : AllFinite p.targets
  lower : ∀ v, ∀ l ∈ p.lowerAt v, l.IsFinite
  upper : ∀ v, ∀ u ∈ p.upperAt v, u.IsFinite

namespace Splitting

/-- The parameters that numbers are computed with are numbers. -/
structure Parameters.IsFinite (k : Parameters (Extended K)) : Prop where
  relaxation : k.relaxation.IsFinite
  conditioning : k.conditioning.IsFinite
  tolerance : k.tolerance.IsFinite

/-- All curvatures that the metric inverts are positive: the least relative curvature is, or the
majorant of the quadratic term is and the variation does not lower it. -/
def IsConditioned {α : Type} [Scalar α] (p : Problem α) (k : Parameters α) : Prop :=
  0 < k.conditioning ∨ (∀ v < p.size, 0 < Vec.entry p.quadratic.majorant v) ∧
    ∀ e < p.edges.size, 0 ≤ Vec.entry p.edgeWeights e

variable {p : Problem (Extended K)} {k : Parameters (Extended K)} {s : State (Extended K)}
  {init : Option (Vec (Extended K))}

/-! ### The metric -/

section Metric

variable {conditioning tolerance : Extended K}

theorem isPositive_invertCurvature (hconditioning : conditioning.IsFinite)
    {curvature : Vec (Extended K)} (hcurvature : AllFinite curvature)
    (hpos : 0 < conditioning ∨ ∀ v < curvature.size, 0 < Vec.entry curvature v) {v : Nat}
    (hv : v < curvature.size) :
    (Vec.entry (invertCurvature conditioning curvature) v).IsPositive := by
  have hlargest := hcurvature.largest
  rw [entry_invertCurvature conditioning hv]
  split
  next => exact isPositive_one
  next hsteep =>
    have htop := hlargest.isPositive_of_not_le hsteep
    refine isPositive_one.div (.max (hcurvature v) (hconditioning.mul hlargest) ?_)
    rcases hpos with hpos | hpos
    · exact .inr ((hconditioning.isPositive hpos).mul htop)
    · exact .inl ((hcurvature v).isPositive (hpos v hv))

theorem isPositive_plainMetric (hp : p.IsFinite) (hk : k.IsFinite) (hpos : IsConditioned p k)
    {v : Nat} (hv : v < p.size) :
    (Vec.entry (plainMetric k.conditioning p.quadratic) v).IsPositive := by
  have hsize : p.quadratic.majorant.size = p.size := p.quadratic.size_majorant
  refine isPositive_invertCurvature hk.conditioning hp.quadratic.majorant ?_ (hsize.symm ▸ hv)
  rw [hsize]
  exact hpos.imp_right And.left

/-- The curvature of the variation is a number where it is bounded by a tolerance, and not negative
if the weight is not. -/
theorem isFinite_edgeCurvature (htolerance : tolerance.IsPositive) {w a b : Extended K}
    (hw : w.IsFinite) (ha : a.IsFinite) (hb : b.IsFinite) :
    (edgeCurvature tolerance w a b).IsFinite ∧
      (0 ≤ w → (edgeCurvature tolerance w a b).IsNonneg) := by
  have hdivisor : (Scalar.max (Scalar.abs (a - b)) tolerance).IsPositive :=
    .max (ha.sub hb).abs.isFinite htolerance.isFinite (.inr htolerance)
  exact ⟨hw.div hdivisor, fun hnonneg => (hw.isNonneg hnonneg).div hdivisor⟩

theorem isPositive_metricAt (hp : p.IsFinite) (hk : k.IsFinite) (hpos : IsConditioned p k)
    (htolerance : tolerance.IsPositive) {x : Vec (Extended K)} (hx : AllFinite x) {v : Nat}
    (hv : v < p.size) : (Vec.entry
      (metricAt k.conditioning tolerance p.quadratic p.edges p.edgeWeights x) v).IsPositive := by
  have hsize : (curvatureAt tolerance p.quadratic p.edges p.edgeWeights x).size = p.size :=
    size_curvatureAt _ _ _ _ _
  have hedge (e : Nat) := isFinite_edgeCurvature htolerance (hp.edgeWeights e)
    (hx (p.edges.getD e (0, 0)).1) (hx (p.edges.getD e (0, 0)).2)
  rw [metricAt_eq]
  refine isPositive_invertCurvature hk.conditioning (allFinite_of_lt fun i hi => ?_)
    (hpos.imp_right fun hcurved i hi => ?_) (hsize.symm ▸ hv)
  · obtain ⟨a, b, ha, hb, hentry⟩ := exists_entry_curvatureAt isFinite_zero
      (fun _ _ => IsFinite.add) p.quadratic (fun e _ => (hedge e).1) (hsize ▸ hi)
    rw [hentry]
    exact ((hp.quadratic.majorant i).add ha).add hb
  · obtain ⟨a, b, ha, hb, hentry⟩ := exists_entry_curvatureAt isNonneg_zero
      (fun _ _ => IsNonneg.add) p.quadratic (fun e he => (hedge e).2 (hcurved.2 e he)) (hsize ▸ hi)
    have hmajorant := (hp.quadratic.majorant i).isPositive (hcurved.1 i (hsize ▸ hi))
    rw [hentry]
    exact ((hmajorant.add ha).add hb).lt

end Metric

/-! ### The iteration -/

theorem isPositive_shares (p : Problem (Extended K)) {v : Nat} (hv : v < p.size) :
    (Vec.entry (shares p) v).IsPositive := by
  have hcount (place : Nat → Nat) : (Vec.entry (Vec.scatter p.size p.edges.size place
      fun _ => (1 : Extended K)) v).IsNonneg :=
    Vec.entry_scatter_of_closed isNonneg_zero (fun _ _ => IsNonneg.add) place
      (fun _ _ => isPositive_one.isNonneg) v
  rw [shares, Vec.entry_tabulate, if_pos hv]
  exact isPositive_one.div ((isPositive_one.add (hcount _)).add (hcount _))

/-- The values of the state are numbers, and the metric is positive. -/
structure State.IsFinite (p : Problem (Extended K)) (s : State (Extended K)) : Prop where
  x : AllFinite s.x
  atFrom : AllFinite s.atFrom
  atTo : AllFinite s.atTo
  atVertex : AllFinite s.atVertex
  separable : AllFinite s.separable
  metric : ∀ v < p.size, (Vec.entry s.metric v).IsPositive

theorem allFinite_separableStep (hp : p.IsFinite) {metric point : Nat → Extended K}
    (hmetric : ∀ v < p.size, (metric v).IsPositive) (hpoint : ∀ v < p.size, (point v).IsFinite) :
    AllFinite (separableStep p metric point) := by
  refine allFinite_tabulate fun v hv => Proximal.isFinite_separable (hmetric v hv) ?_ (hp.targets v)
    (hp.lower v) (hp.upper v) (hpoint v hv)
  intro l hl
  obtain ⟨w, hw, rfl⟩ := Option.map_eq_some_iff.mp hl
  exact hp.targetWeights w hw v

section Step

variable (hs : s.IsFinite p) (hp : p.IsFinite)

include hs hp

theorem isFinite_reflected {v : Nat} (hv : v < p.size) {copy : Extended K} (hcopy : copy.IsFinite) :
    (reflected p s v copy).IsFinite := by
  have htwice := (isPositive_one.isFinite.add isPositive_one.isFinite).mul (hs.x v)
  exact (htwice.sub hcopy).sub ((hs.metric v hv).isFinite.mul (hp.quadratic.gradientAt hs.x v))

theorem isFinite_edgeMap {e : Nat} (hends : p.edgeFrom e < p.size ∧ p.edgeTo e < p.size) :
    (edgeMap p s e).1.IsFinite ∧ (edgeMap p s e).2.IsFinite := by
  have hweight (v : Nat) (hv : v < p.size) := (isPositive_shares p hv).div (hs.metric v hv)
  exact Proximal.isFinite_pair (hweight _ hends.1) (hweight _ hends.2) (hp.edgeWeights e)
    (isFinite_reflected hs hp hends.1 (hs.atFrom e)) (isFinite_reflected hs hp hends.2 (hs.atTo e))

/-- An iteration leads from numbers to numbers. -/
theorem isFinite_step (hends : ∀ e < p.edges.size, p.edgeFrom e < p.size ∧ p.edgeTo e < p.size)
    {relaxation : Extended K} (hrelaxation : relaxation.IsFinite) :
    (step p relaxation (shares p) s).IsFinite p := by
  have hseparable : AllFinite (step p relaxation (shares p) s).separable := by
    rw [step_separable]
    refine allFinite_separableStep hp (fun v hv => (isPositive_shares p hv).div (hs.metric v hv))
      fun v hv => ?_
    rw [forward_eq hv]
    exact isFinite_reflected hs hp hv (hs.atVertex v)
  have hfrom : AllFinite (step p relaxation (shares p) s).atFrom := by
    refine allFinite_of_lt fun e he => ?_
    have he' : e < p.edges.size := by simpa [step] using he
    rw [entry_step_atFrom relaxation he' (hends e he')]
    exact (hs.atFrom e).add
      (hrelaxation.mul ((isFinite_edgeMap hs hp (hends e he')).1.sub (hs.x _)))
  have hto : AllFinite (step p relaxation (shares p) s).atTo := by
    refine allFinite_of_lt fun e he => ?_
    have he' : e < p.edges.size := by simpa [step] using he
    rw [entry_step_atTo relaxation he' (hends e he')]
    exact (hs.atTo e).add
      (hrelaxation.mul ((isFinite_edgeMap hs hp (hends e he')).2.sub (hs.x _)))
  have hvertex : AllFinite (step p relaxation (shares p) s).atVertex :=
    allFinite_tabulate fun v _ =>
      (hs.atVertex v).add (hrelaxation.mul ((hseparable v).sub (hs.x v)))
  refine ⟨allFinite_tabulate fun v hv => ?_, hfrom, hto, hvertex, hseparable, hs.metric⟩
  have houtgoing : AllFinite (Vec.scatter p.size p.edges.size p.edgeFrom
      (Vec.entry (step p relaxation (shares p) s).atFrom)) :=
    allFinite_scatter p.edgeFrom fun e _ => hfrom e
  have hincoming : AllFinite (Vec.scatter p.size p.edges.size p.edgeTo
      (Vec.entry (step p relaxation (shares p) s).atTo)) :=
    allFinite_scatter p.edgeTo fun e _ => hto e
  exact (isPositive_shares p hv).isFinite.mul (((houtgoing v).add (hincoming v)).add (hvertex v))

end Step

theorem isFinite_restart {metric x separable : Vec (Extended K)}
    (hmetric : ∀ v < p.size, (Vec.entry metric v).IsPositive) (hx : AllFinite x)
    (hseparable : AllFinite separable) (reconditioning : Extended K)
    (evolution : Option (Extended K)) :
    (restart p metric reconditioning x separable evolution).IsFinite p where
  x := hx
  atFrom := allFinite_tabulate fun _ _ => hx _
  atTo := allFinite_tabulate fun _ _ => hx _
  atVertex := hx
  separable := hseparable
  metric := hmetric

/-- A new metric is positive, as the tolerance for differences is. -/
theorem State.IsFinite.recondition (hs : s.IsFinite p) (hp : p.IsFinite) (hk : k.IsFinite)
    (hpos : IsConditioned p k) (change : Extended K) : (recondition p k change s).IsFinite p := by
  unfold Splitting.recondition
  split
  next =>
    have hlargest := (hs.x.map fun _ ha => ha.abs.isFinite).largest
    refine isFinite_restart (fun v hv => isPositive_metricAt hp hk hpos ?_ hs.x hv) hs.x
      hs.separable _ _
    split
    next => exact isPositive_epsilon
    next hlarge => exact isPositive_epsilon.of_not_lt (hk.tolerance.mul hlargest) hlarge
  next => exact hs

theorem isFinite_start (hp : p.IsFinite) (hk : k.IsFinite) (hpos : IsConditioned p k)
    (hinit : ∀ x ∈ init, AllFinite x) : (start p k init).IsFinite p := by
  have hmetric := fun v (hv : v < p.size) => isPositive_plainMetric hp hk hpos hv
  have hfirst : AllFinite (firstIterate p (plainMetric k.conditioning p.quadratic)) :=
    allFinite_separableStep hp (fun v hv => isPositive_one.div (hmetric v hv)) fun v hv =>
      (hmetric v hv).isFinite.neg.mul
        (hp.quadratic.gradientAt (allFinite_constant p.size isFinite_zero) v)
  have hx : AllFinite (init.getD (firstIterate p (plainMetric k.conditioning p.quadratic))) := by
    cases init with
    | none => exact hfirst
    | some x => exact hinit x rfl
  exact isFinite_restart hmetric hx hx _ _

/-- If the data are numbers and the metric is made without divisions by zero, a solution has
numbers. -/
theorem allFinite_solve (hp : p.IsFinite) (hk : k.IsFinite) (hpos : IsConditioned p k)
    (hends : ∀ e < p.edges.size, p.edgeFrom e < p.size ∧ p.edgeTo e < p.size)
    (hinit : ∀ x ∈ init, AllFinite x) : AllFinite (solve p k init).x := by
  have hlast : (iterate p k (shares p) k.maxIterations 0 (start p k init) []).1.IsFinite p :=
    iterate_induction (motive := fun s => s.IsFinite p)
      (fun _ hs => isFinite_step hs hp hends hk.relaxation)
      (fun change _ hs => hs.recondition hp hk hpos change) _ _ _ (isFinite_start hp hk hpos hinit)
  unfold solve
  dsimp only
  split
  next => exact hlast.separable
  next => exact hlast.x

/-! ### Bounds -/

/-- A solution that an iteration was made for, or that starts from no given iterate, respects bounds
with a number between them exactly where it is defined. -/
theorem isWithin_solve_iff (hk : k.maxIterations ≠ 0 ∨ init = none) {v : Nat} (hv : v < p.size)
    (h : IsBox ((p.lowerAt v).getD below) ((p.upperAt v).getD above)) :
    IsWithin (p.lowerAt v) (p.upperAt v) (Vec.entry (solve p k init).x v) ↔
      Vec.entry (solve p k init).x v ≠ undefined := by
  cases hseparable : p.isSeparable with
  | true =>
      obtain ⟨y, hy⟩ := exists_entry_solve_eq hseparable hk hv
      rw [hy]
      exact isWithin_cap_raise_iff h.le y
  | false =>
      -- no bound is a number, so both are infinite
      obtain ⟨hlower, hupper⟩ := isFinite_eq_false_of_not_isSeparable hseparable v
      rw [IsWithin, getD_eq_below hlower h.lower_lt, getD_eq_above hupper h.upper_gt]
      exact ⟨fun hwithin => (ne_undefined_of_le hwithin.1).2,
        fun hne => ⟨below_le hne, le_above hne⟩⟩

/-- Every run answers a point that respects the bounds exactly where its values are defined, if it
makes an iteration or no iterate is given, whatever the parameters are. If the data are numbers and
the metric is made without divisions by zero, all values are numbers, and so the bounds are
respected everywhere: whether or not the metric was computed anew or the evolution fell below the
tolerance. -/
theorem solve?_isWithin_iff
    (hends : ∀ e < p.edges.size, p.edgeFrom e < p.size ∧ p.edgeTo e < p.size)
    (hsize : ∀ x ∈ init, x.size = p.size)
    (hbox : ∀ v < p.size, IsBox ((p.lowerAt v).getD below) ((p.upperAt v).getD above))
    (hk : k.maxIterations ≠ 0 ∨ init = none) :
    ∃ answer, solve? p k init = .ok answer ∧ answer.x.size = p.size ∧
      (∀ v < p.size, IsWithin (p.lowerAt v) (p.upperAt v) (Vec.entry answer.x v) ↔
        Vec.entry answer.x v ≠ undefined) ∧
      (p.IsFinite → k.IsFinite → (∀ x ∈ init, AllFinite x) → IsConditioned p k →
        ∀ v < p.size, (Vec.entry answer.x v).IsFinite ∧
          IsWithin (p.lowerAt v) (p.upperAt v) (Vec.entry answer.x v)) := by
  have hwithin := fun v (hv : v < p.size) => isWithin_solve_iff hk hv (hbox v hv)
  refine ⟨_, solve?_eq_of_size k hends hsize, size_solve hsize, hwithin, ?_⟩
  intro hp hfinite hinit hpos v hv
  have hnumber := allFinite_solve hp hfinite hpos hends hinit v
  exact ⟨hnumber, (hwithin v hv).mpr hnumber.ne_undefined⟩

theorem allFinite_pair (a b : K) : AllFinite #[finite a, finite b] := by
  refine allFinite_of_lt fun i hi => ?_
  have hi' : i < 2 := hi
  interval_cases i
  · exact ⟨a, rfl⟩
  · exact ⟨b, rfl⟩

/-- Bounds that hold the ends of an edge apart, and a term that is flat along the second. -/
def heldApart : Problem (Extended ℚ) :=
  ⟨.diagonal #[finite 1, finite 0] none, #[(0, 1)], #[finite 4], none, #[finite 0, finite 0],
    #[some (finite 1), none], #[none, some (finite 0)]⟩

/-- The metric is computed anew twice. -/
def renewedTwice : Parameters (Extended ℚ) :=
  ⟨finite 1, finite (1 / 1000), finite 10, finite (1 / 100), 2, false⟩

/-- The iterate leaves the bounds, the answer does not. -/
theorem solve?_isWithin_iff_heldApart :
    Vec.entry (iterate heldApart renewedTwice (shares heldApart) 2 0
        (start heldApart renewedTwice none) []).1.x 0 < finite 1 ∧
      IsConditioned heldApart renewedTwice ∧
      ∃ answer, solve? heldApart renewedTwice none = .ok answer ∧ ∀ v < 2,
        (Vec.entry answer.x v).IsFinite ∧
          IsWithin (heldApart.lowerAt v) (heldApart.upperAt v) (Vec.entry answer.x v) := by
  have hconditioned : IsConditioned heldApart renewedTwice := .inl (by decide +kernel)
  have hnumber (a : ℚ) : (finite a).IsFinite := ⟨a, rfl⟩
  have hfinite : heldApart.IsFinite := {
    quadratic := ⟨allFinite_pair 1 0, nofun⟩
    edgeWeights := by
      refine allFinite_of_lt fun i hi => ?_
      have hi' : i < 1 := hi
      interval_cases i
      exact hnumber 4
    targetWeights := nofun
    targets := allFinite_pair 0 0
    lower := by
      rintro (- | - | v) l hl <;> cases hl
      exact hnumber 1
    upper := by
      rintro (- | - | v) u hu <;> cases hu
      exact hnumber 0 }
  have hnone : ∀ x ∈ (none : Option (Vec (Extended ℚ))), x.size = heldApart.size := nofun
  obtain ⟨answer, hanswer, -, -, hwithin⟩ :=
    solve?_isWithin_iff (p := heldApart) (k := renewedTwice) (by decide +kernel) hnone
      (fun v hv => by
        have hv' : v < 2 := hv
        interval_cases v
        · exact ⟨trivial, ⟨trivial, id⟩, ⟨trivial, id⟩⟩
        · exact ⟨trivial, ⟨trivial, id⟩, ⟨trivial, id⟩⟩) (.inr rfl)
  exact ⟨by decide +kernel, hconditioned, answer, hanswer,
    hwithin hfinite ⟨hnumber _, hnumber _, hnumber _⟩ nofun hconditioned⟩

/-- Two observed values between zero and one, of which the second has no curvature. -/
def flatSecond : Problem (Extended ℚ) :=
  ⟨.diagonal #[finite 1, finite 0] (some #[finite 1, finite 0]), #[], #[], none,
    #[finite 0, finite 0], #[some (finite 0), some (finite 0)], #[some (finite 1), some (finite 1)]⟩

/-- One iteration in which curvatures of zero are inverted as they are. -/
def unconditioned : Parameters (Extended ℚ) :=
  ⟨finite 1, finite 0, finite 0, finite (1 / 10000), 1, false⟩

/-- A metric that divides by zero leaves a value undefined, which respects no bounds. -/
theorem not_isWithin_flatSecond :
    flatSecond.IsFinite ∧ unconditioned.IsFinite ∧
      (∀ v < 2, IsBox ((flatSecond.lowerAt v).getD below) ((flatSecond.upperAt v).getD above)) ∧
      unconditioned.maxIterations = 1 ∧
      ∃ answer, solve? flatSecond unconditioned none = .ok answer ∧
        answer.x = #[finite 1, undefined] ∧
        ¬IsWithin (flatSecond.lowerAt 1) (flatSecond.upperAt 1) (Vec.entry answer.x 1) := by
  have hnumber (a : ℚ) : (finite a).IsFinite := ⟨a, rfl⟩
  have hanswer : solve? flatSecond unconditioned none = .ok ⟨#[finite 1, undefined], 1, []⟩ := by
    with_unfolding_all rfl
  refine ⟨?_, ⟨hnumber _, hnumber _, hnumber _⟩, fun v hv => ?_, rfl, _, hanswer, rfl,
    fun hwithin => (ne_undefined_of_le hwithin.1).2 rfl⟩
  · refine ⟨⟨allFinite_pair 1 0, ?_⟩, fun i => hnumber 0, nofun, allFinite_pair 0 0, ?_, ?_⟩
    · rintro l ⟨⟩
      exact allFinite_pair 1 0
    · rintro (- | - | v) l hl <;> cases hl <;> exact hnumber 0
    · rintro (- | - | v) u hu <;> cases hu <;> exact hnumber 1
  · interval_cases v
    · exact ⟨(finite_le 0 1).mpr zero_le_one, ⟨trivial, id⟩, ⟨trivial, id⟩⟩
    · exact ⟨(finite_le 0 1).mpr zero_le_one, ⟨trivial, id⟩, ⟨trivial, id⟩⟩

end Splitting

end TotalVariation
