import Mathlib
import TotalVariation.Problem.Evaluate
import TotalVariation.Proofs.Failure
import TotalVariation.Proofs.Numeric.Division
import TotalVariation.Proofs.Numeric.Renaming
import TotalVariation.Proofs.Problem.Spreading
import TotalVariation.Proofs.Quadratic.Majorant

/-! # The metric of the splitting

The metric inverts a curvature that is at least the majorant of the quadratic term, after small
curvatures are raised to a share of the largest. So it is positive, its inverse majorises the
Hessian, and its largest entry is at most one over the share times its smallest. No step of this
divides by zero.
-/

namespace TotalVariation

namespace Splitting

variable {K : Type} [ExactField K] {conditioning tolerance : K}

/-! ## Inverting a curvature -/

theorem entry_invertCurvature {α : Type} [Scalar α] (conditioning : α) {curvature : Vec α} {v : Nat}
    (hv : v < curvature.size) : Vec.entry (invertCurvature conditioning curvature) v =
      if (Vec.largest? curvature).getD 0 ≤ 0 then 1
      else 1 / Scalar.max (Vec.entry curvature v)
        (conditioning * (Vec.largest? curvature).getD 0) := by
  unfold invertCurvature
  dsimp only
  split
  next => rw [Vec.entry_constant, if_pos hv]
  next => rw [Vec.entry_map_of_lt _ hv]

/-- The metric divides by numbers between the curvature and its largest entry, none of which is
below the share of that; a curvature without positive entries counts as one. -/
theorem exists_divisors (hone : conditioning ≤ 1) (curvature : Vec K) :
    ∃ top : K, 0 < top ∧ ∀ v < curvature.size, ∃ d,
      Vec.entry (invertCurvature conditioning curvature) v = 1 / d ∧
        Vec.entry curvature v ≤ d ∧ conditioning * top ≤ d ∧ d ≤ top := by
  have hlargest : ∀ v < curvature.size,
      Vec.entry curvature v ≤ (Vec.largest? curvature).getD 0 := by
    intro v hv
    have hmem : Vec.entry curvature v ∈ curvature.toList := by simp [Vec.entry, hv]
    cases htop : Vec.largest? curvature with
    | none =>
        unfold Vec.largest? at htop
        split at htop
        next hempty => omega
        next => cases htop
    | some top => exact (Vec.largest?_eq_some.mp htop).2 _ hmem
  have hentry := fun v (hv : v < curvature.size) => entry_invertCurvature conditioning hv
  generalize (Vec.largest? curvature).getD 0 = largest at hlargest hentry
  rcases le_or_gt largest 0 with hflat | htop
  · refine ⟨1, one_pos, fun v hv => ⟨1, ?_, ?_, ?_, le_rfl⟩⟩
    · rw [hentry v hv, if_pos hflat, one_div_one]
    · exact (hlargest v hv).trans (hflat.trans zero_le_one)
    · rwa [mul_one]
  · refine ⟨largest, htop, fun v hv => ?_⟩
    have hshare : conditioning * largest ≤ largest := mul_le_of_le_one_left htop.le hone
    refine ⟨max (Vec.entry curvature v) (conditioning * largest), ?_, le_max_left _ _,
      le_max_right _ _, max_le (hlargest v hv) hshare⟩
    rw [hentry v hv, if_neg htop.not_ge, Scalar.max_eq]

theorem size_invertCurvature {α : Type} [Scalar α] (conditioning : α) (curvature : Vec α) :
    (invertCurvature conditioning curvature).size = curvature.size := by
  unfold invertCurvature
  dsimp only
  split
  · exact Array.size_replicate
  · exact Array.size_map

theorem invertCurvature_dividing (hpos : 0 < conditioning) (atZero : K → K) (curvature : Vec K) :
    @invertCurvature K (.dividing atZero) conditioning curvature =
      invertCurvature conditioning curvature := by
  by_cases hflat : (Vec.largest? curvature).getD 0 ≤ 0
  · exact (if_pos hflat).trans (if_pos hflat).symm
  · refine (if_neg hflat).trans (Eq.trans ?_ (if_neg hflat).symm)
    refine congrArg (curvature.map ·) (funext fun c => Scalar.dividing_div atZero 1 ?_)
    change Scalar.max c (conditioning * (Vec.largest? curvature).getD 0) ≠ 0
    rw [Scalar.max_eq]
    exact (lt_max_of_lt_right (mul_pos hpos (not_le.mp hflat))).ne'

/-! ## The curvature at a point -/

section Point

variable {α : Type} [Scalar α]

/-- The majorant of a quadratic term with the curvature of the variation at a point. -/
def curvatureAt (tolerance : α) (q : Quadratic α) (edges : Array (Nat × Nat)) (weights x : Vec α) :
    Vec α :=
  let ends (e : Nat) : Nat × Nat := edges.getD e (0, 0)
  let curvature : Vec α := Vec.tabulate edges.size fun e =>
    edgeCurvature tolerance (Vec.entry weights e) (Vec.entry x (ends e).1) (Vec.entry x (ends e).2)
  let spread (place : Nat → Nat) : Vec α :=
    Vec.scatter q.majorant.size edges.size place (Vec.entry curvature)
  Vec.tabulate q.majorant.size fun i => Vec.entry q.majorant i +
    Vec.entry (spread fun e => (ends e).1) i + Vec.entry (spread fun e => (ends e).2) i

theorem metricAt_eq (conditioning tolerance : α) (q : Quadratic α) (edges : Array (Nat × Nat))
    (weights x : Vec α) : metricAt conditioning tolerance q edges weights x =
      invertCurvature conditioning (curvatureAt tolerance q edges weights x) := rfl

theorem size_curvatureAt (tolerance : α) (q : Quadratic α) (edges : Array (Nat × Nat))
    (weights x : Vec α) : (curvatureAt tolerance q edges weights x).size = q.size :=
  (Vec.size_tabulate _ _).trans q.size_majorant

/-- The variation adds to the majorant two sums of curvatures of edges. -/
theorem exists_entry_curvatureAt {P : α → Prop} (hzero : P 0)
    (hadd : ∀ a b, P a → P b → P (a + b)) {tolerance : α} (q : Quadratic α)
    {edges : Array (Nat × Nat)} {weights x : Vec α}
    (hcurvature : ∀ e < edges.size, P (edgeCurvature tolerance (Vec.entry weights e)
      (Vec.entry x (edges.getD e (0, 0)).1) (Vec.entry x (edges.getD e (0, 0)).2)))
    {i : Nat} (hi : i < q.size) :
    ∃ a b, P a ∧ P b ∧ Vec.entry (curvatureAt tolerance q edges weights x) i =
      Vec.entry q.majorant i + a + b := by
  have hedge : ∀ e < edges.size, P (Vec.entry (Vec.tabulate edges.size fun e =>
      edgeCurvature tolerance (Vec.entry weights e) (Vec.entry x (edges.getD e (0, 0)).1)
        (Vec.entry x (edges.getD e (0, 0)).2)) e) := by
    intro e he
    rw [Vec.entry_tabulate, if_pos he]
    exact hcurvature e he
  have hplaced (place : Nat → Nat) :=
    Vec.entry_scatter_of_closed hzero hadd (n := q.majorant.size) place hedge i
  refine ⟨_, _, hplaced fun e => (edges.getD e (0, 0)).1,
    hplaced fun e => (edges.getD e (0, 0)).2, ?_⟩
  rw [curvatureAt, Vec.entry_tabulate, if_pos (q.size_majorant.symm ▸ hi)]

end Point

theorem edgeCurvature_nonneg (tolerance : K) {weight : K} (hweight : 0 ≤ weight) (a b : K) :
    0 ≤ edgeCurvature tolerance weight a b := by
  rw [edgeCurvature, Scalar.max_eq, Scalar.abs_eq]
  exact div_nonneg hweight ((abs_nonneg _).trans (le_max_left _ _))

theorem edgeCurvature_dividing (hpos : 0 < tolerance) (atZero : K → K) (weight a b : K) :
    @edgeCurvature K (.dividing atZero) tolerance weight a b = edgeCurvature tolerance weight a b := by
  refine Scalar.dividing_div atZero weight ?_
  change Scalar.max (Scalar.abs (a - b)) tolerance ≠ 0
  rw [Scalar.max_eq]
  exact (lt_max_of_lt_right hpos).ne'

theorem majorant_dividing (atZero : K → K) (q : Quadratic K) :
    @Quadratic.majorant K (.dividing atZero) q = q.majorant := by
  cases q <;> rfl

theorem curvatureAt_dividing (hpos : 0 < tolerance) (atZero : K → K) (q : Quadratic K)
    (edges : Array (Nat × Nat)) (weights x : Vec K) :
    @curvatureAt K (.dividing atZero) tolerance q edges weights x =
      curvatureAt tolerance q edges weights x := by
  unfold curvatureAt
  simp only [edgeCurvature_dividing hpos, majorant_dividing]
  rfl

theorem plainMetric_dividing (hpos : 0 < conditioning) (atZero : K → K) (q : Quadratic K) :
    @plainMetric K (.dividing atZero) conditioning q = plainMetric conditioning q := by
  change @invertCurvature K (.dividing atZero) conditioning (@Quadratic.majorant K (.dividing atZero) q) = _
  rw [majorant_dividing, invertCurvature_dividing hpos, plainMetric]

theorem metricAt_dividing (hpos : 0 < conditioning) (htolerance : 0 < tolerance) (atZero : K → K)
    (q : Quadratic K) (edges : Array (Nat × Nat)) (weights x : Vec K) :
    @metricAt K (.dividing atZero) conditioning tolerance q edges weights x =
      metricAt conditioning tolerance q edges weights x := by
  change @invertCurvature K (.dividing atZero) conditioning
    (@curvatureAt K (.dividing atZero) tolerance q edges weights x) = _
  rw [curvatureAt_dividing htolerance, invertCurvature_dividing hpos, metricAt_eq]

/-- The curvature of the variation only adds to the majorant. -/
theorem majorant_le_curvatureAt (tolerance : K) {q : Quadratic K} {edges : Array (Nat × Nat)}
    {weights : Vec K} (hweights : ∀ e < edges.size, 0 ≤ Vec.entry weights e) (x : Vec K) {i : Nat}
    (hi : i < q.size) :
    Vec.entry q.majorant i ≤ Vec.entry (curvatureAt tolerance q edges weights x) i := by
  obtain ⟨a, b, ha, hb, hentry⟩ := exists_entry_curvatureAt (P := fun a : K => 0 ≤ a) le_rfl
    (fun _ _ => add_nonneg) q (x := x)
    (fun e he => edgeCurvature_nonneg tolerance (hweights e he) _ _) hi
  rw [hentry]
  exact le_add_of_le_of_nonneg (le_add_of_nonneg_right ha) hb

end Splitting

namespace ProblemData

open TotalVariation.Splitting

section Reading

variable {α : Type} [Scalar α]

/-- The ends of edges that name variables, none of them counted from the end. -/
def plainEnds (edges : Array (Int × Int)) : Array (Nat × Nat) :=
  edges.map fun e => (e.1.toNat, e.2.toNat)

/-- Both ends of every edge are indices below `n`. -/
def EndsBelow (n : Nat) (edges : Array (Int × Int)) : Prop :=
  ∀ e ∈ edges, (0 ≤ e.1 ∧ e.1 < n) ∧ 0 ≤ e.2 ∧ e.2 < n

omit [Scalar α] in
theorem endsIn?_eq_ok {x : Vec α} {edges : Array (Int × Int)} (h : EndsBelow x.size edges) :
    endsIn? x edges = .ok (plainEnds edges) := by
  have hposition : ∀ i : Int, 0 ≤ i ∧ i < x.size → position? x.size i = some i.toNat :=
    fun i hi => by rw [position?, if_pos hi.1, if_pos hi.2]
  refine array_mapM_map_eq_ok fun e he => ?_
  rw [hposition _ (h e he).1, hposition _ (h e he).2]
  rfl

/-- The metric of the quadratic term alone, where a point or edges are missing. -/
theorem metric?_eq_plain {q : Quadratic α} {x : Option (Vec α)} {edges : Option (Array (Int × Int))}
    {weights : Option (Tensor α)} (conditioning tolerance : α)
    (hplain : ∀ point ∈ x, ∀ list ∈ edges, list = #[]) :
    metric? q conditioning tolerance x edges weights = .ok (plainMetric conditioning q) := by
  cases x with
  | none => rfl
  | some point =>
      cases edges with
      | none => rfl
      | some list =>
          obtain rfl := hplain point rfl list rfl
          rfl

/-- The metric at a point, where the edges, their weights and the point fit. -/
theorem metric?_eq_ok {q : Quadratic α} {x : Vec α} {edges : Array (Int × Int)}
    {weights : Tensor α} (conditioning tolerance : α) (hedges : edges ≠ #[])
    (hx : x.size = q.size) (hends : EndsBelow q.size edges)
    (hweights : weights.entries.size = edges.size ∨ weights.entries.size = 1) :
    metric? q conditioning tolerance (some x) (some edges) (some weights) =
      .ok (metricAt conditioning tolerance q (plainEnds edges)
        (stretch edges.size weights.entries) x) := by
  have hcommon : commonLength? edges.size weights.entries.size = some edges.size := by
    unfold commonLength?
    rcases hweights with hsize | hsize <;> grind
  have hbelow : ¬edges.any fun e =>
      e.1 < 0 ∨ e.2 < 0 ∨ (q.size : Int) ≤ e.1 ∨ (q.size : Int) ≤ e.2 := by
    simp only [Array.any_eq_true', decide_eq_true_eq, not_exists, not_and]
    intro e he
    have hends := hends e he
    omega
  unfold metric?
  simp only [endsIn?_eq_ok (hx ▸ hends), hcommon, Array.isEmpty_iff, hedges, if_false, hbelow,
    ne_eq, not_true]
  rfl

end Reading

variable {K : Type} [ExactField K] {q : Quadratic K} {conditioning tolerance : K}
  {x : Option (Vec K)} {edges : Option (Array (Int × Int))} {weights : Option (Tensor K)}

/-- If there are a point and edges, the point has `n` values, the edges are between variables and
their weights, of which one may stand for all, are not negative; the tolerance is positive. -/
def HasVariation (n : Nat) (tolerance : K) (x : Option (Vec K))
    (edges : Option (Array (Int × Int))) (weights : Option (Tensor K)) : Prop :=
  ∀ point ∈ x, ∀ list ∈ edges, list ≠ #[] → 0 < tolerance ∧ point.size = n ∧ EndsBelow n list ∧
    ∃ w ∈ weights, Proximal.IsSpread list.size w ∧ ∀ a ∈ w.entries, 0 ≤ a

/-- The metric inverts one curvature, at least the majorant, whatever divisions by zero give. -/
theorem exists_curvature (hconditioning : 0 < conditioning)
    (hvariation : HasVariation q.size tolerance x edges weights) :
    ∃ curvature : Vec K, curvature.size = q.size ∧
      (∀ v < q.size, Vec.entry q.majorant v ≤ Vec.entry curvature v) ∧
      ∀ atZero, @metric? K (.dividing atZero) q conditioning tolerance x edges weights =
        .ok (invertCurvature conditioning curvature) := by
  by_cases hplain : ∀ point ∈ x, ∀ list ∈ edges, list = #[]
  · refine ⟨q.majorant, q.size_majorant, fun _ _ => le_rfl, fun atZero => ?_⟩
    exact (@metric?_eq_plain K (.dividing atZero) q x edges weights conditioning tolerance
      hplain).trans (congrArg Except.ok (plainMetric_dividing hconditioning atZero q))
  · push Not at hplain
    obtain ⟨point, hpoint, list, hlist, hne⟩ := hplain
    obtain ⟨htolerance, hsize, hends, w, hw, hspread, hnonneg⟩ :=
      hvariation point hpoint list hlist hne
    obtain rfl := Option.mem_def.mp hpoint
    obtain rfl := Option.mem_def.mp hlist
    obtain rfl := Option.mem_def.mp hw
    refine ⟨curvatureAt tolerance q (plainEnds list) (stretch list.size w.entries) point,
      size_curvatureAt _ _ _ _ _, fun v hv => ?_, fun atZero => ?_⟩
    · refine majorant_le_curvatureAt tolerance (fun e he => ?_) point hv
      rw [plainEnds, Array.size_map] at he
      exact hnonneg _ (hspread.placed_mem he)
    · exact (@metric?_eq_ok K (.dividing atZero) q point list w conditioning tolerance hne hsize
        hends hspread.size_eq).trans (congrArg Except.ok
          (metricAt_dividing hconditioning htolerance atZero q _ _ _))

/-- The metric of the splitting is computed without divisions by zero. It is positive, its inverse
is at least the Hessian along every direction, and its largest entry is at most one over the
conditioning times its smallest. -/
theorem metric?_dominates (hsquare : q.IsSquare) (hsymmetric : q.IsSymmetric)
    (hpos : 0 < conditioning) (hone : conditioning ≤ 1)
    (hvariation : HasVariation q.size tolerance x edges weights) :
    ∃ metric : Vec K, metric? q conditioning tolerance x edges weights = .ok metric ∧
      (∀ atZero, @metric? K (.dividing atZero) q conditioning tolerance x edges weights =
        .ok metric) ∧
      metric.size = q.size ∧ (∀ v < q.size, 0 < Vec.entry metric v) ∧
      (∀ z : Nat → K, q.form z z ≤ ∑ v ∈ Finset.range q.size, z v ^ 2 / Vec.entry metric v) ∧
      ∀ u < q.size, ∀ v < q.size,
        Vec.entry metric u ≤ 1 / conditioning * Vec.entry metric v := by
  obtain ⟨curvature, hsize, hmajorant, hmetric⟩ := exists_curvature hpos hvariation
  obtain ⟨top, htop, hdivisors⟩ := exists_divisors hone curvature
  rw [hsize] at hdivisors
  have hleast : 0 < conditioning * top := mul_pos hpos htop
  refine ⟨invertCurvature conditioning curvature, ?_, hmetric,
    (size_invertCurvature _ _).trans hsize, fun v hv => ?_, fun z => ?_, fun u hu v hv => ?_⟩
  · have hfield := hmetric fun _ => 0
    rwa [Scalar.dividing_zero] at hfield
  · obtain ⟨d, hd, -, hshare, -⟩ := hdivisors v hv
    rw [hd]
    exact one_div_pos.mpr (hleast.trans_le hshare)
  · refine (hsquare.form_le_majorant hsymmetric z).trans (Finset.sum_le_sum fun v hv => ?_)
    rw [Finset.mem_range] at hv
    obtain ⟨d, hd, hcurvature, -, -⟩ := hdivisors v hv
    calc Vec.entry q.majorant v * z v ^ 2 ≤ d * z v ^ 2 :=
          mul_le_mul_of_nonneg_right ((hmajorant v hv).trans hcurvature) (sq_nonneg _)
      _ = z v ^ 2 / Vec.entry (invertCurvature conditioning curvature) v := by
          rw [hd, div_div_eq_mul_div, div_one, mul_comm]
  · obtain ⟨d, hd, -, hshare, -⟩ := hdivisors u hu
    obtain ⟨d', hd', -, hshare', hd'top⟩ := hdivisors v hv
    have hpositive : 0 < d' := hleast.trans_le hshare'
    rw [hd, hd', one_div_mul_one_div]
    exact one_div_le_one_div_of_le (mul_pos hpos hpositive)
      ((mul_le_mul_of_nonneg_left hd'top hpos.le).trans hshare)

/-- A design that does not read its last variable. -/
def twoOfThree : Quadratic ℚ := .direct ⟨2, 3, #[#[1, -2, 0], #[3, 1, 0]]⟩ #[1, 1]

theorem metric?_dominates_twoOfThree :
    HasVariation 3 (1 / 10 : ℚ) (some #[4, 4, 1]) (some #[(0, 1), (1, 2)])
        (some (.ofScalar (1 / 2))) ∧
      ∃ metric : Vec ℚ, metric? twoOfThree (1 / 1000) (1 / 10) (some #[4, 4, 1])
          (some #[(0, 1), (1, 2)]) (some (.ofScalar (1 / 2))) = .ok metric ∧
        (∀ atZero, @metric? ℚ (.dividing atZero) twoOfThree (1 / 1000) (1 / 10) (some #[4, 4, 1])
          (some #[(0, 1), (1, 2)]) (some (.ofScalar (1 / 2))) = .ok metric) ∧
        metric.size = 3 ∧ (∀ v < 3, 0 < Vec.entry metric v) ∧
        (∀ z : Nat → ℚ, twoOfThree.form z z ≤
          ∑ v ∈ Finset.range 3, z v ^ 2 / Vec.entry metric v) ∧
        ∀ u < 3, ∀ v < 3, Vec.entry metric u ≤ 1 / (1 / 1000) * Vec.entry metric v := by
  have hvariation : HasVariation 3 (1 / 10 : ℚ) (some #[4, 4, 1]) (some #[(0, 1), (1, 2)])
      (some (.ofScalar (1 / 2))) := by
    rintro _ ⟨⟩ _ ⟨⟩ -
    refine ⟨by norm_num, rfl, ?_, _, rfl, .number rfl rfl, ?_⟩
    · change ∀ e ∈ #[((0 : Int), (1 : Int)), (1, 2)], _
      decide +kernel
    · decide +kernel
  exact ⟨hvariation, metric?_dominates trivial trivial (by norm_num) (by norm_num) hvariation⟩

end ProblemData
end TotalVariation
