import Mathlib
import TotalVariation.Proofs.Quadratic.Expansion

/-! # Majorants of quadratic terms

The majorant of a quadratic term bounds the row sums of the absolute Hessian, also for a direct
term, whose Hessian is never formed. A symmetric table is below the diagonal of its absolute row
sums, and so the Hessian is below the majorant along every direction, whatever the signs of its
entries.
-/

namespace TotalVariation.Quadratic

variable {K : Type} [ExactField K] {q : Quadratic K} {n : Nat}

theorem size_majorant {α : Type} [Scalar α] (q : Quadratic α) : q.majorant.size = q.size := by
  cases q with
  | none n => exact Array.size_replicate
  | identity n a y => exact Array.size_replicate
  | diagonal d y => exact Array.size_map
  | gram H y => exact Vec.size_tabulate _ _
  | direct A y => exact Vec.size_tabulate _ _

/-- The table of a Gram term has as many columns as rows. -/
def IsSquare (q : Quadratic K) : Prop :=
  match q with
  | .gram H _ => H.cols = H.rows
  | _ => True

omit [ExactField K] in
theorem Fits.isSquare (h : q.Fits n) : q.IsSquare := by
  cases q with
  | gram H y => exact h.2.1.trans h.1.symm
  | none | identity | diagonal | direct => exact trivial

theorem entry_hessian_none (m i j : Nat) : (none m : Quadratic K).hessian.entry i j = 0 := by
  rw [hessian, DenseMatrix.entry_ofFn]
  split
  · split <;> rfl
  · rfl

theorem entry_hessian_identity {m : Nat} (a : K) (y : Option (Vec K)) {i j : Nat} (hi : i < m)
    (hj : j < m) : (identity m a y).hessian.entry i j = if i = j then a else 0 := by
  rw [hessian, DenseMatrix.entry_ofFn, if_pos hi, if_pos hj]

theorem entry_hessian_diagonal (d : Vec K) (y : Option (Vec K)) {i j : Nat} (hi : i < d.size)
    (hj : j < d.size) :
    (diagonal d y).hessian.entry i j = if i = j then Vec.entry d i else 0 := by
  rw [hessian, DenseMatrix.entry_ofFn, if_pos hi, if_pos hj]

/-- A row with one entry on the diagonal adds up to that. -/
theorem sum_abs_row {i : Nat} (hi : i < n) {row : Nat → K} {a : K}
    (hrow : ∀ j < n, row j = if i = j then a else 0) : ∑ j ∈ Finset.range n, |row j| = |a| := by
  have habs : ∀ j ∈ Finset.range n, |row j| = if i = j then |a| else 0 := fun j hj => by
    rw [hrow j (Finset.mem_range.mp hj), apply_ite abs, abs_zero]
  rw [Finset.sum_congr rfl habs, Finset.sum_ite_eq, if_pos (Finset.mem_range.mpr hi)]

/-- The majorant of a term that is not direct is made of the row sums of the absolute Hessian. -/
theorem IsSquare.entry_majorant (h : q.IsSquare) (hdirect : q.isDirect = false) {i : Nat}
    (hi : i < q.size) :
    Vec.entry q.majorant i = ∑ j ∈ Finset.range q.size, |q.hessian.entry i j| := by
  cases q with
  | none m =>
      rw [majorant, Vec.entry_constant, ite_self, Finset.sum_eq_zero]
      intro j _
      rw [entry_hessian_none, abs_zero]
  | identity m a y =>
      change i < m at hi
      rw [size, sum_abs_row hi fun j hj => entry_hessian_identity a y hi hj, majorant,
        Vec.entry_constant, if_pos hi, Scalar.abs_eq]
  | diagonal d y =>
      have hzero : Scalar.abs (0 : K) = 0 := by rw [Scalar.abs_eq, abs_zero]
      change i < d.size at hi
      rw [size, sum_abs_row hi fun j hj => entry_hessian_diagonal d y hi hj, majorant,
        Vec.entry_map hzero, Scalar.abs_eq]
  | gram H y =>
      change i < H.rows at hi
      change H.cols = H.rows at h
      rw [size, majorant, Vec.entry_tabulate, if_pos hi, Vec.total_eq, h]
      exact Finset.sum_congr rfl fun j _ => Scalar.abs_eq _
  | direct A y => cases hdirect

/-- The row sums of the absolute Hessian are at most the majorant. -/
theorem IsSquare.sum_abs_hessian_le_majorant (h : q.IsSquare) {i : Nat} (hi : i < q.size) :
    ∑ j ∈ Finset.range q.size, |q.hessian.entry i j| ≤ Vec.entry q.majorant i := by
  cases q with
  | none | identity | diagonal | gram => exact (h.entry_majorant rfl hi).ge
  | direct A y =>
      change i < A.cols at hi
      have hentry : ∀ j ∈ Finset.range A.cols, |(direct A y).hessian.entry i j| ≤
          ∑ k ∈ Finset.range A.rows, |A.entry k i| * |A.entry k j| := fun j hj => by
        rw [hessian, A.entry_columnProducts hi (Finset.mem_range.mp hj)]
        simp only [← abs_mul]
        exact Finset.abs_sum_le_sum_abs _ _
      calc ∑ j ∈ Finset.range A.cols, |(direct A y).hessian.entry i j|
          ≤ ∑ j ∈ Finset.range A.cols, ∑ k ∈ Finset.range A.rows, |A.entry k i| * |A.entry k j| :=
            Finset.sum_le_sum hentry
        _ = ∑ k ∈ Finset.range A.rows, |A.entry k i| * ∑ j ∈ Finset.range A.cols, |A.entry k j| := by
            rw [Finset.sum_comm]
            exact Finset.sum_congr rfl fun k _ => (Finset.mul_sum _ _ _).symm
        _ = Vec.entry (direct A y).majorant i := by
            rw [majorant, Vec.entry_tabulate, if_pos hi, Vec.total_eq]
            apply Finset.sum_congr rfl
            intro k hk
            rw [Vec.entry_tabulate, if_pos (Finset.mem_range.mp hk), Vec.total_eq]
            simp only [Scalar.abs_eq]

/-- The majorant is at least the diagonal of the Hessian. -/
theorem IsSquare.hessian_le_majorant (h : q.IsSquare) {i : Nat} (hi : i < q.size) :
    q.hessian.entry i i ≤ Vec.entry q.majorant i :=
  calc q.hessian.entry i i ≤ |q.hessian.entry i i| := le_abs_self _
    _ ≤ ∑ j ∈ Finset.range q.size, |q.hessian.entry i j| :=
        Finset.single_le_sum (fun j _ => abs_nonneg (q.hessian.entry i j)) (Finset.mem_range.mpr hi)
    _ ≤ Vec.entry q.majorant i := h.sum_abs_hessian_le_majorant hi

/-- A symmetric Hessian is below the diagonal of its absolute row sums. -/
theorem IsSymmetric.form_le (h : q.IsSymmetric) (d : Nat → K) :
    q.form d d ≤ ∑ i ∈ Finset.range q.size,
      (∑ j ∈ Finset.range q.size, |q.hessian.entry i j|) * d i ^ 2 := by
  -- a product of two values is at most the mean of their squares, one for its row, one for its column
  have hmean : ∀ i j, q.hessian.entry i j * (d i * d j) ≤
      |q.hessian.entry i j| * d i ^ 2 / 2 + |q.hessian.entry i j| * d j ^ 2 / 2 := by
    intro i j
    have hproduct : |d i * d j| ≤ (d i ^ 2 + d j ^ 2) / 2 := by
      rw [abs_mul, ← sq_abs (d i), ← sq_abs (d j)]
      linarith [two_mul_le_add_sq |d i| |d j|]
    calc q.hessian.entry i j * (d i * d j) ≤ |q.hessian.entry i j| * |d i * d j| := by
          rw [← abs_mul]
          exact le_abs_self _
      _ ≤ |q.hessian.entry i j| * ((d i ^ 2 + d j ^ 2) / 2) :=
          mul_le_mul_of_nonneg_left hproduct (abs_nonneg _)
      _ = _ := by ring
  have hcolumns : ∑ i ∈ Finset.range q.size, ∑ j ∈ Finset.range q.size,
        |q.hessian.entry i j| * d j ^ 2 / 2 =
      ∑ i ∈ Finset.range q.size, ∑ j ∈ Finset.range q.size, |q.hessian.entry i j| * d i ^ 2 / 2 := by
    rw [Finset.sum_comm]
    refine Finset.sum_congr rfl fun i hi => Finset.sum_congr rfl fun j hj => ?_
    rw [h.hessian_symm (Finset.mem_range.mp hj) (Finset.mem_range.mp hi)]
  calc q.form d d ≤ ∑ i ∈ Finset.range q.size, ∑ j ∈ Finset.range q.size,
        (|q.hessian.entry i j| * d i ^ 2 / 2 + |q.hessian.entry i j| * d j ^ 2 / 2) :=
        Finset.sum_le_sum fun i _ => Finset.sum_le_sum fun j _ => hmean i j
    _ = ∑ i ∈ Finset.range q.size,
        (∑ j ∈ Finset.range q.size, |q.hessian.entry i j|) * d i ^ 2 := by
        simp only [Finset.sum_add_distrib]
        rw [hcolumns, ← Finset.sum_add_distrib]
        refine Finset.sum_congr rfl fun i _ => ?_
        rw [← Finset.sum_add_distrib, Finset.sum_mul]
        exact Finset.sum_congr rfl fun j _ => add_halves _

/-- Along every direction the Hessian is at most the majorant. -/
theorem IsSquare.form_le_majorant (h : q.IsSquare) (hsymmetric : q.IsSymmetric) (d : Nat → K) :
    q.form d d ≤ ∑ i ∈ Finset.range q.size, Vec.entry q.majorant i * d i ^ 2 :=
  (hsymmetric.form_le d).trans <| Finset.sum_le_sum fun _ hi => mul_le_mul_of_nonneg_right
    (h.sum_abs_hessian_le_majorant (Finset.mem_range.mp hi)) (sq_nonneg _)

end TotalVariation.Quadratic
