import Mathlib
import TotalVariation.Proofs.Numeric.Exact
import TotalVariation.Quadratic.Basic

/-! # Expanding quadratic terms

Every representation of a quadratic term is the same function of its Hessian and its linear part, up
to a constant. A step from a point changes it by the slope along the step and half the curvature.
-/

namespace TotalVariation

variable {K : Type} [ExactField K]

namespace Vec

theorem dot_eq (x y : Vec K) : dot x y = ∑ i ∈ Finset.range x.size, entry x i * entry y i :=
  total_eq _ _

end Vec

namespace DenseMatrix

theorem entry_mulVec (M : DenseMatrix K) (x : Vec K) {i : Nat} (hi : i < M.rows) :
    Vec.entry (M.mulVec x) i = ∑ j ∈ Finset.range M.cols, M.entry i j * Vec.entry x j := by
  rw [mulVec, Vec.entry_tabulate, if_pos hi, Vec.total_eq]

theorem entry_transposeMulVec (M : DenseMatrix K) (x : Vec K) {j : Nat} (hj : j < M.cols) :
    Vec.entry (M.transposeMulVec x) j =
      ∑ i ∈ Finset.range M.rows, M.entry i j * Vec.entry x i := by
  rw [transposeMulVec, Vec.entry_tabulate, if_pos hj, Vec.total_eq]

theorem entry_columnProducts (M : DenseMatrix K) {i j : Nat} (hi : i < M.cols) (hj : j < M.cols) :
    M.columnProducts.entry i j = ∑ k ∈ Finset.range M.rows, M.entry k i * M.entry k j := by
  rw [columnProducts, entry_ofFn, if_pos hi, if_pos hj, Vec.total_eq]

end DenseMatrix

namespace Quadratic

/-- All parts of the term are over so many variables. -/
def Fits (q : Quadratic K) (n : Nat) : Prop :=
  match q with
  | .none m => m = n
  | .identity m _ y => m = n ∧ ∀ l ∈ y, l.size = n
  | .diagonal d y => d.size = n ∧ ∀ l ∈ y, l.size = n
  | .gram H y => H.rows = n ∧ H.cols = n ∧ ∀ l ∈ y, l.size = n
  | .direct A y => A.cols = n ∧ y.size = A.rows

/-- The scale or the diagonal is not negative, the Hessian symmetric and positive semidefinite. -/
def IsConvex (q : Quadratic K) : Prop :=
  match q with
  | .none _ => True
  | .identity _ a _ => 0 ≤ a
  | .diagonal d _ => ∀ i < d.size, 0 ≤ Vec.entry d i
  | .gram H _ =>
    (∀ i < H.rows, ∀ j < H.rows, H.entry i j = H.entry j i) ∧
      ∀ d : Nat → K, 0 ≤ ∑ i ∈ Finset.range H.rows, ∑ j ∈ Finset.range H.rows,
        H.entry i j * (d i * d j)
  | .direct .. => True

/-- The table of a Gram term is symmetric. -/
def IsSymmetric (q : Quadratic K) : Prop :=
  match q with
  | .gram H _ => ∀ i < H.rows, ∀ j < H.rows, H.entry i j = H.entry j i
  | _ => True

theorem IsConvex.isSymmetric {q : Quadratic K} (h : q.IsConvex) : q.IsSymmetric := by
  cases q with
  | gram H y => exact h.1
  | none | identity | diagonal | direct => exact trivial

/-- The Hessian along two directions. -/
def form (q : Quadratic K) (c d : Nat → K) : K :=
  ∑ i ∈ Finset.range q.size, ∑ j ∈ Finset.range q.size, q.hessian.entry i j * (c i * d j)

/-- The linear part along a direction. -/
def linearAlong (q : Quadratic K) (d : Nat → K) : K :=
  ∑ i ∈ Finset.range q.size, Vec.entry q.linear i * d i

/-- The constant that only a direct term keeps. -/
def offset (q : Quadratic K) : K :=
  match q with
  | .direct A y => (∑ k ∈ Finset.range A.rows, Vec.entry y k * Vec.entry y k) / 2
  | _ => 0

variable {q : Quadratic K} {n : Nat}

omit [ExactField K] in
theorem Fits.size_eq (h : q.Fits n) : q.size = n := by
  cases q with
  | none m => exact h
  | identity m a y => exact h.1
  | diagonal d y => exact h.1
  | gram H y => exact h.1
  | direct A y => exact h.1

theorem size_linearPart {y : Option (Vec K)} (h : ∀ l ∈ y, l.size = n) :
    (linearPart n y).size = n := by
  cases y with
  | none => simp [linearPart, Vec.constant]
  | some l => exact h l rfl

theorem form_congr {c c' d d' : Nat → K} (hc : ∀ i < q.size, c i = c' i)
    (hd : ∀ i < q.size, d i = d' i) : q.form c d = q.form c' d' := by
  refine Finset.sum_congr rfl fun i hi => Finset.sum_congr rfl fun j hj => ?_
  rw [hc i (Finset.mem_range.mp hi), hd j (Finset.mem_range.mp hj)]

theorem linearAlong_congr {d d' : Nat → K} (hd : ∀ i < q.size, d i = d' i) :
    q.linearAlong d = q.linearAlong d' := by
  refine Finset.sum_congr rfl fun i hi => ?_
  rw [hd i (Finset.mem_range.mp hi)]

/-- The Hessian along a sum of two directions. -/
theorem form_add (q : Quadratic K) (c d : Nat → K) :
    q.form (c + d) (c + d) = q.form c c + q.form c d + (q.form d c + q.form d d) := by
  simp only [form, ← Finset.sum_add_distrib]
  refine Finset.sum_congr rfl fun i _ => Finset.sum_congr rfl fun j _ => ?_
  rw [Pi.add_apply, Pi.add_apply]
  ring

theorem linearAlong_add (q : Quadratic K) (c d : Nat → K) :
    q.linearAlong (c + d) = q.linearAlong c + q.linearAlong d := by
  rw [linearAlong, linearAlong, linearAlong, ← Finset.sum_add_distrib]
  exact Finset.sum_congr rfl fun i _ => mul_add _ _ _

/-- The Hessian of a diagonal term keeps the products along each variable. -/
theorem form_eq_of_diagonal {w : Nat → K}
    (h : ∀ i < q.size, ∀ j < q.size, q.hessian.entry i j = if i = j then w i else 0)
    (c d : Nat → K) : q.form c d = ∑ i ∈ Finset.range q.size, w i * (c i * d i) := by
  apply Finset.sum_congr rfl
  intro i hi
  have hrow : ∀ j ∈ Finset.range q.size,
      q.hessian.entry i j * (c i * d j) = if i = j then w i * (c i * d i) else 0 := by
    intro j hj
    rw [h i (Finset.mem_range.mp hi) j (Finset.mem_range.mp hj)]
    split
    next heq => rw [heq]
    next => rw [zero_mul]
  rw [Finset.sum_congr rfl hrow, Finset.sum_ite_eq, if_pos hi]

theorem form_none (m : Nat) (c d : Nat → K) : (none m).form c d = 0 :=
  Finset.sum_eq_zero fun i _ => Finset.sum_eq_zero fun j _ => by
    simp [hessian, DenseMatrix.entry_ofFn]

theorem linearAlong_none (m : Nat) (d : Nat → K) : (none m).linearAlong d = 0 :=
  Finset.sum_eq_zero fun i _ => by simp [linear, Vec.entry_constant]

theorem form_identity (m : Nat) (a : K) (y : Option (Vec K)) (c d : Nat → K) :
    (identity m a y).form c d = ∑ i ∈ Finset.range m, a * (c i * d i) := by
  refine form_eq_of_diagonal (q := identity m a y) (w := fun _ => a) ?_ c d
  intro i (hi : i < m) j (hj : j < m)
  rw [hessian, DenseMatrix.entry_ofFn, if_pos hi, if_pos hj]

theorem form_diagonal (w : Vec K) (y : Option (Vec K)) (c d : Nat → K) :
    (diagonal w y).form c d = ∑ i ∈ Finset.range w.size, Vec.entry w i * (c i * d i) := by
  refine form_eq_of_diagonal (q := diagonal w y) (w := Vec.entry w) ?_ c d
  intro i (hi : i < w.size) j (hj : j < w.size)
  rw [hessian, DenseMatrix.entry_ofFn, if_pos hi, if_pos hj]

theorem diagonalValue_eq {d y x : Vec K} (hy : y.size = d.size) :
    diagonalValue d y x = (∑ i ∈ Finset.range d.size,
        Vec.entry d i * (Vec.entry x i * Vec.entry x i)) / 2 -
      ∑ i ∈ Finset.range d.size, Vec.entry y i * Vec.entry x i := by
  rw [diagonalValue, Scalar.half_eq, Vec.total_eq, Vec.dot_eq, hy]

/-- The Hessian of a direct term is that of the squared length of the image. -/
theorem form_direct (A : DenseMatrix K) (y : Vec K) (c d : Nat → K) :
    (direct A y).form c d = ∑ k ∈ Finset.range A.rows,
      (∑ i ∈ Finset.range A.cols, A.entry k i * c i) *
        ∑ j ∈ Finset.range A.cols, A.entry k j * d j := by
  have hentry : ∀ i ∈ Finset.range A.cols, ∀ j ∈ Finset.range A.cols,
      A.columnProducts.entry i j * (c i * d j) =
        ∑ k ∈ Finset.range A.rows, (A.entry k i * c i) * (A.entry k j * d j) := by
    intro i hi j hj
    rw [A.entry_columnProducts (Finset.mem_range.mp hi) (Finset.mem_range.mp hj), Finset.sum_mul]
    exact Finset.sum_congr rfl fun k _ => by ring
  calc (direct A y).form c d
      = ∑ i ∈ Finset.range A.cols, ∑ j ∈ Finset.range A.cols, ∑ k ∈ Finset.range A.rows,
          (A.entry k i * c i) * (A.entry k j * d j) :=
        Finset.sum_congr rfl fun i hi => Finset.sum_congr rfl fun j hj => hentry i hi j hj
    _ = ∑ i ∈ Finset.range A.cols, ∑ k ∈ Finset.range A.rows, ∑ j ∈ Finset.range A.cols,
          (A.entry k i * c i) * (A.entry k j * d j) :=
        Finset.sum_congr rfl fun i _ => Finset.sum_comm
    _ = ∑ k ∈ Finset.range A.rows, ∑ i ∈ Finset.range A.cols, ∑ j ∈ Finset.range A.cols,
          (A.entry k i * c i) * (A.entry k j * d j) := Finset.sum_comm
    _ = _ := Finset.sum_congr rfl fun k _ => (Finset.sum_mul_sum _ _ _ _).symm

/-- The linear part of a direct term is that of the image. -/
theorem linearAlong_direct (A : DenseMatrix K) (y : Vec K) (d : Nat → K) :
    (direct A y).linearAlong d = ∑ k ∈ Finset.range A.rows,
      Vec.entry y k * ∑ i ∈ Finset.range A.cols, A.entry k i * d i := by
  calc (direct A y).linearAlong d
      = ∑ i ∈ Finset.range A.cols, ∑ k ∈ Finset.range A.rows,
          Vec.entry y k * (A.entry k i * d i) := by
        apply Finset.sum_congr rfl
        intro i hi
        rw [linear, A.entry_transposeMulVec y (Finset.mem_range.mp hi), Finset.sum_mul]
        exact Finset.sum_congr rfl fun k _ => by ring
    _ = ∑ k ∈ Finset.range A.rows, ∑ i ∈ Finset.range A.cols,
          Vec.entry y k * (A.entry k i * d i) := Finset.sum_comm
    _ = _ := Finset.sum_congr rfl fun k _ => (Finset.mul_sum _ _ _).symm

/-- The value of a term in one formula for all representations. -/
theorem Fits.valueAt_eq (h : q.Fits n) (x : Vec K) (hx : x.size = n) : q.valueAt x =
    q.form (Vec.entry x) (Vec.entry x) / 2 - q.linearAlong (Vec.entry x) + q.offset := by
  cases q with
  | none m =>
      have hoffset : (none (α := K) m).offset = 0 := rfl
      rw [form_none, linearAlong_none, hoffset, valueAt]
      ring
  | identity m a y =>
      obtain ⟨rfl, hy⟩ := h
      have hsize : (Vec.constant m a).size = m := by simp [Vec.constant]
      have hoffset : (identity m a y).offset = 0 := rfl
      rw [form_identity, valueAt,
        diagonalValue_eq ((size_linearPart hy).trans hsize.symm), hoffset, add_zero, hsize]
      congr 2
      apply Finset.sum_congr rfl
      intro i hi
      have hlt : i < m := Finset.mem_range.mp hi
      rw [Vec.entry_constant, if_pos hlt]
  | diagonal d y =>
      obtain ⟨rfl, hy⟩ := h
      have hoffset : (diagonal d y).offset = 0 := rfl
      rw [form_diagonal, valueAt,
        diagonalValue_eq (size_linearPart hy), hoffset, add_zero]
      rfl
  | gram H y =>
      obtain ⟨rfl, hcols, hy⟩ := h
      have hoffset : (gram H y).offset = 0 := rfl
      rw [valueAt, Vec.dot_eq, Vec.dot_eq, size_linearPart hy, hoffset, add_zero, form,
        Finset.sum_div]
      congr 1
      rw [Array.size_map, hx]
      apply Finset.sum_congr rfl
      intro i hi
      rw [Vec.entry_map (by rw [Scalar.half_eq, zero_div]), Scalar.half_eq,
        H.entry_mulVec x (Finset.mem_range.mp hi), hcols, Finset.mul_sum, Finset.sum_div]
      apply Finset.sum_congr rfl
      intro j _
      rw [hessian]
      ring
  | direct A y =>
      rw [form_direct, linearAlong_direct, valueAt, Vec.dot_eq, offset, Array.size_map, residualOf,
        Vec.size_tabulate, Finset.sum_div, Finset.sum_div, ← Finset.sum_sub_distrib,
        ← Finset.sum_add_distrib]
      apply Finset.sum_congr rfl
      intro k hk
      rw [Vec.entry_map (by rw [Scalar.half_eq, zero_div]), Scalar.half_eq, Vec.entry_tabulate,
        if_pos (Finset.mem_range.mp hk), A.entry_mulVec x (Finset.mem_range.mp hk)]
      ring

/-! ## Constant vectors -/

theorem sum_linearPart {y : Option (Vec K)} (hy : ∀ l ∈ y, l.size = n) :
    Vec.sum (linearPart n y) = ∑ i ∈ Finset.range n, Vec.entry (linearPart n y) i * 1 := by
  rw [Vec.sum, Vec.total_eq, size_linearPart hy]
  exact Finset.sum_congr rfl fun i _ => (mul_one _).symm

/-- The term along constant vectors has its linear part and its Hessian along the vector of ones. -/
theorem Fits.constantPart_eq (h : q.Fits n) :
    q.constantPart.1 = q.linearAlong 1 ∧ q.constantPart.2.1 = q.form 1 1 := by
  cases q with
  | none m => exact ⟨(linearAlong_none m 1).symm, (form_none m 1 1).symm⟩
  | identity m a y =>
      obtain ⟨rfl, hy⟩ := h
      refine ⟨sum_linearPart hy, ?_⟩
      simp [form_identity, constantPart, mul_comm]
  | diagonal d y =>
      obtain ⟨rfl, hy⟩ := h
      refine ⟨sum_linearPart hy, ?_⟩
      simp [form_diagonal, constantPart, Vec.sum, Vec.total_eq]
  | gram H y =>
      obtain ⟨rfl, hcols, hy⟩ := h
      refine ⟨sum_linearPart hy, ?_⟩
      simp [form, constantPart, DenseMatrix.sum, Vec.total_eq, hcols, size, hessian]
  | direct A y =>
      have hcolumn : ∀ k ∈ Finset.range A.rows,
          Vec.entry A.rowSums k = ∑ i ∈ Finset.range A.cols, A.entry k i * (1 : Nat → K) i := by
        intro k hk
        rw [DenseMatrix.rowSums, Vec.entry_tabulate, if_pos (Finset.mem_range.mp hk), Vec.total_eq]
        exact Finset.sum_congr rfl fun i _ => (mul_one _).symm
      have hrows : A.rowSums.size = A.rows := Vec.size_tabulate _ _
      have hlinear : Vec.dot A.rowSums y = (direct A y).linearAlong 1 := by
        rw [linearAlong_direct, Vec.dot_eq, hrows]
        refine Finset.sum_congr rfl fun k hk => ?_
        rw [hcolumn k hk, mul_comm]
      have hform : Vec.dot A.rowSums A.rowSums = (direct A y).form 1 1 := by
        rw [form_direct, Vec.dot_eq, hrows]
        exact Finset.sum_congr rfl fun k hk => by rw [hcolumn k hk]
      exact ⟨hlinear, hform⟩

/-- The value at a constant vector. -/
theorem Fits.valueAt_constant (h : q.Fits n) (c : K) : q.valueAt (Vec.constant n c) =
    q.constantPart.2.1 / 2 * c ^ 2 - q.constantPart.1 * c + q.offset := by
  have hentry : ∀ i < q.size, Vec.entry (Vec.constant n c) i = c := fun i hi => by
    rw [Vec.entry_constant, if_pos (h.size_eq ▸ hi)]
  have hform : q.form (fun _ => c) (fun _ => c) = q.form 1 1 * c ^ 2 := by
    simp only [form, Finset.sum_mul, Pi.one_apply]
    exact Finset.sum_congr rfl fun i _ => Finset.sum_congr rfl fun j _ => by ring
  have hlinear : q.linearAlong (fun _ => c) = q.linearAlong 1 * c := by
    simp only [linearAlong, Finset.sum_mul, Pi.one_apply, mul_one]
  have hsize : (Vec.constant n c).size = n := Array.size_replicate
  rw [h.valueAt_eq _ hsize, form_congr hentry hentry, linearAlong_congr hentry, hform,
    hlinear, h.constantPart_eq.1, h.constantPart_eq.2]
  ring

/-! ## Steps -/

/-- The slope at a point along each variable. -/
def slopeAt (q : Quadratic K) (x : Vec K) (i : Nat) : K :=
  (∑ j ∈ Finset.range q.size, q.hessian.entry i j * Vec.entry x j) - Vec.entry q.linear i

theorem IsSymmetric.hessian_symm (h : q.IsSymmetric) {i j : Nat} (hi : i < q.size) (hj : j < q.size) :
    q.hessian.entry i j = q.hessian.entry j i := by
  cases q with
  | none m => simp [hessian, DenseMatrix.entry_ofFn]
  | identity m a y =>
      by_cases heq : i = j
      · rw [heq]
      · have hne : ¬j = i := fun h => heq h.symm
        simp [hessian, DenseMatrix.entry_ofFn, heq, hne]
  | diagonal d y =>
      by_cases heq : i = j
      · rw [heq]
      · have hne : ¬j = i := fun h => heq h.symm
        simp [hessian, DenseMatrix.entry_ofFn, heq, hne]
  | gram H y => exact h i hi j hj
  | direct A y =>
      rw [hessian, A.entry_columnProducts hi hj, A.entry_columnProducts hj hi]
      exact Finset.sum_congr rfl fun k _ => mul_comm _ _

theorem IsSymmetric.form_comm (h : q.IsSymmetric) (c d : Nat → K) : q.form c d = q.form d c := by
  rw [form, form, Finset.sum_comm]
  refine Finset.sum_congr rfl fun i hi => Finset.sum_congr rfl fun j hj => ?_
  rw [h.hessian_symm (Finset.mem_range.mp hj) (Finset.mem_range.mp hi), mul_comm (c j)]

/-- The curvature along a direction is not negative. -/
theorem IsConvex.form_self_nonneg (h : q.IsConvex) (d : Nat → K) : 0 ≤ q.form d d := by
  cases q with
  | none m =>
      refine Finset.sum_nonneg fun i _ => Finset.sum_nonneg fun j _ => ?_
      simp [hessian, DenseMatrix.entry_ofFn]
  | identity m a y =>
      rw [form_identity]
      exact Finset.sum_nonneg fun i _ => mul_nonneg h (mul_self_nonneg (d i))
  | diagonal w y =>
      rw [form_diagonal]
      exact Finset.sum_nonneg fun i hi =>
        mul_nonneg (h i (Finset.mem_range.mp hi)) (mul_self_nonneg (d i))
  | gram H y => exact h.2 d
  | direct A y =>
      rw [form_direct]
      exact Finset.sum_nonneg fun k _ => mul_self_nonneg _

theorem sum_slopeAt_mul (q : Quadratic K) (x : Vec K) (d : Nat → K) :
    ∑ i ∈ Finset.range q.size, q.slopeAt x i * d i =
      q.form d (Vec.entry x) - q.linearAlong d := by
  rw [form, linearAlong, ← Finset.sum_sub_distrib]
  apply Finset.sum_congr rfl
  intro i _
  rw [slopeAt, sub_mul, Finset.sum_mul]
  congr 1
  exact Finset.sum_congr rfl fun j _ => by ring

/-- A step changes the value by the slope along the step and half the curvature. -/
theorem Fits.valueAt_add (h : q.Fits n) (hsymmetric : q.IsSymmetric) {x z : Vec K} (hx : x.size = n)
    (hz : z.size = n) {d : Nat → K} (hd : ∀ i < n, Vec.entry z i = Vec.entry x i + d i) :
    q.valueAt z = q.valueAt x + ∑ i ∈ Finset.range n, q.slopeAt x i * d i + q.form d d / 2 := by
  have hstep : ∀ i < q.size, Vec.entry z i = (Vec.entry x + d) i :=
    fun i hi => hd i (h.size_eq ▸ hi)
  rw [h.valueAt_eq x hx, h.valueAt_eq z hz, form_congr hstep hstep, linearAlong_congr hstep,
    form_add, linearAlong_add, hsymmetric.form_comm (Vec.entry x) d, ← h.size_eq, sum_slopeAt_mul]
  ring

end Quadratic
end TotalVariation
