import Mathlib
import TotalVariation.Proofs.Partition.Values
import TotalVariation.Proofs.Quadratic.Expansion
import TotalVariation.Quadratic.Reduction

/-! # Gradients from regions

The gradient computed from the values of the regions, or from the residual of a direct term, is the
slope of the term at the expanded vector.
-/

namespace TotalVariation

variable {K : Type} [ExactField K]

namespace Partition

variable {P : Partition K}

/-- A sum over vertices, region by region. -/
theorem IsArranged.sum_members (h : P.IsArranged) (hindexed : P.IsIndexed) (f : Nat → K) :
    ∑ r ∈ Finset.range P.regionCount, ∑ v ∈ P.members r, f v =
      ∑ v ∈ Finset.range P.vertexCount, f v :=
  Finset.sum_fiberwise_of_maps_to
    (fun _ hv => Finset.mem_range.mpr (h.regionOf_lt hindexed (Finset.mem_range.mp hv))) f

theorem expand?_eq_ok {x : Vec K} (hx : x.size = P.regionCount)
    (hassignment : ∀ r ∈ P.assignment, r < P.regionCount) : P.expand? x = .ok (P.expand x) := by
  have hcovers : P.covers x.size = true := by
    rw [covers, Array.all_eq_true', hx]
    exact fun r hr => decide_eq_true (hassignment r hr)
  rw [expand?, if_pos hcovers]
  rfl

/-- Values added up along the list of a region. -/
theorem IsArranged.foldl_region (h : P.IsArranged) (hindexed : P.IsIndexed) {r : Nat}
    (hr : r < P.regionCount) (f : Nat → K) :
    (P.region r).foldl (fun acc v => acc + f v) 0 = ∑ v ∈ P.members r, f v := by
  have hfold : ∀ (vs : List Nat) (a : K),
      vs.foldl (fun acc v => acc + f v) a = a + (vs.map f).sum := by
    intro vs a
    induction vs generalizing a with
    | nil => simp
    | cons v vs ih => rw [List.foldl_cons, ih, List.map_cons, List.sum_cons, add_assoc]
  rw [hfold, zero_add, ← hindexed.toFinset_region hr, List.sum_toFinset f (h.nodup_region hr)]

end Partition

namespace Quadratic

variable {q : Quadratic K} {n : Nat} {P : Partition K}

theorem slopeAt_of_diagonal {w : Nat → K}
    (h : ∀ i < q.size, ∀ j < q.size, q.hessian.entry i j = if i = j then w i else 0) (x : Vec K)
    {i : Nat} (hi : i < q.size) : q.slopeAt x i = w i * Vec.entry x i - Vec.entry q.linear i := by
  have hrow : ∀ j ∈ Finset.range q.size,
      q.hessian.entry i j * Vec.entry x j = if i = j then w i * Vec.entry x i else 0 := by
    intro j hj
    rw [h i hi j (Finset.mem_range.mp hj)]
    split
    next heq => rw [heq]
    next => rw [zero_mul]
  rw [slopeAt, Finset.sum_congr rfl hrow, Finset.sum_ite_eq, if_pos (Finset.mem_range.mpr hi)]

/-- A direct term takes its slope from the residual. -/
theorem slopeAt_direct (A : DenseMatrix K) (y x : Vec K) {i : Nat} (hi : i < A.cols) :
    (direct A y).slopeAt x i = ∑ k ∈ Finset.range A.rows,
      A.entry k i * ((∑ j ∈ Finset.range A.cols, A.entry k j * Vec.entry x j) - Vec.entry y k) := by
  have hhessian : ∑ j ∈ Finset.range A.cols, A.columnProducts.entry i j * Vec.entry x j =
      ∑ k ∈ Finset.range A.rows,
        A.entry k i * ∑ j ∈ Finset.range A.cols, A.entry k j * Vec.entry x j := by
    simp only [Finset.mul_sum]
    rw [Finset.sum_comm]
    apply Finset.sum_congr rfl
    intro j hj
    rw [A.entry_columnProducts hi (Finset.mem_range.mp hj), Finset.sum_mul]
    exact Finset.sum_congr rfl fun k _ => mul_assoc _ _ _
  have hslope : (direct A y).slopeAt x i =
      (∑ j ∈ Finset.range A.cols, A.columnProducts.entry i j * Vec.entry x j) -
        Vec.entry (A.transposeMulVec y) i := rfl
  rw [hslope, hhessian, A.entry_transposeMulVec y hi, ← Finset.sum_sub_distrib]
  exact Finset.sum_congr rfl fun k _ => (mul_sub _ _ _).symm

/-- The gradient at a point is the slope there. -/
theorem Fits.entry_gradientAt (h : q.Fits n) {x : Vec K} (hx : x.size = n) {i : Nat}
    (hi : i < n) : Vec.entry (q.gradientAt x) i = q.slopeAt x i := by
  cases q with
  | none m =>
      have hzero : ∀ a b : Nat, (none (α := K) m).hessian.entry a b = 0 := by
        intro a b
        simp [hessian, DenseMatrix.entry_ofFn]
      have hlinear : ∀ a : Nat, Vec.entry (none (α := K) m).linear a = 0 := by
        intro a
        simp [linear, Vec.entry_constant]
      simp [slopeAt, gradientAt, hzero, hlinear, Vec.entry_constant]
  | identity m a y =>
      obtain ⟨rfl, -⟩ := h
      have hslope := slopeAt_of_diagonal (q := identity m a y) (w := fun _ => a)
        (fun i (hi : i < m) j (hj : j < m) => by
          rw [hessian, DenseMatrix.entry_ofFn, if_pos hi, if_pos hj]) x hi
      rw [hslope, gradientAt, diagonalGradient, Vec.entry_tabulate, if_pos hi, Vec.entry_constant,
        if_pos hi]
      rfl
  | diagonal w y =>
      obtain ⟨rfl, -⟩ := h
      have hslope := slopeAt_of_diagonal (q := diagonal w y) (w := Vec.entry w)
        (fun i (hi : i < w.size) j (hj : j < w.size) => by
          rw [hessian, DenseMatrix.entry_ofFn, if_pos hi, if_pos hj]) x hi
      rw [hslope, gradientAt, diagonalGradient, Vec.entry_tabulate, if_pos hi]
      rfl
  | gram H y =>
      obtain ⟨rfl, hcols, -⟩ := h
      rw [gradientAt, Vec.entry_tabulate, if_pos hi, H.entry_mulVec x hi, hcols]
      rfl
  | direct A y =>
      obtain ⟨rfl, -⟩ := h
      rw [slopeAt_direct A y x hi, gradientAt, A.entry_transposeMulVec _ hi]
      apply Finset.sum_congr rfl
      intro k hk
      rw [Vec.entry_tabulate, if_pos (Finset.mem_range.mp hk),
        A.entry_mulVec x (Finset.mem_range.mp hk)]

/-- A point that fits has a gradient. -/
theorem Fits.gradientAt?_eq_ok (h : q.Fits n) {x : Vec K} (hx : x.size = n) :
    q.gradientAt? x = .ok (q.gradientAt x) := by
  have hcommon : commonLength? q.size x.size = some n := by
    rw [h.size_eq, hx, commonLength?, if_pos rfl]
  have hdiagonal : ∀ {d : Vec K} {y : Option (Vec K)}, d.size = n → (∀ l ∈ y, l.size = n) →
      diagonalGradient n (stretch n d) (stretch n (linearPart n y)) (stretch n x) =
        diagonalGradient n d (linearPart n y) x := by
    intro d y hd hy
    rw [stretch_of_size_eq hd, stretch_of_size_eq hx, stretch_of_size_eq (size_linearPart hy)]
  cases q with
  | none m => rfl
  | identity m a y =>
      obtain ⟨rfl, hy⟩ := h
      rw [gradientAt?, hcommon]
      exact congrArg Except.ok (hdiagonal Array.size_replicate hy)
  | diagonal w y =>
      obtain ⟨rfl, hy⟩ := h
      rw [gradientAt?, hcommon]
      exact congrArg Except.ok (hdiagonal rfl hy)
  | gram H y =>
      have hsize : x.size = (gram H y).size := hx.trans h.size_eq.symm
      rw [gradientAt?, if_pos hsize]
      rfl
  | direct A y =>
      have hsize : x.size = (direct A y).size := hx.trans h.size_eq.symm
      rw [gradientAt?, if_pos hsize]
      rfl

theorem Fits.size_gradientAt (h : q.Fits n) {x : Vec K} (hx : x.size = n) :
    (q.gradientAt x).size = n := by
  cases q with
  | none m => exact Array.size_replicate.trans hx
  | identity m a y => exact (Vec.size_tabulate _ _).trans h.1
  | diagonal w y => exact (Vec.size_tabulate _ _).trans h.1
  | gram H y => exact (Vec.size_tabulate _ _).trans h.1
  | direct A y => exact (Vec.size_tabulate _ _).trans h.1

/-- The gradient at a point that fits is the vector of the slopes there. -/
theorem Fits.gradientAt?_eq_ok_of_slopeAt (h : q.Fits n) {x g : Vec K} (hx : x.size = n)
    (hsize : g.size = n) (hentry : ∀ i < n, Vec.entry g i = q.slopeAt x i) :
    q.gradientAt? x = .ok g := by
  rw [h.gradientAt?_eq_ok hx]
  refine congrArg Except.ok (Vec.ext_entry ((h.size_gradientAt hx).trans hsize.symm) fun i hi => ?_)
  rw [h.size_gradientAt hx] at hi
  rw [h.entry_gradientAt hx hi, hentry i hi]

/-! ## Gradients at expanded vectors -/

/-- The rows of the regions times the values of the regions give the rows of the vertices times the
expanded vector. -/
theorem sum_regionRows_mul (hP : P.IsArranged) (hindexed : P.IsIndexed) (H : DenseMatrix K)
    (hcols : H.cols = P.vertexCount) {x : Vec K} (hx : x.size = P.regionCount) {v : Nat}
    (hv : v < P.vertexCount) :
    (Vec.total x.size fun r => if Scalar.same (Vec.entry x r) 0 then 0
        else (regionRows P H).entry r v * Vec.entry x r) =
      ∑ u ∈ Finset.range P.vertexCount, H.entry u v * Vec.entry (P.expand x) u := by
  rw [Vec.total_eq, hx, ← hP.sum_members hindexed]
  apply Finset.sum_congr rfl
  intro r hr
  rw [Finset.mem_range] at hr
  have hvalue : ∀ u ∈ P.members r, Vec.entry (P.expand x) u = Vec.entry x r := by
    intro u hu
    obtain ⟨hlt, hregion⟩ := Partition.mem_members.mp hu
    rw [P.entry_expand x hlt, hregion]
  rw [Finset.sum_congr rfl fun u hu => by rw [hvalue u hu], ← Finset.sum_mul]
  split
  next hzero => rw [(Scalar.same_iff _ _).mp hzero, mul_zero]
  next =>
    rw [regionRows, DenseMatrix.entry_ofFn, if_pos hr, if_pos (hcols ▸ hv),
      hP.foldl_region hindexed hr]

/-- The rows of the regions give the slope at the expanded vector. -/
theorem entry_regionGradient_gram (hP : P.IsArranged) (hindexed : P.IsIndexed) {H : DenseMatrix K}
    {y : Option (Vec K)} (h : (gram H y).Fits P.vertexCount) (hsymm : (gram H y).IsSymmetric)
    {x : Vec K} (hx : x.size = P.regionCount) (R : Vec K) {v : Nat} (hv : v < P.vertexCount) :
    Vec.entry ((gram H y).regionGradient P x R) v = (gram H y).slopeAt (P.expand x) v := by
  obtain ⟨hrows, hcols, -⟩ := h
  have hlt : v < H.rows := hrows.symm ▸ hv
  have hrow : ∑ u ∈ Finset.range P.vertexCount, H.entry u v * Vec.entry (P.expand x) u =
      ∑ u ∈ Finset.range (gram H y).size, H.entry v u * Vec.entry (P.expand x) u := by
    have hsize : (gram H y).size = P.vertexCount := hrows
    rw [hsize]
    apply Finset.sum_congr rfl
    intro u hu
    rw [hsymm u (hrows.symm ▸ Finset.mem_range.mp hu) v hlt]
  have hlinear : Vec.entry (linearPart H.rows y) v = Vec.entry (gram H y).linear v := rfl
  rw [regionGradient, Vec.entry_tabulate, if_pos hlt, sum_regionRows_mul hP hindexed H hcols hx hv,
    slopeAt, hrow, hlinear, zero_sub, neg_add_eq_sub]
  rfl

/-- The residual at the expanded vector gives the slope there. -/
theorem entry_regionGradient_direct (P : Partition K) (A : DenseMatrix K) (y z x : Vec K) {v : Nat}
    (hv : v < A.cols) :
    Vec.entry ((direct A y).regionGradient P z (residualOf A y x)) v =
      (direct A y).slopeAt x v := by
  rw [slopeAt_direct A y _ hv, regionGradient, Vec.entry_map (sub_zero 0),
    A.entry_transposeMulVec _ hv, zero_sub, ← Finset.sum_neg_distrib]
  apply Finset.sum_congr rfl
  intro k hk
  rw [residualOf, Vec.entry_tabulate, if_pos (Finset.mem_range.mp hk),
    A.entry_mulVec _ (Finset.mem_range.mp hk)]
  ring

namespace Fits

theorem size_regionGradient (h : q.Fits P.vertexCount) (x R : Vec K) :
    (q.regionGradient P x R).size = P.vertexCount := by
  cases q with
  | none m => exact Array.size_replicate
  | identity m a y => exact (Vec.size_tabulate _ _).trans h.1
  | diagonal w y => exact (Vec.size_tabulate _ _).trans h.1
  | gram H y => exact (Vec.size_tabulate _ _).trans h.1
  | direct A y =>
      rw [regionGradient, Array.size_map]
      exact (Vec.size_tabulate _ _).trans h.1

/-- The gradient from the values of the regions, and from the residual of a direct term, is the
slope at the expanded vector. -/
theorem entry_regionGradient (h : q.Fits P.vertexCount) (hsymm : q.IsSymmetric) (hP : P.IsArranged)
    (hindexed : P.IsIndexed) {x R : Vec K} (hx : x.size = P.regionCount)
    (hresidual : ∀ A y, q = direct A y → R = residualOf A y (P.expand x)) {v : Nat}
    (hv : v < P.vertexCount) :
    Vec.entry (q.regionGradient P x R) v = q.slopeAt (P.expand x) v := by
  have hsize : (P.expand x).size = P.vertexCount := P.size_expand x
  cases q with
  | none m =>
      rw [← h.entry_gradientAt hsize hv, gradientAt, hsize]
      rfl
  | identity m a y => exact h.entry_gradientAt hsize hv
  | diagonal w y => exact h.entry_gradientAt hsize hv
  | gram H y => exact entry_regionGradient_gram hP hindexed h hsymm hx R hv
  | direct A y =>
      rw [hresidual A y rfl]
      exact entry_regionGradient_direct P A y x _ (h.1 ▸ hv)

/-- The gradient is known where each region has a value and a direct term has a residual of the
right length. -/
theorem regionGradient?_eq (h : q.Fits P.vertexCount)
    (hassignment : ∀ r ∈ P.assignment, r < P.regionCount) {x : Vec K} (hx : x.size = P.regionCount)
    {residual : Option (Vec K)}
    (hresidual : ∀ A y, q = direct A y → ∃ R, residual = some R ∧ R.size = A.rows) :
    q.regionGradient? P (some x) residual = .ok (q.regionGradient P x (residual.getD #[])) := by
  have hexpand := Partition.expand?_eq_ok hx hassignment
  have hsize : (P.expand x).size = P.vertexCount := P.size_expand x
  cases q with
  | none m => rfl
  | identity m a y =>
      have hgradient := h.gradientAt?_eq_ok hsize
      rw [regionGradient?]
      dsimp only
      rw [hexpand]
      exact hgradient
  | diagonal w y =>
      have hgradient := h.gradientAt?_eq_ok hsize
      rw [regionGradient?]
      dsimp only
      rw [hexpand]
      exact hgradient
  | gram H y =>
      obtain ⟨hrows, hcols, hy⟩ := h
      have hrange : ((List.range x.size).filter fun r => !Scalar.same (Vec.entry x r) 0).any
          (fun r => decide (P.regionCount ≤ r)) = false := by
        rw [List.any_eq_false]
        intro r hr
        have hlt := List.mem_range.mp (List.mem_of_mem_filter hr)
        rw [decide_eq_true_eq]
        omega
      rw [regionGradient?]
      simp only [hrange, hrows, ne_eq, not_true_eq_false, decide_false, Bool.and_false,
        Bool.false_eq_true, if_false]
      rfl
  | direct A y =>
      obtain ⟨R, rfl, hlength⟩ := hresidual A y rfl
      rw [regionGradient?, if_pos hlength]
      rfl

/-- The gradient is known, and is the slope, where a direct term has the residual of the expanded
vector. -/
theorem regionGradient?_eq_ok (h : q.Fits P.vertexCount) (hsymm : q.IsSymmetric) (hP : P.IsArranged)
    (hindexed : P.IsIndexed) (hassignment : ∀ r ∈ P.assignment, r < P.regionCount) {x : Vec K}
    (hx : x.size = P.regionCount) {residual : Option (Vec K)}
    (hresidual : ∀ A y, q = direct A y → residual = some (residualOf A y (P.expand x))) :
    ∃ g, q.regionGradient? P (some x) residual = .ok g ∧ g.size = P.vertexCount ∧
      ∀ v < P.vertexCount, Vec.entry g v = q.slopeAt (P.expand x) v := by
  have hvalue : ∀ A y, q = direct A y → residual.getD #[] = residualOf A y (P.expand x) := by
    intro A y hdirect
    rw [hresidual A y hdirect, Option.getD_some]
  exact ⟨_, h.regionGradient?_eq hassignment hx fun A y hdirect =>
      ⟨_, hresidual A y hdirect, Vec.size_tabulate _ _⟩,
    h.size_regionGradient x _, fun v hv => h.entry_regionGradient hsymm hP hindexed hx hvalue hv⟩

end Fits

end Quadratic
end TotalVariation
