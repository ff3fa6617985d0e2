import Mathlib
import TotalVariation.Proofs.Quadratic.Restriction

/-! # Values from regions

The value computed from the values of the regions, or from the residual of a direct term, is the
value of the term at the expanded vector. It is computed in another way than that of the term over
the regions: from sums over regions of the weights, and from the table of a Gram term with its rows
and columns added up, as it stands.
-/

namespace TotalVariation.Quadratic

variable {K : Type} [ExactField K] {q : Quadratic K} {P : Partition K} {x : Vec K}

/-- A diagonal term from its sums over the regions. -/
theorem diagonalRegionValue_eq (h : P.IsArranged) (hindexed : P.IsIndexed) {d y : Vec K}
    (hx : x.size = P.regionCount) (hd : d.size = P.vertexCount) (hy : y.size = P.vertexCount) :
    diagonalRegionValue (P.regionSums d) (P.regionSums y) x = diagonalValue d y (P.expand x) := by
  have hvalues : ∀ v ∈ Finset.range P.vertexCount,
      Vec.entry (P.expand x) v = Vec.entry x (P.regionOf v) :=
    fun v hv => P.entry_expand x (Finset.mem_range.mp hv)
  rw [diagonalValue_eq (hy.trans hd.symm), hd, diagonalRegionValue, Vec.total_eq, hx]
  calc ∑ r ∈ Finset.range P.regionCount, Vec.entry x r *
        (Scalar.half (Vec.entry (P.regionSums d) r) * Vec.entry x r -
          Vec.entry (P.regionSums y) r)
      = (∑ r ∈ Finset.range P.regionCount,
            Vec.entry (P.regionSums d) r * (Vec.entry x r * Vec.entry x r)) / 2 -
          ∑ r ∈ Finset.range P.regionCount, Vec.entry (P.regionSums y) r * Vec.entry x r := by
        rw [Finset.sum_div, ← Finset.sum_sub_distrib]
        refine Finset.sum_congr rfl fun r _ => ?_
        rw [Scalar.half_eq]
        ring
    _ = (∑ v ∈ Finset.range P.vertexCount, Vec.entry d v *
            (Vec.entry x (P.regionOf v) * Vec.entry x (P.regionOf v))) / 2 -
          ∑ v ∈ Finset.range P.vertexCount, Vec.entry y v * Vec.entry x (P.regionOf v) := by
        rw [h.sum_regionSums_mul hindexed d fun r => Vec.entry x r * Vec.entry x r,
          h.sum_regionSums_mul hindexed y (Vec.entry x)]
    _ = (∑ v ∈ Finset.range P.vertexCount, Vec.entry d v *
            (Vec.entry (P.expand x) v * Vec.entry (P.expand x) v)) / 2 -
          ∑ v ∈ Finset.range P.vertexCount, Vec.entry y v * Vec.entry (P.expand x) v := by
        rw [Finset.sum_congr rfl fun v hv => by rw [← hvalues v hv],
          Finset.sum_congr (f := fun v => Vec.entry y v * Vec.entry x (P.regionOf v)) rfl
            fun v hv => by rw [← hvalues v hv]]

/-- The table that a Gram term is valued with is the reduced one. -/
theorem entry_transpose_mulVec (h : P.IsArranged) (hindexed : P.IsIndexed) {H : DenseMatrix K}
    {y : Option (Vec K)} (hrows : H.rows = P.vertexCount) (hcols : H.cols = P.vertexCount)
    (hsymm : (gram H y).IsSymmetric) (x : Vec K) {r : Nat} (hr : r < P.regionCount) :
    Vec.entry ((regionRows P (regionRows P H).transpose).transpose.mulVec x) r =
      Vec.entry (((gram H y).reduce P true).1.hessian.mulVec x) r := by
  have hleft := DenseMatrix.entry_mulVec (regionRows P (regionRows P H).transpose).transpose x hr
  have hright := DenseMatrix.entry_mulVec ((gram H y).reduce P true).1.hessian x hr
  rw [hleft, hright]
  apply Finset.sum_congr rfl
  intro s hs
  have hs' : s < P.regionCount := Finset.mem_range.mp hs
  rw [entry_hessian_reduce_gram h hindexed hrows hcols hsymm true hr hs',
    ← entry_regionRows_transpose h hindexed hrows hcols hsymm hr hs',
    regionRows_transpose_comm h hindexed hrows hcols hsymm hr hs']
  have hentry : (regionRows P (regionRows P H).transpose).transpose.entry r s =
      (regionRows P (regionRows P H).transpose).entry s r := by
    have hcount : (regionRows P (regionRows P H).transpose).cols = P.regionCount := rfl
    have hheight : (regionRows P (regionRows P H).transpose).rows = P.regionCount := rfl
    rw [DenseMatrix.transpose, DenseMatrix.entry_ofFn, hcount, hheight, if_pos hr, if_pos hs']
  rw [hentry]

theorem regionValue_gram (h : P.IsArranged) (hindexed : P.IsIndexed) {H : DenseMatrix K}
    {y : Option (Vec K)} (hfits : (gram H y).Fits P.vertexCount) (hsymm : (gram H y).IsSymmetric)
    (hx : x.size = P.regionCount) (residual : Vec K) :
    (gram H y).regionValue P x residual = (gram H y).valueAt (P.expand x) := by
  obtain ⟨hrows, hcols, hy⟩ := id hfits
  have hvalue := hfits.valueAt_reduce h hindexed hsymm true hx
  have hoffset : (gram H y).offset - ((gram H y).reduce P true).1.offset = 0 := sub_zero 0
  rw [hoffset, add_zero] at hvalue
  have hproduct : Vec.dot (x.map Scalar.half)
        ((regionRows P (regionRows P H).transpose).transpose.mulVec x) =
      Vec.dot (x.map Scalar.half) (((gram H y).reduce P true).1.hessian.mulVec x) := by
    rw [Vec.dot_eq, Vec.dot_eq, Array.size_map, hx]
    exact Finset.sum_congr rfl fun r hr => by
      rw [entry_transpose_mulVec h hindexed hrows hcols hsymm x (Finset.mem_range.mp hr)]
  have hlinear : Vec.dot x (P.regionSums (linearPart H.rows y)) =
      Vec.dot (linearPart P.regionCount (y.map P.regionSums)) x := by
    have hsums := size_linearPart (n := P.regionCount) (y := y.map P.regionSums) fun l hl => by
      obtain ⟨l', -, rfl⟩ := Option.map_eq_some_iff.mp hl
      exact P.size_regionSums l'
    rw [Vec.dot_eq, Vec.dot_eq, hsums, hx, sum_linearPart_mul h hindexed,
      hrows, ← h.sum_regionSums_mul hindexed]
    exact Finset.sum_congr rfl fun r _ => mul_comm _ _
  rw [← hvalue]
  exact congrArg₂ (· - ·) hproduct hlinear

theorem regionSums?_eq_ok {values : Vec K} (h : values.size = P.vertexCount) :
    P.regionSums? values = .ok (P.regionSums values) := by
  rw [Partition.regionSums?, if_pos h]
  rfl

/-- Sums and values that are as many as regions are not stretched. -/
theorem diagonalRegionValue_stretch (h : P.IsArranged) (hindexed : P.IsIndexed) {d y : Vec K}
    (hx : x.size = P.regionCount) (hd : d.size = P.vertexCount) (hy : y.size = P.vertexCount) :
    diagonalRegionValue (stretch P.regionCount (P.regionSums d))
        (stretch P.regionCount (P.regionSums y)) (stretch P.regionCount x) =
      diagonalValue d y (P.expand x) := by
  rw [stretch_of_size_eq (P.size_regionSums d), stretch_of_size_eq (P.size_regionSums y),
    stretch_of_size_eq hx, diagonalRegionValue_eq h hindexed hx hd hy]

/-- The value from the values of the regions, and from the residual of a direct term, is that at the
expanded vector. -/
theorem Fits.regionValue?_eq_ok (h : q.Fits P.vertexCount) (hsymm : q.IsSymmetric)
    (hP : P.IsArranged) (hindexed : P.IsIndexed) (hx : x.size = P.regionCount)
    {residual : Option (Vec K)}
    (hresidual : ∀ A y, q = direct A y → residual = some (residualOf A y (P.expand x))) :
    q.regionValue? P (some x) residual = .ok (q.valueAt (P.expand x)) := by
  have hcommon : commonLength? P.regionCount x.size = some P.regionCount := by
    rw [hx, commonLength?, if_pos rfl]
  cases q with
  | none m => rfl
  | identity m a y =>
      obtain ⟨rfl, hy⟩ := h
      have hsums := regionSums?_eq_ok (size_linearPart hy)
      simp only [regionValue?, size, diagonal?, observation?, ne_eq, not_true_eq_false, if_false,
        hsums, hcommon]
      exact congrArg Except.ok
        (diagonalRegionValue_stretch hP hindexed hx Array.size_replicate (size_linearPart hy))
  | diagonal d y =>
      obtain ⟨hd, hy⟩ := h
      have hsums := regionSums?_eq_ok (size_linearPart hy)
      have hvalue : (diagonal d y).valueAt (P.expand x) =
          diagonalValue d (linearPart P.vertexCount y) (P.expand x) := by
        rw [← hd]
        rfl
      simp only [regionValue?, size, diagonal?, observation?, hd, ne_eq, not_true_eq_false,
        if_false, hsums, hcommon, hvalue]
      exact congrArg Except.ok (diagonalRegionValue_stretch hP hindexed hx hd (size_linearPart hy))
  | gram H y =>
      obtain ⟨hrows, -, hy⟩ := id h
      have hsums : P.regionSums? (linearPart H.rows y) = .ok (P.regionSums (linearPart H.rows y)) :=
        regionSums?_eq_ok ((size_linearPart (hrows ▸ hy)).trans hrows)
      rw [← regionValue_gram hP hindexed h hsymm hx #[]]
      simp only [regionValue?, hrows, ne_eq, not_true_eq_false, if_false, hx, if_true]
      rw [← hrows, hsums]
      rfl
  | direct A y =>
      rw [hresidual A y rfl]
      rfl

end TotalVariation.Quadratic
