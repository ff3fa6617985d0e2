import Mathlib
import TotalVariation.Proofs.Partition.Renaming
import TotalVariation.Proofs.Problem.Renaming
import TotalVariation.Proofs.Quadratic.Majorant
import TotalVariation.Proofs.Quadratic.Value

/-! # Quadratic terms under another description

A quadratic term can be given with its variables under other names, and in another representation.
Its slope, its value, its majorant and its reduction to regions are then the same under these names:
those of premultiplied terms depend on nothing but the Hessian and the linear part, those of direct
terms on the columns of the design.
-/

namespace TotalVariation.Quadratic

variable {K : Type} [ExactField K] {π ρ : Equiv.Perm ℕ} {n : ℕ} {q q' : Quadratic K}
  {P P' : Partition K}

/-- A term over the `n` variables that is not direct, with a symmetric Hessian. -/
structure IsPremultiplied (n : ℕ) (q : Quadratic K) : Prop where
  fits : q.Fits n
  symmetric : q.IsSymmetric
  isDirect : q.isDirect = false

/-- One term is the other with its `n` variables renamed. The representations of terms that are not
direct may differ. -/
inductive Renames (π : Equiv.Perm ℕ) (n : ℕ) : Quadratic K → Quadratic K → Prop
  | premultiplied {q q' : Quadratic K} (hq : q.IsPremultiplied n) (hq' : q'.IsPremultiplied n)
      (hessian : ∀ i < n, ∀ j < n, q'.hessian.entry (π i) (π j) = q.hessian.entry i j)
      (linear : ∀ i < n, Vec.entry q'.linear (π i) = Vec.entry q.linear i) : Renames π n q q'
  | direct {A A' : DenseMatrix K} {y : Vec K} (hy : y.size = A.rows) (hcols : A.cols = n)
      (hcols' : A'.cols = n) (hrows : A'.rows = A.rows)
      (entry : ∀ k < A.rows, ∀ i < n, A'.entry k (π i) = A.entry k i) :
      Renames π n (direct A y) (direct A' y)

/-! ## Premultiplied terms -/

namespace IsPremultiplied

theorem size_majorant (h : q.IsPremultiplied n) : q.majorant.size = n :=
  q.size_majorant.trans h.fits.size_eq

/-- The majorant of a premultiplied term is made of the sums of the magnitudes in each row. -/
theorem entry_majorant (h : q.IsPremultiplied n) {i : ℕ} (hi : i < n) :
    Vec.entry q.majorant i = ∑ j ∈ Finset.range n, |q.hessian.entry i j| := by
  have hsize := h.fits.size_eq
  rw [h.fits.isSquare.entry_majorant h.isDirect (hsize.symm ▸ hi), hsize]

/-- Along constant vectors a premultiplied term adds up its linear part and its Hessian. -/
theorem constantPart_eq (h : q.IsPremultiplied n) : q.constantPart =
    (∑ i ∈ Finset.range n, Vec.entry q.linear i,
      ∑ i ∈ Finset.range n, ∑ j ∈ Finset.range n, q.hessian.entry i j, Option.none) := by
  obtain ⟨hlinear, hform⟩ := h.fits.constantPart_eq
  have hcolumn : q.constantPart.2.2 = Option.none := by
    have hdirect := h.isDirect
    cases q with
    | direct A y => cases hdirect
    | _ => rfl
  refine Prod.ext ?_ (Prod.ext ?_ hcolumn)
  · rw [hlinear, linearAlong, h.fits.size_eq]
    exact Finset.sum_congr rfl fun i _ => mul_one _
  · rw [hform, form, h.fits.size_eq]
    exact Finset.sum_congr rfl fun i _ => Finset.sum_congr rfl fun j _ => by
      rw [Pi.one_apply, Pi.one_apply, mul_one, mul_one]

variable (hP : P.IsConsistent) (premultiply : Bool)

include hP

/-- The Hessian over the regions has the sums of the entries over the regions. -/
theorem entry_hessian_reduce (h : q.IsPremultiplied P.vertexCount) {r s : ℕ}
    (hr : r < P.regionCount) (hs : s < P.regionCount) :
    (q.reduce P premultiply).1.hessian.entry r s =
      ∑ u ∈ P.members r, ∑ v ∈ P.members s, q.hessian.entry u v := by
  have hfits := h.fits
  have hdirect := h.isDirect
  have hblocks : ∀ (w : ℕ → K),
      (∀ i < P.vertexCount, ∀ j < P.vertexCount,
        q.hessian.entry i j = if i = j then w i else 0) →
      ∑ u ∈ P.members r, ∑ v ∈ P.members s, q.hessian.entry u v =
        if r = s then ∑ u ∈ P.members r, w u else 0 := by
    intro w hw
    have hrow : ∀ u ∈ P.members r, ∑ v ∈ P.members s, q.hessian.entry u v =
        if r = s then w u else 0 := by
      intro u hu
      rw [Partition.mem_members] at hu
      rw [Finset.sum_congr rfl fun v hv => hw u hu.1 v (Partition.mem_members.mp hv).1,
        Finset.sum_ite_eq]
      refine if_congr ?_ rfl rfl
      rw [Partition.mem_members, and_iff_right hu.1, hu.2]
    rw [Finset.sum_congr rfl hrow]
    split
    next => rfl
    next => exact Finset.sum_const_zero
  cases q with
  | none m =>
      rw [Finset.sum_eq_zero fun u _ => Finset.sum_eq_zero fun v _ => entry_hessian_none m u v]
      exact entry_hessian_none _ _ _
  | identity m a y =>
      obtain ⟨rfl, -⟩ := hfits
      rw [hblocks (fun _ => a) fun i hi j hj => entry_hessian_identity a y hi hj, Finset.sum_const,
        nsmul_eq_mul, ← hP.sizeOf_eq hr, mul_comm]
      refine (entry_hessian_diagonal _ _ ?_ ?_).trans ?_
      · exact (Vec.size_tabulate _ _).symm ▸ hr
      · exact (Vec.size_tabulate _ _).symm ▸ hs
      · rw [Vec.entry_tabulate, if_pos hr]
  | diagonal d y =>
      obtain ⟨hd, -⟩ := hfits
      rw [hblocks (Vec.entry d) fun i hi j hj =>
        entry_hessian_diagonal d y (hd ▸ hi) (hd ▸ hj), ← P.entry_regionSums d hr]
      exact entry_hessian_diagonal _ _ ((P.size_regionSums d).symm ▸ hr)
        ((P.size_regionSums d).symm ▸ hs)
  | gram H y =>
      obtain ⟨hrows, hcols, -⟩ := hfits
      exact entry_hessian_reduce_gram hP.toIsArranged hP.isIndexed hrows hcols h.symmetric premultiply
        hr hs
  | direct A y => cases hdirect

/-- The linear part over the regions has the sums over the regions. -/
theorem entry_linear_reduce (h : q.IsPremultiplied P.vertexCount) {r : ℕ}
    (hr : r < P.regionCount) :
    Vec.entry (q.reduce P premultiply).1.linear r = ∑ v ∈ P.members r, Vec.entry q.linear v := by
  -- along the indicator of the region the linear part is the entry on one side and the sum on the
  -- other
  have halong := h.fits.linearAlong_reduce hP.toIsArranged hP.isIndexed premultiply
    fun s => if s = r then 1 else 0
  rw [linearAlong, linearAlong, (h.fits.reduce premultiply).size_eq, h.fits.size_eq] at halong
  simp only [mul_ite, mul_one, mul_zero] at halong
  rw [Finset.sum_ite_eq', if_pos (Finset.mem_range.mpr hr), ← Finset.sum_filter] at halong
  exact halong

omit hP in
theorem reduce (h : q.IsPremultiplied P.vertexCount) :
    (q.reduce P premultiply).1.IsPremultiplied P.regionCount where
  fits := h.fits.reduce premultiply
  symmetric := isSymmetric_reduce q P premultiply
  isDirect := by
    have hdirect := h.isDirect
    cases q with
    | direct A y => cases hdirect
    | _ => rfl

end IsPremultiplied

namespace Renames

theorem fits (h : Renames π n q q') : q.Fits n := by
  cases h with
  | premultiplied hq => exact hq.fits
  | direct hy hcols => exact ⟨hcols, hy⟩

theorem fits' (h : Renames π n q q') : q'.Fits n := by
  cases h with
  | premultiplied _ hq' => exact hq'.fits
  | direct hy _ hcols' hrows => exact ⟨hcols', hy.trans hrows.symm⟩

theorem isSymmetric (h : Renames π n q q') : q.IsSymmetric := by
  cases h with
  | premultiplied hq => exact hq.symmetric
  | direct => trivial

theorem isSymmetric' (h : Renames π n q q') : q'.IsSymmetric := by
  cases h with
  | premultiplied _ hq' => exact hq'.symmetric
  | direct => trivial

variable (hπ : Preserves π n)

include hπ

theorem hessian_eq (h : Renames π n q q') {i j : ℕ} (hi : i < n) (hj : j < n) :
    q'.hessian.entry (π i) (π j) = q.hessian.entry i j := by
  cases h with
  | premultiplied _ _ hessian => exact hessian i hi j hj
  | @direct A A' y _ hcols hcols' hrows entry =>
      have hi' : π i < A'.cols := hcols' ▸ (hπ i).mpr hi
      have hj' : π j < A'.cols := hcols' ▸ (hπ j).mpr hj
      rw [Quadratic.hessian, Quadratic.hessian, A.entry_columnProducts (hcols ▸ hi) (hcols ▸ hj),
        A'.entry_columnProducts hi' hj', hrows]
      refine Finset.sum_congr rfl fun k hk => ?_
      rw [entry k (Finset.mem_range.mp hk) i hi, entry k (Finset.mem_range.mp hk) j hj]

theorem linear_eq (h : Renames π n q q') {i : ℕ} (hi : i < n) :
    Vec.entry q'.linear (π i) = Vec.entry q.linear i := by
  cases h with
  | premultiplied _ _ _ linear => exact linear i hi
  | @direct A A' y _ hcols hcols' hrows entry =>
      have hi' : π i < A'.cols := hcols' ▸ (hπ i).mpr hi
      rw [Quadratic.linear, Quadratic.linear, A.entry_transposeMulVec y (hcols ▸ hi),
        A'.entry_transposeMulVec y hi', hrows]
      refine Finset.sum_congr rfl fun k hk => ?_
      rw [entry k (Finset.mem_range.mp hk) i hi]

theorem slopeAt_eq (h : Renames π n q q') {x x' : Vec K} (hx : TotalVariation.Renames π x x')
    {i : ℕ} (hi : i < n) : q'.slopeAt x' (π i) = q.slopeAt x i := by
  rw [slopeAt, slopeAt, h.fits.size_eq, h.fits'.size_eq, h.linear_eq hπ hi]
  exact congrArg (· - _) (hπ.sum_range fun j hj => by rw [h.hessian_eq hπ hi hj, hx.entry_eq])

theorem form_eq (h : Renames π n q q') {c c' : ℕ → K} (hc : ∀ i < n, c' (π i) = c i) :
    q'.form c' c' = q.form c c := by
  rw [form, form, h.fits.size_eq, h.fits'.size_eq]
  exact hπ.sum_range fun i hi => hπ.sum_range fun j hj => by
    rw [h.hessian_eq hπ hi hj, hc i hi, hc j hj]

theorem linearAlong_eq (h : Renames π n q q') {c c' : ℕ → K} (hc : ∀ i < n, c' (π i) = c i) :
    q'.linearAlong c' = q.linearAlong c := by
  rw [linearAlong, linearAlong, h.fits.size_eq, h.fits'.size_eq]
  exact hπ.sum_range fun i hi => by rw [h.linear_eq hπ hi, hc i hi]

theorem valueAt_eq (h : Renames π n q q') {x x' : Vec K} (hx : TotalVariation.Renames π x x')
    (hsize : x.size = n) : q'.valueAt x' = q.valueAt x := by
  have hoffset : q'.offset = q.offset := by
    cases h with
    | premultiplied hq hq' =>
        have hzero : ∀ p : Quadratic K, p.isDirect = false → p.offset = 0 := by
          intro p hp
          cases p with
          | direct A y => cases hp
          | _ => rfl
        rw [hzero _ hq.isDirect, hzero _ hq'.isDirect]
    | direct _ _ _ hrows => rw [offset, offset, hrows]
  rw [h.fits.valueAt_eq x hsize, h.fits'.valueAt_eq x' (hx.size_eq.trans hsize), hoffset,
    h.form_eq hπ fun i _ => hx.entry_eq i, h.linearAlong_eq hπ fun i _ => hx.entry_eq i]

theorem constantPart_eq (h : Renames π n q q') : q'.constantPart = q.constantPart := by
  cases h with
  | premultiplied hq hq' hessian linear =>
      have hlinear : ∑ i ∈ Finset.range n, Vec.entry q'.linear i =
          ∑ i ∈ Finset.range n, Vec.entry q.linear i := hπ.sum_range linear
      have hhessian : ∑ i ∈ Finset.range n, ∑ j ∈ Finset.range n, q'.hessian.entry i j =
          ∑ i ∈ Finset.range n, ∑ j ∈ Finset.range n, q.hessian.entry i j :=
        hπ.sum_range fun i hi => hπ.sum_range fun j hj => hessian i hi j hj
      rw [hq.constantPart_eq, hq'.constantPart_eq, hlinear, hhessian]
  | @direct A A' y _ hcols hcols' hrows entry =>
      have hcolumn : A'.rowSums = A.rowSums := by
        refine Vec.ext_entry (by simp [DenseMatrix.rowSums, hrows]) fun k hk => ?_
        have hk' : k < A.rows := by simpa [DenseMatrix.rowSums, hrows] using hk
        rw [DenseMatrix.rowSums, DenseMatrix.rowSums, Vec.entry_tabulate, Vec.entry_tabulate, hrows,
          if_pos hk', if_pos hk', Vec.total_eq, Vec.total_eq, hcols, hcols']
        exact hπ.sum_range (entry k hk')
      rw [constantPart, constantPart, hcolumn]

theorem majorant_renames (h : Renames π n q q') :
    TotalVariation.Renames π q.majorant q'.majorant := by
  cases h with
  | premultiplied hq hq' hessian =>
      refine .of_entry hπ hq.size_majorant hq'.size_majorant fun i hi => ?_
      rw [hq.entry_majorant hi, hq'.entry_majorant ((hπ i).mpr hi)]
      exact hπ.sum_range fun j hj => congrArg _ (hessian i hi j hj)
  | @direct A A' y _ hcols hcols' hrows entry =>
      rw [majorant, majorant, hcols, hcols', hrows]
      refine .tabulate hπ fun i hi => ?_
      rw [Vec.total_eq, Vec.total_eq]
      refine Finset.sum_congr rfl fun k hk => ?_
      have hk' : k < A.rows := Finset.mem_range.mp hk
      rw [entry k hk' i hi, Vec.entry_tabulate, Vec.entry_tabulate, if_pos hk', if_pos hk',
        Vec.total_eq, Vec.total_eq]
      exact congrArg _ (hπ.sum_range fun j hj => by rw [entry k hk' j hj])

/-- The splitting cannot tell the two terms apart. -/
theorem actsAs (h : Renames π n q q') : q.ActsAs π q' where
  preserves := h.fits.size_eq.symm ▸ hπ
  size_eq := h.fits'.size_eq.trans h.fits.size_eq.symm
  gradientAt := by
    intro x x' hsize hx v hv
    rw [h.fits.size_eq] at hsize hv
    rw [h.fits.entry_gradientAt hsize hv,
      h.fits'.entry_gradientAt (hx.size_eq.trans hsize) ((hπ v).mpr hv), h.slopeAt_eq hπ hx hv]
  majorant := h.majorant_renames hπ

end Renames

/-! ## Direct terms -/

section Regions

variable (hP : P.IsConsistent) (hP' : P'.IsConsistent)
  (hregions : Partition.RenamesRegions π ρ P P')

include hP hP' hregions

/-- The columns of corresponding regions are the same. -/
theorem entry_regionColumns_renames {A A' : DenseMatrix K} (hrows : A'.rows = A.rows)
    (hentry : ∀ k < A.rows, ∀ i < P.vertexCount, A'.entry k (π i) = A.entry k i) {k r : ℕ}
    (hk : k < A.rows) (hr : r < P.regionCount) :
    (regionColumns P' A').entry k (ρ r) = (regionColumns P A).entry k r := by
  have hr' : ρ r < P'.regionCount := hregions.regionCount_eq ▸ (hregions.regions r).mpr hr
  rw [regionColumns, regionColumns, DenseMatrix.entry_ofFn, DenseMatrix.entry_ofFn, hrows,
    if_pos hk, if_pos hk, if_pos hr, if_pos hr', hP.foldl_region hP.isIndexed hr,
    hP'.foldl_region hP'.isIndexed hr']
  exact hregions.sum_members (fun i hi => hentry k hk i hi) r

/-- Reduced to corresponding regions the two terms still differ by names only. -/
theorem Renames.reduce (h : Renames π P.vertexCount q q') (premultiply : Bool) :
    Renames ρ P.regionCount (q.reduce P premultiply).1 (q'.reduce P' premultiply).1 := by
  cases h with
  | premultiplied hq hq' hessian linear =>
      have hq'' : q'.IsPremultiplied P'.vertexCount := hregions.vertexCount_eq.symm ▸ hq'
      refine .premultiplied (hq.reduce premultiply)
        (hregions.regionCount_eq ▸ hq''.reduce premultiply) ?_ ?_
      · intro r hr s hs
        have hlt {t : ℕ} (ht : t < P.regionCount) : ρ t < P'.regionCount :=
          hregions.regionCount_eq ▸ (hregions.regions t).mpr ht
        rw [hq.entry_hessian_reduce hP premultiply hr hs,
          hq''.entry_hessian_reduce hP' premultiply (hlt hr) (hlt hs)]
        exact hregions.sum_members (fun u hu =>
          hregions.sum_members (fun v hv => hessian u hu v hv) s) r
      · intro r hr
        have hr' : ρ r < P'.regionCount := hregions.regionCount_eq ▸ (hregions.regions r).mpr hr
        rw [hq.entry_linear_reduce hP premultiply hr, hq''.entry_linear_reduce hP' premultiply hr']
        exact hregions.sum_members linear r
  | @direct A A' y hy hcols hcols' hrows entry =>
      have hcolumns {k r : ℕ} := entry_regionColumns_renames hP hP' hregions hrows entry (k := k)
        (r := r)
      have hdesign : Renames ρ P.regionCount (.direct (regionColumns P A) y)
          (.direct (regionColumns P' A') y) :=
        .direct hy rfl hregions.regionCount_eq hrows fun k hk r hr => hcolumns hk hr
      cases premultiply with
      | false => exact hdesign
      | true =>
          have hlt {t : ℕ} (ht : t < P.regionCount) : ρ t < P'.regionCount :=
            hregions.regionCount_eq ▸ (hregions.regions t).mpr ht
          have hfits : (Quadratic.direct A y).Fits P.vertexCount := ⟨hcols, hy⟩
          have hfits' : (Quadratic.direct A' y).Fits P'.vertexCount :=
            ⟨hcols'.trans hregions.vertexCount_eq.symm, hy.trans hrows.symm⟩
          refine .premultiplied ⟨hfits.reduce true, isSymmetric_reduce _ _ _, rfl⟩
            ⟨hregions.regionCount_eq ▸ hfits'.reduce true, isSymmetric_reduce _ _ _, rfl⟩
            (fun r hr s hs => ?_) fun r hr => hdesign.linear_eq hregions.regions hr
          rw [entry_hessian_reduce_direct A y hr hs,
            entry_hessian_reduce_direct A' y (hlt hr) (hlt hs)]
          exact hdesign.hessian_eq hregions.regions hr hs

end Regions
end TotalVariation.Quadratic
