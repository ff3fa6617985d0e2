import Mathlib
import TotalVariation.Proofs.Quadratic.Region

/-! # Quadratic terms over regions

The term over the regions is the restriction of the term over the vertices to the vectors that are
constant on the regions. In every representation its Hessian and its linear part along the values of
the regions are those of the full term along the expanded values; a premultiplied direct term leaves
out its constant.
-/

namespace TotalVariation

variable {K : Type} [ExactField K]

/-- Sums over the regions against the values of the regions are sums over the vertices. -/
theorem Partition.IsArranged.sum_regionSums_mul {P : Partition K} (h : P.IsArranged)
    (hindexed : P.IsIndexed) (values : Vec K) (c : Nat → K) :
    ∑ r ∈ Finset.range P.regionCount, Vec.entry (P.regionSums values) r * c r =
      ∑ v ∈ Finset.range P.vertexCount, Vec.entry values v * c (P.regionOf v) := by
  rw [← h.sum_members hindexed]
  apply Finset.sum_congr rfl
  intro r hr
  rw [P.entry_regionSums values (Finset.mem_range.mp hr), Finset.sum_mul]
  apply Finset.sum_congr rfl
  intro v hv
  rw [(Partition.mem_members.mp hv).2]

/-- A sum over pairs of vertices, by pairs of regions. -/
theorem Partition.IsArranged.sum_sum_members {P : Partition K} (h : P.IsArranged)
    (hindexed : P.IsIndexed) (f : Nat → Nat → K) :
    ∑ u ∈ Finset.range P.vertexCount, ∑ v ∈ Finset.range P.vertexCount, f u v =
      ∑ r ∈ Finset.range P.regionCount, ∑ s ∈ Finset.range P.regionCount,
        ∑ u ∈ P.members r, ∑ v ∈ P.members s, f u v := by
  rw [← h.sum_members hindexed]
  apply Finset.sum_congr rfl
  intro r _
  calc ∑ u ∈ P.members r, ∑ v ∈ Finset.range P.vertexCount, f u v
      = ∑ u ∈ P.members r, ∑ s ∈ Finset.range P.regionCount, ∑ v ∈ P.members s, f u v :=
        Finset.sum_congr rfl fun u _ => (h.sum_members hindexed (f u)).symm
    _ = _ := Finset.sum_comm

namespace Quadratic

variable {q : Quadratic K} {P : Partition K}

/-! ## Linear parts -/

/-- A premultiplied observation is summed over the regions. -/
theorem sum_linearPart_mul (h : P.IsArranged) (hindexed : P.IsIndexed) (y : Option (Vec K)) (c : Nat → K) :
    ∑ r ∈ Finset.range P.regionCount,
        Vec.entry (linearPart P.regionCount (y.map P.regionSums)) r * c r =
      ∑ v ∈ Finset.range P.vertexCount,
        Vec.entry (linearPart P.vertexCount y) v * c (P.regionOf v) := by
  cases y with
  | none => simp [linearPart, Vec.entry_constant]
  | some l => exact h.sum_regionSums_mul hindexed l c

theorem entry_regionColumns (h : P.IsArranged) (hindexed : P.IsIndexed) (M : DenseMatrix K)
    {k r : Nat} (hk : k < M.rows) (hr : r < P.regionCount) :
    (regionColumns P M).entry k r = ∑ v ∈ P.members r, M.entry k v := by
  rw [regionColumns, DenseMatrix.entry_ofFn, if_pos hk, if_pos hr, h.foldl_region hindexed hr]

/-- The columns of the regions times the values of the regions are the columns of the vertices times
the expanded values. -/
theorem sum_regionColumns_mul (h : P.IsArranged) (hindexed : P.IsIndexed) {M : DenseMatrix K}
    (hcols : M.cols = P.vertexCount) {k : Nat} (hk : k < M.rows) (c : Nat → K) :
    ∑ r ∈ Finset.range (regionColumns P M).cols, (regionColumns P M).entry k r * c r =
      ∑ v ∈ Finset.range M.cols, M.entry k v * c (P.regionOf v) := by
  have hcount : (regionColumns P M).cols = P.regionCount := rfl
  rw [hcols, hcount, ← h.sum_members hindexed]
  apply Finset.sum_congr rfl
  intro r hr
  rw [entry_regionColumns h hindexed M hk (Finset.mem_range.mp hr), Finset.sum_mul]
  apply Finset.sum_congr rfl
  intro v hv
  rw [(Partition.mem_members.mp hv).2]

/-! ## Hessians -/

theorem entry_regionRows (h : P.IsArranged) (hindexed : P.IsIndexed) (M : DenseMatrix K) {r j : Nat}
    (hr : r < P.regionCount) (hj : j < M.cols) :
    (regionRows P M).entry r j = ∑ v ∈ P.members r, M.entry v j := by
  rw [regionRows, DenseMatrix.entry_ofFn, if_pos hr, if_pos hj, h.foldl_region hindexed hr]

/-- Copying the upper triangle of a symmetric table changes nothing. -/
theorem entry_symmetrizeUpper {M : DenseMatrix K} (hsquare : M.cols = M.rows)
    (hsymm : ∀ i < M.rows, ∀ j < M.rows, M.entry i j = M.entry j i) {i j : Nat} (hi : i < M.rows)
    (hj : j < M.rows) : M.symmetrizeUpper.entry i j = M.entry i j := by
  rw [DenseMatrix.symmetrizeUpper, DenseMatrix.entry_ofFn, if_pos hi, if_pos (hsquare ▸ hj)]
  split
  next => rfl
  next => exact hsymm j hj i hi

/-- Copying the upper triangle makes any square table symmetric. -/
theorem symmetrizeUpper_comm {M : DenseMatrix K} (hsquare : M.cols = M.rows) {i j : Nat}
    (hi : i < M.rows) (hj : j < M.rows) :
    M.symmetrizeUpper.entry i j = M.symmetrizeUpper.entry j i := by
  rw [DenseMatrix.symmetrizeUpper, DenseMatrix.entry_ofFn, DenseMatrix.entry_ofFn, hsquare,
    if_pos hi, if_pos hi, if_pos hj, if_pos hj]
  rcases lt_trichotomy i j with hlt | rfl | hlt
  · rw [if_pos hlt.le, if_neg hlt.not_ge]
  · rfl
  · rw [if_neg hlt.not_ge, if_pos hlt.le]

theorem isSymmetric_reduce (q : Quadratic K) (P : Partition K) (premultiply : Bool) :
    (q.reduce P premultiply).1.IsSymmetric := by
  cases q with
  | gram H y => exact fun i hi j hj => symmetrizeUpper_comm rfl hi hj
  | direct A y =>
      cases premultiply with
      | false => trivial
      | true => exact fun i hi j hj => symmetrizeUpper_comm rfl hi hj
  | _ => trivial

/-- Rows and columns of the regions of a symmetric table. -/
theorem entry_regionRows_transpose (h : P.IsArranged) (hindexed : P.IsIndexed) {H : DenseMatrix K} {y : Option (Vec K)}
    (hrows : H.rows = P.vertexCount) (hcols : H.cols = P.vertexCount)
    (hsymm : (gram H y).IsSymmetric) {r s : Nat} (hr : r < P.regionCount) (hs : s < P.regionCount) :
    (regionRows P (regionRows P H).transpose).entry r s =
      ∑ u ∈ P.members r, ∑ v ∈ P.members s, H.entry u v := by
  have hwidth : s < (regionRows P H).transpose.cols := hs
  rw [entry_regionRows h hindexed _ hr hwidth]
  apply Finset.sum_congr rfl
  intro u hu
  have hlt : ∀ {a : Nat} {b : Nat}, b ∈ P.members a → b < H.rows :=
    fun hb => hrows ▸ (Partition.mem_members.mp hb).1
  have hheight : u < (regionRows P H).cols := hcols ▸ (Partition.mem_members.mp hu).1
  have hrow : s < (regionRows P H).rows := hs
  rw [DenseMatrix.transpose, DenseMatrix.entry_ofFn, if_pos hheight, if_pos hrow,
    entry_regionRows h hindexed H hs hheight]
  exact Finset.sum_congr rfl fun v hv => hsymm v (hlt hv) u (hlt hu)

/-- Adding up the rows and columns of the regions keeps a table symmetric. -/
theorem regionRows_transpose_comm (h : P.IsArranged) (hindexed : P.IsIndexed) {H : DenseMatrix K} {y : Option (Vec K)}
    (hrows : H.rows = P.vertexCount) (hcols : H.cols = P.vertexCount)
    (hsymm : (gram H y).IsSymmetric) {r s : Nat} (hr : r < P.regionCount) (hs : s < P.regionCount) :
    (regionRows P (regionRows P H).transpose).entry r s =
      (regionRows P (regionRows P H).transpose).entry s r := by
  have hlt : ∀ {a b : Nat}, b ∈ P.members a → b < H.rows :=
    fun hb => hrows ▸ (Partition.mem_members.mp hb).1
  rw [entry_regionRows_transpose h hindexed hrows hcols hsymm hr hs,
    entry_regionRows_transpose h hindexed hrows hcols hsymm hs hr, Finset.sum_comm]
  exact Finset.sum_congr rfl fun v hv => Finset.sum_congr rfl fun u hu =>
    hsymm u (hlt hu) v (hlt hv)

/-- The table over the regions of a symmetric table. -/
theorem entry_hessian_reduce_gram (h : P.IsArranged) (hindexed : P.IsIndexed) {H : DenseMatrix K} {y : Option (Vec K)}
    (hrows : H.rows = P.vertexCount) (hcols : H.cols = P.vertexCount)
    (hsymm : (gram H y).IsSymmetric) (premultiply : Bool) {r s : Nat} (hr : r < P.regionCount)
    (hs : s < P.regionCount) : ((gram H y).reduce P premultiply).1.hessian.entry r s =
      ∑ u ∈ P.members r, ∑ v ∈ P.members s, H.entry u v := by
  rw [← entry_regionRows_transpose h hindexed hrows hcols hsymm hr hs]
  exact entry_symmetrizeUpper (M := regionRows P (regionRows P H).transpose) rfl
    (fun i hi j hj => regionRows_transpose_comm h hindexed hrows hcols hsymm hi hj) hr hs

theorem form_reduce_gram (h : P.IsArranged) (hindexed : P.IsIndexed) {H : DenseMatrix K} {y : Option (Vec K)}
    (hrows : H.rows = P.vertexCount) (hcols : H.cols = P.vertexCount)
    (hsymm : (gram H y).IsSymmetric) (premultiply : Bool) (c : Nat → K) :
    ((gram H y).reduce P premultiply).1.form c c =
      (gram H y).form (fun v => c (P.regionOf v)) fun v => c (P.regionOf v) := by
  have hsize : (gram H y).size = P.vertexCount := hrows
  rw [form, form, hsize, h.sum_sum_members hindexed]
  refine Finset.sum_congr rfl fun r hr => Finset.sum_congr rfl fun s hs => ?_
  have hr' : r < P.regionCount := Finset.mem_range.mp hr
  have hs' : s < P.regionCount := Finset.mem_range.mp hs
  rw [entry_hessian_reduce_gram h hindexed hrows hcols hsymm premultiply hr' hs', Finset.sum_mul]
  apply Finset.sum_congr rfl
  intro u hu
  rw [Finset.sum_mul]
  apply Finset.sum_congr rfl
  intro v hv
  rw [(Partition.mem_members.mp hv).2, (Partition.mem_members.mp hu).2, hessian]

/-- A premultiplied direct term has the Hessian of the reduced design. -/
theorem entry_hessian_reduce_direct (A : DenseMatrix K) (y : Vec K) {r s : Nat}
    (hr : r < P.regionCount) (hs : s < P.regionCount) :
    ((direct A y).reduce P true).1.hessian.entry r s =
      (direct (regionColumns P A) y).hessian.entry r s := by
  refine entry_symmetrizeUpper rfl (fun i hi j hj => ?_) hr hs
  rw [DenseMatrix.entry_columnProducts _ hi hj, DenseMatrix.entry_columnProducts _ hj hi]
  exact Finset.sum_congr rfl fun k _ => mul_comm _ _

theorem form_reduce_direct (A : DenseMatrix K) (y : Vec K) (premultiply : Bool) (c : Nat → K) :
    ((direct A y).reduce P premultiply).1.form c c = (direct (regionColumns P A) y).form c c := by
  cases premultiply with
  | false => rfl
  | true =>
      refine Finset.sum_congr rfl fun r hr => Finset.sum_congr rfl fun s hs => ?_
      have hr' : r < P.regionCount := Finset.mem_range.mp hr
      have hs' : s < P.regionCount := Finset.mem_range.mp hs
      exact congrArg (· * _) (entry_hessian_reduce_direct A y hr' hs')

/-! ## Values -/

variable (hP : P.IsArranged) (hindexed : P.IsIndexed) (h : q.Fits P.vertexCount)
include hP hindexed h

omit hP hindexed in
theorem Fits.reduce (premultiply : Bool) : (q.reduce P premultiply).1.Fits P.regionCount := by
  have hsums : ∀ y : Option (Vec K), ∀ l ∈ y.map P.regionSums, l.size = P.regionCount := by
    intro y l hl
    obtain ⟨l', -, rfl⟩ := Option.map_eq_some_iff.mp hl
    exact P.size_regionSums l'
  cases q with
  | none m => exact rfl
  | identity m a y => exact ⟨Vec.size_tabulate _ _, hsums y⟩
  | diagonal d y => exact ⟨P.size_regionSums d, hsums y⟩
  | gram H y => exact ⟨rfl, rfl, hsums y⟩
  | direct A y =>
      obtain ⟨-, hy⟩ := h
      cases premultiply with
      | false => exact ⟨rfl, hy⟩
      | true =>
          refine ⟨rfl, rfl, fun l hl => ?_⟩
          cases hl
          exact Vec.size_tabulate _ _

omit hP hindexed in
theorem Fits.reduce?_eq_ok (premultiply : Bool) :
    q.reduce? P premultiply = .ok (q.reduce P premultiply) := by
  have hsize := h.size_eq
  have hlinear : ∀ {y : Option (Vec K)}, (∀ l ∈ y, l.size = P.vertexCount) →
      (y.all fun l => decide (l.size = P.vertexCount)) = true := by
    intro y hy
    cases y with
    | none => rfl
    | some l => exact decide_eq_true (hy l rfl)
  unfold Quadratic.reduce?
  cases q with
  | none m => rfl
  | identity m a y => simp [observation?, hlinear h.2, pure, Except.pure]
  | diagonal d y => simp [observation?, hlinear h.2, hsize, pure, Except.pure]
  | gram H y => simp [observation?, hlinear h.2.2, hsize, pure, Except.pure]
  | direct A y => simp [hsize, pure, Except.pure]

/-- The Hessian over the regions is that over the vertices along expanded values. -/
theorem Fits.form_reduce (hsymm : q.IsSymmetric) (premultiply : Bool) (c : Nat → K) :
    (q.reduce P premultiply).1.form c c =
      q.form (fun v => c (P.regionOf v)) fun v => c (P.regionOf v) := by
  cases q with
  | none m =>
      rw [form_none]
      exact form_none _ _ _
  | identity m a y =>
      obtain ⟨rfl, -⟩ := h
      rw [form_identity, ← hP.sum_members hindexed]
      refine (form_diagonal _ _ _ _).trans ?_
      rw [Vec.size_tabulate]
      apply Finset.sum_congr rfl
      intro r hr
      have hmembers : ∀ v ∈ P.members r, a * (c (P.regionOf v) * c (P.regionOf v)) =
          a * (c r * c r) := fun v hv => by rw [(Partition.mem_members.mp hv).2]
      rw [Vec.entry_tabulate, if_pos (Finset.mem_range.mp hr), Finset.sum_congr rfl hmembers,
        Finset.sum_const, nsmul_eq_mul, hP.sizeOf_eq hindexed (Finset.mem_range.mp hr)]
      ring
  | diagonal d y =>
      obtain ⟨hd, -⟩ := h
      rw [form_diagonal, hd, ← hP.sum_regionSums_mul hindexed d fun r => c r * c r]
      refine (form_diagonal _ _ _ _).trans ?_
      rw [P.size_regionSums]
  | gram H y =>
      obtain ⟨hrows, hcols, -⟩ := h
      exact form_reduce_gram hP hindexed hrows hcols hsymm premultiply c
  | direct A y =>
      obtain ⟨hcols, -⟩ := h
      rw [form_reduce_direct, form_direct, form_direct]
      apply Finset.sum_congr rfl
      intro k hk
      rw [sum_regionColumns_mul hP hindexed hcols (Finset.mem_range.mp hk)]

/-- The linear part over the regions is that over the vertices along expanded values. -/
theorem Fits.linearAlong_reduce (premultiply : Bool) (c : Nat → K) :
    (q.reduce P premultiply).1.linearAlong c = q.linearAlong fun v => c (P.regionOf v) := by
  have hsize := h.size_eq
  have hpremultiplied : ∀ y : Option (Vec K), q.linear = linearPart P.vertexCount y →
      (q.reduce P premultiply).1.linear = linearPart P.regionCount (y.map P.regionSums) →
        (q.reduce P premultiply).1.linearAlong c = q.linearAlong fun v => c (P.regionOf v) := by
    intro y hy hreduced
    rw [linearAlong, linearAlong, hy, hreduced, (h.reduce premultiply).size_eq, hsize,
      sum_linearPart_mul hP hindexed]
  cases q with
  | none m => exact hpremultiplied Option.none (congrArg (Vec.constant · 0) hsize) rfl
  | identity m a y =>
      exact hpremultiplied y (congrArg (linearPart · y) hsize)
        (congrArg (linearPart · _) (Vec.size_tabulate _ _))
  | diagonal d y =>
      exact hpremultiplied y (congrArg (linearPart · y) hsize)
        (congrArg (linearPart · _) (P.size_regionSums d))
  | gram H y => exact hpremultiplied y (congrArg (linearPart · y) hsize) rfl
  | direct A y =>
      have hdesign : ((direct A y).reduce P premultiply).1.linearAlong c =
          (direct (regionColumns P A) y).linearAlong c := by
        cases premultiply <;> rfl
      rw [hdesign, linearAlong_direct, linearAlong_direct]
      apply Finset.sum_congr rfl
      intro k hk
      rw [sum_regionColumns_mul hP hindexed hsize (Finset.mem_range.mp hk)]

/-- The value over the regions is the value at the expanded vector, up to the constants that the two
terms keep. -/
theorem Fits.valueAt_reduce (hsymm : q.IsSymmetric) (premultiply : Bool) {x : Vec K}
    (hx : x.size = P.regionCount) :
    (q.reduce P premultiply).1.valueAt x + (q.offset - (q.reduce P premultiply).1.offset) =
      q.valueAt (P.expand x) := by
  have hsize := h.size_eq
  have hexpand : ∀ v < q.size, Vec.entry (P.expand x) v = Vec.entry x (P.regionOf v) :=
    fun v hv => P.entry_expand x (hsize ▸ hv)
  rw [(h.reduce premultiply).valueAt_eq x hx, h.valueAt_eq _ (P.size_expand x),
    form_congr hexpand hexpand, linearAlong_congr hexpand, h.form_reduce hP hindexed hsymm,
    h.linearAlong_reduce hP hindexed]
  ring

end Quadratic
end TotalVariation
