import Mathlib
import TotalVariation.Proofs.Partition.Rebuild
import TotalVariation.Proofs.Quadratic.Restriction
import TotalVariation.Proofs.Quadratic.Value

/-! # Gradients over regions

At the values of the regions, a reduced term slopes along a region as the full term slopes along all
of its vertices together. So the gradient of the reduced term, whether it is premultiplied or not,
has the sums over the regions of the gradient at the expanded vector, which itself is found from the
values of the regions.
-/

namespace TotalVariation.Quadratic

variable {K : Type} [ExactField K] {q : Quadratic K} {P : Partition K} {x : Vec K}

/-- A symmetric Hessian along two directions, from the curvatures along them and their sum. -/
theorem IsSymmetric.form_eq (h : q.IsSymmetric) (c d : ℕ → K) :
    q.form c d = (q.form (c + d) (c + d) - q.form c c - q.form d d) / 2 := by
  rw [form_add, h.form_comm d c]
  ring

variable (hP : P.IsArranged) (hindexed : P.IsIndexed) (h : q.Fits P.vertexCount)
  (hsymm : q.IsSymmetric)
include hP hindexed h hsymm

/-- The Hessian over the regions along two directions is that over the vertices along the expanded
ones. -/
theorem Fits.form_reduce_pair (premultiply : Bool) (c d : ℕ → K) :
    (q.reduce P premultiply).1.form c d =
      q.form (fun v => c (P.regionOf v)) fun v => d (P.regionOf v) := by
  have hreduce := h.form_reduce hP hindexed hsymm premultiply
  rw [(isSymmetric_reduce q P premultiply).form_eq, hsymm.form_eq, hreduce, hreduce, hreduce]
  rfl

/-- The slope along a region is the sum of the slopes along its vertices. -/
theorem Fits.slopeAt_reduce (premultiply : Bool) {r : ℕ} (hr : r < P.regionCount) :
    (q.reduce P premultiply).1.slopeAt x r = ∑ v ∈ P.members r, q.slopeAt (P.expand x) v := by
  have hsize := h.size_eq
  have hreduced := (h.reduce premultiply).size_eq
  have hexpand : ∀ v < q.size, Vec.entry (P.expand x) v = Vec.entry x (P.regionOf v) :=
    fun v hv => P.entry_expand x (hsize ▸ hv)
  -- both are slopes along the indicator of the region
  calc (q.reduce P premultiply).1.slopeAt x r
      = ∑ s ∈ Finset.range (q.reduce P premultiply).1.size,
          (q.reduce P premultiply).1.slopeAt x s * if s = r then 1 else 0 := by
        simp only [mul_ite, mul_one, mul_zero]
        rw [Finset.sum_ite_eq', if_pos (Finset.mem_range.mpr (hreduced.symm ▸ hr))]
    _ = ∑ v ∈ Finset.range q.size,
          q.slopeAt (P.expand x) v * if P.regionOf v = r then 1 else 0 := by
        rw [sum_slopeAt_mul, sum_slopeAt_mul, h.form_reduce_pair hP hindexed hsymm,
          h.linearAlong_reduce hP hindexed, form_congr (fun _ _ => rfl) hexpand]
    _ = ∑ v ∈ P.members r, q.slopeAt (P.expand x) v := by
        simp only [mul_ite, mul_one, mul_zero]
        rw [hsize, Partition.members, Finset.sum_filter]

/-- From values for the regions and, for a direct term, from its residual at the expanded vector,
the gradient is found that the term has there. Premultiplied or not, the reduced term has at the
values of the regions the sums over the regions of that gradient. -/
theorem Fits.regionGradient?_reduces (hassignment : P.assignment.size = P.vertexCount)
    (hx : x.size = P.regionCount) {residual : Option (Vec K)}
    (hresidual : ∀ A y, q = direct A y → residual = some (residualOf A y (P.expand x))) :
    P.expand? x = .ok (P.expand x) ∧ ∃ g sums, q.gradientAt? (P.expand x) = .ok g ∧
      q.regionGradient? P (some x) residual = .ok g ∧ P.regionSums? g = .ok sums ∧
      ∀ premultiply, ∃ reduced, q.reduce? P premultiply = .ok reduced ∧
        reduced.1.gradientAt? x = .ok sums := by
  have hlt := hP.assignment_lt hindexed hassignment
  obtain ⟨g, hg, hsize, hentry⟩ := h.regionGradient?_eq_ok hsymm hP hindexed hlt hx hresidual
  refine ⟨Partition.expand?_eq_ok hx hlt, g, P.regionSums g,
    h.gradientAt?_eq_ok_of_slopeAt (P.size_expand x) hsize hentry, hg, regionSums?_eq_ok hsize,
    fun premultiply => ⟨_, h.reduce?_eq_ok premultiply, ?_⟩⟩
  refine (h.reduce premultiply).gradientAt?_eq_ok_of_slopeAt hx (P.size_regionSums g) fun r hr => ?_
  rw [h.slopeAt_reduce hP hindexed hsymm premultiply hr, P.entry_regionSums g hr]
  exact Finset.sum_congr rfl fun v hv => hentry v (Partition.mem_members.mp hv).1

omit hP hindexed h hsymm

/-- A path of three vertices, its ends in one region and its middle in another. -/
def separatedMiddle : Partition ℚ :=
  { Partition.whole ⟨#[0, 1, 2, 2], #[0, 1], #[1, 2]⟩ ⟨Option.none, (1 : ℚ)⟩ with
    assignment := #[0, 1, 0]
    regions := [[2, 0], [1]] }

theorem isArranged_separatedMiddle : separatedMiddle.IsArranged ∧ separatedMiddle.IsIndexed := by
  have hwhole : Partition.ofIndex? #[0, 1, 2, 2] #[1, 2] Option.none (1 : ℚ) =
      .ok (.whole ⟨#[0, 1, 2, 2], #[0, 1], #[1, 2]⟩ ⟨Option.none, 1⟩) := by with_unfolding_all rfl
  have hlt : ∀ r < separatedMiddle.regionCount, ∀ v ∈ separatedMiddle.region r, v < 3 := by decide
  have hregion : ∀ r < separatedMiddle.regionCount, ∀ v < 3,
      v ∈ separatedMiddle.region r ↔ separatedMiddle.regionOf v = r := by decide
  refine ⟨⟨(Partition.isArranged_of_ofIndex? hwhole).graph_valid, rfl, by decide, by decide⟩,
    fun r hr v => ⟨fun hv => ?_, fun hv => (hregion r hr v hv.1).mpr hv.2⟩⟩
  exact ⟨hlt r hr v hv, (hregion r hr v (hlt r hr v hv)).mp hv⟩

/-- The Gram term of the differences along a path, with a premultiplied observation. -/
def pathDifferences : Quadratic ℚ :=
  gram ⟨3, 3, #[#[1, -1, 0], #[-1, 2, -1], #[0, -1, 1]]⟩ (some #[1, 4, 2])

theorem regionGradient?_reduces_separatedMiddle :
    separatedMiddle.expand? #[0, 5] = .ok #[0, 5, 0] ∧ ∃ g sums,
      pathDifferences.gradientAt? #[0, 5, 0] = .ok g ∧
      pathDifferences.regionGradient? separatedMiddle (some #[0, 5]) Option.none = .ok g ∧
      separatedMiddle.regionSums? g = .ok sums ∧
      ∀ premultiply, ∃ reduced, pathDifferences.reduce? separatedMiddle premultiply = .ok reduced ∧
        reduced.1.gradientAt? #[0, 5] = .ok sums := by
  obtain ⟨harranged, hindexed⟩ := isArranged_separatedMiddle
  have hfits : pathDifferences.Fits separatedMiddle.vertexCount :=
    ⟨rfl, rfl, by rintro _ ⟨⟩; rfl⟩
  have hsymm : pathDifferences.IsSymmetric := by
    change ∀ i < 3, ∀ j < 3, _
    decide +kernel
  have hexpand : separatedMiddle.expand #[0, 5] = #[0, 5, 0] := by with_unfolding_all rfl
  have hx : (#[0, 5] : Vec ℚ).size = separatedMiddle.regionCount := rfl
  have hresidual : ∀ A y, pathDifferences = direct A y →
      Option.none = some (residualOf A y (separatedMiddle.expand #[0, 5])) := by rintro A y ⟨⟩
  have hreduces := Fits.regionGradient?_reduces harranged hindexed hfits hsymm rfl hx hresidual
  rwa [hexpand] at hreduces

end TotalVariation.Quadratic
