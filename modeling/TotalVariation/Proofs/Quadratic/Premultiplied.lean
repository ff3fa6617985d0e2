import Mathlib
import TotalVariation.Proofs.Quadratic.Accepted
import TotalVariation.Proofs.Quadratic.ReducedGradient

/-! # Direct and premultiplied terms

A direct term works with its design and the residual of its observation, a Gram term with the
products of the columns. Built from the same design and observation, they are the same function up
to the constant that the Gram term leaves out, and everything else that a solver asks them for is
the same: their coefficients along constant vectors, their gradients at the values of the regions,
and their premultiplied terms over the regions.
-/

namespace TotalVariation

variable {K : Type} [ExactField K]

namespace DenseMatrix

theorem ofFn_congr {α : Type} [Scalar α] {rows cols : ℕ} {f g : ℕ → ℕ → α}
    (h : ∀ i < rows, ∀ j < cols, f i j = g i j) : ofFn rows cols f = ofFn rows cols g := by
  have hrow : ∀ i < rows, Vec.tabulate cols (f i) = Vec.tabulate cols (g i) := fun i hi =>
    congrArg Array.ofFn (funext fun j => h i hi j j.isLt)
  exact congrArg (mk rows cols) (congrArg Array.ofFn (funext fun i => hrow i i.isLt))

/-- The upper triangle is all that is read of a square table. -/
theorem symmetrizeUpper_congr {M N : DenseMatrix K} (hrows : N.rows = M.rows)
    (hM : M.cols = M.rows) (hN : N.cols = N.rows)
    (h : ∀ i < M.rows, ∀ j < M.rows, M.entry i j = N.entry i j) :
    M.symmetrizeUpper = N.symmetrizeUpper := by
  rw [symmetrizeUpper, symmetrizeUpper, hN, hM, hrows]
  refine ofFn_congr fun i hi j hj => ?_
  rw [h i hi j hj, h j hj i hi]

end DenseMatrix

namespace Quadratic

variable {P : Partition K} {A : DenseMatrix K} {x y : Vec K}

/-- The Gram term of a design and an observation. -/
def premultiplied (A : DenseMatrix K) (y : Vec K) : Quadratic K :=
  gram A.columnProducts (some (A.transposeMulVec y))

theorem fits_premultiplied (A : DenseMatrix K) (y : Vec K) : (premultiplied A y).Fits A.cols := by
  refine ⟨rfl, rfl, ?_⟩
  rintro _ ⟨⟩
  exact Vec.size_tabulate _ _

theorem columnProducts_comm (A : DenseMatrix K) {i j : ℕ} (hi : i < A.cols) (hj : j < A.cols) :
    A.columnProducts.entry i j = A.columnProducts.entry j i := by
  rw [A.entry_columnProducts hi hj, A.entry_columnProducts hj hi]
  exact Finset.sum_congr rfl fun k _ => mul_comm _ _

theorem isSymmetric_premultiplied (A : DenseMatrix K) (y : Vec K) :
    (premultiplied A y).IsSymmetric :=
  fun _ hi _ hj => columnProducts_comm A hi hj

/-! ## The table of products -/

/-- The shaped array of the products of the columns. -/
def productTable (A : DenseMatrix K) : Tensor K :=
  ⟨[A.cols, A.cols],
    Vec.tabulate (A.cols * A.cols) fun k => A.columnProducts.entry (k / A.cols) (k % A.cols)⟩

theorem table_productTable (A : DenseMatrix K) :
    table A.cols A.cols (productTable A).entries = A.columnProducts := by
  refine DenseMatrix.ofFn_congr fun i hi j hj => ?_
  have hentry := entry_table_tabulate A.columnProducts.entry hi hj
  rw [table, DenseMatrix.entry_ofFn, if_pos hi, if_pos hj, A.entry_columnProducts hi hj] at hentry
  rw [Vec.total_eq]
  exact hentry

/-- The products of the columns, named as such, are accepted without a word. -/
theorem build_premultiplied (A : DenseMatrix K) (y : Vec K) (scale : K) :
    build ⟨some (.ofArray (A.transposeMulVec y)), some (productTable A), scale, some "gram",
      some (Int.ofNat A.cols)⟩ = ([], .ok (premultiplied A y)) := by
  have hgram : gramMatrix? (productTable A) = .ok (A.columnProducts, []) := by
    change (if A.cols = A.cols then if isSymmetric (table A.cols A.cols (productTable A).entries)
      then _ else _ else _) = _
    rw [if_pos rfl, table_productTable, if_pos (isSymmetric_of_comm fun i hi j hj =>
      columnProducts_comm A hi hj)]
    rfl
  rw [build_gram rfl rfl hgram]
  exact Prod.ext rfl (fits_premultiplied A y).checked?_eq_ok

/-- The direct term keeps the constant that the Gram term leaves out. -/
theorem valueAt_direct_eq (hx : x.size = A.cols) (hy : y.size = A.rows) :
    (direct A y).valueAt x = (premultiplied A y).valueAt x + Vec.dot y y / 2 := by
  have hdirect : (direct A y).Fits A.cols := ⟨rfl, hy⟩
  have hoffset : (direct A y).offset = Vec.dot y y / 2 := by rw [offset, Vec.dot_eq, hy]
  have hoffset' : (premultiplied A y).offset = 0 := rfl
  rw [hdirect.valueAt_eq x hx, (fits_premultiplied A y).valueAt_eq x hx, hoffset, hoffset',
    add_zero]
  rfl

/-! ## Over the regions -/

section Regions

variable (hP : P.IsArranged) (hindexed : P.IsIndexed) (hcols : A.cols = P.vertexCount)
include hP hindexed hcols

/-- The products of the columns of the regions are the products of the columns added up. -/
theorem entry_columnProducts_regionColumns {r s : ℕ} (hr : r < P.regionCount)
    (hs : s < P.regionCount) : (regionColumns P A).columnProducts.entry r s =
      ∑ u ∈ P.members r, ∑ v ∈ P.members s, A.columnProducts.entry u v := by
  have hlt : ∀ {t v}, v ∈ P.members t → v < A.cols := fun hv =>
    hcols ▸ (Partition.mem_members.mp hv).1
  rw [DenseMatrix.entry_columnProducts _ hr hs]
  calc ∑ k ∈ Finset.range A.rows, (regionColumns P A).entry k r * (regionColumns P A).entry k s
      = ∑ k ∈ Finset.range A.rows, ∑ u ∈ P.members r, ∑ v ∈ P.members s,
          A.entry k u * A.entry k v := by
        refine Finset.sum_congr rfl fun k hk => ?_
        have hrow : k < A.rows := Finset.mem_range.mp hk
        rw [entry_regionColumns hP hindexed A hrow hr, entry_regionColumns hP hindexed A hrow hs,
          Finset.sum_mul_sum]
    _ = ∑ u ∈ P.members r, ∑ v ∈ P.members s, ∑ k ∈ Finset.range A.rows,
          A.entry k u * A.entry k v := by
        rw [Finset.sum_comm]
        exact Finset.sum_congr rfl fun u _ => Finset.sum_comm
    _ = ∑ u ∈ P.members r, ∑ v ∈ P.members s, A.columnProducts.entry u v :=
        Finset.sum_congr rfl fun u hu => Finset.sum_congr rfl fun v hv =>
          (A.entry_columnProducts (hlt hu) (hlt hv)).symm

/-- The observation premultiplied by the columns of the regions is the premultiplied observation
added up. -/
theorem transposeMulVec_regionColumns (y : Vec K) :
    (regionColumns P A).transposeMulVec y = P.regionSums (A.transposeMulVec y) := by
  have hcount : ((regionColumns P A).transposeMulVec y).size = P.regionCount :=
    Vec.size_tabulate _ _
  refine Vec.ext_entry (hcount.trans (P.size_regionSums _).symm) fun r hr => ?_
  rw [hcount] at hr
  rw [DenseMatrix.entry_transposeMulVec _ y hr, P.entry_regionSums _ hr]
  calc ∑ k ∈ Finset.range A.rows, (regionColumns P A).entry k r * Vec.entry y k
      = ∑ k ∈ Finset.range A.rows, ∑ v ∈ P.members r, A.entry k v * Vec.entry y k := by
        refine Finset.sum_congr rfl fun k hk => ?_
        rw [entry_regionColumns hP hindexed A (Finset.mem_range.mp hk) hr, Finset.sum_mul]
    _ = ∑ v ∈ P.members r, ∑ k ∈ Finset.range A.rows, A.entry k v * Vec.entry y k :=
        Finset.sum_comm
    _ = ∑ v ∈ P.members r, Vec.entry (A.transposeMulVec y) v :=
        Finset.sum_congr rfl fun v hv => (A.entry_transposeMulVec y
          (hcols ▸ (Partition.mem_members.mp hv).1)).symm

/-- Premultiplied before or after the columns are added up, the term over the regions is the same.
-/
theorem reduce_direct_eq (y : Vec K) (premultiply : Bool) :
    (direct A y).reduce P true =
      (((premultiplied A y).reduce P premultiply).1, some (regionColumns P A)) := by
  have htable : (regionColumns P A).columnProducts.symmetrizeUpper =
      (regionRows P (regionRows P A.columnProducts).transpose).symmetrizeUpper := by
    refine DenseMatrix.symmetrizeUpper_congr rfl rfl rfl fun r hr s hs => ?_
    rw [entry_columnProducts_regionColumns hP hindexed hcols hr hs,
      entry_regionRows_transpose (H := A.columnProducts) hP hindexed hcols hcols
        (isSymmetric_premultiplied A y) hr hs]
  rw [reduce, transposeMulVec_regionColumns hP hindexed hcols, htable]
  rfl

/-- The direct and the Gram term of a design and an observation agree: the latter is what the
products of the columns build, and the two have the same coefficients along constant vectors. From
values for the regions, and for the direct term from its residual at the expanded vector, both find
the same gradient, and values that differ by half the square of the observation. Over the regions
both become the same Gram term when the direct one is premultiplied. -/
theorem direct_agrees_premultiplied (hassignment : P.assignment.size = P.vertexCount)
    (hy : y.size = A.rows) (hx : x.size = P.regionCount) :
    (∀ scale, build ⟨some (.ofArray (A.transposeMulVec y)), some (productTable A), scale,
        some "gram", some (Int.ofNat P.vertexCount)⟩ = ([], .ok (premultiplied A y))) ∧
      (direct A y).constantPart.1 = (premultiplied A y).constantPart.1 ∧
      (direct A y).constantPart.2.1 = (premultiplied A y).constantPart.2.1 ∧
      (∃ X R, P.expand? x = .ok X ∧ (direct A y).residual? X = .ok R ∧
        ∃ g value, (direct A y).regionGradient? P (some x) (some R) = .ok g ∧
          (direct A y).regionValue? P (some x) (some R) = .ok (value + Vec.dot y y / 2) ∧
          ∀ residual, (premultiplied A y).regionGradient? P (some x) residual = .ok g ∧
            (premultiplied A y).regionValue? P (some x) residual = .ok value) ∧
      ∃ reduced, (direct A y).reduce? P true = .ok (reduced, some (regionColumns P A)) ∧
        ∀ premultiply, (premultiplied A y).reduce? P premultiply = .ok (reduced, Option.none) := by
  have hdirect : (direct A y).Fits P.vertexCount := ⟨hcols, hy⟩
  have hgram : (premultiplied A y).Fits P.vertexCount := hcols ▸ fits_premultiplied A y
  have hsymm := isSymmetric_premultiplied A y
  have hlt := hP.assignment_lt hindexed hassignment
  have hX := P.size_expand x
  have hresidual : ∀ B z, direct A y = direct B z →
      some (residualOf A y (P.expand x)) = some (residualOf B z (P.expand x)) := by
    rintro _ _ ⟨⟩
    rfl
  have hnone : ∀ {residual : Option (Vec K)}, ∀ B z, premultiplied A y = direct B z →
      residual = some (residualOf B z (P.expand x)) := by
    rintro _ _ _ ⟨⟩
  obtain ⟨hconstant, hsquare⟩ := hdirect.constantPart_eq
  obtain ⟨hconstant', hsquare'⟩ := hgram.constantPart_eq
  refine ⟨fun scale => hcols ▸ build_premultiplied A y scale, hconstant.trans hconstant'.symm,
    hsquare.trans hsquare'.symm, ⟨P.expand x, residualOf A y (P.expand x),
      Partition.expand?_eq_ok hx hlt, if_pos (hX.trans hcols.symm), ?_⟩, ?_⟩
  · obtain ⟨g, hg, hsize, hentry⟩ :=
      hdirect.regionGradient?_eq_ok trivial hP hindexed hlt hx hresidual
    refine ⟨g, (premultiplied A y).valueAt (P.expand x), hg, ?_, fun residual => ⟨?_, ?_⟩⟩
    · rw [hdirect.regionValue?_eq_ok trivial hP hindexed hx hresidual,
        valueAt_direct_eq (hX.trans hcols.symm) hy]
    · obtain ⟨g', hg', hsize', hentry'⟩ :=
        hgram.regionGradient?_eq_ok hsymm hP hindexed hlt hx hnone
      rw [hg', Vec.ext_entry (hsize'.trans hsize.symm) fun v hv => ?_]
      rw [hsize'] at hv
      exact (hentry' v hv).trans (hentry v hv).symm
    · exact hgram.regionValue?_eq_ok hsymm hP hindexed hx hnone
  · refine ⟨_, (hdirect.reduce?_eq_ok true).trans
      (congrArg Except.ok (reduce_direct_eq hP hindexed hcols y true)), fun premultiply => ?_⟩
    exact hgram.reduce?_eq_ok premultiply

end Regions

/-- A design with two observations of three vertices. -/
def twoObservations : DenseMatrix ℚ := ⟨2, 3, #[#[1, 2, -1], #[0, 1, 3]]⟩

theorem direct_agrees_premultiplied_twoObservations :
    (∀ scale, build ⟨some (.ofArray (twoObservations.transposeMulVec #[4, -2])),
        some (productTable twoObservations), scale, some "gram",
        some (Int.ofNat separatedMiddle.vertexCount)⟩ =
          ([], .ok (premultiplied twoObservations #[4, -2]))) ∧
      (direct twoObservations #[4, -2]).constantPart.1 =
        (premultiplied twoObservations #[4, -2]).constantPart.1 ∧
      (direct twoObservations #[4, -2]).constantPart.2.1 =
        (premultiplied twoObservations #[4, -2]).constantPart.2.1 ∧
      (∃ X R, separatedMiddle.expand? #[1, 5] = .ok X ∧
        (direct twoObservations #[4, -2]).residual? X = .ok R ∧
        ∃ g value, (direct twoObservations #[4, -2]).regionGradient? separatedMiddle
            (some #[1, 5]) (some R) = .ok g ∧
          (direct twoObservations #[4, -2]).regionValue? separatedMiddle (some #[1, 5]) (some R) =
            .ok (value + Vec.dot #[4, -2] #[4, -2] / 2) ∧
          ∀ residual, (premultiplied twoObservations #[4, -2]).regionGradient? separatedMiddle
              (some #[1, 5]) residual = .ok g ∧
            (premultiplied twoObservations #[4, -2]).regionValue? separatedMiddle (some #[1, 5])
              residual = .ok value) ∧
      ∃ reduced, (direct twoObservations #[4, -2]).reduce? separatedMiddle true =
          .ok (reduced, some (regionColumns separatedMiddle twoObservations)) ∧
        ∀ premultiply, (premultiplied twoObservations #[4, -2]).reduce? separatedMiddle
          premultiply = .ok (reduced, Option.none) :=
  direct_agrees_premultiplied isArranged_separatedMiddle.1 isArranged_separatedMiddle.2 rfl rfl rfl
    rfl

end Quadratic
end TotalVariation
