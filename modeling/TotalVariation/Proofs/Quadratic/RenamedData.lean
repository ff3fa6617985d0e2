import Mathlib
import TotalVariation.Proofs.Quadratic.Accepted
import TotalVariation.Proofs.Quadratic.Renaming

/-! # Data of a quadratic term under another description

The data of one term can be given with its variables under other names: a premultiplied observation
and a diagonal are renamed, a table of products in its rows and columns, a design in its columns
only, as its rows belong to observations that keep their places. If both are accepted, one term is
the other with its variables renamed.
-/

namespace TotalVariation

open Quadratic

variable {K : Type} [ExactField K] {π : Equiv.Perm ℕ} {n : ℕ} {data data' : QuadraticData K}

/-- The observations of two data, the second under new names. -/
def QuadraticData.RenamesObservation (π : Equiv.Perm ℕ) (data data' : QuadraticData K) : Prop :=
  Option.Rel (Renames π) (data.observation.map (·.entries)) (data'.observation.map (·.entries))

/-- The second data are the first, of a term of the given kind over `n` variables, with the
variables renamed. A table of products is symmetric. -/
inductive QuadraticData.RenamesAs (π : Equiv.Perm ℕ) (n : ℕ) (data data' : QuadraticData K) :
    Kind → Prop
  | none : RenamesAs π n data data' .none
  | identity (scale : dataScale data' = dataScale data)
      (observation : RenamesObservation π data data') : RenamesAs π n data data' .identity
  | diagonal {t t' : Tensor K} (matrix : dataMatrix data = some t)
      (matrix' : dataMatrix data' = some t')
      (entries : TotalVariation.Renames π t.entries t'.entries)
      (observation : RenamesObservation π data data') : RenamesAs π n data data' .diagonal
  | gram {t t' : Tensor K} (matrix : dataMatrix data = some t)
      (matrix' : dataMatrix data' = some t') (shape : t.shape = [n, n]) (shape' : t'.shape = [n, n])
      (comm : ∀ i < n, ∀ j < n, (table n n t.entries).entry i j = (table n n t.entries).entry j i)
      (entry : ∀ i < n, ∀ j < n,
        (table n n t'.entries).entry (π i) (π j) = (table n n t.entries).entry i j)
      (observation : RenamesObservation π data data') : RenamesAs π n data data' .gram
  | direct {rows : ℕ} {t t' : Tensor K} (matrix : dataMatrix data = some t)
      (matrix' : dataMatrix data' = some t') (shape : t.shape = [rows, n])
      (shape' : t'.shape = [rows, n])
      (entry : ∀ k < rows, ∀ i < n,
        (table rows n t'.entries).entry k (π i) = (table rows n t.entries).entry k i)
      (observation : data'.observation.map (·.entries) = data.observation.map (·.entries)) :
      RenamesAs π n data data' .direct

/-- The second data are the first with the `n` variables renamed, and both ask for one kind of
term. -/
def QuadraticData.Renames (π : Equiv.Perm ℕ) (n : ℕ) (data data' : QuadraticData K) : Prop :=
  ∃ k, dataKind? data = .ok k ∧ dataKind? data' = .ok k ∧ data.RenamesAs π n data' k

namespace Quadratic

/-- A missing observation counts as zero. -/
theorem entry_linearPart_renames (hπ : Preserves π n) {y y' : Option (Vec K)}
    (h : Option.Rel (TotalVariation.Renames π) y y') (i : ℕ) :
    Vec.entry (linearPart n y') (π i) = Vec.entry (linearPart n y) i := by
  cases h with
  | none => exact (TotalVariation.Renames.replicate hπ 0).entry_eq i
  | some hy => exact hy.entry_eq i

/-- A table of products that is symmetric is symmetric under other names. -/
theorem comm_of_renames (hπ : Preserves π n) {M M' : DenseMatrix K}
    (h : ∀ i < n, ∀ j < n, M.entry i j = M.entry j i)
    (hentry : ∀ i < n, ∀ j < n, M'.entry (π i) (π j) = M.entry i j) :
    ∀ i < n, ∀ j < n, M'.entry i j = M'.entry j i := by
  intro i hi j hj
  obtain ⟨u, hu, rfl⟩ := hπ.exists_eq hi
  obtain ⟨v, hv, rfl⟩ := hπ.exists_eq hj
  rw [hentry u hu v hv, hentry v hv u hu, h u hu v hv]

/-! ## Terms of one kind -/

theorem renames_none (hπ : Preserves π n) : (none n : Quadratic K).Renames π n (none n) := by
  refine .premultiplied ⟨rfl, trivial, rfl⟩ ⟨rfl, trivial, rfl⟩ (fun i _ j _ => ?_) fun i _ => ?_
  · rw [entry_hessian_none, entry_hessian_none]
  · exact (TotalVariation.Renames.replicate hπ 0).entry_eq i

section Observed

variable {y y' : Option (Vec K)} (hπ : Preserves π n)
  (hy : Option.Rel (TotalVariation.Renames π) y y')

include hπ hy

theorem renames_identity {a : K} (hq : (identity n a y).Fits n) (hq' : (identity n a y').Fits n) :
    (identity n a y).Renames π n (identity n a y') := by
  refine .premultiplied ⟨hq, trivial, rfl⟩ ⟨hq', trivial, rfl⟩ (fun i hi j hj => ?_)
    fun i _ => entry_linearPart_renames hπ hy i
  rw [entry_hessian_identity _ _ ((hπ i).mpr hi) ((hπ j).mpr hj), entry_hessian_identity _ _ hi hj]
  simp only [π.apply_eq_iff_eq]

theorem renames_diagonal {d d' : Vec K} (hq : (diagonal d y).Fits n) (hq' : (diagonal d' y').Fits n)
    (hd : TotalVariation.Renames π d d') : (diagonal d y).Renames π n (diagonal d' y') := by
  have hsize : d.size = n := hq.1
  have hsize' : d'.size = n := hq'.1
  refine .premultiplied ⟨hq, trivial, rfl⟩ ⟨hq', trivial, rfl⟩ (fun i hi j hj => ?_) fun i _ => ?_
  · rw [entry_hessian_diagonal _ _ (hsize'.symm ▸ (hπ i).mpr hi) (hsize'.symm ▸ (hπ j).mpr hj),
      entry_hessian_diagonal _ _ (hsize.symm ▸ hi) (hsize.symm ▸ hj), hd.entry_eq]
    simp only [π.apply_eq_iff_eq]
  · rw [linear, linear, hsize, hsize']
    exact entry_linearPart_renames hπ hy i

theorem renames_gram {M M' : DenseMatrix K} (hq : (gram M y).Fits n) (hq' : (gram M' y').Fits n)
    (hcomm : ∀ i < n, ∀ j < n, M.entry i j = M.entry j i)
    (hentry : ∀ i < n, ∀ j < n, M'.entry (π i) (π j) = M.entry i j) :
    (gram M y).Renames π n (gram M' y') := by
  have hrows : M.rows = n := hq.1
  have hrows' : M'.rows = n := hq'.1
  have hcomm' := comm_of_renames hπ hcomm hentry
  refine .premultiplied ⟨hq, fun i hi j hj => hcomm i (hrows ▸ hi) j (hrows ▸ hj), rfl⟩
    ⟨hq', fun i hi j hj => hcomm' i (hrows' ▸ hi) j (hrows' ▸ hj), rfl⟩ hentry fun i _ => ?_
  rw [linear, linear, hrows, hrows']
  exact entry_linearPart_renames hπ hy i

end Observed

/-! ## Terms that are built -/

variable {q q' : Quadratic K} {k : Kind}

/-- Terms that fit and are spelled by data of one term are one term. -/
theorem renames_of_spells (hπ : Preserves π n) (hq : q.Fits n) (hq' : q'.Fits n)
    (h : data.RenamesAs π n data' k) (hspells : Spells data n q k)
    (hspells' : Spells data' n q' k) : q.Renames π n q' := by
  cases h with
  | none =>
      obtain rfl := hspells
      obtain rfl := hspells'
      exact renames_none hπ
  | identity scale observation =>
      obtain rfl := hspells
      obtain rfl := hspells'
      rw [scale] at hq' ⊢
      exact renames_identity hπ observation hq hq'
  | diagonal matrix matrix' entries observation =>
      obtain ⟨d, hd, rfl⟩ := hspells
      obtain ⟨d', hd', rfl⟩ := hspells'
      obtain rfl := Option.some.inj (matrix.symm.trans hd)
      obtain rfl := Option.some.inj (matrix'.symm.trans hd')
      exact renames_diagonal hπ observation hq hq' entries
  | gram matrix matrix' shape shape' comm entry observation =>
      obtain ⟨u, M, events, hu, hM, rfl⟩ := hspells
      obtain ⟨u', M', events', hu', hM', rfl⟩ := hspells'
      obtain rfl := Option.some.inj (matrix.symm.trans hu)
      obtain rfl := Option.some.inj (matrix'.symm.trans hu')
      have comm' := comm_of_renames hπ comm entry
      obtain ⟨rfl, -⟩ :=
        Prod.mk.inj (Except.ok.inj ((gramMatrix?_of_comm shape comm).symm.trans hM))
      obtain ⟨rfl, -⟩ :=
        Prod.mk.inj (Except.ok.inj ((gramMatrix?_of_comm shape' comm').symm.trans hM'))
      exact renames_gram hπ observation hq hq' comm entry
  | @direct rows t t' matrix matrix' shape shape' entry observation =>
      obtain ⟨u, hu, hdesign⟩ := hspells
      obtain ⟨u', hu', hdesign'⟩ := hspells'
      obtain rfl := Option.some.inj (matrix.symm.trans hu)
      obtain rfl := Option.some.inj (matrix'.symm.trans hu')
      obtain ⟨r, c, hshape, rfl, hsize⟩ := direct?_eq_ok hdesign
      obtain ⟨r', c', hshape', rfl, hsize'⟩ := direct?_eq_ok hdesign'
      obtain ⟨rfl, rfl⟩ : rows = r ∧ n = c := by simpa using shape.symm.trans hshape
      obtain ⟨rfl, rfl⟩ : rows = r' ∧ n = c' := by simpa using shape'.symm.trans hshape'
      rw [observation]
      exact .direct hsize rfl rfl rfl entry

/-- Terms that are built from data of one term are one term. -/
theorem renames_of_build (hπ : Preserves π n) (hn : data.vertices = some (Int.ofNat n))
    (hn' : data'.vertices = some (Int.ofNat n)) (h : data.Renames π n data')
    (hq : (build data).2 = .ok q) (hq' : (build data').2 = .ok q') : q.Renames π n q' := by
  obtain ⟨k, hkind, hkind', h⟩ := h
  obtain ⟨l, hl, hspells, -⟩ := exists_spells hn hq
  obtain ⟨l', hl', hspells', -⟩ := exists_spells hn' hq'
  obtain rfl := Except.ok.inj (hkind.symm.trans hl)
  obtain rfl := Except.ok.inj (hkind'.symm.trans hl')
  exact renames_of_spells hπ (fits_of_build hn hq) (fits_of_build hn' hq') h hspells hspells'

end Quadratic
end TotalVariation
