import Mathlib
import TotalVariation.Proofs.Failure
import TotalVariation.Proofs.Quadratic.Expansion
import TotalVariation.Quadratic.Build

/-! # Accepted quadratic terms

The data of a quadratic term are checked against each other and against the number of vertices. A
term that is accepted fits: each of its parts has the length that the others ask for.
-/

namespace TotalVariation.Quadratic

variable {α : Type} {q p : Quadratic α} {n : ℕ}

theorem checked?_eq_ok (h : checked? (some (Int.ofNat n)) q = .ok p) :
    p = q ∧ q.size = n ∧ (q.isDirect = false → ∀ l ∈ q.observation?, l.size = n) := by
  unfold checked? at h
  dsimp only at h
  rw [test_eq_ok] at h
  obtain ⟨hcount, h⟩ := h
  have hsize : q.size = n := Int.ofNat.inj (not_not.mp hcount)
  have hlinear : ∀ y : Vec α, (if y.size ≠ q.size then
      throw (Failure.premultipliedShape q.size y.size) else pure q : Except (Failure α) _) = .ok p →
      p = q ∧ y.size = n := by
    intro y h
    split at h
    next => cases h
    next hfits => exact ⟨(Except.ok.inj h).symm, (not_not.mp hfits).trans hsize⟩
  split at h
  next => exact ⟨(Except.ok.inj h).symm, hsize, fun hplain => by cases hplain⟩
  next y _ hy =>
    obtain ⟨rfl, hfits⟩ := hlinear y h
    refine ⟨rfl, hsize, fun _ l hl => ?_⟩
    obtain rfl := Option.some.inj (hy.symm.trans hl)
    exact hfits
  next hnone =>
    refine ⟨(Except.ok.inj h).symm, hsize, fun _ l hl => ?_⟩
    rw [hnone] at hl
    cases hl

/-- A term that fits passes the check. -/
theorem Fits.checked?_eq_ok (h : q.Fits n) : checked? (some (Int.ofNat n)) q = .ok q := by
  have hcount : ¬(q.size : ℤ) ≠ Int.ofNat n := not_not.mpr (congrArg Int.ofNat h.size_eq)
  have hlinear : ∀ y : Vec α, y.size = n → (if y.size ≠ q.size then
      throw (Failure.premultipliedShape q.size y.size) else pure q : Except (Failure α) _) = .ok q :=
    fun y hy => if_neg (not_not.mpr (hy.trans h.size_eq.symm))
  unfold checked?
  dsimp only
  rw [if_neg hcount]
  cases q with
  | none m => rfl
  | direct A y => rfl
  | identity m a y =>
      cases y with
      | none => rfl
      | some l => exact hlinear l (h.2 l rfl)
  | diagonal d y =>
      cases y with
      | none => rfl
      | some l => exact hlinear l (h.2 l rfl)
  | gram H y =>
      cases y with
      | none => rfl
      | some l => exact hlinear l (h.2.2 l rfl)

section Exact

variable {K : Type} [ExactField K]

/-- The table whose entries are listed row by row. -/
theorem entry_table_tabulate {rows cols : ℕ} (f : ℕ → ℕ → K) {i j : ℕ} (hi : i < rows)
    (hj : j < cols) :
    (table rows cols (Vec.tabulate (rows * cols) fun k => f (k / cols) (k % cols))).entry i j =
      f i j := by
  have hlt : i * cols + j < rows * cols := by nlinarith
  have hdiv : (i * cols + j) / cols = i := by
    rw [Nat.mul_comm, Nat.mul_add_div (by omega), Nat.div_eq_of_lt hj, Nat.add_zero]
  have hmod : (i * cols + j) % cols = j := by
    rw [Nat.mul_comm, Nat.mul_add_mod, Nat.mod_eq_of_lt hj]
  rw [table, DenseMatrix.entry_ofFn, if_pos hi, if_pos hj, Vec.entry_tabulate, if_pos hlt, hdiv,
    hmod]

/-- No rounding is needed to see that a table with equal opposite entries is symmetric. -/
theorem isSymmetric_of_comm {M : DenseMatrix K}
    (h : ∀ i < M.rows, ∀ j < M.cols, M.entry i j = M.entry j i) : isSymmetric M = true := by
  refine List.all_eq_true.mpr fun i hi => List.all_eq_true.mpr fun j hj => ?_
  have hsame := h i (List.mem_range.mp hi) j (List.mem_range.mp hj)
  rw [agree, (Scalar.same_iff _ _).mpr hsame, Bool.or_true]

/-- A symmetric table of products is taken as it is. -/
theorem gramMatrix?_of_comm {t : Tensor K} (hshape : t.shape = [n, n])
    (h : ∀ i < n, ∀ j < n, (table n n t.entries).entry i j = (table n n t.entries).entry j i) :
    gramMatrix? t = .ok (table n n t.entries, []) := by
  have hsymmetric : isSymmetric (table n n t.entries) = true := isSymmetric_of_comm h
  unfold gramMatrix?
  rw [hshape]
  dsimp only
  rw [if_pos rfl, if_pos hsymmetric]
  rfl

end Exact

variable [Scalar α]

/-- A table of products that is accepted is square. -/
theorem gramMatrix?_eq_ok {t : Tensor α} {M : DenseMatrix α} {events : List (Event α)}
    (h : gramMatrix? t = .ok (M, events)) : M.cols = M.rows := by
  unfold gramMatrix? at h
  split at h
  next =>
    split at h
    next =>
      dsimp only at h
      split at h
      next =>
        obtain ⟨rfl, -⟩ := Prod.mk.inj (Except.ok.inj h)
        rfl
      next =>
        obtain ⟨rfl, -⟩ := Prod.mk.inj (Except.ok.inj h)
        rfl
    next => cases h
  next => cases h

theorem build_gram {data : QuadraticData α} {t : Tensor α} {M : DenseMatrix α}
    {events : List (Event α)} (hkind : dataKind? data = .ok .gram) (hmatrix : dataMatrix data = some t)
    (hgram : gramMatrix? t = .ok (M, events)) :
    build data =
      (events, checked? data.vertices (.gram M (data.observation.map (·.entries)))) := by
  unfold build
  rw [hkind]
  dsimp only
  rw [hmatrix]
  dsimp only
  rw [hgram]

/-- A design that is accepted is a table with a row for each observation. -/
theorem direct?_eq_ok {observation : Option (Vec α)} {t : Tensor α}
    (h : direct? observation t = .ok q) : ∃ rows cols, t.shape = [rows, cols] ∧
      q = .direct (table rows cols t.entries) (observation.getD (Vec.constant rows 0)) ∧
      (observation.getD (Vec.constant rows 0)).size = rows := by
  unfold direct? at h
  split at h
  next rows cols hshape =>
    dsimp only at h
    rw [test_eq_ok] at h
    exact ⟨rows, cols, hshape, (Except.ok.inj h.2).symm, not_not.mp h.1⟩
  next => cases h

/-- The data spell the term over `n` variables, as one of the given kind. -/
def Spells (data : QuadraticData α) (n : ℕ) (q : Quadratic α) : Kind → Prop
  | .none => q = .none n
  | .identity => q = .identity n (dataScale data) (data.observation.map (·.entries))
  | .diagonal => ∃ t, dataMatrix data = some t ∧
      q = .diagonal t.entries (data.observation.map (·.entries))
  | .gram => ∃ t M events, dataMatrix data = some t ∧ gramMatrix? t = .ok (M, events) ∧
      q = .gram M (data.observation.map (·.entries))
  | .direct => ∃ t, dataMatrix data = some t ∧
      direct? (data.observation.map (·.entries)) t = .ok q

/-- A term that is built is spelled by its data, and has passed the check. -/
theorem exists_spells {data : QuadraticData α} (hn : data.vertices = some (Int.ofNat n))
    (h : (build data).2 = .ok q) : ∃ k, dataKind? data = .ok k ∧ Spells data n q k ∧ q.size = n ∧
      (q.isDirect = false → ∀ l ∈ q.observation?, l.size = n) := by
  have hcount : ∀ {m}, vertexCount? data = .ok m → m = n := by
    intro m hm
    rw [vertexCount?, hn] at hm
    exact (Except.ok.inj hm).symm
  unfold build at h
  rw [hn] at h
  dsimp only at h
  split at h
  next => cases h
  next hkind =>
    obtain ⟨m, hm, rfl⟩ := map_eq_ok.mp h
    obtain rfl := hcount hm
    exact ⟨_, hkind, rfl, rfl, fun _ l hl => by cases hl⟩
  next hkind =>
    obtain ⟨m, hm, h⟩ := bind_eq_ok.mp h
    obtain rfl := hcount hm
    obtain ⟨rfl, hchecked⟩ := checked?_eq_ok h
    exact ⟨_, hkind, rfl, hchecked⟩
  next k hnone hidentity hkind =>
    split at h
    next => cases h
    next t hmatrix =>
      split at h
      next =>
        split at h
        next => cases h
        next M events hgram =>
          obtain ⟨rfl, hchecked⟩ := checked?_eq_ok h
          exact ⟨_, hkind, ⟨t, M, events, hmatrix, hgram, rfl⟩, hchecked⟩
      next =>
        obtain ⟨p, hp, h⟩ := bind_eq_ok.mp h
        obtain ⟨rfl, hchecked⟩ := checked?_eq_ok h
        exact ⟨_, hkind, ⟨t, hmatrix, hp⟩, hchecked⟩
      next hgram hdirect =>
        obtain ⟨rfl, hchecked⟩ := checked?_eq_ok h
        cases k with
        | none => exact absurd rfl hnone
        | identity => exact absurd rfl hidentity
        | gram => exact absurd rfl hgram
        | direct => exact absurd rfl hdirect
        | diagonal => exact ⟨_, hkind, ⟨t, hmatrix, rfl⟩, hchecked⟩

/-- A term that is built for so many vertices fits them. -/
theorem fits_of_build {data : QuadraticData α} (hn : data.vertices = some (Int.ofNat n))
    (h : (build data).2 = .ok q) : q.Fits n := by
  obtain ⟨k, -, hspells, hsize, hlinear⟩ := exists_spells hn h
  cases k with
  | none =>
      obtain rfl := hspells
      rfl
  | identity =>
      obtain rfl := hspells
      exact ⟨hsize, hlinear rfl⟩
  | diagonal =>
      obtain ⟨t, -, rfl⟩ := hspells
      exact ⟨hsize, hlinear rfl⟩
  | gram =>
      obtain ⟨t, M, events, -, hgram, rfl⟩ := hspells
      exact ⟨hsize, (gramMatrix?_eq_ok hgram).trans hsize, hlinear rfl⟩
  | direct =>
      obtain ⟨t, -, hdesign⟩ := hspells
      obtain ⟨rows, cols, -, rfl, hrows⟩ := direct?_eq_ok hdesign
      exact ⟨hsize, hrows⟩

end TotalVariation.Quadratic
