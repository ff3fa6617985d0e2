import Mathlib
import TotalVariation.Numeric.Vec

/-! # Exact scalars

In exact arithmetic the scalars are an ordered field; every value is an ordinary number. The square
root is any function, since it enters only into norms that are compared with tolerances.
-/

namespace TotalVariation

/-- An ordered field with a function that stands for the square root. -/
class ExactField (K : Type) extends Field K, LinearOrder K, IsStrictOrderedRing K where
  /-- The function that stands for the square root. -/
  root : K → K

namespace ExactField

variable {K : Type} [ExactField K]

instance : Scalar K where
  add := (· + ·)
  sub := (· - ·)
  mul := (· * ·)
  div := (· / ·)
  neg := (- ·)
  zero := 0
  one := 1
  natCast := Nat.cast
  le := (· ≤ ·)
  lt := (· < ·)
  decidableLE := inferInstance
  decidableLT := inferInstance
  sqrt := root
  isFinite _ := true

end ExactField

/-- The rational numbers, with the square root of numerator and denominator rounded down. -/
instance : ExactField ℚ where
  root := Rat.sqrt

variable {K : Type} [ExactField K]

namespace Scalar

theorem abs_eq (a : K) : Scalar.abs a = |a| := by
  unfold Scalar.abs
  split
  next h => exact (abs_of_pos h).symm
  next h =>
    rw [zero_sub]
    exact (abs_of_nonpos (not_lt.mp h)).symm

theorem max_eq (a b : K) : Scalar.max a b = Max.max a b := by
  unfold Scalar.max
  split
  next h => exact (max_eq_left h).symm
  next h =>
    have hab : a ≤ b := le_of_not_ge h
    rw [if_pos (le_refl a), max_eq_right hab]

theorem min_eq (a b : K) : Scalar.min a b = Min.min a b := by
  unfold Scalar.min
  split
  next h => exact (min_eq_left h).symm
  next h =>
    have hba : b ≤ a := le_of_not_ge h
    rw [if_pos (le_refl a), min_eq_right hba]

theorem half_eq (a : K) : Scalar.half a = a / 2 := by
  unfold Scalar.half Scalar.two
  rw [one_add_one_eq_two]

theorem same_iff (a b : K) : Scalar.same a b = true ↔ a = b := by
  rw [Scalar.same, Bool.and_eq_true, decide_eq_true_eq, decide_eq_true_eq, ← le_antisymm_iff]

theorem sign_eq (a : K) : Scalar.sign a = if 0 < a then 1 else if a < 0 then -1 else 0 := by
  unfold Scalar.sign
  split
  next => rfl
  next hpos =>
    split
    next => rfl
    next hneg => exact le_antisymm (not_lt.mp hpos) (not_lt.mp hneg)

end Scalar

namespace Vec

/-- Vectors of one size with the same entries are equal. -/
theorem ext_entry {α : Type} [Scalar α] {x y : Vec α} (hsize : x.size = y.size)
    (h : ∀ i < x.size, entry x i = entry y i) : x = y := by
  refine Array.ext hsize fun i hx hy => ?_
  have hentry := h i hx
  simpa [entry, hx, hy] using hentry

/-- What is read outside a vector is zero. -/
theorem entry_eq_zero {α : Type} [Scalar α] {x : Vec α} {i : Nat} (hi : ¬i < x.size) :
    entry x i = 0 := by
  simp [entry, hi]

theorem entry_constant {α : Type} [Scalar α] (n : Nat) (a : α) (i : Nat) :
    entry (constant n a) i = if i < n then a else 0 := by
  by_cases hi : i < n <;> simp [entry, constant, hi]

section Map

variable {α β : Type} [Scalar α] [Scalar β] {x : Vec α} {i : Nat}

theorem entry_map_of_lt (f : α → β) (hi : i < x.size) : entry (x.map f) i = f (entry x i) := by
  simp [entry, hi]

theorem entry_map {f : α → β} (hf : f 0 = 0) (x : Vec α) (i : Nat) :
    entry (x.map f) i = f (entry x i) := by
  by_cases hi : i < x.size
  · exact entry_map_of_lt f hi
  · rw [entry_eq_zero hi, hf]
    exact entry_eq_zero (by rwa [Array.size_map])

end Map

section Closed

variable {α : Type} [Scalar α] {P : α → Prop}

/-- A sum has each property of its terms that zero has and that additions keep. -/
theorem total_of_closed (hzero : P 0) (hadd : ∀ a b, P a → P b → P (a + b)) {n : Nat}
    {f : Nat → α} (hf : ∀ i < n, P (f i)) : P (total n f) := by
  induction n with
  | zero => exact hzero
  | succ n ih =>
      rw [total_succ]
      exact hadd _ _ (ih fun i hi => hf i (Nat.lt_succ_of_lt hi)) (hf n n.lt_succ_self)

/-- So have the sums of the values that are placed together. -/
theorem entry_scatter_of_closed (hzero : P 0) (hadd : ∀ a b, P a → P b → P (a + b)) {n m : Nat}
    (place : Nat → Nat) {value : Nat → α} (hvalue : ∀ e < m, P (value e)) (i : Nat) :
    P (entry (scatter n m place value) i) := by
  by_cases hi : i < n
  · induction m with
    | zero =>
        rw [entry_scatter_zero]
        exact hzero
    | succ m ih =>
        have hplaced := ih fun e he => hvalue e (Nat.lt_succ_of_lt he)
        rw [entry_scatter_succ m place value hi]
        split
        next => exact hadd _ _ hplaced (hvalue m m.lt_succ_self)
        next => exact hplaced
  · rw [entry_eq_zero (by rwa [size_scatter])]
    exact hzero

end Closed

theorem total_eq (n : Nat) (f : Nat → K) : total n f = ∑ i ∈ Finset.range n, f i := by
  induction n with
  | zero => rfl
  | succ n ih => rw [total_succ, Finset.sum_range_succ, ih]

/-- A scattered vector has at each place the sum of the values placed there. -/
theorem entry_scatter {n i : Nat} (m : Nat) (place : Nat → Nat) (value : Nat → K) (h : i < n) :
    entry (scatter n m place value) i =
      ∑ e ∈ Finset.range m, if place e = i then value e else 0 := by
  induction m with
  | zero => rw [entry_scatter_zero, Finset.range_zero, Finset.sum_empty]
  | succ m ih =>
      rw [entry_scatter_succ m place value h, Finset.sum_range_succ, ih]
      split
      next => rfl
      next => rw [add_zero]

/-- A total is a sum over a list. -/
theorem total_eq_sum_map (n : Nat) (f : Nat → K) : total n f = ((List.range n).map f).sum := by
  induction n with
  | zero => rfl
  | succ n ih => rw [total_succ, ih, List.range_succ, List.map_append, List.sum_append,
      List.map_singleton, List.sum_singleton]

end Vec

/-! ## Sums over lists -/

theorem sum_map_filterMap {β γ : Type} (f : β → Option γ) (g : γ → K) (xs : List β) :
    ((xs.filterMap f).map g).sum = (xs.map fun x => ((f x).map g).getD 0).sum := by
  induction xs with
  | nil => rfl
  | cons x xs ih =>
      rw [List.filterMap_cons, List.map_cons, List.sum_cons]
      cases f x with
      | none => simp [ih]
      | some y => simp [ih]

theorem sum_map_filter {β : Type} (p : β → Bool) (g : β → K) (xs : List β)
    (h : ∀ x ∈ xs, p x = false → g x = 0) : ((xs.filter p).map g).sum = (xs.map g).sum := by
  induction xs with
  | nil => rfl
  | cons x xs ih =>
      have hrest := ih fun y hy => h y (List.mem_cons_of_mem _ hy)
      rw [List.filter_cons, List.map_cons, List.sum_cons]
      cases hp : p x with
      | false => simp [hrest, h x List.mem_cons_self hp]
      | true => simp [hrest]

end TotalVariation
