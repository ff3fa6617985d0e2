import Mathlib
import TotalVariation.Proofs.Numeric.Extended

/-! # Numbers among the extended numbers

What is computed from numbers is a number, as long as nothing is divided by zero. A division by a
positive number is safe, and positive numbers come from other positive numbers: as quotients, as
sums with nonnegative numbers, and as the larger of two of which one is positive.
-/

namespace TotalVariation

namespace Extended

variable {K : Type} [ExactField K] {a b : Extended K}

/-- The value is a number: neither infinite nor undefined. -/
def IsFinite (a : Extended K) : Prop := ∃ x, a = finite x

/-- The value is a number that is not negative. -/
def IsNonneg (a : Extended K) : Prop := ∃ x, 0 ≤ x ∧ a = finite x

/-- The value is a positive number. -/
def IsPositive (a : Extended K) : Prop := ∃ x, 0 < x ∧ a = finite x

omit [ExactField K] in
theorem IsFinite.ne_undefined (ha : a.IsFinite) : a ≠ undefined := by
  rintro rfl
  obtain ⟨x, hx⟩ := ha
  cases hx

theorem IsNonneg.isFinite (ha : a.IsNonneg) : a.IsFinite := by
  obtain ⟨x, -, hx⟩ := ha
  exact ⟨x, hx⟩

theorem IsPositive.isNonneg (ha : a.IsPositive) : a.IsNonneg := by
  obtain ⟨x, hpos, hx⟩ := ha
  exact ⟨x, hpos.le, hx⟩

theorem IsPositive.isFinite (ha : a.IsPositive) : a.IsFinite := ha.isNonneg.isFinite

theorem IsFinite.isPositive (ha : a.IsFinite) (hpos : 0 < a) : a.IsPositive := by
  obtain ⟨x, rfl⟩ := ha
  exact ⟨x, (finite_lt 0 x).mp hpos, rfl⟩

theorem IsFinite.isPositive_of_not_le (ha : a.IsFinite) (hnot : ¬a ≤ 0) : a.IsPositive := by
  obtain ⟨x, rfl⟩ := ha
  exact ⟨x, not_le.mp hnot, rfl⟩

theorem IsPositive.lt (ha : a.IsPositive) : 0 < a := by
  obtain ⟨x, hpos, rfl⟩ := ha
  exact (finite_lt 0 x).mpr hpos

/-- A number that is not below a positive one is positive. -/
theorem IsPositive.of_not_lt (ha : a.IsPositive) (hb : b.IsFinite) (hnot : ¬b < a) :
    b.IsPositive := by
  obtain ⟨x, hpos, rfl⟩ := ha
  obtain ⟨y, rfl⟩ := hb
  rw [finite_lt, not_lt] at hnot
  exact ⟨y, hpos.trans_le hnot, rfl⟩

theorem IsFinite.isNonneg (ha : a.IsFinite) (hnonneg : 0 ≤ a) : a.IsNonneg := by
  obtain ⟨x, rfl⟩ := ha
  exact ⟨x, (finite_le 0 x).mp hnonneg, rfl⟩

theorem isFinite_zero : IsFinite (0 : Extended K) := ⟨0, rfl⟩

theorem isNonneg_zero : IsNonneg (0 : Extended K) := ⟨0, le_rfl, rfl⟩

theorem isPositive_one : IsPositive (1 : Extended K) := ⟨1, one_pos, rfl⟩

/-! ## Operations -/

namespace IsFinite

variable (ha : a.IsFinite) (hb : b.IsFinite)

include ha

theorem neg : (-a).IsFinite := by
  obtain ⟨x, rfl⟩ := ha
  exact ⟨-x, rfl⟩

theorem abs : (Scalar.abs a).IsNonneg := by
  obtain ⟨x, rfl⟩ := ha
  exact ⟨|x|, abs_nonneg x, by rw [abs_finite, Scalar.abs_eq]⟩

theorem sign : (Scalar.sign a).IsFinite := by
  obtain ⟨x, rfl⟩ := ha
  exact ⟨_, sign_finite x⟩

/-- A quotient is safe if the divisor is positive. -/
theorem div (hb : b.IsPositive) : (a / b).IsFinite := by
  obtain ⟨x, rfl⟩ := ha
  obtain ⟨y, hy, rfl⟩ := hb
  exact ⟨x / y, finite_div x hy.ne'⟩

include hb

theorem add : (a + b).IsFinite := by
  obtain ⟨x, rfl⟩ := ha
  obtain ⟨y, rfl⟩ := hb
  exact ⟨x + y, rfl⟩

theorem sub : (a - b).IsFinite := ha.add hb.neg

theorem mul : (a * b).IsFinite := by
  obtain ⟨x, rfl⟩ := ha
  obtain ⟨y, rfl⟩ := hb
  exact ⟨x * y, rfl⟩

theorem max : (Scalar.max a b).IsFinite := by
  obtain ⟨x, rfl⟩ := ha
  obtain ⟨y, rfl⟩ := hb
  exact ⟨_, max_finite x y⟩

theorem min : (Scalar.min a b).IsFinite := by
  obtain ⟨x, rfl⟩ := ha
  obtain ⟨y, rfl⟩ := hb
  exact ⟨_, min_finite x y⟩

end IsFinite

theorem IsNonneg.add (ha : a.IsNonneg) (hb : b.IsNonneg) : (a + b).IsNonneg := by
  obtain ⟨x, hx, rfl⟩ := ha
  obtain ⟨y, hy, rfl⟩ := hb
  exact ⟨x + y, add_nonneg hx hy, rfl⟩

theorem IsNonneg.div (ha : a.IsNonneg) (hb : b.IsPositive) : (a / b).IsNonneg := by
  obtain ⟨x, hx, rfl⟩ := ha
  obtain ⟨y, hy, rfl⟩ := hb
  exact ⟨x / y, div_nonneg hx hy.le, finite_div x hy.ne'⟩

namespace IsPositive

theorem add (ha : a.IsPositive) (hb : b.IsNonneg) : (a + b).IsPositive := by
  obtain ⟨x, hx, rfl⟩ := ha
  obtain ⟨y, hy, rfl⟩ := hb
  exact ⟨x + y, add_pos_of_pos_of_nonneg hx hy, rfl⟩

theorem mul (ha : a.IsPositive) (hb : b.IsPositive) : (a * b).IsPositive := by
  obtain ⟨x, hx, rfl⟩ := ha
  obtain ⟨y, hy, rfl⟩ := hb
  exact ⟨x * y, mul_pos hx hy, rfl⟩

theorem div (ha : a.IsPositive) (hb : b.IsPositive) : (a / b).IsPositive := by
  obtain ⟨x, hx, rfl⟩ := ha
  obtain ⟨y, hy, rfl⟩ := hb
  exact ⟨x / y, div_pos hx hy, finite_div x hy.ne'⟩

/-- The larger of two numbers is positive if one of them is. -/
theorem max (ha : a.IsFinite) (hb : b.IsFinite) (h : a.IsPositive ∨ b.IsPositive) :
    (Scalar.max a b).IsPositive := by
  obtain ⟨x, rfl⟩ := ha
  obtain ⟨y, rfl⟩ := hb
  refine ⟨Max.max x y, lt_max_iff.mpr (h.imp ?_ ?_), by rw [max_finite, Scalar.max_eq]⟩
  · rintro ⟨_, hpos, ⟨⟩⟩
    exact hpos
  · rintro ⟨_, hpos, ⟨⟩⟩
    exact hpos

end IsPositive

theorem isPositive_epsilon : IsPositive (Scalar.epsilon : Extended K) := by
  have hcast (n : Nat) (hn : 0 < n) : IsPositive (Nat.cast n : Extended K) :=
    ⟨n, Nat.cast_pos.mpr hn, rfl⟩
  exact (hcast 1 one_pos).div (hcast _ (Nat.pow_pos two_pos))

/-! ## Vectors -/

/-- All entries are numbers. -/
def AllFinite (x : Vec (Extended K)) : Prop := ∀ i, (Vec.entry x i).IsFinite

theorem isFinite_total {n : Nat} {f : Nat → Extended K} (hf : ∀ i < n, (f i).IsFinite) :
    (Vec.total n f).IsFinite :=
  Vec.total_of_closed isFinite_zero (fun _ _ ha hb => ha.add hb) hf

theorem allFinite_tabulate {n : Nat} {f : Nat → Extended K} (hf : ∀ i < n, (f i).IsFinite) :
    AllFinite (Vec.tabulate n f) := by
  intro i
  rw [Vec.entry_tabulate]
  split
  next hi => exact hf i hi
  next => exact isFinite_zero

theorem allFinite_constant (n : Nat) (ha : a.IsFinite) : AllFinite (Vec.constant n a) := by
  intro i
  rw [Vec.entry_constant]
  split
  next => exact ha
  next => exact isFinite_zero

theorem allFinite_scatter {n m : Nat} (place : Nat → Nat) {value : Nat → Extended K}
    (hvalue : ∀ e < m, (value e).IsFinite) : AllFinite (Vec.scatter n m place value) :=
  Vec.entry_scatter_of_closed isFinite_zero (fun _ _ ha hb => ha.add hb) place hvalue

variable {x : Vec (Extended K)}

theorem AllFinite.of_mem (hx : AllFinite x) (ha : a ∈ x) : a.IsFinite := by
  obtain ⟨i, hi, rfl⟩ := Array.mem_iff_getElem.mp ha
  simpa [Vec.entry, hi] using hx i

theorem allFinite_of_lt (hx : ∀ i < x.size, (Vec.entry x i).IsFinite) : AllFinite x := by
  intro i
  by_cases hi : i < x.size
  · exact hx i hi
  · rw [Vec.entry_eq_zero hi]
    exact isFinite_zero

theorem AllFinite.map (hx : AllFinite x) {f : Extended K → Extended K}
    (hf : ∀ a, a.IsFinite → (f a).IsFinite) : AllFinite (x.map f) := by
  refine allFinite_of_lt fun i hi => ?_
  rw [Array.size_map] at hi
  rw [Vec.entry_map_of_lt f hi]
  exact hf _ (hx i)

theorem AllFinite.largest (hx : AllFinite x) : ((Vec.largest? x).getD 0).IsFinite := by
  unfold Vec.largest?
  split
  next => exact isFinite_zero
  next =>
    refine Array.foldl_induction (fun _ (a : Extended K) => a.IsFinite) (hx 0) fun i a ha => ?_
    exact ha.max (hx.of_mem (Array.getElem_mem i.isLt))

end Extended
end TotalVariation
