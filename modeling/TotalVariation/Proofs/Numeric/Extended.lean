import Mathlib
import TotalVariation.Proofs.Numeric.Exact
import TotalVariation.Problem.Proximal

/-! # Exact scalars with infinities

Bounds are given as numbers of which some are infinite. Here the exact numbers are extended by both
infinities and by the undefined value, which is the outcome of operations without a meaning and
compares with nothing. Zero has no sign: a number divided by it is infinite with the sign of the
number. Among finite values nothing changes.
-/

namespace TotalVariation

/-- A number, an infinity, or the outcome of an operation without a meaning. -/
inductive Extended (K : Type) where
  | below
  | finite (a : K)
  | above
  | undefined

namespace Extended

variable {K : Type} [ExactField K]

/-- The sign of a value. -/
def side : Extended K → SignType
  | below => -1
  | finite a => SignType.sign a
  | above => 1
  | undefined => 0

/-- The infinity on a side. -/
def infinity : SignType → Extended K
  | .neg => below
  | .zero => undefined
  | .pos => above

def neg : Extended K → Extended K
  | below => above
  | finite a => finite (-a)
  | above => below
  | undefined => undefined

/-- The sum, undefined for opposite infinities. -/
def add : Extended K → Extended K → Extended K
  | finite a, finite b => finite (a + b)
  | below, below | below, finite _ | finite _, below => below
  | above, above | above, finite _ | finite _, above => above
  | _, _ => undefined

/-- The product, undefined for zero times an infinity. -/
def mul : Extended K → Extended K → Extended K
  | finite a, finite b => finite (a * b)
  | undefined, _ | _, undefined => undefined
  | a, b => infinity (a.side * b.side)

/-- The quotient, undefined for zero over zero and for one infinity over another. -/
def div : Extended K → Extended K → Extended K
  | finite a, finite b => if b = 0 then infinity (SignType.sign a) else finite (a / b)
  | finite _, below | finite _, above => finite 0
  | below, finite b => if 0 ≤ b then below else above
  | above, finite b => if 0 ≤ b then above else below
  | _, _ => undefined

def sqrt : Extended K → Extended K
  | finite a => if a < 0 then undefined else finite (ExactField.root a)
  | above => above
  | _ => undefined

/-- The order, in which the undefined value compares with nothing. -/
def le : Extended K → Extended K → Prop
  | undefined, _ | _, undefined => False
  | below, _ | _, above => True
  | finite a, finite b => a ≤ b
  | _, _ => False

/-- The strict order. -/
def lt (a b : Extended K) : Prop := le a b ∧ ¬le b a

instance : (a b : Extended K) → Decidable (le a b)
  | finite a, finite b => inferInstanceAs (Decidable (a ≤ b))
  | undefined, _ | finite _, undefined | below, undefined | above, undefined
  | above, below | above, finite _ | finite _, below => .isFalse id
  | below, below | below, finite _ | below, above | finite _, above | above, above =>
    .isTrue trivial

instance : Scalar (Extended K) where
  add := add
  sub a b := add a (neg b)
  mul := mul
  div := div
  neg := neg
  zero := finite 0
  one := finite 1
  natCast n := finite n
  le := le
  lt := lt
  decidableLE := inferInstance
  decidableLT a b := inferInstanceAs (Decidable (le a b ∧ ¬le b a))
  sqrt := sqrt
  isFinite
    | finite _ => true
    | _ => false

/-! ## Finite values -/

section Finite

variable (a b : K)

@[simp] theorem zero_eq : (0 : Extended K) = finite 0 := rfl

@[simp] theorem one_eq : (1 : Extended K) = finite 1 := rfl

@[simp] theorem finite_add : finite a + finite b = finite (a + b) := rfl

@[simp] theorem finite_sub : finite a - finite b = finite (a - b) :=
  congrArg finite (sub_eq_add_neg a b).symm

@[simp] theorem finite_mul : finite a * finite b = finite (a * b) := rfl

@[simp] theorem finite_neg : -finite a = finite (-a) := rfl

theorem finite_div {b : K} (hb : b ≠ 0) : finite a / finite b = finite (a / b) := if_neg hb

@[simp] theorem finite_le : finite a ≤ finite b ↔ a ≤ b := Iff.rfl

@[simp] theorem finite_lt : finite a < finite b ↔ a < b := lt_iff_le_not_ge.symm

@[simp] theorem max_finite : Scalar.max (finite a) (finite b) = finite (Scalar.max a b) := by
  simp only [Scalar.max, finite_le, apply_ite finite]

@[simp] theorem min_finite : Scalar.min (finite a) (finite b) = finite (Scalar.min a b) := by
  simp only [Scalar.min, finite_le, apply_ite finite]

@[simp] theorem abs_finite : Scalar.abs (finite a) = finite (Scalar.abs a) := by
  simp only [Scalar.abs, zero_eq, finite_lt, finite_sub, apply_ite finite]

@[simp] theorem sign_finite : Scalar.sign (finite a) = finite (Scalar.sign a) := by
  simp only [Scalar.sign, zero_eq, one_eq, finite_lt, finite_neg, apply_ite finite]

end Finite

/-! ## Defined values -/

theorem below_le {a : Extended K} (ha : a ≠ undefined) : below ≤ a := by
  cases a with
  | below | finite | above => trivial
  | undefined => exact absurd rfl ha

theorem le_above {a : Extended K} (ha : a ≠ undefined) : a ≤ above := by
  cases a with
  | below | finite | above => trivial
  | undefined => exact absurd rfl ha

/-- Any two defined values compare. -/
theorem le_or_le {a b : Extended K} (ha : a ≠ undefined) (hb : b ≠ undefined) :
    a ≤ b ∨ b ≤ a := by
  cases a with
  | below => exact .inl (below_le hb)
  | above => exact .inr (le_above hb)
  | undefined => exact absurd rfl ha
  | finite a =>
      cases b with
      | below => exact .inr trivial
      | above => exact .inl trivial
      | undefined => exact absurd rfl hb
      | finite b => exact le_total a b

theorem le_of_not_lt {a b : Extended K} (ha : a ≠ undefined) (hb : b ≠ undefined) (h : ¬a < b) :
    b ≤ a := by
  by_contra hnot
  exact h ⟨(le_or_le ha hb).resolve_right hnot, hnot⟩

theorem not_lt_below (a : Extended K) : ¬a < below := by
  rintro ⟨hle, hnot⟩
  cases a with
  | below => exact hnot trivial
  | finite | above | undefined => exact hle

theorem not_above_lt (a : Extended K) : ¬above < a := by
  rintro ⟨hle, hnot⟩
  cases a with
  | above => exact hnot trivial
  | below | finite | undefined => exact hle

theorem ne_undefined_of_le {a b : Extended K} (h : a ≤ b) : a ≠ undefined ∧ b ≠ undefined := by
  constructor
  · rintro rfl
    exact h
  · rintro rfl
    cases a <;> exact h

/-- The larger of two defined values is one of them. -/
theorem max_spec {a b : Extended K} (ha : a ≠ undefined) (hb : b ≠ undefined) :
    b ≤ Scalar.max a b ∧ (Scalar.max a b = a ∨ Scalar.max a b = b) := by
  unfold Scalar.max
  split
  next hle => exact ⟨hle, .inl rfl⟩
  next =>
    rw [if_pos ((le_or_le ha ha).elim id id)]
    exact ⟨(le_or_le hb hb).elim id id, .inr rfl⟩

/-- The smaller of two defined values is one of them. -/
theorem min_spec {a b : Extended K} (ha : a ≠ undefined) (hb : b ≠ undefined) :
    Scalar.min a b ≤ b ∧ (Scalar.min a b = a ∨ Scalar.min a b = b) := by
  unfold Scalar.min
  split
  next hle => exact ⟨hle, .inl rfl⟩
  next =>
    rw [if_pos ((le_or_le ha ha).elim id id)]
    exact ⟨(le_or_le hb hb).elim id id, .inr rfl⟩

/-! ## Bounds -/

/-- A bound that is missing below counts as the infinity there, so no value is lost. -/
theorem lower_getD (a : Extended K) : (Bound.lower a).getD below = a := by
  cases a with
  | below | finite | above | undefined => rfl

theorem upper_getD (a : Extended K) : (Bound.upper a).getD above = a := by
  cases a with
  | below | finite | above | undefined => rfl

/-- The finite value as a bound; anything else is none. -/
def bound : Extended K → Bound K
  | finite a => some a
  | _ => none

/-- A value that is not infinite upwards bounds from below as a number, or not at all. -/
theorem lower_eq {low : Extended K} (h : low < above) : Bound.lower low = low.bound.map finite := by
  cases low with
  | below => rfl
  | finite a => rfl
  | above => exact absurd h.1 h.2
  | undefined => exact h.1.elim

theorem upper_eq {upp : Extended K} (h : below < upp) : Bound.upper upp = upp.bound.map finite := by
  cases upp with
  | below => exact absurd h.1 h.2
  | finite a => rfl
  | above => rfl
  | undefined => exact h.1.elim

theorem raise_finite (low : Bound K) (x : K) :
    Bound.raise (low.map finite) (finite x) = finite (low.raise x) := by
  cases low with
  | none => rfl
  | some l => exact max_finite x l

theorem cap_finite (upp : Bound K) (x : K) :
    Bound.cap (upp.map finite) (finite x) = finite (upp.cap x) := by
  cases upp with
  | none => rfl
  | some u => exact min_finite x u

/-- The value lies within two bounds, of which each may be missing. -/
def IsWithin (low upp : Bound (Extended K)) (x : Extended K) : Prop :=
  low.getD below ≤ x ∧ x ≤ upp.getD above

section Clamping

variable {low upp : Bound (Extended K)} {x : Extended K}

/-- A lower bound that is no number and below some number is infinite. -/
theorem getD_eq_below (hlow : low.isFinite = false) (h : low.getD below < above) :
    low.getD below = below := by
  cases low with
  | none => rfl
  | some l =>
      cases l with
      | below => rfl
      | finite a => cases hlow
      | above => exact absurd h (not_above_lt _)
      | undefined => exact h.1.elim

theorem getD_eq_above (hupp : upp.isFinite = false) (h : below < upp.getD above) :
    upp.getD above = above := by
  cases upp with
  | none => rfl
  | some u =>
      cases u with
      | below => exact absurd h (not_lt_below _)
      | finite a => cases hupp
      | above => rfl
      | undefined => exact h.1.elim

theorem raise_undefined (low : Bound (Extended K)) : low.raise undefined = undefined := by
  cases low with
  | none => rfl
  | some l => cases l <;> rfl

theorem cap_undefined (upp : Bound (Extended K)) : upp.cap undefined = undefined := by
  cases upp with
  | none => rfl
  | some u => cases u <;> rfl

theorem raise_spec (hlow : low.getD below ≠ undefined) (hx : x ≠ undefined) :
    low.getD below ≤ low.raise x ∧ low.raise x ≠ undefined := by
  cases low with
  | none => exact ⟨below_le hx, hx⟩
  | some l =>
      obtain ⟨hle, hchoice⟩ := max_spec hx hlow
      exact ⟨hle, (ne_undefined_of_le hle).2⟩

theorem cap_spec (hupp : upp.getD above ≠ undefined) (hx : x ≠ undefined) :
    upp.cap x ≤ upp.getD above ∧ (upp.cap x = x ∨ upp.cap x = upp.getD above) := by
  cases upp with
  | none => exact ⟨le_above hx, .inl rfl⟩
  | some u => exact min_spec hx hupp

/-- Clamping between bounds that do not exclude each other brings every value within them, except an
undefined one, which stays undefined. -/
theorem isWithin_cap_raise_iff (h : low.getD below ≤ upp.getD above) (x : Extended K) :
    IsWithin low upp (upp.cap (low.raise x)) ↔ upp.cap (low.raise x) ≠ undefined := by
  obtain ⟨hlow, hupp⟩ := ne_undefined_of_le h
  refine ⟨fun hwithin => (ne_undefined_of_le hwithin.1).2, fun hne => ?_⟩
  have hx : x ≠ undefined := by
    rintro rfl
    rw [raise_undefined, cap_undefined] at hne
    exact hne rfl
  obtain ⟨hraised, hdefined⟩ := raise_spec hlow hx
  obtain ⟨hcapped, hsame | hbound⟩ := cap_spec hupp hdefined
  · rw [hsame] at hcapped ⊢
    exact ⟨hraised, hcapped⟩
  · rw [hbound] at hcapped ⊢
    exact ⟨h, hcapped⟩

end Clamping

end Extended
end TotalVariation
