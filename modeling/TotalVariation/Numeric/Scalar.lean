/-! # Scalars

The arithmetic that the computations of this library are written over. A scalar type carries the
four operations, a decidable order, a square root and a test for ordinary numbers. Binary
floating point is the instance that runs; an exact field with a square root is the one to reason
about. Comparisons are stated so that a value that compares with nothing (the result of an
undefined operation) passes through `max`, `min` and `sign` instead of being dropped.
-/

namespace TotalVariation

/-- Arithmetic, order and square root of a number type. -/
class Scalar (α : Type) extends Add α, Sub α, Mul α, Div α, Neg α, Zero α, One α, NatCast α,
    LE α, LT α where
  /-- The order can be tested. -/
  decidableLE (a b : α) : Decidable (a ≤ b)
  /-- The strict order can be tested. -/
  decidableLT (a b : α) : Decidable (a < b)
  /-- The nonnegative square root. -/
  sqrt : α → α
  /-- Whether the value is an ordinary number, neither infinite nor undefined. -/
  isFinite : α → Bool

attribute [reducible, instance] Scalar.decidableLE Scalar.decidableLT

/-- Binary floating point with double precision. -/
instance : Scalar Float where
  add := Float.add
  sub := Float.sub
  mul := Float.mul
  div := Float.div
  neg := Float.neg
  zero := 0.0
  one := 1.0
  natCast := Float.ofNat
  le a b := a ≤ b
  lt a b := a < b
  decidableLE a b := inferInstanceAs (Decidable (a ≤ b))
  decidableLT a b := inferInstanceAs (Decidable (a < b))
  sqrt := Float.sqrt
  isFinite := Float.isFinite

namespace Scalar

variable {α : Type} [Scalar α]

/-- The two values compare as equal. -/
@[inline] def same (a b : α) : Bool := decide (a ≤ b) && decide (b ≤ a)

/-- The value compares with itself: false exactly for an undefined value. -/
@[inline] def isDefined (a : α) : Bool := decide (a ≤ a)

/-- Distance to zero. -/
@[inline] def abs (a : α) : α := if 0 < a then a else 0 - a

/-- One with the sign of the value; zero and undefined values stay as they are. -/
@[inline] def sign (a : α) : α := if 0 < a then 1 else if a < 0 then -1 else a

/-- The larger value, undefined if either is. -/
@[inline] def max (a b : α) : α := if b ≤ a then a else if a ≤ a then b else a

/-- The smaller value, undefined if either is. -/
@[inline] def min (a b : α) : α := if a ≤ b then a else if a ≤ a then b else a

/-- Two, the constant of halves and reflections. -/
@[inline] def two : α := 1 + 1

@[inline] def half (a : α) : α := a / two

/-- The quotient of two whole numbers, for the constants of the algorithms. -/
@[inline] def ratio (a b : Nat) : α := Nat.cast a / Nat.cast b

/-- The spacing of double precision numbers above one, the threshold below which a magnitude
counts as zero. -/
def epsilon : α := ratio 1 (Nat.pow 2 52)

@[inline] def isPositiveInfinite (a : α) : Bool := !isFinite a && decide (0 < a)

@[inline] def isNegativeInfinite (a : α) : Bool := !isFinite a && decide (a < 0)

/-- The order in which values are sorted: undefined values come last. -/
def sortsBefore (a b : α) : Bool := decide (a ≤ b) || !isDefined b

end Scalar
end TotalVariation
