/-! # Binary numbers and their decimal grids

A double precision number is a sign and a whole number of units `2 ^ q`. Rounding it to a decimal
grid is a division of natural numbers, to the nearest with ties to the even neighbour, so every
digit printed by this library is exact.
-/

namespace TotalVariation.Decimal

/-- What a double precision number stands for. -/
inductive Binary where
  /-- No number. -/
  | undefined
  | infinite (negative : Bool)
  /-- The number `± mantissa * 2 ^ exponent`. -/
  | finite (negative : Bool) (mantissa : Nat) (exponent : Int)
  deriving Repr, DecidableEq

/-- A power of two. -/
def twoTo (n : Nat) : Nat := Nat.pow 2 n

/-- A power of ten. -/
def tenTo (n : Nat) : Nat := Nat.pow 10 n

/-- The reading of the 64 bits: one sign bit, eleven bits of exponent, 52 of fraction. -/
def Binary.ofBits (bits : UInt64) : Binary :=
  let n := bits.toNat
  let negative := decide (n ≥ twoTo 63)
  let biased : Nat := n / twoTo 52 % twoTo 11
  let fraction := n % twoTo 52
  if biased = 2047 then
    if fraction = 0 then .infinite negative else .undefined
  else if biased = 0 then .finite negative fraction (-1074)
  else .finite negative (twoTo 52 + fraction) ((biased : Int) - 1075)

/-- The number that a double stands for. -/
def Binary.ofFloat (x : Float) : Binary := .ofBits x.toBits

/-- The quotient of two natural numbers, rounded to the nearest, a half to the even neighbour. -/
def roundDiv (num den : Nat) : Nat :=
  let q := num / den
  let r := num % den
  if 2 * r > den ∨ (2 * r = den ∧ q % 2 = 1) then q + 1 else q

/-- The fraction `mantissa * 2 ^ exponent * 10 ^ scale` as numerator and denominator. -/
def scaled (mantissa : Nat) (exponent scale : Int) : Nat × Nat :=
  (mantissa * twoTo exponent.toNat * tenTo scale.toNat,
    twoTo (-exponent).toNat * tenTo (-scale).toNat)

/-- The number of decimal digits of a natural number. -/
def digitCount (n : Nat) : Nat := (Nat.toDigits 10 n).length

/-- The decimal exponent of a positive number: the `e` with `10 ^ e ≤ m * 2 ^ q < 10 ^ (e + 1)`. -/
def magnitude (mantissa : Nat) (exponent : Int) : Int :=
  let (num, den) := scaled mantissa exponent 0
  let guess : Int := digitCount num - digitCount den
  if num * tenTo (-guess).toNat ≥ den * tenTo guess.toNat then guess else guess - 1

/-- The nearest multiple of `10 ^ (-places)`, as a count of those units. -/
def roundToPlaces (mantissa : Nat) (exponent : Int) (places : Nat) : Nat :=
  let (num, den) := scaled mantissa exponent places
  roundDiv num den

/-- The nearest number with the given count of significant digits: its digits and the exponent of
its first digit. Zero has exponent zero. -/
def roundToDigits (mantissa : Nat) (exponent : Int) (digits : Nat) : Nat × Int :=
  if mantissa = 0 then (0, 0)
  else
    let e := magnitude mantissa exponent
    let (num, den) := scaled mantissa exponent (digits - 1 - e)
    let d := roundDiv num den
    if d ≥ tenTo digits then (d / 10, e + 1) else (d, e)

end TotalVariation.Decimal
