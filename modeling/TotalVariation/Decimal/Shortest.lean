import TotalVariation.Decimal.Binary

/-! # Shortest decimals

The shortest decimal of a double is the one with the fewest digits among those that read back as
the same double, and of these the nearest. The numbers that read back form an interval around
`m * 2 ^ q`; a grid of `10 ^ k` meets it exactly if one of the two grid points next to the number
lies in it.
-/

namespace TotalVariation.Decimal

/-- Whether the fraction `num / den` reads back as `m * 2 ^ q`, the exponent `low` being the least
one of the format. The ends of the interval belong to it when `m` is even. -/
def readsBack (m : Nat) (q low : Int) (num den : Nat) : Bool :=
  -- in units of a quarter of the last place
  let below : Nat := if m = twoTo 52 ∧ low < q then 4 * m - 1 else 4 * m - 2
  let above : Nat := 4 * m + 2
  let (n, d) := scaled 1 (q - 2) 0
  if m % 2 = 0 then
    decide (below * n * den ≤ num * d) && decide (num * d ≤ above * n * den)
  else
    decide (below * n * den < num * d) && decide (num * d < above * n * den)

/-- The point of the decimal grid with `digits` significant digits that reads back as `m * 2 ^ q`
and is nearest to it, if there is one: the digits and the exponent of the first. -/
def onGrid? (m : Nat) (q : Int) (digits : Nat) : Option (Nat × Int) :=
  let e := magnitude m q
  let shift : Int := digits - 1 - e
  let (num, den) := scaled m q shift
  let floor := num / den
  let points := if 2 * (num % den) ≤ den then [floor, floor + 1] else [floor + 1, floor]
  let fits (d : Nat) : Bool :=
    readsBack m q (-1074) (d * tenTo (-shift).toNat) (tenTo shift.toNat)
  (points.find? fits).map fun d => if d ≥ tenTo digits then (d / 10, e + 1) else (d, e)

/-- The shortest decimal of `m * 2 ^ q`: its digits and the exponent of the first. Seventeen digits
always suffice. -/
def shortest (m : Nat) (q : Int) : Nat × Int :=
  if m = 0 then (0, 0)
  else ((List.range 17).findSome? fun k => onGrid? m q (k + 1)).getD (roundToDigits m q 17)

end TotalVariation.Decimal
