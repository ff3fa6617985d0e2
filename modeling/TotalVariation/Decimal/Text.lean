import TotalVariation.Decimal.Shortest

/-! # Number texts

The written forms of numbers in messages and in the log: the shortest decimal that reads back,
positional for exponents from -4 to 15 and always with a fraction or an exponent; and the
scientific form with a fixed count of digits. An exponent has a sign and at least two digits.
-/

namespace TotalVariation.Decimal

/-- The text of an exponent: `e`, a sign, and at least two digits. -/
def exponentText (e : Int) : String :=
  let digits := toString e.natAbs
  "e" ++ (if e < 0 then "-" else "+") ++ (if digits.length < 2 then "0" ++ digits else digits)

/-- The digits of a number with a point after the first, if there are more. -/
def pointAfterFirst (digits : String) : String :=
  let rest := (digits.drop 1).toString
  (digits.take 1).toString ++ (if rest.isEmpty then "" else "." ++ rest)

def zeros (n : Nat) : String := String.ofList (List.replicate n '0')

/-- The positional form of `digits` whose first digit counts `10 ^ e`. -/
def positional (digits : String) (e : Int) : String :=
  if e < 0 then "0." ++ zeros ((-e).toNat - 1) ++ digits
  else
    let whole := e.toNat + 1
    if digits.length ≤ whole then digits ++ zeros (whole - digits.length) ++ ".0"
    else (digits.take whole).toString ++ "." ++ (digits.drop whole).toString

def signText (negative : Bool) : String := if negative then "-" else ""

/-- The text of a value that is no finite number. -/
def specialText : Binary → String
  | .undefined => "nan"
  | .infinite negative => signText negative ++ "inf"
  | .finite .. => ""

/-- A number as messages show it. -/
def shortestText (x : Float) : String :=
  match Binary.ofFloat x with
  | .finite negative m q =>
    let (d, e) := shortest m q
    let digits := toString d
    signText negative ++
      (if -4 ≤ e ∧ e < 16 then positional digits e
      else pointAfterFirst digits ++ exponentText e)
  | b => specialText b

/-- A number in scientific form with the given count of digits after the point. -/
def scientificText (places : Nat) (x : Float) : String :=
  match Binary.ofFloat x with
  | .finite negative m q =>
    let (d, e) := roundToDigits m q (places + 1)
    let digits := if d = 0 then zeros (places + 1) else toString d
    signText negative ++ pointAfterFirst digits ++ exponentText e
  | b => specialText b

/-- A number rounded for a report, in a form that reads back as the rounded value: numbers of
magnitude at least one keep `digits` significant digits, smaller ones `digits` places. -/
def roundedText (digits : Nat) (x : Float) : String :=
  match Binary.ofFloat x with
  | .finite negative m q =>
    if x.abs < 1.0 then
      let d := roundToPlaces m q digits
      if d = 0 then "0.0" else signText negative ++ toString d ++ "e-" ++ toString digits
    else
      let (d, e) := roundToDigits m q digits
      signText negative ++ toString d ++ "e" ++ toString (e - (digits - 1))
  | b => specialText b

/-- A number rounded to a count of places, in a form that reads back as the rounded value. -/
def placesText (places : Nat) (x : Float) : String :=
  match Binary.ofFloat x with
  | .finite negative m q =>
    let d := roundToPlaces m q places
    if d = 0 then "0.0" else signText negative ++ toString d ++ "e-" ++ toString places
  | b => specialText b

end TotalVariation.Decimal
