import Mathlib
import TotalVariation.Proofs.Numeric.Exact

/-! # Divisions by zero

In a field a division by zero gives zero, as any other value would do. Here it gives whatever a
function says. What is computed is computed without divisions by zero if it is the same for every
such function.
-/

namespace TotalVariation

variable {K : Type} [ExactField K]

/-- Exact arithmetic in which a division of `a` by zero gives `atZero a`. -/
@[reducible] def Scalar.dividing (atZero : K → K) : Scalar K :=
  { (inferInstance : Scalar K) with div := fun a b => if b = 0 then atZero a else a / b }

theorem Scalar.dividing_div (atZero : K → K) (a : K) {b : K} (hb : b ≠ 0) :
    (Scalar.dividing atZero).div a b = a / b := if_neg hb

/-- The divisions of the field itself. -/
theorem Scalar.dividing_zero :
    Scalar.dividing (fun _ : K => 0) = (inferInstance : Scalar K) := by
  have hdiv : (fun a b : K => if b = 0 then 0 else a / b) = fun a b => a / b := by
    funext a b
    split
    next hb => rw [hb, div_zero]
    next => rfl
  unfold Scalar.dividing
  rw [hdiv]
  rfl

end TotalVariation
