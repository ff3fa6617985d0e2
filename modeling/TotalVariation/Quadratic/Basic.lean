import TotalVariation.Failure
import TotalVariation.Numeric.DenseMatrix
import TotalVariation.Numeric.Tensor

/-! # Quadratic terms

The quadratic term `½ ‖Y - A x‖²` in its representations. A direct term keeps the design `A` and
the raw observation `Y`. The others keep `AᵗA`, as a table, as a diagonal or as a multiple of the
identity, together with the premultiplied observation `AᵗY`, and leave out the constant `½ ‖Y‖²`.
A missing premultiplied observation stands for zero.
-/

namespace TotalVariation

/-- A quadratic term over a vector of variables. -/
inductive Quadratic (α : Type) where
  /-- No quadratic term. -/
  | none (size : Nat)
  /-- `½ a ‖x‖² - ⟨y, x⟩`. -/
  | identity (size : Nat) (scale : α) (linear : Option (Vec α))
  /-- `½ ∑ dᵢ xᵢ² - ⟨y, x⟩`. -/
  | diagonal (weights : Vec α) (linear : Option (Vec α))
  /-- `½ ⟨x, H x⟩ - ⟨y, x⟩`. -/
  | gram (hessian : DenseMatrix α) (linear : Option (Vec α))
  /-- `½ ‖Y - A x‖²`. -/
  | direct (design : DenseMatrix α) (observation : Vec α)

namespace Quadratic

variable {α : Type}

/-- The name of the representation. -/
def representation : Quadratic α → String
  | .none _ => "none"
  | .identity .. => "identity"
  | .diagonal .. => "diagonal"
  | .gram .. => "gram"
  | .direct .. => "direct"

/-- Whether the design itself is kept. -/
def isDirect : Quadratic α → Bool
  | .direct .. => true
  | _ => false

/-- The number of variables. -/
def size : Quadratic α → Nat
  | .none n => n
  | .identity n _ _ => n
  | .diagonal d _ => d.size
  | .gram H _ => H.rows
  | .direct A _ => A.cols

/-- The observation that is kept: raw for a direct term, premultiplied otherwise. -/
def observation? : Quadratic α → Option (Vec α)
  | .none _ => Option.none
  | .identity _ _ y => y
  | .diagonal _ y => y
  | .gram _ y => y
  | .direct _ y => some y

variable [Scalar α]

/-- The matrix that is kept: the diagonal of an identity or diagonal term is a vector. -/
def diagonal? : Quadratic α → Option (Vec α)
  | .identity n a _ => some (Vec.constant n a)
  | .diagonal d _ => some d
  | _ => Option.none

/-- The matrix of a term that keeps one. -/
def matrix? : Quadratic α → Option (DenseMatrix α)
  | .gram H _ => some H
  | .direct A _ => some A
  | _ => Option.none

/-- A premultiplied observation, zero if it is missing. -/
def linearPart (n : Nat) (y : Option (Vec α)) : Vec α := y.getD (Vec.constant n 0)

/-- The term along constant vectors: the coefficients `⟨A1, Y⟩` and `‖A1‖²` of
`½ ‖A1‖² t² - ⟨A1, Y⟩ t`, and the column `A1` of a direct term. -/
def constantPart : Quadratic α → α × α × Option (Vec α)
  | .none _ => (0, 0, Option.none)
  | .identity n a y => (Vec.sum (linearPart n y), a * Nat.cast n, Option.none)
  | .diagonal d y => (Vec.sum (linearPart d.size y), Vec.sum d, Option.none)
  | .gram H y => (Vec.sum (linearPart H.rows y), H.sum, Option.none)
  | .direct A y =>
    let column := A.rowSums
    (Vec.dot column y, Vec.dot column column, some column)

/-- The Hessian `AᵗA`. -/
def hessian : Quadratic α → DenseMatrix α
  | .none n => .ofFn n n fun _ _ => 0
  | .identity n a _ => .ofFn n n fun i j => if i = j then a else 0
  | .diagonal d _ => .ofFn d.size d.size fun i j => if i = j then Vec.entry d i else 0
  | .gram H _ => H
  | .direct A _ => A.columnProducts

/-- The premultiplied observation `AᵗY`. -/
def linear : Quadratic α → Vec α
  | .none n => Vec.constant n 0
  | .identity n _ y => linearPart n y
  | .diagonal d y => linearPart d.size y
  | .gram H y => linearPart H.rows y
  | .direct A y => A.transposeMulVec y

/-- A diagonal `d` that majorises the Hessian: `diag d - AᵗA` is positive semidefinite. -/
def majorant : Quadratic α → Vec α
  | .none n => Vec.constant n 0
  | .identity n a _ => Vec.constant n (Scalar.abs a)
  | .diagonal d _ => d.map Scalar.abs
  | .gram H _ =>
    Vec.tabulate H.rows fun i => Vec.total H.cols fun j => Scalar.abs (H.entry i j)
  | .direct A _ =>
    let rows := Vec.tabulate A.rows fun i => Vec.total A.cols fun j => Scalar.abs (A.entry i j)
    Vec.tabulate A.cols fun j =>
      Vec.total A.rows fun i => Scalar.abs (A.entry i j) * Vec.entry rows i

/-- The residual `Y - A x`. -/
def residualOf (A : DenseMatrix α) (y x : Vec α) : Vec α :=
  let image := A.mulVec x
  Vec.tabulate A.rows fun i => Vec.entry y i - Vec.entry image i

/-- The gradient of a diagonal term with weights `d`, over `n` variables. -/
def diagonalGradient (n : Nat) (d y x : Vec α) : Vec α :=
  Vec.tabulate n fun i => Vec.entry d i * Vec.entry x i - Vec.entry y i

/-- The value of a diagonal term with weights `d`. -/
def diagonalValue (d y x : Vec α) : α :=
  Scalar.half (Vec.total d.size fun i => Vec.entry d i * (Vec.entry x i * Vec.entry x i)) -
    Vec.dot y x

/-- The gradient at a point. -/
def gradientAt (q : Quadratic α) (x : Vec α) : Vec α :=
  match q with
  | .none _ => Vec.constant x.size 0
  | .identity n a y => diagonalGradient n (Vec.constant n a) (linearPart n y) x
  | .diagonal d y => diagonalGradient d.size d (linearPart d.size y) x
  | .gram H y =>
    let image := H.mulVec x
    let y := linearPart H.rows y
    Vec.tabulate H.rows fun i => Vec.entry image i - Vec.entry y i
  | .direct A y =>
    let image := A.mulVec x
    A.transposeMulVec (Vec.tabulate A.rows fun i => Vec.entry image i - Vec.entry y i)

/-- The value at a point, up to the constant that premultiplied terms leave out. -/
def valueAt (q : Quadratic α) (x : Vec α) : α :=
  match q with
  | .none _ => 0
  | .identity n a y => diagonalValue (Vec.constant n a) (linearPart n y) x
  | .diagonal d y => diagonalValue d (linearPart d.size y) x
  | .gram H y => Vec.dot (x.map Scalar.half) (H.mulVec x) - Vec.dot (linearPart H.rows y) x
  | .direct A y =>
    let r := residualOf A y x
    Vec.dot (r.map Scalar.half) r

/-- The gradient at a point, of a length that fits. A diagonal term repeats a single entry. -/
def gradientAt? (q : Quadratic α) (x : Vec α) : Except (Failure α) (Vec α) :=
  match q with
  | .none _ => pure (q.gradientAt x)
  | .identity .. | .diagonal .. =>
    match commonLength? q.size x.size with
    | some n =>
      let d := stretch n (q.diagonal?.getD #[])
      let y := stretch n (linearPart q.size q.observation?)
      pure (diagonalGradient n d y (stretch n x))
    | Option.none => throw .lengths
  | .gram .. | .direct .. => if x.size = q.size then pure (q.gradientAt x) else throw .lengths

/-- The value at a point of the right length. -/
def valueAt? (q : Quadratic α) (x : Vec α) : Except (Failure α) α :=
  match q with
  | .none _ => pure 0
  | _ => if x.size = q.size then pure (q.valueAt x) else throw .lengths

/-- The residual of a direct term at a point of the right length. -/
def residual? (q : Quadratic α) (x : Vec α) : Except (Failure α) (Vec α) :=
  match q with
  | .direct A y => if x.size = A.cols then pure (residualOf A y x) else throw .lengths
  | _ => throw .unsupported

end Quadratic
end TotalVariation
