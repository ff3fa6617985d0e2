import TotalVariation.Quadratic.Basic
import TotalVariation.Report

/-! # Building a quadratic term

The representation of a quadratic term is chosen from its data unless it is named: no matrix means
a multiple of the identity (no term if the multiple is zero), a vector means a diagonal, a table
means a design. The data are checked against each other and against the number of vertices.
-/

namespace TotalVariation

/-- The data of a quadratic term. -/
structure QuadraticData (α : Type) where
  observation : Option (Tensor α)
  /-- The matrix; a single number scales the identity. -/
  matrix : Option (Tensor α)
  /-- The multiple of the identity where there is no matrix. -/
  scale : α
  /-- The name of the representation, if it is named. -/
  representation : Option String
  /-- The number of vertices, if it is known. -/
  vertices : Option Int

namespace Quadratic

variable {α : Type} [Scalar α]

/-- Two numbers agree up to rounding: to five digits, or to eight places. -/
def agree (a b : α) : Bool :=
  let margin := Scalar.ratio 1 100000000 + Scalar.ratio 1 100000 * Scalar.abs b
  (decide (Scalar.abs (a - b) ≤ margin) && Scalar.isFinite b) || Scalar.same a b

/-- A table agrees with its transpose up to rounding. -/
def isSymmetric (M : DenseMatrix α) : Bool :=
  (List.range M.rows).all fun i => (List.range M.cols).all fun j => agree (M.entry i j) (M.entry j i)

/-- The table that a shaped array with two axes spells. -/
def table (rows cols : Nat) (entries : Vec α) : DenseMatrix α :=
  .ofFn rows cols fun i j => Vec.entry entries (i * cols + j)

/-- The representations of a quadratic term. -/
inductive Kind where
  | none | identity | diagonal | gram | direct
  deriving Repr, DecidableEq

/-- The representation of a given name. -/
def Kind.ofName? : String → Option Kind
  | "none" => some .none
  | "identity" => some .identity
  | "diagonal" => some .diagonal
  | "gram" => some .gram
  | "direct" => some .direct
  | _ => Option.none

/-- The name of a representation. -/
def Kind.name : Kind → String
  | .none => "none"
  | .identity => "identity"
  | .diagonal => "diagonal"
  | .gram => "gram"
  | .direct => "direct"

/-- The matrix of the data proper: a single number is none. -/
def dataMatrix (data : QuadraticData α) : Option (Tensor α) :=
  data.matrix.filter fun t => t.rank ≠ 0

/-- The multiple of the identity: the single number given as matrix, or the scale. -/
def dataScale (data : QuadraticData α) : α := (data.matrix.bind Tensor.scalar?).getD data.scale

/-- The representation of the data: the one that is named, or the one that the matrix suggests. -/
def dataKind? (data : QuadraticData α) : Except (Failure α) Kind :=
  match data.representation with
  | some name => match Kind.ofName? name with
    | some k => pure k
    | Option.none => throw (.unknownRepresentation name)
  | Option.none => match dataMatrix data with
    | Option.none => pure (if Scalar.same (dataScale data) 0 then .none else .identity)
    | some t => pure (if t.rank = 1 then .diagonal else .direct)

/-- A matrix of products, made symmetric if it is not, and whether it had to be. -/
def gramMatrix? (t : Tensor α) : Except (Failure α) (DenseMatrix α × List (Event α)) :=
  match t.shape with
  | [n, m] =>
    if n = m then
      let M := table n n t.entries
      if isSymmetric M then pure (M, []) else pure (M.symmetrizeUpper, [.asymmetricGram])
    else throw (.gramNotSquare t.shape)
  | shape => throw (.gramNotSquare shape)

/-- A direct term with its observation checked against the rows of the design. -/
def direct? (observation : Option (Vec α)) (t : Tensor α) : Except (Failure α) (Quadratic α) :=
  match t.shape with
  | [n, m] => do
    let y := observation.getD (Vec.constant n 0)
    if y.size ≠ n then throw (.observationShape n y.size)
    pure (.direct (table n m t.entries) y)
  | shape => throw (.designNotMatrix shape)

/-- The number of vertices of a term without matrix: as told, or as there are observations. -/
def vertexCount? (data : QuadraticData α) : Except (Failure α) Nat :=
  match data.vertices with
  | some n => if n < 0 then throw .invalidValue else pure n.toNat
  | Option.none => match data.observation with
    | some t => pure t.entries.size
    | Option.none => throw .unknownSize

/-- The check that a term is over the expected number of vertices and that a premultiplied
observation is too. -/
def checked? (vertices : Option Int) (q : Quadratic α) : Except (Failure α) (Quadratic α) := do
  match vertices with
  | some n => if (q.size : Int) ≠ n then throw (.variableCount q.size n)
  | Option.none => pure ()
  match q, q.observation? with
  | .direct .., _ => pure q
  | _, some y => if y.size ≠ q.size then throw (.premultipliedShape q.size y.size) else pure q
  | _, Option.none => pure q

/-- The quadratic term of the data, and what to tell the user about them, also when they are
refused after all. -/
def build (data : QuadraticData α) : List (Event α) × Except (Failure α) (Quadratic α) :=
  let y := data.observation.map (·.entries)
  match dataKind? data with
  | .error e => ([], .error e)
  | .ok .none => ([], (vertexCount? data).map .none)
  | .ok .identity =>
    ([], do
      let n ← vertexCount? data
      checked? (some n) (.identity n (dataScale data) y))
  | .ok kind => match dataMatrix data with
    | Option.none => ([], .error (.matrixNeeded kind.name))
    | some t => match kind with
      | .gram => match gramMatrix? t with
        | .error e => ([], .error e)
        | .ok (M, events) => (events, checked? data.vertices (.gram M y))
      | .direct => ([], do
          let q ← direct? y t
          checked? data.vertices q)
      | _ => ([], checked? data.vertices (.diagonal t.entries y))

end Quadratic
end TotalVariation
