import TotalVariation.Partition.Rebuild
import TotalVariation.Quadratic.Basic

/-! # Quadratic terms on partitions

On vectors that are constant on the regions of a partition a quadratic term is again a quadratic
term, over the regions: its matrix has the sums of the entries over regions. The gradient and the
value at such a vector are computed from the value of each region. A direct term works with the
residual, which its owner keeps up to date.
-/

namespace TotalVariation.Quadratic

variable {α : Type} [Scalar α]

/-- The matrix with the rows of each region added up. -/
def regionRows (P : Partition α) (M : DenseMatrix α) : DenseMatrix α :=
  .ofFn P.regionCount M.cols fun r j => (P.region r).foldl (fun acc v => acc + M.entry v j) 0

/-- The matrix with the columns of each region added up. -/
def regionColumns (P : Partition α) (M : DenseMatrix α) : DenseMatrix α :=
  .ofFn M.rows P.regionCount fun i r => (P.region r).foldl (fun acc v => acc + M.entry i v) 0

/-- The term over the regions, and the reduced design of a direct term. A direct term is
premultiplied on request. -/
def reduce (q : Quadratic α) (P : Partition α) (premultiply : Bool) :
    Quadratic α × Option (DenseMatrix α) :=
  match q with
  | .none _ => (.none P.regionCount, Option.none)
  | .identity _ a y =>
    (.diagonal (Vec.tabulate P.regionCount fun r => a * Nat.cast (P.sizeOf r))
      (y.map P.regionSums), Option.none)
  | .diagonal d y => (.diagonal (P.regionSums d) (y.map P.regionSums), Option.none)
  | .gram H y =>
    (.gram (regionRows P (regionRows P H).transpose).symmetrizeUpper (y.map P.regionSums),
      Option.none)
  | .direct A y =>
    let rA := regionColumns P A
    if premultiply then
      (.gram rA.columnProducts.symmetrizeUpper (some (rA.transposeMulVec y)), some rA)
    else (.direct rA y, some rA)

/-- The gradient, one value for each vertex, at the vector with the given values on the regions.
A direct term takes it from its residual. -/
def regionGradient (q : Quadratic α) (P : Partition α) (x : Vec α) (residual : Vec α) : Vec α :=
  match q with
  | .none _ => Vec.constant P.vertexCount 0
  | .identity n a y => diagonalGradient n (Vec.constant n a) (linearPart n y) (P.expand x)
  | .diagonal d y => diagonalGradient d.size d (linearPart d.size y) (P.expand x)
  | .gram H y =>
    let sums := regionRows P H
    let y := linearPart H.rows y
    Vec.tabulate H.rows fun v =>
      0 - Vec.entry y v + Vec.total x.size fun r =>
        if Scalar.same (Vec.entry x r) 0 then 0 else sums.entry r v * Vec.entry x r
  | .direct A _ => (A.transposeMulVec residual).map (0 - ·)

/-- The value of a diagonal term at the values of the regions, from its sums over the regions. -/
def diagonalRegionValue (d y x : Vec α) : α :=
  Vec.total x.size fun r =>
    Vec.entry x r * (Scalar.half (Vec.entry d r) * Vec.entry x r - Vec.entry y r)

/-- The value at the vector with the given values on the regions. -/
def regionValue (q : Quadratic α) (P : Partition α) (x : Vec α) (residual : Vec α) : α :=
  match q with
  | .none _ => 0
  | .identity n a y =>
    diagonalRegionValue (P.regionSums (Vec.constant n a)) (P.regionSums (linearPart n y)) x
  | .diagonal d y =>
    diagonalRegionValue (P.regionSums d) (P.regionSums (linearPart d.size y)) x
  | .gram H y =>
    let sums := regionRows P (regionRows P H).transpose
    Vec.dot (x.map Scalar.half) (sums.transpose.mulVec x) -
      Vec.dot x (P.regionSums (linearPart H.rows y))
  | .direct .. => Vec.dot (residual.map Scalar.half) residual

/-- The term over the regions, where it is over the vertices of the partition. -/
def reduce? (q : Quadratic α) (P : Partition α) (premultiply : Bool) :
    Except (Failure α) (Quadratic α × Option (DenseMatrix α)) :=
  let linearFits := match q with
    | .identity .. | .diagonal .. | .gram .. =>
      q.observation?.all fun y => y.size = P.vertexCount
    | _ => true
  let matrixFits := match q with
    | .diagonal .. | .gram .. | .direct .. => decide (q.size = P.vertexCount)
    | _ => true
  if linearFits && matrixFits then pure (q.reduce P premultiply) else throw .lengths

/-- The gradient at the values of the regions, which may be missing or of another length. -/
def regionGradient? (q : Quadratic α) (P : Partition α) (x : Option (Vec α))
    (residual : Option (Vec α)) : Except (Failure α) (Vec α) :=
  match q with
  | .none _ => pure (Vec.constant P.vertexCount 0)
  | .identity .. | .diagonal .. => do
    let x ← match x with
      | some x => P.expand? x
      | Option.none => throw .indexRange
    gradientAt? q x
  | .gram H y =>
    match x with
    | Option.none => pure ((linearPart H.rows y).map (0 - ·))
    | some x =>
      let used := (List.range x.size).filter fun r => !Scalar.same (Vec.entry x r) 0
      if used.any fun r => P.regionCount ≤ r then throw .indexRange
      else if !used.isEmpty && H.rows ≠ P.vertexCount then throw .lengths
      else pure (q.regionGradient P x #[])
  | .direct A _ =>
    match residual with
    | some R => if R.size = A.rows then pure (q.regionGradient P #[] R) else throw .lengths
    | Option.none => throw .lengths

/-- The value at the values of the regions, which may be missing or of another length. -/
def regionValue? (q : Quadratic α) (P : Partition α) (x : Option (Vec α))
    (residual : Option (Vec α)) : Except (Failure α) α :=
  match q with
  | .none _ => pure 0
  | .direct .. =>
    match residual with
    | some R => pure (q.regionValue P #[] R)
    | Option.none => throw .unset
  | .identity .. | .diagonal .. => do
    let n := q.size
    if n ≠ P.vertexCount then throw .lengths
    let sums := P.regionSums (q.diagonal?.getD #[])
    let linear ← P.regionSums? (linearPart n q.observation?)
    match x with
    | some x => match commonLength? P.regionCount x.size with
      | some k => pure (diagonalRegionValue (stretch k sums) (stretch k linear) (stretch k x))
      | Option.none => throw .lengths
    | Option.none => throw .unset
  | .gram H y => do
    if H.rows ≠ P.vertexCount then throw .lengths
    let _ ← P.regionSums? (linearPart H.rows y)
    match x with
    | some x => if x.size = P.regionCount then pure (q.regionValue P x #[]) else throw .lengths
    | Option.none => throw .unset

end TotalVariation.Quadratic
