import TotalVariation.Numeric.DenseMatrix

/-! # Elimination

The solution of a square system of linear equations by elimination with the largest pivot of each
column.
-/

namespace TotalVariation.Elimination

variable {α : Type} [Scalar α]

/-- The row from `k` on, among the first `n`, with the largest entry in column `k`. -/
def pivotRow (rows : Array (Vec α)) (n k : Nat) : Nat :=
  (List.range n).foldl (fun best i =>
    let size (r : Nat) : α := Scalar.abs (Vec.entry (rows.getD r #[]) k)
    if k < i ∧ size best < size i then i else best) k

/-- Clear a column in all other rows. -/
def clearColumn (rows : Array (Vec α)) (n k : Nat) : Array (Vec α) :=
  let pivot := rows.getD k #[]
  Vec.tabulate n fun i =>
    let row := rows.getD i #[]
    if i = k then row
    else
      let factor := Vec.entry row k / Vec.entry pivot k
      Vec.tabulate (n + 1) fun j =>
        if j < k then Vec.entry row j else Vec.entry row j - factor * Vec.entry pivot j

/-- Bring the rows `k, …, n - 1` into diagonal form, column after column. -/
def diagonalize (n : Nat) : Nat → Nat → Array (Vec α) → Array (Vec α)
  | 0, _, rows => rows
  | fuel + 1, k, rows =>
    let p := pivotRow rows n k
    let exchanged := (rows.setIfInBounds k (rows.getD p #[])).setIfInBounds p (rows.getD k #[])
    diagonalize n fuel (k + 1) (clearColumn exchanged n k)

/-- The solution `x` of `M x = b`, for an invertible `M`. -/
def solve (M : DenseMatrix α) (b : Vec α) : Vec α :=
  let n := M.rows
  let rows := Vec.tabulate n fun i =>
    Vec.tabulate (n + 1) fun j => if j < n then M.entry i j else Vec.entry b i
  let done := diagonalize n n 0 rows
  Vec.tabulate n fun i =>
    let row := done.getD i #[]
    Vec.entry row n / Vec.entry row i

end TotalVariation.Elimination
