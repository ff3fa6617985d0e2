import TotalVariation.Numeric.Vec

/-! # Dense matrices

A matrix is a table of rows read with zero outside its range.
-/

namespace TotalVariation

/-- A rectangular table of numbers. -/
structure DenseMatrix (α : Type) where
  rows : Nat
  /-- Number of columns. -/
  cols : Nat
  /-- The rows, from the first. -/
  data : Array (Vec α)

namespace DenseMatrix

variable {α : Type} [Scalar α]

/-- The entry in row `i` and column `j`. -/
@[inline] def entry (M : DenseMatrix α) (i j : Nat) : α := Vec.entry (M.data.getD i #[]) j

/-- The matrix with the given entries. -/
@[inline] def ofFn (rows cols : Nat) (f : Nat → Nat → α) : DenseMatrix α :=
  ⟨rows, cols, Vec.tabulate rows fun i => Vec.tabulate cols (f i)⟩

theorem entry_ofFn (rows cols : Nat) (f : Nat → Nat → α) (i j : Nat) :
    (ofFn rows cols f).entry i j = if i < rows then if j < cols then f i j else 0 else 0 := by
  by_cases h : i < rows
  · simp only [entry, ofFn, h, if_true]
    rw [← Vec.entry_tabulate]
    simp [Vec.tabulate, h]
  · simp [entry, ofFn, Vec.tabulate, Vec.entry, h]

/-- Exchange of rows and columns. -/
def transpose (M : DenseMatrix α) : DenseMatrix α :=
  ofFn M.cols M.rows fun i j => M.entry j i

/-- The product of a matrix and a vector. -/
def mulVec (M : DenseMatrix α) (x : Vec α) : Vec α :=
  Vec.tabulate M.rows fun i => Vec.total M.cols fun j => M.entry i j * Vec.entry x j

/-- The product of the transposed matrix and a vector. -/
def transposeMulVec (M : DenseMatrix α) (x : Vec α) : Vec α :=
  Vec.tabulate M.cols fun j => Vec.total M.rows fun i => M.entry i j * Vec.entry x i

/-- The products of all pairs of columns, `MᵗM`. -/
def columnProducts (M : DenseMatrix α) : DenseMatrix α :=
  ofFn M.cols M.cols fun i j => Vec.total M.rows fun k => M.entry k i * M.entry k j

/-- The upper triangle of a square matrix copied onto its lower triangle. -/
def symmetrizeUpper (M : DenseMatrix α) : DenseMatrix α :=
  ofFn M.rows M.cols fun i j => if i ≤ j then M.entry i j else M.entry j i

/-- The sum of the upper triangle and of the transposed strict upper triangle, where the two have a
common shape: those of a square table make a symmetric one, and a single row or column is repeated.
-/
def symmetrizeUpper? (M : DenseMatrix α) : Option (DenseMatrix α) :=
  if M.rows = M.cols then some M.symmetrizeUpper
  else if M.rows = 1 ∨ M.cols = 1 then
    let n := Nat.max M.rows M.cols
    let row (i : Nat) : Nat := if M.rows = 1 then 0 else i
    let col (j : Nat) : Nat := if M.cols = 1 then 0 else j
    some (ofFn n n fun i j =>
      (if row i ≤ col j then M.entry (row i) (col j) else 0) +
        (if row j < col i then M.entry (row j) (col i) else 0))
  else none

def rowSums (M : DenseMatrix α) : Vec α :=
  Vec.tabulate M.rows fun i => Vec.total M.cols (M.entry i)

def sum (M : DenseMatrix α) : α := Vec.total M.rows fun i => Vec.total M.cols (M.entry i)

end DenseMatrix
end TotalVariation
