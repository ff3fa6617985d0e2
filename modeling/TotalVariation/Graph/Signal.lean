import TotalVariation.Graph.Families
import TotalVariation.Numeric.Tensor

/-! # Piecewise constant signals

Every node of a graph belongs to the cell of the centre that is the fewest edges away, found by
searching from all centres at once; nodes that no centre reaches count to the first cell. A signal
takes one value on each cell, and is observed with noise.
-/

namespace TotalVariation.Signal

variable {α : Type} [Scalar α]

/-- The first `k` members of a list; a negative `k` leaves out that many at the end. -/
def firstOnes {β : Type} (k : Int) (xs : List β) : List β :=
  if 0 ≤ k then xs.take k.toNat else xs.take (xs.length - k.natAbs)

/-- Claim the neighbours of a layer of claimed nodes, each for the centre of the node that reaches
it first, layer after layer. -/
def claim (G : LabelledGraph Nat α) : Nat → List (Nat × Nat) → List (Nat × Nat) → List (Nat × Nat)
  | 0, claimed, _ => claimed
  | fuel + 1, claimed, layer =>
    let next := layer.foldl (fun acc (v, centre) => (G.neighbours v).foldl (fun acc w =>
      if claimed.any (·.1 == w) || acc.any (·.1 == w) then acc else acc ++ [(w, centre)]) acc) []
    if next.isEmpty then claimed else claim G fuel (claimed ++ next) next

/-- The centre of each node that some centre reaches. -/
def cells (G : LabelledGraph Nat α) (centres : List Nat) : List (Nat × Nat) :=
  let sources := (centres.mergeSort fun a b => decide (a ≤ b)).eraseDups.map fun c => (c, c)
  claim G G.nodes.length sources sources

/-- The cell of each node, cells numbered by their centres; the last centre of a name counts. -/
def labels (G : LabelledGraph Nat α) (centres : List Nat) : List Nat :=
  let owner := cells G centres
  G.nodes.map fun v => match owner.lookup v with
    | some c => centres.length - 1 - centres.reverse.idxOf c
    | none => 0

/-- The random numbers of a signal: permuted positions, numbers between zero and one, and numbers
of the normal distribution. -/
structure Draws (α : Type) where
  /-- Positions of nodes. -/
  positions : List Int
  /-- Numbers between zero and one. -/
  unit : List α
  normal : List α

/-- A signal on a graph. -/
structure Observed (α : Type) where
  signal : List α
  /-- The signal with noise. -/
  observation : List α
  /-- The cell of each node. -/
  labels : List Nat

/-- A signal with the given number of cells and values in a range, observed with noise. -/
def observation? (G : LabelledGraph Nat α) (draws : Draws α) (regions : Int) (noise low high : α) :
    Except (Failure α) (Observed α) := do
  let count := min regions G.nodes.length
  let nodes := G.nodes.toArray
  let centres ← (firstOnes count draws.positions).mapM fun i =>
    match position? nodes.size i with
    | some p => pure (nodes.getD p 0)
    | none => throw .indexRange
  if centres.isEmpty then throw .invalidValue
  let labels := labels G centres
  let values := ((firstOnes count draws.unit).map fun u => low + (high - low) * u).toArray
  if labels.any fun l => values.size ≤ l then throw .indexRange
  let signal := labels.map fun l => values.getD l 0
  let normal := (draws.normal.take nodes.size).toArray
  match commonLength? signal.length normal.size with
  | some n =>
    let noisy := ((stretch n signal.toArray).zip (stretch n normal)).map fun (x, e) =>
      x + noise * e
    pure ⟨signal, noisy.toList, labels⟩
  | none => throw .lengths

end TotalVariation.Signal
