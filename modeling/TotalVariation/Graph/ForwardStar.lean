import TotalVariation.Failure
import TotalVariation.Numeric.Tensor

/-! # Forward stars

A graph on the vertices `0, …, n - 1` with its edges grouped by the vertex they start from. Each
undirected edge is stored once. The edges of vertex `v` have the positions `first v` up to, and
without, `first (v + 1)`; the start of each edge is kept beside its end.
-/

namespace TotalVariation

/-- A graph whose edges are grouped by their start. -/
structure ForwardStar where
  /-- The position of the first edge of each vertex, and at the end the number of edges. -/
  first : Array Nat
  /-- The vertex each edge starts from. -/
  tail : Array Nat
  /-- The vertex each edge ends at. -/
  head : Array Nat
  deriving Repr, DecidableEq

namespace ForwardStar

def vertices (G : ForwardStar) : Nat := G.first.size - 1

def edges (G : ForwardStar) : Nat := G.head.size

/-- The start of an edge. -/
@[inline] def tailOf (G : ForwardStar) (e : Nat) : Nat := G.tail.getD e 0

/-- The end of an edge. -/
@[inline] def headOf (G : ForwardStar) (e : Nat) : Nat := G.head.getD e 0

/-- The position of the first edge of a vertex. -/
@[inline] def firstOf (G : ForwardStar) (v : Nat) : Nat := G.first.getD v 0

/-- The positions of the edges that start from a vertex. -/
def edgesOf (G : ForwardStar) (v : Nat) : List Nat :=
  (List.range (G.firstOf (v + 1) - G.firstOf v)).map (G.firstOf v + ·)

/-- The sums of the initial parts of a list, starting from `start`. -/
def runningSums (start : Nat) : List Nat → List Nat
  | [] => [start]
  | n :: ns => start :: runningSums (start + n) ns

theorem length_runningSums (start : Nat) (ns : List Nat) :
    (runningSums start ns).length = ns.length + 1 := by
  induction ns generalizing start with
  | nil => rfl
  | cons n ns ih => simp [runningSums, ih]

/-- The sums of the initial parts of a list of counts, the empty one left out. -/
def cumulatedCounts (start : Int) : List Int → List Int
  | [] => []
  | n :: ns => (start + n) :: cumulatedCounts (start + n) ns

/-- The start of each of several ranges, less the number of places in the ranges before it and of
the places `before` all of them. -/
def shifts (before : Int) (starts counts : List Int) : List Int :=
  List.zipWith (· + ·) (List.zipWith (· - ·) starts (cumulatedCounts before counts)) counts

/-- The entries of a list, each as often as is counted beside it. -/
def repeatEach {β : Type} (xs : List β) (counts : List Int) : List β :=
  (List.zipWith (fun x n => List.replicate n.toNat x) xs counts).flatten

variable {α : Type}

/-- The entries of a list, each as often as is counted beside it, the counts checked. -/
def repeatEach? {β : Type} (xs : List β) (counts : List Int) : Except (Failure α) (List β) :=
  if counts.any (· < 0) then throw .invalidValue else pure (repeatEach xs counts)

/-- The positions in several ranges, range by range, from their starts and numbers of places. The
shift of a range stands once for each of its places, and the numbers of the places are added, which
run on from range to range. -/
def rangePositions? (starts counts : List Int) : Except (Failure α) (List Int) := do
  let total := counts.foldl (· + ·) 0
  if total = 0 then pure []
  else
    let offsets ← repeatEach? (shifts 0 starts counts) counts
    pure (List.zipWith (· + ·) offsets ((List.range total.toNat).map Int.ofNat))

/-- The start of every edge, read off an index of first edges: vertex `v` once for every position
from its first edge to the first edge of the next vertex. -/
def tails? : Nat → List Int → Except (Failure α) (List Nat)
  | v, a :: b :: rest =>
    if b < a then throw .invalidValue
    else do
      let later ← tails? (v + 1) (b :: rest)
      pure (List.replicate (b - a).toNat v ++ later)
  | _, _ => pure []

/-- The forward star with the given index of first edges and ends of edges. -/
def ofIndex? (first adjacent : Array Int) : Except (Failure α) ForwardStar := do
  let edges := adjacent.size
  let vertices := first.size - 1
  if first.size < 2 then throw .noVertex
  let start := first.getD 0 0
  let stop := first.getD vertices 0
  if start ≠ 0 ∨ stop ≠ edges then throw (.edgeIndexRange edges start stop)
  if adjacent.any fun v => v < 0 ∨ vertices ≤ v then throw (.adjacentRange vertices)
  let tails ← tails? 0 first.toList
  pure ⟨first.map Int.toNat, tails.toArray, adjacent.map Int.toNat⟩

/-- The edges of an index of first edges and a list of their ends, as pairs of start and end. -/
def pairs? (first adjacent : Array Int) : Except (Failure α) (List (Int × Int)) := do
  let tails ← tails? 0 first.toList
  if tails.length ≠ adjacent.size then throw .lengths
  pure ((tails.map Int.ofNat).zip adjacent.toList)

/-- The positions of a list of edges in the order of their starts, edges of one start in the order
of the list. -/
def sourceOrder (n : Nat) (source : Array Nat) : List Nat :=
  (List.range n).flatMap fun v => (List.range source.size).filter fun e => source.getD e n == v

/-- The forward star of a list of edges, and the place in the list of each of its edges. -/
def ofEdges (n : Nat) (source target : Array Nat) : ForwardStar × List Nat :=
  let order := sourceOrder n source
  let counts := (List.range n).map fun v =>
    ((List.range source.size).filter fun e => source.getD e n == v).length
  (⟨(runningSums 0 counts).toArray,
    (order.map fun e => source.getD e 0).toArray,
    (order.map fun e => target.getD e 0).toArray⟩, order)

/-- The forward star of a list of edges whose ends are checked. -/
def ofEdges? (n : Int) (source target : Array Int) :
    Except (Failure α) (ForwardStar × List Nat) := do
  if source.size ≠ target.size then throw (.endpointCounts source.size target.size)
  if (source ++ target).any fun v => v < 0 ∨ n ≤ v then throw (.endpointRange n)
  if n < 0 then throw .invalidValue
  pure (ofEdges n.toNat (source.map Int.toNat) (target.map Int.toNat))

end ForwardStar
end TotalVariation
