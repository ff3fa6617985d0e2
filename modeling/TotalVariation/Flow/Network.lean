import TotalVariation.Failure
import TotalVariation.Numeric.Vec

/-! # Flow networks

A network is kept by the capacities that are left on its arcs. A maximal flow is reached by
repeatedly sending as much as possible along a shortest path from the source to the sink: the
distances to the sink are found layer by layer, and a path goes down one layer at each arc. Sending
lowers what is left on the arcs of the path and raises what is left on their reversals. When no
path remains, the nodes with a distance are those that still reach the sink; they form the sink
side of a cut that is minimal, and contained in the sink side of every other minimal cut.

Each path exhausts an arc that lies on a shortest path, and the length of the shortest paths never
drops, so there are fewer paths than nodes times arcs.
-/

namespace TotalVariation

/-- What an arc can carry. -/
inductive Capacity (α : Type) where
  | finite (amount : α)
  /-- Any amount. -/
  | unlimited
  deriving Repr, DecidableEq

namespace Capacity

variable {α : Type} [Scalar α]

/-- A capacity given as a number; an infinite one is no limit. -/
def ofScalar (a : α) : Capacity α := if Scalar.isFinite a then .finite a else .unlimited

/-- Whether something more can be carried. -/
@[inline] def isPositive : Capacity α → Bool
  | .finite a => decide (0 < a)
  | .unlimited => true

/-- The smaller of two capacities. -/
def min : Capacity α → Capacity α → Capacity α
  | .finite a, .finite b => .finite (if b < a then b else a)
  | .finite a, .unlimited => .finite a
  | .unlimited, c => c

/-- What is left after carrying an amount. -/
def lower (amount : α) : Capacity α → Capacity α
  | .finite a => .finite (a - amount)
  | .unlimited => .unlimited

/-- What is left after an amount came back. -/
def raise (amount : α) : Capacity α → Capacity α
  | .finite a => .finite (a + amount)
  | .unlimited => .unlimited

end Capacity

/-- The nodes `0, …, nodes - 1` with the capacities left on the arcs between them. -/
structure Network (α : Type) where
  nodes : Nat
  /-- For each node the capacities of the arcs that leave it, by their end. -/
  arcs : Array (Array (Capacity α))

namespace Network

variable {α : Type} [Scalar α]

def ofFn (nodes : Nat) (capacity : Nat → Nat → Capacity α) : Network α :=
  ⟨nodes, Vec.tabulate nodes fun u => Vec.tabulate nodes (capacity u)⟩

/-- The capacity left on an arc. -/
@[inline] def left (N : Network α) (u v : Nat) : Capacity α :=
  (N.arcs.getD u #[]).getD v (.finite 0)

/-- Whether something more can be sent along an arc. -/
@[inline] def isOpen (N : Network α) (u v : Nat) : Bool := (N.left u v).isPositive

/-- The distances to the sink, completed from the last layer: a node without distance gets the next
one if an open arc leads into the layer. -/
def layers (N : Network α) : Nat → Array (Option Nat) → List Nat → Nat → Array (Option Nat)
  | 0, distance, _, _ => distance
  | fuel + 1, distance, layer, depth =>
    let next := (List.range N.nodes).filter fun u =>
      (distance.getD u none).isNone && layer.any (N.isOpen u)
    if next.isEmpty then distance
    else
      N.layers fuel (next.foldl (fun d u => d.setIfInBounds u (some (depth + 1))) distance) next
        (depth + 1)

/-- The number of arcs on a shortest open path from each node to the sink. -/
def distances (N : Network α) (sink : Nat) : Array (Option Nat) :=
  N.layers N.nodes ((Array.replicate N.nodes none).setIfInBounds sink (some 0)) [sink] 0

/-- The nodes after a node on an open path that goes down one layer at each arc. -/
def descent (N : Network α) (distance : Array (Option Nat)) : Nat → Nat → List Nat
  | 0, _ => []
  | d + 1, u =>
    match (List.range N.nodes).find? fun v => distance.getD v none == some d && N.isOpen u v with
    | some v => v :: N.descent distance d v
    | none => []

/-- The arcs along a path. -/
def arcsAlong : List Nat → List (Nat × Nat)
  | u :: v :: rest => (u, v) :: arcsAlong (v :: rest)
  | _ => []

/-- What can be sent along a path. -/
def bottleneck (N : Network α) (path : List (Nat × Nat)) : Capacity α :=
  path.foldl (fun c arc => c.min (N.left arc.1 arc.2)) .unlimited

/-- Change the capacity of an arc. -/
def modify (N : Network α) (u v : Nat) (f : Capacity α → Capacity α) : Network α :=
  { N with arcs := N.arcs.modify u fun row => row.modify v f }

/-- Send an amount along a path. -/
def send (N : Network α) (path : List (Nat × Nat)) (amount : α) : Network α :=
  path.foldl (fun N arc =>
    (N.modify arc.1 arc.2 (Capacity.lower amount)).modify arc.2 arc.1 (Capacity.raise amount)) N

/-- Send along shortest paths while there is one: the amount sent in all, and what is left. -/
def fill (source sink : Nat) : Nat → Network α → α → Except (Failure α) (α × Network α)
  | 0, N, sent => pure (sent, N)
  | fuel + 1, N, sent =>
    let distance := N.distances sink
    match distance.getD source none with
    | none => pure (sent, N)
    | some d =>
      let path := arcsAlong (source :: N.descent distance d source)
      match N.bottleneck path with
      | .unlimited => throw .unboundedFlow
      | .finite amount => fill source sink fuel (N.send path amount) (sent + amount)

/-- A maximal flow: its value, and the nodes that still reach the sink. -/
def maximalFlow (N : Network α) (source sink : Nat) : Except (Failure α) (α × Array Bool) := do
  let (value, remaining) ← fill source sink (N.nodes * N.nodes * N.nodes + 1) N 0
  pure (value, (remaining.distances sink).map Option.isSome)

end Network
end TotalVariation
