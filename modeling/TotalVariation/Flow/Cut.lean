import TotalVariation.Flow.Network
import TotalVariation.Numeric.Tensor

/-! # Minimal cuts with prices on the sides

A cut divides vertices between a source side and a sink side. A vertex with a positive terminal
price pays it on the sink side, one with a negative price pays its magnitude on the source side, an
unlimited price forbids a side. A link from the source side to the sink side pays its capacity.
The cut found is minimal; vertices that are free to choose stay on the source side.
-/

namespace TotalVariation

/-- The price of a side for a vertex. -/
inductive Terminal (α : Type) where
  /-- A positive price is paid on the sink side, a negative one on the source side. -/
  | finite (price : α)
  /-- The vertex belongs to the source side. -/
  | sourceOnly
  /-- The vertex belongs to the sink side. -/
  | sinkOnly
  deriving Repr, DecidableEq

/-- A price given as a number; an infinite one binds the vertex to a side. -/
def Terminal.ofScalar {α : Type} [Scalar α] (a : α) : Terminal α :=
  if Scalar.isPositiveInfinite a then .sourceOnly
  else if Scalar.isNegativeInfinite a then .sinkOnly
  else .finite a

/-- A cut problem on named vertices, and the last cut that was found. -/
structure CutProblem (ν α : Type) where
  vertices : List ν
  /-- The price of each vertex. -/
  terminals : Array (Terminal α)
  /-- The capacities between ordered pairs of vertices, in the order in which they came. -/
  links : List ((ν × ν) × α)
  /-- For each vertex whether the last cut has it on the sink side. -/
  sinkSide : Option (Array Bool)
  /-- The capacity of the last cut. -/
  cutValue : Option α

namespace CutProblem

variable {ν α : Type} [DecidableEq ν] [Scalar α]

/-- The problem on the given vertices, without prices and links. -/
def ofVertices (vertices : List ν) : CutProblem ν α :=
  ⟨vertices, Array.replicate vertices.length (.finite 0), [], none, none⟩

/-- The place of a vertex, the last one if it is listed more than once. -/
def place? (C : CutProblem ν α) (v : ν) : Except (Failure α) Nat :=
  match C.vertices.reverse.findIdx? (· == v) with
  | some i => pure (C.vertices.length - 1 - i)
  | none => throw .unknownName

/-- The places of vertices. -/
def places? (C : CutProblem ν α) (vs : List ν) : Except (Failure α) (List Nat) :=
  vs.mapM C.place?

/-- Set the prices of vertices; one price may stand for all. -/
def setTerminals? (C : CutProblem ν α) (vs : List ν) (prices : Array (Terminal α)) :
    Except (Failure α) (CutProblem ν α) := do
  let places ← C.places? vs
  if prices.size ≠ places.length ∧ prices.size ≠ 1 then throw .lengths
  let prices := stretch places.length prices
  pure { C with
    terminals := (places.zip prices.toList).foldl (fun t p => t.setIfInBounds p.1 p.2) C.terminals }

/-- Add a capacity between two vertices. -/
def addLink (links : List ((ν × ν) × α)) (a b : ν) (capacity : α) : List ((ν × ν) × α) :=
  if links.any (·.1 == (a, b)) then
    links.map fun l => if l.1 == (a, b) then (l.1, l.2 + capacity) else l
  else links ++ [((a, b), 0 + capacity)]

/-- Add capacities between pairs of vertices, in both directions. -/
def addLinks (C : CutProblem ν α) (pairs : List (ν × ν × α × α)) : CutProblem ν α :=
  { C with links := pairs.foldl (fun links (a, b, ab, ba) =>
      addLink (addLink links a b ab) b a ba) C.links }

/-- Add capacities between pairs of vertices given by lists, one entry standing for all. -/
def addLinks? (C : CutProblem ν α) (us vs : Array ν) (forth back : Array α) :
    Except (Failure α) (CutProblem ν α) := do
  let some n := (commonLength? us.size vs.size).bind fun n =>
      (commonLength? n forth.size).bind fun n => commonLength? n back.size
    | throw .lengths
  let pairs := (stretch n us).toList.zip ((stretch n vs).toList.zip
    ((stretch n forth).toList.zip (stretch n back).toList))
  pure (C.addLinks pairs)

/-- A node of the flow network of a cut problem. -/
inductive Node (ν : Type) where
  /-- The node that supplies the flow. -/
  | source
  /-- The node that takes the flow up. -/
  | sink
  | vertex (name : ν)
  deriving Repr, DecidableEq

/-- The links with positive capacity. -/
def openLinks (C : CutProblem ν α) : List ((ν × ν) × α) := C.links.filter fun l => 0 < l.2

/-- The names of the vertices: those of the problem, then further ends of links. -/
def names (C : CutProblem ν α) : List ν :=
  let add (acc : List ν) (v : ν) : List ν := if v ∈ acc then acc else acc ++ [v]
  C.openLinks.foldl (fun acc l => add (add acc l.1.1) l.1.2) (C.vertices.foldl add [])

/-- The nodes of the flow network. -/
def nodes (C : CutProblem ν α) : List (Node ν) :=
  .source :: .sink :: C.names.map .vertex

/-- The arcs from the source and into the sink, for the vertices with a price. -/
def terminalArcs (C : CutProblem ν α) : List (Node ν × Node ν × Capacity α) :=
  (C.vertices.zip C.terminals.toList).filterMap fun (v, t) =>
    match t with
    | .sourceOnly => some (.source, .vertex v, .unlimited)
    | .sinkOnly => some (.vertex v, .sink, .unlimited)
    | .finite c =>
      if 0 < c then some (.source, .vertex v, .ofScalar c)
      else if c < 0 then some (.vertex v, .sink, .ofScalar (-c))
      else none

/-- The arcs of the flow network. -/
def arcs (C : CutProblem ν α) : List (Node ν × Node ν × Capacity α) :=
  C.terminalArcs ++
    C.openLinks.map fun l => (.vertex l.1.1, .vertex l.1.2, Capacity.ofScalar l.2)

/-- The flow network, its nodes numbered in their order. -/
def network (C : CutProblem ν α) : Network α :=
  let nodes := C.nodes
  let arcs := C.arcs.map fun (a, b, c) => (nodes.idxOf a, nodes.idxOf b, c)
  let bare := Network.ofFn nodes.length fun _ _ => .finite 0
  arcs.foldl (fun N (u, v, c) => N.modify u v fun _ => c) bare

/-- Find a minimal cut. -/
def solve (C : CutProblem ν α) : Except (Failure α) (CutProblem ν α) := do
  let nodes := C.nodes
  let (value, sides) ← C.network.maximalFlow 0 1
  let side (v : ν) : Bool := sides.getD (nodes.idxOf (.vertex v)) false
  pure { C with sinkSide := some (C.vertices.map side).toArray, cutValue := some value }

/-- Whether the last cut has each of the given vertices on the sink side. -/
def sinkSideOf? (C : CutProblem ν α) (vs : List ν) : Except (Failure α) (List Bool) := do
  let places ← C.places? vs
  match C.sinkSide with
  | some sides => pure (places.map fun p => sides.getD p false)
  | none => throw .unset

end CutProblem
end TotalVariation
