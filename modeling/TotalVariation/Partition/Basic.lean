import TotalVariation.Graph.ForwardStar
import TotalVariation.Numeric.Vec

/-! # Partitions of the vertices of a graph

A partition divides the vertices of a graph into regions. An edge is active when it is a known
boundary between regions; the regions are the components of the inactive edges. Each region is
kept as a list of its vertices, in an order that a median selection may leave sorted, and the lists
one after the other are the arena of the partition.

The graph of the regions, with the total weight of the edges between any two, is kept beside them
and is rebuilt on demand.
-/

namespace TotalVariation

/-- A number for every place of a list, or one for all of them. -/
structure Weighting (β : Type) where
  /-- The number of each place, if they differ. -/
  each : Option (Array β)
  /-- The common number, in force if there is none for each. -/
  common : β

/-- A partition of the vertices of a graph into regions. -/
structure Partition (α : Type) where
  graph : ForwardStar
  edgeWeights : Weighting α
  /-- Whether each edge is a known boundary. -/
  active : Array Bool
  /-- The region of each vertex. -/
  assignment : Array Nat
  /-- The vertices of each region, in the order of the arena. -/
  regions : List (List Nat)
  /-- Whether each region is believed to be solved. -/
  saturated : Array Bool
  /-- Whether each region is still sorted by target since its median was selected. -/
  medianCached : Array Bool
  /-- The pairs of regions joined by an edge. -/
  reducedEdges : Array (Nat × Nat)
  /-- The total weight of the edges between each of these pairs. -/
  reducedWeights : Vec α
  /-- An earlier assignment, kept for comparison. -/
  lastAssignment : Option (Array Nat)

namespace Partition

variable {α : Type}

def vertexCount (P : Partition α) : Nat := P.graph.vertices

def edgeCount (P : Partition α) : Nat := P.graph.edges

def regionCount (P : Partition α) : Nat := P.regions.length

/-- The region of a vertex. -/
@[inline] def regionOf (P : Partition α) (v : Nat) : Nat := P.assignment.getD v 0

/-- The vertices of a region. -/
def region (P : Partition α) (r : Nat) : List Nat := P.regions.getD r []

/-- The vertices, region by region. -/
def arena (P : Partition α) : List Nat := P.regions.flatten

/-- The position in the arena of the first vertex of each region, and at the end the number of
vertices. -/
def offsets (P : Partition α) : List Nat := ForwardStar.runningSums 0 (P.regions.map List.length)

theorem length_offsets (P : Partition α) : P.offsets.length = P.regionCount + 1 := by
  simp [offsets, regionCount, ForwardStar.length_runningSums]

/-- The number of vertices of each region. -/
def sizes (P : Partition α) : List Nat := P.regions.map List.length

/-- The number of vertices of a region. -/
def sizeOf (P : Partition α) (r : Nat) : Nat := (P.region r).length

/-- The first vertex of a region. -/
def representative (P : Partition α) (r : Nat) : Nat := (P.region r).headD 0

/-- Whether an edge is a known boundary. -/
@[inline] def isActive (P : Partition α) (e : Nat) : Bool := P.active.getD e false

/-- Whether a region is believed to be solved. -/
def isSaturated (P : Partition α) (r : Nat) : Bool := P.saturated.getD r false

/-- Whether a region is still sorted by target. -/
def isMedianCached (P : Partition α) (r : Nat) : Bool := P.medianCached.getD r false

/-- The known boundaries, in increasing order. -/
def activeEdges (P : Partition α) : List Nat := (List.range P.edgeCount).filter P.isActive

/-- The edges that are no known boundary, in increasing order. -/
def inactiveEdges (P : Partition α) : List Nat :=
  (List.range P.edgeCount).filter fun e => !P.isActive e

/-- The edges that start from the given vertices, vertex by vertex. -/
def edgesFrom (P : Partition α) (vertices : List Nat) : List Nat :=
  vertices.flatMap P.graph.edgesOf

variable [Scalar α]

/-- The weight of an edge. -/
@[inline] def weight (P : Partition α) (e : Nat) : α :=
  match P.edgeWeights.each with
  | some w => Vec.entry w e
  | none => P.edgeWeights.common

def weights (P : Partition α) : Vec α := Vec.tabulate P.edgeCount P.weight

/-- Edge weights for a graph with the given number of edges, checked to be as many and not
negative. -/
def edgeWeighting? (edges : Nat) (each : Option (Array α)) (common : α) :
    Except (Failure α) (Weighting α) := do
  match each with
  | none => if common < 0 then throw (.negativeEdgeWeight common)
  | some w =>
    if w.size ≠ edges then throw (.edgeWeightShape edges w.size)
    if w.any fun a => a < 0 then throw .negativeEdgeWeights
  pure ⟨each, common⟩

/-- The partition of a graph into one region, before any boundary is known. -/
def whole (graph : ForwardStar) (edgeWeights : Weighting α) : Partition α where
  graph := graph
  edgeWeights := edgeWeights
  active := Array.replicate graph.edges false
  assignment := Array.replicate graph.vertices 0
  regions := [List.range graph.vertices]
  saturated := #[false]
  medianCached := #[false]
  reducedEdges := #[]
  reducedWeights := #[]
  lastAssignment := none

/-- The partition into one region of the graph with the given index of edges, ends of edges and
weights, all of them checked. -/
def ofIndex? (first adjacent : Array Int) (each : Option (Array α)) (common : α) :
    Except (Failure α) (Partition α) := do
  let graph ← ForwardStar.ofIndex? first adjacent
  let edgeWeights ← edgeWeighting? graph.edges each common
  pure (whole graph edgeWeights)

/-- The partition with other edge weights. -/
def setEdgeWeights? (P : Partition α) (each : Option (Array α)) (common : α) :
    Except (Failure α) (Partition α) := do
  let edgeWeights ← edgeWeighting? P.edgeCount each common
  pure { P with edgeWeights := edgeWeights }

/-- Keep the present assignment for later comparison. -/
def saveAssignment (P : Partition α) : Partition α :=
  { P with lastAssignment := some P.assignment }

/-- Mark edges as boundaries, or as none. -/
def setActive (P : Partition α) (edges : List Nat) (value : Bool) : Partition α :=
  { P with active := edges.foldl (fun a e => a.setIfInBounds e value) P.active }

/-- Replace the order of the vertices of a region. -/
def setRegion (P : Partition α) (r : Nat) (order : List Nat) : Partition α :=
  { P with regions := P.regions.set r order }

end Partition
end TotalVariation
