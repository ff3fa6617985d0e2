import TotalVariation.Graph.Components
import TotalVariation.Partition.Values

/-! # Rebuilding the regions and the graph of the regions

After edges were marked or unmarked as boundaries, the regions are the components of the inactive
edges. They are numbered by their first appearance in the former arena, and inside a region the
vertices keep their former order. A region whose vertices are those of a former region keeps the
marks of that region. The graph of the regions has one edge for each pair of regions that a
boundary joins, weighted by the total of these boundaries; boundaries inside a region are dropped.
-/

namespace TotalVariation.Partition

variable {α : Type}

/-- The labels of the components of the inactive edges. -/
def componentLabels (P : Partition α) : Array Nat :=
  Components.labels P.vertexCount
    (P.inactiveEdges.map fun e => (P.graph.tailOf e, P.graph.headOf e))

/-- The distinct members of a list, in the order of their first appearance. -/
def firstAppearances : List Nat → List Nat → List Nat
  | _, [] => []
  | seen, x :: xs =>
    if seen.contains x then firstAppearances seen xs else x :: firstAppearances (x :: seen) xs

/-- The marks of the regions of a new assignment: a region that has as many vertices as the former
region of its first vertex keeps the mark of that region. -/
def carryMarks (old : List (List Nat)) (marks : Array Bool) (regionOf : Nat → Nat)
    (regions : List (List Nat)) : Array Bool :=
  (List.range old.length).foldl (fun acc o =>
    let former := old.getD o []
    let r := regionOf (former.headD 0)
    if (regions.getD r []).length = former.length then
      acc.setIfInBounds r (marks.getD o false)
    else acc) (Array.replicate regions.length false)

/-- The partition into the components of the inactive edges. -/
def rebuild (P : Partition α) : Partition α :=
  let labels := P.componentLabels
  let order := firstAppearances [] (P.arena.map (Components.labelOf labels))
  let assignment := Vec.tabulate P.vertexCount fun v => order.idxOf (Components.labelOf labels v)
  let regions := order.map fun l => P.arena.filter fun v => Components.labelOf labels v == l
  let regionOf (v : Nat) : Nat := assignment.getD v 0
  { P with
    assignment := assignment
    regions := regions
    saturated := carryMarks P.regions P.saturated regionOf regions
    medianCached := carryMarks P.regions P.medianCached regionOf regions }

/-- Whether an edge joins two different regions. -/
def separates (P : Partition α) (e : Nat) : Bool :=
  P.regionOf (P.graph.tailOf e) != P.regionOf (P.graph.headOf e)

/-- Whether an edge joins two given regions. -/
def joins (P : Partition α) (r s e : Nat) : Bool :=
  let a := P.regionOf (P.graph.tailOf e)
  let b := P.regionOf (P.graph.headOf e)
  (a == r && b == s) || (a == s && b == r)

/-- The pairs of regions that some of the given edges join, the smaller region first, in the order
of the first and then of the second. -/
def joinedPairs (P : Partition α) (edges : List Nat) : List (Nat × Nat) :=
  (List.range P.regionCount).flatMap fun r =>
    ((List.range P.regionCount).filter fun s => decide (r < s) && edges.any (P.joins r s)).map
      fun s => (r, s)

variable [Scalar α]

/-- The total weight of those of the given edges that join two regions. -/
def joinWeight (P : Partition α) (edges : List Nat) (r s : Nat) : α :=
  edges.foldl (fun acc e => if P.joins r s e then acc + P.weight e else acc) 0

/-- The partition with the graph of its regions brought up to date. -/
def reduceGraph (P : Partition α) : Partition α :=
  let boundary := P.activeEdges.filter P.separates
  let pairs := P.joinedPairs boundary
  { P with
    active := Vec.tabulate P.edgeCount fun e => P.isActive e && P.separates e
    reducedEdges := pairs.toArray
    reducedWeights := (pairs.map fun p => P.joinWeight boundary p.1 p.2).toArray }

/-- The number of edges of the graph of the regions. -/
def reducedEdgeCount (P : Partition α) : Nat := P.reducedEdges.size

/-- Whether two values count as equal: their distance is at most `tolerance` times the larger
magnitude. -/
def areClose (tolerance a b : α) : Bool :=
  decide (Scalar.abs (a - b) ≤ tolerance * Scalar.max (Scalar.abs a) (Scalar.abs b))

/-- The edges of the graph of the regions whose two values count as equal. -/
def closePairs (P : Partition α) (x : Vec α) (tolerance : α) : List (Nat × Nat) :=
  P.reducedEdges.toList.filter fun p => areClose tolerance (Vec.entry x p.1) (Vec.entry x p.2)

/-- The partition with the boundaries inside the groups of regions that chains of links join
unmarked. -/
def openGroups (P : Partition α) (links : List (Nat × Nat)) : Partition α :=
  let group := Components.labels P.regionCount links
  let together (e : Nat) : Bool :=
    Components.labelOf group (P.regionOf (P.graph.tailOf e)) ==
      Components.labelOf group (P.regionOf (P.graph.headOf e))
  P.setActive (P.activeEdges.filter together) false

/-- The means over the regions of a vector over the vertices. -/
def regionMeans (P : Partition α) (values : Vec α) : Vec α :=
  let sums := P.regionSums values
  Vec.tabulate P.regionCount fun r => Vec.entry sums r / Nat.cast (P.sizeOf r)

/-- The partition after merging chains of close regions, the new value of each region, and the
number of regions that went. It is negative if boundaries that were marked since the last rebuilding
make more regions than the merger takes away. -/
def merge (P : Partition α) (x : Vec α) (tolerance : α) : Partition α × Vec α × Int :=
  let close := P.closePairs x tolerance
  if close.isEmpty then (P, x, 0)
  else
    let values := P.expand x
    let Q := (P.openGroups close).rebuild.reduceGraph
    (Q, Q.regionMeans values, Int.ofNat P.regionCount - Int.ofNat Q.regionCount)

/-- The outcome of merging with a vector that may be too short. The regions of all edges of the
graph of the regions must have a value before anything changes; a region without edges and without
a value is noticed only after the boundaries were opened. -/
def merge? (P : Partition α) (x : Vec α) (tolerance : α) :
    Partition α × Except (Failure α) (Vec α × Int) :=
  if P.reducedEdges.any fun p => x.size ≤ p.1 ∨ x.size ≤ p.2 then (P, .error .indexRange)
  else
    let close := P.closePairs x tolerance
    if close.isEmpty then (P, .ok (x, 0))
    else if P.covers x.size then
      let (Q, y, merged) := P.merge x tolerance
      (Q, .ok (y, merged))
    else (P.openGroups close, .error .indexRange)

end TotalVariation.Partition
