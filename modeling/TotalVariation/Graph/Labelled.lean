import TotalVariation.Graph.ForwardStar
import TotalVariation.Numeric.Vec

/-! # Labelled graphs

Undirected graphs on arbitrary nodes whose edges carry numbers under names. Nodes and edges keep
the order in which they came; an edge given again only renews its attributes. The listing of the
edges goes node by node, each with its neighbours in the order in which they became neighbours, and
every edge shows once, from the node that comes first.
-/

namespace TotalVariation

/-- Numbers under names. -/
abbrev Attributes (α : Type) := List (String × α)

namespace Attributes

variable {α : Type}

/-- The number under a name. -/
def find? (attributes : Attributes α) (name : String) : Option α := attributes.lookup name

def set (attributes : Attributes α) (name : String) (value : α) : Attributes α :=
  if attributes.any (·.1 == name) then
    attributes.map fun a => if a.1 == name then (name, value) else a
  else attributes ++ [(name, value)]

/-- The attributes renewed by later ones. -/
def renew (old new : Attributes α) : Attributes α := new.foldl (fun acc a => acc.set a.1 a.2) old

end Attributes

/-- An edge between two nodes with its attributes. -/
structure LabelledEdge (ν α : Type) where
  /-- The node it was given from. -/
  source : ν
  /-- The node it was given to. -/
  target : ν
  /-- Its numbers. -/
  attributes : Attributes α

/-- An undirected graph with labelled edges. -/
structure LabelledGraph (ν α : Type) where
  /-- The nodes in the order in which they came. -/
  nodes : List ν
  /-- The edges in the order in which they came, one for each pair of nodes. -/
  edges : List (LabelledEdge ν α)

namespace LabelledGraph

variable {ν α : Type} [DecidableEq ν]

/-- The graph without nodes. -/
def empty : LabelledGraph ν α := ⟨[], []⟩

/-- A list of nodes with one more, unless it is there. -/
def withNode (nodes : List ν) (v : ν) : List ν := if v ∈ nodes then nodes else nodes ++ [v]

/-- A list of edges with one more, or with renewed attributes if an edge matches it. -/
def withEdge (same : LabelledEdge ν α → Bool) (edges : List (LabelledEdge ν α))
    (new : LabelledEdge ν α) : List (LabelledEdge ν α) :=
  if edges.any same then
    edges.map fun e => if same e then { e with attributes := e.attributes.renew new.attributes }
      else e
  else edges ++ [{ new with attributes := Attributes.renew [] new.attributes }]

/-- Whether two edges join the same pair of nodes, in either direction. -/
def samePair (a b : LabelledEdge ν α) : Bool :=
  (a.source == b.source && a.target == b.target) || (a.source == b.target && a.target == b.source)

/-- Whether two edges have the same start and the same end. -/
def sameArc (a b : LabelledEdge ν α) : Bool := a.source == b.source && a.target == b.target

/-- The nodes of a graph with the ends of an edge. -/
def nodesWith (nodes : List ν) (e : LabelledEdge ν α) : List ν :=
  withNode (withNode nodes e.source) e.target

def addNode (G : LabelledGraph ν α) (v : ν) : LabelledGraph ν α :=
  { G with nodes := withNode G.nodes v }

/-- Add an edge, with its ends. -/
def addEdge (G : LabelledGraph ν α) (e : LabelledEdge ν α) : LabelledGraph ν α :=
  ⟨nodesWith G.nodes e, withEdge (samePair e) G.edges e⟩

/-- The graph of a list of nodes and a list of edges. -/
def ofEdges (nodes : List ν) (edges : List (LabelledEdge ν α)) : LabelledGraph ν α :=
  edges.foldl addEdge (nodes.foldl addNode empty)

/-- The nodes of a directed graph, and its arcs in the order of their starts. Arcs with the same
start and end are one. -/
def arcListing (nodes : List ν) (arcs : List (LabelledEdge ν α)) :
    List ν × List (LabelledEdge ν α) :=
  let all := arcs.foldl nodesWith (nodes.foldl withNode [])
  let distinct := arcs.foldl (fun acc a => withEdge (sameArc a) acc a) []
  (all, all.flatMap fun v => distinct.filter fun a => a.source == v)

/-- The undirected graph of a list of arcs: the directions are dropped, start by start in the order
of the nodes. -/
def ofArcs (nodes : List ν) (arcs : List (LabelledEdge ν α)) : LabelledGraph ν α :=
  let (all, listed) := arcListing nodes arcs
  ofEdges all listed

/-- The edges at a node, from that node, in the order in which they came. -/
def edgesAt (G : LabelledGraph ν α) (v : ν) : List (LabelledEdge ν α) :=
  G.edges.filterMap fun e =>
    if e.source = v then some e
    else if e.target = v then some ⟨e.target, e.source, e.attributes⟩
    else none

/-- The neighbours of a node in the order in which they became neighbours. -/
def neighbours (G : LabelledGraph ν α) (v : ν) : List ν := (G.edgesAt v).map (·.target)

/-- The listing of the edges after some nodes were seen. -/
def listingAfter (G : LabelledGraph ν α) : List ν → List ν → List (LabelledEdge ν α)
  | _, [] => []
  | seen, v :: rest =>
    (G.edgesAt v).filter (fun e => !seen.contains e.target) ++ listingAfter G (v :: seen) rest

/-- The listing of the edges, node by node, each edge once. -/
def listing (G : LabelledGraph ν α) : List (LabelledEdge ν α) := G.listingAfter [] G.nodes

/-- The same graph with the edges of the listing given new attributes. -/
def mapListing (G : LabelledGraph ν α) (attributes : Nat → Attributes α → Attributes α) :
    LabelledGraph ν α :=
  let listed := G.listing
  { G with
    edges := G.edges.map fun e =>
      match listed.findIdx? (samePair e) with
      | some k => { e with attributes := attributes k e.attributes }
      | none => e }

/-- The position of a node. -/
def indexOf (G : LabelledGraph ν α) (v : ν) : Nat := G.nodes.idxOf v

/-- The weight of an edge: the attribute of the given name, or a default. -/
def weightOf (name : Option String) (default : α) (e : LabelledEdge ν α) : α :=
  (name.bind e.attributes.find?).getD default

/-- The edges that carry variation: a loop has none. -/
def properEdges (G : LabelledGraph ν α) : List (LabelledEdge ν α) :=
  G.listing.filter fun e => e.source ≠ e.target

/-- The forward star of a graph, its vertices numbered in the order of the nodes, with the weights
of its edges. Loops are dropped. -/
def toForwardStar (G : LabelledGraph ν α) (name : Option String) (default : α) :
    ForwardStar × Array α :=
  let proper := G.properEdges
  let (star, order) := ForwardStar.ofEdges G.nodes.length
    (proper.map fun e => G.indexOf e.source).toArray
    (proper.map fun e => G.indexOf e.target).toArray
  let weights := (proper.map (weightOf name default)).toArray
  (star, (order.map fun e => weights.getD e default).toArray)

end LabelledGraph
end TotalVariation
