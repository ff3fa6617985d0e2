import TotalVariation.Graph.Labelled

/-! # Families of graphs

Paths, grids and connected random graphs on the nodes `0, …, n - 1`, with weights on their edges.
Random graphs are drawn by the caller: a draw is accepted when it is connected, and the next draw
is asked for one more edge.
-/

namespace TotalVariation.LabelledGraph

variable {α : Type} [Scalar α]

/-- An edge without attributes. -/
def bare (u v : Nat) : LabelledEdge Nat α := ⟨u, v, []⟩

/-- The number of nodes, if it is not negative. -/
def nodeCount? (n : Int) : Except (Failure α) Nat :=
  if n < 0 then throw .negativeNodeCount else pure n.toNat

/-- The path on `n` nodes. -/
def path (n : Nat) : LabelledGraph Nat α :=
  ofEdges (List.range n) ((List.range (n - 1)).map fun i => bare i (i + 1))

/-- The places of the nodes of a path, from left to right. -/
def pathPlaces (n : Nat) : List (α × α) := (List.range n).map fun i => (Nat.cast i, 0)

/-- The edges of a grid from one of its nodes: to the node below, then to the node on the right. -/
def gridEdgesFrom (rows cols i j : Nat) : List (LabelledEdge Nat α) :=
  (if i + 1 < rows then [bare (i * cols + j) ((i + 1) * cols + j)] else []) ++
    (if j + 1 < cols then [bare (i * cols + j) (i * cols + (j + 1))] else [])

/-- The grid with the given numbers of rows and columns, its nodes numbered row by row. -/
def grid (rows cols : Nat) : LabelledGraph Nat α :=
  ofEdges (List.range (rows * cols)) ((List.range rows).flatMap fun i =>
    (List.range cols).flatMap fun j => gridEdgesFrom rows cols i j)

/-- The places of the nodes of a grid, rows downwards. -/
def gridPlaces (rows cols : Nat) : List (α × α) :=
  (List.range rows).flatMap fun i =>
    (List.range cols).map fun j => (Nat.cast j, 0 - Nat.cast i)

/-- The complete graph on `n` nodes. -/
def complete (n : Nat) : LabelledGraph Nat α :=
  ofEdges (List.range n) ((List.range n).flatMap fun u =>
    ((List.range n).filter (u < ·)).map fun v => bare u v)

/-- The nodes that a list of edges reaches from some nodes, neighbours first to be found first. -/
def reached (G : LabelledGraph Nat α) : Nat → List Nat → List Nat → List Nat
  | 0, found, _ => found
  | fuel + 1, found, layer =>
    let next := layer.foldl (fun acc v => (G.neighbours v).foldl (fun acc w =>
      if found.contains w || acc.contains w then acc else acc ++ [w]) acc) []
    if next.isEmpty then found else G.reached fuel (found ++ next) next

/-- Whether a graph with nodes is connected. -/
def isConnected? (G : LabelledGraph Nat α) : Except (Failure α) Bool :=
  match G.nodes with
  | [] => throw .connectivityOfNothing
  | v :: _ => pure ((G.reached G.nodes.length [v] [v]).length == G.nodes.length)

/-- The first connected graph of a list of draws, and after them the complete graph; also the
numbers of edges that were asked for, one more at each draw. -/
def firstConnected? (n : Int) :
    List (List (LabelledEdge Nat α)) → Int → Except (Failure α) (LabelledGraph Nat α × List Int)
  | [], edges => do
    let G := complete (← nodeCount? n)
    if ← isConnected? G then pure (G, [edges]) else throw .connectivityOfNothing
  | draw :: draws, edges => do
    let G := ofEdges (List.range n.toNat) draw
    if ← isConnected? G then pure (G, [edges])
    else
      let (G, asked) ← firstConnected? n draws (edges + 1)
      pure (G, edges :: asked)

/-- A connected random graph with at least the given number of edges, and at least as many as a
tree has. -/
def random? (n edges : Int) (draws : List (List (LabelledEdge Nat α))) :
    Except (Failure α) (LabelledGraph Nat α × List Int) :=
  firstConnected? n draws (if edges < n - 1 then n - 1 else edges)

/-- How the edges of a graph are weighted. -/
inductive EdgeWeights (α : Type) where
  | common (weight : α)
  /-- Weights for the edges in the order of their listing; the rest stays without. -/
  | listed (weights : List α)
  /-- Weights between a tenth and one, from draws between zero and one. -/
  | drawn (draws : List α)

/-- The weights of the first edges of a listing. -/
def EdgeWeights.upTo (w : EdgeWeights α) (edges : Nat) : List α :=
  match w with
  | .common a => List.replicate edges a
  | .listed ws => ws.take edges
  | .drawn ds =>
    (ds.take edges).map fun d => Scalar.ratio 1 10 + (1 - Scalar.ratio 1 10) * d

def withWeights (G : LabelledGraph Nat α) (w : EdgeWeights α) : LabelledGraph Nat α :=
  let weights := (w.upTo G.edges.length).toArray
  G.mapListing fun k attributes => match weights[k]? with
    | some a => attributes.set "weight" a
    | none => attributes

end TotalVariation.LabelledGraph
