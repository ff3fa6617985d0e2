import TotalVariation.Graph.Labelled

/-! # Figures

What the figures of the library show: the objective and the evolution along the rounds of a run, and
a graph whose edges between different regions stand out.
-/

namespace TotalVariation.Figure

variable {α : Type} [Scalar α]

/-- Where the points of a line stand. -/
inductive Abscissas (α : Type) where
  /-- At whole numbers. -/
  | counts (values : List Nat)
  | times (values : List α)

namespace Abscissas

/-- The number of points. -/
def length : Abscissas α → Nat
  | counts values => values.length
  | times values => values.length

end Abscissas

/-- A line of a diagram. -/
structure Line (α : Type) where
  /-- Where its points stand. -/
  xs : Abscissas α
  /-- How high its points stand. -/
  ys : List α
  color : String
  style : String

/-- An axis of a diagram with the lines drawn on it. -/
structure Axis (α : Type) where
  label : String
  scale : String
  lines : List (Line α)

/-- A diagram with a common horizontal axis. -/
structure Diagram (α : Type) where
  /-- The label of the horizontal axis. -/
  xlabel : String
  /-- The vertical axes. -/
  axes : List (Axis α)

/-- A line whose points have both coordinates. -/
def line? (xs : Abscissas α) (ys : List α) (color style : String) :
    Except (Failure α) (Line α) :=
  if xs.length = ys.length then pure ⟨xs, ys, color, style⟩ else throw .lengths

/-- The least positive number that is shown on a logarithmic axis. -/
def leastShown : α := Scalar.ratio 1 (Nat.pow 2 1022)

/-- The axis of the objectives, from the start on. -/
def objectiveAxis? (objectives : List α) (times : Option (List α)) :
    Except (Failure α) (Axis α) := do
  let xs : Abscissas α := match times with
    | some ts => .times ts
    | none => .counts (List.range objectives.length)
  pure ⟨"objective", "linear", [← line? xs objectives "black" "-"]⟩

/-- The axis of the evolutions, from the first round on. -/
def evolutionAxis? (evolutions : List α) (times : Option (List α)) :
    Except (Failure α) (Axis α) := do
  let xs : Abscissas α := match times with
    | some ts => .times (ts.drop 1)
    | none => .counts ((List.range evolutions.length).map (· + 1))
  let shown := evolutions.map (Scalar.max · leastShown)
  pure ⟨"relative evolution", "log", [← line? xs shown "red" "--"]⟩

/-- The diagram of a run. Without lines there is one bare axis. -/
def convergence? (objectives evolutions times : Option (List α)) :
    Except (Failure α) (Diagram α) := do
  let objective ← objectives.mapM (objectiveAxis? · times)
  let evolution ← evolutions.mapM (evolutionAxis? · times)
  let axes := objective.toList ++ evolution.toList
  pure ⟨if times.isSome then "time (s)" else "iteration",
    if axes.isEmpty then [⟨"", "linear", []⟩] else axes⟩

/-- A drawing of a graph. -/
structure Drawing where
  title : String
  /-- The number of its axes: one more with a colour bar. -/
  axes : Nat
  edgeColors : List String
  /-- The texts at the nodes, sorted. -/
  labels : List String

/-- The values of the nodes of a graph: in their order, or by node. -/
inductive NodeValues (ν α : Type) where
  /-- In the order of the nodes. -/
  | ordered (values : List α)
  | byNode (values : List (ν × α))

variable {ν : Type} [DecidableEq ν]

/-- The values of the nodes, in their order; all nodes need one where they are given by node. -/
def NodeValues.inOrder? (nodes : List ν) : NodeValues ν α → Except (Failure α) (List α)
  | ordered values => pure values
  | byNode values => nodes.mapM fun v => match values.reverse.lookup v with
    | some a => pure a
    | none => throw .unknownName

/-- The colour of an edge: one between different regions stands out. -/
def edgeColor? (regions : List (ν × Int)) (e : LabelledEdge ν α) : Except (Failure α) String :=
  match regions.lookup e.source, regions.lookup e.target with
  | some r, some s => pure (if r ≠ s then "red" else "lightgrey")
  | _, _ => throw .unknownName

/-- The drawing of a graph with the given nodes and edges. The nodes have labels if there are few of
them, or on request. -/
def drawing? (nodes : List ν) (edges : List (LabelledEdge ν α)) (nameOf : ν → String)
    (values : NodeValues ν α) (regions : Option (List Int)) (colorBar showLabels : Bool)
    (title : Option String) : Except (Failure α) Drawing := do
  let shown ← values.inOrder? nodes
  if shown.isEmpty then throw .invalidValue
  let colors ← match regions with
    | none => pure (edges.map fun _ => "lightgrey")
    | some rs => edges.mapM (edgeColor? (nodes.zip rs))
  if shown.length ≠ nodes.length ∧ shown.length ≠ 1 ∧ nodes ≠ [] then throw .lengths
  let labels := if nodes.length < 25 || showLabels then nodes.map nameOf else []
  pure ⟨title.getD "", if colorBar then 2 else 1, colors,
    labels.mergeSort fun a b => decide (a ≤ b)⟩

end TotalVariation.Figure
