import TotalVariation.Flow.Cut
import TotalVariation.Solver.Reduced
import TotalVariation.Workload

/-! # Splitting regions

A region that is not known to be solved is tested for a direction along which the objective drops
and that moves a part of its vertices alike. The best part is a minimal cut: a vertex pays the slope
of the smooth part of the objective if it moves, an edge its weight if only one of its ends moves. A
vertex at its target pays for leaving it in either direction, a vertex at a bound cannot pass it.
Moving up and moving down are two cuts, the second among the edges that the first left uncut; they
agree where nothing but the variation is not smooth, and then one is enough. The edges that are cut
become boundaries.
-/

namespace TotalVariation.Solver

variable {α : Type} [Scalar α]

/-- The slope of the variation across the boundaries, at each vertex. The end with the larger value
of a boundary has the weight, the other its opposite. -/
def boundarySlope (P : Partition α) (x : Vec α) (slope : Vec α) : Vec α :=
  let weightFrom (e : Nat) : α :=
    if Vec.entry x (P.graph.headOf e) < Vec.entry x (P.graph.tailOf e) then P.weight e
    else -P.weight e
  let added := P.activeEdges.foldl (fun g e => g.modify (P.graph.tailOf e) (· + weightFrom e)) slope
  P.activeEdges.foldl (fun g e => g.modify (P.graph.headOf e) (· + -weightFrom e)) added

/-- The slope of the distance to the targets, at each vertex that is off its target. -/
def targetSlope (s : Solver α) (x slope : Vec α) : Vec α :=
  match s.targetWeight? with
  | none => slope
  | some w =>
    Vec.tabulate slope.size fun v =>
      Vec.entry slope v + w v * Scalar.sign (Vec.entry x v - s.target v)

/-- The slope of the smooth part of the objective at the iterate: the quadratic term, the variation
across the boundaries, the distance to the targets away from them. -/
def gradient? (s : Solver α) : Except (Failure α) (Vec α) := do
  let P := s.partition
  let smooth ← s.quadratic.regionGradient? P s.x s.residual
  let x ← match s.x with
    | some x => P.expand? x
    | none => throw .indexRange
  pure (s.targetSlope x (boundarySlope P x smooth))

/-- The edges cut by a minimal cut among vertices with the given prices. -/
def cutEdges? (P : Partition α) (vertices : List Nat) (price : Nat → Terminal α)
    (edges : List Nat) : Except (Failure α) (List Nat) := do
  let tails := edges.map P.graph.tailOf
  let heads := edges.map P.graph.headOf
  let weights := (edges.map P.weight).toArray
  let problem : CutProblem Nat α := .ofVertices vertices
  let problem ← problem.setTerminals? vertices (vertices.map price).toArray
  let problem ← problem.addLinks? tails.toArray heads.toArray weights weights
  let problem ← problem.solve
  let tailSides ← problem.sinkSideOf? tails
  let headSides ← problem.sinkSideOf? heads
  pure (((edges.zip (tailSides.zip headSides)).filter fun e => e.2.1 != e.2.2).map (·.1))

/-- Whether a value stands at its target. -/
def isAtTarget (s : Solver α) (x : α) (v : Nat) : Bool := Scalar.same (s.target v) x

/-- Whether a value stands at a bound. -/
def isAtBound (bounds : Option (Nat → Bound α)) (x : α) (v : Nat) : Bool :=
  (bounds.bind (· v)).any (Scalar.same · x)

/-- The price of moving a vertex up: its slope, raised by the weight of its target if it stands
there; a vertex at its upper bound stays. -/
def upwardPrice (s : Solver α) (slope : Vec α) (x : α) (v : Nat) : Terminal α :=
  if isAtBound (boundsOf? s.upper) x v then .sourceOnly
  else match s.targetWeight? with
    | some w =>
      .finite (if s.isAtTarget x v then Vec.entry slope v + w v else Vec.entry slope v)
    | none => .finite (Vec.entry slope v)

/-- The price of not moving a vertex down, negated: its slope, lowered by the weight of its target
if it stands there; a vertex at its lower bound stays. -/
def downwardPrice (s : Solver α) (slope : Vec α) (x : α) (v : Nat) : Terminal α :=
  if isAtBound (boundsOf? s.lower) x v then .sinkOnly
  else match s.targetWeight? with
    | some w =>
      .finite (if s.isAtTarget x v then Vec.entry slope v - w v else Vec.entry slope v)
    | none => .finite (Vec.entry slope v)

/-- Whether nothing but the variation keeps the objective from being smooth. -/
def needsOneCut (s : Solver α) : Bool :=
  s.targetWeight?.isNone && (boundsOf? s.lower).isNone && (boundsOf? s.upper).isNone

/-- The edges inside a region that should become boundaries. -/
def splitRegion? (s : Solver α) (slope : Vec α) (oneCut : Bool) (r : Nat) :
    Except (Failure α) (List Nat) := do
  let P := s.partition
  let vertices := P.region r
  if vertices.length < 2 then pure []
  else
    let edges := (P.edgesFrom vertices).filter fun e => !P.isActive e
    if edges.isEmpty then pure []
    else
      let x := Vec.entry (s.x.getD #[]) r
      let upward ← cutEdges? P vertices (s.upwardPrice slope x) edges
      let remaining := edges.filter fun e => !upward.contains e
      if oneCut || remaining.isEmpty then pure upward
      else
        let downward ← cutEdges? P vertices (s.downwardPrice slope x) remaining
        pure (upward ++ downward)

/-- The regions that are not known to be solved. -/
def openRegions (P : Partition α) : List Nat :=
  (List.range P.regionCount).filter fun r => !P.isSaturated r

/-- Mark the edges found in a region as boundaries; a region without such edges is solved. -/
def markRegion (P : Partition α) (r : Nat) (edges : List Nat) : Partition α :=
  let Q := P.setActive edges true
  { Q with saturated := Q.saturated.setIfInBounds r edges.isEmpty }

/-- Split the regions that are not known to be solved. The answer is the number of edges that became
boundaries. -/
def split : Step α Nat := do
  let s ← get
  let slope ← s.gradient?
  let regions := openRegions s.partition
  let found ← Workload.outcomes (s.splitRegion? slope s.needsOneCut) regions
  let cuts := regions.zip found
  modifyPartition fun P => cuts.foldl (fun P (r, edges) => markRegion P r edges) P
  pure (cuts.foldl (fun n (_, edges) => n + edges.length) 0)

end TotalVariation.Solver
