import TotalVariation.Problem.Basic
import TotalVariation.Report

/-! # Preconditioned splitting

Forward-backward steps on the quadratic term alternate with the proximal maps of the single terms
of the variation and of the separable terms. Each edge keeps one copy of the value at each of its
ends, each vertex one copy for its separable term; the iterate is the mean of the copies. The metric
is diagonal: the inverse of a majorant of the curvature, bounded from below relative to its largest
entry.
-/

namespace TotalVariation.Splitting

/-- The parameters of the iteration. -/
structure Parameters (α : Type) where
  /-- The relaxation, between zero and two. -/
  relaxation : α
  /-- The least curvature that counts, relative to the largest. -/
  conditioning : α
  /-- The evolution below which the metric is computed anew; not positive for never. -/
  reconditioning : α
  /-- The relative evolution below which the iteration stops. -/
  tolerance : α
  /-- The largest number of iterations. -/
  maxIterations : Nat
  /-- Whether to report. -/
  verbose : Bool

variable {α : Type} [Scalar α]

/-- The inverse of the curvature, where curvatures below `conditioning` times the largest are raised
to that. Without positive curvature the metric is that of the plain distance. -/
def invertCurvature (conditioning : α) (curvature : Vec α) : Vec α :=
  let largest := (Vec.largest? curvature).getD 0
  if largest ≤ 0 then Vec.constant curvature.size 1
  else curvature.map fun c => 1 / Scalar.max c (conditioning * largest)

/-- The curvature of the variation at a point: across an edge of weight `w` whose values differ by
`d`, `w` over `d`, or over a tolerance if that is larger. -/
def edgeCurvature (tolerance weight a b : α) : α :=
  weight / Scalar.max (Scalar.abs (a - b)) tolerance

/-- The metric of a quadratic term alone. -/
def plainMetric (conditioning : α) (q : Quadratic α) : Vec α :=
  invertCurvature conditioning q.majorant

/-- The metric of a quadratic term and of the variation at a point. -/
def metricAt (conditioning tolerance : α) (q : Quadratic α) (edges : Array (Nat × Nat))
    (weights : Vec α) (x : Vec α) : Vec α :=
  let majorant := q.majorant
  let n := majorant.size
  let ends (e : Nat) : Nat × Nat := edges.getD e (0, 0)
  let curvature : Vec α := Vec.tabulate edges.size fun e =>
    edgeCurvature tolerance (Vec.entry weights e) (Vec.entry x (ends e).1) (Vec.entry x (ends e).2)
  let outgoing := Vec.scatter n edges.size (fun e => (ends e).1) (Vec.entry curvature)
  let incoming := Vec.scatter n edges.size (fun e => (ends e).2) (Vec.entry curvature)
  invertCurvature conditioning
    (Vec.tabulate n fun i => Vec.entry majorant i + Vec.entry outgoing i + Vec.entry incoming i)

/-- The copies of the values and the iterate that they make. -/
structure State (α : Type) where
  /-- The iterate. -/
  x : Vec α
  /-- The copies at the first ends of the edges. -/
  atFrom : Vec α
  /-- The copies at the second ends of the edges. -/
  atTo : Vec α
  /-- The copies for the separable terms. -/
  atVertex : Vec α
  /-- The last values of the separable proximal map; they respect the bounds. -/
  separable : Vec α
  metric : Vec α
  /-- The evolution below which the metric is computed anew. -/
  reconditioning : α
  /-- The relative evolution in the last iteration. -/
  evolution : Option α

/-- The share of each copy of a vertex in its value: one over the number of copies. -/
def shares (p : Problem α) : Vec α :=
  let outgoing := Vec.scatter p.size p.edges.size p.edgeFrom fun _ => 1
  let incoming := Vec.scatter p.size p.edges.size p.edgeTo fun _ => 1
  Vec.tabulate p.size fun v => (1 : α) / (1 + Vec.entry outgoing v + Vec.entry incoming v)

/-- The values of the separable proximal map at a point, in a given metric. -/
def separableStep (p : Problem α) (metric : Nat → α) (point : Nat → α) : Vec α :=
  Vec.tabulate p.size fun v =>
    Proximal.separable (metric v) (p.targetWeightAt v) (Vec.entry p.targets v) (p.lowerAt v)
      (p.upperAt v) (point v)

/-- The state in which all copies agree with an iterate. -/
def restart (p : Problem α) (metric : Vec α) (reconditioning : α) (x separable : Vec α)
    (evolution : Option α) : State α where
  x := x
  atFrom := Vec.tabulate p.edges.size fun e => Vec.entry x (p.edgeFrom e)
  atTo := Vec.tabulate p.edges.size fun e => Vec.entry x (p.edgeTo e)
  atVertex := x
  separable := separable
  metric := metric
  reconditioning := reconditioning
  evolution := evolution

/-- The first iterate without a given one: a forward-backward step from zero. -/
def firstIterate (p : Problem α) (metric : Vec α) : Vec α :=
  let gradient := p.quadratic.gradientAt (Vec.constant p.size 0)
  separableStep p (fun v => 1 / Vec.entry metric v)
    fun v => -Vec.entry metric v * Vec.entry gradient v

/-- The relative evolution from one iterate to the next; the absolute one for a next iterate that
counts as zero. -/
def evolution (x next : Vec α) : α :=
  let amplitude := Vec.norm next
  let change := Vec.norm (Vec.tabulate next.size fun v => Vec.entry next v - Vec.entry x v)
  if Scalar.epsilon < amplitude then change / amplitude else change

/-- The iterate that copies make, given the shares of the vertices. -/
def assemble (p : Problem α) (shares atFrom atTo atVertex : Vec α) : Vec α :=
  let outgoing := Vec.scatter p.size p.edges.size p.edgeFrom (Vec.entry atFrom)
  let incoming := Vec.scatter p.size p.edges.size p.edgeTo (Vec.entry atTo)
  Vec.tabulate p.size fun v =>
    Vec.entry shares v * (Vec.entry outgoing v + Vec.entry incoming v + Vec.entry atVertex v)

/-- One iteration. -/
def step (p : Problem α) (relaxation : α) (shares : Vec α) (s : State α) : State α :=
  let gradient := p.quadratic.gradientAt s.x
  let forward : Vec α := Vec.tabulate p.size fun v =>
    Vec.entry s.metric v * Vec.entry gradient v
  let weight (v : Nat) : α := Vec.entry shares v / Vec.entry s.metric v
  let reflected (v : Nat) (copy : α) : α :=
    Scalar.two * Vec.entry s.x v - copy - Vec.entry forward v
  let pairs := Vec.tabulate p.edges.size fun e =>
    let u := p.edgeFrom e
    let v := p.edgeTo e
    Proximal.pair (weight u) (weight v) (Vec.entry p.edgeWeights e)
      (reflected u (Vec.entry s.atFrom e)) (reflected v (Vec.entry s.atTo e))
  let pairAt (e : Nat) : α × α := pairs.getD e (0, 0)
  let atFrom := Vec.tabulate p.edges.size fun e =>
    Vec.entry s.atFrom e + relaxation * ((pairAt e).1 - Vec.entry s.x (p.edgeFrom e))
  let atTo := Vec.tabulate p.edges.size fun e =>
    Vec.entry s.atTo e + relaxation * ((pairAt e).2 - Vec.entry s.x (p.edgeTo e))
  let separable := separableStep p weight fun v => reflected v (Vec.entry s.atVertex v)
  let atVertex := Vec.tabulate p.size fun v =>
    Vec.entry s.atVertex v + relaxation * (Vec.entry separable v - Vec.entry s.x v)
  let x := assemble p shares atFrom atTo atVertex
  { s with
    x := x
    atFrom := atFrom
    atTo := atTo
    atVertex := atVertex
    separable := separable
    evolution := some (evolution s.x x) }

/-- The state after an iteration, with the metric computed anew if the evolution fell below the
threshold for it. -/
def recondition (p : Problem α) (k : Parameters α) (change : α) (s : State α) : State α :=
  if 0 < s.reconditioning ∧ change < s.reconditioning then
    let largest := (Vec.largest? (s.x.map Scalar.abs)).getD 0
    let wanted := k.tolerance * largest
    let tolerance := if wanted < Scalar.epsilon then Scalar.epsilon else wanted
    let metric := metricAt k.conditioning tolerance p.quadratic p.edges p.edgeWeights s.x
    restart p metric (s.reconditioning / Nat.cast 10) s.x s.separable s.evolution
  else s

/-- Iterate: the last state, the number of iterations made, and the report on them. The report
shows the first iteration and every hundredth. -/
def iterate (p : Problem α) (k : Parameters α) (shares : Vec α) :
    Nat → Nat → State α → List (Event α) → State α × Nat × List (Event α)
  | 0, done, s, events => (s, done, events)
  | fuel + 1, done, s, events =>
    let next := step p k.relaxation shares s
    let change := next.evolution.getD 0
    let events :=
      if k.verbose && (done == 0 || (done + 1) % 100 == 0) then
        .splittingIteration (done + 1) change (p.objective next.x) :: events
      else events
    if change < k.tolerance then (next, done + 1, events)
    else iterate p k shares fuel (done + 1) (recondition p k change next) events

/-- What the iteration returns. -/
structure Answer (α : Type) where
  /-- The solution. -/
  x : Vec α
  iterations : Nat
  /-- The report. -/
  events : List (Event α)

/-- The state before the first iteration. -/
def start (p : Problem α) (k : Parameters α) (init : Option (Vec α)) : State α :=
  let metric := plainMetric k.conditioning p.quadratic
  let x := init.getD (firstIterate p metric)
  restart p metric k.reconditioning x x none

/-- The solution of a problem by splitting. It is the last outcome of the separable proximal map if
there are targets or bounds, so that it respects the bounds, and the last iterate otherwise. -/
def solve (p : Problem α) (k : Parameters α) (init : Option (Vec α)) : Answer α :=
  let (s, iterations, events) := iterate p k (shares p) k.maxIterations 0 (start p k init) []
  { x := if p.isSeparable then s.separable else s.x
    iterations := iterations
    events :=
      if k.verbose then
        .splittingStarted p.size p.edges.size ::
          (events.reverse ++ [.splittingFinished iterations s.evolution])
      else [] }

/-- The solution of a problem by splitting, from an initial iterate that may have another length
than the problem: it is returned as it is if no iteration is made. -/
def solve? (p : Problem α) (k : Parameters α) (init : Option (Vec α)) :
    Except (Failure α) (Answer α) :=
  match init with
  | none => pure (solve p k none)
  | some x =>
    if p.edges.any fun e => x.size ≤ e.1 ∨ x.size ≤ e.2 then throw .indexRange
    else if x.size ≠ p.size ∧ k.maxIterations ≠ 0 then throw .lengths
    else pure (solve p k init)

end TotalVariation.Splitting
