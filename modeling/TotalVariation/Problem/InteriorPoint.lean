import TotalVariation.Numeric.Elimination
import TotalVariation.Problem.Basic

/-! # Interior points

The reference method for problems on graphs: a primal-dual interior point iteration. Each term
`w |a - b|` is written with the two parts of its difference, `a - b = s - t` with `s` and `t`
positive, and each bound with its slack. Newton steps follow the central path of the products of
slacks and multipliers towards zero. A trace of curvature is added to the quadratic term, so that a
problem without a minimum shows by a solution far out.
-/

namespace TotalVariation.InteriorPoint

variable {α : Type} [Scalar α]

/-- A term `weight * |x first - x second - offset|`, without second variable for a target. -/
structure Distance (α : Type) where
  /-- The weight, positive. -/
  weight : α
  /-- The first variable. -/
  first : Nat
  /-- The second variable, if there is one. -/
  second : Option Nat
  offset : α

namespace Distance

/-- The difference of the values that a vector has at the variables of a term. -/
def difference (d : Distance α) (x : Vec α) : α :=
  Vec.entry x d.first - match d.second with
    | some v => Vec.entry x v
    | none => 0

/-- The coefficient of a variable in the difference. -/
def coefficient (d : Distance α) (v : Nat) : α :=
  (if d.first = v then 1 else 0) - (if d.second = some v then 1 else 0)

/-- The variables of a term. -/
def support (d : Distance α) : List Nat := d.first :: d.second.toList

end Distance

/-- The terms of a problem with a weight, loops left out. -/
def distances (p : Problem α) : Array (Distance α) :=
  let variation := (List.range p.edges.size).filterMap fun e =>
    let w := Vec.entry p.edgeWeights e
    if 0 < w ∧ p.edgeFrom e ≠ p.edgeTo e then
      some ⟨w, p.edgeFrom e, some (p.edgeTo e), 0⟩
    else none
  let targets := (List.range p.size).filterMap fun v =>
    match p.targetWeightAt v with
    | some w => if 0 < w then some ⟨w, v, none, Vec.entry p.targets v⟩ else none
    | none => none
  (variation ++ targets).toArray

/-- A bound `sign * x variable ≥ level`. -/
structure Wall (α : Type) where
  /-- The variable. -/
  index : Nat
  /-- One for a lower bound, minus one for an upper bound. -/
  sign : α
  /-- The bound, times the sign. -/
  level : α

/-- The bounds of a problem. -/
def walls (p : Problem α) : Array (Wall α) :=
  let lower := (List.range p.size).filterMap fun v =>
    ((p.lowerAt v).filter Scalar.isFinite).map fun l => ⟨v, 1, l⟩
  let upper := (List.range p.size).filterMap fun v =>
    ((p.upperAt v).filter Scalar.isFinite).map fun u => ⟨v, -1, -u⟩
  (lower ++ upper).toArray

/-- A point with its slacks and multipliers. -/
structure Point (α : Type) where
  /-- The variables. -/
  x : Vec α
  /-- The positive parts of the differences. -/
  above : Vec α
  /-- The negative parts of the differences. -/
  below : Vec α
  /-- The multipliers of the differences, between plus and minus the weights. -/
  pull : Vec α
  /-- The slacks of the bounds. -/
  slack : Vec α
  /-- The multipliers of the bounds. -/
  push : Vec α

/-- The data of the iteration. -/
structure Data (α : Type) where
  hessian : DenseMatrix α
  /-- The linear part. -/
  linear : Vec α
  distances : Array (Distance α)
  /-- The bounds. -/
  walls : Array (Wall α)

/-- A neutral term. -/
def noDistance : Distance α := ⟨0, 0, none, 0⟩

/-- A neutral bound. -/
def noWall : Wall α := ⟨0, 0, 0⟩

/-- The mean product of slacks and multipliers. -/
def meanGap (d : Data α) (q : Point α) : α :=
  let m := d.distances.size
  let k := d.walls.size
  let weight (i : Nat) : α := (d.distances.getD i noDistance).weight
  let distanceGap := Vec.total m fun i =>
    Vec.entry q.above i * (weight i - Vec.entry q.pull i) +
      Vec.entry q.below i * (weight i + Vec.entry q.pull i)
  let wallGap := Vec.total k fun j => Vec.entry q.slack j * Vec.entry q.push j
  (distanceGap + wallGap) / Nat.cast (Nat.max 1 (2 * m + k))

/-- The longest step, at most one, that keeps positive numbers positive along their changes. -/
def longestStep (values changes : List α) : α :=
  (values.zip changes).foldl (fun step (v, c) =>
    if c < 0 ∧ v < step * (0 - c) then v / (0 - c) else step) 1

/-- The Newton step towards the point of the central path whose products are `aim`, shortened so
that everything positive stays so. -/
def advance (d : Data α) (aim : α) (q : Point α) : Point α :=
  let n := d.linear.size
  let m := d.distances.size
  let k := d.walls.size
  let term (i : Nat) : Distance α := d.distances.getD i noDistance
  let wall (j : Nat) : Wall α := d.walls.getD j noWall
  let s (i : Nat) : α := Vec.entry q.above i
  let t (i : Nat) : α := Vec.entry q.below i
  let z (i : Nat) : α := Vec.entry q.pull i
  let ls (i : Nat) : α := (term i).weight - z i
  let lt (i : Nat) : α := (term i).weight + z i
  let image := d.hessian.mulVec q.x
  let pulled : Vec α := (List.range m).foldl (fun acc i =>
    (term i).support.foldl (fun acc v =>
      acc.modify v (· + (term i).coefficient v * z i)) acc) (Vec.constant n 0)
  let pushed : Vec α := Vec.scatter n k (fun j => (wall j).index)
    fun j => (wall j).sign * Vec.entry q.push j
  let stationary (v : Nat) : α :=
    Vec.entry d.linear v - Vec.entry image v - Vec.entry pulled v + Vec.entry pushed v
  let mismatch (i : Nat) : α := (term i).difference q.x - (term i).offset - s i + t i
  let stiffness : Vec α := Vec.tabulate m fun i => 1 / (s i / ls i + t i / lt i)
  let load : Vec α := Vec.tabulate m fun i =>
    (aim / ls i - s i) - (aim / lt i - t i) - mismatch i
  let wallMismatch (j : Nat) : α :=
    (wall j).sign * Vec.entry q.x (wall j).index - (wall j).level - Vec.entry q.slack j
  let wallStiffness (j : Nat) : α := Vec.entry q.push j / Vec.entry q.slack j
  let wallLoad (j : Nat) : α :=
    aim / Vec.entry q.slack j - Vec.entry q.push j - wallStiffness j * wallMismatch j
  let base := d.hessian.data
  let withTerms : Array (Vec α) := (List.range m).foldl (fun rows i =>
    (term i).support.foldl (fun rows u =>
      (term i).support.foldl (fun rows v =>
        rows.modify u fun row => row.modify v
          (· + (term i).coefficient u * (term i).coefficient v * Vec.entry stiffness i))
        rows) rows) base
  let withWalls : Array (Vec α) := (List.range k).foldl (fun rows j =>
    rows.modify (wall j).index fun row => row.modify (wall j).index (· + wallStiffness j))
    withTerms
  let rightTerms : Vec α := (List.range m).foldl (fun acc i =>
    (term i).support.foldl (fun acc v =>
      acc.modify v (· + (term i).coefficient v * Vec.entry stiffness i * Vec.entry load i)) acc)
    (Vec.tabulate n stationary)
  let right : Vec α := (List.range k).foldl (fun acc j =>
    acc.modify (wall j).index (· + (wall j).sign * wallLoad j)) rightTerms
  let dx := Elimination.solve ⟨n, n, withWalls⟩ right
  let dz := Vec.tabulate m fun i =>
    Vec.entry stiffness i * ((term i).difference dx - Vec.entry load i)
  let ds := Vec.tabulate m fun i => (aim + s i * Vec.entry dz i) / ls i - s i
  let dt := Vec.tabulate m fun i => (aim - t i * Vec.entry dz i) / lt i - t i
  let dp := Vec.tabulate k fun j =>
    (wall j).sign * Vec.entry dx (wall j).index + wallMismatch j
  let dm := Vec.tabulate k fun j =>
    aim / Vec.entry q.slack j - Vec.entry q.push j - wallStiffness j * Vec.entry dp j
  let step := longestStep
    (q.above.toList ++ q.below.toList ++ (List.range m).map ls ++ (List.range m).map lt ++
      q.slack.toList ++ q.push.toList)
    (ds.toList ++ dt.toList ++ dz.toList.map (0 - ·) ++ dz.toList ++ dp.toList ++ dm.toList)
  let step := if step < 1 then Scalar.ratio 99 100 * step else step
  let move (a b : Vec α) : Vec α :=
    Vec.tabulate a.size fun i => Vec.entry a i + step * Vec.entry b i
  ⟨move q.x dx, move q.above ds, move q.below dt, move q.pull dz, move q.slack dp, move q.push dm⟩

/-- Follow the central path until the mean product is below a threshold. -/
def follow (d : Data α) (threshold : α) : Nat → Point α → Point α
  | 0, q => q
  | fuel + 1, q =>
    let gap := meanGap d q
    let next := advance d (gap / Nat.cast 10) q
    if gap < threshold then next else follow d threshold fuel next

/-- The result of the reference method. -/
inductive Outcome (α : Type) where
  /-- A minimiser. -/
  | solved (x : Vec α)
  /-- The bounds exclude each other. -/
  | infeasible
  /-- The objective has no lower bound. -/
  | unbounded

/-- Whether the bounds of some variable exclude each other. -/
def isInfeasible (p : Problem α) : Bool :=
  (List.range p.size).any fun v =>
    match (p.lowerAt v).filter Scalar.isFinite, (p.upperAt v).filter Scalar.isFinite with
    | some l, some u => decide (u < l)
    | _, _ => false

/-- The curvature that is added to a Hessian. -/
def trace : α := Scalar.ratio 1 (Nat.pow 10 10)

/-- The magnitude of a solution from which on the objective counts as without lower bound. -/
def farOut : α := Nat.cast 1000000

/-- The data of the iteration for a problem. -/
def dataOf (p : Problem α) : Data α :=
  let H := p.quadratic.hessian
  { hessian := .ofFn p.size p.size fun i j => H.entry i j + if i = j then trace else 0
    linear := p.quadratic.linear
    distances := distances p
    walls := walls p }

/-- The point from which the iteration starts: every slack is one and more, and so is every
multiplier of a bound. -/
def startOf (d : Data α) : Point α where
  x := Vec.constant d.linear.size 0
  above := d.distances.map fun t => 1 + Scalar.max (0 - t.offset) 0
  below := d.distances.map fun t => 1 + Scalar.max t.offset 0
  pull := Vec.constant d.distances.size 0
  slack := d.walls.map fun w => 1 + Scalar.abs w.level
  push := Vec.constant d.walls.size 1

/-- A minimiser of the objective of a problem, its bounds respected. -/
def solve (p : Problem α) : Outcome α :=
  if isInfeasible p then .infeasible
  else
    let d := dataOf p
    let x := (follow d (Scalar.ratio 1 (Nat.pow 10 14)) 300 (startOf d)).x
    if x.any fun a => farOut < Scalar.abs a then .unbounded else .solved x

/-- A minimiser, or the reason why there is none. Initial values do not change the result, but must
be as many as there are variables. -/
def solve? (p : Problem α) (init : Option (Vec α)) : Except (Failure α) (Vec α) := do
  if init.any fun x => x.size ≠ p.size then throw .lengths
  match solve p with
  | .solved x => pure x
  | .infeasible => throw (.unsolved "infeasible")
  | .unbounded => throw (.unsolved "unbounded")

end TotalVariation.InteriorPoint
