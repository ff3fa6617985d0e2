import TotalVariation.Solver.Split

/-! # Runs of a solver

A run starts from one region for each component of the graph and makes rounds: split the regions,
rebuild them, solve the problem over the regions, merge neighbours with equal values. It ends when
no region can be split, when the iterate has settled, or after the largest number of rounds.

The steps that depend on the problem are gathered in a record, so that the loop is one for all.
-/

namespace TotalVariation

/-- The steps of a solver that depend on its problem. -/
structure Steps (α : Type) where
  /-- The best constant over the whole graph. -/
  constantSolution : Step α α
  /-- Solve the problem over the regions. -/
  reducedSolution : Step α Unit
  /-- Split regions; answers the number of new boundaries. -/
  split : Step α Nat
  /-- The evolution of the iterate since it was kept. -/
  evolution : Step α α
  /-- The objective at the iterate. -/
  objective : Step α α
  /-- What is to be done after regions were merged. -/
  merged : Step α Unit

/-- The steps of a solver without a problem: none of them can be made. -/
def Steps.unspecified {α : Type} : Steps α where
  constantSolution := throw .unspecified
  reducedSolution := throw .unspecified
  split := throw .unspecified
  evolution := throw .unspecified
  objective := throw .unspecified
  merged := pure ()

namespace Solver

variable {α : Type} [Scalar α]

/-- The value of a field that must have been set. -/
def require {β : Type} (field : Option β) (failure : Failure α) : Except (Failure α) β :=
  match field with
  | some b => pure b
  | none => throw failure

/-- The variation of the iterate, from the graph of the regions. -/
def graphVariation? (s : Solver α) : Except (Failure α) α := do
  let P := s.partition
  if P.reducedEdgeCount = 0 then pure 0
  else
    let x ← require (α := α) s.x .unset
    if P.reducedEdges.any fun p => x.size ≤ p.1 ∨ x.size ≤ p.2 then throw .indexRange
    else
      let pair (e : Nat) : Nat × Nat := P.reducedEdges.getD e (0, 0)
      pure (Vec.total P.reducedEdgeCount fun e =>
        Vec.entry P.reducedWeights e *
          Scalar.abs (Vec.entry x (pair e).1 - Vec.entry x (pair e).2))

/-- The objective at the iterate, from the values of the regions. -/
def objective? (s : Solver α) : Except (Failure α) α := do
  let quadratic ← s.quadratic.regionValue? s.partition s.x s.residual
  let variation ← s.graphVariation?
  match s.targetWeight? with
  | none => pure (quadratic + variation)
  | some w =>
    let x ← require (α := α) s.x .indexRange
    let x ← s.partition.expand? x
    pure (quadratic + variation +
      Vec.total x.size fun v => w v * Scalar.abs (Vec.entry x v - s.target v))

/-- The kept iterate at each vertex. -/
def lastValues? (s : Solver α) (lastX : Vec α) (assignment : Array Nat) :
    Except (Failure α) (Vec α) :=
  if assignment.all (· < lastX.size) then
    pure (Vec.tabulate s.vertexCount fun v => Vec.entry lastX (assignment.getD v 0))
  else throw .indexRange

/-- The regions that are believed to be solved. -/
def solvedRegions (P : Partition α) : List Nat :=
  (List.range P.regionCount).filter P.isSaturated

/-- How far the value of a region is from the kept value of its first vertex. -/
def regionChange (P : Partition α) (x last : Vec α) (r : Nat) : α :=
  Scalar.abs (Vec.entry x r - Vec.entry last (P.representative r))

/-- The solved regions whose value moved by more than the tolerance, relative to the value. -/
def movedRegions (P : Partition α) (x last : Vec α) (tolerance : α) : List Nat :=
  (solvedRegions P).filter fun r =>
    decide (Scalar.abs (Vec.entry x r) * tolerance < regionChange P x last r)

/-- The square of the distance from the kept iterate, where a solved region is compared at its first
vertex only. -/
def squaredChange (P : Partition α) (x last : Vec α) : α :=
  let solved := (solvedRegions P).toArray
  let change (k : Nat) : α :=
    let r := solved.getD k 0
    let d := regionChange P x last r
    d * d * Nat.cast (P.sizeOf r)
  let isOpen (v : Nat) : Bool := !P.isSaturated (P.regionOf v)
  Vec.total solved.size change +
    Vec.total P.vertexCount fun v =>
      if isOpen v then
        let d := Vec.entry x (P.regionOf v) - Vec.entry last v
        d * d
      else 0

/-- The relative evolution of the iterate since it was kept. Solved regions that moved are solved no
more. -/
def evolution : Step α α := do
  let s ← get
  let P := s.partition
  let lastX ← require (α := α) s.lastX .unset
  let last ← match P.lastAssignment with
    | some assignment => s.lastValues? lastX assignment
    | none => if s.x.isNone then throw .unset else pure #[]
  let x ← require (α := α) s.x .unset
  if (solvedRegions P).any fun r => x.size ≤ r then throw .indexRange
  if P.lastAssignment.isNone then
    throw (if (solvedRegions P).isEmpty && decide (1 < lastX.size) then .lengths else .indexRange)
  let moved := movedRegions P x last s.tolerance
  modifyPartition fun P =>
    { P with saturated := moved.foldl (fun f r => f.setIfInBounds r false) P.saturated }
  let _ ← P.expand? x
  let n ← require (α := α) (commonLength? x.size P.regionCount) .lengths
  let values := stretch n x
  let sizes := stretch n P.sizeVec
  let change := Scalar.sqrt (squaredChange P x last)
  let amplitude := Scalar.sqrt
    (Vec.total n fun r => Vec.entry values r * Vec.entry values r * Vec.entry sizes r)
  pure (if Scalar.epsilon < amplitude then change / amplitude else change / Scalar.epsilon)

/-- After a merger the residual of a direct term is computed anew. -/
def renewResidual : Step α Unit := do
  let s ← get
  if s.quadratic.isDirect then
    let x ← require (α := α) s.x .indexRange
    let x ← s.partition.expand? x
    let residual ← s.quadratic.residual? x
    modify fun s => { s with residual := some residual }

/-- The steps for a problem whose reduced problems are solved by the given method. -/
def steps (solve : InnerMethod α) : Steps α where
  constantSolution := constantSolution
  reducedSolution := reducedSolution solve
  split := split
  evolution := evolution
  objective := do
    let s ← get
    s.objective?
  merged := renewResidual

/-- The partition into the components of the graph, nothing of it being known. -/
def components (P : Partition α) : Partition α :=
  let Q := { P with active := Array.replicate P.edgeCount false }.rebuild
  { Q with
    saturated := Array.replicate Q.regionCount false
    medianCached := Array.replicate Q.regionCount false }.reduceGraph

/-- Begin: one region for each component of the graph, and the solution for them. -/
def start (k : Steps α) : Step α Unit := do
  modify fun s => { s with lastX := none, partition := components s.partition }
  let s ← get
  if s.partition.regionCount = 1 then
    let t ← k.constantSolution
    modify fun s => { s with x := some #[t] }
  else k.reducedSolution

/-- Merge neighbouring regions with equal values. The answer is the number of regions that went. -/
def merge (k : Steps α) : Step α Int := do
  let s ← get
  match s.x with
  | none => if s.partition.reducedEdgeCount = 0 then pure 0 else throw .indexRange
  | some x =>
    let (P, outcome) := s.partition.merge? x s.mergeTolerance
    modify fun s => { s with partition := P }
    let (x, merged) ← outcome
    modify fun s => { s with x := some x }
    if merged ≠ 0 then k.merged
    pure merged

/-- Keep the iterate for comparison. -/
def keepIterate : Step α Unit := do
  let s ← get
  let x ← require (α := α) s.x .unsupported
  modify fun s => { s with lastX := some x, partition := s.partition.saveAssignment }

/-- Put something into the record of the run. -/
def record (f : History α → History α) : Step α Unit :=
  modify fun s => { s with history := f s.history }

/-- What a run is asked to record. -/
structure Recording where
  objectives : Bool
  times : Bool

/-- Record the objective and the time, as far as asked. -/
def recordRound (k : Steps α) (r : Recording) : Step α Unit := do
  if r.objectives then
    let value ← k.objective
    record fun h => { h with objectives := h.objectives ++ [value] }
  if r.times then record fun h => { h with times := h.times + 1 }

/-- Whether an evolution is so small that the iterate has settled. Before the first round it counts
as infinite. -/
def hasSettled (tolerance : α) (evolution : Option α) : Bool :=
  match evolution with
  | some e => decide (e ≤ tolerance)
  | none => Scalar.isPositiveInfinite tolerance

/-- One round after the regions were split. -/
def finishRound (k : Steps α) (r : Recording) (number activated : Nat) : Step α α := do
  modifyPartition fun P => P.rebuild.reduceGraph
  k.reducedSolution
  let merged ← merge k
  let change ← k.evolution
  recordRound k r
  record fun h => { h with evolutions := h.evolutions ++ [change] }
  let s ← get
  if s.verbose then
    record fun h => { h with
      events := h.events ++ [.round number s.maxRounds activated merged s.partition.regionCount
        s.partition.reducedEdgeCount change] }
  pure change

/-- The rounds of a run, of which at most the given number are left: the number of rounds made. -/
def rounds (k : Steps α) (r : Recording) : Nat → Nat → Option α → Step α Nat
  | 0, done, evolution => do
    let s ← get
    if let some e := evolution then
      if s.monitorsEvolution && decide (0 < s.maxRounds) && decide (s.tolerance < e) then
        record fun h => { h with events := h.events ++ [.notSettled s.maxRounds e] }
    pure done
  | left + 1, done, evolution => do
    let s ← get
    if s.monitorsEvolution && hasSettled s.tolerance evolution then pure done
    else
      keepIterate
      let activated ← k.split
      if activated = 0 then pure done
      else
        let change ← finishRound k r (done + 1) activated
        rounds k r left (done + 1) (some change)

/-- A run, from the beginning or from the present state. The answer is the number of rounds. -/
def run (k : Steps α) (fresh : Bool) (r : Recording) : Step α Nat := do
  modify fun s => { s with history := .empty }
  if fresh then start k
  recordRound k r
  let s ← get
  rounds k r s.maxRounds.toNat 0 none

end Solver
end TotalVariation
