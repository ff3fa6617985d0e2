import Mathlib
import TotalVariation.Proofs.Solver.Answers

/-! # The steps of a solver

One lemma for each step says all that the step does when it answers.
-/

namespace TotalVariation

variable {α β γ : Type}

namespace Solver

open Step

variable [Scalar α] {s t : Solver α}

/-- The medians of the targets over the regions, each with the vertices of its region sorted by
target. -/
def regionMedians (s : Solver α) (targets : Vec α) : List (α × List Nat) :=
  (List.range s.partition.regionCount).map (s.regionMedian targets)

/-- The solver after the medians of the targets were selected. -/
def sortedByTarget (s : Solver α) (targets : Vec α) : Solver α :=
  { s with partition := { s.partition with
      regions := (s.regionMedians targets).map (·.2)
      medianCached := Array.replicate s.partition.regionCount true } }

/-- The solver with the regions sorted by target, where there are weights and targets. -/
def sorted (s : Solver α) : Solver α :=
  match s.regionWeights?, s.targets with
  | some _, some targets => s.sortedByTarget targets
  | _, _ => s

/-- The targets of the regions, where there are weights and targets. -/
def regionTargets? (s : Solver α) : Option (Vec α) :=
  match s.regionWeights?, s.targets with
  | some _, some targets => some ((s.regionMedians targets).map (·.1)).toArray
  | _, _ => none

theorem regionTargets_answers {w m : Option (Vec α)} :
    regionTargets.Answers s (w, m) t ↔
      (w = s.regionWeights? ∧ m = s.regionTargets?) ∧ t = s.sorted := by
  unfold regionTargets modifyPartition regionTargets? sorted
  rw [answers_get_bind]
  cases hweights : s.regionWeights? with
  | none => simp
  | some weights =>
      cases htargets : s.targets with
      | none => simp
      | some targets =>
          simp only [answers_modify_bind, answers_pure, Prod.mk.injEq, sortedByTarget, htargets]
          rfl

/-- Selecting the medians leaves the solver as it is or sorts its regions by target. -/
theorem sorted_cases (s : Solver α) :
    s.sorted = s ∨ ∃ targets, s.targets = some targets ∧ s.sorted = s.sortedByTarget targets := by
  unfold sorted
  split
  next targets _ htargets => exact .inr ⟨targets, htargets, rfl⟩
  next => exact .inl rfl

/-- Whether a direct term is premultiplied before it is solved over the regions. -/
def premultiplies? (s : Solver α) : Except (Failure α) Bool :=
  match s.quadratic with
  | .direct A _ => paysPremultiplied? (α := α) A.rows s.partition.regionCount s.innerIterations
  | _ => pure true

theorem premultiplies?_of_isDirect (h : s.quadratic.isDirect = false) :
    s.premultiplies? = .ok true := by
  unfold premultiplies?
  split
  next A y heq =>
    rw [heq] at h
    cases h
  next => rfl

/-- The residual that a solution over the regions leaves: a direct term takes it from its reduced
design. -/
def solvedResidual (q : Quadratic α) (design : Option (DenseMatrix α)) (x : Vec α)
    (former : Option (Vec α)) : Option (Vec α) :=
  match q, design with
  | .direct _ observation, some rA => some (Quadratic.residualOf rA observation x)
  | _, _ => former

theorem solvedResidual_of_isDirect {q : Quadratic α} (h : q.isDirect = false)
    (design : Option (DenseMatrix α)) (x : Vec α) (former : Option (Vec α)) :
    solvedResidual q design x former = former := by
  cases q with
  | direct A y => cases h
  | _ => rfl

theorem storeResidual_answers {q : Quadratic α} {design : Option (DenseMatrix α)} {x : Vec α}
    {u : Unit} : Answers (match q, design with
      | .direct _ observation, some rA =>
        modify fun s => { s with residual := some (Quadratic.residualOf rA observation x) }
      | _, _ => pure ()) s u t ↔
    t = { s with residual := solvedResidual q design x s.residual } := by
  cases q <;> cases design <;> simp [solvedResidual]

/-- Solving over the regions once it is chosen whether to premultiply, with the given weights and
targets of the regions. -/
def solutionWith (medians : Step α (Option (Vec α) × Option (Vec α))) (solve : InnerMethod α)
    (s : Solver α) (premultiply : Bool) : Step α Unit := do
  let (reduced, design) ← s.quadratic.reduce? s.partition premultiply
  let (weights, targets) ← medians
  let s ← get
  let init ← s.warmStart?
  let (x, iterations) ←
    solve s.inner s.innerTolerance (s.regionProblem reduced weights targets) init
  modify fun s => { s with x := some x, innerIterations := iterations }
  match s.quadratic, design with
  | .direct _ observation, some rA =>
    modify fun s => { s with residual := some (Quadratic.residualOf rA observation x) }
  | _, _ => pure ()

/-- Solving over the regions once it is chosen whether to premultiply. -/
def chosenSolution (solve : InnerMethod α) (s : Solver α) (premultiply : Bool) : Step α Unit :=
  solutionWith regionTargets solve s premultiply

/-- A solution over the regions chooses whether to premultiply first. -/
theorem reducedSolution_run (solve : InnerMethod α) (s : Solver α) :
    (reducedSolution solve).run s =
      (liftM (s.premultiplies?) >>= fun premultiply => chosenSolution solve s premultiply).run s := by
  rw [reducedSolution, run_get_bind]
  dsimp only
  split
  next A y hq =>
    have hpremultiply : s.premultiplies? =
        paysPremultiplied? (α := α) A.rows s.partition.regionCount s.innerIterations := by
      rw [premultiplies?, hq]
    rw [hpremultiply]
    rfl
  next hplain =>
    have hdirect : s.quadratic.isDirect = false := by
      cases hq : s.quadratic with
      | direct A y => exact (hplain A y hq).elim
      | _ => rfl
    rw [premultiplies?_of_isDirect hdirect]
    rfl

theorem reducedSolution_answers_iff {solve : InnerMethod α} {u : Unit} :
    (reducedSolution solve).Answers s u t ↔
      ∃ premultiply, s.premultiplies? = .ok premultiply ∧
        (chosenSolution solve s premultiply).Answers s u t := by
  rw [Answers, reducedSolution_run]
  exact answers_lift_bind

/-- Solving over the regions reduces the problem, selects the medians, and stores what the method
answers. -/
theorem reducedSolution_answers {solve : InnerMethod α} {u : Unit}
    (h : (reducedSolution solve).Answers s u t) :
    ∃ premultiply reduced design weights targets s₁ init x iterations,
      s.premultiplies? = .ok premultiply ∧
      s.quadratic.reduce? s.partition premultiply = .ok (reduced, design) ∧
      regionTargets.Answers s (weights, targets) s₁ ∧
      s₁.warmStart? = .ok init ∧
      solve s₁.inner s₁.innerTolerance (s₁.regionProblem reduced weights targets) init =
        .ok (x, iterations) ∧
      t = { s₁ with
        x := some x
        innerIterations := iterations
        residual := solvedResidual s₁.quadratic design x s₁.residual } := by
  obtain ⟨premultiply, hpremultiply, h⟩ := reducedSolution_answers_iff.mp h
  rw [chosenSolution, solutionWith, answers_lift_bind] at h
  obtain ⟨⟨reduced, design⟩, hreduce, h⟩ := h
  rw [answers_bind] at h
  obtain ⟨⟨weights, targets⟩, s₁, htargets, h⟩ := h
  rw [answers_get_bind, answers_lift_bind] at h
  obtain ⟨init, hinit, h⟩ := h
  rw [answers_lift_bind] at h
  obtain ⟨⟨x, iterations⟩, hsolve, h⟩ := h
  rw [answers_modify_bind] at h
  exact ⟨premultiply, reduced, design, weights, targets, s₁, init, x, iterations, hpremultiply,
    hreduce, htargets, hinit, hsolve, storeResidual_answers.mp h⟩

/-- The median of the targets over one region, zero where there is nothing to select, and the
solver after it was selected. -/
def wholeMedian (s : Solver α) : α × Solver α :=
  match s.totalTargetWeight?.isSome, s.targets with
  | true, some targets =>
    let (m, order) := Median.select targets s.targetWeights.each (s.partition.region 0)
    (m, { s with partition := { s.partition.setRegion 0 order with
      medianCached := s.partition.medianCached.setIfInBounds 0 true
      saturated := s.partition.saturated.setIfInBounds 0 false } })
  | _, _ => (0, s)

/-- The residual that a constant leaves: a direct term takes it from the sums of the rows of its
design. -/
def constantResidual (q : Quadratic α) (u : α) (former : Option (Vec α)) : Option (Vec α) :=
  match q with
  | .direct A observation =>
    some (Vec.tabulate A.rows fun i =>
      Vec.entry observation i - Vec.entry (q.constantPart.2.2.getD #[]) i * u)
  | _ => former

/-- What a constant solution does once the median is selected. -/
def storedConstant (q : Quadratic α) (low upp : Bound α) (value : Except (Failure α) α)
    (s : Solver α) : Except (Failure α) α × Solver α :=
  match value with
  | .ok t => (.ok (clamp low upp t),
      { s with residual := constantResidual q (clamp low upp t) s.residual })
  | .error e => (.error e, s)

theorem storeConstant_run (q : Quadratic α) (y a w m : α) (low upp : Bound α) (s : Solver α) :
    ExceptT.run (m := StateM (Solver α)) (do
      let value ← liftM (thresholded? y a w m)
      match q with
        | .direct A observation =>
          modify fun s => { s with residual := some (Vec.tabulate A.rows fun i =>
            Vec.entry observation i -
              Vec.entry (q.constantPart.2.2.getD #[]) i * clamp low upp value) }
          pure (clamp low upp value)
        | _ => pure (clamp low upp value)) s =
      storedConstant q low upp (thresholded? y a w m) s := by
  cases thresholded? y a w m with
  | error e => rfl
  | ok value => cases q <;> rfl

/-- The best constant is a thresholded value between the tightest bounds. -/
theorem constantSolution_run (s : Solver α) : constantSolution.run s =
    storedConstant s.quadratic s.largestLower s.smallestUpper
      (thresholded? s.quadratic.constantPart.1 s.quadratic.constantPart.2.1
        (s.totalTargetWeight?.getD 0) s.wholeMedian.1) s.wholeMedian.2 := by
  rw [constantSolution, run_get_bind]
  cases hweight : s.totalTargetWeight?.isSome with
  | false =>
      have hwhole : s.wholeMedian = (0, s) := by rw [wholeMedian, hweight]
      simp only [hwhole, Bool.false_eq_true, if_false]
      exact storeConstant_run _ _ _ _ _ _ _ _
  | true =>
      simp only [if_true]
      cases htargets : s.targets with
      | none =>
          have hwhole : s.wholeMedian = (0, s) := by rw [wholeMedian, hweight, htargets]
          rw [hwhole]
          exact storeConstant_run _ _ _ _ _ _ _ _
      | some targets =>
          simp only [wholeMedian, hweight, htargets, modifyPartition, run_modify_bind]
          exact storeConstant_run _ _ _ _ _ _ _ _

theorem constantSolution_answers {u : α} (h : constantSolution.Answers s u t) :
    ∃ value, thresholded? s.quadratic.constantPart.1 s.quadratic.constantPart.2.1
        (s.totalTargetWeight?.getD 0) s.wholeMedian.1 = .ok value ∧
      u = clamp s.largestLower s.smallestUpper value ∧
      t = { s.wholeMedian.2 with
        residual := constantResidual s.quadratic u s.wholeMedian.2.residual } := by
  rw [Answers, constantSolution_run] at h
  unfold storedConstant at h
  split at h
  next value hvalue =>
    obtain ⟨hu, ht⟩ := Prod.mk.inj h
    obtain rfl := Except.ok.inj hu
    exact ⟨value, hvalue, rfl, ht.symm⟩
  next => cases (Prod.mk.inj h).1

/-! ## Splits, mergers and evolutions -/

/-- The partition after the edges found in some regions were marked. -/
def markRegions (P : Partition α) (cuts : List (Nat × List Nat)) : Partition α :=
  cuts.foldl (fun P cut => markRegion P cut.1 cut.2) P

/-- The number of edges found in some regions. -/
def cutCount (cuts : List (Nat × List Nat)) : Nat :=
  cuts.foldl (fun n cut => n + cut.2.length) 0

omit [Scalar α] in
theorem mem_openRegions_iff {P : Partition α} {r : Nat} :
    r ∈ openRegions P ↔ r < P.regionCount ∧ P.isSaturated r = false := by
  simp [openRegions]

theorem split_answers {n : Nat} : split.Answers s n t ↔
    ∃ slope found, s.gradient? = .ok slope ∧
      Workload.outcomes (s.splitRegion? slope s.needsOneCut) (openRegions s.partition) =
        .ok found ∧
      t = { s with partition :=
        markRegions s.partition ((openRegions s.partition).zip found) } ∧
      n = cutCount ((openRegions s.partition).zip found) := by
  unfold split modifyPartition
  simp only [answers_get_bind, answers_lift_bind, answers_modify_bind, answers_pure]
  constructor
  · rintro ⟨slope, hslope, found, hfound, hn, ht⟩
    exact ⟨slope, found, hslope, hfound, ht, hn⟩
  · rintro ⟨slope, found, hslope, hfound, ht, hn⟩
    exact ⟨slope, hslope, found, hfound, hn, ht⟩

omit [Scalar α] in
theorem require_eq_ok {γ : Type} {field : Option γ} {failure : Failure α} {c : γ} :
    require field failure = .ok c ↔ field = some c := by
  cases field with
  | none => simp [require, throw, throwThe, MonadExceptOf.throw]
  | some b => simp [require, pure, Except.pure]

omit [Scalar α] in
theorem keepIterate_answers {u : Unit} (h : keepIterate.Answers s u t) :
    ∃ x, s.x = some x ∧
      t = { s with lastX := some x, partition := s.partition.saveAssignment } := by
  unfold keepIterate at h
  rw [answers_get_bind, answers_lift_bind] at h
  obtain ⟨x, hx, h⟩ := h
  exact ⟨x, require_eq_ok.mp hx, answers_modify.mp h⟩

theorem merge_answers {k : Steps α} {m : Int} (h : (merge k).Answers s m t) :
    (s.x = none ∧ s.partition.reducedEdgeCount = 0 ∧ m = 0 ∧ t = s) ∨
      ∃ x y, s.x = some x ∧ (s.partition.merge? x s.mergeTolerance).2 = .ok (y, m) ∧
        let merged := { s with
          partition := (s.partition.merge? x s.mergeTolerance).1
          x := some y }
        (m = 0 ∧ t = merged) ∨ (m ≠ 0 ∧ k.merged.Answers merged () t) := by
  unfold merge at h
  rw [answers_get_bind] at h
  cases hx : s.x with
  | none =>
      simp only [hx] at h
      split at h
      next hzero =>
        rw [answers_pure] at h
        exact .inl ⟨rfl, hzero, h.1, h.2⟩
      next => exact (not_answers_throw h).elim
  | some x =>
      simp only [hx, answers_modify_bind] at h
      rw [answers_lift_bind] at h
      obtain ⟨⟨y, merged⟩, hmerge, h⟩ := h
      rw [answers_modify_bind] at h
      dsimp only at h
      split at h
      next hne =>
        rw [answers_bind] at h
        obtain ⟨_, s₁, hmerged, h⟩ := h
        obtain ⟨rfl, rfl⟩ := answers_pure.mp h
        exact .inr ⟨x, y, rfl, hmerge, .inr ⟨hne, hmerged⟩⟩
      next hzero =>
        obtain ⟨rfl, rfl⟩ := answers_pure.mp h
        exact .inr ⟨x, y, rfl, hmerge, .inl ⟨not_not.mp hzero, rfl⟩⟩

/-- The evolution compares the iterate with the kept one; solved regions that moved are solved no
more. -/
theorem evolution_answers {change : α} (h : evolution.Answers s change t) :
    ∃ x lastX last, s.x = some x ∧ s.lastX = some lastX ∧
      t = { s with partition := { s.partition with
        saturated := (movedRegions s.partition x last s.tolerance).foldl
          (fun f r => f.setIfInBounds r false) s.partition.saturated } } := by
  unfold evolution modifyPartition at h
  rw [answers_get_bind, answers_lift_bind] at h
  obtain ⟨lastX, hlastX, h⟩ := h
  rw [require_eq_ok] at hlastX
  dsimp only at h
  split at h
  next assignment hassignment =>
    rw [answers_lift_bind] at h
    obtain ⟨last, hlast, h⟩ := h
    rw [answers_lift_bind] at h
    obtain ⟨x, hx, h⟩ := h
    rw [answers_test, answers_test, answers_modify_bind, answers_lift_bind] at h
    obtain ⟨-, -, y, -, h⟩ := h
    rw [answers_lift_bind] at h
    obtain ⟨n, -, h⟩ := h
    exact ⟨x, lastX, last, require_eq_ok.mp hx, hlastX, (answers_pure.mp h).2⟩
  next hassignment =>
    split at h
    next =>
      rw [answers_bind] at h
      obtain ⟨_, _, hthrow, -⟩ := h
      exact (not_answers_throw hthrow).elim
    next =>
      rw [answers_bind] at h
      obtain ⟨_, _, -, h⟩ := h
      rw [answers_lift_bind] at h
      obtain ⟨x, -, h⟩ := h
      rw [answers_test] at h
      obtain ⟨-, h⟩ := h
      split at h
      next =>
        rw [answers_bind] at h
        obtain ⟨_, _, hthrow, -⟩ := h
        exact (not_answers_throw hthrow).elim
      next hsome => exact (hsome (by rw [hassignment]; rfl)).elim

/-- After a merger the residual of a direct term is that of the iterate. -/
theorem renewResidual_answers {u : Unit} (h : renewResidual.Answers s u t) :
    (s.quadratic.isDirect = false ∧ t = s) ∨
      s.quadratic.isDirect = true ∧ ∃ x y residual, s.x = some x ∧
        s.partition.expand? x = .ok y ∧ s.quadratic.residual? y = .ok residual ∧
        t = { s with residual := some residual } := by
  unfold renewResidual at h
  rw [answers_get_bind] at h
  cases hdirect : s.quadratic.isDirect with
  | false =>
      simp only [hdirect, Bool.false_eq_true, if_false] at h
      exact .inl ⟨rfl, (answers_pure.mp h).2⟩
  | true =>
      simp only [hdirect, if_true] at h
      rw [answers_lift_bind] at h
      obtain ⟨x, hx, h⟩ := h
      rw [answers_lift_bind] at h
      obtain ⟨y, hy, h⟩ := h
      rw [answers_lift_bind] at h
      obtain ⟨residual, hresidual, h⟩ := h
      exact .inr ⟨rfl, x, y, residual, require_eq_ok.mp hx, hy, hresidual, answers_modify.mp h⟩

/-! ## Rounds and runs -/

/-- Beginning makes one region for each component of the graph and solves for them. -/
theorem start_answers {k : Steps α} {u : Unit} (h : (start k).Answers s u t) :
    let s₀ := { s with lastX := none, partition := components s.partition }
    (s₀.partition.regionCount = 1 ∧ ∃ c s₁, k.constantSolution.Answers s₀ c s₁ ∧
        t = { s₁ with x := some #[c] }) ∨
      (s₀.partition.regionCount ≠ 1 ∧ k.reducedSolution.Answers s₀ () t) := by
  unfold start at h
  rw [answers_modify_bind, answers_get_bind] at h
  split at h
  next hone =>
    rw [answers_bind] at h
    obtain ⟨c, s₁, hc, h⟩ := h
    exact .inl ⟨hone, c, s₁, hc, answers_modify.mp h⟩
  next hmany => exact .inr ⟨hmany, h⟩

theorem objective_answers {solve : InnerMethod α} {b : α}
    (h : (steps solve).objective.Answers s b t) : t = s := by
  unfold steps at h
  rw [answers_get_bind, answers_lift] at h
  exact h.2

omit [Scalar α] in
/-- Recording a round changes nothing but the record, where the objective only reads. -/
theorem recordRound_answers {k : Steps α}
    (hobjective : ∀ {s b t}, k.objective.Answers s b t → t = s) {r : Recording} {u : Unit}
    (h : (recordRound k r).Answers s u t) : t = { s with history := t.history } := by
  have htimes : ∀ {s t : Solver α}, Answers (do
      if r.times then record fun h => { h with times := h.times + 1 }) s u t →
      t = { s with history := t.history } := by
    intro s t h
    split at h
    next =>
      rw [answers_modify.mp h]
    next => rw [(answers_pure.mp h).2]
  unfold recordRound at h
  cases hasked : r.objectives with
  | false =>
      simp only [hasked, Bool.false_eq_true, if_false] at h
      exact htimes h
  | true =>
      simp only [hasked, if_true] at h
      rw [answers_bind] at h
      obtain ⟨b, s₁, hb, h⟩ := h
      obtain rfl := hobjective hb
      rw [record, answers_modify_bind] at h
      rw [htimes h]

/-- A round after the regions were split rebuilds them, solves, merges and compares. -/
theorem finishRound_answers {k : Steps α}
    (hobjective : ∀ {s b t}, k.objective.Answers s b t → t = s) {r : Recording}
    {number activated : Nat} {change : α}
    (h : (finishRound k r number activated).Answers s change t) :
    ∃ s₁ merged s₂ s₃,
      k.reducedSolution.Answers { s with partition := s.partition.rebuild.reduceGraph } () s₁ ∧
      (merge k).Answers s₁ merged s₂ ∧ k.evolution.Answers s₂ change s₃ ∧
      t = { s₃ with history := t.history } := by
  unfold finishRound modifyPartition at h
  rw [answers_modify_bind, answers_bind] at h
  obtain ⟨_, s₁, hsolved, h⟩ := h
  rw [answers_bind] at h
  obtain ⟨merged, s₂, hmerged, h⟩ := h
  rw [answers_bind] at h
  obtain ⟨e, s₃, hevolution, h⟩ := h
  rw [answers_bind] at h
  obtain ⟨_, s₄, hrecorded, h⟩ := h
  have hfour := recordRound_answers hobjective hrecorded
  rw [record, answers_modify_bind, answers_get_bind] at h
  dsimp only at h
  split at h
  next =>
    rw [record, answers_modify_bind] at h
    obtain ⟨rfl, rfl⟩ := answers_pure.mp h
    exact ⟨s₁, merged, s₂, s₃, hsolved, hmerged, hevolution, by rw [hfour]⟩
  next =>
    obtain ⟨rfl, rfl⟩ := answers_pure.mp h
    exact ⟨s₁, merged, s₂, s₃, hsolved, hmerged, hevolution, by rw [hfour]⟩

/-- What the end of the loop tells: a warning, if all rounds were made and the last evolution is
above the tolerance. -/
def closingEvents (s : Solver α) (left : Nat) (e : Option α) : List (Event α) :=
  match left, e with
  | 0, some change =>
    if s.monitorsEvolution && decide (0 < s.maxRounds) && decide (s.tolerance < change) then
      [.notSettled s.maxRounds change]
    else []
  | _, _ => []

theorem closingEvents_succ (s : Solver α) (left : Nat) (e : Option α) :
    s.closingEvents (left + 1) e = [] := rfl

/-- Without rounds left the loop ends, and only tells so. -/
theorem rounds_zero_answers {k : Steps α} {r : Recording} {done n : Nat} {e : Option α}
    (h : (rounds k r 0 done e).Answers s n t) :
    n = done ∧ t = { s with history := { s.history with
      events := s.history.events ++ s.closingEvents 0 e } } := by
  have hsame : s = { s with history := { s.history with events := s.history.events ++ [] } } := by
    rw [List.append_nil]
  unfold rounds at h
  rw [answers_get_bind] at h
  cases e with
  | none =>
      obtain ⟨hdone, hleft⟩ := answers_pure.mp h
      exact ⟨hdone, hleft.trans hsame⟩
  | some change =>
      dsimp only at h
      rw [closingEvents]
      split at h
      next htell =>
        rw [record, answers_modify_bind] at h
        rw [if_pos htell]
        exact answers_pure.mp h
      next hsilent =>
        obtain ⟨hdone, hleft⟩ := answers_pure.mp h
        rw [if_neg hsilent]
        exact ⟨hdone, hleft.trans hsame⟩

/-- A round either is the last, because the iterate has settled or no edge was found, or it is
finished and followed by others. -/
theorem rounds_succ_answers {k : Steps α} {r : Recording} {left done n : Nat} {e : Option α}
    (h : (rounds k r (left + 1) done e).Answers s n t) :
    ((s.monitorsEvolution && hasSettled s.tolerance e) = true ∧ n = done ∧ t = s) ∨
      (s.monitorsEvolution && hasSettled s.tolerance e) = false ∧
        ∃ s₁ activated s₂, keepIterate.Answers s () s₁ ∧ k.split.Answers s₁ activated s₂ ∧
          ((activated = 0 ∧ n = done ∧ t = s₂) ∨
            activated ≠ 0 ∧ ∃ change s₃,
              (finishRound k r (done + 1) activated).Answers s₂ change s₃ ∧
              (rounds k r left (done + 1) (some change)).Answers s₃ n t) := by
  unfold rounds at h
  rw [answers_get_bind] at h
  split at h
  next hsettled => exact .inl ⟨hsettled, answers_pure.mp h⟩
  next hsettled =>
    refine .inr ⟨by simpa using hsettled, ?_⟩
    rw [answers_bind] at h
    obtain ⟨_, s₁, hkept, h⟩ := h
    rw [answers_bind] at h
    obtain ⟨activated, s₂, hsplit, h⟩ := h
    refine ⟨s₁, activated, s₂, hkept, hsplit, ?_⟩
    split at h
    next hzero => exact .inl ⟨hzero, answers_pure.mp h⟩
    next hsome =>
      rw [answers_bind] at h
      exact .inr ⟨hsome, h⟩

/-- A run from the beginning starts, records the start and makes rounds. -/
theorem run_answers {k : Steps α} {r : Recording} {n : Nat}
    (h : (run k true r).Answers s n t) :
    ∃ s₁ s₂, (start k).Answers { s with history := .empty } () s₁ ∧
      (recordRound k r).Answers s₁ () s₂ ∧
      (rounds k r s₂.maxRounds.toNat 0 none).Answers s₂ n t := by
  unfold run at h
  rw [answers_modify_bind] at h
  simp only [if_true] at h
  rw [answers_bind] at h
  obtain ⟨_, s₁, hstarted, h⟩ := h
  rw [answers_bind] at h
  obtain ⟨_, s₂, hrecorded, h⟩ := h
  rw [answers_get_bind] at h
  exact ⟨s₁, s₂, hstarted, hrecorded, h⟩

/-- The head of the loop of a run: with so many rounds left and so many done, the last of them with
the given evolution, the run of `s` comes to the solver `t`. -/
inductive LoopHead (k : Steps α) (r : Recording) (s : Solver α) :
    Nat → Nat → Option α → Solver α → Prop
  | first {s₁ t : Solver α} (hstarted : (start k).Answers { s with history := .empty } () s₁)
      (hrecorded : (recordRound k r).Answers s₁ () t) :
      LoopHead k r s t.maxRounds.toNat 0 none t
  | next {left done activated : Nat} {e : Option α} {change : α} {t s₁ s₂ u : Solver α}
      (hhead : LoopHead k r s (left + 1) done e t)
      (hopen : (t.monitorsEvolution && hasSettled t.tolerance e) = false)
      (hkept : keepIterate.Answers t () s₁)
      (hsplit : k.split.Answers s₁ activated s₂) (hsome : activated ≠ 0)
      (hfinished : (finishRound k r (done + 1) activated).Answers s₂ change u) :
      LoopHead k r s left (done + 1) (some change) u

/-- The loop of a run ends at a head where no round is left, where the iterate has settled, or where
the split finds nothing. -/
inductive LoopEnd (k : Steps α) (left : Nat) (e : Option α) (t u : Solver α) : Prop
  | exhausted (hleft : left = 0) (heq : u = { t with history := u.history })
  | settled (hsettled : (t.monitorsEvolution && hasSettled t.tolerance e) = true) (heq : u = t)
  | unsplit {s₁ : Solver α} (hopen : (t.monitorsEvolution && hasSettled t.tolerance e) = false)
      (hkept : keepIterate.Answers t () s₁) (hsplit : k.split.Answers s₁ 0 u)

/-- Whatever the heads of a loop are, if a round leads from one to the next, then the rounds from a
head come to a head at which the loop ends. Where no round is left the end is told. -/
theorem exists_end_of_rounds {k : Steps α} {r : Recording}
    {Head : Nat → Nat → Option α → Solver α → Prop}
    (hnext : ∀ {left done activated : Nat} {e : Option α} {change : α} {t s₁ s₂ u : Solver α},
      Head (left + 1) done e t → (t.monitorsEvolution && hasSettled t.tolerance e) = false →
      keepIterate.Answers t () s₁ → k.split.Answers s₁ activated s₂ → activated ≠ 0 →
      (finishRound k r (done + 1) activated).Answers s₂ change u →
      Head left (done + 1) (some change) u)
    {left done n : Nat} {e : Option α} {t u : Solver α} (hhead : Head left done e t)
    (h : (rounds k r left done e).Answers t n u) :
    ∃ left' e' t', Head left' n e' t' ∧ LoopEnd k left' e' t' u ∧
      (left' = 0 → u.history = { t'.history with
        events := t'.history.events ++ t'.closingEvents left' e' }) := by
  induction left generalizing done e t with
  | zero =>
      obtain ⟨rfl, rfl⟩ := rounds_zero_answers h
      exact ⟨0, e, t, hhead, .exhausted rfl rfl, fun _ => rfl⟩
  | succ left ih =>
      rcases rounds_succ_answers h with ⟨hsettled, rfl, heq⟩ |
        ⟨hopen, s₁, activated, s₂, hkept, hsplit, hrest⟩
      · exact ⟨left + 1, e, t, hhead, .settled hsettled heq, nofun⟩
      · rcases hrest with ⟨rfl, rfl, rfl⟩ | ⟨hsome, change, s₃, hfinished, hrest⟩
        · exact ⟨left + 1, e, t, hhead, .unsplit hopen hkept hsplit, nofun⟩
        · exact ih (hnext hhead hopen hkept hsplit hsome hfinished) hrest

/-- A run from the beginning comes to a head of its loop at which the loop ends. -/
theorem exists_end_of_run {k : Steps α} {r : Recording} {n : Nat}
    (h : (run k true r).Answers s n t) :
    ∃ left e t', LoopHead k r s left n e t' ∧ LoopEnd k left e t' t := by
  obtain ⟨s₁, s₂, hstarted, hrecorded, hrounds⟩ := run_answers h
  obtain ⟨left, e, t', hhead, hend, -⟩ :=
    exists_end_of_rounds .next (LoopHead.first hstarted hrecorded) hrounds
  exact ⟨left, e, t', hhead, hend⟩

end Solver
end TotalVariation
