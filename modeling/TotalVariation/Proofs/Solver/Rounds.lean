import Mathlib
import TotalVariation.Proofs.Solver.Steps

/-! # Where a run solves and compares

A run that is still under way need not end: a later step may fail. So the solvers at which its steps
are made are described by how the run comes there. A run is determined by what its steps do at
these.
-/

namespace TotalVariation.Solver

open Step

variable {α : Type} [Scalar α] {k : Steps α} {r : Recording} {s t : Solver α}

/-- The run of `s` comes to the solver that a split leaves that has found boundaries. -/
inductive SplitsTo (k : Steps α) (r : Recording) (s : Solver α) : Solver α → Prop
  | intro {left done activated : Nat} {e : Option α} {t s₁ u : Solver α}
      (hhead : LoopHead k r s (left + 1) done e t)
      (hopen : (t.monitorsEvolution && hasSettled t.tolerance e) = false)
      (hkept : keepIterate.Answers t () s₁) (hsplit : k.split.Answers s₁ activated u)
      (hsome : activated ≠ 0) : SplitsTo k r s u

/-- The first split of a run that records nothing. -/
theorem SplitsTo.of_start {activated : Nat} {s₁ u : Solver α}
    (hstarted : (start k).Answers { s with history := .empty } () t) (hrounds : 0 < t.maxRounds)
    (hopen : (t.monitorsEvolution && hasSettled t.tolerance none) = false)
    (hkept : keepIterate.Answers t () s₁) (hsplit : k.split.Answers s₁ activated u)
    (hsome : activated ≠ 0) : SplitsTo k ⟨false, false⟩ s u := by
  have hhead : LoopHead k ⟨false, false⟩ s t.maxRounds.toNat 0 none t :=
    .first hstarted (answers_pure.mpr ⟨rfl, rfl⟩)
  obtain ⟨left, hleft⟩ : ∃ left, t.maxRounds.toNat = left + 1 :=
    Nat.exists_eq_add_one.mpr (Int.pos_iff_toNat_pos.mp hrounds)
  rw [hleft] at hhead
  exact .intro hhead hopen hkept hsplit hsome

/-- The run of `s` comes to a solution over the regions: at the start if there are several, and in
each round once they are rebuilt. -/
inductive SolvesAt (k : Steps α) (r : Recording) (s : Solver α) : Solver α → Prop
  | start (hmany : (components s.partition).regionCount ≠ 1) :
      SolvesAt k r s
        { s with history := .empty, lastX := none, partition := components s.partition }
  | round {u : Solver α} (hsplit : SplitsTo k r s u) :
      SolvesAt k r s { u with partition := u.partition.rebuild.reduceGraph }

/-- The run of `s` comes to a comparison of the iterate with the kept one: in each round after the
merger. -/
inductive ComparesAt (k : Steps α) (r : Recording) (s : Solver α) : Solver α → Prop
  | intro {merged : Int} {u v w : Solver α} (hsplit : SplitsTo k r s u)
      (hsolved : k.reducedSolution.Answers
        { u with partition := u.partition.rebuild.reduceGraph } () v)
      (hmerged : (merge k).Answers v merged w) : ComparesAt k r s w

/-- The run of `s` comes to a split: in each round once the iterate is kept. The gradient is taken
there. -/
inductive SplitsAt (k : Steps α) (r : Recording) (s : Solver α) : Solver α → Prop
  | intro {left done : Nat} {e : Option α} {t u : Solver α}
      (hhead : LoopHead k r s (left + 1) done e t)
      (hopen : (t.monitorsEvolution && hasSettled t.tolerance e) = false)
      (hkept : keepIterate.Answers t () u) : SplitsAt k r s u

/-- The run of `s` comes to a record: after the start, and in each round after the comparison. The
objective is taken there. -/
inductive RecordsAt (k : Steps α) (r : Recording) (s : Solver α) : Solver α → Prop
  | start {u : Solver α} (hstarted : (start k).Answers { s with history := .empty } () u) :
      RecordsAt k r s u
  | round {change : α} {w u : Solver α} (hcompared : ComparesAt k r s w)
      (hchange : k.evolution.Answers w change u) : RecordsAt k r s u

/-! ## What determines a run -/

/-- The steps with another solution over the regions and another comparison. -/
def exchange (k : Steps α) (solution : Step α Unit) (comparison : Step α α) : Steps α :=
  { k with reducedSolution := solution, evolution := comparison }

section Agreement

variable {solution : Step α Unit} {comparison : Step α α}
  (hsolution : ∀ t, SolvesAt k r s t → solution.run t = k.reducedSolution.run t)
  (hcomparison : ∀ t, ComparesAt k r s t → comparison.run t = k.evolution.run t)

include hsolution

theorem start_exchange : (start (exchange k solution comparison)).run { s with history := .empty } =
    (start k).run { s with history := .empty } := by
  unfold start
  refine run_bind_congr rfl fun _ t hbegun => ?_
  obtain rfl := answers_modify.mp hbegun
  refine run_bind_congr rfl fun _ _ hget => ?_
  obtain ⟨rfl, rfl⟩ := answers_get.mp hget
  split
  next => rfl
  next hmany => exact hsolution _ (.start hmany)

include hcomparison

theorem finishRound_exchange (hsplit : SplitsTo k r s t) (number activated : Nat) :
    (finishRound (exchange k solution comparison) r number activated).run t =
      (finishRound k r number activated).run t := by
  unfold finishRound modifyPartition
  refine run_bind_congr rfl fun _ t₁ hrebuilt => ?_
  obtain rfl := answers_modify.mp hrebuilt
  refine run_bind_congr (hsolution _ (.round hsplit)) fun _ t₂ hsolved => ?_
  refine run_bind_congr rfl fun merged t₃ hmerged => ?_
  exact run_bind_congr (hcomparison _ (.intro hsplit hsolved hmerged)) fun _ _ _ => rfl

theorem rounds_exchange {left done : Nat} {e : Option α} (hhead : LoopHead k r s left done e t) :
    (rounds (exchange k solution comparison) r left done e).run t =
      (rounds k r left done e).run t := by
  induction left generalizing done e t with
  | zero => rfl
  | succ left ih =>
      unfold rounds
      refine run_bind_congr rfl fun _ _ hget => ?_
      obtain ⟨rfl, rfl⟩ := answers_get.mp hget
      split
      next => rfl
      next hopen =>
        have hopen' := Bool.eq_false_iff.mpr hopen
        refine run_bind_congr rfl fun _ t₁ hkept => ?_
        refine run_bind_congr rfl fun activated t₂ hsplit => ?_
        split
        next => rfl
        next hsome =>
          refine run_bind_congr (finishRound_exchange hsolution hcomparison
            (.intro hhead hopen' hkept hsplit hsome) _ _) fun change t₃ hfinished => ?_
          exact ih (hhead.next hopen' hkept hsplit hsome hfinished)

/-- A run makes its solutions over the regions and its comparisons at the solvers described above
and nowhere else: steps that do there what the steps of the run do can take their place. -/
theorem run_exchange :
    (run (exchange k solution comparison) true r).run s = (run k true r).run s := by
  unfold run
  refine run_bind_congr rfl fun _ t₁ hbegun => ?_
  obtain rfl := answers_modify.mp hbegun
  refine run_bind_congr (start_exchange hsolution) fun _ t₂ hstarted => ?_
  refine run_bind_congr rfl fun _ t₃ hrecorded => ?_
  refine run_bind_congr rfl fun _ _ hget => ?_
  obtain ⟨rfl, rfl⟩ := answers_get.mp hget
  exact rounds_exchange hsolution hcomparison (.first hstarted hrecorded)

end Agreement

end TotalVariation.Solver
