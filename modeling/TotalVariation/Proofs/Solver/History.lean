import Mathlib
import TotalVariation.Proofs.Solver.Rounds
import TotalVariation.Proofs.Solver.Settings

/-! # What a run records

Only the records of a run write to its history: one after the start and one at the end of each
round. The objectives at the end of a run are those at the last head of its loop.
-/

namespace TotalVariation.Solver

open Step

variable {α : Type} [Scalar α] {s t : Solver α} {solve : InnerMethod α} {r : Recording}

/-! ## The steps before the record -/

omit [Scalar α] in
theorem history_of_keepIterate {u : Unit} (h : keepIterate.Answers s u t) :
    t.history = s.history := by
  obtain ⟨x, -, rfl⟩ := keepIterate_answers h
  rfl

theorem history_of_split {n : Nat} (h : split.Answers s n t) : t.history = s.history := by
  obtain ⟨slope, found, -, -, rfl, -⟩ := split_answers.mp h
  rfl

theorem history_of_reducedSolution {u : Unit} (h : (reducedSolution solve).Answers s u t) :
    t.history = s.history := by
  obtain ⟨premultiply, reduced, design, weights, targets, s₁, init, x, iterations, -, -, htargets,
    -, -, rfl⟩ := reducedSolution_answers h
  obtain ⟨-, rfl⟩ := regionTargets_answers.mp htargets
  obtain hsorted | ⟨targets, -, hsorted⟩ := s.sorted_cases
  · rw [hsorted]
  · rw [hsorted]
    rfl

theorem history_wholeMedian (s : Solver α) : s.wholeMedian.2.history = s.history := by
  unfold wholeMedian
  split <;> rfl

theorem history_of_start {u : Unit} (h : (start (steps solve)).Answers s u t) :
    t.history = s.history := by
  rcases start_answers h with ⟨-, c, s₁, hc, rfl⟩ | ⟨-, hsolved⟩
  · obtain ⟨value, -, -, rfl⟩ := constantSolution_answers hc
    have hmedian := history_wholeMedian
      { s with lastX := none, partition := components s.partition }
    exact hmedian
  · exact history_of_reducedSolution
      (s := { s with lastX := none, partition := components s.partition }) hsolved

theorem history_of_merge {m : Int} (h : (merge (steps solve)).Answers s m t) :
    t.history = s.history := by
  rcases merge_answers h with ⟨-, -, -, rfl⟩ | ⟨x, y, -, -, ⟨-, rfl⟩ | ⟨-, hrenewed⟩⟩
  · rfl
  · rfl
  · rcases renewResidual_answers hrenewed with ⟨-, rfl⟩ | ⟨-, x, z, residual, -, -, -, rfl⟩ <;> rfl

theorem history_of_evolution {change : α} (h : evolution.Answers s change t) :
    t.history = s.history := by
  obtain ⟨x, lastX, last, -, -, rfl⟩ := evolution_answers h
  rfl

/-- Up to its record a round leaves the history alone. -/
theorem history_of_round {activated : Nat} {merged : Int} {change : α} {s₁ s₂ s₃ s₄ : Solver α}
    (hkept : keepIterate.Answers s () s₁) (hsplit : split.Answers s₁ activated s₂)
    (hsolved : (reducedSolution solve).Answers
      { s₂ with partition := s₂.partition.rebuild.reduceGraph } () s₃)
    (hmerged : (merge (steps solve)).Answers s₃ merged s₄)
    (hchange : evolution.Answers s₄ change t) : t.history = s.history := by
  rw [history_of_evolution hchange, history_of_merge hmerged, history_of_reducedSolution hsolved]
  exact (history_of_split hsplit).trans (history_of_keepIterate hkept)

/-! ## The record of a round -/

omit [Scalar α] in
/-- A record of the time leaves the rest alone. -/
theorem history_of_recordTime {u : Unit}
    (h : Answers (do if r.times then record fun h => { h with times := h.times + 1 }) s u t) :
    t.history = { s.history with times := t.history.times } := by
  split at h
  next => rw [answers_modify.mp h]
  next => rw [(answers_pure.mp h).2]

/-- A record adds the objective if it is asked for. -/
theorem objectives_of_recordRound_of_asked {u : Unit} (hasked : r.objectives = true)
    (h : (recordRound (steps solve) r).Answers s u t) :
    ∃ b, s.objective? = .ok b ∧ t.history.objectives = s.history.objectives ++ [b] := by
  unfold recordRound at h
  simp only [hasked, if_true] at h
  rw [answers_bind] at h
  obtain ⟨b, s₁, hb, h⟩ := h
  obtain ⟨hvalue, rfl⟩ : s.objective? = .ok b ∧ s₁ = s := by
    change Answers (do let s ← get; s.objective?) s b s₁ at hb
    rw [answers_get_bind, answers_lift] at hb
    exact hb
  rw [record, answers_modify_bind] at h
  exact ⟨b, hvalue, by rw [history_of_recordTime h]⟩

/-- A record adds the objective, where it is asked for. -/
theorem objectives_of_recordRound {u : Unit} (h : (recordRound (steps solve) r).Answers s u t) :
    t.history.objectives = s.history.objectives ∨
      ∃ b, s.objective? = .ok b ∧ t.history.objectives = s.history.objectives ++ [b] := by
  cases hasked : r.objectives with
  | true => exact .inr (objectives_of_recordRound_of_asked hasked h)
  | false =>
      unfold recordRound at h
      simp only [hasked, Bool.false_eq_true, if_false] at h
      exact .inl (by rw [history_of_recordTime h])

/-- A record of the objective and the time tells nothing and leaves the evolutions alone. -/
theorem evolutions_of_recordRound {u : Unit} (h : (recordRound (steps solve) r).Answers s u t) :
    t.history.evolutions = s.history.evolutions ∧ t.history.events = s.history.events := by
  unfold recordRound at h
  cases hasked : r.objectives with
  | true =>
      simp only [hasked, if_true] at h
      rw [answers_bind] at h
      obtain ⟨b, s₁, hb, h⟩ := h
      obtain rfl := objective_answers hb
      rw [record, answers_modify_bind] at h
      exact ⟨by rw [history_of_recordTime h], by rw [history_of_recordTime h]⟩
  | false =>
      simp only [hasked, Bool.false_eq_true, if_false] at h
      exact ⟨by rw [history_of_recordTime h], by rw [history_of_recordTime h]⟩

/-- What a round tells, where it is asked to. -/
def roundEvents (s : Solver α) (number activated : Nat) (merged : Int) (change : α) :
    List (Event α) :=
  if s.verbose then
    [.round number s.maxRounds activated merged s.partition.regionCount s.partition.reducedEdgeCount
      change]
  else []

/-- A round records what the comparison leaves, adds the evolution and tells of itself. -/
theorem history_of_finishRound {number activated : Nat} {change : α}
    (h : (finishRound (steps solve) r number activated).Answers s change t) :
    ∃ s₁ merged s₂ s₃ s₄,
      (reducedSolution solve).Answers
        { s with partition := s.partition.rebuild.reduceGraph } () s₁ ∧
      (merge (steps solve)).Answers s₁ merged s₂ ∧ evolution.Answers s₂ change s₃ ∧
      (recordRound (steps solve) r).Answers s₃ () s₄ ∧
      t = { s₄ with history := { s₄.history with
        evolutions := s₄.history.evolutions ++ [change]
        events := s₄.history.events ++ s₄.roundEvents number activated merged change } } := by
  unfold finishRound modifyPartition at h
  rw [answers_modify_bind] at h
  obtain ⟨_, s₁, hsolved, h⟩ := answers_bind.mp h
  obtain ⟨merged, s₂, hmerged, h⟩ := answers_bind.mp h
  obtain ⟨e, s₃, hevolution, h⟩ := answers_bind.mp h
  obtain ⟨_, s₄, hrecorded, h⟩ := answers_bind.mp h
  rw [record, answers_modify_bind, answers_get_bind] at h
  dsimp only at h
  split at h
  next htell =>
    rw [record, answers_modify_bind] at h
    obtain ⟨rfl, rfl⟩ := answers_pure.mp h
    refine ⟨s₁, merged, s₂, s₃, s₄, hsolved, hmerged, hevolution, hrecorded, ?_⟩
    rw [roundEvents, if_pos htell]
  next hsilent =>
    obtain ⟨rfl, rfl⟩ := answers_pure.mp h
    refine ⟨s₁, merged, s₂, s₃, s₄, hsolved, hmerged, hevolution, hrecorded, ?_⟩
    rw [roundEvents, if_neg hsilent, List.append_nil]

/-- A round records the objective of the solver that the comparison leaves, and no other. -/
theorem objectives_of_finishRound {number activated : Nat} {change : α}
    (h : (finishRound (steps solve) r number activated).Answers s change t) :
    ∃ s₁ merged s₂ s₃ s₄,
      (reducedSolution solve).Answers
        { s with partition := s.partition.rebuild.reduceGraph } () s₁ ∧
      (merge (steps solve)).Answers s₁ merged s₂ ∧ evolution.Answers s₂ change s₃ ∧
      (recordRound (steps solve) r).Answers s₃ () s₄ ∧ t = { s₄ with history := t.history } ∧
      t.history.objectives = s₄.history.objectives := by
  obtain ⟨s₁, merged, s₂, s₃, s₄, hsolved, hmerged, hevolution, hrecorded, rfl⟩ :=
    history_of_finishRound h
  exact ⟨s₁, merged, s₂, s₃, s₄, hsolved, hmerged, hevolution, hrecorded, rfl, rfl⟩

/-- The end of a loop has the record of the head at which it ends, with what is told there. -/
theorem LoopEnd.history_eq {left : Nat} {e : Option α} (h : LoopEnd (steps solve) left e s t)
    (hlast : left = 0 → t.history = { s.history with
      events := s.history.events ++ s.closingEvents left e }) :
    t.history = { s.history with events := s.history.events ++ s.closingEvents left e } := by
  cases left with
  | zero => exact hlast rfl
  | succ left =>
      rw [closingEvents_succ, List.append_nil]
      cases h with
      | exhausted hleft => cases hleft
      | settled _ heq => rw [heq]
      | unsplit _ hkept hsplit => rw [history_of_split hsplit, history_of_keepIterate hkept]

/-- The rounds from a head of the loop end at a head, with what was recorded up to there. -/
theorem LoopHead.exists_end_history {left done n : Nat} {e : Option α} {u : Solver α}
    (hhead : LoopHead (steps solve) r s left done e t)
    (h : (rounds (steps solve) r left done e).Answers t n u) :
    ∃ left' e' t', LoopHead (steps solve) r s left' n e' t' ∧ LoopEnd (steps solve) left' e' t' u ∧
      u.history = { t'.history with
        events := t'.history.events ++ t'.closingEvents left' e' } := by
  obtain ⟨left', e', t', hhead', hend, hlast⟩ := exists_end_of_rounds .next hhead h
  exact ⟨left', e', t', hhead', hend, hend.history_eq hlast⟩

/-- The end of a run has the objectives of the head of the loop at which it ends. -/
theorem exists_objectives_of_rounds {left done n : Nat} {e : Option α} {u : Solver α}
    (hhead : LoopHead (steps solve) r s left done e t)
    (h : (rounds (steps solve) r left done e).Answers t n u) :
    ∃ left' e' t', LoopHead (steps solve) r s left' n e' t' ∧
      u.history.objectives = t'.history.objectives := by
  obtain ⟨left', e', t', hend, -, hsame⟩ := hhead.exists_end_history h
  exact ⟨left', e', t', hend, by rw [hsame]⟩

/-! ## The course of a run -/

theorem LoopHead.left_add_done {left done : Nat} {e : Option α}
    (h : LoopHead (steps solve) r s left done e t) : left + done = s.maxRounds.toNat := by
  induction h with
  | first hstarted hrecorded =>
      have hhead : LoopHead (steps solve) r s _ 0 none _ := .first hstarted hrecorded
      rw [hhead.sameSettings.maxRounds, Nat.add_zero]
  | next _ _ _ _ _ _ ih => omega

/-- Before the first round a run has only begun. -/
theorem LoopHead.begun {k : Steps α} {left : Nat} {e : Option α}
    (h : LoopHead k r s left 0 e t) : ∃ s₁, (start k).Answers { s with history := .empty } () s₁ ∧
      (recordRound k r).Answers s₁ () t := by
  cases h with
  | first hstarted hrecorded => exact ⟨_, hstarted, hrecorded⟩

end TotalVariation.Solver
