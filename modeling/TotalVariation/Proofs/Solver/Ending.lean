import Mathlib
import TotalVariation.Proofs.Numeric.Extended
import TotalVariation.Proofs.Solver.History
import TotalVariation.Solver.Minimise

/-! # How runs end

A run that compares its iterates goes on only while the evolution is above the tolerance, so at each
head of its loop every evolution but the last one is. It ends because all rounds were made, because
the last evolution is not above the tolerance, or because a split finds nothing; and before the
first round if the tolerance is infinite, as the evolution counts as infinite there. It warns
exactly if all rounds were made and the last evolution is above the tolerance.
-/

namespace TotalVariation.Solver

open Step

variable {α : Type} [Scalar α] {s t : Solver α} {solve : InnerMethod α} {r : Recording}
  {left done n : ℕ} {e : Option α}

/-- A history that has one evolution for each round, of which only the last is compared with the
tolerance yet, and no warning. -/
structure IsOnCourse (tolerance : α) (done : ℕ) (e : Option α) (h : History α) : Prop where
  length : h.evolutions.length = done
  last : h.evolutions.getLast? = e
  above : ∀ x ∈ h.evolutions.dropLast, ¬x ≤ tolerance
  quiet : ∀ event ∈ h.events, event.isWarning = false

/-- Nothing is recorded of evolutions before the first round. -/
theorem isOnCourse_first {s₁ : Solver α} (tolerance : α)
    (hstarted : (start (steps solve)).Answers { s with history := .empty } () s₁)
    (hrecorded : (recordRound (steps solve) r).Answers s₁ () t) :
    IsOnCourse tolerance 0 none t.history := by
  have hempty := history_of_start hstarted
  obtain ⟨hevolutions, hevents⟩ := evolutions_of_recordRound hrecorded
  rw [hempty] at hevolutions hevents
  have hno : t.history.evolutions = [] := hevolutions
  have hsilent : t.history.events = [] := hevents
  exact ⟨by rw [hno]; rfl, by rw [hno]; rfl, by simp [hno], by simp [hsilent]⟩

/-- A round adds its evolution; the former last one was compared with the tolerance before. -/
theorem IsOnCourse.next {activated : ℕ} {change : α} {s₁ s₂ u : Solver α}
    (h : IsOnCourse t.tolerance done e t.history) (hopen : hasSettled t.tolerance e = false)
    (hkept : keepIterate.Answers t () s₁) (hsplit : split.Answers s₁ activated s₂)
    (hfinished : (finishRound (steps solve) r (done + 1) activated).Answers s₂ change u) :
    IsOnCourse t.tolerance (done + 1) (some change) u.history := by
  obtain ⟨s₃, merged, s₄, s₅, s₆, hsolved, hmerged, hchange, hrecorded, rfl⟩ :=
    history_of_finishRound hfinished
  obtain ⟨hevolutions, hevents⟩ := evolutions_of_recordRound hrecorded
  rw [history_of_round hkept hsplit hsolved hmerged hchange] at hevolutions hevents
  refine ⟨?_, ?_, fun x hx => ?_, fun event hevent => ?_⟩
  · change (s₆.history.evolutions ++ [change]).length = done + 1
    rw [hevolutions, List.length_append, h.length, List.length_singleton]
  · exact List.getLast?_concat
  · change x ∈ (s₆.history.evolutions ++ [change]).dropLast at hx
    rw [List.dropLast_concat, hevolutions] at hx
    cases hlast : t.history.evolutions.getLast? with
    | none =>
        rw [List.getLast?_eq_none_iff.mp hlast] at hx
        cases hx
    | some a =>
        rw [← List.dropLast_append_getLast? a hlast] at hx
        rcases List.mem_append.mp hx with hformer | hx
        · exact h.above x hformer
        · -- the last of the former evolutions is the one that kept the loop going
          obtain rfl := List.mem_singleton.mp hx
          rw [← h.last, hlast] at hopen
          exact of_decide_eq_false hopen
  · change event ∈ s₆.history.events ++ _ at hevent
    rw [hevents] at hevent
    rcases List.mem_append.mp hevent with hformer | htold
    · exact h.quiet event hformer
    · unfold roundEvents at htold
      split at htold
      next =>
        obtain rfl := List.mem_singleton.mp htold
        rfl
      next => cases htold

/-- Every head of the loop is on course. -/
theorem LoopHead.isOnCourse (hmonitors : s.monitorsEvolution = true)
    (h : LoopHead (steps solve) r s left done e t) : IsOnCourse s.tolerance done e t.history := by
  induction h with
  | first hstarted hrecorded => exact isOnCourse_first _ hstarted hrecorded
  | next hhead hopen hkept hsplit hsome hfinished ih =>
      have hsame := hhead.sameSettings
      rw [hsame.monitorsEvolution, hmonitors, Bool.true_and] at hopen
      rw [← hsame.tolerance] at ih ⊢
      exact ih.next hopen hkept hsplit hfinished

theorem mem_closingEvents {event : Event α} : event ∈ s.closingEvents left e ↔
    left = 0 ∧ s.monitorsEvolution = true ∧ 0 < s.maxRounds ∧
      ∃ change, e = some change ∧ s.tolerance < change ∧
        event = .notSettled s.maxRounds change := by
  cases left with
  | succ left => simp [closingEvents_succ]
  | zero =>
      cases e with
      | none => simp [closingEvents]
      | some change =>
          rw [closingEvents]
          split
          next htell =>
            simp only [Bool.and_eq_true, decide_eq_true_eq] at htell
            simp [htell]
          next hsilent =>
            simp only [Bool.and_eq_true, decide_eq_true_eq, not_and] at hsilent
            simpa using fun hmonitors hpos habove => (hsilent ⟨hmonitors, hpos⟩ habove).elim

/-- A run that compares its iterates and raises no failure, where no evolution is undefined, records
one evolution for each round, all but the last above the tolerance. It makes all rounds that it may,
or the last evolution is not above the tolerance, or the last split finds nothing, or the tolerance
is infinite and no round is made. It warns exactly if it made all rounds, at least one, and the last
evolution is above the tolerance. -/
theorem run_ends (hmonitors : s.monitorsEvolution = true)
    (h : (run (steps solve) true r).Answers s n t)
    (hcomparable : ∀ x ∈ t.history.evolutions, x ≤ s.tolerance ∨ s.tolerance < x) :
    t.history.evolutions.length = n ∧
      (∀ x ∈ t.history.evolutions.dropLast, s.tolerance < x) ∧
      (n = s.maxRounds.toNat ∨
        (∃ x, t.history.evolutions.getLast? = some x ∧ x ≤ s.tolerance) ∨
        (∃ left e u s₁, LoopHead (steps solve) r s left n e u ∧ keepIterate.Answers u () s₁ ∧
          split.Answers s₁ 0 t) ∨
        (Scalar.isPositiveInfinite s.tolerance = true ∧ n = 0)) ∧
      ∀ rounds x, .notSettled rounds x ∈ t.history.events ↔
        rounds = s.maxRounds ∧ (n : ℤ) = s.maxRounds ∧ 0 < s.maxRounds ∧
          t.history.evolutions.getLast? = some x ∧ s.tolerance < x := by
  obtain ⟨s₁, s₂, hstarted, hrecorded, hrounds⟩ := run_answers h
  obtain ⟨left, e, u, hhead, hend, hhistory⟩ :=
    (LoopHead.first hstarted hrecorded).exists_end_history hrounds
  have hcourse := hhead.isOnCourse hmonitors
  have hcount := hhead.left_add_done
  have hsame := hhead.sameSettings
  have hevolutions : t.history.evolutions = u.history.evolutions := by rw [hhistory]
  have hevents : t.history.events = u.history.events ++ u.closingEvents left e := by rw [hhistory]
  rw [hevolutions] at hcomparable ⊢
  refine ⟨hcourse.length, fun x hx => ?_, ?_, fun rounds x => ?_⟩
  · exact (hcomparable x (List.mem_of_mem_dropLast hx)).resolve_left (hcourse.above x hx)
  · cases hend with
    | exhausted hleft _ => exact .inl (by omega)
    | unsplit _ hkept hsplit => exact .inr (.inr (.inl ⟨left, e, u, _, hhead, hkept, hsplit⟩))
    | settled hsettled _ =>
        rw [hsame.monitorsEvolution, hmonitors, Bool.true_and, hsame.tolerance] at hsettled
        cases e with
        | some x => exact .inr (.inl ⟨x, hcourse.last, of_decide_eq_true hsettled⟩)
        | none =>
            have hlength := hcourse.length
            rw [List.getLast?_eq_none_iff.mp hcourse.last] at hlength
            exact .inr (.inr (.inr ⟨hsettled, hlength.symm⟩))
  · have hquiet : Event.notSettled rounds x ∉ u.history.events := fun hmem => by
      cases hcourse.quiet _ hmem
    rw [hevents, List.mem_append, or_iff_right hquiet, mem_closingEvents, hsame.monitorsEvolution,
      hsame.maxRounds, hsame.tolerance, hcourse.last]
    constructor
    · rintro ⟨hleft, -, hpos, change, rfl, habove, heq⟩
      obtain ⟨rfl, rfl⟩ := Event.notSettled.inj heq
      exact ⟨rfl, by omega, hpos, rfl, habove⟩
    · rintro ⟨rfl, hall, hpos, rfl, habove⟩
      exact ⟨by omega, hmonitors, hpos, x, rfl, habove, rfl⟩

/-- Two vertices joined by an edge, with observations apart and one round allowed. -/
def hurriedPair (tolerance : Extended ℚ) : Solver (Extended ℚ) :=
  { ofPartition (.whole ⟨#[0, 1, 1], #[0], #[1]⟩ ⟨none, .finite 1⟩) with
    quadratic := .identity 2 (.finite 1) (some #[.finite 0, .finite 10])
    tolerance := tolerance
    maxRounds := 1 }

/-- With a finite tolerance the only round is made and told to be too few. -/
theorem run_ends_hurriedPair :
    ∃ t, (run standardSteps true ⟨false, false⟩).Answers (hurriedPair (.finite (1 / 2))) 1 t ∧
      (∀ x ∈ t.history.evolutions, x ≤ .finite (1 / 2) ∨ .finite (1 / 2) < x) ∧
      t.history.evolutions.length = 1 ∧
      (∀ x ∈ t.history.evolutions.dropLast, .finite (1 / 2) < x) ∧
      (1 = (hurriedPair (.finite (1 / 2))).maxRounds.toNat ∨
        (∃ x, t.history.evolutions.getLast? = some x ∧ x ≤ .finite (1 / 2)) ∨
        (∃ left e u s₁, LoopHead standardSteps ⟨false, false⟩ (hurriedPair (.finite (1 / 2))) left 1
          e u ∧ keepIterate.Answers u () s₁ ∧ split.Answers s₁ 0 t) ∨
        (Scalar.isPositiveInfinite (hurriedPair (.finite (1 / 2))).tolerance = true ∧ 1 = 0)) ∧
      ∀ rounds x, .notSettled rounds x ∈ t.history.events ↔
        rounds = (hurriedPair (.finite (1 / 2))).maxRounds ∧
          ((1 : ℕ) : ℤ) = (hurriedPair (.finite (1 / 2))).maxRounds ∧
          0 < (hurriedPair (.finite (1 / 2))).maxRounds ∧
          t.history.evolutions.getLast? = some x ∧ .finite (1 / 2) < x := by
  have hrun : (run standardSteps true ⟨false, false⟩).Answers (hurriedPair (.finite (1 / 2))) 1 _ :=
    answers_of_toOption (by decide +kernel)
  have hcomparable : ∀ x ∈ ((run standardSteps true ⟨false, false⟩).run
      (hurriedPair (.finite (1 / 2)))).2.history.evolutions,
      x ≤ .finite (1 / 2) ∨ .finite (1 / 2) < x := by
    decide +kernel
  exact ⟨_, hrun, hcomparable, run_ends rfl hrun hcomparable⟩

/-- With an infinite tolerance no round is made, although the only one that is allowed is not made
yet, there is no evolution, and no split was tried. -/
theorem not_run_ends_hurriedPair :
    ∃ t, (run standardSteps true ⟨false, false⟩).Answers (hurriedPair .above) 0 t ∧
      (hurriedPair .above).monitorsEvolution = true ∧ 0 ≤ (hurriedPair .above).tolerance ∧
      (∀ x ∈ t.history.evolutions, x ≤ .above ∨ .above < x) ∧
      ¬(0 = (hurriedPair .above).maxRounds.toNat ∨
        (∃ x, t.history.evolutions.getLast? = some x ∧ x ≤ .above) ∨
        ∃ left e u s₁, LoopHead standardSteps ⟨false, false⟩ (hurriedPair .above) left 0 e u ∧
          keepIterate.Answers u () s₁ ∧ split.Answers s₁ 0 t) := by
  have hrun : (run standardSteps true ⟨false, false⟩).Answers (hurriedPair .above) 0 _ :=
    answers_of_toOption (by decide +kernel)
  have hkeptNone : ((run standardSteps true ⟨false, false⟩).run
      (hurriedPair .above)).2.lastX.isNone = true := by
    decide +kernel
  have hnone : ((run standardSteps true ⟨false, false⟩).run
      (hurriedPair .above)).2.history.evolutions.isEmpty = true := by
    decide +kernel
  rw [List.isEmpty_iff] at hnone
  refine ⟨_, hrun, rfl, trivial, by rw [hnone]; simp, ?_⟩
  rintro (hrounds | ⟨x, hx, -⟩ | ⟨left, e, u, s₁, -, hkept, hsplit⟩)
  · cases hrounds
  · rw [hnone] at hx
    cases hx
  · -- a split leaves the iterate that was kept before it
    obtain ⟨x, -, rfl⟩ := keepIterate_answers hkept
    obtain ⟨slope, found, -, -, heq, -⟩ := split_answers.mp hsplit
    rw [heq] at hkeptNone
    cases hkeptNone

end TotalVariation.Solver
