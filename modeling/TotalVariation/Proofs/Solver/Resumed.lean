import Mathlib
import TotalVariation.Proofs.Solver.Used
import TotalVariation.Proofs.Solver.Valued

/-! # Runs that go on

A run may go on from the state that an earlier one left, and settings may be changed in between. The
regions keep fitting together, but what is stored about them need not belong to the present
settings: the weights of the graph of the regions are those that the edges had when the regions were
rebuilt last.
-/

namespace TotalVariation.Solver

open Step TotalVariation.Partition

/-! ## The course of a run that goes on -/

section Heads

variable {α : Type} [Scalar α] {s t : Solver α} {solve : InnerMethod α} {r : Recording}

/-- The head of the loop of a run that goes on from `s`. It is reached as that of a run from the
beginning, but for the start. -/
inductive ResumedHead (k : Steps α) (r : Recording) (s : Solver α) :
    Nat → Nat → Option α → Solver α → Prop
  | first {t : Solver α} (hrecorded : (recordRound k r).Answers { s with history := .empty } () t) :
      ResumedHead k r s t.maxRounds.toNat 0 none t
  | next {left done activated : Nat} {e : Option α} {change : α} {t s₁ s₂ u : Solver α}
      (hhead : ResumedHead k r s (left + 1) done e t)
      (hopen : (t.monitorsEvolution && hasSettled t.tolerance e) = false)
      (hkept : keepIterate.Answers t () s₁)
      (hsplit : k.split.Answers s₁ activated s₂) (hsome : activated ≠ 0)
      (hfinished : (finishRound k r (done + 1) activated).Answers s₂ change u) :
      ResumedHead k r s left (done + 1) (some change) u

/-- A run that goes on records its first objective and makes rounds. -/
theorem resumed_answers {k : Steps α} {n : Nat} (h : (run k false r).Answers s n t) :
    ∃ s₁, (recordRound k r).Answers { s with history := .empty } () s₁ ∧
      (rounds k r s₁.maxRounds.toNat 0 none).Answers s₁ n t := by
  unfold run at h
  rw [answers_modify_bind] at h
  simp only [Bool.false_eq_true, if_false] at h
  obtain ⟨_, s₁, hrecorded, h⟩ := answers_bind.mp h
  rw [answers_get_bind] at h
  exact ⟨s₁, hrecorded, h⟩

/-- What the rounds from a head of the loop come to, the whole run comes to. -/
theorem ResumedHead.run_answers {k : Steps α} {left done n : Nat} {e : Option α} {u : Solver α}
    (hhead : ResumedHead k r s left done e t) (h : (rounds k r left done e).Answers t n u) :
    (run k false r).Answers s n u := by
  induction hhead with
  | first hrecorded =>
      unfold run
      rw [answers_modify_bind]
      simp only [Bool.false_eq_true, if_false]
      exact answers_bind.mpr ⟨(), _, hrecorded, answers_get_bind.mpr h⟩
  | next _ hopen hkept hsplit hsome hfinished ih =>
      refine ih ?_
      unfold rounds
      rw [answers_get_bind, hopen, if_neg Bool.false_ne_true]
      refine answers_bind.mpr ⟨(), _, hkept, answers_bind.mpr ⟨_, _, hsplit, ?_⟩⟩
      rw [if_neg hsome]
      exact answers_bind.mpr ⟨_, _, hfinished, h⟩

/-- A run that goes on comes to a head of its loop at which the loop ends. -/
theorem exists_end_of_resumed {n : Nat} (h : (run (steps solve) false r).Answers s n t) :
    ∃ left e t', ResumedHead (steps solve) r s left n e t' ∧ LoopEnd (steps solve) left e t' t ∧
      t.history = { t'.history with
        events := t'.history.events ++ t'.closingEvents left e } := by
  obtain ⟨s₁, hrecorded, hrounds⟩ := resumed_answers h
  obtain ⟨left, e, t', hhead, hend, hlast⟩ :=
    exists_end_of_rounds .next (ResumedHead.first hrecorded) hrounds
  exact ⟨left, e, t', hhead, hend, hend.history_eq hlast⟩

namespace ResumedHead

variable {left done : Nat} {e : Option α}

theorem sameSettings (h : ResumedHead (steps solve) r s left done e t) : SameSettings s t := by
  induction h with
  | first hrecorded =>
      rw [recordRound_answers objective_answers hrecorded]
      constructor <;> rfl
  | next _ _ hkept hsplit _ hfinished ih =>
      exact ((ih.trans (sameSettings_of_keepIterate hkept)).trans
        (sameSettings_of_split hsplit)).trans (sameSettings_of_finishRound hfinished)

/-- The first objective that is recorded stays the first. -/
theorem exists_objective (hasked : r.objectives = true)
    (h : ResumedHead (steps solve) r s left done e t) :
    ∃ b, s.objective? = .ok b ∧ t.history.objectives[0]? = some b := by
  induction h with
  | first hrecorded =>
      obtain ⟨b, hb, heq⟩ := objectives_of_recordRound_of_asked hasked hrecorded
      refine ⟨b, hb, ?_⟩
      rw [heq]
      rfl
  | next _ _ hkept hsplit _ hfinished ih =>
      obtain ⟨b, hb, hfirst⟩ := ih
      obtain ⟨t₁, merged, t₂, t₃, t₄, hsolved, hmerged, hchange, hrecorded, -, hobjectives⟩ :=
        objectives_of_finishRound hfinished
      obtain ⟨c, -, heq⟩ := objectives_of_recordRound_of_asked hasked hrecorded
      have hformer := history_of_round hkept hsplit hsolved hmerged hchange
      refine ⟨b, hb, ?_⟩
      rw [hobjectives, heq, hformer, List.getElem?_append_left]
      · exact hfirst
      · exact (List.getElem?_eq_some_iff.mp hfirst).1

end ResumedHead

/-- The end of a loop leaves the values as they are, and of the partition all but the boundaries,
the marks of solved regions and the kept assignment. -/
theorem LoopEnd.frame {left : Nat} {e : Option α} {u : Solver α}
    (h : LoopEnd (steps solve) left e t u) : u.x = t.x ∧ u.partition = { t.partition with
      active := u.partition.active
      saturated := u.partition.saturated
      lastAssignment := u.partition.lastAssignment } := by
  cases h with
  | exhausted _ heq =>
      rw [heq]
      exact ⟨rfl, rfl⟩
  | settled _ heq =>
      rw [heq]
      exact ⟨rfl, rfl⟩
  | unsplit _ hkept hsplit =>
      obtain ⟨x, -, rfl⟩ := keepIterate_answers hkept
      obtain ⟨slope, found, -, -, rfl, -⟩ := split_answers.mp hsplit
      dsimp only
      rw [markRegions_eq]
      exact ⟨rfl, rfl⟩

end Heads

variable {K : Type} [ExactField K] {s t : Solver K} {solve : InnerMethod K} {r : Recording}
  {w : Weighting K}

/-! ## What is stored about the regions -/

/-- A solved solver for which the regions of the vertices are up to date, and the weights of the
graph of the regions those that belong to the given weights of the edges. -/
structure IsStoredWith (w : Weighting K) (s : Solver K) : Prop extends s.IsSolved where
  assigns : s.AssignsVertices
  reducedWeights : HasReducedWeights { s.partition with edgeWeights := w }

theorem IsStored.isStoredWith (hs : s.IsStored) : IsStoredWith s.partition.edgeWeights s :=
  ⟨hs.toIsSolved, hs.assigns, hs.reducedWeights⟩

/-- A round from a solved state brings everything up to date. -/
theorem isStored_of_round (hsolve : AnswersInSize solve t.inner) {number activated : ℕ} {change : K}
    {u : Unit} {s₁ s₂ v : Solver K} (ht : t.IsSolved) (hkept : keepIterate.Answers t u s₁)
    (hsplit : split.Answers s₁ activated s₂)
    (hfinished : (finishRound (steps solve) r number activated).Answers s₂ change v) :
    v.IsStored := by
  have harranged := isArranged_of_split
    (isSolved_of_keepIterate ht hkept).partition.toIsArranged hsplit
  have hinner : s₂.inner = t.inner :=
    (sameSettings_of_split hsplit).inner.trans (sameSettings_of_keepIterate hkept).inner
  obtain ⟨t₁, merged, t₂, t₃, hsolved, hmerged, hevolution, heq⟩ :=
    finishRound_answers objective_answers hfinished
  have hthree : t₃.IsStored :=
    ((isStored_of_rebuilt (hinner ▸ hsolve) harranged hsolved).of_merge hmerged).of_evolution
      hevolution
  rw [heq]
  exact ⟨⟨hthree.partition, hthree.iterate⟩, hthree.assigns, hthree.reducedWeights⟩

theorem LoopHead.isStored (hsolve : AnswersInSize solve s.inner) (hs : s.partition.IsArranged)
    {left done : ℕ} {e : Option K} (h : LoopHead (steps solve) r s left done e t) : t.IsStored := by
  cases h with
  | first hstarted hrecorded =>
      have hone := isStored_of_start (s := { s with history := .empty }) hsolve hs hstarted
      rw [recordRound_answers objective_answers hrecorded]
      exact ⟨⟨hone.partition, hone.iterate⟩, hone.assigns, hone.reducedWeights⟩
  | next hhead _ hkept hsplit _ hfinished =>
      exact isStored_of_round (hhead.sameSettings.inner ▸ hsolve) (hhead.isSolved hsolve hs) hkept
        hsplit hfinished

namespace ResumedHead

variable {left done : ℕ} {e : Option K}

/-- Going on from a solved state, every head is solved. -/
theorem isSolved (hsolve : AnswersInSize solve s.inner) (hs : s.IsSolved)
    (h : ResumedHead (steps solve) r s left done e t) : t.IsSolved := by
  induction h with
  | first hrecorded =>
      rw [recordRound_answers objective_answers hrecorded]
      exact ⟨hs.partition, hs.iterate⟩
  | next hhead _ hkept hsplit _ hfinished ih =>
      exact (isStored_of_round (hhead.sameSettings.inner ▸ hsolve) ih hkept hsplit
        hfinished).toIsSolved

/-- The regions keep the weights that they have until they are rebuilt in the first round. -/
theorem isStoredWith (hsolve : AnswersInSize solve s.inner) (hs : IsStoredWith w s)
    (h : ResumedHead (steps solve) r s left done e t) :
    IsStoredWith (if done = 0 then w else s.partition.edgeWeights) t := by
  cases h with
  | first hrecorded =>
      rw [recordRound_answers objective_answers hrecorded, if_pos rfl]
      exact ⟨⟨hs.partition, hs.iterate⟩, hs.assigns, hs.reducedWeights⟩
  | next hhead hopen hkept hsplit hsome hfinished =>
      have hsame := (hhead.next hopen hkept hsplit hsome hfinished).sameSettings
      rw [if_neg (Nat.succ_ne_zero _), ← hsame.edgeWeights]
      exact (isStored_of_round (hhead.sameSettings.inner ▸ hsolve)
        (hhead.isSolved hsolve hs.toIsSolved) hkept hsplit hfinished).isStoredWith

end ResumedHead

theorem LoopEnd.isStoredWith {left : ℕ} {e : Option K} {u : Solver K} (ht : IsStoredWith w t)
    (h : LoopEnd (steps solve) left e t u) : IsStoredWith w u where
  toIsSolved := h.isSolved ht.toIsSolved
  assigns := by
    rw [AssignsVertices, vertexCount, h.frame.2]
    exact ht.assigns
  reducedWeights := by
    rw [h.frame.2]
    exact ht.reducedWeights.of_frame rfl rfl rfl rfl rfl

theorem IsStoredWith.of_setsTo (hs : IsStoredWith w s) (h : s.SetsTo t) : IsStoredWith w t := by
  obtain ⟨hx, hpartition⟩ := h.frame
  refine ⟨⟨?_, ?_⟩, ?_, ?_⟩
  · rw [hpartition]
    exact hs.partition.of_marks rfl rfl rfl rfl rfl rfl rfl
  · rw [hx, hpartition]
    exact hs.iterate
  · rw [AssignsVertices, vertexCount, hpartition]
    exact hs.assigns
  · rw [hpartition]
    exact hs.reducedWeights

/-! ## Solvers after a run -/

/-- A solver after a finished run from the beginning and whatever came then: finished runs that went
on and accepted settings. The weights are those that the edges had when the regions were rebuilt
last. -/
inductive HasRun (solve : InnerMethod K) : Weighting K → Solver K → Prop
  | fresh {s t : Solver K} {n : ℕ} {r : Recording} (hs : s.IsSound)
      (hsolve : AnswersInSize solve s.inner) (h : (run (steps solve) true r).Answers s n t) :
      HasRun solve s.partition.edgeWeights t
  | resumed {w : Weighting K} {s t : Solver K} {n : ℕ} {r : Recording} (hs : HasRun solve w s)
      (hsolve : AnswersInSize solve s.inner) (h : (run (steps solve) false r).Answers s n t) :
      HasRun solve (if n = 0 then w else s.partition.edgeWeights) t
  | sets {w : Weighting K} {s t : Solver K} (hs : HasRun solve w s) (h : s.SetsTo t) :
      HasRun solve w t

namespace HasRun

theorem isSound (h : HasRun solve w s) : s.IsSound := by
  induction h with
  | fresh hs _ h => exact hs.of_retains (((stepsRetain solve).run true _).of_answers h)
  | resumed _ _ h ih => exact ih.of_retains (((stepsRetain solve).run false _).of_answers h)
  | sets _ h ih => exact ih.of_setsTo h

theorem isStoredWith (h : HasRun solve w s) : IsStoredWith w s := by
  induction h with
  | fresh hs hsolve h =>
      obtain ⟨left, e, t, hhead, hend⟩ := exists_end_of_run h
      rw [← hhead.sameSettings.edgeWeights]
      exact hend.isStoredWith (hhead.isStored hsolve hs.arranged).isStoredWith
  | resumed _ hsolve h ih =>
      obtain ⟨left, e, t, hhead, hend, -⟩ := exists_end_of_resumed h
      exact hend.isStoredWith (hhead.isStoredWith hsolve ih)
  | sets _ h ih => exact ih.of_setsTo h

end HasRun

end TotalVariation.Solver
