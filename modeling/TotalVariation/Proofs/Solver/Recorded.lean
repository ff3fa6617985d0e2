import Mathlib
import TotalVariation.Proofs.Solver.Valued

/-! # The recorded objectives

A run that records objectives records one at its start and one at the end of each round. Each is the
objective of the problem on the vertices at the iterate of that moment, and the last one is that of
the iterate with which the run ends.
-/

namespace TotalVariation.Solver

open Step TotalVariation.Partition

variable {K : Type} [ExactField K] {s t : Solver K} {solve : InnerMethod K} {r : Recording}

/-- A solver has an iterate, and its expansion to the vertices has this objective. -/
def HasObjective (p : Problem K) (t : Solver K) (b : K) : Prop :=
  ∃ x, t.x = some x ∧ b = p.objective (t.partition.expand x)

/-- There is one objective for each of the first heads of the loop, in their order, that of the
problem at the iterate there. -/
structure RecordsObjectives (solve : InnerMethod K) (r : Recording) (s : Solver K) (done : ℕ)
    (objectives : List K) : Prop where
  length_eq : objectives.length = done + 1
  exists_head : ∀ i ≤ done, ∃ left e t b, LoopHead (steps solve) r s left i e t ∧
    objectives[i]? = some b ∧ HasObjective s.problem t b

namespace RecordsObjectives

/-- One more head adds one more objective. -/
theorem snoc {done left : ℕ} {e : Option K} {objectives : List K} {b : K}
    (h : RecordsObjectives solve r s done objectives)
    (hhead : LoopHead (steps solve) r s left (done + 1) e t) (hb : HasObjective s.problem t b) :
    RecordsObjectives solve r s (done + 1) (objectives ++ [b]) where
  length_eq := by rw [List.length_append, h.length_eq, List.length_singleton]
  exists_head := by
    intro i hi
    rcases Nat.lt_or_eq_of_le hi with hold | rfl
    · obtain ⟨left', e', t', b', hhead', hentry, hb'⟩ := h.exists_head i (Nat.le_of_lt_succ hold)
      have hlt : i < objectives.length := h.length_eq ▸ hold
      exact ⟨left', e', t', b', hhead', (List.getElem?_append_left hlt).trans hentry, hb'⟩
    · refine ⟨left, e, t, b, hhead, ?_, hb⟩
      rw [← h.length_eq, List.getElem?_concat_length]

end RecordsObjectives

/-- What is recorded is the objective of the problem at the iterate. -/
theorem objectives_of_recordsAt {u : Unit} (hs : s.IsEvaluable solve) (hasked : r.objectives = true)
    (h : RecordsAt (steps solve) r s t) {v : Solver K}
    (hrecorded : (recordRound (steps solve) r).Answers t u v) :
    ∃ b, v.history.objectives = t.history.objectives ++ [b] ∧ HasObjective s.problem v b := by
  obtain ⟨x, hx⟩ := h.exists_isValued hs
  obtain ⟨b, hb, heq⟩ := objectives_of_recordRound_of_asked hasked hrecorded
  have hvalue := Except.ok.inj (hb.symm.trans hx.objective?_eq_ok)
  rw [h.sameSettings.problem] at hvalue
  refine ⟨b, heq, ?_⟩
  rw [recordRound_answers objective_answers hrecorded]
  exact ⟨x, hx.iterate, hvalue⟩

/-- At every head of the loop the objectives of all heads up to there are recorded. -/
theorem LoopHead.recordsObjectives (hs : s.IsEvaluable solve) (hasked : r.objectives = true)
    {left done : ℕ} {e : Option K} (h : LoopHead (steps solve) r s left done e t) :
    RecordsObjectives solve r s done t.history.objectives ∧
      ∃ b, t.history.objectives[done]? = some b ∧ HasObjective s.problem t b := by
  induction h with
  | @first s₁ t hstarted hrecorded =>
      obtain ⟨b, heq, hb⟩ := objectives_of_recordsAt hs hasked (.start hstarted) hrecorded
      rw [history_of_start hstarted, History.empty, List.nil_append] at heq
      rw [heq]
      refine ⟨⟨rfl, fun i hi => ?_⟩, b, rfl, hb⟩
      obtain rfl := Nat.le_zero.mp hi
      exact ⟨_, none, t, b, .first hstarted hrecorded, rfl, hb⟩
  | @next left done activated e change t s₁ s₂ u hhead hopen hkept hsplit hsome hfinished ih =>
      obtain ⟨t₁, merged, t₂, t₃, t₄, hsolved, hmerged, hchange, hrecorded, hsame, hobjectives⟩ :=
        objectives_of_finishRound hfinished
      obtain ⟨b, heq, hb⟩ := objectives_of_recordsAt hs hasked
        (.round (.intro (.intro hhead hopen hkept hsplit hsome) hsolved hmerged) hchange) hrecorded
      have hformer := history_of_round hkept hsplit hsolved hmerged hchange
      have hb' : HasObjective s.problem u b := by
        rw [hsame]
        exact hb
      rw [hobjectives, heq, hformer]
      refine ⟨ih.1.snoc (hhead.next hopen hkept hsplit hsome hfinished) hb', b, ?_, hb'⟩
      rw [← ih.1.length_eq, List.getElem?_concat_length]

/-- The end of the loop leaves the values of the vertices as they are. -/
theorem LoopEnd.hasObjective {left : ℕ} {e : Option K} {u : Solver K} {p : Problem K} {b : K}
    (h : LoopEnd (steps solve) left e t u) (hb : HasObjective p t b) : HasObjective p u b := by
  cases h with
  | exhausted _ heq =>
      rw [heq]
      exact hb
  | settled _ heq =>
      rw [heq]
      exact hb
  | unsplit _ hkept hsplit =>
      obtain ⟨x, hx, rfl⟩ := hb
      obtain ⟨y, -, rfl⟩ := keepIterate_answers hkept
      obtain ⟨cuts, slope, rfl, -, -⟩ := split_marks hsplit
      obtain ⟨hgraph, -, -, hassignment⟩ := markRegions_frame t.partition.saveAssignment cuts
      have hexpand : (markRegions t.partition.saveAssignment cuts).expand x =
          t.partition.expand x := by
        simp only [expand, Partition.vertexCount, regionOf, hgraph, hassignment]
        rfl
      exact ⟨x, hx, congrArg p.objective hexpand.symm⟩

/-- A run that records objectives has recorded, at every head of its loop, one for each head up to
there: the objective of the problem on the vertices at the iterate of that head. If it ends it has
recorded one more than it has made rounds, and the last one is that of the iterate with which it
ends. -/
theorem objectives_of_run (hs : s.IsEvaluable solve) (hasked : r.objectives = true) :
    (∀ {left done : ℕ} {e : Option K} {t : Solver K}, LoopHead (steps solve) r s left done e t →
      RecordsObjectives solve r s done t.history.objectives) ∧
    ∀ {n : ℕ} {t : Solver K}, (run (steps solve) true r).Answers s n t →
      RecordsObjectives solve r s n t.history.objectives ∧
        ∃ b, t.history.objectives[n]? = some b ∧ HasObjective s.problem t b := by
  refine ⟨fun hhead => (hhead.recordsObjectives hs hasked).1, fun h => ?_⟩
  obtain ⟨s₁, s₂, hstarted, hrecorded, hrounds⟩ := run_answers h
  obtain ⟨left, e, u, hhead, hend, hsame⟩ :=
    (LoopHead.first hstarted hrecorded).exists_end_history hrounds
  obtain ⟨hrecords, b, hlast, hb⟩ := hhead.recordsObjectives hs hasked
  rw [hsame]
  exact ⟨hrecords, b, hlast, hend.hasObjective hb⟩

/-- Three vertices on a path with a table that couples the first two, where values that differ by a
half of the larger are merged. -/
def gramPath : Solver ℚ :=
  { ofPartition (.whole ⟨#[0, 1, 2, 2], #[0, 1], #[1, 2]⟩ ⟨some #[1, 2], 0⟩) with
    quadratic := .gram ⟨3, 3, #[#[2, 1, 0], #[1, 2, 0], #[0, 0, 1]]⟩ (some #[0, 12, 6])
    mergeTolerance := 1 / 2
    inner := { defaultInner with maxIterations := 1 } }

theorem isEvaluable_gramPath : gramPath.IsEvaluable innerMethod where
  arranged := by
    have hpath : Partition.ofIndex? #[0, 1, 2, 2] #[1, 2] (some #[1, 2]) (0 : ℚ) =
        .ok gramPath.partition := by with_unfolding_all rfl
    exact isArranged_of_ofIndex? hpath
  fits := ⟨rfl, rfl, by rintro l ⟨⟩; rfl⟩
  symmetric := by
    change ∀ i < 3, ∀ j < 3, _
    decide +kernel
  answersInSize := answersInSize_innerMethod rfl

theorem objectives_of_run_gramPath : gramPath.IsEvaluable innerMethod ∧
    ∃ t, (run standardSteps true ⟨true, false⟩).Answers gramPath 1 t ∧
      t.x = some #[1 / 3, 17 / 4] ∧ t.history.objectives = [-162 / 7, -12661 / 288] ∧
      RecordsObjectives innerMethod ⟨true, false⟩ gramPath 1 t.history.objectives ∧
      ∃ b, t.history.objectives[1]? = some b ∧ HasObjective gramPath.problem t b := by
  have hrun : (run standardSteps true ⟨true, false⟩).Answers gramPath 1 _ :=
    answers_of_toOption (by decide +kernel)
  exact ⟨isEvaluable_gramPath, _, hrun, by decide +kernel, by decide +kernel,
    (objectives_of_run isEvaluable_gramPath rfl).2 hrun⟩

end TotalVariation.Solver
