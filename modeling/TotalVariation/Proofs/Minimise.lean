import Mathlib
import TotalVariation.Proofs.Solver.Configure

/-! # Bounds of a minimisation

The values that a minimisation returns lie between the bounds of every vertex exactly if no
returned region holds a vertex whose lower bound exceeds the upper bound of another. Bounds that
cross in this way are accepted, since each vertex alone has room between its two.
-/

namespace TotalVariation.Request

open Solver TotalVariation.Bound

variable {K : Type} [ExactField K]

/-- A minimisation that answers has configured a solver and run it. -/
theorem minimise_eq_ok {q : Request K} {first adjacent : Array Int} {a : Answer K}
    (h : (q.minimise first adjacent).2 = .ok a) :
    ∃ events s n t, q.configure? first adjacent = (events, .ok s) ∧
      (run standardSteps true q.recording).Answers s n t ∧
      a.assignment = t.partition.assignment ∧ a.x = t.x.getD #[] := by
  unfold minimise minimiseBy at h
  split at h
  next => cases h
  next events s hconfigured =>
    obtain ⟨n, hn, rfl⟩ := map_eq_ok.mp h
    exact ⟨events, s, n, _, hconfigured, Prod.ext hn rfl, rfl, rfl⟩

/-- The values respect the bounds exactly if the regions leave room for them: at the end of a run
of a solver whose bounds were accepted, where a missing bound is none, and in the answer of a
minimisation. The method is splitting with at least one iteration, and only equal values are
merged. -/
theorem isBetween_iff_of_minimise :
    (∀ {s t : Solver K} {r : Recording} {n : Nat}, s.partition.IsArranged → BoundsAccepted s →
      s.inner.backend = .splitting → 1 ≤ s.inner.maxIterations → s.mergeTolerance = 0 →
      (run standardSteps true r).Answers s n t →
      ((∀ v < s.vertexCount, IsBetween (s.problem.lowerAt v) (s.problem.upperAt v)
          (Vec.entry (t.x.getD #[]) (t.partition.regionOf v))) ↔
        ∀ u < s.vertexCount, ∀ v < s.vertexCount,
          t.partition.regionOf u = t.partition.regionOf v →
            AreUncrossed (s.problem.lowerAt u) (s.problem.upperAt v))) ∧
    ∀ {q : Request K} {first adjacent : Array Int} {events : List (Event K)} {s : Solver K}
      {a : Answer K}, q.configure? first adjacent = (events, .ok s) → q.backend = "pfdr" →
      1 ≤ q.innerIterations → q.mergeTolerance = 0 → (q.minimise first adjacent).2 = .ok a →
      ((∀ v < s.vertexCount, IsBetween (s.problem.lowerAt v) (s.problem.upperAt v)
          (Vec.entry a.x (a.assignment.getD v 0))) ↔
        ∀ u < s.vertexCount, ∀ v < s.vertexCount,
          a.assignment.getD u 0 = a.assignment.getD v 0 →
            AreUncrossed (s.problem.lowerAt u) (s.problem.upperAt v)) := by
  constructor
  · intro s t r n hs haccepted hbackend hiterations hmerge h
    exact isBetween_iff_of_run hs haccepted hbackend hiterations hmerge h
  · intro q first adjacent events s a hconfigured hname hiterations hmerge h
    obtain ⟨events', s', n, t, hconfigured', hrun, hassignment, hx⟩ := minimise_eq_ok h
    obtain ⟨-, heq⟩ := Prod.mk.inj (hconfigured.symm.trans hconfigured')
    obtain rfl := Except.ok.inj heq
    obtain ⟨hs, haccepted, hmerge', hiterations', hbackend⟩ := configure?_eq_ok hconfigured
    rw [hname] at hbackend
    have hsplitting : s.inner.backend = .splitting := (Option.some.inj hbackend).symm
    rw [hassignment, hx]
    exact isBetween_iff_of_run hs haccepted hsplitting (hiterations' ▸ hiterations)
      (hmerge'.trans hmerge) hrun

/-- Two vertices with the given observations, weight of their edge and bounds. -/
def pair (observation : Array ℚ) (weight : ℚ) (lower upper : Array ℚ) : Request ℚ where
  observation := some (.ofArray observation)
  edgeWeights := some (.ofScalar weight)
  matrix := none
  targetWeights := some (.ofScalar 0)
  targets := none
  lower := some (.ofArray lower)
  upper := some (.ofArray upper)
  noLower := 0
  noUpper := 0
  representation := none
  tolerance := 1 / 10000
  maxRounds := 10
  relaxation := 1
  conditioning := 1 / 1000
  reconditioning := 0
  innerTolerance := none
  innerIterations := 1
  backend := "pfdr"
  mergeTolerance := 0
  verbose := false
  recording := ⟨false, false⟩

/-- Observations far from each other are brought between bounds that leave room. -/
theorem isBetween_of_minimise_pair :
    ∃ events s a, (pair #[0, 10] 1 #[0, 0] #[8, 8]).configure? #[0, 1, 1] #[1] = (events, .ok s) ∧
      ((pair #[0, 10] 1 #[0, 0] #[8, 8]).minimise #[0, 1, 1] #[1]).2 = .ok a ∧
      a.assignment = #[0, 1] ∧ a.x = #[0, 8] ∧
      ∀ v < s.vertexCount, IsBetween (s.problem.lowerAt v) (s.problem.upperAt v)
        (Vec.entry a.x (a.assignment.getD v 0)) := by
  obtain ⟨a, ha, hanswer⟩ := eq_ok_of_toOption
    (x := ((pair #[0, 10] 1 #[0, 0] #[8, 8]).minimise #[0, 1, 1] #[1]).2)
    (f := fun a => (a.assignment, a.x)) (c := (#[0, 1], #[0, 8])) (by decide +kernel)
  obtain ⟨s, hs, hbounds⟩ := eq_ok_of_toOption
    (x := ((pair #[0, 10] 1 #[0, 0] #[8, 8]).configure? #[0, 1, 1] #[1]).2)
    (f := fun s => (s.vertexCount, s.problem.lower, s.problem.upper))
    (c := (2, #[some 0, some 0], #[some 8, some 8])) (by decide +kernel)
  obtain ⟨hassignment, hx⟩ := Prod.mk.inj hanswer
  obtain ⟨hcount, hbounds⟩ := Prod.mk.inj hbounds
  obtain ⟨hlower, hupper⟩ := Prod.mk.inj hbounds
  have hconfigured : (pair #[0, 10] 1 #[0, 0] #[8, 8]).configure? #[0, 1, 1] #[1] = (_, .ok s) :=
    Prod.ext rfl hs
  refine ⟨_, s, a, hconfigured, ha, hassignment, hx, ?_⟩
  apply (isBetween_iff_of_minimise.2 hconfigured rfl (by decide) rfl ha).mpr
  rw [hcount, hassignment]
  intro u hu v hv hregion l b hl hb
  rw [Problem.lowerAt, hlower] at hl
  rw [Problem.upperAt, hupper] at hb
  interval_cases u <;> interval_cases v <;> simp at hl hb <;> subst hl hb <;> norm_num

/-- Two vertices that a heavy edge holds together, the first with bounds zero and one, the second
with bounds five and ten: both get the value one, below the lower bound of the second. -/
theorem not_isBetween_of_minimise_pair :
    ∃ events s a, (pair #[0, 0] 100 #[0, 5] #[1, 10]).configure? #[0, 1, 1] #[1] =
        (events, .ok s) ∧
      ((pair #[0, 0] 100 #[0, 5] #[1, 10]).minimise #[0, 1, 1] #[1]).2 = .ok a ∧
      a.assignment = #[0, 0] ∧ a.x = #[1] ∧
      ¬∀ v < s.vertexCount, IsBetween (s.problem.lowerAt v) (s.problem.upperAt v)
        (Vec.entry a.x (a.assignment.getD v 0)) := by
  obtain ⟨a, ha, hanswer⟩ := eq_ok_of_toOption
    (x := ((pair #[0, 0] 100 #[0, 5] #[1, 10]).minimise #[0, 1, 1] #[1]).2)
    (f := fun a => (a.assignment, a.x)) (c := (#[0, 0], #[1])) (by decide +kernel)
  obtain ⟨s, hs, hbounds⟩ := eq_ok_of_toOption
    (x := ((pair #[0, 0] 100 #[0, 5] #[1, 10]).configure? #[0, 1, 1] #[1]).2)
    (f := fun s => (s.vertexCount, s.problem.lower)) (c := (2, #[some 0, some 5]))
    (by decide +kernel)
  obtain ⟨hassignment, hx⟩ := Prod.mk.inj hanswer
  obtain ⟨hcount, hlower⟩ := Prod.mk.inj hbounds
  refine ⟨_, s, a, Prod.ext rfl hs, ha, hassignment, hx, fun hbetween => ?_⟩
  have hsecond := (hbetween 1 (hcount ▸ Nat.one_lt_two)).1 5 (by rw [Problem.lowerAt, hlower]; rfl)
  rw [hassignment, hx] at hsecond
  exact absurd hsecond (by decide +kernel)

end TotalVariation.Request
