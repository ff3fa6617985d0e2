import Mathlib
import TotalVariation.Solver.Minimise

/-! # What the steps of a solver do

A step that does not fail answers and leaves a solver. A sequence of steps answers if all of them
do, each in the solver that the one before it left.
-/

namespace TotalVariation

variable {α β γ : Type}

/-- The step answers `b` and leaves the solver as `t`. -/
def Step.Answers (step : Step α β) (s : Solver α) (b : β) (t : Solver α) : Prop :=
  step.run s = (.ok b, t)

namespace Step

variable {s t : Solver α} {b c : β}

/-- Whether a step answers can be computed. -/
theorem answers_of_toOption {step : Step α β} (h : (step.run s).1.toOption = some b) :
    Answers step s b (step.run s).2 := by
  refine Prod.ext ?_ rfl
  cases hout : (step.run s).1 with
  | error e =>
      rw [hout] at h
      cases h
  | ok c =>
      rw [hout] at h
      exact congrArg Except.ok (Option.some.inj h)

/-- A step leaves one solver. -/
theorem eq_of_answers {step : Step α β} (h : Answers step s b t) : t = (step.run s).2 :=
  (congrArg Prod.snd h).symm

@[simp] theorem answers_pure : Answers (pure b) s c t ↔ c = b ∧ t = s := by
  constructor
  · intro h
    obtain ⟨hout, hleft⟩ := Prod.mk.inj h
    exact ⟨(Except.ok.inj hout).symm, hleft.symm⟩
  · rintro ⟨rfl, rfl⟩
    rfl

/-- A sequence of two steps answers if both do. -/
@[simp] theorem answers_bind {step : Step α β} {next : β → Step α γ} {c : γ} :
    Answers (step >>= next) s c t ↔ ∃ b s', Answers step s b s' ∧ Answers (next b) s' c t := by
  change ExceptT.bindCont next (ExceptT.run step s).1 (ExceptT.run step s).2 = _ ↔
    ∃ b s', ExceptT.run step s = _ ∧ _
  obtain ⟨outcome, s'⟩ := ExceptT.run step s
  cases outcome with
  | ok b =>
      constructor
      · exact fun h => ⟨b, s', rfl, h⟩
      · rintro ⟨b', t', heq, h⟩
        cases heq
        exact h
  | error e =>
      constructor
      · intro h
        cases h
      · rintro ⟨b', t', heq, -⟩
        cases heq

/-- What a sequence of two steps does depends on the first where it begins, and on the second where
the first answers. -/
theorem run_bind_congr {first first' : Step α β} {next next' : β → Step α γ}
    (hfirst : first'.run s = first.run s)
    (hnext : ∀ b t, Answers first s b t → (next' b).run t = (next b).run t) :
    (first' >>= next').run s = (first >>= next).run s := by
  change ExceptT.bindCont next' (first'.run s).1 (first'.run s).2 =
    ExceptT.bindCont next (first.run s).1 (first.run s).2
  rw [hfirst]
  cases hout : (first.run s).1 with
  | ok b => exact hnext b _ (Prod.ext hout rfl)
  | error e => rfl

@[simp] theorem answers_get {u : Solver α} :
    Answers (get : Step α (Solver α)) s u t ↔ u = s ∧ t = s := by
  constructor
  · intro h
    obtain ⟨hout, hleft⟩ := Prod.mk.inj h
    exact ⟨(Except.ok.inj hout).symm, hleft.symm⟩
  · rintro ⟨rfl, rfl⟩
    rfl

@[simp] theorem answers_modify {f : Solver α → Solver α} {u : Unit} :
    Answers (modify f : Step α Unit) s u t ↔ t = f s := by
  constructor
  · intro h
    exact (Prod.mk.inj h).2.symm
  · rintro rfl
    rfl

@[simp] theorem not_answers_throw {e : Failure α} : ¬Answers (throw e : Step α β) s b t := by
  intro h
  cases (Prod.mk.inj h).1

/-- A computation that does not touch the solver answers what it computes. -/
@[simp] theorem answers_lift {x : Except (Failure α) β} :
    Answers (liftM x : Step α β) s b t ↔ x = .ok b ∧ t = s := by
  constructor
  · intro h
    obtain ⟨hout, hleft⟩ := Prod.mk.inj h
    exact ⟨hout, hleft.symm⟩
  · rintro ⟨rfl, rfl⟩
    rfl

theorem run_get_bind (next : Solver α → Step α γ) : (get >>= next).run s = (next s).run s := rfl

theorem run_modify_bind (f : Solver α → Solver α) (next : Unit → Step α γ) :
    (modify f >>= next).run s = (next ()).run (f s) := rfl

theorem answers_get_bind {next : Solver α → Step α γ} {c : γ} :
    Answers (get >>= next) s c t ↔ Answers (next s) s c t := by
  simp

theorem answers_modify_bind {f : Solver α → Solver α} {next : Unit → Step α γ} {c : γ} :
    Answers (modify f >>= next) s c t ↔ Answers (next ()) (f s) c t := by
  rw [answers_bind]
  constructor
  · rintro ⟨_, _, hf, h⟩
    rwa [answers_modify.mp hf] at h
  · exact fun h => ⟨(), f s, answers_modify.mpr rfl, h⟩

theorem answers_lift_bind {x : Except (Failure α) β} {next : β → Step α γ} {c : γ} :
    Answers (liftM x >>= next) s c t ↔ ∃ b, x = .ok b ∧ Answers (next b) s c t := by
  simp

/-- A test that may fail stands before what follows. -/
theorem answers_test {c : Prop} [Decidable c] {e : Failure α} {failed : β → Step α γ}
    {next : Step α γ} {d : γ} :
    Answers (if c then throw e >>= failed else next) s d t ↔ ¬c ∧ Answers next s d t := by
  by_cases hc : c
  · simp [hc]
  · simp [hc]

end Step

end TotalVariation
