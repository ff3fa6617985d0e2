import Mathlib
import TotalVariation.Proofs.Solver.Rounds

/-! # Two runs in lockstep

Two solvers that describe one problem in two ways make the same run, step by step. Steps are alike
if both answer, with related answers and leaving related solvers, or both fail for the same reason.
Two runs are alike if their steps are, from one head of the loop to the next.
-/

namespace TotalVariation

variable {α β γ δ ε : Type}

namespace Step

/-- The step fails for the given reason. -/
def Fails (step : Step α β) (s : Solver α) (e : Failure α) : Prop := (step.run s).1 = .error e

/-- A sequence of two steps fails if one of them does. -/
theorem fails_bind {step : Step α β} {next : β → Step α γ} {s : Solver α} {e : Failure α} :
    Fails (step >>= next) s e ↔
      Fails step s e ∨ ∃ b t, step.Answers s b t ∧ Fails (next b) t e := by
  change (ExceptT.bindCont next (ExceptT.run step s).1 (ExceptT.run step s).2).1 = _ ↔
    (ExceptT.run step s).1 = _ ∨ ∃ b t, ExceptT.run step s = _ ∧ _
  obtain ⟨outcome, s'⟩ := ExceptT.run step s
  cases outcome with
  | ok b =>
      constructor
      · exact fun h => .inr ⟨b, s', rfl, h⟩
      · rintro (h | ⟨b', t', heq, h⟩)
        · cases h
        · cases heq
          exact h
  | error e' =>
      constructor
      · intro h
        exact .inl (congrArg Except.error (Except.error.inj h))
      · rintro (h | ⟨b', t', heq, -⟩)
        · exact congrArg Except.error (Except.error.inj h)
        · cases heq

/-- Both steps answer, with answers related by `V`, and leave solvers related by `R`, or both fail
for the same reason. -/
inductive Alike (V : β → γ → Prop) (R : Solver α → Solver α → Prop) (step : Step α β) (s : Solver α)
    (step' : Step α γ) (s' : Solver α) : Prop
  | answers {b : β} {c : γ} {t t' : Solver α} (h : step.Answers s b t) (h' : step'.Answers s' c t')
      (hvalue : V b c) (hleft : R t t')
  | fails {e : Failure α} (h : step.Fails s e) (h' : step'.Fails s' e)

namespace Alike

variable {V : β → γ → Prop} {W : δ → ε → Prop} {R Q : Solver α → Solver α → Prop}
  {step : Step α β} {step' : Step α γ} {s s' : Solver α}

theorem of_pure {b : β} {c : γ} (hvalue : V b c) (hleft : R s s') :
    Alike V R (pure b) s (pure c) s' :=
  .answers (answers_pure.mpr ⟨rfl, rfl⟩) (answers_pure.mpr ⟨rfl, rfl⟩) hvalue hleft

theorem of_throw (e : Failure α) : Alike V R (throw e) s (throw e) s' := .fails rfl rfl

/-- What is related may be weakened. -/
theorem imp {V' : β → γ → Prop} {R' : Solver α → Solver α → Prop} (h : Alike V R step s step' s')
    (hvalue : ∀ b c, V b c → V' b c) (hleft : ∀ t t', R t t' → R' t t') :
    Alike V' R' step s step' s' := by
  cases h with
  | answers h h' hv hl => exact .answers h h' (hvalue _ _ hv) (hleft _ _ hl)
  | fails h h' => exact .fails h h'

/-- Sequences of two steps are alike if the first steps are, and the second ones where the first
ones answer. -/
theorem bind {next : β → Step α δ} {next' : γ → Step α ε} (h : Alike V R step s step' s')
    (hnext : ∀ b c t t', step.Answers s b t → step'.Answers s' c t' → V b c → R t t' →
      Alike W Q (next b) t (next' c) t') : Alike W Q (step >>= next) s (step' >>= next') s' := by
  cases h with
  | @answers b c t t' h h' hv hl =>
      cases hnext b c t t' h h' hv hl with
      | answers hn hn' hw hq =>
          exact .answers (answers_bind.mpr ⟨b, t, h, hn⟩) (answers_bind.mpr ⟨c, t', h', hn'⟩) hw hq
      | fails hn hn' =>
          exact .fails (fails_bind.mpr (.inr ⟨b, t, h, hn⟩)) (fails_bind.mpr (.inr ⟨c, t', h', hn'⟩))
  | fails h h' => exact .fails (fails_bind.mpr (.inl h)) (fails_bind.mpr (.inl h'))

theorem get_bind {next : Solver α → Step α δ} {next' : Solver α → Step α ε}
    (h : Alike W Q (next s) s (next' s') s') : Alike W Q (get >>= next) s (get >>= next') s' := by
  refine bind (V := fun b c => b = s ∧ c = s') (R := fun t t' => t = s ∧ t' = s')
    (.answers (answers_get.mpr ⟨rfl, rfl⟩) (answers_get.mpr ⟨rfl, rfl⟩) ⟨rfl, rfl⟩ ⟨rfl, rfl⟩) ?_
  rintro _ _ _ _ - - ⟨rfl, rfl⟩ ⟨rfl, rfl⟩
  exact h

theorem modify_bind {f f' : Solver α → Solver α} {next : Unit → Step α δ} {next' : Unit → Step α ε}
    (h : Alike W Q (next ()) (f s) (next' ()) (f' s')) :
    Alike W Q (modify f >>= next) s (modify f' >>= next') s' := by
  refine bind (V := fun _ _ => True) (R := fun t t' => t = f s ∧ t' = f' s')
    (.answers (b := ()) (c := ()) (answers_modify.mpr rfl) (answers_modify.mpr rfl) trivial
      ⟨rfl, rfl⟩) ?_
  rintro _ _ _ _ - - - ⟨rfl, rfl⟩
  exact h

theorem of_modify {f f' : Solver α → Solver α} {V : Unit → Unit → Prop} (hvalue : V () ())
    (h : Q (f s) (f' s')) : Alike V Q (modify f) s (modify f') s' :=
  .answers (answers_modify.mpr rfl) (answers_modify.mpr rfl) hvalue h

/-- One computation that does not touch the solver goes before both. -/
theorem lift_bind {x : Except (Failure α) β} {next : β → Step α δ} {next' : β → Step α ε}
    (h : ∀ b, x = .ok b → Alike W Q (next b) s (next' b) s') :
    Alike W Q (liftM x >>= next) s (liftM x >>= next') s' := by
  cases x with
  | ok b =>
      refine bind (V := fun c d => c = b ∧ d = b) (R := fun t t' => t = s ∧ t' = s')
        (.answers (answers_lift.mpr ⟨rfl, rfl⟩) (answers_lift.mpr ⟨rfl, rfl⟩) ⟨rfl, rfl⟩
          ⟨rfl, rfl⟩) ?_
      rintro _ _ _ _ - - ⟨rfl, rfl⟩ ⟨rfl, rfl⟩
      exact h _ rfl
  | error e => exact .fails (fails_bind.mpr (.inl rfl)) (fails_bind.mpr (.inl rfl))

/-- Computations with the same outcome go before them. -/
theorem lift_bind_eq {x y : Except (Failure α) β} {next : β → Step α δ} {next' : β → Step α ε}
    (heq : y = x) (h : ∀ b, x = .ok b → Alike W Q (next b) s (next' b) s') :
    Alike W Q (liftM x >>= next) s (liftM y >>= next') s' := by
  subst heq
  exact lift_bind h

/-- Computations that both have a value go before them. -/
theorem lift_bind_ok {x : Except (Failure α) β} {y : Except (Failure α) γ} {b : β} {c : γ}
    {next : β → Step α δ} {next' : γ → Step α ε} (hx : x = .ok b) (hy : y = .ok c)
    (h : Alike W Q (next b) s (next' c) s') :
    Alike W Q (liftM x >>= next) s (liftM y >>= next') s' := by
  subst hx hy
  exact h

/-- Steps do alike what they do. -/
theorem congr {first : Step α β} {first' : Step α γ} (hrun : first.run s = step.run s)
    (hrun' : first'.run s' = step'.run s') (h : Alike V R step s step' s') :
    Alike V R first s first' s' := by
  cases h with
  | answers h h' hv hl => exact .answers (hrun.trans h) (hrun'.trans h') hv hl
  | fails h h' => exact .fails ((congrArg Prod.fst hrun).trans h) ((congrArg Prod.fst hrun').trans h')

/-- A test that may fail stands before both. -/
theorem test {c : Prop} [Decidable c] {e : Failure α} {failed : β → Step α δ}
    {failed' : γ → Step α ε} {next : Step α δ} {next' : Step α ε}
    (h : ¬c → Alike W Q next s next' s') :
    Alike W Q (if c then throw e >>= failed else next) s
      (if c then throw e >>= failed' else next') s' := by
  split
  next => exact .fails rfl rfl
  next hc => exact h hc

/-- A step is like itself. -/
theorem refl (step : Step α β) (s : Solver α) : Alike (· = ·) (· = ·) step s step s := by
  cases hrun : (step.run s).1 with
  | ok b => exact .answers (Prod.ext hrun rfl) (Prod.ext hrun rfl) rfl rfl
  | error e => exact .fails hrun hrun

/-- Alike steps are alike the other way round. -/
theorem symm (h : Alike V R step s step' s') :
    Alike (fun c b => V b c) (fun t' t => R t t') step' s' step s := by
  cases h with
  | answers h h' hvalue hleft => exact .answers h' h hvalue hleft
  | fails h h' => exact .fails h' h

/-- Alike steps answer together. -/
theorem exists_answers (h : Alike V R step s step' s') {b : β} {t : Solver α}
    (hanswers : step.Answers s b t) : ∃ c t', step'.Answers s' c t' ∧ V b c ∧ R t t' := by
  cases h with
  | @answers b' c t₁ t' h h' hv hl =>
      obtain ⟨hb, ht⟩ := Prod.mk.inj (hanswers.symm.trans h)
      obtain rfl := Except.ok.inj hb
      obtain rfl := ht
      exact ⟨c, t', h', hv, hl⟩
  | fails h h' =>
      unfold Fails at h
      rw [hanswers] at h
      cases h

/-- What is alike to the same is alike. -/
theorem trans {T : Solver α → Solver α → Prop} {step'' : Step α δ} {s'' : Solver α}
    {V' : γ → δ → Prop} {V'' : β → δ → Prop} (h : Alike V R step s step' s')
    (h' : Alike V' Q step' s' step'' s'') (hvalue : ∀ b c d, V b c → V' c d → V'' b d)
    (hleft : ∀ t t' t'', R t t' → Q t' t'' → T t t'') : Alike V'' T step s step'' s'' := by
  cases h with
  | answers h₁ h₂ hv hl =>
      obtain ⟨d, t'', h₃, hv', hl'⟩ := h'.exists_answers h₂
      exact .answers h₁ h₃ (hvalue _ _ _ hv hv') (hleft _ _ _ hl hl')
  | fails h₁ h₂ =>
      cases h' with
      | answers h₃ =>
          unfold Fails at h₂
          rw [h₃] at h₂
          cases h₂
      | fails h₃ h₄ =>
          obtain rfl := Except.error.inj (h₂.symm.trans h₃)
          exact .fails h₁ h₄

end Alike
end Step

namespace Solver

open Step

variable [Scalar α] {k : Steps α} {r : Recording} {s s' : Solver α}
  {Head Cut : Solver α → Solver α → Prop}

/-! ## Best constants -/

/-- Best constants are alike if the same value is thresholded, between the same bounds. -/
theorem constantSolution_alike_of_eq {t t' : Solver α}
    (hvalue : thresholded? t'.quadratic.constantPart.1 t'.quadratic.constantPart.2.1
        (t'.totalTargetWeight?.getD 0) t'.wholeMedian.1 =
      thresholded? t.quadratic.constantPart.1 t.quadratic.constantPart.2.1
        (t.totalTargetWeight?.getD 0) t.wholeMedian.1)
    (hlower : t'.largestLower = t.largestLower) (hupper : t'.smallestUpper = t.smallestUpper)
    (hleft : ∀ c, Head
      { t.wholeMedian.2 with
        residual := constantResidual t.quadratic c t.wholeMedian.2.residual }
      { t'.wholeMedian.2 with
        residual := constantResidual t'.quadratic c t'.wholeMedian.2.residual }) :
    Alike (· = ·) Head constantSolution t constantSolution t' := by
  have hrun := constantSolution_run t
  have hrun' := constantSolution_run t'
  rw [hlower, hupper, hvalue] at hrun'
  unfold storedConstant at hrun hrun'
  cases heq : thresholded? t.quadratic.constantPart.1 t.quadratic.constantPart.2.1
      (t.totalTargetWeight?.getD 0) t.wholeMedian.1 with
  | ok value =>
      rw [heq] at hrun hrun'
      exact .answers hrun hrun' rfl (hleft _)
  | error e =>
      rw [heq] at hrun hrun'
      exact .fails (congrArg Prod.fst hrun) (congrArg Prod.fst hrun')

/-! ## Rounds -/

/-- Objectives are alike if they are the same. -/
theorem objective_alike_of_eq {solve : InnerMethod α} {t t' : Solver α}
    (heq : t'.objective? = t.objective?) (h : Head t t') :
    Alike (· = ·) Head (steps solve).objective t (steps solve).objective t' := by
  refine .get_bind ?_
  rw [heq]
  cases t.objective? with
  | ok b => exact .answers (answers_lift.mpr ⟨rfl, rfl⟩) (answers_lift.mpr ⟨rfl, rfl⟩) rfl h
  | error e => exact .fails rfl rfl

section Records

variable {t t' : Solver α} (hrecord : ∀ {t t' : Solver α} (f : History α → History α), Head t t' →
  Head { t with history := f t.history } { t' with history := f t'.history })

include hrecord

omit [Scalar α] in
theorem record_alike (f : History α → History α) (h : Head t t') :
    Alike (· = ·) Head (record f) t (record f) t' := .of_modify rfl (hrecord f h)

omit [Scalar α] in
/-- Records are alike if the objectives are. -/
theorem recordRound_alike (hobjective : Alike (· = ·) Head k.objective t k.objective t')
    (h : Head t t') : Alike (· = ·) Head (recordRound k r) t (recordRound k r) t' := by
  have htimes : ∀ {u u' : Solver α}, Head u u' → Alike (· = ·) Head
      (do if r.times then record fun h => { h with times := h.times + 1 }) u
      (do if r.times then record fun h => { h with times := h.times + 1 }) u' := by
    intro u u' hu
    split
    next => exact record_alike hrecord _ hu
    next => exact .of_pure rfl hu
  unfold recordRound
  cases r.objectives with
  | false =>
      rw [if_neg Bool.false_ne_true]
      exact htimes h
  | true =>
      rw [if_pos rfl]
      refine .bind hobjective ?_
      rintro b _ u u' - - rfl hu
      exact .bind (record_alike hrecord _ hu) fun _ _ _ _ _ _ _ hrecorded => htimes hrecorded

/-- What follows a split is alike if the solutions over the rebuilt regions, the mergers, the
comparisons and the records are. -/
theorem finishRound_alike {Solved Merged : Solver α → Solver α → Prop} {number activated : Nat}
    (hsolution : Alike (· = ·) Solved
      k.reducedSolution { t with partition := t.partition.rebuild.reduceGraph }
      k.reducedSolution { t' with partition := t'.partition.rebuild.reduceGraph })
    (hmerge : ∀ {u u'}, k.reducedSolution.Answers
        { t with partition := t.partition.rebuild.reduceGraph } () u →
      k.reducedSolution.Answers { t' with partition := t'.partition.rebuild.reduceGraph } () u' →
      Solved u u' → Alike (· = ·) Merged (merge k) u (merge k) u')
    (hevolution : ∀ {m u u' v v'}, k.reducedSolution.Answers
        { t with partition := t.partition.rebuild.reduceGraph } () u →
      k.reducedSolution.Answers { t' with partition := t'.partition.rebuild.reduceGraph } () u' →
      (merge k).Answers u m v → (merge k).Answers u' m v' → Merged v v' →
      Alike (· = ·) Head (k.evolution >>= fun change => recordRound k r >>= fun _ => pure change) v
        (k.evolution >>= fun change => recordRound k r >>= fun _ => pure change) v')
    (hverbose : ∀ {u u'}, Head u u' → u'.verbose = u.verbose ∧ u'.maxRounds = u.maxRounds ∧
      u'.partition.regionCount = u.partition.regionCount ∧
      u'.partition.reducedEdgeCount = u.partition.reducedEdgeCount) :
    Alike (· = ·) Head (finishRound k r number activated) t (finishRound k r number activated)
      t' := by
  unfold finishRound modifyPartition
  refine .modify_bind (.bind hsolution ?_)
  rintro _ _ u u' hsolved hsolved' - hu
  refine .bind (hmerge hsolved hsolved' hu) ?_
  rintro m _ v v' hmerged hmerged' rfl hv
  have hrest : ∀ step : α → Step α α,
      (k.evolution >>= fun change => recordRound k r >>= fun _ => step change) =
        (k.evolution >>= fun change => recordRound k r >>= fun _ => pure change) >>= step := by
    intro step
    simp only [bind_assoc, pure_bind]
  refine .congr (congrArg (·.run v) (hrest _)) (congrArg (·.run v') (hrest _)) ?_
  refine .bind (hevolution hsolved hsolved' hmerged hmerged' hv) ?_
  rintro change _ w w' - - rfl hw
  refine .bind (record_alike hrecord _ hw) ?_
  rintro _ _ y y' - - - hy
  refine .get_bind ?_
  obtain ⟨hverbose, hrounds, hregions, hedges⟩ := hverbose hy
  rw [hverbose, hrounds, hregions, hedges]
  split
  next =>
    exact .bind (record_alike hrecord _ hy) fun _ _ _ _ _ _ _ hrecorded => .of_pure rfl hrecorded
  next => exact .of_pure rfl hy

end Records

/-! ## Runs -/

/-- The runs of two solvers start alike and go on alike: solvers related by `Head` at a head of the
loop are split alike, and solvers that were split, related by `Cut`, finish the round alike. -/
structure Lockstep (k : Steps α) (r : Recording) (s s' : Solver α)
    (Head Cut : Solver α → Solver α → Prop) : Prop where
  start : Alike (fun _ _ => True) Head (start k >>= fun _ => recordRound k r)
    { s with history := .empty } (start k >>= fun _ => recordRound k r) { s' with history := .empty }
  split : ∀ {left done : Nat} {e : Option α} {t t' : Solver α},
    LoopHead k r s (left + 1) done e t → LoopHead k r s' (left + 1) done e t' → Head t t' →
    (t.monitorsEvolution && hasSettled t.tolerance e) = false →
    Alike (· = ·) Cut (keepIterate >>= fun _ => k.split) t (keepIterate >>= fun _ => k.split) t'
  finish : ∀ {number activated : Nat} {t t' : Solver α}, SplitsTo k r s t → SplitsTo k r s' t' →
    Cut t t' →
    Alike (· = ·) Head (finishRound k r number activated) t (finishRound k r number activated) t'
  maxRounds : ∀ {t t' : Solver α}, Head t t' → t'.maxRounds = t.maxRounds
  tolerance : ∀ {t t' : Solver α}, Head t t' → t'.tolerance = t.tolerance
  monitorsEvolution : ∀ {t t' : Solver α}, Head t t' → t'.monitorsEvolution = t.monitorsEvolution
  record : ∀ {t t' : Solver α} (f : History α → History α), Head t t' →
    Head { t with history := f t.history } { t' with history := f t'.history }

namespace Lockstep

variable (h : Lockstep k r s s' Head Cut)

include h

/-- The rounds from related heads of the loop are as many and end with related solvers. -/
theorem rounds_alike {left done : Nat} {e : Option α} {t t' : Solver α}
    (hhead : LoopHead k r s left done e t) (hhead' : LoopHead k r s' left done e t')
    (hrelated : Head t t') :
    Alike (· = ·) (fun u u' => Head u u' ∨ Cut u u') (rounds k r left done e) t
      (rounds k r left done e) t' := by
  induction left generalizing done e t t' with
  | zero =>
      unfold rounds
      refine .get_bind ?_
      dsimp only
      rw [h.maxRounds hrelated, h.tolerance hrelated, h.monitorsEvolution hrelated]
      split
      next =>
        split
        next change _ =>
          refine .modify_bind (.of_pure rfl (.inl ?_))
          exact h.record (fun history => { history with
            events := history.events ++ [.notSettled t.maxRounds change] }) hrelated
        next => exact .of_pure rfl (.inl hrelated)
      next => exact .of_pure rfl (.inl hrelated)
  | succ left ih =>
      unfold rounds
      refine .get_bind ?_
      rw [h.tolerance hrelated, h.monitorsEvolution hrelated]
      split
      next => exact .of_pure rfl (.inl hrelated)
      next hopen =>
        have hopen := Bool.eq_false_iff.mpr hopen
        have hopen' : (t'.monitorsEvolution && hasSettled t'.tolerance e) = false := by
          rw [h.tolerance hrelated, h.monitorsEvolution hrelated, hopen]
        rw [← bind_assoc]
        refine .bind (h.split hhead hhead' hrelated hopen) ?_
        rintro activated _ u u' hcut hcut' rfl hrelated'
        obtain ⟨_, s₁, hkept, hsplit⟩ := answers_bind.mp hcut
        obtain ⟨_, s₁', hkept', hsplit'⟩ := answers_bind.mp hcut'
        split
        next => exact .of_pure rfl (.inr hrelated')
        next hsome =>
          refine .bind (h.finish (.intro hhead hopen hkept hsplit hsome)
            (.intro hhead' hopen' hkept' hsplit' hsome) hrelated') ?_
          rintro change _ v v' hfinished hfinished' rfl hrelated''
          exact ih (hhead.next hopen hkept hsplit hsome hfinished)
            (hhead'.next hopen' hkept' hsplit' hsome hfinished') hrelated''

/-- The two runs make as many rounds and end with related solvers, or fail for the same reason. -/
theorem run_alike : Alike (· = ·) (fun u u' => Head u u' ∨ Cut u u') (run k true r) s
    (run k true r) s' := by
  unfold run
  refine .modify_bind ?_
  simp only [if_true]
  rw [← bind_assoc]
  refine .bind h.start ?_
  rintro _ _ t t' hbegun hbegun' - hrelated
  obtain ⟨_, s₁, hstarted, hrecorded⟩ := answers_bind.mp hbegun
  obtain ⟨_, s₁', hstarted', hrecorded'⟩ := answers_bind.mp hbegun'
  refine .get_bind ?_
  have hhead : LoopHead k r s t.maxRounds.toNat 0 none t := .first hstarted hrecorded
  have hhead' : LoopHead k r s' t'.maxRounds.toNat 0 none t' := .first hstarted' hrecorded'
  rw [h.maxRounds hrelated] at hhead' ⊢
  exact h.rounds_alike hhead hhead' hrelated

/-- Wherever one of the runs comes in its loop, the other comes in as many rounds to a related
solver. -/
theorem exists_head {left done : Nat} {e : Option α} {t : Solver α}
    (hhead : LoopHead k r s left done e t) : ∃ t', LoopHead k r s' left done e t' ∧ Head t t' := by
  induction hhead with
  | first hstarted hrecorded =>
      obtain ⟨_, t', hbegun', -, hrelated⟩ :=
        h.start.exists_answers (answers_bind.mpr ⟨_, _, hstarted, hrecorded⟩)
      obtain ⟨_, s₁', hstarted', hrecorded'⟩ := answers_bind.mp hbegun'
      have hhead' : LoopHead k r s' t'.maxRounds.toNat 0 none t' := .first hstarted' hrecorded'
      rw [h.maxRounds hrelated] at hhead'
      exact ⟨t', hhead', hrelated⟩
  | next hhead hopen hkept hsplit hsome hfinished ih =>
      obtain ⟨t', hhead', hrelated⟩ := ih
      have hopen' := hopen
      rw [← h.tolerance hrelated, ← h.monitorsEvolution hrelated] at hopen'
      obtain ⟨_, u', hcut', rfl, hrelated'⟩ := (h.split hhead hhead' hrelated hopen).exists_answers
        (answers_bind.mpr ⟨_, _, hkept, hsplit⟩)
      obtain ⟨_, s₁', hkept', hsplit'⟩ := answers_bind.mp hcut'
      obtain ⟨_, v', hfinished', rfl, hrelated''⟩ :=
        (h.finish (.intro hhead hopen hkept hsplit hsome)
          (.intro hhead' hopen' hkept' hsplit' hsome) hrelated').exists_answers hfinished
      exact ⟨v', hhead'.next hopen' hkept' hsplit' hsome hfinished', hrelated''⟩

/-- In lockstep neither of the two runs goes before the other. -/
theorem symm : Lockstep k r s' s (fun t' t => Head t t') (fun t' t => Cut t t') where
  start := h.start.symm
  split := by
    intro left done e t' t hhead' hhead hrelated hopen'
    have hopen := hopen'
    rw [h.tolerance hrelated, h.monitorsEvolution hrelated] at hopen
    exact (h.split hhead hhead' hrelated hopen).symm.imp (fun _ _ => Eq.symm) fun _ _ hcut => hcut
  finish hsplits' hsplits hcut :=
    (h.finish hsplits hsplits' hcut).symm.imp (fun _ _ => Eq.symm) fun _ _ hrelated => hrelated
  maxRounds hrelated := (h.maxRounds hrelated).symm
  tolerance hrelated := (h.tolerance hrelated).symm
  monitorsEvolution hrelated := (h.monitorsEvolution hrelated).symm
  record := h.record

end Lockstep

/-- Two runs with the same outcome that end with related solvers. Where one of them comes in its
loop the other comes too, to a related solver. -/
structure RunsWith (R : Solver α → Solver α → Prop) (k : Steps α) (r : Recording)
    (s s' : Solver α) : Prop where
  run : Alike (· = ·) R (run k true r) s (run k true r) s'
  head : ∀ {left done : Nat} {e : Option α} {t : Solver α},
    LoopHead k r s left done e t → ∃ t', LoopHead k r s' left done e t' ∧ R t t'
  head' : ∀ {left done : Nat} {e : Option α} {t' : Solver α},
    LoopHead k r s' left done e t' → ∃ t, LoopHead k r s left done e t ∧ R t t'

theorem Lockstep.runsWith {R : Solver α → Solver α → Prop} (h : Lockstep k r s s' R R) :
    RunsWith R k r s s' where
  run := h.run_alike.imp (fun _ _ heq => heq) fun _ _ hrelated => hrelated.elim id id
  head := h.exists_head
  head' := h.symm.exists_head

end Solver
end TotalVariation
