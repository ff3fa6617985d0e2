import Mathlib
import TotalVariation.Proofs.Solver.Evolution
import TotalVariation.Proofs.Solver.Lockstep

/-! # Settings that most steps do not read

Keeping the iterate, merging and comparing read neither the quadratic term nor the weights of the
targets. Two solvers that differ in these alone make the same run as soon as the steps that read
them, the solutions, the splits and the objectives, are alike where the run makes them.
-/

namespace TotalVariation.Solver

open Step

variable {α : Type}

/-- Related solvers differ in the quadratic term and the weights of the targets alone, and stay
related when the state of a run changes in both. -/
structure IsRetuning (R : Solver α → Solver α → Prop) : Prop where
  exists_eq {t t' : Solver α} (h : R t t') :
    ∃ q w, t' = { t with quadratic := q, targetWeights := w }
  update {t t' : Solver α} (P : Partition α) (residual x lastX : Option (Vec α))
    (history : History α) (h : R t t') :
    R { t with partition := P, residual := residual, x := x, lastX := lastX, history := history }
      { t' with partition := P, residual := residual, x := x, lastX := lastX, history := history }

namespace IsRetuning

variable [Scalar α] {R : Solver α → Solver α → Prop} {s s' t t' : Solver α} {r : Recording}
  {solve : InnerMethod α} (hR : IsRetuning R)

include hR

omit [Scalar α] in
theorem record (f : History α → History α) (h : R t t') :
    R { t with history := f t.history } { t' with history := f t'.history } := by
  obtain ⟨q, w, rfl⟩ := hR.exists_eq h
  exact hR.update t.partition t.residual t.x t.lastX (f t.history) h

omit [Scalar α] in
theorem keepIterate (h : R t t') : Alike (· = ·) R keepIterate t keepIterate t' := by
  obtain ⟨q, w, rfl⟩ := hR.exists_eq h
  unfold Solver.keepIterate
  refine .get_bind (.lift_bind fun x _ => .of_modify rfl ?_)
  exact hR.update t.partition.saveAssignment t.residual t.x (some x) t.history h

theorem evolution (h : R t t') : Alike (· = ·) R evolution t evolution t' := by
  have hmarked : ∀ P, R { t with partition := P } { t' with partition := P } := by
    obtain ⟨q, w, rfl⟩ := hR.exists_eq h
    exact fun P => hR.update P t.residual t.x t.lastX t.history h
  obtain ⟨q, w, rfl⟩ := hR.exists_eq h
  unfold Solver.evolution modifyPartition
  refine .get_bind (.lift_bind fun lastX _ => ?_)
  dsimp only
  split
  next assignment _ =>
    refine .lift_bind fun last _ => .lift_bind fun x _ => .test fun _ => .test fun _ => ?_
    exact .modify_bind (.lift_bind fun _ _ => .lift_bind fun _ _ => .of_pure rfl (hmarked _))
  next =>
    refine .test fun _ => ?_
    rw [pure_bind]
    refine .lift_bind fun x _ => .test fun _ => .test fun _ => ?_
    exact .modify_bind (.lift_bind fun _ _ => .lift_bind fun _ _ => .of_pure rfl (hmarked _))

/-- Mergers are alike if what follows them is. -/
theorem merge {k : Steps α}
    (hmerged : ∀ {u u' : Solver α}, R u u' → Alike (fun _ _ => True) R k.merged u k.merged u')
    (h : R t t') : Alike (· = ·) R (merge k) t (merge k) t' := by
  have hstored : ∀ P, R { t with partition := P } { t' with partition := P } ∧
      ∀ x, R { t with partition := P, x := x } { t' with partition := P, x := x } := by
    obtain ⟨q, w, rfl⟩ := hR.exists_eq h
    exact fun P => ⟨hR.update P t.residual t.x t.lastX t.history h,
      fun x => hR.update P t.residual x t.lastX t.history h⟩
  obtain ⟨q, w, rfl⟩ := hR.exists_eq h
  unfold Solver.merge
  refine .get_bind ?_
  dsimp only
  split
  next =>
    split
    next => exact .of_pure rfl h
    next => exact .of_throw _
  next x _ =>
    refine .modify_bind (.lift_bind fun outcome _ => .modify_bind ?_)
    split
    next => exact .bind (hmerged ((hstored _).2 _)) fun _ _ _ _ _ _ _ hleft => .of_pure rfl hleft
    next => exact .of_pure rfl ((hstored _).2 _)

/-- Solvers that differ in these settings make the same run if the steps that read them are alike
where the run makes them. -/
theorem lockstep (h : R s s')
    (hconstant : ∀ {t t'}, t = { s with
        history := .empty, lastX := none, partition := components s.partition } →
      (components s.partition).regionCount = 1 → R t t' →
      Alike (· = ·) R constantSolution t constantSolution t')
    (hsolution : ∀ {t t'}, SolvesAt (steps solve) r s t → R t t' →
      Alike (· = ·) R (reducedSolution solve) t (reducedSolution solve) t')
    (hsplit : ∀ {t t'}, SplitsAt (steps solve) r s t → R t t' → Alike (· = ·) R split t split t')
    (hmerged : ∀ {t t'}, R t t' → Alike (fun _ _ => True) R renewResidual t renewResidual t')
    (hobjective : ∀ {t t'}, RecordsAt (steps solve) r s t → R t t' →
      t'.objective? = t.objective?) :
    Lockstep (steps solve) r s s' R R where
  start := by
    have hbegun := hR.update (components s.partition) s.residual s.x none .empty h
    obtain ⟨q, w, rfl⟩ := hR.exists_eq h
    refine .bind (V := fun _ _ => True) (R := R) ?_ ?_
    · unfold start
      refine .modify_bind (.get_bind ?_)
      dsimp only
      split
      next hone =>
        refine .bind (hconstant rfl hone hbegun) ?_
        rintro c _ u u' - - rfl hu
        refine .of_modify trivial ?_
        obtain ⟨q, w, rfl⟩ := hR.exists_eq hu
        exact hR.update u.partition u.residual (some #[c]) u.lastX u.history hu
      next hmany =>
        exact (hsolution (.start hmany) hbegun).imp (fun _ _ _ => trivial) fun _ _ hleft => hleft
    · rintro _ _ u u' hstarted - - hu
      exact (recordRound_alike hR.record
        (objective_alike_of_eq (hobjective (.start hstarted) hu) hu) hu).imp
        (fun _ _ _ => trivial) fun _ _ hleft => hleft
  split := by
    rintro left done e t t' hhead - hrelated hopen
    refine .bind (hR.keepIterate hrelated) ?_
    rintro _ _ u u' hkept - - hu
    exact hsplit (.intro hhead hopen hkept) hu
  finish := by
    rintro number activated t t' hsplits - hrelated
    have hrebuilt : R { t with partition := t.partition.rebuild.reduceGraph }
        { t' with partition := t'.partition.rebuild.reduceGraph } := by
      obtain ⟨q, w, rfl⟩ := hR.exists_eq hrelated
      exact hR.update t.partition.rebuild.reduceGraph t.residual t.x t.lastX t.history hrelated
    refine finishRound_alike hR.record (hsolution (.round hsplits) hrebuilt)
      (fun _ _ hu => hR.merge hmerged hu) ?_ ?_
    · rintro m u u' v v' hsolved - hmerger - hv
      refine .bind (hR.evolution hv) ?_
      rintro change _ w w' hchange - rfl hw
      have hrecords : RecordsAt (steps solve) r s w :=
        .round (.intro hsplits hsolved hmerger) hchange
      exact .bind (recordRound_alike hR.record
        (objective_alike_of_eq (hobjective hrecords hw) hw) hw)
        fun _ _ _ _ _ _ _ hleft => .of_pure rfl hleft
    · intro u u' hu
      obtain ⟨q, w, rfl⟩ := hR.exists_eq hu
      exact ⟨rfl, rfl, rfl, rfl⟩
  maxRounds hu := by
    obtain ⟨q, w, rfl⟩ := hR.exists_eq hu
    rfl
  tolerance hu := by
    obtain ⟨q, w, rfl⟩ := hR.exists_eq hu
    rfl
  monitorsEvolution hu := by
    obtain ⟨q, w, rfl⟩ := hR.exists_eq hu
    rfl
  record := hR.record

end IsRetuning
end TotalVariation.Solver
