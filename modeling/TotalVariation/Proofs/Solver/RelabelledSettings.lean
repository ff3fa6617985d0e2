import Mathlib
import TotalVariation.Proofs.Quadratic.RenamedData
import TotalVariation.Proofs.Solver.Configure
import TotalVariation.Proofs.Solver.Relabelling

/-! # Settings under another description

Two arguments say the same under other names of the places if they hold the same numbers, one for
each place or one for all of them. Solvers that describe one problem still do after a setting with
such arguments that both accept.
-/

namespace TotalVariation

open TotalVariation.Partition

variable {π σ : Equiv.Perm ℕ} {flip : ℕ → Bool}

/-! ## Arguments -/

namespace Tensor

variable {β : Type} {t t' : Tensor β}

/-- Each of two arguments has a number for each place, the second under new names. -/
structure RenamesEach (π : Equiv.Perm ℕ) (t t' : Tensor β) : Prop where
  rank_ne_zero : t.rank ≠ 0
  rank_ne_zero' : t'.rank ≠ 0
  entries : TotalVariation.Renames π t.entries t'.entries

/-- Each of two arguments has a number for each place, the second under new names, or both have the
same number for all places. -/
inductive Renames (π : Equiv.Perm ℕ) (t t' : Tensor β) : Prop
  | each (h : t.RenamesEach π t')
  | single {a : β} (h : t.scalar? = some a) (h' : t'.scalar? = some a)

theorem scalar?_eq_none (h : t.rank ≠ 0) : t.scalar? = none := by
  have hshape : ¬t.shape.isEmpty = true := fun hempty =>
    h (congrArg List.length (List.isEmpty_iff.mp hempty))
  rw [scalar?, if_neg hshape]

end Tensor

section Arguments

variable {α β : Type} {t t' : Option (Tensor β)}

/-- Accepted values of the vertices are those of the arguments. -/
theorem Solver.perVertex?_renames {name : String} {vertices vertices' : ℤ}
    {found found' : Option (Array β)} (h : Option.Rel (Tensor.RenamesEach π) t t')
    (hfound : perVertex? (α := α) name vertices t = .ok found)
    (hfound' : perVertex? (α := α) name vertices' t' = .ok found') :
    Option.Rel (Renames π) found found' := by
  unfold perVertex? at hfound hfound'
  cases h with
  | none =>
      obtain rfl := Except.ok.inj hfound
      obtain rfl := Except.ok.inj hfound'
      exact .none
  | some h =>
      dsimp only at hfound hfound'
      rw [if_neg h.rank_ne_zero] at hfound
      rw [if_neg h.rank_ne_zero'] at hfound'
      split at hfound
      next =>
        split at hfound'
        next =>
          obtain rfl := Except.ok.inj hfound
          obtain rfl := Except.ok.inj hfound'
          exact .some h.entries
        next => cases hfound'
      next => cases hfound

/-- Arguments that say the same are split alike. -/
theorem Request.split?_renames {common : β} [Scalar β] {p p' : Option (Tensor β) × β}
    (h : Option.Rel (Tensor.Renames π) t t') (hsplit : Request.split? t common = .ok p)
    (hsplit' : Request.split? t' common = .ok p') :
    Option.Rel (Tensor.RenamesEach π) p.1 p'.1 ∧ p'.2 = p.2 := by
  unfold split? at hsplit hsplit'
  cases h with
  | none => cases hsplit
  | some h =>
      dsimp only at hsplit hsplit'
      cases h with
      | each heach =>
          rw [Tensor.scalar?_eq_none heach.rank_ne_zero] at hsplit
          rw [Tensor.scalar?_eq_none heach.rank_ne_zero'] at hsplit'
          obtain rfl := Except.ok.inj hsplit
          obtain rfl := Except.ok.inj hsplit'
          exact ⟨.some heach, rfl⟩
      | single ha ha' =>
          rw [ha] at hsplit
          rw [ha'] at hsplit'
          obtain rfl := Except.ok.inj hsplit
          obtain rfl := Except.ok.inj hsplit'
          exact ⟨.none, rfl⟩

end Arguments

namespace Solver

section Stored

variable {α : Type} {s s' : Solver α}

theorem storedBounds_renames {bound : α → Bound α} {each each' : Option (Array α)} (common : α)
    (h : Option.Rel (TotalVariation.Renames π) each each') :
    (storedBounds bound each common).Renames π (storedBounds bound each' common) := by
  refine ⟨?_, rfl⟩
  cases h with
  | none => exact .none
  | some h => exact .some (h.map bound)

theorem targetsOf?_renames (hcount : s'.vertexCount = s.vertexCount)
    (hπ : Preserves π s.vertexCount) {targets targets' : Option (Tensor α)} {m m' : Option (Vec α)}
    (h : Option.Rel (Tensor.Renames π) targets targets') (hm : s.targetsOf? targets = .ok m)
    (hm' : s'.targetsOf? targets' = .ok m') : Option.Rel (TotalVariation.Renames π) m m' := by
  unfold targetsOf? at hm hm'
  cases h with
  | none => exact perVertex?_renames .none hm hm'
  | some h =>
      dsimp only [Option.bind_some] at hm hm'
      cases h with
      | each heach =>
          rw [Tensor.scalar?_eq_none heach.rank_ne_zero] at hm
          rw [Tensor.scalar?_eq_none heach.rank_ne_zero'] at hm'
          exact perVertex?_renames (.some heach) hm hm'
      | single ha ha' =>
          rw [ha] at hm
          rw [ha'] at hm'
          obtain rfl := Except.ok.inj hm
          obtain rfl := Except.ok.inj hm'
          rw [hcount]
          exact .some (.replicate hπ _)

end Stored

variable {K : Type} [ExactField K]

/-- Before any term is given, two solvers describe one problem if their graphs are one. -/
theorem relabels_ofPartition {P P' : Partition K} (h : RenamesGraph π σ flip P P') :
    Relabels π σ flip (ofPartition P) (ofPartition P') where
  graph := h
  quadratic := by
    have hterm : (ofPartition P').quadratic = .none P.vertexCount :=
      congrArg Quadratic.none h.vertexCount_eq
    rw [hterm]
    exact Quadratic.renames_none h.vertices
  targetWeights := ⟨.none, rfl⟩
  targets := .none
  lower := ⟨.none, rfl⟩
  upper := ⟨.none, rfl⟩
  tolerance := rfl
  maxRounds := rfl
  verbose := rfl
  mergeTolerance := rfl
  inner := rfl
  monitorsEvolution := rfl
  turned _ _ _ := rfl

namespace Relabels

variable {s s' t t' : Solver K} (h : Relabels π σ flip s s')

include h

theorem setRefinement {tolerance mergeTolerance : K} {maxRounds : ℤ} {verbose : Bool}
    (ht : s.setRefinement? tolerance maxRounds verbose mergeTolerance = .ok t)
    (ht' : s'.setRefinement? tolerance maxRounds verbose mergeTolerance = .ok t')
    (hturned : ∀ e < s.partition.edgeCount, flip e = true → mergeTolerance = 0) :
    Relabels π σ flip t t' := by
  obtain ⟨rfl, -⟩ := setRefinement?_eq_ok ht
  obtain ⟨rfl, -⟩ := setRefinement?_eq_ok ht'
  exact ⟨h.graph, h.quadratic, h.targetWeights, h.targets, h.lower, h.upper, rfl, rfl, rfl, rfl,
    h.inner, h.monitorsEvolution, hturned⟩

theorem setQuadratic {observation observation' matrix matrix' : Option (Tensor K)} {scale : K}
    {representation : Option String}
    (hdata : QuadraticData.Renames π s.vertexCount
      ⟨observation, matrix, scale, representation, some (Int.ofNat s.vertexCount)⟩
      ⟨observation', matrix', scale, representation, some (Int.ofNat s.vertexCount)⟩)
    (ht : (s.setQuadratic observation matrix scale representation).2 = .ok t)
    (ht' : (s'.setQuadratic observation' matrix' scale representation).2 = .ok t') :
    Relabels π σ flip t t' := by
  obtain ⟨q, hq, rfl⟩ := map_eq_ok.mp ht
  obtain ⟨q', hq', rfl⟩ := map_eq_ok.mp ht'
  rw [h.vertexCount_eq] at hq'
  exact ⟨h.graph, Quadratic.renames_of_build h.graph.vertices rfl rfl hdata hq hq', h.targetWeights,
    h.targets, h.lower, h.upper, h.tolerance, h.maxRounds, h.verbose, h.mergeTolerance, h.inner,
    h.monitorsEvolution, h.turned⟩

theorem setTargets {weights weights' targets targets' : Option (Tensor K)} {common : K}
    (hweights : Option.Rel (Tensor.RenamesEach π) weights weights')
    (htargets : Option.Rel (Tensor.Renames π) targets targets')
    (ht : s.setTargets? weights common targets = .ok t)
    (ht' : s'.setTargets? weights' common targets' = .ok t') : Relabels π σ flip t t' := by
  obtain ⟨each, m, heach, hm, rfl, -⟩ := setTargets?_stores ht
  obtain ⟨each', m', heach', hm', rfl, -⟩ := setTargets?_stores ht'
  exact ⟨h.graph, h.quadratic, ⟨perVertex?_renames hweights heach heach', rfl⟩,
    targetsOf?_renames h.vertexCount_eq h.graph.vertices htargets hm hm', h.lower, h.upper,
    h.tolerance, h.maxRounds, h.verbose, h.mergeTolerance, h.inner, h.monitorsEvolution, h.turned⟩

theorem setBounds {lower lower' upper upper' : Option (Tensor K)} {commonLower commonUpper : K}
    (hlower : Option.Rel (Tensor.RenamesEach π) lower lower')
    (hupper : Option.Rel (Tensor.RenamesEach π) upper upper')
    (ht : s.setBounds? lower commonLower upper commonUpper = .ok t)
    (ht' : s'.setBounds? lower' commonLower upper' commonUpper = .ok t') :
    Relabels π σ flip t t' := by
  obtain ⟨low, upp, hlow, hupp, rfl, -⟩ := setBounds?_stores ht
  obtain ⟨low', upp', hlow', hupp', rfl, -⟩ := setBounds?_stores ht'
  exact ⟨h.graph, h.quadratic, h.targetWeights, h.targets,
    storedBounds_renames commonLower (perVertex?_renames hlower hlow hlow'),
    storedBounds_renames commonUpper (perVertex?_renames hupper hupp hupp'), h.tolerance,
    h.maxRounds, h.verbose, h.mergeTolerance, h.inner, h.monitorsEvolution, h.turned⟩

theorem setInner {relaxation conditioning reconditioning : K} {maxIterations : ℤ}
    {tolerance : Option K} {name : String}
    (ht : s.setInner? relaxation conditioning reconditioning maxIterations tolerance name = .ok t)
    (ht' : s'.setInner? relaxation conditioning reconditioning maxIterations tolerance name =
      .ok t') : Relabels π σ flip t t' := by
  obtain ⟨backend, hbackend, rfl, -⟩ := setInner?_eq_ok ht
  obtain ⟨backend', hbackend', rfl, -⟩ := setInner?_eq_ok ht'
  obtain rfl := Option.some.inj (hbackend.symm.trans hbackend')
  exact ⟨h.graph, h.quadratic, h.targetWeights, h.targets, h.lower, h.upper, h.tolerance,
    h.maxRounds, h.verbose, h.mergeTolerance, rfl, h.monitorsEvolution, h.turned⟩

end Relabels

end Solver
end TotalVariation
