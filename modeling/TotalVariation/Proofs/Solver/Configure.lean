import Mathlib
import TotalVariation.Proofs.Failure
import TotalVariation.Proofs.Quadratic.Accepted
import TotalVariation.Proofs.Solver.Feasible

/-! # Configured solvers

An accepted setting stores its group and nothing else. Weights are accepted if there are as many as
places and none is negative, bounds if there are as many as vertices and each vertex has room
between its two.
-/

namespace TotalVariation

/-- There are as many numbers as places, if they differ, and all that are in force have the
property. -/
structure Weighting.All {β : Type} (p : β → Prop) (n : ℕ) (w : Weighting β) : Prop where
  size_each : ∀ values, w.each = some values → values.size = n
  each : ∀ values, w.each = some values → ∀ a ∈ values, p a
  common : w.each = none → p w.common

section Weights

variable {α : Type} [Scalar α]

theorem not_lt_of_any_eq_false {values : Array α} (h : ¬(values.any fun a => a < 0) = true) :
    ∀ a ∈ values, ¬a < 0 :=
  fun a ha hneg => h (Array.any_eq_true'.mpr ⟨a, ha, decide_eq_true hneg⟩)

/-- Accepted weights of edges are stored as they are; none in force is negative. -/
theorem Partition.edgeWeighting?_eq_ok {edges : ℕ} {each : Option (Array α)} {common : α}
    {w : Weighting α} (h : edgeWeighting? edges each common = .ok w) :
    w = ⟨each, common⟩ ∧ w.All (fun a => ¬a < 0) edges := by
  unfold edgeWeighting? at h
  cases each with
  | none =>
      dsimp only at h
      rw [test_eq_ok] at h
      obtain ⟨hcommon, h⟩ := h
      obtain rfl := Except.ok.inj h
      exact ⟨rfl, by rintro _ ⟨⟩, by rintro _ ⟨⟩, fun _ => hcommon⟩
  | some values =>
      dsimp only at h
      rw [test_eq_ok, test_eq_ok] at h
      obtain ⟨hsize, hnonneg, h⟩ := h
      obtain rfl := Except.ok.inj h
      refine ⟨rfl, ?_, ?_, by rintro ⟨⟩⟩
      · rintro _ ⟨⟩
        exact not_not.mp hsize
      · rintro _ ⟨⟩
        exact not_lt_of_any_eq_false hnonneg

/-- The partition of an accepted graph stores its weights. -/
theorem Partition.ofIndex?_eq_ok {first adjacent : Array Int} {each : Option (Array α)} {common : α}
    {P : Partition α} (h : ofIndex? first adjacent each common = .ok P) :
    ∃ G, ForwardStar.ofIndex? (α := α) first adjacent = .ok G ∧ P = whole G ⟨each, common⟩ := by
  unfold ofIndex? at h
  obtain ⟨G, hG, h⟩ := bind_eq_ok.mp h
  obtain ⟨w, hw, h⟩ := bind_eq_ok.mp h
  obtain ⟨rfl, -⟩ := edgeWeighting?_eq_ok hw
  exact ⟨G, hG, (Except.ok.inj h).symm⟩

end Weights

namespace Solver

variable {α : Type} [Scalar α] {s t : Solver α}

theorem setRefinement?_eq_ok {tolerance mergeTolerance : α} {maxRounds : Int} {verbose : Bool}
    (h : s.setRefinement? tolerance maxRounds verbose mergeTolerance = .ok t) :
    t = { s with
        tolerance := tolerance
        maxRounds := maxRounds
        verbose := verbose
        mergeTolerance := mergeTolerance } ∧ ¬tolerance < 0 ∧ ¬mergeTolerance < 0 := by
  unfold setRefinement? at h
  dsimp only at h
  rw [test_eq_ok, test_eq_ok] at h
  obtain ⟨htolerance, hmerge, h⟩ := h
  exact ⟨(Except.ok.inj h).symm, htolerance, hmerge⟩

theorem setQuadratic_eq_ok {observation matrix : Option (Tensor α)} {scale : α}
    {representation : Option String}
    (h : (s.setQuadratic observation matrix scale representation).2 = .ok t) :
    ∃ q, t = { s with quadratic := q, residual := none } ∧ q.Fits s.vertexCount := by
  obtain ⟨q, hbuilt, heq⟩ := map_eq_ok.mp h
  exact ⟨q, heq.symm, Quadratic.fits_of_build rfl hbuilt⟩

omit [Scalar α] in
/-- The values of a group that has one for each vertex are those of the argument, as many as
vertices. -/
theorem perVertex?_eq_ok {β : Type} {name : String} {vertices : ℕ} {values : Option (Tensor β)}
    {found : Option (Array β)} (h : perVertex? (α := α) name vertices values = .ok found)
    {each : Array β} (heach : found = some each) :
    (∃ a, values = some a ∧ a.entries = each) ∧ each.size = vertices := by
  subst heach
  unfold perVertex? at h
  split at h
  next => cases h
  next a =>
    split at h
    next => cases h
    next =>
      split at h
      next hsize =>
        obtain rfl := Option.some.inj (Except.ok.inj h)
        exact ⟨⟨a, rfl, rfl⟩, by exact_mod_cast hsize⟩
      next => cases h

/-- Checked weights are stored beside the targets. -/
theorem storeTargets_eq_ok {each : Option (Vec α)} {common : α} {m : Option (Vec α)}
    (hsize : ∀ values, each = some values → values.size = s.vertexCount)
    (h : (do
      match each with
      | none => if common < 0 then throw (.negativeTargetWeight common)
      | some w => if w.any fun a => a < 0 then throw .negativeTargetWeights
      pure { s with targetWeights := ⟨each, common⟩, targets := m } :
        Except (Failure α) (Solver α)) = .ok t) :
    t = { s with targetWeights := ⟨each, common⟩, targets := m } ∧
      Weighting.All (fun a => ¬a < 0) s.vertexCount ⟨each, common⟩ := by
  cases each with
  | none =>
      dsimp only at h
      rw [test_eq_ok] at h
      exact ⟨(Except.ok.inj h.2).symm, hsize, by rintro _ ⟨⟩, fun _ => h.1⟩
  | some w =>
      dsimp only at h
      rw [test_eq_ok] at h
      refine ⟨(Except.ok.inj h.2).symm, hsize, ?_, by rintro ⟨⟩⟩
      rintro _ ⟨⟩
      exact not_lt_of_any_eq_false h.1

/-- Accepted targets and their weights are stored as they are, and no weight in force is
negative. -/
theorem setTargets?_stores {weights targets : Option (Tensor α)} {common : α}
    (h : s.setTargets? weights common targets = .ok t) :
    ∃ each m, perVertex? (α := α) "l1_weights" s.vertexCount weights = .ok each ∧
      s.targetsOf? targets = .ok m ∧
      t = { s with targetWeights := ⟨each, common⟩, targets := m } ∧
      Weighting.All (fun a => ¬a < 0) s.vertexCount ⟨each, common⟩ := by
  unfold setTargets? at h
  rw [bind_eq_ok] at h
  obtain ⟨each, hweights, h⟩ := h
  rw [bind_eq_ok] at h
  obtain ⟨m, hm, h⟩ := h
  exact ⟨each, m, hweights, hm,
    storeTargets_eq_ok (fun _ heach => (perVertex?_eq_ok hweights heach).2) h⟩

omit [Scalar α] in
/-- There is a target for each vertex, if there are any. -/
theorem size_targetsOf? {targets : Option (Tensor α)} {m : Option (Vec α)}
    (h : s.targetsOf? targets = .ok m) {each : Vec α} (heach : m = some each) :
    each.size = s.vertexCount := by
  unfold targetsOf? at h
  split at h
  next =>
    obtain rfl := Option.some.inj ((Except.ok.inj h).trans heach)
    exact Array.size_replicate
  next => exact (perVertex?_eq_ok h heach).2

/-- Accepted targets and their weights are as many as vertices, and no weight in force is
negative. -/
theorem setTargets?_eq_ok {weights targets : Option (Tensor α)} {common : α}
    (h : s.setTargets? weights common targets = .ok t) :
    ∃ w m, t = { s with targetWeights := w, targets := m } ∧
      w.All (fun a => ¬a < 0) s.vertexCount ∧ w.common = common ∧
      (∀ each, w.each = some each → ∃ a, weights = some a ∧ a.entries = each) ∧
      ∀ each, m = some each → each.size = s.vertexCount := by
  obtain ⟨each, m, hweights, hm, rfl, hall⟩ := setTargets?_stores h
  exact ⟨_, _, rfl, hall, rfl, fun _ heach => (perVertex?_eq_ok hweights heach).1,
    fun _ heach => size_targetsOf? hm heach⟩

theorem setInner?_eq_ok {relaxation conditioning reconditioning : α} {maxIterations : Int}
    {tolerance : Option α} {name : String}
    (h : s.setInner? relaxation conditioning reconditioning maxIterations tolerance name = .ok t) :
    ∃ backend, Backend.ofName? name = some backend ∧
      t = { s with
        inner := ⟨relaxation, conditioning, reconditioning, maxIterations, tolerance, backend⟩
        innerIterations := maxIterations } ∧
      (0 < relaxation ∧ relaxation < Scalar.two) ∧ 0 < conditioning ∧ conditioning ≤ 1 := by
  unfold setInner? at h
  dsimp only at h
  rw [test_eq_ok, test_eq_ok] at h
  obtain ⟨hrelaxation, hconditioning, h⟩ := h
  split at h
  next backend hname =>
    exact ⟨backend, hname, (Except.ok.inj h).symm, not_not.mp hrelaxation,
      not_not.mp hconditioning⟩
  next => exact absurd h throw_ne_ok

/-- Accepted bounds are stored as they are, and are not crossed at any vertex. -/
theorem setBounds?_stores {lower upper : Option (Tensor α)} {commonLower commonUpper : α}
    (h : s.setBounds? lower commonLower upper commonUpper = .ok t) :
    ∃ low upp, perVertex? (α := α) "low_bnd" s.vertexCount lower = .ok low ∧
      perVertex? (α := α) "upp_bnd" s.vertexCount upper = .ok upp ∧
      t = { s with
        lower := storedBounds Bound.lower low commonLower
        upper := storedBounds Bound.upper upp commonUpper } ∧
      ∀ v < s.vertexCount, areCrossed (boundAt (storedBounds Bound.lower low commonLower) v)
        (boundAt (storedBounds Bound.upper upp commonUpper) v) = false := by
  unfold setBounds? at h
  rw [bind_eq_ok] at h
  obtain ⟨low, hlow, h⟩ := h
  rw [bind_eq_ok] at h
  obtain ⟨upp, hupp, h⟩ := h
  refine ⟨low, upp, hlow, hupp, ?_⟩
  dsimp only at h
  split at h
  next hcommon =>
    rw [test_eq_ok] at h
    refine ⟨(Except.ok.inj h.2).symm, fun v _ => ?_⟩
    rw [Bool.and_eq_true, Option.isNone_iff_eq_none, Option.isNone_iff_eq_none] at hcommon
    simp only [boundAt, hcommon.1, hcommon.2]
    simpa using h.1
  next =>
    rw [test_eq_ok] at h
    refine ⟨(Except.ok.inj h.2).symm, fun v hv => ?_⟩
    by_contra hcrossed
    refine h.1 (List.any_eq_true.mpr ⟨v, List.mem_range.mpr hv, ?_⟩)
    exact (Bool.not_eq_false _).mp hcrossed

section Bounds

open TotalVariation.Bound

variable {K : Type} [ExactField K] {s t : Solver K}

theorem areUncrossed_of_areCrossed {low upp : Bound K} (h : areCrossed low upp = false) :
    AreUncrossed low upp := by
  intro l u hl hu
  subst hl hu
  simpa [areCrossed] using h

/-- Accepted bounds are as many as vertices and leave room at every vertex. -/
theorem setBounds?_eq_ok {lower upper : Option (Tensor K)} {commonLower commonUpper : K}
    (h : s.setBounds? lower commonLower upper commonUpper = .ok t) :
    (∃ low upp, t = { s with lower := low, upper := upp }) ∧ BoundsAccepted t := by
  obtain ⟨low, upp, hlow, hupp, rfl, huncrossed⟩ := setBounds?_stores h
  refine ⟨⟨_, _, rfl⟩, ?_, ?_, ?_⟩
  · intro values hvalues
    obtain ⟨each, heach, rfl⟩ := Option.map_eq_some_iff.mp hvalues
    rw [Array.size_map]
    exact (perVertex?_eq_ok hlow heach).2
  · intro values hvalues
    obtain ⟨each, heach, rfl⟩ := Option.map_eq_some_iff.mp hvalues
    rw [Array.size_map]
    exact (perVertex?_eq_ok hupp heach).2
  · intro v hv
    rw [problem_lowerAt _ hv, problem_upperAt _ hv]
    exact areUncrossed_of_areCrossed (huncrossed v hv)

end Bounds

end Solver

namespace Request

open Solver

variable {K : Type} [ExactField K]

/-- The solvers that a configuration goes through: with the parameters of the refinement, the
quadratic term, the targets and the bounds. -/
structure ConfiguresBy (q : Request K) (P : Partition K) (s : Solver K) (s₀ s₁ s₂ s₃ : Solver K) :
    Prop where
  refinement : (ofPartition P).setRefinement? q.tolerance q.maxRounds q.verbose q.mergeTolerance =
    .ok s₀
  quadratic : (s₀.setQuadratic q.observation q.matrix 1 q.representation).2 = .ok s₁
  targets : ∃ each common, split? q.targetWeights 0 = .ok (each, common) ∧
    s₁.setTargets? each common q.targets = .ok s₂
  bounds : ∃ lower commonLower upper commonUpper,
    split? q.lower q.noLower = .ok (lower, commonLower) ∧
    split? q.upper q.noUpper = .ok (upper, commonUpper) ∧
    s₂.setBounds? lower commonLower upper commonUpper = .ok s₃
  inner : s₃.setInner? q.relaxation q.conditioning q.reconditioning q.innerIterations
    q.innerTolerance q.backend = .ok s

/-- A configured solver was made by one setting after the other, from the partition of an accepted
graph. -/
theorem exists_configuresBy {q : Request K} {first adjacent : Array Int} {events : List (Event K)}
    {s : Solver K} (h : q.configure? first adjacent = (events, .ok s)) :
    ∃ each common P s₀ s₁ s₂ s₃, split? q.edgeWeights 0 = .ok (each, common) ∧
      Partition.ofIndex? first adjacent (each.map (·.entries)) common = .ok P ∧
      q.ConfiguresBy P s s₀ s₁ s₂ s₃ := by
  unfold configure? at h
  dsimp only at h
  split at h
  next => cases h
  next s₀ hprepared =>
    obtain ⟨-, h⟩ := Prod.mk.inj h
    obtain ⟨⟨each, common⟩, hweights, hprepared⟩ := bind_eq_ok.mp hprepared
    obtain ⟨P, hP, hrefinement⟩ := bind_eq_ok.mp hprepared
    obtain ⟨s₁, hquadratic, h⟩ := bind_eq_ok.mp h
    obtain ⟨⟨weights, commonWeight⟩, hsplit, h⟩ := bind_eq_ok.mp h
    obtain ⟨s₂, htargets, h⟩ := bind_eq_ok.mp h
    obtain ⟨⟨lower, commonLower⟩, hlower, h⟩ := bind_eq_ok.mp h
    obtain ⟨⟨upper, commonUpper⟩, hupper, h⟩ := bind_eq_ok.mp h
    obtain ⟨s₃, hbounds, hinner⟩ := bind_eq_ok.mp h
    exact ⟨each, common, P, s₀, s₁, s₂, s₃, hweights, hP, hrefinement, hquadratic,
      ⟨weights, commonWeight, hsplit, htargets⟩,
      ⟨lower, commonLower, upper, commonUpper, hlower, hupper, hbounds⟩, hinner⟩

/-- A configured solver starts from the partition of an accepted graph, with accepted bounds and
the parameters that were asked for. -/
theorem configure?_eq_ok {q : Request K} {first adjacent : Array Int} {events : List (Event K)}
    {s : Solver K} (h : q.configure? first adjacent = (events, .ok s)) :
    s.partition.IsArranged ∧ BoundsAccepted s ∧ s.mergeTolerance = q.mergeTolerance ∧
      s.inner.maxIterations = q.innerIterations ∧
      Backend.ofName? q.backend = some s.inner.backend := by
  obtain ⟨each, common, P, s₀, s₁, s₂, s₃, -, hP, hrefinement, hquadratic, htargets, hbounds,
    hinner⟩ := exists_configuresBy h
  obtain ⟨rfl, -⟩ := setRefinement?_eq_ok hrefinement
  obtain ⟨quadratic, rfl, -⟩ := setQuadratic_eq_ok hquadratic
  obtain ⟨weights, commonWeight, -, htargets⟩ := htargets
  obtain ⟨w, m, rfl, -⟩ := setTargets?_eq_ok htargets
  obtain ⟨lower, commonLower, upper, commonUpper, -, -, hbounds⟩ := hbounds
  obtain ⟨⟨low, upp, rfl⟩, haccepted⟩ := setBounds?_eq_ok hbounds
  obtain ⟨backend, hbackend, rfl, -⟩ := setInner?_eq_ok hinner
  exact ⟨Partition.isArranged_of_ofIndex? hP,
    ⟨haccepted.size_lower, haccepted.size_upper, haccepted.uncrossed⟩, rfl, rfl, hbackend⟩

end Request

end TotalVariation
