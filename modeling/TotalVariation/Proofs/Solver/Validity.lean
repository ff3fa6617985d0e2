import Mathlib
import TotalVariation.Proofs.Numeric.Extended
import TotalVariation.Proofs.Solver.Calls
import TotalVariation.Proofs.Solver.Settings

/-! # Valid configurations

Most checks of the calls are negative: a number is refused if it lies on the wrong side of a limit.
An undefined number lies on no side and would pass. If none is given, what the calls store is valid:
no weight in force is negative, no lower bound is above its upper bound, the parameters are in their
ranges, and there are as many numbers as vertices or edges. A new solver is valid, and neither
calls, accepted or refused, nor runs make it invalid.
-/

namespace TotalVariation

open Extended

namespace Setting

variable {α : Type}

/-- The numbers of a shaped argument. -/
def entriesOf (argument : Option (Tensor α)) : List α :=
  match argument with
  | some t => t.entries.toList
  | none => []

/-- The numbers among the arguments of the call. -/
def numbers : Setting α → List α
  | quadratic observation matrix scale _ => entriesOf observation ++ entriesOf matrix ++ [scale]
  | targets weights common values => entriesOf weights ++ [common] ++ entriesOf values
  | bounds lower commonLower upper commonUpper =>
    entriesOf lower ++ [commonLower] ++ entriesOf upper ++ [commonUpper]
  | inner relaxation conditioning reconditioning _ tolerance _ =>
    [relaxation, conditioning, reconditioning] ++ tolerance.toList
  | refinement tolerance _ _ mergeTolerance => [tolerance, mergeTolerance]
  | edgeWeights each common => each.toList.flatMap Array.toList ++ [common]

/-- No argument of the call is undefined. -/
def IsDefined {K : Type} (c : Setting (Extended K)) : Prop := ∀ a ∈ c.numbers, a ≠ undefined

end Setting

namespace Weighting

variable {K : Type} [ExactField K] {n : ℕ} {w : Weighting (Extended K)}

/-- Defined weights of which none is below zero are nonnegative. -/
theorem All.nonneg (h : w.All (fun a => ¬a < 0) n)
    (heach : ∀ values, w.each = some values → ∀ a ∈ values, a ≠ undefined)
    (hcommon : w.common ≠ undefined) : w.All (0 ≤ ·) n where
  size_each := h.size_each
  each values hvalues a ha :=
    le_of_not_lt (heach values hvalues a ha) nofun (h.each values hvalues a ha)
  common hnone := le_of_not_lt hcommon nofun (h.common hnone)

end Weighting

theorem nonneg_of_edgeWeighting? {K : Type} [ExactField K] {edges : ℕ}
    {each : Option (Array (Extended K))} {common : Extended K} {w : Weighting (Extended K)}
    (hdefined : (Setting.edgeWeights each common).IsDefined)
    (h : Partition.edgeWeighting? edges each common = .ok w) : w.All (0 ≤ ·) edges := by
  obtain ⟨rfl, hall⟩ := Partition.edgeWeighting?_eq_ok h
  refine hall.nonneg (fun values hvalues a ha => ?_) (hdefined _ (by simp [Setting.numbers]))
  obtain rfl := hvalues
  exact hdefined a (by simp [Setting.numbers, ha])

namespace Solver

variable {K : Type} [ExactField K] {s t : Solver (Extended K)}

/-- The configuration of a solver is valid. A bound that is missing counts as infinite. -/
structure IsConfigured (s : Solver (Extended K)) : Prop where
  edgeWeights : s.partition.edgeWeights.All (0 ≤ ·) s.partition.edgeCount
  targetWeights : s.targetWeights.All (0 ≤ ·) s.vertexCount
  size_targets : ∀ values, s.targets = some values → values.size = s.vertexCount
  size_lower : ∀ values, s.lower.each = some values → values.size = s.vertexCount
  size_upper : ∀ values, s.upper.each = some values → values.size = s.vertexCount
  lower_le_upper : ∀ v < s.vertexCount,
    (boundAt s.lower v).getD below ≤ (boundAt s.upper v).getD above
  relaxation : 0 < s.inner.relaxation ∧ s.inner.relaxation < Scalar.two
  conditioning : 0 < s.inner.conditioning ∧ s.inner.conditioning ≤ 1
  tolerance : 0 ≤ s.tolerance
  mergeTolerance : 0 ≤ s.mergeTolerance
  quadratic : s.quadratic.Fits s.vertexCount

/-! ## Bounds -/

/-- Bounds are crossed if the number from below is above the number from above. -/
theorem areCrossed_iff {low upp : Bound (Extended K)} :
    areCrossed low upp = true ↔ upp.getD above < low.getD below := by
  cases low with
  | none => exact ⟨nofun, fun h => absurd h (not_lt_below _)⟩
  | some l =>
      cases upp with
      | none => exact ⟨nofun, fun h => absurd h (not_above_lt _)⟩
      | some u => exact decide_eq_true_iff

omit [ExactField K] in
/-- Bounds that are stored for defined numbers are defined. -/
theorem storedBounds_getD_ne {bound : Extended K → Bound (Extended K)} {missing : Extended K}
    (hbound : ∀ a, (bound a).getD missing = a) {each : Option (Array (Extended K))}
    {common : Extended K} {n : ℕ}
    (heach : ∀ values, each = some values → values.size = n ∧ ∀ a ∈ values, a ≠ undefined)
    (hcommon : common ≠ undefined) {v : ℕ} (hv : v < n) :
    (boundAt (storedBounds bound each common) v).getD missing ≠ undefined := by
  cases each with
  | none =>
      change (bound common).getD missing ≠ undefined
      rwa [hbound]
  | some values =>
      obtain ⟨hsize, hdefined⟩ := heach values rfl
      have hlt : v < values.size := hsize ▸ hv
      have hat : boundAt (storedBounds bound (some values) common) v = bound values[v] := by
        simp [boundAt, storedBounds, hlt]
      rw [hat, hbound]
      exact hdefined _ (Array.getElem_mem hlt)

/-! ## Calls -/

omit [ExactField K] in
/-- The numbers found for a defined argument are as many as vertices, and defined. -/
theorem perVertex?_defined {argument : Option (Tensor (Extended K))} {name : String} {n : ℕ}
    {found : Option (Array (Extended K))}
    (h : perVertex? (α := Extended K) name n argument = .ok found)
    (hdefined : ∀ a ∈ Setting.entriesOf argument, a ≠ undefined) :
    ∀ values, found = some values → values.size = n ∧ ∀ a ∈ values, a ≠ undefined := by
  intro values hvalues
  obtain ⟨⟨t, rfl, rfl⟩, hsize⟩ := perVertex?_eq_ok h hvalues
  exact ⟨hsize, fun a ha => hdefined a (Array.mem_toList_iff.mpr ha)⟩

namespace IsConfigured

theorem setBounds (hs : s.IsConfigured) {lower upper : Option (Tensor (Extended K))}
    {commonLower commonUpper : Extended K}
    (hdefined : (Setting.bounds lower commonLower upper commonUpper).IsDefined)
    (h : s.setBounds? lower commonLower upper commonUpper = .ok t) : t.IsConfigured := by
  obtain ⟨low, upp, hlow, hupp, rfl, huncrossed⟩ := setBounds?_stores h
  have hlower := perVertex?_defined hlow fun a ha => hdefined a (by simp [Setting.numbers, ha])
  have hupper := perVertex?_defined hupp fun a ha => hdefined a (by simp [Setting.numbers, ha])
  have hcommon : commonLower ≠ undefined := hdefined _ (by simp [Setting.numbers])
  have hcommon' : commonUpper ≠ undefined := hdefined _ (by simp [Setting.numbers])
  refine { hs with size_lower := ?_, size_upper := ?_, lower_le_upper := ?_ }
  · intro values hvalues
    obtain ⟨each, heach, rfl⟩ := Option.map_eq_some_iff.mp hvalues
    rw [Array.size_map]
    exact (hlower each heach).1
  · intro values hvalues
    obtain ⟨each, heach, rfl⟩ := Option.map_eq_some_iff.mp hvalues
    rw [Array.size_map]
    exact (hupper each heach).1
  · intro v hv
    have hnot : ¬_ := fun hcrossed =>
      Bool.eq_false_iff.mp (huncrossed v hv) (areCrossed_iff.mpr hcrossed)
    exact le_of_not_lt (storedBounds_getD_ne upper_getD hupper hcommon' hv)
      (storedBounds_getD_ne lower_getD hlower hcommon hv) hnot

theorem setTargets (hs : s.IsConfigured) {weights values : Option (Tensor (Extended K))}
    {common : Extended K} (hdefined : (Setting.targets weights common values).IsDefined)
    (h : s.setTargets? weights common values = .ok t) : t.IsConfigured := by
  obtain ⟨w, m, rfl, hall, hcommon, hgiven, hsize⟩ := setTargets?_eq_ok h
  have hweights : ∀ each, w.each = some each → ∀ a ∈ each, a ≠ undefined := by
    intro each heach a ha
    obtain ⟨given, rfl, rfl⟩ := hgiven each heach
    exact hdefined a (by simp [Setting.numbers, Setting.entriesOf, ha])
  have hcommon' : w.common ≠ undefined := hcommon ▸ hdefined _ (by simp [Setting.numbers])
  exact { hs with targetWeights := hall.nonneg hweights hcommon', size_targets := hsize }

theorem setEdgeWeights (hs : s.IsConfigured) {each : Option (Array (Extended K))}
    {common : Extended K} (hdefined : (Setting.edgeWeights each common).IsDefined)
    (h : s.setEdgeWeights? each common = .ok t) : t.IsConfigured := by
  obtain ⟨P, hP, h⟩ := bind_eq_ok.mp h
  obtain ⟨w, hw, hP⟩ := bind_eq_ok.mp hP
  obtain rfl := Except.ok.inj hP
  obtain rfl := Except.ok.inj h
  exact { hs with edgeWeights := nonneg_of_edgeWeighting? hdefined hw }

/-- An accepted call with defined arguments keeps the configuration valid. -/
theorem accepted (hs : s.IsConfigured) {c : Setting (Extended K)} (hdefined : c.IsDefined)
    (h : c.outcome? s = .ok t) : t.IsConfigured := by
  cases c with
  | quadratic observation matrix scale representation =>
    obtain ⟨q, rfl, hfits⟩ := setQuadratic_eq_ok h
    exact { hs with quadratic := hfits }
  | targets weights common values => exact hs.setTargets hdefined h
  | bounds lower commonLower upper commonUpper => exact hs.setBounds hdefined h
  | inner relaxation conditioning reconditioning maxIterations tolerance backend =>
    obtain ⟨backend, -, rfl, hrelaxation, hconditioning⟩ := setInner?_eq_ok h
    exact { hs with relaxation := hrelaxation, conditioning := hconditioning }
  | refinement tolerance maxRounds verbose mergeTolerance =>
    obtain ⟨rfl, htolerance, hmerge⟩ := setRefinement?_eq_ok h
    exact { hs with
      tolerance := le_of_not_lt (hdefined _ (by simp [Setting.numbers])) nofun htolerance
      mergeTolerance := le_of_not_lt (hdefined _ (by simp [Setting.numbers])) nofun hmerge }
  | edgeWeights each common => exact hs.setEdgeWeights hdefined h

theorem afterCalls (hs : s.IsConfigured) {calls : List (Setting (Extended K))}
    (hdefined : ∀ c ∈ calls, c.IsDefined) : (s.afterCalls calls).IsConfigured :=
  afterCalls_induction hs fun c hc _ _ ht h => ht.accepted (hdefined c hc) h

theorem of_sameSettings (hs : s.IsConfigured) (h : SameSettings s t) : t.IsConfigured where
  edgeWeights := by
    rw [h.edgeWeights, Partition.edgeCount, h.graph]
    exact hs.edgeWeights
  targetWeights := by
    rw [h.targetWeights, h.vertexCount]
    exact hs.targetWeights
  size_targets := by
    rw [h.targets, h.vertexCount]
    exact hs.size_targets
  size_lower := by
    rw [h.lower, h.vertexCount]
    exact hs.size_lower
  size_upper := by
    rw [h.upper, h.vertexCount]
    exact hs.size_upper
  lower_le_upper := by
    rw [h.lower, h.upper, h.vertexCount]
    exact hs.lower_le_upper
  relaxation := h.inner ▸ hs.relaxation
  conditioning := h.inner ▸ hs.conditioning
  tolerance := h.tolerance ▸ hs.tolerance
  mergeTolerance := h.mergeTolerance ▸ hs.mergeTolerance
  quadratic := by
    rw [h.quadratic, h.vertexCount]
    exact hs.quadratic

/-- A run, however it ends, leaves the configuration valid. -/
theorem run (hs : s.IsConfigured) (solve : InnerMethod (Extended K)) (fresh : Bool)
    (r : Recording) : ((Solver.run (steps solve) fresh r).run s).2.IsConfigured :=
  hs.of_sameSettings ((stepsRetain solve).run fresh s).toSameSettings

end IsConfigured

/-- A new solver on an accepted graph is valid. -/
theorem isConfigured_ofPartition {first adjacent : Array Int}
    {each : Option (Array (Extended K))} {common : Extended K} {P : Partition (Extended K)}
    (hdefined : (Setting.edgeWeights each common).IsDefined)
    (h : Partition.ofIndex? first adjacent each common = .ok P) : (ofPartition P).IsConfigured := by
  obtain ⟨G, -, h⟩ := bind_eq_ok.mp h
  obtain ⟨w, hw, h⟩ := bind_eq_ok.mp h
  obtain rfl := Except.ok.inj h
  have hsmall (n : ℕ) (hn : 0 < n) :
      (Scalar.ratio 1 n : Extended K) = finite ((1 : K) / n) := by
    change finite ((1 : ℕ) : K) / finite (n : K) = _
    rw [finite_div _ (Nat.cast_ne_zero.mpr hn.ne'), Nat.cast_one]
  have hzero : (0 : Extended K) ≤ 0 := (finite_le 0 0).mpr le_rfl
  exact {
    edgeWeights := nonneg_of_edgeWeighting? hdefined hw
    targetWeights := ⟨nofun, nofun, fun _ => hzero⟩
    size_targets := nofun
    size_lower := nofun
    size_upper := nofun
    lower_le_upper := fun _ _ => trivial
    relaxation := by
      refine ⟨(finite_lt 0 1).mpr one_pos, (finite_lt 1 (1 + 1)).mpr ?_⟩
      norm_num
    conditioning := by
      change 0 < Scalar.ratio 1 1000 ∧ Scalar.ratio 1 1000 ≤ 1
      rw [hsmall 1000 (by norm_num), zero_eq, one_eq, finite_lt, finite_le]
      norm_num
    tolerance := by
      change 0 ≤ Scalar.ratio 1 10000
      rw [hsmall 10000 (by norm_num), zero_eq, finite_le]
      norm_num
    mergeTolerance := hzero
    quadratic := rfl }

/-- A call makes the whole solver or, if it is refused, changes none of it, whatever numbers it was
given. A new solver with defined weights is valid, and a valid solver is valid after any calls with
defined arguments, accepted or refused. -/
theorem calls_configure :
    (∀ {α : Type} [Scalar α] (c : Setting α) (s : Solver α), c.perform.Settles s (c.outcome? s) ∧
      ∀ e t, c.perform.run s = (.error e, t) → t = s) ∧
    ∀ {K : Type} [ExactField K],
      (∀ {first adjacent : Array Int} {each : Option (Array (Extended K))} {common : Extended K}
          {P : Partition (Extended K)}, (Setting.edgeWeights each common).IsDefined →
        Partition.ofIndex? first adjacent each common = .ok P → (ofPartition P).IsConfigured) ∧
      ∀ (s : Solver (Extended K)) (calls : List (Setting (Extended K))), s.IsConfigured →
        (∀ c ∈ calls, c.IsDefined) → (s.afterCalls calls).IsConfigured :=
  ⟨fun c s => ⟨c.perform_settles s, fun _ _ => Setting.eq_of_perform_fails⟩,
    isConfigured_ofPartition, fun _ _ hs hdefined => hs.afterCalls hdefined⟩

/-- A new solver of two vertices with one edge. -/
def newPair : Solver (Extended ℚ) :=
  ofPartition (.whole ⟨#[0, 1, 1], #[0], #[1]⟩ ⟨none, finite 1⟩)

/-- Calls of which three are accepted. -/
def pairCalls : List (Setting (Extended ℚ)) :=
  [.targets none (finite (1 / 2)) none,
    .targets none (finite (-1)) none,
    .targets (some (.ofArray #[finite 1, finite (-1)])) (finite 0) none,
    .bounds none (finite (-1)) none above,
    .bounds (some (.ofArray #[finite 0, finite 5])) below
      (some (.ofArray #[finite 1, finite 1])) above,
    .inner (finite (5 / 2)) (finite 1) (finite 0) 100 none "pfdr",
    .refinement (finite (-1)) 10 false (finite 0),
    .edgeWeights (some #[finite 2]) (finite (-1)),
    .quadratic (some (.ofArray #[finite 3])) none (finite 1) none]

theorem calls_configure_newPair :
    Partition.ofIndex? #[0, 1, 1] #[1] none (finite 1) = .ok newPair.partition ∧
      (∀ c ∈ pairCalls, c.IsDefined) ∧ (newPair.afterCalls pairCalls).IsConfigured ∧
      (newPair.afterCalls pairCalls).targetWeights = ⟨none, finite (1 / 2)⟩ ∧
      (newPair.afterCalls pairCalls).lower = ⟨none, some (finite (-1))⟩ ∧
      (newPair.afterCalls pairCalls).partition.edgeWeights = ⟨some #[finite 2], finite (-1)⟩ ∧
      (Setting.bounds none (finite 3) none (finite 2)).perform.run newPair =
        (.error (.crossedCommonBounds (finite 3) (finite 2)), newPair) := by
  obtain ⟨hsettles, hvalid⟩ := @calls_configure
  obtain ⟨hnew, hcalls⟩ := @hvalid ℚ _
  have hweight : (Setting.edgeWeights none (finite (1 : ℚ))).IsDefined := by
    simp [Setting.IsDefined, Setting.numbers]
  have hP : Partition.ofIndex? #[0, 1, 1] #[1] none (finite (1 : ℚ)) = .ok newPair.partition := by
    with_unfolding_all rfl
  have hdefined : ∀ c ∈ pairCalls, c.IsDefined := by
    simp [pairCalls, Setting.IsDefined, Setting.numbers, Setting.entriesOf, Tensor.ofArray]
  have hcrossed : (Setting.bounds none (finite 3) none (finite 2)).outcome? newPair =
      .error (.crossedCommonBounds (finite 3) (finite 2)) := by with_unfolding_all rfl
  have hrefused := (hsettles (.bounds none (finite 3) none (finite 2)) newPair).1
  rw [hcrossed] at hrefused
  refine ⟨hP, hdefined, hcalls newPair pairCalls (hnew hweight hP) hdefined, ?_, ?_, ?_, hrefused⟩
  · with_unfolding_all rfl
  · with_unfolding_all rfl
  · with_unfolding_all rfl

end Solver
end TotalVariation
