import Mathlib
import TotalVariation.Proofs.Solver.Configure
import TotalVariation.Proofs.Solver.Merged

/-! # Used solvers

A solver is used by accepted settings and by runs, in any order, and a run may end or fail. Whatever
it was used for, its partition is arranged, its quadratic term fits the vertices of the graph and no
weight is negative. So with a symmetric term another run can be made as on a new solver.
-/

namespace TotalVariation

/-! ## Accepted weights -/

section Weights

variable {K : Type} [ExactField K]

/-- Weights of which none is negative are not negative anywhere. -/
theorem entry_nonneg {w : Vec K} (h : ∀ a ∈ w, ¬a < 0) (v : ℕ) : 0 ≤ Vec.entry w v := by
  by_cases hv : v < w.size
  · rw [Vec.entry, Array.getD_eq_getD_getElem?, Array.getElem?_eq_getElem hv, Option.getD_some]
    exact not_lt.mp (h _ (Array.getElem_mem hv))
  · exact (Vec.entry_eq_zero hv).ge

namespace Partition

variable {P Q : Partition K} {each : Option (Array K)} {common : K}

theorem weight_nonneg_of_all {n : ℕ} (h : P.edgeWeights.All (fun a => ¬a < 0) n) (e : ℕ) :
    0 ≤ P.weight e := by
  rw [weight]
  cases heach : P.edgeWeights.each with
  | none => exact not_lt.mp (h.common heach)
  | some w => exact entry_nonneg (h.each w heach) e

theorem weight_nonneg_of_ofIndex? {first adjacent : Array Int}
    (h : ofIndex? first adjacent each common = .ok P) (e : ℕ) : 0 ≤ P.weight e := by
  obtain ⟨G, -, h⟩ := bind_eq_ok.mp h
  obtain ⟨weights, hweights, h⟩ := bind_eq_ok.mp h
  obtain rfl := Except.ok.inj h
  exact weight_nonneg_of_all (P := whole G weights) (edgeWeighting?_eq_ok hweights).2 e

/-- Accepted weights of edges are not negative. -/
theorem setEdgeWeights?_eq_ok (h : P.setEdgeWeights? each common = .ok Q) :
    (∃ weights, Q = { P with edgeWeights := weights }) ∧ ∀ e, 0 ≤ Q.weight e := by
  obtain ⟨weights, hweights, h⟩ := bind_eq_ok.mp h
  obtain rfl := Except.ok.inj h
  exact ⟨⟨weights, rfl⟩, weight_nonneg_of_all (P := { P with edgeWeights := weights })
    (edgeWeighting?_eq_ok hweights).2⟩

end Partition
end Weights

namespace Solver

open Step TotalVariation.Partition

variable {K : Type} [ExactField K] {s t : Solver K}

/-- A solver of an accepted graph after any accepted settings and any runs, from the beginning or
continued, that ended or failed. -/
inductive IsUsed : Solver K → Prop
  | ofIndex {first adjacent : Array Int} {each : Option (Array K)} {common : K} {P : Partition K}
      (h : Partition.ofIndex? first adjacent each common = .ok P) : IsUsed (ofPartition P)
  | setEdgeWeights {s t : Solver K} {each : Option (Array K)} {common : K} (hs : IsUsed s)
      (h : s.setEdgeWeights? each common = .ok t) : IsUsed t
  | setQuadratic {s t : Solver K} {observation matrix : Option (Tensor K)} {scale : K}
      {representation : Option String} (hs : IsUsed s)
      (h : (s.setQuadratic observation matrix scale representation).2 = .ok t) : IsUsed t
  | setTargets {s t : Solver K} {weights targets : Option (Tensor K)} {common : K} (hs : IsUsed s)
      (h : s.setTargets? weights common targets = .ok t) : IsUsed t
  | setBounds {s t : Solver K} {lower upper : Option (Tensor K)} {commonLower commonUpper : K}
      (hs : IsUsed s) (h : s.setBounds? lower commonLower upper commonUpper = .ok t) : IsUsed t
  | setInner {s t : Solver K} {relaxation conditioning reconditioning : K} {maxIterations : Int}
      {tolerance : Option K} {backend : String} (hs : IsUsed s)
      (h : s.setInner? relaxation conditioning reconditioning maxIterations tolerance backend =
        .ok t) : IsUsed t
  | setRefinement {s t : Solver K} {tolerance mergeTolerance : K} {maxRounds : Int} {verbose : Bool}
      (hs : IsUsed s) (h : s.setRefinement? tolerance maxRounds verbose mergeTolerance = .ok t) :
      IsUsed t
  | monitor {s : Solver K} (hs : IsUsed s) (monitors : Bool) :
      IsUsed { s with monitorsEvolution := monitors }
  | run {s : Solver K} (hs : IsUsed s) (fresh : Bool) (r : Recording) :
      IsUsed ((run standardSteps fresh r).run s).2

/-- What settings and runs keep of a solver: its parts fit together and no weight is negative. -/
structure IsSound (s : Solver K) : Prop where
  arranged : s.partition.IsArranged
  fits : s.quadratic.Fits s.vertexCount
  nonneg : s.HasNonnegWeights

theorem IsSound.of_retains (hs : s.IsSound) (h : s.Retains t) : t.IsSound where
  arranged := h.arranged hs.arranged
  fits := by
    rw [h.quadratic, h.toSameSettings.vertexCount]
    exact hs.fits
  nonneg := hs.nonneg.of_sameSettings h.toSameSettings

theorem isSound_ofPartition {P : Partition K} (hP : P.IsArranged)
    (hnonneg : ∀ e < P.edgeCount, 0 ≤ P.weight e) : (ofPartition P).IsSound where
  arranged := hP
  fits := rfl
  nonneg := ⟨hnonneg, by rintro w ⟨⟩⟩

/-- An accepted setting makes the second solver of the first. -/
inductive SetsTo (s t : Solver K) : Prop
  | edgeWeights {each : Option (Array K)} {common : K} (h : s.setEdgeWeights? each common = .ok t)
  | quadratic {observation matrix : Option (Tensor K)} {scale : K} {representation : Option String}
      (h : (s.setQuadratic observation matrix scale representation).2 = .ok t)
  | targets {weights targets : Option (Tensor K)} {common : K}
      (h : s.setTargets? weights common targets = .ok t)
  | bounds {lower upper : Option (Tensor K)} {commonLower commonUpper : K}
      (h : s.setBounds? lower commonLower upper commonUpper = .ok t)
  | inner {relaxation conditioning reconditioning : K} {maxIterations : Int} {tolerance : Option K}
      {backend : String}
      (h : s.setInner? relaxation conditioning reconditioning maxIterations tolerance backend =
        .ok t)
  | refinement {tolerance mergeTolerance : K} {maxRounds : Int} {verbose : Bool}
      (h : s.setRefinement? tolerance maxRounds verbose mergeTolerance = .ok t)
  | monitor (monitors : Bool) (h : t = { s with monitorsEvolution := monitors })

/-- Of the partition and the iterate a setting changes nothing but the weights of the edges. -/
theorem SetsTo.frame (h : s.SetsTo t) : t.x = s.x ∧
    t.partition = { s.partition with edgeWeights := t.partition.edgeWeights } := by
  cases h with
  | edgeWeights h =>
      obtain ⟨P, hP, h⟩ := bind_eq_ok.mp h
      obtain rfl := Except.ok.inj h
      obtain ⟨⟨weights, rfl⟩, -⟩ := setEdgeWeights?_eq_ok hP
      exact ⟨rfl, rfl⟩
  | quadratic h =>
      obtain ⟨q, rfl, -⟩ := setQuadratic_eq_ok h
      exact ⟨rfl, rfl⟩
  | targets h =>
      obtain ⟨w, m, rfl, -⟩ := setTargets?_eq_ok h
      exact ⟨rfl, rfl⟩
  | bounds h =>
      obtain ⟨⟨low, upp, rfl⟩, -⟩ := setBounds?_eq_ok h
      exact ⟨rfl, rfl⟩
  | inner h =>
      obtain ⟨backend, -, rfl, -⟩ := setInner?_eq_ok h
      exact ⟨rfl, rfl⟩
  | refinement h =>
      obtain ⟨rfl, -⟩ := setRefinement?_eq_ok h
      exact ⟨rfl, rfl⟩
  | monitor monitors h =>
      obtain rfl := h
      exact ⟨rfl, rfl⟩

/-- After a setting the parts of a solver still fit together. -/
theorem IsSound.of_setsTo (hs : s.IsSound) (h : s.SetsTo t) : t.IsSound := by
  cases h with
  | edgeWeights h =>
      obtain ⟨P, hP, h⟩ := bind_eq_ok.mp h
      obtain rfl := Except.ok.inj h
      obtain ⟨⟨weights, rfl⟩, hnonneg⟩ := setEdgeWeights?_eq_ok hP
      exact ⟨⟨hs.arranged.graph_valid, hs.arranged.active_size, hs.arranged.arena_perm,
        hs.arranged.region_ne_nil⟩, hs.fits, fun e _ => hnonneg e, hs.nonneg.targets⟩
  | quadratic h =>
      obtain ⟨q, rfl, hfits⟩ := setQuadratic_eq_ok h
      exact ⟨hs.arranged, hfits, hs.nonneg.edges, hs.nonneg.targets⟩
  | targets h =>
      obtain ⟨w, m, rfl, hweights, -⟩ := setTargets?_eq_ok h
      exact ⟨hs.arranged, hs.fits, hs.nonneg.edges, fun each heach v _ =>
        entry_nonneg (hweights.each each heach) v⟩
  | bounds h =>
      obtain ⟨⟨low, upp, rfl⟩, -⟩ := setBounds?_eq_ok h
      exact ⟨hs.arranged, hs.fits, hs.nonneg.edges, hs.nonneg.targets⟩
  | inner h =>
      obtain ⟨backend, -, rfl, -⟩ := setInner?_eq_ok h
      exact ⟨hs.arranged, hs.fits, hs.nonneg.edges, hs.nonneg.targets⟩
  | refinement h =>
      obtain ⟨rfl, -⟩ := setRefinement?_eq_ok h
      exact ⟨hs.arranged, hs.fits, hs.nonneg.edges, hs.nonneg.targets⟩
  | monitor monitors h =>
      obtain rfl := h
      exact ⟨hs.arranged, hs.fits, hs.nonneg.edges, hs.nonneg.targets⟩

/-- However a solver was used, its parts fit together. -/
theorem IsUsed.isSound (h : s.IsUsed) : s.IsSound := by
  induction h with
  | ofIndex h =>
      exact isSound_ofPartition (isArranged_of_ofIndex? h) fun e _ => weight_nonneg_of_ofIndex? h e
  | setEdgeWeights _ h ih => exact ih.of_setsTo (.edgeWeights h)
  | setQuadratic _ h ih => exact ih.of_setsTo (.quadratic h)
  | setTargets _ h ih => exact ih.of_setsTo (.targets h)
  | setBounds _ h ih => exact ih.of_setsTo (.bounds h)
  | setInner _ h ih => exact ih.of_setsTo (.inner h)
  | setRefinement _ h ih => exact ih.of_setsTo (.refinement h)
  | monitor _ monitors ih => exact ih.of_setsTo (.monitor monitors rfl)
  | run _ fresh r ih => exact ih.of_retains ((stepsRetain innerMethod).run fresh _)

/-- Two observed vertices with an edge of unit weight between them, as an example of a solver whose
parts fit together. -/
theorem isSound_observedPair {y : Vec ℚ} (hy : y.size = 2) (inner : InnerParameters ℚ) :
    IsSound { ofPartition (.whole ⟨#[0, 1, 1], #[0], #[1]⟩ ⟨none, 1⟩) with
      quadratic := .identity 2 1 (some y), inner := inner } := by
  have hpair : Partition.ofIndex? #[0, 1, 1] #[1] none (1 : ℚ) =
      .ok (.whole ⟨#[0, 1, 1], #[0], #[1]⟩ ⟨none, 1⟩) := by with_unfolding_all rfl
  have hsound := (IsUsed.ofIndex hpair).isSound
  exact ⟨hsound.arranged, ⟨rfl, by rintro l ⟨⟩; exact hy⟩, hsound.nonneg.edges,
    hsound.nonneg.targets⟩

end Solver

end TotalVariation
