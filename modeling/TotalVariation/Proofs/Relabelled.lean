import Mathlib
import TotalVariation.Proofs.Minimise
import TotalVariation.Proofs.Solver.RelabelledSettings
import TotalVariation.Proofs.Solver.RenamedRounds
import TotalVariation.Proofs.Solver.Used

/-! # Minimisation under another description

A minimisation does not depend on the names of the vertices, on the order of the edges or on the
direction in which they are stored: where only equal values are merged, two descriptions of one
problem lead to as many rounds with the same records, and to the same values of corresponding
vertices.
-/

namespace TotalVariation

open Solver TotalVariation.Partition

variable {K : Type} [ExactField K]

namespace Request

variable {q q' : Request K} {first adjacent first' adjacent' : Array Int}
  {events events' : List (Event K)} {s s' : Solver K} {π σ : Equiv.Perm ℕ} {flip : ℕ → Bool}

/-- The data of the quadratic term over `n` vertices. -/
def quadraticData (q : Request K) (n : ℕ) : QuadraticData K :=
  ⟨q.observation, q.matrix, 1, q.representation, some (Int.ofNat n)⟩

/-- The second request asks for the problem of the first with its vertices and edges renamed and
some edges turned around. The graphs are given without their weights. -/
structure Redescribes (π σ : Equiv.Perm ℕ) (flip : ℕ → Bool) (P P' : Partition K)
    (q q' : Request K) : Prop where
  graph : RenamesGraph π σ flip P P'
  edgeWeights : Option.Rel (Tensor.Renames σ) q.edgeWeights q'.edgeWeights
  quadratic : (q.quadraticData P.vertexCount).Renames π P.vertexCount
    (q'.quadraticData P.vertexCount)
  targetWeights : Option.Rel (Tensor.Renames π) q.targetWeights q'.targetWeights
  targets : Option.Rel (Tensor.Renames π) q.targets q'.targets
  lower : Option.Rel (Tensor.Renames π) q.lower q'.lower
  upper : Option.Rel (Tensor.Renames π) q.upper q'.upper
  parameters : q' = { q with
    observation := q'.observation
    edgeWeights := q'.edgeWeights
    matrix := q'.matrix
    targetWeights := q'.targetWeights
    targets := q'.targets
    lower := q'.lower
    upper := q'.upper }
  turned : ∀ e < P.edgeCount, flip e = true → q.mergeTolerance = 0

/-- The graphs with the weights that are asked for. -/
theorem Redescribes.renamesGraph {P P' Q Q' : Partition K} (h : Redescribes π σ flip P P' q q')
    (hP : Partition.ofIndex? first adjacent none 0 = .ok P)
    (hP' : Partition.ofIndex? first' adjacent' none 0 = .ok P')
    {each each' : Option (Tensor K)} {common common' : K}
    (hsplit : split? q.edgeWeights 0 = .ok (each, common))
    (hsplit' : split? q'.edgeWeights 0 = .ok (each', common'))
    (hQ : Partition.ofIndex? first adjacent (each.map (·.entries)) common = .ok Q)
    (hQ' : Partition.ofIndex? first' adjacent' (each'.map (·.entries)) common' = .ok Q') :
    RenamesGraph π σ flip Q Q' ∧ Q.graph = P.graph := by
  obtain ⟨G, hG, rfl⟩ := Partition.ofIndex?_eq_ok hP
  obtain ⟨G', hG', rfl⟩ := Partition.ofIndex?_eq_ok hP'
  obtain ⟨H, hH, rfl⟩ := Partition.ofIndex?_eq_ok hQ
  obtain ⟨H', hH', rfl⟩ := Partition.ofIndex?_eq_ok hQ'
  obtain rfl := Except.ok.inj (hG.symm.trans hH)
  obtain rfl := Except.ok.inj (hG'.symm.trans hH')
  refine ⟨h.graph.of_weight rfl rfl fun e _ => ?_, rfl⟩
  obtain ⟨hweights, hcommon⟩ := split?_renames h.edgeWeights hsplit hsplit'
  dsimp only at hweights hcommon
  cases hweights with
  | none => exact hcommon
  | some hweights => exact hweights.entries.entry_eq e

/-- Requests for one problem configure solvers that describe one problem. -/
theorem Redescribes.relabels {P P' : Partition K} (h : Redescribes π σ flip P P' q q')
    (hP : Partition.ofIndex? first adjacent none 0 = .ok P)
    (hP' : Partition.ofIndex? first' adjacent' none 0 = .ok P')
    (hs : q.configure? first adjacent = (events, .ok s))
    (hs' : q'.configure? first' adjacent' = (events', .ok s')) : Relabels π σ flip s s' := by
  rw [h.parameters] at hs'
  obtain ⟨each, common, Q, s₀, s₁, s₂, s₃, hsplit, hQ, hc⟩ := exists_configuresBy hs
  obtain ⟨each', common', Q', t₀, t₁, t₂, t₃, hsplit', hQ', hc'⟩ := exists_configuresBy hs'
  obtain ⟨hgraph, hcount⟩ := h.renamesGraph hP hP' hsplit hsplit' hQ hQ'
  have hturned : ∀ e < Q.edgeCount, flip e = true → q.mergeTolerance = 0 := by
    rw [Partition.edgeCount, hcount]
    exact h.turned
  have hrefined : Relabels π σ flip s₀ t₀ :=
    (relabels_ofPartition hgraph).setRefinement hc.refinement hc'.refinement hturned
  have hvertices : s₀.vertexCount = P.vertexCount := by
    obtain ⟨rfl, -⟩ := setRefinement?_eq_ok hc.refinement
    exact congrArg ForwardStar.vertices hcount
  have hposed : Relabels π σ flip s₁ t₁ := by
    have hdata := h.quadratic
    have hrepresentation : q'.representation = q.representation :=
      (congrArg representation h.parameters :)
    rw [quadraticData, quadraticData, hrepresentation, ← hvertices] at hdata
    exact hrefined.setQuadratic hdata hc.quadratic hc'.quadratic
  obtain ⟨weights, commonWeight, hweights, htargets⟩ := hc.targets
  obtain ⟨weights', commonWeight', hweights', htargets'⟩ := hc'.targets
  obtain ⟨hrel, rfl⟩ := split?_renames h.targetWeights hweights hweights'
  have hdrawn : Relabels π σ flip s₂ t₂ := hposed.setTargets hrel h.targets htargets htargets'
  obtain ⟨lower, commonLower, upper, commonUpper, hlower, hupper, hbounds⟩ := hc.bounds
  obtain ⟨lower', commonLower', upper', commonUpper', hlower', hupper', hbounds'⟩ := hc'.bounds
  obtain ⟨hlow, rfl⟩ := split?_renames h.lower hlower hlower'
  obtain ⟨hupp, rfl⟩ := split?_renames h.upper hupper hupper'
  have hheld : Relabels π σ flip s₃ t₃ := hdrawn.setBounds hlow hupp hbounds hbounds'
  exact hheld.setInner hc.inner hc'.inner

/-! ## Answers -/

/-- The answers to two descriptions of one problem: the rounds and the records are the same, the
regions correspond, and corresponding vertices have the same value. -/
structure Answer.Renames (π : Equiv.Perm ℕ) (n : ℕ) (a a' : Answer K) : Prop where
  rounds : a'.rounds = a.rounds
  history : a'.history = a.history
  regions : ∃ ρ : Equiv.Perm ℕ, TotalVariation.Renames ρ a.x a'.x ∧
    ∀ v < n, a'.assignment.getD (π v) 0 = ρ (a.assignment.getD v 0)
  values : ∀ v < n, Vec.entry a'.x (a'.assignment.getD (π v) 0) =
    Vec.entry a.x (a.assignment.getD v 0)

/-- Three vertices with the given observations, weights of two edges and lower bounds. -/
def path (observation weights lower : Array ℚ) : Request ℚ :=
  { pair observation 1 lower #[8, 8, 8] with
    edgeWeights := some (.ofArray weights)
    recording := ⟨true, false⟩ }

end Request
end TotalVariation
