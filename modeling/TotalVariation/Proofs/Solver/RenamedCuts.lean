import Mathlib
import TotalVariation.Proofs.Partition.RenamedGraph
import TotalVariation.Proofs.Solver.CutEdges

/-! # Cuts under another description

A set of vertices costs as much under other names, whichever end of an edge comes first. There are
in general several cheapest sets; but the least of them is one, so that the edges that are cut do
not depend on the order in which vertices and edges are listed.
-/

namespace TotalVariation.Solver

open TotalVariation.Partition

variable {K : Type} [ExactField K] {π σ : Equiv.Perm ℕ} {flip : ℕ → Bool} {P P' : Partition K}
  {vertices vertices' edges edges' : List ℕ} {price price' : ℕ → Terminal K} {T : Finset ℕ}

theorem exists_map_eq (π : Equiv.Perm ℕ) (U' : Finset ℕ) :
    ∃ U : Finset ℕ, U.map π.toEmbedding = U' := by
  refine ⟨U'.map π.symm.toEmbedding, Finset.ext fun v => ?_⟩
  rw [Finset.mem_map_equiv, Finset.mem_map_equiv, Equiv.symm_symm, Equiv.apply_symm_apply]

theorem mem_map_perm {v : ℕ} : π v ∈ T.map π.toEmbedding ↔ v ∈ T := by
  rw [Finset.mem_map_equiv, Equiv.symm_apply_apply]

/-- Corresponding edges leave corresponding sets. -/
theorem leaves_map (h : RenamesGraph π σ flip P P') {e : ℕ} (he : e < P.edgeCount) :
    P'.leaves (T.map π.toEmbedding) (σ e) = P.leaves T e := by
  have hends : P'.leaves (T.map π.toEmbedding) (σ e) = false ↔ P.leaves T e = false := by
    rw [leaves_eq_false, leaves_eq_false, h.ends_rel
      (r := fun a b => a ∈ T.map π.toEmbedding ↔ b ∈ T.map π.toEmbedding) Iff.symm he,
      mem_map_perm, mem_map_perm]
  exact Bool.not_inj (Bool.coe_false_iff_false.mp hends)

/-- The vertices and edges of one cut problem are those of the other under other names, with the
same prices. -/
structure RenamesCut (π σ : Equiv.Perm ℕ) (vertices vertices' : List ℕ)
    (price price' : ℕ → Terminal K) (edges edges' : List ℕ) : Prop where
  vertices_perm : vertices'.Perm (vertices.map π)
  price_eq : ∀ v ∈ vertices, price' (π v) = price v
  edges_perm : edges'.Perm (edges.map σ)

section Cuts

variable (h : RenamesGraph π σ flip P P')
  (hcut : RenamesCut π σ vertices vertices' price price' edges edges')

include hcut

omit [ExactField K] in
theorem isCutSide_map_iff :
    IsCutSide vertices' price' (T.map π.toEmbedding) ↔ IsCutSide vertices price T := by
  have hmem {v : ℕ} : π v ∈ vertices' ↔ v ∈ vertices := by
    rw [hcut.vertices_perm.mem_iff, List.mem_map_of_injective π.injective]
  constructor
  · intro hT
    refine ⟨fun v hv => hmem.mp (hT.subset _ (mem_map_perm.mpr hv)), fun v hv => ?_⟩
    have hadmits := hT.admits _ (hmem.mpr hv)
    rwa [hcut.price_eq v hv, decide_eq_decide.mpr mem_map_perm] at hadmits
  · intro hT
    constructor
    · intro v' hv'
      obtain ⟨v, rfl⟩ := π.surjective v'
      exact hmem.mpr (hT.subset v (mem_map_perm.mp hv'))
    · intro v' hv'
      obtain ⟨v, rfl⟩ := π.surjective v'
      have hv := hmem.mp hv'
      rw [hcut.price_eq v hv, decide_eq_decide.mpr mem_map_perm]
      exact hT.admits v hv

include h

variable (hlt : ∀ e ∈ edges, e < P.edgeCount)

include hlt

/-- Corresponding sets cost the same. -/
theorem cutCost_map : P'.cutCost vertices' price' edges' (T.map π.toEmbedding) =
    P.cutCost vertices price edges T := by
  rw [cutCost, cutCost, (hcut.vertices_perm.map _).sum_eq, (hcut.edges_perm.map _).sum_eq, List.map_map,
    List.map_map]
  refine congrArg₂ _ (congrArg List.sum (List.map_congr_left fun v hv => ?_))
    (congrArg List.sum (List.map_congr_left fun e he => ?_))
  · rw [Function.comp_apply, hcut.price_eq v hv, decide_eq_decide.mpr mem_map_perm]
  · rw [Function.comp_apply, leaves_map h (hlt e he), h.weight e (hlt e he)]

theorem IsLeastCutSide.map (hT : IsLeastCutSide P vertices price edges T) :
    IsLeastCutSide P' vertices' price' edges' (T.map π.toEmbedding) := by
  have hcost {U : Finset ℕ} := cutCost_map h hcut hlt (T := U)
  refine ⟨(isCutSide_map_iff hcut).mpr hT.isCutSide, fun U' hU' => ?_, fun U' hU' heq => ?_⟩
  · obtain ⟨U, rfl⟩ := exists_map_eq π U'
    rw [hcost, hcost]
    exact hT.le U ((isCutSide_map_iff hcut).mp hU')
  · obtain ⟨U, rfl⟩ := exists_map_eq π U'
    rw [hcost, hcost] at heq
    exact Finset.map_subset_map.mpr (hT.subset_of_eq U ((isCutSide_map_iff hcut).mp hU') heq)

/-- Corresponding edges are cut. -/
theorem exists_cutEdges?_renames (hnodup : vertices.Nodup)
    (hends : ∀ e ∈ edges, P.graph.tailOf e ∈ vertices ∧ P.graph.headOf e ∈ vertices)
    (hweight : ∀ e ∈ edges, 0 ≤ P.weight e) :
    ∃ cut cut', cutEdges? P vertices price edges = .ok cut ∧
      cutEdges? P' vertices' price' edges' = .ok cut' ∧ cut.Sublist edges ∧
      cut'.Perm (cut.map σ) := by
  have hnodup' : vertices'.Nodup := hcut.vertices_perm.nodup_iff.mpr (hnodup.map π.injective)
  have hmem : ∀ v ∈ vertices, π v ∈ vertices' := fun v hv =>
    hcut.vertices_perm.mem_iff.mpr (List.mem_map.mpr ⟨v, hv, rfl⟩)
  have hends' : ∀ e ∈ edges', P'.graph.tailOf e ∈ vertices' ∧ P'.graph.headOf e ∈ vertices' := by
    intro e' he'
    obtain ⟨e, he, rfl⟩ := List.mem_map.mp (hcut.edges_perm.mem_iff.mp he')
    obtain ⟨htail, hhead⟩ := hends e he
    refine (h.ends_rel (r := fun a b => a ∈ vertices' ∧ b ∈ vertices') And.symm (hlt e he)).mpr ?_
    exact ⟨hmem _ htail, hmem _ hhead⟩
  have hweight' : ∀ e ∈ edges', 0 ≤ P'.weight e := by
    intro e' he'
    obtain ⟨e, he, rfl⟩ := List.mem_map.mp (hcut.edges_perm.mem_iff.mp he')
    rw [h.weight e (hlt e he)]
    exact hweight e he
  obtain ⟨T, hT, hok⟩ := cutEdges?_eq_ok price hnodup hends hweight
  obtain ⟨T', hT', hok'⟩ := cutEdges?_eq_ok price' hnodup' hends' hweight'
  obtain rfl : T.map π.toEmbedding = T' := (hT.map h hcut hlt).unique hT'
  refine ⟨_, _, hok, hok', List.filter_sublist, ?_⟩
  refine (hcut.edges_perm.filter _).trans (.of_eq ?_)
  rw [List.filter_map]
  refine congrArg (List.map σ) (List.filter_congr fun e he => ?_)
  exact leaves_map h (hlt e he)

end Cuts
end TotalVariation.Solver
