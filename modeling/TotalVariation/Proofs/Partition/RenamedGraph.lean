import Mathlib
import TotalVariation.Proofs.Partition.Finer
import TotalVariation.Proofs.Partition.Renaming

/-! # Components under another description

A graph can be given with its vertices and edges under other names, and with edges stored in the
opposite direction. Corresponding vertices are then connected together, so that the rebuilt regions
correspond, whatever the order in which the two arenas meet them.
-/

namespace TotalVariation.Partition

variable {K : Type} [ExactField K] {π σ ρ : Equiv.Perm ℕ} {flip : ℕ → Bool}
  {P P' Q Q' : Partition K}

/-- One graph is the other with its vertices and edges renamed and some edges turned around, and the
edges have the same weights. -/
structure RenamesGraph (π σ : Equiv.Perm ℕ) (flip : ℕ → Bool) (P P' : Partition K) : Prop where
  vertexCount_eq : P'.vertexCount = P.vertexCount
  edgeCount_eq : P'.edgeCount = P.edgeCount
  vertices : Preserves π P.vertexCount
  edges : Preserves σ P.edgeCount
  ends : ∀ e < P.edgeCount, (P'.graph.tailOf (σ e), P'.graph.headOf (σ e)) =
    orient (flip e) (π (P.graph.tailOf e), π (P.graph.headOf e))
  weight : ∀ e < P.edgeCount, P'.weight (σ e) = P.weight e

namespace RenamesGraph

variable (h : RenamesGraph π σ flip P P')

include h

/-- The graphs may be given other weights, the same for corresponding edges. -/
theorem of_weight (hgraph : Q.graph = P.graph) (hgraph' : Q'.graph = P'.graph)
    (hweight : ∀ e < P.edgeCount, Q'.weight (σ e) = Q.weight e) : RenamesGraph π σ flip Q Q' := by
  have hvertices : Q.vertexCount = P.vertexCount := congrArg ForwardStar.vertices hgraph
  have hedges : Q.edgeCount = P.edgeCount := congrArg ForwardStar.edges hgraph
  constructor
  · rw [hvertices, ← h.vertexCount_eq]
    exact congrArg ForwardStar.vertices hgraph'
  · rw [hedges, ← h.edgeCount_eq]
    exact congrArg ForwardStar.edges hgraph'
  · rw [hvertices]
    exact h.vertices
  · rw [hedges]
    exact h.edges
  · rw [hedges, hgraph, hgraph']
    exact h.ends
  · rw [hedges]
    exact hweight

/-- Nothing but the graphs and the weights of their edges counts. -/
theorem of_frame (hgraph : Q.graph = P.graph) (hweights : Q.edgeWeights = P.edgeWeights)
    (hgraph' : Q'.graph = P'.graph) (hweights' : Q'.edgeWeights = P'.edgeWeights) :
    RenamesGraph π σ flip Q Q' := by
  refine h.of_weight hgraph hgraph' fun e he => ?_
  simp only [Partition.weight, hweights, hweights']
  exact h.weight e he

theorem ends_eq {e : ℕ} (he : e < P.edgeCount) :
    (P'.graph.tailOf (σ e) = π (P.graph.tailOf e) ∧
        P'.graph.headOf (σ e) = π (P.graph.headOf e)) ∨
      (P'.graph.tailOf (σ e) = π (P.graph.headOf e) ∧
        P'.graph.headOf (σ e) = π (P.graph.tailOf e)) :=
  eq_or_eq_of_orient (h.ends e he)

theorem edge_lt_iff (e : ℕ) : σ e < P'.edgeCount ↔ e < P.edgeCount := by
  rw [h.edgeCount_eq]
  exact h.edges e

theorem vertex_lt_iff (v : ℕ) : π v < P'.vertexCount ↔ v < P.vertexCount := by
  rw [h.vertexCount_eq]
  exact h.vertices v

theorem symm : RenamesGraph π.symm σ.symm (fun e => flip (σ.symm e)) P' P where
  vertexCount_eq := h.vertexCount_eq.symm
  edgeCount_eq := h.edgeCount_eq.symm
  vertices := h.vertexCount_eq.symm ▸ h.vertices.symm
  edges := h.edgeCount_eq.symm ▸ h.edges.symm
  ends := by
    intro e he
    have hends := h.ends (σ.symm e) ((h.edges.symm e).mpr (h.edgeCount_eq ▸ he))
    rw [σ.apply_symm_apply] at hends
    unfold orient at hends ⊢
    split at hends
    all_goals
      next hflip =>
        obtain ⟨htail, hhead⟩ := Prod.mk.inj hends
        simp [hflip, htail, hhead]
  weight := by
    intro e he
    have hweight := h.weight (σ.symm e) ((h.edges.symm e).mpr (h.edgeCount_eq ▸ he))
    rw [σ.apply_symm_apply] at hweight
    exact hweight.symm

/-- A test of the two ends of an edge that does not tell them apart. -/
theorem ends_rel {r : ℕ → ℕ → Prop} (hsymm : ∀ {a b}, r a b → r b a) {e : ℕ}
    (he : e < P.edgeCount) :
    r (P'.graph.tailOf (σ e)) (P'.graph.headOf (σ e)) ↔
      r (π (P.graph.tailOf e)) (π (P.graph.headOf e)) := by
  rcases h.ends_eq he with ⟨htail, hhead⟩ | ⟨htail, hhead⟩
  · rw [htail, hhead]
  · rw [htail, hhead]
    exact ⟨hsymm, hsymm⟩

/-! ## Connected vertices -/

theorem connected_of_connected (hactive : ∀ e < P.edgeCount, P'.isActive (σ e) = P.isActive e)
    {u v : ℕ} (huv : P.Connected u v) : P'.Connected (π u) (π v) := by
  induction huv with
  | rel a b hab =>
      obtain ⟨e, he, heq⟩ := List.mem_map.mp hab
      obtain ⟨rfl, rfl⟩ := Prod.mk.inj heq
      obtain ⟨hlt, hopen⟩ := mem_inactiveEdges.mp he
      refine (h.ends_rel (r := P'.Connected) (fun hab => hab.symm) hlt).mp ?_
      exact connected_of_inactive ((h.edge_lt_iff e).mpr hlt) ((hactive e hlt).trans hopen)
  | refl => exact Relation.EqvGen.refl _
  | symm _ _ _ ih => exact ih.symm
  | trans _ _ _ _ _ hab hbc => exact hab.trans _ _ _ hbc

/-- Corresponding vertices are connected together. -/
theorem connected_iff (hactive : ∀ e < P.edgeCount, P'.isActive (σ e) = P.isActive e) {u v : ℕ} :
    P'.Connected (π u) (π v) ↔ P.Connected u v := by
  refine ⟨fun huv => ?_, h.connected_of_connected hactive⟩
  have hback := h.symm.connected_of_connected (u := π u) (v := π v) ?_ huv
  · rwa [π.symm_apply_apply, π.symm_apply_apply] at hback
  · intro e he
    have hsame := hactive (σ.symm e) ((h.edges.symm e).mpr (h.edgeCount_eq ▸ he))
    rw [σ.apply_symm_apply] at hsame
    exact hsame.symm

end RenamesGraph

/-! ## Corresponding regions -/

/-- Corresponding vertices share a region together. -/
def DividesAlike (π : Equiv.Perm ℕ) (P P' : Partition K) : Prop :=
  ∀ u < P.vertexCount, ∀ v < P.vertexCount,
    (P'.regionOf (π u) = P'.regionOf (π v) ↔ P.regionOf u = P.regionOf v)

omit [ExactField K] in
theorem DividesAlike.symm (h : DividesAlike π P P') (hcount : P'.vertexCount = P.vertexCount)
    (hvertices : Preserves π P.vertexCount) : DividesAlike π.symm P' P := by
  intro u hu v hv
  have hsame := h (π.symm u) ((hvertices.symm u).mpr (hcount ▸ hu)) (π.symm v)
    ((hvertices.symm v).mpr (hcount ▸ hv))
  rw [π.apply_symm_apply, π.apply_symm_apply] at hsame
  exact hsame.symm

/-- The region of the second partition that corresponds to a region of the first. -/
def counterpart (π : Equiv.Perm ℕ) (P P' : Partition K) (r : ℕ) : ℕ :=
  P'.regionOf (π (P.representative r))

section Counterparts

variable (hP : P.IsConsistent) (hP' : P'.IsConsistent) (hcount : P'.vertexCount = P.vertexCount)
  (hvertices : Preserves π P.vertexCount) (hdivides : DividesAlike π P P')

include hP hdivides

omit [ExactField K] in
theorem eq_of_counterpart_eq {r s : ℕ} (hr : r < P.regionCount) (hs : s < P.regionCount)
    (h : counterpart π P P' r = counterpart π P P' s) : r = s := by
  obtain ⟨hrlt, hrregion⟩ := hP.regionOf_representative hr
  obtain ⟨hslt, hsregion⟩ := hP.regionOf_representative hs
  rw [← hrregion, ← hsregion]
  exact (hdivides _ hrlt _ hslt).mp h

include hP' hcount hvertices

omit [ExactField K] hdivides in
theorem counterpart_lt {r : ℕ} (hr : r < P.regionCount) :
    counterpart π P P' r < P'.regionCount := by
  obtain ⟨hrlt, -⟩ := hP.regionOf_representative hr
  exact hP'.regionOf_lt (hcount ▸ (hvertices _).mpr hrlt)

omit [ExactField K] in
theorem regionCount_le_of_dividesAlike : P.regionCount ≤ P'.regionCount := by
  have hcard := Finset.card_le_card_of_injOn (s := Finset.range P.regionCount)
    (t := Finset.range P'.regionCount) (counterpart π P P')
    (fun r hr => Finset.mem_coe.mpr (Finset.mem_range.mpr
      (counterpart_lt hP hP' hcount hvertices (Finset.mem_range.mp hr))))
    (fun r hr s hs => eq_of_counterpart_eq hP hdivides (Finset.mem_range.mp hr)
      (Finset.mem_range.mp hs))
  rwa [Finset.card_range, Finset.card_range] at hcard

omit [ExactField K] in
/-- Partitions that divide corresponding vertices alike have corresponding regions. -/
theorem exists_renamesRegions : ∃ ρ, RenamesRegions π ρ P P' := by
  have hregions : P'.regionCount = P.regionCount :=
    le_antisymm (regionCount_le_of_dividesAlike hP' hP hcount.symm (hcount.symm ▸ hvertices.symm)
      (hdivides.symm hcount hvertices))
      (regionCount_le_of_dividesAlike hP hP' hcount hvertices hdivides)
  obtain ⟨ρ, hρ, heq⟩ := Preserves.exists_perm (f := counterpart π P P')
    (fun r hr => hregions ▸ counterpart_lt hP hP' hcount hvertices hr)
    fun r hr s hs => eq_of_counterpart_eq hP hdivides hr hs
  refine ⟨ρ, hcount, hregions, hvertices, hρ, fun v hv => ?_⟩
  have hr := hP.regionOf_lt hv
  obtain ⟨hrlt, hrregion⟩ := hP.regionOf_representative hr
  rw [heq _ hr]
  exact (hdivides v hv _ hrlt).mpr hrregion.symm

end Counterparts

omit [ExactField K] in
theorem RenamesRegions.dividesAlike (h : RenamesRegions π ρ P P') : DividesAlike π P P' := by
  intro u hu v hv
  rw [h.regionOf_eq u hu, h.regionOf_eq v hv, EmbeddingLike.apply_eq_iff_eq]

namespace RenamesGraph

variable (h : RenamesGraph π σ flip P P')

include h

/-- Corresponding edges separate regions together. -/
theorem separates_eq (hP : P.graph.IsValid) (hdivides : DividesAlike π P P') {e : ℕ}
    (he : e < P.edgeCount) : P'.separates (σ e) = P.separates e := by
  rw [Bool.eq_iff_iff, separates_iff, separates_iff,
    h.ends_rel (r := fun a b => P'.regionOf a ≠ P'.regionOf b) Ne.symm he]
  exact not_congr (hdivides _ (hP.tail_lt e he) _ (hP.head_lt e he))

/-- In consistent partitions that divide alike the same edges are active. -/
theorem isActive_eq (hP : P.IsConsistent) (hP' : P'.IsConsistent) (hdivides : DividesAlike π P P')
    {e : ℕ} (he : e < P.edgeCount) : P'.isActive (σ e) = P.isActive e := by
  rw [Bool.eq_iff_iff, hP.isActive_iff e he, hP'.isActive_iff _ ((h.edge_lt_iff e).mpr he),
    ← separates_iff, ← separates_iff, h.separates_eq hP.graph_valid hdivides he]

/-- The rebuilt regions correspond if the same edges are active. -/
theorem dividesAlike_rebuild (hP : P.IsArranged) (hP' : P'.IsArranged)
    (hactive : ∀ e < P.edgeCount, P'.isActive (σ e) = P.isActive e) :
    DividesAlike π P.rebuild P'.rebuild := by
  intro u hu v hv
  rw [hP.rebuild_regionOf_eq_iff hu hv, hP'.rebuild_regionOf_eq_iff ((h.vertex_lt_iff u).mpr hu)
    ((h.vertex_lt_iff v).mpr hv)]
  exact h.connected_iff hactive

end RenamesGraph

end TotalVariation.Partition
