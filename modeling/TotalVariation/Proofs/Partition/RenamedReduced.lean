import Mathlib
import TotalVariation.Proofs.Partition.Reduced
import TotalVariation.Proofs.Partition.RenamedGraph

/-! # Regions and their graph under another description

Corresponding regions list corresponding vertices, in whatever order. Their graphs have
corresponding edges with the same weights; an edge between two regions is stored from the smaller
number to the larger, so that it may be turned around where the numbers change.
-/

namespace TotalVariation.Partition

variable {α : Type} {π σ ρ : Equiv.Perm ℕ} {flip : ℕ → Bool}

/-! ## Regions -/

namespace RenamesRegions

variable {P P' : Partition α}

theorem symm (h : RenamesRegions π ρ P P') : RenamesRegions π.symm ρ.symm P' P where
  vertexCount_eq := h.vertexCount_eq.symm
  regionCount_eq := h.regionCount_eq.symm
  vertices := h.vertexCount_eq.symm ▸ h.vertices.symm
  regions := h.regionCount_eq.symm ▸ h.regions.symm
  regionOf_eq := by
    intro v hv
    have hregion := h.regionOf_eq _ ((h.vertices.symm v).mpr (h.vertexCount_eq ▸ hv))
    rw [π.apply_symm_apply] at hregion
    rw [hregion, ρ.symm_apply_apply]

theorem region_lt (h : RenamesRegions π ρ P P') {r : ℕ} (hr : r < P.regionCount) :
    ρ r < P'.regionCount :=
  h.regionCount_eq ▸ (h.regions r).mpr hr

variable (h : RenamesRegions π ρ P P') (hP : P.IsConsistent) (hP' : P'.IsConsistent)

include h hP hP'

/-- Corresponding regions list corresponding vertices. -/
theorem region_perm {r : ℕ} (hr : r < P.regionCount) :
    (P'.region (ρ r)).Perm ((P.region r).map π) := by
  refine (List.perm_ext_iff_of_nodup (hP'.nodup_region (h.region_lt hr))
    ((hP.nodup_region hr).map π.injective)).mpr fun v' => ?_
  obtain ⟨v, rfl⟩ := π.surjective v'
  rw [hP'.mem_region_iff (h.region_lt hr), h.mem_members_iff, List.mem_map_of_injective π.injective,
    hP.mem_region_iff hr]

theorem sizeOf_eq {r : ℕ} (hr : r < P.regionCount) : P'.sizeOf (ρ r) = P.sizeOf r := by
  rw [sizeOf, sizeOf, (h.region_perm hP hP' hr).length_eq, List.length_map]

end RenamesRegions

/-- Corresponding regions have the same means. -/
theorem RenamesRegions.regionMeans_renames {K : Type} [ExactField K] {P P' : Partition K}
    (h : RenamesRegions π ρ P P') (hP : P.IsConsistent) (hP' : P'.IsConsistent) {y y' : Vec K}
    (hy : Renames π y y') : Renames ρ (P.regionMeans y) (P'.regionMeans y') := by
  rw [regionMeans, regionMeans, h.regionCount_eq]
  refine .tabulate h.regions fun r hr => ?_
  rw [(h.regionSums_renames hy).entry_eq, h.sizeOf_eq hP hP' hr]

/-! ## The graph of the regions -/

/-- The pair of the new names of two regions, in order. -/
def renamedPair (ρ : Equiv.Perm ℕ) (p : ℕ × ℕ) : ℕ × ℕ :=
  orient (decide (ρ p.2 < ρ p.1)) (ρ p.1, ρ p.2)

theorem renamedPair_cases {p : ℕ × ℕ} (hlt : p.1 < p.2) :
    (renamedPair ρ p).1 < (renamedPair ρ p).2 ∧
      (renamedPair ρ p = (ρ p.1, ρ p.2) ∨ renamedPair ρ p = (ρ p.2, ρ p.1)) := by
  rcases lt_or_gt_of_ne (ρ.injective.ne hlt.ne) with hup | hdown
  · rw [renamedPair, decide_eq_false hup.le.not_gt]
    exact ⟨hup, .inl rfl⟩
  · rw [renamedPair, decide_eq_true hdown]
    exact ⟨hdown, .inr rfl⟩

theorem renamedPair_symm {p : ℕ × ℕ} (hlt : p.1 < p.2) :
    renamedPair ρ.symm (renamedPair ρ p) = p := by
  obtain ⟨-, heq | heq⟩ := renamedPair_cases (ρ := ρ) hlt
  all_goals
    rw [heq, renamedPair, ρ.symm_apply_apply, ρ.symm_apply_apply]
  · rw [decide_eq_false hlt.le.not_gt]
    rfl
  · rw [decide_eq_true hlt]
    rfl

/-- Places of two lists without duplicates that have the same members under other names. -/
theorem exists_renames_of_nodup {β : Type} {a a' : Array β} (default : β)
    (f : β → β) (hnodup : a.toList.Nodup) (hsize : a'.size = a.size) (hmem : ∀ b ∈ a, f b ∈ a')
    (hinj : ∀ b ∈ a, ∀ c ∈ a, f b = f c → b = c) :
    ∃ τ : Equiv.Perm ℕ, Preserves τ a.size ∧
      ∀ k < a.size, a'.getD (τ k) default = f (a.getD k default) := by
  have hget : ∀ {k}, k < a.size → a.getD k default ∈ a := fun hk => by simp [hk]
  have hplace : ∀ k < a.size, ∃ l < a.size, a'.getD l default = f (a.getD k default) := by
    intro k hk
    obtain ⟨l, hl, heq⟩ := Array.mem_iff_getElem.mp (hmem _ (hget hk))
    exact ⟨l, hsize ▸ hl, by rw [← heq]; simp [hl]⟩
  choose! place hlt hvalue using hplace
  obtain ⟨τ, hτ, heq⟩ := Preserves.exists_perm (f := place) hlt fun k hk l hl hkl => by
    have hsame := hinj _ (hget hk) _ (hget hl) (by rw [← hvalue k hk, hkl, hvalue l hl])
    have hk' : k < a.toList.length := hk
    have hl' : l < a.toList.length := hl
    have hsame' : a.toList[k] = a.toList[l] := by simpa [hk, hl] using hsame
    exact hnodup.getElem_inj_iff.mp hsame'
  exact ⟨τ, hτ, fun k hk => by rw [heq k hk, hvalue k hk]⟩

section Edges

variable {K : Type} [ExactField K] {P P' : Partition K} (h : RenamesGraph π σ flip P P')
  (hregions : RenamesRegions π ρ P P')

include h hregions

/-- An edge joins corresponding regions. -/
theorem joins_renames (hvalid : P.graph.IsValid) {r s e : ℕ} (he : e < P.edgeCount) :
    P'.joins (ρ r) (ρ s) (σ e) = P.joins r s e := by
  rw [Bool.eq_iff_iff, joins_iff, joins_iff,
    h.ends_rel (r := fun a b => (P'.regionOf a = ρ r ∧ P'.regionOf b = ρ s) ∨
      (P'.regionOf a = ρ s ∧ P'.regionOf b = ρ r)) (fun hab => hab.symm.imp And.symm And.symm) he,
    hregions.regionOf_eq _ (hvalid.tail_lt e he), hregions.regionOf_eq _ (hvalid.head_lt e he)]
  simp only [EmbeddingLike.apply_eq_iff_eq]

omit h hregions [ExactField K] in
theorem joins_comm (P : Partition K) (r s e : ℕ) : P.joins r s e = P.joins s r e := by
  rw [Bool.eq_iff_iff, joins_iff, joins_iff]
  exact or_comm

theorem joins_renamedPair (hvalid : P.graph.IsValid) {p : ℕ × ℕ} (hlt : p.1 < p.2) {e : ℕ}
    (he : e < P.edgeCount) :
    P'.joins (renamedPair ρ p).1 (renamedPair ρ p).2 (σ e) = P.joins p.1 p.2 e := by
  obtain ⟨-, heq | heq⟩ := renamedPair_cases (ρ := ρ) hlt
  · rw [heq, joins_renames h hregions hvalid he]
  · rw [heq, joins_renames h hregions hvalid he, joins_comm]

theorem mem_reducedEdges_renames (hP : P.IsConsistent) (hgraph : P.HasReducedGraph)
    (hgraph' : P'.HasReducedGraph) {p : ℕ × ℕ} (hp : p ∈ P.reducedEdges) :
    renamedPair ρ p ∈ P'.reducedEdges := by
  obtain ⟨hlt, e, he, hjoin⟩ := (hgraph.mem_reducedEdges p.1 p.2).mp hp
  refine (hgraph'.mem_reducedEdges (renamedPair ρ p).1 (renamedPair ρ p).2).mpr
    ⟨(renamedPair_cases hlt).1, σ e, (h.edge_lt_iff e).mpr he, ?_⟩
  rw [joins_renamedPair h hregions hP.graph_valid hlt he, hjoin]

theorem weightBetween_renames (hvalid : P.graph.IsValid) {p : ℕ × ℕ} (hlt : p.1 < p.2) :
    P'.weightBetween (renamedPair ρ p).1 (renamedPair ρ p).2 = P.weightBetween p.1 p.2 := by
  rw [weightBetween, weightBetween, h.edgeCount_eq]
  refine h.edges.sum_range fun e he => ?_
  rw [joins_renamedPair h hregions hvalid hlt he, h.weight e he]

variable (hP : P.IsCoherent) (hP' : P'.IsCoherent)

include hP hP'

/-- The graphs of corresponding regions have as many edges. -/
theorem reducedEdges_size_eq : P'.reducedEdges.size = P.reducedEdges.size := by
  have hsize {Q : Partition K} (hQ : Q.IsCoherent) :
      Q.reducedEdges.toList.toFinset.card = Q.reducedEdges.size :=
    List.toFinset_card_of_nodup hQ.nodup_reducedEdges
  have hordered {Q : Partition K} (hQ : Q.IsCoherent) {p : ℕ × ℕ}
      (hp : p ∈ Q.reducedEdges.toList.toFinset) : p ∈ Q.reducedEdges ∧ p.1 < p.2 := by
    have hmem : p ∈ Q.reducedEdges := Array.mem_def.mpr (List.mem_toFinset.mp hp)
    exact ⟨hmem, ((hQ.mem_reducedEdges p.1 p.2).mp hmem).1⟩
  rw [← hsize hP, ← hsize hP']
  refine Finset.card_nbij' (renamedPair ρ.symm) (renamedPair ρ) (fun p hp => ?_) (fun p hp => ?_)
    (fun p hp => ?_) fun p hp => ?_
  · exact List.mem_toFinset.mpr (Array.mem_def.mp (mem_reducedEdges_renames h.symm hregions.symm
      hP'.toIsConsistent hP'.toHasReducedGraph hP.toHasReducedGraph (hordered hP' hp).1))
  · exact List.mem_toFinset.mpr (Array.mem_def.mp (mem_reducedEdges_renames h hregions
      hP.toIsConsistent hP.toHasReducedGraph hP'.toHasReducedGraph (hordered hP hp).1))
  · exact renamedPair_symm (ρ := ρ.symm) (hordered hP' hp).2
  · exact renamedPair_symm (hordered hP hp).2

/-- The graphs of corresponding regions have corresponding edges with the same weights. -/
theorem exists_reducedEdges_renames (hweights : P.HasReducedWeights)
    (hweights' : P'.HasReducedWeights) :
    ∃ (τ : Equiv.Perm ℕ) (flipped : ℕ → Bool), Preserves τ P.reducedEdges.size ∧
      ∀ k < P.reducedEdges.size,
        P'.reducedEdges.getD (τ k) (0, 0) = orient (flipped k)
            (ρ (P.reducedEdges.getD k (0, 0)).1, ρ (P.reducedEdges.getD k (0, 0)).2) ∧
          Vec.entry P'.reducedWeights (τ k) = Vec.entry P.reducedWeights k := by
  have hsize := reducedEdges_size_eq h hregions hP hP'
  have hordered : ∀ {p : ℕ × ℕ}, p ∈ P.reducedEdges → p.1 < p.2 :=
    fun {p} hp => ((hP.mem_reducedEdges p.1 p.2).mp hp).1
  obtain ⟨τ, hτ, hedges⟩ := exists_renames_of_nodup (0, 0) (renamedPair ρ) hP.nodup_reducedEdges
    hsize
    (fun p hp => mem_reducedEdges_renames h hregions hP.toIsConsistent hP.toHasReducedGraph
      hP'.toHasReducedGraph hp)
    fun p hp q hq heq => by
      rw [← renamedPair_symm (ρ := ρ) (hordered hp), heq, renamedPair_symm (hordered hq)]
  refine ⟨τ, fun k => decide (ρ (P.reducedEdges.getD k (0, 0)).2 <
    ρ (P.reducedEdges.getD k (0, 0)).1), hτ, fun k hk => ⟨hedges k hk, ?_⟩⟩
  have hmem : P.reducedEdges.getD k (0, 0) ∈ P.reducedEdges := by simp [hk]
  rw [hweights k hk, hweights' _ (hsize ▸ (hτ k).mpr hk), hedges k hk,
    weightBetween_renames h hregions hP.graph_valid (hordered hmem)]

end Edges
end TotalVariation.Partition
