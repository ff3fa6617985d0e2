import Mathlib
import TotalVariation.Proofs.Numeric.Renaming
import TotalVariation.Proofs.Partition.Values

/-! # Partitions under another description

Two partitions divide the vertices of a graph alike under other names of the vertices. Their regions
then correspond, and what is gathered over corresponding regions is the same.
-/

namespace TotalVariation.Partition

variable {α : Type} {π ρ : Equiv.Perm ℕ} {P P' : Partition α}

/-- One partition is the other with its vertices and regions renamed. -/
structure RenamesRegions (π ρ : Equiv.Perm ℕ) (P P' : Partition α) : Prop where
  vertexCount_eq : P'.vertexCount = P.vertexCount
  regionCount_eq : P'.regionCount = P.regionCount
  vertices : Preserves π P.vertexCount
  regions : Preserves ρ P.regionCount
  regionOf_eq : ∀ v < P.vertexCount, P'.regionOf (π v) = ρ (P.regionOf v)

namespace RenamesRegions

theorem refl (P : Partition α) : RenamesRegions (Equiv.refl ℕ) (Equiv.refl ℕ) P P :=
  ⟨rfl, rfl, .refl _, .refl _, fun _ _ => rfl⟩

theorem mem_members_iff (h : RenamesRegions π ρ P P') {r v : ℕ} :
    π v ∈ P'.members (ρ r) ↔ v ∈ P.members r := by
  rw [mem_members, mem_members, h.vertexCount_eq, h.vertices v]
  refine and_congr_right fun hv => ?_
  rw [h.regionOf_eq v hv, EmbeddingLike.apply_eq_iff_eq]

/-- A sum over a region does not depend on the names. -/
theorem sum_members {M : Type} [AddCommMonoid M] (h : RenamesRegions π ρ P P') {f f' : ℕ → M}
    (hf : ∀ v < P.vertexCount, f' (π v) = f v) (r : ℕ) :
    ∑ v ∈ P'.members (ρ r), f' v = ∑ v ∈ P.members r, f v :=
  (Finset.sum_equiv π (fun _ => h.mem_members_iff.symm)
    fun v hv => (hf v (mem_members.mp hv).1).symm).symm

variable {K : Type} [ExactField K] {P P' : Partition K}

theorem expand_renames (h : RenamesRegions π ρ P P') {x x' : Vec K} (hx : Renames ρ x x') :
    Renames π (P.expand x) (P'.expand x') := by
  rw [expand, expand, h.vertexCount_eq]
  refine .tabulate h.vertices fun v hv => ?_
  rw [h.regionOf_eq v hv, hx.entry_eq]

theorem regionSums_renames (h : RenamesRegions π ρ P P') {values values' : Vec K}
    (hvalues : Renames π values values') : Renames ρ (P.regionSums values) (P'.regionSums values') := by
  refine .of_entry h.regions (P.size_regionSums values)
    ((P'.size_regionSums values').trans h.regionCount_eq) fun r hr => ?_
  have hr' : ρ r < P'.regionCount := h.regionCount_eq ▸ (h.regions r).mpr hr
  rw [P.entry_regionSums values hr, P'.entry_regionSums values' hr']
  exact h.sum_members (fun v _ => hvalues.entry_eq v) r

end RenamesRegions
end TotalVariation.Partition
