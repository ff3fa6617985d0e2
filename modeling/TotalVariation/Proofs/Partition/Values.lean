import Mathlib
import TotalVariation.Proofs.Numeric.Exact
import TotalVariation.Proofs.Partition.Coherent

/-! # Sums over regions

In exact arithmetic the sums, sizes and means over the regions of a consistent partition are those
over the sets of their vertices, whichever way they are computed.
-/

namespace TotalVariation.Partition

/-- The set of the vertices of a region. -/
def members {α : Type} (P : Partition α) (r : Nat) : Finset Nat :=
  {v ∈ Finset.range P.vertexCount | P.regionOf v = r}

@[simp] theorem mem_members {α : Type} {P : Partition α} {r v : Nat} :
    v ∈ P.members r ↔ v < P.vertexCount ∧ P.regionOf v = r := by
  simp [members]

section Lists

variable {α : Type} {P : Partition α}

theorem IsConsistent.mem_region_iff (h : P.IsConsistent) {r v : Nat} (hr : r < P.regionCount) :
    v ∈ P.region r ↔ v ∈ P.members r := by
  rw [h.mem_region r hr, mem_members]

theorem IsArranged.nodup_region (h : P.IsArranged) {r : Nat} (hr : r < P.regionCount) :
    (P.region r).Nodup := by
  have hmem : P.region r ∈ P.regions := by
    have hr' : r < P.regions.length := hr
    simp [region, hr']
  exact (List.nodup_flatten.mp h.nodup_arena).1 _ hmem

theorem IsIndexed.toFinset_region (h : P.IsIndexed) {r : Nat} (hr : r < P.regionCount) :
    (P.region r).toFinset = P.members r := by
  ext v
  rw [List.mem_toFinset, h r hr, mem_members]

theorem IsArranged.sizeOf_eq (h : P.IsArranged) (hindexed : P.IsIndexed) {r : Nat}
    (hr : r < P.regionCount) : P.sizeOf r = (P.members r).card := by
  rw [← hindexed.toFinset_region hr, List.toFinset_card_of_nodup (h.nodup_region hr), sizeOf]

theorem IsConsistent.sizeOf_eq (h : P.IsConsistent) {r : Nat} (hr : r < P.regionCount) :
    P.sizeOf r = (P.members r).card :=
  h.toIsArranged.sizeOf_eq h.isIndexed hr

theorem IsConsistent.members_nonempty (h : P.IsConsistent) {r : Nat} (hr : r < P.regionCount) :
    (P.members r).Nonempty := by
  obtain ⟨v, hv⟩ := List.exists_mem_of_ne_nil _ (h.toIsArranged.region_ne_nil' hr)
  exact ⟨v, (h.mem_region_iff hr).mp hv⟩

end Lists

variable {K : Type} [ExactField K] {P : Partition K}

@[simp] theorem size_expand (P : Partition K) (x : Vec K) : (P.expand x).size = P.vertexCount :=
  Vec.size_tabulate _ _

theorem entry_regionSums (P : Partition K) (values : Vec K) {r : Nat} (hr : r < P.regionCount) :
    Vec.entry (P.regionSums values) r = ∑ v ∈ P.members r, Vec.entry values v := by
  rw [regionSums, Vec.entry_scatter _ _ _ hr, members, Finset.sum_filter]

/-- The mean over a region of values that do not differ there is their common value. -/
theorem IsConsistent.entry_regionMeans (h : P.IsConsistent) {values : Vec K} {r : Nat}
    (hr : r < P.regionCount) {c : K} (hc : ∀ v ∈ P.members r, Vec.entry values v = c) :
    Vec.entry (P.regionMeans values) r = c := by
  rw [regionMeans, Vec.entry_tabulate, if_pos hr, entry_regionSums P values hr,
    Finset.sum_congr rfl hc, Finset.sum_const, h.sizeOf_eq hr, nsmul_eq_mul]
  have hcard : (0 : K) < (P.members r).card :=
    Nat.cast_pos.mpr (Finset.card_pos.mpr (h.members_nonempty hr))
  exact mul_div_cancel_left₀ c hcard.ne'

end TotalVariation.Partition
