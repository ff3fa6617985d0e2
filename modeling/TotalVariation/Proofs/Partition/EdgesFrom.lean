import Mathlib
import TotalVariation.Partition.Values
import TotalVariation.Proofs.Failure
import TotalVariation.Proofs.Partition.Rebuild

/-! # The edges that start from given vertices

The edges of several vertices are found all at once from the index of first edges: the start of each
vertex is shifted by the number of edges found before, the shift stands once for each edge of the
vertex, and the numbers of the edges found are added. What comes out is what the vertices have one
after the other, whatever their order, with the edges of a vertex again where the vertex comes
again.
-/

namespace TotalVariation

namespace ForwardStar

/-! ## Positions in ranges -/

section Ranges

variable {α β : Type}

theorem shifts_cons (before a n : Int) (starts counts : List Int) :
    shifts before (a :: starts) (n :: counts) =
      (a - (before + n) + n) :: shifts (before + n) starts counts := rfl

theorem repeatEach_cons (x : β) (n : Nat) (xs : List β) (counts : List Int) :
    repeatEach (x :: xs) (n :: counts) = List.replicate n x ++ repeatEach xs counts := rfl

theorem repeatEach?_eq_ok (xs : List β) {counts : List Int} (h : ∀ n ∈ counts, 0 ≤ n) :
    repeatEach? (α := α) xs counts = .ok (repeatEach xs counts) := by
  rw [repeatEach?, if_neg]
  · rfl
  · simpa using h

/-- The numbers of the places of a range, added to the shift of the range, are its positions. -/
theorem zipWith_replicate_shift (before n : Nat) (a : Int) :
    List.zipWith (· + ·) (List.replicate n (a - (before + n) + n))
        ((List.range' before n).map Int.ofNat) =
      (List.range n).map fun i => a + Int.ofNat i := by
  apply List.ext_getElem
  · simp
  · intro i _ _
    simp
    omega

/-- Where the places of several ranges are numbered on from `before`, the shifts of the ranges lead
to the positions in each of them. -/
theorem zipWith_repeatEach_shifts (start : β → Int) (count : β → Nat) (xs : List β)
    (before : Nat) :
    List.zipWith (· + ·)
        (repeatEach (shifts before (xs.map start) (xs.map fun x => Int.ofNat (count x)))
          (xs.map fun x => Int.ofNat (count x)))
        ((List.range' before (xs.map count).sum).map Int.ofNat) =
      xs.flatMap fun x => (List.range (count x)).map fun i => start x + Int.ofNat i := by
  induction xs generalizing before with
  | nil => rfl
  | cons x xs ih =>
      have hrest := ih (before + count x)
      simp only [List.map_cons, List.sum_cons, List.flatMap_cons, shifts_cons]
      rw [← List.range'_append_1, List.map_append, Int.ofNat_eq_natCast, repeatEach_cons,
        List.zipWith_append (by simp), zipWith_replicate_shift, ← hrest]
      simp

theorem foldl_counts (count : β → Nat) (xs : List β) :
    (xs.map fun x => Int.ofNat (count x)).foldl (· + ·) 0 = Int.ofNat (xs.map count).sum := by
  rw [← List.sum_eq_foldl, Int.ofNat_eq_natCast, Nat.cast_list_sum, List.map_map]
  rfl

/-- The positions in several ranges are those of each range, one range after the other. -/
theorem rangePositions?_map (start : β → Int) (count : β → Nat) (xs : List β) :
    rangePositions? (α := α) (xs.map start) (xs.map fun x => Int.ofNat (count x)) =
      .ok (xs.flatMap fun x => (List.range (count x)).map fun i => start x + Int.ofNat i) := by
  dsimp only [rangePositions?]
  rw [foldl_counts]
  split
  next htotal =>
    -- without any place every range is empty
    have hsum : (xs.map count).sum = 0 := Int.ofNat_eq_zero.mp htotal
    have hempty : ∀ x ∈ xs, count x = 0 := by simpa [List.sum_eq_zero_iff] using hsum
    have hnil : (xs.flatMap fun x =>
        (List.range (count x)).map fun i => start x + Int.ofNat i) = [] := by
      rw [List.flatMap_eq_nil_iff]
      intro x hx
      simp [hempty x hx]
    rw [hnil]
    rfl
  next =>
    rw [repeatEach?_eq_ok _ (by simp), ok_bind, List.range_eq_range']
    exact congrArg Except.ok (zipWith_repeatEach_shifts start count xs 0)

end Ranges

end ForwardStar

namespace Partition

variable {α : Type} {P : Partition α} {vertices : List Nat}

/-! ## The edges of a list of vertices -/

theorem places?_map_ofNat {n : Nat} (h : ∀ v ∈ vertices, v < n) :
    places? (α := α) n (vertices.map Int.ofNat) = .ok vertices := by
  rw [places?, List.mapM_map, mapM_map_eq_ok (g := id), List.map_id]
  intro v hv
  simp only [Function.comp_apply, position?_ofNat (h v hv)]
  rfl

/-- What is found all at once are the edges of each vertex, one vertex after the other. -/
theorem edgesFrom?_map_ofNat [Scalar α] (hlt : ∀ v ∈ vertices, v < P.vertexCount)
    (hle : ∀ v ∈ vertices, P.graph.firstOf v ≤ P.graph.firstOf (v + 1)) :
    P.edgesFrom? (vertices.map Int.ofNat) = .ok (P.edgesFrom vertices) := by
  have hplace : ∀ v ∈ vertices, v + 1 < P.graph.first.size := by
    intro v hv
    have := hlt v hv
    simp only [vertexCount, ForwardStar.vertices] at this
    omega
  have hnext : (vertices.map Int.ofNat).map (· + 1) = (vertices.map (· + 1)).map Int.ofNat := by
    simp
  have hcounts : List.zipWith (· - ·)
      ((vertices.map (· + 1)).map fun v => Int.ofNat (P.graph.firstOf v))
      (vertices.map fun v => Int.ofNat (P.graph.firstOf v)) =
        vertices.map fun v => Int.ofNat (P.graph.firstOf (v + 1) - P.graph.firstOf v) := by
    rw [List.map_map, List.zipWith_map, List.zipWith_self]
    apply List.map_congr_left
    intro v hv
    have := hle v hv
    simp only [Function.comp_apply, Int.ofNat_eq_natCast]
    omega
  rw [edgesFrom?, places?_map_ofNat fun v hv => (Nat.lt_succ_self v).trans (hplace v hv), ok_bind,
    hnext, places?_map_ofNat (by simpa using hplace), ok_bind]
  dsimp only
  rw [hcounts, ForwardStar.rangePositions?_map, ok_bind, List.map_flatMap]
  refine congrArg Except.ok (List.flatMap_congr fun v _ => ?_)
  rw [ForwardStar.edgesOf, List.map_map]
  exact List.map_congr_left fun i _ => Int.toNat_natCast (P.graph.firstOf v + i)

theorem mem_edgesFrom (hgraph : P.graph.IsValid) (hlt : ∀ v ∈ vertices, v < P.vertexCount)
    {e : Nat} : e ∈ P.edgesFrom vertices ↔ e < P.edgeCount ∧ P.graph.tailOf e ∈ vertices := by
  rw [edgesFrom, List.mem_flatMap]
  constructor
  · rintro ⟨v, hv, he⟩
    obtain ⟨hedge, rfl⟩ := (hgraph.mem_edgesOf v (hlt v hv) e).mp he
    exact ⟨hedge, hv⟩
  · rintro ⟨hedge, hv⟩
    exact ⟨_, hv, (hgraph.mem_edgesOf _ (hlt _ hv) e).mpr ⟨hedge, rfl⟩⟩

/-- An edge starts from one vertex, so different vertices have no edge twice. -/
theorem nodup_edgesFrom (hgraph : P.graph.IsValid) (hlt : ∀ v ∈ vertices, v < P.vertexCount)
    (hnodup : vertices.Nodup) : (P.edgesFrom vertices).Nodup := by
  refine List.nodup_flatMap.mpr ⟨?_, ?_⟩
  · intro v _
    exact List.nodup_range.map fun i j hij => Nat.add_left_cancel hij
  · apply hnodup.imp_of_mem
    intro u v hu hv hne e heu hev
    have htail := ((hgraph.mem_edgesOf u (hlt u hu) e).mp heu).2
    exact hne (htail.symm.trans ((hgraph.mem_edgesOf v (hlt v hv) e).mp hev).2)

/-- In an accepted graph the edges found for a list of vertices, in whatever order and with whatever
repetitions, are the ranges of the index, one vertex after the other. So for the vertices of a
region every edge that starts in it is found once, and no other. -/
theorem edgesFrom?_concatenates [Scalar α] {first adjacent : Array Int}
    (h : ForwardStar.ofIndex? (α := α) first adjacent = .ok P.graph) :
    (∀ vertices : List Nat, (∀ v ∈ vertices, v < P.vertexCount) →
      P.edgesFrom? (vertices.map Int.ofNat) = .ok (vertices.flatMap fun v =>
        List.range' (first.getD v 0).toNat (first.getD (v + 1) 0 - first.getD v 0).toNat)) ∧
    (P.IsArranged → ∀ r < P.regionCount, ∃ edges,
      P.edgesFrom? ((P.region r).map Int.ofNat) = .ok edges ∧ edges.Nodup ∧
        ∀ e, e ∈ edges ↔ e < P.edgeCount ∧ P.graph.tailOf e ∈ P.region r) := by
  have hle : ∀ v < P.vertexCount, P.graph.firstOf v ≤ P.graph.firstOf (v + 1) :=
    fun v hv => ForwardStar.firstOf_le_of_ofIndex? h hv
  refine ⟨fun vertices hlt => ?_, fun harranged r hr => ?_⟩
  · rw [edgesFrom?_map_ofNat hlt fun v hv => hle v (hlt v hv)]
    refine congrArg Except.ok (List.flatMap_congr fun v _ => ?_)
    rw [← ForwardStar.firstOf_of_ofIndex? h, ← ForwardStar.firstOf_of_ofIndex? h,
      List.range'_eq_map_range, ForwardStar.edgesOf]
    simp
  · have hlt : ∀ v ∈ P.region r, v < P.vertexCount := fun _ => harranged.lt_of_mem_region
    have hnodup : (P.region r).Nodup := harranged.nodup_arena.sublist (P.region_sublist_arena r)
    exact ⟨_, edgesFrom?_map_ofNat hlt fun v hv => hle v (hlt v hv),
      nodup_edgesFrom harranged.graph_valid hlt hnodup,
      fun e => mem_edgesFrom harranged.graph_valid hlt⟩

/-- Five vertices in two regions, the second one in the order of falling vertices. No edge starts
from vertex 1 or from vertex 4. -/
def branched : Partition ℚ :=
  (((whole ⟨#[0, 3, 3, 4, 6, 6], #[0, 0, 0, 2, 3, 3], #[1, 2, 4, 3, 0, 4]⟩
    ⟨none, 1⟩).setActive [1, 2, 4] true).rebuild).setRegion 1 [4, 3, 2]

theorem isArranged_branched : branched.IsArranged := by
  have hwhole : ofIndex? #[0, 3, 3, 4, 6, 6] #[1, 2, 4, 3, 0, 4] none (1 : ℚ) =
      .ok (whole ⟨#[0, 3, 3, 4, 6, 6], #[0, 0, 0, 2, 3, 3], #[1, 2, 4, 3, 0, 4]⟩ ⟨none, 1⟩) := by
    with_unfolding_all rfl
  have hrebuilt := ((isArranged_of_ofIndex? hwhole).setActive [1, 2, 4] true).rebuild
  exact hrebuilt.of_perm rfl rfl (forall₂_perm_setRegion _ 1 (by decide +kernel))

/-- Vertex 3 comes twice, and so do its edges; vertices 1 and 4 add nothing. -/
theorem edgesFrom?_concatenates_branched :
    ForwardStar.ofIndex? (α := ℚ) #[0, 3, 3, 4, 6, 6] #[1, 2, 4, 3, 0, 4] = .ok branched.graph ∧
      (∀ v ∈ [3, 1, 0, 3, 4, 2], v < branched.vertexCount) ∧
      branched.edgesFrom? ([3, 1, 0, 3, 4, 2].map Int.ofNat) = .ok [4, 5, 0, 1, 2, 4, 5, 3] ∧
      branched.IsArranged ∧ 1 < branched.regionCount ∧ branched.region 1 = [4, 3, 2] ∧
      ∃ edges, branched.edgesFrom? ([4, 3, 2].map Int.ofNat) = .ok edges ∧ edges.Nodup ∧
        ∀ e, e ∈ edges ↔ e < 6 ∧ branched.graph.tailOf e ∈ [4, 3, 2] := by
  have hgraph : ForwardStar.ofIndex? (α := ℚ) #[0, 3, 3, 4, 6, 6] #[1, 2, 4, 3, 0, 4] =
      .ok branched.graph := by with_unfolding_all rfl
  have hlt : ∀ v ∈ [3, 1, 0, 3, 4, 2], v < branched.vertexCount := by decide +kernel
  have hcount : 1 < branched.regionCount := by decide +kernel
  have hregion : branched.region 1 = [4, 3, 2] := by decide +kernel
  obtain ⟨hranges, hregions⟩ := edgesFrom?_concatenates hgraph
  have hedges := hregions isArranged_branched 1 hcount
  rw [hregion] at hedges
  exact ⟨hgraph, hlt, hranges _ hlt, isArranged_branched, hcount, hregion, hedges⟩

end Partition
end TotalVariation
