import Mathlib
import TotalVariation.Proofs.Partition.Values

/-! # The graph of the regions

An edge of the graph of the regions carries the total weight of the edges between its two regions.
The variation of a vector that is constant on the regions is therefore the same on both graphs.
-/

namespace TotalVariation.Partition

variable {K : Type} [ExactField K] {P : Partition K}

/-- The total weight of the edges between two regions. -/
def weightBetween (P : Partition K) (r s : Nat) : K :=
  ∑ e ∈ Finset.range P.edgeCount, if P.joins r s e = true then P.weight e else 0

/-- The weights of the graph of the regions are up to date. -/
def HasReducedWeights (P : Partition K) : Prop :=
  ∀ k < P.reducedEdges.size, Vec.entry P.reducedWeights k =
    P.weightBetween (P.reducedEdges.getD k (0, 0)).1 (P.reducedEdges.getD k (0, 0)).2

/-- The weights of the graph of the regions stay up to date with it. -/
theorem HasReducedWeights.of_frame {Q : Partition K} (h : P.HasReducedWeights)
    (hgraph : Q.graph = P.graph) (hweights : Q.edgeWeights = P.edgeWeights)
    (hassignment : Q.assignment = P.assignment) (hedges : Q.reducedEdges = P.reducedEdges)
    (hreduced : Q.reducedWeights = P.reducedWeights) : Q.HasReducedWeights := by
  have hjoins (r s e : Nat) : Q.joins r s e = P.joins r s e := by
    simp only [joins, regionOf, hassignment, hgraph]
  have hweight (e : Nat) : Q.weight e = P.weight e := by
    simp only [weight, hweights]
  have hbetween (r s : Nat) : Q.weightBetween r s = P.weightBetween r s := by
    simp only [weightBetween, edgeCount, hgraph, hjoins, hweight]
  intro k hk
  rw [hreduced, hedges, hbetween]
  exact h k (hedges ▸ hk)

theorem sum_range_getD {β : Type} [DecidableEq β] (xs : Array β) (default : β)
    (hnodup : xs.toList.Nodup) (f : β → K) :
    ∑ k ∈ Finset.range xs.size, f (xs.getD k default) = ∑ b ∈ xs.toList.toFinset, f b := by
  have hlist : (List.range xs.size).map (fun k => f (xs.getD k default)) = xs.toList.map f := by
    apply List.ext_getElem
    · simp
    · intro k hk _
      have hk' : k < xs.size := by simpa using hk
      simp [hk']
  rw [List.sum_toFinset f hnodup, ← hlist, ← List.toFinset_range,
    List.sum_toFinset _ List.nodup_range]

/-! ## The weights of a rebuilt graph -/

theorem joinWeight_eq (P : Partition K) {edges : List Nat} (hnodup : edges.Nodup) (r s : Nat) :
    P.joinWeight edges r s =
      ∑ e ∈ edges.toFinset, if P.joins r s e = true then P.weight e else 0 := by
  have hfold : ∀ (es : List Nat) (a : K),
      es.foldl (fun acc e => if P.joins r s e then acc + P.weight e else acc) a =
        a + (es.map fun e => if P.joins r s e = true then P.weight e else 0).sum := by
    intro es
    induction es with
    | nil => simp
    | cons e es ih =>
        intro a
        rw [List.foldl_cons, ih, List.map_cons, List.sum_cons]
        split
        · rw [add_assoc]
        · rw [zero_add]
  rw [joinWeight, hfold, zero_add, List.sum_toFinset _ hnodup]

/-- Bringing the graph of the regions up to date brings its weights up to date. -/
theorem IsComponentwise.hasReducedWeights (h : P.IsComponentwise) :
    P.reduceGraph.HasReducedWeights := by
  intro k hk
  set boundary := P.activeEdges.filter P.separates with hboundary
  have hk' : k < (P.joinedPairs boundary).length := by
    simpa [Partition.reduceGraph] using hk
  have hedge : P.reduceGraph.reducedEdges.getD k (0, 0) = (P.joinedPairs boundary)[k] := by
    change (P.joinedPairs boundary).toArray.getD k (0, 0) = _
    simp [hk']
  have hweight : Vec.entry P.reduceGraph.reducedWeights k =
      P.joinWeight boundary (P.joinedPairs boundary)[k].1 (P.joinedPairs boundary)[k].2 := by
    change Vec.entry ((P.joinedPairs boundary).map fun p =>
      P.joinWeight boundary p.1 p.2).toArray k = _
    simp [Vec.entry, hk']
  have hnodup : boundary.Nodup := (List.nodup_range.filter _).filter _
  rw [hweight, hedge, joinWeight_eq _ hnodup]
  obtain ⟨hlt, -, -⟩ := mem_joinedPairs.mp (List.getElem_mem hk')
  -- an edge that joins two regions separates them, so it was active before
  refine Finset.sum_subset ?_ ?_
  · intro e he
    obtain ⟨hactive, -⟩ := List.mem_filter.mp (List.mem_toFinset.mp he)
    exact Finset.mem_range.mpr (mem_activeEdges.mp hactive).1
  · intro e he hout
    rw [Finset.mem_range] at he
    apply if_neg
    intro hjoin
    have hsep := separates_of_joins hlt hjoin
    apply hout
    rw [List.mem_toFinset, hboundary, List.mem_filter]
    exact ⟨mem_activeEdges.mpr ⟨he, h.isActive_of_separates he hsep⟩, hsep⟩

/-- Rebuilding the regions and their graph brings the weights up to date. -/
theorem IsArranged.hasReducedWeights (h : P.IsArranged) :
    P.rebuild.reduceGraph.HasReducedWeights :=
  h.isComponentwise_rebuild.hasReducedWeights

/-! ## The variation on both graphs -/

omit [ExactField K] in
/-- The two regions that an edge joins, in order, are those of its ends. -/
theorem joins_iff_of_lt {r s e : Nat} (hlt : r < s) : P.joins r s e = true ↔
    r = min (P.regionOf (P.graph.tailOf e)) (P.regionOf (P.graph.headOf e)) ∧
      s = max (P.regionOf (P.graph.tailOf e)) (P.regionOf (P.graph.headOf e)) := by
  rw [joins_iff]
  omega

theorem sum_joins_mul (hgraph : P.HasReducedGraph) {f : Nat → Nat → K}
    (hsymm : ∀ a b, f a b = f b a) (hself : ∀ a, f a a = 0) {e : Nat} (he : e < P.edgeCount) :
    ∑ p ∈ P.reducedEdges.toList.toFinset,
        (if P.joins p.1 p.2 e = true then P.weight e else 0) * f p.1 p.2 =
      P.weight e * f (P.regionOf (P.graph.tailOf e)) (P.regionOf (P.graph.headOf e)) := by
  set a := P.regionOf (P.graph.tailOf e) with ha
  set b := P.regionOf (P.graph.headOf e) with hb
  have hmem : ∀ {p : Nat × Nat}, p ∈ P.reducedEdges.toList.toFinset ↔
      p.1 < p.2 ∧ ∃ e < P.edgeCount, P.joins p.1 p.2 e = true := by
    intro p
    rw [List.mem_toFinset, Array.mem_toList_iff, ← hgraph.mem_reducedEdges]
  by_cases heq : a = b
  · -- an edge inside a region joins no two different regions
    rw [heq, hself, mul_zero]
    apply Finset.sum_eq_zero
    intro p hp
    rw [if_neg, zero_mul]
    intro hjoin
    exact separates_iff.mp (separates_of_joins (hmem.mp hp).1 hjoin) heq
  · have hlt : min a b < max a b := min_lt_max.mpr heq
    have hjoin : P.joins (min a b) (max a b) e = true := (joins_iff_of_lt hlt).mpr ⟨rfl, rfl⟩
    have hvalue : f (min a b) (max a b) = f a b := by
      rcases le_total a b with hle | hle
      · rw [min_eq_left hle, max_eq_right hle]
      · rw [min_eq_right hle, max_eq_left hle, hsymm]
    rw [Finset.sum_eq_single_of_mem (min a b, max a b) (hmem.mpr ⟨hlt, e, he, hjoin⟩), if_pos hjoin,
      hvalue]
    intro p hp hne
    rw [if_neg, zero_mul]
    intro hother
    obtain ⟨hfirst, hsecond⟩ := (joins_iff_of_lt (hmem.mp hp).1).mp hother
    exact hne (Prod.ext hfirst hsecond)

/-- A sum over the edges that depends on the regions of their ends is a sum over the graph of the
regions. -/
theorem sum_edges_eq (hgraph : P.HasReducedGraph) (hweights : P.HasReducedWeights)
    {f : Nat → Nat → K} (hsymm : ∀ a b, f a b = f b a) (hself : ∀ a, f a a = 0) :
    ∑ k ∈ Finset.range P.reducedEdges.size, Vec.entry P.reducedWeights k *
        f (P.reducedEdges.getD k (0, 0)).1 (P.reducedEdges.getD k (0, 0)).2 =
      ∑ e ∈ Finset.range P.edgeCount, P.weight e *
        f (P.regionOf (P.graph.tailOf e)) (P.regionOf (P.graph.headOf e)) := by
  calc ∑ k ∈ Finset.range P.reducedEdges.size, Vec.entry P.reducedWeights k *
        f (P.reducedEdges.getD k (0, 0)).1 (P.reducedEdges.getD k (0, 0)).2
      = ∑ k ∈ Finset.range P.reducedEdges.size, (fun p : Nat × Nat =>
          P.weightBetween p.1 p.2 * f p.1 p.2) (P.reducedEdges.getD k (0, 0)) :=
        Finset.sum_congr rfl fun k hk => by rw [hweights k (Finset.mem_range.mp hk)]
    _ = ∑ p ∈ P.reducedEdges.toList.toFinset, P.weightBetween p.1 p.2 * f p.1 p.2 :=
        sum_range_getD _ _ hgraph.nodup_reducedEdges fun p => P.weightBetween p.1 p.2 * f p.1 p.2
    _ = ∑ p ∈ P.reducedEdges.toList.toFinset, ∑ e ∈ Finset.range P.edgeCount,
          (if P.joins p.1 p.2 e = true then P.weight e else 0) * f p.1 p.2 :=
        Finset.sum_congr rfl fun p _ => Finset.sum_mul _ _ _
    _ = ∑ e ∈ Finset.range P.edgeCount, ∑ p ∈ P.reducedEdges.toList.toFinset,
          (if P.joins p.1 p.2 e = true then P.weight e else 0) * f p.1 p.2 := Finset.sum_comm
    _ = _ := Finset.sum_congr rfl fun e he =>
        sum_joins_mul hgraph hsymm hself (Finset.mem_range.mp he)

end TotalVariation.Partition
