import Mathlib
import TotalVariation.Proofs.Flow.Building
import TotalVariation.Proofs.Partition.Cuts
import TotalVariation.Solver.Split

/-! # Cutting edges

The edges that are cut among some vertices are those that leave the least of the cheapest sets of
vertices. A set costs the prices of the sides of its vertices and the weights of the edges that
leave it.
-/

namespace TotalVariation

theorem zip_map_self {β γ : Type} (xs : List β) (f : β → γ) :
    xs.zip (xs.map f) = xs.map fun x => (x, f x) := by
  have h : (xs.map id).zip (xs.map f) = xs.map fun x => (id x, f x) := List.zip_map'
  rwa [List.map_id] at h

variable {K : Type} [ExactField K] {P : Partition K} {vertices edges : List Nat}

namespace Partition

/-- The price of a set of vertices on the sink side. -/
def cutCost (P : Partition K) (vertices : List Nat) (price : Nat → Terminal K) (edges : List Nat)
    (T : Finset Nat) : K :=
  (vertices.map fun v => (price v).sidePrice (decide (v ∈ T))).sum +
    (edges.map fun e => if P.leaves T e then P.weight e else 0).sum

end Partition

namespace Solver

/-- A set of vertices that may stand on the sink side. -/
structure IsCutSide (vertices : List Nat) (price : Nat → Terminal K) (T : Finset Nat) : Prop where
  subset : ∀ v ∈ T, v ∈ vertices
  admits : ∀ v ∈ vertices, (price v).Admits (decide (v ∈ T))

/-- The least of the cheapest of these sets. -/
structure IsLeastCutSide (P : Partition K) (vertices : List Nat) (price : Nat → Terminal K)
    (edges : List Nat) (T : Finset Nat) : Prop where
  isCutSide : IsCutSide vertices price T
  le : ∀ U, IsCutSide vertices price U →
    P.cutCost vertices price edges T ≤ P.cutCost vertices price edges U
  subset_of_eq : ∀ U, IsCutSide vertices price U →
    P.cutCost vertices price edges U = P.cutCost vertices price edges T → T ⊆ U

/-- There is one least among the cheapest sets. -/
theorem IsLeastCutSide.unique {price : Nat → Terminal K} {T U : Finset Nat}
    (hT : IsLeastCutSide P vertices price edges T)
    (hU : IsLeastCutSide P vertices price edges U) : T = U := by
  have hcost : P.cutCost vertices price edges T = P.cutCost vertices price edges U :=
    le_antisymm (hT.le U hU.isCutSide) (hU.le T hT.isCutSide)
  exact Finset.Subset.antisymm (hT.subset_of_eq U hU.isCutSide hcost.symm)
    (hU.subset_of_eq T hT.isCutSide hcost)

/-- The cut problem of some vertices and edges. -/
def cutProblem (P : Partition K) (vertices : List Nat) (price : Nat → Terminal K)
    (edges : List Nat) : CutProblem Nat K :=
  let C : CutProblem Nat K :=
    { CutProblem.ofVertices vertices with terminals := (vertices.map price).toArray }
  C.addLinks (edges.map fun e => (P.graph.tailOf e, P.graph.headOf e, P.weight e, P.weight e))

variable (price : Nat → Terminal K)

theorem prices_cutProblem : (cutProblem P vertices price edges).prices =
    vertices.map fun v => (v, price v) := by
  have hprices : (cutProblem P vertices price edges).prices =
      vertices.zip (vertices.map price) := rfl
  rw [hprices, zip_map_self]

theorem links_cutProblem (hends : ∀ e ∈ edges,
      P.graph.tailOf e ∈ vertices ∧ P.graph.headOf e ∈ vertices)
    (hweight : ∀ e ∈ edges, 0 ≤ P.weight e) (chosen : Nat × Nat → Bool) :
    CutProblem.AreLinks vertices (cutProblem P vertices price edges).links ∧
      CutProblem.linkSum chosen (cutProblem P vertices price edges).links =
        (edges.map fun e =>
          (if chosen (P.graph.tailOf e, P.graph.headOf e) then P.weight e else 0) +
            if chosen (P.graph.headOf e, P.graph.tailOf e) then P.weight e else 0).sum := by
  have hnone : CutProblem.AreLinks (K := K) vertices [] := ⟨List.nodup_nil, by simp, by simp⟩
  obtain ⟨hlinks, hsum⟩ := hnone.addLinks
    (edges.map fun e => (P.graph.tailOf e, P.graph.headOf e, P.weight e, P.weight e))
    (by
      intro p hp
      obtain ⟨e, he, rfl⟩ := List.mem_map.mp hp
      exact ⟨hends e he, hweight e he, hweight e he⟩) chosen
  refine ⟨hlinks, hsum.trans ?_⟩
  rw [List.map_map]
  exact zero_add _

theorem isProper_cutProblem (hnodup : vertices.Nodup) (hends : ∀ e ∈ edges,
      P.graph.tailOf e ∈ vertices ∧ P.graph.headOf e ∈ vertices)
    (hweight : ∀ e ∈ edges, 0 ≤ P.weight e) : (cutProblem P vertices price edges).IsProper := by
  obtain ⟨hlinks, -⟩ := links_cutProblem price hends hweight fun _ => false
  refine ⟨hnodup, ?_, hlinks.nodup, hlinks.ends_mem, hlinks.nonneg⟩
  change (vertices.map price).toArray.size = vertices.length
  simp

theorem cost_cutProblem (hends : ∀ e ∈ edges,
      P.graph.tailOf e ∈ vertices ∧ P.graph.headOf e ∈ vertices)
    (hweight : ∀ e ∈ edges, 0 ≤ P.weight e) (T : Finset Nat) :
    (cutProblem P vertices price edges).cost T = P.cutCost vertices price edges T := by
  obtain ⟨-, hsum⟩ := links_cutProblem price hends hweight
    fun pair => decide (pair.1 ∉ T ∧ pair.2 ∈ T)
  rw [CutProblem.cost, prices_cutProblem, List.map_map, Partition.cutCost]
  apply congrArg₂ _ rfl
  have hlinks : ((cutProblem P vertices price edges).links.map fun l =>
      if l.1.1 ∉ T ∧ l.1.2 ∈ T then l.2 else 0).sum =
        CutProblem.linkSum (fun pair => decide (pair.1 ∉ T ∧ pair.2 ∈ T))
          (cutProblem P vertices price edges).links := by
    simp [CutProblem.linkSum]
  rw [hlinks, hsum]
  congr 1
  apply List.map_congr_left
  intro e _
  by_cases htail : P.graph.tailOf e ∈ T <;> by_cases hhead : P.graph.headOf e ∈ T <;>
    simp [Partition.leaves, htail, hhead]

theorem isSide_cutProblem {T : Finset Nat} :
    (cutProblem P vertices price edges).IsSide T ↔ IsCutSide vertices price T := by
  constructor
  · intro h
    refine ⟨h.subset, fun v hv => h.admits (v, price v) ?_⟩
    rw [prices_cutProblem]
    exact List.mem_map.mpr ⟨v, hv, rfl⟩
  · intro h
    refine ⟨h.subset, fun p hp => ?_⟩
    rw [prices_cutProblem] at hp
    obtain ⟨v, hv, rfl⟩ := List.mem_map.mp hp
    exact h.admits v hv

/-! ## The cut that is found -/

/-- The minimal cut among vertices with the given prices, off which the edges that are cut are
read. -/
def minimalCut? (P : Partition K) (vertices : List Nat) (price : Nat → Terminal K)
    (edges : List Nat) : Except (Failure K) (CutProblem Nat K) := do
  let problem ← (CutProblem.ofVertices vertices).setTerminals? vertices
    (vertices.map price).toArray
  let problem ← problem.addLinks? (edges.map P.graph.tailOf).toArray
    (edges.map P.graph.headOf).toArray (edges.map P.weight).toArray (edges.map P.weight).toArray
  problem.solve

/-- The capacity of the minimal cut among vertices with the given prices. -/
def cutValue? (P : Partition K) (vertices : List Nat) (price : Nat → Terminal K)
    (edges : List Nat) : Except (Failure K) (Option K) :=
  (minimalCut? P vertices price edges).map (·.cutValue)

theorem cutEdges?_eq_bind (P : Partition K) (vertices : List Nat) (price : Nat → Terminal K)
    (edges : List Nat) : cutEdges? P vertices price edges =
      minimalCut? P vertices price edges >>= fun problem =>
      problem.sinkSideOf? (edges.map P.graph.tailOf) >>= fun tailSides =>
      problem.sinkSideOf? (edges.map P.graph.headOf) >>= fun headSides =>
      .ok (((edges.zip (tailSides.zip headSides)).filter fun e => e.2.1 != e.2.2).map (·.1)) := by
  simp only [cutEdges?, minimalCut?, bind_assoc]
  rfl

theorem minimalCut?_congr {price price' : Nat → Terminal K} (h : ∀ v ∈ vertices, price v = price' v) :
    minimalCut? P vertices price edges = minimalCut? P vertices price' edges := by
  rw [minimalCut?, minimalCut?, List.map_congr_left h]

/-- A cut asks for the prices of the vertices among which it is made. -/
theorem cutEdges?_congr (P : Partition K) (edges : List Nat) {vertices : List Nat}
    {price price' : Nat → Terminal K} (h : ∀ v ∈ vertices, price v = price' v) :
    cutEdges? P vertices price edges = cutEdges? P vertices price' edges := by
  rw [cutEdges?_eq_bind, minimalCut?_congr h, ← cutEdges?_eq_bind]

/-- The minimal cut has the least of the cheapest sets on the sink side, and its capacity is the
cost of that set. -/
theorem minimalCut?_eq_ok (hnodup : vertices.Nodup) (hends : ∀ e ∈ edges,
      P.graph.tailOf e ∈ vertices ∧ P.graph.headOf e ∈ vertices)
    (hweight : ∀ e ∈ edges, 0 ≤ P.weight e) :
    ∃ T, IsLeastCutSide P vertices price edges T ∧
      minimalCut? P vertices price edges = .ok { cutProblem P vertices price edges with
        sinkSide := some (vertices.map fun v => decide (v ∈ T)).toArray
        cutValue := some (P.cutCost vertices price edges T) } := by
  obtain ⟨T, value, hleast, hsolve⟩ :=
    (isProper_cutProblem price hnodup hends hweight).solve_eq_ok
  have hcost := cost_cutProblem price hends hweight
  obtain rfl : P.cutCost vertices price edges T = value := (hcost T).symm.trans hleast.cost_eq
  refine ⟨T, ⟨(isSide_cutProblem price).mp hleast.isSide, ?_, ?_⟩, ?_⟩
  · intro U hU
    rw [← hcost U]
    exact hleast.cost_le U ((isSide_cutProblem price).mpr hU)
  · intro U hU heq
    rw [← hcost U] at heq
    exact hleast.subset_of_eq U ((isSide_cutProblem price).mpr hU) heq
  · have hterminals := CutProblem.setTerminals?_eq_ok (C := CutProblem.ofVertices vertices) hnodup
      Array.size_replicate price
    have hlinks : ({ CutProblem.ofVertices vertices with
        terminals := (vertices.map price).toArray } : CutProblem Nat K).addLinks?
          (edges.map P.graph.tailOf).toArray (edges.map P.graph.headOf).toArray
          (edges.map P.weight).toArray (edges.map P.weight).toArray =
            .ok (cutProblem P vertices price edges) := by
      have hcommon : commonLength? edges.length edges.length = some edges.length := if_pos rfl
      rw [CutProblem.addLinks?]
      simp only [List.size_toArray, List.length_map, hcommon, Option.bind_some]
      rw [stretch_of_size_eq (by simp), stretch_of_size_eq (by simp), stretch_of_size_eq (by simp)]
      apply congrArg Except.ok
      rw [List.zip_map', List.zip_map', List.zip_map']
      rfl
    rw [minimalCut?]
    exact bind_eq_ok.mpr ⟨_, hterminals, bind_eq_ok.mpr ⟨_, hlinks, hsolve⟩⟩

/-- The capacity of the minimal cut is the cost of the least of the cheapest sets. -/
theorem IsLeastCutSide.cutValue?_eq_ok {T : Finset Nat}
    (hT : IsLeastCutSide P vertices price edges T) (hnodup : vertices.Nodup)
    (hends : ∀ e ∈ edges, P.graph.tailOf e ∈ vertices ∧ P.graph.headOf e ∈ vertices)
    (hweight : ∀ e ∈ edges, 0 ≤ P.weight e) :
    cutValue? P vertices price edges = .ok (some (P.cutCost vertices price edges T)) := by
  obtain ⟨U, hU, hcut⟩ := minimalCut?_eq_ok price hnodup hends hweight
  obtain rfl := hU.unique hT
  exact map_eq_ok.mpr ⟨_, hcut, rfl⟩

/-- The edges that are cut leave the least of the cheapest sets. -/
theorem cutEdges?_eq_ok (hnodup : vertices.Nodup) (hends : ∀ e ∈ edges,
      P.graph.tailOf e ∈ vertices ∧ P.graph.headOf e ∈ vertices)
    (hweight : ∀ e ∈ edges, 0 ≤ P.weight e) :
    ∃ T, IsLeastCutSide P vertices price edges T ∧
      cutEdges? P vertices price edges = .ok (edges.filter (P.leaves T)) := by
  obtain ⟨T, hleast, hcut⟩ := minimalCut?_eq_ok price hnodup hends hweight
  refine ⟨T, hleast, ?_⟩
  have htails : ∀ v ∈ edges.map P.graph.tailOf, v ∈ vertices := by
    intro v hv
    obtain ⟨e, he, rfl⟩ := List.mem_map.mp hv
    exact (hends e he).1
  have hheads : ∀ v ∈ edges.map P.graph.headOf, v ∈ vertices := by
    intro v hv
    obtain ⟨e, he, rfl⟩ := List.mem_map.mp hv
    exact (hends e he).2
  rw [cutEdges?_eq_bind]
  refine bind_eq_ok.mpr ⟨_, hcut, bind_eq_ok.mpr
    ⟨_, CutProblem.sinkSideOf?_eq_ok hnodup _ rfl htails, bind_eq_ok.mpr
      ⟨_, CutProblem.sinkSideOf?_eq_ok hnodup _ rfl hheads, ?_⟩⟩⟩
  apply congrArg Except.ok
  rw [List.map_map, List.map_map, List.zip_map', zip_map_self, List.filter_map, List.map_map]
  exact List.map_id _

/-- The edges that are cut leave the set that is the least of the cheapest. -/
theorem IsLeastCutSide.cutEdges?_eq_ok {T : Finset Nat}
    (hT : IsLeastCutSide P vertices price edges T) (hnodup : vertices.Nodup)
    (hends : ∀ e ∈ edges, P.graph.tailOf e ∈ vertices ∧ P.graph.headOf e ∈ vertices)
    (hweight : ∀ e ∈ edges, 0 ≤ P.weight e) :
    cutEdges? P vertices price edges = .ok (edges.filter (P.leaves T)) := by
  obtain ⟨U, hU, hcut⟩ := Solver.cutEdges?_eq_ok price hnodup hends hweight
  obtain rfl := hU.unique hT
  exact hcut

end Solver
end TotalVariation
