import Mathlib
import TotalVariation.Flow.Network
import TotalVariation.Proofs.Marks

/-! # Distances in a network

The search from the sink finds for every node the number of arcs on a shortest open path, and no
number for nodes from which no open path leads there.
-/

namespace TotalVariation.Network

variable {α : Type} [Scalar α] {N : Network α} {sink : Nat}

/-- Something more can be sent from one node to another. -/
def Arc (N : Network α) (u v : Nat) : Prop := u < N.nodes ∧ v < N.nodes ∧ N.isOpen u v = true

/-- A numbering of nodes that goes up by at most one against each open arc, and down by one along
some open arc from each node but the sink. -/
structure IsDistance (N : Network α) (sink : Nat) (d : Nat → Option Nat) : Prop where
  lt_nodes : ∀ {u k}, d u = some k → u < N.nodes ∧ k < N.nodes
  zero_iff : ∀ {u}, d u = some 0 ↔ u = sink
  exists_arc : ∀ {u k}, d u = some (k + 1) → ∃ v, N.Arc u v ∧ d v = some k
  le_of_arc : ∀ {u v k}, N.Arc u v → d v = some k → ∃ j ≤ k + 1, d u = some j

/-- A numbering that is complete up to a depth. -/
structure IsLayering (N : Network α) (sink : Nat) (d : Nat → Option Nat) (depth : Nat) :
    Prop where
  lt_nodes : ∀ {u k}, d u = some k → u < N.nodes
  le_depth : ∀ {u k}, d u = some k → k ≤ depth
  zero_iff : ∀ {u}, d u = some 0 ↔ u = sink
  exists_arc : ∀ {u k}, d u = some (k + 1) → ∃ v, N.Arc u v ∧ d v = some k
  le_of_arc : ∀ {u v k}, N.Arc u v → d v = some k → k < depth → ∃ j ≤ k + 1, d u = some j
  inhabited : ∀ k ≤ depth, ∃ u, d u = some k

/-- Every layer has a node of its own, so there are fewer layers than nodes. -/
theorem IsLayering.depth_lt {d : Nat → Option Nat} {depth : Nat}
    (h : IsLayering N sink d depth) : depth < N.nodes := by
  choose! node hnode using h.inhabited
  have hcard : (Finset.range (depth + 1)).card ≤ (Finset.range N.nodes).card := by
    refine Finset.card_le_card_of_injOn node ?_ ?_
    · intro k hk
      have hk' : k ≤ depth := Nat.lt_succ_iff.mp (Finset.mem_range.mp hk)
      exact Finset.mem_coe.mpr (Finset.mem_range.mpr (h.lt_nodes (hnode k hk')))
    · intro k hk j hj heq
      have hk' := hnode k (Nat.lt_succ_iff.mp (Finset.mem_range.mp hk))
      have hj' := hnode j (Nat.lt_succ_iff.mp (Finset.mem_range.mp hj))
      rw [heq, hj'] at hk'
      exact (Option.some.inj hk').symm
  simpa using hcard

/-- The nodes without a number that have an arc into the last layer form the next one. -/
theorem IsLayering.succ {d : Nat → Option Nat} {depth : Nat} (h : IsLayering N sink d depth)
    {next : List Nat}
    (hnext : ∀ u, u ∈ next ↔ d u = none ∧ ∃ v, N.Arc u v ∧ d v = some depth) (hne : next ≠ []) :
    IsLayering N sink (fun u => if u ∈ next then some (depth + 1) else d u) (depth + 1) := by
  have hin : ∀ {u}, u ∈ next → (if u ∈ next then some (depth + 1) else d u) = some (depth + 1) :=
    fun hu => if_pos hu
  have hkeep : ∀ {u k}, d u = some k →
      (if u ∈ next then some (depth + 1) else d u) = some k := by
    intro u k hk
    rw [if_neg, hk]
    intro hu
    rw [((hnext u).mp hu).1] at hk
    cases hk
  have hcases : ∀ {u k}, (if u ∈ next then some (depth + 1) else d u) = some k →
      (u ∈ next ∧ k = depth + 1) ∨ d u = some k := by
    intro u k hk
    split at hk
    next hu => exact .inl ⟨hu, (Option.some.inj hk).symm⟩
    next => exact .inr hk
  refine ⟨?_, ?_, ?_, ?_, ?_, ?_⟩
  · intro u k hk
    rcases hcases hk with ⟨hu, -⟩ | hold
    · obtain ⟨-, v, harc, -⟩ := (hnext u).mp hu
      exact harc.1
    · exact h.lt_nodes hold
  · intro u k hk
    rcases hcases hk with ⟨-, rfl⟩ | hold
    · exact le_rfl
    · exact (h.le_depth hold).trans (Nat.le_succ depth)
  · intro u
    refine ⟨fun hk => ?_, fun hu => hkeep (h.zero_iff.mpr hu)⟩
    rcases hcases hk with ⟨-, hzero⟩ | hold
    · exact (Nat.succ_ne_zero depth hzero.symm).elim
    · exact h.zero_iff.mp hold
  · intro u k hk
    rcases hcases hk with ⟨hu, hdepth⟩ | hold
    · obtain ⟨-, v, harc, hv⟩ := (hnext u).mp hu
      exact ⟨v, harc, hkeep (Nat.succ.inj hdepth ▸ hv)⟩
    · obtain ⟨v, harc, hv⟩ := h.exists_arc hold
      exact ⟨v, harc, hkeep hv⟩
  · -- The start of an arc into the former last layer is new, unless it had a distance before.
    intro u v k harc hv hlt
    rcases hcases hv with ⟨-, rfl⟩ | hold
    · exact (lt_irrefl _ hlt).elim
    · rcases Option.eq_none_or_eq_some (d u) with hu | ⟨j, hu⟩
      · rcases (h.le_depth hold).lt_or_eq with hdeep | rfl
        · obtain ⟨i, -, hui⟩ := h.le_of_arc harc hold hdeep
          rw [hui] at hu
          cases hu
        · exact ⟨k + 1, le_rfl, hin ((hnext u).mpr ⟨hu, v, harc, hold⟩)⟩
      · have hj : j ≤ k + 1 := by
          rcases (h.le_depth hold).lt_or_eq with hdeep | rfl
          · obtain ⟨i, hi, hui⟩ := h.le_of_arc harc hold hdeep
            rw [hui] at hu
            exact Option.some.inj hu ▸ hi
          · exact (h.le_depth hu).trans (Nat.le_succ _)
        exact ⟨j, hj, hkeep hu⟩
  · intro k hk
    rcases hk.lt_or_eq with hlt | rfl
    · obtain ⟨u, hu⟩ := h.inhabited k (Nat.lt_succ_iff.mp hlt)
      exact ⟨u, hkeep hu⟩
    · obtain ⟨u, hu⟩ := List.exists_mem_of_ne_nil next hne
      exact ⟨u, hin hu⟩

/-- A layering that no arc leads into from outside is complete. -/
theorem IsLayering.isDistance {d : Nat → Option Nat} {depth : Nat}
    (h : IsLayering N sink d depth)
    (hlast : ∀ {u v}, N.Arc u v → d v = some depth → d u ≠ none) : IsDistance N sink d where
  lt_nodes hk := ⟨h.lt_nodes hk, (h.le_depth hk).trans_lt h.depth_lt⟩
  zero_iff := h.zero_iff
  exists_arc := h.exists_arc
  le_of_arc := by
    intro u v k harc hv
    rcases (h.le_depth hv).lt_or_eq with hlt | rfl
    · exact h.le_of_arc harc hv hlt
    · obtain ⟨j, hj⟩ := Option.ne_none_iff_exists'.mp (hlast harc hv)
      exact ⟨j, (h.le_depth hj).trans (Nat.le_succ _), hj⟩

/-- The search completes a layering. -/
theorem isDistance_layers (fuel : Nat) {distance : Array (Option Nat)} {layer : List Nat}
    {depth : Nat} (hsize : distance.size = N.nodes)
    (h : IsLayering N sink (fun u => distance.getD u none) depth)
    (hlayer : ∀ u, u ∈ layer ↔ distance.getD u none = some depth)
    (hfuel : N.nodes ≤ fuel + depth) :
    IsDistance N sink (fun u => (N.layers fuel distance layer depth).getD u none) := by
  induction fuel generalizing distance layer depth with
  | zero =>
      -- Every layer up to the present one holds a node, so there are fewer layers than nodes.
      have := h.depth_lt
      omega
  | succ fuel ih =>
      have hnext : ∀ u, u ∈ (List.range N.nodes).filter (fun u =>
            (distance.getD u none).isNone && layer.any (N.isOpen u)) ↔
          distance.getD u none = none ∧ ∃ v, N.Arc u v ∧ distance.getD v none = some depth := by
        intro u
        simp only [List.mem_filter, List.mem_range, Bool.and_eq_true, Option.isNone_iff_eq_none,
          List.any_eq_true, hlayer]
        constructor
        · rintro ⟨hu, hnone, v, hv, hopen⟩
          exact ⟨hnone, v, ⟨hu, h.lt_nodes hv, hopen⟩, hv⟩
        · rintro ⟨hnone, v, ⟨hu, -, hopen⟩, hv⟩
          exact ⟨hu, hnone, v, hv, hopen⟩
      rw [layers]
      generalize (List.range N.nodes).filter _ = next at hnext
      split
      next hempty =>
        apply h.isDistance
        intro _ _ harc hv hnone
        have hmem := (hnext _).mpr ⟨hnone, _, harc, hv⟩
        rw [List.isEmpty_iff.mp hempty] at hmem
        exact List.not_mem_nil hmem
      next hsome =>
        have hget : ∀ u, (next.foldl (fun d u => d.setIfInBounds u (some (depth + 1)))
            distance).getD u none =
              if u ∈ next then some (depth + 1) else distance.getD u none := by
          intro u
          rw [getD_foldl_setIfInBounds]
          by_cases hu : u ∈ next
          · obtain ⟨-, v, harc, -⟩ := (hnext u).mp hu
            rw [if_pos ⟨hu, hsize ▸ harc.1⟩, if_pos hu]
          · rw [if_neg (fun h => hu h.1), if_neg hu]
        have hsucc := h.succ hnext (fun hnil => hsome (List.isEmpty_iff.mpr hnil))
        refine ih ((size_foldl_setIfInBounds _ _ _ _).trans hsize) ?_ ?_ (by omega)
        · rw [funext hget]
          exact hsucc
        · intro u
          rw [hget]
          refine ⟨fun hu => if_pos hu, fun hu => ?_⟩
          by_contra hmem
          rw [if_neg hmem] at hu
          exact absurd (h.le_depth hu) (Nat.not_succ_le_self depth)

/-- The search from the sink finds the distances. -/
theorem isDistance_distances (N : Network α) (hsink : sink < N.nodes) :
    IsDistance N sink fun u => (N.distances sink).getD u none := by
  have hget : ∀ u, ((Array.replicate N.nodes none).setIfInBounds sink (some 0)).getD u none =
      if u = sink then some 0 else (none : Option Nat) := by
    intro u
    by_cases hu : u = sink
    · subst hu
      simp [hsink]
    · have hu' : ¬sink = u := fun h => hu h.symm
      by_cases hlt : u < N.nodes <;> simp [hu, hu', hlt]
  refine isDistance_layers N.nodes (by simp) ?_ ?_ (by omega)
  · rw [funext hget]
    refine ⟨?_, ?_, ?_, ?_, ?_, ?_⟩
    · intro u k hk
      split at hk
      next hu => exact hu ▸ hsink
      next => cases hk
    · intro u k hk
      split at hk
      next => exact (Option.some.inj hk).ge
      next => cases hk
    · intro u
      by_cases hu : u = sink <;> simp [hu]
    · intro u k hk
      split at hk <;> cases hk
    · intro u v k _ _ hlt
      exact (Nat.not_lt_zero k hlt).elim
    · intro k hk
      exact ⟨sink, by simp [Nat.le_zero.mp hk]⟩
  · intro u
    rw [hget, List.mem_singleton]
    by_cases hu : u = sink <;> simp [hu]

end TotalVariation.Network
