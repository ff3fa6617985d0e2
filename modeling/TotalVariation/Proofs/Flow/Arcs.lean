import Mathlib
import TotalVariation.Proofs.Flow.Sending

/-! # Networks from lists of arcs

A network is built from one without capacities by writing the capacities of a list of arcs. Where
no two arcs have the same ends, each arc has its own capacity and a cut costs the capacities of the
arcs that enter it.
-/

namespace TotalVariation.Network

section Arcs

variable {α : Type}

/-- The network with the capacities of a list of arcs. -/
def withArcs (N : Network α) (arcs : List (Nat × Nat × Capacity α)) : Network α :=
  arcs.foldl (fun N a => N.modify a.1 a.2.1 fun _ => a.2.2) N

variable {N : Network α} {arcs : List (Nat × Nat × Capacity α)}

@[simp] theorem nodes_withArcs : (N.withArcs arcs).nodes = N.nodes := by
  induction arcs generalizing N with
  | nil => rfl
  | cons a arcs ih => exact ih

theorem IsSquare.withArcs (h : N.IsSquare) : (N.withArcs arcs).IsSquare := by
  induction arcs generalizing N with
  | nil => exact h
  | cons a arcs ih => exact ih (h.modify _ _ _)

theorem isSquare_ofFn (n : Nat) (f : Nat → Nat → Capacity α) : (ofFn n f).IsSquare where
  rows := Vec.size_tabulate _ _
  columns u hu := by
    change u < n at hu
    simp [ofFn, Vec.tabulate, hu]

variable [Scalar α]

theorem left_ofFn_zero (n u v : Nat) :
    (ofFn n fun _ _ => (.finite 0 : Capacity α)).left u v = .finite 0 := by
  by_cases hu : u < n <;> by_cases hv : v < n <;> simp [left, ofFn, Vec.tabulate, hu, hv]

theorem IsSquare.left_withArcs_of_notMem (h : N.IsSquare)
    (hlt : ∀ a ∈ arcs, a.1 < N.nodes ∧ a.2.1 < N.nodes) {u v : Nat}
    (hout : (u, v) ∉ arcs.map fun a => (a.1, a.2.1)) :
    (N.withArcs arcs).left u v = N.left u v := by
  induction arcs generalizing N with
  | nil => rfl
  | cons a arcs ih =>
      obtain ⟨ha, hb⟩ := hlt a List.mem_cons_self
      rw [List.map_cons, List.mem_cons, not_or] at hout
      calc (N.withArcs (a :: arcs)).left u v
          = (N.modify a.1 a.2.1 fun _ => a.2.2).left u v :=
            ih (h.modify _ _ _) (fun b hb => hlt b (List.mem_cons_of_mem _ hb)) hout.2
        _ = N.left u v := by rw [h.left_modify ha hb, if_neg hout.1]

/-- An arc with ends of its own has its capacity. -/
theorem IsSquare.left_withArcs_of_mem (h : N.IsSquare)
    (hlt : ∀ a ∈ arcs, a.1 < N.nodes ∧ a.2.1 < N.nodes)
    (hnodup : (arcs.map fun a => (a.1, a.2.1)).Nodup) {a : Nat × Nat × Capacity α} (ha : a ∈ arcs) :
    (N.withArcs arcs).left a.1 a.2.1 = a.2.2 := by
  induction arcs generalizing N with
  | nil => cases ha
  | cons b arcs ih =>
      have hltrest : ∀ a ∈ arcs, a.1 < N.nodes ∧ a.2.1 < N.nodes :=
        fun a ha => hlt a (List.mem_cons_of_mem _ ha)
      rw [List.map_cons, List.nodup_cons] at hnodup
      rcases List.mem_cons.mp ha with rfl | hrest
      · obtain ⟨hfrom, hto⟩ := hlt a List.mem_cons_self
        calc (N.withArcs (a :: arcs)).left a.1 a.2.1
            = (N.modify a.1 a.2.1 fun _ => a.2.2).left a.1 a.2.1 :=
              (h.modify _ _ _).left_withArcs_of_notMem hltrest hnodup.1
          _ = a.2.2 := by rw [h.left_modify hfrom hto, if_pos rfl]
      · exact ih (h.modify _ _ _) hltrest hnodup.2 hrest

end Arcs

/-! ## The cuts -/

variable {K : Type} [ExactField K] {N : Network K} {arcs : List (Nat × Nat × Capacity K)}

theorem cutCapacity_modify (h : N.IsSquare) {u v : Nat} (hu : u < N.nodes) (hv : v < N.nodes)
    (c : Capacity K) (hzero : N.left u v = .finite 0) (S : Finset Nat) :
    (N.modify u v fun _ => c).cutCapacity S =
      N.cutCapacity S + if u ∉ S ∧ v ∈ S then c.amount else 0 := by
  have hamount : ∀ a b, ((N.modify u v fun _ => c).left a b).amount =
      (N.left a b).amount + if (u, v) = (a, b) then c.amount else 0 := by
    intro a b
    rw [h.left_modify hu hv]
    by_cases heq : (a, b) = (u, v)
    · obtain ⟨rfl, rfl⟩ := Prod.mk.inj heq
      rw [if_pos rfl, if_pos rfl, hzero]
      exact (zero_add _).symm
    · rw [if_neg heq, if_neg fun h => heq h.symm, add_zero]
  simp only [cutCapacity, nodes_modify, hamount, Finset.sum_add_distrib]
  rw [← Finset.sum_product' (Finset.range N.nodes \ S) S
    (fun a b => if (u, v) = (a, b) then c.amount else 0), Finset.sum_ite_eq]
  simp [hu]

/-- A cut costs the capacities of the arcs that enter it. -/
theorem cutCapacity_withArcs (h : N.IsSquare)
    (hlt : ∀ a ∈ arcs, a.1 < N.nodes ∧ a.2.1 < N.nodes)
    (hnodup : (arcs.map fun a => (a.1, a.2.1)).Nodup)
    (hzero : ∀ a ∈ arcs, N.left a.1 a.2.1 = .finite 0) (S : Finset Nat) :
    (N.withArcs arcs).cutCapacity S = N.cutCapacity S +
      (arcs.map fun a => if a.1 ∉ S ∧ a.2.1 ∈ S then a.2.2.amount else 0).sum := by
  induction arcs generalizing N with
  | nil => simp [withArcs]
  | cons a arcs ih =>
      obtain ⟨ha, hb⟩ := hlt a List.mem_cons_self
      rw [List.map_cons, List.nodup_cons] at hnodup
      have hrest : ∀ b ∈ arcs,
          (N.modify a.1 a.2.1 fun _ => a.2.2).left b.1 b.2.1 = .finite 0 := by
        intro b hb'
        rw [h.left_modify ha hb, if_neg, hzero b (List.mem_cons_of_mem _ hb')]
        intro heq
        exact hnodup.1 (List.mem_map.mpr ⟨b, hb', heq⟩)
      calc (N.withArcs (a :: arcs)).cutCapacity S
          = (N.modify a.1 a.2.1 fun _ => a.2.2).cutCapacity S +
              (arcs.map fun a => if a.1 ∉ S ∧ a.2.1 ∈ S then a.2.2.amount else 0).sum :=
            ih (h.modify _ _ _) (fun b hb => hlt b (List.mem_cons_of_mem _ hb)) hnodup.2 hrest
        _ = _ := by
            rw [cutCapacity_modify h ha hb _ (hzero a List.mem_cons_self), List.map_cons,
              List.sum_cons, add_assoc]

end TotalVariation.Network
