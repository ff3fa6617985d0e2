import Mathlib
import TotalVariation.Proofs.Flow.Distances
import TotalVariation.Proofs.Numeric.Exact

/-! # Sending along a path

A path that goes down one layer at each arc reaches the sink and has no arc twice. Sending along it
what its tightest arc can carry lowers what is left across every cut by the amount sent.
-/

namespace TotalVariation

namespace Capacity

variable {K : Type} [ExactField K]

/-- The amount of a limited capacity. -/
def amount : Capacity K → K
  | .finite a => a
  | .unlimited => 0

theorem min_eq_unlimited {c d : Capacity K} :
    c.min d = .unlimited ↔ c = .unlimited ∧ d = .unlimited := by
  cases c <;> cases d <;> simp [min]

/-- The smaller of two capacities is one of them, and no larger than either. -/
theorem min_eq_finite {c d : Capacity K} {a : K} (h : c.min d = .finite a) :
    (c = .finite a ∨ d = .finite a) ∧ ∀ b, c = .finite b ∨ d = .finite b → a ≤ b := by
  cases c with
  | unlimited =>
      rw [min] at h
      subst h
      simp
  | finite x =>
      cases d with
      | unlimited =>
          cases h
          simp
      | finite y =>
          rw [min, finite.injEq] at h
          simp only [finite.injEq]
          split at h
          next hlt =>
            subst h
            refine ⟨.inr rfl, ?_⟩
            rintro b (rfl | rfl)
            · exact hlt.le
            · exact le_rfl
          next hle =>
            subst h
            refine ⟨.inl rfl, ?_⟩
            rintro b (rfl | rfl)
            · exact le_rfl
            · exact not_lt.mp hle

theorem foldl_min_eq_unlimited {capacities : List (Capacity K)} {c : Capacity K} :
    capacities.foldl min c = .unlimited ↔ ∀ d ∈ c :: capacities, d = .unlimited := by
  induction capacities generalizing c with
  | nil => simp
  | cons d capacities ih =>
      rw [List.foldl_cons, ih]
      simp [min_eq_unlimited, and_assoc]

theorem foldl_min_eq_finite {capacities : List (Capacity K)} {c : Capacity K} {a : K}
    (h : capacities.foldl min c = .finite a) :
    .finite a ∈ c :: capacities ∧ ∀ b, .finite b ∈ c :: capacities → a ≤ b := by
  induction capacities generalizing c with
  | nil =>
      subst h
      simp
  | cons d capacities ih =>
      obtain ⟨hmem, hle⟩ := ih h
      have hsmaller : ∀ b, c = .finite b ∨ d = .finite b → a ≤ b := by
        intro b hb
        cases hmin : c.min d with
        | unlimited =>
            obtain ⟨rfl, rfl⟩ := min_eq_unlimited.mp hmin
            simp at hb
        | finite e =>
            have hea := hle e (by simp [hmin])
            exact hea.trans ((min_eq_finite hmin).2 b hb)
      constructor
      · rcases List.mem_cons.mp hmem with hmin | hrest
        · rcases (min_eq_finite hmin.symm).1 with rfl | rfl <;> simp
        · simp [hrest]
      · intro b hb
        simp only [List.mem_cons] at hb
        rcases hb with hb | hb | hb
        · exact hsmaller b (.inl hb.symm)
        · exact hsmaller b (.inr hb.symm)
        · exact hle b (List.mem_cons_of_mem _ hb)

end Capacity

namespace Network

/-! ## Paths that go down -/

section Descent

variable {α : Type} [Scalar α] {N : Network α} {d : Nat → Option Nat} {u v : Nat}
  {path : List (Nat × Nat)}

/-- A path from a node that goes down one layer at each arc, to the bottom. -/
inductive Descent (N : Network α) (d : Nat → Option Nat) : Nat → List (Nat × Nat) → Prop
  | stop {u : Nat} (hu : d u = some 0) : Descent N d u []
  | step {u v k : Nat} {path : List (Nat × Nat)} (harc : N.Arc u v) (hu : d u = some (k + 1))
      (hv : d v = some k) (hrest : Descent N d v path) : Descent N d u ((u, v) :: path)

/-- From every node with a distance a path goes down to the sink. -/
theorem descent_arcsAlong {sink : Nat} {distance : Array (Option Nat)} {k : Nat}
    (h : IsDistance N sink fun u => distance.getD u none) (hu : distance.getD u none = some k) :
    Descent N (fun u => distance.getD u none) u (arcsAlong (u :: N.descent distance k u)) := by
  induction k generalizing u with
  | zero => exact .stop hu
  | succ k ih =>
      rw [descent]
      split
      next v hfind =>
        have hfound := List.find?_some hfind
        simp only [Bool.and_eq_true, beq_iff_eq] at hfound
        have hv : v < N.nodes := List.mem_range.mp (List.mem_of_find?_eq_some hfind)
        exact .step ⟨(h.lt_nodes hu).1, hv, hfound.2⟩ hu hfound.1 (ih hfound.1)
      next hfind =>
        obtain ⟨v, harc, hv⟩ := h.exists_arc hu
        have hnot := List.find?_eq_none.mp hfind v (List.mem_range.mpr harc.2.1)
        simp only [Bool.and_eq_true, beq_iff_eq] at hnot
        exact (hnot ⟨hv, harc.2.2⟩).elim

namespace Descent

theorem layered (h : Descent N d u path) {a : Nat × Nat} (ha : a ∈ path) :
    N.Arc a.1 a.2 ∧ ∃ k, d a.1 = some (k + 1) ∧ d a.2 = some k := by
  induction h with
  | stop => cases ha
  | step harc hu hv _ ih =>
      rcases List.mem_cons.mp ha with rfl | ha
      · exact ⟨harc, _, hu, hv⟩
      · exact ih ha

theorem le_of_mem (h : Descent N d u path) {a : Nat × Nat} (ha : a ∈ path) {j k : Nat}
    (hj : d a.1 = some j) (hk : d u = some k) : j ≤ k := by
  induction h generalizing k with
  | stop => cases ha
  | step _ hu hv _ ih =>
      rcases List.mem_cons.mp ha with rfl | ha
      · exact (Option.some.inj (hj.symm.trans hk)).le
      · have hle := ih ha hv
        rw [hu] at hk
        have := Option.some.inj hk
        omega

/-- The layers of the arcs differ, so no arc comes twice. -/
theorem nodup (h : Descent N d u path) : path.Nodup := by
  induction h with
  | stop => exact List.nodup_nil
  | step _ hu hv hrest ih =>
      refine List.nodup_cons.mpr ⟨fun hmem => ?_, ih⟩
      exact absurd (hrest.le_of_mem hmem hu hv) (Nat.not_succ_le_self _)

/-- The reversal of an arc goes up. -/
theorem reversal_notMem (h : Descent N d u path) {a b : Nat} (ha : (a, b) ∈ path) :
    (b, a) ∉ path := by
  intro hb
  obtain ⟨-, j, hj, hj'⟩ := h.layered ha
  obtain ⟨-, k, hk, hk'⟩ := h.layered hb
  rw [hk] at hj'
  rw [hk'] at hj
  have := Option.some.inj hj
  have := Option.some.inj hj'
  omega

/-- A path from outside a set that holds the bottom enters the set once more than it leaves it. -/
theorem countP_enter (h : Descent N d u path) (S : Finset Nat) (hS : ∀ v, d v = some 0 → v ∈ S) :
    path.countP (fun a => a.1 ∉ S ∧ a.2 ∈ S) =
      path.countP (fun a => a.2 ∉ S ∧ a.1 ∈ S) + if u ∈ S then 0 else 1 := by
  induction h with
  | stop hu => simp [hS _ hu]
  | @step u v k path _ _ _ _ ih =>
      rw [List.countP_cons, List.countP_cons, ih]
      by_cases hu : u ∈ S <;> by_cases hv : v ∈ S <;> simp [hu, hv]

end Descent

end Descent

/-! ## What is left after sending -/

section Modify

variable {α : Type}

@[simp] theorem nodes_modify (N : Network α) (u v : Nat) (f : Capacity α → Capacity α) :
    (N.modify u v f).nodes = N.nodes := rfl

@[simp] theorem size_arcs_modify (N : Network α) (u v : Nat) (f : Capacity α → Capacity α) :
    (N.modify u v f).arcs.size = N.arcs.size :=
  Array.size_modify

/-- The rows of a network stay as long as they are. -/
@[simp] theorem size_row_modify (N : Network α) (u v w : Nat) (f : Capacity α → Capacity α) :
    ((N.modify u v f).arcs.getD w #[]).size = (N.arcs.getD w #[]).size := by
  simp only [modify, Array.getD_eq_getD_getElem?, Array.getElem?_modify]
  split
  next heq =>
    subst heq
    cases N.arcs[u]? <;> simp
  next => rfl

/-- Each node has one capacity for every node. -/
structure IsSquare (N : Network α) : Prop where
  rows : N.arcs.size = N.nodes
  columns : ∀ u < N.nodes, (N.arcs.getD u #[]).size = N.nodes

theorem IsSquare.modify {N : Network α} (h : N.IsSquare) (u v : Nat)
    (f : Capacity α → Capacity α) : (N.modify u v f).IsSquare where
  rows := (size_arcs_modify N u v f).trans h.rows
  columns w hw := (size_row_modify N u v w f).trans (h.columns w hw)

/-- Only the capacity of the modified arc changes. -/
theorem IsSquare.left_modify [Scalar α] {N : Network α} (h : N.IsSquare) {u v : Nat}
    (hu : u < N.nodes) (hv : v < N.nodes) (f : Capacity α → Capacity α) (a b : Nat) :
    (N.modify u v f).left a b = if (a, b) = (u, v) then f (N.left a b) else N.left a b := by
  have hrow : u < N.arcs.size := h.rows ▸ hu
  have hcol : v < (N.arcs.getD u #[]).size := h.columns u hu ▸ hv
  simp only [left, Network.modify, Array.getD_eq_getD_getElem?, Array.getElem?_modify,
    Prod.mk.injEq] at hcol ⊢
  by_cases ha : u = a
  · subst ha
    rw [Array.getElem?_eq_getElem hrow] at hcol ⊢
    simp only [Option.map_some, Option.getD_some, Array.getElem?_modify, if_true, true_and] at hcol ⊢
    by_cases hb : v = b
    · subst hb
      simp [hcol]
    · simp [hb, Ne.symm hb]
  · simp [ha, Ne.symm ha]

end Modify

variable {K : Type} [ExactField K] {N : Network K} {path : List (Nat × Nat)} {amount : K}

/-- The capacity of an arc after an amount was sent along it so many times forth and back. -/
def shifted (amount : K) (forth back : Nat) : Capacity K → Capacity K
  | .finite c => .finite (c - forth * amount + back * amount)
  | .unlimited => .unlimited

theorem nodes_send (N : Network K) (path : List (Nat × Nat)) (amount : K) :
    (N.send path amount).nodes = N.nodes := by
  induction path generalizing N with
  | nil => rfl
  | cons a path ih => exact ih _

theorem IsSquare.send (h : N.IsSquare) (path : List (Nat × Nat)) (amount : K) :
    (N.send path amount).IsSquare := by
  induction path generalizing N with
  | nil => exact h
  | cons a path ih => exact ih ((h.modify _ _ _).modify _ _ _)

/-- Sending lowers what is left on the arcs of the path and raises it on their reversals. -/
theorem IsSquare.left_send (h : N.IsSquare) (hpath : ∀ a ∈ path, a.1 < N.nodes ∧ a.2 < N.nodes)
    (u v : Nat) : (N.send path amount).left u v =
      shifted amount (path.count (u, v)) (path.count (v, u)) (N.left u v) := by
  induction path generalizing N with
  | nil =>
      rw [Network.send, List.foldl_nil]
      cases N.left u v <;> simp [shifted]
  | cons a path ih =>
      obtain ⟨ha, hb⟩ := hpath a List.mem_cons_self
      have hmodified := h.modify a.1 a.2 (Capacity.lower amount)
      have hsend : N.send (a :: path) amount =
          ((N.modify a.1 a.2 (Capacity.lower amount)).modify a.2 a.1
            (Capacity.raise amount)).send path amount := rfl
      rw [hsend, ih (hmodified.modify _ _ _) (fun b hb => hpath b (List.mem_cons_of_mem _ hb)),
        hmodified.left_modify hb ha, h.left_modify ha hb, List.count_cons, List.count_cons]
      have hforth : (u, v) = (a.1, a.2) ↔ a = (u, v) := eq_comm
      have hback : (u, v) = (a.2, a.1) ↔ a = (v, u) := by
        rw [Prod.mk.injEq, Prod.ext_iff]
        exact ⟨fun h => ⟨h.2.symm, h.1.symm⟩, fun h => ⟨h.2.symm, h.1.symm⟩⟩
      simp only [hforth, hback, beq_iff_eq]
      cases N.left u v with
      | unlimited => split <;> split <;> rfl
      | finite c =>
          split <;> split <;>
            simp only [Capacity.lower, Capacity.raise, shifted, Nat.cast_add, Nat.cast_one,
              Nat.cast_zero, Capacity.finite.injEq] <;> ring

/-! ## Cuts -/

/-- A set of nodes with the sink and without the source, entered by limited arcs only. -/
structure IsCut (N : Network K) (source sink : Nat) (S : Finset Nat) : Prop where
  lt_nodes : ∀ {u}, u ∈ S → u < N.nodes
  sink_mem : sink ∈ S
  source_notMem : source ∉ S
  limited : ∀ {u v}, u < N.nodes → u ∉ S → v ∈ S → N.left u v ≠ .unlimited

/-- What can still be sent into a set of nodes. -/
def cutCapacity (N : Network K) (S : Finset Nat) : K :=
  ∑ u ∈ Finset.range N.nodes \ S, ∑ v ∈ S, (N.left u v).amount

theorem sum_count_eq_countP (A B : Finset Nat) (path : List (Nat × Nat)) :
    ∑ u ∈ A, ∑ v ∈ B, path.count (u, v) = path.countP fun a => a.1 ∈ A ∧ a.2 ∈ B := by
  induction path with
  | nil => simp
  | cons a path ih =>
      have hone : ∑ u ∈ A, ∑ v ∈ B, (if a = (u, v) then 1 else 0) =
          if a.1 ∈ A ∧ a.2 ∈ B then 1 else 0 := by
        rw [← Finset.sum_product', Finset.sum_ite_eq]
        simp only [Finset.mem_product]
      simp only [List.count_cons, Finset.sum_add_distrib, ih, beq_iff_eq, hone, List.countP_cons,
        decide_eq_true_eq]

/-- Sending lowers a cut by the amount for each arc that enters it, and raises it by the amount for
each that leaves it. -/
theorem cutCapacity_send (h : N.IsSquare) (hpath : ∀ a ∈ path, a.1 < N.nodes ∧ a.2 < N.nodes)
    {source sink : Nat} {S : Finset Nat} (hS : N.IsCut source sink S) :
    (N.send path amount).cutCapacity S = N.cutCapacity S -
      path.countP (fun a => a.1 ∉ S ∧ a.2 ∈ S) * amount +
      path.countP (fun a => a.2 ∉ S ∧ a.1 ∈ S) * amount := by
  have hamount : ∀ u ∈ Finset.range N.nodes \ S, ∀ v ∈ S,
      ((N.send path amount).left u v).amount = (N.left u v).amount -
        (path.count (u, v) : K) * amount + (path.count (v, u) : K) * amount := by
    intro u hu v hv
    rw [Finset.mem_sdiff, Finset.mem_range] at hu
    rw [h.left_send hpath]
    cases hleft : N.left u v with
    | unlimited => exact (hS.limited hu.1 hu.2 hv hleft).elim
    | finite c => rfl
  have hforth : ∑ u ∈ Finset.range N.nodes \ S, ∑ v ∈ S, (path.count (u, v) : K) =
      path.countP (fun a => a.1 ∉ S ∧ a.2 ∈ S) := by
    have hsum := sum_count_eq_countP (Finset.range N.nodes \ S) S path
    rw [List.countP_congr (q := fun a => a.1 ∉ S ∧ a.2 ∈ S)] at hsum
    · exact_mod_cast hsum
    · intro a ha
      simp [(hpath a ha).1]
  have hback : ∑ u ∈ Finset.range N.nodes \ S, ∑ v ∈ S, (path.count (v, u) : K) =
      path.countP (fun a => a.2 ∉ S ∧ a.1 ∈ S) := by
    have hsum := sum_count_eq_countP S (Finset.range N.nodes \ S) path
    rw [Finset.sum_comm, List.countP_congr (q := fun a => a.2 ∉ S ∧ a.1 ∈ S)] at hsum
    · exact_mod_cast hsum
    · intro a ha
      simp [(hpath a ha).2, and_comm]
  rw [cutCapacity, nodes_send, Finset.sum_congr rfl fun u hu => Finset.sum_congr rfl (hamount u hu)]
  simp only [Finset.sum_add_distrib, Finset.sum_sub_distrib, ← Finset.sum_mul, hforth, hback]
  rfl

/-- A cut stays a cut when something was sent. -/
theorem isCut_send (h : N.IsSquare) (hpath : ∀ a ∈ path, a.1 < N.nodes ∧ a.2 < N.nodes)
    {source sink : Nat} {S : Finset Nat} :
    (N.send path amount).IsCut source sink S ↔ N.IsCut source sink S := by
  have hlimited : ∀ u v, (N.send path amount).left u v = .unlimited ↔ N.left u v = .unlimited := by
    intro u v
    rw [h.left_send hpath]
    cases N.left u v <;> simp [shifted]
  constructor
  · intro hS
    exact ⟨fun hu => nodes_send N path amount ▸ hS.lt_nodes hu, hS.sink_mem, hS.source_notMem,
      fun hu hout hin => mt (hlimited _ _).mpr
        (hS.limited ((nodes_send N path amount).symm ▸ hu) hout hin)⟩
  · intro hS
    exact ⟨fun hu => (nodes_send N path amount).symm ▸ hS.lt_nodes hu, hS.sink_mem,
      hS.source_notMem, fun hu hout hin => mt (hlimited _ _).mp
        (hS.limited (nodes_send N path amount ▸ hu) hout hin)⟩

end Network

end TotalVariation
