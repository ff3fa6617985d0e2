import Mathlib
import TotalVariation.Proofs.Solver.Refine

/-! # One cut is enough

Where nothing but the variation keeps the objective from being smooth, both cuts of a region have
the same prices, and the second is made among the edges that the first left uncut. A set of vertices
and the least of the cheapest ones can be exchanged for their common part and their union, at no
higher cost. So the set that the first cut found stays the least of the cheapest ones when the edges
that leave it are taken out. The second cut finds that set again, and no edge leaves it any more.
-/

namespace TotalVariation

variable {K : Type} [ExactField K]

/-! ## Common parts and unions -/

namespace Terminal

variable {t : Terminal K} {a b : Bool}

omit [ExactField K] in
theorem Admits.and (ha : t.Admits a) (hb : t.Admits b) : t.Admits (a && b) := by
  cases a with
  | true => exact hb
  | false => exact ha

omit [ExactField K] in
theorem Admits.or (ha : t.Admits a) (hb : t.Admits b) : t.Admits (a || b) := by
  cases a with
  | true => exact ha
  | false => exact hb

theorem sidePrice_and_add_or (t : Terminal K) (a b : Bool) :
    t.sidePrice (a && b) + t.sidePrice (a || b) = t.sidePrice a + t.sidePrice b := by
  cases a with
  | true => exact add_comm _ _
  | false => rfl

end Terminal

namespace Partition

variable {P : Partition K} {edges : List Nat} {T U : Finset Nat}

theorem cutCost_cons (P : Partition K) (vertices : List Nat) (price : Nat → Terminal K) (e : Nat)
    (edges : List Nat) (T : Finset Nat) : P.cutCost vertices price (e :: edges) T =
      P.cutCost vertices price edges T + if P.leaves T e then P.weight e else 0 := by
  rw [cutCost, cutCost, List.map_cons, List.sum_cons]
  ring

/-- Exchanging two sets for their common part and their union changes nothing in the prices of the
sides. -/
theorem cutCost_nil_inter_add_union (P : Partition K) (vertices : List Nat)
    (price : Nat → Terminal K) (T U : Finset Nat) :
    P.cutCost vertices price [] (T ∩ U) + P.cutCost vertices price [] (T ∪ U) =
      P.cutCost vertices price [] T + P.cutCost vertices price [] U := by
  simp only [cutCost, List.map_nil, List.sum_nil, add_zero, ← List.sum_map_add]
  refine congrArg List.sum (List.map_congr_left fun v _ => ?_)
  have h := (price v).sidePrice_and_add_or (decide (v ∈ T)) (decide (v ∈ U))
  rw [← Bool.decide_and, ← Bool.decide_or] at h
  simpa only [Finset.mem_inter, Finset.mem_union] using h

/-- An edge leaves the common part or the union of two sets only if it leaves one of the sets, and
if it does not leave the first set, only one of the two. -/
theorem leaves_inter_add_union {e : Nat} (hweight : 0 ≤ P.weight e) :
    (if P.leaves (T ∩ U) e then P.weight e else 0) +
        (if P.leaves (T ∪ U) e then P.weight e else 0) ≤
      if P.leaves T e then 2 * P.weight e else if P.leaves U e then P.weight e else 0 := by
  by_cases htailT : P.graph.tailOf e ∈ T <;> by_cases hheadT : P.graph.headOf e ∈ T <;>
    by_cases htailU : P.graph.tailOf e ∈ U <;> by_cases hheadU : P.graph.headOf e ∈ U <;>
      simp [leaves, htailT, hheadT, htailU, hheadU, two_mul, hweight]

/-- Two sets can be exchanged for their common part and their union. What this saves is at least
what the edges that leave the first set cost in the second. -/
theorem cutCost_inter_add_union_le (vertices : List Nat) (price : Nat → Terminal K)
    (hweight : ∀ e ∈ edges, 0 ≤ P.weight e) (T U : Finset Nat) :
    P.cutCost vertices price edges (T ∩ U) + P.cutCost vertices price edges (T ∪ U) +
        P.cutCost vertices price (edges.filter fun e => !P.leaves T e) T ≤
      P.cutCost vertices price (edges.filter fun e => !P.leaves T e) U +
        2 * P.cutCost vertices price edges T := by
  induction edges with
  | nil =>
      rw [cutCost_nil_inter_add_union, List.filter_nil]
      linarith
  | cons e edges ih =>
      have hedges := ih fun e he => hweight e (List.mem_cons_of_mem _ he)
      have hedge := leaves_inter_add_union (T := T) (U := U) (hweight e List.mem_cons_self)
      rw [List.filter_cons]
      cases hleaves : P.leaves T e with
      | true =>
          simp only [hleaves, if_true, Bool.not_true, Bool.false_eq_true, if_false, cutCost_cons]
            at hedge ⊢
          linarith
      | false =>
          simp only [hleaves, if_true, Bool.not_false, Bool.false_eq_true, if_false, cutCost_cons]
            at hedge ⊢
          linarith

end Partition

namespace Solver

open TotalVariation.Partition

variable {P : Partition K} {vertices edges : List Nat} {price : Nat → Terminal K}
  {T U : Finset Nat} {s : Solver K} {x slope : Vec K} {r : Nat}

omit [ExactField K] in
theorem IsCutSide.inter (hT : IsCutSide vertices price T) (hU : IsCutSide vertices price U) :
    IsCutSide vertices price (T ∩ U) where
  subset v hv := hT.subset v (Finset.mem_inter.mp hv).1
  admits v hv := by
    have h := (hT.admits v hv).and (hU.admits v hv)
    rw [← Bool.decide_and] at h
    simpa only [Finset.mem_inter] using h

omit [ExactField K] in
theorem IsCutSide.union (hT : IsCutSide vertices price T) (hU : IsCutSide vertices price U) :
    IsCutSide vertices price (T ∪ U) where
  subset v hv := (Finset.mem_union.mp hv).elim (hT.subset v) (hU.subset v)
  admits v hv := by
    have h := (hT.admits v hv).or (hU.admits v hv)
    rw [← Bool.decide_or] at h
    simpa only [Finset.mem_union] using h

/-- The least of the cheapest sets stays so when the edges that leave it are taken out. -/
theorem IsLeastCutSide.of_uncut (hT : IsLeastCutSide P vertices price edges T)
    (hweight : ∀ e ∈ edges, 0 ≤ P.weight e) :
    IsLeastCutSide P vertices price (edges.filter fun e => !P.leaves T e) T where
  isCutSide := hT.isCutSide
  le U hU := by
    have hsaved := cutCost_inter_add_union_le vertices price hweight T U
    have hinter := hT.le _ (hT.isCutSide.inter hU)
    have hunion := hT.le _ (hT.isCutSide.union hU)
    linarith
  subset_of_eq U hU heq := by
    have hsaved := cutCost_inter_add_union_le vertices price hweight T U
    have hinter := hT.le _ (hT.isCutSide.inter hU)
    have hunion := hT.le _ (hT.isCutSide.union hU)
    -- the common part costs no more than the least of the cheapest sets, which therefore lies in it
    have hsame : P.cutCost vertices price edges (T ∩ U) = P.cutCost vertices price edges T := by
      linarith
    exact (hT.subset_of_eq _ (hT.isCutSide.inter hU) hsame).trans Finset.inter_subset_right

/-! ## Both cuts of a region -/

/-- Nothing is cut where every edge has both ends at one vertex. -/
theorem cutEdges?_eq_nil {cut : List Nat} (h : cutEdges? P vertices price edges = .ok cut)
    (hloops : ∀ e ∈ edges, P.graph.tailOf e = P.graph.headOf e) : cut = [] := by
  obtain ⟨side, rfl⟩ := exists_side_of_cutEdges? h
  refine List.filter_eq_nil_iff.mpr fun e he => ?_
  rw [hloops e he, bne_self_eq_false]
  exact Bool.false_ne_true

/-- In a region of one vertex all edges are loops. -/
theorem IsGrouped.tailOf_eq_headOf (h : s.IsGrouped x) (hr : r < s.partition.regionCount)
    (hlength : (s.partition.region r).length < 2) {e : Nat}
    (he : e ∈ s.partition.regionEdges r) :
    s.partition.graph.tailOf e = s.partition.graph.headOf e := by
  obtain ⟨htail, hhead⟩ := h.partition.ends_of_mem_regionEdges hr he
  obtain ⟨v, hv⟩ := List.length_eq_one_iff.mp
    (le_antisymm (Nat.le_of_lt_succ hlength) (List.length_pos_of_mem htail))
  rw [hv, List.mem_singleton] at htail hhead
  rw [htail, hhead]

/-- What is found in a region are the edges of the first cut, and unless one cut is enough also
those of the second cut among the edges that the first left. -/
theorem IsGrouped.splitRegion?_eq_ok (h : s.IsGrouped x) (hr : r < s.partition.regionCount)
    {up down : List Nat}
    (hup : cutEdges? s.partition (s.partition.region r) (s.upwardPrice slope (Vec.entry x r))
      (s.partition.regionEdges r) = .ok up)
    (hdown : cutEdges? s.partition (s.partition.region r) (s.downwardPrice slope (Vec.entry x r))
      ((s.partition.regionEdges r).filter fun e => !up.contains e) = .ok down) (oneCut : Bool) :
    s.splitRegion? slope oneCut r = .ok (if oneCut then up else up ++ down) := by
  have hnone (hloops : ∀ e ∈ s.partition.regionEdges r,
      s.partition.graph.tailOf e = s.partition.graph.headOf e) :
      (if oneCut then up else up ++ down) = [] := by
    rw [cutEdges?_eq_nil hup hloops,
      cutEdges?_eq_nil hdown fun e he => hloops e (List.mem_of_mem_filter he), List.append_nil,
      ite_self]
  rw [splitRegion?_eq_bind h.iterate]
  split
  next hlength => rw [hnone fun e he => h.tailOf_eq_headOf hr hlength he]
  next =>
    split
    next hempty =>
      rw [List.isEmpty_iff.mp hempty] at hnone
      rw [hnone fun e he => (List.not_mem_nil he).elim]
    next =>
      rw [hup, ok_bind]
      dsimp only
      cases oneCut with
      | true => rfl
      | false =>
          rw [Bool.false_or]
          split
          next hempty =>
            rw [List.isEmpty_iff.mp hempty] at hdown
            rw [cutEdges?_eq_nil hdown fun e he => (List.not_mem_nil he).elim, List.append_nil,
              ite_self]
          next =>
            rw [hdown]
            rfl

/-- Without targets and bounds a vertex pays its slope in both directions. -/
theorem downwardPrice_eq_upwardPrice (hone : s.needsOneCut = true) (slope : Vec K) (y : K) :
    s.downwardPrice slope y = s.upwardPrice slope y := by
  simp only [needsOneCut, Bool.and_eq_true, Option.isNone_iff_eq_none] at hone
  obtain ⟨⟨htargets, hlower⟩, hupper⟩ := hone
  funext v
  simp [downwardPrice, upwardPrice, isAtBound, htargets, hlower, hupper]

/-- Without targets and bounds, whatever the slope, the second cut of a region finds nothing among
the edges that the first left. So the same edges are found in the region with one cut and with
two. -/
theorem IsGrouped.splitRegion?_oneCut (h : s.IsGrouped x) (hone : s.needsOneCut = true)
    (slope : Vec K) (hr : r < s.partition.regionCount) :
    ∃ found,
      cutEdges? s.partition (s.partition.region r) (s.upwardPrice slope (Vec.entry x r))
        (s.partition.regionEdges r) = .ok found ∧
      cutEdges? s.partition (s.partition.region r) (s.downwardPrice slope (Vec.entry x r))
        ((s.partition.regionEdges r).filter fun e => !found.contains e) = .ok [] ∧
      s.splitRegion? slope true r = .ok found ∧ s.splitRegion? slope false r = .ok found := by
  obtain ⟨T, hT, hup⟩ := h.cutEdges?_eq_ok hr (fun _ he => he) (s.upwardPrice slope (Vec.entry x r))
  set found := (s.partition.regionEdges r).filter (s.partition.leaves T) with hfound
  have hleft : ((s.partition.regionEdges r).filter fun e => !found.contains e) =
      (s.partition.regionEdges r).filter fun e => !s.partition.leaves T e := by
    refine List.filter_congr fun e he => congrArg not ?_
    rw [Bool.eq_iff_iff, List.contains_iff_mem, hfound, List.mem_filter, and_iff_right he]
  have hdown : cutEdges? s.partition (s.partition.region r)
      (s.downwardPrice slope (Vec.entry x r))
      ((s.partition.regionEdges r).filter fun e => !found.contains e) = .ok [] := by
    rw [hleft, downwardPrice_eq_upwardPrice hone]
    obtain ⟨U, hU, hcut⟩ := h.cutEdges?_eq_ok hr (fun _ he => List.mem_of_mem_filter he)
      (s.upwardPrice slope (Vec.entry x r))
    -- the second cut finds the set of the first, and the edges that leave it are gone
    obtain rfl := (hT.of_uncut (h.weight_nonneg hr fun _ he => he)).unique hU
    rw [hcut, List.filter_filter]
    refine congrArg Except.ok (List.filter_eq_nil_iff.mpr fun e _ => ?_)
    simp
  refine ⟨found, hup, hdown, h.splitRegion?_eq_ok hr hup hdown true, ?_⟩
  rw [h.splitRegion?_eq_ok hr hup hdown false]
  simp

/-- Four vertices on a cycle with a loop, and a fifth behind an active edge. Two edges of the cycle
weigh nothing. -/
def cutCycle : Solver ℚ :=
  { ofPartition ((Partition.whole ⟨#[0, 2, 3, 4, 6, 6], #[0, 0, 1, 2, 3, 3], #[1, 3, 2, 3, 3, 4]⟩
      ⟨some #[1, 0, 2, 0, 1, 3], 0⟩).setActive [5] true).rebuild with
    x := some #[0, 7] }

theorem isGrouped_cutCycle : cutCycle.IsGrouped #[0, 7] where
  partition := by
    have hwhole : Partition.ofIndex? #[0, 2, 3, 4, 6, 6] #[1, 3, 2, 3, 3, 4]
        (some #[1, 0, 2, 0, 1, 3]) (0 : ℚ) = .ok (.whole ⟨#[0, 2, 3, 4, 6, 6], #[0, 0, 1, 2, 3, 3],
          #[1, 3, 2, 3, 3, 4]⟩ ⟨some #[1, 0, 2, 0, 1, 3], 0⟩) := by with_unfolding_all rfl
    exact ((isArranged_of_ofIndex? hwhole).setActive [5] true).isComponentwise_rebuild
  iterate := rfl
  edgeWeights_nonneg := by decide +kernel

/-- The first vertex moves up alone. The third pays nothing for either side and stays, so that all
that leaves the first, also the edge without weight, is found by the first cut. -/
theorem splitRegion?_oneCut_cutCycle :
    cutCycle.IsGrouped #[0, 7] ∧ cutCycle.needsOneCut = true ∧
      cutCycle.partition.regions = [[0, 1, 2, 3], [4]] ∧
      cutCycle.splitRegion? #[-5, 4, 0, 1, -2] true 0 = .ok [0, 1] ∧
      cutCycle.splitRegion? #[-5, 4, 0, 1, -2] false 0 = .ok [0, 1] := by
  have hcount : 0 < cutCycle.partition.regionCount := by decide +kernel
  have hcut : (cutCycle.splitRegion? #[-5, 4, 0, 1, -2] true 0).toOption.map id = some [0, 1] := by
    decide +kernel
  obtain ⟨_, hfound, rfl⟩ := eq_ok_of_toOption hcut
  obtain ⟨found, -, -, htrue, hfalse⟩ := isGrouped_cutCycle.splitRegion?_oneCut rfl
    #[-5, 4, 0, 1, -2] hcount
  obtain rfl := Except.ok.inj (htrue.symm.trans hfound)
  exact ⟨isGrouped_cutCycle, rfl, by decide +kernel, htrue, hfalse⟩

end Solver
end TotalVariation
