import Mathlib
import TotalVariation.Proofs.Solver.OneCut

/-! # Regions are cut on their own

No open edge joins two regions. So the cost of a set of vertices is the sum of the costs of its
parts in the regions, and the least of the cheapest sets of all open regions together is the union
of the least of the cheapest sets of each. One cut of all of them cuts the edges that the cuts of
the regions cut, and its capacity is the sum of theirs.
-/

namespace TotalVariation

variable {K : Type} [ExactField K] {P : Partition K} {vs ws es fs : List Nat}
  {price : Nat → Terminal K} {T U : Finset Nat}

namespace Terminal

theorem sidePrice_nonneg (b : Bool) (t : Terminal K) : 0 ≤ t.sidePrice b := by
  cases t with
  | finite c =>
      rw [sidePrice]
      split
      · exact le_max_right c 0
      · exact le_max_right (-c) 0
  | sourceOnly => exact le_rfl
  | sinkOnly => exact le_rfl

/-- Every vertex may stand on a side that costs it nothing. -/
theorem exists_sidePrice_eq_zero (t : Terminal K) : ∃ b, t.Admits b ∧ t.sidePrice b = 0 := by
  cases t with
  | finite c =>
      rcases le_total 0 c with hpos | hneg
      · exact ⟨false, trivial, max_eq_right (neg_nonpos.mpr hpos)⟩
      · exact ⟨true, trivial, max_eq_right hneg⟩
  | sourceOnly => exact ⟨false, rfl, rfl⟩
  | sinkOnly => exact ⟨true, rfl, rfl⟩

end Terminal

/-! ## Costs of parts -/

namespace Partition

theorem cutCost_append (P : Partition K) (vs ws : List Nat) (price : Nat → Terminal K)
    (es fs : List Nat) (T : Finset Nat) : P.cutCost (vs ++ ws) price (es ++ fs) T =
      P.cutCost vs price es T + P.cutCost ws price fs T := by
  simp only [cutCost, List.map_append, List.sum_append]
  ring

theorem cutCost_flatMap (P : Partition K) (parts : List Nat) (verticesOf : Nat → List Nat)
    (price : Nat → Terminal K) (edgesOf : Nat → List Nat) (T : Finset Nat) :
    P.cutCost (parts.flatMap verticesOf) price (parts.flatMap edgesOf) T =
      (parts.map fun i => P.cutCost (verticesOf i) price (edgesOf i) T).sum := by
  induction parts with
  | nil => exact add_zero 0
  | cons i parts ih =>
      rw [List.flatMap_cons, List.flatMap_cons, cutCost_append, ih, List.map_cons, List.sum_cons]

/-- The order of the vertices and edges does not count. -/
theorem cutCost_perm (hvs : vs.Perm ws) (hes : es.Perm fs) :
    P.cutCost vs price es T = P.cutCost ws price fs T := by
  rw [cutCost, cutCost, (hvs.map _).sum_eq, (hes.map _).sum_eq]

/-- Only the vertices of a problem count for the cost of a set. -/
theorem cutCost_congr (hends : ∀ e ∈ es, P.graph.tailOf e ∈ vs ∧ P.graph.headOf e ∈ vs)
    (h : ∀ v ∈ vs, (v ∈ T ↔ v ∈ U)) : P.cutCost vs price es T = P.cutCost vs price es U := by
  rw [cutCost, cutCost]
  refine congrArg₂ _ (congrArg List.sum (List.map_congr_left fun v hv => ?_))
    (congrArg List.sum (List.map_congr_left fun e he => ?_))
  · rw [decide_eq_decide.mpr (h v hv)]
  · rw [leaves_congr (h _ (hends e he).1) (h _ (hends e he).2)]

theorem cutCost_nonneg (hweight : ∀ e ∈ es, 0 ≤ P.weight e) : 0 ≤ P.cutCost vs price es T := by
  refine add_nonneg (List.sum_nonneg ?_) (List.sum_nonneg ?_)
  · intro a ha
    obtain ⟨v, -, rfl⟩ := List.mem_map.mp ha
    exact (price v).sidePrice_nonneg _
  · intro a ha
    obtain ⟨e, he, rfl⟩ := List.mem_map.mp ha
    exact ite_nonneg (hweight e he) le_rfl

end Partition

namespace Solver

open TotalVariation.Partition

variable {s : Solver K} {x slope : Vec K} {r : Nat}

/-! ## The least of the cheapest sets of all parts -/

omit [ExactField K] in
theorem IsCutSide.perm (hT : IsCutSide vs price T) (hvs : vs.Perm ws) : IsCutSide ws price T where
  subset v hv := hvs.mem_iff.mp (hT.subset v hv)
  admits v hv := hT.admits v (hvs.mem_iff.mpr hv)

theorem IsLeastCutSide.perm (hT : IsLeastCutSide P vs price es T) (hvs : vs.Perm ws)
    (hes : es.Perm fs) : IsLeastCutSide P ws price fs T where
  isCutSide := hT.isCutSide.perm hvs
  le U hU := by
    rw [← cutCost_perm hvs hes, ← cutCost_perm hvs hes]
    exact hT.le U (hU.perm hvs.symm)
  subset_of_eq U hU heq := by
    rw [← cutCost_perm hvs hes, ← cutCost_perm hvs hes] at heq
    exact hT.subset_of_eq U (hU.perm hvs.symm) heq

omit [ExactField K] in
/-- The part of a set among some of the vertices. -/
theorem IsCutSide.inter_of_subset (hT : IsCutSide vs price T) (h : ∀ v ∈ ws, v ∈ vs) :
    IsCutSide ws price (T ∩ ws.toFinset) where
  subset v hv := List.mem_toFinset.mp (Finset.mem_inter.mp hv).2
  admits v hv := by
    have hmem : v ∈ T ∩ ws.toFinset ↔ v ∈ T := by
      rw [Finset.mem_inter, List.mem_toFinset, and_iff_left hv]
    rw [decide_eq_decide.mpr hmem]
    exact hT.admits v (h v hv)

/-- A problem that falls into two parts without common vertices is solved part by part. -/
theorem IsLeastCutSide.append (hT : IsLeastCutSide P vs price es T)
    (hU : IsLeastCutSide P ws price fs U) (hdisjoint : vs.Disjoint ws)
    (hes : ∀ e ∈ es, P.graph.tailOf e ∈ vs ∧ P.graph.headOf e ∈ vs)
    (hfs : ∀ e ∈ fs, P.graph.tailOf e ∈ ws ∧ P.graph.headOf e ∈ ws) :
    IsLeastCutSide P (vs ++ ws) price (es ++ fs) (T ∪ U) := by
  have hleft : ∀ v ∈ vs, (v ∈ T ∪ U ↔ v ∈ T) := fun v hv => by
    rw [Finset.mem_union, or_iff_left fun hin => hdisjoint hv (hU.isCutSide.subset v hin)]
  have hright : ∀ v ∈ ws, (v ∈ T ∪ U ↔ v ∈ U) := fun v hv => by
    rw [Finset.mem_union, or_iff_right fun hin => hdisjoint (hT.isCutSide.subset v hin) hv]
  have hcost : P.cutCost (vs ++ ws) price (es ++ fs) (T ∪ U) =
      P.cutCost vs price es T + P.cutCost ws price fs U := by
    rw [cutCost_append, cutCost_congr hes hleft, cutCost_congr hfs hright]
  have hparts (V : Finset Nat) : P.cutCost (vs ++ ws) price (es ++ fs) V =
      P.cutCost vs price es (V ∩ vs.toFinset) + P.cutCost ws price fs (V ∩ ws.toFinset) := by
    rw [cutCost_append]
    refine congrArg₂ _ (cutCost_congr hes fun v hv => ?_) (cutCost_congr hfs fun v hv => ?_)
    · rw [Finset.mem_inter, List.mem_toFinset, and_iff_left hv]
    · rw [Finset.mem_inter, List.mem_toFinset, and_iff_left hv]
  refine ⟨⟨fun v hv => ?_, fun v hv => ?_⟩, fun V hV => ?_, fun V hV heq => ?_⟩
  · exact List.mem_append.mpr
      ((Finset.mem_union.mp hv).imp (hT.isCutSide.subset v) (hU.isCutSide.subset v))
  · rcases List.mem_append.mp hv with hin | hin
    · rw [decide_eq_decide.mpr (hleft v hin)]
      exact hT.isCutSide.admits v hin
    · rw [decide_eq_decide.mpr (hright v hin)]
      exact hU.isCutSide.admits v hin
  · rw [hcost, hparts]
    exact add_le_add (hT.le _ (hV.inter_of_subset fun v => List.mem_append_left ws))
      (hU.le _ (hV.inter_of_subset fun v => List.mem_append_right vs))
  · have hVleft : IsCutSide vs price (V ∩ vs.toFinset) :=
      hV.inter_of_subset fun v => List.mem_append_left ws
    have hVright : IsCutSide ws price (V ∩ ws.toFinset) :=
      hV.inter_of_subset fun v => List.mem_append_right vs
    -- neither part can be cheaper, so that each costs what its least set costs
    rw [hcost, hparts] at heq
    have hTle := hT.le _ hVleft
    have hUle := hU.le _ hVright
    refine Finset.union_subset
      ((hT.subset_of_eq _ hVleft ?_).trans Finset.inter_subset_left)
      ((hU.subset_of_eq _ hVright ?_).trans Finset.inter_subset_left)
    · linarith
    · linarith

theorem isLeastCutSide_nil : IsLeastCutSide P [] price [] ∅ where
  isCutSide := ⟨fun _ hv => absurd hv (Finset.notMem_empty _), fun _ hv => absurd hv List.not_mem_nil⟩
  le _ _ := le_rfl
  subset_of_eq _ _ _ := Finset.empty_subset _

section Parts

variable {parts : List Nat} {verticesOf edgesOf : Nat → List Nat} {sideOf : Nat → Finset Nat}
  (hdisjoint : parts.Pairwise fun i j => (verticesOf i).Disjoint (verticesOf j))
  (hends : ∀ i ∈ parts, ∀ e ∈ edgesOf i,
    P.graph.tailOf e ∈ verticesOf i ∧ P.graph.headOf e ∈ verticesOf i)
  (hleast : ∀ i ∈ parts, IsLeastCutSide P (verticesOf i) price (edgesOf i) (sideOf i))

include hdisjoint hleast

/-- The union of sets of the parts has in each part the set of that part. -/
theorem mem_biUnion_sideOf {i : Nat} (hi : i ∈ parts) {v : Nat} (hv : v ∈ verticesOf i) :
    v ∈ parts.toFinset.biUnion sideOf ↔ v ∈ sideOf i := by
  rw [Finset.mem_biUnion]
  constructor
  · rintro ⟨j, hj, hin⟩
    have hj' := List.mem_toFinset.mp hj
    have hsymm : Std.Symm fun i j => (verticesOf i).Disjoint (verticesOf j) := ⟨fun _ _ h => h.symm⟩
    by_contra hnot
    have hne : i ≠ j := fun heq => hnot (heq ▸ hin)
    exact hdisjoint.forall hi hj' hne hv ((hleast j hj').isCutSide.subset v hin)
  · exact fun hin => ⟨i, List.mem_toFinset.mpr hi, hin⟩

include hends

/-- A problem that falls into parts without common vertices is solved part by part. -/
theorem IsLeastCutSide.flatMap : IsLeastCutSide P (parts.flatMap verticesOf) price
    (parts.flatMap edgesOf) (parts.toFinset.biUnion sideOf) := by
  induction parts with
  | nil => exact isLeastCutSide_nil
  | cons i parts ih =>
      obtain ⟨hfirst, hrest⟩ := List.pairwise_cons.mp hdisjoint
      rw [List.forall_mem_cons] at hends hleast
      rw [List.toFinset_cons, Finset.biUnion_insert, List.flatMap_cons, List.flatMap_cons]
      refine hleast.1.append (ih hrest hends.2 hleast.2) ?_ hends.1 fun e he => ?_
      · intro v hv hin
        obtain ⟨j, hj, hvj⟩ := List.mem_flatMap.mp hin
        exact hfirst j hj hv hvj
      · obtain ⟨j, hj, hej⟩ := List.mem_flatMap.mp he
        obtain ⟨htail, hhead⟩ := hends.2 j hj e hej
        exact ⟨List.mem_flatMap.mpr ⟨j, hj, htail⟩, List.mem_flatMap.mpr ⟨j, hj, hhead⟩⟩

/-- The edges that leave the union of the sets of the parts. -/
theorem filter_leaves_flatMap :
    (parts.flatMap edgesOf).filter (P.leaves (parts.toFinset.biUnion sideOf)) =
      parts.flatMap fun i => (edgesOf i).filter (P.leaves (sideOf i)) := by
  rw [List.filter_flatMap]
  refine List.flatMap_congr fun i hi => List.filter_congr fun e he => ?_
  obtain ⟨htail, hhead⟩ := hends i hi e he
  exact leaves_congr (mem_biUnion_sideOf hdisjoint hleast hi htail)
    (mem_biUnion_sideOf hdisjoint hleast hi hhead)

/-- The union of the sets of the parts costs what they cost together. -/
theorem cutCost_biUnion_sideOf :
    P.cutCost (parts.flatMap verticesOf) price (parts.flatMap edgesOf)
        (parts.toFinset.biUnion sideOf) =
      (parts.map fun i => P.cutCost (verticesOf i) price (edgesOf i) (sideOf i)).sum := by
  rw [cutCost_flatMap]
  refine congrArg List.sum (List.map_congr_left fun i hi => ?_)
  exact cutCost_congr (hends i hi) fun v hv => mem_biUnion_sideOf hdisjoint hleast hi hv

end Parts

/-- Where no edge joins two vertices, all vertices may stand where it costs them nothing. -/
theorem IsLeastCutSide.cutCost_eq_zero (hT : IsLeastCutSide P vs price es T)
    (hweight : ∀ e ∈ es, 0 ≤ P.weight e)
    (hloops : ∀ e ∈ es, P.graph.tailOf e = P.graph.headOf e) : P.cutCost vs price es T = 0 := by
  choose side hadmits hfree using fun v => (price v).exists_sidePrice_eq_zero
  set U : Finset Nat := {v ∈ vs.toFinset | side v = true} with hU
  have hmem : ∀ v ∈ vs, decide (v ∈ U) = side v := fun v hv => by
    simp [hU, hv]
  have hside : IsCutSide vs price U := by
    refine ⟨fun v hv => List.mem_toFinset.mp (Finset.mem_filter.mp hv).1, fun v hv => ?_⟩
    rw [hmem v hv]
    exact hadmits v
  have hfreely : P.cutCost vs price es U = 0 := by
    refine (congrArg₂ (· + ·) (List.sum_eq_zero ?_) (List.sum_eq_zero ?_)).trans (add_zero 0)
    · intro a ha
      obtain ⟨v, hv, rfl⟩ := List.mem_map.mp ha
      rw [hmem v hv, hfree v]
    · intro a ha
      obtain ⟨e, he, rfl⟩ := List.mem_map.mp ha
      rw [leaves_eq_false.mpr (by rw [hloops e he])]
      rfl
  exact le_antisymm ((hT.le U hside).trans_eq hfreely) (cutCost_nonneg hweight)

/-! ## One cut of all open regions -/

/-- The price of moving a vertex up from the value of its region. -/
def upwardPriceAt (s : Solver K) (x slope : Vec K) (v : Nat) : Terminal K :=
  s.upwardPrice slope (Vec.entry x (s.partition.regionOf v)) v

/-- The upward cut of a region, its capacity, and what is found in the region with one cut. -/
theorem IsGrouped.upwardCut_eq_ok (h : s.IsGrouped x) (hr : r < s.partition.regionCount)
    (hT : IsLeastCutSide s.partition (s.partition.region r) (s.upwardPriceAt x slope)
      (s.partition.regionEdges r) T) :
    cutEdges? s.partition (s.partition.region r) (s.upwardPrice slope (Vec.entry x r))
        (s.partition.regionEdges r) =
      .ok ((s.partition.regionEdges r).filter (s.partition.leaves T)) ∧
    cutValue? s.partition (s.partition.region r) (s.upwardPrice slope (Vec.entry x r))
        (s.partition.regionEdges r) =
      .ok (some (s.partition.cutCost (s.partition.region r) (s.upwardPriceAt x slope)
        (s.partition.regionEdges r) T)) ∧
    s.splitRegion? slope true r =
      .ok ((s.partition.regionEdges r).filter (s.partition.leaves T)) := by
  have hnodup := h.partition.nodup_region hr
  have hends := h.ends_mem hr fun _ he => he
  have hweight := h.weight_nonneg hr fun _ he => he
  have hprice : ∀ v ∈ s.partition.region r,
      s.upwardPrice slope (Vec.entry x r) v = s.upwardPriceAt x slope v := by
    intro v hv
    rw [upwardPriceAt, ((h.partition.indexed r hr v).mp hv).2]
  have hcut : cutEdges? s.partition (s.partition.region r)
      (s.upwardPrice slope (Vec.entry x r)) (s.partition.regionEdges r) =
        .ok ((s.partition.regionEdges r).filter (s.partition.leaves T)) := by
    rw [cutEdges?_congr _ _ hprice]
    exact hT.cutEdges?_eq_ok _ hnodup hends hweight
  refine ⟨hcut, ?_, ?_⟩
  · rw [cutValue?, minimalCut?_congr hprice]
    exact hT.cutValue?_eq_ok _ hnodup hends hweight
  · obtain ⟨_, -, hdown⟩ := h.cutEdges?_eq_ok hr
      (fun _ he => List.mem_of_mem_filter he) (s.downwardPrice slope (Vec.entry x r))
    exact h.splitRegion?_eq_ok hr hcut hdown true

/-- What is cut in each open region by itself is what one cut of all of them cuts, whatever the
order of their vertices and edges, and the capacities of the cuts add up. A region that is not cut
at all, for want of a second vertex or of an open edge, adds nothing to them. -/
theorem IsGrouped.cutEdges?_openRegions (h : s.IsGrouped x) (slope : Vec K) :
    ∃ (found : Nat → List Nat) (value : Nat → K),
      (∀ r ∈ openRegions s.partition,
        cutEdges? s.partition (s.partition.region r) (s.upwardPrice slope (Vec.entry x r))
            (s.partition.regionEdges r) = .ok (found r) ∧
          cutValue? s.partition (s.partition.region r) (s.upwardPrice slope (Vec.entry x r))
            (s.partition.regionEdges r) = .ok (some (value r)) ∧
          s.splitRegion? slope true r = .ok (found r) ∧
          ((s.partition.region r).length < 2 ∨ s.partition.regionEdges r = [] → value r = 0)) ∧
      ∀ vertices edges, vertices.Perm ((openRegions s.partition).flatMap s.partition.region) →
        edges.Perm ((openRegions s.partition).flatMap s.partition.regionEdges) →
        ∃ cut, cutEdges? s.partition vertices (s.upwardPriceAt x slope) edges = .ok cut ∧
          cut.Perm ((openRegions s.partition).flatMap found) ∧
          cutValue? s.partition vertices (s.upwardPriceAt x slope) edges =
            .ok (some ((openRegions s.partition).map value).sum) := by
  set P := s.partition
  set price := s.upwardPriceAt x slope
  have hlt : ∀ r ∈ openRegions P, r < P.regionCount := fun r hr => (mem_openRegions_iff.mp hr).1
  have hends : ∀ r ∈ openRegions P, ∀ e ∈ P.regionEdges r,
      P.graph.tailOf e ∈ P.region r ∧ P.graph.headOf e ∈ P.region r :=
    fun r hr => h.ends_mem (hlt r hr) fun _ he => he
  have hweight : ∀ r ∈ openRegions P, ∀ e ∈ P.regionEdges r, 0 ≤ P.weight e :=
    fun r hr => h.weight_nonneg (hlt r hr) fun _ he => he
  have hleast : ∀ r ∈ openRegions P, ∃ T,
      IsLeastCutSide P (P.region r) price (P.regionEdges r) T := fun r hr =>
    (h.cutEdges?_eq_ok (hlt r hr) (fun _ he => he) price).imp fun _ hT => hT.1
  choose! T hT using hleast
  refine ⟨fun r => (P.regionEdges r).filter (P.leaves (T r)),
    fun r => P.cutCost (P.region r) price (P.regionEdges r) (T r), fun r hr => ?_,
    fun vertices edges hvertices hedges => ?_⟩
  · obtain ⟨hcut, hvalue, hsplit⟩ := h.upwardCut_eq_ok (hlt r hr) (hT r hr)
    refine ⟨hcut, hvalue, hsplit, fun hsmall => ?_⟩
    refine (hT r hr).cutCost_eq_zero (hweight r hr) fun e he => ?_
    rcases hsmall with hlength | hnone
    · exact h.tailOf_eq_headOf (hlt r hr) hlength he
    · rw [hnone] at he
      exact absurd he List.not_mem_nil
  · have hregions : (openRegions P).Nodup := List.nodup_range.filter _
    have hdisjoint : (openRegions P).Pairwise fun i j => (P.region i).Disjoint (P.region j) := by
      refine hregions.imp_of_mem fun {i j} hi hj hne v hvi hvj => hne ?_
      rw [← ((h.partition.indexed i (hlt i hi) v).mp hvi).2,
        ← ((h.partition.indexed j (hlt j hj) v).mp hvj).2]
    have hjoint := (IsLeastCutSide.flatMap hdisjoint hends hT).perm hvertices.symm hedges.symm
    have hnodup : vertices.Nodup := hvertices.nodup_iff.mpr
      (List.nodup_flatMap.mpr ⟨fun r hr => h.partition.nodup_region (hlt r hr), hdisjoint⟩)
    have hends' : ∀ e ∈ edges, P.graph.tailOf e ∈ vertices ∧ P.graph.headOf e ∈ vertices := by
      intro e he
      obtain ⟨r, hr, her⟩ := List.mem_flatMap.mp (hedges.mem_iff.mp he)
      obtain ⟨htail, hhead⟩ := hends r hr e her
      rw [hvertices.mem_iff, hvertices.mem_iff]
      exact ⟨List.mem_flatMap.mpr ⟨r, hr, htail⟩, List.mem_flatMap.mpr ⟨r, hr, hhead⟩⟩
    have hweight' : ∀ e ∈ edges, 0 ≤ P.weight e := by
      intro e he
      obtain ⟨r, hr, her⟩ := List.mem_flatMap.mp (hedges.mem_iff.mp he)
      exact hweight r hr e her
    refine ⟨_, hjoint.cutEdges?_eq_ok price hnodup hends' hweight', ?_, ?_⟩
    · refine (hedges.filter _).trans (.of_eq ?_)
      exact filter_leaves_flatMap hdisjoint hends hT
    · rw [hjoint.cutValue?_eq_ok price hnodup hends' hweight', cutCost_perm hvertices hedges,
        cutCost_biUnion_sideOf hdisjoint hends hT]

/-- Four regions, the third of which is solved. The first vertex stands at its target, the fourth at
its upper bound. -/
def boundedRegions : Solver ℚ :=
  let whole := Partition.whole ⟨#[0, 1, 2, 3, 4, 6, 7, 8, 8], #[0, 1, 2, 3, 4, 4, 5, 6],
    #[1, 2, 3, 4, 2, 5, 6, 7]⟩ ⟨some #[1, 1, 1, 1, 3, 1, 1, 1], 0⟩
  { ofPartition (Partition.rebuild { whole with
      active := #[false, true, false, false, false, true, false, true]
      regions := [[0, 1], [2, 3, 4], [5, 6], [7]]
      saturated := #[false, false, true, false] }) with
    targetWeights := ⟨some #[1, 0, 0, 0, 0, 0, 0, 0], 0⟩
    upper := ⟨some #[none, none, none, some 3, none, none, none, none], none⟩
    x := some #[0, 3, 5, 1] }

theorem isGrouped_boundedRegions : boundedRegions.IsGrouped #[0, 3, 5, 1] where
  partition := by
    have hwhole : Partition.ofIndex? #[0, 1, 2, 3, 4, 6, 7, 8, 8] #[1, 2, 3, 4, 2, 5, 6, 7]
        (some #[1, 1, 1, 1, 3, 1, 1, 1]) (0 : ℚ) = .ok (.whole ⟨#[0, 1, 2, 3, 4, 6, 7, 8, 8],
          #[0, 1, 2, 3, 4, 4, 5, 6], #[1, 2, 3, 4, 2, 5, 6, 7]⟩
          ⟨some #[1, 1, 1, 1, 3, 1, 1, 1], 0⟩) := by with_unfolding_all rfl
    exact IsArranged.isComponentwise_rebuild
      ⟨(isArranged_of_ofIndex? hwhole).graph_valid, rfl, by decide, by decide⟩
  iterate := rfl
  edgeWeights_nonneg := by decide +kernel

/-- The first vertex moves up alone, and so does the third, next to one that cannot. With all open
vertices and edges in the opposite order, one cut finds the same edges. -/
theorem cutEdges?_boundedRegions :
    boundedRegions.IsGrouped #[0, 3, 5, 1] ∧ openRegions boundedRegions.partition = [0, 1, 3] ∧
      boundedRegions.splitRegion? #[-4, 1, -5, -6, 6, -9, 9, -2] true 0 = .ok [0] ∧
      boundedRegions.splitRegion? #[-4, 1, -5, -6, 6, -9, 9, -2] true 1 = .ok [2, 4] ∧
      boundedRegions.splitRegion? #[-4, 1, -5, -6, 6, -9, 9, -2] true 3 = .ok [] ∧
      ∃ cut, cutEdges? boundedRegions.partition [7, 4, 3, 2, 1, 0]
          (boundedRegions.upwardPriceAt #[0, 3, 5, 1] #[-4, 1, -5, -6, 6, -9, 9, -2]) [4, 3, 2, 0] =
            .ok cut ∧ cut.Perm [0, 2, 4] ∧
        cutValue? boundedRegions.partition [7, 4, 3, 2, 1, 0]
          (boundedRegions.upwardPriceAt #[0, 3, 5, 1] #[-4, 1, -5, -6, 6, -9, 9, -2]) [4, 3, 2, 0] =
            .ok (some 5) := by
  have hopen : openRegions boundedRegions.partition = [0, 1, 3] := by decide +kernel
  obtain ⟨found, value, hparts, hjoint⟩ :=
    isGrouped_boundedRegions.cutEdges?_openRegions #[-4, 1, -5, -6, 6, -9, 9, -2]
  rw [hopen] at hparts hjoint
  obtain ⟨-, hvalue₀, hfound₀, -⟩ := hparts 0 (by decide)
  obtain ⟨-, hvalue₁, hfound₁, -⟩ := hparts 1 (by decide)
  obtain ⟨-, -, hfound₃, hnothing⟩ := hparts 3 (by decide)
  have hfirst : found 0 = [0] :=
    Option.some.inj ((congrArg Except.toOption hfound₀).symm.trans (by decide +kernel))
  have hsecond : found 1 = [2, 4] :=
    Option.some.inj ((congrArg Except.toOption hfound₁).symm.trans (by decide +kernel))
  have hfourth : found 3 = [] :=
    Option.some.inj ((congrArg Except.toOption hfound₃).symm.trans (by decide +kernel))
  have hone : value 0 = 1 := Option.some.inj
    (Option.some.inj ((congrArg Except.toOption hvalue₀).symm.trans (by decide +kernel)))
  have hfour : value 1 = 4 := Option.some.inj
    (Option.some.inj ((congrArg Except.toOption hvalue₁).symm.trans (by decide +kernel)))
  have hzero : value 3 = 0 := hnothing (.inl (by decide +kernel))
  obtain ⟨cut, hcut, hperm, hvalue⟩ := hjoint [7, 4, 3, 2, 1, 0] [4, 3, 2, 0]
    (by decide +kernel) (by decide +kernel)
  refine ⟨isGrouped_boundedRegions, hopen, hfirst ▸ hfound₀, hsecond ▸ hfound₁, hfourth ▸ hfound₃, cut,
    hcut, ?_, ?_⟩
  · simpa [hfirst, hsecond, hfourth] using hperm
  · rw [hvalue, List.map_cons, List.map_cons, List.map_cons, List.map_nil, hone, hfour, hzero]
    norm_num

end Solver
end TotalVariation
