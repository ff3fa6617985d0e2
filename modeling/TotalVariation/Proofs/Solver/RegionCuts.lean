import Mathlib
import TotalVariation.Proofs.Partition.EdgesFrom
import TotalVariation.Proofs.Solver.CutEdges
import TotalVariation.Proofs.Solver.Slope

/-! # The two cuts of a region

Among the sets of vertices of a region that may move up, the upward cut finds the least of those
with the smallest slope; among those that may move down, the downward cut finds the largest.
-/

namespace TotalVariation

namespace Partition

section Lists

variable {α : Type} {P : Partition α} {r : Nat}

/-- The open edges that start in a region. -/
def regionEdges (P : Partition α) (r : Nat) : List Nat :=
  (P.edgesFrom (P.region r)).filter fun e => !P.isActive e

namespace IsComponentwise

theorem mem_regionEdges (h : P.IsComponentwise) (hr : r < P.regionCount) {e : Nat} :
    e ∈ P.regionEdges r ↔ e ∈ P.openEdges ∧ P.graph.tailOf e ∈ P.members r := by
  rw [regionEdges, List.mem_filter, mem_edgesFrom h.graph_valid fun _ => h.lt_of_mem_region,
    h.indexed r hr, mem_openEdges, mem_members, and_right_comm, Bool.not_eq_true']

theorem nodup_regionEdges (h : P.IsComponentwise) (hr : r < P.regionCount) :
    (P.regionEdges r).Nodup :=
  (nodup_edgesFrom h.graph_valid (fun _ => h.lt_of_mem_region) (h.nodup_region hr)).filter _

/-- Both ends of the edges of a region lie in it. -/
theorem ends_of_mem_regionEdges (h : P.IsComponentwise) (hr : r < P.regionCount) {e : Nat}
    (he : e ∈ P.regionEdges r) :
    P.graph.tailOf e ∈ P.region r ∧ P.graph.headOf e ∈ P.region r := by
  obtain ⟨hopen, htail⟩ := (h.mem_regionEdges hr).mp he
  obtain ⟨hlt, hinactive⟩ := mem_openEdges.mp hopen
  obtain ⟨htlt, hregion⟩ := mem_members.mp htail
  rw [h.indexed r hr, h.indexed r hr, ← h.regionOf_eq_of_inactive hlt hinactive]
  exact ⟨⟨htlt, hregion⟩, h.graph_valid.head_lt e hlt, hregion⟩

end IsComponentwise

namespace IsConsistent

theorem leaves_eq_false_of_notMem (h : P.IsConsistent) (hr : r < P.regionCount) {U : Finset Nat}
    (hU : U ⊆ P.members r) {e : Nat} (he : e ∈ P.openEdges) (hnot : e ∉ P.regionEdges r) :
    P.leaves U e = false := by
  have htail : P.graph.tailOf e ∉ P.members r := fun htail =>
    hnot ((h.isComponentwise.mem_regionEdges hr).mpr ⟨he, htail⟩)
  have hhead := mt (h.tail_mem_iff he r).mpr htail
  exact leaves_eq_false.mpr (iff_of_false (fun hin => htail (hU hin)) fun hin => hhead (hU hin))

/-- Where no edge of a region leaves a part of it, that part is empty or the whole region. -/
theorem eq_empty_or_eq_of_filter_eq_nil (h : P.IsConsistent) (hr : r < P.regionCount)
    {U : Finset Nat} (hU : U ⊆ P.members r) (hnil : (P.regionEdges r).filter (P.leaves U) = []) :
    U = ∅ ∨ U = P.members r := by
  apply h.eq_empty_or_eq_members hU
  intro e he
  by_cases hmem : e ∈ P.regionEdges r
  · exact Bool.eq_false_iff.mpr (List.filter_eq_nil_iff.mp hnil e hmem)
  · exact h.leaves_eq_false_of_notMem hr hU he hmem

/-- No edge of a region leaves a part of it exactly if that part is empty or the whole region. -/
theorem filter_leaves_eq_nil_iff (h : P.IsConsistent) (hr : r < P.regionCount)
    {U : Finset Nat} (hU : U ⊆ P.members r) :
    (P.regionEdges r).filter (P.leaves U) = [] ↔ U = ∅ ∨ U = P.members r := by
  refine ⟨h.eq_empty_or_eq_of_filter_eq_nil hr hU, fun hwhole => ?_⟩
  rw [List.filter_eq_nil_iff]
  intro e he
  have hopen := ((h.isComponentwise.mem_regionEdges hr).mp he).1
  rcases hwhole with rfl | rfl
  · simp [leaves]
  · rw [leaves_eq_false.mpr (h.tail_mem_iff hopen r)]
    exact Bool.false_ne_true

end IsConsistent

end Lists

variable {K : Type} [ExactField K] {P : Partition K} {r : Nat}

namespace IsConsistent

/-- The weight of the edges that leave a part of a region. -/
theorem sum_regionEdges (h : P.IsConsistent) (hr : r < P.regionCount) {U : Finset Nat}
    (hU : U ⊆ P.members r) :
    ((P.regionEdges r).map fun e => if P.leaves U e then P.weight e else 0).sum =
      ∑ e ∈ P.openEdges, if P.leaves U e then P.weight e else 0 := by
  rw [← List.sum_toFinset _ (h.isComponentwise.nodup_regionEdges hr)]
  refine Finset.sum_subset (fun e he => ?_) fun e he hnot => ?_
  · exact ((h.isComponentwise.mem_regionEdges hr).mp (List.mem_toFinset.mp he)).1
  · rw [h.leaves_eq_false_of_notMem hr hU he (fun hmem => hnot (List.mem_toFinset.mpr hmem))]
    simp

theorem sum_region (h : P.IsConsistent) (hr : r < P.regionCount) (f : Nat → K) :
    ((P.region r).map f).sum = ∑ v ∈ P.members r, f v := by
  rw [← h.isIndexed.toFinset_region hr, List.sum_toFinset f (h.nodup_region hr)]

end IsConsistent
end Partition

namespace Terminal

variable {K : Type} [ExactField K]

/-- The price of a side, against the price of the source side. -/
theorem sidePrice_eq_add {t : Terminal K} {b : Bool} (h : t.Admits b) {c : K}
    (hc : t = .sourceOnly ∨ t = .finite c) :
    t.sidePrice b = t.sidePrice false + if b then c else 0 := by
  rcases hc with rfl | rfl
  · rw [show b = false from h]
    simp [sidePrice]
  · cases b with
    | false => simp
    | true =>
        simp only [sidePrice, if_true, Bool.false_eq_true, if_false]
        rcases le_total 0 c with hpos | hneg
        · rw [max_eq_left hpos, max_eq_right (neg_nonpos.mpr hpos), zero_add]
        · rw [max_eq_right hneg, max_eq_left (neg_nonneg.mpr hneg), neg_add_cancel]

/-- The price of a side, against the price of the sink side. -/
theorem sidePrice_eq_sub {t : Terminal K} {b : Bool} (h : t.Admits b) {c : K}
    (hc : t = .sinkOnly ∨ t = .finite (-c)) :
    t.sidePrice b = t.sidePrice true + if b then 0 else c := by
  rcases hc with rfl | rfl
  · rw [show b = true from h]
    simp [sidePrice]
  · cases b with
    | true => simp
    | false =>
        simp only [sidePrice, if_true, Bool.false_eq_true, if_false, neg_neg]
        rcases le_total 0 c with hpos | hneg
        · rw [max_eq_left hpos, max_eq_right (neg_nonpos.mpr hpos), zero_add]
        · rw [max_eq_right hneg, max_eq_left (neg_nonneg.mpr hneg), neg_add_cancel]

end Terminal

namespace Solver

variable {K : Type} [ExactField K] {s : Solver K} {x slope : Vec K} {r : Nat}

/-! ## Prices -/

/-- What moving a vertex up costs. -/
def upwardCost (s : Solver K) (x slope : Vec K) (v : Nat) : K := Vec.entry slope v + s.kink x v

/-- What moving a vertex down costs. -/
def downwardCost (s : Solver K) (x slope : Vec K) (v : Nat) : K := s.kink x v - Vec.entry slope v

/-- The vertex stands at its upper bound. -/
def AtUpper (s : Solver K) (x : Vec K) (v : Nat) : Prop :=
  boundAt s.upper v = some (Vec.entry (s.partition.expand x) v)

/-- The vertex stands at its lower bound. -/
def AtLower (s : Solver K) (x : Vec K) (v : Nat) : Prop :=
  boundAt s.lower v = some (Vec.entry (s.partition.expand x) v)

theorem isAtBound_iff (b : Weighting (Bound K)) (y : K) (v : Nat) :
    isAtBound (boundsOf? b) y v = true ↔ boundAt b v = some y := by
  rw [isAtBound, boundsOf?_bind]
  cases boundAt b v with
  | none => simp
  | some l => simp [Scalar.same_iff]

theorem isAtTarget_iff (s : Solver K) (y : K) (v : Nat) :
    s.isAtTarget y v = true ↔ y = s.target v := by
  rw [isAtTarget, Scalar.same_iff, eq_comm]

theorem entry_expand_of_mem (s : Solver K) (x : Vec K) {v : Nat}
    (hv : v ∈ s.partition.members r) :
    Vec.entry (s.partition.expand x) v = Vec.entry x r := by
  obtain ⟨hlt, hregion⟩ := Partition.mem_members.mp hv
  rw [s.partition.entry_expand x hlt, hregion]

/-- The price of moving a vertex of a region up. -/
theorem upwardPrice_eq (s : Solver K) (x slope : Vec K) {v : Nat}
    (hv : v ∈ s.partition.members r) :
    (s.AtUpper x v ∧ s.upwardPrice slope (Vec.entry x r) v = .sourceOnly) ∨
      (¬s.AtUpper x v ∧
        s.upwardPrice slope (Vec.entry x r) v = .finite (s.upwardCost x slope v)) := by
  have hvalue := s.entry_expand_of_mem x hv
  rw [upwardPrice, AtUpper, upwardCost, kink, penalty, hvalue, ← isAtBound_iff]
  split
  next hbound => exact .inl ⟨hbound, rfl⟩
  next hbound =>
    refine .inr ⟨hbound, ?_⟩
    cases s.targetWeight? with
    | none => simp
    | some w =>
        dsimp only
        by_cases htarget : Vec.entry x r = s.target v
        · rw [if_pos ((isAtTarget_iff s _ v).mpr htarget), if_pos htarget]
          rfl
        · rw [if_neg (mt (isAtTarget_iff s _ v).mp htarget), if_neg htarget, add_zero]

/-- The price of not moving a vertex of a region down. -/
theorem downwardPrice_eq (s : Solver K) (x slope : Vec K) {v : Nat}
    (hv : v ∈ s.partition.members r) :
    (s.AtLower x v ∧ s.downwardPrice slope (Vec.entry x r) v = .sinkOnly) ∨
      (¬s.AtLower x v ∧
        s.downwardPrice slope (Vec.entry x r) v = .finite (-s.downwardCost x slope v)) := by
  have hvalue := s.entry_expand_of_mem x hv
  rw [downwardPrice, AtLower, downwardCost, kink, penalty, hvalue, ← isAtBound_iff]
  split
  next hbound => exact .inl ⟨hbound, rfl⟩
  next hbound =>
    refine .inr ⟨hbound, ?_⟩
    cases s.targetWeight? with
    | none => simp
    | some w =>
        dsimp only
        by_cases htarget : Vec.entry x r = s.target v
        · rw [if_pos ((isAtTarget_iff s _ v).mpr htarget), if_pos htarget, neg_sub]
          rfl
        · rw [if_neg (mt (isAtTarget_iff s _ v).mp htarget), if_neg htarget, zero_sub, neg_neg]

/-! ## The cheapest parts of a region -/

/-- A part of a region, without barred vertices, that costs least to move. -/
structure IsCheapest (P : Partition K) (r : Nat) (cost : Nat → K) (barred : Nat → Prop)
    (U : Finset Nat) : Prop where
  subset : U ⊆ P.members r
  free : ∀ v ∈ U, ¬barred v
  le : ∀ V ⊆ P.members r, (∀ v ∈ V, ¬barred v) →
    P.cutSlope cost (Partition.ones U) ≤ P.cutSlope cost (Partition.ones V)

theorem lt_of_subset_members {α : Type} {P : Partition α} {U : Finset Nat} (hU : U ⊆ P.members r) :
    ∀ v ∈ U, v < P.vertexCount :=
  fun _ hv => (Partition.mem_members.mp (hU hv)).1

/-- A solver with values whose regions are the components of the open edges, without negative
weights of edges. Active edges may lie inside a region. -/
structure IsGrouped (s : Solver K) (x : Vec K) : Prop extends s.HoldsValues x where
  partition : s.partition.IsComponentwise

namespace IsGrouped

variable {edges : List Nat} (h : s.IsGrouped x) (hr : r < s.partition.regionCount)
  (hedges : ∀ e ∈ edges, e ∈ s.partition.regionEdges r)

include h hr hedges

theorem ends_mem : ∀ e ∈ edges, s.partition.graph.tailOf e ∈ s.partition.region r ∧
    s.partition.graph.headOf e ∈ s.partition.region r :=
  fun e he => h.partition.ends_of_mem_regionEdges hr (hedges e he)

theorem weight_nonneg : ∀ e ∈ edges, 0 ≤ s.partition.weight e := by
  intro e he
  have hopen := ((h.partition.mem_regionEdges hr).mp (hedges e he)).1
  exact h.edgeWeights_nonneg e (Partition.mem_openEdges.mp hopen).1

/-- A cut among open edges of a region knows every vertex that it meets. -/
theorem cutEdges?_eq_ok (price : Nat → Terminal K) :
    ∃ T, IsLeastCutSide s.partition (s.partition.region r) price edges T ∧
      cutEdges? s.partition (s.partition.region r) price edges =
        .ok (edges.filter (s.partition.leaves T)) :=
  Solver.cutEdges?_eq_ok price (h.partition.nodup_region hr) (h.ends_mem hr hedges)
    (h.weight_nonneg hr hedges)

end IsGrouped

namespace IsCuttable

theorem mem_region_iff (h : s.IsCuttable x) (hr : r < s.partition.regionCount) {v : Nat} :
    v ∈ s.partition.region r ↔ v ∈ s.partition.members r :=
  h.consistent.mem_region_iff hr

theorem isCutSide_upward (h : s.IsCuttable x) (hr : r < s.partition.regionCount) (slope : Vec K)
    {U : Finset Nat} :
    IsCutSide (s.partition.region r) (s.upwardPrice slope (Vec.entry x r)) U ↔
      U ⊆ s.partition.members r ∧ ∀ v ∈ U, ¬s.AtUpper x v := by
  constructor
  · intro hU
    have hsubset : U ⊆ s.partition.members r :=
      fun v hv => (h.mem_region_iff hr).mp (hU.subset v hv)
    refine ⟨hsubset, fun v hv hbound => ?_⟩
    have hadmits := hU.admits v (hU.subset v hv)
    rcases s.upwardPrice_eq x slope (hsubset hv) with ⟨-, hprice⟩ | ⟨hfree, -⟩
    · rw [hprice] at hadmits
      exact of_decide_eq_false hadmits hv
    · exact hfree hbound
  · rintro ⟨hsubset, hfree⟩
    refine ⟨fun v hv => (h.mem_region_iff hr).mpr (hsubset hv), fun v hv => ?_⟩
    rcases s.upwardPrice_eq x slope ((h.mem_region_iff hr).mp hv) with ⟨hbound, hprice⟩ | ⟨-, hprice⟩
    · rw [hprice]
      exact decide_eq_false fun hin => hfree v hin hbound
    · rw [hprice]
      trivial

theorem isCutSide_downward (h : s.IsCuttable x) (hr : r < s.partition.regionCount) (slope : Vec K)
    {T : Finset Nat} :
    IsCutSide (s.partition.region r) (s.downwardPrice slope (Vec.entry x r)) T ↔
      T ⊆ s.partition.members r ∧ ∀ v ∈ s.partition.members r \ T, ¬s.AtLower x v := by
  constructor
  · intro hT
    refine ⟨fun v hv => (h.mem_region_iff hr).mp (hT.subset v hv), fun v hv hbound => ?_⟩
    obtain ⟨hmem, hout⟩ := Finset.mem_sdiff.mp hv
    have hadmits := hT.admits v ((h.mem_region_iff hr).mpr hmem)
    rcases s.downwardPrice_eq x slope hmem with ⟨-, hprice⟩ | ⟨hfree, -⟩
    · rw [hprice] at hadmits
      exact hout (of_decide_eq_true hadmits)
    · exact hfree hbound
  · rintro ⟨hsubset, hfree⟩
    refine ⟨fun v hv => (h.mem_region_iff hr).mpr (hsubset hv), fun v hv => ?_⟩
    have hmem := (h.mem_region_iff hr).mp hv
    rcases s.downwardPrice_eq x slope hmem with ⟨hbound, hprice⟩ | ⟨-, hprice⟩
    · rw [hprice]
      refine decide_eq_true (by_contra fun hout => ?_)
      exact hfree v (Finset.mem_sdiff.mpr ⟨hmem, hout⟩) hbound
    · rw [hprice]
      trivial

/-- The upward cut costs the slope of moving its set up, and a constant. -/
theorem cutCost_upward (h : s.IsCuttable x) (hr : r < s.partition.regionCount) {U : Finset Nat}
    (hU : IsCutSide (s.partition.region r) (s.upwardPrice slope (Vec.entry x r)) U) :
    s.partition.cutCost (s.partition.region r) (s.upwardPrice slope (Vec.entry x r))
        (s.partition.regionEdges r) U =
      ∑ v ∈ s.partition.members r, (s.upwardPrice slope (Vec.entry x r) v).sidePrice false +
        s.partition.cutSlope (s.upwardCost x slope) (Partition.ones U) := by
  obtain ⟨hsubset, -⟩ := (h.isCutSide_upward hr slope).mp hU
  have hprice : ∀ v ∈ s.partition.members r,
      (s.upwardPrice slope (Vec.entry x r) v).sidePrice (decide (v ∈ U)) =
        (s.upwardPrice slope (Vec.entry x r) v).sidePrice false +
          if v ∈ U then s.upwardCost x slope v else 0 := by
    intro v hv
    have heq := Terminal.sidePrice_eq_add (hU.admits v ((h.mem_region_iff hr).mpr hv))
      ((s.upwardPrice_eq x slope hv).imp And.right And.right)
    simpa using heq
  rw [Partition.cutCost, h.consistent.sum_region hr, h.consistent.sum_regionEdges hr hsubset,
    Partition.cutSlope_ones _ (lt_of_subset_members hsubset), Finset.sum_congr rfl hprice,
    Finset.sum_add_distrib, Finset.sum_ite_mem, Finset.inter_eq_right.mpr hsubset, add_assoc]

/-- The downward cut costs the slope of moving the rest of the region down, and a constant. -/
theorem cutCost_downward (h : s.IsCuttable x) (hr : r < s.partition.regionCount) {T : Finset Nat}
    (hT : IsCutSide (s.partition.region r) (s.downwardPrice slope (Vec.entry x r)) T) :
    s.partition.cutCost (s.partition.region r) (s.downwardPrice slope (Vec.entry x r))
        (s.partition.regionEdges r) T =
      ∑ v ∈ s.partition.members r, (s.downwardPrice slope (Vec.entry x r) v).sidePrice true +
        s.partition.cutSlope (s.downwardCost x slope)
          (Partition.ones (s.partition.members r \ T)) := by
  obtain ⟨hsubset, -⟩ := (h.isCutSide_downward hr slope).mp hT
  have hprice : ∀ v ∈ s.partition.members r,
      (s.downwardPrice slope (Vec.entry x r) v).sidePrice (decide (v ∈ T)) =
        (s.downwardPrice slope (Vec.entry x r) v).sidePrice true +
          if v ∈ s.partition.members r \ T then s.downwardCost x slope v else 0 := by
    intro v hv
    have heq := Terminal.sidePrice_eq_sub (hT.admits v ((h.mem_region_iff hr).mpr hv))
      ((s.downwardPrice_eq x slope hv).imp And.right And.right)
    rw [heq]
    by_cases hin : v ∈ T <;> simp [hin, hv]
  have hedges : ∀ e ∈ s.partition.openEdges,
      (if s.partition.leaves (s.partition.members r \ T) e then s.partition.weight e else 0) =
        if s.partition.leaves T e then s.partition.weight e else 0 := by
    intro e he
    rw [Partition.leaves_sdiff hsubset (h.consistent.tail_mem_iff he r)]
  rw [Partition.cutCost, h.consistent.sum_region hr, h.consistent.sum_regionEdges hr hsubset,
    Partition.cutSlope_ones _ (lt_of_subset_members Finset.sdiff_subset),
    Finset.sum_congr rfl hprice, Finset.sum_add_distrib, Finset.sum_ite_mem,
    Finset.inter_eq_right.mpr Finset.sdiff_subset, Finset.sum_congr rfl hedges, add_assoc]

theorem isGrouped (h : s.IsCuttable x) : s.IsGrouped x :=
  ⟨h.toHoldsValues, h.consistent.isComponentwise⟩

theorem cutEdges?_region (h : s.IsCuttable x) (hr : r < s.partition.regionCount)
    (price : Nat → Terminal K) :
    ∃ T, IsLeastCutSide s.partition (s.partition.region r) price (s.partition.regionEdges r) T ∧
      cutEdges? s.partition (s.partition.region r) price (s.partition.regionEdges r) =
        .ok ((s.partition.regionEdges r).filter (s.partition.leaves T)) :=
  h.isGrouped.cutEdges?_eq_ok hr (fun _ he => he) price

/-- The upward cut finds the least of the cheapest parts that may move up. -/
theorem upward_cut (h : s.IsCuttable x) (hr : r < s.partition.regionCount) (slope : Vec K) :
    ∃ U, IsCheapest s.partition r (s.upwardCost x slope) (s.AtUpper x) U ∧
      (∀ V, IsCheapest s.partition r (s.upwardCost x slope) (s.AtUpper x) V → U ⊆ V) ∧
      cutEdges? s.partition (s.partition.region r) (s.upwardPrice slope (Vec.entry x r))
          (s.partition.regionEdges r) =
        .ok ((s.partition.regionEdges r).filter (s.partition.leaves U)) := by
  obtain ⟨U, hleast, hcut⟩ := h.cutEdges?_region hr (s.upwardPrice slope (Vec.entry x r))
  obtain ⟨hsubset, hfree⟩ := (h.isCutSide_upward hr slope).mp hleast.isCutSide
  refine ⟨U, ⟨hsubset, hfree, fun V hV hVfree => ?_⟩, fun V hV => ?_, hcut⟩
  · have hside := (h.isCutSide_upward hr slope).mpr ⟨hV, hVfree⟩
    have hle := hleast.le V hside
    rw [h.cutCost_upward hr hleast.isCutSide, h.cutCost_upward hr hside] at hle
    exact le_of_add_le_add_left hle
  · have hside := (h.isCutSide_upward hr slope).mpr ⟨hV.subset, hV.free⟩
    refine hleast.subset_of_eq V hside (le_antisymm ?_ (hleast.le V hside))
    rw [h.cutCost_upward hr hleast.isCutSide, h.cutCost_upward hr hside]
    exact add_le_add_right (hV.le U hsubset hfree) _

/-- The downward cut finds the largest of the cheapest parts that may move down. -/
theorem downward_cut (h : s.IsCuttable x) (hr : r < s.partition.regionCount) (slope : Vec K) :
    ∃ U, IsCheapest s.partition r (s.downwardCost x slope) (s.AtLower x) U ∧
      (∀ V, IsCheapest s.partition r (s.downwardCost x slope) (s.AtLower x) V → V ⊆ U) ∧
      cutEdges? s.partition (s.partition.region r) (s.downwardPrice slope (Vec.entry x r))
          (s.partition.regionEdges r) =
        .ok ((s.partition.regionEdges r).filter (s.partition.leaves U)) := by
  obtain ⟨T, hleast, hcut⟩ := h.cutEdges?_region hr (s.downwardPrice slope (Vec.entry x r))
  obtain ⟨hsubset, hfree⟩ := (h.isCutSide_downward hr slope).mp hleast.isCutSide
  have hback : ∀ V ⊆ s.partition.members r,
      s.partition.members r \ (s.partition.members r \ V) = V :=
    fun V hV => Finset.sdiff_sdiff_eq_self hV
  have hside : ∀ V ⊆ s.partition.members r, (∀ v ∈ V, ¬s.AtLower x v) →
      IsCutSide (s.partition.region r) (s.downwardPrice slope (Vec.entry x r))
        (s.partition.members r \ V) := by
    intro V hV hVfree
    refine (h.isCutSide_downward hr slope).mpr ⟨Finset.sdiff_subset, ?_⟩
    rw [hback V hV]
    exact hVfree
  have hcost : ∀ V (hV : V ⊆ s.partition.members r) (hVfree : ∀ v ∈ V, ¬s.AtLower x v),
      s.partition.cutCost (s.partition.region r) (s.downwardPrice slope (Vec.entry x r))
          (s.partition.regionEdges r) (s.partition.members r \ V) =
        ∑ v ∈ s.partition.members r, (s.downwardPrice slope (Vec.entry x r) v).sidePrice true +
          s.partition.cutSlope (s.downwardCost x slope) (Partition.ones V) := by
    intro V hV hVfree
    rw [h.cutCost_downward hr (hside V hV hVfree), hback V hV]
  refine ⟨s.partition.members r \ T, ⟨Finset.sdiff_subset, hfree, fun V hV hVfree => ?_⟩,
    fun V hV => ?_, ?_⟩
  · have hle := hleast.le _ (hside V hV hVfree)
    rw [h.cutCost_downward hr hleast.isCutSide, hcost V hV hVfree] at hle
    exact le_of_add_le_add_left hle
  · have hle := hleast.subset_of_eq _ (hside V hV.subset hV.free)
      (le_antisymm ?_ (hleast.le _ (hside V hV.subset hV.free)))
    · intro v hv
      refine Finset.mem_sdiff.mpr ⟨hV.subset hv, fun hin => ?_⟩
      exact (Finset.mem_sdiff.mp (hle hin)).2 hv
    · rw [h.cutCost_downward hr hleast.isCutSide, hcost V hV.subset hV.free]
      exact add_le_add_right (hV.le _ Finset.sdiff_subset hfree) _
  · rw [hcut]
    refine congrArg Except.ok (List.filter_congr fun e he => ?_)
    have hopen := ((h.consistent.isComponentwise.mem_regionEdges hr).mp he).1
    exact (Partition.leaves_sdiff hsubset (h.consistent.tail_mem_iff hopen r)).symm

end IsCuttable
end Solver
end TotalVariation
