import Mathlib
import TotalVariation.Proofs.Flow.Sending

/-! # Maximal flows

Sending what the tightest arc of a shortest path can carry closes that arc and opens only reversals
of arcs of the path, so no distance to the sink drops. Each pair of nodes is given a stage that
never drops either, and that rises where an arc is closed; the stages are bounded, so a path is
found only so often. When there is none, the nodes that still reach the sink form a minimal cut.
-/

namespace TotalVariation.Network

variable {K : Type} [ExactField K] {N M : Network K} {source sink : Nat}
  {path : List (Nat × Nat)} {amount : K} {d : Nat → Option Nat}

/-- A network with one capacity for each pair of nodes, none of them negative. -/
structure IsProper (N : Network K) : Prop extends N.IsSquare where
  nonneg : ∀ {u v c}, N.left u v = .finite c → 0 ≤ c

theorem isOpen_iff {u v : Nat} :
    N.isOpen u v = true ↔ N.left u v = .unlimited ∨ ∃ c, N.left u v = .finite c ∧ 0 < c := by
  rw [isOpen]
  cases N.left u v with
  | unlimited => simp [Capacity.isPositive]
  | finite c => simp [Capacity.isPositive]

theorem bottleneck_eq (N : Network K) (path : List (Nat × Nat)) :
    N.bottleneck path = (path.map fun a => N.left a.1 a.2).foldl Capacity.min .unlimited :=
  List.foldl_map.symm

/-! ## Exhausting a shortest path -/

/-- A path that goes down to the sink, and what it can carry. -/
structure IsShortest (N : Network K) (source sink : Nat) (path : List (Nat × Nat)) (amount : K) :
    Prop where
  proper : N.IsProper
  sink_lt : sink < N.nodes
  descent : Descent N (fun u => (N.distances sink).getD u none) source path
  bottleneck : N.bottleneck path = .finite amount

namespace IsShortest

theorem isDistance (h : N.IsShortest source sink path amount) :
    IsDistance N sink fun u => (N.distances sink).getD u none :=
  isDistance_distances N h.sink_lt

theorem lt_nodes (h : N.IsShortest source sink path amount) :
    ∀ a ∈ path, a.1 < N.nodes ∧ a.2 < N.nodes :=
  fun _ ha => ⟨(h.descent.layered ha).1.1, (h.descent.layered ha).1.2.1⟩

theorem amount_le (h : N.IsShortest source sink path amount) {a : Nat × Nat} (ha : a ∈ path)
    {c : K} (hc : N.left a.1 a.2 = .finite c) : amount ≤ c := by
  have hleast := Capacity.foldl_min_eq_finite ((N.bottleneck_eq path).symm.trans h.bottleneck)
  refine hleast.2 c (List.mem_cons_of_mem _ ?_)
  exact List.mem_map.mpr ⟨a, ha, hc⟩

theorem exists_tightest (h : N.IsShortest source sink path amount) :
    ∃ a ∈ path, N.left a.1 a.2 = .finite amount := by
  have hleast := Capacity.foldl_min_eq_finite ((N.bottleneck_eq path).symm.trans h.bottleneck)
  simpa using hleast.1

theorem amount_pos (h : N.IsShortest source sink path amount) : 0 < amount := by
  obtain ⟨a, ha, hleft⟩ := h.exists_tightest
  rcases isOpen_iff.mp (h.descent.layered ha).1.2.2 with hunlimited | ⟨c, hc, hpos⟩
  · rw [hleft] at hunlimited
    cases hunlimited
  · rw [hleft] at hc
    cases hc
    exact hpos

theorem left_send (h : N.IsShortest source sink path amount) (u v : Nat) :
    (N.send path amount).left u v =
      shifted amount (path.count (u, v)) (path.count (v, u)) (N.left u v) :=
  h.proper.toIsSquare.left_send h.lt_nodes u v

/-- No arc carries more than it can. -/
theorem isProper_send (h : N.IsShortest source sink path amount) :
    (N.send path amount).IsProper := by
  refine ⟨h.proper.toIsSquare.send path amount, ?_⟩
  intro u v c hc
  rw [h.left_send] at hc
  cases hleft : N.left u v with
  | unlimited =>
      rw [hleft] at hc
      cases hc
  | finite b =>
      rw [hleft] at hc
      cases hc
      have hback : 0 ≤ (path.count (v, u) : K) * amount :=
        mul_nonneg (Nat.cast_nonneg _) h.amount_pos.le
      have hforth : (path.count (u, v) : K) * amount ≤ b := by
        by_cases hmem : (u, v) ∈ path
        · rw [List.count_eq_one_of_mem h.descent.nodup hmem, Nat.cast_one, one_mul]
          exact h.amount_le hmem hleft
        · rw [List.count_eq_zero_of_not_mem hmem, Nat.cast_zero, zero_mul]
          exact h.proper.nonneg hleft
      linarith

/-- Only reversals of arcs of the path are opened. -/
theorem isOpen_send (h : N.IsShortest source sink path amount) {u v : Nat}
    (hopen : (N.send path amount).isOpen u v = true) : N.isOpen u v = true ∨ (v, u) ∈ path := by
  by_cases hmem : (v, u) ∈ path
  · exact .inr hmem
  · rw [isOpen_iff, h.left_send, List.count_eq_zero_of_not_mem hmem] at hopen
    refine .inl (isOpen_iff.mpr ?_)
    cases hleft : N.left u v with
    | unlimited => exact .inl rfl
    | finite b =>
        rw [hleft] at hopen
        rcases hopen with hopen | ⟨c, hc, hpos⟩
        · cases hopen
        · cases hc
          have hforth : 0 ≤ (path.count (u, v) : K) * amount :=
            mul_nonneg (Nat.cast_nonneg _) h.amount_pos.le
          refine .inr ⟨b, rfl, ?_⟩
          simp only [Nat.cast_zero, zero_mul, add_zero] at hpos
          linarith

/-- The tightest arc is closed. -/
theorem exists_closed (h : N.IsShortest source sink path amount) :
    ∃ a ∈ path, (N.send path amount).isOpen a.1 a.2 = false := by
  obtain ⟨a, ha, hleft⟩ := h.exists_tightest
  refine ⟨a, ha, ?_⟩
  have hclosed : (N.send path amount).left a.1 a.2 = .finite 0 := by
    rw [h.left_send, List.count_eq_one_of_mem h.descent.nodup ha,
      List.count_eq_zero_of_not_mem (h.descent.reversal_notMem ha), hleft, shifted]
    simp
  rw [isOpen, hclosed]
  simp [Capacity.isPositive]

/-- Every cut is lowered by the amount. -/
theorem cutCapacity_send (h : N.IsShortest source sink path amount) {S : Finset Nat}
    (hS : N.IsCut source sink S) :
    (N.send path amount).cutCapacity S = N.cutCapacity S - amount := by
  rw [Network.cutCapacity_send h.proper.toIsSquare h.lt_nodes hS,
    h.descent.countP_enter S fun v hv => h.isDistance.zero_iff.mp hv ▸ hS.sink_mem,
    if_neg hS.source_notMem]
  push_cast
  ring

end IsShortest

/-! ## Stages -/

/-- The distance to the sink, the number of nodes where there is none. -/
def depth (N : Network K) (sink u : Nat) : Nat := ((N.distances sink).getD u none).getD N.nodes

theorem depth_le (hsink : sink < N.nodes) (u : Nat) : N.depth sink u ≤ N.nodes := by
  rw [depth]
  cases hu : (N.distances sink).getD u none with
  | none => exact le_rfl
  | some k => exact ((isDistance_distances N hsink).lt_nodes hu).2.le

/-- The stage of a pair of nodes: while the arc is open, the depth of its end, and the larger of the
depths while it is closed. -/
def stage (N : Network K) (sink u v : Nat) : Nat :=
  if N.isOpen u v then N.depth sink v else Nat.max (N.depth sink u) (N.depth sink v)

/-- The stages of all pairs together. -/
def progress (N : Network K) (sink : Nat) : Nat :=
  ∑ u ∈ Finset.range N.nodes, ∑ v ∈ Finset.range N.nodes, N.stage sink u v

theorem progress_le (hsink : sink < N.nodes) :
    N.progress sink ≤ N.nodes * N.nodes * N.nodes := by
  have hstage : ∀ u v, N.stage sink u v ≤ N.nodes := by
    intro u v
    rw [stage]
    split
    · exact depth_le hsink v
    · exact Nat.max_le.mpr ⟨depth_le hsink u, depth_le hsink v⟩
  calc N.progress sink
      ≤ ∑ _u ∈ Finset.range N.nodes, ∑ _v ∈ Finset.range N.nodes, N.nodes :=
        Finset.sum_le_sum fun u _ => Finset.sum_le_sum fun v _ => hstage u v
    _ = N.nodes * N.nodes * N.nodes := by
        simp [mul_assoc]

namespace IsShortest

theorem exists_distance_le (h : N.IsShortest source sink path amount) {u k : Nat}
    (hu : ((N.send path amount).distances sink).getD u none = some k) :
    ∃ j ≤ k, (N.distances sink).getD u none = some j := by
  have hnodes := nodes_send N path amount
  have hafter := isDistance_distances (N.send path amount) (hnodes.symm ▸ h.sink_lt)
  -- The induction is on the distance after sending: an arc that is new leads away from the sink.
  induction k generalizing u with
  | zero => exact ⟨0, le_rfl, h.isDistance.zero_iff.mpr (hafter.zero_iff.mp hu)⟩
  | succ k ih =>
      obtain ⟨v, harc, hv⟩ := hafter.exists_arc hu
      obtain ⟨j, hj, hvj⟩ := ih hv
      rcases h.isOpen_send harc.2.2 with hopen | hreversed
      · have harc' : N.Arc u v := ⟨hnodes ▸ harc.1, hnodes ▸ harc.2.1, hopen⟩
        obtain ⟨i, hi, hui⟩ := h.isDistance.le_of_arc harc' hvj
        exact ⟨i, hi.trans (Nat.succ_le_succ hj), hui⟩
      · obtain ⟨-, i, hvi, hui⟩ := h.descent.layered hreversed
        rw [hvj] at hvi
        have := Option.some.inj hvi
        exact ⟨i, by omega, hui⟩

/-- No node comes closer to the sink. -/
theorem depth_le_depth_send (h : N.IsShortest source sink path amount) (u : Nat) :
    N.depth sink u ≤ (N.send path amount).depth sink u := by
  rw [depth.eq_1 (N.send path amount), nodes_send]
  cases hu : ((N.send path amount).distances sink).getD u none with
  | none => exact depth_le h.sink_lt u
  | some k =>
      obtain ⟨j, hj, huj⟩ := h.exists_distance_le hu
      rw [depth, huj]
      exact hj

/-- Along the path the depth drops. -/
theorem depth_of_mem (h : N.IsShortest source sink path amount) {a : Nat × Nat} (ha : a ∈ path) :
    N.depth sink a.1 = N.depth sink a.2 + 1 := by
  obtain ⟨-, k, hk, hk'⟩ := h.descent.layered ha
  rw [depth, depth, hk, hk']
  rfl

theorem stage_le_stage_send (h : N.IsShortest source sink path amount) (u v : Nat) :
    N.stage sink u v ≤ (N.send path amount).stage sink u v := by
  have hu := h.depth_le_depth_send u
  have hv := h.depth_le_depth_send v
  rw [stage.eq_1 N, stage.eq_1 (N.send path amount)]
  by_cases hbefore : N.isOpen u v = true
  · rw [if_pos hbefore]
    split
    · exact hv
    · exact hv.trans (Nat.le_max_right _ _)
  · rw [if_neg hbefore]
    split
    next hafter =>
      -- The reversal of an arc of the path: its end was the deeper one.
      have hreversed := (h.isOpen_send hafter).resolve_left hbefore
      have hdepth : N.depth sink v = N.depth sink u + 1 := h.depth_of_mem hreversed
      exact Nat.max_le.mpr ⟨by omega, hv⟩
    next => exact Nat.max_le.mpr ⟨hu.trans (Nat.le_max_left _ _), hv.trans (Nat.le_max_right _ _)⟩

/-- The stage of the tightest arc rises. -/
theorem progress_lt_progress_send (h : N.IsShortest source sink path amount) :
    N.progress sink < (N.send path amount).progress sink := by
  obtain ⟨a, ha, hclosed⟩ := h.exists_closed
  obtain ⟨hfrom, hto⟩ := h.lt_nodes a ha
  have hrise : N.stage sink a.1 a.2 < (N.send path amount).stage sink a.1 a.2 := by
    have hdepth := h.depth_of_mem ha
    have hafter := h.depth_le_depth_send a.1
    rw [stage.eq_1 N, stage.eq_1 (N.send path amount),
      if_pos (h.descent.layered ha).1.2.2, if_neg (by rw [hclosed]; exact Bool.false_ne_true)]
    exact lt_of_lt_of_le (by omega) (Nat.le_max_left _ _)
  rw [progress, progress, nodes_send]
  refine Finset.sum_lt_sum
    (fun u _ => Finset.sum_le_sum fun v _ => h.stage_le_stage_send u v)
    ⟨a.1, Finset.mem_range.mpr hfrom, ?_⟩
  exact Finset.sum_lt_sum (fun v _ => h.stage_le_stage_send a.1 v)
    ⟨a.2, Finset.mem_range.mpr hto, hrise⟩

end IsShortest

/-! ## Filling a network -/

/-- The second network is what is left of the first after an amount was sent from source to sink. -/
structure IsFilling (N M : Network K) (source sink : Nat) (value : K) : Prop where
  proper : M.IsProper
  nodes_eq : M.nodes = N.nodes
  isCut_iff : ∀ S, M.IsCut source sink S ↔ N.IsCut source sink S
  cutCapacity_eq : ∀ S, N.IsCut source sink S → N.cutCapacity S = value + M.cutCapacity S

theorem IsProper.isFilling (h : N.IsProper) : N.IsFilling N source sink 0 :=
  ⟨h, rfl, fun _ => Iff.rfl, fun _ _ => (zero_add _).symm⟩

theorem IsShortest.isFilling (h : N.IsShortest source sink path amount) :
    N.IsFilling (N.send path amount) source sink amount where
  proper := h.isProper_send
  nodes_eq := nodes_send N path amount
  isCut_iff _ := isCut_send h.proper.toIsSquare h.lt_nodes
  cutCapacity_eq S hS := by
    rw [h.cutCapacity_send hS]
    ring

theorem IsFilling.trans {L : Network K} {a b : K} (hNM : N.IsFilling M source sink a)
    (hML : M.IsFilling L source sink b) : N.IsFilling L source sink (a + b) where
  proper := hML.proper
  nodes_eq := hML.nodes_eq.trans hNM.nodes_eq
  isCut_iff S := (hML.isCut_iff S).trans (hNM.isCut_iff S)
  cutCapacity_eq S hS := by
    rw [hNM.cutCapacity_eq S hS, hML.cutCapacity_eq S ((hNM.isCut_iff S).mpr hS), add_assoc]

/-- Where there is a cut, a path to the sink has a limited arc. -/
theorem bottleneck_ne_unlimited {S : Finset Nat} (hS : N.IsCut source sink S)
    (hdescent : Descent N d source path) (hbottom : ∀ v, d v = some 0 → v = sink) :
    N.bottleneck path ≠ .unlimited := by
  intro hunlimited
  have henter := hdescent.countP_enter S fun v hv => hbottom v hv ▸ hS.sink_mem
  rw [if_neg hS.source_notMem] at henter
  have hpos : 0 < path.countP fun a => a.1 ∉ S ∧ a.2 ∈ S := henter ▸ Nat.succ_pos _
  obtain ⟨a, ha, hcross⟩ := List.countP_pos_iff.mp hpos
  rw [decide_eq_true_eq] at hcross
  rw [bottleneck_eq, Capacity.foldl_min_eq_unlimited] at hunlimited
  refine hS.limited (hdescent.layered ha).1.1 hcross.1 hcross.2
    (hunlimited _ (List.mem_cons_of_mem _ ?_))
  exact List.mem_map.mpr ⟨a, ha, rfl⟩

/-- Filling ends when no path leads to the sink, before the fuel is used up. -/
theorem fill_eq_ok {S : Finset Nat} (fuel : Nat) (sent : K) (hN : N.IsProper)
    (hsink : sink < N.nodes) (hS : N.IsCut source sink S)
    (hfuel : N.nodes * N.nodes * N.nodes < fuel + N.progress sink) :
    ∃ value M, fill source sink fuel N sent = .ok (sent + value, M) ∧
      N.IsFilling M source sink value ∧ (M.distances sink).getD source none = none := by
  induction fuel generalizing N sent with
  | zero =>
      -- Every path raises the progress, and there is a bound on it.
      have := N.progress_le hsink
      omega
  | succ fuel ih =>
      rw [fill]
      dsimp only
      split
      next hnone => exact ⟨0, N, by rw [add_zero]; rfl, hN.isFilling, hnone⟩
      next k hk =>
        have hdistance := isDistance_distances N hsink
        have hdescent := descent_arcsAlong hdistance hk
        have hlimited := bottleneck_ne_unlimited hS hdescent fun v hv => hdistance.zero_iff.mp hv
        split
        next hunlimited => exact (hlimited hunlimited).elim
        next amount hamount =>
          have hshortest : N.IsShortest source sink _ amount := ⟨hN, hsink, hdescent, hamount⟩
          have hsent := hshortest.isFilling
          have hprogress := hshortest.progress_lt_progress_send
          obtain ⟨value, M, hfill, hM, hnone⟩ := ih (sent + amount) hsent.proper
            (hsent.nodes_eq.symm ▸ hsink) ((hsent.isCut_iff S).mpr hS)
            (by rw [hsent.nodes_eq]; omega)
          exact ⟨amount + value, M, by rw [hfill, add_assoc], hsent.trans hM, hnone⟩

/-! ## Minimal cuts -/

/-- The least of the minimal cuts, and its capacity. -/
structure IsLeastCut (N : Network K) (source sink : Nat) (S : Finset Nat) (value : K) : Prop where
  isCut : N.IsCut source sink S
  capacity_eq : N.cutCapacity S = value
  capacity_le : ∀ T, N.IsCut source sink T → value ≤ N.cutCapacity T
  subset_of_eq : ∀ T, N.IsCut source sink T → N.cutCapacity T = value → S ⊆ T

theorem IsFilling.isLeastCut {S : Finset Nat} {value : K} (h : N.IsFilling M source sink value)
    (hS : M.IsLeastCut source sink S 0) : N.IsLeastCut source sink S value where
  isCut := (h.isCut_iff S).mp hS.isCut
  capacity_eq := by
    rw [h.cutCapacity_eq S ((h.isCut_iff S).mp hS.isCut), hS.capacity_eq, add_zero]
  capacity_le T hT := by
    rw [h.cutCapacity_eq T hT]
    linarith [hS.capacity_le T ((h.isCut_iff T).mpr hT)]
  subset_of_eq T hT hvalue := by
    apply hS.subset_of_eq T ((h.isCut_iff T).mpr hT)
    rw [h.cutCapacity_eq T hT] at hvalue
    linarith

/-- The nodes that reach the sink. -/
def reaching (N : Network K) (sink : Nat) : Finset Nat :=
  (Finset.range N.nodes).filter fun u => ((N.distances sink).getD u none).isSome

theorem mem_reaching (hsink : sink < N.nodes) {u : Nat} :
    u ∈ N.reaching sink ↔ ∃ k, (N.distances sink).getD u none = some k := by
  rw [reaching, Finset.mem_filter, Finset.mem_range, Option.isSome_iff_exists]
  refine ⟨And.right, fun h => ⟨?_, h⟩⟩
  obtain ⟨k, hk⟩ := h
  exact ((isDistance_distances N hsink).lt_nodes hk).1

/-- The capacities between two nodes are no less than nothing. -/
theorem IsProper.amount_nonneg (h : N.IsProper) (u v : Nat) : 0 ≤ (N.left u v).amount := by
  cases hleft : N.left u v with
  | unlimited => exact le_rfl
  | finite c => exact h.nonneg hleft

/-- No arc leads into the nodes that reach the sink. -/
theorem isOpen_eq_false_of_reaching (hsink : sink < N.nodes) {u v : Nat} (hu : u < N.nodes)
    (hout : u ∉ N.reaching sink) (hin : v ∈ N.reaching sink) : N.isOpen u v = false := by
  have hdistance := isDistance_distances N hsink
  rw [Bool.eq_false_iff]
  intro hopen
  obtain ⟨k, hk⟩ := (mem_reaching hsink).mp hin
  obtain ⟨j, -, hj⟩ := hdistance.le_of_arc ⟨hu, (hdistance.lt_nodes hk).1, hopen⟩ hk
  exact hout ((mem_reaching hsink).mpr ⟨j, hj⟩)

/-- A set with the sink that no arc leads into holds all nodes that reach the sink. -/
theorem reaching_subset (hsink : sink < N.nodes) {T : Finset Nat} (hT : sink ∈ T)
    (hentry : ∀ {u v}, N.Arc u v → v ∈ T → u ∈ T) : N.reaching sink ⊆ T := by
  have hdistance := isDistance_distances N hsink
  intro u hu
  obtain ⟨k, hk⟩ := (mem_reaching hsink).mp hu
  clear hu
  induction k generalizing u with
  | zero =>
      rw [hdistance.zero_iff.mp hk]
      exact hT
  | succ k ih =>
      obtain ⟨v, harc, hv⟩ := hdistance.exists_arc hk
      exact hentry harc (ih hv)

/-- Nothing can be sent along an arc that is not open. -/
theorem IsProper.amount_eq_zero (h : N.IsProper) {u v : Nat} (hclosed : N.isOpen u v = false) :
    (N.left u v).amount = 0 := by
  refine le_antisymm (not_lt.mp fun hpos => ?_) (h.amount_nonneg u v)
  cases hleft : N.left u v with
  | unlimited =>
      rw [isOpen_iff.mpr (.inl hleft)] at hclosed
      cases hclosed
  | finite c =>
      rw [hleft] at hpos
      rw [isOpen_iff.mpr (.inr ⟨c, hleft, hpos⟩)] at hclosed
      cases hclosed

/-- No arc leads into a cut into which nothing can be sent. -/
theorem IsCut.mem_of_arc (h : N.IsProper) {T : Finset Nat} (hT : N.IsCut source sink T)
    (hzero : N.cutCapacity T = 0) {u v : Nat} (harc : N.Arc u v) (hv : v ∈ T) : u ∈ T := by
  by_contra hu
  have hrow := (Finset.sum_eq_zero_iff_of_nonneg
    (fun u _ => Finset.sum_nonneg fun v _ => h.amount_nonneg u v)).mp hzero u
    (Finset.mem_sdiff.mpr ⟨Finset.mem_range.mpr harc.1, hu⟩)
  have hamount := (Finset.sum_eq_zero_iff_of_nonneg
    (fun v _ => h.amount_nonneg u v)).mp hrow v hv
  rcases isOpen_iff.mp harc.2.2 with hunlimited | ⟨c, hc, hpos⟩
  · exact hT.limited harc.1 hu hv hunlimited
  · rw [hc] at hamount
    exact hpos.ne' hamount

/-- When the source does not reach the sink, nothing can be sent into the nodes that do, and every
set of nodes with the sink into which nothing can be sent contains them. -/
theorem isLeastCut_reaching (h : N.IsProper) (hsink : sink < N.nodes)
    (hnone : (N.distances sink).getD source none = none) :
    N.IsLeastCut source sink (N.reaching sink) 0 where
  isCut := by
    refine ⟨fun hu => Finset.mem_range.mp (Finset.mem_filter.mp hu).1, ?_, ?_, ?_⟩
    · exact (mem_reaching hsink).mpr ⟨0, (isDistance_distances N hsink).zero_iff.mpr rfl⟩
    · intro hsource
      obtain ⟨k, hk⟩ := (mem_reaching hsink).mp hsource
      rw [hnone] at hk
      cases hk
    · intro u v hu hout hin hunlimited
      have hopen := isOpen_iff.mpr (.inl hunlimited)
      rw [isOpen_eq_false_of_reaching hsink hu hout hin] at hopen
      cases hopen
  capacity_eq := by
    refine Finset.sum_eq_zero fun u hu => Finset.sum_eq_zero fun v hv => ?_
    rw [Finset.mem_sdiff, Finset.mem_range] at hu
    exact h.amount_eq_zero (isOpen_eq_false_of_reaching hsink hu.1 hu.2 hv)
  capacity_le _ _ :=
    Finset.sum_nonneg fun u _ => Finset.sum_nonneg fun v _ => h.amount_nonneg u v
  subset_of_eq _ hT hzero := reaching_subset hsink hT.sink_mem (hT.mem_of_arc h hzero)

/-- A maximal flow ends with the least of the minimal cuts, and its value is the capacity of it. -/
theorem maximalFlow_eq_ok {S : Finset Nat} (h : N.IsProper) (hsink : sink < N.nodes)
    (hS : N.IsCut source sink S) :
    ∃ value flags, N.maximalFlow source sink = .ok (value, flags) ∧
      N.IsLeastCut source sink ((Finset.range N.nodes).filter fun u => flags.getD u false) value := by
  obtain ⟨value, M, hfill, hM, hnone⟩ := fill_eq_ok (N.nodes * N.nodes * N.nodes + 1) 0 h hsink hS
    (by omega)
  refine ⟨value, (M.distances sink).map Option.isSome, ?_, ?_⟩
  · rw [maximalFlow, hfill, zero_add]
    rfl
  · have hsink' : sink < M.nodes := hM.nodes_eq.symm ▸ hsink
    have hleast := hM.isLeastCut (isLeastCut_reaching hM.proper hsink' hnone)
    have hflags : ∀ u, ((M.distances sink).map Option.isSome).getD u false =
        ((M.distances sink).getD u none).isSome := by
      intro u
      simp only [Array.getD_eq_getD_getElem?, Array.getElem?_map]
      cases (M.distances sink)[u]? <;> rfl
    simp only [hflags]
    rw [reaching, hM.nodes_eq] at hleast
    exact hleast

end TotalVariation.Network
