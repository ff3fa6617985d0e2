import Mathlib
import TotalVariation.Proofs.Solver.Answers
import TotalVariation.Proofs.Solver.Refine

/-! # What a split marks

A split always answers: the edges along which a region is cut have both ends in the region, so that
no cut meets a vertex that it does not know. The second cut of a region is made among the edges
that the first left, and no edge belongs to two regions. So each edge that is marked is found once,
was open before and lies inside a region that was tested, and the answer is the number of marks
that changed. Active edges inside a region, loops and parallel edges are allowed.
-/

namespace TotalVariation.Solver

open Step TotalVariation.Partition

variable {K : Type} [ExactField K] {s : Solver K} {x : Vec K} {r : Nat}

/-- A solver whose regions are the components of the open edges, with one value and one mark for
each of them. The terms fit the graph, a direct term has a residual of its length, and no edge has
a negative weight. -/
structure IsSplittable (s : Solver K) (x : Vec K) : Prop extends s.IsGrouped x, s.IsFitted x where
  assignment_size : s.partition.assignment.size = s.partition.vertexCount
  saturated_size : s.partition.saturated.size = s.partition.regionCount
  residual : ∀ A y, s.quadratic = .direct A y → ∃ R, s.residual = some R ∧ R.size = A.rows

namespace IsSplittable

/-- What is found in a region is found once, among its open edges. -/
theorem exists_splitRegion? (h : s.IsSplittable x) (slope : Vec K) (oneCut : Bool)
    (hr : r < s.partition.regionCount) : ∃ found, s.splitRegion? slope oneCut r = .ok found ∧
      found.Nodup ∧ ∀ e ∈ found, e ∈ s.partition.regionEdges r := by
  obtain ⟨found, hfound, hnodup⟩ :
      ∃ found, s.splitRegion? slope oneCut r = .ok found ∧ found.Nodup := by
    have hedges := h.partition.nodup_regionEdges hr
    obtain ⟨U, -, hup⟩ := h.toIsGrouped.cutEdges?_eq_ok hr (fun _ he => he)
      (s.upwardPrice slope (Vec.entry x r))
    rw [splitRegion?_eq_bind h.iterate]
    split
    next => exact ⟨[], rfl, List.nodup_nil⟩
    next =>
      split
      next => exact ⟨[], rfl, List.nodup_nil⟩
      next =>
        rw [hup, ok_bind]
        dsimp only
        split
        next => exact ⟨_, rfl, hedges.filter _⟩
        next =>
          obtain ⟨D, -, hdown⟩ := h.toIsGrouped.cutEdges?_eq_ok hr
            (fun _ he => List.mem_of_mem_filter he) (s.downwardPrice slope (Vec.entry x r))
          rw [hdown, ok_bind]
          refine ⟨_, rfl, (hedges.filter _).append ((hedges.filter _).filter _) ?_⟩
          -- the second cut is made among the edges that the first did not find
          intro e hin hagain
          have hleft := (List.mem_filter.mp (List.mem_of_mem_filter hagain)).2
          rw [Bool.not_eq_true', List.contains_eq_mem, decide_eq_false_iff_not] at hleft
          exact hleft hin
  exact ⟨found, hfound, hnodup, fun e he => (isDivided_of_splitRegion? hfound he).1⟩

end IsSplittable

/-! ## The marks of a split -/

section Marks

variable {α : Type} {P : Partition α} {found : Nat → List Nat} (hP : P.IsComponentwise)
  (hmem : ∀ r ∈ openRegions P, ∀ e ∈ found r, e ∈ P.regionEdges r)

include hP hmem

/-- An edge is found in the region of its first end. -/
theorem regionOf_eq_of_mem_found (hr : r ∈ openRegions P) {e : Nat} (he : e ∈ found r) :
    P.regionOf (P.graph.tailOf e) = r := by
  have htail := ((hP.mem_regionEdges (mem_openRegions_iff.mp hr).1).mp (hmem r hr e he)).2
  exact (mem_members.mp htail).2

/-- No edge is found in two regions. -/
theorem nodup_flatMap_found (hnodup : ∀ r ∈ openRegions P, (found r).Nodup) :
    ((openRegions P).flatMap found).Nodup := by
  have hregions : (openRegions P).Nodup := List.nodup_range.filter _
  refine List.nodup_flatMap.mpr ⟨hnodup, hregions.imp_of_mem fun hr hr' hne e he he' => hne ?_⟩
  rw [← regionOf_eq_of_mem_found hP hmem hr he, ← regionOf_eq_of_mem_found hP hmem hr' he']

/-- The edges whose marks change are those that are found. -/
theorem mem_flatMap_found_iff {e : Nat} : e ∈ (openRegions P).flatMap found ↔ e < P.edgeCount ∧
    (markRegions P ((openRegions P).map fun r => (r, found r))).isActive e ≠ P.isActive e := by
  have hiff := markRegions_isActive P ((openRegions P).map fun r => (r, found r)) e
  rw [hP.active_size] at hiff
  simp only [List.mem_map, exists_exists_and_eq_and] at hiff
  rw [List.mem_flatMap]
  constructor
  · rintro ⟨r, hr, he⟩
    have hopen := ((hP.mem_regionEdges (mem_openRegions_iff.mp hr).1).mp (hmem r hr e he)).1
    obtain ⟨hlt, hinactive⟩ := mem_openEdges.mp hopen
    refine ⟨hlt, ?_⟩
    rw [hiff.mpr (.inr ⟨hlt, r, hr, he⟩), hinactive]
    exact Bool.noConfusion
  · rintro ⟨-, hne⟩
    cases hactive : P.isActive e with
    | true => exact absurd ((hiff.mpr (.inl hactive)).trans hactive.symm) hne
    | false =>
        rw [hactive, Bool.ne_false_iff] at hne
        rcases hiff.mp hne with hformer | ⟨-, hfound⟩
        · rw [hactive] at hformer
          cases hformer
        · exact hfound

/-- What is found in a region are the edges of the region whose marks change. -/
theorem mem_found_iff (hr : r ∈ openRegions P) {e : Nat} : e ∈ found r ↔
    e < P.edgeCount ∧ P.graph.tailOf e ∈ P.region r ∧
      (markRegions P ((openRegions P).map fun r => (r, found r))).isActive e ≠ P.isActive e := by
  have hlt : r < P.regionCount := (mem_openRegions_iff.mp hr).1
  constructor
  · intro he
    obtain ⟨hedge, hne⟩ := (mem_flatMap_found_iff hP hmem).mp (List.mem_flatMap.mpr ⟨r, hr, he⟩)
    exact ⟨hedge, (hP.ends_of_mem_regionEdges hlt (hmem r hr e he)).1, hne⟩
  · rintro ⟨hedge, htail, hne⟩
    obtain ⟨r', hr', he⟩ := List.mem_flatMap.mp ((mem_flatMap_found_iff hP hmem).mpr ⟨hedge, hne⟩)
    rwa [← ((hP.indexed r hlt _).mp htail).2, regionOf_eq_of_mem_found hP hmem hr' he]

/-- As many edges are found as marks change. -/
theorem cutCount_found (hnodup : ∀ r ∈ openRegions P, (found r).Nodup) :
    cutCount ((openRegions P).map fun r => (r, found r)) =
      Finset.card {e ∈ Finset.range P.edgeCount |
        (markRegions P ((openRegions P).map fun r => (r, found r))).isActive e ≠ P.isActive e} := by
  have hchanged : {e ∈ Finset.range P.edgeCount |
      (markRegions P ((openRegions P).map fun r => (r, found r))).isActive e ≠ P.isActive e} =
        ((openRegions P).flatMap found).toFinset := by
    ext e
    rw [Finset.mem_filter, Finset.mem_range, List.mem_toFinset, mem_flatMap_found_iff hP hmem]
  rw [hchanged, List.toFinset_card_of_nodup (nodup_flatMap_found hP hmem hnodup), cutCount_map,
    List.length_flatMap]

/-- A region that was tested is solved exactly if no mark of its edges changes. -/
theorem markRegions_isSaturated_iff (hsize : P.saturated.size = P.regionCount)
    (hr : r ∈ openRegions P) :
    (markRegions P ((openRegions P).map fun r => (r, found r))).isSaturated r = true ↔
      ∀ e < P.edgeCount, P.graph.tailOf e ∈ P.region r →
        (markRegions P ((openRegions P).map fun r => (r, found r))).isActive e = P.isActive e := by
  have hlt : r < P.saturated.size := hsize.symm ▸ (mem_openRegions_iff.mp hr).1
  rw [markRegions_isSaturated found (openRegions P) r, if_pos ⟨hr, hlt⟩, List.isEmpty_iff,
    List.eq_nil_iff_forall_not_mem]
  refine forall_congr' fun e => ?_
  rw [mem_found_iff hP hmem hr, not_and, not_and, not_not]

end Marks

/-- A split answers at a splittable solver, and a cut of a region meets no vertex outside it. No
edge is found twice; those that are found were open and lie inside regions that were tested, and
they are all whose marks change. The answer is their number. A region that was tested is solved
exactly if none of its edges was marked, and the other regions keep their marks. -/
theorem IsSplittable.split_marks_once (h : s.IsSplittable x) :
    ∃ slope found n t, s.gradient? = .ok slope ∧ split.Answers s n t ∧
      (∀ r < s.partition.regionCount, s.partition.isSaturated r = false →
        s.splitRegion? slope s.needsOneCut r = .ok (found r) ∧
        ∀ e ∈ s.partition.regionEdges r, s.partition.graph.tailOf e ∈ s.partition.region r ∧
          s.partition.graph.headOf e ∈ s.partition.region r) ∧
      ((openRegions s.partition).flatMap found).Nodup ∧
      (∀ e, s.partition.isActive e = true → t.partition.isActive e = true) ∧
      (∀ e, s.partition.isActive e = false → t.partition.isActive e = true →
        ∃ r < s.partition.regionCount, s.partition.isSaturated r = false ∧ e ∈ found r ∧
          s.partition.graph.tailOf e ∈ s.partition.region r ∧
          s.partition.graph.headOf e ∈ s.partition.region r) ∧
      n = Finset.card {e ∈ Finset.range s.partition.edgeCount |
        t.partition.isActive e ≠ s.partition.isActive e} ∧
      (∀ r < s.partition.regionCount, s.partition.isSaturated r = false →
        (t.partition.isSaturated r = true ↔ ∀ e < s.partition.edgeCount,
          s.partition.graph.tailOf e ∈ s.partition.region r →
            t.partition.isActive e = s.partition.isActive e)) ∧
      (∀ r, s.partition.isSaturated r = true → t.partition.isSaturated r = true) ∧
      t = { s with partition := { s.partition with
        active := t.partition.active
        saturated := t.partition.saturated } } := by
  have hP : s.partition.IsComponentwise := h.partition
  have hlt : ∀ r ∈ openRegions s.partition, r < s.partition.regionCount :=
    fun r hr => (mem_openRegions_iff.mp hr).1
  obtain ⟨slope, hslope⟩ := exists_gradient? (hP.assignment_lt hP.indexed h.assignment_size)
    h.iterate h.iterate_size h.fits h.residual
  choose! found hfound hnodup hmem using fun r (hr : r < s.partition.regionCount) =>
    h.exists_splitRegion? slope s.needsOneCut hr
  have hmem' : ∀ r ∈ openRegions s.partition, ∀ e ∈ found r, e ∈ s.partition.regionEdges r :=
    fun r hr => hmem r (hlt r hr)
  have hnodup' : ∀ r ∈ openRegions s.partition, (found r).Nodup := fun r hr => hnodup r (hlt r hr)
  have hsplit := split_answers.mpr
    ⟨slope, _, hslope, outcomes_eq_ok fun r hr => hfound r (hlt r hr), rfl, rfl⟩
  rw [zip_map_self] at hsplit
  set cuts := (openRegions s.partition).map fun r => (r, found r)
  have hactive := markRegions_isActive s.partition cuts
  refine ⟨slope, found, cutCount cuts, _, hslope, hsplit, ?inside,
    nodup_flatMap_found hP hmem' hnodup', fun e he => (hactive e).mpr (.inl he), ?opened,
    cutCount_found hP hmem' hnodup', ?solved, ?kept, ?frame⟩
  case inside =>
    exact fun r hr _ => ⟨hfound r hr, fun e he => hP.ends_of_mem_regionEdges hr he⟩
  case opened =>
    intro e hopen hmarked
    rcases (hactive e).mp hmarked with hformer | ⟨-, cut, hcut, he⟩
    · rw [hopen] at hformer
      cases hformer
    · obtain ⟨r, hr, rfl⟩ := List.mem_map.mp hcut
      exact ⟨r, hlt r hr, (mem_openRegions_iff.mp hr).2, he,
        hP.ends_of_mem_regionEdges (hlt r hr) (hmem' r hr e he)⟩
  case solved =>
    intro r hr hunsolved
    exact markRegions_isSaturated_iff hP hmem' h.saturated_size
      (mem_openRegions_iff.mpr ⟨hr, hunsolved⟩)
  case kept =>
    intro r hsolved
    rw [markRegions_isSaturated found (openRegions s.partition) r, if_neg fun hopen =>
      Bool.noConfusion (hsolved.symm.trans (mem_openRegions_iff.mp hopen.1).2)]
    exact hsolved
  case frame =>
    exact congrArg (fun P : Partition K => { s with partition := P })
      (markRegions_eq s.partition cuts)

/-- Six vertices in three regions. The first region has a loop, parallel edges and an active edge
inside; the second is solved. -/
def loopedRegions : Solver ℚ :=
  let whole := Partition.whole ⟨#[0, 3, 5, 6, 7, 8, 8], #[0, 0, 0, 1, 1, 2, 3, 4],
    #[0, 1, 1, 0, 2, 3, 4, 5]⟩ ⟨none, 1⟩
  { ofPartition (Partition.rebuild { whole with
      active := #[false, false, false, true, true, false, true, false]
      regions := [[0, 1], [2, 3], [4, 5]]
      saturated := #[false, true, false] }) with
    quadratic := .identity 6 1 (some #[-10, 10, 0, 0, 5, 5])
    targetWeights := ⟨some #[0, 0, 0, 0, 0, 0], 0⟩
    x := some #[0, 0, 5] }

theorem isSplittable_loopedRegions : loopedRegions.IsSplittable #[0, 0, 5] where
  partition := by
    have hwhole : Partition.ofIndex? #[0, 3, 5, 6, 7, 8, 8] #[0, 1, 1, 0, 2, 3, 4, 5] none (1 : ℚ) =
        .ok (.whole ⟨#[0, 3, 5, 6, 7, 8, 8], #[0, 0, 0, 1, 1, 2, 3, 4],
          #[0, 1, 1, 0, 2, 3, 4, 5]⟩ ⟨none, 1⟩) := by with_unfolding_all rfl
    exact IsArranged.isComponentwise_rebuild
      ⟨(isArranged_of_ofIndex? hwhole).graph_valid, rfl, by decide, by decide⟩
  assignment_size := Vec.size_tabulate _ _
  saturated_size := by decide +kernel
  iterate := rfl
  iterate_size := by decide +kernel
  fits := ⟨rfl, by rintro l ⟨⟩; rfl⟩
  residual := by rintro A y ⟨⟩
  edgeWeights_nonneg := by decide +kernel

/-- The parallel edges of the first region are marked, and nothing is found in the third. -/
theorem split_marks_once_loopedRegions :
    loopedRegions.IsSplittable #[0, 0, 5] ∧
      loopedRegions.partition.regions = [[0, 1], [2, 3], [4, 5]] ∧
      loopedRegions.partition.saturated = #[false, true, false] ∧
      ∃ t, split.Answers loopedRegions 2 t ∧
        t.partition.active = #[false, true, true, true, true, false, true, false] ∧
        t.partition.saturated = #[false, true, true] ∧
        2 = Finset.card {e ∈ Finset.range loopedRegions.partition.edgeCount |
          t.partition.isActive e ≠ loopedRegions.partition.isActive e} ∧
        ∀ e, loopedRegions.partition.isActive e = true → t.partition.isActive e = true := by
  have hrun : split.Answers loopedRegions 2 _ := answers_of_toOption (by decide +kernel)
  obtain ⟨slope, found, n, t, -, hsplit, -, -, hkept, -, hcount, -⟩ :=
    isSplittable_loopedRegions.split_marks_once
  obtain ⟨hn, rfl⟩ := Prod.mk.inj (hsplit.symm.trans hrun)
  obtain rfl := Except.ok.inj hn
  exact ⟨isSplittable_loopedRegions, by decide +kernel, by decide +kernel, _, hrun,
    by decide +kernel, by decide +kernel, hcount, hkept⟩

end TotalVariation.Solver
