import Mathlib
import TotalVariation.Proofs.Partition.Finer
import TotalVariation.Proofs.Solver.Coherent
import TotalVariation.Proofs.Solver.RegionCuts

/-! # Splits divide regions

Every edge that a split marks ends up between two regions. The first cut of a region marks all edges
that cross it; the second marks those that cross it among the edges that the first left, and these
are all that still connect the region. So each marked edge has a side on each of its ends, and no
chain of the edges left over leads from one to the other.
-/

namespace TotalVariation.Solver

open Step TotalVariation.Partition

variable {α : Type} {s t : Solver α} {P : Partition α} {r : Nat}

section Cuts

variable [Scalar α]

/-- The edges that are cut are those whose ends lie on different sides. -/
theorem exists_side_of_cutEdges? {vertices edges cut : List Nat} {price : Nat → Terminal α}
    (h : cutEdges? P vertices price edges = .ok cut) : ∃ side : Nat → Bool,
      cut = edges.filter fun e => side (P.graph.tailOf e) != side (P.graph.headOf e) := by
  rw [cutEdges?] at h
  obtain ⟨priced, -, h⟩ := bind_eq_ok.mp h
  obtain ⟨linked, -, h⟩ := bind_eq_ok.mp h
  obtain ⟨solved, -, h⟩ := bind_eq_ok.mp h
  obtain ⟨tails, htails, h⟩ := bind_eq_ok.mp h
  obtain ⟨heads, hheads, h⟩ := bind_eq_ok.mp h
  obtain ⟨side, hside⟩ := solved.exists_side
  refine ⟨side, ?_⟩
  rw [← Except.ok.inj h, hside htails, hside hheads, List.map_map, List.map_map, List.zip_map',
    zip_map_self, List.filter_map, List.map_map]
  exact List.map_id _

theorem splitRegion?_eq_bind {x slope : Vec α} (hx : s.x = some x) (oneCut : Bool) (r : Nat) :
    s.splitRegion? slope oneCut r =
      if (s.partition.region r).length < 2 then .ok []
      else if (s.partition.regionEdges r).isEmpty = true then .ok []
      else
        cutEdges? s.partition (s.partition.region r) (s.upwardPrice slope (Vec.entry x r))
          (s.partition.regionEdges r) >>= fun upward =>
        let remaining := (s.partition.regionEdges r).filter fun e => !upward.contains e
        if (oneCut || remaining.isEmpty) = true then .ok upward
        else
          cutEdges? s.partition (s.partition.region r) (s.downwardPrice slope (Vec.entry x r))
            remaining >>= fun downward => .ok (upward ++ downward) := by
  rw [splitRegion?, hx]
  rfl

/-- The ends of the edge lie on different sides, and the ends of each edge of the region that was
not found lie on one side. -/
def IsDivided (P : Partition α) (r : Nat) (found : List Nat) (e : Nat) : Prop :=
  ∃ side : Nat → Bool, side (P.graph.tailOf e) ≠ side (P.graph.headOf e) ∧
    ∀ f ∈ P.regionEdges r, f ∉ found → side (P.graph.tailOf f) = side (P.graph.headOf f)

omit [Scalar α] in
/-- A cut among the edges that are left divides each edge that it finds. -/
theorem isDivided_of_mem_cut {side : Nat → Bool} {left found : List Nat} {e : Nat}
    (he : e ∈ left.filter fun e => side (P.graph.tailOf e) != side (P.graph.headOf e))
    (hleft : ∀ f ∈ P.regionEdges r, f ∉ found → f ∈ left)
    (hfound : ∀ f ∈ left.filter fun e => side (P.graph.tailOf e) != side (P.graph.headOf e),
      f ∈ found) : IsDivided P r found e := by
  refine ⟨side, bne_iff_ne.mp (List.mem_filter.mp he).2, ?_⟩
  intro f hf hnot
  by_contra hne
  exact hnot (hfound f (List.mem_filter.mpr ⟨hleft f hf hnot, bne_iff_ne.mpr hne⟩))

/-- The edges found in a region are open edges of the region, and all of them are divided. -/
theorem isDivided_of_splitRegion? {slope : Vec α} {oneCut : Bool} {found : List Nat}
    (h : s.splitRegion? slope oneCut r = .ok found) {e : Nat} (he : e ∈ found) :
    e ∈ s.partition.regionEdges r ∧ IsDivided s.partition r found e := by
  rw [splitRegion?] at h
  dsimp only at h
  split at h
  next =>
    rw [← Except.ok.inj h] at he
    exact (List.not_mem_nil he).elim
  next =>
    change (if (s.partition.regionEdges r).isEmpty = true then _ else _) = _ at h
    split at h
    next =>
      rw [← Except.ok.inj h] at he
      exact (List.not_mem_nil he).elim
    next =>
      obtain ⟨upward, hupward, h⟩ := bind_eq_ok.mp h
      obtain ⟨side, hside⟩ := exists_side_of_cutEdges? hupward
      change upward = (s.partition.regionEdges r).filter _ at hside
      split at h
      next =>
        obtain rfl := Except.ok.inj h
        rw [hside] at he ⊢
        exact ⟨(List.mem_filter.mp he).1, isDivided_of_mem_cut he (fun f hf _ => hf) fun f hf => hf⟩
      next =>
        obtain ⟨downward, hdownward, h⟩ := bind_eq_ok.mp h
        obtain ⟨side', hside'⟩ := exists_side_of_cutEdges? hdownward
        obtain rfl := Except.ok.inj h
        have hfirst : ∀ f ∈ upward, f ∈ s.partition.regionEdges r := by
          intro f hf
          rw [hside] at hf
          exact (List.mem_filter.mp hf).1
        rcases List.mem_append.mp he with hin | hin
        · refine ⟨hfirst e hin, ?_⟩
          rw [hside] at hin
          refine isDivided_of_mem_cut hin (fun f hf _ => hf) fun f hf => ?_
          exact List.mem_append_left _ (hside ▸ hf)
        · rw [hside'] at hin
          refine ⟨(List.mem_filter.mp (List.mem_filter.mp hin).1).1,
            isDivided_of_mem_cut hin (fun f hf hnot => ?_) fun f hf => ?_⟩
          · -- An edge that was not found at all was left to the second cut.
            have hnotUp : f ∉ upward := fun hup => hnot (List.mem_append_left _ hup)
            exact List.mem_filter.mpr ⟨hf, by simpa using hnotUp⟩
          · exact List.mem_append_right _ (hside' ▸ hf)

end Cuts

/-! ## Marking what was found -/

section Marks

variable {cuts : List (Nat × List Nat)}

/-- The active edges after marking are the former ones and those that were found. -/
theorem markRegions_isActive (P : Partition α) (cuts : List (Nat × List Nat)) (e : Nat) :
    (markRegions P cuts).isActive e = true ↔
      P.isActive e = true ∨ e < P.active.size ∧ ∃ cut ∈ cuts, e ∈ cut.2 := by
  induction cuts generalizing P with
  | nil => simp [markRegions]
  | cons cut cuts ih =>
      have hone : (markRegion P cut.1 cut.2).isActive e = true ↔
          P.isActive e = true ∨ e < P.active.size ∧ e ∈ cut.2 := by
        change (cut.2.foldl (fun a e => a.setIfInBounds e true) P.active).getD e false = true ↔ _
        rw [getD_foldl_setIfInBounds, isActive]
        split
        next h => exact iff_of_true rfl (.inr h.symm)
        next h => exact ⟨.inl, fun h' => h'.resolve_right fun hin => h hin.symm⟩
      have hsize : (markRegion P cut.1 cut.2).active.size = P.active.size :=
        size_foldl_setIfInBounds cut.2 (fun e => e) (fun _ => true) P.active
      change (markRegions (markRegion P cut.1 cut.2) cuts).isActive e = true ↔ _
      rw [ih, hone, hsize]
      simp only [List.mem_cons, exists_eq_or_imp, and_or_left, or_assoc]

theorem isActive_of_markRegions {e : Nat} (h : (markRegions P cuts).isActive e = false) :
    P.isActive e = false := by
  by_contra hactive
  rw [(markRegions_isActive P cuts e).mpr (.inl (by simpa using hactive))] at h
  cases h

theorem markRegions_saturated (found : Nat → List Nat) (regions : List Nat) :
    (markRegions P (regions.map fun r => (r, found r))).saturated =
      regions.foldl (fun a r => a.setIfInBounds r (found r).isEmpty) P.saturated := by
  induction regions generalizing P with
  | nil => rfl
  | cons r regions ih =>
      rw [List.map_cons, List.foldl_cons]
      exact ih (P := markRegion P r (found r))

/-- The regions that were tested are solved if nothing was found in them. -/
theorem markRegions_isSaturated (found : Nat → List Nat) (regions : List Nat) (r : Nat) :
    (markRegions P (regions.map fun r => (r, found r))).isSaturated r =
      if r ∈ regions ∧ r < P.saturated.size then (found r).isEmpty else P.isSaturated r := by
  rw [isSaturated, markRegions_saturated, getD_foldl_setIfInBounds_value]
  rfl

theorem cutCount_map (found : Nat → List Nat) (regions : List Nat) :
    cutCount (regions.map fun r => (r, found r)) =
      (regions.map fun r => (found r).length).sum := by
  rw [cutCount_eq_sum, List.map_map]
  rfl

/-- Units that all succeed have the list of their outcomes. -/
theorem outcomes_eq_ok {f : Nat → Except (Failure α) (List Nat)} {found : Nat → List Nat}
    {units : List Nat} (h : ∀ u ∈ units, f u = .ok (found u)) :
    Workload.outcomes f units = .ok (units.map found) :=
  mapM_map_eq_ok h

theorem markRegions_graph (P : Partition α) (cuts : List (Nat × List Nat)) :
    (markRegions P cuts).graph = P.graph :=
  (markRegions_frame P cuts).1

theorem connected_of_markRegions {u v : Nat} (h : (markRegions P cuts).Connected u v) :
    P.Connected u v :=
  connected_of_inactive_imp h (markRegions_graph P cuts).symm
    fun _ _ hopen => isActive_of_markRegions hopen

/-- Marking edges makes the regions finer. -/
theorem isFiner_markRegions (h : P.IsConsistent) (cuts : List (Nat × List Nat)) :
    (markRegions P cuts).rebuild.IsFiner P := by
  intro u hu v hv huv
  apply h.regionOf_eq_of_connected
  exact connected_of_markRegions
    (((isArranged_markRegions h.toIsArranged cuts).rebuild_regionOf_eq_iff hu hv).mp huv)

/-- The ends of a divided edge are connected no more. -/
theorem not_connected_of_isDivided (h : P.IsConsistent) (hr : r < P.regionCount)
    {found : List Nat} (hcut : (r, found) ∈ cuts) {e : Nat} (he : e ∈ P.regionEdges r)
    (hdivided : IsDivided P r found e) :
    ¬(markRegions P cuts).Connected (P.graph.tailOf e) (P.graph.headOf e) := by
  obtain ⟨side, hne, hside⟩ := hdivided
  intro hconnected
  -- The sides within the region are constant along the edges that stayed open.
  have hconstant := eq_of_connected (f := fun v => decide (P.regionOf v = r) && side v) ?_
    hconnected
  · obtain ⟨htail, hhead⟩ := h.isComponentwise.ends_of_mem_regionEdges hr he
    rw [((h.mem_region r hr _).mp htail).2, ((h.mem_region r hr _).mp hhead).2,
      decide_eq_true rfl, Bool.true_and, Bool.true_and] at hconstant
    exact hne hconstant
  · intro f hf hopen
    have hf' : f < P.edgeCount := by rwa [edgeCount, markRegions_graph] at hf
    have hformer := isActive_of_markRegions hopen
    rw [markRegions_graph, h.regionOf_eq_of_inactive hf' hformer]
    by_cases hregion : P.regionOf (P.graph.headOf f) = r
    · rw [hside f]
      · refine (h.isComponentwise.mem_regionEdges hr).mpr
          ⟨mem_openEdges.mpr ⟨hf', hformer⟩, mem_members.mpr ⟨?_, ?_⟩⟩
        · exact h.graph_valid.tail_lt f hf'
        · rw [h.regionOf_eq_of_inactive hf' hformer, hregion]
      · intro hmem
        rw [(markRegions_isActive P cuts f).mpr
          (.inr ⟨h.active_size.symm ▸ hf', _, hcut, hmem⟩)] at hopen
        cases hopen
    · simp [hregion]

end Marks

/-! ## Splits -/

section Splits

variable [Scalar α]

/-- A split marks the edges that it finds in the regions that it tests. -/
theorem split_marks {n : Nat} (h : split.Answers s n t) : ∃ cuts slope,
    t = { s with partition := markRegions s.partition cuts } ∧ n = cutCount cuts ∧
      ∀ cut ∈ cuts, cut.1 < s.partition.regionCount ∧
        s.splitRegion? slope s.needsOneCut cut.1 = .ok cut.2 := by
  obtain ⟨slope, found, -, hfound, ht, hn⟩ := split_answers.mp h
  refine ⟨_, slope, ht, hn, ?_⟩
  rintro ⟨r, edges⟩ hcut
  refine ⟨?_, List.forall₂_zip (mapM_eq_ok.mp hfound) hcut⟩
  exact (mem_openRegions_iff.mp (List.of_mem_zip hcut).1).1

theorem isArranged_of_split (hs : s.partition.IsArranged) {n : Nat} (h : split.Answers s n t) :
    t.partition.IsArranged :=
  ((retains_split s).of_answers h).arranged hs

theorem isFiner_of_split (hs : s.partition.IsConsistent) {n : Nat} (h : split.Answers s n t) :
    t.partition.rebuild.IsFiner s.partition := by
  obtain ⟨cuts, slope, rfl, -, -⟩ := split_marks h
  exact isFiner_markRegions hs cuts

/-- The ends of the edges that a split marks lie in one region, and are connected no more. -/
theorem not_connected_of_split (hs : s.partition.IsConsistent) {n : Nat} (h : split.Answers s n t)
    {e : Nat} (hopen : s.partition.isActive e = false)
    (hmarked : t.partition.isActive e = true) :
    ¬t.partition.Connected (s.partition.graph.tailOf e) (s.partition.graph.headOf e) := by
  obtain ⟨cuts, slope, rfl, -, hcuts⟩ := split_marks h
  rcases (markRegions_isActive s.partition cuts e).mp hmarked with hactive | ⟨-, cut, hcut, hmem⟩
  · rw [hactive] at hopen
    cases hopen
  · obtain ⟨hr, hfound⟩ := hcuts cut hcut
    obtain ⟨hedge, hdivided⟩ := isDivided_of_splitRegion? hfound hmem
    exact not_connected_of_isDivided hs hr hcut hedge hdivided

/-- After a split each active edge, marked before or now, joins two of the components. -/
theorem rebuild_regionOf_ne_of_split (hs : s.partition.IsConsistent) {n : Nat}
    (h : split.Answers s n t) {e : Nat} (he : e < s.partition.edgeCount)
    (hactive : s.partition.isActive e = true ∨ t.partition.isActive e = true) :
    t.partition.rebuild.regionOf (s.partition.graph.tailOf e) ≠
      t.partition.rebuild.regionOf (s.partition.graph.headOf e) := by
  have hvertices : t.partition.vertexCount = s.partition.vertexCount :=
    congrArg ForwardStar.vertices (sameSettings_of_split h).graph
  have htail : s.partition.graph.tailOf e < t.partition.vertexCount :=
    hvertices ▸ hs.graph_valid.tail_lt e he
  have hhead : s.partition.graph.headOf e < t.partition.vertexCount :=
    hvertices ▸ hs.graph_valid.head_lt e he
  intro hsame
  cases hformer : s.partition.isActive e with
  | true => exact (hs.isActive_iff e he).mp hformer (isFiner_of_split hs h _ htail _ hhead hsame)
  | false =>
      have harranged := isArranged_of_split hs.toIsArranged h
      exact not_connected_of_split hs h hformer (hactive.resolve_left (by simp [hformer]))
        ((harranged.rebuild_regionOf_eq_iff htail hhead).mp hsame)

/-- A split that finds edges marks one that was open. -/
theorem exists_marked_of_split (hs : s.partition.IsConsistent) {n : Nat} (hn : 0 < n)
    (h : split.Answers s n t) : ∃ e < s.partition.edgeCount, s.partition.isActive e = false ∧
      t.partition.isActive e = true := by
  obtain ⟨cuts, slope, rfl, rfl, hcuts⟩ := split_marks h
  obtain ⟨cut, hcut, hne⟩ : ∃ cut ∈ cuts, cut.2 ≠ [] := by
    by_contra hnone
    rw [cutCount_eq_zero.mpr fun cut hcut => not_not.mp fun hne => hnone ⟨cut, hcut, hne⟩] at hn
    exact Nat.lt_irrefl 0 hn
  obtain ⟨e, he⟩ := List.exists_mem_of_ne_nil _ hne
  obtain ⟨hr, hfound⟩ := hcuts cut hcut
  obtain ⟨hlt, hopen⟩ := mem_openEdges.mp
    ((hs.isComponentwise.mem_regionEdges hr).mp (isDivided_of_splitRegion? hfound he).1).1
  exact ⟨e, hlt, hopen, (markRegions_isActive s.partition cuts e).mpr
    (.inr ⟨hs.active_size.symm ▸ hlt, cut, hcut, he⟩)⟩

/-- After a split that finds edges the components of the edges left open are parts of the regions.
Each region in which an edge was marked is divided, so there are more components than there were
regions; every active edge, marked before or now, joins two components, and so none is opened when
the graph of the regions is brought up to date. -/
theorem divides_of_split (hs : s.partition.IsConsistent) {n : Nat} (hn : 0 < n)
    (h : split.Answers s n t) :
    let P := s.partition
    let Q := t.partition.rebuild
    (∀ r < Q.regionCount, ∃ o < P.regionCount, Q.region r ⊆ P.region o) ∧
      (∀ o < P.regionCount, ∀ e < P.edgeCount, P.graph.tailOf e ∈ P.region o →
        P.isActive e = false → t.partition.isActive e = true →
          ∃ u ∈ P.region o, ∃ v ∈ P.region o, Q.regionOf u ≠ Q.regionOf v) ∧
      P.regionCount < Q.regionCount ∧
      (∀ e < P.edgeCount, P.isActive e = true ∨ t.partition.isActive e = true →
        Q.regionOf (P.graph.tailOf e) ≠ Q.regionOf (P.graph.headOf e)) ∧
      Q.reduceGraph.active = t.partition.active := by
  intro P Q
  have harranged : t.partition.IsArranged := isArranged_of_split hs.toIsArranged h
  have hgraph : t.partition.graph = P.graph := (sameSettings_of_split h).graph
  have hvertices : Q.vertexCount = P.vertexCount := congrArg ForwardStar.vertices hgraph
  have hfiner : Q.IsFiner P := isFiner_of_split hs h
  have hjoins : ∀ e < P.edgeCount, P.isActive e = true ∨ t.partition.isActive e = true →
      Q.regionOf (P.graph.tailOf e) ≠ Q.regionOf (P.graph.headOf e) :=
    fun e he hactive => rebuild_regionOf_ne_of_split hs h he hactive
  refine ⟨fun r hr => ?_, ?_, ?_, hjoins, ?_⟩
  · exact exists_region_subset_of_isFiner hs harranged.rebuild harranged.isIndexed_rebuild
      hvertices hfiner hr
  · intro o ho e he hin hopen hactive
    obtain ⟨-, hregion⟩ := (hs.mem_region o ho _).mp hin
    refine ⟨_, hin, _, (hs.mem_region o ho _).mpr ⟨hs.graph_valid.head_lt e he, ?_⟩,
      hjoins e he (.inr hactive)⟩
    rw [← hs.regionOf_eq_of_inactive he hopen, hregion]
  · obtain ⟨e, he, hopen, hactive⟩ := exists_marked_of_split hs hn h
    exact regionCount_lt_of_isFiner hs harranged.rebuild harranged.isIndexed_rebuild hvertices
      hfiner (hs.graph_valid.tail_lt e he) (hs.graph_valid.head_lt e he)
      (hs.regionOf_eq_of_inactive he hopen) (hjoins e he (.inr hactive))
  · apply harranged.rebuild.reduceGraph_active
    intro e he hactive
    have he' : e < P.edgeCount := Nat.lt_of_lt_of_eq he (congrArg ForwardStar.edges hgraph)
    rw [separates_iff]
    change Q.regionOf (t.partition.graph.tailOf e) ≠ Q.regionOf (t.partition.graph.headOf e)
    rw [hgraph]
    exact hjoins e he' (.inr hactive)

/-- Four vertices on a cycle with a chord, drawn apart, and a fifth that is a region of its own. -/
def drawnCycle : Solver ℚ :=
  { ofPartition (((Partition.whole ⟨#[0, 2, 4, 5, 6, 6], #[0, 0, 1, 1, 2, 3], #[1, 3, 2, 3, 3, 4]⟩
      ⟨none, 1⟩).setActive [5] true).rebuild.reduceGraph) with
    quadratic := .identity 5 1 (some #[-10, 0, 10, -1, 50])
    targetWeights := ⟨some #[0, 2, 0, 2, 0], 0⟩
    x := some #[0, 50] }

theorem divides_of_split_drawnCycle : drawnCycle.partition.IsConsistent ∧
    ∃ t, split.Answers drawnCycle 4 t ∧ drawnCycle.partition.regions = [[0, 1, 2, 3], [4]] ∧
      t.partition.rebuild.regions = [[0], [1, 3], [2], [4]] ∧
      drawnCycle.partition.regionCount < t.partition.rebuild.regionCount ∧
      t.partition.rebuild.reduceGraph.active = t.partition.active := by
  have hcycle : Partition.ofIndex? #[0, 2, 4, 5, 6, 6] #[1, 3, 2, 3, 3, 4] none (1 : ℚ) = .ok
      (.whole ⟨#[0, 2, 4, 5, 6, 6], #[0, 0, 1, 1, 2, 3], #[1, 3, 2, 3, 3, 4]⟩ ⟨none, 1⟩) := by
    with_unfolding_all rfl
  have hconsistent : drawnCycle.partition.IsConsistent :=
    ((isArranged_of_ofIndex? hcycle).setActive [5] true).rebuild_reduceGraph
  have hsplit : split.Answers drawnCycle 4 _ := answers_of_toOption (by decide +kernel)
  obtain ⟨-, -, hmore, -, hactive⟩ := divides_of_split hconsistent (by decide) hsplit
  exact ⟨hconsistent, _, hsplit, by decide +kernel, by decide +kernel, hmore, hactive⟩

end Splits

end TotalVariation.Solver
