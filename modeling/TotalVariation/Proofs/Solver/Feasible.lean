import Mathlib
import TotalVariation.Proofs.Partition.Merge
import TotalVariation.Proofs.Solver.Coherent

/-! # Bounds along runs

A region counts with the tightest bounds of its vertices. As long as these leave room for a value,
the value of the region respects the bounds of all its vertices; bounds that exclude each other in
one region are not respected, although each vertex alone has room.
-/

namespace TotalVariation.Solver

open Step TotalVariation.Partition TotalVariation.Bound

variable {K : Type} [ExactField K] {s t : Solver K}

/-- In exact arithmetic every bound is defined. -/
theorem boundsOf?_bind (b : Weighting (Bound K)) (v : Nat) :
    (boundsOf? b).bind (· v) = boundAt b v := by
  unfold boundsOf? boundAt
  cases b.each with
  | some values => rfl
  | none =>
      cases hcommon : b.common with
      | none => rfl
      | some c => simp [Option.filter, Scalar.isDefined]

theorem problem_lowerAt (s : Solver K) {v : Nat} (hv : v < s.vertexCount) :
    s.problem.lowerAt v = boundAt s.lower v := by
  rw [← boundsOf?_bind]
  simp [Problem.lowerAt, problem, Vec.tabulate, hv]

theorem problem_upperAt (s : Solver K) {v : Nat} (hv : v < s.vertexCount) :
    s.problem.upperAt v = boundAt s.upper v := by
  rw [← boundsOf?_bind]
  simp [Problem.upperAt, problem, Vec.tabulate, hv]

/-- What the setting of bounds checks: as many bounds as vertices, and no vertex without room. -/
structure BoundsAccepted (s : Solver K) : Prop where
  size_lower : ∀ values, s.lower.each = some values → values.size = s.vertexCount
  size_upper : ∀ values, s.upper.each = some values → values.size = s.vertexCount
  uncrossed : ∀ v < s.vertexCount, AreUncrossed (s.problem.lowerAt v) (s.problem.upperAt v)

/-! ## The tightest bounds -/

section Tightest

variable {rel : K → K → Prop} {f : Bound K → Bound K → Bound K} [Std.Refl rel] [IsTrans K rel]

omit [ExactField K] in
/-- The bound of a region is the tightest of its vertices. -/
theorem isTightest_region (h : Tightens rel f) {P : Partition K} (hP : P.IsConsistent) {r : Nat}
    (hr : r < P.regionCount) (b : Weighting (Bound K)) :
    IsTightest rel (P.members r) (boundAt b) ((match b.each with
      | some values => P.regionFold f fun v => values.getD v none
      | none => Array.replicate P.regionCount b.common).getD r none) := by
  cases heach : b.each with
  | some values =>
      obtain ⟨first, rest, hregion⟩ :=
        List.exists_cons_of_ne_nil (hP.toIsArranged.region_ne_nil' hr)
      have htight := h.isTightest (fun v => values.getD v none) first rest
      rw [← hregion, hP.isIndexed.toFinset_region hr] at htight
      have hbound : boundAt b = fun v => values.getD v none := by
        funext v
        rw [boundAt, heach]
      rw [hbound]
      simpa [regionFold, Vec.tabulate, hr, representative, hregion] using htight
  | none =>
      have hbound : boundAt b = fun _ => b.common := by
        funext v
        rw [boundAt, heach]
      rw [hbound]
      have htight : IsTightest rel (P.members r) (fun _ => b.common) b.common :=
        isTightest_common (hP.members_nonempty hr) b.common
      simpa [hr] using htight

omit [ExactField K] in
/-- The bound of the whole graph is the tightest of all vertices. -/
theorem isTightest_whole (h : Tightens rel f) {n : Nat} (hn : 0 < n) (b : Weighting (Bound K))
    (hsize : ∀ values, b.each = some values → values.size = n) :
    IsTightest rel (Finset.range n) (boundAt b) (match b.each with
      | some values => values.foldl f none
      | none => b.common) := by
  cases heach : b.each with
  | some values =>
      have hlist : values.foldl f none = values.toList.foldl f none := by simp
      obtain ⟨hmem, hbound⟩ := h.foldl values.toList none
      have hat (v : Nat) : boundAt b v = values.getD v none := by rw [boundAt, heach]
      simp only [hlist]
      constructor
      · intro c hc
        have hin : some c ∈ values.toList := by simpa using hmem c hc
        obtain ⟨v, hv, heq⟩ := List.mem_iff_getElem.mp hin
        have hv' : v < values.size := by simpa using hv
        refine ⟨v, Finset.mem_range.mpr (hsize values heach ▸ hv'), ?_⟩
        rw [hat]
        simpa [hv'] using heq
      · intro v hv c hc
        have hv' : v < values.size := hsize values heach ▸ Finset.mem_range.mp hv
        rw [hat] at hc
        refine hbound c (List.mem_cons_of_mem _ (List.mem_iff_getElem.mpr ⟨v, by simpa, ?_⟩))
        simpa [hv'] using hc
  | none =>
      have hbound : boundAt b = fun _ => b.common := by
        funext v
        rw [boundAt, heach]
      rw [hbound]
      exact isTightest_common (Finset.nonempty_range_iff.mpr hn.ne') b.common

end Tightest

/-! ## Values between the bounds -/

/-- All bounds of the vertices of a region leave room for one value. -/
def HasRoom (p : Problem K) (S : Finset Nat) : Prop :=
  ∀ u ∈ S, ∀ w ∈ S, AreUncrossed (p.lowerAt u) (p.upperAt w)

/-- The value of every region whose bounds leave room respects the bounds of its vertices. -/
def RespectsBounds (p : Problem K) (s : Solver K) : Prop :=
  ∀ r < s.partition.regionCount, HasRoom p (s.partition.members r) →
    ∀ v ∈ s.partition.members r,
      IsBetween (p.lowerAt v) (p.upperAt v) (Vec.entry (s.x.getD #[]) r)

theorem isBetween_of_tightest {S : Finset Nat} (hS : ∀ v ∈ S, v < s.vertexCount)
    {low upp : Bound K} (hlow : IsTightest (· ≤ ·) S (boundAt s.lower) low)
    (hupp : IsTightest (· ≥ ·) S (boundAt s.upper) upp) {x : K}
    (hx : AreUncrossed low upp → IsBetween low upp x) (hroom : HasRoom s.problem S) {v : Nat}
    (hv : v ∈ S) : IsBetween (s.problem.lowerAt v) (s.problem.upperAt v) x := by
  have huncrossed : AreUncrossed low upp := by
    apply hlow.areUncrossed hupp
    intro u hu w hw
    rw [← problem_lowerAt s (hS u hu), ← problem_upperAt s (hS w hw)]
    exact hroom u hu w hw
  rw [problem_lowerAt s (hS v hv), problem_upperAt s (hS v hv)]
  exact hlow.isBetween hupp (hx huncrossed) hv

/-- The solution over the regions respects the bounds, if an iteration is made. -/
theorem respectsBounds_of_reducedSolution (hs : s.partition.IsCoherent)
    (hbackend : s.inner.backend = .splitting) (hiterations : 1 ≤ s.inner.maxIterations) {u : Unit}
    (h : (reducedSolution innerMethod).Answers s u t) : RespectsBounds s.problem t := by
  have hsame := sameSettings_of_reducedSolution h
  obtain ⟨premultiply, reduced, design, weights, targets, s₁, init, x, iterations, -, hreduced,
    htargets, -, hx, rfl⟩ := reducedSolution_answers h
  obtain ⟨hcoherent, hcount⟩ := isCoherent_of_regionTargets hs htargets
  have hinner := (sameSettings_of_regionTargets htargets).inner
  rw [← (sameSettings_of_regionTargets htargets).problem]
  intro r hr hroom v hv
  have hr' : r < s₁.partition.regionCount := hr
  have hlow := isTightest_region tightens_maxLower hcoherent.toIsConsistent hr' s₁.lower
  have hupp := isTightest_region tightens_minUpper hcoherent.toIsConsistent hr' s₁.upper
  refine isBetween_of_tightest (fun w hw => (mem_members.mp hw).1) hlow hupp ?_ hroom hv
  intro huncrossed
  rw [← hinner] at hbackend hiterations
  obtain rfl := innerMethod_eq_ok hbackend hx
  have hsize : (s₁.regionProblem reduced weights targets).size = s₁.partition.regionCount := by
    have hreduce := size_reduce s.quadratic s.partition premultiply
    rw [← reduce?_eq_ok hreduced] at hreduce
    exact hreduce.trans hcount.symm
  have hmade : (splittingParameters s₁.inner s₁.innerTolerance).maxIterations ≠ 0 := by
    change s₁.inner.maxIterations.toNat ≠ 0
    omega
  exact Splitting.isBetween_solve (p := s₁.regionProblem reduced weights targets) (v := r)
    (.inl hmade) (hsize ▸ hr') huncrossed

omit [ExactField K] in
/-- One region holds all vertices. -/
theorem members_eq_range {P : Partition K} (h : P.IsConsistent) (hone : P.regionCount = 1) :
    P.members 0 = Finset.range P.vertexCount := by
  ext v
  rw [mem_members, Finset.mem_range]
  apply and_iff_left_of_imp
  intro hv
  have := h.regionOf_lt hv
  omega

theorem wholeMedian_frame (s : Solver K) :
    s.wholeMedian.2.partition.graph = s.partition.graph ∧
      s.wholeMedian.2.partition.assignment = s.partition.assignment := by
  unfold wholeMedian
  split <;> exact ⟨rfl, rfl⟩

/-- The constant over the whole graph respects the bounds. -/
theorem respectsBounds_of_constantSolution (hs : s.partition.IsCoherent)
    (hone : s.partition.regionCount = 1) (hbounds : BoundsAccepted s) {u : K}
    (h : constantSolution.Answers s u t) : RespectsBounds s.problem { t with x := some #[u] } := by
  obtain ⟨value, -, rfl, rfl⟩ := constantSolution_answers h
  have hcount := (isCoherent_wholeMedian hs).2.trans hone
  obtain ⟨hgraph, hassignment⟩ := s.wholeMedian_frame
  intro r hr hroom v hv
  obtain rfl : r = 0 := by
    change r < s.wholeMedian.2.partition.regionCount at hr
    omega
  have hmembers : s.wholeMedian.2.partition.members 0 = Finset.range s.vertexCount := by
    rw [vertexCount, ← members_eq_range hs.toIsConsistent hone]
    ext w
    rw [mem_members, mem_members, Partition.vertexCount, hgraph, regionOf, hassignment]
    rfl
  change v ∈ s.wholeMedian.2.partition.members 0 at hv
  change HasRoom _ (s.wholeMedian.2.partition.members 0) at hroom
  rw [hmembers] at hv hroom
  have hpos : 0 < s.vertexCount := by
    have := Finset.mem_range.mp hv
    omega
  have hlow := isTightest_whole tightens_maxLower hpos s.lower hbounds.size_lower
  have hupp := isTightest_whole tightens_minUpper hpos s.upper hbounds.size_upper
  refine isBetween_of_tightest (fun w => Finset.mem_range.mp) hlow hupp ?_ hroom hv
  intro huncrossed
  rw [show ((some #[clamp s.largestLower s.smallestUpper value] : Option (Vec K)).getD #[]) =
    #[clamp s.largestLower s.smallestUpper value] from rfl]
  exact isBetween_clamp huncrossed value

/-! ## Rounds -/

theorem BoundsAccepted.of_sameSettings (hbounds : BoundsAccepted s) (h : SameSettings s t) :
    BoundsAccepted t where
  size_lower values hvalues := by
    rw [h.vertexCount]
    exact hbounds.size_lower values (h.lower ▸ hvalues)
  size_upper values hvalues := by
    rw [h.vertexCount]
    exact hbounds.size_upper values (h.upper ▸ hvalues)
  uncrossed v hv := by
    rw [h.problem]
    exact hbounds.uncrossed v (h.vertexCount ▸ hv)

variable {p : Problem K}

/-- Whether the bounds are respected depends on the regions and the iterate alone. -/
theorem RespectsBounds.congr (h : RespectsBounds p s) (hx : t.x = s.x)
    (hgraph : t.partition.graph = s.partition.graph)
    (hassignment : t.partition.assignment = s.partition.assignment)
    (hcount : t.partition.regionCount = s.partition.regionCount) : RespectsBounds p t := by
  have hmembers (r : Nat) : t.partition.members r = s.partition.members r := by
    ext v
    simp only [mem_members, Partition.vertexCount, regionOf, hgraph, hassignment]
  intro r hr hroom v hv
  rw [hmembers] at hroom hv
  rw [hx]
  exact h r (hcount ▸ hr) hroom v hv

theorem respectsBounds_of_renewResidual {u : Unit} (h : RespectsBounds p s)
    (hrenewed : renewResidual.Answers s u t) : RespectsBounds p t := by
  rcases renewResidual_answers hrenewed with ⟨-, rfl⟩ | ⟨-, x, y, residual, -, -, -, rfl⟩
  · exact h
  · exact h.congr rfl rfl rfl rfl

/-- Merging equal values keeps the bounds: the value of every vertex stays, and a region whose
bounds leave room is made of regions whose bounds do. -/
theorem respectsBounds_of_merge {solve : InnerMethod K} {m : Int} (hs : s.IsSolved)
    (hzero : s.mergeTolerance = 0) (h : RespectsBounds p s)
    (hmerge : (merge (steps solve)).Answers s m t) : RespectsBounds p t := by
  rcases merge_answers hmerge with ⟨-, -, -, rfl⟩ | ⟨x, y, hx, hok, hmerged⟩
  · exact h
  · have hstored : RespectsBounds p { s with
        partition := (s.partition.merge? x s.mergeTolerance).1
        x := some y } := by
      rw [hzero] at hok ⊢
      have hgraph : (s.partition.merge? x 0).1.graph = s.partition.graph := by
        rcases merge?_eq_ok hok with ⟨-, hsame, -, -⟩ | ⟨-, hrebuilt, -, -⟩
        · rw [hsame]
        · rw [hrebuilt]
          rfl
      have hvertices : (s.partition.merge? x 0).1.vertexCount = s.partition.vertexCount := by
        rw [Partition.vertexCount, hgraph, Partition.vertexCount]
      intro r hr hroom v hv
      obtain ⟨hlt, rfl⟩ := mem_members.mp hv
      have hlt' : v < s.partition.vertexCount := hvertices ▸ hlt
      have hfiner : s.partition.members (s.partition.regionOf v) ⊆
          (s.partition.merge? x 0).1.members ((s.partition.merge? x 0).1.regionOf v) := by
        intro w hw
        obtain ⟨hw, hregion⟩ := mem_members.mp hw
        exact mem_members.mpr ⟨hvertices.symm ▸ hw,
          hs.partition.merge?_coarser hok hw hlt' hregion⟩
      have hformer := h _ (hs.partition.regionOf_lt hlt')
        (fun u hu w hw => hroom u (hfiner hu) w (hfiner hw)) v (mem_members.mpr ⟨hlt', rfl⟩)
      rw [hx] at hformer
      change IsBetween _ _ (Vec.entry y _)
      rw [hs.partition.merge?_entry hok hlt']
      exact hformer
    rcases hmerged with ⟨-, rfl⟩ | ⟨-, hrenewed⟩
    · exact hstored
    · exact respectsBounds_of_renewResidual hstored hrenewed

/-- What a run needs to keep the bounds: the method is splitting and makes an iteration, only equal
values are merged, and each vertex has room between its bounds. -/
structure KeepsBounds (s : Solver K) : Prop where
  accepted : BoundsAccepted s
  backend : s.inner.backend = .splitting
  iterations : 1 ≤ s.inner.maxIterations
  exactMerge : s.mergeTolerance = 0

theorem KeepsBounds.of_sameSettings (hb : KeepsBounds s) (h : SameSettings s t) :
    KeepsBounds t where
  accepted := hb.accepted.of_sameSettings h
  backend := by rw [h.inner, hb.backend]
  iterations := by
    rw [h.inner]
    exact hb.iterations
  exactMerge := by rw [h.mergeTolerance, hb.exactMerge]

theorem respectsBounds_of_start {u : Unit} (hs : s.partition.IsArranged) (hb : KeepsBounds s)
    (h : (start standardSteps).Answers s u t) : RespectsBounds s.problem t := by
  have hbegun : SameSettings s { s with lastX := none, partition := components s.partition } := by
    constructor <;> rfl
  have hbounds := hb.of_sameSettings hbegun
  have hcoherent := isCoherent_components hs
  rw [← hbegun.problem]
  rcases start_answers h with ⟨hone, c, s₁, hc, rfl⟩ | ⟨-, hsolved⟩
  · exact respectsBounds_of_constantSolution
      (s := { s with lastX := none, partition := components s.partition })
      hcoherent hone hbounds.accepted hc
  · exact respectsBounds_of_reducedSolution
      (s := { s with lastX := none, partition := components s.partition })
      hcoherent hbounds.backend hbounds.iterations hsolved

/-- A round ends with values that respect the bounds, whatever was split before it. -/
theorem respectsBounds_of_finishRound {r : Recording} {number activated : Nat} {change : K}
    (hs : s.partition.IsArranged) (hb : KeepsBounds s)
    (h : (finishRound standardSteps r number activated).Answers s change t) :
    RespectsBounds s.problem t := by
  obtain ⟨s₁, merged, s₂, s₃, hsolved, hmerged, hevolution, heq⟩ :=
    finishRound_answers objective_answers h
  have hrebuilt : SameSettings s { s with partition := s.partition.rebuild.reduceGraph } := by
    constructor <;> rfl
  have hbounds := hb.of_sameSettings hrebuilt
  have hone : RespectsBounds s.problem s₁ := by
    rw [← hrebuilt.problem]
    exact respectsBounds_of_reducedSolution
      (s := { s with partition := s.partition.rebuild.reduceGraph })
      hs.isCoherent_rebuild hbounds.backend hbounds.iterations hsolved
  have hone' : s₁.IsSolved := isSolved_of_reducedSolution
    (s := { s with partition := s.partition.rebuild.reduceGraph })
    (answersInSize_innerMethod hbounds.backend) hs.isCoherent_rebuild hsolved
  have hzero := (hbounds.of_sameSettings (sameSettings_of_reducedSolution hsolved)).exactMerge
  have htwo := respectsBounds_of_merge hone' hzero hone hmerged
  obtain ⟨x, lastX, last, -, -, rfl⟩ := evolution_answers hevolution
  rw [heq]
  exact htwo.congr rfl rfl rfl rfl

variable {r : Recording}

theorem LoopHead.respectsBounds (hs : s.partition.IsArranged) (hb : KeepsBounds s)
    {left done : Nat} {e : Option K} (h : LoopHead standardSteps r s left done e t) :
    RespectsBounds s.problem t := by
  induction h with
  | first hstarted hrecorded =>
      have hforgot : SameSettings s { s with history := .empty } := by
        constructor <;> rfl
      rw [← hforgot.problem, recordRound_answers objective_answers hrecorded]
      exact (respectsBounds_of_start (s := { s with history := .empty }) hs
        (hb.of_sameSettings hforgot) hstarted).congr rfl rfl rfl rfl
  | next hhead _ hkept hsplit _ hfinished _ =>
      -- The values are solved for anew, so the hypothesis on the former ones is not needed.
      have hsame := (hhead.sameSettings.trans (sameSettings_of_keepIterate hkept)).trans
        (sameSettings_of_split hsplit)
      have hsolve := answersInSize_innerMethod hb.backend
      have hkeep := isSolved_of_keepIterate (hhead.isSolved hsolve hs) hkept
      rw [← hsame.problem]
      refine respectsBounds_of_finishRound ?_ (hb.of_sameSettings hsame) hfinished
      obtain ⟨slope, found, -, -, rfl, -⟩ := split_answers.mp hsplit
      exact isArranged_markRegions hkeep.partition.toIsArranged _

/-- The loop ends with values that respect the bounds. -/
theorem LoopEnd.respectsBounds {p : Problem K} {left : Nat} {e : Option K} {u : Solver K}
    (ht : RespectsBounds p t) (h : LoopEnd standardSteps left e t u) : RespectsBounds p u := by
  cases h with
  | exhausted _ heq =>
      rw [heq]
      exact ht.congr rfl rfl rfl rfl
  | settled _ heq =>
      rw [heq]
      exact ht
  | unsplit _ hkept hsplit =>
      obtain ⟨x, hx, rfl⟩ := keepIterate_answers hkept
      obtain ⟨slope, found, -, -, rfl, -⟩ := split_answers.mp hsplit
      obtain ⟨hgraph, -, hregions, hassignment⟩ := markRegions_frame t.partition.saveAssignment
        ((openRegions t.partition.saveAssignment).zip found)
      exact ht.congr rfl hgraph hassignment (congrArg List.length hregions)

/-- A run of splitting that merges equal values only ends with a value between the bounds at every
vertex exactly if no region at its end holds a lower bound above an upper bound. -/
theorem isBetween_iff_of_run (hs : s.partition.IsArranged) (haccepted : BoundsAccepted s)
    (hbackend : s.inner.backend = .splitting) (hiterations : 1 ≤ s.inner.maxIterations)
    (hmerge : s.mergeTolerance = 0) {n : Nat} (h : (run standardSteps true r).Answers s n t) :
    (∀ v < s.vertexCount, IsBetween (s.problem.lowerAt v) (s.problem.upperAt v)
        (Vec.entry (t.x.getD #[]) (t.partition.regionOf v))) ↔
      ∀ u < s.vertexCount, ∀ v < s.vertexCount,
        t.partition.regionOf u = t.partition.regionOf v →
          AreUncrossed (s.problem.lowerAt u) (s.problem.upperAt v) := by
  constructor
  · intro hbetween u hu v hv hregion low upp hlow hupp
    exact ((hbetween u hu).1 low hlow).trans (hregion ▸ (hbetween v hv).2 upp hupp)
  · intro huncrossed v hv
    obtain ⟨left, e, q, hhead, hend⟩ := exists_end_of_run h
    have hb : KeepsBounds s := ⟨haccepted, hbackend, hiterations, hmerge⟩
    have hsolved := hend.isSolved (hhead.isSolved (answersInSize_innerMethod hbackend) hs)
    have hvertices : t.partition.vertexCount = s.vertexCount := (sameSettings_of_run h).vertexCount
    refine hend.respectsBounds (hhead.respectsBounds hs hb) _
      (hsolved.partition.regionOf_lt (hvertices ▸ hv)) ?_ v (mem_members.mpr ⟨hvertices ▸ hv, rfl⟩)
    intro u hu w hw
    rw [mem_members, hvertices] at hu hw
    exact huncrossed u hu.1 w hw.1 (hu.2.trans hw.2.symm)

end TotalVariation.Solver
