import Mathlib
import TotalVariation.Proofs.Partition.Merge
import TotalVariation.Proofs.Partition.Reduced
import TotalVariation.Proofs.Quadratic.Region
import TotalVariation.Proofs.Solver.Refine
import TotalVariation.Proofs.Solver.Rounds

/-! # The evolution of the iterate

The iterate is compared with the kept one on the vertices, but on a region that is believed to be
solved at its first vertex only. That is enough: since the iterate was kept the regions were divided
by the split, and a region that a merger leaves solved was not put together by it. So a solved
region lies in one region of the kept assignment.
-/

namespace TotalVariation.Solver

open Step TotalVariation.Partition

/-! ## The assignment of the vertices -/

section Assignment

variable {α : Type} [Scalar α] {s t : Solver α} {solve : InnerMethod α} {r : Recording}

/-- A solution over the regions leaves the assignment and the kept iterate alone. -/
theorem reducedSolution_frame {u : Unit} (h : (reducedSolution solve).Answers s u t) :
    t.partition.assignment = s.partition.assignment ∧ t.lastX = s.lastX ∧
      t.partition.lastAssignment = s.partition.lastAssignment := by
  obtain ⟨premultiply, reduced, design, weights, targets, s₁, init, x, iterations, -, -, htargets,
    -, -, rfl⟩ := reducedSolution_answers h
  obtain ⟨-, rfl⟩ := regionTargets_answers.mp htargets
  obtain hsame | ⟨y, -, hsame⟩ := s.sorted_cases <;> rw [hsame] <;> exact ⟨rfl, rfl, rfl⟩

/-- The assignment has one entry for each vertex. -/
def AssignsVertices (s : Solver α) : Prop := s.partition.assignment.size = s.vertexCount

theorem AssignsVertices.of_reducedSolution {u : Unit} (hs : s.AssignsVertices)
    (h : (reducedSolution solve).Answers s u t) : t.AssignsVertices := by
  have hgraph := (sameSettings_of_reducedSolution h).graph
  rw [AssignsVertices, vertexCount, Partition.vertexCount, (reducedSolution_frame h).1, hgraph]
  exact hs

theorem AssignsVertices.of_merge {m : Int} (hs : s.AssignsVertices)
    (h : (merge (steps solve)).Answers s m t) : t.AssignsVertices := by
  obtain ⟨-, hsame | ⟨links, hrebuilt⟩⟩ := merge_partition h
  · rw [AssignsVertices, vertexCount, hsame]
    exact hs
  · rw [AssignsVertices, vertexCount, hrebuilt]
    exact Vec.size_tabulate _ _

theorem assignsVertices_of_start {u : Unit} (h : (start (steps solve)).Answers s u t) :
    t.AssignsVertices := by
  have hbegun : AssignsVertices { s with lastX := none, partition := components s.partition } :=
    Vec.size_tabulate _ _
  rcases start_answers h with ⟨-, c, s₁, hc, rfl⟩ | ⟨-, hsolved⟩
  · obtain ⟨value, -, -, rfl⟩ := constantSolution_answers hc
    change (wholeMedian _).2.AssignsVertices
    unfold wholeMedian
    split <;> exact hbegun
  · exact hbegun.of_reducedSolution hsolved

theorem assignsVertices_rebuild (s : Solver α) :
    AssignsVertices { s with partition := s.partition.rebuild.reduceGraph } :=
  Vec.size_tabulate _ _

/-- Every head of the loop follows a rebuilding. -/
theorem LoopHead.assignsVertices {left done : Nat} {e : Option α}
    (h : LoopHead (steps solve) r s left done e t) : t.AssignsVertices := by
  cases h with
  | first hstarted hrecorded =>
      have hone := assignsVertices_of_start hstarted
      rw [recordRound_answers objective_answers hrecorded]
      exact hone
  | next _ _ _ _ _ hfinished =>
      obtain ⟨s₁, merged, s₂, s₃, hsolved, hmerged, hevolution, heq⟩ :=
        finishRound_answers objective_answers hfinished
      have htwo := ((assignsVertices_rebuild _).of_reducedSolution hsolved).of_merge hmerged
      obtain ⟨x, lastX, last, -, -, rfl⟩ := evolution_answers hevolution
      rw [heq]
      exact htwo

end Assignment

/-! ## Solved regions since the iterate was kept -/

section Comparable

variable {α : Type} [Scalar α] {s t : Solver α} {solve : InnerMethod α} {r : Recording}

/-- There are an iterate and a kept one, with values for all regions, and the kept assignment
divides no region that is believed to be solved. -/
structure IsComparable (s : Solver α) (x lastX : Vec α) (assignment : Array Nat) : Prop where
  consistent : s.partition.IsConsistent
  assigns : s.AssignsVertices
  iterate : s.x = some x
  size_iterate : x.size = s.partition.regionCount
  kept : s.lastX = some lastX
  keptAssignment : s.partition.lastAssignment = some assignment
  keptAssignment_lt : ∀ o ∈ assignment, o < lastX.size
  undivided : ∀ q < s.partition.regionCount, s.partition.isSaturated q = true →
    ∀ u ∈ s.partition.region q, ∀ v ∈ s.partition.region q,
      assignment.getD u 0 = assignment.getD v 0

omit [Scalar α] in
/-- What does not divide the regions before a merger does not divide those left solved by it. -/
theorem eq_of_openGroups_saturated {P : Partition α} (h : P.IsConsistent) {f : Nat → Nat}
    (hf : ∀ u < P.vertexCount, ∀ v < P.vertexCount, P.regionOf u = P.regionOf v → f u = f v)
    (links : List (Nat × Nat)) {q : Nat} (hq : q < (P.openGroups links).rebuild.regionCount)
    (hsaturated : (P.openGroups links).rebuild.isSaturated q = true) :
    ∀ u ∈ (P.openGroups links).rebuild.region q, ∀ v ∈ (P.openGroups links).rebuild.region q,
      f u = f v := by
  obtain ⟨o, ho, hsame, -⟩ := (h.toIsArranged.openGroups links).exists_region_eq h.mem_region
    (.inr (h.isFiner_openGroups links)) hq hsaturated
  intro u hu v hv
  rw [hsame] at hu hv
  obtain ⟨hult, huo⟩ := (h.mem_region o ho u).mp hu
  obtain ⟨hvlt, hvo⟩ := (h.mem_region o ho v).mp hv
  exact hf u hult v hvlt (huo.trans hvo.symm)

/-- The regions that follow a split lie in the regions of the assignment kept before. -/
theorem exists_kept_of_split {s₁ : Solver α} {n : Nat} (hs : s.IsSolved)
    (hassigns : s.AssignsVertices) (hkept : keepIterate.Answers s () s₁)
    (hsplit : split.Answers s₁ n t) : t.partition.IsArranged ∧ ∃ lastX assignment,
      t.lastX = some lastX ∧ t.partition.lastAssignment = some assignment ∧
      (∀ o ∈ assignment, o < lastX.size) ∧
      ∀ u < t.vertexCount, ∀ v < t.vertexCount,
        t.partition.rebuild.regionOf u = t.partition.rebuild.regionOf v →
          assignment.getD u 0 = assignment.getD v 0 := by
  have hconsistent := (isSolved_of_keepIterate hs hkept).partition.toIsConsistent
  obtain ⟨lastX, hx, heq⟩ := keepIterate_answers hkept
  obtain ⟨cuts, slope, hmarked, -, -⟩ := split_marks hsplit
  have hpartition : t.partition = markRegions s₁.partition cuts := by rw [hmarked]
  have hassignment : s₁.partition.assignment = s.partition.assignment := by
    rw [heq]
    rfl
  refine ⟨isArranged_of_split hconsistent.toIsArranged hsplit, lastX, s₁.partition.assignment, ?_,
    ?_, ?_, isFiner_of_split hconsistent hsplit⟩
  · rw [hmarked, heq]
  · rw [hpartition, markRegions_eq, heq]
    rfl
  · obtain ⟨x, hx', hsize⟩ := hs.iterate
    obtain rfl := Option.some.inj (hx.symm.trans hx')
    rw [hassignment, hsize]
    exact hs.partition.assignment_lt hassigns

/-- The solution and the merger after a split leave an iterate that can be compared. -/
theorem isComparable_of_merge {s₁ : Solver α} {m : Int} (harranged : s.partition.IsArranged)
    (hsolve : AnswersInSize solve s.inner) {lastX : Vec α} {assignment : Array Nat}
    (hlastX : s.lastX = some lastX) (hassignment : s.partition.lastAssignment = some assignment)
    (hlt : ∀ o ∈ assignment, o < lastX.size)
    (hfiner : ∀ u < s.vertexCount, ∀ v < s.vertexCount,
      s.partition.rebuild.regionOf u = s.partition.rebuild.regionOf v →
        assignment.getD u 0 = assignment.getD v 0)
    (hsolved : (reducedSolution solve).Answers
      { s with partition := s.partition.rebuild.reduceGraph } () s₁)
    (hmerged : (merge (steps solve)).Answers s₁ m t) :
    ∃ x, t.IsComparable x lastX assignment := by
  obtain ⟨hregions, hlastX₁, hassignment₁⟩ := reducedSolution_frame hsolved
  have hone : s₁.IsSolved := isSolved_of_reducedSolution
    (s := { s with partition := s.partition.rebuild.reduceGraph }) hsolve
    harranged.isCoherent_rebuild hsolved
  have hgraph : s₁.partition.graph = s.partition.graph :=
    (sameSettings_of_reducedSolution hsolved).graph
  have hfiner₁ : ∀ u < s₁.partition.vertexCount, ∀ v < s₁.partition.vertexCount,
      s₁.partition.regionOf u = s₁.partition.regionOf v →
        assignment.getD u 0 = assignment.getD v 0 := by
    rw [Partition.vertexCount, hgraph]
    intro u hu v hv huv
    rw [regionOf, regionOf, hregions] at huv
    exact hfiner u hu v hv huv
  have htwo := isSolved_of_merge hone hmerged
  obtain ⟨x, hx, hsize⟩ := htwo.iterate
  obtain ⟨hlastX₂, hmerge⟩ := merge_partition hmerged
  refine ⟨x, htwo.partition.toIsConsistent,
    ((assignsVertices_rebuild s).of_reducedSolution hsolved).of_merge hmerged, hx, hsize,
    hlastX₂.trans (hlastX₁.trans hlastX), ?_, hlt, ?_⟩
  · rcases hmerge with hsame | ⟨links, hrebuilt⟩
    · rw [hsame]
      exact hassignment₁.trans hassignment
    · rw [hrebuilt]
      exact hassignment₁.trans hassignment
  · rcases hmerge with hsame | ⟨links, hrebuilt⟩
    · rw [hsame]
      intro q hq _ u hu v hv
      obtain ⟨hult, huq⟩ := (hone.partition.mem_region q hq u).mp hu
      obtain ⟨hvlt, hvq⟩ := (hone.partition.mem_region q hq v).mp hv
      exact hfiner₁ u hult v hvlt (huq.trans hvq.symm)
    · rw [hrebuilt]
      exact fun q => eq_of_openGroups_saturated hone.partition.toIsConsistent hfiner₁ links

theorem SplitsTo.sameSettings (h : SplitsTo (steps solve) r s t) : SameSettings s t := by
  obtain ⟨hhead, -, hkept, hsplit, -⟩ := h
  exact (hhead.sameSettings.trans (sameSettings_of_keepIterate hkept)).trans
    (sameSettings_of_split hsplit)

theorem SplitsTo.isArranged (hs : s.partition.IsArranged) (hsolve : AnswersInSize solve s.inner)
    (h : SplitsTo (steps solve) r s t) : t.partition.IsArranged := by
  obtain ⟨hhead, -, hkept, hsplit, -⟩ := h
  exact isArranged_of_split
    (isSolved_of_keepIterate (hhead.isSolved hsolve hs) hkept).partition.toIsArranged hsplit

theorem SolvesAt.sameSettings (h : SolvesAt (steps solve) r s t) : SameSettings s t := by
  cases h with
  | start _ => constructor <;> rfl
  | round hsplits =>
      apply hsplits.sameSettings.trans
      constructor <;> rfl

theorem SolvesAt.isCoherent (hs : s.partition.IsArranged) (hsolve : AnswersInSize solve s.inner)
    (h : SolvesAt (steps solve) r s t) : t.partition.IsCoherent := by
  cases h with
  | start _ => exact isCoherent_components hs
  | round hsplits => exact (hsplits.isArranged hs hsolve).isCoherent_rebuild

theorem SplitsAt.sameSettings (h : SplitsAt (steps solve) r s t) : SameSettings s t := by
  obtain ⟨hhead, -, hkept⟩ := h
  exact hhead.sameSettings.trans (sameSettings_of_keepIterate hkept)

theorem SplitsAt.isSolved (hs : s.partition.IsArranged) (hsolve : AnswersInSize solve s.inner)
    (h : SplitsAt (steps solve) r s t) : t.IsSolved := by
  obtain ⟨hhead, -, hkept⟩ := h
  exact isSolved_of_keepIterate (hhead.isSolved hsolve hs) hkept

theorem SplitsAt.assignsVertices (h : SplitsAt (steps solve) r s t) : t.AssignsVertices := by
  obtain ⟨hhead, -, hkept⟩ := h
  obtain ⟨x, -, rfl⟩ := keepIterate_answers hkept
  exact hhead.assignsVertices

theorem RecordsAt.sameSettings (h : RecordsAt (steps solve) r s t) : SameSettings s t := by
  cases h with
  | start hstarted =>
      have hempty : SameSettings s { s with history := .empty } := by constructor <;> rfl
      exact hempty.trans (sameSettings_of_start hstarted)
  | round hcompared hchange =>
      obtain ⟨hsplits, hsolved, hmerged⟩ := hcompared
      exact (((SolvesAt.round hsplits).sameSettings.trans
        (sameSettings_of_reducedSolution hsolved)).trans (sameSettings_of_merge hmerged)).trans
        (sameSettings_of_evolution hchange)

theorem RecordsAt.isSolved (hs : s.partition.IsArranged) (hsolve : AnswersInSize solve s.inner)
    (h : RecordsAt (steps solve) r s t) : t.IsSolved := by
  cases h with
  | start hstarted =>
      exact isSolved_of_start (s := { s with history := .empty }) hsolve hs hstarted
  | round hcompared hchange =>
      obtain ⟨hsplits, hsolved, hmerged⟩ := hcompared
      have hround := SolvesAt.round hsplits
      have hone := isSolved_of_reducedSolution (hround.sameSettings.inner ▸ hsolve)
        (hround.isCoherent hs hsolve) hsolved
      exact isSolved_of_evolution (isSolved_of_merge hone hmerged) hchange

/-- At every comparison of a run the solved regions lie in regions of the kept assignment. -/
theorem ComparesAt.exists_isComparable (hs : s.partition.IsArranged)
    (hsolve : AnswersInSize solve s.inner) (h : ComparesAt (steps solve) r s t) :
    ∃ x lastX assignment, t.IsComparable x lastX assignment := by
  obtain ⟨hsplits, hsolved, hmerged⟩ := h
  have hinner := hsplits.sameSettings.inner
  obtain ⟨hhead, -, hkept, hsplit, -⟩ := hsplits
  obtain ⟨harranged, lastX, assignment, hlastX, hassignment, hlt, hfiner⟩ :=
    exists_kept_of_split (hhead.isSolved hsolve hs) hhead.assignsVertices hkept hsplit
  obtain ⟨x, hcomparable⟩ := isComparable_of_merge harranged (hinner ▸ hsolve) hlastX hassignment
    hlt hfiner hsolved hmerged
  exact ⟨x, lastX, assignment, hcomparable⟩

end Comparable

/-! ## The distance of two iterates -/

section Distance

variable {K : Type} [ExactField K] {P : Partition K} {x last : Vec K}

theorem mem_solvedRegions {α : Type} {P : Partition α} {q : Nat} :
    q ∈ solvedRegions P ↔ q < P.regionCount ∧ P.isSaturated q = true := by
  simp [solvedRegions]

theorem toFinset_solvedRegions {α : Type} (P : Partition α) : (solvedRegions P).toFinset =
    {q ∈ Finset.range P.regionCount | P.isSaturated q = true} := by
  ext q
  rw [List.mem_toFinset, mem_solvedRegions, Finset.mem_filter, Finset.mem_range]

/-- Where the kept values do not differ on a solved region, its first vertex speaks for all. -/
theorem sum_solvedRegions (h : P.IsConsistent)
    (hsolved : ∀ q < P.regionCount, P.isSaturated q = true → ∀ v ∈ P.region q,
      Vec.entry last v = Vec.entry last (P.representative q)) :
    ∑ q ∈ (solvedRegions P).toFinset,
        regionChange P x last q * regionChange P x last q * P.sizeOf q =
      ∑ v ∈ Finset.range P.vertexCount, if P.isSaturated (P.regionOf v) = true then
        (Vec.entry x (P.regionOf v) - Vec.entry last v) *
          (Vec.entry x (P.regionOf v) - Vec.entry last v) else 0 := by
  rw [toFinset_solvedRegions, Finset.sum_filter, ← h.sum_members h.isIndexed]
  apply Finset.sum_congr rfl
  intro q hq
  have hlt := Finset.mem_range.mp hq
  split
  next hsaturated =>
    have hsame : ∀ v ∈ P.members q, (if P.isSaturated (P.regionOf v) = true then
        (Vec.entry x (P.regionOf v) - Vec.entry last v) *
          (Vec.entry x (P.regionOf v) - Vec.entry last v) else 0) =
        regionChange P x last q * regionChange P x last q := by
      intro v hv
      rw [(mem_members.mp hv).2, if_pos hsaturated,
        hsolved q hlt hsaturated v ((h.mem_region_iff hlt).mpr hv), regionChange, Scalar.abs_eq,
        abs_mul_abs_self]
    rw [Finset.sum_congr rfl hsame, Finset.sum_const, nsmul_eq_mul, h.sizeOf_eq hlt, mul_comm]
  next hopen =>
    refine (Finset.sum_eq_zero fun v hv => ?_).symm
    rw [(mem_members.mp hv).2, if_neg hopen]

theorem squaredChange_eq (h : P.IsConsistent)
    (hsolved : ∀ q < P.regionCount, P.isSaturated q = true → ∀ v ∈ P.region q,
      Vec.entry last v = Vec.entry last (P.representative q)) :
    squaredChange P x last = ∑ v ∈ Finset.range P.vertexCount,
      (Vec.entry x (P.regionOf v) - Vec.entry last v) *
        (Vec.entry x (P.regionOf v) - Vec.entry last v) := by
  have hnodup : (solvedRegions P).toArray.toList.Nodup := List.nodup_range.filter _
  have hfirst := sum_range_getD (solvedRegions P).toArray 0 hnodup fun q =>
    regionChange P x last q * regionChange P x last q * (P.sizeOf q : K)
  unfold squaredChange
  dsimp only
  rw [Vec.total_eq, Vec.total_eq]
  refine (congrArg (· + _) (hfirst.trans (sum_solvedRegions h hsolved))).trans ?_
  rw [← Finset.sum_add_distrib]
  apply Finset.sum_congr rfl
  intro v _
  by_cases hsaturated : P.isSaturated (P.regionOf v) = true <;> simp [hsaturated]

/-- Each region contributes the square of its value as often as it has vertices. -/
theorem total_sizeVec (h : P.IsConsistent) (x : Vec K) :
    Vec.total P.regionCount (fun q => Vec.entry x q * Vec.entry x q * Vec.entry P.sizeVec q) =
      Vec.dot (P.expand x) (P.expand x) := by
  rw [Vec.total_eq, Vec.dot_eq, size_expand, ← h.sum_members h.isIndexed]
  apply Finset.sum_congr rfl
  intro q hq
  have hlt := Finset.mem_range.mp hq
  have hsame : ∀ v ∈ P.members q, Vec.entry (P.expand x) v * Vec.entry (P.expand x) v =
      Vec.entry x q * Vec.entry x q := by
    intro v hv
    obtain ⟨hvlt, rfl⟩ := mem_members.mp hv
    rw [P.entry_expand x hvlt]
  rw [Finset.sum_congr rfl hsame, Finset.sum_const, nsmul_eq_mul, sizeVec, Vec.entry_tabulate,
    if_pos hlt, h.sizeOf_eq hlt, mul_comm]

end Distance

/-! ## Comparisons -/

section Comparison

variable {K : Type} [ExactField K] {s t : Solver K} {solve : InnerMethod K} {r : Recording}
  {x lastX : Vec K} {assignment : Array Nat}

/-- The kept iterate at each vertex. -/
def keptValues (s : Solver K) (lastX : Vec K) (assignment : Array Nat) : Vec K :=
  Vec.tabulate s.vertexCount fun v => Vec.entry lastX (assignment.getD v 0)

/-- How far the iterate is from the kept one at each vertex. -/
def valueChange (s : Solver K) (x lastX : Vec K) (assignment : Array Nat) : Vec K :=
  Vec.tabulate s.vertexCount fun v =>
    Vec.entry (s.partition.expand x) v - Vec.entry (s.keptValues lastX assignment) v

theorem entry_keptValues (s : Solver K) (lastX : Vec K) (assignment : Array Nat) {v : Nat}
    (hv : v < s.partition.vertexCount) : Vec.entry (s.keptValues lastX assignment) v =
      Vec.entry lastX (assignment.getD v 0) :=
  (Vec.entry_tabulate _ _ _).trans (if_pos hv)

theorem IsComparable.keptValues_eq (h : s.IsComparable x lastX assignment) {q : Nat}
    (hq : q < s.partition.regionCount) (hsaturated : s.partition.isSaturated q = true) {v : Nat}
    (hv : v ∈ s.partition.region q) :
    Vec.entry (s.keptValues lastX assignment) v =
      Vec.entry (s.keptValues lastX assignment) (s.partition.representative q) := by
  have hrep := h.consistent.representative_mem hq
  rw [entry_keptValues s _ _ ((h.consistent.mem_region q hq v).mp hv).1,
    entry_keptValues s _ _ ((h.consistent.mem_region q hq _).mp hrep).1,
    h.undivided q hq hsaturated v hv _ hrep]

theorem IsComparable.squaredChange_eq (h : s.IsComparable x lastX assignment) :
    squaredChange s.partition x (s.keptValues lastX assignment) =
      Vec.dot (s.valueChange x lastX assignment) (s.valueChange x lastX assignment) := by
  rw [Solver.squaredChange_eq h.consistent fun q hq hsaturated v => h.keptValues_eq hq hsaturated,
    Vec.dot_eq, valueChange, Vec.size_tabulate]
  apply Finset.sum_congr rfl
  intro v hv
  have hlt : v < s.vertexCount := Finset.mem_range.mp hv
  rw [Vec.entry_tabulate, if_pos hlt, s.partition.entry_expand x hlt]

/-- The comparison answers the relative distance over the vertices. -/
theorem IsComparable.evolution_answers (h : s.IsComparable x lastX assignment) :
    evolution.Answers s
      (if Scalar.epsilon < Vec.norm (s.partition.expand x) then
        Vec.norm (s.valueChange x lastX assignment) / Vec.norm (s.partition.expand x)
      else Vec.norm (s.valueChange x lastX assignment) / Scalar.epsilon)
      { s with partition := { s.partition with
        saturated := (movedRegions s.partition x (s.keptValues lastX assignment) s.tolerance).foldl
          (fun f q => f.setIfInBounds q false) s.partition.saturated } } := by
  have hlast : s.lastValues? lastX assignment = .ok (s.keptValues lastX assignment) := by
    have hall : assignment.all (· < lastX.size) = true :=
      Array.all_eq_true'.mpr fun o ho => decide_eq_true (h.keptAssignment_lt o ho)
    rw [lastValues?, if_pos hall]
    rfl
  have hexpand := expand?_eq_ok h.size_iterate (h.consistent.assignment_lt h.assigns)
  have hcommon : commonLength? x.size s.partition.regionCount = some s.partition.regionCount := by
    rw [commonLength?, if_pos h.size_iterate, h.size_iterate]
  have hsizes : s.partition.sizeVec.size = s.partition.regionCount := Vec.size_tabulate _ _
  unfold evolution modifyPartition
  rw [answers_get_bind, answers_lift_bind]
  refine ⟨lastX, require_eq_ok.mpr h.kept, ?_⟩
  simp only [h.keptAssignment]
  rw [answers_lift_bind]
  refine ⟨_, hlast, ?_⟩
  rw [answers_lift_bind]
  refine ⟨x, require_eq_ok.mpr h.iterate, ?_⟩
  rw [answers_test, answers_test, answers_modify_bind, answers_lift_bind]
  refine ⟨?_, ?_, _, hexpand, ?_⟩
  · rw [List.any_eq_true]
    rintro ⟨q, hq, hshort⟩
    have hlt := (mem_solvedRegions.mp hq).1
    rw [← h.size_iterate] at hlt
    exact Nat.not_le.mpr hlt (of_decide_eq_true hshort)
  · exact Bool.false_ne_true
  · rw [answers_lift_bind]
    refine ⟨_, require_eq_ok.mpr hcommon, ?_⟩
    rw [stretch_of_size_eq h.size_iterate, stretch_of_size_eq hsizes, h.squaredChange_eq,
      total_sizeVec h.consistent]
    refine answers_pure.mpr ⟨rfl, ?_⟩
    rw [← h.keptAssignment]

theorem mem_movedRegions {tolerance : K} {last : Vec K} {P : Partition K} {q : Nat} :
    q ∈ movedRegions P x last tolerance ↔ q < P.regionCount ∧ P.isSaturated q = true ∧
      |Vec.entry x q| * tolerance < |Vec.entry x q - Vec.entry last (P.representative q)| := by
  rw [movedRegions, List.mem_filter, mem_solvedRegions, decide_eq_true_eq, Scalar.abs_eq,
    regionChange, Scalar.abs_eq, and_assoc]

/-- The region of a vertex is still marked after the comparison if it was and the vertex did not
move by more than the tolerance. -/
theorem IsComparable.getD_marks_eq_true_iff (h : s.IsComparable x lastX assignment) {v : Nat}
    (hv : v < s.partition.vertexCount) :
    ((movedRegions s.partition x (s.keptValues lastX assignment) s.tolerance).foldl
        (fun f q => f.setIfInBounds q false) s.partition.saturated).getD (s.partition.regionOf v)
        false = true ↔
      s.partition.isSaturated (s.partition.regionOf v) = true ∧
        |Vec.entry x (s.partition.regionOf v) - Vec.entry (s.keptValues lastX assignment) v| ≤
          |Vec.entry x (s.partition.regionOf v)| * s.tolerance := by
  have hr := h.consistent.regionOf_lt hv
  rw [getD_foldl_setIfInBounds_false, Bool.and_eq_true]
  change s.partition.isSaturated _ = true ∧ _ ↔ _
  apply and_congr_right
  intro hsaturated
  rw [h.keptValues_eq hr hsaturated ((h.consistent.mem_region _ hr v).mpr ⟨hv, rfl⟩),
    Bool.not_eq_true', List.contains_eq_mem, decide_eq_false_iff_not, mem_movedRegions]
  simp only [hr, hsaturated, true_and, not_lt]

/-- The evolution of a run compares the iterate with the kept one over all vertices, though it looks
at solved regions through their first vertex only. It answers the distance relative to the iterate,
or to the spacing of numbers if the iterate is smaller, and of the marks it takes away those of the
solved regions that moved. -/
theorem evolution_of_comparesAt (hs : s.partition.IsArranged) (hsolve : AnswersInSize solve s.inner)
    (h : ComparesAt (steps solve) r s t) :
    ∃ x lastX assignment u, t.x = some x ∧ t.lastX = some lastX ∧
      t.partition.lastAssignment = some assignment ∧
      let y := t.partition.expand x
      let z := t.keptValues lastX assignment
      let d := t.valueChange x lastX assignment
      evolution.Answers t (if Scalar.epsilon < Vec.norm y then Vec.norm d / Vec.norm y
        else Vec.norm d / Scalar.epsilon) u ∧
      u = { t with partition := { t.partition with saturated := u.partition.saturated } } ∧
      ∀ q < t.partition.regionCount, ∀ v ∈ t.partition.region q,
        (u.partition.isSaturated q = true ↔ t.partition.isSaturated q = true ∧
          |Vec.entry y v - Vec.entry z v| ≤ t.tolerance * |Vec.entry x q|) := by
  obtain ⟨x, lastX, assignment, hcomparable⟩ := h.exists_isComparable hs hsolve
  refine ⟨x, lastX, assignment, _, hcomparable.iterate, hcomparable.kept,
    hcomparable.keptAssignment, hcomparable.evolution_answers, rfl, fun q hq v hv => ?_⟩
  obtain ⟨hlt, rfl⟩ := (hcomparable.consistent.mem_region q hq v).mp hv
  rw [t.partition.entry_expand x hlt, mul_comm t.tolerance]
  exact hcomparable.getD_marks_eq_true_iff hlt

/-- Two pairs of vertices, the first observed apart, and a term that draws the second along with it;
one iteration for each solution. -/
def coupledPairs : Solver ℚ :=
  { ofPartition (.whole ⟨#[0, 1, 1, 2, 2], #[0, 2], #[1, 3]⟩ ⟨some #[1, 100], 1⟩) with
    quadratic := .gram ⟨4, 4, #[#[2, 0, 0, 0], #[0, 2, 1, 0], #[0, 1, 2, 0], #[0, 0, 0, 2]]⟩
      (some #[0, 20, 6, 10])
    inner := { defaultInner with maxIterations := 1 } }

/-- The second pair is solved when the first is divided, and moves with it. -/
theorem evolution_of_comparesAt_coupledPairs : coupledPairs.partition.IsArranged ∧
    AnswersInSize innerMethod coupledPairs.inner ∧
    ∃ t u, ComparesAt standardSteps ⟨false, false⟩ coupledPairs t ∧
      t.partition.region 2 = [2, 3] ∧ t.partition.isSaturated 2 = true ∧
      evolution.Answers t (1672 / 2975) u ∧ u.partition.isSaturated 2 = false := by
  have hpairs : Partition.ofIndex? #[0, 1, 1, 2, 2] #[1, 3] (some #[1, (100 : ℚ)]) 1 =
      .ok (.whole ⟨#[0, 1, 1, 2, 2], #[0, 2], #[1, 3]⟩ ⟨some #[1, 100], 1⟩) := by
    with_unfolding_all rfl
  have harranged : coupledPairs.partition.IsArranged := isArranged_of_ofIndex? hpairs
  have hsize : AnswersInSize innerMethod coupledPairs.inner := answersInSize_innerMethod rfl
  have hcompares : ComparesAt standardSteps ⟨false, false⟩ coupledPairs _ :=
    .intro (.of_start (answers_of_toOption (by decide +kernel)) (by decide +kernel)
      (by decide +kernel) (answers_of_toOption (by decide +kernel))
      (answers_of_toOption (by decide +kernel)) Nat.one_ne_zero)
      (answers_of_toOption (by decide +kernel))
      (answers_of_toOption (by decide +kernel : _ = some (0 : Int)))
  obtain ⟨x, lastX, assignment, u, hx, hlastX, hassignment, hanswers, -, hmarks⟩ :=
    evolution_of_comparesAt harranged hsize hcompares
  obtain rfl : x = #[1 / 2, 503 / 75, 372 / 125] :=
    Option.some.inj (hx.symm.trans (by decide +kernel))
  obtain rfl : lastX = #[104 / 25, 76 / 25] :=
    Option.some.inj (hlastX.symm.trans (by decide +kernel))
  obtain rfl : assignment = #[0, 0, 1, 1] :=
    Option.some.inj (hassignment.symm.trans (by decide +kernel))
  refine ⟨harranged, hsize, _, u, hcompares, by decide +kernel, by decide +kernel, ?_, ?_⟩
  · convert hanswers using 1
    decide +kernel
  · rw [Bool.eq_false_iff]
    intro hsaturated
    have hmoved := ((hmarks 2 (by decide +kernel) 2 (by decide +kernel)).mp hsaturated).2
    exact absurd hmoved (by decide +kernel)

end Comparison

end TotalVariation.Solver
