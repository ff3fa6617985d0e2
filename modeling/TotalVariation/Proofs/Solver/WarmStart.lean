import Mathlib
import TotalVariation.Proofs.Solver.Evolution
import TotalVariation.Proofs.Solver.MedianCache
import TotalVariation.Proofs.Solver.Restriction

/-! # Where a solution over the regions starts from

The method for the problem over the regions starts from the kept iterate, read at the first vertex
of each region. A split only divides regions, so each region lies in one region of the kept
assignment, and nothing is lost: at the vertices the start is the iterate that was kept, in whatever
order the medians leave the vertices of a region.
-/

namespace TotalVariation.Solver

open Step TotalVariation.Partition

variable {α : Type} [Scalar α] {s t u : Solver α} {x : Vec α} {assignment : Array Nat}

/-- A kept iterate at the first vertex of each region. -/
def firstValues (s : Solver α) (x : Vec α) (assignment : Array Nat) : Vec α :=
  Vec.tabulate s.partition.regionCount fun r =>
    Vec.entry x (assignment.getD (s.partition.representative r) 0)

/-- With a value for each vertex, the kept iterate is read at the first vertices. -/
theorem warmStart?_eq_firstValues (hP : s.partition.IsConsistent) (hlastX : s.lastX = some x)
    (hassignment : s.partition.lastAssignment = some assignment)
    (hlt : ∀ v < s.vertexCount, assignment.getD v 0 < x.size) :
    s.warmStart? = .ok (some (s.firstValues x assignment)) := by
  have hinside : ¬((List.range s.partition.regionCount).any fun r =>
      decide (x.size ≤ assignment.getD (s.partition.representative r) 0)) = true := by
    rw [List.any_eq_true]
    rintro ⟨r, hr, hshort⟩
    rw [List.mem_range] at hr
    exact absurd (of_decide_eq_true hshort)
      (not_le.mpr (hlt _ (hP.regionOf_representative hr).1))
  simp only [warmStart?, hlastX, hassignment]
  rw [if_neg hinside]
  rfl

/-- An iterate is kept with values for all vertices, and the kept assignment divides no region. -/
structure KeepsUndivided (s : Solver α) (x : Vec α) (assignment : Array Nat) : Prop where
  consistent : s.partition.IsConsistent
  kept : s.lastX = some x
  keptAssignment : s.partition.lastAssignment = some assignment
  keptAssignment_lt : ∀ v < s.vertexCount, assignment.getD v 0 < x.size
  undivided : ∀ u < s.vertexCount, ∀ v < s.vertexCount,
    s.partition.regionOf u = s.partition.regionOf v → assignment.getD u 0 = assignment.getD v 0

namespace KeepsUndivided

theorem warmStart?_eq (h : s.KeepsUndivided x assignment) :
    s.warmStart? = .ok (some (s.firstValues x assignment)) :=
  warmStart?_eq_firstValues h.consistent h.kept h.keptAssignment h.keptAssignment_lt

theorem entry_firstValues (h : s.KeepsUndivided x assignment) {v : Nat} (hv : v < s.vertexCount)
    (hr : s.partition.regionOf v < s.partition.regionCount) :
    Vec.entry (s.firstValues x assignment) (s.partition.regionOf v) =
      Vec.entry x (assignment.getD v 0) := by
  obtain ⟨hlt, hregion⟩ := h.consistent.regionOf_representative hr
  rw [firstValues, Vec.entry_tabulate, if_pos hr, h.undivided _ hlt v hv hregion]

/-- On the vertices the values at the first vertices are the kept iterate. -/
theorem expand_firstValues (h : s.KeepsUndivided x assignment) :
    s.partition.expand (s.firstValues x assignment) =
      Vec.tabulate s.vertexCount fun v => Vec.entry x (assignment.getD v 0) := by
  refine Vec.ext_entry (by simp [expand, vertexCount]) fun v hv => ?_
  have hv' : v < s.vertexCount := by simpa [expand, vertexCount] using hv
  rw [s.partition.entry_expand _ hv', Vec.entry_tabulate, if_pos hv',
    h.entry_firstValues hv' (h.consistent.regionOf_lt hv')]

/-- The medians change the first vertices of the regions only. -/
theorem sorted (h : s.KeepsUndivided x assignment) : s.sorted.KeepsUndivided x assignment := by
  obtain ⟨hassignment, hactive, -, -, hperm⟩ := s.sorted_frame
  have hconsistent : s.sorted.partition.IsConsistent :=
    h.consistent.of_perm s.sameSettings_sorted.graph hactive hassignment hperm
  rcases s.sorted_cases with hsorted | ⟨targets, -, hsorted⟩
  · rwa [hsorted]
  · rw [hsorted] at hconsistent ⊢
    exact ⟨hconsistent, h.kept, h.keptAssignment, h.keptAssignment_lt, h.undivided⟩

theorem firstValues_sorted (h : s.KeepsUndivided x assignment) :
    s.sorted.firstValues x assignment = s.firstValues x assignment := by
  obtain ⟨hassignment, -, -, -, hperm⟩ := s.sorted_frame
  have hcount : s.sorted.partition.regionCount = s.partition.regionCount := hperm.length_eq
  refine Vec.ext_entry (by simp [firstValues, hcount]) fun r hr => ?_
  have hr' : r < s.partition.regionCount := by simpa [firstValues, hcount] using hr
  -- the first vertex of a region has the same value in both orders
  obtain ⟨hlt, hregion⟩ := h.consistent.regionOf_representative hr'
  have hregion' : s.sorted.partition.regionOf (s.partition.representative r) = r := by
    rw [regionOf, hassignment]
    exact hregion
  have hlt' : s.partition.representative r < s.sorted.vertexCount := by
    rw [vertexCount, Partition.vertexCount, s.sameSettings_sorted.graph]
    exact hlt
  have hvalue := h.entry_firstValues hlt (hregion.symm ▸ hr')
  have hvalue' := h.sorted.entry_firstValues hlt' (hregion'.symm ▸ hcount.symm ▸ hr')
  rw [hregion] at hvalue
  rw [hregion'] at hvalue'
  exact hvalue'.trans hvalue.symm

end KeepsUndivided

/-! ## The rounds of a run -/

variable {solve : InnerMethod α} {r : Recording}

/-- After the split of a round the regions that are rebuilt lie in the regions before it. -/
theorem LoopHead.keepsUndivided (hs : s.partition.IsArranged) (hsolve : AnswersInSize solve s.inner)
    {left done activated : Nat} {e : Option α} {s₁ : Solver α}
    (hhead : LoopHead (steps solve) r s left done e t) (hkept : keepIterate.Answers t () s₁)
    (hsplit : split.Answers s₁ activated u) :
    ∃ x, t.x = some x ∧ u.partition.graph = t.partition.graph ∧
      KeepsUndivided { u with partition := u.partition.rebuild.reduceGraph } x
        t.partition.assignment := by
  have hsolved := hhead.isSolved hsolve hs
  obtain ⟨x, hx, heq⟩ := keepIterate_answers hkept
  obtain ⟨cuts, slope, hmarked, -, -⟩ := split_marks hsplit
  have hgraph : u.partition.graph = t.partition.graph :=
    ((sameSettings_of_keepIterate hkept).trans (sameSettings_of_split hsplit)).graph
  have hlastX : u.lastX = some x := by rw [hmarked, heq]
  have hassignment : u.partition.lastAssignment = some t.partition.assignment := by
    rw [hmarked, heq]
    dsimp only
    rw [markRegions_eq]
    rfl
  obtain ⟨harranged, x', assignment, hx', hassignment', hlt, hfiner⟩ :=
    exists_kept_of_split hsolved hhead.assignsVertices hkept hsplit
  obtain rfl := Option.some.inj (hlastX.symm.trans hx')
  obtain rfl := Option.some.inj (hassignment.symm.trans hassignment')
  refine ⟨x, hx, hgraph, harranged.isCoherent_rebuild.toIsConsistent, hlastX, hassignment, ?_,
    hfiner⟩
  intro v hv
  have hv' : v < t.partition.assignment.size := by
    rw [hhead.assignsVertices, vertexCount, Partition.vertexCount, ← hgraph]
    exact hv
  simpa [hv'] using hlt _ (Array.getElem_mem hv')

/-- After the split, the rebuilding and the new graph of the regions, in each round of a run, the
solution over the regions starts from one value for each region, also once the medians of the
targets have put the vertices of the regions in order. On the vertices these values are the iterate
with which the round began. -/
theorem LoopHead.expand_warmStart (hs : s.partition.IsArranged)
    (hsolve : AnswersInSize solve s.inner) {left done activated : Nat} {e : Option α}
    {s₁ : Solver α}
    (hhead : LoopHead (steps solve) r s left done e t) (hkept : keepIterate.Answers t () s₁)
    (hsplit : split.Answers s₁ activated u) :
    let w : Solver α := { u with partition := u.partition.rebuild.reduceGraph }
    ∃ x init, t.x = some x ∧ w.lastX = some x ∧
      w.partition.lastAssignment = some t.partition.assignment ∧
      w.warmStart? = .ok (some init) ∧ w.sorted.warmStart? = .ok (some init) ∧
      init.size = w.partition.regionCount ∧
      w.partition.expand? init = .ok (t.partition.expand x) ∧
      ∀ v < w.vertexCount,
        Vec.entry (w.partition.expand init) v = Vec.entry x (t.partition.assignment.getD v 0) := by
  intro w
  obtain ⟨x, hx, hgraph, hkeeps⟩ := hhead.keepsUndivided hs hsolve hkept hsplit
  have hsize : (w.firstValues x t.partition.assignment).size = w.partition.regionCount :=
    Vec.size_tabulate _ _
  have hcovers : w.partition.covers (w.firstValues x t.partition.assignment).size = true := by
    rw [hsize, covers, Array.all_eq_true']
    intro o ho
    exact decide_eq_true
      (hkeeps.consistent.assignment_lt (assignsVertices_rebuild u) o ho)
  have hcount : w.vertexCount = t.partition.vertexCount := congrArg (·.first.size - 1) hgraph
  refine ⟨x, _, hx, hkeeps.kept, hkeeps.keptAssignment, hkeeps.warmStart?_eq,
    hkeeps.firstValues_sorted ▸ hkeeps.sorted.warmStart?_eq, hsize, ?_, fun v hv => ?_⟩
  · rw [expand?, if_pos hcovers, hkeeps.expand_firstValues, hcount]
    rfl
  · rw [hkeeps.expand_firstValues, Vec.entry_tabulate, if_pos hv]

/-- The two pairs at the beginning of the first round. -/
def twoPairsStarted : Solver ℚ := ((start standardSteps).run { twoPairs with history := .empty }).2

theorem twoPairsStarted_eq : twoPairsStarted.x = some #[5, 2] ∧
    twoPairsStarted.partition.expand #[5, 2] = #[5, 5, 2, 2] := by
  unfold twoPairsStarted start standardSteps steps reducedSolution regionTargets regionMedian
  rw [Median.select_eq_insertionSort (sortsTotally_of_exactField ℚ)]
  decide +kernel

/-- The first pair is divided, and the value of the second is read at its last vertex. -/
theorem expand_warmStart_twoPairs : twoPairs.partition.IsArranged ∧
    AnswersInSize innerMethod twoPairs.inner ∧
    ∃ left t s₁ u, LoopHead standardSteps ⟨false, false⟩ twoPairs left 0 none t ∧
      keepIterate.Answers t () s₁ ∧ split.Answers s₁ 1 u ∧ t.x = some #[5, 2] ∧
      let w : Solver ℚ := { u with partition := u.partition.rebuild.reduceGraph }
      w.partition.segment 2 = [3, 2] ∧
      ∃ init : Vec ℚ, w.sorted.warmStart? = .ok (some init) ∧ init.size = 3 ∧
        w.partition.expand? init = .ok #[5, 5, 2, 2] := by
  have hpairs : Partition.ofIndex? #[0, 1, 1, 2, 2] #[1, 3] (some #[1, (100 : ℚ)]) 1 =
      .ok twoPairs.partition := by
    with_unfolding_all rfl
  have harranged : twoPairs.partition.IsArranged := isArranged_of_ofIndex? hpairs
  have hsize : AnswersInSize innerMethod twoPairs.inner := answersInSize_innerMethod rfl
  have hhead : LoopHead standardSteps ⟨false, false⟩ twoPairs _ 0 none twoPairsStarted :=
    .first (answers_of_toOption (by decide +kernel)) (answers_pure.mpr ⟨rfl, rfl⟩)
  have hkept : keepIterate.Answers twoPairsStarted () (keepIterate.run twoPairsStarted).2 :=
    answers_of_toOption (by decide +kernel)
  obtain ⟨hone, hcount, hsegment, -⟩ := twoPairsRebuilt_eq
  have hsplit : split.Answers (keepIterate.run twoPairsStarted).2 1 twoPairsSplit.2 :=
    answers_of_toOption hone
  obtain ⟨x, init, hx, -, -, -, hinit, hinitSize, hexpand, -⟩ :=
    hhead.expand_warmStart harranged hsize hkept hsplit
  obtain rfl : x = #[5, 2] := Option.some.inj (hx.symm.trans twoPairsStarted_eq.1)
  rw [twoPairsStarted_eq.2] at hexpand
  exact ⟨harranged, hsize, _, _, _, _, hhead, hkept, hsplit, hx, hsegment, init, hinit,
    hinitSize.trans hcount, hexpand⟩

end TotalVariation.Solver
