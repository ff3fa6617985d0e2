import Mathlib
import TotalVariation.Proofs.Solver.Coherent
import TotalVariation.Proofs.Solver.Split

/-! # Splits and minimal points

A split that finds nothing certifies that the iterate is minimal, where no value common to a region
is better. At a minimal iterate nothing moves up; what may still be cut off is a part of a region
that moves down without a slope.
-/

namespace TotalVariation

variable {K : Type} [ExactField K]

namespace Solver

open Step

variable {s t : Solver K} {x slope : Vec K} {r : Nat}

/-! ## Nothing found -/

theorem nil_of_forall₂ {β γ ε : Type} {f : β → Except ε (List γ)} {units : List β}
    {found : List (List γ)} (h : List.Forall₂ (fun u c => f u = .ok c) units found)
    (hnil : ∀ cut ∈ units.zip found, cut.2 = []) : ∀ u ∈ units, f u = .ok [] := by
  induction h with
  | nil => simp
  | cons hhead _ ih =>
      rw [List.zip_cons_cons] at hnil
      intro u hu
      rcases List.mem_cons.mp hu with rfl | hu
      · exact hhead.trans (congrArg Except.ok (hnil _ List.mem_cons_self))
      · exact ih (fun cut hcut => hnil cut (List.mem_cons_of_mem _ hcut)) u hu

namespace IsReady

theorem mem_openRegions (h : s.IsReady x) {r : Nat} :
    r ∈ openRegions s.partition ↔ r < s.partition.regionCount := by
  rw [mem_openRegions_iff]
  exact ⟨And.left, fun hr => ⟨hr, h.unsaturated r hr⟩⟩

/-- A step that is constant on the regions comes from a step of the iterate. -/
theorem step_expand (h : s.IsReady x) {d c : Nat → K}
    (hd : ∀ v < s.partition.vertexCount, d v = c (s.partition.regionOf v)) :
    (s.partition.expand x).step d = s.partition.expand (x.step c) := by
  refine Array.ext ?_ fun v hv _ => ?_
  · rw [Vec.size_step, s.partition.size_expand, s.partition.size_expand]
  · rw [Vec.size_step, s.partition.size_expand] at hv
    have hr : s.partition.regionOf v < x.size := h.iterate_size ▸ h.consistent.regionOf_lt hv
    have hleft : Vec.entry ((s.partition.expand x).step d) v =
        Vec.entry (s.partition.expand (x.step c)) v := by
      rw [Vec.entry_step _ _ ((s.partition.size_expand x).symm ▸ hv), s.partition.entry_expand x hv,
        s.partition.entry_expand _ hv, Vec.entry_step x c hr, hd v hv]
    simpa [Vec.entry, hv] using hleft

/-- A minimal iterate over the regions has no negative slope along what is constant on them. -/
theorem slopeAlong_nonneg_of_regions (h : s.IsReady x)
    (hfeasible : s.problem.isFeasible (s.partition.expand x) = true)
    (hregions : ∀ z : Vec K, z.size = s.partition.regionCount →
      s.problem.isFeasible (s.partition.expand z) = true →
        s.problem.objective (s.partition.expand x) ≤ s.problem.objective (s.partition.expand z))
    {d c : Nat → K} (hd : ∀ v < s.partition.vertexCount, d v = c (s.partition.regionOf v))
    (hadmissible : s.problem.IsAdmissible (s.partition.expand x) d) :
    0 ≤ s.problem.slopeAlong (s.partition.expand x) d := by
  obtain ⟨ε, hε, hshort⟩ := hadmissible.onShortSteps_isFeasible h.size_expand hfeasible
  refine h.isConvex_problem.slopeAlong_nonneg h.size_expand ⟨ε, hε, fun t ht hle => ?_⟩
  have hstep : (s.partition.expand x).step (fun v => t * d v) =
      s.partition.expand (x.step fun r => t * c r) :=
    h.step_expand fun v hv => by rw [hd v hv]
  have hmoved : s.problem.isFeasible ((s.partition.expand x).step fun v => t * d v) = true :=
    hshort t ht hle
  change _ ≤ s.problem.objective ((s.partition.expand x).step fun v => t * d v)
  rw [hstep] at hmoved ⊢
  exact hregions _ ((Vec.size_step x _).trans h.iterate_size) hmoved

theorem ones_members_eq (s : Solver K) (r : Nat) : ∀ v < s.partition.vertexCount,
    (Partition.ones (s.partition.members r) v : K) =
      Partition.ones {r} (s.partition.regionOf v) := by
  intro v hv
  simp [Partition.ones, hv]

/-- If the iterate is minimal among the vectors that are constant on the regions and the split finds
no edge, it is minimal among all vectors. -/
theorem isMinimal_of_split (h : s.IsReady x)
    (hfeasible : s.problem.isFeasible (s.partition.expand x) = true)
    (hregions : ∀ z : Vec K, z.size = s.partition.regionCount →
      s.problem.isFeasible (s.partition.expand z) = true →
        s.problem.objective (s.partition.expand x) ≤ s.problem.objective (s.partition.expand z))
    (hsplit : split.Answers s 0 t) : s.problem.IsMinimal (s.partition.expand x) := by
  obtain ⟨slope, found, hslope, houtcomes, -, hcount⟩ := split_answers.mp hsplit
  have hnil := nil_of_forall₂ (mapM_eq_ok.mp houtcomes) (cutCount_eq_zero.mp hcount.symm)
  have hparts : ∀ r < s.partition.regionCount, _ := fun r hr =>
    h.toIsCuttable.parts_nonneg_of_splitRegion?_eq_nil hr (hnil r (h.mem_openRegions.mpr hr))
      (fun hfree => by
        rw [← h.slopeAlong_ones hslope]
        exact h.slopeAlong_nonneg_of_regions hfeasible hregions (ones_members_eq s r)
          (h.isAdmissible_ones hfree))
      (fun hfree => by
        rw [← h.slopeAlong_neg_ones hslope]
        refine h.slopeAlong_nonneg_of_regions hfeasible hregions
          (c := fun a => -Partition.ones {r} a) (fun v hv => ?_) (h.isAdmissible_neg_ones hfree)
        rw [ones_members_eq s r v hv])
  rw [h.isConvex_problem.isMinimal_iff h.size_expand hfeasible]
  intro d hd
  exact h.slopeAlong_nonneg hslope (fun r hr => (hparts r hr).1) (fun r hr => (hparts r hr).2) hd

end IsReady

/-- Three vertices in a row, the last in a region of its own. -/
def steppedPath : Solver ℚ :=
  { ofPartition (((Partition.whole ⟨#[0, 1, 2, 2], #[0, 1], #[1, 2]⟩ ⟨none, 1⟩).setActive [1]
      true).rebuild.reduceGraph) with
    quadratic := .identity 3 1 (some #[0, 0, 10])
    x := some #[1 / 2, 9] }

theorem isReady_steppedPath : steppedPath.IsReady #[1 / 2, 9] where
  consistent := by
    have hpath : Partition.ofIndex? #[0, 1, 2, 2] #[1, 2] none (1 : ℚ) =
        .ok (.whole ⟨#[0, 1, 2, 2], #[0, 1], #[1, 2]⟩ ⟨none, 1⟩) := by with_unfolding_all rfl
    exact ((Partition.isArranged_of_ofIndex? hpath).setActive [1] true).rebuild_reduceGraph
  assignment_lt := by decide +kernel
  saturated_size := by decide +kernel
  unsaturated := by decide +kernel
  iterate := rfl
  iterate_size := by decide +kernel
  distinct := by decide +kernel
  residual := by rintro A y ⟨⟩
  fits := ⟨rfl, by rintro l ⟨⟩; rfl⟩
  convex := zero_le_one
  edgeWeights_nonneg := fun _ _ => zero_le_one
  targetWeights_nonneg := by rintro w ⟨⟩

theorem objective_steppedPath (a b : ℚ) :
    steppedPath.problem.objective (steppedPath.partition.expand #[a, b]) =
      (a * a + a * a + b * b) / 2 - 10 * b + |a - b| := by
  have hproblem : steppedPath.problem = ⟨.identity 3 1 (some #[0, 0, 10]), #[(0, 1), (1, 2)],
      #[1, 1], none, #[0, 0, 0], #[none, none, none], #[none, none, none]⟩ := by
    with_unfolding_all rfl
  have hexpand : steppedPath.partition.expand #[a, b] = #[a, a, b] := by with_unfolding_all rfl
  rw [hexpand, hproblem, Problem.objective_eq _ rfl]
  simp [Finset.sum_range_succ, Quadratic.valueAt, Quadratic.diagonalValue, Quadratic.linearPart,
    Scalar.half_eq, Vec.total_eq, Vec.dot_eq, Vec.constant, Vec.entry, Problem.edgeFrom,
    Problem.edgeTo, Problem.penalty, Problem.targetWeightAt]

theorem isMinimal_of_split_steppedPath :
    ∃ t, split.Answers steppedPath 0 t ∧
      steppedPath.problem.IsMinimal (steppedPath.partition.expand #[1 / 2, 9]) := by
  have hsplit : split.Answers steppedPath 0 _ := answers_of_toOption (by decide +kernel)
  refine ⟨_, hsplit, isReady_steppedPath.isMinimal_of_split (by decide +kernel) ?_ hsplit⟩
  rintro ⟨values⟩ hsize -
  obtain ⟨a, b, rfl⟩ := List.length_eq_two.mp (hsize.trans (by decide +kernel))
  rw [objective_steppedPath, objective_steppedPath]
  have hvariation := neg_abs_le (a - b)
  have habs : |(1 / 2 - 9 : ℚ)| = 17 / 2 := by norm_num
  rw [habs]
  linarith [sq_nonneg (a - 1 / 2), sq_nonneg (b - 9)]

/-! ## Minimal iterates -/

/-- A part of a region that moves down without a slope leaves no rest: the whole region does. -/
def SinksWhole (s : Solver K) (x : Vec K) (r : Nat) : Prop :=
  ∀ U ⊆ s.partition.members r, U.Nonempty → (∀ v ∈ U, ¬s.AtLower x v) →
    s.problem.slopeAlong (s.partition.expand x) (fun v => -Partition.ones U v) = 0 →
      (∀ v ∈ s.partition.members r, ¬s.AtLower x v) ∧
        s.problem.slopeAlong (s.partition.expand x)
          (fun v => -Partition.ones (s.partition.members r) v) = 0

namespace IsReady

/-- At a minimal iterate no part of a region moves up or down with a negative slope. -/
theorem parts_nonneg_of_isMinimal (h : s.IsReady x) (hslope : s.gradient? = .ok slope)
    (hminimal : s.problem.IsMinimal (s.partition.expand x)) (r : Nat) :
    (∀ U ⊆ s.partition.members r, (∀ v ∈ U, ¬s.AtUpper x v) →
        0 ≤ s.partition.cutSlope (s.upwardCost x slope) (Partition.ones U)) ∧
      ∀ U ⊆ s.partition.members r, (∀ v ∈ U, ¬s.AtLower x v) →
        0 ≤ s.partition.cutSlope (s.downwardCost x slope) (Partition.ones U) := by
  have hdirection := (h.isConvex_problem.isMinimal_iff h.size_expand hminimal.feasible).mp hminimal
  constructor
  · intro U _ hfree
    rw [← h.slopeAlong_ones hslope]
    exact hdirection _ (h.isAdmissible_ones hfree)
  · intro U _ hfree
    rw [← h.slopeAlong_neg_ones hslope]
    exact hdirection _ (h.isAdmissible_neg_ones hfree)

/-- Where one cut is enough, moving a region down is the opposite of moving it up. -/
theorem sinksWhole_of_needsOneCut (h : s.IsReady x) (hslope : s.gradient? = .ok slope)
    (hminimal : s.problem.IsMinimal (s.partition.expand x)) (hone : s.needsOneCut = true)
    (r : Nat) : s.SinksWhole x r := by
  obtain ⟨hup, hdown⟩ := h.parts_nonneg_of_isMinimal hslope hminimal r
  have hnobound := not_at_bound_of_needsOneCut hone x
  have hfree : ∀ v ∈ s.partition.members r, ¬s.AtLower x v := fun v _ => (hnobound v).2.1
  intro V _ _ _ _
  refine ⟨hfree, ?_⟩
  rw [h.slopeAlong_neg_ones hslope]
  refine le_antisymm ?_ (hdown _ subset_rfl hfree)
  rw [h.toIsCuttable.cutSlope_downward_eq (hnobound 0).1 subset_rfl, Finset.sdiff_self,
    Partition.cutSlope_empty]
  linarith [hup _ subset_rfl fun v _ => (hnobound v).2.2]

/-- At a minimal iterate the largest of the cheapest parts leaves no edge exactly if no proper part
alone moves down without a slope. -/
theorem filter_leaves_eq_nil_iff (h : s.IsReady x) (hslope : s.gradient? = .ok slope)
    (hminimal : s.problem.IsMinimal (s.partition.expand x)) (hr : r < s.partition.regionCount)
    {D : Finset Nat} (hD : IsCheapest s.partition r (s.downwardCost x slope) (s.AtLower x) D)
    (hlargest : ∀ V, IsCheapest s.partition r (s.downwardCost x slope) (s.AtLower x) V → V ⊆ D) :
    (s.partition.regionEdges r).filter (s.partition.leaves D) = [] ↔ s.SinksWhole x r := by
  have hdown := (h.parts_nonneg_of_isMinimal hslope hminimal r).2
  obtain ⟨hsubset, hfree, hzero⟩ := (isCheapest_iff hdown).mp hD
  constructor
  · intro hnone V hV hnonempty hVfree hVzero
    rw [h.slopeAlong_neg_ones hslope] at hVzero ⊢
    have hVD := hlargest V ((isCheapest_iff hdown).mpr ⟨hV, hVfree, hVzero⟩)
    rcases h.consistent.eq_empty_or_eq_of_filter_eq_nil hr hsubset hnone with rfl | rfl
    · exact absurd (Finset.subset_empty.mp hVD) hnonempty.ne_empty
    · exact ⟨hfree, hzero⟩
  · intro hsinks
    -- A part that moves down without a slope brings the whole region, which then is the largest.
    refine (h.consistent.filter_leaves_eq_nil_iff hr hsubset).mpr ?_
    rcases D.eq_empty_or_nonempty with hnone | hnonempty
    · exact .inl hnone
    · rw [← h.slopeAlong_neg_ones hslope] at hzero
      obtain ⟨hall, hallzero⟩ := hsinks D hsubset hnonempty hfree hzero
      rw [h.slopeAlong_neg_ones hslope] at hallzero
      exact .inr (Finset.Subset.antisymm hsubset
        (hlargest _ ((isCheapest_iff hdown).mpr ⟨subset_rfl, hall, hallzero⟩)))

/-- At a minimal iterate nothing is cut upward, and downward a proper part is cut off exactly if it
moves down without a slope and the region does not. -/
theorem splitRegion?_of_isMinimal (h : s.IsReady x) (hslope : s.gradient? = .ok slope)
    (hminimal : s.problem.IsMinimal (s.partition.expand x)) (hr : r < s.partition.regionCount) :
    ∃ found, s.splitRegion? slope s.needsOneCut r = .ok found ∧
      (found = [] ↔ s.SinksWhole x r) := by
  by_cases hsmall : IsSmall s.partition r
  · refine ⟨[], splitRegion?_of_small _ hsmall, iff_of_true rfl ?_⟩
    intro U hU hnonempty hfree hzero
    rcases h.toIsCuttable.eq_empty_or_eq_of_small hr hsmall hU with rfl | rfl
    · exact absurd rfl hnonempty.ne_empty
    · exact ⟨hfree, hzero⟩
  · have hup := (h.parts_nonneg_of_isMinimal hslope hminimal r).1
    -- The upward cut finds the least of the cheapest parts, and the empty one is among them.
    obtain ⟨U, -, hleast, hcutUp⟩ := h.toIsCuttable.upward_cut hr slope
    have hempty : U = ∅ := Finset.subset_empty.mp (hleast ∅ ((isCheapest_iff hup).mpr
      ⟨Finset.empty_subset _, by simp, Partition.cutSlope_empty _ _⟩))
    have hnil : (s.partition.regionEdges r).filter (s.partition.leaves U) = [] := by
      rw [hempty, List.filter_eq_nil_iff]
      simp [Partition.leaves]
    rw [hnil] at hcutUp
    rw [h.toIsCuttable.splitRegion?_of_upward_nil _ hsmall hcutUp]
    cases hone : s.needsOneCut with
    | true =>
        exact ⟨[], rfl, iff_of_true rfl (h.sinksWhole_of_needsOneCut hslope hminimal hone r)⟩
    | false =>
        obtain ⟨D, hD, hlargest, hcutDown⟩ := h.toIsCuttable.downward_cut hr slope
        exact ⟨_, by rw [if_neg Bool.false_ne_true]; exact hcutDown,
          h.filter_leaves_eq_nil_iff hslope hminimal hr hD hlargest⟩

end IsReady

/-- Regions without edges to mark become solved, and no edge becomes a boundary. -/
theorem markRegions_nil {α : Type} (P : Partition α) (regions : List Nat) :
    markRegions P (regions.map fun r => (r, [])) =
      { P with saturated := regions.foldl (fun f r => f.setIfInBounds r true) P.saturated } := by
  induction regions generalizing P with
  | nil => rfl
  | cons r regions ih => exact ih _

namespace IsReady

/-- A split at a minimal iterate answers. It marks no edge and all regions as solved exactly if no
region has a proper part that alone moves down without a slope. -/
theorem split_of_isMinimal (h : s.IsReady x)
    (hminimal : s.problem.IsMinimal (s.partition.expand x)) :
    ∃ n t, split.Answers s n t ∧
      ((n = 0 ∧ (∀ e, t.partition.isActive e = s.partition.isActive e) ∧
          ∀ r < s.partition.regionCount, t.partition.isSaturated r = true) ↔
        ∀ r < s.partition.regionCount, s.SinksWhole x r) := by
  obtain ⟨slope, hslope, -⟩ := h.isParted.gradient?_eq_ok
  choose! found hfound hiff using fun r (hr : r < s.partition.regionCount) =>
    h.splitRegion?_of_isMinimal hslope hminimal hr
  have houtcomes : Workload.outcomes (s.splitRegion? slope s.needsOneCut)
      (openRegions s.partition) = .ok ((openRegions s.partition).map found) := by
    rw [Workload.outcomes, mapM_eq_ok, List.forall₂_map_right_iff, List.forall₂_same]
    exact fun r hr => hfound r (h.mem_openRegions.mp hr)
  refine ⟨_, _, split_answers.mpr ⟨slope, _, hslope, houtcomes, rfl, rfl⟩, ?_⟩
  rw [zip_map_self, cutCount_eq_zero]
  constructor
  · rintro ⟨hnil, -, -⟩ r hr
    exact (hiff r hr).mp (hnil (r, found r)
      (List.mem_map.mpr ⟨r, h.mem_openRegions.mpr hr, rfl⟩))
  · intro hsinks
    have hnil : ∀ r ∈ openRegions s.partition, found r = [] := fun r hr =>
      (hiff r (h.mem_openRegions.mp hr)).mpr (hsinks r (h.mem_openRegions.mp hr))
    have hcuts : (openRegions s.partition).map (fun r => (r, found r)) =
        (openRegions s.partition).map fun r => (r, []) :=
      List.map_congr_left fun r hr => by rw [hnil r hr]
    dsimp only
    rw [hcuts, markRegions_nil]
    refine ⟨?_, fun e => rfl, fun r hr => ?_⟩
    · intro cut hcut
      obtain ⟨r, -, rfl⟩ := List.mem_map.mp hcut
      rfl
    · have hmark := getD_foldl_setIfInBounds (openRegions s.partition) true false
        s.partition.saturated r
      rw [if_pos ⟨h.mem_openRegions.mpr hr, h.saturated_size.symm ▸ hr⟩] at hmark
      exact hmark

end IsReady

/-- The region of two vertices and the edge between them. -/
def pairRegion : Partition ℚ :=
  (Partition.whole ⟨#[0, 1, 1], #[0], #[1]⟩ ⟨none, 1⟩).rebuild.reduceGraph

/-- Two vertices at zero, the second held there by its target. -/
def heldPair (y : ℚ) : Solver ℚ :=
  { ofPartition pairRegion with
    quadratic := .identity 2 1 (some #[y, 0])
    targetWeights := ⟨some #[0, 2], 0⟩
    x := some #[0] }

theorem isReady_heldPair (y : ℚ) : (heldPair y).IsReady #[0] where
  consistent := by
    have hpair : Partition.ofIndex? #[0, 1, 1] #[1] none (1 : ℚ) =
        .ok (.whole ⟨#[0, 1, 1], #[0], #[1]⟩ ⟨none, 1⟩) := by with_unfolding_all rfl
    exact (Partition.isArranged_of_ofIndex? hpair).rebuild_reduceGraph
  assignment_lt := by
    change ∀ r ∈ pairRegion.assignment, r < pairRegion.regionCount
    decide +kernel
  saturated_size := by
    change pairRegion.saturated.size = pairRegion.regionCount
    decide +kernel
  unsaturated := by
    change ∀ r < pairRegion.regionCount, pairRegion.isSaturated r = false
    decide +kernel
  iterate := rfl
  iterate_size := by
    change 1 = pairRegion.regionCount
    decide +kernel
  distinct := by
    have hnone : ∀ e < pairRegion.edgeCount, pairRegion.isActive e = false := by decide +kernel
    intro e he hactive
    cases (hnone e he).symm.trans hactive
  residual := by rintro A y ⟨⟩
  fits := ⟨rfl, by rintro l ⟨⟩; rfl⟩
  convex := zero_le_one
  edgeWeights_nonneg := fun _ _ => zero_le_one
  targetWeights_nonneg := by
    rintro w ⟨⟩
    change ∀ v < 2, 0 ≤ Vec.entry #[(0 : ℚ), 2] v
    decide +kernel

theorem slopeAlong_heldPair (y : ℚ) (d : Nat → ℚ) :
    (heldPair y).problem.slopeAlong ((heldPair y).partition.expand #[0]) d =
      |d 0 - d 1| + 2 * |d 1| - y * d 0 := by
  have hproblem : (heldPair y).problem = ⟨.identity 2 1 (some #[y, 0]), #[(0, 1)], #[1],
      some #[0, 2], #[0, 0], #[none, none], #[none, none]⟩ := by with_unfolding_all rfl
  have hexpand : (heldPair y).partition.expand #[0] = #[0, 0] := by with_unfolding_all rfl
  rw [hexpand, hproblem, Problem.slopeAlong]
  simp [Finset.sum_range_succ, Quadratic.slopeAt, Quadratic.linear, Quadratic.linearPart,
    Quadratic.size, Problem.size, Vec.entry, Problem.edgeFrom, Problem.edgeTo, Problem.penalty,
    Problem.targetWeightAt, absSlope_zero]
  ring

theorem isMinimal_heldPair {y : ℚ} (hy : |y| ≤ 1) :
    (heldPair y).problem.IsMinimal ((heldPair y).partition.expand #[0]) := by
  have hready := isReady_heldPair y
  refine (hready.isConvex_problem.isMinimal_iff hready.size_expand ?_).mpr fun d _ => ?_
  · with_unfolding_all rfl
  · rw [slopeAlong_heldPair]
    have hproduct : y * d 0 ≤ |d 0| := by
      calc y * d 0 ≤ |y * d 0| := le_abs_self _
        _ = |y| * |d 0| := abs_mul y (d 0)
        _ ≤ |d 0| := mul_le_of_le_one_left (abs_nonneg _) hy
    linarith [abs_sub_abs_le_abs_sub (d 0) (d 1), abs_nonneg (d 1)]

/-- Where the first vertex is observed at zero, neither vertex moves down without a slope. -/
theorem split_of_isMinimal_heldPair :
    ∃ t, split.Answers (heldPair 0) 0 t ∧ (heldPair 0).partition.regionCount = 1 ∧
      t.partition.isSaturated 0 = true := by
  obtain ⟨n, t, hsplit, hiff⟩ := (isReady_heldPair 0).split_of_isMinimal
    (isMinimal_heldPair (by norm_num))
  have hcount : (heldPair 0).partition.regionCount = 1 := by decide +kernel
  have hwhole : ∀ r < (heldPair 0).partition.regionCount, (heldPair 0).SinksWhole #[0] r := by
    intro r _ U hU hnonempty _ hzero
    rw [slopeAlong_heldPair, zero_mul, sub_zero] at hzero
    have hsecond : 1 ∉ U := by
      intro hin
      simp only [Partition.ones, if_pos hin, abs_neg, abs_one] at hzero
      linarith [abs_nonneg (-(if 0 ∈ U then 1 else 0) - -1 : ℚ)]
    have hfirst : 0 ∉ U := by
      intro hin
      simp [Partition.ones, hin, hsecond] at hzero
    obtain ⟨v, hv⟩ := hnonempty
    have hlt : v < 2 := (Partition.mem_members.mp (hU hv)).1
    interval_cases v
    · exact absurd hv hfirst
    · exact absurd hv hsecond
  obtain ⟨rfl, -, hsaturated⟩ := hiff.mpr hwhole
  exact ⟨t, hsplit, hcount, hsaturated 0 (hcount ▸ Nat.one_pos)⟩

/-- Where the first vertex is observed at minus one, it moves down alone at no cost, though the
second does not: the split of a minimal iterate cuts the edge between them. -/
theorem not_split_of_isMinimal_heldPair :
    (heldPair (-1)).IsReady #[0] ∧
      (heldPair (-1)).problem.IsMinimal ((heldPair (-1)).partition.expand #[0]) ∧
      ∃ t, split.Answers (heldPair (-1)) 1 t ∧ (heldPair (-1)).partition.isActive 0 = false ∧
        t.partition.isActive 0 = true ∧ t.partition.isSaturated 0 = false :=
  ⟨isReady_heldPair _, isMinimal_heldPair (by norm_num), _,
    answers_of_toOption (by decide +kernel), by decide +kernel, by decide +kernel,
    by decide +kernel⟩

end Solver
end TotalVariation
