import Mathlib
import TotalVariation.Proofs.Failure
import TotalVariation.Proofs.MedianOrder
import TotalVariation.Proofs.Quadratic.Expansion
import TotalVariation.Proofs.Solver.CutEdges
import TotalVariation.Proofs.Solver.Retuning
import TotalVariation.Solver.Configure

/-! # One weight for all targets

A common weight of the targets can be spread over the vertices as an array. The regions weigh the
same then, but an even number of targets has two in the middle: of these the median with weights is
the lower one, as it reaches half of the weight, the median without weights the upper one. Where the
two are equal, the medians and with them the whole runs are the same.
-/

namespace TotalVariation

variable {K : Type} [ExactField K]

namespace Median

variable {values : Vec K} {idx : List ℕ} {n : ℕ} {c : K}

/-- Half of equal weights is reached at the lower one of the positions in the middle. -/
theorem weightedPosition_replicate (n : ℕ) (hc : 0 < c) :
    weightedPosition (List.replicate n c) = (n - 1) / 2 := by
  rcases Nat.eq_zero_or_pos n with rfl | hn
  · rfl
  · have hsum (m : ℕ) (hm : m ≤ n) : ((List.replicate n c).take m).sum = m * c := by
      rw [List.take_replicate, min_eq_left hm, List.sum_replicate, nsmul_eq_mul]
    have hne : List.replicate n c ≠ [] := by simpa using hn.ne'
    obtain ⟨hlt, hbefore, hreached⟩ := weightedPosition_spec hne
      fun w hw => (List.eq_of_mem_replicate hw).symm ▸ hc.le
    rw [List.length_replicate] at hlt
    set p := weightedPosition (List.replicate n c)
    have htotal : (List.replicate n c).sum = n * c := by rw [List.sum_replicate, nsmul_eq_mul]
    rw [htotal] at hbefore hreached
    rw [hsum _ hlt] at hreached
    have habove : n ≤ 2 * (p + 1) := by
      have : (n : K) * c ≤ (2 * (p + 1) : ℕ) * c := by push_cast at hreached ⊢; linarith
      exact_mod_cast le_of_mul_le_mul_right this hc
    have hbelow : 2 * p < n ∨ p = 0 := by
      rcases Nat.eq_zero_or_pos p with hzero | hpos
      · exact .inr hzero
      · have hlast := hbefore (p - 1) (by omega)
        rw [Nat.sub_add_cancel hpos, hsum _ hlt.le] at hlast
        have : ((2 * p : ℕ) : K) * c < n * c := by push_cast; linarith
        exact .inl (by exact_mod_cast lt_of_mul_lt_mul_right this hc.le)
    omega

/-- The two values in the middle of a list of indices are equal. In the middle of an odd number of
indices stands only one. -/
def HasOneMiddle (values : Vec K) (idx : List ℕ) : Prop :=
  Vec.entry values (idx.getD ((idx.length - 1) / 2) 0) =
    Vec.entry values (idx.getD (idx.length / 2) 0)

theorem hasOneMiddle_of_odd (h : Odd idx.length) : HasOneMiddle values idx := by
  obtain ⟨k, hk⟩ := h
  unfold HasOneMiddle
  have hsame : (idx.length - 1) / 2 = idx.length / 2 := by omega
  rw [hsame]

theorem hasOneMiddle_nil (values : Vec K) : HasOneMiddle values [] := rfl

/-- Equal values have one middle. -/
theorem hasOneMiddle_constant (h : ∀ v ∈ idx, v < n) : HasOneMiddle (Vec.constant n c) idx := by
  rcases Nat.eq_zero_or_pos idx.length with hzero | hpos
  · rw [List.eq_nil_of_length_eq_zero hzero]
    exact hasOneMiddle_nil _
  · have hentry (p : ℕ) (hp : p < idx.length) :
        Vec.entry (Vec.constant n c) (idx.getD p 0) = c := by
      rw [List.getD_eq_getElem _ _ hp, Vec.entry_constant, if_pos (h _ (List.getElem_mem hp))]
    rw [HasOneMiddle, hentry _ (by omega), hentry _ (by omega)]

/-- Equal weights find the lower one of the values in the middle. -/
theorem ofSorted_constant (hc : 0 < c) (h : ∀ v ∈ idx, v < n) :
    ofSorted values (some (Vec.constant n c)) idx =
      Vec.entry values (idx.getD ((idx.length - 1) / 2) 0) := by
  have hweights : idx.map (Vec.entry (Vec.constant n c)) = List.replicate idx.length c :=
    List.map_eq_replicate_iff.mpr fun v hv => by rw [Vec.entry_constant, if_pos (h v hv)]
  rw [ofSorted, position, hweights, weightedPosition_replicate _ hc]

/-- Equal weights find the value found without weights if the values in the middle are equal. -/
theorem ofSorted_constant_iff (hc : 0 < c) (h : ∀ v ∈ idx, v < n) :
    ofSorted values (some (Vec.constant n c)) idx = ofSorted values none idx ↔
      HasOneMiddle values idx := by
  rw [ofSorted_constant hc h]
  rfl

end Median

namespace Solver

open Step TotalVariation.Partition TotalVariation.Median

variable {s s' t t' : Solver K} {n : ℕ} {c d : K} {solve : InnerMethod K} {r : Recording}

/-- The solver with other weights of the targets. -/
def withTargetWeights {α : Type} (s : Solver α) (w : Weighting α) : Solver α :=
  { s with targetWeights := w }

/-- The solver with the weight `c` given for each vertex, and the unused common weight `d`. -/
def spread {α : Type} (s : Solver α) (c d : α) : Solver α :=
  s.withTargetWeights ⟨some (Vec.constant s.vertexCount c), d⟩

/-- A common weight of the targets and the array filled with it are accepted and refused
together. -/
theorem setTargets?_spread (hc : 0 < c) (targets : Option (Tensor K)) :
    s.setTargets? (some (.ofArray (Vec.constant s.vertexCount c))) d targets =
      (s.setTargets? none c targets).map fun t => t.spread c d := by
  have heach : perVertex? (α := K) "l1_weights" s.vertexCount
      (some (.ofArray (Vec.constant s.vertexCount c))) =
      .ok (some (Vec.constant s.vertexCount c)) := by
    unfold perVertex?
    exact if_pos (congrArg Int.ofNat Array.size_replicate)
  have hnone : perVertex? (α := K) "l1_weights" s.vertexCount (none : Option (Tensor K)) = .ok none := rfl
  have hnonneg : (Vec.constant s.vertexCount c).any (fun a => a < 0) = false := by
    rw [Array.any_eq_false]
    intro i hi
    simp [Vec.constant, hc.le]
  have hstore : ∀ m : Option (Vec K),
      (if (Vec.constant s.vertexCount c).any (fun a => a < 0) then throw .negativeTargetWeights
        else pure { s with targetWeights := ⟨some (Vec.constant s.vertexCount c), d⟩, targets := m } :
          Except (Failure K) (Solver K)) =
        (if c < 0 then throw (.negativeTargetWeight c)
          else pure { s with targetWeights := ⟨none, c⟩, targets := m } :
          Except (Failure K) (Solver K)).map fun t => t.spread c d := by
    intro m
    rw [if_neg hc.not_gt, hnonneg]
    rfl
  unfold setTargets?
  rw [heach, hnone]
  cases htargets : s.targetsOf? targets with
  | error e => rfl
  | ok m => exact hstore m

/-- A common weight is stored beside the targets. -/
theorem setTargets?_none_eq_ok {targets : Option (Tensor K)}
    (h : s.setTargets? none c targets = .ok t) :
    ∃ m, t = { s with targetWeights := ⟨none, c⟩, targets := m } := by
  unfold setTargets? at h
  rw [bind_eq_ok] at h
  obtain ⟨each, heach, h⟩ := h
  obtain rfl : none = each := Except.ok.inj heach
  rw [bind_eq_ok] at h
  obtain ⟨m, -, h⟩ := h
  dsimp only at h
  rw [test_eq_ok] at h
  exact ⟨m, (Except.ok.inj h.2).symm⟩

/-- The second solver weighs the target of each of the `n` vertices as the first weighs all. -/
structure Spreads (n : ℕ) (c d : K) (t t' : Solver K) : Prop where
  common : t.targetWeights = ⟨none, c⟩
  eq : t' = t.withTargetWeights ⟨some (Vec.constant n c), d⟩

omit [ExactField K] in
theorem isRetuning_spreads (n : ℕ) (c d : K) : IsRetuning (Spreads n c d) where
  exists_eq := by
    rintro t _ ⟨-, rfl⟩
    exact ⟨t.quadratic, _, rfl⟩
  update P residual x lastX history h := by
    obtain ⟨hcommon, rfl⟩ := h
    exact ⟨hcommon, rfl⟩

/-! ## Weights and medians -/

/-- The vertices of a region in the order in which the median is taken of their targets. -/
def medianOrder (s : Solver K) (y : Vec K) (q : ℕ) : List ℕ :=
  if s.partition.isSaturated q && s.partition.isMedianCached q then s.partition.region q
  else sortByValue y (s.partition.region q)

theorem regionMedian_eq (s : Solver K) (y : Vec K) (q : ℕ) :
    s.regionMedian y q = (ofSorted y s.targetWeights.each (s.medianOrder y q), s.medianOrder y q) := by
  unfold regionMedian medianOrder
  dsimp only
  split <;> rfl

theorem medianOrder_perm (s : Solver K) (y : Vec K) (q : ℕ) :
    (s.medianOrder y q).Perm (s.partition.region q) := by
  unfold medianOrder
  split
  next => exact .refl _
  next => exact sortByValue_perm y _

section Weights

variable (hc : 0 < c) (h : Spreads n c d t t')

include hc h

theorem targetWeight?_spreads : t.targetWeight? = some (fun _ => c) ∧
    t'.targetWeight? = some (Vec.entry (Vec.constant n c)) := by
  obtain ⟨hcommon, rfl⟩ := h
  exact ⟨by simp [targetWeight?, hcommon, hc], rfl⟩

theorem totalTargetWeight?_spreads (hn : t.vertexCount = n) :
    t'.totalTargetWeight? = t.totalTargetWeight? := by
  obtain ⟨hcommon, rfl⟩ := h
  have hsame : Scalar.same c 0 = false := Bool.eq_false_iff.mpr (mt (Scalar.same_iff c 0).mp hc.ne')
  have htotal : t.totalTargetWeight? = some (t.vertexCount * c) := by
    simp [totalTargetWeight?, hcommon, hsame]
  have hsize : (Vec.constant n c).size = n := Array.size_replicate
  have hsum : Vec.sum (Vec.constant n c) = n * c := by
    rw [Vec.sum, hsize, Vec.total_eq, Finset.sum_congr rfl fun v hv => by
      rw [Vec.entry_constant, if_pos (Finset.mem_range.mp hv)], Finset.sum_const, Finset.card_range,
      nsmul_eq_mul]
  rw [htotal, hn, ← hsum]
  rfl

/-- The weights of the regions are the same. -/
theorem regionWeights?_spreads (hn : t.vertexCount = n) (hP : t.partition.IsConsistent) :
    t'.regionWeights? = t.regionWeights? := by
  obtain ⟨hcommon, rfl⟩ := h
  have hsame : Scalar.same c 0 = false := Bool.eq_false_iff.mpr (mt (Scalar.same_iff c 0).mp hc.ne')
  have hweights : t.regionWeights? = some (t.partition.sizeVec.map (c * ·)) := by
    simp [regionWeights?, hcommon, hsame]
  have hsums : t.partition.regionSums (Vec.constant n c) = t.partition.sizeVec.map (c * ·) := by
    refine Vec.ext_entry (by simp [sizeVec]) fun q hq => ?_
    have hlt : q < t.partition.regionCount := by simpa using hq
    rw [entry_regionSums _ _ hlt, Vec.entry_map (mul_zero c), sizeVec, Vec.entry_tabulate,
      if_pos hlt, hP.sizeOf_eq hlt, mul_comm, ← nsmul_eq_mul, ← Finset.sum_const]
    refine Finset.sum_congr rfl fun v hv => ?_
    have hv' : v < t.vertexCount := (mem_members.mp hv).1
    rw [Vec.entry_constant, if_pos (hn ▸ hv')]
  rw [hweights, ← hsums]
  rfl

/-- The median of a region is the same if and only if its targets have one middle. -/
theorem regionMedian_spreads (y : Vec K) {q : ℕ} (hq : ∀ v ∈ t.partition.region q, v < n) :
    (t'.regionMedian y q).2 = (t.regionMedian y q).2 ∧
      ((t'.regionMedian y q).1 = (t.regionMedian y q).1 ↔ HasOneMiddle y (t.medianOrder y q)) := by
  obtain ⟨hcommon, rfl⟩ := h
  have horder : (t.withTargetWeights ⟨some (Vec.constant n c), d⟩).medianOrder y q =
      t.medianOrder y q := rfl
  rw [regionMedian_eq, regionMedian_eq, horder, hcommon]
  exact ⟨rfl, ofSorted_constant_iff hc fun v hv => hq v ((t.medianOrder_perm y q).mem_iff.mp hv)⟩

end Weights

/-! ## Solutions -/

section Solutions

variable (hc : 0 < c) (hn : t.vertexCount = n) (h : Spreads n c d t t')

include hc hn h

theorem regionTargets_spreads (hP : t.partition.IsConsistent)
    (hmiddle : ∀ y, t.targets = some y → ∀ q < t.partition.regionCount,
      HasOneMiddle y (t.medianOrder y q)) :
    Alike (· = ·) (Spreads n c d) regionTargets t regionTargets t' := by
  have hweights := regionWeights?_spreads hc h hn hP
  have hmedians : ∀ y, t.targets = some y → t'.regionMedians y = t.regionMedians y := by
    intro y hy
    have hregion : ∀ q < t.partition.regionCount, t'.regionMedian y q = t.regionMedian y q := by
      intro q hq
      obtain ⟨horder, hmedian⟩ := regionMedian_spreads hc h y fun v hv =>
        hn ▸ ((hP.mem_region q hq v).mp hv).1
      exact Prod.ext (hmedian.mpr (hmiddle y hy q hq)) horder
    obtain ⟨hcommon, rfl⟩ := h
    exact List.map_congr_left fun q hq => hregion q (List.mem_range.mp hq)
  obtain ⟨hcommon, rfl⟩ := h
  set spreadWeights : Weighting K := ⟨some (Vec.constant n c), d⟩
  have hkept : (t.withTargetWeights spreadWeights).targets = t.targets := rfl
  have hsolver : regionTargets? (t.withTargetWeights spreadWeights) = t.regionTargets? ∧
      sorted (t.withTargetWeights spreadWeights) = t.sorted.withTargetWeights spreadWeights := by
    unfold regionTargets? sorted
    rw [hweights, hkept]
    split
    next w y hw hy =>
      unfold sortedByTarget
      rw [hmedians y hy]
      exact ⟨rfl, rfl⟩
    next => exact ⟨rfl, rfl⟩
  exact .answers (regionTargets_answers.mpr ⟨⟨rfl, rfl⟩, rfl⟩)
    (regionTargets_answers.mpr ⟨⟨hweights.symm, hsolver.1.symm⟩, rfl⟩) rfl
    ⟨t.sameSettings_sorted.targetWeights.trans hcommon, hsolver.2⟩

/-- Solutions over the regions are the same where the medians are. -/
theorem reducedSolution_spreads (hP : t.partition.IsConsistent)
    (hmiddle : ∀ y, t.targets = some y → ∀ q < t.partition.regionCount,
      HasOneMiddle y (t.medianOrder y q)) :
    Alike (· = ·) (Spreads n c d) (reducedSolution solve) t (reducedSolution solve) t' := by
  have htargets := regionTargets_spreads hc hn h hP hmiddle
  obtain ⟨hcommon, rfl⟩ := h
  refine .congr (reducedSolution_run _ _) (reducedSolution_run _ _) (.lift_bind fun premultiply _ => ?_)
  unfold chosenSolution solutionWith
  refine .lift_bind fun reduced _ => .bind htargets ?_
  rintro ⟨weights, targets⟩ _ u _ - - rfl ⟨hu, rfl⟩
  refine .get_bind (.lift_bind fun init _ => .lift_bind fun solution _ => .modify_bind ?_)
  exact .answers (b := ()) (c := ()) (storeResidual_answers.mpr rfl) (storeResidual_answers.mpr rfl)
    rfl ⟨hu, rfl⟩

/-- The best constant is the same where the median over the whole graph is. -/
theorem constantSolution_spreads (hq : ∀ v ∈ t.partition.region 0, v < n)
    (hmiddle : ∀ y, t.targets = some y → HasOneMiddle y (sortByValue y (t.partition.region 0))) :
    Alike (· = ·) (Spreads n c d) constantSolution t constantSolution t' := by
  have htotal := totalTargetWeight?_spreads hc h hn
  obtain ⟨hcommon, rfl⟩ := h
  set spreadWeights : Weighting K := ⟨some (Vec.constant n c), d⟩
  have hwhole : wholeMedian (t.withTargetWeights spreadWeights) =
      (t.wholeMedian.1, t.wholeMedian.2.withTargetWeights spreadWeights) := by
    have hkept : (t.withTargetWeights spreadWeights).targets = t.targets := rfl
    unfold wholeMedian
    rw [htotal, hkept]
    split
    next y _ hy =>
      have hmedian : (select y (some (Vec.constant n c)) (t.partition.region 0)).1 =
          (select y none (t.partition.region 0)).1 :=
        (ofSorted_constant_iff hc fun v hv => hq v ((sortByValue_perm y _).mem_iff.mp hv)).mpr
          (hmiddle y hy)
      rw [hcommon]
      exact Prod.ext hmedian rfl
    next => rfl
  have hcommon' : t.wholeMedian.2.targetWeights = ⟨none, c⟩ := by
    unfold wholeMedian
    split <;> exact hcommon
  refine constantSolution_alike_of_eq ?_ rfl rfl fun u => ?_
  · rw [htotal, hwhole]
    rfl
  · rw [hwhole]
    exact ⟨hcommon', rfl⟩

end Solutions

/-! ## Splits and objectives -/

/-- The iterate at each vertex, and the slope there without the part of the targets. -/
def untargetedSlope? (s : Solver K) : Except (Failure K) (Vec K × Vec K) := do
  let smooth ← s.quadratic.regionGradient? s.partition s.x s.residual
  let x ← match s.x with
    | some x => s.partition.expand? x
    | none => throw .indexRange
  pure (x, boundarySlope s.partition x smooth)

theorem gradient?_eq_map (s : Solver K) :
    s.gradient? = s.untargetedSlope?.map fun found => s.targetSlope found.1 found.2 := by
  unfold gradient? untargetedSlope?
  dsimp only
  cases s.quadratic.regionGradient? s.partition s.x s.residual with
  | error e => rfl
  | ok smooth =>
      cases s.x with
      | none => rfl
      | some x =>
          dsimp only [bind, Except.bind]
          cases s.partition.expand? x <;> rfl

section Splits

variable (hc : 0 < c) (h : Spreads n c d t t')

include hc h

/-- The slopes are the same at the vertices of the graph. -/
theorem entry_targetSlope_spreads (x slope : Vec K) {v : ℕ} (hv : v < n) :
    Vec.entry (t'.targetSlope x slope) v = Vec.entry (t.targetSlope x slope) v := by
  obtain ⟨hweight, hweight'⟩ := targetWeight?_spreads hc h
  obtain ⟨-, rfl⟩ := h
  unfold targetSlope
  rw [hweight, hweight']
  dsimp only
  rw [Vec.entry_tabulate, Vec.entry_tabulate, Vec.entry_constant, if_pos hv]
  rfl

theorem splitRegion?_spreads {g g' : Vec K} (hslope : ∀ v < n, Vec.entry g' v = Vec.entry g v)
    (oneCut : Bool) {q : ℕ} (hq : ∀ v ∈ t.partition.region q, v < n) :
    t'.splitRegion? g' oneCut q = t.splitRegion? g oneCut q := by
  obtain ⟨hweight, hweight'⟩ := targetWeight?_spreads hc h
  obtain ⟨-, rfl⟩ := h
  set spreadWeights : Weighting K := ⟨some (Vec.constant n c), d⟩
  have hprices : ∀ x, ∀ v ∈ t.partition.region q,
      upwardPrice (t.withTargetWeights spreadWeights) g' x v = t.upwardPrice g x v ∧
        downwardPrice (t.withTargetWeights spreadWeights) g' x v = t.downwardPrice g x v := by
    intro x v hv
    unfold upwardPrice downwardPrice
    rw [hweight, hweight']
    dsimp only
    rw [hslope v (hq v hv), Vec.entry_constant, if_pos (hq v hv)]
    exact ⟨rfl, rfl⟩
  have hup := fun x edges => cutEdges?_congr t.partition edges
    fun v hv => (hprices x v hv).1
  have hdown := fun x edges => cutEdges?_congr t.partition edges
    fun v hv => (hprices x v hv).2
  unfold splitRegion?
  change (if (t.partition.region q).length < 2 then _ else _) = _
  dsimp only [withTargetWeights] at hup hdown ⊢
  simp only [hup, hdown]

/-- Splits are the same. -/
theorem split_spreads (hn : t.vertexCount = n) (hP : t.partition.IsConsistent) :
    Alike (· = ·) (Spreads n c d) split t split t' := by
  have hslope := fun x slope v hv => entry_targetSlope_spreads hc h x slope (v := v) hv
  have hregion : ∀ g g' : Vec K, (∀ v < n, Vec.entry g' v = Vec.entry g v) →
      ∀ q, (∀ v ∈ t.partition.region q, v < n) →
      t'.splitRegion? g' t.needsOneCut q = t.splitRegion? g t.needsOneCut q :=
    fun g g' hg q hq => splitRegion?_spreads hc h hg t.needsOneCut hq
  obtain ⟨hweight, hweight'⟩ := targetWeight?_spreads hc h
  obtain ⟨hcommon, rfl⟩ := h
  have hone : needsOneCut (t.withTargetWeights ⟨some (Vec.constant n c), d⟩) = t.needsOneCut := by
    unfold needsOneCut
    rw [hweight, hweight']
    rfl
  unfold split modifyPartition
  refine .get_bind ?_
  rw [gradient?_eq_map, gradient?_eq_map]
  change Alike _ _ (liftM (t.untargetedSlope?.map _) >>= _) _
    (liftM (t.untargetedSlope?.map _) >>= _) _
  cases t.untargetedSlope? with
  | error e => exact .fails rfl rfl
  | ok found =>
      have hoc : Workload.outcomes
          (splitRegion? (t.withTargetWeights ⟨some (Vec.constant n c), d⟩)
            (targetSlope (t.withTargetWeights ⟨some (Vec.constant n c), d⟩) found.1 found.2)
            (needsOneCut (t.withTargetWeights ⟨some (Vec.constant n c), d⟩)))
          (openRegions t.partition) =
          Workload.outcomes (t.splitRegion? (t.targetSlope found.1 found.2) t.needsOneCut)
            (openRegions t.partition) := by
        refine mapM_congr fun q hq => ?_
        rw [hone]
        refine hregion _ _ (hslope found.1 found.2) q fun v hv => ?_
        have hlt : q < t.partition.regionCount := List.mem_range.mp (List.mem_filter.mp hq).1
        exact hn ▸ ((hP.mem_region q hlt v).mp hv).1
      refine .lift_bind_ok rfl rfl ?_
      exact .lift_bind_eq hoc fun cuts _ => .modify_bind (.of_pure rfl ⟨hcommon, rfl⟩)

/-- Objectives are the same. -/
theorem objective?_spreads (hn : t.vertexCount = n) : t'.objective? = t.objective? := by
  obtain ⟨hweight, hweight'⟩ := targetWeight?_spreads hc h
  obtain ⟨hcommon, rfl⟩ := h
  have hdistance : ∀ x, Vec.total (t.partition.expand x).size (fun v =>
      Vec.entry (Vec.constant n c) v * Scalar.abs (Vec.entry (t.partition.expand x) v - t.target v)) =
      Vec.total (t.partition.expand x).size (fun v =>
        c * Scalar.abs (Vec.entry (t.partition.expand x) v - t.target v)) := by
    intro x
    have hsize : (t.partition.expand x).size = n := (t.partition.size_expand x).trans hn
    rw [hsize, Vec.total_eq, Vec.total_eq]
    refine Finset.sum_congr rfl fun v hv => ?_
    rw [Vec.entry_constant, if_pos (Finset.mem_range.mp hv)]
  unfold objective?
  rw [hweight, hweight']
  refine bind_congr fun quadratic => bind_congr fun variation => bind_congr fun x => ?_
  change (t.partition.expand? x >>= _) = (t.partition.expand? x >>= _)
  unfold expand?
  split
  next => exact congrArg (fun total => Except.ok (quadratic + variation + total)) (hdistance x)
  next => rfl

end Splits

/-- After a merger the residual does not depend on the weights of the targets. -/
theorem renewResidual_spreads (h : Spreads n c d t t') :
    Alike (fun _ _ => True) (Spreads n c d) renewResidual t renewResidual t' := by
  obtain ⟨hcommon, rfl⟩ := h
  unfold renewResidual
  refine .get_bind ?_
  dsimp only [withTargetWeights]
  split
  next =>
    refine .lift_bind fun x _ => .lift_bind fun y _ => .lift_bind fun residual _ => ?_
    exact .of_modify trivial ⟨hcommon, rfl⟩
  next => exact .of_pure trivial ⟨hcommon, rfl⟩

/-! ## Runs -/

omit [ExactField K] in
theorem lt_of_mem_region_zero {P : Partition K} (hP : P.IsConsistent) {v : ℕ}
    (hv : v ∈ P.region 0) : v < P.vertexCount :=
  hP.lt_of_mem_region hv

/-- Wherever the run takes a median, the targets have one middle. -/
structure MeetsOneMiddle (solve : InnerMethod K) (r : Recording) (s : Solver K) : Prop where
  whole : ∀ y, s.targets = some y → (components s.partition).regionCount = 1 →
    HasOneMiddle y (sortByValue y ((components s.partition).region 0))
  regions : ∀ t, SolvesAt (steps solve) r s t → ∀ y, s.targets = some y →
    ∀ q < t.partition.regionCount, HasOneMiddle y (t.medianOrder y q)

theorem meetsOneMiddle_of_none (htargets : s.targets = none) : MeetsOneMiddle solve r s := by
  constructor
  · rintro y hy
    rw [htargets] at hy
    cases hy
  · rintro t - y hy
    rw [htargets] at hy
    cases hy

/-- One target for all vertices is in the middle everywhere. -/
theorem meetsOneMiddle_of_constant {m : K} (hs : s.partition.IsArranged)
    (hsolve : AnswersInSize solve s.inner) (htargets : s.targets = some (Vec.constant s.vertexCount m)) :
    MeetsOneMiddle solve r s := by
  constructor
  · intro y hy _
    obtain rfl := Option.some.inj (htargets.symm.trans hy)
    refine hasOneMiddle_constant fun v hv => ?_
    exact lt_of_mem_region_zero (isCoherent_components hs).toIsConsistent
      ((sortByValue_perm _ _).mem_iff.mp hv)
  · intro t ht y hy q hq
    obtain rfl := Option.some.inj (htargets.symm.trans hy)
    refine hasOneMiddle_constant fun v hv => ?_
    have hmem := ((ht.isCoherent hs hsolve).mem_region q hq v).mp ((t.medianOrder_perm _ q).mem_iff.mp hv)
    exact hmem.1.trans_eq ht.sameSettings.vertexCount

/-- The weights of the regions are the same, and so are the medians of exactly those regions whose
targets have one middle. -/
structure WeighsAlike (t t' : Solver K) : Prop where
  total : t'.totalTargetWeight? = t.totalTargetWeight?
  weights : t'.regionWeights? = t.regionWeights?
  order : ∀ y, ∀ q < t.partition.regionCount, (t'.regionMedian y q).2 = (t.regionMedian y q).2
  median : ∀ y, ∀ q < t.partition.regionCount,
    ((t'.regionMedian y q).1 = (t.regionMedian y q).1 ↔ HasOneMiddle y (t.medianOrder y q))

theorem weighsAlike_of_spreads (hc : 0 < c) (hn : t.vertexCount = n) (hP : t.partition.IsConsistent)
    (h : Spreads n c d t t') : WeighsAlike t t' := by
  have hmedian : ∀ y, ∀ q < t.partition.regionCount, _ := fun y q hq =>
    regionMedian_spreads hc h y fun v hv => hn ▸ ((hP.mem_region q hq v).mp hv).1
  exact ⟨totalTargetWeight?_spreads hc h hn, regionWeights?_spreads hc h hn hP,
    fun y q hq => (hmedian y q hq).1, fun y q hq => (hmedian y q hq).2⟩

theorem lockstep_of_spreads (hs : s.partition.IsArranged) (hc : 0 < c)
    (hsolve : AnswersInSize solve s.inner) (hmiddle : MeetsOneMiddle solve r s)
    (h : Spreads s.vertexCount c d s s') :
    Lockstep (steps solve) r s s' (Spreads s.vertexCount c d) (Spreads s.vertexCount c d) := by
  refine (isRetuning_spreads s.vertexCount c d).lockstep h ?_ ?_ ?_ ?_ ?_
  · rintro _ t' rfl hone hbegun
    refine constantSolution_spreads hc rfl hbegun (fun v hv => ?_) fun y hy =>
      hmiddle.whole y hy hone
    exact lt_of_mem_region_zero (isCoherent_components hs).toIsConsistent hv
  · intro t t' hsolves hrelated
    have hsame := hsolves.sameSettings
    exact reducedSolution_spreads hc hsame.vertexCount hrelated
      (hsolves.isCoherent hs hsolve).toIsConsistent fun y hy =>
        hmiddle.regions t hsolves y (hsame.targets ▸ hy)
  · intro t t' hsplits hrelated
    exact split_spreads hc hrelated hsplits.sameSettings.vertexCount
      (hsplits.isSolved hs hsolve).partition.toIsConsistent
  · exact fun hrelated => renewResidual_spreads hrelated
  · intro t t' hrecords hrelated
    exact objective?_spreads hc hrelated hrecords.sameSettings.vertexCount

/-- A common weight of the targets and the array filled with it: they are accepted and refused
together, the regions of every partition weigh the same, and their medians are the same exactly if
their targets have one middle. Where the medians are the same, so are the best constant over the
whole graph and the run. -/
theorem alike_of_constantWeights (hs : s.partition.IsArranged) (hc : 0 < c) (d : K)
    (targets : Option (Tensor K)) (r : Recording) :
    s.setTargets? (some (.ofArray (Vec.constant s.vertexCount c))) d targets =
        (s.setTargets? none c targets).map (fun t => t.spread c d) ∧
      ∀ t, s.setTargets? none c targets = .ok t →
        (∀ P : Partition K, P.IsConsistent → P.vertexCount = t.vertexCount →
          WeighsAlike { t with partition := P } { t.spread c d with partition := P } ∧
          ((∀ y, t.targets = some y → HasOneMiddle y (sortByValue y (P.region 0))) →
            Alike (· = ·) (Spreads t.vertexCount c d) constantSolution { t with partition := P }
              constantSolution { t.spread c d with partition := P })) ∧
        ∀ solve, AnswersInSize solve t.inner → MeetsOneMiddle solve r t →
          RunsWith (Spreads t.vertexCount c d) (steps solve) r t (t.spread c d) := by
  refine ⟨setTargets?_spread hc targets, fun t ht => ?_⟩
  obtain ⟨m, rfl⟩ := setTargets?_none_eq_ok ht
  refine ⟨fun P hP hcount => ?_, fun solve hsolve hmiddle => ?_⟩
  · have hspreads : Spreads s.vertexCount c d
        { s with partition := P, targetWeights := ⟨none, c⟩, targets := m }
        { s with
          partition := P
          targetWeights := ⟨some (Vec.constant s.vertexCount c), d⟩
          targets := m } := ⟨rfl, rfl⟩
    refine ⟨weighsAlike_of_spreads hc hcount hP hspreads, ?_⟩
    refine constantSolution_spreads
      (t := { s with partition := P, targetWeights := ⟨none, c⟩, targets := m }) hc hcount hspreads
      fun v hv => ?_
    exact (lt_of_mem_region_zero hP hv).trans_eq hcount
  · exact (lockstep_of_spreads (s := { s with targetWeights := ⟨none, c⟩, targets := m }) hs hc
      hsolve hmiddle ⟨rfl, rfl⟩).runsWith

/-- A path of three vertices with different observations, of which each solution makes one
iteration. -/
def onePassPath : Solver ℚ :=
  { ofPartition (.whole ⟨#[0, 1, 2, 2], #[0, 1], #[1, 2]⟩ ⟨none, 1⟩) with
    quadratic := .identity 3 1 (some #[0, 10, 4])
    inner := { defaultInner with maxIterations := 1 } }

/-- The path with one target for all its vertices. -/
def targetedPath : Solver ℚ :=
  { onePassPath with targetWeights := ⟨none, 1⟩, targets := some (Vec.constant 3 3) }

/-- In two rounds both runs take the path apart. -/
theorem alike_of_constantWeights_onePassPath :
    onePassPath.partition.IsArranged ∧ (0 : ℚ) < 1 ∧
      onePassPath.setTargets? none 1 (some (.ofScalar 3)) = .ok targetedPath ∧
      (components targetedPath.partition).IsConsistent ∧
      (components targetedPath.partition).vertexCount = targetedPath.vertexCount ∧
      WeighsAlike { targetedPath with partition := components targetedPath.partition }
        { targetedPath.spread 1 0 with partition := components targetedPath.partition } ∧
      Alike (· = ·) (Spreads targetedPath.vertexCount 1 0)
        constantSolution { targetedPath with partition := components targetedPath.partition }
        constantSolution
          { targetedPath.spread 1 0 with partition := components targetedPath.partition } ∧
      AnswersInSize innerMethod targetedPath.inner ∧
      MeetsOneMiddle innerMethod ⟨true, false⟩ targetedPath ∧
      RunsWith (Spreads targetedPath.vertexCount 1 0) standardSteps ⟨true, false⟩ targetedPath
        (targetedPath.spread 1 0) ∧
      ∃ u, (run standardSteps true ⟨true, false⟩).Answers targetedPath 2 u ∧
        u.x = some #[2, 7, 3] ∧ u.history.objectives = [-175 / 6, -35, -37] := by
  have hP : Partition.ofIndex? #[0, 1, 2, 2] #[1, 2] none (1 : ℚ) = .ok onePassPath.partition := by
    with_unfolding_all rfl
  have hs : onePassPath.partition.IsArranged := isArranged_of_ofIndex? hP
  have haccepted : onePassPath.setTargets? none 1 (some (.ofScalar 3)) = .ok targetedPath := rfl
  obtain ⟨hpartition, hruns⟩ := (alike_of_constantWeights (s := onePassPath) hs one_pos 0
    (some (.ofScalar 3)) ⟨true, false⟩).2 targetedPath haccepted
  have hsolve : AnswersInSize innerMethod targetedPath.inner := answersInSize_innerMethod rfl
  have hmiddle : MeetsOneMiddle innerMethod ⟨true, false⟩ targetedPath :=
    meetsOneMiddle_of_constant (m := 3) hs hsolve rfl
  have hcomponents : (components targetedPath.partition).IsConsistent :=
    (isCoherent_components hs).toIsConsistent
  have hone : (components targetedPath.partition).regionCount = 1 := by decide +kernel
  obtain ⟨hweighs, hconstant⟩ := hpartition (components targetedPath.partition) hcomponents rfl
  have hrun : let outcome := (run standardSteps true ⟨true, false⟩).run targetedPath
      outcome.1.toOption = some 2 ∧ outcome.2.x = some #[2, 7, 3] ∧
        outcome.2.history.objectives = [-175 / 6, -35, -37] := by
    unfold standardSteps steps constantSolution reducedSolution regionTargets regionMedian
    rw [select_eq_insertionSort (sortsTotally_of_exactField ℚ)]
    decide +kernel
  exact ⟨hs, one_pos, haccepted, hcomponents, rfl, hweighs,
    hconstant fun y hy => hmiddle.whole y hy hone, hsolve, hmiddle, hruns innerMethod hsolve hmiddle,
    _, answers_of_toOption hrun.1, hrun.2.1, hrun.2.2⟩

/-- Two vertices joined by a heavy edge, without a quadratic term. -/
def heavyPair : Solver ℚ := ofPartition (.whole ⟨#[0, 1, 1], #[0], #[1]⟩ ⟨none, 10⟩)

/-- The pair with two targets of weight one. -/
def targetedPair : Solver ℚ := { heavyPair with targetWeights := ⟨none, 1⟩, targets := some #[0, 1] }

/-- A common weight takes the pair to the upper one of its two targets, the array filled with it to
the lower one. -/
theorem run_targetedPair_ne :
    heavyPair.setTargets? none 1 (some (.ofArray #[0, 1])) = .ok targetedPair ∧
      heavyPair.setTargets? (some (.ofArray #[1, 1])) 0 (some (.ofArray #[0, 1])) =
        .ok (targetedPair.spread 1 0) ∧
      (targetedPair.regionMedian #[0, 1] 0).1 = 1 ∧
      ((targetedPair.spread 1 0).regionMedian #[0, 1] 0).1 = 0 ∧
      ∃ t u, (run standardSteps true ⟨false, false⟩).Answers targetedPair 0 t ∧
        (run standardSteps true ⟨false, false⟩).Answers (targetedPair.spread 1 0) 0 u ∧
        t.x = some #[1] ∧ u.x = some #[0] := by
  have hselect := select_eq_insertionSort (sortsTotally_of_exactField ℚ)
  have hmedians : (targetedPair.regionMedian #[0, 1] 0).1 = 1 ∧
      ((targetedPair.spread 1 0).regionMedian #[0, 1] 0).1 = 0 := by
    unfold regionMedian
    rw [hselect]
    decide +kernel
  have hcommon : let outcome := (run standardSteps true ⟨false, false⟩).run targetedPair
      outcome.1.toOption = some 0 ∧ outcome.2.x = some #[1] := by
    unfold standardSteps steps constantSolution
    rw [hselect]
    decide +kernel
  have heach : let outcome := (run standardSteps true ⟨false, false⟩).run (targetedPair.spread 1 0)
      outcome.1.toOption = some 0 ∧ outcome.2.x = some #[0] := by
    unfold standardSteps steps constantSolution
    rw [hselect]
    decide +kernel
  have hspread : heavyPair.setTargets? (some (.ofArray #[1, 1])) 0 (some (.ofArray #[0, 1])) =
      .ok (targetedPair.spread 1 0) := by with_unfolding_all rfl
  exact ⟨rfl, hspread, hmedians.1, hmedians.2, _, _, answers_of_toOption hcommon.1,
    answers_of_toOption heach.1, hcommon.2, heach.2⟩

end Solver
end TotalVariation
