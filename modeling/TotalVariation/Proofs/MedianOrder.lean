import Mathlib
import TotalVariation.Proofs.Median
import TotalVariation.Proofs.Numeric.Renaming

/-! # The median does not depend on the order

Equal values are sorted in the order in which they are given, and a weighted median is found at a
position that depends on the order of their weights. The value found there does not: it is the
least value up to which half of the weight is reached.
-/

namespace TotalVariation.Median

variable {K : Type} [ExactField K]

theorem sortsBefore_iff (a b : K) : Scalar.sortsBefore a b = true ↔ a ≤ b := by
  simp [Scalar.sortsBefore, Scalar.isDefined]

/-! ## Bisection -/

/-- A position that divides the entries that are less than the bound from the others. -/
structure Divides (xs : Vec K) (bound : K) (p : ℕ) : Prop where
  le_size : p ≤ xs.size
  lt : ∀ i < p, Vec.entry xs i < bound
  le : ∀ i, p ≤ i → i < xs.size → bound ≤ Vec.entry xs i

theorem divides_bisect {xs : Vec K} {bound : K}
    (hmono : ∀ i j, i ≤ j → j < xs.size → Vec.entry xs i ≤ Vec.entry xs j) {fuel low high : ℕ}
    (hfuel : high < low + fuel) (hle : low ≤ high) (hhigh : high ≤ xs.size)
    (hlt : ∀ i < low, Vec.entry xs i < bound)
    (hge : ∀ i, high ≤ i → i < xs.size → bound ≤ Vec.entry xs i) :
    Divides xs bound (bisect xs bound fuel low high) := by
  induction fuel generalizing low high with
  | zero => omega
  | succ fuel ih =>
      unfold bisect
      split
      next hopen =>
        dsimp only
        split
        next hmid =>
          refine ih (by omega) (by omega) (by omega) hlt fun i hi hsize => ?_
          exact ((sortsBefore_iff _ _).mp hmid).trans (hmono _ i hi hsize)
        next hmid =>
          refine ih (by omega) (by omega) hhigh (fun i hi => ?_) hge
          have hless := not_le.mp (mt (sortsBefore_iff _ _).mpr hmid)
          exact (hmono i _ (by omega) (by omega)).trans_lt hless
      next hclosed =>
        obtain rfl : low = high := by omega
        exact ⟨hhigh, hlt, hge⟩

theorem divides_lowerPosition (xs : Vec K) (bound : K)
    (hmono : ∀ i j, i ≤ j → j < xs.size → Vec.entry xs i ≤ Vec.entry xs j) :
    Divides xs bound (lowerPosition xs bound) :=
  divides_bisect hmono (by omega) (Nat.zero_le _) le_rfl (by omega) (by omega)

/-! ## Cumulated weights -/

theorem getElem?_cumulated (start : K) (weights : List K) (i : ℕ) :
    (cumulated start weights)[i]? =
      if i < weights.length then some (start + (weights.take (i + 1)).sum) else none := by
  induction weights generalizing start i with
  | nil => rfl
  | cons w weights ih =>
      cases i with
      | zero => simp [cumulated]
      | succ i => simp [cumulated, ih, add_assoc]

theorem entry_cumulated {weights : List K} {i : ℕ} (hi : i < weights.length) :
    Vec.entry (cumulated 0 weights).toArray i = (weights.take (i + 1)).sum := by
  rw [Vec.entry, Array.getD_eq_getD_getElem?, List.getElem?_toArray, getElem?_cumulated, if_pos hi,
    Option.getD_some, zero_add]

theorem sum_take_le {weights : List K} (hweights : ∀ w ∈ weights, 0 ≤ w) {i j : ℕ} (hij : i ≤ j) :
    (weights.take i).sum ≤ (weights.take j).sum := by
  obtain ⟨k, rfl⟩ := Nat.exists_eq_add_of_le hij
  rw [List.take_add, List.sum_append]
  refine le_add_of_nonneg_right (List.sum_nonneg fun w hw => hweights w ?_)
  exact List.mem_of_mem_drop (List.mem_of_mem_take hw)

/-- Before the position found less than half of the weight is reached, and with it half. -/
theorem weightedPosition_spec {weights : List K} (hne : weights ≠ [])
    (hweights : ∀ w ∈ weights, 0 ≤ w) :
    weightedPosition weights < weights.length ∧
      (∀ i < weightedPosition weights, (weights.take (i + 1)).sum < weights.sum / 2) ∧
      weights.sum / 2 ≤ (weights.take (weightedPosition weights + 1)).sum := by
  have hpos : 0 < weights.length := List.length_pos_iff.mpr hne
  have hsize : (cumulated 0 weights).toArray.size = weights.length := length_cumulated 0 weights
  have hlast : Vec.entry (cumulated 0 weights).toArray (weights.length - 1) = weights.sum := by
    rw [entry_cumulated (by omega), Nat.sub_add_cancel hpos, List.take_length]
  have hdivides := divides_lowerPosition (cumulated 0 weights).toArray (weights.sum / 2)
    (fun i j hij hj => by
      rw [hsize] at hj
      rw [entry_cumulated (by omega), entry_cumulated hj]
      exact sum_take_le hweights (by omega))
  have hposition : weightedPosition weights =
      Nat.min (lowerPosition (cumulated 0 weights).toArray (weights.sum / 2))
        (weights.length - 1) := by
    rw [weightedPosition]
    simp only [hsize, hlast, Scalar.half_eq]
  have hhalf : weights.sum / 2 ≤ weights.sum := half_le_self (List.sum_nonneg hweights)
  have hreached : lowerPosition (cumulated 0 weights).toArray (weights.sum / 2) < weights.length := by
    by_contra hbeyond
    have hlow := hdivides.lt (weights.length - 1) (by omega)
    rw [hlast] at hlow
    exact hlow.not_ge hhalf
  have heq : weightedPosition weights =
      lowerPosition (cumulated 0 weights).toArray (weights.sum / 2) := by
    rw [hposition]
    exact min_eq_left (by omega)
  rw [heq]
  refine ⟨hreached, fun i hi => ?_, ?_⟩
  · rw [← entry_cumulated (by omega)]
    exact hdivides.lt i hi
  · rw [← entry_cumulated hreached]
    exact hdivides.le _ le_rfl (hsize ▸ hreached)

/-! ## The least value up to which half of the weight is reached -/

/-- The weight of the indices whose value is at most the given one. -/
def weightUpTo (values weights : Vec K) (idx : List ℕ) (c : K) : K :=
  (idx.map fun i => if Vec.entry values i ≤ c then Vec.entry weights i else 0).sum

/-- The value of an index up to which half of the weight is reached, but not before. -/
structure IsWeightedMedian (values weights : Vec K) (idx : List ℕ) (m : K) : Prop where
  mem : ∃ i ∈ idx, Vec.entry values i = m
  half_le : (idx.map (Vec.entry weights)).sum / 2 ≤ weightUpTo values weights idx m
  lt_half : ∀ i ∈ idx, Vec.entry values i < m →
    weightUpTo values weights idx (Vec.entry values i) < (idx.map (Vec.entry weights)).sum / 2

variable {values weights values' weights' : Vec K} {idx idx' : List ℕ}

theorem IsWeightedMedian.eq {m m' : K} (h : IsWeightedMedian values weights idx m)
    (h' : IsWeightedMedian values weights idx m') : m = m' := by
  have hle : ∀ {a b : K}, IsWeightedMedian values weights idx a →
      IsWeightedMedian values weights idx b → ¬a < b := by
    intro a b ha hb hlt
    obtain ⟨i, hi, rfl⟩ := ha.mem
    exact (hb.lt_half i hi hlt).not_ge ha.half_le
  exact le_antisymm (not_lt.mp (hle h' h)) (not_lt.mp (hle h h'))

section WeightUpTo

variable {c : K} {l l' : List ℕ}

theorem weightUpTo_append (c : K) :
    weightUpTo values weights (l ++ l') c =
      weightUpTo values weights l c + weightUpTo values weights l' c := by
  rw [weightUpTo, List.map_append, List.sum_append]
  rfl

theorem weightUpTo_of_le (h : ∀ i ∈ l, Vec.entry values i ≤ c) :
    weightUpTo values weights l c = (l.map (Vec.entry weights)).sum :=
  congrArg List.sum (List.map_congr_left fun i hi => if_pos (h i hi))

theorem weightUpTo_of_lt (h : ∀ i ∈ l, c < Vec.entry values i) :
    weightUpTo values weights l c = 0 := by
  refine List.sum_eq_zero fun w hw => ?_
  obtain ⟨i, hi, rfl⟩ := List.mem_map.mp hw
  exact if_neg (not_le.mpr (h i hi))

theorem weightUpTo_nonneg (h : ∀ i ∈ l, 0 ≤ Vec.entry weights i) :
    0 ≤ weightUpTo values weights l c := by
  refine List.sum_nonneg fun w hw => ?_
  obtain ⟨i, hi, rfl⟩ := List.mem_map.mp hw
  split
  next => exact h i hi
  next => exact le_rfl

theorem weightUpTo_le_sum (h : ∀ i ∈ l, 0 ≤ Vec.entry weights i) :
    weightUpTo values weights l c ≤ (l.map (Vec.entry weights)).sum := by
  refine List.sum_le_sum fun i hi => ?_
  split
  next => exact le_rfl
  next => exact h i hi

end WeightUpTo

/-- In a sorted list the values before a position are at most those from there on. -/
theorem IsSorted.le_of_take_of_drop (h : IsSorted values idx) (k : ℕ) {i j : ℕ}
    (hi : i ∈ idx.take k) (hj : j ∈ idx.drop k) : Vec.entry values i ≤ Vec.entry values j := by
  rw [IsSorted, ← List.take_append_drop k idx] at h
  exact (sortsBefore_iff _ _).mp ((List.pairwise_append.mp h).2.2 i hi j hj)

/-- In a sorted list the value at a position is the least one from there on. -/
theorem IsSorted.getElem_le_of_drop (h : IsSorted values idx) {p : ℕ} (hp : p < idx.length) {j : ℕ}
    (hj : j ∈ idx.drop p) : Vec.entry values idx[p] ≤ Vec.entry values j := by
  rw [List.drop_eq_getElem_cons hp, List.mem_cons] at hj
  rcases hj with rfl | hj
  · exact le_rfl
  · refine h.le_of_take_of_drop (p + 1) ?_ hj
    rw [List.take_succ_eq_append_getElem hp]
    exact List.mem_append_right _ List.mem_cons_self

/-- In a sorted list the value at a position is the greatest one up to there. -/
theorem IsSorted.le_getElem_of_take (h : IsSorted values idx) {p : ℕ} (hp : p < idx.length) {i : ℕ}
    (hi : i ∈ idx.take (p + 1)) : Vec.entry values i ≤ Vec.entry values idx[p] := by
  rw [List.take_succ_eq_append_getElem hp, List.mem_append, List.mem_singleton] at hi
  rcases hi with hi | rfl
  · refine h.le_of_take_of_drop p hi ?_
    rw [List.drop_eq_getElem_cons hp]
    exact List.mem_cons_self
  · exact le_rfl

/-- The value at the position found in a sorted list. -/
theorem IsSorted.isWeightedMedian (h : IsSorted values idx) (hne : idx ≠ [])
    (hweights : ∀ i ∈ idx, 0 ≤ Vec.entry weights i) :
    IsWeightedMedian values weights idx (ofSorted values (some weights) idx) := by
  have hnonneg : ∀ w ∈ idx.map (Vec.entry weights), 0 ≤ w := by
    intro w hw
    obtain ⟨i, hi, rfl⟩ := List.mem_map.mp hw
    exact hweights i hi
  obtain ⟨hlt, hbefore, hreached⟩ := weightedPosition_spec (by simpa using hne) hnonneg
  set p := weightedPosition (idx.map (Vec.entry weights)) with hp
  rw [List.length_map] at hlt
  have hmedian : ofSorted values (some weights) idx = Vec.entry values idx[p] := by
    rw [ofSorted, position, ← hp, List.getD_eq_getElem _ _ hlt]
  have hsplit (k : ℕ) (c : K) : weightUpTo values weights idx c =
      weightUpTo values weights (idx.take k) c + weightUpTo values weights (idx.drop k) c := by
    rw [← weightUpTo_append, List.take_append_drop]
  rw [hmedian]
  refine ⟨⟨_, List.getElem_mem hlt, rfl⟩, ?_, fun i hi hless => ?_⟩
  · -- all indices up to the position have values that are not larger
    rw [hsplit (p + 1), weightUpTo_of_le fun i hi => h.le_getElem_of_take hlt hi, List.map_take]
    exact hreached.trans (le_add_of_nonneg_right
      (weightUpTo_nonneg fun j hj => hweights j (List.mem_of_mem_drop hj)))
  · -- a smaller value stands before the position, and no index from there on has a value so small
    have hpositive : 0 < p := by
      refine Nat.pos_of_ne_zero fun hzero => hless.not_ge (h.getElem_le_of_drop hlt ?_)
      rw [hzero, List.drop_zero]
      exact hi
    have hbefore' := hbefore (p - 1) (by omega)
    rw [Nat.sub_add_cancel hpositive, ← List.map_take] at hbefore'
    rw [hsplit p, weightUpTo_of_lt fun j hj => hless.trans_le (h.getElem_le_of_drop hlt hj), add_zero]
    exact (weightUpTo_le_sum fun j hj => hweights j (List.mem_of_mem_take hj)).trans_lt hbefore'

/-! ## The value in the middle -/

/-- The value of an index, such that at most half of the values are smaller and more than half are
not larger. -/
structure IsMiddle (values : Vec K) (idx : List ℕ) (m : K) : Prop where
  mem : ∃ i ∈ idx, Vec.entry values i = m
  smaller_le : 2 * idx.countP (fun i => Vec.entry values i < m) ≤ idx.length
  lt_upTo : idx.length < 2 * idx.countP fun i => Vec.entry values i ≤ m

theorem IsMiddle.eq {m m' : K} (h : IsMiddle values idx m) (h' : IsMiddle values idx m') :
    m = m' := by
  have hle : ∀ {a b : K}, IsMiddle values idx a → IsMiddle values idx b → ¬a < b := by
    intro a b ha hb hlt
    have hcount : idx.countP (fun i => Vec.entry values i ≤ a) ≤
        idx.countP fun i => Vec.entry values i < b := by
      apply List.countP_mono_left
      intro i _ hi
      rw [decide_eq_true_eq] at hi ⊢
      exact hi.trans_lt hlt
    have hupTo := ha.lt_upTo
    have hsmaller := hb.smaller_le
    omega
  exact le_antisymm (not_lt.mp (hle h' h)) (not_lt.mp (hle h h'))

theorem IsMiddle.perm {m : K} (h : IsMiddle values idx m) (hperm : idx'.Perm idx) :
    IsMiddle values idx' m where
  mem := by
    obtain ⟨i, hi, hvalue⟩ := h.mem
    exact ⟨i, hperm.mem_iff.mpr hi, hvalue⟩
  smaller_le := by
    rw [hperm.countP_eq, hperm.length_eq]
    exact h.smaller_le
  lt_upTo := by
    rw [hperm.countP_eq, hperm.length_eq]
    exact h.lt_upTo

/-- The value at the middle position of a sorted list. -/
theorem IsSorted.isMiddle (h : IsSorted values idx) (hne : idx ≠ []) :
    IsMiddle values idx (ofSorted values none idx) := by
  have hlt : idx.length / 2 < idx.length :=
    Nat.div_lt_self (List.length_pos_iff.mpr hne) one_lt_two
  have hmedian : ofSorted values none idx = Vec.entry values idx[idx.length / 2] := by
    rw [ofSorted, position, List.getD_eq_getElem _ _ hlt]
  have hsplit (k : ℕ) (p : ℕ → Bool) :
      idx.countP p = (idx.take k).countP p + (idx.drop k).countP p := by
    rw [← List.countP_append, List.take_append_drop]
  rw [hmedian]
  refine ⟨⟨_, List.getElem_mem hlt, rfl⟩, ?_, ?_⟩
  · -- no value from the position on is smaller
    have hdrop : (idx.drop (idx.length / 2)).countP
        (fun i => Vec.entry values i < Vec.entry values idx[idx.length / 2]) = 0 := by
      rw [List.countP_eq_zero]
      intro j hj
      rw [decide_eq_true_eq]
      exact (h.getElem_le_of_drop hlt hj).not_gt
    have htake := (idx.take (idx.length / 2)).countP_le_length
      (p := fun i => Vec.entry values i < Vec.entry values idx[idx.length / 2])
    rw [List.length_take] at htake
    rw [hsplit (idx.length / 2), hdrop]
    omega
  · -- all values up to the position are not larger
    have htake : (idx.take (idx.length / 2 + 1)).countP
        (fun i => Vec.entry values i ≤ Vec.entry values idx[idx.length / 2]) =
          (idx.take (idx.length / 2 + 1)).length := by
      rw [List.countP_eq_length]
      intro i hi
      rw [decide_eq_true_eq]
      exact h.le_getElem_of_take hlt hi
    rw [hsplit (idx.length / 2 + 1), htake, List.length_take]
    omega

/-- The median of the values of the indices, with or without weights. -/
def IsMedian (values : Vec K) (chosen : Option (Vec K)) (idx : List ℕ) (m : K) : Prop :=
  match chosen with
  | none => IsMiddle values idx m
  | some weights => IsWeightedMedian values weights idx m

theorem IsMedian.mem {chosen : Option (Vec K)} {m : K} (h : IsMedian values chosen idx m) :
    ∃ i ∈ idx, Vec.entry values i = m := by
  cases chosen with
  | none => exact IsMiddle.mem h
  | some weights => exact IsWeightedMedian.mem h

theorem IsMedian.eq {chosen : Option (Vec K)} {m m' : K} (h : IsMedian values chosen idx m)
    (h' : IsMedian values chosen idx m') : m = m' := by
  cases chosen with
  | none => exact IsMiddle.eq h h'
  | some weights => exact IsWeightedMedian.eq h h'

/-! ## Other names and another order -/

section Renaming

variable {π : Equiv.Perm ℕ} (hperm : idx'.Perm (idx.map π))
  (hvalues : ∀ i ∈ idx, Vec.entry values' (π i) = Vec.entry values i)

include hperm

/-- A sum over the indices does not depend on their names and their order. -/
theorem sum_map_renames {f f' : ℕ → K} (hf : ∀ i ∈ idx, f' (π i) = f i) :
    (idx'.map f').sum = (idx.map f).sum := by
  rw [(hperm.map f').sum_eq, List.map_map]
  exact congrArg List.sum (List.map_congr_left hf)

include hvalues

theorem IsWeightedMedian.renames {m : K} (h : IsWeightedMedian values weights idx m)
    (hweights : ∀ i ∈ idx, Vec.entry weights' (π i) = Vec.entry weights i) :
    IsWeightedMedian values' weights' idx' m := by
  have htotal := sum_map_renames hperm hweights
  have hupTo : ∀ c, weightUpTo values' weights' idx' c = weightUpTo values weights idx c :=
    fun c => sum_map_renames hperm fun i hi => by rw [hvalues i hi, hweights i hi]
  refine ⟨?_, ?_, fun j hj hless => ?_⟩
  · obtain ⟨i, hi, rfl⟩ := h.mem
    exact ⟨π i, hperm.mem_iff.mpr (List.mem_map.mpr ⟨i, hi, rfl⟩), hvalues i hi⟩
  · rw [htotal, hupTo]
    exact h.half_le
  · obtain ⟨i, hi, rfl⟩ := List.mem_map.mp (hperm.mem_iff.mp hj)
    rw [hvalues i hi] at hless ⊢
    rw [htotal, hupTo]
    exact h.lt_half i hi hless

/-- The values of the indices in increasing order are the same. -/
theorem map_eq_of_isSorted (h : IsSorted values idx) (h' : IsSorted values' idx') :
    idx'.map (Vec.entry values') = idx.map (Vec.entry values) := by
  have hvaluesPerm : (idx'.map (Vec.entry values')).Perm (idx.map (Vec.entry values)) := by
    refine (hperm.map _).trans ?_
    rw [List.map_map]
    exact .of_eq (List.map_congr_left hvalues)
  have hle : ∀ {v : Vec K} {xs : List ℕ}, IsSorted v xs →
      (xs.map (Vec.entry v)).Pairwise (· ≤ ·) := by
    intro v xs hsorted
    exact List.pairwise_map.mpr (hsorted.imp fun hij => (sortsBefore_iff _ _).mp hij)
  exact hvaluesPerm.eq_of_pairwise (fun _ _ _ _ => le_antisymm) (hle h') (hle h)

/-- Medians that are read off sorted lists of the same indices are equal. -/
theorem ofSorted_renames {chosen chosen' : Option (Vec K)} (hne : idx ≠ [])
    (hchosen : Option.Rel (fun w w' => ∀ i ∈ idx, 0 ≤ Vec.entry w i ∧
      Vec.entry w' (π i) = Vec.entry w i) chosen chosen')
    (h : IsSorted values idx) (h' : IsSorted values' idx') :
    ofSorted values' chosen' idx' = ofSorted values chosen idx := by
  have hlength : idx'.length = idx.length := by rw [hperm.length_eq, List.length_map]
  cases hchosen with
  | none =>
      have hmap := map_eq_of_isSorted hperm hvalues h h'
      have hlt : idx.length / 2 < idx.length :=
        Nat.div_lt_self (List.length_pos_iff.mpr hne) one_lt_two
      have hlt' : idx.length / 2 < idx'.length := hlength.symm ▸ hlt
      rw [ofSorted, ofSorted, position, position, hlength, List.getD_eq_getElem _ _ hlt,
        List.getD_eq_getElem _ _ hlt']
      have hget := congrArg (·[idx.length / 2]?) hmap
      simpa [hlt, hlt'] using hget
  | some hweights =>
      have hne' : idx' ≠ [] := by
        rw [← List.length_pos_iff, hlength]
        exact List.length_pos_iff.mpr hne
      refine (h'.isWeightedMedian hne' fun j hj => ?_).eq
        ((h.isWeightedMedian hne fun i hi => (hweights i hi).1).renames hperm hvalues
          fun i hi => (hweights i hi).2)
      obtain ⟨i, hi, rfl⟩ := List.mem_map.mp (hperm.mem_iff.mp hj)
      rw [(hweights i hi).2]
      exact (hweights i hi).1

/-- The median that is selected does not depend on the names and the order of the indices. -/
theorem select_renames {chosen chosen' : Option (Vec K)} (hne : idx ≠ [])
    (hchosen : Option.Rel (fun w w' => ∀ i ∈ idx, 0 ≤ Vec.entry w i ∧
      Vec.entry w' (π i) = Vec.entry w i) chosen chosen') :
    (select values' chosen' idx').1 = (select values chosen idx).1 := by
  have hsorts := sortsTotally_of_exactField K
  have hsort := sortByValue_perm values idx
  have hsort' := sortByValue_perm values' idx'
  have hchosen' : Option.Rel (fun w w' => ∀ i ∈ sortByValue values idx, 0 ≤ Vec.entry w i ∧
      Vec.entry w' (π i) = Vec.entry w i) chosen chosen' := by
    cases hchosen with
    | none => exact .none
    | some hweights => exact .some fun i hi => hweights i (hsort.mem_iff.mp hi)
  refine ofSorted_renames ((hsort'.trans hperm).trans (hsort.symm.map π))
    (fun i hi => hvalues i (hsort.mem_iff.mp hi)) (fun hnil => hne ?_) hchosen'
    (isSorted_sortByValue hsorts values idx) (isSorted_sortByValue hsorts values' idx')
  exact List.nil_perm.mp (hnil ▸ hsort)

end Renaming

theorem IsMedian.perm {chosen : Option (Vec K)} {m : K} (h : IsMedian values chosen idx m)
    (hperm : idx'.Perm idx) : IsMedian values chosen idx' m := by
  cases chosen with
  | none => exact IsMiddle.perm h hperm
  | some w =>
      have hnames : idx'.Perm (idx.map (Equiv.refl ℕ)) := hperm.trans (.of_eq (List.map_id _).symm)
      exact IsWeightedMedian.renames hnames (fun _ _ => rfl) h fun _ _ => rfl

/-- What is selected is the median, in whatever order the indices are given. -/
theorem isMedian_select {chosen : Option (Vec K)} (hne : idx ≠ [])
    (hweights : ∀ w, chosen = some w → ∀ i ∈ idx, 0 ≤ Vec.entry w i) :
    IsMedian values chosen idx (select values chosen idx).1 := by
  have hperm := sortByValue_perm values idx
  have hsorted := isSorted_sortByValue (sortsTotally_of_exactField K) values idx
  have hne' : sortByValue values idx ≠ [] := fun hnil => hne (List.nil_perm.mp (hnil ▸ hperm))
  have hmedian : IsMedian values chosen (sortByValue values idx) (select values chosen idx).1 := by
    cases chosen with
    | none => exact hsorted.isMiddle hne'
    | some w => exact hsorted.isWeightedMedian hne' fun i hi => hweights w rfl i (hperm.mem_iff.mp hi)
  exact hmedian.perm hperm.symm

end TotalVariation.Median
