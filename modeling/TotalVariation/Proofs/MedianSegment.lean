import Mathlib
import TotalVariation.Proofs.Failure
import TotalVariation.Proofs.MedianOrder
import TotalVariation.Proofs.Partition.Arena

/-! # Selecting inside an arena

A median is selected from a segment of a larger arena of indices, of which negative ones count from
the end. The segment is left sorted by value, equal values in their former order, and the arena
outside it as it was. What is selected does not depend on the order of the segment, so selecting
again changes nothing, and the median can be read off.
-/

namespace TotalVariation

namespace Median

/-! ## Checked indices -/

section Places

variable {α : Type} {values : Vec α} {weights : Option (Vec α)} {idx : List ℤ}

/-- The position that an index names among the values, the first one if it names none. -/
def place (values : Vec α) (i : ℤ) : ℕ := (position? values.size i).getD 0

/-- Every index names a position of the values, and the same position of the weights. -/
def NamesPlaces (values : Vec α) (weights : Option (Vec α)) (idx : List ℤ) : Prop :=
  ∀ i ∈ idx, position? values.size i = some (place values i) ∧
    ∀ w ∈ weights, position? w.size i = some (place values i)

theorem NamesPlaces.perm {idx' : List ℤ} (h : NamesPlaces values weights idx)
    (hperm : idx'.Perm idx) : NamesPlaces values weights idx' :=
  fun i hi => h i (hperm.mem_iff.mp hi)

theorem positions?_eq_ok {n : ℕ} {p : ℤ → ℕ} (h : ∀ i ∈ idx, position? n i = some (p i)) :
    positions? (α := α) n idx = .ok (idx.map p) := by
  refine mapM_map_eq_ok fun i hi => ?_
  rw [h i hi]
  rfl

variable [Scalar α]

/-- The value that an index selects. -/
def valueOf (values : Vec α) (i : ℤ) : α := Vec.entry values (place values i)

/-- Reading off the median at checked indices is reading it off at the positions they name. -/
theorem ofSorted?_eq_ok (hne : idx ≠ []) (h : NamesPlaces values weights idx) :
    ofSorted? values weights idx = .ok (ofSorted values weights (idx.map (place values))) := by
  have hempty : idx.isEmpty = false := List.isEmpty_eq_false_iff.mpr hne
  have hpos : 0 < idx.length := List.length_pos_iff.mpr hne
  have hread : ∀ k < idx.length, position? values.size (idx.getD k 0) =
      some ((idx.map (place values)).getD k 0) := by
    intro k hk
    rw [List.getD_eq_getElem _ _ hk, List.getD_eq_getElem _ _ (by rwa [List.length_map]),
      List.getElem_map]
    exact (h _ (List.getElem_mem hk)).1
  unfold ofSorted?
  rw [hempty]
  cases weights with
  | none =>
      have hmiddle := hread _ (Nat.div_lt_self hpos one_lt_two)
      rw [ofSorted, position, List.length_map]
      simp only [hmiddle]
      rfl
  | some w =>
      have hplaces := positions?_eq_ok (α := α) fun i hi => (h i hi).2 w rfl
      have hle : weightedPosition ((idx.map (place values)).map (Vec.entry w)) ≤
          ((idx.map (place values)).map (Vec.entry w)).length - 1 := Nat.min_le_right _ _
      rw [List.length_map, List.length_map] at hle
      have hchosen := hread (weightedPosition ((idx.map (place values)).map (Vec.entry w))) (by omega)
      rw [ofSorted, position]
      simp only [hplaces, Bool.false_eq_true, if_false, ok_bind, hchosen]
      rfl

/-- The indices sorted by the values they select, equal values in their former order. -/
def sortIndices (values : Vec α) (idx : List ℤ) : List ℤ :=
  idx.mergeSort fun i j => Scalar.sortsBefore (valueOf values i) (valueOf values j)

theorem sortIndices_perm (values : Vec α) (idx : List ℤ) : (sortIndices values idx).Perm idx :=
  List.mergeSort_perm _ _

theorem sortIndices_ne_nil (hne : idx ≠ []) : sortIndices values idx ≠ [] :=
  fun hnil => hne (List.nil_perm.mp (hnil ▸ sortIndices_perm values idx))

/-- Sorting indices sorts the positions they name. -/
theorem map_place_sortIndices (values : Vec α) (idx : List ℤ) :
    (sortIndices values idx).map (place values) = sortByValue values (idx.map (place values)) :=
  List.map_mergeSort fun _ _ _ _ => rfl

/-- Selecting from checked indices is selecting from the positions they name. -/
theorem select?_eq_ok (hne : idx ≠ []) (h : NamesPlaces values weights idx) :
    select? values weights idx =
      .ok ((select values weights (idx.map (place values))).1, sortIndices values idx) := by
  have hempty : idx.isEmpty = false := List.isEmpty_eq_false_iff.mpr hne
  have hplaces := positions?_eq_ok (α := α) fun i hi => (h i hi).1
  have hkeyed : ((idx.zip (idx.map (place values))).mergeSort fun a b =>
        Scalar.sortsBefore (Vec.entry values a.2) (Vec.entry values b.2)).map (·.1) =
      sortIndices values idx := by
    rw [← List.map_prod_left_eq_zip, sortIndices,
      ← List.map_mergeSort (f := fun i => (i, place values i)) (fun _ _ _ _ => rfl), List.map_map]
    exact List.map_id _
  have hmedian := ofSorted?_eq_ok (sortIndices_ne_nil hne) (h.perm (sortIndices_perm values idx))
  unfold select?
  rw [hempty]
  simp only [hplaces, Bool.false_eq_true, if_false, ok_bind, hkeyed, hmedian,
    map_place_sortIndices]
  rfl

end Places

/-! ## Sorted indices -/

section Exact

variable {K : Type} [ExactField K] {values : Vec K} {weights : Option (Vec K)} {idx idx' : List ℤ}

theorem pairwise_sortIndices (values : Vec K) (idx : List ℤ) :
    (sortIndices values idx).Pairwise fun i j => valueOf values i ≤ valueOf values j := by
  have hsorts := sortsTotally_of_exactField K
  refine (List.pairwise_mergeSort
    (fun i j k => hsorts.trans (valueOf values i) (valueOf values j) (valueOf values k))
    (fun i j => hsorts.total (valueOf values i) (valueOf values j)) idx).imp ?_
  exact fun h => (sortsBefore_iff _ _).mp h

/-- Sorting does not move sorted indices. -/
theorem sortIndices_sortIndices (values : Vec K) (idx : List ℤ) :
    sortIndices values (sortIndices values idx) = sortIndices values idx :=
  List.mergeSort_of_pairwise
    ((pairwise_sortIndices values idx).imp fun h => (sortsBefore_iff _ _).mpr h)

/-- The indices of one value keep their order. -/
theorem filter_sortIndices (values : Vec K) (idx : List ℤ) (c : K) :
    (sortIndices values idx).filter (fun i => valueOf values i = c) =
      idx.filter fun i => valueOf values i = c := by
  have hsorts := sortsTotally_of_exactField K
  have hties : (idx.filter fun i => valueOf values i = c).Pairwise fun i j =>
      Scalar.sortsBefore (valueOf values i) (valueOf values j) = true := by
    refine List.pairwise_of_forall_mem_list fun i hi j hj => (sortsBefore_iff _ _).mpr ?_
    have hvalue : ∀ k ∈ idx.filter (fun i => valueOf values i = c), valueOf values k = c :=
      fun k hk => of_decide_eq_true (List.mem_filter.mp hk).2
    rw [hvalue i hi, hvalue j hj]
  -- a sorted sublist is a sublist of the sorted list
  have hsublist := List.sublist_mergeSort
    (fun i j k => hsorts.trans (valueOf values i) (valueOf values j) (valueOf values k))
    (fun i j => hsorts.total (valueOf values i) (valueOf values j)) hties List.filter_sublist
  have hfiltered := hsublist.filter fun i => valueOf values i = c
  rw [List.filter_filter] at hfiltered
  simp only [Bool.and_self] at hfiltered
  exact (hfiltered.eq_of_length
    ((sortIndices_perm values idx).filter _).length_eq.symm).symm

/-- The order of the indices does not count. -/
theorem select_place_perm (hne : idx ≠ []) (hperm : idx'.Perm idx)
    (hweights : ∀ w ∈ weights, ∀ i < w.size, 0 ≤ Vec.entry w i) :
    (select values weights (idx'.map (place values))).1 =
      (select values weights (idx.map (place values))).1 := by
  have hnonneg : ∀ w ∈ weights, ∀ i, 0 ≤ Vec.entry w i := by
    intro w hw i
    by_cases hi : i < w.size
    · exact hweights w hw i hi
    · exact (Vec.entry_eq_zero hi).ge
  have hplaces : (idx'.map (place values)).Perm (idx.map (place values)) := hperm.map _
  have hne' : idx'.map (place values) ≠ [] := by
    rintro hnil
    exact hne (List.nil_perm.mp (List.map_eq_nil_iff.mp hnil ▸ hperm))
  have hmedian : IsMedian values weights (idx.map (place values)) _ :=
    isMedian_select (by simpa using hne) fun w hw i _ => hnonneg w hw i
  have hmedian' : IsMedian values weights (idx'.map (place values)) _ :=
    isMedian_select hne' fun w hw i _ => hnonneg w hw i
  exact (hmedian'.perm hplaces.symm).eq hmedian

end Exact

/-! ## Segments of an arena -/

section Arena

variable {β : Type} {arena entries : List β} {start count : ℕ}

/-- The segment of an arena that starts at a position and has so many entries. -/
def segmentAt (arena : List β) (start count : ℕ) : List β := (arena.drop start).take count

/-- An arena with other entries written over the segment that starts at a position. -/
def overwrite (arena : List β) (start : ℕ) (entries : List β) : List β :=
  arena.take start ++ entries ++ arena.drop (start + entries.length)

theorem length_segmentAt (hinside : start + count ≤ arena.length) :
    (segmentAt arena start count).length = count := by
  rw [segmentAt, List.length_take, List.length_drop]
  omega

theorem segmentAt_overwrite (hinside : start ≤ arena.length) :
    segmentAt (overwrite arena start entries) start entries.length = entries := by
  have hlength : (arena.take start).length = start := List.length_take_of_le hinside
  rw [segmentAt, overwrite, List.append_assoc, List.drop_append_of_le_length hlength.ge,
    List.drop_of_length_le hlength.le, List.nil_append, List.take_left]

/-- Writing a segment back changes nothing. -/
theorem overwrite_segmentAt (hinside : start + count ≤ arena.length) :
    overwrite arena start (segmentAt arena start count) = arena := by
  rw [overwrite, length_segmentAt hinside, segmentAt, List.append_assoc, ← List.drop_drop,
    List.take_append_drop, List.take_append_drop]

/-- Writing the same entries twice is writing them once. -/
theorem overwrite_overwrite (hinside : start + entries.length ≤ arena.length) :
    overwrite (overwrite arena start entries) start entries = overwrite arena start entries := by
  have hlength : start + entries.length ≤ (overwrite arena start entries).length := by
    simp only [overwrite, List.length_append, List.length_take, List.length_drop]
    omega
  have hback := overwrite_segmentAt hlength
  rwa [segmentAt_overwrite (by omega)] at hback

/-- Outside the segment an arena stays as it was. -/
theorem getElem?_overwrite (hinside : start + entries.length ≤ arena.length) {k : ℕ}
    (hk : k < start ∨ start + entries.length ≤ k) : (overwrite arena start entries)[k]? = arena[k]? := by
  have hlength : (arena.take start).length = start := List.length_take_of_le (by omega)
  rw [overwrite, List.append_assoc]
  rcases hk with hk | hk
  · rw [List.getElem?_append_left (by omega), List.getElem?_take_of_lt hk]
  · rw [List.getElem?_append_right (by omega), List.getElem?_append_right (by omega),
      List.getElem?_drop]
    congr 1
    omega

end Arena

section Within

variable {α : Type} [Scalar α] {values : Vec α} {weights : Option (Vec α)}

/-- Select the median of a segment of an arena. The segment is left as the selection leaves it. -/
def selectWithin? (values : Vec α) (weights : Option (Vec α)) (arena : List ℤ) (start count : ℕ) :
    Except (Failure α) (α × List ℤ) := do
  let (m, order) ← select? values weights (segmentAt arena start count)
  pure (m, overwrite arena start order)

theorem selectWithin?_eq_ok {arena : List ℤ} {start count : ℕ}
    (hne : segmentAt arena start count ≠ [])
    (hplaces : NamesPlaces values weights (segmentAt arena start count)) :
    selectWithin? values weights arena start count =
      .ok ((select values weights ((segmentAt arena start count).map (place values))).1,
        overwrite arena start (sortIndices values (segmentAt arena start count))) := by
  rw [selectWithin?, select?_eq_ok hne hplaces]
  rfl

/-! ## Regions of a partition -/

variable {vertices : List ℕ}

omit [Scalar α] in
theorem place_ofNat {v : ℕ} (hv : v < values.size) : place values (Int.ofNat v) = v := by
  rw [place, position?_ofNat hv, Option.getD_some]

omit [Scalar α] in
theorem namesPlaces_map_ofNat
    (h : ∀ v ∈ vertices, v < values.size ∧ ∀ w ∈ weights, v < w.size) :
    NamesPlaces values weights (vertices.map Int.ofNat) := by
  intro i hi
  obtain ⟨v, hv, rfl⟩ := List.mem_map.mp hi
  obtain ⟨hvalue, hweight⟩ := h v hv
  rw [place_ofNat hvalue]
  exact ⟨position?_ofNat hvalue, fun w hw => position?_ofNat (hweight w hw)⟩

omit [Scalar α] in
theorem map_place_map_ofNat (h : ∀ v ∈ vertices, v < values.size) :
    (vertices.map Int.ofNat).map (place values) = vertices := by
  rw [List.map_map]
  exact (List.map_congr_left fun v hv => place_ofNat (h v hv)).trans (List.map_id vertices)

theorem sortIndices_map_ofNat (h : ∀ v ∈ vertices, v < values.size) :
    sortIndices values (vertices.map Int.ofNat) = (sortByValue values vertices).map Int.ofNat := by
  refine (List.map_mergeSort fun v hv u hu => ?_).symm
  rw [valueOf, valueOf, place_ofNat (h v hv), place_ofNat (h u hu)]

omit [Scalar α] in
/-- Vertices of a region in another order are written over its segment of the arena. -/
theorem arena_setRegion (P : Partition α) {r : ℕ} (hr : r < P.regionCount) {order : List ℕ}
    (hlength : order.length = P.sizeOf r) :
    (P.setRegion r order).arena = overwrite P.arena (P.offsets.getD r 0) order := by
  have hset : P.regions.set r order = P.regions.take r ++ order :: P.regions.drop (r + 1) := by
    have hr' : r < P.regions.length := hr
    rw [List.set_eq_take_append_cons_drop, if_pos hr']
  have harena : (P.setRegion r order).arena =
      (P.regions.take r).flatten ++ (order ++ (P.regions.drop (r + 1)).flatten) := by
    rw [Partition.arena, Partition.setRegion, hset, List.flatten_append, List.flatten_cons]
  have hbehind : P.arena.drop ((P.regions.take r).flatten.length + order.length) =
      (P.regions.drop (r + 1)).flatten := by
    rw [hlength, Partition.sizeOf, ← List.drop_drop, P.arena_eq_append hr, List.drop_left,
      List.drop_left]
  rw [overwrite, P.offsets_getD_eq_length hr.le, hbehind, P.arena_eq_append hr, List.take_left,
    harena, List.append_assoc]

/-- A solver that leaves the vertices of a region as a selection does selects within its arena. -/
theorem selectWithin?_arena (P : Partition α) {r : ℕ} (hr : r < P.regionCount)
    (hne : P.region r ≠ [])
    (h : ∀ v ∈ P.region r, v < values.size ∧ ∀ w ∈ weights, v < w.size) :
    selectWithin? values weights (P.arena.map Int.ofNat) (P.offsets.getD r 0) (P.sizeOf r) =
      .ok ((select values weights (P.region r)).1,
        (P.setRegion r (select values weights (P.region r)).2).arena.map Int.ofNat) := by
  have hvalues : ∀ v ∈ P.region r, v < values.size := fun v hv => (h v hv).1
  have hsegment : segmentAt (P.arena.map Int.ofNat) (P.offsets.getD r 0) (P.sizeOf r) =
      (P.region r).map Int.ofNat := by
    rw [segmentAt, ← List.map_drop, ← List.map_take, P.offsets_getD_eq_length hr.le,
      P.arena_eq_append hr, List.drop_left, Partition.sizeOf, List.take_left]
  have hlength : (sortByValue values (P.region r)).length = P.sizeOf r :=
    (sortByValue_perm values (P.region r)).length_eq
  have hne' : (P.region r).map Int.ofNat ≠ [] := by simpa using hne
  rw [selectWithin?_eq_ok (hsegment ▸ hne') (hsegment ▸ namesPlaces_map_ofNat h), hsegment,
    map_place_map_ofNat hvalues, sortIndices_map_ofNat hvalues, select,
    arena_setRegion P hr hlength, overwrite, overwrite, List.map_append, List.map_append,
    List.map_take, List.map_drop, List.length_map]

end Within

/-! ## Selecting once and again -/

section Selected

variable {K : Type} [ExactField K] {values : Vec K} {weights : Option (Vec K)} {arena : List ℤ}
  {start count : ℕ}

/-- The segment of an arena was sorted by value, equal values in their former order, and the arena
outside it is as it was. -/
structure SortsSegment (values : Vec K) (arena arena' : List ℤ) (start count : ℕ) : Prop where
  perm : (segmentAt arena' start count).Perm (segmentAt arena start count)
  sorted : (segmentAt arena' start count).Pairwise fun i j => valueOf values i ≤ valueOf values j
  stable : ∀ c, (segmentAt arena' start count).filter (fun i => valueOf values i = c) =
    (segmentAt arena start count).filter fun i => valueOf values i = c
  outside : ∀ k, k < start ∨ start + count ≤ k → arena'[k]? = arena[k]?

/-- The segment that a list of its length was written over is that list. -/
theorem segmentAt_overwrite_of_perm (hinside : start + count ≤ arena.length) {order : List ℤ}
    (hperm : order.Perm (segmentAt arena start count)) :
    segmentAt (overwrite arena start order) start count = order := by
  have hlength : order.length = count := hperm.length_eq.trans (length_segmentAt hinside)
  rw [← hlength]
  exact segmentAt_overwrite (by omega)

theorem sortsSegment_overwrite (hinside : start + count ≤ arena.length) (values : Vec K) :
    SortsSegment values arena
      (overwrite arena start (sortIndices values (segmentAt arena start count))) start count := by
  have hperm := sortIndices_perm values (segmentAt arena start count)
  have hlength := hperm.length_eq.trans (length_segmentAt hinside)
  have hsegment := segmentAt_overwrite_of_perm hinside hperm
  refine ⟨?_, ?_, fun c => ?_, fun k hk => ?_⟩
  · rw [hsegment]
    exact hperm
  · rw [hsegment]
    exact pairwise_sortIndices values _
  · rw [hsegment]
    exact filter_sortIndices values _ c
  · rw [← hlength] at hinside hk
    exact getElem?_overwrite hinside hk

/-- An empty segment has no median. From any other segment the same median is selected in whatever
order its indices stand; the segment is left sorted, so that the median can be read off and
selecting once more changes nothing. -/
theorem selectWithin?_sortsSegment (hinside : start + count ≤ arena.length)
    (hplaces : NamesPlaces values weights (segmentAt arena start count))
    (hweights : ∀ w ∈ weights, ∀ i < w.size, 0 ≤ Vec.entry w i) :
    (count = 0 → selectWithin? values weights arena start count = .error .emptyMedian) ∧
    (0 < count → ∃ m arena', selectWithin? values weights arena start count = .ok (m, arena') ∧
      SortsSegment values arena arena' start count ∧
      ofSorted? values weights (segmentAt arena' start count) = .ok m ∧
      selectWithin? values weights arena' start count = .ok (m, arena') ∧
      ∀ order : List ℤ, order.Perm (segmentAt arena start count) → ∃ arena'',
        selectWithin? values weights (overwrite arena start order) start count =
          .ok (m, arena'')) := by
  constructor
  · rintro rfl
    rw [selectWithin?, segmentAt, List.take_zero]
    rfl
  · intro hcount
    have hlength := length_segmentAt hinside
    have hne : segmentAt arena start count ≠ [] :=
      List.length_pos_iff.mp (hlength.symm ▸ hcount)
    -- selecting from the segment in another order finds the same median
    have horder : ∀ order : List ℤ, order.Perm (segmentAt arena start count) →
        selectWithin? values weights (overwrite arena start order) start count =
          .ok ((select values weights ((segmentAt arena start count).map (place values))).1,
            overwrite (overwrite arena start order) start (sortIndices values order)) := by
      intro order hperm
      have hsegment := segmentAt_overwrite_of_perm hinside hperm
      have hne' : order ≠ [] := fun hnil => hne (List.nil_perm.mp (hnil ▸ hperm))
      rw [selectWithin?_eq_ok (hsegment.symm ▸ hne') (hsegment.symm ▸ hplaces.perm hperm), hsegment,
        select_place_perm hne hperm hweights]
    have hperm := sortIndices_perm values (segmentAt arena start count)
    have hsegment := segmentAt_overwrite_of_perm hinside hperm
    refine ⟨_, _, selectWithin?_eq_ok hne hplaces, sortsSegment_overwrite hinside values, ?_, ?_,
      fun order hperm => ⟨_, horder order hperm⟩⟩
    · rw [hsegment, ofSorted?_eq_ok (sortIndices_ne_nil hne) (hplaces.perm hperm),
        map_place_sortIndices]
      rfl
    · rw [horder _ hperm, sortIndices_sortIndices,
        overwrite_overwrite (by rwa [hperm.length_eq, hlength])]

/-- Five values with ties, one of which has no weight. -/
def tiedValues : Vec ℚ := #[2, 1, 2, 1, 5]

/-- The weights of the tied values. -/
def tiedWeights : Vec ℚ := #[1, 0, 3, 2, 9]

theorem namesPlaces_tied : NamesPlaces tiedValues (some tiedWeights) [2, 1, -5, 3] := by
  have hplaces : ∀ i ∈ ([2, 1, -5, 3] : List ℤ), position? 5 i = some (place tiedValues i) := by
    decide
  rintro i hi
  refine ⟨hplaces i hi, ?_⟩
  rintro _ ⟨⟩
  exact hplaces i hi

theorem selectWithin?_sortsSegment_tied :
    let arena : List ℤ := [4, 2, 1, -5, 3, 4]
    ∃ m arena', selectWithin? tiedValues (some tiedWeights) arena 1 4 = .ok (m, arena') ∧
      SortsSegment tiedValues arena arena' 1 4 ∧
      ofSorted? tiedValues (some tiedWeights) (segmentAt arena' 1 4) = .ok m ∧
      selectWithin? tiedValues (some tiedWeights) arena' 1 4 = .ok (m, arena') ∧
      ∃ arena'', selectWithin? tiedValues (some tiedWeights) (overwrite arena 1 [-5, 3, 2, 1]) 1 4 =
        .ok (m, arena'') := by
  have hweights : ∀ w ∈ some tiedWeights, ∀ i < w.size, 0 ≤ Vec.entry w i := by
    rintro _ ⟨⟩
    change ∀ i < 5, _
    decide +kernel
  have hinside : 1 + 4 ≤ ([4, 2, 1, -5, 3, 4] : List ℤ).length := by decide
  obtain ⟨m, arena', hselect, hsorts, hread, hagain, horder⟩ :=
    (selectWithin?_sortsSegment hinside namesPlaces_tied hweights).2 (by decide)
  exact ⟨m, arena', hselect, hsorts, hread, hagain, horder [-5, 3, 2, 1] (by decide)⟩

end Selected

end Median
end TotalVariation
