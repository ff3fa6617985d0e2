import Mathlib
import TotalVariation.Median
import TotalVariation.Proofs.Numeric.Exact

/-! # Selecting a median once

Selecting a median leaves the indices sorted by value, and selecting from sorted indices moves none
of them. So the median of a list that was selected from before can be read off.
-/

namespace TotalVariation

/-- Sorting by value is sorting: the order is transitive, and of any two values one comes before the
other. Undefined values, which come last, are no exception. -/
structure SortsTotally (α : Type) [Scalar α] : Prop where
  trans (a b c : α) : Scalar.sortsBefore a b = true → Scalar.sortsBefore b c = true →
    Scalar.sortsBefore a c = true
  total (a b : α) : (Scalar.sortsBefore a b || Scalar.sortsBefore b a) = true

/-- Exact values are sorted by their order. -/
theorem sortsTotally_of_exactField (K : Type) [ExactField K] : SortsTotally K := by
  have hle (a b : K) : Scalar.sortsBefore a b = true ↔ a ≤ b := by
    simp [Scalar.sortsBefore, Scalar.isDefined]
  refine ⟨fun a b c hab hbc => ?_, fun a b => ?_⟩
  · rw [hle] at hab hbc ⊢
    exact hab.trans hbc
  · rw [Bool.or_eq_true, hle, hle]
    exact le_total a b

namespace Median

variable {α : Type} [Scalar α] {values : Vec α} {idx : List Nat}

/-- The indices are sorted by the values they select. -/
def IsSorted (values : Vec α) (idx : List Nat) : Prop :=
  idx.Pairwise fun i j => Scalar.sortsBefore (Vec.entry values i) (Vec.entry values j) = true

theorem isSorted_sortByValue (hsorts : SortsTotally α) (values : Vec α) (idx : List Nat) :
    IsSorted values (sortByValue values idx) :=
  List.pairwise_mergeSort
    (fun i j k => hsorts.trans (Vec.entry values i) (Vec.entry values j) (Vec.entry values k))
    (fun i j => hsorts.total (Vec.entry values i) (Vec.entry values j)) idx

/-- Sorting does not move sorted indices, not even those of equal values. -/
theorem IsSorted.sortByValue_eq (h : IsSorted values idx) : sortByValue values idx = idx :=
  List.mergeSort_of_pairwise h

/-- From sorted indices the selected median is the one that can be read off. -/
theorem IsSorted.select_eq (h : IsSorted values idx) (weights : Option (Vec α)) :
    select values weights idx = (ofSorted values weights idx, idx) := by
  unfold select
  rw [h.sortByValue_eq]

/-- Sorting by insertion is stable as well, so it gives the same list. Unlike sorting by merging it
reduces, so that closed selections can be decided. -/
theorem sortByValue_eq_insertionSort (hsorts : SortsTotally α) (values : Vec α) (idx : List Nat) :
    sortByValue values idx = idx.insertionSort fun i j =>
      Scalar.sortsBefore (Vec.entry values i) (Vec.entry values j) = true := by
  induction idx with
  | nil => exact List.mergeSort_nil
  | cons i idx ih =>
      -- Merging places the first index before all others that it does not have to follow.
      obtain ⟨before, after, hcons, hrest, hbefore⟩ := List.mergeSort_cons
        (fun i j k => hsorts.trans (Vec.entry values i) (Vec.entry values j) (Vec.entry values k))
        (fun i j => hsorts.total (Vec.entry values i) (Vec.entry values j)) i idx
      have hsorted := isSorted_sortByValue hsorts values (i :: idx)
      rw [sortByValue, hcons] at hsorted ⊢
      rw [List.insertionSort_cons, ← ih, sortByValue, hrest, List.orderedInsert_eq_take_drop,
        List.takeWhile_append_of_pos, List.dropWhile_append_of_pos]
      · cases after with
        | nil => simp
        | cons j after =>
            have hij : Scalar.sortsBefore (Vec.entry values i) (Vec.entry values j) = true :=
              (List.pairwise_cons.mp (List.pairwise_append.mp hsorted).2.1).1 j List.mem_cons_self
            simp [hij]
      all_goals simpa using hbefore

theorem select_eq_insertionSort (hsorts : SortsTotally α) :
    select (α := α) = fun values weights idx =>
      let sorted := idx.insertionSort fun i j =>
        Scalar.sortsBefore (Vec.entry values i) (Vec.entry values j) = true
      (ofSorted values weights sorted, sorted) := by
  funext values weights idx
  rw [select, sortByValue_eq_insertionSort hsorts]

end Median
end TotalVariation
