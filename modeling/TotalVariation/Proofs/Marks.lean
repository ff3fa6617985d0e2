import Mathlib

/-! # Marking places of an array

Several places of an array get the same entry; places outside the array are passed over.
-/

namespace TotalVariation

variable {β : Type}

theorem getD_replicate (n : Nat) (b : β) (i : Nat) : (Array.replicate n b).getD i b = b := by
  by_cases hi : i < n <;> simp [hi]

theorem size_foldl_setIfInBounds {ι : Type} (xs : List ι) (place : ι → Nat) (value : ι → β)
    (a : Array β) : (xs.foldl (fun a x => a.setIfInBounds (place x) (value x)) a).size = a.size := by
  induction xs generalizing a with
  | nil => rfl
  | cons x xs ih => rw [List.foldl_cons, ih, Array.size_setIfInBounds]

/-- Of several entries for one place the last counts. -/
theorem getD_foldl_setIfInBounds_last {ι : Type} (xs : List ι) (place : ι → Nat) (value : ι → β)
    (default : β) {a : Array β} {i : Nat} (hi : i < a.size) :
    (xs.foldl (fun a x => a.setIfInBounds (place x) (value x)) a).getD i default =
      ((xs.filter fun x => place x == i).getLast?.map value).getD (a.getD i default) := by
  induction xs using List.reverseRecOn with
  | nil => rfl
  | append_singleton xs x ih =>
      have hsize := (size_foldl_setIfInBounds xs place value a).symm ▸ hi
      rw [List.foldl_append, List.filter_append, List.foldl_cons, List.foldl_nil]
      by_cases hplace : place x = i
      · simp [hplace, hsize]
      · have hentry : ((xs.foldl (fun a x => a.setIfInBounds (place x) (value x)) a).setIfInBounds
            (place x) (value x)).getD i default =
              (xs.foldl (fun a x => a.setIfInBounds (place x) (value x)) a).getD i default := by
          simp [hplace]
        rw [hentry, ih]
        simp [hplace]

/-- The marked places inside the array have their new entries, the others keep theirs. -/
theorem getD_foldl_setIfInBounds_value (places : List Nat) (value : Nat → β) (default : β)
    (a : Array β) (i : Nat) :
    (places.foldl (fun a j => a.setIfInBounds j (value j)) a).getD i default =
      if i ∈ places ∧ i < a.size then value i else a.getD i default := by
  induction places generalizing a with
  | nil => simp
  | cons j places ih =>
      rw [List.foldl_cons, ih, Array.size_setIfInBounds]
      by_cases hi : i < a.size
      · by_cases hmem : i ∈ places
        · simp [hi, hmem]
        · by_cases hij : j = i
          · subst hij
            simp [hi, hmem]
          · have hij' : ¬i = j := fun h => hij h.symm
            simp [hi, hmem, hij, hij']
      · simp [hi]

/-- The marked places inside the array have the new entry, the others keep theirs. -/
theorem getD_foldl_setIfInBounds (places : List Nat) (value default : β) (a : Array β) (i : Nat) :
    (places.foldl (fun a j => a.setIfInBounds j value) a).getD i default =
      if i ∈ places ∧ i < a.size then value else a.getD i default :=
  getD_foldl_setIfInBounds_value places (fun _ => value) default a i

/-- Taking marks away from places leaves the marks of the others. -/
theorem getD_foldl_setIfInBounds_false (places : List Nat) (a : Array Bool) (i : Nat) :
    (places.foldl (fun a j => a.setIfInBounds j false) a).getD i false =
      (a.getD i false && !places.contains i) := by
  rw [getD_foldl_setIfInBounds]
  by_cases hi : i < a.size <;> by_cases hmem : i ∈ places <;> simp [hi, hmem]

/-- Each of the first places gets an entry of its own. -/
theorem getD_foldl_range (n : Nat) (value : Nat → β) (a : Array β) (i : Nat) (default : β) :
    ((List.range n).foldl (fun a j => a.setIfInBounds j (value j)) a).getD i default =
      if i < n ∧ i < a.size then value i else a.getD i default := by
  simp only [getD_foldl_setIfInBounds_value, List.mem_range]

end TotalVariation
