import TotalVariation.Failure
import TotalVariation.Numeric.Vec
import TotalVariation.Numeric.Tensor

/-! # Weighted medians

The median of the values that a list of indices selects. With weights it is the first value, in
increasing order, at which the cumulated weight reaches half of the total; without, the value in
the middle. Selecting a median sorts the list of indices by value, ties in their former order, so
that a sorted list needs no selection any more.
-/

namespace TotalVariation.Median

variable {α : Type} [Scalar α]

/-- The indices sorted by the values they select, equal values in their former order. -/
def sortByValue (values : Vec α) (idx : List Nat) : List Nat :=
  idx.mergeSort fun i j => Scalar.sortsBefore (Vec.entry values i) (Vec.entry values j)

theorem sortByValue_perm (values : Vec α) (idx : List Nat) :
    (sortByValue values idx).Perm idx :=
  List.mergeSort_perm _ _

/-- The sums of the initial parts of a list of weights, the empty one left out. -/
def cumulated (start : α) : List α → List α
  | [] => []
  | w :: ws => (start + w) :: cumulated (start + w) ws

@[simp] theorem length_cumulated (start : α) (ws : List α) :
    (cumulated start ws).length = ws.length := by
  induction ws generalizing start with
  | nil => rfl
  | cons w ws ih => simp [cumulated, ih]

/-- Bisection for the first position in `[low, high)` whose entry does not sort before `bound`. In
a sorted vector these positions follow all others. -/
def bisect (xs : Vec α) (bound : α) : Nat → Nat → Nat → Nat
  | 0, low, _ => low
  | fuel + 1, low, high =>
    if low < high then
      let mid := (low + high) / 2
      if Scalar.sortsBefore bound (Vec.entry xs mid) then bisect xs bound fuel low mid
      else bisect xs bound fuel (mid + 1) high
    else low

/-- The first position whose entry does not sort before `bound`. -/
def lowerPosition (xs : Vec α) (bound : α) : Nat := bisect xs bound (xs.size + 1) 0 xs.size

/-- The position of the median in a list of weights, those of the sorted values. -/
def weightedPosition (weights : List α) : Nat :=
  let sums := (cumulated 0 weights).toArray
  Nat.min (lowerPosition sums (Scalar.half (Vec.entry sums (sums.size - 1)))) (weights.length - 1)

/-- The position of the median in a list of indices sorted by value. -/
def position (weights : Option (Vec α)) (idx : List Nat) : Nat :=
  match weights with
  | none => idx.length / 2
  | some w => weightedPosition (idx.map (Vec.entry w))

/-- The median of the values that a list of indices, sorted by value, selects. -/
def ofSorted (values : Vec α) (weights : Option (Vec α)) (idx : List Nat) : α :=
  Vec.entry values (idx.getD (position weights idx) 0)

/-- The median of the values that a list of indices selects, and the list sorted by value. -/
def select (values : Vec α) (weights : Option (Vec α)) (idx : List Nat) : α × List Nat :=
  let sorted := sortByValue values idx
  (ofSorted values weights sorted, sorted)

/-- The positions that indices, negative ones counted from the end, name in a list of `n`. -/
def positions? (n : Nat) (idx : List Int) : Except (Failure α) (List Nat) :=
  idx.mapM fun i => match position? n i with
    | some p => pure p
    | none => throw .indexRange

/-- The median of the values selected by indices that are sorted by value, the indices checked. -/
def ofSorted? (values : Vec α) (weights : Option (Vec α)) (idx : List Int) :
    Except (Failure α) α := do
  if idx.isEmpty then throw .emptyMedian
  match weights with
  | none =>
    match position? values.size (idx.getD (idx.length / 2) 0) with
    | some p => pure (Vec.entry values p)
    | none => throw .indexRange
  | some w =>
    let places ← positions? w.size idx
    let k := weightedPosition (places.map (Vec.entry w))
    match position? values.size (idx.getD k 0) with
    | some p => pure (Vec.entry values p)
    | none => throw .indexRange

/-- The median of the values that checked indices select, and the indices sorted by value. -/
def select? (values : Vec α) (weights : Option (Vec α)) (idx : List Int) :
    Except (Failure α) (α × List Int) := do
  if idx.isEmpty then throw .emptyMedian
  let places ← positions? values.size idx
  let keyed := (idx.zip places).mergeSort fun a b =>
    Scalar.sortsBefore (Vec.entry values a.2) (Vec.entry values b.2)
  let sorted := keyed.map (·.1)
  let m ← ofSorted? values weights sorted
  pure (m, sorted)

/-- The median of a list of values. -/
def ofValues? (values : Vec α) (weights : Option (Vec α)) : Except (Failure α) α := do
  let (m, _) ← select? values weights ((List.range values.size).map Int.ofNat)
  pure m

end TotalVariation.Median
