import TotalVariation.Numeric.Scalar

/-! # Vectors

Vectors are arrays read with zero outside their range, so that formulas are written by index:
`tabulate n f` is the vector of the values `f 0, …, f (n - 1)`, `total n f` their sum, and
`scatter` adds values into the places that an index names.
-/

namespace TotalVariation

/-- A vector of numbers. -/
abbrev Vec (α : Type) := Array α

namespace Vec

variable {α : Type}

/-- The vector of the first `n` values of a function. -/
@[inline] def tabulate {β : Type} (n : Nat) (f : Nat → β) : Array β :=
  Array.ofFn fun i : Fin n => f i

@[simp] theorem size_tabulate {β : Type} (n : Nat) (f : Nat → β) : (tabulate n f).size = n := by
  simp [tabulate]

theorem getElem_tabulate {β : Type} (n : Nat) (f : Nat → β) (i : Nat)
    (h : i < (tabulate n f).size) : (tabulate n f)[i] = f i := by
  simp [tabulate]

variable [Scalar α]

/-- The entry at an index, zero outside the vector. -/
@[inline] def entry (x : Vec α) (i : Nat) : α := x.getD i 0

theorem entry_tabulate (n : Nat) (f : Nat → α) (i : Nat) :
    entry (tabulate n f) i = if i < n then f i else 0 := by
  by_cases h : i < n <;> simp [entry, tabulate, h]

/-- The sum `f 0 + … + f (n - 1)`, from the left. -/
@[inline] def total (n : Nat) (f : Nat → α) : α := n.fold (fun i _ s => s + f i) 0

theorem total_succ (n : Nat) (f : Nat → α) : total (n + 1) f = total n f + f n := by
  simp [total, Nat.fold_succ]

def sum (x : Vec α) : α := total x.size (entry x)

/-- The scalar product of two vectors over the entries of the first. -/
def dot (x y : Vec α) : α := total x.size fun i => entry x i * entry y i

/-- The Euclidean length. -/
def norm (x : Vec α) : α := Scalar.sqrt (dot x x)

/-- The vector of length `n` whose entry `i` is the sum of the values `value e`, over the `e < m`
that are placed at `i`. -/
@[inline] def scatter (n m : Nat) (place : Nat → Nat) (value : Nat → α) : Vec α :=
  m.fold (fun e _ acc => acc.modify (place e) (· + value e)) (Array.replicate n 0)

@[simp] theorem size_scatter (n m : Nat) (place : Nat → Nat) (value : Nat → α) :
    (scatter n m place value).size = n := by
  induction m with
  | zero => simp [scatter]
  | succ m ih => simpa [scatter, Nat.fold_succ] using ih

theorem entry_scatter_zero (n i : Nat) (place : Nat → Nat) (value : Nat → α) :
    entry (scatter n 0 place value) i = 0 := by
  by_cases h : i < n <;> simp [entry, scatter, h]

/-- One more value is added to the entry at its place, and to no other. -/
theorem entry_scatter_succ {n i : Nat} (m : Nat) (place : Nat → Nat) (value : Nat → α)
    (h : i < n) :
    entry (scatter n (m + 1) place value) i =
      if place m = i then entry (scatter n m place value) i + value m
      else entry (scatter n m place value) i := by
  have hsize : i < (scatter n m place value).size := by simpa using h
  have hfold : scatter n (m + 1) place value =
      (scatter n m place value).modify (place m) (· + value m) := by
    simp [scatter, Nat.fold_succ]
  rw [hfold]
  simp only [entry, Array.getD_eq_getD_getElem?, Array.getElem?_modify,
    Array.getElem?_eq_getElem hsize]
  split <;> simp

/-- The vector with all `n` entries equal. -/
def constant (n : Nat) (a : α) : Vec α := Array.replicate n a

/-- The largest entry, undefined if one is; none of an empty vector. -/
def largest? (x : Vec α) : Option α :=
  if x.size = 0 then none
  else some (x.foldl Scalar.max (entry x 0))

end Vec
end TotalVariation
