/-! # Shaped arrays

Arguments arrive as numbers nested in lists. A nest is regular when lists at one depth have one
length; a regular nest is a tensor, a shape with its entries in row order. Lengths and index
conventions of the argument checks live here.
-/

namespace TotalVariation

/-- Values nested in lists. -/
inductive Nested (β : Type) where
  /-- A single value. -/
  | leaf (value : β)
  | list (items : List (Nested β))

/-- A regular array: the lengths along its axes and its entries in row order. -/
structure Tensor (β : Type) where
  /-- The lengths along the axes; empty for a single value. -/
  shape : List Nat
  /-- The entries in row order. -/
  entries : Array β

namespace Tensor

variable {β : Type}

/-- The number of axes. -/
def rank (t : Tensor β) : Nat := t.shape.length

/-- The single value of a tensor without axes. -/
def scalar? (t : Tensor β) : Option β := if t.shape.isEmpty then t.entries[0]? else none

/-- A list of values along one axis. -/
def ofArray (xs : Array β) : Tensor β := ⟨[xs.size], xs⟩

/-- A single value. -/
def ofScalar (x : β) : Tensor β := ⟨[], #[x]⟩

/-- Several tensors of one shape, stacked along a new first axis. -/
def stack? : List (Tensor β) → Option (Tensor β)
  | [] => some ⟨[0], #[]⟩
  | t :: ts =>
    if ts.all (fun s => s.shape == t.shape) then
      some ⟨(ts.length + 1) :: t.shape, ts.foldl (fun acc s => acc ++ s.entries) t.entries⟩
    else none

end Tensor

namespace Nested

variable {β : Type}

instance : Inhabited (Nested β) := ⟨.list []⟩

mutual

/-- The regular array that a nest spells, if it is regular. -/
def tensor? : Nested β → Option (Tensor β)
  | .leaf x => some (.ofScalar x)
  | .list items => (tensors? items).bind Tensor.stack?

/-- The regular arrays that the members of a list spell. -/
def tensors? : List (Nested β) → Option (List (Tensor β))
  | [] => some []
  | x :: xs => do
    let t ← tensor? x
    let ts ← tensors? xs
    pure (t :: ts)

end

end Nested

/-- The position that an index names in a list of `n`: negative indices count from the end. -/
def position? (n : Nat) (i : Int) : Option Nat :=
  if 0 ≤ i then if i < n then some i.toNat else none
  else if 0 ≤ n + i then some (n + i).toNat else none

theorem position?_ofNat {n v : Nat} (hv : v < n) : position? n (Int.ofNat v) = some v := by
  have hnonneg : 0 ≤ Int.ofNat v := Int.natCast_nonneg v
  have hlt : Int.ofNat v < (n : Int) := Int.ofNat_lt.mpr hv
  rw [position?, if_pos hnonneg, if_pos hlt]
  rfl

/-- The length at which two vectors combine entry by entry: a vector of length one is repeated. -/
def commonLength? (m n : Nat) : Option Nat :=
  if m = n then some m else if m = 1 then some n else if n = 1 then some m else none

/-- A vector repeated to length `n` if it has one entry. -/
def stretch {β : Type} (n : Nat) (x : Array β) : Array β :=
  match x[0]? with
  | some a => if x.size = 1 then Array.replicate n a else x
  | none => x

theorem stretch_of_size_eq {β : Type} {n : Nat} {x : Array β} (h : x.size = n) : stretch n x = x := by
  unfold stretch
  split
  next a ha =>
    split
    next hone =>
      obtain ⟨_, hget⟩ := Array.getElem?_eq_some_iff.mp ha
      apply Array.ext
      · simp [h]
      · intro i _ hi
        have hi0 : i = 0 := by omega
        subst hi0
        simp [hget]
    next => rfl
  next => rfl

end TotalVariation
