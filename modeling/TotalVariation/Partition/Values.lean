import TotalVariation.Partition.Basic
import TotalVariation.Numeric.Tensor

/-! # Values on vertices and on regions

A vector over the regions expands to a vector over the vertices that is constant on each region;
a vector over the vertices is gathered on the regions by sums, largest and smallest values. The
versions with a question mark check lengths and indices first.
-/

namespace TotalVariation.Partition

variable {α : Type} [Scalar α]

/-- The vector over the vertices with the value of each region on all of its vertices. -/
def expand (P : Partition α) (x : Vec α) : Vec α :=
  Vec.tabulate P.vertexCount fun v => Vec.entry x (P.regionOf v)

theorem entry_expand (P : Partition α) (x : Vec α) {v : Nat} (h : v < P.vertexCount) :
    Vec.entry (P.expand x) v = Vec.entry x (P.regionOf v) := by
  simp [expand, Vec.entry_tabulate, h]

/-- The sums over the regions of a vector over the vertices. -/
def regionSums (P : Partition α) (values : Vec α) : Vec α :=
  Vec.scatter P.regionCount P.vertexCount P.regionOf (Vec.entry values)

@[simp] theorem size_regionSums (P : Partition α) (values : Vec α) :
    (P.regionSums values).size = P.regionCount := by
  simp [regionSums]

/-- The values over each region of a vector over the vertices, combined from the first on. -/
def regionFold {β : Type} (P : Partition α) (f : β → β → β) (value : Nat → β) : Array β :=
  Vec.tabulate P.regionCount fun r =>
    (P.region r).tail.foldl (fun acc v => f acc (value v)) (value (P.representative r))

/-- The largest values over the regions. -/
def regionMax (P : Partition α) (values : Vec α) : Vec α :=
  P.regionFold Scalar.max (Vec.entry values)

/-- The smallest values over the regions. -/
def regionMin (P : Partition α) (values : Vec α) : Vec α :=
  P.regionFold Scalar.min (Vec.entry values)

/-- The sizes of the regions as numbers. -/
def sizeVec (P : Partition α) : Vec α :=
  Vec.tabulate P.regionCount fun r => Nat.cast (P.sizeOf r)

/-- The table with a one where a vertex lies in a region. -/
def indicator (P : Partition α) : Array (Array α) :=
  Vec.tabulate P.vertexCount fun v =>
    Vec.tabulate P.regionCount fun r => if P.regionOf v = r then 1 else 0

/-- Whether a vector has a value for every region that some vertex lies in. -/
def covers (P : Partition α) (n : Nat) : Bool := P.assignment.all (· < n)

/-- Expansion of a vector that has a value for every region. -/
def expand? (P : Partition α) (x : Vec α) : Except (Failure α) (Vec α) :=
  if P.covers x.size then pure (P.expand x) else throw .indexRange

/-- Sums over the regions of a vector with one value for each vertex. -/
def regionSums? (P : Partition α) (values : Vec α) : Except (Failure α) (Vec α) :=
  if values.size = P.vertexCount then pure (P.regionSums values) else throw .lengths

/-- Largest values over the regions of a vector that has a value for every vertex. -/
def regionMax? (P : Partition α) (values : Vec α) : Except (Failure α) (Vec α) :=
  if P.arena.all (· < values.size) then pure (P.regionMax values) else throw .indexRange

/-- Smallest values over the regions of a vector that has a value for every vertex. -/
def regionMin? (P : Partition α) (values : Vec α) : Except (Failure α) (Vec α) :=
  if P.arena.all (· < values.size) then pure (P.regionMin values) else throw .indexRange

/-- The positions that indices, negative ones counted from the end, name among `n` places. -/
def places? (n : Nat) (indices : List Int) : Except (Failure α) (List Nat) :=
  indices.mapM fun i => match position? n i with
    | some p => pure p
    | none => throw .indexRange

def weightsOf? (P : Partition α) (edges : List Int) : Except (Failure α) (List α) :=
  match P.edgeWeights.each with
  | none => pure (edges.map fun _ => P.edgeWeights.common)
  | some w => do
    let places ← places? P.edgeCount edges
    pure (places.map (Vec.entry w))

/-- The edges that start from the given vertices. A vertex is named by its position in the index of
first edges, which has one place more than there are vertices. -/
def edgesFrom? (P : Partition α) (vertices : List Int) : Except (Failure α) (List Nat) := do
  let starts ← places? P.graph.first.size vertices
  let stops ← places? P.graph.first.size (vertices.map (· + 1))
  let starts := starts.map fun v => Int.ofNat (P.graph.firstOf v)
  let stops := stops.map fun v => Int.ofNat (P.graph.firstOf v)
  let positions ← ForwardStar.rangePositions? starts (List.zipWith (· - ·) stops starts)
  pure (positions.map Int.toNat)

/-- The extent in the arena of the region that an index names, the index of the next one being the
end: the first position and the number of vertices. -/
def extent? (P : Partition α) (r : Int) : Except (Failure α) (Nat × Nat) := do
  let bounds := P.offsets.toArray
  match position? bounds.size r, position? bounds.size (r + 1) with
  | some i, some j =>
    let start := bounds.getD i 0
    pure (start, bounds.getD j 0 - start)
  | _, _ => throw .indexRange

/-- The vertices of the region that an index names. -/
def region? (P : Partition α) (r : Int) : Except (Failure α) (List Nat) := do
  let (start, count) ← P.extent? r
  pure ((P.arena.drop start).take count)

/-- A list cut into pieces of the given lengths. -/
def cut {β : Type} : List Nat → List β → List (List β)
  | [], _ => []
  | n :: ns, xs => xs.take n :: cut ns (xs.drop n)

@[simp] theorem length_cut {β : Type} (ns : List Nat) (xs : List β) :
    (cut ns xs).length = ns.length := by
  induction ns generalizing xs with
  | nil => rfl
  | cons n ns ih => simp [cut, ih]

/-- Cutting loses nothing of what the lengths reach. -/
theorem flatten_cut {β : Type} (ns : List Nat) (xs : List β) :
    (cut ns xs).flatten = xs.take (ns.foldr (· + ·) 0) := by
  induction ns generalizing xs with
  | nil => simp [cut]
  | cons n ns ih => simp [cut, ih, List.take_add]

/-- Write the vertices of the region that an index names in another order. -/
def reorder? (P : Partition α) (r : Int) (order : Array Nat) :
    Except (Failure α) (Partition α) := do
  let (start, count) ← P.extent? r
  let length ← match commonLength? count order.size with
    | some n => pure n
    | none => throw .lengths
  if length ≠ count then throw .lengths
  let arena := P.arena.take start ++ (stretch count order).toList ++ P.arena.drop (start + count)
  pure { P with regions := cut P.sizes arena }

/-- Mark the edges that indices name as boundaries, or as none. -/
def setActive? (P : Partition α) (edges : List Int) (value : Bool) :
    Except (Failure α) (Partition α) := do
  let places ← places? P.edgeCount edges
  pure (P.setActive places value)

/-- Flags for all regions from a list of flags, one flag standing for all. -/
def flags? (P : Partition α) (flags : Array Bool) : Except (Failure α) (Array Bool) :=
  if flags.size = P.regionCount ∨ flags.size = 1 then pure (stretch P.regionCount flags)
  else throw .lengths

/-- Set the marks of solved regions. -/
def setSaturated? (P : Partition α) (flags : Array Bool) : Except (Failure α) (Partition α) := do
  let flags ← P.flags? flags
  pure { P with saturated := flags }

/-- Set the marks of regions sorted by target. -/
def setMedianCached? (P : Partition α) (flags : Array Bool) :
    Except (Failure α) (Partition α) := do
  let flags ← P.flags? flags
  pure { P with medianCached := flags }

end TotalVariation.Partition
