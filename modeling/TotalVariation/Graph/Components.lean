/-! # Connected components

Vertices carry class labels; a link merges the classes of its two ends. After all links of a list
two vertices carry one label exactly if a chain of links joins them.
-/

namespace TotalVariation.Components

/-- The label of a vertex. -/
def labelOf (labels : Array Nat) (v : Nat) : Nat := labels.getD v 0

/-- Merge the classes of two vertices: the class of the second takes the label of the first. -/
def join (labels : Array Nat) (u v : Nat) : Array Nat :=
  let a := labelOf labels u
  let b := labelOf labels v
  if a = b then labels else labels.map fun c => if c = b then a else c

/-- The class labels of the vertices `0, …, n - 1` under the given links. -/
def labels (n : Nat) (links : List (Nat × Nat)) : Array Nat :=
  links.foldl (fun l link => join l link.1 link.2) (Array.range n)

@[simp] theorem size_join (l : Array Nat) (u v : Nat) : (join l u v).size = l.size := by
  simp only [join]
  split <;> simp

@[simp] theorem size_labels (n : Nat) (links : List (Nat × Nat)) : (labels n links).size = n := by
  have size_foldl : ∀ (ls : List (Nat × Nat)) (l : Array Nat),
      (ls.foldl (fun l link => join l link.1 link.2) l).size = l.size := by
    intro ls
    induction ls with
    | nil => intro l; rfl
    | cons head tail ih => intro l; simp [ih]
  simp [labels, size_foldl]

end TotalVariation.Components
