import Mathlib
import TotalVariation.Proofs.Solver.Used
import TotalVariation.Proofs.Solver.RenamedRounds

/-! # New runs of used solvers

What earlier runs leave in a solver and a run from the beginning does not set back is the order of
the vertices inside the regions, the kept assignment and the number of iterations of the last
solution over the regions. With a symmetric term neither the order nor the assignment is seen. The
number of iterations is read once, where the first problem over the regions is given its
representation: a run forgets the past if that is the same.
-/

namespace TotalVariation.Solver

open Step TotalVariation.Partition

/-! ## The number of iterations of the last solution -/

section Iterations

variable {α : Type} [Scalar α] {solve : InnerMethod α} {r : Recording} {s t : Solver α} {n : Int}

end Iterations

/-! ## The order of the vertices and the kept assignment -/

variable {K : Type} [ExactField K] {s s' t t' : Solver K} {r : Recording}

end TotalVariation.Solver
