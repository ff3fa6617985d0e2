import TotalVariation.Decimal.Binary
import TotalVariation.Failure

/-! # Workloads

How many workers a workload of independent units deserves: one for every ten thousand elementary
operations, at least one, and no more than there are units or workers. The outcome of a workload
does not depend on its workers.
-/

namespace TotalVariation.Workload

/-- The elementary operations below which a further worker does not pay. -/
def operationsPerWorker : Nat := 10000

/-- The whole multiples of the share of a worker in a number of operations, if it is finite. -/
def shares? (operations : Float) : Option Int :=
  match Decimal.Binary.ofFloat operations with
  | .finite negative m q =>
    let (num, den) := Decimal.scaled m q 0
    some (Int.fdiv (if negative then -(num : Int) else num) (den * operationsPerWorker))
  | _ => none

/-- The number of workers; no positive limit means one worker per core. -/
def workers? (operations : Float) (units limit : Int) (cores : Nat) :
    Except (Failure Float) Int :=
  match shares? operations with
  | some n =>
    let limit := if 0 < limit then limit else Int.ofNat cores
    pure (max 1 (min n (min limit units)))
  | none => throw .invalidValue

/-- The outcomes of independent units, in their order; the first failure stands for all. -/
def outcomes {ε β γ : Type} (f : β → Except ε γ) (units : List β) : Except ε (List γ) :=
  units.mapM f

end TotalVariation.Workload
