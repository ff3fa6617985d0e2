import TotalVariation.Failure
import TotalVariation.Numeric.Tensor
import TotalVariation.Numeric.Vec

/-! # Proximal maps

The proximal map of a function weighs it against the squared distance to a point, in a diagonal
metric. Here are the maps of the distance to a target with bounds on the value, and of the
variation `w |a - b|` across one edge. A missing bound is no bound.
-/

namespace TotalVariation

/-- A lower or an upper bound that may be missing. -/
abbrev Bound (α : Type) := Option α

namespace Bound

variable {α : Type} [Scalar α]

/-- A lower bound given as a number: an infinite negative one is none. -/
def lower (a : α) : Bound α := if Scalar.isNegativeInfinite a then none else some a

/-- An upper bound given as a number: an infinite positive one is none. -/
def upper (a : α) : Bound α := if Scalar.isPositiveInfinite a then none else some a

/-- Whether the bound is an ordinary number. -/
def isFinite (b : Bound α) : Bool := b.any Scalar.isFinite

/-- The value raised to a lower bound. -/
@[inline] def raise (low : Bound α) (x : α) : α :=
  match low with
  | some l => Scalar.max x l
  | none => x

/-- The value lowered to an upper bound. -/
@[inline] def cap (upp : Bound α) (x : α) : α :=
  match upp with
  | some u => Scalar.min x u
  | none => x

/-- The tighter of two lower bounds. -/
def maxLower : Bound α → Bound α → Bound α
  | some a, some b => some (Scalar.max a b)
  | none, b => b
  | a, none => a

/-- The tighter of two upper bounds. -/
def minUpper : Bound α → Bound α → Bound α
  | some a, some b => some (Scalar.min a b)
  | none, b => b
  | a, none => a

end Bound

namespace Proximal

variable {α : Type} [Scalar α]

/-- Moving towards a target by at most a threshold. -/
@[inline] def shrink (target threshold p : α) : α :=
  let d := p - target
  target + Scalar.sign d * Scalar.max (Scalar.abs d - threshold) 0

/-- The proximal map of `l |z - t|` with bounds on `z`, in the metric `c`. A missing weight leaves
out the distance. -/
@[inline] def separable (c : α) (weight : Option α) (target : α) (low upp : Bound α) (p : α) : α :=
  let moved := match weight with
    | some l => shrink target (l / c) p
    | none => p
  upp.cap (low.raise moved)

/-- The proximal map of `w |a - b|`, in the metric `(cu, cv)`: the two values meet at their mean if
they are near enough, and move towards each other otherwise. -/
@[inline] def pair (cu cv w pu pv : α) : α × α :=
  let d := pu - pv
  let threshold := w * (1 / cu + 1 / cv)
  if Scalar.abs d ≤ threshold then
    let mean := (cu * pu + cv * pv) / (cu + cv)
    (mean, mean)
  else
    let s := Scalar.sign d
    (pu - s * w / cu, pv + s * w / cv)

/-- The common length of several arguments of which a single number fits any length. -/
def commonLength? (lengths : List (Option Nat)) : Except (Failure α) (Option Nat) :=
  lengths.foldlM (fun acc n => match acc, n with
    | acc, none => pure acc
    | none, n => pure n
    | some a, some b => match TotalVariation.commonLength? a b with
      | some k => pure (some k)
      | none => throw .lengths) none

/-- The length of an argument, none for a single number. -/
def lengthOf {β : Type} (t : Tensor β) : Option Nat := if t.rank = 0 then none else some t.entries.size

/-- Whether an argument is a single zero. -/
def isZero (t : Tensor α) : Bool := t.scalar?.any (Scalar.same · 0)

/-- The separable proximal map entry by entry; single numbers stand for all entries. -/
def separable? (p c : Tensor α) (weight : Option (Tensor α)) (target : Tensor α)
    (low upp : Tensor α) : Except (Failure α) (Tensor α) := do
  let weighted := match weight with
    | some l => [lengthOf l, lengthOf c, lengthOf target]
    | none => []
  if isZero c && weight.any (·.rank = 0) then throw .divisionByZero
  let length ← commonLength? (lengthOf p :: weighted ++ [lengthOf low, lengthOf upp])
  let n := length.getD 1
  let spread (t : Tensor α) : Vec α := stretch n t.entries
  let (ps, cs, ts, ls, us) := (spread p, spread c, spread target, spread low, spread upp)
  let ws := weight.map spread
  let result := Vec.tabulate n fun i =>
    separable (Vec.entry cs i) (ws.map (Vec.entry · i)) (Vec.entry ts i)
      (.lower (Vec.entry ls i)) (.upper (Vec.entry us i)) (Vec.entry ps i)
  pure (if length.isNone then ⟨[], result⟩ else .ofArray result)

/-- Whether the metrics of a single pair of values add up to zero, so that it has no mean. -/
def hasNoMean (pu pv cu cv : Tensor α) : Bool :=
  match pu.scalar?, pv.scalar?, cu.scalar?, cv.scalar? with
  | some _, some _, some a, some b => Scalar.same (a + b) 0
  | _, _, _, _ => false

/-- The proximal map of the variation entry by entry; single numbers stand for all entries. A
single metric must not be zero, and neither must the sum of the metrics of a single pair. -/
def pair? (pu pv cu cv w : Tensor α) : Except (Failure α) (Tensor α × Tensor α) := do
  if isZero cu || isZero cv || hasNoMean pu pv cu cv then throw .divisionByZero
  let length ← commonLength? [lengthOf pu, lengthOf pv, lengthOf cu, lengthOf cv, lengthOf w]
  let n := length.getD 1
  let spread (t : Tensor α) : Vec α := stretch n t.entries
  let (us, vs, as, bs, ws) := (spread pu, spread pv, spread cu, spread cv, spread w)
  let result := Vec.tabulate n fun i =>
    pair (Vec.entry as i) (Vec.entry bs i) (Vec.entry ws i) (Vec.entry us i) (Vec.entry vs i)
  let shaped (r : Vec α) : Tensor α := if length.isNone then ⟨[], r⟩ else .ofArray r
  pure (shaped (result.map (·.1)), shaped (result.map (·.2)))

end Proximal
end TotalVariation
