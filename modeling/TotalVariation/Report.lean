import TotalVariation.Decimal.Text

/-! # Reports

What a run tells beside its result: warnings about its input or its outcome, and lines of a log.
-/

namespace TotalVariation

/-- Something worth telling. -/
inductive Event (α : Type) where
  /-- A matrix of products is not symmetric; its upper triangle is used. -/
  | asymmetricGram
  /-- The rounds ran out before the iterate settled. -/
  | notSettled (rounds : Int) (evolution : α)
  /-- The splitting iterations begin. -/
  | splittingStarted (unknowns edges : Nat)
  /-- A splitting iteration was made. -/
  | splittingIteration (iteration : Nat) (evolution objective : α)
  /-- The splitting iterations ended, with the last evolution if there was one. -/
  | splittingFinished (iterations : Nat) (evolution : Option α)
  /-- A round of refinement was made. -/
  | round (number : Nat) (limit : Int) (activated : Nat) (merged : Int)
      (regions reducedEdges : Nat) (evolution : α)
  deriving Repr, DecidableEq

namespace Event

/-- Whether the event is a warning; the others are lines of the log. -/
def isWarning {α : Type} : Event α → Bool
  | asymmetricGram | notSettled .. => true
  | _ => false

/-- A number with blanks in front up to a width. -/
def padded (width n : Nat) : String :=
  let digits := toString n
  String.ofList (List.replicate (width - digits.length) ' ') ++ digits

/-- The words of an event. -/
def text : Event Float → String
  | asymmetricGram => "Gram matrix is not symmetric; using its upper triangle."
  | notSettled rounds evolution =>
    s!"Cut-pursuit stopped after {rounds} iterations without convergence " ++
      s!"(relative evolution {Decimal.scientificText 2 evolution})."
  | splittingStarted unknowns edges => s!"PFDR: {unknowns} variables, {edges} edges"
  | splittingIteration iteration evolution objective =>
    s!"iter {padded 5 iteration}  dif={Decimal.scientificText 2 evolution}  " ++
      s!"obj={Decimal.scientificText 4 objective}"
  | splittingFinished iterations evolution =>
    s!"PFDR: {iterations} iterations, dif=" ++
      (match evolution with
        | some e => Decimal.scientificText 2 e
        | none => "inf")
  | round number limit activated merged regions reducedEdges evolution =>
    s!"Cut-pursuit iteration {number} (max. {limit}): {activated} new boundary edges, " ++
      s!"{merged} merges, {regions} components, {reducedEdges} reduced edges, " ++
      s!"relative evolution {Decimal.scientificText 2 evolution}"

end Event
end TotalVariation
