import LinearProgram.Constraint

namespace LinearProgram

-- What shows that no point satisfies the constraints.
inductive Infeasibility (α : Type) where
  | constantConstraint (c : Constraint α)
  | contradictoryBounds (v : Variable) (lower upper : α)
  -- The artificial variables still have this sum at the end of the first phase.
  | positiveArtificials (sum : α)

-- Why a model is refused or has no finite optimum.
inductive Error (α : Type) where
  | noVariables
  | noObjective
  | shapeMismatch (rows cols bounds basis costs : Nat)
  | notUnitColumn (col row : Nat)
  | noBasicVariable (row : Constraint α)
  | unboundedFirstPhase
  | negativeBound (bound : α)
  | invalidBound (bound : α)
  | duplicateVariable (name : String)
  | unknownVariable (v : Variable)
  | unbounded
  | infeasible (reason : Infeasibility α)
  | iterationLimit (limit : Nat)

-- There is no finite optimum, or none was reached; the request itself was well formed.
def Error.isSolveOutcome {α : Type} : Error α → Bool
  | .unbounded | .infeasible _ | .iterationLimit _ => true
  | _ => false

end LinearProgram
