import LinearProgram.Text.Model

namespace LinearProgram

-- What is wrong with a model that can never be solved, or with the start of a tableau.
def invalidModel (reason : String) : String :=
  "invalid model: " ++ reason

def Error.message : Error Float → String
  | .noVariables => invalidModel "can't solve a model without any variables"
  | .noObjective => invalidModel "can't solve a model without an objective"
  | .shapeMismatch rows cols bounds basis costs =>
    invalidModel ("tableau dimensions mismatch: A is " ++ toString rows ++ "x" ++ toString cols ++
      ", b has " ++ toString bounds ++ ", basis has " ++ toString basis ++
      ", c has " ++ toString costs)
  | .notUnitColumn col row =>
    invalidModel ("column " ++ toString col ++ " is not a unit column for row " ++ toString row)
  | .noBasicVariable row => invalidModel ("row " ++ row.text ++ " has no basic variable")
  | .unboundedFirstPhase => invalidModel "phase 1 objective is unbounded"
  | .negativeBound bound =>
    "constraint bounds must be non-negative, got " ++ Decimal.shortest bound
  | .invalidBound bound => "invalid constraint bound: " ++ Decimal.shortest bound
  | .duplicateVariable name => "there is already a variable named " ++ name
  | .unknownVariable v =>
    "variable " ++ v.name ++ " (index " ++ toString v.index ++ ") does not belong to this model"
  | .unbounded => "linear program is unbounded"
  | .infeasible _ => "linear program is infeasible (positive artificial variables)"
  | .iterationLimit limit => "reached the maximum of " ++ toString limit ++ " iterations"

end LinearProgram
