import LinearProgram.Phases

namespace LinearProgram

-- The final tableau is kept with the standard form that its columns belong to.
structure Solution (α : Type) where
  model : Model α
  form : StandardForm α
  tableau : Tableau α form.rows form.cols

namespace Solution

variable {α : Type} [Scalar α]

def snap (x : α) : α :=
  if magnitude x < eps then 0 else x

-- One value per column, the caller's variables first.
def assignment (s : Solution α) : List α :=
  s.tableau.values.toList.map snap

-- The values of the caller's variables alone.
def givenAssignment (s : Solution α) : List α :=
  s.assignment.take s.model.vars.length

-- The value of a variable of the normalized model.
def value? (s : Solution α) (v : Variable) : Option α :=
  if s.form.model.owns v then s.assignment[v.index]? else none

-- The objective as the caller stated it.
def objectiveValue (s : Solution α) : α :=
  match s.model.objective with
  | some o => o.evaluate s.assignment
  | none => 0

-- The objective in the maximized form.
def normalizedObjectiveValue (s : Solution α) : α :=
  match s.form.model.objective with
  | some o => o.evaluate s.assignment
  | none => 0

-- Checks the caller's constraints once more.
def isFeasible (s : Solution α) : Bool :=
  s.model.isFeasible s.assignment

def isBounded (s : Solution α) : Bool :=
  Scalar.isFinite s.objectiveValue

end Solution

end LinearProgram
