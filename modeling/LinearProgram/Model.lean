import LinearProgram.Error

namespace LinearProgram

structure Model (α : Type) where
  name : String := ""
  vars : List Variable := []
  constraints : List (Constraint α) := []
  objective : Option (Objective α) := none

section
variable {α : Type} [Scalar α]

namespace Constraint

-- Refuses a bound that is not finite, and one below zero.
def withBound (e : Expression α) (relation : Relation) (bound : α) :
    Except (Error α) (Constraint α) :=
  if !Scalar.isFinite bound then
    .error (.invalidBound bound)
  else if bound < 0 then
    .error (.negativeBound bound)
  else
    .ok ⟨e, relation, bound, none, none⟩

-- Reverses the constraint first when its bound is negative.
def nonNegative (e : Expression α) (relation : Relation) (bound : α) :
    Except (Error α) (Constraint α) :=
  if bound < 0 then
    withBound (-e) relation.reversed (-bound)
  else
    withBound e relation bound

end Constraint

namespace Model

def find? (m : Model α) (name : String) : Option Variable :=
  m.vars.find? fun v => v.name == name

def createVariable (m : Model α) (name : String) : Except (Error α) (Variable × Model α) :=
  if (m.find? name).isSome then
    .error (.duplicateVariable name)
  else
    let v := ⟨name, m.vars.length⟩
    .ok (v, { m with vars := m.vars ++ [v] })

-- The variable is the one the model has at its index, of the same name.
def owns (m : Model α) (v : Variable) : Bool :=
  m.vars[v.index]? == some v

-- Names the first atom that is about a variable of another model.
def checkVariables (m : Model α) (e : Expression α) : Except (Error α) Unit :=
  match e.atoms.find? fun a => !m.owns a.var with
  | some a => .error (.unknownVariable a.var)
  | none => .ok ()

def pushConstraint (m : Model α) (c : Constraint α) : Except (Error α) (Model α) := do
  m.checkVariables c.expression
  return { m with constraints := m.constraints ++ [c] }

def addConstraint (m : Model α) (e : Expression α) (relation : Relation) (bound : α) :
    Except (Error α) (Model α) := do
  m.pushConstraint (← Constraint.nonNegative e relation bound)

def setObjective (m : Model α) (o : Objective α) : Except (Error α) (Model α) := do
  m.checkVariables o.expression
  return { m with objective := some o }

def maximize (m : Model α) (e : Expression α) : Except (Error α) (Model α) :=
  m.setObjective ⟨e, .maximize⟩

def minimize (m : Model α) (e : Expression α) : Except (Error α) (Model α) :=
  m.setObjective ⟨e, .minimize⟩

def simplify (m : Model α) : Model α :=
  { m with
    constraints := m.constraints.map Constraint.simplify
    objective := m.objective.map Objective.simplify }

-- A model can be solved when it has a variable and an objective.
def validate (m : Model α) : Except (Error α) (Objective α) :=
  if m.vars.isEmpty then
    .error .noVariables
  else
    match m.objective with
    | some o => .ok o
    | none => .error .noObjective

-- The constraints that become rows of the tableau.
def rows (m : Model α) : List (Constraint α) :=
  m.constraints.filter Constraint.isPolynomial

def rowBounds (m : Model α) : Vector α m.rows.length :=
  Vector.ofFn fun i => (m.rows.get i).bound

def rowFactors (m : Model α) : Vector (Vector α m.vars.length) m.rows.length :=
  Vector.ofFn fun i => (m.rows.get i).expression.factors m.vars

-- The objective's factors of the listed variables, zero without an objective.
def costs (m : Model α) (vs : List Variable) : Vector α vs.length :=
  match m.objective with
  | some o => o.expression.factors vs
  | none => Vector.replicate vs.length 0

-- The point is long enough, not negative, and satisfies every constraint.
def isFeasible (m : Model α) (x : List α) : Bool :=
  m.vars.length ≤ x.length &&
    (x.all fun value => -eps ≤ value) &&
    m.constraints.all fun c => c.isSatisfied x

end Model

end

end LinearProgram
