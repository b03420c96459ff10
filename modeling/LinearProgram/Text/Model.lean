import LinearProgram.Decimal.Shortest
import LinearProgram.Model

namespace LinearProgram

def Atom.text (a : Atom Float) : String :=
  Decimal.shortest a.factor ++ "*" ++ a.var.name

-- An atom after the first one, with its sign as an operator.
def Atom.furtherText (a : Atom Float) : String :=
  let sign := if 0 ≤ a.factor then " + " else " - "
  sign ++ Atom.text { a with factor := a.factor.abs }

def Expression.text (e : Expression Float) : String :=
  match e.atoms with
  | [] => "0"
  | a :: rest => a.text ++ String.join (rest.map Atom.furtherText)

def Relation.text : Relation → String
  | .le => "≤"
  | .eq => "="
  | .ge => "≥"

def Constraint.text (c : Constraint Float) : String :=
  c.expression.text ++ " " ++ c.relation.text ++ " " ++ Decimal.shortest c.bound

def Direction.text : Direction → String
  | .minimize => "minimize"
  | .maximize => "maximize"

def Objective.text (o : Objective Float) : String :=
  o.direction.text ++ " " ++ o.expression.text

-- Every variable is non-negative.
def Model.text (m : Model Float) : String :=
  let objective := (m.objective.map Objective.text).getD "no objective"
  let constraints := String.join (m.constraints.map fun c => c.text ++ "\n")
  let names := String.intercalate ", " (m.vars.map Variable.name)
  m.name ++ "\n" ++ objective ++ "\n\nsubject to\n" ++ constraints ++
    "\nwith the variables\n" ++ names ++ " ≥ 0"

end LinearProgram
