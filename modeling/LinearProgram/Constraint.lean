import LinearProgram.Expression

namespace LinearProgram

inductive Relation where
  | le
  | eq
  | ge
deriving DecidableEq

def Relation.reversed : Relation → Relation
  | .le => .ge
  | .eq => .eq
  | .ge => .le

@[simp] theorem Relation.reversed_reversed (r : Relation) : r.reversed.reversed = r := by
  cases r <;> rfl

-- `expression relation bound`. An equality made from an inequality has the variable that took up
-- the difference, and one without a basic variable of its own has an artificial variable.
structure Constraint (α : Type) where
  expression : Expression α
  relation : Relation
  bound : α
  extra : Option Variable := none
  artificial : Option Variable := none

inductive Direction where
  | minimize
  | maximize
deriving DecidableEq

structure Objective (α : Type) where
  expression : Expression α
  direction : Direction

section
variable {α : Type} [Scalar α]

namespace Constraint

-- Negates both sides, which turns the relation around.
def reversed (c : Constraint α) : Constraint α :=
  { c with expression := -c.expression, relation := c.relation.reversed, bound := -c.bound }

-- A constraint with at most one atom bounds a variable and is no row of the tableau.
def isPolynomial (c : Constraint α) : Bool :=
  decide (1 < c.expression.size)

-- Both sides may miss the relation by the tolerance.
def relates (lhs : α) (relation : Relation) (bound : α) : Bool :=
  match relation with
  | .le => lhs ≤ bound + eps
  | .eq => magnitude (lhs - bound) ≤ eps
  | .ge => bound - eps ≤ lhs

def isSatisfied (c : Constraint α) (x : List α) : Bool :=
  relates (c.expression.evaluate x) c.relation c.bound

def simplify (c : Constraint α) : Constraint α :=
  { c with expression := c.expression.simplify }

end Constraint

namespace Objective

def evaluate (o : Objective α) (x : List α) : α :=
  o.expression.evaluate x

-- Minimizing an expression is maximizing its negation.
def asMaximize (o : Objective α) : Objective α :=
  match o.direction with
  | .maximize => o
  | .minimize => ⟨-o.expression, .maximize⟩

def simplify (o : Objective α) : Objective α :=
  { o with expression := o.expression.simplify }

end Objective

end

end LinearProgram
