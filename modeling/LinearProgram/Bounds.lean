import LinearProgram.Model

namespace LinearProgram

-- The bounds of single variables. No upper bound stands for one at infinity.
structure Bounds (α : Type) (n : Nat) where
  lower : Vector α n
  upper : Vector (Option α) n

section
variable {α : Type} [Scalar α]

-- The smaller of an upper limit and a value. Without a limit every value counts that is not itself
-- infinite on that side.
def tightenUpper (limit : Option α) (value : α) : Option α :=
  match limit with
  | some u => some (lesser u value)
  | none => if Scalar.isFinite value ∨ value < 0 then some value else none

-- The larger of a lower limit and a value, in the same way.
def tightenLower (limit : Option α) (value : α) : Option α :=
  match limit with
  | some l => some (greater l value)
  | none => if Scalar.isFinite value ∨ 0 < value then some value else none

namespace Bounds

variable {n : Nat}

def initial : Bounds α n :=
  ⟨Vector.replicate n 0, Vector.replicate n none⟩

-- Adds `x_i relation value`.
def narrow (bounds : Bounds α n) (i : Nat) (relation : Relation) (value : α) : Bounds α n :=
  let lower := Vector.ofFn fun j =>
    if j.val = i then greater (bounds.lower.get j) value else bounds.lower.get j
  let upper := Vector.ofFn fun j =>
    if j.val = i then tightenUpper (bounds.upper.get j) value else bounds.upper.get j
  match relation with
  | .le => { bounds with upper }
  | .ge => { bounds with lower }
  | .eq => { lower, upper }

-- A constraint with at most one atom. A factor within the tolerance counts as no atom, and what is
-- left compares zero with the bound.
def absorb (bounds : Bounds α n) (c : Constraint α) : Except (Error α) (Bounds α n) :=
  let constant :=
    if Constraint.relates 0 c.relation c.bound then
      .ok bounds
    else
      .error (.infeasible (.constantConstraint c))
  match c.expression.atoms.head? with
  | none => constant
  | some a =>
    if eps < magnitude a.factor then
      let relation := if a.factor < 0 then c.relation.reversed else c.relation
      .ok (bounds.narrow a.var.index relation (c.bound / a.factor))
    else
      constant

-- The bounds leave the variable no value, tolerance included.
def isContradictory (bounds : Bounds α n) (j : Fin n) : Bool :=
  match bounds.upper.get j with
  | some u => u + eps < bounds.lower.get j
  | none => false

-- An upper bound that lies below its lower bound by no more than the tolerance is lifted to it.
def settle (bounds : Bounds α n) : Bounds α n :=
  { bounds with
    upper := Vector.ofFn fun j => (bounds.upper.get j).map fun u => greater u (bounds.lower.get j) }

-- Every variable starts with no bound but zero below. The result has no contradictory pair.
def ofModel (m : Model α) : Except (Error α) (Bounds α m.vars.length) := do
  let single := m.constraints.filter fun c => !c.isPolynomial
  let bounds : Bounds α m.vars.length ← single.foldlM absorb initial
  match (List.finRange m.vars.length).find? bounds.isContradictory with
  | some j =>
    let lower := bounds.lower.get j
    let upper := (bounds.upper.get j).getD lower
    throw (.infeasible (.contradictoryBounds (m.vars.get j) lower upper))
  | none => return bounds.settle

-- Further variables are bounded by zero below and not above.
def extend (bounds : Bounds α n) (k : Nat) : Bounds α k where
  lower := Vector.ofFn fun j => if h : j < n then bounds.lower.get ⟨j, h⟩ else 0
  upper := Vector.ofFn fun j => if h : j < n then bounds.upper.get ⟨j, h⟩ else none

end Bounds

end

end LinearProgram
