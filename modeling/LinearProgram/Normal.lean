import LinearProgram.Bounds

namespace LinearProgram

-- A normalized model with the bounds of its variables. Every constraint with more than one atom is
-- an equality whose right-hand side, once the lower bounds are taken off, is not negative, and the
-- objective is maximized.
structure Normal (α : Type) where
  model : Model α
  bounds : Bounds α model.vars.length

section
variable {α : Type} [Scalar α]

def quotedName (stem : String) (i quotes : Nat) : String :=
  stem ++ toString i ++ String.join (List.replicate quotes "'")

namespace Model

-- The stem with the index and the fewest quotes that make the name new. One of the names up to as
-- many quotes as there are variables is not taken.
def freshName (m : Model α) (stem : String) (i : Nat) : String :=
  let isNew := fun quotes => (m.find? (quotedName stem i quotes)).isNone
  let quotes := ((List.range (m.vars.length + 1)).find? isNew).getD m.vars.length
  quotedName stem i quotes

def createFresh (m : Model α) (stem : String) (i : Nat) : Except (Error α) (Variable × Model α) :=
  m.createVariable (m.freshName stem i)

-- Makes constraint number `i` an equality. A slack fills up what is below the bound, a surplus
-- takes off what is above it, and a row without a slack starts from an artificial variable.
def addEquality (m : Model α) (i : Nat) (c : Constraint α) :
    Except (Error α) (Constraint α × Model α) :=
  match c.relation with
  | .le => do
    let (slack, m) ← m.createFresh "s" i
    return (⟨c.expression.addTerm slack 1, .eq, c.bound, some slack, none⟩, m)
  | .ge => do
    let (surplus, m) ← m.createFresh "s" i
    let (artificial, m) ← m.createFresh "R" i
    let e := (c.expression.addTerm surplus (-1)).addTerm artificial 1
    return (⟨e, .eq, c.bound, some surplus, some artificial⟩, m)
  | .eq => do
    let (artificial, m) ← m.createFresh "R" i
    return (⟨c.expression.addTerm artificial 1, .eq, c.bound, none, some artificial⟩, m)

end Model

namespace Constraint

-- Reversed when the right-hand side is negative at the lower bounds. A lower limit of zero is
-- reversed as well, since an upper limit needs no artificial variable.
def oriented (c : Constraint α) (lower : List α) : Constraint α :=
  let shifted := c.bound - c.expression.evaluate lower
  if shifted < 0 ∨ (shifted < eps ∧ c.relation = .ge) then c.reversed else c

end Constraint

namespace Normal

-- Goes through the constraints from number `i` on. The model collects the new variables.
def equalities (lower : List α) : Nat → List (Constraint α) → Model α →
    Except (Error α) (List (Constraint α) × Model α)
  | _, [], m => .ok ([], m)
  | i, c :: rest, m => do
    let (c, m) ← if c.isPolynomial then m.addEquality i (c.oriented lower) else .ok (c, m)
    let (cs, m) ← equalities lower (i + 1) rest m
    return (c :: cs, m)

-- The caller's variables keep their columns, and the new ones follow them.
def ofModel (m : Model α) : Except (Error α) (Normal α) := do
  let objective ← m.validate
  let simplified := { m.simplify with name := m.name ++ " (normalized)" }
  let bounds ← Bounds.ofModel simplified
  let (constraints, widened) ←
    equalities bounds.lower.toList 0 simplified.constraints simplified
  let model := { widened with constraints, objective := some objective.simplify.asMaximize }
  return ⟨model, bounds.extend model.vars.length⟩

end Normal

end

end LinearProgram
