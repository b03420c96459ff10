import LinearProgram.Tableau.Basic

namespace LinearProgram

namespace Tableau

variable {α : Type} [Scalar α] {m n : Nat}

-- The distance between two bounds, nothing when they cross or when it is undefined.
def spanOf (lower : α) (upper : Option α) : Option α :=
  match upper with
  | some u =>
    let width := clip (u - lower)
    if Scalar.isFinite width then some width else none
  | none => if Scalar.isFinite lower ∨ lower < 0 then none else some 0

def start (matrix : Vector (Vector α n) m) (rhs : Vector α m) (costs lower : Vector α n)
    (upper : Vector (Option α) n) (basis : Vector (Fin n) m) : Tableau α m n :=
  reprice {
    body := matrix
    rhs := rhs.map clip
    reduced := costs
    objective := 0
    basis
    costs
    lower
    span := Vector.ofFn fun j => spanOf (lower.get j) (upper.get j)
    complemented := Vector.replicate n false }

-- Column `j` is one in row `i` and zero in every other row.
def isUnit (matrix : Vector (Vector α n) m) (i : Fin m) (j : Fin n) : Bool :=
  (List.finRange m).all fun k => magnitude ((matrix.get k).get j - if k = i then 1 else 0) ≤ eps

def checkBounds (rhs : Vector α m) : Except (Error α) Unit :=
  match rhs.toList.find? fun b => b < -eps with
  | some b => .error (.negativeBound b)
  | none => .ok ()

def checkBasis (matrix : Vector (Vector α n) m) (basis : Vector (Fin n) m) :
    Except (Error α) Unit :=
  match (List.finRange m).find? fun i => !isUnit matrix i (basis.get i) with
  | some i => .error (.notUnitColumn (basis.get i) i)
  | none => .ok ()

-- The right-hand side must not be negative, and the basic columns must be unit columns.
def start? (matrix : Vector (Vector α n) m) (rhs : Vector α m) (costs lower : Vector α n)
    (upper : Vector (Option α) n) (basis : Vector (Fin n) m) :
    Except (Error α) (Tableau α m n) := do
  checkBounds rhs
  checkBasis matrix basis
  return start matrix rhs costs lower upper basis

end Tableau

end LinearProgram
