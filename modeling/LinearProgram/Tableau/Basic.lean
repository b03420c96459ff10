import LinearProgram.StandardForm

namespace LinearProgram

-- A system of `m` equations in `n` columns, solved for its basic columns, with the price of moving
-- each other column. A column holds its variable less the lower bound, and a complemented one the
-- distance from the upper bound instead, so that every nonbasic column is at zero. The span is the
-- distance between the bounds of a column, and `none` when there is no upper bound.
structure Tableau (α : Type) (m n : Nat) where
  body : Vector (Vector α n) m
  rhs : Vector α m
  reduced : Vector α n
  objective : α
  basis : Vector (Fin n) m
  costs : Vector α n
  lower : Vector α n
  span : Vector (Option α) n
  complemented : Vector Bool n

namespace Tableau

variable {α : Type} {m n : Nat}

def rowOf? (t : Tableau α m n) (j : Fin n) : Option (Fin m) :=
  LinearProgram.rowOf? t.basis j

def isBasic (t : Tableau α m n) (j : Fin n) : Bool :=
  (t.rowOf? j).isSome

def entry (t : Tableau α m n) (i : Fin m) (j : Fin n) : α :=
  (t.body.get i).get j

variable [Scalar α]

-- A column without room between its bounds never enters the basis.
def isMovable (t : Tableau α m n) (j : Fin n) : Bool :=
  match t.span.get j with
  | some s => eps < s
  | none => true

def value (t : Tableau α m n) (j : Fin n) : α :=
  let x := match t.rowOf? j with
    | some i => t.rhs.get i
    | none => 0
  t.lower.get j + (if t.complemented.get j then (t.span.get j).getD 0 - x else x)

-- The current basic solution.
def values (t : Tableau α m n) : Vector α n :=
  Vector.ofFn t.value

-- Turning a column around turns its cost around.
def signedCost (t : Tableau α m n) (j : Fin n) : α :=
  if t.complemented.get j then -t.costs.get j else t.costs.get j

-- What the basis would earn by giving up one unit of column `j`, as the reduced cost has it.
def zRow (t : Tableau α m n) : Vector α n :=
  Vector.ofFn fun j => t.signedCost j - t.reduced.get j

def zRhs (t : Tableau α m n) : α :=
  total (List.ofFn fun i : Fin m => t.signedCost (t.basis.get i) * t.rhs.get i)

-- Basic columns cost nothing to move, and the objective is that of the current point.
def refresh (t : Tableau α m n) : Tableau α m n :=
  { t with
    reduced := Vector.ofFn fun j => if t.isBasic j then 0 else t.reduced.get j
    objective := dot t.values t.costs }

-- The reduced costs from scratch: the cost of a column less what the basis earns by it.
def reprice (t : Tableau α m n) : Tableau α m n :=
  let earned := fun j : Fin n =>
    total (List.ofFn fun i : Fin m => t.signedCost (t.basis.get i) * t.entry i j)
  refresh { t with reduced := Vector.ofFn fun j => t.signedCost j - earned j }

def setCosts (t : Tableau α m n) (costs : Vector α n) : Tableau α m n :=
  reprice { t with costs }

-- Takes away all room between the bounds of the given columns.
def fixColumns (t : Tableau α m n) (cols : List (Fin n)) : Tableau α m n :=
  { t with span := Vector.ofFn fun j => if cols.contains j then some 0 else t.span.get j }

-- All cells: the rows with their right-hand sides, the Z-row, and the reduced costs with the
-- objective.
def table (t : Tableau α m n) : List (List α) :=
  (List.ofFn fun i : Fin m => (t.body.get i).toList ++ [t.rhs.get i]) ++
    [t.zRow.toList ++ [t.zRhs], t.reduced.toList ++ [t.objective]]

end Tableau

end LinearProgram
