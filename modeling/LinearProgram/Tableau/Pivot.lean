import LinearProgram.Tableau.Basic

namespace LinearProgram

namespace Tableau

variable {α : Type} [Scalar α] {m n : Nat}

-- Subtracts the multiple of the pivot row that clears column `q`.
def eliminate (pivotRow row : Vector α n) (q : Fin n) : Vector α n :=
  if row.get q == 0 then
    row
  else
    Vector.ofFn fun j => if j = q then 0 else row.get j - row.get q * pivotRow.get j

-- Column `q` takes the place of the basic column of row `r`.
def pivot (t : Tableau α m n) (r : Fin m) (q : Fin n) : Tableau α m n :=
  let p := t.entry r q
  let pivotRow := Vector.ofFn fun j => if j = q then 1 else t.entry r j / p
  let pivotRhs := t.rhs.get r / p
  refresh {
    t with
    body := Vector.ofFn fun i => if i = r then pivotRow else eliminate pivotRow (t.body.get i) q
    rhs := Vector.ofFn fun i =>
      if i = r then pivotRhs
      else if t.entry i q == 0 then t.rhs.get i
      else t.rhs.get i - t.entry i q * pivotRhs
    reduced := eliminate pivotRow t.reduced q
    basis := Vector.ofFn fun i => if i = r then q else t.basis.get i }

-- The nonbasic column `q` goes to its other bound.
def complementNonbasic (t : Tableau α m n) (q : Fin n) : Tableau α m n :=
  let u := (t.span.get q).getD 0
  refresh {
    t with
    body := Vector.ofFn fun i => Vector.ofFn fun j => if j = q then -t.entry i j else t.entry i j
    rhs := Vector.ofFn fun i => t.rhs.get i - t.entry i q * u
    reduced := Vector.ofFn fun j => if j = q then -t.reduced.get j else t.reduced.get j
    complemented := Vector.ofFn fun j =>
      if j = q then !t.complemented.get j else t.complemented.get j }

-- The basic column of row `r` is measured from its other bound, and the row is negated to keep its
-- unit entry. The column is clear in every other row.
def complementBasic (t : Tableau α m n) (r : Fin m) : Tableau α m n :=
  let k := t.basis.get r
  let u := (t.span.get k).getD 0
  { t with
    body := Vector.ofFn fun i =>
      if i = r then Vector.ofFn fun j => if j = k then t.entry i j else -t.entry i j
      else t.body.get i
    rhs := Vector.ofFn fun i => if i = r then u - t.rhs.get i else t.rhs.get i
    complemented := Vector.ofFn fun j =>
      if j = k then !t.complemented.get j else t.complemented.get j }

end Tableau

end LinearProgram
