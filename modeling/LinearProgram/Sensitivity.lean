import LinearProgram.Solution

namespace LinearProgram

-- How far a cost may fall and rise, as what to add to it. `none` stands for any distance.
structure CostChange (α : Type) where
  fall : Option α
  rise : Option α

-- The cost is that of the maximized objective.
structure CostRange (α : Type) where
  coefficient : α
  change : CostChange α

section
variable {α : Type} [Scalar α]

namespace Tableau

variable {m n : Nat}

-- The entry of row `i`, with the basic column `j` in its uncomplemented sense.
def signedEntry (t : Tableau α m n) (i : Fin m) (j k : Fin n) : α :=
  if t.complemented.get j then -t.entry i k else t.entry i k

-- Column `k` restricts the cost of the basic column `j` of row `i`.
def restricts (t : Tableau α m n) (i : Fin m) (j k : Fin n) : Bool :=
  k != j && !t.isBasic k && t.isMovable k && !decide (magnitude (t.signedEntry i j k) ≤ eps)

-- Changing the cost of the basic column by `d` changes the price of column `k` by `-d` times the
-- entry of the row, and no price may become positive.
def basicChange (t : Tableau α m n) (i : Fin m) (j : Fin n) : CostChange α :=
  ((List.finRange n).filter (t.restricts i j)).foldl (fun change k =>
    let entry := t.signedEntry i j k
    if entry < 0 then
      { change with rise := tightenUpper change.rise (t.reduced.get k / entry) }
    else
      { change with fall := tightenLower change.fall (t.reduced.get k / entry) }) ⟨none, none⟩

-- A column that cannot move stays optimal at any cost. Another nonbasic column only has to keep its
-- own price from becoming positive.
def costChange (t : Tableau α m n) (j : Fin n) : CostChange α :=
  match t.rowOf? j with
  | some i => t.basicChange i j
  | none =>
    if !t.isMovable j then ⟨none, none⟩
    else if t.complemented.get j then ⟨some (t.reduced.get j), none⟩
    else ⟨none, some (-t.reduced.get j)⟩

end Tableau

namespace CostRange

-- The ends of the range. A coefficient that is itself infinite has no range on the other side.
def low (r : CostRange α) : Option α :=
  match r.change.fall with
  | some d => some (r.coefficient + d)
  | none =>
    if Scalar.isFinite r.coefficient ∨ r.coefficient < 0 then none
    else some (r.coefficient - r.coefficient)

def high (r : CostRange α) : Option α :=
  match r.change.rise with
  | some d => some (r.coefficient + d)
  | none =>
    if Scalar.isFinite r.coefficient ∨ 0 < r.coefficient then none
    else some (r.coefficient - r.coefficient)

end CostRange

namespace Solution

-- The maximized objective's coefficients of the caller's variables.
def coefficients (s : Solution α) : List α :=
  (s.form.model.costs s.model.vars).toList

-- One range per variable of the caller's model, in the order of the columns.
def costRanges (s : Solution α) : List (CostRange α) :=
  List.zipWith (fun coefficient j => ⟨coefficient, s.tableau.costChange j⟩) s.coefficients
    (List.finRange s.form.cols)

end Solution

end

end LinearProgram
