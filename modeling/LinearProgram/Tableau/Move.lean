import LinearProgram.Tableau.Pivot

namespace LinearProgram

-- What ends the movement of the entering column, and how far it goes.
inductive Leaving (α : Type) (m : Nat) where
  | never
  | otherBound (length : α)
  | row (i : Fin m) (atUpper : Bool) (length : α)

inductive Move (α : Type) (m n : Nat) where
  | optimal
  | unbounded (col : Fin n)
  | flip (col : Fin n) (length : α)
  | pivot (row : Fin m) (col : Fin n) (atUpper : Bool) (length : α)

inductive Step where
  | pivoted (degenerate : Bool)
  | optimal
  | unbounded
deriving DecidableEq

section
variable {α : Type} [Scalar α] {m n : Nat}

-- A step of no length leaves the point where it is.
def Move.step : Move α m n → Step
  | .optimal => .optimal
  | .unbounded _ => .unbounded
  | .flip _ length => .pivoted (length < eps)
  | .pivot _ _ _ length => .pivoted (length < eps)

namespace Tableau

def canEnter (t : Tableau α m n) (j : Fin n) : Bool :=
  decide (¬t.reduced.get j ≤ eps) && t.isMovable j && !t.isBasic j

-- The first column of the largest price.
def steepest? (t : Tableau α m n) (cols : List (Fin n)) : Option (Fin n) :=
  cols.foldl (fun best j =>
    match best with
    | some k => if t.reduced.get j ≤ t.reduced.get k then some k else some j
    | none => some j) none

-- Bland's rule takes the first column that improves, which keeps the method from going in circles.
def entering? (t : Tableau α m n) (bland : Bool) : Option (Fin n) :=
  let cols := (List.finRange n).filter t.canEnter
  if bland then cols.head? else t.steepest? cols

-- How far column `q` can move before the basic column of row `i` meets a bound, and whether that is
-- its upper bound.
def limit? (t : Tableau α m n) (q : Fin n) (i : Fin m) : Option (α × Bool) :=
  let a := t.entry i q
  if eps < a then
    some (clip (t.rhs.get i / a), false)
  else if a < -eps then
    (t.span.get (t.basis.get i)).map fun s => (clip ((s - t.rhs.get i) / -a), true)
  else
    none

-- Shorter by more than the tolerance. Among rows a tie goes to the smaller basic column.
def isShorter (t : Tableau α m n) (i : Fin m) (length : α) : Leaving α m → Bool
  | .never => Scalar.isFinite length
  | .otherBound best => length < best - eps
  | .row k _ best =>
    length < best - eps ∨ (magnitude (length - best) ≤ eps ∧ t.basis.get i < t.basis.get k)

def leaving (t : Tableau α m n) (q : Fin n) : Leaving α m :=
  let own := match t.span.get q with
    | some s => .otherBound s
    | none => .never
  (List.finRange m).foldl (fun best i =>
    match t.limit? q i with
    | some (length, atUpper) =>
      if t.isShorter i length best then .row i atUpper length else best
    | none => best) own

-- A column with a positive price enters and moves until it or a basic column meets a bound.
def move (t : Tableau α m n) (bland : Bool) : Move α m n :=
  match t.entering? bland with
  | none => .optimal
  | some q =>
    match t.leaving q with
    | .never => .unbounded q
    | .otherBound length => .flip q length
    | .row i atUpper length => .pivot i q atUpper length

-- A column that leaves at its upper bound is complemented first, so that it leaves at zero.
def apply (t : Tableau α m n) : Move α m n → Tableau α m n
  | .optimal | .unbounded _ => t
  | .flip q _ => t.complementNonbasic q
  | .pivot r q atUpper _ => (if atUpper then t.complementBasic r else t).pivot r q

def iterate (t : Tableau α m n) (bland : Bool) : Step × Tableau α m n :=
  let move := t.move bland
  (move.step, t.apply move)

end Tableau

end

end LinearProgram
