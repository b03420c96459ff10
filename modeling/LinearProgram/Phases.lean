import LinearProgram.Tableau.Start
import LinearProgram.Tableau.Run

namespace LinearProgram

namespace StandardForm

variable {α : Type} [Scalar α]

-- Every artificial variable costs one unit.
def firstTableau (form : StandardForm α) : Except (Error α) (Tableau α form.rows form.cols) :=
  let costs := Vector.ofFn fun j => if form.artificial.contains j then -1 else 0
  Tableau.start? form.matrix form.rhs costs form.lower form.upper form.basis

-- Without artificial variables the first vertex is feasible already.
def isTrivial (form : StandardForm α) : Bool :=
  form.artificial.isEmpty

-- The sum of the artificial variables.
def infeasibility (form : StandardForm α) (t : Tableau α form.rows form.cols) : α :=
  total (form.artificial.map t.value)

-- The largest right-hand side, and one if that is larger.
def scale (form : StandardForm α) : α :=
  form.rhs.toList.foldl (fun largest b => greater largest (magnitude b)) 1

-- Pins the artificial variables and turns to the objective.
def retireArtificials (form : StandardForm α) (t : Tableau α form.rows form.cols) :
    Tableau α form.rows form.cols :=
  (t.fixColumns form.artificial).setCosts form.costs

-- The tolerance on the artificial variables grows with the right-hand sides.
def secondTableau (form : StandardForm α) (t : Tableau α form.rows form.cols) :
    Except (Error α) (Tableau α form.rows form.cols) :=
  let sum := form.infeasibility t
  if eps * form.scale < sum then
    .error (.infeasible (.positiveArtificials sum))
  else
    .ok (form.retireArtificials t)

end StandardForm

end LinearProgram
