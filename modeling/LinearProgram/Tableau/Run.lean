import LinearProgram.Tableau.Move

namespace LinearProgram

inductive Status where
  | optimal
  | unbounded
  | iterationLimit
deriving DecidableEq

-- After this many steps of no length in a row the method goes over to Bland's rule.
def stallLimit : Nat := 50

namespace Tableau

variable {α : Type} [Scalar α] {m n : Nat}

-- `stalled` counts the steps of no length since the last one that moved the point.
def runFrom (iterations stalled : Nat) (t : Tableau α m n) : Status × Tableau α m n :=
  match iterations with
  | 0 => (.iterationLimit, t)
  | iterations + 1 =>
    match t.iterate (stallLimit ≤ stalled) with
    | (.optimal, t) => (.optimal, t)
    | (.unbounded, t) => (.unbounded, t)
    | (.pivoted degenerate, t) => runFrom iterations (if degenerate then stalled + 1 else 0) t

def run (t : Tableau α m n) (iterations : Nat) : Status × Tableau α m n :=
  runFrom iterations 0 t

end Tableau

end LinearProgram
